import Mathlib.Logic.Function.Basic
import PmcBench.Threads.View

/-!
# Threads over shared memory

A system gives each atomic action of a thread its effect on the shared state,
and says what the surroundings (hardware, clock, scheduler) may do by
themselves. `System.Run` interleaves the actions of all threads in every
order. `RelyGuarantee.run` is the proof rule: each thread is proved alone in
its own view, and one step of anything must look like a step or like an
allowed disturbance in every view.
-/

namespace Threads

/-- What happens in a run: an action of a thread, or a move of the surroundings. -/
inductive Event (Tid Env Act : Type) (Res : Act → Type) : Type where
  | act (t : Tid) (o : Act) (r : Res o)
  | env (e : Env)

structure System (Tid Env Act : Type) (Res : Act → Type) (σ : Type) where
  act : Tid → σ → (o : Act) → Res o → σ → Prop
  env : Env → σ → σ → Prop

/-- The shared state and what is left of each thread's program. -/
structure Config (Tid Act : Type) (Res : Act → Type) (σ : Type) where
  state : σ
  pool : Tid → Program Act Res Unit

namespace System
variable {Tid Env Act σ : Type} {Res : Act → Type} [DecidableEq Tid]

inductive Step (sys : System Tid Env Act Res σ) :
    Config Tid Act Res σ → Event Tid Env Act Res → Config Tid Act Res σ → Prop where
  | act {c : Config Tid Act Res σ} {t o r s'} {next : Res o → Program Act Res Unit}
      (head : c.pool t = .act o next) (effect : sys.act t c.state o r s') :
      Step sys c (.act t o r) ⟨s', Function.update c.pool t (next r)⟩
  | env {c : Config Tid Act Res σ} {e s'} (effect : sys.env e c.state s') : Step sys c (.env e) ⟨s', c.pool⟩

/-- The runs whose every step satisfies `C`, a condition on the history, the
state before the step and the step. -/
inductive Run (sys : System Tid Env Act Res σ)
    (C : List (Event Tid Env Act Res) → σ → Event Tid Env Act Res → Prop) (c : Config Tid Act Res σ) :
    List (Event Tid Env Act Res) → Config Tid Act Res σ → Prop where
  | start : Run sys C c [] c
  | step {tr c' e c''} (run : Run sys C c tr c') (meets : C tr c'.state e) (step : Step sys c' e c'') :
      Run sys C c (tr ++ [e]) c''

variable {sys : System Tid Env Act Res σ} {C D : List (Event Tid Env Act Res) → σ → Event Tid Env Act Res → Prop}

theorem Run.mono {c c' : Config Tid Act Res σ} {tr : List (Event Tid Env Act Res)} (run : sys.Run C c tr c')
    (imp : ∀ tr s e, C tr s e → D tr s e) : sys.Run D c tr c' := by
  induction run with
  | start => exact .start
  | step _ meets step ih => exact ih.step (imp _ _ _ meets) step

/-- What holds of every prefix of a run's history, each of its steps may assume. -/
theorem Run.upTo {c c' : Config Tid Act Res σ} {tr : List (Event Tid Env Act Res)} (run : sys.Run C c tr c')
    {P : List (Event Tid Env Act Res) → Prop} (holds : ∀ before, before <+: tr → P before) :
    sys.Run (fun tr s e => C tr s e ∧ P tr) c tr c' := by
  induction run with
  | start => exact .start
  | @step tr d e d' run meets step ih =>
    have earlier : tr <+: tr ++ [e] := List.prefix_append ..
    exact (ih fun before front => holds before (front.trans earlier)).step ⟨meets, holds tr earlier⟩ step

theorem Run.each {c c' : Config Tid Act Res σ} {tr : List (Event Tid Env Act Res)} (run : sys.Run C c tr c')
    {P : Event Tid Env Act Res → Prop} (all : ∀ e ∈ tr, P e) : sys.Run (fun _ _ e => P e) c tr c' := by
  induction run with
  | start => exact .start
  | @step tr d e d' run meets step ih =>
    exact (ih fun e member => all e (List.mem_append_left _ member)).step (all e (by simp)) step

/-- Every step of a run's history met the condition where it was taken. -/
theorem Run.meets {c c' : Config Tid Act Res σ} {pre post tr : List (Event Tid Env Act Res)}
    {e : Event Tid Env Act Res} (run : sys.Run C c tr c') (split : tr = pre ++ e :: post) : ∃ s, C pre s e := by
  induction run generalizing post with
  | start => simp at split
  | @step tr d e' d' run meets step ih =>
    rcases List.eq_nil_or_concat post with rfl | ⟨rest, last, rfl⟩
    · obtain ⟨rfl, same⟩ := List.append_inj' split rfl
      cases same
      exact ⟨d.state, meets⟩
    · rw [List.concat_eq_append, ← List.cons_append, ← List.append_assoc] at split
      exact ih (List.append_inj_left' split rfl)

theorem Run.all {c c' : Config Tid Act Res σ} {tr : List (Event Tid Env Act Res)} {t : Tid} {φ : Act → Prop}
    (run : sys.Run C c tr c') (all : (c.pool t).All φ) :
    (c'.pool t).All φ ∧ ∀ o r, .act t o r ∈ tr → φ o := by
  induction run with
  | start => exact ⟨all, by simp⟩
  | step run meets step ih =>
    obtain ⟨left, taken⟩ := ih
    cases step with
    | env effect =>
      refine ⟨left, fun o r member => taken o r ?_⟩
      simpa using member
    | @act u o r s' next head effect =>
      by_cases same : u = t
      · subst same
        rw [head] at left
        refine ⟨by simpa using left.2 r, fun o' r' member => ?_⟩
        rcases List.mem_append.mp member with earlier | now
        · exact taken o' r' earlier
        · cases List.mem_singleton.mp now
          exact left.1
      · refine ⟨by simpa [Function.update_of_ne (Ne.symm same)] using left, fun o' r' member => taken o' r' ?_⟩
        rcases List.mem_append.mp member with earlier | now
        · exact earlier
        · cases List.mem_singleton.mp now
          exact (same rfl).elim

/-- A thread that has ended has taken an action that its program must take. -/
theorem Run.must {c c' : Config Tid Act Res σ} {tr : List (Event Tid Env Act Res)} {t : Tid} {φ : Act → Prop}
    (run : sys.Run C c tr c') (must : (c.pool t).Must φ) :
    (c'.pool t).Must φ ∨ ∃ o r, .act t o r ∈ tr ∧ φ o := by
  induction run with
  | start => exact Or.inl must
  | step run meets step ih =>
    rcases ih with due | ⟨o, r, member, taken⟩
    · cases step with
      | env effect => exact Or.inl due
      | @act u o r s' next head effect =>
        by_cases same : u = t
        · subst same
          rw [head] at due
          rcases due with now | later
          · exact Or.inr ⟨o, r, by simp, now⟩
          · exact Or.inl (by simpa using later r)
        · exact Or.inl (by simpa [Function.update_of_ne (Ne.symm same)] using due)
    · exact Or.inr ⟨o, r, List.mem_append_left _ member, taken⟩

end System

/-- A proof of a system by rely and guarantee. `abs` is what each thread's view
shows of the history and the state. -/
structure RelyGuarantee {Tid Env Act σ : Type} {Res : Act → Type} (sys : System Tid Env Act Res σ)
    (C : List (Event Tid Env Act Res) → σ → Event Tid Env Act Res → Prop) where
  view : Tid → View Act Res
  abs : (t : Tid) → List (Event Tid Env Act Res) → σ → (view t).St
  inv : List (Event Tid Env Act Res) → σ → Prop
  own : ∀ {t tr s o r s'}, inv tr s → (view t).allow (abs t tr s) o → C tr s (.act t o r) →
    sys.act t s o r s' → (view t).next (abs t tr s) o r (abs t (tr ++ [.act t o r]) s')
  others : ∀ {t u tr s o r s'}, u ≠ t → inv tr s → (view t).allow (abs t tr s) o → C tr s (.act t o r) →
    sys.act t s o r s' → Relation.ReflTransGen (view u).rely (abs u tr s) (abs u (tr ++ [.act t o r]) s')
  moves : ∀ {u tr s e s'}, inv tr s → C tr s (.env e) → sys.env e s s' →
    Relation.ReflTransGen (view u).rely (abs u tr s) (abs u (tr ++ [.env e]) s')
  inv_act : ∀ {t tr s o r s'}, inv tr s → (view t).allow (abs t tr s) o → C tr s (.act t o r) →
    sys.act t s o r s' → inv (tr ++ [.act t o r]) s'
  inv_env : ∀ {tr s e s'}, inv tr s → C tr s (.env e) → sys.env e s s' → inv (tr ++ [.env e]) s'

namespace RelyGuarantee
variable {Tid Env Act σ : Type} {Res : Act → Type} [DecidableEq Tid] {sys : System Tid Env Act Res σ}
  {C : List (Event Tid Env Act Res) → σ → Event Tid Env Act Res → Prop}

/-- In every configuration a run reaches, the invariant holds and every thread
is still as its proof says. -/
theorem run (rg : RelyGuarantee sys C) (post : (t : Tid) → Unit → (rg.view t).St → Prop)
    {c c' : Config Tid Act Res σ} {tr : List (Event Tid Env Act Res)} (h : sys.Run C c tr c')
    (start : rg.inv [] c.state)
    (threads : ∀ t, (c.pool t).wp (rg.view t) (post t) (rg.abs t [] c.state)) :
    rg.inv tr c'.state ∧ ∀ t, (c'.pool t).wp (rg.view t) (post t) (rg.abs t tr c'.state) := by
  induction h with
  | start => exact ⟨start, threads⟩
  | step _ meets step ih =>
    obtain ⟨held, proved⟩ := ih
    cases step with
    | env effect =>
      exact ⟨rg.inv_env held meets effect, fun t => Program.wp_rely (proved t) (rg.moves held meets effect)⟩
    | @act t o r s' next head effect =>
      have turn := proved t
      rw [head] at turn
      obtain ⟨allowed, after⟩ := Program.wp_now turn
      refine ⟨rg.inv_act held allowed meets effect, fun u => ?_⟩
      by_cases same : u = t
      · subst same
        simpa using after r _ (rg.own held allowed meets effect)
      · simpa [same] using Program.wp_rely (proved u) (rg.others same held allowed meets effect)

end RelyGuarantee

/-! ### One proof after another -/

namespace RelyGuarantee
variable {Tid Env Act σ : Type} {Res : Act → Type} {sys : System Tid Env Act Res σ}
  {C : List (Event Tid Env Act Res) → σ → Event Tid Env Act Res → Prop}

/-- The same proof for threads that keep to further permissions. -/
def allowing (rg : RelyGuarantee sys C) (A : (t : Tid) → (rg.view t).St → Act → Prop) : RelyGuarantee sys C where
  view t := (rg.view t).allowing fun s o => (rg.view t).allow s o ∧ A t s o
  abs := rg.abs
  inv := rg.inv
  own held allowed := rg.own held allowed.1
  others different held allowed := rg.others different held allowed.1
  moves := rg.moves
  inv_act held allowed := rg.inv_act held allowed.1
  inv_env := rg.inv_env

/-- A step that meets `C`, from a state with the invariant, by a thread whose proof allows it. -/
def Kept (rg : RelyGuarantee sys C) (tr : List (Event Tid Env Act Res)) (s : σ) (e : Event Tid Env Act Res) : Prop :=
  C tr s e ∧ rg.inv tr s ∧ ∀ t o r, e = .act t o r → (rg.view t).allow (rg.abs t tr s) o

/-- What one proof shows of every step, the next may assume. -/
theorem kept [DecidableEq Tid] (rg : RelyGuarantee sys C) (post : (t : Tid) → Unit → (rg.view t).St → Prop)
    {c c' : Config Tid Act Res σ} {tr : List (Event Tid Env Act Res)} (h : sys.Run C c tr c')
    (start : rg.inv [] c.state) (threads : ∀ t, (c.pool t).wp (rg.view t) (post t) (rg.abs t [] c.state)) :
    sys.Run rg.Kept c tr c' := by
  induction h with
  | start => exact .start
  | step run meets step ih =>
    obtain ⟨held, proved⟩ := rg.run post run start threads
    refine ih.step ⟨meets, held, ?_⟩ step
    rintro t o r rfl
    obtain ⟨head, -⟩ := step
    have turn := proved t
    rw [head] at turn
    exact (Program.wp_now turn).1

end RelyGuarantee

/-! ### Playing a schedule -/

namespace System
variable {Tid Env Act σ : Type} {Res : Act → Type} [DecidableEq Tid]

/-- One way to resolve the choices of a system: an answer to each action and a
response to each move of the surroundings. -/
structure Player (sys : System Tid Env Act Res σ) where
  answer : Tid → σ → (o : Act) → Option (Res o × σ)
  respond : Env → σ → Option σ
  answer_sound : ∀ {t s o r s'}, answer t s o = some (r, s') → sys.act t s o r s'
  respond_sound : ∀ {e s s'}, respond e s = some s' → sys.env e s s'

variable {sys : System Tid Env Act Res σ} {C : List (Event Tid Env Act Res) → σ → Event Tid Env Act Res → Prop}

/-- Plays a schedule: at each place, one action of a thread or one move of the
surroundings. It stops where `ok` refuses a step. -/
def Player.play (p : Player sys) (ok : List (Event Tid Env Act Res) → σ → Event Tid Env Act Res → Bool) :
    List (Tid ⊕ Env) → List (Event Tid Env Act Res) → Config Tid Act Res σ →
    Option (List (Event Tid Env Act Res) × Config Tid Act Res σ)
  | [], tr, c => some (tr, c)
  | .inr e :: rest, tr, c =>
    match p.respond e c.state with
    | some s' => if ok tr c.state (.env e) then p.play ok rest (tr ++ [.env e]) ⟨s', c.pool⟩ else none
    | none => none
  | .inl t :: rest, tr, c =>
    match c.pool t with
    | .done _ => none
    | .act o next =>
      match p.answer t c.state o with
      | some (r, s') =>
        if ok tr c.state (.act t o r) then
          p.play ok rest (tr ++ [.act t o r]) ⟨s', Function.update c.pool t (next r)⟩
        else none
      | none => none

theorem Player.play_run (p : Player sys) {ok : List (Event Tid Env Act Res) → σ → Event Tid Env Act Res → Bool}
    (meets : ∀ tr s e, ok tr s e = true → C tr s e) {c₀ c c' : Config Tid Act Res σ} {sched : List (Tid ⊕ Env)}
    {tr tr' : List (Event Tid Env Act Res)} (run : sys.Run C c₀ tr c)
    (played : p.play ok sched tr c = some (tr', c')) : sys.Run C c₀ tr' c' := by
  induction sched generalizing tr c with
  | nil =>
    simp only [play, Option.some.injEq, Prod.mk.injEq] at played
    obtain ⟨rfl, rfl⟩ := played
    exact run
  | cons turn rest ih =>
    cases turn with
    | inr e =>
      unfold play at played
      split at played
      · rename_i s' responded
        split at played
        · rename_i fine
          exact ih (run.step (meets _ _ _ fine) (.env (p.respond_sound responded))) played
        · cases played
      · cases played
    | inl t =>
      unfold play at played
      split at played
      · cases played
      · rename_i o next head
        split at played
        · rename_i r s' answered
          split at played
          · rename_i fine
            exact ih (run.step (meets _ _ _ fine) (.act head (p.answer_sound answered))) played
          · cases played
        · cases played

end System

end Threads
