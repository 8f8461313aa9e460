import Mathlib.Logic.Relation
import PmcBench.Threads.Program

/-!
# Views and weakest preconditions

A view is what a proof tracks about one thread: abstract states, what the
surroundings may do to a state between two actions of the thread, which
actions the thread may take in a state, and what an action does to it.
`Program.wp` follows a program through a view. `View.wp_iff` shows that it
speaks about exactly the runs of the program.
-/

namespace Threads
open Relation

structure View (Act : Type) (Res : Act → Type) where
  St : Type
  rely : St → St → Prop
  allow : St → Act → Prop
  next : St → (o : Act) → Res o → St → Prop

namespace View
variable {Act : Type} {Res : Act → Type}

/-- The same view with other permissions. -/
abbrev allowing (V : View Act Res) (A : V.St → Act → Prop) : View Act Res := { V with allow := A }

/-- A typestate: a deterministic state that only the thread's own actions move. -/
abbrev typestate {St : Type} (allow : St → Act → Prop) (next : St → (o : Act) → Res o → St) : View Act Res where
  St := St
  rely _ _ := False
  allow := allow
  next s o r s' := s' = next s o r

/-- The view of a deterministic handler; a refused action must find `stop`. -/
abbrev ofHandler {σ : Type} (h : σ → (o : Act) → Option (Res o × σ)) (stop : σ → Act → Prop) : View Act Res where
  St := σ
  rely _ _ := False
  allow s o := h s o = none → stop s o
  next s o r s' := h s o = some (r, s')

/-- The view that sees nothing. -/
abbrev free : View Act Res := typestate (fun _ _ => True) fun (_ : Unit) _ _ => ()

/-- Where `I` holds the action is allowed, and `I` holds after it. -/
def Preserves (V : View Act Res) (I : V.St → Prop) (o : Act) : Prop :=
  ∀ s, I s → V.allow s o ∧ ∀ r t, V.next s o r t → I t

end View

namespace Program
variable {Act : Type} {Res : Act → Type} {α β ι : Type} {V : View Act Res}

def wp (V : View Act Res) (Q : α → V.St → Prop) : Program Act Res α → V.St → Prop
  | .done a, s => ∀ s', ReflTransGen V.rely s s' → Q a s'
  | .act o next, s => ∀ s', ReflTransGen V.rely s s' →
      V.allow s' o ∧ ∀ r t, V.next s' o r t → (next r).wp V Q t

theorem wp_rely {p : Program Act Res α} {Q : α → V.St → Prop} {s s' : V.St} (h : p.wp V Q s)
    (moved : ReflTransGen V.rely s s') : p.wp V Q s' := by
  cases p with
  | done a => exact fun t later => h t (moved.trans later)
  | act o next => exact fun t later => h t (moved.trans later)

theorem wp_mono {p : Program Act Res α} {Q R : α → V.St → Prop} {s : V.St} (h : p.wp V Q s)
    (imp : ∀ a t, Q a t → R a t) : p.wp V R s := by
  induction p generalizing s with
  | done a => exact fun t moved => imp a t (h t moved)
  | act o next ih => exact fun t moved => ⟨(h t moved).1, fun r u step => ih r ((h t moved).2 r u step)⟩

theorem wp_bind {p : Program Act Res α} {f : α → Program Act Res β} {Q : β → V.St → Prop} {s : V.St} :
    (p >>= f).wp V Q s ↔ p.wp V (fun a => (f a).wp V Q) s := by
  induction p generalizing s with
  | done a => exact ⟨fun h t moved => wp_rely h moved, fun h => h s .refl⟩
  | act o next ih => simp only [act_bind, wp, ih]

/-- The rule for sequences, with what holds in between. -/
theorem wp_seq {p : Program Act Res α} {f : α → Program Act Res β} {R : α → V.St → Prop} {Q : β → V.St → Prop}
    {s : V.St} (first : p.wp V R s) (rest : ∀ a t, R a t → (f a).wp V Q t) : (p >>= f).wp V Q s := by
  rw [wp_bind]
  exact wp_mono first rest

theorem wp_done {a : α} {Q : α → V.St → Prop} {s : V.St} (stable : ∀ t u, Q a t → V.rely t u → Q a u)
    (h : Q a s) : (Program.done a).wp V Q s := by
  intro t moved
  induction moved with
  | refl => exact h
  | tail _ step ih => exact stable _ _ ih step

/-- The current state is one of the states the surroundings may leave. -/
theorem wp_now {o : Act} {next : Res o → Program Act Res α} {Q : α → V.St → Prop} {s : V.St}
    (h : (Program.act o next).wp V Q s) :
    V.allow s o ∧ ∀ r t, V.next s o r t → (next r).wp V Q t := h s .refl

/-- One action, where `I` holds and the surroundings leave it. -/
theorem wp_act {I : V.St → Prop} {o : Act} {next : Res o → Program Act Res α} {Q : α → V.St → Prop} {s : V.St}
    (stable : ∀ t u, I t → V.rely t u → I u) (h : I s)
    (rest : ∀ t, I t → V.allow t o ∧ ∀ r u, V.next t o r u → (next r).wp V Q u) : (Program.act o next).wp V Q s := by
  intro t moved
  apply rest t
  induction moved with
  | refl => exact h
  | tail _ step ih => exact stable _ _ ih step

/-! ### Views that nothing disturbs -/

theorem wp_done_still (still : ∀ s t, ¬ V.rely s t) {a : α} {Q : α → V.St → Prop} {s : V.St} :
    (Program.done a).wp V Q s ↔ Q a s :=
  ⟨fun h => h s .refl, wp_done fun t u _ moved => (still t u moved).elim⟩

theorem wp_act_still (still : ∀ s t, ¬ V.rely s t) {o : Act} {next : Res o → Program Act Res α}
    {Q : α → V.St → Prop} {s : V.St} :
    (Program.act o next).wp V Q s ↔ V.allow s o ∧ ∀ r t, V.next s o r t → (next r).wp V Q t := by
  refine ⟨wp_now, fun h t moved => ?_⟩
  obtain rfl | ⟨u, -, step⟩ := ReflTransGen.cases_tail moved
  · exact h
  · exact (still u t step).elim

/-- The loop rule: an invariant over the elements that remain. -/
theorem wp_forEach {body : ι → Program Act Res Unit} {I : List ι → V.St → Prop} {Q : Unit → V.St → Prop}
    {l : List ι} {s : V.St} (start : I l s)
    (stable : ∀ rest t u, I rest t → V.rely t u → I rest u)
    (step : ∀ i rest t, i :: rest <:+ l → I (i :: rest) t → (body i).wp V (fun _ => I rest) t)
    (finish : ∀ t, I [] t → Q () t) : (forEach l body).wp V Q s := by
  induction l generalizing s with
  | nil => exact fun t moved => finish t (wp_done (Q := fun _ => I []) (a := ()) (stable []) start t moved)
  | cons i rest ih =>
    rw [forEach_cons, wp_bind]
    apply wp_mono (step i rest s (List.suffix_refl _) start)
    intro _ t reached
    exact ih reached fun j tail t suffix => step j tail t (suffix.trans (List.suffix_cons i rest))

/-- The loop rule for `for (i = 0; i < n; ++i)`. -/
theorem wp_forEach_range {body : Nat → Program Act Res Unit} {I : Nat → V.St → Prop}
    {Q : Unit → V.St → Prop} {n : Nat} {s : V.St} (start : I 0 s)
    (stable : ∀ i t u, I i t → V.rely t u → I i u)
    (step : ∀ i t, i < n → I i t → (body i).wp V (fun _ => I (i + 1)) t)
    (finish : ∀ t, I n t → Q () t) : (forEach (List.range n) body).wp V Q s := by
  refine wp_forEach (I := fun rest t => I (n - rest.length) t) (by simpa using start)
    (fun rest => stable _) ?_ (by simpa using finish)
  intro i rest t suffix held
  obtain ⟨before, split⟩ := suffix
  have bound : before.length + (rest.length + 1) = n := by
    have := congrArg List.length split
    simpa using this
  have index : i = before.length := by
    have at_ := congrArg (fun l => l[before.length]?) split
    simp only [List.getElem?_append_right (Nat.le_refl _), Nat.sub_self, List.getElem?_cons_zero,
      List.getElem?_range (show before.length < n by omega)] at at_
    exact Option.some.inj at_
  subst index
  have here : n - (before.length :: rest).length = before.length := by simp; omega
  have there : n - rest.length = before.length + 1 := by omega
  rw [here] at held
  rw [there]
  exact step _ t (by omega) held

/-- A program of actions that preserve `I` preserves it. -/
theorem wp_of_preserves {p : Program Act Res α} {I : V.St → Prop} {s : V.St}
    (stable : ∀ t u, I t → V.rely t u → I u) (kept : p.All (V.Preserves I)) (h : I s) : p.wp V (fun _ => I) s := by
  induction p generalizing s with
  | done a => exact wp_done (Q := fun _ => I) stable h
  | act o next ih =>
    intro t moved
    have held : I t := wp_done (Q := fun (_ : Unit) => I) (a := ()) stable h t moved
    obtain ⟨allowed, after⟩ := kept.1 t held
    exact ⟨allowed, fun r u step => ih r (kept.2 r) (after r u step)⟩

/-- A program of actions that are allowed everywhere. -/
theorem wp_allowed {p : Program Act Res α} {s : V.St} (all : p.All fun o => ∀ t, V.allow t o) :
    p.wp V (fun _ _ => True) s := by
  apply wp_of_preserves (I := fun _ => True) (fun _ _ _ _ => trivial) _ trivial
  exact all.mono fun o allowed t _ => ⟨allowed t, fun _ _ _ => trivial⟩

/-- Two proofs about one program in views that differ only in their permissions. -/
theorem wp_and {p : Program Act Res α} {A B : V.St → Act → Prop} {Q R : α → V.St → Prop} {s : V.St}
    (first : p.wp (V.allowing A) Q s) (second : p.wp (V.allowing B) R s) :
    p.wp (V.allowing fun t o => A t o ∧ B t o) (fun a t => Q a t ∧ R a t) s := by
  induction p generalizing s with
  | done a => exact fun t moved => ⟨first t moved, second t moved⟩
  | act o next ih =>
    exact fun t moved => ⟨⟨(first t moved).1, (second t moved).1⟩,
      fun r u step => ih r ((first t moved).2 r u step) ((second t moved).2 r u step)⟩

/-- Where every allowed action has an outcome, a program has a final state. -/
theorem wp_exists {p : Program Act Res α} {Q : α → V.St → Prop} {s : V.St} (h : p.wp V Q s)
    (progress : ∀ t o, V.allow t o → ∃ r u, V.next t o r u) : ∃ a t, Q a t := by
  induction p generalizing s with
  | done a => exact ⟨a, s, h s .refl⟩
  | act o next ih =>
    obtain ⟨allowed, rest⟩ := wp_now h
    obtain ⟨r, u, step⟩ := progress s o allowed
    exact ih r (rest r u step)

/-- An action that a program cannot avoid is allowed in a state that its actions keep. -/
theorem Must.allowed {p : Program Act Res α} {φ : Act → Prop} {I : V.St → Prop} {Q : α → V.St → Prop} {s : V.St}
    (must : p.Must φ) (proved : p.wp V Q s) (kept : p.All fun o => ∀ s, I s → ∃ r t, V.next s o r t ∧ I t) (h : I s) :
    ∃ t o, I t ∧ φ o ∧ V.allow t o := by
  induction p generalizing s with
  | done a => exact must.elim
  | act o next ih =>
    obtain ⟨allowed, rest⟩ := wp_now proved
    rcases must with here | later
    · exact ⟨s, o, h, here, allowed⟩
    · obtain ⟨r, t, step, held⟩ := kept.1 s h
      exact ih r (later r) (rest r t step) (kept.2 r) held

theorem wp_free {p : Program Act Res α} {s : Unit} : p.wp .free (fun _ _ => True) s :=
  wp_allowed (.of_forall fun _ _ => trivial)

/-- A program proved in the view of a handler ends as its postcondition says,
or stops where the handler refuses. -/
theorem wp_exec {σ : Type} {h : σ → (o : Act) → Option (Res o × σ)} {stop : σ → Act → Prop}
    {p : Program Act Res α} {Q : α → σ → Prop} {s : σ} (proved : p.wp (.ofHandler h stop) Q s) :
    (∃ a t, p.exec h s = (some a, t) ∧ Q a t) ∨ ∃ t o, p.exec h s = (none, t) ∧ h t o = none ∧ stop t o := by
  induction p generalizing s with
  | done a => exact Or.inl ⟨a, s, rfl, proved s .refl⟩
  | act o next ih =>
    obtain ⟨allowed, rest⟩ := wp_now proved
    cases answer : h s o with
    | none => exact Or.inr ⟨s, o, by simp [exec, answer], answer, allowed answer⟩
    | some out =>
      obtain ⟨r, t⟩ := out
      simpa only [exec, answer] using ih r (rest r t answer)

end Program

namespace View
variable {Act : Type} {Res : Act → Type} {α : Type} {V : View Act Res}

/-- The runs of one thread between moves of its surroundings, with the actions taken. -/
inductive Run (V : View Act Res) (p : Program Act Res α) (s : V.St) :
    List (Σ o, Res o) → Program Act Res α → V.St → Prop where
  | start : Run V p s [] p s
  | move {tr q t u} (run : Run V p s tr q t) (moved : V.rely t u) : Run V p s tr q u
  | act {tr o t r u} {next : Res o → Program Act Res α} (run : Run V p s tr (.act o next) t)
      (step : V.next t o r u) : Run V p s (tr ++ [⟨o, r⟩]) (next r) u

theorem Run.wp {p q : Program Act Res α} {s t : V.St} {tr : List (Σ o, Res o)} {Q : α → V.St → Prop}
    (run : V.Run p s tr q t) (h : p.wp V Q s) : q.wp V Q t := by
  induction run with
  | start => exact h
  | move _ moved ih => exact Program.wp_rely ih (.single moved)
  | act _ step ih => exact (Program.wp_now ih).2 _ _ step

theorem Run.trans {p q q' : Program Act Res α} {s t u : V.St} {tr tr' : List (Σ o, Res o)}
    (first : V.Run p s tr q t) (second : V.Run q t tr' q' u) : V.Run p s (tr ++ tr') q' u := by
  induction second with
  | start => simpa using first
  | move _ moved ih => exact ih.move moved
  | act _ step ih => simpa using ih.act step

/-- Where every action has an outcome, a program has a run to its end. -/
theorem run_exists (V : View Act Res) (p : Program Act Res α) (s : V.St) (progress : ∀ t o, ∃ r u, V.next t o r u) :
    ∃ tr a t, V.Run p s tr (.done a) t := by
  induction p generalizing s with
  | done a => exact ⟨[], a, s, .start⟩
  | act o next ih =>
    obtain ⟨r, u, step⟩ := progress s o
    obtain ⟨tr, a, t, run⟩ := ih r u
    have first : V.Run (.act o next) s ([] ++ [⟨o, r⟩]) (next r) u := .act .start step
    exact ⟨_, a, t, first.trans run⟩

/-- Where every allowed action has an outcome unless it is one to stop at, a program that
does not end otherwise has a run to such an action. -/
theorem run_to_stop {p : Program Act Res α} {s : V.St} {P : Act → Prop} (endless : p.wp V (fun _ _ => False) s)
    (progress : ∀ t o, V.allow t o → P o ∨ ∃ r u, V.next t o r u) :
    ∃ tr o next t, V.Run p s tr (.act o next) t ∧ P o := by
  induction p generalizing s with
  | done a => exact (endless s .refl).elim
  | act o next ih =>
    obtain ⟨allowed, rest⟩ := Program.wp_now endless
    rcases progress s o allowed with here | ⟨r, u, step⟩
    · exact ⟨[], o, next, s, .start, here⟩
    · obtain ⟨tr, o', next', t, run, there⟩ := ih r (rest r u step)
      have first : V.Run (.act o next) s ([] ++ [⟨o, r⟩]) (next r) u := .act .start step
      exact ⟨_, o', next', t, first.trans run, there⟩

/-- A run of a view is one of a view with more outcomes. -/
theorem Run.outcomes {p q : Program Act Res α} {s t : V.St} {tr : List (Σ o, Res o)}
    {next : V.St → (o : Act) → Res o → V.St → Prop} (run : V.Run p s tr q t)
    (more : ∀ s o r t, V.next s o r t → next s o r t) : View.Run { V with next := next } p s tr q t := by
  induction run with
  | start => exact .start
  | move _ moved ih => exact ih.move moved
  | act _ step ih => exact ih.act (more _ _ _ _ step)

/-- The run rule: an invariant of the actions taken and the state reached. -/
theorem Run.invariant {p q : Program Act Res α} {s t : V.St} {tr : List (Σ o, Res o)}
    {I : List (Σ o, Res o) → V.St → Prop} (run : V.Run p s tr q t) (start : I [] s)
    (stable : ∀ tr t u, I tr t → V.rely t u → I tr u)
    (step : ∀ tr t o r u, I tr t → V.next t o r u → I (tr ++ [⟨o, r⟩]) u) : I tr t := by
  induction run with
  | start => exact start
  | move _ moved ih => exact stable _ _ _ ih moved
  | act _ taken ih => exact step _ _ _ _ _ ih taken

/-- A run to the end has taken an action that the program cannot avoid. -/
theorem Run.must {p q : Program Act Res α} {s t : V.St} {tr : List (Σ o, Res o)} {φ : Act → Prop}
    (run : V.Run p s tr q t) (must : p.Must φ) : (∃ e ∈ tr, φ e.1) ∨ q.Must φ := by
  induction run with
  | start => exact Or.inr must
  | move _ _ ih => exact ih
  | @act tr o t r u next _ _ ih =>
    rcases ih with ⟨e, member, holds⟩ | here | later
    · exact Or.inl ⟨e, List.mem_append_left _ member, holds⟩
    · exact Or.inl ⟨⟨o, r⟩, by simp, here⟩
    · exact Or.inr (later r)

theorem Run.moves {p : Program Act Res α} {s t : V.St} (moved : ReflTransGen V.rely s t) :
    V.Run p s [] p t := by
  induction moved with
  | refl => exact .start
  | tail _ step ih => exact ih.move step

/-- A weakest precondition holds exactly when every run takes only allowed
actions and every final state satisfies the postcondition. -/
theorem wp_iff {p : Program Act Res α} {Q : α → V.St → Prop} {s : V.St} :
    p.wp V Q s ↔ (∀ tr o next t, V.Run p s tr (.act o next) t → V.allow t o) ∧
      ∀ tr a t, V.Run p s tr (.done a) t → Q a t := by
  constructor
  · intro h
    exact ⟨fun tr o next t run => (Program.wp_now (run.wp h)).1, fun tr a t run => run.wp h t .refl⟩
  · rintro ⟨safe, final⟩
    induction p generalizing s with
    | done a => exact fun t moved => final [] a t (.moves moved)
    | act o next ih =>
      intro t moved
      have here : V.Run (.act o next) s [] (.act o next) t := .moves moved
      refine ⟨safe [] o next t here, fun r u step => ih r ?_ ?_⟩
      · intro tr o' next' v run
        exact safe _ o' next' v ((here.act step).trans run)
      · intro tr a v run
        exact final _ a v ((here.act step).trans run)

theorem Run.allowing {p q : Program Act Res α} {s t : V.St} {tr : List (Σ o, Res o)} (A : V.St → Act → Prop)
    (run : V.Run p s tr q t) : (V.allowing A).Run p s tr q t := by
  induction run with
  | start => exact .start
  | move _ moved ih => exact ih.move moved
  | act _ step ih => exact ih.act step

/-- The runs of a view do not depend on its permissions. -/
theorem run_allowing {p q : Program Act Res α} {s t : V.St} {tr : List (Σ o, Res o)} {A : V.St → Act → Prop} :
    (V.allowing A).Run p s tr q t ↔ V.Run p s tr q t :=
  ⟨fun run => Run.allowing (V := V.allowing A) V.allow run, fun run => run.allowing A⟩

end View

end Threads
