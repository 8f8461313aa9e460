import PmcBench.MsrtestCounts

/-!
# What msrtest leaves behind (msrtest.cc)

A handle that cannot be opened ends the program; no access does. Either way the
counters of the CPUs that were set up stay enabled. `main_ends` says what each CPU
holds then, whatever accesses have failed.
-/

namespace PmcBench.Msrtest
open Threads Words
open Program (forEach)

variable {hw : FixedPmu} {x : Nat}

/-! ### The history of one CPU -/

/-- The writes to CPU `x` and whether they succeeded. -/
def attempts (x : Nat) (tr : List (Ev hw)) : List (Nat × Word × Bool) := tr.filterMap fun
  | .act _ (.pwrite cpu reg v) r => if cpu = x then some (reg, v, r) else none
  | _ => none

def opened (tr : List (Ev hw)) : Nat := tr.countP fun
  | .act _ (.openMsr _) r => r
  | _ => false

def refused (tr : List (Ev hw)) : List Nat := tr.filterMap fun
  | .act _ (.openMsr cpu) r => if r then none else some cpu
  | _ => none

def ticksOn (x : Nat) (tr : List (Ev hw)) : List hw.Tick := tr.filterMap fun
  | .env (cpu, t) => if cpu = x then some t else none
  | _ => none

structure Ledger where
  attempts : List (Nat × Word × Bool)
  opened : Nat
  refused : List Nat
  printed : List Line

def ledger (x : Nat) (tr : List (Ev hw)) : Ledger := ⟨Msrtest.attempts x tr, Msrtest.opened tr, Msrtest.refused tr, Msrtest.printed tr⟩

def Ledger.next (x : Nat) (s : Ledger) : (o : Act) → o.Res → Ledger
  | .openMsr cpu, r => if r then { s with opened := s.opened + 1 } else { s with refused := s.refused ++ [cpu] }
  | .pwrite cpu reg v, r => if cpu = x then { s with attempts := s.attempts ++ [(reg, v, r)] } else s
  | .cout line, _ => { s with printed := s.printed ++ [line] }
  | _, _ => s

theorem ledger_act (tr : List (Ev hw)) (o : Act) (r : o.Res) :
    ledger x (tr ++ [.act () o r]) = (ledger x tr).next x o r := by
  cases o with
  | openMsr cpu => cases r <;> simp [ledger, Ledger.next, attempts, opened, refused, printed]
  | pwrite cpu reg v =>
    by_cases here : cpu = x <;> simp [ledger, Ledger.next, attempts, opened, refused, printed, here]
  | _ => simp [ledger, Ledger.next, attempts, opened, refused, printed]

theorem ledger_env (tr : List (Ev hw)) (e : Nat × hw.Tick) : ledger x (tr ++ [.env e]) = ledger x tr := by
  simp [ledger, attempts, opened, refused, printed]

/-- What the writes to a CPU leave in a register that is not a counter. -/
def holds (writes : List (Nat × Word × Bool)) (start : Word) (a : Nat) : Word :=
  writes.foldl (fun v w => if w.1 = a ∧ w.2.2 = true then w.2.1 else v) start

theorem holds_snoc (writes : List (Nat × Word × Bool)) (reg : Nat) (v : Word) (r : Bool) (start : Word) (a : Nat) :
    holds (writes ++ [(reg, v, r)]) start a = if reg = a ∧ r = true then v else holds writes start a := by
  simp [holds]

/-- The registers follow from the writes and the events, for registers that are not
counters and for CPUs that nothing is written to. -/
structure Follows (m : Machine) (tr : List (Ev hw)) (m' : Machine) : Prop where
  plain : ∀ x a, ¬ isFixed a → ¬ isPmc a → m'.msr x a = holds (attempts x tr) (m.msr x a) a
  untouched : ∀ x, attempts x tr = [] → m'.msr x = hw.run (m.msr x) (ticksOn x tr)

theorem attempts_act (tr : List (Ev hw)) (o : Act) (r : o.Res) :
    attempts x (tr ++ [.act () o r]) = ((ledger x tr).next x o r).attempts := congrArg Ledger.attempts (ledger_act tr o r)

theorem effect_msr {m m' : Machine} {o : Act} {r : o.Res} (step : effect m o r m') (other : ∀ cpu reg v, o ≠ .pwrite cpu reg v) :
    m'.msr = m.msr ∧ ∀ s : Ledger, (s.next x o r).attempts = s.attempts := by
  cases o with
  | pwrite cpu reg v => exact (other cpu reg v rfl).elim
  | openMsr cpu =>
    obtain rfl := step
    exact ⟨rfl, fun s => by cases r <;> rfl⟩
  | declare =>
    obtain ⟨v, rfl⟩ := step
    exact ⟨rfl, fun _ => rfl⟩
  | pread =>
    obtain ⟨-, rfl⟩ | ⟨-, rfl⟩ := step <;> exact ⟨rfl, fun _ => rfl⟩
  | load =>
    obtain ⟨-, rfl⟩ := step
    exact ⟨rfl, fun _ => rfl⟩
  | _ =>
    obtain rfl := step
    exact ⟨rfl, fun _ => rfl⟩

theorem Follows.act {m m' m'' : Machine} {tr : List (Ev hw)} {o : Act} {r : o.Res} (follows : Follows m tr m')
    (step : effect m' o r m'') : Follows m (tr ++ [.act () o r]) m'' := by
  have ticks (x : Nat) : ticksOn x (tr ++ [.act () o r]) = ticksOn x tr := by simp [ticksOn]
  by_cases write : ∃ cpu reg v, o = .pwrite cpu reg v
  · obtain ⟨cpu, reg, v, rfl⟩ := write
    have there (x : Nat) (other : cpu ≠ x) : m''.msr x = m'.msr x ∧
        attempts x (tr ++ [.act () (.pwrite cpu reg v) r]) = attempts x tr := by
      refine ⟨?_, by rw [attempts_act, Ledger.next, if_neg other]; rfl⟩
      obtain ⟨-, rfl⟩ | ⟨-, rfl⟩ := step
      · exact Function.update_of_ne (Ne.symm other) ..
      · rfl
    have here : attempts cpu (tr ++ [.act () (.pwrite cpu reg v) r]) = attempts cpu tr ++ [(reg, v, r)] := by
      rw [attempts_act, Ledger.next, if_pos rfl]
      rfl
    refine ⟨fun x a notFixed notPmc => ?_, fun x none => ?_⟩
    · by_cases other : cpu = x
      · subst other
        rw [here, holds_snoc, ← follows.plain cpu a notFixed notPmc]
        obtain ⟨rfl, rfl⟩ | ⟨rfl, rfl⟩ := step
        · simp [Machine.write, Function.update_apply, eq_comm]
        · simp
      · rw [(there x other).1, (there x other).2]
        exact follows.plain x a notFixed notPmc
    · by_cases other : cpu = x
      · subst other
        simp [here] at none
      · rw [(there x other).2] at none
        rw [(there x other).1, ticks]
        exact follows.untouched x none
  · have same (x : Nat) := effect_msr (x := x) step fun cpu reg v equal => write ⟨cpu, reg, v, equal⟩
    refine ⟨fun x a notFixed notPmc => ?_, fun x none => ?_⟩
    · rw [(same x).1, attempts_act, (same x).2]
      exact follows.plain x a notFixed notPmc
    · rw [attempts_act, (same x).2] at none
      rw [(same x).1, ticks]
      exact follows.untouched x none

theorem Follows.tick {m m' : Machine} {tr : List (Ev hw)} (follows : Follows m tr m') (cpu : Nat) (t : hw.Tick) :
    Follows m (tr ++ [.env (cpu, t)]) (m'.tick cpu t) := by
  have writes (x : Nat) : attempts x (tr ++ [.env (cpu, t)]) = attempts x tr := by simp [attempts]
  refine ⟨fun x a notFixed notPmc => ?_, fun x none => ?_⟩
  · rw [writes, ← follows.plain x a notFixed notPmc]
    by_cases here : x = cpu
    · subst here
      have kept : hw.tick (m'.msr x) t a = m'.msr x a := FixedPmu.tick_other notFixed notPmc t
      simpa [Machine.tick] using kept
    · simp [Machine.tick, here]
  · rw [writes] at none
    have before := follows.untouched x none
    by_cases here : cpu = x
    · subst here
      have later : ticksOn cpu (tr ++ [.env (cpu, t)]) = ticksOn cpu tr ++ [t] := by simp [ticksOn]
      rw [later, FixedPmu.run_snoc, ← before]
      simp [Machine.tick]
    · have later : ticksOn x (tr ++ [.env (cpu, t)]) = ticksOn x tr := by simp [ticksOn, here]
      rw [later, ← before]
      exact Function.update_of_ne (Ne.symm here) ..

/-! ### The view of the ends -/

/-- The first `n` CPUs have been set up, as far as CPU `x` is concerned. -/
structure SetUpTo (x n : Nat) (s : Ledger) : Prop where
  opened : s.opened = n
  untouched : n ≤ x → s.attempts = []
  programmed : x < n → ∃ v r r', s.attempts = [(ia32CrFixedCtrCtrl, (List.finRange 3).foldl countRings v, r),
    (ia32CrPerfGlobalCtrl, startCounting, r')]

/-- The program ends early only where a handle is refused, before it prints anything. -/
def Ends (x : Nat) (s : Ledger) : Act → Prop
  | .assertFailed => False
  | .terminate => s.opened < numCores ∧ SetUpTo x s.opened s ∧ s.refused = [s.opened] ∧ s.printed = []
  | _ => True

abbrev endsView (x : Nat) : View Act Act.Res := .typestate (Ends x) (Ledger.next x)

/-- The first `n` CPUs have been set up, and no handle was refused. -/
structure Going (x n : Nat) (s : Ledger) : Prop where
  setUp : SetUpTo x n s
  accepted : s.refused = []

theorem wp_action {α : Type} {o : Act} {next : o.Res → TProg α} {Q : α → Ledger → Prop} {s : Ledger}
    (allowed : Ends x s o) (rest : ∀ r, (next r).wp (endsView x) Q (s.next x o r)) :
    (Program.act o next).wp (endsView x) Q s := by
  rw [Program.wp_act_still fun _ _ => id]
  refine ⟨allowed, fun r t step => ?_⟩
  obtain rfl : t = s.next x o r := step
  exact rest r

theorem wp_setUp_ends {cpuMsr : Word} {j : Nat} (core : j < numCores) {s : Ledger} (going : Going x j s)
    (silent : s.printed = []) :
    (setUp cpuMsr j).wp (endsView x) (fun _ s => Going x (j + 1) s ∧ s.printed = []) s := by
  obtain ⟨⟨count, untouched, programmed⟩, accepted⟩ := going
  unfold setUp openMsr
  simp only [read, write, perform, assert_nonneg, Program.call_bind, Program.act_bind, Program.pure_eq, Program.done_bind]
  apply wp_action
  · trivial
  intro accepts
  cases accepts with
  | false =>
    apply wp_action
    · trivial
    intro _
    apply wp_action
    · exact ⟨count ▸ core, ⟨rfl, count ▸ untouched, count ▸ programmed⟩,
        by show s.refused ++ [j] = [s.opened]; rw [accepted, count]; rfl, silent⟩
    · exact fun never => never.elim
  | true =>
    apply wp_action (o := .declare .ctrlReg) (by trivial)
    intro _
    apply wp_action (o := .pread ..) (by trivial)
    intro _
    apply wp_action (o := .load _) (by trivial)
    intro v
    apply wp_action (o := .pwrite ..) (by trivial)
    intro r
    apply wp_action (o := .pwrite ..) (by trivial)
    intro r'
    rw [Program.wp_done_still fun _ _ => id]
    by_cases here : j = x
    · subst here
      simp only [Ledger.next, if_true]
      refine ⟨⟨⟨congrArg (· + 1) count, fun below => absurd below (by omega), fun _ => ⟨v, r, r', ?_⟩⟩, accepted⟩, silent⟩
      show s.attempts ++ [_] ++ [_] = _
      rw [untouched (Nat.le_refl j)]
      rfl
    · simp only [Ledger.next, if_neg here, if_true]
      exact ⟨⟨⟨congrArg (· + 1) count, fun below => untouched (by omega), fun below => programmed (by omega)⟩, accepted⟩,
        silent⟩

def Unrecorded : Act → Prop
  | .declare _ | .pread .. | .load _ | .sleep _ | .close _ => True
  | _ => False

theorem wp_unrecorded {α : Type} {p : TProg α} {s : Ledger} {φ : Ledger → Prop} (all : p.All Unrecorded) (now : φ s) :
    p.wp (endsView x) (fun _ => φ) s := by
  apply Program.wp_of_preserves (V := endsView x) (fun _ _ _ moved => moved.elim) _ now
  apply all.mono
  intro o unrecorded s held
  cases o with
  | declare | pread | load | sleep | close =>
    refine ⟨trivial, fun r t step => ?_⟩
    obtain rfl : t = s := step
    exact held
  | _ => exact unrecorded.elim

theorem all_readCounters (j : Nat) (y : Fin 3 → Var) : (readCounters j y).All Unrecorded := by
  apply Program.All.forEach
  intro k _
  simp only [read, perform, assert_nonneg, Program.call_bind, Program.act_bind, Program.pure_eq, Program.done_bind]
  exact ⟨trivial, fun _ => trivial⟩

theorem wp_printCore_ends {j : Nat} {s : Ledger} (going : Going x numCores s)
    (lines : s.printed.map Line.core = List.range j) :
    (printCore j).wp (endsView x) (fun _ s => Going x numCores s ∧ s.printed.map Line.core = List.range (j + 1)) s := by
  unfold printCore difference
  simp only [perform, Program.call_bind, Program.act_bind, Program.pure_eq, Program.done_bind]
  iterate 4
    apply wp_action (o := .load _) (by trivial)
    intro _
  apply wp_action (o := .cout _) (by trivial)
  intro _
  rw [Program.wp_done_still fun _ _ => id]
  refine ⟨⟨⟨going.setUp.opened, going.setUp.untouched, going.setUp.programmed⟩, going.accepted⟩, ?_⟩
  show (s.printed ++ [_]).map Line.core = _
  rw [List.map_append, lines, List.range_succ]
  rfl

theorem wp_main_ends {cpuMsr : Word} : (main cpuMsr).wp (endsView x)
    (fun _ s => Going x numCores s ∧ s.printed.map Line.core = List.range numCores) ⟨[], 0, [], []⟩ := by
  have still (P : Ledger → Prop) (s t : Ledger) (_ : P s) (moved : (endsView x).rely s t) : P t := moved.elim
  unfold main
  apply Program.wp_seq (R := fun _ (s : Ledger) => Going x numCores s ∧ s.printed = [])
  · apply Program.wp_forEach_range (I := fun j (s : Ledger) => Going x j s ∧ s.printed = [])
    · exact ⟨⟨⟨rfl, fun _ => rfl, fun below => absurd below (Nat.not_lt_zero x)⟩, rfl⟩, rfl⟩
    · exact fun j => still _
    · exact fun j s bound held => wp_setUp_ends bound held.1 held.2
    · exact fun s done => done
  intro _ s held
  let Done (s : Ledger) : Prop := Going x numCores s ∧ s.printed = []
  apply Program.wp_seq (wp_unrecorded (φ := Done) (.forEach fun j _ => all_readCounters j _) held)
  intro _ s held
  apply wp_action (o := .sleep 1) (by trivial)
  intro _
  apply Program.wp_seq (wp_unrecorded (φ := Done) (.forEach fun j _ => all_readCounters j _) held)
  intro _ s held
  have close (j : Nat) : (perform (.close j)).All Unrecorded := ⟨trivial, fun _ => trivial⟩
  apply Program.wp_seq (wp_unrecorded (φ := Done) (.forEach fun j _ => close j) held)
  intro _ s held
  apply Program.wp_forEach_range (I := fun j (s : Ledger) => Going x numCores s ∧ s.printed.map Line.core = List.range j)
  · exact ⟨held.1, by rw [held.2]; rfl⟩
  · exact fun j => still _
  · exact fun j s _ held => wp_printCore_ends held.1 held.2
  · exact fun s done => done

/-! ### Runs -/

def ends (hw : FixedPmu) (m : Machine) (x : Nat) : RelyGuarantee (machine hw) (fun _ _ _ => True) where
  view _ := endsView x
  abs _ tr _ := ledger x tr
  inv := Follows m
  own {t tr s o r s'} _ _ _ _ := ledger_act tr o r
  others different _ _ _ _ := (different rfl).elim
  moves {u tr s e s'} _ _ _ := by
    rw [ledger_env]
  inv_act follows _ _ step := follows.act step
  inv_env {tr s e s'} follows _ step := by
    obtain rfl := step
    exact follows.tick e.1 e.2

/-- The uncaught exception of a handle that could not be opened. -/
def Aborted (c : Config Unit Act Act.Res Machine) : Prop := ∃ next, c.pool () = .act .terminate next

def terminates (c : Config Unit Act Act.Res Machine) : Bool :=
  match c.pool () with
  | .act .terminate _ => true
  | _ => false

theorem aborted_of_terminates {c : Config Unit Act Act.Res Machine} (h : terminates c = true) : Aborted c := by
  unfold terminates at h
  split at h
  · rename_i next here
    exact ⟨next, here⟩
  · cases h

/-- What the program leaves in a CPU, given what the CPU held before. -/
structure Left (hw : FixedPmu) (x : Nat) (tr : List (Ev hw)) (before after : Regs) : Prop where
  enabled : x < opened tr → ∃ v r r', attempts x tr = [(ia32CrFixedCtrCtrl, (List.finRange 3).foldl countRings v, r),
      (ia32CrPerfGlobalCtrl, startCounting, r')] ∧
    after ia32CrFixedCtrCtrl = (if r then (List.finRange 3).foldl countRings v else before ia32CrFixedCtrCtrl) ∧
    after ia32CrPerfGlobalCtrl = if r' then startCounting else before ia32CrPerfGlobalCtrl
  untouched : opened tr ≤ x → after = hw.run before (ticksOn x tr)
  others : ∀ a, ¬ isFixed a → ¬ isPmc a → a ≠ ia32CrFixedCtrCtrl → a ≠ ia32CrPerfGlobalCtrl → after a = before a

theorem left_of_setUpTo {m m' : Machine} {tr : List (Ev hw)} (follows : Follows m tr m')
    (done : SetUpTo x (opened tr) (ledger x tr)) : Left hw x tr (m.msr x) (m'.msr x) := by
  refine ⟨fun below => ?_, fun above => follows.untouched x (done.untouched above), fun a notFixed notPmc ctrl global => ?_⟩
  · obtain ⟨v, r, r', writes⟩ := done.programmed below
    replace writes : attempts x tr = _ := writes
    refine ⟨v, r, r', writes, ?_, ?_⟩
    · rw [follows.plain x _ (by decide) (by decide), writes]
      cases r <;> simp [holds, ia32CrFixedCtrCtrl, ia32CrPerfGlobalCtrl]
    · rw [follows.plain x _ (by decide) (by decide), writes]
      cases r' <;> simp [holds, ia32CrFixedCtrCtrl, ia32CrPerfGlobalCtrl]
  · rw [follows.plain x a notFixed notPmc]
    rcases Nat.lt_or_ge x (opened tr) with below | above
    · obtain ⟨v, r, r', writes⟩ := done.programmed below
      replace writes : attempts x tr = _ := writes
      simp [writes, holds, Ne.symm ctrl, Ne.symm global]
    · have none : attempts x tr = [] := done.untouched above
      rw [none]
      rfl

/-- No assertion fails in any run. A run that returns has opened all handles and printed all
lines; one that ends early has refused the next handle and printed nothing. Either way each
CPU is left as its writes to the two control registers say, and untouched if its handle was
not opened. -/
theorem main_ends {cpuMsr : Word} {m : Machine} {tr : List (Ev hw)} {c : Config Unit Act Act.Res Machine}
    (run : (machine hw).Run (fun _ _ _ => True) ⟨m, fun _ => main cpuMsr⟩ tr c) :
    (∀ next, c.pool () ≠ .act .assertFailed next) ∧
    (c.pool () = .done () → opened tr = numCores ∧ refused tr = [] ∧ (printed tr).map Line.core = List.range numCores) ∧
    (Aborted c → opened tr < numCores ∧ refused tr = [opened tr] ∧ printed tr = []) ∧
    (c.pool () = .done () ∨ Aborted c → ∀ x, Left hw x tr (m.msr x) (c.state.msr x)) := by
  have start : Follows m ([] : List (Ev hw)) m := ⟨fun _ _ _ _ => rfl, fun _ _ => rfl⟩
  have proved (x : Nat) := (ends hw m x).run
    (fun _ _ s => Going x numCores s ∧ s.printed.map Line.core = List.range numCores) run start fun _ => wp_main_ends
  have turn (x : Nat) := (proved x).2 ()
  have follows := (proved 0).1
  have returned (ended : c.pool () = .done ()) (x : Nat) :
      Going x numCores (ledger x tr) ∧ (printed tr).map Line.core = List.range numCores := by
    have now := turn x
    rw [ended] at now
    exact now _ .refl
  have aborted (early : Aborted c) (x : Nat) : opened tr < numCores ∧ SetUpTo x (opened tr) (ledger x tr) ∧
      refused tr = [opened tr] ∧ printed tr = [] := by
    obtain ⟨next, here⟩ := early
    have now := turn x
    rw [here] at now
    exact (Program.wp_now now).1
  refine ⟨fun next here => ?_, fun ended => ?_, fun early => ?_, fun halted x => ?_⟩
  · have now := turn 0
    rw [here] at now
    exact (Program.wp_now now).1
  · obtain ⟨going, lines⟩ := returned ended 0
    exact ⟨going.setUp.opened, going.accepted, lines⟩
  · obtain ⟨few, -, refusal, silent⟩ := aborted early 0
    exact ⟨few, refusal, silent⟩
  · apply left_of_setUpTo follows
    rcases halted with ended | early
    · have setUp := (returned ended x).1.setUp
      have count : opened tr = numCores := setUp.opened
      rwa [count]
    · exact (aborted early x).2.1

/-- CPU 1 cannot be opened: CPU 0 is left counting. -/
theorem main_ends_refused : ∃ (tr : List (Ev .exact)) (c : Config Unit Act Act.Res Machine),
    Aborted c ∧ opened tr = 1 ∧
      ((∀ next, c.pool () ≠ .act .assertFailed next) ∧
      (c.pool () = .done () → opened tr = numCores ∧ refused tr = [] ∧ (printed tr).map Line.core = List.range numCores) ∧
      (Aborted c → opened tr < numCores ∧ refused tr = [opened tr] ∧ printed tr = []) ∧
      (c.pool () = .done () ∨ Aborted c → ∀ x, Left .exact x tr (fun _ => 0) (c.state.msr x))) := by
  have played : ((player .exact fun x => decide (x ≠ 1)).play (fun _ _ _ => true) (List.replicate 8 (.inl ())) []
      ⟨⟨fun _ _ => 0, fun _ => 7⟩, fun _ => main 0⟩).any
      (fun x => terminates x.2 && decide (opened x.1 = 1)) = true := by decide +kernel
  obtain ⟨⟨tr, c⟩, found, here⟩ := (Option.any_eq_true ..).mp played
  obtain ⟨early, one⟩ := (Bool.and_eq_true ..).mp here
  have run := (player .exact _).play_run (C := fun _ _ _ => True) (fun _ _ _ _ => trivial) .start found
  exact ⟨tr, c, aborted_of_terminates early, of_decide_eq_true one, main_ends run⟩

end PmcBench.Msrtest
