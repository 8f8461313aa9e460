import PmcBench.Main

/-!
# main by itself

A deterministic execution of `main` that answers each of its actions, for given
failures of `open`, of single MSR accesses and of `fopen`, and for workers that
have already run. `solo_run` shows that its steps are steps of the process.
-/

namespace PmcBench
open Threads

/-- Which of the calls that can fail succeed: the opening of the MSR device for
the `i`-th CPU, the `k`-th MSR access, and the `fopen` of the log. -/
structure Luck where
  opens : Nat → Bool := fun _ => true
  accesses : Nat → Bool := fun _ => true
  fopens : Bool := true

/-- The world of a lone `main`, how far it is in its opens and accesses, and the
CPUs on which it has written a non-zero GLOBAL_CTRL. -/
structure Solo where
  world : World
  opened : Nat := 0
  accessed : Nat := 0
  enabled : Cpu → Bool := fun _ => false

namespace Solo

def writeReg (s : Solo) (cpu : Cpu) (reg : Nat) (v : Word) : Solo :=
  { s with
    world := s.world.setReg cpu reg v
    accessed := s.accessed + 1
    enabled := fun x => s.enabled x || (decide (x = cpu) && decide (reg = ia32CrPerfGlobalCtrl) && decide (v ≠ 0)) }

def inWorld (s : Solo) (w : World) : Solo := { s with world := w }

/-- The answer to each action of `main`; nothing for an action that ends the process. -/
def handle (b : Build) (luck : Luck) (s : Solo) : (o : Action) → Option (o.Res × Solo)
  | .openMsr _ => if luck.opens s.opened then some ((), { s with opened := s.opened + 1 }) else none
  | .msrWrite cpu reg v =>
    if luck.accesses s.accessed then some (true, s.writeReg cpu reg v)
    else some (false, { s with accessed := s.accessed + 1 })
  | .msrRead cpu reg =>
    if luck.accesses s.accessed then some (some (s.world.msr cpu reg), { s with accessed := s.accessed + 1 })
    else some (none, { s with accessed := s.accessed + 1 })
  | .assert cond => if cond then some ((), s) else none
  | .pinThread (.worker i) cpu =>
    some ((), s.inWorld (s.world.setWorker i { s.world.worker i with pinned := true, cpu := cpu }))
  | .pinThread .main _ => some ((), s)
  | .createThread i args =>
    some ((), s.inWorld (s.world.setWorker i { s.world.worker i with started := true, args := args }))
  | .join i => if (s.world.worker i).finished then some ((), s) else none
  | .argsCounts i => some ((s.world.worker i).mem.prof.counts, s)
  | .argsTimes i j => ((s.world.worker i).mem.prof.times[j]?).map fun t => (t, s)
  | .argsValues i c j => some ((s.world.worker i).mem.prof.values (c * b.maxPts + j), s)
  | .fopen => some (luck.fopens, s.inWorld { s.world with file := if luck.fopens then some [] else none })
  | .fprintf p => s.world.file.map fun log => ((), s.inWorld { s.world with file := some (log ++ [p]) })
  | .fclose => if s.world.file.isSome then some ((), s) else none
  | .threadStart | .threadExit | .testFlag | .setFlag | .mallocShared _ | .storeShared .. | .loadShared _
  | .waitCanRun | .setCanRun | .xorshift128plus | .load2d .. | .store2d .. | .gettimeofday | .readInto .. | .malloc ..
  | .load .. | .store .. | .pushTime _ | .counts | .setValue .. | .incCounts | .fakeOut .. | .point _ => none

theorem handle_sound {b : Build} {luck : Luck} {s s' : Solo} {o : Action} {r : o.Res}
    (h : s.handle b luck o = some (r, s')) : s.world.actMain b o r s'.world := by
  cases o
  case pinThread t cpu =>
    cases t <;> simp only [handle, Option.some.injEq, Prod.mk.injEq] at h <;> obtain ⟨-, rfl⟩ := h <;> rfl
  case msrWrite cpu reg v =>
    simp only [handle] at h
    split at h <;> simp only [Option.some.injEq, Prod.mk.injEq] at h <;> obtain ⟨rfl, rfl⟩ := h
    · exact Or.inl ⟨rfl, rfl⟩
    · exact Or.inr ⟨rfl, rfl⟩
  case msrRead cpu reg =>
    simp only [handle] at h
    split at h <;> simp only [Option.some.injEq, Prod.mk.injEq] at h <;> obtain ⟨rfl, rfl⟩ := h
    · exact ⟨Or.inl rfl, rfl⟩
    · exact ⟨Or.inr rfl, rfl⟩
  all_goals
    simp only [handle, Option.map_eq_some_iff, Option.ite_none_right_eq_some, Option.some.injEq,
      Prod.mk.injEq, reduceCtorEq] at h
  case openMsr =>
    obtain ⟨-, -, rfl⟩ := h
    rfl
  case assert => exact ⟨h.1, congrArg Solo.world h.2.2.symm⟩
  case createThread => exact congrArg Solo.world h.2.symm
  case join => exact ⟨h.1, congrArg Solo.world h.2.2.symm⟩
  case argsCounts => exact ⟨h.1.symm, congrArg Solo.world h.2.symm⟩
  case argsTimes =>
    obtain ⟨t, found, rfl, rfl⟩ := h
    exact ⟨found, rfl⟩
  case argsValues => exact ⟨h.1.symm, congrArg Solo.world h.2.symm⟩
  case fopen =>
    obtain ⟨rfl, rfl⟩ := h
    rfl
  case fprintf =>
    obtain ⟨log, opened, -, rfl⟩ := h
    exact ⟨log, opened, rfl⟩
  case fclose => exact ⟨h.1, congrArg Solo.world h.2.2.symm⟩

end Solo

/-- An execution of `main`'s code by itself is a run of the process in which only
`main` moves. -/
theorem solo_run {b : Build} (hw : Pmu) (rest : Tid → Prog Unit) {luck : Luck} {p : Prog Unit} {s s' : Solo}
    {C : List (Event Tid (Move hw) Action Action.Res) → World → Event Tid (Move hw) Action Action.Res → Prop}
    (meets : ∀ tr s o r s', Solo.handle b luck s o = some (r, s') → C tr s.world (.act .main o r))
    (h : p.exec (Solo.handle b luck) s = (some (), s')) :
    ∃ tr, (process b hw).Run C ⟨s.world, Function.update rest .main p⟩ tr
      ⟨s'.world, Function.update rest .main (.done ())⟩ := by
  suffices general : ∀ (c₀ : Config Tid Action Action.Res World) (tr : List (Event Tid (Move hw) Action Action.Res)),
      (process b hw).Run C c₀ tr ⟨s.world, Function.update rest .main p⟩ →
      ∃ tr', (process b hw).Run C c₀ tr' ⟨s'.world, Function.update rest .main (.done ())⟩ from
    general _ [] .start
  intro c₀ tr run
  induction p generalizing s tr with
  | done a =>
    simp only [Program.exec, Prod.mk.injEq] at h
    obtain ⟨-, rfl⟩ := h
    exact ⟨tr, run⟩
  | act o next ih =>
    simp only [Program.exec] at h
    split at h
    · rename_i r t answered
      have step : (process b hw).Step ⟨s.world, Function.update rest .main (.act o next)⟩ (.act .main o r)
          ⟨t.world, Function.update (Function.update rest .main (.act o next)) .main (next r)⟩ :=
        .act (by simp) (Solo.handle_sound answered)
      rw [Function.update_idem] at step
      exact ih r h _ (run.step (meets tr s o r t answered) step)
    · cases h

end PmcBench
