import PmcBench.Solo

/-!
# Playing schedules of the process

One resolution of the choices of the process: every access succeeds, and memory
without a value reads as 0.
-/

namespace PmcBench
open Threads

namespace Local

/-- The thread's own memory after an action that returned `r`. -/
def after (b : Build) (l : Local) : (o : Action) → o.Res → Local
  | .malloc buf n, _ => l.alloc buf n
  | .store buf i v, _ => l.write buf i v
  | .readInto _ _ buf i, some v => l.write buf i v
  | .pushTime t, _ => l.pushTime t
  | .setValue c k v, _ => l.setValue b.maxPts c k v
  | .incCounts, _ => l.incCounts
  | _, _ => l

end Local

namespace World

/-- The answer to an action of worker `i`, but for its effect on the worker's own memory. -/
def answerShared (s : World) (i : Nat) : (o : Action) → Option (o.Res × World)
  | .threadStart => if (s.worker i).started then some ((s.worker i).args, s) else none
  | .threadExit => some ((), s.setWorker i { s.worker i with finished := true })
  | .testFlag => some (s.saFlag, s)
  | .setFlag => some ((), { s with saFlag := true })
  | .mallocShared n => some ((), { s with sharedArray := some ⟨n, fun _ => none⟩ })
  | .storeShared j v => s.sharedArray.map fun buf => ((), { s with sharedArray := some (buf.write j v) })
  | .loadShared j => s.sharedArray.map fun buf => ((buf.cell j).getD 0, s)
  | .waitCanRun => if s.canRun then some ((), s) else none
  | .setCanRun => some ((), { s with canRun := true })
  | .xorshift128plus =>
    some ((PmcBench.xorshift128plus s.matRng).1, { s with matRng := (PmcBench.xorshift128plus s.matRng).2 })
  | .load2d i j => some (s.arr2d i j, s)
  | .store2d i j v => some ((), { s with arr2d := fun x y => if x = i ∧ y = j then v else s.arr2d x y })
  | .gettimeofday => some (.ofMicros s.clock, s)
  | .readInto cpu reg _ _ => some (some (s.msr cpu reg), s)
  | .load buf k => some (((s.worker i).mem.cell buf k).getD 0, s)
  | .counts => some ((s.worker i).mem.prof.counts, s)
  | .malloc .. | .store .. | .pushTime _ | .setValue .. | .incCounts | .fakeOut .. | .point _ => some ((), s)
  | .openMsr _ | .msrWrite .. | .msrRead .. | .assert _ | .pinThread .. | .createThread .. | .join _ | .argsCounts _
  | .argsTimes .. | .argsValues .. | .fopen | .fprintf _ | .fclose => none

def answerWorker (b : Build) (s : World) (i : Nat) (o : Action) : Option (o.Res × World) :=
  (s.answerShared i o).map fun (r, t) => (r, t.setWorker i { t.worker i with mem := (s.worker i).mem.after b o r })

theorem answerShared_sound {b : Build} {s t : World} {i : Nat} {o : Action} {r : o.Res}
    (h : s.answerShared i o = some (r, t)) :
    s.actShared i o r t ∧ (s.worker i).mem.step b o r ((s.worker i).mem.after b o r) := by
  cases o <;> simp only [answerShared, Option.map_eq_some_iff, Option.ite_none_right_eq_some, Option.some.injEq,
    Prod.mk.injEq, reduceCtorEq] at h
  case threadStart => exact ⟨⟨h.1, h.2.1.symm, h.2.2.symm⟩, rfl⟩
  case storeShared j v =>
    obtain ⟨buf, found, -, rfl⟩ := h
    exact ⟨⟨buf, found, rfl⟩, rfl⟩
  case loadShared j =>
    obtain ⟨buf, found, rfl, rfl⟩ := h
    exact ⟨⟨buf, found, fun v value => by rw [value]; rfl, rfl⟩, rfl⟩
  case waitCanRun => exact ⟨⟨h.1, h.2.2.symm⟩, rfl⟩
  case readInto cpu reg buf k =>
    obtain ⟨rfl, rfl⟩ := h
    exact ⟨⟨Or.inl rfl, rfl⟩, rfl⟩
  case load buf k =>
    obtain ⟨rfl, rfl⟩ := h
    exact ⟨rfl, fun v value => by rw [value]; rfl, rfl⟩
  case counts =>
    obtain ⟨rfl, rfl⟩ := h
    exact ⟨rfl, rfl, rfl⟩
  case testFlag | xorshift128plus | load2d | gettimeofday => exact ⟨⟨h.1.symm, h.2.symm⟩, rfl⟩
  all_goals exact ⟨h.2.symm, rfl⟩

end World

/-- The player whose accesses all succeed. -/
def player (b : Build) (hw : Pmu) : System.Player (process b hw) where
  answer
    | .main, s, o => (Solo.handle b {} { world := s } o).map fun (r, t) => (r, t.world)
    | .worker i, s, o => s.answerWorker b i o
  respond
    | .tick cpu t, s => some { s with msr := Function.update s.msr cpu (hw.tick (s.msr cpu) t) }
    | .clock now, s => if s.clock ≤ now then some { s with clock := now } else none
    | .migrate i cpu, s =>
      if (s.worker i).pinned then none else some (s.setWorker i { s.worker i with cpu := cpu })
  answer_sound {t s o r s'} h := by
    cases t with
    | main =>
      simp only [Option.map_eq_some_iff, Prod.mk.injEq] at h
      obtain ⟨⟨r, t⟩, answered, rfl, rfl⟩ := h
      exact Solo.handle_sound answered
    | worker i =>
      simp only [World.answerWorker, Option.map_eq_some_iff, Prod.mk.injEq] at h
      obtain ⟨⟨r, t⟩, answered, rfl, rfl⟩ := h
      obtain ⟨shared, own⟩ := World.answerShared_sound (b := b) answered
      exact ⟨t, _, shared, own, rfl⟩
  respond_sound {e s s'} h := by
    cases e with
    | tick cpu t => exact (Option.some.inj h).symm
    | clock now =>
      simp only [Option.ite_none_right_eq_some, Option.some.injEq] at h
      exact ⟨h.1, h.2.symm⟩
    | migrate i cpu =>
      simp only [Option.ite_none_left_eq_some, Option.some.injEq, Bool.not_eq_true] at h
      exact ⟨h.1, h.2.symm⟩

/-- Plays a schedule of the process from the start of `main`. -/
def playFrom (b : Build) (hw : Pmu) (ok : List (Event Tid (Move hw) Action Action.Res) → World →
    Event Tid (Move hw) Action Action.Res → Bool) (cpus : List Cpu) (func : Nat → Benchmark)
    (iterations : Nat → Nat) (s : World) (sched : List (Tid ⊕ Move hw)) :=
  (player b hw).play ok sched [] ⟨s, pool b cpus func iterations⟩

/-- A build whose shared array has one element. -/
def oneElement : Build := { dedos07 with l2Size := 16 }

end PmcBench
