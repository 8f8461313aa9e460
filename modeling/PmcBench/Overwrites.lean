import Mathlib.Data.List.ProdSigma
import PmcBench.Audit

/-!
# Samples that overwrite one another

`MultiArray` finds `(c, k)` at `c * MAX_PTS + k` and checks nothing. `intact_iff` says
which benchmarks keep every sample they record: those that take at most `MAX_PTS`.
-/

namespace PmcBench
open Threads

variable {b : Build}

def Entry.element (b : Build) (e : Entry) : Nat := e.counter * b.maxPts + e.sample

/-- Every sample is within the row of its counter, and still there. -/
structure Audit.Intact (b : Build) (s : Audit) : Prop where
  sample : ∀ e ∈ s.recorded, e.sample < b.maxPts
  counter : ∀ e ∈ s.recorded, e.counter < b.nCustomCtr + b.nFixedCtr
  distinct : (s.recorded.map (Entry.element b)).Nodup
  values : ∀ e ∈ s.recorded, s.mem.prof.values (e.element b) = e.value

/-! ### What was written last -/

theorem Local.step_values {l l' : Local} {o : Action} {r : o.Res} (other : ∀ c k v, o ≠ .setValue c k v)
    (step : l.step b o r l') : l'.prof.values = l.prof.values := by
  by_cases keeps : o.keepsProfile = true
  · rw [Local.step_prof keeps step]
  · cases o
    case pushTime t => rw [show l' = l.pushTime t from step]; rfl
    case incCounts => rw [show l' = l.incCounts from step]; rfl
    case setValue c k v => exact (other c k v rfl).elim
    all_goals exact (keeps rfl).elim

theorem Audit.observe_other {s : Audit} {o : Action} {r : o.Res} {l : Local} (other : ∀ c k v, o ≠ .setValue c k v) :
    (s.observe b o r l).recorded = s.recorded ∧ (s.observe b o r l).mem = l := by
  cases o
  case setValue c k v => exact (other c k v rfl).elim
  case point p => cases p <;> exact ⟨rfl, rfl⟩
  all_goals exact ⟨rfl, rfl⟩

/-- Samples that do not share an element are where they were written. -/
theorem values_of_distinct {p q : Prog Unit} {s t : Audit} {tr : List (Σ o : Action, o.Res)} (start : s.recorded = [])
    (run : (auditView b).Run p s tr q t) (distinct : (t.recorded.map (Entry.element b)).Nodup) :
    ∀ e ∈ t.recorded, t.mem.prof.values (e.element b) = e.value := by
  revert distinct
  refine run.invariant (I := fun _ (t : Audit) => (t.recorded.map (Entry.element b)).Nodup →
    ∀ e ∈ t.recorded, t.mem.prof.values (e.element b) = e.value) ?_ ?_ ?_
  · simp [start]
  · exact fun _ _ _ _ moved => moved.elim
  · rintro tr t o r _ before ⟨l, step, rfl⟩
    by_cases write : ∃ c k v, o = .setValue c k v
    · obtain ⟨c, k, v, rfl⟩ := write
      intro distinct
      obtain rfl : l = t.mem.setValue b.maxPts c k v := step
      simp only [Audit.observe, List.map_append, List.map_singleton, List.nodup_append, List.mem_singleton] at distinct ⊢
      obtain ⟨distinct, -, apart⟩ := distinct
      intro e member
      simp only [Local.setValue]
      rcases List.mem_append.mp member with earlier | last
      · have ne : e.element b ≠ c * b.maxPts + k := apart _ (List.mem_map_of_mem earlier) _ rfl
        rw [Function.update_of_ne ne]
        exact before distinct e earlier
      · rw [List.mem_singleton.mp last]
        exact Function.update_self ..
    · have other : ∀ c k v, o ≠ .setValue c k v := by
        intro c k v same
        exact write ⟨c, k, v, same⟩
      obtain ⟨recorded, mem⟩ := Audit.observe_other (b := b) (s := t) (r := r) (l := l) other
      rw [recorded, mem, Local.step_values other step]
      exact before

/-! ### The elements of the samples -/

theorem auditCells_eq (b : Build) (m : Nat) :
    auditCells b m = (List.product (List.range m) (List.range b.counterTbl.size)).map fun p => (p.2 % 256, p.1) := by
  simp only [auditCells, List.product, List.map_flatMap, List.map_map]
  rfl

theorem nodup_elements {m : Nat} (pts : m ≤ b.maxPts) (small : b.counterTbl.size ≤ 256) :
    ((auditCells b m).map fun p => p.1 * b.maxPts + p.2).Nodup := by
  rw [auditCells_eq, List.map_map]
  apply List.Nodup.map_on
  · rintro ⟨j, c⟩ first ⟨k, d⟩ second same
    have first : j < m ∧ c < b.counterTbl.size := by simpa using first
    have second : k < m ∧ d < b.counterTbl.size := by simpa using second
    have same : c % 256 * b.maxPts + j = d % 256 * b.maxPts + k := same
    obtain ⟨row, rfl⟩ := (element_inj (by omega) (by omega)).mp same
    rw [Nat.mod_eq_of_lt (by omega), Nat.mod_eq_of_lt (by omega)] at row
    rw [row]
  · exact List.nodup_range.product List.nodup_range

theorem size_le_of_nodup {m : Nat} (some : 0 < m) (distinct : ((auditCells b m).map fun p => p.1 * b.maxPts + p.2).Nodup) :
    b.counterTbl.size ≤ 256 := by
  by_contra more
  rw [auditCells_eq, List.map_map] at distinct
  have first : (0, 0) ∈ List.product (List.range m) (List.range b.counterTbl.size) := by
    simp only [List.pair_mem_product, List.mem_range]
    omega
  have again : (0, 256) ∈ List.product (List.range m) (List.range b.counterTbl.size) := by
    simp only [List.pair_mem_product, List.mem_range]
    omega
  have same := List.inj_on_of_nodup_map distinct first again rfl
  cases same

/-! ### Who keeps every sample -/

theorem recorded_final {bm : Benchmark} {args : ThreadArgs} {start s : Audit} (fresh : start.Fresh)
    {tr : List (Σ o : Action, o.Res)} (run : (auditView b).Run (bm.body b args) start tr (.done ()) s) :
    (s.recorded.map fun e => (e.counter, e.sample)) = auditCells b (bm.samples args.iterations) := by
  obtain ⟨n, audited⟩ := run.wp (wp_audit_body fresh) s .refl
  exact audited.tally.cells

theorem elements_eq {s : Audit} {m : Nat} (cells : (s.recorded.map fun e => (e.counter, e.sample)) = auditCells b m) :
    s.recorded.map (Entry.element b) = (auditCells b m).map fun p => p.1 * b.maxPts + p.2 := by
  rw [← cells, List.map_map]
  rfl

theorem forall_recorded {s : Audit} {m : Nat} (cells : (s.recorded.map fun e => (e.counter, e.sample)) = auditCells b m)
    {P : Nat → Nat → Prop} : (∀ e ∈ s.recorded, P e.counter e.sample) ↔ ∀ j < m, ∀ c < b.counterTbl.size, P (c % 256) j := by
  have pairs : (∀ e ∈ s.recorded, P e.counter e.sample) ↔ ∀ p ∈ auditCells b m, P p.1 p.2 := by
    rw [← cells, List.forall_mem_map]
  rw [pairs, auditCells]
  simp only [List.mem_flatMap, List.mem_map, List.mem_range]
  constructor
  · intro all j sample c row
    exact all (c % 256, j) ⟨j, sample, c, row, rfl⟩
  · rintro all _ ⟨j, sample, c, row, rfl⟩
    exact all j sample c row

/-- A benchmark keeps every sample it records exactly when it takes at most `MAX_PTS`
samples, of a table whose rows have an index of their own in `values`. -/
theorem intact_iff {bm : Benchmark} (args : ThreadArgs) {start s : Audit} (fresh : start.Fresh)
    {tr : List (Σ o : Action, o.Res)} (run : (auditView b).Run (bm.body b args) start tr (.done ()) s) :
    s.Intact b ↔ b.counterTbl.size = 0 ∨ bm.samples args.iterations = 0 ∨ bm.samples args.iterations ≤ b.maxPts ∧
      b.counterTbl.size ≤ 256 ∧ b.counterTbl.size ≤ b.nCustomCtr + b.nFixedCtr := by
  have cells := recorded_final fresh run
  have elements := elements_eq cells
  generalize bm.samples args.iterations = m at cells elements ⊢
  constructor
  · intro intact
    by_contra fails
    have some : 0 < b.counterTbl.size ∧ 0 < m := by omega
    have distinct := intact.distinct
    rw [elements] at distinct
    have small := size_le_of_nodup some.2 distinct
    have sample := (forall_recorded cells (P := fun _ k => k < b.maxPts)).mp intact.sample (m - 1) (by omega) 0 some.1
    have row := (forall_recorded cells (P := fun c _ => c < b.nCustomCtr + b.nFixedCtr)).mp intact.counter 0 some.2
      (b.counterTbl.size - 1) (by omega)
    rw [Nat.mod_eq_of_lt (by omega)] at row
    omega
  · intro fits
    have distinct : (s.recorded.map (Entry.element b)).Nodup := by
      rw [elements]
      rcases fits with none | none | ⟨pts, small, -⟩
      · have empty : auditCells b m = [] := by simp [auditCells, none, List.flatMap_eq_nil_iff]
        simp [empty]
      · simp [auditCells, none]
      · exact nodup_elements pts small
    refine ⟨?_, ?_, distinct, values_of_distinct fresh.recorded run distinct⟩
    · rw [forall_recorded cells (P := fun _ k => k < b.maxPts)]
      intro j sample c row
      omega
    · rw [forall_recorded cells (P := fun c _ => c < b.nCustomCtr + b.nFixedCtr)]
      intro j sample c row
      rw [Nat.mod_eq_of_lt (by omega)]
      omega

/-- With at most `MAX_PTS` iterations, only `bm_single_d_array_multithreaded_t2` takes more
samples, and `_t3` and `_t4` where `MAX_PTS` is below 10. -/
theorem samples_le_iff {bm : Benchmark} {iterations n : Nat} (le : iterations ≤ n) : bm.samples iterations ≤ n ↔
    (bm = .bmSingleDArrayMultithreadedT2 → iterations = n → n % 2 = 1) ∧
      (bm = .bmSingleDArrayMultithreadedT3 ∨ bm = .bmSingleDArrayMultithreadedT4 → 10 ≤ n) := by
  cases bm <;> simp [Benchmark.samples] <;> omega

/-- One sample for each of `MAX_PTS` iterations. -/
theorem intact_t1_dedos07 : ∃ tr s, (auditView dedos07).Run (Benchmark.bmSingleDArrayMultithreadedT1.body dedos07
    { iterations := 50000, id := 0, cpuMsr := 1 }) .empty tr (.done ()) s ∧ s.Intact dedos07 := by
  obtain ⟨tr, s, run, -⟩ := run_returning (b := dedos07) (some 0)
    (Benchmark.bmSingleDArrayMultithreadedT1.body dedos07 { iterations := 50000, id := 0, cpuMsr := 1 }) .empty
  refine ⟨tr, s, run, (intact_iff _ Audit.empty_fresh run).mpr (Or.inr (Or.inr ⟨?_, by decide, by decide⟩))⟩
  exact (samples_le_iff (Nat.le_refl 50000)).mpr (by simp)

/-- `_t2` records sample 50000 of each counter where sample 0 of the next one is. -/
theorem not_intact_t2_dedos07 : ¬ ∀ tr s, (auditView dedos07).Run (Benchmark.bmSingleDArrayMultithreadedT2.body dedos07
    { iterations := dedos07.maxPts, id := 0, cpuMsr := 1 }) .empty tr (.done ()) s → s.Intact dedos07 := by
  intro claim
  obtain ⟨tr, s, run, -⟩ := run_returning (b := dedos07) (some 0)
    (Benchmark.bmSingleDArrayMultithreadedT2.body dedos07 { iterations := dedos07.maxPts, id := 0, cpuMsr := 1 }) .empty
  have cells := recorded_final Audit.empty_fresh run
  have last := (forall_recorded cells (P := fun _ k => k < dedos07.maxPts)).mp (claim tr s run).sample 50000 (by decide) 0
    (by decide)
  exact absurd last (by decide)

end PmcBench
