import PmcBench.Overwrites

/-!
# Failed counter reads

`MsrHandle::read` returns -1 and leaves `*value` alone when it fails, and
`read_values` ignores what it returns. `readings_iff` says what that means for the
values that a benchmark leaves in `args.values`.
-/

namespace PmcBench
open Threads
open Program (forEach)

variable {b : Build}

def Action.Fails : (o : Action) → o.Res → Prop
  | .readInto .., r => r = none
  | _, _ => False

/-- No read of the run has failed. -/
def ReadsSucceed (tr : List (Σ o : Action, o.Res)) : Prop := ∀ e ∈ tr, ¬ e.1.Fails e.2

/-- The last entry written to an element of `values`. -/
def Audit.lastAt (b : Build) (s : Audit) (element : Nat) : Option Entry :=
  s.recorded.reverse.find? fun e => decide (e.element b = element)

/-- `values(c, k)` is in its row, and holds what has been recorded there for row `c` and sample
`k`: the difference of two readings of that row's counter in that sample. -/
structure Audit.CleanAt (b : Build) (s : Audit) (c k : Nat) : Prop where
  inside : k < b.maxPts
  recorded : ∃ e, s.lastAt b (c % 256 * b.maxPts + k) = some e ∧ e.row = c ∧ e.sample = k ∧ e.Genuine ∧
    s.mem.prof.values (c % 256 * b.maxPts + k) = e.value

/-- Every value that is counted in `args.counts` is a difference of two readings of its sample. -/
def Audit.Clean (b : Build) (s : Audit) : Prop :=
  ∀ c < b.counterTbl.size, ∀ k < s.mem.prof.counts, s.CleanAt b c k

/-! ### The failures of a run -/

theorem Audit.observe_failed {s : Audit} {o : Action} {r : o.Res} {l : Local} :
    (s.observe b o r l).failed = false ↔ s.failed = false ∧ ¬ o.Fails r := by
  cases o
  case readInto => cases r <;> simp [observe, Action.Fails]
  case point p => cases p <;> simp [observe, Action.Fails]
  all_goals simp [observe, Action.Fails]

theorem failed_iff {p q : Prog Unit} {s t : Audit} {tr : List (Σ o : Action, o.Res)} (start : s.failed = false)
    (run : (auditView b).Run p s tr q t) : t.failed = false ↔ ReadsSucceed tr := by
  refine run.invariant (I := fun tr (t : Audit) => t.failed = false ↔ ReadsSucceed tr) ?_ ?_ ?_
  · simp [start, ReadsSucceed]
  · exact fun _ _ _ _ moved => moved.elim
  · rintro tr t o r _ same ⟨l, -, rfl⟩
    rw [Audit.observe_failed, same, ReadsSucceed, ReadsSucceed, List.forall_mem_append, List.forall_mem_singleton]

/-! ### The stores of a timed benchmark -/

def Action.keepsStart (o : Action) : Prop := ∀ n, o ≠ .malloc .storeStart n

theorem Action.keepsStart_of_quiet {o : Action} (quiet : o.quiet = true) : o.keepsStart := by
  rintro n rfl
  cases quiet

theorem keepsStart_of_quietProg {α : Type} {p : Prog α} (quiet : QuietProg p) : p.All Action.keepsStart :=
  quiet.mono fun _ => Action.keepsStart_of_quiet

theorem keepsStart_handsOver {p : Prog Unit} (hand : p.All fun o => o.handsOver = true) : p.All Action.keepsStart := by
  apply hand.mono
  intro o hand n same
  subst same
  cases hand

theorem Action.keepsStart_of_sampling (o : Action) (own : o.ofSampling = true) : o.keepsStart := by
  rintro n rfl
  cases own

theorem keepsStart_timedSample {args : ThreadArgs} {measured : Prog Unit} (quiet : QuietProg measured) :
    (timedSample b args measured).All Action.keepsStart :=
  all_timedSample Action.keepsStart_of_sampling (by simp [Action.keepsStart]) (by simp [Action.keepsStart])
    (keepsStart_of_quietProg quiet)

theorem keepsStart_samplingLoop {n : Nat} {sample : Nat → Prog Unit} (each : ∀ i, (sample i).All Action.keepsStart) :
    (samplingLoop n sample).All Action.keepsStart :=
  all_samplingLoop Action.keepsStart_of_sampling fun i _ => each i

/-- After its allocations, a timed benchmark leaves its stores as long as they are. -/
theorem timed_body {bm : Benchmark} (timed : bm.timed = true) (args : ThreadArgs) :
    ∃ p : Prog Unit, bm.body b args = (mallocStores b.nCustomCtr >>= fun _ => p) ∧ p.All Action.keepsStart := by
  have setUp := keepsStart_of_quietProg (quiet_setUpSharedArray b)
  have read (last : Nat) : (timedSample b args (readShared last)).All Action.keepsStart :=
    keepsStart_timedSample (quiet_readShared last)
  have write : (timedSample b args (writeShared b.n (BitVec.ofNat 64))).All Action.keepsStart :=
    keepsStart_timedSample (quiet_writeShared b.n _)
  have wait := keepsStart_handsOver (handsOver_waitForThread0 args)
  have run := keepsStart_handsOver (handsOver_letThread1Run args)
  cases bm with
  | bmSingleDArrayMultithreadedT1 =>
    refine ⟨_, rfl, setUp.bind fun _ => wait.bind fun _ => ?_⟩
    exact (keepsStart_samplingLoop fun _ => read _).bind fun _ => run
  | bmSingleDArrayMultithreadedT2 =>
    refine ⟨_, rfl, setUp.bind fun _ => wait.bind fun _ => ?_⟩
    refine (keepsStart_samplingLoop fun _ => read _).bind fun _ => write.bind fun _ => ?_
    exact (keepsStart_samplingLoop fun _ => read _).bind fun _ => run
  | bmSingleDArrayMultithreadedT3 =>
    exact ⟨_, rfl, setUp.bind fun _ => (keepsStart_samplingLoop fun _ => read _).bind fun _ => write⟩
  | bmSingleDArrayMultithreadedT4 =>
    exact ⟨_, rfl, setUp.bind fun _ => write.bind fun _ => keepsStart_samplingLoop fun _ => read _⟩
  | _ => cases timed

theorem wp_timed_extent {bm : Benchmark} (timed : bm.timed = true) {args : ThreadArgs} {s : Audit} :
    (bm.body b args).wp (auditView b) (fun _ t => t.mem.extent .storeStart = some b.nCustomCtr) s := by
  obtain ⟨p, body, kept⟩ := timed_body (b := b) timed args
  rw [body]
  refine Program.wp_bind.mpr (wp_audit_act fun _ l₁ first => wp_audit_act fun _ l₂ second => wp_audit_done ?_)
  refine Program.wp_of_preserves (V := auditView b) (I := fun t => t.mem.extent .storeStart = some b.nCustomCtr)
    (fun _ _ _ moved => moved.elim) (kept.mono fun o keeps t held => ?_) ?_
  · refine ⟨trivial, ?_⟩
    rintro r _ ⟨l, step, rfl⟩
    have mem : (t.observe b o r l).mem = l := by
      cases o
      case point p => cases p <;> rfl
      all_goals rfl
    rw [mem, Local.step_extent step keeps]
    exact held
  · have first : l₁ = s.mem.alloc .storeStart b.nCustomCtr := first
    have second : l₂ = l₁.alloc .storeEnd b.nCustomCtr := second
    show l₂.extent .storeStart = some b.nCustomCtr
    simp [first, second, Local.extent, Local.alloc]

/-! ### When only readings are recorded -/

theorem audited_final {bm : Benchmark} (timed : bm.timed = true) {args : ThreadArgs} {start s : Audit} (fresh : start.Fresh)
    {tr : List (Σ o : Action, o.Res)} (run : (auditView b).Run (bm.body b args) start tr (.done ()) s) :
    Audited b b.nCustomCtr (bm.samples args.iterations) (bm.samples args.iterations) s := by
  obtain ⟨n, audited⟩ := run.wp (wp_audit_body fresh) s .refl
  have extent : s.mem.extent .storeStart = some b.nCustomCtr := run.wp (wp_timed_extent timed) s .refl
  obtain rfl : n = b.nCustomCtr := Option.some.inj (audited.start.symm.trans extent)
  exact audited

theorem Audit.mem_of_lastAt {s : Audit} {element : Nat} {e : Entry} (last : s.lastAt b element = some e) :
    e ∈ s.recorded ∧ e.element b = element :=
  ⟨List.mem_reverse.mp (List.mem_of_find?_eq_some last), by simpa using List.find?_some last⟩

/-- Where no two entries share an element, each is the last one at its own. -/
theorem Audit.lastAt_of_distinct {s : Audit} (distinct : (s.recorded.map (Entry.element b)).Nodup) {e : Entry}
    (member : e ∈ s.recorded) : s.lastAt b (e.element b) = some e := by
  obtain ⟨found, last⟩ : ∃ found, s.lastAt b (e.element b) = some found := by
    rw [← Option.isSome_iff_exists, lastAt, List.find?_isSome]
    exact ⟨e, List.mem_reverse.mpr member, decide_eq_true rfl⟩
  obtain ⟨there, same⟩ := mem_of_lastAt last
  rw [last, List.inj_on_of_nodup_map distinct there member same]

/-- Two rows that share a first index of `values` are not both clean. -/
theorem small_of_clean {s : Audit} {m : Nat} (counts : s.mem.prof.counts = m) (some : 0 < m) (clean : s.Clean b) : b.counterTbl.size ≤ 256 := by
  by_contra more
  obtain ⟨-, e, last, row, -⟩ := clean 0 (by omega) 0 (by omega)
  obtain ⟨-, e', last', row', -⟩ := clean 256 (by omega) 0 (by omega)
  cases last.symm.trans last'
  cases row.symm.trans row'

section
variable {m : Nat} {s : Audit} (cells : (s.recorded.map fun e => (e.counter, e.sample)) = auditCells b m)
include cells

theorem exists_entry {c k : Nat} (row : c < b.counterTbl.size) (sample : k < m) :
    ∃ e ∈ s.recorded, e.counter = c % 256 ∧ e.sample = k := by
  have member : (c % 256, k) ∈ auditCells b m := by
    simp only [auditCells, List.mem_flatMap, List.mem_map, List.mem_range]
    exact ⟨k, sample, c, row, rfl⟩
  rw [← cells, List.mem_map] at member
  obtain ⟨e, there, same⟩ := member
  exact ⟨e, there, congrArg Prod.fst same, congrArg Prod.snd same⟩

/-- What is clean in the end was recorded from readings. -/
theorem genuine_of_clean (counts : s.mem.prof.counts = m) (clean : s.Clean b) : s.Genuine := by
  intro e member
  have inside := (forall_recorded cells (P := fun c k => ∃ row < b.counterTbl.size, c = row % 256 ∧ k < m)).mpr
    (fun k sample c row => ⟨c, row, rfl, sample⟩) e member
  obtain ⟨c, row, counter, sample⟩ := inside
  have small := small_of_clean counts (by omega) clean
  obtain ⟨pts, e', last, -, -, genuine, -⟩ := clean c row e.sample (by omega)
  have fits : m ≤ b.maxPts := by
    have final := (clean c row (m - 1) (by omega)).inside
    omega
  have distinct : (s.recorded.map (Entry.element b)).Nodup := by
    rw [elements_eq cells]
    exact nodup_elements fits small
  have own := Audit.lastAt_of_distinct distinct member
  rw [Entry.element, counter] at own
  rw [own] at last
  cases last
  exact genuine

end

/-- A timed benchmark leaves only differences of two readings of the sample exactly when the
table is empty, or it takes no sample, or no read fails, the stores have room for every row,
every row has an index of its own in `values`, and every sample is within its row. -/
theorem readings_iff {bm : Benchmark} (timed : bm.timed = true) (args : ThreadArgs) {start s : Audit} (fresh : start.Fresh)
    {tr : List (Σ o : Action, o.Res)} (run : (auditView b).Run (bm.body b args) start tr (.done ()) s) :
    s.Clean b ↔ b.counterTbl.size = 0 ∨ bm.samples args.iterations = 0 ∨
      ReadsSucceed tr ∧ b.counterTbl.size ≤ b.nCustomCtr ∧ b.counterTbl.size ≤ 256 ∧
        bm.samples args.iterations ≤ b.maxPts := by
  have audited := audited_final timed fresh run
  have cells := audited.tally.cells
  have counts := audited.counts
  constructor
  · intro clean
    rcases Nat.eq_zero_or_pos b.counterTbl.size with empty | rows
    · exact Or.inl empty
    rcases Nat.eq_zero_or_pos (bm.samples args.iterations) with none | some
    · exact Or.inr (Or.inl none)
    obtain ⟨fine, none | ⟨fits, small⟩⟩ := audited.tally.genuine.mp (genuine_of_clean cells counts clean)
    · omega
    have last := (clean 0 rows (bm.samples args.iterations - 1) (by omega)).inside
    exact Or.inr (Or.inr ⟨(failed_iff fresh.failed run).mp fine, fits, small, by omega⟩)
  · rintro (empty | none | ⟨succeed, fits, small, pts⟩) c row k sample
    · omega
    · omega
    have distinct : (s.recorded.map (Entry.element b)).Nodup := by
      rw [elements_eq cells]
      exact nodup_elements pts small
    have genuine := audited.tally.genuine.mpr ⟨(failed_iff fresh.failed run).mpr succeed, Or.inr ⟨fits, small⟩⟩
    obtain ⟨e, member, counter, at_⟩ := exists_entry cells row (counts ▸ sample)
    have element : e.element b = c % 256 * b.maxPts + k := by rw [Entry.element, counter, at_]
    refine ⟨by omega, e, ?_, ?_, at_, genuine e member, ?_⟩
    · rw [← element]
      exact Audit.lastAt_of_distinct distinct member
    · rw [← (genuine e member).1, counter, Nat.mod_eq_of_lt (by omega)]
    · rw [← element]
      exact values_of_distinct fresh.recorded run distinct e member

/-! ### Good and bad hardware -/

/-- Ten samples on hardware that answers every read. -/
theorem clean_answered : ∃ tr s, (auditView dedos07).Run (Benchmark.bmSingleDArrayMultithreadedT1.body dedos07
    { iterations := 10, id := 0, cpuMsr := 1 }) .empty tr (.done ()) s ∧ ReadsSucceed tr ∧ s.Clean dedos07 := by
  obtain ⟨tr, s, run, answered⟩ := run_returning (b := dedos07) (some 0)
    (Benchmark.bmSingleDArrayMultithreadedT1.body dedos07 { iterations := 10, id := 0, cpuMsr := 1 }) .empty
  have succeed : ReadsSucceed tr := by
    rintro ⟨o, r⟩ member fails
    have value := answered _ member
    cases o
    case readInto =>
      cases fails
      cases value
    all_goals exact fails
  exact ⟨tr, s, run, succeed, (readings_iff rfl _ Audit.empty_fresh run).mpr
    (Or.inr (Or.inr ⟨succeed, by decide, by decide, by decide⟩))⟩

theorem must_timedSample {args : ThreadArgs} {measured : Prog Unit} (rows : 0 < b.counterTbl.size) :
    (timedSample b args measured).Must fun o => o.reads = true := by
  have read (cpu : Cpu) (buf : Buf) : (readValues b cpu buf).Must fun o => o.reads = true := by
    unfold readValues
    rw [CounterTbl.rows_eq]
    exact .forEach (List.mem_range.mpr rows) (Or.inl rfl)
  refine .rest _ fun _ => .first (.rest (perform _) fun _ => ?_) _
  exact (read _ _).first _

/-- One sample on hardware that fails every read records a difference of two stale values. -/
theorem not_clean_failing : ¬ ∀ tr s, (auditView dedos07).Run (Benchmark.bmSingleDArrayMultithreadedT1.body dedos07
    { iterations := 1, id := 0, cpuMsr := 1 }) .empty tr (.done ()) s → s.Clean dedos07 := by
  intro claim
  obtain ⟨tr, s, run, failed⟩ := run_returning (b := dedos07) none
    (Benchmark.bmSingleDArrayMultithreadedT1.body dedos07 { iterations := 1, id := 0, cpuMsr := 1 }) .empty
  have audited := audited_final rfl Audit.empty_fresh run
  have fine := audited.tally.genuine.mp (genuine_of_clean audited.tally.cells audited.counts (claim tr s run))
  have succeed := (failed_iff Audit.empty_fresh.failed run).mp fine.1
  have must : (Benchmark.bmSingleDArrayMultithreadedT1.body dedos07 { iterations := 1, id := 0, cpuMsr := 1 }).Must
      fun o => o.reads = true := by
    refine .rest _ fun _ => .rest _ fun _ => .rest _ fun _ => .first (.first ?_ _) _
    exact .forEach (i := 0) (by simp) (.rest (perform _) fun _ => must_timedSample (by decide))
  rcases run.must must with ⟨⟨o, r⟩, member, reads⟩ | left
  · cases o
    case readInto => exact succeed _ member (failed _ member)
    all_goals cases reads
  · exact left

end PmcBench
