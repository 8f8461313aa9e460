import PmcBench.ConfigureCounters
import PmcBench.Main
import PmcBench.Sampling

/-!
# The extent of the counter table

One loop over `counter_tbl` is bounded by `N_CUSTOM_CTR` and a cap that lets a ninth
row pass, the others by the NULL row, and the stores of a benchmark by
`N_CUSTOM_CTR`. `extent_iff` says for which tables they agree.
-/

namespace PmcBench
open Threads
open Program (forEach)

/-- `k` custom counters, at most `N_CUSTOM_CTR`, come before at most `N_FIXED_CTR` fixed ones. -/
structure Ordered (b : Build) (k : Nat) : Prop where
  bound : k ≤ b.counterTbl.size
  custom : ∀ c < k, (b.counterTbl.row c).ctrType = .customCtr
  fixed : ∀ c < b.counterTbl.size, k ≤ c → (b.counterTbl.row c).ctrType = .fixedCtr
  nCustomCtr : k ≤ b.nCustomCtr
  nFixedCtr : b.counterTbl.size ≤ k + b.nFixedCtr

/-- A benchmark on its own memory; what it reads elsewhere is arbitrary. -/
abbrev localView (b : Build) : View Action Action.Res where
  St := Local
  rely _ _ := False
  allow _ _ := True
  next l o r l' := l.step b o r l'

/-- The action keeps to the stores and to the rows of `values`. -/
def Within (b : Build) (l : Local) : Action → Prop
  | .readInto _ _ buf i => l.InBounds buf i
  | .load .storeStart i => l.InBounds .storeStart i
  | .load .storeEnd i => l.InBounds .storeEnd i
  | .setValue c _ _ => c < b.nCustomCtr + b.nFixedCtr
  | _ => True

/-- All loops over the table agree on its extent. -/
structure ExtentAgrees (b : Build) : Prop where
  programming : ∀ c ∈ pmcLoop b, c ≤ b.counterTbl.size
  programmed : ((pmcLoop b).filter fun c => (b.counterTbl.row c).ctrType = .customCtr).length ≤ perfMaxCustomCounters
  benchmarks : ∀ (bm : Benchmark) (args : ThreadArgs) (l : Local) tr o next l',
    (localView b).Run (bm.body b args) l tr (.act o next) l' → Within b l' o
  csv : ∀ c ∈ columns b, c < b.nCustomCtr + b.nFixedCtr

variable {b : Build}

/-! ### The programming loop -/

theorem pmcLoop_range (b : Build) : pmcLoop b = List.range (min b.nCustomCtr 9) := by
  have upTo (n : Nat) : (List.range n).takeWhile (fun c => !decide (c > perfMaxCustomCounters)) =
      List.range (min n 9) := by
    induction n with
    | zero => rfl
    | succ n ih =>
      rw [List.range_succ, List.takeWhile_append, ih, List.length_range, List.length_range]
      by_cases early : n ≤ 8
      · rw [if_pos (by omega), Nat.min_eq_left (by omega), List.range_succ]
        simp [perfMaxCustomCounters, show ¬ 8 < n by omega]
      · by_cases nine : n = 9
        · subst nine
          rfl
        · rw [if_neg (by omega), show min (n + 1) 9 = min n 9 by omega]
  exact upTo b.nCustomCtr

theorem programming_iff (b : Build) :
    (∀ c ∈ pmcLoop b, c ≤ b.counterTbl.size) ↔ min b.nCustomCtr 9 ≤ b.counterTbl.size + 1 := by
  simp only [pmcLoop_range, List.mem_range]
  constructor
  · intro all
    by_contra more
    have last := all (min b.nCustomCtr 9 - 1) (by omega)
    omega
  · intro le c lt
    omega

theorem Ordered.custom_iff {k c : Nat} (ordered : Ordered b k) (inside : c ≤ b.counterTbl.size) :
    (b.counterTbl.row c).ctrType = .customCtr ↔ c < k := by
  refine ⟨fun custom => ?_, ordered.custom c⟩
  by_contra late
  rcases Nat.lt_or_eq_of_le inside with row | rfl
  · have fixed := ordered.fixed c row (by omega)
    rw [custom] at fixed
    cases fixed
  · rw [b.counterTbl.sentinel] at custom
    cases custom

/-- Within the table, the loop programs the custom rows up to the ninth. -/
theorem programmed_length {k : Nat} (ordered : Ordered b k) (inside : min b.nCustomCtr 9 ≤ b.counterTbl.size + 1) :
    ((pmcLoop b).filter fun c => (b.counterTbl.row c).ctrType = .customCtr).length = min k 9 := by
  have count (n : Nat) : ((List.range n).filter fun c => c < k).length = min n k := by
    induction n with
    | zero => simp
    | succ n ih =>
      rw [List.range_succ, List.filter_append, List.length_append, ih]
      by_cases early : n < k
      · simp [early]; omega
      · simp [early]; omega
  have same : ∀ c ∈ pmcLoop b, decide ((b.counterTbl.row c).ctrType = .customCtr) = decide (c < k) := by
    intro c member
    have le := (programming_iff b).mpr inside c member
    exact decide_eq_decide.mpr (ordered.custom_iff le)
  have enough := ordered.nCustomCtr
  rw [List.filter_congr same, pmcLoop_range, count]
  omega

/-! ### The loops of a benchmark -/

namespace Local

def extent (l : Local) (buf : Buf) : Option Nat := (l.mem buf).map Buffer.size

theorem inBounds_iff (l : Local) (buf : Buf) (i : Nat) : l.InBounds buf i ↔ ∃ n, l.extent buf = some n ∧ i < n := by
  simp only [InBounds, extent, Option.map_eq_some_iff]
  constructor
  · rintro ⟨B, found, lt⟩
    exact ⟨B.size, ⟨B, found, rfl⟩, lt⟩
  · rintro ⟨_, ⟨B, found, rfl⟩, lt⟩
    exact ⟨B, found, lt⟩

theorem write_extent (l : Local) (buf : Buf) (i : Nat) (v : Word) : (l.write buf i v).extent = l.extent := by
  funext other
  unfold write
  split
  · rename_i B found
    split
    · by_cases same : other = buf
      · subst same; simp [extent, found, Buffer.write]
      · simp [extent, same]
    · rfl
  · rfl

theorem write_cell_same {l : Local} {buf : Buf} {i : Nat} (bound : l.InBounds buf i) (v : Word) :
    (l.write buf i v).cell buf i = some v := by
  obtain ⟨B, found, lt⟩ := bound
  simp [write, cell, found, lt, Buffer.write]

theorem write_cell_other {l : Local} {buf other : Buf} {i j : Nat} (different : other ≠ buf ∨ j ≠ i) (v : Word) :
    (l.write buf i v).cell other j = l.cell other j := by
  unfold write
  split
  · rename_i B found
    split
    · by_cases same : other = buf
      · subst same
        have index : j ≠ i := different.resolve_left fun ne => ne rfl
        simp [cell, found, Buffer.write, index]
      · simp [cell, same]
    · rfl
  · rfl

theorem step_extent {l l' : Local} {o : Action} {r : o.Res} {buf : Buf} (step : l.step b o r l')
    (other : ∀ n, o ≠ .malloc buf n) : l'.extent buf = l.extent buf := by
  cases o
  case malloc buf' n =>
    have different : buf ≠ buf' := by rintro rfl; exact other n rfl
    rw [show l' = l.alloc buf' n from step]
    simp [extent, alloc, different]
  case load => rw [show l' = l from step.2]
  case counts => rw [show l' = l from step.2]
  case store buf' i v => rw [show l' = l.write buf' i v from step, write_extent]
  case readInto cpu reg buf' i =>
    cases r with
    | none => rw [show l' = l from step]
    | some v => rw [show l' = l.write buf' i v from step, write_extent]
  case pushTime t => rw [show l' = l.pushTime t from step]; rfl
  case setValue c k v => rw [show l' = l.setValue b.maxPts c k v from step]; rfl
  case incCounts => rw [show l' = l.incCounts from step]; rfl
  all_goals rw [show l' = l from step]

/-- Both stores have at least `n` elements. -/
def Stores (n : Nat) (l : Local) : Prop :=
  (∃ m, l.extent .storeStart = some m ∧ n ≤ m) ∧ ∃ m, l.extent .storeEnd = some m ∧ n ≤ m

end Local

abbrev withinView (b : Build) : View Action Action.Res := (localView b).allowing (Within b)

theorem stores_preserved {n : Nat} {o : Action} (allowed : ∀ l : Local, l.Stores n → Within b l o)
    (other : ∀ m, o ≠ .malloc .storeStart m ∧ o ≠ .malloc .storeEnd m) :
    (withinView b).Preserves (Local.Stores n) o := by
  refine fun l held => ⟨allowed l held, fun r l' step => ?_⟩
  have start : l'.extent .storeStart = l.extent .storeStart := Local.step_extent step fun m => (other m).1
  have stop : l'.extent .storeEnd = l.extent .storeEnd := Local.step_extent step fun m => (other m).2
  rw [Local.Stores, start, stop]
  exact held

theorem Local.Stores.inBounds {n i : Nat} {l : Local} (held : l.Stores n) (lt : i < n) :
    l.InBounds .storeStart i ∧ l.InBounds .storeEnd i := by
  obtain ⟨⟨m, start, le⟩, m', stop, le'⟩ := held
  exact ⟨(l.inBounds_iff ..).mpr ⟨m, start, by omega⟩, (l.inBounds_iff ..).mpr ⟨m', stop, by omega⟩⟩

/-- An action that keeps to stores of `n` elements and allocates none. -/
def KeepsTo (b : Build) (n : Nat) (o : Action) : Prop :=
  (∀ l : Local, l.Stores n → Within b l o) ∧ ∀ m, o ≠ .malloc .storeStart m ∧ o ≠ .malloc .storeEnd m

theorem wp_stores {α : Type} {n : Nat} {p : Prog α} {l : Local} (kept : p.All (KeepsTo b n)) (held : l.Stores n) :
    p.wp (withinView b) (fun _ => Local.Stores n) l :=
  Program.wp_of_preserves (fun _ _ _ moved => moved.elim)
    (kept.mono fun _ ⟨allowed, other⟩ => stores_preserved allowed other) held

theorem keepsTo_quiet {n : Nat} {o : Action} (quiet : o.quiet = true) : KeepsTo b n o := by
  refine ⟨fun l _ => ?_, fun m => ⟨?_, ?_⟩⟩
  · cases o
    case load buf i => cases buf <;> trivial
    case readInto | setValue => exact Bool.noConfusion quiet
    all_goals trivial
  · rintro rfl; cases quiet
  · rintro rfl; cases quiet

theorem keepsTo_other {n : Nat} {o : Action} (free : ∀ l, Within b l o)
    (other : ∀ m, o ≠ .malloc .storeStart m ∧ o ≠ .malloc .storeEnd m) : KeepsTo b n o := ⟨fun l _ => free l, other⟩

theorem keepsTo_window {args : ThreadArgs} {measured : Prog Unit} (fits : b.counterTbl.size ≤ b.nCustomCtr)
    (quiet : QuietProg measured) : (window b args measured).All (KeepsTo b b.nCustomCtr) := by
  have read (cpuMsr : Cpu) (buf : Buf) (isStore : buf = .storeStart ∨ buf = .storeEnd) :
      (readValues b cpuMsr buf).All (KeepsTo b b.nCustomCtr) := by
    unfold readValues
    rw [CounterTbl.rows_eq]
    refine .forEach fun i member => ⟨⟨fun l held => ?_, by simp⟩, fun _ => trivial⟩
    have bounds := held.inBounds (Nat.lt_of_lt_of_le (List.mem_range.mp member) fits)
    rcases isStore with rfl | rfl
    · exact bounds.1
    · exact bounds.2
  have deltas : (recordDeltas b).All (KeepsTo b b.nCustomCtr) := by
    unfold recordDeltas
    rw [CounterTbl.rows_eq]
    refine .forEach fun c member => ?_
    have row := List.mem_range.mp member
    refine ⟨keepsTo_other (fun _ => trivial) (by simp), fun k => ⟨⟨fun l held => ?_, by simp⟩, fun stop => ?_⟩⟩
    · exact (held.inBounds (by omega)).2
    · refine ⟨⟨fun l held => (held.inBounds (by omega)).1, by simp⟩, fun start => ⟨⟨fun l _ => ?_, by simp⟩, fun _ => trivial⟩⟩
      show c % 256 < b.nCustomCtr + b.nFixedCtr
      have := Nat.mod_le c 256
      omega
  refine ⟨keepsTo_other (fun _ => trivial) (by simp), fun _ => ?_⟩
  exact (read _ _ (Or.inl rfl)).bind fun _ => (quiet.mono fun _ => keepsTo_quiet).bind fun _ =>
    (read _ _ (Or.inr rfl)).bind fun _ => deltas

theorem stores_passes : Sampling.Passes (withinView b) fun _ _ => Local.Stores b.nCustomCtr := by
  intro m o hand
  cases o with
  | waitCanRun | setCanRun => exact stores_preserved (fun _ _ => trivial) (by simp)
  | _ => cases hand

/-- Stores as long as the table, as an invariant of the sampling. -/
theorem stores_sampling {args : ThreadArgs} {timed : Bool} {N : Nat} (fits : b.counterTbl.size ≤ b.nCustomCtr) :
    Sampling b args timed N (withinView b) (fun _ => True) fun _ _ => Local.Stores b.nCustomCtr where
  stable _ moved := moved.elim
  quiet quiet := stores_preserved (keepsTo_quiet quiet).1 (keepsTo_quiet (b := b) (n := b.nCustomCtr) quiet).2
  start {l size} enough _ := by
    refine (Program.wp_act_still fun _ _ => id).mpr ⟨trivial, fun _ l₁ first => ?_⟩
    refine (Program.wp_act_still fun _ _ => id).mpr ⟨trivial, fun _ l₂ second => ?_⟩
    have first : l₁ = l.alloc .storeStart size := first
    have second : l₂ = l₁.alloc .storeEnd size := second
    refine (Program.wp_done_still fun _ _ => id).mpr ⟨⟨size, ?_, enough⟩, size, ?_, enough⟩
    · simp [first, second, Local.extent, Local.alloc]
    · simp [second, Local.extent, Local.alloc]
  head _ := stores_preserved (fun _ _ => trivial) (by simp)
  takeTime _ _ held := by
    refine wp_stores ⟨keepsTo_other (fun _ => trivial) (by simp), fun _ => ?_⟩ held
    exact ⟨keepsTo_other (fun _ => trivial) (by simp), fun _ => trivial⟩
  untimed _ _ held := held
  window _ quiet held := wp_stores (keepsTo_window fits quiet) held
  incCounts _ held := wp_stores ⟨keepsTo_other (fun _ => trivial) (by simp), fun _ => trivial⟩ held

theorem benchmarks_within (fits : b.counterTbl.size ≤ b.nCustomCtr) {bm : Benchmark} {args : ThreadArgs} {l l' : Local}
    {tr : List (Σ o : Action, o.Res)} {o : Action} {next : o.Res → Prog Unit}
    (run : (localView b).Run (bm.body b args) l tr (.act o next) l') : Within b l' o := by
  have body : (bm.body b args).wp (withinView b) _ l :=
    (stores_sampling (N := bm.samples args.iterations) fits).wp_body stores_passes rfl (Nat.le_refl _) trivial
  exact (Program.wp_now (View.Run.wp (V := withinView b) (View.run_allowing.mpr run) body)).1

/-! ### A table longer than the stores -/

/-- Where each round of a loop can leave the state as it is, every round is allowed. -/
theorem wp_forEach_each {V : View Action Action.Res} {ι : Type} {l : List ι} {body : ι → Prog Unit}
    {Q : Unit → V.St → Prop} {s : V.St} (proved : (forEach l body).wp V Q s)
    (idle : ∀ i ∈ l, ∃ tr, V.Run (body i) s tr (.done ()) s) : ∀ i ∈ l, ∃ P, (body i).wp V P s := by
  induction l with
  | nil => simp
  | cons i rest ih =>
    rw [Program.forEach_cons, Program.wp_bind] at proved
    intro j member
    rcases List.mem_cons.mp member with rfl | later
    · exact ⟨_, proved⟩
    · obtain ⟨tr, run⟩ := idle i List.mem_cons_self
      have left := run.wp proved s .refl
      exact ih left (fun j member => idle j (List.mem_cons_of_mem i member)) j later

/-- `bm_single_d_array_multithreaded_t3` reads every row into stores of `N_CUSTOM_CTR` elements. -/
theorem size_le_of_within (args : ThreadArgs)
    (within : ∀ l tr o next l', (localView b).Run (bmSingleDArrayMultithreadedT3 b args) l tr (.act o next) l' →
      Within b l' o) : b.counterTbl.size ≤ b.nCustomCtr := by
  by_contra more
  let l : Local := ⟨⟨fun _ => 0, 0, []⟩, fun _ => none⟩
  have whole : (bmSingleDArrayMultithreadedT3 b args).wp (withinView b) (fun _ _ => True) l :=
    View.wp_iff.mpr ⟨fun tr o next l' run => within l tr o next l' (View.run_allowing.mp run), fun _ _ _ _ => trivial⟩
  -- With `sa_flag` already set, the first window opens right after the allocations.
  let l₂ := (l.alloc .storeStart b.nCustomCtr).alloc .storeEnd b.nCustomCtr
  let l₃ := l₂.pushTime (Timeval.ofMicros 0).micros
  have first := (Program.wp_now (Program.wp_bind.mp whole)).2 () (l.alloc .storeStart b.nCustomCtr) rfl
  have second := (Program.wp_now first).2 () l₂ rfl
  have setUp := (Program.wp_now (Program.wp_bind.mp (second l₂ .refl))).2 true l₂ rfl
  have loop := Program.wp_bind.mp (Program.wp_bind.mp (setUp l₂ .refl))
  have round := Program.wp_bind.mp (Program.wp_bind.mp (show (forEach (0 :: List.range' 1 8) _).wp _ _ _ from loop))
  have sample := (Program.wp_now round).2 () l₂ rfl
  have time := (Program.wp_now (Program.wp_bind.mp (Program.wp_bind.mp (sample l₂ .refl)))).2 (Timeval.ofMicros 0) l₂ rfl
  have stamp := (Program.wp_now (time l₂ .refl)).2 () l₃ rfl
  have opened := (Program.wp_now (Program.wp_bind.mp (stamp l₃ .refl))).2 () l₃ rfl
  have reads : (readValues b args.cpuMsr .storeStart).wp (withinView b) _ l₃ := Program.wp_bind.mp opened
  have each := wp_forEach_each reads fun i _ => ⟨_, .act .start (show l₃.step b _ none l₃ from rfl)⟩
  obtain ⟨P, row⟩ := each b.nCustomCtr (by rw [CounterTbl.rows_eq, List.mem_range]; omega)
  obtain ⟨n, extent, lt⟩ := (l₃.inBounds_iff ..).mp (Program.wp_now row).1
  have allocated : l₃.extent .storeStart = some b.nCustomCtr := by
    simp [l₃, l₂, l, Local.extent, Local.pushTime, Local.alloc]
  rw [allocated] at extent
  cases extent
  omega

/-! ### The tables whose loops agree -/

/-- The loops agree on a table exactly when the PMC loop reaches at most the NULL row,
there are at most 8 custom counters, and the stores have room for every row. For an
empty table `main` still prints a first column. -/
theorem extent_iff {k : Nat} (ordered : Ordered b k) : ExtentAgrees b ↔
    min b.nCustomCtr 9 ≤ b.counterTbl.size + 1 ∧ k ≤ perfMaxCustomCounters ∧ b.counterTbl.size ≤ b.nCustomCtr ∧
      (b.counterTbl.size = 0 → ∀ c ∈ columns b, c < b.nCustomCtr + b.nFixedCtr) := by
  constructor
  · intro agrees
    have inside := (programming_iff b).mp agrees.programming
    have programmed := agrees.programmed
    rw [programmed_length ordered inside, perfMaxCustomCounters] at programmed
    refine ⟨inside, by rw [perfMaxCustomCounters]; omega, ?_, fun _ => agrees.csv⟩
    exact size_le_of_within default (agrees.benchmarks .bmSingleDArrayMultithreadedT3 default)
  · rintro ⟨inside, few, fits, empty⟩
    refine ⟨(programming_iff b).mpr inside, ?_, fun bm args l tr o next l' => benchmarks_within fits, ?_⟩
    · rw [programmed_length ordered inside]
      omega
    · rcases Nat.eq_zero_or_pos b.counterTbl.size with none | some
      · exact empty none
      · intro c member
        have row : c < b.counterTbl.size := by
          rcases List.mem_cons.mp member with rfl | later
          · exact some
          · exact b.counterTbl.lt_of_mem_namedFrom some later
        omega

theorem dedos07_ordered : Ordered dedos07 8 := by
  constructor <;> decide

theorem extentAgrees_dedos07 : ExtentAgrees dedos07 :=
  (extent_iff dedos07_ordered).mpr ⟨by decide, by decide, by decide, fun empty => by cases empty⟩

/-- With the shorter table of types.h the PMC loop reads past the NULL row. -/
theorem not_extentAgrees_alt : Ordered { dedos07 with counterTbl := counterTblAlt } 6 ∧
    ¬ ExtentAgrees { dedos07 with counterTbl := counterTblAlt } := by
  refine ⟨by constructor <;> decide, fun agrees => ?_⟩
  have past := agrees.programming 7 (by decide)
  revert past
  decide

end PmcBench
