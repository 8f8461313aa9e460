import PmcBench.Metering

/-!
# Auditing what a benchmark records

An audit adds to a benchmark's memory what its thread has read from the counters in
the current sample, and a list of its writes to `args.values`. `audit_sampling`
follows both through the benchmarks, whichever reads fail and however long the
stores are.
-/

namespace PmcBench
open Threads
open Program (forEach)

variable {b : Build}

/-- One `args.values(counter, sample) = value`, for a row of the table. -/
structure Entry where
  row : Nat
  counter : Nat
  sample : Nat
  value : Word
  /-- The windows of the run before the one that records it. -/
  window : Nat
  /-- What the stores held of the row's counter, read in the same window. -/
  start : Option Word
  stop : Option Word

/-- The value is the difference of two readings of the counter's row in the window of its sample. -/
def Entry.Genuine (e : Entry) : Prop :=
  e.counter = e.row ∧ e.window = e.sample ∧
    ∃ start stop, e.start = some start ∧ e.stop = some stop ∧ e.value = stop - start

structure Audit where
  mem : Local
  /-- What the current window has read from a row's counter into a store. -/
  read : Buf → Nat → Option Word
  /-- The rows that the current window has recorded. -/
  row : Nat
  /-- The windows so far. -/
  windows : Nat
  /-- Some read has failed. -/
  failed : Bool
  recorded : List Entry

namespace Audit

/-- The reading of the row in the current window, if it is what the store holds. -/
def held (s : Audit) (buf : Buf) (c : Nat) : Option Word :=
  (s.read buf c).filter fun v => decide (s.mem.cell buf c = some v)

/-- The audit after an action that leaves the memory `l`. -/
def observe (b : Build) (s : Audit) : (o : Action) → o.Res → Local → Audit
  | .point .window, _, l => { s with mem := l, read := fun _ _ => none, row := 0, windows := s.windows + 1 }
  | .readInto _ reg buf i, r, l =>
    { s with
      mem := l
      read := Function.update s.read buf
        (Function.update (s.read buf) i (if reg = (b.counterTbl.row i).pmc then r else none))
      failed := s.failed || r.isNone }
  | .setValue c k v, _, l =>
    { s with
      mem := l
      row := s.row + 1
      recorded := s.recorded ++ [⟨s.row, c, k, v, s.windows - 1, s.held .storeStart s.row, s.held .storeEnd s.row⟩] }
  | _, _, l => { s with mem := l }

/-- A benchmark that has recorded nothing yet. -/
structure Fresh (s : Audit) : Prop where
  counts : s.mem.prof.counts = 0
  windows : s.windows = 0
  failed : s.failed = false
  recorded : s.recorded = []

theorem cell_of_held {s : Audit} {buf : Buf} {c : Nat} {v : Word} (h : s.held buf c = some v) :
    s.mem.cell buf c = some v := by
  obtain ⟨-, cell⟩ := Option.filter_eq_some_iff.mp h
  exact of_decide_eq_true cell

/-- Every recorded value is a difference of two readings of its sample. -/
def Genuine (s : Audit) : Prop := ∀ e ∈ s.recorded, e.Genuine

end Audit

/-- A benchmark on its own memory, whose reads may fail; what it reads elsewhere is
arbitrary. -/
abbrev auditView (b : Build) : View Action Action.Res where
  St := Audit
  rely _ _ := False
  allow _ _ := True
  next s o r t := ∃ l, s.mem.step b o r l ∧ t = s.observe b o r l

theorem wp_audit_act {α : Type} {o : Action} {next : o.Res → Prog α} {Q : α → Audit → Prop} {s : Audit}
    (rest : ∀ r l, s.mem.step b o r l → (next r).wp (auditView b) Q (s.observe b o r l)) :
    (Program.act o next).wp (auditView b) Q s := by
  refine (Program.wp_act_still fun _ _ => id).mpr ⟨trivial, ?_⟩
  rintro r _ ⟨l, step, rfl⟩
  exact rest r l step

theorem wp_audit_done {α : Type} {a : α} {Q : α → Audit → Prop} {s : Audit} (h : Q a s) :
    (Program.done a).wp (auditView b) Q s := (Program.wp_done_still fun _ _ => id).mpr h

/-! ### What actions leave alone -/

namespace Audit

structure Same (s t : Audit) : Prop where
  kept : s.mem.Kept t.mem
  read : t.read = s.read
  row : t.row = s.row
  windows : t.windows = s.windows
  failed : t.failed = s.failed
  recorded : t.recorded = s.recorded

theorem Same.refl (s : Audit) : s.Same s := ⟨Local.kept_of_eq rfl, rfl, rfl, rfl, rfl, rfl⟩

theorem Same.held {s t : Audit} (same : s.Same t) (c : Nat) :
    t.held .storeStart c = s.held .storeStart c ∧ t.held .storeEnd c = s.held .storeEnd c := by
  have cells := same.kept.cell c
  simp only [Audit.held, same.read, cells.1, cells.2, and_self]

theorem Same.trans {s t u : Audit} (first : s.Same t) (second : t.Same u) : s.Same u where
  kept :=
    { start := second.kept.start.trans first.kept.start
      stop := second.kept.stop.trans first.kept.stop
      values := second.kept.values.trans first.kept.values
      counts := second.kept.counts.trans first.kept.counts }
  read := second.read.trans first.read
  row := second.row.trans first.row
  windows := second.windows.trans first.windows
  failed := second.failed.trans first.failed
  recorded := second.recorded.trans first.recorded

theorem observe_same {s : Audit} {o : Action} {r : o.Res} {l : Local} (neutral : o.neutral = true)
    (other : o ≠ .point .window) (step : s.mem.step b o r l) : s.Same (s.observe b o r l) := by
  have kept := Local.step_kept neutral step
  cases o
  case readInto | setValue => cases neutral
  case point p =>
    cases p
    case window => exact (other rfl).elim
    all_goals exact ⟨kept, rfl, rfl, rfl, rfl, rfl⟩
  all_goals exact ⟨kept, rfl, rfl, rfl, rfl, rfl⟩

end Audit

def Action.unaudited (o : Action) : Prop := o.neutral = true ∧ o ≠ .point .window

theorem Action.unaudited_of_quiet {o : Action} (quiet : o.quiet = true) : o.unaudited := by
  refine ⟨Action.neutral_of_quiet quiet, ?_⟩
  rintro rfl
  cases quiet

theorem wp_same {α : Type} {p : Prog α} {s : Audit} (all : p.All Action.unaudited) :
    p.wp (auditView b) (fun _ t => s.Same t) s := by
  refine Program.wp_of_preserves (fun _ _ _ moved => moved.elim) (all.mono fun o unaudited t same => ?_) (.refl s)
  refine ⟨trivial, ?_⟩
  rintro r _ ⟨l, step, rfl⟩
  exact same.trans (Audit.observe_same unaudited.1 unaudited.2 step)

/-! ### Reading the counters -/

theorem Local.cell_eq_none {l : Local} {buf : Buf} {n i : Nat} (extent : l.extent buf = some n) (outside : n ≤ i) :
    l.cell buf i = none := by
  simp only [Local.extent, Option.map_eq_some_iff] at extent
  obtain ⟨B, found, rfl⟩ := extent
  simp [Local.cell, found, show ¬ i < B.size by omega]

/-- `read_values` has read the rows up to `i` into a store of `n` elements: the rows whose
reading is there are those that it could read and store. -/
structure Audit.ReadRows (buf : Buf) (n i : Nat) (s t : Audit) : Prop where
  extent : t.mem.extent = s.mem.extent
  counts : t.mem.prof.counts = s.mem.prof.counts
  values : t.mem.prof.values = s.mem.prof.values
  row : t.row = s.row
  windows : t.windows = s.windows
  recorded : t.recorded = s.recorded
  others : ∀ buf' ≠ buf, ∀ c, t.held buf' c = s.held buf' c
  read : t.failed = false ∧ i ≤ n ↔ s.failed = false ∧ ∀ c < i, (t.held buf c).isSome

theorem forall_lt_succ {i : Nat} {P : Nat → Prop} : (∀ c < i + 1, P c) ↔ (∀ c < i, P c) ∧ P i := by
  constructor
  · exact fun all => ⟨fun c lt => all c (by omega), all i (by omega)⟩
  · rintro ⟨before, last⟩ c lt
    rcases Nat.lt_succ_iff_lt_or_eq.mp lt with early | rfl
    · exact before c early
    · exact last

namespace Audit

/-- One read into a store leaves the other readings alone. -/
theorem observe_read_other {s : Audit} {buf buf' : Buf} {cpu : Cpu} {reg i c : Nat} {r : Option Word} {l : Local}
    (step : s.mem.step b (.readInto cpu reg buf i) r l) (other : buf' ≠ buf ∨ c ≠ i) :
    (s.observe b (.readInto cpu reg buf i) r l).held buf' c = s.held buf' c := by
  have cell : l.cell buf' c = s.mem.cell buf' c := by
    cases r with
    | none => rw [show l = s.mem from step]
    | some v => rw [show l = s.mem.write buf i v from step, Local.write_cell_other other]
  have read : (s.observe b (.readInto cpu reg buf i) r l).read buf' c = s.read buf' c := by
    by_cases same : buf' = buf
    · subst same
      have index : c ≠ i := other.resolve_left fun ne => ne rfl
      simp [observe, index]
    · simp [observe, same]
  have mem : (s.observe b (.readInto cpu reg buf i) r l).mem = l := rfl
  rw [held, held, read, mem, cell]

theorem observe_read_self {s : Audit} {buf : Buf} {cpu : Cpu} {i n : Nat} {r : Option Word} {l : Local}
    (extent : s.mem.extent buf = some n) (step : s.mem.step b (.readInto cpu (b.counterTbl.row i).pmc buf i) r l) :
    ((s.observe b (.readInto cpu (b.counterTbl.row i).pmc buf i) r l).held buf i).isSome = (r.isSome && decide (i < n)) := by
  have read : (s.observe b (.readInto cpu (b.counterTbl.row i).pmc buf i) r l).read buf i = r := by simp [observe]
  have mem : (s.observe b (.readInto cpu (b.counterTbl.row i).pmc buf i) r l).mem = l := rfl
  rw [held, read, mem]
  cases r with
  | none => rfl
  | some v =>
    have wrote : l = s.mem.write buf i v := step
    by_cases inside : i < n
    · have bound : s.mem.InBounds buf i := (s.mem.inBounds_iff buf i).mpr ⟨n, extent, inside⟩
      simp [wrote, Local.write_cell_same bound v, inside]
    · have extent' : l.extent buf = some n := by rw [wrote, Local.write_extent, extent]
      have empty : l.cell buf i = none := Local.cell_eq_none extent' (Nat.not_lt.mp inside)
      simp [empty, inside]

end Audit

namespace Audit.ReadRows
variable {buf : Buf} {n i : Nat} {s t : Audit}

theorem refl (s : Audit) (buf : Buf) (n : Nat) : ReadRows buf n 0 s s where
  extent := rfl
  counts := rfl
  values := rfl
  row := rfl
  windows := rfl
  recorded := rfl
  others _ _ _ := rfl
  read := by simp

theorem next (now : ReadRows buf n i s t) (extent : s.mem.extent buf = some n) {cpu : Cpu} {r : Option Word} {l : Local}
    (step : t.mem.step b (.readInto cpu (b.counterTbl.row i).pmc buf i) r l) :
    ReadRows buf n (i + 1) s (t.observe b (.readInto cpu (b.counterTbl.row i).pmc buf i) r l) := by
  have prof : l.prof = t.mem.prof := Local.step_prof rfl step
  have here : t.mem.extent buf = some n := by rw [now.extent, extent]
  have self := observe_read_self here step
  refine ⟨?_, by rw [← now.counts, ← prof]; rfl, by rw [← now.values, ← prof]; rfl, now.row, now.windows, now.recorded, ?_, ?_⟩
  · rw [← now.extent]
    funext other
    exact Local.step_extent step nofun
  · intro buf' other c
    rw [observe_read_other step (Or.inl other), now.others buf' other c]
  · have failed : (t.observe b (.readInto cpu (b.counterTbl.row i).pmc buf i) r l).failed = false ↔
        t.failed = false ∧ r.isSome := by
      cases r <;> simp [observe]
    rw [forall_lt_succ, self, failed, Nat.succ_le_iff]
    have before : (∀ c < i, ((t.observe b (.readInto cpu (b.counterTbl.row i).pmc buf i) r l).held buf c).isSome) ↔
        ∀ c < i, (t.held buf c).isSome :=
      forall₂_congr fun c lt => by rw [observe_read_other step (Or.inr (Nat.ne_of_lt lt))]
    rw [before, ← and_assoc, ← now.read, Bool.and_eq_true, decide_eq_true_eq]
    constructor
    · rintro ⟨⟨fine, some⟩, lt⟩
      exact ⟨⟨fine, by omega⟩, some, lt⟩
    · rintro ⟨⟨fine, -⟩, some, lt⟩
      exact ⟨⟨fine, some⟩, lt⟩

end Audit.ReadRows

theorem wp_readValues {buf : Buf} {n : Nat} {s : Audit} (extent : s.mem.extent buf = some n) (cpu : Cpu) :
    (readValues b cpu buf).wp (auditView b) (fun _ t => Audit.ReadRows buf n b.counterTbl.size s t) s := by
  unfold readValues
  rw [CounterTbl.rows_eq]
  refine Program.wp_forEach_range (V := auditView b) (I := fun i t => Audit.ReadRows buf n i s t) (.refl s buf n)
    (fun _ _ _ _ moved => moved.elim) (fun i t _ now => ?_) fun _ => id
  exact wp_audit_act fun r l step => wp_audit_done (now.next extent step)

/-! ### Recording the deltas -/

namespace Audit

/-- The rows up to `i` have been recorded, each with its readings. -/
structure RecordRows (b : Build) (i : Nat) (s t : Audit) : Prop where
  extent : t.mem.extent = s.mem.extent
  counts : t.mem.prof.counts = s.mem.prof.counts
  row : t.row = i
  windows : t.windows = s.windows
  failed : t.failed = s.failed
  held : ∀ buf c, t.held buf c = s.held buf c
  recorded : ∃ values : Nat → Word, t.recorded = s.recorded ++ (List.range i).map (fun c =>
      ⟨c, c % 256, s.mem.prof.counts, values c, s.windows - 1, s.held .storeStart c, s.held .storeEnd c⟩) ∧
    ∀ c < i, ∀ start stop, s.held .storeStart c = some start → s.held .storeEnd c = some stop → values c = stop - start

end Audit

theorem wp_recordDeltas {s : Audit} (start : s.row = 0) :
    (recordDeltas b).wp (auditView b) (fun _ t => Audit.RecordRows b b.counterTbl.size s t) s := by
  unfold recordDeltas
  rw [CounterTbl.rows_eq]
  refine Program.wp_forEach_range (V := auditView b) (I := fun i t => Audit.RecordRows b i s t)
    ⟨rfl, rfl, start, rfl, rfl, fun _ _ => rfl, fun _ => 0, by simp, by simp⟩
    (fun _ _ _ _ moved => moved.elim) (fun i t _ now => ?_) fun _ => id
  refine wp_audit_act fun k l₁ first => wp_audit_act fun stop l₂ second => wp_audit_act fun begin_ l₃ third => ?_
  obtain ⟨rfl, rfl⟩ := first
  obtain ⟨stopped, rfl⟩ := second
  obtain ⟨started, rfl⟩ := third
  refine wp_audit_act fun _ l step => wp_audit_done ?_
  obtain ⟨values, recorded, deltas⟩ := now.recorded
  obtain rfl : l = t.mem.setValue b.maxPts (i % 256) t.mem.prof.counts (stop - begin_) := step
  refine ⟨now.extent, now.counts, congrArg (· + 1) now.row, now.windows, now.failed, now.held, Function.update values i (stop - begin_),
    ?_, forall_lt_succ.mpr ⟨fun c lt => ?_, fun start' stop' start stop => ?_⟩⟩
  · have rows : (List.range i).map (fun c => (⟨c, c % 256, s.mem.prof.counts, Function.update values i (stop - begin_) c,
        s.windows - 1, s.held .storeStart c, s.held .storeEnd c⟩ : Entry)) = (List.range i).map fun c =>
          ⟨c, c % 256, s.mem.prof.counts, values c, s.windows - 1, s.held .storeStart c, s.held .storeEnd c⟩ :=
      List.map_congr_left fun c member => by rw [Function.update_of_ne (Nat.ne_of_lt (List.mem_range.mp member))]
    have last : (⟨t.row, i % 256, t.mem.prof.counts, stop - begin_, t.windows - 1, t.held .storeStart t.row,
        t.held .storeEnd t.row⟩ : Entry) =
        ⟨i, i % 256, s.mem.prof.counts, stop - begin_, s.windows - 1, s.held .storeStart i, s.held .storeEnd i⟩ := by
      rw [now.held, now.held, now.row, now.counts, now.windows]
    rw [List.range_succ, List.map_append, rows, ← List.append_assoc, ← recorded, List.map_singleton, Function.update_self,
      ← last]
    rfl
  · rw [Function.update_of_ne (Nat.ne_of_lt lt)]
    exact deltas c lt
  · rw [← now.held] at start stop
    rw [Function.update_self, stopped _ (Audit.cell_of_held stop), started _ (Audit.cell_of_held start)]

/-! ### Samples -/

/-- The elements that `m` samples record, row by row. -/
def auditCells (b : Build) (m : Nat) : List (Nat × Nat) :=
  (List.range m).flatMap fun j => (List.range b.counterTbl.size).map fun c => (c % 256, j)

theorem auditCells_succ (b : Build) (m : Nat) : auditCells b (m + 1) = auditCells b m ++
    (List.range b.counterTbl.size).map fun c => (c % 256, m) := by
  simp [auditCells, List.range_succ, List.flatMap_append]

/-- What has been recorded after `m` samples into stores of `n` elements. -/
structure Tally (b : Build) (n m : Nat) (s : Audit) : Prop where
  genuine : s.Genuine ↔ s.failed = false ∧ (m = 0 ∨ b.counterTbl.size ≤ n ∧ b.counterTbl.size ≤ 256)
  cells : (s.recorded.map fun e => (e.counter, e.sample)) = auditCells b m

/-- A sampling with stores of `n` elements that has counted `m` samples and recorded `k`. -/
structure Audited (b : Build) (n m k : Nat) (s : Audit) : Prop where
  start : s.mem.extent .storeStart = some n
  stop : s.mem.extent .storeEnd = some n
  counts : s.mem.prof.counts = m
  windows : s.windows = k
  tally : Tally b n k s

def auditPhase (b : Build) : Phase → Nat → Audit → Prop
  | .idle, m | .stamped, m => fun s => ∃ n, Audited b n m m s
  | .recorded, m => fun s => ∃ n, Audited b n m (m + 1) s

theorem Audited.same {n m k : Nat} {s t : Audit} (held : Audited b n m k s) (same : s.Same t) : Audited b n m k t where
  start := by rw [Local.extent, same.kept.start]; exact held.start
  stop := by rw [Local.extent, same.kept.stop]; exact held.stop
  counts := same.kept.counts.trans held.counts
  windows := same.windows.trans held.windows
  tally :=
    { genuine := by rw [Audit.Genuine, same.recorded, same.failed]; exact held.tally.genuine
      cells := by rw [same.recorded]; exact held.tally.cells }

theorem Audit.RecordRows.genuine {i : Nat} {s t : Audit} (rows : RecordRows b i s t)
    (window : s.windows = s.mem.prof.counts + 1) :
    t.Genuine ↔ s.Genuine ∧ ∀ c < i, c % 256 = c ∧ (s.held .storeStart c).isSome ∧ (s.held .storeEnd c).isSome := by
  obtain ⟨values, recorded, deltas⟩ := rows.recorded
  have index : s.windows - 1 = s.mem.prof.counts := by omega
  rw [Genuine, recorded, index]
  simp only [List.forall_mem_append, List.forall_mem_map, List.mem_range]
  refine and_congr_right fun _ => forall₂_congr fun c lt => ?_
  rw [Option.isSome_iff_exists, Option.isSome_iff_exists]
  constructor
  · rintro ⟨counter, -, start, stop, read, read', -⟩
    exact ⟨counter, ⟨start, read⟩, stop, read'⟩
  · rintro ⟨counter, ⟨start, read⟩, stop, read'⟩
    exact ⟨counter, rfl, start, stop, read, read', deltas c lt start stop read read'⟩

/-- A table whose rows all have an index of their own. -/
theorem small_iff {n : Nat} : (∀ c < n, c % 256 = c) ↔ n ≤ 256 := by
  constructor
  · intro all
    by_contra more
    have last := all 256 (by omega)
    omega
  · intro le c lt
    omega

theorem wp_audit_window {args : ThreadArgs} {measured : Prog Unit} {n m : Nat} {s : Audit} (quiet : QuietProg measured)
    (held : Audited b n m m s) :
    (window b args measured).wp (auditView b) (fun _ => Audited b n m (m + 1)) s := by
  rw [window, Program.call_bind]
  apply wp_audit_act
  intro _ l same
  obtain rfl : l = s.mem := same
  -- The window begins without readings, and with everything else as it was.
  obtain ⟨s₀, opened⟩ : ∃ s₀, s₀ = s.observe b (.point .window) () s.mem := ⟨_, rfl⟩
  have mem : s₀.mem = s.mem := by rw [opened]; rfl
  have row₀ : s₀.row = 0 := by rw [opened]; rfl
  have windows₀ : s₀.windows = s.windows + 1 := by rw [opened]; rfl
  have failed₀ : s₀.failed = s.failed := by rw [opened]; rfl
  have recorded₀ : s₀.recorded = s.recorded := by rw [opened]; rfl
  rw [← opened]
  have start : s₀.mem.extent .storeStart = some n := by rw [mem, held.start]
  have stop : s₀.mem.extent .storeEnd = some n := by rw [mem, held.stop]
  apply Program.wp_seq (wp_readValues start _)
  intro _ s₁ first
  apply Program.wp_seq (wp_same (quiet.mono fun _ => Action.unaudited_of_quiet))
  intro _ s₂ same
  have start₂ : s₂.mem.extent .storeStart = some n := by
    rw [Local.extent, same.kept.start, ← Local.extent, first.extent, start]
  have stop₂ : s₂.mem.extent .storeEnd = some n := by
    rw [Local.extent, same.kept.stop, ← Local.extent, first.extent, stop]
  apply Program.wp_seq (wp_readValues stop₂ _)
  intro _ s₃ second
  apply Program.wp_mono (wp_recordDeltas (second.row.trans (same.row.trans (first.row.trans row₀))))
  intro _ t last
  have counts : s₃.mem.prof.counts = m := by
    rw [second.counts, same.kept.counts, first.counts, mem, held.counts]
  have recorded : s₃.recorded = s.recorded := by
    rw [second.recorded, same.recorded, first.recorded, recorded₀]
  have heldStart (c : Nat) : s₃.held .storeStart c = s₁.held .storeStart c := by
    rw [second.others _ (by decide), (same.held c).1]
  have windows : s₃.windows = m + 1 := by
    rw [second.windows, same.windows, first.windows, windows₀, held.windows]
  refine ⟨by rw [last.extent, second.extent, start₂], by rw [last.extent, second.extent, stop₂],
    by rw [last.counts, counts], by rw [last.windows, windows], ?_, ?_⟩
  · have before := held.tally.genuine
    have readStart := first.read
    have readStop := second.read
    rw [last.genuine (by rw [windows, counts]), last.failed]
    simp only [heldStart]
    rw [same.failed] at readStop
    rw [failed₀] at readStart
    have genuine : s₃.Genuine ↔ s.Genuine := by rw [Audit.Genuine, recorded]; rfl
    rw [genuine, before]
    constructor
    · rintro ⟨⟨fine, -⟩, rows⟩
      have now := readStart.mpr ⟨fine, fun c lt => (rows c lt).2.1⟩
      have now := readStop.mpr ⟨now.1, fun c lt => (rows c lt).2.2⟩
      exact ⟨now.1, Or.inr ⟨now.2, small_iff.mp fun c lt => (rows c lt).1⟩⟩
    · rintro ⟨fine, none | ⟨fits, small⟩⟩
      · cases none
      · have before := readStop.mp ⟨fine, fits⟩
        have first := readStart.mp ⟨before.1, fits⟩
        exact ⟨⟨first.1, Or.inr ⟨fits, small⟩⟩, fun c lt => ⟨small_iff.mpr small c lt, first.2 c lt, before.2 c lt⟩⟩
  · obtain ⟨values, rows, -⟩ := last.recorded
    rw [rows, List.map_append, recorded, held.tally.cells, auditCells_succ, List.map_map, counts]
    rfl

theorem auditPhase_same {ph : Phase} {m : Nat} {s t : Audit} (held : auditPhase b ph m s) (same : s.Same t) :
    auditPhase b ph m t := by
  cases ph <;> exact held.imp fun n audited => audited.same same

theorem auditPhase_preserved {ph : Phase} {m : Nat} {o : Action} (unaudited : o.unaudited) :
    (auditView b).Preserves (auditPhase b ph m) o := by
  refine fun s held => ⟨trivial, ?_⟩
  rintro r _ ⟨l, step, rfl⟩
  exact auditPhase_same held (Audit.observe_same unaudited.1 unaudited.2 step)

theorem audit_passes : Sampling.Passes (auditView b) (auditPhase b) := by
  intro m o hand
  refine auditPhase_preserved ⟨Action.neutral_of_handsOver hand, ?_⟩
  rintro rfl
  cases hand

theorem audit_sampling {args : ThreadArgs} {timed : Bool} {N : Nat} :
    Sampling b args timed N (auditView b) Audit.Fresh (auditPhase b) where
  stable _ moved := moved.elim
  quiet quiet := auditPhase_preserved (Action.unaudited_of_quiet quiet)
  start {s size} _ fresh := by
    refine wp_audit_act fun _ l₁ first => wp_audit_act fun _ l₂ second => wp_audit_done ⟨size, ?_⟩
    have first : l₁ = s.mem.alloc .storeStart size := first
    have second : l₂ = l₁.alloc .storeEnd size := second
    have extent : l₂.extent .storeStart = some size ∧ l₂.extent .storeEnd = some size := by
      simp [first, second, Local.extent, Local.alloc]
    have counts : l₂.prof.counts = 0 := by rw [second, first]; exact fresh.counts
    refine ⟨extent.1, extent.2, counts, fresh.windows, ?_, ?_⟩
    · simp [Audit.Genuine, Audit.observe, fresh.recorded, fresh.failed]
    · simp [Audit.observe, fresh.recorded, auditCells]
  head _ := auditPhase_preserved ⟨rfl, by simp⟩
  takeTime {m s} _ _ held := by
    have all : takeTime.All Action.unaudited := ⟨⟨rfl, by simp⟩, fun _ => ⟨⟨rfl, by simp⟩, fun _ => trivial⟩⟩
    exact Program.wp_mono (wp_same all) fun _ t same => held.imp fun n audited => audited.same same
  untimed _ _ held := held
  window {m s measured} _ quiet held := by
    obtain ⟨n, audited⟩ := held
    exact Program.wp_mono (wp_audit_window quiet audited) fun _ t after => ⟨n, after⟩
  incCounts {m s} _ held := by
    obtain ⟨n, audited⟩ := held
    refine wp_audit_act fun _ l step => wp_audit_done ⟨n, ?_⟩
    obtain rfl : l = s.mem.incCounts := step
    exact ⟨audited.start, audited.stop, congrArg (· + 1) audited.counts, audited.windows,
      ⟨audited.tally.genuine, audited.tally.cells⟩⟩

theorem wp_audit_body {bm : Benchmark} {args : ThreadArgs} {s : Audit} (fresh : s.Fresh) :
    (bm.body b args).wp (auditView b) (fun _ => auditPhase b .idle (bm.samples args.iterations)) s :=
  audit_sampling.wp_body audit_passes rfl (Nat.le_refl _) fresh

/-! ### Runs whose reads return the same -/

def Audit.empty : Audit := ⟨⟨⟨fun _ => 0, 0, []⟩, fun _ => none⟩, fun _ _ => none, 0, 0, false, []⟩

theorem Audit.empty_fresh : Audit.empty.Fresh := ⟨rfl, rfl, rfl, rfl⟩

def Action.reads : Action → Bool
  | .readInto .. => true
  | _ => false

def Action.Returns (w : Option Word) : (o : Action) → o.Res → Prop
  | .readInto .., r => r = w
  | _, _ => True

/-- A program can run to its end with all its reads returning the same. -/
theorem run_returning (w : Option Word) (p : Prog Unit) (s : Audit) :
    ∃ tr t, (auditView b).Run p s tr (.done ()) t ∧ ∀ e ∈ tr, e.1.Returns w e.2 := by
  let V : View Action Action.Res :=
    { auditView b with next := fun s o r t => (auditView b).next s o r t ∧ o.Returns w r }
  have progress (s : Audit) (o : Action) : ∃ r t, V.next s o r t := by
    by_cases reads : o.reads = true
    · cases o
      case readInto cpu reg buf i =>
        cases w with
        | none => exact ⟨none, _, ⟨s.mem, rfl, rfl⟩, rfl⟩
        | some v => exact ⟨some v, _, ⟨s.mem.write buf i v, rfl, rfl⟩, rfl⟩
      all_goals cases reads
    · obtain ⟨r, l, step⟩ := s.mem.step_total b o
      refine ⟨r, s.observe b o r l, ⟨l, step, rfl⟩, ?_⟩
      cases o
      case readInto => exact (reads rfl).elim
      all_goals trivial
  obtain ⟨tr, a, t, run⟩ := V.run_exists p s progress
  refine ⟨tr, t, run.outcomes fun _ _ _ _ step => step.1, ?_⟩
  apply run.invariant (I := fun tr _ => ∀ e ∈ tr, e.1.Returns w e.2) (by simp) (fun _ _ _ _ moved => moved.elim)
  intro tr _ o r _ all step
  exact List.forall_mem_append.mpr ⟨all, List.forall_mem_singleton.mpr step.2⟩

end PmcBench
