import PmcBench.Bookkeeping
import PmcBench.Measuring
import PmcBench.TableExtent

/-!
# The meter of a row

A meter follows a run for one thread and one row of the table: it opens when the thread
reads the row's counter into `store_start`, counts the matching events on the thread's CPU,
and closes when the thread reads the counter into `store_end`. `meter_sampling` shows that
the deltas a benchmark records are the counts of its closed meters.
-/

namespace PmcBench
open Threads
open Program (forEach)

variable {b : Build} {hw : Pmu}

/-- The row counts the event. -/
def CounterTableT.hits (hw : Pmu) (row : CounterTableT) (t : hw.Tick) : Bool :=
  hw.hits t (BitVec.ofNat 8 row.evtnr) (BitVec.ofNat 8 row.umask)

structure Meter where
  /-- Between the two readings: what the first one returned, and the matching events since. -/
  opened : Option (Word × Nat)
  /-- The matching events between the two readings of each sample. -/
  closed : List Nat

namespace Meter

def idle : Meter := ⟨none, []⟩

def tick (m : Meter) : Meter := { m with opened := m.opened.map fun s => (s.1, s.2 + 1) }

def read (m : Meter) (r : Option Word) : Buf → Meter
  | .storeStart => { m with opened := some (r.getD 0, 0) }
  | .storeEnd => ⟨none, m.closed ++ [m.opened.elim 0 Prod.snd]⟩
  | .a => m

/-- The meter of row `c` after an action of its thread. -/
def own (b : Build) (c : Nat) (m : Meter) : (o : Action) → o.Res → Meter
  | .readInto _ reg store k, r => if reg = (b.counterTbl.row c).pmc ∧ k = c then m.read r store else m
  | _, _ => m

def event (b : Build) (x : Cpu) (i c : Nat) (m : Meter) : Ev hw → Meter
  | .env (.tick cpu t) => if cpu = x ∧ (b.counterTbl.row c).hits hw t = true then m.tick else m
  | .act (.worker j) o r => if j = i then m.own b c o r else m
  | _ => m

end Meter

/-- The meter of row `c` for thread `i` on CPU `x`. -/
def meter (b : Build) (x : Cpu) (i c : Nat) (tr : List (Ev hw)) : Meter := tr.foldl (Meter.event b x i c) .idle

/-- For each sample of thread `i`, how many events that match row `c` have happened on CPU
`x` between the two readings of the row's counter. -/
def between (b : Build) (x : Cpu) (i c : Nat) (tr : List (Ev hw)) : List Nat := (meter b x i c tr).closed

theorem meter_snoc (b : Build) (x : Cpu) (i c : Nat) (tr : List (Ev hw)) (e : Ev hw) :
    meter b x i c (tr ++ [e]) = (meter b x i c tr).event b x i c e := by
  simp [meter]

theorem Meter.event_tick (b : Build) (x : Cpu) (i c : Nat) (m : Meter) (cpu : Cpu) (t : hw.Tick) :
    m.event b x i c (.env (.tick cpu t) : Ev hw) =
      if cpu = x ∧ (b.counterTbl.row c).hits hw t = true then m.tick else m := rfl

theorem Meter.own_read (b : Build) (c : Nat) (m : Meter) (cpu : Cpu) (reg : Nat) (store : Buf) (k : Nat)
    (r : Option Word) : m.own b c (.readInto cpu reg store k) r =
      if reg = (b.counterTbl.row c).pmc ∧ k = c then m.read r store else m := rfl

theorem Meter.opened_tick {m : Meter} (shut : m.opened = none) : m.tick = m := by
  obtain ⟨opened, closed⟩ := m
  obtain rfl : opened = none := shut
  rfl

/-! ### A benchmark's view of its meters -/

structure Gauge where
  mem : Local
  meter : Nat → Meter
  begun : Bool
  gone : Bool

namespace Gauge

def tick (b : Build) (s : Gauge) (t : hw.Tick) : Gauge :=
  { s with meter := fun c => if (b.counterTbl.row c).hits hw t = true then (s.meter c).tick else s.meter c }

/-- A reading returns the value of the one before, advanced by the matching events since. -/
def Reads (b : Build) (s : Gauge) : (o : Action) → o.Res → Prop
  | .readInto _ reg _ k, r => ∃ w, r = some w ∧ (k < 8 → reg = (b.counterTbl.row k).pmc →
      ∀ v n, (s.meter k).opened = some (v, n) → w = v + BitVec.ofNat 64 n ∧ n < 2 ^ 64)
  | _, _ => True

structure Step (b : Build) (cpus : List Cpu) (iterations : Nat → Nat) (i : Nat) (s : Gauge) (o : Action) (r : o.Res)
    (t : Gauge) : Prop where
  given : World.Given cpus iterations i o r
  reads : s.Reads b o r
  mem : s.mem.step b o r t.mem
  meter : ∀ c, t.meter c = (s.meter c).own b c o r
  begun : t.begun = (s.begun || decide (o = .threadStart))
  gone : t.gone = (s.gone || decide (o = .threadExit))

end Gauge

/-- A thread reads counters after it has begun, on its own CPU, and does nothing after its end. -/
abbrev gaugeView (b : Build) (hw : Pmu) (cpus : List Cpu) (iterations : Nat → Nat) (i : Nat) :
    View Action Action.Res where
  St := Gauge
  rely s t := ∃ e : hw.Tick, t = s.tick b e
  allow s o := s.gone = false ∧
    ∀ cpu reg store k, o = .readInto cpu reg store k → s.begun = true ∧ cpu = cpus.getD i 0
  next := Gauge.Step b cpus iterations i

/-! ### What an action leaves alone -/

namespace Action

/-- Actions that change neither the stores nor the values nor the count. -/
def neutral : Action → Bool
  | .threadStart | .threadExit | .readInto .. | .setValue .. | .incCounts => false
  | .malloc buf _ | .store buf .. => decide (buf = .a)
  | _ => true

theorem neutral_of_quiet {o : Action} (quiet : o.quiet = true) : o.neutral = true := by
  cases o with
  | malloc buf | store buf => cases buf <;> first | rfl | cases quiet
  | _ => first | rfl | cases quiet

theorem neutral_of_handsOver {o : Action} (hand : o.handsOver = true) : o.neutral = true := by
  cases o with
  | waitCanRun | setCanRun => rfl
  | _ => cases hand

end Action

namespace Local

/-- Stores, values and count are the same. -/
structure Kept (l l' : Local) : Prop where
  start : l'.mem .storeStart = l.mem .storeStart
  stop : l'.mem .storeEnd = l.mem .storeEnd
  values : l'.prof.values = l.prof.values
  counts : l'.prof.counts = l.prof.counts

theorem kept_of_eq {l l' : Local} (same : l' = l) : l.Kept l' := by
  subst same
  exact ⟨rfl, rfl, rfl, rfl⟩

theorem step_kept {l l' : Local} {o : Action} {r : o.Res} (neutral : o.neutral = true) (step : l.step b o r l') :
    l.Kept l' := by
  cases o
  case readInto | setValue | incCounts | threadStart | threadExit => exact Bool.noConfusion neutral
  case malloc buf n =>
    obtain rfl : buf = .a := of_decide_eq_true neutral
    obtain rfl : l' = l.alloc .a n := step
    exact ⟨rfl, rfl, rfl, rfl⟩
  case store buf i v =>
    obtain rfl : buf = .a := of_decide_eq_true neutral
    obtain rfl : l' = l.write .a i v := step
    unfold write
    split
    · split
      · exact ⟨rfl, rfl, rfl, rfl⟩
      · exact kept_of_eq rfl
    · exact kept_of_eq rfl
  case pushTime t =>
    obtain rfl : l' = l.pushTime t := step
    exact ⟨rfl, rfl, rfl, rfl⟩
  case load => exact kept_of_eq step.2
  case counts => exact kept_of_eq step.2
  all_goals exact kept_of_eq step

theorem Kept.cell {l l' : Local} (kept : l.Kept l') (j : Nat) :
    l'.cell .storeStart j = l.cell .storeStart j ∧ l'.cell .storeEnd j = l.cell .storeEnd j := by
  unfold Local.cell
  rw [kept.start, kept.stop]
  exact ⟨rfl, rfl⟩

theorem Kept.stores {l l' : Local} (kept : l.Kept l') {n : Nat} (held : l.Stores n) : l'.Stores n := by
  unfold Stores extent
  rw [kept.start, kept.stop]
  exact held

end Local

/-! ### The rows during a sample -/

/-- A benchmark that has counted `m` samples. -/
structure Held (m : Nat) (s : Gauge) : Prop where
  begun : s.begun = true
  gone : s.gone = false
  stores : s.mem.Stores 8
  counts : s.mem.prof.counts = m

/-- The first `n` deltas that are recorded for row `c`. -/
def recorded (b : Build) (s : Gauge) (c n : Nat) : List Nat :=
  (List.range n).map fun j => (s.mem.prof.values (c * b.maxPts + j)).toNat

/-- The meter of row `c` is closed, and its `n` counts are recorded. -/
def Booked (b : Build) (n : Nat) (s : Gauge) (c : Nat) : Prop := s.meter c = ⟨none, recorded b s c n⟩

/-- The counter of row `c` has been read into `store_start`. -/
def Opened (b : Build) (n : Nat) (s : Gauge) (c : Nat) : Prop :=
  ∃ v k, s.mem.cell .storeStart c = some v ∧ s.meter c = ⟨some (v, k), recorded b s c n⟩

/-- The counter of row `c` has been read into both stores, `k` matching events apart. -/
structure ReadTwice (b : Build) (n : Nat) (v : Word) (k : Nat) (s : Gauge) (c : Nat) : Prop where
  start : s.mem.cell .storeStart c = some v
  stop : s.mem.cell .storeEnd c = some (v + BitVec.ofNat 64 k)
  small : k < 2 ^ 64
  meter : s.meter c = ⟨none, recorded b s c n ++ [k]⟩

def Measured (b : Build) (n : Nat) (s : Gauge) (c : Nat) : Prop := ∃ v k, ReadTwice b n v k s c

/-- Row `c` with its first `n` deltas is the same. -/
structure RowKept (b : Build) (n c : Nat) (s t : Gauge) : Prop where
  meter : t.meter c = s.meter c
  start : t.mem.cell .storeStart c = s.mem.cell .storeStart c
  stop : t.mem.cell .storeEnd c = s.mem.cell .storeEnd c
  values : ∀ j < n, t.mem.prof.values (c * b.maxPts + j) = s.mem.prof.values (c * b.maxPts + j)

section
variable {n c : Nat} {s t : Gauge}

theorem RowKept.recorded (kept : RowKept b n c s t) : recorded b t c n = recorded b s c n := by
  unfold PmcBench.recorded
  apply List.map_congr_left
  intro j member
  rw [kept.values j (List.mem_range.mp member)]

theorem Booked.keep (h : Booked b n s c) (kept : RowKept b n c s t) : Booked b n t c := by
  unfold Booked
  rw [kept.meter, kept.recorded]
  exact h

theorem Opened.keep (h : Opened b n s c) (kept : RowKept b n c s t) : Opened b n t c := by
  unfold Opened
  rw [kept.meter, kept.recorded, kept.start]
  exact h

theorem ReadTwice.keep {v : Word} {k : Nat} (h : ReadTwice b n v k s c) (kept : RowKept b n c s t) :
    ReadTwice b n v k t c where
  start := kept.start.trans h.start
  stop := kept.stop.trans h.stop
  small := h.small
  meter := by rw [kept.meter, kept.recorded]; exact h.meter

theorem Measured.keep (h : Measured b n s c) (kept : RowKept b n c s t) : Measured b n t c := by
  obtain ⟨v, k, h⟩ := h
  exact ⟨v, k, h.keep kept⟩

theorem rowKept_tick {e : hw.Tick} (closed : (s.meter c).opened = none) : RowKept b n c s (s.tick b e) where
  meter := by
    unfold Gauge.tick
    dsimp only
    rw [Meter.opened_tick closed, ite_self]
  start := rfl
  stop := rfl
  values _ _ := rfl

theorem Booked.tick (h : Booked b n s c) (e : hw.Tick) : Booked b n (s.tick b e) c :=
  h.keep (rowKept_tick (by rw [h]))

theorem ReadTwice.tick {v : Word} {k : Nat} (h : ReadTwice b n v k s c) (e : hw.Tick) :
    ReadTwice b n v k (s.tick b e) c :=
  h.keep (rowKept_tick (by rw [h.meter]))

theorem Measured.tick (h : Measured b n s c) (e : hw.Tick) : Measured b n (s.tick b e) c := by
  obtain ⟨v, k, h⟩ := h
  exact ⟨v, k, h.tick e⟩

theorem Opened.tick (h : Opened b n s c) (e : hw.Tick) : Opened b n (s.tick b e) c := by
  obtain ⟨v, k, start, now⟩ := h
  unfold Opened Gauge.tick
  dsimp only
  split
  · exact ⟨v, k + 1, start, by rw [now]; rfl⟩
  · exact ⟨v, k, start, now⟩

theorem Held.tick {m : Nat} (h : Held m s) (e : hw.Tick) : Held m (s.tick b e) := ⟨h.begun, h.gone, h.stores, h.counts⟩

end

/-! ### All rows -/

/-- A statement about a row that survives events and what leaves the row's first `n` deltas alone. -/
structure Robust (b : Build) (hw : Pmu) (n : Nat) (P : Gauge → Nat → Prop) : Prop where
  keep : ∀ {s t c}, P s c → RowKept b n c s t → P t c
  tick : ∀ {s c} (e : hw.Tick), P s c → P (s.tick b e) c

theorem Robust.mono {n n' : Nat} {P : Gauge → Nat → Prop} (robust : Robust b hw n P) (le : n ≤ n') :
    Robust b hw n' P where
  keep h kept := robust.keep h ⟨kept.meter, kept.start, kept.stop, fun j lt => kept.values j (by omega)⟩
  tick := robust.tick

theorem robust_booked (n : Nat) : Robust b hw n (Booked b n) := ⟨Booked.keep, fun e h => h.tick e⟩

theorem robust_opened (n : Nat) : Robust b hw n (Opened b n) := ⟨Opened.keep, fun e h => h.tick e⟩

theorem robust_measured (n : Nat) : Robust b hw n (Measured b n) := ⟨Measured.keep, fun e h => h.tick e⟩

/-- In a loop over the rows: those before `k` are done. -/
def Half (P Q : Gauge → Nat → Prop) (k : Nat) (s : Gauge) (c : Nat) : Prop := if c < k then Q s c else P s c

theorem Robust.half {n k : Nat} {P Q : Gauge → Nat → Prop} (first : Robust b hw n P) (second : Robust b hw n Q) :
    Robust b hw n (Half P Q k) where
  keep {s t c} h kept := by
    unfold Half at h ⊢
    split
    · rename_i before
      rw [if_pos before] at h
      exact second.keep h kept
    · rename_i after
      rw [if_neg after] at h
      exact first.keep h kept
  tick {s c} e h := by
    unfold Half at h ⊢
    split
    · rename_i before
      rw [if_pos before] at h
      exact second.tick e h
    · rename_i after
      rw [if_neg after] at h
      exact first.tick e h

/-- The benchmark has counted `m` samples, and the custom rows are as `P` says. -/
def Rows (m : Nat) (P : Gauge → Nat → Prop) (s : Gauge) : Prop := Held m s ∧ ∀ c < 8, P s c

section
variable {cpus : List Cpu} {iterations : Nat → Nat} {i m n k : Nat} {P Q : Gauge → Nat → Prop} {s t : Gauge}

theorem Rows.stable (robust : Robust b hw n P) (s t : Gauge) (h : Rows m P s)
    (moved : (gaugeView b hw cpus iterations i).rely s t) : Rows m P t := by
  obtain ⟨e, rfl⟩ := moved
  exact ⟨h.1.tick e, fun c bound => robust.tick e (h.2 c bound)⟩

theorem Rows.advance (first : Robust b hw n P) (second : Robust b hw n Q) (h : Rows m (Half P Q k) s) (held : Held m t)
    (others : ∀ c, c ≠ k → RowKept b n c s t) (here : k < 8 → P s k → Q t k) : Rows m (Half P Q (k + 1)) t := by
  refine ⟨held, fun c bound => ?_⟩
  have before := h.2 c bound
  unfold Half at before ⊢
  by_cases same : c = k
  · subst same
    rw [if_neg (Nat.lt_irrefl c)] at before
    rw [if_pos (Nat.lt_succ_self c)]
    exact here bound before
  · by_cases done : c < k
    · rw [if_pos done] at before
      rw [if_pos (by omega)]
      exact second.keep before (others c same)
    · rw [if_neg done] at before
      rw [if_neg (by omega)]
      exact first.keep before (others c same)

theorem wp_rows (first : Robust b hw n P) (second : Robust b hw n Q) (size : 8 ≤ b.counterTbl.size)
    {body : Nat → Prog Unit} (step : ∀ k s, k < b.counterTbl.size → Rows m (Half P Q k) s →
      (body k).wp (gaugeView b hw cpus iterations i) (fun _ => Rows m (Half P Q (k + 1))) s) (h : Rows m P s) :
    (forEach b.counterTbl.rows body).wp (gaugeView b hw cpus iterations i) (fun _ => Rows m Q) s := by
  rw [CounterTbl.rows_eq]
  refine Program.wp_forEach_range (I := fun k s => Rows m (Half P Q k) s) ?_
    (fun k s t h moved => h.stable (first.half second) s t moved) (fun k s bound h => step k s bound h) fun s h => ?_
  · exact ⟨h.1, fun c bound => by unfold Half; exact h.2 c bound⟩
  · refine ⟨h.1, fun c bound => ?_⟩
    have done := h.2 c bound
    unfold Half at done
    rwa [if_pos (by omega)] at done

/-! ### The actions of a window -/

theorem own_other {c : Nat} {meter : Meter} {o : Action} {r : o.Res}
    (other : ∀ cpu reg store k, o ≠ .readInto cpu reg store k) : meter.own b c o r = meter := by
  cases o with
  | readInto cpu reg store k => exact (other cpu reg store k rfl).elim
  | _ => rfl

theorem Gauge.Step.neutral {o : Action} {r : o.Res} (step : Gauge.Step b cpus iterations i s o r t)
    (neutral : o.neutral = true) (held : Held m s) : Held m t ∧ ∀ n c, RowKept b n c s t := by
  have kept := Local.step_kept neutral step.mem
  have start : o ≠ .threadStart := by rintro rfl; cases neutral
  have exit : o ≠ .threadExit := by rintro rfl; cases neutral
  have other : ∀ cpu reg store k, o ≠ .readInto cpu reg store k := by rintro _ _ _ _ rfl; cases neutral
  refine ⟨⟨?_, ?_, kept.stores held.stores, kept.counts.trans held.counts⟩, fun n c => ?_⟩
  · rw [step.begun, held.begun, Bool.true_or]
  · rw [step.gone, held.gone, decide_eq_false exit, Bool.or_false]
  · exact ⟨(step.meter c).trans (own_other other), (kept.cell c).1, (kept.cell c).2, fun j _ => by rw [kept.values]⟩

theorem preserves_neutral (robust : Robust b hw n P) {o : Action} (neutral : o.neutral = true) :
    (gaugeView b hw cpus iterations i).Preserves (Rows m P) o := by
  intro s h
  refine ⟨⟨h.1.gone, ?_⟩, fun r t step => ?_⟩
  · rintro _ _ _ _ rfl
    cases neutral
  · obtain ⟨held, kept⟩ := step.neutral neutral h.1
    exact ⟨held, fun c bound => robust.keep (h.2 c bound) (kept n c)⟩

theorem wp_neutral {α : Type} {p : Prog α} (robust : Robust b hw n P) (all : p.All fun o => o.neutral = true)
    (h : Rows m P s) : p.wp (gaugeView b hw cpus iterations i) (fun _ => Rows m P) s :=
  Program.wp_of_preserves (Rows.stable robust) (all.mono fun _ => preserves_neutral robust) h

theorem Gauge.Step.read {cpu : Cpu} {reg : Nat} {store : Buf} {r : Option Word}
    (step : Gauge.Step b cpus iterations i s (.readInto cpu reg store k) r t) (held : Held m s) :
    Held m t ∧ (∀ n c, c ≠ k → RowKept b n c s t) ∧ ∃ w, r = some w ∧ t.mem = s.mem.write store k w ∧
      t.mem.prof = s.mem.prof := by
  obtain ⟨w, rfl, -⟩ := step.reads
  have mem : t.mem = s.mem.write store k w := step.mem
  have prof : t.mem.prof = s.mem.prof := by rw [mem, Local.write_prof]
  refine ⟨⟨?_, ?_, ?_, by rw [prof, held.counts]⟩, fun n c other => ⟨?_, ?_, ?_, fun j _ => by rw [prof]⟩, w, rfl, mem, prof⟩
  · rw [step.begun, held.begun, Bool.true_or]
  · rw [step.gone, held.gone, decide_eq_false nofun, Bool.or_false]
  · have stores := held.stores
    unfold Local.Stores at stores ⊢
    rw [mem, Local.write_extent]
    exact stores
  · rw [step.meter, Meter.own_read, if_neg fun same => other same.2.symm]
  · rw [mem, Local.write_cell_other (Or.inr other)]
  · rw [mem, Local.write_cell_other (Or.inr other)]

theorem recorded_congr {c : Nat} (prof : t.mem.prof = s.mem.prof) : recorded b t c n = recorded b s c n := by
  unfold recorded
  rw [prof]

/-- A reading of all rows, from what the reading of one row makes of it. -/
theorem wp_readRows {store : Buf} (first : Robust b hw n P) (second : Robust b hw n Q) (size : 8 ≤ b.counterTbl.size)
    (row : ∀ k s t w, k < 8 → Held m s → P s k → Gauge.Step b cpus iterations i s
      (.readInto (cpus.getD i 0) (b.counterTbl.row k).pmc store k) (some w) t → t.mem = s.mem.write store k w → Q t k)
    (h : Rows m P s) :
    (readValues b (cpus.getD i 0) store).wp (gaugeView b hw cpus iterations i) (fun _ => Rows m Q) s := by
  refine wp_rows first second size (fun k s _ h => ?_) h
  apply Program.wp_act (Rows.stable (first.half second)) h
  intro s h
  refine ⟨⟨h.1.gone, ?_⟩, fun r t step => ?_⟩
  · rintro _ _ _ _ same
    cases same
    exact ⟨h.1.begun, rfl⟩
  · obtain ⟨held, others, w, rfl, mem, -⟩ := step.read h.1
    refine Program.wp_done (Rows.stable (first.half second)) ?_
    exact h.advance first second held (others n) fun bound before => row k s t w bound h.1 before step mem

/-- `read_values(args.cpu_msr, store_start)` opens every meter. -/
theorem wp_readStart (size : 8 ≤ b.counterTbl.size) (h : Rows m (Booked b n) s) :
    (readValues b (cpus.getD i 0) .storeStart).wp (gaugeView b hw cpus iterations i)
      (fun _ => Rows m (Opened b n)) s := by
  apply wp_readRows (robust_booked n) (robust_opened n) size _ h
  intro k s t w bound held closed step mem
  have prof : t.mem.prof = s.mem.prof := by rw [mem, Local.write_prof]
  refine ⟨w, 0, ?_, ?_⟩
  · rw [mem]
    exact Local.write_cell_same (held.stores.inBounds bound).1 w
  · rw [step.meter, Meter.own_read, if_pos ⟨rfl, rfl⟩, closed, recorded_congr prof]
    rfl

/-- `read_values(args.cpu_msr, store_end)` closes every meter. -/
theorem wp_readEnd (size : 8 ≤ b.counterTbl.size) (h : Rows m (Opened b n) s) :
    (readValues b (cpus.getD i 0) .storeEnd).wp (gaugeView b hw cpus iterations i)
      (fun _ => Rows m (Measured b n)) s := by
  apply wp_readRows (robust_opened n) (robust_measured n) size _ h
  intro k s t w bound held opened step mem
  have prof : t.mem.prof = s.mem.prof := by rw [mem, Local.write_prof]
  obtain ⟨v, count, start, open_⟩ := opened
  obtain ⟨w', same, value⟩ := step.reads
  obtain rfl := Option.some.inj same
  obtain ⟨rfl, small⟩ := value bound rfl v count (by rw [open_])
  refine ⟨v, count, ?_, ?_, small, ?_⟩
  · have other : Buf.storeStart ≠ Buf.storeEnd := by decide
    rw [mem, Local.write_cell_other (Or.inl other)]
    exact start
  · rw [mem]
    exact Local.write_cell_same (held.stores.inBounds bound).2 _
  · rw [step.meter, Meter.own_read, if_pos ⟨rfl, rfl⟩, open_, recorded_congr prof]
    rfl

/-! ### Recording the deltas -/

theorem recorded_succ {c : Nat} : recorded b s c (n + 1) =
    recorded b s c n ++ [(s.mem.prof.values (c * b.maxPts + n)).toNat] := by
  simp [recorded, List.range_succ]

/-- The delta of two readings is the number of matching events. -/
theorem delta_toNat (v : Word) {count : Nat} (small : count < 2 ^ 64) :
    (v + BitVec.ofNat 64 count - v).toNat = count := by
  rw [BitVec.add_comm, BitVec.add_sub_cancel, BitVec.toNat_ofNat, Nat.mod_eq_of_lt small]

theorem wp_recordRow (fits : m < b.maxPts) (small : k < 256)
    (h : Rows m (Half (Measured b m) (Booked b (m + 1)) k) s) : (do
      let j ← perform .counts
      let stop ← perform (.load .storeEnd k)
      let start ← perform (.load .storeStart k)
      perform (.setValue (k % 256) j (stop - start)) : Prog Unit).wp (gaugeView b hw cpus iterations i)
        (fun _ => Rows m (Half (Measured b m) (Booked b (m + 1)) (k + 1))) s := by
  have first : Robust b hw (m + 1) (Measured b m) := (robust_measured m).mono (Nat.le_succ m)
  have second : Robust b hw (m + 1) (Booked b (m + 1)) := robust_booked (m + 1)
  -- The two readings of row `k`, which the loads below find in the stores.
  have readings : ∃ v count, k < 8 → ReadTwice b m v count s k := by
    by_cases bound : k < 8
    · have here := h.2 k bound
      unfold Half at here
      rw [if_neg (Nat.lt_irrefl k)] at here
      obtain ⟨v, count, twice⟩ := here
      exact ⟨v, count, fun _ => twice⟩
    · exact ⟨0, 0, fun below => (bound below).elim⟩
  obtain ⟨v, count, twice⟩ := readings
  have stable (s t : Gauge) (h : Rows m (Half (Measured b m) (Booked b (m + 1)) k) s ∧ (k < 8 → ReadTwice b m v count s k))
      (moved : (gaugeView b hw cpus iterations i).rely s t) :
      Rows m (Half (Measured b m) (Booked b (m + 1)) k) t ∧ (k < 8 → ReadTwice b m v count t k) := by
    refine ⟨h.1.stable (first.half second) s t moved, fun bound => ?_⟩
    obtain ⟨e, rfl⟩ := moved
    exact (h.2 bound).tick e
  have after {s t : Gauge} {o : Action} {r : o.Res} (neutral : o.neutral = true)
      (h : Rows m (Half (Measured b m) (Booked b (m + 1)) k) s ∧ (k < 8 → ReadTwice b m v count s k))
      (step : Gauge.Step b cpus iterations i s o r t) :
      Rows m (Half (Measured b m) (Booked b (m + 1)) k) t ∧ (k < 8 → ReadTwice b m v count t k) := by
    obtain ⟨held, kept⟩ := step.neutral neutral h.1.1
    refine ⟨⟨held, fun c bound => (first.half second).keep (h.1.2 c bound) (kept _ c)⟩, fun bound => ?_⟩
    exact (h.2 bound).keep (kept m k)
  refine Program.wp_act stable ⟨h, twice⟩ fun s h => ⟨⟨h.1.1.gone, nofun⟩, fun j t step => ?_⟩
  obtain rfl : j = m := step.mem.1.trans h.1.1.counts
  replace h := after rfl h step
  refine Program.wp_act stable h fun s h => ⟨⟨h.1.1.gone, nofun⟩, fun stop t step => ?_⟩
  have stopped (bound : k < 8) : stop = v + BitVec.ofNat 64 count := step.mem.1 _ (h.2 bound).stop
  replace h := after rfl h step
  refine Program.wp_act stable h fun s h => ⟨⟨h.1.1.gone, nofun⟩, fun start t step => ?_⟩
  have started (bound : k < 8) : start = v := step.mem.1 _ (h.2 bound).start
  replace h := after rfl h step
  refine Program.wp_act stable h fun s h => ⟨⟨h.1.1.gone, nofun⟩, fun _ t step => ?_⟩
  have mem : t.mem = s.mem.setValue b.maxPts (k % 256) j (stop - start) := step.mem
  rw [Nat.mod_eq_of_lt small] at mem
  have value (c l : Nat) : t.mem.prof.values (c * b.maxPts + l) =
      if c * b.maxPts + l = k * b.maxPts + j then stop - start else s.mem.prof.values (c * b.maxPts + l) := by
    rw [mem]
    simp only [Local.setValue, Function.update_apply]
  have meter (c : Nat) : t.meter c = s.meter c := (step.meter c).trans (own_other nofun)
  have cell (buf : Buf) (c : Nat) : t.mem.cell buf c = s.mem.cell buf c := by rw [mem]; rfl
  refine Program.wp_done (Rows.stable (first.half second)) ?_
  refine h.1.advance first second ⟨?_, ?_, ?_, ?_⟩ ?_ fun bound _ => ?_
  · rw [step.begun, h.1.1.begun, Bool.true_or]
  · rw [step.gone, h.1.1.gone, decide_eq_false nofun, Bool.or_false]
  · rw [mem]; exact h.1.1.stores
  · rw [mem]; exact h.1.1.counts
  · intro c other
    refine ⟨meter c, cell _ c, cell _ c, fun l lt => ?_⟩
    rw [value, if_neg fun same => other ((element_inj (by omega) fits).mp same).1]
  · have same : recorded b t k j = recorded b s k j := by
      unfold recorded
      apply List.map_congr_left
      intro l member
      have lt := List.mem_range.mp member
      rw [value, if_neg fun same => absurd ((element_inj (by omega) fits).mp same).2 (by omega)]
    unfold Booked
    rw [recorded_succ, meter, (h.2 bound).meter, same, value, if_pos rfl, stopped bound, started bound,
      delta_toNat v (h.2 bound).small]

theorem wp_window {args : ThreadArgs} {measured : Prog Unit} (size : 8 ≤ b.counterTbl.size)
    (small : b.counterTbl.size ≤ 256) (own : args.cpuMsr = cpus.getD i 0) (fits : m < b.maxPts)
    (quiet : QuietProg measured) (h : Rows m (Booked b m) s) :
    (window b args measured).wp (gaugeView b hw cpus iterations i) (fun _ => Rows m (Booked b (m + 1))) s := by
  unfold window
  rw [own]
  apply Program.wp_seq (wp_neutral (robust_booked m) ((Program.all_call _).mpr rfl) h)
  intro _ s h
  apply Program.wp_seq (wp_readStart size h)
  intro _ s h
  apply Program.wp_seq (wp_neutral (robust_opened m) (quiet.mono fun _ => Action.neutral_of_quiet) h)
  intro _ s h
  apply Program.wp_seq (wp_readEnd size h)
  intro _ s h
  have first : Robust b hw (m + 1) (Measured b m) := (robust_measured m).mono (Nat.le_succ m)
  exact wp_rows first (robust_booked (m + 1)) size (fun k s bound h => wp_recordRow fits (by omega) h) h

/-! ### The benchmarks -/

/-- The meters in each phase of sample `m`. -/
def meterPhase (b : Build) : Phase → Nat → Gauge → Prop
  | .recorded, m => Rows m (Booked b (m + 1))
  | _, m => Rows m (Booked b m)

/-- A thread that has begun, and has taken no sample. -/
structure Gauge.Fresh (s : Gauge) : Prop where
  begun : s.begun = true
  gone : s.gone = false
  counts : s.mem.prof.counts = 0
  meter : ∀ c, s.meter c = .idle

theorem meter_sampling {args : ThreadArgs} {timed : Bool} {N : Nat} (eight : b.nCustomCtr = 8)
    (size : 8 ≤ b.counterTbl.size) (small : b.counterTbl.size ≤ 256) (own : args.cpuMsr = cpus.getD i 0)
    (fits : N ≤ b.maxPts) :
    Sampling b args timed N (gaugeView b hw cpus iterations i) Gauge.Fresh (meterPhase b) where
  stable {ph m s t} h moved := by
    cases ph with
    | recorded => exact Rows.stable (robust_booked (m + 1)) s t h moved
    | _ => exact Rows.stable (robust_booked m) s t h moved
  quiet {ph m o} quiet := by
    cases ph <;> exact preserves_neutral (robust_booked _) (Action.neutral_of_quiet quiet)
  start {s n} enough fresh := by
    have stable (s t : Gauge) (h : s.Fresh) (moved : (gaugeView b hw cpus iterations i).rely s t) : t.Fresh := by
      obtain ⟨e, rfl⟩ := moved
      refine ⟨h.begun, h.gone, h.counts, fun c => ?_⟩
      unfold Gauge.tick
      dsimp only
      rw [h.meter c]
      split <;> rfl
    have after {s t : Gauge} {buf : Buf} {r : Unit} (h : s.Fresh)
        (step : Gauge.Step b cpus iterations i s (.malloc buf n) r t) : t.Fresh := by
      have mem : t.mem = s.mem.alloc buf n := step.mem
      refine ⟨?_, ?_, by rw [mem]; exact h.counts, fun c => (step.meter c).trans (h.meter c)⟩
      · rw [step.begun, h.begun, Bool.true_or]
      · rw [step.gone, h.gone, decide_eq_false (by simp), Bool.or_false]
    refine Program.wp_act stable fresh fun s fresh => ⟨⟨fresh.gone, by simp⟩, fun _ t step => ?_⟩
    have first : t.mem = s.mem.alloc .storeStart n := step.mem
    refine Program.wp_act (I := fun s : Gauge => s.Fresh ∧ s.mem.extent .storeStart = some n)
      (fun s t h moved => ⟨stable s t h.1 moved, by obtain ⟨e, rfl⟩ := moved; exact h.2⟩)
      ⟨after fresh step, by rw [first]; simp [Local.extent, Local.alloc]⟩ ?_
    rintro s ⟨fresh, extent⟩
    refine ⟨⟨fresh.gone, by simp⟩, fun _ t step => ?_⟩
    have second : t.mem = s.mem.alloc .storeEnd n := step.mem
    have fresh := after fresh step
    refine Program.wp_done (Rows.stable (robust_booked 0)) ⟨⟨fresh.begun, fresh.gone, ⟨⟨n, ?_, by omega⟩, n, ?_, by omega⟩,
      fresh.counts⟩, fun c _ => fresh.meter c⟩
    · rw [← extent, second]
      simp [Local.extent, Local.alloc]
    · rw [second]
      simp [Local.extent, Local.alloc]
  head _ := preserves_neutral (robust_booked _) rfl
  takeTime _ _ h := wp_neutral (robust_booked _) ⟨rfl, fun _ => ⟨rfl, fun _ => trivial⟩⟩ h
  untimed _ _ h := h
  window bound quiet h := wp_window size small own (by omega) quiet h
  incCounts {m s} _ h := by
    refine Program.wp_act (Rows.stable (robust_booked (m + 1))) h fun s h => ⟨⟨h.1.gone, by simp⟩, fun _ t step => ?_⟩
    have mem : t.mem = s.mem.incCounts := step.mem
    refine Program.wp_done (Rows.stable (robust_booked (m + 1))) ⟨⟨?_, ?_, ?_, ?_⟩, fun c bound => ?_⟩
    · rw [step.begun, h.1.begun, Bool.true_or]
    · rw [step.gone, h.1.gone, decide_eq_false (by simp), Bool.or_false]
    · rw [mem]; exact h.1.stores
    · rw [mem]; exact congrArg (· + 1) h.1.counts
    · refine (h.2 c bound).keep ⟨(step.meter c).trans (own_other (by simp)), ?_, ?_, fun j _ => ?_⟩ <;> rw [mem] <;> rfl

theorem meter_passes : Sampling.Passes (gaugeView b hw cpus iterations i) (meterPhase b) :=
  fun _ _ hand => preserves_neutral (robust_booked _) (Action.neutral_of_handsOver hand)

/-- All samples of a thread are counted, and each row's deltas are what its meter shows. -/
def Gauge.Complete (b : Build) (N : Nat) (s : Gauge) : Prop :=
  s.mem.prof.counts = N ∧ ∀ c < 8, Booked b N s c

theorem wp_worker_metered {bm : Benchmark} (eight : b.nCustomCtr = 8) (size : 8 ≤ b.counterTbl.size)
    (small : b.counterTbl.size ≤ 256) (fits : i < cpus.length → bm.samples (iterations i) ≤ b.maxPts)
    (gone : s.gone = false) (counts : s.mem.prof.counts = 0) (meters : ∀ c, s.meter c = .idle) :
    (worker b bm).wp (gaugeView b hw cpus iterations i)
      (fun _ s => Gauge.Complete b (bm.samples (iterations i)) s) s := by
  have waits (s t : Gauge) (h : s.gone = false ∧ s.mem.prof.counts = 0 ∧ ∀ c, s.meter c = .idle)
      (moved : (gaugeView b hw cpus iterations i).rely s t) :
      t.gone = false ∧ t.mem.prof.counts = 0 ∧ ∀ c, t.meter c = .idle := by
    obtain ⟨e, rfl⟩ := moved
    refine ⟨h.1, h.2.1, fun c => ?_⟩
    unfold Gauge.tick
    dsimp only
    rw [h.2.2 c]
    split <;> rfl
  unfold worker
  rw [Program.call_bind]
  refine Program.wp_act waits ⟨gone, counts, meters⟩ fun s ⟨gone, counts, meters⟩ => ⟨⟨gone, nofun⟩, fun args t step => ?_⟩
  obtain ⟨bound, rfl⟩ := step.given
  have mem : t.mem = s.mem := step.mem
  have fresh : t.Fresh := by
    refine ⟨?_, ?_, by rw [mem, counts], fun c => ?_⟩
    · rw [step.begun]; exact Bool.or_true _
    · rw [step.gone, gone]; rfl
    · exact ((step.meter c).trans (own_other nofun)).trans (meters c)
  have S : Sampling b ⟨iterations i, i, cpus.getD i 0⟩ bm.timed (bm.samples (iterations i))
      (gaugeView b hw cpus iterations i) Gauge.Fresh (meterPhase b) := meter_sampling eight size small rfl (fits bound)
  apply Program.wp_seq (S.wp_body meter_passes rfl (Nat.le_refl _) fresh)
  intro _ s h
  have robust : Robust b hw (bm.samples (iterations i)) (Booked b (bm.samples (iterations i))) := robust_booked _
  refine Program.wp_act (Rows.stable robust) h fun s h => ⟨⟨h.1.gone, nofun⟩, fun _ t step => ?_⟩
  have mem : t.mem = s.mem := step.mem
  refine Program.wp_done (fun s t h moved => ?_) ⟨by rw [mem]; exact h.1.counts, fun c bound => ?_⟩
  · obtain ⟨e, rfl⟩ := moved
    exact ⟨h.1, fun c bound => (h.2 c bound).tick e⟩
  · refine (h.2 c bound).keep ⟨(step.meter c).trans (own_other nofun), ?_, ?_, fun j _ => ?_⟩ <;> rw [mem]

end

end PmcBench
