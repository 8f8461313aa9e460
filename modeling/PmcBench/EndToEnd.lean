import PmcBench.Metering
import PmcBench.Schedules

/-!
# What a cell of the log means

Programming, readings, deltas and log agree on the row of the table: the cell of a sample
under the name of a row is the number of events that match the row and that have happened
on the thread's CPU between the two readings of the row's counter.
-/

namespace PmcBench
open Threads

variable {b : Build} {hw : Pmu} {cpus : List Cpu} {func : Nat → Benchmark} {iterations : Nat → Nat}

/-! ### The value of a counter -/

theorem FullTable.enableMask_ne (full : FullTable b) : enableMask b ≠ 0 := by
  intro zero
  have on : (enableMask b).getLsbD (b.counterTbl.row 0).id = true :=
    (full.loopRows.getLsbD_enableMask _).mpr
      (Or.inl ⟨0, full.mem_pmcLoop.mpr (by decide), full.custom 0 (by decide), rfl⟩)
  rw [zero] at on
  simp at on

theorem FullTable.newlySelects_hits (full : FullTable b) {c : Nat} (bound : c < 8) (t : hw.Tick) :
    newlySelects b hw (b.counterTbl.row c).id t = (b.counterTbl.row c).hits hw t := by
  rw [full.loopRows.newlySelects_row (full.mem_pmcLoop.mpr bound) (full.custom c bound)]
  have fields := fields_evtReg (b.counterTbl.row c)
  have event : EventSelectRegister.eventSelect.get (evtReg (b.counterTbl.row c)) =
      BitVec.ofNat 8 (b.counterTbl.row c).evtnr := congrArg EventSelectRegister.Fields.eventSelect fields
  have umask : EventSelectRegister.umask.get (evtReg (b.counterTbl.row c)) =
      BitVec.ofNat 8 (b.counterTbl.row c).umask := congrArg EventSelectRegister.Fields.umask fields
  unfold Pmu.selects CounterTableT.hits
  rw [event, umask]

/-- The rows read the counter that is programmed for them. -/
def ReadsOwn (b : Build) : Prop := ∀ c < 8, (b.counterTbl.row c).pmc = ia32Pmc0 + (b.counterTbl.row c).id

/-- An armed counter that cannot have wrapped holds the number of matching events. -/
theorem Guarded.counter (full : FullTable b) (own : ReadsOwn b) {R : Regs}
    {ticks : List hw.Tick} (held : Guarded b R (some (enableMask b, ticks))) (fits : ticks.length < 2 ^ hw.width)
    {c : Nat} (bound : c < 8) :
    R (b.counterTbl.row c).pmc = BitVec.ofNat 64 (ticks.countP ((b.counterTbl.row c).hits hw)) := by
  obtain ⟨-, R₀, rfl⟩ := held.on _ ticks rfl full.enableMask_ne
  have selects : newlySelects b hw (b.counterTbl.row c).id = (b.counterTbl.row c).hits hw :=
    funext fun t => full.newlySelects_hits bound t
  have small : ticks.countP ((b.counterTbl.row c).hits hw) < 2 ^ hw.width :=
    Nat.lt_of_le_of_lt List.countP_le_length fits
  rw [own c bound, full.loopRows.run_programmed R₀ (full.id c bound), selects, Nat.mod_eq_of_lt small]

/-! ### The meters of a run -/

def begun (i : Nat) (tr : List (Ev hw)) : Bool :=
  tr.any fun
    | .act (.worker j) o _ => decide (j = i ∧ o = .threadStart)
    | _ => false

theorem begun_snoc (i : Nat) (tr : List (Ev hw)) (e : Ev hw) : begun i (tr ++ [e]) = (begun i tr || begun i [e]) :=
  List.any_append

/-- Until it ends, fewer events have happened on the CPU of a thread since its programming
than its counters can hold. -/
def Fits (b : Build) (hw : Pmu) (cpus : List Cpu) (tr : List (Ev hw)) : Prop :=
  ∀ i < cpus.length, exited i tr = false → ∀ ticks, since (cpus.getD i 0) tr = some (enableMask b, ticks) →
    ticks.length < 2 ^ hw.width

def gauge (b : Build) (cpus : List Cpu) (i : Nat) (tr : List (Ev hw)) (s : World) : Gauge :=
  ⟨(s.worker i).mem, fun c => meter b (cpus.getD i 0) i c tr, begun i tr, exited i tr⟩

/-- The counter of an open meter, as far as the events since the programming tell. -/
def Counted (b : Build) (cpus : List Cpu) (tr : List (Ev hw)) (i c : Nat) : Prop :=
  ∀ v n, (meter b (cpus.getD i 0) i c tr).opened = some (v, n) →
    ∃ ticks, since (cpus.getD i 0) tr = some (enableMask b, ticks) ∧
      n ≤ ticks.countP ((b.counterTbl.row c).hits hw) ∧
      v + BitVec.ofNat 64 n = BitVec.ofNat 64 (ticks.countP ((b.counterTbl.row c).hits hw))

structure Metered (b : Build) (cpus : List Cpu) (iterations : Nat → Nat) (tr : List (Ev hw)) (s : World) : Prop where
  created : s.Created cpus iterations
  ended : ∀ i, (s.worker i).finished = true → exited i tr = true
  alive : ∀ i, begun i tr = true → (s.worker i).started = true
  shut : ∀ i, begun i tr = false → ∀ c, (meter b (cpus.getD i 0) i c tr).opened = none
  counted : ∀ i, exited i tr = false → ∀ c < 8, Counted b cpus tr i c

theorem gauge_same {tr : List (Ev hw)} {s s' : World} {i : Nat} {e : Ev hw} (mem : (s'.worker i).mem = (s.worker i).mem)
    (silent : ∀ c m, Meter.event b (cpus.getD i 0) i c m e = m) (other : ∀ o r, e ≠ .act (.worker i) o r) :
    gauge b cpus i (tr ++ [e]) s' = gauge b cpus i tr s := by
  have still : begun i [e] = false ∧ exited i [e] = false := by
    cases e with
    | env => exact ⟨rfl, rfl⟩
    | act t o r =>
      cases t with
      | main => exact ⟨rfl, rfl⟩
      | worker j =>
        have different : j ≠ i := by rintro rfl; exact other o r rfl
        simp [begun, exited, different]
  unfold gauge
  rw [mem, begun_snoc, exited_snoc, still.1, still.2, Bool.or_false, Bool.or_false]
  congr 1
  funext c
  rw [meter_snoc, silent]

theorem read_value {tr : List (Ev hw)} {s s' : World} {i : Nat} {cpu : Cpu} {reg k : Nat} {store : Buf}
    {r : Option Word} (meets : Measures b hw cpus tr s (.act (.worker i) (.readInto cpu reg store k) r))
    (step : s.actWorker b i (.readInto cpu reg store k) r s') : r = some (s.msr cpu reg) := by
  obtain ⟨t, l, ⟨value | failed, -⟩, -⟩ := step
  · exact value
  · have ok : r.isSome = true := meets.ok
    rw [failed] at ok
    cases ok

namespace Metered
variable {tr : List (Ev hw)} {s s' : World} (held : Metered b cpus iterations tr s)
include held

/-- A thread that has begun and not ended has a CPU of the list that is armed. -/
theorem running (armed : Armed b cpus tr s) {i : Nat} (on : begun i tr = true) (going : exited i tr = false) :
    i < cpus.length ∧ ∃ ticks, since (cpus.getD i 0) tr = some (enableMask b, ticks) := by
  have started := held.alive i on
  have finished : (s.worker i).finished = false := Bool.eq_false_iff.mpr fun done => by
    rw [held.ended i done] at going
    cases going
  have bound := (held.created i started).1
  have listed : cpus.getD i 0 ∈ cpus := by
    rw [List.getD_eq_getElem?_getD, List.getElem?_eq_getElem bound]
    exact List.getElem_mem bound
  exact ⟨bound, armed i started finished _ listed⟩

theorem step_quiet {e : Ev hw} (created : s'.Created cpus iterations)
    (started : ∀ i, (s.worker i).started = true → (s'.worker i).started = true)
    (finished : ∀ i, (s'.worker i).finished = (s.worker i).finished) (other : ∀ i o r, e ≠ .act (.worker i) o r)
    (opened : ∀ i c, (meter b (cpus.getD i 0) i c tr).opened = none →
      (meter b (cpus.getD i 0) i c (tr ++ [e])).opened = none)
    (counted : ∀ i c, begun i tr = true → exited i tr = false → Counted b cpus tr i c → Counted b cpus (tr ++ [e]) i c) :
    Metered b cpus iterations (tr ++ [e]) s' := by
  have still (i : Nat) : begun i (tr ++ [e]) = begun i tr ∧ exited i (tr ++ [e]) = exited i tr := by
    rw [begun_snoc, exited_snoc]
    cases e with
    | env => exact ⟨Bool.or_false _, Bool.or_false _⟩
    | act t o r =>
      cases t with
      | main => exact ⟨Bool.or_false _, Bool.or_false _⟩
      | worker j => exact (other j o r rfl).elim
  constructor
  · exact created
  · intro i done
    rw [finished] at done
    rw [(still i).2]
    exact held.ended i done
  · intro i on
    rw [(still i).1] at on
    exact started i (held.alive i on)
  · intro i off c
    rw [(still i).1] at off
    exact opened i c (held.shut i off c)
  · intro i going c bound
    rw [(still i).2] at going
    cases on : begun i tr with
    | true => exact counted i c on going (held.counted i going c bound)
    | false =>
      intro v n open_
      rw [opened i c (held.shut i on c)] at open_
      cases open_

theorem main {o : Action} {r : o.Res} (allowed : Spawns cpus iterations o)
    (meets : Measures b hw cpus tr s (.act .main o r)) (step : s.actMain b o r s') :
    Metered b cpus iterations (tr ++ [.act .main o r]) s' := by
  have same (i c : Nat) : meter b (cpus.getD i 0) i c (tr ++ [(.act .main o r : Ev hw)]) =
      meter b (cpus.getD i 0) i c tr := by rw [meter_snoc]; rfl
  refine held.step_quiet (held.created.main allowed step) (fun i started => ?_) (World.actMain_finished step)
    (by simp)
    (fun i c shut => by rw [same]; exact shut) fun i c on going counted => ?_
  · rcases World.actMain_worker step with kept | ⟨j, args, -, now⟩ | ⟨j, cpu, -, now⟩
    · rw [kept]; exact started
    all_goals
      rw [now]
      by_cases here : i = j
      · subst here
        simp [started]
      · simp [here, started]
  · have other : ∀ x a v, o ≠ .msrWrite x a v := by
      rintro x a v rfl
      have done : (s.worker i).finished = true := meets.waits x a v r rfl i (held.alive i on)
      rw [held.ended i done] at going
      cases going
    intro v n open_
    rw [same] at open_
    rw [since_main other]
    exact counted v n open_

theorem move {e : Move hw} (step : s.move e s') : Metered b cpus iterations (tr ++ [.env e]) s' := by
  refine held.step_quiet (held.created.move step) (fun i started => ?_) (fun i => (World.move_record step i).2)
    (by simp)
    (fun i c shut => ?_) fun i c on going counted => ?_
  · rw [(World.move_record step i).1]
    exact started
  · rw [meter_snoc]
    cases e with
    | tick y t => rw [Meter.event_tick, Meter.opened_tick shut, ite_self, shut]
    | _ => exact shut
  · intro v n open_
    rw [meter_snoc] at open_
    rw [since_snoc]
    cases e with
    | tick y t =>
      rw [Meter.event_tick] at open_
      rw [sinceStep_tick]
      by_cases here : y = cpus.getD i 0
      · rw [if_pos here]
        by_cases hit : (b.counterTbl.row c).hits hw t = true
        · rw [if_pos ⟨here, hit⟩] at open_
          obtain ⟨⟨v', n'⟩, before, now⟩ := Option.map_eq_some_iff.mp open_
          obtain ⟨rfl, rfl⟩ := Prod.mk.inj now
          obtain ⟨ticks, last, le, value⟩ := counted v' n' before
          refine ⟨ticks ++ [t], by rw [last]; rfl, ?_, ?_⟩
          · rw [List.countP_append, List.countP_singleton, if_pos hit]
            exact Nat.succ_le_succ le
          · rw [List.countP_append, List.countP_singleton, if_pos hit]
            simp only [BitVec.ofNat_add, ← BitVec.add_assoc, value]
        · rw [if_neg fun both => hit both.2] at open_
          obtain ⟨ticks, last, le, value⟩ := counted v n open_
          refine ⟨ticks ++ [t], by rw [last]; rfl, ?_, ?_⟩ <;>
            rw [List.countP_append, List.countP_singleton, if_neg hit, Nat.add_zero]
          · exact le
          · exact value
      · rw [if_neg fun both => here both.1] at open_
        rw [if_neg here]
        exact counted v n open_
    | _ => exact counted v n open_

/-- What a reading returns: the number of matching events since the programming. -/
theorem reading (full : FullTable b) (own : ReadsOwn b) (fits : Fits b hw cpus tr) {i : Nat}
    {e : Ev hw} (meets : Measures b hw cpus tr s e) (on : begun i tr = true) (going : exited i tr = false) {c : Nat}
    (bound : c < 8) : ∃ ticks, since (cpus.getD i 0) tr = some (enableMask b, ticks) ∧ ticks.length < 2 ^ hw.width ∧
      s.msr (cpus.getD i 0) (b.counterTbl.row c).pmc =
        BitVec.ofNat 64 (ticks.countP ((b.counterTbl.row c).hits hw)) := by
  obtain ⟨listed, ticks, last⟩ := held.running meets.armed on going
  have guarded := meets.guarded (cpus.getD i 0)
  rw [last] at guarded
  have room := fits i listed going ticks last
  exact ⟨ticks, last, room, guarded.counter full own room bound⟩

section
variable (full : FullTable b) (own : ReadsOwn b) (fits : Fits b hw cpus tr) {i : Nat}
  {o : Action} {r : o.Res} (meets : Measures b hw cpus tr s (.act (.worker i) o r))
  (allowed : (gaugeView b hw cpus iterations i).allow (gauge b cpus i tr s) o) (step : s.actWorker b i o r s')
include full own fits meets allowed step

theorem worker_reads : (gauge b cpus i tr s).Reads b o r := by
  cases o
  case readInto cpu reg store k =>
    obtain ⟨going, reads⟩ := allowed
    obtain ⟨on, rfl⟩ := reads _ _ _ _ rfl
    refine ⟨_, read_value meets step, ?_⟩
    rintro bound rfl v n open_
    obtain ⟨ticks, last, room, value⟩ := held.reading full own fits meets on going bound
    obtain ⟨ticks', last', le, counted⟩ := held.counted i going k bound v n open_
    rw [last] at last'
    cases last'
    refine ⟨value.trans counted.symm, ?_⟩
    have wide : 2 ^ hw.width ≤ 2 ^ 64 := Nat.pow_le_pow_right (by decide) hw.widthLe
    have few : ticks.countP ((b.counterTbl.row k).hits hw) ≤ ticks.length := List.countP_le_length
    omega
  all_goals trivial

theorem worker_step :
    Gauge.Step b cpus iterations i (gauge b cpus i tr s) o r (gauge b cpus i (tr ++ [.act (.worker i) o r]) s') where
  given := held.created.given step
  reads := held.worker_reads full own fits meets allowed step
  mem := World.actWorker_mem step
  meter c := by
    show meter b _ i c (tr ++ [_]) = _
    rw [meter_snoc, Meter.event, if_pos rfl]
    rfl
  begun := by
    show begun i (tr ++ [_]) = _
    rw [begun_snoc]
    simp [begun, gauge]
  gone := by
    show exited i (tr ++ [_]) = _
    rw [exited_snoc]
    simp [exited, gauge]

theorem worker_counted {c : Nat} (bound : c < 8) (counted : Counted b cpus tr i c) :
    Counted b cpus (tr ++ [.act (.worker i) o r]) i c := by
  intro v n open_
  rw [meter_snoc, Meter.event, if_pos rfl] at open_
  rw [since_snoc, sinceStep_worker step]
  by_cases reads : ∃ cpu reg store k, o = .readInto cpu reg store k
  · obtain ⟨cpu, reg, store, k, rfl⟩ := reads
    obtain ⟨going, reads⟩ := allowed
    obtain ⟨on, rfl⟩ := reads _ _ _ _ rfl
    rw [Meter.own_read] at open_
    by_cases here : reg = (b.counterTbl.row c).pmc ∧ k = c
    · rw [if_pos here] at open_
      cases store with
      | storeStart =>
        -- The meter opens with the number of matching events so far.
        obtain ⟨ticks, last, -, value⟩ := held.reading full own fits meets on going bound
        cases open_
        refine ⟨ticks, last, Nat.zero_le _, ?_⟩
        rw [read_value meets step, here.1, ← value]
        simp
      | storeEnd => cases open_
      | a => exact counted v n open_
    · rw [if_neg here] at open_
      exact counted v n open_
  · rw [own_other fun cpu reg store k same => reads ⟨cpu, reg, store, k, same⟩] at open_
    exact counted v n open_

theorem worker : Metered b cpus iterations (tr ++ [.act (.worker i) o r]) s' := by
  have frame := World.actWorker_frame step
  have other {j : Nat} (different : j ≠ i) (c : Nat) : meter b (cpus.getD j 0) j c (tr ++ [(.act (.worker i) o r : Ev hw)]) =
      meter b (cpus.getD j 0) j c tr := by
    rw [meter_snoc, Meter.event, if_neg (Ne.symm different)]
  constructor
  · exact held.created.worker step
  · intro j done
    rw [World.actWorker_finished step, Bool.or_eq_true, decide_eq_true_eq] at done
    rw [exited_snoc]
    rcases done with before | ⟨rfl, rfl⟩
    · rw [held.ended j before, Bool.true_or]
    · simp [exited]
  · intro j on
    rw [begun_snoc, Bool.or_eq_true] at on
    have started : (s.worker j).started = true := by
      rcases on with before | now
      · exact held.alive j before
      · simp only [begun, List.any_cons, List.any_nil, Bool.or_false, decide_eq_true_eq] at now
        obtain ⟨rfl, rfl⟩ := now
        obtain ⟨t, l, ⟨started, -⟩, -⟩ := step
        exact started
    by_cases same : j = i
    · subst same
      rw [frame.started]
      exact started
    · rw [frame.others j same]
      exact started
  · intro j off c
    rw [begun_snoc, Bool.or_eq_false_iff] at off
    by_cases same : j = i
    · subst same
      rw [meter_snoc, Meter.event, if_pos rfl, own_other]
      · exact held.shut j off.1 c
      · intro cpu reg store k reads
        have on : begun j tr = true := (allowed.2 cpu reg store k reads).1
        rw [off.1] at on
        cases on
    · rw [other same]
      exact held.shut j off.1 c
  · intro j going c bound
    rw [exited_snoc, Bool.or_eq_false_iff] at going
    by_cases same : j = i
    · subst same
      exact held.worker_counted full own fits meets allowed step bound (held.counted j going.1 c bound)
    · intro v n open_
      rw [other same] at open_
      rw [since_snoc, sinceStep_worker step]
      exact held.counted j going.1 c bound v n open_

end

end Metered

def meterGuarantee (b : Build) (hw : Pmu) (cpus : List Cpu) (iterations : Nat → Nat) (full : FullTable b)
    (own : ReadsOwn b) :
    RelyGuarantee (process b hw) fun tr s e => Measures b hw cpus tr s e ∧ Fits b hw cpus tr where
  view
    | .main => spawnView cpus iterations
    | .worker i => gaugeView b hw cpus iterations i
  abs
    | .main, _, _ => ()
    | .worker i, tr, s => gauge b cpus i tr s
  inv tr s := Metered b cpus iterations tr s
  own {t tr s o r s'} held allowed meets step := by
    cases t with
    | main => rfl
    | worker i => exact held.worker_step full own meets.2 meets.1 allowed step
  others {t u tr s o r s'} different held allowed meets step := by
    cases u with
    | main => exact .refl
    | worker j =>
      have same : gauge b cpus j (tr ++ [(.act t o r : Ev hw)]) s' = gauge b cpus j tr s := by
        cases t with
        | main => exact gauge_same (World.actMain_mem step j) (fun _ _ => rfl) nofun
        | worker i =>
          have other : i ≠ j := fun same => different (by rw [same])
          refine gauge_same (by rw [(World.actWorker_frame step).others j (Ne.symm other)]) (fun c m => if_neg other) ?_
          intro o' r' same
          cases same
          exact other rfl
      show Relation.ReflTransGen _ (gauge b cpus j tr s) (gauge b cpus j (tr ++ [_]) s')
      rw [same]
  moves {u tr s e s'} held meets step := by
    cases u with
    | main => exact .refl
    | worker j =>
      have mem := World.move_mem step j
      by_cases reaches : ∃ t, e = .tick (cpus.getD j 0) t
      · obtain ⟨t, rfl⟩ := reaches
        refine .single ⟨t, ?_⟩
        show gauge b cpus j (tr ++ [_]) s' = (gauge b cpus j tr s).tick b t
        unfold gauge Gauge.tick
        dsimp only
        rw [mem, begun_snoc, exited_snoc]
        congr 1
        · funext c
          rw [meter_snoc, Meter.event_tick]
          simp only [true_and]
        · exact Bool.or_false _
        · exact Bool.or_false _
      · have silent (c : Nat) (m : Meter) : Meter.event b (cpus.getD j 0) j c m (.env e : Ev hw) = m := by
          cases e with
          | tick y t => exact if_neg fun both => reaches ⟨t, by rw [both.1]⟩
          | _ => rfl
        have same : gauge b cpus j (tr ++ [(.env e : Ev hw)]) s' = gauge b cpus j tr s := gauge_same mem silent nofun
        show Relation.ReflTransGen _ (gauge b cpus j tr s) (gauge b cpus j (tr ++ [_]) s')
        rw [same]
  inv_act {t tr s o r s'} held allowed meets step := by
    cases t with
    | main => exact held.main allowed meets.1 step
    | worker i => exact held.worker full own meets.2 meets.1 allowed step
  inv_env held meets step := held.move step

/-- When `main` closes its log, each thread's deltas are what its meters show. -/
theorem complete_of_closing (full : FullTable b) (small : b.counterTbl.size ≤ 256)
    (own : ReadsOwn b) (room : ∀ i < cpus.length, (func i).samples (iterations i) ≤ b.maxPts) {s : World}
    (initial : s.Initial) {tr : List (Ev hw)} {c : Config Tid Action Action.Res World}
    (run : (process b hw).Run AllOk ⟨s, pool b cpus func iterations⟩ tr c)
    (fits : ∀ before, before <+: tr → Fits b hw cpus before) {i : Nat} (done : (c.state.worker i).finished = true) :
    Gauge.Complete b ((func i).samples (iterations i)) (gauge b cpus i tr c.state) := by
  have start : Metered b cpus iterations ([] : List (Ev hw)) s := by
    constructor
    · exact initial.created
    · intro i done
      rw [initial.finished i] at done
      cases done
    · nofun
    · intros; rfl
    · intro i _ c _ v n open_
      cases open_
  have proved := (meterGuarantee b hw cpus iterations full own).run
    (fun t => match t with
      | .main => fun _ _ => True
      | .worker i => fun _ s => Gauge.Complete b ((func i).samples (iterations i)) s)
    ((measuring full.loopRows.sparesGlobal initial run).upTo fits) start fun t => by
      cases t with
      | main => exact main_spawns b cpus iterations
      | worker i =>
        exact wp_worker_metered full.nCustomCtr full.size small (room i) rfl (initial.counts i) fun _ => rfl
  obtain ⟨held, threads⟩ := proved
  have ended := held.ended i done
  have here : (c.pool (.worker i)).wp (gaugeView b hw cpus iterations i)
      (fun _ s => Gauge.Complete b ((func i).samples (iterations i)) s) (gauge b cpus i tr c.state) := threads (.worker i)
  cases program : c.pool (.worker i) with
  | done a =>
    rw [program] at here
    exact here _ .refl
  | act o next =>
    -- A thread that has exited takes no further action.
    rw [program] at here
    have going : exited i tr = false := (Program.wp_now here).1.1
    rw [going] at ended
    cases ended

/-! ### Reading the log -/

def lines : List Piece → List (List Piece)
  | [] => []
  | .newline :: rest => [] :: lines rest
  | p :: rest =>
    match lines rest with
    | [] => [[p]]
    | line :: later => (p :: line) :: later

theorem lines_line {line : List Piece} (whole : .newline ∉ line) (rest : List Piece) :
    lines (line ++ [.newline] ++ rest) = line :: lines rest := by
  induction line with
  | nil => rfl
  | cons p line ih =>
    have other : p ≠ .newline := fun same => whole (same ▸ List.mem_cons_self)
    have step (l : List Piece) : lines (p :: l) = match lines l with
        | [] => [[p]]
        | line :: later => (p :: line) :: later := by
      cases p with
      | newline => exact (other rfl).elim
      | _ => rfl
    rw [List.cons_append, List.cons_append, step, ih fun member => whole (List.mem_cons_of_mem p member)]

theorem lines_flatMap {ι : Type} {line : ι → List Piece} (whole : ∀ i, .newline ∉ line i) (l : List ι) :
    lines (l.flatMap fun i => line i ++ [.newline]) = l.map line := by
  induction l with
  | nil => rfl
  | cons i l ih => rw [List.flatMap_cons, lines_line (whole i), ih, List.map_cons]

def header (log : List Piece) : List Piece := (lines log).headD []

def isRowOf (i : Nat) (line : List Piece) : Bool :=
  match line with
  | .row tid _ :: _ => decide (tid = i)
  | _ => false

def rowLines (i : Nat) (log : List Piece) : List (List Piece) := (lines log).filter (isRowOf i)

/-- What the `j`-th line of thread `i` has in column `p`. -/
def cell (log : List Piece) (i j p : Nat) : Option Piece := (rowLines i log)[j]?.bind fun row => row[p]?

def headerLine (b : Build) : List Piece := .tidTime :: (columns b).map fun c => .name (b.counterTbl.row c).name

def rowLine (b : Build) (i : Nat) (p : Profile) (j : Nat) : List Piece :=
  .row i (p.times.getD j 0) :: (columns b).map fun c => .value (p.values (c * b.maxPts + j))

theorem lines_csv (b : Build) (threads : Nat) (prof : Nat → Profile) : lines (csv b threads prof) =
    headerLine b :: (List.range threads).flatMap fun i => (List.range (prof i).counts).map fun j => rowLine b i (prof i) j := by
  have first : .newline ∉ headerLine b := by simp [headerLine]
  have rows : ((List.range threads).flatMap fun i => csvRows b i (prof i)) =
      ((List.range threads).flatMap fun i => (List.range (prof i).counts).map fun j => (i, j)).flatMap fun x =>
        rowLine b x.1 (prof x.1) x.2 ++ [.newline] := by
    rw [List.flatMap_assoc]
    apply List.flatMap_congr
    intro i _
    rw [List.flatMap_map]
    rfl
  have whole (x : Nat × Nat) : .newline ∉ rowLine b x.1 (prof x.1) x.2 := by simp [rowLine]
  have split : csv b threads prof = headerLine b ++ [.newline] ++
      (List.range threads).flatMap fun i => csvRows b i (prof i) := rfl
  rw [split, lines_line first, rows, lines_flatMap whole, List.map_flatMap]
  congr 1
  apply List.flatMap_congr
  intro i _
  rw [List.map_map]
  rfl

theorem rowLines_csv {threads i : Nat} (bound : i < threads) (prof : Nat → Profile) :
    rowLines i (csv b threads prof) = (List.range (prof i).counts).map (rowLine b i (prof i)) := by
  have own (j : Nat) : ((List.range (prof j).counts).map fun k => rowLine b j (prof j) k).filter (isRowOf i) =
      if j = i then (List.range (prof j).counts).map (rowLine b j (prof j)) else [] := by
    split
    · rename_i same
      rw [List.filter_eq_self]
      intro line member
      obtain ⟨k, -, rfl⟩ := List.mem_map.mp member
      exact decide_eq_true same
    · rename_i other
      rw [List.filter_eq_nil_iff]
      intro line member
      obtain ⟨k, -, rfl⟩ := List.mem_map.mp member
      simp [isRowOf, rowLine, other]
  unfold rowLines
  rw [lines_csv, List.filter_cons_of_neg (by simp [isRowOf, headerLine]), List.filter_flatMap]
  rw [List.flatMap_congr fun j _ => own j]
  induction threads with
  | zero => exact absurd bound (Nat.not_lt_zero i)
  | succ threads ih =>
    rw [List.range_succ, List.flatMap_append, List.flatMap_singleton]
    rcases Nat.lt_succ_iff_lt_or_eq.mp bound with earlier | rfl
    · rw [ih earlier, if_neg (by omega), List.append_nil]
    · rw [if_pos rfl, List.flatMap_eq_nil_iff.mpr, List.nil_append]
      intro j member
      rw [if_neg]
      exact Nat.ne_of_lt (List.mem_range.mp member)

theorem columns_getElem? {c : Nat} (inside : c < b.counterTbl.size) (byte : c < 256) : (columns b)[c]? = some c := by
  rw [columns_eq (Nat.zero_lt_of_lt inside), List.getElem?_range (by omega)]

/-- In the column of a custom counter's row `c`, the `j`-th line of thread `i` has the number of
events that match the row and that have happened on the thread's CPU between the readings of
sample `j`. -/
def CountsEvents (b : Build) (cpus : List Cpu) (samples : Nat → Nat) (tr : List (Ev hw)) (log : List Piece) : Prop :=
  ∀ i < cpus.length, (rowLines i log).length = samples i ∧
    ∀ j < samples i, ∀ c < b.counterTbl.size, (b.counterTbl.row c).ctrType = .customCtr →
      (header log)[c + 1]? = some (.name (b.counterTbl.row c).name) ∧
      ∃ v, cell log i j (c + 1) = some (.value v) ∧ (between b (cpus.getD i 0) i c tr)[j]? = some v.toNat

theorem csv_countsEvents (full : FullTable b) (small : b.counterTbl.size < 256)
    (own : ReadsOwn b) (room : ∀ i < cpus.length, (func i).samples (iterations i) ≤ b.maxPts) {s : World}
    (initial : s.Initial) {tr : List (Ev hw)} {c : Config Tid Action Action.Res World}
    (run : (process b hw).Run AllOk ⟨s, pool b cpus func iterations⟩ tr c)
    (fits : ∀ before, before <+: tr → Fits b hw cpus before) (closing : Closing c) {log : List Piece}
    (written : c.state.file = some log) :
    CountsEvents b cpus (fun i => (func i).samples (iterations i)) tr log := by
  have complete := csv_of_closing initial run closing
  have text : log = csv b cpus.length (desk c.state).prof := complete.file log written
  intro i bound
  obtain ⟨counts, booked⟩ := complete_of_closing full small.le own room initial run fits (complete.finished i bound)
  have counts : ((desk c.state).prof i).counts = (func i).samples (iterations i) := counts
  rw [text]
  refine ⟨by rw [rowLines_csv bound, List.length_map, List.length_range, counts], fun j sample k inside custom => ?_⟩
  have below : k < 8 := (full.custom_iff inside).mp custom
  have column : (columns b)[k]? = some k := columns_getElem? inside (by omega)
  refine ⟨?_, ((desk c.state).prof i).values (k * b.maxPts + j), ?_, ?_⟩
  · unfold header
    rw [lines_csv]
    simp [headerLine, column]
  · unfold cell
    rw [rowLines_csv bound, List.getElem?_map, List.getElem?_range (by rw [counts]; exact sample)]
    simp [rowLine, column]
  · have closed : between b (cpus.getD i 0) i k tr = recorded b (gauge b cpus i tr c.state) k _ :=
      congrArg Meter.closed (booked k below)
    rw [closed, recorded, List.getElem?_map, List.getElem?_range sample]
    rfl

/-- The events of one sample: two of L2_REFS and one of L2_MISSES on CPU 1, and one on CPU 2. -/
def sampledTicks : List (Tid ⊕ Move .exact) :=
  [.inr (.tick 1 (0x24, 0xFF)), .inr (.tick 2 (0x24, 0xFF)), .inr (.tick 1 (0x24, 0xFF)), .inr (.tick 1 (0x24, 0x3F))]

def Event.succeeds : Ev hw → Bool
  | .act _ (.msrWrite ..) ok => ok
  | .act _ (.msrRead ..) v => v.isSome
  | .act _ (.readInto ..) v => v.isSome
  | _ => true

theorem Event.allOk_of_succeeds (tr : List (Ev hw)) (s : World) (e : Ev hw) (fine : Event.succeeds e = true) :
    AllOk tr s e := by
  cases e with
  | env => trivial
  | act t o r =>
    cases o with
    | msrWrite | msrRead | readInto => exact fine
    | _ => trivial

/-- In a run of fewer than 1000 events no counter of 48 bits fills up. -/
theorem fits_of_short {tr before : List (Ev .exact)} (short : tr.length < 1000) (front : before <+: tr) :
    Fits b .exact cpus before := by
  intro i _ _ ticks last
  have few := since_length last
  have shorter := front.length_le
  have room : 1000 < 2 ^ Pmu.exact.width := by decide
  omega

/-- Thread 0 counts the events on its CPU that fall into its sample. -/
theorem csv_countsEvents_once : ∃ (tr : List (Ev .exact)) (c : Config Tid Action Action.Res World) (log : List Piece),
    (process oneElement .exact).Run AllOk
      ⟨.idle, pool oneElement [1, 2] (fun _ => .bmSingleDArrayMultithreadedT1) fun _ => 1⟩ tr c ∧
      c.state.file = some log ∧ CountsEvents oneElement [1, 2] (fun _ => 1) tr log ∧
      cell log 0 0 1 = some (.value 2) := by
  have played : (playFrom oneElement .exact (fun _ _ e => Event.succeeds e) [1, 2]
      (fun _ => .bmSingleDArrayMultithreadedT1) (fun _ => 1) .idle
      (List.replicate 114 (.inl .main) ++ List.replicate 20 (.inl (.worker 0)) ++ sampledTicks ++
        List.replicate 46 (.inl (.worker 0)) ++ List.replicate 63 (.inl (.worker 1)) ++
        List.replicate 42 (.inl .main))).any
      (fun x => closes x.2 && decide (x.1.length < 1000) &&
        x.2.state.file.any fun log => decide (cell log 0 0 1 = some (.value 2))) = true := by decide +kernel
  obtain ⟨⟨tr, c⟩, found, here⟩ := (Option.any_eq_true ..).mp played
  simp only [Bool.and_eq_true, decide_eq_true_eq] at here
  obtain ⟨⟨close, short⟩, written⟩ := here
  obtain ⟨log, file, two⟩ := (Option.any_eq_true ..).mp written
  have run := (player oneElement .exact).play_run Event.allOk_of_succeeds .start found
  have full : FullTable oneElement := by constructor <;> decide
  have own : ReadsOwn oneElement := by
    unfold ReadsOwn
    decide
  exact ⟨tr, c, log, run, file, csv_countsEvents full (by decide) own (fun _ _ => by decide) World.idle_initial run
    (fun _ => fits_of_short short) (closing_of_closes close) file, of_decide_eq_true two⟩

/-- A build with `fixedFirst`'s table, whose shared array has one element. -/
def fixedFirstOne : Build := { fixedFirst with l2Size := 16 }

/-- The last custom counter of such a table is not programmed: an event of L2_PF_MISSES falls
into the sample, and the column has 0. -/
theorem csv_countsEvents_fixedFirst : CustomRows fixedFirstOne ∧ SmallEvents fixedFirstOne ∧
    (∀ c < fixedFirstOne.counterTbl.size, (fixedFirstOne.counterTbl.row c).ctrType = .customCtr →
      (fixedFirstOne.counterTbl.row c).pmc = ia32Pmc0 + (fixedFirstOne.counterTbl.row c).id) ∧
    ∃ (tr : List (Ev .exact)) (c : Config Tid Action Action.Res World) (log : List Piece),
      (process fixedFirstOne .exact).Run AllOk
        ⟨.idle, pool fixedFirstOne [1] (fun _ => .bmSingleDArrayMultithreadedT1) fun _ => 1⟩ tr c ∧
        (∀ before, before <+: tr → Fits fixedFirstOne .exact [1] before) ∧ Closing c ∧ c.state.file = some log ∧
        ¬ CountsEvents fixedFirstOne [1] (fun _ => 1) tr log := by
  have played : (playFrom fixedFirstOne .exact (fun _ _ e => Event.succeeds e) [1]
      (fun _ => .bmSingleDArrayMultithreadedT1) (fun _ => 1) .idle
      (List.replicate 60 (.inl .main) ++ List.replicate 20 (.inl (.worker 0)) ++ [.inr (.tick 1 (0x24, 0x30))] ++
        List.replicate 52 (.inl (.worker 0)) ++ List.replicate 23 (.inl .main))).any
      (fun x => closes x.2 && decide (x.1.length < 1000) &&
        x.2.state.file.any fun log => decide (cell log 0 0 9 = some (.value 0)) &&
          decide ((between fixedFirstOne 1 0 8 x.1)[0]? = some 1)) = true := by decide +kernel
  obtain ⟨⟨tr, c⟩, found, here⟩ := (Option.any_eq_true ..).mp played
  simp only [Bool.and_eq_true, decide_eq_true_eq] at here
  obtain ⟨⟨close, short⟩, written⟩ := here
  obtain ⟨log, file, last⟩ := (Option.any_eq_true ..).mp written
  simp only [Bool.and_eq_true, decide_eq_true_eq] at last
  obtain ⟨zero, one⟩ := last
  have run := (player fixedFirstOne .exact).play_run Event.allOk_of_succeeds .start found
  refine ⟨by constructor <;> decide, by unfold SmallEvents; decide, by decide, tr, c, log, run, fun _ => fits_of_short short,
    closing_of_closes close, file, fun counts => ?_⟩
  obtain ⟨-, v, shown, counted⟩ := (counts 0 (by decide)).2 0 (by decide) 8 (by decide) (by decide)
  -- The column would have to show the one event that has happened.
  rw [zero] at shown
  cases shown
  rw [show ([1] : List Cpu).getD 0 0 = 1 from rfl, one] at counted
  cases counted

end PmcBench
