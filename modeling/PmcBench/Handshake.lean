import PmcBench.Bookkeeping
import PmcBench.CsvLog
import PmcBench.Schedules

/-!
# The hand-over from thread 0 to thread 1

With `bm_single_d_array_multithreaded_t1` or `_t2` on both threads, thread 1 spins on
`can_run`, which thread 0 sets after its last sample. So the two threads sample one after
the other, in every run, and their time stamps are in order in the log.
-/

namespace PmcBench
open Threads
open Program (forEach)

variable {b : Build} {hw : Pmu} {cpus : List Cpu} {func : Nat → Benchmark} {iterations : Nat → Nat}

/-- The actions of a sample: its time stamp, its window, and its bookkeeping. -/
def Action.samples : Action → Bool
  | .gettimeofday | .pushTime _ | .point .window | .point .measured | .readInto .. | .loadShared _ | .counts
  | .setValue .. | .incCounts => true
  | _ => false

/-- Worker `i` takes a step of a sample. -/
def sampledBy (i : Nat) : Ev hw → Bool
  | .act (.worker j) o _ => decide (j = i) && o.samples
  | _ => false

/-- Where a worker is in its turn. -/
structure Turn where
  /-- It may sample. -/
  go : Bool
  /-- It is between the opening of a window and the end of its sample. -/
  opened : Bool
  /-- A time stamp it has taken and not yet recorded. -/
  stamp : Option Word

namespace Turn

def start (i : Nat) : Turn := ⟨decide (i = 0), false, none⟩

/-- A worker between two samples. -/
def ready : Turn := ⟨true, false, none⟩

def step (t : Turn) : (o : Action) → o.Res → Turn
  | .setCanRun, _ => { t with go := false }
  | .waitCanRun, _ => { t with go := true }
  | .gettimeofday, tv => { t with stamp := some tv.micros }
  | .pushTime _, _ => { t with stamp := none }
  | .point .window, _ => { t with opened := true }
  | .incCounts, _ => { t with opened := false }
  | _, _ => t

/-- What worker `i` may do: sample in its turn, and hand over between two samples. -/
def Allows (i : Nat) (t : Turn) (o : Action) : Prop :=
  (o.samples = true → t.go = true) ∧
    match o with
    | .threadStart => t = start i
    | .waitCanRun => i = 1
    | .setCanRun => i = 0 ∧ t.opened = false
    | .gettimeofday => t.stamp = none
    | .pushTime w => t.stamp = some w
    | .point .window => t.opened = false
    | .incCounts => t.opened = true
    | _ => True

/-- The turn of worker `i` after an event. -/
def event (i : Nat) (t : Turn) : Ev hw → Turn
  | .act (.worker j) o r => if j = i then t.step o r else t
  | _ => t

end Turn

def turn (i : Nat) (tr : List (Ev hw)) : Turn := tr.foldl (Turn.event i) (.start i)

theorem turn_snoc (i : Nat) (tr : List (Ev hw)) (e : Ev hw) : turn i (tr ++ [e]) = (turn i tr).event i e := by
  simp [turn]

abbrev turnView (cpus : List Cpu) (iterations : Nat → Nat) (i : Nat) : View Action Action.Res where
  St := Turn
  rely _ _ := False
  allow := Turn.Allows i
  next t o r t' := World.Given cpus iterations i o r ∧ t' = t.step o r

/-! ### The invariant of a run -/

/-- The time stamps of worker `i`, with the one it has not yet recorded. -/
def series (i : Nat) (tr : List (Ev hw)) (s : World) : List Word :=
  (s.worker i).mem.prof.times ++ (turn i tr).stamp.toList

def opensWindow (i : Nat) : Ev hw → Bool
  | .act (.worker j) (.point .window) _ => decide (j = i)
  | _ => false

/-- The end of a sample, after the window's last reading. -/
def closesWindow (i : Nat) : Ev hw → Bool
  | .act (.worker j) .incCounts _ => decide (j = i)
  | _ => false

structure InTurn (cpus : List Cpu) (iterations : Nat → Nat) (tr : List (Ev hw)) (s : World) : Prop where
  created : s.Created cpus iterations
  canRun : s.canRun = true → (turn 0 tr).go = false
  released : (turn 1 tr).go = true → (turn 0 tr).go = false
  closed : (turn 0 tr).go = false → (turn 0 tr).opened = false
  balanced : tr.countP (opensWindow 0) = tr.countP (closesWindow 0) + (turn 0 tr).opened.toNat
  second : ∀ e ∈ tr, sampledBy 1 e = true → (turn 1 tr).go = true
  order : tr.Pairwise fun e e' => sampledBy 1 e = true → sampledBy 0 e' = false
  unstamped : (turn 1 tr).go = false → series 1 tr s = []
  sorted : ∀ i, (series i tr s).Pairwise (· ≤ ·)
  past : ∀ i, ∀ x ∈ series i tr s, x ≤ s.clock
  between : ∀ x ∈ series 0 tr s, ∀ y ∈ series 1 tr s, x ≤ y

theorem Local.step_times {l l' : Local} {o : Action} {r : o.Res} (step : l.step b o r l') (other : ∀ w, o ≠ .pushTime w) :
    l'.prof.times = l.prof.times := by
  cases o
  case pushTime w => exact (other w rfl).elim
  case setValue => rw [show l' = _ from step]; rfl
  case incCounts => rw [show l' = _ from step]; rfl
  all_goals rw [Local.step_prof rfl step]

namespace InTurn
variable {tr : List (Ev hw)} {s s' : World}

theorem quiet (held : InTurn cpus iterations tr s) {e : Ev hw} (created : s'.Created cpus iterations)
    (canRun : s'.canRun = s.canRun) (clock : s.clock ≤ s'.clock)
    (mem : ∀ j, (s'.worker j).mem = (s.worker j).mem) (other : ∀ i o r, e ≠ .act (.worker i) o r) :
    InTurn cpus iterations (tr ++ [e]) s' := by
  have same (i : Nat) : turn i (tr ++ [e]) = turn i tr := by
    rw [turn_snoc]
    cases e with
    | env => rfl
    | act t o r =>
      cases t with
      | main => rfl
      | worker j => exact (other j o r rfl).elim
  have silent (i : Nat) : sampledBy i e = false ∧ opensWindow i e = false ∧ closesWindow i e = false := by
    cases e with
    | env => exact ⟨rfl, rfl, rfl⟩
    | act t o r =>
      cases t with
      | main => exact ⟨rfl, rfl, rfl⟩
      | worker j => exact (other j o r rfl).elim
  have still (i : Nat) : series i (tr ++ [e]) s' = series i tr s := by
    rw [series, series, same, mem]
  constructor
  · exact created
  · rw [canRun, same]; exact held.canRun
  · rw [same, same]; exact held.released
  · rw [same]; exact held.closed
  · rw [same, List.countP_append, List.countP_append, List.countP_singleton, List.countP_singleton, (silent 0).2.1,
      (silent 0).2.2]
    exact held.balanced
  · intro e' member sampled
    rw [same]
    rcases List.mem_append.mp member with earlier | last
    · exact held.second e' earlier sampled
    · rw [List.mem_singleton.mp last, (silent 1).1] at sampled
      cases sampled
  · refine List.pairwise_append.mpr ⟨held.order, List.pairwise_singleton _ _, fun x _ y last _ => ?_⟩
    rw [List.mem_singleton.mp last, (silent 0).1]
  · rw [same, still]; exact held.unstamped
  · intro i; rw [still]; exact held.sorted i
  · intro i x member
    rw [still] at member
    exact BitVec.le_trans (held.past i x member) clock
  · rw [still, still]; exact held.between

section
variable {i : Nat} {o : Action} {r : o.Res}

theorem turn_own : turn i (tr ++ [(.act (.worker i) o r : Ev hw)]) = (turn i tr).step o r := by
  rw [turn_snoc, Turn.event, if_pos rfl]

theorem turn_other {j : Nat} (other : i ≠ j) : turn j (tr ++ [(.act (.worker i) o r : Ev hw)]) = turn j tr := by
  rw [turn_snoc, Turn.event, if_neg other]

theorem go_zero {t : Turn} (allowed : t.Allows 0 o) (off : t.go = false) : (t.step o r).go = false := by
  cases o with
  | waitCanRun => exact absurd (show 0 = 1 from allowed.2) (by decide)
  | setCanRun => rfl
  | point p => cases p <;> exact off
  | _ => exact off

theorem go_one {t : Turn} (allowed : t.Allows 1 o) (on : t.go = true) : (t.step o r).go = true := by
  cases o with
  | setCanRun => exact absurd (show 1 = 0 from allowed.2.1) (by decide)
  | waitCanRun => rfl
  | point p => cases p <;> exact on
  | _ => exact on

theorem go_released {t : Turn} (on : (t.step o r).go = true) : t.go = true ∨ o = .waitCanRun := by
  cases o with
  | waitCanRun => exact Or.inr rfl
  | setCanRun => cases on
  | point p => cases p <;> exact Or.inl on
  | _ => exact Or.inl on

/-- A worker's time stamps only grow, by the time it is, in its turn. -/
theorem series_worker (allowed : (turn i tr).Allows i o) (step : s.actWorker b i o r s') (j : Nat) :
    series j (tr ++ [(.act (.worker i) o r : Ev hw)]) s' = series j tr s ∨
    j = i ∧ (turn i tr).go = true ∧ series j (tr ++ [(.act (.worker i) o r : Ev hw)]) s' = series j tr s ++ [s.clock] := by
  by_cases same : i = j
  · subst same
    have mem := World.actWorker_mem step
    by_cases push : ∃ w, o = .pushTime w
    · obtain ⟨w, rfl⟩ := push
      obtain ⟨-, pending⟩ := allowed
      have now : (s'.worker i).mem = (s.worker i).mem.pushTime w := mem
      apply Or.inl
      rw [series, series, turn_own, now, pending]
      simp [Local.pushTime, Turn.step]
    · have times := Local.step_times mem fun w same => push ⟨w, same⟩
      by_cases stamp : o = .gettimeofday
      · subst stamp
        obtain ⟨inTurn, recorded⟩ := allowed
        have recorded : (turn i tr).stamp = none := recorded
        obtain ⟨t, l, ⟨read, -⟩, -⟩ := step
        refine Or.inr ⟨rfl, inTurn rfl, ?_⟩
        rw [series, series, turn_own, times, recorded, read]
        simp [Turn.step]
      · apply Or.inl
        rw [series, series, turn_own, times]
        congr 2
        cases o with
        | gettimeofday => exact (stamp rfl).elim
        | pushTime w => exact (push ⟨w, rfl⟩).elim
        | point p => cases p <;> rfl
        | _ => rfl
  · apply Or.inl
    rw [series, series, turn_other same, (World.actWorker_frame step).others j (Ne.symm same)]

theorem canRun_worker (step : s.actWorker b i o r s') (run : s'.canRun = true) : s.canRun = true ∨ o = .setCanRun := by
  by_cases other : World.writesShared o = false
  · rw [(World.actWorker_shared other step).2.1] at run
    exact Or.inl run
  · obtain ⟨t, l, shared, -, rfl⟩ := step
    cases o with
    | setCanRun => exact Or.inr rfl
    | setFlag | mallocShared m => obtain rfl : t = _ := shared; exact Or.inl run
    | storeShared j v => obtain ⟨buf, -, rfl⟩ := shared; exact Or.inl run
    | _ => exact (other rfl).elim

theorem balanced_worker (held : InTurn cpus iterations tr s) (allowed : (turn i tr).Allows i o) :
    let e : Ev hw := .act (.worker i) o r
    ((turn 0 (tr ++ [e])).go = false → (turn 0 (tr ++ [e])).opened = false) ∧
    (tr ++ [e]).countP (opensWindow 0) =
      (tr ++ [e]).countP (closesWindow 0) + (turn 0 (tr ++ [e])).opened.toNat := by
  intro e
  rw [List.countP_append, List.countP_append, List.countP_singleton, List.countP_singleton, held.balanced]
  by_cases first : i = 0
  · subst first
    rw [turn_own]
    cases o with
    | setCanRun =>
      have off : (turn 0 tr).opened = false := allowed.2.2
      exact ⟨fun _ => off, by simp [e, opensWindow, closesWindow, Turn.step]⟩
    | waitCanRun => exact absurd (show 0 = 1 from allowed.2) (by decide)
    | incCounts =>
      have on : (turn 0 tr).opened = true := allowed.2
      exact ⟨fun _ => rfl, by simp [e, opensWindow, closesWindow, Turn.step, on]⟩
    | point p =>
      cases p with
      | window =>
        have on : (turn 0 tr).go = true := allowed.1 rfl
        have off : (turn 0 tr).opened = false := allowed.2
        refine ⟨fun ended => ?_, by simp [e, opensWindow, closesWindow, Turn.step, off]⟩
        rw [show ((turn 0 tr).step (.point .window) r).go = (turn 0 tr).go from rfl, on] at ended
        cases ended
      | _ => exact ⟨held.closed, by simp [e, opensWindow, closesWindow, Turn.step]⟩
    | _ => exact ⟨held.closed, by simp [e, opensWindow, closesWindow, Turn.step]⟩
  · rw [turn_other first]
    have silent : opensWindow 0 e = false ∧ closesWindow 0 e = false := by
      cases o with
      | incCounts => exact ⟨rfl, decide_eq_false first⟩
      | point p =>
        cases p with
        | window => exact ⟨decide_eq_false first, rfl⟩
        | _ => exact ⟨rfl, rfl⟩
      | _ => exact ⟨rfl, rfl⟩
    rw [silent.1, silent.2]
    exact ⟨held.closed, rfl⟩

theorem worker (held : InTurn cpus iterations tr s) (allowed : (turn i tr).Allows i o) (step : s.actWorker b i o r s') :
    InTurn cpus iterations (tr ++ [(.act (.worker i) o r : Ev hw)]) s' := by
  obtain ⟨closed, balanced⟩ := balanced_worker (r := r) held allowed
  have off (ended : (turn 0 tr).go = false) : (turn 0 (tr ++ [(.act (.worker i) o r : Ev hw)])).go = false := by
    by_cases first : i = 0
    · subst first
      rw [turn_own]
      exact go_zero allowed ended
    · rw [turn_other first]
      exact ended
  have on (run : (turn 1 tr).go = true) : (turn 1 (tr ++ [(.act (.worker i) o r : Ev hw)])).go = true := by
    by_cases second : i = 1
    · subst second
      rw [turn_own]
      exact go_one allowed run
    · rw [turn_other second]
      exact run
  have clock : s'.clock = s.clock := (World.actWorker_frame step).clock
  constructor
  · exact held.created.worker step
  · intro run
    rcases canRun_worker step run with before | rfl
    · exact off (held.canRun before)
    · obtain rfl : i = 0 := allowed.2.1
      rw [turn_own]
      rfl
  · intro run
    by_cases second : i = 1
    · subst second
      rw [turn_own] at run
      rcases go_released run with before | rfl
      · exact off (held.released before)
      · obtain ⟨t, l, ⟨set, -⟩, -⟩ := step
        exact off (held.canRun set)
    · rw [turn_other second] at run
      exact off (held.released run)
  · exact closed
  · exact balanced
  · intro e' member sampled
    rcases List.mem_append.mp member with earlier | last
    · exact on (held.second e' earlier sampled)
    · rw [List.mem_singleton.mp last, sampledBy, Bool.and_eq_true, decide_eq_true_eq] at sampled
      obtain ⟨rfl, sample⟩ := sampled
      exact on (allowed.1 sample)
  · refine List.pairwise_append.mpr ⟨held.order, List.pairwise_singleton _ _, fun x earlier y last sampled => ?_⟩
    have ended := held.released (held.second x earlier sampled)
    rw [List.mem_singleton.mp last, sampledBy, Bool.and_eq_false_iff, decide_eq_false_iff_not]
    by_cases first : i = 0
    · subst first
      refine Or.inr (Bool.eq_false_iff.mpr fun sample => ?_)
      rw [allowed.1 sample] at ended
      cases ended
    · exact Or.inl first
  · intro run
    have before : (turn 1 tr).go = false := Bool.eq_false_iff.mpr fun go => by
      rw [on go] at run
      cases run
    rcases series_worker allowed step 1 with same | ⟨rfl, go, -⟩
    · rw [same]
      exact held.unstamped before
    · rw [before] at go
      cases go
  · intro j
    rcases series_worker allowed step j with same | ⟨-, -, grown⟩
    · rw [same]
      exact held.sorted j
    · rw [grown]
      refine List.pairwise_append.mpr ⟨held.sorted j, List.pairwise_singleton _ _, fun x earlier y last => ?_⟩
      rw [List.mem_singleton.mp last]
      exact held.past j x earlier
  · intro j x member
    rw [clock]
    rcases series_worker allowed step j with same | ⟨-, -, grown⟩
    · rw [same] at member
      exact held.past j x member
    · rw [grown] at member
      rcases List.mem_append.mp member with earlier | last
      · exact held.past j x earlier
      · rw [List.mem_singleton.mp last]
        exact BitVec.le_refl _
  · intro x first y second
    rcases series_worker allowed step 0 with same | ⟨rfl, go, -⟩
    · rw [same] at first
      rcases series_worker allowed step 1 with same | ⟨-, -, grown⟩
      · rw [same] at second
        exact held.between x first y second
      · rw [grown] at second
        rcases List.mem_append.mp second with earlier | last
        · exact held.between x first y earlier
        · rw [List.mem_singleton.mp last]
          exact held.past 0 x first
    · -- Thread 0 is still in its turn, so thread 1 has taken no time stamp.
      have waiting : (turn 1 tr).go = false := Bool.eq_false_iff.mpr fun run => by
        rw [held.released run] at go
        cases go
      rcases series_worker allowed step 1 with same | ⟨other, -⟩
      · rw [same, held.unstamped waiting] at second
        cases second
      · cases other

end

end InTurn

def turnGuarantee (b : Build) (hw : Pmu) (C : List (Ev hw) → World → Ev hw → Prop) (cpus : List Cpu)
    (iterations : Nat → Nat) : RelyGuarantee (process b hw) C where
  view
    | .main => spawnView cpus iterations
    | .worker i => turnView cpus iterations i
  abs
    | .main, _, _ => ()
    | .worker i, tr, _ => turn i tr
  inv tr s := InTurn cpus iterations tr s
  own {t tr s o r s'} held allowed ok step := by
    cases t with
    | main => rfl
    | worker i => exact ⟨held.created.given step, InTurn.turn_own⟩
  others {t u tr s o r s'} different held allowed ok step := by
    cases u with
    | main => exact .refl
    | worker j =>
      have same : turn j (tr ++ [(.act t o r : Ev hw)]) = turn j tr := by
        cases t with
        | main => rw [turn_snoc]; rfl
        | worker i => exact InTurn.turn_other fun same => different (by rw [same])
      show Relation.ReflTransGen _ (turn j tr) (turn j (tr ++ [_]))
      rw [same]
  moves {u tr s e s'} held ok step := by
    cases u with
    | main => exact .refl
    | worker j =>
      show Relation.ReflTransGen _ (turn j tr) (turn j (tr ++ [_]))
      rw [turn_snoc]
      exact .refl
  inv_act {t tr s o r s'} held allowed ok step := by
    cases t with
    | main =>
      refine held.quiet (held.created.main allowed step) (World.actMain_shared step).2.1 ?_ (World.actMain_mem step) nofun
      rw [World.actMain_clock step]
      exact BitVec.le_refl _
    | worker i => exact held.worker allowed step
  inv_env held ok step :=
    held.quiet (held.created.move step) (World.move_shared step).2.1 (World.move_clock step) (World.move_mem step) nofun

/-! ### The benchmarks in turn -/

section
variable {i : Nat} {args : ThreadArgs} {N : Nat}

theorem turn_keeps {o : Action} {t : Turn} (allowed : t.Allows i o) (same : ∀ r, t.step o r = t) :
    (turnView cpus iterations i).Preserves (fun u => u = t) o := by
  rintro u rfl
  exact ⟨allowed, fun r w ⟨_, now⟩ => now.trans (same r)⟩

theorem turn_quiet {o : Action} {t : Turn} (quiet : o.quiet = true) (may : o.samples = true → t.go = true) :
    (turnView cpus iterations i).Preserves (fun u => u = t) o := by
  apply turn_keeps
  · refine ⟨may, ?_⟩
    cases o with
    | point p =>
      cases p with
      | measured => trivial
      | _ => cases quiet
    | threadStart | waitCanRun | setCanRun | gettimeofday | pushTime | incCounts => cases quiet
    | _ => trivial
  · intro r
    cases o with
    | point p =>
      cases p with
      | measured => rfl
      | _ => cases quiet
    | setCanRun | waitCanRun | gettimeofday | pushTime | incCounts => cases quiet
    | _ => rfl

theorem wp_turn {α : Type} {p : Prog α} {t : Turn}
    (all : p.All ((turnView cpus iterations i).Preserves fun u => u = t)) :
    p.wp (turnView cpus iterations i) (fun _ u => u = t) t :=
  Program.wp_of_preserves (fun _ _ _ moved => moved.elim) all rfl

theorem wp_beforeTurn {p : Prog Unit} {Q : Unit → Turn → Prop} {size : Nat} {t : Turn}
    (rest : p.wp (turnView cpus iterations i) Q t) : (do
      mallocStores size
      setUpSharedArray b
      p : Prog Unit).wp (turnView cpus iterations i) Q t := by
  have stores : (mallocStores size).All ((turnView cpus iterations i).Preserves fun u => u = t) :=
    all_mallocStores (fun _ => turn_keeps ⟨nofun, trivial⟩ fun _ => rfl)
      (fun _ => turn_keeps ⟨nofun, trivial⟩ fun _ => rfl) size
  have array : (setUpSharedArray b).All ((turnView cpus iterations i).Preserves fun u => u = t) := by
    refine Program.All.bind ((Program.all_call _).mpr (turn_keeps ⟨nofun, trivial⟩ fun _ => rfl)) fun saFlag => ?_
    split
    · exact ⟨turn_keeps ⟨nofun, trivial⟩ fun _ => rfl, fun _ => ⟨turn_keeps ⟨nofun, trivial⟩ fun _ => rfl, fun _ =>
        .forEach fun _ _ => (Program.all_call _).mpr (turn_keeps ⟨nofun, trivial⟩ fun _ => rfl)⟩⟩
    · trivial
  apply Program.wp_seq (wp_turn stores)
  rintro _ _ rfl
  apply Program.wp_seq (wp_turn array)
  rintro _ _ rfl
  exact rest

/-- A sample in the worker's turn. -/
def turnPhase : Phase → Nat → Turn → Prop
  | .recorded, _, t => t = { Turn.ready with opened := true }
  | _, _, t => t = .ready

theorem turn_sampling : Sampling b args true N (turnView cpus iterations i) (fun t => t = .ready) turnPhase where
  stable _ moved := moved.elim
  quiet {ph m o} quiet := by
    cases ph <;> exact turn_quiet quiet fun _ => rfl
  start {s size} _ ready := by
    subst ready
    exact wp_turn (all_mallocStores (fun _ => turn_keeps ⟨nofun, trivial⟩ fun _ => rfl)
      (fun _ => turn_keeps ⟨nofun, trivial⟩ fun _ => rfl) size)
  head _ := turn_keeps ⟨nofun, trivial⟩ fun _ => rfl
  takeTime {m s} _ _ ready := by
    obtain rfl : s = .ready := ready
    refine (Program.wp_act_still fun _ _ => id).mpr ⟨⟨fun _ => rfl, rfl⟩, fun tv t ⟨_, now⟩ => ?_⟩
    subst now
    refine (Program.wp_act_still fun _ _ => id).mpr ⟨⟨fun _ => rfl, rfl⟩, fun _ t ⟨_, now⟩ => ?_⟩
    exact (Program.wp_done_still fun _ _ => id).mpr now
  untimed untimed := by cases untimed
  window {m s measured} _ quiet ready := by
    obtain rfl : s = .ready := ready
    refine (Program.wp_act_still fun _ _ => id).mpr ⟨⟨fun _ => rfl, rfl⟩, fun _ t ⟨_, now⟩ => ?_⟩
    subst now
    have fine {o : Action} (other : ∀ r, Turn.step { Turn.ready with opened := true } o r =
        { Turn.ready with opened := true }) (allowed : Turn.Allows i { Turn.ready with opened := true } o) :
        (turnView cpus iterations i).Preserves (fun u => u = { Turn.ready with opened := true }) o :=
      turn_keeps allowed other
    have read (store : Buf) : (readValues b args.cpuMsr store).All
        ((turnView cpus iterations i).Preserves fun u => u = { Turn.ready with opened := true }) :=
      all_readValues fun _ _ => fine (fun _ => rfl) ⟨fun _ => rfl, trivial⟩
    have record : (recordDeltas b).All
        ((turnView cpus iterations i).Preserves fun u => u = { Turn.ready with opened := true }) :=
      all_recordDeltas (fine (fun _ => rfl) ⟨fun _ => rfl, trivial⟩) (fun _ => fine (fun _ => rfl) ⟨nofun, trivial⟩)
        (fun _ => fine (fun _ => rfl) ⟨nofun, trivial⟩) fun _ _ _ => fine (fun _ => rfl) ⟨fun _ => rfl, trivial⟩
    exact wp_turn ((read _).bind fun _ => (quiet.mono fun _ quiet => turn_quiet quiet fun _ => rfl).bind fun _ =>
      (read _).bind fun _ => record)
  incCounts {m s} _ opened := by
    obtain rfl : s = _ := opened
    refine (Program.wp_act_still fun _ _ => id).mpr ⟨⟨fun _ => rfl, rfl⟩, fun _ t ⟨_, now⟩ => ?_⟩
    exact (Program.wp_done_still fun _ _ => id).mpr now

theorem wp_waitForTurn (two : i < 2) (own : args.id = i) :
    (waitForThread0 args).wp (turnView cpus iterations i) (fun _ t => t = .ready) (.start i) := by
  unfold waitForThread0
  split
  · rename_i second
    obtain rfl : i = 1 := own.symm.trans second
    refine (Program.wp_act_still fun _ _ => id).mpr ⟨⟨nofun, rfl⟩, fun _ t ⟨_, now⟩ => ?_⟩
    exact (Program.wp_done_still fun _ _ => id).mpr now
  · rename_i first
    obtain rfl : i = 0 := by omega
    exact (Program.wp_done_still fun _ _ => id).mpr rfl

theorem wp_handOver (own : args.id = i) :
    (letThread1Run args).wp (turnView cpus iterations i) (fun _ _ => True) .ready := by
  unfold letThread1Run
  split
  · rename_i first
    refine (Program.wp_act_still fun _ _ => id).mpr ⟨⟨nofun, own.symm.trans first, rfl⟩, fun _ _ _ _ _ => trivial⟩
  · exact fun _ _ => trivial

theorem wp_body_inTurn {bm : Benchmark} (gated : bm.gated = true) (two : i < 2) (own : args.id = i) :
    (bm.body b args).wp (turnView cpus iterations i) (fun _ _ => True) (.start i) := by
  have S {N : Nat} : Sampling b args true N (turnView cpus iterations i) (fun t => t = .ready) turnPhase := turn_sampling
  have hand {m : Nat} {t : Turn} (idle : turnPhase .idle m t) :
      (letThread1Run args).wp (turnView cpus iterations i) (fun _ _ => True) t := by
    obtain rfl : t = .ready := idle
    exact wp_handOver own
  cases bm with
  | bmSingleDArrayMultithreadedT1 =>
    apply wp_beforeTurn
    apply Program.wp_seq (wp_waitForTurn two own)
    intro _ t ready
    exact Program.wp_seq
      (S.wp_timedLoop (N := args.iterations) (m := 0) rfl (by omega) ready) fun _ _ => hand
  | bmSingleDArrayMultithreadedT2 =>
    apply wp_beforeTurn
    apply Program.wp_seq (wp_waitForTurn two own)
    intro _ t ready
    apply Program.wp_seq (S.wp_timedLoop (N := args.iterations / 2 + 1 + args.iterations / 2) (m := 0) rfl (by omega) ready)
    intro _ t idle
    apply Program.wp_seq (S.wp_timedSample (N := args.iterations / 2 + 1 + args.iterations / 2) rfl (by omega)
      (quiet_writeShared ..) idle)
    intro _ t idle
    exact Program.wp_seq
      (S.wp_timedLoop (N := args.iterations / 2 + 1 + args.iterations / 2) rfl (by omega) idle) fun _ _ => hand
  | _ => cases gated

theorem wp_worker_inTurn (two : cpus.length = 2) (gated : ∀ i < 2, (func i).gated = true) :
    (worker b (func i)).wp (turnView cpus iterations i) (fun _ _ => True) (.start i) := by
  refine (Program.wp_act_still fun _ _ => id).mpr ⟨⟨nofun, rfl⟩, fun args t ⟨given, now⟩ => ?_⟩
  obtain ⟨bound, rfl⟩ := given
  subst now
  rw [two] at bound
  show ((func i).body b _ >>= fun _ => perform .threadExit).wp (turnView cpus iterations i) _ _
  apply Program.wp_seq (wp_body_inTurn (gated i bound) bound rfl)
  intro _ t _
  exact (Program.wp_act_still fun _ _ => id).mpr ⟨⟨nofun, trivial⟩, fun _ _ _ _ _ => trivial⟩

/-- After the hand-over no path of thread 0's program leads to a sample. -/
theorem all_handedOver {α : Type} {p : Prog α} {Q : α → Turn → Prop} {t : Turn}
    (h : p.wp (turnView cpus iterations 0) Q t) (ended : t.go = false) : p.All fun o => ¬ o.samples = true := by
  induction p generalizing t with
  | done a => trivial
  | act o next ih =>
    obtain ⟨allowed, rest⟩ := Program.wp_now h
    refine ⟨fun sample => ?_, fun r => ih r (rest r (t.step o r) ⟨?_, rfl⟩) (InTurn.go_zero allowed ended)⟩
    · rw [allowed.1 sample] at ended
      cases ended
    · cases o with
      | threadStart =>
        obtain rfl : t = .start 0 := allowed.2
        cases ended
      | _ => trivial

end

/-! ### The order of the samples and of the log -/

/-- The thread and the time stamp of each row of the log. -/
def rowsOf (log : List Piece) : List (Nat × Word) :=
  log.filterMap fun
    | .row tid time => some (tid, time)
    | _ => none

theorem rowsOf_csv (threads : Nat) (prof : Nat → Profile) : rowsOf (csv b threads prof) =
    (List.range threads).flatMap fun i => (List.range (prof i).counts).map fun j => (i, (prof i).times.getD j 0) := by
  have silent (f : Nat → Piece) (other : ∀ c tid time, f c ≠ .row tid time) (l : List Nat) : rowsOf (l.map f) = [] := by
    unfold rowsOf
    rw [List.filterMap_map, List.filterMap_eq_nil_iff]
    intro c _
    cases piece : f c with
    | row tid time => exact (other c tid time piece).elim
    | _ => simp [piece]
  have append (l m : List Piece) : rowsOf (l ++ m) = rowsOf l ++ rowsOf m := List.filterMap_append
  have row (i : Nat) (p : Profile) (j : Nat) : rowsOf (csvRow b i p j) = [(i, p.times.getD j 0)] := by
    rw [csvRow, append, append, silent]
    · rfl
    · simp
  have rows (i : Nat) (p : Profile) :
      rowsOf (csvRows b i p) = (List.range p.counts).map fun j => (i, p.times.getD j 0) := by
    unfold rowsOf csvRows
    rw [List.filterMap_flatMap, List.map_eq_flatMap]
    exact List.flatMap_congr fun j _ => row i p j
  have header : rowsOf (csvHeader b) = [] := by
    rw [csvHeader, append, append, silent]
    · rfl
    · simp
  rw [csv, append, header, List.nil_append]
  unfold rowsOf
  rw [List.filterMap_flatMap]
  exact List.flatMap_congr fun i _ => rows i (prof i)

/-- The two threads sample one after the other, and the log is in the order of time. -/
structure Serialised (tr : List (Ev hw)) (c : Config Tid Action Action.Res World) : Prop where
  waits : (∃ e ∈ tr, sampledBy 1 e = true) → ¬ (c.pool (.worker 0)).May fun o => o.samples = true
  order : ∀ before e after, tr = before ++ e :: after → sampledBy 1 e = true → ∀ e' ∈ after, sampledBy 0 e' = false
  closed : (∃ e ∈ tr, sampledBy 1 e = true) → tr.countP (opensWindow 0) = tr.countP (closesWindow 0)
  log : Closing c → ∀ log, c.state.file = some log → (rowsOf log).Pairwise fun r r' => r.1 ≤ r'.1 ∧ r.2 ≤ r'.2

theorem pairwise_rows {prof : Nat → Profile} (timed : ∀ i < 2, (prof i).counts ≤ (prof i).times.length)
    (sorted : ∀ i, (prof i).times.Pairwise (· ≤ ·)) (between : ∀ x ∈ (prof 0).times, ∀ y ∈ (prof 1).times, x ≤ y) :
    (rowsOf (csv b 2 prof)).Pairwise fun r r' => r.1 ≤ r'.1 ∧ r.2 ≤ r'.2 := by
  have rows {i : Nat} (bound : i < 2) : ((List.range (prof i).counts).map fun j => (i, (prof i).times.getD j 0)) =
      ((prof i).times.take (prof i).counts).map fun w => (i, w) := by
    have enough := timed i bound
    apply List.ext_getElem
    · simp [enough]
    · intro j first second
      have below : j < (prof i).times.length := by
        simp only [List.length_map, List.length_range] at first
        omega
      simp [below]
  have own (i : Nat) : (((prof i).times.take (prof i).counts).map fun w => (i, w)).Pairwise
      fun r r' => r.1 ≤ r'.1 ∧ r.2 ≤ r'.2 := by
    apply List.pairwise_map.mpr
    exact ((sorted i).take).imp fun le => ⟨Nat.le_refl _, le⟩
  have split : rowsOf (csv b 2 prof) =
      ((prof 0).times.take (prof 0).counts).map (fun w => (0, w)) ++
        ((prof 1).times.take (prof 1).counts).map fun w => (1, w) := by
    rw [rowsOf_csv, ← rows (by decide), ← rows (by decide)]
    simp [List.range_succ]
  rw [split]
  refine List.pairwise_append.mpr ⟨own 0, own 1, ?_⟩
  intro r first r' second
  obtain ⟨x, member, rfl⟩ := List.mem_map.mp first
  obtain ⟨y, member', rfl⟩ := List.mem_map.mp second
  exact ⟨Nat.zero_le _, between x (List.mem_of_mem_take member) y (List.mem_of_mem_take member')⟩

/-- `can_run` serialises the two measured phases. -/
theorem canRun_serialises (two : cpus.length = 2) (gated : ∀ i < 2, (func i).gated = true) {s : World}
    (initial : s.Initial) {C : List (Ev hw) → World → Ev hw → Prop} {tr : List (Ev hw)}
    {c : Config Tid Action Action.Res World} (run : (process b hw).Run C ⟨s, pool b cpus func iterations⟩ tr c) :
    Serialised tr c := by
  have empty (i : Nat) : series i ([] : List (Ev hw)) s = [] := by
    rw [series, initial.times i]
    rfl
  have start : InTurn cpus iterations ([] : List (Ev hw)) s := by
    constructor
    · exact initial.created
    · intro on
      rw [initial.canRun] at on
      cases on
    · nofun
    · nofun
    · rfl
    · nofun
    · exact .nil
    · exact fun _ => empty 1
    · intro i; rw [empty]; exact .nil
    · intro i; rw [empty]; nofun
    · rw [empty]; nofun
  have proved := (turnGuarantee b hw C cpus iterations).run (fun _ _ _ => True) run start fun t => by
    cases t with
    | main => exact main_spawns b cpus iterations
    | worker i => exact wp_worker_inTurn two gated
  obtain ⟨held, threads⟩ := proved
  have ended (sampled : ∃ e ∈ tr, sampledBy 1 e = true) : (turn 0 tr).go = false := by
    obtain ⟨e, member, sample⟩ := sampled
    exact held.released (held.second e member sample)
  refine ⟨fun sampled => ?_, ?_, fun sampled => ?_, fun closing log written => ?_⟩
  · exact Program.not_may_of_all (all_handedOver (threads (.worker 0)) (ended sampled))
  · rintro before e after rfl sampled e' member
    have later := (List.pairwise_append.mp held.order).2.1
    exact (List.pairwise_cons.mp later).1 e' member sampled
  · rw [held.balanced, held.closed (ended sampled)]
    rfl
  · have complete := csv_of_closing initial run closing
    rw [two] at complete
    rw [complete.file log written]
    have recorded {i : Nat} {x : Word} (member : x ∈ (c.state.worker i).mem.prof.times) :
        x ∈ series i tr c.state := List.mem_append_left _ member
    refine pairwise_rows complete.timed (fun i => (List.pairwise_append.mp (held.sorted i)).1) ?_
    exact fun x first y second => held.between x (recorded first) y (recorded second)

/-- Both threads take their only sample one after the other, and `main` writes its log. -/
theorem canRun_serialises_once : ∃ (tr : List (Ev .exact)) (c : Config Tid Action Action.Res World),
    (process oneElement .exact).Run (fun _ _ _ => True)
      ⟨.idle, pool oneElement [1, 2] (fun _ => .bmSingleDArrayMultithreadedT1) fun _ => 1⟩ tr c ∧
      Closing c ∧ tr.any (sampledBy 1) = true ∧ Serialised tr c := by
  have played : (playFrom oneElement .exact (fun _ _ _ => true) [1, 2] (fun _ => .bmSingleDArrayMultithreadedT1)
      (fun _ => 1) .idle (List.replicate 114 (.inl .main) ++ List.replicate 66 (.inl (.worker 0)) ++ [.inr (.clock 7)] ++
        List.replicate 63 (.inl (.worker 1)) ++ List.replicate 42 (.inl .main))).any
      (fun x => closes x.2 && x.1.any (sampledBy 1)) = true := by decide +kernel
  obtain ⟨⟨tr, c⟩, found, here⟩ := (Option.any_eq_true ..).mp played
  rw [Bool.and_eq_true] at here
  have closing : Closing c := closing_of_closes here.1
  have run := (player oneElement .exact).play_run (C := fun _ _ _ => True) (fun _ _ _ _ => trivial) .start found
  exact ⟨tr, c, run, closing, here.2, canRun_serialises rfl (fun _ _ => rfl) World.idle_initial run⟩

end PmcBench
