import PmcBench.Quiescence
import PmcBench.Sampling
import PmcBench.Workers

/-!
# What main writes to its log

`csv` is the log for given profiles. `csv_of_closing` shows of every run of the process
that `main` has written the log of the profiles as they are when it closes the file: it
prints a thread's rows after the thread has finished, and nothing changes a profile then.
-/

namespace PmcBench
open Threads
open Program (forEach)

variable {b : Build} {hw : Pmu} {cpus : List Cpu} {func : Nat → Benchmark} {iterations : Nat → Nat}

def csvHeader (b : Build) : List Piece :=
  [.tidTime] ++ (columns b).map (fun c => .name (b.counterTbl.row c).name) ++ [.newline]

def csvRow (b : Build) (i : Nat) (p : Profile) (j : Nat) : List Piece :=
  [.row i (p.times.getD j 0)] ++ (columns b).map (fun c => .value (p.values (c * b.maxPts + j))) ++ [.newline]

def csvRows (b : Build) (i : Nat) (p : Profile) : List Piece := (List.range p.counts).flatMap (csvRow b i p)

def csv (b : Build) (threads : Nat) (prof : Nat → Profile) : List Piece :=
  csvHeader b ++ (List.range threads).flatMap fun i => csvRows b i (prof i)

/-! ### Printing, in any view of the log -/

/-- A view in which `main` prints: `W l` says that `l` is in the log. -/
structure Prints (V : View Action Action.Res) (W : List Piece → V.St → Prop) : Prop where
  moves : ∀ {l t u}, W l t → V.rely t u → W l u
  fprintf : ∀ {l t} p, W l t → V.allow t (.fprintf p) ∧ ∀ r u, V.next t (.fprintf p) r u → W (l ++ [p]) u

/-- It also shows that the profile of thread `i` is `p`; the time stamps it may be asked for
are `asked`. -/
structure PrintsThread (b : Build) (V : View Action Action.Res) (W : List Piece → V.St → Prop) (i : Nat) (p : Profile)
    (asked : Nat → Prop) : Prop extends Prints V W where
  argsCounts : ∀ {l t}, W l t → V.allow t (.argsCounts i) ∧
    ∀ r u, V.next t (.argsCounts i) r u → r = p.counts ∧ W l u
  argsTimes : ∀ {l t j}, asked j → W l t → V.allow t (.argsTimes i j) ∧
    ∀ r u, V.next t (.argsTimes i j) r u → p.times[j]? = some r ∧ W l u
  argsValues : ∀ {l t c j}, W l t → V.allow t (.argsValues i c j) ∧
    ∀ r u, V.next t (.argsValues i c j) r u → r = p.values (c * b.maxPts + j) ∧ W l u

namespace Prints
open Relation
variable {V : View Action Action.Res} {W : List Piece → V.St → Prop} {l : List Piece} {t u : V.St}

theorem moved (h : Prints V W) (wrote : W l t) (moved : ReflTransGen V.rely t u) : W l u := by
  induction moved with
  | refl => exact wrote
  | tail _ step ih => exact h.moves ih step

theorem wp_wrote (h : Prints V W) (wrote : W l t) : (Program.done ()).wp V (fun _ => W l) t :=
  fun _ moved => h.moved wrote moved

theorem wp_fprintf (h : Prints V W) {α : Type} {p : Piece} {next : Unit → Prog α} {Q : α → V.St → Prop} (wrote : W l t)
    (rest : ∀ u, W (l ++ [p]) u → (next ()).wp V Q u) : (Program.act (.fprintf p) next).wp V Q t := by
  intro u moved
  obtain ⟨allowed, printed⟩ := h.fprintf p (h.moved wrote moved)
  exact ⟨allowed, fun r w step => rest w (printed r w step)⟩

theorem wp_forEach (h : Prints V W) {ι : Type} {body : ι → Prog Unit} (out : ι → List Piece) (is : List ι)
    (one : ∀ i ∈ is, ∀ l t, W l t → (body i).wp V (fun _ => W (l ++ out i)) t) (wrote : W l t) :
    (forEach is body).wp V (fun _ => W (l ++ is.flatMap out)) t := by
  induction is generalizing l t with
  | nil =>
    rw [List.flatMap_nil, List.append_nil]
    exact h.wp_wrote wrote
  | cons i rest ih =>
    rw [List.flatMap_cons, ← List.append_assoc]
    refine Program.wp_seq (one i List.mem_cons_self l t wrote) fun _ u after => ih (fun j member => ?_) after
    exact one j (List.mem_cons_of_mem i member)

theorem wp_printHeader (h : Prints V W) (wrote : W l t) :
    (printHeader b).wp V (fun _ => W (l ++ csvHeader b)) t := by
  simp only [printHeader, csvHeader, Program.call_bind, List.map_eq_flatMap]
  rw [← List.append_assoc, ← List.append_assoc]
  refine h.wp_fprintf wrote fun t wrote => Program.wp_bind.mpr ?_
  refine Program.wp_mono (h.wp_forEach (fun c => [.name (b.counterTbl.row c).name]) _ (fun c _ l t wrote => ?_) wrote)
    fun _ t wrote => ?_
  · exact h.wp_fprintf wrote fun u => h.wp_wrote
  · exact h.wp_fprintf wrote fun u => h.wp_wrote

end Prints

namespace PrintsThread
variable {V : View Action Action.Res} {W : List Piece → V.St → Prop} {i : Nat} {p : Profile} {asked : Nat → Prop}
  {l : List Piece} {t : V.St}

theorem wp_printRow (h : PrintsThread b V W i p asked) {j : Nat} (enough : asked j) (wrote : W l t) : (do
      let time ← perform (.argsTimes i j)
      perform (.fprintf (.row i time))
      forEach (columns b) fun c => do
        let v ← perform (.argsValues i c j)
        perform (.fprintf (.value v))
      perform (.fprintf .newline) : Prog Unit).wp V
    (fun _ u => j < p.times.length ∧ W (l ++ csvRow b i p j) u) t := by
  simp only [csvRow, Program.call_bind, List.map_eq_flatMap]
  rw [← List.append_assoc, ← List.append_assoc]
  intro u moved
  obtain ⟨allowed, found⟩ := h.argsTimes enough (h.moved wrote moved)
  refine ⟨allowed, fun time w step => ?_⟩
  obtain ⟨there, wrote⟩ := found time w step
  have value : p.times.getD j 0 = time := by
    rw [List.getD_eq_getElem?_getD, there]
    rfl
  rw [value]
  refine h.wp_fprintf wrote fun t wrote => Program.wp_bind.mpr ?_
  refine Program.wp_mono (h.wp_forEach (fun c => [.value (p.values (c * b.maxPts + j))]) _ (fun c _ l t wrote => ?_) wrote)
    fun _ t wrote => ?_
  · intro u moved
    obtain ⟨allowed, read⟩ := h.argsValues (h.moved wrote moved)
    refine ⟨allowed, fun v w step => ?_⟩
    obtain ⟨rfl, wrote⟩ := read v w step
    exact h.wp_fprintf wrote fun u => h.wp_wrote
  · refine h.wp_fprintf wrote fun u wrote => Program.wp_mono (h.wp_wrote wrote) fun _ _ wrote => ⟨?_, wrote⟩
    exact (List.getElem?_eq_some_iff.mp there).1

theorem wp_printRows (h : PrintsThread b V W i p asked) (enough : ∀ j < p.counts, asked j) (wrote : W l t) :
    (printRows b i).wp V (fun _ u => p.counts ≤ p.times.length ∧ W (l ++ csvRows b i p) u) t := by
  intro u moved
  obtain ⟨allowed, read⟩ := h.argsCounts (h.moved wrote moved)
  refine ⟨allowed, fun n w step => ?_⟩
  obtain ⟨rfl, wrote⟩ := read n w step
  refine Program.wp_forEach_range (I := fun j u => j ≤ p.times.length ∧
    W (l ++ (List.range j).flatMap (csvRow b i p)) u) ⟨Nat.zero_le _, by simpa using wrote⟩ ?_ ?_ fun u wrote => wrote
  · rintro j t u ⟨bound, wrote⟩ moved
    exact ⟨bound, h.moves wrote moved⟩
  · rintro j t below ⟨-, wrote⟩
    refine Program.wp_mono (h.wp_printRow (enough j below) wrote) fun _ u ⟨bound, wrote⟩ => ⟨bound, ?_⟩
    rwa [List.range_succ, List.flatMap_append, List.flatMap_singleton, ← List.append_assoc]

end PrintsThread

/-! ### main's view of its log -/

structure Desk where
  file : Option (List Piece)
  prof : Nat → Profile
  finished : Nat → Bool

namespace Desk

/-- Finished threads and their profiles stay as they are. -/
def Later (v v' : Desk) : Prop := ∀ i, v.finished i = true → v'.prof i = v.prof i ∧ v'.finished i = true

/-- Since `v`, and what is in the file if there is one. -/
def Wrote (v : Desk) (l : List Piece) (v' : Desk) : Prop := v.Later v' ∧ ∀ log, v'.file = some log → log = l

/-- The first `n` threads have finished, and their rows are in the log. -/
structure Complete (b : Build) (n : Nat) (v : Desk) : Prop where
  finished : ∀ i < n, v.finished i = true
  timed : ∀ i < n, (v.prof i).counts ≤ (v.prof i).times.length
  file : ∀ log, v.file = some log → log = csv b n v.prof

theorem Later.refl (v : Desk) : v.Later v := fun _ done => ⟨rfl, done⟩

theorem Later.trans {v v' v'' : Desk} (first : v.Later v') (second : v'.Later v'') : v.Later v'' := by
  intro i done
  obtain ⟨same, done'⟩ := first i done
  obtain ⟨same', done''⟩ := second i done'
  exact ⟨same'.trans same, done''⟩

end Desk

/-- Workers change the profile of a thread that has not finished. The log is closed when
it is complete. -/
abbrev logView (b : Build) (threads : Nat) : View Action Action.Res where
  St := Desk
  rely v v' := v'.file = v.file ∧ v.Later v'
  allow v o := o = .fclose → v.Complete b threads
  next v
    | .join i, _, v' => v.finished i = true ∧ v' = v
    | .argsCounts i, r, v' => r = (v.prof i).counts ∧ v' = v
    | .argsTimes i j, r, v' => (v.prof i).times[j]? = some r ∧ v' = v
    | .argsValues i c j, r, v' => r = (v.prof i).values (c * b.maxPts + j) ∧ v' = v
    | .fopen, ok, v' => v' = { v with file := if ok then some [] else none }
    | .fprintf p, _, v' => ∃ log, v.file = some log ∧ v' = { v with file := some (log ++ [p]) }
    | _, _, v' => v' = v

namespace Desk
open Relation
variable {threads : Nat} {v t : Desk} {l : List Piece}

theorem prints (b : Build) (threads : Nat) (v : Desk) : Prints (logView b threads) v.Wrote where
  moves {l t u} wrote step := by
    obtain ⟨same, later⟩ := step
    refine ⟨wrote.1.trans later, ?_⟩
    rw [same]
    exact wrote.2
  fprintf {l t} p wrote := by
    refine ⟨nofun, fun _ u step => ?_⟩
    obtain ⟨log, here, rfl⟩ := step
    refine ⟨wrote.1, fun log' same => ?_⟩
    obtain rfl := Option.some.inj same
    rw [wrote.2 log here]

/-- The profile of a finished thread is shown as it was. -/
theorem printsThread {i : Nat} (done : v.finished i = true) :
    PrintsThread b (logView b threads) v.Wrote i (v.prof i) fun _ => True where
  toPrints := prints b threads v
  argsCounts {l t} wrote := by
    refine ⟨nofun, fun r u step => ?_⟩
    obtain ⟨rfl, rfl⟩ := step
    exact ⟨by rw [(wrote.1 i done).1], wrote⟩
  argsTimes {l t j} _ wrote := by
    refine ⟨nofun, fun r u step => ?_⟩
    obtain ⟨found, rfl⟩ := step
    rw [(wrote.1 i done).1] at found
    exact ⟨found, wrote⟩
  argsValues {l t c j} wrote := by
    refine ⟨nofun, fun r u step => ?_⟩
    obtain ⟨rfl, rfl⟩ := step
    exact ⟨by rw [(wrote.1 i done).1], wrote⟩

theorem Complete.moves {n : Nat} (h : t.Complete b n) {u : Desk}
    (moved : ReflTransGen (logView b threads).rely t u) : u.Complete b n := by
  induction moved with
  | refl => exact h
  | tail _ step ih =>
    obtain ⟨same, later⟩ := step
    refine ⟨fun i bound => (later i (ih.finished i bound)).2, fun i bound => ?_, fun log here => ?_⟩
    · rw [(later i (ih.finished i bound)).1]
      exact ih.timed i bound
    · rw [same] at here
      rw [ih.file log here]
      unfold csv
      congr 1
      apply List.flatMap_congr
      intro i member
      rw [(later i (ih.finished i (List.mem_range.mp member))).1]

theorem wp_joined {n : Nat} (h : t.Complete b n) : (do
      perform (.join n)
      printRows b n : Prog Unit).wp (logView b threads) (fun _ => Complete b (n + 1)) t := by
  intro u moved
  refine ⟨nofun, fun _ v step => ?_⟩
  have before := h.moves moved
  obtain ⟨done, rfl⟩ := step
  apply Program.wp_mono ((printsThread done).wp_printRows (fun _ _ => trivial) ⟨.refl v, before.file⟩)
  rintro _ w ⟨timed, later, file⟩
  have same {i : Nat} (bound : i < n + 1) : w.prof i = v.prof i ∧ w.finished i = true := by
    apply later
    rcases Nat.lt_succ_iff_lt_or_eq.mp bound with earlier | rfl
    · exact before.finished i earlier
    · exact done
  refine ⟨fun i bound => (same bound).2, fun i bound => ?_, fun log here => ?_⟩
  · rw [(same bound).1]
    rcases Nat.lt_succ_iff_lt_or_eq.mp bound with earlier | rfl
    · exact before.timed i earlier
    · exact timed
  · rw [file log here, csv, csv, List.range_succ, List.flatMap_append, List.flatMap_singleton, ← List.append_assoc,
      (same (Nat.lt_succ_self n)).1]
    congr 2
    apply List.flatMap_congr
    intro i member
    rw [(same (Nat.lt_succ_of_lt (List.mem_range.mp member))).1]

theorem wp_writeLog : (writeLog b threads).wp (logView b threads) (fun _ => Complete b threads) t := by
  have loop {u v : Desk} (h : v.Wrote (csvHeader b) u) :
      (forEach (List.range threads) fun i => do
        perform (.join i)
        printRows b i).wp (logView b threads) (fun _ => Complete b threads) u := by
    have start : Complete b 0 u := by
      refine ⟨nofun, nofun, fun log here => ?_⟩
      rw [h.2 log here]
      simp [csv]
    exact Program.wp_forEach_range (I := fun n => Complete b n) start (fun n v w held moved => held.moves (.single moved))
      (fun n v _ held => wp_joined held) fun v held => held
  unfold writeLog
  rw [Program.call_bind]
  intro u moved
  refine ⟨nofun, fun ok v opened => ?_⟩
  obtain rfl : v = _ := opened
  cases ok with
  | true =>
    have empty : Wrote { u with file := some [] } [] { u with file := some [] } :=
      ⟨.refl _, fun log here => (Option.some.inj here).symm⟩
    show (printHeader b >>= fun _ => _).wp _ _ _
    exact Program.wp_seq ((prints b threads _).wp_printHeader empty) fun _ w h => loop h
  | false => exact loop (v := { u with file := none }) ⟨.refl _, nofun⟩

/-- Before the log `main` only programs the counters and creates the threads, and after it
only clears the counters. -/
theorem wp_main : (main b cpus iterations).wp (logView b cpus.length) (fun _ => Complete b cpus.length) t := by
  have still {K : Desk → Prop} {o : Action} (stays : ∀ v r w, (logView b cpus.length).next v o r w → w = v)
      (other : o ≠ .fclose) : (logView b cpus.length).Preserves K o := by
    refine fun v held => ⟨fun same => (other same).elim, fun r w step => ?_⟩
    rw [stays v r w step]
    exact held
  have rounds {K : Desk → Prop} (set : Bool) (cpu : Cpu) :
      (round b set cpu).All ((logView b cpus.length).Preserves K) :=
    all_round (fun _ => still (fun _ _ _ => id) nofun) (fun _ _ => still (fun _ _ _ => id) nofun)
      (fun _ _ _ _ => still (fun _ _ _ => id) nofun) (still (fun _ _ _ => id) nofun) set cpu
  have create (h : Nat → Option Cpu) {t : Desk} :
      (createThreads h cpus iterations).wp (logView b cpus.length) (fun _ _ => True) t :=
    Program.wp_allowed (.forEach fun i _ => ⟨nofun, fun _ => ⟨nofun, fun _ => trivial⟩⟩)
  apply Program.wp_seq (Program.wp_allowed ((Program.all_call _).mpr (by nofun)))
  intro _ t _
  apply Program.wp_bind.mpr
  refine wp_configureCounters (I := fun _ => True) trivial (fun _ _ _ _ => trivial) nofun (rounds true)
    fun handles t listed _ => ?_
  apply Program.wp_seq (create handles)
  intro _ t _
  apply Program.wp_seq wp_writeLog
  intro _ t done
  unfold cleanUp
  rw [Program.call_bind]
  intro u moved
  have done := done.moves moved
  refine ⟨fun _ => done, fun _ v step => ?_⟩
  obtain rfl : v = u := step
  apply Program.wp_bind.mpr
  refine wp_configureCounters (I := Complete b cpus.length) done (fun v w held moved => held.moves (.single moved))
    (fun _ => listed) (rounds false) fun h v _ done => ?_
  exact fun w moved => done.moves moved

end Desk

/-! ### The run -/

def exited (i : Nat) (tr : List (Ev hw)) : Bool :=
  tr.any fun
    | .act (.worker j) o _ => decide (j = i ∧ o = .threadExit)
    | _ => false

theorem exited_snoc (i : Nat) (tr : List (Ev hw)) (e : Ev hw) : exited i (tr ++ [e]) = (exited i tr || exited i [e]) :=
  List.any_append

/-- A worker does nothing after its end. -/
abbrev exitView : View Action Action.Res :=
  .typestate (fun gone _ => gone = false) fun (gone : Bool) o _ => gone || decide (o = .threadExit)

theorem wp_worker_exits {bm : Benchmark} : (worker b bm).wp exitView (fun _ _ => True) false := by
  have kept (o : Action) (_ : o ≠ .threadStart) (exit : o ≠ .threadExit) :
      exitView.Preserves (fun gone => gone = false) o := by
    rintro gone rfl
    refine ⟨rfl, fun r t now => ?_⟩
    have now : t = (false || decide (o = .threadExit)) := now
    rw [now, decide_eq_false exit]
    rfl
  refine (Program.wp_act_still fun _ _ => id).mpr ⟨rfl, fun args t now => ?_⟩
  obtain rfl : t = false := now
  show (bm.body b args >>= fun _ => perform .threadExit).wp exitView _ _
  have S : Sampling b args bm.timed (bm.samples args.iterations) exitView _ _ :=
    .constant (fun _ moved => moved.elim) kept
  apply Program.wp_seq (S.wp_body (Sampling.constant_passes kept) rfl (Nat.le_refl _) rfl)
  rintro _ gone rfl
  exact (Program.wp_act_still fun _ _ => id).mpr ⟨rfl, fun _ _ _ _ _ => trivial⟩

/-- What main sees of its log in the world. -/
def desk (s : World) : Desk := ⟨s.file, fun i => (s.worker i).mem.prof, fun i => (s.worker i).finished⟩

theorem desk_main {s s' : World} {threads : Nat} {o : Action} {r : o.Res} (step : s.actMain b o r s') :
    (logView b threads).next (desk s) o r (desk s') := by
  have same (file : s'.file = s.file) : desk s' = desk s := by
    unfold desk
    rw [file]
    congr 1
    · funext i; rw [World.actMain_mem step]
    · funext i; rw [World.actMain_finished step]
  cases o
  case join => obtain ⟨done, rfl⟩ := step; exact ⟨done, rfl⟩
  case argsCounts | argsTimes | argsValues => obtain ⟨read, rfl⟩ := step; exact ⟨read, rfl⟩
  case fopen => rw [show s' = _ from step]; rfl
  case fprintf => obtain ⟨log, opened, rfl⟩ := step; exact ⟨log, opened, rfl⟩
  case openMsr => obtain rfl : s' = s := step; rfl
  case assert | fclose | msrRead => obtain ⟨-, rfl⟩ := step; rfl
  case msrWrite => rcases step with ⟨-, rfl⟩ | ⟨-, rfl⟩ <;> rfl
  case createThread => exact same (by rw [show s' = _ from step]; rfl)
  case pinThread who cpu =>
    cases who with
    | main => obtain rfl : s' = s := step; rfl
    | worker i => exact same (by rw [show s' = _ from step]; rfl)
  all_goals exact step.elim

theorem desk_move {s s' : World} {e : Move hw} (step : s.move e s') : desk s' = desk s := by
  have file : s'.file = s.file := by
    cases e with
    | tick cpu tick => rw [show s' = _ from step]
    | clock now => rw [step.2]
    | migrate i cpu => rw [step.2]; rfl
  unfold desk
  rw [file]
  congr 1
  · funext i; rw [World.move_mem step]
  · funext i; rw [(World.move_record step i).2]

def logGuarantee (b : Build) (hw : Pmu) (C : List (Ev hw) → World → Ev hw → Prop) (threads : Nat) :
    RelyGuarantee (process b hw) C where
  view
    | .main => logView b threads
    | .worker _ => exitView
  abs
    | .main, _, s => desk s
    | .worker i, tr, _ => exited i tr
  inv tr s := ∀ i, (s.worker i).finished = true → exited i tr = true
  own {t tr s o r s'} held allowed ok step := by
    cases t with
    | main => exact desk_main step
    | worker i =>
      show exited i (tr ++ [_]) = _
      rw [exited_snoc]
      simp [exited]
  others {t u tr s o r s'} different held allowed ok step := by
    cases u with
    | main =>
      cases t with
      | main => exact (different rfl).elim
      | worker i =>
        have frame := World.actWorker_frame step
        refine .single ⟨frame.file, fun j done => ?_⟩
        have other : j ≠ i := by
          rintro rfl
          have notYet : exited j tr = false := allowed
          rw [held j done] at notYet
          cases notYet
        have same := frame.others j other
        exact ⟨congrArg (fun w => w.mem.prof) same, (congrArg Worker.finished same).trans done⟩
    | worker j =>
      show Relation.ReflTransGen _ (exited j tr) (exited j (tr ++ [_]))
      have silent : exited j [(.act t o r : Ev hw)] = false := by
        cases t with
        | main => rfl
        | worker i =>
          have other : i ≠ j := fun same => different (by rw [same])
          simp [exited, other]
      rw [exited_snoc, silent, Bool.or_false]
  moves {u tr s e s'} held ok step := by
    cases u with
    | main =>
      show Relation.ReflTransGen _ (desk s) (desk s')
      rw [desk_move step]
    | worker j =>
      show Relation.ReflTransGen _ (exited j tr) (exited j (tr ++ [_]))
      rw [exited_snoc, show exited j [(.env e : Ev hw)] = false from rfl, Bool.or_false]
  inv_act {t tr s o r s'} held allowed ok step := by
    intro j done
    rw [exited_snoc]
    cases t with
    | main =>
      have before : (s.worker j).finished = true := by
        rw [← World.actMain_finished step j]
        exact done
      rw [held j before, Bool.true_or]
    | worker i =>
      rw [World.actWorker_finished step, Bool.or_eq_true, decide_eq_true_eq] at done
      rcases done with before | ⟨rfl, rfl⟩
      · rw [held j before, Bool.true_or]
      · simp [exited]
  inv_env {tr s e s'} held ok step := by
    intro j done
    have before : (desk s).finished j = true := by
      rw [← desk_move step]
      exact done
    rw [exited_snoc, held j before, Bool.true_or]

/-- `main` is about to close its log, or has ended. -/
def Closing (c : Config Tid Action Action.Res World) : Prop :=
  (∃ next, c.pool .main = .act .fclose next) ∨ c.pool .main = .done ()

def closes (c : Config Tid Action Action.Res World) : Bool :=
  match c.pool .main with
  | .act .fclose _ => true
  | _ => false

theorem closing_of_closes {c : Config Tid Action Action.Res World} (h : closes c = true) : Closing c := by
  unfold closes at h
  split at h
  · rename_i next here
    exact Or.inl ⟨next, here⟩
  · cases h

/-- When `main` closes its log all threads have finished, and the log is that of their profiles. -/
theorem csv_of_closing {C : List (Ev hw) → World → Ev hw → Prop} {s : World} (initial : s.Initial) {tr : List (Ev hw)}
    {c : Config Tid Action Action.Res World}
    (run : (process b hw).Run C ⟨s, pool b cpus func iterations⟩ tr c) (closing : Closing c) :
    (desk c.state).Complete b cpus.length := by
  have start (i : Nat) (done : (s.worker i).finished = true) : exited i ([] : List (Ev hw)) = true := by
    rw [initial.finished i] at done
    cases done
  have proved := (logGuarantee b hw C cpus.length).run
    (fun t => match t with | .main => fun _ v => v.Complete b cpus.length | .worker _ => fun _ _ => True) run start
    fun t => by
      cases t with
      | main => exact Desk.wp_main
      | worker i => exact wp_worker_exits
  have main := proved.2 .main
  rcases closing with ⟨next, here⟩ | here
  · rw [here] at main
    exact (Program.wp_now main).1 rfl
  · rw [here] at main
    exact main _ .refl

end PmcBench
