import PmcBench.Bookkeeping
import PmcBench.Postcondition

/-!
# How main leaves the counters

The three ways `main` ends: `configure_counters` throws because a device does not open;
the process crashes while it writes the log; `main` returns after clearing the counters.
`cleanEnd_iff` says for which failures and which benchmarks no CPU is left counting.
-/

namespace PmcBench
open Threads
open Program (forEach)

variable {b : Build} {luck : Luck} {cpus : List Cpu} {func : Nat → Benchmark} {iterations : Nat → Nat}

/-- Every CPU on which main has enabled counters has GLOBAL_CTRL 0. -/
def Solo.Clean (s : Solo) : Prop := ∀ x, s.enabled x = true → s.world.msr x ia32CrPerfGlobalCtrl = 0

/-- No CPU is left counting where the process ends. -/
def CleanEnd (b : Build) (luck : Luck) (cpus : List Cpu) (iterations : Nat → Nat) (s : World) : Prop :=
  ((main b cpus iterations).exec (Solo.handle b luck) { world := s }).2.Clean

/-- A profile that the benchmark returns with. -/
def Returned (b : Build) (bm : Benchmark) (args : ThreadArgs) (p : Profile) : Prop :=
  ∃ start tr s, start.Fresh ∧ (bookView b).Run (bm.body b args) start tr (.done ()) s ∧ s.mem.prof = p

theorem Returned.timed_iff {bm : Benchmark} {args : ThreadArgs} {p : Profile} (small : b.counterTbl.size ≤ 256)
    (h : Returned b bm args p) : p.counts ≤ p.times.length ↔ bm.timed = true ∨ bm.samples args.iterations = 0 := by
  obtain ⟨start, tr, s, fresh, run, rfl⟩ := h
  have body := (book_sampling (N := bm.samples args.iterations) small).wp_body book_passes rfl (Nat.le_refl _) fresh
  have book : bookPhase b bm.timed .idle (bm.samples args.iterations) s :=
    View.Run.wp (V := headView b bm.timed _) (View.run_allowing.mpr run) body s .refl
  rw [book.counts, book.times]
  cases bm.timed <;> simp

namespace Solo

/-! ### The ways main ends -/

/-- The first CPUs are programmed and counting. -/
structure Counting (b : Build) (luck : Luck) (cpus : List Cpu) (s t : Solo) : Prop where
  opens : ∀ k < cpus.length, luck.opens k = true
  msr : ∀ x ∈ cpus, t.world.msr x ia32CrPerfGlobalCtrl = enableMask b
  listed : enableMask b ≠ 0 → ∀ x ∈ cpus, t.enabled x = true
  unlisted : ∀ x, x ∉ cpus → t.enabled x = s.enabled x

/-- The device of the next CPU does not open. -/
def Refused (b : Build) (luck : Luck) (cpus : List Cpu) (s t : Solo) : Prop :=
  ∃ done cpu, done ++ [cpu] <+: cpus ∧ Counting b luck done s t ∧ luck.opens done.length = false

/-- The log cannot be written: there is no file, or a thread has counted more samples than it has
time stamps. -/
def Unwritable (luck : Luck) (cpus : List Cpu) (s : Solo) : Prop :=
  luck.fopens = false ∨
    ∃ i < cpus.length, (s.world.worker i).mem.prof.times.length < (s.world.worker i).mem.prof.counts

/-- Everything has succeeded, and the counters are cleared. -/
structure Cleaned (luck : Luck) (cpus : List Cpu) (s t : Solo) : Prop where
  opens : ∀ k < cpus.length, luck.opens k = true
  writable : ¬ Unwritable luck cpus s
  msr : ∀ x ∈ cpus, t.world.msr x ia32CrPerfGlobalCtrl = 0
  unlisted : ∀ x, x ∉ cpus → t.enabled x = s.enabled x

/-- Where the process ends without `main` returning. -/
def Ends (b : Build) (luck : Luck) (cpus : List Cpu) (s t : Solo) : Prop :=
  Refused b luck cpus s t ∨ Counting b luck cpus s t ∧ Unwritable luck cpus s

/-! ### main, from the programming of the counters on -/

/-- The threads have the memory they had in `s`, and have finished. -/
def SameThreads (s t : Solo) : Prop :=
  ∀ i, (t.world.worker i).mem = (s.world.worker i).mem ∧
    (t.world.worker i).finished = (s.world.worker i).finished

/-- `main` is at its log. -/
structure Logging (b : Build) (luck : Luck) (cpus : List Cpu) (s t : Solo) : Prop where
  counting : Counting b luck cpus s t
  same : SameThreads s t
  file : t.world.file.isSome = luck.fopens

abbrev endView (b : Build) (luck : Luck) (cpus : List Cpu) (s : Solo) : View Action Action.Res :=
  .ofHandler (handle b luck) fun t _ => Ends b luck cpus s t

section
variable {s t : Solo}

theorem Counting.of_configured (conf : Configured b true cpus s t) (opens : ∀ k < cpus.length, luck.opens k = true) :
    Counting b luck cpus s t where
  opens := opens
  msr x member := by rw [conf.msr, if_pos member, configured, if_pos rfl, programmed, Function.update_self]
  listed mask x member := conf.listed x member rfl mask
  unlisted := conf.unlisted

theorem Counting.clean_iff (h : Counting b luck cpus s t) (off : ∀ x, s.enabled x = false) :
    t.Clean ↔ enableMask b = 0 ∨ cpus = [] := by
  constructor
  · intro clean
    by_contra! some
    obtain ⟨mask, listed⟩ := some
    obtain ⟨x, member⟩ := List.exists_mem_of_ne_nil cpus listed
    exact mask ((h.msr x member).symm.trans (clean x (h.listed mask x member)))
  · intro none x on
    by_cases member : x ∈ cpus
    · rw [h.msr x member]
      rcases none with none | rfl
      · exact none
      · cases member
    · rw [h.unlisted x member, off] at on
      cases on

theorem Counting.congr (h : Counting b luck cpus s t) {u : Solo} (msr : u.world.msr = t.world.msr)
    (enabled : u.enabled = t.enabled) : Counting b luck cpus s u where
  opens := h.opens
  msr := by rw [msr]; exact h.msr
  listed := by rw [enabled]; exact h.listed
  unlisted := by rw [enabled]; exact h.unlisted

theorem Logging.unopened (h : Logging b luck cpus s t) (closed : t.world.file = none) : Ends b luck cpus s t := by
  refine Or.inr ⟨h.counting, Or.inl ?_⟩
  rw [← h.file, closed]
  rfl

theorem SameThreads.setWorker (same : SameThreads s t) {i : Nat} {w : Worker} (mem : w.mem = (t.world.worker i).mem)
    (finished : w.finished = (t.world.worker i).finished) : SameThreads s (t.inWorld (t.world.setWorker i w)) := by
  intro j
  exact ⟨(World.update_same Worker.mem mem j).trans (same j).1, (World.update_same Worker.finished finished j).trans (same j).2⟩

theorem preserves_createThread (i : Nat) (args : ThreadArgs) : (endView b luck cpus s).Preserves
    (fun t => Counting b luck cpus s t ∧ SameThreads s t) (.createThread i args) := by
  rintro t ⟨counting, same⟩
  refine ⟨nofun, fun r u step => ?_⟩
  obtain ⟨-, rfl⟩ := Prod.mk.inj (Option.some.inj step)
  exact ⟨counting.congr rfl rfl, same.setWorker rfl rfl⟩

theorem preserves_pinThread (i : Nat) (cpu : Cpu) : (endView b luck cpus s).Preserves
    (fun t => Counting b luck cpus s t ∧ SameThreads s t) (.pinThread (.worker i) cpu) := by
  rintro t ⟨counting, same⟩
  refine ⟨nofun, fun r u step => ?_⟩
  obtain ⟨-, rfl⟩ := Prod.mk.inj (Option.some.inj step)
  exact ⟨counting.congr rfl rfl, same.setWorker rfl rfl⟩

theorem preserves_fprintf (p : Piece) : (endView b luck cpus s).Preserves (Logging b luck cpus s) (.fprintf p) := by
  intro t log
  refine ⟨fun refused => log.unopened (Option.map_eq_none_iff.mp refused), fun r u step => ?_⟩
  obtain ⟨text, here, step⟩ := Option.map_eq_some_iff.mp step
  cases step
  refine ⟨log.counting.congr rfl rfl, log.same, ?_⟩
  rw [← log.file, here]
  rfl

theorem all_fprintf (p : Piece) :
    (perform (.fprintf p)).All ((endView b luck cpus s).Preserves (Logging b luck cpus s)) :=
  (Program.all_call _).mpr (preserves_fprintf p)

theorem preserves_argsValues (i c j : Nat) :
    (endView b luck cpus s).Preserves (Logging b luck cpus s) (.argsValues i c j) := by
  intro t log
  refine ⟨nofun, fun r u step => ?_⟩
  obtain ⟨-, rfl⟩ := Prod.mk.inj (Option.some.inj step)
  exact log

theorem wp_printRows {i : Nat} (bound : i < cpus.length) (log : Logging b luck cpus s t) :
    (printRows b i).wp (endView b luck cpus s) (fun _ u => Logging b luck cpus s u ∧
      (s.world.worker i).mem.prof.counts ≤ (s.world.worker i).mem.prof.times.length) t := by
  refine (Program.wp_act_still fun _ _ => id).mpr ⟨nofun, fun counts u step => ?_⟩
  obtain ⟨rfl, rfl⟩ := Prod.mk.inj (Option.some.inj step)
  rw [(log.same i).1]
  refine Program.wp_forEach_range (I := fun j u => Logging b luck cpus s u ∧
    j ≤ (s.world.worker i).mem.prof.times.length) ⟨log, Nat.zero_le _⟩ (fun _ _ _ _ moved => moved.elim) ?_ fun _ => id
  rintro j t less ⟨log, -⟩
  simp only [Program.call_bind]
  refine (Program.wp_act_still fun _ _ => id).mpr ⟨fun refused => ?_, fun time u step => ?_⟩
  · -- The vector of time stamps is too short.
    have short := Option.map_eq_none_iff.mp refused
    rw [(log.same i).1, List.getElem?_eq_none_iff] at short
    exact Or.inr ⟨log.counting, Or.inr ⟨i, bound, by omega⟩⟩
  · obtain ⟨w, found, step⟩ := Option.map_eq_some_iff.mp step
    cases step
    rw [(log.same i).1] at found
    obtain ⟨enough, -⟩ := List.getElem?_eq_some_iff.mp found
    have cell (c : Nat) : (perform (.argsValues i c j) >>= fun v => perform (.fprintf (.value v))).All
        ((endView b luck cpus s).Preserves (Logging b luck cpus s)) :=
      Program.All.bind (Program.all_call _ |>.mpr (preserves_argsValues i c j)) fun _ => all_fprintf _
    have row : (do
        perform (.fprintf (.row i time))
        forEach (columns b) fun c => perform (.argsValues i c j) >>= fun v => perform (.fprintf (.value v))
        perform (.fprintf .newline)).All ((endView b luck cpus s).Preserves (Logging b luck cpus s)) :=
      Program.All.bind (all_fprintf _) fun _ => Program.All.bind (.forEach fun c _ => cell c) fun _ => all_fprintf _
    exact Program.wp_mono (Program.wp_of_preserves (fun _ _ _ moved => moved.elim) row log)
      fun _ u log => ⟨log, enough⟩

theorem wp_writeLog (finished : ∀ i < cpus.length, (s.world.worker i).finished = true)
    (counting : Counting b luck cpus s t) (same : SameThreads s t) :
    (writeLog b cpus.length).wp (endView b luck cpus s) (fun _ u => Logging b luck cpus s u ∧
      ∀ i < cpus.length, (s.world.worker i).mem.prof.counts ≤ (s.world.worker i).mem.prof.times.length) t := by
  have loop {u : Solo} (log : Logging b luck cpus s u) :
      (forEach (List.range cpus.length) fun i => do
        perform (.join i)
        printRows b i).wp (endView b luck cpus s) (fun _ u => Logging b luck cpus s u ∧
          ∀ i < cpus.length, (s.world.worker i).mem.prof.counts ≤ (s.world.worker i).mem.prof.times.length) u := by
    refine Program.wp_forEach_range (I := fun n u => Logging b luck cpus s u ∧ ∀ i < n,
      (s.world.worker i).mem.prof.counts ≤ (s.world.worker i).mem.prof.times.length)
      ⟨log, fun i none => absurd none (Nat.not_lt_zero i)⟩ (fun _ _ _ _ moved => moved.elim) ?_ fun _ => id
    rintro n u bound ⟨log, before⟩
    rw [Program.call_bind]
    have done : (u.world.worker n).finished = true := (log.same n).2.trans (finished n bound)
    refine (Program.wp_act_still fun _ _ => id).mpr ⟨fun refused => ?_, fun r v step => ?_⟩
    · simp [handle, done] at refused
    · simp only [handle, done, if_true, Option.some.injEq] at step
      cases step
      apply Program.wp_mono (wp_printRows bound log)
      rintro _ w ⟨log, timed⟩
      refine ⟨log, fun i less => ?_⟩
      rcases Nat.lt_succ_iff_lt_or_eq.mp less with earlier | rfl
      · exact before i earlier
      · exact timed
  unfold writeLog
  rw [Program.call_bind]
  refine (Program.wp_act_still fun _ _ => id).mpr ⟨fun refused => (Option.some_ne_none _ refused).elim, fun ok u step => ?_⟩
  have log : ok = luck.fopens ∧ Logging b luck cpus s u := by
    obtain ⟨rfl, rfl⟩ := Prod.mk.inj (Option.some.inj step)
    refine ⟨rfl, counting.congr rfl rfl, same, ?_⟩
    cases opens : luck.fopens <;> simp [inWorld]
  obtain ⟨rfl, log⟩ := log
  dsimp only
  split
  · have header : (printHeader b).All ((endView b luck cpus s).Preserves (Logging b luck cpus s)) :=
      Program.All.bind (all_fprintf _) fun _ => Program.All.bind (.forEach fun c _ => all_fprintf _) fun _ =>
        all_fprintf _
    exact Program.wp_seq (Program.wp_of_preserves (fun _ _ _ moved => moved.elim) header log)
      fun _ _ => loop
  · exact loop log

/-- `main` ends cleaned up, or where it was refused or crashed. -/
theorem wp_main (allOk : ∀ k, luck.accesses k = true) (spares : SparesGlobal b)
    (fresh : s.opened = 0) (finished : ∀ i < cpus.length, (s.world.worker i).finished = true) :
    (main b cpus iterations).wp (endView b luck cpus s) (fun _ t => Cleaned luck cpus s t) s := by
  unfold main
  rw [Program.call_bind]
  refine (Program.wp_act_still fun _ _ => id).mpr ⟨fun refused => (Option.some_ne_none _ refused).elim, fun _ t step => ?_⟩
  obtain ⟨-, rfl⟩ := Prod.mk.inj (Option.some.inj step)
  refine Program.wp_bind.mpr (wp_configureCounters allOk spares (fun off => by cases off) ?_ ?_)
  · intro done cpu t front on conf opens failed
    rw [conf.opened, fresh, if_pos rfl, Nat.zero_add] at failed
    refine Or.inl ⟨done, cpu, front, .of_configured conf fun k bound => ?_, failed⟩
    simpa [fresh] using opens rfl k bound
  · intro handles t listed opens conf
    have counting : Counting b luck cpus s t :=
      .of_configured conf fun k bound => by simpa [fresh] using opens rfl k bound
    have same : SameThreads s t := by
      intro i
      rw [conf.worker]
      exact ⟨rfl, rfl⟩
    have create : (createThreads handles cpus iterations).All
        ((endView b luck cpus s).Preserves fun t => Counting b luck cpus s t ∧ SameThreads s t) :=
      .forEach fun i _ => Program.All.bind ((Program.all_call _).mpr (preserves_createThread _ _)) fun _ =>
        (Program.all_call _).mpr (preserves_pinThread _ _)
    apply Program.wp_seq (Program.wp_of_preserves (V := endView b luck cpus s) (fun _ _ _ moved => moved.elim) create
      ⟨counting, same⟩)
    rintro _ t ⟨counting, same⟩
    apply Program.wp_seq (wp_writeLog finished counting same)
    rintro _ t ⟨log, timed⟩
    unfold cleanUp
    rw [Program.call_bind]
    refine (Program.wp_act_still fun _ _ => id).mpr ⟨fun refused => ?_, fun _ u step => ?_⟩
    · simp only [handle, ite_eq_right_iff, reduceCtorEq, imp_false, Bool.not_eq_true, Option.isSome_eq_false_iff,
        Option.isNone_iff_eq_none] at refused
      exact log.unopened refused
    · simp only [handle, Option.ite_none_right_eq_some, Option.some.injEq] at step
      obtain ⟨opened, step⟩ := step
      cases step
      refine Program.wp_bind.mpr (wp_configureCounters allOk spares (fun _ => listed) ?_ ?_)
      · intro _ _ _ _ on
        cases on
      intro _ u _ _ conf
      refine Program.wp_done (fun _ _ _ moved => moved.elim) ⟨log.counting.opens, ?_, fun x member => ?_, ?_⟩
      · rintro (closed | ⟨i, bound, short⟩)
        · rw [log.file, closed] at opened
          cases opened
        · have enough := timed i bound
          omega
      · rw [conf.msr, if_pos member, configured, if_neg Bool.false_ne_true, cleared, if_pos (Or.inl rfl)]
      · intro x other
        exact (conf.unlisted x other).trans (log.counting.unlisted x other)

end

end Solo

/-- No CPU is left counting exactly when there is nothing to count, when the first device does
not open, or when nothing fails and every thread takes a time stamp for each sample it takes. -/
theorem cleanEnd_iff (spares : SparesGlobal b) (small : b.counterTbl.size < 256)
    (allOk : ∀ k, luck.accesses k = true) {s : World} (finished : ∀ i < cpus.length, (s.worker i).finished = true)
    (returned : ∀ i < cpus.length,
      Returned b (func i) ⟨iterations i, i, cpus.getD i 0⟩ (s.worker i).mem.prof) :
    CleanEnd b luck cpus iterations s ↔ enableMask b = 0 ∨ cpus = [] ∨ luck.opens 0 = false ∨
      (∀ k < cpus.length, luck.opens k = true) ∧ luck.fopens = true ∧
        ∀ i < cpus.length, (func i).timed = true ∨ (func i).samples (iterations i) = 0 := by
  have writable : ¬ Solo.Unwritable luck cpus { world := s } ↔ luck.fopens = true ∧
      ∀ i < cpus.length, (func i).timed = true ∨ (func i).samples (iterations i) = 0 := by
    unfold Solo.Unwritable
    rw [not_or, Bool.not_eq_false, not_exists]
    refine and_congr_right fun _ => forall_congr' fun i => ?_
    rw [not_and, Nat.not_lt]
    exact forall_congr' fun bound => (returned i bound).timed_iff small.le
  have proved : (main b cpus iterations).wp (Solo.endView b luck cpus { world := s })
      (fun _ t => Solo.Cleaned luck cpus { world := s } t) { world := s } :=
    Solo.wp_main allOk spares rfl finished
  unfold CleanEnd
  rcases Program.wp_exec proved with ⟨_, t, ran, cleaned⟩ | ⟨t, o, ran, -, refused | ⟨counting, unwritable⟩⟩
  · rw [ran]
    refine iff_of_true (fun x on => ?_) (Or.inr (Or.inr (Or.inr ⟨cleaned.opens, writable.mp cleaned.writable⟩)))
    by_cases listed : x ∈ cpus
    · exact cleaned.msr x listed
    · rw [cleaned.unlisted x listed] at on
      cases on
  · rw [ran]
    obtain ⟨done, cpu, front, counting, failed⟩ := refused
    have before : done.length < cpus.length := by simpa [Nat.succ_le_iff] using front.length_le
    refine (counting.clean_iff fun _ => rfl).trans (or_congr_right ⟨?_, ?_⟩)
    · rintro rfl
      exact Or.inr (Or.inl failed)
    · rintro (none | shut | ⟨all, -⟩)
      · simp [none] at before
      · by_contra some
        rw [counting.opens 0 (List.length_pos_iff.mpr some)] at shut
        cases shut
      · rw [all _ before] at failed
        cases failed
  · rw [ran]
    refine (counting.clean_iff fun _ => rfl).trans (or_congr_right ⟨Or.inl, ?_⟩)
    rintro (none | shut | ⟨-, fine⟩)
    · exact none
    · by_contra some
      rw [counting.opens 0 (List.length_pos_iff.mpr some)] at shut
      cases shut
    · exact (writable.mpr fine unwritable).elim

/-- A benchmark that has run from an empty profile. -/
theorem Returned.exists (b : Build) (bm : Benchmark) (args : ThreadArgs) : ∃ p, Returned b bm args p := by
  obtain ⟨tr, _, s, run⟩ := (bookView b).run_exists (bm.body b args) Ledger.empty fun s o => by
    obtain ⟨r, l, step⟩ := s.mem.step_total b o
    exact ⟨r, ⟨l, s.record b o⟩, step, rfl⟩
  exact ⟨_, _, tr, s, ⟨rfl, rfl, rfl⟩, run, rfl⟩

theorem cleanEnd_dedos07 : ∃ s : World, (∀ i, (s.worker i).finished = true ∧
      Returned dedos07 .bmSingleDArrayMultithreadedT1 ⟨10, i, [1, 2].getD i 0⟩ (s.worker i).mem.prof) ∧
    CleanEnd dedos07 {} [1, 2] (fun _ => 10) s := by
  choose prof returned using fun i =>
    Returned.exists dedos07 .bmSingleDArrayMultithreadedT1 ⟨10, i, [1, 2].getD i 0⟩
  have spares : SparesGlobal dedos07 := by
    unfold SparesGlobal
    decide
  refine ⟨{ World.idle with worker := fun i => ⟨true, true, true, 0, ⟨0, 0, 0⟩, ⟨prof i, fun _ => none⟩⟩ },
    fun i => ⟨rfl, returned i⟩, ?_⟩
  apply (cleanEnd_iff spares (by decide) (fun _ => rfl) (fun _ _ => rfl) fun i _ => returned i).mpr
  exact Or.inr (Or.inr (Or.inr ⟨fun _ _ => rfl, rfl, fun _ _ => Or.inl rfl⟩))

/-- The device of CPU 2 does not open, and CPU 1 is left counting. -/
theorem not_cleanEnd_secondOpen : ¬ CleanEnd dedos07 { opens := (· ≠ 1) } [1, 2] (fun _ => 10) .idle := by
  intro clean
  have left := clean 1 (by decide +kernel)
  revert left
  decide +kernel

end PmcBench
