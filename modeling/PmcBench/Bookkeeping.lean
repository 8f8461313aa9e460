import PmcBench.Sampling

/-!
# Sample bookkeeping

A ledger adds to a benchmark's memory a record of its writes to `args.values`.
Every benchmark counts its samples, but only some take a time stamp for each, and
`values` has no check on its second index. `keepsBooks_iff` says for which
benchmarks and numbers of iterations the profile is consistent at every head and
end of a sampling loop and on return.
-/

namespace PmcBench
open Threads
open Program (forEach)

structure Ledger where
  mem : Local
  /-- Each write to `values`: the element, and the number of time stamps taken by then. -/
  writes : List (Nat × Nat)

namespace Ledger

def record (b : Build) (s : Ledger) : Action → List (Nat × Nat)
  | .setValue c k _ => s.writes ++ [(c * b.maxPts + k, s.mem.prof.times.length)]
  | _ => s.writes

/-- A benchmark that has taken no sample yet. -/
def Fresh (s : Ledger) : Prop := s.mem.prof.counts = 0 ∧ s.mem.prof.times = [] ∧ s.writes = []

/-- One time stamp for each counted sample, and for each row of the table one value,
written while that time stamp was the last. -/
def Booked (b : Build) (s : Ledger) : Prop :=
  s.mem.prof.times.length = s.mem.prof.counts ∧
    ∀ c < b.counterTbl.size, ∀ k < s.mem.prof.counts,
      s.writes.filter (fun w => w.1 = c * b.maxPts + k) = [(c * b.maxPts + k, k + 1)]

end Ledger

/-- A benchmark on its own memory; what it reads elsewhere is arbitrary. -/
abbrev bookView (b : Build) : View Action Action.Res where
  St := Ledger
  rely _ _ := False
  allow _ _ := True
  next s o r t := s.mem.step b o r t.mem ∧ t.writes = s.record b o

/-- The benchmark keeps its books: in every run, at every head and end of a sampling
loop and on return. -/
def KeepsBooks (b : Build) (bm : Benchmark) (args : ThreadArgs) (start : Ledger) : Prop :=
  ∀ tr p s, (bookView b).Run (bm.body b args) start tr p s →
    (p = .done () ∨ ∃ next, p = .act (.point .head) next) → s.Booked b

variable {b : Build}

def Action.keepsProfile : Action → Bool
  | .pushTime _ | .setValue .. | .incCounts => false
  | _ => true

theorem Action.keepsProfile_of_quiet {o : Action} (quiet : o.quiet = true) : o.keepsProfile = true := by
  cases o
  case pushTime | setValue | incCounts => exact Bool.noConfusion quiet
  all_goals rfl

theorem Local.write_prof (l : Local) (buf : Buf) (i : Nat) (v : Word) : (l.write buf i v).prof = l.prof := by
  unfold Local.write
  split
  · split <;> rfl
  · rfl

theorem Local.step_prof {l l' : Local} {o : Action} {r : o.Res} (keeps : o.keepsProfile = true)
    (step : l.step b o r l') : l'.prof = l.prof := by
  cases o
  case pushTime | setValue | incCounts => exact Bool.noConfusion keeps
  case malloc buf n => rw [show l' = l.alloc buf n from step]; rfl
  case load buf i => rw [show l' = l from step.2]
  case counts => rw [show l' = l from step.2]
  case store buf i v => rw [show l' = l.write buf i v from step, Local.write_prof]
  case readInto cpu reg buf i =>
    cases r with
    | none => rw [show l' = l from step]
    | some v => rw [show l' = l.write buf i v from step, Local.write_prof]
  all_goals rw [show l' = l from step]

/-! ### The profile after some samples -/

/-- What `n` samples write to `values`. -/
def entries (b : Build) (timed : Bool) (n : Nat) : List (Nat × Nat) :=
  (List.range n).flatMap fun j => (List.range b.counterTbl.size).map fun c =>
    (c * b.maxPts + j, if timed then j + 1 else 0)

theorem entries_succ (b : Build) (timed : Bool) (n : Nat) : entries b timed (n + 1) = entries b timed n ++
    (List.range b.counterTbl.size).map fun c => (c * b.maxPts + n, if timed then n + 1 else 0) := by
  simp [entries, List.range_succ, List.flatMap_append]

structure Book (counts times : Nat) (writes : List (Nat × Nat)) (s : Ledger) : Prop where
  counts : s.mem.prof.counts = counts
  times : s.mem.prof.times.length = times
  writes : s.writes = writes

/-- The ledger in each phase of sample `m`. -/
def bookPhase (b : Build) (timed : Bool) : Phase → Nat → Ledger → Prop
  | .idle, m => Book m (if timed then m else 0) (entries b timed m)
  | .stamped, m => Book m (if timed then m + 1 else 0) (entries b timed m)
  | .recorded, m => Book m (if timed then m + 1 else 0) (entries b timed (m + 1))

/-- The element of `values` tells its row and sample, as long as `MAX_PTS` suffices. -/
theorem element_inj {n c d j k : Nat} (hj : j < n) (hk : k < n) : c * n + j = d * n + k ↔ c = d ∧ j = k := by
  constructor
  · intro same
    have row := congrArg (· / n) same
    have sample := congrArg (· % n) same
    simp only [Nat.mul_comm _ n, Nat.mul_add_div (show n > 0 by omega), Nat.mul_add_mod, Nat.div_eq_of_lt hj,
      Nat.div_eq_of_lt hk, Nat.mod_eq_of_lt hj, Nat.mod_eq_of_lt hk] at row sample
    exact ⟨by omega, sample⟩
  · rintro ⟨rfl, rfl⟩
    rfl

theorem filter_entries {n c k : Nat} (fits : n ≤ b.maxPts) (hc : c < b.counterTbl.size) (hk : k < b.maxPts) :
    (entries b true n).filter (fun w => w.1 = c * b.maxPts + k) = if k < n then [(c * b.maxPts + k, k + 1)] else [] := by
  induction n with
  | zero => simp [entries]
  | succ n ih =>
    have row : ((List.range b.counterTbl.size).map fun d => (d * b.maxPts + n, n + 1)).filter
        (fun w => w.1 = c * b.maxPts + k) = if k = n then [(c * b.maxPts + k, k + 1)] else [] := by
      have same : ∀ d ∈ List.range b.counterTbl.size, ((fun w : Nat × Nat => decide (w.1 = c * b.maxPts + k)) ∘
          fun d => (d * b.maxPts + n, n + 1)) d = decide (d = c ∧ k = n) := fun d _ => by
        simp only [Function.comp_apply, element_inj (show n < b.maxPts by omega) hk, eq_comm]
      rw [List.filter_map, List.filter_congr same]
      by_cases last : k = n
      · subst last
        simp only [and_true, List.filter_eq, List.count_range, if_pos hc, if_true, List.replicate_one, List.map_cons,
          List.map_nil]
      · simp [last]
    rw [entries_succ, List.filter_append, ih (by omega)]
    simp only [if_true, row]
    split
    · rw [if_neg (by omega), if_pos (by omega), List.append_nil]
    · split
      · rw [if_pos (by omega), List.nil_append]
      · rw [if_neg (by omega), List.append_nil]

/-- Which profiles are consistent: a table of two rows shows every write past `MAX_PTS`. -/
theorem booked_iff {timed : Bool} {m : Nat} {s : Ledger} (rows : 2 ≤ b.counterTbl.size) (pts : 0 < b.maxPts)
    (book : bookPhase b timed .idle m s) : s.Booked b ↔ m = 0 ∨ timed = true ∧ m ≤ b.maxPts := by
  obtain ⟨counts, times, writes⟩ := book
  rw [Ledger.Booked, counts, times, writes]
  constructor
  · rintro ⟨paired, once⟩
    rcases Nat.eq_zero_or_pos m with none | some
    · exact Or.inl none
    cases timed with
    | false => simp at paired; omega
    | true =>
      refine Or.inr ⟨rfl, ?_⟩
      by_contra more
      -- Sample `MAX_PTS` of row 0 is written where sample 0 of row 1 is.
      have late : (b.maxPts, b.maxPts + 1) ∈
          (entries b true m).filter (fun w => w.1 = 1 * b.maxPts + 0) := by
        simp only [List.mem_filter, entries, List.mem_flatMap, List.mem_map, List.mem_range]
        exact ⟨⟨b.maxPts, by omega, 0, by omega, by simp⟩, by simp⟩
      rw [once 1 (by omega) 0 some] at late
      simp at late
      omega
  · rintro (rfl | ⟨rfl, fits⟩)
    · exact ⟨by cases timed <;> rfl, by simp⟩
    · refine ⟨rfl, fun c hc k hk => ?_⟩
      rw [filter_entries fits hc (by omega), if_pos hk]

/-! ### The benchmarks on a ledger -/

/-- The view in which the heads of sampling loops are reached with a ledger as described. -/
abbrev headView (b : Build) (timed : Bool) (N : Nat) : View Action Action.Res :=
  (bookView b).allowing fun s o => o = .point .head → ∃ m ≤ N, bookPhase b timed .idle m s

section
variable {args : ThreadArgs} {timed : Bool} {N : Nat}

theorem book_keeps {counts times : Nat} {writes : List (Nat × Nat)} {o : Action} (keeps : o.keepsProfile = true)
    (other : o ≠ .point .head) : (headView b timed N).Preserves (Book counts times writes) o := by
  refine fun s held => ⟨fun same => (other same).elim, fun r t ⟨step, recorded⟩ => ?_⟩
  have kept := Local.step_prof keeps step
  have same : t.writes = s.writes := by
    rw [recorded]
    cases o
    case setValue => exact Bool.noConfusion keeps
    all_goals rfl
  exact ⟨kept ▸ held.counts, kept ▸ held.times, same ▸ held.writes⟩

theorem wp_book_keeps {α : Type} {counts times : Nat} {writes : List (Nat × Nat)} {p : Prog α} {s : Ledger}
    (keeps : p.All fun o => o.keepsProfile = true ∧ o ≠ .point .head) (h : Book counts times writes s) :
    p.wp (headView b timed N) (fun _ => Book counts times writes) s :=
  Program.wp_of_preserves (fun _ _ _ moved => moved.elim) (keeps.mono fun _ ⟨keeps, other⟩ => book_keeps keeps other) h

theorem keeps_quiet {α : Type} {p : Prog α} (quiet : QuietProg p) :
    p.All fun o => o.keepsProfile = true ∧ o ≠ .point .head := by
  refine quiet.mono fun o quiet => ⟨Action.keepsProfile_of_quiet quiet, ?_⟩
  rintro rfl
  cases quiet

theorem wp_book_act {o : Action} {next : o.Res → Prog Unit} {Q : Unit → Ledger → Prop} {s : Ledger}
    (other : o ≠ .point .head)
    (rest : ∀ r t, s.mem.step b o r t.mem → t.writes = s.record b o → (next r).wp (headView b timed N) Q t) :
    (Program.act o next).wp (headView b timed N) Q s :=
  (Program.wp_act_still fun _ _ => id).mpr ⟨fun same => (other same).elim, fun r t ⟨own, writes⟩ => rest r t own writes⟩

theorem wp_book_recordDeltas {m times : Nat} {writes : List (Nat × Nat)} {s : Ledger} (small : b.counterTbl.size ≤ 256)
    (h : Book m times writes s) : (recordDeltas b).wp (headView b timed N)
      (fun _ => Book m times (writes ++ (List.range b.counterTbl.size).map fun c => (c * b.maxPts + m, times))) s := by
  unfold recordDeltas
  rw [CounterTbl.rows_eq]
  refine Program.wp_forEach_range (V := headView b timed N)
    (I := fun i => Book m times (writes ++ (List.range i).map fun c => (c * b.maxPts + m, times))) (by simpa using h)
    (fun _ _ _ _ moved => moved.elim) (fun c s bound held => ?_) fun t => id
  refine wp_book_act nofun fun k s₁ ⟨number, same⟩ writes => ?_
  obtain ⟨rfl⟩ : k = m := number.trans held.counts
  have held : Book m times _ s₁ := ⟨same ▸ held.counts, same ▸ held.times, writes.trans held.writes⟩
  refine wp_book_act nofun fun stop s₂ ⟨_, same⟩ writes => ?_
  have held : Book m times _ s₂ := ⟨same ▸ held.counts, same ▸ held.times, writes.trans held.writes⟩
  refine wp_book_act nofun fun start s₃ ⟨_, same⟩ writes => ?_
  have held : Book m times _ s₃ := ⟨same ▸ held.counts, same ▸ held.times, writes.trans held.writes⟩
  refine wp_book_act nofun fun _ t same writes => (Program.wp_done_still fun _ _ => id).mpr ?_
  rw [Nat.mod_eq_of_lt (by omega)] at same writes
  refine ⟨same ▸ held.counts, same ▸ held.times, ?_⟩
  have last : t.writes = s₃.writes ++ [(c * b.maxPts + m, s₃.mem.prof.times.length)] := writes
  rw [last, held.writes, held.times, List.range_succ, List.map_append, ← List.append_assoc]
  rfl

theorem book_passes : Sampling.Passes (headView b timed N) (bookPhase b timed) := by
  intro m o hand
  have other : o ≠ .point .head := by rintro rfl; cases hand
  refine book_keeps ?_ other
  cases o with
  | waitCanRun | setCanRun => rfl
  | _ => cases hand

theorem book_sampling (small : b.counterTbl.size ≤ 256) :
    Sampling b args timed N (headView b timed N) Ledger.Fresh (bookPhase b timed) where
  stable _ moved := moved.elim
  quiet {ph m o} quiet := by
    have other : o ≠ .point .head := by rintro rfl; cases quiet
    cases ph <;> exact book_keeps (Action.keepsProfile_of_quiet quiet) other
  start {s size} _ fresh := by
    have held : bookPhase b timed .idle 0 s :=
      ⟨fresh.1, by cases timed <;> simp [fresh.2.1], fresh.2.2⟩
    exact wp_book_keeps (all_mallocStores (fun _ => ⟨rfl, nofun⟩) (fun _ => ⟨rfl, nofun⟩) size) held
  head {m} bound s held := by
    refine ⟨fun _ => ⟨m, bound, held⟩, fun r t ⟨step, writes⟩ => ?_⟩
    have same : t.mem = s.mem := step
    exact ⟨same ▸ held.counts, same ▸ held.times, writes.trans held.writes⟩
  takeTime {m s} isTimed _ held := by
    subst isTimed
    refine wp_book_act nofun fun tv s₁ same writes => ?_
    refine wp_book_act nofun fun _ t stamp writes' => (Program.wp_done_still fun _ _ => id).mpr ?_
    have same : s₁.mem = s.mem := same
    have stamp : t.mem = s₁.mem.pushTime tv.micros := stamp
    refine ⟨?_, ?_, (writes'.trans writes).trans held.writes⟩
    · rw [stamp, same]; exact held.counts
    · have before : s.mem.prof.times.length = m := held.times
      rw [stamp, same]
      simp [Local.pushTime, before]
  untimed untimed _ held := by
    subst untimed
    exact held
  window {m s measured} _ quiet held := by
    rw [PmcBench.window, Program.call_bind]
    refine wp_book_act nofun fun _ s₁ same writes => ?_
    have same : s₁.mem = s.mem := same
    have held : Book m (if timed then m + 1 else 0) (entries b timed m) s₁ :=
      ⟨same ▸ held.counts, same ▸ held.times, writes.trans held.writes⟩
    apply Program.wp_seq (wp_book_keeps (all_readValues fun _ _ => ⟨rfl, nofun⟩) held)
    intro _ s₂ held
    apply Program.wp_seq (wp_book_keeps (keeps_quiet quiet) held)
    intro _ s₃ held
    apply Program.wp_seq (wp_book_keeps (all_readValues fun _ _ => ⟨rfl, nofun⟩) held)
    intro _ s₄ held
    apply Program.wp_mono (wp_book_recordDeltas small held)
    intro _ t held
    rw [bookPhase, entries_succ]
    cases timed <;> exact held
  incCounts {m s} _ held := by
    refine wp_book_act nofun fun _ t step writes => (Program.wp_done_still fun _ _ => id).mpr ?_
    have step : t.mem = s.mem.incCounts := step
    refine ⟨?_, ?_, writes.trans held.writes⟩
    · rw [step]; exact congrArg (· + 1) held.counts
    · rw [step]; exact held.times

end

/-! ### Who keeps its books -/

theorem Local.step_total (b : Build) (l : Local) (o : Action) : ∃ r l', l.step b o r l' := by
  cases o
  case load buf i => exact ⟨(l.cell buf i).getD 0, l, fun v found => by simp [found], rfl⟩
  case readInto => exact ⟨none, l, rfl⟩
  case counts => exact ⟨_, l, rfl, rfl⟩
  all_goals exact ⟨default, _, rfl⟩

theorem keepsBooks_wp {bm : Benchmark} {args : ThreadArgs} {start : Ledger} : KeepsBooks b bm args start ↔
    (bm.body b args).wp ((bookView b).allowing fun s o => o = .point .head → s.Booked b)
      (fun _ s => s.Booked b) start := by
  refine Iff.trans ⟨?_, ?_⟩ View.wp_iff.symm
  · intro keeps
    refine ⟨fun tr o next s run => ?_, fun tr _ s run => keeps tr _ s (View.run_allowing.mp run) (Or.inl rfl)⟩
    rintro rfl
    exact keeps tr _ s (View.run_allowing.mp run) (Or.inr ⟨next, rfl⟩)
  · rintro ⟨heads, final⟩ tr p s run (rfl | ⟨next, rfl⟩)
    · exact final tr () s (View.run_allowing.mpr run)
    · exact heads tr _ next s (View.run_allowing.mpr run) rfl

theorem KeepsBooks.final {bm : Benchmark} {args : ThreadArgs} {start : Ledger} (small : b.counterTbl.size ≤ 256)
    (fresh : start.Fresh) (keeps : KeepsBooks b bm args start) :
    ∃ s, s.Booked b ∧ bookPhase b bm.timed .idle (bm.samples args.iterations) s := by
  have body := (book_sampling (N := bm.samples args.iterations) small).wp_body book_passes rfl (Nat.le_refl _) fresh
  obtain ⟨_, s, both⟩ := Program.wp_exists (Program.wp_and (keepsBooks_wp.mp keeps) body) fun s o _ => by
    obtain ⟨r, l, step⟩ := s.mem.step_total b o
    exact ⟨r, ⟨l, s.record b o⟩, step, rfl⟩
  exact ⟨s, both⟩

/-- A benchmark keeps its books exactly when it takes no sample, or takes the time of
each and does not take more than `MAX_PTS`. -/
theorem keepsBooks_iff (rows : 2 ≤ b.counterTbl.size) (small : b.counterTbl.size ≤ 256) (pts : 0 < b.maxPts)
    (bm : Benchmark) (args : ThreadArgs) {start : Ledger} (fresh : start.Fresh) :
    KeepsBooks b bm args start ↔
      bm.samples args.iterations = 0 ∨ bm.timed = true ∧ bm.samples args.iterations ≤ b.maxPts := by
  constructor
  · intro keeps
    obtain ⟨s, booked, book⟩ := keeps.final small fresh
    exact (booked_iff rows pts book).mp booked
  · intro fits tr p s run at_
    have body := (book_sampling (N := bm.samples args.iterations) small).wp_body book_passes rfl (Nat.le_refl _) fresh
    have left := View.Run.wp (V := headView b bm.timed _) (View.run_allowing.mpr run) body
    have upTo {m : Nat} (le : m ≤ bm.samples args.iterations) (book : bookPhase b bm.timed .idle m s) : s.Booked b :=
      (booked_iff rows pts book).mpr <| by
        rcases fits with none | ⟨timed, fits⟩
        · exact Or.inl (by omega)
        · exact Or.inr ⟨timed, by omega⟩
    rcases at_ with rfl | ⟨next, rfl⟩
    · exact upTo (Nat.le_refl _) (left s .refl)
    · obtain ⟨m, le, book⟩ := (Program.wp_now left).1 rfl
      exact upTo le book

def Ledger.empty : Ledger := ⟨⟨⟨fun _ => 0, 0, []⟩, fun _ => none⟩, []⟩

theorem keepsBooks_t1_dedos07 :
    KeepsBooks dedos07 .bmSingleDArrayMultithreadedT1 { iterations := 10, id := 0, cpuMsr := 1 } .empty :=
  (keepsBooks_iff (by decide) (by decide) (by decide) _ _ ⟨rfl, rfl, rfl⟩).mpr (Or.inr ⟨rfl, by decide⟩)

/-- `bm_single_d_array` counts its samples and takes no time stamp. -/
theorem not_keepsBooks_singleDArray :
    ¬ KeepsBooks dedos07 .bmSingleDArray { iterations := 10, id := 0, cpuMsr := 1 } .empty := by
  intro keeps
  obtain ⟨s, booked, book⟩ := keeps.final (by decide) ⟨rfl, rfl, rfl⟩
  have paired := booked.1
  rw [book.counts, book.times] at paired
  cases paired

end PmcBench
