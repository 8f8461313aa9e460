import PmcBench.L3Counts

/-!
# The readings of the L3 counters

Between its two reads a counter has advanced by the events of its window,
modulo its width; the counts are the differences of the readings in 64 bits.
`l3Counts_exact_iff` says when the two agree.
-/

namespace PmcBench.L3Counts
open Threads Words
open Program (forEach)

variable {hw : Pmu}

/-! ### What holds in each phase -/

/-- The registers hold what was written to them. -/
def Holds (settings : List (Nat × Word)) (R : Regs) : Prop := ∀ p ∈ settings, R p.1 = p.2

namespace Holds
variable {settings : List (Nat × Word)} {R : Regs}

theorem write (held : Holds settings R) {reg : Nat} (new : ∀ p ∈ settings, p.1 ≠ reg) (v : Word) :
    Holds ((reg, v) :: settings) (Function.update R reg v) := by
  intro p member
  rcases List.mem_cons.mp member with rfl | earlier
  · exact Function.update_self ..
  · rw [Function.update_of_ne (new p earlier)]
    exact held p earlier

theorem tick (held : Holds settings R) (plain : ∀ p ∈ settings, ¬ isPmc p.1) (t : hw.Tick) :
    Holds settings (hw.tick R t) := by
  intro p member
  rw [Pmu.tick_other (plain p member)]
  exact held p member

/-- Once nothing counts, the counters hold their values too. -/
theorem tick_off (held : Holds settings R) (off : (ia32CrPerfGlobalCtrl, 0) ∈ settings) (t : hw.Tick) :
    Holds settings (hw.tick R t) := by
  rw [Pmu.tick_disabled (held _ off)]
  exact held

end Holds

theorem Count.pmc_injective : Function.Injective Count.pmc := by
  intro k j same
  cases k <;> cases j <;> simp [Count.pmc, Count.index] at same ⊢

theorem Count.index_lt (k : Count) : k.index < perfMaxCustomCounters := by cases k <;> decide

/-- The counters are no wider than the hardware. -/
def Narrow (hw : Pmu) (R : Regs) : Prop := ∀ k : Count, (R k.pmc).toNat < 2 ^ hw.width

theorem Narrow.tick {R : Regs} (narrow : Narrow hw R) (t : hw.Tick) : Narrow hw (hw.tick R t) := by
  intro k
  have value : (R k.pmc).toNat = (R k.pmc).toNat % 2 ^ hw.width := (Nat.mod_eq_of_lt (narrow k)).symm
  have ticked := Pmu.toNat_tick_pmc k.index_lt value t
  exact ticked ▸ Nat.mod_lt _ (Nat.two_pow_pos _)

/-- Before the first read: the registers written so far, and no window open. -/
structure Fresh (hw : Pmu) (settings : List (Nat × Word)) (s : Track) : Prop where
  narrow : Narrow hw s.regs
  before : ∀ k, s.window k = .before
  holds : Holds settings s.regs

theorem Fresh.write {settings : List (Nat × Word)} {s : Track} {reg : Nat} (fresh : Fresh hw settings s)
    (other : ¬ isPmc reg) (new : ∀ p ∈ settings, p.1 ≠ reg) (v : Word) :
    Fresh hw ((reg, v) :: settings) (s.write reg v) := by
  refine ⟨?_, fresh.before, fresh.holds.write new v⟩
  intro k
  have different : k.pmc ≠ reg := by
    rintro rfl
    exact other (by cases k <;> decide)
  have same : (s.write reg v).regs k.pmc = s.regs k.pmc := Function.update_of_ne different ..
  rw [same]
  exact fresh.narrow k

theorem stable_fresh {settings : List (Nat × Word)} (plain : ∀ p ∈ settings, ¬ isPmc p.1) :
    Stable hw (Fresh hw settings) := by
  intro s fresh t
  refine ⟨fresh.narrow.tick t, ?_, fresh.holds.tick plain t⟩
  intro k
  show (s.window k).event (k.hits hw t) = .before
  rw [fresh.before k]
  rfl

/-- What the set-up writes, the latest first. -/
def programmed : List (Nat × Word) := [(0x38f, 0xf), (0x187, 0x434f2e), (0x186, 0x43412e)]

/-- While the function counts, an open window has seen what its counter has counted. -/
structure Metered (hw : Pmu) (s : Track) : Prop where
  narrow : Narrow hw s.regs
  holds : Holds programmed s.regs
  follows : ∀ k v n, s.window k = .between v n →
    v.toNat < 2 ^ hw.width ∧ (s.regs k.pmc).toNat = (v.toNat + n) % 2 ^ hw.width

/-- While the function counts, each counter advances on exactly its event. -/
theorem counts_programmed {R : Regs} (holds : Holds programmed R) (k : Count) (t : hw.Tick) :
    hw.counts R k.index t = k.hits hw t := by
  have global : (R ia32CrPerfGlobalCtrl).getLsbD k.index = true := by
    rw [show R ia32CrPerfGlobalCtrl = 0xf from holds (0x38f, 0xf) (by decide)]
    cases k <;> decide
  cases k with
  | misses => exact Pmu.counts_enabled global (holds (0x186, 0x43412e) (by decide)) (by decide) t
  | references => exact Pmu.counts_enabled global (holds (0x187, 0x434f2e) (by decide)) (by decide) t

theorem Metered.tick {s : Track} (metered : Metered hw s) (t : hw.Tick) : Metered hw (s.tick hw t) := by
  refine ⟨metered.narrow.tick t, metered.holds.tick (by decide) t, ?_⟩
  intro k v n between
  replace between : (s.window k).event (k.hits hw t) = .between v n := between
  cases window : s.window k with
  | before | ended => simp [window, Window.event] at between
  | between start events =>
    obtain ⟨small, value⟩ := metered.follows k start events window
    rw [window, Window.event, Window.between.injEq] at between
    obtain ⟨rfl, rfl⟩ := between
    have ticked := Pmu.toNat_tick_pmc k.index_lt value t
    rw [counts_programmed metered.holds, Nat.add_assoc, ← apply_ite (start.toNat + ·)] at ticked
    exact ⟨small, ticked⟩

theorem Metered.read {s : Track} (metered : Metered hw s) (reg : Nat) : Metered hw (s.read reg) := by
  refine ⟨metered.narrow, metered.holds, ?_⟩
  intro k v n between
  by_cases here : reg = k.pmc
  · subst here
    have now : (s.window k).read (s.regs k.pmc) = .between v n := by simpa [Track.read] using between
    cases window : s.window k with
    | before =>
      rw [window, Window.read, Window.between.injEq] at now
      obtain ⟨rfl, rfl⟩ := now
      exact ⟨metered.narrow k, (Nat.mod_eq_of_lt (metered.narrow k)).symm⟩
    | between | ended => simp [window, Window.read] at now
  · have same : s.window k = .between v n := by simpa [Track.read, here] using between
    exact metered.follows k v n same

/-- The counter has been read once, with the value `v`. -/
def Opened (v : Word) (w : Window) : Prop := ∃ n, w = .between v n

/-- The counter has been read twice, with the values `v` and `r`. -/
def Gave (hw : Pmu) (v r : Word) (w : Window) : Prop :=
  ∃ n, w = .ended v n ∧ v.toNat < 2 ^ hw.width ∧ r.toNat = (v.toNat + n) % 2 ^ hw.width

/-- Events keep `P`. -/
def Lasting (P : Window → Prop) : Prop := ∀ w, P w → ∀ hit, P (w.event hit)

theorem lasting_before : Lasting (· = .before) := by
  rintro w rfl hit
  rfl

theorem lasting_opened (v : Word) : Lasting (Opened v) := by
  rintro w ⟨n, rfl⟩ hit
  exact ⟨_, rfl⟩

theorem lasting_gave (v r : Word) : Lasting (Gave hw v r) := by
  rintro w ⟨n, rfl, facts⟩ hit
  exact ⟨n, rfl, facts⟩

/-- Counting, with `P` of the windows of the two counters. -/
structure Phase (hw : Pmu) (P : Count → Window → Prop) (s : Track) : Prop where
  metered : Metered hw s
  windows : ∀ k, P k (s.window k)

section Phases
variable {P : Count → Window → Prop} {s : Track}

theorem stable_phase (lasting : ∀ k, Lasting (P k)) : Stable hw (Phase hw P) := by
  intro s phase t
  exact ⟨phase.metered.tick t, fun k => lasting k _ (phase.windows k) _⟩

theorem Track.read_window (s : Track) (j k : Count) :
    (s.read j.pmc).window k = if j = k then (s.window k).read (s.regs j.pmc) else s.window k := by
  by_cases same : j = k
  · simp [Track.read, same]
  · have other : j.pmc ≠ k.pmc := fun equal => same (Count.pmc_injective equal)
    simp [Track.read, same, other]

/-- A read of the counter of `j` moves its window and no other. -/
theorem Phase.read (phase : Phase hw P s) {j : Count} {Q : Window → Prop}
    (moved : ∀ w, s.window j = w → P j w → Q (w.read (s.regs j.pmc))) :
    Phase hw (Function.update P j Q) (s.read j.pmc) := by
  refine ⟨phase.metered.read _, ?_⟩
  intro k
  rw [Track.read_window]
  by_cases same : j = k
  · subst same
    rw [if_pos rfl, Function.update_self]
    exact moved _ rfl (phase.windows j)
  · rw [if_neg same, Function.update_of_ne (Ne.symm same)]
    exact phase.windows k

theorem Phase.start (phase : Phase hw P s) {j : Count} (before : P j = (· = .before)) :
    Phase hw (Function.update P j (Opened (s.regs j.pmc))) (s.read j.pmc) := by
  apply phase.read
  intro w _ first
  rw [before] at first
  subst first
  exact ⟨0, rfl⟩

theorem Phase.finish (phase : Phase hw P s) {j : Count} {v : Word} (opened : P j = Opened v) :
    Phase hw (Function.update P j (Gave hw v (s.regs j.pmc))) (s.read j.pmc) := by
  apply phase.read
  intro w here first
  rw [opened] at first
  obtain ⟨n, rfl⟩ := first
  obtain ⟨small, value⟩ := phase.metered.follows j v n here
  exact ⟨n, rfl, small, value⟩

end Phases

/-- The second reads are done: `settings` of the registers, and `O` of the caller's counts. -/
structure Closing (hw : Pmu) (v r : Count → Word) (O : (Count → Word) → Prop) (settings : List (Nat × Word)) (s : Track) :
    Prop where
  gave : ∀ k, Gave hw (v k) (r k) (s.window k)
  out : O s.out
  holds : Holds settings s.regs

theorem stable_closing {v r : Count → Word} {O : (Count → Word) → Prop} {settings : List (Nat × Word)}
    (held : ∀ R t, Holds settings R → Holds settings (hw.tick R t)) : Stable hw (Closing hw v r O settings) := by
  intro s closing t
  exact ⟨fun k => lasting_gave (v k) (r k) _ (closing.gave k) _, closing.out, held _ t closing.holds⟩

/-- What the clean-up writes, the latest first. -/
def cleared : List (Nat × Word) := [(0x0C2, 0), (0x187, 0), (0x0C1, 0), (0x186, 0), (0x38f, 0)]

theorem wp_clear {v r : Count → Word} {O : (Count → Word) → Prop} {settings : List (Nat × Word)} {reg : Nat} {s : Track}
    (closing : Closing hw v r O settings s) (new : ∀ p ∈ settings, p.1 ≠ reg)
    (off : (ia32CrPerfGlobalCtrl, 0) ∈ settings) :
    (msrWrite 0 reg 0).wp (view hw) (fun _ => Closing hw v r O ((reg, 0) :: settings)) s := by
  apply wp_msrWrite (stable_closing _) (stable_closing _) closing
  · intro s closing
    exact ⟨closing.gave, closing.out, closing.holds.write new 0⟩
  · intro R t held
    exact held.tick_off off t
  · intro R t held
    exact held.tick_off (List.mem_cons_of_mem _ off) t

theorem wp_store {v r : Count → Word} {O P : (Count → Word) → Prop} {k : Count} {x : Word} {next : Unit → LProg Unit}
    {Q : Unit → Track → Prop} {s : Track} (closing : Closing hw v r O [] s)
    (stored : ∀ out, O out → P (Function.update out k x))
    (rest : ∀ s, Closing hw v r P [] s → (next ()).wp (view hw) Q s) :
    (Program.act (.store k x) next).wp (view hw) Q s := by
  have stable : Stable hw (Closing hw v r O []) := stable_closing fun _ _ _ => by simp [Holds]
  apply Program.wp_act stable.rely closing
  intro t held
  refine ⟨trivial, ?_⟩
  rintro ⟨⟩ u rfl
  exact rest _ ⟨held.gave, stored _ held.out, held.holds⟩

theorem lasting_update {P : Count → Window → Prop} (lasting : ∀ k, Lasting (P k)) (j : Count) {Q : Window → Prop}
    (lastingQ : Lasting Q) (k : Count) : Lasting (Function.update P j Q k) := by
  by_cases same : k = j
  · subst same
    rwa [Function.update_self]
  · rw [Function.update_of_ne same]
    exact lasting k

theorem wp_setUp {next : LProg Unit} {Q : Unit → Track → Prop} {s : Track} (fresh : Fresh hw [] s)
    (rest : ∀ s, Phase hw (fun _ => (· = .before)) s → next.wp (view hw) Q s) :
    (do openMsr 0; enableL3CacheMiss 0; enableL3CacheReference 0; enableGlobalCounters 0; next : LProg Unit).wp
      (view hw) Q s := by
  have stable {settings : List (Nat × Word)} (plain : ∀ p ∈ settings, ¬ isPmc p.1) : Stable hw (Fresh hw settings) :=
    stable_fresh plain
  apply Program.wp_seq (wp_openMsr (stable (by decide)) fresh)
  intro _ s fresh
  apply Program.wp_seq (R := fun _ => Fresh hw [(0x186, 0x43412e)])
  · exact wp_msrWrite (stable (by decide)) (stable (by decide)) fresh fun s fresh => fresh.write (by decide) (by decide) _
  intro _ s fresh
  apply Program.wp_seq (R := fun _ => Fresh hw [(0x187, 0x434f2e), (0x186, 0x43412e)])
  · exact wp_msrWrite (stable (by decide)) (stable (by decide)) fresh fun s fresh => fresh.write (by decide) (by decide) _
  intro _ s fresh
  apply Program.wp_seq (R := fun _ => Fresh hw programmed)
  · exact wp_msrWrite (stable (by decide)) (stable (by decide)) fresh fun s fresh => fresh.write (by decide) (by decide) _
  intro _ s fresh
  apply rest
  refine ⟨⟨fresh.narrow, fresh.holds, ?_⟩, fresh.before⟩
  intro k v n between
  rw [fresh.before k] at between
  cases between

/-- The two reads of each counter, around the work. -/
theorem wp_reads {n : Nat} {next : Word → Word → Word → Word → LProg Unit} {Q : Unit → Track → Prop} {s : Track}
    (phase : Phase hw (fun _ => (· = .before)) s)
    (rest : ∀ v r : Count → Word, ∀ s, Closing hw v r (fun _ => True) [] s →
      (next (v .misses) (v .references) (r .misses) (r .references)).wp (view hw) Q s) :
    (do let l3MissesStart ← getL3CacheMisses 0
        let l3ReferencesStart ← getL3CacheReferences 0
        work n
        let l3MissesEnd ← getL3CacheMisses 0
        let l3ReferencesEnd ← getL3CacheReferences 0
        next l3MissesStart l3ReferencesStart l3MissesEnd l3ReferencesEnd : LProg Unit).wp (view hw) Q s := by
  have lasting₀ : ∀ k : Count, Lasting ((fun _ => (· = .before)) k) := fun _ => lasting_before
  have lasting₁ (v : Word) := lasting_update lasting₀ .misses (lasting_opened v)
  have lasting₂ (v v' : Word) := lasting_update (lasting₁ v) .references (lasting_opened v')
  have lasting₃ (v v' r : Word) := lasting_update (lasting₂ v v') .misses (Q := Gave hw v r) (lasting_gave v r)
  have lasting₄ (v v' r r' : Word) := lasting_update (lasting₃ v v' r) .references (Q := Gave hw v' r')
    (lasting_gave v' r')
  apply Program.wp_seq (wp_getTotal (stable_phase lasting₀) (fun v => stable_phase (lasting₁ v)) phase
    fun s phase => phase.start (j := .misses) rfl)
  intro v s phase
  apply Program.wp_seq (wp_getTotal (stable_phase (lasting₁ v)) (fun v' => stable_phase (lasting₂ v v')) phase
    fun s phase => phase.start (j := .references) rfl)
  intro v' s phase
  apply Program.wp_seq (wp_work (stable_phase (lasting₂ v v')) phase)
  intro _ s phase
  apply Program.wp_seq (wp_getTotal (stable_phase (lasting₂ v v')) (fun r => stable_phase (lasting₃ v v' r)) phase
    fun s phase => phase.finish (j := .misses) rfl)
  intro r s phase
  apply Program.wp_seq (wp_getTotal (stable_phase (lasting₃ v v' r)) (fun r' => stable_phase (lasting₄ v v' r r')) phase
    fun s phase => phase.finish (j := .references) rfl)
  intro r' s phase
  apply rest (fun k => k.casesOn v v') (fun k => k.casesOn r r')
  refine ⟨?_, trivial, fun _ => by simp⟩
  intro k
  have given := phase.windows k
  cases k with
  | misses => exact given
  | references => exact given

/-- The function as a whole: each count is the difference of the two reads of
its counter, and the registers written are 0. -/
theorem wp_countOver {n : Nat} {s : Track} (fresh : Fresh hw [] s) :
    (countOver n).wp (view hw) (fun _ s => ∃ v r, Closing hw v r (fun out => ∀ k, out k = r k - v k) cleared s) s := by
  apply wp_setUp fresh
  intro s phase
  apply wp_reads phase
  intro v r s closing
  refine Program.wp_mono (Q := fun _ => Closing hw v r (fun out => ∀ k, out k = r k - v k) cleared) ?_
    fun _ _ closing => ⟨v, r, closing⟩
  apply wp_store (P := fun out => out .misses = r .misses - v .misses) closing
  · intro out _
    exact Function.update_self ..
  intro s closing
  apply wp_store (P := fun out => ∀ k, out k = r k - v k) closing
  · intro out misses k
    cases k with
    | misses => exact (Function.update_of_ne (by decide) ..).trans misses
    | references => exact Function.update_self ..
  intro s closing
  have stored : Stable hw (Closing hw v r (fun out => ∀ k, out k = r k - v k) []) :=
    stable_closing fun _ _ _ => by simp [Holds]
  iterate 4
    apply wp_still stored closing (by rfl)
    intro _ s closing
  have off : Stable hw (Closing hw v r (fun out => ∀ k, out k = r k - v k) [(0x38f, 0)]) :=
    stable_closing fun _ t held => held.tick_off (by decide) t
  apply Program.wp_seq (wp_msrWrite stored off closing fun s closing =>
    ⟨closing.gave, closing.out, closing.holds.write (by decide) 0⟩)
  intro _ s closing
  iterate 2
    apply Program.wp_seq (Program.wp_seq (wp_clear closing (by decide) (by decide)) fun _ _ closing =>
      wp_clear closing (by decide) (by decide))
    intro _ s closing
  have done : Stable hw (Closing hw v r (fun out => ∀ k, out k = r k - v k) cleared) :=
    stable_closing fun _ t held => held.tick_off (by decide) t
  apply wp_still done closing (by rfl)
  intro _ s closing
  exact Program.wp_done done.rely closing

/-! ### Runs -/

/-- The difference in 64 bits of two values of a counter of `w` bits, between
which it has advanced by `n`. -/
theorem difference_iff {w n : Nat} {v r : Word} (wide : w ≤ 64) (small : v.toNat < 2 ^ w) (few : n < 2 ^ w)
    (value : r.toNat = (v.toNat + n) % 2 ^ w) : (r - v).toNat = n ↔ w = 64 ∨ v.toNat + n < 2 ^ w := by
  have power : 2 ^ w = 2 ^ 64 ↔ w = 64 := ⟨fun same => Nat.pow_right_injective (Nat.le_refl 2) same, fun same => same ▸ rfl⟩
  have bound : 2 ^ w ≤ 2 ^ 64 := Nat.pow_le_pow_right (by decide) wide
  rw [← power, BitVec.toNat_sub]
  by_cases wraps : v.toNat + n < 2 ^ w
  · rw [Nat.mod_eq_of_lt wraps] at value
    omega
  · rw [Nat.mod_eq_sub_mod (by omega), Nat.mod_eq_of_lt (by omega)] at value
    omega

/-- The registers that the function writes are 0. -/
def Cleared (R : Regs) : Prop := R ia32CrPerfGlobalCtrl = 0 ∧ ∀ k : Count, R k.select = 0 ∧ R k.pmc = 0

theorem cleared_of_holds {R : Regs} (holds : Holds cleared R) : Cleared R := by
  refine ⟨holds (0x38f, 0) (by decide), ?_⟩
  intro k
  cases k with
  | misses => exact ⟨holds (0x186, 0) (by decide), holds (0x0C1, 0) (by decide)⟩
  | references => exact ⟨holds (0x187, 0) (by decide), holds (0x0C2, 0) (by decide)⟩

/-- Every run that returns has read each counter twice, and leaves the registers cleared.
A count is right if and only if its counter did not wrap between its reads. -/
theorem returns {n : Nat} {m : Machine} (narrow : Narrow hw (m.msr 0)) {tr : List (Ev hw)}
    {c : Config Unit Act Act.Res Machine} (run : (machine hw).Run Succeeds ⟨m, fun _ => countOver n⟩ tr c)
    (returned : c.pool () = .done ()) :
    Cleared (c.state.msr 0) ∧ ∃ start : Count → Word, ∃ events : Count → Nat,
      ∀ k, window tr k = .ended (start k) (events k) ∧ (events k < 2 ^ hw.width →
        ((c.state.out k).toNat = events k ↔ hw.width = 64 ∨ (start k).toNat + events k < 2 ^ hw.width)) := by
  have fresh : Fresh hw [] (track ([] : List (Ev hw)) m) := ⟨narrow, fun _ => rfl, by simp [Holds]⟩
  have turn := ((shown hw).run (fun _ _ s => ∃ v r, Closing hw v r (fun out => ∀ k, out k = r k - v k) cleared s)
    run trivial fun _ => wp_countOver fresh).2 ()
  rw [returned] at turn
  obtain ⟨v, r, closing⟩ := turn _ .refl
  choose events ended using closing.gave
  refine ⟨cleared_of_holds closing.holds, v, events, ?_⟩
  intro k
  obtain ⟨window, small, value⟩ := ended k
  refine ⟨window, ?_⟩
  intro few
  have out : c.state.out k = r k - v k := closing.out k
  rw [out]
  exact difference_iff hw.widthLe small few value

/-- In every run that returns, with fewer events between the reads of a counter than the
counter can tell apart: the counts are those events and the registers are cleared if and
only if no counter of less than 64 bits wrapped between its reads. -/
theorem l3Counts_exact_iff {cpu : Int} {m : Machine} (narrow : Narrow hw (m.msr 0)) {tr : List (Ev hw)}
    {c : Config Unit Act Act.Res Machine}
    (run : (machine hw).Run Succeeds ⟨m, fun _ => countL3CacheMissesReferences cpu⟩ tr c)
    (returned : c.pool () = .done ()) :
    ∃ start : Count → Word, ∃ events : Count → Nat, (∀ k, window tr k = .ended (start k) (events k)) ∧
      ((∀ k, events k < 2 ^ hw.width) →
        (((∀ k, (c.state.out k).toNat = events k) ∧ Cleared (c.state.msr 0)) ↔
          ∀ k, hw.width = 64 ∨ (start k).toNat + events k < 2 ^ hw.width)) := by
  obtain ⟨clean, start, events, counted⟩ := returns narrow run returned
  refine ⟨start, events, fun k => (counted k).1, ?_⟩
  intro few
  constructor
  · rintro ⟨exact, -⟩ k
    exact ((counted k).2 (few k)).mp (exact k)
  · intro fits
    exact ⟨fun k => ((counted k).2 (few k)).mpr (fits k), clean⟩

/-! ### Schedules -/

def player (hw : Pmu) : System.Player (machine hw) where
  answer _ m
    | .openMsr _ => some (true, m)
    | .pread cpu reg => some (some (m.msr cpu reg), m)
    | .pwrite cpu reg v => some (true, m.write cpu reg v)
    | .add i => some ((), m.add i)
    | .store k v => some ((), m.store k v)
    | .load k => some (m.out k, m)
    | .close _ | .complain _ | .perror _ | .printf _ => some ((), m)
    | .errno | .uninitialised => none
  respond e m := some (m.tick e.1 e.2)
  answer_sound {t m o r m'} answered := by
    cases o with
    | errno | uninitialised => cases answered
    | pread =>
      obtain ⟨here, rfl⟩ := Prod.mk.inj (Option.some.inj answered)
      exact ⟨Or.inl here.symm, rfl⟩
    | pwrite =>
      obtain ⟨here, there⟩ := Prod.mk.inj (Option.some.inj answered)
      exact Or.inl ⟨here.symm, there.symm⟩
    | load =>
      obtain ⟨here, rfl⟩ := Prod.mk.inj (Option.some.inj answered)
      exact ⟨here.symm, rfl⟩
    | _ => exact (Prod.mk.inj (Option.some.inj answered)).2.symm
  respond_sound responded := (Option.some.inj responded).symm

def succeedsCheck (_ : List (Ev hw)) (_ : Machine) : Ev hw → Bool
  | .act _ (.openMsr _) r | .act _ (.pwrite ..) r => r
  | .act _ (.pread ..) r => r.isSome
  | _ => true

theorem succeeds_of_check (tr : List (Ev hw)) (m : Machine) (e : Ev hw) (checked : succeedsCheck tr m e = true) :
    Succeeds tr m e := by
  cases e with
  | env _ => trivial
  | act _ o r =>
    cases o with
    | openMsr | pwrite | pread => exact checked
    | _ => trivial

/-- The work runs to its end and changes `sum` alone. -/
theorem run_work {l : List Nat} {next : LProg Unit} {c₀ c : Config Unit Act Act.Res Machine} {tr : List (Ev hw)}
    (run : (machine hw).Run Succeeds c₀ tr c)
    (here : c.pool () = (forEach l (fun i => perform (.add i)) >>= fun _ => next)) :
    ∃ sum, (machine hw).Run Succeeds c₀ (tr ++ l.map fun i => .act () (.add i) ())
      ⟨{ c.state with sum := sum }, fun _ => next⟩ := by
  induction l generalizing c tr with
  | nil =>
    refine ⟨c.state.sum, ?_⟩
    have same : c = ⟨{ c.state with sum := c.state.sum }, fun _ => next⟩ := by
      obtain ⟨state, pool⟩ := c
      have pool_eq : pool = fun _ => next := funext fun _ => here
      rw [pool_eq]
    rw [List.map_nil, List.append_nil, ← same]
    exact run
  | cons i l ih =>
    have head : c.pool () = .act (.add i) fun _ => forEach l (fun i => perform (.add i)) >>= fun _ => next := here
    have effect : (machine hw).act () c.state (.add i) () (c.state.add i) := rfl
    have added : Succeeds tr c.state (.act () (.add i) () : Ev hw) := trivial
    obtain ⟨sum, later⟩ := ih (run.step added (.act head effect)) (by simp)
    refine ⟨sum, ?_⟩
    rw [List.map_cons, List.append_cons]
    exact later

theorem fold_add (l : List Nat) (k : Count) (w : Window) :
    (l.map fun i => (.act () (.add i) () : Ev hw)).foldl (windowStep k) w = w := by
  induction l with
  | nil => rfl
  | cons i l ih => exact ih

/-- On CPU 0 one L3 miss follows the first reads. -/
theorem run_oneMiss (n : Nat) (m : Machine) : ∃ (tr : List (Ev .exact)) (c : Config Unit Act Act.Res Machine),
    (machine .exact).Run Succeeds ⟨m, fun _ => countOver n⟩ tr c ∧ c.pool () = .done () ∧
      window tr .misses = .ended (m.msr 0 0x0C1) 1 ∧ window tr .references = .ended (m.msr 0 0x0C2) 0 := by
  have first : (player .exact).play succeedsCheck (List.replicate 6 (.inl ()) ++ [.inr (0, 0x2e, 0x41)]) []
      ⟨m, fun _ => countOver n⟩ = some ([.act () (.openMsr 0) true, .act () (.pwrite 0 0x186 0x43412e) true,
        .act () (.pwrite 0 0x187 0x434f2e) true, .act () (.pwrite 0 0x38f 0xf) true,
        .act () (.pread 0 0x0C1) (some (m.msr 0 0x0C1)), .act () (.pread 0 0x0C2) (some (m.msr 0 0x0C2)),
        .env (0, 0x2e, 0x41)], _) := rfl
  obtain ⟨sum, worked⟩ := run_work ((player .exact).play_run succeeds_of_check .start first) rfl
  have ended := (player .exact).play_run succeeds_of_check worked
    (rfl : (player .exact).play succeedsCheck (List.replicate 14 (.inl ())) _ _ = some (_, _))
  refine ⟨_, _, ended, rfl, ?_, ?_⟩
  · simp only [window, List.foldl_append, fold_add]
    rfl
  · simp only [window, List.foldl_append, fold_add]
    rfl

/-- Nothing but the value of PMC0 and PMC1 in the registers of all CPUs. -/
def preset (pmc0 pmc1 : Word) : Machine where
  msr _ a := if a = 0x0C1 then pmc0 else if a = 0x0C2 then pmc1 else 0
  out _ := 0
  aa _ := 0
  bb _ := 0
  sum _ := 0

theorem narrow_preset {pmc0 pmc1 : Word} (small : pmc0.toNat < 2 ^ 48 ∧ pmc1.toNat < 2 ^ 48) (x : Cpu) :
    Narrow .exact ((preset pmc0 pmc1).msr x) := by
  intro k
  cases k with
  | misses => exact small.1
  | references => exact small.2

/-- PMC0 starts at 5 and PMC1 at 7. -/
theorem l3Counts_oneMiss : ∃ (tr : List (Ev .exact)) (c : Config Unit Act Act.Res Machine),
    (machine .exact).Run Succeeds ⟨preset 5 7, fun _ => countL3CacheMissesReferences 0⟩ tr c ∧ c.pool () = .done () ∧
      (c.state.out .misses).toNat = 1 ∧ (c.state.out .references).toNat = 0 ∧ Cleared (c.state.msr 0) := by
  obtain ⟨tr, c, run, returned, misses, references⟩ := run_oneMiss 256000 (preset 5 7)
  have called : (machine .exact).Run Succeeds ⟨preset 5 7, fun _ => countL3CacheMissesReferences 0⟩ tr c := run
  obtain ⟨start, events, ended, exact⟩ := l3Counts_exact_iff (narrow_preset (by decide) 0) called returned
  obtain ⟨startMisses, one⟩ := Window.ended.inj ((ended .misses).symm.trans misses)
  obtain ⟨startReferences, none⟩ := Window.ended.inj ((ended .references).symm.trans references)
  have few : ∀ k, events k < 2 ^ 48 := by
    intro k
    cases k with
    | misses => rw [one]; decide
    | references => rw [none]; decide
  have fits : ∀ k, Pmu.exact.width = 64 ∨ (start k).toNat + events k < 2 ^ 48 := by
    intro k
    cases k with
    | misses => rw [one, startMisses]; decide
    | references => rw [none, startReferences]; decide
  obtain ⟨counts, clean⟩ := (exact few).mpr fits
  exact ⟨tr, c, called, returned, one ▸ counts .misses, none ▸ counts .references, clean⟩

/-- PMC0 starts just below its wrap, and one miss is not reported as one. -/
theorem l3Counts_wrapped : ∃ (tr : List (Ev .exact)) (c : Config Unit Act Act.Res Machine),
    (machine .exact).Run Succeeds ⟨preset 0xffffffffffff 0, fun _ => countL3CacheMissesReferences 0⟩ tr c ∧
      c.pool () = .done () ∧ window tr .misses = .ended 0xffffffffffff 1 ∧ (c.state.out .misses).toNat ≠ 1 := by
  obtain ⟨tr, c, run, returned, misses, -⟩ := run_oneMiss 256000 (preset 0xffffffffffff 0)
  obtain ⟨-, start, events, counted⟩ := returns (narrow_preset (by decide) 0) run returned
  obtain ⟨ended, exact⟩ := counted .misses
  obtain ⟨startMisses, one⟩ := Window.ended.inj (ended.symm.trans misses)
  refine ⟨tr, c, run, returned, misses, ?_⟩
  rw [one, startMisses] at exact
  intro right
  rcases (exact (by decide)).mp right with wide | fits
  · revert wide
    decide
  · revert fits
    decide

end PmcBench.L3Counts
