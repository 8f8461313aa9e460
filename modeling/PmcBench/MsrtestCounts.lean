import PmcBench.Msrtest

/-!
# What msrtest prints (msrtest.cc)

The printed numbers of a CPU whose accesses succeed, as differences of two readings
whose window is in the history of the run. `main_exact_iff` says when they are the
numbers of events, whatever becomes of the accesses to the other CPUs.
-/

namespace PmcBench.Msrtest
open Threads Words
open Program (forEach)
open L3Counts (Window)

variable {hw : FixedPmu} {i : Nat}

/-! ### The view of one CPU -/

/-- The registers and windows of CPU `i`, the variables, and what has been printed. -/
structure Track where
  regs : Regs
  window : Fin 3 → Window
  vars : Var → Word
  printed : List Line

def track (i : Nat) (tr : List (Ev hw)) (m : Machine) : Track := ⟨m.msr i, window i tr, m.vars, Msrtest.printed tr⟩

namespace Track

def tick (hw : FixedPmu) (s : Track) (t : hw.Tick) : Track :=
  { s with regs := hw.tick s.regs t, window := fun k => (s.window k).event (hits hw k t) }

def write (s : Track) (reg : Nat) (v : Word) : Track := { s with regs := Function.update s.regs reg v }

def store (s : Track) (x : Var) (v : Word) : Track := { s with vars := Function.update s.vars x v }

def read (s : Track) (reg : Nat) : Track :=
  { s with window := fun k => if reg = fixedAddr k then (s.window k).read (s.regs reg) else s.window k }

def next (i : Nat) (s : Track) : (o : Act) → o.Res → Track → Prop
  | .declare x, _, s' => ∃ v, s' = s.store x v
  | .pread cpu reg x, _, s' =>
    if cpu = i then s' = (s.read reg).store x (s.regs reg) else s' = s ∨ ∃ v, s' = s.store x v
  | .pwrite cpu reg v, _, s' => if cpu = i then s' = s.write reg v else s' = s
  | .load x, r, s' => r = s.vars x ∧ s' = s
  | .cout line, _, s' => s' = { s with printed := s.printed ++ [line] }
  | _, _, s' => s' = s

end Track

abbrev view (hw : FixedPmu) (i : Nat) : View Act Act.Res where
  St := Track
  rely s s' := ∃ t : hw.Tick, s' = s.tick hw t
  allow _ _ := True
  next s o r s' := s.next i o r s'

theorem window_snoc (tr : List (Ev hw)) (e : Ev hw) (k : Fin 3) :
    window i (tr ++ [e]) k = windowStep i k (window i tr k) e := by
  simp [window]

/-- An event that no window sees and that prints nothing. -/
theorem track_snoc {tr : List (Ev hw)} {e : Ev hw} (m : Machine) (unseen : ∀ k w, windowStep i k w e = w)
    (quiet : printed [e] = []) : track i (tr ++ [e]) m = { track i tr m with regs := m.msr i, vars := m.vars } := by
  have windows : window i (tr ++ [e]) = window i tr := by
    funext k
    rw [window_snoc, unseen]
  have lines : printed (tr ++ [e]) = printed tr := by
    rw [printed, List.filterMap_append]
    exact (congrArg (printed tr ++ ·) quiet).trans (List.append_nil _)
  rw [track, windows, lines]
  rfl

theorem track_act {tr : List (Ev hw)} {m m' : Machine} {o : Act} {r : o.Res} (step : effect m o r m')
    (ok : Succeeds i tr m (.act () o r)) : (track i tr m).next i o r (track i (tr ++ [.act () o r]) m') := by
  cases o with
  | pread cpu reg x =>
    obtain ⟨rfl, rfl⟩ | ⟨rfl, rfl⟩ := step
    · by_cases here : cpu = i
      · subst here
        have windows : window cpu (tr ++ [.act () (.pread cpu reg x) (some (m.msr cpu reg))]) =
            ((track cpu tr m).read reg).window := by
          funext k
          rw [window_snoc]
          by_cases same : reg = fixedAddr k <;> simp [windowStep, Track.read, track, same]
        have lines : printed (tr ++ [.act () (.pread cpu reg x) (some (m.msr cpu reg))]) = printed tr := by
          simp [printed]
        rw [Track.next, if_pos rfl, track, windows, lines]
        rfl
      · rw [Track.next, if_neg here]
        refine Or.inr ⟨m.msr cpu reg, ?_⟩
        rw [track_snoc _ (fun k w => by simp [windowStep, here]) rfl]
        rfl
    · have other : cpu ≠ i := by
        intro here
        cases ok here
      rw [Track.next, if_neg other]
      refine Or.inl ?_
      rw [track_snoc _ (fun k w => rfl) rfl]
      rfl
  | pwrite cpu reg v =>
    rw [track_snoc _ (fun k w => rfl) rfl]
    obtain ⟨rfl, rfl⟩ | ⟨rfl, rfl⟩ := step
    · by_cases here : cpu = i
      · subst here
        rw [Track.next, if_pos rfl]
        simp [track, Track.write, Machine.write]
      · rw [Track.next, if_neg here]
        simp [track, Machine.write, Function.update_of_ne (Ne.symm here)]
    · have other : cpu ≠ i := by
        intro here
        cases ok here
      rw [Track.next, if_neg other]
      rfl
  | declare x =>
    obtain ⟨v, rfl⟩ := step
    refine ⟨v, ?_⟩
    rw [track_snoc _ (fun k w => rfl) rfl]
    rfl
  | load x =>
    obtain ⟨rfl, rfl⟩ := step
    refine ⟨rfl, ?_⟩
    rw [track_snoc _ (fun k w => rfl) rfl]
    rfl
  | cout line =>
    obtain rfl := step
    have windows : window i (tr ++ [.act () (.cout line) r]) = window i tr := by
      funext k
      rw [window_snoc]
      rfl
    have lines : printed (tr ++ [.act () (.cout line) r]) = printed tr ++ [line] := by
      simp [printed]
    show track _ _ _ = _
    rw [track, windows, lines]
    rfl
  | openMsr | cerr | terminate | assertFailed | sleep | close =>
    obtain rfl := step
    show track _ _ _ = _
    rw [track_snoc _ (fun k w => rfl) rfl]
    rfl

theorem track_tick (tr : List (Ev hw)) (m : Machine) (t : hw.Tick) :
    track i (tr ++ [.env (i, t)]) (m.tick i t) = (track i tr m).tick hw t := by
  have windows : window i (tr ++ [.env (i, t)]) = fun k => (window i tr k).event (hits hw k t) := by
    funext k
    rw [window_snoc]
    simp [windowStep]
  have lines : printed (tr ++ [.env (i, t)]) = printed tr := by simp [printed]
  rw [track, windows, lines]
  simp [track, Track.tick, Machine.tick]

theorem track_elsewhere (tr : List (Ev hw)) (m : Machine) {x : Nat} (other : x ≠ i) (t : hw.Tick) :
    track i (tr ++ [.env (x, t)]) (m.tick x t) = track i tr m := by
  rw [track_snoc _ (fun k w => by simp [windowStep, other]) rfl]
  simp [track, Machine.tick, Function.update_of_ne (Ne.symm other)]

def shown (hw : FixedPmu) (i : Nat) : RelyGuarantee (machine hw) (Succeeds i) where
  view _ := view hw i
  abs _ tr m := track i tr m
  inv _ _ := True
  own _ _ ok step := track_act step ok
  others different _ _ _ _ := (different rfl).elim
  moves {u tr m e m'} _ _ step := by
    obtain ⟨x, t⟩ := e
    obtain rfl := step
    by_cases here : x = i
    · subst here
      exact .single ⟨t, track_tick tr m t⟩
    · have same := track_elsewhere tr m here t
      rw [same]
  inv_act _ _ _ _ := trivial
  inv_env _ _ _ := trivial

/-! ### One counter -/

theorem getLsbD_countRings (v : Word) (k : Fin 3) (b : Nat) :
    (countRings v k).getLsbD b = if 4 * k ≤ b ∧ b < 4 * k + 4 then decide (b - 4 * k < 2) else v.getLsbD b := by
  have bit {f : BitField 64} {d : Nat} (lo : f.lo = 4 * k + d) (one : f.width = 1) (x : BitVec f.width) (w : Word) :
      (f.set x w).getLsbD b = if b = 4 * k + d then x.getLsbD 0 else w.getLsbD b := by
    rw [BitField.getLsbD_set, lo]
    by_cases here : b = 4 * k + d
    · rw [if_pos (by omega), if_pos here, here, Nat.sub_self]
    · rw [if_neg (by omega), if_neg here]
  rw [countRings, bit (d := 3) rfl rfl, bit (d := 2) rfl rfl, bit (d := 1) rfl rfl, bit (d := 0) rfl rfl]
  by_cases inside : 4 * (k : Nat) ≤ b ∧ b < 4 * k + 4
  · obtain ⟨d, rfl⟩ := Nat.exists_eq_add_of_le inside.1
    have four : d < 4 := by omega
    rw [if_pos inside, Nat.add_sub_cancel_left]
    interval_cases d <;> simp [FixedEventControlRegister.os, FixedEventControlRegister.usr]
  · rw [if_neg inside, if_neg (by omega), if_neg (by omega), if_neg (by omega), if_neg (by omega)]

/-- Bits 0 and 1 of the four of each counter are set. -/
theorem getLsbD_foldl_countRings (v : Word) (b : Nat) :
    ((List.finRange 3).foldl countRings v).getLsbD b = if b < 12 then decide (b % 4 < 2) else v.getLsbD b := by
  show (countRings (countRings (countRings v 0) 1) 2).getLsbD b = _
  simp only [getLsbD_countRings]
  by_cases small : b < 12
  · rw [if_pos small]
    interval_cases b <;> rfl
  · rw [if_neg small]
    rw [if_neg (by simp; omega), if_neg (by simp; omega), if_neg (by simp; omega)]

/-- The control registers while `main` counts; `ctrl` is what FIXED_CTR_CTRL held before. -/
structure Counting (ctrl : Word) (R : Regs) : Prop where
  fixed : R ia32CrFixedCtrCtrl = (List.finRange 3).foldl countRings ctrl
  global : R ia32CrPerfGlobalCtrl = startCounting

theorem Counting.tick {ctrl : Word} {R : Regs} (counting : Counting ctrl R) (t : hw.Tick) :
    Counting ctrl (hw.tick R t) := by
  have fixed := FixedPmu.tick_other (R := R) (a := ia32CrFixedCtrCtrl) (by decide) (by decide) t
  have global := FixedPmu.tick_other (R := R) (a := ia32CrPerfGlobalCtrl) (by decide) (by decide) t
  exact ⟨fixed.trans counting.fixed, global.trans counting.global⟩

/-- Meanwhile each counter advances on exactly its event, in both rings. -/
theorem Counting.counts {ctrl : Word} {R : Regs} (counting : Counting ctrl R) (k : Fin 3) (t : hw.Tick) :
    hw.countsFixed R k t = hits hw k t := by
  have enabled : startCounting.getLsbD (32 + k) = true := by
    revert k
    decide
  have small : (k : Nat) < 3 := k.isLt
  have level : (if hw.user t then FixedEventControlRegister.usr k else FixedEventControlRegister.os k).lo < 12 ∧
      (if hw.user t then FixedEventControlRegister.usr k else FixedEventControlRegister.os k).lo % 4 < 2 := by
    cases hw.user t <;> simp [FixedEventControlRegister.usr, FixedEventControlRegister.os] <;> omega
  have sibling : (FixedEventControlRegister.anyThread k).lo < 12 ∧ ¬ (FixedEventControlRegister.anyThread k).lo % 4 < 2 := by
    simp [FixedEventControlRegister.anyThread]
    omega
  rw [FixedPmu.countsFixed, counting.global, counting.fixed, enabled, getLsbD_foldl_countRings, getLsbD_foldl_countRings,
    if_pos level.1, if_pos sibling.1, decide_eq_true level.2, decide_eq_false sibling.2]
  simp [hits]

/-- What concerns one counter: its value, its window, and the two variables it is read into. -/
structure Cell where
  value : Word
  window : Window
  before : Word
  after : Word

def Track.cell (s : Track) (i : Nat) (k : Fin 3) : Cell where
  value := s.regs (fixedAddr k)
  window := s.window k
  before := s.vars (.before i k)
  after := s.vars (.after i k)

namespace Cell

def Unread (c : Cell) : Prop := c.window = .before

/-- Read once: since then the counter has advanced by the events of its window. -/
def Opened (hw : FixedPmu) (c : Cell) : Prop := ∃ n, c.window = .between c.before n ∧
  c.before.toNat < 2 ^ hw.fixedWidth ∧ c.value.toNat = (c.before.toNat + n) % 2 ^ hw.fixedWidth

def Gave (hw : FixedPmu) (c : Cell) : Prop := ∃ n, c.window = .ended c.before n ∧
  c.before.toNat < 2 ^ hw.fixedWidth ∧ c.after.toNat = (c.before.toNat + n) % 2 ^ hw.fixedWidth

/-- Events keep `P`, as long as the counter counts them. -/
def Lasting (hw : FixedPmu) (P : Cell → Prop) : Prop := ∀ c v hit, P c →
  (∀ x, c.value.toNat = x % 2 ^ hw.fixedWidth → v.toNat = (if hit then x + 1 else x) % 2 ^ hw.fixedWidth) →
    P { c with value := v, window := c.window.event hit }

theorem lasting_unread : Lasting hw Unread := by
  intro c v hit unread _
  show c.window.event hit = .before
  rw [show c.window = .before from unread]
  rfl

theorem lasting_opened : Lasting hw (Opened hw) := by
  intro c v hit opened advance
  obtain ⟨n, window, small, value⟩ := opened
  refine ⟨if hit then n + 1 else n, ?_, small, ?_⟩
  · show c.window.event hit = _
    rw [window]
    rfl
  · have moved := advance _ value
    rwa [Nat.add_assoc, ← apply_ite (c.before.toNat + ·)] at moved

theorem lasting_gave : Lasting hw (Gave hw) := by
  intro c v hit gave _
  obtain ⟨n, window, facts⟩ := gave
  refine ⟨n, ?_, facts⟩
  show c.window.event hit = _
  rw [window]
  rfl

end Cell

/-- Counting, with nothing printed yet. -/
structure Metered (hw : FixedPmu) (ctrl : Word) (s : Track) : Prop where
  counting : Counting ctrl s.regs
  narrow : hw.Narrow s.regs
  silent : s.printed = []

theorem Metered.tick {ctrl : Word} {s : Track} (metered : Metered hw ctrl s) (t : hw.Tick) :
    Metered hw ctrl (s.tick hw t) :=
  ⟨metered.counting.tick t, metered.narrow.tick t, metered.silent⟩

theorem cell_tick {P : Cell → Prop} (lasting : Cell.Lasting hw P) {ctrl : Word} {s : Track}
    (counting : Counting ctrl s.regs) {k : Fin 3} (held : P (s.cell i k)) (t : hw.Tick) : P ((s.tick hw t).cell i k) := by
  have moved := lasting (s.cell i k) (hw.tick s.regs t (fixedAddr k)) (hits hw k t) held
  apply moved
  intro x value
  rw [FixedPmu.toNat_tick_fixed value, counting.counts]

/-! ### The loops -/

/-- Events on CPU `i` keep `φ`. -/
def Stable (hw : FixedPmu) (φ : Track → Prop) : Prop := ∀ s, φ s → ∀ t : hw.Tick, φ (s.tick hw t)

theorem Stable.rely {φ : Track → Prop} (stable : Stable hw φ) (s s' : Track) (now : φ s)
    (moved : (view hw i).rely s s') : φ s' := by
  obtain ⟨t, rfl⟩ := moved
  exact stable s now t

/-- Actions that leave CPU `i` alone and print nothing. -/
def Elsewhere (i : Nat) : Act → Prop
  | .pread cpu .. | .pwrite cpu .. => cpu ≠ i
  | .cout _ => False
  | _ => True

theorem Elsewhere.still {o : Act} {r : o.Res} {s s' : Track} (elsewhere : Elsewhere i o) (step : s.next i o r s') :
    s' = s ∨ ∃ x v, s' = s.store x v := by
  cases o with
  | pread cpu reg x =>
    rw [Track.next, if_neg elsewhere] at step
    exact step.imp_right fun stored => ⟨x, stored⟩
  | pwrite cpu reg v =>
    rw [Track.next, if_neg elsewhere] at step
    exact Or.inl step
  | declare x => exact Or.inr ⟨x, step⟩
  | load x => exact Or.inl step.2
  | cout line => exact elsewhere.elim
  | openMsr | cerr | terminate | assertFailed | sleep | close => exact Or.inl step

theorem wp_elsewhere {α : Type} {p : TProg α} {φ : Track → Prop} {s : Track} (all : p.All (Elsewhere i))
    (stable : Stable hw φ) (stored : ∀ s x v, φ s → φ (s.store x v)) (now : φ s) :
    p.wp (view hw i) (fun _ => φ) s := by
  apply Program.wp_of_preserves (V := view hw i) (stable.rely) _ now
  apply all.mono
  intro o elsewhere s held
  refine ⟨trivial, fun r u step => ?_⟩
  obtain rfl | ⟨x, v, rfl⟩ := elsewhere.still step
  · exact held
  · exact stored s x v held

theorem all_openMsr (j : Nat) : (openMsr j).All (Elsewhere i) := by
  refine ⟨trivial, fun opened => ?_⟩
  cases opened with
  | true => trivial
  | false => exact ⟨trivial, fun _ => ⟨trivial, fun never => never.elim⟩⟩

theorem all_setUp {j : Nat} (other : j ≠ i) (cpuMsr : Word) : (setUp cpuMsr j).All (Elsewhere i) := by
  apply (all_openMsr j).bind
  intro _
  simp only [assert_nonneg, Program.done_bind]
  exact ⟨trivial, fun _ => ⟨other, fun _ => ⟨trivial, fun _ => ⟨other, fun _ => ⟨other, fun _ => trivial⟩⟩⟩⟩⟩

/-- Before the first read: nothing printed, no window open, and `F` of the registers. -/
structure Fresh (hw : FixedPmu) (F : Regs → Prop) (s : Track) : Prop where
  narrow : hw.Narrow s.regs
  silent : s.printed = []
  unread : ∀ k, s.window k = .before
  regs : F s.regs

theorem stable_fresh {F : Regs → Prop} (kept : ∀ R, F R → ∀ t, F (hw.tick R t)) : Stable hw (Fresh hw F) := by
  intro s fresh t
  refine ⟨fresh.narrow.tick t, fresh.silent, fun k => ?_, kept _ fresh.regs t⟩
  show (s.window k).event (hits hw k t) = .before
  rw [fresh.unread k]
  rfl

theorem Fresh.write {F G : Regs → Prop} {s : Track} {reg : Nat} {v : Word} (fresh : Fresh hw F s) (other : ¬ isFixed reg)
    (written : ∀ R, F R → G (Function.update R reg v)) : Fresh hw G (s.write reg v) := by
  refine ⟨fun k => ?_, fresh.silent, fresh.unread, written _ fresh.regs⟩
  have apart : fixedAddr k ≠ reg := by
    rintro rfl
    exact other ⟨Nat.le_add_right .., by rw [fixedAddr, Nat.add_sub_cancel_left]; exact k.isLt⟩
  have same : (s.write reg v).regs (fixedAddr k) = s.regs (fixedAddr k) := Function.update_of_ne apart ..
  rw [same]
  exact fresh.narrow k

def Control (v : Word) (R : Regs) : Prop := R ia32CrFixedCtrCtrl = v

theorem Control.tick {v : Word} (R : Regs) (held : Control v R) (t : hw.Tick) : Control v (hw.tick R t) :=
  (FixedPmu.tick_other (by decide) (by decide) t).trans held

theorem wp_setUp_own {ctrl cpuMsr : Word} {s : Track} (fresh : Fresh hw (Control ctrl) s) :
    (setUp cpuMsr i).wp (view hw i) (fun _ => Fresh hw (Counting ctrl)) s := by
  have control (v : Word) : Stable hw (Fresh hw (Control v)) := stable_fresh fun R held t => held.tick R t
  unfold setUp
  apply Program.wp_seq (wp_elsewhere (all_openMsr i) (control ctrl) (fun _ _ _ fresh => ⟨fresh.1, fresh.2, fresh.3, fresh.4⟩)
    fresh)
  intro _ s fresh
  simp only [read, write, perform, assert_nonneg, Program.call_bind, Program.act_bind, Program.pure_eq, Program.done_bind]
  apply Program.wp_act (control ctrl).rely fresh
  intro s fresh
  refine ⟨trivial, fun _ u step => ?_⟩
  obtain ⟨v, rfl⟩ := step
  have declared : Fresh hw (Control ctrl) (s.store .ctrlReg v) := ⟨fresh.1, fresh.2, fresh.3, fresh.4⟩
  apply Program.wp_act (control ctrl).rely declared
  intro s fresh
  refine ⟨trivial, fun r u step => ?_⟩
  -- The read finds what the register held, and no window is opened.
  obtain rfl : u = (s.read ia32CrFixedCtrCtrl).store .ctrlReg (s.regs ia32CrFixedCtrCtrl) := by
    simpa [Track.next] using step
  have closed : s.read ia32CrFixedCtrCtrl = s := by
    have apart (k : Fin 3) : ia32CrFixedCtrCtrl ≠ fixedAddr k := by
      revert k
      decide
    simp [Track.read, apart]
  let Loaded (s : Track) : Prop := Fresh hw (Control ctrl) s ∧ s.vars .ctrlReg = ctrl
  have loaded : Stable hw Loaded := fun s held t => ⟨control ctrl s held.1 t, held.2⟩
  have read : Loaded ((s.read ia32CrFixedCtrCtrl).store .ctrlReg (s.regs ia32CrFixedCtrCtrl)) := by
    rw [closed]
    refine ⟨⟨fresh.1, fresh.2, fresh.3, fresh.4⟩, ?_⟩
    exact (Function.update_self Var.ctrlReg _ s.vars).trans fresh.regs
  apply Program.wp_act loaded.rely read
  intro s held
  obtain ⟨fresh, value⟩ := held
  refine ⟨trivial, fun r u step => ?_⟩
  obtain ⟨rfl, rfl⟩ := step
  rw [value]
  apply Program.wp_act (control ctrl).rely fresh
  intro s fresh
  refine ⟨trivial, fun written u step => ?_⟩
  obtain rfl : u = s.write ia32CrFixedCtrCtrl ((List.finRange 3).foldl countRings ctrl) := by
    simpa [Track.next] using step
  apply Program.wp_act (control _).rely (fresh.write (by decide) fun R _ => Function.update_self ..)
  intro s fresh
  refine ⟨trivial, fun written u step => ?_⟩
  obtain rfl : u = s.write ia32CrPerfGlobalCtrl startCounting := by simpa [Track.next] using step
  have counting : Stable hw (Fresh hw (Counting ctrl)) := stable_fresh fun R held t => held.tick t
  refine Program.wp_done (V := view hw i) (Q := fun _ : Unit => Fresh hw (Counting ctrl)) counting.rely ?_
  apply fresh.write (by decide)
  intro R held
  exact ⟨(Function.update_of_ne (by decide) ..).trans held, Function.update_self ..⟩

theorem wp_setUp {ctrl cpuMsr : Word} {s : Track} (core : i < numCores) (fresh : Fresh hw (Control ctrl) s) :
    (forEach (List.range numCores) (setUp cpuMsr)).wp (view hw i)
      (fun _ s => Metered hw ctrl s ∧ ∀ k, (s.cell i k).Unread) s := by
  let I (j : Nat) : Track → Prop := Fresh hw (if i < j then Counting ctrl else Control ctrl)
  have stable (j : Nat) : Stable hw (I j) := by
    apply stable_fresh
    intro R held t
    by_cases set : i < j
    · rw [if_pos set] at held ⊢
      exact held.tick t
    · rw [if_neg set] at held ⊢
      exact held.tick R t
  apply Program.wp_forEach_range (I := I)
  · exact fresh
  · exact fun j => (stable j).rely
  · intro j s _ held
    by_cases here : j = i
    · subst here
      have before : Fresh hw (Control ctrl) s := by simpa [I] using held
      simpa [I] using wp_setUp_own before
    · have same : I (j + 1) = I j := by
        have iff : i < j + 1 ↔ i < j := by omega
        simp only [I, iff]
      rw [same]
      exact wp_elsewhere (all_setUp here cpuMsr) (stable j) (fun _ _ _ fresh => ⟨fresh.1, fresh.2, fresh.3, fresh.4⟩) held
  · intro s done
    have counting : Fresh hw (Counting ctrl) s := by simpa [I, core] using done
    exact ⟨⟨counting.regs, counting.narrow, counting.silent⟩, counting.unread⟩

/-- A loop of reads into the variables `x`: a read of its own counter makes `Q` of `P`, and
the other reads leave the cell alone. -/
structure Fills (hw : FixedPmu) (i : Nat) (x : Nat → Fin 3 → Var) (fill : Cell → Cell) (P Q : Cell → Prop) : Prop where
  own : ∀ s : Track, ∀ k, ((s.read (fixedAddr k)).store (x i k) (s.regs (fixedAddr k))).cell i k = fill (s.cell i k)
  others : ∀ s : Track, ∀ j l k v, (j, l) ≠ (i, k) → (s.store (x j l) v).cell i k = s.cell i k
  moves : ∀ c, c.value.toNat < 2 ^ hw.fixedWidth → P c → Q (fill c)

/-- The cells whose reads are among the rest have `P`, and the others have `Q`. -/
structure Reading (hw : FixedPmu) (i : Nat) (ctrl : Word) (P Q : Cell → Prop) (rest : List (Nat × Fin 3)) (s : Track) :
    Prop where
  metered : Metered hw ctrl s
  due : ∀ k, (i, k) ∈ rest → P (s.cell i k)
  done : ∀ k, (i, k) ∉ rest → Q (s.cell i k)

section Reads
variable {ctrl : Word} {x : Nat → Fin 3 → Var} {fill : Cell → Cell} {P Q : Cell → Prop} {s u : Track}
  {rest : List (Nat × Fin 3)} {j : Nat} {l : Fin 3}

theorem stable_reading (lastingP : Cell.Lasting hw P) (lastingQ : Cell.Lasting hw Q) :
    Stable hw (Reading hw i ctrl P Q rest) := by
  intro s held t
  have counting := held.metered.counting
  exact ⟨held.metered.tick t, fun k unread => cell_tick lastingP counting (held.due k unread) t,
    fun k read => cell_tick lastingQ counting (held.done k read) t⟩

/-- A read fills its own cell, and leaves the registers, the output and the other cells alone. -/
theorem Fills.read (fills : Fills hw i x fill P Q) {r : Option Word}
    (step : s.next i (.pread j (fixedAddr l) (x j l)) r u) :
    u.regs = s.regs ∧ u.printed = s.printed ∧ (∀ k, (j, l) = (i, k) → u.cell i k = fill (s.cell i k)) ∧
      ∀ k, (j, l) ≠ (i, k) → u.cell i k = s.cell i k := by
  by_cases here : j = i
  · subst here
    obtain rfl : u = (s.read (fixedAddr l)).store (x j l) (s.regs (fixedAddr l)) := by
      simpa [Track.next] using step
    refine ⟨rfl, rfl, fun k own => ?_, fun k other => ?_⟩
    · obtain rfl := (Prod.mk.inj own).2
      exact fills.own s l
    · have apart : fixedAddr l ≠ fixedAddr k := by
        intro equal
        exact other (by rw [Fin.ext (Nat.add_left_cancel equal)])
      rw [fills.others _ _ _ _ _ other]
      simp [Track.cell, Track.read, apart]
  · have stored : u = s ∨ ∃ v, u = s.store (x j l) v := by simpa [Track.next, here] using step
    have absent (k : Fin 3) : (j, l) ≠ (i, k) := fun own => here (Prod.mk.inj own).1
    obtain rfl | ⟨v, rfl⟩ := stored
    · exact ⟨rfl, rfl, fun k own => (absent k own).elim, fun _ _ => rfl⟩
    · exact ⟨rfl, rfl, fun k own => (absent k own).elim, fun k other => fills.others _ _ _ _ _ other⟩

theorem Reading.read (fills : Fills hw i x fill P Q) (fresh : (j, l) ∉ rest)
    (held : Reading hw i ctrl P Q ((j, l) :: rest) s) {r : Option Word}
    (step : s.next i (.pread j (fixedAddr l) (x j l)) r u) : Reading hw i ctrl P Q rest u := by
  obtain ⟨regs, printed, own, others⟩ := fills.read step
  have metered := held.metered
  refine ⟨⟨?_, ?_, printed.trans metered.silent⟩, fun k unread => ?_, fun k read => ?_⟩
  · rw [regs]; exact metered.counting
  · rw [regs]; exact metered.narrow
  · rw [others k fun same => fresh (same ▸ unread)]
    exact held.due k (List.mem_cons_of_mem _ unread)
  · by_cases same : (j, l) = (i, k)
    · rw [own k same]
      exact fills.moves _ (metered.narrow k) (held.due k (same ▸ List.mem_cons_self))
    · rw [others k same]
      exact held.done k fun member => (List.mem_cons.mp member).elim (fun equal => same equal.symm) read

/-- Each of the two loops of reads moves the cells of its CPU from `P` to `Q`. -/
theorem wp_readCounters (core : i < numCores) (fills : Fills hw i x fill P Q) (lastingP : Cell.Lasting hw P)
    (lastingQ : Cell.Lasting hw Q) (metered : Metered hw ctrl s) (start : ∀ k, P (s.cell i k)) :
    (forEach (List.range numCores) fun j => readCounters j (x j)).wp (view hw i)
      (fun _ s => Metered hw ctrl s ∧ ∀ k, Q (s.cell i k)) s := by
  have flat : (forEach (List.range numCores) fun j => readCounters j (x j)) =
      forEach ((List.range numCores).product (List.finRange 3)) fun p => (do
        let r ← read p.1 (fixedAddr p.2) (x p.1 p.2)
        assert (r ≥ 0) : TProg Unit) := by
    rw [List.product, Program.forEach_flatMap]
    simp only [Program.forEach_map]
    rfl
  have nodup : ((List.range numCores).product (List.finRange 3)).Nodup := List.nodup_range.product (List.nodup_finRange 3)
  have all (k : Fin 3) : (i, k) ∈ (List.range numCores).product (List.finRange 3) :=
    List.pair_mem_product.mpr ⟨List.mem_range.mpr core, List.mem_finRange k⟩
  have stable (rest : List (Nat × Fin 3)) : Stable hw (Reading hw i ctrl P Q rest) := stable_reading lastingP lastingQ
  rw [flat]
  apply Program.wp_forEach (I := Reading hw i ctrl P Q)
    ⟨metered, fun k _ => start k, fun k unlisted => (unlisted (all k)).elim⟩ fun rest => (stable rest).rely
  · intro p rest s suffix held
    obtain ⟨j, l⟩ := p
    have fresh : (j, l) ∉ rest := (List.nodup_cons.mp (nodup.sublist suffix.sublist)).1
    apply Program.wp_act (stable _).rely held
    intro s held
    refine ⟨trivial, fun r u step => ?_⟩
    show (assert (decide (res (Option.isSome r) ≥ 0))).wp _ _ u
    rw [assert_nonneg]
    exact Program.wp_done (V := view hw i) (Q := fun _ : Unit => Reading hw i ctrl P Q rest) (stable rest).rely
      (held.read fills fresh (r := r) step)
  · intro s finished
    exact ⟨finished.metered, fun k => finished.done k List.not_mem_nil⟩

end Reads

theorem cell_store {s : Track} {x : Var} {k : Fin 3} {v : Word} (before : x ≠ .before i k) (after : x ≠ .after i k) :
    (s.store x v).cell i k = s.cell i k := by
  simp [Track.cell, Track.store, Ne.symm before, Ne.symm after]

theorem Cell.opened_of_unread {c : Cell} (small : c.value.toNat < 2 ^ hw.fixedWidth) (unread : c.Unread) :
    Cell.Opened hw { c with window := c.window.read c.value, before := c.value } := by
  refine ⟨0, ?_, small, (Nat.mod_eq_of_lt small).symm⟩
  show c.window.read c.value = _
  rw [show c.window = .before from unread]
  rfl

theorem Cell.gave_of_opened {c : Cell} (opened : c.Opened hw) :
    Cell.Gave hw { c with window := c.window.read c.value, after := c.value } := by
  obtain ⟨n, window, small, value⟩ := opened
  refine ⟨n, ?_, small, value⟩
  show c.window.read c.value = _
  rw [window]
  rfl

theorem fills_before : Fills hw i (fun j => .before j)
    (fun c => { c with window := c.window.read c.value, before := c.value }) Cell.Unread (Cell.Opened hw) where
  own s k := by simp [Track.cell, Track.read, Track.store]
  others s j l k v other := cell_store (fun same => by cases same; exact other rfl) fun same => by cases same
  moves c small unread := Cell.opened_of_unread small unread

theorem fills_after : Fills hw i (fun j => .after j)
    (fun c => { c with window := c.window.read c.value, after := c.value }) (Cell.Opened hw) (Cell.Gave hw) where
  own s k := by simp [Track.cell, Track.read, Track.store]
  others s j l k v other := cell_store (fun same => by cases same) fun same => by cases same; exact other rfl
  moves c _ opened := Cell.gave_of_opened opened

theorem wp_difference {φ : Track → Prop} {s : Track} (stable : Stable hw φ) (now : φ s) (j : Nat) (k : Fin 3) :
    (difference j k).wp (view hw i) (fun v s => φ s ∧ v = s.vars (.after j k) - s.vars (.before j k)) s := by
  apply Program.wp_act stable.rely now
  intro s held
  refine ⟨trivial, fun v u step => ?_⟩
  obtain ⟨rfl, rfl⟩ := step
  let Loaded (v : Word) (t : Track) : Prop := φ t ∧ v = t.vars (.after j k)
  have loaded (v : Word) : Stable hw (Loaded v) := fun s held t => ⟨stable s held.1 t, held.2⟩
  have first : Loaded (Track.vars u (.after j k)) u := ⟨held, rfl⟩
  apply Program.wp_act (loaded _).rely first
  intro s held
  refine ⟨trivial, fun v u step => ?_⟩
  obtain ⟨rfl, rfl⟩ := step
  refine Program.wp_done (V := view hw i)
    (Q := fun v s => φ s ∧ v = s.vars (.after j k) - s.vars (.before j k)) ?_ ⟨held.1, by rw [held.2]⟩
  intro s u held moved
  obtain ⟨t, rfl⟩ := moved
  exact ⟨stable s held.1 t, held.2⟩

def Track.difference (s : Track) (i : Nat) (k : Fin 3) : Word := (s.cell i k).after - (s.cell i k).before

/-- Both reads are done, and the lines of the CPUs below `j` are printed. -/
structure Printing (hw : FixedPmu) (ctrl : Word) (i j : Nat) (s : Track) : Prop where
  counting : Counting ctrl s.regs
  gave : ∀ k, (s.cell i k).Gave hw
  cores : s.printed.map Line.core = List.range j
  line : i < j → s.printed[i]? = some ⟨i, s.difference i 0, s.difference i 1⟩

theorem stable_printing {ctrl : Word} (j : Nat) : Stable hw (Printing hw ctrl i j) := by
  intro s printing t
  exact ⟨printing.counting.tick t, fun k => cell_tick Cell.lasting_gave printing.counting (printing.gave k) t,
    printing.cores, printing.line⟩

theorem wp_printCore {ctrl : Word} {j : Nat} {s : Track} (printing : Printing hw ctrl i j s) :
    (printCore j).wp (view hw i) (fun _ => Printing hw ctrl i (j + 1)) s := by
  apply Program.wp_seq (wp_difference (stable_printing j) printing j 0)
  intro instructions s held
  have stable : Stable hw fun s =>
      Printing hw ctrl i j s ∧ instructions = s.vars (.after j 0) - s.vars (.before j 0) :=
    fun s held t => ⟨stable_printing j s held.1 t, held.2⟩
  apply Program.wp_seq (wp_difference stable held j 1)
  intro cycles s held
  have stable : Stable hw fun s =>
      (Printing hw ctrl i j s ∧ instructions = s.vars (.after j 0) - s.vars (.before j 0)) ∧
        cycles = s.vars (.after j 1) - s.vars (.before j 1) :=
    fun s held t => ⟨stable s held.1 t, held.2⟩
  apply Program.wp_act stable.rely held
  intro s held
  obtain ⟨⟨printing, same₀⟩, same₁⟩ := held
  refine ⟨trivial, fun _ u step => ?_⟩
  obtain rfl : u = { s with printed := s.printed ++ [⟨j, instructions, cycles⟩] } := step
  refine Program.wp_done (V := view hw i) (Q := fun _ : Unit => Printing hw ctrl i (j + 1)) (stable_printing _).rely ?_
  have length : (Track.printed s).length = j := by
    have := congrArg List.length printing.cores
    simpa using this
  refine ⟨printing.counting, printing.gave, ?_, fun below => ?_⟩
  · show (Track.printed s ++ [_]).map Line.core = _
    rw [List.map_append, printing.cores, List.range_succ]
    rfl
  · show (Track.printed s ++ [_])[i]? = _
    rcases Nat.lt_or_ge i j with earlier | last
    · rw [List.getElem?_append_left (length ▸ earlier)]
      exact printing.line earlier
    · obtain rfl : j = i := by omega
      rw [List.getElem?_append_right (Nat.le_of_eq length), length, Nat.sub_self, same₀, same₁]
      rfl

theorem wp_main {ctrl cpuMsr : Word} {s : Track} (core : i < numCores) (fresh : Fresh hw (Control ctrl) s) :
    (main cpuMsr).wp (view hw i) (fun _ => Printing hw ctrl i numCores) s := by
  unfold main
  apply Program.wp_seq (wp_setUp core fresh)
  intro _ s held
  apply Program.wp_seq (wp_readCounters core fills_before Cell.lasting_unread Cell.lasting_opened held.1 held.2)
  intro _ s held
  have stable {P : Cell → Prop} (lasting : Cell.Lasting hw P) :
      Stable hw fun s => Metered hw ctrl s ∧ ∀ k, P (s.cell i k) := by
    intro s held t
    exact ⟨held.1.tick t, fun k => cell_tick lasting held.1.counting (held.2 k) t⟩
  apply Program.wp_act (stable Cell.lasting_opened).rely held
  intro s held
  refine ⟨trivial, fun _ u step => ?_⟩
  obtain rfl : u = s := step
  apply Program.wp_seq (wp_readCounters core fills_after Cell.lasting_opened Cell.lasting_gave held.1 held.2)
  intro _ s held
  have closed : (forEach (List.range numCores) fun j => perform (.close j)).wp (view hw i)
      (fun _ s => Metered hw ctrl s ∧ ∀ k, (s.cell i k).Gave hw) s := by
    refine Program.wp_of_preserves (V := view hw i) (stable Cell.lasting_gave).rely (.forEach fun j _ => ?_) held
    rw [Program.all_call]
    intro s held
    refine ⟨trivial, fun _ u step => ?_⟩
    obtain rfl : u = s := step
    exact held
  apply Program.wp_seq closed
  intro _ s held
  obtain ⟨metered, gave⟩ := held
  apply Program.wp_forEach_range (I := Printing hw ctrl i)
  · exact ⟨metered.counting, gave, by rw [metered.silent]; rfl, fun below => absurd below (Nat.not_lt_zero i)⟩
  · exact fun j => (stable_printing j).rely
  · exact fun j s _ held => wp_printCore held
  · exact fun s done => done

/-! ### Runs -/

/-- In every run that returns, the accesses to CPU `i` having succeeded: the printed numbers
of the CPU are those of its events between the two reads, in both rings, if and only if
the counter did not wrap in between, and the CPU goes on counting. -/
theorem main_exact_iff {cpuMsr : Word} {m : Machine} (core : i < numCores) (narrow : hw.Narrow (m.msr i))
    {tr : List (Ev hw)} {c : Config Unit Act Act.Res Machine}
    (run : (machine hw).Run (Succeeds i) ⟨m, fun _ => main cpuMsr⟩ tr c) (returned : c.pool () = .done ()) :
    Counting (m.msr i ia32CrFixedCtrCtrl) (c.state.msr i) ∧ (printed tr).map Line.core = List.range numCores ∧
      ∃ line, ∃ start : Fin 3 → Word, ∃ events : Fin 3 → Nat, (printed tr)[i]? = some line ∧
        (∀ k, window i tr k = .ended (start k) (events k)) ∧
        (events 0 < 2 ^ hw.fixedWidth →
          (line.instructions.toNat = events 0 ↔ hw.fixedWidth = 64 ∨ (start 0).toNat + events 0 < 2 ^ hw.fixedWidth)) ∧
        (events 1 < 2 ^ hw.fixedWidth →
          (line.cycles.toNat = events 1 ↔ hw.fixedWidth = 64 ∨ (start 1).toNat + events 1 < 2 ^ hw.fixedWidth)) := by
  have fresh : Fresh hw (Control (m.msr i ia32CrFixedCtrCtrl)) (track i ([] : List (Ev hw)) m) :=
    ⟨narrow, rfl, fun _ => rfl, rfl⟩
  have turn := ((shown hw i).run (fun _ _ => Printing hw _ i numCores) run trivial fun _ => wp_main core fresh).2 ()
  rw [returned] at turn
  have printing : Printing hw _ i numCores (track i tr c.state) := turn _ .refl
  choose events gave using printing.gave
  refine ⟨printing.counting, printing.cores, _, _, events, printing.line core, fun k => (gave k).1, ?_, ?_⟩
  · intro few
    obtain ⟨-, small, value⟩ := gave 0
    exact L3Counts.difference_iff hw.fixedWidthLe small few value
  · intro few
    obtain ⟨-, small, value⟩ := gave 1
    exact L3Counts.difference_iff hw.fixedWidthLe small few value

/-- CPU 2 retires an instruction in each ring and runs for one cycle. -/
theorem main_exact_core : ∃ (tr : List (Ev .exact)) (c : Config Unit Act Act.Res Machine),
    (printed tr)[2]? = some ⟨2, 2, 1⟩ ∧ Counting 0 (c.state.msr 2) ∧ (printed tr).map Line.core = List.range numCores ∧
      ∃ line, ∃ start : Fin 3 → Word, ∃ events : Fin 3 → Nat, (printed tr)[2]? = some line ∧
        (∀ k, window 2 tr k = .ended (start k) (events k)) ∧
        (events 0 < 2 ^ 48 → (line.instructions.toNat = events 0 ↔ 48 = 64 ∨ (start 0).toNat + events 0 < 2 ^ 48)) ∧
        (events 1 < 2 ^ 48 → (line.cycles.toNat = events 1 ↔ 48 = 64 ∨ (start 1).toNat + events 1 < 2 ^ 48)) := by
  have played : ((player .exact fun _ => true).play succeedsCheck (List.replicate 72 (.inl ()) ++
      [.inr (2, 0, true), .inr (2, 0, false), .inr (2, 1, true), .inr (3, 1, true)] ++ List.replicate 73 (.inl ())) []
      ⟨⟨fun _ _ => 0, fun _ => 7⟩, fun _ => main 0⟩).any
      (fun x => (x.2.pool ()).isDone && decide ((printed x.1)[2]? = some ⟨2, 2, 1⟩)) = true := by decide +kernel
  obtain ⟨⟨tr, c⟩, found, here⟩ := (Option.any_eq_true ..).mp played
  obtain ⟨ended, line⟩ := (Bool.and_eq_true ..).mp here
  have run := (player .exact fun _ => true).play_run (succeeds_of_check 2) .start found
  exact ⟨tr, c, of_decide_eq_true line, @main_exact_iff .exact 2 0 ⟨fun _ _ => 0, fun _ => 7⟩ (by decide)
    (fun _ => Nat.two_pow_pos 48) tr c run (Program.eq_done_of_isDone ended)⟩

end PmcBench.Msrtest
