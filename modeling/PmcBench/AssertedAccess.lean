import PmcBench.Postcondition

/-!
# Assertions about failed accesses

An execution of `configure_counters` in which accesses may fail, observed for
assertions that are made about the result of a failed access. `res` is unsigned,
so no such assertion stops the program; which accesses go unnoticed depends only
on their position in the round of their CPU.
-/

namespace PmcBench
open Threads Words
open Program (forEach)

variable {b : Build} {luck : Luck}

/-- `main` by itself, with whether the last access failed and whether the assertion
about a failed access has passed. -/
structure Checked where
  solo : Solo
  failed : Bool := false
  missed : Bool := false

namespace Checked

def fails : (o : Action) → o.Res → Bool
  | .msrWrite .., ok => !ok
  | .msrRead .., v => v.isNone
  | _, _ => false

def isAssert : Action → Bool
  | .assert _ => true
  | _ => false

def handle (b : Build) (luck : Luck) (s : Checked) (o : Action) : Option (o.Res × Checked) :=
  (s.solo.handle b luck o).map fun (r, t) => (r, ⟨t, fails o r, s.missed || isAssert o && s.failed⟩)

abbrev view (b : Build) (luck : Luck) : View Action Action.Res := .ofHandler (handle b luck) fun _ _ => False

def msr (s : Checked) : Cpu → Regs := s.solo.world.msr

end Checked

/-! ### Positions of asserted accesses -/

/-- The accesses of the rows that the PMC loop still has before it, in order: whether
the result is kept in `res` and asserted on. -/
def rowFlags (b : Build) (rows : List Nat) : List Bool :=
  (rows.filter fun c => (b.counterTbl.row c).ctrType = .customCtr).flatMap fun _ => [true, true]

/-- The accesses of a round with `set`: the reset, the fixed counters, the rows, the mask. -/
def asserted (b : Build) : List Bool :=
  List.replicate 10 false ++ [true, false] ++ rowFlags b (pmcLoop b) ++ [true]

/-- An access that is asserted on fails, of those described by the flags and numbered from `start`. -/
def missedBy (luck : Luck) (start : Nat) : List Bool → Bool
  | [] => false
  | flag :: rest => (flag && !luck.accesses start) || missedBy luck (start + 1) rest

theorem missedBy_append (luck : Luck) (start : Nat) (f g : List Bool) :
    missedBy luck start (f ++ g) = (missedBy luck start f || missedBy luck (start + f.length) g) := by
  induction f generalizing start with
  | nil => rfl
  | cons flag f ih =>
    rw [List.cons_append, missedBy, missedBy, ih, List.length_cons, Bool.or_assoc, Nat.add_assoc, Nat.add_comm 1]

theorem missedBy_eq_false {start : Nat} {flags : List Bool} :
    missedBy luck start flags = false ↔ ∀ p, flags[p]? = some true → luck.accesses (start + p) = true := by
  induction flags generalizing start with
  | nil => simp [missedBy]
  | cons flag rest ih =>
    rw [missedBy, Bool.or_eq_false_iff, ih]
    constructor
    · rintro ⟨here, later⟩ p asserted
      cases p with
      | zero =>
        obtain rfl : flag = true := by simpa using asserted
        simpa using here
      | succ p =>
        rw [show start + (p + 1) = start + 1 + p by omega]
        exact later p (by simpa using asserted)
    · intro all
      refine ⟨?_, fun p asserted => ?_⟩
      · cases flag with
        | false => rfl
        | true => simp [show luck.accesses start = true from all 0 rfl]
      · rw [show start + 1 + p = start + (p + 1) by omega]
        exact all (p + 1) (by simpa using asserted)

/-- The accesses described by the flags lie between `s` and `t`, all of them to CPU `x`. -/
structure Passed (luck : Luck) (x : Cpu) (flags : List Bool) (s t : Checked) : Prop where
  accessed : t.solo.accessed = s.solo.accessed + flags.length
  missed : t.missed = (s.missed || missedBy luck s.solo.accessed flags)
  others : ∀ y ≠ x, t.msr y = s.msr y

theorem Passed.refl (luck : Luck) (x : Cpu) (s : Checked) : Passed luck x [] s s :=
  ⟨rfl, (Bool.or_false _).symm, fun _ _ => rfl⟩

theorem Passed.append {x : Cpu} {f g : List Bool} {s t u : Checked} (first : Passed luck x f s t)
    (second : Passed luck x g t u) : Passed luck x (f ++ g) s u where
  accessed := by rw [second.accessed, first.accessed, List.length_append, Nat.add_assoc]
  missed := by rw [second.missed, first.missed, first.accessed, missedBy_append, Bool.or_assoc]
  others y other := (second.others y other).trans (first.others y other)

/-! ### Single accesses -/

namespace Checked
variable {α : Type} {x : Cpu} {a : Nat} {v : Word} {s : Checked} {Q : α → Checked → Prop}

theorem wp_handle {o : Action} {next : o.Res → Prog α} {r : o.Res} {t : Solo}
    (answer : s.solo.handle b luck o = some (r, t))
    (rest : (next r).wp (view b luck) Q ⟨t, fails o r, s.missed || isAssert o && s.failed⟩) :
    (Program.act o next).wp (view b luck) Q s := by
  refine (Program.wp_act_still fun _ _ => id).mpr ⟨fun refused => ?_, fun r' t' step => ?_⟩
  · simp [handle, answer] at refused
  · simp only [handle, answer, Option.map_some, Option.some.injEq] at step
    cases step
    exact rest

/-- The registers after a write that may fail. -/
def attempt (luck : Luck) (s : Checked) (x : Cpu) (a : Nat) (v : Word) : Regs :=
  if luck.accesses s.solo.accessed then Function.update (s.msr x) a v else s.msr x

theorem attempt_other {c : Nat} (other : c ≠ a) : attempt luck s x a v c = s.msr x c := by
  unfold attempt
  split
  · exact Function.update_of_ne other ..
  · rfl

theorem attempt_ok (ok : luck.accesses s.solo.accessed = true) : attempt luck s x a v = Function.update (s.msr x) a v :=
  if_pos ok

theorem wp_write {next : Bool → Prog α}
    (rest : ∀ t, Passed luck x [false] s t → t.failed = (!luck.accesses s.solo.accessed) → t.missed = s.missed →
      t.msr x = attempt luck s x a v → (next (luck.accesses s.solo.accessed)).wp (view b luck) Q t) :
    (Program.act (.msrWrite x a v) next).wp (view b luck) Q s := by
  cases ok : luck.accesses s.solo.accessed with
  | true =>
    apply wp_handle (r := true) (t := s.solo.writeReg x a v) (by simp only [Solo.handle, ok, if_true])
    rw [ok] at rest
    refine rest _ ⟨rfl, by simp [missedBy, isAssert], fun y other => Function.update_of_ne other ..⟩ rfl
      (by simp [isAssert]) ?_
    simp [attempt, ok, msr, Solo.writeReg, World.setReg]
  | false =>
    refine wp_handle (r := false) (t := { s.solo with accessed := s.solo.accessed + 1 })
      (by simp [Solo.handle, ok]) ?_
    rw [ok] at rest
    refine rest _ ⟨rfl, by simp [missedBy, isAssert], fun y _ => rfl⟩ rfl (by simp [isAssert]) ?_
    simp [attempt, ok, msr]

theorem wp_read {next : Option Word → Prog α}
    (rest : ∀ t r, Passed luck x [false] s t → t.failed = (!luck.accesses s.solo.accessed) → t.missed = s.missed →
      t.msr x = s.msr x → (next r).wp (view b luck) Q t) :
    (Program.act (.msrRead x a) next).wp (view b luck) Q s := by
  cases ok : luck.accesses s.solo.accessed with
  | true =>
    refine wp_handle (r := some (s.msr x a)) (t := { s.solo with accessed := s.solo.accessed + 1 })
      (by simp [Solo.handle, ok, msr]) ?_
    rw [ok] at rest
    exact rest _ _ ⟨rfl, by simp [missedBy, isAssert], fun y _ => rfl⟩ rfl (by simp [isAssert]) rfl
  | false =>
    apply wp_handle (r := none) (t := { s.solo with accessed := s.solo.accessed + 1 }) (by simp [Solo.handle, ok])
    rw [ok] at rest
    exact rest _ _ ⟨rfl, by simp [missedBy, isAssert], fun y _ => rfl⟩ rfl (by simp [isAssert]) rfl

/-- The assertion on `res` passes, and what it was about is as it was. -/
theorem wp_assert {next : Unit → Prog α} {u : Checked} {ok : Bool} (access : Passed luck x [false] s u)
    (position : ok = luck.accesses s.solo.accessed) (failed : u.failed = !ok) (missed : u.missed = s.missed)
    (rest : ∀ t, Passed luck x [true] s t → t.msr = u.msr → (next ()).wp (view b luck) Q t) :
    (Program.act (.assert true) next).wp (view b luck) Q u := by
  refine wp_handle (r := ()) (t := u.solo) (by simp [Solo.handle]) (rest _ ⟨access.accessed, ?_, access.others⟩ rfl)
  simp [isAssert, missedBy, failed, missed, position]

/-! ### A round -/

theorem wp_resetPmcs {s : Checked} {Q : Unit → Checked → Prop}
    (rest : ∀ t, Passed luck x (List.replicate 8 false) s t → Q () t) :
    (resetPmcs x).wp (view b luck) Q s := by
  refine Program.wp_forEach_range (V := view b luck) (I := fun i t => Passed luck x (List.replicate i false) s t)
    (.refl luck x s) (fun _ _ _ _ moved => moved.elim) ?_ fun t => rest t
  intro i t _ passed
  apply wp_write
  intro u access _ _ _
  refine (Program.wp_done_still fun _ _ => id).mpr ?_
  rw [List.replicate_succ']
  exact passed.append access

/-- The rows' configuration registers hold the words written to them. -/
def Selected (b : Build) (rows : List Nat) (R : Regs) : Prop :=
  ∀ c ∈ rows, (b.counterTbl.row c).ctrType = .customCtr →
    R (b.counterTbl.row c).cfgReg = evtReg (b.counterTbl.row c)

/-- What the PMC loop has done from `s` on, once it has looked at these rows. -/
structure Rows (b : Build) (luck : Luck) (x : Cpu) (s : Checked) (rows : List Nat) (t : Checked) : Prop where
  passed : Passed luck x (rowFlags b rows) s t
  others : ∀ a, (∀ c ∈ rows, (b.counterTbl.row c).ctrType = .customCtr → (b.counterTbl.row c).cfgReg ≠ a) →
    t.msr x a = s.msr x a
  selected : missedBy luck s.solo.accessed (rowFlags b rows) = false → Selected b rows (t.msr x)

theorem rowFlags_custom {c : Nat} (custom : (b.counterTbl.row c).ctrType = .customCtr) (rows : List Nat) :
    rowFlags b (rows ++ [c]) = rowFlags b rows ++ ([true] ++ [true]) := by
  simp [rowFlags, custom]

theorem rowFlags_other {c : Nat} (other : (b.counterTbl.row c).ctrType ≠ .customCtr) (rows : List Nat) :
    rowFlags b (rows ++ [c]) = rowFlags b rows := by
  simp [rowFlags, other]

theorem Rows.custom {rows : List Nat} {c : Nat} {s t u w : Checked} (held : Rows b luck x s rows t)
    (isCustom : (b.counterTbl.row c).ctrType = .customCtr)
    (distinct : ∀ d ∈ rows, (b.counterTbl.row d).ctrType = .customCtr →
      (b.counterTbl.row d).cfgReg = (b.counterTbl.row c).cfgReg → d = c)
    (read : Passed luck x [true] t u) (kept : u.msr x = t.msr x) (written : Passed luck x [true] u w)
    (wrote : w.msr x = attempt luck u x (b.counterTbl.row c).cfgReg (evtReg (b.counterTbl.row c))) :
    Rows b luck x s (rows ++ [c]) w := by
  have flags := rowFlags_custom isCustom rows
  have before (a : Nat) (other : (b.counterTbl.row c).cfgReg ≠ a) : w.msr x a = t.msr x a := by
    rw [wrote, attempt_other other.symm, kept]
  refine ⟨flags ▸ held.passed.append (read.append written), fun a other => ?_, fun ok d member custom => ?_⟩
  · rw [before a (other c (by simp) isCustom)]
    exact held.others a fun d there => other d (List.mem_append_left _ there)
  · rw [flags, missedBy_append, missedBy_append, Bool.or_eq_false_iff, Bool.or_eq_false_iff, ← held.passed.accessed,
      ← read.accessed] at ok
    obtain ⟨earlier, -, last⟩ := ok
    have now : w.msr x = Function.update (u.msr x) (b.counterTbl.row c).cfgReg (evtReg (b.counterTbl.row c)) := by
      rw [wrote, attempt_ok (missedBy_eq_false.mp last 0 rfl)]
    by_cases same : d = c
    · subst same
      rw [now, Function.update_self]
    · have there : d ∈ rows := by simpa [same] using member
      rw [before _ fun clash => same (distinct d there custom clash.symm)]
      exact held.selected earlier d there custom

theorem Rows.other {rows : List Nat} {c : Nat} {s t : Checked} (held : Rows b luck x s rows t)
    (isFixed : (b.counterTbl.row c).ctrType ≠ .customCtr) : Rows b luck x s (rows ++ [c]) t := by
  have flags := rowFlags_other isFixed rows
  refine ⟨flags ▸ held.passed, fun a other => ?_, fun ok d member custom => ?_⟩
  · exact held.others a fun d there => other d (List.mem_append_left _ there)
  · rcases List.mem_append.mp member with there | last
    · exact held.selected (flags ▸ ok) d there custom
    · exact (isFixed (List.mem_singleton.mp last ▸ custom)).elim

theorem wp_programRows {rows : List Nat} {value : Word} {s : Checked} {Q : Word → Checked → Prop}
    (distinct : ∀ c ∈ rows, ∀ d ∈ rows, (b.counterTbl.row c).ctrType = .customCtr →
      (b.counterTbl.row d).ctrType = .customCtr → (b.counterTbl.row c).cfgReg = (b.counterTbl.row d).cfgReg → c = d)
    (rest : ∀ t, Rows b luck x s rows t → Q (rows.foldl (maskRow b) value) t) :
    (programRows b x rows value).wp (view b luck) Q s := by
  have start : Rows b luck x s [] s := ⟨.refl luck x s, fun _ _ => rfl, fun _ => nofun⟩
  refine PmcBench.wp_programRows (V := view b luck)
    (I := fun done mask t => Rows b luck x s done t ∧ mask = done.foldl (maskRow b) value) ⟨start, rfl⟩
    (fun _ _ _ _ _ moved => moved.elim) ?_ ?_ ?_
  · rintro done c mask t front custom ⟨held, rfl⟩
    simp only [programRow, assertRes_eq, Program.call_bind, List.foldl_concat, and_true]
    refine wp_read fun u r access failed missed kept => wp_assert access rfl failed missed fun u first same => ?_
    refine wp_write fun w access failed missed wrote => wp_assert access rfl failed missed fun w second same' => ?_
    refine (Program.wp_done_still fun _ _ => id).mpr (held.custom custom (fun d there isCustom clash => ?_) first
      (by rw [same, kept]) second (by rw [same', wrote]))
    exact distinct d (front.mem (by simp [there])) c (front.mem (by simp)) isCustom custom clash
  · rintro done c mask t - other ⟨held, rfl⟩
    rw [List.foldl_concat]
    exact ⟨held.other other, rfl⟩
  · rintro mask t ⟨held, rfl⟩
    exact rest t held

/-- The registers of a CPU hold the words that its round is to write. -/
def Intended (b : Build) (R : Regs) : Prop :=
  R ia32CrPerfGlobalCtrl = enableMask b ∧ Selected b (pmcLoop b) R

/-- The mask does not depend on the control register read back. -/
theorem fixedCtrs_snd (b : Build) (ctrlReg : Word) : (fixedCtrs b ctrlReg).2 = (fixedCtrs b 0).2 := by
  simp only [fixedCtrs, fixedCtr]
  split <;> split <;> split <;> rfl

theorem wp_configureCpu (loop : LoopRows b) {s : Checked} {Q : Unit → Checked → Prop}
    (rest : ∀ t, Passed luck x (asserted b) s t →
      (missedBy luck s.solo.accessed (asserted b) = false → Intended b (t.msr x)) → Q () t) :
    (configureCpu b x true).wp (view b luck) Q s := by
  simp only [configureCpu, programCpu, if_true, assertRes_eq, Program.call_bind]
  refine wp_write fun s₁ global _ _ _ => Program.wp_bind.mpr (wp_resetPmcs fun s₂ pmcs => ?_)
  refine wp_write fun s₃ fixed _ _ _ => wp_read fun t r access failed missed _ =>
    wp_assert access rfl failed missed fun s₄ readBack _ => ?_
  refine wp_write fun s₅ control _ _ _ => Program.wp_bind.mpr (wp_programRows ?_ fun s₆ rows => ?_)
  · intro c hc d hd custom custom' same
    rw [loop.cfgReg c hc custom, loop.cfgReg d hd custom'] at same
    exact loop.distinct c hc d hd custom custom' (by omega)
  · refine wp_write fun t access failed missed wrote => wp_assert access rfl failed missed fun s₇ mask same => ?_
    have front : Passed luck x (List.replicate 10 false ++ [true, false]) s s₅ :=
      global.append (pmcs.append (fixed.append (readBack.append control)))
    refine (Program.wp_done_still fun _ _ => id).mpr (rest s₇ ((front.append rows.passed).append mask) fun ok => ?_)
    rw [asserted, missedBy_append, missedBy_append, Bool.or_eq_false_iff, Bool.or_eq_false_iff] at ok
    obtain ⟨⟨-, rowsOk⟩, maskOk⟩ := ok
    have accepted : luck.accesses s₆.solo.accessed = true := by
      rw [(front.append rows.passed).accessed]
      exact missedBy_eq_false.mp maskOk 0 rfl
    have now : s₇.msr x = Function.update (s₆.msr x) ia32CrPerfGlobalCtrl (enableMask b) := by
      rw [same, wrote, attempt_ok accepted, fixedCtrs_snd]
      rfl
    rw [now]
    refine ⟨Function.update_self .., fun c hc custom => ?_⟩
    rw [Function.update_of_ne (loop.sparesGlobal c hc custom)]
    exact rows.selected (by rw [front.accessed]; exact rowsOk) c hc custom

theorem wp_round (loop : LoopRows b) (opens : ∀ k, luck.opens k = true) {s : Checked} {Q : Unit → Checked → Prop}
    (rest : ∀ t, Passed luck x (asserted b) s t →
      (missedBy luck s.solo.accessed (asserted b) = false → Intended b (t.msr x)) → Q () t) :
    (round b true x).wp (view b luck) Q s := by
  simp only [round, if_true, Program.call_bind]
  apply wp_handle (r := ()) (t := { s.solo with opened := s.solo.opened + 1 }) (by simp [Solo.handle, opens])
  apply wp_handle (r := ()) (t := { s.solo with opened := s.solo.opened + 1 }) (by simp [Solo.handle])
  refine wp_configureCpu loop fun t passed intended => rest t ⟨passed.accessed, ?_, passed.others⟩ intended
  simpa [isAssert, fails] using passed.missed

def flags (b : Build) (n : Nat) : List Bool := (List.replicate n (asserted b)).flatten

theorem exec_configureCounters (loop : LoopRows b) (opens : ∀ k, luck.opens k = true) (cpuMsr : Nat → Option Cpu)
    (cpus : List Cpu) (w : World) : ∃ handles t,
      (configureCounters b cpuMsr cpus true).exec (handle b luck) ⟨{ world := w }, false, false⟩ = (some handles, t) ∧
      t.missed = missedBy luck 0 (flags b cpus.length) ∧
      (t.missed = false → ∀ x ∈ cpus, Intended b (t.msr x)) := by
  let I : List Cpu → Checked → Prop := fun done t =>
    t.solo.accessed = (flags b done.length).length ∧ t.missed = missedBy luck 0 (flags b done.length) ∧
      (t.missed = false → ∀ x ∈ done, Intended b (t.msr x))
  have proved : (configureCounters b cpuMsr cpus true).wp (view b luck) (fun _ => I cpus)
      ⟨{ world := w }, false, false⟩ := by
    have start : I [] ⟨{ world := w }, false, false⟩ := ⟨rfl, rfl, by simp⟩
    refine wp_configureFrom (V := view b luck) (I := I) start (fun _ _ _ _ moved => moved.elim) nofun
      (fun done cpu s _ held => ?_) fun _ _ _ _ reached => reached
    obtain ⟨accessed, missed, intended⟩ := held
    have more : flags b (done ++ [cpu]).length = flags b done.length ++ asserted b := by
      simp [flags, List.replicate_succ']
    apply wp_round loop opens
    intro t passed intended'
    have total : t.missed = missedBy luck 0 (flags b (done ++ [cpu]).length) := by
      rw [passed.missed, missed, more, missedBy_append, accessed, Nat.zero_add]
    refine ⟨by rw [passed.accessed, accessed, more, List.length_append], total, fun ok x member => ?_⟩
    rw [passed.missed, Bool.or_eq_false_iff] at ok
    by_cases same : x = cpu
    · subst same
      exact intended' ok.2
    · rw [passed.others x same]
      exact intended ok.1 x (by simpa [same] using member)
  rcases Program.wp_exec proved with ⟨handles, t, ran, -, reached⟩ | ⟨_, _, _, _, stop⟩
  · exact ⟨handles, t, ran, reached⟩
  · exact stop.elim

end Checked

/-- `configure_counters` does what its assertions are for: it completes only if every
access it asserts on succeeded, and then the registers hold what they should. -/
def Detects (b : Build) (luck : Luck) (cpuMsr : Nat → Option Cpu) (cpus : List Cpu) (w : World) : Prop :=
  ∀ handles t, (configureCounters b cpuMsr cpus true).exec (Checked.handle b luck) ⟨{ world := w }, false, false⟩ =
    (some handles, t) → t.missed = false ∧ ∀ x ∈ cpus, Checked.Intended b (t.msr x)

/-- In no round does one of the accesses fail that stand at the asserted positions. -/
def AssertedSucceed (b : Build) (luck : Luck) (n : Nat) : Prop :=
  ∀ i < n, ∀ p, (asserted b)[p]? = some true → luck.accesses (i * (asserted b).length + p) = true

theorem missedBy_flags (b : Build) (luck : Luck) (n : Nat) :
    missedBy luck 0 (Checked.flags b n) = false ↔ AssertedSucceed b luck n := by
  induction n with
  | zero => simp [Checked.flags, missedBy, AssertedSucceed]
  | succ n ih =>
    have more : Checked.flags b (n + 1) = Checked.flags b n ++ asserted b := by
      simp [Checked.flags, List.replicate_succ']
    have length : (Checked.flags b n).length = n * (asserted b).length := by simp [Checked.flags]
    rw [more, missedBy_append, Bool.or_eq_false_iff, ih, missedBy_eq_false, length, Nat.zero_add]
    constructor
    · rintro ⟨before, last⟩ i bound
      rcases Nat.lt_succ_iff_lt_or_eq.mp bound with earlier | rfl
      · exact before i earlier
      · exact last
    · exact fun all => ⟨fun i bound => all i (by omega), all n (by omega)⟩

/-- The assertions stop nothing: a failed access that is asserted on goes by unnoticed. -/
theorem detects_iff (loop : LoopRows b) (opens : ∀ k, luck.opens k = true) (cpuMsr : Nat → Option Cpu)
    (cpus : List Cpu) (w : World) : Detects b luck cpuMsr cpus w ↔ AssertedSucceed b luck cpus.length := by
  obtain ⟨handles, t, ran, missed, intended⟩ := Checked.exec_configureCounters loop opens cpuMsr cpus w
  rw [← missedBy_flags, ← missed]
  constructor
  · exact fun detects => (detects handles t ran).1
  · intro ok handles' t' ran'
    rw [ran] at ran'
    simp only [Prod.mk.injEq] at ran'
    obtain ⟨-, rfl⟩ := ran'
    exact ⟨ok, intended ok⟩

theorem detects_dedos07 : Detects dedos07 {} (fun _ => none) [0, 1] .idle :=
  (detects_iff dedos07_full.loopRows (fun _ => rfl) _ _ _).mpr fun _ _ _ _ => rfl

/-- The asserted positions of a round with eight rows: the read of FIXED_CTR_CTRL, both
accesses of each row, and the write of the mask. -/
example : (List.range 29).filter (fun p => (asserted dedos07)[p]? = some true) = 10 :: List.range' 12 17 := by decide

/-- The write of the first PERFEVTSEL fails, and `configure_counters` completes. -/
theorem not_detects_perfevtsel0 : ¬ Detects dedos07 { accesses := (· != 13) } (fun _ => none) [0] .idle := by
  intro detects
  have opens : ∀ k, ({ accesses := (· != 13) } : Luck).opens k = true := fun _ => rfl
  obtain ⟨handles, t, ran, missed, -⟩ := Checked.exec_configureCounters dedos07_full.loopRows opens (fun _ => none)
    [0] .idle
  have unnoticed : missedBy { accesses := (· != 13) } 0 (Checked.flags dedos07 1) = true := by decide
  have noticed := (detects handles t ran).1
  rw [missed, List.length_singleton, unnoticed] at noticed
  cases noticed

end PmcBench
