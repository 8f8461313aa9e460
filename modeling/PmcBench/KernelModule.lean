import PmcBench.Threads.System
import PmcBench.Pmu

/-!
# The kernel module (msr_kernel.c)

The module reads and writes MSRs of the CPU an entry point runs on, in halves of
32 bits. A run is a series of loads and unloads with hardware events anywhere in
between; `Session` is what its history says of the latest load.
-/

namespace PmcBench.KernelModule
open Threads Words
open Program (forEach)

/-! ### The code -/

inductive EntryPoint where
  | pmcInit | pmcExit
  deriving DecidableEq

/-- What the module prints. -/
inductive Message where
  /-- `"Inside the %s function.\n"` -/
  | inside (function : EntryPoint)
  /-- `"Total L3 cache miss: %lu\n"` -/
  | total (misses : Word)
  deriving DecidableEq

/-- The instructions, with the CPU they run on, the register in ecx, and the halves of
the value in eax and edx. -/
inductive Act where
  | wrmsr (cpu : Cpu) (ecx : Nat) (eax edx : BitVec 32)
  | rdmsr (cpu : Cpu) (ecx : Nat)
  | printk (m : Message)

@[reducible] def Act.Res : Act → Type
  | .rdmsr .. => BitVec 32 × BitVec 32
  | _ => Unit

abbrev KProg := Program Act Act.Res

abbrev perform (o : Act) : KProg o.Res := Program.call o

/-- The mask is an `unsigned long`, of which eax holds the low half. -/
def enableGlobalCounters (cpu : Cpu) : KProg Unit :=
  let enableBits : Word := 0x70000000f
  perform (.wrmsr cpu ia32CrPerfGlobalCtrl (enableBits.setWidth 32) 0)

def enableL3CacheMiss (cpu : Cpu) : KProg Unit :=
  let eventNum : BitVec 32 := 0x002e
  let umask : BitVec 32 := 0x4100
  let enableBits : BitVec 32 := 0x430000
  let event := enableBits ||| umask ||| eventNum
  perform (.wrmsr cpu ia32Perfevtsel0Addr event 0)

def totalL3CacheMisses (cpu : Cpu) : KProg Word := do
  let (eaxLow, edxHigh) ← perform (.rdmsr cpu ia32Pmc0)
  pure (eaxLow.setWidth 64 ||| edxHigh.setWidth 64 <<< 32)

def disableL3CacheMiss (cpu : Cpu) : KProg Unit := do
  perform (.wrmsr cpu ia32Perfevtsel0Addr 0 0)
  perform (.wrmsr cpu ia32Pmc0 0 0)

def disableGlobalCounters (cpu : Cpu) : KProg Unit :=
  perform (.wrmsr cpu ia32CrPerfGlobalCtrl 0 0)

def pmcInit (cpu : Cpu) : KProg Unit := do
  perform (.printk (.inside .pmcInit))
  enableGlobalCounters cpu
  enableL3CacheMiss cpu

def pmcExit (cpu : Cpu) : KProg Unit := do
  perform (.printk (.inside .pmcExit))
  let totalMisses ← totalL3CacheMisses cpu
  perform (.printk (.total totalMisses))
  disableL3CacheMiss cpu
  disableGlobalCounters cpu

/-- Loads and unloads: for each cycle, the CPU of `PMC_init` and that of `PMC_exit`. -/
def lifecycle (cycles : List (Cpu × Cpu)) : KProg Unit :=
  forEach cycles fun cycle => do
    pmcInit cycle.1
    pmcExit cycle.2

/-! ### The machine -/

def effect (m : Cpu → Regs) : (o : Act) → o.Res → (Cpu → Regs) → Prop
  | .wrmsr cpu reg eax edx, _, m' => m' = Function.update m cpu (Function.update (m cpu) reg (edx ++ eax))
  | .rdmsr cpu reg, r, m' => r = ((m cpu reg).setWidth 32, (m cpu reg).extractLsb' 32 32) ∧ m' = m
  | .printk _, _, m' => m' = m

variable {hw : Pmu}

abbrev Ev (hw : Pmu) := Event Unit (Cpu × hw.Tick) Act Act.Res

def machine (hw : Pmu) : System Unit (Cpu × hw.Tick) Act Act.Res (Cpu → Regs) where
  act _ m o r m' := effect m o r m'
  env e m m' := m' = Function.update m e.1 (hw.tick (m e.1) e.2)

/-- The event that `enable_l3_cache_miss` selects. -/
def isL3Miss (hw : Pmu) (t : hw.Tick) : Bool := hw.hits t 0x2e 0x41

/-- The latest load: counting on a CPU, with the L3 misses there since PERFEVTSEL0 was
written, or reported, with the misses up to the read. -/
inductive Session where
  | unloaded
  | counting (cpu : Cpu) (misses : Nat)
  | reported (misses : Nat)

namespace Session

def act (s : Session) : Act → Session
  | .wrmsr cpu reg eax _ => if reg = ia32Perfevtsel0Addr ∧ eax ≠ 0 then .counting cpu 0 else s
  | .rdmsr .. =>
    match s with
    | .counting _ misses => .reported misses
    | s => s
  | .printk _ => s

def tick (hw : Pmu) (s : Session) (x : Cpu) (t : hw.Tick) : Session :=
  match s with
  | .counting cpu misses => .counting cpu (if x = cpu ∧ isL3Miss hw t then misses + 1 else misses)
  | s => s

end Session

def sessionStep (s : Session) : Ev hw → Session
  | .act _ o _ => s.act o
  | .env (x, t) => s.tick hw x t

def session (tr : List (Ev hw)) : Session := tr.foldl sessionStep .unloaded

/-- The CPUs whose MSRs an instruction writes. -/
def Act.writes : Act → List Cpu
  | .wrmsr cpu .. => [cpu]
  | _ => []

def written (tr : List (Ev hw)) : List Cpu :=
  tr.flatMap fun e => match e with
    | .act _ o _ => o.writes
    | .env _ => []

/-- Nothing of the module is left in the registers. -/
structure Idle (R : Regs) : Prop where
  global : R ia32CrPerfGlobalCtrl = 0
  select : R ia32Perfevtsel0Addr = 0
  pmc : R ia32Pmc0 = 0

/-- Every total printed is the number of L3 misses of its load. -/
def Reports (tr : List (Ev hw)) : Prop :=
  ∀ before misses after, tr = before ++ .act () (.printk (.total misses)) () :: after →
    session before = .reported misses.toNat

/-- No CPU has anything left of the module. -/
def CleanedUp (tr : List (Ev hw)) (m : Cpu → Regs) : Prop := ∀ x ∈ written tr, Idle (m x)

/-! ### The view of the module -/

structure Track where
  msr : Cpu → Regs
  session : Session
  written : List Cpu

def track (tr : List (Ev hw)) (m : Cpu → Regs) : Track := ⟨m, session tr, written tr⟩

namespace Track

def tick (hw : Pmu) (s : Track) (x : Cpu) (t : hw.Tick) : Track :=
  ⟨Function.update s.msr x (hw.tick (s.msr x) t), s.session.tick hw x t, s.written⟩

def Clean (s : Track) : Prop := ∀ x ∈ s.written, Idle (s.msr x)

end Track

/-- PMC0 is 0 when PERFEVTSEL0 is selected, and its width has not been exceeded when it is read. -/
def Favourable (hw : Pmu) (s : Track) : Act → Prop
  | .wrmsr cpu reg eax _ => reg = ia32Perfevtsel0Addr → eax ≠ 0 → s.msr cpu ia32Pmc0 = 0
  | .rdmsr .. => ∀ cpu misses, s.session = .counting cpu misses → misses < 2 ^ hw.width
  | .printk _ => True

/-- The condition on the steps of a run. -/
def Meets (tr : List (Ev hw)) (m : Cpu → Regs) : Ev hw → Prop
  | .act _ o _ => Favourable hw (track tr m) o
  | .env _ => True

abbrev view (hw : Pmu) : View Act Act.Res where
  St := Track
  rely s s' := ∃ x, ∃ t : hw.Tick, s' = s.tick hw x t
  allow s
    | .printk (.total misses) => s.session = .reported misses.toNat
    | .printk (.inside .pmcInit) => s.Clean
    | _ => True
  next s o r s' := Favourable hw s o ∧ ∃ m, effect s.msr o r m ∧ s' = ⟨m, s.session.act o, s.written ++ o.writes⟩

/-! ### Idle CPUs -/

theorem Idle.tick {R : Regs} (idle : Idle R) (t : hw.Tick) : Idle (hw.tick R t) := by
  rw [Pmu.tick_disabled idle.global]
  exact idle

theorem Track.Clean.tick {s : Track} (clean : s.Clean) (x : Cpu) (t : hw.Tick) : (s.tick hw x t).Clean := by
  intro y member
  by_cases same : y = x
  · subst same
    have idle := (clean y member).tick t
    simpa [Track.tick] using idle
  · simpa [Track.tick, same] using clean y member

/-! ### The phases of a cycle -/

/-- `φ` holds of CPU `p` and of the load, and the module has left nothing on other CPUs. -/
structure At (p : Cpu) (φ : Regs → Session → Prop) (s : Track) : Prop where
  others : ∀ x ∈ s.written, x ≠ p → Idle (s.msr x)
  here : φ (s.msr p) s.session

/-- Hardware events keep `φ` of CPU `p`. -/
structure Stable (hw : Pmu) (p : Cpu) (φ : Regs → Session → Prop) : Prop where
  own : ∀ {R s}, φ R s → ∀ t : hw.Tick, φ (hw.tick R t) (s.tick hw p t)
  foreign : ∀ {R s x}, φ R s → x ≠ p → ∀ t : hw.Tick, φ R (s.tick hw x t)

section Rules
variable {p : Cpu} {φ ψ : Regs → Session → Prop}

theorem At.tick (stable : Stable hw p φ) {s : Track} (now : At p φ s) (x : Cpu) (t : hw.Tick) :
    At p φ (s.tick hw x t) := by
  by_cases same : x = p
  · subst same
    refine ⟨fun y member other => ?_, ?_⟩
    · simpa [Track.tick, other] using now.others y member other
    · simpa [Track.tick] using stable.own now.here t
  · refine ⟨fun y member other => ?_, ?_⟩
    · by_cases here : y = x
      · subst here
        simpa [Track.tick] using (now.others y member other).tick t
      · simpa [Track.tick, here] using now.others y member other
    · simpa [Track.tick, Ne.symm same] using stable.foreign now.here same t

theorem At.moved (stable : Stable hw p φ) : ∀ s s', At p φ s → (view hw).rely s s' → At p φ s' := by
  rintro s s' now ⟨x, t, rfl⟩
  exact now.tick stable x t

theorem wp_wrmsr {α : Type} (stable : Stable hw p φ) {reg : Nat} {eax edx : BitVec 32} {next : Unit → KProg α}
    {Q : α → Track → Prop} {s : Track} (now : At p φ s)
    (wrote : ∀ R s, φ R s → (reg = ia32Perfevtsel0Addr → eax ≠ 0 → R ia32Pmc0 = 0) →
      ψ (Function.update R reg (edx ++ eax)) (s.act (.wrmsr p reg eax edx)))
    (rest : ∀ s', At p ψ s' → (next ()).wp (view hw) Q s') :
    (Program.act (.wrmsr p reg eax edx) next).wp (view hw) Q s := by
  refine Program.wp_act (At.moved stable) now fun t held => ⟨trivial, ?_⟩
  rintro ⟨⟩ u ⟨favourable, m, rfl, rfl⟩
  refine rest _ ⟨fun x member other => ?_, ?_⟩
  · have before : x ∈ t.written := by simpa [Act.writes, other] using member
    simpa [other] using held.others x before other
  · simpa using wrote _ _ held.here favourable

theorem wp_printk {α : Type} (stable : Stable hw p φ) {m : Message} {next : Unit → KProg α} {Q : α → Track → Prop}
    {s : Track} (now : At p φ s) (allowed : ∀ s, At p φ s → (view hw).allow s (.printk m))
    (rest : ∀ s', At p φ s' → (next ()).wp (view hw) Q s') :
    (Program.act (.printk m) next).wp (view hw) Q s := by
  refine Program.wp_act (At.moved stable) now fun t held => ⟨allowed t held, ?_⟩
  rintro ⟨⟩ u ⟨-, m, rfl, rfl⟩
  refine rest _ ⟨fun x member other => held.others x ?_ other, held.here⟩
  simpa [Act.writes] using member

end Rules

/-! ### What holds in each phase -/

def l3Select : Word := 0x43412e

def Enabled (R : Regs) (_ : Session) : Prop := R ia32CrPerfGlobalCtrl = 0xf

/-- PMC0 holds the number of misses so far, modulo its width. -/
structure Counting (hw : Pmu) (p : Cpu) (R : Regs) (s : Session) : Prop where
  global : R ia32CrPerfGlobalCtrl = 0xf
  select : R ia32Perfevtsel0Addr = l3Select
  count : ∃ misses, s = .counting p misses ∧ R ia32Pmc0 = BitVec.ofNat 64 (misses % 2 ^ hw.width)

def Read (misses : Nat) (_ : Regs) (s : Session) : Prop := s = .reported misses

def Deselected (R : Regs) (_ : Session) : Prop := R ia32Perfevtsel0Addr = 0

def Reset (R : Regs) (_ : Session) : Prop := R ia32Perfevtsel0Addr = 0 ∧ R ia32Pmc0 = 0

theorem tick_select (R : Regs) (t : hw.Tick) : hw.tick R t ia32Perfevtsel0Addr = R ia32Perfevtsel0Addr :=
  Pmu.tick_other (by decide) t

theorem tick_global (R : Regs) (t : hw.Tick) : hw.tick R t ia32CrPerfGlobalCtrl = R ia32CrPerfGlobalCtrl :=
  Pmu.tick_other (by decide) t

theorem tick_pmc0 (R : Regs) (t : hw.Tick) : hw.tick R t ia32Pmc0 =
    if hw.counts R 0 t then BitVec.ofNat 64 (((R ia32Pmc0).toNat + 1) % 2 ^ hw.width) else R ia32Pmc0 :=
  Pmu.tick_pmc R t 0 (by decide)

theorem counts_deselected {R : Regs} (off : R ia32Perfevtsel0Addr = 0) (t : hw.Tick) : hw.counts R 0 t = false := by
  have disabled : (EventSelectRegister.enable.get (0 : Word) == 1) = false := by decide
  rw [Pmu.counts, Nat.add_zero, off, disabled, Bool.and_false, Bool.false_and]

/-- While the module counts, PMC0 advances on exactly the L3 misses. -/
theorem Counting.counts {p : Cpu} {R : Regs} {s : Session} (counting : Counting hw p R s) (t : hw.Tick) :
    hw.counts R 0 t = isL3Miss hw t := by
  have global : (R ia32CrPerfGlobalCtrl).getLsbD 0 = true := by
    rw [counting.global]
    decide
  have enable : EventSelectRegister.enable.get l3Select = 1 := by decide
  exact Pmu.counts_enabled global counting.select enable t

variable {p : Cpu}

theorem stable_true : Stable hw p fun _ _ => True where
  own _ _ := trivial
  foreign _ _ _ := trivial

theorem stable_enabled : Stable hw p Enabled where
  own enabled t := (tick_global _ t).trans enabled
  foreign enabled _ _ := enabled

theorem stable_counting : Stable hw p (Counting hw p) where
  own {R s} counting t := by
    obtain ⟨misses, rfl, pmc⟩ := counting.count
    refine ⟨(tick_global R t).trans counting.global, (tick_select R t).trans counting.select, ?_⟩
    rw [tick_pmc0, counting.counts, pmc, Pmu.toNat_ofNat_mod]
    cases miss : isL3Miss hw t with
    | true => exact ⟨misses + 1, by simp [Session.tick, miss], by simp⟩
    | false => exact ⟨misses, by simp [Session.tick, miss], by simp⟩
  foreign {R s x} counting other t := by
    obtain ⟨misses, rfl, pmc⟩ := counting.count
    exact ⟨counting.global, counting.select, misses, by simp [Session.tick, other], pmc⟩

theorem stable_read (misses : Nat) : Stable hw p (Read misses) where
  own {R s} read t := by
    obtain rfl := read
    rfl
  foreign {R s x} read _ t := by
    obtain rfl := read
    rfl

theorem stable_deselected : Stable hw p Deselected where
  own off t := (tick_select _ t).trans off
  foreign off _ _ := off

theorem stable_reset : Stable hw p Reset where
  own {R s} reset t := by
    refine ⟨(tick_select R t).trans reset.1, ?_⟩
    rw [tick_pmc0, counts_deselected reset.1]
    exact reset.2
  foreign reset _ _ := reset

theorem joined_halves (v : Word) : (v.setWidth 32).setWidth 64 ||| (v.extractLsb' 32 32).setWidth 64 <<< 32 = v := by
  apply BitVec.eq_of_getLsbD_eq
  intro i bound
  simp only [BitVec.getLsbD_or, BitVec.getLsbD_setWidth, BitVec.getLsbD_shiftLeft, BitVec.getLsbD_extractLsb']
  by_cases low : i < 32
  · simp [low, bound]
  · simp [low, bound, show i - 32 < 32 by omega, show i - 32 < 64 by omega, show 32 + (i - 32) = i by omega]

/-! ### The entry points -/

theorem clean_moved : ∀ s s' : Track, s.Clean → (view hw).rely s s' → s'.Clean := by
  rintro s s' clean ⟨x, t, rfl⟩
  exact clean.tick x t

theorem wp_pmcInit {s : Track} (clean : s.Clean) :
    (pmcInit p).wp (view hw) (fun _ => At p (Counting hw p)) s := by
  simp only [pmcInit, enableGlobalCounters, enableL3CacheMiss, Program.call_bind]
  refine Program.wp_act clean_moved clean fun t clean => ⟨clean, ?_⟩
  rintro ⟨⟩ u ⟨-, m, rfl, rfl⟩
  have start : At p (fun _ _ => True) ⟨t.msr, t.session, t.written ++ []⟩ :=
    ⟨fun x member _ => clean x (by simpa using member), trivial⟩
  refine wp_wrmsr stable_true start (ψ := Enabled) (fun R s _ _ => Function.update_self ..) fun s enabled => ?_
  refine wp_wrmsr stable_enabled enabled (ψ := Counting hw p) (fun R s enabled zero => ?_) fun s counting => ?_
  · have pmc : R ia32Pmc0 = 0 := zero rfl (by decide)
    refine ⟨(Function.update_of_ne (by decide) ..).trans enabled, Function.update_self .., 0, rfl, ?_⟩
    rw [Function.update_of_ne (by decide), pmc, Nat.zero_mod]
    rfl
  · exact Program.wp_done (At.moved stable_counting) counting

theorem wp_pmcExit {s : Track} (loaded : At p (Counting hw p) s) :
    (pmcExit p).wp (view hw) (fun _ => Track.Clean) s := by
  simp only [pmcExit, totalL3CacheMisses, disableL3CacheMiss, disableGlobalCounters, Program.call_bind, Program.act_bind,
    Program.done_bind, Program.pure_eq]
  apply wp_printk stable_counting loaded (fun _ _ => trivial)
  intro s loaded
  refine Program.wp_act (At.moved stable_counting) loaded fun t held => ⟨trivial, ?_⟩
  rintro r u ⟨narrow, m, ⟨rfl, rfl⟩, rfl⟩
  obtain ⟨misses, counting, pmc⟩ := held.here.count
  have small := narrow p misses counting
  have read : At p (Read misses) ⟨t.msr, t.session.act (.rdmsr p ia32Pmc0), t.written ++ (Act.rdmsr p ia32Pmc0).writes⟩ :=
    ⟨fun x member other => held.others x (by simpa [Act.writes] using member) other, by
      show t.session.act (.rdmsr p ia32Pmc0) = .reported misses
      rw [counting]
      rfl⟩
  have total : (t.msr p ia32Pmc0).toNat = misses := by rw [pmc, Pmu.toNat_ofNat_mod, Nat.mod_eq_of_lt small]
  rw [joined_halves]
  refine wp_printk (stable_read misses) read (fun s read => read.here.trans ?_) fun s read => ?_
  · rw [total]
  refine wp_wrmsr (stable_read misses) read (ψ := Deselected) (fun R s _ _ => Function.update_self ..) fun s off => ?_
  refine wp_wrmsr stable_deselected off (ψ := Reset) (fun R s off _ => ⟨?_, Function.update_self ..⟩) fun s reset => ?_
  · rw [Function.update_of_ne (by decide), off]
  refine wp_wrmsr stable_reset reset (ψ := fun R _ => Idle R) (fun R s reset _ => ?_) fun s idle => ?_
  · exact ⟨Function.update_self .., (Function.update_of_ne (by decide) ..).trans reset.1,
      (Function.update_of_ne (by decide) ..).trans reset.2⟩
  · have clean : s.Clean := fun x member => by
      by_cases same : x = p
      · exact same ▸ idle.here
      · exact idle.others x member same
    exact Program.wp_done clean_moved clean

theorem wp_lifecycle {cycles : List (Cpu × Cpu)} (sameCpu : ∀ cycle ∈ cycles, cycle.2 = cycle.1) {s : Track}
    (clean : s.Clean) : (lifecycle cycles).wp (view hw) (fun _ => Track.Clean) s := by
  refine Program.wp_forEach (I := fun _ => Track.Clean) clean (fun _ => clean_moved) (fun cycle rest t suffix clean => ?_)
    fun _ clean => clean
  have member : cycle ∈ cycles := suffix.subset List.mem_cons_self
  rw [sameCpu cycle member]
  exact Program.wp_seq (wp_pmcInit clean) fun _ _ loaded => wp_pmcExit loaded

/-! ### Runs -/

@[simp] theorem session_snoc (tr : List (Ev hw)) (e : Ev hw) : session (tr ++ [e]) = sessionStep (session tr) e := by
  simp [session]

@[simp] theorem written_snoc (tr : List (Ev hw)) (e : Ev hw) : written (tr ++ [e]) = written tr ++ written [e] := by
  simp [written]

def shown (hw : Pmu) : RelyGuarantee (machine hw) Meets where
  view _ := view hw
  abs _ tr m := track tr m
  inv _ _ := True
  own {t tr m o r m'} _ _ favourable step := by
    refine ⟨favourable, m', step, ?_⟩
    simp [track, sessionStep, written]
  others different _ _ _ _ := (different rfl).elim
  moves {u tr m e m'} _ _ step := by
    refine .single ⟨e.1, e.2, ?_⟩
    obtain rfl := step
    simp [track, Track.tick, sessionStep, written]
  inv_act _ _ _ _ := trivial
  inv_env _ _ _ := trivial

/-- In every run in which PMC0 is 0 whenever PERFEVTSEL0 is selected and stays within
its width, exits on the CPU of their load report what was counted and clean up. -/
theorem reports_and_cleans {cycles : List (Cpu × Cpu)} (sameCpu : ∀ cycle ∈ cycles, cycle.2 = cycle.1) {m : Cpu → Regs}
    {tr : List (Ev hw)} {c : Config Unit Act Act.Res (Cpu → Regs)}
    (run : (machine hw).Run Meets ⟨m, fun _ => lifecycle cycles⟩ tr c) :
    Reports tr ∧ ∀ rest, c.pool () = lifecycle rest → CleanedUp tr c.state := by
  have proved : (lifecycle cycles).wp (view hw) (fun _ => Track.Clean) (track ([] : List (Ev hw)) m) :=
    wp_lifecycle sameCpu fun x member => by simp [track, written] at member
  constructor
  · intro before misses after split
    obtain ⟨m', -, -, allowed⟩ := ((shown hw).kept (fun _ _ => Track.Clean) run trivial fun _ => proved).meets split
    exact allowed () (.printk (.total misses)) () rfl
  · intro rest here
    have turn := ((shown hw).run (fun _ _ => Track.Clean) run trivial fun _ => proved).2 ()
    rw [here] at turn
    cases rest with
    | nil => exact turn _ .refl
    | cons cycle rest => exact (Program.wp_now turn).1

/-! ### Schedules -/

def player (hw : Pmu) : System.Player (machine hw) where
  answer _ m
    | .wrmsr cpu reg eax edx => some ((), Function.update m cpu (Function.update (m cpu) reg (edx ++ eax)))
    | .rdmsr cpu reg => some (((m cpu reg).setWidth 32, (m cpu reg).extractLsb' 32 32), m)
    | .printk _ => some ((), m)
  respond e m := some (Function.update m e.1 (hw.tick (m e.1) e.2))
  answer_sound {t m o r m'} answered := by
    cases o with
    | wrmsr | printk => exact (Prod.mk.inj (Option.some.inj answered)).2.symm
    | rdmsr =>
      obtain ⟨here, rfl⟩ := Prod.mk.inj (Option.some.inj answered)
      exact ⟨here.symm, rfl⟩
  respond_sound responded := (Option.some.inj responded).symm

def meetsCheck (tr : List (Ev .exact)) (m : Cpu → Regs) : Ev .exact → Bool
  | .act _ (.wrmsr cpu reg eax _) _ =>
    decide (reg ≠ ia32Perfevtsel0Addr) || decide (eax = 0) || decide (m cpu ia32Pmc0 = 0)
  | .act _ (.rdmsr ..) _ =>
    match session tr with
    | .counting _ misses => decide (misses < 2 ^ 48)
    | _ => true
  | _ => true

theorem meets_of_check (tr : List (Ev .exact)) (m : Cpu → Regs) (e : Ev .exact) (checked : meetsCheck tr m e = true) :
    Meets tr m e := by
  cases e with
  | env _ => trivial
  | act _ o _ =>
    cases o with
    | printk _ => trivial
    | wrmsr cpu reg eax edx =>
      intro select nonzero
      have zero : eax = 0 ∨ m cpu ia32Pmc0 = 0 := by simpa [meetsCheck, select] using checked
      exact zero.resolve_left nonzero
    | rdmsr cpu reg =>
      intro x misses counting
      replace counting : session tr = .counting x misses := counting
      simpa [meetsCheck, counting] using checked

/-- A load with one L3 miss before PERFEVTSEL0 is written, one until PMC0 is read, and one after. -/
theorem reports_oneMiss : ∃ (tr : List (Ev .exact)) (c : Config Unit Act Act.Res (Cpu → Regs)),
    Event.act () (.printk (.total 1)) () ∈ tr ∧ c.pool () = lifecycle [] ∧
      Reports tr ∧ ∀ rest, c.pool () = lifecycle rest → CleanedUp tr c.state := by
  have played : (player .exact).play meetsCheck
      [.inl (), .inr (0, 0x2e, 0x41), .inl (), .inl (), .inr (0, 0x2e, 0x41), .inl (), .inl (), .inr (0, 0x2e, 0x41), .inl (),
        .inl (), .inl (), .inl ()] [] ⟨fun _ _ => 0, fun _ => lifecycle [(0, 0)]⟩ =
      some ([.act () (.printk (.inside .pmcInit)) (), .env (0, 0x2e, 0x41), .act () (.wrmsr 0 ia32CrPerfGlobalCtrl 0xf 0) (),
        .act () (.wrmsr 0 ia32Perfevtsel0Addr 0x43412e 0) (), .env (0, 0x2e, 0x41), .act () (.printk (.inside .pmcExit)) (),
        .act () (.rdmsr 0 ia32Pmc0) (1, 0), .env (0, 0x2e, 0x41), .act () (.printk (.total 1)) (),
        .act () (.wrmsr 0 ia32Perfevtsel0Addr 0 0) (), .act () (.wrmsr 0 ia32Pmc0 0 0) (),
        .act () (.wrmsr 0 ia32CrPerfGlobalCtrl 0 0) ()], _) := rfl
  have sameCpu : ∀ cycle ∈ [((0 : Cpu), (0 : Cpu))], cycle.2 = cycle.1 := by simp
  have run := (player .exact).play_run meets_of_check .start played
  exact ⟨_, _, by simp, rfl, reports_and_cleans sameCpu run⟩

/-- CPU 0 with 5 in PMC0. -/
def stale : Cpu → Regs := fun _ a => if a = ia32Pmc0 then 5 else 0

/-- What PMC0 held before the load is printed as misses. -/
theorem reports_stale : ∃ tr c,
    (machine .exact).Run (fun _ _ _ => True) ⟨stale, fun _ => lifecycle [(0, 0)]⟩ tr c ∧ ¬ Reports tr := by
  have played : (player .exact).play (fun _ _ _ => true) (List.replicate 6 (.inl ())) [] ⟨stale, fun _ => lifecycle [(0, 0)]⟩ =
      some ([.act () (.printk (.inside .pmcInit)) (), .act () (.wrmsr 0 ia32CrPerfGlobalCtrl 0xf 0) (),
        .act () (.wrmsr 0 ia32Perfevtsel0Addr 0x43412e 0) (), .act () (.printk (.inside .pmcExit)) (),
        .act () (.rdmsr 0 ia32Pmc0) (5, 0), .act () (.printk (.total 5)) ()], _) := rfl
  refine ⟨_, _, (player .exact).play_run (fun _ _ _ _ => trivial) .start played, fun reports => ?_⟩
  have counted := reports ([_, _, _, _, _]) 5 [] rfl
  cases counted

end PmcBench.KernelModule
