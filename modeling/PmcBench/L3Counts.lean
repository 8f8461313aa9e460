import PmcBench.Threads.System
import PmcBench.Pmu
import PmcBench.CLib.Format

/-!
# Counting L3 misses and references (cpuid.c, msr-old.c)

`count_l3_cache_misses_references` programs PMC0 and PMC1 without clearing them
and subtracts the values before and after the work in 64 bits. `Window` is what
the history of a run says of the events between the two reads of a counter.
-/

namespace PmcBench.L3Counts
open Threads Words CLib
open Program (forEach)

/-! ### The code -/

/-- The two counts, `*misses` and `*references`. -/
inductive Count where
  | misses | references
  deriving DecidableEq

inductive Errno where
  | enxio | eio | other

/-- The system calls with the CPU of the opened file, and the memory that outlives
a function. A local variable without a value is `uninitialised`. -/
inductive Act where
  | openMsr (cpu : Cpu)
  | pread (cpu : Cpu) (reg : Nat)
  | pwrite (cpu : Cpu) (reg : Nat) (v : Word)
  | close (cpu : Cpu)
  | errno
  | complain (call : Printf)
  | perror (text : String)
  | uninitialised
  | add (i : Nat)
  | store (k : Count) (v : Word)
  | load (k : Count)
  | printf (call : Printf)

@[reducible] def Act.Res : Act → Type
  | .openMsr _ | .pwrite .. => Bool
  | .pread .. => Option Word
  | .errno => Errno
  | .uninitialised | .load _ => Word
  | _ => Unit

abbrev LProg := Program Act Act.Res

abbrev perform (o : Act) : LProg o.Res := Program.call o

def openMsr (cpu : Cpu) : LProg Unit := do
  let opened ← perform (.openMsr cpu)
  if opened then pure () else
    match ← perform .errno with
    | .enxio => perform (.complain ⟨"rdmsr: No CPU %d\n", [.int (BitVec.ofNat 32 cpu.toNat)]⟩)
    | .eio => perform (.complain ⟨"rdmsr: CPU %d doesn't support MSRs\n", [.int (BitVec.ofNat 32 cpu.toNat)]⟩)
    | .other => perform (.perror "rdmsr: open")

/-- The value read, where the read succeeds. -/
def msrRead (cpu : Cpu) (reg : Nat) : LProg (Option Word) := do
  let data ← perform (.pread cpu reg)
  if data.isSome then pure data else
    match ← perform .errno with
    | .eio => do
      perform (.complain ⟨"rdmsr: cannot read MSR 0x%016lx\n", [.long (BitVec.ofNat 64 reg)]⟩)
      pure none
    | _ => do
      perform (.perror "rdmsr: pread")
      pure none

/-- No caller looks at the result. -/
def msrWrite (cpu : Cpu) (reg : Nat) (v : Word) : LProg Unit := do
  let written ← perform (.pwrite cpu reg v)
  if written then pure () else
    match ← perform .errno with
    | .eio => perform (.complain ⟨"wrmsr: cannot set MSR 0x%016lx\n", [.long (BitVec.ofNat 64 reg)]⟩)
    | _ => do
      perform (.printf ⟨"Error in writing : %lx\n", [.long (BitVec.ofNat 64 reg)]⟩)
      perform (.perror "wrmsr: pwrite")

/-- `reg`, `event_num` and `umask` of `enable_l3_cache_miss` and `enable_l3_cache_reference`. -/
def enableEvent (cpu : Cpu) (reg : Nat) (eventNum umask : Word) : LProg Unit :=
  let enableBits : Word := 0x430000
  let event := enableBits ||| umask ||| eventNum
  msrWrite cpu reg event

def enableL3CacheMiss (cpu : Cpu) : LProg Unit := enableEvent cpu 0x186 0x002e 0x4100

def enableL3CacheReference (cpu : Cpu) : LProg Unit := enableEvent cpu 0x187 0x002e 0x4f00

def enableGlobalCounters (cpu : Cpu) : LProg Unit := msrWrite cpu 0x38f 0x0f

/-- `reg_PEREVTSEL` and `reg_PMCx` of `disable_l3_cache_miss` and `disable_l3_cache_reference`. -/
def disableEvent (cpu : Cpu) (regPerevtsel regPmcx : Nat) : LProg Unit := do
  msrWrite cpu regPerevtsel 0
  msrWrite cpu regPmcx 0

def disableL3CacheMiss (cpu : Cpu) : LProg Unit := disableEvent cpu 0x186 0x0C1

def disableL3CacheReference (cpu : Cpu) : LProg Unit := disableEvent cpu 0x187 0x0C2

def disableGlobalCounters (cpu : Cpu) : LProg Unit := msrWrite cpu 0x38f 0

/-- The register `reg` of `get_l3_cache_misses` and `get_l3_cache_references`. -/
def getTotal (cpu : Cpu) (reg : Nat) : LProg Word := do
  match ← msrRead cpu reg with
  | some total => pure total
  | none => perform .uninitialised

def getL3CacheMisses (cpu : Cpu) : LProg Word := getTotal cpu 0x0C1

def getL3CacheReferences (cpu : Cpu) : LProg Word := getTotal cpu 0x0C2

/-- The measured loop, `sum[i] = aa[i] + bb[i]`. -/
def work (n : Nat) : LProg Unit := forEach (List.range n) fun i => perform (.add i)

/-- The body for arrays of `n` elements. -/
def countOver (n : Nat) : LProg Unit := do
  openMsr 0
  enableL3CacheMiss 0
  enableL3CacheReference 0
  enableGlobalCounters 0
  let l3MissesStart ← getL3CacheMisses 0
  let l3ReferencesStart ← getL3CacheReferences 0
  work n
  let l3MissesEnd ← getL3CacheMisses 0
  let l3ReferencesEnd ← getL3CacheReferences 0
  perform (.store .misses (l3MissesEnd - l3MissesStart))
  perform (.store .references (l3ReferencesEnd - l3ReferencesStart))
  let misses ← perform (.load .misses)
  perform (.printf ⟨"l3 cache misses - %lu\n", [.long misses]⟩)
  let references ← perform (.load .references)
  perform (.printf ⟨"l3 cache references - %lu\n", [.long references]⟩)
  disableGlobalCounters 0
  disableL3CacheMiss 0
  disableL3CacheReference 0
  perform (.close 0)

/-- The argument `cpu` is not used. -/
def countL3CacheMissesReferences (_cpu : Int) : LProg Unit := countOver 256000

/-! ### The machine -/

/-- The registers of every CPU, the two counts of the caller, and the arrays. -/
structure Machine where
  msr : Cpu → Regs
  out : Count → Word
  aa : Nat → BitVec 32
  bb : Nat → BitVec 32
  sum : Nat → BitVec 32

namespace Machine

def write (m : Machine) (cpu : Cpu) (reg : Nat) (v : Word) : Machine :=
  { m with msr := Function.update m.msr cpu (Function.update (m.msr cpu) reg v) }

def tick {hw : Pmu} (m : Machine) (cpu : Cpu) (t : hw.Tick) : Machine :=
  { m with msr := Function.update m.msr cpu (hw.tick (m.msr cpu) t) }

def store (m : Machine) (k : Count) (v : Word) : Machine := { m with out := Function.update m.out k v }

def add (m : Machine) (i : Nat) : Machine := { m with sum := Function.update m.sum i (m.aa i + m.bb i) }

end Machine

def effect (m : Machine) : (o : Act) → o.Res → Machine → Prop
  | .pread cpu reg, r, m' => (r = some (m.msr cpu reg) ∨ r = none) ∧ m' = m
  | .pwrite cpu reg v, written, m' =>
    (written = true ∧ m' = m.write cpu reg v) ∨ (written = false ∧ m' = m)
  | .add i, _, m' => m' = m.add i
  | .store k v, _, m' => m' = m.store k v
  | .load k, r, m' => r = m.out k ∧ m' = m
  | _, _, m' => m' = m

variable {hw : Pmu}

abbrev Ev (hw : Pmu) := Event Unit (Cpu × hw.Tick) Act Act.Res

def machine (hw : Pmu) : System Unit (Cpu × hw.Tick) Act Act.Res Machine where
  act _ m o r m' := effect m o r m'
  env e m m' := m' = m.tick e.1 e.2

/-- The system call succeeds. -/
def Act.Ok : (o : Act) → o.Res → Prop
  | .openMsr _, r | .pwrite .., r => r = true
  | .pread .., r => r.isSome = true
  | _, _ => True

/-- The condition on the steps of a run: all accesses to MSRs succeed. -/
def Succeeds (_ : List (Ev hw)) (_ : Machine) : Ev hw → Prop
  | .act _ o r => o.Ok r
  | .env _ => True

/-! ### The events between two reads -/

namespace Count

def index : Count → Nat
  | .misses => 0
  | .references => 1

def pmc (k : Count) : Nat := ia32Pmc0 + k.index

def select (k : Count) : Nat := ia32Perfevtsel0Addr + k.index

/-- L3 misses are event 2EH with unit mask 41H, references those with 4FH. -/
def hits (hw : Pmu) : Count → hw.Tick → Bool
  | .misses, t => hw.hits t 0x2e 0x41
  | .references, t => hw.hits t 0x2e 0x4f

end Count

/-- The two reads of a counter: the value of the first, and the events since then or up to the second. -/
inductive Window where
  | before
  | between (start : Word) (events : Nat)
  | ended (start : Word) (events : Nat)

namespace Window

def read (v : Word) : Window → Window
  | .before => .between v 0
  | .between start events | .ended start events => .ended start events

def event (hit : Bool) : Window → Window
  | .between start events => .between start (if hit then events + 1 else events)
  | w => w

end Window

def windowStep (k : Count) (w : Window) : Ev hw → Window
  | .act _ (.pread cpu reg) (some v) => if cpu = 0 ∧ reg = k.pmc then w.read v else w
  | .act .. => w
  | .env (cpu, t) => if cpu = 0 then w.event (k.hits hw t) else w

def window (tr : List (Ev hw)) (k : Count) : Window := tr.foldl (windowStep k) .before

/-! ### The view of the function -/

/-- The registers of CPU 0, the windows, and the counts of the caller. -/
structure Track where
  regs : Regs
  window : Count → Window
  out : Count → Word

def track (tr : List (Ev hw)) (m : Machine) : Track := ⟨m.msr 0, window tr, m.out⟩

namespace Track

def tick (hw : Pmu) (s : Track) (t : hw.Tick) : Track :=
  { s with regs := hw.tick s.regs t, window := fun k => (s.window k).event (k.hits hw t) }

def write (s : Track) (reg : Nat) (v : Word) : Track := { s with regs := Function.update s.regs reg v }

def read (s : Track) (reg : Nat) : Track :=
  { s with window := fun k => if reg = k.pmc then (s.window k).read (s.regs reg) else s.window k }

def store (s : Track) (k : Count) (v : Word) : Track := { s with out := Function.update s.out k v }

def next (s : Track) : (o : Act) → o.Res → Track → Prop
  | .openMsr _, r, s' => r = true ∧ s' = s
  | .pread _ reg, r, s' => r = some (s.regs reg) ∧ s' = s.read reg
  | .pwrite _ reg v, r, s' => r = true ∧ s' = s.write reg v
  | .store k v, _, s' => s' = s.store k v
  | .load k, r, s' => r = s.out k ∧ s' = s
  | _, _, s' => s' = s

end Track

abbrev view (hw : Pmu) : View Act Act.Res where
  St := Track
  rely s s' := ∃ t : hw.Tick, s' = s.tick hw t
  allow _
    | .pread cpu _ | .pwrite cpu _ _ => cpu = 0
    | _ => True
  next s o r s' := s.next o r s'

theorem window_snoc (tr : List (Ev hw)) (e : Ev hw) (k : Count) : window (tr ++ [e]) k = windowStep k (window tr k) e := by
  simp [window]

theorem track_act {tr : List (Ev hw)} {m m' : Machine} {o : Act} {r : o.Res} (step : effect m o r m') (ok : o.Ok r)
    (allowed : (view hw).allow (track tr m) o) : (track tr m).next o r (track (tr ++ [.act () o r]) m') := by
  have other (here : ∀ k, windowStep k (window tr k) (.act () o r : Ev hw) = window tr k) :
      window (tr ++ [.act () o r]) = window tr := by
    funext k
    rw [window_snoc, here k]
  cases o with
  | pread cpu reg =>
    obtain rfl := allowed
    obtain ⟨found | failed, rfl⟩ := step
    · subst found
      refine ⟨rfl, ?_⟩
      have windows : window (tr ++ [.act () (.pread 0 reg) (some (m'.msr 0 reg))]) =
          ((track tr m').read reg).window := by
        funext k
        rw [window_snoc]
        by_cases same : reg = k.pmc <;> simp [windowStep, Track.read, track, same]
      rw [track, windows]
      rfl
    · subst failed
      cases ok
  | pwrite cpu reg v =>
    obtain rfl := allowed
    obtain ⟨-, rfl⟩ | ⟨rfl, -⟩ := step
    · refine ⟨ok, ?_⟩
      rw [track, other fun _ => rfl]
      simp [track, Track.write, Machine.write]
    · cases ok
  | openMsr cpu =>
    obtain rfl := step
    refine ⟨ok, ?_⟩
    rw [track, other fun _ => rfl]
    rfl
  | load k =>
    obtain ⟨rfl, rfl⟩ := step
    refine ⟨rfl, ?_⟩
    rw [track, other fun _ => rfl]
    rfl
  | store | add | close | errno | complain | perror | uninitialised | printf =>
    obtain rfl := step
    show track _ _ = _
    rw [track, other fun _ => rfl]
    rfl

theorem track_tick (tr : List (Ev hw)) (m : Machine) (t : hw.Tick) :
    track (tr ++ [.env (0, t)]) (m.tick 0 t) = (track tr m).tick hw t := by
  have windows : window (tr ++ [.env (0, t)]) = fun k => (window tr k).event (k.hits hw t) := by
    funext k
    rw [window_snoc]
    rfl
  rw [track, windows]
  simp [track, Track.tick, Machine.tick]

/-- Events on other CPUs are not seen. -/
theorem track_elsewhere (tr : List (Ev hw)) (m : Machine) {x : Cpu} (other : x ≠ 0) (t : hw.Tick) :
    track (tr ++ [.env (x, t)]) (m.tick x t) = track tr m := by
  have windows : window (tr ++ [.env (x, t)]) = window tr := by
    funext k
    rw [window_snoc]
    simp [windowStep, other]
  rw [track, windows]
  simp [track, Machine.tick, Function.update_of_ne (Ne.symm other)]

def shown (hw : Pmu) : RelyGuarantee (machine hw) Succeeds where
  view _ := view hw
  abs _ tr m := track tr m
  inv _ _ := True
  own _ allowed ok step := track_act step ok allowed
  others different _ _ _ _ := (different rfl).elim
  moves {u tr m e m'} _ _ step := by
    obtain ⟨x, t⟩ := e
    obtain rfl := step
    by_cases here : x = 0
    · subst here
      exact .single ⟨t, track_tick tr m t⟩
    · have same := track_elsewhere tr m here t
      rw [same]
  inv_act _ _ _ _ := trivial
  inv_env _ _ _ := trivial

/-! ### Rules for the accesses -/

/-- Events on CPU 0 keep `φ`. -/
def Stable (hw : Pmu) (φ : Track → Prop) : Prop := ∀ s, φ s → ∀ t : hw.Tick, φ (s.tick hw t)

section Rules
variable {φ ψ : Track → Prop} {s : Track}

theorem Stable.rely (stable : Stable hw φ) : ∀ s s', φ s → (view hw).rely s s' → φ s' := by
  rintro s s' now ⟨t, rfl⟩
  exact stable s now t

theorem wp_openMsr (stable : Stable hw φ) (now : φ s) : (openMsr 0).wp (view hw) (fun _ => φ) s := by
  unfold openMsr
  rw [Program.call_bind]
  apply Program.wp_act stable.rely now
  intro t held
  refine ⟨trivial, ?_⟩
  rintro r u ⟨rfl, rfl⟩
  exact Program.wp_done stable.rely held

theorem wp_msrWrite {reg : Nat} {v : Word} (stable : Stable hw φ) (stable' : Stable hw ψ) (now : φ s)
    (wrote : ∀ s, φ s → ψ (s.write reg v)) : (msrWrite 0 reg v).wp (view hw) (fun _ => ψ) s := by
  unfold msrWrite
  rw [Program.call_bind]
  apply Program.wp_act stable.rely now
  intro t held
  refine ⟨rfl, ?_⟩
  rintro r u ⟨rfl, rfl⟩
  exact Program.wp_done stable'.rely (wrote t held)

theorem wp_getTotal {reg : Nat} {ψ : Word → Track → Prop} (stable : Stable hw φ) (stable' : ∀ v, Stable hw (ψ v))
    (now : φ s) (reads : ∀ s, φ s → ψ (s.regs reg) (s.read reg)) : (getTotal 0 reg).wp (view hw) ψ s := by
  unfold getTotal msrRead
  rw [Program.call_bind, Program.act_bind]
  apply Program.wp_act stable.rely now
  intro t held
  refine ⟨rfl, ?_⟩
  rintro r u ⟨rfl, rfl⟩
  exact Program.wp_done (stable' _).rely (reads t held)

/-- The actions that neither a counter nor a count of the caller sees. -/
def Act.still : Act → Bool
  | .close _ | .add _ | .load _ | .printf _ => true
  | _ => false

theorem next_still {o : Act} (still : o.still = true) :
    (view hw).allow s o ∧ ∀ r s', s.next o r s' → s' = s := by
  cases o with
  | load k => exact ⟨trivial, fun _ _ step => step.2⟩
  | close | add | printf => exact ⟨trivial, fun _ _ step => step⟩
  | _ => cases still

theorem wp_still {α : Type} {o : Act} {next : o.Res → LProg α} {Q : α → Track → Prop} (stable : Stable hw φ) (now : φ s)
    (still : o.still = true) (rest : ∀ r s, φ s → (next r).wp (view hw) Q s) :
    (Program.act o next).wp (view hw) Q s := by
  apply Program.wp_act stable.rely now
  intro t held
  have ⟨allowed, same⟩ : (view hw).allow t o ∧ ∀ r s', t.next o r s' → s' = t := next_still still
  refine ⟨allowed, ?_⟩
  intro r u step
  rw [same r u step]
  exact rest r t held

theorem wp_work {n : Nat} (stable : Stable hw φ) (now : φ s) : (work n).wp (view hw) (fun _ => φ) s := by
  refine Program.wp_of_preserves (V := view hw) stable.rely ?_ now
  apply Program.All.forEach
  intro i _
  rw [Program.all_call]
  intro s held
  refine ⟨trivial, ?_⟩
  rintro r t rfl
  exact held

end Rules

end PmcBench.L3Counts
