import PmcBench.RdmsrReading

/-!
# wrmsr (msr-tools/msr-tools-1.2/wrmsr.c)

The tool writes its values to one register, one after the other, up to the first that
the device refuses. A run leaves an outcome and the values it has written.
-/

namespace PmcBench.Wrmsr
open CLib

def longOptions : List LongOption :=
  [⟨"help".toList, false, 'h'⟩, ⟨"version".toList, false, 'V'⟩, ⟨"processor".toList, true, 'p'⟩, ⟨"cpu".toList, true, 'p'⟩]

def shortOptions : List Char := "hVp:".toList

def options : Options := ⟨shortOptions, longOptions⟩

def usage (program : List Char) : List Char :=
  format ("Usage: %s [options] regno value...\n" ++
    "  --help         -h  Print this help\n" ++
    "  --version      -V  Print current version\n" ++
    "  --processor #  -p  Select processor number (default 0)\n") [.str program]

/-- One turn of the option loop, on the number of the processor. -/
def option (host : Host) (program : List Char) (_cpu : Nat) : Found → Except Outcome Nat
  | .option 'h' _ => .error { status := 0, stderr := usage program }
  | .option 'V' _ => .error { status := 0, stderr := format "%s: version %s\n" [.str program, .str versionString] }
  | .option 'p' (some optarg) =>
    let (arg, endarg) := strtoul 0 optarg
    if endarg ≠ [] ∨ arg > 255 then .error { status := 127, stderr := usage program } else .ok arg.toNat
  | .unknown why => .error { status := 127, stderr := host.complains program why ++ usage program }
  | .option .. => .error { status := 127, stderr := usage program }

def pwriteFailed (cpu : Nat) (reg : BitVec 32) (data : Word) : Errno → Outcome
  | .eio =>
    { status := 4
      stderr := format "wrmsr: CPU %d cannot set MSR 0x%08x to 0x%016lx\n" [.int (.ofNat 32 cpu), .int reg, .long data] }
  | e => { status := 127, stderr := perror "wrmsr: pwrite" e }

/-- A `pwrite` that the device carries out. -/
structure Write where
  cpu : Nat
  reg : BitVec 32
  data : Word
  deriving DecidableEq

def Write.apply (msr : MsrFile) (w : Write) : MsrFile :=
  Function.update msr w.cpu (Function.update (msr w.cpu) w.reg w.data)

structure Run where
  outcome : Outcome
  writes : List Write := []
  deriving DecidableEq

def Run.after (run : Run) (msr : MsrFile) : MsrFile := run.writes.foldl Write.apply msr

/-- The loop over the values, from the `k`-th write on. -/
def writeValues (host : Host) (cpu : Nat) (reg : BitVec 32) : Nat → Arguments → Run
  | _, [] => { outcome := { status := 0 } }
  | k, value :: values =>
    let data := (strtoul 0 value).1
    match host.writes k cpu reg data with
    | some e => { outcome := pwriteFailed cpu reg data e }
    | none =>
      let rest := writeValues host cpu reg (k + 1) values
      { rest with writes := ⟨cpu, reg, data⟩ :: rest.writes }

def main (host : Host) (program : List Char) (args : Arguments) : Run :=
  let (found, operands) := options.getopt none args
  match found.foldlM (option host program) 0 with
  | .error outcome => { outcome }
  | .ok cpu =>
    match operands with
    | regno :: value :: values =>
      match host.opens cpu with
      | some e => { outcome := openFailed "wrmsr" cpu e }
      | none => writeValues host cpu ((strtoul 0 regno).1.setWidth 32) 0 (value :: values)
    | _ => { outcome := { status := 127, stderr := usage program } }

/-! ### What is written -/

section
variable {host : Host} {cpu : Nat} {reg : BitVec 32}

def writesOf (cpu : Nat) (reg : BitVec 32) (values : Arguments) : List Write :=
  values.map fun value => ⟨cpu, reg, (strtoul 0 value).1⟩

theorem pwriteFailed_status (data : Word) (e : Errno) : (pwriteFailed cpu reg data e).status ≠ 0 := by
  cases e <;> simp [pwriteFailed]

theorem writeValues_refused {k : Nat} {value : List Char} {values : Arguments} {e : Errno}
    (refused : host.writes k cpu reg (strtoul 0 value).1 = some e) : writeValues host cpu reg k (value :: values) =
      { outcome := pwriteFailed cpu reg (strtoul 0 value).1 e } := by
  unfold writeValues
  simp only [refused]

theorem writeValues_carried {k : Nat} {value : List Char} {values : Arguments}
    (carried : host.writes k cpu reg (strtoul 0 value).1 = none) : writeValues host cpu reg k (value :: values) =
      { outcome := (writeValues host cpu reg (k + 1) values).outcome
        writes := ⟨cpu, reg, (strtoul 0 value).1⟩ :: (writeValues host cpu reg (k + 1) values).writes } := by
  rw [writeValues]
  simp only [carried]

/-- What is written is a front part of what was asked for, and it is all of it exactly when the
status is zero; else the device refuses the next one. -/
structure Exact (host : Host) (cpu : Nat) (reg : BitVec 32) (k : Nat) (values : Arguments) (run : Run) : Prop where
  front : run.writes <+: writesOf cpu reg values
  carried : ∀ j (w : Write), run.writes[j]? = some w → host.writes (k + j) cpu reg w.data = none
  status : run.outcome.status = 0 ↔ run.writes = writesOf cpu reg values
  refused : ∀ w rest, writesOf cpu reg values = run.writes ++ w :: rest →
    ∃ e, host.writes (k + run.writes.length) cpu reg w.data = some e ∧ run.outcome = pwriteFailed cpu reg w.data e

theorem writeValues_exact (k : Nat) (values : Arguments) :
    Exact host cpu reg k values (writeValues host cpu reg k values) := by
  induction values generalizing k with
  | nil => exact ⟨List.prefix_rfl, nofun, Iff.rfl.trans (by simp [writeValues, writesOf]), nofun⟩
  | cons value values ih =>
    cases refused : host.writes k cpu reg (strtoul 0 value).1 with
    | some e =>
      rw [writeValues_refused refused]
      refine ⟨List.nil_prefix, nofun, ?_, fun w rest same => ?_⟩
      · exact iff_of_false (pwriteFailed_status _ e) nofun
      · obtain ⟨rfl, -⟩ := List.cons.inj same
        exact ⟨e, refused, rfl⟩
    | none =>
      rw [writeValues_carried refused]
      obtain ⟨front, carried, status, next⟩ := ih (k + 1)
      refine ⟨List.cons_prefix_cons.mpr ⟨rfl, front⟩, fun j w here => ?_, ?_, fun w rest same => ?_⟩
      · cases j with
        | zero =>
          obtain rfl := Option.some.inj here
          exact refused
        | succ j =>
          rw [Nat.add_comm j 1, ← Nat.add_assoc]
          exact carried j w here
      · exact status.trans ⟨fun all => congrArg _ all, fun all => (List.cons.inj all).2⟩
      · obtain ⟨e, there, ended⟩ := next w rest (List.cons.inj same).2
        refine ⟨e, ?_, ended⟩
        rw [List.length_cons, Nat.add_comm _ 1, ← Nat.add_assoc]
        exact there

/-- All values are written if the device refuses none. -/
theorem writeValues_all {k : Nat} {values : Arguments} (carries : ∀ j v, host.writes j cpu reg v = none) :
    writeValues host cpu reg k values = { outcome := { status := 0 }, writes := writesOf cpu reg values } := by
  induction values generalizing k with
  | nil => rfl
  | cons value values ih =>
    rw [writeValues_carried (carries ..), ih]
    rfl

end

end PmcBench.Wrmsr
