import PmcBench.CLib.Format
import PmcBench.CLib.Getopt
import PmcBench.Registers

/-!
# rdmsr (msr-tools/msr-tools-1.2/rdmsr.c)

The tool reads one register and prints a field of it. An outcome is what a run leaves
behind: its exit status and what it has written; `none` stands for a step that C leaves
undefined, a shift by 64 or an index outside of a table.
-/

namespace PmcBench
open CLib

inductive Errno where
  | enxio
  | eio
  | other (message : List Char)

/-- The device files `/dev/cpu/N/msr`: what fails, and with which error; the `k`-th write of a run
may fail for reasons of its own. And the line that `getopt_long` prints when it refuses an option. -/
structure Host where
  opens : Nat → Option Errno := fun _ => none
  reads : Nat → BitVec 32 → Option Errno := fun _ _ => none
  writes : Nat → Nat → BitVec 32 → Word → Option Errno := fun _ _ _ _ => none
  complains : List Char → Refusal → List Char := fun _ _ => []

abbrev MsrFile := Nat → BitVec 32 → Word

/-- The exit status and all that has been written, by the tool and by the library for it. -/
structure Outcome where
  status : Nat
  stdout : List Char := []
  stderr : List Char := []
  deriving DecidableEq

def perror (who : String) : Errno → List Char
  | .enxio => format "%s: No such device or address\n" [.str who.toList]
  | .eio => format "%s: Input/output error\n" [.str who.toList]
  | .other message => format "%s: %s\n" [.str who.toList, .str message]

def versionString : List Char := "msr-tools-1.2".toList

/-- How both tools end when the device file cannot be opened. -/
def openFailed (tool : String) (cpu : Nat) : Errno → Outcome
  | .enxio => { status := 2, stderr := format (tool ++ ": No CPU %d\n") [.int (.ofNat 32 cpu)] }
  | .eio => { status := 3, stderr := format (tool ++ ": CPU %d doesn't support MSRs\n") [.int (.ofNat 32 cpu)] }
  | e => { status := 127, stderr := perror (tool ++ ": open") e }

namespace Rdmsr

def longOptions : List LongOption :=
  [⟨"help".toList, false, 'h'⟩, ⟨"version".toList, false, 'V'⟩, ⟨"hexadecimal".toList, false, 'x'⟩,
    ⟨"capital-hexadecimal".toList, false, 'X'⟩, ⟨"decimal".toList, false, 'd'⟩, ⟨"signed-decimal".toList, false, 'd'⟩,
    ⟨"unsigned-decimal".toList, false, 'u'⟩, ⟨"octal".toList, false, 'o'⟩, ⟨"c-language".toList, false, 'c'⟩,
    ⟨"zero-fill".toList, false, '0'⟩, ⟨"zero-pad".toList, false, '0'⟩, ⟨"raw".toList, false, 'r'⟩,
    ⟨"processor".toList, true, 'p'⟩, ⟨"cpu".toList, true, 'p'⟩, ⟨"bitfield".toList, true, 'f'⟩]

def shortOptions : List Char := "hVxXdoruc0p:f:".toList

def options : Options := ⟨shortOptions, longOptions⟩

/-- Number of decimal digits for a certain number of bits. -/
def decdigits : List (BitVec 32) :=
  [1, 1, 1, 1, 2, 2, 2, 3, 3, 3, 4, 4, 4, 4, 5, 5,
    5, 6, 6, 6, 7, 7, 7, 7, 8, 8, 8, 9, 9, 9, 10, 10,
    10, 10, 11, 11, 11, 12, 12, 12, 13, 13, 13, 13, 14, 14, 14, 15,
    15, 15, 16, 16, 16, 16, 17, 17, 17, 18, 18, 18, 19, 19, 19, 19,
    20]

def moHex : BitVec 32 := 0x01
def moDec : BitVec 32 := 0x02
def moOct : BitVec 32 := 0x03
def moRaw : BitVec 32 := 0x04
def moUns : BitVec 32 := 0x05
def moChx : BitVec 32 := 0x06
def moMask : BitVec 32 := 0x0f
def moFill : BitVec 32 := 0x40
def moC : BitVec 32 := 0x80

def usage (program : List Char) : List Char :=
  format ("Usage: %s [options] regno\n" ++
    "  --help         -h  Print this help\n" ++
    "  --version      -V  Print current version\n" ++
    "  --hexadecimal  -x  Hexadecimal output (lower case)\n" ++
    "  --capital-hex  -X  Hexadecimal output (upper case)\n" ++
    "  --decimal      -d  Signed decimal output\n" ++
    "  --unsigned     -u  Unsigned decimal output\n" ++
    "  --octal        -o  Octal output\n" ++
    "  --c-language   -c  Format output as a C language constant\n" ++
    "  --zero-pad     -0  Output leading zeroes\n" ++
    "  --raw          -r  Raw binary output\n" ++
    "  --processor #  -p  Select processor number (default 0)\n" ++
    "  --bitfield h:l -f  Output bits [h:l] only\n") [.str program]

structure Settings where
  mode : BitVec 32 := moHex
  cpu : Nat := 0
  highbit : BitVec 32 := 63
  lowbit : BitVec 32 := 0
  deriving DecidableEq

def Settings.setMode (s : Settings) (mo : BitVec 32) : Settings := { s with mode := (s.mode &&& ~~~moMask) ||| mo }

def option (host : Host) (program : List Char) (s : Settings) : Found → Except Outcome Settings
  | .option 'h' _ => .error { status := 0, stderr := usage program }
  | .option 'V' _ => .error { status := 0, stderr := format "%s: version %s\n" [.str program, .str versionString] }
  | .option 'x' _ => .ok (s.setMode moHex)
  | .option 'X' _ => .ok (s.setMode moChx)
  | .option 'o' _ => .ok (s.setMode moOct)
  | .option 'd' _ => .ok (s.setMode moDec)
  | .option 'r' _ => .ok (s.setMode moRaw)
  | .option 'u' _ => .ok (s.setMode moUns)
  | .option 'c' _ => .ok { s with mode := s.mode ||| moC }
  | .option '0' _ => .ok { s with mode := s.mode ||| moFill }
  | .option 'p' (some optarg) =>
    let (arg, endarg) := strtoul 0 optarg
    if endarg ≠ [] ∨ arg > 255 then .error { status := 127, stderr := usage program }
    else .ok { s with cpu := arg.toNat }
  | .option 'f' (some optarg) =>
    match sscanf "%u:%u".toList optarg with
    | [highbit, lowbit] =>
      if highbit > 63 ∨ lowbit > highbit then .error { status := 127, stderr := usage program }
      else .ok { s with highbit := highbit, lowbit := lowbit }
    | _ => .error { status := 127, stderr := usage program }
  | .unknown why => .error { status := 127, stderr := host.complains program why ++ usage program }
  | .option .. => .error { status := 127, stderr := usage program }

/-- `1ULL << n` -/
def bit (n : BitVec 32) : Option Word := if n < 64 then some ((1 : Word) <<< n.toNat) else none

/-- The bits `highbit` to `lowbit` of the register. -/
def field (highbit lowbit : BitVec 32) (data : Word) : Option Word :=
  let bits := highbit - lowbit + 1
  if bits < 64 then do
    guard (lowbit < 64)
    let top ← bit bits
    some ((data >>> lowbit.toNat) &&& (top - 1))
  else some data

/-- Make sure we get sign correct -/
def fixSign (bits : BitVec 32) (data : Word) : Option Word := do
  let top ← bit (bits - 1)
  some (if data &&& top ≠ 0 then -(data &&& ~~~top) else data)

/-- What the `switch` leaves for the last `printf`, and what it has printed itself. -/
structure Shown where
  pat : Option String
  width : BitVec 32 := 1
  data : Word
  printed : List Char := []

/-- All that is printed of the register. -/
def Shown.text (shown : Shown) : List Char :=
  let width := if BitVec.slt shown.width 1 then 1 else shown.width
  shown.printed ++ shown.pat.elim [] fun pat => format pat [.int width, .long shown.data]

def bytes (data : Word) : List (BitVec 8) := (List.range 8).map fun i => data.extractLsb' (8 * i) 8

def rawC (data : Word) : List Char :=
  (bytes data).zipIdx.flatMap (fun (p, i) =>
    format "%s0x%02x" [.str (if i ≠ 0 then [','] else ['\x7b']), .int (p.setWidth 32)]) ++ format "\x7d\n" []

/-- The `switch` over the mode; `some none` is its default. -/
def select (mode bits : BitVec 32) (data : Word) : Option (Option Shown) :=
  if mode = moHex then some (some { pat := "%*llx\n", data })
  else if mode = moChx then some (some { pat := "%*llX\n", data })
  else if mode = moDec ∨ mode = moDec ||| moC ∨ mode = moDec ||| moFill ||| moC then do
    let data ← fixSign bits data
    some (some { pat := "%*lld\n", data })
  else if mode = moUns then some (some { pat := "%*llu\n", data })
  else if mode = moOct then some (some { pat := "%*llo\n", data })
  else if mode = moHex ||| moC then some (some { pat := "0x%*llx\n", data })
  else if mode = moChx ||| moC then some (some { pat := "0x%*llX\n", data })
  else if mode = moOct ||| moC then some (some { pat := "0%*llo\n", data })
  else if mode = moUns ||| moC ∨ mode = moUns ||| moFill ||| moC then some (some { pat := "%*lluU\n", data })
  else if mode = moHex ||| moFill then some (some { pat := "%0*llx\n", width := (bits + 3) / 4, data })
  else if mode = moChx ||| moFill then some (some { pat := "%0*llX\n", width := (bits + 3) / 4, data })
  else if mode = moDec ||| moFill then do
    let data ← fixSign bits data
    let digits ← decdigits[(bits - 1).toNat]?
    some (some { pat := "%0*lld\n", width := digits + 1, data })
  else if mode = moUns ||| moFill then do
    let digits ← decdigits[bits.toNat]?
    some (some { pat := "%0*llu\n", width := digits, data })
  else if mode = moOct ||| moFill then some (some { pat := "%0*llo\n", width := (bits + 2) / 3, data })
  else if mode = moHex ||| moFill ||| moC then some (some { pat := "0x%0*llx\n", width := (bits + 3) / 4, data })
  else if mode = moChx ||| moFill ||| moC then some (some { pat := "0x%0*llX\n", width := (bits + 3) / 4, data })
  else if mode = moOct ||| moFill ||| moC then some (some { pat := "0%0*llo\n", width := (bits + 2) / 3, data })
  else if mode = moRaw ∨ mode = moRaw ||| moFill then
    some (some { pat := none, data, printed := (bytes data).map fun p => Char.ofNat p.toNat })
  else if mode = moRaw ||| moC ∨ mode = moRaw ||| moFill ||| moC then some (some { pat := none, data, printed := rawC data })
  else some none

/-- The part of `main` behind `close(fd)`; the default of the `switch` is at line 304. -/
def output (program : List Char) (s : Settings) (data : Word) : Option Outcome := do
  let debug := format "reg data: %lx\n" [.long data]
  let part ← field s.highbit s.lowbit data
  match ← select s.mode (s.highbit - s.lowbit + 1) part with
  | none =>
    some { status := 127, stdout := debug,
           stderr := format "%s: Impossible case, line %d\n" [.str program, .int 304] }
  | some shown => some { status := 0, stdout := debug ++ shown.text }

def preadFailed (cpu : Nat) (reg : BitVec 32) : Errno → Outcome
  | .eio => { status := 4, stderr := format "rdmsr: CPU %d cannot read MSR 0x%08x\n" [.int (.ofNat 32 cpu), .int reg] }
  | e => { status := 127, stderr := perror "rdmsr: pread" e }

/-- The part of `main` behind the options. -/
def read (host : Host) (msr : MsrFile) (program : List Char) (s : Settings) (regno : List Char) :
    Option Outcome :=
  let reg := (strtoul 0 regno).1.setWidth 32
  match host.opens s.cpu with
  | some e => some (openFailed "rdmsr" s.cpu e)
  | none =>
    match host.reads s.cpu reg with
    | some e => some (preadFailed s.cpu reg e)
    | none => output program s (msr s.cpu reg)

def main (host : Host) (msr : MsrFile) (program : List Char) (args : Arguments) : Option Outcome :=
  let (found, operands) := options.getopt none args
  match found.foldlM (option host program) {} with
  | .error outcome => some outcome
  | .ok s =>
    match operands with
    | [regno] => read host msr program s regno
    | _ => some { status := 127, stderr := usage program }

end Rdmsr

end PmcBench

open PmcBench.Rdmsr in
example : (main {} (fun _ _ => 0xfedc) "rdmsr".toList ["-0c".toList, "0x10".toList, "-f".toList, "15:8".toList]).map
  (fun o => String.ofList o.stdout) = some "reg data: fedc\n0xfe\n" := by decide +kernel
