import Mathlib.Data.Nat.Digits.Lemmas
import PmcBench.CacheParams

/-!
# The main of cpuid.c

With arguments, `main` dumps the four registers that CPUID returns for them, each in
binary with the lowest bit first. `main_readBack` reads the dump back.
-/

namespace PmcBench.Cpuid
open Words.Reading CLib

/-! ### The code -/

/-- The array `binaryNum` and what has been printed. -/
structure Console where
  binaryNum : Nat → Bool
  text : List Char

def Console.print (s : Console) (text : List Char) : Console := { s with text := s.text ++ text }

/-- The loop of `decToBinary` from index `i` on, where `room` elements of `binaryNum` are
left. None is the write behind the array. -/
def decLoop (n : BitVec 32) (i : Nat) (s : Console) : Nat → Option Console
  | 0 => if n > 0 then none else some s
  | room + 1 =>
    if n > 0 then
      let bit := decide (n % 2 ≠ 0)
      decLoop (n / 2) (i + 1) ⟨Function.update s.binaryNum i bit, s.text ++ [if bit then '1' else '0']⟩ room
    else some s

def decToBinary (n : BitVec 32) (s : Console) : Option Console := do
  let s ← decLoop n 0 s 128
  pure (s.print ['\n'])

def dump (cpuid : BitVec 32 → BitVec 32 → CPUID) (eax ecx : BitVec 32) (s : Console) : Option Console := do
  let s := s.print ("EAX input value: ".toList ++ Nat.toDigits 10 eax.toNat ++ ['\n'])
  let cpuID := cpuid eax ecx
  let s ← decToBinary cpuID.EAX (s.print "EAX: \n".toList)
  let s ← decToBinary cpuID.EBX (s.print "EBX: \n".toList)
  let s ← decToBinary cpuID.ECX (s.print "ECX: \n".toList)
  decToBinary cpuID.EDX (s.print "EDX: \n".toList)

/-- `main`, where `brand` is what `getCpuID` prints. Without arguments it reports the
caches, of which there are fewer than `fuel`. -/
def main (cpuid : BitVec 32 → BitVec 32 → CPUID) (brand : List Char) (fuel : Nat) (s : Console) :
    (argv : List (List Char)) → Option Console
  | _ :: eax :: more => dump cpuid (atoi eax) (more.head?.elim 0 atoi) s
  | _ => do
    let caches ← getCacheParams (fun index => cpuid 4 (BitVec.ofNat 32 index)) fuel 0
    pure (s.print (brand ++ (Printf.text ⟨"CACHE INFO:\n\n", []⟩ ++ text caches)))

/-! ### The dump of a register -/

/-- The bits of a number, the lowest first and up to the highest that is 1. -/
def bits (n : Nat) : List Char := (Nat.digits 2 n).map Nat.digitChar

theorem bits_pos {n : Nat} (positive : 0 < n) : bits n = (if n % 2 ≠ 0 then '1' else '0') :: bits (n / 2) := by
  rw [bits, Nat.digits_def' (by decide) positive, List.map_cons]
  rcases Nat.mod_two_eq_zero_or_one n with even | odd
  · rw [even]
    rfl
  · rw [odd]
    rfl

/-- As long as there is room for its bits, a number is printed. -/
theorem decLoop_text {room : Nat} {n : BitVec 32} (small : n.toNat < 2 ^ room) (i : Nat) (s : Console) :
    ∃ binaryNum, decLoop n i s room = some ⟨binaryNum, s.text ++ bits n.toNat⟩ := by
  induction room generalizing n i s with
  | zero =>
    have zero : n = 0 := BitVec.eq_of_toNat_eq (by simpa using small)
    subst zero
    exact ⟨s.binaryNum, by simp [decLoop, bits]⟩
  | succ room ih =>
    unfold decLoop
    by_cases more : n > 0
    · have positive : 0 < n.toNat := BitVec.lt_def.mp more
      have half : (n / 2).toNat = n.toNat / 2 := BitVec.toNat_udiv
      have bit : n % 2 ≠ 0 ↔ n.toNat % 2 ≠ 0 := by
        rw [← BitVec.toNat_inj.ne, BitVec.toNat_umod]
        rfl
      rw [if_pos more]
      obtain ⟨binaryNum, rest⟩ := ih (n := n / 2) (by rw [half]; omega) (i + 1)
        ⟨Function.update s.binaryNum i (decide (n % 2 ≠ 0)), s.text ++ [if decide (n % 2 ≠ 0) then '1' else '0']⟩
      refine ⟨binaryNum, rest.trans ?_⟩
      rw [half, bits_pos positive]
      simp only [decide_eq_true_eq, bit, List.append_assoc, List.cons_append, List.nil_append]
    · have zero : n.toNat = 0 := by
        have := mt BitVec.lt_def.mpr more
        simpa using this
      exact ⟨s.binaryNum, by rw [if_neg more, zero]; simp [bits]⟩

/-- The 128 elements of `binaryNum` are enough. -/
theorem decToBinary_text (n : BitVec 32) (s : Console) :
    ∃ binaryNum, decToBinary n s = some ⟨binaryNum, s.text ++ (bits n.toNat ++ ['\n'])⟩ := by
  have small : n.toNat < 2 ^ 128 := Nat.lt_trans n.isLt (by decide)
  obtain ⟨binaryNum, loop⟩ := decLoop_text small 0 s
  refine ⟨binaryNum, ?_⟩
  rw [decToBinary, loop]
  simp [Console.print]

/-! ### Reading the dump -/

def readBits : Reader (BitVec 32) := fun text =>
  let digits := text.takeWhile fun c => (digitValue 2 c).isSome
  some (BitVec.ofNat 32 (Nat.ofDigits 2 (digits.map fun c => (digitValue 2 c).getD 0)),
    text.dropWhile fun c => (digitValue 2 c).isSome)

def readRegister (name : String) : Reader (BitVec 32) := do
  literal name.toList
  let value ← readBits
  literal ['\n']
  pure value

def readDump : Reader (BitVec 32 × CPUID) := do
  literal "EAX input value: ".toList
  let eax ← number 10
  literal ['\n']
  let EAX ← readRegister "EAX: \n"
  let EBX ← readRegister "EBX: \n"
  let ECX ← readRegister "ECX: \n"
  let EDX ← readRegister "EDX: \n"
  pure (BitVec.ofNat 32 eax, ⟨EAX, EBX, ECX, EDX⟩)

theorem readBits_bits (v : BitVec 32) (rest : List Char) :
    readBits (bits v.toNat ++ '\n' :: rest) = some (v, '\n' :: rest) := by
  have digit {d : Nat} (member : d ∈ Nat.digits 2 v.toNat) : digitValue 2 d.digitChar = some d :=
    digitValue_digitChar (by decide) (Nat.digits_lt_base (by decide) member)
  have all : ∀ c ∈ bits v.toNat, (digitValue 2 c).isSome = true := by
    intro c member
    obtain ⟨d, inside, rfl⟩ := List.mem_map.mp member
    rw [digit inside]
    rfl
  have stop : digitValue 2 '\n' = none := digitValue_none 2 (by decide)
  have value : (bits v.toNat).map (fun c => (digitValue 2 c).getD 0) = Nat.digits 2 v.toNat := by
    have same (d : Nat) (member : d ∈ Nat.digits 2 v.toNat) :
        ((fun c => (digitValue 2 c).getD 0) ∘ Nat.digitChar) d = id d := by
      rw [Function.comp_apply, digit member]
      rfl
    rw [bits, List.map_map, List.map_congr_left same, List.map_id]
  unfold readBits
  simp only [List.takeWhile_append_of_pos all, List.dropWhile_append_of_pos all]
  simp [stop, value, Nat.ofDigits_digits]

def registerText (name : String) (v : BitVec 32) (rest : List Char) : List Char :=
  name.toList ++ (bits v.toNat ++ '\n' :: rest)

theorem readRegister_text (name : String) (v : BitVec 32) (rest : List Char) :
    readRegister name (registerText name v rest) = some (v, rest) := by
  unfold readRegister registerText
  rw [bind_some (literal_append _ _), bind_some (readBits_bits v rest), bind_some (literal_cons '\n' rest)]
  rfl

def dumpText (eax : BitVec 32) (regs : CPUID) : List Char :=
  "EAX input value: ".toList ++ (Nat.toDigits 10 eax.toNat ++ '\n' :: registerText "EAX: \n" regs.EAX
    (registerText "EBX: \n" regs.EBX (registerText "ECX: \n" regs.ECX (registerText "EDX: \n" regs.EDX []))))

theorem dump_text (cpuid : BitVec 32 → BitVec 32 → CPUID) (eax ecx : BitVec 32) (s : Console) :
    ∃ binaryNum, dump cpuid eax ecx s = some ⟨binaryNum, s.text ++ dumpText eax (cpuid eax ecx)⟩ := by
  have last (name : String) (v : BitVec 32) (s : Console) : ∃ binaryNum,
      decToBinary v (s.print name.toList) = some ⟨binaryNum, s.text ++ registerText name v []⟩ := by
    obtain ⟨binaryNum, printed⟩ := decToBinary_text v (s.print name.toList)
    exact ⟨binaryNum, by rw [printed, Console.print, registerText, List.append_assoc]⟩
  have register {name : String} {v : BitVec 32} {s : Console} {next : Console → Option Console} {text : List Char}
      (rest : ∀ b, ∃ b', next ⟨b, s.text ++ registerText name v []⟩ = some ⟨b', text⟩) :
      ∃ b', (decToBinary v (s.print name.toList) >>= next) = some ⟨b', text⟩ := by
    obtain ⟨b, printed⟩ := last name v s
    obtain ⟨b', later⟩ := rest b
    exact ⟨b', by rw [printed, Option.bind_eq_bind, Option.bind_some, later]⟩
  unfold dump
  apply register
  intro b
  apply register
  intro b
  apply register
  intro b
  obtain ⟨b', printed⟩ := last "EDX: \n" (cpuid eax ecx).EDX ⟨b, _⟩
  refine ⟨b', printed.trans ?_⟩
  have line (digits rest : List Char) : digits ++ ['\n'] ++ rest = digits ++ '\n' :: rest := List.append_assoc ..
  have joined (name : String) (v : BitVec 32) (rest : List Char) :
      registerText name v [] ++ rest = registerText name v rest := by
    rw [registerText, registerText, List.append_assoc, line]
  unfold Console.print dumpText
  rw [List.append_assoc, joined, List.append_assoc, joined, List.append_assoc, joined, List.append_assoc, line,
    List.append_assoc]

theorem readDump_text (eax : BitVec 32) (regs : CPUID) : readDump (dumpText eax regs) = some ((eax, regs), []) := by
  have stop : digitValue 10 '\n' = none := digitValue_none 10 (by decide)
  unfold readDump dumpText
  rw [bind_some (literal_append _ _), bind_some (number_toDigits (by decide) (by decide) eax.toNat stop _),
    bind_some (literal_cons _ _), bind_some (readRegister_text _ _ _), bind_some (readRegister_text _ _ _),
    bind_some (readRegister_text _ _ _), bind_some (readRegister_text _ _ _), BitVec.ofNat_toNat, BitVec.setWidth_eq]
  rfl

/-- Whatever the arguments are, the dump gives back the EAX input and the registers that the
processor returned for the two inputs. A decimal number is taken at its value. -/
theorem main_readBack (cpuid : BitVec 32 → BitVec 32 → CPUID) (brand : List Char) (fuel : Nat) (binaryNum : Nat → Bool)
    (program eax : List Char) (more : List (List Char)) :
    (∃ s, main cpuid brand fuel ⟨binaryNum, []⟩ (program :: eax :: more) = some s ∧ readDump s.text =
      some ((atoi eax, cpuid (atoi eax) (more.head?.elim 0 atoi)), [])) ∧
    ∀ n < 2 ^ 63, Spells 10 n eax → atoi eax = BitVec.ofNat 32 n := by
  constructor
  · obtain ⟨binaryNum, printed⟩ := dump_text cpuid (atoi eax) (more.head?.elim 0 atoi) ⟨binaryNum, []⟩
    exact ⟨_, printed, readDump_text _ _⟩
  · intro n fits spelled
    have read : atoi (eax ++ []) = BitVec.ofNat 32 n := atoi_spells spelled (by rintro c ⟨⟩) fits
    rwa [List.append_nil] at read

end PmcBench.Cpuid
