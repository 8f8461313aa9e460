import PmcBench.Rdmsr

/-!
# What rdmsr prints

A mode is a kind of number with two flags, which the tool packs into the bits of an
`int`. `Mode.render` says what a mode makes of a field; `output_render` shows that the
shifts, the `switch` and the table of widths do so for each mode and each field.
-/

namespace PmcBench.Rdmsr
open CLib
open Nat (toDigits)

inductive Kind where
  | hex | chx | dec | uns | oct | raw
  deriving DecidableEq

namespace Kind

def mo : Kind → BitVec 32
  | hex => moHex
  | chx => moChx
  | dec => moDec
  | uns => moUns
  | oct => moOct
  | raw => moRaw

def base : Kind → Nat
  | hex | chx => 16
  | oct => 8
  | dec | uns | raw => 10

def digits : Kind → Nat → List Char
  | chx, v => (toDigits 16 v).map Char.toUpper
  | k, v => toDigits k.base v

/-- The digits that a number of so many bits can need. -/
def width (k : Kind) (bits : Nat) : Nat := (k.digits (2 ^ bits - 1)).length

def zeros (k : Kind) (bits v : Nat) : List Char := List.replicate (k.width bits - (k.digits v).length) '0'

theorem two_le_base (k : Kind) : 1 < k.base := by cases k <;> decide

theorem base_le (k : Kind) : k.base ≤ 16 := by cases k <;> decide

theorem spells_digits (k : Kind) (v : Nat) : Spells k.base v (k.digits v) := by
  cases k with
  | chx => exact spells_toUpper (by decide) (by decide) v
  | _ => exact spells_toDigits (by decide) (by decide) v

theorem length_digits (k : Kind) (v : Nat) : (k.digits v).length = (toDigits k.base v).length := by
  cases k with
  | chx => exact List.length_map ..
  | _ => rfl

theorem length_digits_le {k : Kind} {bits v : Nat} (bound : v < 2 ^ bits) : (k.digits v).length ≤ k.width bits := by
  unfold width
  rw [length_digits, length_digits]
  have most := (Nat.length_toDigits_le_iff (n := 2 ^ bits - 1) k.two_le_base Nat.length_toDigits_pos).mp (Nat.le_refl _)
  exact (Nat.length_toDigits_le_iff k.two_le_base Nat.length_toDigits_pos).mpr (by omega)

/-- The number of digits, by the powers of the base around the number. -/
theorem width_eq {k : Kind} {bits d : Nat} (upper : 2 ^ bits - 1 < k.base ^ (d + 1))
    (lower : d = 0 ∨ k.base ^ d ≤ 2 ^ bits - 1) : k.width bits = d + 1 := by
  unfold width
  rw [length_digits]
  apply Nat.le_antisymm
  · exact (Nat.length_toDigits_le_iff k.two_le_base (by omega)).mpr upper
  · have some : 0 < (toDigits k.base (2 ^ bits - 1)).length := Nat.length_toDigits_pos
    rcases lower with rfl | lower
    · exact some
    · by_contra short
      by_cases none : d = 0
      · omega
      · have := (Nat.length_toDigits_le_iff k.two_le_base (by omega)).mp (show (toDigits k.base (2 ^ bits - 1)).length ≤ d by omega)
        omega

end Kind

structure Mode where
  kind : Kind := .hex
  fill : Bool := false
  c : Bool := false
  deriving DecidableEq

/-- The mode as the tool keeps it. -/
def Mode.word (m : Mode) : BitVec 32 := m.kind.mo ||| (if m.fill then moFill else 0) ||| (if m.c then moC else 0)

/-- What `-d` makes of a field: its highest bit is the sign, the others are the magnitude. -/
def signMagnitude (bits v : Nat) : Int := if v < 2 ^ (bits - 1) then v else -((v - 2 ^ (bits - 1) : Nat) : Int)

def minus (n : Int) : List Char := if n < 0 then ['-'] else []

/-- A number with its sign, with leading zeros for all numbers of `bits` bits if the mode
asks for them and no decimal constant of C. -/
def Mode.signed (m : Mode) (bits : Nat) (n : Int) : List Char :=
  let missing :=
    if m.fill ∧ m.c = false then m.kind.width (bits - 1) + 1 - ((minus n).length + (m.kind.digits n.natAbs).length) else 0
  minus n ++ (List.replicate missing '0' ++ m.kind.digits n.natAbs)

def Mode.text (m : Mode) (bits v : Nat) : List Char :=
  let zeros := if m.fill then m.kind.zeros bits v else []
  match m.kind, m.c with
  | .dec, _ => m.signed bits (signMagnitude bits v)
  | .hex, true | .chx, true => ['0', 'x'] ++ (zeros ++ m.kind.digits v)
  | .oct, true => ['0'] ++ (zeros ++ m.kind.digits v)
  | .uns, true => m.kind.digits v ++ ['U']
  | k, _ => zeros ++ k.digits v

def Mode.render (m : Mode) (bits v : Nat) : List Char :=
  match m.kind with
  | .raw => if m.c then rawC (.ofNat 64 v) else (bytes (.ofNat 64 v)).map fun p => Char.ofNat p.toNat
  | _ => m.text bits v ++ ['\n']

/-! ### Widths -/

theorem width_hex {bits : Nat} (some : 1 ≤ bits) (most : bits ≤ 64) : Kind.hex.width bits = (bits + 3) / 4 := by
  have table : ∀ bits ∈ List.range' 1 64, 2 ^ bits - 1 < 16 ^ ((bits + 3) / 4 - 1 + 1) ∧
      ((bits + 3) / 4 - 1 = 0 ∨ 16 ^ ((bits + 3) / 4 - 1) ≤ 2 ^ bits - 1) := by decide
  obtain ⟨upper, lower⟩ := table bits (by simp; omega)
  rw [Kind.width_eq (k := .hex) upper lower]
  omega

theorem width_oct {bits : Nat} (some : 1 ≤ bits) (most : bits ≤ 64) : Kind.oct.width bits = (bits + 2) / 3 := by
  have table : ∀ bits ∈ List.range' 1 64, 2 ^ bits - 1 < 8 ^ ((bits + 2) / 3 - 1 + 1) ∧
      ((bits + 2) / 3 - 1 = 0 ∨ 8 ^ ((bits + 2) / 3 - 1) ≤ 2 ^ bits - 1) := by decide
  obtain ⟨upper, lower⟩ := table bits (by simp; omega)
  rw [Kind.width_eq (k := .oct) upper lower]
  omega

/-- The table is right, and long enough. -/
theorem decdigits_eq {bits : Nat} (most : bits ≤ 64) : decdigits[bits]? = some (.ofNat 32 (Kind.dec.width bits)) ∧
    1 ≤ Kind.dec.width bits ∧ Kind.dec.width bits ≤ 20 := by
  have table : ∀ bits ∈ List.range 65, ∃ d < 20, decdigits[bits]? = some (.ofNat 32 (d + 1)) ∧
      2 ^ bits - 1 < 10 ^ (d + 1) ∧ (d = 0 ∨ 10 ^ d ≤ 2 ^ bits - 1) := by decide
  obtain ⟨d, bound, here, upper, lower⟩ := table bits (by simp; omega)
  rw [Kind.width_eq (k := .dec) upper lower]
  exact ⟨here, by omega, by omega⟩

/-! ### The switch -/

theorem pad_fill (width : Nat) (digits : List Char) :
    pad ⟨true, width⟩ [] digits = List.replicate (width - digits.length) '0' ++ digits := by
  simp [pad]

theorem pad_plain (sign : List Char) {width : Nat} {digits : List Char} (small : width ≤ 1) (some : digits ≠ []) :
    pad ⟨false, width⟩ sign digits = sign ++ digits := by
  apply pad_full
  have := List.length_pos_of_ne_nil some
  show width ≤ _
  omega

theorem clamp_of_pos {w : BitVec 32} (positive : 1 ≤ w.toNat) (small : w.toNat ≤ 64) :
    (if BitVec.slt w 1 then 1 else w) = w := by
  have slt : BitVec.slt w 1 = false := by
    rw [BitVec.slt_eq_decide]
    apply decide_eq_false
    rw [BitVec.toInt_eq_toNat_of_lt (by omega)]
    show ¬ ((w.toNat : Int) < 1)
    omega
  rw [slt]
  rfl

section
variable {bits : BitVec 32} {data : Word}

theorem bit_pred (some : 1 ≤ bits.toNat) (most : bits.toNat ≤ 64) :
    bit (bits - 1) = .some (.twoPow 64 (bits.toNat - 1)) := by
  have exact : (bits - 1).toNat = bits.toNat - 1 := by
    rw [BitVec.toNat_sub_of_le (by bv_omega)]
    rfl
  have small : bits - 1 < 64 := by
    rw [BitVec.lt_def, exact]
    show bits.toNat - 1 < 64
    omega
  unfold bit
  rw [if_pos small, exact]
  rfl

theorem split_top {k : Nat} (inside : k < 64) (fits : data.toNat < 2 ^ (k + 1)) :
    (data.getLsbD k = decide (2 ^ k ≤ data.toNat)) ∧ data &&& ~~~(.twoPow 64 k) = .ofNat 64 (data.toNat % 2 ^ k) := by
  constructor
  · have half : data.toNat / 2 ^ k < 2 := by
      apply Nat.div_lt_of_lt_mul
      rwa [Nat.pow_succ] at fits
    rw [BitVec.getLsbD, Nat.testBit_eq_decide_div_mod_eq, Nat.mod_eq_of_lt half]
    apply decide_eq_decide.mpr
    constructor
    · intro one
      by_contra short
      rw [Nat.div_eq_of_lt (by omega)] at one
      cases one
    · intro long
      have := Nat.div_pos long (Nat.two_pow_pos k)
      omega
  · apply BitVec.eq_of_getLsbD_eq
    intro i bound
    rw [BitVec.getLsbD_and, BitVec.getLsbD_not, BitVec.getLsbD_twoPow, BitVec.getLsbD_ofNat, Nat.testBit_mod_two_pow]
    have high (above : k < i) : data.getLsbD i = false :=
      Nat.testBit_lt_two_pow (Nat.lt_of_lt_of_le fits (Nat.pow_le_pow_right (by decide) above))
    rw [BitVec.getLsbD] at high ⊢
    rcases Nat.lt_trichotomy i k with below | rfl | above
    · simp [bound, below, show k ≠ i by omega]
    · simp [bound]
    · simp [high above]

/-- The number that is printed after the correction of the sign. -/
theorem fixSign_eq (some : 1 ≤ bits.toNat) (most : bits.toNat ≤ 64) (fits : data.toNat < 2 ^ bits.toNat) :
    ∃ v, fixSign bits data = .some v ∧ v.toInt = signMagnitude bits.toNat data.toNat := by
  have whole : bits.toNat = bits.toNat - 1 + 1 := by omega
  have inside : bits.toNat - 1 < 64 := by omega
  rw [whole] at fits
  obtain ⟨top, low⟩ := split_top inside fits
  have half : 2 ^ (bits.toNat - 1) ≤ 2 ^ 63 := Nat.pow_le_pow_right (by decide) (by omega)
  refine ⟨_, congrArg (Option.bind · _) (bit_pred some most), ?_⟩
  rw [low, BitVec.and_twoPow, top]
  unfold signMagnitude
  by_cases negative : 2 ^ (bits.toNat - 1) ≤ data.toNat
  · have set : BitVec.twoPow 64 (bits.toNat - 1) ≠ 0 := by
      intro none
      have value := congrArg (BitVec.getLsbD · (bits.toNat - 1)) none
      simp [inside] at value
    rw [if_pos (decide_eq_true negative), if_pos set, if_neg (by omega)]
    have rest : data.toNat % 2 ^ (bits.toNat - 1) = data.toNat - 2 ^ (bits.toNat - 1) := by
      rw [Nat.mod_eq_sub_mod negative, Nat.mod_eq_of_lt (by rw [Nat.pow_succ] at fits; omega)]
    rw [rest]
    have least : data.toNat - 2 ^ (bits.toNat - 1) < 2 ^ 63 := by rw [Nat.pow_succ] at fits; omega
    generalize data.toNat - 2 ^ (bits.toNat - 1) = r at least
    have value : (BitVec.ofNat 64 r).toNat = r := (BitVec.toNat_ofNat ..).trans (Nat.mod_eq_of_lt (by omega))
    rw [BitVec.toInt_neg, BitVec.toInt_eq_toNat_of_lt (by omega), value]
    exact Int.bmod_eq_of_le (by omega) (by omega)
  · have clear : (if decide (2 ^ (bits.toNat - 1) ≤ data.toNat) = true then BitVec.twoPow 64 (bits.toNat - 1) else 0#64) =
        0 := if_neg (by simpa using negative)
    rw [clear, if_neg (fun differs => differs rfl), if_pos (by omega)]
    exact BitVec.toInt_eq_toNat_of_lt (by omega)

theorem zeros_eq {k : Kind} {w : BitVec 32} {bits : Nat} (exact : w.toNat = k.width bits) (some : 1 ≤ k.width bits)
    (small : k.width bits ≤ 64) (v : Nat) :
    pad ⟨true, (if BitVec.slt w 1 then 1 else w).toNat⟩ [] (k.digits v) = k.zeros bits v ++ k.digits v := by
  rw [clamp_of_pos (by omega) (by omega), exact]
  exact pad_fill ..

theorem text_dec {v : Word} (pat : String) (width : BitVec 32) (d : Directive)
    (print : ∀ w : BitVec 32, format pat [.int w, .long v] =
      pad { d with width := w.toNat } (if v.msb then ['-'] else []) (toDigits 10 v.toInt.natAbs) ++ ['\n']) :
    Shown.text { pat := .some pat, width := width, data := v } =
      pad { d with width := (if BitVec.slt width 1 then 1 else width).toNat } (minus v.toInt)
        (toDigits 10 v.toInt.natAbs) ++ ['\n'] := by
  have sign : (if v.msb then ['-'] else []) = minus v.toInt := by
    rw [BitVec.msb_eq_toInt, minus]
    by_cases negative : v.toInt < 0 <;> simp [negative]
  rw [← sign]
  exact print _

theorem select_uns (most : bits.toNat ≤ 64) (fill c : Bool) :
    ∃ shown, select (Mode.word ⟨.uns, fill, c⟩) bits data = .some (.some shown) ∧
      shown.text = Mode.render ⟨.uns, fill, c⟩ bits.toNat data.toNat := by
  have plain := pad_plain [] (Nat.le_refl 1) (Kind.uns.spells_digits data.toNat).some
  obtain ⟨digits, one, twenty⟩ := decdigits_eq most
  have same : Kind.uns.width bits.toNat = Kind.dec.width bits.toNat := rfl
  cases fill <;> cases c
  · exact ⟨_, rfl, congrArg (· ++ ['\n']) plain⟩
  · exact ⟨_, rfl, by rw [Mode.render, Mode.text, List.append_assoc]; exact congrArg (· ++ ['U', '\n']) plain⟩
  · refine ⟨_, congrArg (Option.bind · _) digits, ?_⟩
    have exact : (BitVec.ofNat 32 (Kind.dec.width bits.toNat)).toNat = Kind.uns.width bits.toNat := by
      rw [BitVec.toNat_ofNat, same]
      omega
    have filled := zeros_eq exact one (by omega) data.toNat
    exact congrArg (· ++ ['\n']) filled
  · exact ⟨_, rfl, by rw [Mode.render, Mode.text, List.append_assoc]; exact congrArg (· ++ ['U', '\n']) plain⟩

/-- The width of a filled signed number is that of the bits below the sign, and one. -/
theorem select_dec (some : 1 ≤ bits.toNat) (most : bits.toNat ≤ 64) (fits : data.toNat < 2 ^ bits.toNat) (fill c : Bool) :
    ∃ shown, select (Mode.word ⟨.dec, fill, c⟩) bits data = .some (.some shown) ∧
      shown.text = Mode.render ⟨.dec, fill, c⟩ bits.toNat data.toNat := by
  obtain ⟨v, corrected, value⟩ := fixSign_eq some most fits
  have short := pad_plain (minus v.toInt) (Nat.le_refl 1) (Kind.dec.spells_digits v.toInt.natAbs).some
  have unfilled : Shown.text { pat := .some "%*lld\n", data := v } =
      minus v.toInt ++ Kind.dec.digits v.toInt.natAbs ++ ['\n'] :=
    (text_dec "%*lld\n" 1 {} fun _ => rfl).trans (congrArg (· ++ ['\n']) short)
  rw [value] at unfilled
  cases fill <;> cases c
  · exact ⟨_, congrArg (Option.bind · _) corrected, unfilled⟩
  · exact ⟨_, congrArg (Option.bind · _) corrected, unfilled⟩
  · have exact : (bits - 1).toNat = bits.toNat - 1 := BitVec.toNat_sub_of_le (by bv_omega)
    obtain ⟨digits, one, twenty⟩ := decdigits_eq (show bits.toNat - 1 ≤ 64 by omega)
    rw [← exact] at digits
    refine ⟨{ pat := "%0*lld\n", width := .ofNat 32 (Kind.dec.width (bits - 1).toNat) + 1, data := v }, ?_, ?_⟩
    · show (fixSign bits data).bind _ = _
      rw [corrected]
      exact congrArg (Option.bind · _) digits
    · have wide : (BitVec.ofNat 32 (Kind.dec.width (bits - 1).toNat) + 1).toNat = Kind.dec.width (bits - 1).toNat + 1 := by
        rw [BitVec.toNat_add, BitVec.toNat_ofNat, exact]
        show (_ + 1) % _ = _
        omega
      refine (text_dec "%0*lld\n" _ { zero := true } fun _ => rfl).trans ?_
      rw [clamp_of_pos (by omega) (by rw [wide, exact]; omega), wide, value, exact]
      rfl
  · exact ⟨_, congrArg (Option.bind · _) corrected, unfilled⟩

theorem select_raw (fill c : Bool) :
    ∃ shown, select (Mode.word ⟨.raw, fill, c⟩) bits data = .some (.some shown) ∧
      shown.text = Mode.render ⟨.raw, fill, c⟩ bits.toNat data.toNat := by
  have whole : BitVec.ofNat 64 data.toNat = data := by simp
  have plain : (bytes data).map (fun p => Char.ofNat p.toNat) ++ [] =
      (bytes (.ofNat 64 data.toNat)).map fun p => Char.ofNat p.toNat := by
    rw [whole, List.append_nil]
  have listed : rawC data ++ [] = rawC (.ofNat 64 data.toNat) := by
    rw [whole, List.append_nil]
  cases c with
  | false => cases fill <;> exact ⟨_, rfl, plain⟩
  | true => cases fill <;> exact ⟨_, rfl, listed⟩

/-- The `switch` prints what the mode says. -/
theorem select_render (m : Mode) (some : 1 ≤ bits.toNat) (most : bits.toNat ≤ 64) (fits : data.toNat < 2 ^ bits.toNat) :
    ∃ shown, select m.word bits data = .some (.some shown) ∧ shown.text = m.render bits.toNat data.toNat := by
  have quarter : ((bits + 3) / 4).toNat = Kind.hex.width bits.toNat := by
    rw [width_hex some most, BitVec.toNat_udiv, BitVec.toNat_add, Nat.mod_eq_of_lt (by simp; omega)]
    rfl
  have third : ((bits + 2) / 3).toNat = Kind.oct.width bits.toNat := by
    rw [width_oct some most, BitVec.toNat_udiv, BitVec.toNat_add, Nat.mod_eq_of_lt (by simp; omega)]
    rfl
  have fours := width_hex some most
  have threes := width_oct some most
  have capital : Kind.chx.width bits.toNat = Kind.hex.width bits.toNat := List.length_map ..
  have plain (k : Kind) := pad_plain [] (Nat.le_refl 1) (k.spells_digits data.toNat).some
  obtain ⟨kind, fill, c⟩ := m
  cases kind with
  | hex =>
    have filled := zeros_eq (k := .hex) quarter (by omega) (by omega) data.toNat
    cases fill <;> cases c
    · exact ⟨_, rfl, congrArg (· ++ ['\n']) (plain .hex)⟩
    · exact ⟨_, rfl, congrArg (fun s => '0' :: 'x' :: (s ++ ['\n'])) (plain .hex)⟩
    · exact ⟨_, rfl, congrArg (· ++ ['\n']) filled⟩
    · exact ⟨_, rfl, congrArg (fun s => '0' :: 'x' :: (s ++ ['\n'])) filled⟩
  | chx =>
    have filled := zeros_eq (k := .chx) (quarter.trans capital.symm) (by omega) (by omega) data.toNat
    cases fill <;> cases c
    · exact ⟨_, rfl, congrArg (· ++ ['\n']) (plain .chx)⟩
    · exact ⟨_, rfl, congrArg (fun s => '0' :: 'x' :: (s ++ ['\n'])) (plain .chx)⟩
    · exact ⟨_, rfl, congrArg (· ++ ['\n']) filled⟩
    · exact ⟨_, rfl, congrArg (fun s => '0' :: 'x' :: (s ++ ['\n'])) filled⟩
  | oct =>
    have filled := zeros_eq (k := .oct) third (by omega) (by omega) data.toNat
    cases fill <;> cases c
    · exact ⟨_, rfl, congrArg (· ++ ['\n']) (plain .oct)⟩
    · exact ⟨_, rfl, congrArg (fun s => '0' :: (s ++ ['\n'])) (plain .oct)⟩
    · exact ⟨_, rfl, congrArg (· ++ ['\n']) filled⟩
    · exact ⟨_, rfl, congrArg (fun s => '0' :: (s ++ ['\n'])) filled⟩
  | uns => exact select_uns most fill c
  | dec => exact select_dec some most fits fill c
  | raw => exact select_raw fill c

end

/-! ### The field -/

def part (low bits v : Nat) : Nat := v / 2 ^ low % 2 ^ bits

theorem part_lt (low bits v : Nat) : part low bits v < 2 ^ bits := Nat.mod_lt _ (Nat.two_pow_pos bits)

section
variable {highbit lowbit : BitVec 32}

theorem bits_toNat (order : lowbit ≤ highbit) (high : highbit ≤ 63) :
    (highbit - lowbit + 1).toNat = highbit.toNat - lowbit.toNat + 1 := by
  rw [BitVec.toNat_add, BitVec.toNat_sub_of_le order]
  have bound : highbit.toNat ≤ 63 := high
  show (_ + 1) % _ = _
  omega

theorem field_part (order : lowbit ≤ highbit) (high : highbit ≤ 63) (data : Word) : ∃ v,
    field highbit lowbit data = some v ∧ v.toNat = part lowbit.toNat (highbit - lowbit + 1).toNat data.toNat := by
  have bits := bits_toNat order high
  have bound : highbit.toNat ≤ 63 := high
  have below : lowbit.toNat ≤ highbit.toNat := order
  unfold field
  by_cases short : highbit - lowbit + 1 < 64
  · have small : (highbit - lowbit + 1).toNat < 64 := short
    have low : lowbit < 64 := by
      rw [BitVec.lt_def]
      show lowbit.toNat < 64
      omega
    simp only [if_pos short, bit, guard, if_pos low]
    refine ⟨_, rfl, ?_⟩
    have mask : ((1 : Word) <<< (highbit - lowbit + 1).toNat - 1).toNat = 2 ^ (highbit - lowbit + 1).toNat - 1 := by
      have le : (2 : Nat) ^ (highbit - lowbit + 1).toNat ≤ 2 ^ 63 := Nat.pow_le_pow_right (by decide) (by omega)
      have one := Nat.two_pow_pos (highbit - lowbit + 1).toNat
      have top : ((1 : Word) <<< (highbit - lowbit + 1).toNat).toNat = 2 ^ (highbit - lowbit + 1).toNat := by
        rw [BitVec.toNat_shiftLeft, Nat.shiftLeft_eq]
        show 1 * _ % _ = _
        rw [Nat.one_mul, Nat.mod_eq_of_lt (by omega)]
      rw [BitVec.toNat_sub_of_le (by rw [BitVec.le_def, top]; exact one), top]
      rfl
    rw [BitVec.toNat_and, mask, BitVec.toNat_ushiftRight, Nat.and_two_pow_sub_one_eq_mod, Nat.shiftRight_eq_div_pow]
    rfl
  · have long : ¬ (highbit - lowbit + 1).toNat < 64 := short
    have zero : lowbit.toNat = 0 := by omega
    have all : (highbit - lowbit + 1).toNat = 64 := by omega
    refine ⟨data, if_neg short, ?_⟩
    unfold part
    rw [zero, all, Nat.pow_zero, Nat.div_one, Nat.mod_eq_of_lt data.isLt]

end

/-- The line for debugging that precedes the field. -/
def debugLine (data : Word) : List Char := "reg data: ".toList ++ toDigits 16 data.toNat ++ ['\n']

theorem format_debug (data : Word) : format "reg data: %lx\n" [.long data] = debugLine data := by
  show "reg data: ".toList ++ (pad {} [] (toDigits 16 data.toNat) ++ ['\n']) = _
  rw [pad_full (Nat.zero_le _)]
  exact (List.append_assoc ..).symm

/-- The output in a mode is the line for debugging and the rendered field. -/
theorem output_render {s : Settings} {m : Mode} (mode : s.mode = m.word) (order : s.lowbit ≤ s.highbit)
    (high : s.highbit ≤ 63) (program : List Char) (data : Word) : output program s data = some
      { status := 0, stdout := debugLine data ++ m.render (s.highbit.toNat - s.lowbit.toNat + 1)
          (part s.lowbit.toNat (s.highbit.toNat - s.lowbit.toNat + 1) data.toNat) } := by
  obtain ⟨v, here, value⟩ := field_part order high data
  have bits := bits_toNat order high
  have bound : s.highbit.toNat ≤ 63 := high
  obtain ⟨shown, selected, text⟩ := select_render m (show 1 ≤ (s.highbit - s.lowbit + 1).toNat by omega) (by omega)
    (show v.toNat < _ by rw [value]; exact part_lt ..)
  rw [value, bits] at text
  unfold output
  rw [here]
  show (select s.mode (s.highbit - s.lowbit + 1) v).bind _ = _
  rw [mode, selected]
  show some ({ status := 0, stdout := format "reg data: %lx\n" [.long data] ++ shown.text } : Outcome) = _
  rw [text, format_debug]

end PmcBench.Rdmsr
