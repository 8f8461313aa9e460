import PmcBench.CLib.Numbers

/-!
# Formatted output

`printf` with a least width, given in the format or as an argument, zero fill, and the
conversions of integers and strings. The format is read by a machine that is either
between directives or inside one.
-/

namespace CLib
open Words.Reading

/-- An argument after the default promotions. -/
inductive Arg where
  | int (v : BitVec 32)
  | long (v : BitVec 64)
  | str (s : List Char)

structure Directive where
  zero : Bool := false
  width : Nat := 0

/-- At least `width` characters: blanks in front, or zeros behind the sign. -/
def pad (d : Directive) (sign digits : List Char) : List Char :=
  let missing := d.width - (sign.length + digits.length)
  if d.zero then sign ++ (List.replicate missing '0' ++ digits) else List.replicate missing ' ' ++ (sign ++ digits)

def natConversion (c : Char) (n : Nat) : List Char :=
  match c with
  | 'x' => Nat.toDigits 16 n
  | 'X' => (Nat.toDigits 16 n).map Char.toUpper
  | 'o' => Nat.toDigits 8 n
  | _ => Nat.toDigits 10 n

def conversion (c : Char) : Arg → List Char × List Char
  | .int v => if c = 'd' then (if v.msb then ['-'] else [], Nat.toDigits 10 v.toInt.natAbs) else ([], natConversion c v.toNat)
  | .long v => if c = 'd' then (if v.msb then ['-'] else [], Nat.toDigits 10 v.toInt.natAbs) else ([], natConversion c v.toNat)
  | .str s => ([], s)

def Directive.print (d : Directive) (c : Char) (arg : Arg) : List Char :=
  pad d (conversion c arg).1 (conversion c arg).2

/-- `printf` for directives of the flag `0`, a width (a `*` takes an argument that is
not negative), the length `l` or `ll`, and one of `d u x X o s`. -/
def printf : List Char → Option Directive → List Arg → List Char
  | [], _, _ => []
  | c :: format, none, args => if c = '%' then printf format (some {}) args else c :: printf format none args
  | c :: format, some d, args =>
    if c = 'l' then printf format (some d) args
    else if c = '*' then
      match args with
      | .int w :: args => printf format (some { d with width := w.toNat }) args
      | _ => []
    else if c = '0' ∧ d.width = 0 then printf format (some { d with zero := true }) args
    else if c.isDigit then printf format (some { d with width := 10 * d.width + (c.toNat - '0'.toNat) }) args
    else
      match args with
      | arg :: args => d.print c arg ++ printf format none args
      | [] => []

def format (text : String) (args : List Arg) : List Char := printf text.toList none args

example : format "%s: 0x%08x, %*lld|%0*llX\n" [.str ['a'], .int 0x38F, .int 4, .long (-7), .int 5, .long 0xAB] =
    "a: 0x0000038f,   -7|000AB\n".toList := by decide

/-- A call of `printf`. -/
structure Printf where
  format : String
  args : List Arg

def Printf.text (call : Printf) : List Char := CLib.format call.format call.args

/-- What a sequence of calls prints. -/
def text (calls : List Printf) : List Char := calls.flatMap Printf.text

@[simp] theorem text_append (calls more : List Printf) : text (calls ++ more) = text calls ++ text more :=
  List.flatMap_append

@[simp] theorem text_cons (call : Printf) (calls : List Printf) : text (call :: calls) = call.text ++ text calls := rfl

@[simp] theorem text_nil : text [] = [] := rfl

/-- What precedes the first directive is printed as it is. -/
theorem printf_append {plain : List Char} (free : '%' ∉ plain) (format : List Char) (args : List Arg) :
    printf (plain ++ format) none args = plain ++ printf format none args := by
  induction plain with
  | nil => rfl
  | cons c plain ih =>
    obtain ⟨other, later⟩ := not_or.mp (mt List.mem_cons.mpr free)
    rw [List.cons_append, printf, if_neg (Ne.symm other), ih later, List.cons_append]

theorem printf_plain {plain : List Char} (free : '%' ∉ plain) (args : List Arg) : printf plain none args = plain := by
  have := printf_append free [] args
  rwa [List.append_nil, printf, List.append_nil] at this

theorem text_plain {format : String} (plain : '%' ∉ format.toList) : Printf.text ⟨format, []⟩ = format.toList :=
  printf_plain plain []

/-- A call that prints a label and then what `conversion` asks for. -/
theorem text_labelled {format label conversion : String} (shape : format = label ++ conversion)
    (plain : '%' ∉ label.toList) (args : List Arg) :
    Printf.text ⟨format, args⟩ = label.toList ++ printf conversion.toList none args := by
  rw [Printf.text, CLib.format, shape, String.toList_append, printf_append plain]

theorem literal_text {format : String} (plain : '%' ∉ format.toList) (rest : List Char) :
    literal format.toList (Printf.text ⟨format, []⟩ ++ rest) = some ((), rest) := by
  rw [text_plain plain]
  exact literal_append _ rest

/-! ### Widths -/

/-- A text that is as long as asked for is not padded. -/
theorem pad_full {d : Directive} {sign digits : List Char} (full : d.width ≤ sign.length + digits.length) :
    pad d sign digits = sign ++ digits := by
  unfold pad
  rw [Nat.sub_eq_zero_of_le full]
  split <;> rfl

/-- Without a width nothing is padded. -/
theorem Directive.print_plain (c : Char) (arg : Arg) :
    ({} : Directive).print c arg = (conversion c arg).1 ++ (conversion c arg).2 := pad_full (Nat.zero_le _)

/-- `%d` of an `int`. -/
theorem conversion_signed (v : BitVec 32) : (conversion 'd' (.int v)).1 ++ (conversion 'd' (.int v)).2 = signed v := by
  have value := BitVec.toInt_eq_msb_cond v
  rw [conversion, if_pos rfl, signed]
  cases sign : v.msb with
  | true =>
    have high := BitVec.msb_eq_true_iff_two_mul_ge.mp sign
    have bound := v.isLt
    have magnitude : v.toInt.natAbs = (-v).toNat := by
      rw [sign, if_pos rfl] at value
      rw [BitVec.toNat_neg, value]
      omega
    rw [if_pos rfl, if_pos rfl, magnitude]
    rfl
  | false =>
    rw [sign, if_neg (by decide)] at value
    rw [if_neg (by decide), if_neg (by decide), value, Int.natAbs_natCast]
    rfl

end CLib
