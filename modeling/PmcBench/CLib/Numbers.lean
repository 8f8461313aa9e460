import PmcBench.Words.Reading

/-!
# Numbers in text

`strtoul`, `atoi` and the conversion `%u` of `sscanf`, in the C locale and with 64-bit `long`:
blanks, a sign, a base mark, and digits up to the first other character. A number that
does not fit is the greatest one, and a sign negates in the arithmetic of the word.
-/

namespace CLib
open Words.Reading

abbrev ULong := BitVec 64

def isSpace (c : Char) : Bool := c = ' ' || ('\t' ≤ c && c ≤ '\r')

def digit (base : Nat) (c : Char) : Option Nat := digitValue base c.toLower

def isDigit (base : Nat) (c : Char) : Bool := (digit base c).isSome

def numeral (base : Nat) (digits : List Char) : Nat := ofDigits base (digits.map Char.toLower)

def sign : List Char → Bool × List Char
  | '-' :: s => (true, s)
  | '+' :: s => (false, s)
  | s => (false, s)

def toULong (negative : Bool) (n : Nat) : ULong :=
  if 2 ^ 64 ≤ n then .allOnes 64 else if negative then -.ofNat 64 n else .ofNat 64 n

/-- The digits at the front of `s`; without any, nothing of `unread` is read. -/
def convert (negative : Bool) (base : Nat) (s unread : List Char) : ULong × List Char :=
  let digits := s.takeWhile (isDigit base)
  if digits = [] then (0, unread) else (toULong negative (numeral base digits), s.dropWhile (isDigit base))

/-- The text from the `x` of `0x` on. -/
def hexMark : List Char → Option (List Char)
  | '0' :: 'x' :: s => some ('x' :: s)
  | '0' :: 'X' :: s => some ('X' :: s)
  | _ => none

/-- A number behind its blanks and its sign. Of `0x` without a digit the `0` is read. -/
def unsigned (base : Nat) (negative : Bool) (s unread : List Char) : ULong × List Char :=
  if base = 0 ∨ base = 16 then
    match hexMark s with
    | some mark => convert negative 16 mark.tail mark
    | none => convert negative (if base = 16 then 16 else if s.head? = some '0' then 8 else 10) s unread
  else convert negative base s unread

/-- The number, and the text `endptr` points to. -/
def strtoul (base : Nat) (s : List Char) : ULong × List Char :=
  let (negative, t) := sign (s.dropWhile isSpace)
  unsigned base negative t s

/-- The `long` of a number, the least or the greatest one where it does not fit. -/
def toLong (negative : Bool) (n : Nat) : BitVec 64 :=
  if negative then (if n ≤ 2 ^ 63 then -.ofNat 64 n else .intMin 64)
  else if n < 2 ^ 63 then .ofNat 64 n else .intMax 64

/-- `atoi`, which is `strtol` in base 10, converted to `int`. -/
def atoi (s : List Char) : BitVec 32 :=
  let (negative, t) := sign (s.dropWhile isSpace)
  (toLong negative (numeral 10 (t.takeWhile (isDigit 10)))).setWidth 32

/-- `%u` reads an `unsigned long` and stores its low half. -/
def scanUInt (s : List Char) : Option (BitVec 32 × List Char) :=
  let (negative, t) := sign (s.dropWhile isSpace)
  if t.takeWhile (isDigit 10) = [] then none
  else
    let (v, rest) := convert negative 10 t s
    some (v.setWidth 32, rest)

/-- What `sscanf` converts, for formats of `%u` and of characters that are no blanks. -/
def sscanf : (format text : List Char) → List (BitVec 32)
  | '%' :: 'u' :: format, text =>
    match scanUInt text with
    | some (v, rest) => v :: sscanf format rest
    | none => []
  | c :: format, d :: text => if c = d then sscanf format text else []
  | _, _ => []

example : strtoul 0 " -0x1fG".toList = (-0x1f, ['G']) := by decide
example : strtoul 0 "0xyz".toList = (0, "xyz".toList) := by decide
example : atoi " -2x".toList = -2 := by decide
example : sscanf "%u:%u".toList "4294967359: 4".toList = [63, 4] := by decide

/-! ### Digits -/

theorem toLower_digitChar {d : Nat} (bound : d < 16) : d.digitChar.toLower = d.digitChar := by
  interval_cases d <;> rfl

theorem toLower_toUpper_digitChar {d : Nat} (bound : d < 16) : d.digitChar.toUpper.toLower = d.digitChar := by
  interval_cases d <;> rfl

/-- A row of digits of either case, with the number it stands for. -/
structure Spells (base n : Nat) (digits : List Char) : Prop where
  some : digits ≠ []
  all : ∀ c ∈ digits, isDigit base c = true
  value : numeral base digits = n

section
variable {base n : Nat} {digits rest : List Char}

theorem Spells.of_lower (two : 1 < base) (small : base ≤ 16) (lower : digits.map Char.toLower = Nat.toDigits base n) :
    Spells base n digits := by
  refine ⟨?_, fun c member => ?_, ?_⟩
  · intro none
    rw [none] at lower
    exact Nat.toDigits_ne_nil lower.symm
  · apply digitValue_of_mem_toDigits two small (n := n)
    rw [← lower]
    exact List.mem_map_of_mem member
  · unfold numeral
    rw [lower, ofDigits_toDigits two small]

theorem isDigit_mono {base' : Nat} (le : base ≤ base') {c : Char} (here : isDigit base c = true) :
    isDigit base' c = true := by
  unfold isDigit digit digitValue at here ⊢
  cases found : (List.range 16).find? fun d => d.digitChar = c.toLower with
  | none => rw [found] at here; cases here
  | some d =>
    rw [found] at here
    by_cases bound : d < base
    · rw [Option.filter_some_pos (by simpa using Nat.lt_of_lt_of_le bound le)]
      rfl
    · rw [Option.filter_some_neg (by simpa using bound)] at here
      cases here

theorem mem_toDigits (two : 1 < base) {c : Char} (member : c ∈ Nat.toDigits base n) : ∃ d < base, c = d.digitChar := by
  revert c
  apply toDigits_induction two (P := fun _ digits => ∀ {c}, c ∈ digits → ∃ d < base, c = d.digitChar)
  · intro d bound c member
    exact ⟨d, bound, List.mem_singleton.mp member⟩
  · intro n d digits bound ih c member
    rcases List.mem_append.mp member with earlier | last
    · exact ih earlier
    · exact ⟨d, bound, List.mem_singleton.mp last⟩

theorem map_toDigits {f : Char → Char} (two : 1 < base) (same : ∀ d < base, f d.digitChar = d.digitChar) (n : Nat) :
    (Nat.toDigits base n).map f = Nat.toDigits base n := by
  apply toDigits_induction two (P := fun _ digits => digits.map f = digits)
  · intro d bound
    rw [List.map_singleton, same d bound]
  · intro n d digits bound ih
    rw [List.map_append, ih, List.map_singleton, same d bound]

theorem spells_toDigits (two : 1 < base) (small : base ≤ 16) (n : Nat) : Spells base n (Nat.toDigits base n) :=
  .of_lower two small (map_toDigits two (fun _ bound => toLower_digitChar (by omega)) n)

theorem spells_toUpper (two : 1 < base) (small : base ≤ 16) (n : Nat) :
    Spells base n ((Nat.toDigits base n).map Char.toUpper) := by
  apply Spells.of_lower two small
  rw [List.map_map]
  exact map_toDigits two (fun _ bound => toLower_toUpper_digitChar (by omega)) n

theorem Spells.zeros (two : 1 < base) (small : base ≤ 16) (spelled : Spells base n digits) (k : Nat) :
    Spells base n (List.replicate k '0' ++ digits) := by
  have zero : digitValue base '0' = .some 0 := digitValue_digitChar small (d := 0) (by omega)
  have lower : Char.toLower '0' = '0' := rfl
  refine ⟨?_, fun c member => ?_, ?_⟩
  · simp [spelled.some]
  · rcases List.mem_append.mp member with front | later
    · rw [List.eq_of_mem_replicate front, isDigit, digit, lower, zero]
      rfl
    · exact spelled.all c later
  · have value := spelled.value
    unfold numeral ofDigits at value ⊢
    rw [List.map_append, List.map_replicate, lower, List.foldl_append]
    have start : (List.replicate k '0').foldl (fun n c => base * n + (digitValue base c).getD 0) 0 = 0 := by
      induction k with
      | zero => rfl
      | succ k ih =>
        rw [List.replicate_succ, List.foldl_cons, zero]
        exact ih
    rw [start]
    exact value

/-- What comes after a number does not continue it. -/
def Stops (base : Nat) (rest : List Char) : Prop := ∀ c, rest.head? = .some c → isDigit base c = false

theorem takeWhile_spells (spelled : Spells base n digits) (stop : Stops base rest) :
    (digits ++ rest).takeWhile (isDigit base) = digits ∧ (digits ++ rest).dropWhile (isDigit base) = rest := by
  rw [List.takeWhile_append_of_pos spelled.all, List.dropWhile_append_of_pos spelled.all]
  cases rest with
  | nil => simp
  | cons c rest => simp [stop c rfl]

theorem convert_spells (spelled : Spells base n digits) (stop : Stops base rest) (negative : Bool) (unread : List Char) :
    convert negative base (digits ++ rest) unread = (toULong negative n, rest) := by
  obtain ⟨taken, dropped⟩ := takeWhile_spells spelled stop
  unfold convert
  simp only [taken, dropped]
  rw [if_neg spelled.some, spelled.value]

/-! ### What is read of printed numbers -/

theorem hexMark_none {c : Char} (lower : c ≠ 'x') (upper : c ≠ 'X') : hexMark ('0' :: c :: rest) = none := by
  unfold hexMark
  split
  · rename_i same
    exact (lower (List.cons.inj (List.cons.inj same).2).1).elim
  · rename_i same
    exact (upper (List.cons.inj (List.cons.inj same).2).1).elim
  · rfl

theorem unsigned_hex {x : Char} (mark : x = 'x' ∨ x = 'X') (spelled : Spells 16 n digits) (stop : Stops 16 rest)
    (negative : Bool) (unread : List Char) :
    unsigned 0 negative ('0' :: x :: (digits ++ rest)) unread = (toULong negative n, rest) := by
  unfold unsigned
  rcases mark with rfl | rfl <;> exact convert_spells spelled stop negative _

theorem unsigned_octal (spelled : Spells 8 n digits) (stop : Stops 8 rest) (negative : Bool) (unread : List Char) :
    unsigned 0 negative ('0' :: (digits ++ rest)) unread = (toULong negative n, rest) := by
  have unmarked : hexMark ('0' :: (digits ++ rest)) = none := by
    cases front : digits with
    | nil => exact (spelled.some front).elim
    | cons c digits =>
      have octal := spelled.all c (by rw [front]; exact List.mem_cons_self)
      exact hexMark_none (by rintro rfl; cases octal) (by rintro rfl; cases octal)
  unfold unsigned
  rw [unmarked]
  exact convert_spells (spelled.zeros (by decide) (by decide) 1) stop negative unread

theorem toDigits_head (two : 1 < base) (small : base ≤ 16) (positive : 0 < n) :
    ∃ c digits, Nat.toDigits base n = c :: digits ∧ c ≠ '0' := by
  induction n using Nat.strongRecOn with
  | ind n ih =>
    by_cases short : n < base
    · refine ⟨n.digitChar, [], Nat.toDigits_of_lt_base short, ?_⟩
      have least : n < 16 := by omega
      interval_cases n <;> decide
    · obtain ⟨c, digits, front, other⟩ := ih (n / base) (Nat.div_lt_self positive two) (Nat.div_pos (by omega) (by omega))
      refine ⟨c, digits ++ [(n % base).digitChar], ?_, other⟩
      rw [Nat.toDigits_of_base_le two (by omega), front]
      rfl

/-- A printed decimal number has no base mark, unless an `x` follows a zero. -/
theorem unsigned_decimal (stop : Stops 10 rest) (unmarked : hexMark ('0' :: rest) = none) (negative : Bool)
    (unread : List Char) :
    unsigned 0 negative (Nat.toDigits 10 n ++ rest) unread = (toULong negative n, rest) := by
  cases n with
  | zero =>
    have octal : Stops 8 rest := by
      intro c here
      have none := stop c here
      cases octal : isDigit 8 c with
      | false => rfl
      | true => rw [isDigit_mono (by decide) octal] at none; cases none
    unfold unsigned
    show (match hexMark ('0' :: rest) with
      | some mark => convert negative 16 mark.tail mark
      | none => convert negative 8 (['0'] ++ rest) unread) = _
    rw [unmarked]
    exact convert_spells (spells_toDigits (by decide) (by decide) 0) octal negative unread
  | succ n =>
    have spelled : Spells 10 (n + 1) (Nat.toDigits 10 (n + 1)) := spells_toDigits (by decide) (by decide) (n + 1)
    obtain ⟨c, digits, front, other⟩ := toDigits_head (show 1 < 10 by decide) (by decide) (Nat.succ_pos n)
    have none : hexMark (Nat.toDigits 10 (n + 1) ++ rest) = none := by
      rw [front]
      unfold hexMark
      split
      · rename_i same
        exact (other (List.cons.inj same).1).elim
      · rename_i same
        exact (other (List.cons.inj same).1).elim
      · rfl
    have head : (Nat.toDigits 10 (n + 1) ++ rest).head? ≠ some '0' := by
      rw [front]
      exact fun same => other (Option.some.inj same)
    unfold unsigned
    rw [none]
    show convert negative (if (Nat.toDigits 10 (n + 1) ++ rest).head? = some '0' then 8 else 10) _ _ = _
    rw [if_neg head]
    exact convert_spells spelled stop negative unread

theorem strtoul_digit {d : Nat} (bound : d < 10) (s : List Char) :
    strtoul 0 (d.digitChar :: s) = unsigned 0 false (d.digitChar :: s) (d.digitChar :: s) := by
  interval_cases d <;> rfl

theorem strtoul_hex {x : Char} (mark : x = 'x' ∨ x = 'X') (spelled : Spells 16 n digits) (stop : Stops 16 rest) :
    strtoul 0 ('0' :: x :: (digits ++ rest)) = (toULong false n, rest) :=
  (strtoul_digit (d := 0) (by decide) _).trans (unsigned_hex mark spelled stop false _)

theorem strtoul_octal (spelled : Spells 8 n digits) (stop : Stops 8 rest) :
    strtoul 0 ('0' :: (digits ++ rest)) = (toULong false n, rest) :=
  (strtoul_digit (d := 0) (by decide) _).trans (unsigned_octal spelled stop false _)

theorem strtoul_decimal (stop : Stops 10 rest) (unmarked : hexMark ('0' :: rest) = none) :
    strtoul 0 (Nat.toDigits 10 n ++ rest) = (toULong false n, rest) := by
  have read (unread : List Char) := unsigned_decimal (n := n) stop unmarked false unread
  cases front : Nat.toDigits 10 n with
  | nil => exact (Nat.toDigits_ne_nil front).elim
  | cons c digits =>
    obtain ⟨d, bound, rfl⟩ := mem_toDigits (show 1 < 10 by decide) (show c ∈ Nat.toDigits 10 n by rw [front]; simp)
    rw [List.cons_append, strtoul_digit bound, ← List.cons_append, ← front]
    exact read _

theorem strtoul_minus (stop : Stops 10 rest) (unmarked : hexMark ('0' :: rest) = none) :
    strtoul 0 ('-' :: (Nat.toDigits 10 n ++ rest)) = (toULong true n, rest) :=
  unsigned_decimal stop unmarked true ('-' :: (Nat.toDigits 10 n ++ rest))

theorem front_of_isDigit {c : Char} (here : isDigit 10 c = true) : isSpace c = false ∧ c ≠ '-' ∧ c ≠ '+' := by
  refine ⟨?_, ?_, ?_⟩
  · cases blank : isSpace c with
    | false => rfl
    | true =>
      have code : c = ' ' ∨ 9 ≤ c.toNat ∧ c.toNat ≤ 13 := by
        simp only [isSpace, Bool.or_eq_true, decide_eq_true_eq, Bool.and_eq_true, Char.le_def] at blank
        exact blank
      rcases code with rfl | ⟨low, high⟩
      · cases here
      · rw [← Char.ofNat_toNat c] at here
        generalize c.toNat = k at here low high
        interval_cases k <;> cases here
  · rintro rfl
    cases here
  · rintro rfl
    cases here

/-- A decimal number that fits a `long`, modulo the width of an `int`. -/
theorem atoi_spells (spelled : Spells 10 n digits) (stop : Stops 10 rest) (fits : n < 2 ^ 63) :
    atoi (digits ++ rest) = BitVec.ofNat 32 n := by
  have unsigned : sign ((digits ++ rest).dropWhile isSpace) = (false, digits ++ rest) := by
    cases digits with
    | nil => exact (spelled.some rfl).elim
    | cons c digits =>
      obtain ⟨solid, minus, plus⟩ := front_of_isDigit (spelled.all c List.mem_cons_self)
      rw [List.cons_append, List.dropWhile_cons_of_neg (by simp [solid])]
      unfold sign
      split
      · rename_i same
        exact (minus (List.cons.inj same).1).elim
      · rename_i same
        exact (plus (List.cons.inj same).1).elim
      · rfl
  unfold atoi
  rw [unsigned]
  simp only [(takeWhile_spells spelled stop).1, spelled.value, toLong, if_pos fits]
  apply BitVec.eq_of_toNat_eq
  simp

end

end CLib
