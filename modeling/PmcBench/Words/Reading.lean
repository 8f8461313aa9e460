import Mathlib.Data.List.TakeWhile
import Mathlib.Tactic.IntervalCases

/-!
# Reading formatted text

Readers that take from the front of a text what was printed: a fixed text, or a
number in a base up to 16. A reader gives back what it read and the rest of the
text.
-/

namespace Words.Reading

abbrev Reader (α : Type) := StateT (List Char) Option α

theorem bind_some {α β : Type} {reader : Reader α} {next : α → Reader β} {text rest : List Char} {a : α}
    (read : reader text = some (a, rest)) : (reader >>= next) text = next a rest := by
  show Option.bind (reader text) _ = _
  rw [read]
  rfl

theorem bind_none {α β : Type} {reader : Reader α} {next : α → Reader β} {text : List Char}
    (failed : reader text = none) : (reader >>= next) text = none := by
  show Option.bind (reader text) _ = _
  rw [failed]
  rfl

theorem mapM_cons_some {α β : Type} {reader : α → Reader β} {a : α} {as : List α} {b : β} {bs : List β}
    {text between rest : List Char} (first : reader a text = some (b, between))
    (others : as.mapM reader between = some (bs, rest)) : (a :: as).mapM reader text = some (b :: bs, rest) := by
  rw [List.mapM_cons, bind_some first, bind_some others]
  rfl

/-- The fixed text `expected`. -/
def literal (expected : List Char) : Reader Unit := fun text =>
  if expected <+: text then some ((), text.drop expected.length) else none

/-- Reads with the first reader that does not fail. -/
def either {α : Type} (first second : Reader α) : Reader α := fun text => (first text).or (second text)

def digitValue (base : Nat) (c : Char) : Option Nat :=
  ((List.range 16).find? fun d => d.digitChar = c).filter (· < base)

theorem digitValue_none (base : Nat) {c : Char} (other : ((List.range 16).find? fun d => d.digitChar = c) = none) :
    digitValue base c = none := by
  rw [digitValue, other]
  rfl

/-- The number of a row of digits. -/
def ofDigits (base : Nat) (digits : List Char) : Nat :=
  digits.foldl (fun n c => base * n + (digitValue base c).getD 0) 0

/-- A number in the given base: the digits up to the first other character. -/
def number (base : Nat) : Reader Nat := fun text =>
  let digits := text.takeWhile fun c => (digitValue base c).isSome
  if digits = [] then none else some (ofDigits base digits, text.dropWhile fun c => (digitValue base c).isSome)

@[simp] theorem literal_append (expected rest : List Char) : literal expected (expected ++ rest) = some ((), rest) := by
  simp [literal]

theorem literal_cons (c : Char) (rest : List Char) : literal [c] (c :: rest) = some ((), rest) :=
  literal_append [c] rest

theorem literal_none {expected text : List Char} (other : ¬ expected <+: text) : literal expected text = none := by
  simp [literal, other]

/-- A text that starts otherwise is not read. -/
theorem literal_other {c d : Char} {expected text : List Char} (different : c ≠ d) (start : expected.head? = some c)
    (first : text.head? = some d) : literal expected text = none := by
  apply literal_none
  rintro ⟨later, rfl⟩
  rw [List.head?_append, start] at first
  exact different (Option.some.inj first)

section Numbers
variable {base : Nat}

theorem digitValue_digitChar (small : base ≤ 16) {d : Nat} (bound : d < base) :
    digitValue base d.digitChar = some d := by
  have found : ((List.range 16).find? fun e => e.digitChar = d.digitChar) = some d := by
    have least : d < 16 := by omega
    interval_cases d <;> decide
  rw [digitValue, found, Option.filter_some_pos (by simpa using bound)]

theorem ofDigits_concat (small : base ≤ 16) (digits : List Char) {d : Nat} (bound : d < base) :
    ofDigits base (digits ++ [d.digitChar]) = base * ofDigits base digits + d := by
  rw [ofDigits, List.foldl_append, List.foldl_cons, List.foldl_nil, digitValue_digitChar small bound]
  rfl

/-- The digits a number is printed with, from the last one on. -/
theorem toDigits_induction (two : 1 < base) {P : Nat → List Char → Prop}
    (one : ∀ d < base, P d [d.digitChar])
    (more : ∀ n d digits, d < base → P n digits → P (base * n + d) (digits ++ [d.digitChar])) (n : Nat) :
    P n (Nat.toDigits base n) := by
  induction n using Nat.strongRecOn with
  | ind n ih =>
    by_cases small : n < base
    · rw [Nat.toDigits_of_lt_base small]
      exact one n small
    · have last := Nat.mod_lt n (show 0 < base by omega)
      have shorter := Nat.div_lt_self (show 0 < n by omega) two
      rw [Nat.toDigits_of_base_le two (by omega)]
      have := more (n / base) (n % base) _ last (ih _ shorter)
      rwa [Nat.div_add_mod] at this

theorem ofDigits_toDigits (two : 1 < base) (small : base ≤ 16) (n : Nat) :
    ofDigits base (Nat.toDigits base n) = n := by
  apply toDigits_induction two (P := fun n digits => ofDigits base digits = n)
  · intro d bound
    have := ofDigits_concat small [] bound
    simpa [ofDigits] using this
  · intro n d digits bound ih
    rw [ofDigits_concat small digits bound, ih]

theorem digitValue_of_mem_toDigits (two : 1 < base) (small : base ≤ 16) {n : Nat} {c : Char}
    (member : c ∈ Nat.toDigits base n) : (digitValue base c).isSome := by
  revert c
  apply toDigits_induction two (P := fun _ digits => ∀ {c}, c ∈ digits → (digitValue base c).isSome)
  · intro d bound c member
    rw [List.mem_singleton.mp member, digitValue_digitChar small bound]
    rfl
  · intro n d digits bound ih c member
    rcases List.mem_append.mp member with earlier | last
    · exact ih earlier
    · rw [List.mem_singleton.mp last, digitValue_digitChar small bound]
      rfl

/-- A printed number is read back, whatever follows its digits. -/
theorem number_toDigits (two : 1 < base) (small : base ≤ 16) (n : Nat) {c : Char}
    (stop : digitValue base c = none) (rest : List Char) :
    number base (Nat.toDigits base n ++ c :: rest) = some (n, c :: rest) := by
  have digits : ∀ c ∈ Nat.toDigits base n, (digitValue base c).isSome := by
    intro c member
    exact digitValue_of_mem_toDigits two small member
  unfold number
  simp only [List.takeWhile_append_of_pos digits, List.dropWhile_append_of_pos digits]
  simp [stop, Nat.toDigits_ne_nil, ofDigits_toDigits two small]

end Numbers

/-! ### Signed numbers and repetition -/

def signed (v : BitVec 32) : List Char :=
  if v.msb then '-' :: Nat.toDigits 10 (-v).toNat else Nat.toDigits 10 v.toNat

/-- A decimal number with an optional minus sign. -/
def integer : Reader Int :=
  either (do literal ['-']; let n ← number 10; pure (-(n : Int))) (do let n ← number 10; pure (n : Int))

/-- A signed number is read back as its two's complement value. -/
theorem integer_signed (v : BitVec 32) {c : Char} (stop : digitValue 10 c = none) (rest : List Char) :
    integer (signed v ++ c :: rest) = some (v.toInt, c :: rest) := by
  have value := BitVec.toInt_eq_msb_cond v
  have bound := v.isLt
  unfold integer signed either
  cases sign : v.msb with
  | true =>
    have negated : -((-v).toNat : Int) = v.toInt := by
      have high := BitVec.msb_eq_true_iff_two_mul_ge.mp sign
      rw [sign, if_pos rfl] at value
      rw [BitVec.toNat_neg, value]
      omega
    rw [if_pos rfl, List.cons_append, bind_some (literal_cons '-' _),
      bind_some (number_toDigits (by decide) (by decide) (-v).toNat stop rest), ← negated]
    rfl
  | false =>
    have unsigned : ¬ ['-'] <+: Nat.toDigits 10 v.toNat ++ c :: rest := by
      rintro ⟨later, same⟩
      have first := congrArg List.head? same
      have digit (c : Char) (member : c ∈ Nat.toDigits 10 v.toNat) : c ≠ '-' := by
        rintro rfl
        have := digitValue_of_mem_toDigits (by decide) (by decide) member
        rw [digitValue_none 10 (by decide)] at this
        cases this
      cases digits : Nat.toDigits 10 v.toNat with
      | nil => exact Nat.toDigits_ne_nil digits
      | cons d more =>
        rw [digits] at first
        exact digit d (by simp [digits]) (Option.some.inj first).symm
    rw [sign, if_neg (by decide)] at value
    rw [if_neg (by decide), bind_none (literal_none unsigned), Option.none_or,
      bind_some (number_toDigits (by decide) (by decide) v.toNat stop rest), value]
    rfl

/-- Reads as often as it can, up to the limit. -/
def many {α : Type} (reader : Reader α) : Nat → Reader (List α)
  | 0 => pure []
  | limit + 1 => either (do let a ← reader; let as ← many reader limit; pure (a :: as)) (pure [])

/-- Texts one after the other are read one after the other, up to a rest that is not read. -/
theorem many_append {α β : Type} {reader : Reader β} {write : α → List Char} {meaning : α → β} {rest : List Char}
    (values : List α) {limit : Nat} (enough : values.length < limit) (read : ∀ a ∈ values, ∀ rest,
      reader (write a ++ rest) = some (meaning a, rest)) (last : reader rest = none) :
    many reader limit (values.flatMap write ++ rest) = some (values.map meaning, rest) := by
  induction values generalizing limit with
  | nil =>
    cases limit with
    | zero => rfl
    | succ limit =>
      show ((reader >>= _) rest).or _ = _
      rw [bind_none last]
      rfl
  | cons a values ih =>
    cases limit with
    | zero => exact (Nat.not_lt_zero _ enough).elim
    | succ limit =>
      have later := ih (Nat.lt_of_succ_lt_succ enough) fun b member => read b (List.mem_cons_of_mem a member)
      show ((reader >>= _) _).or _ = _
      rw [List.flatMap_cons, List.append_assoc, bind_some (read a List.mem_cons_self _), bind_some later]
      rfl

end Words.Reading
