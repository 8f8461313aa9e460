import Mathlib.Data.List.Basic

/-!
# Delimited text

A table of text fields, printed with a separator between the fields of a row and a
terminator after each row, and read back by splitting. `parse_print` is the round trip
for fields that contain neither; decimal numbers are such fields.
-/

namespace Words

namespace Delimited
variable {α : Type} {sep stop : α}

/-- The rows of a table, each ended by `stop`, with `sep` between its fields. -/
def print (sep stop : α) (table : List (List (List α))) : List α :=
  table.flatMap fun row => List.intercalate [sep] row ++ [stop]

/-- Reads a table back; text after the last `stop` is refused. -/
def parse [DecidableEq α] (sep stop : α) (text : List α) : Option (List (List (List α))) :=
  let lines := text.splitOn stop
  if lines.getLast? = some [] then some (lines.dropLast.map (List.splitOn sep)) else none

/-- A row that survives printing: it has a field, and no field contains a delimiter. -/
structure PlainRow (sep stop : α) (row : List (List α)) : Prop where
  some : row ≠ []
  sep : ∀ field ∈ row, sep ∉ field
  stop : ∀ field ∈ row, stop ∉ field

theorem PlainRow.stop_notMem {row : List (List α)} (plain : PlainRow sep stop row) (different : sep ≠ stop) :
    stop ∉ List.intercalate [sep] row := by
  have free := plain.stop
  clear plain
  induction row with
  | nil => simp
  | cons field row ih =>
    have first := free field List.mem_cons_self
    have later := ih fun other member => free other (List.mem_cons_of_mem field member)
    cases row with
    | nil => simpa using first
    | cons next row =>
      rw [List.intercalate_cons_cons, List.mem_append, List.mem_append, List.mem_singleton]
      rintro ((here | same) | there)
      · exact first here
      · exact different same.symm
      · exact later there

theorem splitOn_print [DecidableEq α] {table : List (List (List α))} (plain : ∀ row ∈ table, PlainRow sep stop row)
    (different : sep ≠ stop) :
    (print sep stop table).splitOn stop = table.map (List.intercalate [sep]) ++ [[]] := by
  induction table with
  | nil => simp [print]
  | cons row table ih =>
    have first := (plain row List.mem_cons_self).stop_notMem different
    have later := ih fun other member => plain other (List.mem_cons_of_mem row member)
    rw [print, List.flatMap_cons, List.append_assoc, List.singleton_append,
      List.splitOn_append_cons_self_of_not_mem first]
    exact congrArg (List.intercalate [sep] row :: ·) later

/-- A printed table is read back as it was. -/
theorem parse_print [DecidableEq α] {table : List (List (List α))} (plain : ∀ row ∈ table, PlainRow sep stop row)
    (different : sep ≠ stop) : parse sep stop (print sep stop table) = some table := by
  have rows : (table.map (List.intercalate [sep])).map (List.splitOn sep) = table := by
    rw [List.map_map]
    conv_rhs => rw [← List.map_id table]
    apply List.map_congr_left
    intro row member
    exact List.splitOn_intercalate sep (plain row member).sep (plain row member).some
  simp only [parse, splitOn_print plain different, List.getLast?_concat, if_true, List.dropLast_concat, rows]

end Delimited

/-! ### Decimal numbers -/

def decimal (n : Nat) : List Char := Nat.toDigits 10 n

def parseDecimal (field : List Char) : Option Nat :=
  if field ≠ [] ∧ field.all Char.isDigit then some (Nat.ofDigitChars 10 field 0) else none

theorem isDigit_of_mem_decimal {n : Nat} {c : Char} (member : c ∈ decimal n) : c.isDigit = true :=
  Nat.isDigit_of_mem_toDigits (by decide) (by decide) member

@[simp] theorem parseDecimal_decimal (n : Nat) : parseDecimal (decimal n) = some n := by
  have digits : (decimal n).all Char.isDigit = true := List.all_eq_true.mpr fun c => isDigit_of_mem_decimal
  rw [parseDecimal, if_pos ⟨Nat.toDigits_ne_nil, digits⟩, decimal, Nat.ofDigitChars_ten_toDigits]

theorem notMem_decimal {c : Char} (other : c.isDigit = false) (n : Nat) : c ∉ decimal n := by
  intro member
  rw [isDigit_of_mem_decimal member] at other
  cases other

theorem decimal_inj {m n : Nat} (same : decimal m = decimal n) : m = n := by
  have parsed := congrArg parseDecimal same
  rw [parseDecimal_decimal, parseDecimal_decimal] at parsed
  exact Option.some.inj parsed

theorem mapM_parseDecimal (numbers : List Nat) : (numbers.map decimal).mapM parseDecimal = some numbers := by
  induction numbers with
  | nil => rfl
  | cons n numbers ih =>
    rw [List.map_cons, List.mapM_cons, parseDecimal_decimal, ih]
    rfl

theorem Delimited.plainRow_decimals {sep stop : Char} (sepOther : sep.isDigit = false) (stopOther : stop.isDigit = false)
    {numbers : List Nat} (some : numbers ≠ []) : PlainRow sep stop (numbers.map decimal) := by
  have free {d : Char} (other : d.isDigit = false) (field : List Char) (member : field ∈ numbers.map decimal) :
      d ∉ field := by
    obtain ⟨n, -, rfl⟩ := List.mem_map.mp member
    exact notMem_decimal other n
  exact ⟨by simpa using some, free sepOther, free stopOther⟩

end Words
