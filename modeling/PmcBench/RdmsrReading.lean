import PmcBench.RdmsrRuns

/-!
# What can be read from the output of rdmsr

Zero-filled fields come out in columns, C constants are read back by `strtoul`, and the
signed decimal number is that of the two's complement for the fields that
`signMagnitude_eq_iff` names.
-/

namespace PmcBench.Rdmsr
open CLib
open Nat (toDigits)

/-! ### Columns -/

theorem Kind.spells_zeros (k : Kind) (bits v : Nat) : Spells k.base v (k.zeros bits v ++ k.digits v) :=
  (k.spells_digits v).zeros k.two_le_base k.base_le _

theorem Kind.spells_filled (k : Kind) (fill : Bool) (bits v : Nat) :
    Spells k.base v ((if fill then k.zeros bits v else []) ++ k.digits v) := by
  cases fill
  · exact k.spells_digits v
  · exact k.spells_zeros bits v

theorem Kind.length_zeros {k : Kind} {bits v : Nat} (bound : v < 2 ^ bits) :
    (k.zeros bits v ++ k.digits v).length = k.width bits := by
  have := Kind.length_digits_le (k := k) bound
  rw [List.length_append, Kind.zeros, List.length_replicate]
  omega

/-- The magnitude has a bit less than the field. -/
theorem natAbs_signMagnitude {bits v : Nat} (some : 1 ≤ bits) (bound : v < 2 ^ bits) :
    (signMagnitude bits v).natAbs < 2 ^ (bits - 1) := by
  have double : 2 ^ bits = 2 ^ (bits - 1) * 2 := by
    rw [← Nat.pow_succ]
    congr 1
    omega
  unfold signMagnitude
  split <;> omega

theorem length_signed {m : Mode} {bits : Nat} {n : Int} (fill : m.fill = true) (plain : m.c = false)
    (bound : n.natAbs < 2 ^ (bits - 1)) : (m.signed bits n).length = m.kind.width (bits - 1) + 1 := by
  have digits := Kind.length_digits_le (k := m.kind) bound
  have sign : (minus n).length ≤ 1 := by
    unfold minus
    split <;> simp
  unfold Mode.signed
  simp only [fill, plain, and_self, if_true, List.length_append, List.length_replicate]
  omega

def Mode.Fills (m : Mode) : Prop :=
  m.fill = true ∧ m.kind ≠ .raw ∧ (m.c = true → m.kind = .hex ∨ m.kind = .chx ∨ m.kind = .oct)

theorem length_text {m : Mode} (fills : m.Fills) {bits v w : Nat} (some : 1 ≤ bits) (bound : v < 2 ^ bits)
    (bound' : w < 2 ^ bits) : (m.text bits v).length = (m.text bits w).length := by
  have same := (Kind.length_zeros (k := m.kind) bound).trans (Kind.length_zeros (k := m.kind) bound').symm
  obtain ⟨kind, fill, c⟩ := m
  obtain ⟨rfl, notRaw, marked⟩ := fills
  cases kind <;> cases c
  case raw.false | raw.true => exact (notRaw rfl).elim
  case dec.false =>
    exact (length_signed rfl rfl (natAbs_signMagnitude some bound)).trans
      (length_signed rfl rfl (natAbs_signMagnitude some bound')).symm
  case dec.true | uns.true => rcases marked rfl with h | h | h <;> cases h
  all_goals
    simp only [List.length_append] at same
    simp only [Mode.text, List.length_append, if_true]
    omega

/-! ### C constants -/

theorem stops_nil (base : Nat) : Stops base [] := nofun

/-- The register value that a constant stands for. -/
def Mode.constant (m : Mode) (bits v : Nat) : Word :=
  if m.kind = .dec then .ofInt 64 (signMagnitude bits v) else .ofNat 64 v

theorem toULong_of_lt {n : Nat} (fits : n < 2 ^ 64) (negative : Bool) :
    toULong negative n = if negative then -.ofNat 64 n else .ofNat 64 n := if_neg (by omega)

theorem strtoul_signed {m : Mode} (dec : m.kind = .dec) (c : m.c = true) (bits : Nat) {n : Int} (fits : n.natAbs < 2 ^ 64) :
    strtoul 0 (m.signed bits n) = (.ofInt 64 n, []) := by
  have unfilled : m.signed bits n = minus n ++ (toDigits 10 n.natAbs ++ []) := by
    unfold Mode.signed
    simp [c, dec, Kind.digits, Kind.base]
  rw [unfilled]
  unfold minus
  by_cases negative : n < 0
  · have value : toULong true n.natAbs = .ofInt 64 n := by
      rw [toULong_of_lt fits, if_pos rfl]
      obtain ⟨k, rfl⟩ : ∃ k : Nat, n = -k := ⟨n.natAbs, by omega⟩
      rw [Int.natAbs_neg, Int.natAbs_natCast, BitVec.ofInt_neg, BitVec.ofInt_natCast]
    rw [if_pos negative, ← value]
    exact strtoul_minus (stops_nil 10) rfl
  · have value : toULong false n.natAbs = .ofInt 64 n := by
      rw [toULong_of_lt fits, if_neg (by decide)]
      obtain ⟨k, rfl⟩ : ∃ k : Nat, n = k := ⟨n.natAbs, by omega⟩
      rw [Int.natAbs_natCast, BitVec.ofInt_natCast]
    rw [if_neg negative, ← value]
    exact strtoul_decimal (stops_nil 10) rfl

/-- `strtoul` reads a C constant back, whether it is filled up or not. -/
theorem strtoul_text {m : Mode} (c : m.c = true) (number : m.kind ≠ .raw) {bits v : Nat} (some : 1 ≤ bits)
    (most : bits ≤ 64) (bound : v < 2 ^ bits) : (strtoul 0 (m.text bits v)).1 = m.constant bits v := by
  have fits : v < 2 ^ 64 := Nat.lt_of_lt_of_le bound (Nat.pow_le_pow_right (by decide) most)
  have value : toULong false v = .ofNat 64 v := toULong_of_lt fits false
  obtain ⟨kind, fill, _⟩ := m
  obtain rfl : _ = true := c
  cases kind with
  | raw => exact (number rfl).elim
  | hex =>
    have read := strtoul_hex (x := 'x') (Or.inl rfl) (Kind.spells_filled .hex fill bits v) (stops_nil 16)
    rw [List.append_nil] at read
    exact (congrArg Prod.fst read).trans value
  | chx =>
    have read := strtoul_hex (x := 'x') (Or.inl rfl) (Kind.spells_filled .chx fill bits v) (stops_nil 16)
    rw [List.append_nil] at read
    exact (congrArg Prod.fst read).trans value
  | oct =>
    have read := strtoul_octal (Kind.spells_filled .oct fill bits v) (stops_nil 8)
    rw [List.append_nil] at read
    exact (congrArg Prod.fst read).trans value
  | uns =>
    have stop : Stops 10 ['U'] := by rintro c ⟨⟩; rfl
    have read : strtoul 0 (toDigits 10 v ++ ['U']) = _ := strtoul_decimal stop rfl
    exact (congrArg Prod.fst read).trans value
  | dec =>
    have magnitude := natAbs_signMagnitude some bound
    have small : 2 ^ (bits - 1) ≤ 2 ^ 64 := Nat.pow_le_pow_right (by decide) (by omega)
    exact congrArg Prod.fst (strtoul_signed rfl rfl bits (by omega))

theorem plain_of_isDigit {base : Nat} (small : base ≤ 16) {c : Char} (here : isDigit base c = true) :
    isIfs c = false ∧ c ≠ '-' := by
  replace here := isDigit_mono small here
  constructor
  · cases blank : isIfs c with
    | false => rfl
    | true =>
      simp only [isIfs, Bool.or_eq_true, decide_eq_true_eq] at blank
      rcases blank with (rfl | rfl) | rfl <;> cases here
  · rintro rfl
    cases here

/-- A C constant is one word, and no option. -/
theorem plain_text {m : Mode} (c : m.c = true) (number : m.kind ≠ .raw ∧ m.kind ≠ .dec) (bits v : Nat) :
    m.text bits v ≠ [] ∧ (m.text bits v).head? ≠ some '-' ∧ ∀ c ∈ m.text bits v, isIfs c = false := by
  have blankless {k : Kind} {digits : List Char} (spelled : Spells k.base v digits) : ∀ c ∈ digits, isIfs c = false :=
    fun c member => (plain_of_isDigit k.base_le (spelled.all c member)).1
  obtain ⟨kind, fill, _⟩ := m
  obtain rfl : _ = true := c
  obtain ⟨notRaw, notDec⟩ := number
  cases kind with
  | raw => exact (notRaw rfl).elim
  | dec => exact (notDec rfl).elim
  | hex | chx =>
    refine ⟨nofun, by rintro ⟨⟩, fun c member => ?_⟩
    rcases List.mem_append.mp member with mark | digits
    · exact (show ∀ c ∈ ['0', 'x'], isIfs c = false by simp [isIfs]) c mark
    · exact blankless (Kind.spells_filled _ fill bits v) c digits
  | oct =>
    refine ⟨nofun, by rintro ⟨⟩, fun c member => ?_⟩
    rcases List.mem_append.mp member with mark | digits
    · exact (show ∀ c ∈ ['0'], isIfs c = false by simp [isIfs]) c mark
    · exact blankless (Kind.spells_filled .oct fill bits v) c digits
  | uns =>
    have spelled := Kind.spells_digits .uns v
    refine ⟨by simp [Mode.text], ?_, fun c member => ?_⟩
    · show (Kind.uns.digits v ++ ['U']).head? ≠ _
      cases digits : Kind.uns.digits v with
      | nil => exact (spelled.some digits).elim
      | cons c rest =>
        rintro same
        obtain rfl := Option.some.inj same
        have first := spelled.all '-' (by rw [digits]; exact List.mem_cons_self)
        cases first
    · rcases List.mem_append.mp member with digits | mark
      · exact blankless spelled c digits
      · exact (show ∀ c ∈ ['U'], isIfs c = false by simp [isIfs]) c mark

/-! ### Signed decimal numbers -/

def twosComplement (bits v : Nat) : Int := if v < 2 ^ (bits - 1) then v else (v : Int) - 2 ^ bits

theorem signMagnitude_eq_iff {bits v : Nat} (bound : v < 2 ^ bits) :
    signMagnitude bits v = twosComplement bits v ↔ v < 2 ^ (bits - 1) ∨ 2 * v = 2 ^ (bits - 1) + 2 ^ bits := by
  unfold signMagnitude twosComplement
  have cast : ((2 ^ bits : Nat) : Int) = 2 ^ bits := by norm_cast
  split
  · simp [*]
  · rw [← cast]
    omega

theorem signed_inj {m : Mode} (dec : m.kind = .dec) {bits : Nat} {n n' : Int}
    (same : m.signed bits n = m.signed bits n') : n = n' := by
  have spelled (n : Int) : ∃ digits, m.signed bits n = minus n ++ digits ∧ Spells 10 n.natAbs digits := by
    refine ⟨_, rfl, ?_⟩
    rw [dec]
    exact (Kind.spells_digits .dec n.natAbs).zeros (by decide) (by decide) _
  have value {k k' : Nat} {digits : List Char} (one : Spells 10 k digits) (other : Spells 10 k' digits) : k = k' :=
    one.value.symm.trans other.value
  have signless {k : Nat} {digits : List Char} (spelled : Spells 10 k ('-' :: digits)) : False :=
    absurd (spelled.all '-' List.mem_cons_self) (by decide)
  obtain ⟨digits, here, one⟩ := spelled n
  obtain ⟨digits', here', other⟩ := spelled n'
  rw [here, here'] at same
  unfold minus at same
  by_cases negative : n < 0 <;> by_cases negative' : n' < 0
  · rw [if_pos negative, if_pos negative'] at same
    obtain rfl := (List.cons.inj same).2
    have := value one other
    omega
  · rw [if_pos negative, if_neg negative'] at same
    obtain rfl : '-' :: digits = digits' := same
    exact (signless other).elim
  · rw [if_neg negative, if_pos negative'] at same
    obtain rfl : digits = '-' :: digits' := same
    exact (signless one).elim
  · rw [if_neg negative, if_neg negative'] at same
    obtain rfl : digits = digits' := same
    have := value one other
    omega

/-! ### Lines of the tool -/

section
variable {host : Host} {args : Arguments} {found : List Found} {regno : List Char} {reg : BitVec 32}

def numberOf (found : List Found) (data : Word) : List Char := (modeOf found).text (bitsOf found) (fieldOf found data)

theorem numberOf_reads (c : (modeOf found).c = true) (number : (modeOf found).kind ≠ .raw ∧ (modeOf found).kind ≠ .dec)
    (data : Word) : (strtoul 0 (numberOf found data)).1 = .ofNat 64 (fieldOf found data) := by
  obtain ⟨some, most⟩ := bitsOf_le found
  have value := strtoul_text c number.1 some most (show fieldOf found data < _ from part_lt ..)
  rwa [Mode.constant, if_neg number.2] at value

theorem main_number (msr : MsrFile) (program : List Char) (scan : options.getopt none args = (found, [regno]))
    (named : (strtoul 0 regno).1.setWidth 32 = reg) (reads : Reads host found reg) (number : (modeOf found).kind ≠ .raw) :
    main host msr program args = some
      { status := 0
        stdout := debugLine (msr (lastOf processor 0 found) reg) ++
          (numberOf found (msr (lastOf processor 0 found) reg) ++ ['\n']) } := by
  rw [main_reads msr program scan named reads]
  unfold numberOf Mode.render
  cases kind : (modeOf found).kind with
  | raw => exact (number kind).elim
  | _ => rfl

/-- Below two numbers that fill up with zeros the columns are the same, and no number but a
signed one is cut short or padded into another. -/
theorem main_columns (program : List Char) (scan : options.getopt none args = (found, [regno]))
    (named : (strtoul 0 regno).1.setWidth 32 = reg) (reads : Reads host found reg) (fills : (modeOf found).Fills)
    (msr msr' : MsrFile) : ∃ line line',
      main host msr program args = some
        { status := 0, stdout := debugLine (msr (lastOf processor 0 found) reg) ++ (line ++ ['\n']) } ∧
      main host msr' program args = some
        { status := 0, stdout := debugLine (msr' (lastOf processor 0 found) reg) ++ (line' ++ ['\n']) } ∧
      line.length = line'.length ∧ ((modeOf found).kind ≠ .dec → line = line' →
        fieldOf found (msr (lastOf processor 0 found) reg) = fieldOf found (msr' (lastOf processor 0 found) reg)) := by
  obtain ⟨some, most⟩ := bitsOf_le found
  have bound (data : Word) : fieldOf found data < 2 ^ bitsOf found := part_lt ..
  refine ⟨_, _, main_number msr program scan named reads fills.2.1, main_number msr' program scan named reads fills.2.1,
    length_text fills some (bound _) (bound _), fun plain same => ?_⟩
  unfold numberOf at same
  generalize fieldOf found (msr (lastOf processor 0 found) reg) = v at same ⊢
  generalize fieldOf found (msr' (lastOf processor 0 found) reg) = v' at same ⊢
  have spelled (k : Kind) (v : Nat) := k.spells_zeros (bitsOf found) v
  generalize modeOf found = m at fills plain same
  obtain ⟨kind, fill, c⟩ := m
  obtain ⟨rfl, notRaw, marked⟩ := fills
  have read (digits : kind.zeros (bitsOf found) v ++ kind.digits v = kind.zeros (bitsOf found) v' ++ kind.digits v') :
      v = v' := by
    have value := (spelled kind v).value
    rw [digits] at value
    exact value.symm.trans (spelled kind v').value
  cases kind <;> cases c
  case raw.false | raw.true => exact (notRaw rfl).elim
  case dec.false | dec.true => exact (plain rfl).elim
  case uns.true => rcases marked rfl with h | h | h <;> cases h
  case hex.true | chx.true => exact read (List.cons.inj (List.cons.inj same).2).2
  case oct.true => exact read (List.cons.inj same).2
  all_goals exact read same

/-- `-d` prints the number that the field is in two's complement for the fields whose sign is
clear, and for the one in the middle of the others. -/
theorem main_signed_iff (msr : MsrFile) (program : List Char) (scan : options.getopt none args = (found, [regno]))
    (named : (strtoul 0 regno).1.setWidth 32 = reg) (reads : Reads host found reg) (dec : (modeOf found).kind = .dec) :
    main host msr program args = some
      { status := 0
        stdout := debugLine (msr (lastOf processor 0 found) reg) ++ ((modeOf found).signed (bitsOf found)
          (twosComplement (bitsOf found) (fieldOf found (msr (lastOf processor 0 found) reg))) ++ ['\n']) } ↔
      fieldOf found (msr (lastOf processor 0 found) reg) < 2 ^ (bitsOf found - 1) ∨
        2 * fieldOf found (msr (lastOf processor 0 found) reg) = 2 ^ (bitsOf found - 1) + 2 ^ bitsOf found := by
  have bound : fieldOf found (msr (lastOf processor 0 found) reg) < 2 ^ bitsOf found := part_lt ..
  have line : numberOf found (msr (lastOf processor 0 found) reg) =
      (modeOf found).signed (bitsOf found) (signMagnitude (bitsOf found) (fieldOf found (msr (lastOf processor 0 found) reg))) := by
    unfold numberOf Mode.text
    rw [dec]
  rw [main_number msr program scan named reads (by rw [dec]; decide), line, ← signMagnitude_eq_iff bound]
  constructor
  · intro same
    have texts := congrArg Outcome.stdout (Option.some.inj same)
    exact signed_inj dec (List.append_cancel_right (List.append_cancel_left texts))
  · intro same
    rw [same]

end

/-- `rdmsr -0c 0x10` -/
theorem main_columns_c : ∃ line line',
    main {} (fun _ _ => 1) "rdmsr".toList ["-0c".toList, "0x10".toList] = some
      { status := 0, stdout := debugLine 1 ++ (line ++ ['\n']) } ∧
    main {} (fun _ _ => 0xFFFF) "rdmsr".toList ["-0c".toList, "0x10".toList] = some
      { status := 0, stdout := debugLine 0xFFFF ++ (line' ++ ['\n']) } ∧
    line.length = line'.length ∧ (Kind.hex ≠ .dec → line = line' → fieldOf [] 1 = fieldOf [] 0xFFFF) :=
  @main_columns {} _ [.option '0' none, .option 'c' none] "0x10".toList 0x10 "rdmsr".toList (by decide) (by decide)
    ⟨by decide, rfl, rfl⟩ ⟨rfl, by decide, fun _ => Or.inl rfl⟩ (fun _ _ => 1) fun _ _ => 0xFFFF

/-- `rdmsr -d -f 3:0 0x10` of the field 13, which is not -3. -/
theorem main_signed_iff_four :
    main {} (fun _ _ => 13) "rdmsr".toList ["-d".toList, "-f".toList, "3:0".toList, "0x10".toList] = some
      { status := 0, stdout := debugLine 13 ++ ((Mode.signed ⟨.dec, false, false⟩ 4 (twosComplement 4 13)) ++ ['\n']) } ↔
    13 < 2 ^ (4 - 1) ∨ 2 * 13 = 2 ^ (4 - 1) + 2 ^ 4 :=
  @main_signed_iff {} _ [.option 'd' none, .option 'f' (some "3:0".toList)] "0x10".toList 0x10 (fun _ _ => 13)
    "rdmsr".toList (by decide) (by decide) ⟨by decide, rfl, rfl⟩ (by decide)

end PmcBench.Rdmsr
