import Mathlib.Data.List.Induction
import PmcBench.RdmsrOutput

/-!
# Runs of rdmsr

`runOn` says what the tool does for a command line: it ends at the first option that it
does not accept, and otherwise what counts is the last option of each sort. `main_eq_runOn`
shows that the tool does so, without a step that C leaves undefined and without its
impossible case.
-/

namespace PmcBench.Rdmsr
open CLib

/-! ### What the options choose -/

def Kind.ofOption : Char → Option Kind
  | 'x' => some .hex
  | 'X' => some .chx
  | 'o' => some .oct
  | 'd' => some .dec
  | 'r' => some .raw
  | 'u' => some .uns
  | _ => none

def kind : Found → Option Kind
  | .option c _ => Kind.ofOption c
  | .unknown _ => none

def isFlag (c : Char) : Found → Bool
  | .option d _ => d = c
  | .unknown _ => false

def processor : Found → Option Nat
  | .option 'p' (some optarg) =>
    if (strtoul 0 optarg).2 = [] ∧ (strtoul 0 optarg).1 ≤ 255 then some (strtoul 0 optarg).1.toNat else none
  | _ => none

def bitfield : Found → Option (BitVec 32 × BitVec 32)
  | .option 'f' (some optarg) =>
    match sscanf "%u:%u".toList optarg with
    | [highbit, lowbit] => if highbit ≤ 63 ∧ lowbit ≤ highbit then some (highbit, lowbit) else none
    | _ => none
  | _ => none

def accepted (f : Found) : Bool :=
  (kind f).isSome || isFlag 'c' f || isFlag '0' f || (processor f).isSome || (bitfield f).isSome

/-- What `getopt_long` has printed of an option. -/
def complaint (host : Host) (program : List Char) : Found → List Char
  | .unknown why => host.complains program why
  | .option .. => []

/-- How a tool with this help ends at an option that it does not accept. -/
def ending (host : Host) (help program : List Char) (f : Found) : Outcome :=
  if isFlag 'h' f then { status := 0, stderr := help }
  else if isFlag 'V' f then { status := 0, stderr := format "%s: version %s\n" [.str program, .str versionString] }
  else { status := 127, stderr := complaint host program f ++ help }

theorem ending_option (host : Host) (help program : List Char) {c : Char} (noHelp : c ≠ 'h') (noVersion : c ≠ 'V')
    (optarg : Option (List Char)) : ending host help program (.option c optarg) = { status := 127, stderr := help } := by
  unfold ending
  rw [show isFlag 'h' (.option c optarg) = false from decide_eq_false noHelp,
    show isFlag 'V' (.option c optarg) = false from decide_eq_false noVersion, if_neg Bool.false_ne_true,
    if_neg Bool.false_ne_true, complaint, List.nil_append]

/-- The last of what the options choose of a sort. -/
def lastOf {α : Type} (sort : Found → Option α) (default : α) (found : List Found) : α :=
  (found.filterMap sort).getLast?.getD default

def modeOf (found : List Found) : Mode := ⟨lastOf kind .hex found, found.any (isFlag '0'), found.any (isFlag 'c')⟩

def settingsOf (found : List Found) : Settings where
  mode := (modeOf found).word
  cpu := lastOf processor 0 found
  highbit := (lastOf bitfield (63, 0) found).1
  lowbit := (lastOf bitfield (63, 0) found).2

theorem lastOf_snoc {α : Type} (sort : Found → Option α) (default : α) (found : List Found) (f : Found) :
    lastOf sort default (found ++ [f]) = (sort f).getD (lastOf sort default found) := by
  unfold lastOf
  rw [List.filterMap_append]
  cases here : sort f with
  | none => simp [here]
  | some a => simp [here]

theorem word_kind (m : Mode) (k : Kind) : (m.word &&& ~~~moMask) ||| k.mo = { m with kind := k : Mode }.word := by
  obtain ⟨kind, fill, c⟩ := m
  cases kind <;> cases fill <;> cases c <;> cases k <;> rfl

theorem word_c (m : Mode) : m.word ||| moC = { m with c := true : Mode }.word := by
  obtain ⟨kind, fill, c⟩ := m
  cases kind <;> cases fill <;> cases c <;> rfl

theorem word_fill (m : Mode) : m.word ||| moFill = { m with fill := true : Mode }.word := by
  obtain ⟨kind, fill, c⟩ := m
  cases kind <;> cases fill <;> cases c <;> rfl

/-! ### The option loop -/

def Kind.letter : Kind → Char
  | hex => 'x'
  | chx => 'X'
  | dec => 'd'
  | uns => 'u'
  | oct => 'o'
  | raw => 'r'

theorem Kind.letter_of_ofOption {c : Char} {k : Kind} (chosen : ofOption c = some k) : c = k.letter := by
  unfold ofOption at chosen
  split at chosen
  all_goals cases chosen
  all_goals rfl

theorem processor_some {f : Found} {cpu : Nat} (here : processor f = some cpu) : ∃ optarg, f = .option 'p' (some optarg) ∧
    (strtoul 0 optarg).2 = [] ∧ (strtoul 0 optarg).1 ≤ 255 ∧ cpu = (strtoul 0 optarg).1.toNat := by
  unfold processor at here
  split at here
  · rename_i optarg
    split at here
    · rename_i fine
      exact ⟨optarg, rfl, fine.1, fine.2, (Option.some.inj here).symm⟩
    · cases here
  · cases here

theorem bitfield_some {f : Found} {highbit lowbit : BitVec 32} (here : bitfield f = some (highbit, lowbit)) :
    ∃ optarg, f = .option 'f' (some optarg) ∧ sscanf "%u:%u".toList optarg = [highbit, lowbit] ∧ highbit ≤ 63 ∧
      lowbit ≤ highbit := by
  unfold bitfield at here
  split at here
  · rename_i optarg
    split at here
    · rename_i high low scanned
      split at here
      · rename_i fine
        obtain ⟨rfl, rfl⟩ := Prod.mk.inj (Option.some.inj here)
        exact ⟨optarg, rfl, scanned, fine.1, fine.2⟩
      · cases here
    · cases here
  · cases here

theorem option_of_flag {c : Char} {f : Found} (here : isFlag c f = true) : ∃ optarg, f = .option c optarg := by
  cases f with
  | unknown why => cases here
  | option d optarg =>
    obtain rfl : d = c := of_decide_eq_true here
    exact ⟨optarg, rfl⟩

section
variable {f : Found} (host : Host) (program : List Char) (m : Mode) (cpu : Nat) (highbit lowbit : BitVec 32)

def behind (f : Found) (m : Mode) (cpu : Nat) (highbit lowbit : BitVec 32) : Settings where
  mode := Mode.word ⟨(kind f).getD m.kind, m.fill || isFlag '0' f, m.c || isFlag 'c' f⟩
  cpu := (processor f).getD cpu
  highbit := ((bitfield f).getD (highbit, lowbit)).1
  lowbit := ((bitfield f).getD (highbit, lowbit)).2

theorem option_accepted (ok : accepted f = true) :
    option host program ⟨m.word, cpu, highbit, lowbit⟩ f = .ok (behind f m cpu highbit lowbit) := by
  have mode {w w' : BitVec 32} (same : w = w') : (Except.ok ⟨w, cpu, highbit, lowbit⟩ : Except Outcome Settings) =
      .ok ⟨w', cpu, highbit, lowbit⟩ := by rw [same]
  unfold accepted at ok
  rcases Bool.or_eq_true _ _ |>.mp ok with ok | ok
  · rcases Bool.or_eq_true _ _ |>.mp ok with ok | ok
    · rcases Bool.or_eq_true _ _ |>.mp ok with ok | ok
      · rcases Bool.or_eq_true _ _ |>.mp ok with ok | ok
        · obtain ⟨k, here⟩ := Option.isSome_iff_exists.mp ok
          cases f with
          | unknown why => cases here
          | option c optarg =>
            obtain rfl := Kind.letter_of_ofOption here
            have set := word_kind m k
            obtain ⟨_, fill, c⟩ := m
            cases k <;> cases fill <;> cases c <;> exact mode set
        · obtain ⟨optarg, rfl⟩ := option_of_flag ok
          have set := word_c m
          obtain ⟨_, fill, c⟩ := m
          cases fill <;> cases c <;> exact mode set
      · obtain ⟨optarg, rfl⟩ := option_of_flag ok
        have set := word_fill m
        obtain ⟨_, fill, c⟩ := m
        cases fill <;> cases c <;> exact mode set
    · obtain ⟨n, here⟩ := Option.isSome_iff_exists.mp ok
      obtain ⟨optarg, rfl, whole, small, value⟩ := processor_some here
      have fine : ¬ ((strtoul 0 optarg).2 ≠ [] ∨ (strtoul 0 optarg).1 > 255) := by
        rintro (rest | large)
        · exact rest whole
        · exact BitVec.not_lt.mpr small large
      unfold behind
      rw [here, value]
      obtain ⟨_, fill, c⟩ := m
      cases fill <;> cases c <;> exact if_neg fine
  · obtain ⟨⟨high, low⟩, here⟩ := Option.isSome_iff_exists.mp ok
    obtain ⟨optarg, rfl, scanned, inside, order⟩ := bitfield_some here
    have fine : ¬ (high > 63 ∨ low > high) := by
      rintro (large | wrong)
      · exact BitVec.not_lt.mpr inside large
      · exact BitVec.not_lt.mpr order wrong
    unfold behind
    rw [here, option, scanned]
    obtain ⟨_, fill, c⟩ := m
    cases fill <;> cases c <;> exact if_neg fine

theorem option_refused {s : Settings} (refused : accepted f = false) :
    option host program s f = .error (ending host (usage program) program f) := by
  unfold option
  split
  case h_1 | h_2 => rfl
  case h_3 | h_4 | h_5 | h_6 | h_7 | h_8 | h_9 | h_10 => cases refused
  case h_11 optarg =>
    by_cases fine : (strtoul 0 optarg).2 = [] ∧ (strtoul 0 optarg).1 ≤ 255
    · have here : processor (.option 'p' (some optarg)) = some (strtoul 0 optarg).1.toNat := if_pos fine
      simp [accepted, here] at refused
    · rw [ending_option host _ program (by decide) (by decide)]
      refine if_pos ?_
      rcases not_and_or.mp fine with rest | large
      · exact Or.inl rest
      · exact Or.inr (BitVec.not_le.mp large)
  case h_12 optarg =>
    rw [ending_option host _ program (by decide) (by decide)]
    split
    · rename_i high low scanned
      by_cases fine : high ≤ 63 ∧ low ≤ high
      · have here : bitfield (.option 'f' (some optarg)) = some (high, low) := by
          rw [bitfield, scanned]
          exact if_pos fine
        simp [accepted, here] at refused
      · refine if_pos ?_
        rcases not_and_or.mp fine with large | wrong
        · exact Or.inl (BitVec.not_le.mp large)
        · exact Or.inr (BitVec.not_le.mp wrong)
    · rfl
  case h_13 why => rfl
  case h_14 noHelp noVersion _ _ _ _ _ _ _ _ _ _ => rw [ending_option host _ program noHelp noVersion]

end

theorem loop_accepted {found : List Found} (ok : ∀ f ∈ found, accepted f = true) (host : Host)
    (program : List Char) : found.foldlM (option host program) {} = .ok (settingsOf found) := by
  induction found using List.reverseRecOn with
  | nil => rfl
  | append_singleton found f ih =>
    have last := option_accepted host program (modeOf found) (lastOf processor 0 found) (lastOf bitfield (63, 0) found).1
      (lastOf bitfield (63, 0) found).2 (ok f (by simp))
    rw [List.foldlM_append, ih fun g member => ok g (List.mem_append_left _ member)]
    show (option host program (settingsOf found) f >>= pure) = _
    rw [bind_pure, settingsOf, last]
    unfold behind settingsOf modeOf
    simp only [lastOf_snoc, List.any_append, List.any_cons, List.any_nil, Bool.or_false]

theorem loop_refused {found : List Found} {f : Found} (first : found.find? (fun f => !accepted f) = some f)
    (host : Host) (program : List Char) :
    found.foldlM (option host program) {} = .error (ending host (usage program) program f) := by
  obtain ⟨refused, before, after, rfl, ok⟩ := List.find?_eq_some_iff_append.mp first
  have accepts : ∀ g ∈ before, accepted g = true := fun g member => by simpa using ok g member
  rw [List.foldlM_append, loop_accepted accepts]
  show (option host program (settingsOf before) f >>= fun s => after.foldlM (option host program) s) = _
  rw [option_refused host program (by simpa using refused)]
  rfl

/-- What `-f` has chosen is a field of a register. -/
theorem bitfield_valid (found : List Found) : (lastOf bitfield (63, 0) found).1 ≤ 63 ∧
    (lastOf bitfield (63, 0) found).2 ≤ (lastOf bitfield (63, 0) found).1 := by
  unfold lastOf
  cases last : (found.filterMap bitfield).getLast? with
  | none => decide
  | some fields =>
    obtain ⟨f, -, here⟩ := List.mem_filterMap.mp (List.mem_of_getLast? last)
    obtain ⟨highbit, lowbit⟩ := fields
    obtain ⟨optarg, -, -, inside, order⟩ := bitfield_some here
    exact ⟨inside, order⟩

/-! ### Whole runs -/

def report (host : Host) (msr : MsrFile) (m : Mode) (cpu high low : Nat) (reg : BitVec 32) : Outcome :=
  match host.opens cpu, host.reads cpu reg with
  | some e, _ => openFailed "rdmsr" cpu e
  | none, some e => preadFailed cpu reg e
  | none, none =>
    { status := 0
      stdout := debugLine (msr cpu reg) ++ m.render (high - low + 1) (part low (high - low + 1) (msr cpu reg).toNat) }

/-- What the tool does for the options and operands of a command line. -/
def runOn (host : Host) (msr : MsrFile) (program : List Char) (found : List Found) (operands : Arguments) : Outcome :=
  match found.find? (fun f => !accepted f), operands with
  | some f, _ => ending host (usage program) program f
  | none, [regno] =>
    report host msr (modeOf found) (lastOf processor 0 found) (lastOf bitfield (63, 0) found).1.toNat
      (lastOf bitfield (63, 0) found).2.toNat ((strtoul 0 regno).1.setWidth 32)
  | none, _ => { status := 127, stderr := usage program }

section
variable (host : Host) (msr : MsrFile) (program : List Char)

theorem read_report {s : Settings} {m : Mode} (mode : s.mode = m.word) (order : s.lowbit ≤ s.highbit)
    (high : s.highbit ≤ 63) (regno : List Char) : read host msr program s regno =
      some (report host msr m s.cpu s.highbit.toNat s.lowbit.toNat ((strtoul 0 regno).1.setWidth 32)) := by
  unfold read report
  simp only [output_render mode order high]
  cases host.opens s.cpu with
  | some e => rfl
  | none => cases host.reads s.cpu ((strtoul 0 regno).1.setWidth 32) <;> rfl

/-- Whatever the command line, the device and the registers, the tool does what `runOn` says:
it never comes to its impossible case, and never shifts or indexes too far. -/
theorem main_eq_runOn (args : Arguments) : main host msr program args =
    some (runOn host msr program (options.getopt none args).1 (options.getopt none args).2) := by
  unfold main runOn
  generalize options.getopt none args = scan
  obtain ⟨found, operands⟩ := scan
  cases first : found.find? fun f => !accepted f with
  | some f =>
    simp only [loop_refused first]
  | none =>
    have ok : ∀ f ∈ found, accepted f = true := fun f member => by
      simpa using List.find?_eq_none.mp first f member
    simp only [loop_accepted ok]
    rcases operands with _ | ⟨regno, _ | ⟨more, rest⟩⟩
    · rfl
    · obtain ⟨high, order⟩ := bitfield_valid found
      exact read_report host msr program (s := settingsOf found) rfl order high regno
    · rfl

end

/-- The options choose a register that can be read. -/
structure Reads (host : Host) (found : List Found) (reg : BitVec 32) : Prop where
  accepts : ∀ f ∈ found, accepted f = true
  opens : host.opens (lastOf processor 0 found) = none
  reads : host.reads (lastOf processor 0 found) reg = none

def bitsOf (found : List Found) : Nat :=
  (lastOf bitfield (63, 0) found).1.toNat - (lastOf bitfield (63, 0) found).2.toNat + 1

def fieldOf (found : List Found) (data : Word) : Nat :=
  part (lastOf bitfield (63, 0) found).2.toNat (bitsOf found) data.toNat

theorem bitsOf_le (found : List Found) : 1 ≤ bitsOf found ∧ bitsOf found ≤ 64 := by
  obtain ⟨high, -⟩ := bitfield_valid found
  have bound : (lastOf bitfield (63, 0) found).1.toNat ≤ 63 := high
  unfold bitsOf
  omega

theorem main_reads {host : Host} (msr : MsrFile) (program : List Char) {args : Arguments} {found : List Found}
    {regno : List Char} {reg : BitVec 32} (scan : options.getopt none args = (found, [regno]))
    (named : (strtoul 0 regno).1.setWidth 32 = reg) (reads : Reads host found reg) :
    main host msr program args = some
      { status := 0
        stdout := debugLine (msr (lastOf processor 0 found) reg) ++
          (modeOf found).render (bitsOf found) (fieldOf found (msr (lastOf processor 0 found) reg)) } := by
  have none : found.find? (fun f => !accepted f) = none :=
    List.find?_eq_none.mpr fun f member => by simpa using reads.accepts f member
  rw [main_eq_runOn, scan]
  unfold runOn
  rw [none]
  show some (report ..) = _
  rw [named]
  unfold report
  rw [reads.opens, reads.reads]
  rfl

/-! ### Spellings of a command line -/

theorem lastOf_perm {α : Type} {sort : Found → Option α} {found found' : List Found} (perm : found.Perm found')
    (once : (found.filterMap sort).length ≤ 1) (default : α) : lastOf sort default found = lastOf sort default found' := by
  have sorted := perm.filterMap sort
  unfold lastOf
  rcases chosen : found.filterMap sort with _ | ⟨a, _ | ⟨b, rest⟩⟩
  · rw [chosen] at sorted
    rw [List.nil_perm.mp sorted]
  · rw [chosen] at sorted
    rw [List.singleton_perm.mp sorted]
  · rw [chosen] at once
    simp at once

/-- No two options choose the same thing. -/
def Once (found : List Found) : Prop :=
  (found.filterMap kind).length ≤ 1 ∧ (found.filterMap processor).length ≤ 1 ∧ (found.filterMap bitfield).length ≤ 1

instance (found : List Found) : Decidable (Once found) := inferInstanceAs (Decidable (_ ∧ _))

/-- How the options are spelled, in which order they come and where the operand stands among
them makes no difference, if no two of them choose the same thing. -/
theorem main_spellings (host : Host) (msr : MsrFile) (program : List Char) {items items' : List Item}
    (valid : ∀ item ∈ items, item.Valid options) (valid' : ∀ item ∈ items', item.Valid options)
    (perm : (items.flatMap Item.found).Perm (items'.flatMap Item.found)) (once : Once (items.flatMap Item.found))
    (ok : ∀ f ∈ items.flatMap Item.found, accepted f = true)
    (same : items.flatMap Item.operands = items'.flatMap Item.operands) :
    main host msr program (items.flatMap Item.words) = main host msr program (items'.flatMap Item.words) := by
  have scan {items : List Item} (valid : ∀ item ∈ items, item.Valid options) :
      options.getopt none (items.flatMap Item.words) = (items.flatMap Item.found, items.flatMap Item.operands) := by
    have read := Options.getopt_items valid []
    simpa [Options.getopt] using read
  have none : (items.flatMap Item.found).find? (fun f => !accepted f) = none :=
    List.find?_eq_none.mpr fun f member => by simpa using ok f member
  have none' : (items'.flatMap Item.found).find? (fun f => !accepted f) = .none :=
    List.find?_eq_none.mpr fun f member => by simpa using ok f (perm.mem_iff.mpr member)
  obtain ⟨kinds, processors, bitfields⟩ := once
  have mode : modeOf (items.flatMap Item.found) = modeOf (items'.flatMap Item.found) := by
    unfold modeOf
    rw [lastOf_perm perm kinds, perm.any_eq, perm.any_eq]
  rw [main_eq_runOn, main_eq_runOn, scan valid, scan valid']
  unfold runOn
  rw [none, none', mode, lastOf_perm perm processors, lastOf_perm perm bitfields, same]

/-- `rdmsr -0x -p 3 0x10 -f 15:8` and `rdmsr --bitf=15:8 --cpu 3 --zero-f 0x10 --hex`. -/
theorem main_spellings_hex : main {} (fun _ _ => 0xfedc) "rdmsr".toList
      ["-0x".toList, "-p".toList, "3".toList, "0x10".toList, "-f".toList, "15:8".toList] =
    main {} (fun _ _ => 0xfedc) "rdmsr".toList
      ["--bitf=15:8".toList, "--cpu".toList, "3".toList, "--zero-f".toList, "0x10".toList, "--hex".toList] :=
  @main_spellings {} (fun _ _ => 0xfedc) "rdmsr".toList
    [.flags "0x".toList, .short [] 'p' ['3'] false, .operand "0x10".toList, .short [] 'f' "15:8".toList false]
    [.longArg "bitf".toList ⟨"bitfield".toList, true, 'f'⟩ "15:8".toList true,
      .longArg "cpu".toList ⟨"cpu".toList, true, 'p'⟩ ['3'] false, .long "zero-f".toList ⟨"zero-fill".toList, false, '0'⟩,
      .operand "0x10".toList, .long "hex".toList ⟨"hexadecimal".toList, false, 'x'⟩]
    (by decide) (by decide) (by decide) (by decide) (by decide) rfl

end PmcBench.Rdmsr
