import PmcBench.Wrmsr

/-!
# Runs of wrmsr

What a command line writes, and how a register is carried from `rdmsr -c` to `wrmsr`:
as the line of its C constant, or as all words of the output.
-/

namespace PmcBench.Wrmsr
open CLib
open Rdmsr (ending ending_option processor lastOf lastOf_snoc processor_some isFlag)

/-! ### The option loop -/

section
variable (host : Host) (program : List Char)

theorem option_eq (cpu : Nat) (f : Found) :
    option host program cpu f = (processor f).elim (.error (ending host (usage program) program f)) .ok := by
  unfold option
  split
  case h_1 | h_2 => rfl
  case h_3 optarg =>
    by_cases fine : (strtoul 0 optarg).2 = [] ∧ (strtoul 0 optarg).1 ≤ 255
    · have here : processor (.option 'p' (some optarg)) = some (strtoul 0 optarg).1.toNat := if_pos fine
      rw [here]
      refine if_neg ?_
      rintro (rest | large)
      · exact rest fine.1
      · exact BitVec.not_lt.mpr fine.2 large
    · have here : processor (.option 'p' (some optarg)) = none := if_neg fine
      rw [here, ending_option host _ program (by decide) (by decide)]
      refine if_pos ?_
      rcases not_and_or.mp fine with rest | large
      · exact Or.inl rest
      · exact Or.inr (BitVec.not_le.mp large)
  case h_4 why => rfl
  case h_5 c optarg noHelp noVersion noProcessor =>
    have none : processor (.option c optarg) = none := by
      cases here : processor (.option c optarg) with
      | none => rfl
      | some n =>
        obtain ⟨arg, same, -⟩ := processor_some here
        cases same
        exact (noProcessor arg rfl rfl).elim
    rw [none, ending_option host _ program noHelp noVersion]
    rfl

theorem loop_accepted {found : List Found} (ok : ∀ f ∈ found, (processor f).isSome) :
    found.foldlM (option host program) 0 = .ok (lastOf processor 0 found) := by
  induction found using List.reverseRecOn with
  | nil => rfl
  | append_singleton found f ih =>
    obtain ⟨n, here⟩ := Option.isSome_iff_exists.mp (ok f (by simp))
    rw [List.foldlM_append, ih fun g member => ok g (List.mem_append_left _ member), lastOf_snoc, here]
    show (option host program _ f >>= pure) = _
    rw [bind_pure, option_eq, here]
    rfl

theorem loop_refused {found : List Found} {f : Found} (first : found.find? (fun f => !(processor f).isSome) = some f) :
    found.foldlM (option host program) 0 = .error (ending host (usage program) program f) := by
  obtain ⟨refused, before, after, rfl, ok⟩ := List.find?_eq_some_iff_append.mp first
  have accepts : ∀ g ∈ before, (processor g).isSome := fun g member => by simpa using ok g member
  have none : processor f = none := by simpa using refused
  rw [List.foldlM_append, loop_accepted host program accepts]
  show (option host program _ f >>= fun s => after.foldlM (option host program) s) = _
  rw [option_eq, none]
  rfl

end

/-! ### Whole runs -/

theorem after_writesOf (cpu : Nat) (reg : BitVec 32) {writes : List Write} (msr : MsrFile)
    (one : ∀ w ∈ writes, w.cpu = cpu ∧ w.reg = reg) :
    writes.foldl Write.apply msr = (writes.getLast?).elim msr fun w => w.apply msr := by
  induction writes using List.reverseRecOn with
  | nil => rfl
  | append_singleton writes w ih =>
    have earlier := ih fun v member => one v (List.mem_append_left _ member)
    rw [List.foldl_append, earlier, List.getLast?_concat]
    show w.apply _ = w.apply msr
    cases last : writes.getLast? with
    | none => rfl
    | some v =>
      have here := one v (List.mem_append_left _ (List.mem_of_getLast? last))
      have there := one w (by simp)
      obtain ⟨c, r, d⟩ := v
      obtain ⟨c', r', d'⟩ := w
      obtain ⟨rfl, rfl⟩ := here
      obtain ⟨rfl, rfl⟩ := there
      simp [Write.apply]

theorem Exact.after {host : Host} {cpu k : Nat} {reg : BitVec 32} {values : Arguments} {run : Run}
    (exact : Exact host cpu reg k values run) (msr : MsrFile) :
    run.after msr = (run.writes.getLast?).elim msr fun w => w.apply msr := by
  refine after_writesOf cpu reg msr fun w member => ?_
  obtain ⟨value, -, rfl⟩ := List.mem_map.mp (exact.front.subset member)
  exact ⟨rfl, rfl⟩

/-- The register and the values of a command line that writes. -/
structure Target (host : Host) (args : Arguments) (cpu : Nat) (reg : BitVec 32) (values : Arguments) : Prop where
  accepts : ∀ f ∈ (options.getopt none args).1, (processor f).isSome
  chosen : cpu = lastOf processor 0 (options.getopt none args).1
  operands : ∃ regno, (options.getopt none args).2 = regno :: values ∧ reg = (strtoul 0 regno).1.setWidth 32
  some : values ≠ []
  opens : host.opens cpu = none

variable {host : Host} {args values : Arguments} {cpu : Nat} {reg : BitVec 32}

theorem Target.main_eq (target : Target host args cpu reg values) (program : List Char) :
    main host program args = writeValues host cpu reg 0 values := by
  obtain ⟨accepts, rfl, ⟨regno, operands, rfl⟩, some, opens⟩ := target
  unfold main
  generalize options.getopt none args = scan at accepts operands opens ⊢
  obtain ⟨found, words⟩ := scan
  obtain rfl : words = regno :: values := operands
  simp only [loop_accepted host program accepts]
  cases values with
  | nil => exact (some rfl).elim
  | cons value values => simp only [opens]

theorem Target.exact (target : Target host args cpu reg values) (program : List Char) :
    Exact host cpu reg 0 values (main host program args) := by
  rw [target.main_eq program]
  exact writeValues_exact 0 values

/-- What a command line does to the registers, whatever the device refuses: nothing at all, and then
it ends well only to print its help or its version; or it writes a front part of its values to one
register, which is left with the last of them, and ends well exactly if that is all of them. -/
theorem main_exact (host : Host) (program : List Char) (args : Arguments) (msr : MsrFile) :
    ((main host program args).after msr = msr ∧ ((main host program args).outcome.status = 0 →
      ∃ f ∈ (options.getopt none args).1, isFlag 'h' f = true ∨ isFlag 'V' f = true)) ∨
    ∃ cpu reg values, Target host args cpu reg values ∧ Exact host cpu reg 0 values (main host program args) ∧
      (main host program args).after msr =
        ((main host program args).writes.getLast?).elim msr fun w => w.apply msr := by
  cases first : (options.getopt none args).1.find? fun f => !(processor f).isSome with
  | some f =>
    have ended : main host program args = { outcome := ending host (usage program) program f } := by
      unfold main
      simp only [loop_refused host program first]
    refine Or.inl ⟨by rw [ended]; rfl, fun fine => ⟨f, List.mem_of_find?_eq_some first, ?_⟩⟩
    rw [ended] at fine
    by_contra neither
    obtain ⟨noHelp, noVersion⟩ := not_or.mp neither
    replace fine : (ending host (usage program) program f).status = 0 := fine
    rw [ending, if_neg noHelp, if_neg noVersion] at fine
    cases fine
  | none =>
    have accepts : ∀ f ∈ (options.getopt none args).1, (processor f).isSome := fun f member => by
      have here := List.find?_eq_none.mp first f member
      rwa [Bool.not_eq_true, Bool.not_eq_false'] at here
    rcases operands : (options.getopt none args).2 with _ | ⟨regno, _ | ⟨value, values⟩⟩
    · refine Or.inl ?_
      unfold main
      simp only [loop_accepted host program accepts, operands]
      exact ⟨rfl, nofun⟩
    · refine Or.inl ?_
      unfold main
      simp only [loop_accepted host program accepts, operands]
      exact ⟨rfl, nofun⟩
    · cases opens : host.opens (lastOf processor 0 (options.getopt none args).1) with
      | some e =>
        refine Or.inl ?_
        unfold main
        simp only [loop_accepted host program accepts, operands, opens]
        refine ⟨rfl, fun fine => ?_⟩
        cases e <;> cases fine
      | none =>
        have target : Target host args _ ((strtoul 0 regno).1.setWidth 32) (value :: values) :=
          ⟨accepts, rfl, ⟨regno, operands, rfl⟩, List.cons_ne_nil _ _, opens⟩
        exact Or.inr ⟨_, _, _, target, target.exact program, (target.exact program).after msr⟩

/-! ### From rdmsr to wrmsr -/

def Carries (host : Host) : Prop := ∀ k cpu reg v, host.writes k cpu reg v = none

theorem Target.carried (target : Target host args cpu reg values) (carries : Carries host) (program : List Char) :
    main host program args = { outcome := { status := 0 }, writes := writesOf cpu reg values } := by
  rw [target.main_eq program]
  exact writeValues_all fun k v => carries k cpu reg v

/-- Options of `wrmsr`, however they are spelled, and the number of a register among them. -/
structure Aims (host : Host) (items : List Item) (cpu : Nat) (reg : BitVec 32) : Prop where
  valid : ∀ item ∈ items, item.Valid options
  accepts : ∀ f ∈ items.flatMap Item.found, (processor f).isSome
  chosen : cpu = lastOf processor 0 (items.flatMap Item.found)
  operands : ∃ regno, items.flatMap Item.operands = [regno] ∧ reg = (strtoul 0 regno).1.setWidth 32
  opens : host.opens cpu = none

theorem Aims.target {items : List Item} (aims : Aims host items cpu reg) (some : values ≠ [])
    (plain : ∀ value ∈ values, value.head? ≠ .some '-') : Target host (items.flatMap Item.words ++ values) cpu reg values := by
  obtain ⟨valid, accepts, chosen, ⟨regno, operands, named⟩, opens⟩ := aims
  have last : options.getopt none values = ([], values) := by
    induction values with
    | nil => rfl
    | cons value values ih =>
      rw [Options.getopt_operand fun minus => (plain value List.mem_cons_self minus).elim]
      cases values with
      | nil => rfl
      | cons next values => rw [ih nofun fun other member => plain other (List.mem_cons_of_mem value member)]
  have scan := Options.getopt_items valid values
  rw [last, List.append_nil, operands] at scan
  have found := congrArg Prod.fst scan
  have words := congrArg Prod.snd scan
  exact ⟨by rw [found]; exact accepts, by rw [found]; exact chosen, ⟨regno, words, named⟩, some, opens⟩

section
variable {source : Host} {args' : Arguments} {found : List Found} {regno : List Char} {items : List Item}

/-- `wrmsr` of the number that `rdmsr -c` prints writes to the register the field that was
printed, which is the whole register if no bits were chosen. -/
theorem restores (msr : MsrFile) (program program' : List Char)
    (scan : Rdmsr.options.getopt none args' = (found, [regno])) (named : (strtoul 0 regno).1.setWidth 32 = reg)
    (reads : Rdmsr.Reads source found reg) (c : (Rdmsr.modeOf found).c = true)
    (number : (Rdmsr.modeOf found).kind ≠ .raw ∧ (Rdmsr.modeOf found).kind ≠ .dec) (carries : Carries host)
    (aims : Aims host items (lastOf processor 0 found) reg) : ∃ line,
      Rdmsr.main source msr program' args' = some
        { status := 0, stdout := Rdmsr.debugLine (msr (lastOf processor 0 found) reg) ++ (line ++ ['\n']) } ∧
      main host program (items.flatMap Item.words ++ [line]) =
        { outcome := { status := 0 }
          writes := [⟨lastOf processor 0 found, reg, .ofNat 64 (Rdmsr.fieldOf found (msr (lastOf processor 0 found) reg))⟩] } ∧
      (found.filterMap Rdmsr.bitfield = [] →
        .ofNat 64 (Rdmsr.fieldOf found (msr (lastOf processor 0 found) reg)) = msr (lastOf processor 0 found) reg) := by
  have value := Rdmsr.numberOf_reads c number (msr (lastOf processor 0 found) reg)
  have operand : (Rdmsr.numberOf found (msr (lastOf processor 0 found) reg)).head? ≠ some '-' :=
    (Rdmsr.plain_text c number _ _).2.1
  refine ⟨_, Rdmsr.main_number msr program' scan named reads number.1, ?_, fun whole => ?_⟩
  · have target := aims.target (List.cons_ne_nil _ []) fun value member => by
      rw [List.mem_singleton.mp member]
      exact operand
    rw [target.carried carries, writesOf, ← value]
    rfl
  · unfold Rdmsr.fieldOf Rdmsr.bitsOf lastOf
    rw [whole]
    show BitVec.ofNat 64 (Rdmsr.part 0 64 _) = _
    unfold Rdmsr.part
    rw [Nat.pow_zero, Nat.div_one, Nat.mod_eq_of_lt (BitVec.isLt _), BitVec.ofNat_toNat, BitVec.setWidth_eq]

/-- `wrmsr` of all that `rdmsr -c` prints, as the shell splits it, writes three other values first:
two zeros for the words of the line for debugging, and the register's hexadecimal digits as C
takes them without a mark. -/
theorem substitutes (msr : MsrFile) (program program' : List Char)
    (scan : Rdmsr.options.getopt none args' = (found, [regno])) (named : (strtoul 0 regno).1.setWidth 32 = reg)
    (reads : Rdmsr.Reads source found reg) (c : (Rdmsr.modeOf found).c = true)
    (number : (Rdmsr.modeOf found).kind ≠ .raw ∧ (Rdmsr.modeOf found).kind ≠ .dec) (carries : Carries host)
    (aims : Aims host items (lastOf processor 0 found) reg) : ∃ stdout,
      Rdmsr.main source msr program' args' = some { status := 0, stdout } ∧
      main host program (items.flatMap Item.words ++ fieldSplit stdout) =
        { outcome := { status := 0 }
          writes := [0, 0, (strtoul 0 (Nat.toDigits 16 (msr (lastOf processor 0 found) reg).toNat)).1,
            .ofNat 64 (Rdmsr.fieldOf found (msr (lastOf processor 0 found) reg))].map
              (⟨lastOf processor 0 found, reg, ·⟩) } := by
  refine ⟨_, Rdmsr.main_number msr program' scan named reads number.1, ?_⟩
  generalize msr (lastOf processor 0 found) reg = data
  have value := Rdmsr.numberOf_reads c number data
  have text := Rdmsr.plain_text c number (Rdmsr.bitsOf found) (Rdmsr.fieldOf found data)
  have one : Rdmsr.numberOf found data ≠ [] := text.1
  have operand : (Rdmsr.numberOf found data).head? ≠ some '-' := text.2.1
  have plain : ∀ c ∈ Rdmsr.numberOf found data, isIfs c = false := text.2.2
  have digits := spells_toDigits (show 1 < 16 by decide) (Nat.le_refl 16) data.toNat
  have hex : ∀ c ∈ Nat.toDigits 16 data.toNat, isIfs c = false ∧ c ≠ '-' := fun c member =>
    Rdmsr.plain_of_isDigit (Nat.le_refl 16) (digits.all c member)
  have words : fieldSplit (Rdmsr.debugLine data ++ (Rdmsr.numberOf found data ++ ['\n'])) =
      ["reg".toList, "data:".toList, Nat.toDigits 16 data.toNat, Rdmsr.numberOf found data] := by
    have lines : Rdmsr.debugLine data ++ (Rdmsr.numberOf found data ++ ['\n']) = "reg".toList ++ ' ' :: ("data:".toList ++
        ' ' :: (Nat.toDigits 16 data.toNat ++ '\n' :: (Rdmsr.numberOf found data ++ '\n' :: []))) := by
      have start : "reg data: ".toList = "reg".toList ++ ' ' :: ("data:".toList ++ [' ']) := by decide
      unfold Rdmsr.debugLine
      rw [start]
      simp only [List.append_assoc, List.cons_append, List.nil_append]
    have first (rest : List Char) : fieldSplit ("reg".toList ++ ' ' :: rest) = "reg".toList :: fieldSplit rest :=
      fieldSplit_word (by decide) (by simp [isIfs]) rfl
    have second (rest : List Char) : fieldSplit ("data:".toList ++ ' ' :: rest) = "data:".toList :: fieldSplit rest :=
      fieldSplit_word (by decide) (by simp [isIfs]) rfl
    have newline : isIfs '\n' = true := rfl
    rw [lines, first, second, fieldSplit_word digits.some (fun c member => (hex c member).1) newline,
      fieldSplit_word one plain newline]
    rfl
  have target := aims.target (List.cons_ne_nil "reg".toList ["data:".toList, Nat.toDigits 16 data.toNat,
    Rdmsr.numberOf found data]) fun value member => by
      simp only [List.mem_cons, List.not_mem_nil, or_false] at member
      rcases member with rfl | rfl | rfl | rfl
      · decide
      · decide
      · intro minus
        exact (hex '-' (List.mem_of_head? minus)).2 rfl
      · exact operand
  rw [words, target.carried carries, writesOf, ← value]
  rfl

end

/-- `rdmsr -c 0x10` and `wrmsr 0x10` -/
theorem restores_tsc : ∃ line,
    Rdmsr.main {} (fun _ _ => 0xABC) "rdmsr".toList ["-c".toList, "0x10".toList] =
      some { status := 0, stdout := Rdmsr.debugLine 0xABC ++ (line ++ ['\n']) } ∧
    main {} "wrmsr".toList ["0x10".toList, line] = { outcome := { status := 0 }, writes := [⟨0, 0x10, 0xABC⟩] } ∧
    ([Found.option 'c' none].filterMap Rdmsr.bitfield = [] → (0xABC : Word) = 0xABC) :=
  @restores {} 0x10 {} _ [.option 'c' none] "0x10".toList [.operand "0x10".toList] (fun _ _ => 0xABC) "wrmsr".toList
    "rdmsr".toList (by decide) (by decide) ⟨by decide, rfl, rfl⟩ rfl (by decide) (fun _ _ _ _ => rfl)
    ⟨by decide, by decide, rfl, ⟨_, rfl, by decide⟩, rfl⟩

/-- `wrmsr 0x10 $(rdmsr -c 0x10)` -/
theorem substitutes_tsc : ∃ stdout,
    Rdmsr.main {} (fun _ _ => 0x12A) "rdmsr".toList ["-c".toList, "0x10".toList] = some { status := 0, stdout } ∧
    main {} "wrmsr".toList ("0x10".toList :: fieldSplit stdout) =
      { outcome := { status := 0 }
        writes := [0, 0, (strtoul 0 (Nat.toDigits 16 0x12A)).1, 0x12A].map (⟨0, 0x10, ·⟩) } :=
  @substitutes {} 0x10 {} _ [.option 'c' none] "0x10".toList [.operand "0x10".toList] (fun _ _ => 0x12A) "wrmsr".toList
    "rdmsr".toList (by decide) (by decide) ⟨by decide, rfl, rfl⟩ rfl (by decide) (fun _ _ _ _ => rfl)
    ⟨by decide, by decide, rfl, ⟨_, rfl, by decide⟩, rfl⟩

end PmcBench.Wrmsr
