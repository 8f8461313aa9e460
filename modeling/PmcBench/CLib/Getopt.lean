import Mathlib.Data.List.Basic

/-!
# Command lines

`getopt_long` of the GNU library: options stand anywhere among the operands up to the
word `--`, short ones may be joined, and long ones may be abbreviated. The words of the
command line are read one by one; an option that needs an argument takes the next word.
-/

namespace CLib

abbrev Arguments := List (List Char)

/-- `struct option` without a `flag`. -/
structure LongOption where
  name : List Char
  hasArg : Bool
  val : Char
  deriving DecidableEq

/-- `optstring` and `longopts`. -/
structure Options where
  short : List Char
  long : List LongOption

/-- Why `getopt_long` refuses an option: a letter or a word that is none, a name that stands for
several, an argument that does not belong there or that is not there. -/
inductive Refusal where
  | invalid (c : Char)
  | unrecognized (word : List Char)
  | ambiguous (word : List Char)
  | superfluous (name : List Char)
  | missing (c : Char)
  | missingLong (name : List Char)
  deriving DecidableEq

/-- What a call of `getopt_long` returns: an option, or `'?'` for one that it has refused. -/
inductive Found where
  | option (val : Char) (optarg : Option (List Char))
  | unknown (why : Refusal)
  deriving DecidableEq

/-- An option at the end of a word, and why it is refused if no word follows. -/
structure Waiting where
  val : Char
  missing : Refusal
  deriving DecidableEq

/-- The option with what follows its name in the word. -/
def LongOption.read (o : LongOption) (value : List Char) : List Found × Option Waiting :=
  match o.hasArg, value with
  | false, [] => ([.option o.val none], none)
  | false, _ :: _ => ([.unknown (.superfluous o.name)], none)
  | true, [] => ([], some ⟨o.val, .missingLong o.name⟩)
  | true, _ :: arg => ([.option o.val (some arg)], none)

namespace LongOption
variable {o : LongOption}

theorem read_flag (noArg : o.hasArg = false) : o.read [] = ([.option o.val none], none) := by
  unfold read
  rw [noArg]

theorem read_waits (takes : o.hasArg = true) : o.read [] = ([], some ⟨o.val, .missingLong o.name⟩) := by
  unfold read
  rw [takes]

theorem read_arg (takes : o.hasArg = true) (arg : List Char) : o.read ('=' :: arg) = ([.option o.val (some arg)], none) := by
  unfold read
  rw [takes]

end LongOption

namespace Options

def takesArg (t : Options) (c : Char) : Option Bool :=
  if c = ':' ∨ c = ';' then none
  else
    match t.short.dropWhile (· ≠ c) with
    | [] => none
    | _ :: rest => some (rest.head? = some ':')

/-- The option of that name, or of which it is an abbreviation; options that mean the
same do not make it ambiguous. -/
def lookup (t : Options) (name : List Char) : Option LongOption :=
  (t.long.find? fun o => o.name = name).or <|
    match t.long.filter fun o => name.isPrefixOf o.name with
    | [] => none
    | o :: others => if others.all fun p => p.hasArg = o.hasArg ∧ p.val = o.val then some o else none

/-- The options of a word, and the one at its end that waits for its argument. -/
def cluster (t : Options) : List Char → List Found × Option Waiting
  | [] => ([], none)
  | c :: rest =>
    match t.takesArg c with
    | some true => if rest = [] then ([], some ⟨c, .missing c⟩) else ([.option c (some rest)], none)
    | some false => (.option c none :: (t.cluster rest).1, (t.cluster rest).2)
    | none => (.unknown (.invalid c) :: (t.cluster rest).1, (t.cluster rest).2)

/-- Why no option has the name of the word. -/
def refusal (t : Options) (word : List Char) : Refusal :=
  if t.long.any fun o => (word.takeWhile (· ≠ '=')).isPrefixOf o.name then .ambiguous word else .unrecognized word

def longWord (t : Options) (word : List Char) : List Found × Option Waiting :=
  match t.lookup (word.takeWhile (· ≠ '=')) with
  | none => ([.unknown (t.refusal word)], none)
  | some o => o.read (word.dropWhile (· ≠ '='))

/-- What the calls of `getopt_long` return, and the operands behind them in the end. -/
def getopt (t : Options) : Option Waiting → Arguments → List Found × Arguments
  | none, [] => ([], [])
  | some waiting, [] => ([.unknown waiting.missing], [])
  | some waiting, arg :: words => (.option waiting.val (some arg) :: (t.getopt none words).1, (t.getopt none words).2)
  | none, word :: words =>
    match word with
    | ['-', '-'] => ([], words)
    | '-' :: '-' :: long =>
      ((t.longWord long).1 ++ (t.getopt (t.longWord long).2 words).1, (t.getopt (t.longWord long).2 words).2)
    | '-' :: c :: more =>
      ((t.cluster (c :: more)).1 ++ (t.getopt (t.cluster (c :: more)).2 words).1,
        (t.getopt (t.cluster (c :: more)).2 words).2)
    | operand => ((t.getopt none words).1, operand :: (t.getopt none words).2)

end Options

/-! ### Command lines that are read back -/

/-- An operand, joined flags, an option with its argument behind joined flags, or a long
option under a name that stands for it. -/
inductive Item where
  | operand (word : List Char)
  | flags (cs : List Char)
  | short (cs : List Char) (c : Char) (arg : List Char) (joined : Bool)
  | long (name : List Char) (o : LongOption)
  | longArg (name : List Char) (o : LongOption) (arg : List Char) (joined : Bool)

namespace Item

def words : Item → Arguments
  | operand word => [word]
  | flags cs => ['-' :: cs]
  | short cs c arg true => ['-' :: (cs ++ c :: arg)]
  | short cs c arg false => ['-' :: (cs ++ [c]), arg]
  | long name _ => ['-' :: '-' :: name]
  | longArg name _ arg true => ['-' :: '-' :: (name ++ '=' :: arg)]
  | longArg name _ arg false => ['-' :: '-' :: name, arg]

def found : Item → List Found
  | operand _ => []
  | flags cs => cs.map fun c => .option c none
  | short cs c arg _ => cs.map (fun c => .option c none) ++ [.option c (some arg)]
  | long _ o => [.option o.val none]
  | longArg _ o arg _ => [.option o.val (some arg)]

def operands : Item → Arguments
  | operand word => [word]
  | _ => []

def Valid (t : Options) : Item → Prop
  | operand word => word.head? = some '-' → word = ['-']
  | flags cs => cs ≠ [] ∧ ∀ c ∈ cs, c ≠ '-' ∧ t.takesArg c = some false
  | short cs c arg joined => (∀ c ∈ cs, c ≠ '-' ∧ t.takesArg c = some false) ∧ c ≠ '-' ∧ t.takesArg c = some true ∧
      (joined = true → arg ≠ [])
  | long name o => name ≠ [] ∧ '=' ∉ name ∧ t.lookup name = some o ∧ o.hasArg = false
  | longArg name o _ _ => name ≠ [] ∧ '=' ∉ name ∧ t.lookup name = some o ∧ o.hasArg = true

instance (t : Options) : (item : Item) → Decidable (item.Valid t)
  | operand _ => inferInstanceAs (Decidable (_ → _))
  | flags cs => @instDecidableAnd _ _ inferInstance (List.decidableBAll _ cs)
  | short cs .. => @instDecidableAnd _ _ (List.decidableBAll _ cs) inferInstance
  | long .. => inferInstanceAs (Decidable (_ ∧ _))
  | longArg .. => inferInstanceAs (Decidable (_ ∧ _))

end Item

namespace Options
variable {t : Options}

theorem cluster_flags {cs : List Char} (flags : ∀ c ∈ cs, c ≠ '-' ∧ t.takesArg c = some false) (rest : List Char) :
    t.cluster (cs ++ rest) = (cs.map (fun c => .option c none) ++ (t.cluster rest).1, (t.cluster rest).2) := by
  induction cs with
  | nil => rfl
  | cons c cs ih =>
    have first := (flags c List.mem_cons_self).2
    rw [List.cons_append, cluster, first, ih fun d member => flags d (List.mem_cons_of_mem c member)]
    rfl

theorem cluster_arg {c : Char} (takes : t.takesArg c = some true) (arg : List Char) :
    t.cluster (c :: arg) = if arg = [] then ([], some ⟨c, .missing c⟩) else ([.option c (some arg)], none) := by
  rw [cluster, takes]

theorem getopt_cluster {c : Char} (other : c ≠ '-') (cs : List Char) (words : Arguments) :
    t.getopt none (('-' :: c :: cs) :: words) = ((t.cluster (c :: cs)).1 ++ (t.getopt (t.cluster (c :: cs)).2 words).1,
      (t.getopt (t.cluster (c :: cs)).2 words).2) := by
  rw [getopt]
  · exact fun same => (other same).elim
  · exact fun same => (other same).elim

theorem getopt_long {name : List Char} (some : name ≠ []) (words : Arguments) :
    t.getopt none (('-' :: '-' :: name) :: words) = ((t.longWord name).1 ++ (t.getopt (t.longWord name).2 words).1,
      (t.getopt (t.longWord name).2 words).2) := by
  rw [getopt]
  exact some

theorem getopt_operand {word : List Char} (plain : word.head? = some '-' → word = ['-']) (words : Arguments) :
    t.getopt none (word :: words) = ((t.getopt none words).1, word :: (t.getopt none words).2) := by
  rw [getopt]
  · rintro rfl
    cases plain rfl
  · rintro long rfl
    cases plain rfl
  · rintro c more rfl
    cases plain rfl

theorem longWord_eq {name : List Char} (plain : '=' ∉ name) {o : LongOption} (named : t.lookup name = some o)
    (value : List Char) (start : ∀ c, value.head? = some c → c = '=') : t.longWord (name ++ value) = o.read value := by
  have all : ∀ c ∈ name, decide (c ≠ '=') = true := by
    rintro c member
    apply decide_eq_true
    rintro rfl
    exact plain member
  have split : (name ++ value).takeWhile (· ≠ '=') = name ∧ (name ++ value).dropWhile (· ≠ '=') = value := by
    rw [List.takeWhile_append_of_pos all, List.dropWhile_append_of_pos all]
    cases value with
    | nil => simp
    | cons c value => simp [start c rfl]
  unfold longWord
  rw [split.1, split.2, named]

theorem getopt_short {cs : List Char} {c : Char} (flags : ∀ c ∈ cs, c ≠ '-' ∧ t.takesArg c = some false) (other : c ≠ '-')
    (rest : List Char) (words : Arguments) : t.getopt none (('-' :: (cs ++ c :: rest)) :: words) =
      (cs.map (fun c => .option c none) ++ ((t.cluster (c :: rest)).1 ++ (t.getopt (t.cluster (c :: rest)).2 words).1),
        (t.getopt (t.cluster (c :: rest)).2 words).2) := by
  have all := cluster_flags flags (c :: rest)
  rw [← List.append_assoc]
  cases cs with
  | nil => exact getopt_cluster other rest words
  | cons d cs =>
    rw [List.cons_append] at all ⊢
    rw [getopt_cluster (flags d List.mem_cons_self).1, all]

theorem getopt_item {item : Item} (valid : item.Valid t) (words : Arguments) :
    t.getopt none (item.words ++ words) =
      (item.found ++ (t.getopt none words).1, item.operands ++ (t.getopt none words).2) := by
  cases item with
  | operand word => exact getopt_operand valid words
  | flags cs =>
    obtain ⟨some, flags⟩ := valid
    have all := cluster_flags flags []
    rw [List.append_nil, cluster, List.append_nil] at all
    cases cs with
    | nil => exact (some rfl).elim
    | cons c cs => exact (getopt_cluster (flags c List.mem_cons_self).1 cs words).trans (by rw [all]; rfl)
  | short cs c arg joined =>
    obtain ⟨flags, other, takes, some⟩ := valid
    cases joined with
    | true =>
      have read := cluster_arg takes arg
      rw [if_neg (some rfl)] at read
      refine (getopt_short flags other arg words).trans ?_
      rw [read, Item.found, List.append_assoc]
      rfl
    | false =>
      have read := cluster_arg takes []
      rw [if_pos rfl] at read
      refine (getopt_short flags other [] (arg :: words)).trans ?_
      rw [read, Item.found, List.append_assoc]
      rfl
  | long name o =>
    obtain ⟨some, plain, named, noArg⟩ := valid
    have read := longWord_eq plain named [] nofun
    rw [List.append_nil, LongOption.read_flag noArg] at read
    refine (getopt_long some words).trans ?_
    rw [read]
    rfl
  | longArg name o arg joined =>
    obtain ⟨some, plain, named, takes⟩ := valid
    cases joined with
    | true =>
      have read := longWord_eq plain named ('=' :: arg) (by rintro c ⟨⟩; rfl)
      rw [LongOption.read_arg takes] at read
      refine (getopt_long (by simp) words).trans ?_
      rw [read]
      rfl
    | false =>
      have read := longWord_eq plain named [] nofun
      rw [List.append_nil, LongOption.read_waits takes] at read
      refine (getopt_long some (arg :: words)).trans ?_
      rw [read]
      rfl

/-- A command line is read as the items it is spelled from. -/
theorem getopt_items {items : List Item} (valid : ∀ item ∈ items, item.Valid t) (rest : Arguments) :
    t.getopt none (items.flatMap Item.words ++ rest) =
      (items.flatMap Item.found ++ (t.getopt none rest).1, items.flatMap Item.operands ++ (t.getopt none rest).2) := by
  induction items with
  | nil => rfl
  | cons item items ih =>
    replace ih := ih fun other member => valid other (List.mem_cons_of_mem item member)
    simp only [List.flatMap_cons, List.append_assoc]
    rw [getopt_item (valid item List.mem_cons_self), ih]

end Options

/-! ### The words of an output -/

def isIfs (c : Char) : Bool := c = ' ' || c = '\t' || c = '\n'

/-- The words that a shell makes of the output of a command. -/
def fieldSplit (s : List Char) : Arguments := (s.splitOnP isIfs).filter (· ≠ [])

theorem fieldSplit_word {word rest : List Char} {blank : Char} (some : word ≠ []) (plain : ∀ c ∈ word, isIfs c = false)
    (ends : isIfs blank = true) : fieldSplit (word ++ blank :: rest) = word :: fieldSplit rest := by
  unfold fieldSplit
  rw [List.splitOnP_append_cons_of_forall_mem plain blank ends]
  exact List.filter_cons_of_pos (decide_eq_true some)

end CLib
