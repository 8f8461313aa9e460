import PmcBench.CsvLog
import PmcBench.Words.Delimited

/-!
# The log as text

What `fprintf` makes of the pieces of the log, and how the log is read back: split at
newlines and tabs, it is the table of the column names and of one row for each recorded
sample, in order.
-/

namespace PmcBench
open Threads Words
open Program (forEach)

variable {b : Build}

/-- `%s`; the C library prints `(null)` for a NULL string. -/
def nameText : Option String → List Char
  | some s => s.toList
  | none => ['(', 'n', 'u', 'l', 'l', ')']

/-- The characters `fprintf` writes. -/
def Piece.text : Piece → List Char
  | .tidTime => ['T', 'I', 'D', '\t', 'T', 'I', 'M', 'E']
  | .name s => '\t' :: nameText s
  | .row tid time => decimal tid ++ '\t' :: decimal time.toNat
  | .value v => '\t' :: decimal v.toNat
  | .newline => ['\n']

def text (log : List Piece) : List Char := log.flatMap Piece.text

/-- The table in a text of newlines and tabs. -/
def readBack (text : List Char) : Option (List (List (List Char))) := Delimited.parse '\t' '\n' text

def bodyText (text : List Char) : List Char := (text.dropWhile (· ≠ '\n')).tail

/-- A recorded sample: its thread, its time stamp and a value for each row of the table. -/
abbrev Sample := Nat × Word × List Word

def samples (b : Build) (threads : Nat) (prof : Nat → Profile) : List Sample :=
  (List.range threads).flatMap fun i => (List.range (prof i).counts).map fun j =>
    (i, (prof i).times.getD j 0, (List.range b.counterTbl.size).map fun c => (prof i).values (c * b.maxPts + j))

/-- The decimal fields of a sample. -/
def Sample.numbers (x : Sample) : List Nat := x.1 :: x.2.1.toNat :: x.2.2.map BitVec.toNat

def headerFields (b : Build) : List (List Char) :=
  ['T', 'I', 'D'] :: ['T', 'I', 'M', 'E'] :: (List.range b.counterTbl.size).map fun c =>
    nameText (b.counterTbl.row c).name

/-- Few enough rows for the `uint8_t` that counts them, with names free of tabs and newlines. -/
structure PlainNames (b : Build) : Prop where
  rows : 1 ≤ b.counterTbl.size
  size : b.counterTbl.size < 256
  tab : ∀ c < b.counterTbl.size, ∀ name, (b.counterTbl.row c).name = some name → '\t' ∉ name.toList
  newline : ∀ c < b.counterTbl.size, ∀ name, (b.counterTbl.row c).name = some name → '\n' ∉ name.toList

/-! ### The pieces as a table -/

theorem Sample.numbers_inj {x y : Sample} (same : x.numbers = y.numbers) : x = y := by
  obtain ⟨i, time, values⟩ := x
  obtain ⟨i', time', values'⟩ := y
  simp only [numbers, List.cons.injEq] at same
  obtain ⟨rfl, times, values⟩ := same
  rw [BitVec.eq_of_toNat_eq times, List.map_injective_iff.mpr (fun _ _ => BitVec.eq_of_toNat_eq) values]

/-- A first field, and each further one behind a tab. -/
theorem intercalate_tab (field : List Char) (fields : List (List Char)) :
    List.intercalate ['\t'] (field :: fields) = field ++ fields.flatMap fun other => '\t' :: other := by
  induction fields generalizing field with
  | nil => simp
  | cons next fields ih => simp [List.intercalate_cons_cons, ih]

theorem text_header (rows : 1 ≤ b.counterTbl.size) (small : b.counterTbl.size < 256) :
    text (csvHeader b) = List.intercalate ['\t'] (headerFields b) ++ ['\n'] := by
  have columns : columns b = List.range b.counterTbl.size := by rw [columns_eq rows, Nat.min_eq_right small.le]
  rw [headerFields, intercalate_tab, List.flatMap_cons, List.flatMap_map]
  simp only [text, csvHeader, columns, List.flatMap_append, List.flatMap_map, List.flatMap_singleton, Piece.text]
  rfl

theorem text_row (rows : 1 ≤ b.counterTbl.size) (small : b.counterTbl.size < 256) (i : Nat) (p : Profile) (j : Nat) :
    text (csvRow b i p j) = List.intercalate ['\t'] ((Sample.numbers (i, p.times.getD j 0,
      (List.range b.counterTbl.size).map fun c => p.values (c * b.maxPts + j))).map decimal) ++ ['\n'] := by
  have columns : columns b = List.range b.counterTbl.size := by rw [columns_eq rows, Nat.min_eq_right small.le]
  rw [Sample.numbers, List.map_cons, List.map_cons, intercalate_tab, List.flatMap_cons, List.flatMap_map, List.flatMap_map,
    List.flatMap_map]
  simp only [text, csvRow, columns, List.flatMap_append, List.flatMap_map, List.flatMap_singleton, Piece.text]
  simp only [List.append_assoc, List.cons_append]

/-- The log is the printed table of the column names and of the samples. -/
theorem text_csv (rows : 1 ≤ b.counterTbl.size) (small : b.counterTbl.size < 256) (threads : Nat) (prof : Nat → Profile) :
    text (csv b threads prof) = Delimited.print '\t' '\n'
      (headerFields b :: (samples b threads prof).map fun x => x.numbers.map decimal) := by
  have body : text ((List.range threads).flatMap fun i => csvRows b i (prof i)) =
      Delimited.print '\t' '\n' ((samples b threads prof).map fun x => x.numbers.map decimal) := by
    unfold text Delimited.print samples csvRows
    rw [List.flatMap_map, List.flatMap_assoc, List.flatMap_assoc]
    apply List.flatMap_congr
    intro i _
    rw [List.flatMap_assoc, List.flatMap_map]
    apply List.flatMap_congr
    intro j _
    exact text_row rows small i (prof i) j
  have split : text (csv b threads prof) = text (csvHeader b) ++
      text ((List.range threads).flatMap fun i => csvRows b i (prof i)) := List.flatMap_append
  rw [split, text_header rows small, body]
  rfl

theorem plainRow_header (names : PlainNames b) : Delimited.PlainRow '\t' '\n' (headerFields b) := by
  have free {d : Char} (first : d ∉ ['T', 'I', 'D']) (second : d ∉ ['T', 'I', 'M', 'E'])
      (others : ∀ c < b.counterTbl.size, ∀ name, (b.counterTbl.row c).name = some name → d ∉ name.toList)
      (field : List Char) (member : field ∈ headerFields b) : d ∉ field := by
    simp only [headerFields, List.mem_cons, List.mem_map, List.mem_range] at member
    rcases member with rfl | rfl | ⟨c, bound, rfl⟩
    · exact first
    · exact second
    · obtain ⟨name, named⟩ := Option.isSome_iff_exists.mp (b.counterTbl.named c bound)
      rw [named]
      exact others c bound name named
  exact ⟨by simp [headerFields], free (by decide) (by decide) names.tab, free (by decide) (by decide) names.newline⟩

theorem plainRow_numbers (x : Sample) : Delimited.PlainRow '\t' '\n' (x.numbers.map decimal) :=
  Delimited.plainRow_decimals (by decide) (by decide) (List.cons_ne_nil _ _)

theorem readBack_csv (names : PlainNames b) (threads : Nat) (prof : Nat → Profile) :
    readBack (text (csv b threads prof)) =
      some (headerFields b :: (samples b threads prof).map fun x => x.numbers.map decimal) := by
  rw [readBack, text_csv names.rows names.size]
  refine Delimited.parse_print (fun row member => ?_) (by decide)
  rcases List.mem_cons.mp member with rfl | member
  · exact plainRow_header names
  · obtain ⟨x, -, rfl⟩ := List.mem_map.mp member
    exact plainRow_numbers x

/-- The body is the printed table of the samples alone. -/
theorem bodyText_csv (names : PlainNames b) (threads : Nat) (prof : Nat → Profile) :
    bodyText (text (csv b threads prof)) =
      Delimited.print '\t' '\n' ((samples b threads prof).map fun x => x.numbers.map decimal) := by
  have header := (plainRow_header names).stop_notMem (by decide)
  rw [text_csv names.rows names.size, Delimited.print, List.flatMap_cons, List.append_assoc, bodyText,
    List.dropWhile_append_of_pos]
  · rfl
  · intro c member
    exact decide_eq_true fun same => header (same ▸ member)

/-- Equal bodies have equal samples. -/
theorem samples_inj (names : PlainNames b) {threads threads' : Nat} {prof prof' : Nat → Profile}
    (same : bodyText (text (csv b threads prof)) = bodyText (text (csv b threads' prof'))) :
    samples b threads prof = samples b threads' prof' := by
  rw [bodyText_csv names, bodyText_csv names] at same
  have plain (l : List Sample) : ∀ row ∈ l.map fun x => x.numbers.map decimal, Delimited.PlainRow '\t' '\n' row := by
    intro row member
    obtain ⟨x, -, rfl⟩ := List.mem_map.mp member
    exact plainRow_numbers x
  have parsed := congrArg (Delimited.parse '\t' '\n') same
  rw [Delimited.parse_print (plain _) (by decide), Delimited.parse_print (plain _) (by decide)] at parsed
  have injective : Function.Injective fun x : Sample => x.numbers.map decimal := by
    intro x y equal
    exact Sample.numbers_inj (List.map_injective_iff.mpr (fun _ _ => decimal_inj) equal)
  exact List.map_injective_iff.mpr injective (Option.some.inj parsed)

/-! ### main writes it -/

namespace Solo
variable {luck : Luck} {s : Solo}

def wrote (s : Solo) (l : List Piece) : Solo := s.inWorld { s.world with file := some l }

theorem prints (b : Build) (luck : Luck) (s : Solo) :
    Prints (.ofHandler (handle b luck) fun _ _ => False) fun l t => t = s.wrote l where
  moves _ step := step.elim
  fprintf {l t} p wrote := by
    subst wrote
    refine ⟨nofun, fun r u step => ?_⟩
    exact (Prod.mk.inj (Option.some.inj step)).2.symm

theorem printsThread (b : Build) (luck : Luck) (s : Solo) (i : Nat) :
    PrintsThread b (.ofHandler (handle b luck) fun _ _ => False) (fun l t => t = s.wrote l) i
      (s.world.worker i).mem.prof (· < (s.world.worker i).mem.prof.times.length) where
  toPrints := prints b luck s
  argsCounts {l t} wrote := by
    subst wrote
    refine ⟨nofun, fun r u step => ?_⟩
    obtain ⟨rfl, rfl⟩ := Prod.mk.inj (Option.some.inj step)
    exact ⟨rfl, rfl⟩
  argsTimes {l t j} bound wrote := by
    subst wrote
    have found : handle b luck (s.wrote l) (.argsTimes i j) =
        ((s.world.worker i).mem.prof.times[j]?).map fun time => (time, s.wrote l) := rfl
    refine ⟨fun refused => ?_, fun r u step => ?_⟩
    · rw [found, List.getElem?_eq_getElem bound] at refused
      cases refused
    · obtain ⟨time, there, same⟩ := Option.map_eq_some_iff.mp (found.symm.trans step)
      obtain ⟨rfl, rfl⟩ := Prod.mk.inj same
      exact ⟨there, rfl⟩
  argsValues {l t c j} wrote := by
    subst wrote
    refine ⟨nofun, fun r u step => ?_⟩
    obtain ⟨rfl, rfl⟩ := Prod.mk.inj (Option.some.inj step)
    exact ⟨rfl, rfl⟩

/-- The threads have finished, with a time stamp for each sample they counted. -/
def Recorded (threads : Nat) (s : Solo) : Prop := ∀ i < threads, (s.world.worker i).finished = true ∧
  (s.world.worker i).mem.prof.counts ≤ (s.world.worker i).mem.prof.times.length

theorem exec_writeLog {threads : Nat} (opens : luck.fopens = true) (recorded : s.Recorded threads) :
    (writeLog b threads).exec (handle b luck) s =
      (some (), s.wrote (csv b threads fun i => (s.world.worker i).mem.prof)) := by
  have joined (i : Nat) (member : i ∈ List.range threads) (l : List Piece) (t : Solo) (wrote : t = s.wrote l) : (do
      perform (.join i)
      printRows b i : Prog Unit).wp (.ofHandler (handle b luck) fun _ _ => False)
      (fun _ u => u = s.wrote (l ++ csvRows b i (s.world.worker i).mem.prof)) t := by
    subst wrote
    obtain ⟨done, enough⟩ := recorded i (List.mem_range.mp member)
    have answer : handle b luck (s.wrote l) (.join i) = some ((), s.wrote l) := if_pos done
    refine (Program.wp_act_still fun _ _ => id).mpr ⟨fun refused => ?_, fun r u step => ?_⟩
    · rw [answer] at refused
      cases refused
    · obtain rfl := (Prod.mk.inj (Option.some.inj (answer.symm.trans step))).2
      exact Program.wp_mono ((printsThread b luck s i).wp_printRows (fun j below => Nat.lt_of_lt_of_le below enough) rfl)
        fun _ _ => And.right
  have opened : handle b luck s .fopen = some (true, s.wrote []) := by
    simp only [handle, opens, if_true]
    rfl
  have proved : (writeLog b threads).wp (.ofHandler (handle b luck) fun _ _ => False)
      (fun _ t => t = s.wrote (csv b threads fun i => (s.world.worker i).mem.prof)) s := by
    refine (Program.wp_act_still fun _ _ => id).mpr ⟨fun refused => ?_, fun r u step => ?_⟩
    · rw [opened] at refused
      cases refused
    · obtain ⟨rfl, rfl⟩ := Prod.mk.inj (Option.some.inj (opened.symm.trans step))
      show (printHeader b >>= fun _ => _).wp _ _ _
      exact Program.wp_seq ((prints b luck s).wp_printHeader rfl) fun _ t wrote =>
        (prints b luck s).wp_forEach _ _ joined wrote
  rcases Program.wp_exec proved with ⟨_, t, ran, rfl⟩ | ⟨_, _, _, _, stop⟩
  · exact ran
  · exact stop.elim

end Solo

/-! ### The round trip -/

/-- What splitting a log at newlines and tabs gives: the names of the columns, a row as wide
as that for each sample, with the numbers of the sample, and so none for a thread without. -/
structure ReadsBack (b : Build) (threads : Nat) (prof : Nat → Profile) (rows : List (List (List Char))) : Prop where
  width : ∀ row ∈ rows, row.length = (headerFields b).length
  numbers : rows.map (List.mapM parseDecimal) = (samples b threads prof).map fun x => some x.numbers
  silent : ∀ i, (prof i).counts = 0 → ∀ row ∈ rows, row.head?.bind parseDecimal ≠ some i

theorem readsBack_samples (threads : Nat) (prof : Nat → Profile) :
    ReadsBack b threads prof ((samples b threads prof).map fun x => x.numbers.map decimal) := by
  have ofSample {x : Sample} (member : x ∈ samples b threads prof) :
      x.2.2.length = b.counterTbl.size ∧ (prof x.1).counts ≠ 0 := by
    obtain ⟨i, -, member⟩ := List.mem_flatMap.mp member
    obtain ⟨j, bound, rfl⟩ := List.mem_map.mp member
    exact ⟨by simp, Nat.ne_zero_of_lt (List.mem_range.mp bound)⟩
  constructor
  · intro row member
    obtain ⟨x, here, rfl⟩ := List.mem_map.mp member
    simp [Sample.numbers, headerFields, (ofSample here).1]
  · rw [List.map_map]
    exact List.map_congr_left fun x _ => mapM_parseDecimal x.numbers
  · intro i none row member same
    obtain ⟨x, here, rfl⟩ := List.mem_map.mp member
    simp only [Sample.numbers, List.map_cons, List.head?_cons, Option.bind_some, parseDecimal_decimal,
      Option.some.injEq] at same
    exact (ofSample here).2 (same ▸ none)

/-- `main` writes a log that is read back exactly; logs with the same body have the same
samples. -/
theorem writeLog_readBack (names : PlainNames b) {luck : Luck} (opens : luck.fopens = true) {threads : Nat} {s : Solo}
    (recorded : s.Recorded threads) :
    ∃ t log, (writeLog b threads).exec (Solo.handle b luck) s = (some (), t) ∧ t.world.file = some log ∧
      (∃ rows, readBack (text log) = some (headerFields b :: rows) ∧
        ReadsBack b threads (fun i => (s.world.worker i).mem.prof) rows) ∧
      ∀ (luck' : Luck) (threads' : Nat) (s' t' : Solo) (log' : List Piece), luck'.fopens = true → s'.Recorded threads' →
        (writeLog b threads').exec (Solo.handle b luck') s' = (some (), t') → t'.world.file = some log' →
        bodyText (text log') = bodyText (text log) →
        samples b threads' (fun i => (s'.world.worker i).mem.prof) =
          samples b threads fun i => (s.world.worker i).mem.prof := by
  refine ⟨_, _, Solo.exec_writeLog opens recorded, rfl, ⟨_, readBack_csv names .., readsBack_samples ..⟩, ?_⟩
  intro luck' threads' s' t' log' opens' recorded' ran written same
  rw [Solo.exec_writeLog opens' recorded'] at ran
  obtain rfl := (Prod.mk.inj ran).2
  obtain rfl := Option.some.inj written
  exact samples_inj names same

/-- Two threads, one with a sample and one without. -/
theorem writeLog_readBack_dedos07 : ∃ s : Solo, ∃ t log,
    (writeLog dedos07 2).exec (Solo.handle dedos07 {}) s = (some (), t) ∧ t.world.file = some log ∧
      (∃ rows, readBack (text log) = some (headerFields dedos07 :: rows) ∧
        ReadsBack dedos07 2 (fun i => (s.world.worker i).mem.prof) rows) ∧
      ∀ (luck' : Luck) (threads' : Nat) (s' t' : Solo) (log' : List Piece), luck'.fopens = true → s'.Recorded threads' →
        (writeLog dedos07 threads').exec (Solo.handle dedos07 luck') s' = (some (), t') → t'.world.file = some log' →
        bodyText (text log') = bodyText (text log) →
        samples dedos07 threads' (fun i => (s'.world.worker i).mem.prof) =
          samples dedos07 2 fun i => (s.world.worker i).mem.prof := by
  have names : PlainNames dedos07 := by
    constructor <;> decide
  let one : Worker := ⟨true, true, true, 1, ⟨1, 0, 1⟩, ⟨⟨fun _ => 7, 1, [12]⟩, fun _ => none⟩⟩
  let none : Worker := ⟨true, true, true, 2, ⟨0, 1, 2⟩, ⟨⟨fun _ => 0, 0, []⟩, fun _ => .none⟩⟩
  refine ⟨{ world := { World.idle with worker := fun i => if i = 0 then one else none } },
    writeLog_readBack names rfl fun i bound => ?_⟩
  rcases i with _ | _ | i
  · exact ⟨rfl, Nat.le_refl _⟩
  · exact ⟨rfl, Nat.le_refl _⟩
  · omega

end PmcBench
