import PmcBench.EndToEnd
import PmcBench.LogText
import PmcBench.SampleLog
import Mathlib.Algebra.Group.Nat.Defs
import Mathlib.Order.Bounds.Basic

/-!
# The plots of a log (plot_script.py)

The script reads the log that `main` has written and draws, for six of the counters, a
point for each row: the time since the earliest one, the value, and the thread. What it
asks of pandas and seaborn is a parameter, with the documented behaviour as hypotheses.
`plot_of_closing` follows the points back to the threads that took the samples, and
`plot_countsEvents` to the events that the counters counted.
-/

namespace PmcBench
open Threads

variable {b : Build} {hw : Pmu} {cpus : List Cpu} {func : Nat → Benchmark} {iterations : Nat → Nat}

namespace PlotScript

structure Point where
  x : Nat
  y : Nat
  tid : Nat
  deriving DecidableEq

/-! ### The script -/

/-- The calls of the script to pandas and seaborn; `none` is an exception. A column of numbers
is the list of them. -/
structure Packages where
  DataFrame : Type
  /-- `pd.read_csv(f, delimiter='\t')`, by the text of the file. -/
  readCsv : List Char → Option DataFrame
  /-- `df['name']`, by which the other calls are described. -/
  column : DataFrame → String → Option (List Nat)
  /-- `df.TIME`. -/
  time : DataFrame → Option (List Nat)
  /-- `column - number`. -/
  subtract : List Nat → Nat → List Nat
  /-- `df.TIME = column`. -/
  setTime : DataFrame → List Nat → DataFrame
  /-- `sns.scatterplot(x=column, y=name, data=df, hue=name)`, by the points that it draws, as they
  are before a drawing rounds them. -/
  scatterplot : List Nat → String → DataFrame → String → Option (List Point)

def cols : List String := ["L2_REFS", "L2_MISSES", "L2_RFO_HITS", "L2_RFO_MISSES", "OFFCORE_RFO", "L3_REFS"]

/-- The points of each scatter plot. Python's `min` raises an exception for no times. -/
def plot (py : Packages) (text : List Char) : Option (List (String × List Point)) := do
  let df ← py.readCsv text
  let times ← py.time df
  let earliest ← times.min?
  let df := py.setTime df (py.subtract times earliest)
  cols.mapM fun col => do
    let times ← py.time df
    let points ← py.scatterplot times col df "TID"
    pure (col, points)

/-! ### pandas and seaborn -/

/-- The column under a name in a table of numbers. -/
def columnOf (names : List (List Char)) (rows : List (List Nat)) (name : String) : Option (List Nat) :=
  (names.idxOf? name.toList).map fun k => rows.map fun row => row.getD k 0

/-- A name of letters, digits and underscores, which `read_csv` takes as it stands. -/
def PlainName (name : List Char) : Prop := name ≠ [] ∧ name.all (fun c => c.isAlphanum || decide (c = '_')) = true

instance (name : List Char) : Decidable (PlainName name) := inferInstanceAs (Decidable (_ ∧ _))

theorem PlainName.not_mem {name : List Char} (plain : PlainName name) {c : Char}
    (other : (c.isAlphanum || decide (c = '_')) = false) : c ∉ name := by
  intro member
  have fine := List.all_eq_true.mp plain.2 c member
  rw [other] at fine
  cases fine

/-- The documented behaviour of the calls. -/
structure Packages.Documented (py : Packages) : Prop where
  /-- The first line names the columns, and the others are the rows; integers of up to 64 bits
  are read as they are. -/
  readCsv : ∀ (names : List (List Char)) (rows : List (List Nat)), names ≠ [] → names.Nodup →
    (∀ name ∈ names, PlainName name) → (∀ row ∈ rows, row.length = names.length ∧ ∀ n ∈ row, n < 2 ^ 64) → ∃ df,
      py.readCsv (Words.Delimited.print '\t' '\n' (names :: rows.map fun row => row.map Words.decimal)) = some df ∧
      ∀ name, py.column df name = columnOf names rows name
  /-- Element by element. -/
  subtract : ∀ column n, (∀ m ∈ column, n ≤ m) → py.subtract column n = column.map (· - n)
  time : ∀ df, py.time df = py.column df "TIME"
  /-- A column is replaced by one of the same length. -/
  setTime_time : ∀ df old column, py.column df "TIME" = some old → column.length = old.length →
    py.column (py.setTime df column) "TIME" = some column
  setTime_other : ∀ df old column other, py.column df "TIME" = some old → column.length = old.length →
    other ≠ "TIME" → py.column (py.setTime df column) other = py.column df other
  /-- A point for each row, in the colour of its `hue`. -/
  scatterplot : ∀ xs y df hue ys hues, py.column df y = some ys → py.column df hue = some hues →
    xs.length = ys.length → xs.length = hues.length →
    py.scatterplot xs y df hue = some ((xs.zip (ys.zip hues)).map fun row => ⟨row.1, row.2.1, row.2.2⟩)
  /-- A name that is no column is an error. -/
  missing : ∀ xs y df hue, py.column df y = none → py.scatterplot xs y df hue = none

/-- Calls that behave so on tables of numbers: a frame is what it has under each name. -/
def tables : Packages where
  DataFrame := String → Option (List Nat)
  readCsv text := do
    let table ← readBack text
    let names ← table.head?
    let rows ← table.tail.mapM (List.mapM Words.parseDecimal)
    pure (columnOf names rows)
  column df name := df name
  time df := df "TIME"
  subtract column n := column.map (· - n)
  setTime df column := fun other => if other = "TIME" then some column else df other
  scatterplot xs y df hue := do
    let ys ← df y
    let hues ← df hue
    pure ((xs.zip (ys.zip hues)).map fun row => ⟨row.1, row.2.1, row.2.2⟩)

/-- A computation gives a result for each element of a list. -/
theorem mapM_eq_some {α β : Type} {f : α → Option β} {l : List α} {l' : List β} :
    l.mapM f = some l' ↔ l.map f = l'.map some := by
  induction l generalizing l' with
  | nil => cases l' <;> simp
  | cons a l ih =>
    rw [List.mapM_cons, List.map_cons]
    cases l' with
    | nil => cases f a <;> cases l.mapM f <;> simp
    | cons b' l' =>
      rw [List.map_cons, List.cons.injEq, ← ih]
      cases f a <;> cases l.mapM f <;> simp

theorem exists_map_some {α β : Type} {f : α → Option β} {l : List α} :
    (∃ l' : List β, l.map f = l'.map some) ↔ ∀ a ∈ l, (f a).isSome := by
  constructor
  · rintro ⟨l', same⟩ a member
    have image : f a ∈ l'.map some := same ▸ List.mem_map_of_mem member
    obtain ⟨b, -, found⟩ := List.mem_map.mp image
    rw [← found]; rfl
  · intro all
    induction l with
    | nil => exact ⟨[], rfl⟩
    | cons a l ih =>
      obtain ⟨b, found⟩ := Option.isSome_iff_exists.mp (all a List.mem_cons_self)
      obtain ⟨l', same⟩ := ih fun x member => all x (List.mem_cons_of_mem a member)
      exact ⟨b :: l', by rw [List.map_cons, found, same, List.map_cons]⟩

theorem tables_documented : tables.Documented where
  readCsv names rows some _ plain fits := by
    have whole : ∀ row ∈ names :: rows.map (fun row => row.map Words.decimal), Words.Delimited.PlainRow '\t' '\n' row := by
      intro row member
      rcases List.mem_cons.mp member with rfl | member
      · exact ⟨some, fun name there => (plain name there).not_mem (by decide), fun name there => (plain name there).not_mem (by decide)⟩
      · obtain ⟨numbers, there, rfl⟩ := List.mem_map.mp member
        apply Words.Delimited.plainRow_decimals (by decide) (by decide)
        exact List.ne_nil_of_length_pos ((fits numbers there).1 ▸ List.length_pos_of_ne_nil some)
    have numbers : (rows.map fun row => row.map Words.decimal).mapM (List.mapM Words.parseDecimal) = .some rows := by
      rw [mapM_eq_some, List.map_map]
      exact List.map_congr_left fun row _ => Words.mapM_parseDecimal row
    refine ⟨columnOf names rows, ?_, fun _ => rfl⟩
    simp only [tables, readBack, Words.Delimited.parse_print whole (by decide), Option.bind_eq_bind, Option.bind_some,
      List.head?_cons, List.tail_cons, numbers]
    rfl
  subtract _ _ _ := rfl
  time _ := rfl
  setTime_time _ _ _ _ _ := by simp [tables]
  setTime_other _ _ _ _ _ _ different := if_neg different
  scatterplot xs y df hue ys hues first second _ _ := by
    show (df y >>= fun ys => df hue >>= fun hues => _) = _
    rw [show df y = some ys from first, show df hue = some hues from second]
    rfl
  missing xs y df hue none := by
    show (df y >>= fun ys => _) = _
    rw [show df y = .none from none]
    rfl

/-! ### The columns of a log -/

/-- The row of the counter table under that name. -/
def rowOf (b : Build) (col : String) : Option Nat :=
  ((List.range b.counterTbl.size).map fun c => nameText (b.counterTbl.row c).name).idxOf? col.toList

/-- Column names that are taken as they stand, each once, for fewer rows than a `uint8_t`
counts. -/
structure CsvNames (b : Build) : Prop where
  rows : 1 ≤ b.counterTbl.size
  size : b.counterTbl.size < 256
  distinct : (headerFields b).Nodup
  plain : ∀ name ∈ headerFields b, PlainName name

abbrev logColumn (b : Build) (xs : List Sample) : String → Option (List Nat) :=
  columnOf (headerFields b) (xs.map Sample.numbers)

theorem column_time (xs : List Sample) : logColumn b xs "TIME" = some (xs.map fun x => x.2.1.toNat) := by
  have index : (headerFields b).idxOf? "TIME".toList = some 1 := by
    simp [headerFields, List.idxOf?_cons]
  rw [logColumn, columnOf, index]
  simp [Sample.numbers]

theorem column_tid (xs : List Sample) : logColumn b xs "TID" = some (xs.map Prod.fst) := by
  have index : (headerFields b).idxOf? "TID".toList = some 0 := by
    simp [headerFields, List.idxOf?_cons]
  rw [logColumn, columnOf, index]
  simp [Sample.numbers]

theorem column_counter (xs : List Sample) {col : String} (member : col ∈ cols) :
    logColumn b xs col = (rowOf b col).map fun c => xs.map fun x => (x.2.2.map BitVec.toNat).getD c 0 := by
  have other : col.toList ≠ ['T', 'I', 'D'] ∧ col.toList ≠ ['T', 'I', 'M', 'E'] := by
    revert col
    decide
  have index : (headerFields b).idxOf? col.toList = (rowOf b col).map (· + 2) := by
    rw [headerFields, List.idxOf?_cons, List.idxOf?_cons, if_neg (by simpa using other.1.symm),
      if_neg (by simpa using other.2.symm), Option.map_map]
    rfl
  rw [logColumn, columnOf, index]
  cases rowOf b col with
  | none => rfl
  | some c => simp [Sample.numbers]

theorem rowOf_lt {col : String} {row : Nat} (found : rowOf b col = some row) : row < b.counterTbl.size := by
  rw [rowOf, List.idxOf?, List.findIdx?_eq_some_iff_getElem] at found
  obtain ⟨bound, -⟩ := found
  simpa using bound

/-- The point of a sample. -/
def point (earliest c : Nat) (x : Sample) : Point := ⟨x.2.1.toNat - earliest, (x.2.2.map BitVec.toNat).getD c 0, x.1⟩

section
variable {py : Packages}

/-- The log is a table that is read as it stands. -/
theorem readCsv_csv (documented : py.Documented) (names : CsvNames b) {threads : Nat} (few : threads < 2 ^ 32)
    (prof : Nat → Profile) : ∃ df, py.readCsv (text (csv b threads prof)) = some df ∧
      ∀ name, py.column df name = logColumn b (samples b threads prof) name := by
  have numbers (row : List Nat) (member : row ∈ (samples b threads prof).map Sample.numbers) :
      row.length = (headerFields b).length ∧ ∀ n ∈ row, n < 2 ^ 64 := by
    obtain ⟨x, there, rfl⟩ := List.mem_map.mp member
    obtain ⟨i, bound, there⟩ := List.mem_flatMap.mp there
    obtain ⟨j, -, rfl⟩ := List.mem_map.mp there
    refine ⟨by simp [Sample.numbers, headerFields], ?_⟩
    simp only [Sample.numbers, List.mem_cons, List.mem_map]
    rintro n (rfl | rfl | ⟨value, -, rfl⟩)
    · exact Nat.lt_trans (List.mem_range.mp bound) (Nat.lt_trans few (by decide))
    · exact BitVec.isLt _
    · exact value.isLt
  have read := documented.readCsv (headerFields b) ((samples b threads prof).map Sample.numbers) (List.cons_ne_nil _ _)
    names.distinct names.plain numbers
  rw [List.map_map] at read
  rwa [text_csv names.rows names.size]

/-- What is drawn of a frame whose columns are those of a log. -/
theorem plot_csv (documented : py.Documented) (names : CsvNames b) {threads : Nat} (few : threads < 2 ^ 32)
    {prof : Nat → Profile} {plots : List (String × List Point)} :
    plot py (text (csv b threads prof)) = some plots ↔
      ∃ earliest, ((samples b threads prof).map fun x => x.2.1.toNat).min? = some earliest ∧
        cols.map (fun col => (rowOf b col).map fun c => (col, (samples b threads prof).map (point earliest c))) =
          plots.map some := by
  obtain ⟨df, read, columns⟩ := readCsv_csv documented names few prof
  generalize samples b threads prof = xs at columns
  have times : py.column df "TIME" = some (xs.map fun x => x.2.1.toNat) := (columns "TIME").trans (column_time xs)
  rw [plot, read, Option.bind_eq_bind, Option.bind_some, documented.time, times, Option.bind_eq_bind, Option.bind_some,
    Option.bind_eq_bind, Option.bind_eq_some_iff]
  refine exists_congr fun earliest => and_congr_right fun least => ?_
  have since := documented.subtract _ earliest (List.min?_eq_some_iff.mp least).2
  have length : (py.subtract (xs.map fun x => x.2.1.toNat) earliest).length = (xs.map fun x => x.2.1.toNat).length := by
    rw [since, List.length_map]
  have kept (col : String) (other : col ≠ "TIME") : py.column (py.setTime df _) col = logColumn b xs col :=
    (documented.setTime_other df _ _ col times length other).trans (columns col)
  dsimp only
  rw [documented.time, documented.setTime_time df _ _ times length, mapM_eq_some]
  refine Eq.congr_left (List.map_congr_left fun col member => ?_)
  have other : col ≠ "TIME" := by
    revert col
    decide
  have values := (kept col other).trans (column_counter xs member)
  have tids := (kept "TID" (by decide)).trans (column_tid xs)
  rw [Option.bind_eq_bind, Option.bind_some]
  cases row : rowOf b col with
  | none =>
    rw [row] at values
    rw [documented.missing _ _ _ _ values]
    rfl
  | some c =>
    rw [row, Option.map_some] at values
    rw [documented.scatterplot _ _ _ _ _ _ values tids (by simp [since]) (by simp [since]), since]
    simp [point, List.zip_map']

end

/-! ### The points of a run -/

section
variable {py : Packages} {C : List (Ev hw) → World → Ev hw → Prop} {s : World} {tr : List (Ev hw)}
  {c : Config Tid Action Action.Res World}

/-- The points of the row `row` of the counter table: one for each time that a thread has
asked for. -/
def pointsOf (maxPts threads : Nat) (tr : List (Ev hw)) (prof : Nat → Profile) (earliest row : Nat) : List Point :=
  (List.range threads).flatMap fun i => (stamps i tr).mapIdx fun k time =>
    ⟨time.toNat - earliest, ((prof i).values (row * maxPts + k)).toNat, i⟩

theorem samples_of_closing (initial : s.Initial) (run : (process b hw).Run C ⟨s, pool b cpus func iterations⟩ tr c)
    (closing : Closing c) : samples b cpus.length (fun i => (c.state.worker i).mem.prof) =
      (List.range cpus.length).flatMap fun i => (stamps i tr).mapIdx fun k time =>
        (i, time, (List.range b.counterTbl.size).map fun row => (c.state.worker i).mem.prof.values (row * b.maxPts + k)) := by
  apply List.flatMap_congr
  intro i member
  obtain ⟨counts, times, -⟩ := recorded_of_closing initial run closing (List.mem_range.mp member)
  rw [counts, times]
  refine List.ext_getElem (by simp) fun k bound _ => ?_
  have inside : k < (stamps i tr).length := by simpa using bound
  simp only [List.getElem_map, List.getElem_range, List.getElem_mapIdx]
  rw [List.getD_eq_getElem?_getD, List.getElem?_eq_getElem inside, Option.getD_some]

theorem mem_times (initial : s.Initial) (run : (process b hw).Run C ⟨s, pool b cpus func iterations⟩ tr c)
    (closing : Closing c) {t : Nat} :
    t ∈ ((samples b cpus.length fun i => (c.state.worker i).mem.prof).map fun x => x.2.1.toNat) ↔
      ∃ i < cpus.length, ∃ time ∈ stamps i tr, time.toNat = t := by
  have asked (i : Nat) : ((stamps i tr).mapIdx fun k time => (i, time, (List.range b.counterTbl.size).map fun row =>
      (c.state.worker i).mem.prof.values (row * b.maxPts + k))).map (fun x => x.2.1.toNat) =
        (stamps i tr).map BitVec.toNat :=
    List.ext_getElem (by simp) fun k _ _ => by simp
  rw [samples_of_closing initial run closing, List.map_flatMap]
  simp only [asked, List.mem_flatMap, List.mem_range, List.mem_map]

theorem points_of_closing (initial : s.Initial) (run : (process b hw).Run C ⟨s, pool b cpus func iterations⟩ tr c)
    (closing : Closing c) {earliest row : Nat} (bound : row < b.counterTbl.size) :
    (samples b cpus.length fun i => (c.state.worker i).mem.prof).map (point earliest row) =
      pointsOf b.maxPts cpus.length tr (fun i => (c.state.worker i).mem.prof) earliest row := by
  rw [samples_of_closing initial run closing, List.map_flatMap]
  apply List.flatMap_congr
  intro i _
  refine List.ext_getElem (by simp) fun k _ _ => ?_
  simp [point, bound]

theorem min_of_closing (initial : s.Initial) (run : (process b hw).Run C ⟨s, pool b cpus func iterations⟩ tr c)
    (closing : Closing c) {earliest : Nat} :
    ((samples b cpus.length fun i => (c.state.worker i).mem.prof).map fun x => x.2.1.toNat).min? = some earliest ↔
      IsLeast {t | ∃ i < cpus.length, ∃ time ∈ stamps i tr, time.toNat = t} earliest := by
  rw [List.min?_eq_some_iff]
  simp only [mem_times initial run closing]
  rfl

theorem sampled_of_closing (initial : s.Initial) (run : (process b hw).Run C ⟨s, pool b cpus func iterations⟩ tr c)
    (closing : Closing c) :
    (∃ earliest, IsLeast {t | ∃ i < cpus.length, ∃ time ∈ stamps i tr, time.toNat = t} earliest) ↔
      ∃ i < cpus.length, stamps i tr ≠ [] := by
  simp only [← min_of_closing initial run closing]
  rw [← Option.isSome_iff_exists, List.isSome_min?_iff]
  constructor
  · intro some
    obtain ⟨t, member⟩ := List.exists_mem_of_ne_nil _ some
    obtain ⟨i, bound, time, asked, -⟩ := (mem_times initial run closing).mp member
    exact ⟨i, bound, List.ne_nil_of_mem asked⟩
  · rintro ⟨i, bound, some⟩
    obtain ⟨time, asked⟩ := List.exists_mem_of_ne_nil _ some
    exact List.ne_nil_of_mem ((mem_times initial run closing).mpr ⟨i, bound, time, asked, rfl⟩)

theorem drawn_of_closing (documented : py.Documented) (names : CsvNames b) (few : cpus.length < 2 ^ 32) (initial : s.Initial)
    (run : (process b hw).Run C ⟨s, pool b cpus func iterations⟩ tr c) (closing : Closing c) {log : List Piece}
    (file : c.state.file = some log) {plots : List (String × List Point)} : plot py (text log) = some plots ↔
      ∃ earliest, IsLeast {t | ∃ i < cpus.length, ∃ time ∈ stamps i tr, time.toNat = t} earliest ∧
        cols.map (fun col => (rowOf b col).map fun row =>
          (col, pointsOf b.maxPts cpus.length tr (fun i => (c.state.worker i).mem.prof) earliest row)) =
            plots.map some := by
  obtain rfl := (csv_of_closing initial run closing).file log file
  simp only [desk]
  rw [plot_csv documented names few]
  refine exists_congr fun earliest => and_congr (min_of_closing initial run closing) ?_
  refine Eq.congr_left (List.map_congr_left fun col _ => Option.map_congr fun row found => ?_)
  rw [points_of_closing initial run closing (rowOf_lt found)]

/-- The value of a point is the number of events between the readings of its sample. -/
theorem pointsOf_between (full : FullTable b) (small : b.counterTbl.size < 256) (own : ReadsOwn b)
    (room : ∀ i < cpus.length, (func i).samples (iterations i) ≤ b.maxPts) (initial : s.Initial)
    (run : (process b hw).Run AllOk ⟨s, pool b cpus func iterations⟩ tr c)
    (fits : ∀ before, before <+: tr → Fits b hw cpus before) (closing : Closing c) {earliest row : Nat} (custom : row < 8) :
    pointsOf b.maxPts cpus.length tr (fun i => (c.state.worker i).mem.prof) earliest row =
      (List.range cpus.length).flatMap fun i => List.zipWith (fun time events => ⟨time.toNat - earliest, events, i⟩)
        (stamps i tr) (between b (cpus.getD i 0) i row tr) := by
  apply List.flatMap_congr
  intro i member
  have bound := List.mem_range.mp member
  have finished := (csv_of_closing initial run closing).finished i bound
  obtain ⟨-, booked⟩ := complete_of_closing full small.le own room initial run fits finished
  have closed : between b (cpus.getD i 0) i row tr = recorded b (gauge b cpus i tr c.state) row _ :=
    congrArg Meter.closed (booked row custom)
  have length := (recorded_of_closing initial run closing bound).2.2
  rw [closed, recorded, ← length]
  exact List.ext_getElem (by simp) fun k _ _ => by simp [gauge]

/-- What the script draws of the log of a run that closes it: for each of its columns a point
for each time that a thread has asked for, if there is such a time and the counter table has
the columns. -/
theorem plot_of_closing (documented : py.Documented) (names : CsvNames b) (few : cpus.length < 2 ^ 32) (initial : s.Initial)
    (run : (process b hw).Run C ⟨s, pool b cpus func iterations⟩ tr c) (closing : Closing c) {log : List Piece}
    (file : c.state.file = some log) :
    (∀ plots, plot py (text log) = some plots ↔
      ∃ earliest, IsLeast {t | ∃ i < cpus.length, ∃ time ∈ stamps i tr, time.toNat = t} earliest ∧
        cols.map (fun col => (rowOf b col).map fun row =>
          (col, pointsOf b.maxPts cpus.length tr (fun i => (c.state.worker i).mem.prof) earliest row)) = plots.map some) ∧
      ((plot py (text log)).isSome ↔ (∃ i < cpus.length, stamps i tr ≠ []) ∧ ∀ col ∈ cols, (rowOf b col).isSome) := by
  refine ⟨fun plots => drawn_of_closing documented names few initial run closing file, ?_⟩
  rw [Option.isSome_iff_exists, ← sampled_of_closing initial run closing]
  simp only [drawn_of_closing documented names few initial run closing file]
  constructor
  · rintro ⟨plots, earliest, least, each⟩
    refine ⟨⟨earliest, least⟩, fun col member => ?_⟩
    simpa using exists_map_some.mp ⟨plots, each⟩ col member
  · rintro ⟨⟨earliest, least⟩, all⟩
    have each (col : String) (member : col ∈ cols) : ((rowOf b col).map fun row =>
        (col, pointsOf b.maxPts cpus.length tr (fun i => (c.state.worker i).mem.prof) earliest row)).isSome := by
      rw [Option.isSome_map]
      exact all col member
    obtain ⟨plots, each⟩ := exists_map_some.mpr each
    exact ⟨plots, earliest, least, each⟩

theorem plot_of_closing_one : ∃ (tr : List (Ev .exact)) (c : Config Tid Action Action.Res World) (log : List Piece),
    rowsOf log = [(0, 7), (1, 8)] ∧ (plot tables (text log)).isSome ∧
      ((∀ plots, plot tables (text log) = some plots ↔
        ∃ earliest, IsLeast {t | ∃ i < 2, ∃ time ∈ stamps i tr, time.toNat = t} earliest ∧
          cols.map (fun col => (rowOf oneElement col).map fun row =>
            (col, pointsOf oneElement.maxPts 2 tr (fun i => (c.state.worker i).mem.prof) earliest row)) = plots.map some) ∧
        ((plot tables (text log)).isSome ↔
          (∃ i < 2, stamps i tr ≠ []) ∧ ∀ col ∈ cols, (rowOf oneElement col).isSome)) := by
  have names : CsvNames oneElement := by constructor <;> decide
  obtain ⟨tr, c, log, run, closing, file, rows⟩ := closing_one
  have drawn := plot_of_closing tables_documented names (by decide) World.idle_initial run closing file
  have one := (recorded_of_closing World.idle_initial run closing (i := 0) (by decide)).2.2
  refine ⟨tr, c, log, rows, drawn.2.mpr ⟨⟨0, by decide, fun none => ?_⟩, by decide⟩, drawn⟩
  rw [none] at one
  cases one

/-- From the hardware to the plot: a point's value is the number of events of its column that
have happened on the CPU of its thread between the two readings of the sample. -/
theorem plot_countsEvents (documented : py.Documented) (full : FullTable b) (own : ReadsOwn b)
    (room : ∀ i < cpus.length, (func i).samples (iterations i) ≤ b.maxPts) (names : CsvNames b)
    (few : cpus.length < 2 ^ 32) (initial : s.Initial)
    (run : (process b hw).Run AllOk ⟨s, pool b cpus func iterations⟩ tr c)
    (fits : ∀ before, before <+: tr → Fits b hw cpus before) (closing : Closing c) {log : List Piece}
    (file : c.state.file = some log) {plots : List (String × List Point)} (drawn : plot py (text log) = some plots) :
    ∃ earliest, IsLeast {t | ∃ i < cpus.length, ∃ time ∈ stamps i tr, time.toNat = t} earliest ∧
      ∀ col points, (col, points) ∈ plots → ∃ row, rowOf b col = some row ∧
        ((b.counterTbl.row row).ctrType = .customCtr → points = (List.range cpus.length).flatMap fun i =>
          List.zipWith (fun time events => ⟨time.toNat - earliest, events, i⟩) (stamps i tr)
            (between b (cpus.getD i 0) i row tr)) := by
  obtain ⟨earliest, least, each⟩ := (drawn_of_closing documented names few initial run closing file).mp drawn
  refine ⟨earliest, least, fun col points member => ?_⟩
  have image : some (col, points) ∈ plots.map some := List.mem_map_of_mem member
  rw [← each, List.mem_map] at image
  obtain ⟨_, -, found⟩ := image
  obtain ⟨row, named, same⟩ := Option.map_eq_some_iff.mp found
  obtain ⟨rfl, rfl⟩ := Prod.mk.inj same
  refine ⟨row, named, fun custom => ?_⟩
  have below := (full.custom_iff (rowOf_lt named)).mp custom
  exact pointsOf_between full names.size own room initial run fits closing below

end

/-- Two threads: two L2 references fall into the sample of the first, and none into that of
the second. -/
theorem plot_countsEvents_one : ∃ (tr : List (Ev .exact)) (plots : List (String × List Point)),
    plots.head? = some ("L2_REFS", [⟨0, 2, 0⟩, ⟨1, 0, 1⟩]) ∧
      ∃ earliest, IsLeast {t | ∃ i < 2, ∃ time ∈ stamps i tr, time.toNat = t} earliest ∧
        ∀ col points, (col, points) ∈ plots → ∃ row, rowOf oneElement col = some row ∧
          ((oneElement.counterTbl.row row).ctrType = .customCtr → points = (List.range 2).flatMap fun i =>
            List.zipWith (fun time events => ⟨time.toNat - earliest, events, i⟩) (stamps i tr)
              (between oneElement ([1, 2].getD i 0) i row tr)) := by
  have played : (playFrom oneElement .exact (fun _ _ e => Event.succeeds e) [1, 2]
      (fun _ => .bmSingleDArrayMultithreadedT1) (fun _ => 1) .idle
      (List.replicate 114 (.inl .main) ++ [.inr (.clock 7)] ++ List.replicate 20 (.inl (.worker 0)) ++ sampledTicks ++
        List.replicate 46 (.inl (.worker 0)) ++ [.inr (.clock 8)] ++ List.replicate 63 (.inl (.worker 1)) ++
        List.replicate 42 (.inl .main))).any
      (fun x => closes x.2 && decide (x.1.length < 1000) &&
        x.2.state.file.any fun log => (plot tables (text log)).any fun plots =>
          decide (plots.head? = some ("L2_REFS", [⟨0, 2, 0⟩, ⟨1, 0, 1⟩]))) = true := by decide +kernel
  obtain ⟨⟨tr, c⟩, found, here⟩ := (Option.any_eq_true ..).mp played
  simp only [Bool.and_eq_true, decide_eq_true_eq] at here
  obtain ⟨⟨close, short⟩, written⟩ := here
  obtain ⟨log, file, plotted⟩ := (Option.any_eq_true ..).mp written
  obtain ⟨plots, drawn, first⟩ := (Option.any_eq_true ..).mp plotted
  have run := (player oneElement .exact).play_run Event.allOk_of_succeeds .start found
  have full : FullTable oneElement := by constructor <;> decide
  have own : ReadsOwn oneElement := by
    unfold ReadsOwn
    decide
  have names : CsvNames oneElement := by constructor <;> decide
  exact ⟨tr, plots, of_decide_eq_true first, plot_countsEvents tables_documented full own (fun _ _ => by decide) names
    (by decide) World.idle_initial run (fun _ => fits_of_short short) (closing_of_closes close) file drawn⟩

end PlotScript

end PmcBench
