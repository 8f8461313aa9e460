import PmcBench.Cpuid
import PmcBench.Words.BitField

/-!
# The performance-monitoring leaf (cpuid.c)

`get_performance_counter_data` prints what CPUID leaf 0AH says of the counters.
The layout of the leaf is stated by itself, and so is how a reader takes the
numbers and the seven event messages back from the printed text.
-/

namespace PmcBench
open Words Words.Reading CLib

/-! ### The function -/

/-- One of the tests of `*data`, and what it prints. -/
def printEvent (data : BitVec 8) (e : Nat) (absent present : String) : Printf :=
  if data.setWidth 32 &&& 1#32 <<< e ≠ 0 then ⟨absent, []⟩ else ⟨present, []⟩

def printEvents (data : BitVec 8) : List Printf :=
  [printEvent data 0 "Core cycle event not avilable\n" "Core cycle event avilable\n",
    printEvent data 1 "Instruction retired event not available\n" "Instruction retired event available\n",
    printEvent data 2 "Reference cycle event not available\n" "Reference cycle event available\n",
    printEvent data 3 "Last level cache refrence event available" "Last level cache refrence event available",
    printEvent data 4 "Last level cache miss event not available\n" "Last level cache miss event available\n",
    printEvent data 5 "Branch instruction retired event not available\n" "Branch instruction retired event available\n",
    printEvent data 6 "Branch mispredict retired event not available\n" "Branch mispredict retired event available\n"]

/-- A byte as an argument of `printf`. -/
def byteArg (data : BitVec 8) : Arg := .int (data.setWidth 32)

def getPerformanceCounterData (order : ByteOrder) (regs : CPUID) : List Printf :=
  let eax := regs.EAX
  let ebx := regs.EBX
  let edx := regs.EDX
  let data := byteAt order eax
  [⟨"Performance counter monitoring data:\n", []⟩] ++
  (if isLittleEndian order then
    [⟨"version ID: %x\n", [byteArg (data 0)]⟩,
      ⟨"No. of general purpose performance counters per logical core: %u\n", [byteArg (data 1)]⟩,
      ⟨"Bit width of performance monitoing counter : %u\n", [byteArg (data 2)]⟩,
      ⟨"no. of architectural performance monitoring events: %u\n", [byteArg (data 3)]⟩] ++
    (if 1 < data 0 then
      [⟨"no. of fixed performance counters per thread: %u\n", [.int (edx &&& 0xF)]⟩,
        ⟨"Bit width of fixed-function performance counters: %u\n", [.int (edx >>> 4 &&& 0xFF)]⟩] else [])
  else
    [⟨"version ID: %x\n", [byteArg (data 3)]⟩,
      ⟨"No. of general purpose performance counters per logical core: %u\n", [byteArg (data 2)]⟩,
      ⟨"Bit width of performance monitoing counter : %u\n", [byteArg (data 1)]⟩,
      ⟨"no. of architectural performance monitoring events: %u\n", [byteArg (data 0)]⟩,
      ⟨"no. of fixed performance counters per thread: %u\n", [.int (edx >>> 28 &&& 0xF)]⟩]) ++
  [⟨"\n", []⟩] ++ printEvents (byteAt order ebx (if isLittleEndian order then 0 else 3))

/-! ### The layout of the leaf -/

/-- The fields of the leaf; bit `e` of `unavailable` is 0 when event `e` is available. -/
structure PerfMonLeaf where
  version : BitVec 8
  counters : BitVec 8
  width : BitVec 8
  events : BitVec 8
  unavailable : BitVec 7
  fixed : BitVec 5
  fixedWidth : BitVec 8

namespace PerfMonLeaf

def versionField : BitField 32 := { lo := 0, width := 8 }
def countersField : BitField 32 := { lo := 8, width := 8 }
def widthField : BitField 32 := { lo := 16, width := 8 }
def eventsField : BitField 32 := { lo := 24, width := 8 }
def unavailableField : BitField 32 := { lo := 0, width := 7 }
def fixedField : BitField 32 := { lo := 0, width := 5 }
def fixedWidthField : BitField 32 := { lo := 5, width := 8 }

def decode (regs : CPUID) : PerfMonLeaf where
  version := versionField.get regs.EAX
  counters := countersField.get regs.EAX
  width := widthField.get regs.EAX
  events := eventsField.get regs.EAX
  unavailable := unavailableField.get regs.EBX
  fixed := fixedField.get regs.EDX
  fixedWidth := fixedWidthField.get regs.EDX

def encode (leaf : PerfMonLeaf) : CPUID where
  EAX := versionField.set leaf.version (countersField.set leaf.counters
    (widthField.set leaf.width (eventsField.set leaf.events 0)))
  EBX := unavailableField.set leaf.unavailable 0
  ECX := 0
  EDX := fixedField.set leaf.fixed (fixedWidthField.set leaf.fixedWidth 0)

theorem decode_encode (leaf : PerfMonLeaf) : decode (encode leaf) = leaf := by
  have apart {f g : BitField 32} (later : f.lo + f.width ≤ g.lo) (v : BitVec f.width) (w : BitVec 32) :
      g.get (f.set v w) = g.get w := BitField.get_set_other (Or.inl later) v w
  unfold decode encode
  simp [apart, versionField, countersField, widthField, eventsField, unavailableField, fixedField, fixedWidthField]

end PerfMonLeaf

/-! ### Reading the report -/

/-- What a report states of the leaf. -/
structure Stated where
  version : Nat
  counters : Nat
  width : Nat
  events : Nat
  fixed : Nat
  fixedWidth : Nat
  available : List Bool
  deriving DecidableEq

def PerfMonLeaf.stated (leaf : PerfMonLeaf) : Stated where
  version := leaf.version.toNat
  counters := leaf.counters.toNat
  width := leaf.width.toNat
  events := leaf.events.toNat
  fixed := leaf.fixed.toNat
  fixedWidth := leaf.fixedWidth.toNat
  available := (List.range 7).map fun e => !leaf.unavailable.getLsbD e

/-- The number on a line that begins with `label`. -/
def readLine (label : String) (base : Nat) : Reader Nat := do
  literal label.toList
  let n ← number base
  literal ['\n']
  pure n

/-- Whether a message says that something is available. Both spellings count,
and the end of the line may be missing. -/
def readAvailable : Reader Bool := do
  let available ← either (do literal " not".toList; pure false) (pure true)
  either (literal " available".toList) (literal " avilable".toList)
  either (literal ['\n']) (pure ())
  pure available

def readEvent (name : String) : Reader Bool := do
  literal name.toList
  readAvailable

def eventNames : List String :=
  ["Core cycle event", "Instruction retired event", "Reference cycle event", "Last level cache refrence event",
    "Last level cache miss event", "Branch instruction retired event", "Branch mispredict retired event"]

def readCounters : Reader (Nat × Nat × Nat × Nat) := do
  literal "Performance counter monitoring data:\n".toList
  let version ← readLine "version ID: " 16
  let counters ← readLine "No. of general purpose performance counters per logical core: " 10
  let width ← readLine "Bit width of performance monitoing counter : " 10
  let events ← readLine "no. of architectural performance monitoring events: " 10
  pure (version, counters, width, events)

def readReport : Reader Stated := do
  let (version, counters, width, events) ← readCounters
  let fixed ← readLine "no. of fixed performance counters per thread: " 10
  let fixedWidth ← readLine "Bit width of fixed-function performance counters: " 10
  literal "\n".toList
  let available ← eventNames.mapM readEvent
  pure ⟨version, counters, width, events, fixed, fixedWidth, available⟩

theorem readLine_append (label : String) {base : Nat} (two : 1 < base) (small : base ≤ 16)
    (n : Nat) (rest : List Char) :
    readLine label base (label.toList ++ (Nat.toDigits base n ++ '\n' :: rest)) = some (n, rest) := by
  have stop : digitValue base '\n' = none := by
    unfold digitValue
    rw [show ((List.range 16).find? fun d => d.digitChar = '\n') = none by decide]
    rfl
  have newline : literal ['\n'] ('\n' :: rest) = some ((), rest) := literal_append ['\n'] rest
  unfold readLine
  rw [bind_some (literal_append _ _), bind_some (number_toDigits two small n stop rest), bind_some newline]
  rfl

theorem bit_test (data : BitVec 8) {e : Nat} (bound : e < 8) :
    data.setWidth 32 &&& 1#32 <<< e ≠ 0 ↔ data.getLsbD e = true := by
  rw [← BitVec.twoPow_eq, BitVec.and_twoPow, BitVec.getLsbD_setWidth, decide_eq_true (show e < 32 by omega), Bool.true_and]
  cases data.getLsbD e with
  | true =>
    have single : (BitVec.twoPow 32 e).getLsbD e = true := by simp [show e < 32 by omega]
    have nonzero : BitVec.twoPow 32 e ≠ 0 := by
      intro none
      simp [none] at single
    exact iff_of_true nonzero rfl
  | false => simp

/-- How a message goes on after the name of its event. -/
theorem readAvailable_tail (rest : List Char) :
    readAvailable (" not available\n".toList ++ rest) = some (false, rest) ∧
    readAvailable (" available\n".toList ++ rest) = some (true, rest) ∧
    readAvailable (" not avilable\n".toList ++ rest) = some (false, rest) ∧
    readAvailable (" avilable\n".toList ++ rest) = some (true, rest) :=
  ⟨rfl, rfl, rfl, rfl⟩

theorem message_text {name tail : String} (plain : '%' ∉ name.toList ∧ '%' ∉ tail.toList) :
    Printf.text ⟨name ++ tail, []⟩ = name.toList ++ tail.toList := by
  rw [text_labelled rfl plain.1, printf_plain plain.2]

theorem readEvent_printEvent {name absent present no yes : String} {data : BitVec 8} {e : Nat} {rest : List Char}
    (bound : e < 8) (shapes : absent = name ++ no ∧ present = name ++ yes) (plain : '%' ∉ name.toList)
    (tails : '%' ∉ no.toList ∧ '%' ∉ yes.toList) (refused : readAvailable (no.toList ++ rest) = some (false, rest))
    (granted : readAvailable (yes.toList ++ rest) = some (true, rest)) :
    readEvent name ((printEvent data e absent present).text ++ rest) = some (!data.getLsbD e, rest) := by
  have tested := bit_test data bound
  unfold printEvent readEvent
  cases bit : data.getLsbD e with
  | true =>
    rw [if_pos (tested.mpr bit), shapes.1, message_text ⟨plain, tails.1⟩, List.append_assoc,
      bind_some (literal_append _ _), refused]
    rfl
  | false =>
    rw [if_neg (mt tested.mp (by simp [bit])), shapes.2, message_text ⟨plain, tails.2⟩, List.append_assoc,
      bind_some (literal_append _ _), granted]
    rfl

/-- The message about event 3, which ends no line. -/
theorem readEvent_reference (data : BitVec 8) {rest : List Char} (later : ¬ ['\n'] <+: rest) :
    readEvent "Last level cache refrence event" ((printEvent data 3 "Last level cache refrence event available"
      "Last level cache refrence event available").text ++ rest) = some (true, rest) := by
  have message : "Last level cache refrence event available" = "Last level cache refrence event" ++ " available" := by
    decide
  have newline : either (literal ['\n']) (pure ()) rest = some ((), rest) := by
    unfold either
    rw [literal_none later]
    rfl
  unfold printEvent readEvent
  rw [ite_self, message, message_text (by simp), List.append_assoc, bind_some (literal_append _ _)]
  show (either (literal ['\n']) (pure ()) >>= fun _ => pure true : Reader Bool) rest = _
  rw [bind_some newline]
  rfl

/-- The messages about the events, read one after the other. The message about
event 3 is the same in both cases. -/
theorem read_printEvents (data : BitVec 8) :
    eventNames.mapM readEvent (text (printEvents data)) =
      some ((List.range 7).map (fun e => e = 3 || !data.getLsbD e), []) := by
  have spelled : '%' ∉ " not available\n".toList ∧ '%' ∉ " available\n".toList := by decide
  have short : '%' ∉ " not avilable\n".toList ∧ '%' ∉ " avilable\n".toList := by decide
  have tail (rest : List Char) := readAvailable_tail rest
  unfold printEvents eventNames
  simp only [text_cons]
  apply mapM_cons_some (readEvent_printEvent (by decide) (by decide) (by simp) short (tail _).2.2.1 (tail _).2.2.2)
  iterate 2
    apply mapM_cons_some (readEvent_printEvent (by decide) (by decide) (by simp) spelled (tail _).1 (tail _).2.1)
  apply mapM_cons_some (readEvent_reference data _)
  · iterate 3
      apply mapM_cons_some (readEvent_printEvent (by decide) (by decide) (by simp) spelled (tail _).1 (tail _).2.1)
    rfl
  · unfold printEvent
    have other : ¬ '\n' = 'L' := by decide
    split
    all_goals
      rintro ⟨more, same⟩
      exact other (Option.some.inj (congrArg List.head? same))

/-! ### What the report states -/

theorem readLine_text {label format conversion : String} {base : Nat} (two : 1 < base) (small : base ≤ 16)
    {v : BitVec 32} (shape : format = label ++ conversion) (plain : '%' ∉ label.toList)
    (printed : printf conversion.toList none [.int v] = Nat.toDigits base v.toNat ++ ['\n'])
    (rest : List Char) : readLine label base (Printf.text ⟨format, [.int v]⟩ ++ rest) = some (v.toNat, rest) := by
  rw [text_labelled shape plain, printed, List.append_assoc, List.append_assoc]
  exact readLine_append label two small v.toNat rest

theorem printed_u (v : BitVec 32) : printf "%u\n".toList none [.int v] = Nat.toDigits 10 v.toNat ++ ['\n'] :=
  congrArg (· ++ ['\n']) (Directive.print_plain 'u' (.int v))

theorem printed_x (v : BitVec 32) : printf "%x\n".toList none [.int v] = Nat.toDigits 16 v.toNat ++ ['\n'] :=
  congrArg (· ++ ['\n']) (Directive.print_plain 'x' (.int v))

theorem readCounters_text (version counters width events : BitVec 8) (rest : List Char) :
    readCounters (Printf.text ⟨"Performance counter monitoring data:\n", []⟩ ++
      (Printf.text ⟨"version ID: %x\n", [byteArg version]⟩ ++
      (Printf.text ⟨"No. of general purpose performance counters per logical core: %u\n", [byteArg counters]⟩ ++
      (Printf.text ⟨"Bit width of performance monitoing counter : %u\n", [byteArg width]⟩ ++
      (Printf.text ⟨"no. of architectural performance monitoring events: %u\n", [byteArg events]⟩ ++ rest))))) =
    some ((version.toNat, counters.toNat, width.toNat, events.toNat), rest) := by
  have promoted (data : BitVec 8) : (data.setWidth 32).toNat = data.toNat := by
    rw [BitVec.toNat_setWidth]
    exact Nat.mod_eq_of_lt (Nat.lt_trans data.isLt (by decide))
  unfold readCounters byteArg
  rw [bind_some (literal_text (by simp) _),
    bind_some (readLine_text (by decide) (by decide) (by decide) (by simp) (printed_x _) _),
    bind_some (readLine_text (by decide) (by decide) (by decide) (by simp) (printed_u _) _),
    bind_some (readLine_text (by decide) (by decide) (by decide) (by simp) (printed_u _) _),
    bind_some (readLine_text (by decide) (by decide) (by decide) (by simp) (printed_u _) _)]
  simp only [promoted]
  rfl

theorem readFixed_text (v : BitVec 32) (rest : List Char) :
    readLine "no. of fixed performance counters per thread: " 10
      (Printf.text ⟨"no. of fixed performance counters per thread: %u\n", [.int v]⟩ ++ rest) = some (v.toNat, rest) :=
  readLine_text (by decide) (by decide) (by decide) (by simp) (printed_u v) rest

theorem readFixedWidth_text (v : BitVec 32) (rest : List Char) :
    readLine "Bit width of fixed-function performance counters: " 10
      (Printf.text ⟨"Bit width of fixed-function performance counters: %u\n", [.int v]⟩ ++ rest) = some (v.toNat, rest) :=
  readLine_text (by decide) (by decide) (by decide) (by simp) (printed_u v) rest

open PerfMonLeaf

theorem read_little {regs : CPUID} (newer : 1 < (decode regs).version) :
    readReport (text (getPerformanceCounterData .little regs)) = some
      ({ (decode regs).stated with
        fixed := (regs.EDX &&& 0xF).toNat
        fixedWidth := (regs.EDX >>> 4 &&& 0xFF).toNat
        available := (List.range 7).map fun e => e = 3 || !(byteAt .little regs.EBX 0).getLsbD e }, []) := by
  have version : byteAt .little regs.EAX 0 = (decode regs).version := byteAt_little regs.EAX 0
  have counters : byteAt .little regs.EAX 1 = (decode regs).counters := byteAt_little regs.EAX 1
  have width : byteAt .little regs.EAX 2 = (decode regs).width := byteAt_little regs.EAX 2
  have events : byteAt .little regs.EAX 3 = (decode regs).events := byteAt_little regs.EAX 3
  unfold getPerformanceCounterData readReport
  simp only [isLittleEndian_eq, decide_true, if_true, version, counters, width, events, if_pos newer, text_append, text_cons,
    text_nil, List.append_assoc, List.nil_append]
  rw [bind_some (readCounters_text ..), bind_some (readFixed_text ..), bind_some (readFixedWidth_text ..),
    bind_some (literal_text (by decide) _), bind_some (read_printEvents _)]
  rfl

/-- The big-endian report has no line about the width of the fixed counters. -/
theorem read_big (regs : CPUID) : readReport (text (getPerformanceCounterData .big regs)) = none := by
  have newline (rest : List Char) : Printf.text ⟨"\n", []⟩ ++ rest = '\n' :: rest := by
    rw [text_plain (by decide)]
    rfl
  unfold getPerformanceCounterData readReport
  simp only [isLittleEndian_eq]
  rw [if_neg (by decide)]
  simp only [text_append, text_cons, text_nil, List.append_assoc, List.nil_append]
  rw [bind_some (readCounters_text ..), bind_some (readFixed_text ..), newline]
  apply bind_none
  apply bind_none
  apply literal_none
  simp

/-- What the report of `regs` states, where a reader makes sense of it. -/
def report (order : ByteOrder) (regs : CPUID) : Option Stated :=
  (readReport (text (getPerformanceCounterData order regs))).map Prod.fst

/-- The bits of EDX that are printed are its fields only if bits 4 to 12 are 0. -/
theorem edx_exact_iff (edx : BitVec 32) :
    (edx &&& 0xF).toNat = (fixedField.get edx).toNat ∧ (edx >>> 4 &&& 0xFF).toNat = (fixedWidthField.get edx).toNat ↔
      (fixedField.get edx).toNat < 16 ∧ fixedWidthField.get edx = 0 := by
  have low : (edx &&& 0xF).toNat = edx.toNat % 16 := Nat.and_two_pow_sub_one_eq_mod edx.toNat 4
  have high : (edx >>> 4 &&& 0xFF).toNat = edx.toNat / 16 % 256 := by
    rw [BitVec.toNat_and, BitVec.toNat_ushiftRight, Nat.shiftRight_eq_div_pow]
    exact Nat.and_two_pow_sub_one_eq_mod _ 8
  have fixed : (fixedField.get edx).toNat = edx.toNat % 32 := by
    rw [BitField.get, BitVec.extractLsb'_toNat]
    rfl
  have fixedWidth : (fixedWidthField.get edx).toNat = edx.toNat / 32 % 256 := by
    rw [BitField.get, BitVec.extractLsb'_toNat, Nat.shiftRight_eq_div_pow]
    rfl
  have zero : fixedWidthField.get edx = 0 ↔ (fixedWidthField.get edx).toNat = 0 := by
    rw [← BitVec.toNat_inj]
    rfl
  rw [zero, low, high, fixed, fixedWidth]
  omega

/-- The messages are right about every event but the one that has a single message. -/
theorem events_exact_iff (ebx : BitVec 32) :
    (List.range 7).map (fun e => e = 3 || !(byteAt .little ebx 0).getLsbD e) =
        (List.range 7).map (fun e => !(unavailableField.get ebx).getLsbD e) ↔
      (unavailableField.get ebx).getLsbD 3 = false := by
  have bit (e : Nat) (bound : e < 7) : (byteAt .little ebx 0).getLsbD e = (unavailableField.get ebx).getLsbD e := by
    rw [byteAt_little, BitField.getLsbD_get, BitVec.getLsbD_extractLsb', decide_eq_true (show e < 8 by omega)]
    rw [show decide (e < unavailableField.width) = true from decide_eq_true bound]
    rfl
  rw [List.map_inj_left]
  constructor
  · intro same
    simpa using same 3 (by decide)
  · intro available e member
    rw [bit e (List.mem_range.mp member)]
    by_cases reference : e = 3
    · subst reference
      rw [available]
      rfl
    · simp [reference]

theorem report_iff {order : ByteOrder} {regs : CPUID} (newer : 1 < (decode regs).version) :
    report order regs = some (decode regs).stated ↔
      order = .little ∧ (decode regs).fixed.toNat < 16 ∧ (decode regs).fixedWidth = 0 ∧
        (decode regs).unavailable.getLsbD 3 = false := by
  unfold report
  cases order with
  | big =>
    rw [read_big]
    exact iff_of_false (by nofun) (by nofun)
  | little =>
    have edx := edx_exact_iff regs.EDX
    have events := events_exact_iff regs.EBX
    rw [read_little newer, Option.map_some, Option.some.injEq]
    constructor
    · intro same
      obtain ⟨fixed, fixedWidth⟩ := edx.mp ⟨congrArg Stated.fixed same, congrArg Stated.fixedWidth same⟩
      exact ⟨rfl, fixed, fixedWidth, events.mp (congrArg Stated.available same)⟩
    · rintro ⟨-, fixed, fixedWidth, available⟩
      obtain ⟨fixed, fixedWidth⟩ := edx.mpr ⟨fixed, fixedWidth⟩
      rw [fixed, fixedWidth, events.mpr available]
      rfl

/-- On a little-endian machine the report is exact if and only if there are
fewer than 16 fixed counters, their width is 0 and event 3 is available; on a
big-endian machine it never is. -/
theorem report_exact_iff (order : ByteOrder) :
    (∀ regs : CPUID, 1 < (decode regs).version →
      (report order regs = some (decode regs).stated ↔
        order = .little ∧ (decode regs).fixed.toNat < 16 ∧ (decode regs).fixedWidth = 0 ∧
          (decode regs).unavailable.getLsbD 3 = false)) ∧
    ∀ leaf : PerfMonLeaf, 1 < leaf.version →
      (report order (encode leaf) = some leaf.stated ↔
        order = .little ∧ leaf.fixed.toNat < 16 ∧ leaf.fixedWidth = 0 ∧ leaf.unavailable.getLsbD 3 = false) := by
  refine ⟨fun regs newer => report_iff newer, ?_⟩
  intro leaf newer
  have same := decode_encode leaf
  have exact : report order (encode leaf) = some (decode (encode leaf)).stated ↔ _ := report_iff (by rwa [same])
  rwa [same] at exact

/-- Version 4 with three fixed counters of 48 bits: 96 bits are stated. -/
theorem report_not_exact :
    ¬ ∀ (order : ByteOrder) (regs : CPUID), 1 < (decode regs).version →
      report order regs = some (decode regs).stated := by
  intro exact
  have newer : 1 < (decode ⟨0x7300404, 0, 0, 0x603⟩).version := by decide
  obtain ⟨-, -, width, -⟩ := (report_iff newer).mp (exact .little _ newer)
  revert width
  decide

end PmcBench
