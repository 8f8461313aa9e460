import PmcBench.CpuidMain
import PmcBench.PerfMonLeaf

/-!
# The reports about the caches (cpuid.c)

What `main` prints without arguments about each cache, and what `get_cache_tlb_info`
prints of CPUID leaf 2. Both are read back: `main_caches` for any number of caches, and
`cacheTlbInfo_readBack` for either byte order.
-/

namespace PmcBench.Cpuid
open Words Words.Reading CLib

/-! ### The descriptors of leaf 2 -/

def printHex (order : ByteOrder) (n : BitVec 32) : List Printf :=
  (if isLittleEndian order then [3, 2, 1, 0] else [0, 1, 2, 3]).map (fun i => ⟨"x%x ", [byteArg (byteAt order n i)]⟩) ++
    [⟨"\n", []⟩]

def printValidByte (order : ByteOrder) (reg : BitVec 32) : List Printf :=
  if reg &&& 1#32 <<< 31 = 0 then printHex order reg else []

def tlbNote : String :=
  "\nTo check what each byte represents check the description of each byte \nin each register from Table 3.12 on Page 790 of Intel Manual Vol 3\nLS byte of EAX should be ignored\n"

def getCacheTlbInfo (order : ByteOrder) (regs : CPUID) : List Printf :=
  [⟨"Valid byte descriptors:\n", []⟩] ++ [⟨"EAX:\n", []⟩] ++ printValidByte order regs.EAX ++ [⟨"EBX:\n", []⟩] ++
    printValidByte order regs.EBX ++ [⟨"ECX:\n", []⟩] ++ printValidByte order regs.ECX ++ [⟨"EDX:\n", []⟩] ++
    printValidByte order regs.EDX ++
    [⟨tlbNote, []⟩]

def readByte : Reader Nat := do
  literal ['x']
  let byte ← number 16
  literal [' ']
  pure byte

def readHex : Reader (BitVec 32) := do
  let b3 ← readByte
  let b2 ← readByte
  let b1 ← readByte
  let b0 ← readByte
  literal "\n".toList
  pure (BitVec.ofNat 32 (((b3 * 256 + b2) * 256 + b1) * 256 + b0))

def readValid (heading : String) : Reader (Option (BitVec 32)) := do
  literal heading.toList
  either (do let reg ← readHex; pure (some reg)) (pure none)

def readCacheTlbInfo : Reader (List (Option (BitVec 32))) := do
  literal "Valid byte descriptors:\n".toList
  let registers ← ["EAX:\n", "EBX:\n", "ECX:\n", "EDX:\n"].mapM readValid
  literal tlbNote.toList
  pure registers

/-- The registers whose descriptors are valid. -/
def valid (reg : BitVec 32) : Option (BitVec 32) := if reg.msb then none else some reg

theorem readByte_text (b : BitVec 8) (rest : List Char) :
    readByte (Printf.text ⟨"x%x ", [byteArg b]⟩ ++ rest) = some (b.toNat, rest) := by
  have stop : digitValue 16 ' ' = none := digitValue_none 16 (by decide)
  have promoted : (b.setWidth 32).toNat = b.toNat := by
    rw [BitVec.toNat_setWidth]
    exact Nat.mod_eq_of_lt (Nat.lt_trans b.isLt (by decide))
  have conversion : printf "%x ".toList none [byteArg b] = Nat.toDigits 16 b.toNat ++ [' '] := by
    rw [← promoted]
    exact congrArg (· ++ [' ']) (Directive.print_plain 'x' (byteArg b))
  have printed : Printf.text ⟨"x%x ", [byteArg b]⟩ ++ rest = ['x'] ++ (Nat.toDigits 16 b.toNat ++ ' ' :: rest) := by
    rw [text_labelled (show "x%x " = "x" ++ "%x " by decide) (by decide), conversion, List.append_assoc, List.append_assoc]
    rfl
  unfold readByte
  rw [printed, bind_some (literal_append _ _), bind_some (number_toDigits (by decide) (by decide) b.toNat stop rest),
    bind_some (literal_cons ' ' rest)]
  rfl

/-- Both byte orders print the same bytes. -/
theorem printHex_eq (order : ByteOrder) (n : BitVec 32) : printHex order n =
    [24, 16, 8, 0].map (fun lo => (⟨"x%x ", [byteArg (n.extractLsb' lo 8)]⟩ : Printf)) ++ [⟨"\n", []⟩] := by
  cases order <;> simp [printHex, byteAt_little, byteAt_big]

theorem readHex_text (order : ByteOrder) (n : BitVec 32) (rest : List Char) :
    readHex (text (printHex order n) ++ rest) = some (n, rest) := by
  have newline : literal "\n".toList (Printf.text ⟨"\n", []⟩ ++ rest) = some ((), rest) := literal_text (by decide) rest
  have value : BitVec.ofNat 32 ((((n.extractLsb' 24 8).toNat * 256 + (n.extractLsb' 16 8).toNat) * 256 +
      (n.extractLsb' 8 8).toNat) * 256 + (n.extractLsb' 0 8).toNat) = n := by
    apply BitVec.eq_of_toNat_eq
    have bound := n.isLt
    simp only [BitVec.toNat_ofNat, BitVec.extractLsb'_toNat, Nat.shiftRight_eq_div_pow]
    omega
  rw [printHex_eq]
  simp only [List.map_cons, List.map_nil, List.cons_append, List.nil_append, text_cons, text_nil, List.append_nil,
    List.append_assoc]
  unfold readHex
  rw [bind_some (readByte_text _ _), bind_some (readByte_text _ _), bind_some (readByte_text _ _),
    bind_some (readByte_text _ _), bind_some newline, value]
  rfl

theorem text_printValidByte (order : ByteOrder) (reg : BitVec 32) :
    text (printValidByte order reg) = (valid reg).elim [] fun reg => text (printHex order reg) := by
  have tested : reg &&& 1#32 <<< 31 = 0 ↔ reg.msb = false := by
    rw [← BitVec.twoPow_eq, BitVec.and_twoPow, BitVec.msb_eq_getLsbD_last]
    cases reg.getLsbD (32 - 1) <;> simp
  unfold printValidByte valid
  cases top : reg.msb with
  | true =>
    rw [if_neg (mt tested.mp (by simp [top]))]
    rfl
  | false =>
    rw [if_pos (tested.mpr top)]
    rfl

/-- What follows a register that is not printed is no byte. -/
theorem readValid_text {heading : String} (plain : '%' ∉ heading.toList) (order : ByteOrder) (reg : BitVec 32)
    {rest : List Char} (other : ¬ ['x'] <+: rest) :
    readValid heading (Printf.text ⟨heading, []⟩ ++ (text (printValidByte order reg) ++ rest)) =
      some (valid reg, rest) := by
  unfold readValid
  rw [bind_some (literal_text plain _), text_printValidByte]
  cases valid reg with
  | none =>
    have failed : (do let reg ← readHex; pure (some reg) : Reader (Option (BitVec 32))) rest = none := by
      unfold readHex readByte
      apply bind_none
      apply bind_none
      apply bind_none
      exact literal_none other
    show either _ _ rest = _
    unfold either
    rw [failed]
    rfl
  | some reg =>
    show either _ _ (text (printHex order reg) ++ rest) = _
    unfold either
    rw [bind_some (readHex_text order reg rest)]
    rfl

set_option maxRecDepth 4096 in
theorem tlbNote_plain : '%' ∉ tlbNote.toList ∧ tlbNote.toList.head? = some '\n' := by
  constructor
  · simp [tlbNote]
  · rfl

/-- Either byte order gives back the registers whose bit 31 is 0, and no others; and a register is
printed the same on both. -/
theorem cacheTlbInfo_readBack (order : ByteOrder) (regs : CPUID) :
    readCacheTlbInfo (text (getCacheTlbInfo order regs)) =
      some ([regs.EAX, regs.EBX, regs.ECX, regs.EDX].map valid, []) ∧
      ∀ n, printHex .little n = printHex .big n := by
  refine ⟨?_, fun n => (printHex_eq .little n).trans (printHex_eq .big n).symm⟩
  have other {c : Char} {text : List Char} (first : text.head? = some c) (different : c ≠ 'x') : ¬ ['x'] <+: text := by
    rintro ⟨later, rfl⟩
    exact different (Option.some.inj first).symm
  obtain ⟨plain, start⟩ := tlbNote_plain
  have note := literal_text plain []
  have noted : (Printf.text ⟨tlbNote, []⟩).head? = some '\n' := by rw [text_plain plain, start]
  rw [List.append_nil] at note
  unfold getCacheTlbInfo readCacheTlbInfo
  simp only [text_append, text_cons, text_nil, List.append_nil, List.append_assoc]
  rw [bind_some (literal_text (by decide) _), bind_some, bind_some note]
  · rfl
  iterate 3 apply mapM_cons_some (readValid_text (by decide) order _ (other (c := 'E') rfl (by decide)))
  exact mapM_cons_some (readValid_text (by decide) order _ (other noted (by decide))) rfl

/-! ### The caches -/

open CacheParams

inductive CacheKind where
  | data | insn | unified
  deriving DecidableEq

/-- What a report says of a cache. The last field is whether it is inclusive. -/
structure CacheDescription where
  level : Int
  kind : Option CacheKind
  fullyAssociative : Int
  lineSize : Int
  ways : Int
  sets : Int
  kilobytes : Nat
  inclusive : Bool
  deriving DecidableEq

def readInt (label : String) : Reader Int := do
  literal label.toList
  let n ← integer
  literal ['\n']
  pure n

def readKind : Reader (Option CacheKind) :=
  either (do literal "Data cache\n".toList; pure (some .data)) <|
    either (do literal "insn cache\n".toList; pure (some .insn)) <|
      either (do literal "unified cache\n".toList; pure (some .unified)) (pure none)

def readSize : Reader Nat := do
  literal "cache size: ".toList
  let kilobytes ← number 10
  literal " KB\n".toList
  pure kilobytes

def readInclusive : Reader Bool :=
  either (do literal "inclusive cache\n".toList; pure true) (do literal "not inclusive cache\n".toList; pure false)

def readCache : Reader CacheDescription := do
  let level ← readInt "cache level: "
  let kind ← readKind
  let fullyAssociative ← readInt "fully associative: "
  let lineSize ← readInt "cache line size: "
  let ways ← readInt "ways of associativity: "
  let sets ← readInt "no. of sets: "
  let kilobytes ← readSize
  let inclusive ← readInclusive
  literal "=============================================\n\n".toList
  pure ⟨level, kind, fullyAssociative, lineSize, ways, sets, kilobytes, inclusive⟩

/-- The descriptions behind a brand string, at most `limit` of them. -/
def readCaches (brand : List Char) (limit : Nat) : Reader (List CacheDescription) := do
  literal brand
  literal "CACHE INFO:\n\n".toList
  many readCache limit

def kindOf (cacheType : BitVec CacheParams.cacheType.width) : Option CacheKind :=
  if cacheType = 1 then some .data else if cacheType = 2 then some .insn else if cacheType = 3 then some .unified else none

/-- The cache that the registers describe. The number of sets is a signed number of 32
bits, and the size is formed modulo `2 ^ 32` bytes. -/
def describe (regs : CPUID) : CacheDescription where
  level := (level.get regs.EAX).toNat
  kind := kindOf (cacheType.get regs.EAX)
  fullyAssociative := (fullyAssociative.get regs.EAX).toNat
  lineSize := (cacheLineSize.get regs.EBX).toNat + 1
  ways := (ways.get regs.EBX).toNat + 1
  sets := ((numSets.get regs.ECX).toNat + 1 : Int).bmod (2 ^ 32)
  kilobytes := product regs.EBX regs.ECX % 2 ^ 32 / 1024
  inclusive := inclusive.get regs.EDX ≠ 0

theorem readInt_text {label format : String} (shape : format = label ++ "%d\n") (plain : '%' ∉ label.toList)
    (v : BitVec 32) (rest : List Char) :
    readInt label (Printf.text ⟨format, [.int v]⟩ ++ rest) = some (v.toInt, rest) := by
  have stop : digitValue 10 '\n' = none := digitValue_none 10 (by decide)
  have conversion : printf "%d\n".toList none [.int v] = signed v ++ ['\n'] :=
    congrArg (· ++ ['\n']) ((Directive.print_plain 'd' (.int v)).trans (conversion_signed v))
  have printed : Printf.text ⟨format, [.int v]⟩ ++ rest = label.toList ++ (signed v ++ '\n' :: rest) := by
    rw [text_labelled shape plain, conversion, List.append_assoc, List.append_assoc]
    rfl
  unfold readInt
  rw [printed, bind_some (literal_append _ _), bind_some (integer_signed v stop rest), bind_some (literal_cons _ _)]
  rfl

theorem readKind_text (cacheType : BitVec CacheParams.cacheType.width) {rest : List Char}
    (later : rest.head? = some 'f') :
    readKind (text (if cacheType = 1 then [⟨"Data cache\n", []⟩] else if cacheType = 2 then [⟨"insn cache\n", []⟩]
      else if cacheType = 3 then [⟨"unified cache\n", []⟩] else []) ++ rest) = some (kindOf cacheType, rest) := by
  unfold readKind kindOf either
  by_cases data : cacheType = 1
  · rw [if_pos data, if_pos data, text_cons, text_nil, List.append_nil, bind_some (literal_text (by decide) _)]
    rfl
  rw [if_neg data, if_neg data]
  by_cases insn : cacheType = 2
  · rw [if_pos insn, if_pos insn, text_cons, text_nil, List.append_nil,
      bind_none (literal_other (c := 'D') (d := 'i') (by decide) rfl rfl), bind_some (literal_text (by decide) _)]
    rfl
  rw [if_neg insn, if_neg insn]
  by_cases unified : cacheType = 3
  · rw [if_pos unified, if_pos unified, text_cons, text_nil, List.append_nil,
      bind_none (literal_other (c := 'D') (d := 'u') (by decide) rfl rfl),
      bind_none (literal_other (c := 'i') (d := 'u') (by decide) rfl rfl), bind_some (literal_text (by decide) _)]
    rfl
  rw [if_neg unified, if_neg unified, text_nil, List.nil_append, bind_none (literal_other (c := 'D') (by decide) rfl later),
    bind_none (literal_other (c := 'i') (by decide) rfl later), bind_none (literal_other (c := 'u') (by decide) rfl later)]
  rfl

theorem readSize_text (v : BitVec 64) (rest : List Char) :
    readSize (Printf.text ⟨"cache size: %llu KB\n", [.long v]⟩ ++ rest) = some (v.toNat, rest) := by
  have stop : digitValue 10 ' ' = none := digitValue_none 10 (by decide)
  have shape : "cache size: %llu KB\n" = "cache size: " ++ "%llu KB\n" := by decide
  have conversion : printf "%llu KB\n".toList none [.long v] = Nat.toDigits 10 v.toNat ++ ' ' :: "KB\n".toList :=
    congrArg (· ++ ' ' :: "KB\n".toList) (Directive.print_plain 'u' (.long v))
  have unit : literal " KB\n".toList (' ' :: ("KB\n".toList ++ rest)) = some ((), rest) :=
    literal_append " KB\n".toList rest
  unfold readSize
  rw [text_labelled shape (by decide), conversion, List.append_assoc, List.append_assoc, List.cons_append, bind_some (literal_append _ _), bind_some (number_toDigits (by decide) (by decide) v.toNat stop _),
    bind_some unit]
  rfl

theorem readInclusive_text (bit : BitVec inclusive.width) (rest : List Char) :
    readInclusive (Printf.text (if bit ≠ 0 then ⟨"inclusive cache\n", []⟩ else ⟨"not inclusive cache\n", []⟩) ++ rest) =
      some (decide (bit ≠ 0), rest) := by
  unfold readInclusive either
  by_cases inclusive : bit ≠ 0
  · rw [if_pos inclusive, decide_eq_true inclusive, bind_some (literal_text (by decide) _)]
    rfl
  · rw [if_neg inclusive, decide_eq_false inclusive, bind_none (literal_other (c := 'i') (d := 'n') (by decide) rfl rfl),
      bind_some (literal_text (by decide) _)]
    rfl

theorem toInt_promoted {f : BitField 32} (narrow : f.width < 31) (w : BitVec 32) :
    (promoted f w).toInt = (f.get w).toNat ∧ (promoted f w + 1).toInt = (f.get w).toNat + 1 := by
  have value := toNat_promoted f w
  have bound : (f.get w).toNat < 2 ^ 30 := by
    calc (f.get w).toNat < 2 ^ f.width := (f.get w).isLt
      _ ≤ 2 ^ 30 := Nat.pow_le_pow_right (by decide) (by omega)
  constructor
  · rw [BitVec.toInt_eq_toNat_of_lt (by omega), value]
  · have next : (promoted f w + 1).toNat = (f.get w).toNat + 1 := by
      rw [BitVec.toNat_add, value]
      exact Nat.mod_eq_of_lt (Nat.lt_trans (Nat.succ_lt_succ bound) (by decide))
    rw [BitVec.toInt_eq_toNat_of_lt (by omega), next]
    rfl

theorem toInt_numSets (ecx : BitVec 32) :
    (promoted numSets ecx + 1).toInt = ((numSets.get ecx).toNat + 1 : Int).bmod (2 ^ 32) := by
  have one : (1 : BitVec 32).toInt = 1 := by decide
  rw [BitVec.toInt_add, BitVec.toInt_eq_toNat_bmod (promoted numSets ecx), toNat_promoted, one, Int.bmod_add_bmod]

theorem readCache_text (regs : CPUID) (rest : List Char) :
    readCache (text (cacheReport regs) ++ rest) = some (describe regs, rest) := by
  have level := toInt_promoted (f := level) (by decide) regs.EAX
  have associative := toInt_promoted (f := fullyAssociative) (by decide) regs.EAX
  have lineSize := toInt_promoted (f := cacheLineSize) (by decide) regs.EBX
  have ways := toInt_promoted (f := ways) (by decide) regs.EBX
  have kilobytes : (totalSize regs.EBX regs.ECX / 1024).toNat = product regs.EBX regs.ECX % 2 ^ 32 / 1024 := by
    rw [BitVec.toNat_udiv, toNat_totalSize]
    rfl
  have shape : "fully associative: %d\n" = "fully associative: " ++ "%d\n" := by decide
  have later (v : BitVec 32) (rest : List Char) :
      (Printf.text ⟨"fully associative: %d\n", [.int v]⟩ ++ rest).head? = some 'f' := by
    rw [text_labelled shape (by decide)]
    rfl
  unfold cacheReport readCache
  simp only [text_append, text_cons, text_nil, List.append_nil, List.append_assoc]
  rw [bind_some (readInt_text (by decide) (by decide) _ _), bind_some (readKind_text _ (later _ _)),
    bind_some (readInt_text (by decide) (by decide) _ _), bind_some (readInt_text (by decide) (by decide) _ _),
    bind_some (readInt_text (by decide) (by decide) _ _), bind_some (readInt_text (by decide) (by decide) _ _),
    bind_some (readSize_text _ _), bind_some (readInclusive_text _ _), bind_some (literal_text (by decide) _),
    level.1, associative.1, lineSize.2, ways.2, toInt_numSets, kilobytes]
  rfl

theorem readCache_nil : readCache [] = none := by
  unfold readCache readInt
  apply bind_none
  apply bind_none
  apply literal_none
  simp

/-- Without arguments, `main` describes the caches up to the first index that has none. -/
theorem main_caches (cpuid : BitVec 32 → BitVec 32 → CPUID) (brand : List Char) {fuel n : Nat} (enough : n < fuel)
    (caches : ∀ i < n, cacheType.get (cpuid 4 (BitVec.ofNat 32 i)).EAX ≠ 0)
    (last : cacheType.get (cpuid 4 (BitVec.ofNat 32 n)).EAX = 0) (binaryNum : Nat → Bool) (program : List Char) :
    ∃ text, main cpuid brand fuel ⟨binaryNum, []⟩ [program] = some ⟨binaryNum, text⟩ ∧
      readCaches brand fuel text =
        some ((List.range n).map fun i => describe (cpuid 4 (BitVec.ofNat 32 i)), []) := by
  have looped : getCacheParams (fun index => cpuid 4 (BitVec.ofNat 32 index)) fuel 0 =
      some ((List.range n).flatMap fun i => cacheReport (cpuid 4 (BitVec.ofNat 32 (0 + i)))) :=
    getCacheParams_from enough (by simpa using caches) (by simpa using last)
  have reports : many readCache fuel (((List.range n).flatMap fun i => text (cacheReport (cpuid 4 (BitVec.ofNat 32 i)))) ++ []) =
      some ((List.range n).map fun i => describe (cpuid 4 (BitVec.ofNat 32 i)), []) :=
    many_append (List.range n) (by simpa using enough)
      (fun i _ rest => readCache_text (cpuid 4 (BitVec.ofNat 32 i)) rest) readCache_nil
  simp only [Nat.zero_add] at looped
  rw [List.append_nil] at reports
  refine ⟨brand ++ (Printf.text ⟨"CACHE INFO:\n\n", []⟩ ++
    (List.range n).flatMap fun i => text (cacheReport (cpuid 4 (BitVec.ofNat 32 i)))), ?_, ?_⟩
  · unfold main
    rw [looped, Option.bind_eq_bind, Option.bind_some, text, List.flatMap_assoc]
    rfl
  · unfold readCaches
    rw [bind_some (literal_append _ _), bind_some (literal_text (by decide) _)]
    exact reports

/-- A processor with a data cache and an instruction cache, of 32 KB each. -/
def twoCaches (_ ecx : BitVec 32) : CPUID :=
  if ecx = 0 then ⟨0x1C004121, 0x1C0003F, 63, 0⟩ else if ecx = 1 then ⟨0x1C004122, 0x1C0003F, 63, 0⟩ else ⟨0, 0, 0, 0⟩

theorem main_caches_two : ∃ text,
    main twoCaches "Brand string is \n".toList 3 ⟨fun _ => false, []⟩ ["cpuid".toList] = some ⟨fun _ => false, text⟩ ∧
    readCaches "Brand string is \n".toList 3 text =
      some ([⟨1, some .data, 0, 64, 8, 64, 32, false⟩, ⟨1, some .insn, 0, 64, 8, 64, 32, false⟩], []) := by
  have described : (List.range 2).map (fun i => describe (twoCaches 4 (BitVec.ofNat 32 i))) =
      [⟨1, some .data, 0, 64, 8, 64, 32, false⟩, ⟨1, some .insn, 0, 64, 8, 64, 32, false⟩] := by decide
  have caches : ∀ i < 2, cacheType.get (twoCaches 4 (BitVec.ofNat 32 i)).EAX ≠ 0 := by decide
  rw [← described]
  exact main_caches twoCaches _ (by decide) caches (by decide) _ _

end PmcBench.Cpuid
