import Mathlib.Algebra.Group.Nat.Defs
import Mathlib.Data.List.Infix
import Mathlib.Data.List.TakeWhile
import PmcBench.Threads.View

/-!
# The file benchmark (benchmarks.cc)

`file_work` reads two files in turn and searches each for a string. It looks neither at
what `fopen` returns nor for the end of the string it passes to `strstr`.
`fileWork_defined_iff` says for which files every call has a defined meaning, and that the
thread then comes to its end. It is about runs in which only `fopen` fails, and `malloc` of
more bytes than an object can have: `fseek`, `ftell`, `fread` and every other `malloc` succeed.
-/

namespace PmcBench.FileWork
open Threads
open Program (forEach)

/-! ### The code -/

inductive Whence where
  | seekEnd | seekSet

/-- `overflow` is the evaluation of a signed sum that does not fit. -/
inductive Act where
  | fopen (path : String)
  | fseek (whence : Whence)
  | ftell
  | overflow
  | malloc (bytes : BitVec 64)
  | fread (count : BitVec 64)
  | strstr (needle : String)
  | strerror
  | cout (line : String)
  | free
  | fclose
  | pthreadExit

@[reducible] def Act.Res : Act → Type
  | .fseek _ => BitVec 32
  | .ftell | .fread _ => BitVec 64
  | .strstr _ => Bool
  | .strerror => String
  | .pthreadExit => Empty
  | _ => Unit

abbrev FProg := Program Act Act.Res

abbrev perform (o : Act) : FProg o.Res := Program.call o

def path (i : Nat) : String :=
  if i % 2 = 0 then "/media/memfs/wiki/fr/h/e/x/Utilisateur~Hexasoft_Statistiques_Geckonidé_41ae.html"
  else "/media/memfs/wiki/fr/c/l/n/Utilisateur~Cln-id_monobook.js_9900.html"

def reportIf (failed : Bool) (message : String) : FProg Unit :=
  if failed then do
    let error ← perform .strerror
    perform (.cout (message ++ error))
  else pure ()

def coutIf (holds : Bool) (line : String) : FProg Unit :=
  if holds then perform (.cout line) else pure ()

/-- `malloc(size + 1)`: the sum is an `int`, which is then widened with its sign. -/
def mallocNext (size : BitVec 32) : FProg Unit :=
  if size = BitVec.intMax 32 then perform .overflow else perform (.malloc ((size + 1).signExtend 64))

/-- What is done with the file once there is room for it: `size` is unsigned where it is
compared with `char_read`. -/
def search (size : BitVec 32) : FProg Unit := do
  let charRead ← perform (.fread (size.signExtend 64))
  coutIf (charRead < size.setWidth 64) "fread() read less bytes than file's size."
  let found ← perform (.strstr "somedummystring")
  coutIf found "Dummy string match. Stunning."
  perform .free
  perform .fclose

def readSized (size : BitVec 32) : FProg Unit := do
  reportIf (size = -1) "Error telling file size: "
  let r ← perform (.fseek .seekSet)
  reportIf (r = -1) "fseek error: "
  mallocNext size
  search size

def readFile (i : Nat) : FProg Unit := do
  perform (.fopen (path i))
  let r ← perform (.fseek .seekEnd)
  reportIf (r = -1) "fseek error: "
  let size ← perform .ftell
  readSized (size.setWidth 32)

def fileWork (iterations : Nat) : FProg Unit := do
  forEach (List.range iterations) readFile
  let never ← perform .pthreadExit
  never.elim

/-! ### The files and the memory -/

abbrev Bytes := List (BitVec 8)

/-- The open file with its position, the block of `body`, and the output. -/
structure Process where
  file : Option (Bytes × Nat)
  body : Option Bytes
  printed : List String

def cString (block : Bytes) : Bytes := block.takeWhile (· ≠ 0)

def ofString (s : String) : Bytes := s.toList.map fun c => BitVec.ofNat 8 c.toNat

def Whence.position : Whence → Bytes → Nat
  | .seekEnd, content => content.length
  | .seekSet, _ => 0

/-- The calls that have a defined meaning. `fread` needs room for the bytes it finds, and
`strstr` needs the end of its string. -/
def Defined (s : Process) : Act → Prop
  | .fseek _ | .ftell | .fclose => s.file.isSome = true
  | .overflow => False
  | .fread count => ∃ content pos block, s.file = some (content, pos) ∧ s.body = some block ∧
      ((content.drop pos).take count.toNat).length ≤ block.length
  | .strstr _ => ∃ block, s.body = some block ∧ 0 ∈ block
  | _ => True

/-- The files are regular and no call fails but `fopen` of a file that does not exist and
`malloc` of a block that no object can have the size of. A block holds any bytes at first. -/
def next (files : String → Option Bytes) (s : Process) : (o : Act) → o.Res → Process → Prop
  | .fopen path, _, s' => s' = { s with file := (files path).map (·, 0) }
  | .fseek whence, r, s' => r = 0 ∧ s' = { s with file := s.file.map fun f => (f.1, whence.position f.1) }
  | .ftell, r, s' => r = BitVec.ofNat 64 (s.file.elim 0 Prod.snd) ∧ s' = s
  | .malloc bytes, _, s' =>
    if bytes.toNat < 2 ^ 63 then ∃ block : Bytes, block.length = bytes.toNat ∧ s' = { s with body := some block }
    else s' = { s with body := none }
  | .fread count, r, s' => ∃ content pos block, s.file = some (content, pos) ∧ s.body = some block ∧
      let read := (content.drop pos).take count.toNat
      r = BitVec.ofNat 64 read.length ∧
        s' = { s with file := some (content, pos + read.length), body := some (read ++ block.drop read.length) }
  | .strstr needle, r, s' => s' = s ∧ ∃ block, s.body = some block ∧ r = decide (ofString needle <:+: cString block)
  | .cout line, _, s' => s' = { s with printed := s.printed ++ [line] }
  | .free, _, s' => s' = { s with body := none }
  | .fclose, _, s' => s' = { s with file := none }
  | .overflow, _, s' | .strerror, _, s' => s' = s
  | .pthreadExit, _, _ => False

/-- What is asked of the calls; `exit` is asked of the end of the thread. -/
def allow (exit : Process → Prop) (s : Process) : Act → Prop
  | .pthreadExit => exit s
  | o => Defined s o

abbrev fileView (files : String → Option Bytes) (exit : Process → Prop) : View Act Act.Res where
  St := Process
  rely _ _ := False
  allow := allow exit
  next := next files

section View
variable {files : String → Option Bytes} {exit : Process → Prop} {α : Type} {Q : α → Process → Prop} {s t : Process}

theorem wp_perform {o : Act} {f : o.Res → FProg α} : (perform o >>= f).wp (fileView files exit) Q s ↔
    allow exit s o ∧ ∀ r t, next files s o r t → (f r).wp (fileView files exit) Q t :=
  Program.wp_act_still fun _ _ => id

theorem wp_call {o : Act} {f : o.Res → FProg α} {r : o.Res} (allowed : allow exit s o)
    (outcome : ∀ r' t', next files s o r' t' ↔ r' = r ∧ t' = t) :
    (perform o >>= f).wp (fileView files exit) Q s ↔ (f r).wp (fileView files exit) Q t := by
  rw [wp_perform]
  constructor
  · intro h
    exact h.2 r t ((outcome r t).mpr ⟨rfl, rfl⟩)
  · intro h
    refine ⟨allowed, ?_⟩
    intro r' t' step
    obtain ⟨rfl, rfl⟩ := (outcome r' t').mp step
    exact h

theorem wp_coutIf {holds : Bool} {line : String} {f : Unit → FProg α} :
    (coutIf holds line >>= f).wp (fileView files exit) Q s ↔
      (f ()).wp (fileView files exit) Q { s with printed := s.printed ++ if holds then [line] else [] } := by
  cases holds with
  | true => exact wp_call (o := .cout line) (r := ()) trivial fun _ _ => ⟨fun step => ⟨rfl, step⟩, And.right⟩
  | false =>
    show (f ()).wp (fileView files exit) Q s ↔ (f ()).wp (fileView files exit) Q { s with printed := s.printed ++ [] }
    rw [List.append_nil]

/-- An error message changes nothing but the output. -/
theorem reportIf_rest {failed : Bool} {message : String} {f : Unit → FProg α}
    (h : (reportIf failed message >>= f).wp (fileView files exit) Q s) :
    ∃ printed, (f ()).wp (fileView files exit) Q { s with printed := printed } := by
  cases failed with
  | false => exact ⟨s.printed, h⟩
  | true =>
    have reported := (wp_perform.mp h).2 "" s rfl
    exact ⟨_, (wp_perform.mp reported).2 () _ rfl⟩

theorem wp_fopen {f : Unit → FProg α} {path : String} : (perform (.fopen path) >>= f).wp (fileView files exit) Q s ↔
    (f ()).wp (fileView files exit) Q { s with file := (files path).map (·, 0) } :=
  wp_call (o := .fopen path) (r := ()) trivial fun _ _ => ⟨fun step => ⟨rfl, step⟩, And.right⟩

end View

/-! ### One iteration -/

/-- The `int` that the length of a file is kept in, as a number. -/
def sizeOf (content : Bytes) : Nat := content.length % 2 ^ 32

/-- The length is one of an `int` with room for one more, and the end of a string is among
the bytes of the file. -/
structure Readable (content : Bytes) : Prop where
  small : sizeOf content < 2 ^ 31 - 1
  ended : 0 ∈ content.take (sizeOf content)

def matchLine (block : Bytes) : List String :=
  if ofString "somedummystring" <:+: cString block then ["Dummy string match. Stunning."] else []

def Sound (files : String → Option Bytes) (i : Nat) : Prop := ∃ content, files (path i) = some content ∧ Readable content

def found (files : String → Option Bytes) (i : Nat) : List String :=
  (files (path i)).elim [] fun content => matchLine (content.take (sizeOf content))

theorem cString_append {block : Bytes} (ended : 0 ∈ block) (rest : Bytes) : cString (block ++ rest) = cString block := by
  unfold cString
  rw [List.takeWhile_append, if_neg]
  intro whole
  have all := List.takeWhile_eq_self_iff.mp ((List.takeWhile_prefix fun c => decide (c ≠ 0)).eq_of_length whole)
  simpa using all 0 ended

section Iteration
variable {files : String → Option Bytes} {exit : Process → Prop} {Q : Unit → Process → Prop} {content block : Bytes}
  {printed : List String}

theorem toNat_size (content : Bytes) : (BitVec.ofNat 32 content.length).toNat = sizeOf content := BitVec.toNat_ofNat ..

theorem toNat_widen {v : BitVec 32} (small : v.toNat < 2 ^ 31) : (v.signExtend 64).toNat = v.toNat := by
  have positive : v.msb = false := by
    rw [BitVec.msb_eq_false_iff_two_mul_lt]
    omega
  rw [BitVec.signExtend_eq_setWidth_of_msb_false positive, BitVec.toNat_setWidth]
  exact Nat.mod_eq_of_lt (Nat.lt_trans v.isLt (by decide))

theorem toNat_widen_negative {v : BitVec 32} (negative : 2 ^ 31 ≤ v.toNat) : 2 ^ 63 ≤ (v.signExtend 64).toNat := by
  have sign : v.msb = true := by
    rw [BitVec.msb_eq_true_iff_two_mul_ge]
    omega
  rw [BitVec.toNat_signExtend, sign, if_pos rfl]
  omega

theorem wp_release {f : Bytes × Nat} {body : Option Bytes} :
    (perform .free >>= fun _ => perform .fclose).wp (fileView files exit) Q ⟨some f, body, printed⟩ ↔
      Q () ⟨none, none, printed⟩ := by
  have freed : (perform .free >>= fun _ => perform .fclose).wp (fileView files exit) Q ⟨some f, body, printed⟩ ↔
      (perform .fclose).wp (fileView files exit) Q ⟨some f, none, printed⟩ :=
    wp_call (o := .free) (r := ()) trivial fun _ _ => ⟨fun step => ⟨rfl, step⟩, And.right⟩
  have closed : (perform .fclose >>= Program.done).wp (fileView files exit) Q ⟨some f, none, printed⟩ ↔
      (Program.done ()).wp (fileView files exit) Q ⟨none, none, printed⟩ :=
    wp_call (o := .fclose) (r := ()) rfl fun _ _ => ⟨fun step => ⟨rfl, step⟩, And.right⟩
  rw [Program.bind_done] at closed
  rw [freed, closed]
  exact Program.wp_done_still fun _ _ => id

theorem wp_search (small : sizeOf content < 2 ^ 31 - 1) (room : block.length = sizeOf content + 1) :
    (search (BitVec.ofNat 32 content.length)).wp (fileView files exit) Q ⟨some (content, 0), some block, printed⟩ ↔
      let filled := content.take (sizeOf content) ++ block.drop (sizeOf content)
      0 ∈ filled ∧ Q () ⟨none, none, printed ++ matchLine filled⟩ := by
  have size := toNat_size content
  have count : ((BitVec.ofNat 32 content.length).signExtend 64).toNat = sizeOf content := by
    rw [toNat_widen (by omega), size]
  have whole : (content.take (sizeOf content)).length = sizeOf content := by
    rw [List.length_take]
    exact Nat.min_eq_left (Nat.mod_le _ _)
  have full : ¬ BitVec.ofNat 64 (content.take (sizeOf content)).length < (BitVec.ofNat 32 content.length).setWidth 64 := by
    rw [BitVec.lt_def, BitVec.toNat_ofNat, BitVec.toNat_setWidth, size, whole]
    exact Nat.lt_irrefl _
  unfold search
  rw [wp_call (o := .fread _) (r := BitVec.ofNat 64 (content.take (sizeOf content)).length)
    (t := ⟨some (content, sizeOf content), some (content.take (sizeOf content) ++ block.drop (sizeOf content)), printed⟩),
    wp_coutIf, decide_eq_false full, wp_perform]
  · have searched (block : Bytes) : (printed ++ if false = true then ["fread() read less bytes than file's size."] else []) ++
        (if decide (ofString "somedummystring" <:+: cString block) = true then ["Dummy string match. Stunning."] else []) =
        printed ++ matchLine block := by
      simp [matchLine]
    constructor
    · rintro ⟨⟨filled, ⟨rfl⟩, ended⟩, rest⟩
      have after := rest _ _ ⟨rfl, _, rfl, rfl⟩
      rw [wp_coutIf, wp_release, searched] at after
      exact ⟨ended, after⟩
    · rintro ⟨ended, final⟩
      refine ⟨⟨_, rfl, ended⟩, ?_⟩
      rintro r t ⟨rfl, _, ⟨rfl⟩, rfl⟩
      rw [wp_coutIf, wp_release, searched]
      exact final
  · refine ⟨content, 0, block, rfl, rfl, ?_⟩
    rw [List.drop_zero, count, whole, room]
    exact Nat.le_succ _
  · intro r t
    constructor
    · rintro ⟨_, _, _, ⟨rfl⟩, ⟨rfl⟩, rfl, rfl⟩
      simp only [List.drop_zero, count, whole, Nat.zero_add, and_self]
    · rintro ⟨rfl, rfl⟩
      refine ⟨content, 0, block, rfl, rfl, ?_⟩
      simp only [List.drop_zero, count, whole, Nat.zero_add, and_self]

/-- The byte behind those of the file has any value, so it cannot be counted on. -/
theorem wp_mallocNext (small : sizeOf content < 2 ^ 31 - 1) :
    (mallocNext (BitVec.ofNat 32 content.length) >>= fun _ => search (BitVec.ofNat 32 content.length)).wp
        (fileView files exit) Q ⟨some (content, 0), none, printed⟩ ↔
      0 ∈ content.take (sizeOf content) ∧ Q () ⟨none, none, printed ++ matchLine (content.take (sizeOf content))⟩ := by
  have size := toNat_size content
  have next : (BitVec.ofNat 32 content.length + 1).toNat = sizeOf content + 1 := by
    rw [BitVec.toNat_add, size]
    exact Nat.mod_eq_of_lt (Nat.lt_trans (Nat.succ_lt_succ small) (by decide))
  have bytes : ((BitVec.ofNat 32 content.length + 1).signExtend 64).toNat = sizeOf content + 1 := by
    rw [toNat_widen (by omega), next]
  have fits : BitVec.ofNat 32 content.length ≠ BitVec.intMax 32 := by
    intro largest
    rw [largest] at size
    rw [← size] at small
    exact absurd small (by decide)
  have room : ((BitVec.ofNat 32 content.length + 1).signExtend 64).toNat < 2 ^ 63 := by omega
  have filled (block : Bytes) (ended : 0 ∈ content.take (sizeOf content)) :
      matchLine (content.take (sizeOf content) ++ block.drop (sizeOf content)) = matchLine (content.take (sizeOf content)) := by
    rw [matchLine, matchLine, cString_append ended]
  rw [mallocNext, if_neg fits, wp_perform]
  constructor
  · rintro ⟨-, rest⟩
    have any (block : Bytes) (length : block.length = sizeOf content + 1) := (wp_search small length).mp (rest () _
      ((if_pos room).mpr ⟨block, length.trans bytes.symm, rfl⟩))
    obtain ⟨ones, final⟩ := any (List.replicate (sizeOf content + 1) 1) List.length_replicate
    have ended : 0 ∈ content.take (sizeOf content) := by
      apply (List.mem_append.mp ones).resolve_right
      simp
    rw [filled _ ended] at final
    exact ⟨ended, final⟩
  · rintro ⟨ended, final⟩
    refine ⟨trivial, ?_⟩
    intro r t allocated
    obtain ⟨block, length, rfl⟩ := (if_pos room).mp allocated
    rw [wp_search small (length.trans bytes)]
    refine ⟨List.mem_append_left _ ended, ?_⟩
    rw [filled _ ended]
    exact final

/-- An `int` without room for one more, or a negative one: the sum overflows, or there is
no block that holds what `fread` finds. -/
theorem not_wp_mallocNext (large : ¬ sizeOf content < 2 ^ 31 - 1) :
    ¬ (mallocNext (BitVec.ofNat 32 content.length) >>= fun _ => search (BitVec.ofNat 32 content.length)).wp
        (fileView files exit) Q ⟨some (content, 0), none, printed⟩ := by
  have size := toNat_size content
  intro h
  by_cases largest : BitVec.ofNat 32 content.length = BitVec.intMax 32
  · rw [mallocNext, if_pos largest, wp_perform] at h
    exact h.1
  · have above : 2 ^ 31 ≤ sizeOf content := by
      have other : sizeOf content ≠ 2 ^ 31 - 1 := by
        intro same
        exact largest (BitVec.eq_of_toNat_eq (size.trans same))
      omega
    have scant (body : Option Bytes) (small : ∀ block, body = some block → block = []) :
        ¬ (search (BitVec.ofNat 32 content.length)).wp (fileView files exit) Q ⟨some (content, 0), body, printed⟩ := by
      intro searched
      obtain ⟨_, _, block, ⟨rfl⟩, some, room⟩ := (wp_perform.mp searched).1
      have many : 2 ^ 63 ≤ ((BitVec.ofNat 32 content.length).signExtend 64).toNat :=
        toNat_widen_negative (by rw [size]; exact above)
      have long : sizeOf content ≤ content.length := Nat.mod_le _ _
      rw [small block some, List.drop_zero, List.length_take, List.length_nil] at room
      omega
    rw [mallocNext, if_neg largest, wp_perform] at h
    by_cases fits : ((BitVec.ofNat 32 content.length + 1).signExtend 64).toNat < 2 ^ 63
    · have zero : (BitVec.ofNat 32 content.length + 1).toNat = 0 := by
        have next : (BitVec.ofNat 32 content.length + 1).toNat = (sizeOf content + 1) % 2 ^ 32 := by
          rw [BitVec.toNat_add, size]
          rfl
        have low := mt toNat_widen_negative (Nat.not_le.mpr fits)
        have bound : sizeOf content < 2 ^ 32 := Nat.mod_lt _ (by decide)
        omega
      have empty : ((BitVec.ofNat 32 content.length + 1).signExtend 64).toNat = 0 := by
        rw [toNat_widen (by omega), zero]
      exact scant (some []) (fun block same => (Option.some.inj same).symm)
        (h.2 () _ ((if_pos fits).mpr ⟨[], empty.symm, rfl⟩))
    · exact scant none (fun block same => by cases same) (h.2 () _ ((if_neg fits).mpr rfl))

/-- An iteration has a defined meaning for the files that are sound, and for no others. It
leaves nothing open and nothing allocated. -/
theorem wp_readFile (i : Nat) : (readFile i).wp (fileView files exit) Q ⟨none, none, printed⟩ ↔
    Sound files i ∧ Q () ⟨none, none, printed ++ found files i⟩ := by
  unfold readFile Sound found
  rw [wp_fopen]
  cases opened : files (path i) with
  | none =>
    constructor
    · intro h
      cases (wp_perform.mp h).1
    · rintro ⟨⟨_, absent, _⟩, _⟩
      cases absent
  | some content =>
    have quiet (message : String) (f : Unit → FProg Unit) :
        (reportIf (decide ((0 : BitVec 32) = -1)) message >>= f) = f () := rfl
    have sought (whence : Whence) (f : BitVec 32 → FProg Unit) (printed : List String) (pos : Nat) :
        (perform (.fseek whence) >>= f).wp (fileView files exit) Q ⟨some (content, pos), none, printed⟩ ↔
          (f 0).wp (fileView files exit) Q ⟨some (content, whence.position content), none, printed⟩ :=
      wp_call (o := .fseek whence) rfl fun _ _ => Iff.rfl
    have told (f : BitVec 64 → FProg Unit) (pos : Nat) :
        (perform .ftell >>= f).wp (fileView files exit) Q ⟨some (content, pos), none, printed⟩ ↔
          (f (BitVec.ofNat 64 pos)).wp (fileView files exit) Q ⟨some (content, pos), none, printed⟩ :=
      wp_call (o := .ftell) rfl fun _ _ => Iff.rfl
    have size : (BitVec.ofNat 64 content.length).setWidth 32 = BitVec.ofNat 32 content.length := by
      apply BitVec.eq_of_toNat_eq
      rw [BitVec.toNat_setWidth, BitVec.toNat_ofNat, BitVec.toNat_ofNat]
      exact Nat.mod_mod_of_dvd _ (by decide)
    rw [Option.map_some, sought, quiet, told, Whence.position, size, readSized]
    by_cases small : sizeOf content < 2 ^ 31 - 1
    · have positive : decide (BitVec.ofNat 32 content.length = -1) = false := by
        apply decide_eq_false
        intro minus
        have value := toNat_size content
        rw [minus] at value
        rw [← value] at small
        exact absurd small (by decide)
      rw [positive]
      show (perform (.fseek .seekSet) >>= _).wp (fileView files exit) Q _ ↔ _
      rw [sought, quiet, Whence.position, wp_mallocNext small]
      constructor
      · rintro ⟨ended, final⟩
        exact ⟨⟨content, rfl, small, ended⟩, final⟩
      · rintro ⟨⟨_, ⟨rfl⟩, readable⟩, final⟩
        exact ⟨readable.ended, final⟩
    · constructor
      · intro h
        obtain ⟨printed, rest⟩ := reportIf_rest h
        rw [sought, quiet, Whence.position] at rest
        exact (not_wp_mallocNext small rest).elim
      · rintro ⟨⟨_, ⟨rfl⟩, readable⟩, _⟩
        exact (small readable.small).elim

end Iteration

/-! ### The benchmark -/

section Runs
variable {files : String → Option Bytes} {exit : Process → Prop}

theorem wp_readFiles (iterations : List Nat) {Q : Unit → Process → Prop} {printed : List String} :
    (forEach iterations readFile).wp (fileView files exit) Q ⟨none, none, printed⟩ ↔
      (∀ i ∈ iterations, Sound files i) ∧ Q () ⟨none, none, printed ++ iterations.flatMap (found files)⟩ := by
  induction iterations generalizing printed with
  | nil =>
    rw [List.flatMap_nil, List.append_nil]
    have ended := Program.wp_done_still (V := fileView files exit) (fun _ _ => id) (a := ()) (Q := Q) (s := ⟨none, none, printed⟩)
    exact ended.trans ⟨fun final => ⟨(List.forall_mem_nil _), final⟩, And.right⟩
  | cons i iterations ih =>
    rw [Program.forEach_cons, Program.wp_bind, wp_readFile, ih, List.forall_mem_cons, List.flatMap_cons, List.append_assoc,
      and_assoc]

theorem wp_fileWork (iterations : Nat) {Q : Unit → Process → Prop} :
    (fileWork iterations).wp (fileView files exit) Q ⟨none, none, []⟩ ↔
      (∀ i < iterations, Sound files i) ∧ exit ⟨none, none, (List.range iterations).flatMap (found files)⟩ := by
  rw [fileWork, Program.wp_bind, wp_readFiles, wp_perform]
  constructor
  · rintro ⟨sound, final, -⟩
    exact ⟨fun i bound => sound i (List.mem_range.mpr bound), final⟩
  · rintro ⟨sound, final⟩
    exact ⟨fun i member => sound i (List.mem_range.mp member), final, fun never => never.elim⟩

/-- In some run of the benchmark, `p` is what remains to be done in `s`. -/
def Reaches (files : String → Option Bytes) (iterations : Nat) (p : FProg Unit) (s : Process) : Prop :=
  ∃ tr, (fileView files fun _ => True).Run (fileWork iterations) ⟨none, none, []⟩ tr p s

/-- Some run of `p` from `s` comes to the end of the thread in `t`. -/
def Exits (files : String → Option Bytes) (p : FProg Unit) (s t : Process) : Prop :=
  ∃ tr rest, (fileView files fun _ => True).Run p s tr (.act .pthreadExit rest) t

theorem allow_true (s : Process) (o : Act) : allow (fun _ => True) s o ↔ Defined s o := by
  cases o <;> exact Iff.rfl

/-- A call with a defined meaning returns. -/
theorem next_exists {s : Process} {o : Act} (defined : Defined s o) : o = .pthreadExit ∨ ∃ r t, next files s o r t := by
  cases o with
  | pthreadExit => exact Or.inl rfl
  | overflow => exact defined.elim
  | fseek whence => exact Or.inr ⟨_, _, rfl, rfl⟩
  | ftell => exact Or.inr ⟨_, _, rfl, rfl⟩
  | malloc bytes =>
    by_cases fits : bytes.toNat < 2 ^ 63
    · exact Or.inr ⟨(), _, (if_pos fits).mpr ⟨List.replicate bytes.toNat 0, List.length_replicate, rfl⟩⟩
    · exact Or.inr ⟨(), _, (if_neg fits).mpr rfl⟩
  | fread count =>
    obtain ⟨content, pos, block, file, body, -⟩ := defined
    exact Or.inr ⟨_, _, content, pos, block, file, body, rfl, rfl⟩
  | strstr needle =>
    obtain ⟨block, body, -⟩ := defined
    exact Or.inr ⟨_, _, rfl, block, body, rfl⟩
  | strerror => exact Or.inr ⟨"", _, rfl⟩
  | fopen path => exact Or.inr ⟨(), _, rfl⟩
  | cout line => exact Or.inr ⟨(), _, rfl⟩
  | free => exact Or.inr ⟨(), _, rfl⟩
  | fclose => exact Or.inr ⟨(), _, rfl⟩

/-- Where the files are sound, a run that has come to `p` goes on to the end of the thread,
which finds the process in one state only. -/
theorem exits_iff {iterations : Nat} (sound : ∀ i < iterations, Sound files i) {p : FProg Unit} {s : Process}
    (reached : Reaches files iterations p s) (t : Process) :
    Exits files p s t ↔ t = ⟨none, none, (List.range iterations).flatMap (found files)⟩ := by
  obtain ⟨tr, run⟩ := reached
  have whole : (fileWork iterations).wp
      (fileView files fun s => s = ⟨none, none, (List.range iterations).flatMap (found files)⟩) (fun _ _ => False)
      ⟨none, none, []⟩ := (wp_fileWork iterations).mpr ⟨sound, rfl⟩
  have rest := (run.allowing _).wp whole
  have final (t : Process) (ends : Exits files p s t) : t = ⟨none, none, (List.range iterations).flatMap (found files)⟩ := by
    obtain ⟨tr', rest', exit⟩ := ends
    exact (View.wp_iff.mp rest).1 tr' .pthreadExit rest' t (exit.allowing _)
  constructor
  · exact final t
  · rintro rfl
    have endless := run.wp ((wp_fileWork iterations (Q := fun _ _ => False)).mpr ⟨sound, trivial⟩)
    obtain ⟨tr', _, rest', u, exit, rfl⟩ := View.run_to_stop (P := fun o => o = .pthreadExit) endless
      fun t o allowed => next_exists ((allow_true t o).mp allowed)
    rw [← final u ⟨tr', rest', exit⟩]
    exact ⟨tr', rest', exit⟩

/-- Every call of every run has a defined meaning if and only if each file that is opened
exists, has a length that fits, and has a zero byte in it. Then the thread comes to its end
from every state it reaches, with every file closed and every block freed, and has printed a
line for each match. -/
theorem fileWork_defined_iff (files : String → Option Bytes) (iterations : Nat) :
    ((∀ o rest s, Reaches files iterations (.act o rest) s → Defined s o) ↔ ∀ i < iterations, Sound files i) ∧
    ((∀ i < iterations, Sound files i) → ∀ p s, Reaches files iterations p s → ∀ t,
      Exits files p s t ↔ t = ⟨none, none, (List.range iterations).flatMap (found files)⟩) := by
  have safe := (View.wp_iff (V := fileView files fun _ => True)).symm.trans
    (wp_fileWork iterations (Q := fun _ _ => True))
  refine ⟨⟨?_, ?_⟩, fun sound p s => exits_iff sound⟩
  · intro all
    apply fun h => (safe.mp h).1
    exact ⟨fun tr o rest s run => (allow_true s o).mpr (all o rest s ⟨tr, run⟩), fun _ _ _ _ => trivial⟩
  · rintro sound o rest s ⟨tr, run⟩
    exact (allow_true s o).mp ((safe.mpr ⟨sound, trivial⟩).1 tr o rest s run)

end Runs

end PmcBench.FileWork
