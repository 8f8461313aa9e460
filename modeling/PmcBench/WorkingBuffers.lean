import PmcBench.Sampling

/-!
# The working buffers of the benchmarks

Sizes are in bytes in some places of benchmarks.cc and in elements in others.
`staysInside_iff` says which benchmarks keep to the buffer they have allocated, in
both units.
-/

namespace PmcBench
open Threads
open Program (forEach)

variable {b : Build} {args : ThreadArgs} {size : Nat} {allocated : Bool}

/-- The sizes in bytes of `shared_array` and of the benchmark's own array. -/
structure Extents where
  shared : Option Nat
  a : Option Nat

namespace Extents

/-- The other thread allocates `shared_array`. -/
def Allocates (b : Build) (s t : Extents) : Prop := s.shared = none ∧ t = { s with shared := some (b.n * 8) }

/-- The sizes after an action, with `size` bytes for an element of the own array. The flag is
set before the array is allocated: only where `allocated` holds does a thread that finds it set
also find the array. -/
def next (b : Build) (size : Nat) (allocated : Bool) (s : Extents) : (o : Action) → o.Res → Extents → Prop
  | .testFlag, saFlag, t =>
    saFlag = true ∧ t = { s with shared := some (b.n * 8) } ∨ (saFlag = true → allocated = false) ∧ t = s
  | .mallocShared n, _, t => t = { s with shared := some (n * 8) }
  | .malloc .a n, _, t => t = { s with a := some (n * size) }
  | _, _, t => t = s

/-- The element, or the range of bytes, is inside its buffer. -/
def InBuffer (size : Nat) (s : Extents) : Action → Prop
  | .storeShared j _ | .loadShared j => ∃ n, s.shared = some n ∧ (j + 1) * 8 ≤ n
  | .store .a i _ | .load .a i => ∃ n, s.a = some n ∧ (i + 1) * size ≤ n
  | .fakeOut none bytes => ∃ n : Nat, s.shared = some n ∧ 0 ≤ bytes ∧ bytes ≤ n
  | .fakeOut (some .a) bytes => ∃ n : Nat, s.a = some n ∧ 0 ≤ bytes ∧ bytes ≤ n
  | _ => True

end Extents

/-- A benchmark's view of the buffers, in which the other thread may allocate `shared_array` at
any time. -/
abbrev bufferView (b : Build) (size : Nat) (allocated : Bool) : View Action Action.Res where
  St := Extents
  rely := Extents.Allocates b
  allow := Extents.InBuffer size
  next := Extents.next b size allocated

/-- `uint8_t` in `bm_cache_line_test`, `uint64_t` elsewhere. -/
def Benchmark.elementSize : Benchmark → Nat
  | bmCacheLineTest => 1
  | _ => 8

/-- Every access of every run of the benchmark is inside its buffer. -/
def StaysInside (b : Build) (allocated : Bool) (bm : Benchmark) (args : ThreadArgs) : Prop :=
  ∀ tr o next s, (bufferView b bm.elementSize allocated).Run (bm.body b args) ⟨none, none⟩ tr (.act o next) s →
    s.InBuffer bm.elementSize o

/-- Which benchmarks stay inside, for how many iterations. -/
def Benchmark.InsideWhen (b : Build) (allocated : Bool) (iterations : Nat) : Benchmark → Prop
  | bmSingleDArrayMultithreadedT1 => iterations = 0
  | bmSingleDArrayMultithreadedT2 | bmSingleDArrayMultithreadedT3 | bmSingleDArrayMultithreadedT4 | onedArrays => False
  | bmCacheLineTest => iterations = 0 ∨ b.l2Size % 2 ^ 32 < 2 ^ 31
  | bmSingleDArrayWriteMultithreaded => iterations = 0 ∨ allocated = true
  | _ => True

/-! ### Actions that leave the buffers -/

def Action.fixed : Action → Bool
  | .testFlag | .mallocShared _ | .malloc .a _ => false
  | _ => true

theorem Extents.next_fixed {e t : Extents} {o : Action} (fixed : o.fixed = true) (r : o.Res) :
    e.next b size allocated o r t ↔ t = e := by
  cases o
  case testFlag | mallocShared => cases fixed
  case malloc buf n =>
    cases buf
    case a => cases fixed
    all_goals rfl
  all_goals rfl

/-- What the other thread has done so far. -/
def Extents.Grows (b : Build) : Extents → Extents → Prop := Relation.ReflTransGen (Extents.Allocates b)

theorem Extents.Grows.cases {s t : Extents} (grows : s.Grows b t) :
    t = s ∨ s.shared = none ∧ t = { s with shared := some (b.n * 8) } := by
  induction grows with
  | refl => exact Or.inl rfl
  | tail _ step ih =>
    obtain ⟨none, rfl⟩ := step
    rcases ih with rfl | ⟨-, rfl⟩
    · exact Or.inr ⟨none, rfl⟩
    · cases none

theorem Extents.InBuffer.grows {s t : Extents} {o : Action} (inside : s.InBuffer size o) (grows : s.Grows b t) :
    t.InBuffer size o := by
  rcases grows.cases with rfl | ⟨none, rfl⟩
  · exact inside
  cases o
  case storeShared | loadShared =>
    obtain ⟨n, some, -⟩ := inside
    rw [none] at some
    cases some
  case fakeOut buf bytes =>
    cases buf with
    | none =>
      obtain ⟨n, some, -⟩ := inside
      rw [none] at some
      cases some
    | some buf => cases buf <;> exact inside
  case store buf _ _ | load buf _ => cases buf <;> exact inside
  all_goals trivial

/-- The action leaves the buffers and stays inside them. -/
def Steady (size : Nat) (e : Extents) (o : Action) : Prop := o.fixed = true ∧ e.InBuffer size o

theorem fixed_of_sampling (o : Action) (own : o.ofSampling = true) : o.fixed = true := by
  cases o
  case testFlag | mallocShared => cases own
  case malloc buf n => cases own
  all_goals rfl

theorem steady_of_sampling {e : Extents} (o : Action) (own : o.ofSampling = true) : Steady size e o := by
  refine ⟨fixed_of_sampling o own, ?_⟩
  cases o
  case load buf i => cases buf <;> trivial
  case storeShared | loadShared | store | fakeOut => cases own
  all_goals trivial

theorem steady_of_handsOver {e : Extents} (o : Action) (hand : o.handsOver = true) : Steady size e o := by
  cases o
  case waitCanRun | setCanRun => exact ⟨rfl, trivial⟩
  all_goals cases hand

theorem wp_steady {α : Type} {p : Prog α} {e : Extents} (steady : p.All (Steady size e)) :
    p.wp (bufferView b size allocated) (fun _ s => e.Grows b s) e := by
  refine Program.wp_of_preserves (fun _ _ grows moved => grows.tail moved) (steady.mono ?_) .refl
  rintro o ⟨fixed, inside⟩ s grows
  refine ⟨inside.grows grows, fun r t step => ?_⟩
  rw [(Extents.next_fixed fixed r).mp step]
  exact grows

theorem wp_steady_bind {α β : Type} {p : Prog α} {f : α → Prog β} {e : Extents} {Q : β → Extents → Prop}
    (steady : p.All (Steady size e)) (rest : ∀ a, (f a).wp (bufferView b size allocated) Q e) :
    (p >>= f).wp (bufferView b size allocated) Q e :=
  Program.wp_seq (wp_steady steady) fun a _ grows => Program.wp_rely (rest a) grows

theorem staysInside_wp {bm : Benchmark} : StaysInside b allocated bm args ↔
    (bm.body b args).wp (bufferView b bm.elementSize allocated) (fun _ _ => True) ⟨none, none⟩ := by
  rw [View.wp_iff]
  constructor
  · exact fun inside => ⟨inside, fun _ _ _ _ => trivial⟩
  · exact fun inside => inside.1

/-- A program that cannot avoid an access outside the buffers. -/
theorem not_wp_of_must {p : Prog Unit} {e : Extents} {φ : Action → Prop} {Q : Unit → Extents → Prop}
    (fixed : p.All fun o => o.fixed = true) (must : p.Must φ) (outside : ∀ o, φ o → ¬ e.InBuffer size o) :
    ¬ p.wp (bufferView b size allocated) Q e := by
  intro proved
  have kept : p.All fun o => ∀ s, s = e → ∃ r t, (bufferView b size allocated).next s o r t ∧ t = e := by
    apply fixed.mono
    intro o fixed s same
    obtain ⟨r⟩ := o.res_nonempty
    exact ⟨r, e, (Extents.next_fixed fixed r).mpr same.symm, rfl⟩
  obtain ⟨t, o, same, here, inside⟩ := must.allowed proved kept rfl
  exact outside o here (same ▸ inside)

/-! ### The allocations -/

theorem wp_stores_bind {β : Type} {n : Nat} {f : Unit → Prog β} {Q : β → Extents → Prop}
    (rest : (f ()).wp (bufferView b size allocated) Q ⟨none, none⟩) :
    (mallocStores n >>= f).wp (bufferView b size allocated) Q ⟨none, none⟩ := by
  apply wp_steady_bind
  · exact all_mallocStores (fun _ => ⟨rfl, trivial⟩) (fun _ => ⟨rfl, trivial⟩) n
  · exact fun _ => rest

theorem wp_setUp_bind {β : Type} {f : Unit → Prog β} {Q : β → Extents → Prop}
    (rest : (f ()).wp (bufferView b size allocated) Q ⟨some (b.n * 8), none⟩)
    (late : allocated = false → (f ()).wp (bufferView b size allocated) Q ⟨none, none⟩) :
    (setUpSharedArray b >>= f).wp (bufferView b size allocated) Q ⟨none, none⟩ := by
  have own {s : Extents} (grows : Extents.Grows b ⟨none, none⟩ s) : s.a = none := by
    rcases grows.cases with rfl | ⟨-, rfl⟩ <;> rfl
  refine Program.wp_bind.mpr fun s grows => ⟨trivial, fun saFlag t found => ?_⟩
  cases saFlag with
  | false =>
    have same : t = s := by
      rcases found with ⟨set, -⟩ | ⟨-, same⟩
      · cases set
      · exact same
    rw [same]
    intro s₁ more
    refine ⟨trivial, fun _ t₁ same => ?_⟩
    rw [show t₁ = s₁ from same]
    intro s₂ later
    refine ⟨trivial, fun _ t₂ same => ?_⟩
    have here : t₂ = ⟨some (b.n * 8), none⟩ := by
      rw [show t₂ = { s₂ with shared := some (b.n * 8) } from same, own ((grows.trans more).trans later)]
    rw [here]
    have fill : (forEach (List.range b.n) fun i => perform (.storeShared i (BitVec.ofNat 64 i))).All
        (Steady size ⟨some (b.n * 8), none⟩) := by
      refine .forEach fun i member => ⟨⟨rfl, _, rfl, ?_⟩, fun _ => trivial⟩
      have row := List.mem_range.mp member
      omega
    exact Program.wp_mono (wp_steady fill) fun _ _ grows => Program.wp_rely rest grows
  | true =>
    have done {e : Extents} (proved : (f ()).wp (bufferView b size allocated) Q e) :
        (Program.done ()).wp (bufferView b size allocated) (fun a => (f a).wp (bufferView b size allocated) Q) e :=
      fun _ grows => Program.wp_rely proved grows
    rcases found with ⟨-, same⟩ | ⟨unset, same⟩
    · have here : t = ⟨some (b.n * 8), none⟩ := by rw [same, own grows]
      rw [here]
      exact done rest
    · rw [same]
      exact done (Program.wp_rely (late (unset rfl)) grows)

theorem wp_own_bind {β : Type} {n : Nat} {f : Unit → Prog β} {Q : β → Extents → Prop}
    (rest : ∀ shared, (f ()).wp (bufferView b size allocated) Q ⟨shared, some (n * size)⟩) :
    (perform (.malloc .a n) >>= f).wp (bufferView b size allocated) Q ⟨none, none⟩ := by
  refine Program.wp_bind.mpr fun s _ => ⟨trivial, fun _ t same => ?_⟩
  rw [show t = { s with a := some (n * size) } from same]
  exact fun _ grows => Program.wp_rely (rest s.shared) grows

/-- What is left to prove once `sa_flag` is found set. -/
theorem wp_of_setUp {β : Type} {n : Nat} {f : Unit → Prog β} {Q : β → Extents → Prop} {e : Extents}
    (found : Extents.next b size allocated ⟨none, none⟩ .testFlag true e)
    (whole : (mallocStores n >>= fun _ => setUpSharedArray b >>= f).wp (bufferView b size allocated) Q ⟨none, none⟩) :
    (f ()).wp (bufferView b size allocated) Q e := by
  have first := (Program.wp_now (Program.wp_bind.mp whole)).2 () _ rfl
  have second := (Program.wp_now first).2 () _ rfl
  have setUp := (Program.wp_now (Program.wp_bind.mp (second _ .refl))).2 true _ found
  exact setUp _ .refl

theorem wp_of_own {β : Type} {k n : Nat} {f : Unit → Prog β} {Q : β → Extents → Prop}
    (whole : (mallocStores k >>= fun _ => perform (.malloc .a n) >>= f).wp (bufferView b size allocated) Q ⟨none, none⟩) :
    (f ()).wp (bufferView b size allocated) Q ⟨none, some (n * size)⟩ := by
  have first := (Program.wp_now (Program.wp_bind.mp whole)).2 () _ rfl
  have second := (Program.wp_now first).2 () _ rfl
  have own := (Program.wp_now (Program.wp_bind.mp (second _ .refl))).2 () _ rfl
  exact own _ .refl

/-! ### The benchmarks that stay inside -/

theorem steady_writeShared {v : Nat → Word} {e : Extents} (shared : e.shared = some (b.n * 8)) :
    (writeShared b.n v).All (Steady size e) := by
  refine ⟨⟨rfl, trivial⟩, fun _ => .forEach fun j member => ⟨⟨rfl, _, shared, ?_⟩, fun _ => trivial⟩⟩
  have row := List.mem_range.mp member
  omega

theorem wp_t1_noIterations (none : args.iterations = 0) :
    (bmSingleDArrayMultithreadedT1 b args).wp (bufferView b size allocated) (fun _ _ => True) ⟨.none, .none⟩ := by
  have rest (e : Extents) : (do
      waitForThread0 args
      samplingLoop args.iterations fun _ => timedSample b args (readShared (b.n % 2 ^ 32))
      letThread1Run args : Prog Unit).wp (bufferView b size allocated) (fun _ _ => True) e := by
    apply wp_steady_bind ((handsOver_waitForThread0 args).mono steady_of_handsOver)
    intro _
    apply wp_steady_bind
    · rw [none]
      exact all_samplingLoop steady_of_sampling (by simp)
    · exact fun _ => Program.wp_mono (wp_steady ((handsOver_letThread1Run args).mono steady_of_handsOver)) fun _ _ _ => trivial
  exact wp_stores_bind (wp_setUp_bind (rest _) fun _ => rest _)

theorem wp_writeMultithreaded (some : 0 < b.n) (fits : args.iterations = 0 ∨ allocated = true) :
    (bmSingleDArrayWriteMultithreaded b args).wp (bufferView b size allocated) (fun _ _ => True) ⟨none, none⟩ := by
  refine wp_stores_bind (wp_setUp_bind (Program.wp_mono (wp_steady ?_) fun _ _ _ => trivial) fun late => ?_)
  · apply all_samplingLoop steady_of_sampling
    intro _ _
    apply Program.All.bind (all_window steady_of_sampling ⟨rfl, trivial⟩ (steady_writeShared rfl))
    intro _
    refine ⟨⟨rfl, _, rfl, ?_, ?_⟩, fun _ => ⟨steady_of_sampling _ rfl, fun _ => trivial⟩⟩
    · omega
    · omega
  · rcases fits with none | found
    · rw [none]
      exact Program.wp_mono (wp_steady (all_samplingLoop steady_of_sampling (by simp))) fun _ _ _ => trivial
    · rw [found] at late
      cases late

theorem wp_singleDArray (some : 0 < b.n) :
    (bmSingleDArray b args).wp (bufferView b 8 allocated) (fun _ _ => True) ⟨none, none⟩ := by
  refine wp_stores_bind (wp_own_bind fun shared => ?_)
  apply wp_steady_bind
  · refine .forEach fun i member => ⟨⟨rfl, _, rfl, ?_⟩, fun _ => trivial⟩
    have row := List.mem_range.mp member
    omega
  · refine fun _ => Program.wp_mono (wp_steady ?_) fun _ _ _ => trivial
    apply all_samplingLoop steady_of_sampling
    intro _ _
    refine (all_window steady_of_sampling ⟨rfl, trivial⟩ (.forEach fun j member => ?_)).bind fun _ => ?_
    · have row := List.mem_range.mp member
      exact ⟨⟨rfl, _, rfl, by omega⟩, fun _ => trivial⟩
    · exact ⟨⟨rfl, _, rfl, by omega, by omega⟩, fun _ => ⟨steady_of_sampling _ rfl, fun _ => trivial⟩⟩

theorem intL2Size_eq (b : Build) : b.intL2Size =
    if b.l2Size % 2 ^ 32 < 2 ^ 31 then ((b.l2Size % 2 ^ 32 : Nat) : Int)
    else ((b.l2Size % 2 ^ 32 : Nat) : Int) - (2 ^ 32 : Nat) := by
  unfold Build.intL2Size
  rw [Int.bmod_def]
  split <;> split <;> omega

theorem intL2Size_le (b : Build) : b.intL2Size ≤ b.l2Size := by
  rw [intL2Size_eq]
  split <;> omega

theorem wp_cacheLineTest (line : 64 ≤ b.l2Size) (fits : args.iterations = 0 ∨ b.l2Size % 2 ^ 32 < 2 ^ 31) :
    (bmCacheLineTest b args).wp (bufferView b 1 allocated) (fun _ _ => True) ⟨none, none⟩ := by
  have le := intL2Size_le b
  have sign : args.iterations = 0 ∨ 0 ≤ b.intL2Size := by
    rw [intL2Size_eq]
    split <;> omega
  obtain ⟨n, same⟩ : ∃ n, n = b.intL2Size := ⟨_, rfl⟩
  rw [← same] at le sign
  simp only [bmCacheLineTest]
  rw [← same]
  refine wp_stores_bind (wp_own_bind fun shared => ?_)
  have store (j : Nat) (v : Word) (inside : j < n.toNat) : Steady 1 ⟨shared, some (b.l2Size * 1)⟩ (.store .a j v) :=
    ⟨rfl, _, rfl, by omega⟩
  apply wp_steady_bind
  · exact .forEach fun i member => ⟨store i _ (List.mem_range.mp member), fun _ => trivial⟩
  · refine fun _ => Program.wp_mono (wp_steady ?_) fun _ _ _ => trivial
    apply all_samplingLoop steady_of_sampling
    intro i lt
    have positive : 0 ≤ n := by omega
    have flush : Steady 1 ⟨shared, some (b.l2Size * 1)⟩ (.fakeOut (some .a) (n.tdiv 8)) := by
      rw [Int.tdiv_eq_ediv_of_nonneg positive]
      exact ⟨rfl, _, rfl, by omega, by omega⟩
    have others : (forEach (List.range' 64 (n.toNat - 64)) fun j =>
        perform (.store .a j (BitVec.ofNat 64 (i * j % 256)))).All (Steady 1 ⟨shared, some (b.l2Size * 1)⟩) := by
      refine .forEach fun j member => ?_
      have row := List.mem_range'_1.mp member
      exact ⟨store j _ (by omega), fun _ => trivial⟩
    refine (all_window steady_of_sampling ⟨rfl, trivial⟩ (.forEach fun j member => ?_)).bind fun _ => ?_
    · have row := List.mem_range.mp member
      exact ⟨⟨rfl, _, rfl, by omega⟩, fun _ => trivial⟩
    · refine Program.All.bind (p := perform .incCounts) ⟨steady_of_sampling _ rfl, fun _ => trivial⟩ fun _ => ?_
      refine Program.All.bind (p := perform (.fakeOut (some .a) (n.tdiv 8))) ⟨flush, fun _ => trivial⟩ fun _ => ?_
      exact others.bind fun _ => ⟨flush, fun _ => trivial⟩

theorem wp_cacheWork : (cacheWork b args).wp (bufferView b 8 allocated) (fun _ _ => True) ⟨none, none⟩ := by
  refine wp_stores_bind (wp_own_bind fun shared => ?_)
  have store {k : Nat} (inside : k < 500) (v : Word) : Steady 8 ⟨shared, some (50 * 10 * 8)⟩ (.store .a k v) :=
    ⟨rfl, _, rfl, by omega⟩
  have load {k : Nat} (inside : k < 500) : Steady 8 ⟨shared, some (50 * 10 * 8)⟩ (.load .a k) := ⟨rfl, _, rfl, by omega⟩
  apply wp_steady_bind
  · refine .forEach fun i row => .forEach fun j column => ?_
    have row := List.mem_range.mp row
    have column := List.mem_range.mp column
    exact ⟨⟨rfl, trivial⟩, fun _ => ⟨store (by omega) _, fun _ => trivial⟩⟩
  · refine fun _ => Program.wp_mono (wp_steady ?_) fun _ _ _ => trivial
    apply all_samplingLoop steady_of_sampling
    intro _ _
    refine (all_window steady_of_sampling ⟨rfl, trivial⟩ (.forEach fun i row => .forEach fun j column => ?_)).bind fun _ =>
      ⟨steady_of_sampling _ rfl, fun _ => trivial⟩
    have row := List.mem_range.mp row
    have column := List.mem_range.mp column
    exact ⟨load (by omega), fun _ => ⟨store (by omega) _, fun _ => trivial⟩⟩

/-- Both loop orders, stated through an equation as in `quiet_fillArr2d`. -/
theorem steady_fillArr2d {p : Prog Unit} (same : p = fillArr2d) {e : Extents} : p.All (Steady size e) := by
  unfold fillArr2d at same
  generalize List.range 1024 = rows at same
  generalize List.range 16 = columns at same
  rw [same]
  exact .forEach fun i _ => .forEach fun j _ => ⟨⟨rfl, trivial⟩, fun _ => trivial⟩

theorem wp_2dArray : (bm2dArray b args).wp (bufferView b 8 allocated) (fun _ _ => True) ⟨none, none⟩ := by
  unfold bm2dArray
  generalize fill : fillArr2d = p
  generalize List.range 1024 = rows
  generalize List.range 16 = columns
  refine wp_stores_bind (wp_steady_bind (steady_fillArr2d fill.symm) fun _ => ?_)
  refine Program.wp_mono (wp_steady (all_samplingLoop steady_of_sampling fun _ _ => ?_)) fun _ _ _ => trivial
  refine (all_window steady_of_sampling ⟨rfl, trivial⟩ ?_).bind fun _ => ⟨steady_of_sampling _ rfl, fun _ => trivial⟩
  exact .forEach fun i _ => .forEach fun j _ => ⟨⟨rfl, trivial⟩, fun _ => trivial⟩

theorem wp_2dArrayNonCont : (bm2dArrayNonCont b args).wp (bufferView b 8 allocated) (fun _ _ => True) ⟨none, none⟩ := by
  unfold bm2dArrayNonCont
  generalize fill : fillArr2d = p
  generalize List.range 1024 = rows
  generalize List.range 16 = columns
  refine wp_stores_bind (wp_steady_bind (steady_fillArr2d fill.symm) fun _ => ?_)
  refine Program.wp_mono (wp_steady (all_samplingLoop steady_of_sampling fun _ _ => ?_)) fun _ _ _ => trivial
  refine (all_window steady_of_sampling ⟨rfl, trivial⟩ ?_).bind fun _ => ⟨steady_of_sampling _ rfl, fun _ => trivial⟩
  exact .forEach fun j _ => .forEach fun i _ => ⟨⟨rfl, trivial⟩, fun _ => trivial⟩

/-! ### The benchmarks that leave their buffer -/

theorem fixed_of_handsOver (o : Action) (hand : o.handsOver = true) : o.fixed = true := by
  have steady : Steady 8 ⟨none, none⟩ o := steady_of_handsOver o hand
  exact steady.1

theorem fixed_readShared (last : Nat) : (readShared last).All fun o => o.fixed = true :=
  ⟨rfl, fun _ => .forEach fun _ _ => ⟨rfl, fun _ => trivial⟩⟩

theorem fixed_writeShared (last : Nat) (v : Nat → Word) : (writeShared last v).All fun o => o.fixed = true :=
  ⟨rfl, fun _ => .forEach fun _ _ => ⟨rfl, fun _ => trivial⟩⟩

theorem must_flush {measured : Prog Unit} : (timedSample b args measured).Must fun o => o = .fakeOut none b.l2Size :=
  .rest _ fun _ => .rest _ fun _ => Or.inl rfl

theorem must_samplingLoop {φ : Action → Prop} {n : Nat} {sample : Nat → Prog Unit} (some : 0 < n) (each : (sample 0).Must φ) :
    (samplingLoop n sample).Must φ := by
  apply Program.Must.first
  exact .forEach (List.mem_range.mpr some) (.rest (perform _) fun _ => each)

/-- `shared_array` has half of the `L2_SIZE` bytes that are handed on. -/
theorem not_wp_flush {n : Nat} {rest : Prog Unit} (positive : 0 < b.l2Size) (fixed : rest.All fun o => o.fixed = true)
    (must : rest.Must fun o => o = .fakeOut none b.l2Size) :
    ¬ (mallocStores n >>= fun _ => setUpSharedArray b >>= fun _ => rest).wp (bufferView b size allocated) (fun _ _ => True)
      ⟨none, none⟩ := by
  intro whole
  refine not_wp_of_must fixed must ?_ (wp_of_setUp (Or.inl ⟨rfl, rfl⟩) whole)
  rintro _ rfl ⟨bytes, allocated, -, le⟩
  obtain rfl : b.n * 8 = bytes := Option.some.inj allocated
  have half : b.n * 8 ≤ b.l2Size / 2 := by
    unfold Build.n
    omega
  omega

theorem not_wp_timed {bm : Benchmark} (positive : 0 < b.l2Size) (timed : bm.timed = true)
    (sampled : 0 < bm.samples args.iterations) :
    ¬ (bm.body b args).wp (bufferView b size allocated) (fun _ _ => True) ⟨none, none⟩ := by
  have wait := (handsOver_waitForThread0 args).mono fixed_of_handsOver
  have run := (handsOver_letThread1Run args).mono fixed_of_handsOver
  have read (last : Nat) : (timedSample b args (readShared last)).All fun o => o.fixed = true :=
    all_timedSample fixed_of_sampling rfl rfl (fixed_readShared last)
  have reads (n last : Nat) : (samplingLoop n fun _ => timedSample b args (readShared last)).All fun o => o.fixed = true :=
    all_samplingLoop fixed_of_sampling fun _ _ => read last
  have write : (timedSample b args (writeShared b.n (BitVec.ofNat 64))).All fun o => o.fixed = true :=
    all_timedSample fixed_of_sampling rfl rfl (fixed_writeShared _ _)
  cases bm with
  | bmSingleDArrayMultithreadedT1 =>
    exact not_wp_flush positive (wait.bind fun _ => (reads _ _).bind fun _ => run)
      (.rest _ fun _ => .first (must_samplingLoop sampled must_flush) _)
  | bmSingleDArrayMultithreadedT2 =>
    exact not_wp_flush positive (wait.bind fun _ => (reads _ _).bind fun _ => write.bind fun _ => (reads _ _).bind fun _ => run)
      (.rest _ fun _ => .rest _ fun _ => .first must_flush _)
  | bmSingleDArrayMultithreadedT3 =>
    exact not_wp_flush positive ((reads _ _).bind fun _ => write) (.rest _ fun _ => must_flush)
  | bmSingleDArrayMultithreadedT4 =>
    exact not_wp_flush positive (write.bind fun _ => reads _ _) (.first must_flush _)
  | _ => cases timed

/-- A thread that has found the flag set without the array writes through a null pointer. -/
theorem not_wp_writeMultithreaded (some : 0 < b.n) (sampled : 0 < args.iterations) :
    ¬ (bmSingleDArrayWriteMultithreaded b args).wp (bufferView b size false) (fun _ _ => True) ⟨none, none⟩ := by
  intro whole
  refine not_wp_of_must (φ := fun o => ∃ v, o = .storeShared 0 v) ?_ ?_ ?_
    (wp_of_setUp (e := ⟨none, none⟩) (Or.inr ⟨fun _ => rfl, rfl⟩) whole)
  · apply all_samplingLoop fixed_of_sampling
    intro _ _
    exact (all_window fixed_of_sampling rfl (fixed_writeShared _ _)).bind fun _ => ⟨rfl, fun _ => ⟨rfl, fun _ => trivial⟩⟩
  · refine must_samplingLoop sampled (.first (.rest _ fun _ => .rest _ fun _ => .first ?_ _) _)
    exact .rest (perform (.point .measured)) fun _ => .forEach (i := 0) (List.mem_range.mpr some) (.call ⟨_, rfl⟩)
  · rintro _ ⟨v, rfl⟩ ⟨n, found, -⟩
    cases found

/-- The fill stores `L2_SIZE` elements of 8 bytes into `L2_SIZE` bytes. -/
theorem not_wp_onedArrays (positive : 0 < b.l2Size) :
    ¬ (onedArrays b args).wp (bufferView b 8 allocated) (fun _ _ => True) ⟨none, none⟩ := by
  intro whole
  refine not_wp_of_must (φ := fun o => ∃ v, o = .store .a (b.l2Size - 1) v) ?_ ?_ ?_ (wp_of_own whole)
  · refine Program.All.bind (.forEach fun i _ => ⟨rfl, fun _ => ⟨rfl, fun _ => trivial⟩⟩) fun _ => ?_
    apply all_samplingLoop fixed_of_sampling
    intro _ _
    have nothing : (pure () : Prog Unit).All fun o => o.fixed = true := trivial
    exact (all_window fixed_of_sampling rfl nothing).bind fun _ => ⟨rfl, fun _ => trivial⟩
  · apply Program.Must.first
    refine .forEach (i := b.l2Size - 1) (List.mem_range.mpr (by omega)) ?_
    exact .rest (perform .xorshift128plus) fun x => .call ⟨_, rfl⟩
  · rintro _ ⟨v, rfl⟩ ⟨bytes, allocated, le⟩
    obtain rfl : b.l2Size / 8 * 8 = bytes := Option.some.inj allocated
    omega

/-- An `L2_SIZE` that is negative as an `int` is handed on as a length. -/
theorem not_wp_cacheLineTest (line : 64 ∣ b.l2Size) (some : 0 < args.iterations) (large : ¬ b.l2Size % 2 ^ 32 < 2 ^ 31) :
    ¬ (bmCacheLineTest b args).wp (bufferView b 1 allocated) (fun _ _ => True) ⟨none, none⟩ := by
  have negative : b.intL2Size < 0 ∧ (8 : Int) ∣ b.intL2Size := by
    rw [intL2Size_eq, if_neg large]
    omega
  obtain ⟨n, same⟩ : ∃ n, n = b.intL2Size := ⟨_, rfl⟩
  rw [← same] at negative
  simp only [bmCacheLineTest]
  rw [← same]
  intro whole
  refine not_wp_of_must (φ := fun o => o = .fakeOut (.some .a) (n.tdiv 8)) ?_ ?_ ?_ (wp_of_own whole)
  · refine Program.All.bind (.forEach fun i _ => ⟨rfl, fun _ => trivial⟩) fun _ => ?_
    apply all_samplingLoop fixed_of_sampling
    intro i _
    refine (all_window fixed_of_sampling rfl (.forEach fun j _ => ?_)).bind fun _ => ?_
    · exact ⟨rfl, fun _ => trivial⟩
    refine Program.All.bind (p := perform .incCounts) ⟨rfl, fun _ => trivial⟩ fun _ => ?_
    refine Program.All.bind (p := perform (.fakeOut (.some .a) (n.tdiv 8))) ⟨rfl, fun _ => trivial⟩ fun _ => ?_
    exact Program.All.bind (.forEach fun j _ => ⟨rfl, fun _ => trivial⟩) fun _ => ⟨rfl, fun _ => trivial⟩
  · apply Program.Must.rest
    intro _
    exact must_samplingLoop some (.rest _ fun _ => .rest (perform .incCounts) fun _ => Or.inl rfl)
  · rintro _ rfl ⟨bytes, -, nonneg, -⟩
    obtain ⟨k, rfl⟩ := negative.2
    rw [Int.mul_tdiv_cancel_left k (by decide)] at nonneg
    omega

/-! ### Who stays inside -/

/-- For every `L2_SIZE` that is a multiple of a line. -/
theorem staysInside_iff (positive : 0 < b.l2Size) (line : 64 ∣ b.l2Size) (allocated : Bool) (bm : Benchmark)
    (args : ThreadArgs) : StaysInside b allocated bm args ↔ bm.InsideWhen b allocated args.iterations := by
  have room : 64 ≤ b.l2Size := Nat.le_of_dvd positive line
  have some : 0 < b.n := by
    unfold Build.n
    omega
  rw [staysInside_wp]
  cases bm with
  | bmSingleDArrayMultithreadedT1 =>
    constructor
    · intro inside
      by_contra sampled
      have some : 0 < Benchmark.bmSingleDArrayMultithreadedT1.samples args.iterations := Nat.pos_of_ne_zero sampled
      exact not_wp_timed positive rfl some inside
    · exact wp_t1_noIterations
  | bmSingleDArrayMultithreadedT2 =>
    have sampled : 0 < args.iterations / 2 + 1 + args.iterations / 2 := by omega
    exact iff_of_false (not_wp_timed positive rfl sampled) id
  | bmSingleDArrayMultithreadedT3 | bmSingleDArrayMultithreadedT4 =>
    have sampled : 0 < 10 := by omega
    exact iff_of_false (not_wp_timed positive rfl sampled) id
  | bmCacheLineTest =>
    constructor
    · intro inside
      by_contra fails
      obtain ⟨sampled, large⟩ := not_or.mp fails
      exact not_wp_cacheLineTest line (Nat.pos_of_ne_zero sampled) large inside
    · exact wp_cacheLineTest room
  | bmSingleDArray => exact iff_of_true (wp_singleDArray some) trivial
  | bm2dArray => exact iff_of_true wp_2dArray trivial
  | bm2dArrayNonCont => exact iff_of_true wp_2dArrayNonCont trivial
  | cacheWork => exact iff_of_true wp_cacheWork trivial
  | onedArrays => exact iff_of_false (not_wp_onedArrays positive) id
  | bmSingleDArrayWriteMultithreaded =>
    constructor
    · intro inside
      by_contra fails
      obtain ⟨sampled, late⟩ := not_or.mp fails
      rw [Bool.not_eq_true] at late
      subst late
      exact not_wp_writeMultithreaded some (Nat.pos_of_ne_zero sampled) inside
    · exact wp_writeMultithreaded some

theorem staysInside_writeMultithreaded_dedos07 :
    StaysInside dedos07 true .bmSingleDArrayWriteMultithreaded { iterations := 10, id := 0, cpuMsr := 1 } :=
  (staysInside_iff (by decide) (by decide) _ _ _).mpr (Or.inr rfl)

/-- 262144 bytes of a `shared_array` of 131072. -/
theorem not_staysInside_t1_dedos07 :
    ¬ StaysInside dedos07 true .bmSingleDArrayMultithreadedT1 { iterations := 1, id := 0, cpuMsr := 1 } :=
  fun inside => not_wp_timed (by decide) rfl (by decide) (staysInside_wp.mp inside)

end PmcBench
