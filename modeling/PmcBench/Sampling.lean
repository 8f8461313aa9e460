import PmcBench.Benchmarks

/-!
# The shape of the benchmarks

Every benchmark allocates its stores, does some work that no specification here
depends on, and takes its samples one by one. `Sampling.wp_body` goes through the
functions once for all properties of that shape: it asks for an invariant of the
sampling, indexed by the number of samples taken and by the phase of the current
one, and gives it at the end for the number of samples the benchmark takes.
-/

namespace PmcBench
open Threads
open Program (forEach)

theorem Action.res_nonempty (o : Action) : Nonempty o.Res := by cases o <;> exact ⟨default⟩

/-- Actions on the benchmark's data. -/
def Action.quiet : Action → Bool
  | .testFlag | .setFlag | .mallocShared _ | .storeShared .. | .loadShared _ | .xorshift128plus | .load2d ..
  | .store2d .. | .malloc .a _ | .load .a _ | .store .a .. | .fakeOut .. | .point .measured => true
  | _ => false

/-- The actions of the hand-over between threads 0 and 1. -/
def Action.handsOver : Action → Bool
  | .waitCanRun | .setCanRun => true
  | _ => false

abbrev QuietProg {α : Type} (p : Prog α) : Prop := p.All fun o => o.quiet = true

theorem quiet_setUpSharedArray (b : Build) : QuietProg (setUpSharedArray b) := by
  apply Program.All.bind (by simp [Action.quiet])
  intro saFlag
  split
  · exact ⟨rfl, fun _ => ⟨rfl, fun _ => .forEach fun i _ => by simp [Action.quiet]⟩⟩
  · trivial

theorem handsOver_waitForThread0 (args : ThreadArgs) : (waitForThread0 args).All fun o => o.handsOver = true := by
  unfold waitForThread0
  split <;> simp [Action.handsOver]

theorem handsOver_letThread1Run (args : ThreadArgs) : (letThread1Run args).All fun o => o.handsOver = true := by
  unfold letThread1Run
  split <;> simp [Action.handsOver]

theorem quiet_readShared (last : Nat) : QuietProg (readShared last) :=
  ⟨rfl, fun _ => .forEach fun j _ => by simp [Action.quiet]⟩

theorem quiet_writeShared (last : Nat) (v : Nat → Word) : QuietProg (writeShared last v) :=
  ⟨rfl, fun _ => .forEach fun j _ => by simp [Action.quiet]⟩

theorem quiet_fill (l : List Nat) (v : Nat → Word) : QuietProg (forEach l fun i => perform (.store .a i (v i))) :=
  .forEach fun _ _ => ⟨rfl, fun _ => trivial⟩

theorem quiet_loads (l : List Nat) : QuietProg (forEach l fun j => do let _ ← perform (.load .a j)) :=
  .forEach fun _ _ => ⟨rfl, fun _ => trivial⟩

/-- Stated through an equation, so that using it never evaluates the 1024 rows. -/
theorem quiet_fillArr2d {p : Prog Unit} (same : p = fillArr2d) : QuietProg p := by
  unfold fillArr2d at same
  generalize List.range 1024 = rows at same
  generalize List.range 16 = columns at same
  rw [same]
  exact .forEach fun i _ => .forEach fun j _ => by simp [Action.quiet]

/-- The actions of the sampling itself, besides the opening of its windows. -/
def Action.ofSampling : Action → Bool
  | .point .head | .gettimeofday | .pushTime _ | .readInto _ _ .storeStart _ | .readInto _ _ .storeEnd _ | .counts
  | .load .storeStart _ | .load .storeEnd _ | .setValue .. | .incCounts => true
  | _ => false

section
variable {b : Build} {args : ThreadArgs} {measured : Prog Unit} {φ : Action → Prop}

theorem all_mallocStores (start : ∀ n, φ (.malloc .storeStart n)) (stop : ∀ n, φ (.malloc .storeEnd n)) (size : Nat) :
    (mallocStores size).All φ := ⟨start size, fun _ => ⟨stop size, fun _ => trivial⟩⟩

theorem all_readValues {cpuMsr : Cpu} {buf : Buf} (read : ∀ reg i, φ (.readInto cpuMsr reg buf i)) :
    (readValues b cpuMsr buf).All φ := .forEach fun _ _ => ⟨read _ _, fun _ => trivial⟩

theorem all_recordDeltas (counts : φ .counts) (stop : ∀ i, φ (.load .storeEnd i)) (start : ∀ i, φ (.load .storeStart i))
    (value : ∀ c k v, φ (.setValue c k v)) : (recordDeltas b).All φ :=
  .forEach fun _ _ => ⟨counts, fun _ => ⟨stop _, fun _ => ⟨start _, fun _ => ⟨value .., fun _ => trivial⟩⟩⟩⟩

theorem all_takeTime (own : ∀ o, Action.ofSampling o = true → φ o) : takeTime.All φ :=
  ⟨own _ rfl, fun _ => ⟨own _ rfl, fun _ => trivial⟩⟩

theorem all_window (own : ∀ o, Action.ofSampling o = true → φ o) (opened : φ (.point .window)) (inner : measured.All φ) :
    (window b args measured).All φ := by
  refine ⟨opened, fun _ => (all_readValues fun _ _ => own _ rfl).bind fun _ => inner.bind fun _ => ?_⟩
  apply (all_readValues fun _ _ => own _ rfl).bind
  intro _
  exact all_recordDeltas (own _ rfl) (fun _ => own _ rfl) (fun _ => own _ rfl) fun _ _ _ => own _ rfl

theorem all_samplingLoop {n : Nat} {sample : Nat → Prog Unit} (own : ∀ o, Action.ofSampling o = true → φ o)
    (each : ∀ i < n, (sample i).All φ) : (samplingLoop n sample).All φ := by
  refine Program.All.bind (.forEach fun i member => ?_) fun _ => ⟨own _ rfl, fun _ => trivial⟩
  exact ⟨own _ rfl, fun _ => each i (List.mem_range.mp member)⟩

theorem all_timedSample (own : ∀ o, Action.ofSampling o = true → φ o) (opened : φ (.point .window))
    (flush : φ (.fakeOut none b.l2Size)) (inner : measured.All φ) : (timedSample b args measured).All φ := by
  refine (all_takeTime own).bind fun _ => (all_window own opened inner).bind fun _ => ?_
  exact ⟨flush, fun _ => ⟨own _ rfl, fun _ => trivial⟩⟩

end

/-- Where a sample stands: before it, after its time stamp, after its window. -/
inductive Phase where
  | idle | stamped | recorded

/-- An invariant of the sampling: `I phase m` while sample `m` is in that phase, for
at most `N` samples. -/
structure Sampling (b : Build) (args : ThreadArgs) (timed : Bool) (N : Nat) (V : View Action Action.Res)
    (fresh : V.St → Prop) (I : Phase → Nat → V.St → Prop) : Prop where
  stable : ∀ {ph m s t}, I ph m s → V.rely s t → I ph m t
  quiet : ∀ {ph m o}, o.quiet = true → V.Preserves (I ph m) o
  start : ∀ {s size}, b.nCustomCtr ≤ size → fresh s → (mallocStores size).wp V (fun _ => I .idle 0) s
  head : ∀ {m}, m ≤ N → V.Preserves (I .idle m) (.point .head)
  takeTime : ∀ {m s}, timed = true → m < N → I .idle m s → takeTime.wp V (fun _ => I .stamped m) s
  untimed : ∀ {m s}, timed = false → m < N → I .idle m s → I .stamped m s
  window : ∀ {m s measured}, m < N → QuietProg measured → I .stamped m s →
    (window b args measured).wp V (fun _ => I .recorded m) s
  incCounts : ∀ {m s}, m < N → I .recorded m s → (perform .incCounts).wp V (fun _ => I .idle (m + 1)) s

namespace Sampling
variable {b : Build} {args : ThreadArgs} {timed : Bool} {N : Nat} {V : View Action Action.Res} {fresh : V.St → Prop}
  {I : Phase → Nat → V.St → Prop} (S : Sampling b args timed N V fresh I)
include S

theorem wp_quiet {α : Type} {p : Prog α} {ph : Phase} {m : Nat} {s : V.St} (quiet : QuietProg p) (h : I ph m s) :
    p.wp V (fun _ => I ph m) s :=
  Program.wp_of_preserves (fun _ _ => S.stable) (quiet.mono fun _ => S.quiet) h

theorem wp_quiet_bind {α β : Type} {p : Prog α} {f : α → Prog β} {Q : β → V.St → Prop} {ph : Phase} {m : Nat}
    {s : V.St} (quiet : QuietProg p) (h : I ph m s) (rest : ∀ a t, I ph m t → (f a).wp V Q t) : (p >>= f).wp V Q s :=
  Program.wp_seq (S.wp_quiet quiet h) rest

theorem wp_samplingLoop {n m : Nat} {sample : Nat → Prog Unit} {s : V.St} (bound : m + n ≤ N)
    (one : ∀ i k t, k < N → I .idle k t → (sample i).wp V (fun _ => I .idle (k + 1)) t) (h : I .idle m s) :
    (samplingLoop n sample).wp V (fun _ => I .idle (m + n)) s := by
  apply Program.wp_bind.mpr
  refine Program.wp_forEach_range (I := fun i t => i ≤ n ∧ I .idle (m + i) t) ⟨Nat.zero_le _, h⟩
    (fun i t u ⟨le, held⟩ moved => ⟨le, S.stable held moved⟩) (fun i t lt ⟨_, held⟩ => ?_) fun t ⟨_, held⟩ => ?_
  · apply Program.wp_seq (Program.wp_of_preserves (fun _ _ => S.stable)
      ((Program.all_call _).mpr (S.head (by omega))) held)
    intro _ u held
    exact Program.wp_mono (one i (m + i) u (by omega) held) fun _ w after => ⟨lt, after⟩
  · exact Program.wp_of_preserves (fun _ _ => S.stable) ⟨S.head (by omega), fun _ => trivial⟩ held

theorem wp_timedSample {m : Nat} {measured : Prog Unit} {s : V.St} (isTimed : timed = true) (bound : m < N)
    (quiet : QuietProg measured) (h : I .idle m s) :
    (timedSample b args measured).wp V (fun _ => I .idle (m + 1)) s := by
  apply Program.wp_seq (S.takeTime isTimed bound h)
  intro _ t stamped
  apply Program.wp_seq (S.window bound quiet stamped)
  intro _ u recorded
  exact S.wp_quiet_bind (p := perform (.fakeOut none b.l2Size)) (by simp [Action.quiet]) recorded
    fun _ v recorded => S.incCounts bound recorded

/-- An untimed sample: the window and the count, with quiet work around them. -/
theorem wp_untimedSample {m : Nat} {measured before after : Prog Unit} {s : V.St} (untimed : timed = false)
    (bound : m < N) (quiet : QuietProg measured) (quiet' : QuietProg before) (quiet'' : QuietProg after)
    (h : I .idle m s) : (do
      PmcBench.window b args measured
      before
      perform .incCounts
      after : Prog Unit).wp V (fun _ => I .idle (m + 1)) s := by
  apply Program.wp_seq (S.window bound quiet (S.untimed untimed bound h))
  intro _ t recorded
  apply S.wp_quiet_bind quiet' recorded
  intro _ u recorded
  exact Program.wp_seq (S.incCounts bound recorded) fun _ v idle => S.wp_quiet quiet'' idle

theorem wp_start_bind {β : Type} {size : Nat} {f : Unit → Prog β} {Q : β → V.St → Prop} {s : V.St}
    (enough : b.nCustomCtr ≤ size) (h : fresh s) (rest : ∀ t, I .idle 0 t → (f ()).wp V Q t) :
    (mallocStores size >>= f).wp V Q s :=
  Program.wp_seq (S.start enough h) fun _ => rest

theorem wp_setUp_bind {β : Type} {p : Prog β} {Q : β → V.St → Prop} {s : V.St} (h : fresh s)
    (rest : ∀ t, I .idle 0 t → p.wp V Q t) : (do
      mallocStores b.nCustomCtr
      setUpSharedArray b
      p : Prog β).wp V Q s := by
  apply S.wp_start_bind (Nat.le_refl _) h
  intro t idle
  exact S.wp_quiet_bind (quiet_setUpSharedArray b) idle fun _ => rest

theorem wp_timedLoop {n m last : Nat} {s : V.St} (isTimed : timed = true) (bound : m + n ≤ N) (h : I .idle m s) :
    (samplingLoop n fun _ => timedSample b args (readShared last)).wp V (fun _ => I .idle (m + n)) s :=
  S.wp_samplingLoop bound (fun _ _ _ lt idle => S.wp_timedSample isTimed lt (quiet_readShared last) idle) h

/-- The hand-over between threads leaves an idle sampling as it is. -/
def Passes (V : View Action Action.Res) (I : Phase → Nat → V.St → Prop) : Prop :=
  ∀ m o, Action.handsOver o = true → V.Preserves (I .idle m) o

theorem wp_passes (passes : Passes V I) {p : Prog Unit} {m : Nat} {s : V.St}
    (hand : p.All fun o => o.handsOver = true) (h : I .idle m s) : p.wp V (fun _ => I .idle m) s :=
  Program.wp_of_preserves (fun _ _ => S.stable) (hand.mono fun o => passes m o) h

theorem wp_t1 {s : V.St} (passes : Passes V I) (isTimed : timed = true) (bound : args.iterations ≤ N) (h : fresh s) :
    (bmSingleDArrayMultithreadedT1 b args).wp V (fun _ => I .idle args.iterations) s := by
  apply S.wp_setUp_bind h
  intro s idle
  apply Program.wp_seq (S.wp_passes passes (handsOver_waitForThread0 args) idle)
  intro _ s idle
  apply Program.wp_seq (S.wp_timedLoop isTimed (by omega) idle)
  intro _ s idle
  rw [Nat.zero_add] at idle
  exact S.wp_passes passes (handsOver_letThread1Run args) idle

theorem wp_t2 {s : V.St} (passes : Passes V I) (isTimed : timed = true)
    (bound : args.iterations / 2 + 1 + args.iterations / 2 ≤ N) (h : fresh s) : (bmSingleDArrayMultithreadedT2 b args).wp V
      (fun _ => I .idle (args.iterations / 2 + 1 + args.iterations / 2)) s := by
  apply S.wp_setUp_bind h
  intro s idle
  apply Program.wp_seq (S.wp_passes passes (handsOver_waitForThread0 args) idle)
  intro _ s idle
  apply Program.wp_seq (S.wp_timedLoop isTimed (by omega) idle)
  intro _ s idle
  apply Program.wp_seq (S.wp_timedSample isTimed (by omega) (quiet_writeShared ..) idle)
  intro _ s idle
  apply Program.wp_seq (S.wp_timedLoop isTimed (by omega) idle)
  intro _ s idle
  rw [Nat.zero_add] at idle
  exact S.wp_passes passes (handsOver_letThread1Run args) idle

theorem wp_t3 {s : V.St} (isTimed : timed = true) (bound : 10 ≤ N) (h : fresh s) :
    (bmSingleDArrayMultithreadedT3 b args).wp V (fun _ => I .idle 10) s := by
  apply S.wp_setUp_bind h
  intro s idle
  apply Program.wp_seq (S.wp_timedLoop isTimed (by omega) idle)
  intro _ s idle
  exact S.wp_timedSample isTimed (by omega) (quiet_writeShared ..) idle

theorem wp_t4 {s : V.St} (isTimed : timed = true) (bound : 10 ≤ N) (h : fresh s) :
    (bmSingleDArrayMultithreadedT4 b args).wp V (fun _ => I .idle 10) s := by
  apply S.wp_setUp_bind h
  intro s idle
  apply Program.wp_seq (S.wp_timedSample isTimed (by omega) (quiet_writeShared ..) idle)
  intro _ s idle
  exact S.wp_timedLoop (m := 1) (n := 9) isTimed (by omega) idle

theorem wp_untimedLoop {n : Nat} {sample p q r : Nat → Prog Unit} {s : V.St} (untimed : timed = false) (bound : n ≤ N)
    (shape : ∀ i, sample i = do
      PmcBench.window b args (p i)
      q i
      perform .incCounts
      r i)
    (measured : ∀ i, QuietProg (p i)) (before : ∀ i, QuietProg (q i)) (after : ∀ i, QuietProg (r i))
    (h : I .idle 0 s) : (samplingLoop n sample).wp V (fun _ => I .idle n) s := by
  rw [funext shape]
  have loop := S.wp_samplingLoop (n := n) (m := 0) (by omega)
    (fun i k t lt idle => S.wp_untimedSample untimed lt (measured i) (before i) (after i) idle) h
  rwa [Nat.zero_add] at loop

theorem wp_cacheLineTest {s : V.St} (untimed : timed = false) (bound : args.iterations ≤ N) (h : fresh s) :
    (bmCacheLineTest b args).wp V (fun _ => I .idle args.iterations) s := by
  -- An `n` without a value, so that nothing evaluates `L2_SIZE` modulo 2^32.
  obtain ⟨n, same⟩ : ∃ n, n = b.intL2Size := ⟨_, rfl⟩
  simp only [bmCacheLineTest]
  rw [← same]
  apply S.wp_start_bind (Nat.le_refl _) h
  intro s idle
  refine S.wp_quiet_bind (p := perform (.malloc .a b.l2Size)) ⟨rfl, fun _ => trivial⟩ idle fun _ s idle => ?_
  apply S.wp_quiet_bind (quiet_fill ..) idle
  intro _ s idle
  refine S.wp_untimedLoop (q := fun _ => pure ()) untimed bound (fun _ => rfl) (fun _ => quiet_loads _)
    (fun _ => trivial) (fun i => ?_) idle
  refine Program.All.bind (p := perform (.fakeOut (some .a) (n.tdiv 8))) ⟨rfl, fun _ => trivial⟩ fun _ => ?_
  exact Program.All.bind (quiet_fill ..) fun _ => ⟨rfl, fun _ => trivial⟩

theorem wp_writeMultithreaded {s : V.St} (untimed : timed = false) (bound : args.iterations ≤ N) (h : fresh s) :
    (bmSingleDArrayWriteMultithreaded b args).wp V (fun _ => I .idle args.iterations) s := by
  apply S.wp_setUp_bind h
  intro s idle
  exact S.wp_untimedLoop (q := fun _ => perform (.fakeOut none 8)) (r := fun _ => pure ()) untimed bound
    (fun _ => rfl) (fun _ => quiet_writeShared ..) (fun _ => ⟨rfl, fun _ => trivial⟩) (fun _ => trivial) idle

theorem wp_singleDArray {s : V.St} (untimed : timed = false) (bound : args.iterations ≤ N) (h : fresh s) :
    (bmSingleDArray b args).wp V (fun _ => I .idle args.iterations) s := by
  apply S.wp_start_bind (Nat.le_refl _) h
  intro s idle
  refine S.wp_quiet_bind (p := perform (.malloc .a b.n)) ⟨rfl, fun _ => trivial⟩ idle fun _ s idle => ?_
  apply S.wp_quiet_bind (quiet_fill ..) idle
  intro _ s idle
  exact S.wp_untimedLoop (q := fun _ => perform (.fakeOut (some .a) 8)) (r := fun _ => pure ()) untimed bound
    (fun _ => rfl) (fun _ => quiet_loads _) (fun _ => ⟨rfl, fun _ => trivial⟩) (fun _ => trivial) idle

theorem wp_2dArray {s : V.St} (untimed : timed = false) (bound : args.iterations ≤ N) (h : fresh s) :
    (bm2dArray b args).wp V (fun _ => I .idle args.iterations) s := by
  unfold bm2dArray
  generalize fill : fillArr2d = p
  generalize List.range 1024 = rows
  generalize List.range 16 = columns
  apply S.wp_start_bind (Nat.le_refl _) h
  intro s idle
  apply S.wp_quiet_bind (quiet_fillArr2d fill.symm) idle
  intro _ s idle
  exact S.wp_untimedLoop (q := fun _ => pure ()) (r := fun _ => pure ()) untimed bound
    (fun _ => rfl) (fun _ => .forEach fun i _ => .forEach fun j _ => ⟨rfl, fun _ => trivial⟩)
    (fun _ => trivial) (fun _ => trivial) idle

theorem wp_2dArrayNonCont {s : V.St} (untimed : timed = false) (bound : args.iterations ≤ N) (h : fresh s) :
    (bm2dArrayNonCont b args).wp V (fun _ => I .idle args.iterations) s := by
  unfold bm2dArrayNonCont
  generalize fill : fillArr2d = p
  generalize List.range 1024 = rows
  generalize List.range 16 = columns
  apply S.wp_start_bind (Nat.le_refl _) h
  intro s idle
  apply S.wp_quiet_bind (quiet_fillArr2d fill.symm) idle
  intro _ s idle
  exact S.wp_untimedLoop (q := fun _ => pure ()) (r := fun _ => pure ()) untimed bound
    (fun _ => rfl) (fun _ => .forEach fun j _ => .forEach fun i _ => ⟨rfl, fun _ => trivial⟩)
    (fun _ => trivial) (fun _ => trivial) idle

theorem wp_onedArrays {s : V.St} (untimed : timed = false) (bound : args.iterations ≤ N) (h : fresh s) :
    (onedArrays b args).wp V (fun _ => I .idle args.iterations) s := by
  apply S.wp_start_bind (Nat.le_add_right ..) h
  intro s idle
  refine S.wp_quiet_bind (p := perform (.malloc .a (b.l2Size / 8))) ⟨rfl, fun _ => trivial⟩ idle fun _ s idle => ?_
  refine S.wp_quiet_bind (.forEach fun i _ => ⟨rfl, fun _ => ⟨rfl, fun _ => trivial⟩⟩) idle fun _ s idle => ?_
  exact S.wp_untimedLoop (q := fun _ => pure ()) (r := fun _ => pure ()) untimed bound (fun _ => rfl) (fun _ => trivial)
    (fun _ => trivial) (fun _ => trivial) idle

theorem wp_cacheWork {s : V.St} (untimed : timed = false) (bound : args.iterations ≤ N) (h : fresh s) :
    (cacheWork b args).wp V (fun _ => I .idle args.iterations) s := by
  apply S.wp_start_bind (Nat.le_add_right ..) h
  intro s idle
  refine S.wp_quiet_bind (p := perform (.malloc .a (50 * 10))) ⟨rfl, fun _ => trivial⟩ idle fun _ s idle => ?_
  refine S.wp_quiet_bind (.forEach fun i _ => .forEach fun j _ => ⟨rfl, fun _ => ⟨rfl, fun _ => trivial⟩⟩) idle
    fun _ s idle => ?_
  exact S.wp_untimedLoop (q := fun _ => pure ()) (r := fun _ => pure ()) untimed bound
    (fun _ => rfl) (fun _ => .forEach fun i _ => .forEach fun j _ => ⟨rfl, fun _ => ⟨rfl, fun _ => trivial⟩⟩) (fun _ => trivial)
    (fun _ => trivial) idle

/-- Every benchmark takes its samples and ends. -/
theorem wp_body {bm : Benchmark} {s : V.St} (passes : Passes V I) (kind : timed = bm.timed)
    (bound : bm.samples args.iterations ≤ N) (h : fresh s) :
    (bm.body b args).wp V (fun _ => I .idle (bm.samples args.iterations)) s := by
  cases bm with
  | bmSingleDArrayMultithreadedT1 => exact S.wp_t1 passes kind bound h
  | bmSingleDArrayMultithreadedT2 => exact S.wp_t2 passes kind bound h
  | bmSingleDArrayMultithreadedT3 => exact S.wp_t3 kind bound h
  | bmSingleDArrayMultithreadedT4 => exact S.wp_t4 kind bound h
  | bmCacheLineTest => exact S.wp_cacheLineTest kind bound h
  | bmSingleDArray => exact S.wp_singleDArray kind bound h
  | bm2dArray => exact S.wp_2dArray kind bound h
  | bm2dArrayNonCont => exact S.wp_2dArrayNonCont kind bound h
  | cacheWork => exact S.wp_cacheWork kind bound h
  | onedArrays => exact S.wp_onedArrays kind bound h
  | bmSingleDArrayWriteMultithreaded => exact S.wp_writeMultithreaded kind bound h

end Sampling

/-- What every action of a benchmark preserves. -/
theorem Sampling.constant {b : Build} {args : ThreadArgs} {timed : Bool} {N : Nat} {V : View Action Action.Res}
    {K : V.St → Prop} (stable : ∀ {s t}, K s → V.rely s t → K t)
    (kept : ∀ o, o ≠ .threadStart → o ≠ .threadExit → V.Preserves K o) :
    Sampling b args timed N V K fun _ _ => K := by
  have wp {α : Type} {p : Prog α} {s : V.St} (all : p.All fun o => o ≠ .threadStart ∧ o ≠ .threadExit) (h : K s) :
      p.wp V (fun _ => K) s :=
    Program.wp_of_preserves (fun _ _ => stable) (all.mono fun o ⟨start, exit⟩ => kept o start exit) h
  have own (o : Action) (own : o.ofSampling = true) : o ≠ .threadStart ∧ o ≠ .threadExit := by
    constructor <;> rintro rfl <;> cases own
  have ofQuiet {o : Action} (quiet : o.quiet = true) : o ≠ .threadStart ∧ o ≠ .threadExit := by
    constructor <;> rintro rfl <;> cases quiet
  exact
    { stable := stable
      quiet := fun quiet => kept _ (ofQuiet quiet).1 (ofQuiet quiet).2
      start := fun _ h => wp (all_mallocStores (fun _ => ⟨nofun, nofun⟩) (fun _ => ⟨nofun, nofun⟩) _) h
      head := fun _ => kept _ nofun nofun
      takeTime := fun _ _ h => wp (all_takeTime own) h
      untimed := fun _ _ h => h
      window := fun _ quiet h => wp (all_window own ⟨nofun, nofun⟩ (quiet.mono fun _ => ofQuiet)) h
      incCounts := fun _ h => wp ((Program.all_call _).mpr ⟨nofun, nofun⟩) h }

theorem Sampling.constant_passes {V : View Action Action.Res} {K : V.St → Prop}
    (kept : ∀ o, o ≠ .threadStart → o ≠ .threadExit → V.Preserves K o) : Passes V fun _ _ => K := by
  intro m o hand
  apply kept
  · rintro rfl; cases hand
  · rintro rfl; cases hand

end PmcBench
