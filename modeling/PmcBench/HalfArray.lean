import PmcBench.Accesses

/-!
# The MULTITHREADED_HALF_ARRAY_READ build

Thread 0 reads up to `n/2` and thread 1 from `n/2 + 1`, so no thread reads the element
`n/2`. `splitsArray_iff` says that only an empty array is split.
-/

namespace PmcBench
open Threads
open Program (forEach)

variable {b : Build}

/-- The range from `j` to `j_last` that a thread reads, both of them an `unsigned int`. The
threads besides 0 and 1 leave them unset. -/
def halfBounds (n id : Nat) (unset : Nat × Nat) : Nat × Nat :=
  if id = 0 then (0, n / 2 % 2 ^ 32)
  else if id = 1 then ((n / 2 + 1) % 2 ^ 32, n % 2 ^ 32)
  else unset

/-- `for (uint64_t jj = j; jj < j_last; ++jj) b = shared_array[jj];` -/
def readSharedFrom (j jLast : Nat) : Prog Unit := do
  perform (.point .measured)
  forEach (List.range' j (jLast - j)) fun jj => do
    let _ ← perform (.loadShared jj)

/-- `bm_single_d_array_multithreaded_t1` where MULTITHREADED_HALF_ARRAY_READ is defined. -/
def bmSingleDArrayMultithreadedT1Half (b : Build) (args : ThreadArgs) (unset : Nat × Nat) : Prog Unit := do
  mallocStores b.nCustomCtr
  setUpSharedArray b
  waitForThread0 args
  samplingLoop args.iterations fun _ =>
    let bounds := halfBounds b.n args.id unset
    timedSample b args (readSharedFrom bounds.1 bounds.2)
  letThread1Run args

/-- The element of `shared_array` that is read. -/
def Action.readsShared : Action → Option Nat
  | .loadShared j => some j
  | _ => none

/-- In each iteration, the two threads read every element once, and about as many each. -/
def SplitsArray (n : Nat) (first second : List (List Nat)) : Prop :=
  ∀ (i : Nat) (r s : List Nat), first[i]? = some r → second[i]? = some s →
    (r ++ s).Perm (List.range n) ∧ r.length ≤ s.length + 1 ∧ s.length ≤ r.length + 1

/-! ### What an iteration reads -/

theorem inert_readsShared : Inert Action.readsShared := by
  intro o own
  cases o
  case loadShared => cases own
  all_goals rfl

theorem performs_readSharedFrom (j jLast : Nat) :
    (readSharedFrom j jLast).Performs (windowed Action.readsShared) ((List.range' j (jLast - j)).map some) := by
  have point : (perform (.point .measured)).All fun o => windowed Action.readsShared o = none := ⟨rfl, fun _ => trivial⟩
  exact .before point fun _ => .forEach_one fun jj _ => performs_access (by simp) rfl

theorem readsNothing_setUp (b : Build) : (setUpSharedArray b).All fun o => windowed Action.readsShared o = none := by
  refine Program.All.bind ⟨rfl, fun _ => trivial⟩ fun saFlag => ?_
  split
  · exact ⟨rfl, fun _ => ⟨rfl, fun _ => .forEach fun _ _ => ⟨rfl, fun _ => trivial⟩⟩⟩
  · trivial

theorem readsNothing_handsOver {p : Prog Unit} (hand : p.All fun o => o.handsOver = true) :
    p.All fun o => windowed Action.readsShared o = none := by
  apply hand.mono
  intro o hand
  cases o
  case waitCanRun | setCanRun => rfl
  all_goals cases hand

theorem accesses_half {args : ThreadArgs} {unset : Nat × Nat} {V : View Action Action.Res} {s t : V.St}
    {tr : List (Σ o : Action, o.Res)}
    (run : V.Run (bmSingleDArrayMultithreadedT1Half b args unset) s tr (.done ()) t) :
    accesses Action.readsShared tr = List.replicate args.iterations
      (List.range' (halfBounds b.n args.id unset).1
        ((halfBounds b.n args.id unset).2 - (halfBounds b.n args.id unset).1)) := by
  apply accesses_of_performs run
  have stores : (mallocStores b.nCustomCtr).All fun o => windowed Action.readsShared o = none :=
    all_mallocStores (fun _ => rfl) (fun _ => rfl) _
  refine .before stores fun _ => .before (readsNothing_setUp b) fun _ => ?_
  refine .before (readsNothing_handsOver (handsOver_waitForThread0 args)) fun _ => ?_
  refine .after ?_ fun _ => readsNothing_handsOver (handsOver_letThread1Run args)
  apply performs_samplingLoop inert_readsShared
  intro _
  exact performs_timedSample inert_readsShared rfl (performs_readSharedFrom _ _)

/-! ### The two halves -/

/-- The halves leave out the element between them. -/
theorem halves_perm {n : Nat} (some : 0 < n) :
    (n / 2 :: (List.range' 0 (n / 2) ++ List.range' (n / 2 + 1) (n - (n / 2 + 1)))).Perm (List.range n) := by
  have whole : List.range n = List.range' 0 (n / 2) ++ n / 2 :: List.range' (n / 2 + 1) (n - (n / 2 + 1)) := by
    have first : n / 2 :: List.range' (n / 2 + 1) (n - (n / 2 + 1)) = List.range' (n / 2) (n - n / 2) := by
      rw [show n - n / 2 = n - (n / 2 + 1) + 1 by omega, List.range'_succ]
    have joined := List.range'_append_1 (s := 0) (m := n / 2) (n := n - n / 2)
    rw [Nat.zero_add] at joined
    rw [first, joined, List.range_eq_range']
    congr 1
    omega
  rw [whole]
  exact List.perm_middle.symm

theorem halves_split_iff (n : Nat) :
    (List.range' 0 (n / 2) ++ List.range' (n / 2 + 1) (n - (n / 2 + 1))).Perm (List.range n) ↔ n = 0 := by
  constructor
  · intro split
    by_contra some
    have counted := split.length_eq
    have missing := (halves_perm (Nat.pos_of_ne_zero some)).length_eq
    rw [List.length_cons] at missing
    omega
  · rintro rfl
    exact .refl _

/-- The threads split the array exactly when there is nothing to split. -/
theorem splitsArray_iff (small : b.n < 2 ^ 32) {iterations : Nat} {cpu₀ cpu₁ : Cpu} {unset₀ unset₁ : Nat × Nat}
    {V : View Action Action.Res} {s₀ t₀ s₁ t₁ : V.St} {tr₀ tr₁ : List (Σ o : Action, o.Res)}
    (run₀ : V.Run (bmSingleDArrayMultithreadedT1Half b { iterations, id := 0, cpuMsr := cpu₀ } unset₀) s₀ tr₀ (.done ()) t₀)
    (run₁ : V.Run (bmSingleDArrayMultithreadedT1Half b { iterations, id := 1, cpuMsr := cpu₁ } unset₁) s₁ tr₁ (.done ()) t₁) :
    SplitsArray b.n (accesses Action.readsShared tr₀) (accesses Action.readsShared tr₁) ↔ b.n = 0 ∨ iterations = 0 := by
  have first : halfBounds b.n 0 unset₀ = (0, b.n / 2) := by
    rw [halfBounds, if_pos rfl, Nat.mod_eq_of_lt (by omega)]
  have second : halfBounds b.n 1 unset₁ = (b.n / 2 + 1, b.n) := by
    rw [halfBounds, if_neg (by decide), if_pos rfl, Nat.mod_eq_of_lt small, Nat.mod_eq_of_lt (by omega)]
  rw [accesses_half run₀, accesses_half run₁, first, second, Nat.sub_zero]
  constructor
  · intro splits
    by_contra none
    have some : 0 < iterations := by omega
    have split := splits 0 _ _ (List.getElem?_replicate_of_lt some) (List.getElem?_replicate_of_lt some)
    have empty := (halves_split_iff b.n).mp split.1
    omega
  · rintro (empty | rfl)
    · intro i r s here there
      obtain rfl := List.eq_of_mem_replicate (List.mem_of_getElem? here)
      obtain rfl := List.eq_of_mem_replicate (List.mem_of_getElem? there)
      rw [empty]
      simp
    · intro i r s here
      simp at here

theorem splitsArray_empty : ∃ tr₀ tr₁,
    (View.free : View Action Action.Res).Run (bmSingleDArrayMultithreadedT1Half { dedos07 with l2Size := 0 }
      { iterations := 10, id := 0, cpuMsr := 1 } (0, 0)) () tr₀ (.done ()) () ∧
    (View.free : View Action Action.Res).Run (bmSingleDArrayMultithreadedT1Half { dedos07 with l2Size := 0 }
      { iterations := 10, id := 1, cpuMsr := 2 } (0, 0)) () tr₁ (.done ()) () ∧
    SplitsArray 0 (accesses Action.readsShared tr₀) (accesses Action.readsShared tr₁) := by
  obtain ⟨tr₀, run₀⟩ := run_free (bmSingleDArrayMultithreadedT1Half { dedos07 with l2Size := 0 }
    { iterations := 10, id := 0, cpuMsr := 1 } (0, 0))
  obtain ⟨tr₁, run₁⟩ := run_free (bmSingleDArrayMultithreadedT1Half { dedos07 with l2Size := 0 }
    { iterations := 10, id := 1, cpuMsr := 2 } (0, 0))
  exact ⟨tr₀, tr₁, run₀, run₁, (splitsArray_iff (by decide) run₀ run₁).mpr (Or.inl rfl)⟩

/-- Neither thread reads element 8192 of the 16384. -/
theorem not_splitsArray_dedos07 : ¬ ∀ tr₀ tr₁,
    (View.free : View Action Action.Res).Run (bmSingleDArrayMultithreadedT1Half dedos07
      { iterations := 1, id := 0, cpuMsr := 1 } (0, 0)) () tr₀ (.done ()) () →
    (View.free : View Action Action.Res).Run (bmSingleDArrayMultithreadedT1Half dedos07
      { iterations := 1, id := 1, cpuMsr := 2 } (0, 0)) () tr₁ (.done ()) () →
    SplitsArray dedos07.n (accesses Action.readsShared tr₀) (accesses Action.readsShared tr₁) := by
  intro claim
  obtain ⟨tr₀, run₀⟩ := run_free (bmSingleDArrayMultithreadedT1Half dedos07 { iterations := 1, id := 0, cpuMsr := 1 } (0, 0))
  obtain ⟨tr₁, run₁⟩ := run_free (bmSingleDArrayMultithreadedT1Half dedos07 { iterations := 1, id := 1, cpuMsr := 2 } (0, 0))
  have splits := claim tr₀ tr₁ run₀ run₁
  rw [accesses_half run₀, accesses_half run₁] at splits
  obtain ⟨split, -⟩ := splits 0 _ _ (List.getElem?_replicate_of_lt Nat.one_pos) (List.getElem?_replicate_of_lt Nat.one_pos)
  have read := split.mem_iff.mpr (List.mem_range.mpr (show 8192 < dedos07.n by decide))
  rw [List.mem_append, List.mem_range'_1, List.mem_range'_1] at read
  have first : halfBounds dedos07.n 0 (0, 0) = (0, 8192) := by decide
  have second : halfBounds dedos07.n 1 (0, 0) = (8193, 16384) := by decide
  rw [first, second] at read
  omega

end PmcBench
