import PmcBench.Bookkeeping
import PmcBench.TableExtent
import PmcBench.Words.Traversal

/-!
# The matrix of cache_work

The loops of `cache_work` take `i` up to `ncols` and `j` up to `nrows`, but index
`a[i][j]`. `wp_cacheWorkAccess` says what becomes of each element: it is doubled as
often as its place in memory is hit.
-/

namespace PmcBench
open Threads Words
open Program (forEach)

variable {b : Build} {args : ThreadArgs} {n : Nat}

/-! ### The two parts of cache_work -/

/-- The indices `[i][j]` that an iteration goes through: `i < ncols` and `j < nrows`. -/
def cacheWorkIndices : List (Nat × Nat) := rowWise 10 50

/-- The place of `a[i][j]`. -/
def flat (p : Nat × Nat) : Nat := p.1 * 10 + p.2

/-- `a[i][j] = 2 * a[i][j]` -/
def double (q : Nat) : Prog Unit := do
  let x ← perform (.load .a q)
  perform (.store .a q (2 * x))

def fillMatrix (nrows ncols : Nat) : Prog Unit :=
  forEach (List.range nrows) fun i =>
    forEach (List.range ncols) fun j => do
      let x ← perform .xorshift128plus
      perform (.store .a (i * ncols + j) (x >>> 11))

def cacheWorkInit (b : Build) : Prog Unit := do
  mallocStores (b.nCustomCtr + b.nFixedCtr)
  perform (.malloc .a (50 * 10))
  fillMatrix 50 10

def cacheWorkAccess (b : Build) (args : ThreadArgs) : Prog Unit :=
  samplingLoop args.iterations fun _ => do
    window b args (forEach cacheWorkIndices fun p => double (flat p))
    perform .incCounts

theorem cacheWork_eq (b : Build) (args : ThreadArgs) :
    cacheWork b args = cacheWorkInit b >>= fun _ => cacheWorkAccess b args := by
  have loops : (forEach cacheWorkIndices fun p => double (flat p)) =
      forEach (List.range 10) fun i => forEach (List.range 50) fun j => double (flat (i, j)) := by
    simp only [cacheWorkIndices, rowWise, Program.forEach_flatMap, Program.forEach_map]
  rw [cacheWorkAccess, loops, cacheWorkInit, Program.bind_assoc]
  simp only [Program.bind_assoc]
  rfl

/-! ### Cells -/

/-- The array has `n` elements with these values. -/
def Cells (n : Nat) (a : Nat → Word) (l : Local) : Prop := ∀ p < n, l.cell .a p = some (a p)

theorem Cells.congr {a a' : Nat → Word} {l : Local} (held : Cells n a l) (same : ∀ p < n, a p = a' p) : Cells n a' l :=
  fun p lt => by rw [← same p lt, held p lt]

theorem Local.inBounds_of_cell {l : Local} {buf : Buf} {i : Nat} {v : Word} (here : l.cell buf i = some v) :
    l.InBounds buf i := by
  unfold Local.cell at here
  split at here
  · rename_i B found
    by_cases inside : i < B.size
    · exact ⟨B, found, inside⟩
    · rw [if_neg inside] at here
      cases here
  · cases here

theorem Cells.write {a : Nat → Word} {l : Local} {q : Nat} (held : Cells n a l) (inside : q < n) (v : Word) :
    Cells n (Function.update a q v) (l.write .a q v) := by
  intro p lt
  by_cases same : p = q
  · subst same
    rw [Local.write_cell_same (Local.inBounds_of_cell (held p lt)), Function.update_self]
  · rw [Local.write_cell_other (Or.inr same), Function.update_of_ne same, held p lt]

def Action.keepsOwn : Action → Bool
  | .malloc .a _ | .store .a .. | .readInto _ _ .a _ => false
  | _ => true

theorem Local.step_cell {l l' : Local} {o : Action} {r : o.Res} (keeps : o.keepsOwn = true) (step : l.step b o r l')
    (p : Nat) : l'.cell .a p = l.cell .a p := by
  cases o
  case malloc buf n =>
    rw [show l' = l.alloc buf n from step]
    cases buf with
    | a => cases keeps
    | _ => rfl
  case load => rw [show l' = l from step.2]
  case counts => rw [show l' = l from step.2]
  case store buf i v =>
    have other : Buf.a ≠ buf := by rintro rfl; cases keeps
    rw [show l' = l.write buf i v from step, Local.write_cell_other (Or.inl other)]
  case readInto cpu reg buf i =>
    have other : Buf.a ≠ buf := by rintro rfl; cases keeps
    cases r with
    | none => rw [show l' = l from step]
    | some v => rw [show l' = l.write buf i v from step, Local.write_cell_other (Or.inl other)]
  case pushTime t => rw [show l' = l.pushTime t from step]; rfl
  case setValue c k v => rw [show l' = l.setValue b.maxPts c k v from step]; rfl
  case incCounts => rw [show l' = l.incCounts from step]; rfl
  all_goals rw [show l' = l from step]

theorem wp_keepsOwn {α : Type} {p : Prog α} {a : Nat → Word} {l : Local} (keeps : p.All fun o => o.keepsOwn = true)
    (held : Cells n a l) : p.wp (localView b) (fun _ => Cells n a) l := by
  refine Program.wp_of_preserves (V := localView b) (fun _ _ _ moved => moved.elim) (keeps.mono fun o keeps s held => ?_) held
  refine ⟨trivial, fun r t step p lt => ?_⟩
  rw [Local.step_cell keeps step, held p lt]

/-! ### Doubling -/

theorem double_pow (v : Word) (k : Nat) : 2 * v * BitVec.ofNat 64 (2 ^ k) = v * BitVec.ofNat 64 (2 ^ (k + 1)) := by
  have two : (2 : Word) = BitVec.ofNat 64 2 := rfl
  rw [Nat.pow_succ, BitVec.ofNat_mul, two, BitVec.mul_comm _ v, BitVec.mul_assoc, BitVec.mul_comm (BitVec.ofNat 64 2)]

theorem wp_double {a : Nat → Word} {l : Local} {q : Nat} (inside : q < n) (held : Cells n a l) :
    (double q).wp (localView b) (fun _ => Cells n (Function.update a q (2 * a q))) l := by
  refine (Program.wp_act_still fun _ _ => id).mpr ⟨trivial, ?_⟩
  rintro x l₁ ⟨read, same⟩
  obtain rfl : l₁ = l := same
  refine (Program.wp_act_still fun _ _ => id).mpr ⟨trivial, fun _ l₂ step => ?_⟩
  obtain rfl : l₂ = l₁.write .a q (2 * x) := step
  refine (Program.wp_done_still fun _ _ => id).mpr ?_
  rw [← read _ (held q inside)]
  exact held.write inside _

theorem wp_doubleAll {places : List Nat} {a : Nat → Word} {l : Local} (inside : ∀ q ∈ places, q < n)
    (held : Cells n a l) : (forEach places double).wp (localView b)
      (fun _ => Cells n fun p => a p * BitVec.ofNat 64 (2 ^ places.count p)) l := by
  induction places generalizing a l with
  | nil =>
    refine (Program.wp_done_still fun _ _ => id).mpr (held.congr fun p _ => ?_)
    simp
  | cons q places ih =>
    have here : q < n := inside q List.mem_cons_self
    apply Program.wp_seq (wp_double here held)
    intro _ t doubled
    apply Program.wp_mono (ih (fun p member => inside p (List.mem_cons_of_mem q member)) doubled)
    intro _ u later
    apply later.congr
    intro p _
    by_cases same : p = q
    · subst same
      rw [Function.update_self, List.count_cons_self, double_pow]
    · rw [Function.update_of_ne same, List.count_cons_of_ne (Ne.symm same)]

/-- How often an iteration doubles the element at a place. -/
def hits (p : Nat) : Nat := (cacheWorkIndices.map flat).count p

theorem cacheWorkIndices_inside : ∀ q ∈ cacheWorkIndices.map flat, q < 140 := by
  intro q member
  obtain ⟨p, here, rfl⟩ := List.mem_map.mp member
  have bounds := mem_rowWise.mp here
  unfold flat
  omega

theorem wp_cacheWork_window {a : Nat → Word} {l : Local} (held : Cells 500 a l) :
    (window b args (forEach cacheWorkIndices fun p => double (flat p))).wp (localView b)
      (fun _ => Cells 500 fun p => a p * BitVec.ofNat 64 (2 ^ hits p)) l := by
  have read (buf : Buf) (isStore : buf ≠ .a) : (readValues b args.cpuMsr buf).All fun o => o.keepsOwn = true := by
    apply all_readValues
    intro _ _
    cases buf <;> first | rfl | exact (isStore rfl).elim
  rw [window, ← Program.forEach_map cacheWorkIndices flat double]
  apply Program.wp_seq (wp_keepsOwn ((Program.all_call _).mpr rfl) held)
  intro _ _ held
  apply Program.wp_seq (wp_keepsOwn (read _ (by simp)) held)
  intro _ _ held
  have inside : ∀ q ∈ cacheWorkIndices.map flat, q < 500 := by
    intro q member
    have small := cacheWorkIndices_inside q member
    omega
  apply Program.wp_seq (wp_doubleAll inside held)
  intro _ _ held
  exact wp_keepsOwn ((read _ (by simp)).bind fun _ => all_recordDeltas rfl (fun _ => rfl) (fun _ => rfl) fun _ _ _ => rfl) held

/-- After `iterations` samples, each element has been doubled as often as it was hit. -/
theorem wp_cacheWorkAccess {a : Nat → Word} {l : Local} (held : Cells 500 a l) :
    (cacheWorkAccess b args).wp (localView b)
      (fun _ => Cells 500 fun p => a p * BitVec.ofNat 64 (2 ^ (args.iterations * hits p))) l := by
  have head : (perform (.point .head)).All fun o => o.keepsOwn = true := ⟨rfl, fun _ => trivial⟩
  apply Program.wp_bind.mpr
  -- After `k` samples, an element has been doubled `k * hits p` times.
  refine Program.wp_forEach_range (V := localView b)
    (I := fun k => Cells 500 fun p => a p * BitVec.ofNat 64 (2 ^ (k * hits p))) ?_ (fun _ _ _ _ moved => moved.elim) ?_ ?_
  · exact held.congr fun p _ => by simp
  · intro k t _ held
    apply Program.wp_seq (wp_keepsOwn head held)
    intro _ _ held
    apply Program.wp_seq (wp_cacheWork_window held)
    intro _ _ held
    refine Program.wp_mono (wp_keepsOwn ⟨rfl, fun _ => trivial⟩ held) fun _ _ held => held.congr fun p _ => ?_
    rw [Nat.succ_mul, Nat.pow_add, BitVec.ofNat_mul, BitVec.mul_assoc]
  · exact fun t held => wp_keepsOwn head held

/-! ### The initial matrix -/

theorem wp_fillMatrix {nrows ncols : Nat} {l : Local} (columns : 0 < ncols)
    (extent : l.extent .a = some (nrows * ncols)) :
    (fillMatrix nrows ncols).wp (localView b) (fun _ l' => ∃ a, Cells (nrows * ncols) a l') l := by
  let fill (q : Nat) : Prog Unit := do
    let x ← perform .xorshift128plus
    perform (.store .a q (x >>> 11))
  have loops : fillMatrix nrows ncols = forEach (List.range (nrows * ncols)) fill := by
    rw [range_mul nrows columns, Program.forEach_flatMap]
    simp only [Program.forEach_map]
    rfl
  rw [loops]
  refine Program.wp_forEach_range (V := localView b)
    -- The first `k` places have a value.
    (I := fun k t => t.extent .a = some (nrows * ncols) ∧ ∀ p < k, (t.cell .a p).isSome) ?_
    (fun _ _ _ _ moved => moved.elim) ?_ ?_
  · exact ⟨extent, by simp⟩
  · rintro k t lt ⟨extent, filled⟩
    refine (Program.wp_act_still fun _ _ => id).mpr ⟨trivial, fun x t₁ same => ?_⟩
    obtain rfl : t₁ = t := same
    refine (Program.wp_act_still fun _ _ => id).mpr ⟨trivial, fun _ t₂ step => ?_⟩
    obtain rfl : t₂ = t₁.write .a k (x >>> 11) := step
    have inside : t₁.InBounds .a k := (t₁.inBounds_iff .a k).mpr ⟨nrows * ncols, extent, lt⟩
    refine (Program.wp_done_still fun _ _ => id).mpr ⟨by rw [Local.write_extent, extent], fun p before => ?_⟩
    by_cases same : p = k
    · rw [same, Local.write_cell_same inside]
      rfl
    · rw [Local.write_cell_other (Or.inr same)]
      exact filled p (by omega)
  · rintro t ⟨-, filled⟩
    refine ⟨fun p => (t.cell .a p).getD 0, fun p lt => ?_⟩
    obtain ⟨v, here⟩ := Option.isSome_iff_exists.mp (filled p lt)
    simp only [here, Option.getD_some]

theorem wp_cacheWorkInit (l : Local) : (cacheWorkInit b).wp (localView b) (fun _ l' => ∃ a, Cells 500 a l') l := by
  have stores : (mallocStores (b.nCustomCtr + b.nFixedCtr)).wp (localView b) (fun _ _ => True) l :=
    Program.wp_allowed (.of_forall fun _ _ => trivial)
  apply Program.wp_seq stores
  intro _ l₁ _
  refine (Program.wp_act_still fun _ _ => id).mpr ⟨trivial, fun _ l₂ allocated => ?_⟩
  have extent : l₂.extent .a = some (50 * 10) := by
    rw [show l₂ = l₁.alloc .a (50 * 10) from allocated]
    simp [Local.extent, Local.alloc]
  have filled : (fillMatrix 50 10).wp (localView b) (fun _ l' => ∃ a, Cells (50 * 10) a l') l₂ :=
    wp_fillMatrix (by decide) extent
  exact filled

/-- What a whole run of `cache_work` makes of the matrix it begins with. -/
theorem cacheWork_final {l l' : Local} {tr : List (Σ o : Action, o.Res)}
    (run : (localView b).Run (cacheWork b args) l tr (.done ()) l') :
    ∃ a : Nat → Word, Cells 500 (fun p => a p * BitVec.ofNat 64 (2 ^ (args.iterations * hits p))) l' := by
  have whole : (cacheWork b args).wp (localView b)
      (fun _ t => ∃ a : Nat → Word,
        Cells 500 (fun p => a p * BitVec.ofNat 64 (2 ^ (args.iterations * hits p))) t) l := by
    rw [cacheWork_eq]
    apply Program.wp_seq (wp_cacheWorkInit l)
    rintro _ t ⟨a, held⟩
    exact Program.wp_mono (wp_cacheWorkAccess held) fun _ _ after => ⟨a, after⟩
  exact run.wp whole l' .refl

/-! ### When the matrix is doubled -/

/-- Each element of the matrix ends as its initial value, doubled once per iteration. -/
def DoublesValues (b : Build) (args : ThreadArgs) (a : Nat → Word) : Prop :=
  ∀ (l l' : Local) (tr : List (Σ o : Action, o.Res)), Cells 500 a l →
    (localView b).Run (cacheWorkAccess b args) l tr (.done ()) l' → ∀ i < 50, ∀ j < 10,
      l'.cell .a (flat (i, j)) = some (a (flat (i, j)) * BitVec.ofNat 64 (2 ^ args.iterations))

/-- The matrix is doubled once per iteration, and only its own indices are used. -/
structure DoublesMatrix (b : Build) (args : ThreadArgs) (a : Nat → Word) : Prop where
  values : DoublesValues b args a
  columns : 0 < args.iterations → ∀ p ∈ cacheWorkIndices, p.1 < 50 ∧ p.2 < 10

theorem hits_last : hits (flat (49, 9)) = 0 := by
  apply List.count_eq_zero.mpr
  intro member
  have small := cacheWorkIndices_inside _ member
  exact absurd small (by decide)

theorem pow_eq_one {k : Nat} (one : BitVec.ofNat 64 (2 ^ k) = 1) : k = 0 := by
  have value := congrArg BitVec.toNat one
  rw [BitVec.toNat_ofNat] at value
  by_contra some
  -- Below 64 bits the power is a number above 1, from then on it is 0 as a word.
  rcases Nat.lt_or_ge k 64 with small | large
  · rw [Nat.mod_eq_of_lt (Nat.pow_lt_pow_right (by omega) small)] at value
    have two : 2 ^ 1 ≤ 2 ^ k := Nat.pow_le_pow_right (by omega) (by omega)
    have value : 2 ^ k = 1 := value
    omega
  · obtain ⟨d, rfl⟩ := Nat.exists_eq_add_of_le large
    rw [Nat.pow_add, Nat.mul_mod_right] at value
    cases value

/-- In a matrix of ones, `a[49][9]` is still 1 at the end. -/
theorem iterations_of_values (doubles : DoublesValues b args fun _ => 1) : args.iterations = 0 := by
  let l : Local := ⟨⟨fun _ => 0, 0, []⟩, fun _ => some ⟨500, fun _ => some 1⟩⟩
  have ones : Cells 500 (fun _ => 1) l := fun p lt => by simp [l, Local.cell, lt]
  obtain ⟨tr, _, l', run⟩ := (localView b).run_exists (cacheWorkAccess b args) l fun t o => t.step_total b o
  have final : l'.cell .a (flat (49, 9)) = some (1 * BitVec.ofNat 64 (2 ^ (args.iterations * hits (flat (49, 9))))) :=
    run.wp (wp_cacheWorkAccess ones) l' .refl (flat (49, 9)) (by decide)
  have doubled := doubles l l' tr ones run 49 (by omega) 9 (by omega)
  rw [doubled, hits_last, Nat.mul_zero] at final
  have same : (1 : Word) * BitVec.ofNat 64 (2 ^ args.iterations) = 1 * 1 := Option.some.inj final
  rw [BitVec.mul_comm, BitVec.mul_comm 1 1] at same
  exact pow_eq_one ((BitVec.mul_one _).symm.trans same)

theorem values_of_iterations (none : args.iterations = 0) (a : Nat → Word) : DoublesValues b args a := by
  intro l l' tr held run i row j column
  have inside : flat (i, j) < 500 := by
    unfold flat
    dsimp only
    omega
  have final : l'.cell .a (flat (i, j)) =
      some (a (flat (i, j)) * BitVec.ofNat 64 (2 ^ (args.iterations * hits (flat (i, j))))) :=
    run.wp (wp_cacheWorkAccess held) l' .refl (flat (i, j)) inside
  rw [final, none, Nat.zero_mul]

theorem iterations_of_columns (columns : 0 < args.iterations → ∀ p ∈ cacheWorkIndices, p.1 < 50 ∧ p.2 < 10) :
    args.iterations = 0 := by
  by_contra some
  have member : ((0, 49) : Nat × Nat) ∈ cacheWorkIndices := mem_rowWise.mpr ⟨by omega, by omega⟩
  have inside : 49 < 10 := (columns (by omega) _ member).2
  omega

/-- No matrix is doubled as it should be unless nothing is to be done, and without
regard to the indices not every matrix is. -/
theorem doublesMatrix_iff (b : Build) (args : ThreadArgs) :
    (∀ a, DoublesMatrix b args a ↔ args.iterations = 0) ∧
      ((∀ a, DoublesValues b args a) ↔ args.iterations = 0) := by
  refine ⟨fun a => ⟨fun doubles => iterations_of_columns doubles.columns, fun none => ?_⟩,
    fun doubles => iterations_of_values (doubles _), fun none => values_of_iterations none⟩
  exact ⟨values_of_iterations none a, fun some => absurd none (by omega)⟩

/-- One iteration over a matrix of ones: `a[49][9]` keeps its value, and `a[0][49]`,
which is `a[4][9]`, is used. -/
theorem not_doublesMatrix_dedos07 : ¬ DoublesValues dedos07 { iterations := 1, id := 0, cpuMsr := 1 } (fun _ => 1) ∧
    ¬ DoublesMatrix dedos07 { iterations := 1, id := 0, cpuMsr := 1 } fun _ => 1 := by
  have values : ¬ DoublesValues dedos07 { iterations := 1, id := 0, cpuMsr := 1 } fun _ => 1 := by
    intro doubles
    cases iterations_of_values doubles
  exact ⟨values, fun doubles => values doubles.values⟩

end PmcBench
