import Mathlib.Data.List.Nodup
import Mathlib.Data.List.Perm.Basic
import Mathlib.Data.List.ProdSigma
import Mathlib.Data.List.Range
import Mathlib.Data.List.SplitBy
import Mathlib.Data.Prod.Basic

/-!
# Traversals of a rectangle

The two orders in which a nest of two loops visits the cells of a rectangle, and the
maximal runs of a sequence whose neighbours share a key.
-/

namespace Words

/-! ### Row by row and column by column -/

def rowWise (rows columns : Nat) : List (Nat × Nat) :=
  (List.range rows).flatMap fun i => (List.range columns).map fun j => (i, j)

def columnWise (rows columns : Nat) : List (Nat × Nat) :=
  (List.range columns).flatMap fun j => (List.range rows).map fun i => (i, j)

variable {rows columns : Nat}

theorem rowWise_eq_product (rows columns : Nat) : rowWise rows columns = (List.range rows).product (List.range columns) := rfl

theorem columnWise_eq_swap (rows columns : Nat) : columnWise rows columns = (rowWise columns rows).map Prod.swap := by
  simp only [columnWise, rowWise, List.map_flatMap, List.map_map]
  rfl

theorem mem_rowWise {p : Nat × Nat} : p ∈ rowWise rows columns ↔ p.1 < rows ∧ p.2 < columns := by
  rw [rowWise_eq_product, List.pair_mem_product, List.mem_range, List.mem_range]

theorem nodup_rowWise (rows columns : Nat) : (rowWise rows columns).Nodup := by
  rw [rowWise_eq_product]
  exact List.nodup_range.product List.nodup_range

theorem columnWise_perm (rows columns : Nat) : (columnWise rows columns).Perm (rowWise rows columns) := by
  have nodup : (columnWise rows columns).Nodup := by
    rw [columnWise_eq_swap]
    exact (nodup_rowWise columns rows).map Prod.swap_injective
  rw [List.perm_ext_iff_of_nodup nodup (nodup_rowWise rows columns)]
  intro p
  rw [columnWise_eq_swap, List.mem_map, mem_rowWise]
  constructor
  · rintro ⟨q, member, rfl⟩
    exact (mem_rowWise.mp member).symm
  · intro inside
    exact ⟨p.swap, mem_rowWise.mpr inside.symm, Prod.swap_swap p⟩

/-- The cells of a row-wise traversal by their position. -/
theorem rowWise_eq_map (some : 0 < columns) :
    rowWise rows columns = (List.range (rows * columns)).map fun e => (e / columns, e % columns) := by
  induction rows with
  | zero => simp [rowWise]
  | succ rows ih =>
    have last : (List.range columns).map (fun j => (rows, j)) =
        ((List.range columns).map (rows * columns + ·)).map fun e => (e / columns, e % columns) := by
      rw [List.map_map]
      apply List.map_congr_left
      intro j member
      have lt := List.mem_range.mp member
      simp [Nat.mul_comm rows, Nat.mul_add_div some, Nat.div_eq_of_lt lt, Nat.mod_eq_of_lt lt]
    have split : rowWise (rows + 1) columns = rowWise rows columns ++ (List.range columns).map fun j => (rows, j) := by
      simp [rowWise, List.range_succ, List.flatMap_append]
    rw [split, ih, last, ← List.map_append, ← List.range_add, Nat.succ_mul]

/-- A range in blocks of the same length. -/
theorem range_mul (rows : Nat) (some : 0 < columns) :
    List.range (rows * columns) = (List.range rows).flatMap fun i => (List.range columns).map fun j => i * columns + j := by
  have cells := congrArg (List.map fun p => p.1 * columns + p.2) (rowWise_eq_map some : rowWise rows columns = _)
  simp only [rowWise, List.map_flatMap, List.map_map] at cells
  refine Eq.symm (cells.trans ?_)
  conv_rhs => rw [← List.map_id (List.range (rows * columns))]
  apply List.map_congr_left
  intro e _
  exact Nat.div_add_mod' e columns

theorem columnWise_eq_map (some : 0 < rows) :
    columnWise rows columns = (List.range (columns * rows)).map fun e => (e % rows, e / rows) := by
  rw [columnWise_eq_swap, rowWise_eq_map some, List.map_map]
  rfl

theorem getLast?_rowWise (someRows : 0 < rows) (someColumns : 0 < columns) :
    (rowWise rows columns).getLast? = some (rows - 1, columns - 1) := by
  have cells := Nat.mul_pos someRows someColumns
  have last : rows * columns - 1 = columns * (rows - 1) + (columns - 1) := by
    obtain ⟨r, rfl⟩ := Nat.exists_eq_add_of_lt someRows
    simp only [Nat.zero_add, Nat.add_sub_cancel, Nat.succ_mul, Nat.mul_comm columns]
    omega
  rw [rowWise_eq_map someColumns, List.getLast?_map, List.getLast?_range, if_neg (Nat.ne_of_gt cells), last]
  simp [Nat.mul_add_div someColumns, Nat.mod_eq_of_lt (Nat.sub_lt someColumns Nat.one_pos),
    Nat.div_eq_of_lt (Nat.sub_lt someColumns Nat.one_pos)]

theorem getLast?_columnWise (someRows : 0 < rows) (someColumns : 0 < columns) :
    (columnWise rows columns).getLast? = some (rows - 1, columns - 1) := by
  rw [columnWise_eq_swap, List.getLast?_map, getLast?_rowWise someColumns someRows]
  rfl

/-! ### Maximal runs -/

variable {α ι κ : Type} [DecidableEq κ]

/-- The number of maximal runs of neighbours with the same key. -/
def runs (key : α → κ) (l : List α) : Nat := (l.splitBy fun x y => decide (key x = key y)).length

/-- Blocks with a key each, no two neighbours the same, are the maximal runs. -/
theorem runs_flatMap {key : α → κ} {blocks : List ι} {block : ι → List α} (keyOf : ι → κ)
    (nonempty : ∀ q, block q ≠ []) (same : ∀ q, ∀ x ∈ block q, key x = keyOf q)
    (apart : blocks.IsChain fun p q => keyOf p ≠ keyOf q) : runs key (blocks.flatMap block) = blocks.length := by
  have split : (blocks.flatMap block).splitBy (fun x y => decide (key x = key y)) = blocks.map block := by
    rw [List.flatMap_def]
    apply List.splitBy_flatten
    · intro member
      obtain ⟨q, -, empty⟩ := List.mem_map.mp member
      exact nonempty q empty
    · intro m member
      obtain ⟨q, -, rfl⟩ := List.mem_map.mp member
      apply List.Pairwise.isChain
      apply List.pairwise_of_forall_mem_list
      intro x here y there
      exact decide_eq_true ((same q x here).trans (same q y there).symm)
    · rw [List.isChain_map]
      refine apart.imp fun p q different => ⟨nonempty p, nonempty q, ?_⟩
      rw [decide_eq_false_iff_not, same p _ (List.getLast_mem _), same q _ (List.head_mem _)]
      exact different
  rw [runs, split, List.length_map]

/-- Where all neighbours differ, every element is a run. -/
theorem runs_of_apart {key : α → κ} {l : List α} (apart : l.IsChain fun x y => key x ≠ key y) : runs key l = l.length := by
  have single : runs key (l.flatMap fun x => [x]) = l.length := runs_flatMap key (by simp) (by simp) apart
  rwa [List.flatMap_singleton'] at single

end Words
