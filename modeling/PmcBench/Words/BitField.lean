import Mathlib.Data.List.Nodup

/-!
# Bit-fields of a machine word

A bit-field is a run of bits of a word, as a C compiler allocates it: reading
extracts the bits, assigning replaces them and no others. Masks are often
summed up one power of two at a time; for distinct bits the sum is their union.
-/

namespace Words

structure BitField (n : Nat) where
  lo : Nat
  width : Nat
  fits : lo + width ≤ n := by decide

namespace BitField
variable {n : Nat}

def get (f : BitField n) (w : BitVec n) : BitVec f.width := w.extractLsb' f.lo f.width

def set (f : BitField n) (v : BitVec f.width) (w : BitVec n) : BitVec n :=
  (w &&& ~~~((BitVec.allOnes f.width).setWidth n <<< f.lo)) ||| (v.setWidth n <<< f.lo)

def Disjoint (f g : BitField n) : Prop := f.lo + f.width ≤ g.lo ∨ g.lo + g.width ≤ f.lo

instance (f g : BitField n) : Decidable (f.Disjoint g) := inferInstanceAs (Decidable (_ ∨ _))

theorem getLsbD_set (f : BitField n) (v : BitVec f.width) (w : BitVec n) (i : Nat) :
    (f.set v w).getLsbD i =
      if f.lo ≤ i ∧ i < f.lo + f.width then v.getLsbD (i - f.lo) else w.getLsbD i := by
  have fits := f.fits
  simp only [set, BitVec.getLsbD_or, BitVec.getLsbD_and, BitVec.getLsbD_not, BitVec.getLsbD_shiftLeft,
    BitVec.getLsbD_setWidth, BitVec.getLsbD_allOnes]
  by_cases inside : f.lo ≤ i ∧ i < f.lo + f.width
  · rw [if_pos inside]
    simp [show i < n by omega, show ¬ i < f.lo by omega, show i - f.lo < n by omega,
      show i - f.lo < f.width by omega]
  · rw [if_neg inside]
    by_cases below : i < f.lo
    · by_cases bound : i < n
      · simp [below, bound]
      · simp [bound, BitVec.getLsbD_of_ge w i (by omega)]
    · have above : f.width ≤ i - f.lo := by omega
      by_cases bound : i < n
      · simp [below, bound, above, show i - f.lo < n by omega]
      · simp [bound, BitVec.getLsbD_of_ge w i (by omega)]

theorem getLsbD_get (f : BitField n) (w : BitVec n) (i : Nat) :
    (f.get w).getLsbD i = (decide (i < f.width) && w.getLsbD (f.lo + i)) := by
  simp [get]

@[simp] theorem get_set_same (f : BitField n) (v : BitVec f.width) (w : BitVec n) : f.get (f.set v w) = v := by
  apply BitVec.eq_of_getLsbD_eq
  intro i bound
  rw [getLsbD_get, getLsbD_set, if_pos (by omega)]
  simp [bound]

theorem get_set_other {f g : BitField n} (apart : f.Disjoint g) (v : BitVec f.width) (w : BitVec n) :
    g.get (f.set v w) = g.get w := by
  apply BitVec.eq_of_getLsbD_eq
  intro i bound
  rw [getLsbD_get, getLsbD_get, getLsbD_set, if_neg (by rcases apart with h | h <;> omega)]

@[simp] theorem get_zero (f : BitField n) : f.get 0#n = 0#f.width := by
  simp [get]

end BitField

/-- A mask that adds up one power of two for each listed bit. -/
def addBits {n : Nat} (start : BitVec n) (bits : List Nat) : BitVec n :=
  bits.foldl (fun mask k => mask + 1#n <<< k) start

theorem getLsbD_one_shiftLeft (n k i : Nat) : (1#n <<< k).getLsbD i = (decide (i < n) && decide (i = k)) := by
  rw [BitVec.getLsbD_shiftLeft, BitVec.getLsbD_one]
  by_cases bound : i < n <;> by_cases below : i < k
  · simp [bound, below]; omega
  · simp only [bound, below, decide_true, decide_false, Bool.not_false, Bool.true_and]
    rw [decide_eq_true (show 0 < n by omega), Bool.true_and]
    exact decide_eq_decide.mpr (by omega)
  · simp [bound]
  · simp [bound]

/-- Adding a power of two whose bit is clear sets that bit. -/
theorem getLsbD_add_bit {n : Nat} (mask : BitVec n) (k i : Nat) (clear : mask.getLsbD k = false) :
    (mask + 1#n <<< k).getLsbD i = (mask.getLsbD i || (decide (i < n) && decide (i = k))) := by
  have apart : mask &&& 1#n <<< k = 0#n := by
    apply BitVec.eq_of_getLsbD_eq
    intro j _
    rw [BitVec.getLsbD_and, getLsbD_one_shiftLeft, BitVec.getLsbD_zero]
    by_cases same : j = k
    · subst same; simp [clear]
    · simp [same]
  rw [BitVec.add_eq_or_of_and_eq_zero _ _ apart, BitVec.getLsbD_or, getLsbD_one_shiftLeft]

/-- For distinct bits, all clear at the start, the sum is the union. -/
theorem getLsbD_addBits {n : Nat} {bits : List Nat} {start : BitVec n} (distinct : bits.Nodup)
    (clear : ∀ k ∈ bits, start.getLsbD k = false) (i : Nat) :
    (addBits start bits).getLsbD i = (start.getLsbD i || (decide (i < n) && decide (i ∈ bits))) := by
  induction bits generalizing start with
  | nil => simp [addBits]
  | cons k rest ih =>
    obtain ⟨fresh, distinct⟩ := List.nodup_cons.mp distinct
    have next : ∀ j ∈ rest, (start + 1#n <<< k).getLsbD j = false := by
      intro j member
      rw [getLsbD_add_bit _ _ _ (clear k List.mem_cons_self), clear j (List.mem_cons_of_mem _ member)]
      simp [show j ≠ k by rintro rfl; exact fresh member]
    show (addBits (start + 1#n <<< k) rest).getLsbD i = _
    rw [ih distinct next, getLsbD_add_bit _ _ _ (clear k List.mem_cons_self)]
    simp only [List.mem_cons, Bool.decide_or, Bool.and_or_distrib_left, Bool.or_assoc]

end Words
