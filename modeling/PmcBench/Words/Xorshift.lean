import Mathlib.Dynamics.PeriodicPts.Lemmas

/-!
# Xorshift generators

A round of a xorshift generator adds to a word, bit by bit, a shift of that
word. A shift keeps no word but zero, so a round loses nothing. A step that
loses nothing permutes a finite set of states, and then every orbit is a cycle.
-/

namespace Words

instance finite_bitVec (n : Nat) : Finite (BitVec n) :=
  Finite.of_injective BitVec.toFin fun _ _ => BitVec.toFin_inj.mp

section Round
variable {n : Nat}

/-- A linear map that fixes no word but zero can be added to a word without loss. -/
theorem xor_linear_injective {f : BitVec n → BitVec n} (linear : ∀ x y, f (x ^^^ y) = f x ^^^ f y)
    (fixed : ∀ d, f d = d → d = 0#n) : Function.Injective (fun x => x ^^^ f x) := by
  intro x y same
  have same : x ^^^ f x = y ^^^ f y := same
  have kept : f (x ^^^ y) = x ^^^ y := by
    rw [linear]
    apply BitVec.xor_right_inj (x ^^^ f y) |>.mp
    calc (x ^^^ f y) ^^^ (f x ^^^ f y)
        = x ^^^ f x ^^^ (f y ^^^ f y) := by ac_rfl
      _ = y ^^^ f y ^^^ (x ^^^ x) := by rw [same, BitVec.xor_self, BitVec.xor_self]
      _ = (x ^^^ f y) ^^^ (x ^^^ y) := by ac_rfl
  exact BitVec.xor_eq_zero_iff.mp (fixed _ kept)

theorem shiftLeft_fixed {k : Nat} (pos : 0 < k) {d : BitVec n} (kept : d <<< k = d) : d = 0#n := by
  apply BitVec.eq_of_getLsbD_eq
  intro i _
  rw [BitVec.getLsbD_zero]
  -- Bit `i` is bit `i - k`, and below bit `k` there is none.
  induction i using Nat.strongRecOn with
  | ind i ih =>
    rw [← kept, BitVec.getLsbD_shiftLeft]
    by_cases low : i < k
    · simp [low]
    · rw [ih (i - k) (by omega) (by omega), Bool.and_false]

theorem ushiftRight_fixed {k : Nat} (pos : 0 < k) {d : BitVec n} (kept : d >>> k = d) : d = 0#n := by
  have smaller : d.toNat / 2 ^ k = d.toNat := by
    rw [← Nat.shiftRight_eq_div_pow, ← BitVec.toNat_ushiftRight, kept]
  have two : 2 ≤ 2 ^ k := Nat.le_self_pow (by omega) 2
  apply BitVec.eq_of_toNat_eq
  rw [BitVec.toNat_ofNat, Nat.zero_mod]
  by_contra positive
  have := Nat.div_lt_self (Nat.pos_of_ne_zero positive) (show 1 < 2 ^ k by omega)
  omega

theorem xor_shiftLeft_injective {k : Nat} (pos : 0 < k) :
    Function.Injective (fun x : BitVec n => x ^^^ x <<< k) := by
  apply xor_linear_injective
  · intro x y
    exact BitVec.shiftLeft_xor_distrib x y k
  · intro d kept
    exact shiftLeft_fixed pos kept

theorem xor_ushiftRight_injective {k : Nat} (pos : 0 < k) :
    Function.Injective (fun x : BitVec n => x ^^^ x >>> k) := by
  apply xor_linear_injective
  · intro x y
    exact BitVec.ushiftRight_xor_distrib x y k
  · intro d kept
    exact ushiftRight_fixed pos kept

/-- A left and a right shift, with words added that do not depend on the argument. -/
theorem xorshift_injective {a b : Nat} (left : 0 < a) (right : 0 < b) (y z : BitVec n) :
    Function.Injective (fun x : BitVec n => (x ^^^ x <<< a) ^^^ y ^^^ (x ^^^ x <<< a) >>> b ^^^ z) := by
  intro x u same
  apply xor_shiftLeft_injective left
  apply xor_ushiftRight_injective right
  apply BitVec.xor_right_inj (y ^^^ z) |>.mp
  calc y ^^^ z ^^^ ((x ^^^ x <<< a) ^^^ (x ^^^ x <<< a) >>> b)
      = (x ^^^ x <<< a) ^^^ y ^^^ (x ^^^ x <<< a) >>> b ^^^ z := by ac_rfl
    _ = (u ^^^ u <<< a) ^^^ y ^^^ (u ^^^ u <<< a) >>> b ^^^ z := same
    _ = y ^^^ z ^^^ ((u ^^^ u <<< a) ^^^ (u ^^^ u <<< a) >>> b) := by ac_rfl

end Round

section Orbit
variable {α : Type*} {next : α → α}

/-- A state that only follows itself is reached from no other. -/
theorem iterate_ne_of_injective (injective : Function.Injective next) {rest s : α} (still : next rest = rest)
    (apart : s ≠ rest) (n : Nat) : next^[n] s ≠ rest := by
  intro reached
  apply apart
  apply injective.iterate n
  rw [reached, Function.iterate_fixed still]

/-- A permutation of finitely many states comes back to its start before any other state repeats. -/
theorem orbit_returns [Finite α] (injective : Function.Injective next) (s : α) :
    ∃ p, 0 < p ∧ next^[p] s = s ∧ ∀ i j, i < j → j < p → next^[i] s ≠ next^[j] s := by
  have periodic := injective.mem_periodicPts s
  refine ⟨Function.minimalPeriod next s, Function.minimalPeriod_pos_of_mem_periodicPts periodic,
    Function.iterate_minimalPeriod, ?_⟩
  intro i j before inside same
  have := Function.iterate_injOn_Iio_minimalPeriod (before.trans inside) inside same
  omega

end Orbit

end Words
