import Mathlib.Data.Finite.Prod
import PmcBench.Actions
import PmcBench.Words.Xorshift

/-!
# The generator that fills the arrays

`xorshift128plus` permutes the states of `mat_rng`: the second word is kept,
and the first comes back from the new one by undoing both shifts. So the state
never becomes zero, at which the generator would stay.
-/

namespace PmcBench
open Threads

/-- `mat_rng` as the program starts with it. -/
def matRngSeed : Word × Word := (11, 1181783497276652981)

/-- What a call of `xorshift128plus` leaves in `s`. -/
abbrev nextState (s : Word × Word) : Word × Word := (xorshift128plus s).2

theorem nextState_injective : Function.Injective nextState := by
  rintro ⟨x, y⟩ ⟨u, v⟩ same
  unfold nextState xorshift128plus at same
  obtain ⟨kept, drawn⟩ := Prod.mk.inj same
  have kept : y = v := kept
  subst kept
  have first : x = u := Words.xorshift_injective (by decide) (by decide) y (y >>> 26) drawn
  rw [first]

theorem nextState_zero : nextState (0, 0) = (0, 0) := by decide

theorem nextState_ne_zero {s : Word × Word} (nonzero : s ≠ (0, 0)) (n : Nat) : nextState^[n] s ≠ (0, 0) :=
  Words.iterate_ne_of_injective nextState_injective nextState_zero nonzero n

/-- `xorshift128plus` permutes the states: none is reached from two, each from
one. From a nonzero state no number of steps reaches zero, and the sequence of
states is back at its start before any other state repeats. -/
theorem xorshift128plus_permutation :
    (∀ s s' : Word × Word, (xorshift128plus s).2 = (xorshift128plus s').2 → s = s') ∧
    (∀ s' : Word × Word, ∃ s, (xorshift128plus s).2 = s') ∧
    (∀ s : Word × Word, s ≠ (0, 0) → ∀ n, nextState^[n] s ≠ (0, 0)) ∧
    ∀ s : Word × Word, ∃ p, 0 < p ∧ nextState^[p] s = s ∧
      ∀ i j, i < j → j < p → nextState^[i] s ≠ nextState^[j] s := by
  refine ⟨fun s s' same => nextState_injective same, ?_, fun s nonzero => nextState_ne_zero nonzero,
    Words.orbit_returns nextState_injective⟩
  exact Finite.injective_iff_surjective.mp nextState_injective

/-! ### The generator in the running process -/

/-- Whether an event is a call of `xorshift128plus`. -/
def draws {Env : Type} : Event Tid Env Action Action.Res → Bool
  | .act _ o _ => decide (o = .xorshift128plus)
  | .env _ => false

theorem actShared_matRng {s t : World} {i : Nat} {o : Action} {r : o.Res} (step : s.actShared i o r t) :
    t.matRng = if o = .xorshift128plus then nextState s.matRng else s.matRng := by
  cases o
  case threadStart => obtain ⟨-, -, rfl⟩ := step; rfl
  case storeShared => obtain ⟨_, -, rfl⟩ := step; rfl
  case loadShared => obtain ⟨_, -, -, rfl⟩ := step; rfl
  case testFlag | waitCanRun | load2d | gettimeofday | readInto | xorshift128plus =>
    obtain ⟨-, rfl⟩ := step
    rfl
  case threadExit | setFlag | setCanRun | mallocShared | store2d => rw [show t = _ from step]; rfl
  case malloc | load | store | pushTime | counts | setValue | incCounts | fakeOut | point =>
    rw [show t = s from step]
    rfl
  all_goals exact step.elim

theorem actMain_matRng {b : Build} {s t : World} {o : Action} {r : o.Res} (step : s.actMain b o r t) :
    t.matRng = s.matRng := by
  obtain rfl | ⟨_, _, _, -, rfl⟩ | ⟨_, _, -, rfl⟩ | ⟨_, _, -, rfl⟩ | ⟨_, rfl⟩ := World.actMain_cases step <;> rfl

theorem act_matRng {b : Build} {t : Tid} {s s' : World} {o : Action} {r : o.Res} (step : s.act b t o r s') :
    s'.matRng = if o = .xorshift128plus then nextState s.matRng else s.matRng := by
  cases t with
  | main =>
    have other : o ≠ .xorshift128plus := by
      rintro rfl
      exact step
    rw [if_neg other, actMain_matRng step]
  | worker i =>
    obtain ⟨u, l, shared, -, rfl⟩ := step
    have drawn := actShared_matRng shared
    exact drawn

theorem move_matRng {hw : Pmu} {s s' : World} {e : Move hw} (moved : s.move e s') : s'.matRng = s.matRng := by
  cases e with
  | tick cpu t => rw [show s' = _ from moved]
  | clock now => rw [moved.2]
  | migrate i cpu => rw [moved.2]; rfl

/-- In every run of the process the state of the generator is the one it
started with, stepped once for every call. -/
theorem process_matRng {b : Build} {hw : Pmu}
    {C : List (Event Tid (Move hw) Action Action.Res) → World → Event Tid (Move hw) Action Action.Res → Prop}
    {c c' : Config Tid Action Action.Res World} {tr : List (Event Tid (Move hw) Action Action.Res)}
    (run : (process b hw).Run C c tr c') :
    c'.state.matRng = nextState^[tr.countP draws] c.state.matRng := by
  induction run with
  | start => rfl
  | step run meets step ih =>
    rw [List.countP_append, List.countP_singleton]
    cases step with
    | env effect => exact (move_matRng effect).trans ih
    | @act t o r s' next head effect =>
      have drawn := act_matRng effect
      rw [ih] at drawn
      by_cases call : o = .xorshift128plus
      · rw [if_pos (by simp [draws, call]), Function.iterate_succ_apply']
        rw [if_pos call] at drawn
        exact drawn
      · rw [if_neg (by simp [draws, call])]
        rw [if_neg call] at drawn
        exact drawn

theorem process_matRng_ne_zero {b : Build} {hw : Pmu}
    {C : List (Event Tid (Move hw) Action Action.Res) → World → Event Tid (Move hw) Action Action.Res → Prop}
    {c c' : Config Tid Action Action.Res World} {tr : List (Event Tid (Move hw) Action Action.Res)}
    (seeded : c.state.matRng = matRngSeed) (run : (process b hw).Run C c tr c') : c'.state.matRng ≠ (0, 0) := by
  rw [process_matRng run, seeded]
  exact nextState_ne_zero (by decide) _

end PmcBench
