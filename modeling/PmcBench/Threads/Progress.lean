import Mathlib.Logic.Hydra
import PmcBench.Threads.System

/-!
# Runs that can be completed

A step of a thread leaves it a part of its program, so a finite group of threads
can take only so many steps. Where no run is stuck, `Run.completes` therefore
extends each run to its goal.
-/

namespace Threads

namespace Program
variable {Act : Type} {Res : Act → Type} {α : Type}

/-- What is left of a program after its next action. -/
inductive Rest : Program Act Res α → Program Act Res α → Prop where
  | after (o : Act) (next : Res o → Program Act Res α) (r : Res o) : Rest (next r) (.act o next)

theorem rest_wellFounded : WellFounded (Rest : Program Act Res α → Program Act Res α → Prop) := by
  refine ⟨fun p => ?_⟩
  induction p with
  | done a => exact ⟨_, nofun⟩
  | act o next ih =>
    refine ⟨_, fun q rest => ?_⟩
    cases rest with
    | after _ _ r => exact ih r

end Program

namespace System
variable {Tid Env Act σ : Type} {Res : Act → Type} [DecidableEq Tid] {sys : System Tid Env Act Res σ}
  {C : List (Event Tid Env Act Res) → σ → Event Tid Env Act Res → Prop}

/-- Thread `t` can take a step that meets `C`. -/
def CanStep (sys : System Tid Env Act Res σ) (C : List (Event Tid Env Act Res) → σ → Event Tid Env Act Res → Prop)
    (tr : List (Event Tid Env Act Res)) (c : Config Tid Act Res σ) (t : Tid) : Prop :=
  ∃ o next r s', c.pool t = .act o next ∧ sys.act t c.state o r s' ∧ C tr c.state (.act t o r)

/-- The programs of a group of threads, after a step of one of them. -/
theorem programs_step {threads : List Tid} (distinct : threads.Nodup) {t : Tid} (member : t ∈ threads)
    {pool : Tid → Program Act Res Unit} {o : Act} {next : Res o → Program Act Res Unit} (head : pool t = .act o next)
    (r : Res o) : Relation.CutExpand Program.Rest (↑(threads.map (Function.update pool t (next r))) : Multiset _)
      (↑(threads.map pool) : Multiset (Program Act Res Unit)) := by
  have others : (threads.erase t).map (Function.update pool t (next r)) = (threads.erase t).map pool := by
    apply List.map_congr_left
    intro u there
    exact Function.update_of_ne (List.Nodup.mem_erase_iff distinct |>.mp there).1 ..
  have split (f : Tid → Program Act Res Unit) : (threads.map f).Perm (f t :: (threads.erase t).map f) :=
    (List.perm_cons_erase member).map f
  rw [Multiset.coe_eq_coe.mpr (split _), Multiset.coe_eq_coe.mpr (split pool), others, Function.update_self, head,
    ← Multiset.cons_coe, ← Multiset.cons_coe, ← Multiset.singleton_add, ← Multiset.singleton_add]
  exact Relation.cutExpand_single_add (.after o next r) _

/-- Where some thread of the group can always take a step before the goal is
reached, a run can be continued to it by steps of the group alone. -/
theorem Run.completes {threads : List Tid} (distinct : threads.Nodup) {Goal : Config Tid Act Res σ → Prop}
    {c : Config Tid Act Res σ}
    (progress : ∀ tr d, sys.Run C c tr d → ¬ Goal d → ∃ t ∈ threads, sys.CanStep C tr d t)
    {tr : List (Event Tid Env Act Res)} {d : Config Tid Act Res σ} (run : sys.Run C c tr d) :
    ∃ more e, sys.Run C c (tr ++ more) e ∧ Goal e := by
  have wf := Program.rest_wellFounded.cutExpand (α := Program Act Res Unit)
  generalize same : (↑(threads.map d.pool) : Multiset (Program Act Res Unit)) = left
  induction left using wf.induction generalizing tr d with
  | h left ih =>
    by_cases reached : Goal d
    · exact ⟨[], d, by rwa [List.append_nil], reached⟩
    · obtain ⟨t, member, o, next, r, s', head, effect, meets⟩ := progress tr d run reached
      have fewer := programs_step distinct member head r
      rw [same] at fewer
      obtain ⟨more, e, later, goal⟩ := ih _ fewer (run.step meets (.act head effect)) rfl
      rw [List.append_assoc] at later
      exact ⟨_, e, later, goal⟩

end System

end Threads
