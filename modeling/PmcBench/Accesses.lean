import PmcBench.Sampling
import PmcBench.Threads.Sequence

/-!
# What a benchmark accesses in its windows

The accesses of a sample are the actions that `access` picks between the opening of
its window and that of the next one.
-/

namespace PmcBench
open Threads
open Program (forEach)

variable {κ : Type} {access : Action → Option κ}

/-- The accesses, and a marker where a window opens. -/
def windowed (access : Action → Option κ) (o : Action) : Option (Option κ) :=
  if o = .point .window then some none else (access o).map some

/-- The accesses of each window of a run. -/
def accesses (access : Action → Option κ) (tr : List (Σ o : Action, o.Res)) : List (List κ) :=
  segments (tr.filterMap fun e => windowed access e.1)

/-- The sampling itself accesses nothing. -/
def Inert (access : Action → Option κ) : Prop := ∀ o, Action.ofSampling o = true → access o = none

theorem windowed_eq_none {o : Action} (other : o ≠ .point .window) (nothing : access o = none) :
    windowed access o = none := by
  rw [windowed, if_neg other, nothing]
  rfl

theorem windowed_own (inert : Inert access) (o : Action) (own : o.ofSampling = true) : windowed access o = none := by
  refine windowed_eq_none ?_ (inert o own)
  rintro rfl
  cases own

section
variable {b : Build} {args : ThreadArgs} {measured : Prog Unit} {ks : List κ}

theorem performs_access {o : Action} {k : κ} (other : o ≠ .point .window) (here : access o = some k) :
    (do let _ ← perform o : Prog Unit).Performs (windowed access) [some k] := by
  have pick : windowed access o = some (some k) := by
    rw [windowed, if_neg other, here]
    rfl
  exact ⟨[], by rw [pick]; rfl, fun _ => rfl⟩

theorem performs_window (inert : Inert access) (inner : measured.Performs (windowed access) (ks.map some)) :
    (window b args measured).Performs (windowed access) (none :: ks.map some) := by
  have opened : windowed access (.point .window) = some none := rfl
  have rest : (do
      readValues b args.cpuMsr .storeStart
      measured
      readValues b args.cpuMsr .storeEnd
      recordDeltas b : Prog Unit).Performs (windowed access) (ks.map some) :=
    .before (all_readValues fun _ _ => windowed_own inert _ rfl) fun _ => .after inner fun _ =>
      (all_readValues fun _ _ => windowed_own inert _ rfl).bind fun _ => all_recordDeltas (windowed_own inert _ rfl)
        (fun _ => windowed_own inert _ rfl) (fun _ => windowed_own inert _ rfl) fun _ _ _ => windowed_own inert _ rfl
  exact ⟨ks.map some, by rw [opened]; rfl, fun _ => rest⟩

theorem performs_timedSample (inert : Inert access) (flush : access (.fakeOut none b.l2Size) = none)
    (inner : measured.Performs (windowed access) (ks.map some)) :
    (timedSample b args measured).Performs (windowed access) (none :: ks.map some) := by
  refine .before (all_takeTime (windowed_own inert)) fun _ => .after (performs_window inert inner) fun _ => ?_
  exact ⟨windowed_eq_none (by simp) flush, fun _ => ⟨windowed_own inert _ rfl, fun _ => trivial⟩⟩

theorem performs_samplingLoop {n : Nat} {sample : Nat → Prog Unit} {ks : Nat → List κ} (inert : Inert access)
    (each : ∀ i, (sample i).Performs (windowed access) (none :: (ks i).map some)) :
    (samplingLoop n sample).Performs (windowed access) ((List.range n).flatMap fun i => none :: (ks i).map some) := by
  have head : (perform (.point .head)).All fun o => windowed access o = none :=
    ⟨windowed_own inert _ rfl, fun _ => trivial⟩
  exact .after (.forEach fun i _ => .before head fun _ => each i) fun _ => head

theorem accesses_of_performs {V : View Action Action.Res} {p : Prog Unit} {n : Nat} {s t : V.St}
    {tr : List (Σ o : Action, o.Res)} (run : V.Run p s tr (.done ()) t)
    (performs : p.Performs (windowed access) ((List.range n).flatMap fun _ => none :: ks.map some)) :
    accesses access tr = List.replicate n ks := by
  rw [accesses, run.performed performs, segments_flatMap _ fun _ => ks, List.map_const', List.length_range]

/-- Every program has runs to its end, whatever its actions return. -/
theorem run_free (p : Prog Unit) : ∃ tr, (View.free : View Action Action.Res).Run p () tr (.done ()) () := by
  obtain ⟨tr, a, t, run⟩ := View.run_exists .free p () fun _ o => by
    obtain ⟨r⟩ := o.res_nonempty
    exact ⟨r, (), rfl⟩
  exact ⟨tr, run⟩

end

end PmcBench
