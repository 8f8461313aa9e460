import PmcBench.Threads.View

/-!
# Sequences of actions

`p.Performs pick ks` says that the picked actions of `p` are `ks`, in this order, on
every path to its end. `segments` cuts a sequence at its markers.
-/

namespace Threads

namespace Program
variable {Act : Type} {Res : Act → Type} {α β ι κ : Type} {pick : Act → Option κ}

def Performs (pick : Act → Option κ) : Program Act Res α → List κ → Prop
  | .done _, ks => ks = []
  | .act o next, ks => ∃ rest, ks = (pick o).toList ++ rest ∧ ∀ r, (next r).Performs pick rest

theorem Performs.act {o : Act} {next : Res o → Program Act Res α} {ks : List κ} (rest : ∀ r, (next r).Performs pick ks) :
    (Program.act o next).Performs pick ((pick o).toList ++ ks) := ⟨ks, rfl, rest⟩

theorem Performs.bind {p : Program Act Res α} {f : α → Program Act Res β} {ks ls : List κ} (first : p.Performs pick ks)
    (rest : ∀ a, (f a).Performs pick ls) : (p >>= f).Performs pick (ks ++ ls) := by
  induction p generalizing ks with
  | done a =>
    obtain rfl : ks = [] := first
    exact rest a
  | act o next ih =>
    obtain ⟨later, rfl, performs⟩ := first
    rw [List.append_assoc]
    exact .act fun r => ih r (performs r)

theorem performs_nothing {p : Program Act Res α} (unpicked : p.All fun o => pick o = none) : p.Performs pick [] := by
  induction p with
  | done a => rfl
  | act o next ih => exact ⟨[], by simp [unpicked.1], fun r => ih r (unpicked.2 r)⟩

/-- Unpicked actions before and after the rest. -/
theorem Performs.before {p : Program Act Res α} {f : α → Program Act Res β} {ks : List κ}
    (unpicked : p.All fun o => pick o = none) (rest : ∀ a, (f a).Performs pick ks) : (p >>= f).Performs pick ks := by
  simpa using (performs_nothing unpicked).bind rest

theorem Performs.after {p : Program Act Res α} {f : α → Program Act Res β} {ks : List κ} (first : p.Performs pick ks)
    (unpicked : ∀ a, (f a).All fun o => pick o = none) : (p >>= f).Performs pick ks := by
  simpa using first.bind fun a => performs_nothing (unpicked a)

theorem Performs.forEach {l : List ι} {body : ι → Program Act Res Unit} {ks : ι → List κ}
    (each : ∀ i ∈ l, (body i).Performs pick (ks i)) : (forEach l body).Performs pick (l.flatMap ks) := by
  induction l with
  | nil => rfl
  | cons i rest ih =>
    rw [forEach_cons, List.flatMap_cons]
    exact (each i List.mem_cons_self).bind fun _ => ih fun j member => each j (List.mem_cons_of_mem i member)

theorem Performs.forEach_one {l : List ι} {body : ι → Program Act Res Unit} {k : ι → κ}
    (each : ∀ i ∈ l, (body i).Performs pick [k i]) : (Program.forEach l body).Performs pick (l.map k) := by
  rw [List.map_eq_flatMap]
  exact .forEach each

end Program

theorem View.Run.performs {Act : Type} {Res : Act → Type} {α κ : Type} {V : View Act Res} {pick : Act → Option κ}
    {p q : Program Act Res α} {s t : V.St} {tr : List (Σ o, Res o)} (run : V.Run p s tr q t) {ks : List κ}
    (performs : p.Performs pick ks) : ∃ rest, ks = tr.filterMap (fun e => pick e.1) ++ rest ∧ q.Performs pick rest := by
  induction run with
  | start => exact ⟨ks, rfl, performs⟩
  | move _ _ ih => exact ih
  | @act tr o t r u next _ _ ih =>
    obtain ⟨_, rfl, later, rfl, rest⟩ := ih
    refine ⟨later, ?_, rest r⟩
    rw [List.filterMap_append, List.append_assoc]
    cases here : pick o <;> simp [here]

theorem View.Run.performed {Act : Type} {Res : Act → Type} {α κ : Type} {V : View Act Res} {pick : Act → Option κ}
    {p : Program Act Res α} {s t : V.St} {tr : List (Σ o, Res o)} {a : α} (run : V.Run p s tr (.done a) t) {ks : List κ}
    (performs : p.Performs pick ks) : tr.filterMap (fun e => pick e.1) = ks := by
  obtain ⟨_, same, rfl⟩ := run.performs performs
  simpa using same.symm

/-! ### Segments -/

section
variable {κ ι : Type}

/-- What comes before the first marker `none`, and the segments that follow the markers. -/
def cut : List (Option κ) → List κ × List (List κ)
  | [] => ([], [])
  | none :: l => ([], (cut l).1 :: (cut l).2)
  | some k :: l => (k :: (cut l).1, (cut l).2)

def segments (l : List (Option κ)) : List (List κ) := (cut l).2

theorem cut_append (ks : List κ) (l : List (Option κ)) : cut (ks.map some ++ l) = (ks ++ (cut l).1, (cut l).2) := by
  induction ks with
  | nil => rfl
  | cons k ks ih => simp [cut, ih]

theorem segments_flatMap (is : List ι) (ks : ι → List κ) :
    segments (is.flatMap fun i => none :: (ks i).map some) = is.map ks := by
  have both : cut (is.flatMap fun i => none :: (ks i).map some) = ([], is.map ks) := by
    induction is with
    | nil => rfl
    | cons i rest ih =>
      rw [List.flatMap_cons, List.cons_append, cut, cut_append, ih]
      simp
  exact congrArg Prod.snd both

end

end Threads
