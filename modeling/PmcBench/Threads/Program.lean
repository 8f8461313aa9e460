import Mathlib.Data.List.Basic

/-!
# Programs of atomic actions

A program is the tree of the atomic actions a thread performs and of the
results they may return. The semantics of an action is left to the `View` or
the `System` that runs the program.
-/

namespace Threads

inductive Program (Act : Type) (Res : Act → Type) (α : Type) : Type where
  | done (a : α)
  | act (o : Act) (next : Res o → Program Act Res α)

namespace Program
variable {Act : Type} {Res : Act → Type} {α β γ ι : Type}

def bind : Program Act Res α → (α → Program Act Res β) → Program Act Res β
  | .done a, f => f a
  | .act o next, f => .act o fun r => (next r).bind f

instance : Monad (Program Act Res) where
  pure := .done
  bind := bind

@[simp] theorem pure_eq (a : α) : (pure a : Program Act Res α) = .done a := rfl

@[simp] theorem done_bind (a : α) (f : α → Program Act Res β) : (Program.done a >>= f) = f a := rfl

@[simp] theorem act_bind (o : Act) (next : Res o → Program Act Res α) (f : α → Program Act Res β) :
    (Program.act o next >>= f) = .act o fun r => next r >>= f := rfl

@[simp] theorem bind_done (p : Program Act Res α) : (p >>= Program.done) = p := by
  induction p with
  | done a => rfl
  | act o next ih => simp only [act_bind, ih]

@[simp] theorem bind_assoc (p : Program Act Res α) (f : α → Program Act Res β) (g : β → Program Act Res γ) :
    (p >>= f >>= g) = p >>= fun a => f a >>= g := by
  induction p with
  | done a => rfl
  | act o next ih => simp only [act_bind, ih]

/-- A single action. -/
def call (o : Act) : Program Act Res (Res o) := .act o .done

@[simp] theorem call_bind (o : Act) (f : Res o → Program Act Res β) : (call o >>= f) = .act o f := rfl

/-- The body for each element of a list in turn: the loops of the source. -/
def forEach : List ι → (ι → Program Act Res Unit) → Program Act Res Unit
  | [], _ => pure ()
  | i :: rest, body => do
    body i
    forEach rest body

@[simp] theorem forEach_nil (body : ι → Program Act Res Unit) : forEach [] body = .done () := rfl

@[simp] theorem forEach_cons (i : ι) (rest : List ι) (body : ι → Program Act Res Unit) :
    forEach (i :: rest) body = body i >>= fun _ => forEach rest body := rfl

theorem forEach_append (l m : List ι) (body : ι → Program Act Res Unit) :
    forEach (l ++ m) body = forEach l body >>= fun _ => forEach m body := by
  induction l with
  | nil => rfl
  | cons i l ih => simp [ih]

theorem forEach_map {κ : Type} (l : List κ) (g : κ → ι) (body : ι → Program Act Res Unit) :
    forEach (l.map g) body = forEach l fun k => body (g k) := by
  induction l with
  | nil => rfl
  | cons k l ih => simp [ih]

/-- Nested loops as one. -/
theorem forEach_flatMap {κ : Type} (l : List κ) (g : κ → List ι) (body : ι → Program Act Res Unit) :
    forEach (l.flatMap g) body = forEach l fun k => forEach (g k) body := by
  induction l with
  | nil => rfl
  | cons k l ih => simp [forEach_append, ih]

def isDone : Program Act Res Unit → Bool
  | .done _ => true
  | .act .. => false

theorem eq_done_of_isDone {p : Program Act Res Unit} (ended : p.isDone = true) : p = .done () := by
  cases p with
  | done a => rfl
  | act o next => cases ended

/-! ### What a program can do -/

/-- Every action that occurs in the program satisfies `φ`. -/
def All (φ : Act → Prop) : Program Act Res α → Prop
  | .done _ => True
  | .act o next => φ o ∧ ∀ r, (next r).All φ

/-- Some path of the program leads to an action that satisfies `φ`. -/
def May (φ : Act → Prop) : Program Act Res α → Prop
  | .done _ => False
  | .act o next => φ o ∨ ∃ r, (next r).May φ

theorem not_may_of_all {φ : Act → Prop} {p : Program Act Res α} (h : p.All fun o => ¬ φ o) : ¬ p.May φ := by
  induction p with
  | done a => exact id
  | act o next ih =>
    rintro (here | ⟨r, later⟩)
    · exact h.1 here
    · exact ih r (h.2 r) later

theorem All.mono {φ ψ : Act → Prop} {p : Program Act Res α} (h : p.All φ) (imp : ∀ o, φ o → ψ o) : p.All ψ := by
  induction p with
  | done a => trivial
  | act o next ih => exact ⟨imp o h.1, fun r => ih r (h.2 r)⟩

@[simp] theorem all_done {φ : Act → Prop} (a : α) : (Program.done a : Program Act Res α).All φ := trivial

@[simp] theorem all_act {φ : Act → Prop} (o : Act) (next : Res o → Program Act Res α) :
    (Program.act o next).All φ ↔ φ o ∧ ∀ r, (next r).All φ := Iff.rfl

@[simp] theorem all_call {φ : Act → Prop} (o : Act) : (call o : Program Act Res (Res o)).All φ ↔ φ o := by
  simp [call]

theorem All.bind {φ : Act → Prop} {p : Program Act Res α} {f : α → Program Act Res β}
    (first : p.All φ) (rest : ∀ a, (f a).All φ) : (p >>= f).All φ := by
  induction p with
  | done a => exact rest a
  | act o next ih => exact ⟨first.1, fun r => ih r (first.2 r)⟩

theorem All.of_forall {φ : Act → Prop} {p : Program Act Res α} (h : ∀ o, φ o) : p.All φ := by
  induction p with
  | done a => trivial
  | act o next ih => exact ⟨h o, ih⟩

theorem All.forEach {φ : Act → Prop} {l : List ι} {body : ι → Program Act Res Unit}
    (h : ∀ i ∈ l, (body i).All φ) : (forEach l body).All φ := by
  induction l with
  | nil => trivial
  | cons i rest ih =>
    exact (h i List.mem_cons_self).bind fun _ => ih fun j member => h j (List.mem_cons_of_mem _ member)

/-- Every path of the program that ends has an action that satisfies `φ`. -/
def Must (φ : Act → Prop) : Program Act Res α → Prop
  | .done _ => False
  | .act o next => φ o ∨ ∀ r, (next r).Must φ

theorem Must.call {φ : Act → Prop} {o : Act} (h : φ o) : (Program.call o : Program Act Res (Res o)).Must φ := Or.inl h

theorem Must.first {φ : Act → Prop} {p : Program Act Res α} (h : p.Must φ) (f : α → Program Act Res β) :
    (p >>= f).Must φ := by
  induction p with
  | done a => exact h.elim
  | act o next ih =>
    rcases h with here | later
    · exact Or.inl here
    · exact Or.inr fun r => ih r (later r)

theorem Must.rest {φ : Act → Prop} (p : Program Act Res α) {f : α → Program Act Res β} (h : ∀ a, (f a).Must φ) :
    (p >>= f).Must φ := by
  induction p with
  | done a => exact h a
  | act o next ih => exact Or.inr ih

theorem Must.forEach {φ : Act → Prop} {l : List ι} {body : ι → Program Act Res Unit} {i : ι} (member : i ∈ l)
    (h : (body i).Must φ) : (Program.forEach l body).Must φ := by
  induction l with
  | nil => cases member
  | cons j rest ih =>
    rcases List.mem_cons.mp member with rfl | later
    · exact h.first _
    · exact Must.rest (body j) fun _ => ih later

/-! ### Deterministic execution -/

/-- Runs a program against a handler that answers each action, or refuses it
and so stops the program there. -/
def exec {σ : Type} (h : σ → (o : Act) → Option (Res o × σ)) : Program Act Res α → σ → Option α × σ
  | .done a, s => (some a, s)
  | .act o next, s =>
    match h s o with
    | some (r, s') => (next r).exec h s'
    | none => (none, s)

theorem exec_bind {σ : Type} {h : σ → (o : Act) → Option (Res o × σ)} {p : Program Act Res α}
    {f : α → Program Act Res β} {s t : σ} {a : α} (first : p.exec h s = (some a, t)) :
    (p >>= f).exec h s = (f a).exec h t := by
  induction p generalizing s with
  | done a' =>
    simp only [exec, Prod.mk.injEq, Option.some.injEq] at first
    obtain ⟨rfl, rfl⟩ := first
    rfl
  | act o next ih =>
    simp only [act_bind, exec] at first ⊢
    split at first
    · exact ih _ first
    · cases first

end Program

end Threads
