import Mathlib

/-! # Selection by successive replacement

A scan keeps one candidate and replaces it when a test says so. The result is the end
of a descent through the list.
-/
namespace Padsi.Selection
open List

variable {α : Type} {t : α → α → Bool} {p : α → Prop}

section
variable (t : α → α → Bool)

def keep (best x : α) : α := if t best x then x else best

def select : List α → Option α
  | [] => none
  | x :: xs => some (xs.foldl (keep t) x)

def challenge (best : Option α) (x : α) : Option α :=
  match best with
  | none => some x
  | some b => some (keep t b x)

theorem foldl_challenge (xs : List α) : xs.foldl (challenge t) none = select t xs := by
  cases xs with
  | nil => rfl
  | cons x xs =>
    change xs.foldl (challenge t) (some x) = some (xs.foldl (keep t) x)
    induction xs generalizing x with
    | nil => rfl
    | cons y xs ih => exact ih (keep t x y)

def Leads (p : α → Prop) : α → α → Prop :=
  Relation.ReflTransGen fun a b => t a b = true ∧ p b

end

theorem Leads.mono {q : α → Prop} {a b : α} (h : Leads t p a b) (hpq : ∀ x, p x → q x) : Leads t q a b := by
  induction h with
  | refl => exact .refl
  | @tail _ c _ hs ih => exact ih.tail ⟨hs.1,hpq c hs.2⟩

section
variable {xs : List α} {m : α} (hm : m ∈ xs) (ht : ∀ a ∈ xs, a ≠ m → t a m = true)
include hm ht

end

end Padsi.Selection
