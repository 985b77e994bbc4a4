import Mathlib.Logic.Basic

/-! # Runs of a state machine -/
namespace Padsi.Runs
variable {σ ε : Type} {step : σ → ε → σ} {ok ok' : σ → ε → Prop} {p : σ → Prop}

/-- All steps of a run satisfy the condition. -/
def Along (step : σ → ε → σ) (ok : σ → ε → Prop) : σ → List ε → Prop
  | _, [] => True
  | s, e :: es => ok s e ∧ Along step ok (step s e) es

instance decidableAlong [∀ s e, Decidable (ok s e)] : ∀ s es, Decidable (Along step ok s es)
  | _, [] => isTrue trivial
  | s, e :: es => @instDecidableAnd _ _ _ (decidableAlong (step s e) es)

/-- What every step that satisfies the condition keeps holds at the end of a run. -/
theorem Along.keeps (hst : ∀ s e, p s → ok s e → p (step s e)) {s : σ} {es : List ε} (h : Along step ok s es)
    (hs : p s) : p (es.foldl step s) := by
  induction es generalizing s with
  | nil => exact hs
  | cons e es ih => exact ih h.2 (hst s e hs h.1)

theorem along_congr (h : ∀ s e, ok s e ↔ ok' s e) {s : σ} {es : List ε} : Along step ok s es ↔ Along step ok' s es := by
  induction es generalizing s with
  | nil => rfl
  | cons e es ih => exact and_congr (h s e) ih

end Padsi.Runs
