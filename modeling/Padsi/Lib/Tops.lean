import Mathlib

/-! # The words of a list of which no other one is the beginning -/
namespace Padsi.Tops

variable {α : Type} {ps : List (List α)} {p q t t' : List α}

def Topmost (ps : List (List α)) (t : List α) : Prop := t ∈ ps ∧ ∀ q ∈ ps, q <+: t → q = t
instance [DecidableEq α] (ps : List (List α)) (t : List α) : Decidable (Topmost ps t) :=
  inferInstanceAs (Decidable (t ∈ ps ∧ ∀ q ∈ ps, q <+: t → q = t))

theorem exists_top (hp : p ∈ ps) : ∃ t, Topmost ps t ∧ t <+: p := by
  induction hn : p.length using Nat.strong_induction_on generalizing p with
  | _ n ih =>
    by_cases hto : Topmost ps p
    · exact ⟨p,hto,List.prefix_rfl⟩
    · obtain ⟨q,hq,hqp,hne⟩ : ∃ q ∈ ps, q <+: p ∧ q ≠ p := by
        simpa [Topmost,hp] using hto
      have hlt : q.length < p.length := lt_of_le_of_ne hqp.length_le fun heq => hne (hqp.eq_of_length heq)
      obtain ⟨t,ht,htq⟩ := ih q.length (hn ▸ hlt) hq rfl
      exact ⟨t,ht,htq.trans hqp⟩

theorem Topmost.below (ht : Topmost ps t) (hq : q ∈ ps) (hqp : q <+: p) (htp : t <+: p) : t <+: q := by
  rcases List.prefix_or_prefix_of_prefix htp hqp with h | h
  · exact h
  · rw [ht.2 q hq h]

theorem Topmost.unique (ht : Topmost ps t) (ht' : Topmost ps t') (h : t <+: p) (h' : t' <+: p) : t = t' :=
  ht'.2 t ht.1 (ht.below ht'.1 h' h)

theorem topmost_iff {ks : List (List α)} (hs : ∀ k ∈ ks, k ∈ ps) (hc : ∀ p ∈ ps, ∃ k ∈ ks, k <+: p) :
    Topmost ks t ↔ Topmost ps t := by
  constructor
  · intro ht
    refine ⟨hs t ht.1,fun q hq hqt => ?_⟩
    obtain ⟨k,hk,hkq⟩ := hc q hq
    have hkt := ht.2 k hk (hkq.trans hqt)
    subst hkt
    exact hqt.eq_of_length (le_antisymm hqt.length_le hkq.length_le)
  · intro ht
    obtain ⟨k,hk,hkt⟩ := hc t ht.1
    have heq := ht.2 k (hs k hk) hkt
    exact ⟨heq ▸ hk,fun q hq => ht.2 q (hs q hq)⟩

end Padsi.Tops
