import Mathlib

/-! # The sized cache

When the map is full the oldest key makes room for a new one.
-/
namespace Padsi.Web
open List AList

structure SizedCache (K V : Type) where
  cache : AList fun _ : K => V
  queue : List K
  maxSize : ℕ

namespace SizedCache
variable {K V : Type} [DecidableEq K]

def new (maxSize : ℕ) : SizedCache K V := ⟨∅,[],maxSize⟩
def size (c : SizedCache K V) : ℕ := c.cache.keys.length

def evict (c : SizedCache K V) : SizedCache K V :=
  if c.size = c.maxSize then
    match c.queue with
    | old :: rest => { c with cache := c.cache.erase old, queue := rest }
    | [] => c
  else c

def add (c : SizedCache K V) (key : K) (value : V) : SizedCache K V :=
  if key ∈ c.cache then { c with cache := c.cache.insert key value }
  else { c.evict with cache := c.evict.cache.insert key value, queue := c.evict.queue ++ [key] }

def get (c : SizedCache K V) (key : K) : Option V := c.cache.lookup key

/-- The queue holds each key of the map once, and the map is not larger than allowed. -/
structure Consistent (c : SizedCache K V) : Prop where
  nodup : c.queue.Nodup
  mem_queue : ∀ k, k ∈ c.queue ↔ k ∈ c.cache
  size_le : 1 ≤ c.maxSize → c.size ≤ c.maxSize

variable {c : SizedCache K V} {key : K} {value : V}

omit [DecidableEq K] in
theorem consistent_new (maxSize : ℕ) : (new maxSize : SizedCache K V).Consistent :=
  ⟨nodup_nil,fun k => by simp [new],fun _ => Nat.zero_le _⟩

omit [DecidableEq K] in
theorem Consistent.size_eq (h : c.Consistent) : c.size = c.queue.length := by
  have hp : c.cache.keys.Perm c.queue :=
    (perm_ext_iff_of_nodup c.cache.keys_nodup h.nodup).2 fun k => mem_keys.symm.trans (h.mem_queue k).symm
  exact hp.length_eq

/-- What is left after eviction: the same keys but possibly one, and room for a new one. -/
theorem evict_spec (h : c.Consistent) :
    c.evict.queue.Nodup ∧ (∀ k, k ∈ c.evict.queue ↔ k ∈ c.evict.cache) ∧ c.evict.maxSize = c.maxSize ∧
      (∀ k, k ∈ c.evict.queue → k ∈ c.queue) ∧ (1 ≤ c.maxSize → c.evict.size < c.maxSize) := by
  unfold evict
  split
  · rename_i hf
    split
    · rename_i old rest hq
      have hn := h.nodup
      rw [hq] at hn
      obtain ⟨hold,hrest⟩ := nodup_cons.1 hn
      have hmem : ∀ k, k ∈ old :: rest ↔ k ∈ c.cache := fun k => by rw [← hq]; exact h.mem_queue k
      refine ⟨hrest,fun k => ?_,rfl,fun k hk => hq ▸ mem_cons_of_mem old hk,fun ho => ?_⟩
      · rw [mem_erase,← hmem k,mem_cons]
        constructor
        · intro hk
          exact ⟨fun hko => hold (hko ▸ hk),.inr hk⟩
        · rintro ⟨hne,hk | hk⟩
          · exact absurd hk hne
          · exact hk
      · have hin : old ∈ c.cache.keys := mem_keys.1 ((hmem old).1 mem_cons_self)
        change (c.cache.erase old).keys.length < c.maxSize
        rw [keys_erase,length_erase_of_mem hin]
        have hs : c.cache.keys.length = c.maxSize := hf
        omega
    · rename_i hq
      refine ⟨h.nodup,h.mem_queue,rfl,fun _ hk => hk,fun ho => ?_⟩
      have hs := h.size_eq
      rw [hq] at hs
      rw [hs]
      exact ho
  · rename_i hr
    exact ⟨h.nodup,h.mem_queue,rfl,fun _ hk => hk,fun ho => lt_of_le_of_ne (h.size_le ho) hr⟩

theorem consistent_add (h : c.Consistent) (key : K) (value : V) : (c.add key value).Consistent := by
  unfold add
  split
  · rename_i hke
    refine ⟨h.nodup,fun k => ?_,fun ho => ?_⟩
    · rw [mem_insert,h.mem_queue k]
      constructor
      · exact .inr
      · rintro (rfl | hk)
        · exact hke
        · exact hk
    · change (c.cache.insert key value).keys.length ≤ c.maxSize
      rw [keys_insert,length_cons,length_erase_of_mem (mem_keys.1 hke)]
      have hs : c.cache.keys.length ≤ c.maxSize := h.size_le ho
      have hp := length_pos_of_mem (mem_keys.1 hke)
      omega
  · rename_i hke
    obtain ⟨hno,hmem,hm,hold,hr⟩ := evict_spec h
    have hn : key ∉ c.evict.queue := fun hk => hke ((h.mem_queue key).1 (hold key hk))
    refine ⟨?_,fun k => ?_,fun ho => ?_⟩
    · rw [nodup_append']
      exact ⟨hno,nodup_singleton key,disjoint_singleton.2 hn⟩
    · rw [mem_insert,mem_append,mem_singleton,hmem k,or_comm]
    · change (c.evict.cache.insert key value).keys.length ≤ c.evict.maxSize
      have hou : key ∉ c.evict.cache.keys := fun hk => hn ((hmem key).2 (mem_keys.2 hk))
      rw [keys_insert,length_cons,erase_of_not_mem hou,hm]
      exact hr (hm ▸ ho)

theorem get_new (maxSize : ℕ) (k : K) : (new maxSize : SizedCache K V).get k = none := lookup_empty k

theorem get_add {k : K} {v : V} (h : (c.add key value).get k = some v) : (k = key ∧ v = value) ∨ c.get k = some v := by
  have hi : ∀ m : AList fun _ : K => V, (m.insert key value).lookup k = some v →
      (k = key ∧ v = value) ∨ m.lookup k = some v := by
    intro m hm
    by_cases hk : k = key
    · subst hk
      rw [lookup_insert] at hm
      exact .inl ⟨rfl,(Option.some.inj hm).symm⟩
    · rw [lookup_insert_ne hk] at hm
      exact .inr hm
  unfold add at h
  split at h
  · exact hi _ h
  · refine (hi _ h).imp_right fun hg => ?_
    unfold evict at hg
    split at hg
    · split at hg
      · rename_i old rest _
        by_cases hk : k = old
        · subst hk
          rw [lookup_erase] at hg
          cases hg
        · rwa [lookup_erase_ne hk] at hg
      · exact hg
    · exact hg

def adds (maxSize : ℕ) (ops : List (K × V)) : SizedCache K V := ops.foldl (fun c o => c.add o.1 o.2) (new maxSize)

theorem get_add_self : (c.add key value).get key = some value := by
  unfold add
  split <;> exact lookup_insert _

/-- A key of the queue has the value that was added last for it. -/
theorem get_adds (maxSize : ℕ) (ops : List (K × V)) (k : K) :
    (adds maxSize ops).get k = if k ∈ (adds maxSize ops).queue then ops.reverse.lookup k else none := by
  have hr : (adds maxSize ops).Consistent ∧ ∀ v, (adds maxSize ops).get k = some v → ops.reverse.lookup k = some v := by
    induction ops using reverseRecOn with
    | nil => exact ⟨consistent_new maxSize,fun v h => by cases (get_new maxSize k).symm.trans h⟩
    | append_singleton ops o ih =>
      rw [adds,foldl_concat,← adds,reverse_concat,lookup_cons]
      refine ⟨consistent_add ih.1 o.1 o.2,fun v h => ?_⟩
      by_cases ho : k = o.1
      · rw [ho,get_add_self] at h
        simp [ho,h]
      · simp only [beq_false_of_ne ho]
        exact ih.2 v ((get_add h).resolve_left fun hk => ho hk.1)
  have hm := hr.1.mem_queue k
  split_ifs with hq
  · obtain ⟨v,hv⟩ := Option.isSome_iff_exists.1 (lookup_isSome.2 (hm.1 hq))
    exact hv.trans (hr.2 v hv).symm
  · exact lookup_eq_none.2 fun h => hq (hm.2 h)

end SizedCache

end Padsi.Web
