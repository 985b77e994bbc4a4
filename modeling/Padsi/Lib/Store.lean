import Mathlib

/-! # State of Python programs

Loops that change a state and can stop with an exception, and dictionaries in the order
in which their keys were first set.
-/
namespace Padsi.Python
open List Prod

section
variable {σ α ε : Type}

/-- What follows a value in a program with a state; an exception leaves the state as it is. -/
def given {β : Type} (x : Except ε α) (s : σ) (k : α → σ × Except ε β) : σ × Except ε β :=
  match x with
  | .error e => (s,.error e)
  | .ok a => k a

def andThen (r : σ × Except ε Unit) (k : σ → σ × Except ε Unit) : σ × Except ε Unit :=
  match r with
  | (s,.error e) => (s,.error e)
  | (s,.ok _) => k s

def each (body : α → σ → σ × Except ε Unit) : List α → σ → σ × Except ε Unit
  | [], s => (s,.ok ())
  | a :: as, s => andThen (body a s) (each body as)

end

structure Dict (κ β : Type) where
  entries : List (κ × β)
  nodup : (entries.map Prod.fst).Nodup

namespace Dict
variable {κ β : Type} [DecidableEq κ]

def empty : Dict κ β := ⟨[],nodup_nil⟩
def get (d : Dict κ β) (k : κ) : Option β := d.entries.lookup k

def setIn (k : κ) (v : β) : List (κ × β) → List (κ × β)
  | [] => [(k,v)]
  | e :: es => if e.1 = k then (k,v) :: es else e :: setIn k v es

theorem keys_setIn (k : κ) (v : β) (es : List (κ × β)) :
    (setIn k v es).map fst = if k ∈ es.map fst then es.map fst else es.map fst ++ [k] := by
  induction es with
  | nil => rfl
  | cons e es ih =>
    unfold setIn
    by_cases hk : e.1 = k
    · simp [hk]
    · rw [if_neg hk,map_cons,map_cons,ih]
      by_cases hmem : k ∈ es.map fst
      · rw [if_pos hmem,if_pos (mem_cons_of_mem _ hmem)]
      · rw [if_neg hmem, if_neg fun h => (mem_cons.1 h).elim (fun h => hk h.symm) hmem]
        rfl

variable {k : κ} {v : β} {es : List (κ × β)} {d : Dict κ β}

theorem nodup_setIn (h : (es.map fst).Nodup) : ((setIn k v es).map fst).Nodup := by
  rw [keys_setIn]
  split
  · exact h
  · rename_i hk
    rw [← concat_eq_append]
    exact h.concat hk

section
variable (d : Dict κ β) (k : κ) (v : β)

def set : Dict κ β := ⟨setIn k v d.entries,nodup_setIn d.nodup⟩
def filter (p : β → Bool) (d : Dict κ β) : Dict κ β :=
  ⟨d.entries.filter fun e => p e.2,(filter_sublist.map Prod.fst).nodup d.nodup⟩
def erase : Dict κ β := ⟨d.entries.filter fun e => e.1 ≠ k,(filter_sublist.map Prod.fst).nodup d.nodup⟩
theorem get_empty : (empty : Dict κ β).get k = none := rfl

theorem lookup_entry (e : κ × β) (es : List (κ × β)) :
    (e :: es).lookup k = if k = e.1 then some e.2 else es.lookup k := by
  by_cases hk : k = e.1
  · rw [if_pos hk,hk]
    exact lookup_cons_self
  · rw [if_neg hk,lookup_cons,beq_eq_false_iff_ne.2 hk]

theorem lookup_setIn (k' : κ) (v : β) (es : List (κ × β)) :
    (setIn k v es).lookup k' = if k' = k then some v else es.lookup k' := by
  induction es with
  | nil => exact lookup_entry k' (k,v) []
  | cons e es ih =>
    unfold setIn
    rw [lookup_entry k' e es]
    by_cases hk : e.1 = k
    · rw [if_pos hk,lookup_entry,hk]
      by_cases hk' : k' = k
      · rw [if_pos hk',if_pos hk']
      · simp only [if_neg hk']
    · rw [if_neg hk,lookup_entry,ih]
      by_cases hk' : k' = k
      · rw [if_pos hk', if_pos hk', if_neg fun h => hk (h.symm.trans hk')]
      · simp only [if_neg hk']

theorem get_set (k' : κ) (v : β) : (d.set k v).get k' = if k' = k then some v else d.get k' :=
  lookup_setIn k k' v d.entries

theorem setIn_setIn (w : β) (es : List (κ × β)) : setIn k w (setIn k v es) = setIn k w es := by
  induction es with
  | nil => simp [setIn]
  | cons e es ih =>
    by_cases hk : e.1 = k
    · simp [setIn,hk]
    · simp [setIn,hk,ih]

theorem set_set (w : β) : (d.set k v).set k w = d.set k w := by
  simp only [set,setIn_setIn]

end

theorem lookup_of_mem (hn : (es.map fst).Nodup) (h : (k,v) ∈ es) : es.lookup k = some v := by
  induction es with
  | nil => cases h
  | cons e es ih =>
    obtain ⟨hnot,hrest⟩ := nodup_cons.1 hn
    rw [lookup_entry]
    rcases mem_cons.1 h with rfl | h
    · exact if_pos rfl
    · have hne : k ≠ e.1 := by
        rintro rfl
        exact hnot (mem_map.2 ⟨_,h,rfl⟩)
      rw [if_neg hne]
      exact ih hrest h

theorem mem_of_get (h : d.get k = some v) : (k,v) ∈ d.entries := by
  obtain ⟨l₁,l₂,hd,_⟩ := lookup_eq_some_iff.1 h
  rw [hd]
  simp

theorem mem_entries_iff : (k,v) ∈ d.entries ↔ d.get k = some v :=
  ⟨lookup_of_mem d.nodup,mem_of_get⟩

theorem get_erase (d : Dict κ β) (k k' : κ) : (d.erase k).get k' = if k' = k then none else d.get k' := by
  refine Option.ext fun v => ?_
  rw [← mem_entries_iff,erase,mem_filter,mem_entries_iff]
  by_cases hk : k' = k
  · simp [hk]
  · simp [hk]

theorem entries_eq_nil (h : ∀ k, d.get k = none) : d.entries = [] := by
  refine eq_nil_iff_forall_not_mem.2 fun e he => ?_
  have hg := mem_entries_iff.1 he
  rw [h] at hg
  cases hg

theorem setIn_of_notMem (h : k ∉ es.map fst) (v : β) : setIn k v es = es ++ [(k,v)] := by
  induction es with
  | nil => rfl
  | cons e es ih =>
    have hne : e.1 ≠ k := fun hk => h (mem_cons.2 (Or.inl hk.symm))
    rw [setIn, if_neg hne, ih fun hmem => h (mem_cons_of_mem _ hmem)]
    rfl

theorem entries_foldl_set (d : Dict κ β) (h : ((d.entries ++ es).map fst).Nodup) :
    (es.foldl (fun d e => d.set e.1 e.2) d).entries = d.entries ++ es := by
  induction es generalizing d with
  | nil => exact (append_nil _).symm
  | cons e es ih =>
    have hnot : e.1 ∉ d.entries.map fst := by
      intro hmem
      rw [map_append,map_cons] at h
      exact disjoint_of_nodup_append h hmem mem_cons_self
    have hs : (d.set e.1 e.2).entries = d.entries ++ [e] := setIn_of_notMem hnot e.2
    have hsplit : d.entries ++ e :: es = (d.set e.1 e.2).entries ++ es := by
      rw [hs,append_assoc]
      rfl
    rw [hsplit] at h ⊢
    exact ih _ h

theorem get_filter (d : Dict κ β) (p : β → Bool) (k : κ) (v : β) :
    (d.filter p).get k = some v ↔ d.get k = some v ∧ p v = true := by
  rw [← mem_entries_iff,← mem_entries_iff,filter,mem_filter]

def addTo (d : Dict κ (List β)) (k : κ) (x : β) : Dict κ (List β) := d.set k ((d.get k).getD [] ++ [x])
def group (items : List (κ × β)) : Dict κ (List β) := items.foldl (fun d i => d.addTo i.1 i.2) empty

theorem group_concat (items : List (κ × β)) (i : κ × β) : group (items ++ [i]) = (group items).addTo i.1 i.2 := by
  rw [group,foldl_append]
  rfl

theorem get_group (items : List (κ × β)) (k : κ) :
    (group items).get k = if k ∈ items.map fst then some ((items.filter fun i => i.1 = k).map snd) else none := by
  induction items using reverseRecOn with
  | nil => rfl
  | append_singleton items i ih =>
    rw [group_concat,addTo,get_set]
    by_cases hk : k = i.1
    · subst hk
      rw [ih]
      by_cases hmem : i.1 ∈ items.map fst
      · simp [if_pos hmem]
      · have hnone : items.filter (fun j => j.1 = i.1) = [] := by
          refine filter_eq_nil_iff.2 fun j hj heq => hmem ?_
          exact of_decide_eq_true heq ▸ mem_map_of_mem hj
        simp [if_neg hmem,hnone]
    · have hne : ¬ i.1 = k := fun h => hk h.symm
      have hmem : k ∈ (items ++ [i]).map fst ↔ k ∈ items.map fst := by simp [hk]
      rw [if_neg hk,ih,filter_append]
      simp only [hmem,hne,filter_cons,filter_nil,decide_false,Bool.false_eq_true,if_false,append_nil]

theorem find_group (m : κ → Bool) (items : List (κ × β)) :
    ((group items).entries.map fst).find? m = (items.map fst).find? m := by
  induction items using reverseRecOn with
  | nil => rfl
  | append_singleton items i ih =>
    rw [group_concat,addTo,set,keys_setIn,map_append,map_singleton,find?_append,← ih]
    split
    · rename_i hmem
      cases hm : m i.1 with
      | false => simp [hm]
      | true =>
        obtain ⟨k,hk⟩ := Option.isSome_iff_exists.1 (find?_isSome.2 ⟨i.1,hmem,hm⟩)
        rw [hk,Option.some_or]
    · exact find?_append

end Dict

section
variable {α : Type} {r : α → α → Bool}

def Among (r : α → α → Bool) (xs : List α) (a : α) : Prop := ∃ x ∈ xs, r x a = true

def without (r : α → α → Bool) (xs known : List α) : List α := xs.filter fun x => !known.any fun k => r k x
theorem among_append {xs ys : List α} {a : α} : Among r (xs ++ ys) a ↔ Among r xs a ∨ Among r ys a := by
  simp only [Among,mem_append,or_and_right,exists_or]
theorem mem_without {xs known : List α} {x : α} : x ∈ without r xs known ↔ x ∈ xs ∧ ¬ Among r known x := by
  simp [without,Among]

variable (hsymm : ∀ a b, r a b = true → r b a = true) (htrans : ∀ a b c, r a b = true → r b c = true → r a c = true)
include hsymm htrans

theorem among_without {xs known : List α} {a : α} :
    Among r (without r xs known) a ↔ Among r xs a ∧ ¬ Among r known a := by
  constructor
  · rintro ⟨x,hx,hxa⟩
    obtain ⟨hmem,hnot⟩ := mem_without.1 hx
    exact ⟨⟨x,hmem,hxa⟩,fun ⟨k,hk,hka⟩ => hnot ⟨k,hk,htrans _ _ _ hka (hsymm _ _ hxa)⟩⟩
  · rintro ⟨⟨x,hmem,hxa⟩,hnot⟩
    exact ⟨x,mem_without.2 ⟨hmem,fun ⟨k,hk,hkx⟩ => hnot ⟨k,hk,htrans _ _ _ hkx hxa⟩⟩,hxa⟩

theorem among_update {xs old new : List α} (hxs : ∀ a, Among r xs a ↔ Among r old a) (a : α) :
    Among r (without r (xs ++ without r new old) (without r old new)) a ↔ Among r new a := by
  rw [among_without hsymm htrans,among_append,among_without hsymm htrans,among_without hsymm htrans,hxs]
  tauto

end

structure Heap (α : Type) where
  lists : List (List α)

namespace Heap
variable {α : Type} {h : Heap α} {r r' : ℕ}

def empty : Heap α := ⟨[]⟩
def read (h : Heap α) (r : ℕ) : List α := h.lists.getD r []
def alloc (h : Heap α) (xs : List α) : Heap α × ℕ := (⟨h.lists ++ [xs]⟩,h.lists.length)
def append (h : Heap α) (r : ℕ) (x : α) : Heap α := ⟨h.lists.modify r (· ++ [x])⟩
theorem read_alloc_self (h : Heap α) (xs : List α) : (h.alloc xs).1.read h.lists.length = xs := by
  simp [alloc,read,getD_eq_getElem?_getD]
theorem read_alloc_of_lt (xs : List α) (hr : r < h.lists.length) : (h.alloc xs).1.read r = h.read r := by
  simp [alloc,read,getD_eq_getElem?_getD,getElem?_append_left hr]
theorem length_alloc (h : Heap α) (xs : List α) : (h.alloc xs).1.lists.length = h.lists.length + 1 := length_append
theorem length_append (h : Heap α) (r : ℕ) (x : α) : (h.append r x).lists.length = h.lists.length := length_modify ..
theorem read_append_self (hr : r < h.lists.length) (x : α) : (h.append r x).read r = h.read r ++ [x] := by
  simp [append,read,getD_eq_getElem?_getD,getElem?_eq_getElem hr]
theorem read_append_of_ne (hne : r' ≠ r) (x : α) : (h.append r x).read r' = h.read r' := by
  simp [append,read,getD_eq_getElem?_getD,hne.symm]

end Heap

end Padsi.Python
