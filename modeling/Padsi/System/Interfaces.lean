import Padsi.Lib.Python

/-! # Names of network interfaces

`interface_create_name` puts a counter in a name and cuts the beginning of what follows
its first part, so that the counter is lost first.
-/
namespace Padsi.System
open Text Python List

def interfaceCreateName (counter : ℕ) (before after : Str) : Str :=
  let r : ℤ := 15 - before.length
  let suf := Nat.toDigits 10 counter ++ after
  before ++ if (suf.length : ℤ) > r then suf.drop (suf.length - r).toNat else suf

def interfaceNames (calls : List (Str × Str)) : List Str := calls.mapIdx fun i c => interfaceCreateName (i + 1) c.1 c.2

/-- The name is not cut, and nothing before the counter or next to it is a digit. -/
def Plain (counter : ℕ) (before after : Str) : Prop :=
  before.length + (Nat.toDigits 10 counter).length + after.length ≤ 15 ∧ (∀ c ∈ before, c.isDigit = false) ∧
    ∀ c ∈ after.head?, c.isDigit = false

theorem length_interfaceCreateName (counter : ℕ) (before after : Str) :
    (interfaceCreateName counter before after).length ≤ 15 ↔ before.length ≤ 15 := by
  rw [interfaceCreateName,length_append]
  split_ifs with h
  · rw [length_drop]
    omega
  · omega

def counterOf (name : Str) : ℕ := Nat.ofDigitChars 10 ((name.dropWhile (!·.isDigit)).takeWhile Char.isDigit) 0

theorem counterOf_interfaceCreateName {counter : ℕ} {before after : Str} (h : Plain counter before after) :
    counterOf (interfaceCreateName counter before after) = counter := by
  obtain ⟨hl,hb,ha⟩ := h
  have hs := digits_solid counter
  have hd : (Nat.toDigits 10 counter ++ after).dropWhile (!·.isDigit) = Nat.toDigits 10 counter ++ after := by
    obtain ⟨c,cs,hc⟩ := exists_cons_of_ne_nil (Nat.toDigits_ne_nil (b := 10) (n := counter))
    rw [hc] at hs ⊢
    rw [cons_append,dropWhile_cons_of_neg (by simp [hs c mem_cons_self])]
  have ht : (Nat.toDigits 10 counter ++ after).takeWhile Char.isDigit = Nat.toDigits 10 counter := by
    rw [takeWhile_append_of_pos hs]
    cases after with
    | nil => simp
    | cons c cs => simp [ha c rfl]
  rw [counterOf,interfaceCreateName,if_neg (by simp; omega),dropWhile_append_of_pos (by simpa using hb),hd,ht,
    Nat.ofDigitChars_ten_toDigits]

/-- The names of calls that are plain are different, and none is too long for an interface. -/
theorem interfaceNames_distinct {calls : List (Str × Str)} (h : ∀ i c, calls[i]? = some c → Plain (i + 1) c.1 c.2) :
    (∀ name ∈ interfaceNames calls, name.length ≤ 15) ∧ (interfaceNames calls).Nodup := by
  constructor
  · intro name hn
    obtain ⟨i,hi,rfl⟩ := mem_mapIdx.1 hn
    rw [length_interfaceCreateName]
    have hp := (h i _ (getElem?_eq_getElem hi)).1
    omega
  · rw [nodup_iff_pairwise_ne,pairwise_iff_getElem]
    intro i j hi hj hlt he
    simp only [interfaceNames,getElem_mapIdx,length_mapIdx] at hi hj he
    have hc := congrArg counterOf he
    rw [counterOf_interfaceCreateName (h i _ (getElem?_eq_getElem hi)),
      counterOf_interfaceCreateName (h j _ (getElem?_eq_getElem hj))] at hc
    omega

def someCalls : List (Str × Str) := [("lw","office-1000"),("ve","admin"),("lw","office-1000")]

/-- The first and the third call are the same. -/
theorem someCalls_distinct : (∀ name ∈ interfaceNames someCalls, name.length ≤ 15) ∧ (interfaceNames someCalls).Nodup ∧
    interfaceNames someCalls = ["lw1office-1000".toList,"ve2admin".toList,"lw3office-1000".toList] := by
  have hp : ∀ i c, someCalls[i]? = some c → Plain (i + 1) c.1 c.2 := by
    intro i c h
    match i, h with
    | 0, rfl => exact ⟨by decide,by simp,by simp⟩
    | 1, rfl => exact ⟨by decide,by simp,by simp⟩
    | 2, rfl => exact ⟨by decide,by simp,by simp⟩
  obtain ⟨hl,hn⟩ := interfaceNames_distinct hp
  exact ⟨hl,hn,by decide⟩

/-- Two infrastructures of the zone `workstations`. -/
theorem veth_names_equal : interfaceNames [("lw","workstations-1000"),
    ("lw","workstations-1000")] = ["lwstations-1000".toList,"lwstations-1000".toList] := by
  decide

end Padsi.System
