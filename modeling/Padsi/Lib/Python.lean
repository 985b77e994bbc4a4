import Padsi.Lib.Text

/-! # Texts of Python

The tables of the Unicode database are a parameter, of which only the part that is fixed
by ASCII is used.
-/
namespace Padsi.Python
open Text List

structure Unicode where
  alnum : Char → Bool
  decimal : Char → Option ℕ
  variants : Char → List Char

/-- What the tables say about ASCII and the section sign. -/
structure Unicode.Lawful (U : Unicode) : Prop where
  alnum_ascii : ∀ c : Char, c.toNat < 128 → U.alnum c = c.isAlphanum
  alnum_section : U.alnum '§' = false
  alnum_of_decimal : ∀ c, (U.decimal c).isSome = true → U.alnum c = true
  decimal_digit : ∀ c : Char, c.isDigit = true → U.decimal c = some (c.toNat - '0'.toNat)
  variants_letter : ∀ c v, v ∈ U.variants c → v.isAlpha = true → U.alnum c = true
  variants_other : ∀ c v, v ∈ U.variants c → v.toNat < 128 → v.isAlpha = false → v = c

def Unicode.ascii : Unicode where
  alnum := Char.isAlphanum
  decimal c := if c.isDigit then some (c.toNat - '0'.toNat) else none
  variants c := if c.isAlpha then [c.toLower,c.toUpper] else [c]

theorem toNat_lt_of_isAlphanum {c : Char} (h : c.isAlphanum = true) : c.toNat < 128 := by
  simp only [Char.isAlphanum,Char.isAlpha,Char.isUpper,Char.isLower,Char.isDigit,Bool.or_eq_true,Bool.and_eq_true,
    decide_eq_true_eq,UInt32.le_iff_toNat_le,ge_iff_le] at h
  have hc : c.toNat = c.val.toNat := rfl
  have hz : 'z'.val.toNat = 122 := rfl
  have hZ : 'Z'.val.toNat = 90 := rfl
  have h9 : '9'.val.toNat = 57 := rfl
  omega

theorem forall_ascii {p : Char → Prop} (h : ∀ k : Fin 128, p (Char.ofNat k.val)) {c : Char}
    (hc : c.toNat < 128) : p c := by
  have hk := h ⟨c.toNat,hc⟩
  rwa [Char.ofNat_toNat] at hk

theorem Unicode.lawful_ascii : Unicode.ascii.Lawful where
  alnum_ascii _ _ := rfl
  alnum_section := by decide
  alnum_of_decimal c h := by
    have hd : c.isDigit = true := by
      by_contra hd
      simp [ascii,hd] at h
    simp [ascii,Char.isAlphanum,hd]
  decimal_digit c h := if_pos h
  variants_letter c v hv hl := by
    by_cases hc : c.isAlpha = true
    · simp [ascii,Char.isAlphanum,hc]
    · simp only [ascii,if_neg hc,mem_singleton] at hv
      exact absurd (hv ▸ hl) hc
  variants_other c v hv _ ho := by
    by_cases hc : c.isAlpha = true
    · have hca : ∀ k : Fin 128, (Char.ofNat k.val).isAlpha = true →
          (Char.ofNat k.val).toLower.isAlpha = true ∧ (Char.ofNat k.val).toUpper.isAlpha = true := by decide
      have ha : c.toNat < 128 := toNat_lt_of_isAlphanum (by simp [Char.isAlphanum,hc])
      obtain ⟨hlo,hu⟩ :=
        forall_ascii (p := fun c => c.isAlpha = true → c.toLower.isAlpha = true ∧ c.toUpper.isAlpha = true) hca ha hc
      simp only [ascii,if_pos hc,mem_cons,not_mem_nil,or_false] at hv
      rcases hv with rfl | rfl
      · rw [hlo] at ho
        cases ho
      · rw [hu] at ho
        cases ho
    · simpa [ascii,hc] using hv

/-- A computation that may raise an exception succeeds when its two parts do. -/
theorem bind_eq_ok {ε α β : Type} {x : Except ε α} {f : α → Except ε β} {b : β} :
    x >>= f = .ok b ↔ ∃ a, x = .ok a ∧ f a = .ok b := by
  cases x with
  | error e => exact ⟨nofun,nofun⟩
  | ok a =>
    constructor
    · intro h
      exact ⟨a,rfl,h⟩
    · rintro ⟨_,ha,h⟩
      cases ha
      exact h

theorem forall₂_of_mapM {α β ε : Type} {g : α → Except ε β} {as : List α} {bs : List β} (h : as.mapM g = .ok bs) :
    List.Forall₂ (fun a b => g a = .ok b) as bs := by
  induction as generalizing bs with
  | nil =>
    cases h
    exact .nil
  | cons a as ih =>
    rw [mapM_cons] at h
    obtain ⟨b,hb,h⟩ := bind_eq_ok.1 h
    obtain ⟨bs',hbs,h⟩ := bind_eq_ok.1 h
    cases h
    exact .cons hb (ih hbs)

theorem mem_of_mapM {α β ε : Type} {g : α → Except ε β} {as : List α} {bs : List β} (h : as.mapM g = .ok bs) :
    ∀ b ∈ bs, ∃ a ∈ as, g a = .ok b := by
  have hal := forall₂_of_mapM h
  clear h
  induction hal with
  | nil => nofun
  | cons hab _ ih =>
    refine forall_mem_cons.2 ⟨⟨_,mem_cons_self,hab⟩,fun b hb => ?_⟩
    obtain ⟨a,ha,hab⟩ := ih b hb
    exact ⟨a,mem_cons_of_mem _ ha,hab⟩

theorem exists_of_mapM {α β ε : Type} {g : α → Except ε β} {as : List α} {bs : List β} (h : as.mapM g = .ok bs) :
    ∀ a ∈ as, ∃ b ∈ bs, g a = .ok b := by
  have hal := forall₂_of_mapM h
  clear h
  induction hal with
  | nil => nofun
  | cons hab _ ih =>
    refine forall_mem_cons.2 ⟨⟨_,mem_cons_self,hab⟩,fun a ha => ?_⟩
    obtain ⟨b,hb,hab⟩ := ih a ha
    exact ⟨b,mem_cons_of_mem _ hb,hab⟩

def isSpace (c : Char) : Bool := isWhitespace c || (0x1c ≤ c.toNat && c.toNat ≤ 0x1f)
def strip (s : Str) : Str := (s.dropWhile isSpace).rdropWhile isSpace

theorem strip_append_left {u s : Str} (hu : ∀ c ∈ u, isSpace c = true) : strip (u ++ s) = strip s := by
  rw [strip,dropWhile_append_of_pos hu,strip]

theorem strip_append_right {v s : Str} (hv : ∀ c ∈ v, isSpace c = true) : strip (s ++ v) = strip s := by
  have he : ∀ x : Str, (x ++ v).rdropWhile isSpace = x.rdropWhile isSpace := by
    intro x
    rw [rdropWhile, reverse_append, dropWhile_append_of_pos (by simpa using hv)]
    rfl
  have ha : v.dropWhile isSpace = [] := dropWhile_eq_nil_iff.2 hv
  rw [strip,strip,dropWhile_append,ha]
  split
  · rename_i hem
    rw [isEmpty_iff.1 hem]
  · exact he _

theorem strip_of_solid {s : Str} (h : ∀ c ∈ s, isSpace c = false) : strip s = s := by
  have hfirst : s.dropWhile isSpace = s := by
    cases s with
    | nil => rfl
    | cons c s => rw [dropWhile_cons_of_neg (by simp [h c mem_cons_self])]
  rw [strip,hfirst,rdropWhile_eq_self_iff]
  intro hs
  rw [h _ (getLast_mem hs)]
  decide

theorem isSpace_of_digit {c : Char} (h : c.isDigit = true) : isSpace c = false := by
  have hc : ∀ k : Fin 128, (Char.ofNat k.val).isDigit = true → isSpace (Char.ofNat k.val) = false := by decide
  exact forall_ascii (p := fun c => c.isDigit = true → isSpace c = false) hc
    (toNat_lt_of_isAlphanum (by simp [Char.isAlphanum,h])) h

theorem exists_strip (s : Str) :
    ∃ u v, s = u ++ strip s ++ v ∧ (∀ c ∈ u, isSpace c = true) ∧ ∀ c ∈ v, isSpace c = true := by
  refine ⟨s.takeWhile isSpace,(s.dropWhile isSpace).rtakeWhile isSpace,?_,fun c hc => ?_,fun c hc => ?_⟩
  · rw [append_assoc,strip,rdropWhile_append_rtakeWhile,takeWhile_append_dropWhile]
  · exact mem_takeWhile_imp hc
  · exact mem_rtakeWhile_imp hc

theorem map_strip_splitOn_of {c : Char} (hc : isSpace c = false) (s : Str) :
    ((strip s).splitOn c).map strip = (s.splitOn c).map strip := by
  obtain ⟨u,v,hs,hu,hv⟩ := exists_strip s
  have hnot : ∀ w : Str, (∀ x ∈ w, isSpace x = true) → c ∉ w := by
    intro w hw hmem
    rw [hw c hmem] at hc
    cases hc
  have hl : ∀ t : Str, ((u ++ t).splitOn c).map strip = (t.splitOn c).map strip := by
    intro t
    obtain ⟨p,ps,hps⟩ := exists_cons_of_ne_nil (splitOn_ne_nil c t)
    rw [splitOn_append_left (hnot u hu) hps,hps,map_cons,map_cons,strip_append_left hu]
  have hr : ∀ t : Str, ((t ++ v).splitOn c).map strip = (t.splitOn c).map strip := by
    intro t
    obtain ⟨ps,p,hps⟩ : ∃ ps p, t.splitOn c = ps ++ [p] :=
      ⟨_,_,(dropLast_append_getLast (splitOn_ne_nil c t)).symm⟩
    rw [splitOn_append_right (hnot v hv) hps,hps,map_append,map_append,map_singleton,
      map_singleton,strip_append_right hv]
  conv_rhs => rw [hs,hr,hl]

theorem map_strip_splitOn (s : Str) : ((strip s).splitOn ',').map strip = (s.splitOn ',').map strip :=
  map_strip_splitOn_of (by decide) s
def removesuffix (suffix s : Str) : Str := if suffix <:+ s then s.take (s.length - suffix.length) else s

def intDigits (U : Unicode) : ℕ → Bool → Str → Option ℕ
  | acc, ready, [] => if ready then some acc else none
  | acc, ready, c :: s =>
    if c = '_' then if ready then intDigits U acc false s else none
    else
      match U.decimal c with
      | some d => intDigits U (10 * acc + d) true s
      | none => none

def int (U : Unicode) (s : Str) : Option ℤ :=
  match strip s with
  | '-' :: t => (intDigits U 0 false t).map fun n => -n
  | '+' :: t => (intDigits U 0 false t).map fun n => n
  | t => (intDigits U 0 false t).map fun n => n

theorem digits_solid (n : ℕ) : ∀ c ∈ Nat.toDigits 10 n, c.isDigit = true :=
  fun _ hc => Nat.isDigit_of_mem_toDigits (by decide) (by decide) hc
theorem strip_digits (n : ℕ) : strip (Nat.toDigits 10 n) = Nat.toDigits 10 n :=
  strip_of_solid fun c hc => isSpace_of_digit (digits_solid n c hc)

section
variable {U : Unicode} (hU : U.Lawful)
include hU

theorem intDigits_of_digits {s : Str} (hs : ∀ c ∈ s, c.isDigit = true) {acc : ℕ} {ready : Bool}
    (hr : ready = true ∨ s ≠ []) : intDigits U acc ready s = some (Nat.ofDigitChars 10 s acc) := by
  induction s generalizing acc ready with
  | nil =>
    rw [intDigits, if_pos (hr.resolve_right fun h => h rfl), Nat.ofDigitChars_nil]
  | cons c s ih =>
    have hc := hs c mem_cons_self
    have hne : c ≠ '_' := by
      rintro rfl
      cases hc
    rw [intDigits,if_neg hne,hU.decimal_digit c hc,Nat.ofDigitChars_cons]
    exact ih (fun x hx => hs x (mem_cons_of_mem _ hx)) (Or.inl rfl)

theorem intDigits_toDigits (n : ℕ) : intDigits U 0 false (Nat.toDigits 10 n) = some n := by
  rw [intDigits_of_digits hU (digits_solid n) (Or.inr Nat.toDigits_ne_nil),Nat.ofDigitChars_ten_toDigits]

theorem int_toDigits (n : ℕ) : int U (Nat.toDigits 10 n) = some (n : ℤ) := by
  unfold int
  rw [strip_digits]
  have hr := intDigits_toDigits hU n
  split
  · rename_i t ht
    cases digits_solid n '-' (by rw [ht]; exact mem_cons_self)
  · rename_i t ht
    cases digits_solid n '+' (by rw [ht]; exact mem_cons_self)
  · rw [hr]
    rfl

theorem int_neg_toDigits (n : ℕ) : int U ('-' :: Nat.toDigits 10 n) = some (-n : ℤ) := by
  have hs : ∀ c ∈ '-' :: Nat.toDigits 10 n, isSpace c = false :=
    forall_mem_cons.2 ⟨by decide,fun c hc => isSpace_of_digit (digits_solid n c hc)⟩
  unfold int
  rw [strip_of_solid hs]
  simp only [intDigits_toDigits hU n]
  rfl

end

end Padsi.Python
