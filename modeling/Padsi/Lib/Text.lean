import Mathlib

/-! # Text operations of the Rust standard library -/
namespace Padsi.Text
open List

abbrev Str := List Char
instance lawfulBEqStr : LawfulBEq Str := inferInstance
instance coeString : Coe String Str := ⟨String.toList⟩

def isWhitespace (c : Char) : Bool :=
  (0x9 ≤ c.toNat && c.toNat ≤ 0xd) || (0x2000 ≤ c.toNat && c.toNat ≤ 0x200a) ||
    [0x20,0x85,0xa0,0x1680,0x2028,0x2029,0x202f,0x205f,0x3000].contains c.toNat

def trim (s : Str) : Str := (s.dropWhile isWhitespace).rdropWhile isWhitespace
def contains (pat s : Str) : Bool := decide (pat <:+: s)
def startsWith (pat s : Str) : Bool := decide (pat <+: s)

def replaceFrom (pat w : Str) : ℕ → Str → Str
  | _, [] => []
  | k + 1, _ :: s => replaceFrom pat w k s
  | 0, c :: s =>
    if pat <+: c :: s then w ++ replaceFrom pat w (pat.length - 1) s else c :: replaceFrom pat w 0 s

def replace (pat w s : Str) : Str := replaceFrom pat w 0 s

inductive IntError where
  | empty
  | invalidDigit
  | posOverflow
deriving DecidableEq, Repr

def parseDigits (max : ℕ) : ℕ → Str → Except IntError ℕ
  | acc, [] => .ok acc
  | acc, c :: s =>
    if c.isDigit then
      if 10 * acc + (c.toNat - '0'.toNat) ≤ max then parseDigits max (10 * acc + (c.toNat - '0'.toNat)) s
      else .error .posOverflow
    else .error .invalidDigit

def parseUnsigned (max : ℕ) (s : Str) : Except IntError ℕ :=
  match s with
  | [] => .error .empty
  | c :: rest => if c = '+' ∧ rest ≠ [] then parseDigits max 0 rest else parseDigits max 0 s

variable {pat w s : Str} {c : Char}

theorem contains_iff : contains pat s = true ↔ pat <:+: s := decide_eq_true_iff
theorem startsWith_iff : startsWith pat s = true ↔ pat <+: s := decide_eq_true_iff

theorem contains_singleton : contains [c] s = true ↔ c ∈ s := by
  rw [contains_iff]
  constructor
  · rintro ⟨u,v,rfl⟩
    simp
  · intro h
    obtain ⟨u,v,rfl⟩ := append_of_mem h
    exact ⟨u,v,by simp⟩

theorem contains_cons : contains pat (c :: s) = true ↔ startsWith pat (c :: s) = true ∨ contains pat s = true := by
  rw [contains_iff,contains_iff,startsWith_iff]
  exact infix_cons_iff

theorem replaceFrom_skip (pat w u s : Str) : replaceFrom pat w u.length (u ++ s) = replaceFrom pat w 0 s := by
  induction u with
  | nil => rfl
  | cons c u ih => exact ih

theorem replace_append_of_match (hp : pat ≠ []) (w s : Str) : replace pat w (pat ++ s) = w ++ replace pat w s := by
  cases pat with
  | nil => exact absurd rfl hp
  | cons p ps =>
    have hm : p :: ps <+: p :: (ps ++ s) := ⟨s,rfl⟩
    have hs : replace (p :: ps) w (p :: ps ++ s) = w ++ replaceFrom (p :: ps) w ps.length (ps ++ s) := if_pos hm
    rw [hs,replaceFrom_skip]
    rfl

theorem replace_cons_of_not_match (h : ¬ pat <+: c :: s) : replace pat w (c :: s) = c :: replace pat w s := if_neg h

theorem mem_replaceFrom {k : ℕ} (hp : pat ≠ []) (hc : c ∉ pat) (h : c ∈ s.drop k) : c ∈ replaceFrom pat w k s := by
  induction s generalizing k with
  | nil => simp at h
  | cons d s ih =>
    cases k with
    | succ k => exact ih (by simpa using h)
    | zero =>
      rw [replaceFrom]
      split
      · rename_i hm
        obtain ⟨t,ht⟩ := hm
        refine mem_append_right w (ih ?_)
        have hmem : c ∈ pat ++ t := by simpa [ht] using h
        have hrest : c ∈ t := (mem_append.1 hmem).resolve_left hc
        cases pat with
        | nil => exact absurd rfl hp
        | cons p ps =>
          cases ht
          simpa using hrest
      · rcases mem_cons.1 h with rfl | h
        · exact mem_cons_self
        · exact mem_cons_of_mem _ (ih (by simpa using h))

theorem mem_replace (hp : pat ≠ []) (hc : c ∉ pat) (h : c ∈ s) : c ∈ replace pat w s :=
  mem_replaceFrom hp hc (by simpa using h)

theorem replace_singleton (c : Char) (w s : Str) :
    replace [c] w s = s.flatMap (fun d => if d = c then w else [d]) := by
  induction s with
  | nil => rfl
  | cons d s ih =>
    rw [flatMap_cons,← ih]
    by_cases hd : d = c
    · subst hd
      rw [if_pos rfl]
      exact replace_append_of_match (by simp) w s
    · rw [if_neg hd]
      apply replace_cons_of_not_match
      rintro ⟨t,ht⟩
      exact hd (cons.inj ht).1.symm

variable {p sep : Str} {ps : List Str}

theorem not_mem_of_mem_splitOn (h : p ∈ s.splitOn c) : c ∉ p := by
  induction s generalizing p with
  | nil =>
    rw [mem_singleton.1 h]
    simp
  | cons d s ih =>
    rw [splitOn,splitOnP_cons_eq_if_modifyHead] at h
    change p ∈ (if (d == c) = true then [] :: s.splitOn c else (s.splitOn c).modifyHead (cons d)) at h
    split at h
    · rcases mem_cons.1 h with rfl | h
      · simp
      · exact ih h
    · rename_i hd
      cases hs : s.splitOn c with
      | nil =>
        rw [hs] at h
        cases h
      | cons x xs =>
        rw [hs,modifyHead_cons] at h
        rcases mem_cons.1 h with rfl | h
        · intro hm
          rcases mem_cons.1 hm with rfl | hm
          · exact hd (beq_self_eq_true _)
          · exact ih (p := x) (by rw [hs]; exact mem_cons_self) hm
        · exact ih (by rw [hs]; exact mem_cons_of_mem _ h)

theorem mem_intercalate (hp : p ∈ ps) (hc : c ∈ p) : c ∈ sep.intercalate ps := by
  induction ps with
  | nil => cases hp
  | cons q ps ih =>
    cases ps with
    | nil =>
      rw [intercalate_singleton]
      rwa [← mem_singleton.1 hp]
    | cons q' ps =>
      rw [intercalate_cons_cons]
      rcases mem_cons.1 hp with rfl | hp
      · simp [hc]
      · exact mem_append_right _ (ih hp)

theorem mem_of_mem_intercalate (h : c ∈ sep.intercalate ps) : c ∈ sep ∨ ∃ p ∈ ps, c ∈ p := by
  induction ps with
  | nil => cases h
  | cons q ps ih =>
    cases ps with
    | nil =>
      rw [intercalate_singleton] at h
      exact .inr ⟨q,mem_cons_self,h⟩
    | cons q' ps =>
      rw [intercalate_cons_cons,append_assoc,mem_append,mem_append] at h
      rcases h with h | h | h
      · exact .inr ⟨q,mem_cons_self,h⟩
      · exact .inl h
      · rcases ih h with h | ⟨p,hp,h⟩
        · exact .inl h
        · exact .inr ⟨p,mem_cons_of_mem _ hp,h⟩

theorem mem_of_mem_splitOn {d : Char} (hp : p ∈ s.splitOn c) (hd : d ∈ p) : d ∈ s := by
  have h : d ∈ [c].intercalate (s.splitOn c) := mem_intercalate hp hd
  rwa [intercalate_splitOn] at h

theorem intercalate_append (hne : ps ≠ []) (qs : List Str) :
    sep.intercalate (ps ++ qs) = sep.intercalate ps ++ qs.flatMap (sep ++ ·) := by
  induction ps with
  | nil => exact absurd rfl hne
  | cons p ps ih =>
    cases ps with
    | nil =>
      clear ih
      induction qs generalizing p with
      | nil => simp
      | cons q qs ih =>
        have hrest := ih q (by simp)
        rw [singleton_append,intercalate_singleton] at hrest ⊢
        rw [intercalate_cons_cons,hrest,flatMap_cons]
        simp
    | cons p' ps =>
      rw [cons_append, cons_append, intercalate_cons_cons, intercalate_cons_cons, ← cons_append,
        ih (by simp), append_assoc, append_assoc, append_assoc]

theorem splitOn_append_left {u t : Str} (hu : c ∉ u) (h : t.splitOn c = p :: ps) :
    (u ++ t).splitOn c = (u ++ p) :: ps := by
  have hp : ∀ q ∈ p :: ps, c ∉ q := fun q hq => not_mem_of_mem_splitOn (h ▸ hq)
  have hj : u ++ t = [c].intercalate ((u ++ p) :: ps) := by
    have hs : [c].intercalate (p :: ps) = t := h ▸ intercalate_splitOn c
    rw [← hs]
    cases ps with
    | nil => simp [intercalate]
    | cons q ps => simp only [intercalate_cons_cons,append_assoc]
  rw [hj]
  refine splitOn_intercalate c (fun q hq => ?_) (by simp)
  rcases mem_cons.1 hq with rfl | hq
  · exact fun hc => (mem_append.1 hc).elim hu (hp p mem_cons_self)
  · exact hp q (mem_cons_of_mem _ hq)

theorem splitOn_append_right {v t : Str} (hv : c ∉ v) (h : t.splitOn c = ps ++ [p]) :
    (t ++ v).splitOn c = ps ++ [p ++ v] := by
  have hp : ∀ q ∈ ps ++ [p], c ∉ q := fun q hq => not_mem_of_mem_splitOn (h ▸ hq)
  have hj : t ++ v = [c].intercalate (ps ++ [p ++ v]) := by
    have hs : [c].intercalate (ps ++ [p]) = t := h ▸ intercalate_splitOn c
    rw [← hs]
    clear h hs hp
    induction ps with
    | nil => simp [intercalate]
    | cons q ps ih =>
      cases ps with
      | nil => simp [intercalate]
      | cons r ps =>
        simp only [cons_append,intercalate_cons_cons,append_assoc] at ih ⊢
        rw [← ih]
  rw [hj]
  refine splitOn_intercalate c (fun q hq => ?_) (by simp)
  rcases mem_append.1 hq with hq | hq
  · exact hp q (mem_append_left _ hq)
  · rw [mem_singleton.1 hq]
    exact fun hc => (mem_append.1 hc).elim (hp p (by simp)) hv

structure Solid (s : Str) : Prop where
  ne : s ≠ []
  head : ∀ c, s.head? = some c → isWhitespace c = false
  last : ∀ c, s.getLast? = some c → isWhitespace c = false

theorem Solid.dropWhile_eq (h : Solid s) : s.dropWhile isWhitespace = s := by
  rw [dropWhile_eq_self_iff]
  intro hl
  rw [h.head s[0] (head?_eq_getElem? ▸ getElem?_eq_getElem hl)]
  exact Bool.false_ne_true

theorem Solid.trim_eq (h : Solid s) : trim s = s := by
  rw [trim,h.dropWhile_eq,rdropWhile_eq_self_iff]
  intro hs
  rw [h.last _ (getLast?_eq_getLast_of_ne_nil hs)]
  exact Bool.false_ne_true

theorem solid_trim (h : trim s ≠ []) : Solid (trim s) := by
  refine ⟨h,fun c hc => ?_,fun c hc => ?_⟩
  · obtain ⟨t,ht⟩ := rdropWhile_prefix isWhitespace (s.dropWhile isWhitespace)
    have hh := head?_dropWhile_not isWhitespace s
    obtain ⟨u,hu⟩ := head?_eq_some_iff.1 hc
    rw [← ht, show (s.dropWhile isWhitespace).rdropWhile isWhitespace = c :: u from hu] at hh
    exact hh
  · have hl := rdropWhile_last_not isWhitespace (s.dropWhile isWhitespace) h
    rw [getLast?_eq_getLast_of_ne_nil h] at hc
    exact Bool.eq_false_iff.2 (Option.some.inj hc ▸ hl)

theorem mem_of_mem_trim (h : c ∈ trim s) : c ∈ s :=
  (dropWhile_sublist isWhitespace).subset (( rdropWhile_prefix _ _).subset h)
theorem Solid.of_chars (hne : s ≠ []) (h : ∀ c ∈ s, isWhitespace c = false) : Solid s :=
  ⟨hne,fun c hc => h c (mem_of_head? hc),fun c hc => h c (mem_of_getLast? hc)⟩

theorem Solid.append {u v : Str} (hu : Solid u) (m : Str) (hv : Solid v) : Solid (u ++ m ++ v) := by
  refine ⟨by simp [hu.ne],fun c hc => hu.head c ?_,fun c hc => hv.last c ?_⟩
  · rwa [append_assoc, head?_append_of_ne_nil _ hu.ne] at hc
  · rwa [getLast?_append_of_ne_nil _ hv.ne] at hc

theorem Solid.intercalate (hne : ps ≠ []) (h : ∀ p ∈ ps, Solid p) : Solid (sep.intercalate ps) := by
  induction ps with
  | nil => exact absurd rfl hne
  | cons p ps ih =>
    cases ps with
    | nil => simpa using h p mem_cons_self
    | cons q ps =>
      have hrest := ih (by simp) (fun x hx => h x (mem_cons_of_mem _ hx))
      rw [intercalate_cons_cons]
      exact (h p mem_cons_self).append sep hrest

theorem le_ofDigitChars (acc : ℕ) (s : Str) : acc ≤ Nat.ofDigitChars 10 s acc := by
  induction s generalizing acc with
  | nil => exact le_rfl
  | cons c s ih =>
    have hs : acc ≤ 10 * acc + (c.toNat - '0'.toNat) := by omega
    exact hs.trans (ih _)

theorem parseDigits_of_digits {max acc : ℕ} (hs : ∀ c ∈ s, c.isDigit = true) (hm : Nat.ofDigitChars 10 s acc ≤ max) :
    parseDigits max acc s = .ok (Nat.ofDigitChars 10 s acc) := by
  induction s generalizing acc with
  | nil => rfl
  | cons c s ih =>
    have hn : Nat.ofDigitChars 10 s (10 * acc + (c.toNat - '0'.toNat)) ≤ max := hm
    rw [parseDigits, if_pos (hs c mem_cons_self), if_pos ((le_ofDigitChars _ s).trans hn),
      ih (fun d hd => hs d (mem_cons_of_mem _ hd)) hn]
    rfl

theorem parseUnsigned_toDigits {max n : ℕ} (h : n ≤ max) : parseUnsigned max (Nat.toDigits 10 n) = .ok n := by
  have hd : ∀ c ∈ Nat.toDigits 10 n, c.isDigit = true := fun c hc =>
    Nat.isDigit_of_mem_toDigits (by decide) (by decide) hc
  have hp : parseDigits max 0 (Nat.toDigits 10 n) = .ok n := by
    rw [parseDigits_of_digits hd (by rwa [Nat.ofDigitChars_ten_toDigits]), Nat.ofDigitChars_ten_toDigits]
  cases hs : Nat.toDigits 10 n with
  | nil => exact absurd hs Nat.toDigits_ne_nil
  | cons c s =>
    rw [hs] at hd hp
    rw [parseUnsigned,if_neg ?_,hp]
    rintro ⟨rfl,_⟩
    exact absurd (hd '+' mem_cons_self) (by decide)

end Padsi.Text
