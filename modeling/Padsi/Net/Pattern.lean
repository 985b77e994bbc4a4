import Padsi.Lib.Wildcard
import Padsi.Net.Address

/-! # Domain patterns

The language of a pattern is given by its tokens; the regular expression of
`Pattern::new` is shown to be the text of these tokens.
-/
namespace Padsi.Net
open Rust Text Wildcard List

def stars : Str := ['*','*']
def labelText (p : Str) : Str :=
  if p = ['*'] then "[^\\.\\*]+" else replace ['*'] "[^\\.\\*]*" p

def regexText (name : Str) : Str :=
  if contains ['*'] name then
    let q := replace stars ['§'] name
    let pat := '^' :: "\\.".toList.intercalate ((q.splitOn '.').map labelText)
    replace ['§'] ".*" pat ++ ['$']
  else replace ['.'] "\\." name

structure Pattern (E : Externals) where
  pattern : Str
  regex : Str → Bool
  dotted : pattern.getLast? = some '.'
  stars_lead : contains stars pattern = true → startsWith stars pattern = true
  compiled : E.compile (regexText pattern) = some regex

namespace Pattern
variable {E : Externals}

def new (E : Externals) (name : Str) : Except DomainError (Pattern E) :=
  if hd : name.getLast? = some '.' then
    if hs : contains stars name = true ∧ ¬ startsWith stars name = true then .error .starsInside
    else
      match hc : E.compile (regexText name) with
      | none => .error .regex
      | some r => .ok ⟨name,r,hd,fun h => not_not.1 fun hn => hs ⟨h,hn⟩,hc⟩
  else .error .noFinalDot

theorem eq_of_pattern {P Q : Pattern E} (h : P.pattern = Q.pattern) : P = Q := by
  obtain ⟨p,r,_,_,hr⟩ := P
  obtain ⟨q,r',_,_,hr'⟩ := Q
  cases h
  rw [hr] at hr'
  cases hr'
  rfl

/-- `==` on patterns compares their texts. -/
instance : DecidableEq (Pattern E) := fun P Q =>
  decidable_of_iff (P.pattern = Q.pattern) ⟨eq_of_pattern,congrArg Pattern.pattern⟩

/-- The patterns of the model are the ones that `Pattern::new` returns. -/
theorem new_eq_ok {s : Str} {P : Pattern E} : new E s = .ok P ↔ P.pattern = s := by
  unfold new
  constructor
  · intro h
    split at h
    · split at h
      · cases h
      · split at h
        · cases h
        · cases h
          rfl
    · cases h
  · rintro rfl
    rw [dif_pos P.dotted, dif_neg (fun h => h.2 (P.stars_lead h.1))]
    split
    · rename_i hc
      rw [P.compiled] at hc
      cases hc
    · exact congrArg Except.ok (eq_of_pattern rfl)

/-- `name_contains`: `&other[1..]` panics inside a character of several bytes. -/
def nameContains (P : Pattern E) (other : Str) : Partial Bool :=
  if Text.contains ['*'] other then
    if Text.contains ['*'] P.pattern then
      if Text.contains stars other then
        if startsWith stars P.pattern then
          match other with
          | [] => .error .sliceIndex
          | c :: rest => if c.utf8Size = 1 then nameContains P rest else .error .charBoundary
        else .ok false
      else .ok (P.regex (replace ['*'] "abc" other))
    else .ok false
  else if Text.contains ['*'] P.pattern then .ok (P.regex other)
  else .ok (decide (other = P.pattern))

def contains (P : Pattern E) (what : Str) : Partial Bool := P.nameContains what

end Pattern

def tokens : Bool → Str → List (Tok Char)
  | _, [] => []
  | _, '*' :: '*' :: s => .any :: tokens false s
  | b, '*' :: s => (if b && (s.isEmpty || s.head? == some '.') then .plus else .star) :: tokens false s
  | _, c :: s => .lit c :: tokens (c == '.') s

def language : Classes Char := ⟨fun c => decide (c ≠ '.'),fun _ => true⟩

def Pattern.Matches {E : Externals} (P : Pattern E) (n : Str) : Prop :=
  accepts language (tokens true P.pattern) n = true

def regexClasses : Classes Char := ⟨fun c => decide (c ≠ '.' ∧ c ≠ '*'),fun c => decide (c ≠ '\n')⟩

def tokenText : Tok Char → Str
  | .lit c => if c = '.' then "\\." else [c]
  | .star => "[^\\.\\*]*"
  | .plus => "[^\\.\\*]+"
  | .any => ".*"

def tokensText (ts : List (Tok Char)) : Str := ts.flatMap tokenText

def labelChar (c : Char) : Bool :=
  c.isAlphanum || c == '-' || c == '_' || (decide (128 ≤ c.toNat) && c != '§')

def Plain (s : Str) : Prop := ∀ c ∈ s, labelChar c = true ∨ c = '.' ∨ c = '*'

instance (s : Str) : Decidable (Plain s) := decidableBAll _ s

/-- The documented meaning of label characters, escaped dots and the three wildcards between anchors. -/
def LawfulRegex (E : Externals) : Prop :=
  ∀ ts : List (Tok Char), (∀ c, Tok.lit c ∈ ts → labelChar c = true ∨ c = '.') → ∀ r,
    E.compile ('^' :: tokensText ts ++ ['$']) = some r → ∀ s, r s = accepts regexClasses ts s

/-- The tokens of the text in which `§` is written for each `**` are those of the pattern. -/
def markedTokens : Bool → Str → List (Tok Char)
  | _, [] => []
  | b, c :: s =>
    if c = '§' then .any :: markedTokens false s
    else if c = '*' then
      (if b && (s.isEmpty || s.head? == some '.') then .plus else .star) :: markedTokens false s
    else .lit c :: markedTokens (c == '.') s

theorem replace_stars_cons {c : Char} (s : Str) (h : c = '*' → s.head? ≠ some '*') :
    replace stars ['§'] (c :: s) = c :: replace stars ['§'] s := by
  apply replace_cons_of_not_match
  rintro ⟨t,ht⟩
  cases ht
  exact h rfl rfl

theorem tokens_eq_markedTokens (b : Bool) {s : Str} (hs : '§' ∉ s) :
    tokens b s = markedTokens b (replace stars ['§'] s) := by
  fun_induction tokens b s with
  | case1 b => rfl
  | case2 b s ih =>
    have hr : replace stars ['§'] ('*' :: '*' :: s) = '§' :: replace stars ['§'] s :=
      replace_append_of_match (by decide) _ s
    rw [ih (fun h => hs (by simp [h])), hr]
    rfl
  | case3 b s hnot ih =>
    have hh : s.head? ≠ some '*' := by
      intro h
      obtain ⟨t,rfl⟩ := head?_eq_some_iff.1 h
      exact hnot t rfl
    rw [ih (fun h => hs (by simp [h])), replace_stars_cons s (fun _ => hh)]
    -- the first character of the rest stays in place
    have hrest : (replace stars ['§'] s).isEmpty = s.isEmpty ∧ (replace stars ['§'] s).head? = s.head? := by
      cases s with
      | nil => exact ⟨rfl,rfl⟩
      | cons d s =>
        rw [replace_stars_cons s (fun hd => absurd (congrArg some hd) hh)]
        exact ⟨rfl,rfl⟩
    simp only [markedTokens,hrest.1,hrest.2,reduceIte]
    rfl
  | case4 b c s _ hc ih =>
    have hm : c ≠ '§' := fun h => hs (by simp [h])
    have hst : c ≠ '*' := fun h => hc h
    rw [ih (fun h => hs (by simp [h])), replace_stars_cons s (fun h => absurd h hst)]
    simp only [markedTokens,if_neg hm,if_neg hst]

def unmark (s : Str) : Str := replace ['§'] ".*" s
theorem unmark_append (u v : Str) : unmark (u ++ v) = unmark u ++ unmark v := by
  simp only [unmark,replace_singleton,flatMap_append]
def labelToken (c : Char) : Tok Char := if c = '§' then .any else if c = '*' then .star else .lit c

theorem markedTokens_append_label {l t : Str} (hl : '.' ∉ l) :
    markedTokens false (l ++ t) = l.map labelToken ++ markedTokens false t := by
  induction l with
  | nil => rfl
  | cons c l ih =>
    have hrest := ih (fun h => hl (mem_cons_of_mem _ h))
    have hd : (c == '.') = false := beq_eq_false_iff_ne.2 (fun h => hl (by simp [h]))
    simp only [cons_append,map_cons,markedTokens,labelToken,hrest,hd,Bool.false_and]
    split
    · rfl
    · split <;> rfl

theorem unmark_replace_star {l : Str} (hl : '.' ∉ l) :
    unmark (replace ['*'] "[^\\.\\*]*" l) = tokensText (l.map labelToken) := by
  induction l with
  | nil => rfl
  | cons c l ih =>
    have hrest := ih (fun h => hl (mem_cons_of_mem _ h))
    rw [replace_singleton,flatMap_cons,unmark_append,← replace_singleton,hrest,map_cons]
    have hd : c ≠ '.' := fun h => hl (by simp [h])
    have hc : unmark (if c = '*' then "[^\\.\\*]*" else [c]) = tokenText (labelToken c) := by
      by_cases hs : c = '*'
      · subst hs
        rfl
      · by_cases hm : c = '§'
        · subst hm
          rfl
        · have ht : labelToken c = .lit c := (if_neg hm).trans (if_neg hs)
          have hte : tokenText (.lit c) = [c] := if_neg hd
          have hk : unmark [c] = [c] := by
            rw [unmark,replace_singleton,flatMap_singleton,if_neg hm]
          rw [if_neg hs,ht,hte,hk]
    rw [hc]
    rfl

theorem markedTokens_flag {t : Str} (ht : t = [] ∨ ∃ t', t = '.' :: t') (b : Bool) :
    markedTokens b t = markedTokens false t := by
  rcases ht with rfl | ⟨t',rfl⟩ <;> rfl

theorem tokensText_append (ts us : List (Tok Char)) : tokensText (ts ++ us) = tokensText ts ++ tokensText us :=
  flatMap_append

theorem unmark_labelText {l t : Str} (hl : '.' ∉ l) (ht : t = [] ∨ ∃ t', t = '.' :: t') :
    unmark (labelText l) ++ tokensText (markedTokens false t) = tokensText (markedTokens true (l ++ t)) := by
  have hf : l ≠ ['*'] → markedTokens true (l ++ t) = markedTokens false (l ++ t) := by
    intro hne
    cases l with
    | nil => exact markedTokens_flag ht true
    | cons c l =>
      have hi : c = '*' → ((l ++ t).isEmpty || (l ++ t).head? == some '.') = false := by
        rintro rfl
        cases l with
        | nil => exact absurd rfl hne
        | cons d l => simpa using fun h : d = '.' => hl (by simp [h])
      simp only [cons_append,markedTokens,Bool.true_and,Bool.false_and]
      split
      · rfl
      · split
        · rename_i hc
          rw [hi hc]
        · rfl
  by_cases hs : l = ['*']
  · subst hs
    have hp : markedTokens true (['*'] ++ t) = .plus :: markedTokens false t := by
      rcases ht with rfl | ⟨t',rfl⟩ <;> rfl
    rw [hp]
    have hla : unmark (labelText ['*']) = tokenText .plus := by decide
    rw [hla]
    rfl
  · rw [hf hs,markedTokens_append_label hl,tokensText_append,labelText,if_neg hs,unmark_replace_star hl]

theorem unmark_join {ls : List Str} (hne : ls ≠ []) (hls : ∀ l ∈ ls, '.' ∉ l) :
    unmark ("\\.".toList.intercalate (ls.map labelText)) = tokensText (markedTokens true (['.'].intercalate ls)) := by
  induction ls with
  | nil => exact absurd rfl hne
  | cons l ls ih =>
    have hl := hls l mem_cons_self
    cases ls with
    | nil =>
      have hla := unmark_labelText (t := []) hl (Or.inl rfl)
      simpa [intercalate,markedTokens,tokensText] using hla
    | cons l' ls =>
      have hrest := ih (by simp) (fun x hx => hls x (mem_cons_of_mem _ hx))
      have hla := unmark_labelText (t := '.' :: ['.'].intercalate (l' :: ls)) hl (Or.inr ⟨_,rfl⟩)
      have hd : markedTokens false ('.' :: ['.'].intercalate (l' :: ls)) =
          .lit '.' :: markedTokens true (['.'].intercalate (l' :: ls)) := rfl
      rw [hd] at hla
      rw [map_cons,map_cons,intercalate_cons_cons,intercalate_cons_cons,unmark_append,
        unmark_append,← map_cons,hrest,append_assoc,append_assoc,singleton_append,← hla]
      rfl

theorem regexText_eq {s : Str} (hs : '*' ∈ s) (hm : '§' ∉ s) :
    regexText s = '^' :: tokensText (tokens true s) ++ ['$'] := by
  have hj := unmark_join (splitOn_ne_nil '.' (replace stars ['§'] s)) (fun _ h => not_mem_of_mem_splitOn h)
  rw [intercalate_splitOn,← tokens_eq_markedTokens true hm] at hj
  have ha : ∀ u : Str, replace ['§'] ".*" ('^' :: u) = '^' :: unmark u := by
    intro u
    apply replace_cons_of_not_match
    rintro ⟨t,ht⟩
    cases ht
  rw [regexText,if_pos (contains_singleton.2 hs)]
  change replace ['§'] ".*" ('^' :: _) ++ ['$'] = _
  rw [ha,hj]

end Padsi.Net
