import Padsi.Net.Reference

/-! # Inclusion of patterns

The test replaces every `*` of the other pattern by `abc`. It is sound exactly when a
character that no pattern names could stand for `abc`.
-/
namespace Padsi.Net
open Rust Text Wildcard Except

variable {c : Char} {s : Str} {b : Bool}

theorem tokens_cons_of_ne (hc : c ≠ '*') (b : Bool) (s : Str) :
    tokens b (c :: s) = .lit c :: tokens (c == '.') s := by
  rw [tokens]
  · intro s h
    cases h
    exact absurd rfl hc
  · intro h
    exact absurd h hc

theorem tokens_star (b : Bool) (hs : s.head? ≠ some '*') :
    tokens b ('*' :: s) =
      (if b && (s.isEmpty || s.head? == some '.') then .plus else .star) :: tokens false s := by
  rw [tokens]
  intro t ht
  exact hs (by rw [ht]; rfl)

theorem contains_stars_cons :
    contains stars (c :: s) = true ↔ (c = '*' ∧ s.head? = some '*') ∨ contains stars s = true := by
  rw [contains_cons]
  apply or_congr_left
  rw [startsWith_iff,stars,List.cons_prefix_cons]
  constructor
  · rintro ⟨rfl,t,rfl⟩
    exact ⟨rfl,rfl⟩
  · rintro ⟨rfl,h⟩
    obtain ⟨t,rfl⟩ := List.head?_eq_some_iff.1 h
    exact ⟨rfl,t,rfl⟩

theorem starless_tail (h : contains stars (c :: s) = false) : contains stars s = false :=
  Bool.eq_false_iff.2 fun hs => Bool.eq_false_iff.1 h (contains_stars_cons.2 (.inr hs))
theorem starless_head (h : contains stars ('*' :: s) = false) : s.head? ≠ some '*' :=
  fun hs => Bool.eq_false_iff.1 h (contains_stars_cons.2 (.inl ⟨rfl,hs⟩))

theorem star_mem_of_stars (h : contains stars (c :: s) = true) : '*' ∈ s := by
  rcases contains_stars_cons.1 h with h | h
  · obtain ⟨t,rfl⟩ := List.head?_eq_some_iff.1 h.2
    exact List.mem_cons_self
  · exact (contains_iff.1 h).subset List.mem_cons_self

theorem mem_of_lit_mem_tokens (h : Tok.lit c ∈ tokens b s) : c ∈ s ∧ c ≠ '*' := by
  fun_induction tokens b s with
  | case1 b => cases h
  | case2 b s ih =>
    have hrest : Tok.lit c ∈ tokens false s := by simpa using h
    exact ⟨by simp [(ih hrest).1],(ih hrest).2⟩
  | case3 b s hnot ih =>
    have hrest : Tok.lit c ∈ tokens false s := by
      rcases List.mem_cons.1 h with h | h
      · split at h <;> cases h
      · exact h
    exact ⟨by simp [(ih hrest).1],(ih hrest).2⟩
  | case4 b d s _ hd ih =>
    rcases List.mem_cons.1 h with h | h
    · cases h
      exact ⟨List.mem_cons_self,hd⟩
    · exact ⟨List.mem_cons_of_mem _ (ih h).1,(ih h).2⟩

theorem guarded_tokens (hs : s.getLast? ≠ some '*') : Guarded '.' b (tokens b s) := by
  have hl : ∀ {c : Char} {s : Str}, (c :: s).getLast? ≠ some '*' → s.getLast? ≠ some '*' := by
    intro c s h hs
    rw [List.getLast?_cons,hs] at h
    exact h rfl
  fun_induction tokens b s with
  | case1 b => trivial
  | case2 b s ih => exact ih (hl (hl hs))
  | case3 b s hnot ih =>
    have hrest := ih (hl hs)
    split
    · rename_i hw
      obtain ⟨hb,he⟩ := Bool.and_eq_true_iff.1 hw
      refine ⟨hb,?_,hrest⟩
      cases s with
      | nil => exact absurd rfl hs
      | cons d s =>
        have hd : d = '.' := by simpa using he
        subst hd
        exact ⟨_,tokens_cons_of_ne (by decide) false s⟩
    · exact hrest
  | case4 b d s _ hd ih =>
    have hrest := ih (hl hs)
    change Guarded '.' (decide (d = '.')) _
    rwa [← beq_eq_decide]

theorem subst_tokens (w : Str) (hs : contains stars s = false) :
    (tokens b s).flatMap (subst w) = replace ['*'] w s := by
  rw [replace_singleton]
  fun_induction tokens b s with
  | case1 b => rfl
  | case2 b s ih =>
    rw [contains_stars_cons.2 (.inl ⟨rfl,rfl⟩)] at hs
    cases hs
  | case3 b s hnot ih =>
    have hrest := ih (starless_tail hs)
    rw [List.flatMap_cons,hrest,List.flatMap_cons,if_pos rfl]
    split <;> rfl
  | case4 b d s _ hd ih =>
    have hrest := ih (starless_tail hs)
    rw [List.flatMap_cons,hrest,List.flatMap_cons,if_neg hd]
    rfl

theorem narrow_tokens (hs : contains stars s = false) : Narrow (tokens b s) := by
  fun_induction tokens b s with
  | case1 b => exact List.not_mem_nil
  | case2 b s ih =>
    rw [contains_stars_cons.2 (.inl ⟨rfl,rfl⟩)] at hs
    cases hs
  | case3 b s hnot ih =>
    have hrest := ih (starless_tail hs)
    intro h
    rcases List.mem_cons.1 h with h | h
    · split at h <;> cases h
    · exact hrest h
  | case4 b d s _ hd ih =>
    have hrest := ih (starless_tail hs)
    intro h
    rcases List.mem_cons.1 h with h | h
    · cases h
    · exact hrest h

theorem noBare_tokens {l : Label} (hs : contains stars s = false) (hb : b = true ↔ l = .start)
    (hl : l = .stars → s.head? ≠ some '.' ∧ s.head? ≠ some '*') : NoBare '.' l (tokens b s) := by
  fun_induction tokens b s generalizing l with
  | case1 b => rfl
  | case2 b s ih =>
    rw [contains_stars_cons.2 (.inl ⟨rfl,rfl⟩)] at hs
    cases hs
  | case3 b s hnot ih =>
    have hrest := starless_tail hs
    have hne : l ≠ .stars := fun h => (hl h).2 rfl
    split
    · exact ih (l := .solid) hrest (by decide) (by simp)
    · rename_i hi
      cases l with
      | stars => exact absurd rfl hne
      | solid => exact ih (l := .solid) hrest (by decide) (by simp)
      | start =>
        apply ih (l := .stars) hrest (by decide)
        rw [hb.2 rfl,Bool.true_and,Bool.or_eq_true,not_or,beq_iff_eq] at hi
        exact fun _ => ⟨hi.2,starless_head hs⟩
  | case4 b d s _ hd ih =>
    have hrest := starless_tail hs
    by_cases hdo : d = '.'
    · subst hdo
      have hne : l ≠ .stars := fun h => (hl h).1 rfl
      have hn := ih (l := .start) hrest (by decide) (by simp)
      simpa [NoBare,labelStep,hne] using hn
    · have hn := ih (l := .solid) hrest (by simp [hdo]) (by simp)
      simpa [NoBare,labelStep,hdo] using hn

theorem tokens_of_starless (hs : '*' ∉ s) : tokens b s = s.map .lit := by
  induction s generalizing b with
  | nil => rfl
  | cons c s ih =>
    rw [tokens_cons_of_ne (fun h => hs (by simp [h])), ih (fun h => hs (List.mem_cons_of_mem _ h))]
    rfl

theorem accepts_of_starless {n : Str} {C : Classes Char} (hs : '*' ∉ s) :
    accepts C (tokens b s) n = true ↔ n = s := by
  rw [tokens_of_starless hs]
  clear hs
  induction s generalizing n with
  | nil => exact accepts_nil
  | cons c s ih =>
    cases n with
    | nil => simp [accepts]
    | cons d n => simp [accepts,ih]

def tested : Str → Str
  | [] => []
  | c :: s => if contains stars (c :: s) then tested s else c :: s

theorem tested_of_starless (hs : contains stars s = false) : tested s = s := by
  cases s with
  | nil => rfl
  | cons c s => exact if_neg (Bool.eq_false_iff.1 hs)

theorem tested_cons (hs : contains stars (c :: s) = true) : tested (c :: s) = tested s := if_pos hs

/-- The tested text starts with the last `*` of the last `**`, and its other tokens are a suffix of
those of the whole. -/
theorem tokens_tested (b : Bool) (hs : contains stars s = true) :
    ∃ T t, tokens b s = T ++ tokens false t ∧ tested s = '*' :: t ∧ contains stars ('*' :: t) = false := by
  fun_induction tokens b s with
  | case1 b => cases hs
  | case2 b s ih =>
    rw [tested_cons hs]
    cases h1 : contains stars ('*' :: s) with
    | false => exact ⟨[.any],s,rfl,tested_of_starless h1,h1⟩
    | true =>
      rw [tested_cons h1]
      cases h2 : contains stars s with
      | true =>
        obtain ⟨T,t,hT,ht,hnone⟩ := ih h2
        exact ⟨.any :: T,t,by rw [hT]; rfl,ht,hnone⟩
      | false =>
        -- an odd run of stars: the last one is left after the pairs
        have hh : s.head? = some '*' := by
          rcases contains_stars_cons.1 h1 with h | h
          · exact h.2
          · rw [h2] at h
            cases h
        obtain ⟨t,rfl⟩ := List.head?_eq_some_iff.1 hh
        refine ⟨[.any,.star],t,?_,tested_of_starless h2,h2⟩
        rw [tokens_star false (starless_head h2)]
        rfl
  | case3 b s hnot ih =>
    have hrest : contains stars s = true := by
      rcases contains_stars_cons.1 hs with h | h
      · obtain ⟨t,rfl⟩ := List.head?_eq_some_iff.1 h.2
        exact absurd rfl (hnot t)
      · exact h
    obtain ⟨T,t,hT,ht,hnone⟩ := ih hrest
    rw [tested_cons hs,hT]
    exact ⟨_ :: T,t,rfl,ht,hnone⟩
  | case4 b d s _ hd ih =>
    have hrest : contains stars s = true := by
      rcases contains_stars_cons.1 hs with h | h
      · exact absurd h.1 hd
      · exact h
    obtain ⟨T,t,hT,ht,hnone⟩ := ih hrest
    rw [tested_cons hs,hT]
    exact ⟨_ :: T,t,rfl,ht,hnone⟩

theorem subst_tested (w : Str) (hs : contains stars s.tail = false) :
    (tokens b s).flatMap (subst w) = replace ['*'] w (tested s) := by
  cases hst : contains stars s with
  | false => rw [tested_of_starless hst,subst_tokens w hst]
  | true =>
    cases s with
    | nil => cases hst
    | cons c s =>
      rcases contains_stars_cons.1 hst with ⟨rfl,hh⟩ | h
      · obtain ⟨t,rfl⟩ := List.head?_eq_some_iff.1 hh
        have ht : contains stars ('*' :: t) = false := hs
        rw [tested_cons hst,tested_of_starless ht,replace_singleton,List.flatMap_cons,if_pos rfl,
          ← replace_singleton,← subst_tokens (b := false) w (starless_tail ht)]
        rfl
      · rw [List.tail_cons,h] at hs
        cases hs

theorem tested_dotted (hs : s.getLast? = some '.') : (tested s).getLast? = some '.' := by
  induction s with
  | nil => exact hs
  | cons c s ih =>
    cases h : contains stars (c :: s) with
    | false => rwa [tested_of_starless h]
    | true =>
      rw [tested_cons h]
      cases s with
      | nil =>
        rcases contains_stars_cons.1 h with h | h
        · cases h.2
        · cases h
      | cons d s => exact ih (by rwa [List.getLast?_cons_cons] at hs)

theorem star_mem_tested (hs : '*' ∈ s) : '*' ∈ tested s := by
  cases h : contains stars s with
  | false => rwa [tested_of_starless h]
  | true =>
    obtain ⟨_,t,_,ht,_⟩ := tokens_tested false h
    rw [ht]
    exact List.mem_cons_self

theorem replace_star_dotted {w : Str} (hs : s.getLast? = some '.') : (replace ['*'] w s).getLast? = some '.' := by
  obtain ⟨u,rfl⟩ := List.getLast?_eq_some_iff.1 hs
  simp [replace_singleton]

theorem mem_of_mem_replace_star {w : Str} (h : c ∈ replace ['*'] w s) : c ∈ w ∨ (c ∈ s ∧ c ≠ '*') := by
  rw [replace_singleton] at h
  obtain ⟨d,hd,hc⟩ := List.mem_flatMap.1 h
  split at hc
  · exact .inl hc
  · rename_i hne
    rw [List.mem_singleton.1 hc]
    exact .inr ⟨hd,hne⟩

theorem mem_replace_star {w : Str} (hs : '*' ∈ s) (hc : c ∈ w) : c ∈ replace ['*'] w s := by
  rw [replace_singleton]
  exact List.mem_flatMap.2 ⟨'*',hs,by simpa using hc⟩

theorem mem_of_mem_tested (h : c ∈ tested s) : c ∈ s := by
  induction s with
  | nil => exact h
  | cons d s ih =>
    cases hs : contains stars (d :: s) with
    | false => rwa [tested_of_starless hs] at h
    | true =>
      rw [tested_cons hs] at h
      exact List.mem_cons_of_mem _ (ih h)

def probeName (w : Str) (hw : '*' ∉ w) (q : Str) (hq : q.getLast? = some '.') : Name where
  text := replace ['*'] w (tested q)
  dotted := replace_star_dotted (tested_dotted hq)
  starless := fun h => (mem_of_mem_replace_star h).elim hw (fun h => h.2 rfl)

namespace Pattern
variable {E : Externals} {P Q : Pattern E}

def probe (P : Pattern E) (w q : Str) : Bool := P.regex (replace ['*'] w (tested q))

theorem regex_eq (hE : LawfulRegex E) (hP : Plain P.pattern) (hs : '*' ∈ P.pattern) (s : Str) :
    P.regex s = accepts regexClasses (tokens true P.pattern) s := by
  have hm : '§' ∉ P.pattern := fun h => absurd (hP _ h) (by decide)
  apply hE
  · intro c hc
    obtain ⟨hmem,hne⟩ := mem_of_lit_mem_tokens hc
    rcases hP c hmem with h | h | h
    · exact .inl h
    · exact .inr h
    · exact absurd h hne
  · rw [← regexText_eq hs hm]
    exact P.compiled

theorem matches_of_regex (hE : LawfulRegex E) (hP : Plain P.pattern) (hs : '*' ∈ P.pattern) {s : Str}
    (h : P.regex s = true) : P.Matches s := by
  rw [regex_eq hE hP hs] at h
  refine accepts_of_classes h (fun c _ hc => ?_) (fun _ _ _ => rfl)
  simp only [regexClasses,decide_eq_true_eq] at hc
  simpa [language] using hc.1

/-- The expression and the language agree on texts without `*` and line feeds. -/
theorem regex_of_matches (hE : LawfulRegex E) (hP : Plain P.pattern) (hst : '*' ∈ P.pattern) {s : Str}
    (hs : ∀ c ∈ s, c ≠ '*' ∧ c ≠ '\n') (h : P.Matches s) : P.regex s = true := by
  rw [regex_eq hE hP hst]
  refine accepts_of_classes h (fun c hc hi => ?_) (fun c hc _ => ?_)
  · simp only [language,decide_eq_true_eq] at hi
    simpa [regexClasses] using ⟨hi,(hs c hc).1⟩
  · simpa [regexClasses] using (hs c hc).2

theorem tokens_of_lead {s : Str} (h : startsWith stars s = true) : ∃ ts, tokens true s = .any :: ts := by
  obtain ⟨t,rfl⟩ := startsWith_iff.1 h
  exact ⟨tokens false t,rfl⟩

variable {q : Str}

/-- A pattern that matches the tested text with `!` for each `*` matches every name of the other. -/
theorem matches_of_probe (hE : LawfulRegex E) (hP : Plain P.pattern) (hs : '*' ∈ P.pattern) {n : Str}
    (hl : Text.contains stars q = true → startsWith stars P.pattern = true) (hp : P.probe ['!'] q = true)
    (hn : accepts language (tokens true q) n = true) : P.Matches n := by
  have hf : Tok.lit '!' ∉ tokens true P.pattern := fun h =>
    absurd (hP _ (mem_of_lit_mem_tokens h).1) (by decide)
  have hg : Guarded '.' true (tokens true P.pattern) := guarded_tokens (by rw [P.dotted]; decide)
  have hm : accepts language (tokens true P.pattern) (replace ['*'] ['!'] (tested q)) = true :=
    matches_of_regex hE hP hs hp
  cases hq : Text.contains stars q with
  | false =>
    rw [tested_of_starless hq,← subst_tokens (b := true) _ hq,flatMap_subst_singleton] at hm
    exact accepts_of_fresh (by decide) (by decide) (fun _ _ => rfl) hg hf (narrow_tokens hq)
      (noBare_tokens (l := .start) hq (by decide) nofun) (fun _ => rfl) hm hn
  | true =>
    obtain ⟨T,t,hT,ht,hnone⟩ := tokens_tested true hq
    rw [hT] at hn
    obtain ⟨u,v,rfl,_,hv⟩ := accepts_append.1 hn
    obtain ⟨ts,hts⟩ := tokens_of_lead (hl hq)
    have hrest := starless_tail hnone
    rw [ht,replace_singleton,List.flatMap_cons,if_pos rfl,← replace_singleton,
      ← subst_tokens (b := false) _ hrest,flatMap_subst_singleton,List.singleton_append] at hm
    unfold Matches
    rw [hts] at hm hg hf ⊢
    -- the leading `**` absorbs what comes before the tested text
    have hd : accepts language (.any :: ts) _ = true := accepts_drop_fresh (f := '!') (P := .any :: ts) hg hf hm
    have hsu := accepts_of_fresh (f := '!') (b := false) (l := .solid) (P := .any :: ts) (by decide) (by decide)
      (fun _ _ => rfl) hg hf (narrow_tokens hrest) (noBare_tokens hrest (by decide) nofun) nofun hd hv
    exact accepts_any_append hsu (fun _ _ => rfl)

theorem nameContains_of_name (hq : '*' ∉ q) :
    P.nameContains q = if '*' ∈ P.pattern then .ok (P.regex q) else .ok (decide (q = P.pattern)) := by
  unfold nameContains
  rw [if_neg (mt contains_singleton.1 hq)]
  simp only [contains_singleton]

theorem nameContains_of_wild (hP : '*' ∈ P.pattern) (hq : '*' ∈ q) (hs : Text.contains stars q = false) :
    P.nameContains q = .ok (P.probe "abc" q) := by
  unfold nameContains
  rw [if_pos (contains_singleton.2 hq),if_pos (contains_singleton.2 hP),if_neg (Bool.eq_false_iff.1 hs),
    probe,tested_of_starless hs]

theorem nameContains_strip {c : Char} (hP : '*' ∈ P.pattern) (hl : startsWith stars P.pattern = true)
    (hs : Text.contains stars (c :: q) = true) :
    P.nameContains (c :: q) = if c.utf8Size = 1 then P.nameContains q else .error .charBoundary := by
  have hq : '*' ∈ c :: q := (contains_iff.1 hs).subset List.mem_cons_self
  rw [nameContains,if_pos (contains_singleton.2 hq),if_pos (contains_singleton.2 hP),if_pos hs,if_pos hl]

theorem nameContains_of_short (hq : '*' ∈ q)
    (h : '*' ∉ P.pattern ∨ (Text.contains stars q = true ∧ startsWith stars P.pattern = false)) :
    P.nameContains q = .ok false := by
  unfold nameContains
  rw [if_pos (contains_singleton.2 hq)]
  rcases h with hP | ⟨hs,hl⟩
  · rw [if_neg (mt contains_singleton.1 hP)]
  · rw [if_pos hs,if_neg (Bool.eq_false_iff.1 hl),ite_self]

theorem nameContains_cases (hq : '*' ∈ q) (h : P.nameContains q = .ok true) :
    '*' ∈ P.pattern ∧ (Text.contains stars q = true → startsWith stars P.pattern = true) ∧
      P.probe "abc" q = true := by
  by_cases hP : '*' ∈ P.pattern
  · refine ⟨hP,?_⟩
    induction q with
    | nil => cases hq
    | cons c q ih =>
      cases hs : Text.contains stars (c :: q) with
      | false =>
        rw [nameContains_of_wild hP hq hs] at h
        exact ⟨nofun,ok.inj h⟩
      | true =>
        cases hl : startsWith stars P.pattern with
        | false =>
          rw [nameContains_of_short hq (.inr ⟨hs,hl⟩)] at h
          cases h
        | true =>
          rw [nameContains_strip hP hl hs] at h
          split at h
          · rw [probe,tested_cons hs]
            exact ⟨fun _ => rfl,(ih (star_mem_of_stars hs) h).2⟩
          · cases h
  · rw [nameContains_of_short hq (.inl hP)] at h
    cases h

def sliceable : Str → Bool
  | [] => true
  | c :: s => !Text.contains stars (c :: s) || (c.utf8Size == 1 && sliceable s)

theorem returns_nameContains (h : sliceable q = true) : Returns (P.nameContains q) := by
  by_cases hq : '*' ∈ q
  · by_cases hP : '*' ∈ P.pattern
    · induction q with
      | nil => cases hq
      | cons c q ih =>
        cases hs : Text.contains stars (c :: q) with
        | false => exact ⟨_,nameContains_of_wild hP hq hs⟩
        | true =>
          cases hl : startsWith stars P.pattern with
          | false => exact ⟨_,nameContains_of_short hq (.inr ⟨hs,hl⟩)⟩
          | true =>
            rw [sliceable,hs,Bool.not_true,Bool.false_or,Bool.and_eq_true,beq_iff_eq] at h
            rw [nameContains_strip hP hl hs,if_pos h.1]
            exact ih h.2 (star_mem_of_stars hs)
    · exact ⟨_,nameContains_of_short hq (.inl hP)⟩
  · rw [nameContains_of_name hq]
    split <;> exact ⟨_,rfl⟩

def Included (Q P : Pattern E) : Prop := ∀ n : Name, Q.Matches n.text → P.Matches n.text

/-- The test also succeeds with `!`, which no pattern of label characters names. -/
def Covers (P : Pattern E) (q : Str) : Prop := '*' ∈ q → P.probe ['!'] q = true

def StarsLead (s : Str) : Prop := Text.contains stars s.tail = false
instance (s : Str) : Decidable (StarsLead s) := inferInstanceAs (Decidable (_ = _))

theorem matches_probeName {w : Str} (hw : '*' ∉ w) (hne : w ≠ []) (hd : '.' ∉ w) (hQ : StarsLead Q.pattern) :
    Q.Matches (probeName w hw Q.pattern Q.dotted).text := by
  change accepts language (tokens true Q.pattern) (replace ['*'] w (tested Q.pattern)) = true
  rw [← subst_tested (b := true) w hQ]
  refine accepts_subst hne (fun c hc => ?_) (fun _ _ => rfl) _
  have hcd : c ≠ '.' := fun h => hd (h ▸ hc)
  simpa [language] using hcd

theorem plain_probeName {w : Str} (hw : '*' ∉ w) (hl : '\n' ∉ w) (hQ : Plain Q.pattern) :
    ∀ c ∈ (probeName w hw Q.pattern Q.dotted).text, c ≠ '*' ∧ c ≠ '\n' := by
  intro c hc
  rcases mem_of_mem_replace_star hc with h | ⟨h,hs⟩
  · exact ⟨fun e => hw (e ▸ h),fun e => hl (e ▸ h)⟩
  · refine ⟨hs,?_⟩
    rintro rfl
    exact absurd (hQ _ (mem_of_mem_tested h)) (by decide)

theorem probe_of_included (hE : LawfulRegex E) (hP : Plain P.pattern) (hQ : Plain Q.pattern) (hl : StarsLead Q.pattern)
    (hs : '*' ∈ P.pattern) (h : Q.Included P) {w : Str} (hw : '*' ∉ w) (hne : w ≠ []) (hd : '.' ∉ w)
    (hli : '\n' ∉ w) : P.probe w Q.pattern = true :=
  regex_of_matches hE hP hs (plain_probeName hw hli hQ) (h _ (matches_probeName hw hne hd hl))

theorem matches_of_contains_name (hE : LawfulRegex E) (hP : Plain P.pattern) (hq : '*' ∉ q)
    (h : P.contains q = .ok true) : P.Matches q := by
  have ht : P.nameContains q = .ok true := h
  rw [nameContains_of_name hq] at ht
  split at ht
  · rename_i hs
    exact matches_of_regex hE hP hs (ok.inj ht)
  · rename_i hs
    rw [Matches,accepts_of_starless hs]
    exact of_decide_eq_true (ok.inj ht)

theorem included_of_covers (hE : LawfulRegex E) (hP : Plain P.pattern) (h : P.contains Q.pattern = .ok true)
    (hc : P.Covers Q.pattern) : Q.Included P := by
  intro n hn
  by_cases hq : '*' ∈ Q.pattern
  · obtain ⟨hs,hl,_⟩ := nameContains_cases hq h
    exact matches_of_probe hE hP hs hl (hc hq) hn
  · rw [(accepts_of_starless hq).1 hn]
    exact matches_of_contains_name hE hP hq h

theorem covers_of_included (hE : LawfulRegex E) (hP : Plain P.pattern) (hQ : Plain Q.pattern)
    (h : P.contains Q.pattern = .ok true) (hl : StarsLead Q.pattern) (hi : Q.Included P) : P.Covers Q.pattern := by
  intro hq
  obtain ⟨hs,_,_⟩ := nameContains_cases hq h
  exact probe_of_included hE hP hQ hl hs hi (by decide) (by decide) (by decide) (by decide)

/-- A successful test means inclusion when `!` could stand for `abc`, and only
then if `**` is at the start of the other pattern only. -/
theorem included_iff_covers (hE : LawfulRegex E) {P Q : Pattern E} (hP : Plain P.pattern) (hQ : Plain Q.pattern)
    (h : P.contains Q.pattern = .ok true) :
    (P.Covers Q.pattern → Q.Included P) ∧ (StarsLead Q.pattern → (Q.Included P ↔ P.Covers Q.pattern)) :=
  ⟨included_of_covers hE hP h,fun hlead => ⟨covers_of_included hE hP hQ h hlead,included_of_covers hE hP h⟩⟩

theorem matches_below (hQ : startsWith stars Q.pattern = true) {n : Name} (hn : Q.Matches n.text) :
    ∃ m : Name, Q.Matches m.text ∧ m.text.count '.' = n.text.count '.' + 1 := by
  obtain ⟨ts,hts⟩ := tokens_of_lead hQ
  rw [Matches,hts] at hn
  refine ⟨⟨'.' :: n.text,?_,?_⟩,?_,?_⟩
  · rw [List.getLast?_cons,n.dotted]
    rfl
  · simpa using n.starless
  · rw [Matches,hts]
    exact accepts_any_append (u := ['.']) hn (fun _ _ => rfl)
  · exact List.count_cons_self

/-- Names with unboundedly many labels are only included in a pattern that starts with `**`. -/
theorem lead_of_included (hl : StarsLead Q.pattern) (hQ : Text.contains stars Q.pattern = true) (h : Q.Included P) :
    startsWith stars P.pattern = true := by
  by_contra hP
  have hnone : Text.contains stars P.pattern = false := Bool.eq_false_iff.2 (mt P.stars_lead hP)
  have hc : ∀ n : Name, Q.Matches n.text → n.text.count '.' = (tokens true P.pattern).count (.lit '.') :=
    fun n hn => count_of_narrow (by decide) (narrow_tokens hnone) (h n hn)
  have hn := matches_probeName (w := ['!']) (by decide) (by decide) (by decide) hl
  obtain ⟨m,hm,hs⟩ := matches_below (Q.stars_lead hQ) hn
  rw [hc _ hm,hc _ hn] at hs
  omega

/-- `abc` is one of the strings of the pattern in which `*` stands for it. -/
theorem nameContains_of_included (hE : LawfulRegex E) (hP : Plain P.pattern) (hQ : Plain Q.pattern)
    (hl : StarsLead Q.pattern) (h : Q.Included P) : P.nameContains Q.pattern = .ok true := by
  by_cases hq : '*' ∈ Q.pattern
  · have hs : '*' ∈ P.pattern := by
      by_contra hs
      have hname := h _ (matches_probeName (w := ['!']) (by decide) (by decide) (by decide) hl)
      rw [Matches,accepts_of_starless hs] at hname
      have hmem := mem_replace_star (c := '!') (w := ['!']) (star_mem_tested hq) List.mem_cons_self
      change '!' ∈ (probeName ['!'] (by decide) Q.pattern Q.dotted).text at hmem
      rw [hname] at hmem
      exact absurd (hP _ hmem) (by decide)
    have hp : P.probe "abc" Q.pattern = true :=
      probe_of_included hE hP hQ hl hs h (by decide) (by decide) (by decide) (by decide)
    cases hst : Text.contains stars Q.pattern with
    | false => rw [nameContains_of_wild hs hq hst,hp]
    | true =>
      obtain ⟨t,ht⟩ := startsWith_iff.1 (Q.stars_lead hst)
      have hpa : Q.pattern = '*' :: '*' :: t := ht.symm
      have hsi : Text.contains stars ('*' :: t) = false := by
        rw [StarsLead,hpa] at hl
        exact hl
      rw [hpa] at hp hst ⊢
      rw [nameContains_strip hs (lead_of_included hl (by rwa [hpa]) h) hst, if_pos (by decide),
        nameContains_of_wild hs List.mem_cons_self hsi]
      rw [probe,tested_cons hst] at hp
      exact congrArg ok hp
  · have hse : P.Matches Q.pattern :=
      h ⟨Q.pattern,Q.dotted,hq⟩ ((accepts_of_starless hq).2 rfl)
    rw [nameContains_of_name hq]
    split
    · rename_i hs
      refine congrArg ok (regex_of_matches hE hP hs (fun c hc => ⟨fun e => hq (e ▸ hc),?_⟩) hse)
      rintro rfl
      exact absurd (hQ _ hc) (by decide)
    · rename_i hs
      rw [Matches,accepts_of_starless hs] at hse
      exact congrArg ok (decide_eq_true hse)

/-- Inclusion is recognised for patterns with `**` at the start only. -/
theorem contains_of_included (hE : LawfulRegex E) {P Q : Pattern E} (hP : Plain P.pattern) (hQ : Plain Q.pattern)
    (hleadP : StarsLead P.pattern) (hleadQ : StarsLead Q.pattern) :
    (Q.Included P → P.contains Q.pattern = .ok true) ∧ P.contains P.pattern = .ok true :=
  ⟨nameContains_of_included hE hP hQ hleadQ,nameContains_of_included hE hP hP hleadP (fun _ h => h)⟩

end Pattern

def anyCom : Pattern Reference.externals := Reference.pattern "*.com." (by decide) (by decide) (by decide)
def aCom : Pattern Reference.externals := Reference.pattern "a*.com." (by decide) (by decide) (by decide)
theorem plain_anyCom : Plain anyCom.pattern := by decide
theorem plain_aCom : Plain aCom.pattern := by decide

/-- `*.com.` contains `a*.com.`, and includes it. -/
theorem included_iff_covers_anyCom :
    anyCom.contains aCom.pattern = .ok true ∧ (aCom.Included anyCom ↔ anyCom.Covers aCom.pattern) :=
  have h : anyCom.contains aCom.pattern = .ok true := by decide
  ⟨h,(Pattern.included_iff_covers Reference.lawfulRegex plain_anyCom plain_aCom h).2 (by decide)⟩

/-- `a*.com.` is said to contain `*.com.`, because `abc` starts with `a`. -/
theorem contains_without_inclusion :
    Plain aCom.pattern ∧ Plain anyCom.pattern ∧ aCom.contains anyCom.pattern = .ok true ∧ ¬ anyCom.Included aCom := by
  refine ⟨plain_aCom,plain_anyCom,by decide,fun h => ?_⟩
  have hname := h ⟨"b.com.",by decide,by decide⟩ (by unfold Pattern.Matches; decide)
  unfold Pattern.Matches at hname
  exact absurd hname (by decide)

theorem contains_of_included_anyCom :
    (aCom.Included anyCom → anyCom.contains aCom.pattern = .ok true) ∧ anyCom.contains anyCom.pattern = .ok true :=
  Pattern.contains_of_included Reference.lawfulRegex plain_anyCom plain_aCom (by decide) (by decide)

end Padsi.Net
