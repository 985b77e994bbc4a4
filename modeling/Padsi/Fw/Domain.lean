import Padsi.Fw.IpAddress
import Padsi.Lib.Regex
import Padsi.Net.Inclusion

/-! # Domain names of the firewall library

Without wildcards the expression of a domain is not anchored at its end, and matches
every name that starts with the domain.
-/
namespace Padsi.Fw
open Rust Text Wildcard Net Python Regex List Item

variable (U : Unicode)

def domainRegexExpr : Str :=
  ("^(([\\da-zA-Z])([_\\w-]\x7b,62\x7d)\\.)\x7b,127\x7d(([\\da-zA-Z])[_\\w-]\x7b,61\x7d)?" ++
    "([\\da-zA-Z]\\.((xn\\-\\-[a-zA-Z\\d]+)|([a-zA-Z\\d]\x7b2,\x7d)))\\.?$").toList

def singleRegexExpr : Str := "^([\\da-zA-Z])([_\\w-]\x7b,62\x7d)\\.?$"

def reMatch (expr s : Str) : Except Exc Bool :=
  match compile expr with
  | none => .error .regex
  | some r => .ok (r.matchStart ⟨U,false⟩ s)

def matchIgnoreCase (expr s : Str) : Bool :=
  match compile expr with
  | none => false
  | some r => r.matchStart ⟨U,true⟩ s

def isPlainName (item : Str) : Except Exc Bool :=
  if item.getLast? ≠ some '.' then .ok false
  else
    match isIpv4Element item with
    | .error e => .error e
    | .ok true => .ok false
    | .ok false => .ok (matchIgnoreCase U singleRegexExpr item || matchIgnoreCase U domainRegexExpr item)

def starsInside (item : Str) : Bool :=
  if startsWith stars item then contains stars (item.drop 2) else contains stars item

def isDomainName (item : Str) : Except Exc Bool :=
  if item.getLast? ≠ some '.' then .ok false
  else
    match isIpv4Element item with
    | .error e => .error e
    | .ok true => .ok false
    | .ok false =>
      if item = ['*'] ∨ item = stars then .ok true
      else if starsInside item then .ok false
      else isPlainName U (replace ['*'] "ccc" (replace stars "aaa.bbb" item))

def domainToRegex (domain : Str) : Str :=
  if contains ['*'] domain then
    let nparts := ((replace stars ['§'] domain).splitOn '.').map labelText
    '^' :: replace ['§'] ".*" ("\\.".toList.intercalate nparts) ++ ['$']
  else replace ['.'] "\\." domain

def domainIsPartOf (domain other : Str) : Except Exc Bool :=
  if contains ['*'] domain then
    if contains ['*'] other then
      if contains stars domain then
        if startsWith stars domain then
          if startsWith stars other then
            match domain with
            | [] => .ok false
            | _ :: rest => domainIsPartOf rest other
          else .ok false
        else .ok false
      else reMatch U (domainToRegex other) (replace ['*'] "abc" domain)
    else .ok false
  else if contains ['*'] other then reMatch U (domainToRegex other) domain
  else .ok (decide (domain = other))

variable {U}

variable {d s : Str} {ts : List (Tok Char)}

theorem domainIsPartOf_of_name (hd : '*' ∉ d) :
    domainIsPartOf U d s = if '*' ∈ s then reMatch U (domainToRegex s) d else .ok (decide (d = s)) := by
  unfold domainIsPartOf
  rw [if_neg (mt contains_singleton.1 hd)]
  simp only [contains_singleton]

theorem domainIsPartOf_of_wild (hd : '*' ∈ d) (hs : '*' ∈ s) (hst : contains stars d = false) :
    domainIsPartOf U d s = reMatch U (domainToRegex s) (replace ['*'] "abc" d) := by
  unfold domainIsPartOf
  rw [if_pos (contains_singleton.2 hd),if_pos (contains_singleton.2 hs),if_neg (Bool.eq_false_iff.1 hst)]

theorem domainIsPartOf_of_short (hd : '*' ∈ d)
    (h : '*' ∉ s ∨ (contains stars d = true ∧ startsWith stars s = false)) : domainIsPartOf U d s = .ok false := by
  unfold domainIsPartOf
  rw [if_pos (contains_singleton.2 hd)]
  rcases h with hs | ⟨hst,hl⟩
  · rw [if_neg (mt contains_singleton.1 hs)]
  · rw [if_pos hst,if_neg (Bool.eq_false_iff.1 hl),ite_self,ite_self]

theorem domainIsPartOf_strip (hd : startsWith stars ('*' :: d) = true) (hs : startsWith stars s = true) :
    domainIsPartOf U ('*' :: d) s = domainIsPartOf U d s := by
  have hsta : contains stars ('*' :: d) = true := contains_cons.2 (.inl hd)
  have hst : '*' ∈ s := (startsWith_iff.1 hs).subset mem_cons_self
  rw [domainIsPartOf.eq_def,if_pos (contains_singleton.2 mem_cons_self),if_pos (contains_singleton.2 hst),
    if_pos hsta,if_pos hd,if_pos hs]

def NameChar (U : Unicode) (c : Char) : Prop := U.alnum c = true ∨ c = '_' ∨ c = '-' ∨ c = '.'

def nameItems : List Item :=
  [.digit,.word,.range 'a' 'z',.range 'A' 'Z',.chr '_',.chr '-',.chr '.',.chr 'x',.chr 'n']

theorem isAlpha_of_range {v : Char} (h : ('a' ≤ v ∧ v ≤ 'z') ∨ ('A' ≤ v ∧ v ≤ 'Z')) : v.isAlpha = true := by
  simp only [Char.isAlpha,Char.isUpper,Char.isLower,Bool.or_eq_true,Bool.and_eq_true,decide_eq_true_eq]
  exact h.symm

theorem nameChar_of_test (hU : U.Lawful) {i : Item} (hi : i ∈ nameItems) {a : Char}
    (h : test ⟨U,true⟩ a i = true) : NameChar U a := by
  have hl : ∀ v ∈ U.variants a, v.isAlpha = true → NameChar U a := fun v hv ha =>
    .inl (hU.variants_letter a v hv ha)
  have ho : ∀ v ∈ U.variants a, v.toNat < 128 → v.isAlpha = false → v = a := fun v hv => hU.variants_other a v hv
  simp only [nameItems,mem_cons,not_mem_nil,or_false] at hi
  rcases hi with rfl | rfl | rfl | rfl | rfl | rfl | rfl | rfl | rfl
  · exact .inl (hU.alnum_of_decimal a h)
  · rcases Bool.or_eq_true_iff.1 h with h | h
    · exact .inl h
    · exact .inr (.inl (beq_iff_eq.1 h))
  · obtain ⟨v,hv,hr⟩ := any_eq_true.1 h
    exact hl v hv (isAlpha_of_range (.inl (of_decide_eq_true hr)))
  · obtain ⟨v,hv,hr⟩ := any_eq_true.1 h
    exact hl v hv (isAlpha_of_range (.inr (of_decide_eq_true hr)))
  · exact .inr (.inl (ho '_' (by simpa [test] using h) (by decide) (by decide)).symm)
  · exact .inr (.inr (.inl (ho '-' (by simpa [test] using h) (by decide) (by decide)).symm))
  · exact .inr (.inr (.inr (ho '.' (by simpa [test] using h) (by decide) (by decide)).symm))
  · exact hl 'x' (by simpa [test] using h) (by decide)
  · exact hl 'n' (by simpa [test] using h) (by decide)

def beforeEnd (expr : Str) : Expr :=
  match compile expr with
  | some (.seq r .eol) => r
  | _ => .empty

def NameExpr (expr : Str) : Prop :=
  compile expr = some (.seq (beforeEnd expr) .eol) ∧
    ∀ c ∈ (beforeEnd expr).classes, c.negated = false ∧ ∀ i ∈ c.items, i ∈ nameItems

instance (expr : Str) : Decidable (NameExpr expr) := inferInstanceAs (Decidable (_ ∧ _))

theorem nameChar_of_match (hU : U.Lawful) {expr : Str} (he : NameExpr expr) (hs : s.getLast? = some '.')
    (h : matchIgnoreCase U expr s = true) : ∀ c ∈ s, NameChar U c := by
  obtain ⟨hc,hit⟩ := he
  have hw : (beforeEnd expr).Within ⟨U,true⟩ (NameChar U) := Expr.within_of_classes fun c hc =>
    ⟨(hit c hc).1,fun i hi _ => nameChar_of_test hU ((hit c hc).2 i hi)⟩
  rw [matchIgnoreCase,hc] at h
  exact hw.of_matchStart h (by rw [hs]; decide)

theorem nameChar_of_isPlainName (hU : U.Lawful) (h : isPlainName U s = .ok true) : ∀ c ∈ s, NameChar U c := by
  unfold isPlainName at h
  split at h
  · cases h
  · rename_i hd
    have hs : s.getLast? = some '.' := not_not.1 hd
    split at h
    · cases h
    · cases h
    · rcases Bool.or_eq_true_iff.1 (Except.ok.inj h) with h | h
      · exact nameChar_of_match hU (by decide +kernel) hs h
      · exact nameChar_of_match hU (by decide +kernel) hs h

structure DomainText (d : Str) : Prop where
  dotted : d.getLast? = some '.'
  plain : Plain d
  lead : contains stars d = true → startsWith stars d = true
  single : contains stars (d.drop 2) = false

theorem labelChar_of_nameChar (hU : U.Lawful) {c : Char} (h : NameChar U c) : labelChar c = true ∨ c = '.' := by
  rcases h with h | rfl | rfl | rfl
  · left
    by_cases ha : c.toNat < 128
    · rw [hU.alnum_ascii c ha] at h
      simp [labelChar,h]
    · have hs : c ≠ '§' := by
        rintro rfl
        rw [hU.alnum_section] at h
        cases h
      simp [labelChar,Nat.le_of_not_lt ha,hs]
  · exact .inl (by decide)
  · exact .inl (by decide)
  · exact .inr rfl

theorem plain_of_isPlainName (hU : U.Lawful)
    (h : isPlainName U (replace ['*'] "ccc" (replace stars "aaa.bbb" d)) = .ok true) : Plain d := by
  intro c hc
  by_cases hs : c = '*'
  · exact .inr (.inr hs)
  · have hk : c ∈ replace ['*'] "ccc" (replace stars "aaa.bbb" d) :=
      mem_replace (by decide) (by simpa using hs) (mem_replace (by decide) (by simpa [stars] using hs) hc)
    exact or_assoc.1 (.inl (labelChar_of_nameChar hU (nameChar_of_isPlainName hU h c hk)))

theorem domainText_of_isDomainName (hU : U.Lawful) (h : isDomainName U d = .ok true) : DomainText d := by
  unfold isDomainName at h
  split at h
  · cases h
  · rename_i hdo
    have hd : d.getLast? = some '.' := not_not.1 hdo
    split at h
    · cases h
    · cases h
    · split at h
      · rename_i ho
        rcases ho with rfl | rfl <;> cases hd
      · split at h
        · cases h
        · rename_i hi
          have hp := plain_of_isPlainName hU h
          rw [Bool.not_eq_true,starsInside] at hi
          split at hi
          · rename_i hl
            exact ⟨hd,hp,fun _ => hl,hi⟩
          · refine ⟨hd,hp,fun hs => ?_,?_⟩
            · rw [hi] at hs
              cases hs
            · apply Bool.eq_false_iff.2
              intro hrest
              have ha : contains stars d = true :=
                contains_iff.2 ((contains_iff.1 hrest).trans (drop_suffix 2 d).isInfix)
              rw [hi] at ha
              cases ha

def node : Tok Char → Expr
  | .lit c => .one ⟨false,[.chr c]⟩
  | .star => .rep (.one ⟨true,[.chr '.',.chr '*']⟩) 0 none
  | .plus => .rep (.one ⟨true,[.chr '.',.chr '*']⟩) 1 none
  | .any => .rep (.one ⟨true,[.chr '\n']⟩) 0 none

def Writable (ts : List (Tok Char)) : Prop := ∀ c, Tok.lit c ∈ ts → labelChar c = true ∨ c = '.'

theorem writable_tokens {b : Bool} (hd : Plain d) : Writable (tokens b d) := by
  intro c hc
  obtain ⟨hmem,hne⟩ := mem_of_lit_mem_tokens hc
  rcases hd c hmem with h | h | h
  · exact .inl h
  · exact .inr h
  · exact absurd h hne

theorem not_special {c : Char} (h : labelChar c = true) : c ∉ special := by
  have hs : special.all (fun d => !labelChar d) = true := by decide
  intro hc
  have hl := all_eq_true.1 hs c hc
  rw [h] at hl
  cases hl

theorem read_token {t : Tok Char} (ht : Writable [t]) (outer : List Group) (g : Group) :
    ∃ g', (tokenText t).foldlM step ⟨outer,g,.plain⟩ = some ⟨outer,g',.plain⟩ ∧ g'.before = g.before ∧
      g'.close = .seq g.close (node t) := by
  cases t with
  | lit c =>
    refine ⟨⟨g.before,g.close,some (node (.lit c))⟩,?_,rfl,rfl⟩
    by_cases hd : c = '.'
    · subst hd
      rfl
    · have hl := (ht c mem_cons_self).resolve_right hd
      have hte : tokenText (.lit c) = [c] := if_neg hd
      rw [hte,foldlM_cons]
      change (stepPlain ⟨outer,g,.plain⟩ c).bind _ = _
      rw [stepPlain_literal (not_special hl)]
      rfl
  | star => exact ⟨⟨g.before,.seq g.close (node .star),none⟩,rfl,rfl,rfl⟩
  | plus => exact ⟨⟨g.before,.seq g.close (node .plus),none⟩,rfl,rfl,rfl⟩
  | any => exact ⟨⟨g.before,.seq g.close (node .any),none⟩,rfl,rfl,rfl⟩

def appendTokens (r : Expr) (ts : List (Tok Char)) : Expr := ts.foldl (fun r t => .seq r (node t)) r

theorem read_tokens (hts : Writable ts) (outer : List Group) (g : Group) :
    ∃ g', (tokensText ts).foldlM step ⟨outer,g,.plain⟩ = some ⟨outer,g',.plain⟩ ∧ g'.before = g.before ∧
      g'.close = appendTokens g.close ts := by
  induction ts generalizing g with
  | nil => exact ⟨g,rfl,rfl,rfl⟩
  | cons t ts ih =>
    obtain ⟨g₁,h₁,hb₁,hc₁⟩ := read_token (t := t) (fun c hc => hts c (by simp_all)) outer g
    obtain ⟨g₂,h₂,hb₂,hc₂⟩ := ih (fun c hc => hts c (mem_cons_of_mem _ hc)) g₁
    refine ⟨g₂,?_,hb₂.trans hb₁,by rw [hc₂,hc₁]; rfl⟩
    have ht : tokensText (t :: ts) = tokenText t ++ tokensText ts := flatMap_cons
    rw [ht,foldlM_append,h₁]
    exact h₂

theorem compile_tokens (hts : Writable ts) : compile (tokensText ts) = some (appendTokens .empty ts) := by
  obtain ⟨g,h,hb,hc⟩ := read_tokens hts [] .new
  have hg : g.regex = appendTokens .empty ts := by
    rw [Group.regex,hb,hc]
    rfl
  rw [compile,h]
  exact congrArg some hg

theorem compile_anchored (hts : Writable ts) :
    compile ('^' :: tokensText ts ++ ['$']) = some (.seq (appendTokens (.seq .empty .bol) ts) .eol) := by
  obtain ⟨g,h,hb,hc⟩ := read_tokens hts [] ⟨none,.seq .empty .bol,none⟩
  have hg : Group.regex ⟨g.before,.seq g.close .eol,none⟩ = .seq (appendTokens (.seq .empty .bol) ts) .eol := by
    rw [hb,hc]
    rfl
  have hr : ('^' :: tokensText ts ++ ['$']).foldlM step ⟨[],.new,.plain⟩ =
      some ⟨[],⟨g.before,.seq g.close .eol,none⟩,.plain⟩ := by
    rw [cons_append,foldlM_cons]
    change (tokensText ts ++ ['$']).foldlM step ⟨[],⟨none,.seq .empty .bol,none⟩,.plain⟩ = _
    rw [foldlM_append,h]
    rfl
  rw [compile,hr]
  exact congrArg some hg

def runTokens (M : Mode) : List (Tok Char) → Cont → Cont
  | [], k => k
  | t :: ts, k => run M (node t) (runTokens M ts k)

theorem run_appendTokens (M : Mode) (r : Expr) (ts : List (Tok Char)) (k : Cont) :
    run M (appendTokens r ts) k = run M r (runTokens M ts k) := by
  induction ts generalizing r with
  | nil => rfl
  | cons t ts ih => exact ih (.seq r (node t))

theorem test_inner (a : Char) : Cls.test ⟨U,false⟩ ⟨true,[.chr '.',.chr '*']⟩ a = regexClasses.inner a := by
  simp [Cls.test,test,regexClasses,Bool.beq_eq_decide_eq]
theorem test_wide (a : Char) : Cls.test ⟨U,false⟩ ⟨true,[.chr '\n']⟩ a = regexClasses.wide a := by
  simp [Cls.test,test,regexClasses,Bool.beq_eq_decide_eq]

theorem run_node {t : Tok Char} {k : Cont} {b : Bool} :
    run ⟨U,false⟩ (node t) k b s = true ↔ ∃ u v, s = u ++ v ∧ Segment regexClasses t u ∧
      k (b && u.isEmpty) v = true := by
  cases t with
  | lit c =>
    cases s with
    | nil =>
      constructor
      · intro h
        cases h
      · rintro ⟨u,v,h,rfl,_⟩
        cases h
    | cons a s =>
      have ho : run ⟨U,false⟩ (node (.lit c)) k b (a :: s) = ((a == c) && k false s) := by
        simp [node,run,Cls.test,test]
      rw [ho,Bool.and_eq_true,beq_iff_eq]
      constructor
      · rintro ⟨rfl,h⟩
        exact ⟨[a],s,rfl,rfl,by simpa using h⟩
      · rintro ⟨u,v,h,rfl,hk⟩
        cases h
        exact ⟨rfl,by simpa using hk⟩
  | star =>
    rw [node,run_rep_one]
    simp only [test_inner,Nat.zero_le,true_and]
    rfl
  | plus =>
    rw [node,run_rep_one]
    simp only [test_inner,Segment,Nat.one_le_iff_ne_zero,ne_eq,length_eq_zero_iff,and_assoc]
  | any =>
    rw [node,run_rep_one]
    simp only [test_wide,Nat.zero_le,true_and]
    rfl

theorem runTokens_iff {k : Str → Bool} {b : Bool} :
    runTokens ⟨U,false⟩ ts (fun _ => k) b s = true ↔
      ∃ u v, s = u ++ v ∧ accepts regexClasses ts u = true ∧ k v = true := by
  induction ts generalizing b s with
  | nil =>
    constructor
    · intro h
      exact ⟨[],s,rfl,accepts_nil.2 rfl,h⟩
    · rintro ⟨u,v,rfl,hu,hk⟩
      rw [accepts_nil.1 hu]
      exact hk
  | cons t ts ih =>
    rw [runTokens,run_node]
    constructor
    · rintro ⟨u,v,rfl,hu,hrest⟩
      obtain ⟨x,y,rfl,hx,hk⟩ := ih.1 hrest
      exact ⟨u ++ x,y,by simp,accepts_cons.2 ⟨u,x,rfl,hu,hx⟩,hk⟩
    · rintro ⟨u,v,rfl,hu,hk⟩
      obtain ⟨x,y,rfl,hx,hy⟩ := accepts_cons.1 hu
      exact ⟨x,y ++ v,by simp,hx,ih.2 ⟨y,v,rfl,hy,hk⟩⟩

theorem domainToRegex_of_star (hs : '*' ∈ d) (hm : '§' ∉ d) :
    domainToRegex d = '^' :: tokensText (tokens true d) ++ ['$'] := by
  have hj := unmark_join (splitOn_ne_nil '.' (replace stars ['§'] d)) (fun _ h => not_mem_of_mem_splitOn h)
  rw [intercalate_splitOn,← tokens_eq_markedTokens true hm] at hj
  rw [domainToRegex,if_pos (contains_singleton.2 hs)]
  change '^' :: unmark _ ++ ['$'] = _
  rw [hj]

theorem domainToRegex_of_starless (hs : '*' ∉ d) : domainToRegex d = tokensText (d.map .lit) := by
  rw [domainToRegex,if_neg (mt contains_singleton.1 hs),replace_singleton,tokensText,flatMap_map]
  rfl

theorem reMatch_of_star {q : Str} (hd : Plain d) (hs : '*' ∈ d) (hq : q.getLast? = some '.') :
    reMatch U (domainToRegex d) q = .ok (accepts regexClasses (tokens true d) q) := by
  have hm : '§' ∉ d := fun h => absurd (hd _ h) (by decide)
  rw [reMatch,domainToRegex_of_star hs hm,compile_anchored (writable_tokens hd)]
  refine congrArg Except.ok (Bool.eq_iff_iff.2 ?_)
  have hr : (Expr.seq (appendTokens (.seq .empty .bol) (tokens true d)) .eol).matchStart ⟨U,false⟩ q =
      runTokens ⟨U,false⟩ (tokens true d) (fun _ s => (s == [] || s == ['\n']) && true) true q := by
    change run _ (appendTokens _ _) _ true q = _
    rw [run_appendTokens]
    rfl
  rw [hr,runTokens_iff]
  constructor
  · rintro ⟨u,v,rfl,hu,hv⟩
    have he : v = [] ∨ v = ['\n'] := by simpa using hv
    rcases he with rfl | rfl
    · rwa [append_nil]
    · simp at hq
  · intro h
    exact ⟨q,[],by simp,h,rfl⟩

/-- Without wildcards the expression matches every text that starts with the domain. -/
theorem reMatch_of_starless {q : Str} (hd : Plain d) (hs : '*' ∉ d) :
    reMatch U (domainToRegex d) q = .ok (decide (d <+: q)) := by
  have hl : tokens true d = d.map .lit := tokens_of_starless hs
  have hw : Writable (d.map .lit) := hl ▸ writable_tokens hd
  rw [reMatch,domainToRegex_of_starless hs,compile_tokens hw]
  refine congrArg Except.ok (Bool.eq_iff_iff.2 ?_)
  change run _ (appendTokens _ _) _ true q = true ↔ _
  rw [run_appendTokens]
  change runTokens _ _ (fun _ _ => true) true q = true ↔ _
  rw [runTokens_iff,decide_eq_true_iff,← hl]
  simp only [accepts_of_starless hs]
  constructor
  · rintro ⟨u,v,rfl,rfl,_⟩
    exact ⟨v,rfl⟩
  · rintro ⟨v,rfl⟩
    exact ⟨d,v,rfl,rfl,trivial⟩

def nameClasses : Classes Char := ⟨fun c => decide (c ≠ '.' ∧ c ≠ '*'),fun _ => true⟩

/-- The name `q` is one that the domain `d` stands for. -/
def InLanguage (d q : Str) : Prop := accepts nameClasses (tokens true d) q = true

instance (d q : Str) : Decidable (InLanguage d q) := inferInstanceAs (Decidable (_ = _))

/-- The name does not merely start with the domain, nor has it a line feed for a leading `**`. -/
def MatchedExactly (d q : Str) : Prop :=
  ('*' ∉ d → d <+: q → q = d) ∧
    ∀ rest, d = '*' :: '*' :: rest → InLanguage d q →
      ∃ u v, q = u ++ v ∧ '\n' ∉ u ∧ accepts nameClasses (tokens false rest) v = true

theorem accepts_regexClasses (hts : Narrow ts) :
    accepts regexClasses ts s = true ↔ accepts nameClasses ts s = true :=
  ⟨hts.accepts fun _ h => h,hts.accepts fun _ h => h⟩

theorem accepts_of_regexClasses (h : accepts regexClasses ts s = true) : accepts nameClasses ts s = true :=
  accepts_of_classes h (fun _ _ hi => hi) (fun _ _ _ => rfl)

theorem accepts_stars {rest q : Str} (hrest : contains stars rest = false) :
    accepts regexClasses (tokens true ('*' :: '*' :: rest)) q = true ↔
      ∃ u v, q = u ++ v ∧ '\n' ∉ u ∧ accepts nameClasses (tokens false rest) v = true := by
  change accepts regexClasses (.any :: tokens false rest) q = true ↔ _
  simp only [accepts_cons,accepts_regexClasses (narrow_tokens hrest)]
  have hl : ∀ u : Str, Segment regexClasses .any u ↔ '\n' ∉ u := by
    intro u
    simp only [Segment,regexClasses,decide_eq_true_eq]
    exact ⟨fun h hmem => h _ hmem rfl,fun h c hc hl => h (hl ▸ hc)⟩
  simp only [hl]

/-- The expression of an accepted domain matches a name if and only if the
domain stands for it, exactly when the name is matched exactly. -/
theorem reMatch_iff_inLanguage (hU : U.Lawful) {d q : Str} (hd : isDomainName U d = .ok true)
    (hq : q.getLast? = some '.') :
    (reMatch U (domainToRegex d) q = .ok true ↔ InLanguage d q) ↔ MatchedExactly d q := by
  have ht := domainText_of_isDomainName hU hd
  by_cases hs : '*' ∈ d
  · rw [reMatch_of_star ht.plain hs hq,Except.ok.injEq]
    have hso : accepts regexClasses (tokens true d) q = true → InLanguage d q := accepts_of_regexClasses
    cases hst : contains stars d with
    | false =>
      have he := accepts_regexClasses (s := q) (narrow_tokens (b := true) hst)
      refine iff_of_true he ⟨fun h => absurd hs h,fun rest hrest _ => ?_⟩
      rw [hrest,contains_stars_cons.2 (.inl ⟨rfl,rfl⟩)] at hst
      cases hst
    | true =>
      obtain ⟨rest,rfl⟩ := startsWith_iff.1 (ht.lead hst)
      have hm : accepts regexClasses (tokens true (stars ++ rest)) q = true ↔ _ := accepts_stars ht.single
      constructor
      · intro h
        refine ⟨fun hnone => absurd hs hnone,fun rest' hrest hl => ?_⟩
        cases hrest
        exact hm.1 (h.2 hl)
      · intro h
        exact ⟨hso,fun hl => hm.2 (h.2 rest rfl hl)⟩
  · rw [reMatch_of_starless ht.plain hs,Except.ok.injEq,decide_eq_true_iff,InLanguage,accepts_of_starless hs]
    constructor
    · intro h
      refine ⟨fun _ => h.1,fun rest hrest => ?_⟩
      exact absurd (hrest ▸ mem_cons_self) hs
    · intro h
      exact ⟨h.1 hs,fun hq => hq ▸ prefix_rfl⟩

theorem reMatch_iff_inLanguage_anyCom :
    isDomainName .ascii "*.com." = .ok true ∧
      ((reMatch .ascii (domainToRegex "*.com.") "a.com." = .ok true ↔
        InLanguage "*.com." "a.com.") ↔ MatchedExactly "*.com." "a.com.") :=
  have h : isDomainName .ascii "*.com." = .ok true := by decide +kernel
  ⟨h,reMatch_iff_inLanguage Unicode.lawful_ascii h (by decide)⟩

/-- The expression of `example.com.` has no end marker. -/
theorem example_matches_longer_name :
    isDomainName .ascii "example.com." = .ok true ∧
      reMatch .ascii (domainToRegex "example.com.") "example.com.evil.org." = .ok true ∧
      ¬ InLanguage "example.com." "example.com.evil.org." := by
  refine ⟨by decide +kernel,by decide +kernel,by decide⟩

end Padsi.Fw
