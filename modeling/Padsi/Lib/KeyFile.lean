import Padsi.Lib.Text

/-! # Key files

The blanks around the equals sign of an entry are ignored, and so are those before the
key, which the common readers skip.
-/
namespace Padsi.KeyFile
open Text List

def translate : Str → Str
  | [] => []
  | '\r' :: '\n' :: s => '\n' :: translate s
  | c :: s => (if c = '\r' then '\n' else c) :: translate s

def endLines : List Str → List Str
  | [] => []
  | [p] => if p = [] then [] else [p]
  | p :: q :: ps => (p ++ ['\n']) :: endLines (q :: ps)

def readLines (s : Str) : List Str := endLines (s.splitOn '\n')
def chomp (l : Str) : Str := l.rdropWhile (· = '\n')
def isBlank (c : Char) : Bool := c = ' ' || c = '\t'
def keyOf (line : Str) : Str := ((line.takeWhile (· ≠ '=')).dropWhile isBlank).rdropWhile isBlank
def value (key line : Str) : Option Str :=
  if '=' ∈ line ∧ keyOf line = key then some ((line.dropWhile (· ≠ '=')).tail.dropWhile isBlank) else none
def values (key text : Str) : List Str := (text.splitOn '\n').filterMap (value key)

theorem not_mem_translate (s : Str) : '\r' ∉ translate s := by
  fun_induction translate s with
  | case1 => exact not_mem_nil
  | case2 s ih => exact not_mem_cons_of_ne_of_not_mem (by decide) ih
  | case3 c s _ ih =>
    refine not_mem_cons_of_ne_of_not_mem ?_ ih
    split_ifs with hc
    · decide
    · exact Ne.symm hc

inductive Lines : List Str → Prop
  | nil : Lines []
  | last {p : Str} (hp : '\n' ∉ p) (hne : p ≠ []) : Lines [p]
  | cons {p : Str} {ls : List Str} (hp : '\n' ∉ p) (h : Lines ls) : Lines ((p ++ ['\n']) :: ls)

theorem lines_endLines {ps : List Str} (h : ∀ p ∈ ps, '\n' ∉ p) : Lines (endLines ps) := by
  fun_induction endLines ps with
  | case1 => exact .nil
  | case2 => exact .nil
  | case3 p hne => exact .last (h p mem_cons_self) hne
  | case4 p q ps ih =>
    obtain ⟨hp,hrest⟩ := forall_mem_cons.1 h
    exact .cons hp (ih hrest)

theorem lines_readLines (s : Str) : Lines (readLines s) := lines_endLines fun _ hp => not_mem_of_mem_splitOn hp

theorem Lines.exists_concat {ls : List Str} (h : Lines ls) {l : Str} (hl : l ∈ ls) :
    ∃ q d, l = q ++ [d] ∧ '\n' ∉ q ∧ (d = '\n' ∨ '\n' ∉ l) := by
  induction h with
  | nil => cases hl
  | @last p hp hne =>
    rw [mem_singleton.1 hl]
    obtain ⟨q,d,rfl⟩ := (eq_nil_or_concat p).resolve_left hne
    rw [concat_eq_append] at hp ⊢
    exact ⟨q,d,rfl,fun hmem => hp (mem_append_left _ hmem),.inr hp⟩
  | @cons p ls hp _ ih =>
    rcases mem_cons.1 hl with rfl | hl
    · exact ⟨p,'\n',rfl,hp,.inl rfl⟩
    · exact ih hl

theorem chomp_of_not_mem {p : Str} (h : '\n' ∉ p) : chomp p = p := by
  refine rdropWhile_eq_self_iff.2 fun hne hl => ?_
  have heq : p.getLast hne = '\n' := of_decide_eq_true hl
  exact h (heq ▸ getLast_mem hne)

theorem chomp_newline {p : Str} (h : '\n' ∉ p) : chomp (p ++ ['\n']) = p := by
  rw [chomp, rdropWhile_concat_pos (fun c => decide (c = '\n')) p '\n' (by decide)]
  exact chomp_of_not_mem h

section
variable {key : Str}

theorem value_nil : value key [] = none := if_neg fun h => absurd h.1 not_mem_nil

theorem filterMap_endLines {ps : List Str} (h : ∀ p ∈ ps, '\n' ∉ p) :
    (endLines ps).filterMap (fun l => value key (chomp l)) = ps.filterMap (value key) := by
  fun_induction endLines ps with
  | case1 => rfl
  | case2 =>
    rw [filterMap_cons,value_nil]
    rfl
  | case3 p hne =>
    rw [filterMap_cons,filterMap_cons,chomp_of_not_mem (h p mem_cons_self)]
    rfl
  | case4 p q ps ih =>
    obtain ⟨hp,hrest⟩ := forall_mem_cons.1 h
    rw [filterMap_cons,filterMap_cons,chomp_newline hp,ih hrest]

theorem filterMap_readLines (s : Str) : (readLines s).filterMap (fun l => value key (chomp l)) = values key s :=
  filterMap_endLines fun _ hp => not_mem_of_mem_splitOn hp

theorem mem_readLines {s l : Str} (hl : l ∈ readLines s) {c : Char} (hc : c ∈ l) : c = '\n' ∨ c ∈ s := by
  have hpa : ∀ ps : List Str, (∀ p ∈ ps, ∀ c ∈ p, c ∈ s) → ∀ l ∈ endLines ps, ∀ c ∈ l, c = '\n' ∨ c ∈ s := by
    intro ps hps
    fun_induction endLines ps with
    | case1 => nofun
    | case2 => nofun
    | case3 p _ =>
      intro l hl c hc
      rw [mem_singleton.1 hl] at hc
      exact .inr (hps p mem_cons_self c hc)
    | case4 p q ps ih =>
      obtain ⟨hp,hrest⟩ := forall_mem_cons.1 hps
      intro l hl c hc
      rcases mem_cons.1 hl with rfl | hl
      · rcases mem_append.1 hc with hc | hc
        · exact .inr (hp c hc)
        · exact .inl (mem_singleton.1 hc)
      · exact ih hrest l hl c hc
  exact hpa _ (fun p hp c hc => mem_of_mem_splitOn hp hc) l hl c hc

theorem values_append (u v : Str) : values key (u ++ '\n' :: v) = values key u ++ values key v := by
  rw [values,splitOn_append_cons_self,filterMap_append]
  rfl

theorem values_line {l : Str} (h : '\n' ∉ l) : values key l = (value key l).toList := by
  rw [values,splitOn_eq_singleton h]
  cases hv : value key l with
  | none => exact filterMap_cons_none hv
  | some v => exact filterMap_cons_some hv

theorem values_nil : values key [] = [] := by
  rw [values_line not_mem_nil,value_nil]
  rfl

theorem values_unlines (ls : List Str) : values key (['\n'].intercalate ls ++ ['\n']) = ls.flatMap (values key) := by
  rw [values_append,values_nil,append_nil]
  induction ls with
  | nil => exact values_nil
  | cons l ls ih =>
    cases ls with
    | nil => simp
    | cons l' ls =>
      have hc : ['\n'].intercalate (l :: l' :: ls) = l ++ '\n' :: ['\n'].intercalate (l' :: ls) := by simp [intercalate]
      rw [hc,values_append,ih]
      rfl

theorem not_mem_of_mem_values {text v : Str} (h : v ∈ values key text) : '\n' ∉ v := by
  obtain ⟨line,hl,hv⟩ := mem_filterMap.1 h
  unfold value at hv
  split_ifs at hv
  cases hv
  intro hmem
  have ht := mem_of_mem_tail ((dropWhile_sublist _).mem hmem)
  exact not_mem_of_mem_splitOn hl ((dropWhile_sublist _).mem ht)

theorem value_cons {k : Str} (hk : '=' ∉ k) (v : Str) :
    value key (k ++ '=' :: v) = if (k.dropWhile isBlank).rdropWhile isBlank =
      key then some (v.dropWhile isBlank) else none := by
  have ha : ∀ c ∈ k, (decide (c ≠ '=')) = true := fun c hc => decide_eq_true fun heq => hk (heq ▸ hc)
  have ht : (k ++ '=' :: v).takeWhile (fun c => decide (c ≠ '=')) = k := by
    rw [takeWhile_append_of_pos ha, takeWhile_cons_of_neg (by simp), append_nil]
  have hd : (k ++ '=' :: v).dropWhile (fun c => decide (c ≠ '=')) = '=' :: v := by
    rw [dropWhile_append_of_pos ha, dropWhile_cons_of_neg (by simp)]
  have hmem : '=' ∈ k ++ '=' :: v := by simp
  unfold value keyOf
  rw [ht,hd,tail_cons]
  simp only [hmem,true_and]

theorem exists_of_value {line v : Str} (h : value key line = some v) :
    ∃ k u, line = k ++ '=' :: u ∧ '=' ∉ k ∧ (k.dropWhile isBlank).rdropWhile isBlank = key ∧
      v = u.dropWhile isBlank := by
  have hmem : '=' ∈ line := by
    unfold value at h
    split_ifs at h with hif
    exact hif.1
  obtain ⟨k,u,rfl,hk⟩ := eq_append_cons_of_mem hmem
  rw [value_cons hk] at h
  split_ifs at h with hke
  cases h
  exact ⟨k,u,rfl,hk,hke,rfl⟩

theorem value_concat {line v : Str} (h : value key line = some v) (c : Char) :
    ∃ rest, value key (line ++ [c]) = some (v ++ rest) ∧ (rest = [c] ∨ rest = [] ∧ isBlank c = true) := by
  obtain ⟨k,u,rfl,hk,hke,rfl⟩ := exists_of_value h
  rw [append_assoc,cons_append,value_cons hk,if_pos hke,dropWhile_append]
  split_ifs with he
  · rw [isEmpty_iff.1 he]
    cases hc : isBlank c with
    | true => exact ⟨[],by rw [dropWhile_cons_of_pos hc]; rfl,.inr ⟨rfl,rfl⟩⟩
    | false => exact ⟨[c],by rw [dropWhile_cons_of_neg (by simp [hc])]; rfl,.inl rfl⟩
  · exact ⟨[c],rfl,.inl rfl⟩

theorem value_ne_none_of_concat {line : Str} {c : Char} (hc : c ≠ '=') (h : value key (line ++ [c]) ≠ none) :
    value key line ≠ none := by
  obtain ⟨v,hv⟩ := Option.ne_none_iff_exists'.1 h
  obtain ⟨k,u,hl,hk,hke,_⟩ := exists_of_value hv
  rcases eq_nil_or_concat u with rfl | ⟨u,d,rfl⟩
  · exact absurd (append_inj' hl rfl).2 (by simp [hc])
  · rw [concat_eq_append,← cons_append,← append_assoc] at hl
    rw [(append_inj' hl rfl).1,value_cons hk,if_pos hke]
    exact Option.some_ne_none _

theorem value_of_head {a b : Char} {t ks : Str} (ha : isBlank a = false) (hab : a ≠ b) :
    value (b :: ks) (a :: t) = none := by
  cases hv : value (b :: ks) (a :: t) with
  | none => rfl
  | some v =>
    obtain ⟨k,u,hl,_,hk,_⟩ := exists_of_value hv
    cases k with
    | nil => cases hk
    | cons a' k =>
      cases hl
      rw [dropWhile_cons_of_neg (by simp [ha])] at hk
      obtain ⟨tl,htl⟩ := rdropWhile_prefix isBlank (a :: k)
      rw [hk] at htl
      exact absurd (cons.inj htl).1 (Ne.symm hab)

end

end Padsi.KeyFile
