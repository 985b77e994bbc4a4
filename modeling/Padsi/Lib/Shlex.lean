import Padsi.Lib.Text

/-! # Shell words

A word starts with its first character, so the reader carries one only while it is
inside.
-/
namespace Padsi.Shlex
open Text List

def apostrophe : Char := Char.ofNat 39
def isBlank (c : Char) : Bool := c = ' ' || c = '\t' || c = '\r' || c = '\n'

inductive Error where
  | noClosingQuotation
  | noEscapedCharacter
deriving DecidableEq

inductive State where
  | blank
  | word (token : Str) (quoted : Bool)
  | single (token : Str)
  | double (token : Str)
  | escape (token : Str) (quoted : Bool)
  | escapeDouble (token : Str)

structure Reader where
  state : State
  tokens : List Str

def start : Reader := ⟨.blank,[]⟩
def emit (token : Str) (quoted : Bool) : List Str := if token = [] ∧ quoted = false then [] else [token]

def readWord (token : Str) (quoted : Bool) (c : Char) : State :=
  if c = apostrophe then .single token
  else if c = '"' then .double token
  else if c = '\\' then .escape token quoted
  else .word (token ++ [c]) quoted

def step (r : Reader) (c : Char) : Reader :=
  match r.state with
  | .blank => if isBlank c then r else { r with state := readWord [] false c }
  | .word token quoted =>
    if isBlank c then ⟨.blank,r.tokens ++ emit token quoted⟩ else { r with state := readWord token quoted c }
  | .single token => { r with state := if c = apostrophe then .word token true else .single (token ++ [c]) }
  | .double token =>
    { r with state :=
        if c = '"' then .word token true else if c = '\\' then .escapeDouble token else .double (token ++ [c]) }
  | .escape token quoted => { r with state := .word (token ++ [c]) quoted }
  | .escapeDouble token => { r with state := .double (if c ≠ '\\' ∧ c ≠ '"' then token ++ ['\\',c] else token ++ [c]) }

def finish (r : Reader) : Except Error (List Str) :=
  match r.state with
  | .blank => .ok r.tokens
  | .word token quoted => .ok (r.tokens ++ emit token quoted)
  | .single _ | .double _ => .error .noClosingQuotation
  | .escape _ _ | .escapeDouble _ => .error .noEscapedCharacter

def split (s : Str) : Except Error (List Str) := finish (s.foldl step start)
def isSafe (c : Char) : Bool := c.isAlphanum || c = '_' || "@%+=:,./-".toList.contains c

def quote (s : Str) : Str :=
  if s = [] then [apostrophe,apostrophe]
  else if s.all isSafe then s
  else apostrophe :: replace [apostrophe] [apostrophe,'"',apostrophe,'"',apostrophe] s ++ [apostrophe]

def join (args : List Str) : Str := [' '].intercalate (args.map quote)

section
variable {c : Char} (token : Str) (quoted : Bool) (ts : List Str)

theorem step_blank_of_blank (hc : isBlank c = true) : step ⟨.blank,ts⟩ c = ⟨.blank,ts⟩ := if_pos hc
theorem step_blank_of_not_blank (hc : isBlank c = false) : step ⟨.blank,ts⟩ c = ⟨readWord [] false c,ts⟩ :=
  if_neg (by simp [hc])
theorem step_word_of_blank (hc : isBlank c = true) :
    step ⟨.word token quoted,ts⟩ c = ⟨.blank,ts ++ emit token quoted⟩ := if_pos hc
theorem step_word_of_not_blank (hc : isBlank c = false) :
    step ⟨.word token quoted,ts⟩ c = ⟨readWord token quoted c,ts⟩ := if_neg (by simp [hc])

end

variable {c : Char} {ts : List Str} {r : Reader}

theorem finish_readWord {tokens : List Str} {token : Str} {quoted : Bool}
    (h : finish ⟨readWord token quoted c,tokens⟩ = .ok ts) : ts = tokens ++ [token ++ [c]] := by
  unfold readWord at h
  split_ifs at h
  all_goals cases h
  simp [emit]

theorem emit_eq (token : Str) (quoted : Bool) : emit token quoted = [] ∨ emit token quoted = [token] := by
  unfold emit
  split_ifs
  · exact Or.inl rfl
  · exact Or.inr rfl

theorem finish_step_blank (h : finish r = .ok ts) (hc : isBlank c = true) : finish (step r c) = .ok ts := by
  obtain ⟨state,tokens⟩ := r
  cases state with
  | blank => rw [step_blank_of_blank tokens hc,h]
  | word token quoted =>
    rw [← h,step_word_of_blank token quoted tokens hc]
    rfl
  | single | double | escape | escapeDouble => cases h

theorem finish_step_of_not_blank {us : List Str} (h : finish r = .ok ts) (hc : isBlank c = false)
    (hu : finish (step r c) = .ok us) : us ≠ ts ∧ ts.length ≤ us.length ∧ us.length ≤ ts.length + 1 := by
  obtain ⟨state,tokens⟩ := r
  cases state with
  | blank =>
    cases h
    rw [step_blank_of_not_blank tokens hc] at hu
    rw [finish_readWord hu]
    simp
  | word token quoted =>
    cases h
    rw [step_word_of_not_blank token quoted tokens hc] at hu
    rw [finish_readWord hu]
    rcases emit_eq token quoted with he | he
    · simp [he]
    · simp [he]
  | single | double | escape | escapeDouble => cases h

theorem split_append_singleton (s : Str) (c : Char) : split (s ++ [c]) = finish (step (s.foldl step start) c) := by
  rw [split,foldl_append]
  rfl

theorem foldl_blanks {b : Str} (hb : ∀ c ∈ b, isBlank c = true) (ts : List Str) :
    b.foldl step ⟨.blank,ts⟩ = ⟨.blank,ts⟩ := by
  induction b with
  | nil => rfl
  | cons c b ih =>
    obtain ⟨hc,hrest⟩ := forall_mem_cons.mp hb
    rw [foldl_cons,step_blank_of_blank ts hc,ih hrest]

theorem split_append_left {b : Str} (hb : ∀ c ∈ b, isBlank c = true) (s : Str) : split (b ++ s) = split s := by
  rw [split,foldl_append,start,foldl_blanks hb]
  rfl

theorem split_append_right {s b : Str} (h : split s = .ok ts) (hb : ∀ c ∈ b, isBlank c = true) :
    split (s ++ b) = .ok ts := by
  induction b using reverseRecOn with
  | nil => rwa [append_nil]
  | append_singleton b c ih =>
    obtain ⟨hrest,hc⟩ := forall_mem_append.mp hb
    rw [← append_assoc,split_append_singleton]
    exact finish_step_blank (ih hrest) (hc c (mem_singleton_self c))

theorem tokens_step (r : Reader) (c : Char) : r.tokens <+: (step r c).tokens := by
  obtain ⟨state,tokens⟩ := r
  unfold step
  cases state with
  | blank =>
    dsimp only
    split
    · exact prefix_rfl
    · exact prefix_rfl
  | word token quoted =>
    dsimp only
    split
    · exact prefix_append _ _
    · exact prefix_rfl
  | single | double | escape | escapeDouble => exact prefix_rfl

theorem tokens_foldl (r : Reader) (s : Str) : r.tokens <+: (s.foldl step r).tokens := by
  induction s generalizing r with
  | nil => exact prefix_rfl
  | cons c s ih => exact (tokens_step r c).trans (ih (step r c))

theorem tokens_finish (h : finish r = .ok ts) : r.tokens <+: ts := by
  obtain ⟨state,tokens⟩ := r
  cases state with
  | blank =>
    cases h
    exact prefix_rfl
  | word token quoted =>
    cases h
    exact prefix_append _ _
  | single | double | escape | escapeDouble => cases h

/-- The words of a part of a text that ends between two words are the first ones of the text. -/
theorem split_append {s u : Str} {us : List Str} (hs : s.foldl step start = ⟨.blank,ts⟩)
    (h : split (s ++ u) = .ok us) : ts <+: us := by
  rw [split,foldl_append,hs] at h
  exact (tokens_foldl ⟨.blank,ts⟩ u).trans (tokens_finish h)

section
variable {p : Char → Prop}

def State.token : State → Str
  | .blank => []
  | .word t _ | .single t | .double t | .escape t _ | .escapeDouble t => t

def Holds (p : Char → Prop) (r : Reader) : Prop := (∀ t ∈ r.tokens, ∀ c ∈ t, p c) ∧ ∀ c ∈ r.state.token, p c

theorem forall_mem_concat {t : Str} {c : Char} (ht : ∀ x ∈ t, p x) (hc : p c) : ∀ x ∈ t ++ [c], p x := by
  intro x hx
  rcases mem_append.mp hx with hx | hx
  · exact ht x hx
  · rw [mem_singleton.mp hx]
    exact hc

theorem holds_readWord {tokens : List Str} (hto : ∀ t ∈ tokens, ∀ c ∈ t, p c) {token : Str}
    (ht : ∀ x ∈ token, p x) (quoted : Bool) {c : Char}
    (hc : p c) : Holds p ⟨readWord token quoted c,tokens⟩ := by
  refine ⟨hto,?_⟩
  unfold readWord
  split_ifs
  · exact ht
  · exact ht
  · exact ht
  · exact forall_mem_concat ht hc

theorem forall_mem_emit {t : Str} (ht : ∀ x ∈ t, p x) (quoted : Bool) : ∀ u ∈ emit t quoted, ∀ c ∈ u, p c := by
  rcases emit_eq t quoted with he | he
  · rw [he]
    nofun
  · rw [he]
    intro u hu
    rw [mem_singleton.mp hu]
    exact ht

/-- What holds of a backslash and of each character of the text holds of the tokens. -/
theorem holds_step (hba : p '\\') {r : Reader} (h : Holds p r) {c : Char} (hc : p c) : Holds p (step r c) := by
  obtain ⟨state,tokens⟩ := r
  obtain ⟨hto,hs⟩ := h
  cases state with
  | blank =>
    cases hb : isBlank c with
    | true =>
      rw [step_blank_of_blank tokens hb]
      exact ⟨hto,hs⟩
    | false =>
      rw [step_blank_of_not_blank tokens hb]
      exact holds_readWord hto hs false hc
  | word token quoted =>
    cases hb : isBlank c with
    | true =>
      rw [step_word_of_blank token quoted tokens hb]
      refine ⟨fun t ht => ?_,fun _ hx => absurd hx not_mem_nil⟩
      rcases mem_append.mp ht with ht | ht
      · exact hto t ht
      · exact forall_mem_emit hs quoted t ht
    | false =>
      rw [step_word_of_not_blank token quoted tokens hb]
      exact holds_readWord hto hs quoted hc
  | single token =>
    refine ⟨hto,?_⟩
    unfold step
    dsimp only
    split_ifs
    · exact hs
    · exact forall_mem_concat hs hc
  | double token =>
    refine ⟨hto,?_⟩
    unfold step
    dsimp only
    split_ifs
    · exact hs
    · exact hs
    · exact forall_mem_concat hs hc
  | escape token quoted => exact ⟨hto,forall_mem_concat hs hc⟩
  | escapeDouble token =>
    refine ⟨hto,?_⟩
    unfold step
    dsimp only
    split_ifs
    · have htw : token ++ ['\\',c] = token ++ ['\\'] ++ [c] := by simp
      rw [htw]
      exact forall_mem_concat (forall_mem_concat hs hba) hc
    · exact forall_mem_concat hs hc

theorem split_chars (hb : p '\\') {s : Str} (hs : ∀ c ∈ s, p c) {ts : List Str} (h : split s = .ok ts) :
    ∀ t ∈ ts, ∀ c ∈ t, p c := by
  have hf : ∀ (s : Str) (r : Reader), (∀ c ∈ s, p c) → Holds p r → Holds p (s.foldl step r) := by
    intro s
    induction s with
    | nil => exact fun r _ hr => hr
    | cons c s ih =>
      intro r hs hr
      obtain ⟨hc,hrest⟩ := forall_mem_cons.mp hs
      exact ih _ hrest (holds_step hb hr hc)
  have he := hf s start hs ⟨fun _ ht => absurd ht not_mem_nil,fun _ hc => absurd hc not_mem_nil⟩
  unfold split finish at h
  generalize s.foldl step start = r at he h
  obtain ⟨state,tokens⟩ := r
  obtain ⟨hto,hst⟩ := he
  cases state with
  | blank =>
    cases h
    exact hto
  | word token quoted =>
    cases h
    intro t ht
    rcases mem_append.mp ht with ht | ht
    · exact hto t ht
    · exact forall_mem_emit hst quoted t ht
  | single | double | escape | escapeDouble => cases h

end

theorem not_special_of_isSafe (h : isSafe c = true) : isBlank c = false ∧ c ≠ apostrophe ∧ c ≠ '"' ∧ c ≠ '\\' := by
  refine ⟨?_,?_,?_,?_⟩
  · by_contra hb
    rw [Bool.not_eq_false, isBlank] at hb
    simp only [Bool.or_eq_true, decide_eq_true_eq] at hb
    rcases hb with ((rfl | rfl) | rfl) | rfl
    all_goals exact absurd h (by decide)
  all_goals
    rintro rfl
    exact absurd h (by decide)

theorem step_safe (token : Str) (quoted : Bool) (ts : List Str) (h : isSafe c = true) :
    step ⟨.word token quoted,ts⟩ c = ⟨.word (token ++ [c]) quoted,ts⟩ := by
  obtain ⟨hb,hs,hd,hba⟩ := not_special_of_isSafe h
  rw [step_word_of_not_blank token quoted ts hb, readWord, if_neg hs, if_neg hd, if_neg hba]

theorem foldl_safe {s : Str} (hs : ∀ c ∈ s, isSafe c = true) (token : Str) (quoted : Bool) (ts : List Str) :
    s.foldl step ⟨.word token quoted,ts⟩ = ⟨.word (token ++ s) quoted,ts⟩ := by
  induction s generalizing token with
  | nil => rw [List.append_nil]; rfl
  | cons c s ih =>
    obtain ⟨hc,hrest⟩ := List.forall_mem_cons.mp hs
    rw [List.foldl_cons, step_safe token quoted ts hc, ih hrest, List.append_assoc]
    rfl

theorem foldl_quoted (s token : Str) (ts : List Str) :
    (replace [apostrophe] [apostrophe,'"',apostrophe,'"',apostrophe] s).foldl step ⟨.single token,
      ts⟩ = ⟨.single (token ++ s),ts⟩ := by
  rw [replace_singleton]
  induction s generalizing token with
  | nil => rw [List.append_nil]; rfl
  | cons c s ih =>
    rw [List.flatMap_cons, List.foldl_append]
    have ho : (if c = apostrophe then [apostrophe,'"',apostrophe,'"',apostrophe] else [c]).foldl step
      ⟨.single token,ts⟩ =
        ⟨.single (token ++ [c]),ts⟩ := by
      split_ifs with hc
      · rw [hc]
        rfl
      · simp only [List.foldl_cons, List.foldl_nil, step, if_neg hc]
    rw [ho, ih, List.append_assoc]
    rfl

theorem foldl_quote (s : Str) (ts : List Str) :
    ∃ quoted, (quote s).foldl step ⟨.blank,ts⟩ = ⟨.word s quoted,ts⟩ ∧ emit s quoted = [s] := by
  unfold quote
  split_ifs with hs hsa
  · rw [hs]
    exact ⟨true,rfl,rfl⟩
  · obtain ⟨c,u,rfl⟩ := List.exists_cons_of_ne_nil hs
    have ha := List.all_eq_true.mp hsa
    obtain ⟨hc,hu⟩ := List.forall_mem_cons.mp ha
    obtain ⟨hb,hsi,hd,hba⟩ := not_special_of_isSafe hc
    refine ⟨false,?_,by simp [emit]⟩
    have hfirst : step ⟨.blank,ts⟩ c = ⟨.word [c] false,ts⟩ := by
      rw [step_blank_of_not_blank ts hb, readWord, if_neg hsi, if_neg hd, if_neg hba]
      rfl
    rw [List.foldl_cons, hfirst, foldl_safe hu]
    rfl
  · refine ⟨true,?_,by simp [emit]⟩
    have hopen : step ⟨.blank,ts⟩ apostrophe = ⟨.single [],ts⟩ := rfl
    rw [List.cons_append, List.foldl_cons, hopen, List.foldl_append, foldl_quoted]
    rfl

theorem finish_foldl_join (args ts : List Str) : finish ((join args).foldl step ⟨.blank,ts⟩) = .ok (ts ++ args) := by
  induction args generalizing ts with
  | nil => rw [List.append_nil]; rfl
  | cons a args ih =>
    obtain ⟨quoted,hf,he⟩ := foldl_quote a ts
    cases args with
    | nil =>
      have ho : join [a] = quote a := by simp [join]
      rw [ho, hf, ← he]
      rfl
    | cons b args =>
      have hm : join (a :: b :: args) = quote a ++ ' ' :: join (b :: args) := by simp [join, List.intercalate]
      have hb : step ⟨.word a quoted,ts⟩ ' ' = ⟨.blank,ts ++ [a]⟩ := by
        rw [← he]
        rfl
      rw [hm, List.foldl_append, hf, List.foldl_cons, hb, ih]
      simp

theorem split_join (args : List Str) : split (join args) = .ok args := finish_foldl_join args []

theorem quote_chars {p : Char → Prop} (hsi : p apostrophe) (hdo : p '"') {s : Str} (hs : ∀ c ∈ s, p c) :
    ∀ c ∈ quote s, p c := by
  unfold quote
  split_ifs
  · intro c hc
    simp only [mem_cons,not_mem_nil,or_false,or_self] at hc
    rw [hc]
    exact hsi
  · exact hs
  · intro c hc
    simp only [replace_singleton,cons_append,mem_cons,mem_append,mem_flatMap,not_mem_nil,or_false] at hc
    rcases hc with rfl | ⟨d,hd,hc⟩ | rfl
    · exact hsi
    · split_ifs at hc
      · simp only [mem_cons,not_mem_nil,or_false] at hc
        rcases hc with rfl | rfl | rfl | rfl | rfl
        all_goals assumption
      · rw [mem_singleton.mp hc]
        exact hs d hd
    · exact hsi

theorem join_chars {p : Char → Prop} (hb : p ' ') (hs : p apostrophe) (hd : p '"') {args : List Str}
    (h : ∀ a ∈ args, ∀ c ∈ a, p c) : ∀ c ∈ join args, p c := by
  intro c hc
  rcases mem_of_mem_intercalate hc with hc | ⟨q,hq,hc⟩
  · rw [mem_singleton.mp hc]
    exact hb
  · obtain ⟨a,ha,rfl⟩ := mem_map.mp hq
    exact quote_chars hs hd (h a ha) c hc

end Padsi.Shlex
