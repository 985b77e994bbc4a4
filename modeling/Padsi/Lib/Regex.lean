import Padsi.Lib.Python

/-! # Regular expressions

An expression is read from its text by a machine that takes one character at a time, and
matched with a continuation for what follows.
-/
namespace Padsi.Regex
open Text Python List Bool

inductive Item where
  | chr (c : Char)
  | range (a b : Char)
  | digit
  | word
deriving DecidableEq, Repr

structure Cls where
  negated : Bool
  items : List Item
deriving DecidableEq, Repr

inductive Expr where
  | empty
  | one (c : Cls)
  | bol
  | eol
  | seq (r q : Expr)
  | alt (r q : Expr)
  | rep (r : Expr) (least : ℕ) (most : Option ℕ)
deriving DecidableEq, Repr

structure Mode where
  unicode : Unicode
  ignoreCase : Bool

def Item.test (M : Mode) (c : Char) : Item → Bool
  | .chr a => if M.ignoreCase then (M.unicode.variants c).contains a else c == a
  | .range a b => (if M.ignoreCase then M.unicode.variants c else [c]).any fun v => decide (a ≤ v ∧ v ≤ b)
  | .digit => (M.unicode.decimal c).isSome
  | .word => M.unicode.alnum c || c == '_'

def Cls.test (M : Mode) (k : Cls) (c : Char) : Bool := k.items.any (Item.test M c) != k.negated

/-- A test of the position: whether it is the start of the text, and the rest of the text. -/
abbrev Cont := Bool → Str → Bool

def upTo (m : Cont → Cont) (k : Cont) : ℕ → Cont
  | 0 => k
  | n + 1 => fun b s => m (upTo m k n) b s || k b s

def exactly (m : Cont → Cont) (k : Cont) : ℕ → Cont
  | 0 => k
  | n + 1 => m (exactly m k n)

/-- A round that takes no character can be left out, so that the rest bounds the rounds. -/
def run (M : Mode) : Expr → Cont → Cont
  | .empty, k => k
  | .one c, k => fun _ s =>
    match s with
    | [] => false
    | a :: s => c.test M a && k false s
  | .bol, k => fun b s => b && k b s
  | .eol, k => fun b s => (s == [] || s == ['\n']) && k b s
  | .seq r q, k => run M r (run M q k)
  | .alt r q, k => fun b s => run M r k b s || run M q k b s
  | .rep r least (some most), k => exactly (run M r) (upTo (run M r) k (most - least)) least
  | .rep r least none, k => exactly (run M r) (fun b s => upTo (run M r) k s.length b s) least

inductive Place where
  | plain
  | escape
  | cls (fresh negated : Bool) (items : List Item) (last : Option Char) (dash escape : Bool)
  | bounds (least : ℕ) (most : Option ℕ) (comma : Bool)
deriving DecidableEq

structure Group where
  before : Option Expr
  current : Expr
  item : Option Expr
deriving DecidableEq

structure State where
  outer : List Group
  group : Group
  place : Place
deriving DecidableEq

def Group.new : Group := ⟨none,.empty,none⟩

def Group.close (g : Group) : Expr :=
  match g.item with
  | none => g.current
  | some r => .seq g.current r

def Group.regex (g : Group) : Expr :=
  match g.before with
  | none => g.close
  | some r => .alt r g.close

def State.push (st : State) (r : Expr) : State := ⟨st.outer,⟨st.group.before,st.group.close,some r⟩,.plain⟩
def State.fix (st : State) (r : Expr) : State := ⟨st.outer,⟨st.group.before,.seq st.group.close r,none⟩,.plain⟩

def State.repeated (st : State) (least : ℕ) (most : Option ℕ) : Option State :=
  match st.group.item with
  | none => none
  | some r => some ⟨st.outer,⟨st.group.before,.seq st.group.current (.rep r least most),none⟩,.plain⟩

def flushItems (items : List Item) (last : Option Char) (dash : Bool) : List Item :=
  items ++ (last.toList.map .chr) ++ if dash then [.chr '-'] else []

def classChar (negated : Bool) (items : List Item) (last : Option Char) (dash : Bool) (c : Char) : Place :=
  match last, dash with
  | some a, true => .cls false negated (items ++ [.range a c]) none false false
  | _, _ => .cls false negated (flushItems items last dash) (some c) false false

def classItem (negated : Bool) (items : List Item) (last : Option Char) (dash : Bool) (i : Item) : Place :=
  .cls false negated (flushItems items last dash ++ [i]) none false false

def stepClass (st : State) (fresh negated : Bool) (items : List Item) (last : Option Char) (dash escape : Bool)
    (c : Char) : Option State :=
  if escape then
    if c = 'd' then some { st with place := classItem negated items last dash .digit }
    else if c = 'w' then some { st with place := classItem negated items last dash .word }
    else some { st with place := classChar negated items last dash c }
  else if c = '\\' then some { st with place := .cls false negated items last dash true }
  else if c = '^' ∧ fresh = true then some { st with place := .cls false true items last dash false }
  else if c = ']' then some (st.push (.one ⟨negated,flushItems items last dash⟩))
  else if c = '-' ∧ last.isSome = true ∧ dash = false then
    some { st with place := .cls false negated items last true false }
  else some { st with place := classChar negated items last dash c }

def stepPlain (st : State) (c : Char) : Option State :=
  match c with
  | '\\' => some { st with place := .escape }
  | '[' => some ⟨st.outer,⟨st.group.before,st.group.close,none⟩,.cls true false [] none false false⟩
  | '.' => some (st.push (.one ⟨true,[.chr '\n']⟩))
  | '^' => some (st.fix .bol)
  | '$' => some (st.fix .eol)
  | '(' => some ⟨⟨st.group.before,st.group.close,none⟩ :: st.outer,.new,.plain⟩
  | ')' =>
    match st.outer with
    | [] => none
    | g :: outer => some ⟨outer,⟨g.before,g.current,some st.group.regex⟩,.plain⟩
  | '|' => some ⟨st.outer,⟨some st.group.regex,.empty,none⟩,.plain⟩
  | '*' => st.repeated 0 none
  | '+' => st.repeated 1 none
  | '?' => st.repeated 0 (some 1)
  | '{' => if st.group.item.isSome then some { st with place := .bounds 0 none false } else none
  | c => some (st.push (.one ⟨false,[.chr c]⟩))

def step (st : State) (c : Char) : Option State :=
  match st.place with
  | .plain => stepPlain st c
  | .escape =>
    if c = 'd' then some (st.push (.one ⟨false,[.digit]⟩))
    else if c = 'w' then some (st.push (.one ⟨false,[.word]⟩))
    else if c.isAlphanum then none
    else some (st.push (.one ⟨false,[.chr c]⟩))
  | .cls fresh negated items last dash escape => stepClass st fresh negated items last dash escape c
  | .bounds least most comma =>
    if c.isDigit then
      let d := c.toNat - '0'.toNat
      if comma then some { st with place := .bounds least (some (10 * most.getD 0 + d)) true }
      else some { st with place := .bounds (10 * least + d) none false }
    else if c = ',' ∧ comma = false then some { st with place := .bounds least none true }
    else if c = '}' then st.repeated least (if comma then most else some least)
    else none

/-- `re.compile`; no result stands for an error or an expression outside this syntax. -/
def compile (s : Str) : Option Expr := do
  let st ← s.foldlM step ⟨[],.new,.plain⟩
  if st.outer = [] ∧ st.place = .plain then some st.group.regex else none

def Expr.matchStart (M : Mode) (r : Expr) (s : Str) : Bool := run M r (fun _ _ => true) true s

variable {M : Mode} {k : Cont} {b : Bool} {s : Str}

theorem upTo_one {c : Cls} {n : ℕ} :
    upTo (run M (.one c)) k n b s = true ↔
      ∃ u v, s = u ++ v ∧ u.length ≤ n ∧ (∀ a ∈ u, c.test M a = true) ∧ k (b && u.isEmpty) v = true := by
  induction n generalizing b s with
  | zero =>
    constructor
    · intro h
      exact ⟨[],s,rfl,le_rfl,by simp,by simpa [upTo] using h⟩
    · rintro ⟨u,v,rfl,hu,_,hk⟩
      obtain rfl := length_eq_zero_iff.1 (Nat.le_zero.1 hu)
      simpa [upTo] using hk
  | succ n ih =>
    simp only [upTo,or_eq_true]
    constructor
    · rintro (h | h)
      · cases s with
        | nil => cases h
        | cons a s =>
          obtain ⟨ha,hrest⟩ := and_eq_true_iff.1 h
          obtain ⟨u,v,rfl,hu,hal,hk⟩ := ih.1 hrest
          refine ⟨a :: u,v,rfl,Nat.succ_le_succ hu,?_,by simpa using hk⟩
          simpa [ha] using hal
      · exact ⟨[],s,rfl,Nat.zero_le _,by simp,by simpa using h⟩
    · rintro ⟨u,v,rfl,hu,hal,hk⟩
      cases u with
      | nil => exact Or.inr (by simpa using hk)
      | cons a u =>
        refine Or.inl (and_eq_true_iff.2 ⟨hal a mem_cons_self,ih.2 ⟨u,v,rfl,?_,?_,?_⟩⟩)
        · exact Nat.le_of_succ_le_succ hu
        · exact fun x hx => hal x (mem_cons_of_mem _ hx)
        · simpa using hk

theorem run_rep_one {c : Cls} {least : ℕ} :
    run M (.rep (.one c) least none) k b s = true ↔
      ∃ u v, s = u ++ v ∧ least ≤ u.length ∧ (∀ a ∈ u, c.test M a = true) ∧ k (b && u.isEmpty) v = true := by
  change exactly (run M (.one c)) (fun b s => upTo (run M (.one c)) k s.length b s) least b s = true ↔ _
  induction least generalizing b s with
  | zero =>
    rw [exactly,upTo_one]
    constructor
    · rintro ⟨u,v,h,_,hal,hk⟩
      exact ⟨u,v,h,Nat.zero_le _,hal,hk⟩
    · rintro ⟨u,v,rfl,_,hal,hk⟩
      exact ⟨u,v,rfl,by simp,hal,hk⟩
  | succ n ih =>
    rw [exactly]
    cases s with
    | nil =>
      constructor
      · intro h
        cases h
      · rintro ⟨u,v,h,hn,_⟩
        obtain ⟨rfl,_⟩ := append_eq_nil_iff.1 h.symm
        cases hn
    | cons a s =>
      change (c.test M a && _) = true ↔ _
      rw [and_eq_true,ih]
      constructor
      · rintro ⟨ha,u,v,rfl,hn,hal,hk⟩
        exact ⟨a :: u,v,rfl,Nat.succ_le_succ hn,by simpa [ha] using hal,by simpa using hk⟩
      · rintro ⟨u,v,h,hn,hal,hk⟩
        cases u with
        | nil => cases hn
        | cons x u =>
          cases h
          exact ⟨hal a mem_cons_self,u,v,rfl,Nat.le_of_succ_le_succ hn,
            fun y hy => hal y (mem_cons_of_mem _ hy),by simpa using hk⟩

def Expr.Within (M : Mode) (p : Char → Prop) : Expr → Prop
  | .empty => True
  | .one c => ∀ a, c.test M a = true → p a
  | .bol => True
  | .eol => True
  | .seq r q => r.Within M p ∧ q.Within M p
  | .alt r q => r.Within M p ∧ q.Within M p
  | .rep r _ _ => r.Within M p

def Expr.classes : Expr → List Cls
  | .empty => []
  | .one c => [c]
  | .bol => []
  | .eol => []
  | .seq r q => r.classes ++ q.classes
  | .alt r q => r.classes ++ q.classes
  | .rep r _ _ => r.classes

theorem Expr.within_of_classes {p : Char → Prop} {r : Expr}
    (h : ∀ c ∈ r.classes, c.negated = false ∧ ∀ i ∈ c.items, ∀ a, Item.test M a i = true → p a) : r.Within M p := by
  induction r with
  | empty => trivial
  | one c =>
    obtain ⟨hn,hit⟩ := h c mem_cons_self
    intro a ha
    simp only [Cls.test,hn,bne_false,any_eq_true] at ha
    obtain ⟨i,hi,ht⟩ := ha
    exact hit i hi a ht
  | bol => trivial
  | eol => trivial
  | seq r q ihr ihq =>
    exact ⟨ihr fun c hc => h c (mem_append_left _ hc),ihq fun c hc => h c (mem_append_right _ hc)⟩
  | alt r q ihr ihq =>
    exact ⟨ihr fun c hc => h c (mem_append_left _ hc),ihq fun c hc => h c (mem_append_right _ hc)⟩
  | rep r _ _ ih => exact ih h

def Takes (p : Char → Prop) (k : Cont) (s : Str) : Prop := ∃ u v b, s = u ++ v ∧ (∀ c ∈ u, p c) ∧ k b v = true

variable {p : Char → Prop}

theorem Takes.of_true (h : k b s = true) : Takes p k s := ⟨[],s,b,rfl,by simp,h⟩

theorem Takes.trans {k' : Cont} (h : Takes p k s) (hk : ∀ b s, k b s = true → Takes p k' s) : Takes p k' s := by
  obtain ⟨u,v,b,rfl,hu,hv⟩ := h
  obtain ⟨x,y,b',rfl,hx,hy⟩ := hk b v hv
  refine ⟨u ++ x,y,b',by simp,fun c hc => ?_,hy⟩
  exact (mem_append.1 hc).elim (hu c) (hx c)

theorem takes_of_upTo {m : Cont → Cont} (hm : ∀ k b s, m k b s = true → Takes p k s) {n : ℕ}
    (h : upTo m k n b s = true) : Takes p k s := by
  induction n generalizing b s with
  | zero => exact .of_true h
  | succ n ih =>
    rcases or_eq_true_iff.1 h with h | h
    · exact (hm _ _ _ h).trans fun _ _ => ih
    · exact .of_true h

theorem takes_of_exactly {m : Cont → Cont} (hm : ∀ k b s, m k b s = true → Takes p k s) {n : ℕ}
    (h : exactly m k n b s = true) : Takes p k s := by
  induction n generalizing b s with
  | zero => exact .of_true h
  | succ n ih => exact (hm _ _ _ h).trans fun _ _ => ih

theorem takes_of_run {r : Expr} (hr : r.Within M p) (h : run M r k b s = true) : Takes p k s := by
  induction r generalizing k b s with
  | empty => exact .of_true h
  | one c =>
    cases s with
    | nil => cases h
    | cons a s =>
      obtain ⟨ha,hk⟩ := and_eq_true_iff.1 h
      exact ⟨[a],s,false,rfl,by simpa using hr a ha,hk⟩
  | bol => exact .of_true (and_eq_true_iff.1 h).2
  | eol => exact .of_true (and_eq_true_iff.1 h).2
  | seq r q ihr ihq => exact (ihr hr.1 h).trans fun _ _ => ihq hr.2
  | alt r q ihr ihq => exact (or_eq_true_iff.1 h).elim (ihr hr.1) (ihq hr.2)
  | rep r least most ih =>
    have hm : ∀ k b s, run M r k b s = true → Takes p k s := fun _ _ _ => ih hr
    cases most with
    | none => exact (takes_of_exactly hm h).trans fun _ _ => takes_of_upTo hm
    | some most => exact (takes_of_exactly hm h).trans fun _ _ => takes_of_upTo hm

theorem Expr.Within.of_matchStart {r : Expr} (hr : r.Within M p) (h : (Expr.seq r .eol).matchStart M s = true)
    (hs : s.getLast? ≠ some '\n') : ∀ c ∈ s, p c := by
  obtain ⟨u,v,b,rfl,hu,hv⟩ := takes_of_run hr h
  have he : v = [] ∨ v = ['\n'] := by simpa [run] using hv
  rcases he with rfl | rfl
  · simpa using hu
  · simp at hs

def special : List Char := ['\\','[','.','^','$','(',')','|','*','+','?','{']

theorem stepPlain_literal {c : Char} (h : c ∉ special) (st : State) :
    stepPlain st c = some (st.push (.one ⟨false,[.chr c]⟩)) := by
  unfold stepPlain
  split <;> first | rfl | exact absurd (by decide) h

end Padsi.Regex
