import Padsi.Lib.Rust

/-! # Byte strings as text

The validator reads one byte at a time, so validity of a concatenation is composition of
scans.
-/
namespace Padsi.Utf8
open Rust List UInt8

abbrev Range := UInt8 × UInt8
def tail : Range := (0x80,0xBF)

/-- The ranges owed after the first byte of a character, by the table of
well-formed UTF-8 byte sequences. -/
def lead (b : UInt8) : Option (List Range) :=
  if b < 0x80 then some []
  else if b < 0xC2 then none
  else if b < 0xE0 then some [tail]
  else if b = 0xE0 then some [(0xA0,0xBF),tail]
  else if b = 0xED then some [(0x80,0x9F),tail]
  else if b < 0xF0 then some [tail,tail]
  else if b = 0xF0 then some [(0x90,0xBF),tail,tail]
  else if b < 0xF4 then some [tail,tail,tail]
  else if b = 0xF4 then some [(0x80,0x8F),tail,tail]
  else none

def step : List Range → UInt8 → Option (List Range)
  | [], b => lead b
  | r :: owed, b => if r.1 ≤ b ∧ b ≤ r.2 then some owed else none

def scan : List Range → List UInt8 → Option (List Range)
  | owed, [] => some owed
  | owed, b :: bs =>
    match step owed b with
    | some owed' => scan owed' bs
    | none => none

def leadBits (b : UInt8) : ℕ :=
  if b < 0x80 then b.toNat else if b < 0xE0 then b.toNat % 32 else if b < 0xF0 then b.toNat % 16 else b.toNat % 8

def decodeFrom : List Range → ℕ → List UInt8 → Option (List Char)
  | owed, _, [] => if owed = [] then some [] else none
  | owed, code, b :: bs =>
    match step owed b with
    | none => none
    | some owed' =>
      let code' := if owed = [] then leadBits b else 64 * code + b.toNat % 64
      if owed' = [] then (decodeFrom [] 0 bs).map (Char.ofNat code' :: ·) else decodeFrom owed' code' bs

def decode (bs : List UInt8) : Option (List Char) := decodeFrom [] 0 bs
def encode (s : List Char) : List UInt8 := s.flatMap String.utf8EncodeChar
def valid (bs : List UInt8) : Bool := scan [] bs == some []

theorem scan_append (owed : List Range) (xs ys : List UInt8) :
    scan owed (xs ++ ys) = (scan owed xs).bind (fun o => scan o ys) := by
  induction xs generalizing owed with
  | nil => rfl
  | cons b xs ih =>
    simp only [cons_append,scan]
    cases step owed b with
    | none => rfl
    | some o => exact ih o

def Continuation (owed : List Range) : Prop := ∀ r ∈ owed, 0x80 ≤ r.1

variable {b : UInt8} {owed : List Range} {r : Range}

theorem lead_continuation (h : lead b = some owed) : Continuation owed := by
  unfold lead at h
  intro r hr
  split_ifs at h <;> cases h <;> simp only [tail,mem_cons,not_mem_nil,or_false] at hr <;>
    rcases hr with rfl | rfl | rfl <;> decide

theorem step_continuation {owed' : List Range} (ho : Continuation owed)
    (h : step owed b = some owed') : Continuation owed' := by
  cases owed with
  | nil => exact lead_continuation h
  | cons r owed =>
    simp only [step] at h
    split at h
    · cases h
      exact fun q hq => ho q (mem_cons_of_mem _ hq)
    · cases h

theorem scan_continuation {owed' : List Range} {bs : List UInt8} (ho : Continuation owed)
    (h : scan owed bs = some owed') : Continuation owed' := by
  induction bs generalizing owed with
  | nil =>
    cases h
    exact ho
  | cons b bs ih =>
    simp only [scan] at h
    cases hs : step owed b with
    | none => simp [hs] at h
    | some o =>
      simp only [hs] at h
      exact ih (step_continuation ho hs) h

theorem step_ascii (ho : Continuation owed) (hb : b < 0x80) :
    step owed b = if owed = [] then some [] else none := by
  cases owed with
  | nil => simp [step,lead,hb]
  | cons r owed =>
    have hr := ho r mem_cons_self
    have hn : ¬ r.1 ≤ b := UInt8.not_le.2 (UInt8.lt_of_lt_of_le hb hr)
    simp [step,hn]

theorem valid_append_ascii (xs ys : List UInt8) (hb : b < 0x80) :
    valid (xs ++ b :: ys) = true ↔ valid xs = true ∧ valid ys = true := by
  simp only [valid,scan_append,beq_iff_eq]
  cases hs : scan [] xs with
  | none => simp
  | some owed =>
    have ho : Continuation owed := scan_continuation (fun r hr => absurd hr not_mem_nil) hs
    simp only [Option.bind_some,scan,step_ascii ho hb]
    by_cases h : owed = [] <;> simp [h]

theorem valid_ascii_append {xs : List UInt8} (ys : List UInt8) (hx : ∀ b ∈ xs, b < 0x80) :
    valid (xs ++ ys) = valid ys := by
  induction xs with
  | nil => rfl
  | cons b xs ih =>
    have hb := hx b mem_cons_self
    have hs : scan [] (b :: (xs ++ ys)) = scan [] (xs ++ ys) := by simp [scan,step,lead,hb]
    have hi := ih (fun c hc => hx c (mem_cons_of_mem _ hc))
    simpa only [valid,cons_append,hs] using hi

theorem lead_of_valid {bs : List UInt8} (h : valid (b :: bs) = true) : b < 0x80 ∨ 0xC0 ≤ b := by
  by_cases hb : b < 0x80
  · exact Or.inl hb
  · right
    by_contra hl
    have hle : lead b = none := by
      have hs : b < 0xC2 := by
        simp only [lt_iff_toNat_lt,le_iff_toNat_le,reduceToNat] at hl ⊢
        omega
      rw [lead,if_neg hb,if_pos hs]
    simp [valid,scan,step,hle] at h

def isCharBoundary (s : List UInt8) (i : ℕ) : Bool :=
  i == 0 || (match s[i]? with
    | none => i == s.length
    | some b => b < 0x80 || 0xC0 ≤ b)

def splitAt (s : List UInt8) (mid : ℕ) : Partial (List UInt8 × List UInt8) :=
  if isCharBoundary s mid then .ok (s.take mid,s.drop mid) else .error .charBoundary

theorem returns_splitAt {s : List UInt8} {mid : ℕ} : Returns (splitAt s mid) ↔ isCharBoundary s mid = true := by
  unfold splitAt
  split <;> simp_all

def findOrLen (c : UInt8) (s : List UInt8) : ℕ := (s.findIdx? (· == c)).getD s.length
theorem findOrLen_eq (c : UInt8) (s : List UInt8) : findOrLen c s = s.findIdx (· == c) := by
  simp [findOrLen,findIdx_eq_getD_findIdx?]

theorem isCharBoundary_findOrLen {c : UInt8} (hc : c < 0x80) (s : List UInt8) :
    isCharBoundary s (findOrLen c s) = true := by
  rw [findOrLen_eq]
  simp only [isCharBoundary,Bool.or_eq_true]
  right
  rcases lt_or_ge (s.findIdx (· == c)) s.length with h | h
  · have hf := findIdx_getElem (w := h)
    rw [beq_iff_eq] at hf
    simp [getElem?_eq_getElem h,hf,hc]
  · have he : s.findIdx (· == c) = s.length := le_antisymm findIdx_le_length h
    simp [he]

theorem take_findOrLen (c : UInt8) (s : List UInt8) : s.take (findOrLen c s) = s.takeWhile (· != c) := by
  rw [findOrLen_eq,takeWhile_eq_take_findIdx_not]
  congr 2
  funext b
  cases hb : b == c <;> simp_all [bne]

theorem decodeFrom_lead (hb : lead b = some (r :: owed)) (bs : List UInt8) :
    decodeFrom [] 0 (b :: bs) = decodeFrom (r :: owed) (leadBits b) bs := by
  rw [decodeFrom,step,hb]
  simp

theorem decodeFrom_owed {code n : ℕ} (hn : n < 64) (hr : r.1.toNat ≤ n + 128 ∧ n + 128 ≤ r.2.toNat)
    (bs : List UInt8) :
    decodeFrom (r :: owed) code (ofNat (n + 128) :: bs) =
      if owed = [] then (decodeFrom [] 0 bs).map (Char.ofNat (64 * code + n) :: ·)
        else decodeFrom owed (64 * code + n) bs := by
  have hna : (ofNat (n + 128)).toNat = n + 128 := by
    rw [toNat_ofNat']
    omega
  have hb : (n + 128) % 64 = n := by omega
  have hin : r.1 ≤ ofNat (n + 128) ∧ ofNat (n + 128) ≤ r.2 := by
    rw [le_iff_toNat_le,le_iff_toNat_le,hna]
    exact hr
  rw [decodeFrom,step,if_pos hin]
  simp only [hna,hb,reduceCtorEq,if_false]

theorem decodeFrom_last {code n : ℕ} (hn : n < 64) (hr : r.1.toNat ≤ n + 128 ∧ n + 128 ≤ r.2.toNat) (bs : List UInt8) :
    decodeFrom [r] code (ofNat (n + 128) :: bs) = (decodeFrom [] 0 bs).map (Char.ofNat (64 * code + n) :: ·) := by
  rw [decodeFrom_owed hn hr,if_pos rfl]

theorem lead_two : ∀ n : Fin 32, 2 ≤ n.val → lead (ofNat (n.val + 192)) = some [tail] ∧
    leadBits (ofNat (n.val + 192)) = n.val := by
  decide
def second (n : ℕ) : Range := if n = 0 then (0xA0,0xBF) else if n = 13 then (0x80,0x9F) else tail

theorem lead_three : ∀ n : Fin 16,
    lead (ofNat (n.val + 224)) = some [second n.val,tail] ∧ leadBits (ofNat (n.val + 224)) = n.val := by
  decide

def secondOfFour (n : ℕ) : Range := if n = 0 then (0x90,0xBF) else if n = 4 then (0x80,0x8F) else tail

theorem lead_four : ∀ n : Fin 5,
    lead (ofNat (n.val + 240)) = some [secondOfFour n.val,tail,tail] ∧ leadBits (ofNat (n.val + 240)) = n.val := by
  decide

/-- By the four lengths of an encoded character. -/
theorem decodeFrom_encodeChar (c : Char) (bs : List UInt8) :
    decodeFrom [] 0 (String.utf8EncodeChar c ++ bs) = (decodeFrom [] 0 bs).map (c :: ·) := by
  have hc : Char.ofNat c.val.toNat = c := Char.ofNat_toNat c
  have hv : c.val.toNat < 0xD800 ∨ 0xDFFF < c.val.toNat ∧ c.val.toNat < 0x110000 := c.valid
  have ht : ∀ n < 64, tail.1.toNat ≤ n + 128 ∧ n + 128 ≤ tail.2.toNat := by
    intro n hn
    change 128 ≤ n + 128 ∧ n + 128 ≤ 191
    omega
  unfold String.utf8EncodeChar
  generalize c.val.toNat = v at hc hv
  dsimp only
  split
  · rename_i h
    have hl : lead (ofNat v) = some [] := by
      refine if_pos ?_
      rw [lt_iff_toNat_lt,toNat_ofNat']
      change v % 256 < 128
      omega
    have hb : leadBits (ofNat v) = v := by
      have hlt : ofNat v < 0x80 := by
        rw [lt_iff_toNat_lt,toNat_ofNat']
        change v % 256 < 128
        omega
      rw [leadBits,if_pos hlt,toNat_ofNat']
      omega
    rw [singleton_append,decodeFrom,step,hl]
    simp [hb,hc]
  · split
    · obtain ⟨hl,hb⟩ := lead_two ⟨v / 64 % 32,by omega⟩ (by simp; omega)
      rw [cons_append, decodeFrom_lead hl, hb, singleton_append, decodeFrom_last (by omega) (ht _ (by omega))]
      have hco : 64 * (v / 64 % 32) + v % 64 = v := by omega
      simp only [hco,hc]
    · split
      · obtain ⟨hl,hb⟩ := lead_three ⟨v / 4096 % 16,by omega⟩
        have hs : (second (v / 4096 % 16)).1.toNat ≤ v / 64 % 64 + 128 ∧
            v / 64 % 64 + 128 ≤ (second (v / 4096 % 16)).2.toNat := by
          unfold second tail
          split
          · change 160 ≤ _ ∧ _ ≤ 191
            omega
          · split
            · change 128 ≤ _ ∧ _ ≤ 159
              omega
            · change 128 ≤ _ ∧ _ ≤ 191
              omega
        rw [cons_append, decodeFrom_lead hl, hb, cons_append, decodeFrom_owed (by omega) hs, if_neg (by simp),
          singleton_append, decodeFrom_last (by omega) (ht _ (by omega))]
        have hco : 64 * (64 * (v / 4096 % 16) + v / 64 % 64) + v % 64 = v := by omega
        simp only [hco,hc]
      · obtain ⟨hl,hb⟩ := lead_four ⟨v / 262144 % 8,by omega⟩
        have hs : (secondOfFour (v / 262144 % 8)).1.toNat ≤ v / 4096 % 64 + 128 ∧
            v / 4096 % 64 + 128 ≤ (secondOfFour (v / 262144 % 8)).2.toNat := by
          unfold secondOfFour tail
          split
          · change 144 ≤ _ ∧ _ ≤ 191
            omega
          · split
            · change 128 ≤ _ ∧ _ ≤ 143
              omega
            · change 128 ≤ _ ∧ _ ≤ 191
              omega
        rw [cons_append, decodeFrom_lead hl, hb, cons_append, decodeFrom_owed (by omega) hs, if_neg (by simp),
          cons_append, decodeFrom_owed (by omega) (ht _ (by omega)), if_neg (by simp),
          singleton_append, decodeFrom_last (by omega) (ht _ (by omega))]
        have hco : 64 * (64 * (64 * (v / 262144 % 8) + v / 4096 % 64) + v / 64 % 64) + v % 64 = v := by omega
        simp only [hco,hc]

theorem length_encode_ascii {s : List Char} (h : ∀ c ∈ s, c.val ≤ 127) : (encode s).length = s.length := by
  induction s with
  | nil => rfl
  | cons c s ih =>
    obtain ⟨hc,hs⟩ := forall_mem_cons.1 h
    unfold encode at ih ⊢
    rw [flatMap_cons,length_append,String.length_utf8EncodeChar,Char.utf8Size_eq_one_iff.2 hc,ih hs,length_cons,
      Nat.add_comm]

theorem decode_encode (s : List Char) : decode (encode s) = some s := by
  unfold decode encode
  induction s with
  | nil => rfl
  | cons c s ih => rw [flatMap_cons,decodeFrom_encodeChar,ih,Option.map_some]

end Padsi.Utf8
