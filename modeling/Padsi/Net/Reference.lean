import Padsi.Net.Pattern

/-! # A reference library

Concrete functions with the documented meaning of the regex and network libraries.
-/
namespace Padsi.Net.Reference
open Text Wildcard List

def readTokens : ℕ → Str → Option (List (Tok Char))
  | _, [] => none
  | k + 1, _ :: s => readTokens k s
  | 0, c :: s =>
    if c = '$' then if s = [] then some [] else none
    else if c = '\\' then (readTokens 1 s).map (.lit '.' :: ·)
    else if c = '.' then (readTokens 1 s).map (.any :: ·)
    else if c = '[' then (readTokens 7 s).map ((if s.getD 6 ' ' = '+' then .plus else .star) :: ·)
    else (readTokens 0 s).map (.lit c :: ·)

def compile : Str → Option (Str → Bool)
  | '^' :: s =>
    match readTokens 0 s with
    | some ts => if tokensText ts ++ ['$'] = s then some (accepts regexClasses ts) else none
    | none => none
  | _ => none

theorem readTokens_tokensText {ts : List (Tok Char)} (hts : ∀ c, Tok.lit c ∈ ts → labelChar c = true ∨ c = '.') :
    readTokens 0 (tokensText ts ++ ['$']) = some ts := by
  induction ts with
  | nil => rfl
  | cons t ts ih =>
    have hrest := ih (fun c hc => hts c (mem_cons_of_mem _ hc))
    have ht : tokensText (t :: ts) ++ ['$'] = tokenText t ++ (tokensText ts ++ ['$']) := by
      simp [tokensText]
    rw [ht]
    generalize tokensText ts ++ ['$'] = s at hrest
    have hr : ∀ (k : ℕ) (u : Str) (t : Tok Char), k = u.length →
        (readTokens k (u ++ s)).map (t :: ·) = some (t :: ts) := by
      intro k u t hk
      subst hk
      induction u with
      | nil => simp [hrest]
      | cons c u ihu => exact ihu
    cases t with
    | lit c =>
      by_cases hdo : c = '.'
      · subst hdo
        exact hr 1 ['.'] (.lit '.') rfl
      · have hc : labelChar c = true := (hts c mem_cons_self).resolve_right hdo
        have hne : ∀ d, labelChar d = false → c ≠ d := by
          rintro d hd rfl
          rw [hc] at hd
          cases hd
        have hto : tokenText (.lit c) = [c] := if_neg hdo
        rw [hto, singleton_append, readTokens, if_neg (hne '$' (by decide)), if_neg (hne '\\' (by decide)),
          if_neg hdo, if_neg (hne '[' (by decide))]
        exact hr 0 [] (.lit c) rfl
    | star => exact hr 7 "^\\.\\*]*" .star rfl
    | plus => exact hr 7 "^\\.\\*]+" .plus rfl
    | any => exact hr 1 ['*'] .any rfl

def parseNetwork (s : Str) : Option Ipv4Network :=
  match s.splitOn '/' with
  | [a] => (Ipv4Addr.parse a).map fun x => ⟨x,32,Ipv4Network.hostLength_le⟩
  | [a,p] => do
    let x ← Ipv4Addr.parse a
    let k ← (finRange 33).find? fun k => Nat.toDigits 10 k.val = p
    return ⟨x,k.val,Nat.lt_succ_iff.1 k.isLt⟩
  | _ => none

theorem parseNetwork_text (n : Ipv4Network) : parseNetwork n.text = some n := by
  have hf : ∀ k : Fin 33, (finRange 33).find? (fun j => Nat.toDigits 10 j.val = Nat.toDigits 10 k.val) = some k := by
    decide +kernel
  have hk := hf ⟨n.length,Nat.lt_succ_iff.2 n.length_le⟩
  rw [parseNetwork,n.splitOn_text]
  simp only [Ipv4Addr.parse_text,hk]
  rfl

def isSupernetOf (n o : Ipv4Network) : Bool :=
  decide (n.length ≤ o.length ∧ o.addr.value / 2 ^ (32 - n.length) = n.addr.value / 2 ^ (32 - n.length))
def ofValue (v : ℕ) : Ipv4Addr :=
  ⟨UInt8.ofNat (v / 2 ^ 24),UInt8.ofNat (v / 2 ^ 16),UInt8.ofNat (v / 2 ^ 8),UInt8.ofNat v⟩

theorem value_ofValue {v : ℕ} (h : v < 2 ^ 32) : (ofValue v).value = v := by
  simp only [ofValue,Ipv4Addr.value,UInt8.toNat_ofNat']
  omega

theorem value_lt (x : Ipv4Addr) : x.value < 2 ^ 32 := by
  have ha := x.a.toNat_lt
  have hb := x.b.toNat_lt
  have hc := x.c.toNat_lt
  have hd := x.d.toNat_lt
  simp only [Ipv4Addr.value]
  omega

theorem div_pow_congr {v w i j : ℕ} (hij : i ≤ j) (h : v / 2 ^ i = w / 2 ^ i) : v / 2 ^ j = w / 2 ^ j := by
  obtain ⟨k,rfl⟩ := Nat.exists_eq_add_of_le hij
  rw [pow_add,← Nat.div_div_eq_div_mul,← Nat.div_div_eq_div_mul,h]

theorem exists_flip (v i : ℕ) : ∃ x, x / 2 ^ i ≠ v / 2 ^ i ∧ x / 2 ^ (i + 1) = v / 2 ^ (i + 1) := by
  have hf : ∃ q, q ≠ v / 2 ^ i ∧ q / 2 = v / 2 ^ i / 2 := by
    rcases Nat.even_or_odd' (v / 2 ^ i) with ⟨k,hk | hk⟩
    · exact ⟨2 * k + 1,by omega,by omega⟩
    · exact ⟨2 * k,by omega,by omega⟩
  obtain ⟨q,hne,hh⟩ := hf
  have hd : 2 ^ i * q / 2 ^ i = q := Nat.mul_div_cancel_left q (Nat.two_pow_pos i)
  refine ⟨2 ^ i * q,by rwa [hd],?_⟩
  rw [pow_succ,← Nat.div_div_eq_div_mul,← Nat.div_div_eq_div_mul,hd,hh]

theorem isSupernetOf_iff (n o : Ipv4Network) : isSupernetOf n o = true ↔ ∀ x, o.Mem x → n.Mem x := by
  simp only [isSupernetOf,decide_eq_true_eq]
  constructor
  · rintro ⟨hle,ha⟩ x hx
    exact (div_pow_congr (Nat.sub_le_sub_left hle 32) hx).trans ha
  · intro h
    have ha := h o.addr rfl
    refine ⟨?_,ha⟩
    by_contra hlt
    -- an address of `o` that differs from its own address in a bit that `n` fixes
    obtain ⟨x,hne,hx⟩ := exists_flip o.addr.value (32 - n.length)
    have hn := n.length_le
    have hmem : x / 2 ^ (32 - o.length) = o.addr.value / 2 ^ (32 - o.length) := div_pow_congr (by omega) hx
    have hb : x < 2 ^ 32 := by
      have ht : x / 2 ^ 32 = o.addr.value / 2 ^ 32 := div_pow_congr (by omega) hmem
      rw [Nat.div_eq_of_lt (value_lt o.addr)] at ht
      exact Nat.lt_of_div_eq_zero (by norm_num) ht
    have hx' : o.Mem (ofValue x) := by
      rw [Ipv4Network.Mem,value_ofValue hb]
      exact hmem
    have hc := h (ofValue x) hx'
    rw [Ipv4Network.Mem,value_ofValue hb] at hc
    exact hne (hc.trans ha.symm)

def externals : Externals where
  compile := compile
  parseNetwork := parseNetwork
  isSupernetOf := isSupernetOf
  isIpv6 := fun _ => false

theorem lawfulRegex : LawfulRegex externals := by
  intro ts hts r hr s
  have hc : compile ('^' :: (tokensText ts ++ ['$'])) = some (accepts regexClasses ts) := by
    rw [compile,readTokens_tokensText hts]
    exact if_pos rfl
  have hs : some (accepts regexClasses ts) = some r := hc.symm.trans hr
  rw [Option.some.inj hs]

theorem lawfulNetworks : LawfulNetworks externals where
  supernet := isSupernetOf_iff
  parse_text := parseNetwork_text

def pattern (name : Str) (hdot : name.getLast? = some '.')
    (hstars : contains stars name = true → startsWith stars name = true)
    (hc : (compile (regexText name)).isSome = true) : Pattern externals :=
  ⟨name,(compile (regexText name)).get hc,hdot,hstars,(Option.some_get hc).symm⟩

end Padsi.Net.Reference
