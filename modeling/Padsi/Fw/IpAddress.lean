import Padsi.Lib.Json
import Padsi.Net.Reference

/-! # IPv4 values of Python -/
namespace Padsi.Fw
open Text Net List Ipv4Addr

inductive Exc where
  | firewall (text : Str)
  | value
  | regex
  | index
  | fault (f : Python.Fault)
  | subFlows
  | prog (text : Str)
deriving DecidableEq, Repr

inductive NetworkError where
  | address
  | value
deriving DecidableEq, Repr

def prefixOfMask (m : ℕ) : Option ℕ := (range 33).find? fun p => decide (m = 2 ^ 32 - 2 ^ (32 - p))

def prefixOf (s : Str) : Option ℕ :=
  if s ≠ [] ∧ s.all Char.isDigit ∧ Nat.ofDigitChars 10 s 0 ≤ 32 then some (Nat.ofDigitChars 10 s 0)
  else
    match Ipv4Addr.parse s with
    | none => none
    | some x => (prefixOfMask x.value).orElse fun _ => prefixOfMask (2 ^ 32 - 1 - x.value)

theorem prefixOfMask_le {m p : ℕ} (h : prefixOfMask m = some p) : p ≤ 32 :=
  Nat.lt_succ_iff.1 (mem_range.1 (mem_of_find?_eq_some h))

theorem prefixOf_le {s : Str} {p : ℕ} (h : prefixOf s = some p) : p ≤ 32 := by
  unfold prefixOf at h
  split at h
  · rename_i hd
    cases h
    exact hd.2.2
  · split at h
    · cases h
    · rename_i x _
      cases hm : prefixOfMask x.value with
      | some q =>
        rw [hm] at h
        cases h
        exact prefixOfMask_le hm
      | none =>
        rw [hm] at h
        exact prefixOfMask_le h

def networkOf (x : Ipv4Addr) (mask : Str) : Option Ipv4Network :=
  match h : prefixOf mask with
  | none => none
  | some p => some ⟨x,p,prefixOf_le h⟩

def interface (s : Str) : Option Ipv4Network :=
  match s.splitOn '/' with
  | [a] => (Ipv4Addr.parse a).map fun x => ⟨x,32,Ipv4Network.hostLength_le⟩
  | [a,m] => (Ipv4Addr.parse a).bind fun x => networkOf x m
  | _ => none

def Strict (n : Ipv4Network) : Prop := n.addr.value % 2 ^ (32 - n.length) = 0

instance (n : Ipv4Network) : Decidable (Strict n) := inferInstanceAs (Decidable (_ = _))

def network (s : Str) : Except NetworkError Ipv4Network :=
  match s.splitOn '/' with
  | [a] =>
    match Ipv4Addr.parse a with
    | none => .error .address
    | some x => .ok ⟨x,32,Ipv4Network.hostLength_le⟩
  | [a,m] =>
    match Ipv4Addr.parse a with
    | none => .error .address
    | some x =>
      match networkOf x m with
      | none => .error .value
      | some n => if Strict n then .ok n else .error .value
  | _ => .error .address

def isIpv4Element (item : Str) : Except Exc Bool :=
  match Ipv4Addr.parse item with
  | some _ => .ok true
  | none =>
    match network item with
    | .ok _ => .ok true
    | .error .address => .ok false
    | .error .value => .error .value

def broadcast (n : Ipv4Network) : ℕ := n.addr.value + 2 ^ (32 - n.length) - 1
def subnetOf (a b : Ipv4Network) : Bool := decide (b.addr.value ≤ a.addr.value ∧ broadcast a ≤ broadcast b)

theorem value_injective {x y : Ipv4Addr} (h : x.value = y.value) : x = y := by
  have hx := x.b.toNat_lt
  have hx' := x.c.toNat_lt
  have hx'' := x.d.toNat_lt
  have hy := y.b.toNat_lt
  have hy' := y.c.toNat_lt
  have hy'' := y.d.toNat_lt
  obtain ⟨a,b,c,d⟩ := x
  obtain ⟨a',b',c',d'⟩ := y
  simp only [value] at *
  have ha : a = a' := UInt8.toNat_inj.1 (by omega)
  have hb : b = b' := UInt8.toNat_inj.1 (by omega)
  have hc : c = c' := UInt8.toNat_inj.1 (by omega)
  have hd : d = d' := UInt8.toNat_inj.1 (by omega)
  rw [ha,hb,hc,hd]

theorem parse_networkText (n : Ipv4Network) : parse n.text = none := by
  rw [Option.eq_none_iff_forall_ne_some]
  intro x h
  have hs : '/' ∈ n.text := mem_append_right _ mem_cons_self
  exact absurd (chars_of_parse h '/' hs) (by decide)

theorem prefixOf_toDigits {p : ℕ} (hp : p ≤ 32) : prefixOf (Nat.toDigits 10 p) = some p := by
  have ha : ∀ k : Fin 33, prefixOf (Nat.toDigits 10 k.val) = some k.val := by decide +kernel
  exact ha ⟨p,Nat.lt_succ_iff.2 hp⟩

theorem networkOf_toDigits (n : Ipv4Network) : networkOf n.addr (Nat.toDigits 10 n.length) = some n := by
  unfold networkOf
  split
  · rename_i h
    rw [prefixOf_toDigits n.length_le] at h
    cases h
  · rename_i p h
    rw [prefixOf_toDigits n.length_le] at h
    cases h
    rfl

theorem network_text (n : Ipv4Network) : network n.text = if Strict n then .ok n else .error .value := by
  rw [network,n.splitOn_text]
  simp only [parse_text,networkOf_toDigits]

theorem isIpv4Element_address (x : Ipv4Addr) : isIpv4Element x.text = .ok true := by
  rw [isIpv4Element,x.parse_text]

theorem isIpv4Element_network (n : Ipv4Network) :
    isIpv4Element n.text = if Strict n then .ok true else .error .value := by
  rw [isIpv4Element,parse_networkText,network_text]
  by_cases h : Strict n
  · simp only [if_pos h]
  · simp only [if_neg h]

theorem mem_iff_of_strict {n : Ipv4Network} (hn : Strict n) (x : Ipv4Addr) :
    n.Mem x ↔ n.addr.value ≤ x.value ∧ x.value ≤ broadcast n := by
  have hp : 0 < 2 ^ (32 - n.length) := Nat.two_pow_pos _
  have ha : n.addr.value / 2 ^ (32 - n.length) * 2 ^ (32 - n.length) = n.addr.value :=
    Nat.div_mul_cancel (Nat.dvd_of_mod_eq_zero hn)
  rw [Ipv4Network.Mem,Nat.div_eq_iff hp,ha,broadcast]

theorem broadcast_lt {n : Ipv4Network} (hn : Strict n) : broadcast n < 2 ^ 32 := by
  obtain ⟨q,hq⟩ := Nat.dvd_of_mod_eq_zero hn
  have hsplit : 2 ^ 32 = 2 ^ (32 - n.length) * 2 ^ n.length := by
    rw [← pow_add,Nat.sub_add_cancel n.length_le]
  have hlt := Reference.value_lt n.addr
  rw [hq,hsplit] at hlt
  have hne : q + 1 ≤ 2 ^ n.length := Nat.lt_of_mul_lt_mul_left hlt
  have hm : 2 ^ (32 - n.length) * (q + 1) ≤ 2 ^ 32 := hsplit ▸ Nat.mul_le_mul_left _ hne
  have hp : 0 < 2 ^ (32 - n.length) := Nat.two_pow_pos _
  rw [broadcast,hq]
  rw [Nat.mul_add_one] at hm
  omega

theorem subnetOf_iff {n m : Ipv4Network} (hn : Strict n) (hm : Strict m) :
    subnetOf n m = true ↔ ∀ x, n.Mem x → m.Mem x := by
  simp only [subnetOf,decide_eq_true_eq,mem_iff_of_strict hn,mem_iff_of_strict hm]
  have hs : n.addr.value ≤ broadcast n := by
    have hp : 0 < 2 ^ (32 - n.length) := Nat.two_pow_pos _
    simp only [broadcast]
    omega
  constructor
  · intro h x hx
    exact ⟨h.1.trans hx.1,hx.2.trans h.2⟩
  · intro h
    have hl := h (Reference.ofValue (broadcast n))
    rw [Reference.value_ofValue (broadcast_lt hn)] at hl
    exact ⟨(h n.addr ⟨le_rfl,hs⟩).1,(hl ⟨hs,le_rfl⟩).2⟩

end Padsi.Fw
