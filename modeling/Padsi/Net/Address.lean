import Padsi.Lib.Rust
import Padsi.Lib.Text

/-! # Names, addresses and the libraries behind them

Compiled expressions are their matching function; networks are parsed and compared by
the library.
-/
namespace Padsi.Net
open Text List

structure Ipv4Addr where
  a : UInt8
  b : UInt8
  c : UInt8
  d : UInt8
deriving DecidableEq, Repr

def Ipv4Addr.value (x : Ipv4Addr) : ℕ :=
  2 ^ 24 * x.a.toNat + 2 ^ 16 * x.b.toNat + 2 ^ 8 * x.c.toNat + x.d.toNat

def octet (s : Str) : Option UInt8 :=
  if s ≠ [] ∧ s.all Char.isDigit ∧ (s.length = 1 ∨ (s.length ≤ 3 ∧ ¬ ['0'] <+: s)) ∧ Nat.ofDigitChars 10 s 0 < 256 then
    some (UInt8.ofNat (Nat.ofDigitChars 10 s 0))
  else none

def Ipv4Addr.parse (s : Str) : Option Ipv4Addr :=
  match s.splitOn '.' with
  | [a,b,c,d] => do return ⟨← octet a,← octet b,← octet c,← octet d⟩
  | _ => none

def octetText (x : UInt8) : Str := Nat.toDigits 10 x.toNat
def Ipv4Addr.text (x : Ipv4Addr) : Str :=
  ['.'].intercalate [octetText x.a,octetText x.b,octetText x.c,octetText x.d]

structure Ipv4Network where
  addr : Ipv4Addr
  length : ℕ
  length_le : length ≤ 32
deriving DecidableEq

theorem Ipv4Network.hostLength_le : (32 : ℕ) ≤ 32 := le_rfl

def Ipv4Network.Mem (n : Ipv4Network) (x : Ipv4Addr) : Prop :=
  x.value / 2 ^ (32 - n.length) = n.addr.value / 2 ^ (32 - n.length)

instance (n : Ipv4Network) (x : Ipv4Addr) : Decidable (n.Mem x) :=
  inferInstanceAs (Decidable (_ = _))
def Ipv4Network.text (n : Ipv4Network) : Str := n.addr.text ++ '/' :: Nat.toDigits 10 n.length

/-- The functions of other libraries: expressions, networks and the IPv6 half of `IpAddr::from_str`. -/
structure Externals where
  compile : Str → Option (Str → Bool)
  parseNetwork : Str → Option Ipv4Network
  isSupernetOf : Ipv4Network → Ipv4Network → Bool
  isIpv6 : Str → Bool

/-- The documented meaning of the network library. -/
structure LawfulNetworks (E : Externals) : Prop where
  supernet : ∀ n o, E.isSupernetOf n o = true ↔ ∀ x, o.Mem x → n.Mem x
  parse_text : ∀ n, E.parseNetwork n.text = some n

inductive DomainError where
  | noFinalDot
  | starInName
  | starsInside
  | regex
deriving DecidableEq, Repr

structure Name where
  text : Str
  dotted : text.getLast? = some '.'
  starless : '*' ∉ text
deriving DecidableEq

def Name.new (name : Str) : Except DomainError Name :=
  if hd : name.getLast? = some '.' then
    if hs : contains ['*'] name = true then .error .starInName
    else .ok ⟨name,hd,fun h => hs (contains_singleton.2 h)⟩
  else .error .noFinalDot

def Name.contains (n other : Name) : Bool := decide (n.text = other.text)

theorem Name.new_eq_ok {s : Str} {n : Name} : Name.new s = .ok n ↔ n.text = s := by
  simp only [Name.new,contains_singleton]
  constructor
  · intro h
    split at h
    · split at h
      · cases h
      · cases h
        rfl
    · cases h
  · rintro rfl
    rw [dif_pos n.dotted,dif_neg n.starless]

theorem isDigit_of_mem_octetText {x : UInt8} {c : Char} (h : c ∈ octetText x) : c.isDigit = true :=
  Nat.isDigit_of_mem_toDigits (by decide) (by decide) h

theorem octet_octetText (x : UInt8) : octet (octetText x) = some x := by
  have ha : ∀ k : Fin 256, octet (Nat.toDigits 10 k.val) = some (UInt8.ofNat k.val) := by decide +kernel
  have hx := ha ⟨x.toNat,x.toNat_lt⟩
  rwa [UInt8.ofNat_toNat] at hx

theorem Ipv4Addr.parse_text (x : Ipv4Addr) : Ipv4Addr.parse x.text = some x := by
  have hd : ∀ y : UInt8, '.' ∉ octetText y := fun y h => absurd (isDigit_of_mem_octetText h) (by decide)
  have hsplit : x.text.splitOn '.' = [octetText x.a,octetText x.b,octetText x.c,octetText x.d] :=
    splitOn_intercalate '.' (by simp [hd]) (by simp)
  simp [parse,hsplit,octet_octetText]

theorem octet_digits {s : Str} {x : UInt8} (h : octet s = some x) : s ≠ [] ∧ ∀ c ∈ s, c.isDigit = true := by
  unfold octet at h
  split at h
  · rename_i hs
    exact ⟨hs.1,all_eq_true.1 hs.2.1⟩
  · cases h

theorem Ipv4Addr.parse_cases {s : Str} {x : Ipv4Addr} (h : parse s = some x) :
    ∃ a b c d, s.splitOn '.' = [a,b,c,d] ∧ octet a = some x.a ∧ octet b = some x.b ∧ octet c = some x.c ∧
      octet d = some x.d := by
  unfold parse at h
  split at h
  · rename_i a b c d hsplit
    simp only [Option.bind_eq_bind,Option.bind_eq_some_iff,Option.pure_def,Option.some.injEq] at h
    obtain ⟨_,ha,_,hb,_,hc,_,hd,rfl⟩ := h
    exact ⟨a,b,c,d,hsplit,ha,hb,hc,hd⟩
  · cases h

theorem Ipv4Addr.chars_of_parse {s : Str} {x : Ipv4Addr} (h : parse s = some x) :
    ∀ k ∈ s, k.isDigit = true ∨ k = '.' := by
  obtain ⟨a,b,c,d,hsplit,ha,hb,hc,hd⟩ := parse_cases h
  intro k hk
  have hj : ['.'].intercalate [a,b,c,d] = s := by rw [← hsplit,intercalate_splitOn]
  rcases mem_of_mem_intercalate (hj ▸ hk) with hk | ⟨p,hp,hk⟩
  · exact .inr (mem_singleton.1 hk)
  · simp only [mem_cons,not_mem_nil,or_false] at hp
    rcases hp with rfl | rfl | rfl | rfl
    · exact .inl ((octet_digits ha).2 k hk)
    · exact .inl ((octet_digits hb).2 k hk)
    · exact .inl ((octet_digits hc).2 k hk)
    · exact .inl ((octet_digits hd).2 k hk)

theorem Ipv4Addr.last_of_parse {s : Str} {x : Ipv4Addr} (h : parse s = some x) : s.getLast? ≠ some '.' := by
  obtain ⟨a,b,c,d,hsplit,_,_,_,hd⟩ := parse_cases h
  intro hl
  obtain ⟨u,rfl⟩ := getLast?_eq_some_iff.1 hl
  have he : (u ++ ['.']).splitOn '.' = u.splitOn '.' ++ [[]] := splitOn_append_cons_self u []
  have hem : [] = d := by
    have hli := congrArg getLast? (he.symm.trans hsplit)
    simpa using hli
  exact (octet_digits hd).1 hem.symm

theorem Ipv4Network.splitOn_text (n : Ipv4Network) :
    n.text.splitOn '/' = [n.addr.text,Nat.toDigits 10 n.length] := by
  have hs : ∀ y : UInt8, '/' ∉ octetText y := fun y h => absurd (isDigit_of_mem_octetText h) (by decide)
  have ha : '/' ∉ n.addr.text := by simp [Ipv4Addr.text,intercalate,hs]
  have hl : '/' ∉ Nat.toDigits 10 n.length := fun h =>
    absurd (Nat.isDigit_of_mem_toDigits (by decide) (by decide) h) (by decide)
  have hj : n.text = ['/'].intercalate [n.addr.text,Nat.toDigits 10 n.length] := by
    simp [Ipv4Network.text,intercalate]
  rw [hj]
  exact splitOn_intercalate '/' (by simp [ha,hl]) (by simp)

end Padsi.Net
