import Mathlib

/-! # Partial operations of a Rust program

The byte order of the target and the overflow checks of the build profile are parameters.
-/
namespace Padsi.Rust
open List UInt8

structure Target where
  littleEndian : Bool
  overflowChecks : Bool
deriving DecidableEq, Repr

inductive Panic where
  | sliceIndex
  | arithmetic
  | charBoundary
  | unwrap
  | explicit
  | poisoned
deriving DecidableEq, Repr

abbrev Partial (α : Type) := Except Panic α

variable {α β : Type}

def Returns (p : Partial α) : Prop := ∃ a, p = .ok a

@[simp] theorem returns_ok (a : α) : Returns (.ok a : Partial α) := ⟨a,rfl⟩
@[simp] theorem not_returns_error (e : Panic) : ¬ Returns (.error e : Partial α) := by
  rintro ⟨a,h⟩
  cases h

@[simp] theorem pure_eq_ok (a : α) : (pure a : Partial α) = .ok a := (rfl)
@[simp] theorem ok_bind (a : α) (f : α → Partial β) : ((Except.ok a : Partial α) >>= f) = f a := (rfl)
@[simp] theorem error_bind (e : Panic) (f : α → Partial β) :
    ((Except.error e : Partial α) >>= f) = .error e := (rfl)

theorem bind_eq_ok {x : Partial α} {f : α → Partial β} {b : β} :
    (x >>= f) = .ok b ↔ ∃ a, x = .ok a ∧ f a = .ok b := by
  cases x with
  | ok a => simp
  | error e => simp

theorem returns_bind {x : Partial α} {f : α → Partial β} :
    Returns (x >>= f) ↔ ∃ a, x = .ok a ∧ Returns (f a) := by
  cases x with
  | ok a => simp
  | error e => simp

structure Exactly (x : Partial α) (p : Prop) (a : α) : Prop where
  eq : p → x = .ok a
  cond : Returns x → p

theorem exactly_ok (a : α) : Exactly (.ok a) True a := ⟨fun _ => rfl,fun _ => trivial⟩

namespace Exactly
variable {x : Partial α} {f : α → Partial β} {p q : Prop} {a : α} {b : β}

theorem iff (h : Exactly x p a) : Returns x ↔ p := ⟨h.cond,fun hp => ⟨a,h.eq hp⟩⟩
theorem congr (h : Exactly x p a) (hpq : p ↔ q) : Exactly x q a :=
  ⟨fun hq => h.eq (hpq.2 hq),fun hr => hpq.1 (h.cond hr)⟩

theorem bind (h : Exactly x p a) (hf : Exactly (f a) q b) : Exactly (x >>= f) (p ∧ q) b where
  eq hpq := by rw [h.eq hpq.1,ok_bind,hf.eq hpq.2]
  cond hr := by
    obtain ⟨a',ha,hr⟩ := returns_bind.1 hr
    have hp := h.cond ⟨a',ha⟩
    cases ha.symm.trans (h.eq hp)
    exact ⟨hp,hf.cond hr⟩

theorem bind_ok (h : Exactly x p a) (hf : f a = .ok b) : Exactly (x >>= f) p b :=
  (h.bind (hf ▸ exactly_ok b)).congr (and_iff_left trivial)

end Exactly

abbrev Attempt (ε α : Type) := Partial (Except ε α)

variable {ε : Type}

def andThen (x : Attempt ε α) (f : α → Attempt ε β) : Attempt ε β :=
  match x with
  | .ok (.ok a) => f a
  | .ok (.error e) => .ok (.error e)
  | .error p => .error p

def collect (f : α → Attempt ε β) : List α → Attempt ε (List β)
  | [] => .ok (.ok [])
  | x :: xs => andThen (f x) fun y => andThen (collect f xs) fun ys => .ok (.ok (y :: ys))

variable {f : α → Attempt ε β} {xs : List α} {a b : ℕ}

theorem andThen_eq_ok {x : Attempt ε α} {b : β} :
    andThen x f = .ok (.ok b) ↔ ∃ a, x = .ok (.ok a) ∧ f a = .ok (.ok b) := by
  rcases x with p | e | a <;> simp [andThen]

@[simp] theorem andThen_ok (a : α) (f : α → Attempt ε β) : andThen (.ok (.ok a)) f = f a := (rfl)

theorem collect_map {g : β → α} (ys : List β) (hf : ∀ y ∈ ys, f (g y) = .ok (.ok y)) :
    collect f (ys.map g) = .ok (.ok ys) := by
  induction ys with
  | nil => rfl
  | cons y ys ih =>
    rw [map_cons, collect, hf y mem_cons_self, andThen_ok, ih (fun z hz => hf z (mem_cons_of_mem _ hz))]
    rfl

theorem mem_of_collect {ys : List β} (h : collect f xs = .ok (.ok ys)) :
    ∀ y ∈ ys, ∃ x ∈ xs, f x = .ok (.ok y) := by
  induction xs generalizing ys with
  | nil =>
    cases h
    simp
  | cons x xs ih =>
    obtain ⟨z,hz,h⟩ := andThen_eq_ok.1 h
    obtain ⟨zs,hzs,h⟩ := andThen_eq_ok.1 h
    cases h
    intro y hy
    rcases mem_cons.1 hy with rfl | hy
    · exact ⟨x,mem_cons_self,hz⟩
    · obtain ⟨x',hx',hf'⟩ := ih hzs y hy
      exact ⟨x',mem_cons_of_mem _ hx',hf'⟩

def slice (xs : List α) (a b : ℕ) : Partial (List α) :=
  if a ≤ b ∧ b ≤ xs.length then .ok ((xs.drop a).take (b - a)) else .error .sliceIndex
theorem slice_ok (h : a ≤ b) (hb : b ≤ xs.length) :
    slice xs a b = .ok ((xs.drop a).take (b - a)) := if_pos ⟨h,hb⟩
theorem slice_of_gt (h : b < a) : slice xs a b = .error .sliceIndex :=
  if_neg (fun hab => absurd hab.1 (Nat.not_le.2 h))

theorem slice_append (xs ys zs : List α) (ha : a = xs.length) (hb : b = xs.length + ys.length) :
    slice (xs ++ ys ++ zs) a b = .ok ys := by
  subst ha hb
  rw [slice_ok (by omega) (by simp)]
  simp

def splice (xs : List α) (a b : ℕ) (ys : List α) : Partial (List α) :=
  if a ≤ b ∧ b ≤ xs.length then .ok (xs.take a ++ ys ++ xs.drop b) else .error .sliceIndex
theorem splice_ok (ys : List α) (h : a ≤ b) (hb : b ≤ xs.length) :
    splice xs a b ys = .ok (xs.take a ++ ys ++ xs.drop b) := if_pos ⟨h,hb⟩
@[irreducible] def usizeModulus : ℕ := 2 ^ 64
theorem usizeModulus_gt : 65536 < usizeModulus := by norm_num [usizeModulus]

section
variable (T : Target)

def usizeSub (a b : ℕ) : Partial ℕ :=
  if b ≤ a then .ok (a - b) else if T.overflowChecks then .error .arithmetic else .ok (a + usizeModulus - b)
theorem usizeSub_of_le (h : b ≤ a) : usizeSub T a b = .ok (a - b) := if_pos h

theorem usizeSub_of_lt (h : a < b) :
    usizeSub T a b = if T.overflowChecks then .error .arithmetic else .ok (a + usizeModulus - b) :=
  if_neg (Nat.not_le.2 h)

def u32OfLe (b0 b1 b2 b3 : UInt8) : UInt32 :=
  UInt32.ofNat (b0.toNat + 2 ^ 8 * b1.toNat + 2 ^ 16 * b2.toNat + 2 ^ 24 * b3.toNat)
def u16OfLe (b0 b1 : UInt8) : UInt16 := UInt16.ofNat (b0.toNat + 2 ^ 8 * b1.toNat)

def u32FromNeBytes : List UInt8 → Option UInt32
  | [b0,b1,b2,b3] => some (if T.littleEndian then u32OfLe b0 b1 b2 b3 else u32OfLe b3 b2 b1 b0)
  | _ => none

def u16FromNeBytes : List UInt8 → Option UInt16
  | [b0,b1] => some (if T.littleEndian then u16OfLe b0 b1 else u16OfLe b1 b0)
  | _ => none

def u32ToLe (x : UInt32) : List UInt8 :=
  [UInt8.ofNat x.toNat, UInt8.ofNat (x.toNat / 2 ^ 8), UInt8.ofNat (x.toNat / 2 ^ 16),
    UInt8.ofNat (x.toNat / 2 ^ 24)]

def u16ToLe (x : UInt16) : List UInt8 := [UInt8.ofNat x.toNat, UInt8.ofNat (x.toNat / 2 ^ 8)]
def u32ToNeBytes (x : UInt32) : List UInt8 :=
  if T.littleEndian then u32ToLe x else (u32ToLe x).reverse
def u16ToNeBytes (x : UInt16) : List UInt8 :=
  if T.littleEndian then u16ToLe x else (u16ToLe x).reverse

@[simp] theorem u32ToNeBytes_length (x : UInt32) : (u32ToNeBytes T x).length = 4 := by
  unfold u32ToNeBytes u32ToLe
  split <;> rfl

@[simp] theorem u16ToNeBytes_length (x : UInt16) : (u16ToNeBytes T x).length = 2 := by
  unfold u16ToNeBytes u16ToLe
  split <;> rfl

@[simp] theorem u32FromNeBytes_toNeBytes (x : UInt32) : u32FromNeBytes T (u32ToNeBytes T x) = some x := by
  have hx := x.toNat_lt
  have hv : u32OfLe (ofNat x.toNat) (ofNat (x.toNat / 2 ^ 8))
      (ofNat (x.toNat / 2 ^ 16)) (ofNat (x.toNat / 2 ^ 24)) = x := by
    apply UInt32.toNat_inj.1
    simp only [u32OfLe,UInt32.toNat_ofNat',toNat_ofNat']
    omega
  cases h : T.littleEndian <;>
    simp only [u32ToNeBytes,u32ToLe,h,u32FromNeBytes,↓reduceIte,Bool.false_eq_true,reverse_cons,
      reverse_nil,nil_append,cons_append,hv]

@[simp] theorem u16FromNeBytes_toNeBytes (x : UInt16) : u16FromNeBytes T (u16ToNeBytes T x) = some x := by
  have hx := x.toNat_lt
  have hv : u16OfLe (ofNat x.toNat) (ofNat (x.toNat / 2 ^ 8)) = x := by
    apply UInt16.toNat_inj.1
    simp only [u16OfLe,UInt16.toNat_ofNat',toNat_ofNat']
    omega
  cases h : T.littleEndian <;>
    simp only [u16ToNeBytes,u16ToLe,h,u16FromNeBytes,↓reduceIte,Bool.false_eq_true,reverse_cons,
      reverse_nil,nil_append,cons_append,hv]

theorem u32ToNeBytes_of_eq {bs : List UInt8} {x : UInt32} (h : u32FromNeBytes T bs = some x) :
    u32ToNeBytes T x = bs := by
  have hle : ∀ b0 b1 b2 b3, u32ToLe (u32OfLe b0 b1 b2 b3) = [b0,b1,b2,b3] := by
    intro b0 b1 b2 b3
    have h0 := b0.toNat_lt
    have h1 := b1.toNat_lt
    have h2 := b2.toNat_lt
    have h3 := b3.toNat_lt
    simp only [u32ToLe,u32OfLe,UInt32.toNat_ofNat',cons.injEq,← UInt8.toNat_inj,UInt8.toNat_ofNat',and_true]
    omega
  unfold u32FromNeBytes at h
  split at h
  · cases h
    unfold u32ToNeBytes
    split_ifs
    · exact hle _ _ _ _
    · rw [hle]
      rfl
  · cases h

theorem u16ToNeBytes_of_eq {bs : List UInt8} {x : UInt16} (h : u16FromNeBytes T bs = some x) :
    u16ToNeBytes T x = bs := by
  have hle : ∀ b0 b1, u16ToLe (u16OfLe b0 b1) = [b0,b1] := by
    intro b0 b1
    have h0 := b0.toNat_lt
    have h1 := b1.toNat_lt
    simp only [u16ToLe,u16OfLe,UInt16.toNat_ofNat',cons.injEq,← UInt8.toNat_inj,UInt8.toNat_ofNat',and_true]
    omega
  unfold u16FromNeBytes at h
  split at h
  · cases h
    unfold u16ToNeBytes
    split_ifs
    · exact hle _ _
    · rw [hle]
      rfl
  · cases h

end

def containsSub [BEq α] (t s : List α) : Bool := s.tails.any (fun u => t.isPrefixOf u)

theorem containsSub_iff [BEq α] [LawfulBEq α] {t s : List α} : containsSub t s = true ↔ t <:+: s := by
  simp only [containsSub,any_eq_true,mem_tails, isPrefixOf_iff_prefix]
  constructor
  · rintro ⟨u,hu,ht⟩
    exact ht.isInfix.trans hu.isInfix
  · rintro ⟨a,b,rfl⟩
    exact ⟨t ++ b, ⟨a, by simp⟩, prefix_append _ _⟩

end Padsi.Rust
