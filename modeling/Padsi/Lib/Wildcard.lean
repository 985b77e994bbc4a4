import Mathlib

/-! # Wildcard languages

Inclusion of one language in another is reduced to the acceptance of one string in which
every wildcard is replaced by a character that the larger pattern does not name.
-/
namespace Padsi.Wildcard
open List

variable {α : Type}

inductive Tok (α : Type) where
  | lit (a : α)
  | star
  | plus
  | any
deriving DecidableEq

structure Classes (α : Type) where
  inner : α → Bool
  wide : α → Bool

def many (p : α → Bool) (k : List α → Bool) : List α → Bool
  | [] => k []
  | c :: s => k (c :: s) || (p c && many p k s)

def accepts [DecidableEq α] (C : Classes α) : List (Tok α) → List α → Bool
  | [], s => s.isEmpty
  | .lit a :: ts, s =>
    match s with
    | c :: s => decide (c = a) && accepts C ts s
    | [] => false
  | .star :: ts, s => many C.inner (accepts C ts) s
  | .plus :: ts, s =>
    match s with
    | c :: s => C.inner c && many C.inner (accepts C ts) s
    | [] => false
  | .any :: ts, s => many C.wide (accepts C ts) s

def Segment (C : Classes α) : Tok α → List α → Prop
  | .lit a, u => u = [a]
  | .star, u => ∀ c ∈ u, C.inner c = true
  | .plus, u => u ≠ [] ∧ ∀ c ∈ u, C.inner c = true
  | .any, u => ∀ c ∈ u, C.wide c = true

theorem many_iff {p : α → Bool} {k : List α → Bool} {s : List α} :
    many p k s = true ↔ ∃ u v, s = u ++ v ∧ (∀ c ∈ u, p c = true) ∧ k v = true := by
  induction s with
  | nil =>
    constructor
    · intro h
      exact ⟨[],[],rfl,by simp,h⟩
    · rintro ⟨u,v,huv,_,hk⟩
      obtain ⟨rfl,rfl⟩ := append_eq_nil_iff.1 huv.symm
      exact hk
  | cons c s ih =>
    simp only [many,Bool.or_eq_true,Bool.and_eq_true,ih]
    constructor
    · rintro (h | ⟨hc,u,v,rfl,hu,hk⟩)
      · exact ⟨[],c :: s,rfl,by simp,h⟩
      · exact ⟨c :: u,v,rfl,forall_mem_cons.2 ⟨hc,hu⟩,hk⟩
    · rintro ⟨u,v,huv,hu,hk⟩
      cases u with
      | nil =>
        cases huv
        exact Or.inl hk
      | cons d u =>
        cases huv
        exact Or.inr ⟨hu c mem_cons_self,u,v,rfl,fun x hx => hu x (mem_cons_of_mem _ hx),hk⟩

section
variable [DecidableEq α] {C D : Classes α}

variable {s : List α} {ts : List (Tok α)}

@[simp] theorem accepts_nil : accepts C [] s = true ↔ s = [] := by
  simp [accepts]

theorem accepts_cons {t : Tok α} :
    accepts C (t :: ts) s = true ↔ ∃ u v, s = u ++ v ∧ Segment C t u ∧ accepts C ts v = true := by
  cases t with
  | lit a =>
    cases s with
    | nil =>
      simp only [accepts,Bool.false_eq_true,false_iff]
      rintro ⟨u,v,huv,rfl,_⟩
      cases huv
    | cons c s =>
      simp only [accepts,Bool.and_eq_true,decide_eq_true_eq]
      constructor
      · rintro ⟨rfl,h⟩
        exact ⟨[c],s,rfl,rfl,h⟩
      · rintro ⟨u,v,huv,rfl,h⟩
        cases huv
        exact ⟨rfl,h⟩
  | star => exact many_iff
  | plus =>
    cases s with
    | nil =>
      simp only [accepts,Bool.false_eq_true,false_iff]
      rintro ⟨u,v,huv,⟨hu,_⟩,_⟩
      exact hu (append_eq_nil_iff.1 huv.symm).1
    | cons c s =>
      simp only [accepts,Bool.and_eq_true,many_iff]
      constructor
      · rintro ⟨hc,u,v,rfl,hu,h⟩
        exact ⟨c :: u,v,rfl,⟨by simp,forall_mem_cons.2 ⟨hc,hu⟩⟩,h⟩
      · rintro ⟨u,v,huv,⟨hne,hu⟩,h⟩
        cases u with
        | nil => exact absurd rfl hne
        | cons d u =>
          cases huv
          exact ⟨hu c mem_cons_self,u,v,rfl,fun x hx => hu x (mem_cons_of_mem _ hx),h⟩
  | any => exact many_iff

theorem accepts_append {us : List (Tok α)} :
    accepts C (ts ++ us) s = true ↔ ∃ u v, s = u ++ v ∧ accepts C ts u = true ∧ accepts C us v = true := by
  induction ts generalizing s with
  | nil =>
    simp only [nil_append,accepts_nil]
    constructor
    · intro h
      exact ⟨[],s,rfl,rfl,h⟩
    · rintro ⟨u,v,rfl,rfl,h⟩
      exact h
  | cons t ts ih =>
    rw [cons_append,accepts_cons]
    constructor
    · rintro ⟨u,v,rfl,hu,hv⟩
      obtain ⟨x,y,rfl,hx,hy⟩ := ih.1 hv
      exact ⟨u ++ x,y,by simp,accepts_cons.2 ⟨u,x,rfl,hu,hx⟩,hy⟩
    · rintro ⟨u,v,rfl,hu,hv⟩
      obtain ⟨x,y,rfl,hx,hy⟩ := accepts_cons.1 hu
      exact ⟨x,y ++ v,by simp,hx,ih.2 ⟨y,v,rfl,hy,hv⟩⟩

theorem accepts_of_classes (h : accepts C ts s = true)
    (hi : ∀ c ∈ s, C.inner c = true → D.inner c = true) (hw : ∀ c ∈ s, C.wide c = true → D.wide c = true) :
    accepts D ts s = true := by
  induction ts generalizing s with
  | nil => exact accepts_nil.2 (accepts_nil.1 h)
  | cons t ts ih =>
    obtain ⟨u,v,rfl,hu,hv⟩ := accepts_cons.1 h
    refine accepts_cons.2 ⟨u,v,rfl,?_,ih hv (fun c hc => hi c (mem_append_right u hc))
      (fun c hc => hw c (mem_append_right u hc))⟩
    cases t with
    | lit a => exact hu
    | star => exact fun c hc => hi c (mem_append_left v hc) (hu c hc)
    | plus => exact ⟨hu.1,fun c hc => hi c (mem_append_left v hc) (hu.2 c hc)⟩
    | any => exact fun c hc => hw c (mem_append_left v hc) (hu c hc)

theorem accepts_any_append {u : List α} (h : accepts C (.any :: ts) s = true)
    (hu : ∀ c ∈ u, C.wide c = true) : accepts C (.any :: ts) (u ++ s) = true := by
  obtain ⟨x,y,rfl,hx,hy⟩ := accepts_cons.1 h
  refine accepts_cons.2 ⟨u ++ x,y,by simp,?_,hy⟩
  intro c hc
  rcases mem_append.1 hc with hc | hc
  · exact hu c hc
  · exact hx c hc

end

def subst (w : List α) : Tok α → List α
  | .lit a => [a]
  | _ => w

theorem accepts_subst [DecidableEq α] {C : Classes α} {w : List α} (hw : w ≠ [])
    (hi : ∀ c ∈ w, C.inner c = true) (hwi : ∀ c ∈ w, C.wide c = true) (ts : List (Tok α)) :
    accepts C ts (ts.flatMap (subst w)) = true := by
  induction ts with
  | nil => simp
  | cons t ts ih =>
    refine accepts_cons.2 ⟨subst w t,ts.flatMap (subst w),rfl,?_,ih⟩
    cases t with
    | lit a => rfl
    | star => exact hi
    | plus => exact ⟨hw,hi⟩
    | any => exact hwi

def fill (f : α) : Tok α → α
  | .lit a => a
  | _ => f

theorem flatMap_subst_singleton (f : α) (ts : List (Tok α)) : ts.flatMap (subst [f]) = ts.map (fill f) := by
  induction ts with
  | nil => rfl
  | cons t ts ih =>
    rw [flatMap_cons,ih,map_cons]
    cases t <;> rfl

def Narrow (ts : List (Tok α)) : Prop := Tok.any ∉ ts

theorem Narrow.accepts [DecidableEq α] {C D : Classes α} {ts : List (Tok α)} {s : List α} (hn : Narrow ts)
    (hi : ∀ c, C.inner c = true → D.inner c = true) (h : Wildcard.accepts C ts s = true) :
    Wildcard.accepts D ts s = true := by
  induction ts generalizing s with
  | nil => exact accepts_nil.2 (accepts_nil.1 h)
  | cons t ts ih =>
    obtain ⟨u,v,rfl,hu,hv⟩ := accepts_cons.1 h
    refine accepts_cons.2 ⟨u,v,rfl,?_,ih (fun hm => hn (mem_cons_of_mem t hm)) hv⟩
    cases t with
    | lit a => exact hu
    | star => exact fun c hc => hi c (hu c hc)
    | plus => exact ⟨hu.1,fun c hc => hi c (hu.2 c hc)⟩
    | any => exact absurd mem_cons_self hn

theorem Narrow.of_append {xs ys : List (Tok α)} (h : Narrow (xs ++ ys)) : Narrow xs ∧ Narrow ys :=
  ⟨fun hm => h (mem_append_left ys hm),fun hm => h (mem_append_right xs hm)⟩

inductive Label where
  | start
  | stars
  | solid
deriving DecidableEq

section
variable [DecidableEq α] (sep : α)

/-- Every `plus` is a whole label. The flag tells whether a label starts here. -/
def Guarded : Bool → List (Tok α) → Prop
  | _, [] => True
  | _, .lit a :: ts => Guarded (decide (a = sep)) ts
  | _, .star :: ts => Guarded false ts
  | b, .plus :: ts => b = true ∧ (∃ rest, ts = .lit sep :: rest) ∧ Guarded false ts
  | _, .any :: ts => Guarded false ts

def labelStep (l : Label) : Tok α → Option Label
  | .lit a => if a = sep then if l = .stars then none else some .start else some .solid
  | .star => some (if l = .solid then .solid else .stars)
  | .plus => some .solid
  | .any => some .solid

def NoBare (l : Label) (ts : List (Tok α)) : Prop := (ts.foldlM (labelStep sep) l).isSome = true

variable {sep} {C : Classes α} {f : α}

variable {l : Label} {P ys : List (Tok α)} {s : List α}

theorem NoBare.suffix {xs : List (Tok α)} (h : NoBare sep l (xs ++ ys)) : ∃ l', NoBare sep l' ys := by
  unfold NoBare at h ⊢
  rw [foldlM_append] at h
  cases hx : xs.foldlM (labelStep sep) l with
  | none => simp [hx] at h
  | some l' =>
    refine ⟨l',?_⟩
    simpa [hx] using h

theorem NoBare.after_sep (h : NoBare sep l (.lit sep :: ys)) : l ≠ .stars ∧ NoBare sep .start ys := by
  unfold NoBare at h ⊢
  rw [foldlM_cons] at h
  by_cases hl : l = .stars
  · simp [labelStep,hl] at h
  · exact ⟨hl,by simpa [labelStep,hl] using h⟩

theorem NoBare.label_eq_nil {xs : List (Tok α)} (h : NoBare sep .start (xs ++ .lit sep :: ys))
    (hx : ∀ t ∈ xs, t = .star) : xs = [] := by
  have hr : ∀ (l : Label) (zs : List (Tok α)), l ≠ .solid → (∀ t ∈ zs, t = .star) → zs ≠ [] →
      zs.foldlM (labelStep sep) l = some .stars := by
    intro l zs hl hz hne
    induction zs generalizing l with
    | nil => exact absurd rfl hne
    | cons z zs ih =>
      obtain ⟨rfl,hzs⟩ := forall_mem_cons.1 hz
      rw [foldlM_cons]
      have hs : labelStep sep l .star = some .stars := by simp [labelStep,hl]
      rw [hs,Option.bind_eq_bind,Option.bind_some]
      cases zs with
      | nil => rfl
      | cons z' zs => exact ih .stars (by decide) hzs (by simp)
  by_contra hne
  unfold NoBare at h
  rw [foldlM_append, hr .start xs (by decide) hx hne] at h
  simp [labelStep] at h

theorem stars_of_accepts_nil {ts : List (Tok α)} (hn : Narrow ts) (h : accepts C ts [] = true) :
    ∀ t ∈ ts, t = .star := by
  induction ts with
  | nil => simp
  | cons t ts ih =>
    obtain ⟨u,v,huv,hu,hv⟩ := accepts_cons.1 h
    obtain ⟨rfl,rfl⟩ := append_eq_nil_iff.1 huv.symm
    have hn' : Narrow ts := fun hm => hn (mem_cons_of_mem _ hm)
    refine forall_mem_cons.2 ⟨?_,ih hn' hv⟩
    cases t with
    | lit a => cases hu
    | star => rfl
    | plus => exact absurd rfl hu.1
    | any => exact absurd mem_cons_self hn

/-- If the filled pattern is in a class, so is every string of the pattern. -/
theorem class_of_filled {p : α → Bool} {ts : List (Tok α)} (hn : Narrow ts)
    (hp : ∀ c, C.inner c = true → p c = true) (hts : ∀ c ∈ ts.map (fill f), p c = true)
    (h : accepts C ts s = true) : ∀ c ∈ s, p c = true := by
  induction ts generalizing s with
  | nil =>
    rw [accepts_nil.1 h]
    simp
  | cons t ts ih =>
    obtain ⟨u,v,rfl,hu,hv⟩ := accepts_cons.1 h
    have hn' : Narrow ts := fun hm => hn (mem_cons_of_mem _ hm)
    obtain ⟨ht,ht'⟩ := forall_mem_cons.1 hts
    have hrest := ih hn' ht' hv
    intro c hc
    rcases mem_append.1 hc with hc | hc
    · cases t with
      | lit a =>
        have hu' : u = [a] := hu
        rw [hu',mem_singleton] at hc
        rw [hc]
        exact ht
      | star => exact hp c (hu c hc)
      | plus => exact hp c (hu.2 c hc)
      | any => exact absurd mem_cons_self hn
    · exact hrest c hc

/-- What the wildcards of the larger pattern match in a string filled with an unnamed character,
they match in every string. -/
theorem accepts_of_fresh (hs : C.inner sep = false) (hf : C.inner f = true)
    (hw : ∀ c, C.inner c = true → C.wide c = true) {Q : List (Tok α)} {n : List α} {b : Bool}
    (hg : Guarded sep b P) (hfr : Tok.lit f ∉ P) (hn : Narrow Q) (hq : NoBare sep l Q) (hb : b = true → l = .start)
    (hP : accepts C P (Q.map (fill f)) = true) (hQ : accepts C Q n = true) : accepts C P n = true := by
  have hfs : f ≠ sep := by
    rintro rfl
    rw [hs] at hf
    cases hf
  induction P generalizing Q n b l with
  | nil =>
    have hni : Q = [] := by simpa using hP
    subst hni
    exact hQ
  | cons t P ih =>
    have hf' : Tok.lit f ∉ P := fun hm => hfr (mem_cons_of_mem _ hm)
    obtain ⟨u,v,huv,hu,hv⟩ := accepts_cons.1 hP
    obtain ⟨Q1,Q2,rfl,rfl,rfl⟩ := map_eq_append_iff.1 huv
    obtain ⟨n1,n2,rfl,hn1,hn2⟩ := accepts_append.1 hQ
    obtain ⟨hN1,hN2⟩ := hn.of_append
    obtain ⟨l',hq'⟩ := hq.suffix
    cases t with
    | lit a =>
      have hu' : Q1.map (fill f) = [a] := hu
      obtain ⟨q,rfl,hqa⟩ := map_eq_singleton_iff.1 hu'
      have hl : q = .lit a := by
        cases q with
        | lit c =>
          have hca : c = a := hqa
          rw [hca]
        | star => exact absurd (show Tok.lit f ∈ Tok.lit a :: P by simp [show f = a from hqa]) hfr
        | plus => exact absurd (show Tok.lit f ∈ Tok.lit a :: P by simp [show f = a from hqa]) hfr
        | any => exact absurd (mem_singleton.2 rfl) hN1
      subst hl
      obtain ⟨x,y,rfl,hx,hy⟩ := accepts_cons.1 hn1
      rw [accepts_nil.1 hy,append_nil]
      refine accepts_cons.2 ⟨x,n2,rfl,hx,?_⟩
      by_cases ha : a = sep
      · subst ha
        exact ih (b := true) (l := .start) (by simpa [Guarded] using hg) hf' hN2 hq.after_sep.2 (fun _ => rfl) hv hn2
      · exact ih (b := false) (l := l') (by simpa [Guarded,ha] using hg) hf' hN2 hq' (by simp) hv hn2
    | star =>
      refine accepts_cons.2 ⟨n1,n2,rfl,?_,ih (b := false) hg hf' hN2 hq' (by simp) hv hn2⟩
      exact class_of_filled hN1 (fun _ h => h) hu hn1
    | any =>
      refine accepts_cons.2 ⟨n1,n2,rfl,?_,ih (b := false) hg hf' hN2 hq' (by simp) hv hn2⟩
      exact class_of_filled hN1 hw hu hn1
    | plus =>
      obtain ⟨hbt,⟨rest,hrest⟩,hg'⟩ := hg
      refine accepts_cons.2 ⟨n1,n2,rfl,⟨?_,class_of_filled hN1 (fun _ h => h) hu.2 hn1⟩,
        ih (b := false) hg' hf' hN2 hq' (by simp) hv hn2⟩
      rintro rfl
      -- the next character is the separator, so `Q1` is a whole label
      rw [hrest] at hv
      obtain ⟨x,y,hxy,hx,_⟩ := accepts_cons.1 hv
      have hx' : x = [sep] := hx
      rw [hx'] at hxy
      cases Q2 with
      | nil => cases hxy
      | cons q Q3 =>
        have hqs : fill f q = sep := (cons.inj hxy).1
        have hl : q = .lit sep := by
          cases q with
          | lit c =>
            have hc : c = sep := hqs
            rw [hc]
          | star => exact absurd hqs hfs
          | plus => exact absurd hqs hfs
          | any => exact absurd hqs hfs
        subst hl
        rw [hb hbt] at hq
        have he := hq.label_eq_nil (stars_of_accepts_nil hN1 hn1)
        subst he
        exact hu.1 rfl

theorem accepts_drop_fresh (hg : Guarded sep false P) (hf : Tok.lit f ∉ P)
    (h : accepts C P (f :: s) = true) : accepts C P s = true := by
  induction P with
  | nil => simp at h
  | cons t P ih =>
    have hf' : Tok.lit f ∉ P := fun hm => hf (mem_cons_of_mem _ hm)
    obtain ⟨u,v,huv,hu,hv⟩ := accepts_cons.1 h
    have hsk : ∀ p : α → Bool, (∀ c ∈ u, p c = true) → Guarded sep false P →
        ∃ u' v', s = u' ++ v' ∧ (∀ c ∈ u', p c = true) ∧ accepts C P v' = true := by
      intro p hp hgP
      cases u with
      | nil =>
        rw [nil_append] at huv
        rw [← huv] at hv
        exact ⟨[],s,rfl,by simp,ih hgP hf' hv⟩
      | cons d u =>
        cases huv
        exact ⟨u,v,rfl,fun c hc => hp c (mem_cons_of_mem _ hc),hv⟩
    cases t with
    | lit a =>
      have hu' : u = [a] := hu
      rw [hu'] at huv
      cases huv
      exact absurd mem_cons_self hf
    | star =>
      obtain ⟨u',v',hs,hu',hv'⟩ := hsk _ hu hg
      exact accepts_cons.2 ⟨u',v',hs,hu',hv'⟩
    | any =>
      obtain ⟨u',v',hs,hu',hv'⟩ := hsk _ hu hg
      exact accepts_cons.2 ⟨u',v',hs,hu',hv'⟩
    | plus => exact absurd hg.1 (by decide)

theorem count_of_narrow (hs : C.inner sep = false) (hn : Narrow P)
    (h : accepts C P s = true) : s.count sep = P.count (.lit sep) := by
  have hz : ∀ u : List α, (∀ c ∈ u, C.inner c = true) → u.count sep = 0 := by
    intro u hu
    rw [count_eq_zero]
    intro hm
    rw [hu sep hm] at hs
    cases hs
  induction P generalizing s with
  | nil =>
    rw [accepts_nil.1 h]
    rfl
  | cons t P ih =>
    obtain ⟨u,v,rfl,hu,hv⟩ := accepts_cons.1 h
    have hrest := ih (fun hm => hn (mem_cons_of_mem _ hm)) hv
    rw [count_append,hrest,count_cons]
    cases t with
    | lit a =>
      have hu' : u = [a] := hu
      rw [hu',count_singleton,Nat.add_comm]
      by_cases ha : a = sep <;> simp [ha]
    | star => simp [hz u hu]
    | plus => simp [hz u hu.2]
    | any => exact absurd mem_cons_self hn

end

end Padsi.Wildcard
