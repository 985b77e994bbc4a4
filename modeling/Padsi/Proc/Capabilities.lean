import Mathlib

/-! # Capabilities of a started process

The permitted and the effective set are only cleared when there is nothing to raise.
-/
namespace Padsi.Proc
open Option Finset
variable {κ : Type} [DecidableEq κ]

structure Caps (κ : Type) [DecidableEq κ] where
  permitted : Finset κ
  effective : Finset κ
  inheritable : Finset κ
  ambient : Finset κ
  bounding : Finset κ
  noAmbientRaise : Bool
  effective_subset : effective ⊆ permitted
  ambient_subset : ambient ⊆ permitted ∩ inheritable

inductive CapSet where
  | permitted
  | effective
  | inheritable
  | ambient

namespace Caps

/-- `capset(2)`; what is no longer permitted and inheritable is no longer ambient. -/
def capset (setpcap : κ) (s : Caps κ) (permitted effective inheritable : Finset κ) : Option (Caps κ) :=
  if h : (setpcap ∈ s.effective ∨ inheritable ⊆ s.inheritable ∪ s.permitted) ∧
    inheritable ⊆ s.inheritable ∪ s.bounding ∧
      permitted ⊆ s.permitted ∧ effective ⊆ permitted then
    some { s with
      permitted := permitted
      effective := effective
      inheritable := inheritable
      ambient := s.ambient ∩ (permitted ∩ inheritable)
      effective_subset := h.2.2.2
      ambient_subset := Finset.inter_subset_right }
  else none

def ambientRaise (s : Caps κ) (cap : κ) : Option (Caps κ) :=
  if h : cap ∈ s.permitted ∩ s.inheritable ∧ s.noAmbientRaise = false then
    some { s with ambient := insert cap s.ambient, ambient_subset := Finset.insert_subset h.1 s.ambient_subset }
  else none

variable (setpcap : κ)

def clear (s : Caps κ) : CapSet → Option (Caps κ)
  | .permitted => s.capset setpcap ∅ ∅ s.inheritable
  | .effective => s.capset setpcap s.permitted ∅ s.inheritable
  | .inheritable => s.capset setpcap s.permitted s.effective ∅
  | .ambient => some { s with ambient := ∅, ambient_subset := Finset.empty_subset _ }

def raise (s : Caps κ) (cap : κ) : CapSet → Option (Caps κ)
  | .permitted =>
    if cap ∈ s.permitted then some s else s.capset setpcap (insert cap s.permitted) s.effective s.inheritable
  | .effective =>
    if cap ∈ s.effective then some s else s.capset setpcap s.permitted (insert cap s.effective) s.inheritable
  | .inheritable =>
    if cap ∈ s.inheritable then some s else s.capset setpcap s.permitted s.effective (insert cap s.inheritable)
  | .ambient => s.ambientRaise cap

def raiseAll (s : Caps κ) (cap : κ) : Option (Caps κ) := do
  let s ← s.raise setpcap cap .permitted
  let s ← s.raise setpcap cap .effective
  let s ← s.raise setpcap cap .inheritable
  s.raise setpcap cap .ambient

def applyCapabilities (s : Caps κ) (caps : List κ) : Option (Caps κ) := do
  let s ← s.clear setpcap .inheritable
  let s ← s.clear setpcap .ambient
  if caps.isEmpty then
    let s ← s.clear setpcap .permitted
    s.clear setpcap .effective
  else caps.foldlM (raiseAll setpcap) s

def execve (s : Caps κ) : Caps κ :=
  { s with
    permitted := s.ambient
    effective := s.ambient
    effective_subset := Finset.Subset.refl _
    ambient_subset := Finset.subset_inter (Finset.Subset.refl _) (s.ambient_subset.trans Finset.inter_subset_right) }

def Exactly (s : Caps κ) (granted : Finset κ) : Prop :=
  s.permitted = granted ∧ s.effective = granted ∧ s.inheritable = granted ∧ s.ambient = granted

variable {setpcap} {s s' : Caps κ} {cap : κ} {p e i : Finset κ}

theorem capset_eq_some (h : s.capset setpcap p e i = some s') :
    s'.permitted = p ∧ s'.effective = e ∧ s'.inheritable = i ∧ s'.ambient = s.ambient ∩ (p ∩ i) ∧ p ⊆ s.permitted := by
  unfold capset at h
  split_ifs at h with hrules
  cases h
  exact ⟨rfl,rfl,rfl,rfl,hrules.2.2.1⟩

def Raised (s s' : Caps κ) (granted : Finset κ) : Prop :=
  s'.permitted = s.permitted ∧ s'.effective = s.effective ∪ granted ∧ s'.inheritable = s.inheritable ∪ granted ∧
    s'.ambient = s.ambient ∪ granted

theorem raise_permitted (h : s.raise setpcap cap .permitted = some s') : s' = s := by
  rw [raise] at h
  split_ifs at h with hmem
  · exact (Option.some.inj h).symm
  · obtain ⟨-,-,-,-,hs⟩ := capset_eq_some h
    exact absurd (hs (mem_insert_self cap s.permitted)) hmem

theorem raise_effective (h : s.raise setpcap cap .effective = some s') :
    s'.permitted = s.permitted ∧ s'.effective = insert cap s.effective ∧ s'.inheritable = s.inheritable ∧
      s'.ambient = s.ambient := by
  rw [raise] at h
  split_ifs at h with hmem
  · cases h
    exact ⟨rfl,(insert_eq_of_mem hmem).symm,rfl,rfl⟩
  · obtain ⟨hp,he,hi,ha,-⟩ := capset_eq_some h
    exact ⟨hp,he,hi,ha.trans (inter_eq_left.2 s.ambient_subset)⟩

theorem raise_inheritable (h : s.raise setpcap cap .inheritable = some s') :
    s'.permitted = s.permitted ∧ s'.effective = s.effective ∧ s'.inheritable = insert cap s.inheritable ∧
      s'.ambient = s.ambient := by
  rw [raise] at h
  split_ifs at h with hmem
  · cases h
    exact ⟨rfl,rfl,(insert_eq_of_mem hmem).symm,rfl⟩
  · obtain ⟨hp,he,hi,ha,-⟩ := capset_eq_some h
    have hg : s.ambient ⊆ s.permitted ∩ insert cap s.inheritable :=
      s.ambient_subset.trans (inter_subset_inter_left (subset_insert cap s.inheritable))
    exact ⟨hp,he,hi,ha.trans (inter_eq_left.2 hg)⟩

theorem raise_ambient (h : s.raise setpcap cap .ambient = some s') :
    s'.permitted = s.permitted ∧ s'.effective = s.effective ∧ s'.inheritable = s.inheritable ∧
      s'.ambient = insert cap s.ambient := by
  rw [raise,ambientRaise] at h
  split_ifs at h
  cases h
  exact ⟨rfl,rfl,rfl,rfl⟩

theorem raised_of_raiseAll (h : s.raiseAll setpcap cap = some s') : Raised s s' {cap} := by
  obtain ⟨s₁,h₁,hn⟩ := bind_eq_some_iff.1 h
  obtain ⟨s₂,h₂,hn₂⟩ := bind_eq_some_iff.1 hn
  obtain ⟨s₃,h₃,h₄⟩ := bind_eq_some_iff.1 hn₂
  rw [raise_permitted h₁] at h₂
  obtain ⟨hp₂,he₂,hi₂,ha₂⟩ := raise_effective h₂
  obtain ⟨hp₃,he₃,hi₃,ha₃⟩ := raise_inheritable h₃
  obtain ⟨hp₄,he₄,hi₄,ha₄⟩ := raise_ambient h₄
  rw [Raised,hp₄,hp₃,hp₂,he₄,he₃,he₂,hi₄,hi₃,hi₂,ha₄,ha₃,ha₂]
  simp only [insert_eq,union_comm,and_self]

theorem raised_of_foldlM {caps : List κ} (h : caps.foldlM (raiseAll setpcap) s = some s') :
    Raised s s' caps.toFinset := by
  induction caps generalizing s with
  | nil =>
    cases h
    simp [Raised]
  | cons cap caps ih =>
    obtain ⟨next,hn,h⟩ := bind_eq_some_iff.1 h
    obtain ⟨hp,he,hi,ha⟩ := raised_of_raiseAll hn
    obtain ⟨hp',he',hi',ha'⟩ := ih h
    simp only [Raised,hp',hp,he',he,hi',hi,ha',ha,List.toFinset_cons,insert_eq,union_assoc,and_self]

theorem sets_of_apply {caps : List κ} (h : s.applyCapabilities setpcap caps = some s') :
    s'.permitted = (if caps = [] then ∅ else s.permitted) ∧
      s'.effective = (if caps = [] then ∅ else s.effective ∪ caps.toFinset) ∧
      s'.inheritable = caps.toFinset ∧ s'.ambient = caps.toFinset := by
  obtain ⟨s₁,h₁,h⟩ := bind_eq_some_iff.1 h
  obtain ⟨s₂,h₂,h⟩ := bind_eq_some_iff.1 h
  obtain ⟨hp,he,hi,-⟩ := capset_eq_some h₁
  cases h₂
  cases caps with
  | nil =>
    obtain ⟨s₃,h₃,h⟩ := bind_eq_some_iff.1 h
    obtain ⟨hp₃,-,hi₃,ha₃,-⟩ := capset_eq_some h₃
    obtain ⟨hp₄,he₄,hi₄,ha₄,-⟩ := capset_eq_some h
    simp [hp₄,hp₃,he₄,hi₄,hi₃,hi,ha₄,ha₃]
  | cons cap caps =>
    obtain ⟨hp',he',hi',ha'⟩ := raised_of_foldlM h
    simp [hp',hp,he',he,hi',hi,ha']

/-- The child has just the requested capabilities if none or all that init may have are requested;
it never has others. -/
theorem exactly_iff_all {caps : List κ} (h : s.applyCapabilities setpcap caps = some s') :
    (s'.Exactly caps.toFinset ↔ caps = [] ∨ s.permitted = caps.toFinset) ∧ s'.execve.Exactly caps.toFinset := by
  obtain ⟨hp,he,hi,ha⟩ := sets_of_apply h
  refine ⟨?_,ha,ha,hi,ha⟩
  by_cases hn : caps = []
  · subst hn
    simp [Exactly,hp,he,hi,ha]
  · rw [if_neg hn] at hp he
    simp only [Exactly,hp,he,hi,ha,hn,false_or,and_true]
    refine ⟨And.left,fun hal => ⟨hal,union_eq_right.2 ?_⟩⟩
    rw [← hal]
    exact s.effective_subset

def twoCaps : Caps ℕ := ⟨{12,21},{12,21},∅,∅,{12,21},false,Finset.Subset.refl _,Finset.empty_subset _⟩

theorem twoCaps_all : ∃ s', twoCaps.applyCapabilities 8 [12,21] = some s' ∧
    ((s'.Exactly [12,21].toFinset ↔ [12,21] = [] ∨ twoCaps.permitted = [12,21].toFinset) ∧
      s'.execve.Exactly [12,21].toFinset) := by
  have hs : (twoCaps.applyCapabilities 8 [12,21]).isSome = true := by decide
  obtain ⟨s',hs'⟩ := isSome_iff_exists.1 hs
  exact ⟨s',hs',exactly_iff_all hs'⟩

/-- The other capability stays permitted and effective. -/
theorem twoCaps_keeps_other :
    ∃ s', twoCaps.applyCapabilities 8 [12] = some s' ∧ 21 ∈ s'.permitted ∧ 21 ∈ s'.effective ∧
      ¬ s'.Exactly [12].toFinset := by
  have hs : (twoCaps.applyCapabilities 8 [12]).isSome = true := by decide
  obtain ⟨s',hs'⟩ := isSome_iff_exists.1 hs
  obtain ⟨hp,he,-⟩ := sets_of_apply hs'
  have hmem : 21 ∈ s'.permitted := by
    rw [hp]
    decide
  refine ⟨s',hs',hmem,?_,fun hex => ?_⟩
  · rw [he]
    decide
  · rw [hex.1] at hmem
    revert hmem
    decide

end Caps

end Padsi.Proc
