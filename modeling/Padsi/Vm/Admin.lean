import Padsi.Vm.Commit

/-! # What all users see, acted upon -/
namespace Padsi.Vm
open Python Text List Store

variable {δ : Type}

def Store.discardAll (s : Store δ) (removed : List VMVersion) : Store δ := removed.foldl discardFiles s

structure IsVersionOf (s : Store δ) (u : Uid) (v : VMVersion) : Prop where
  view : isInView u v = true
  complete : s.isComplete v = true

def AllUsable (s : Store δ) : Prop := ∀ v, s.isComplete v = true → s.isUsable v = true

section
variable {s : Store δ} {removed : List VMVersion} {uid u : Uid} {v w : VMVersion} {a : AdminVMFiles}

theorem Store.get_discardAll (s : Store δ) (removed : List VMVersion) (w : VMVersion) :
    (s.discardAll removed).files.get w = if w ∈ removed then none else s.files.get w := by
  induction removed generalizing s with
  | nil => rfl
  | cons v removed ih =>
    rw [discardAll,foldl_cons]
    change ((s.discardFiles v).discardAll removed).files.get w = _
    rw [ih,get_discardFiles]
    by_cases hw : w = v
    · simp [hw]
    · simp [hw]

theorem Store.image_discardAll (hw : w ∉ removed) :
    (s.discardAll removed).image (.version w) = s.image (.version w) := by
  rw [image,get_discardAll,if_neg hw,image]

theorem Store.isComplete_discardAll (h : (s.discardAll removed).isComplete w = true) :
    w ∉ removed ∧ s.isComplete w = true := by
  unfold isComplete at h ⊢
  rw [get_discardAll] at h
  split_ifs at h with hw
  exact ⟨hw,h⟩

theorem IsVersionOf.mem_versions (h : IsVersionOf s u v) (ha : AllUsable s) : v ∈ s.versions u :=
  Store.mem_versions.2 ⟨h.view,ha v h.complete⟩

theorem not_obsolete_of_backing (ha : adminAnalyse s uid = .ok a) (hu : u ∈ s.users) (hw : w ∈ s.versions u)
    (hb : s.backingImageFile w = some (.version v)) : v ∉ a.obsoleteVersions := by
  intro hv
  have hal := (mem_allVersions ha).2 ⟨u,hu,hw⟩
  obtain ⟨vmfs,_,rfl⟩ := adminAnalyse_eq_ok.1 ha
  obtain ⟨_,hnone⟩ := mem_filter.1 hv
  rw [Bool.not_eq_true',any_eq_false] at hnone
  exact hnone w hal (decide_eq_true hb)

theorem chainComplete_discardAll (ha : adminAnalyse s uid = .ok a) (hr : ∀ v ∈ removed, v ∈ a.obsoleteVersions)
    (hu : u ∈ s.users)
    (hw : w ∈ s.versions u) (hl : w ∉ removed) : ChainComplete (s.discardAll removed) (.version w) := by
  intro q hq
  -- the chain stays in the view, and in what is left
  have he : ∃ x, q = .version x ∧ x ∈ s.versions u ∧ x ∉ removed := by
    induction hq with
    | refl => exact ⟨w,rfl,hw,hl⟩
    | tail _ hs ih =>
      obtain ⟨x,rfl,hx,hxl⟩ := ih
      obtain ⟨i,hi,hb⟩ := hs
      rw [image_discardAll hxl] at hi
      have hf : s.backingImageFile x = i.backing := by
        rw [backingImageFile,hi,Option.bind_some]
      obtain ⟨y,hy,rfl⟩ := exists_backing ha hu hx (hf.trans hb)
      exact ⟨y,rfl,hy,fun hr' => not_obsolete_of_backing ha hu hx (hf.trans hb) (hr y hr')⟩
  obtain ⟨x,rfl,hx,hxl⟩ := he
  obtain ⟨_,i,hi⟩ := exists_hasFiles hx
  rw [image_discardAll hxl,hi.imageOf]
  rfl

theorem base_of_committable (ha : adminAnalyse s uid = .ok a) (hv : v ∈ a.committableVersions) :
    v.versionType = .base ∧ v.versionNumber.isSome = true := by
  obtain ⟨⟨u,_,_,hc⟩,_⟩ := (mem_committableVersions ha).1 hv
  simp only [isCommittable,Bool.and_eq_true,beq_iff_eq] at hc
  exact hc.1

theorem onlyChild_of_committable (ha : adminAnalyse s uid = .ok a) (hv : v ∈ a.committableVersions) (hu : u ∈ s.users)
    (hw : w ∈ s.versions u) (hb : s.backingImageFile w = s.backingImageFile v) : w = v := by
  obtain ⟨⟨u',hu',hvi,_⟩,_,ho⟩ := (mem_committableVersions ha).1 hv
  obtain ⟨c,hc⟩ := length_eq_one_iff.1 ho
  have hmem : ∀ x, x ∈ a.allVersions → s.backingImageFile x = s.backingImageFile v → x = c := by
    intro x hx hs
    have hf : x ∈ a.allVersions.filter fun w => s.backingImageFile w = s.backingImageFile v :=
      mem_filter.2 ⟨hx,decide_eq_true hs⟩
    rw [hc] at hf
    exact mem_singleton.1 hf
  rw [hmem w ((mem_allVersions ha).2 ⟨u,hu,hw⟩) hb,hmem v ((mem_allVersions ha).2 ⟨u',hu',hvi⟩) rfl]

end

/-- Removing obsolete versions breaks no chain of any user, and a committable version shares its
backing file with no version of any user. -/
theorem admin_view_safe {s : Store δ} {uid : Uid} {a : AdminVMFiles} (hall : AllUsable s)
    (ha : adminAnalyse s uid = .ok a) :
    (∀ removed : List VMVersion, (∀ v ∈ removed, v ∈ a.obsoleteVersions) → ∀ u ∈ s.users, ∀ w,
        IsVersionOf (s.discardAll removed) u w → ChainComplete (s.discardAll removed) (.version w)) ∧
      ∀ v ∈ a.committableVersions, (v.versionType = .base ∧ v.versionNumber.isSome = true) ∧
        (s.backingImageFile v).isSome = true ∧
        ∀ u ∈ s.users, ∀ w, IsVersionOf s u w → s.backingImageFile w = s.backingImageFile v → w = v := by
  constructor
  · intro removed hr u hu w hw
    obtain ⟨hl,hc⟩ := isComplete_discardAll hw.complete
    exact chainComplete_discardAll ha hr hu (IsVersionOf.mem_versions ⟨hw.view,hc⟩ hall) hl
  · intro v hv
    refine ⟨base_of_committable ha hv,((mem_committableVersions ha).1 hv).2.1,fun u hu w hw hb => ?_⟩
    exact onlyChild_of_committable ha hv hu (hw.mem_versions hall) hb

def base0 : VMVersion := ⟨.base,some 0,.top⟩

def unusedBase : Store (FreeMonoid Char) where
  files := ⟨[(base0,layer none 'o'),(base2,layer none 'a'),(base3,layer (some base2) 'b')],by decide⟩
  others := .empty
  users := [2000]
  known := by decide

/-- It can be removed. -/
theorem unusedBase_safe : AllUsable unusedBase ∧ ∃ a, adminAnalyse unusedBase 2000 = .ok a ∧
    a.obsoleteVersions = [base0] ∧
    ∀ w, IsVersionOf (unusedBase.discardAll [base0]) 2000 w →
      ChainComplete (unusedBase.discardAll [base0]) (.version w) := by
  have hal : AllUsable unusedBase := by
    intro v hv
    obtain ⟨f,_,hf⟩ := isComplete_iff.1 hv
    have hmem := Dict.mem_of_get hf.get
    have hk : v ∈ unusedBase.files.entries.map Prod.fst := mem_map.2 ⟨(v,f),hmem,rfl⟩
    fin_cases hk <;> rfl
  have ha : ∃ a, adminAnalyse unusedBase 2000 = .ok a ∧ a.obsoleteVersions = [base0] := ⟨_,rfl,by decide⟩
  obtain ⟨a,ha,ho⟩ := ha
  refine ⟨hal,a,ha,ho,?_⟩
  exact (admin_view_safe hal ha).1 [base0] (fun v hv => ho ▸ hv) 2000 mem_cons_self

/-- The files of the version and of those below it are there; an unreadable image is like a missing one. -/
inductive Intact (s : Store δ) : VMVersion → Prop
  | root {v : VMVersion} (hfiles : s.isComplete v = true) (hroot : s.backingImageFile v = none) : Intact s v
  | above {v w : VMVersion} (hfiles : s.isComplete v = true) (habove : s.backingImageFile v = some (.version w))
    (hw : Intact s w) : Intact s v

theorem Intact.isUsable {s : Store δ} {v : VMVersion} (h : Intact s v) :
    s.isUsable v = true ∧ (s.image (.version v)).isSome = true := by
  have hi : ∀ {v}, s.isComplete v = true → (s.image (.version v)).isSome = true := by
    intro v hv
    unfold isComplete at hv
    split at hv
    · rename_i f hf
      rw [Bool.and_eq_true,Bool.and_eq_true] at hv
      rw [image,hf]
      exact hv.1.1
    · cases hv
  induction h with
  | root hfiles hroot => exact ⟨by rw [Store.isUsable,hfiles,hroot]; rfl,hi hfiles⟩
  | above hfiles habove _ ih => exact ⟨by rw [Store.isUsable,hfiles,habove]; exact ih.2,hi hfiles⟩

/-- The versions of a user are listed if and only if the backing image of each readable version is
that of a readable one. -/
theorem intact_listed_iff (s : Store δ) (uid : Uid) :
    (∃ f, analyse s uid = .ok f ∧ ∀ v, isInView uid v = true → Intact s v → v ∈ f.allVersions) ↔
      ∀ v, isInView uid v = true → s.isUsable v = true → ∀ b, s.backingImageFile v = some b →
        ∃ w, b = .version w ∧ isInView uid w = true ∧ s.isUsable w = true := by
  constructor
  · rintro ⟨f,hf,-⟩ v hv hu b hb
    obtain ⟨w,hw,rfl⟩ := (analyse_eq_ok.1 hf).1 v (mem_versions.2 ⟨hv,hu⟩) b hb
    exact ⟨w,rfl,mem_versions.1 hw⟩
  · intro h
    refine ⟨_,analyse_eq_ok.2 ⟨fun v hv b hb => ?_,rfl⟩,fun v hv hi => mem_versions.2 ⟨hv,hi.isUsable.1⟩⟩
    obtain ⟨hvi,hu⟩ := mem_versions.1 hv
    obtain ⟨w,rfl,hw⟩ := h v hvi hu b hb
    exact ⟨w,mem_versions.2 hw,rfl⟩

def damagedBase : Store (FreeMonoid Char) where
  files := ⟨[(base2,{ layer none 'a' with vars := false }),(base3,layer (some base2) 'b'),
    (custom,layer none 'c')],by decide⟩
  others := .empty
  users := [1000]
  known := by decide

/-- A version of which all is there is not listed. -/
theorem damaged_base_hides_others : isInView 1000 custom = true ∧ Intact damagedBase custom ∧
    analyse damagedBase 1000 = .error (.noBackingVersion base3 (.version base2)) :=
  ⟨by decide,.root (by decide) rfl,by decide⟩

end Padsi.Vm
