import Padsi.Vm.Cleanup

/-! # Committing a version

The service checks that the backing version has no other child in the view of one user,
and not in the views of all of them.
-/
namespace Padsi.Vm
open Python Text List Option Store

variable {δ : Type} [Monoid δ]

inductive Reads (s : Store δ) : ImagePath → δ → Prop
  | root {p : ImagePath} {i : Image δ} (hp : s.image p = some i) (hi : i.backing = none) : Reads s p i.data
  | layer {p b : ImagePath} {i : Image δ} {d : δ} (hp : s.image p = some i) (hi : i.backing = some b)
    (hb : Reads s b d) : Reads s p (i.data * d)

def Backs (s : Store δ) (p q : ImagePath) : Prop := ∃ i, s.image p = some i ∧ i.backing = some q
def ChainComplete (s : Store δ) (p : ImagePath) : Prop :=
  ∀ q, Relation.ReflTransGen (Backs s) p q → (s.image q).isSome = true

/-- The versions of all users are still there, with what they contained, apart from the one that was merged. -/
def Unharmed (s s' : Store δ) (merged : VMVersion) : Prop :=
  ∀ (u : Uid) (w : VMVersion), w ∈ s.versions u → w ≠ merged →
    s'.isComplete w = true ∧ ChainComplete s' (.version w) ∧ ∀ d, Reads s (.version w) d → Reads s' (.version w) d

def Image.merge (upper lower : Image δ) : Image δ := ⟨lower.backing,upper.data * lower.data⟩

namespace Store

def commit (s : Store δ) (v b : VMVersion) : Store δ :=
  match hv : s.files.get v, s.image (.version v), s.image (.version b) with
  | some f, some upper, some lower =>
    { s with
      files := (s.files.set v { f with image := some (upper.merge lower) }).erase b
      known := by
        intro e he
        have hget := Dict.mem_entries_iff.1 (mem_of_mem_filter he)
        rw [Dict.get_set] at hget
        split_ifs at hget with hev
        · rw [hev]
          exact s.known (v,f) (Dict.mem_of_get hv)
        · exact s.known e (Dict.mem_of_get hget) }
  | _, _, _ => s

end Store

variable (gconf : Configuration) (uid : Uid) (vmId : Str) (vmversionUid : Option Uid) (v : VMVersion)

def checkUpdate : Except VMExc Unit := do
  match gconf .update vmId with
  | none => .error (.unknownVM vmId)
  | some vm =>
    if vmversionUid.isSome && vmversionUid != some uid then
      if !(← vm.isUserAllowed uid) then .error (.permissionDenied vmId uid)
    if !(← vm.isUserAllowed uid) then .error (.permissionDenied vmId uid)

def VMFiles.backingVersion (f : VMFiles) (s : Store δ) : Except VMExc VMVersion :=
  if v ∉ f.committableVersions then .error .notCommittable
  else
    match (s.backingImageFile v).bind (s.versionOfImage f.uid) with
    | none => .error .notCommittable
    | some b => .ok b

def commitChecks (s : Store δ) : Except VMExc (Uid × VMVersion) := do
  checkUpdate gconf uid vmId vmversionUid
  let a ← adminAnalyse s uid
  match a.getVmFiles vmversionUid with
  | none => .error (.noFiles (vmversionUid.getD uid))
  | some f =>
    if v ∉ f.allVersions then .error (.noVersion v)
    else
      let b ← f.backingVersion v s
      return (f.uid,b)

def vmCommit (s : Store δ) : Store δ × Except VMExc VMFiles :=
  match commitChecks gconf uid vmId vmversionUid v s with
  | .error e => (s,.error e)
  | .ok (u,b) => (s.commit v b,analyse (s.commit v b) u)

section
variable {gconf uid vmId vmversionUid v} {s : Store δ} {u : Uid} {b : VMVersion} {a : AdminVMFiles}

omit [Monoid δ] in
theorem backingVersion_eq_ok {f : VMFiles} : f.backingVersion v s = .ok b ↔
    v ∈ f.committableVersions ∧ (s.backingImageFile v).bind (s.versionOfImage f.uid) = some b := by
  unfold VMFiles.backingVersion
  split_ifs with hv
  · rw [and_iff_right hv]
    cases (s.backingImageFile v).bind (s.versionOfImage f.uid) with
    | none => exact iff_of_false nofun nofun
    | some b' => exact ⟨fun h => by cases h; rfl,fun h => by cases h; rfl⟩
  · exact iff_of_false nofun fun h => hv h.1

structure Mergeable (s : Store δ) (u : Uid) (v b : VMVersion) : Prop where
  user : u ∈ s.users
  version : v ∈ s.versions u
  committable : s.isCommittable u v = true
  backing : s.backingImageFile v = some (.version b)
  backingVersion : b ∈ s.versions u

omit [Monoid δ] in
theorem mergeable_of_commitChecks (h : commitChecks gconf uid vmId vmversionUid v s = .ok (u,b)) :
    (∃ a, adminAnalyse s uid = .ok a) ∧ Mergeable s u v b := by
  obtain ⟨_,_,h⟩ := bind_eq_ok.1 h
  obtain ⟨a,ha,h⟩ := bind_eq_ok.1 h
  refine ⟨⟨a,ha⟩,?_⟩
  cases hf : a.getVmFiles vmversionUid with
  | none =>
    simp only [hf] at h
    cases h
  | some f =>
    simp only [hf] at h
    split_ifs at h with hv
    · obtain ⟨b',hb,h⟩ := bind_eq_ok.1 h
      cases h
      obtain ⟨vmfs,hvm,rfl⟩ := adminAnalyse_eq_ok.1 ha
      obtain ⟨u,hu,han⟩ := mem_of_mapM hvm f (mem_of_find?_eq_some hf)
      obtain ⟨_,rfl⟩ := analyse_eq_ok.1 han
      obtain ⟨hc,hb⟩ := backingVersion_eq_ok.1 hb
      obtain ⟨path,hpath,hb⟩ := bind_eq_some_iff.1 hb
      obtain ⟨rfl,hbv⟩ := versionOfImage_eq_some.1 hb
      obtain ⟨hve,hc⟩ := mem_filter.1 hc
      exact ⟨hu,hve,hc,hpath,hbv⟩

end

section
variable {s : Store δ} {u u' : Uid} {v b w x : VMVersion} {uid : Uid} {a : AdminVMFiles}

omit [Monoid δ] in
theorem children_of_committable (hv : v ∈ s.versions u) (hb : b ∈ s.versions u) (hco : s.isCommittable u v = true)
    (hba : s.backingImageFile v = some (.version b)) : s.getChildrenVersions u b = [v] := by
  have hmem : v ∈ s.getChildrenVersions u b := mem_filter.2 ⟨hv,decide_eq_true hba⟩
  have ho : (s.getChildrenVersions u b).length = 1 := by
    have hf : s.versionOfImage u (.version b) = some b := versionOfImage_eq_some.2 ⟨rfl,hb⟩
    simp only [isCommittable,hba,bind_some,hf,Bool.and_eq_true,beq_iff_eq] at hco
    exact hco.2
  obtain ⟨c,hc⟩ := length_eq_one_iff.1 ho
  rw [hc,mem_singleton] at hmem
  rw [hc,hmem]

omit [Monoid δ] in
theorem Mergeable.children (h : Mergeable s u v b) : s.getChildrenVersions u b = [v] :=
  children_of_committable h.version h.backingVersion h.committable h.backing

/-- No other version has the same backing file, for any user. -/
def OnlyChild (s : Store δ) (v b : VMVersion) : Prop :=
  ∀ u ∈ s.users, ∀ w ∈ s.versions u, s.backingImageFile w = some (.version b) → w = v

omit [Monoid δ] in
theorem Mergeable.mem_committableVersions (h : Mergeable s u v b) (ha : adminAnalyse s uid = .ok a) :
    v ∈ a.committableVersions ↔ OnlyChild s v b := by
  rw [Vm.mem_committableVersions ha,and_iff_right ⟨u,h.user,h.version,h.committable⟩,h.backing,
    and_iff_right (isSome_some)]
  have hch (w : VMVersion) : w ∈ a.allVersions.filter (fun w => s.backingImageFile w = some (.version b)) ↔
      (∃ u ∈ s.users, w ∈ s.versions u) ∧ s.backingImageFile w = some (.version b) := by
    rw [mem_filter,mem_allVersions ha,decide_eq_true_iff]
  have hv := (hch v).2 ⟨⟨u,h.user,h.version⟩,h.backing⟩
  constructor
  · intro ho u' hu' w hw hba
    obtain ⟨c,hc⟩ := length_eq_one_iff.1 ho
    have hw := (hch w).2 ⟨⟨u',hu',hw⟩,hba⟩
    rw [hc,mem_singleton] at hv hw
    rw [hv,hw]
  · intro honly
    refine length_eq_one_iff.2 ⟨v,?_⟩
    by_contra hne
    rcases (((nodup_allVersions ha).filter _).ne_singleton_iff v).1 hne with hn | ⟨w,hw,hwv⟩
    · rw [hn] at hv
      cases hv
    · obtain ⟨⟨u',hu',hw⟩,hba⟩ := (hch w).1 hw
      exact hwv (honly u' hu' w hw hba)

structure HasFiles (s : Store δ) (v : VMVersion) (f : Files δ) (i : Image δ) : Prop where
  get : s.files.get v = some f
  image : f.image = some i
  vars : f.vars = true
  infos : f.infos = true

omit [Monoid δ] in
theorem isComplete_iff : s.isComplete v = true ↔ ∃ f i, HasFiles s v f i := by
  unfold isComplete
  cases hf : s.files.get v with
  | none =>
    refine iff_of_false nofun ?_
    rintro ⟨f,i,h⟩
    rw [h.get] at hf
    cases hf
  | some f =>
    simp only [Bool.and_eq_true]
    constructor
    · rintro ⟨⟨him,hva⟩,hin⟩
      obtain ⟨i,hi⟩ := isSome_iff_exists.1 him
      exact ⟨f,i,hf,hi,hva,hin⟩
    · rintro ⟨f',i,h⟩
      cases hf.symm.trans h.get
      exact ⟨⟨by rw [h.image]; rfl,h.vars⟩,h.infos⟩

omit [Monoid δ] in
theorem HasFiles.imageOf {f : Files δ} {i : Image δ} (h : HasFiles s v f i) : s.image (.version v) = some i := by
  rw [Store.image,h.get,bind_some,h.image]

omit [Monoid δ] in
theorem HasFiles.backingImageFile {f : Files δ} {i : Image δ} (h : HasFiles s v f i) :
    s.backingImageFile v = i.backing := by
  rw [Store.backingImageFile,h.imageOf,bind_some]

omit [Monoid δ] in
theorem exists_hasFiles (h : v ∈ s.versions u) : ∃ f i, HasFiles s v f i :=
  isComplete_iff.1 (Bool.and_eq_true_iff.1 (mem_versions.1 h).2).1

section
variable {f f' : Files δ} {upper lower : Image δ}

theorem Store.get_commit (hv : HasFiles s v f upper) (hb : HasFiles s b f' lower) (w : VMVersion) :
    (s.commit v b).files.get w =
      if w = b then none else if w = v then some { f with image := some (upper.merge lower) } else s.files.get w := by
  unfold commit
  split
  · rename_i _ _ _ hf hu hl
    cases hv.get.symm.trans hf
    cases hv.imageOf.symm.trans hu
    cases hb.imageOf.symm.trans hl
    rw [Dict.get_erase,Dict.get_set]
  · rename_i hnone
    exact absurd hb.imageOf (hnone f upper lower hv.get hv.imageOf)

theorem Store.image_commit (hv : HasFiles s v f upper) (hb : HasFiles s b f' lower) (w : VMVersion) :
    (s.commit v b).image (.version w) = if w = b then none else if w =
      v then some (upper.merge lower) else s.image (.version w) := by
  rw [image,get_commit hv hb]
  split_ifs
  · rfl
  · rfl
  · rfl

theorem isComplete_commit (hv : HasFiles s v f upper) (hb : HasFiles s b f' lower) (hw : w ∈ s.versions u)
    (hne : w ≠ b) : (s.commit v b).isComplete w = true := by
  refine isComplete_iff.2 ?_
  have hg := get_commit hv hb w
  rw [if_neg hne] at hg
  by_cases hwv : w = v
  · rw [if_pos hwv] at hg
    exact ⟨_,_,hg,rfl,hv.vars,hv.infos⟩
  · rw [if_neg hwv] at hg
    obtain ⟨fw,i,h⟩ := exists_hasFiles hw
    exact ⟨fw,i,hg.trans h.get,h.image,h.vars,h.infos⟩

end

def ImagePath.renamed (rename : VMVersion → VMVersion) : ImagePath → ImagePath
  | .version v => .version (rename v)
  | p => p

structure Merges (s s' : Store δ) (alive : VMVersion → Prop) (rename : VMVersion → VMVersion) (v b : VMVersion)
    (upper lower : Image δ) : Prop where
  imageUpper : s.image (.version v) = some upper
  imageLower : s.image (.version b) = some lower
  backing : upper.backing = some (.version b)
  merged : alive v → s'.image (.version (rename v)) = some ⟨lower.backing.map (.renamed rename),upper.data * lower.data⟩
  below : alive v → ∀ q, lower.backing = some q → ∃ x, q = .version x ∧ alive x
  others : ∀ w i, alive w → w ≠ v → s.image (.version w) = some i →
    s'.image (.version (rename w)) = some ⟨i.backing.map (.renamed rename),i.data⟩
  closed : ∀ w i q, alive w → w ≠ v → s.image (.version w) = some i → i.backing = some q → ∃ x, q = .version x ∧ alive x

section
variable {s' : Store δ} {alive : VMVersion → Prop} {rename : VMVersion → VMVersion} {upper lower : Image δ}

/-- By induction on the chain: what is read through the merged image is unchanged. -/
theorem Merges.reads_of (h : Merges s s' alive rename v b upper lower) {p : ImagePath} {d : δ}
    (hd : Reads s p d) (x : VMVersion) (hp : p = .version x) : (alive x → Reads s' (.version (rename x)) d) ∧
      (alive v → x = b → lower.backing = none ∧ d = lower.data ∨
        ∃ y r, lower.backing = some (.version y) ∧ d = lower.data * r ∧ Reads s' (.version (rename y)) r) := by
  induction hd generalizing x with
  | @root p i him hi =>
    subst hp
    refine ⟨fun hx => ?_,fun hv hxb => ?_⟩
    · have hxv : x ≠ v := by
        rintro rfl
        cases h.imageUpper.symm.trans him
        cases h.backing.symm.trans hi
      have hro := Reads.root (h.others x i hx hxv him) (by rw [hi]; rfl)
      exact hro
    · subst hxb
      cases h.imageLower.symm.trans him
      exact Or.inl ⟨hi,rfl⟩
  | @layer p q i d him hi hq ih =>
    subst hp
    refine ⟨fun hx => ?_,fun hv hxb => ?_⟩
    · by_cases hxv : x = v
      · -- the data of the merged version are now in the image
        subst hxv
        cases h.imageUpper.symm.trans him
        cases h.backing.symm.trans hi
        rcases (ih b rfl).2 hx rfl with ⟨hnone,rfl⟩ | ⟨y,r,hs,rfl,hr⟩
        · exact Reads.root (h.merged hx) (by rw [hnone]; rfl)
        · have hl := Reads.layer (h.merged hx) (by rw [hs]; rfl) hr
          rwa [mul_assoc] at hl
      · obtain ⟨y,rfl,hy⟩ := h.closed x i q hx hxv him hi
        have hl := Reads.layer (h.others x i hx hxv him) (by rw [hi]; rfl) ((ih y rfl).1 hy)
        exact hl
    · subst hxb
      cases h.imageLower.symm.trans him
      obtain ⟨y,rfl,hy⟩ := h.below hv q hi
      exact Or.inr ⟨y,d,hi,rfl,(ih y rfl).1 hy⟩

theorem Merges.reads (h : Merges s s' alive rename v b upper lower) {d : δ} (hw : alive w)
    (hd : Reads s (.version w) d) :
    Reads s' (.version (rename w)) d := (h.reads_of hd w rfl).1 hw

end

omit [Monoid δ] in
theorem exists_backing (ha : adminAnalyse s uid = .ok a) (hu : u ∈ s.users) (hw : w ∈ s.versions u) {q : ImagePath}
    (hq : s.backingImageFile w = some q) : ∃ x ∈ s.versions u, q = .version x := by
  obtain ⟨vmfs,hvm,_⟩ := adminAnalyse_eq_ok.1 ha
  obtain ⟨f,_,han⟩ := exists_of_mapM hvm u hu
  exact (analyse_eq_ok.1 han).1 w hw q hq

structure Survives (s : Store δ) (b w : VMVersion) : Prop where
  ne : w ≠ b
  view : ∃ u ∈ s.users, w ∈ s.versions u

section
variable {f f' : Files δ} {upper lower : Image δ} (ha : adminAnalyse s uid = .ok a) (hm : Mergeable s u v b)
  (honly : OnlyChild s v b)
  (hv : HasFiles s v f upper) (hb : HasFiles s b f' lower)
include ha hm honly

omit [Monoid δ] hm in
theorem survives_backing (hw : Survives s b w) (hwv : w ≠ v) {q : ImagePath} (hq : s.backingImageFile w = some q) :
    ∃ x, q = .version x ∧ Survives s b x := by
  obtain ⟨u',hu',hvi⟩ := hw.view
  obtain ⟨x,hx,rfl⟩ := exists_backing ha hu' hvi hq
  refine ⟨x,rfl,fun hxb => hwv ?_,u',hu',hx⟩
  exact honly u' hu' w hvi (hxb ▸ hq)

omit [Monoid δ] in
theorem survives_backing_merged (hne : v ≠ b) {q : ImagePath} (hq : s.backingImageFile b = some q) :
    ∃ x, q = .version x ∧ Survives s b x := by
  obtain ⟨x,hx,rfl⟩ := exists_backing ha hm.user hm.backingVersion hq
  refine ⟨x,rfl,fun hxb => hne ?_,u,hm.user,hx⟩
  exact (honly u hm.user b hm.backingVersion (hxb ▸ hq)).symm

include hv hb

theorem survives_step (hw : Survives s b w) :
    ∃ i, (s.commit v b).image (.version w) = some i ∧ ∀ q, i.backing = some q → ∃ x, q = .version x ∧
      Survives s b x := by
  rw [image_commit hv hb,if_neg hw.ne]
  by_cases hwv : w = v
  · refine ⟨_,if_pos hwv,fun q hq => ?_⟩
    exact survives_backing_merged ha hm honly (hwv ▸ hw.ne) (hb.backingImageFile.trans hq)
  · obtain ⟨u',hu',hvi⟩ := hw.view
    obtain ⟨_,i,hi⟩ := exists_hasFiles hvi
    rw [if_neg hwv]
    exact ⟨i,hi.imageOf,fun q hq => survives_backing ha honly hw hwv (hi.backingImageFile.trans hq)⟩

theorem chainComplete_commit (hw : Survives s b w) : ChainComplete (s.commit v b) (.version w) := by
  intro q hq
  have he : ∃ x, q = .version x ∧ Survives s b x := by
    induction hq with
    | refl => exact ⟨w,rfl,hw⟩
    | tail _ hs ih =>
      obtain ⟨x,rfl,hx⟩ := ih
      obtain ⟨i,hi,hba⟩ := survives_step ha hm honly hv hb hx
      obtain ⟨i',hi',hq⟩ := hs
      cases hi.symm.trans hi'
      exact hba _ hq
  obtain ⟨x,rfl,hx⟩ := he
  obtain ⟨i,hi,_⟩ := survives_step ha hm honly hv hb hx
  rw [hi]
  rfl

theorem reads_commit {d : δ} (hw : Survives s b w) (hd : Reads s (.version w) d) :
    Reads (s.commit v b) (.version w) d := by
  have hs (p : ImagePath) : p.renamed id = p := by
    cases p <;> rfl
  have hma (o : Option ImagePath) : o.map (.renamed id) = o := by
    cases o with
    | none => rfl
    | some p => exact congrArg some (hs p)
  have hme : Merges s (s.commit v b) (Survives s b) id v b upper lower := {
    imageUpper := hv.imageOf
    imageLower := hb.imageOf
    backing := hv.backingImageFile.symm.trans hm.backing
    merged := fun hal => by rw [id,image_commit hv hb,if_neg hal.ne,if_pos rfl,hma]; rfl
    below := fun hal q hq => survives_backing_merged ha hm honly hal.ne (hb.backingImageFile.trans hq)
    others := fun x i hx hxv hi => by rw [id,image_commit hv hb,if_neg hx.ne,if_neg hxv,hi,hma]
    closed := fun x i q hx hxv hi hq => survives_backing ha honly hx hxv (by rw [backingImageFile,hi,bind_some,hq]) }
  exact hme.reads hw hd

end

omit [Monoid δ] in
theorem exists_user (hu : u ∈ s.users) (hw : w ∈ s.versions u') : ∃ u ∈ s.users, w ∈ s.versions u := by
  obtain ⟨hvi,hus⟩ := mem_versions.1 hw
  obtain ⟨f,hf⟩ := exists_files hw
  cases ho : w.directory.owner with
  | none =>
    refine ⟨u,hu,mem_versions.2 ⟨?_,hus⟩⟩
    rw [← hvi]
    exact isInView_of_top ho u u'
  | some u₀ =>
    have hmem := s.known (w,f) (Dict.mem_of_get hf) u₀ ho
    rw [owner_of_isInView hvi ho] at hmem
    exact ⟨u',hmem,hw⟩

theorem Mergeable.unharmed_iff (hm : Mergeable s u v b) (ha : adminAnalyse s uid = .ok a) :
    Unharmed s (s.commit v b) b ↔ OnlyChild s v b := by
  obtain ⟨f,upper,hv⟩ := exists_hasFiles hm.version
  obtain ⟨f',lower,hb⟩ := exists_hasFiles hm.backingVersion
  constructor
  · intro hu u' hu' w hw hba
    by_contra hwv
    have hwb : w ≠ b := by
      rintro rfl
      have hc : w ∈ s.getChildrenVersions u w := mem_filter.2 ⟨hm.backingVersion,decide_eq_true hba⟩
      rw [hm.children] at hc
      exact hwv (mem_singleton.1 hc)
    obtain ⟨_,i,hi⟩ := exists_hasFiles hw
    have hsa : (s.commit v b).image (.version w) = some i := by
      rw [image_commit hv hb,if_neg hwb,if_neg hwv,hi.imageOf]
    have hch := (hu u' w hw hwb).2.1 (.version b) (.single ⟨i,hsa,hi.backingImageFile.symm.trans hba⟩)
    rw [image_commit hv hb,if_pos rfl] at hch
    cases hch
  · intro honly u' w hw hne
    have hs : Survives s b w := ⟨hne,exists_user hm.user hw⟩
    exact ⟨isComplete_commit hv hb hw hne,chainComplete_commit ha hm honly hv hb hs,
      fun d hd => reads_commit ha hm honly hv hb hs hd⟩

end

/-- A request that is accepted harms no version exactly if `AdminVMFiles` has the version among
those that can be committed. -/
theorem vmCommit_unharmed_iff {gconf : Configuration} {uid u : Uid} {vmId : Str} {vmversionUid : Option Uid}
    {v b : VMVersion} {s : Store δ} (h : commitChecks gconf uid vmId vmversionUid v s = .ok (u,b)) :
    Unharmed s (vmCommit gconf uid vmId vmversionUid v s).1 b ↔
      ∃ a, adminAnalyse s uid = .ok a ∧ v ∈ a.committableVersions := by
  obtain ⟨⟨a,ha⟩,hm⟩ := mergeable_of_commitChecks h
  have hs : (vmCommit gconf uid vmId vmversionUid v s).1 = s.commit v b := by
    rw [vmCommit,h]
  rw [hs,hm.unharmed_iff ha,← hm.mem_committableVersions ha]
  refine ⟨fun hv => ⟨a,ha,hv⟩,?_⟩
  rintro ⟨a',ha',hv⟩
  cases ha.symm.trans ha'
  exact hv

def everyone : Configuration := fun _ _ => some ⟨fun _ => .ok true⟩
def base2 : VMVersion := ⟨.base,some 2,.top⟩
def base3 : VMVersion := ⟨.base,some 3,.top⟩
def custom : VMVersion := ⟨.user,some 0,.zone "zone" 1000⟩
def layer (backing : Option VMVersion) (c : Char) : Files (FreeMonoid Char) :=
  ⟨some ⟨backing.map .version,.of c⟩,true,true,some .stopped⟩

def twoBases : Store (FreeMonoid Char) where
  files := ⟨[(base2,layer none 'a'),(base3,layer (some base2) 'b'),(custom,layer (some base3) 'c')],by decide⟩
  others := .empty
  users := [1000,2000]
  known := by decide

/-- Another user has a version over the one that is merged. -/
theorem twoBases_unharmed : commitChecks everyone 2000 "vm" none base3 twoBases = .ok (2000,base2) ∧
    Unharmed twoBases (vmCommit everyone 2000 "vm" none base3 twoBases).1 base2 :=
  ⟨rfl,(vmCommit_unharmed_iff rfl).2 ⟨_,rfl,by decide⟩⟩

def sharedBase : Store (FreeMonoid Char) where
  files := ⟨[(base2,layer none 'a'),(base3,layer (some base2) 'b'),(custom,layer (some base2) 'c')],by decide⟩
  others := .empty
  users := [1000,2000]
  known := by decide

/-- The backing file of the customized version is gone. -/
theorem custom_harmed : commitChecks everyone 2000 "vm" none base3 sharedBase = .ok (2000,base2) ∧
    ¬ Unharmed sharedBase (vmCommit everyone 2000 "vm" none base3 sharedBase).1 base2 := by
  refine ⟨rfl,fun h => ?_⟩
  have hc := (h 1000 custom (by decide) (by decide)).2.1 (.version base2) (.single ⟨_,rfl,rfl⟩)
  cases hc

end Padsi.Vm
