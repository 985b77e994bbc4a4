import Padsi.Vm.Admin
import Padsi.Vm.Zones

/-! # Committing with live objects

The object `VMFiles` keeps its `VMVersion` objects, which remember the name of their
backing file, when it analyses the directory again.
-/
namespace Padsi.Vm
open Python Text List Option Store Files

variable {δ : Type}

/-- An object `VMFiles`: its versions, each with its backing file if it is known, and its indexes. -/
structure LiveFiles where
  uid : Uid
  versions : List VMVersion
  backing : VMVersion → Option ImagePath
  reverseDependencies : List (VMVersion × VMVersion)
  obsoleteVersions : List VMVersion
  committableVersions : List VMVersion

def dependency (backing : VMVersion → Option ImagePath) (w : VMVersion) : Option (VMVersion × VMVersion) :=
  match backing w with
  | some (.version b) => some (b,w)
  | _ => none

def childrenIn (dependencies : List (VMVersion × VMVersion)) (v : VMVersion) : List VMVersion :=
  (dependencies.filter fun d => d.1 = v).map Prod.snd
def LiveFiles.getChildrenVersions (f : LiveFiles) (v : VMVersion) : List VMVersion := childrenIn f.reverseDependencies v

namespace Store
variable (s : Store δ) (uid : Uid) (backing : VMVersion → Option ImagePath) (children : VMVersion → List VMVersion)

def isObsoleteBy (v : VMVersion) : Bool :=
  match v.versionType with
  | .base =>
    match v.versionNumber, (s.baseNumbers uid).max? with
    | some n, some last => last != 0 && decide (n < last) && (children v).isEmpty
    | _, _ => false
  | .user =>
    match v.versionNumber, v.zoneName.bind (s.lastUserNumber uid) with
    | some n, some last => decide (n < last) && (children v).isEmpty
    | _, _ => false
  | .snap => s.state v == some .discarded

def isCommittableBy (v : VMVersion) : Bool :=
  v.versionType == .base && v.versionNumber.isSome &&
    match (backing v).bind (s.versionOfImage uid) with
    | some b => (children b).length == 1
    | none => false

def indexes : LiveFiles where
  uid
  versions := s.versions uid
  backing
  reverseDependencies := (s.versions uid).filterMap (dependency backing)
  obsoleteVersions :=
    (s.versions uid).filter (s.isObsoleteBy uid (childrenIn ((s.versions uid).filterMap (dependency backing))))
  committableVersions :=
    (s.versions uid).filter
      (s.isCommittableBy uid backing (childrenIn ((s.versions uid).filterMap (dependency backing))))

end Store

namespace LiveFiles

def new (uid : Uid) : LiveFiles := ⟨uid,[],fun _ => none,[],[],[]⟩

/-- The backing file that the object of the version remembers, or else what the image says. -/
def seen (past : LiveFiles) (s : Store δ) (v : VMVersion) : Option ImagePath :=
  if v ∈ s.versions past.uid then
    if v ∈ past.versions then (past.backing v).or (s.backingImageFile v) else s.backingImageFile v
  else none

def analyse (past : LiveFiles) (s : Store δ) : Except VMExc LiveFiles :=
  match (s.versions past.uid).findSome? fun v => (past.seen s v).bind fun b =>
      if (s.versionOfImage past.uid b).isNone then some (VMExc.noBackingVersion v b) else none with
  | some e => .error e
  | none => .ok (s.indexes past.uid (past.seen s))

end LiveFiles

inductive CommitExc where
  | notCommittable
  | noBackingImage
  | noBackingVersion
  | noImage (p : ImagePath)
  | incoherent
  | ids
  | notComplete
  | identical
  | notDiscarded
  | typeMismatch
  | analysis (e : VMExc)
deriving DecidableEq, Repr

namespace Store

section
variable (s : Store δ) (v : VMVersion)

def modify (g : Files δ → Files δ) : Store δ := s.put v (g ((s.files.get v).getD ⟨none,false,false,none⟩))

def setImage (i : Option (Image δ)) : Store δ := s.modify v fun f => { f with image := i }

def imageOf : Except CommitExc (Image δ) :=
  match s.image (.version v) with
  | some i => .ok i
  | none => .error (.noImage (.version v))

def rename (w : VMVersion) : Except CommitExc (Store δ) := do
  let i ← s.imageOf v
  if v = w then return s
  return (s.setImage w (some i)).setImage v none

def rebase (w : VMVersion) : Except CommitExc (Store δ) := do
  let i ← s.imageOf v
  let _ ← (s.setImage v (some { i with backing := some (.version w) })).imageOf w
  return s.setImage v (some { i with backing := some (.version w) })

def moveInfos (w : VMVersion) : Store δ :=
  (s.modify w fun f => { f with vars := true, infos := true, state := s.state v }).modify v fun f =>
    { f with vars := false, infos := false, state := none }

end

section
variable [Monoid δ]

section
variable (s : Store δ) (v b : VMVersion)

def qemuCommit : Except CommitExc (Store δ) := do
  let upper ← s.imageOf v
  let lower ← s.imageOf b
  return (s.setImage b (some (upper.merge lower))).setImage v none

def checkManipulationsArguments (dest : VMVersion) (destUid destGid : Option ℕ) : Except CommitExc Unit :=
  if destUid.isSome ≠ destGid.isSome then .error .ids
  else if s.isComplete v = false then .error .notComplete
  else if v = dest then .error .identical
  else if s.isComplete dest = true then .error .notDiscarded
  else .ok ()

def commitInPlace : Except CommitExc (Store δ) := do
  let s₁ ← s.qemuCommit v b
  let s₂ ← s₁.rename b v
  return s₂.discardFiles b

def commitTo (dest : VMVersion) (destUid destGid : Option ℕ) : Except CommitExc (Store δ) := do
  s.checkManipulationsArguments v dest destUid destGid
  if v.versionType = .base ∧ dest.versionType ≠ .base then .error .typeMismatch
  else
    let s₁ ← ((s.discardFiles dest).moveInfos v dest).rename b dest
    let s₂ ← s₁.rebase v dest
    let s₃ ← s₂.qemuCommit v dest
    return s₃.discardFiles b

def commitVersion (dest : Option VMVersion) (destUid destGid : Option ℕ) : Except CommitExc (Store δ) := do
  let i ← s.imageOf v
  match i.backing with
  | none => .error .noBackingImage
  | some p =>
    if (s.image p).isNone then .error (.noImage p)
    else if p ≠ .version b then .error .incoherent
    else
      match dest with
      | none => s.commitInPlace v b
      | some dest => s.commitTo v b dest destUid destGid

end

end

def changeBackingVersion (newBacking : VMVersion) (s : Store δ) (w : VMVersion) : Except CommitExc (Store δ) := do
  if s.isComplete w = false then .error .notComplete
  else if w = newBacking then .error .identical
  else
    let i ← s.imageOf w
    if i.backing.isNone then .error .noBackingImage
    else s.rebase w newBacking

end Store

/-- The object given for a version, which is the one that `VMFiles` has or another one. -/
structure Argument where
  version : VMVersion
  own : Bool
  remembered : Option ImagePath

namespace LiveFiles

def forgotten (f : LiveFiles) (arg : Argument) (dest : Option VMVersion) : List VMVersion :=
  (if arg.own then [arg.version] else []) ++ if dest.isSome then f.getChildrenVersions arg.version else []

def afterCommit (f : LiveFiles) (arg : Argument) (b : VMVersion) (dest : Option VMVersion) : LiveFiles :=
  { f with
    versions := f.versions.filter fun w => w ≠ b
    backing := fun w => if w ∈ f.forgotten arg dest then none else f.backing w }

def rebaseChildren (f : LiveFiles) (v : VMVersion) (dest : Option VMVersion) (s : Store δ) :
    Except CommitExc (Store δ) :=
  match dest with
  | none => .ok s
  | some newBacking => (f.getChildrenVersions v).foldlM (Store.changeBackingVersion newBacking) s

def commitVersion [Monoid δ] (f : LiveFiles) (s : Store δ) (arg : Argument) (dest : Option VMVersion)
    (destUid destGid : Option ℕ) :
    Except CommitExc (Store δ × LiveFiles) := do
  if arg.version ∉ f.committableVersions then .error .notCommittable
  else
    match (if arg.own then f.backing arg.version else arg.remembered).or (s.backingImageFile arg.version) with
    | none => .error .noBackingImage
    | some p =>
      match f.versions.find? fun w => ImagePath.version w = p with
      | none => .error .noBackingVersion
      | some b =>
        let s₁ ← s.commitVersion arg.version b dest destUid destGid
        let s₂ ← f.rebaseChildren arg.version dest s₁
        match (f.afterCommit arg b dest).analyse s₂ with
        | .error e => .error (.analysis e)
        | .ok f' => return (s₂,f')

end LiveFiles

section
variable {s : Store δ} {u : Uid} {f past : LiveFiles} {v w b : VMVersion} {backing : VMVersion → Option ImagePath}

theorem LiveFiles.analyse_eq_ok : past.analyse s = .ok f ↔
    (∀ v ∈ s.versions past.uid, ∀ p, past.seen s v = some p → ∃ w ∈ s.versions past.uid, p = .version w) ∧
      f = s.indexes past.uid (past.seen s) := by
  unfold analyse
  split
  · rename_i e hs
    refine iff_of_false (by simp) fun h => ?_
    obtain ⟨v,hv,he⟩ := exists_of_findSome?_eq_some hs
    rw [orphan_eq_none.2 (h.1 v hv)] at he
    cases he
  · rename_i hnone
    rw [Except.ok.injEq, and_iff_right fun v hv => orphan_eq_none.1 (findSome?_eq_none_iff.1 hnone v hv)]
    exact eq_comm

theorem childrenIn_eq (l : List VMVersion) (v : VMVersion) :
    childrenIn (l.filterMap (dependency backing)) v = l.filter fun w => backing w = some (.version v) := by
  induction l with
  | nil => rfl
  | cons w l ih =>
    unfold childrenIn at ih ⊢
    cases hw : backing w with
    | none => simp [dependency,hw,ih]
    | some p =>
      cases p with
      | other path => simp [dependency,hw,ih]
      | version b =>
        by_cases hb : b = v
        · simp [dependency,hw,hb,ih]
        · simp [dependency,hw,hb,ih]

theorem LiveFiles.seen_new (hw : w ∈ s.versions u) : (LiveFiles.new u).seen s w = s.backingImageFile w := by
  simp [seen,new,hw]
def IsFresh (s : Store δ) (u : Uid) (f : LiveFiles) : Prop := (LiveFiles.new u).analyse s = .ok f

namespace IsFresh
variable (h : IsFresh s u f)
include h

theorem closed (hw : w ∈ s.versions u) {p : ImagePath} (hp : s.backingImageFile w = some p) :
    ∃ x ∈ s.versions u, p = .version x :=
  (LiveFiles.analyse_eq_ok.1 h).1 w hw p ((LiveFiles.seen_new hw).trans hp)
theorem eq_indexes : f = s.indexes u ((LiveFiles.new u).seen s) := (LiveFiles.analyse_eq_ok.1 h).2

theorem versions_eq : f.versions = s.versions u := by
  rw [h.eq_indexes]
  rfl

theorem uid_eq : f.uid = u := by
  rw [h.eq_indexes]
  rfl

theorem backing_eq (hw : w ∈ s.versions u) : f.backing w = s.backingImageFile w := by
  rw [h.eq_indexes]
  exact LiveFiles.seen_new hw

theorem children_eq (v : VMVersion) : f.getChildrenVersions v = s.getChildrenVersions u v := by
  rw [h.eq_indexes]
  change childrenIn ((s.versions u).filterMap (dependency ((LiveFiles.new u).seen s))) v = _
  rw [childrenIn_eq]
  refine filter_congr fun w hw => ?_
  rw [LiveFiles.seen_new hw]

theorem view : Vm.analyse s u = .ok ⟨u,f.versions,f.obsoleteVersions,f.committableVersions⟩ := by
  refine Vm.analyse_eq_ok.2 ⟨fun v hv p hp => h.closed hv hp,?_⟩
  have hch : childrenIn ((s.versions u).filterMap (dependency ((LiveFiles.new u).seen s))) =
      s.getChildrenVersions u := by
    funext v
    rw [← h.children_eq v,h.eq_indexes]
    rfl
  rw [h.eq_indexes]
  change VMFiles.mk u (s.versions u) ((s.versions u).filter (s.isObsoleteBy u _))
    ((s.versions u).filter (s.isCommittableBy u _ _)) = _
  rw [hch]
  have hco (v : VMVersion) (hv : v ∈ s.versions u) :
      s.isCommittableBy u ((LiveFiles.new u).seen s) (s.getChildrenVersions u) v = s.isCommittable u v := by
    rw [isCommittableBy,LiveFiles.seen_new hv]
    rfl
  rw [filter_congr hco]
  rfl

theorem committable (hv : v ∈ f.committableVersions) : v ∈ s.versions u ∧ s.isCommittable u v = true := by
  have hvi := (Vm.analyse_eq_ok.1 h.view).2
  rw [VMFiles.mk.injEq] at hvi
  rw [hvi.2.2.2] at hv
  exact mem_filter.1 hv

end IsFresh

end

section
variable {s s' : Store δ} {v w b dest : VMVersion} {i upper lower : Image δ} {g : Files δ → Files δ} {f f' : Files δ}

theorem Store.get_put (s : Store δ) (v w : VMVersion) (f : Files δ) :
    (s.put v f).files.get w = if w = v then some f else s.files.get w :=
  Dict.get_set s.files v w f

theorem Store.get_modify (s : Store δ) (v w : VMVersion) (g : Files δ → Files δ) :
    (s.modify v g).files.get w = if w = v then some (g ((s.files.get v).getD ⟨none,false,false,none⟩))
      else s.files.get w :=
  get_put s v w _

theorem Store.get_setImage (s : Store δ) (v w : VMVersion) (i : Option (Image δ)) :
    (s.setImage v i).files.get w = if w =
      v then some { (s.files.get v).getD ⟨none,false,false,none⟩ with image := i } else s.files.get w :=
  get_modify s v w _

theorem Store.image_of_get (h : s.files.get v = some f) : s.image (.version v) = f.image := by
  rw [image,h,bind_some]

theorem Store.imageOf_eq_ok : s.imageOf v = .ok i ↔ s.image (.version v) = some i := by
  unfold imageOf
  cases s.image (.version v) with
  | none => simp
  | some j => simp

theorem Store.imageOf_of_get (h : s.files.get v = some f) (hi : s.imageOf v = .ok i) : f.image = some i :=
  (image_of_get h).symm.trans (imageOf_eq_ok.1 hi)

theorem Store.rebase_eq_ok (h : s.rebase v w = .ok s') : ∃ i, s.image (.version v) = some i ∧
    s' = s.setImage v (some { i with backing := some (.version w) }) := by
  obtain ⟨i,hi,h⟩ := bind_eq_ok.1 h
  obtain ⟨_,_,h⟩ := bind_eq_ok.1 h
  cases h
  exact ⟨i,imageOf_eq_ok.1 hi,rfl⟩

variable [Monoid δ]

theorem Store.get_commitInPlace (hv : HasFiles s v f upper) (hb : HasFiles s b f' lower)
    (h : s.commitInPlace v b = .ok s') :
    v ≠ b ∧ ∀ w, s'.files.get w = if w = b then none else if w =
      v then some { f with image := some (upper.merge lower) } else s.files.get w := by
  obtain ⟨s₁,h₁,h⟩ := bind_eq_ok.1 h
  obtain ⟨s₂,h₂,h⟩ := bind_eq_ok.1 h
  cases h
  obtain ⟨i,hi,h₁⟩ := bind_eq_ok.1 h₁
  obtain ⟨j,hj,h₁⟩ := bind_eq_ok.1 h₁
  cases h₁
  cases hv.imageOf.symm.trans (imageOf_eq_ok.1 hi)
  cases hb.imageOf.symm.trans (imageOf_eq_ok.1 hj)
  obtain ⟨k,hk,h₂⟩ := bind_eq_ok.1 h₂
  -- the image of the version is removed before the backing file is renamed
  have hne : v ≠ b := by
    rintro rfl
    cases imageOf_of_get ((get_setImage _ v v none).trans (if_pos rfl)) hk
  have hf : ((s.setImage b (some (upper.merge lower))).setImage v none).files.get b =
      some { f' with image := some (upper.merge lower) } := by
    simp only [get_setImage,if_neg hne.symm,if_true,hb.get,getD_some]
  cases imageOf_of_get hf hk
  rw [if_neg hne.symm] at h₂
  cases h₂
  refine ⟨hne,fun w => ?_⟩
  by_cases hwb : w = b
  · simp only [get_discardFiles,if_pos hwb]
  · by_cases hwv : w = v
    · simp only [get_discardFiles,get_setImage,if_neg hwb,if_pos hwv,if_true,if_neg hne,hv.get,getD_some]
    · simp only [get_discardFiles,get_setImage,if_neg hwb,if_neg hwv]

omit [Monoid δ] in
theorem Store.checkManipulationsArguments_eq_ok {destUid destGid : Option ℕ}
    (h : s.checkManipulationsArguments v dest destUid destGid = .ok ()) : v ≠ dest ∧ s.isComplete dest = false := by
  unfold checkManipulationsArguments at h
  split_ifs at h with _ _ hne hco
  exact ⟨hne,Bool.eq_false_iff.2 hco⟩

omit [Monoid δ] in
theorem Store.get_moveInfos (hv : HasFiles s v f upper) (hne : v ≠ dest) (w : VMVersion) :
    ((s.discardFiles dest).moveInfos v dest).files.get w =
    if w = v then some ⟨some upper,false,false,none⟩ else if w =
      dest then some ⟨none,true,true,f.state⟩ else s.files.get w := by
  have hg : (s.discardFiles dest).files.get v = some f := by
    rw [get_discardFiles,if_neg hne,hv.get]
  have hs : (s.discardFiles dest).state v = f.state := by
    rw [state,hg,bind_some]
  have hnone : (s.discardFiles dest).files.get dest = none := by
    rw [get_discardFiles,if_pos rfl]
  unfold moveInfos
  rw [get_modify,get_modify,if_neg hne,hg,get_modify,hs,hnone,getD_some,getD_none,hv.image]
  by_cases hwv : w = v
  · simp only [if_pos hwv]
  · by_cases hwd : w = dest
    · simp only [if_neg hwv,if_pos hwd]
    · simp only [if_neg hwv,if_neg hwd,get_discardFiles]

/-- What is left at each name after the merge into another version. -/
theorem Store.get_commitTo (hv : HasFiles s v f upper) (hb : HasFiles s b f' lower) {destUid destGid : Option ℕ}
    (h : s.commitTo v b dest destUid destGid = .ok s') :
    v ≠ b ∧ v ≠ dest ∧ s.isComplete dest = false ∧ ∀ w, s'.files.get w =
      if w = b then none else if w = dest then some ⟨some (upper.merge lower),true,true,f.state⟩
      else if w = v then some ⟨none,false,false,none⟩ else s.files.get w := by
  obtain ⟨⟨⟩,hch,h⟩ := bind_eq_ok.1 h
  obtain ⟨hvd,hd⟩ := checkManipulationsArguments_eq_ok hch
  have hbd : b ≠ dest := by
    rintro rfl
    rw [isComplete_iff.2 ⟨f',lower,hb⟩] at hd
    cases hd
  split_ifs at h
  obtain ⟨s₁,h₁,h⟩ := bind_eq_ok.1 h
  obtain ⟨s₂,h₂,h⟩ := bind_eq_ok.1 h
  obtain ⟨s₃,h₃,h⟩ := bind_eq_ok.1 h
  cases h
  have hm := get_moveInfos hv hvd
  generalize (s.discardFiles dest).moveInfos v dest = s₀ at h₁ hm
  obtain ⟨i,hi,h₁⟩ := bind_eq_ok.1 h₁
  rw [if_neg hbd] at h₁
  cases h₁
  obtain ⟨j,hj,rfl⟩ := rebase_eq_ok h₂
  -- the backing file was renamed, so that it is not the image of the version itself
  have hvb : v ≠ b := by
    rintro rfl
    rw [image_of_get ((get_setImage _ v v none).trans (if_pos rfl))] at hj
    cases hj
  have hfb : s₀.files.get b = some f' := by
    rw [hm,if_neg hvb.symm,if_neg hbd,hb.get]
  cases hb.image.symm.trans (imageOf_of_get hfb hi)
  have hf : ((s₀.setImage dest (some lower)).setImage b none).files.get v = some ⟨some upper,false,false,none⟩ := by
    simp only [get_setImage,if_neg hvb,if_neg hvd,hm,if_true]
  rw [image_of_get hf] at hj
  cases hj
  have hfd : ((s₀.setImage dest (some lower)).setImage b none).files.get dest =
      some ⟨some lower,true,true,f.state⟩ := by
    simp only [get_setImage,if_neg hbd.symm,if_true,hm,if_neg hvd.symm,getD_some]
  have ho (w : VMVersion) (hwb : w ≠ b) (hwv : w ≠ v) (hwd : w ≠ dest) :
      ((s₀.setImage dest (some lower)).setImage b none).files.get w = s.files.get w := by
    simp only [get_setImage,if_neg hwb,if_neg hwd,hm,if_neg hwv]
  generalize (s₀.setImage dest (some lower)).setImage b none = s₁ at h₂ h₃ hf hfd ho
  obtain ⟨k,hk,h₃⟩ := bind_eq_ok.1 h₃
  obtain ⟨l,hl,h₃⟩ := bind_eq_ok.1 h₃
  cases h₃
  cases imageOf_of_get ((get_setImage s₁ v v _).trans (if_pos rfl)) hk
  cases imageOf_of_get ((get_setImage s₁ v dest _).trans ((if_neg hvd.symm).trans hfd)) hl
  refine ⟨hvb,hvd,hd,fun w => ?_⟩
  by_cases hwb : w = b
  · simp only [get_discardFiles,if_pos hwb]
  by_cases hwd : w = dest
  · have hwv : w ≠ v := fun h => hvd (h.symm.trans hwd)
    simp only [get_discardFiles,get_setImage,if_neg hwb,if_neg hwv,if_pos hwd,if_neg hvd.symm,hfd,getD_some]
    rfl
  by_cases hwv : w = v
  · simp only [get_discardFiles,get_setImage,if_neg hwb,if_neg hwd,if_pos hwv,if_neg hvd,if_true,hf,getD_some]
  · simp only [get_discardFiles,get_setImage,if_neg hwb,if_neg hwd,if_neg hwv,ho w hwb hwv hwd]

def Files.rebased (dest : VMVersion) (f : Files δ) : Files δ :=
  { f with image := f.image.map fun i => { i with backing := some (.version dest) } }

omit [Monoid δ] in
theorem Store.get_changeBackingVersion (h : s.changeBackingVersion dest v = .ok s') (w : VMVersion) :
    s'.files.get w = if w = v then (s.files.get w).map (rebased dest) else s.files.get w := by
  unfold changeBackingVersion at h
  split_ifs at h
  obtain ⟨_,_,h⟩ := bind_eq_ok.1 h
  split_ifs at h
  obtain ⟨i,hi,rfl⟩ := rebase_eq_ok h
  obtain ⟨f,hf,hfi⟩ := bind_eq_some_iff.1 hi
  rw [get_setImage]
  split_ifs with hw
  · rw [hw,hf,getD_some,map_some,rebased,hfi]
    rfl
  · rfl

omit [Monoid δ] in
theorem Store.get_foldlM_changeBackingVersion {l : List VMVersion}
    (h : l.foldlM (changeBackingVersion dest) s = .ok s') (w : VMVersion) :
    s'.files.get w = if w ∈ l then (s.files.get w).map (rebased dest) else s.files.get w := by
  induction l generalizing s with
  | nil =>
    cases h
    rfl
  | cons v l ih =>
    rw [foldlM_cons] at h
    obtain ⟨s₁,h₁,h⟩ := bind_eq_ok.1 h
    rw [ih h,get_changeBackingVersion h₁]
    by_cases hwv : w = v
    · -- changing the backing file twice changes nothing more
      have ht (f : Files δ) : (f.rebased dest).rebased dest = f.rebased dest := by
        simp only [rebased,Option.map_map]
        rfl
      have hm : ((s.files.get w).map (rebased dest)).map (rebased dest) = (s.files.get w).map (rebased dest) := by
        rw [Option.map_map]
        exact congrArg (fun g => (s.files.get w).map g) (funext ht)
      simp only [hwv,if_true,mem_cons,true_or]
      split_ifs
      · rw [← hwv,hm]
      · rfl
    · simp only [mem_cons,hwv,false_or,if_false]

omit [Monoid δ] in
theorem Store.isComplete_congr (dest : VMVersion)
    (h : (s.files.get w).map (rebased dest) = s'.files.get w ∨ s.files.get w = s'.files.get w) :
    s'.isComplete w = s.isComplete w := by
  unfold isComplete
  rcases h with h | h
  · rw [← h]
    cases s.files.get w with
    | none => rfl
    | some f => simp [rebased]
  · rw [h]

omit [Monoid δ] in
theorem Store.complete_of_foldlM {l : List VMVersion} (h : l.foldlM (changeBackingVersion dest) s = .ok s') :
    ∀ w ∈ l, s.isComplete w = true := by
  induction l generalizing s with
  | nil => simp
  | cons v l ih =>
    rw [foldlM_cons] at h
    obtain ⟨s₁,h₁,h⟩ := bind_eq_ok.1 h
    refine forall_mem_cons.2 ⟨?_,fun w hw => ?_⟩
    · unfold changeBackingVersion at h₁
      split_ifs at h₁ with hco
      · exact Bool.eq_true_of_not_eq_false hco
    · have hg := get_changeBackingVersion h₁ w
      rw [← ih h w hw]
      refine (isComplete_congr dest ?_).symm
      split_ifs at hg
      · exact .inl hg.symm
      · exact .inr hg.symm

end

def renamed (v : VMVersion) (dest : Option VMVersion) (w : VMVersion) : VMVersion := if w = v then dest.getD v else w
def Image.renamed (rename : VMVersion → VMVersion) (i : Image δ) : Image δ := ⟨i.backing.map (.renamed rename),i.data⟩

section
variable [Monoid δ]

structure Committed (s s' : Store δ) (u : Uid) (v b : VMVersion) (dest : Option VMVersion)
    (upper lower : Image δ) : Prop where
  ne : v ≠ b
  fresh : ∀ w ∈ dest, w ≠ v ∧ s.isComplete w = false
  removed : s'.files.get b = none
  result : ∃ f, HasFiles s' (dest.getD v) f ((upper.merge lower).renamed (renamed v dest))
  gone : dest.isSome = true → s'.isComplete v = false
  kept : ∀ w ∈ s.versions u, w ≠ b → w ≠ v → ∀ f i, HasFiles s w f i →
    HasFiles s' w { f with image := some (i.renamed (renamed v dest)) } (i.renamed (renamed v dest))
  others : ∀ w, w ≠ b → w ≠ v → dest ≠ some w → s'.isComplete w = s.isComplete w

variable {s s' : Store δ} {u : Uid} {v w b : VMVersion} {dest : Option VMVersion} {upper lower : Image δ}
  {f : LiveFiles}

omit [Monoid δ] in
theorem Image.renamed_eq_self {rename : VMVersion → VMVersion} {i : Image δ}
    (h : ∀ x, i.backing = some (.version x) → rename x = x) : i.renamed rename = i := by
  obtain ⟨backing,data⟩ := i
  cases backing with
  | none => rfl
  | some p =>
    cases p with
    | other path => rfl
    | version x =>
      have hx : rename x = x := h x rfl
      simp [Image.renamed,ImagePath.renamed,hx]

theorem renamed_none (v w : VMVersion) : renamed v none w = w := by
  unfold renamed
  split_ifs with hw
  · exact hw.symm
  · rfl

structure Candidate (s : Store δ) (u : Uid) (v b : VMVersion) : Prop where
  version : v ∈ s.versions u
  committable : s.isCommittable u v = true
  backing : s.backingImageFile v = some (.version b)
  backingVersion : b ∈ s.versions u

omit [Monoid δ] in
theorem Candidate.eq_of_child (h : Candidate s u v b) (hw : w ∈ s.versions u)
    (hb : s.backingImageFile w = some (.version b)) : w = v := by
  have hch : w ∈ s.getChildrenVersions u b := mem_filter.2 ⟨hw,decide_eq_true hb⟩
  rw [children_of_committable h.version h.backingVersion h.committable h.backing] at hch
  exact mem_singleton.1 hch

theorem committed_in_place {fv fb : Files δ} (hv : HasFiles s v fv upper) (hb : HasFiles s b fb lower)
    (h : s.commitInPlace v b = .ok s') : Committed s s' u v b none upper lower := by
  obtain ⟨hne,hg⟩ := get_commitInPlace hv hb h
  have hs (i : Image δ) : i.renamed (renamed v none) = i := Image.renamed_eq_self fun x _ => renamed_none v x
  refine ⟨hne,by simp,(hg b).trans (if_pos rfl),?_,by simp,?_,?_⟩
  · refine ⟨{ fv with image := some (upper.merge lower) },?_,?_,hv.vars,hv.infos⟩
    · exact (hg v).trans (by rw [if_neg hne,if_pos rfl])
    · rw [hs]
  · intro w _ hwb hwv f i hw
    rw [hs]
    refine ⟨?_,rfl,hw.vars,hw.infos⟩
    rw [hg w,if_neg hwb,if_neg hwv,hw.get,← hw.image]
  · intro w hwb hwv _
    refine isComplete_congr v (.inr ?_)
    rw [hg w,if_neg hwb,if_neg hwv]

/-- The commit to another version: the children are laid on it, and both merged ones are gone. -/
theorem committed_to (hc : Candidate s u v b) {fv fb : Files δ} (hv : HasFiles s v fv upper)
    (hb : HasFiles s b fb lower)
    {dst : VMVersion} {destUid destGid : Option ℕ} {s₁ : Store δ} (h : s.commitTo v b dst destUid destGid = .ok s₁)
    (hl : (s.getChildrenVersions u v).foldlM (changeBackingVersion dst) s₁ = .ok s') :
    Committed s s' u v b (some dst) upper lower := by
  obtain ⟨hne,hvt,hto,hg⟩ := get_commitTo hv hb h
  have hbt : b ≠ dst := by
    rintro rfl
    rw [isComplete_iff.2 ⟨fb,lower,hb⟩] at hto
    cases hto
  have hch (w : VMVersion) : w ∈ s.getChildrenVersions u v ↔
      w ∈ s.versions u ∧ s.backingImageFile w = some (.version v) := by
    rw [getChildrenVersions,mem_filter,decide_eq_true_iff]
  have hb₁ : s₁.files.get b = none := (hg b).trans (if_pos rfl)
  -- the backing version is not a child of the version: it would not be complete any more
  have hbv : b ∉ s.getChildrenVersions u v := by
    intro hmem
    have hco := complete_of_foldlM hl b hmem
    rw [isComplete,hb₁] at hco
    cases hco
  have hvv : v ∉ s.getChildrenVersions u v := by
    intro hmem
    cases hc.backing.symm.trans ((hch v).1 hmem).2
    exact hne rfl
  have ht : dst ∉ s.getChildrenVersions u v := by
    intro hmem
    rw [isComplete_of_isUsable (mem_versions.1 ((hch dst).1 hmem).1).2] at hto
    cases hto
  have hgt (w : VMVersion) := get_foldlM_changeBackingVersion hl w
  have hr : (upper.merge lower).renamed (renamed v (some dst)) = upper.merge lower := by
    refine Image.renamed_eq_self fun x hx => if_neg fun hxv => hbv ?_
    exact (hch b).2 ⟨hc.backingVersion,by rw [← hxv]; exact hb.backingImageFile.trans hx⟩
  refine ⟨hne,?_,?_,?_,?_,?_,?_⟩
  · intro w hw
    cases hw
    exact ⟨hvt.symm,hto⟩
  · rw [hgt b,if_neg hbv,hb₁]
  · refine ⟨⟨some (upper.merge lower),true,true,fv.state⟩,?_,?_,rfl,rfl⟩
    · change s'.files.get dst = _
      rw [hgt dst,if_neg ht,hg dst,if_neg hbt.symm,if_pos rfl]
    · rw [hr]
  · intro _
    rw [isComplete,hgt v,if_neg hvv,hg v,if_neg hne,if_neg hvt,if_pos rfl]
    rfl
  · intro w hw hwb hwv fw i hf
    have hwt : w ≠ dst := by
      rintro rfl
      rw [isComplete_of_isUsable (mem_versions.1 hw).2] at hto
      cases hto
    have hw₁ : s₁.files.get w = some fw := by
      rw [hg w,if_neg hwb,if_neg hwt,if_neg hwv,hf.get]
    refine ⟨?_,rfl,hf.vars,hf.infos⟩
    rw [hgt w,hw₁]
    split_ifs with hmem
    · have hba := hf.backingImageFile.symm.trans ((hch w).1 hmem).2
      rw [map_some,rebased,hf.image,map_some,Image.renamed,hba]
      simp [ImagePath.renamed,renamed]
    · have hs : i.renamed (renamed v (some dst)) = i := by
        refine Image.renamed_eq_self fun x hx => if_neg fun hxv => hmem ?_
        exact (hch w).2 ⟨hw,by rw [← hxv]; exact hf.backingImageFile.trans hx⟩
      rw [hs,← hf.image]
  · intro w hwb hwv hwt
    have hw₁ : s₁.files.get w = s.files.get w := by
      rw [hg w, if_neg hwb, if_neg fun h => hwt (congrArg some h.symm), if_neg hwv]
    have hge := hgt w
    rw [hw₁] at hge
    refine isComplete_congr dst ?_
    split_ifs at hge
    · exact .inl hge.symm
    · exact .inr hge.symm

/-- The versions after the commit are those before it, apart from the merged one, and contain what
they contained. -/
structure Preserved (s s' : Store δ) (u : Uid) (v b : VMVersion) (dest : Option VMVersion) : Prop where
  versions : ∀ w, s'.isComplete w = true ↔ (s.isComplete w = true ∧ w ≠ b ∧ (w = v → dest = none)) ∨ dest = some w
  disks : ∀ u' w d, IsVersionOf s u' w → w ≠ b → Reads s (.version w) d → Reads s' (.version (renamed v dest w)) d
  backings : ∀ w ∈ s'.versions u, ∀ p, s'.backingImageFile w = some p → ∃ x ∈ s'.versions u, p = .version x
  usable : (∀ w, IsVersionOf s u w → s.isUsable w = true) → ∀ w, IsVersionOf s' u w → s'.isUsable w = true

section
variable (hfresh : IsFresh s u f) (hc : Candidate s u v b)
  (hcommitted : Committed s s' u v b dest upper lower)

theorem isUsable_of_reads {d : δ} (hco : s.isComplete w = true) (h : Reads s (.version w) d) : s.isUsable w = true := by
  refine Bool.and_eq_true_iff.2 ⟨hco,?_⟩
  cases h with
  | root hp hi => simp [backingImageFile,hp,hi]
  | layer hp hi hb =>
    simp only [backingImageFile,hp,bind_some,hi]
    cases hb with
    | root hp' _ => simp [hp']
    | layer hp' _ _ => simp [hp']

include hfresh hc

omit [Monoid δ] in
theorem alive_backing {i : Image δ} {q : ImagePath} (hw : w ∈ s.versions u) (hwv : w ≠ v)
    (hi : s.image (.version w) = some i)
    (hq : i.backing = some q) : ∃ x, q = .version x ∧ x ∈ s.versions u ∧ x ≠ b := by
  have hb : s.backingImageFile w = some q := by
    rw [backingImageFile,hi,bind_some,hq]
  obtain ⟨x,hx,rfl⟩ := hfresh.closed hw hb
  refine ⟨x,rfl,hx,?_⟩
  rintro rfl
  exact hwv (hc.eq_of_child hw hb)

include hcommitted

theorem merges_of_committed (hu : s.image (.version v) = some upper) (hl : s.image (.version b) = some lower) :
    Merges s s' (fun w => w ∈ s.versions u ∧ w ≠ b) (renamed v dest) v b upper lower where
  imageUpper := hu
  imageLower := hl
  backing := by
    have hb := hc.backing
    rwa [backingImageFile, hu, bind_some] at hb
  merged _ := by
    obtain ⟨fr,hr⟩ := hcommitted.result
    rw [renamed,if_pos rfl]
    exact hr.imageOf
  below _ q hq := alive_backing hfresh hc hc.backingVersion hcommitted.ne.symm hl hq
  others w i hw hwv hi := by
    obtain ⟨fw,j,hf⟩ := exists_hasFiles hw.1
    cases hf.imageOf.symm.trans hi
    rw [renamed,if_neg hwv]
    exact (hcommitted.kept w hw.1 hw.2 hwv fw i hf).imageOf
  closed w i q hw hwv hi hq := alive_backing hfresh hc hw.1 hwv hi hq

omit hfresh hc in
theorem image_of_alive (hw : w ∈ s.versions u) (hwb : w ≠ b) :
    (s'.image (.version (renamed v dest w))).isSome = true := by
  by_cases hwv : w = v
  · obtain ⟨fr,hr⟩ := hcommitted.result
    rw [renamed,if_pos hwv,hr.imageOf]
    rfl
  · obtain ⟨fw,i,hf⟩ := exists_hasFiles hw
    rw [renamed,if_neg hwv,(hcommitted.kept w hw hwb hwv fw i hf).imageOf]
    rfl

omit hfresh in
theorem isComplete_committed (w : VMVersion) :
    s'.isComplete w = true ↔ (s.isComplete w = true ∧ w ≠ b ∧ (w = v → dest = none)) ∨ dest = some w := by
  obtain ⟨fr,hr⟩ := hcommitted.result
  have hre := isComplete_iff.2 ⟨fr,_,hr⟩
  have hv := isComplete_of_isUsable (mem_versions.1 hc.version).2
  by_cases hwb : w = b
  · subst hwb
    refine iff_of_false (by simp [isComplete,hcommitted.removed]) ?_
    rintro (⟨_,hne,_⟩ | hd)
    · exact hne rfl
    · have hco := isComplete_of_isUsable (mem_versions.1 hc.backingVersion).2
      rw [(hcommitted.fresh w hd).2] at hco
      cases hco
  cases dest with
  | none =>
    by_cases hwv : w = v
    · subst hwv
      exact iff_of_true hre (.inl ⟨hv,hwb,fun _ => rfl⟩)
    · simp [hcommitted.others w hwb hwv (by simp), hwb]
  | some dst =>
    by_cases hwd : w = dst
    · subst hwd
      exact iff_of_true hre (.inr rfl)
    · by_cases hwv : w = v
      · subst hwv
        simp [hcommitted.gone rfl,Ne.symm hwd]
      · have hne : some dst ≠ some w := fun h => hwd (Option.some.inj h).symm
        simp [hcommitted.others w hwb hwv hne,hwb,hwv,Ne.symm hwd]

theorem isUsable_committed (hl : s.image (.version b) = some lower) (ha : ∀ w, IsVersionOf s u w → s.isUsable w = true)
    (hw : IsVersionOf s' u w) : s'.isUsable w = true := by
  refine Bool.and_eq_true_iff.2 ⟨hw.complete,?_⟩
  -- the backing file is the one of a version that is left, under its new name
  have hb : ∀ i q, s'.image (.version w) = some i → i.backing = some q → (s'.image q).isSome = true := by
    intro i q hi hq
    have hold : ∃ x, q = .version (renamed v dest x) ∧ x ∈ s.versions u ∧ x ≠ b := by
      by_cases hre : w = dest.getD v
      · obtain ⟨fr,hr⟩ := hcommitted.result
        rw [hre,hr.imageOf] at hi
        cases hi
        obtain ⟨p,hp,hpq⟩ := map_eq_some_iff.1 hq
        obtain ⟨x,rfl,hx⟩ := alive_backing hfresh hc hc.backingVersion hcommitted.ne.symm hl hp
        exact ⟨x,hpq.symm,hx⟩
      · rcases (isComplete_committed hc hcommitted w).1 hw.complete with ⟨hco,hwb,hwv⟩ | hd
        · have hwv : w ≠ v := by
            rintro rfl
            rw [hwv rfl] at hre
            exact hre rfl
          have hv := mem_versions.2 ⟨hw.view,ha w ⟨hw.view,hco⟩⟩
          obtain ⟨fw,j,hf⟩ := exists_hasFiles hv
          rw [(hcommitted.kept w hv hwb hwv fw j hf).imageOf] at hi
          cases hi
          obtain ⟨p,hp,hpq⟩ := map_eq_some_iff.1 hq
          obtain ⟨x,rfl,hx⟩ := alive_backing hfresh hc hv hwv hf.imageOf hp
          exact ⟨x,hpq.symm,hx⟩
        · rw [hd] at hre
          exact absurd rfl hre
    obtain ⟨x,rfl,hx,hxb⟩ := hold
    exact image_of_alive hcommitted hx hxb
  cases hi : s'.image (.version w) with
  | none => simp [backingImageFile,hi]
  | some i =>
    cases hq : i.backing with
    | none => simp [backingImageFile,hi,hq]
    | some q => simp [backingImageFile,hi,hq,hb i q hi hq]

theorem disks_committed {d : δ} (hu : s.image (.version v) = some upper) (hl : s.image (.version b) = some lower)
    (hw : IsVersionOf s u w) (hwb : w ≠ b) (hd : Reads s (.version w) d) :
    Reads s' (.version (renamed v dest w)) d := by
  have hv := mem_versions.2 ⟨hw.view,isUsable_of_reads hw.complete hd⟩
  exact (merges_of_committed hfresh hc hcommitted hu hl).reads ⟨hv,hwb⟩ hd

end

section
variable {arg : Argument} {f' : LiveFiles}

omit [Monoid δ] in
theorem backing_afterCommit {p : ImagePath} (h : (f.afterCommit arg b dest).backing w = some p) :
    f.backing w = some p ∧ (dest.isSome = true → w ∉ f.getChildrenVersions arg.version) := by
  change (if w ∈ f.forgotten arg dest then none else f.backing w) = some p at h
  split_ifs at h with hw
  refine ⟨h,fun hd hch => hw ?_⟩
  rw [LiveFiles.forgotten,if_pos hd]
  exact mem_append_right _ hch

/-- The names that the objects remember are those that the images have. -/
theorem seen_afterCommit (hfresh : IsFresh s u f) (hc : Candidate s u arg.version b)
    (hcommitted : Committed s s' u arg.version b dest upper lower)
    (hl : (f.afterCommit arg b dest).analyse s' = .ok f') :
    (f.afterCommit arg b dest).seen s' = (LiveFiles.new u).seen s' := by
  have hu : (f.afterCommit arg b dest).uid = u := hfresh.uid_eq
  have hf := (LiveFiles.analyse_eq_ok.1 hl).1
  rw [hu] at hf
  funext w
  by_cases hw : w ∈ s'.versions u
  · rw [LiveFiles.seen_new hw]
    have hs : (f.afterCommit arg b dest).seen s' w =
        if w ∈ (f.afterCommit arg b dest).versions then ((f.afterCommit arg b dest).backing w).or
          (s'.backingImageFile w)
        else s'.backingImageFile w := by
      rw [LiveFiles.seen,hu,if_pos hw]
    rw [hs]
    split_ifs with hp
    · cases hname : (f.afterCommit arg b dest).backing w with
      | none => rfl
      | some p =>
        rw [some_or]
        obtain ⟨hb,hch⟩ := backing_afterCommit hname
        obtain ⟨hmem,hwb⟩ := mem_filter.1 hp
        have hwb := of_decide_eq_true hwb
        rw [hfresh.versions_eq] at hmem
        rw [hfresh.backing_eq hmem] at hb
        by_cases hwv : w = arg.version
        · -- the object of the version remembers the merged file, which is not there any more
          exfalso
          rw [hname,if_pos hp,some_or] at hs
          obtain ⟨x,hx,rfl⟩ := hf w hw p hs
          rw [hwv] at hb
          cases hc.backing.symm.trans hb
          have hco := isComplete_of_isUsable (mem_versions.1 hx).2
          rw [isComplete,hcommitted.removed] at hco
          cases hco
        · obtain ⟨fw,i,hfi⟩ := exists_hasFiles hmem
          have hk := hcommitted.kept w hmem hwb hwv fw i hfi
          obtain ⟨x,_,rfl⟩ := hfresh.closed hmem hb
          rw [hk.backingImageFile,Image.renamed,← hfi.backingImageFile,hb,map_some,ImagePath.renamed]
          cases dest with
          | none => rw [renamed_none]
          | some dst =>
            have hxv : x ≠ arg.version := by
              rintro rfl
              refine hch rfl ?_
              rw [hfresh.children_eq]
              exact mem_filter.2 ⟨hmem,decide_eq_true hb⟩
            rw [renamed,if_neg hxv]
    · rfl
  · simp [LiveFiles.seen,hu,LiveFiles.new,hw]

end

end

/-- A commit that returns leaves all other versions of the user with what they contained, and the
object as a new one. -/
theorem commitVersion_preserves [Monoid δ] {s s' : Store δ} {u : Uid} {f f' : LiveFiles} {arg : Argument}
    {dest : Option VMVersion}
    {destUid destGid : Option ℕ} (hsingle : ∀ u' w, IsVersionOf s u' w → isInView u w = true) (hfresh : IsFresh s u f)
    (h : f.commitVersion s arg dest destUid destGid = .ok (s',f')) :
    ∃ b, s.backingImageFile arg.version = some (.version b) ∧ Preserved s s' u arg.version b dest ∧
      IsFresh s' u f' := by
  have hco : arg.version ∈ f.committableVersions := by
    by_contra hnot
    rw [LiveFiles.commitVersion,if_pos hnot] at h
    cases h
  rw [LiveFiles.commitVersion,if_neg (not_not_intro hco)] at h
  split at h
  · cases h
  rename_i p hp
  split at h
  · cases h
  rename_i b hf
  obtain ⟨s₁,h₁,h⟩ := bind_eq_ok.1 h
  obtain ⟨s₂,h₂,h⟩ := bind_eq_ok.1 h
  split at h
  · cases h
  rename_i f₂ hl
  cases h
  obtain ⟨hve,hco⟩ := hfresh.committable hco
  have hb : b ∈ s.versions u := hfresh.versions_eq ▸ mem_of_find?_eq_some hf
  obtain ⟨fv,upper,hv⟩ := exists_hasFiles hve
  obtain ⟨fb,lower,hbf⟩ := exists_hasFiles hb
  obtain ⟨i,hi,h₁⟩ := bind_eq_ok.1 h₁
  cases hv.imageOf.symm.trans (imageOf_eq_ok.1 hi)
  have hcommitted : s.backingImageFile arg.version = some (.version b) ∧
      Committed s s' u arg.version b dest upper lower := by
    split at h₁
    · cases h₁
    rename_i q hq
    split_ifs at h₁ with _ hqb
    have hba : s.backingImageFile arg.version = some (.version b) := by
      rw [hv.backingImageFile,hq,not_not.1 hqb]
    refine ⟨hba,?_⟩
    cases dest with
    | none =>
      cases h₂
      exact committed_in_place hv hbf h₁
    | some dst => exact committed_to ⟨hve,hco,hba,hb⟩ hv hbf h₁ (by rw [← hfresh.children_eq]; exact h₂)
  obtain ⟨hba,hcommitted⟩ := hcommitted
  have hc : Candidate s u arg.version b := ⟨hve,hco,hba,hb⟩
  have hn : IsFresh s' u f' := by
    have hs := seen_afterCommit hfresh hc hcommitted hl
    obtain ⟨hcl,hf'⟩ := LiveFiles.analyse_eq_ok.1 hl
    have hu : (f.afterCommit arg b dest).uid = u := hfresh.uid_eq
    rw [hu,hs] at hcl hf'
    exact LiveFiles.analyse_eq_ok.2 ⟨hcl,hf'⟩
  refine ⟨b,hba,⟨isComplete_committed hc hcommitted,fun u' w d hw => ?_,fun w hw p hp => hn.closed hw hp,
    fun ha w => ?_⟩,hn⟩
  · exact disks_committed hfresh hc hcommitted hv.imageOf hbf.imageOf ⟨hsingle u' w hw,hw.complete⟩
  · exact isUsable_committed hfresh hc hcommitted hbf.imageOf ha

def base4 : VMVersion := ⟨.base,some 4,.top⟩

def customized : Store (FreeMonoid Char) where
  files := twoBases.files
  others := .empty
  users := [1000]
  known := by decide

/-- The last base version is committed under the next number. -/
theorem customized_preserved : ∃ f s' f', IsFresh customized 1000 f ∧
    f.commitVersion customized ⟨base3,true,none⟩ (some base4) none none = .ok (s',f') ∧
      ∃ b, Preserved customized s' 1000 base3 b (some base4) ∧ IsFresh s' 1000 f' := by
  have hs : ∀ u' w, IsVersionOf customized u' w → isInView 1000 w = true := by
    intro u' w hw
    obtain ⟨f,_,hf⟩ := isComplete_iff.1 hw.complete
    have hk : w ∈ customized.files.entries.map Prod.fst := mem_map.2 ⟨(w,f),Dict.mem_of_get hf.get,rfl⟩
    fin_cases hk <;> rfl
  have hfresh : ∃ f, IsFresh customized 1000 f ∧
    ∃ r, f.commitVersion customized ⟨base3,true,none⟩ (some base4) none none = .ok r := ⟨_,rfl,_,rfl⟩
  obtain ⟨f,hfresh,⟨s',f'⟩,h⟩ := hfresh
  obtain ⟨b,_,hp,hn⟩ := commitVersion_preserves hs hfresh h
  exact ⟨f,s',f',hfresh,h,b,hp,hn⟩

end Padsi.Vm
