import Padsi.Lib.Python
import Padsi.Lib.Store

/-! # The versions of a virtual machine

`VMFiles` is what one user sees of the directory, and `AdminVMFiles` puts together what
all of them see.
-/
namespace Padsi.Vm
open Python Text List

abbrev Uid := ℕ

inductive VMVersionType where
  | base
  | user
  | snap
deriving DecidableEq, Repr

inductive VMState where
  | created
  | running
  | discarded
  | stopped
deriving DecidableEq, Repr

inductive Dir where
  | top
  | staging (uid : Uid)
  | zone (name : Str) (uid : Uid)
deriving DecidableEq, Repr

def Dir.owner : Dir → Option Uid
  | .top => none
  | .staging uid => some uid
  | .zone _ uid => some uid

structure VMVersion where
  versionType : VMVersionType
  versionNumber : Option ℤ
  directory : Dir
deriving DecidableEq, Repr

def VMVersion.zoneName (v : VMVersion) : Option Str :=
  match v.directory with
  | .zone name _ => some name
  | _ => none

inductive ImagePath where
  | version (v : VMVersion)
  | other (path : Str)
deriving DecidableEq, Repr

structure Image (δ : Type) where
  backing : Option ImagePath
  data : δ

structure Files (δ : Type) where
  image : Option (Image δ)
  vars : Bool
  infos : Bool
  state : Option VMState

structure Store (δ : Type) where
  files : Dict VMVersion (Files δ)
  others : Dict Str (Image δ)
  users : List Uid
  known : ∀ e ∈ files.entries, ∀ u ∈ e.1.directory.owner, u ∈ users

variable {δ : Type}

namespace Store

def image (s : Store δ) : ImagePath → Option (Image δ)
  | .version v => (s.files.get v).bind Files.image
  | .other path => s.others.get path

def state (s : Store δ) (v : VMVersion) : Option VMState := (s.files.get v).bind Files.state

section
variable (s : Store δ) (v : VMVersion)

def backingImageFile : Option ImagePath := (s.image (.version v)).bind Image.backing

def isComplete : Bool :=
  match s.files.get v with
  | some f => f.image.isSome && f.vars && f.infos
  | none => false

/-- The version is complete, and reading the name of its backing file raises no exception. -/
def isUsable : Bool :=
  s.isComplete v &&
    match s.backingImageFile v with
    | some b => (s.image b).isSome
    | none => true

def discardFiles : Store δ :=
  { s with files := s.files.erase v, known := fun e he => s.known e (mem_of_mem_filter he) }

end

end Store

inductive VMExc where
  | noBackingVersion (v : VMVersion) (backing : ImagePath)
  | notCommittable
  | noFiles (uid : Uid)
  | noVersion (v : VMVersion)
  | unknownVM (vmId : Str)
  | permissionDenied (vmId : Str) (uid : Uid)
  | unknownUser (uid : Uid)
deriving DecidableEq, Repr

def isInView (uid : Uid) (v : VMVersion) : Bool :=
  match v.directory, v.versionType, v.versionNumber with
  | .staging u, _, none => u == uid
  | .top, .base, some _ => true
  | .zone _ u, .user, some _ => u == uid
  | .zone _ u, .snap, some _ => u == uid
  | _, _, _ => false

namespace Store
variable (s : Store δ) (uid : Uid)

def versions : List VMVersion := (s.files.entries.map Prod.fst).filter fun v => isInView uid v && s.isUsable v
def versionOfImage (path : ImagePath) : Option VMVersion := (s.versions uid).find? fun v => ImagePath.version v = path
def getChildrenVersions (v : VMVersion) : List VMVersion :=
  (s.versions uid).filter fun w => s.backingImageFile w = some (.version v)
def baseNumbers : List ℤ := ((s.versions uid).filter fun v => v.directory = .top).filterMap VMVersion.versionNumber
def userVersions : List VMVersion :=
  (s.versions uid).filter fun v => v.versionType = .user ∧ v.zoneName.isSome = true

def lastUserNumber (zone : Str) : Option ℤ :=
  match ((s.userVersions uid).filterMap VMVersion.versionNumber).max? with
  | some n => if (s.userVersions uid).any fun v => v.versionNumber = some n ∧
    v.zoneName = some zone then some n else none
  | none => none

def isObsolete (v : VMVersion) : Bool :=
  match v.versionType with
  | .base =>
    match v.versionNumber, (s.baseNumbers uid).max? with
    | some n, some last => last != 0 && decide (n < last) && (s.getChildrenVersions uid v).isEmpty
    | _, _ => false
  | .user =>
    match v.versionNumber, v.zoneName.bind (s.lastUserNumber uid) with
    | some n, some last => decide (n < last) && (s.getChildrenVersions uid v).isEmpty
    | _, _ => false
  | .snap => s.state v == some .discarded

def isCommittable (v : VMVersion) : Bool :=
  v.versionType == .base && v.versionNumber.isSome &&
    match (s.backingImageFile v).bind (s.versionOfImage uid) with
    | some b => (s.getChildrenVersions uid b).length == 1
    | none => false

end Store

structure VMFiles where
  uid : Uid
  allVersions : List VMVersion
  obsoleteVersions : List VMVersion
  committableVersions : List VMVersion
deriving DecidableEq, Repr

def Store.orphan (s : Store δ) (uid : Uid) (v : VMVersion) : Option VMExc :=
  match s.backingImageFile v with
  | some b => if (s.versionOfImage uid b).isNone then some (.noBackingVersion v b) else none
  | none => none

def analyse (s : Store δ) (uid : Uid) : Except VMExc VMFiles :=
  match (s.versions uid).findSome? (s.orphan uid) with
  | some e => .error e
  | none => .ok ⟨uid,s.versions uid,(s.versions uid).filter (s.isObsolete uid),
    (s.versions uid).filter (s.isCommittable uid)⟩

structure AdminVMFiles where
  uid : Uid
  vmfs : List VMFiles
  allVersions : List VMVersion
  committableVersions : List VMVersion
  obsoleteVersions : List VMVersion
deriving DecidableEq, Repr

def adminAnalyse (s : Store δ) (uid : Uid) : Except VMExc AdminVMFiles := do
  let vmfs ← s.users.mapM (analyse s)
  let allVersions := (vmfs.flatMap VMFiles.allVersions).dedup
  let committable := (vmfs.flatMap VMFiles.committableVersions).dedup
  let obsolete := (vmfs.flatMap VMFiles.obsoleteVersions).dedup
  return {
    uid
    vmfs
    allVersions
    committableVersions := committable.filter fun v =>
      (s.backingImageFile v).isSome &&
        (allVersions.filter fun w => s.backingImageFile w = s.backingImageFile v).length == 1
    obsoleteVersions := obsolete.filter fun v => !allVersions.any fun w => s.backingImageFile w = some (.version v) }

def AdminVMFiles.getVmFiles (a : AdminVMFiles) (uid : Option Uid) : Option VMFiles :=
  a.vmfs.find? fun f => f.uid = uid.getD a.uid

section
variable {s : Store δ} {uid : Uid} {v w : VMVersion} {f : VMFiles} {a : AdminVMFiles}

theorem isInView_of_top (h : v.directory.owner = none) (u u' : Uid) : isInView u v = isInView u' v := by
  obtain ⟨type,number,dir⟩ := v
  cases dir with
  | top => cases type <;> cases number <;> rfl
  | staging | zone => cases h

theorem owner_of_isInView {u₀ : Uid} (h : isInView uid v = true) (ho : v.directory.owner = some u₀) : u₀ = uid := by
  obtain ⟨type,number,dir⟩ := v
  cases dir with
  | top => cases ho
  | staging =>
    cases ho
    cases number with
    | none => cases type <;> exact eq_of_beq h
    | some n => cases type <;> cases h
  | zone =>
    cases ho
    cases number with
    | none => cases type <;> cases h
    | some n =>
      cases type with
      | base => cases h
      | user | snap => exact eq_of_beq h

theorem Store.mem_versions : v ∈ s.versions uid ↔ isInView uid v = true ∧ s.isUsable v = true := by
  rw [versions,mem_filter,Bool.and_eq_true,and_iff_right_iff_imp]
  rintro ⟨_,hu⟩
  obtain ⟨hc,_⟩ := Bool.and_eq_true_iff.1 hu
  unfold isComplete at hc
  split at hc
  · rename_i f hg
    exact mem_map.2 ⟨(v,f),Dict.mem_of_get hg,rfl⟩
  · cases hc

theorem Store.exists_files (h : v ∈ s.versions uid) : ∃ f, s.files.get v = some f := by
  obtain ⟨hc,_⟩ := Bool.and_eq_true_iff.1 (mem_versions.1 h).2
  unfold isComplete at hc
  split at hc
  · exact ⟨_,‹_›⟩
  · cases hc

theorem Store.versionOfImage_eq_some {path : ImagePath} :
    s.versionOfImage uid path = some v ↔ path = .version v ∧ v ∈ s.versions uid := by
  constructor
  · intro h
    have hpath := find?_some h
    exact ⟨(of_decide_eq_true hpath).symm,mem_of_find?_eq_some h⟩
  · rintro ⟨rfl,hv⟩
    cases hf : s.versionOfImage uid (.version v) with
    | none => exact absurd (decide_eq_true rfl) (find?_eq_none.1 hf v hv)
    | some w =>
      have hw := find?_some hf
      cases of_decide_eq_true hw
      rfl

theorem Store.orphan_eq_none {backing : Option ImagePath} {e : ImagePath → VMExc} :
    (backing.bind fun b => if (s.versionOfImage uid b).isNone then some (e b) else none) = none ↔
      ∀ b, backing = some b → ∃ w ∈ s.versions uid, b = .version w := by
  cases backing with
  | none => simp
  | some b =>
    cases hb : s.versionOfImage uid b with
    | none =>
      refine iff_of_false (by simp [hb]) fun h => ?_
      obtain ⟨w,hw,rfl⟩ := h b rfl
      rw [Store.versionOfImage_eq_some.2 ⟨rfl,hw⟩] at hb
      cases hb
    | some w =>
      refine iff_of_true (by simp [hb]) fun b' hb' => ?_
      cases hb'
      obtain ⟨hpath,hw⟩ := Store.versionOfImage_eq_some.1 hb
      exact ⟨w,hw,hpath⟩

theorem analyse_eq_ok : analyse s uid = .ok f ↔
    (∀ v ∈ s.versions uid, ∀ b, s.backingImageFile v = some b → ∃ w ∈ s.versions uid, b = .version w) ∧
      f = ⟨uid,s.versions uid,(s.versions uid).filter (s.isObsolete uid),
        (s.versions uid).filter (s.isCommittable uid)⟩ := by
  have ho (v : VMVersion) : s.orphan uid v = none ↔
      ∀ b, s.backingImageFile v = some b → ∃ w ∈ s.versions uid, b = .version w := by
    rw [← Store.orphan_eq_none (e := VMExc.noBackingVersion v)]
    unfold Store.orphan
    cases s.backingImageFile v with
    | none => rfl
    | some b => rfl
  unfold analyse
  split
  · rename_i e hs
    refine iff_of_false nofun fun h => ?_
    obtain ⟨v,hv,he⟩ := exists_of_findSome?_eq_some hs
    rw [(ho v).2 (h.1 v hv)] at he
    cases he
  · rename_i hnone
    rw [Except.ok.injEq, and_iff_right fun v hv => (ho v).1 (findSome?_eq_none_iff.1 hnone v hv)]
    exact eq_comm

theorem adminAnalyse_eq_ok : adminAnalyse s uid = .ok a ↔ ∃ vmfs, s.users.mapM (analyse s) = .ok vmfs ∧ a = {
    uid
    vmfs
    allVersions := (vmfs.flatMap VMFiles.allVersions).dedup
    committableVersions := (vmfs.flatMap VMFiles.committableVersions).dedup.filter fun v =>
      (s.backingImageFile v).isSome &&
        ((vmfs.flatMap VMFiles.allVersions).dedup.filter fun w =>
          s.backingImageFile w = s.backingImageFile v).length == 1
    obsoleteVersions := (vmfs.flatMap VMFiles.obsoleteVersions).dedup.filter fun v =>
      !(vmfs.flatMap VMFiles.allVersions).dedup.any fun w => s.backingImageFile w = some (.version v) } := by
  rw [adminAnalyse,bind_eq_ok]
  refine exists_congr fun vmfs => and_congr_right fun _ => ?_
  exact ⟨fun h => by cases h; rfl,fun h => by rw [h]; rfl⟩

theorem mem_allVersions (h : adminAnalyse s uid = .ok a) : v ∈ a.allVersions ↔ ∃ u ∈ s.users, v ∈ s.versions u := by
  obtain ⟨vmfs,hvm,rfl⟩ := adminAnalyse_eq_ok.1 h
  change v ∈ (vmfs.flatMap VMFiles.allVersions).dedup ↔ _
  rw [mem_dedup,mem_flatMap]
  constructor
  · rintro ⟨f,hf,hv⟩
    obtain ⟨u,hu,ha⟩ := mem_of_mapM hvm f hf
    rw [(analyse_eq_ok.1 ha).2] at hv
    exact ⟨u,hu,hv⟩
  · rintro ⟨u,hu,hv⟩
    obtain ⟨f,hf,ha⟩ := exists_of_mapM hvm u hu
    refine ⟨f,hf,?_⟩
    rw [(analyse_eq_ok.1 ha).2]
    exact hv

theorem exists_view_of_obsolete (h : adminAnalyse s uid = .ok a) (hv : v ∈ a.obsoleteVersions) :
    ∃ u ∈ s.users, v ∈ s.versions u := by
  obtain ⟨vmfs,hvm,rfl⟩ := adminAnalyse_eq_ok.1 h
  obtain ⟨f,hf,hv⟩ := mem_flatMap.1 (mem_dedup.1 (mem_of_mem_filter hv))
  obtain ⟨u,hu,ha⟩ := mem_of_mapM hvm f hf
  rw [(analyse_eq_ok.1 ha).2] at hv
  exact ⟨u,hu,mem_of_mem_filter hv⟩

theorem mem_committableVersions (h : adminAnalyse s uid = .ok a) : v ∈ a.committableVersions ↔
    (∃ u ∈ s.users, v ∈ s.versions u ∧ s.isCommittable u v = true) ∧ (s.backingImageFile v).isSome = true ∧
      (a.allVersions.filter fun w => s.backingImageFile w = s.backingImageFile v).length = 1 := by
  obtain ⟨vmfs,hvm,rfl⟩ := adminAnalyse_eq_ok.1 h
  rw [mem_filter,mem_dedup,mem_flatMap,Bool.and_eq_true,beq_iff_eq]
  refine and_congr_left fun _ => ⟨?_,?_⟩
  · rintro ⟨f,hf,hv⟩
    obtain ⟨u,hu,ha⟩ := mem_of_mapM hvm f hf
    rw [(analyse_eq_ok.1 ha).2,mem_filter] at hv
    exact ⟨u,hu,hv⟩
  · rintro ⟨u,hu,hv⟩
    obtain ⟨f,hf,ha⟩ := exists_of_mapM hvm u hu
    refine ⟨f,hf,?_⟩
    rw [(analyse_eq_ok.1 ha).2]
    exact mem_filter.2 hv

theorem nodup_allVersions (h : adminAnalyse s uid = .ok a) : a.allVersions.Nodup := by
  obtain ⟨vmfs,_,rfl⟩ := adminAnalyse_eq_ok.1 h
  exact nodup_dedup _

theorem nodup_obsoleteVersions (h : adminAnalyse s uid = .ok a) : a.obsoleteVersions.Nodup := by
  obtain ⟨vmfs,_,rfl⟩ := adminAnalyse_eq_ok.1 h
  exact (nodup_dedup _).filter _

end

end Padsi.Vm
