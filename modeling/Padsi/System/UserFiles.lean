import Mathlib.Logic.Function.Basic
import Padsi.Lib.Text

/-! # The user files of a zone

`ZoneUserFiles.setup` unmounts the directories again if one of them cannot be mounted,
but not if the policies that come next fail.
-/
namespace Padsi.System.ZoneUserFiles
open Text Function List

structure MountPoint where
  sourcePath : Str
  mountPath : Str

abbrev MountTable := Str → Option Str

inductive Operation where
  | computeActualMountPoints
  | mount (mp : MountPoint)
  | initializeHomePolicies
  | getProgramPolicies (progname : Str)

def mount (table : MountTable) (mp : MountPoint) : MountTable :=
  if (table mp.mountPath).isSome then table else update table mp.mountPath (some mp.sourcePath)
def umount (table : MountTable) (mp : MountPoint) : MountTable := update table mp.mountPath none

def mountAll (fails : Operation → Bool) : List MountPoint → MountTable → List MountPoint →
    Except (MountTable × List MountPoint) (MountTable × List MountPoint)
  | [], table, mounted => .ok (table,mounted)
  | mp :: mps, table, mounted =>
    if fails (.mount mp) then .error (table,mounted)
    else mountAll fails mps (mount table mp) (if (table mp.mountPath).isSome then mounted else mp :: mounted)

/-- The paths that were mounted, unless there is an exception, and the table that is left. -/
def setup (fails : Operation → Bool) (points : List MountPoint) (supportedPrograms : List Str)
    (table : MountTable) : Option (List Str) × MountTable :=
  if fails .computeActualMountPoints then (none,table)
  else match mountAll fails points table [] with
    | .error (table,mounted) => (none,mounted.foldl umount table)
    | .ok (table,mounted) =>
      if fails .initializeHomePolicies || supportedPrograms.any fun p => fails (.getProgramPolicies p) then (none,table)
      else (some (mounted.map MountPoint.mountPath),table)

def source (points : List MountPoint) (table : MountTable) (path : Str) : Option Str :=
  (table path).or ((points.find? fun mp => path = mp.mountPath).map MountPoint.sourcePath)

variable {fails : Operation → Bool} {points : List MountPoint}

theorem source_mount (table : MountTable) (mp : MountPoint) :
    source points (mount table mp) = source (mp :: points) table := by
  funext path
  by_cases hp : path = mp.mountPath <;> cases h : table mp.mountPath <;> simp [source,mount,h,hp]

theorem undone_mountAll (table : MountTable) (mounted : List MountPoint) {s : MountTable × List MountPoint}
    (h : mountAll fails points table mounted = .error s) : s.2.foldl umount s.1 = mounted.foldl umount table := by
  fun_induction mountAll fails points table mounted with
  | case1 => cases h
  | case2 =>
    cases h
    rfl
  | case3 mp mps table mounted _ ih =>
    rw [ih h]
    cases ht : table mp.mountPath with
    | none =>
      have hu : update table mp.mountPath none = table := by rw [← ht,update_eq_self]
      simp [mount,umount,ht,hu]
    | some s => simp [mount,ht]

theorem mountAll_eq (table : MountTable) (mounted : List MountPoint) (hf : ∀ mp ∈ points, ¬fails (.mount mp)) :
    ∃ mounted', mountAll fails points table mounted = .ok (source points table,mounted') := by
  fun_induction mountAll fails points table mounted with
  | case1 table mounted => exact ⟨mounted,by simp [funext_iff,source]⟩
  | case2 mp mps _ _ ht => exact absurd ht (hf mp mem_cons_self)
  | case3 mp mps table mounted _ ih =>
    rw [← source_mount]
    exact ih (forall_mem_cons.1 hf).2

theorem mountAll_error (table : MountTable) (mounted : List MountPoint) {mp : MountPoint} (hmp : mp ∈ points)
    (hf : fails (.mount mp)) : ∃ s, mountAll fails points table mounted = .error s := by
  fun_induction mountAll fails points table mounted with
  | case1 => cases hmp
  | case2 => exact ⟨_,rfl⟩
  | case3 mp' mps _ _ hn ih =>
    rcases mem_cons.1 hmp with rfl | hmp
    · exact absurd hf hn
    · exact ih hmp

theorem source_eq_iff {table : MountTable} : source points table = table ↔
    ∀ mp ∈ points, (table mp.mountPath).isSome := by
  constructor
  · intro h mp hmp
    by_contra hn
    have hp := congrFun h mp.mountPath
    rw [source,Option.not_isSome_iff_eq_none.1 hn,Option.none_or,Option.map_eq_none_iff,find?_eq_none] at hp
    exact hp mp hmp (decide_eq_true rfl)
  · intro h
    funext path
    unfold source
    cases hf : points.find? fun mp => path = mp.mountPath with
    | none => exact Option.or_none
    | some mp =>
      have hp := find?_some hf
      exact Option.or_of_isSome (of_decide_eq_true hp ▸ h mp (mem_of_find?_eq_some hf))

/-- After an exception the table is as it was before, otherwise all is mounted. -/
def AllOrNothing (points : List MountPoint) (table : MountTable) (res : Option (List Str) × MountTable) : Prop :=
  if res.1.isSome then ∀ mp ∈ points, res.2 mp.mountPath = some mp.sourcePath else res.2 = table

/-- Unless a directory cannot be mounted: with failing policies all must have been mounted before,
else nothing at its place. -/
theorem setup_allOrNothing_iff (supportedPrograms : List Str) (table : MountTable) :
    AllOrNothing points table (setup fails points supportedPrograms table) ↔
      fails .computeActualMountPoints ∨ (∃ mp ∈ points, fails (.mount mp)) ∨
      if fails .initializeHomePolicies ∨ ∃ p ∈ supportedPrograms,
        fails (.getProgramPolicies p) then ∀ mp ∈ points, (table mp.mountPath).isSome
      else ∀ mp ∈ points, source points table mp.mountPath = some mp.sourcePath := by
  unfold setup
  by_cases hc : fails .computeActualMountPoints
  · simp [hc,AllOrNothing]
  rw [if_neg hc,or_iff_right hc]
  by_cases hm : ∃ mp ∈ points, fails (.mount mp)
  · obtain ⟨mp,hmp,hf⟩ := hm
    obtain ⟨s,hs⟩ := mountAll_error table [] hmp hf
    have hu := undone_mountAll table [] hs
    rw [hs]
    exact iff_of_true hu (.inl ⟨mp,hmp,hf⟩)
  · obtain ⟨m,hs⟩ := mountAll_eq table [] fun mp hmp hf => hm ⟨mp,hmp,hf⟩
    rw [hs,or_iff_right hm]
    simp only [Bool.or_eq_true,any_eq_true]
    split_ifs
    · exact source_eq_iff
    · rfl

/-- The home directory stays mounted if its policies cannot be set up. -/
theorem policies_leave_home_mounted : ¬AllOrNothing [⟨"/var/home","/run/home"⟩] (fun _ => none)
    (setup (fun op => op matches .initializeHomePolicies) [⟨"/var/home","/run/home"⟩] [] fun _ => none) := by
  intro h
  have hp := congrFun h "/run/home"
  simp [setup,mountAll,mount] at hp

end Padsi.System.ZoneUserFiles
