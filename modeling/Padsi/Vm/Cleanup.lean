import Padsi.Vm.Files

/-! # Cleaning the files of a virtual machine

A version is removed in the `else` branch of the handler that checks the privilege,
which is also taken by the versions that were not checked, those of other zones.
-/
namespace Padsi.Vm
open Python Text List Store

inductive VMUsage where
  | install
  | update
  | run
deriving DecidableEq, Repr

structure VirtualMachine where
  isUserAllowed : Uid → Except VMExc Bool

abbrev Configuration := VMUsage → Str → Option VirtualMachine

def getVmConfForUsage (gconf : Configuration) (vmId : Str) (uid : Uid) : List VMUsage → Except VMExc VirtualMachine
  | [] => .error (.permissionDenied vmId uid)
  | usage :: usages => do
    match gconf usage vmId with
    | none => getVmConfForUsage gconf vmId uid usages
    | some vm => if ← vm.isUserAllowed uid then return vm else getVmConfForUsage gconf vmId uid usages

def checkPrivilegesOnVmVersion (gconf : Configuration) (vmId : Str) (v : VMVersion) (uid : Uid) :
    Except VMExc Unit := do
  let _ ← match v.versionType with
    | .base => getVmConfForUsage gconf vmId uid [.update]
    | .user => getVmConfForUsage gconf vmId uid [.run]
    | .snap => getVmConfForUsage gconf vmId uid [.run]
  return ()

variable {δ : Type} (gconf : Configuration) (uid : Uid) (vmId : Str) (zone : Option Str)

def passes (v : VMVersion) : Bool :=
  if zone = none ∨ v.zoneName = zone then (checkPrivilegesOnVmVersion gconf vmId v uid).isOk else true
def cleanupTurn (r : Store δ × List VMVersion) (v : VMVersion) : Store δ × List VMVersion :=
  if passes gconf uid vmId zone v = true ∧ r.1.state v ≠ some .running then (r.1.discardFiles v,r.2 ++ [v]) else r

def vmCleanup (s : Store δ) : Store δ × Except VMExc (List VMVersion) :=
  match gconf .update vmId with
  | none => (s,.error (.unknownVM vmId))
  | some _ =>
    match adminAnalyse s uid with
    | .error e => (s,.error e)
    | .ok a =>
      let r := a.obsoleteVersions.foldl (cleanupTurn gconf uid vmId zone) (s,[])
      (r.1,.ok r.2)

/-- The version is obsolete and not running, of the zone that was asked, and the user has a privilege on it. -/
def Permitted (s : Store δ) (v : VMVersion) : Prop :=
  (∃ a, adminAnalyse s uid = .ok a ∧ v ∈ a.obsoleteVersions) ∧ s.state v ≠ some .running ∧
    (zone = none ∨ v.zoneName = zone) ∧
    (checkPrivilegesOnVmVersion gconf vmId v uid).isOk = true

def CleansExactly (s : Store δ) : Prop :=
  ∀ v, (Permitted gconf uid vmId zone s v → (vmCleanup gconf uid vmId zone s).1.files.get v = none) ∧
    (¬ Permitted gconf uid vmId zone s v → (vmCleanup gconf uid vmId zone s).1.files.get v = s.files.get v)

/-- All obsolete versions that are not running are of the zone asked for, or none was asked for. -/
def OneZone (s : Store δ) : Prop :=
  ∀ a, adminAnalyse s uid = .ok a → ∀ v ∈ a.obsoleteVersions, s.state v ≠ some .running →
    if (gconf .update vmId).isSome then zone = none ∨ v.zoneName = zone else ¬ Permitted gconf uid vmId zone s v

section
variable {gconf uid vmId zone} {s : Store δ} {a : AdminVMFiles} {v w : VMVersion}

theorem Store.get_discardFiles (s : Store δ) (v w : VMVersion) :
    (s.discardFiles v).files.get w = if w = v then none else s.files.get w := Dict.get_erase s.files v w

theorem get_foldl_cleanupTurn {l : List VMVersion} (hl : l.Nodup) (s : Store δ) (res : List VMVersion) (w : VMVersion) :
    (l.foldl (cleanupTurn gconf uid vmId zone) (s,res)).1.files.get w =
      if w ∈ l ∧ passes gconf uid vmId zone w = true ∧ s.state w ≠ some .running then none else s.files.get w := by
  induction l generalizing s res with
  | nil => simp
  | cons v l ih =>
    obtain ⟨hv,hl⟩ := nodup_cons.1 hl
    rw [foldl_cons,cleanupTurn]
    by_cases hc : passes gconf uid vmId zone v = true ∧ s.state v ≠ some .running
    · rw [if_pos hc,ih hl]
      by_cases hw : w = v
      · subst hw
        rw [if_neg fun h => hv h.1, if_pos ⟨mem_cons_self,hc⟩, get_discardFiles, if_pos rfl]
      · have hs : (s.discardFiles v).state w = s.state w := by
          rw [state,get_discardFiles,if_neg hw,state]
        rw [hs,get_discardFiles,if_neg hw]
        simp only [mem_cons,hw,false_or]
    · rw [if_neg hc,ih hl]
      by_cases hw : w = v
      · subst hw
        rw [if_neg fun h => hv h.1, if_neg fun h => hc h.2]
      · simp only [mem_cons,hw,false_or]

theorem get_vmCleanup (hd : (gconf .update vmId).isSome = true) (ha : adminAnalyse s uid = .ok a) (v : VMVersion) :
    (vmCleanup gconf uid vmId zone s).1.files.get v =
      if v ∈ a.obsoleteVersions ∧ passes gconf uid vmId zone v = true ∧
        s.state v ≠ some .running then none else s.files.get v := by
  obtain ⟨vm,hvm⟩ := Option.isSome_iff_exists.1 hd
  unfold vmCleanup
  rw [hvm,ha]
  exact get_foldl_cleanupTurn (nodup_obsoleteVersions ha) s [] v

theorem Permitted.exists_files (h : Permitted gconf uid vmId zone s v) : ∃ f, s.files.get v = some f := by
  obtain ⟨⟨a,ha,hv⟩,_⟩ := h
  obtain ⟨u,_,hvi⟩ := exists_view_of_obsolete ha hv
  exact Store.exists_files hvi

theorem passes_of_ne (hzone : ¬ (zone = none ∨ v.zoneName = zone)) : passes gconf uid vmId zone v = true := by
  rw [passes,if_neg hzone]

theorem passes_of_eq (hzone : zone = none ∨ v.zoneName = zone) :
    passes gconf uid vmId zone v = true ↔ (checkPrivilegesOnVmVersion gconf vmId v uid).isOk = true := by
  rw [passes,if_pos hzone]

theorem cleansExactly_of_declared (hd : (gconf .update vmId).isSome = true) (ha : adminAnalyse s uid = .ok a) :
    CleansExactly gconf uid vmId zone s ↔
      ∀ v ∈ a.obsoleteVersions, s.state v ≠ some .running → zone = none ∨ v.zoneName = zone := by
  constructor
  · intro h v hv hs
    by_contra hzone
    have hl := (h v).2 fun hp => hzone hp.2.2.1
    obtain ⟨u,_,hvi⟩ := exists_view_of_obsolete ha hv
    obtain ⟨f,hf⟩ := exists_files hvi
    rw [get_vmCleanup hd ha,if_pos ⟨hv,passes_of_ne hzone,hs⟩,hf] at hl
    cases hl
  · intro h v
    rw [get_vmCleanup hd ha]
    constructor
    · rintro ⟨⟨a',ha',hv⟩,hs,hzone,hc⟩
      cases ha.symm.trans ha'
      exact if_pos ⟨hv,(passes_of_eq hzone).2 hc,hs⟩
    · intro hnot
      refine if_neg fun ⟨hv,hpa,hs⟩ => hnot ?_
      have hzone := h v hv hs
      exact ⟨⟨a,ha,hv⟩,hs,hzone,(passes_of_eq hzone).1 hpa⟩

theorem cleansExactly_of_unchanged (h : (vmCleanup gconf uid vmId zone s).1 = s) :
    CleansExactly gconf uid vmId zone s ↔ ∀ v, ¬ Permitted gconf uid vmId zone s v := by
  unfold CleansExactly
  rw [h]
  refine forall_congr' fun v => ⟨fun hv hp => ?_,fun hnot => ⟨fun hp => absurd hp hnot,fun _ => rfl⟩⟩
  obtain ⟨f,hf⟩ := hp.exists_files
  rw [hv.1 hp] at hf
  cases hf

end

/-- The request removes exactly what was asked and permitted if it meets no version of another zone. -/
theorem cleansExactly_iff_oneZone {δ : Type} (gconf : Configuration) (uid : Uid) (vmId : Str)
    (zone : Option Str) (s : Store δ) :
    CleansExactly gconf uid vmId zone s ↔ OneZone gconf uid vmId zone s := by
  cases ha : adminAnalyse s uid with
  | error e =>
    have hu : (vmCleanup gconf uid vmId zone s).1 = s := by
      unfold vmCleanup
      rw [ha]
      cases gconf .update vmId <;> rfl
    rw [cleansExactly_of_unchanged hu]
    refine iff_of_true (fun v => ?_) fun a ha' => ?_
    · rintro ⟨⟨a,ha',_⟩,_⟩
      rw [ha] at ha'
      cases ha'
    · rw [ha] at ha'
      cases ha'
  | ok a =>
    have ho : OneZone gconf uid vmId zone s ↔ ∀ v ∈ a.obsoleteVersions, s.state v ≠ some .running →
        if (gconf .update vmId).isSome then zone = none ∨
          v.zoneName = zone else ¬ Permitted gconf uid vmId zone s v := by
      refine ⟨fun h => h a ha,fun h a' ha' => ?_⟩
      cases ha.symm.trans ha'
      exact h
    rw [ho]
    by_cases hd : (gconf .update vmId).isSome = true
    · rw [cleansExactly_of_declared hd ha]
      simp only [if_pos hd]
    · have hu : (vmCleanup gconf uid vmId zone s).1 = s := by
        unfold vmCleanup
        rw [Option.not_isSome_iff_eq_none.1 hd]
      rw [cleansExactly_of_unchanged hu]
      simp only [if_neg hd]
      refine ⟨fun h v _ _ => h v,fun h v hp => ?_⟩
      obtain ⟨⟨a',ha',hv⟩,hs,_⟩ := id hp
      cases ha.symm.trans ha'
      exact h v hv hs hp

def snapshot : VMVersion := ⟨.snap,some 0,.zone "b" 1000⟩

def oneSnapshot : Store Unit where
  files := ⟨[(snapshot,⟨some ⟨none,()⟩,true,true,some .discarded⟩)],by decide⟩
  others := .empty
  users := [1000]
  known := by decide

def nobody : Configuration := fun usage _ => if usage = .update then some ⟨fun _ => .ok false⟩ else none

/-- The files of the other user are removed. -/
theorem other_zone_removed : ¬ CleansExactly nobody 2000 "vm" (some "a") oneSnapshot := by
  intro h
  have hl := (h snapshot).2 fun hp => by
    rcases hp.2.2.1 with hzone | hzone
    · cases hzone
    · revert hzone
      decide
  have hr : (vmCleanup nobody 2000 "vm" (some "a") oneSnapshot).1.files.get snapshot = none := by
    rfl
  rw [hr] at hl
  cases hl

end Padsi.Vm
