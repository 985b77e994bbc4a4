import Padsi.Vm.Commit

/-! # The versions of a zone

The last version of a zone is looked for among the versions that have the highest number
of all zones.
-/
namespace Padsi.Vm
open Python Text List Store

variable {δ : Type}

def zoned (uid : Uid) (t : VMVersionType) (zone : Str) (n : ℤ) : VMVersion := ⟨t,some n,.zone zone uid⟩

namespace Store
variable (s : Store δ) (uid : Uid) (t : VMVersionType) (zone : Str)

def zoneVersions : List VMVersion := (s.versions uid).filter fun v => v.versionType = t ∧ v.zoneName.isSome = true

def getLastVersion : Option VMVersion :=
  match ((s.zoneVersions uid t).filterMap VMVersion.versionNumber).max? with
  | some n => (s.zoneVersions uid t).find? fun v => v.versionNumber = some n ∧ v.zoneName = some zone
  | none => none

def getLastUserVersion : Option VMVersion := s.getLastVersion uid .user zone
def getLastSnapshotVersion : Option VMVersion := s.getLastVersion uid .snap zone

def nextNumber (last : Option VMVersion) : ℤ :=
  match last.bind VMVersion.versionNumber with
  | some n => n + 1
  | none => 0

def getNextUserVersionNumber : ℤ := nextNumber (s.getLastUserVersion uid zone)
def getNextSnapshotVersionNumber : ℤ := nextNumber (s.getLastSnapshotVersion uid zone)
def lastBaseVersion : Option VMVersion := (s.baseNumbers uid).max?.map fun n => ⟨.base,some n,.top⟩

end Store

inductive CreateExc where
  | noBaseVersion
  | noUserVersion
  | notComplete
  | identical
  | notDiscarded
  | analysis (e : VMExc)
deriving DecidableEq, Repr

namespace Store

def put (s : Store δ) (v : VMVersion) (f : Files δ) : Store δ where
  files := s.files.set v f
  others := s.others
  users := v.directory.owner.elim s.users s.users.insert
  known := by
    intro e he u hu
    have hget := Dict.mem_entries_iff.1 he
    rw [Dict.get_set] at hget
    split_ifs at hget with hev
    · rw [hev] at hu
      rw [hu,Option.elim_some]
      exact mem_insert_self
    · have hknown := s.known e (Dict.mem_of_get hget) u hu
      cases v.directory.owner with
      | none => exact hknown
      | some u' => exact mem_insert_of_mem hknown

section
variable [Monoid δ]

def derive (s : Store δ) (source dest : VMVersion) : Except CreateExc (Store δ) :=
  if !s.isComplete source then .error .notComplete
  else if source = dest then .error .identical
  else if s.isComplete dest then .error .notDiscarded
  else .ok (s.put dest ⟨some ⟨some (.version source),1⟩,true,true,s.state source⟩)

def deriveTo (s : Store δ) (uid : Uid) (source target : VMVersion) : Except CreateExc (VMVersion × Store δ) := do
  let s' ← s.derive source target
  match analyse s' uid with
  | .error e => .error (.analysis e)
  | .ok _ => return (target,s')

def createUserVersion (s : Store δ) (uid : Uid) (zone : Str) (baseVmversion : Option VMVersion) :
    Except CreateExc (VMVersion × Store δ) :=
  match baseVmversion.or (s.lastBaseVersion uid) with
  | none => .error .noBaseVersion
  | some v => s.deriveTo uid v (zoned uid .user zone (s.getNextUserVersionNumber uid zone))

def createSnaphotVersion (s : Store δ) (uid : Uid) (zone : Str) (userVmversion : Option VMVersion) :
    Except CreateExc (VMVersion × Store δ) :=
  match userVmversion.or (s.getLastUserVersion uid zone) with
  | none => .error .noUserVersion
  | some v => s.deriveTo uid v (zoned uid .snap zone (s.getNextSnapshotVersionNumber uid zone))

end

end Store

def Collides {α : Type} (r : Except CreateExc α) : Prop := r = .error .identical ∨ r = .error .notDiscarded

section
variable {s : Store δ} {uid : Uid} {t : VMVersionType} {zone : Str} {v : VMVersion} {n k : ℤ}

theorem isInView_zoned (ht : t ≠ .base) : isInView uid (zoned uid t zone n) = true := by
  cases t with
  | base => exact absurd rfl ht
  | user | snap => exact beq_self_eq_true uid

theorem exists_zoned (hv : isInView uid v = true) (hzone : v.zoneName.isSome = true) :
    ∃ zone n, v = zoned uid v.versionType zone n := by
  obtain ⟨type,number,dir⟩ := v
  cases dir with
  | top | staging => cases hzone
  | zone name u =>
    have hu := owner_of_isInView hv rfl
    subst hu
    cases number with
    | none => cases type <;> cases hv
    | some n => exact ⟨name,n,rfl⟩

theorem Store.mem_zoneVersions (ht : t ≠ .base) :
    v ∈ s.zoneVersions uid t ↔ ∃ zone n, v = zoned uid t zone n ∧ s.isUsable v = true := by
  rw [zoneVersions,mem_filter,mem_versions,decide_eq_true_iff]
  constructor
  · rintro ⟨⟨hvi,hu⟩,hty,hzone⟩
    obtain ⟨zone,n,hv⟩ := exists_zoned hvi hzone
    exact ⟨zone,n,hty ▸ hv,hu⟩
  · rintro ⟨zone,n,rfl,hu⟩
    exact ⟨⟨isInView_zoned ht,hu⟩,rfl,rfl⟩

theorem Store.mem_numbers (ht : t ≠ .base) :
    k ∈ (s.zoneVersions uid t).filterMap VMVersion.versionNumber ↔ ∃ zone, s.isUsable (zoned uid t zone k) = true := by
  rw [mem_filterMap]
  constructor
  · rintro ⟨v,hv,hn⟩
    obtain ⟨zone,n,rfl,hu⟩ := (mem_zoneVersions ht).1 hv
    cases hn
    exact ⟨zone,hu⟩
  · rintro ⟨zone,hu⟩
    exact ⟨_,(mem_zoneVersions ht).2 ⟨zone,k,rfl,hu⟩,rfl⟩

/-- The last version of a zone is only found if no other zone has a higher number. -/
theorem Store.getLastVersion_eq_some (ht : t ≠ .base) : s.getLastVersion uid t zone = some v ↔
    ∃ n, v = zoned uid t zone n ∧ s.isUsable v = true ∧ ∀ zone' k, s.isUsable (zoned uid t zone' k) = true → k ≤ n := by
  unfold getLastVersion
  constructor
  · intro h
    split at h
    · rename_i n hm
      obtain ⟨_,hle⟩ := max?_eq_some_iff.1 hm
      have hv := find?_some h
      obtain ⟨hn,hzone⟩ := of_decide_eq_true hv
      obtain ⟨zone',n',rfl,hu⟩ := (mem_zoneVersions ht).1 (mem_of_find?_eq_some h)
      cases hn
      cases hzone
      exact ⟨n,rfl,hu,fun zone' k hk => hle k ((mem_numbers ht).2 ⟨zone',hk⟩)⟩
    · cases h
  · rintro ⟨n,rfl,hu,hle⟩
    have hm : ((s.zoneVersions uid t).filterMap VMVersion.versionNumber).max? = some n := by
      refine max?_eq_some_iff.2 ⟨(mem_numbers ht).2 ⟨zone,hu⟩,fun k hk => ?_⟩
      obtain ⟨zone',hk⟩ := (mem_numbers ht).1 hk
      exact hle zone' k hk
    rw [hm]
    cases hf : (s.zoneVersions uid t).find? fun v => v.versionNumber = some n ∧ v.zoneName = some zone with
    | none =>
      have hmem := (mem_zoneVersions ht).2 ⟨zone,n,rfl,hu⟩
      exact absurd (decide_eq_true ⟨rfl,rfl⟩) (find?_eq_none.1 hf _ hmem)
    | some w =>
      have hw := find?_some hf
      obtain ⟨hn,hzone⟩ := of_decide_eq_true hw
      obtain ⟨zone',n',rfl,_⟩ := (mem_zoneVersions ht).1 (mem_of_find?_eq_some hf)
      cases hn
      cases hzone
      exact hf

theorem isComplete_of_isUsable (h : s.isUsable v = true) : s.isComplete v = true := (Bool.and_eq_true_iff.1 h).1

theorem exists_greatest (h : s.isComplete (zoned uid t zone n) = true) :
    ∃ m, IsGreatest {m | s.isComplete (zoned uid t zone m) = true} m := by
  have hfi : {m | s.isComplete (zoned uid t zone m) = true}.Finite := by
    refine Set.Finite.subset (finite_toSet (s.files.entries.filterMap fun e => e.1.versionNumber)) fun m hm => ?_
    obtain ⟨f,_,hf⟩ := isComplete_iff.1 hm
    exact mem_filterMap.2 ⟨_,Dict.mem_of_get hf.get,rfl⟩
  obtain ⟨m,hm⟩ := hfi.exists_maximal ⟨n,h⟩
  refine ⟨m,hm.prop,fun k hk => ?_⟩
  rcases le_total k m with hkm | hmk
  · exact hkm
  · exact hm.le_of_ge hk hmk

end

structure PerZone (s : Store δ) (uid : Uid) (t : VMVersionType) (zone : Str) (last : Option VMVersion)
    (next : ℤ) : Prop where
  greatest : ∀ v, last = some v ↔ ∃ n, v = zoned uid t zone n ∧
    IsGreatest {n | s.isComplete (zoned uid t zone n) = true} n
  absent : last = none ↔ ∀ n, s.isComplete (zoned uid t zone n) = false
  above : ∀ n, s.isComplete (zoned uid t zone n) = true → n < next

/-- In every zone with complete versions, one that can be analysed has the highest number of all zones. -/
def Even (s : Store δ) (uid : Uid) (t : VMVersionType) : Prop :=
  ∀ zone n, s.isComplete (zoned uid t zone n) = true → ∃ m, s.isUsable (zoned uid t zone m) = true ∧
    (∀ k, s.isComplete (zoned uid t zone k) = true → k ≤ m) ∧ ∀ zone' k, s.isUsable (zoned uid t zone' k) = true → k ≤ m

section
variable {s : Store δ} {uid : Uid} {t : VMVersionType} {zone : Str} {n : ℤ}

theorem Even.isGreatest (h : Even s uid t) (ht : t ≠ .base) {v : VMVersion} :
    s.getLastVersion uid t zone = some v ↔ ∃ n, v = zoned uid t zone n ∧
      IsGreatest {n | s.isComplete (zoned uid t zone n) = true} n := by
  rw [getLastVersion_eq_some ht]
  refine exists_congr fun n => and_congr_right ?_
  rintro rfl
  constructor
  · rintro ⟨hu,hle⟩
    refine ⟨isComplete_of_isUsable hu,fun k hk => ?_⟩
    obtain ⟨m,hm,hzone,_⟩ := h zone k hk
    exact (hzone k hk).trans (hle zone m hm)
  · rintro ⟨hc,hg⟩
    obtain ⟨m,hm,hzone,ha⟩ := h zone n hc
    have hmn : m = n := le_antisymm (hg (isComplete_of_isUsable hm)) (hzone n hc)
    rw [← hmn]
    exact ⟨hm,ha⟩

theorem Even.perZone (h : Even s uid t) (ht : t ≠ .base) (zone : Str) :
    PerZone s uid t zone (s.getLastVersion uid t zone) (nextNumber (s.getLastVersion uid t zone)) := by
  have hl (n : ℤ) (hn : s.isComplete (zoned uid t zone n) = true) :
      ∃ m, s.getLastVersion uid t zone = some (zoned uid t zone m) ∧ n ≤ m := by
    obtain ⟨m,hm⟩ := exists_greatest hn
    exact ⟨m,(h.isGreatest ht).2 ⟨m,rfl,hm⟩,hm.2 hn⟩
  refine ⟨fun v => h.isGreatest ht,⟨fun hnone n => ?_,fun ha => ?_⟩,fun n hn => ?_⟩
  · by_contra hn
    obtain ⟨m,hm,_⟩ := hl n (Bool.not_eq_false _ ▸ hn)
    rw [hnone] at hm
    cases hm
  · refine Option.eq_none_iff_forall_ne_some.2 fun v hv => ?_
    obtain ⟨n,rfl,hu,_⟩ := (getLastVersion_eq_some ht).1 hv
    cases (isComplete_of_isUsable hu).symm.trans (ha n)
  · obtain ⟨m,hm,hnm⟩ := hl n hn
    rw [hm]
    exact Int.lt_add_one_of_le hnm

theorem PerZone.even (ht : t ≠ .base) (h : ∀ zone, PerZone s uid t zone (s.getLastVersion uid t zone)
      (nextNumber (s.getLastVersion uid t zone))) : Even s uid t := by
  intro zone n hn
  obtain ⟨m,hm⟩ := exists_greatest hn
  obtain ⟨m',hz,hu,ha⟩ := (getLastVersion_eq_some ht).1 (((h zone).greatest _).2 ⟨m,rfl,hm⟩)
  cases hz
  exact ⟨m,hu,fun k hk => hm.2 hk,ha⟩

theorem PerZone.not_complete {last : Option VMVersion} {next : ℤ} (h : PerZone s uid t zone last next) :
    s.isComplete (zoned uid t zone next) = false := by
  by_contra hc
  exact lt_irrefl next (h.above next (Bool.not_eq_false _ ▸ hc))

variable [Monoid δ]

theorem Store.not_collides_deriveTo {source target : VMVersion} (ht : s.isComplete target = false) :
    ¬ Collides (s.deriveTo uid source target) := by
  have hd : s.derive source target = .error .notComplete ∨ ∃ s', s.derive source target = .ok s' := by
    unfold derive
    by_cases hs : s.isComplete source = true
    · have hne : source ≠ target := by
        rintro rfl
        rw [hs] at ht
        cases ht
      rw [if_neg (by simp [hs]), if_neg hne, if_neg (by simp [ht])]
      exact Or.inr ⟨_,rfl⟩
    · exact Or.inl (if_pos (by simp [hs]))
  unfold deriveTo Collides
  rcases hd with hd | ⟨s',hd⟩
  · rw [hd]
    simp [bind,Except.bind]
  · rw [hd]
    cases ha : analyse s' uid with
    | error e => simp [bind,Except.bind,ha]
    | ok f => simp [bind,Except.bind,ha,pure,Except.pure]

end

/-- The last and the next versions are those of each zone exactly if no zone is ahead of another one
that has versions, and the last complete ones can be analysed. -/
theorem perZone_iff_even [Monoid δ] (s : Store δ) (uid : Uid) :
    (∀ zone,
      PerZone s uid .user zone (s.getLastUserVersion uid zone) (s.getNextUserVersionNumber uid zone) ∧
      PerZone s uid .snap zone (s.getLastSnapshotVersion uid zone) (s.getNextSnapshotVersionNumber uid zone) ∧
      (∀ source, ¬ Collides (s.createUserVersion uid zone source)) ∧
        ∀ source, ¬ Collides (s.createSnaphotVersion uid zone source)) ↔
      Even s uid .user ∧ Even s uid .snap := by
  have hus : VMVersionType.user ≠ .base := by decide
  have hsn : VMVersionType.snap ≠ .base := by decide
  constructor
  · intro h
    exact ⟨PerZone.even hus fun zone => (h zone).1,PerZone.even hsn fun zone => (h zone).2.1⟩
  · rintro ⟨hu,hs⟩ zone
    refine ⟨hu.perZone hus zone,hs.perZone hsn zone,fun source => ?_,fun source => ?_⟩
    · unfold createUserVersion
      split
      · simp [Collides]
      · exact not_collides_deriveTo (hu.perZone hus zone).not_complete
    · unfold createSnaphotVersion
      split
      · simp [Collides]
      · exact not_collides_deriveTo (hs.perZone hsn zone).not_complete

def office : Str := "office"
def home : Str := "home"

def twoZones : Store (FreeMonoid Char) where
  files := ⟨[(base2,layer none 'a'),(zoned 1000 .user office 0,layer (some base2) 'b'),
    (zoned 1000 .user office 1,layer (some base2) 'c'),
    (zoned 1000 .user home 0,layer (some base2) 'd')],by decide⟩
  others := .empty
  users := [1000]
  known := by decide

/-- The version of the second zone is not found, and the next one takes its number. -/
theorem twoZones_collide : (∃ f, analyse twoZones 1000 = .ok f) ∧ twoZones.isComplete (zoned 1000 .user home 0) = true ∧
    twoZones.getLastUserVersion 1000 home = none ∧ twoZones.getNextUserVersionNumber 1000 home = 0 ∧
    Collides (twoZones.createUserVersion 1000 home none) :=
  ⟨⟨_,rfl⟩,by decide,by decide,by decide,.inr rfl⟩

end Padsi.Vm
