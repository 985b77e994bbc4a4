import Padsi.Lib.Runs
import Padsi.Lib.Text

/-! # The passes of the background cleaner

A pass remembers the ended VMs and zones only until an exception ends it. What fails
inside of a `try` of its own has no other effect and is left out.
-/
namespace Padsi.User.Cleaner
open Text Runs List

structure Instance where
  name : ℕ
  version : Option Str
deriving DecidableEq

/-- `destroyed` tells that `destroy` was called, which has failed if the zone is still there. -/
structure ZoneData where
  apps : Option (List Instance)
  destroyed : Bool

structure Service where
  zones : List (Str × ZoneData)
  used : List Str
  gone : List Str

structure Faults where
  ended : Instance → Bool
  raises : Instance → Bool
  fuse : Str → Bool

section
variable (f : Faults)

def cleanup (zd : ZoneData) : ZoneData × List Str × Option Bool :=
  match zd.apps with
  | none => (zd,[],some false)
  | some apps =>
    if apps.any f.raises then (zd,[],none)
    else
      let alive := apps.filter fun i => !f.ended i
      let removed := (apps.filter f.ended).filterMap Instance.version
      ({ zd with apps := some alive },removed,some alive.isEmpty)

def sweep : List (Str × ZoneData) → List (Str × ZoneData) × List Str × Option (List Str)
  | [] => ([],[],some [])
  | (zone,zd) :: zones =>
    match cleanup f zd with
    | (zd',removed,none) => ((zone,zd') :: zones,removed,none)
    | (zd',removed,some toRemove) =>
      ((zone,zd') :: (sweep zones).1,removed ++ (sweep zones).2.1,
        (sweep zones).2.2.map fun toDestroy => if toRemove then zone :: toDestroy else toDestroy)

def destroyAll : List Str → List (Str × ZoneData) → List (Str × ZoneData) × Bool
  | [], zones => (zones,true)
  | zone :: toDestroy, zones =>
    if f.fuse zone then (zones.map fun z => if z.1 = zone then (z.1,⟨none,true⟩) else z,false)
    else destroyAll toDestroy (zones.filter (·.1 ≠ zone))

def pass (s : Service) : Service :=
  match sweep f s.zones with
  | (zones,removed,none) => ⟨zones,s.used,s.gone ++ removed⟩
  | (zones,removed,some toDestroy) =>
    match destroyAll f toDestroy zones with
    | (zones,false) => ⟨zones,s.used,s.gone ++ removed⟩
    | (zones,true) => ⟨zones,s.used.filter (· ∉ removed),s.gone ++ removed⟩

end

inductive Event where
  | start (zone : Str) (i : Instance)
  | pass (f : Faults)

def addZone (zone : Str) (i : Instance) : List (Str × ZoneData) → List (Str × ZoneData)
  | [] => [(zone,⟨some [i],false⟩)]
  | z :: zones =>
    if z.1 = zone then (zone,⟨some (z.2.apps.getD [] ++ [i]),false⟩) :: zones else z :: addZone zone i zones

def Service.act (s : Service) : Event → Service
  | .start zone i =>
    if ∃ v ∈ i.version, v ∈ s.used then s
    else ⟨addZone zone i s.zones,i.version.toList ++ s.used,s.gone.filter fun v => i.version ≠ some v⟩
  | .pass f => pass f s

/-- A VM that was taken out can be started again, and no zone is left whose destruction has failed. -/
structure Service.Recovered (s : Service) : Prop where
  released : ∀ v ∈ s.gone, v ∉ s.used
  removed : ∀ z ∈ s.zones, z.2.destroyed = false

def Dead (f : Faults) (zd : ZoneData) : Prop := ∃ apps, zd.apps = some apps ∧ ∀ i ∈ apps, f.ended i = true
def Raises (f : Faults) (zd : ZoneData) : Prop := ∃ apps, zd.apps = some apps ∧ ∃ i ∈ apps, f.raises i = true
def Ends (f : Faults) (zones : List (Str × ZoneData)) (v : Str) : Prop :=
  ∃ z ∈ zones, ∃ apps, z.2.apps = some apps ∧ ∃ i ∈ apps, f.ended i = true ∧ i.version = some v

/-- No VM ends in a zone before one that cannot be stopped, and zones without instances can be destroyed. -/
structure Harmless (f : Faults) (s : Service) : Prop where
  stop : ∀ before z after, s.zones = before ++ z :: after → Raises f z.2 → ∀ v, ¬Ends f before v
  fuse : (∀ z ∈ s.zones, ¬Raises f z.2) → ∀ z ∈ s.zones, Dead f z.2 → f.fuse z.1 = false

section
variable {f : Faults} {zones : List (Str × ZoneData)}

theorem mem_sweep {z : Str × ZoneData} (h : z ∈ (sweep f zones).1) :
    ∃ q ∈ zones, q.1 = z.1 ∧ q.2.destroyed = z.2.destroyed := by
  have hk : ∀ zd, (cleanup f zd).1.destroyed = zd.destroyed := by
    intro zd
    unfold cleanup
    split
    · rfl
    · split_ifs <;> rfl
  fun_induction sweep f zones with
  | case1 => cases h
  | case2 zone zd zones zd' removed hc =>
    rcases mem_cons.1 h with rfl | h
    · exact ⟨_,mem_cons_self,rfl,by rw [← hk,hc]⟩
    · exact ⟨z,mem_cons_of_mem _ h,rfl,rfl⟩
  | case3 zone zd zones zd' removed toRemove hc ih =>
    rcases mem_cons.1 h with rfl | h
    · exact ⟨_,mem_cons_self,rfl,by rw [← hk,hc]⟩
    · obtain ⟨q,hq,hs⟩ := ih h
      exact ⟨q,mem_cons_of_mem _ hq,hs⟩

theorem ends_of_cleanup {zone v : Str} {zd : ZoneData} (h : v ∈ (cleanup f zd).2.1) :
    Ends f ((zone,zd) :: zones) v := by
  unfold cleanup at h
  split at h
  · cases h
  · rename_i apps ha
    split_ifs at h
    · cases h
    · obtain ⟨i,hi,hv⟩ := mem_filterMap.1 h
      obtain ⟨hi,he⟩ := mem_filter.1 hi
      exact ⟨_,mem_cons_self,apps,ha,i,hi,he,hv⟩

theorem Ends.cons {v : Str} (h : Ends f zones v) (z : Str × ZoneData) : Ends f (z :: zones) v := by
  obtain ⟨q,hq,he⟩ := h
  exact ⟨q,mem_cons_of_mem _ hq,he⟩

theorem cleanup_eq_none {zd : ZoneData} : (cleanup f zd).2.2 = none ↔ Raises f zd := by
  unfold cleanup Raises
  cases zd.apps with
  | none => simp
  | some apps =>
    simp only [Option.some.injEq,exists_eq_left']
    split_ifs with hr
    · simpa using hr
    · simpa using hr

theorem removed_of_raises {zd : ZoneData} (h : Raises f zd) : (cleanup f zd).2.1 = [] := by
  obtain ⟨apps,ha,hr⟩ := h
  simp only [cleanup,ha,any_eq_true.2 hr,if_true]

/-- The sweep goes to its end, or to an instance that cannot be stopped; the VMs that it takes out
have ended before. -/
theorem sweep_cases (f : Faults) (zones : List (Str × ZoneData)) :
    ((sweep f zones).2.2 = none ∧ ∃ before z after, zones = before ++ z :: after ∧ Raises f z.2 ∧
      ∀ v ∈ (sweep f zones).2.1, Ends f before v) ∨
      (∃ toDestroy, (sweep f zones).2.2 = some toDestroy) ∧ ∀ z ∈ zones, ¬Raises f z.2 := by
  fun_induction sweep f zones with
  | case1 => exact .inr ⟨⟨[],rfl⟩,by simp⟩
  | case2 zone zd zones zd' removed hc =>
    have hr := cleanup_eq_none.1 (by rw [hc] : (cleanup f zd).2.2 = none)
    have hnone := removed_of_raises hr
    rw [hc] at hnone
    exact .inl ⟨rfl,[],_,zones,rfl,hr,fun v hv => absurd hv (by simp [show removed = [] from hnone])⟩
  | case3 zone zd zones zd' removed toRemove hc ih =>
    rcases ih with ⟨hnone,before,z,after,rfl,hr,he⟩ | ⟨⟨toDestroy,hs⟩,hst⟩
    · refine .inl ⟨by rw [hnone]; rfl,(zone,zd) :: before,z,after,rfl,hr,fun v hv => ?_⟩
      rcases mem_append.1 hv with hv | hv
      · exact ends_of_cleanup (by rw [hc]; exact hv)
      · exact (he v hv).cons _
    · refine .inr ⟨⟨_,by rw [hs]; rfl⟩,forall_mem_cons.2 ⟨fun hr => ?_,hst⟩⟩
      have hnone := cleanup_eq_none.2 hr
      rw [hc] at hnone
      cases hnone

theorem dead_of_cleanup {zd : ZoneData} (h : (cleanup f zd).2.2 = some true) : Dead f zd := by
  unfold cleanup at h
  split at h
  · cases h
  · rename_i apps ha
    split_ifs at h
    refine ⟨apps,ha,fun i hi => ?_⟩
    by_contra he
    exact filter_eq_nil_iff.1 (isEmpty_iff.1 (Option.some.inj h)) i hi (by simp [he])

theorem dead_of_sweep {toDestroy : List Str} (h : (sweep f zones).2.2 = some toDestroy) :
    ∀ zone ∈ toDestroy, ∃ z ∈ zones, z.1 = zone ∧ Dead f z.2 := by
  induction zones generalizing toDestroy with
  | nil =>
    cases h
    simp
  | cons z zones ih =>
    intro zone hzone
    rw [sweep] at h
    split at h
    · cases h
    · rename_i zd' removed toRemove hc
      obtain ⟨rest,hrest,rfl⟩ := Option.map_eq_some_iff.1 h
      have hl : zone ∈ rest → ∃ q ∈ z :: zones, q.1 = zone ∧ Dead f q.2 := fun hmem =>
        (ih hrest zone hmem).imp fun q hq => ⟨mem_cons_of_mem _ hq.1,hq.2⟩
      split_ifs at hzone with hr
      · rcases mem_cons.1 hzone with rfl | hzone
        · exact ⟨z,mem_cons_self,rfl,dead_of_cleanup (by rw [hc,hr])⟩
        · exact hl hzone
      · exact hl hzone

theorem destroyAll_of_fuse {toDestroy : List Str} (h : ∀ zone ∈ toDestroy, f.fuse zone = false) :
    (destroyAll f toDestroy zones).2 = true ∧ (destroyAll f toDestroy zones).1 ⊆ zones := by
  induction toDestroy generalizing zones with
  | nil => exact ⟨rfl,List.Subset.refl _⟩
  | cons zone toDestroy ih =>
    obtain ⟨hzone,hrest⟩ := forall_mem_cons.1 h
    rw [destroyAll, if_neg (by simp [hzone])]
    exact ⟨(ih hrest).1,fun z hz => mem_of_mem_filter ((ih hrest).2 hz)⟩

end

section
variable {s : Service}

/-- A harmless pass loses no VM and leaves no zone that could not be destroyed. -/
theorem Service.Recovered.pass {f : Faults} (h : s.Recovered) (hf : Harmless f s) : (pass f s).Recovered := by
  have hzones : ∀ z ∈ (sweep f s.zones).1, z.2.destroyed = false := by
    intro z hz
    obtain ⟨q,hq,-,hsa⟩ := mem_sweep hz
    rw [← hsa]
    exact h.removed q hq
  have hc := sweep_cases f s.zones
  unfold Cleaner.pass
  split
  · rename_i zones removed hs
    rw [hs] at hzones hc
    obtain ⟨-,before,z,after,hsplit,hr,he⟩ := hc.resolve_right fun hso => by simp at hso
    refine ⟨fun v hv => ?_,hzones⟩
    rcases mem_append.1 hv with hv | hv
    · exact h.released v hv
    · exact absurd (he v hv) (hf.stop before z after hsplit hr v)
  · rename_i zones removed toDestroy hs
    have hd : ∀ zone ∈ toDestroy, ∃ z ∈ s.zones, z.1 = zone ∧ Dead f z.2 := dead_of_sweep (by rw [hs])
    rw [hs] at hzones hc
    obtain ⟨-,hst⟩ := hc.resolve_left fun hnone => by simp at hnone
    have hfu : ∀ zone ∈ toDestroy, f.fuse zone = false := by
      intro zone hzone
      obtain ⟨z,hz,rfl,hz'⟩ := hd zone hzone
      exact hf.fuse hst z hz hz'
    obtain ⟨hok,hsu⟩ : (destroyAll f toDestroy zones).2 = true ∧ _ ⊆ zones := destroyAll_of_fuse hfu
    split
    · rename_i hfa
      rw [hfa] at hok
      cases hok
    · rename_i left hl
      rw [hl] at hsu
      refine ⟨fun v hv hmem => ?_,fun z hz => hzones z (hsu hz)⟩
      obtain ⟨hu,hnot⟩ := mem_filter.1 hmem
      rcases mem_append.1 hv with hv | hv
      · exact h.released v hv hu
      · exact of_decide_eq_true hnot hv

theorem mem_addZone {zone : Str} {i : Instance} {zones : List (Str × ZoneData)} {z : Str × ZoneData}
    (h : z ∈ addZone zone i zones) : z.2.destroyed = false ∨ z ∈ zones := by
  induction zones with
  | nil =>
    rw [mem_singleton.1 h]
    exact .inl rfl
  | cons q zones ih =>
    rw [addZone] at h
    split_ifs at h
    · rcases mem_cons.1 h with rfl | h
      · exact .inl rfl
      · exact .inr (mem_cons_of_mem _ h)
    · rcases mem_cons.1 h with rfl | h
      · exact .inr mem_cons_self
      · exact (ih h).imp id (mem_cons_of_mem _)

def Calm (s : Service) : Event → Prop
  | .start _ _ => True
  | .pass f => Harmless f s

theorem Service.Recovered.act (h : s.Recovered) {e : Event} (he : Calm s e) : (s.act e).Recovered := by
  cases e with
  | pass f => exact h.pass he
  | start zone i =>
    rw [Service.act]
    split_ifs with hu
    · exact h
    · refine ⟨fun v hv hmem => ?_,fun z hz => ?_⟩
      · obtain ⟨hv,ho⟩ := mem_filter.1 hv
        rcases mem_append.1 hmem with hmem | hmem
        · exact of_decide_eq_true ho (Option.mem_toList.1 hmem)
        · exact h.released v hv hmem
      · exact (mem_addZone hz).elim id (h.removed z)

end

end Padsi.User.Cleaner
