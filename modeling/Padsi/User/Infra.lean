import Mathlib.Logic.Function.Basic
import Padsi.Lib.Runs
import Padsi.Lib.Store
import Padsi.Lib.Text

/-! # The infrastructure and the user files of a zone that is starting

A start looks for its objects without the lock, and enters its zone instance in `_zones`
much later. The cleaner destroys a zone when all of its instances are dead.
-/
namespace Padsi.User.Infra
open Python Text Runs List Function Dict

structure Start where
  zone : Str
  networked : Bool

inductive Part where
  | infra
  | userfiles
deriving DecidableEq

inductive Slot where
  | idle
  | asked (waited : Bool)
  | creating
  | failed
  | given (o : ℕ)
deriving DecidableEq

def Slot.isGiven : Slot → Bool
  | .given _ => true
  | _ => false

inductive Phase where
  | starting
  | registered
  | ended
deriving DecidableEq

structure ZoneData where
  part : Part → Option ℕ
  apps : Option (List ℕ)

/-- The entries of `_running_tasks` are those for the creation of the parts; the cleaner holds the
lock or not. -/
structure Service where
  zones : Dict Str ZoneData
  tasks : Dict (Part × Str) ℕ
  slot : ℕ → Part → Slot
  phase : ℕ → Phase
  sweeping : Bool
  condemned : List Str
  destroyed : List (Part × ℕ)

def partOf (zones : Dict Str ZoneData) (zone : Str) (p : Part) : Option ℕ := (zones.get zone).bind (·.part p)
def Service.start : Service := ⟨.empty,.empty,fun _ _ => .idle,fun _ => .starting,false,[],[]⟩

inductive Event where
  | ask (i : ℕ) (p : Part)
  | enter (i : ℕ) (p : Part)
  | create (i : ℕ) (p : Part)
  | failPart (i : ℕ) (p : Part)
  | register (i : ℕ)
  | fail (i : ℕ)
  | sweep
  | visit (zone : Str) (dead : List ℕ)
  | destroy
  | destroyFails
  | release

namespace Service
variable (starts : ℕ → Start)

def put (s : Service) (i : ℕ) (p : Part) (x : Slot) : Service :=
  { s with slot := fun j q => if j = i ∧ q = p then x else s.slot j q }
def zoneData (s : Service) (zone : Str) : ZoneData := (s.zones.get zone).getD ⟨fun _ => none,none⟩
def objects (s : Service) (zone : Str) (parts : List Part) : List (Part × ℕ) :=
  parts.filterMap fun p => (partOf s.zones zone p).map (p,·)

def act (s : Service) : Event → Service
  | .ask i p =>
    if s.phase i = .starting ∧ s.slot i p = .idle ∧ (p = .infra → (starts i).networked) then
      match partOf s.zones (starts i).zone p with
      | some o => s.put i p (.given o)
      | none => s.put i p (.asked false)
    else s
  | .enter i p =>
    match s.slot i p with
    | .asked waited =>
      if s.sweeping then s
      else if s.tasks.get (p,(starts i).zone) ≠ none then s.put i p (.asked true)
      else match waited, partOf s.zones (starts i).zone p with
        | true, some o => s.put i p (.given o)
        | _, _ => { s.put i p .creating with tasks := s.tasks.set (p,(starts i).zone) i }
    | _ => s
  -- the object is entered in the zone, and the task is finished
  | .create i p =>
    if s.slot i p = .creating ∧ ¬ s.sweeping then
      let zd := s.zoneData (starts i).zone
      { s.put i p (.given i) with
        zones := s.zones.set (starts i).zone { zd with part := update zd.part p (some i) }
        tasks := s.tasks.erase (p,(starts i).zone) }
    else s
  | .failPart i p =>
    match s.slot i p with
    | .asked _ => s.put i p .failed
    | .creating => { s.put i p .failed with tasks := s.tasks.erase (p,(starts i).zone) }
    | _ => s
  | .register i =>
    if s.phase i = .starting ∧ ¬ s.sweeping ∧ (s.slot i .userfiles).isGiven ∧
        ((starts i).networked → (s.slot i .infra).isGiven) then
      let zd := s.zoneData (starts i).zone
      { s with
        zones := s.zones.set (starts i).zone { zd with apps := some (zd.apps.getD [] ++ [i]) }
        phase := update s.phase i .registered }
    else s
  | .fail i => if s.phase i = .starting then { s with phase := update s.phase i .ended } else s
  | .sweep => { s with sweeping := true }
  | .visit zone dead =>
    match s.zones.get zone with
    | some ⟨part,some apps⟩ =>
      if s.sweeping ∧ zone ∉ s.condemned then
        let alive := apps.filter (· ∉ dead)
        { s with
          zones := s.zones.set zone ⟨part,some alive⟩
          condemned := if alive = [] then s.condemned ++ [zone] else s.condemned }
      else s
    | _ => s
  | .destroy =>
    match s.condemned with
    | zone :: rest =>
      { s with
        zones := s.zones.erase zone
        condemned := rest
        destroyed := s.destroyed ++ s.objects zone [.infra,.userfiles] }
    | [] => s
  -- `fuse-cleanup` raises when the infrastructure is destroyed: the user files and the zone stay
  | .destroyFails =>
    match s.condemned with
    | zone :: _ =>
      { s with
        zones := s.zones.set zone ⟨update (s.zoneData zone).part .infra none,none⟩
        sweeping := false
        condemned := []
        destroyed := s.destroyed ++ s.objects zone [.infra] }
    | [] => s
  -- at the end of the sweep, or after an exception
  | .release => { s with sweeping := false, condemned := [] }

/-- The cleaner spares what it has handed out to a start, and an instance is in a zone with its
infrastructure. -/
structure Kept (s : Service) : Prop where
  spared : ∀ i p o, s.phase i = .starting → s.slot i p = .given o → (p,o) ∉ s.destroyed
  owned : ∀ zone zd i o, s.zones.get zone = some zd → i ∈ zd.apps.getD [] → s.slot i .infra = .given o →
    zd.part .infra = some o

/-- No zone is found dead during a start of it, no start gets an object to be destroyed, and none
creates one that was entered since it looked. -/
def Orderly (s : Service) : Event → Prop
  | .ask i _ => (starts i).zone ∉ s.condemned
  | .enter i p =>
    s.slot i p = .asked false → s.tasks.get (p,(starts i).zone) = none → partOf s.zones (starts i).zone p = none
  | .visit zone dead => (∀ i ∈ (s.zoneData zone).apps.getD [], i ∈ dead) →
    ∀ i p o, s.phase i = .starting → (starts i).zone = zone → s.slot i p ≠ .given o
  | _ => True

structure Inv (s : Service) : Prop where
  task : ∀ p zone i, s.tasks.get (p,zone) = some i ↔ (starts i).zone = zone ∧ s.slot i p = .creating
  absent : ∀ i p, s.slot i p = .creating → partOf s.zones (starts i).zone p = none
  held : ∀ i p o, s.phase i = .starting → s.slot i p = .given o →
    partOf s.zones (starts i).zone p = some o ∧ (starts i).zone ∉ s.condemned
  wired : ∀ i, (starts i).networked = false → s.slot i .infra = .idle
  settled : ∀ i p, s.phase i = .registered → s.slot i p = .idle ∨ (s.slot i p).isGiven
  placed : ∀ zone zd i, s.zones.get zone = some zd → i ∈ zd.apps.getD [] → (starts i).zone = zone ∧
    s.phase i = .registered ∧
    ∀ o, s.slot i .infra = .given o → zd.part .infra = some o
  object : ∀ zone p o, partOf s.zones zone p = some o → (starts o).zone = zone ∧ s.slot o p = .given o ∧
    (p,o) ∉ s.destroyed
  dead : ∀ p o, (p,o) ∈ s.destroyed → s.slot o p = .given o
  locked : s.sweeping = false → s.condemned = []

variable {starts} {s : Service}

theorem inv_start : start.Inv starts := by
  constructor <;> simp [start,partOf,get_empty]

theorem Inv.kept (h : s.Inv starts) : s.Kept where
  spared i p o hi hg := (h.object _ _ _ (h.held i p o hi hg).1).2.2
  owned zone zd i o hz hi hg := (h.placed zone zd i hz hi).2.2 o hg

section
variable (zones : Dict Str ZoneData) (zone z : Str) (zd : ZoneData) (p : Part)

theorem partOf_set : partOf (zones.set zone zd) z p = if z = zone then zd.part p else partOf zones z p := by
  unfold partOf
  rw [get_set]
  split_ifs <;> simp

theorem partOf_erase : partOf (zones.erase zone) z p = if z = zone then none else partOf zones z p := by
  unfold partOf
  rw [get_erase]
  split_ifs <;> simp

theorem part_zoneData : (s.zoneData zone).part p = partOf s.zones zone p := by
  unfold zoneData partOf
  cases s.zones.get zone <;> rfl

end

variable {zone : Str} {p : Part} {i : ℕ}

theorem zoneData_of_get {zd : ZoneData} (h : s.zones.get zone = some zd) : s.zoneData zone = zd := by simp [zoneData,h]

theorem Inv.placed_zoneData (h : s.Inv starts) (zone : Str) (i : ℕ) (hi : i ∈ (s.zoneData zone).apps.getD []) :
    (starts i).zone = zone ∧ s.phase i = .registered ∧ ∀ o, s.slot i .infra = .given o →
      partOf s.zones zone .infra = some o := by
  unfold zoneData at hi
  cases hz : s.zones.get zone with
  | none => simp [hz] at hi
  | some zd => simpa [partOf,hz] using h.placed zone zd i hz (by simpa [hz] using hi)

theorem mem_objects {parts : List Part} {o : ℕ} :
    (p,o) ∈ s.objects zone parts ↔ p ∈ parts ∧ partOf s.zones zone p = some o := by
  simp [objects,mem_filterMap]

theorem Inv.put (h : s.Inv starts) {x : Slot} (hold : s.slot i p = .idle ∨ ∃ w, s.slot i p = .asked w)
    (hn : x ≠ .creating) (hw : (starts i).networked = false → p = .infra → x = .idle) (hp : s.phase i ≠ .registered)
    (hg : ∀ o, x = .given o → s.phase i = .starting → partOf s.zones (starts i).zone p = some o ∧
      (starts i).zone ∉ s.condemned) :
    (s.put i p x).Inv starts := by
  obtain ⟨ht,ha,hh,hwi,hs,hpl,ho,hd,hl⟩ := h
  constructor <;> simp only [Service.put] <;> grind -linarith

theorem Inv.begin (h : s.Inv starts) {w : Bool} (hi : s.slot i p = .asked w)
    (hf : s.tasks.get (p,(starts i).zone) = none) (hnone : partOf s.zones (starts i).zone p = none) :
    Inv starts { s.put i p .creating with tasks := s.tasks.set (p,(starts i).zone) i } := by
  obtain ⟨ht,ha,hh,hw,hs,hp,ho,hd,hl⟩ := h
  constructor <;> simp only [Service.put,get_set] <;> grind -linarith [Slot.isGiven]

theorem Inv.create (h : s.Inv starts) (hi : s.slot i p = .creating) (hs : s.sweeping = false) :
    Inv starts { s.put i p (.given i) with
      zones := s.zones.set (starts i).zone
        { s.zoneData (starts i).zone with part := update (s.zoneData (starts i).zone).part p (some i) }
      tasks := s.tasks.erase (p,(starts i).zone) } := by
  have hnone : ∀ z, z ∉ s.condemned := by simp [h.locked hs]
  have hb := h.placed_zoneData (starts i).zone
  have hc := h.absent i p hi
  have ha (j) (hj : (starts j).zone = (starts i).zone ∧ s.slot j p = .creating) : j = i := by
    have ho := (h.task p (starts i).zone i).2 ⟨rfl,hi⟩
    exact (Option.some.inj (ho.symm.trans ((h.task p (starts i).zone j).2 hj))).symm
  obtain ⟨ht,hab,hh,hw,hse,hp,hob,hd,hl⟩ := h
  constructor <;> simp only [Service.put,get_erase,get_set,partOf_set,update_apply,part_zoneData]
  case placed =>
    intro z zd j hz hj
    split_ifs at hz with heq
    · subst heq
      cases hz
      have hold := hb j hj
      have hst := hse j p
      simp only [update_apply,part_zoneData]
      grind -linarith [Slot.isGiven]
    · have hold := hp z zd j hz hj
      grind -linarith
  all_goals grind -linarith [Slot.isGiven]

theorem Inv.failPart (h : s.Inv starts) (hi : s.slot i p = .creating) :
    Inv starts { s.put i p .failed with tasks := s.tasks.erase (p,(starts i).zone) } := by
  obtain ⟨ht,ha,hh,hw,hs,hp,ho,hd,hl⟩ := h
  constructor <;> simp only [Service.put,get_erase] <;> grind -linarith [Slot.isGiven]

theorem Inv.register (h : s.Inv starts) (hi : s.phase i = .starting) (hs : s.sweeping = false)
    (hal : ∀ p, s.slot i p = .idle ∨ (s.slot i p).isGiven) :
    Inv starts { s with
      zones := s.zones.set (starts i).zone
        { s.zoneData (starts i).zone with apps := some ((s.zoneData (starts i).zone).apps.getD [] ++ [i]) }
      phase := update s.phase i .registered } := by
  have hb := h.placed_zoneData (starts i).zone
  obtain ⟨ht,ha,hh,hw,hse,hp,ho,hd,hl⟩ := h
  constructor <;> simp only [get_set,partOf_set,update_apply,part_zoneData]
  case placed =>
    intro z zd j hz hj
    split_ifs at hz with heq
    · subst heq
      cases hz
      simp only [Option.getD_some,mem_append,mem_singleton,part_zoneData] at hj ⊢
      grind -linarith
    · grind -linarith
  all_goals grind -linarith

theorem Inv.fail (h : s.Inv starts) (hi : s.phase i = .starting) :
    Inv starts { s with phase := update s.phase i .ended } := by
  obtain ⟨ht,ha,hh,hw,hs,hp,ho,hd,hl⟩ := h
  constructor <;> simp only [update_apply] <;> grind -linarith

theorem Inv.destroy (h : s.Inv starts) {rest : List Str} (hc : s.condemned = zone :: rest) :
    Inv starts { s with
      zones := s.zones.erase zone
      condemned := rest
      destroyed := s.destroyed ++ s.objects zone [.infra,.userfiles] } := by
  obtain ⟨ht,ha,hh,hw,hs,hp,ho,hd,hl⟩ := h
  constructor <;> simp only [partOf_erase,get_erase,mem_append,mem_objects] <;> grind -linarith

theorem Inv.destroyFails (h : s.Inv starts) {rest : List Str} (hc : s.condemned = zone :: rest) :
    Inv starts { s with
      zones := s.zones.set zone ⟨update (s.zoneData zone).part .infra none,none⟩
      sweeping := false
      condemned := []
      destroyed := s.destroyed ++ s.objects zone [.infra] } := by
  obtain ⟨ht,ha,hh,hw,hs,hp,ho,hd,hl⟩ := h
  constructor <;> simp only [partOf_set,get_set,mem_append,mem_objects,update_apply,part_zoneData] <;> grind -linarith

theorem Inv.visit (h : s.Inv starts) {part : Part → Option ℕ} {apps alive : List ℕ} {condemned : List Str}
    (hz : s.zones.get zone = some ⟨part,some apps⟩) (hs : s.sweeping) (ha : ∀ i ∈ alive, i ∈ apps)
    (hc : ∀ z ∈ condemned, z ∈ s.condemned ∨ z = zone ∧ ∀ i p o, s.phase i = .starting →
      (starts i).zone = zone → s.slot i p ≠ .given o) :
    Inv starts { s with zones := s.zones.set zone ⟨part,some alive⟩, condemned := condemned } := by
  have hp (p) : partOf s.zones zone p = part p := by simp [partOf,hz]
  have hb (i) (hi : i ∈ apps) := h.placed zone _ i hz hi
  obtain ⟨ht,hab,hh,hw,hse,hpl,ho,hd,hl⟩ := h
  constructor <;> simp only [partOf_set,get_set] <;> grind -linarith

/-- One case for each suspension of a start and for each step of the cleaner. -/
theorem Inv.act (ev : Event) (h : s.Inv starts) (hok : s.Orderly starts ev) : (s.act starts ev).Inv starts := by
  have hw := h.wired
  have hse := h.settled
  cases ev with
  | ask i p =>
    rw [Service.act]
    split_ifs with hi
    · split
      · rename_i o hp
        refine h.put (.inl hi.2.1) ?_ ?_ ?_ ?_ <;> grind -linarith [Orderly]
      · refine h.put (.inl hi.2.1) ?_ ?_ ?_ ?_ <;> grind -linarith
    · exact h
  | enter i p =>
    rw [Service.act]
    split
    · rename_i waited hi
      split_ifs with hs ht
      · exact h
      · refine h.put (.inr ⟨waited,hi⟩) ?_ ?_ ?_ ?_ <;> grind -linarith [Slot.isGiven]
      · have hl := h.locked (by simpa using hs)
        split
        · refine h.put (.inr ⟨_,hi⟩) ?_ ?_ ?_ ?_ <;> grind -linarith [Slot.isGiven]
        · rename_i waited _ _ hnot
          have hf : s.tasks.get (p,(starts i).zone) = none := by simpa using ht
          refine h.begin hi hf ?_
          cases hp : partOf s.zones (starts i).zone p with
          | none => rfl
          | some o =>
            cases waited with
            | true => exact absurd hp (hnot o rfl)
            | false => exact hp.symm.trans (hok hi hf)
    · exact h
  | create i p =>
    rw [Service.act]
    split_ifs with hi
    · exact h.create hi.1 (by simpa using hi.2)
    · exact h
  | failPart i p =>
    rw [Service.act]
    split
    · rename_i waited hi
      refine h.put (.inr ⟨waited,hi⟩) ?_ ?_ ?_ ?_ <;> grind -linarith [Slot.isGiven]
    · rename_i hi
      exact h.failPart hi
    · exact h
  | register i =>
    rw [Service.act]
    split_ifs with hi
    · obtain ⟨hst,hs,hu,hin⟩ := hi
      refine h.register hst (by simpa using hs) fun p => ?_
      cases p with
      | infra =>
        cases hn : (starts i).networked with
        | false => exact .inl (hw i hn)
        | true => exact .inr (hin hn)
      | userfiles => exact .inr hu
    · exact h
  | fail i =>
    rw [Service.act]
    split_ifs with hi
    · exact h.fail hi
    · exact h
  | sweep =>
    rw [Service.act]
    exact ⟨h.task,h.absent,h.held,h.wired,h.settled,h.placed,h.object,h.dead,by simp⟩
  | visit zone dead =>
    rw [Service.act]
    split
    · rename_i part apps hz
      split_ifs with hs
      · refine h.visit hz hs.1 (fun i hi => (mem_filter.1 hi).1) fun z hz' => ?_
        split_ifs at hz' with ha
        · rcases mem_append.1 hz' with hz' | hz'
          · exact .inl hz'
          · refine .inr ⟨mem_singleton.1 hz',hok fun i hi => ?_⟩
            rw [zoneData_of_get hz] at hi
            simpa using filter_eq_nil_iff.1 ha i hi
        · exact .inl hz'
      · exact h
    · exact h
  | destroy =>
    rw [Service.act]
    split
    · rename_i zone rest hc
      exact h.destroy hc
    · exact h
  | destroyFails =>
    rw [Service.act]
    split
    · rename_i zone rest hc
      exact h.destroyFails hc
    · exact h
  | release =>
    rw [Service.act]
    exact ⟨h.task,h.absent,fun i p o hi hg => ⟨(h.held i p o hi hg).1,by simp⟩,h.wired,h.settled,h.placed,
      h.object,h.dead,by simp⟩

end Service

open Service

/-- A zone that is starting keeps its infrastructure in every orderly run. -/
theorem kept_of_orderly (starts : ℕ → Start) (evs : List Event)
    (h : Along (act starts) (Orderly starts) Service.start evs) : (evs.foldl (act starts) Service.start).Kept :=
  (h.keeps (fun _ ev hs hok => hs.act ev hok) inv_start).kept

def zoneOf : ℕ → Start
  | 0 => ⟨"home",true⟩
  | _ => ⟨"office",true⟩
def startZone (i : ℕ) : List Event :=
  [.ask i .infra,.ask i .userfiles,.enter i .infra,.enter i .userfiles,.create i .infra,.create i .userfiles,
    .register i]

def startedAgain : List Event := startZone 0 ++ startZone 1 ++
  [.ask 2 .infra,.ask 2 .userfiles,.sweep,.visit "home" [0],.visit "office" [],.destroy,.release,.register 2]

theorem orderly_startedAgain : Along (act zoneOf) (Orderly zoneOf) Service.start startedAgain := by
  refine ⟨not_mem_nil,not_mem_nil,fun _ _ => rfl,fun _ _ => rfl,trivial,trivial,trivial,
    not_mem_nil,not_mem_nil,fun _ _ => rfl,fun _ _ => rfl,trivial,trivial,trivial,
    not_mem_nil,not_mem_nil,trivial,fun _ i _ _ hi hz => ?_,fun h => ?_,trivial,trivial,trivial,trivial⟩
  · -- only the first start is one of this zone, and it is over
    cases i with
    | zero => cases hi
    | succ i => cases hz
  · exact absurd (h 1 (by decide +kernel)) not_mem_nil

/-- The second start of a zone keeps what it was handed out. -/
theorem startedAgain_kept : (startedAgain.foldl (act zoneOf) Service.start).Kept ∧
    (startedAgain.foldl (act zoneOf) Service.start).slot 2 .infra = .given 1 ∧
    (startedAgain.foldl (act zoneOf) Service.start).destroyed = [(.infra,0),(.userfiles,0)] :=
  ⟨kept_of_orderly _ _ orderly_startedAgain,by decide +kernel,by decide +kernel⟩

def restartZone : List Event :=
  startZone 1 ++ [.ask 2 .infra,.ask 2 .userfiles,.sweep,.visit "office" [1],.destroy,.release]

/-- The instance of the zone is dead, and a second start has been handed out its infrastructure. -/
theorem restartZone_not_kept : ¬ (restartZone.foldl (act zoneOf) Service.start).Kept := by
  intro h
  have hs := h.spared 2 .infra 1 (by decide) (by decide)
  exact hs (by decide)

end Padsi.User.Infra
