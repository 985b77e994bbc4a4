import Mathlib.Logic.Function.Basic
import Padsi.Lib.Runs
import Padsi.Lib.Store
import Padsi.Lib.Text

/-! # The VM versions in use

`_start_vm_zone` looks for its version before it awaits the infrastructure of the zone,
and enters it only afterwards. A step is what a coroutine does between two suspensions.
-/
namespace Padsi.User.Versions
open Python Text Runs Function

structure Start where
  version : Str
  readOnly : Bool

inductive Phase where
  | new
  | preparing
  | marked
  | registered
  | started
  | failing
  | ended
deriving DecidableEq

/-- How far a start is, whether its instance is in `apps`, whether it was stopped, and whether its VM runs. -/
structure Vm where
  phase : Phase
  listed : Bool
  stopped : Bool
  runs : Bool

/-- `_vm_versions`, and the cleaner: its lock, the versions it will take out, and those to be discarded. -/
structure Service where
  used : Dict Str ℕ
  vms : ℕ → Vm
  sweeping : Bool
  removed : List ℕ
  discard : List ℕ

def Service.start : Service := ⟨.empty,fun _ => ⟨.new,false,false,false⟩,false,[],[]⟩

inductive Event where
  | call (i : ℕ)
  | fail (i : ℕ)
  | mark (i : ℕ)
  | register (i : ℕ)
  | startVm (i : ℕ)
  | finish (i : ℕ)
  | unmark (i : ℕ) (cleaned : Bool)
  | ends (i : ℕ)
  | sweep
  | stop (i : ℕ)
  | release
  | abort (gone : List ℕ)
  | next

namespace Service
variable (starts : ℕ → Start)

def put (s : Service) (i : ℕ) (v : Vm) : Service := { s with vms := update s.vms i v }
def unlist (s : Service) (gone : List ℕ) : Service :=
  { s with vms := fun i => { s.vms i with listed := (s.vms i).listed && !(i ∈ gone) } }

def act (s : Service) : Event → Service
  | .call i =>
    if (s.vms i).phase = .new then
      s.put i { s.vms i with phase := if s.used.get (starts i).version = none then .preparing else .ended }
    else s
  | .fail i =>
    match (s.vms i).phase with
    -- the failure of the infrastructure is raised outside of the block that takes the entry away
    | .preparing => s.put i { s.vms i with phase := .ended }
    | .marked | .registered | .started => s.put i { s.vms i with phase := .failing }
    | _ => s
  | .mark i =>
    if (s.vms i).phase = .preparing ∧ ¬ s.sweeping then
      { s.put i { s.vms i with phase := .marked } with used := s.used.set (starts i).version i }
    else s
  | .register i =>
    if (s.vms i).phase = .marked ∧ ¬ s.sweeping then s.put i ⟨.registered,true,false,false⟩ else s
  | .startVm i =>
    if (s.vms i).phase = .registered then
      -- `start_vm` raises when the instance has no bubble any more
      if (s.vms i).stopped then s.put i { s.vms i with phase := .failing }
      else s.put i { s.vms i with phase := .started, runs := true }
    else s
  | .finish i => if (s.vms i).phase = .started then s.put i { s.vms i with phase := .ended } else s
  | .unmark i cleaned =>
    if (s.vms i).phase = .failing ∧ ¬ s.sweeping then
      { s.put i { s.vms i with phase := .ended } with
        used := if cleaned then s.used.erase (starts i).version else s.used }
    else s
  | .ends i => s.put i { s.vms i with runs := false }
  | .sweep => if s.removed = [] then { s with sweeping := true } else s
  | .stop i =>
    if s.sweeping ∧ (s.vms i).listed ∧ i ∉ s.removed then
      { s.put i { s.vms i with stopped := true, runs := false } with
        removed := s.removed ++ [i]
        discard := if (starts i).readOnly then s.discard ++ [i] else s.discard }
    else s
  | .release => if s.sweeping then { s.unlist s.removed with sweeping := false } else s
  -- an exception: some of the stopped instances have been taken out of their zones
  | .abort gone => { s.unlist (gone.filter (· ∈ s.removed)) with sweeping := false, removed := [], discard := [] }
  | .next =>
    match s.removed with
    | i :: rest =>
      if s.sweeping then s
      else { s with
        used := s.used.erase (starts i).version
        removed := rest
        discard := if rest = [] then [] else s.discard }
    | [] => s

/-- The VMs whose files the next step of the cleaner discards, with the last entry it takes away. -/
def discards (s : Service) : List ℕ := if ¬ s.sweeping ∧ s.removed.length = 1 then s.discard else []

def Uses (s : Service) (i : ℕ) : Prop :=
  (s.vms i).runs ∨ (s.vms i).phase = .marked ∨ (s.vms i).phase = .registered

/-- A version is run by one VM, and neither a failed start nor the cleaner takes it away from a VM. -/
structure Exclusive (s : Service) : Prop where
  alone : ∀ i j, (s.vms i).runs → (s.vms j).runs → (starts i).version = (starts j).version → i = j
  marked : ∀ i, (s.vms i).runs → s.used.get (starts i).version ≠ none
  failed : ∀ i j cleaned, (s.vms i).phase = .failing → j ≠ i → s.Uses j →
    (s.act starts (.unmark i cleaned)).used.get (starts j).version = s.used.get (starts j).version
  kept : ∀ i ∈ s.discards, ∀ j, s.Uses j ∨ (s.vms j).phase = .preparing → (starts j).version ≠ (starts i).version

/-- No start meets another one of its version or files to be discarded, none fails once it is
registered, and no instance is stopped before its VM is started. -/
def Orderly (s : Service) : Event → Prop
  | .call i => s.used.get (starts i).version = none →
    (∀ j, (s.vms j).phase = .preparing → (starts j).version ≠ (starts i).version) ∧
    ∀ j ∈ s.discard, (starts j).version ≠ (starts i).version
  | .fail i => (s.vms i).phase ≠ .registered ∧ (s.vms i).phase ≠ .started
  | .stop i => (s.vms i).phase ≠ .registered
  | _ => True

def Holds (s : Service) (i : ℕ) : Prop :=
  (s.vms i).phase = .marked ∨ (s.vms i).phase = .failing ∨ (s.vms i).listed ∨ i ∈ s.removed

structure Inv (s : Service) : Prop where
  own : ∀ i, s.Holds i → s.used.get (starts i).version = some i
  free : ∀ i, (s.vms i).phase = .preparing → s.used.get (starts i).version = none
  apart : ∀ i j, (s.vms i).phase = .preparing → (s.vms j).phase = .preparing →
    (starts i).version = (starts j).version → i = j
  runs : ∀ i, (s.vms i).runs → (s.vms i).listed ∧ i ∉ s.removed
  young : ∀ i, (s.vms i).phase = .new ∨ (s.vms i).phase = .preparing ∨ (s.vms i).phase = .marked ∨
    (s.vms i).phase = .failing →
    (s.vms i).listed = false ∧ i ∉ s.removed
  registered : ∀ i, (s.vms i).phase = .registered → (s.vms i).listed ∧ (s.vms i).stopped = false ∧ i ∉ s.removed
  nodup : s.removed.Nodup
  out : s.sweeping = false → ∀ i ∈ s.removed, (s.vms i).listed = false
  discarded : ∀ i ∈ s.discard, i ∈ s.removed ∨
    s.used.get (starts i).version = none ∧ ∀ j, (s.vms j).phase = .preparing → (starts j).version ≠ (starts i).version

variable {starts} {s : Service}

theorem inv_start : start.Inv starts := by
  constructor <;> simp [start,Holds]

theorem Inv.holder (h : s.Inv starts) {i j : ℕ} (hi : s.Holds i) (hj : s.Holds j)
    (hv : (starts i).version = (starts j).version) : i = j := by
  have ho := h.own i hi
  have how := h.own j hj
  rw [hv,how] at ho
  exact (Option.some.inj ho).symm

theorem Inv.holds_of_uses (h : s.Inv starts) {i : ℕ} (hi : s.Uses i) : s.Holds i := by
  rcases hi with hi | hi | hi
  · exact .inr (.inr (.inl (h.runs i hi).1))
  · exact .inl hi
  · exact .inr (.inr (.inl (h.registered i hi).1))

/-- Only a start changes: what it owns it has owned before, and it waits for its version alone. -/
theorem Inv.put (h : s.Inv starts) {i : ℕ} {v : Vm}
    (hh : v.phase = .marked ∨ v.phase = .failing ∨ v.listed → s.Holds i)
    (hp : v.phase = .preparing → s.used.get (starts i).version = none ∧
      (∀ j, (s.vms j).phase = .preparing → (starts j).version = (starts i).version → j = i) ∧
      ∀ j ∈ s.discard, j ∉ s.removed → (starts j).version ≠ (starts i).version)
    (hr : v.runs → v.listed ∧ i ∉ s.removed)
    (hy : v.phase = .new ∨ v.phase = .preparing ∨ v.phase = .marked ∨ v.phase = .failing → v.listed = false ∧
      i ∉ s.removed)
    (hre : v.phase = .registered → v.listed ∧ v.stopped = false ∧ i ∉ s.removed)
    (hot : s.sweeping = false → i ∈ s.removed → v.listed = false) : (s.put i v).Inv starts := by
  obtain ⟨ho,hf,ha,hb,hyo,hrg,hn,hou,hd⟩ := h
  simp only [Holds] at ho hh
  constructor <;> simp only [Service.put,Holds,update_apply] <;> grind -linarith

theorem Inv.mark (h : s.Inv starts) {i : ℕ} (hi : (s.vms i).phase = .preparing) :
    Inv starts { s.put i { s.vms i with phase := .marked } with used := s.used.set (starts i).version i } := by
  obtain ⟨ho,hf,ha,hr,hy,hre,hn,hou,hd⟩ := h
  simp only [Holds] at ho
  constructor <;> simp only [Service.put,Holds,update_apply,Dict.get_set] <;> grind -linarith

theorem Inv.erase (h : s.Inv starts) {v : Str} (hv : ∀ i, s.Holds i → (starts i).version ≠ v) :
    Inv starts { s with used := s.used.erase v } := by
  obtain ⟨ho,hf,ha,hr,hy,hre,hn,hou,hd⟩ := h
  constructor <;> simp only [Holds,Dict.get_erase] at * <;> grind -linarith

theorem Inv.stop (h : s.Inv starts) {i : ℕ} (hl : (s.vms i).listed) (hnot : i ∉ s.removed) (hs : s.sweeping)
    (hp : (s.vms i).phase ≠ .registered) {discard : List ℕ} (hd : ∀ j ∈ discard, j ∈ s.discard ∨ j = i) :
    Inv starts { s.put i { s.vms i with stopped := true, runs := false } with
      removed := s.removed ++ [i], discard := discard } := by
  obtain ⟨ho,hf,ha,hr,hy,hre,hn,hou,hdi⟩ := h
  simp only [Holds] at ho
  constructor <;> simp only [Service.put,Holds,update_apply] <;> grind -linarith

theorem Inv.unlist (h : s.Inv starts) {gone : List ℕ} (hg : ∀ i ∈ gone, i ∈ s.removed) :
    (s.unlist gone).Inv starts := by
  obtain ⟨ho,hf,ha,hr,hy,hre,hn,hou,hd⟩ := h
  simp only [Holds] at ho
  constructor <;> simp only [Service.unlist,Holds] <;> grind -linarith

theorem Inv.idle (h : s.Inv starts) : Inv starts { s with sweeping := false, removed := [], discard := [] } := by
  obtain ⟨ho,hf,ha,hr,hy,hre,hn,hou,hd⟩ := h
  simp only [Holds] at ho
  constructor <;> simp only [Holds] <;> grind -linarith

theorem Inv.next (h : s.Inv starts) {i : ℕ} {rest discard : List ℕ} (hr : s.removed = i :: rest)
    (hs : s.sweeping = false) (hd : ∀ j ∈ discard, j ∈ s.discard) :
    Inv starts { s with used := s.used.erase (starts i).version, removed := rest, discard := discard } := by
  obtain ⟨ho,hf,ha,hru,hy,hre,hn,hou,hdi⟩ := h
  simp only [Holds] at ho
  constructor <;> simp only [Holds,Dict.get_erase] <;> grind -linarith

/-- One case for each suspension of a start and for each step of the cleaner. -/
theorem Inv.act (ev : Event) (h : s.Inv starts) (hok : s.Orderly starts ev) : (s.act starts ev).Inv starts := by
  have hy := h.young
  have hru := h.runs
  have hre := h.registered
  have hou := h.out
  cases ev with
  | call i =>
    rw [Service.act]
    split_ifs with hn hus
    · obtain ⟨ha,hd⟩ := hok hus
      refine h.put ?_ ?_ ?_ ?_ ?_ ?_ <;> grind -linarith
    · refine h.put ?_ ?_ ?_ ?_ ?_ ?_ <;> grind -linarith
    · exact h
  | fail i =>
    rw [Service.act]
    split
    · refine h.put ?_ ?_ ?_ ?_ ?_ ?_ <;> grind -linarith
    · refine h.put ?_ ?_ ?_ ?_ ?_ ?_ <;> grind -linarith [Holds]
    · exact absurd (by assumption) hok.1
    · exact absurd (by assumption) hok.2
    · exact h
  | mark i =>
    rw [Service.act]
    split_ifs with hi
    · exact h.mark hi.1
    · exact h
  | register i =>
    rw [Service.act]
    split_ifs with hi
    · refine h.put ?_ ?_ ?_ ?_ ?_ ?_ <;> grind -linarith [Holds]
    · exact h
  | startVm i =>
    rw [Service.act]
    split_ifs with hi hst
    · rw [(hre i hi).2.1] at hst
      cases hst
    · refine h.put ?_ ?_ ?_ ?_ ?_ ?_ <;> grind -linarith [Holds]
    · exact h
  | finish i =>
    rw [Service.act]
    split_ifs with hi
    · refine h.put ?_ ?_ ?_ ?_ ?_ ?_ <;> grind -linarith [Holds]
    · exact h
  | unmark i cleaned =>
    rw [Service.act]
    split_ifs with hi hc
    · have he : (s.put i { s.vms i with phase := .ended }).Inv starts := by
        refine h.put ?_ ?_ ?_ ?_ ?_ ?_ <;> grind -linarith
      refine he.erase fun j hj hv => ?_
      have ho : s.Holds j ∧ j ≠ i := by
        simp only [Holds,Service.put,update_apply] at hj ⊢
        grind -linarith
      exact ho.2 (h.holder ho.1 (.inr (.inl hi.1)) hv)
    · refine h.put ?_ ?_ ?_ ?_ ?_ ?_ <;> grind -linarith
    · exact h
  | ends i =>
    have hf := h.free
    have ha := h.apart
    have hdi := h.discarded
    rw [Service.act]
    refine h.put ?_ ?_ ?_ ?_ ?_ ?_ <;> grind -linarith [Holds]
  | sweep =>
    rw [Service.act]
    split_ifs with hid
    · exact ⟨h.own,h.free,h.apart,h.runs,h.young,h.registered,h.nodup,by simp [hid],h.discarded⟩
    · exact h
  | stop i =>
    rw [Service.act]
    split_ifs with hi hrd
    · exact h.stop hi.2.1 hi.2.2 hi.1 hok (by simp)
    · exact h.stop hi.2.1 hi.2.2 hi.1 hok (by simp +contextual)
    · exact h
  | release =>
    rw [Service.act]
    split_ifs with hs
    · have hu := h.unlist fun i (hi : i ∈ s.removed) => hi
      refine ⟨hu.own,hu.free,hu.apart,hu.runs,hu.young,hu.registered,hu.nodup,fun _ i hi => ?_,hu.discarded⟩
      simpa [Service.unlist] using fun _ => hi
    · exact h
  | abort gone =>
    have hu : (s.unlist (gone.filter (· ∈ s.removed))).Inv starts :=
      h.unlist fun i hi => by simpa using (List.mem_filter.1 hi).2
    rw [Service.act]
    exact hu.idle
  | next =>
    rw [Service.act]
    split
    · rename_i i rest hr
      split_ifs with hs hl
      · exact h
      · exact h.next hr (by simpa using hs) (by simp)
      · exact h.next hr (by simpa using hs) (by simp)
    · exact h

theorem Inv.exclusive (h : s.Inv starts) : s.Exclusive starts where
  alone i j hi hj hv := h.holder (h.holds_of_uses (.inl hi)) (h.holds_of_uses (.inl hj)) hv
  marked i hi := by simp [h.own i (h.holds_of_uses (.inl hi))]
  failed i j cleaned hi hj hu := by
    have hne : (starts j).version ≠ (starts i).version :=
      fun hv => hj (h.holder (h.holds_of_uses hu) (.inr (.inl hi)) hv)
    rw [Service.act]
    split_ifs <;> simp [Dict.get_erase,hne]
  kept i hi j hj hv := by
    unfold discards at hi
    split_ifs at hi with hl
    · rcases h.discarded i hi, hj with ⟨hr | ⟨hnone,hf⟩,hu | hp⟩
      · have heq := h.holder (h.holds_of_uses hu) (.inr (.inr (.inr hr))) hv
        subst heq
        have hru := h.runs j
        have hy := h.young j
        have hre := h.registered j
        rcases hu with hu | hu | hu
        · exact (hru hu).2 hr
        · exact (hy (.inr (.inr (.inl hu)))).2 hr
        · exact (hre hu).2.2 hr
      · have ho := h.own i (.inr (.inr (.inr hr)))
        rw [← hv,h.free j hp] at ho
        cases ho
      · have ho := h.own j (h.holds_of_uses hu)
        rw [hv,hnone] at ho
        cases ho
      · exact hf j hp hv
    · cases hi

end Service

open Service

/-- A VM version is run by one VM in every orderly run. -/
theorem exclusive_of_orderly (starts : ℕ → Start) (evs : List Event)
    (h : Along (act starts) (Orderly starts) Service.start evs) :
    (evs.foldl (act starts) Service.start).Exclusive starts :=
  (h.keeps (fun _ ev hs hok => hs.act ev hok) inv_start).exclusive

def snapshot : ℕ → Start := fun _ => ⟨"debian.snap.1",true⟩
def failedStart : List Event := [.call 0,.mark 0,.fail 0,.unmark 0 true]
def stoppedVm : List Event :=
  failedStart ++ [.call 1,.mark 1,.register 1,.startVm 1,.finish 1,.call 2,.ends 1,.sweep,.stop 1,.release,.next]

theorem failedStart_idle (j : ℕ) : ((failedStart.foldl (act snapshot) Service.start).vms j).phase ≠ .preparing := by
  rcases j with _ | j <;> nofun

theorem stoppedVm_idle (j : ℕ) : ((stoppedVm.foldl (act snapshot) Service.start).vms j).phase ≠ .preparing := by
  rcases j with _ | _ | _ | j <;> nofun

/-- After a failed start and a VM that was stopped, the files of its snapshot are discarded; then
it is started again. -/
theorem startAgain_exclusive : Along (act snapshot) (Orderly snapshot) Service.start (stoppedVm ++ [.call 3]) ∧
    ((stoppedVm ++ [Event.call 3]).foldl (act snapshot) Service.start).Exclusive snapshot := by
  have hfirst : Orderly snapshot Service.start (.call 0) := fun _ => ⟨by simp [Service.start],by simp [Service.start]⟩
  have h : Along (act snapshot) (Orderly snapshot) Service.start (stoppedVm ++ [.call 3]) :=
    ⟨hfirst,trivial,⟨by decide,by decide⟩,trivial,fun _ => ⟨fun j hj => absurd hj (failedStart_idle j),nofun⟩,
      trivial,trivial,trivial,trivial,fun hf => absurd hf (by decide),trivial,trivial,(by decide : _ ≠ _),
        trivial,trivial,
      fun _ => ⟨fun j hj => absurd hj (stoppedVm_idle j),nofun⟩,trivial⟩
  exact ⟨h,exclusive_of_orderly _ _ h⟩

/-- Both starts find the version free while they wait for the infrastructure. -/
theorem overlapping_run_twice :
    ¬ ([.call 0,.call 1,.mark 0,.register 0,.startVm 0,.mark 1,.register 1,
      .startVm 1].foldl (act snapshot) Service.start).Exclusive
      snapshot := by
  intro h
  have hb := h.alone 0 1 (by decide) (by decide) rfl
  cases hb

end Padsi.User.Versions
