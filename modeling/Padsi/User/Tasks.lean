import Mathlib.Logic.Function.Basic
import Padsi.Lib.Runs
import Padsi.Lib.Store
import Padsi.Lib.Text

/-! # Exclusive tasks of the user service

The handler of a request that was refused marks the task as finished like all the
others. So does an asyncio task whose handler has failed after creating it.
-/
namespace Padsi.User.Tasks
open Python Text Runs Function Dict

/-- `reads` if the handler reads the VM version once the asyncio task is created. -/
structure Request where
  taskId : Str
  ensureUnique : Bool
  reads : Bool

inductive Phase where
  | new
  | waiting
  | started
  | released
  | refused
  | ended
deriving DecidableEq

structure Service where
  running : Dict Str ℕ
  phase : ℕ → Phase

def Service.start : Service := ⟨.empty,fun _ => .new⟩

/-- A request starts, tries again, or calls `_mark_task_finished`: at its end, when it was refused,
or also when its handler fails after creating the asyncio task. -/
inductive Event where
  | call (i : ℕ)
  | poll (i : ℕ)
  | finish (i : ℕ)
  | release (i : ℕ)

namespace Service
variable (requests : ℕ → Request)

def enter (s : Service) (i : ℕ) (otherwise : Phase) : Service :=
  match s.running.get (requests i).taskId with
  | none => ⟨s.running.set (requests i).taskId i,update s.phase i .started⟩
  | some _ => { s with phase := update s.phase i otherwise }

def markTaskFinished (s : Service) (i : ℕ) (phase : Phase) : Service :=
  ⟨s.running.erase (requests i).taskId,update s.phase i phase⟩

def act (s : Service) : Event → Service
  | .call i =>
    match s.phase i with
    | .new => s.enter requests i (if (requests i).ensureUnique then .refused else .waiting)
    | _ => s
  | .poll i =>
    match s.phase i with
    | .waiting => s.enter requests i .waiting
    | _ => s
  | .finish i =>
    match s.phase i with
    | .started | .released | .refused => s.markTaskFinished requests i .ended
    | _ => s
  | .release i =>
    match s.phase i with
    | .started => if (requests i).reads then s.markTaskFinished requests i .released else s
    | _ => s

/-- The request has started, and its work has not ended. -/
def Running (s : Service) (i : ℕ) : Prop := s.phase i = .started ∨ s.phase i = .released

/-- At most one request for an identifier runs, its entry is in the table, and the next one can start. -/
structure Exclusive (s : Service) : Prop where
  alone : ∀ i j, s.Running i → s.Running j → (requests i).taskId = (requests j).taskId → i = j
  registered : ∀ i, s.Running i → s.running.get (requests i).taskId = some i
  next : ∀ i j, s.Running i → s.phase j = .waiting → (requests i).taskId = (requests j).taskId →
    ((s.act requests (.finish i)).act requests (.poll j)).phase j = .started

/-- No request is refused, and no handler fails once its asyncio task is created. -/
def Unbroken (s : Service) : Event → Prop
  | .call i => (requests i).ensureUnique = true → s.running.get (requests i).taskId = none
  | .release i => (requests i).reads = true → s.phase i ≠ .started
  | _ => True

structure Inv (s : Service) : Prop where
  holder : ∀ id i, s.running.get id = some i ↔ (requests i).taskId = id ∧ s.phase i = .started
  accepted : ∀ i, s.phase i ≠ .refused ∧ s.phase i ≠ .released

variable {requests} {s : Service}

theorem inv_start : start.Inv requests where
  holder id i := by simp [start,get_empty]
  accepted i := by simp [start]

/-- A request is entered if its identifier is free; otherwise it waits or is refused. -/
theorem Inv.enter (h : s.Inv requests) {i : ℕ} (hi : s.phase i ≠ .started) {otherwise : Phase}
    (ho : otherwise ≠ .started ∧ otherwise ≠ .released)
    (hre : otherwise = .refused → s.running.get (requests i).taskId = none) :
    (s.enter requests i otherwise).Inv requests := by
  unfold Service.enter
  cases hg : s.running.get (requests i).taskId with
  | none =>
    refine ⟨fun id j => ?_,fun j => ?_⟩
    · have hb := h.holder id j
      by_cases hj : j = i
      · subst hj
        by_cases hid : id = (requests j).taskId
        · simp [get_set,hid]
        · simp [get_set,hid,Ne.symm hid,hb]
      · by_cases hid : id = (requests i).taskId
        · subst hid
          have hnone : ¬ ((requests j).taskId = (requests i).taskId ∧ s.phase j = .started) := by
            rw [← hb,hg]
            simp
          simp only [get_set,if_true,Option.some.injEq,update_of_ne hj]
          exact iff_of_false (Ne.symm hj) hnone
        · simp only [get_set,if_neg hid,update_of_ne hj]
          exact hb
    · have hb := h.accepted j
      by_cases hj : j = i
      · simp [hj]
      · simpa only [update_of_ne hj] using hb
  | some k =>
    refine ⟨fun id j => ?_,fun j => ?_⟩
    · have hb := h.holder id j
      by_cases hj : j = i
      · subst hj
        simp [hb,hi,ho.1]
      · simpa only [update_of_ne hj] using hb
    · have hb := h.accepted j
      by_cases hj : j = i
      · subst hj
        simp only [update_self]
        refine ⟨fun hr => ?_,ho.2⟩
        rw [hre hr] at hg
        cases hg
      · simpa only [update_of_ne hj] using hb

theorem Inv.finish (h : s.Inv requests) {i : ℕ} (hi : s.phase i = .started) :
    (s.markTaskFinished requests i .ended).Inv requests := by
  have ho := (h.holder _ i).2 ⟨rfl,hi⟩
  refine ⟨fun id j => ?_,fun j => ?_⟩
  · have hb := h.holder id j
    simp only [markTaskFinished,get_erase]
    by_cases hj : j = i
    · subst hj
      by_cases hid : id = (requests j).taskId
      · simp [hid]
      · simp [hid,hb,Ne.symm hid]
    · rw [update_of_ne hj]
      split_ifs with hid
      · subst hid
        refine iff_of_false (by simp) fun hj' => hj ?_
        rw [ho] at hb
        exact (Option.some.inj (hb.2 hj')).symm
      · exact hb
  · have hb := h.accepted j
    by_cases hj : j = i
    · simp [markTaskFinished,hj]
    · simpa only [markTaskFinished,update_of_ne hj] using hb

/-- Only the start of a request and its end change the table. -/
theorem Inv.act (ev : Event) (h : s.Inv requests) (hok : s.Unbroken requests ev) :
    (s.act requests ev).Inv requests := by
  cases ev with
  | call i =>
    rw [Service.act]
    split
    · rename_i hn
      refine h.enter (by simp [hn]) (by split_ifs <;> simp) fun hr => ?_
      split_ifs at hr with hu
      exact hok hu
    · exact h
  | poll i =>
    rw [Service.act]
    split
    · rename_i hw
      exact h.enter (by simp [hw]) (by simp) (by simp)
    · exact h
  | finish i =>
    rw [Service.act]
    split
    · rename_i hs
      exact h.finish hs
    · rename_i hre
      exact absurd hre (h.accepted i).2
    · rename_i hre
      exact absurd hre (h.accepted i).1
    · exact h
  | release i =>
    rw [Service.act]
    split
    · rename_i hs
      split_ifs with hr
      · exact absurd hs (hok hr)
      · exact h
    · exact h

theorem Inv.started_of_running (h : s.Inv requests) {i : ℕ} (hi : s.Running i) : s.phase i = .started :=
  hi.resolve_right (h.accepted i).2

theorem Inv.exclusive (h : s.Inv requests) : s.Exclusive requests where
  alone i j hi hj hid := by
    have how := (h.holder _ i).2 ⟨rfl,h.started_of_running hi⟩
    have ho := (h.holder _ j).2 ⟨rfl,h.started_of_running hj⟩
    rw [← hid,how] at ho
    exact Option.some.inj ho
  registered i hi := (h.holder _ i).2 ⟨rfl,h.started_of_running hi⟩
  next i j hru hj hid := by
    have hi := h.started_of_running hru
    have hne : j ≠ i := by
      rintro rfl
      rw [hi] at hj
      cases hj
    have hf : s.act requests (.finish i) = s.markTaskFinished requests i .ended := by simp only [Service.act,hi]
    have hp : (s.markTaskFinished requests i .ended).phase j = .waiting := by
      simp only [markTaskFinished,update_of_ne hne,hj]
    have hfr : (s.markTaskFinished requests i .ended).running.get (requests j).taskId = none := by
      rw [← hid]
      simp [markTaskFinished,get_erase]
    rw [hf]
    simp only [Service.act,hp,Service.enter,hfr,update_self]

end Service

open Service

/-- Tasks are exclusive in every run in which no request is refused and no handler fails after creating its
asyncio task. -/
theorem exclusive_of_unbroken (requests : ℕ → Request) (evs : List Event)
    (h : Along (act requests) (Unbroken requests) Service.start evs) :
    (evs.foldl (act requests) Service.start).Exclusive requests :=
  (h.keeps (fun _ ev hs hok => hs.act ev hok) inv_start).exclusive

def imports : ℕ → Request := fun _ => ⟨"vm_post:debian:import",true,false⟩
def installs : ℕ → Request := fun _ => ⟨"vm_post:debian:install",true,true⟩

def mixed (i : ℕ) : Request := if i < 3 then ⟨"zone infra:office",false,false⟩ else installs i
def mixedCalls : List Event :=
  [.call 0,.call 1,.call 3,.call 2,.poll 2,.finish 3,.finish 0,.poll 1,.call 4,.poll 2]

/-- The second installation is accepted after the first one; one of the starts that wait is next. -/
theorem mixedCalls_exclusive : Along (act mixed) (Unbroken mixed) Service.start mixedCalls ∧
    (mixedCalls.foldl (act mixed) Service.start).Exclusive mixed ∧
    (mixedCalls.foldl (act mixed) Service.start).phase 1 = .started ∧
    (mixedCalls.foldl (act mixed) Service.start).phase 4 = .started := by
  have h : Along (act mixed) (Unbroken mixed) Service.start mixedCalls :=
    ⟨fun _ => rfl,nofun,fun _ => rfl,nofun,trivial,trivial,trivial,trivial,fun _ => rfl,trivial,trivial⟩
  exact ⟨h,exclusive_of_unbroken _ _ h,by decide,by decide⟩

/-- The second import is refused while the first one runs, and the third one starts. So it does
after an installation whose handler fails while its asyncio task runs. -/
theorem refused_ends_exclusivity :
    ¬ ([.call 0,.call 1,.finish 1,.call 2].foldl (act imports) Service.start).Exclusive imports ∧
      ¬ ([.call 0,.release 0,.call 1,.finish 0,.call 2].foldl (act installs) Service.start).Exclusive installs := by
  refine ⟨fun h => ?_,fun h => ?_⟩
  · have hb := h.alone 0 2 (.inl (by decide)) (.inl (by decide)) rfl
    cases hb
  · have hb := h.alone 1 2 (.inl (by decide)) (.inl (by decide)) rfl
    cases hb

end Padsi.User.Tasks
