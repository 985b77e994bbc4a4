import Mathlib.Logic.Function.Iterate
import Mathlib.Tactic.SplitIfs

/-! # Moving a version

If a move fails, the file that is moved back is the one whose number is the number of
moves.
-/
namespace Padsi.Vm.Move
open Function

variable {γ : Type}

structure Sides (γ : Type) where
  source : Fin 3 → Option γ
  dest : Fin 3 → Option γ

inductive Exc where
  | owners
  | notComplete
  | identical
  | notDiscarded
  | failed

inductive Step where
  | move (i : Fin 3)
  | chown (i : Fin 3)
  | event

def isComplete (files : Fin 3 → Option γ) : Bool := (files 0).isSome && (files 1).isSome && (files 2).isSome

def checkManipulationsArguments (destUid destGid : Option ℕ) (sameImage : Bool) (s : Sides γ) : Except Exc Unit :=
  if destUid.isSome ≠ destGid.isSome then .error .owners
  else if isComplete s.source = false then .error .notComplete
  else if sameImage then .error .identical
  else if isComplete s.dest then .error .notDiscarded
  else .ok ()

namespace Sides

def forth (s : Sides γ) (i : Fin 3) : Option (Sides γ) :=
  (s.source i).map fun c => ⟨update s.source i none,update s.dest i (some c)⟩

def back (s : Sides γ) (i : Fin 3) : Option (Sides γ) :=
  (s.dest i).map fun c => ⟨update s.source i (some c),update s.dest i none⟩

def attempt (fails : Step → Bool) (owner : Bool) (s : Sides γ) : Fin 3 × Sides γ × Bool :=
  match if fails (.move 0) then none else s.forth 0 with
  | none => (0,s,false)
  | some s₁ =>
    match if fails (.move 1) then none else s₁.forth 1 with
    | none => (1,s₁,false)
    | some s₂ =>
      match if fails (.move 2) then none else s₂.forth 2 with
      | none => (2,s₂,false)
      | some s₃ => (2,s₃,!(owner && (fails (.chown 0) || fails (.chown 1) || fails (.chown 2)) || fails .event))

def undo (index : Fin 3) (s : Sides γ) : Sides γ := (fun s => (s.back index).getD s)^[index] s

def move (fails : Step → Bool) (destUid destGid : Option ℕ) (sameImage : Bool) (s : Sides γ) :
    Sides γ × Except Exc Unit :=
  match checkManipulationsArguments destUid destGid sameImage s with
  | .error e => (s,.error e)
  | .ok _ =>
    match attempt fails destUid.isSome ⟨s.source,fun _ => none⟩ with
    | (_,s',true) => (s',.ok ())
    | (index,s',false) => (s'.undo index,.error .failed)

theorem dest_forth {s s' : Sides γ} {i j : Fin 3} (h : s.forth i = some s') (hj : j ≠ i) : s'.dest j = s.dest j := by
  obtain ⟨c,-,rfl⟩ := Option.map_eq_some_iff.1 h
  exact update_of_ne hj _ _

/-- The other files stay where they are. -/
theorem dest_undo {index j : Fin 3} (hj : j ≠ index) (s : Sides γ) : (s.undo index).dest j = s.dest j := by
  have hs : ∀ s : Sides γ, ((s.back index).getD s).dest j = s.dest j := by
    intro s
    unfold back
    cases s.dest index with
    | none => rfl
    | some c => exact update_of_ne hj _ _
  unfold undo
  induction index.val generalizing s with
  | zero => rfl
  | succ n ih =>
    rw [iterate_succ_apply,ih,hs]

theorem attempt_of_first {fails : Step → Bool} (owner : Bool) {s : Sides γ} {c : γ}
    (h : fails (.move 0) = false) (hc : s.source 0 = some c) :
    (attempt fails owner s).1 ≠ 0 ∧ (attempt fails owner s).2.1.dest 0 = some c := by
  have hfirst : s.forth 0 = some ⟨update s.source 0 none,update s.dest 0 (some c)⟩ := by rw [forth,hc,Option.map_some]
  have h₁ : update s.dest 0 (some c) 0 = some c := by simp
  unfold attempt
  rw [h,hfirst]
  simp only [Bool.false_eq_true,if_false]
  split
  · exact ⟨by simp,h₁⟩
  · rename_i s₂ hs₂
    split_ifs at hs₂
    have h₂ := (dest_forth hs₂ (by decide : (0 : Fin 3) ≠ 1)).trans h₁
    split
    · exact ⟨by simp,h₂⟩
    · rename_i s₃ hs₃
      split_ifs at hs₃
      exact ⟨by simp,(dest_forth hs₃ (by decide : (0 : Fin 3) ≠ 2)).trans h₂⟩

/-- What was moved before the failure is moved back, if and only if nothing was. -/
theorem move_undone_iff {fails : Step → Bool} {destUid destGid : Option ℕ} {sameImage : Bool} {s : Sides γ}
    (hcheck : checkManipulationsArguments destUid destGid sameImage s = .ok ())
    (hraise : (s.move fails destUid destGid sameImage).2 ≠ .ok ()) :
    (s.move fails destUid destGid sameImage).1 = ⟨s.source,fun _ => none⟩ ↔ fails (.move 0) = true := by
  obtain ⟨c,hc⟩ : ∃ c, s.source 0 = some c := by
    unfold checkManipulationsArguments at hcheck
    split_ifs at hcheck with _ hs
    simp only [isComplete,Bool.not_eq_false,Bool.and_eq_true] at hs
    exact Option.isSome_iff_exists.1 hs.1.1
  unfold move at hraise ⊢
  rw [hcheck] at hraise ⊢
  simp only at hraise ⊢
  cases hf : fails (.move 0) with
  | true => simp [attempt,hf,undo]
  | false =>
    obtain ⟨hi,hd⟩ := attempt_of_first destUid.isSome (s := ⟨s.source,fun _ => none⟩) hf hc
    refine iff_of_false (fun h => ?_) Bool.false_ne_true
    split at hraise
    · exact hraise rfl
    · rename_i index s' he
      rw [he] at hi hd h
      have hnone : (s'.undo index).dest 0 = none := congrArg (fun x : Sides γ => x.dest 0) h
      cases (dest_undo hi.symm s').symm.trans hnone |>.symm.trans hd

def ready : Sides ℕ := ⟨fun i => some i,fun _ => none⟩

theorem ready_undone : checkManipulationsArguments none none false ready = .ok () ∧
    (ready.move (fun _ => true) none none false).1 = ⟨ready.source,fun _ => none⟩ :=
  ⟨rfl,(move_undone_iff rfl fun h => by cases h).2 rfl⟩

def eventFails : Step → Bool
  | .event => true
  | _ => false

def afterEvent : Sides ℕ × Except Exc Unit := ready.move eventFails none none false

/-- Only the information file is moved back. -/
theorem image_left_behind :
    afterEvent.2 = .error .failed ∧ (∀ i, afterEvent.1.source i = if i = 2 then some 2 else none) ∧
    ∀ i, afterEvent.1.dest i = if i = 2 then none else some i.val :=
  ⟨rfl,by decide,by decide⟩

end Sides

end Padsi.Vm.Move
