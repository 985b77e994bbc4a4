import Padsi.Proc.Table

/-! # Bubbles that end with their last process

The reaper shuts a bubble down when a required process ends, and never because of the
property `auto-stop`.
-/
namespace Padsi.Proc
open Runs

structure Bubble where
  state : State
  autoStop : Bool

inductive Action where
  | putProperty (autoStop : Bool)
  | event (ev : Event)

namespace Bubble

def start : Bubble := ⟨.start,false⟩

def step (known : ℕ → Bool) (b : Bubble) : Action → Bubble
  | .putProperty autoStop => if b.state.down ∨ b.state.posting.isSome then b else { b with autoStop }
  | .event ev => { b with state := b.state.step known ev }

def Ends (b : Bubble) (a : Action) (p : Process) : Prop :=
  a = .event .reap ∧ b.state.down = false ∧ b.state.posting = none ∧ ∃ r, b.state.reaping = some r ∧
    b.state.procs.get r.pid = some p

/-- No other entry is one of a running process, and none is about to be restarted. -/
def Last (b : Bubble) (p : Process) : Prop :=
  p.spec.mayRestart = false ∧ b.state.restarts = [] ∧ ∀ e ∈ b.state.procs.entries, e.2.birth ≠ p.birth →
    e.2.state ≠ .running

def StopsWithLast (known : ℕ → Bool) (b : Bubble) (a : Action) : Prop := ∀ p, b.Ends a p →
  (b.autoStop = true → b.Last p → (b.step known a).state.down = true) ∧
    (b.autoStop = false → p.spec.required = false → (b.step known a).state.down = false)

variable {known : ℕ → Bool}

theorem down_step {b : Bubble} {a : Action} {p : Process} (h : b.Ends a p) :
    (b.step known a).state.down = p.spec.required := by
  obtain ⟨rfl,hd,hp,r,hr,hg⟩ := h
  have hs : (b.step known (.event .reap)).state = b.state.reapWith r := by
    simp [step,State.step,State.act,hd,hp,hr]
  rw [hs,State.reapWith]
  simp only [hg,State.record]
  cases hq : p.spec.required with
  | true => rfl
  | false =>
    rw [if_neg Bool.false_ne_true,State.mayRestartProcess]
    split_ifs
    · exact hd
    · exact hd

/-- Each process that ends last while `auto-stop` is set must be a required one. -/
theorem stops_with_last_iff (known : ℕ → Bool) (as : List Action) : Along (step known) (StopsWithLast known) start as ↔
    Along (step known) (fun b a => ∀ p, b.Ends a p → b.autoStop = true → b.Last p →
      p.spec.required = true) start as := by
  refine along_congr fun b a => forall₂_congr fun p hp => ?_
  rw [down_step hp]
  exact and_iff_left fun _ hq => hq

def oneProcess : List Action :=
  [.putProperty true,.event (.lock false false false),.event (.spawn 7),.event (.started 0),
    .event (.exit 7 (.code 0)),.event (.wait 7),.event .reap]

theorem ends_without_stop : ¬Along (step fun _ => true) (StopsWithLast fun _ => true) start oneProcess := by
  rintro ⟨-,-,-,-,-,-,h,-⟩
  have hs := (h ⟨⟨false,false,[0]⟩,0,7,.running,0⟩ ⟨rfl,rfl,rfl,⟨7,0,.code 0⟩,rfl,rfl⟩).1 rfl ⟨rfl,rfl,by decide⟩
  cases hs

end Bubble

end Padsi.Proc
