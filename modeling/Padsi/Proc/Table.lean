import Mathlib.Logic.Function.Basic
import Padsi.Lib.Runs
import Padsi.Lib.Store

/-! # The process table of a bubble

The table of init (`crates/init`) is under a lock, but a child is reaped, and started
again, before the lock is taken. The steps are the parts of the tasks between two waits;
any process may end at any time, and a PID is free once its process was reaped.
-/
namespace Padsi.Proc
open Python Function

def restartEventsCount : ℕ := 5
def restartMinDelay : UInt64 := 10

structure ProcessSpec where
  required : Bool
  restart : Bool
  restartEvents : List UInt64
deriving DecidableEq, Repr

namespace ProcessSpec

def mayRestart (spec : ProcessSpec) : Bool :=
  match spec.restart with
  | false => false
  | true =>
    if spec.restartEvents.length = restartEventsCount ∧
        spec.restartEvents.getD (restartEventsCount - 1) 0 - spec.restartEvents.getD 0 0 < restartMinDelay then false
    else true

def started (spec : ProcessSpec) (now : UInt64) : ProcessSpec :=
  let events := if restartEventsCount ≤ spec.restartEvents.length then spec.restartEvents.tail else spec.restartEvents
  { spec with restartEvents := events ++ [now] }

end ProcessSpec

inductive ProcessState where
  | running
  | exited (code : ℤ)
  | killed (signal : ℕ)
deriving DecidableEq, Repr

/-- `birth` is not a field of the program: it names the process that was started for the entry. -/
structure Process where
  spec : ProcessSpec
  startedAt : UInt64
  pid : ℕ
  state : ProcessState
  birth : ℕ
deriving DecidableEq, Repr

inductive Exit where
  | code (n : ℤ)
  | signal (n : ℕ)
deriving DecidableEq, Repr

def Exit.state : Exit → ProcessState
  | .code n => .exited n
  | .signal n => .killed n

def Exit.heard (known : ℕ → Bool) : Exit → Bool
  | .code _ => true
  | .signal n => known n

theorem Exit.state_ne_running (e : Exit) : e.state ≠ .running := by
  cases e <;> simp [Exit.state]

/-- `ours` are those that init has started. -/
structure Task where
  birth : ℕ
  exit : Option Exit
  ours : Bool
deriving DecidableEq, Repr

structure Child where
  pid : ℕ
  birth : ℕ
deriving DecidableEq, Repr

structure Posting where
  spec : ProcessSpec
  ignoreStatus : Bool
  child : Option Child
deriving DecidableEq, Repr

structure Restart where
  spec : ProcessSpec
  currentPid : ℕ
  child : Option Child
deriving DecidableEq, Repr

structure Reaped where
  pid : ℕ
  birth : ℕ
  exit : Exit
deriving DecidableEq, Repr

/-- A call of `kill` for the entry of the process `entry`, and the process its PID
stands for then. -/
structure Kill where
  entry : ℕ
  target : Option ℕ
deriving DecidableEq, Repr

structure State where
  tasks : ℕ → Option Task
  births : ℕ
  procs : Dict ℕ Process
  posting : Option Posting
  reaping : Option Reaped
  restarts : List Restart
  down : Bool
  /-- The processes that were put in the table. -/
  managed : List ℕ
  /-- The exits the reaper is done with. -/
  consumed : List (ℕ × Exit)
  /-- The states that the reaper has written, each with the process of the entry. -/
  recorded : List (ℕ × ProcessState)
  kills : List Kill

def State.start : State := ⟨fun _ => none,0,.empty,none,none,[],false,[],[],[],[]⟩

/-- Steps of the requests (`POST`: `lock` to `started`), of the kernel, of the reaper and of the restarts. -/
inductive Event where
  | lock (required restart ignoreStatus : Bool)
  | spawn (pid : ℕ)
  | startFails
  | started (now : UInt64)
  | fork (pid : ℕ)
  | exit (pid : ℕ) (e : Exit)
  | vanish (pid : ℕ)
  | wait (pid : ℕ)
  | reap
  | respawn (i pid : ℕ)
  | restartFails (i : ℕ)
  | restarted (i : ℕ) (now : UInt64)
  | getStatus (pid : ℕ)
  | signal (pid : ℕ)
deriving DecidableEq, Repr

namespace State

def birthAt (s : State) (pid : ℕ) (ours : Bool) : State :=
  { s with tasks := update s.tasks pid (some ⟨s.births,none,ours⟩), births := s.births + 1 }
def insert (s : State) (spec : ProcessSpec) (c : Child) (now : UInt64) : State :=
  { s with procs := s.procs.set c.pid ⟨spec.started now,now,c.pid,.running,c.birth⟩, managed := s.managed ++ [c.birth] }
def killOf (s : State) (p : Process) : Kill := ⟨p.birth,(s.tasks p.pid).map Task.birth⟩
def shutdown (s : State) : State :=
  { s with kills := s.kills ++ s.procs.entries.map fun e => s.killOf e.2, down := true }
def mayRestartProcess (s : State) (p : Process) : State :=
  if p.spec.mayRestart then { s with restarts := s.restarts ++ [⟨p.spec,p.pid,none⟩] } else s

def record (s : State) (e : Exit) (p : Process) : State :=
  let s := { s with
    procs := s.procs.set p.pid { p with state := e.state }
    recorded := s.recorded ++ [(p.birth,e.state)] }
  if p.spec.required then s.shutdown else s.mayRestartProcess p

def reapWith (s : State) (r : Reaped) : State :=
  let s := { s with reaping := none, consumed := s.consumed ++ [(r.birth,r.exit)] }
  match s.procs.get r.pid with
  | none => s
  | some p => s.record r.exit p

section
variable (known : ℕ → Bool)

/-- `waitpid` of a zombie. When the crate has no name for the signal, the status is lost. -/
def waitFor (s : State) (pid : ℕ) (t : Task) (e : Exit) : State :=
  let s := { s with tasks := update s.tasks pid none }
  if e.heard known then { s with reaping := some ⟨pid,t.birth,e⟩ }
    else { s with consumed := s.consumed ++ [(t.birth,e)] }

def act (s : State) : Event → State
  | .lock required restart ignoreStatus =>
    match s.posting with
    | some _ => s
    | none => { s with posting := some ⟨⟨required,restart,[]⟩,ignoreStatus,none⟩ }
  | .spawn pid =>
    match s.posting, s.tasks pid with
    | some ⟨spec,ignoreStatus,none⟩, none =>
      { s.birthAt pid true with posting := some ⟨spec,ignoreStatus,some ⟨pid,s.births⟩⟩ }
    | _, _ => s
  | .startFails => { s with posting := none }
  | .started now =>
    match s.posting with
    | some ⟨spec,false,some c⟩ => { s.insert spec c now with posting := none }
    | some ⟨_,true,some _⟩ => { s with posting := none }
    | _ => s
  | .fork pid =>
    match s.tasks pid with
    | none => s.birthAt pid false
    | some _ => s
  | .exit pid e =>
    match s.tasks pid with
    | some ⟨birth,none,ours⟩ => { s with tasks := update s.tasks pid (some ⟨birth,some e,ours⟩) }
    | _ => s
  | .vanish pid =>
    -- the zombie of a process that init has not started, reaped by its own parent
    match s.tasks pid with
    | some ⟨_,some _,false⟩ => { s with tasks := update s.tasks pid none }
    | _ => s
  | .wait pid =>
    match s.reaping, s.tasks pid with
    | none, some ⟨birth,some e,ours⟩ => s.waitFor known pid ⟨birth,some e,ours⟩ e
    | _, _ => s
  | .reap =>
    match s.posting, s.reaping with
    | none, some r => s.reapWith r
    | _, _ => s
  | .respawn i pid =>
    match s.restarts[i]?, s.tasks pid with
    | some ⟨spec,currentPid,none⟩, none =>
      { s.birthAt pid true with restarts := s.restarts.set i ⟨spec,currentPid,some ⟨pid,s.births⟩⟩ }
    | _, _ => s
  | .restartFails i => { s with restarts := s.restarts.eraseIdx i }
  | .restarted i now =>
    match s.posting, s.restarts[i]? with
    | none, some ⟨spec,currentPid,some c⟩ =>
      { { s with procs := s.procs.erase currentPid }.insert spec c now with restarts := s.restarts.eraseIdx i }
    | _, _ => s
  | .getStatus pid =>
    match s.posting, s.procs.get pid with
    | none, some p =>
      match p.state with
      | .running => s
      | _ => { s with procs := s.procs.erase pid }
    | _, _ => s
  | .signal pid =>
    match s.posting, s.procs.get pid with
    | none, some p => { s with kills := s.kills ++ [s.killOf p] }
    | _, _ => s

def step (s : State) (ev : Event) : State := if s.down then s else s.act known ev
def run (s : State) (evs : List Event) : State := evs.foldl (step known) s

variable {known} {p : State → Prop} {s : State} {ev : Event}

theorem step_keeps (ha : p s → p (s.act known ev)) (hs : p s) : p (s.step known ev) := by
  unfold step
  split
  · exact hs
  · exact ha hs

end

end State

end Padsi.Proc
