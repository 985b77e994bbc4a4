import Mathlib

/-! # Transactions with savepoints

One connection, as SQLite documents it. The same name may be on the stack several times:
the latest one is meant.
-/
namespace Padsi.Savepoint

variable {ν δ : Type*}

/-- `begun` is for a transaction that was started by `BEGIN`, and not by a savepoint. -/
structure Connection (ν δ : Type*) where
  durable : δ
  content : δ
  active : Bool
  begun : Bool
  savepoints : List (ν × δ)

inductive SqlError where
  | nestedTransaction
  | noTransaction
  | noSavepoint
deriving DecidableEq, Repr

inductive Statement (ν δ : Type*) where
  | begin
  | commit
  | rollback
  | savepoint (name : ν)
  | release (name : ν)
  | rollbackTo (name : ν)
  | write (f : δ → δ)

def latest [DecidableEq ν] (name : ν) : List (ν × δ) → Option (δ × List (ν × δ))
  | [] => none
  | (n,d) :: savepoints => if n = name then some (d,savepoints) else latest name savepoints

namespace Connection

def fresh (d : δ) : Connection ν δ := ⟨d,d,false,false,[]⟩
def commit (c : Connection ν δ) : Connection ν δ := .fresh c.content

variable [DecidableEq ν]

def exec (c : Connection ν δ) : Statement ν δ → Except SqlError (Connection ν δ)
  | .begin => if c.active then .error .nestedTransaction else .ok { c with active := true, begun := true }
  | .commit => if c.active then .ok c.commit else .error .noTransaction
  | .rollback => if c.active then .ok (.fresh c.durable) else .error .noTransaction
  | .savepoint name => .ok { c with active := true, savepoints := (name,c.content) :: c.savepoints }
  | .release name =>
    match latest name c.savepoints with
    | none => .error .noSavepoint
    | some (_,savepoints) =>
      -- the outermost savepoint ends a transaction that it started
      if savepoints.isEmpty && !c.begun then .ok c.commit else .ok { c with savepoints }
  | .rollbackTo name =>
    match latest name c.savepoints with
    | none => .error .noSavepoint
    | some (d,savepoints) => .ok { c with content := d, savepoints := (name,d) :: savepoints }
  | .write f => .ok { c with content := f c.content, durable := if c.active then c.durable else f c.content }

end Connection

section
variable [DecidableEq ν] {name n : ν} {d : δ} {savepoints : List (ν × δ)}

theorem latest_cons_self : latest name ((name,d) :: savepoints) = some (d,savepoints) := if_pos rfl
theorem latest_cons_ne (h : n ≠ name) : latest name ((n,d) :: savepoints) = latest name savepoints := if_neg h

end

end Padsi.Savepoint
