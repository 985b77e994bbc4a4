import Padsi.Lib.Savepoint
import Padsi.Lib.Python

/-! # Nested transactions of the information files

A savepoint that was rolled back stays on the stack of SQLite, so that several may have
the same name.
-/
namespace Padsi.Vm
open Savepoint Python Text List

variable {δ : Type}

structure Sqlite3DB (δ : Type) where
  conn : Connection Str δ
  roMode : Bool
  transactionLevel : ℕ
  transactionCursor : Bool

inductive DbExc where
  | readOnly
  | noCommit
  | noRollback
  | sql (e : SqlError)
deriving DecidableEq, Repr

def savepointName (level : ℕ) : Str := "svp" ++ Nat.toDigits 10 level

namespace Sqlite3DB

def connect (roMode : Bool) (content : δ) : Sqlite3DB δ := ⟨.fresh content,roMode,0,false⟩

def cursorExecute (db : Sqlite3DB δ) (statement : Statement Str δ) : Except DbExc (Connection Str δ) :=
  match db.conn.exec statement with
  | .error e => .error (.sql e)
  | .ok conn => .ok conn

def transactionBegin (db : Sqlite3DB δ) : Except DbExc (Sqlite3DB δ) := do
  if db.transactionLevel = 0 then
    let conn ← db.cursorExecute .begin
    return { db with conn, transactionCursor := true, transactionLevel := 1 }
  else
    let conn ← db.cursorExecute (.savepoint (savepointName (db.transactionLevel + 1)))
    return { db with conn, transactionLevel := db.transactionLevel + 1 }

def transactionCommit (db : Sqlite3DB δ) : Except DbExc (Sqlite3DB δ) := do
  if db.roMode then throw .readOnly
  if !db.transactionCursor then throw .noCommit
  if db.transactionLevel = 1 then
    let conn ← db.cursorExecute .commit
    return { db with conn, transactionCursor := false, transactionLevel := 0 }
  else
    let conn ← db.cursorExecute (.release (savepointName db.transactionLevel))
    return { db with conn, transactionLevel := db.transactionLevel - 1 }

def transactionRollback (db : Sqlite3DB δ) : Except DbExc (Sqlite3DB δ) := do
  if !db.transactionCursor then throw .noRollback
  if db.transactionLevel = 1 then
    -- an error of SQLite is only logged
    let conn := (db.conn.exec .rollback).toOption.getD db.conn
    return { db with conn, transactionCursor := false, transactionLevel := 0 }
  else
    let conn ← db.cursorExecute (.rollbackTo (savepointName db.transactionLevel))
    return { db with conn, transactionLevel := db.transactionLevel - 1 }

def execute (db : Sqlite3DB δ) (f : δ → δ) : Except DbExc (Sqlite3DB δ) := do
  if db.roMode then throw .readOnly
  let conn ← db.cursorExecute (.write f)
  return { db with conn }

end Sqlite3DB

inductive Op (δ : Type) where
  | begin
  | commit
  | rollback
  | write (f : δ → δ)

def Sqlite3DB.step (db : Sqlite3DB δ) : Op δ → Except DbExc (Sqlite3DB δ)
  | .begin => db.transactionBegin
  | .commit => db.transactionCommit
  | .rollback => db.transactionRollback
  | .write f => db.execute f

def Sqlite3DB.run (db : Sqlite3DB δ) : List (Op δ) → Except DbExc (Sqlite3DB δ)
  | [] => .ok db
  | op :: ops => do (← db.step op).run ops

def WellNested : ℕ → List (Op δ) → Prop
  | _, [] => True
  | depth, .begin :: ops => WellNested (depth + 1) ops
  | depth, .commit :: ops => 0 < depth ∧ WellNested (depth - 1) ops
  | depth, .rollback :: ops => 0 < depth ∧ WellNested (depth - 1) ops
  | depth, .write _ :: ops => WellNested depth ops

structure Copies (δ : Type) where
  content : δ
  copies : List δ

namespace Copies

def step (r : Copies δ) : Op δ → Copies δ
  | .begin => { r with copies := r.content :: r.copies }
  | .commit => { r with copies := r.copies.tail }
  | .rollback => ⟨r.copies.head?.getD r.content,r.copies.tail⟩
  | .write f => { r with content := f r.content }

def run (r : Copies δ) (ops : List (Op δ)) : Copies δ := ops.foldl step r

/-- What outlives the process: the copy of the outermost transaction, or everything if none is open. -/
def durable (r : Copies δ) : δ := r.copies.getLast?.getD r.content

end Copies

theorem savepointName_injective : Function.Injective savepointName := by
  intro a b h
  have hd : Nat.toDigits 10 a = Nat.toDigits 10 b := append_cancel_left h
  have ha := parseUnsigned_toDigits (le_max_left a b)
  rw [hd,parseUnsigned_toDigits (le_max_right a b)] at ha
  exact (Except.ok.inj ha).symm

inductive Nested : List (Str × δ) → List δ → Prop
  | none : Nested [] []
  | outer (d : δ) : Nested [] [d]
  | stale {savepoints : List (Str × δ)} {copies : List δ} {j : ℕ} (hopen : copies ≠ []) (hj : copies.length < j) (d : δ)
      (h : Nested savepoints copies) : Nested ((savepointName j,d) :: savepoints) copies
  | live {savepoints : List (Str × δ)} {copies : List δ} (hopen : copies ≠ []) (d : δ) (h : Nested savepoints copies) :
      Nested ((savepointName (copies.length + 1),d) :: savepoints) (d :: copies)

section
variable {savepoints : List (Str × δ)} {copies : List δ} {d : δ}

theorem Nested.eq_nil (h : Nested savepoints ([] : List δ)) : savepoints = [] := by
  cases h with
  | none => rfl
  | stale hopen => exact absurd rfl hopen

/-- The latest savepoint with the name of the innermost transaction is the one that this transaction made. -/
theorem Nested.latest (h : Nested savepoints (d :: copies)) (hopen : copies ≠ []) :
    ∃ rest, latest (savepointName (copies.length + 1)) savepoints = some (d,rest) ∧ Nested rest copies := by
  generalize hc : d :: copies = all at h
  induction h with
  | none => cases hc
  | outer =>
    cases hc
    exact absurd rfl hopen
  | stale _ hj _ _ ih =>
    obtain ⟨rest,hl,hrest⟩ := ih hc
    refine ⟨rest,?_,hrest⟩
    rw [latest_cons_ne fun heq => ?_, hl]
    have hln := congrArg length hc
    have hle := savepointName_injective heq
    rw [length_cons] at hln
    omega
  | live _ d' h _ =>
    cases hc
    exact ⟨_,latest_cons_self,h⟩

end

def Sqlite3DB.ofCopies (roMode : Bool) (r : Copies δ) (savepoints : List (Str × δ)) : Sqlite3DB δ where
  conn := ⟨r.durable,r.content,!r.copies.isEmpty,!r.copies.isEmpty,savepoints⟩
  roMode
  transactionLevel := r.copies.length
  transactionCursor := !r.copies.isEmpty

def Simulates (roMode : Bool) (db : Sqlite3DB δ) (r : Copies δ) : Prop :=
  ∃ savepoints, Nested savepoints r.copies ∧ db = .ofCopies roMode r savepoints

def Accepted (roMode : Bool) (depth : ℕ) : Op δ → Prop
  | .begin => True
  | .commit => roMode = false ∧ 0 < depth
  | .rollback => 0 < depth
  | .write _ => roMode = false

section
variable {roMode : Bool} {db : Sqlite3DB δ} {r : Copies δ}

theorem simulates_connect (roMode : Bool) (content : δ) : Simulates roMode (.connect roMode content) ⟨content,[]⟩ :=
  ⟨[],.none,rfl⟩

theorem Copies.durable_cons (d e content content' : δ) (copies : List δ) :
    (⟨content,e :: d :: copies⟩ : Copies δ).durable = (⟨content',d :: copies⟩ : Copies δ).durable := by
  simp [durable,getLast?_cons]

theorem cursorExecute_release (db : Sqlite3DB δ) {name : Str} {d : δ} {rest : List (Str × δ)}
    (h : latest name db.conn.savepoints = some (d,rest))
    (hb : db.conn.begun = true) : db.cursorExecute (.release name) = .ok { db.conn with savepoints := rest } := by
  simp [Sqlite3DB.cursorExecute,Connection.exec,h,hb]

theorem cursorExecute_rollbackTo (db : Sqlite3DB δ) {name : Str} {d : δ} {rest : List (Str × δ)}
    (h : latest name db.conn.savepoints = some (d,rest)) :
    db.cursorExecute (.rollbackTo name) = .ok { db.conn with content := d, savepoints := (name,d) :: rest } := by
  simp [Sqlite3DB.cursorExecute,Connection.exec,h]

theorem Simulates.transactionBegin (h : Simulates roMode db r) :
    ∃ db', db.transactionBegin = .ok db' ∧ Simulates roMode db' (r.step .begin) := by
  obtain ⟨savepoints,hn,rfl⟩ := h
  obtain ⟨content,_ | ⟨d,copies⟩⟩ := r
  · rw [hn.eq_nil]
    exact ⟨_,rfl,[],.outer content,rfl⟩
  · refine ⟨_,rfl,_,.live (cons_ne_nil d copies) content hn,?_⟩
    rw [Sqlite3DB.ofCopies,Sqlite3DB.ofCopies,Copies.step,Copies.durable_cons d content content content copies]
    rfl

theorem Simulates.transactionCommit (h : Simulates false db r) (hopen : 0 < r.copies.length) :
    ∃ db', db.transactionCommit = .ok db' ∧ Simulates false db' (r.step .commit) := by
  obtain ⟨savepoints,hn,rfl⟩ := h
  obtain ⟨content,_ | ⟨d,_ | ⟨d',copies⟩⟩⟩ := r
  · cases hopen
  · exact ⟨_,rfl,[],.none,rfl⟩
  · obtain ⟨rest,hl,hrest⟩ := hn.latest (cons_ne_nil d' copies)
    refine ⟨.ofCopies false ⟨content,d' :: copies⟩ rest,?_,rest,hrest,rfl⟩
    have hr := cursorExecute_release (.ofCopies false ⟨content,d :: d' :: copies⟩ savepoints) hl rfl
    have hd := Copies.durable_cons d' d content content copies
    have hc : (Sqlite3DB.ofCopies false ⟨content,d :: d' :: copies⟩ savepoints).transactionCommit =
        (Sqlite3DB.cursorExecute (.ofCopies false ⟨content,d :: d' :: copies⟩ savepoints)
          (.release (savepointName ((d' :: copies).length + 1)))).bind fun conn =>
            .ok ⟨conn,false,(d' :: copies).length,true⟩ := rfl
    rw [hc,hr,Sqlite3DB.ofCopies,Sqlite3DB.ofCopies,hd]
    rfl

theorem Simulates.transactionRollback (h : Simulates roMode db r) (hopen : 0 < r.copies.length) :
    ∃ db', db.transactionRollback = .ok db' ∧ Simulates roMode db' (r.step .rollback) := by
  obtain ⟨savepoints,hn,rfl⟩ := h
  obtain ⟨content,_ | ⟨d,_ | ⟨d',copies⟩⟩⟩ := r
  · cases hopen
  · exact ⟨_,rfl,[],.none,rfl⟩
  · obtain ⟨rest,hl,hrest⟩ := hn.latest (cons_ne_nil d' copies)
    have hs : Nested ((savepointName ((d' :: copies).length + 1),d) :: rest) (d' :: copies) :=
      .stale (cons_ne_nil d' copies) (Nat.lt_succ_self _) d hrest
    refine ⟨.ofCopies roMode ⟨d,d' :: copies⟩ _,?_,_,hs,rfl⟩
    have hb := cursorExecute_rollbackTo (.ofCopies roMode ⟨content,d :: d' :: copies⟩ savepoints) hl
    have hd := Copies.durable_cons d' d content d copies
    have hr : (Sqlite3DB.ofCopies roMode ⟨content,d :: d' :: copies⟩ savepoints).transactionRollback =
        (Sqlite3DB.cursorExecute (.ofCopies roMode ⟨content,d :: d' :: copies⟩ savepoints)
          (.rollbackTo (savepointName ((d' :: copies).length + 1)))).bind fun conn =>
            .ok ⟨conn,roMode,(d' :: copies).length,true⟩ := rfl
    rw [hr,hb,Sqlite3DB.ofCopies,Sqlite3DB.ofCopies,hd]
    rfl

theorem Simulates.execute (h : Simulates false db r) (f : δ → δ) :
    ∃ db', db.execute f = .ok db' ∧ Simulates false db' (r.step (.write f)) := by
  obtain ⟨savepoints,hn,rfl⟩ := h
  refine ⟨.ofCopies false ⟨f r.content,r.copies⟩ savepoints,?_,savepoints,hn,rfl⟩
  obtain ⟨content,_ | ⟨d,copies⟩⟩ := r
  · rfl
  · rfl

theorem Simulates.step (h : Simulates roMode db r) {op : Op δ} (hop : Accepted roMode r.copies.length op) :
    ∃ db', db.step op = .ok db' ∧ Simulates roMode db' (r.step op) := by
  cases op with
  | begin => exact h.transactionBegin
  | commit =>
    obtain ⟨rfl,hopen⟩ := hop
    exact h.transactionCommit hopen
  | rollback => exact h.transactionRollback hop
  | write f =>
    obtain rfl : roMode = false := hop
    exact h.execute f

theorem Simulates.accepted (h : Simulates roMode db r) {op : Op δ} {db' : Sqlite3DB δ} (hs : db.step op = .ok db') :
    Accepted roMode r.copies.length op := by
  obtain ⟨savepoints,_,rfl⟩ := h
  obtain ⟨content,copies⟩ := r
  cases op with
  | begin => trivial
  | commit =>
    cases roMode with
    | true => cases hs
    | false =>
      cases copies with
      | nil => cases hs
      | cons => exact ⟨rfl,Nat.succ_pos _⟩
  | rollback =>
    cases copies with
    | nil => cases hs
    | cons => exact Nat.succ_pos _
  | write =>
    cases roMode with
    | true => cases hs
    | false => rfl

theorem Simulates.run (h : Simulates roMode db r) {ops : List (Op δ)} {db' : Sqlite3DB δ} (hr : db.run ops = .ok db') :
    Simulates roMode db' (r.run ops) := by
  induction ops generalizing db r with
  | nil =>
    cases hr
    exact h
  | cons op ops ih =>
    obtain ⟨next,hs,hr⟩ := bind_eq_ok.1 hr
    obtain ⟨next',hs',hn⟩ := h.step (h.accepted hs)
    cases hs.symm.trans hs'
    exact ih hn hr

theorem Simulates.returns (h : Simulates false db r) {ops : List (Op δ)} (hops : WellNested r.copies.length ops) :
    ∃ db', db.run ops = .ok db' := by
  induction ops generalizing db r with
  | nil => exact ⟨db,rfl⟩
  | cons op ops ih =>
    have ha : Accepted false r.copies.length op ∧ WellNested (r.step op).copies.length ops := by
      cases op with
      | begin => exact ⟨trivial,hops⟩
      | commit => exact ⟨⟨rfl,hops.1⟩,length_tail ▸ hops.2⟩
      | rollback => exact ⟨hops.1,length_tail ▸ hops.2⟩
      | write => exact ⟨rfl,hops⟩
    obtain ⟨next,hs,hn⟩ := h.step ha.1
    obtain ⟨db',hr⟩ := ih hn ha.2
    exact ⟨db',bind_eq_ok.2 ⟨next,hs,hr⟩⟩

end

/-- Along every well-nested sequence the object shows what the copies say, and what is durable is
what the outermost transaction found. -/
theorem transactions_nested (roMode : Bool) (content : δ) (ops : List (Op δ)) (h : WellNested 0 ops) :
    (roMode = false → ∃ db, (Sqlite3DB.connect roMode content).run ops = .ok db) ∧
      ∀ past, past <+: ops → ∀ db, (Sqlite3DB.connect roMode content).run past = .ok db →
        db.conn.content = (Copies.run ⟨content,[]⟩ past).content ∧
          db.conn.durable = (Copies.run ⟨content,[]⟩ past).durable := by
  constructor
  · rintro rfl
    exact (simulates_connect false content).returns h
  · intro past _ db hr
    obtain ⟨savepoints,_,rfl⟩ := (simulates_connect roMode content).run hr
    exact ⟨rfl,rfl⟩

def secondTry : List (Op (List ℕ)) :=
  [.begin,.write (1 :: ·),.begin,.write (2 :: ·),.rollback,.begin,.write (3 :: ·),.commit,.commit]

theorem secondTry_durable : WellNested 0 secondTry ∧
    ∃ db, (Sqlite3DB.connect false []).run secondTry = .ok db ∧ db.conn.content = [3,1] ∧ db.conn.durable = [3,1] := by
  have hn : WellNested 0 secondTry := by simp [secondTry,WellNested]
  obtain ⟨hre,hs⟩ := transactions_nested false [] secondTry hn
  obtain ⟨db,hr⟩ := hre rfl
  exact ⟨hn,db,hr,hs secondTry (prefix_refl _) db hr⟩

end Padsi.Vm
