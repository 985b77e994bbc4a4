import Padsi.Lib.Json
import Padsi.Lib.Store

/-! # Calls to the system service

A client calls the service through two pipes (`simple_comm.py`), and one task finds the
queue of each reply in a table. The steps are those of coroutines, from one `await` to
the next.
-/
namespace Padsi.Comm
open Python Text List

inductive MessageType where
  | request
  | reply
deriving DecidableEq, Repr

namespace MessageType

def value : MessageType → Json
  | .request => .num 0
  | .reply => .num 1

def ofValue (j : Json) : Option MessageType :=
  match j.asInt with
  | some 0 => some .request
  | some 1 => some .reply
  | _ => none

end MessageType

/-- The texts of the exceptions are left out. -/
inductive CommExc where
  | simpleComm (text : Str)
  | value
  | fault (f : Fault)
deriving DecidableEq, Repr

def CommExc.text : CommExc → Str
  | .simpleComm text => text
  | .value => []
  | .fault _ => []

structure Message where
  msgType : MessageType
  data : Json
  reqId : Option Json

namespace Message

def toStr (m : Message) (reqId : Option ℕ) : Except CommExc Json :=
  let object (id : Json) := Json.obj [("type",m.msgType.value),("req-id",id),("data",m.data)]
  match reqId, m.reqId with
  | some _, some id => .error (.simpleComm ("Message already has request ID " ++ id.format))
  | none, none => .error (.simpleComm "Message does not have a request ID")
  | some n, none => .ok (object (.num n))
  | none, some id => .ok (object id)

def fromStr (j : Json) : Except CommExc Message := do
  let type ← (j.index "type").mapError CommExc.fault
  let msgType ← match MessageType.ofValue type with
    | some t => .ok t
    | none => .error CommExc.value
  let data ← (j.index "data").mapError CommExc.fault
  let id ← (j.index "req-id").mapError CommExc.fault
  return ⟨msgType,data,match id with | .null => none | id => some id⟩

end Message

inductive Line where
  | result (j : Json)
  | exception (j : Json)

def Line.text : Line → Str
  | .result j => "RESULT:" ++ j.dumps
  | .exception j => "EXCEPTION:" ++ j.dumps

def limit : ℕ := 65536

inductive Outcome where
  | result (res : Message)
  | exception (text : Str)

def failure (id : Option Json) (text : Str) : Line :=
  .exception (.obj [("req-id",id.getD .null),("exception",.str text)])

def implementJob (line : Json) (outcome : Outcome) : Line :=
  match Message.fromStr line with
  | .error e => failure none e.text
  | .ok req =>
    match outcome with
    | .exception text => failure req.reqId text
    | .result res =>
      match Message.toStr { res with reqId := req.reqId } none with
      | .error e => failure req.reqId e.text
      | .ok ser => .result ser

inductive Answer where
  | result (m : Message)
  | exception (e : Json)

def intOf (U : Unicode) : Json → Option ℤ
  | .str s => int U s
  | j => j.asInt

def Line.answer (U : Unicode) : Line → Option (ℤ × Answer)
  | .exception j =>
    match j.index "exception", j.index "req-id" with
    | .ok e, .ok id => (intOf U id).map fun n => (n,.exception e)
    | _, _ => none
  | .result j =>
    match Message.fromStr j with
    | .ok m => (m.reqId.bind (intOf U)).map fun n => (n,.result m)
    | .error _ => none

structure Call where
  reqId : ℕ
  request : Message
  queue : List Answer
  result : Option Answer

def Call.resume (c : Call) : Call :=
  match c.result, c.queue with
  | none, a :: rest => { c with queue := rest, result := some a }
  | _, _ => c

/-- `ended` after the end of the stream, `crashed` after an exception. -/
inductive Task where
  | idle
  | reading
  | ended
  | crashed
deriving DecidableEq, Repr

def Task.isRunning : Task → Bool
  | .reading | .crashed => true
  | .idle | .ended => false

/-- `served` and `ignored` are the requests that were handled and the replies that were thrown away. -/
structure State where
  counter : ℕ
  table : Dict ℤ ℕ
  calls : List Call
  task : Task
  toServer : List Json
  toClient : List Line
  closed : Bool
  serving : Bool
  jobs : List Json
  served : List (Message × Outcome)
  ignored : List Line

namespace State

def start : State := ⟨0,.empty,[],.idle,[],[],false,true,[],[],[]⟩
def run (s : State) : State := if s.task.isRunning then s else { s with task := .reading }

def send (m : Message) (raw : Json) (s : State) : State :=
  { s with
    counter := s.counter + 1
    table := s.table.set ↑(s.counter + 1) s.calls.length
    calls := s.calls ++ [⟨s.counter + 1,m,[],none⟩]
    toServer := s.toServer ++ [raw] }

def callServer (m : Message) (s : State) : State × Except CommExc Unit :=
  if s.task.isRunning then
    match m.toStr (some (s.counter + 1)) with
    | .error e => ({ s with counter := s.counter + 1 },.error e)
    | .ok raw => (s.send m raw,.ok ())
  else (s,.error (.simpleComm "Cient's run() task has not yet been started or has been stopped"))

def serverRead (s : State) : State :=
  match s.serving, s.toServer with
  | true, line :: rest =>
    if limit < line.dumps.length then { s with serving := false, toServer := rest }
    else { s with toServer := rest, jobs := s.jobs ++ [line] }
  | _, _ => s

def finish (i : ℕ) (outcome : Outcome) (s : State) : State :=
  match s.jobs[i]? with
  | none => s
  | some line =>
    { s with
      jobs := s.jobs.eraseIdx i
      served := s.served ++ (match Message.fromStr line with | .ok req => [(req,outcome)] | .error _ => [])
      toClient := if s.closed then s.toClient else s.toClient ++ [implementJob line outcome] }

def close (s : State) : State := { s with closed := true }
def put (id : ℤ) (k : ℕ) (a : Answer) (s : State) : State :=
  { s with calls := s.calls.modify k fun c => { c with queue := c.queue ++ [a] }, table := s.table.erase id }

def deliver (U : Unicode) (line : Line) (s : State) : State :=
  match line.answer U with
  | none => { s with ignored := s.ignored ++ [line] }
  | some (id,a) =>
    match s.table.get id with
    | none => { s with ignored := s.ignored ++ [line] }
    | some k => s.put id k a

def clientRead (U : Unicode) (s : State) : State :=
  match s.task, s.toClient with
  | .reading, line :: rest =>
    if limit < line.text.length then { s with task := .crashed, toClient := rest }
    else deliver U line { s with toClient := rest }
  | .reading, [] => if s.closed then { s with task := .ended } else s
  | _, _ => s

def resume (k : ℕ) (s : State) : State := { s with calls := s.calls.modify k Call.resume }

end State

inductive Step where
  | run
  | callServer (m : Message)
  | serverRead
  | finish (i : ℕ) (outcome : Outcome)
  | close
  | clientRead
  | resume (k : ℕ)

variable (U : Unicode)

def State.step (s : State) : Step → State
  | .run => s.run
  | .callServer m => (s.callServer m).1
  | .serverRead => s.serverRead
  | .finish i outcome => s.finish i outcome
  | .close => s.close
  | .clientRead => s.clientRead U
  | .resume k => s.resume k

def State.steps (s : State) (l : List Step) : State := l.foldl (State.step U) s

def Call.asked (c : Call) : Message := { c.request with reqId := some (.num c.reqId) }
def Call.answers (c : Call) : List Answer := c.queue ++ c.result.toList
def Call.Waiting (c : Call) : Prop := c.answers = []

def Outcome.answer (id : ℕ) : Outcome → Answer
  | .result res => .result { res with reqId := some (.num id) }
  | .exception text => .exception (.str text)

abbrev Ticket := ℕ × Message
def Call.ticket (c : Call) : Ticket := (c.reqId,c.request)

namespace Ticket

def asked (t : Ticket) : Message := { t.2 with reqId := some (.num t.1) }
def line (t : Ticket) : Json := .obj [("type",t.2.msgType.value),("req-id",.num t.1),("data",t.2.data)]

end Ticket

theorem Message.fromStr_line (t : Ticket) : fromStr t.line = .ok t.asked := by
  obtain ⟨id,type,data,_⟩ := t
  cases type <;> rfl

variable {U} in
theorem answer_implementJob (t : Ticket) (o : Outcome) :
    (implementJob t.line o).answer U = some (↑t.1,o.answer t.1) := by
  rw [implementJob,Message.fromStr_line]
  cases o with
  | exception text => rfl
  | result res =>
    obtain ⟨type,data,_⟩ := res
    cases type <;> rfl

abbrev View := Ticket × List Answer
def Call.view (c : Call) : View := (c.ticket,c.answers)
def View.push (a : Answer) (x : View) : View := (x.1,x.2 ++ [a])

structure Book (counter : ℕ) (table : Dict ℤ ℕ) (v : List View) : Prop where
  nodup : (v.map fun x => x.1.1).Nodup
  bound : ∀ x ∈ v, x.1.1 ≤ counter
  table : ∀ id k, table.get id = some k ↔ ∃ t : Ticket, v[k]? = some (t,[]) ∧ (t.1 : ℤ) = id

structure Pending (v : List View) (ts : List Ticket) : Prop where
  nodup : (ts.map Prod.fst).Nodup
  waits : ∀ t ∈ ts, (t,[]) ∈ v

section
variable {counter : ℕ} {table : Dict ℤ ℕ} {v : List View} {ts ts' : List Ticket} {t : Ticket} {k : ℕ}

theorem Pending.mono (h : Pending v ts) (hs : ts'.Subperm ts) : Pending v ts' := by
  obtain ⟨l,hp,hl⟩ := hs
  exact ⟨(hp.map Prod.fst).nodup_iff.1 ((hl.map Prod.fst).nodup h.nodup),
    fun t ht => h.waits t (hl.subset (hp.mem_iff.2 ht))⟩

theorem place_unique (hn : (v.map fun x => x.1.1).Nodup) {i j : ℕ} {x y : View} (hi : v[i]? = some x)
    (hj : v[j]? = some y) (hid : x.1.1 = y.1.1) : i = j := by
  have hlt : i < (v.map fun x => x.1.1).length := by
    rw [length_map]
    exact (List.getElem?_eq_some_iff.mp hi).1
  refine (getElem?_inj hlt hn).1 ?_
  rw [getElem?_map,getElem?_map,hi,hj,Option.map_some,Option.map_some,hid]

theorem Book.unique (h : Book counter table v) {x y : View} (hx : x ∈ v) (hy : y ∈ v) (hid : x.1.1 = y.1.1) :
    x = y := by
  obtain ⟨i,hi⟩ := mem_iff_getElem?.1 hx
  obtain ⟨j,hj⟩ := mem_iff_getElem?.1 hy
  rw [place_unique h.nodup hi hj hid,hj] at hi
  exact (Option.some.inj hi).symm

theorem mem_push (h : Book counter table v) (hk : v[k]? = some (t,[])) (a : Answer) (x : View) :
    x ∈ v.modify k (View.push a) ↔ x = (t,[a]) ∨ x ∈ v ∧ x.1.1 ≠ t.1 := by
  simp only [mem_iff_getElem?,getElem?_modify]
  constructor
  · rintro ⟨j,hj⟩
    by_cases hjk : k = j
    · rw [← hjk,hk] at hj
      simp only [if_true] at hj
      exact .inl (Option.some.inj hj).symm
    · simp only [if_neg hjk,id_map'] at hj
      exact .inr ⟨⟨j,hj⟩,fun hid => hjk (place_unique h.nodup hj hk hid).symm⟩
  · rintro (rfl | ⟨⟨j,hj⟩,hne⟩)
    · refine ⟨k,?_⟩
      rw [hk]
      simp [View.push]
    · have hjk : k ≠ j := by
        rintro rfl
        rw [hk] at hj
        exact hne (congrArg (fun x : View => x.1.1) (Option.some.inj hj)).symm
      exact ⟨j,by simp [hjk,hj]⟩

theorem Book.push (h : Book counter table v) (hk : v[k]? = some (t,[])) (a : Answer) :
    Book counter (table.erase t.1) (v.modify k (View.push a)) where
  nodup := by
    have hi : (v.modify k (View.push a)).map (fun x => x.1.1) = v.map fun x => x.1.1 := by
      refine ext_getElem? fun j => ?_
      rw [getElem?_map,getElem?_map,getElem?_modify]
      cases v[j]? with
      | none => rfl
      | some x =>
        by_cases hjk : k = j
        · simp [hjk,View.push]
        · simp [hjk]
    rw [hi]
    exact h.nodup
  bound x hx := by
    rcases (mem_push h hk a x).1 hx with rfl | ⟨hx,_⟩
    · exact h.bound (t,[]) (mem_of_getElem? hk)
    · exact h.bound x hx
  table id j := by
    rw [Dict.get_erase]
    by_cases hid : id = t.1
    · subst hid
      rw [if_pos rfl]
      refine iff_of_false nofun ?_
      rintro ⟨t',hj,hid⟩
      rcases (mem_push h hk a _).1 (mem_of_getElem? hj) with heq | ⟨_,hne⟩
      · cases heq
      · exact hne (Int.ofNat_inj.1 hid)
    · rw [if_neg hid,h.table]
      refine exists_congr fun t' => and_congr_left fun hi' => ?_
      rw [getElem?_modify]
      by_cases hjk : k = j
      · subst hjk
        have hne : t ≠ t' := fun heq => hid (heq ▸ hi'.symm)
        simp [hk,hne,View.push]
      · simp [hjk]

theorem Pending.push (h : Book counter table v) (hk : v[k]? = some (t,[])) (a : Answer) (hp : Pending v (t :: ts)) :
    Pending (v.modify k (View.push a)) ts := by
  obtain ⟨hnot,hn⟩ := nodup_cons.1 hp.nodup
  refine ⟨hn,fun t' ht' => (mem_push h hk a _).2 (.inr ⟨hp.waits t' (mem_cons_of_mem _ ht'),fun hid => hnot ?_⟩)⟩
  exact mem_map.2 ⟨t',ht',hid⟩

theorem Book.concat (h : Book counter table v) (m : Message) :
    Book (counter + 1) (table.set ↑(counter + 1) v.length) (v ++ [((counter + 1,m),[])]) where
  nodup := by
    rw [map_append,map_singleton,← concat_eq_append]
    refine h.nodup.concat fun hmem => ?_
    obtain ⟨x,hx,hid⟩ := mem_map.1 hmem
    have hid : x.1.1 = counter + 1 := hid
    have := h.bound x hx
    omega
  bound x hx := by
    rcases mem_append.1 hx with hx | hx
    · exact (h.bound x hx).trans (Nat.le_succ _)
    · rw [mem_singleton.1 hx]
  table id k := by
    rw [Dict.get_set]
    by_cases hid : id = ↑(counter + 1)
    · subst hid
      rw [if_pos rfl,Option.some_inj]
      constructor
      · rintro rfl
        exact ⟨(counter + 1,m),getElem?_concat_length,rfl⟩
      · rintro ⟨t,hk,hid⟩
        rw [getElem?_append] at hk
        split_ifs at hk with hlt
        · have hb : t.1 ≤ counter := h.bound _ (mem_of_getElem? hk)
          have hid : t.1 = counter + 1 := Int.ofNat_inj.1 hid
          omega
        · have hl' := (List.getElem?_eq_some_iff.mp hk).1
          rw [length_singleton] at hl'
          omega
    · rw [if_neg hid,h.table]
      refine exists_congr fun t => and_congr_left fun hi' => ?_
      rw [getElem?_append]
      split_ifs with hlt
      · exact Iff.rfl
      · rw [getElem?_eq_none (Nat.le_of_not_lt hlt)]
        refine iff_of_false nofun fun hk => ?_
        have hmem := mem_singleton.1 (mem_of_getElem? hk)
        rw [Prod.mk.injEq] at hmem
        exact hid (by rw [← hi',hmem.1])

theorem Pending.concat (h : Book counter table v) (hp : Pending v ts) (m : Message) :
    Pending (v ++ [((counter + 1,m),[])]) ((counter + 1,m) :: ts) := by
  refine ⟨nodup_cons.2 ⟨fun hmem => ?_,hp.nodup⟩,fun t ht => ?_⟩
  · obtain ⟨t,ht,hid⟩ := mem_map.1 hmem
    have : t.1 ≤ counter := h.bound _ (hp.waits t ht)
    omega
  · rcases mem_cons.1 ht with rfl | ht
    · exact mem_append_right _ (mem_singleton_self _)
    · exact mem_append_left _ (hp.waits t ht)

end

def State.views (s : State) : List View := s.calls.map Call.view

structure Inv (s : State) (sent working : List Ticket) (replied : List (Ticket × Outcome)) : Prop where
  toServer : s.toServer = sent.map Ticket.line
  jobs : s.jobs = working.map Ticket.line
  toClient : s.toClient = replied.map fun x => implementJob x.1.line x.2
  book : Book s.counter s.table s.views
  pending : Pending s.views (sent ++ (working ++ replied.map Prod.fst))
  once : (s.served.map fun x => x.1.reqId).Nodup
  handled : ∀ x ∈ s.served, ∃ y ∈ s.views, y.1.asked = x.1 ∧ y.1.1 ∉ (sent ++ working).map Prod.fst
  replies : ∀ x ∈ replied, (x.1.asked,x.2) ∈ s.served
  answers : ∀ x ∈ s.views, x.2 = [] ∨ ∃ o, (x.1.asked,o) ∈ s.served ∧ x.2 = [o.answer x.1.1]
  none_ignored : s.ignored = []
  delivered : s.closed = false → s.task ≠ .crashed → ∀ x ∈ s.served, ∃ t : Ticket, t.asked = x.1 ∧
    ((t,[]) ∈ s.views ∧ (t,x.2) ∈ replied ∨ (t,[x.2.answer t.1]) ∈ s.views)

theorem inv_start : Inv State.start [] [] [] where
  toServer := rfl
  jobs := rfl
  toClient := rfl
  book := ⟨nodup_nil,nofun,fun _ _ => iff_of_false nofun nofun⟩
  pending := ⟨nodup_nil,nofun⟩
  once := nodup_nil
  handled := nofun
  replies := nofun
  answers := nofun
  none_ignored := rfl
  delivered _ _ := nofun

section
variable {s : State} {sent working : List Ticket} {replied : List (Ticket × Outcome)}

theorem Inv.run (h : Inv s sent working replied) : Inv s.run sent working replied := by
  unfold State.run
  split
  · exact h
  · rename_i ht
    refine { h with delivered := fun hopen _ => h.delivered hopen fun hc => ht ?_ }
    rw [hc]
    rfl

theorem Inv.close (h : Inv s sent working replied) : Inv s.close sent working replied :=
  { h with delivered := nofun }

theorem Message.toStr_eq_ok {m : Message} {n : ℕ} {raw : Json} :
    m.toStr (some n) = .ok raw ↔ m.reqId = none ∧ raw = Ticket.line (n,m) := by
  unfold toStr
  cases hid : m.reqId with
  | some id => exact iff_of_false nofun nofun
  | none =>
    refine ⟨fun h => ⟨rfl,?_⟩,?_⟩
    · cases h
      rfl
    · rintro ⟨_,rfl⟩
      rfl

theorem State.views_send (s : State) (m : Message) (raw : Json) :
    (s.send m raw).views = s.views ++ [((s.counter + 1,m),[])] :=
  map_append

theorem Inv.send (h : Inv s sent working replied) (m : Message) :
    Inv (s.send m (Ticket.line (s.counter + 1,m))) (sent ++ [(s.counter + 1,m)]) working replied := by
  have hv := s.views_send m (Ticket.line (s.counter + 1,m))
  refine { h with
    toServer := ?_
    book := ?_
    pending := ?_
    handled := fun x hx => ?_
    answers := fun x hx => ?_
    delivered := fun hopen hta x hx => ?_ }
  · rw [map_append,← h.toServer]
    rfl
  · have hb := h.book.concat m
    rw [State.views,length_map] at hb
    rw [hv]
    exact hb
  · rw [hv,append_assoc]
    exact (h.pending.concat h.book m).mono perm_middle.subperm
  · obtain ⟨y,hy,ha,hnot⟩ := h.handled x hx
    refine ⟨y,hv ▸ mem_append_left _ hy,ha,fun hmem => ?_⟩
    have hbo := h.book.bound y hy
    simp only [map_append,mem_append,map_singleton,mem_singleton] at hmem hnot
    rcases hmem with (hmem | hmem) | hmem
    · exact hnot (.inl hmem)
    · omega
    · exact hnot (.inr hmem)
  · rw [hv,mem_append,mem_singleton] at hx
    rcases hx with hx | rfl
    · exact h.answers x hx
    · exact .inl rfl
  · obtain ⟨t,ht,hw⟩ := h.delivered hopen hta x hx
    rw [hv]
    exact ⟨t,ht,hw.imp (And.imp_left (mem_append_left _)) (mem_append_left _)⟩

theorem Inv.callServer (h : Inv s sent working replied) (m : Message) :
    ∃ sent', Inv (s.callServer m).1 sent' working replied := by
  unfold State.callServer
  split
  · split
    · -- the number is lost
      exact ⟨sent,{ h with book := { h.book with bound := fun x hx => (h.book.bound x hx).trans (Nat.le_succ _) } }⟩
    · rename_i raw hr
      rw [(Message.toStr_eq_ok.1 hr).2]
      exact ⟨_,h.send m⟩
  · exact ⟨sent,h⟩

theorem Inv.serverRead (h : Inv s sent working replied) :
    ∃ sent' working', Inv s.serverRead sent' working' replied := by
  unfold State.serverRead
  split
  · rename_i line rest hs hl
    rw [h.toServer] at hl
    obtain ⟨t,sent,rfl,rfl,hrest⟩ := map_eq_cons_iff.1 hl
    split
    · refine ⟨sent,working,{ h with toServer := hrest.symm, pending := ?_, handled := fun x hx => ?_ }⟩
      · exact h.pending.mono (sublist_cons_self _ _).subperm
      · obtain ⟨y,hy,ha,hnot⟩ := h.handled x hx
        exact ⟨y,hy,ha,fun hmem => hnot (mem_cons_of_mem _ hmem)⟩
    · have hp : (sent ++ (working ++ [t])).Perm (t :: sent ++ working) := by
        rw [← append_assoc]
        exact perm_append_singleton t _
      refine ⟨sent,working ++ [t],{ h with
        toServer := hrest.symm
        jobs := ?_
        pending := h.pending.mono ?_
        handled := fun x hx => ?_ }⟩
      · change s.jobs ++ [t.line] = _
        rw [h.jobs,map_append]
        rfl
      · have hal := hp.append_right (replied.map Prod.fst)
        rw [append_assoc,append_assoc (t :: sent)] at hal
        exact hal.subperm
      · obtain ⟨y,hy,ha,hnot⟩ := h.handled x hx
        exact ⟨y,hy,ha,fun hmem => hnot ((hp.map _).mem_iff.1 hmem)⟩
  · exact ⟨sent,working,h⟩

variable {t : Ticket}

theorem Inv.once_concat (h : Inv s sent working replied) (ht : t ∈ working) (o : Outcome) :
    ((s.served ++ [(t.asked,o)]).map fun x => x.1.reqId).Nodup := by
  rw [map_append,map_singleton,← concat_eq_append]
  refine h.once.concat fun hmem => ?_
  obtain ⟨x,hx,hid⟩ := mem_map.1 hmem
  obtain ⟨y,_,ha,hnot⟩ := h.handled x hx
  have heq : some (Json.num y.1.1) = some (Json.num t.1) := by
    rw [← ha] at hid
    exact hid
  have hid : y.1.1 = t.1 := by
    simpa using heq
  exact hnot (hid ▸ mem_map_of_mem (mem_append_right _ ht))

/-- The reply of a job moves from the requests being worked on to the replies. -/
theorem Inv.finish (h : Inv s sent working replied) (i : ℕ) (o : Outcome) :
    ∃ working' replied', Inv (s.finish i o) sent working' replied' := by
  unfold State.finish
  split
  · exact ⟨working,replied,h⟩
  · rename_i line hl
    rw [h.jobs,getElem?_map] at hl
    obtain ⟨t,hi,rfl⟩ := Option.map_eq_some_iff.1 hl
    rw [Message.fromStr_line]
    obtain ⟨hlt,rfl⟩ := List.getElem?_eq_some_iff.mp hi
    set t := working[i] with ht
    set rest := working.eraseIdx i with hrest
    have hpe : (t :: rest).Perm working := getElem_cons_eraseIdx_perm hlt
    have hp : Pending s.views (t :: (sent ++ (rest ++ replied.map Prod.fst))) := by
      refine h.pending.mono (List.Perm.subperm ?_)
      exact perm_middle.symm.trans ((hpe.append_right _).append_left _)
    have hf : t.1 ∉ (sent ++ (rest ++ replied.map Prod.fst)).map Prod.fst := (nodup_cons.1 hp.nodup).1
    have hj : (s.jobs.eraseIdx i) = rest.map Ticket.line := by
      rw [h.jobs,eraseIdx_map]
    have ho := h.once_concat (hpe.mem_iff.1 mem_cons_self) o
    have hh : ∀ x ∈ s.served ++ [(t.asked,o)], ∃ y ∈ s.views, y.1.asked = x.1 ∧
        y.1.1 ∉ (sent ++ rest).map Prod.fst := by
      intro x hx
      rcases mem_append.1 hx with hx | hx
      · obtain ⟨y,hy,hask,hnot⟩ := h.handled x hx
        refine ⟨y,hy,hask,fun hmem => hnot ?_⟩
        exact map_subset _ ((eraseIdx_sublist working i).append_left sent).subset hmem
      · rw [mem_singleton.1 hx]
        refine ⟨(t,[]),hp.waits t mem_cons_self,rfl,fun hmem => hf ?_⟩
        rw [← append_assoc,map_append]
        exact mem_append_left _ hmem
    have ha : ∀ x ∈ s.views, x.2 = [] ∨ ∃ o', (x.1.asked,o') ∈ s.served ++ [(t.asked,o)] ∧
      x.2 = [o'.answer x.1.1] := fun x hx =>
      (h.answers x hx).imp_right fun ⟨o',hmem,heq⟩ => ⟨o',mem_append_left _ hmem,heq⟩
    cases hc : s.closed with
    | true =>
      refine ⟨rest,replied,{ h with
        jobs := hj
        pending := hp.mono (sublist_cons_self _ _).subperm
        once := ho
        handled := hh
        replies := fun x hx => mem_append_left _ (h.replies x hx)
        answers := ha
        delivered := nofun }⟩
    | false =>
      refine ⟨rest,replied ++ [(t,o)],{ h with
        jobs := hj
        toClient := ?_
        pending := hp.mono (List.Perm.subperm ?_)
        once := ho
        handled := hh
        replies := fun x hx => ?_
        answers := ha
        delivered := fun _ hta x hx => ?_ }⟩
      · rw [map_append,← h.toClient]
        rfl
      · rw [map_append,← append_assoc,← append_assoc,← append_assoc]
        exact perm_append_singleton t _
      · rcases mem_append.1 hx with hx | hx
        · exact mem_append_left _ (h.replies x hx)
        · rw [mem_singleton.1 hx]
          exact mem_append_right _ (mem_singleton_self _)
      · rcases mem_append.1 hx with hx | hx
        · obtain ⟨t',ht',hw⟩ := h.delivered hc hta x hx
          exact ⟨t',ht',hw.imp_left (And.imp_right (mem_append_left _))⟩
        · rw [mem_singleton.1 hx]
          exact ⟨t,rfl,.inl ⟨hp.waits t mem_cons_self,mem_append_right _ (mem_singleton_self _)⟩⟩

variable {U}

theorem State.views_put {k : ℕ} (hk : s.views[k]? = some (t,[])) (id : ℤ) (a : Answer) :
    (s.put id k a).views = s.views.modify k (View.push a) := by
  refine ext_getElem? fun j => ?_
  rw [views,put,getElem?_map,getElem?_modify,getElem?_modify,views,getElem?_map]
  cases hj : s.calls[j]? with
  | none => rfl
  | some c =>
    by_cases hkj : k = j
    · subst hkj
      -- a call that waits has not ended
      have hv : c.view = (t,[]) := by
        rw [views,getElem?_map,hj] at hk
        exact Option.some.inj hk
      have hr : c.result = none := by
        have ha : c.queue ++ c.result.toList = [] := congrArg Prod.snd hv
        exact Option.toList_eq_nil_iff.1 (append_eq_nil_iff.1 ha).2
      simp [Call.view,View.push,Call.ticket,Call.answers,hr]
    · simp [hkj]

theorem Inv.deliver_eq {o : Outcome} (h : Inv s sent working ((t,o) :: replied)) :
    ∃ k, s.views[k]? = some (t,[]) ∧ ∀ rest, State.deliver U (implementJob t.line o) { s with toClient := rest } =
      State.put t.1 k (o.answer t.1) { s with toClient := rest } := by
  have hmem : t ∈ sent ++ (working ++ ((t,o) :: replied).map Prod.fst) :=
    mem_append_right _ (mem_append_right _ mem_cons_self)
  obtain ⟨k,hk⟩ := mem_iff_getElem?.1 (h.pending.waits t hmem)
  refine ⟨k,hk,fun rest => ?_⟩
  have ht : s.table.get t.1 = some k := (h.book.table _ _).2 ⟨t,hk,rfl⟩
  simp only [State.deliver,answer_implementJob,ht]

theorem Inv.put {o : Outcome} {k : ℕ} (h : Inv s sent working ((t,o) :: replied)) (hk : s.views[k]? = some (t,[])) :
    Inv (State.put t.1 k (o.answer t.1)
    { s with toClient := replied.map fun x => implementJob x.1.line x.2 }) sent working replied := by
  have hv : (State.put t.1 k (o.answer t.1)
    { s with toClient := replied.map fun x => implementJob x.1.line x.2 }).views =
      s.views.modify k (View.push (o.answer t.1)) := s.views_put hk t.1 (o.answer t.1)
  have hp : Pending s.views (t :: (sent ++ (working ++ replied.map Prod.fst))) := by
    refine h.pending.mono (List.Perm.subperm ?_)
    exact perm_middle.symm.trans (perm_middle.symm.append_left _)
  have hmem := mem_push h.book hk (o.answer t.1)
  refine { h with
    toClient := rfl
    book := ?_
    pending := ?_
    handled := fun x hx => ?_
    replies := fun x hx => h.replies x (mem_cons_of_mem _ hx)
    answers := fun x hx => ?_
    delivered := fun hopen ht x hx => ?_ }
  · rw [hv]
    exact h.book.push hk _
  · rw [hv]
    exact hp.push h.book hk _
  · obtain ⟨y,hy,ha,hnot⟩ := h.handled x hx
    rw [hv]
    by_cases hid : y.1.1 = t.1
    · rw [h.book.unique hy (mem_of_getElem? hk) hid] at ha hnot
      exact ⟨_,(hmem _).2 (.inl rfl),ha,hnot⟩
    · exact ⟨y,(hmem y).2 (.inr ⟨hy,hid⟩),ha,hnot⟩
  · rw [hv] at hx
    rcases (hmem x).1 hx with rfl | ⟨hx,_⟩
    · exact .inr ⟨o,h.replies (t,o) mem_cons_self,rfl⟩
    · exact h.answers x hx
  · obtain ⟨t',ht',hw⟩ := h.delivered hopen ht x hx
    refine ⟨t',ht',?_⟩
    rw [hv]
    rcases hw with ⟨hwa,hr⟩ | hh
    · rcases mem_cons.1 hr with heq | hr
      · obtain ⟨rfl,ho⟩ := Prod.mk.inj heq
        rw [ho]
        exact .inr ((hmem _).2 (.inl rfl))
      · refine .inl ⟨(hmem _).2 (.inr ⟨hwa,fun hid => ?_⟩),hr⟩
        refine (nodup_cons.1 hp.nodup).1 (mem_map.2 ⟨t',?_,hid⟩)
        exact mem_append_right _ (mem_append_right _ (mem_map_of_mem hr))
    · refine .inr ((hmem _).2 (.inr ⟨hh,fun hid => ?_⟩))
      cases h.book.unique hh (mem_of_getElem? hk) hid

theorem Inv.clientRead (h : Inv s sent working replied) : ∃ replied', Inv (s.clientRead U) sent working replied' := by
  unfold State.clientRead
  split
  · rename_i line rest ht hl
    rw [h.toClient] at hl
    obtain ⟨⟨t,o⟩,replied,rfl,rfl,rfl⟩ := map_eq_cons_iff.1 hl
    obtain ⟨k,hk,hd⟩ := h.deliver_eq (U := U)
    split
    · refine ⟨replied,{ h with
        toClient := rfl
        pending := h.pending.mono (List.Sublist.subperm ?_)
        replies := fun x hx => h.replies x (mem_cons_of_mem _ hx)
        delivered := fun _ hc => absurd rfl hc }⟩
      exact ((sublist_cons_self _ _).append_left _).append_left _
    · rw [hd]
      exact ⟨replied,h.put hk⟩
  · split
    · exact ⟨replied,{ h with delivered := fun hopen _ => h.delivered hopen (by simp [*]) }⟩
    · exact ⟨replied,h⟩
  · exact ⟨replied,h⟩

theorem Call.view_resume {c : Call} (h : c.answers.length ≤ 1) : c.resume.view = c.view := by
  obtain ⟨id,m,queue,result⟩ := c
  match queue, result with
  | [], none => rfl
  | [], some _ => rfl
  | _ :: _, some _ => rfl
  | [a], none => rfl
  | a :: b :: rest, none => simp [answers] at h

theorem Inv.views_resume (h : Inv s sent working replied) (k : ℕ) : (s.resume k).views = s.views := by
  have hl : ∀ c ∈ s.calls, c.answers.length ≤ 1 := by
    intro c hc
    rcases h.answers c.view (mem_map_of_mem hc) with hn | ⟨o,_,ho⟩
    · rw [show c.answers = [] from hn]
      exact Nat.zero_le 1
    · rw [show c.answers = [o.answer c.reqId] from ho]
      rfl
  refine ext_getElem? fun j => ?_
  rw [State.views,State.resume,getElem?_map,getElem?_modify,State.views,getElem?_map]
  cases hj : s.calls[j]? with
  | none => rfl
  | some c =>
    by_cases hkj : k = j
    · simp [hkj,Call.view_resume (hl c (mem_of_getElem? hj))]
    · simp [hkj]

theorem Inv.resume (h : Inv s sent working replied) (k : ℕ) : Inv (s.resume k) sent working replied := by
  have hv := h.views_resume k
  exact { h with
    book := hv ▸ h.book
    pending := hv ▸ h.pending
    handled := hv ▸ h.handled
    answers := hv ▸ h.answers
    delivered := hv ▸ h.delivered }

theorem Inv.step (h : Inv s sent working replied) (st : Step) :
    ∃ sent' working' replied', Inv (s.step U st) sent' working' replied' := by
  cases st with
  | run => exact ⟨_,_,_,h.run⟩
  | callServer m =>
    obtain ⟨_,h⟩ := h.callServer m
    exact ⟨_,_,_,h⟩
  | serverRead =>
    obtain ⟨_,_,h⟩ := h.serverRead
    exact ⟨_,_,_,h⟩
  | finish i o =>
    obtain ⟨_,_,h⟩ := h.finish i o
    exact ⟨_,_,_,h⟩
  | close => exact ⟨_,_,_,h.close⟩
  | clientRead =>
    obtain ⟨_,h⟩ := h.clientRead (U := U)
    exact ⟨_,_,_,h⟩
  | resume k => exact ⟨_,_,_,h.resume k⟩

end

def State.Short (s : State) : Prop :=
  (∀ line ∈ s.toServer, line.dumps.length ≤ limit) ∧ ∀ line ∈ s.toClient, line.text.length ≤ limit

structure Open (s : State) : Prop where
  closed : s.closed = false
  task : s.task ≠ .crashed

section
variable {U} {s : State} {sent working : List Ticket} {replied : List (Ticket × Outcome)}

theorem Open.deliver (h : Open s) (line : Line) : Open (s.deliver U line) := by
  unfold State.deliver
  split
  · exact ⟨h.closed,h.task⟩
  · split <;> exact ⟨h.closed,h.task⟩

/-- The stream stays open as long as lines are short and nothing closes it. -/
theorem Open.step (h : Open s) (hs : s.Short) {st : Step} (hst : st ≠ .close) : Open (s.step U st) := by
  cases st with
  | run =>
    rw [State.step,State.run]
    split
    · exact h
    · exact ⟨h.closed,nofun⟩
  | callServer m =>
    rw [State.step,State.callServer]
    split
    · split <;> exact ⟨h.closed,h.task⟩
    · exact h
  | serverRead =>
    rw [State.step,State.serverRead]
    split
    · split <;> exact ⟨h.closed,h.task⟩
    · exact h
  | finish i o =>
    rw [State.step,State.finish]
    split
    · exact h
    · exact ⟨h.closed,h.task⟩
  | close => exact absurd rfl hst
  | clientRead =>
    rw [State.step,State.clientRead]
    split
    · rename_i line rest ht hl
      have hle := hs.2 line (hl ▸ mem_cons_self)
      rw [if_neg (Nat.not_lt.2 hle)]
      exact Open.deliver (s := { s with toClient := rest }) ⟨h.closed,h.task⟩ line
    · rw [if_neg (Bool.eq_false_iff.1 h.closed)]
      exact h
    · exact h
  | resume k => exact ⟨h.closed,h.task⟩

end

def question (text : String) : Message := ⟨.request,.str text.toList,none⟩

instance (s : State) : Decidable s.Short := inferInstanceAs (Decidable (_ ∧ _))

end Padsi.Comm
