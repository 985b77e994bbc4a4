import Padsi.Dbus.Rewrite
import Padsi.Dbus.Router

/-! # Answers of the client

The router keeps the calls of the buses by their serial number, which each bus chooses
on its own.
-/
namespace Padsi.Dbus
open Text Python List Option

def Remote.translate (x : Remote) (h : HeaderType) (name : Option Str) (m : Message) : Except Exc Message :=
  if x.assignedDbusName = none then .ok m
  else
    match m.fields.get h with
    | none => .ok m
    | some (.num _) => .error .typeError
    | some (.text []) => .error .index
    | some (.text (c :: s)) =>
      if c = ':' ∧ name ≠ some (c :: s) then m.changeHeader fun k => if k =
        h then some (name.map Value.text) else none else .ok m

def Remote.translateToRemote (x : Remote) (m : Message) : Except Exc Message := x.translate .sender x.assignedDbusName m

structure MessageContext where
  message : Message
  context : RemoteContext

def Message.replySerial (m : Message) : Option Value :=
  if m.messageType = .methodReturn then m.fields.get .replySerial else none

structure Routing where
  remotes : Dict Str RemoteContext
  routingTable : Dict UInt32 MessageContext

namespace Routing

def handleRemoteMessage (s : Routing) (socketPath : Str) (m : Message) : Routing :=
  match s.remotes.get socketPath, m.messageType with
  | some context, .methodCall => { s with routingTable := s.routingTable.set m.serial ⟨m,context⟩ }
  | _, _ => s

def popContext (s : Routing) : Option Value → Option MessageContext × Routing
  | some (.num n) => (s.routingTable.get n,{ s with routingTable := s.routingTable.erase n })
  | _ => (none,s)

/-- An answer of the client, and where it is sent. An exception of the translation is logged. -/
def handleClientAnswer (s : Routing) (m : Message) : List (Str × Message) × Routing :=
  let popped := s.popContext m.replySerial
  match popped.1 with
  | none => ([],popped.2)
  | some x =>
    match x.context.remote.translateToRemote m with
    | .ok translated => ([(x.context.remote.socketPath,translated)],popped.2)
    | .error _ => ([],popped.2)

end Routing

inductive Event where
  | call (socketPath : Str) (m : Message)
  | answer (m : Message)

/-- The calls that wait for their answer, in the order of their reception: the bus and the serial number. -/
abbrev Waiting := List (RemoteContext × UInt32)

def Waiting.first (calls : Waiting) (n : UInt32) : Option RemoteContext := (calls.find? fun c => c.2 = n).map Prod.fst
def Waiting.without (calls : Waiting) (n : UInt32) : Waiting := calls.eraseP fun c => c.2 = n

/-- Connected buses call, and each answer is one to a call that waits. -/
def Valid (remotes : Dict Str RemoteContext) : Waiting → List Event → Prop
  | _, [] => True
  | calls, .call socketPath m :: es => m.messageType = .methodCall ∧
      ∃ x, remotes.get socketPath = some x ∧ x.remote.socketPath = socketPath ∧
        Valid remotes (calls ++ [(x,m.serial)]) es
  | calls, .answer m :: es => (m.messageType = .methodReturn ∨ m.messageType = .error) ∧
      ∃ n, m.fields.get .replySerial = some (.num n) ∧ calls.first n ≠ none ∧ Valid remotes (calls.without n) es

/-- Each answer is sent to the bus of its call only, and in the end the table is empty if all
calls were answered. -/
def Reach (s : Routing) : Waiting → List Event → Prop
  | calls, [] => calls = [] → s.routingTable.entries = []
  | calls, .call socketPath m :: es => ∀ x, s.remotes.get socketPath = some x →
      Reach (s.handleRemoteMessage socketPath m) (calls ++ [(x,m.serial)]) es
  | calls, .answer m :: es => ∀ n, m.fields.get .replySerial = some (.num n) →
      (∃ x translated, calls.first n = some x ∧ (s.handleClientAnswer m).1 = [(x.remote.socketPath,translated)]) ∧
        Reach (s.handleClientAnswer m).2 (calls.without n) es

def toSender (name : Str) : Replacement := fun h => if h = .sender then some name else none

/-- The sender needs no translation, or its header can be rewritten. -/
def Forwardable (x : Remote) (m : Message) : Prop :=
  x.assignedDbusName = none ∨ m.fields.get .sender = none ∨
    ∃ c s, m.fields.get .sender = some (.text (c :: s)) ∧ (c ≠ ':' ∨ x.assignedDbusName = some (c :: s) ∨
      ∃ blob name, x.assignedDbusName = some name ∧ Message.parse blob = .ok m ∧
        (∀ f ∈ m.fields.entries, Ascii ((toSender name).apply f)) ∧
        Rewritable m (toSender name))

/-- No call comes with the serial number of one that waits, and no answer is an error. -/
def Steady (remotes : Dict Str RemoteContext) : Waiting → List Event → Prop
  | _, [] => True
  | calls, .call socketPath m :: es =>
    (∀ c ∈ calls, c.2 ≠ m.serial) ∧ ∀ x ∈ remotes.get socketPath, Steady remotes (calls ++ [(x,m.serial)]) es
  | calls, .answer m :: es => m.messageType = .methodReturn ∧ ∀ n, m.fields.get .replySerial = some (.num n) →
      (∀ x ∈ calls.first n, Forwardable x.remote m) ∧ Steady remotes (calls.without n) es

variable {m : Message} {calls : Waiting} {x : RemoteContext} {s : Routing}

theorem toSender_onTexts {name t : Str} (hs : m.fields.get .sender = some (.text t)) :
    (toSender name).OnTexts m.fields.entries := by
  intro f hf n hn
  refine if_neg fun hse => ?_
  have hg := Dict.mem_entries_iff.1 (show (f.1,f.2) ∈ m.fields.entries from hf)
  rw [hse,hs,hn] at hg
  cases hg

theorem translateToRemote_ok {x : Remote} (h : Forwardable x m) :
    ∃ translated, x.translateToRemote m = .ok translated := by
  unfold Remote.translateToRemote Remote.translate
  by_cases hnone : x.assignedDbusName = none
  · exact ⟨m,if_pos hnone⟩
  · rw [if_neg hnone]
    rcases h with h | h | ⟨c,s,hs,h⟩
    · exact absurd h hnone
    · rw [h]
      exact ⟨m,rfl⟩
    · rw [hs]
      by_cases hk : c = ':' ∧ x.assignedDbusName ≠ some (c :: s)
      · rcases h with h | h | ⟨blob,name,hname,hp,ha,hr⟩
        · exact absurd hk.1 h
        · exact absurd h hk.2
        · obtain ⟨m₂,hm₂⟩ := rewrites_of_rewritable hp (toSender_onTexts hs) ha hr
          refine ⟨m₂,(if_pos hk).trans ?_⟩
          rw [← hm₂.returned,hname]
          congr 1
          funext k
          unfold Replacement.changes toSender
          split <;> rfl
      · exact ⟨m,if_neg hk⟩

structure Tracks (s : Routing) (calls : Waiting) : Prop where
  distinct : (calls.map Prod.snd).Nodup
  table : ∀ n, (s.routingTable.get n).map MessageContext.context = calls.first n

theorem first_append {n : UInt32} (h : ∀ c ∈ calls, c.2 ≠ n) (k : UInt32) :
    Waiting.first (calls ++ [(x,n)]) k = if k = n then some x else calls.first k := by
  unfold Waiting.first
  rw [find?_append]
  by_cases hk : k = n
  · have hnone : calls.find? (fun c => c.2 = k) = none :=
      find?_eq_none.2 fun c hc hco => h c hc ((of_decide_eq_true hco).trans hk)
    rw [if_pos hk,hnone,hk]
    simp
  · have hl : [(x,n)].find? (fun c => c.2 = k) = none := by simp [Ne.symm hk]
    rw [if_neg hk,hl,or_none]

theorem first_without (h : (calls.map Prod.snd).Nodup) (n k : UInt32) :
    (calls.without n).first k = if k = n then none else calls.first k := by
  induction calls with
  | nil => simp [Waiting.without,Waiting.first]
  | cons c calls ih =>
    obtain ⟨hnot,hrest⟩ := nodup_cons.1 h
    have ih := ih hrest
    unfold Waiting.without Waiting.first at ih ⊢
    by_cases hc : c.2 = n
    · rw [eraseP_cons_of_pos (by simp [hc])]
      by_cases hk : k = n
      · have hnone : calls.find? (fun c => c.2 = k) = none := by
          refine find?_eq_none.2 fun d hd hco => hnot ?_
          exact mem_map.2 ⟨d,hd,(of_decide_eq_true hco).trans (hk.trans hc.symm)⟩
        rw [if_pos hk,hnone]
        rfl
      · rw [if_neg hk, find?_cons_of_neg (by simp [hc,Ne.symm hk])]
    · rw [eraseP_cons_of_neg (by simp [hc])]
      by_cases hck : c.2 = k
      · have hk : k ≠ n := fun hk => hc (hck.trans hk)
        rw [if_neg hk, find?_cons_of_pos (by simp [hck]), find?_cons_of_pos (by simp [hck])]
      · rw [find?_cons_of_neg (by simp [hck]), find?_cons_of_neg (by simp [hck]), ih]

theorem Tracks.call (h : Tracks s calls) {socketPath : Str}
    (hx : s.remotes.get socketPath = some x) (hca : m.messageType = .methodCall) (hne : ∀ c ∈ calls, c.2 ≠ m.serial) :
    Tracks (s.handleRemoteMessage socketPath m) (calls ++ [(x,m.serial)]) ∧
      (s.handleRemoteMessage socketPath m).remotes = s.remotes := by
  have hs : s.handleRemoteMessage socketPath m = { s with routingTable := s.routingTable.set m.serial ⟨m,x⟩ } := by
    unfold Routing.handleRemoteMessage
    rw [hx,hca]
  rw [hs]
  refine ⟨⟨?_,fun n => ?_⟩,rfl⟩
  · rw [map_append,map_singleton,← concat_eq_append]
    refine h.distinct.concat fun hmem => ?_
    obtain ⟨c,hc,hse⟩ := mem_map.1 hmem
    exact hne c hc hse
  · rw [first_append hne,Dict.get_set]
    by_cases hn : n = m.serial
    · rw [if_pos hn,if_pos hn]
      rfl
    · rw [if_neg hn,if_neg hn,h.table]

theorem Tracks.answer (h : Tracks s calls) {n : UInt32}
    (hr : m.messageType = .methodReturn) (hn : m.fields.get .replySerial = some (.num n)) (hx : calls.first n = some x)
    (hf : Forwardable x.remote m) :
    (∃ translated, (s.handleClientAnswer m).1 = [(x.remote.socketPath,translated)]) ∧
      Tracks (s.handleClientAnswer m).2 (calls.without n) ∧ (s.handleClientAnswer m).2.remotes = s.remotes := by
  have hs : m.replySerial = some (.num n) := (if_pos hr).trans hn
  obtain ⟨found,hfo,hc⟩ := map_eq_some_iff.1 ((h.table n).trans hx)
  obtain ⟨translated,ht⟩ := translateToRemote_ok hf
  rw [← hc] at ht ⊢
  have hst : s.handleClientAnswer m =
      ([(found.context.remote.socketPath,translated)],{ s with routingTable := s.routingTable.erase n }) := by
    unfold Routing.handleClientAnswer Routing.popContext
    rw [hs]
    dsimp only
    rw [hfo]
    dsimp only
    rw [ht]
  rw [hst]
  refine ⟨⟨translated,rfl⟩,⟨?_,fun k => ?_⟩,rfl⟩
  · exact (eraseP_sublist.map Prod.snd).nodup h.distinct
  · rw [first_without h.distinct,Dict.get_erase]
    by_cases hk : k = n
    · rw [if_pos hk,if_pos hk]
      rfl
    · rw [if_neg hk,if_neg hk,h.table]

theorem Tracks.reach {es : List Event} (h : Tracks s calls) (hv : Valid s.remotes calls es)
    (hs : Steady s.remotes calls es) : Reach s calls es := by
  induction es generalizing s calls with
  | nil =>
    rintro rfl
    exact Dict.entries_eq_nil fun n => map_eq_none_iff.1 (h.table n)
  | cons e es ih =>
    cases e with
    | call socketPath m =>
      obtain ⟨hc,y,hy,_,hv⟩ := hv
      intro x hx
      cases hy.symm.trans hx
      obtain ⟨hne,hr⟩ := h.call hx hc hs.1
      have hrest := hs.2 y hx
      rw [← hr] at hv hrest
      exact ih hne hv hrest
    | answer m =>
      obtain ⟨_,k,hk,hfirst,hv⟩ := hv
      intro n hn
      cases Option.some.inj (hk.symm.trans hn)
      obtain ⟨x,hx⟩ := ne_none_iff_exists'.1 hfirst
      obtain ⟨hf,hrest⟩ := hs.2 k hn
      obtain ⟨⟨translated,hse⟩,hne,hr⟩ := h.answer hs.1 hn hx (hf x hx)
      rw [← hr] at hv hrest
      exact ⟨⟨x,translated,hx,hse⟩,ih hne hv hrest⟩

/-- In every run without errors and without two waiting calls of one serial number, each answer is
sent to the bus of its call. -/
theorem reach_of_steady {remotes : Dict Str RemoteContext} {es : List Event} (hvalid : Valid remotes [] es)
    (hsteady : Steady remotes [] es) : Reach ⟨remotes,.empty⟩ [] es :=
  Tracks.reach ⟨nodup_nil,fun _ => rfl⟩ hvalid hsteady

def zoneBus : RemoteContext := ⟨⟨"/zone/bus",none,none⟩,.empty,[]⟩
def hostBus : RemoteContext := ⟨⟨"/host/bus",none,none⟩,.empty,[]⟩
def twoBuses : Dict Str RemoteContext := (Dict.empty.set "/zone/bus".toList zoneBus).set "/host/bus".toList hostBus
def incomingCall (serial : UInt32) : Message :=
  Wire.message ⟨.little,1,0,1,serial,callFields "s" (by decide),[],by decide⟩ .methodCall
def answerTo (serial : UInt32) (code : UInt8) (t : MessageType) : Message :=
  Wire.message ⟨.little,code,0,1,9,[.word .replySerial serial rfl],[],
    by simp [fieldBytes,WireField.padded,WireField.bytes,Endian.packWord,align]⟩ t

/-- Calls of two buses, answered in the other order; then the host calls with a serial number that
was used before. -/
theorem reach_two_buses :
    Reach ⟨twoBuses,.empty⟩ [] [.call "/zone/bus".toList (incomingCall 5),.call "/host/bus".toList (incomingCall 6),
    .answer (answerTo 6 2 .methodReturn),.answer (answerTo 5 2 .methodReturn),.call "/host/bus".toList (incomingCall 5),
    .answer (answerTo 5 2 .methodReturn)] := by
  refine reach_of_steady ?_ ?_
  · exact ⟨rfl,zoneBus,rfl,rfl,rfl,hostBus,rfl,rfl,.inl rfl,6,rfl,nofun,.inl rfl,5,rfl,nofun,rfl,hostBus,rfl,
      rfl,.inl rfl,5,rfl,nofun,trivial⟩
  · have hf : ∀ (x : RemoteContext) (m : Message), x.remote.assignedDbusName = none → Forwardable x.remote m :=
      fun _ _ h => .inl h
    refine ⟨nofun,?_⟩
    rintro x ⟨⟩
    refine ⟨by decide,?_⟩
    rintro x ⟨⟩
    refine ⟨rfl,?_⟩
    rintro n ⟨⟩
    refine ⟨by rintro x ⟨⟩; exact hf _ _ rfl,rfl,?_⟩
    rintro n ⟨⟩
    refine ⟨by rintro x ⟨⟩; exact hf _ _ rfl,nofun,?_⟩
    rintro x ⟨⟩
    refine ⟨rfl,?_⟩
    rintro n ⟨⟩
    exact ⟨by rintro x ⟨⟩; exact hf _ _ rfl,trivial⟩

/-- Two buses call with the serial number 5: the answer for the zone is sent to the host, and an
error to no bus. -/
theorem answers_go_astray :
    ¬ Reach ⟨twoBuses,.empty⟩ [] [.call "/zone/bus".toList (incomingCall 5),.call "/host/bus".toList (incomingCall 5),
        .answer (answerTo 5 2 .methodReturn),.answer (answerTo 5 2 .methodReturn)] ∧
      ¬ Reach ⟨twoBuses,.empty⟩ [] [.call "/zone/bus".toList (incomingCall 5),.answer (answerTo 5 3 .error)] := by
  constructor
  · intro h
    obtain ⟨⟨x,translated,hx,hs⟩,_⟩ := h zoneBus rfl hostBus rfl 5 rfl
    cases hx
    have hp : ["/host/bus".toList] = ["/zone/bus".toList] := congrArg (map Prod.fst) hs
    exact absurd hp (by decide)
  · intro h
    obtain ⟨⟨x,translated,hx,hs⟩,_⟩ := h zoneBus rfl 5 rfl
    cases hs

end Padsi.Dbus
