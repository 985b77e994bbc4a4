import Padsi.Dbus.Buffer

/-! # Routing of calls

The bus of a call is chosen by the first of several lookups that finds one; then its
interface is compared with the selectors.
-/
namespace Padsi.Dbus
open Text Python List Option Except

def busName : Str := "org.freedesktop.DBus"

structure Selector where
  socketPath : Str
  service : Option Str
  objectPath : Option Str
  interfaces : List Str

namespace Selector

def matchService (s : Selector) (name : Value) : Bool :=
  match s.service with
  | none => false
  | some service => decide (name = .text service)

def matchObjectPath (s : Selector) (path : Str) : Bool :=
  match s.objectPath with
  | none => false
  | some objectPath => startsWith objectPath path

def matchInterface (s : Selector) (iface : Str) : Bool :=
  decide (iface ∈ s.interfaces) || startsWith "org.freedesktop.DBus." iface

end Selector

inductive NoticeableCall where
  | hello
  | getNameOwner
  | addMatch
  | removeMatch
  | startServiceByName
  | createSession
deriving DecidableEq, Repr

def NoticeableCall.text : NoticeableCall → Str
  | .hello => "Hello"
  | .getNameOwner => "GetNameOwner"
  | .addMatch => "AddMatch"
  | .removeMatch => "RemoveMatch"
  | .startServiceByName => "StartServiceByName"
  | .createSession => "CreateSession"

def noticeableCalls : List NoticeableCall :=
  [.hello,.getNameOwner,.addMatch,.removeMatch,.startServiceByName,.createSession]
def readNoticeableCall (member : Option Value) : Option NoticeableCall :=
  noticeableCalls.find? fun n => member = some (.text n.text)

/-- A connection to a bus: the name that the client knows, and the one that the bus gave. -/
structure Remote where
  socketPath : Str
  clientDbusName : Option Str
  assignedDbusName : Option Str

structure RemoteContext where
  remote : Remote
  nameOwners : Dict Str Str
  objects : List Str

def RemoteContext.owned (x : RemoteContext) : Value → Option Str
  | .text name => x.nameOwners.get name
  | .num _ => none

structure Client where
  selectors : List Selector
  defaultDbusSocket : Str
  remotes : Dict Str RemoteContext
  connectionNameAllocatingServer : Option Str

namespace Message

def unmarshallBody (m : Message) (signature : Str) : Except Exc Str :=
  match signature with
  | 's' :: _ | 'o' :: _ => ((unmarshallString m.endian (m.blob.drop m.headerLength)).mapError Exc.invalid).map Prod.fst
  | 'g' :: _ => ((unmarshallSignature (m.blob.drop m.headerLength)).mapError Exc.invalid).map Prod.fst
  | [] => .error .index
  | _ => .error (.bodySignature signature)

def quote : Char := Char.ofNat 39

def callRulePart (kv : Str) : Option (Str × Str) :=
  match kv.splitOn '=' with
  | [_,[]] => none
  | [key,value] =>
    some (key,if value.head? = some quote ∧ value.getLast? = some quote then (value.drop 1).dropLast else value)
  | _ => none

def getCallRule (m : Message) : Except Exc (Dict Str Str) :=
  if m.fields.get .signature = some (.text ['s']) then
    match m.unmarshallBody ['s'] with
    | .error _ => .error .callRule
    | .ok data =>
      match (data.splitOn ',').mapM callRulePart with
      | none => .error .callRule
      | some parts => .ok (parts.foldl (fun d p => d.set p.1 p.2) .empty)
  else .error .callRule

def identifyNoticeableCall (m : Message) (context : Option RemoteContext) : Option NoticeableCall :=
  if m.messageType ≠ .methodCall then none
  else (if m.fields.get .destination = some (.text busName) ∧
    m.fields.get .path = some (.text "/org/freedesktop/DBus") ∧
      m.fields.get .interface = some (.text busName) then readNoticeableCall (m.fields.get .member) else none).or
    (context.bind fun x =>
      if (m.fields.get .destination).map (fun d => ((x.owned d).map Value.text).getD d) =
        some (.text "org.freedesktop.portal.Desktop") ∧
          m.fields.get .path = some (.text "/org/freedesktop/portal/desktop") ∧
          m.fields.get .interface =
            some (.text "org.freedesktop.portal.ScreenCast") then readNoticeableCall (m.fields.get .member)
      else none)

end Message

namespace Client

def selectorsMatchService (c : Client) (name : Value) : Option Str :=
  (c.selectors.find? fun s => s.matchService name).map Selector.socketPath
def selectorsMatchObjectPath (c : Client) (path : Str) : Option Str :=
  (c.selectors.find? fun s => s.matchObjectPath path).map Selector.socketPath

/-- A number has no `startswith`: the first selector raises an exception. -/
def selectorsMatchInterface (c : Client) : Value → Except Exc (Option Str)
  | .text iface => .ok ((c.selectors.find? fun s => s.matchInterface iface).map Selector.socketPath)
  | .num _ => if c.selectors = [] then .ok none else .error .attribute

def byAllocation (c : Client) : Option Str :=
  if c.remotes.entries.length = 0 then c.connectionNameAllocatingServer else none

section
variable (c : Client) (m : Message)

def byDestination : Option Str := (m.fields.get .destination).bind c.selectorsMatchService

def ofRule (rule : Dict Str Str) : Option Str × Option Str :=
  let named := (rule.get "arg0").bind fun name =>
    ((c.selectors.find? fun s => s.matchInterface name).map Selector.socketPath).or
      (c.selectorsMatchService (.text name))
  let sent := if rule.get "type" = some "signal".toList then
      (rule.get "sender").bind fun sender => c.selectorsMatchService (.text sender)
    else none
  (named.or sent,if named = none then rule.get "path" else none)

def byCall : Option NoticeableCall → Except Exc (Option Str × Option Str)
  | some .addMatch | some .removeMatch =>
    match m.getCallRule with
    | .ok rule => .ok (c.ofRule rule)
    | .error _ => .ok (none,none)
  | some .startServiceByName => do
    let name ← m.unmarshallBody "su"
    return (c.selectorsMatchService (.text name),none)
  | _ => .ok (none,none)

def byObjectPath (path : Option Str) : Option Str := path.bind fun p =>
  (c.selectorsMatchObjectPath p).or ((c.remotes.entries.find? fun r => decide (p ∈ r.2.objects)).map Prod.fst)
def byNameOwner : Option Str := (m.fields.get .destination).bind fun d =>
  c.remotes.entries.findSome? fun r => (r.2.owned d).bind fun name => c.selectorsMatchService (.text name)

def byNameQuery : Option NoticeableCall → Except Exc (Option Str)
  | some .getNameOwner => do
    let name ← m.unmarshallBody "s"
    return c.selectorsMatchService (.text name)
  | _ => .ok none

def candidate : Except Exc (Option Str) :=
  match c.byAllocation.or (c.byDestination m) with
  | some socketPath => .ok (some socketPath)
  | none => do
    let found ← c.byCall m (m.identifyNoticeableCall none)
    match found.1.or ((c.byObjectPath found.2).or (c.byNameOwner m)) with
    | some socketPath => .ok (some socketPath)
    | none => c.byNameQuery m (m.identifyNoticeableCall none)

def permits (socketPath : Str) : Except Exc Bool :=
  if m.identifyNoticeableCall none = some .hello then .ok true
  else
    match m.fields.get .interface with
    | none => .ok true
    | some iface => if iface = .text busName then .ok true
      else (c.selectorsMatchInterface iface).map fun sp => decide (sp = some socketPath)

def getRemoteToRouteTo : Except Exc Str := do
  match ← c.candidate m with
  | none => return c.defaultDbusSocket
  | some socketPath =>
    let allowed ← c.permits m socketPath
    return if allowed then socketPath else c.defaultDbusSocket

end

end Client

/-- The interface of a message is one of the bus, or one that a selector of the socket lists. -/
def Allowed (c : Client) (m : Message) (socketPath : Str) : Prop :=
  ∃ iface, m.fields.get .interface = some (.text iface) ∧
  (iface = busName ∨ "org.freedesktop.DBus." <+: iface ∨ ∃ s ∈ c.selectors, s.socketPath = socketPath ∧
    iface ∈ s.interfaces)

def Guarded (c : Client) (m : Message) : Prop :=
  ∀ socketPath, c.getRemoteToRouteTo m = .ok socketPath → socketPath ≠ c.defaultDbusSocket → Allowed c m socketPath

/-- The bus of the first name, else of the destination, else of the service that it owns. -/
def Client.byName (c : Client) (m : Message) : Option Str :=
  c.byAllocation.or ((c.byDestination m).or (c.byNameOwner m))

theorem route_eq_ok {c : Client} {m : Message} {socketPath : Str} (h : c.getRemoteToRouteTo m = .ok socketPath)
    (hne : socketPath ≠ c.defaultDbusSocket) : c.permits m socketPath = .ok true := by
  obtain ⟨found,_,h⟩ := bind_eq_ok.1 h
  cases found with
  | none => exact absurd (ok.inj h).symm hne
  | some sp =>
    obtain ⟨allowed,ha,h⟩ := bind_eq_ok.1 h
    cases allowed with
    | false => exact absurd (ok.inj h).symm hne
    | true =>
      cases h
      exact ha

theorem interface_of_noticeable {m : Message} {n : NoticeableCall} (h : m.identifyNoticeableCall none = some n) :
    m.fields.get .interface = some (.text busName) := by
  unfold Message.identifyNoticeableCall at h
  split at h
  · cases h
  · rw [bind_none,or_none] at h
    split at h
    · rename_i hb
      exact hb.2.2
    · cases h

theorem allowed_of_permits {c : Client} {m : Message} {iface : Value}
    (hi : m.fields.get .interface = some iface) {socketPath : Str}
    (h : c.permits m socketPath = .ok true) : Allowed c m socketPath := by
  unfold Client.permits at h
  split at h
  · rename_i hh
    exact ⟨busName,interface_of_noticeable hh,.inl rfl⟩
  · rw [hi] at h
    dsimp only at h
    split at h
    · rename_i hb
      exact ⟨busName,by rw [hi,hb],.inl rfl⟩
    · cases iface with
      | num n =>
        by_cases hnone : c.selectors = []
        · rw [Client.selectorsMatchInterface,if_pos hnone] at h
          cases of_decide_eq_true (ok.inj h)
        · rw [Client.selectorsMatchInterface,if_neg hnone] at h
          cases h
      | text t =>
        have hf := of_decide_eq_true (ok.inj h)
        obtain ⟨s,hs,hpath⟩ := map_eq_some_iff.1 hf
        have hm := find?_some hs
        rw [Selector.matchInterface,Bool.or_eq_true,decide_eq_true_iff,startsWith_iff] at hm
        refine ⟨t,hi,.inr ?_⟩
        rcases hm with hl | hb
        · exact .inr ⟨s,mem_of_find?_eq_some hs,hpath,hl⟩
        · exact .inl hb

theorem route_without_interface {c : Client} {m : Message} (h : m.fields.get .interface = none) :
    c.getRemoteToRouteTo m = .ok ((c.byName m).getD c.defaultDbusSocket) := by
  have hc : m.identifyNoticeableCall none = none := by
    cases hn : m.identifyNoticeableCall none with
    | none => rfl
    | some n =>
      rw [interface_of_noticeable hn] at h
      cases h
  have hca : c.candidate m = .ok (c.byName m) := by
    unfold Client.candidate Client.byName
    rw [hc,← Option.or_assoc]
    cases c.byAllocation.or (c.byDestination m) with
    | some sp => rfl
    | none =>
      change (match (none : Option Str).or
        ((c.byObjectPath none).or (c.byNameOwner m)) with | some sp => _ | none => _) = _
      cases ho : c.byNameOwner m <;> rfl
  have hp : ∀ sp, c.permits m sp = .ok true := by
    intro sp
    unfold Client.permits
    rw [hc,h]
    rfl
  refine bind_eq_ok.2 ⟨_,hca,?_⟩
  cases c.byName m with
  | none => rfl
  | some sp => exact bind_eq_ok.2 ⟨true,hp sp,rfl⟩

/-- Only allowed interfaces are exposed, exactly if the message has an interface or its names lead
to no other bus. -/
theorem guarded_iff (c : Client) (m : Message) :
    Guarded c m ↔ m.fields.get .interface ≠ none ∨ ∀ socketPath ∈ c.byName m, socketPath = c.defaultDbusSocket := by
  cases hi : m.fields.get .interface with
  | some iface =>
    refine ⟨fun _ => .inl (by simp),fun _ socketPath hr hne => ?_⟩
    exact allowed_of_permits hi (route_eq_ok hr hne)
  | none =>
    have hr := route_without_interface (c := c) hi
    constructor
    · intro h
      refine .inr fun socketPath hname => ?_
      by_contra hne
      rw [mem_def.1 hname] at hr
      obtain ⟨iface,hs,_⟩ := h socketPath hr hne
      rw [hi] at hs
      cases hs
    · rintro (h | h) socketPath hok hne
      · exact absurd rfl h
      · rw [hr] at hok
        cases hname : c.byName m with
        | none =>
          rw [hname] at hok
          exact absurd (ok.inj hok).symm hne
        | some sp =>
          rw [hname] at hok
          have hsa : sp = socketPath := ok.inj hok
          exact absurd (h socketPath (by rw [hname,hsa]; rfl)) hne

def portal : Selector :=
  ⟨"/host/bus",some "org.freedesktop.portal.Desktop",none,["org.freedesktop.portal.ScreenCast"]⟩
def zoneClient : Client := ⟨[portal],"/zone/bus",.empty,none⟩

def openUri : Wire :=
  ⟨.little,1,0,1,2,[.string .path "/org/freedesktop/portal/desktop" HeaderType.IsText.path.kind (by decide),
    .string .member "OpenURI" HeaderType.IsText.member.kind (by decide),
    .string .destination "org.freedesktop.portal.Desktop" HeaderType.IsText.destination.kind (by decide)],[],
      by decide +kernel⟩

/-- The call reaches the bus of the host. -/
theorem openUri_not_guarded : Message.parse openUri.encode = .ok (openUri.message .methodCall) ∧
    (openUri.message .methodCall).identifyNoticeableCall none = none ∧
      ¬ Guarded zoneClient (openUri.message .methodCall) := by
  have hk : ∀ f ∈ openUri.fields, f.content.isSome = true := by decide
  have hp := Wire.parse_encode rfl hk []
  rw [append_nil] at hp
  have hr : zoneClient.getRemoteToRouteTo (openUri.message .methodCall) = .ok "/host/bus" := by rfl
  refine ⟨hp,by decide,fun h => ?_⟩
  obtain ⟨iface,hi,_⟩ := h _ hr (by decide)
  cases hi

end Padsi.Dbus
