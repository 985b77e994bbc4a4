import Padsi.Wayland.ProxyBuffer

/-! # The filter of one connection

One optional object id per interface survives from chunk to chunk, and each search looks
at the first matching message only.
-/
namespace Padsi.Wayland
open Rust

structure ProxyState where
  /-- defined objects, one slot for each interface -/
  slot : WlInterface → Option UInt32
  coreEventsToBlock : List (WlInterface × UInt16)
  x11EventsToBlock : List (WlInterface × UInt16)
  releaseOpcodes : WlInterface → Option UInt16

namespace ProxyState

def new (enforceBlocking : Bool) : ProxyState where
  slot _ := none
  coreEventsToBlock := if enforceBlocking then [(.wlDataOffer,doEOffer)] else []
  x11EventsToBlock := if enforceBlocking then [(.zwpPrimarySelectionOffer,zpwPsoEOffer)] else []
  releaseOpcodes
    | .wlDataDeviceManager => some ddmRDestroy
    | .wlDataDevice => some ddRDestroy
    | .wlDataSource => some dsRDestroy
    | .wlDataOffer => some doRDestroy
    | .zwpPrimarySelectionDeviceManager => some zpwPdsmRDestroy
    | .zwpPrimarySelectionDevice => some zpwPsdRDestroy
    | .zwpPrimarySelectionOffer => some zpwPsoRDestroy

section
variable (st : ProxyState) (interface : WlInterface)

def setSlot (value : Option UInt32) : ProxyState :=
  { st with slot := fun i => if i = interface then value else st.slot i }
def objectCreated (oid : UInt32) : ProxyState :=
  st.setSlot interface (some oid)
def hasInterface : Bool := (st.slot interface).isSome
def getObjectId : Option UInt32 := st.slot interface

def lookupOrder : List WlInterface :=
  [.wlDataDeviceManager,.wlDataDevice,.wlDataOffer,.wlDataSource,.zwpPrimarySelectionDeviceManager,
    .zwpPrimarySelectionDevice,.zwpPrimarySelectionOffer]

def getInterface (oid : UInt32) : Option WlInterface :=
  lookupOrder.find? (fun i => st.slot i == some oid)

def deleteObjectId (oid : UInt32) : ProxyState :=
  match st.getInterface oid with
  | some i => st.setSlot i none
  | none => st

def getMatchingMessages (msgs : List MessageMeta) : List MessageMeta :=
  msgs.filter (fun msg => (st.getInterface msg.objectId).isSome)

end

def blockCount (events : List (WlInterface × UInt16)) (interface : WlInterface) (opcode : UInt16) : ℕ :=
  (events.filter (fun e => e.1 == interface && e.2 == opcode)).length

section
variable (st : ProxyState) (blockCore blockX11 : Bool) (msg : MessageMeta)

def toBlock : Bool :=
  match st.getInterface msg.objectId with
  | some interface =>
    let nb := if blockCore then blockCount st.coreEventsToBlock interface msg.opcode else 0
    let nb := if nb == 0 && blockX11 then blockCount st.x11EventsToBlock interface msg.opcode else nb
    nb > 0
  | none => false

def getMessagesToBlock (msgs : List MessageMeta) : List MessageMeta := msgs.filter (st.toBlock blockCore blockX11)

def handleDestroyMessage : ProxyState :=
  match st.getInterface msg.objectId with
  | some iface =>
    match st.releaseOpcodes iface with
    | some destroyOpcode => if destroyOpcode = msg.opcode then st.deleteObjectId msg.objectId else st
    | none => st
  | none => st

def handleDestroyMessages (msgs : List MessageMeta) : ProxyState :=
  msgs.foldl handleDestroyMessage st

end

@[simp] theorem setSlot_slot (st : ProxyState) (i j : WlInterface) (v : Option UInt32) :
    (st.setSlot i v).slot j = if j = i then v else st.slot j := rfl
@[simp] theorem setSlot_releaseOpcodes (st : ProxyState) (i : WlInterface) (v : Option UInt32) :
    (st.setSlot i v).releaseOpcodes = st.releaseOpcodes := rfl

theorem setSlot_self {st : ProxyState} {i : WlInterface} {v : Option UInt32} (h : st.slot i = v) :
    st.setSlot i v = st := by
  have hf : (fun j => if j = i then v else st.slot j) = st.slot := by
    funext j
    by_cases hj : j = i
    · rw [if_pos hj,hj,h]
    · rw [if_neg hj]
  unfold setSlot
  rw [hf]

end ProxyState

section
variable (T : Target) (b : ProxyBuffer) (st : ProxyState)

def ProxyBuffer.matchingMessages : Partial (List MessageMeta) := do
  return st.getMatchingMessages (← b.messages T)

def discover (interface : WlInterface) (objId : Option UInt32)
    (opcode : UInt16) (text : Option Str) (endOffset : ℕ) : Partial ProxyState := do
  match ← b.searchReferencedObjectId T objId opcode text endOffset with
  | some oid => return st.objectCreated interface oid
  | none => return st

def discoverManager (manager : WlInterface) : Partial ProxyState :=
  if (st.getObjectId manager).isNone then discover T b st manager none 0 (some manager.id) 0 else .ok st

def discoverDevice (manager device : WlInterface) (opcode : UInt16) : Partial ProxyState :=
  if (st.getObjectId manager).isSome && !st.hasInterface device then
    discover T b st device (st.getObjectId manager) opcode none wordSize
  else .ok st

def discoverSource : Partial ProxyState :=
  if (st.getObjectId .wlDataSource).isNone then
    discover T b st .wlDataSource (st.getObjectId .wlDataDeviceManager) ddmRCreateDataSource none 0
  else .ok st

def tagSource (conf : ProxyConfig) (b : ProxyBuffer) (st : ProxyState) : Partial ProxyBuffer :=
  match st.getObjectId .wlDataSource with
  | some wlDsOid => do
    match ← b.search T (some wlDsOid) dsROffer none with
    | some wlDsOffer =>
      b.debugMessages [wlDsOffer]
      b.insertZoneNameTag T wlDsOffer.index wlDsOid conf.zone
    | none => return b
  | none => .ok b

def logReceive : Partial Unit :=
  match st.getObjectId .wlDataOffer with
  | some wlDoOid => do
    match ← b.search T (some wlDoOid) doRReceive none with
    | some msg => b.debugMessages [msg]
    | none => return ()
  | none => .ok ()

end

section
variable (T : Target) (conf : ProxyConfig) (st : ProxyState) (data : List UInt8) (ndata : ℕ)

def proxyClientToServer : Partial (ProxyState × List UInt8 × ℕ) := do
  let b : ProxyBuffer := ⟨data,ndata⟩
  b.trace T
  let st ← discoverManager T b st .wlDataDeviceManager
  let st ← discoverDevice T b st .wlDataDeviceManager .wlDataDevice ddmRGetDataDevice
  let st ← discoverManager T b st .zwpPrimarySelectionDeviceManager
  let st ← discoverDevice T b st .zwpPrimarySelectionDeviceManager .zwpPrimarySelectionDevice zpwPdsmRGetDevice
  if (st.getObjectId .wlDataDeviceManager).isSome then
    let st ← discoverSource T b st
    let b ← tagSource T conf b st
    logReceive T b st
    let msgs ← b.matchingMessages T st
    let st := if !msgs.isEmpty then st.handleDestroyMessages msgs else st
    return (st,b.data,b.size)
  else
    return (st,b.data,b.size)

def offerDecision (b : ProxyBuffer) (st : ProxyState) : Partial (ProxyState × Bool) :=
  match st.getObjectId .wlDataDevice with
  | some wlDdOid => do
    match ← b.searchReferencedObjectId T (some wlDdOid) ddEDataOffer none 0 with
    | some wlDoOid =>
      let st := st.objectCreated .wlDataOffer wlDoOid
      match ← b.searchZoneNameTag T wlDoOid with
      | some zoneName => return (st,!conf.zoneIsAuthorized zoneName)
      | none => return (st,!conf.allowNoZone)
    | none => return (st,false)
  | none => .ok (st,false)

def primaryDecision (b : ProxyBuffer) (st : ProxyState) : Partial (ProxyState × Bool) :=
  match st.getObjectId .zwpPrimarySelectionDevice with
  | some zwpPsdOid => do
    match ← b.searchReferencedObjectId T (some zwpPsdOid) zpwPsdEDataOffer none 0 with
    | some zwpOOid => return (st.objectCreated .zwpPrimarySelectionOffer zwpOOid,true)
    | none => return (st,false)
  | none => .ok (st,false)

def blockMessages (b : ProxyBuffer) (st : ProxyState) (blockCore blockX11 : Bool) : Partial ProxyBuffer :=
  if conf.enforce && (blockCore || blockX11) then do
    let msgs ← b.matchingMessages T st
    if !msgs.isEmpty then
      let msgsToBlock := st.getMessagesToBlock blockCore blockX11 msgs
      if msgsToBlock.length > 0 then
        b.debugMessages msgsToBlock
        b.removeMessages T msgsToBlock
      else return b
    else return b
  else .ok b

def proxyServerToClient : Partial (ProxyState × List UInt8 × ℕ) := do
  let b : ProxyBuffer := ⟨data,ndata⟩
  b.trace T
  if st.hasInterface .wlDataDeviceManager then
    let (st,blockCore) ← offerDecision T conf b st
    let (st,blockX11) ← primaryDecision T b st
    let b ← blockMessages T conf b st blockCore blockX11
    return (st,b.data,b.size)
  else
    return (st,b.data,b.size)

end

end Padsi.Wayland
