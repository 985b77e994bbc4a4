import Padsi.Wayland.Removal

/-! # When a call returns

Each stage of the filter is rewritten as a total function, with the exact condition under
which the partial one returns.
-/
namespace Padsi.Wayland
open Rust List ProxyState ProxyBuffer Utf8

namespace ProxyBuffer

def referenced (T : Target) (b : ProxyBuffer) (objId : Option UInt32) (opcode : UInt16) (text : Option Str)
    (endOffset : ℕ) : Option UInt32 :=
  (b.found T objId opcode text).bind (fun m =>
    if endOffset + wordSize ≤ (m.payloadOf b.data).length then wordBefore T (m.payloadOf b.data) endOffset
    else none)

def Readable (T : Target) (b : ProxyBuffer) (objId : Option UInt32) (opcode : UInt16) (text : Option Str)
    (endOffset : ℕ) : Prop :=
  ∀ m, b.found T objId opcode text = some m → WordReadable T (m.payloadOf b.data) endOffset

variable {T : Target} {b : ProxyBuffer} {objId : Option UInt32} {opcode : UInt16} {text : Option Str} {endOffset : ℕ}

theorem exactly_searchReferencedObjectId (he : endOffset < usizeModulus) :
    Exactly (b.searchReferencedObjectId T objId opcode text endOffset)
    (b.Readable T objId opcode text endOffset) (b.referenced T objId opcode text endOffset) := by
  rw [searchReferencedObjectId_eq]
  unfold referenced Readable
  cases hf : b.found T objId opcode text with
  | none => exact (exactly_ok none).congr (by simp)
  | some m =>
    have hm := found_inBuffer hf
    refine ⟨fun h => ?_,fun h m' hm' => ?_⟩
    · rcases h m rfl with hw | ⟨hc,hs⟩
      · simp [extract_of_le T hm hw,hw]
      · have hlt : (m.payloadOf b.data).length < endOffset + wordSize := by omega
        simp [extract_of_lt T hm he hlt,hc,hs,Nat.not_le.2 hlt]
    · cases hm'
      exact (returns_extract T hm he).1 h

theorem readable_of_text {t : Str} (ht : wordSize ≤ t.length) : b.Readable T objId opcode (some t) 0 := by
  intro m hf
  have hh := find?_some hf
  simp only [hit,Option.all_some,Bool.and_eq_true,containsSub_iff] at hh
  have hl := hh.2.2.length_le
  left
  omega

end ProxyBuffer

theorem wordSize_lt : wordSize < usizeModulus := by
  have h := usizeModulus_gt
  unfold wordSize
  omega

theorem zero_lt_usizeModulus : 0 < usizeModulus := by
  have h := usizeModulus_gt
  omega

section
variable (T : Target) (b : ProxyBuffer) (st : ProxyState) (manager : WlInterface)

def managerId : Option UInt32 :=
  match st.slot manager with
  | some oid => some oid
  | none => b.referenced T none 0 (some manager.id) 0

def deviceId (device : WlInterface) (opcode : UInt16) : Option UInt32 :=
  match st.slot device, managerId T b st manager with
  | some oid, _ => some oid
  | none, some mid => b.referenced T (some mid) opcode none wordSize
  | none, none => none

def sourceId : Option UInt32 :=
  match st.slot .wlDataSource, managerId T b st .wlDataDeviceManager with
  | some oid, _ => some oid
  | none, some mid => b.referenced T (some mid) ddmRCreateDataSource none 0
  | none, none => none

def discovered : ProxyState :=
  { st with slot := fun i => match i with
      | .wlDataDeviceManager => managerId T b st .wlDataDeviceManager
      | .wlDataDevice => deviceId T b st .wlDataDeviceManager .wlDataDevice ddmRGetDataDevice
      | .wlDataSource => sourceId T b st
      | .zwpPrimarySelectionDeviceManager => managerId T b st .zwpPrimarySelectionDeviceManager
      | .zwpPrimarySelectionDevice =>
        deviceId T b st .zwpPrimarySelectionDeviceManager .zwpPrimarySelectionDevice zpwPdsmRGetDevice
      | i => st.slot i }

end

variable {T : Target} {b : ProxyBuffer} {st st' : ProxyState} {opcode : UInt16} {manager : WlInterface}

theorem exactly_discover {interface : WlInterface} {objId : Option UInt32} {text : Option Str} {endOffset : ℕ}
    (he : endOffset < usizeModulus) (hs : st.slot interface = none) :
    Exactly (discover T b st interface objId opcode text endOffset)
      (b.Readable T objId opcode text endOffset)
        (st.setSlot interface (b.referenced T objId opcode text endOffset)) := by
  refine (exactly_searchReferencedObjectId he).bind_ok ?_
  cases hr : b.referenced T objId opcode text endOffset with
  | none => simp [setSlot_self hs]
  | some oid => simp [objectCreated]

theorem discoverManager_eq (T : Target) (b : ProxyBuffer) (st : ProxyState)
    (hm : wordSize ≤ manager.id.length) :
    discoverManager T b st manager =
      .ok (st.setSlot manager (managerId T b st manager)) := by
  unfold discoverManager managerId getObjectId
  cases hs : st.slot manager with
  | some oid => simp [setSlot_self hs]
  | none =>
    simp only [Option.isNone_none,↓reduceIte]
    exact (exactly_discover zero_lt_usizeModulus hs).eq (readable_of_text hm)

def DeviceReadable (T : Target) (b : ProxyBuffer) (st : ProxyState) (manager device : WlInterface)
    (opcode : UInt16) : Prop :=
  ∀ mid, managerId T b st manager = some mid → st.slot device = none →
    b.Readable T (some mid) opcode none wordSize

theorem exactly_discoverDevice (st : ProxyState) {device : WlInterface}
    (hm : st'.slot manager = managerId T b st manager) (hd : st'.slot device = st.slot device) :
    Exactly (discoverDevice T b st' manager device opcode) (DeviceReadable T b st manager device opcode)
      (st'.setSlot device (deviceId T b st manager device opcode)) := by
  unfold discoverDevice deviceId getObjectId hasInterface DeviceReadable
  rw [hm,hd]
  cases hs : st.slot device with
  | some oid => simpa [setSlot_self (hd.trans hs)] using exactly_ok st'
  | none =>
    cases hmi : managerId T b st manager with
    | none => simpa [setSlot_self (hd.trans hs)] using exactly_ok st'
    | some mid =>
      simp only [Option.isSome_some,Option.isSome_none,Bool.not_false,Bool.and_self,↓reduceIte]
      exact (exactly_discover wordSize_lt (hd.trans hs)).congr (by simp)

def SourceReadable (T : Target) (b : ProxyBuffer) (st : ProxyState) : Prop :=
  ∀ mid, managerId T b st .wlDataDeviceManager = some mid → st.slot .wlDataSource = none →
    b.Readable T (some mid) ddmRCreateDataSource none 0

theorem exactly_discoverSource {mid : UInt32} (hmi : managerId T b st .wlDataDeviceManager = some mid)
    (hm : st'.slot .wlDataDeviceManager = some mid) (hd : st'.slot .wlDataSource = st.slot .wlDataSource) :
    Exactly (discoverSource T b st') (SourceReadable T b st) (st'.setSlot .wlDataSource (sourceId T b st)) := by
  unfold discoverSource sourceId getObjectId SourceReadable
  rw [hm,hd,hmi]
  cases hs : st.slot .wlDataSource with
  | some oid => simpa [setSlot_self (hd.trans hs)] using exactly_ok st'
  | none =>
    simp only [Option.isNone_none,↓reduceIte]
    exact (exactly_discover zero_lt_usizeModulus (hd.trans hs)).congr (by simp)

section
variable (T : Target) (conf : ProxyConfig) (b : ProxyBuffer) (st : ProxyState)

def taggedBuffer : ProxyBuffer :=
  match st.slot .wlDataSource with
  | some oid =>
    match b.found T (some oid) dsROffer none with
    | some m =>
      let tag := createZoneRawMessage T oid conf.zone
      ⟨b.data.take m.index ++ tag ++ b.data.drop m.index,b.size + tag.length⟩
    | none => b
  | none => b

theorem insertZoneNameTag_eq {position : ℕ} (oid : UInt32) (zone : Str) (h : position ≤ b.data.length) :
    b.insertZoneNameTag T position oid zone =
      .ok ⟨b.data.take position ++ createZoneRawMessage T oid zone ++ b.data.drop position,
        b.size + (createZoneRawMessage T oid zone).length⟩ := by
  unfold insertZoneNameTag
  simp only [splice_ok _ le_rfl h,ok_bind]
  generalize hb : (⟨b.data.take position ++ createZoneRawMessage T oid zone ++ b.data.drop position,
    b.size + (createZoneRawMessage T oid zone).length⟩ : ProxyBuffer) = b'
  rcases fromData_total T b'.data position with ⟨e,he⟩ | ⟨m,hm,hi,hs,hl⟩
  · subst hb
    dsimp only at he
    simp only [he,ok_bind,pure_eq_ok]
  · have hd := debugMessages_singleton b' (m := m) ⟨hs,by omega⟩
    subst hb
    simp only [hm,ok_bind,hd]
    rfl

theorem tagSource_eq : tagSource T conf b st = .ok (taggedBuffer T conf b st) := by
  unfold tagSource taggedBuffer getObjectId
  cases st.slot .wlDataSource with
  | none => rfl
  | some oid =>
    simp only [search_eq,ok_bind]
    cases hf : b.found T (some oid) dsROffer none with
    | none => rfl
    | some m =>
      have hm := found_inBuffer hf
      have hd := debugMessages_singleton b hm
      have hi : m.index ≤ b.data.length := by have := hm.2; omega
      simp only [hd,ok_bind]
      exact insertZoneNameTag_eq T b oid conf.zone hi

theorem logReceive_eq : logReceive T b st = .ok () := by
  unfold logReceive getObjectId
  cases st.slot .wlDataOffer with
  | none => rfl
  | some oid =>
    simp only [search_eq,ok_bind]
    cases hf : b.found T (some oid) doRReceive none with
    | none => rfl
    | some m => exact debugMessages_singleton b (found_inBuffer hf)

end

structure ClientReadable (T : Target) (b : ProxyBuffer) (st : ProxyState) : Prop where
  device : DeviceReadable T b st .wlDataDeviceManager .wlDataDevice ddmRGetDataDevice
  primary : DeviceReadable T b st .zwpPrimarySelectionDeviceManager .zwpPrimarySelectionDevice zpwPdsmRGetDevice
  source : SourceReadable T b st

def clientResult (T : Target) (conf : ProxyConfig) (b : ProxyBuffer) (st : ProxyState) :
    ProxyState × List UInt8 × ℕ :=
  let st' := discovered T b st
  if (st'.slot .wlDataDeviceManager).isSome then
    let b' := taggedBuffer T conf b st'
    (st'.handleDestroyMessages (st'.getMatchingMessages (b'.parsed T)),b'.data,b'.size)
  else (st',b.data,b.size)

theorem managerId_congr (st : ProxyState) (manager : WlInterface)
    (h : st'.slot manager = st.slot manager) : managerId T b st' manager = managerId T b st manager := by
  unfold managerId
  rw [h]

theorem ddm_id_length : wordSize ≤ WlInterface.wlDataDeviceManager.id.length := by decide
theorem psdm_id_length : wordSize ≤ WlInterface.zwpPrimarySelectionDeviceManager.id.length := by decide

section
variable {T : Target} {conf : ProxyConfig} {st : ProxyState} {data : List UInt8} {n : ℕ}

def devicesDiscovered (T : Target) (b : ProxyBuffer) (st : ProxyState) : ProxyState :=
  (discovered T b st).setSlot .wlDataSource (st.slot .wlDataSource)

theorem exactly_devices (b : ProxyBuffer) : Exactly
    (do let st ← discoverManager T b st .wlDataDeviceManager
        let st ← discoverDevice T b st .wlDataDeviceManager .wlDataDevice ddmRGetDataDevice
        let st ← discoverManager T b st .zwpPrimarySelectionDeviceManager
        discoverDevice T b st .zwpPrimarySelectionDeviceManager .zwpPrimarySelectionDevice zpwPdsmRGetDevice)
    (DeviceReadable T b st .wlDataDeviceManager .wlDataDevice ddmRGetDataDevice ∧
      DeviceReadable T b st .zwpPrimarySelectionDeviceManager .zwpPrimarySelectionDevice zpwPdsmRGetDevice)
        (devicesDiscovered T b st) := by
  rw [discoverManager_eq T b st ddm_id_length,ok_bind]
  refine (exactly_discoverDevice st (by simp) (by simp)).bind ?_
  rw [discoverManager_eq T b _ psdm_id_length,ok_bind,managerId_congr st .zwpPrimarySelectionDeviceManager (by simp)]
  convert exactly_discoverDevice st ?_ ?_ using 1
  · unfold devicesDiscovered setSlot
    congr 1
    funext i
    cases i <;> simp [discovered]
  · simp
  · simp

theorem proxyClientToServer_stages (T : Target) (conf : ProxyConfig) (st : ProxyState) (data : List UInt8) (n : ℕ) :
    proxyClientToServer T conf st data n =
      ((do let st ← discoverManager T ⟨data,n⟩ st .wlDataDeviceManager
           let st ← discoverDevice T ⟨data,n⟩ st .wlDataDeviceManager .wlDataDevice ddmRGetDataDevice
           let st ← discoverManager T ⟨data,n⟩ st .zwpPrimarySelectionDeviceManager
           discoverDevice T ⟨data,n⟩ st .zwpPrimarySelectionDeviceManager .zwpPrimarySelectionDevice
             zpwPdsmRGetDevice) >>= fun st =>
        if (st.getObjectId .wlDataDeviceManager).isSome then do
          let st ← discoverSource T ⟨data,n⟩ st
          let b := taggedBuffer T conf ⟨data,n⟩ st
          return (st.handleDestroyMessages (st.getMatchingMessages (b.parsed T)),b.data,b.size)
        else return (st,data,n)) := by
  have hm : ∀ (st : ProxyState) (msgs : List MessageMeta),
      (if !msgs.isEmpty then st.handleDestroyMessages msgs else st) = st.handleDestroyMessages msgs := by
    intro st msgs
    cases msgs <;> simp [handleDestroyMessages]
  simp only [proxyClientToServer,trace_ok,ok_bind,bind_assoc,tagSource_eq,logReceive_eq,
    matchingMessages,messages_eq,pure_eq_ok,hm]

/-- The steps of a client chunk in their order, each with what it needs to return. -/
theorem exactly_proxyClientToServer :
    Exactly (proxyClientToServer T conf st data n) (ClientReadable T ⟨data,n⟩ st)
    (clientResult T conf ⟨data,n⟩ st) := by
  rw [proxyClientToServer_stages]
  refine Exactly.congr ((exactly_devices ⟨data,n⟩).bind (q := SourceReadable T ⟨data,n⟩ st) ?_)
    ⟨fun h => ⟨h.1.1,h.1.2,h.2⟩,fun h => ⟨⟨h.device,h.primary⟩,h.source⟩⟩
  have hd : (devicesDiscovered T ⟨data,n⟩ st).slot .wlDataDeviceManager =
      managerId T ⟨data,n⟩ st .wlDataDeviceManager := by simp [devicesDiscovered,discovered]
  unfold clientResult getObjectId
  have hdi : (discovered T ⟨data,n⟩ st).slot .wlDataDeviceManager =
      managerId T ⟨data,n⟩ st .wlDataDeviceManager := rfl
  dsimp only
  rw [hd,hdi]
  cases hm : managerId T ⟨data,n⟩ st .wlDataDeviceManager with
  | none =>
    have hs : sourceId T ⟨data,n⟩ st = st.slot .wlDataSource := by
      unfold sourceId
      rw [hm]
      cases st.slot .wlDataSource <;> rfl
    have he : devicesDiscovered T ⟨data,n⟩ st = discovered T ⟨data,n⟩ st := setSlot_self hs
    rw [he]
    exact (exactly_ok _).congr (by simp [SourceReadable,hm])
  | some mid =>
    have hu : (devicesDiscovered T ⟨data,n⟩ st).slot .wlDataSource = st.slot .wlDataSource := by
      simp [devicesDiscovered]
    simp only [Option.isSome_some,↓reduceIte]
    refine (exactly_discoverSource hm (hd.trans hm) hu).bind_ok ?_
    have he : (devicesDiscovered T ⟨data,n⟩ st).setSlot .wlDataSource (sourceId T ⟨data,n⟩ st) =
        discovered T ⟨data,n⟩ st := by
      unfold devicesDiscovered setSlot
      congr 1
      funext i
      cases i <;> simp [discovered]
    rw [he]
    rfl

end

def zoneOffset : ℕ := 4 + mimeTypePrefix.length

def zoneText (payload : List UInt8) : Option Str :=
  let zone := (payload.drop zoneOffset).takeWhile (· != 0)
  if zone.isEmpty then none else some zone

theorem exactly_getZoneTag {payload : List UInt8} (hv : valid payload = true) :
    Exactly (getZoneTag payload) (isCharBoundary payload zoneOffset = true) (zoneText payload) := by
  refine ⟨fun hb => ?_,fun h => ?_⟩
  · unfold getZoneTag bytesToStr zoneText
    have hz := isCharBoundary_findOrLen (c := 0) (by decide) (payload.drop zoneOffset)
    unfold zoneOffset at hb hz ⊢
    simp only [hv,↓reduceIte,Utf8.splitAt,hb,ok_bind,hz,Utf8.take_findOrLen]
    rfl
  · simp only [getZoneTag,bytesToStr,hv,↓reduceIte] at h
    obtain ⟨r,hr,_⟩ := returns_bind.1 h
    exact returns_splitAt.1 ⟨r,hr⟩

section
variable (T : Target) (b : ProxyBuffer) (st : ProxyState)

def offerId : Option UInt32 :=
  (st.slot .wlDataDevice).bind (fun d => b.referenced T (some d) ddEDataOffer none 0)
def primaryId : Option UInt32 :=
  (st.slot .zwpPrimarySelectionDevice).bind (fun d => b.referenced T (some d) zpwPsdEDataOffer none 0)
def tagMessage (oid : UInt32) : Option MessageMeta :=
  b.found T (some oid) doEOffer (some mimeTypePrefix)
def tagZone (oid : UInt32) : Option Str :=
  (tagMessage T b oid).bind (fun m => zoneText (m.payloadOf b.data))

def refuses (conf : ProxyConfig) : Option Str → Bool
  | some zone => !conf.zoneIsAuthorized zone
  | none => !conf.allowNoZone

def coreFlag (conf : ProxyConfig) (b : ProxyBuffer) (st : ProxyState) : Bool :=
  (offerId T b st).any (fun oid => refuses conf (tagZone T b oid))
def x11Flag : Bool := (primaryId T b st).isSome

def serverState : ProxyState :=
  (st.setSlot .wlDataOffer ((offerId T b st).or (st.slot .wlDataOffer))).setSlot .zwpPrimarySelectionOffer
    ((primaryId T b st).or (st.slot .zwpPrimarySelectionOffer))

def blocked (conf : ProxyConfig) (b : ProxyBuffer) (st : ProxyState) : List MessageMeta :=
  if conf.enforce && (coreFlag T conf b st || x11Flag T b st) then
    (b.parsed T).filter ((serverState T b st).toBlock (coreFlag T conf b st) (x11Flag T b st))
  else []

end

structure ServerReadable (T : Target) (conf : ProxyConfig) (b : ProxyBuffer) (st : ProxyState) : Prop where
  offer : ∀ d, st.slot .wlDataDevice = some d → b.Readable T (some d) ddEDataOffer none 0
  tag : ∀ oid m, offerId T b st = some oid → tagMessage T b oid = some m →
    Utf8.isCharBoundary (m.payloadOf b.data) zoneOffset = true
  primary : ∀ d, st.slot .zwpPrimarySelectionDevice = some d → b.Readable T (some d) zpwPsdEDataOffer none 0
  size : T.overflowChecks = true → totalSize (blocked T conf b st) ≤ b.size

section
variable {T : Target} {conf : ProxyConfig} {b : ProxyBuffer} {st : ProxyState}

variable {oid : UInt32} {data : List UInt8}

theorem tagMessage_valid {m : MessageMeta} (h : tagMessage T b oid = some m) :
    valid (m.payloadOf b.data) = true := by
  have hh := find?_some h
  simp only [hit,Option.all_some,Bool.and_eq_true] at hh
  exact hh.2.1

theorem exactly_searchZoneNameTag : Exactly (b.searchZoneNameTag T oid)
    (∀ m, tagMessage T b oid = some m → isCharBoundary (m.payloadOf b.data) zoneOffset = true) (tagZone T b oid) := by
  unfold searchZoneNameTag tagZone
  rw [search_eq,ok_bind]
  change Exactly (match tagMessage T b oid with
    | some zoneMsg => zoneMsg.payload b.data >>= getZoneTag
    | none => pure none) _ _
  cases hm : tagMessage T b oid with
  | none => exact (exactly_ok none).congr (by simp)
  | some m =>
    simp only [payload_eq (found_inBuffer hm),ok_bind,Option.bind_some]
    exact (exactly_getZoneTag (tagMessage_valid hm)).congr (by simp)

theorem exactly_offerDecision : Exactly (offerDecision T conf b st)
    ((∀ d, st.slot .wlDataDevice = some d → b.Readable T (some d) ddEDataOffer none 0) ∧
      ∀ oid m, offerId T b st = some oid → tagMessage T b oid = some m → isCharBoundary
        (m.payloadOf b.data) zoneOffset = true)
    (st.setSlot .wlDataOffer ((offerId T b st).or (st.slot .wlDataOffer)),coreFlag T conf b st) := by
  unfold offerDecision coreFlag getObjectId
  cases hd : st.slot .wlDataDevice with
  | none => simpa [offerId,hd,setSlot_self] using exactly_ok (st,false)
  | some d =>
    have hid : offerId T b st = b.referenced T (some d) ddEDataOffer none 0 := by simp [offerId,hd]
    rw [hid]
    refine ((exactly_searchReferencedObjectId zero_lt_usizeModulus).congr (by simp)).bind ?_
    cases b.referenced T (some d) ddEDataOffer none 0 with
    | none => simpa [setSlot_self] using exactly_ok (st,false)
    | some oid =>
      refine Exactly.bind_ok (exactly_searchZoneNameTag.congr ⟨?_,fun h m => h oid m rfl⟩) ?_
      · rintro h _ m ⟨⟩
        exact h m
      · cases hz : tagZone T b oid <;> simp [hz,refuses,objectCreated]

theorem exactly_primaryDecision : Exactly (primaryDecision T b st)
    (∀ d, st.slot .zwpPrimarySelectionDevice = some d → b.Readable T (some d) zpwPsdEDataOffer none 0)
    (st.setSlot .zwpPrimarySelectionOffer ((primaryId T b st).or (st.slot .zwpPrimarySelectionOffer)),
      x11Flag T b st) := by
  unfold primaryDecision x11Flag getObjectId
  cases hd : st.slot .zwpPrimarySelectionDevice with
  | none => simpa [primaryId,hd,setSlot_self] using exactly_ok (st,false)
  | some d =>
    have hid : primaryId T b st = b.referenced T (some d) zpwPsdEDataOffer none 0 := by simp [primaryId,hd]
    rw [hid]
    refine ((exactly_searchReferencedObjectId zero_lt_usizeModulus).congr (by simp)).bind_ok ?_
    cases b.referenced T (some d) zpwPsdEDataOffer none 0 with
    | none => simp [setSlot_self]
    | some oid => rfl

theorem toBlock_isSome {core x11 : Bool} {m : MessageMeta} (h : st.toBlock core x11 m = true) :
    (st.getInterface m.objectId).isSome = true := by
  unfold toBlock at h
  cases hi : st.getInterface m.objectId with
  | none => simp [hi] at h
  | some i => rfl

theorem getMessagesToBlock_matching (core x11 : Bool) (ms : List MessageMeta) :
    st.getMessagesToBlock core x11 (st.getMatchingMessages ms) = ms.filter (st.toBlock core x11) := by
  unfold getMessagesToBlock getMatchingMessages
  rw [filter_filter]
  apply filter_congr
  intro m _
  cases ht : st.toBlock core x11 m with
  | false => simp
  | true => simp [toBlock_isSome ht]

theorem blockMessages_eq (core x11 : Bool) :
    blockMessages T conf b st core x11 =
      (let ms := if conf.enforce && (core || x11) then (b.parsed T).filter (st.toBlock core x11) else []
       sizeAfter T b.size ms >>= fun n => .ok ⟨cut b.data ms,n⟩) := by
  unfold blockMessages
  by_cases he : (conf.enforce && (core || x11)) = true
  · simp only [he,↓reduceIte,matchingMessages,messages_eq,ok_bind,pure_eq_ok,
      getMessagesToBlock_matching]
    have hsp := ((parsed_contiguous T b).spaced).filter (st.toBlock core x11)
    have hm : st.getMatchingMessages (b.parsed T) = [] →
        (b.parsed T).filter (st.toBlock core x11) = [] := by
      intro h
      rw [← getMessagesToBlock_matching,h]
      rfl
    cases hf : (b.parsed T).filter (st.toBlock core x11) with
    | nil => split <;> rfl
    | cons m ms =>
      rw [hf] at hsp
      have hne : ¬ (st.getMatchingMessages (b.parsed T)).isEmpty = true := by
        rw [List.isEmpty_iff]
        intro h
        rw [hm h] at hf
        cases hf
      simp only [hne,Bool.not_false,↓reduceIte,length_cons,Nat.zero_lt_succ,gt_iff_lt,
        debugMessages_ok b hsp.inBuffer,ok_bind]
      exact removeMessages_eq T b hsp
  · simp only [he]
    rfl

theorem proxyServerToClient_eq {n : ℕ} (hd : st.hasInterface .wlDataDeviceManager = true)
    (ho : ∀ d, st.slot .wlDataDevice = some d → (⟨data,n⟩ : ProxyBuffer).Readable T (some d) ddEDataOffer none 0)
    (ht : ∀ oid m, offerId T ⟨data,n⟩ st = some oid → tagMessage T ⟨data,n⟩ oid = some m →
      isCharBoundary (m.payloadOf data) zoneOffset = true)
    (hp : ∀ d, st.slot .zwpPrimarySelectionDevice = some d →
      (⟨data,n⟩ : ProxyBuffer).Readable T (some d) zpwPsdEDataOffer none 0) :
    proxyServerToClient T conf st data n =
      (sizeAfter T n (blocked T conf ⟨data,n⟩ st) >>= fun n' =>
        .ok (serverState T ⟨data,n⟩ st,cut data (blocked T conf ⟨data,n⟩ st),n')) := by
  unfold proxyServerToClient
  simp only [trace_ok,ok_bind,hd,↓reduceIte,exactly_offerDecision.eq ⟨ho,ht⟩]
  rw [exactly_primaryDecision.eq (by simpa using hp)]
  simp only [ok_bind,blockMessages_eq,bind_assoc]
  rfl

theorem proxyServerToClient_unknown {n : ℕ}
    (hd : st.hasInterface .wlDataDeviceManager = false) :
    proxyServerToClient T conf st data n = .ok (st,data,n) := by
  unfold proxyServerToClient
  simp [trace_ok,hd]

/-- A server chunk is processed to the end exactly when the manager is unknown
or everything it makes the proxy read is in range. -/
theorem returns_proxyServerToClient {n : ℕ} :
    Returns (proxyServerToClient T conf st data n) ↔
      (st.hasInterface .wlDataDeviceManager = true → ServerReadable T conf ⟨data,n⟩ st) := by
  cases hd : st.hasInterface .wlDataDeviceManager with
  | false => simp [proxyServerToClient_unknown hd]
  | true =>
    simp only [forall_const]
    constructor
    · intro h
      have hc := h
      unfold proxyServerToClient at h
      simp only [trace_ok,ok_bind,hd,↓reduceIte] at h
      obtain ⟨r,hr,h⟩ := returns_bind.1 h
      obtain ⟨ho,ht⟩ := exactly_offerDecision.cond ⟨r,hr⟩
      rw [exactly_offerDecision.eq ⟨ho,ht⟩] at hr
      cases hr
      obtain ⟨r,hr,_⟩ := returns_bind.1 h
      have hp := exactly_primaryDecision.cond ⟨r,hr⟩
      simp only [setSlot_slot,reduceCtorEq,↓reduceIte] at hp
      rw [proxyServerToClient_eq hd ho ht hp] at hc
      obtain ⟨n',hn',_⟩ := returns_bind.1 hc
      exact ⟨ho,ht,hp,(returns_sizeAfter T).1 ⟨n',hn'⟩⟩
    · intro h
      rw [proxyServerToClient_eq hd h.offer h.tag h.primary]
      obtain ⟨n',hn'⟩ := (returns_sizeAfter T).2 h.size
      rw [hn']
      exact returns_ok _

end

/-- Neither direction panics exactly when the words, the tag and the size
counter that the chunk leads the proxy to are in range. -/
theorem proxy_returns_iff_readable (T : Target) (conf : ProxyConfig) (st : ProxyState) (data : List UInt8) (n : ℕ) :
    (Returns (proxyClientToServer T conf st data n) ↔ ClientReadable T ⟨data,n⟩ st) ∧
    (Returns (proxyServerToClient T conf st data n) ↔
      (st.hasInterface .wlDataDeviceManager = true → ServerReadable T conf ⟨data,n⟩ st)) :=
  ⟨exactly_proxyClientToServer.iff,returns_proxyServerToClient⟩

def emptyCreateChunk : List UInt8 :=
  [2,0,0,0,0,0,48,0,1,0,0,0,23,0,0,0] ++ ascii "wl_data_device_manager" ++ [0,0,3,0,0,0,5,0,0,0] ++
    [5,0,0,0,0,0,8,0]

theorem not_readable_emptyCreateChunk (checks : Bool) :
    ¬ ClientReadable ⟨true,checks⟩ ⟨emptyCreateChunk,56⟩ (new true) := by
  intro h
  have hm : managerId ⟨true,checks⟩ ⟨emptyCreateChunk,56⟩ (new true) .wlDataDeviceManager = some 5 := by
    cases checks <;> decide
  have hf : (⟨emptyCreateChunk,56⟩ : ProxyBuffer).found ⟨true,checks⟩ (some 5) ddmRCreateDataSource none =
      some ⟨48,8,5,0⟩ := by
    cases checks <;> decide
  have hw := h.source 5 hm rfl _ hf
  revert hw
  simp [WordReadable,MessageMeta.payloadOf,headerSize,wordSize]

/-- A first chunk on a fresh connection panics, with overflow checks and without. -/
theorem proxyClientToServer_panics_on_empty_create :
    emptyCreateChunk.length = 56 ∧
    ¬ Returns (proxyClientToServer ⟨true,true⟩ ⟨ascii "a",[],false,true⟩ (ProxyState.new true) emptyCreateChunk 56) ∧
    ¬ Returns (proxyClientToServer ⟨true,false⟩ ⟨ascii "a",[],false,
      true⟩ (ProxyState.new true) emptyCreateChunk 56) := by
  rw [exactly_proxyClientToServer.iff,exactly_proxyClientToServer.iff]
  exact ⟨rfl,not_readable_emptyCreateChunk true,not_readable_emptyCreateChunk false⟩

end Padsi.Wayland
