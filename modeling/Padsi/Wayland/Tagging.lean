import Padsi.Wayland.Wire

/-! # Tags in the forwarded requests

A compositor's view of the requests decides which offers are the first ones of a source;
it is the same before and after insertion.
-/
namespace Padsi.Wayland
open Rust List Function Utf8 UInt32 Option

def tagPayload (T : Target) (zone : Str) : List UInt8 :=
  let text := mimeTypePrefix ++ zone ++ [0]
  u32ToNeBytes T (UInt32.ofNat text.length) ++ (text ++ replicate (4 - text.length % 4) 0)

def TagFits (T : Target) (zone : Str) : Prop := (tagPayload T zone).length + headerSize < 65536

instance (T : Target) (zone : Str) : Decidable (TagFits T zone) := inferInstanceAs (Decidable (_ < _))
def tagMsg (T : Target) {zone : Str} (h : TagFits T zone) (oid : UInt32) : Msg :=
  ⟨oid,dsROffer,tagPayload T zone,h⟩

theorem encode_tagMsg (T : Target) {zone : Str} (h : TagFits T zone) (oid : UInt32) :
    (tagMsg T h oid).encode T = createZoneRawMessage T oid zone := by
  have hs : ∀ text : Str, tagPayload T zone = u32ToNeBytes T (ofNat text.length) ++
      (text ++ replicate (4 - text.length % 4) 0) →
      12 + (text ++ replicate (4 - text.length % 4) 0).length = (tagMsg T h oid).size := by
    intro text ht
    simp only [tagMsg,Msg.size,ht,headerSize,wordSize,length_append,u32ToNeBytes_length]
    omega
  unfold createZoneRawMessage
  dsimp only
  rw [hs _ rfl]
  simp only [Msg.encode,Msg.header,tagMsg,tagPayload,append_assoc]

section
variable (T : Target) {zone : Str}

theorem tagPayload_eq (zone : Str) : tagPayload T zone = u32ToNeBytes T (ofNat (13 + zone.length + 1)) ++
    (mimeTypePrefix ++ (zone ++ 0 :: replicate (4 - (13 + zone.length + 1) % 4) 0)) := by
  have hl : (mimeTypePrefix ++ zone ++ [0]).length = 13 + zone.length + 1 := by
    rw [length_append,length_append]
    rfl
  unfold tagPayload
  dsimp only
  rw [hl]
  simp only [append_assoc,singleton_append]

/-- The tag is one message, its text takes no more words than it needs, and the zone is read in it. -/
def WellTagged (oid : UInt32) (zone : Str) : Prop :=
  (∃ msg : Msg, msg.encode T = createZoneRawMessage T oid zone ∧ msg.objectId = oid ∧ msg.opcode = dsROffer ∧
    ∃ len, u32FromNeBytes T (msg.payload.take wordSize) = some len ∧ len.toNat = 13 + zone.length + 1) ∧
  (createZoneRawMessage T oid zone).length = 12 + (13 + zone.length + 1 + 3) / 4 * 4 ∧
  ∃ m, MessageMeta.fromData T (createZoneRawMessage T oid zone) 0 = .ok (.ok m) ∧
    (m.payload (createZoneRawMessage T oid zone) >>= getZoneTag) = .ok (some zone)

theorem length_createZoneRawMessage (oid : UInt32) (zone : Str) :
    (createZoneRawMessage T oid zone).length = (tagPayload T zone).length + headerSize := by
  unfold createZoneRawMessage tagPayload
  split_ifs <;> simp [headerSize,wordSize] <;> omega

theorem length_tagPayload (zone : Str) :
    (tagPayload T zone).length = 8 + (13 + zone.length + 1) - (13 + zone.length + 1) % 4 := by
  have hm : mimeTypePrefix.length = 13 := rfl
  simp only [tagPayload_eq,length_append,u32ToNeBytes_length,hm,length_cons,length_replicate]
  omega

theorem valid_tagPayload (hv : valid zone = true) :
    valid (tagPayload T zone) = valid (u32ToNeBytes T (ofNat (13 + zone.length + 1))) := by
  have hz : ∀ n, valid (replicate n 0) = true := by
    intro n
    rw [← append_nil (replicate n 0), valid_ascii_append [] (fun b hb => by rw [eq_of_mem_replicate hb]; decide)]
    rfl
  have ht : ∀ b ∈ mimeTypePrefix.tail, b < 0x80 := by decide +kernel
  rw [tagPayload_eq,Bool.eq_iff_iff]
  change valid (_ ++ 112 :: (mimeTypePrefix.tail ++ _)) = true ↔ _
  rw [valid_append_ascii _ _ (by decide), valid_ascii_append _ ht, valid_append_ascii _ _ (by decide)]
  exact and_iff_left ⟨hv,hz _⟩

theorem getZoneTag_tagPayload (hne : zone ≠ []) (hn : 0 ∉ zone) (hv : valid zone = true) :
    getZoneTag (tagPayload T zone) = .ok (some zone) ↔
    valid (u32ToNeBytes T (ofNat (13 + zone.length + 1))) = true := by
  rw [← valid_tagPayload T hv]
  constructor
  · intro h
    by_contra hva
    rw [getZoneTag,bytesToStr,if_neg hva] at h
    cases h
  · intro hva
    have hd : (tagPayload T zone).drop zoneOffset = zone ++ 0 :: replicate (4 - (13 + zone.length + 1) % 4) 0 := by
      rw [tagPayload_eq, ← append_assoc, drop_left' (by simp [zoneOffset])]
    have hbo : isCharBoundary (tagPayload T zone) zoneOffset = true := by
      obtain ⟨b,rest,rfl⟩ := exists_cons_of_ne_nil hne
      have hat : (tagPayload T (b :: rest))[zoneOffset]? = some b := by
        rw [← head?_drop,hd]
        rfl
      rw [isCharBoundary,hat]
      simpa using .inr (lead_of_valid hv)
    have ht : zoneText (tagPayload T zone) = some zone := by
      unfold zoneText
      dsimp only
      have hzone : ∀ b ∈ zone, (b != 0) = true := fun b hb => bne_iff_ne.2 fun hz => hn (hz ▸ hb)
      rw [hd,takeWhile_append_of_pos hzone]
      simp [hne]
    rw [(exactly_getZoneTag hva).eq hbo,ht]

/-- A tag is well formed just if its text does not fill its words, its size fits and the bytes of
its length are valid text. -/
theorem wellTagged_iff_fits (oid : UInt32) (hne : zone ≠ []) (hnul : 0 ∉ zone) (hv : Utf8.valid zone = true) :
    WellTagged T oid zone ↔
    (13 + zone.length + 1) % 4 ≠ 0 ∧ 13 + zone.length + 1 ≤ 65520 ∧
      Utf8.valid (u32ToNeBytes T (UInt32.ofNat (13 + zone.length + 1))) = true := by
  have hl := length_createZoneRawMessage T oid zone
  have hp := length_tagPayload T zone
  simp only [headerSize,wordSize] at hl
  have hd : ∀ h : TagFits T zone, MessageMeta.fromData T (createZoneRawMessage T oid zone) 0 =
    .ok (.ok ((tagMsg T h oid).toMeta 0)) ∧
      ((tagMsg T h oid).toMeta 0).payload (createZoneRawMessage T oid zone) = .ok (tagPayload T zone) := by
    intro h
    have hda := fromData_encode T [] [] (tagMsg T h oid)
    have hb := payloadOf_encode T [] [] (tagMsg T h oid)
    simp only [nil_append,append_nil,length_nil,encode_tagMsg] at hda hb
    have hin : ((tagMsg T h oid).toMeta 0).InBuffer (createZoneRawMessage T oid zone) := by
      refine ⟨headerSize_le_size (tagMsg T h oid),?_⟩
      rw [← encode_tagMsg T h oid,encode_length]
      exact (Nat.zero_add _).le
    exact ⟨hda,(payload_eq hin).trans (congrArg _ hb)⟩
  unfold WellTagged
  constructor
  · rintro ⟨⟨msg,he,-⟩,ht,m,hm,hzone⟩
    have hfi := msg.fits
    have hs := encode_length T msg
    rw [he] at hs
    simp only [Msg.size,headerSize,wordSize] at hfi hs
    have hf : TagFits T zone := by
      simp only [TagFits,headerSize,wordSize]
      omega
    obtain ⟨hda,hb⟩ := hd hf
    rw [hda] at hm
    cases hm
    rw [hb,ok_bind] at hzone
    exact ⟨by omega,by omega,(getZoneTag_tagPayload T hne hnul hv).1 hzone⟩
  · rintro ⟨hpa,hs,hva⟩
    have hf : TagFits T zone := by
      simp only [TagFits,headerSize,wordSize]
      omega
    obtain ⟨hda,hb⟩ := hd hf
    refine ⟨⟨tagMsg T hf oid,encode_tagMsg T hf oid,rfl,rfl,ofNat (13 + zone.length + 1),?_,?_⟩,by omega,_,hda,?_⟩
    · change u32FromNeBytes T ((tagPayload T zone).take 4) = _
      rw [tagPayload_eq, take_left' (by simp)]
      exact u32FromNeBytes_toNeBytes T _
    · rw [toNat_ofNat']
      omega
    · rw [hb,ok_bind]
      exact (getZoneTag_tagPayload T hne hnul hv).2 hva

theorem wellTagged_iff_fits_test : WellTagged ⟨true,true⟩ 22 (ascii "test") ↔ 18 % 4 ≠ 0 ∧ 18 ≤ 65520 ∧
    Utf8.valid (u32ToNeBytes ⟨true,true⟩ (UInt32.ofNat 18)) = true :=
  wellTagged_iff_fits ⟨true,true⟩ 22 (by decide) (by decide) (by decide)

/-- The text of the tag fills four words: a fifth one follows. -/
theorem fifth_word_follows : ¬WellTagged ⟨true,true⟩ 22 (ascii "ab") := by
  rintro ⟨-,hl,-⟩
  revert hl
  decide

end

def insertTag (oid : UInt32) (tag : Msg) : List Msg → List Msg
  | [] => []
  | m :: ms =>
    if m.objectId = oid ∧ m.opcode = dsROffer then tag :: m :: ms else m :: insertTag oid tag ms

section
variable (T : Target) (st : ProxyState) (ms : List Msg)

def managerOf (manager : WlInterface) : Option UInt32 :=
  match st.slot manager with
  | some oid => some oid
  | none => referenced T ms none 0 (some manager.id) 0

def sourceOf : Option UInt32 :=
  match st.slot .wlDataSource, managerOf T st ms .wlDataDeviceManager with
  | some oid, _ => some oid
  | none, some mid => referenced T ms (some mid) ddmRCreateDataSource none 0
  | none, none => none

def deviceOf (manager device : WlInterface) (opcode : UInt16) : Option UInt32 :=
  match st.slot device, managerOf T st ms manager with
  | some oid, _ => some oid
  | none, some mid => referenced T ms (some mid) opcode none wordSize
  | none, none => none

def discoveredOf : ProxyState :=
  { st with slot := fun i => match i with
      | .wlDataDeviceManager => managerOf T st ms .wlDataDeviceManager
      | .wlDataDevice => deviceOf T st ms .wlDataDeviceManager .wlDataDevice ddmRGetDataDevice
      | .wlDataSource => sourceOf T st ms
      | .zwpPrimarySelectionDeviceManager => managerOf T st ms .zwpPrimarySelectionDeviceManager
      | .zwpPrimarySelectionDevice =>
        deviceOf T st ms .zwpPrimarySelectionDeviceManager .zwpPrimarySelectionDevice zpwPdsmRGetDevice
      | i => st.slot i }

def tagTarget : Option UInt32 :=
  if (managerOf T st ms .wlDataDeviceManager).isSome then sourceOf T st ms else none

def taggedRequests {zone : Str} (h : TagFits T zone) : List Msg :=
  match tagTarget T st ms with
  | some oid => insertTag oid (tagMsg T h oid) ms
  | none => ms

def requestsState {zone : Str} (h : TagFits T zone) : ProxyState :=
  let st' := discoveredOf T st ms
  if (managerOf T st ms .wlDataDeviceManager).isSome then
    st'.handleDestroyMessages (st'.getMatchingMessages (metas 0 (taggedRequests T st ms h)))
  else st'

structure RequestsReadable : Prop where
  device : ∀ mid, managerOf T st ms .wlDataDeviceManager = some mid → st.slot .wlDataDevice = none →
    ∀ m, ms.find? (Msg.hit (some mid) ddmRGetDataDevice none) = some m → WordReadable T m.payload wordSize
  primary : ∀ mid, managerOf T st ms .zwpPrimarySelectionDeviceManager = some mid →
    st.slot .zwpPrimarySelectionDevice = none →
    ∀ m, ms.find? (Msg.hit (some mid) zpwPdsmRGetDevice none) = some m → WordReadable T m.payload wordSize
  source : ∀ mid, managerOf T st ms .wlDataDeviceManager = some mid → st.slot .wlDataSource = none →
    ∀ m, ms.find? (Msg.hit (some mid) ddmRCreateDataSource none) = some m → WordReadable T m.payload 0

end

theorem hit_offer (oid : UInt32) (m : Msg) :
    m.hit (some oid) dsROffer none = true ↔ m.objectId = oid ∧ m.opcode = dsROffer := by
  simp only [Msg.hit,reduceCtorEq,false_or,some.injEq,all_none,Bool.and_true,decide_eq_true_eq]
  exact and_congr_left' eq_comm

/-- The tag goes before the first offer of the source, if there is one. -/
theorem insertTag_cases (oid : UInt32) (tag : Msg) (ms : List Msg) :
    ((∀ m ∈ ms, m.hit (some oid) dsROffer none = false) ∧ insertTag oid tag ms = ms) ∨
    ∃ xs m ys, ms = xs ++ m :: ys ∧ (∀ x ∈ xs, x.hit (some oid) dsROffer none = false) ∧
      m.hit (some oid) dsROffer none = true ∧ insertTag oid tag ms = xs ++ tag :: m :: ys := by
  induction ms with
  | nil => exact .inl ⟨by simp,rfl⟩
  | cons m ms ih =>
    by_cases hm : m.hit (some oid) dsROffer none = true
    · refine .inr ⟨[],m,ms,rfl,by simp,hm,?_⟩
      rw [insertTag,if_pos ((hit_offer oid m).1 hm)]
      rfl
    · have hs : insertTag oid tag (m :: ms) = m :: insertTag oid tag ms := by
        rw [insertTag, if_neg (fun h => hm ((hit_offer oid m).2 h))]
      have hm' : m.hit (some oid) dsROffer none = false := by simpa using hm
      rcases ih with ⟨ha,heq⟩ | ⟨xs,m',ys,rfl,hxs,hm1,heq⟩
      · exact .inl ⟨forall_mem_cons.2 ⟨hm',ha⟩,by rw [hs,heq]⟩
      · exact .inr ⟨m :: xs,m',ys,rfl,forall_mem_cons.2 ⟨hm',hxs⟩,hm1,by rw [hs,heq]; rfl⟩

section
variable {T : Target} {conf : ProxyConfig} {st : ProxyState} {ms : List Msg} {stale : List UInt8}

theorem managerId_chunk (manager : WlInterface) :
    managerId T (chunk T ms stale) st manager = managerOf T st ms manager := by
  unfold managerId managerOf
  cases st.slot manager with
  | some oid => rfl
  | none => exact referenced_chunk T ms stale none 0 (some manager.id) 0

theorem sourceId_chunk : sourceId T (chunk T ms stale) st = sourceOf T st ms := by
  unfold sourceId sourceOf
  rw [managerId_chunk]
  cases st.slot .wlDataSource with
  | some oid => rfl
  | none =>
    cases managerOf T st ms .wlDataDeviceManager with
    | none => rfl
    | some mid => exact referenced_chunk T ms stale (some mid) ddmRCreateDataSource none 0

theorem taggedBuffer_chunk (h : TagFits T conf.zone) {oid : UInt32} (hs : st.slot .wlDataSource = some oid) :
    taggedBuffer T conf (chunk T ms stale) st = chunk T (insertTag oid (tagMsg T h oid) ms) stale := by
  unfold taggedBuffer
  rw [hs]
  dsimp only
  rcases insertTag_cases oid (tagMsg T h oid) ms with ⟨ha,heq⟩ | ⟨xs,m,ys,rfl,hxs,hm,heq⟩
  · rw [found_chunk_none ha,heq]
  · rw [found_chunk_some rfl hxs hm,heq]
    simp only [Msg.toMeta,chunk,← encode_tagMsg T h oid,encodeAll_append,encodeAll_cons,append_assoc,
      take_left,drop_left,length_append,encode_length,ProxyBuffer.mk.injEq,true_and]
    omega

theorem deviceId_chunk (manager device : WlInterface) (opcode : UInt16) :
    deviceId T (chunk T ms stale) st manager device opcode = deviceOf T st ms manager device opcode := by
  unfold deviceId deviceOf
  rw [managerId_chunk]
  cases st.slot device with
  | some oid => rfl
  | none =>
    cases managerOf T st ms manager with
    | none => rfl
    | some mid => exact referenced_chunk T ms stale (some mid) opcode none wordSize

theorem discovered_chunk : discovered T (chunk T ms stale) st = discoveredOf T st ms := by
  unfold discovered discoveredOf
  congr 1
  funext i
  cases i with
  | wlDataDeviceManager => exact managerId_chunk _
  | wlDataDevice => exact deviceId_chunk _ _ _
  | wlDataSource => exact sourceId_chunk
  | zwpPrimarySelectionDeviceManager => exact managerId_chunk _
  | zwpPrimarySelectionDevice => exact deviceId_chunk _ _ _
  | wlDataOffer => rfl
  | zwpPrimarySelectionOffer => rfl

theorem clientReadable_chunk : ClientReadable T (chunk T ms stale) st ↔ RequestsReadable T st ms := by
  have hse : ∀ (objId : Option UInt32) (opcode : UInt16) (endOffset : ℕ),
      (chunk T ms stale).Readable T objId opcode none endOffset ↔
        ∀ m, ms.find? (Msg.hit objId opcode none) = some m → WordReadable T m.payload endOffset :=
    fun objId opcode endOffset => forall_found_chunk T ms stale objId opcode none (WordReadable T · endOffset)
  constructor
  · rintro ⟨hd,hp,hs⟩
    simp only [DeviceReadable,SourceReadable,managerId_chunk,hse] at hd hp hs
    exact ⟨hd,hp,hs⟩
  · rintro ⟨hd,hp,hs⟩
    refine ⟨?_,?_,?_⟩
    · simpa only [DeviceReadable,managerId_chunk,hse] using hd
    · simpa only [DeviceReadable,managerId_chunk,hse] using hp
    · simpa only [SourceReadable,managerId_chunk,hse] using hs

theorem taggedBuffer_discovered (h : TagFits T conf.zone)
    (hm : (managerOf T st ms .wlDataDeviceManager).isSome = true) :
    taggedBuffer T conf (chunk T ms stale) (discoveredOf T st ms) = chunk T (taggedRequests T st ms h) stale := by
  unfold taggedRequests tagTarget
  rw [if_pos hm]
  have hsr : (discoveredOf T st ms).slot .wlDataSource = sourceOf T st ms := rfl
  cases hs : sourceOf T st ms with
  | none =>
    unfold taggedBuffer
    rw [hsr,hs]
  | some oid => exact taggedBuffer_chunk h (hsr.trans hs)

theorem proxyClientToServer_chunk (stale : List UInt8) (h : TagFits T conf.zone) (hr : RequestsReadable T st ms) :
    proxyClientToServer T conf st (chunk T ms stale).data (chunk T ms stale).size =
      .ok (requestsState T st ms h,(chunk T (taggedRequests T st ms h) stale).data,
        (chunk T (taggedRequests T st ms h) stale).size) := by
  refine (exactly_proxyClientToServer.eq (clientReadable_chunk.2 hr)).trans ?_
  congr 1
  change clientResult T conf (chunk T ms stale) st = _
  unfold clientResult requestsState
  rw [discovered_chunk]
  dsimp only
  have hma : (discoveredOf T st ms).slot .wlDataDeviceManager = managerOf T st ms .wlDataDeviceManager := rfl
  rw [hma]
  cases hm : (managerOf T st ms .wlDataDeviceManager).isSome with
  | true =>
    rw [taggedBuffer_discovered h hm,parsed_chunk]
    simp
  | false =>
    have hs : taggedRequests T st ms h = ms := by
      unfold taggedRequests tagTarget
      rw [if_neg (by simp [hm])]
    rw [hs]
    simp

end

inductive Kind where
  | display
  | registry
  | manager
  | source (offered : Bool)
  | other
deriving DecidableEq

abbrev View := UInt32 → Kind

def displayRGetRegistry : UInt16 := 1
def registryRBind : UInt16 := 0

def bindText (T : Target) : List UInt8 := u32ToNeBytes T 23 ++ (WlInterface.wlDataDeviceManager.id ++ [0,0])

def boundManager (T : Target) (payload : List UInt8) : Option UInt32 :=
  if (payload.drop 4).take (bindText T).length =
    bindText T then u32FromNeBytes T (payload.drop (8 + (bindText T).length))
  else none

namespace View

def initial : View := fun oid => if oid = 1 then .display else .other

def step (T : Target) (v : View) (m : Msg) : View :=
  match v m.objectId with
  | .display =>
    if m.opcode = displayRGetRegistry then
      match u32FromNeBytes T m.payload with
      | some oid => update v oid .registry
      | none => v
    else v
  | .registry =>
    if m.opcode = registryRBind then
      match boundManager T m.payload with
      | some oid => update v oid .manager
      | none => v
    else v
  | .manager =>
    if m.opcode = ddmRCreateDataSource then
      match u32FromNeBytes T m.payload with
      | some oid => update v oid (.source false)
      | none => v
    else if m.opcode = ddmRDestroy then update v m.objectId .other else v
  | .source _ =>
    if m.opcode = dsROffer then update v m.objectId (.source true)
    else if m.opcode = dsRDestroy then update v m.objectId .other else v
  | .other => v

def run (T : Target) (v : View) (ms : List Msg) : View := ms.foldl (step T) v

@[simp] theorem run_nil (T : Target) (v : View) : run T v [] = v := rfl
@[simp] theorem run_cons (T : Target) (v : View) (m : Msg) (ms : List Msg) :
    run T v (m :: ms) = run T (step T v m) ms := rfl
@[simp] theorem run_append (T : Target) (v : View) (xs ys : List Msg) :
    run T v (xs ++ ys) = run T (run T v xs) ys := foldl_append

end View

/-- The first offer of a data source that the compositor knows. -/
def FirstOffer (v : View) (m : Msg) : Prop := m.opcode = dsROffer ∧ v m.objectId = .source false

/-- Every first offer among the requests is the tag of the zone. -/
def TagFirst (T : Target) (zone : Str) (v : View) (ms : List Msg) : Prop :=
  ∀ xs m ys, ms = xs ++ m :: ys → FirstOffer (v.run T xs) m → m.encode T = createZoneRawMessage T m.objectId zone

/-- Every first offer of a chunk is the tag already, or is the first offer in the
chunk of the one source that the proxy looks at. -/
def Answered (T : Target) (zone : Str) (st : ProxyState) (v : View) (ms : List Msg) : Prop :=
  ∀ xs m ys, ms = xs ++ m :: ys → FirstOffer (v.run T xs) m →
    m.encode T = createZoneRawMessage T m.objectId zone ∨
    tagTarget T st ms = some m.objectId ∧ ∀ x ∈ xs, ¬ (x.objectId = m.objectId ∧ x.opcode = dsROffer)

section
variable {T : Target} {zone : Str}

theorem u32FromNeBytes_length {bs : List UInt8} {x : UInt32} (h : u32FromNeBytes T bs = some x) : bs.length = 4 := by
  unfold u32FromNeBytes at h
  split at h
  · rfl
  · cases h

theorem tagPayload_drop (T : Target) (zone : Str) :
    ∃ rest, (tagPayload T zone).drop 4 = 112 :: rest ∧ 12 ≤ rest.length := by
  refine ⟨mimeTypePrefix.tail ++ (zone ++ 0 :: replicate (4 - (13 + zone.length + 1) % 4) 0),?_,?_⟩
  · rw [tagPayload_eq, drop_left' (by simp)]
    rfl
  · have hp : mimeTypePrefix.tail.length = 12 := rfl
    simp only [length_append,hp]
    omega

theorem u32FromNeBytes_tagPayload (T : Target) (zone : Str) : u32FromNeBytes T (tagPayload T zone) = none := by
  obtain ⟨rest,hrest,_⟩ := tagPayload_drop T zone
  cases h : u32FromNeBytes T (tagPayload T zone) with
  | none => rfl
  | some x =>
    have hl := congrArg length hrest
    rw [length_drop,u32FromNeBytes_length h] at hl
    simp at hl

theorem boundManager_tagPayload (T : Target) (zone : Str) : boundManager T (tagPayload T zone) = none := by
  obtain ⟨rest,hrest,_⟩ := tagPayload_drop T zone
  unfold boundManager
  rw [hrest,if_neg]
  intro h
  have hh := congrArg head? h
  revert hh
  cases he : T.littleEndian <;> simp [bindText,u32ToNeBytes,u32ToLe,he]

theorem step_tagMsg (v : View) (h : TagFits T zone) (oid : UInt32) :
    v.step T (tagMsg T h oid) =
      match v oid with
      | .source _ => update v oid (.source true)
      | _ => v := by
  unfold View.step
  dsimp only [tagMsg]
  rw [boundManager_tagPayload,u32FromNeBytes_tagPayload]
  cases v oid with
  | display => simp [dsROffer,displayRGetRegistry]
  | registry => exact ite_self v
  | manager => simp [dsROffer,ddmRDestroy]
  | source offered => simp
  | other => rfl

/-- To the compositor, a tag before an offer of the same source changes nothing. -/
theorem step_tag_offer (v : View) (h : TagFits T zone) {m : Msg} (hm : m.opcode = dsROffer) :
    (v.step T (tagMsg T h m.objectId)).step T m = v.step T m := by
  rw [step_tagMsg]
  cases hv : v m.objectId with
  | source offered => simp [View.step,hv,hm]
  | display => rfl
  | registry => rfl
  | manager => rfl
  | other => rfl

theorem not_firstOffer_after_tag (v : View) (h : TagFits T zone) (m : Msg) :
    ¬ FirstOffer (v.step T (tagMsg T h m.objectId)) m := by
  rintro ⟨_,hv⟩
  rw [step_tagMsg] at hv
  cases hk : v m.objectId with
  | source offered => simp [hk] at hv
  | display => simp [hk] at hv
  | registry => simp [hk] at hv
  | manager => simp [hk] at hv
  | other => simp [hk] at hv

end

section
variable {α : Type} {Q : List α → α → Prop}

theorem forall_split_cons {x : α} {ys : List α} :
    (∀ a m b, x :: ys = a ++ m :: b → Q a m) ↔ Q [] x ∧ ∀ a m b, ys = a ++ m :: b → Q (x :: a) m := by
  constructor
  · intro h
    refine ⟨h [] x ys rfl,?_⟩
    rintro a m b rfl
    exact h (x :: a) m b rfl
  · rintro ⟨h0,h1⟩ a m b hsplit
    cases a with
    | nil =>
      cases hsplit
      exact h0
    | cons y a =>
      cases hsplit
      exact h1 a m b rfl

theorem forall_split_append {xs ys : List α} :
    (∀ a m b, xs ++ ys = a ++ m :: b → Q a m) ↔
      (∀ a m b, xs = a ++ m :: b → Q a m) ∧ ∀ a m b, ys = a ++ m :: b → Q (xs ++ a) m := by
  induction xs generalizing Q with
  | nil => simp
  | cons x xs ih =>
    rw [cons_append,forall_split_cons,forall_split_cons,ih,and_assoc]
    rfl

end

section
variable {T : Target} {zone : Str} {st : ProxyState}

theorem tagFirst_append {v : View} {xs ys : List Msg} :
    TagFirst T zone v (xs ++ ys) ↔ TagFirst T zone v xs ∧ TagFirst T zone (v.run T xs) ys := by
  unfold TagFirst
  rw [forall_split_append]
  simp only [View.run_append]

theorem tagFirst_cons {v : View} {m : Msg} {ms : List Msg} :
    TagFirst T zone v (m :: ms) ↔
      (FirstOffer v m → m.encode T = createZoneRawMessage T m.objectId zone) ∧
        TagFirst T zone (v.step T m) ms := by
  unfold TagFirst
  rw [forall_split_cons]
  rfl

theorem run_taggedRequests (h : TagFits T zone) (v : View) (ms : List Msg) :
    v.run T (taggedRequests T st ms h) = v.run T ms := by
  unfold taggedRequests
  cases tagTarget T st ms with
  | none => rfl
  | some oid =>
    dsimp only
    rcases insertTag_cases oid (tagMsg T h oid) ms with ⟨_,heq⟩ | ⟨xs,m,ys,rfl,_,hm,heq⟩
    · rw [heq]
    · obtain ⟨rfl,hop⟩ := (hit_offer oid m).1 hm
      rw [heq]
      simp only [View.run_append,View.run_cons,step_tag_offer _ h hop]

theorem tagFirst_iff_or {v : View} {ms : List Msg} {R : List Msg → Msg → Prop}
    (h : ∀ xs m ys, ms = xs ++ m :: ys → m.opcode = dsROffer → ¬ R xs m) :
    TagFirst T zone v ms ↔
      ∀ xs m ys, ms = xs ++ m :: ys → FirstOffer (v.run T xs) m →
        m.encode T = createZoneRawMessage T m.objectId zone ∨ R xs m := by
  constructor
  · intro ht xs m ys hms hf
    exact .inl (ht xs m ys hms hf)
  · intro ha xs m ys hms hf
    rcases ha xs m ys hms hf with hta | hr
    · exact hta
    · exact absurd hr (h xs m ys hms hf.1)

/-- By induction on the requests, with the view of the compositor after each of them. -/
theorem tagFirst_taggedRequests (h : TagFits T zone) (v : View) (ms : List Msg) :
    TagFirst T zone v (taggedRequests T st ms h) ↔ Answered T zone st v ms := by
  unfold taggedRequests Answered
  cases tagTarget T st ms with
  | none => exact tagFirst_iff_or (by simp)
  | some oid =>
    dsimp only
    rcases insertTag_cases oid (tagMsg T h oid) ms with ⟨ha,heq⟩ | ⟨xs,m,ys,rfl,hxs,hm,heq⟩
    · rw [heq]
      apply tagFirst_iff_or
      rintro as a bs rfl hop ⟨ho,_⟩
      have hh := (hit_offer oid a).2 ⟨(some.inj ho).symm,hop⟩
      rw [ha a (by simp)] at hh
      cases hh
    · obtain ⟨rfl,hop⟩ := (hit_offer oid m).1 hm
      rw [heq,tagFirst_append,tagFirst_cons,tagFirst_cons,step_tag_offer _ h hop,forall_split_append,
        forall_split_cons]
      refine and_congr (tagFirst_iff_or ?_) ?_
      · rintro as a bs rfl hopa ⟨ho,_⟩
        have hh := (hit_offer m.objectId a).2 ⟨(some.inj ho).symm,hopa⟩
        rw [hxs a (by simp)] at hh
        cases hh
      · have ht : (tagMsg T h m.objectId).encode T =
            createZoneRawMessage T (tagMsg T h m.objectId).objectId zone := encode_tagMsg T h m.objectId
        have hfirst : ∀ x ∈ xs ++ [], ¬ (x.objectId = m.objectId ∧ x.opcode = dsROffer) := by
          intro x hx hof
          have hh := (hit_offer m.objectId x).2 hof
          rw [hxs x (by simpa using hx)] at hh
          cases hh
        have hnot := not_firstOffer_after_tag (v.run T xs) h m
        have hrest := @tagFirst_iff_or T zone ((v.run T xs).step T m) ys (fun a m' =>
          some m.objectId = some m'.objectId ∧
            ∀ x ∈ xs ++ m :: a, ¬ (x.objectId = m'.objectId ∧ x.opcode = dsROffer)) (by
          rintro as a bs rfl _ ⟨ho,hnone⟩
          exact hnone m (by simp) ⟨some.inj ho,hop⟩)
        simp only [View.run_append,View.run_cons]
        constructor
        · rintro ⟨_,_,hys⟩
          exact ⟨fun _ => .inr ⟨trivial,hfirst⟩,hrest.1 hys⟩
        · rintro ⟨_,hys⟩
          exact ⟨fun _ => ht,fun hf => absurd hf hnot,hrest.2 hys⟩

end

structure ClientStep where
  before : ProxyState
  requests : List Msg
  forwarded : List UInt8

def clientRun (T : Target) (conf : ProxyConfig) : ProxyState → List (List Msg × List UInt8) → List ClientStep
  | _, [] => []
  | st, (ms,stale) :: chunks =>
    match proxyClientToServer T conf st (chunk T ms stale).data (chunk T ms stale).size with
    | .ok (st',data,n) => ⟨st,ms,data.take n⟩ :: clientRun T conf st' chunks
    | .error _ => []

/-- The bytes are requests in which every first offer of a source is the tag. -/
def ForwardsTagFirst (T : Target) (zone : Str) (v : View) (bytes : List UInt8) : Prop :=
  ∃ ms, bytes = encodeAll T ms ∧ TagFirst T zone v ms

section
variable {T : Target} {conf : ProxyConfig}

theorem forwardsTagFirst_encodeAll {zone : Str} {v : View} {ms : List Msg} :
    ForwardsTagFirst T zone v (encodeAll T ms) ↔ TagFirst T zone v ms := by
  constructor
  · rintro ⟨ms',h,ht⟩
    rwa [encodeAll_injective h]
  · intro h
    exact ⟨ms,rfl,h⟩

def ClientStep.messages (T : Target) {zone : Str} (h : TagFits T zone) (s : ClientStep) : List Msg :=
  taggedRequests T s.before s.requests h

theorem clientRun_forwarded (h : TagFits T conf.zone) (st : ProxyState) (chunks : List (List Msg × List UInt8)) :
    (clientRun T conf st chunks).flatMap (·.forwarded) =
      encodeAll T ((clientRun T conf st chunks).flatMap (·.messages T h)) := by
  induction chunks generalizing st with
  | nil => rfl
  | cons c chunks ih =>
    obtain ⟨ms,stale⟩ := c
    cases hc : proxyClientToServer T conf st (chunk T ms stale).data (chunk T ms stale).size with
    | error e => simp [clientRun,hc]
    | ok r =>
      have hr : ClientReadable T (chunk T ms stale) st := exactly_proxyClientToServer.cond ⟨r,hc⟩
      rw [proxyClientToServer_chunk stale h (clientReadable_chunk.1 hr)] at hc
      cases hc
      simp only [clientRun,proxyClientToServer_chunk stale h (clientReadable_chunk.1 hr),flatMap_cons,ih,
        encodeAll_append,ClientStep.messages]
      simp [chunk]

theorem tagFirst_steps (h : TagFits T conf.zone) (v : View) (steps : List ClientStep) :
    TagFirst T conf.zone v (steps.flatMap (·.messages T h)) ↔
      ∀ k s, steps[k]? = some s →
        Answered T conf.zone s.before (v.run T ((steps.take k).flatMap (·.requests))) s.requests := by
  induction steps generalizing v with
  | nil => simp [TagFirst]
  | cons s steps ih =>
    rw [flatMap_cons,tagFirst_append,ih]
    unfold ClientStep.messages
    rw [tagFirst_taggedRequests,run_taggedRequests]
    constructor
    · rintro ⟨h0,hrest⟩ k s' hs'
      cases k with
      | zero =>
        simp only [getElem?_cons_zero,some.injEq] at hs'
        subst hs'
        exact h0
      | succ k =>
        simp only [take_succ_cons,flatMap_cons,View.run_append]
        exact hrest k s' hs'
    · intro ha
      refine ⟨ha 0 s rfl,?_⟩
      intro k s' hs'
      have hk := ha (k + 1) s' hs'
      simp only [take_succ_cons,flatMap_cons,View.run_append] at hk
      exact hk

/-- For every chunking: the first forwarded offer of every data source is the tag exactly when each
is answered in its chunk. -/
theorem tag_first_iff_answered (T : Target) (conf : ProxyConfig) (st : ProxyState)
    (chunks : List (List Msg × List UInt8)) (h : TagFits T conf.zone) :
    ForwardsTagFirst T conf.zone View.initial ((clientRun T conf st chunks).flatMap (·.forwarded)) ↔
      ∀ k s, (clientRun T conf st chunks)[k]? = some s →
        Answered T conf.zone s.before
          (View.initial.run T (((clientRun T conf st chunks).take k).flatMap (·.requests))) s.requests := by
  rw [clientRun_forwarded h,forwardsTagFirst_encodeAll,tagFirst_steps]

theorem registry_fits : ([2,0,0,0] : List UInt8).length + headerSize < 65536 := by decide
theorem bind_fits : ([1,0,0,0] ++ bindText ⟨true,true⟩ ++ [3,0,0,0,5,0,0,0]).length + headerSize < 65536 := by decide

def setupRequests : List Msg :=
  [⟨1,1,[2,0,0,0],registry_fits⟩,
    ⟨2,0,[1,0,0,0] ++ bindText ⟨true,true⟩ ++ [3,0,0,0,5,0,0,0],bind_fits⟩,
    ⟨5,0,[6,0,0,0],by decide⟩,⟨5,0,[7,0,0,0],by decide⟩]

theorem textOffer_fits : ([11,0,0,0] ++ ascii "text/plain" ++ [0,0]).length + headerSize < 65536 := by decide
def textOffer (oid : UInt32) : Msg := ⟨oid,0,[11,0,0,0] ++ ascii "text/plain" ++ [0,0],textOffer_fits⟩
def zoneConf : ProxyConfig := ⟨ascii "a",[],false,true⟩
theorem tagFits_zoneConf : TagFits ⟨true,true⟩ zoneConf.zone := by decide

theorem tag_first_iff_answered_first_source :
    TagFits ⟨true,true⟩ zoneConf.zone ∧
    (ForwardsTagFirst ⟨true,true⟩ zoneConf.zone View.initial
      ((clientRun ⟨true,true⟩ zoneConf (ProxyState.new true)
        [(setupRequests,[]),([textOffer 6],[])]).flatMap (·.forwarded)) ↔
      ∀ k s, (clientRun ⟨true,true⟩ zoneConf (ProxyState.new true)
          [(setupRequests,[]),([textOffer 6],[])])[k]? = some s →
        Answered ⟨true,true⟩ zoneConf.zone s.before
          (View.initial.run ⟨true,true⟩ (((clientRun ⟨true,true⟩ zoneConf (ProxyState.new true)
            [(setupRequests,[]),([textOffer 6],[])]).take k).flatMap (·.requests))) s.requests) :=
  ⟨tagFits_zoneConf,tag_first_iff_answered ⟨true,true⟩ zoneConf (ProxyState.new true)
    [(setupRequests,[]),([textOffer 6],[])] tagFits_zoneConf⟩

/-- Only the first of two sources is tagged: the other publishes its selection
without the zone. -/
theorem second_source_offers_untagged :
    (clientRun ⟨true,true⟩ zoneConf (ProxyState.new true)
      [(setupRequests,[]),([textOffer 6,textOffer 7],[])]).map (·.forwarded) =
      [encodeAll ⟨true,true⟩ setupRequests,
        createZoneRawMessage ⟨true,true⟩ 6 (ascii "a") ++ encodeAll ⟨true,true⟩ [textOffer 6,textOffer 7]] ∧
    FirstOffer (View.initial.run ⟨true,true⟩ setupRequests) (textOffer 7) ∧
    ¬ ForwardsTagFirst ⟨true,true⟩ zoneConf.zone View.initial
      ((clientRun ⟨true,true⟩ zoneConf (ProxyState.new true)
        [(setupRequests,[]),([textOffer 6,textOffer 7],[])]).flatMap (·.forwarded)) := by
  have hr : (clientRun ⟨true,true⟩ zoneConf (ProxyState.new true)
      [(setupRequests,[]),([textOffer 6,textOffer 7],[])]).flatMap (·.forwarded) =
      encodeAll ⟨true,true⟩ (setupRequests ++ [tagMsg ⟨true,true⟩ tagFits_zoneConf 6,textOffer 6,
        textOffer 7]) := by decide
  refine ⟨by decide,⟨rfl,by decide⟩,?_⟩
  rw [hr,forwardsTagFirst_encodeAll]
  intro h
  have ht := h (setupRequests ++ [tagMsg ⟨true,true⟩ tagFits_zoneConf 6,textOffer 6]) (textOffer 7) [] rfl ⟨rfl,
    by decide⟩
  exact absurd ht (by decide)

end

end Padsi.Wayland
