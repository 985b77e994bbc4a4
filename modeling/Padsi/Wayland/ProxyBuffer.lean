import Padsi.Wayland.Message

/-! # The buffer a chunk is analysed in

The source memoises the messages in a cell that every splice clears; here they are
computed each time. Log calls only evaluate the payload of the logged message.
-/
namespace Padsi.Wayland
open Rust List

def parseLoop (T : Target) (data : List UInt8) (size : ℕ) : ℕ → ℕ → Partial (List MessageMeta)
  | 0, _ => .ok []
  | fuel + 1, next =>
    if next < size then do
      match ← MessageMeta.fromData T data next with
      | .ok msg => return msg :: (← parseLoop T data size fuel (next + msg.size))
      | .error _ => return []
    else .ok []

/-- Every message advances the position, so `size` turns of the loop suffice. -/
def parseBuffer (T : Target) (data : List UInt8) (size : ℕ) : Partial (Option (List MessageMeta)) :=
  if size ≥ headerSize then do return some (← parseLoop T data size size 0) else .ok none

def bytesToStr (payload : List UInt8) : Option Str := if Utf8.valid payload then some payload else none

def searchInMessagesInVec (data : List UInt8) (objId : Option UInt32) (opcode : UInt16) (text : Option Str) :
    List MessageMeta → Partial (Option MessageMeta)
  | [] => .ok none
  | msg :: rest =>
    if (objId = none ∨ objId = some msg.objectId) ∧ msg.opcode = opcode then
      match text with
      | none => .ok (some msg)
      | some t => do
        match bytesToStr (← msg.payload data) with
        | some textPayload =>
          if containsSub t textPayload then return some msg
          else searchInMessagesInVec data objId opcode text rest
        | none => searchInMessagesInVec data objId opcode text rest
    else searchInMessagesInVec data objId opcode text rest

def mimeTypePrefix : Str := ascii "padsi/zone;z="

/-- The request `wl_data_source.offer` that carries the zone as a mime type. The
size is truncated to its 16-bit field, and a length that is already a multiple
of four is padded by a whole word. -/
def createZoneRawMessage (T : Target) (dataSourceOid : UInt32) (zoneName : Str) : List UInt8 :=
  let text := mimeTypePrefix ++ zoneName ++ [0]
  let data := text ++ replicate (4 - text.length % 4) 0
  let msgSize := u16ToNeBytes T (UInt16.ofNat (12 + data.length))
  let opcode := u16ToNeBytes T dsROffer
  u32ToNeBytes T dataSourceOid ++ (if T.littleEndian then opcode ++ msgSize else msgSize ++ opcode) ++
    u32ToNeBytes T (UInt32.ofNat text.length) ++ data

def getZoneTag (data : List UInt8) : Partial (Option Str) :=
  match bytesToStr data with
  | some strPayload => do
    let (_,data) ← Utf8.splitAt strPayload (4 + mimeTypePrefix.length)
    let (zoneStr,_) ← Utf8.splitAt data (Utf8.findOrLen 0 data)
    return if zoneStr.isEmpty then none else some zoneStr
  | none => .ok none

structure ProxyBuffer where
  data : List UInt8
  size : ℕ

namespace ProxyBuffer

section
variable (T : Target) (b : ProxyBuffer)

def messages : Partial (List MessageMeta) := do
  return (← parseBuffer T b.data b.size).getD []
def debugMessages (msgs : List MessageMeta) : Partial Unit :=
  msgs.forM (fun m => do let _ ← m.payload b.data)
def trace : Partial Unit := do
  b.debugMessages (← b.messages T)
def search (objId : Option UInt32) (opcode : UInt16) (text : Option Str) : Partial (Option MessageMeta) := do
  searchInMessagesInVec b.data objId opcode text (← b.messages T)

def searchReferencedObjectId (objId : Option UInt32) (opcode : UInt16)
    (interface : Option Str) (endOffset : ℕ) : Partial (Option UInt32) := do
  match ← b.search T objId opcode interface with
  | some msg => msg.extractReferencedObjectId T b.data endOffset
  | none => return none

def insertZoneNameTag (rawPosition : ℕ) (dataSourceOid : UInt32) (zoneName : Str) : Partial ProxyBuffer := do
  let newMsg := createZoneRawMessage T dataSourceOid zoneName
  let b : ProxyBuffer := ⟨← splice b.data rawPosition rawPosition newMsg,b.size + newMsg.length⟩
  match ← MessageMeta.fromData T b.data rawPosition with
  | .ok insertedMsg => b.debugMessages [insertedMsg]
  | .error _ => pure ()
  return b

def searchZoneNameTag (oid : UInt32) : Partial (Option Str) := do
  match ← b.search T (some oid) doEOffer (some mimeTypePrefix) with
  | some zoneMsg => getZoneTag (← zoneMsg.payload b.data)
  | none => return none

/-- One turn of the removal loop. The position of the previous message is absent
at first, where the source has the largest `usize`. -/
def removeStep (s : Option ℕ × ProxyBuffer) (msg : MessageMeta) : Partial (Option ℕ × ProxyBuffer) := do
  if s.1.any (msg.index > ·) then
    throw .explicit
  let data ← splice s.2.data msg.index (msg.index + msg.size) []
  let size ← usizeSub T s.2.size msg.size
  return (some msg.index,⟨data,size⟩)

def removeMessages (msgs : List MessageMeta) : Partial ProxyBuffer := do
  return (← msgs.reverse.foldlM (removeStep T) (none,b)).2

end

end ProxyBuffer

def Contiguous (data : List UInt8) : ℕ → List MessageMeta → Prop
  | _, [] => True
  | i, m :: ms => m.index = i ∧ m.InBuffer data ∧ Contiguous data (i + m.size) ms

theorem Contiguous.inBuffer {data : List UInt8} {i : ℕ} {ms : List MessageMeta} (h : Contiguous data i ms) :
    ∀ m ∈ ms, m.InBuffer data := by
  induction ms generalizing i with
  | nil => simp
  | cons m ms ih =>
    obtain ⟨_,hm,hms⟩ := h
    intro m' hm'
    rcases mem_cons.1 hm' with rfl | hm'
    · exact hm
    · exact ih hms m' hm'

theorem parseLoop_total (T : Target) (data : List UInt8) (size fuel next : ℕ) :
    ∃ ms, parseLoop T data size fuel next = .ok ms ∧ Contiguous data next ms ∧
      ∀ m ∈ ms, next ≤ m.index ∧ m.index < size := by
  induction fuel generalizing next with
  | zero => exact ⟨[],rfl,trivial,by simp⟩
  | succ fuel ih =>
    unfold parseLoop
    by_cases hn : next < size
    · rw [if_pos hn]
      rcases fromData_total T data next with ⟨e,he⟩ | ⟨m,hm,hi,hs,hb⟩
      · exact ⟨[],by simp [he],trivial,by simp⟩
      · obtain ⟨ms,hms,hc,hlt⟩ := ih (next + m.size)
        refine ⟨m :: ms,by simp [hm,hms],⟨hi,⟨hs,by omega⟩,hc⟩,?_⟩
        intro m' hm'
        rcases mem_cons.1 hm' with rfl | hm'
        · omega
        · have := hlt m' hm'
          omega
    · rw [if_neg hn]
      exact ⟨[],rfl,trivial,by simp⟩

namespace ProxyBuffer

section
variable (T : Target) (b : ProxyBuffer)

def parsed : List MessageMeta :=
  match b.messages T with
  | .ok ms => ms
  | .error _ => []

theorem messages_total : ∃ ms, b.messages T = .ok ms ∧ Contiguous b.data 0 ms ∧ ∀ m ∈ ms, m.index < b.size := by
  unfold messages parseBuffer
  by_cases hs : b.size ≥ headerSize
  · obtain ⟨ms,hms,hc,hlt⟩ := parseLoop_total T b.data b.size b.size 0
    exact ⟨ms,by simp [hs,hms],hc,fun m hm => (hlt m hm).2⟩
  · exact ⟨[],by simp [hs],trivial,by simp⟩

theorem messages_eq : b.messages T = .ok (b.parsed T) := by
  obtain ⟨ms,hms,_⟩ := messages_total T b
  simp [parsed,hms]

theorem parsed_contiguous : Contiguous b.data 0 (b.parsed T) := by
  obtain ⟨ms,hms,hc,_⟩ := messages_total T b
  simpa [parsed,hms] using hc

theorem parsed_inBuffer : ∀ m ∈ b.parsed T, m.InBuffer b.data :=
  (parsed_contiguous T b).inBuffer

theorem debugMessages_ok {ms : List MessageMeta} (h : ∀ m ∈ ms, m.InBuffer b.data) : b.debugMessages ms = .ok () := by
  induction ms with
  | nil => rfl
  | cons m ms ih =>
    have hm := payload_eq (h m mem_cons_self)
    have hms := ih (fun m' hm' => h m' (mem_cons_of_mem _ hm'))
    unfold debugMessages at hms ⊢
    simpa [forM_cons,hm] using hms

theorem debugMessages_singleton {m : MessageMeta} (h : m.InBuffer b.data) : b.debugMessages [m] = .ok () :=
  debugMessages_ok b (forall_mem_singleton.2 h)
theorem trace_ok : b.trace T = .ok () := by
  simp [trace,messages_eq,debugMessages_ok b (parsed_inBuffer T b)]

end

end ProxyBuffer

def hit (data : List UInt8) (objId : Option UInt32) (opcode : UInt16) (text : Option Str) (m : MessageMeta) :
    Bool :=
  decide ((objId = none ∨ objId = some m.objectId) ∧ m.opcode = opcode) &&
    text.all (fun t => Utf8.valid (m.payloadOf data) && containsSub t (m.payloadOf data))

theorem searchInMessagesInVec_eq {data : List UInt8} (objId : Option UInt32) (opcode : UInt16)
    (text : Option Str) {ms : List MessageMeta} (h : ∀ m ∈ ms, m.InBuffer data) :
    searchInMessagesInVec data objId opcode text ms = .ok (ms.find? (hit data objId opcode text)) := by
  induction ms with
  | nil => rfl
  | cons m ms ih =>
    have hm := payload_eq (h m mem_cons_self)
    have hms := ih (fun m' hm' => h m' (mem_cons_of_mem _ hm'))
    simp only [searchInMessagesInVec,find?_cons]
    by_cases hk : (objId = none ∨ objId = some m.objectId) ∧ m.opcode = opcode
    · rw [if_pos hk]
      cases text with
      | none => simp [hit,hk]
      | some t =>
        simp only [hm,ok_bind,bytesToStr]
        by_cases hv : Utf8.valid (m.payloadOf data) = true
        · by_cases hc : containsSub t (m.payloadOf data) = true
          · simp [hit,hk,hv,hc]
          · simp [hit,hv,hc,hms]
        · simp [hit,hv,hms]
    · rw [if_neg hk,hms]
      simp [hit,hk]

namespace ProxyBuffer

def found (T : Target) (b : ProxyBuffer) (objId : Option UInt32) (opcode : UInt16) (text : Option Str) :
    Option MessageMeta := (b.parsed T).find? (hit b.data objId opcode text)

theorem search_eq (T : Target) (b : ProxyBuffer) (objId : Option UInt32) (opcode : UInt16) (text : Option Str) :
    b.search T objId opcode text = .ok (b.found T objId opcode text) := by
  simp only [search,messages_eq,ok_bind,found]
  exact searchInMessagesInVec_eq objId opcode text (parsed_inBuffer T b)

theorem found_mem {T : Target} {b : ProxyBuffer} {objId : Option UInt32} {opcode : UInt16} {text : Option Str}
    {m : MessageMeta} (h : b.found T objId opcode text = some m) : m ∈ b.parsed T :=
  mem_of_find?_eq_some h

theorem found_inBuffer {T : Target} {b : ProxyBuffer} {objId : Option UInt32} {opcode : UInt16} {text : Option Str}
    {m : MessageMeta} (h : b.found T objId opcode text = some m) : m.InBuffer b.data :=
  parsed_inBuffer T b m (found_mem h)

theorem searchReferencedObjectId_eq (T : Target) (b : ProxyBuffer) (objId : Option UInt32) (opcode : UInt16)
    (text : Option Str) (endOffset : ℕ) :
    b.searchReferencedObjectId T objId opcode text endOffset =
      match b.found T objId opcode text with
      | some m => m.extractReferencedObjectId T b.data endOffset
      | none => .ok none := by
  simp only [searchReferencedObjectId,search_eq,ok_bind]
  cases b.found T objId opcode text <;> rfl

end ProxyBuffer

end Padsi.Wayland
