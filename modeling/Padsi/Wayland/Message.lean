import Padsi.Lib.Utf8

/-! # Message delimitation and the words of a payload

The metadata holds no bytes: every later read goes back to the shared buffer, whose
physical length is the only bound that `fromData` checks.
-/
namespace Padsi.Wayland
open Rust

abbrev Str := List UInt8
def ascii (s : String) : Str := s.toList.map (fun c => UInt8.ofNat c.toNat)

def wordSize : ℕ := 4
def headerSize : ℕ := 2 * wordSize

inductive WlInterface where
  | wlDataDeviceManager
  | wlDataDevice
  | wlDataOffer
  | wlDataSource
  | zwpPrimarySelectionDeviceManager
  | zwpPrimarySelectionDevice
  | zwpPrimarySelectionOffer
deriving DecidableEq, Repr

def WlInterface.id : WlInterface → Str
  | .wlDataDeviceManager => ascii "wl_data_device_manager"
  | .wlDataDevice => ascii "wl_data_device"
  | .wlDataOffer => ascii "wl_data_offer"
  | .wlDataSource => ascii "wl_data_source"
  | .zwpPrimarySelectionDeviceManager => ascii "zwp_primary_selection_device_manager"
  | .zwpPrimarySelectionDevice => ascii "zwp_primary_selection_device"
  | .zwpPrimarySelectionOffer => ascii "zwp_primary_selection_offer"

def ddmRCreateDataSource : UInt16 := 0
def ddmRGetDataDevice : UInt16 := 1
def ddmRDestroy : UInt16 := 2
def ddEDataOffer : UInt16 := 0
def ddRDestroy : UInt16 := 2
def dsROffer : UInt16 := 0
def dsRDestroy : UInt16 := 1
def doRReceive : UInt16 := 1
def doRDestroy : UInt16 := 2
def doEOffer : UInt16 := 0
def zpwPdsmRGetDevice : UInt16 := 1
def zpwPdsmRDestroy : UInt16 := 2
def zpwPsdEDataOffer : UInt16 := 0
def zpwPsdRDestroy : UInt16 := 1
def zpwPsoEOffer : UInt16 := 0
def zpwPsoRDestroy : UInt16 := 1

structure ProxyConfig where
  zone : Str
  allowedZones : List Str
  /-- allow paste from data copied by a process with no associated zone -/
  allowNoZone : Bool
  /-- actually enforce blocking -/
  enforce : Bool

def ProxyConfig.zoneIsAuthorized (conf : ProxyConfig) (zone : Str) : Bool :=
  zone == conf.zone || conf.allowedZones.contains zone

structure MessageMeta where
  index : ℕ
  size : ℕ
  objectId : UInt32
  opcode : UInt16
deriving DecidableEq, Repr

def unwrap {α : Type} : Option α → Partial α
  | some a => .ok a
  | none => .error .unwrap

/-- Object id, opcode and size of a header. The two halves of the second word
are swapped on a big-endian target. -/
def parseHeader (T : Target) (headerBytes : List UInt8) : Partial (UInt32 × UInt16 × ℕ) := do
  let objectId ← unwrap (u32FromNeBytes T (← slice headerBytes 0 4))
  let high ← unwrap (u16FromNeBytes T (← slice headerBytes 6 8))
  let low ← unwrap (u16FromNeBytes T (← slice headerBytes 4 6))
  let (msgSize,opcode) := if T.littleEndian then (high,low) else (low,high)
  return (objectId,opcode,msgSize.toNat)

def MessageMeta.fromData (T : Target) (buffer : List UInt8) (start : ℕ) :
    Partial (Except String MessageMeta) := do
  if buffer.length < start + headerSize then
    return .error "invalid message, can't contain a Wayland header"
  let headerBytes ← slice buffer start (start + headerSize)
  let (objectId,opcode,msgSize) ← parseHeader T headerBytes
  if buffer.length < start + msgSize then
    return .error "invalid buffer, no room to contain the payload"
  if msgSize < headerSize then
    return .error "invalid message, size inferior to header size"
  return .ok ⟨start,msgSize,objectId,opcode⟩

def MessageMeta.payload (m : MessageMeta) (buffer : List UInt8) : Partial (List UInt8) :=
  slice buffer (m.index + headerSize) (m.index + m.size)

def MessageMeta.extractReferencedObjectId (T : Target) (m : MessageMeta) (buffer : List UInt8)
    (endOffset : ℕ) : Partial (Option UInt32) := do
  let payload ← m.payload buffer
  let payloadLength := payload.length
  if (← usizeSub T payloadLength endOffset) > payloadLength then
    return none
  let start ← usizeSub T (← usizeSub T payloadLength endOffset) wordSize
  let stop ← usizeSub T payloadLength endOffset
  let data ← slice payload start stop
  return u32FromNeBytes T data

theorem parseHeader_total (T : Target) {h : List UInt8} (hl : h.length = 8) :
    ∃ r, parseHeader T h = .ok r := by
  match h, hl with
  | [b0,b1,b2,b3,b4,b5,b6,b7], _ => exact ⟨_,rfl⟩

/-- Reading a message never panics, and an accepted one lies in the buffer. -/
theorem fromData_total (T : Target) (buffer : List UInt8) (start : ℕ) :
    (∃ e, MessageMeta.fromData T buffer start = .ok (.error e)) ∨
    ∃ m, MessageMeta.fromData T buffer start = .ok (.ok m) ∧ m.index = start ∧
      headerSize ≤ m.size ∧ start + m.size ≤ buffer.length := by
  unfold MessageMeta.fromData
  by_cases hb : buffer.length < start + headerSize
  · rw [if_pos hb]
    exact .inl ⟨_,rfl⟩
  · rw [if_neg hb,slice_ok (Nat.le_add_right start headerSize) (Nat.not_lt.1 hb)]
    obtain ⟨⟨o,op,size⟩,hp⟩ := parseHeader_total T (h := (buffer.drop start).take (start + headerSize - start))
      (by simp only [List.length_take,List.length_drop,headerSize,wordSize] at hb ⊢; omega)
    simp only [ok_bind,hp]
    by_cases h1 : buffer.length < start + size
    · rw [if_pos h1]
      exact .inl ⟨_,rfl⟩
    · rw [if_neg h1]
      by_cases h2 : size < headerSize
      · rw [if_pos h2]
        exact .inl ⟨_,rfl⟩
      · rw [if_neg h2]
        exact .inr ⟨⟨start,size,o,op⟩,rfl,rfl,Nat.not_lt.1 h2,Nat.not_lt.1 h1⟩

def MessageMeta.payloadOf (m : MessageMeta) (buffer : List UInt8) : List UInt8 :=
  (buffer.drop (m.index + headerSize)).take (m.size - headerSize)

def MessageMeta.InBuffer (m : MessageMeta) (buffer : List UInt8) : Prop :=
  headerSize ≤ m.size ∧ m.index + m.size ≤ buffer.length

variable {m : MessageMeta} {buffer : List UInt8} {endOffset : ℕ}

theorem payload_eq (h : m.InBuffer buffer) : m.payload buffer = .ok (m.payloadOf buffer) := by
  have hs := h.1
  have hb := h.2
  unfold MessageMeta.payload MessageMeta.payloadOf
  rw [slice_ok (by omega) hb]
  congr 2
  omega

section
variable (T : Target) (payload : List UInt8)

def wordBefore (endOffset : ℕ) : Option UInt32 :=
  u32FromNeBytes T ((payload.drop (payload.length - endOffset - wordSize)).take wordSize)

/-- Whether the word can be read: it lies in the payload, or the subtraction
wraps and the guard returns early. -/
def WordReadable (endOffset : ℕ) : Prop :=
  endOffset + wordSize ≤ payload.length ∨ T.overflowChecks = false ∧ payload.length < endOffset

theorem extract_of_le (h : m.InBuffer buffer) (hw : endOffset + wordSize ≤ (m.payloadOf buffer).length) :
    m.extractReferencedObjectId T buffer endOffset = .ok (wordBefore T (m.payloadOf buffer) endOffset) := by
  have hle : ¬ (m.payloadOf buffer).length - endOffset > (m.payloadOf buffer).length := by omega
  simp only [MessageMeta.extractReferencedObjectId, payload_eq h, ok_bind,
    usizeSub_of_le T (show endOffset ≤ (m.payloadOf buffer).length by omega), hle, ↓reduceIte,
    usizeSub_of_le T (show wordSize ≤ (m.payloadOf buffer).length - endOffset by omega), wordBefore]
  rw [slice_ok (by omega) (by omega)]
  simp only [ok_bind]
  rw [Nat.sub_sub_self (by omega)]
  rfl

theorem extract_of_lt (h : m.InBuffer buffer)
    (he : endOffset < usizeModulus) (hw : (m.payloadOf buffer).length < endOffset + wordSize) :
    m.extractReferencedObjectId T buffer endOffset =
      if T.overflowChecks = false ∧ (m.payloadOf buffer).length < endOffset then .ok none
      else if T.overflowChecks then .error .arithmetic else .error .sliceIndex := by
  have hm := usizeModulus_gt
  simp only [MessageMeta.extractReferencedObjectId,payload_eq h,ok_bind,wordSize] at hw ⊢
  rcases lt_or_ge (m.payloadOf buffer).length endOffset with hlt | hge
  · rw [usizeSub_of_lt T hlt]
    cases hc : T.overflowChecks with
    | true => simp
    | false =>
      have hgt : (m.payloadOf buffer).length + usizeModulus - endOffset > (m.payloadOf buffer).length := by omega
      simp only [Bool.false_eq_true,↓reduceIte,ok_bind,hgt,hlt,and_self]
      rfl
  · have hle : ¬ (m.payloadOf buffer).length - endOffset > (m.payloadOf buffer).length := by omega
    have hs : (m.payloadOf buffer).length - endOffset < 4 := by omega
    rw [usizeSub_of_le T hge]
    simp only [ok_bind,hle,↓reduceIte,Nat.not_lt.2 hge,and_false]
    rw [usizeSub_of_lt T hs]
    cases hc : T.overflowChecks with
    | true => simp
    | false =>
      simp only [Bool.false_eq_true,↓reduceIte,ok_bind]
      rw [slice_of_gt (by omega), error_bind]

theorem returns_extract (h : m.InBuffer buffer) (he : endOffset < usizeModulus) :
    Returns (m.extractReferencedObjectId T buffer endOffset) ↔ WordReadable T (m.payloadOf buffer) endOffset := by
  unfold WordReadable
  rcases lt_or_ge (m.payloadOf buffer).length (endOffset + wordSize) with hlt | hge
  · rw [extract_of_lt T h he hlt]
    split_ifs with h1 h2 <;> simp_all
  · rw [extract_of_le T h hge]
    simp [hge]

end

end Padsi.Wayland
