import Padsi.Dbus.Message

/-! # Well-formed messages on the wire, and what the parser reads from them -/
namespace Padsi.Dbus
open Text Python Rust List Utf8 UInt32 Message

/-- A field whose code is not known has a value of any type. -/
inductive WireField where
  | string (h : HeaderType) (s : Str) (kind : h.fieldSignature = 'o' ∨
    h.fieldSignature = 's') (short : (Utf8.encode s).length < 2 ^ 32)
  | signature (s : Str) (short : (Utf8.encode s).length < 2 ^ 8)
  | word (h : HeaderType) (n : UInt32) (kind : h.fieldSignature = 'u')
  | other (code : UInt8) (s : Str) (value : Bytes) (unknown : ∀ h : HeaderType,
    h.code ≠ code) (short : (Utf8.encode s).length < 2 ^ 8)

def HeaderType.signatureByte (h : HeaderType) : UInt8 := UInt8.ofNat h.fieldSignature.toNat

namespace WireField

def bytes (e : Endian) : WireField → Bytes
  | .string h s _ _ =>
    [h.code,1,h.signatureByte,0] ++ (e.packWord (UInt32.ofNat (Utf8.encode s).length) ++ (Utf8.encode s ++ [0]))
  | .signature s _ => [HeaderType.signature.code,1,HeaderType.signature.signatureByte,0] ++
      (UInt8.ofNat (Utf8.encode s).length :: (Utf8.encode s ++ [0]))
  | .word h n _ => [h.code,1,h.signatureByte,0] ++ e.packWord n
  | .other code s value _ _ => code :: UInt8.ofNat (Utf8.encode s).length :: (Utf8.encode s ++ 0 :: value)

def content : WireField → Option (HeaderType × Value)
  | .string h s _ _ => some (h,.text s)
  | .signature s _ => some (.signature,.text s)
  | .word h n _ => some (h,.num n)
  | .other .. => none

def padded (e : Endian) (f : WireField) : Bytes :=
  f.bytes e ++ replicate (align (f.bytes e).length - (f.bytes e).length) 0

theorem length_padded (e : Endian) (f : WireField) : (f.padded e).length = align (f.bytes e).length := by
  have hle := le_align (f.bytes e).length
  rw [padded,length_append,length_replicate]
  omega

end WireField

/-- The length of the array of fields, which ends with the last field and not with its padding. -/
def arrayLength (e : Endian) : List WireField → ℕ
  | [] => 0
  | [f] => (f.bytes e).length
  | f :: fs => (f.padded e).length + arrayLength e fs

def fieldBytes (e : Endian) (fs : List WireField) : Bytes := fs.flatMap (WireField.padded e)

theorem length_fieldBytes_mod (e : Endian) (fs : List WireField) : (fieldBytes e fs).length % 8 = 0 := by
  induction fs with
  | nil => rfl
  | cons f fs ih =>
    have hm := align_mod (f.bytes e).length
    unfold fieldBytes at ih ⊢
    rw [flatMap_cons,length_append,WireField.length_padded]
    omega

theorem align_arrayLength (e : Endian) (fs : List WireField) :
    align (16 + arrayLength e fs) = 16 + (fieldBytes e fs).length := by
  induction fs with
  | nil => simp [arrayLength,fieldBytes,align]
  | cons f fs ih =>
    have hm := align_mod (f.bytes e).length
    cases fs with
    | nil =>
      rw [fieldBytes,flatMap_singleton,WireField.length_padded,arrayLength]
      unfold align
      omega
    | cons g fs =>
      have hm' := length_fieldBytes_mod e (g :: fs)
      unfold fieldBytes at ih hm' ⊢
      rw [arrayLength,flatMap_cons,length_append,WireField.length_padded]
      unfold align at *
      omega
      simp

def Endian.byte : Endian → UInt8
  | .little => 108
  | .big => 66

structure Wire where
  endian : Endian
  messageType : UInt8
  flags : UInt8
  version : UInt8
  serial : UInt32
  fields : List WireField
  body : Bytes
  limit : 16 + (fieldBytes endian fields).length + body.length ≤ 2 ^ 27

namespace Wire

def start (w : Wire) : Bytes :=
  [w.endian.byte,w.messageType,w.flags,
    w.version] ++ (w.endian.packWord (UInt32.ofNat w.body.length) ++ w.endian.packWord w.serial)
def encode (w : Wire) : Bytes :=
  w.start ++ (w.endian.packWord (UInt32.ofNat (arrayLength w.endian w.fields)) ++
    (fieldBytes w.endian w.fields ++ w.body))
theorem length_start (w : Wire) : w.start.length = 12 := by
  simp [start,Endian.packWord]

theorem length_encode (w : Wire) : w.encode.length = 16 + (fieldBytes w.endian w.fields).length + w.body.length := by
  simp only [encode,length_append,length_start,Endian.packWord,u32ToNeBytes_length]
  omega

structure Known (w : Wire) : Prop where
  messageType : ∃ t, readMessageType w.messageType = .ok t
  fields : ∀ f ∈ w.fields, f.content.isSome = true

end Wire

theorem unpackWord_packWord (e : Endian) (n : UInt32) : e.unpackWord (e.packWord n) = .ok n := by
  rw [Endian.unpackWord,Endian.packWord,u32FromNeBytes_toNeBytes]
theorem length_packWord (e : Endian) (n : UInt32) : (e.packWord n).length = 4 := u32ToNeBytes_length _ _
theorem decodeText_encode (s : Str) : decodeText (encode s) = .ok s := by
  rw [decodeText,decode_encode]

theorem unmarshallString_encode (e : Endian) {s : Str} (hs : (encode s).length < 2 ^ 32) (rest : Bytes) :
    unmarshallString e (e.packWord (ofNat (encode s).length) ++ (encode s ++ rest)) =
      .ok (s,(encode s).length + 5) := by
  have hw := length_packWord e (ofNat (encode s).length)
  have hl : (ofNat (encode s).length).toNat = (encode s).length := toNat_ofNat_of_lt' hs
  rw [unmarshallString,← hw,take_left',drop_left',unpackWord_packWord]
  · refine bind_eq_ok.2 ⟨_,rfl,bind_eq_ok.2 ⟨s,?_,?_⟩⟩
    · rw [hl,take_left',decodeText_encode]
      rfl
    · rw [hl]
      rfl
  · rfl
  · rfl

theorem unmarshallSignature_encode {s : Str} (hs : (encode s).length < 2 ^ 8) (rest : Bytes) :
    unmarshallSignature (UInt8.ofNat (encode s).length :: (encode s ++ rest)) = .ok (s,(encode s).length + 2) := by
  have hl : (UInt8.ofNat (encode s).length).toNat = (encode s).length := UInt8.toNat_ofNat_of_lt' hs
  refine bind_eq_ok.2 ⟨_,rfl,bind_eq_ok.2 ⟨s,?_,?_⟩⟩
  · rw [hl,drop_succ_cons,drop_zero,take_left',decodeText_encode]
    rfl
  · rw [hl]
    rfl

theorem readHeaderType_code (h : HeaderType) : readHeaderType h.code = .ok h := by
  cases h <;> rfl

theorem unmarshallSignature_kind (h : HeaderType) (rest : Bytes) :
    unmarshallSignature (1 :: h.signatureByte :: 0 :: rest) = .ok ([h.fieldSignature],3) := by
  cases h <;> rfl

/-- A field is read back from its bytes, whatever follows them. -/
theorem parseField_bytes (e : Endian) {f : WireField} {c : HeaderType × Value} (hc : f.content = some c)
    (rest : Bytes) : parseField e (f.bytes e ++ rest) = .ok (c,(f.bytes e).length) := by
  cases f with
  | string h s kind short =>
    cases hc
    refine bind_eq_ok.2 ⟨h.code,rfl,
      bind_eq_ok.2 ⟨_,unmarshallSignature_kind h _,bind_eq_ok.2 ⟨h,readHeaderType_code h,?_⟩⟩⟩
    have hv := unmarshallString_encode e short (0 :: rest)
    have hl : ([h.code,1,h.signatureByte,0] ++ (e.packWord (ofNat (encode s).length) ++ (encode s ++ [0]))).length =
        4 + ((encode s).length + 5) := by
      simp only [length_append,length_packWord,length_cons,length_nil]
      omega
    have hd : e.packWord (ofNat (encode s).length) ++ (encode s ++ 0 :: rest) =
        drop 4 (([h.code,1,h.signatureByte,0] ++ (e.packWord (ofNat (encode s).length) ++ (encode s ++ [0]))) ++
          rest) := by
      simp
    rw [hd] at hv
    simp only [WireField.bytes,hl]
    rcases kind with hkind | hkind
    · simp only [hkind]
      exact bind_eq_ok.2 ⟨_,hv,rfl⟩
    · simp only [hkind]
      exact bind_eq_ok.2 ⟨_,hv,rfl⟩
  | signature s short =>
    cases hc
    refine bind_eq_ok.2 ⟨HeaderType.signature.code,rfl,
      bind_eq_ok.2 ⟨_,unmarshallSignature_kind .signature _,bind_eq_ok.2 ⟨.signature,rfl,?_⟩⟩⟩
    have hv := unmarshallSignature_encode short (0 :: rest)
    have hl : (WireField.bytes e (.signature s short)).length = 4 + ((encode s).length + 2) := by
      simp only [WireField.bytes,length_append,length_cons,length_nil]
    have hd : UInt8.ofNat (encode s).length :: (encode s ++ 0 :: rest) =
        drop 4 (WireField.bytes e (.signature s short) ++ rest) := by
      simp [WireField.bytes]
    rw [hd] at hv
    rw [hl]
    exact bind_eq_ok.2 ⟨_,hv,rfl⟩
  | word h n kind =>
    cases hc
    refine bind_eq_ok.2 ⟨h.code,rfl,
      bind_eq_ok.2 ⟨_,unmarshallSignature_kind h _,bind_eq_ok.2 ⟨h,readHeaderType_code h,?_⟩⟩⟩
    have hv := unpackWord_packWord e n
    have hl : (WireField.bytes e (.word h n kind)).length = 4 + 4 := by
      simp only [WireField.bytes,length_append,length_packWord,length_cons,length_nil]
    have hd : e.packWord n = (drop 4 (WireField.bytes e (.word h n kind) ++ rest)).take 4 := by
      simp [WireField.bytes,take_left' (length_packWord e n)]
    rw [hd] at hv
    rw [hl]
    simp only [kind]
    exact bind_eq_ok.2 ⟨_,hv,rfl⟩
  | other => cases hc

theorem parseField_other (e : Endian) {f : WireField} (hf : f.content = none) (rest : Bytes) :
    ∃ code, parseField e (f.bytes e ++ rest) = .error (.headerCode code) := by
  cases f with
  | string => cases hf
  | signature => cases hf
  | word => cases hf
  | other code s value unknown short =>
    have hc : readHeaderType code = .error (.headerCode code) := by
      have hnone : headerTypes.find? (fun h => h.code = code) = none :=
        find?_eq_none.2 fun h _ hc => unknown h (of_decide_eq_true hc)
      rw [readHeaderType,hnone]
    have hs := unmarshallSignature_encode short (0 :: (value ++ rest))
    have hd : drop 1 (WireField.bytes e (.other code s value unknown short) ++ rest) =
        UInt8.ofNat (encode s).length :: (encode s ++ 0 :: (value ++ rest)) := by
      simp [WireField.bytes]
    refine ⟨code,?_⟩
    rw [parseField,hd,hs]
    simp only [WireField.bytes,cons_append,take_succ_cons,take_zero,unpackByte,bind,Except.bind,hc]

theorem bytes_pos (e : Endian) (f : WireField) : 0 < (f.bytes e).length := by
  cases f <;> simp [WireField.bytes]

section
variable {e : Endian} {f : WireField} {fs : List WireField} {pre : Bytes} (hpre : pre.length % 8 = 0) (post : Bytes)

theorem fieldBytes_cons : fieldBytes e (f :: fs) = f.padded e ++ fieldBytes e fs := flatMap_cons

theorem drop_fieldBytes : (pre ++ (fieldBytes e (f :: fs) ++ post)).drop pre.length = f.bytes e ++
    (replicate (align (f.bytes e).length - (f.bytes e).length) 0 ++ (fieldBytes e fs ++ post)) := by
  rw [drop_left,fieldBytes_cons,WireField.padded,append_assoc,append_assoc]

theorem lt_fieldBytes : pre.length < pre.length + (fieldBytes e (f :: fs)).length := by
  have hp := bytes_pos e f
  have hle := le_align (f.bytes e).length
  rw [fieldBytes_cons,length_append,WireField.length_padded]
  omega

include hpre

theorem parseFields_cons {c : HeaderType × Value} (hc : f.content = some c) (fields : Dict HeaderType Value) :
    parseFields e (pre ++ (fieldBytes e (f :: fs) ++ post))
    (pre.length + (fieldBytes e (f :: fs)).length) pre.length fields =
      parseFields e ((pre ++ f.padded e) ++ (fieldBytes e fs ++ post))
        ((pre ++ f.padded e).length + (fieldBytes e fs).length)
        (pre ++ f.padded e).length (fields.set c.1 c.2) := by
  have hp := parseField_bytes e hc
    (replicate (align (f.bytes e).length - (f.bytes e).length) 0 ++ (fieldBytes e fs ++ post))
  rw [← drop_fieldBytes] at hp
  have hn : align (pre.length + (f.bytes e).length) = (pre ++ f.padded e).length := by
    rw [length_append,WireField.length_padded]
    unfold align
    omega
  have hb : pre ++ (fieldBytes e (f :: fs) ++ post) = (pre ++ f.padded e) ++ (fieldBytes e fs ++ post) := by
    rw [fieldBytes_cons,append_assoc,append_assoc]
  have he : pre.length + (fieldBytes e (f :: fs)).length = (pre ++ f.padded e).length + (fieldBytes e fs).length := by
    rw [fieldBytes_cons,length_append,length_append]
    omega
  rw [parseFields_turn lt_fieldBytes hp,hn,hb,he]

theorem length_padded_mod : (pre ++ f.padded e).length % 8 = 0 := by
  have hm := align_mod (f.bytes e).length
  rw [length_append,WireField.length_padded]
  omega

end

theorem parseFields_bytes (e : Endian) {fs : List WireField} (hfs : ∀ f ∈ fs, f.content.isSome = true)
    {pre : Bytes} (hpre : pre.length % 8 = 0) (post : Bytes) (fields : Dict HeaderType Value) :
    parseFields e (pre ++ (fieldBytes e fs ++ post)) (pre.length + (fieldBytes e fs).length) pre.length fields =
      .ok ((fs.filterMap WireField.content).foldl (fun d c => d.set c.1 c.2) fields) := by
  induction fs generalizing pre fields with
  | nil => rw [parseFields, if_neg (by simp [fieldBytes])]; rfl
  | cons f fs ih =>
    obtain ⟨hf,hrest⟩ := forall_mem_cons.1 hfs
    obtain ⟨c,hc⟩ := Option.isSome_iff_exists.1 hf
    rw [parseFields_cons hpre post hc,ih hrest (length_padded_mod hpre),filterMap_cons_some hc,foldl_cons]

theorem parseFields_unknown (e : Endian) {fs : List WireField} (hfs : ¬ ∀ f ∈ fs, f.content.isSome = true) {pre : Bytes}
    (hpre : pre.length % 8 = 0) (post : Bytes) (fields : Dict HeaderType Value) :
    ∃ code, parseFields e (pre ++ (fieldBytes e fs ++ post)) (pre.length + (fieldBytes e fs).length) pre.length fields =
      .error (.headerCode code) := by
  induction fs generalizing pre fields with
  | nil => exact absurd nofun hfs
  | cons f fs ih =>
    cases hc : f.content with
    | none =>
      obtain ⟨code,hco⟩ := parseField_other e hc
        (replicate (align (f.bytes e).length - (f.bytes e).length) 0 ++ (fieldBytes e fs ++ post))
      rw [← drop_fieldBytes] at hco
      exact ⟨code,parseFields_error lt_fieldBytes hco⟩
    | some c =>
      rw [parseFields_cons hpre post hc]
      refine ih (fun ha => hfs ?_) (length_padded_mod hpre) _
      exact forall_mem_cons.2 ⟨by rw [hc]; rfl,ha⟩

namespace Wire

theorem readEndian_byte (e : Endian) : readEndian e.byte = .ok e := by
  cases e <;> rfl

theorem body_length (w : Wire) : (ofNat w.body.length).toNat = w.body.length := by
  have hl := w.limit
  exact toNat_ofNat_of_lt' (show w.body.length < 2 ^ 32 by omega)

def parseRest (w : Wire) (t : MessageType) (rest : Bytes) : Except Failure Message := do
  let arrayLength ← w.endian.unpackWord (rest.take 4)
  if align (16 + arrayLength.toNat) + w.body.length > (w.start ++ rest).length then .error .incomplete
  else do
    let fields ← parseFields w.endian (w.start ++ rest) (align (16 + arrayLength.toNat)) 16 .empty
    return ⟨w.endian,t,w.flags,w.serial,w.body.length,align (16 + arrayLength.toNat),fields,
      (w.start ++ rest).take (align (16 + arrayLength.toNat) + w.body.length),[]⟩

theorem parse_start (w : Wire) (rest : Bytes) :
    parse (w.start ++ rest) = (readMessageType w.messageType).bind fun t => w.parseRest t rest := by
  have hl : ¬ (w.start ++ rest).length < 12 := by
    rw [length_append,length_start]
    omega
  have hb : ((w.start ++ rest).drop 4).take 4 = w.endian.packWord (ofNat w.body.length) := by
    simp [start,take_left' (length_packWord _ _)]
  have hs : ((w.start ++ rest).drop 8).take 4 = w.endian.packWord w.serial := by
    have hd : (w.start ++ rest).drop 8 = w.endian.packWord w.serial ++ rest := by
      have he : 8 = 4 + (w.endian.packWord (ofNat w.body.length)).length := by rw [length_packWord]
      rw [he,← drop_drop]
      simp [start]
    rw [hd,take_left' (length_packWord _ _)]
  have ha : (w.start ++ rest).drop 12 = rest := drop_left' w.length_start
  have hen : readEndian ((w.start ++ rest).getD 0 0) = .ok w.endian := readEndian_byte w.endian
  unfold parse parseRest
  rw [if_neg hl,hen,hb,hs,ha]
  simp only [unpackWord_packWord,bind,Except.bind,body_length]
  rfl

theorem array_length (w : Wire) : (ofNat (arrayLength w.endian w.fields)).toNat = arrayLength w.endian w.fields := by
  have hl := w.limit
  have ha := align_arrayLength w.endian w.fields
  have hle := le_align (16 + arrayLength w.endian w.fields)
  exact toNat_ofNat_of_lt' (show arrayLength w.endian w.fields < 2 ^ 32 by omega)

def message (w : Wire) (t : MessageType) : Message where
  endian := w.endian
  messageType := t
  flags := w.flags
  serial := w.serial
  bodyLength := w.body.length
  headerLength := 16 + (fieldBytes w.endian w.fields).length
  fields := (w.fields.filterMap WireField.content).foldl (fun d c => d.set c.1 c.2) .empty
  blob := w.encode
  passedFd := []

theorem length_message (w : Wire) (t : MessageType) : (w.message t).length = w.encode.length := by
  rw [length_encode]
  rfl

theorem parseRest_array (w : Wire) (t : MessageType) (rest : Bytes) :
    w.parseRest t (w.endian.packWord (ofNat (arrayLength w.endian w.fields)) ++ rest) =
      if w.encode.length > 16 + rest.length then .error .incomplete
      else (parseFields w.endian (w.start ++ (w.endian.packWord (ofNat (arrayLength w.endian w.fields)) ++ rest))
          (16 + (fieldBytes w.endian w.fields).length) 16 .empty).bind fun fields =>
        .ok { w.message t with
          fields := fields
          blob := (w.start ++ (w.endian.packWord (ofNat (arrayLength w.endian w.fields)) ++
            rest)).take w.encode.length } := by
  have hl : (w.start ++ (w.endian.packWord (ofNat (arrayLength w.endian w.fields)) ++ rest)).length =
      16 + rest.length := by
    simp only [length_append,length_start,length_packWord]
    omega
  unfold parseRest
  rw [take_left' (length_packWord _ _),unpackWord_packWord,hl,length_encode]
  simp only [bind,Except.bind,array_length,align_arrayLength]
  split
  · rfl
  · rfl

variable {w : Wire}

theorem parse_whole {t : MessageType} (ht : readMessageType w.messageType = .ok t) (rest : Bytes) : ∃ pre :
    Bytes, pre.length = 16 ∧
    parse (w.encode ++ rest) = (parseFields w.endian (pre ++ (fieldBytes w.endian w.fields ++ (w.body ++ rest)))
      (pre.length + (fieldBytes w.endian w.fields).length) pre.length .empty).bind fun fields =>
        .ok { w.message t with fields } := by
  have hsplit : w.encode ++ rest = w.start ++ (w.endian.packWord (ofNat (arrayLength w.endian w.fields)) ++
      (fieldBytes w.endian w.fields ++ (w.body ++ rest))) := by
    simp only [encode,append_assoc]
  have hpre : (w.start ++ w.endian.packWord (ofNat (arrayLength w.endian w.fields))).length = 16 := by
    rw [length_append,length_start,length_packWord]
  have hr : ¬ w.encode.length > 16 + (fieldBytes w.endian w.fields ++ (w.body ++ rest)).length := by
    rw [length_encode,length_append,length_append]
    omega
  refine ⟨_,hpre,?_⟩
  rw [hpre,append_assoc,hsplit,parse_start,ht]
  change w.parseRest t _ = _
  rw [parseRest_array,if_neg hr,← hsplit,take_left]
  rfl

theorem parse_encode {t : MessageType} (ht : readMessageType w.messageType = .ok t)
    (hf : ∀ f ∈ w.fields, f.content.isSome = true) (rest : Bytes) : parse (w.encode ++ rest) = .ok (w.message t) := by
  obtain ⟨pre,hpre,hp⟩ := parse_whole ht rest
  rw [hp, parseFields_bytes w.endian hf (by rw [hpre])]
  rfl

/-- A message that is not of a known type, or that has an unknown field, is an error. -/
theorem parse_unknown (hw : ¬ w.Known) (rest : Bytes) : ∃ f, f ≠ .incomplete ∧ parse (w.encode ++ rest) = .error f := by
  cases ht : readMessageType w.messageType with
  | error f =>
    refine ⟨f,?_,?_⟩
    · rintro rfl
      unfold readMessageType at ht
      split_ifs at ht
      cases ht
    · rw [encode,append_assoc,parse_start,ht]
      rfl
  | ok t =>
    obtain ⟨pre,hpre,hp⟩ := parse_whole ht rest
    obtain ⟨code,hc⟩ := parseFields_unknown w.endian (fun h => hw ⟨⟨t,ht⟩,h⟩) (by rw [hpre]) (w.body ++ rest) .empty
    refine ⟨.headerCode code,by simp,?_⟩
    rw [hp,hc]
    rfl

theorem parse_part {t : MessageType} (ht : readMessageType w.messageType = .ok t) {p : Bytes} (hp : p <+: w.encode)
    (hlt : p.length < w.encode.length) : parse p = .error .incomplete := by
  by_cases hs : p.length < 12
  · exact if_pos hs
  · have hst : w.start <+: p := prefix_of_prefix_length_le (prefix_append _ _) hp (by rw [length_start]; omega)
    obtain ⟨q,rfl⟩ := hst
    have hq := (prefix_append_right_inj _).1 hp
    rw [parse_start,ht]
    change w.parseRest t q = _
    by_cases hw : q.length < 4
    · have hnone : u32FromNeBytes w.endian.target (q.take 4) = none := by
        rw [take_of_length_le (by omega)]
        match q, hw with
        | [], _ | [_], _ | [_,_], _ | [_,_,_], _ => rfl
      unfold parseRest Endian.unpackWord
      rw [hnone]
      rfl
    · have ha : w.endian.packWord (ofNat (arrayLength w.endian w.fields)) <+: q :=
        prefix_of_prefix_length_le (prefix_append _ _) hq (by rw [length_packWord]; omega)
      obtain ⟨r,rfl⟩ := ha
      rw [parseRest_array,if_pos]
      rw [length_append,length_append,length_start,length_packWord] at hlt
      omega

theorem parse_part_error {p : Bytes} (hp : p <+: w.encode) (hlt : p.length < w.encode.length) :
    ∃ f, parse p = .error f := by
  cases ht : readMessageType w.messageType with
  | ok t => exact ⟨.incomplete,parse_part ht hp hlt⟩
  | error f =>
    by_cases hs : p.length < 12
    · exact ⟨.incomplete,if_pos hs⟩
    · have hst : w.start <+: p := prefix_of_prefix_length_le (prefix_append _ _) hp (by rw [length_start]; omega)
      obtain ⟨q,rfl⟩ := hst
      refine ⟨f,?_⟩
      rw [parse_start,ht]
      rfl

end Wire

end Padsi.Dbus
