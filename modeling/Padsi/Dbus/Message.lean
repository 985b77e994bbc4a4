import Padsi.Lib.Utf8
import Padsi.Lib.Text
import Padsi.Lib.Store
import Padsi.Lib.Python

/-! # D-Bus messages

The parser works on all the bytes that were received; an exception of `struct.unpack`
means that some are missing.
-/
namespace Padsi.Dbus
open Text Python Rust

abbrev Bytes := List UInt8

inductive Endian where
  | little
  | big
deriving DecidableEq, Repr

inductive MessageType where
  | methodCall
  | methodReturn
  | error
  | signal
deriving DecidableEq, Repr

inductive HeaderType where
  | path
  | interface
  | member
  | errorName
  | replySerial
  | destination
  | sender
  | signature
  | unixFds
deriving DecidableEq, Repr

inductive Value where
  | text (s : Str)
  | num (n : UInt32)
deriving DecidableEq

inductive Failure where
  | incomplete
  | endian (b : UInt8)
  | messageType (b : UInt8)
  | headerCode (b : UInt8)
  | decode
  | unhandled (h : HeaderType) (signature : Str)
deriving DecidableEq

def Endian.target (e : Endian) : Target := ⟨decide (e = .little),false⟩

def Endian.unpackWord (e : Endian) (data : Bytes) : Except Failure UInt32 :=
  match u32FromNeBytes e.target data with
  | some n => .ok n
  | none => .error .incomplete

def Endian.packWord (e : Endian) (n : UInt32) : Bytes := u32ToNeBytes e.target n

def unpackByte : Bytes → Except Failure UInt8
  | [b] => .ok b
  | _ => .error .incomplete

def decodeText (data : Bytes) : Except Failure Str :=
  match Utf8.decode data with
  | some s => .ok s
  | none => .error .decode

def unmarshallString (e : Endian) (data : Bytes) : Except Failure (Str × ℕ) := do
  let len ← e.unpackWord (data.take 4)
  let s ← decodeText ((data.drop 4).take len.toNat)
  return (s,len.toNat + 5)

def unmarshallSignature (data : Bytes) : Except Failure (Str × ℕ) := do
  let len ← unpackByte (data.take 1)
  let s ← decodeText ((data.drop 1).take len.toNat)
  return (s,len.toNat + 2)

def readEndian (b : UInt8) : Except Failure Endian :=
  if b = 108 then .ok .little else if b = 66 then .ok .big else .error (.endian b)

def readMessageType (b : UInt8) : Except Failure MessageType :=
  if b = 1 then .ok .methodCall
  else if b = 2 then .ok .methodReturn
  else if b = 3 then .ok .error
  else if b = 4 then .ok .signal
  else .error (.messageType b)

def HeaderType.code : HeaderType → UInt8
  | .path => 1
  | .interface => 2
  | .member => 3
  | .errorName => 4
  | .replySerial => 5
  | .destination => 6
  | .sender => 7
  | .signature => 8
  | .unixFds => 9

def HeaderType.fieldSignature : HeaderType → Char
  | .path => 'o'
  | .interface | .member | .errorName | .destination | .sender => 's'
  | .replySerial | .unixFds => 'u'
  | .signature => 'g'

inductive HeaderType.IsText : HeaderType → Prop
  | path : IsText .path
  | interface : IsText .interface
  | member : IsText .member
  | errorName : IsText .errorName
  | destination : IsText .destination
  | sender : IsText .sender

theorem HeaderType.IsText.kind {h : HeaderType} (t : h.IsText) : h.fieldSignature = 'o' ∨ h.fieldSignature = 's' := by
  cases t with
  | path => exact .inl rfl
  | _ => exact .inr rfl

def headerTypes : List HeaderType :=
  [.path,.interface,.member,.errorName,.replySerial,.destination,.sender,.signature,.unixFds]

def readHeaderType (code : UInt8) : Except Failure HeaderType :=
  match headerTypes.find? fun h => h.code = code with
  | some h => .ok h
  | none => .error (.headerCode code)

def parseField (e : Endian) (data : Bytes) : Except Failure ((HeaderType × Value) × ℕ) := do
  let code ← unpackByte (data.take 1)
  let signature ← unmarshallSignature (data.drop 1)
  let htype ← readHeaderType code
  let consumed := 1 + signature.2
  match signature.1 with
  | ['o'] | ['s'] => do
    let value ← unmarshallString e (data.drop consumed)
    return ((htype,.text value.1),consumed + value.2)
  | ['g'] => do
    let value ← unmarshallSignature (data.drop consumed)
    return ((htype,.text value.1),consumed + value.2)
  | ['u'] | ['h'] => do
    let value ← e.unpackWord ((data.drop consumed).take 4)
    return ((htype,.num value),consumed + 4)
  | _ => .error (.unhandled htype signature.1)

def align (n : ℕ) : ℕ := n + (8 - n % 8) % 8
theorem le_align (n : ℕ) : n ≤ align n := Nat.le_add_right _ _

theorem align_mod (n : ℕ) : align n % 8 = 0 := by
  unfold align
  omega

theorem parseField_pos {e : Endian} {data : Bytes} {f : HeaderType × Value} {n : ℕ}
    (h : parseField e data = .ok (f,n)) : 0 < n := by
  obtain ⟨code,_,h⟩ := bind_eq_ok.1 h
  obtain ⟨signature,_,h⟩ := bind_eq_ok.1 h
  obtain ⟨ht,_,h⟩ := bind_eq_ok.1 h
  dsimp only at h
  split at h
  · obtain ⟨value,_,h⟩ := bind_eq_ok.1 h
    cases h
    omega
  · obtain ⟨value,_,h⟩ := bind_eq_ok.1 h
    cases h
    omega
  · obtain ⟨value,_,h⟩ := bind_eq_ok.1 h
    cases h
    omega
  · obtain ⟨value,_,h⟩ := bind_eq_ok.1 h
    cases h
    omega
  · obtain ⟨value,_,h⟩ := bind_eq_ok.1 h
    cases h
    omega
  · cases h

def parseFields (e : Endian) (blob : Bytes) (headerLength index : ℕ) (fields : Dict HeaderType Value) :
    Except Failure (Dict HeaderType Value) :=
  if index < headerLength then
    match _h : parseField e (blob.drop index) with
    | .error f => .error f
    | .ok (f,n) => parseFields e blob headerLength (align (index + n)) (fields.set f.1 f.2)
  else .ok fields
termination_by headerLength - index
decreasing_by
  have hpos := parseField_pos _h
  have hle := le_align (index + n)
  omega

theorem parseFields_turn {e : Endian} {blob : Bytes} {headerLength index n : ℕ} {fields : Dict HeaderType Value}
    {f : HeaderType × Value} (hi : index < headerLength) (h : parseField e (blob.drop index) = .ok (f,n)) :
    parseFields e blob headerLength index fields =
      parseFields e blob headerLength (align (index + n)) (fields.set f.1 f.2) := by
  rw [parseFields,if_pos hi]
  split
  · rename_i he
    rw [h] at he
    cases he
  · rename_i hok
    rw [h] at hok
    cases hok
    rfl

theorem parseFields_error {e : Endian} {blob : Bytes} {headerLength index : ℕ} {fields : Dict HeaderType Value}
    {f : Failure} (hi : index < headerLength) (h : parseField e (blob.drop index) = .error f) :
    parseFields e blob headerLength index fields = .error f := by
  rw [parseFields,if_pos hi]
  split
  · rename_i he
    rw [h] at he
    cases he
    rfl
  · rename_i hok
    rw [h] at hok
    cases hok

structure Message where
  endian : Endian
  messageType : MessageType
  flags : UInt8
  serial : UInt32
  bodyLength : ℕ
  headerLength : ℕ
  fields : Dict HeaderType Value
  blob : Bytes
  passedFd : List ℤ

def Message.parse (blob : Bytes) : Except Failure Message :=
  if blob.length < 12 then .error .incomplete
  else do
    let endian ← readEndian (blob.getD 0 0)
    let bodyLength ← endian.unpackWord ((blob.drop 4).take 4)
    let serial ← endian.unpackWord ((blob.drop 8).take 4)
    let messageType ← readMessageType (blob.getD 1 0)
    let arrayLength ← endian.unpackWord ((blob.drop 12).take 4)
    let headerLength := align (16 + arrayLength.toNat)
    if headerLength + bodyLength.toNat > blob.length then .error .incomplete
    else do
      let fields ← parseFields endian blob headerLength 16 .empty
      return ⟨endian,messageType,blob.getD 2 0,serial,bodyLength.toNat,headerLength,fields,
        blob.take (headerLength + bodyLength.toNat),[]⟩

def Message.length (m : Message) : ℕ := m.headerLength + m.bodyLength

theorem Message.parse_eq_ok {blob : Bytes} {m : Message} (h : parse blob = .ok m) :
    16 ≤ m.headerLength ∧ m.length ≤ blob.length ∧ m.blob = blob.take m.length ∧ m.passedFd = [] := by
  unfold parse at h
  split at h
  · cases h
  · obtain ⟨endian,_,h⟩ := bind_eq_ok.1 h
    obtain ⟨bodyLength,_,h⟩ := bind_eq_ok.1 h
    obtain ⟨serial,_,h⟩ := bind_eq_ok.1 h
    obtain ⟨messageType,_,h⟩ := bind_eq_ok.1 h
    obtain ⟨arrayLength,_,h⟩ := bind_eq_ok.1 h
    dsimp only at h
    split at h
    · cases h
    · rename_i hl
      obtain ⟨fields,_,h⟩ := bind_eq_ok.1 h
      cases h
      have hle := le_align (16 + arrayLength.toNat)
      refine ⟨?_,Nat.not_lt.1 hl,rfl,rfl⟩
      change 16 ≤ align (16 + arrayLength.toNat)
      omega

end Padsi.Dbus
