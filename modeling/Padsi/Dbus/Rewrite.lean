import Padsi.Dbus.Reassembly

/-! # Rewriting a header

`change_header` lays the fields out again in a working buffer, whose size is estimated
before the fields are aligned.
-/
namespace Padsi.Dbus
open Text Python List Message WireField UInt32

def marshallString (e : Endian) : Value → Except Exc Bytes
  | .text s => if s.length < 2 ^ 32 then .ok (e.packWord (UInt32.ofNat s.length) ++ (Utf8.encode s ++ [0]))
    else .error .structError
  | .num _ => .error .typeError

def marshallSignature : Value → Except Exc Bytes
  | .text s => if s.length < 2 ^ 8 then .ok (UInt8.ofNat s.length :: (Utf8.encode s ++ [0])) else .error .structError
  | .num _ => .error .typeError

def marshallWord (e : Endian) : Value → Except Exc Bytes
  | .text _ => .error .structError
  | .num n => .ok (e.packWord n)

def marshallValue (e : Endian) (h : HeaderType) (v : Value) : Except Exc Bytes :=
  if h.fieldSignature = 'o' ∨ h.fieldSignature = 's' then marshallString e v
  else if h.fieldSignature = 'g' then marshallSignature v
  else if h.fieldSignature = 'u' ∨ h.fieldSignature = 'h' then marshallWord e v
  else .error (.unhandledHeader h)

def put (size : ℕ) (out data : Bytes) : Except Exc Bytes :=
  if out.length + data.length ≤ size then .ok (out ++ data) else .error .valueError

def putPadding (size : ℕ) (out : Bytes) : Except Exc Bytes :=
  if (8 - out.length % 8) % 8 > 0 then put size out (replicate ((8 - out.length % 8) % 8) 0) else .ok out

def putField (e : Endian) (size : ℕ) (out : Bytes) (f : HeaderType × Value) : Except Exc (Bytes × ℕ) := do
  let out ← put size out [f.1.code]
  let out ← put size out [1,f.1.signatureByte,0]
  let data ← marshallValue e f.1 f.2
  let out ← put size out data
  let padded ← putPadding size out
  return (padded,out.length)

abbrev Changes := HeaderType → Option (Option Value)

/-- `changed_fields.get(htype, value)`, which must not be `None`. -/
def changedValue (changed : Changes) (f : HeaderType × Value) : Except Exc Value :=
  match changed f.1 with
  | none => .ok f.2
  | some none => .error (.noneHeader f.1)
  | some (some v) => .ok v

def putFields (e : Endian) (size : ℕ) (changed : Changes) :
    List (HeaderType × Value) → Bytes × ℕ → Except Exc (Bytes × ℕ)
  | [], written => .ok written
  | f :: fs, written => do
    let value ← changedValue changed f
    let written ← putField e size written.1 (f.1,value)
    putFields e size changed fs written

def growth (changed : Changes) (f : HeaderType × Value) : Except Exc ℕ :=
  match changed f.1, f.2 with
  | some (some (.text s)), .text t => .ok (s.length - t.length)
  | some (some (.text _)), .num _ => .error .typeError
  | _, _ => .ok 0

def extraSize (changed : Changes) : List (HeaderType × Value) → Except Exc ℕ
  | [] => .ok 0
  | f :: fs => do
    let first ← growth changed f
    let rest ← extraSize changed fs
    return first + rest

namespace Message

def body (m : Message) : Bytes := (m.blob.drop m.headerLength).take m.bodyLength
def packLength (e : Endian) (n : ℕ) : Except Exc Bytes :=
  if n < 2 ^ 31 then .ok (e.packWord (UInt32.ofNat n)) else .error .structError

def changeHeader (m : Message) (changed : Changes) : Except Exc Message := do
  let extra ← extraSize changed m.fields.entries
  let written ← putFields m.endian (m.headerLength + extra + 8) changed m.fields.entries
    (m.blob.take 12 ++ [0,0,0,0],16)
  let length ← packLength m.endian (written.2 - 16)
  let newmsg ← (parse (m.blob.take 12 ++ length ++ written.1.drop 16 ++ m.body)).mapError Exc.invalid
  let fds ← m.passedFileDescriptors
  fds.elim (.ok newmsg) newmsg.setPassedFileDescriptors

end Message

abbrev Replacement := HeaderType → Option Str
def Replacement.changes (r : Replacement) : Changes := fun h => (r h).map fun s => some (.text s)
def Replacement.apply (r : Replacement) (f : HeaderType × Value) : HeaderType × Value :=
  (f.1,((r f.1).map Value.text).getD f.2)

/-- The new message has the fields of the old one with the new texts, and nothing else is changed. -/
structure Rewrites (m : Message) (r : Replacement) (m₂ : Message) : Prop where
  returned : m.changeHeader r.changes = .ok m₂
  fields : m₂.fields.entries = m.fields.entries.map r.apply
  messageType : m₂.messageType = m.messageType
  flags : m₂.flags = m.flags
  serial : m₂.serial = m.serial
  endian : m₂.endian = m.endian
  body : m₂.body = m.body
  parsed : ∃ m₃, Message.parse m₂.blob = .ok m₃ ∧ m₃.fields = m₂.fields

def Fits (f : HeaderType × Value) : Prop :=
  match f.2 with
  | .text s => f.1 = .signature ∧ s.length < 2 ^ 8 ∨ (f.1.fieldSignature = 'o' ∨ f.1.fieldSignature = 's') ∧
    s.length < 2 ^ 32
  | .num _ => f.1.fieldSignature = 'u'

instance (f : HeaderType × Value) : Decidable (Fits f) :=
  match f with
  | (_,.text _) => inferInstanceAs (Decidable (_ ∨ _))
  | (_,.num _) => inferInstanceAs (Decidable (_ = _))

def Ascii (f : HeaderType × Value) : Prop :=
  match f.2 with
  | .text s => s.all (fun c => c.val ≤ 127) = true
  | .num _ => True

instance (f : HeaderType × Value) : Decidable (Ascii f) :=
  match f with
  | (_,.text _) => inferInstanceAs (Decidable (_ = _))
  | (_,.num _) => inferInstanceAs (Decidable True)

def fieldSize (f : HeaderType × Value) : ℕ :=
  match f.2 with
  | .text s => if f.1 = .signature then 4 + (s.length + 2) else 4 + (s.length + 5)
  | .num _ => 4 + 4

def fieldsSize (fs : List (HeaderType × Value)) : ℕ := (fs.map fun f => align (fieldSize f)).sum

def arraySize : List (HeaderType × Value) → ℕ
  | [] => 0
  | [f] => fieldSize f
  | f :: fs => align (fieldSize f) + arraySize fs

def Replacement.growth (r : Replacement) (f : HeaderType × Value) : ℕ :=
  match r f.1, f.2 with
  | some s, .text t => s.length - t.length
  | _, _ => 0

def Replacement.OnTexts (r : Replacement) (fs : List (HeaderType × Value)) : Prop :=
  ∀ f ∈ fs, ∀ n, f.2 = .num n → r f.1 = none

structure Rewritable (m : Message) (r : Replacement) : Prop where
  fits : ∀ f ∈ m.fields.entries, Fits (r.apply f)
  room : 16 + fieldsSize (m.fields.entries.map r.apply) ≤ m.headerLength + (m.fields.entries.map r.growth).sum + 8
  array : arraySize (m.fields.entries.map r.apply) < 2 ^ 31
  handles : ∀ s, m.fields.get .signature = some (.text s) → s.count 'h' = 0

structure Lays (e : Endian) (w : WireField) (f : HeaderType × Value) : Prop where
  content : w.content = some f
  size : (w.bytes e).length = fieldSize f
  written : ∃ data, marshallValue e f.1 f.2 = .ok data ∧ w.bytes e = [f.1.code,1,f.1.signatureByte,0] ++ data

theorem kind_cases (h : HeaderType) :
    (h.fieldSignature = 'o' ∨ h.fieldSignature = 's') ∧ h ≠ .signature ∨ h = .signature ∨ h.fieldSignature = 'u' := by
  cases h <;> decide

theorem length_of_ascii {h : HeaderType} {s : Str} (hs : Ascii (h,.text s)) : (Utf8.encode s).length = s.length :=
  Utf8.length_encode_ascii fun c hc => of_decide_eq_true (all_eq_true.1 hs c hc)

theorem lays_of_fits (e : Endian) {f : HeaderType × Value} (hf : Ascii f) (h : Fits f) : ∃ w, Lays e w f := by
  obtain ⟨ht,v⟩ := f
  cases v with
  | text s =>
    have hl := length_of_ascii hf
    rcases h with ⟨hsi,hs⟩ | ⟨hkind,hs⟩
    · cases (show ht = .signature from hsi)
      refine ⟨.signature s (by rw [hl]; exact hs),rfl,?_,_,if_pos hs,?_⟩
      · simp only [bytes,fieldSize,length_append,length_cons,length_nil,hl,if_pos]
      · rw [bytes,hl]
    · have hne : ht ≠ .signature := by
        rintro rfl
        rcases hkind with hkind | hkind <;> cases hkind
      refine ⟨.string ht s hkind (by rw [hl]; exact hs),rfl,?_,_,(if_pos hkind).trans (if_pos hs),?_⟩
      · simp only [bytes,fieldSize,length_append,length_cons,length_nil,length_packWord,hl,if_neg hne]
        omega
      · rw [bytes,hl]
  | num n =>
    have hkind : ht.fieldSignature = 'u' := h
    refine ⟨.word ht n hkind,rfl,?_,e.packWord n,?_,rfl⟩
    · simp only [bytes,fieldSize,length_append,length_cons,length_nil,length_packWord]
    · rw [marshallValue,hkind]
      rfl

theorem fits_of_marshallValue {e : Endian} {f : HeaderType × Value} {data : Bytes}
    (h : marshallValue e f.1 f.2 = .ok data) : Fits f := by
  obtain ⟨ht,v⟩ := f
  rcases kind_cases ht with ⟨hkind,_⟩ | rfl | hkind
  · have h := (if_pos hkind).symm.trans h
    cases v with
    | text s =>
      by_cases hs : s.length < 2 ^ 32
      · exact Or.inr ⟨hkind,hs⟩
      · cases (if_neg hs).symm.trans h
    | num n => cases h
  · cases v with
    | text s =>
      by_cases hs : s.length < 2 ^ 8
      · exact Or.inl ⟨rfl,hs⟩
      · cases (if_neg hs).symm.trans h
    | num n => cases h
  · rw [marshallValue,hkind] at h
    cases v with
    | text s => cases h
    | num n => exact hkind

theorem put_eq_ok_iff {size : ℕ} {out data res : Bytes} :
    put size out data = .ok res ↔ out.length + data.length ≤ size ∧ res = out ++ data := by
  unfold put
  split
  · rename_i hle
    exact ⟨fun h => ⟨hle,(Except.ok.inj h).symm⟩,fun h => by rw [h.2]⟩
  · rename_i hlt
    exact ⟨nofun,fun h => absurd h.1 hlt⟩

section
variable {e : Endian} {size : ℕ} {out : Bytes} {f : HeaderType × Value} (hout : out.length % 8 = 0)
include hout

theorem putField_of_lays {w : WireField} (hw : Lays e w f) (hro : out.length + align (fieldSize f) ≤ size) :
    putField e size out f = .ok (out ++ w.padded e,out.length + fieldSize f) := by
  obtain ⟨data,hd,hb⟩ := hw.written
  have hs := hw.size
  have hle := le_align (fieldSize f)
  rw [hb,length_append] at hs
  change 4 + data.length = fieldSize f at hs
  have hwr : ((out ++ [f.1.code]) ++ [1,f.1.signatureByte,0]) ++ data = out ++ w.bytes e := by
    rw [hb]
    simp
  have he : (out ++ w.bytes e).length = out.length + fieldSize f := by rw [length_append,hw.size]
  have hp : (8 - (out ++ w.bytes e).length % 8) % 8 = align (fieldSize f) - fieldSize f := by
    rw [he]
    unfold align
    omega
  refine bind_eq_ok.2 ⟨_,put_eq_ok_iff.2 ⟨?_,rfl⟩,bind_eq_ok.2 ⟨_,put_eq_ok_iff.2 ⟨?_,rfl⟩,bind_eq_ok.2 ⟨data,hd,
    bind_eq_ok.2 ⟨_,put_eq_ok_iff.2 ⟨?_,rfl⟩,?_⟩⟩⟩⟩
  · change out.length + 1 ≤ size
    omega
  · rw [length_append]
    change out.length + 1 + 3 ≤ size
    omega
  · rw [length_append,length_append]
    change out.length + 1 + 3 + data.length ≤ size
    omega
  · rw [hwr,he]
    refine bind_eq_ok.2 ⟨out ++ w.padded e,?_,rfl⟩
    rw [putPadding,hp,padded,hw.size,← append_assoc]
    split
    · refine put_eq_ok_iff.2 ⟨?_,rfl⟩
      rw [he,length_replicate]
      omega
    · rename_i hz
      rw [Nat.eq_zero_of_not_pos hz,replicate_zero,append_nil]

theorem fits_of_putField (hf : Ascii f) {res : Bytes × ℕ} (h : putField e size out f = .ok res) :
    Fits f ∧ out.length + align (fieldSize f) ≤ size := by
  obtain ⟨out₁,h₁,h⟩ := bind_eq_ok.1 h
  obtain ⟨out₂,h₂,h⟩ := bind_eq_ok.1 h
  obtain ⟨data,hd,h⟩ := bind_eq_ok.1 h
  obtain ⟨out₃,h₃,h⟩ := bind_eq_ok.1 h
  obtain ⟨padded,hp,_⟩ := bind_eq_ok.1 h
  have hfi := fits_of_marshallValue hd
  obtain ⟨w,hw⟩ := lays_of_fits e hf hfi
  obtain ⟨data',hd',hb⟩ := hw.written
  cases hd.symm.trans hd'
  have hs := hw.size
  rw [hb,length_append] at hs
  change 4 + data.length = fieldSize f at hs
  obtain ⟨_,rfl⟩ := put_eq_ok_iff.1 h₁
  obtain ⟨_,rfl⟩ := put_eq_ok_iff.1 h₂
  obtain ⟨hro,rfl⟩ := put_eq_ok_iff.1 h₃
  rw [length_append,length_append] at hro
  change out.length + 1 + 3 + data.length ≤ size at hro
  have he : (((out ++ [f.1.code]) ++ [1,f.1.signatureByte,0]) ++ data).length = out.length + fieldSize f := by
    rw [length_append,length_append,length_append,← hs]
    change out.length + 1 + 3 + data.length = _
    omega
  unfold putPadding at hp
  rw [he] at hp
  refine ⟨hfi,?_⟩
  unfold align
  split at hp
  · have hle := (put_eq_ok_iff.1 hp).1
    rw [he,length_replicate] at hle
    omega
  · omega

end

section
variable {e : Endian} {ws : List WireField} {fs : List (HeaderType × Value)} (h : List.Forall₂ (Lays e) ws fs)
include h

theorem content_of_lays : (∀ w ∈ ws, w.content.isSome = true) ∧ ws.filterMap content = fs := by
  induction h with
  | nil => exact ⟨nofun,rfl⟩
  | cons hw _ ih => exact ⟨forall_mem_cons.2 ⟨by rw [hw.content]; rfl,ih.1⟩,by rw [filterMap_cons_some hw.content,ih.2]⟩

theorem arrayLength_of_lays : arrayLength e ws = arraySize fs := by
  induction h with
  | nil => rfl
  | cons hw hws ih =>
    cases hws with
    | nil => simp only [arrayLength,arraySize,hw.size]
    | cons hw' hws' =>
      rw [arrayLength,arraySize,length_padded,hw.size,ih]
      · simp
      · simp

end

section
variable {e : Endian} {size : ℕ} {r : Replacement} {fs : List (HeaderType × Value)}

theorem changedValue_changes (r : Replacement) (f : HeaderType × Value) :
    changedValue r.changes f = .ok (r.apply f).2 := by
  unfold changedValue Replacement.changes Replacement.apply
  cases r f.1 <;> rfl

theorem putFields_cons (f : HeaderType × Value) (written : Bytes × ℕ) :
    putFields e size r.changes (f :: fs) written = (putField e size written.1 (r.apply f)).bind
      (putFields e size r.changes fs) := by
  rw [putFields,changedValue_changes]
  rfl

theorem length_padded_of_lays {w : WireField} {f : HeaderType × Value} (hw : Lays e w f) (out : Bytes) :
    (out ++ w.padded e).length = out.length + align (fieldSize f) := by
  rw [length_append,length_padded,hw.size]

theorem putFields_of_lays {ws : List WireField} (h : List.Forall₂ (Lays e) ws (fs.map r.apply)) {out : Bytes}
    (hout : out.length % 8 = 0) (hro : out.length + fieldsSize (fs.map r.apply) ≤ size) (k : ℕ) :
    putFields e size r.changes fs (out,k) =
      .ok (out ++ fieldBytes e ws,if fs = [] then k else out.length + arraySize (fs.map r.apply)) := by
  induction fs generalizing ws out k with
  | nil =>
    cases h
    simp [putFields,fieldBytes]
  | cons f fs ih =>
    cases h with
    | @cons w _ ws _ hw hws =>
      have hl := length_padded_of_lays hw out
      have hmo := align_mod (fieldSize (r.apply f))
      rw [fieldsSize,map_cons,map_cons,sum_cons] at hro
      change _ + (_ + fieldsSize (fs.map r.apply)) ≤ _ at hro
      rw [putFields_cons, putField_of_lays hout hw (by omega)]
      change putFields e size r.changes fs _ = _
      rw [ih hws (by omega) (by omega), fieldBytes_cons, append_assoc, if_neg (cons_ne_nil _ _), map_cons, hl]
      cases fs with
      | nil => simp [arraySize]
      | cons g fs => simp [arraySize,Nat.add_assoc]

theorem fits_of_putFields (hascii : ∀ f ∈ fs, Ascii (r.apply f)) {out : Bytes} (hout : out.length % 8 = 0)
    (hle : out.length ≤ size) {k : ℕ}
    {res : Bytes × ℕ} (h : putFields e size r.changes fs (out,k) = .ok res) :
    (∀ f ∈ fs, Fits (r.apply f)) ∧ out.length + fieldsSize (fs.map r.apply) ≤ size := by
  induction fs generalizing out k with
  | nil => exact ⟨nofun,hle⟩
  | cons f fs ih =>
    obtain ⟨hf,hrest⟩ := forall_mem_cons.1 hascii
    rw [putFields_cons] at h
    obtain ⟨written,hwr,h⟩ := bind_eq_ok.1 h
    obtain ⟨hfi,hro⟩ := fits_of_putField hout hf hwr
    obtain ⟨w,hw⟩ := lays_of_fits e hf hfi
    cases (putField_of_lays hout hw hro).symm.trans hwr
    have hl := length_padded_of_lays hw out
    have hmo := align_mod (fieldSize (r.apply f))
    obtain ⟨ha,hs⟩ := ih hrest (by omega) (by omega) h
    refine ⟨forall_mem_cons.2 ⟨hfi,ha⟩,?_⟩
    rw [fieldsSize,map_cons,map_cons,sum_cons]
    change _ + (_ + fieldsSize (fs.map r.apply)) ≤ _
    omega

theorem lays_of_fits_all (hascii : ∀ f ∈ fs, Ascii (r.apply f)) (h : ∀ f ∈ fs, Fits (r.apply f)) :
    ∃ ws, List.Forall₂ (Lays e) ws (fs.map r.apply) := by
  induction fs with
  | nil => exact ⟨[],.nil⟩
  | cons f fs ih =>
    obtain ⟨hf,hrest⟩ := forall_mem_cons.1 hascii
    obtain ⟨hfi,ha⟩ := forall_mem_cons.1 h
    obtain ⟨w,hw⟩ := lays_of_fits e hf hfi
    obtain ⟨ws,hws⟩ := ih hrest ha
    exact ⟨w :: ws,.cons hw hws⟩

theorem extraSize_changes (h : r.OnTexts fs) : extraSize r.changes fs = .ok (fs.map r.growth).sum := by
  induction fs with
  | nil => rfl
  | cons f fs ih =>
    obtain ⟨hf,hrest⟩ := forall_mem_cons.1 h
    have hg : growth r.changes f = .ok (r.growth f) := by
      obtain ⟨ht,v⟩ := f
      unfold growth Replacement.changes Replacement.growth
      cases v with
      | text t => cases r ht <;> rfl
      | num n => rw [hf n rfl]; rfl
    exact bind_eq_ok.2 ⟨_,hg,bind_eq_ok.2 ⟨_,ih hrest,rfl⟩⟩

end

namespace Message

structure Fixed where
  endian : Endian
  bodyLength : UInt32
  serial : UInt32
  messageType : MessageType
  flags : UInt8

def fixed (p : Bytes) : Except Failure Fixed := do
  let endian ← readEndian (p.getD 0 0)
  let bodyLength ← endian.unpackWord ((p.drop 4).take 4)
  let serial ← endian.unpackWord ((p.drop 8).take 4)
  let messageType ← readMessageType (p.getD 1 0)
  return ⟨endian,bodyLength,serial,messageType,p.getD 2 0⟩

def parseArray (p q : Bytes) (x : Fixed) : Except Failure Message := do
  let arrayLength ← x.endian.unpackWord (q.take 4)
  if align (16 + arrayLength.toNat) + x.bodyLength.toNat > (p ++ q).length then .error .incomplete
  else do
    let fields ← parseFields x.endian (p ++ q) (align (16 + arrayLength.toNat)) 16 .empty
    return ⟨x.endian,x.messageType,x.flags,x.serial,x.bodyLength.toNat,align (16 + arrayLength.toNat),fields,
      (p ++ q).take (align (16 + arrayLength.toNat) + x.bodyLength.toNat),[]⟩

theorem parse_fixed {p : Bytes} (hp : p.length = 12) (q : Bytes) :
    parse (p ++ q) = (fixed p).bind (parseArray p q) := by
  have hg : ∀ i, i < 12 → (p ++ q).getD i 0 = p.getD i 0 := fun i hi => getD_append _ _ _ _ (by rw [hp]; exact hi)
  have hs : ∀ i, i + 4 ≤ 12 → ((p ++ q).drop i).take 4 = (p.drop i).take 4 := by
    intro i hi
    rw [drop_append_of_le_length (by omega), take_append_of_le_length (by rw [length_drop]; omega)]
  have hl : ¬ (p ++ q).length < 12 := by
    rw [length_append]
    omega
  unfold parse fixed parseArray
  rw [if_neg hl, hg 0 (by decide), hg 1 (by decide), hg 2 (by decide), hs 4 (by decide), hs 8 (by decide),
    drop_left' hp]
  cases readEndian (p.getD 0 0) with
  | error f => rfl
  | ok e =>
    simp only [bind,Except.bind]
    cases e.unpackWord ((p.drop 4).take 4) with
    | error f => rfl
    | ok bodyLength =>
      simp only
      cases e.unpackWord ((p.drop 8).take 4) with
      | error f => rfl
      | ok serial =>
        simp only
        cases readMessageType (p.getD 1 0) <;> rfl

variable {blob : Bytes} {m : Message}

theorem fixed_of_parse (h : parse blob = .ok m) :
    (m.blob.take 12).length = 12 ∧ ∃ x, fixed (m.blob.take 12) = .ok x ∧ x.endian = m.endian ∧
      x.bodyLength.toNat = m.bodyLength ∧
      x.serial = m.serial ∧ x.messageType = m.messageType ∧ x.flags = m.flags := by
  obtain ⟨hh,hle,hb,_⟩ := parse_eq_ok h
  have hl : 12 ≤ m.length := by
    unfold length
    omega
  have ht : m.blob.take 12 = blob.take 12 := by rw [hb,take_take,Nat.min_eq_left hl]
  have hp : (blob.take 12).length = 12 := by rw [length_take]; omega
  rw [← take_append_drop 12 blob,parse_fixed hp] at h
  obtain ⟨x,hx,h⟩ := bind_eq_ok.1 h
  obtain ⟨arrayLength,_,h⟩ := bind_eq_ok.1 h
  rw [ht]
  refine ⟨hp,x,hx,?_⟩
  split at h
  · cases h
  · obtain ⟨fields,_,h⟩ := bind_eq_ok.1 h
    cases h
    exact ⟨rfl,rfl,rfl,rfl,rfl⟩

theorem length_body (h : parse blob = .ok m) : m.body.length = m.bodyLength := by
  obtain ⟨_,hl,hb,_⟩ := parse_eq_ok h
  rw [body,length_take,length_drop,hb,length_take]
  unfold length at *
  omega

def relaid (m : Message) (ws : List WireField) : Bytes :=
  m.blob.take 12 ++ (m.endian.packWord (UInt32.ofNat (arrayLength m.endian ws)) ++ (fieldBytes m.endian ws ++ m.body))

theorem parse_relaid (hm : parse blob = .ok m) {ws : List WireField} (hws : ∀ w ∈ ws, w.content.isSome = true)
    (hs : arrayLength m.endian ws < 2 ^ 32) :
    parse (m.relaid ws) = .ok ⟨m.endian,m.messageType,m.flags,m.serial,m.bodyLength,
      16 + (fieldBytes m.endian ws).length,
      (ws.filterMap content).foldl (fun d c => d.set c.1 c.2) .empty,m.relaid ws,[]⟩ := by
  obtain ⟨hp,x,hx,he,hb,hse,ht,hfl⟩ := fixed_of_parse hm
  have hn : (ofNat (arrayLength m.endian ws)).toNat = arrayLength m.endian ws := toNat_ofNat_of_lt' hs
  have hpr : (m.blob.take 12 ++ m.endian.packWord (ofNat (arrayLength m.endian ws))).length = 16 := by
    rw [length_append,hp,length_packWord]
  have hf := parseFields_bytes m.endian hws (by rw [hpr]) m.body .empty
  rw [hpr,append_assoc] at hf
  have hl : (m.relaid ws).length = 16 + (fieldBytes m.endian ws).length + m.bodyLength := by
    rw [relaid,length_append,length_append,length_append,hp,length_packWord,length_body hm]
    omega
  have hre : parseArray (m.blob.take 12)
    (m.endian.packWord (ofNat (arrayLength m.endian ws)) ++ (fieldBytes m.endian ws ++ m.body)) x =
      .ok ⟨m.endian,m.messageType,m.flags,m.serial,m.bodyLength,16 + (fieldBytes m.endian ws).length,
        (ws.filterMap content).foldl (fun d c => d.set c.1 c.2) .empty,m.relaid ws,[]⟩ := by
    unfold parseArray
    rw [he,hb,hse,ht,hfl,take_left' (length_packWord _ _),unpackWord_packWord]
    refine bind_eq_ok.2 ⟨_,rfl,?_⟩
    rw [hn,align_arrayLength]
    change (if _ > (m.relaid ws).length then _ else (parseFields m.endian (m.relaid ws) _ 16 .empty).bind _) = _
    rw [if_neg (by rw [hl]; omega), relaid, hf, ← relaid]
    change Except.ok _ = _
    rw [take_of_length_le (by rw [hl])]
  rw [relaid,parse_fixed hp,hx]
  exact hre

end Message

section
variable {blob : Bytes} {m : Message} (hm : parse blob = .ok m)
include hm

theorem length_fixed : (m.blob.take 12 ++ [0,0,0,0]).length = 16 := by
  rw [length_append,(fixed_of_parse hm).1]
  rfl

theorem passedFileDescriptors_parsed : m.passedFileDescriptors =
    match m.fields.get .signature with
    | none => .ok none
    | some (.text s) => if s.count 'h' = 0 then .ok none else .error (.wrongDescriptors (s.count 'h') 0)
    | some (.num _) => .error .attribute := by
  have hp : m.passedFd = [] := (parse_eq_ok hm).2.2.2
  unfold passedFileDescriptors announced
  rw [hp]
  cases m.fields.get .signature with
  | none => rfl
  | some v =>
    cases v with
    | num n => rfl
    | text s =>
      by_cases hz : s.count 'h' = 0
      · simp [hz,bind,Except.bind,pure,Except.pure]
      · simp [hz,Ne.symm hz,bind,Except.bind]

variable {r : Replacement} (hr : r.OnTexts m.fields.entries) (hascii : ∀ f ∈ m.fields.entries, Ascii (r.apply f))
include hr

omit hm in
theorem signature_of_fits (hf : ∀ f ∈ m.fields.entries, Fits (r.apply f)) (n : UInt32) :
    m.fields.get .signature ≠ some (.num n) := by
  intro hg
  have hmem := Dict.mem_of_get hg
  have hs : r.apply (.signature,.num n) = (.signature,.num n) := by
    unfold Replacement.apply
    rw [hr _ hmem n rfl]
    rfl
  have hkind := hf _ hmem
  rw [hs] at hkind
  cases hkind

include hascii

/-- The new header is the one of the fields laid out again. -/
theorem changeHeader_written (h : Rewritable m r) :
    ∃ ws, List.Forall₂ (Lays m.endian) ws (m.fields.entries.map r.apply) ∧
    m.changeHeader r.changes = (parse (m.relaid ws)).mapError Exc.invalid := by
  obtain ⟨ws,hws⟩ := lays_of_fits_all (e := m.endian) hascii h.fits
  refine ⟨ws,hws,?_⟩
  have hf := length_fixed hm
  have hro := h.room
  rw [← hf] at hro
  have hp := putFields_of_lays hws (by rw [hf]) hro 16
  have he : (if m.fields.entries = [] then 16
    else (m.blob.take 12 ++ [0,0,0,0]).length + arraySize (m.fields.entries.map r.apply)) =
      16 + arraySize (m.fields.entries.map r.apply) := by
    split
    · rename_i hn
      rw [hn]
      rfl
    · rw [hf]
  have hpa : packLength m.endian (arraySize (m.fields.entries.map r.apply)) =
      .ok (m.endian.packWord (ofNat (arrayLength m.endian ws))) := by
    rw [arrayLength_of_lays hws]
    exact if_pos h.array
  have hps : m.passedFileDescriptors = .ok none := by
    rw [passedFileDescriptors_parsed hm]
    split
    · rfl
    · rename_i s hg
      exact if_pos (h.handles s hg)
    · rename_i n hg
      exact absurd hg (signature_of_fits hr h.fits n)
  have hre : m.blob.take 12 ++ m.endian.packWord (ofNat (arrayLength m.endian ws)) ++
      ((m.blob.take 12 ++ [0,0,0,0]) ++ fieldBytes m.endian ws).drop 16 ++ m.body = m.relaid ws := by
    rw [drop_left' hf,relaid,append_assoc,append_assoc]
  rw [changeHeader,extraSize_changes hr]
  simp only [bind,Except.bind]
  rw [hp,he]
  simp only [Nat.add_sub_cancel_left]
  rw [hpa]
  simp only
  rw [hre,hps]
  cases (parse (m.relaid ws)).mapError Exc.invalid <;> rfl

theorem rewrites_of_rewritable (h : Rewritable m r) : ∃ m₂, Rewrites m r m₂ := by
  obtain ⟨ws,hws,hc⟩ := changeHeader_written hm hr hascii h
  obtain ⟨hs,hco⟩ := content_of_lays hws
  have hsh : arrayLength m.endian ws < 2 ^ 32 := by
    have ha := h.array
    rw [arrayLength_of_lays hws]
    omega
  have hp := parse_relaid hm hs hsh
  rw [hp] at hc
  have hk : (m.fields.entries.map r.apply).map Prod.fst = m.fields.entries.map Prod.fst := by
    rw [map_map]
    rfl
  refine ⟨_,hc,?_,rfl,rfl,rfl,rfl,?_,_,hp,rfl⟩
  · change ((ws.filterMap content).foldl _ Dict.empty).entries = _
    rw [hco,Dict.entries_foldl_set]
    · rfl
    · change ((m.fields.entries.map r.apply).map Prod.fst).Nodup
      rw [hk]
      exact m.fields.nodup
  · have hpr : (m.blob.take 12 ++ (m.endian.packWord (ofNat (arrayLength m.endian ws)) ++
      fieldBytes m.endian ws)).length =
        16 + (fieldBytes m.endian ws).length := by
      rw [length_append,length_append,(fixed_of_parse hm).1,length_packWord]
      omega
    change ((m.relaid ws).drop (16 + (fieldBytes m.endian ws).length)).take m.bodyLength = m.body
    rw [relaid,← append_assoc (m.endian.packWord _),← append_assoc,drop_left' hpr,
      take_of_length_le (length_body hm).le]

theorem rewritable_of_changeHeader {m₂ : Message} (h : m.changeHeader r.changes = .ok m₂) : Rewritable m r := by
  have hh := (parse_eq_ok hm).1
  have hf := length_fixed hm
  obtain ⟨extra,he,h⟩ := bind_eq_ok.1 h
  rw [extraSize_changes hr] at he
  cases he
  obtain ⟨written,hw,h⟩ := bind_eq_ok.1 h
  obtain ⟨length,hle,h⟩ := bind_eq_ok.1 h
  obtain ⟨newmsg,_,h⟩ := bind_eq_ok.1 h
  obtain ⟨fds,hfd,_⟩ := bind_eq_ok.1 h
  obtain ⟨hfi,hro⟩ := fits_of_putFields hascii (by rw [hf]) (by rw [hf]; omega) hw
  obtain ⟨ws,hws⟩ := lays_of_fits_all (e := m.endian) hascii hfi
  rw [putFields_of_lays hws (by rw [hf]) hro 16] at hw
  cases hw
  rw [hf] at hro
  refine ⟨hfi,hro,?_,?_⟩
  · by_contra hl
    have hne : m.fields.entries ≠ [] := by
      intro hn
      rw [hn] at hl
      exact hl (Nat.two_pow_pos 31)
    simp only [if_neg hne,hf,Nat.add_sub_cancel_left] at hle
    cases (if_neg hl).symm.trans hle
  · intro s hg
    by_contra hc
    rw [passedFileDescriptors_parsed hm,hg] at hfd
    cases (if_neg hc).symm.trans hfd

/-- With texts in ASCII a header is rewritten exactly if the values have the types of their fields,
everything fits, and the signature announces no descriptors. -/
theorem rewritten_iff : (∃ m₂, Rewrites m r m₂) ↔ Rewritable m r :=
  ⟨fun ⟨_,h⟩ => rewritable_of_changeHeader hm hr hascii h.returned,rewrites_of_rewritable hm hr hascii⟩

end

def routedFields (member : Str) (short : (Utf8.encode member).length < 2 ^ 32) : List WireField :=
  [.string .path "/" HeaderType.IsText.path.kind slash_short,
    .string .interface "a" HeaderType.IsText.interface.kind (by decide),
    .string .member member HeaderType.IsText.member.kind short,
      .string .destination ":1" HeaderType.IsText.destination.kind (by decide)]

def plainCall : Wire := ⟨.little,1,0,1,1,routedFields "m" m_short,[],by decide⟩

/-- The member has ten bytes more than characters: there begins a field for the interface `e`. -/
def doubleCall : Wire :=
  ⟨.little,1,0,1,1,routedFields "ééééééééééaaaa\x02\x01s\x00\x01\x00\x00\x00e" (by decide),[],by decide⟩

def toUnique (name : Str) : Replacement := fun h => if h = .destination then some name else none

theorem plainCall_rewritten : ∃ m₂, Rewrites (plainCall.message .methodCall) (toUnique ":1.20") m₂ := by
  have hk : ∀ f ∈ plainCall.fields, f.content.isSome = true := by decide
  refine (rewritten_iff (Wire.parse_encode rfl hk []) ?_ (by decide)).2 ⟨by decide,by decide,by decide,?_⟩
  · have ht : ∀ f ∈ (plainCall.message .methodCall).fields.entries, f.1 = .destination → f.2 = .text ":1" := by decide
    intro f hf n hn
    refine if_neg fun hd => ?_
    rw [ht f hf hd] at hn
    cases hn
  · intro s hs
    cases hs

/-- A new destination gives the message another interface. -/
theorem doubleCall_changes_interface : ¬ ∃ m₂, Rewrites (doubleCall.message .methodCall) (toUnique ":1.20") m₂ := by
  rintro ⟨m₂,h⟩
  have hi : (((doubleCall.message .methodCall).changeHeader (toUnique ":1.20").changes).toOption.map
      fun m => m.fields.get .interface) = some (some (.text "e")) := by decide +kernel
  have ha : ((doubleCall.message .methodCall).fields.entries.map (toUnique ":1.20").apply).lookup .interface =
      some (.text "a") := by decide +kernel
  rw [h.returned] at hi
  have hre := Option.some.inj hi
  rw [← h.fields] at ha
  exact absurd (hre.symm.trans ha) (by decide)

end Padsi.Dbus
