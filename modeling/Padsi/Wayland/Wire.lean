import Padsi.Wayland.Totality

/-! # Whole messages on the wire -/
namespace Padsi.Wayland
open Rust List Option MessageMeta

structure Msg where
  objectId : UInt32
  opcode : UInt16
  payload : List UInt8
  fits : payload.length + headerSize < 65536
deriving DecidableEq

namespace Msg

def size (m : Msg) : ℕ := m.payload.length + headerSize

def header (T : Target) (m : Msg) : List UInt8 :=
  let size := u16ToNeBytes T (UInt16.ofNat m.size)
  let opcode := u16ToNeBytes T m.opcode
  u32ToNeBytes T m.objectId ++ (if T.littleEndian then opcode ++ size else size ++ opcode)

def encode (T : Target) (m : Msg) : List UInt8 := m.header T ++ m.payload
def toMeta (m : Msg) (i : ℕ) : MessageMeta := ⟨i,m.size,m.objectId,m.opcode⟩

def hit (objId : Option UInt32) (opcode : UInt16) (text : Option Str) (m : Msg) : Bool :=
  decide ((objId = none ∨ objId = some m.objectId) ∧ m.opcode = opcode) &&
    text.all (fun t => Utf8.valid m.payload && containsSub t m.payload)

end Msg

def encodeAll (T : Target) (ms : List Msg) : List UInt8 := ms.flatMap (Msg.encode T)

def metas : ℕ → List Msg → List MessageMeta
  | _, [] => []
  | i, m :: ms => m.toMeta i :: metas (i + m.size) ms

section
variable (T : Target)

@[simp] theorem header_length (m : Msg) : (m.header T).length = headerSize := by
  unfold Msg.header
  split <;> simp [headerSize,wordSize]

@[simp] theorem encode_length (m : Msg) : (m.encode T).length = m.size := by
  simp [Msg.encode,Msg.size,Nat.add_comm]
theorem headerSize_le_size (m : Msg) : headerSize ≤ m.size := Nat.le_add_left _ _

@[simp] theorem encodeAll_nil : encodeAll T [] = [] := rfl
@[simp] theorem encodeAll_cons (m : Msg) (ms : List Msg) :
    encodeAll T (m :: ms) = m.encode T ++ encodeAll T ms := rfl
@[simp] theorem encodeAll_append (xs ys : List Msg) :
    encodeAll T (xs ++ ys) = encodeAll T xs ++ encodeAll T ys := flatMap_append

theorem length_le_encodeAll (ms : List Msg) : ms.length ≤ (encodeAll T ms).length := by
  induction ms with
  | nil => simp
  | cons m ms ih =>
    have hm := headerSize_le_size m
    simp only [encodeAll_cons,length_cons,length_append,encode_length,headerSize,wordSize] at hm ⊢
    omega

theorem parseHeader_append {a x y : List UInt8} (ha : a.length = 4) (hx : x.length = 2) (hy : y.length = 2) :
    parseHeader T (a ++ (x ++ y)) = (do
      let objectId ← unwrap (u32FromNeBytes T a)
      let high ← unwrap (u16FromNeBytes T y)
      let low ← unwrap (u16FromNeBytes T x)
      let (msgSize,opcode) := if T.littleEndian then (high,low) else (low,high)
      return (objectId,opcode,msgSize.toNat)) := by
  have h0 : slice (a ++ (x ++ y)) 0 4 = .ok a := slice_append [] a (x ++ y) rfl (by simp [ha])
  have h4 : slice (a ++ (x ++ y)) 4 6 = .ok x := by
    rw [← append_assoc]
    exact slice_append a x y ha.symm (by rw [ha,hx])
  have h6 : slice (a ++ (x ++ y)) 6 8 = .ok y := by
    rw [← append_assoc,← append_nil (a ++ x ++ y)]
    exact slice_append (a ++ x) y [] (by simp [ha,hx]) (by simp [ha,hx,hy])
  simp only [parseHeader,h0,h4,h6,ok_bind]

theorem size_toNat (m : Msg) : (UInt16.ofNat m.size).toNat = m.size := by
  rw [UInt16.toNat_ofNat']
  exact Nat.mod_eq_of_lt m.fits

theorem parseHeader_header (m : Msg) : parseHeader T (m.header T) = .ok (m.objectId,m.opcode,m.size) := by
  unfold Msg.header
  cases he : T.littleEndian with
  | true =>
    simp only [↓reduceIte]
    rw [parseHeader_append T (by simp) (by simp) (by simp)]
    simp only [unwrap,he,u32FromNeBytes_toNeBytes,u16FromNeBytes_toNeBytes,ok_bind,↓reduceIte,size_toNat]
    rfl
  | false =>
    simp only [Bool.false_eq_true,↓reduceIte]
    rw [parseHeader_append T (by simp) (by simp) (by simp)]
    simp only [unwrap,he,u32FromNeBytes_toNeBytes,u16FromNeBytes_toNeBytes,ok_bind,Bool.false_eq_true,
      ↓reduceIte,size_toNat]
    rfl

theorem fromData_encode (pre post : List UInt8) (m : Msg) :
    fromData T (pre ++ m.encode T ++ post) pre.length = .ok (.ok (m.toMeta pre.length)) := by
  have hs := headerSize_le_size m
  have hl : (pre ++ m.encode T ++ post).length = pre.length + m.size + post.length := by
    simp [Nat.add_assoc]
  have hsl : slice (pre ++ m.encode T ++ post) pre.length (pre.length + headerSize) = .ok (m.header T) := by
    have hsplit : pre ++ m.encode T ++ post = pre ++ m.header T ++ (m.payload ++ post) := by
      simp [Msg.encode]
    rw [hsplit]
    exact slice_append _ _ _ rfl (by simp)
  unfold fromData
  rw [if_neg (by omega), hsl, ok_bind, parseHeader_header, ok_bind]
  dsimp only
  rw [if_neg (by omega), if_neg (by omega)]
  rfl

theorem mem_metas {i : ℕ} {ms : List Msg} {x : MessageMeta} (h : x ∈ metas i ms) :
    ∃ xs m ys, ms = xs ++ m :: ys ∧ x = m.toMeta (i + (encodeAll T xs).length) := by
  induction ms generalizing i with
  | nil => simp [metas] at h
  | cons m ms ih =>
    rcases mem_cons.1 h with rfl | h
    · exact ⟨[],m,ms,rfl,by simp⟩
    · obtain ⟨xs,m',ys,rfl,rfl⟩ := ih h
      exact ⟨m :: xs,m',ys,rfl,by simp [Nat.add_assoc]⟩

theorem index_lt_of_mem_metas {ms : List Msg} {m : MessageMeta} (h : m ∈ metas 0 ms) :
    m.index < (encodeAll T ms).length := by
  obtain ⟨xs,x,ys,rfl,rfl⟩ := mem_metas T h
  have hx := headerSize_le_size x
  simp only [Msg.toMeta,encodeAll_append,encodeAll_cons,length_append,encode_length,headerSize,wordSize] at hx ⊢
  omega

/-- The loop ends at the first message that ends after the received bytes. -/
theorem parseLoop_encodeAll (pre : List UInt8) (ms : List Msg) (post : List UInt8) (fuel size : ℕ)
    (hf : ms.length ≤ fuel)
    (hs : ∀ m ∈ metas pre.length ms, m.index < size) (he : size ≤ pre.length + (encodeAll T ms).length) :
    parseLoop T (pre ++ encodeAll T ms ++ post) size fuel pre.length = .ok (metas pre.length ms) := by
  induction ms generalizing pre fuel with
  | nil =>
    cases fuel with
    | zero => rfl
    | succ fuel => exact if_neg (Nat.not_lt.2 he)
  | cons m ms ih =>
    obtain ⟨fuel,rfl⟩ : ∃ k, fuel = k + 1 := ⟨fuel - 1,by simp at hf; omega⟩
    obtain ⟨hlt,hs⟩ := forall_mem_cons.1 hs
    change pre.length < size at hlt
    have hd : pre ++ encodeAll T (m :: ms) ++ post = pre ++ m.encode T ++ (encodeAll T ms ++ post) := by simp
    have hn : pre.length + m.size = (pre ++ m.encode T).length := by simp
    rw [hn] at hs
    have hr := ih (pre ++ m.encode T) fuel (by simpa using hf) hs (by simpa [Nat.add_assoc] using he)
    rw [parseLoop,if_pos hlt,hd,fromData_encode,ok_bind]
    change (do return m.toMeta pre.length :: (← parseLoop T _ size fuel (pre.length + m.size))) = _
    rw [hn,← append_assoc,hr,ok_bind]
    simp [metas]

theorem parseBuffer_encodeAll (ms : List Msg) (stale : List UInt8) (size : ℕ) (hs : headerSize ≤ size)
    (hle : ms.length ≤ size) (hst : ∀ m ∈ metas 0 ms, m.index < size) (he : size ≤ (encodeAll T ms).length) :
    parseBuffer T (encodeAll T ms ++ stale) size = .ok (some (metas 0 ms)) := by
  have hl := parseLoop_encodeAll T [] ms stale size size hle hst (by simpa using he)
  rw [nil_append,length_nil] at hl
  rw [parseBuffer,if_pos hs,hl]
  rfl

def chunk (ms : List Msg) (stale : List UInt8) : ProxyBuffer := ⟨encodeAll T ms ++ stale,(encodeAll T ms).length⟩

theorem parsed_chunk (ms : List Msg) (stale : List UInt8) : (chunk T ms stale).parsed T = metas 0 ms := by
  have hm : (chunk T ms stale).messages T = .ok (metas 0 ms) := by
    unfold ProxyBuffer.messages chunk
    cases ms with
    | nil => rfl
    | cons m ms =>
      have hs := headerSize_le_size m
      have hl : headerSize ≤ (encodeAll T (m :: ms)).length := by simp; omega
      dsimp only
      rw [parseBuffer_encodeAll T (m :: ms) stale _ hl (length_le_encodeAll T _)
        (fun _ => index_lt_of_mem_metas T) le_rfl]
      rfl
  simp [ProxyBuffer.parsed,hm]

theorem metas_append (i : ℕ) (xs ys : List Msg) :
    metas i (xs ++ ys) = metas i xs ++ metas (i + (encodeAll T xs).length) ys := by
  induction xs generalizing i with
  | nil => simp [metas]
  | cons m xs ih => simp [metas,ih,Nat.add_assoc]

theorem payloadOf_encode (pre post : List UInt8) (m : Msg) :
    (m.toMeta pre.length).payloadOf (pre ++ m.encode T ++ post) = m.payload := by
  have hsplit : pre ++ m.encode T ++ post = (pre ++ m.header T) ++ (m.payload ++ post) := by
    simp [Msg.encode]
  have hl : pre.length + headerSize = (pre ++ m.header T).length := by simp
  unfold payloadOf Msg.toMeta
  dsimp only
  rw [hsplit,hl,drop_left,Msg.size,Nat.add_sub_cancel,take_left]

end

section
variable (T : Target)

theorem header_of_parseHeader {h : List UInt8} {o : UInt32} {op : UInt16} {size : ℕ} (hl : h.length = headerSize)
    (hp : parseHeader T h = .ok (o,op,size)) : ∃ s : UInt16, s.toNat = size ∧
      h = u32ToNeBytes T o ++ (if T.littleEndian then u16ToNeBytes T op ++ u16ToNeBytes T s
        else u16ToNeBytes T s ++ u16ToNeBytes T op) := by
  obtain ⟨a,x,y,rfl,ha,hx,hy⟩ : ∃ a x y : List UInt8, h = a ++ (x ++ y) ∧ a.length = 4 ∧ x.length = 2 ∧ y.length = 2 :=
    ⟨h.take 4,(h.drop 4).take 2,(h.drop 4).drop 2,
      by rw [take_append_drop,take_append_drop],by simp [hl,headerSize,wordSize],by simp [hl,headerSize,wordSize],
      by simp [hl,headerSize,wordSize]⟩
  rw [parseHeader_append T ha hx hy] at hp
  obtain ⟨o',ho,hp⟩ := bind_eq_ok.1 hp
  obtain ⟨high,hh,hp⟩ := bind_eq_ok.1 hp
  obtain ⟨low,hlo,hp⟩ := bind_eq_ok.1 hp
  have hw : ∀ {α : Type} {v : Option α} {r : α}, unwrap v = .ok r → v = some r := by
    intro α v r hv
    cases v <;> cases hv
    rfl
  rw [← u32ToNeBytes_of_eq T (hw ho),← u16ToNeBytes_of_eq T (hw hh),← u16ToNeBytes_of_eq T (hw hlo)]
  cases he : T.littleEndian with
  | true =>
    simp only [he,if_true] at hp ⊢
    cases hp
    exact ⟨high,rfl,rfl⟩
  | false =>
    simp only [he] at hp ⊢
    cases hp
    exact ⟨low,rfl,rfl⟩

/-- A message that is delimited stands in the buffer. -/
theorem exists_of_fromData {data : List UInt8} {i : ℕ} {m : MessageMeta} (h : fromData T data i = .ok (.ok m)) :
    ∃ msg : Msg, ∃ rest, data.drop i = msg.encode T ++ rest ∧ m = msg.toMeta i := by
  unfold fromData at h
  split_ifs at h with hsh
  · cases h
  rw [slice_ok (Nat.le_add_right i headerSize) (Nat.not_lt.1 hsh),ok_bind,Nat.add_sub_cancel_left] at h
  obtain ⟨⟨o,op,size⟩,hp,h⟩ := bind_eq_ok.1 h
  dsimp only at h
  split_ifs at h with hr hsi
  · cases h
  · cases h
  cases h
  have hl : ((data.drop i).take headerSize).length = headerSize := by
    rw [length_take,length_drop]
    omega
  obtain ⟨s,rfl,hb⟩ := header_of_parseHeader T hl hp
  obtain ⟨payload,hpa⟩ : ∃ p, p = ((data.drop i).drop headerSize).take (s.toNat - headerSize) := ⟨_,rfl⟩
  have hsu : payload.length + headerSize = s.toNat := by
    simp only [hpa,length_take,length_drop]
    omega
  have hs := s.toNat_lt
  refine ⟨⟨o,op,payload,by omega⟩,(data.drop i).drop s.toNat,?_,?_⟩
  · have hrest : (data.drop i).drop s.toNat = ((data.drop i).drop headerSize).drop (s.toNat - headerSize) := by
      rw [drop_drop,drop_drop,drop_drop]
      congr 1
      omega
    simp only [Msg.encode,Msg.header,Msg.size,hsu,UInt16.ofNat_toNat]
    rw [← hb,hrest,hpa,append_assoc,take_append_drop,take_append_drop]
  · simp only [Msg.toMeta,Msg.size,hsu]

theorem exists_of_parseLoop {data : List UInt8} {size fuel next : ℕ} {out : List MessageMeta}
    (h : parseLoop T data size fuel next = .ok out) :
    ∃ ms : List Msg, ∃ rest, out = metas next ms ∧ data.drop next = encodeAll T ms ++ rest := by
  induction fuel generalizing next out with
  | zero =>
    cases h
    exact ⟨[],_,rfl,rfl⟩
  | succ fuel ih =>
    rw [parseLoop] at h
    split_ifs at h
    · obtain ⟨r,hr,h⟩ := bind_eq_ok.1 h
      cases r with
      | error e =>
        cases h
        exact ⟨[],_,rfl,rfl⟩
      | ok x =>
        obtain ⟨m,rest,hd,rfl⟩ := exists_of_fromData T hr
        obtain ⟨out',ho,h⟩ := bind_eq_ok.1 h
        cases h
        obtain ⟨ms,rest',rfl,hrest⟩ := ih ho
        refine ⟨m :: ms,rest',rfl,?_⟩
        have hn : data.drop (next + m.size) = rest := by
          rw [← drop_drop,hd,← encode_length T m,drop_left]
        rw [hd,← hn,encodeAll_cons,append_assoc,← hrest]
        rfl
    · cases h
      exact ⟨[],_,rfl,rfl⟩

theorem sum_metas (i : ℕ) (ms : List Msg) : ((metas i ms).map size).sum = (encodeAll T ms).length := by
  induction ms generalizing i with
  | nil => rfl
  | cons m ms ih => simp [metas,ih,Msg.toMeta]

def Completed (data : List UInt8) (n : ℕ) : Prop :=
  headerSize ≤ n ∧ ∃ ms, ∃ m : Msg, ∃ rest, data = encodeAll T ms ++ (m.encode T ++ rest) ∧
    (encodeAll T ms).length < n ∧ n < (encodeAll T ms).length + m.size

/-- Whole messages are delimited whatever follows, and what is reported of arbitrary bytes was
received just if no earlier chunk completes a message. -/
theorem delimits_iff_not_completed :
    (∀ (ms : List Msg) (stale : List UInt8), headerSize ≤ (encodeAll T ms).length →
      parseBuffer T (encodeAll T ms ++ stale) (encodeAll T ms).length = .ok (some (metas 0 ms)) ∧
        ((metas 0 ms).map MessageMeta.size).sum = (encodeAll T ms).length) ∧
    ∀ (data : List UInt8) (n : ℕ), (∃ msgs, parseBuffer T data n = .ok msgs ∧ ∀ m ∈ msgs.getD [],
      m.index + m.size ≤ n) ↔
      ¬Completed T data n := by
  refine ⟨fun ms stale hs => ⟨?_,sum_metas T 0 ms⟩,fun data n => ⟨?_,fun hnot => ?_⟩⟩
  · exact parseBuffer_encodeAll T ms stale _ hs (length_le_encodeAll T ms) (fun _ => index_lt_of_mem_metas T) le_rfl
  · rintro ⟨msgs,hms,hb⟩ ⟨hs,ms,m,rest,rfl,hst,he⟩
    have hd : encodeAll T ms ++ (m.encode T ++ rest) = encodeAll T (ms ++ [m]) ++ rest := by simp
    have hl : ∀ x ∈ metas 0 (ms ++ [m]), x.index < n := by
      intro x hx
      rw [metas_append T] at hx
      rcases mem_append.1 hx with hx | hx
      · exact (index_lt_of_mem_metas T hx).trans hst
      · rw [mem_singleton.1 hx]
        simpa [Msg.toMeta] using hst
    have hle := length_le_encodeAll T ms
    rw [hd, parseBuffer_encodeAll T (ms ++ [m]) rest n hs (by simp; omega) hl (by simp; omega)] at hms
    cases hms
    have hm := hb (m.toMeta (encodeAll T ms).length) (by simp [metas_append T,metas])
    simp only [Msg.toMeta] at hm
    omega
  · by_cases hs : headerSize ≤ n
    · obtain ⟨out,hou,-,hlt⟩ := parseLoop_total T data n n 0
      obtain ⟨ms,rest,rfl,hd⟩ := exists_of_parseLoop T hou
      refine ⟨some (metas 0 ms),by rw [parseBuffer,if_pos hs,hou]; rfl,fun m hm => ?_⟩
      have hst := (hlt m hm).2
      obtain ⟨xs,x,ys,rfl,rfl⟩ := mem_metas T hm
      simp only [Msg.toMeta,Nat.zero_add] at hst ⊢
      by_contra ho
      exact hnot ⟨hs,xs,x,encodeAll T ys ++ rest,by simpa using hd,hst,Nat.not_le.1 ho⟩
    · exact ⟨none,by rw [parseBuffer,if_neg hs],by simp⟩

/-- Eight bytes are received, and the message is completed by eight stale ones. -/
theorem header_is_completed : parseBuffer ⟨true,true⟩ [1,0,0,0,0,0,16,0,7,7,7,7,7,7,7,7] 8 = .ok (some [⟨0,16,1,0⟩]) ∧
    ¬(⟨0,16,1,0⟩ : MessageMeta).index + (⟨0,16,1,0⟩ : MessageMeta).size ≤ 8 := by decide

end

section
variable {T : Target} {ms : List Msg} {stale : List UInt8} {objId : Option UInt32} {opcode : UInt16}
  {text : Option Str}

theorem payloadOf_chunk {xs ys : List Msg} (m : Msg) (hms : ms = xs ++ m :: ys) :
    (m.toMeta (encodeAll T xs).length).payloadOf (chunk T ms stale).data = m.payload := by
  subst hms
  have h := payloadOf_encode T (encodeAll T xs) (encodeAll T ys ++ stale) m
  simpa [chunk] using h

theorem hit_chunk {xs ys : List Msg} (m : Msg) (hms : ms = xs ++ m :: ys) :
    hit (chunk T ms stale).data objId opcode text (m.toMeta (encodeAll T xs).length) =
      m.hit objId opcode text := by
  unfold hit Msg.hit
  rw [payloadOf_chunk m hms]
  rfl

theorem found_chunk_some {xs ys : List Msg} {m : Msg} (hms : ms = xs ++ m :: ys)
    (hxs : ∀ x ∈ xs, x.hit objId opcode text = false) (hm : m.hit objId opcode text = true) :
    (chunk T ms stale).found T objId opcode text = some (m.toMeta (encodeAll T xs).length) := by
  unfold ProxyBuffer.found
  rw [parsed_chunk]
  have hsplit : metas 0 ms = metas 0 xs ++ metas (encodeAll T xs).length (m :: ys) := by
    rw [hms,metas_append T,Nat.zero_add]
  rw [hsplit,find?_append]
  have hnone : (metas 0 xs).find? (hit (chunk T ms stale).data objId opcode text) = none := by
    rw [find?_eq_none]
    intro x hx
    obtain ⟨as,a,bs,rfl,rfl⟩ := mem_metas T hx
    rw [Nat.zero_add, hit_chunk a (show ms = as ++ a :: (bs ++ m :: ys) by simp [hms]), hxs a (by simp)]
    simp
  rw [hnone,metas,find?_cons,hit_chunk m hms,hm]
  rfl

theorem found_chunk_none (h : ∀ x ∈ ms, x.hit objId opcode text = false) :
    (chunk T ms stale).found T objId opcode text = none := by
  unfold ProxyBuffer.found
  rw [parsed_chunk,find?_eq_none]
  intro x hx
  obtain ⟨as,a,bs,hms,rfl⟩ := mem_metas T hx
  rw [Nat.zero_add, hit_chunk a hms, h a (by simp [hms])]
  simp

theorem found_chunk_payload (T : Target) (ms : List Msg) (stale : List UInt8) (objId : Option UInt32)
    (opcode : UInt16) (text : Option Str) :
    ((chunk T ms stale).found T objId opcode text).map (·.payloadOf (chunk T ms stale).data) =
      (ms.find? (Msg.hit objId opcode text)).map (·.payload) := by
  cases hf : ms.find? (Msg.hit objId opcode text) with
  | none =>
    rw [found_chunk_none (by simpa using hf)]
    rfl
  | some m =>
    obtain ⟨hm,xs,ys,hms,hxs⟩ := find?_eq_some_iff_append.1 hf
    rw [found_chunk_some hms (by simpa using hxs) hm, map_some, payloadOf_chunk m hms]
    rfl

end

def referenced (T : Target) (ms : List Msg) (objId : Option UInt32) (opcode : UInt16) (text : Option Str)
    (endOffset : ℕ) : Option UInt32 :=
  (ms.find? (Msg.hit objId opcode text)).bind (fun m =>
    if endOffset + wordSize ≤ m.payload.length then wordBefore T m.payload endOffset else none)

section
variable (T : Target) (ms : List Msg) (stale : List UInt8) (objId : Option UInt32) (opcode : UInt16) (text : Option Str)

theorem referenced_chunk (endOffset : ℕ) :
    (chunk T ms stale).referenced T objId opcode text endOffset = referenced T ms objId opcode text endOffset := by
  have h := congrArg (fun o => o.bind (fun p : List UInt8 =>
    if endOffset + wordSize ≤ p.length then wordBefore T p endOffset else none))
    (found_chunk_payload T ms stale objId opcode text)
  simp only [bind_map] at h
  exact h

theorem forall_found_chunk (P : List UInt8 → Prop) :
    (∀ x, (chunk T ms stale).found T objId opcode text = some x → P (x.payloadOf (chunk T ms stale).data)) ↔
      ∀ m, ms.find? (Msg.hit objId opcode text) = some m → P m.payload := by
  have h := found_chunk_payload T ms stale objId opcode text
  cases hf : (chunk T ms stale).found T objId opcode text with
  | none =>
    rw [hf,map_none,eq_comm,map_eq_none_iff] at h
    simp [h]
  | some x =>
    rw [hf,map_some,eq_comm,map_eq_some_iff] at h
    obtain ⟨m,hm,hp⟩ := h
    simp [hm,hp]

theorem wordBefore_append (xs : List UInt8) (x : UInt32) : wordBefore T (xs ++ u32ToNeBytes T x) 0 = some x := by
  unfold wordBefore
  have hl : (xs ++ u32ToNeBytes T x).length - 0 - wordSize = xs.length := by simp [wordSize]
  have ht : (u32ToNeBytes T x).take wordSize = u32ToNeBytes T x :=
    take_of_length_le (by simp [wordSize])
  rw [hl,drop_left,ht,u32FromNeBytes_toNeBytes]

end

section
variable (T : Target)

theorem cut_metas (p : MessageMeta → Bool) (hp : ∀ (m : Msg) (i j : ℕ), p (m.toMeta i) = p (m.toMeta j))
    (pre : List UInt8) (ms : List Msg) (post : List UInt8) :
    cut (pre ++ encodeAll T ms ++ post) ((metas pre.length ms).filter p) =
      pre ++ encodeAll T (ms.filter (fun m => !p (m.toMeta 0))) ++ post := by
  induction ms generalizing pre with
  | nil => simp [metas,cut]
  | cons m ms ih =>
    have hd : pre ++ encodeAll T (m :: ms) ++ post = (pre ++ m.encode T) ++ encodeAll T ms ++ post := by simp
    have hn : pre.length + m.size = (pre ++ m.encode T).length := by simp
    have hr := ih (pre ++ m.encode T)
    rw [metas,filter_cons,filter_cons,hp m pre.length 0,hd]
    cases hm : p (m.toMeta 0) with
    | false =>
      simp only [Bool.false_eq_true,↓reduceIte,Bool.not_false]
      rw [hn,hr]
      simp
    | true =>
      simp only [↓reduceIte,Bool.not_true,Bool.false_eq_true,cut]
      have hs : (m.toMeta pre.length).index + (m.toMeta pre.length).size = (pre ++ m.encode T).length := hn
      have hi : (m.toMeta pre.length).index = pre.length := rfl
      rw [hs,hi,hn,hr,append_assoc (pre ++ m.encode T),drop_left,
        append_assoc pre,take_left]
      simp

theorem totalSize_metas (p : MessageMeta → Bool) (hp : ∀ (m : Msg) (i j : ℕ), p (m.toMeta i) = p (m.toMeta j))
    (i : ℕ) (ms : List Msg) :
    totalSize ((metas i ms).filter p) + (encodeAll T (ms.filter (fun m => !p (m.toMeta 0)))).length =
      (encodeAll T ms).length := by
  induction ms generalizing i with
  | nil => rfl
  | cons m ms ih =>
    have hr := ih (i + m.size)
    rw [metas,filter_cons,filter_cons,hp m i 0]
    have hs : (m.toMeta i).size = m.size := rfl
    cases hm : p (m.toMeta 0) with
    | false => simp; omega
    | true => simp [hs]; omega

end

section
variable {T : Target}

theorem encode_append_inj {m m' : Msg} {xs ys : List UInt8} (h : m.encode T ++ xs = m'.encode T ++ ys) :
    m = m' ∧ xs = ys := by
  unfold Msg.encode at h
  rw [append_assoc,append_assoc] at h
  obtain ⟨hh,hrest⟩ := append_inj h (by simp)
  have hp := congrArg (parseHeader T) hh
  rw [parseHeader_header,parseHeader_header] at hp
  simp only [Except.ok.injEq,Prod.mk.injEq,Msg.size,Nat.add_right_cancel_iff] at hp
  obtain ⟨ho,hop,hl⟩ := hp
  obtain ⟨hpa,hxs⟩ := append_inj hrest hl
  cases m
  cases m'
  dsimp only at ho hop hpa
  subst ho hop hpa
  exact ⟨rfl,hxs⟩

theorem encodeAll_injective {xs ys : List Msg} (h : encodeAll T xs = encodeAll T ys) : xs = ys := by
  induction xs generalizing ys with
  | nil =>
    cases ys with
    | nil => rfl
    | cons y ys =>
      have hl := congrArg length h
      have hs := headerSize_le_size y
      simp [headerSize,wordSize] at hl hs
      omega
  | cons x xs ih =>
    cases ys with
    | nil =>
      have hl := congrArg length h
      have hs := headerSize_le_size x
      simp [headerSize,wordSize] at hl hs
      omega
    | cons y ys =>
      obtain ⟨rfl,hrest⟩ := encode_append_inj h
      rw [ih hrest]

end

end Padsi.Wayland
