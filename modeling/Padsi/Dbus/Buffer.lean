import Padsi.Dbus.Wire

/-! # Reception of messages

The buffer keeps the file descriptors by the range of bytes that came with them.
-/
namespace Padsi.Dbus
open Text Python List Message

def chunkSize : ℕ := 1024
def maxSize : ℕ := 1024 * 1024 * 128

inductive Exc where
  | connectionClosed
  | maximumSize
  | notEnoughData
  | tooBig
  | invalid (f : Failure)
  | wrongDescriptors (expected actual : ℕ)
  | noSignature
  | attribute
  | typeError
  | structError
  | valueError
  | noneHeader (h : HeaderType)
  | unhandledHeader (h : HeaderType)
  | index
  | bodySignature (s : Str)
  | callRule
deriving DecidableEq

namespace Message

def announced (m : Message) : Except Exc (Option ℕ) :=
  match m.fields.get .signature with
  | none => .ok none
  | some (.text s) => .ok (some (s.count 'h'))
  | some (.num _) => .error .attribute

def setPassedFileDescriptors (m : Message) (fds : List ℤ) : Except Exc Message := do
  match ← m.announced with
  | none => .error .noSignature
  | some count =>
    if fds.length ≠ count then .error (.wrongDescriptors count fds.length) else .ok { m with passedFd := fds }

def passedFileDescriptors (m : Message) : Except Exc (Option (List ℤ)) := do
  match ← m.announced with
  | none => return none
  | some count =>
    if m.passedFd.length ≠ count then .error (.wrongDescriptors count m.passedFd.length)
    else return if m.passedFd.length > 0 then some m.passedFd else none

def attach (m : Message) (fds : Option (List ℤ)) : Except Exc Message := do
  let m ← fds.elim (.ok m) m.setPassedFileDescriptors
  let _ ← m.passedFileDescriptors
  return m

section
variable {m : Message} {count : Option ℕ} (hcount : m.announced = .ok count) (hm : m.passedFd = []) {fds : List ℤ}
include hcount hm

theorem attach_of_eq (h : fds.length = count.getD 0) :
    m.attach (if fds.length = 0 then none else some fds) = .ok { m with passedFd := fds } := by
  obtain ⟨endian,messageType,flags,serial,bodyLength,headerLength,fields,blob,passedFd⟩ := m
  cases hm
  unfold announced at hcount
  cases fds with
  | nil =>
    cases count with
    | none => simp [attach,passedFileDescriptors,announced,hcount,bind,Except.bind,pure,Except.pure]
    | some n =>
      cases (show n = 0 from h.symm)
      simp [attach,passedFileDescriptors,announced,hcount,bind,Except.bind,pure,Except.pure]
  | cons fd fds =>
    cases count with
    | none => cases h
    | some n =>
      cases (show n = (fd :: fds).length from h.symm)
      simp [attach,setPassedFileDescriptors,passedFileDescriptors,announced,hcount,bind,Except.bind,pure,Except.pure]

theorem attach_of_ne (h : fds.length ≠ count.getD 0) :
    ∃ e, m.attach (if fds.length = 0 then none else some fds) = .error e := by
  cases fds with
  | nil =>
    cases count with
    | none => exact absurd rfl h
    | some n =>
      have hn : 0 ≠ n := h
      simp [attach,passedFileDescriptors,hcount,hm,hn,bind,Except.bind]
  | cons fd fds =>
    cases count with
    | none => simp [attach,setPassedFileDescriptors,hcount,bind,Except.bind]
    | some n =>
      have hn : fds.length + 1 ≠ n := h
      simp [attach,setPassedFileDescriptors,hcount,hn,bind,Except.bind]

end

end Message

structure Rights where
  first : ℤ
  others : List ℤ

def Rights.descriptors (r : Rights) : List ℤ := r.first :: r.others

structure Reception where
  data : Bytes
  rights : List Rights
  small : data.length ≤ chunkSize

abbrev PassedFds := List ((ℤ × ℤ) × List ℤ)
def PassedFds.used (passed : PassedFds) (length : ℕ) : List ℤ :=
  (passed.filter fun p => decide (p.1.2 ≤ (length : ℤ))).flatMap Prod.snd
def PassedFds.updated (passed : PassedFds) (length : ℕ) : PassedFds :=
  (passed.filter fun p => !decide (p.1.2 ≤ (length : ℤ))).map fun p => ((p.1.1 - length,p.1.2 - length),p.2)

structure SocketBuffer where
  buffer : Bytes
  index : ℕ
  passedFds : PassedFds
  fits : index ≤ buffer.length
  blocks : chunkSize ∣ buffer.length
  bounded : buffer.length ≤ maxSize

namespace SocketBuffer

def start : SocketBuffer where
  buffer := replicate chunkSize 0
  index := 0
  passedFds := []
  fits := Nat.zero_le _
  blocks := by simp
  bounded := by
    rw [length_replicate]
    decide

def overwrite (buffer : Bytes) (index : ℕ) (data : Bytes) : Bytes :=
  buffer.take index ++ (data ++ buffer.drop (index + data.length))

theorem length_overwrite {buffer data : Bytes} {index : ℕ} (h : data.length + index ≤ buffer.length) :
    (overwrite buffer index data).length = buffer.length := by
  simp only [overwrite,length_append,length_take,length_drop]
  omega

/-- The ranges of descriptors after a reception: only the first descriptor of each record is read. -/
def record (s : SocketBuffer) (r : Reception) : PassedFds :=
  if r.rights.length > 0 then s.passedFds ++ [(((s.index : ℤ),(s.index : ℤ) + r.data.length),
    r.rights.map Rights.first)] else s.passedFds

def read (s : SocketBuffer) (r : Reception) : Except Exc SocketBuffer :=
  if r.data = [] then .error .connectionClosed
  else if hgrow : r.data.length + s.index > s.buffer.length then
    if hmax : s.buffer.length ≥ maxSize then .error .maximumSize
    else
      have hroom : r.data.length + s.index ≤ (s.buffer ++ replicate chunkSize 0).length := by
        have hsmall := r.small
        have hfits := s.fits
        rw [length_append,length_replicate]
        omega
      .ok
        { buffer := overwrite (s.buffer ++ replicate chunkSize 0) s.index r.data
          index := s.index + r.data.length
          passedFds := s.record r
          fits := by rw [length_overwrite hroom]; omega
          blocks := by
            rw [length_overwrite hroom,length_append,length_replicate]
            exact (Nat.dvd_add_self_right).2 s.blocks
          bounded := by
            obtain ⟨k,hk⟩ := s.blocks
            rw [length_overwrite hroom,length_append,length_replicate]
            unfold maxSize chunkSize at *
            omega }
  else
    have hroom : r.data.length + s.index ≤ s.buffer.length := Nat.not_lt.1 hgrow
    .ok
      { buffer := overwrite s.buffer s.index r.data
        index := s.index + r.data.length
        passedFds := s.record r
        fits := by rw [length_overwrite hroom]; omega
        blocks := by rw [length_overwrite hroom]; exact s.blocks
        bounded := by rw [length_overwrite hroom]; exact s.bounded }

def popData (s : SocketBuffer) (length : ℕ) : Except Exc (Bytes × Option (List ℤ) × SocketBuffer) :=
  if h : length > s.index then .error .notEnoughData
  else
    have hlength : (s.buffer.drop length ++ replicate length 0).length = s.buffer.length := by
      have hfits := s.fits
      rw [length_append,length_drop,length_replicate]
      omega
    .ok (s.buffer.take length,if (s.passedFds.used length).length = 0 then none else some (s.passedFds.used length),
      { buffer := s.buffer.drop length ++ replicate length 0
        index := s.index - length
        passedFds := s.passedFds.updated length
        fits := by have hfits := s.fits; rw [hlength]; omega
        blocks := by rw [hlength]; exact s.blocks
        bounded := by rw [hlength]; exact s.bounded })

def getDbusMessage (s : SocketBuffer) : Except Exc (Option (Message × SocketBuffer)) :=
  match Message.parse (s.buffer.take s.index) with
  | .error .incomplete => if s.index > 2 ^ 27 then .error .tooBig else .ok none
  | .error f => .error (.invalid f)
  | .ok m => do
    let popped ← s.popData m.length
    let m ← m.attach popped.2.1
    return some (m,popped.2.2)

variable {s : SocketBuffer} {m : Message}

theorem index_of_getDbusMessage {s' : SocketBuffer} (h : s.getDbusMessage = .ok (some (m,s'))) :
    s'.index < s.index := by
  unfold getDbusMessage at h
  split at h
  · split at h <;> cases h
  · cases h
  · rename_i m hm
    obtain ⟨popped,hp,h⟩ := bind_eq_ok.1 h
    obtain ⟨m',_,h⟩ := bind_eq_ok.1 h
    cases h
    obtain ⟨hh,hl,_⟩ := parse_eq_ok hm
    have hpo : 0 < m.length := by
      unfold Message.length
      omega
    rw [length_take] at hl
    unfold popData at hp
    split at hp
    · cases hp
    · cases hp
      change s.index - m.length < s.index
      omega

def drain (s : SocketBuffer) : Except Exc (List Message × SocketBuffer) :=
  match _h : s.getDbusMessage with
  | .error e => .error e
  | .ok none => .ok ([],s)
  | .ok (some (m,s')) => do
    let rest ← drain s'
    return (m :: rest.1,rest.2)
termination_by s.index
decreasing_by exact index_of_getDbusMessage _h

def receive (s : SocketBuffer) : List Reception → Except Exc (List Message × SocketBuffer)
  | [] => .ok ([],s)
  | r :: rs => do
    let read ← s.read r
    let found ← read.drain
    let rest ← found.2.receive rs
    return (found.1 ++ rest.1,rest.2)

def contents (s : SocketBuffer) : Bytes := s.buffer.take s.index
theorem length_contents (s : SocketBuffer) : s.contents.length = s.index := by
  rw [contents,length_take,Nat.min_eq_left s.fits]

theorem take_overwrite {buffer data : Bytes} {index : ℕ} (h : index ≤ buffer.length) :
    (overwrite buffer index data).take (index + data.length) = buffer.take index ++ data := by
  have hl : (buffer.take index ++ data).length = index + data.length := by
    rw [length_append,length_take,Nat.min_eq_left h]
  rw [overwrite,← append_assoc,take_left' hl]

theorem read_cases (s : SocketBuffer) (r : Reception) (hd : r.data ≠ []) :
    (s.index + r.data.length ≤ maxSize ∧ ∃ s', s.read r = .ok s' ∧ s'.contents = s.contents ++ r.data ∧
      s'.passedFds = s.record r) ∨
      maxSize < s.index + r.data.length ∧ s.read r = .error .maximumSize := by
  have hs := r.small
  have hf := s.fits
  have hb := s.bounded
  obtain ⟨k,hk⟩ := s.blocks
  unfold read
  rw [if_neg hd]
  by_cases hg : r.data.length + s.index > s.buffer.length
  · rw [dif_pos hg]
    by_cases hma : s.buffer.length ≥ maxSize
    · rw [dif_pos hma]
      exact .inr ⟨by omega,rfl⟩
    · rw [dif_neg hma]
      refine .inl ⟨?_,_,rfl,?_,rfl⟩
      · unfold maxSize chunkSize at *
        omega
      · change (overwrite _ s.index r.data).take (s.index + r.data.length) = _
        rw [take_overwrite (by rw [length_append]; omega), take_append_of_le_length hf]
        rfl
  · rw [dif_neg hg]
    refine .inl ⟨by omega,_,rfl,?_,rfl⟩
    change (overwrite _ s.index r.data).take (s.index + r.data.length) = _
    rw [take_overwrite hf]
    rfl

theorem popData_of_le {length : ℕ} (h : length ≤ s.index) :
    ∃ s', s.popData length =
        .ok (s.contents.take length,
          if (s.passedFds.used length).length = 0 then none else some (s.passedFds.used length),s') ∧
      s'.contents = s.contents.drop length ∧ s'.passedFds = s.passedFds.updated length := by
  have hf := s.fits
  have ht : s.contents.take length = s.buffer.take length := by
    rw [contents,take_take,Nat.min_eq_left h]
  unfold popData
  rw [dif_neg (Nat.not_lt.2 h),ht]
  refine ⟨_,rfl,?_,rfl⟩
  change (s.buffer.drop length ++ replicate length 0).take (s.index - length) = (s.buffer.take s.index).drop length
  rw [take_append_of_le_length (by rw [length_drop]; omega), drop_take]

theorem getDbusMessage_parsed (h : parse s.contents = .ok m) :
    s.getDbusMessage = (s.popData m.length).bind fun popped => (m.attach popped.2.1).bind fun m =>
      .ok (some (m,popped.2.2)) := by
  unfold contents at h
  unfold getDbusMessage
  rw [h]
  rfl

theorem getDbusMessage_incomplete (h : parse s.contents = .error .incomplete) : s.getDbusMessage = .ok none := by
  have hf := s.fits
  have hb := s.bounded
  have hi : ¬ s.index > 2 ^ 27 := by
    unfold maxSize at hb
    omega
  unfold contents at h
  unfold getDbusMessage
  rw [h]
  exact if_neg hi

theorem getDbusMessage_invalid {f : Failure} (h : parse s.contents = .error f) (hf : f ≠ .incomplete) :
    s.getDbusMessage = .error (.invalid f) := by
  unfold contents at h
  unfold getDbusMessage
  rw [h]
  cases f with
  | incomplete => exact absurd rfl hf
  | _ => rfl

theorem drain_none (h : s.getDbusMessage = .ok none) : s.drain = .ok ([],s) := by
  rw [drain]
  split <;> simp_all

theorem drain_some {s' : SocketBuffer} (h : s.getDbusMessage = .ok (some (m,s'))) :
    s.drain = s'.drain.bind fun rest => .ok (m :: rest.1,rest.2) := by
  rw [drain]
  split
  · simp_all
  · simp_all
  · rename_i hs
    rw [h] at hs
    cases hs
    rfl

theorem drain_error {e : Exc} (h : s.getDbusMessage = .error e) : s.drain = .error e := by
  rw [drain]
  split <;> simp_all

end SocketBuffer

end Padsi.Dbus
