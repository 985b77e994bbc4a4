import Padsi.Dbus.Buffer

/-! # Reassembly of the stream

What the buffer returns for any cutting of the bytes of well-formed messages. It starts
at the position `base` of the first message that was not returned.
-/
namespace Padsi.Dbus
open Text Python List Reception SocketBuffer Wire

def WireField.signatureText : WireField → Option Str
  | .signature s _ => some s
  | _ => none

def lastSignature : List WireField → Option Str
  | [] => none
  | f :: fs => (lastSignature fs).or f.signatureText

def Wire.handles (w : Wire) : ℕ := ((lastSignature w.fields).getD []).count 'h'

theorem get_signature_set (f : WireField) {c : HeaderType × Value} (hc : f.content = some c)
    (d : Dict HeaderType Value) :
    (d.set c.1 c.2).get .signature = (f.signatureText.map Value.text).or (d.get .signature) := by
  rw [Dict.get_set]
  cases f with
  | string h s kind short =>
    cases hc
    have hne : HeaderType.signature ≠ h := by
      rintro rfl
      rcases kind with hkind | hkind <;> cases hkind
    rw [if_neg hne]
    rfl
  | signature s short =>
    cases hc
    rfl
  | word h n kind =>
    cases hc
    have hne : HeaderType.signature ≠ h := by
      rintro rfl
      cases kind
    rw [if_neg hne]
    rfl
  | other => cases hc

theorem get_signature_fields {fs : List WireField} (hfs : ∀ f ∈ fs, f.content.isSome = true)
    (d : Dict HeaderType Value) :
    ((fs.filterMap WireField.content).foldl (fun d c => d.set c.1 c.2) d).get .signature =
      ((lastSignature fs).map Value.text).or (d.get .signature) := by
  induction fs generalizing d with
  | nil => rfl
  | cons f fs ih =>
    obtain ⟨hf,hrest⟩ := forall_mem_cons.1 hfs
    obtain ⟨c,hc⟩ := Option.isSome_iff_exists.1 hf
    rw [filterMap_cons_some hc,foldl_cons,ih hrest,get_signature_set f hc,lastSignature]
    cases lastSignature fs <;> rfl

theorem announced_message {w : Wire} (hw : w.Known) (t : MessageType) :
    (w.message t).announced = .ok ((lastSignature w.fields).map fun s => s.count 'h') := by
  have hg : (w.message t).fields.get .signature = ((lastSignature w.fields).map Value.text).or none :=
    get_signature_fields hw.fields .empty
  unfold Message.announced
  rw [hg]
  cases lastSignature w.fields <;> rfl

theorem handles_eq (w : Wire) : w.handles = ((lastSignature w.fields).map fun s => s.count 'h').getD 0 := by
  rw [handles]
  cases lastSignature w.fields <;> rfl

namespace SocketBuffer

section
variable {s : SocketBuffer} {w : Wire} {rest : Bytes} (hcontents : s.contents = w.encode ++ rest)
include hcontents

theorem popData_message (t : MessageType) : ∃ s', s.popData (w.message t).length =
      .ok (w.encode,if (s.passedFds.used w.encode.length).length = 0 then none
        else some (s.passedFds.used w.encode.length),s') ∧
    s'.contents = rest ∧ s'.passedFds = s.passedFds.updated w.encode.length := by
  have hle : w.encode.length ≤ s.index := by
    rw [← s.length_contents,hcontents,length_append]
    omega
  obtain ⟨s',hp,hrest,hpa⟩ := popData_of_le hle
  rw [hcontents,take_left] at hp
  rw [hcontents,drop_left] at hrest
  rw [length_message]
  exact ⟨s',hp,hrest,hpa⟩

theorem getDbusMessage_message (hw : w.Known) (hf : (s.passedFds.used w.encode.length).length = w.handles) :
    ∃ m s', s.getDbusMessage = .ok (some (m,s')) ∧ m.blob = w.encode ∧ m.passedFd = s.passedFds.used w.encode.length ∧
      s'.contents = rest ∧ s'.passedFds = s.passedFds.updated w.encode.length := by
  obtain ⟨t,ht⟩ := hw.messageType
  obtain ⟨s',hpo,hrest,hpa⟩ := popData_message hcontents t
  have ha := Message.attach_of_eq (announced_message hw t) rfl (hf.trans (handles_eq w))
  have hp := parse_encode ht hw.fields rest
  rw [← hcontents] at hp
  refine ⟨{ w.message t with passedFd := s.passedFds.used w.encode.length },s',?_,rfl,rfl,hrest,hpa⟩
  rw [getDbusMessage_parsed hp,hpo]
  change (Message.attach _ _).bind _ = _
  rw [ha]
  rfl

theorem getDbusMessage_error (hw : ¬ (w.Known ∧ (s.passedFds.used w.encode.length).length = w.handles)) :
    ∃ e, s.getDbusMessage = .error e := by
  by_cases hk : w.Known
  · obtain ⟨t,ht⟩ := hk.messageType
    obtain ⟨s',hpo,_,_⟩ := popData_message hcontents t
    have hne : (s.passedFds.used w.encode.length).length ≠ ((lastSignature w.fields).map fun s => s.count 'h').getD 0 :=
      fun heq => hw ⟨hk,heq.trans (handles_eq w).symm⟩
    obtain ⟨e,ha⟩ := Message.attach_of_ne (announced_message hk t) rfl hne
    have hp := parse_encode ht hk.fields rest
    rw [← hcontents] at hp
    refine ⟨e,?_⟩
    rw [getDbusMessage_parsed hp,hpo]
    change (Message.attach _ _).bind _ = _
    rw [ha]
    rfl
  · obtain ⟨f,hf,hp⟩ := parse_unknown hk rest
    rw [← hcontents] at hp
    exact ⟨.invalid f,getDbusMessage_invalid hp hf⟩

end

variable {s : SocketBuffer}

theorem getDbusMessage_part {w : Wire} (hw : w.Known) (hp : s.contents <+: w.encode) (hs : s.index < w.encode.length) :
    s.getDbusMessage = .ok none := by
  obtain ⟨t,ht⟩ := hw.messageType
  exact getDbusMessage_incomplete (parse_part ht hp (by rw [length_contents]; exact hs))

theorem getDbusMessage_short {w : Wire} (hpa : s.contents <+: w.encode) (hs : s.index < w.encode.length) :
    s.getDbusMessage = .ok none ∨ ∃ e, s.getDbusMessage = .error e := by
  obtain ⟨f,hp⟩ := parse_part_error hpa (by rw [length_contents]; exact hs)
  by_cases hf : f = .incomplete
  · rw [hf] at hp
    exact .inl (getDbusMessage_incomplete hp)
  · exact .inr ⟨.invalid f,getDbusMessage_invalid hp hf⟩

theorem getDbusMessage_empty (h : s.contents = []) : s.getDbusMessage = .ok none := by
  refine getDbusMessage_incomplete ?_
  rw [h]
  rfl

end SocketBuffer

structure Parcel where
  wire : Wire
  fds : List ℤ

def Parcel.kept (p : Parcel) : List ℤ := p.fds.take 1

/-- A message that the parser knows and that announces the descriptors that are kept. -/
structure Parcel.Sound (p : Parcel) : Prop where
  known : p.wire.Known
  announced : p.kept.length = p.wire.handles

def Parcel.length (p : Parcel) : ℕ := p.wire.encode.length
def stream (ps : List Parcel) : Bytes := ps.flatMap fun p => p.wire.encode
def Parcel.view (p : Parcel) : Bytes × List ℤ := (p.wire.encode,p.kept)
def Message.view (m : Message) : Bytes × List ℤ := (m.blob,m.passedFd)

def carriers : ℕ → List Reception → List (ℕ × List Rights)
  | _, [] => []
  | n, r :: rs => if r.rights.length > 0 then (n + r.data.length,r.rights) :: carriers (n + r.data.length) rs
      else carriers (n + r.data.length) rs

def owed : ℕ → List Parcel → List ((ℕ × ℕ) × List ℤ)
  | _, [] => []
  | n, p :: ps => if p.fds = [] then owed (n + p.length) ps else ((n,n + p.length),p.fds) :: owed (n + p.length) ps

/-- A reception that ends in the message whose descriptors it carries, all in one record. -/
def Carries (c : ℕ × List Rights) (o : (ℕ × ℕ) × List ℤ) : Prop :=
  o.1.1 < c.1 ∧ c.1 ≤ o.1.2 ∧ c.2.map Rights.descriptors = [o.2]

variable {o : (ℕ × ℕ) × List ℤ} {n : ℕ}

theorem Carries.first {c : ℕ × List Rights} (h : Carries c o) : c.2.map Rights.first = o.2.take 1 := by
  obtain ⟨r,hr,hd⟩ := map_eq_singleton_iff.1 h.2.2
  rw [hr,← hd]
  rfl

def unreturned : List ℕ → ℕ → ℕ
  | [], n => n
  | l :: ls, n => if l ≤ n then unreturned ls (n - l) else n

def Room (lengths : List ℕ) : ℕ → List Reception → Prop
  | _, [] => True
  | n, r :: rs => unreturned lengths n + r.data.length ≤ maxSize ∧ Room lengths (n + r.data.length) rs

theorem stream_cons (p : Parcel) (ps : List Parcel) : stream (p :: ps) = p.wire.encode ++ stream ps := flatMap_cons
theorem stream_append (ps qs : List Parcel) : stream (ps ++ qs) = stream ps ++ stream qs := flatMap_append
theorem length_stream (ps : List Parcel) : (stream ps).length = (ps.map Parcel.length).sum := length_flatMap

theorem unreturned_append (ls ms : List ℕ) (n : ℕ) : unreturned (ls ++ ms) (ls.sum + n) = unreturned ms n := by
  induction ls generalizing n with
  | nil => rw [nil_append,sum_nil,Nat.zero_add]
  | cons l ls ih =>
    have hrest : l + ls.sum + n - l = ls.sum + n := by omega
    rw [cons_append, sum_cons, unreturned, if_pos (by omega), hrest, ih]

variable {rs : List Reception} {ps : List Parcel}

theorem room_append_iff {ls ms : List ℕ} : Room (ls ++ ms) (ls.sum + n) rs ↔ Room ms n rs := by
  induction rs generalizing n with
  | nil => exact Iff.rfl
  | cons r rs ih => rw [Room,Room,unreturned_append,Nat.add_assoc,ih]

theorem Room.of_isPart {lengths : List ℕ} {past : List Reception} (hp : past <+: rs) (h : Room lengths n rs) :
    Room lengths n past := by
  induction past generalizing n rs with
  | nil => exact trivial
  | cons r past ih =>
    obtain ⟨rest,rfl⟩ := hp
    exact ⟨h.1,ih (prefix_append past rest) h.2⟩

theorem lt_of_mem_owed (h : o ∈ owed n ps) : n ≤ o.1.1 := by
  induction ps generalizing n with
  | nil => cases h
  | cons p ps ih =>
    unfold owed at h
    split at h
    · exact (Nat.le_add_right _ _).trans (ih h)
    · rcases mem_cons.1 h with rfl | h
      · exact Nat.le_refl _
      · exact (Nat.le_add_right _ _).trans (ih h)

theorem lt_of_mem_carriers (hrs : ∀ r ∈ rs, r.data ≠ []) {c : ℕ × List Rights} (h : c ∈ carriers n rs) :
    n < c.1 := by
  induction rs generalizing n with
  | nil => cases h
  | cons r rs ih =>
    obtain ⟨hr,hrest⟩ := forall_mem_cons.1 hrs
    have hp := length_pos_of_ne_nil hr
    unfold carriers at h
    split at h
    · rcases mem_cons.1 h with rfl | h
      · exact Nat.lt_add_of_pos_right hp
      · exact (Nat.le_add_right _ _).trans_lt (ih hrest h)
    · exact (Nat.le_add_right _ _).trans_lt (ih hrest h)

theorem carriers_append (n : ℕ) (rs rs' : List Reception) :
    carriers n (rs ++ rs') = carriers n rs ++ carriers (n + (rs.flatMap data).length) rs' := by
  induction rs generalizing n with
  | nil => rfl
  | cons r rs ih =>
    have hp : n + (r.data ++ rs.flatMap data).length = n + r.data.length + (rs.flatMap data).length := by
      rw [length_append,Nat.add_assoc]
    rw [cons_append,carriers,carriers,flatMap_cons,hp,ih]
    split
    · rfl
    · rfl

def SocketBuffer.Ranges (s : SocketBuffer) (base : ℕ) (pending : List (ℕ × List Rights)) : Prop :=
  s.passedFds.map (fun p => (p.1.2,p.2)) = pending.map fun c => ((c.1 : ℤ) - base,c.2.map Rights.first)

structure SocketBuffer.At (s : SocketBuffer) (base : ℕ) (ps : List Parcel)
    (pending coming : List (ℕ × List Rights)) : Prop where
  contents : s.contents <+: stream ps
  ranges : s.Ranges base pending
  received : ∀ c ∈ pending, c.1 ≤ base + s.index
  later : ∀ c ∈ coming, base + s.index < c.1
  carried : List.Forall₂ Carries (pending ++ coming) (owed base ps)

namespace SocketBuffer

variable {s : SocketBuffer} {base : ℕ} {ps : List Parcel} {pending : List (ℕ × List Rights)} {rs : List Reception}

/-- A reception appends its bytes, and its descriptors to those that wait. -/
theorem At.read {r : Reception}
    {future : List (ℕ × List Rights)} (h : s.At base ps pending (carriers (base + s.index) (r :: rs) ++ future))
      (hr : r.data ≠ [])
    (hrs : ∀ r ∈ rs, r.data ≠ []) (hdata : s.contents ++ r.data <+: stream ps)
    (hf : ∀ c ∈ future, base + s.index + r.data.length < c.1) :
    (s.index + r.data.length ≤ maxSize ∧ ∃ s' pending', s.read r = .ok s' ∧ s'.contents = s.contents ++ r.data ∧
      s'.At base ps pending' (carriers (base + s'.index) rs ++ future)) ∨
      maxSize < s.index + r.data.length ∧ s.read r = .error .maximumSize := by
  rcases s.read_cases r hr with ⟨hro,s',hre,hcontents,hp⟩ | hfu
  · have hi : s'.index = s.index + r.data.length := by
      rw [← s'.length_contents,hcontents,length_append,s.length_contents]
    have hl : ∀ c ∈ carriers (base + s'.index) rs ++ future, base + s'.index < c.1 := by
      intro c hc
      rcases mem_append.1 hc with hc | hc
      · exact lt_of_mem_carriers hrs hc
      · have hlt := hf c hc
        omega
    have hcarried := h.carried
    have hra := h.ranges
    unfold Ranges at hra
    rw [carriers,Nat.add_assoc,← hi] at hcarried
    by_cases hri : r.rights.length > 0
    · rw [if_pos hri] at hcarried
      refine .inl ⟨hro,s',pending ++ [(base + s'.index,r.rights)],hre,hcontents,hcontents ▸ hdata,?_,?_,hl,?_⟩
      · unfold Ranges
        rw [hp,record,if_pos hri,map_append,map_append,hra,hi]
        simp
      · intro c hc
        rcases mem_append.1 hc with hc | hc
        · have hle := h.received c hc
          omega
        · rw [mem_singleton.1 hc]
      · rw [append_assoc]
        exact hcarried
    · rw [if_neg hri] at hcarried
      refine .inl ⟨hro,s',pending,hre,hcontents,hcontents ▸ hdata,?_,?_,hl,hcarried⟩
      · unfold Ranges
        rw [hp,record,if_neg hri,hra]
      · intro c hc
        have hle := h.received c hc
        omega
  · exact .inr hfu

section
variable {s : SocketBuffer} {base : ℕ} {pending : List (ℕ × List Rights)} (h : s.Ranges base pending) (length : ℕ)
include h

theorem Ranges.used : s.passedFds.used length =
    (pending.filter fun c => decide (c.1 ≤ base + length)).flatMap fun c => c.2.map Rights.first := by
  have hs : (fun c : ℕ × List Rights => decide ((c.1 : ℤ) - base ≤ length)) =
      fun c => decide (c.1 ≤ base + length) := by
    funext c
    exact decide_eq_decide.2 (by omega)
  calc s.passedFds.used length
      = ((s.passedFds.map fun p => (p.1.2,p.2)).filter fun q => decide (q.1 ≤ (length : ℤ))).flatMap Prod.snd := by
        rw [PassedFds.used,filter_map,flatMap_map]
        rfl
    _ = _ := by
        rw [h,filter_map,flatMap_map,← hs]
        rfl

theorem Ranges.updated {s' : SocketBuffer} (hp : s'.passedFds = s.passedFds.updated length) :
    s'.Ranges (base + length) (pending.filter fun c => !decide (c.1 ≤ base + length)) := by
  have hs : (fun c : ℕ × List Rights => !decide ((c.1 : ℤ) - base ≤ length)) =
      fun c => !decide (c.1 ≤ base + length) := by
    funext c
    rw [decide_eq_decide.2 (show (c.1 : ℤ) - base ≤ length ↔ c.1 ≤ base + length by omega)]
  calc s'.passedFds.map (fun p => (p.1.2,p.2))
      = ((s.passedFds.map fun p => (p.1.2,p.2)).filter fun q => !decide (q.1 ≤ (length : ℤ))).map fun q =>
        (q.1 - (length : ℤ),q.2) := by
        rw [hp,PassedFds.updated,filter_map,map_map,map_map]
        rfl
    _ = _ := by
        rw [h,filter_map,map_map,← hs]
        refine map_congr_left fun c _ => ?_
        simp only [Function.comp_apply]
        congr 1
        push_cast
        omega

end

theorem lt_of_carries {cs : List (ℕ × List Rights)} {os : List ((ℕ × ℕ) × List ℤ)} {n : ℕ}
    (h : List.Forall₂ Carries cs os) (hos : ∀ o ∈ os, n ≤ o.1.1) : ∀ c ∈ cs, n < c.1 := by
  induction h with
  | nil => exact nofun
  | cons hc _ ih =>
    obtain ⟨ho,hrest⟩ := forall_mem_cons.1 hos
    exact forall_mem_cons.2 ⟨ho.trans_lt hc.1,ih hrest⟩

theorem filter_le_of_lt {cs : List (ℕ × List Rights)} {n : ℕ} (h : ∀ c ∈ cs, n < c.1) :
    cs.filter (fun c => decide (c.1 ≤ n)) = [] ∧ cs.filter (fun c => !decide (c.1 ≤ n)) = cs := by
  constructor
  · refine filter_eq_nil_iff.2 fun c hc => ?_
    rw [decide_eq_true_eq]
    exact Nat.not_le.2 (h c hc)
  · refine filter_eq_self.2 fun c hc => ?_
    rw [Bool.not_eq_true',decide_eq_false_iff_not]
    exact Nat.not_le.2 (h c hc)

variable {coming : List (ℕ × List Rights)}

/-- Receptions that end before the end of a message carry its descriptors, the others those that follow. -/
theorem carried_cons {index : ℕ} {p : Parcel} (hle : p.length ≤ index)
    (hl : ∀ c ∈ coming, base + index < c.1) (h : List.Forall₂ Carries (pending ++ coming) (owed base (p :: ps))) :
    (pending.filter fun c => decide (c.1 ≤ base + p.length)).flatMap (fun c => c.2.map Rights.first) = p.kept ∧
      List.Forall₂ Carries ((pending.filter fun c => !decide (c.1 ≤ base + p.length)) ++ coming)
        (owed (base + p.length) ps) := by
  have ha : ∀ o ∈ owed (base + p.length) ps, base + p.length ≤ o.1.1 := fun o ho => lt_of_mem_owed ho
  unfold owed at h
  by_cases hf : p.fds = []
  · rw [if_pos hf] at h
    obtain ⟨hnone,hal⟩ := filter_le_of_lt fun c hc => lt_of_carries h ha c (mem_append_left _ hc)
    rw [hnone,hal,Parcel.kept,hf]
    exact ⟨rfl,h⟩
  · rw [if_neg hf] at h
    cases pending with
    | nil =>
      rw [nil_append] at h
      cases coming with
      | nil => cases h
      | cons c coming =>
        have hc := (forall₂_cons.1 h).1
        have hlt := hl c mem_cons_self
        have he : c.1 ≤ base + p.length := hc.2.1
        omega
    | cons c pending =>
      obtain ⟨hc,hrest⟩ := forall₂_cons.1 h
      obtain ⟨hnone,hal⟩ := filter_le_of_lt fun c hc => lt_of_carries hrest ha c (mem_append_left _ hc)
      have he : decide (c.1 ≤ base + p.length) = true := decide_eq_true hc.2.1
      rw [filter_cons, if_pos he, filter_cons, if_neg (by rw [he]; decide), hnone, hal]
      exact ⟨by rw [flatMap_singleton,hc.first]; rfl,hrest⟩

theorem At.pop {p : Parcel} (h : s.At base (p :: ps) pending coming) (hle : p.length ≤ s.index) :
    (p.Sound ∧ ∃ m s' pending', s.getDbusMessage = .ok (some (m,s')) ∧ m.view = p.view ∧
      s.contents = p.wire.encode ++ s'.contents ∧
      s'.At (base + p.length) ps pending' coming) ∨ (¬ p.Sound ∧ ∃ e, s.getDbusMessage = .error e) := by
  have hs := h.contents
  rw [stream_cons] at hs
  obtain ⟨rest,hrest⟩ : p.wire.encode <+: s.contents :=
    prefix_of_prefix_length_le (prefix_append _ _) hs (by rw [length_contents]; exact hle)
  obtain ⟨hk,hcarried⟩ := carried_cons hle h.later h.carried
  have hu : s.passedFds.used p.wire.encode.length = p.kept := (h.ranges.used p.length).trans hk
  by_cases hp : p.Sound
  · obtain ⟨m,s',hg,hb,hpa,hcontents,hup⟩ := getDbusMessage_message hrest.symm hp.known (by rw [hu]; exact hp.announced)
    have hi : s.index = p.length + s'.index := by
      rw [← s.length_contents,← s'.length_contents,← hrest,hcontents,length_append]
      rfl
    refine .inl ⟨hp,m,s',_,hg,?_,by rw [← hrest,hcontents],?_,h.ranges.updated p.length hup,?_,?_,hcarried⟩
    · unfold Message.view Parcel.view
      rw [hb,hpa,hu]
    · rw [← hrest,prefix_append_right_inj] at hs
      rw [hcontents]
      exact hs
    · intro c hc
      have hc := h.received c (mem_of_mem_filter hc)
      omega
    · intro c hc
      have hc := h.later c hc
      omega
  · exact .inr ⟨hp,getDbusMessage_error hrest.symm fun hso => hp ⟨hso.1,by rw [← hu]; exact hso.2⟩⟩

def Waits (s : SocketBuffer) (ps : List Parcel) : Prop := ∀ p ∈ ps.head?, s.index < p.length

theorem At.wait (h : s.At base ps pending coming)
    (hw : s.Waits ps) : s.getDbusMessage = .ok none ∨ (∃ e, s.getDbusMessage = .error e) ∧ ∃ p ∈ ps, ¬ p.Sound := by
  cases ps with
  | nil => exact .inl (getDbusMessage_empty (prefix_nil.1 h.contents))
  | cons p ps =>
    have hs : s.index < p.wire.encode.length := hw p rfl
    have hst := h.contents
    rw [stream_cons] at hst
    have hpa : s.contents <+: p.wire.encode :=
      prefix_of_prefix_length_le hst (prefix_append _ _) (by rw [length_contents]; exact hs.le)
    by_cases hp : p.Sound
    · exact .inl (getDbusMessage_part hp.known hpa hs)
    · rcases getDbusMessage_short hpa hs with hnone | he
      · exact .inl hnone
      · exact .inr ⟨he,p,mem_cons_self,hp⟩

/-- The messages that are complete are returned, each with its own descriptors. -/
theorem At.drain (h : s.At base ps pending coming) :
    (∃ done rest ms s' pending', ps = done ++ rest ∧ s.drain = .ok (ms,s') ∧
      ms.map Message.view = done.map Parcel.view ∧
      (∀ p ∈ done, p.Sound) ∧ s.contents = stream done ++ s'.contents ∧ s'.Waits rest ∧
      s'.At (base + (stream done).length) rest pending' coming) ∨ (∃ e, s.drain = .error e) ∧ ∃ p ∈ ps, ¬ p.Sound := by
  induction ps generalizing s base pending with
  | nil =>
    have he : s.contents = [] := prefix_nil.1 h.contents
    exact .inl ⟨[],[],[],s,pending,rfl,drain_none (getDbusMessage_empty he),rfl,nofun,rfl,nofun,h⟩
  | cons p ps ih =>
    by_cases hle : p.length ≤ s.index
    · rcases h.pop hle with ⟨hp,m,s₁,pending₁,hg,hv,hcontents,hat⟩ | ⟨hp,e,hg⟩
      · rcases ih hat with ⟨done,rest,ms,s',pending',rfl,hd,hvi,hs,hdo,hw,ha'⟩ | ⟨⟨e,hd⟩,q,hq,hu⟩
        · refine .inl ⟨p :: done,rest,m :: ms,s',pending',rfl,?_,?_,forall_mem_cons.2 ⟨hp,hs⟩,?_,hw,?_⟩
          · rw [drain_some hg,hd]
            rfl
          · rw [map_cons,map_cons,hv,hvi]
          · rw [hcontents,hdo,stream_cons,append_assoc]
          · have hb : base + (stream (p :: done)).length = base + p.length + (stream done).length := by
              rw [stream_cons,length_append,Nat.add_assoc]
              rfl
            rw [hb]
            exact ha'
        · refine .inr ⟨⟨e,?_⟩,q,mem_cons_of_mem _ hq,hu⟩
          rw [drain_some hg,hd]
          rfl
      · exact .inr ⟨⟨e,drain_error hg⟩,p,mem_cons_self,hp⟩
    · have hw : s.Waits (p :: ps) := by
        intro q hq
        cases hq
        exact Nat.lt_of_not_le hle
      rcases h.wait hw with hnone | ⟨⟨e,hg⟩,hu⟩
      · exact .inl ⟨[],p :: ps,[],s,pending,rfl,drain_none hnone,rfl,nofun,rfl,hw,h⟩
      · exact .inr ⟨⟨e,drain_error hg⟩,hu⟩

theorem unreturned_of_waits (h : s.Waits ps) : unreturned (ps.map Parcel.length) s.index = s.index := by
  cases ps with
  | nil => rfl
  | cons p ps => exact if_neg (Nat.not_le.2 (h p rfl))

/-- A run returns the messages received, each with its descriptors, unless one is an error or there
is no room. -/
theorem At.receive {future : List (ℕ × List Rights)}
    (h : s.At base ps pending (carriers (base + s.index) rs ++ future)) (hw : s.Waits ps) (hrs : ∀ r ∈ rs, r.data ≠ [])
    (hdata : s.contents ++ rs.flatMap data <+: stream ps)
    (hf : ∀ c ∈ future, base + s.index + (rs.flatMap data).length < c.1) :
    (Room (ps.map Parcel.length) s.index rs ∧
      ∃ done rest ms s' pending', ps = done ++ rest ∧ s.receive rs = .ok (ms,s') ∧
        ms.map Message.view = done.map Parcel.view ∧
        (∀ p ∈ done, p.Sound) ∧ s.contents ++ rs.flatMap data = stream done ++ s'.contents ∧ s'.Waits rest ∧
        s'.At (base + (stream done).length) rest pending' future) ∨
      (∃ e, s.receive rs = .error e) ∧ ¬ ((∀ p ∈ ps, p.Sound) ∧ Room (ps.map Parcel.length) s.index rs) := by
  induction rs generalizing s base ps pending with
  | nil => exact .inl ⟨trivial,[],ps,[],s,pending,rfl,rfl,rfl,nofun,append_nil _,hw,h⟩
  | cons r rs ih =>
    obtain ⟨hr,hrest⟩ := forall_mem_cons.1 hrs
    rw [flatMap_cons] at hdata hf ⊢
    rw [length_append] at hf
    rw [← append_assoc] at hdata ⊢
    have hu := unreturned_of_waits hw
    have ho := h.read hr hrest ((prefix_append _ _).trans hdata) fun c hc => (by omega : _ ≤ _).trans_lt (hf c hc)
    rcases ho with ⟨hro,s₁,pending₁,hre,hc₁,ha₁⟩ | ⟨hro,hre⟩
    · rcases ha₁.drain with ⟨done,rest,ms,s₂,pending₂,rfl,hd,hv,hs,hc₂,hw₂,ha⟩ | ⟨⟨e,hd⟩,p,hp,hun⟩
      · have hi : s.index + r.data.length = (stream done).length + s₂.index := by
          rw [← s.length_contents,← s₂.length_contents,← length_append,← hc₁,hc₂,length_append]
        have hi₁ : s₁.index = s.index + r.data.length := by
          rw [← s₁.length_contents,hc₁,length_append,s.length_contents]
        have hpo : base + s₁.index = base + (stream done).length + s₂.index := by omega
        have hroom_iff : Room ((done ++ rest).map Parcel.length) s.index (r :: rs) ↔
            Room (rest.map Parcel.length) s₂.index rs := by
          rw [Room,hu,and_iff_right hro,map_append,hi,length_stream,room_append_iff]
        rw [← hc₁,hc₂,stream_append,append_assoc,prefix_append_right_inj] at hdata
        rw [hpo] at ha
        rw [hroom_iff]
        rcases ih ha hw₂ hrest hdata fun c hc => (by omega : _ ≤ _).trans_lt (hf c hc) with
          ⟨hr₂,done',rest',ms',s',pending',rfl,hrc,hv',hs',hc',hw',ha'⟩ | ⟨⟨e,hrc⟩,hb⟩
        · refine .inl ⟨hr₂,done ++ done',rest',ms ++ ms',s',pending',(append_assoc _ _ _).symm,?_,?_,?_,?_,hw',?_⟩
          · exact bind_eq_ok.2 ⟨s₁,hre,bind_eq_ok.2 ⟨_,hd,bind_eq_ok.2 ⟨_,hrc,rfl⟩⟩⟩
          · rw [map_append,map_append,hv,hv']
          · exact forall_mem_append.2 ⟨hs,hs'⟩
          · rw [← hc₁,hc₂,append_assoc,hc',stream_append,append_assoc]
          · rw [stream_append,length_append,← Nat.add_assoc]
            exact ha'
        · refine .inr ⟨⟨e,?_⟩,fun hg => hb ⟨fun p hp => hg.1 p (mem_append_right _ hp),hg.2⟩⟩
          rw [receive,hre]
          simp only [bind,Except.bind,hd,hrc]
      · refine .inr ⟨⟨e,?_⟩,fun hg => hun (hg.1 p hp)⟩
        rw [receive,hre]
        simp only [bind,Except.bind,hd]
    · refine .inr ⟨⟨.maximumSize,?_⟩,fun hg => ?_⟩
      · rw [receive,hre]
        rfl
      · have hle := hg.2.1
        rw [hu] at hle
        omega

theorem at_start (hrs : ∀ r ∈ rs, r.data ≠ [])
    (hcarried : List.Forall₂ Carries (carriers 0 rs) (owed 0 ps)) : start.At 0 ps [] (carriers 0 rs) :=
  ⟨ nil_prefix,rfl,nofun,fun _ hc => lt_of_mem_carriers hrs hc,hcarried⟩

theorem start_waits (ps : List Parcel) : start.Waits ps := by
  intro p _
  unfold Parcel.length
  rw [length_encode]
  change 0 < _
  omega

section
variable {ps : List Parcel} {rs : List Reception} (hrs : ∀ r ∈ rs, r.data ≠ []) (hdata : rs.flatMap data = stream ps)
  (hcarried : List.Forall₂ Carries (carriers 0 rs) (owed 0 ps))
include hrs hdata hcarried

theorem receive_start {past more : List Reception} (hp : past ++ more = rs) :
    (Room (ps.map Parcel.length) 0 past ∧
      ∃ done rest ms s pending, ps = done ++ rest ∧ start.receive past = .ok (ms,s) ∧
        ms.map Message.view = done.map Parcel.view ∧
        (∀ p ∈ done, p.Sound) ∧ past.flatMap data = stream done ++ s.contents ∧ s.Waits rest ∧
        s.At (stream done).length rest pending (carriers (past.flatMap data).length more)) ∨
      (∃ e, start.receive past = .error e) ∧ ¬ ((∀ p ∈ ps, p.Sound) ∧ Room (ps.map Parcel.length) 0 past) := by
  have hat := at_start hrs hcarried
  rw [← hp,carriers_append,Nat.zero_add] at hat
  rw [← hp] at hrs hdata
  obtain ⟨hrs,hm⟩ := forall_mem_append.1 hrs
  have hs : past.flatMap data <+: stream ps := by
    rw [← hdata,flatMap_append]
    exact prefix_append _ _
  have hr := At.receive hat (start_waits ps) hrs hs fun c hc => by
    have hlt := lt_of_mem_carriers hm hc
    change 0 + 0 + _ < _
    omega
  simp only [Nat.zero_add] at hr
  exact hr

theorem sound_of_receive {ms : List Message} {s : SocketBuffer} (h : start.receive rs = .ok (ms,s)) :
    (∀ p ∈ ps, p.Sound) ∧ Room (ps.map Parcel.length) 0 rs := by
  rcases receive_start hrs hdata hcarried (append_nil rs) with
    ⟨hr,done,rest,_,s',_,hps,_,_,hs,hcontents,hw,_⟩ | ⟨⟨e,he⟩,_⟩
  · have hrest : s'.contents = stream rest := by
      rw [hdata,hps,stream_append] at hcontents
      exact (append_cancel_left hcontents).symm
    have hn : rest = [] := by
      cases rest with
      | nil => rfl
      | cons p rest =>
        have hlt := hw p rfl
        have hl := congrArg length hrest
        rw [length_contents,stream_cons,length_append] at hl
        unfold Parcel.length at hlt
        omega
    rw [hn,append_nil] at hps
    exact ⟨by rw [hps]; exact hs,hr⟩
  · rw [he] at h
    cases h

end

end SocketBuffer

/-- The buffer returns the messages of `ws` as their bytes arrive, and keeps the rest. -/
def Reassembled (ws : List Wire) (rs : List Reception) : Prop :=
  (∀ w ∈ ws, ∀ part, part <+: w.encode → part.length < w.encode.length → Message.parse part = .error .incomplete) ∧
    ∀ past, past <+: rs → ∃ done rest ms s, ws = done ++ rest ∧ SocketBuffer.start.receive past = .ok (ms,s) ∧
      ms.map Message.blob = done.map Wire.encode ∧
        past.flatMap Reception.data = done.flatMap Wire.encode ++ s.contents ∧
      s.index + (done.flatMap Wire.encode).length = (past.flatMap Reception.data).length ∧
      s.contents <+: rest.flatMap Wire.encode ∧ ∀ w ∈ rest.head?, s.index < w.encode.length

def Parcel.bare (w : Wire) : Parcel := ⟨w,[]⟩
theorem stream_bare (ws : List Wire) : stream (ws.map Parcel.bare) = ws.flatMap encode := flatMap_map _ _ _

theorem owed_bare (n : ℕ) (ws : List Wire) : owed n (ws.map Parcel.bare) = [] := by
  induction ws generalizing n with
  | nil => rfl
  | cons w ws ih => exact (if_pos rfl).trans (ih _)

theorem carriers_bare (hrs : ∀ r ∈ rs, r.rights = []) (n : ℕ) : carriers n rs = [] := by
  induction rs generalizing n with
  | nil => rfl
  | cons r rs ih =>
    obtain ⟨hr,hrest⟩ := forall_mem_cons.1 hrs
    rw [carriers, hr, if_neg (by decide), ih hrest]

theorem sound_bare_iff (w : Wire) : (Parcel.bare w).Sound ↔ w.Known ∧ w.handles = 0 :=
  ⟨fun h => ⟨h.known,h.announced.symm⟩,fun h => ⟨h.1,h.2.symm⟩⟩

/-- Every cutting of the bytes gives the messages back exactly if their types and fields are
known, their signatures have no `h`, and there is room for each reception after the bytes that
wait. -/
theorem reassembled_iff {ws : List Wire} {rs : List Reception}
    (hdata : rs.flatMap Reception.data = ws.flatMap Wire.encode)
    (hrs : ∀ r ∈ rs, r.data ≠ []) (hrights : ∀ r ∈ rs, r.rights = []) :
    Reassembled ws rs ↔ (∀ w ∈ ws, w.Known ∧ w.handles = 0) ∧ Room (ws.map fun w => w.encode.length) 0 rs := by
  have hl : (ws.map Parcel.bare).map Parcel.length = ws.map fun w => w.encode.length := map_map
  have hcarried : List.Forall₂ Carries (carriers 0 rs) (owed 0 (ws.map Parcel.bare)) := by
    rw [carriers_bare hrights,owed_bare]
    exact List.Forall₂.nil
  have hs : (∀ p ∈ ws.map Parcel.bare, p.Sound) ↔ ∀ w ∈ ws, w.Known ∧ w.handles = 0 := by
    simp only [forall_mem_map,sound_bare_iff]
  rw [← stream_bare] at hdata
  rw [← hs,← hl]
  constructor
  · intro h
    obtain ⟨_,_,ms,s,_,hr,_⟩ := h.2 rs prefix_rfl
    exact sound_of_receive hrs hdata hcarried hr
  · rintro ⟨ha,hro⟩
    refine ⟨fun w hw part hp hlt => ?_,fun past hpa => ?_⟩
    · obtain ⟨t,ht⟩ := (hs.1 ha w hw).1.messageType
      exact parse_part ht hp hlt
    · obtain ⟨more,hm⟩ := hpa
      rcases receive_start hrs hdata hcarried hm with
        ⟨_,done,rest,ms,s,_,hps,hr,hv,_,hcontents,hwa,hat⟩ | ⟨_,hba⟩
      · obtain ⟨done,rest,rfl,rfl,rfl⟩ := map_eq_append_iff.1 hps
        rw [stream_bare] at hcontents
        refine ⟨done,rest,ms,s,rfl,hr,?_,hcontents,?_,?_,?_⟩
        · have hb := congrArg (map Prod.fst) hv
          rw [map_map,map_map,map_map] at hb
          exact hb
        · rw [hcontents,length_append,s.length_contents,Nat.add_comm]
        · rw [← stream_bare]
          exact hat.contents
        · intro w hw
          refine hwa (Parcel.bare w) ?_
          rw [head?_map]
          exact Option.mem_map_of_mem _ hw
      · exact absurd ⟨ha,hro.of_isPart ⟨more,hm⟩⟩ hba

theorem slash_short : (Utf8.encode "/").length < 2 ^ 32 := by decide
theorem m_short : (Utf8.encode "m").length < 2 ^ 32 := by decide
def callFields (signature : Str) (short : (Utf8.encode signature).length < 2 ^ 8) : List WireField :=
  [.string .path "/" HeaderType.IsText.path.kind slash_short,
    .string .member "m" HeaderType.IsText.member.kind m_short,.signature signature short]
def numbersCall : Wire := ⟨.little,1,0,1,1,callFields "au" (by decide),[0,0,0,0],by decide⟩
def handlesCall : Wire := ⟨.little,1,0,1,1,callFields "ah" (by decide),[0,0,0,0],by decide⟩

/-- Two messages, cut in the middle of the first one. -/
theorem reassembled_numbersCall :
    Reassembled [numbersCall,numbersCall] [⟨numbersCall.encode.take 20,[],by decide⟩,
      ⟨numbersCall.encode.drop 20 ++ numbersCall.encode,[],by decide⟩] := by
  have hk : numbersCall.Known ∧ numbersCall.handles = 0 := ⟨⟨⟨.methodCall,rfl⟩,by decide⟩,by decide⟩
  refine (reassembled_iff (by decide) (by decide) (by decide)).2 ⟨?_,by decide,by decide,trivial⟩
  simp only [forall_mem_cons]
  exact ⟨hk,hk,nofun⟩

/-- A message with an empty array of descriptors, which came without descriptors, raises an exception. -/
theorem handlesCall_not_reassembled : ¬ Reassembled [handlesCall] [⟨handlesCall.encode,[],by decide⟩] := by
  intro h
  obtain ⟨_,_,ms,s,_,hr,_⟩ := h.2 _ prefix_rfl
  have he : (start.receive [⟨handlesCall.encode,[],by decide⟩]).toOption.isNone = true := by decide +kernel
  rw [hr] at he
  cases he

def Reception.descriptors (r : Reception) : List ℤ := r.rights.flatMap Rights.descriptors

/-- The buffer returns each message of `ps` with its descriptors, and keeps the other ones. -/
def Attributed (ps : List Parcel) (rs : List Reception) : Prop :=
  ∀ past, past <+: rs → ∃ done rest ms s, ps = done ++ rest ∧ SocketBuffer.start.receive past = .ok (ms,s) ∧
    ms.map (fun m => (m.blob,m.passedFd)) = done.map (fun p => (p.wire.encode,p.fds)) ∧
    past.flatMap Reception.data = stream done ++ s.contents ∧ s.Waits rest ∧
    past.flatMap Reception.descriptors = done.flatMap Parcel.fds ++ s.passedFds.flatMap Prod.snd

theorem flatMap_owed (n : ℕ) (ps : List Parcel) : (owed n ps).flatMap Prod.snd = ps.flatMap Parcel.fds := by
  induction ps generalizing n with
  | nil => rfl
  | cons p ps ih =>
    unfold owed
    split
    · rename_i hf
      rw [ih,flatMap_cons,hf,nil_append]
    · rw [flatMap_cons,flatMap_cons,ih]

theorem mem_owed (h : o ∈ owed n ps) : ∃ p ∈ ps, p.fds = o.2 := by
  induction ps generalizing n with
  | nil => cases h
  | cons p ps ih =>
    have hl : o ∈ owed (n + p.length) ps → ∃ q ∈ p :: ps, q.fds = o.2 := by
      intro h
      obtain ⟨q,hq,hf⟩ := ih h
      exact ⟨q,mem_cons_of_mem _ hq,hf⟩
    unfold owed at h
    split at h
    · exact hl h
    · rcases mem_cons.1 h with rfl | h
      · exact ⟨p,mem_cons_self,rfl⟩
      · exact hl h

def descriptorsOf (cs : List (ℕ × List Rights)) : List ℤ := cs.flatMap fun c => c.2.flatMap Rights.descriptors

theorem descriptorsOf_carriers (n : ℕ) (rs : List Reception) :
    descriptorsOf (carriers n rs) = rs.flatMap descriptors := by
  induction rs generalizing n with
  | nil => rfl
  | cons r rs ih =>
    unfold carriers
    split
    · rw [descriptorsOf,flatMap_cons,flatMap_cons,← ih]
      rfl
    · rename_i hr
      have hn : r.rights = [] := length_eq_zero_iff.1 (Nat.eq_zero_of_not_pos hr)
      rw [ih,flatMap_cons,descriptors,hn]
      rfl

theorem descriptorsOf_carried {cs : List (ℕ × List Rights)} {os : List ((ℕ × ℕ) × List ℤ)}
    (h : List.Forall₂ Carries cs os) : descriptorsOf cs = os.flatMap Prod.snd := by
  induction h with
  | nil => rfl
  | cons hc _ ih =>
    obtain ⟨r,hr,hd⟩ := map_eq_singleton_iff.1 hc.2.2
    unfold descriptorsOf at ih ⊢
    rw [flatMap_cons,flatMap_cons,ih,hr,flatMap_singleton,hd]

theorem first_of_carried {cs : List (ℕ × List Rights)} {os : List ((ℕ × ℕ) × List ℤ)} (h : List.Forall₂ Carries cs os)
    (hos : ∀ o ∈ os, o.2.length ≤ 1) : ∀ c ∈ cs, c.2.map Rights.first = c.2.flatMap Rights.descriptors := by
  induction h with
  | nil => exact nofun
  | @cons c o cs os hc _ ih =>
    obtain ⟨ho,hrest⟩ := forall_mem_cons.1 hos
    refine forall_mem_cons.2 ⟨?_,ih hrest⟩
    obtain ⟨r,hr,hd⟩ := map_eq_singleton_iff.1 hc.2.2
    rw [hc.first,take_of_length_le ho,hr,flatMap_singleton,hd]

theorem SocketBuffer.Ranges.held {s : SocketBuffer} {base : ℕ} {pending : List (ℕ × List Rights)}
    (h : s.Ranges base pending) (ho : ∀ c ∈ pending, c.2.map Rights.first = c.2.flatMap Rights.descriptors) :
    s.passedFds.flatMap Prod.snd = descriptorsOf pending := by
  have hs := congrArg (flatMap Prod.snd) h
  rw [flatMap_map,flatMap_map] at hs
  exact hs.trans (flatMap_congr ho)

theorem descriptors_of_at {done rest : List Parcel} {past more : List Reception} {s : SocketBuffer}
    {pending : List (ℕ × List Rights)}
    (hps : ps = done ++ rest) (hcarried : List.Forall₂ Carries (carriers 0 (past ++ more)) (owed 0 ps))
    (hat : s.At (stream done).length rest pending (carriers (past.flatMap data).length more))
      (hon : ∀ p ∈ rest, p.fds.length ≤ 1) :
    past.flatMap descriptors = done.flatMap Parcel.fds ++ s.passedFds.flatMap Prod.snd := by
  have hfirst := first_of_carried hat.carried (fun o ho => by
    obtain ⟨p,hp,hf⟩ := mem_owed ho
    rw [← hf]
    exact hon p hp)
  have ha := descriptorsOf_carried hcarried
  have hrest := descriptorsOf_carried hat.carried
  rw [descriptorsOf_carriers,flatMap_owed,flatMap_append,hps,flatMap_append] at ha
  rw [descriptorsOf,flatMap_append,flatMap_owed] at hrest
  change descriptorsOf pending ++ descriptorsOf _ = _ at hrest
  rw [descriptorsOf_carriers] at hrest
  rw [hat.ranges.held fun c hc => hfirst c (mem_append_left _ hc)]
  rw [← hrest,← append_assoc] at ha
  exact append_cancel_right ha

/-- Every message gets its descriptors exactly if the messages are known, none has two
descriptors, and there is room for each reception. -/
theorem attributed_iff {ps : List Parcel} {rs : List Reception} (hannounced : ∀ p ∈ ps, p.wire.handles = p.fds.length)
    (hdata : rs.flatMap Reception.data = stream ps) (hrs : ∀ r ∈ rs, r.data ≠ [])
    (hcarried : List.Forall₂ Carries (carriers 0 rs) (owed 0 ps)) :
    Attributed ps rs ↔ (∀ p ∈ ps, p.wire.Known ∧ p.fds.length ≤ 1) ∧ Room (ps.map Parcel.length) 0 rs := by
  have hs : (∀ p ∈ ps, p.Sound) ↔ ∀ p ∈ ps, p.wire.Known ∧ p.fds.length ≤ 1 := by
    refine forall₂_congr fun p hp => ⟨fun h => ⟨h.known,?_⟩,fun h => ⟨h.1,?_⟩⟩
    · have hk := h.announced
      rw [hannounced p hp,Parcel.kept,length_take] at hk
      omega
    · rw [hannounced p hp,Parcel.kept,take_of_length_le h.2]
  rw [← hs]
  constructor
  · intro h
    obtain ⟨_,_,ms,s,_,hr,_⟩ := h rs prefix_rfl
    exact sound_of_receive hrs hdata hcarried hr
  · rintro ⟨ha,hro⟩ past ⟨more,hm⟩
    rcases receive_start hrs hdata hcarried hm with
      ⟨_,done,rest,ms,s,_,hps,hr,hv,_,hcontents,hw,hat⟩ | ⟨_,hb⟩
    · have ho := hs.1 ha
      rw [hps,forall_mem_append] at ho
      refine ⟨done,rest,ms,s,hps,hr,?_,hcontents,hw,?_⟩
      · have hk : done.map Parcel.view = done.map fun p => (p.wire.encode,p.fds) := by
          refine map_congr_left fun p hp => ?_
          rw [Parcel.view,Parcel.kept,take_of_length_le (ho.1 p hp).2]
        exact hv.trans hk
      · rw [← hm] at hcarried
        exact descriptors_of_at hps hcarried hat fun p hp => (ho.2 p hp).2
    · exact absurd ⟨ha,hro.of_isPart ⟨more,hm⟩⟩ hb

def oneCall : Wire := ⟨.little,1,0,1,1,callFields "h" (by decide),[0,0,0,0],by decide⟩
def twoCall : Wire := ⟨.little,1,0,1,1,callFields "hh" (by decide),[0,0,0,0,1,0,0,0],by decide⟩

/-- Two messages with a descriptor each; the second descriptor comes with the end of the first message. -/
theorem attributed_oneCall : Attributed [⟨oneCall,[7]⟩,⟨oneCall,[8]⟩]
    [⟨oneCall.encode.take 20,[⟨7,[]⟩],by decide⟩,⟨oneCall.encode.drop 20 ++ oneCall.encode.take 9,[⟨8,[]⟩],by decide⟩,
      ⟨oneCall.encode.drop 9,[],by decide⟩] := by
  have hk : oneCall.Known := ⟨⟨.methodCall,rfl⟩,by decide⟩
  refine (attributed_iff ?_ (by decide) (by decide) ?_).2 ⟨?_,by decide,by decide,by decide,trivial⟩
  · simp only [forall_mem_cons]
    exact ⟨by decide,by decide,nofun⟩
  · exact .cons ⟨by decide,by decide,rfl⟩ (.cons ⟨by decide,by decide,rfl⟩ .nil)
  · simp only [forall_mem_cons]
    exact ⟨⟨hk,by decide⟩,⟨hk,by decide⟩,nofun⟩

/-- A message that came with its two descriptors raises an exception. -/
theorem twoCall_not_attributed :
    List.Forall₂ Carries (carriers 0 [⟨twoCall.encode,[⟨7,[8]⟩],by decide⟩]) (owed 0 [⟨twoCall,[7,8]⟩]) ∧
    ¬ Attributed [⟨twoCall,[7,8]⟩] [⟨twoCall.encode,[⟨7,[8]⟩],by decide⟩] := by
  refine ⟨.cons ⟨by decide,by decide,rfl⟩ .nil,fun h => ?_⟩
  obtain ⟨_,_,ms,s,_,hr,_⟩ := h _ prefix_rfl
  have he : (start.receive [⟨twoCall.encode,[⟨7,[8]⟩],by decide⟩]).toOption.isNone = true := by decide +kernel
  rw [hr] at he
  cases he

end Padsi.Dbus
