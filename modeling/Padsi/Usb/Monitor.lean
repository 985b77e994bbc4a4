import Padsi.Lib.Store

/-! # USB monitor

The open files are kept by process and descriptor, and the descriptors of each process
in an array, which is read when the process exits.
-/
namespace Padsi.Usb
open Python List Function Dict Prod

abbrev Bytes := List UInt8
abbrev Pid := UInt32
def bufPathLen : ℕ := 32
def procOpenedFdLen : ℕ := 16
def usbPath : Bytes := [47,100,101,118,47,98,117,115,47,117,115,98,47]
def readName (name : Bytes) : Bytes := name.take 31 ++ replicate (bufPathLen - (name.take 31).length) 0

inductive EventType where
  | opened
  | closed
deriving DecidableEq

structure Event where
  uid : UInt32
  pid : Pid
  evType : EventType
  file : Bytes
  comm : Bytes
  fd : ℕ
deriving DecidableEq

/-- The loop of an opening: the first free slot gets the descriptor, and the slots after it are left at zero. -/
def fillFirst (fd : ℕ) : List ℕ → Option (List ℕ)
  | [] => none
  | d :: ds => if d = 0 then some (fd :: replicate ds.length 0) else (fillFirst fd ds).map (cons d)

def clearFirst (fd : ℕ) : List ℕ → Option (List ℕ)
  | [] => none
  | d :: ds => if d = fd then some (0 :: replicate ds.length 0) else (clearFirst fd ds).map (cons d)

theorem length_fillFirst {fd : ℕ} {ds es : List ℕ} (h : fillFirst fd ds = some es) : es.length = ds.length := by
  induction ds generalizing es with
  | nil => cases h
  | cons d ds ih =>
    unfold fillFirst at h
    split at h
    · cases h
      simp
    · obtain ⟨fs,hfs,rfl⟩ := Option.map_eq_some_iff.1 h
      rw [length_cons,length_cons,ih hfs]

theorem length_clearFirst {fd : ℕ} {ds es : List ℕ} (h : clearFirst fd ds = some es) : es.length = ds.length := by
  induction ds generalizing es with
  | nil => cases h
  | cons d ds ih =>
    unfold clearFirst at h
    split at h
    · cases h
      simp
    · obtain ⟨fs,hfs,rfl⟩ := Option.map_eq_some_iff.1 h
      rw [length_cons,length_cons,ih hfs]

structure Slots where
  fds : List ℕ
  size : fds.length = procOpenedFdLen

namespace Slots

def single (fd : ℕ) : Slots := ⟨fd :: replicate 15 0,rfl⟩
def add (s : Slots) (fd : ℕ) : Option Slots :=
  (fillFirst fd s.fds).pmap (fun es h => ⟨es,h⟩) fun _ h => (length_fillFirst h).trans s.size
def remove (s : Slots) (fd : ℕ) : Option Slots :=
  (clearFirst fd s.fds).pmap (fun es h => ⟨es,h⟩) fun _ h => (length_clearFirst h).trans s.size

end Slots

/-- `room` is how many events the ring buffer can take, and `reads` whether the file name can be read. -/
structure Task where
  tgid : Pid
  uid : UInt32
  comm : Bytes
  room : ℕ
  reads : Bool

def Task.event (t : Task) (evType : EventType) (file : Bytes) (fd : ℕ) : Event := ⟨t.uid,t.tgid,evType,file,t.comm,fd⟩

structure Monitor where
  tmp : Dict Pid Bytes
  proc : Dict Pid Slots
  active : Dict (Pid × ℕ) Bytes

/-- An entry fits in a map: its key is there, or there are less than 16 entries. -/
def Fits {κ β : Type} [DecidableEq κ] (d : Dict κ β) (k : κ) : Prop := d.get k ≠ none ∨ d.entries.length < 16

instance {κ β : Type} [DecidableEq κ] (d : Dict κ β) (k : κ) : Decidable (Fits d k) :=
  match h : d.get k with
  | none => if hlt : d.entries.length < 16 then isTrue (.inr hlt)
    else isFalse fun hfits => hfits.elim (fun hne => hne h) hlt
  | some _ => isTrue (.inl (by rw [h]; exact Option.some_ne_none _))

def put {κ β : Type} [DecidableEq κ] (d : Dict κ β) (k : κ) (v : β) : Dict κ β := if Fits d k then d.set k v else d

namespace Monitor

def start : Monitor := ⟨.empty,.empty,.empty⟩
def mayStageToTmp (s : Monitor) (tgid : Pid) (filename : Bytes) : Monitor :=
  if usbPath <+: filename then { s with tmp := put s.tmp tgid filename } else s

section
variable (s : Monitor) (t : Task)

def handleEnterOpen (name : Bytes) : Monitor := if t.reads then s.mayStageToTmp t.tgid (readName name) else s

def noteFd (proc : Dict Pid Slots) (tgid : Pid) (fd : ℕ) : Dict Pid Slots :=
  match proc.get tgid with
  | some data =>
    match data.add fd with
    | some ndata => put proc tgid ndata
    | none => proc
  | none => put proc tgid (.single fd)

def track (tgid : Pid) (fd : ℕ) (file : Bytes) : Monitor :=
  if Fits s.active (tgid,fd) then { s with active := s.active.set (tgid,fd) file, proc := noteFd s.proc tgid fd } else s

def handleExitOpen (ret : ℤ) : Monitor × List Event :=
  match s.tmp.get t.tgid with
  | none => (s,[])
  | some f =>
    if ret ≥ 0 then ({ s.track t.tgid ret.toNat f with tmp := s.tmp.erase t.tgid },
      [t.event .opened f ret.toNat].take t.room)
    else ({ s with tmp := s.tmp.erase t.tgid },[])

def forgetFd (proc : Dict Pid Slots) (tgid : Pid) (fd : ℕ) : Dict Pid Slots :=
  match proc.get tgid with
  | some data =>
    match data.remove fd with
    | some ndata => put proc tgid ndata
    | none => proc
  | none => proc

def handleEnterClose (fd : ℕ) : Monitor × List Event :=
  match s.active.get (t.tgid,fd) with
  | none => (s,[])
  | some f => ({ s with active := s.active.erase (t.tgid,fd), proc := forgetFd s.proc t.tgid fd },
    [t.event .closed f fd].take t.room)

def closeAll (t : Task) : List ℕ → Dict (Pid × ℕ) Bytes → Dict (Pid × ℕ) Bytes × List Event
  | [], active => (active,[])
  | fd :: fds, active =>
    if fd ≠ 0 then
      match active.get (t.tgid,fd) with
      | some f =>
        let rest := closeAll t fds (active.erase (t.tgid,fd))
        (rest.1,t.event .closed f fd :: rest.2)
      | none => closeAll t fds active
    else closeAll t fds active

def handleProcessExit : Monitor × List Event :=
  match s.proc.get t.tgid with
  | none => (s,[])
  | some data =>
    let closed := closeAll t data.fds s.active
    ({ s with active := closed.1, proc := s.proc.erase t.tgid },closed.2.take t.room)

end

end Monitor

/-- What a process does; `lose` closes a descriptor in another way than `close`, for which there
is no program. -/
inductive Step where
  | enterOpen (t : Task) (name : Bytes)
  | exitOpen (t : Task) (ret : ℤ)
  | enterClose (t : Task) (fd : ℕ)
  | lose (t : Task) (fd : ℕ)
  | processExit (t : Task)

def Monitor.step (s : Monitor) : Step → Monitor × List Event
  | .enterOpen t name => (s.handleEnterOpen t name,[])
  | .exitOpen t ret => s.handleExitOpen t ret
  | .enterClose t fd => s.handleEnterClose t fd
  | .lose _ _ => (s,[])
  | .processExit t => s.handleProcessExit t

structure World where
  calling : Pid → Option Bytes
  held : Pid → Dict ℕ Bytes

namespace World

def start : World := ⟨fun _ => none,fun _ => .empty⟩
def fds (w : World) (p : Pid) : List ℕ := (w.held p).entries.map Prod.fst
def release (w : World) (p : Pid) (fd : ℕ) : World := { w with held := update w.held p ((w.held p).erase fd) }

def next (w : World) : Step → World
  | .enterOpen t name => { w with calling := update w.calling t.tgid (some name) }
  | .exitOpen t ret =>
    match w.calling t.tgid with
    | none => w
    | some name => ⟨update w.calling t.tgid none,
        if usbPath <+: name ∧ 0 ≤ ret then update w.held t.tgid ((w.held t.tgid).set ret.toNat (readName name))
          else w.held⟩
  | .enterClose t fd => w.release t.tgid fd
  | .lose t fd => w.release t.tgid fd
  | .processExit t => { w with held := update w.held t.tgid .empty }

def expected (w : World) : Step → List Event
  | .enterOpen _ _ => []
  | .exitOpen t ret =>
    match w.calling t.tgid with
    | none => []
    | some name => if usbPath <+: name ∧ 0 ≤ ret then [t.event .opened (readName name) ret.toNat] else []
  | .enterClose t fd | .lose t fd => (((w.held t.tgid).get fd).map fun file => t.event .closed file fd).toList
  | .processExit t => (w.held t.tgid).entries.map fun f => t.event .closed f.2 f.1

/-- What single-threaded processes can do, if descriptors start from one and each has at most 16
device files open. -/
def Allows (w : World) : Step → Prop
  | .enterOpen t _ => w.calling t.tgid = none
  | .exitOpen t ret => ∃ name, w.calling t.tgid = some name ∧
      (0 ≤ ret → 0 < ret ∧ ret.toNat ∉ w.fds t.tgid ∧ (usbPath <+: name → (w.fds t.tgid).length < 16))
  | .enterClose t _ | .lose t _ | .processExit t => w.calling t.tgid = none

end World

/-- The names of device files can be read, and no map overflows: entries fit, and the ring buffer
takes the events. -/
def Roomy (s : Monitor) (w : World) : Step → Prop
  | .enterOpen t name => usbPath <+: name → t.reads ∧ Fits s.tmp t.tgid
  | .exitOpen t ret =>
    w.expected (.exitOpen t ret) ≠ [] → Fits s.active (t.tgid,ret.toNat) ∧ Fits s.proc t.tgid ∧ 1 ≤ t.room
  | .enterClose t fd => (w.expected (.enterClose t fd)).length ≤ t.room
  | .lose _ _ => True
  | .processExit t => (w.expected (.processExit t)).length ≤ t.room

def Possible : Monitor → World → List Step → Prop
  | _, _, [] => True
  | s, w, e :: es => w.Allows e ∧ Roomy s w e ∧ Possible (s.step e).1 (w.next e) es

/-- The descriptors in the array of a process are the ones of its entries in `ACTIVE`. -/
def Coherent (s : Monitor) : Prop := ∀ p fd, (fd ≠ 0 ∧ ∃ data, s.proc.get p = some data ∧ fd ∈ data.fds) ↔
    s.active.get (p,fd) ≠ none

/-- After each step the maps are coherent, and the events that were sent tell what happened. -/
def Followed : Monitor → World → List Step → Prop
  | _, _, [] => True
  | s, w, e :: es => Coherent (s.step e).1 ∧ (s.step e).2.Perm (w.expected e) ∧ Followed (s.step e).1 (w.next e) es

/-- Only the device file that was opened last is closed, and only by `close`. -/
def World.ClosesLast (w : World) : Step → Prop
  | .enterClose t fd => fd ∈ w.fds t.tgid → (w.fds t.tgid).getLast? = some fd
  | .lose t fd => fd ∉ w.fds t.tgid
  | _ => True

def Lifo : World → List Step → Prop
  | _, [] => True
  | w, e :: es => w.ClosesLast e ∧ Lifo (w.next e) es

theorem usbPath_readName (name : Bytes) : usbPath <+: readName name ↔ usbPath <+: name := by
  constructor
  · intro h
    have ht : usbPath = (readName name).take 13 := prefix_iff_eq_take.1 h
    by_cases hl : 13 ≤ (name.take 31).length
    · rw [readName,take_append_of_le_length hl,take_take] at ht
      rw [ht]
      exact take_prefix _ _
    · -- A shorter name is followed by zeros, and there are none in the path.
      have hla : usbPath[12]? = some 0 := by
        rw [ht, getElem?_take_of_lt (by decide), readName, getElem?_append_right (by omega), getElem?_replicate_of_lt]
        rw [bufPathLen]
        omega
      exact absurd hla (by decide)
  · intro h
    have hle : usbPath.length ≤ (name.take 31).length := by
      have hln := h.length_le
      rw [length_take]
      exact Nat.le_min.2 ⟨by decide,hln⟩
    exact (prefix_of_prefix_length_le h ( take_prefix 31 name) hle).trans (prefix_append _ _)

theorem fillFirst_stack {fds : List ℕ} (hfds : ∀ d ∈ fds, d ≠ 0) (fd n : ℕ) :
    fillFirst fd (fds ++ replicate (n + 1) 0) = some (fds ++ fd :: replicate n 0) := by
  induction fds with
  | nil => simp [fillFirst,replicate_succ]
  | cons d fds ih =>
    obtain ⟨hd,hrest⟩ := forall_mem_cons.1 hfds
    rw [cons_append,fillFirst,if_neg hd,ih hrest]
    rfl

theorem clearFirst_append {before : List ℕ} {fd : ℕ} (hb : fd ∉ before) (after : List ℕ) :
    clearFirst fd (before ++ fd :: after) = some (before ++ 0 :: replicate after.length 0) := by
  induction before with
  | nil => simp [clearFirst]
  | cons d before ih =>
    obtain ⟨hd,hrest⟩ := ne_and_not_mem_of_not_mem_cons hb
    rw [cons_append,clearFirst,if_neg (Ne.symm hd),ih hrest]
    rfl

theorem add_of_fillFirst {s : Slots} {fd : ℕ} {es : List ℕ} (h : fillFirst fd s.fds = some es) :
    ∃ t, s.add fd = some t ∧ t.fds = es := by
  refine ⟨⟨es,(length_fillFirst h).trans s.size⟩,?_,rfl⟩
  unfold Slots.add
  exact Option.pmap_eq_some_iff.2 ⟨es,_,h,rfl⟩

theorem remove_of_clearFirst {s : Slots} {fd : ℕ} {es : List ℕ} (h : clearFirst fd s.fds = some es) :
    ∃ t, s.remove fd = some t ∧ t.fds = es := by
  refine ⟨⟨es,(length_clearFirst h).trans s.size⟩,?_,rfl⟩
  unfold Slots.remove
  exact Option.pmap_eq_some_iff.2 ⟨es,_,h,rfl⟩

structure Stacked (s : Monitor) (w : World) : Prop where
  tmp : ∀ p, s.tmp.get p = (w.calling p).bind fun name => if usbPath <+: name then some (readName name) else none
  proc : ∀ p data, s.proc.get p = some data → data.fds = w.fds p ++ replicate (16 - (w.fds p).length) 0
  noProc : ∀ p, s.proc.get p = none → w.fds p = []
  active : ∀ p fd, s.active.get (p,fd) = (w.held p).get fd
  positive : ∀ p, ∀ fd ∈ w.fds p, fd ≠ 0

variable {w : World} {s : Monitor}

theorem mem_fds_iff {p : Pid} {fd : ℕ} : fd ∈ w.fds p ↔ (w.held p).get fd ≠ none := by
  constructor
  · intro h
    obtain ⟨f,hf,rfl⟩ := mem_map.1 h
    have hg := mem_entries_iff.1 (show (f.1,f.2) ∈ (w.held p).entries from hf)
    rw [hg]
    exact Option.some_ne_none _
  · intro h
    obtain ⟨file,hg⟩ := Option.ne_none_iff_exists'.1 h
    exact mem_map.2 ⟨(fd,file),mem_entries_iff.2 hg,rfl⟩

theorem notMem_fds_iff {p : Pid} {fd : ℕ} : fd ∉ w.fds p ↔ (w.held p).get fd = none :=
  (not_congr mem_fds_iff).trans not_not

theorem Stacked.coherent (h : Stacked s w) : Coherent s := by
  intro p fd
  rw [h.active,← mem_fds_iff]
  constructor
  · rintro ⟨hfd,data,hd,hmem⟩
    rw [h.proc p data hd] at hmem
    rcases mem_append.1 hmem with hmem | hz
    · exact hmem
    · exact absurd (eq_of_mem_replicate hz) hfd
  · intro hmem
    refine ⟨h.positive p fd hmem,?_⟩
    cases hd : s.proc.get p with
    | none =>
      rw [h.noProc p hd] at hmem
      cases hmem
    | some data =>
      refine ⟨data,rfl,?_⟩
      rw [h.proc p data hd]
      exact mem_append_left _ hmem

theorem stacked_start : Stacked .start .start := ⟨fun _ => rfl,nofun,fun _ _ => rfl,fun _ _ => rfl,nofun⟩

theorem Stacked.update (h : Stacked s w) {tmp : Dict Pid Bytes} {calling : Pid → Option Bytes}
    (ht : ∀ p, tmp.get p = (calling p).bind fun name => if usbPath <+: name then some (readName name) else none)
      {p : Pid}
    {held : Dict ℕ Bytes} (hp : ∀ fd ∈ held.entries.map fst, fd ≠ 0) {active : Dict (Pid × ℕ) Bytes}
    (ha : ∀ q fd, active.get (q,fd) = if q = p then held.get fd else s.active.get (q,fd)) {proc : Dict Pid Slots}
    {slots : Option Slots} (hq : ∀ q, proc.get q = if q = p then slots else s.proc.get q)
    (hso : ∀ data, slots = some data →
      data.fds = held.entries.map fst ++ replicate (16 - (held.entries.map fst).length) 0)
    (hnone : slots = none → held.entries.map fst = []) : Stacked ⟨tmp,proc,active⟩ ⟨calling,update w.held p held⟩ := by
  have hd : ∀ q, World.fds ⟨calling,Function.update w.held p held⟩ q = if q =
      p then held.entries.map fst else w.fds q := by
    intro q
    change (Function.update w.held p held q).entries.map fst = _
    rw [update_apply,apply_ite (fun d : Dict ℕ Bytes => d.entries.map fst)]
    rfl
  refine ⟨ht,fun q => ?_,fun q => ?_,fun q fd => ?_,fun q => ?_⟩
  · rw [hd,hq]
    split_ifs with hqp
    · exact hso
    · exact h.proc q
  · rw [hd,hq]
    split_ifs with hqp
    · exact hnone
    · exact h.noProc q
  · change _ = (Function.update w.held p held q).get fd
    rw [ha,update_apply,apply_ite (fun d : Dict ℕ Bytes => d.get fd),h.active]
  · rw [hd]
    split_ifs with hqp
    · exact hp
    · exact h.positive q

theorem put_of_fits {κ β : Type} [DecidableEq κ] {d : Dict κ β} {k : κ} (h : Fits d k) (v : β) :
    put d k v = d.set k v := if_pos h
theorem fits_of_get {κ β : Type} [DecidableEq κ] {d : Dict κ β} {k : κ} {v : β} (h : d.get k = some v) : Fits d k :=
  .inl (by rw [h]; exact Option.some_ne_none v)

theorem handleEnterOpen_device {t : Task} {name : Bytes} (hu : usbPath <+: name) (hr : t.reads ∧ Fits s.tmp t.tgid) :
    s.handleEnterOpen t name = { s with tmp := s.tmp.set t.tgid (readName name) } := by
  rw [Monitor.handleEnterOpen,if_pos hr.1,Monitor.mayStageToTmp,if_pos ((usbPath_readName name).2 hu),put_of_fits hr.2]

theorem handleEnterOpen_other {t : Task} {name : Bytes} (hu : ¬ usbPath <+: name) : s.handleEnterOpen t name = s := by
  rw [Monitor.handleEnterOpen,Monitor.mayStageToTmp,if_neg fun hr => hu ((usbPath_readName name).1 hr),ite_self]

theorem Stacked.enterOpen (h : Stacked s w) {t : Task} {name : Bytes} (ha : w.Allows (.enterOpen t name))
    (hr : Roomy s w (.enterOpen t name)) : Stacked (s.handleEnterOpen t name) (w.next (.enterOpen t name)) := by
  have hi : s.tmp.get t.tgid = none := by
    rw [h.tmp, show w.calling t.tgid = none from ha]
    rfl
  by_cases hu : usbPath <+: name
  · rw [handleEnterOpen_device hu (hr hu)]
    refine ⟨fun p => ?_,h.proc,h.noProc,h.active,h.positive⟩
    rw [get_set]
    change _ = (Function.update w.calling t.tgid (some name) p).bind _
    by_cases hp : p = t.tgid
    · rw [if_pos hp,hp,update_self,Option.bind_some,if_pos hu]
    · rw [if_neg hp,update_of_ne hp,h.tmp]
  · rw [handleEnterOpen_other hu]
    refine ⟨fun p => ?_,h.proc,h.noProc,h.active,h.positive⟩
    change _ = (Function.update w.calling t.tgid (some name) p).bind _
    by_cases hp : p = t.tgid
    · rw [hp,update_self,Option.bind_some,if_neg hu,hi]
    · rw [update_of_ne hp,h.tmp]

theorem Stacked.noteFd (h : Stacked s w) {p : Pid} (hfi : Fits s.proc p) (hfe : (w.fds p).length < 16) (fd : ℕ) :
    ∃ data, Monitor.noteFd s.proc p fd = s.proc.set p data ∧
      data.fds = w.fds p ++ fd :: replicate (15 - (w.fds p).length) 0 := by
  unfold Monitor.noteFd
  cases hd : s.proc.get p with
  | none =>
    refine ⟨.single fd,put_of_fits hfi _,?_⟩
    rw [h.noProc p hd]
    rfl
  | some data =>
    have hz : 16 - (w.fds p).length = 15 - (w.fds p).length + 1 := by omega
    have hs := h.proc p data hd
    rw [hz] at hs
    have hf := fillFirst_stack (h.positive p) fd (15 - (w.fds p).length)
    rw [← hs] at hf
    obtain ⟨ndata,ha,hn⟩ := add_of_fillFirst hf
    refine ⟨ndata,?_,hn⟩
    dsimp only
    rw [ha]
    exact put_of_fits hfi _

theorem Stacked.erase_tmp (h : Stacked s w) (p q : Pid) : (s.tmp.erase p).get q =
    (Function.update w.calling p none q).bind fun name => if usbPath <+: name then some (readName name) else none := by
  rw [get_erase]
  by_cases hq : q = p
  · rw [if_pos hq,hq,update_self]
    rfl
  · rw [if_neg hq,update_of_ne hq,h.tmp]

theorem World.next_exitOpen {t : Task} {name : Bytes} (h : w.calling t.tgid = some name) (ret : ℤ) :
    w.next (.exitOpen t ret) =
    ⟨update w.calling t.tgid none,
      if usbPath <+: name ∧ 0 ≤ ret then update w.held t.tgid ((w.held t.tgid).set ret.toNat (readName name))
        else w.held⟩ := by
  simp only [World.next,h]

theorem World.expected_exitOpen {t : Task} {name : Bytes} (h : w.calling t.tgid = some name) (ret : ℤ) :
    w.expected (.exitOpen t ret) = if usbPath <+: name ∧
      0 ≤ ret then [t.event .opened (readName name) ret.toNat] else [] := by
  simp only [World.expected,h]

section
variable {s : Monitor} {t : Task} {ret : ℤ} {f : Bytes}

theorem Monitor.handleExitOpen_none (h : s.tmp.get t.tgid = none) : s.handleExitOpen t ret = (s,[]) := by
  unfold Monitor.handleExitOpen
  rw [h]

theorem Monitor.handleExitOpen_ok (h : s.tmp.get t.tgid = some f) (hr : 0 ≤ ret) : s.handleExitOpen t ret =
    ({ s.track t.tgid ret.toNat f with tmp := s.tmp.erase t.tgid },[t.event .opened f ret.toNat].take t.room) := by
  unfold Monitor.handleExitOpen
  rw [h]
  exact if_pos hr

theorem Monitor.handleExitOpen_failed (h : s.tmp.get t.tgid = some f) (hr : ¬ 0 ≤ ret) :
    s.handleExitOpen t ret = ({ s with tmp := s.tmp.erase t.tgid },[]) := by
  unfold Monitor.handleExitOpen
  rw [h]
  exact if_neg hr

end

theorem Stacked.opened (h : Stacked s w) {p : Pid} {fd : ℕ} (hpo : fd ≠ 0) (hfr : fd ∉ w.fds p)
    (hf : (w.fds p).length < 16) (ha : Fits s.active (p,fd)) (hp : Fits s.proc p) (file : Bytes) :
    Stacked { s.track p fd file with tmp := s.tmp.erase p }
      ⟨Function.update w.calling p none,Function.update w.held p ((w.held p).set fd file)⟩ := by
  obtain ⟨data,hn,hda⟩ := h.noteFd hp hf fd
  have hk : ((w.held p).set fd file).entries.map fst = w.fds p ++ [fd] := by
    change (setIn _ _ _).map _ = _
    rw [setIn_of_notMem hfr,map_append]
    rfl
  rw [Monitor.track,if_pos ha,hn]
  refine h.update (h.erase_tmp p) ?_ ?_ (fun q => get_set ..) ?_ nofun
  · rw [hk]
    intro d hd
    rcases mem_append.1 hd with hd | hd
    · exact h.positive p d hd
    · rw [mem_singleton.1 hd]
      exact hpo
  · intro q d
    rw [get_set,get_set]
    by_cases hq : q = p
    · rw [if_pos hq,hq,h.active]
      simp
    · simp [hq]
  · rintro _ ⟨⟩
    have hz : 16 - ((w.fds p).length + 1) = 15 - (w.fds p).length := by omega
    rw [hk,hda,length_append,length_singleton,hz,append_assoc]
    rfl

/-- The descriptor goes to the first free slot, behind those of the open files. -/
theorem Stacked.exitOpen (h : Stacked s w) {t : Task} {ret : ℤ} (ha : w.Allows (.exitOpen t ret))
    (hr : Roomy s w (.exitOpen t ret)) :
    Stacked (s.handleExitOpen t ret).1 (w.next (.exitOpen t ret)) ∧
      (s.handleExitOpen t ret).2 = w.expected (.exitOpen t ret) := by
  obtain ⟨name,hname,hre⟩ := ha
  have ht := h.tmp t.tgid
  rw [hname,Option.bind_some] at ht
  change w.expected (.exitOpen t ret) ≠ [] → _ at hr
  rw [World.expected_exitOpen hname] at hr ⊢
  rw [World.next_exitOpen hname]
  by_cases hu : usbPath <+: name
  · rw [if_pos hu] at ht
    by_cases hok : 0 ≤ ret
    · obtain ⟨hpo,hfr,hf⟩ := hre hok
      have hb : usbPath <+: name ∧ 0 ≤ ret := ⟨hu,hok⟩
      rw [if_pos hb] at hr
      obtain ⟨hac,hpr,hro⟩ := hr (cons_ne_nil _ _)
      rw [Monitor.handleExitOpen_ok ht hok,if_pos hb,if_pos hb]
      exact ⟨h.opened (by omega) hfr (hf hu) hac hpr _,take_of_length_le hro⟩
    · have hnot : ¬ (usbPath <+: name ∧ 0 ≤ ret) := fun hb => hok hb.2
      rw [Monitor.handleExitOpen_failed ht hok,if_neg hnot,if_neg hnot]
      exact ⟨⟨h.erase_tmp t.tgid,h.proc,h.noProc,h.active,h.positive⟩,rfl⟩
  · have hnot : ¬ (usbPath <+: name ∧ 0 ≤ ret) := fun hb => hu hb.1
    rw [if_neg hu] at ht
    rw [Monitor.handleExitOpen_none ht,if_neg hnot,if_neg hnot]
    refine ⟨⟨fun p => ?_,h.proc,h.noProc,h.active,h.positive⟩,rfl⟩
    change _ = (Function.update w.calling t.tgid none p).bind _
    by_cases hp : p = t.tgid
    · rw [hp,update_self,ht]
      rfl
    · rw [update_of_ne hp,h.tmp]

section
variable {s : Monitor} {w : World} (h : Stacked s w) {p : Pid} {before after : List ℕ} {fd : ℕ}
  (hfds : w.fds p = before ++ fd :: after)
include h hfds

theorem Stacked.data_of_mem : ∃ data, s.proc.get p = some data := by
  cases hd : s.proc.get p with
  | none =>
    have hn := h.noProc p hd
    rw [hfds] at hn
    exact absurd hn (by simp)
  | some data => exact ⟨data,rfl⟩

omit h in
theorem notMem_before : fd ∉ before := by
  have hn : (w.fds p).Nodup := (w.held p).nodup
  rw [hfds] at hn
  exact fun hmem => disjoint_of_nodup_append hn hmem mem_cons_self

theorem Stacked.forgetFd : ∃ data, Monitor.forgetFd s.proc p fd = s.proc.set p data ∧
    data.fds = before ++ replicate (16 - before.length) 0 := by
  obtain ⟨data,hd⟩ := h.data_of_mem hfds
  have hst := h.proc p data hd
  rw [hfds,append_assoc,cons_append] at hst
  have hc := clearFirst_append (notMem_before hfds) (after ++ replicate (16 - (before ++ fd :: after).length) 0)
  rw [← hst] at hc
  obtain ⟨ndata,hr,hn⟩ := remove_of_clearFirst hc
  refine ⟨ndata,?_,?_⟩
  · unfold Monitor.forgetFd
    rw [hd]
    dsimp only
    rw [hr]
    exact put_of_fits (fits_of_get hd) _
  · have hs := ndata.size
    rw [hn] at hs ⊢
    rw [← replicate_succ] at hs ⊢
    rw [length_append,length_replicate] at hs
    congr 2
    unfold procOpenedFdLen at hs
    omega

theorem Stacked.active_of_mem : ∃ file, (w.held p).get fd = some file ∧ s.active.get (p,fd) = some file := by
  have hmem : fd ∈ w.fds p := by rw [hfds]; simp
  obtain ⟨file,hf⟩ := Option.ne_none_iff_exists'.1 (mem_fds_iff.1 hmem)
  exact ⟨file,hf,(h.active p fd).trans hf⟩

omit h in
theorem fds_erase : ((w.held p).erase fd).entries.map fst = before ++ after := by
  have hn : (w.fds p).Nodup := (w.held p).nodup
  have hf : ((w.held p).erase fd).entries.map fst = (w.fds p).filter fun d => d ≠ fd := by
    rw [World.fds,filter_map]
    rfl
  rw [hf, hfds, filter_append, filter_cons_of_neg (by simp)]
  rw [hfds] at hn
  have hm := (nodup_middle.1 hn)
  have hnot := (nodup_cons.1 hm).1
  rw [← filter_append]
  refine filter_eq_self.2 fun d hd => ?_
  simp only [decide_eq_true_eq]
  rintro rfl
  exact hnot hd

end

section
variable {s : Monitor} {t : Task} {fd : ℕ}

theorem Monitor.handleEnterClose_none (h : s.active.get (t.tgid,fd) = none) : s.handleEnterClose t fd = (s,[]) := by
  unfold Monitor.handleEnterClose
  rw [h]

theorem Monitor.handleEnterClose_some {f : Bytes} (h : s.active.get (t.tgid,fd) = some f) : s.handleEnterClose t fd =
    ({ s with active := s.active.erase (t.tgid,fd), proc := Monitor.forgetFd s.proc t.tgid fd },
      [t.event .closed f fd].take t.room) := by
  unfold Monitor.handleEnterClose
  rw [h]

end

theorem World.release_of_notMem {p : Pid} {fd : ℕ} (h : fd ∉ w.fds p) : w.release p fd = w := by
  have her : (w.held p).erase fd = w.held p := by
    have hen : ((w.held p).erase fd).entries = (w.held p).entries := by
      refine filter_eq_self.2 fun f hf => decide_eq_true fun hfd => h ?_
      exact mem_map.2 ⟨f,hf,hfd⟩
    cases hd : w.held p
    cases he : (w.held p).erase fd
    simp_all
  unfold World.release
  rw [her,update_eq_self]

theorem Stacked.lose (h : Stacked s w) {t : Task} {fd : ℕ} (hmem : fd ∉ w.fds t.tgid) :
    Stacked s (w.next (.lose t fd)) ∧ [] = w.expected (.lose t fd) := by
  constructor
  · rw [World.next,World.release_of_notMem hmem]
    exact h
  · simp only [World.expected,notMem_fds_iff.1 hmem,Option.map_none,Option.toList_none]

theorem Stacked.enterClose (h : Stacked s w) {t : Task} {fd : ℕ} (hr : Roomy s w (.enterClose t fd))
    (hl : w.ClosesLast (.enterClose t fd)) :
    Stacked (s.handleEnterClose t fd).1 (w.next (.enterClose t fd)) ∧
      (s.handleEnterClose t fd).2 = w.expected (.enterClose t fd) := by
  by_cases hmem : fd ∈ w.fds t.tgid
  · obtain ⟨before,hfds⟩ := getLast?_eq_some_iff.1 (hl hmem)
    obtain ⟨file,hh,ha⟩ := h.active_of_mem hfds
    obtain ⟨data,hf,hda⟩ := h.forgetFd hfds
    have he := fds_erase hfds
    rw [append_nil] at he
    have hex : w.expected (.enterClose t fd) = [t.event .closed file fd] := by
      simp only [World.expected,hh,Option.map_some,Option.toList_some]
    change (w.expected (.enterClose t fd)).length ≤ _ at hr
    rw [hex] at hr ⊢
    rw [Monitor.handleEnterClose_some ha,hf]
    refine ⟨h.update h.tmp ?_ ?_ (fun q => get_set ..) ?_ nofun,take_of_length_le hr⟩
    · rw [he]
      intro d hd
      exact h.positive t.tgid d (by rw [hfds]; exact mem_append_left _ hd)
    · intro q d
      rw [get_erase,get_erase]
      by_cases hq : q = t.tgid
      · rw [if_pos hq,hq,h.active]
        simp
      · simp [hq]
    · rintro _ ⟨⟩
      rw [he,hda]
  · rw [Monitor.handleEnterClose_none ((h.active _ _).trans (notMem_fds_iff.1 hmem))]
    exact h.lose hmem

/-- When another one is closed, the ones that were opened after it are lost. -/
theorem Stacked.not_coherent (h : Stacked s w) {t : Task} {fd : ℕ} (hnot : ¬ w.ClosesLast (.enterClose t fd)) :
    ¬ Coherent (s.handleEnterClose t fd).1 := by
  obtain ⟨hmem,hl⟩ := Classical.not_imp.1 hnot
  obtain ⟨before,after,hfds⟩ := append_of_mem hmem
  obtain ⟨file,_,ha⟩ := h.active_of_mem hfds
  obtain ⟨data,hf,hda⟩ := h.forgetFd hfds
  have hn : (w.fds t.tgid).Nodup := (w.held t.tgid).nodup
  rw [Monitor.handleEnterClose_some ha,hf]
  -- The descriptor that was opened last is active, but no longer in the array.
  cases after with
  | nil => exact absurd (by rw [hfds]; exact getLast?_concat ..) hl
  | cons d after =>
    have hd : d ∈ w.fds t.tgid := by rw [hfds]; simp
    rw [hfds] at hn
    have hrest := (nodup_append.1 hn).2.1
    have hne : d ≠ fd := by
      rintro rfl
      exact (nodup_cons.1 hrest).1 mem_cons_self
    intro hc
    have hs : (s.active.erase (t.tgid,fd)).get (t.tgid,d) ≠ none := by
      rw [get_erase, if_neg (by simp [hne]), h.active]
      exact mem_fds_iff.1 hd
    obtain ⟨hz,data',hd',hin⟩ := (hc t.tgid d).2 hs
    have hsa : data = data' := by
      have hg := hd'
      change (s.proc.set t.tgid data).get t.tgid = some data' at hg
      rw [get_set,if_pos rfl] at hg
      exact Option.some.inj hg
    rw [← hsa,hda] at hin
    rcases mem_append.1 hin with hin | hin
    · exact disjoint_of_nodup_append hn hin (mem_cons_of_mem _ mem_cons_self)
    · exact hz (eq_of_mem_replicate hin)

theorem closeAll_zeros (t : Task) (n : ℕ) (active : Dict (Pid × ℕ) Bytes) :
    Monitor.closeAll t (replicate n 0) active = (active,[]) := by
  induction n with
  | zero => rfl
  | succ n ih =>
    rw [replicate_succ, Monitor.closeAll, if_neg (by simp), ih]

theorem closeAll_files (t : Task) (n : ℕ) {files : List (ℕ × Bytes)} (hn : (files.map fst).Nodup)
    (hp : ∀ f ∈ files, f.1 ≠ 0)
    {active : Dict (Pid × ℕ) Bytes} (ha : ∀ f ∈ files, active.get (t.tgid,f.1) = some f.2) :
    ∃ active', Monitor.closeAll t (files.map fst ++ replicate n 0) active = (active',
      files.map fun f => t.event .closed f.2 f.1) ∧
      ∀ q fd, active'.get (q,fd) = if q = t.tgid ∧ fd ∈ files.map fst then none else active.get (q,fd) := by
  induction files generalizing active with
  | nil => exact ⟨active,closeAll_zeros t n active,fun q fd => by simp⟩
  | cons f files ih =>
    obtain ⟨hnot,hrest⟩ := nodup_cons.1 hn
    obtain ⟨hf,hpo⟩ := forall_mem_cons.1 hp
    obtain ⟨hge,ho⟩ := forall_mem_cons.1 ha
    have hk : ∀ g ∈ files, (active.erase (t.tgid,f.1)).get (t.tgid,g.1) = some g.2 := by
      intro g hg
      have hne : g.1 ≠ f.1 := fun heq => hnot (mem_map.2 ⟨g,hg,heq⟩)
      rw [get_erase, if_neg (by simp [hne])]
      exact ho g hg
    obtain ⟨active',hc,ha'⟩ := ih hrest hpo hk
    refine ⟨active',?_,fun q fd => ?_⟩
    · rw [map_cons,cons_append,Monitor.closeAll,if_pos hf,hge]
      dsimp only
      rw [hc,map_cons]
    · rw [ha',get_erase,map_cons]
      generalize files.map fst = keys
      by_cases hq : q = t.tgid
      · by_cases hfd : fd = f.1
        · simp [hq,hfd]
        · simp [hq,hfd]
      · simp [hq]

/-- The end of a process removes its entries, and tells of each device file that was open. -/
theorem Stacked.processExit (h : Stacked s w) {t : Task} (hr : Roomy s w (.processExit t)) :
    Stacked (s.handleProcessExit t).1 (w.next (.processExit t)) ∧
      (s.handleProcessExit t).2 = w.expected (.processExit t) := by
  have he : ∀ {active : Dict (Pid × ℕ) Bytes} {proc : Dict Pid Slots},
      (∀ q fd, active.get (q,fd) = if q = t.tgid then none else s.active.get (q,fd)) →
      (∀ q, proc.get q = if q = t.tgid then none else s.proc.get q) →
        Stacked ⟨s.tmp,proc,active⟩ (w.next (.processExit t)) :=
    fun ha hp => h.update h.tmp (by simp [empty]) ha hp nofun fun _ => rfl
  cases hd : s.proc.get t.tgid with
  | none =>
    have hh : (w.held t.tgid).entries = [] := map_eq_nil_iff.1 (h.noProc t.tgid hd)
    have hs : s.handleProcessExit t = (s,[]) := by
      unfold Monitor.handleProcessExit
      rw [hd]
    rw [hs]
    refine ⟨he (fun q fd => ?_) (fun q => ?_),?_⟩
    · split_ifs with hq
      · rw [hq,h.active,Dict.get,hh]
        rfl
      · rfl
    · split_ifs with hq
      · rw [hq,hd]
      · rfl
    · rw [World.expected,hh]
      rfl
  | some data =>
    have hpo : ∀ f ∈ (w.held t.tgid).entries, f.1 ≠ 0 := fun f hf => h.positive t.tgid f.1 (mem_map.2 ⟨f,hf,rfl⟩)
    have ha : ∀ f ∈ (w.held t.tgid).entries, s.active.get (t.tgid,f.1) = some f.2 := by
      intro f hf
      rw [h.active]
      exact mem_entries_iff.1 hf
    obtain ⟨active',hc,ha'⟩ := closeAll_files t (16 - (w.fds t.tgid).length) (w.held t.tgid).nodup hpo ha
    have hst : data.fds = (w.held t.tgid).entries.map fst ++ replicate (16 - (w.fds t.tgid).length) 0 :=
      h.proc t.tgid data hd
    have hs : s.handleProcessExit t =
        ({ s with active := active', proc := s.proc.erase t.tgid },(w.expected (.processExit t)).take t.room) := by
      unfold Monitor.handleProcessExit
      rw [hd]
      dsimp only
      rw [hst,hc]
      rfl
    rw [hs]
    refine ⟨he (fun q fd => ?_) (fun q => get_erase ..),take_of_length_le hr⟩
    · rw [ha']
      by_cases hq : q = t.tgid
      · by_cases hfd : fd ∈ w.fds t.tgid
        · rw [if_pos ⟨hq,hfd⟩,if_pos hq]
        · rw [if_neg fun hb => hfd hb.2, if_pos hq, hq, h.active, notMem_fds_iff.1 hfd]
      · rw [if_neg fun hb => hq hb.1, if_neg hq]

/-- As long as the last file is closed first, each step keeps the invariant and sends the right events. -/
theorem Stacked.step (h : Stacked s w) {e : Step} (ha : w.Allows e) (hr : Roomy s w e)
    (hl : w.ClosesLast e) : Stacked (s.step e).1 (w.next e) ∧ (s.step e).2 = w.expected e := by
  cases e with
  | enterOpen t name => exact ⟨h.enterOpen ha hr,rfl⟩
  | exitOpen t ret => exact h.exitOpen ha hr
  | enterClose t fd => exact h.enterClose hr hl
  | lose t fd => exact h.lose hl
  | processExit t => exact h.processExit hr

theorem Stacked.lost (h : Stacked s w) {e : Step} (hl : ¬ w.ClosesLast e) :
    ¬ (Coherent (s.step e).1 ∧ (s.step e).2.Perm (w.expected e)) := by
  cases e with
  | enterOpen | exitOpen | processExit => exact absurd trivial hl
  | enterClose t fd => exact fun hb => h.not_coherent hl hb.1
  | lose t fd =>
    have hmem : fd ∈ w.fds t.tgid := Classical.not_not.1 hl
    obtain ⟨file,hf⟩ := Option.ne_none_iff_exists'.1 (mem_fds_iff.1 hmem)
    rintro ⟨_,hp⟩
    have hle := hp.length_eq
    simp only [World.expected,hf,Monitor.step] at hle
    cases hle

theorem Stacked.followed_iff (h : Stacked s w) {es : List Step} (hp : Possible s w es) :
    Followed s w es ↔ Lifo w es := by
  induction es generalizing s w with
  | nil => exact Iff.rfl
  | cons e es ih =>
    obtain ⟨ha,hr,hrest⟩ := hp
    by_cases hl : w.ClosesLast e
    · obtain ⟨hn,he⟩ := h.step ha hr hl
      rw [Followed,Lifo,ih hn hrest]
      constructor
      · exact fun hf => ⟨hl,hf.2.2⟩
      · exact fun hli => ⟨hn.coherent,by rw [he],hli.2⟩
    · rw [Followed,Lifo]
      constructor
      · exact fun hf => absurd ⟨hf.1,hf.2.1⟩ (h.lost hl)
      · exact fun hli => absurd hli.1 hl

/-- The monitor follows the processes exactly if each of them closes its device files in the
opposite order, and with `close`. -/
theorem followed_iff_lifo {es : List Step} (hpossible : Possible .start .start es) :
    Followed .start .start es ↔ Lifo .start es :=
  stacked_start.followed_iff hpossible

def reader : Task := ⟨7,1000,[],51,true⟩
def device : Bytes := usbPath ++ [49]
def openTwo : List Step := [.enterOpen reader device,.exitOpen reader 3,.enterOpen reader device,.exitOpen reader 4]

theorem possible_openTwo {es : List Step}
    (h : Possible (openTwo.foldl (fun s e => (s.step e).1) .start) (openTwo.foldl World.next .start) es) :
    Possible .start .start (openTwo ++ es) := by
  refine ⟨rfl,fun _ => ⟨rfl,.inr ?_⟩,⟨device,rfl,fun _ => ⟨by decide,by decide,fun _ => by decide⟩⟩,
    fun _ => ⟨.inr ?_,.inr ?_,by decide⟩,rfl,fun _ => ⟨rfl,.inr ?_⟩,
      ⟨device,rfl,fun _ => ⟨by decide,by decide,fun _ => by decide⟩⟩,
    fun _ => ⟨.inr ?_,.inr ?_,by decide⟩,h⟩
  all_goals decide

/-- The second file is closed before the first one, which is closed by the exit. -/
theorem openTwo_followed : Followed .start .start (openTwo ++ [.enterClose reader 4,.processExit reader]) := by
  have hp : Possible .start .start (openTwo ++ [.enterClose reader 4,.processExit reader]) :=
    possible_openTwo ⟨rfl,Nat.le_of_ble_eq_true rfl,rfl,Nat.le_of_ble_eq_true rfl,trivial⟩
  refine (followed_iff_lifo hp).2 ?_
  exact ⟨trivial,trivial,trivial,trivial,fun _ => rfl,trivial,trivial⟩

/-- The first file is closed before the second one, and the exit sends no event for the second one. -/
theorem openTwo_lost : Possible .start .start (openTwo ++ [.enterClose reader 3,.processExit reader]) ∧
    ¬ Followed .start .start (openTwo ++ [.enterClose reader 3,.processExit reader]) := by
  refine ⟨possible_openTwo ⟨rfl,Nat.le_of_ble_eq_true rfl,rfl,Nat.le_of_ble_eq_true rfl,trivial⟩,?_⟩
  rintro ⟨_,_,_,_,_,_,_,_,_,_,_,hp,_⟩
  exact absurd hp.length_eq (by decide)

end Padsi.Usb
