import Padsi.Usb.Monitor

/-! # Threads and the USB monitor

A thread is in one call at a time, but the entry of `TMP` is the one of the process.
-/
namespace Padsi.Usb
open Python Function Option Monitor

abbrev Tid := UInt32

inductive Call where
  | enter (t : Task) (tid : Tid) (name : Bytes)
  | leave (t : Task) (tid : Tid) (ret : ℤ)

def Call.step : Call → Step
  | .enter t _ name => .enterOpen t name
  | .leave t _ ret => .exitOpen t ret

abbrev Threads := Pid → Tid → Option Bytes

namespace Threads

def start : Threads := fun _ _ => none

section
variable (w : Threads) (p : Pid)

def set (tid : Tid) (name : Option Bytes) : Threads := update w p (update (w p) tid name)

def next : Call → Threads
  | .enter t tid name => w.set t.tgid tid (some name)
  | .leave t tid _ => w.set t.tgid tid none

def expected : Call → List Event
  | .enter _ _ _ => []
  | .leave t tid ret =>
    match w t.tgid tid with
    | none => []
    | some name => if usbPath <+: name ∧ 0 ≤ ret then [t.event .opened (readName name) ret.toNat] else []

def Alternates : Call → Prop
  | .enter t tid _ => w t.tgid tid = none
  | .leave t tid _ => w t.tgid tid ≠ none

/-- When a call ends, no other thread of the process is opening a device file. -/
def Alone : Call → Prop
  | .enter _ _ _ => True
  | .leave t tid _ => ∀ tid' name, tid' ≠ tid → w t.tgid tid' = some name → ¬ usbPath <+: name

theorem set_self (tid : Tid) (name : Option Bytes) : w.set p tid name p tid = name := by
  rw [set,update_self,update_self]
theorem set_of_tid_ne {tid tid' : Tid} (h : tid' ≠ tid) (name : Option Bytes) : w.set p tid name p tid' = w p tid' := by
  rw [set,update_self,update_of_ne h]
theorem set_of_pid_ne {p q : Pid} (h : q ≠ p) (tid : Tid) (name : Option Bytes) : w.set p tid name q = w q :=
  update_of_ne h ..

end

end Threads

def HasRoom (s : Monitor) (w : Threads) : Call → Prop
  | .enter t _ name => usbPath <+: name → t.reads ∧ Fits s.tmp t.tgid
  | .leave t tid ret => (w.expected (.leave t tid ret)).length ≤ t.room

def Interleaved : Monitor → Threads → List Call → Prop
  | _, _, [] => True
  | s, w, c :: cs => w.Alternates c ∧ HasRoom s w c ∧ Interleaved (s.step c.step).1 (w.next c) cs

/-- Each event has the file and the descriptor of its call, and each opening has an event. -/
def Reported : Monitor → Threads → List Call → Prop
  | _, _, [] => True
  | s, w, c :: cs => (s.step c.step).2 = w.expected c ∧ Reported (s.step c.step).1 (w.next c) cs

def EachAlone : Threads → List Call → Prop
  | _, [] => True
  | w, c :: cs => w.Alone c ∧ EachAlone (w.next c) cs

/-- What `TMP` has for a process: the file of one of its threads, or nothing if none is opening a
device file. -/
def Staged (tmp : Option Bytes) (names : Tid → Option Bytes) : Prop :=
  (tmp = none ∧ ∀ tid name, names tid = some name → ¬ usbPath <+: name) ∨
    ∃ tid name, names tid = some name ∧ usbPath <+: name ∧ tmp = some (readName name)

variable {s : Monitor} {names : Tid → Option Bytes} {tid : Tid} {w : Threads}

theorem tmp_handleEnterOpen {t : Task} {name : Bytes} (hf : usbPath <+: name → t.reads ∧ Fits s.tmp t.tgid) (p : Pid) :
    (s.handleEnterOpen t name).tmp.get p = if p = t.tgid ∧
      usbPath <+: name then some (readName name) else s.tmp.get p := by
  by_cases hu : usbPath <+: name
  · rw [handleEnterOpen_device hu (hf hu),Dict.get_set]
    simp only [hu,and_true]
  · rw [handleEnterOpen_other hu, if_neg fun hb => hu hb.2]

theorem tmp_handleExitOpen (s : Monitor) (t : Task) (ret : ℤ) (p : Pid) :
    (s.handleExitOpen t ret).1.tmp.get p = if p = t.tgid then none else s.tmp.get p := by
  cases ht : s.tmp.get t.tgid with
  | none =>
    rw [handleExitOpen_none ht]
    by_cases hp : p = t.tgid
    · rw [if_pos hp,hp,ht]
    · rw [if_neg hp]
  | some f =>
    by_cases hr : 0 ≤ ret
    · rw [handleExitOpen_ok ht hr,Dict.get_erase]
    · rw [handleExitOpen_failed ht hr,Dict.get_erase]

theorem Staged.enter {tmp : Option Bytes} (h : Staged tmp names) (hi : names tid = none) (name : Bytes) :
    Staged (if usbPath <+: name then some (readName name) else tmp) (update names tid (some name)) := by
  by_cases hu : usbPath <+: name
  · rw [if_pos hu]
    exact .inr ⟨tid,name,update_self ..,hu,rfl⟩
  · rw [if_neg hu]
    rcases h with ⟨htm,hnone⟩ | ⟨tid',name',hn',hu',htm⟩
    · refine .inl ⟨htm,fun tid' name' hn' => ?_⟩
      by_cases ht : tid' = tid
      · rw [ht,update_self] at hn'
        cases hn'
        exact hu
      · rw [update_of_ne ht] at hn'
        exact hnone tid' name' hn'
    · have ht : tid' ≠ tid := by
        rintro rfl
        rw [hi] at hn'
        cases hn'
      exact .inr ⟨tid',name',(update_of_ne ht ..).trans hn',hu',htm⟩

theorem Staged.leave (ha : ∀ tid' name, tid' ≠ tid → names tid' = some name → ¬ usbPath <+: name) :
    Staged none (update names tid none) := by
  refine .inl ⟨rfl,fun tid' name hname => ?_⟩
  by_cases ht : tid' = tid
  · rw [ht,update_self] at hname
    cases hname
  · rw [update_of_ne ht] at hname
    exact ha tid' name ht hname

theorem Staged.eq_of_alone {tmp : Option Bytes} (h : Staged tmp names) {name : Bytes}
    (hname : names tid = some name) (ha : ∀ tid' name, tid' ≠ tid → names tid' = some name → ¬ usbPath <+: name) :
    tmp = if usbPath <+: name then some (readName name) else none := by
  rcases h with ⟨ht,hnone⟩ | ⟨tid',name',hn',hu',ht⟩
  · rw [if_neg (hnone tid name hname),ht]
  · have hti : tid' = tid := Classical.byContradiction fun hne => ha tid' name' hne hn' hu'
    rw [hti,hname] at hn'
    cases hn'
    rw [if_pos hu',ht]

theorem staged_step (h : ∀ p, Staged (s.tmp.get p) (w p)) {c : Call} (ha : w.Alternates c)
    (hr : HasRoom s w c) (hal : w.Alone c) : ∀ p, Staged ((s.step c.step).1.tmp.get p) (w.next c p) := by
  intro p
  cases c with
  | enter t tid name =>
    change Staged ((s.handleEnterOpen t name).tmp.get p) (w.set t.tgid tid (some name) p)
    rw [tmp_handleEnterOpen hr]
    by_cases hp : p = t.tgid
    · rw [hp,Threads.set,update_self]
      simp only [true_and]
      exact (h t.tgid).enter ha name
    · rw [Threads.set_of_pid_ne w hp, if_neg fun hb => hp hb.1]
      exact h p
  | leave t tid ret =>
    change Staged ((s.handleExitOpen t ret).1.tmp.get p) (w.set t.tgid tid none p)
    rw [tmp_handleExitOpen]
    by_cases hp : p = t.tgid
    · rw [if_pos hp,hp,Threads.set,update_self]
      exact Staged.leave hal
    · rw [if_neg hp,Threads.set_of_pid_ne w hp]
      exact h p

theorem sent_of_staged (h : ∀ p, Staged (s.tmp.get p) (w p)) {c : Call} (ha : w.Alternates c)
    (hro : HasRoom s w c) (hal : w.Alone c) : (s.step c.step).2 = w.expected c := by
  cases c with
  | enter t tid name => rfl
  | leave t tid ret =>
    obtain ⟨name,hname⟩ := ne_none_iff_exists'.1 ha
    have he : w.expected (.leave t tid ret) =
        if usbPath <+: name ∧ 0 ≤ ret then [t.event .opened (readName name) ret.toNat] else [] := by
      simp only [Threads.expected,hname]
    change (w.expected (.leave t tid ret)).length ≤ t.room at hro
    have ht := (h t.tgid).eq_of_alone hname hal
    change (s.handleExitOpen t ret).2 = _
    rw [he] at hro ⊢
    by_cases hu : usbPath <+: name
    · rw [if_pos hu] at ht
      by_cases hr : 0 ≤ ret
      · have hb : usbPath <+: name ∧ 0 ≤ ret := ⟨hu,hr⟩
        rw [if_pos hb] at hro ⊢
        rw [handleExitOpen_ok ht hr]
        exact List.take_of_length_le hro
      · rw [handleExitOpen_failed ht hr, if_neg fun hb => hr hb.2]
    · rw [if_neg hu] at ht
      rw [handleExitOpen_none ht, if_neg fun hb => hu hb.1]

theorem reported_of_staged (h : ∀ p, Staged (s.tmp.get p) (w p)) {cs : List Call} (hc : Interleaved s w cs)
    (ha : EachAlone w cs) : Reported s w cs := by
  induction cs generalizing s w with
  | nil => trivial
  | cons c cs ih =>
    obtain ⟨hal,hr,hrest⟩ := hc
    refine ⟨sent_of_staged h hal hr ha.1,?_⟩
    exact ih (staged_step h hal hr ha.1) hrest ha.2

/-- Each opening is reported with its own descriptor if no other thread is opening a device file
when a call ends. -/
theorem reported_of_alone {cs : List Call} (hcalls : Interleaved .start .start cs) (halone : EachAlone .start cs) :
    Reported .start .start cs := by
  have hs : ∀ p, Staged (start.tmp.get p) (Threads.start p) := fun _ => .inl ⟨rfl,nofun⟩
  exact reported_of_staged hs hcalls halone

def passwd : Bytes := [47,101,116,99,47,112,97,115,115,119,100]

/-- A thread opens a device file while another one opens a file, which ends later. -/
theorem reported_around : Reported .start .start
    [.enter reader 2 passwd,.enter reader 1 device,.leave reader 1 7,.leave reader 2 8] := by
  have hc : Interleaved .start .start [.enter reader 2 passwd,.enter reader 1 device,.leave reader 1 7,
    .leave reader 2 8] :=
    ⟨rfl,fun _ => ⟨rfl,.inr (by decide)⟩,rfl,fun _ => ⟨rfl,.inr (by decide)⟩,some_ne_none device,
      Nat.le_of_ble_eq_true rfl,
      some_ne_none passwd,Nat.le_of_ble_eq_true rfl,trivial⟩
  refine reported_of_alone hc ⟨trivial,trivial,fun tid name hne hname => ?_,fun tid name hne hname => ?_,trivial⟩
  · change ((Threads.start.set 7 2 (some passwd)).set 7 1 (some device)) 7 tid = some name at hname
    rw [Threads.set_of_tid_ne _ _ hne] at hname
    by_cases ht : tid = 2
    · rw [ht,Threads.set_self] at hname
      cases hname
      decide
    · rw [Threads.set_of_tid_ne _ _ ht] at hname
      cases hname
  · change (((Threads.start.set 7 2 (some passwd)).set 7 1 (some device)).set 7 1 none) 7 tid = some name at hname
    by_cases ht : tid = 1
    · rw [ht,Threads.set_self] at hname
      cases hname
    · rw [Threads.set_of_tid_ne _ _ ht,Threads.set_of_tid_ne _ _ ht,Threads.set_of_tid_ne _ _ hne] at hname
      cases hname

/-- If the other call ends first, the device file gets its descriptor, and the opening of the
device file is not reported. -/
theorem reported_not_between :
    Interleaved .start .start [.enter reader 1 device,.enter reader 2 passwd,.leave reader 2 7,.leave reader 1 8] ∧
      ¬ Reported .start .start [.enter reader 1 device,.enter reader 2 passwd,.leave reader 2 7,.leave reader 1 8] := by
  constructor
  · exact ⟨rfl,fun _ => ⟨rfl,.inr (by decide)⟩,rfl,fun _ => ⟨rfl,.inr (by decide)⟩,some_ne_none passwd,
      Nat.le_of_ble_eq_true rfl,
      some_ne_none device,Nat.le_of_ble_eq_true rfl,trivial⟩
  · rintro ⟨_,_,hs,_⟩
    exact absurd hs (by decide)

end Padsi.Usb
