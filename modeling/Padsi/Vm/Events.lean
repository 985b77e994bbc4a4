import Mathlib.Algebra.Order.Group.Unbundled.Int
import Padsi.Vm.Files

/-! # The information file of a version

SQLite does not say how rows of the same second are ordered, and does not know the type
`STRING` of the columns: a text that looks like a number becomes one.
-/
namespace Padsi.Vm.VMDB
open Python Text List Function

inductive EventType where
  | vmCreated
  | vmStarted
  | vmShutdown
  | vmDiscarded
  | attributeSet
  | attributeUnset
  | informational
deriving DecidableEq

def EventType.state : EventType → Option VMState
  | .vmCreated => some .created
  | .vmStarted => some .running
  | .vmShutdown => some .stopped
  | .vmDiscarded => some .discarded
  | _ => none

inductive Cell where
  | text (s : Str)
  | int (n : ℤ)
  | real (s : Str)
deriving DecidableEq

/-- The type affinity of the columns: what is not read as a number stays as it is. -/
structure Affinity where
  cell : Str → Cell
  text_eq : ∀ s t, cell s = .text t → t = s
  name : cell "name" = .text "name"

structure Event where
  ts : ℤ
  type : EventType
  descr : Option Cell

structure Call where
  type : EventType
  descr : Option Str
  forcedTs : Option ℤ

def setState (state : VMState) (context : Option Str) : Call :=
  let dflt : Str := "Set to state to " ++ match state with
    | .created => ("CREATED" : Str)
    | .running => "RUNNING"
    | .stopped => "STOPPED"
    | .discarded => "DISCARDED"
  let type := match state with
    | .created => EventType.vmCreated
    | .running => .vmStarted
    | .stopped => .vmShutdown
    | .discarded => .vmDiscarded
  ⟨type,some (if context.getD [] = [] then dflt else context.getD []),none⟩

namespace Call

def text (c : Call) : Option Str := (c.descr.map strip).filter (· ≠ [])
def raises (c : Call) (now : ℤ) : Bool := c.forcedTs.any fun ts => 2 < |ts - now|

def row (A : Affinity) (now : ℤ) (c : Call) : Option Event :=
  if c.raises now then none else some ⟨now,c.type,c.text.map A.cell⟩

def event (now : ℤ) (c : Call) : Option Event :=
  if c.raises now then none else some ⟨c.forcedTs.getD now,c.type,c.text.map .text⟩

end Call

/-- Calls with the time of the clock, the last one first. -/
abbrev History := List (ℤ × Call)

def rows (A : Affinity) (h : History) : List Event := h.filterMap fun x => x.2.row A x.1
def events (h : History) : List Event := h.filterMap fun x => x.2.event x.1
abbrev LatestFirst (l : List Event) : Prop := l.Pairwise fun a b => b.ts ≤ a.ts

/-- What `get_events` may return: rows of the same second are in any order. -/
def GetEvents (rows : List Event) (evtypes : Option (List EventType)) (l : List Event) : Prop :=
  l ~ rows.filter (fun e => evtypes.all fun types => e.type ∈ types) ∧ LatestFirst l

def stateTypes : List EventType := [.vmShutdown,.vmDiscarded,.vmStarted,.vmCreated]

def State (rows : List Event) (state : Option VMState) : Prop :=
  ∃ l, GetEvents rows (some stateTypes) l ∧ state = l.head?.bind fun e => e.type.state

def Right (A : Affinity) (h : History) : Prop :=
  (∀ l, GetEvents (rows A h) none l → l = events h) ∧
    ∀ state, State (rows A h) state → state = (events h).findSome? fun e => e.type.state

variable {A : Affinity} {h : History} {l : List Event}

theorem sorted_rows (A : Affinity) (hs : h.Pairwise fun x y => y.1 ≤ x.1) : LatestFirst (rows A h) := by
  refine hs.filterMap _ fun x y hle a ha b hb => ?_
  rw [Call.row] at ha hb
  split_ifs at ha hb
  cases ha
  cases hb
  exact hle

theorem rows_eq_events_iff : rows A h = events h ↔
    ∀ x ∈ h, x.2.raises x.1 = false → (∀ ts ∈ x.2.forcedTs, ts = x.1) ∧ ∀ s ∈ x.2.text, A.cell s = .text s := by
  induction h with
  | nil => simp [rows,events]
  | cons x h ih =>
    rw [forall_mem_cons,← ih,rows,events,filterMap_cons,filterMap_cons,Call.row,Call.event]
    cases hr : x.2.raises x.1 with
    | true => simp [rows,events]
    | false =>
      cases hf : x.2.forcedTs <;> cases ht : x.2.text <;> simp [rows,events,eq_comm]

theorem eq_of_getEvents {rs : List Event} {evtypes : Option (List EventType)} (hs : LatestFirst rs)
    (hd : ∀ a ∈ rs, ∀ b ∈ rs, a.ts = b.ts → a = b) (hl : GetEvents rs evtypes l) :
    l = rs.filter fun e => evtypes.all fun types => e.type ∈ types := by
  refine hl.1.eq_of_pairwise (fun a b ha hb hab hba => ?_) hl.2 (hs.filter _)
  exact hd a (mem_of_mem_filter (hl.1.mem_iff.1 ha)) b (mem_of_mem_filter hb) (le_antisymm hba hab)

/-- Two rows of the same second may be exchanged. -/
theorem getEvents_swap {rs : List Event} (hs : LatestFirst rs) (hu : ∀ l, GetEvents rs none l → l = rs) :
    ∀ a ∈ rs, ∀ b ∈ rs, a.ts = b.ts → a = b := by
  intro a ha b hb ht
  obtain ⟨i,hi,rfl⟩ := getElem_of_mem ha
  obtain ⟨j,hj,rfl⟩ := getElem_of_mem hb
  have hm : ((rs.set i rs[j]).set j rs[i]).map Event.ts = rs.map Event.ts := by
    refine ext_getElem (by simp) fun k _ _ => ?_
    simp only [getElem_map,getElem_set]
    split_ifs with hjk hik
    · subst hjk
      exact ht
    · subst hik
      exact ht.symm
    · rfl
  have hp : LatestFirst ((rs.set i rs[j]).set j rs[i]) := by
    rw [LatestFirst,← pairwise_map (f := Event.ts) (R := fun a b => b ≤ a)] at hs ⊢
    rwa [hm]
  have he := hu _ ⟨by simpa using set_set_perm hi hj,hp⟩
  have hj' := congrArg (fun l => l[j]?) he
  simpa [hj] using hj'

theorem head_state (rs : List Event) : ((rs.filter fun e => e.type ∈ stateTypes).head?.bind fun e => e.type.state) =
    rs.findSome? fun e => e.type.state := by
  induction rs with
  | nil => rfl
  | cons e rs ih =>
    rw [filter_cons,findSome?_cons,← ih]
    cases he : e.type <;> simp [he,stateTypes,EventType.state]

/-- No description looks like a number, a forced time is the one of the clock, and what happens in
the same second is the same. -/
theorem events_right_iff (hs : h.Pairwise fun x y => y.1 ≤ x.1) : Right A h ↔
    (∀ x ∈ h, x.2.raises x.1 = false → (∀ ts ∈ x.2.forcedTs, ts = x.1) ∧ ∀ s ∈ x.2.text, A.cell s = .text s) ∧
    ∀ a ∈ rows A h, ∀ b ∈ rows A h, a.ts = b.ts → a = b := by
  rw [← rows_eq_events_iff]
  have hr := sorted_rows A hs
  constructor
  · intro hw
    have he : rows A h = events h := hw.1 _ ⟨by simp,hr⟩
    refine ⟨he,getEvents_swap hr fun l hl => ?_⟩
    rw [he]
    exact hw.1 l hl
  · rintro ⟨he,hd⟩
    refine ⟨fun l hl => ?_,?_⟩
    · rw [eq_of_getEvents hr hd hl,← he]
      simp
    · rintro state ⟨l,hl,rfl⟩
      rw [eq_of_getEvents hr hd hl,← he]
      exact head_state _

def plainTexts : Affinity := ⟨.text,fun _ _ h => (Cell.text.inj h).symm,rfl⟩

def lifetime : History := [(8,setState .running (some "by the user")),(7,setState .stopped none),
  (5,⟨.informational,some " merged ",some 5⟩),(4,⟨.informational,some "refused",some 9⟩),(0,setState .created none)]

/-- Events of different seconds, one of which has the forced time of the clock and one is refused. -/
theorem lifetime_right : Right plainTexts lifetime ∧
    ∀ state, State (rows plainTexts lifetime) state → state = some .running := by
  have hr : Right plainTexts lifetime := by
    refine (events_right_iff (by decide)).2 ⟨?_,?_⟩
    · simp [lifetime,setState,plainTexts,Call.raises]
    · simp [lifetime,rows,Call.row,setState,Call.raises]
  exact ⟨hr,fun state hs => hr.2 state hs⟩

def forcedLate : History := [(1,⟨.informational,some "merged",some 0⟩),(0,setState .created none)]
def restarted : History := [(0,setState .running none),(0,setState .stopped none)]

/-- The forced time is not recorded. Of a version that is stopped and started in the same second,
the rows may come by decreasing type: then it is stopped. -/
theorem forced_time_lost : (∀ l, GetEvents (rows plainTexts forcedLate) none l → l ≠ events forcedLate) ∧
    State (rows plainTexts restarted) (some .stopped) ∧ ¬Right plainTexts forcedLate ∧ ¬Right plainTexts restarted := by
  have hf : ∀ l, GetEvents (rows plainTexts forcedLate) none l → l ≠ events forcedLate := by
    rintro l hl rfl
    have hm : (⟨1,.informational,some (.text "merged")⟩ : Event) ∈ events forcedLate :=
      hl.1.mem_iff.2 mem_cons_self
    simp [events,forcedLate,Call.event,Call.raises,setState] at hm
  have hst : State (rows plainTexts restarted) (some .stopped) := ⟨_,⟨(Perm.swap _ _ _).symm,by simp⟩,rfl⟩
  refine ⟨hf,hst,fun hw => ?_,fun hw => ?_⟩
  · have hg : GetEvents (rows plainTexts forcedLate) none (rows plainTexts forcedLate) :=
      ⟨by simp,sorted_rows plainTexts (by decide)⟩
    exact hf _ hg (hw.1 _ hg)
  · cases hw.2 _ hst

inductive Value where
  | none
  | str (s : Str)
  | int (n : ℤ)

def Value.falsy : Value → Bool
  | .none => true
  | .str s => s = []
  | .int n => n = 0

def Value.cell (cell : Str → Cell) : Value → Option Cell
  | .none => Option.none
  | .str s => cell s
  | .int n => Cell.int n

abbrev Attributes := Cell → Option Cell

/-- A call of `_set_attribute`; if a statement fails, the transaction is rolled back. -/
structure Setting where
  name : Str
  value : Value
  fails : Bool

def Setting.raises (c : Setting) : Bool := c.name = [] || c.fails

def setAttribute (A : Affinity) (attributes : Attributes) (c : Setting) : Attributes :=
  if c.raises then attributes
  else if c.value.falsy then update attributes (A.cell "name") none
  else update attributes (A.cell c.name) (c.value.cell A.cell)

def getAttribute (A : Affinity) (attributes : Attributes) (name : Str) : Option Cell := attributes (A.cell name)

def attributes (A : Affinity) (cs : List Setting) : Attributes :=
  cs.foldr (fun c attributes => setAttribute A attributes c) fun _ => none

def wanted (cs : List Setting) : Str → Option Cell :=
  cs.foldr (fun c m => if c.raises then m else update m c.name (c.value.cell .text)) fun _ => none

/-- Nothing is unset but `name` or what needs no change, and nothing looks like a number. -/
def Plain (A : Affinity) : List Setting → Prop
  | [] => True
  | c :: cs => Plain A cs ∧ (c.raises = false →
    if c.value.falsy then c.value.cell .text = none ∧
      (c.name = "name" ∨ wanted cs c.name = none ∧ wanted cs "name" = none)
    else A.cell c.name = .text c.name ∧ c.value.cell A.cell = c.value.cell .text)

theorem cell_eq_text_iff (A : Affinity) {s t : Str} (ht : A.cell t = .text t) : A.cell s = .text t ↔ s = t :=
  ⟨fun h => (A.text_eq s t h).symm,fun h => h ▸ ht⟩

/-- After calls that are plain, every attribute has the value of the last call with its name. -/
theorem attributes_right (A : Affinity) {cs : List Setting} (h : Plain A cs) :
    ∀ name, getAttribute A (attributes A cs) name = wanted cs name := by
  induction cs with
  | nil => exact fun _ => rfl
  | cons c cs ih =>
    obtain ⟨hcs,hc⟩ := h
    intro name
    have hg := ih hcs
    unfold getAttribute at hg ⊢
    rw [attributes,wanted,foldr_cons,foldr_cons,← attributes,← wanted]
    cases hr : c.raises with
    | true => simpa [setAttribute,hr] using hg name
    | false =>
      have hcr := hc hr
      rw [setAttribute,hr]
      simp only [Bool.false_eq_true,if_false]
      split_ifs at hcr ⊢ with hf
      · obtain ⟨hv,hn⟩ := hcr
        simp only [hv,A.name,update_apply,cell_eq_text_iff A A.name,hg name]
        rcases hn with hn | ⟨hn,hu⟩
        · rw [hn]
        · split_ifs with h₁ h₂ h₃
          · rfl
          · rw [h₁,hu]
          · rw [h₃,hn]
          · rfl
      · simp only [hcr.1,hcr.2,update_apply,cell_eq_text_iff A hcr.1,hg name]

def nicknamed : Setting := ⟨"nickname",.str "office",false⟩

def renamed : List Setting :=
  [⟨"name",.none,false⟩,⟨"nickname",.str "lab",false⟩,⟨"cpus",.int 4,false⟩,⟨"nickname",.str "lost",true⟩,
    ⟨"name",.str "debian",false⟩,⟨"domain",.none,false⟩,nicknamed]

theorem renamed_right : (∀ name, getAttribute plainTexts (attributes plainTexts renamed) name = wanted renamed name) ∧
    wanted renamed "nickname" = some (.text "lab") ∧ wanted renamed "cpus" = some (.int 4) ∧
    wanted renamed "name" = none ∧ wanted renamed "domain" = none := by
  have hp : Plain plainTexts renamed :=
    ⟨⟨⟨⟨⟨⟨⟨trivial,fun _ => ⟨rfl,rfl⟩⟩,fun _ => ⟨rfl,.inr ⟨rfl,rfl⟩⟩⟩,fun _ => ⟨rfl,rfl⟩⟩,nofun⟩,fun _ => ⟨rfl,rfl⟩⟩,
      fun _ => ⟨rfl,rfl⟩⟩,fun _ => ⟨rfl,.inl rfl⟩⟩
  exact ⟨attributes_right plainTexts hp,by decide,by decide,by decide,by decide⟩

/-- A nickname that is removed is still there. -/
theorem removed_nickname_kept : getAttribute plainTexts
    (attributes plainTexts [⟨"nickname",.none,false⟩,nicknamed]) "nickname" = some (.text "office") := rfl

end Padsi.Vm.VMDB
