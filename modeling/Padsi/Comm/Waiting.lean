import Padsi.Comm.Calls

/-! # Calls that wait for ever

Only the task of `run` fills the queue of a call. It stops at the end of the stream and
at a line over the limit, after which calls are still accepted.
-/
namespace Padsi.Comm
open Python Text List Prod Option

variable (U : Unicode)

def State.settle (s : State) : State := (State.clientRead U)^[s.toClient.length + 1] s
def Replied (s : State) (id : ℤ) : Prop := ∃ line ∈ s.toClient, ∃ a, line.answer U = some (id,a)

/-- No call waits that has been replied to, and none at all after the end of the service. -/
def Returns (s : State) : Prop :=
  ∀ (k : ℕ) (c : Call), s.calls[k]? = some c → s.closed = true ∨ Replied U s c.reqId →
    ∃ c', (s.settle U).calls[k]? = some c' ∧ ¬ c'.Waiting

def Follows : State → List Step → Prop
  | s, [] => Returns U s
  | s, st :: l => Returns U s ∧ Follows (s.step U st) l

/-- Replies are short, the service ends when no call waits, and no call is made until `run` notices it. -/
def Keeps (s : State) : Step → Prop
  | .finish i o => ∀ line, s.jobs[i]? = some line → s.closed = false → (implementJob line o).text.length ≤ limit
  | .close => ∀ c ∈ s.calls, c.Waiting → Replied U s c.reqId
  | .callServer m => s.closed = true → s.task.isRunning = true → m.reqId ≠ none
  | _ => True

def KeepsAll : State → List Step → Prop
  | _, [] => True
  | s, st :: l => Keeps U s st ∧ KeepsAll (s.step U st) l

section
variable {U} {s : State} {sent working : List Ticket} {replied : List (Ticket × Outcome)} {k : ℕ} {t : Ticket}

theorem returns_iff : Returns U s ↔
    ∀ (k : ℕ) (x : View), s.views[k]? = some x → s.closed = true ∨ Replied U s x.1.1 →
      ∃ x' : View, (s.settle U).views[k]? = some x' ∧ x'.2 ≠ [] := by
  have hv (s : State) (k : ℕ) (x : View) : s.views[k]? = some x ↔ ∃ c, s.calls[k]? = some c ∧ c.view = x := by
    rw [State.views,getElem?_map,map_eq_some_iff]
  constructor
  · intro h k x hk hs
    obtain ⟨c,hc,rfl⟩ := (hv s k x).1 hk
    obtain ⟨c',hc',hnot⟩ := h k c hc hs
    exact ⟨c'.view,(hv _ k _).2 ⟨c',hc',rfl⟩,hnot⟩
  · intro h k c hc hs
    obtain ⟨x',hx',hnot⟩ := h k c.view ((hv s k _).2 ⟨c,hc,rfl⟩) hs
    obtain ⟨c',hc',rfl⟩ := (hv _ k x').1 hx'
    exact ⟨c',hc',hnot⟩

structure Delivers (U : Unicode) (s : State) (t : Ticket) (o : Outcome) (k : ℕ)
    (rest : List (Ticket × Outcome)) : Prop where
  task : s.task = .reading
  short : (implementJob t.line o).text.length ≤ limit
  place : s.views[k]? = some (t,[])
  read : s.clientRead U =
    State.put t.1 k (o.answer t.1) { s with toClient := rest.map fun x => implementJob x.1.line x.2 }

variable {o : Outcome}

theorem Delivers.views {rest : List (Ticket × Outcome)} (h : Delivers U s t o k rest) :
    (s.clientRead U).views = s.views.modify k (View.push (o.answer t.1)) := by
  rw [h.read]
  exact s.views_put h.place t.1 _

theorem Inv.delivers (h : Inv s sent working ((t,o) :: replied)) (ht : s.task = .reading)
    (hs : (implementJob t.line o).text.length ≤ limit) : ∃ k, Delivers U s t o k replied := by
  obtain ⟨k,hk,hd⟩ := h.deliver_eq (U := U)
  refine ⟨k,ht,hs,hk,?_⟩
  have hl := h.toClient
  rw [map_cons] at hl
  rw [← hd]
  simp only [State.clientRead,ht,hl,if_neg (Nat.not_lt.2 hs)]

theorem Inv.clientRead_cases (h : Inv s sent working replied) :
    (s.clientRead U).views = s.views ∧ (s.clientRead U).toClient ⊆ s.toClient ∨
      ∃ t o rest k, replied = (t,o) :: rest ∧ Delivers U s t o k rest := by
  by_cases hfirst : ∃ t o rest, replied = (t,o) :: rest ∧ s.task = .reading ∧
    (implementJob t.line o).text.length ≤ limit
  · obtain ⟨t,o,rest,rfl,ht,hs⟩ := hfirst
    obtain ⟨k,hk⟩ := h.delivers ht hs
    exact .inr ⟨t,o,rest,k,rfl,hk⟩
  · refine .inl ?_
    unfold State.clientRead
    split
    · rename_i line rest ht hl
      have hl' := hl
      rw [h.toClient] at hl'
      obtain ⟨⟨t,o⟩,replied,rfl,rfl,rfl⟩ := map_eq_cons_iff.1 hl'
      rw [if_pos (Nat.lt_of_not_le fun hs => hfirst ⟨t,o,replied,rfl,ht,hs⟩), hl]
      exact ⟨rfl,subset_cons_self _ _⟩
    · split <;> exact ⟨rfl,fun _ h => h⟩
    · exact ⟨rfl,fun _ h => h⟩

/-- The call at a place waits, and no line that can be read replies to it. -/
structure Stuck (U : Unicode) (s : State) (k : ℕ) (t : Ticket) : Prop where
  waits : s.views[k]? = some (t,[])
  lines : ∀ line ∈ s.toClient, ∀ a, line.answer U = some (↑t.1,a) → limit < line.text.length

theorem Stuck.clientRead (hs : Stuck U s k t) (h : Inv s sent working replied) : Stuck U (s.clientRead U) k t := by
  rcases h.clientRead_cases (U := U) with ⟨hv,hli⟩ | ⟨t',o,rest,j,rfl,hr⟩
  · exact ⟨hv ▸ hs.waits,fun line hl => hs.lines line (hli hl)⟩
  · have hfirst : implementJob t'.line o ∈ s.toClient := by
      rw [h.toClient]
      exact mem_cons_self
    have hne : j ≠ k := by
      rintro rfl
      have heq : t' = t := congrArg fst (some.inj (hr.place.symm.trans hs.waits))
      subst heq
      exact absurd (hs.lines _ hfirst _ (answer_implementJob t' o)) (Nat.not_lt.2 hr.short)
    refine ⟨?_,fun line hl => hs.lines line ?_⟩
    · rw [hr.views,getElem?_modify,hs.waits]
      simp [hne]
    · rw [hr.read] at hl
      rw [h.toClient]
      exact mem_cons_of_mem _ hl

theorem Stuck.settle (hs : Stuck U s k t) (h : Inv s sent working replied) : (s.settle U).views[k]? = some (t,[]) := by
  unfold State.settle
  generalize s.toClient.length + 1 = n
  induction n generalizing s sent working replied with
  | zero => exact hs.waits
  | succ n ih =>
    obtain ⟨_,h'⟩ := h.clientRead (U := U)
    exact ih (hs.clientRead h) h'

theorem Stuck.not_returns (hs : Stuck U s k t) (h : Inv s sent working replied)
    (hse : s.closed = true ∨ Replied U s t.1) : ¬ Returns U s := by
  intro hr
  obtain ⟨x,hx,hne⟩ := returns_iff.1 hr k (t,[]) hs.waits hse
  rw [hs.settle h] at hx
  exact hne (congrArg snd (some.inj hx)).symm

def Answered (s : State) (k : ℕ) : Prop := ∃ x : View, s.views[k]? = some x ∧ x.2 ≠ []

theorem Answered.clientRead (ha : Answered s k) (h : Inv s sent working replied) : Answered (s.clientRead U) k := by
  obtain ⟨x,hx,hne⟩ := ha
  rcases h.clientRead_cases (U := U) with ⟨hv,_⟩ | ⟨t,o,rest,j,rfl,hr⟩
  · exact ⟨x,hv ▸ hx,hne⟩
  · rw [Answered,hr.views]
    by_cases hjk : j = k
    · refine ⟨View.push (o.answer t.1) x,?_,concat_ne_nil _ _⟩
      rw [getElem?_modify,hx]
      simp [hjk]
    · refine ⟨x,?_,hne⟩
      rw [getElem?_modify,hx]
      simp [hjk]

theorem Answered.iterate (ha : Answered s k) (h : Inv s sent working replied) (n : ℕ) :
    Answered ((State.clientRead U)^[n] s) k := by
  induction n generalizing s sent working replied with
  | zero => exact ha
  | succ n ih =>
    obtain ⟨_,h'⟩ := h.clientRead (U := U)
    exact ih (ha.clientRead h) h'

theorem Inv.answered_settle (h : Inv s sent working replied) (hta : s.task = .reading)
    (hs : ∀ line ∈ s.toClient, line.text.length ≤ limit) (hk : s.views[k]? = some (t,[])) (ht : t ∈ replied.map fst) :
    Answered (s.settle U) k := by
  induction replied generalizing s with
  | nil => cases ht
  | cons x replied ih =>
    have hl : s.toClient = implementJob x.1.line x.2 :: replied.map fun x => implementJob x.1.line x.2 := h.toClient
    obtain ⟨j,hr⟩ := h.delivers (U := U) hta (hs _ (hl ▸ mem_cons_self))
    have hn : Inv (s.clientRead U) sent working replied := hr.read ▸ h.put hr.place
    have hrest : (s.clientRead U).toClient = replied.map fun x => implementJob x.1.line x.2 := by
      rw [hr.read]
      rfl
    have hse : s.settle U = (s.clientRead U).settle U := by
      rw [State.settle,hl,State.settle,hrest]
      rfl
    rw [hse]
    by_cases hjk : j = k
    · subst hjk
      refine Answered.iterate ⟨(t,[x.2.answer x.1.1]),?_,cons_ne_nil _ _⟩ hn _
      rw [hr.views,getElem?_modify,hk]
      simp only [if_true]
      rfl
    · refine ih hn ?_ (fun line hmem => hs line ?_) ?_ ?_
      · rw [hr.read]
        exact hta
      · rw [hrest] at hmem
        rw [hl]
        exact mem_cons_of_mem _ hmem
      · rw [hr.views,getElem?_modify,hk]
        simp [hjk]
      · refine (mem_cons.1 ht).resolve_left fun heq => hjk ?_
        exact place_unique h.book.nodup hr.place hk (congrArg fst heq).symm

structure Kept (U : Unicode) (s : State) : Prop where
  short : ∀ line ∈ s.toClient, line.text.length ≤ limit
  task : s.task ≠ .crashed
  idle : s.task = .idle → s.views = []
  ended : s.task = .ended → s.closed = true ∧ s.toClient = []
  closed : s.closed = true → ∀ t, (t,[]) ∈ s.views → Replied U s t.1

theorem kept_start : Kept U .start := ⟨nofun,nofun,fun _ => rfl,nofun,nofun⟩

theorem Inv.ticket_of_replied (h : Inv s sent working replied) {id : ℤ} (hid : Replied U s id) :
    ∃ t ∈ replied.map fst, (t.1 : ℤ) = id := by
  obtain ⟨line,hl,a,ha⟩ := hid
  rw [h.toClient] at hl
  obtain ⟨x,hx,rfl⟩ := mem_map.1 hl
  rw [answer_implementJob] at ha
  exact ⟨x.1,mem_map_of_mem hx,congrArg fst (some.inj ha)⟩

theorem Kept.returns (hk : Kept U s) (h : Inv s sent working replied) : Returns U s := by
  refine returns_iff.2 fun k x hx hs => ?_
  obtain ⟨t,as⟩ := x
  by_cases has : as = []
  · subst has
    have hr : Replied U s t.1 := hs.elim (fun hc => hk.closed hc t (mem_of_getElem? hx)) id
    have ht : s.task = .reading := by
      cases ht : s.task with
      | reading => rfl
      | crashed => exact absurd ht hk.task
      | idle =>
        rw [hk.idle ht] at hx
        cases hx
      | ended =>
        obtain ⟨line,hl,_⟩ := hr
        rw [(hk.ended ht).2] at hl
        cases hl
    obtain ⟨t',ht',hid⟩ := h.ticket_of_replied hr
    have hw := h.pending.waits t' (mem_append_right _ (mem_append_right _ ht'))
    have heq : t' = t := congrArg fst (h.book.unique hw (mem_of_getElem? hx) (Int.ofNat_inj.1 hid))
    exact h.answered_settle ht hk.short hx (heq ▸ ht')
  · exact Answered.iterate ⟨(t,as),hx,has⟩ h _

theorem Inv.replied_delivers (h : Inv s sent working ((t,o) :: replied)) (hr : Delivers U s t o k replied) {id : ℤ}
    (hid : Replied U s id) (hne : (t.1 : ℤ) ≠ id) : Replied U (s.clientRead U) id := by
  obtain ⟨line,hl,a,ha⟩ := hid
  rw [h.toClient] at hl
  rcases mem_cons.1 hl with rfl | hl
  · rw [answer_implementJob] at ha
    exact absurd (congrArg fst (some.inj ha)) hne
  · refine ⟨line,?_,a,ha⟩
    rw [hr.read]
    exact hl

theorem Kept.clientRead (hk : Kept U s) (h : Inv s sent working replied) : Kept U (s.clientRead U) := by
  cases hta : s.task with
  | idle | ended | crashed =>
    have hr : s.clientRead U = s := by
      simp only [State.clientRead,hta]
    rw [hr]
    exact hk
  | reading =>
    cases replied with
    | nil =>
      have hl : s.toClient = [] := h.toClient
      have hr : s.clientRead U = if s.closed then { s with task := .ended } else s := by
        simp only [State.clientRead,hta,hl]
      rw [hr]
      split
      · exact ⟨hk.short,by simp,by simp,fun _ => ⟨‹_›,hl⟩,hk.closed⟩
      · exact hk
    | cons x replied =>
      have hl : s.toClient = implementJob x.1.line x.2 :: replied.map fun x => implementJob x.1.line x.2 := h.toClient
      obtain ⟨j,hr⟩ := h.delivers (U := U) hta (hk.short _ (hl ▸ mem_cons_self))
      have ht' : (s.clientRead U).task = .reading := by
        rw [hr.read]
        exact hta
      refine ⟨fun line hmem => hk.short line ?_,?_,?_,?_,fun hc t ht => ?_⟩
      · rw [hr.read] at hmem
        rw [hl]
        exact mem_cons_of_mem _ hmem
      · simp [ht']
      · simp [ht']
      · simp [ht']
      · rw [hr.views] at ht
        rcases (mem_push h.book hr.place _ _).1 ht with heq | ⟨ht,hne⟩
        · cases heq
        · rw [hr.read] at hc
          exact h.replied_delivers hr (hk.closed hc t ht) fun hid => hne (Int.ofNat_inj.1 hid).symm

/-- No step crashes the task, and after the end each waiting call has its reply in the stream. -/
theorem Kept.step (hk : Kept U s) (h : Inv s sent working replied) {st : Step} (hst : Keeps U s st) :
    Kept U (s.step U st) := by
  cases st with
  | run =>
    rw [State.step,State.run]
    split
    · exact hk
    · exact ⟨hk.short,by simp,by simp,by simp,hk.closed⟩
  | callServer m =>
    rw [State.step,State.callServer]
    split
    · rename_i hr
      split
      · exact ⟨hk.short,hk.task,hk.idle,hk.ended,hk.closed⟩
      · rename_i raw hra
        refine ⟨hk.short,hk.task,fun hi => ?_,hk.ended,fun hcl => ?_⟩
        · rw [show s.task = .idle from hi] at hr
          cases hr
        · exact absurd (Message.toStr_eq_ok.1 hra).1 (hst hcl hr)
    · exact hk
  | serverRead =>
    rw [State.step,State.serverRead]
    split
    · split <;> exact ⟨hk.short,hk.task,hk.idle,hk.ended,hk.closed⟩
    · exact hk
  | finish i o =>
    rw [State.step,State.finish]
    split
    · exact hk
    · rename_i line hl
      cases hcl : s.closed with
      | true => exact ⟨hk.short,hk.task,hk.idle,fun he => ⟨rfl,(hk.ended he).2⟩,fun _ => hk.closed hcl⟩
      | false =>
        refine ⟨fun line' hmem => ?_,hk.task,hk.idle,fun he => ?_,by simp⟩
        · rcases mem_append.1 hmem with hmem | hmem
          · exact hk.short line' hmem
          · rw [mem_singleton.1 hmem]
            exact hst line hl hcl
        · have := (hk.ended he).1
          rw [hcl] at this
          cases this
  | close =>
    refine ⟨hk.short,hk.task,hk.idle,fun he => ⟨rfl,(hk.ended he).2⟩,fun _ t ht => ?_⟩
    obtain ⟨c,hc,hvi⟩ := mem_map.1 ht
    obtain ⟨rfl,hw⟩ := mk.inj hvi
    exact hst c hc hw
  | clientRead => exact hk.clientRead h
  | resume k =>
    have hv := h.views_resume k
    exact ⟨hk.short,hk.task,hv ▸ hk.idle,hk.ended,hv ▸ hk.closed⟩

/-- A step that does not keep the condition leaves a call that waits for ever. -/
theorem Inv.lost (h : Inv s sent working replied) {st : Step} (hst : ¬ Keeps U s st) : ¬ Returns U (s.step U st) := by
  obtain ⟨_,_,_,h'⟩ := h.step (U := U) st
  cases st with
  | run | serverRead | clientRead | resume => exact absurd trivial hst
  | callServer m =>
    have hco : s.closed = true ∧ s.task.isRunning = true ∧ m.reqId = none := by
      simpa [Keeps] using hst
    obtain ⟨hcl,hr,hid⟩ := hco
    have hs : (s.callServer m).1 = s.send m (Ticket.line (s.counter + 1,m)) := by
      rw [State.callServer,if_pos hr,Message.toStr_eq_ok.2 ⟨hid,rfl⟩]
    rw [State.step,hs] at h' ⊢
    refine Stuck.not_returns (k := s.views.length) (t := (s.counter + 1,m)) ⟨?_,fun line hl a ha => ?_⟩ h' (.inl hcl)
    · rw [State.views_send]
      exact getElem?_concat_length
    · -- no reply has the new number
      obtain ⟨t,ht,hid⟩ := h.ticket_of_replied ⟨line,hl,a,ha⟩
      have hb : t.1 ≤ s.counter := h.book.bound _ (h.pending.waits t (mem_append_right _ (mem_append_right _ ht)))
      have : t.1 = s.counter + 1 := Int.ofNat_inj.1 hid
      omega
  | close =>
    have hco : ∃ c ∈ s.calls, c.Waiting ∧ ¬ Replied U s c.reqId := by
      simpa [Keeps] using hst
    obtain ⟨c,hc,hw,hnot⟩ := hco
    have hmem : (c.ticket,[]) ∈ s.views := mem_map.2 ⟨c,hc,Prod.ext rfl hw⟩
    obtain ⟨k,hk⟩ := mem_iff_getElem?.1 hmem
    exact Stuck.not_returns (k := k) ⟨hk,fun line hl a ha => absurd ⟨line,hl,a,ha⟩ hnot⟩ h' (.inl rfl)
  | finish i o =>
    have hco : ∃ line, s.jobs[i]? = some line ∧ s.closed = false ∧ limit < (implementJob line o).text.length := by
      simpa [Keeps] using hst
    obtain ⟨line,hl,hcl,hlo⟩ := hco
    have hj := hl
    rw [h.jobs,getElem?_map] at hj
    obtain ⟨t,hi,rfl⟩ := map_eq_some_iff.1 hj
    have hmem := mem_of_getElem? hi
    obtain ⟨k,hk⟩ := mem_iff_getElem?.1 (h.pending.waits t (mem_append_right _ (mem_append_left _ hmem)))
    have hp : (s.finish i o).toClient = s.toClient ++ [implementJob t.line o] := by
      simp only [State.finish,hl,hcl,Bool.false_eq_true,if_false]
    have hv : (s.finish i o).views = s.views := by
      simp only [State.finish,hl]
      rfl
    refine Stuck.not_returns (k := k) (t := t) ⟨?_,fun line hm' a ha => ?_⟩ h' (.inr ⟨_,?_,_,answer_implementJob t o⟩)
    · exact hv ▸ hk
    · change line ∈ (s.finish i o).toClient at hm'
      rw [hp] at hm'
      rcases mem_append.1 hm' with hm' | hm'
      · -- the other replies are to other calls
        obtain ⟨t',ht',hid⟩ := h.ticket_of_replied ⟨line,hm',a,ha⟩
        have hn := h.pending.nodup
        rw [map_append,map_append] at hn
        have hd := disjoint_of_nodup_append hn.of_append_right
        exact absurd (mem_map_of_mem ht') (Int.ofNat_inj.1 hid ▸ hd (mem_map_of_mem hmem))
      · rw [mem_singleton.1 hm']
        exact hlo
    · change _ ∈ (s.finish i o).toClient
      rw [hp]
      exact mem_append_right _ (mem_singleton_self _)

theorem Kept.follows_iff (hk : Kept U s) (h : Inv s sent working replied) (l : List Step) :
    Follows U s l ↔ KeepsAll U s l := by
  induction l generalizing s sent working replied with
  | nil => exact iff_of_true (hk.returns h) trivial
  | cons st l ih =>
    rw [Follows,KeepsAll,and_iff_right (hk.returns h)]
    by_cases hst : Keeps U s st
    · obtain ⟨_,_,_,h'⟩ := h.step (U := U) st
      rw [ih (hk.step h hst) h',and_iff_right hst]
    · refine iff_of_false (fun hf => h.lost hst ?_) fun ha => hst ha.1
      cases l with
      | nil => exact hf
      | cons => exact hf.1

end

/-- All calls return exactly if no reply is too long and no call waits for a service that ends. -/
theorem returns_iff_keeps (U : Unicode) (l : List Step) : Follows U .start l ↔ KeepsAll U .start l :=
  kept_start.follows_iff inv_start l

/-- The service ends while a call waits. -/
theorem call_waits : ¬ Follows .ascii .start [.run,.callServer (question "a"),.close] := by
  rintro ⟨_,_,_,hr⟩
  obtain ⟨c,hc,hnot⟩ := hr 0 ⟨1,question "a",[],none⟩ rfl (.inl rfl)
  cases hc
  exact hnot rfl

end Padsi.Comm
