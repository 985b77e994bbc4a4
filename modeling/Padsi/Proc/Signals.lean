import Padsi.Proc.Table

/-! # Whom signals reach

An entry stays in the table after its process was reaped, until its status is read, and
signals are sent to the PID of an entry in any state.
-/
namespace Padsi.Proc
open Python Runs List Function State

namespace State

def Free (s : State) (pid : ℕ) : Prop :=
  s.procs.get pid = none ∧ (∀ q ∈ s.posting, ∀ c ∈ q.child, c.pid ≠ pid) ∧ ∀ t ∈ s.restarts, ∀ c ∈ t.child, c.pid ≠ pid

/-- A new process gets a PID that is free in the table as well. -/
def Reserves (s : State) : Event → Prop
  | .spawn pid => s.Free pid
  | .fork pid => s.Free pid
  | .respawn _ pid => s.Free pid
  | _ => True

/-- The PID stands for this process, or for none. -/
def Stands (s : State) (pid birth : ℕ) : Prop := ∀ t, s.tasks pid = some t → t.birth = birth

structure Addressed (s : State) : Prop where
  entry : ∀ pid p, s.procs.get pid = some p → p.pid = pid ∧ s.Stands pid p.birth
  posting : ∀ q c, s.posting = some q → q.child = some c → s.Stands c.pid c.birth
  restarting : ∀ t ∈ s.restarts, ∀ c, t.child = some c → s.Stands c.pid c.birth
  kills : ∀ k ∈ s.kills, ∀ birth, k.target = some birth → birth = k.entry

variable {s : State} {pid birth : ℕ}

theorem addressed_start : start.Addressed where
  entry pid p hp := by cases hp
  posting q c hq := by cases hq
  restarting t ht := by cases ht
  kills k hk := by cases hk

theorem Stands.killOf {p : Process} (h : s.Stands p.pid p.birth) (hb : (s.killOf p).target = some birth) :
    birth = (s.killOf p).entry := by
  obtain ⟨t,ht,rfl⟩ := Option.map_eq_some_iff.1 hb
  exact h t ht

theorem Addressed.moved {tasks : ℕ → Option Task} {births : ℕ} {reaping : Option Reaped} {consumed : List (ℕ × Exit)}
    (h : s.Addressed)
    (hta : ∀ pid t, ¬ s.Free pid → tasks pid = some t → ∃ t', s.tasks pid = some t' ∧ t'.birth = t.birth) :
    { s with tasks := tasks, births := births, reaping := reaping, consumed := consumed }.Addressed := by
  have hst : ∀ pid birth, ¬ s.Free pid → s.Stands pid birth →
      { s with tasks := tasks, births := births, reaping := reaping, consumed := consumed }.Stands pid birth := by
    intro pid birth hfr hs t ht
    obtain ⟨t',ht',hb⟩ := hta pid t hfr ht
    rw [← hb]
    exact hs t' ht'
  refine ⟨fun pid p hp => ⟨(h.entry pid p hp).1,hst _ _ (fun hf => ?_) (h.entry pid p hp).2⟩,
    fun q c hq hc => hst _ _ (fun hf => hf.2.1 q hq c hc rfl) (h.posting q c hq hc),
    fun t ht c hc => hst _ _ (fun hf => hf.2.2 t ht c hc rfl) (h.restarting t ht c hc),h.kills⟩
  rw [hf.1] at hp
  cases hp

theorem Addressed.birthAt {ours : Bool} (h : s.Addressed) (hfr : s.Free pid) : (s.birthAt pid ours).Addressed := by
  refine h.moved fun pid' t hf ht => ?_
  have hne : pid' ≠ pid := by
    rintro rfl
    exact hf hfr
  rw [update_of_ne hne] at ht
  exact ⟨t,ht,rfl⟩

theorem stands_birthAt {ours : Bool} : (s.birthAt pid ours).Stands pid s.births := by
  intro t ht
  simp only [birthAt,update_self,Option.some.injEq] at ht
  rw [← ht]

theorem Addressed.freed {reaping : Option Reaped} {consumed : List (ℕ × Exit)} (h : s.Addressed) (pid : ℕ) :
    { s with tasks := update s.tasks pid none, reaping := reaping, consumed := consumed }.Addressed := by
  refine h.moved fun pid' t _ ht => ?_
  by_cases hp : pid' = pid
  · rw [hp,update_self] at ht
    cases ht
  · rw [update_of_ne hp] at ht
    exact ⟨t,ht,rfl⟩

theorem Addressed.exit (h : s.Addressed) {b : ℕ} {e : Exit} {ours : Bool} (ht : s.tasks pid = some ⟨b,none,ours⟩) :
    { s with tasks := update s.tasks pid (some ⟨b,some e,ours⟩) }.Addressed := by
  refine h.moved fun pid' t _ ht' => ?_
  by_cases hp : pid' = pid
  · rw [hp,update_self] at ht'
    cases ht'
    exact ⟨⟨b,none,ours⟩,by rw [hp]; exact ht,rfl⟩
  · rw [update_of_ne hp] at ht'
    exact ⟨t,ht',rfl⟩

theorem Addressed.withPosting (h : s.Addressed) (q : Option Posting)
    (hq : ∀ q' ∈ q, ∀ c ∈ q'.child, s.Stands c.pid c.birth) : { s with posting := q }.Addressed :=
  ⟨h.entry,fun q' c hq' hc => hq q' hq' c hc,h.restarting,h.kills⟩

theorem Addressed.withRestarts (h : s.Addressed) (ts : List Restart)
    (hts : ∀ t ∈ ts, ∀ c, t.child = some c → s.Stands c.pid c.birth) : { s with restarts := ts }.Addressed :=
  ⟨h.entry,h.posting,hts,h.kills⟩

theorem Addressed.set (h : s.Addressed) (p : Process) (hp : s.Stands p.pid p.birth) (managed : List ℕ)
    (recorded : List (ℕ × ProcessState)) :
    { s with procs := s.procs.set p.pid p, managed := managed, recorded := recorded }.Addressed := by
  refine ⟨fun pid p' hp' => ?_,h.posting,h.restarting,h.kills⟩
  simp only [Dict.get_set] at hp'
  split at hp'
  · rename_i hpi
    cases hp'
    rw [hpi]
    exact ⟨rfl,hp⟩
  · exact h.entry pid p' hp'

theorem Addressed.erase (h : s.Addressed) (pid : ℕ) : { s with procs := s.procs.erase pid }.Addressed := by
  refine ⟨fun pid' p hp => ?_,h.posting,h.restarting,h.kills⟩
  simp only [Dict.get_erase] at hp
  split at hp
  · cases hp
  · exact h.entry pid' p hp

theorem Addressed.withKills (h : s.Addressed) (ps : List Process) (hps : ∀ p ∈ ps, s.Stands p.pid p.birth)
    (down : Bool) : { s with kills := s.kills ++ ps.map s.killOf, down := down }.Addressed := by
  refine ⟨h.entry,h.posting,h.restarting,fun k hk birth hb => ?_⟩
  rcases mem_append.1 hk with hk | hk
  · exact h.kills k hk birth hb
  · obtain ⟨p,hp,rfl⟩ := mem_map.1 hk
    exact (hps p hp).killOf hb

theorem Addressed.stands (h : s.Addressed) {p : Process} (hp : s.procs.get pid = some p) : s.Stands p.pid p.birth := by
  obtain ⟨hk,hs⟩ := h.entry pid p hp
  rw [hk]
  exact hs

theorem Addressed.shutdown (h : s.Addressed) : s.shutdown.Addressed := by
  have hk := h.withKills (s.procs.entries.map Prod.snd) (fun p hp => ?_) true
  · rw [map_map] at hk
    exact hk
  · obtain ⟨⟨pid,p⟩,hmem,rfl⟩ := mem_map.1 hp
    exact h.stands (Dict.mem_entries_iff.1 hmem)

theorem Addressed.record (h : s.Addressed) {p : Process} (hp : s.procs.get pid = some p) (e : Exit) :
    (s.record e p).Addressed := by
  have hs : s.Stands p.pid p.birth := h.stands hp
  have hse := h.set { p with state := e.state } hs s.managed (s.recorded ++ [(p.birth,e.state)])
  unfold State.record
  dsimp only
  split
  · exact hse.shutdown
  · unfold mayRestartProcess
    split
    · refine hse.withRestarts _ fun t ht c hc => ?_
      rcases mem_append.1 ht with ht | ht
      · exact hse.restarting t ht c hc
      · rw [mem_singleton.1 ht] at hc
        cases hc
    · exact hse

theorem Addressed.reapWith (h : s.Addressed) (r : Reaped) : (s.reapWith r).Addressed := by
  have hr : { s with reaping := none, consumed := s.consumed ++ [(r.birth,r.exit)] }.Addressed :=
    ⟨h.entry,h.posting,h.restarting,h.kills⟩
  unfold State.reapWith
  dsimp only
  split
  · exact hr
  · rename_i p hp
    exact hr.record hp r.exit

variable {known : ℕ → Bool}

/-- Only `fork` could give a PID of the table to another process, which `Reserves` excludes. -/
theorem Addressed.act (ev : Event) (h : s.Addressed) (hok : s.Reserves ev) : (s.act known ev).Addressed := by
  have hu : { s with posting := none }.Addressed := h.withPosting none (by rintro q hq; cases hq)
  cases ev with
  | lock required restart ignoreStatus =>
    rw [State.act]
    split
    · exact h
    · refine h.withPosting _ ?_
      rintro q hq c hc
      cases hq
      cases hc
  | spawn pid =>
    rw [State.act]
    split
    · refine (h.birthAt hok).withPosting _ ?_
      rintro q hq c hc
      cases hq
      cases hc
      exact stands_birthAt
    · exact h
  | startFails => exact hu
  | started now =>
    rw [State.act]
    split
    · rename_i spec c hq
      exact hu.set ⟨spec.started now,now,c.pid,.running,c.birth⟩ (h.posting _ c hq rfl) _ _
    · exact hu
    · exact h
  | fork pid =>
    rw [State.act]
    split
    · exact h.birthAt hok
    · exact h
  | exit pid e =>
    rw [State.act]
    split
    · rename_i ht
      exact h.exit ht
    · exact h
  | vanish pid =>
    rw [State.act]
    split
    · exact h.freed pid
    · exact h
  | wait pid =>
    rw [State.act]
    split
    · unfold waitFor
      dsimp only
      split
      · exact h.freed pid
      · exact h.freed pid
    · exact h
  | reap =>
    rw [State.act]
    split
    · exact h.reapWith _
    · exact h
  | respawn i pid =>
    rw [State.act]
    split
    · refine (h.birthAt hok).withRestarts _ fun t ht c hc => ?_
      rcases mem_or_eq_of_mem_set ht with ht | rfl
      · exact (h.birthAt hok).restarting t ht c hc
      · cases hc
        exact stands_birthAt
    · exact h
  | restartFails i => exact h.withRestarts _ fun t ht => h.restarting t (mem_of_mem_eraseIdx ht)
  | restarted i now =>
    rw [State.act]
    split
    · rename_i spec currentPid c _ hi
      have hch := h.restarting _ (mem_of_getElem? hi) c rfl
      have hs := (h.erase currentPid).set ⟨spec.started now,now,c.pid,.running,
        c.birth⟩ hch (s.managed ++ [c.birth]) s.recorded
      exact hs.withRestarts _ fun t ht => hs.restarting t (mem_of_mem_eraseIdx ht)
    · exact h
  | getStatus pid =>
    rw [State.act]
    split
    · split
      · exact h
      · exact h.erase pid
    · exact h
  | signal pid =>
    rw [State.act]
    split
    · rename_i p _ hp
      refine h.withKills [p] (fun p' hp' => ?_) s.down
      rw [mem_singleton.1 hp']
      exact h.stands hp
    · exact h

/-- Every signal is received by the process of the entry it is sent for, or by none. -/
def ReachesOwn (s : State) : Prop := ∀ k ∈ s.kills, ∀ birth, k.target = some birth → birth = k.entry

/-- Over every history in which the kernel gives no PID again that the table has. -/
theorem reachesOwn_of_reserves (known : ℕ → Bool) (evs : List Event) (h : Along (step known) Reserves .start evs) :
    (State.start.run known evs).ReachesOwn := by
  have ha : (start.run known evs).Addressed :=
    h.keeps (fun _ ev hs hok => step_keeps (fun hs => hs.act ev hok) hs) addressed_start
  exact ha.kills

instance decidableReserves (ev : Event) : Decidable (s.Reserves ev) := by
  induction ev using Event.casesOn <;> dsimp only [Reserves,Free] <;> infer_instance

def requiredEnds : List Event :=
  [.lock false false false,.spawn 10,.started 100,.exit 10 (.code 0),.wait 10,.reap,.signal 10,.getStatus 10,
    .lock true false false,.spawn 10,.started 101,.lock false false false,.spawn 11,.started 102,.signal 11,
    .exit 10 (.code 1),.wait 10,.reap]

theorem requiredEnds_reachesOwn :
    Along (step fun _ => true) Reserves .start requiredEnds ∧
      (State.start.run (fun _ => true) requiredEnds).ReachesOwn :=
  have h : Along (step fun _ => true) Reserves .start requiredEnds := by decide
  ⟨h,reachesOwn_of_reserves _ requiredEnds h⟩

/-- `DELETE /procs` for an entry whose process has ended, and whose PID is that of another process by then. -/
def lateDelete : List Event :=
  [.lock false false false,.spawn 10,.started 100,.exit 10 (.code 0),.wait 10,.reap,.fork 10,.signal 10]

theorem lateDelete_reaches_another : ¬ (State.start.run (fun _ => true) lateDelete).ReachesOwn := by
  intro h
  have hk : (start.run (fun _ => true) lateDelete).kills = [⟨0,some 1⟩] := by decide
  have hs := h ⟨0,some 1⟩ (by rw [hk]; exact mem_singleton_self _) 1 rfl
  exact absurd hs (by decide)

end State

end Padsi.Proc
