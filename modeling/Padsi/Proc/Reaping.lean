import Padsi.Proc.Table

/-! # Exits that reach the table

A restart starts its process without the lock: when the exit comes before the entry,
nobody records it. The reuse of a PID that the table still has, and a signal without a
name, are the other things that can go wrong.
-/
namespace Padsi.Proc
open Python Runs List Function Dict

namespace State

def Unconsumed (s : State) (birth : ℕ) : Prop := ∀ e, (birth,e) ∉ s.consumed
def recordsOf (s : State) (birth : ℕ) : List ProcessState := (s.recorded.filter (·.1 = birth)).map Prod.snd

/-- No entry shows a process as running whose exit was handled, and each exit is recorded once. -/
structure Truthful (s : State) : Prop where
  alive : ∀ pid p, s.procs.get pid = some p → p.state = .running → s.Unconsumed p.birth
  once : ∀ birth ∈ s.managed, ∀ e, (birth,e) ∈ s.consumed → s.recordsOf birth = [e.state]
  notBefore : ∀ birth ∈ s.managed, s.Unconsumed birth → s.recordsOf birth = []

/-- A PID that neither the table, nor the reaper, nor a restart has any more. -/
def Unused (s : State) (pid : ℕ) : Prop :=
  s.procs.get pid = none ∧ (∀ r ∈ s.reaping, r.pid ≠ pid) ∧ ∀ t ∈ s.restarts, t.currentPid ≠ pid

/-- The steps that cannot mislead the reaper. -/
def Orderly (known : ℕ → Bool) (s : State) : Event → Prop
  | .spawn pid => s.Unused pid
  | .fork pid => s.Unused pid
  | .respawn _ pid => s.Unused pid
  | .exit pid e => ∀ t ∈ s.tasks pid, t.ours = true → e.heard known = true
  | .reap => ∀ r ∈ s.reaping, ∀ t ∈ s.restarts, ∀ c ∈ t.child, c.birth ≠ r.birth
  | _ => True

def Occupies (s : State) (pid birth : ℕ) : Prop :=
  (∃ t, s.tasks pid = some t ∧ t.birth = birth) ∨ ∃ r, s.reaping = some r ∧ r.pid = pid ∧ r.birth = birth

def Owned (s : State) (pid birth : ℕ) : Prop :=
  (∃ t, s.tasks pid = some t ∧ t.birth = birth ∧ t.ours = true) ∨ ∃ r, s.reaping = some r ∧ r.pid = pid ∧
    r.birth = birth

def Vacant (s : State) (pid : ℕ) : Prop := ∀ birth, ¬ s.Occupies pid birth

variable {s : State} {pid birth : ℕ}

theorem Owned.occupies (h : s.Owned pid birth) : s.Occupies pid birth := by
  rcases h with ⟨t,ht,hb,-⟩ | h
  · exact .inl ⟨t,ht,hb⟩
  · exact .inr h

structure Sound (known : ℕ → Bool) (s : State) : Prop where
  fresh : ∀ pid birth, s.Occupies pid birth → birth < s.births ∧ s.Unconsumed birth
  place : ∀ pid pid' birth, s.Occupies pid birth → s.Occupies pid' birth → pid = pid'
  freed : ∀ r, s.reaping = some r → s.tasks r.pid = none
  past : ∀ c ∈ s.consumed, c.1 < s.births
  single : ∀ birth e e', (birth,e) ∈ s.consumed → (birth,e') ∈ s.consumed → e = e'
  heard : ∀ pid t e, s.tasks pid = some t → t.ours = true → t.exit = some e → e.heard known = true

structure Kept (s : State) : Prop where
  posting : ∀ q c, s.posting = some q → q.child = some c → s.Owned c.pid c.birth
  restarting : ∀ t ∈ s.restarts, s.Vacant t.currentPid ∧ ∀ c, t.child = some c → s.Owned c.pid c.birth
  entry : ∀ pid p, s.procs.get pid = some p →
    p.pid = pid ∧ (p.state = .running → s.Owned pid p.birth) ∧ (p.state ≠ .running → s.Vacant pid)
  blank : ∀ birth, s.Unconsumed birth → s.recordsOf birth = []
  managed : ∀ birth ∈ s.managed, (∃ e, (birth,e) ∈ s.consumed ∧ s.recordsOf birth = [e.state]) ∨
    ∃ pid p, s.procs.get pid = some p ∧ p.birth = birth ∧ p.state = .running

variable {known : ℕ → Bool}

theorem Sound.occupant (h : Sound known s) {birth' : ℕ} (hb : s.Occupies pid birth) (hb' : s.Occupies pid birth') :
    birth = birth' := by
  rcases hb with ⟨t,ht,rfl⟩ | ⟨r,hr,rfl,rfl⟩
  · rcases hb' with ⟨t',ht',rfl⟩ | ⟨r,hr,rfl,-⟩
    · rw [ht] at ht'
      cases ht'
      rfl
    · rw [h.freed r hr] at ht
      cases ht
  · rcases hb' with ⟨t,ht,-⟩ | ⟨r',hr',-,rfl⟩
    · rw [h.freed r hr] at ht
      cases ht
    · rw [hr] at hr'
      cases hr'
      rfl

theorem Sound.truthful (h : Sound known s) (hk : s.Kept) : s.Truthful where
  alive pid p hp hr := (h.fresh _ _ ((hk.entry pid p hp).2.1 hr).occupies).2
  once birth hb e he := by
    rcases hk.managed birth hb with ⟨e',he',hre⟩ | ⟨pid,p,hp,rfl,hr⟩
    · rw [h.single birth e e' he he']
      exact hre
    · exact absurd he ((h.fresh _ _ ((hk.entry pid p hp).2.1 hr).occupies).2 e)
  notBefore birth _ hb := hk.blank birth hb

def Noted (s : State) (pid : ℕ) : Prop := (∃ p, s.procs.get pid = some p) ∨ ∃ t ∈ s.restarts, t.currentPid = pid

/-- The table stays right when processes keep their PIDs and no PID it has is given again. -/
theorem Kept.moved {tasks : ℕ → Option Task} {births : ℕ} {reaping : Option Reaped} (hk : s.Kept)
    (ho : ∀ pid birth, s.Owned pid birth →
      { s with tasks := tasks, births := births, reaping := reaping }.Owned pid birth)
    (hv : ∀ pid, s.Noted pid → s.Vacant pid →
      { s with tasks := tasks, births := births, reaping := reaping }.Vacant pid) :
    { s with tasks := tasks, births := births, reaping := reaping }.Kept where
  posting q c hq hc := ho _ _ (hk.posting q c hq hc)
  restarting t ht :=
    ⟨hv _ (.inr ⟨t,ht,rfl⟩) (hk.restarting t ht).1,fun c hc => ho _ _ ((hk.restarting t ht).2 c hc)⟩
  entry pid p hp := by
    obtain ⟨hpi,hr,he⟩ := hk.entry pid p hp
    exact ⟨hpi,fun h => ho _ _ (hr h),fun h => hv _ (.inl ⟨p,hp⟩) (he h)⟩
  blank := hk.blank
  managed := hk.managed

section
variable {ours : Bool}

theorem occupies_birthAt {pid' : ℕ} (h : (s.birthAt pid ours).Occupies pid' birth) :
    s.Occupies pid' birth ∨ (pid' = pid ∧ birth = s.births) := by
  rcases h with ⟨t,ht,rfl⟩ | h
  · simp only [birthAt] at ht
    by_cases hp : pid' = pid
    · subst hp
      rw [update_self] at ht
      cases ht
      exact .inr ⟨rfl,rfl⟩
    · rw [update_of_ne hp] at ht
      exact .inl (.inl ⟨t,ht,rfl⟩)
  · exact .inl (.inr h)

theorem Owned.birthAt {pid' : ℕ} (ht : s.tasks pid = none) (h : s.Owned pid' birth) :
    (s.birthAt pid ours).Owned pid' birth := by
  rcases h with ⟨t,ht',hb⟩ | h
  · refine .inl ⟨t,?_,hb⟩
    have hne : pid' ≠ pid := by
      rintro rfl
      rw [ht] at ht'
      cases ht'
    simp only [State.birthAt,update_of_ne hne]
    exact ht'
  · exact .inr h

theorem owned_birthAt : (s.birthAt pid true).Owned pid s.births :=
  .inl ⟨_,update_self .., rfl,rfl⟩

theorem Sound.birthAt (h : Sound known s) (hu : s.Unused pid) (ht : s.tasks pid = none) :
    Sound known (s.birthAt pid ours) where
  fresh pid' birth ho := by
    rcases occupies_birthAt ho with ho | ⟨-,rfl⟩
    · obtain ⟨hlt,hun⟩ := h.fresh _ _ ho
      exact ⟨Nat.lt_succ_of_lt hlt,hun⟩
    · exact ⟨Nat.lt_succ_self _,fun e he => absurd (h.past _ he) (Nat.lt_irrefl _)⟩
  place pid₁ pid₂ birth h₁ h₂ := by
    rcases occupies_birthAt h₁ with h₁ | ⟨rfl,rfl⟩
    · rcases occupies_birthAt h₂ with h₂ | ⟨-,rfl⟩
      · exact h.place _ _ _ h₁ h₂
      · exact absurd (h.fresh _ _ h₁).1 (Nat.lt_irrefl _)
    · rcases occupies_birthAt h₂ with h₂ | ⟨rfl,-⟩
      · exact absurd (h.fresh _ _ h₂).1 (Nat.lt_irrefl _)
      · rfl
  freed r hr := by
    simp only [State.birthAt,update_of_ne (hu.2.1 r hr)]
    exact h.freed r hr
  past c hc := Nat.lt_succ_of_lt (h.past c hc)
  single := h.single
  heard pid' t e ht' hou hex := by
    simp only [State.birthAt] at ht'
    by_cases hp : pid' = pid
    · subst hp
      rw [update_self] at ht'
      cases ht'
      cases hex
    · rw [update_of_ne hp] at ht'
      exact h.heard pid' t _ ht' hou hex

theorem Kept.birthAt (hk : s.Kept) (hu : s.Unused pid) (ht : s.tasks pid = none) : (s.birthAt pid ours).Kept := by
  refine hk.moved (fun _ _ h => h.birthAt ht) fun pid' hn hv birth ho => ?_
  rcases occupies_birthAt ho with ho | ⟨rfl,-⟩
  · exact hv birth ho
  · rcases hn with ⟨p,hp⟩ | ⟨t,ht,hpi⟩
    · rw [hu.1] at hp
      cases hp
    · exact hu.2.2 t ht hpi

end

variable {b pid' : ℕ} {e : Exit} {ours : Bool} {t : Task} {r : Reaped} {p : Process}

theorem occupies_exit (ht : s.tasks pid = some ⟨b,none,ours⟩) :
    { s with tasks := update s.tasks pid (some ⟨b,some e,ours⟩) }.Occupies pid' birth ↔ s.Occupies pid' birth := by
  unfold Occupies
  by_cases hp : pid' = pid
  · subst hp
    simp [ht]
  · simp [update_of_ne hp]

theorem owned_exit (ht : s.tasks pid = some ⟨b,none,ours⟩) :
    { s with tasks := update s.tasks pid (some ⟨b,some e,ours⟩) }.Owned pid' birth ↔ s.Owned pid' birth := by
  unfold Owned
  by_cases hp : pid' = pid
  · subst hp
    simp [ht]
  · simp [update_of_ne hp]

theorem Sound.exit (h : Sound known s) (ht : s.tasks pid = some ⟨b,none,ours⟩)
    (hk : ours = true → e.heard known = true) :
    Sound known { s with tasks := update s.tasks pid (some ⟨b,some e,ours⟩) } where
  fresh pid' birth hoc := h.fresh _ _ ((occupies_exit ht).1 hoc)
  place pid₁ pid₂ birth h₁ h₂ := h.place _ _ _ ((occupies_exit ht).1 h₁) ((occupies_exit ht).1 h₂)
  freed r hr := by
    have hnone := h.freed r hr
    have hne : r.pid ≠ pid := by
      rintro rfl
      rw [hnone] at ht
      cases ht
    simpa only [update_of_ne hne] using hnone
  past := h.past
  single := h.single
  heard pid' t e' ht' ho he := by
    by_cases hp : pid' = pid
    · subst hp
      simp only [update_self,Option.some.injEq] at ht'
      subst ht'
      rw [← Option.some.inj he]
      exact hk ho
    · simp only [update_of_ne hp] at ht'
      exact h.heard pid' t _ ht' ho he

theorem Kept.exit (hk : s.Kept) (ht : s.tasks pid = some ⟨b,none,ours⟩) :
    { s with tasks := update s.tasks pid (some ⟨b,some e,ours⟩) }.Kept :=
  hk.moved (fun _ _ => (owned_exit ht).2) fun _ _ hv birth ho => hv birth ((occupies_exit ht).1 ho)

def freeAt (s : State) (pid : ℕ) : State := { s with tasks := update s.tasks pid none }

theorem tasks_freeAt (h : (s.freeAt pid).tasks pid' = some t) : pid' ≠ pid ∧ s.tasks pid' = some t := by
  have hne : pid' ≠ pid := by
    rintro rfl
    simp [freeAt] at h
  simp only [freeAt,update_of_ne hne] at h
  exact ⟨hne,h⟩

theorem occupies_freeAt (h : (s.freeAt pid).Occupies pid' birth) : s.Occupies pid' birth := by
  rcases h with ⟨t,ht,hb⟩ | h
  · exact .inl ⟨t,(tasks_freeAt ht).2,hb⟩
  · exact .inr h

theorem Owned.freeAt {e : Option Exit} (ht : s.tasks pid = some ⟨b,e,false⟩) (h : s.Owned pid' birth) :
    (s.freeAt pid).Owned pid' birth := by
  rcases h with ⟨t,ht',hb,ho⟩ | h
  · have hne : pid' ≠ pid := by
      rintro rfl
      rw [ht] at ht'
      cases ht'
      cases ho
    refine .inl ⟨t,?_,hb,ho⟩
    simp only [State.freeAt,update_of_ne hne]
    exact ht'
  · exact .inr h

theorem Sound.freeAt (h : Sound known s) : Sound known (s.freeAt pid) where
  fresh _ _ ho := h.fresh _ _ (occupies_freeAt ho)
  place _ _ _ h₁ h₂ := h.place _ _ _ (occupies_freeAt h₁) (occupies_freeAt h₂)
  freed r hr := by
    cases hop : (s.freeAt pid).tasks r.pid with
    | none => rfl
    | some t =>
      have hs := (tasks_freeAt hop).2
      rw [h.freed r hr] at hs
      cases hs
  past := h.past
  single := h.single
  heard _ _ _ ht := h.heard _ _ _ (tasks_freeAt ht).2

theorem Kept.freeAt (hk : s.Kept) {e : Option Exit} (ht : s.tasks pid = some ⟨b,e,false⟩) : (s.freeAt pid).Kept :=
  hk.moved (fun _ _ h => h.freeAt ht) fun _ _ hv birth ho => hv birth (occupies_freeAt ho)

theorem occupies_taken (hr : s.reaping = none) (ht : s.tasks pid = some t) (hb : t.birth = b) :
    { s.freeAt pid with reaping := some ⟨pid,b,e⟩ }.Occupies pid' birth ↔ s.Occupies pid' birth := by
  unfold Occupies State.freeAt
  by_cases hp : pid' = pid
  · subst hp
    simp [ht,hr,hb]
  · simp [update_of_ne hp,hr,Ne.symm hp]

theorem Owned.taken (hr : s.reaping = none) (ht : s.tasks pid = some t) (hb : t.birth = b)
    (h : s.Owned pid' birth) : { s.freeAt pid with reaping := some ⟨pid,b,e⟩ }.Owned pid' birth := by
  rcases h with ⟨t',ht',rfl,ho⟩ | ⟨r,hr',-⟩
  · by_cases hp : pid' = pid
    · subst hp
      rw [ht] at ht'
      cases ht'
      exact .inr ⟨_,rfl,rfl,hb.symm⟩
    · refine .inl ⟨t',?_,rfl,ho⟩
      simp only [State.freeAt,update_of_ne hp]
      exact ht'
  · rw [hr] at hr'
    cases hr'

theorem Sound.taken (h : Sound known s) (hr : s.reaping = none) (ht : s.tasks pid = some t)
    (hb : t.birth = b) : Sound known { s.freeAt pid with reaping := some ⟨pid,b,e⟩ } where
  fresh _ _ ho := h.fresh _ _ ((occupies_taken hr ht hb).1 ho)
  place _ _ _ h₁ h₂ := h.place _ _ _ ((occupies_taken hr ht hb).1 h₁) ((occupies_taken hr ht hb).1 h₂)
  freed r hr' := by
    simp only [Option.some.injEq] at hr'
    subst hr'
    exact update_self ..
  past := h.past
  single := h.single
  heard _ _ _ ht' := h.heard _ _ _ (tasks_freeAt ht').2

theorem Kept.taken (hk : s.Kept) (hr : s.reaping = none) (ht : s.tasks pid = some t)
    (hb : t.birth = b) : { s.freeAt pid with reaping := some ⟨pid,b,e⟩ }.Kept :=
  hk.moved (fun _ _ h => h.taken hr ht hb) fun _ _ hv birth ho => hv birth ((occupies_taken hr ht hb).1 ho)

theorem Sound.consume (h : Sound known s) (hlt : b < s.births) (hun : s.Unconsumed b)
    (hg : ∀ pid, ¬ s.Occupies pid b) : Sound known { s with consumed := s.consumed ++ [(b,e)] } where
  fresh pid birth ho := by
    obtain ⟨hl',hu'⟩ := h.fresh pid birth ho
    refine ⟨hl',fun e' he' => ?_⟩
    rcases mem_append.1 he' with he' | he'
    · exact hu' e' he'
    · obtain ⟨rfl,-⟩ := Prod.mk.inj (mem_singleton.1 he')
      exact hg pid ho
  place := h.place
  freed := h.freed
  past c hc := by
    rcases mem_append.1 hc with hc | hc
    · exact h.past c hc
    · rw [mem_singleton.1 hc]
      exact hlt
  single birth e₁ e₂ h₁ h₂ := by
    rcases mem_append.1 h₁ with g₁ | g₁ <;> rcases mem_append.1 h₂ with g₂ | g₂
    · exact h.single birth e₁ e₂ g₁ g₂
    · obtain ⟨rfl,-⟩ := Prod.mk.inj (mem_singleton.1 g₂)
      exact absurd g₁ (hun e₁)
    · obtain ⟨rfl,-⟩ := Prod.mk.inj (mem_singleton.1 g₁)
      exact absurd g₂ (hun e₂)
    · rw [(Prod.mk.inj (mem_singleton.1 g₁)).2,(Prod.mk.inj (mem_singleton.1 g₂)).2]
  heard := h.heard

theorem Unconsumed.of_append {cs : List (ℕ × Exit)} (h : { s with consumed := s.consumed ++ cs }.Unconsumed birth) :
    s.Unconsumed birth :=
  fun e he => h e (mem_append_left cs he)

theorem Kept.consume (hk : s.Kept) (b : ℕ) (e : Exit) : { s with consumed := s.consumed ++ [(b,e)] }.Kept where
  posting := hk.posting
  restarting := hk.restarting
  entry := hk.entry
  blank birth hun := hk.blank birth hun.of_append
  managed birth hb := by
    rcases hk.managed birth hb with ⟨e',he',hr⟩ | hru
    · exact .inl ⟨e',mem_append_left _ he',hr⟩
    · exact .inr hru

theorem Kept.withPosting (hk : s.Kept) (q : Option Posting) (hq : ∀ q' ∈ q, ∀ c ∈ q'.child, s.Owned c.pid c.birth) :
    { s with posting := q }.Kept where
  posting q' c hq' hc := hq q' hq' c hc
  restarting := hk.restarting
  entry := hk.entry
  blank := hk.blank
  managed := hk.managed

theorem Kept.withRestarts (hk : s.Kept) (ts : List Restart)
    (hts : ∀ t ∈ ts, s.Vacant t.currentPid ∧ ∀ c, t.child = some c → s.Owned c.pid c.birth) :
    { s with restarts := ts }.Kept where
  posting := hk.posting
  restarting := hts
  entry := hk.entry
  blank := hk.blank
  managed := hk.managed

theorem get_insert_self {spec : ProcessSpec} {c : Child} {now : UInt64} :
    (s.insert spec c now).procs.get c.pid = some ⟨spec.started now,now,c.pid,.running,c.birth⟩ :=
  (get_set ..).trans (if_pos rfl)

theorem Kept.insert (hk : s.Kept) (h : Sound known s) {c : Child} (hc : s.Owned c.pid c.birth)
    (spec : ProcessSpec) (now : UInt64) : (s.insert spec c now).Kept where
  posting := hk.posting
  restarting := hk.restarting
  entry pid p hp := by
    simp only [State.insert,get_set] at hp
    split at hp
    · rename_i hpi
      cases hp
      exact ⟨hpi.symm,fun _ => hpi.symm ▸ hc,fun hne => absurd rfl hne⟩
    · exact hk.entry pid p hp
  blank := hk.blank
  managed birth hb := by
    rcases mem_append.1 hb with hb | hb
    · rcases hk.managed birth hb with hd | ⟨pid,p,hp,rfl,hr⟩
      · exact .inl hd
      · by_cases hpi : pid = c.pid
        · -- the PID has one process, so the entry that is replaced is of the same process
          subst hpi
          have hs := h.occupant ((hk.entry _ p hp).2.1 hr).occupies hc.occupies
          exact .inr ⟨c.pid,_,get_insert_self,hs.symm,rfl⟩
        · refine .inr ⟨pid,p,?_,rfl,hr⟩
          simp only [State.insert,get_set,if_neg hpi]
          exact hp
    · rw [mem_singleton.1 hb]
      exact .inr ⟨c.pid,_,get_insert_self,rfl,rfl⟩

theorem Kept.erase (hk : s.Kept) (he : ∀ p, s.procs.get pid = some p → p.state ≠ .running) :
    { s with procs := s.procs.erase pid }.Kept where
  posting := hk.posting
  restarting := hk.restarting
  entry pid' p hp := by
    simp only [get_erase] at hp
    split at hp
    · cases hp
    · exact hk.entry pid' p hp
  blank := hk.blank
  managed birth hb := by
    rcases hk.managed birth hb with hd | ⟨pid',p,hp,hpb,hr⟩
    · exact .inl hd
    · refine .inr ⟨pid',p,?_,hpb,hr⟩
      have hne : pid' ≠ pid := by
        rintro rfl
        exact he p hp hr
      simp only [get_erase,if_neg hne]
      exact hp

theorem Sound.erase (h : Sound known s) (pid : ℕ) : Sound known { s with procs := s.procs.erase pid } :=
  ⟨h.fresh,h.place,h.freed,h.past,h.single,h.heard⟩

theorem occupies_released (h : Sound known s) (hr : s.reaping = some r) :
    { s with reaping := none }.Occupies pid' birth ↔ s.Occupies pid' birth ∧ birth ≠ r.birth := by
  constructor
  · rintro (⟨t,ht,rfl⟩ | ⟨r',hr',-⟩)
    · refine ⟨.inl ⟨t,ht,rfl⟩,fun hb => ?_⟩
      have hp : pid' = r.pid := h.place pid' r.pid t.birth (.inl ⟨t,ht,rfl⟩) (.inr ⟨r,hr,rfl,hb.symm⟩)
      rw [hp] at ht
      rw [h.freed r hr] at ht
      cases ht
    · cases hr'
  · rintro ⟨⟨t,ht,rfl⟩ | ⟨r',hr',-,rfl⟩,hb⟩
    · exact .inl ⟨t,ht,rfl⟩
    · rw [hr] at hr'
      cases hr'
      exact absurd rfl hb

theorem Owned.released (hr : s.reaping = some r) (ho : s.Owned pid' birth) (hb : birth ≠ r.birth) :
    { s with reaping := none }.Owned pid' birth := by
  rcases ho with ho | ⟨r',hr',-,rfl⟩
  · exact .inl ho
  · rw [hr] at hr'
    cases hr'
    exact absurd rfl hb

theorem Sound.released (h : Sound known s) (hr : s.reaping = some r) :
    Sound known { s with reaping := none, consumed := s.consumed ++ [(r.birth,r.exit)] } := by
  have hnone : Sound known { s with reaping := none } :=
    { fresh := fun _ _ ho => h.fresh _ _ ((occupies_released h hr).1 ho).1
      place := fun _ _ _ h₁ h₂ => h.place _ _ _ ((occupies_released h hr).1 h₁).1 ((occupies_released h hr).1 h₂).1
      freed := fun _ hr' => by cases hr'
      past := h.past
      single := h.single
      heard := h.heard }
  have ho : s.Occupies r.pid r.birth := .inr ⟨r,hr,rfl,rfl⟩
  exact hnone.consume (h.fresh _ _ ho).1 (h.fresh _ _ ho).2 fun _ hg => ((occupies_released h hr).1 hg).2 rfl

theorem vacant_released (h : Sound known s) (hr : s.reaping = some r) : { s with reaping := none }.Vacant r.pid := by
  intro birth ho
  obtain ⟨ho,hne⟩ := (occupies_released h hr).1 ho
  exact hne (h.occupant ho (.inr ⟨r,hr,rfl,rfl⟩))

theorem Vacant.released (h : Sound known s) (hr : s.reaping = some r) (hv : s.Vacant pid) :
    { s with reaping := none }.Vacant pid :=
  fun birth ho => hv birth ((occupies_released h hr).1 ho).1

def Settled (s : State) (birth : ℕ) : Prop := ∀ t ∈ s.restarts, ∀ c ∈ t.child, c.birth ≠ birth

theorem Kept.restarting_released (hk : s.Kept) (h : Sound known s) (hr : s.reaping = some r) (hs : s.Settled r.birth) :
    ∀ t ∈ s.restarts, { s with reaping := none }.Vacant t.currentPid ∧
      ∀ c, t.child = some c → { s with reaping := none }.Owned c.pid c.birth := by
  intro t ht
  obtain ⟨hv,hch⟩ := hk.restarting t ht
  exact ⟨hv.released h hr,fun c hc => (hch c hc).released hr (hs t ht c hc)⟩

theorem Kept.entry_released (hk : s.Kept) (h : Sound known s) (hr : s.reaping = some r)
    (hp : s.procs.get pid = some p) (hpi : pid ≠ r.pid) :
    p.pid = pid ∧ (p.state = .running → { s with reaping := none }.Owned pid p.birth) ∧
      (p.state ≠ .running → { s with reaping := none }.Vacant pid) := by
  obtain ⟨hke,hru,he⟩ := hk.entry pid p hp
  refine ⟨hke,fun h' => (hru h').released hr fun hb => ?_,fun h' => (he h').released h hr⟩
  exact hpi (h.place pid r.pid p.birth (hru h').occupies (.inr ⟨r,hr,rfl,hb.symm⟩))

theorem Kept.unlisted (hk : s.Kept) (h : Sound known s) (hr : s.reaping = some r) (hpo : s.posting = none)
    (hs : s.Settled r.birth) (hp : s.procs.get r.pid = none) :
    { s with reaping := none, consumed := s.consumed ++ [(r.birth,r.exit)] }.Kept where
  posting q c hq := by
    rw [hpo] at hq
    cases hq
  restarting := hk.restarting_released h hr hs
  entry pid p hp' := hk.entry_released h hr hp' fun hpi => by
    rw [hpi,hp] at hp'
    cases hp'
  blank birth hun := hk.blank birth hun.of_append
  managed birth hb := by
    rcases hk.managed birth hb with ⟨e,he,hre⟩ | hru
    · exact .inl ⟨e,mem_append_left _ he,hre⟩
    · exact .inr hru

theorem recordsOf_append (e : ProcessState) (b : ℕ) (s : State) :
    { s with recorded := s.recorded ++ [(b,e)] }.recordsOf birth = s.recordsOf birth ++ if b =
      birth then [e] else [] := by
  unfold recordsOf
  rw [filter_append,map_append]
  by_cases hb : b = birth <;> simp [hb]

theorem Kept.listed (hk : s.Kept) (h : Sound known s) (hr : s.reaping = some r)
    (hp : s.procs.get r.pid = some p) : p.state = .running ∧ p.birth = r.birth ∧ p.pid = r.pid := by
  obtain ⟨hke,hru,he⟩ := hk.entry r.pid p hp
  have ho : s.Occupies r.pid r.birth := .inr ⟨r,hr,rfl,rfl⟩
  have hs : p.state = .running := by
    by_contra hne
    exact he hne r.birth ho
  exact ⟨hs,h.occupant (hru hs).occupies ho,hke⟩

theorem Kept.recorded (hk : s.Kept) (h : Sound known s) (hr : s.reaping = some r) (hpo : s.posting = none)
    (hs : s.Settled r.birth) (hp : s.procs.get r.pid = some p) :
    { s with
      reaping := none
      consumed := s.consumed ++ [(r.birth,r.exit)]
      procs := s.procs.set p.pid { p with state := r.exit.state }
      recorded := s.recorded ++ [(p.birth,r.exit.state)] }.Kept := by
  obtain ⟨-,hbi,hke⟩ := hk.listed h hr hp
  refine ⟨?_,hk.restarting_released h hr hs,?_,?_,?_⟩
  · intro q c hq
    rw [hpo] at hq
    cases hq
  · intro pid p' hp'
    simp only [get_set] at hp'
    split at hp'
    · rename_i hpi
      cases hp'
      refine ⟨hpi.symm,fun hru => absurd hru r.exit.state_ne_running,fun _ => ?_⟩
      rw [hpi,hke]
      exact vacant_released h hr
    · rename_i hpi
      exact hk.entry_released h hr hp' (hke ▸ hpi)
  · intro birth hun
    have hne : p.birth ≠ birth := by
      rintro rfl
      exact hun r.exit (mem_append_right _ (by rw [hbi]; exact mem_singleton_self _))
    refine (recordsOf_append r.exit.state p.birth s).trans ?_
    rw [if_neg hne,append_nil]
    exact hk.blank birth fun e he => hun e (mem_append_left _ he)
  · intro birth hb
    by_cases hne : p.birth = birth
    · -- the exit that is recorded now is the first one of its process
      subst hne
      refine .inl ⟨r.exit,mem_append_right _ (by rw [hbi]; exact mem_singleton_self _),?_⟩
      refine (recordsOf_append r.exit.state p.birth s).trans ?_
      rw [if_pos rfl,hbi,hk.blank r.birth (h.fresh _ _ (.inr ⟨r,hr,rfl,rfl⟩)).2,nil_append]
    · rcases hk.managed birth hb with ⟨e,he,hre⟩ | ⟨pid,p',hp',hpb,hru⟩
      · refine .inl ⟨e,mem_append_left _ he,?_⟩
        refine (recordsOf_append r.exit.state p.birth s).trans ?_
        rw [if_neg hne,append_nil]
        exact hre
      · have hpi : pid ≠ p.pid := by
          rintro rfl
          rw [hke,hp] at hp'
          cases hp'
          exact hne hpb
        refine .inr ⟨pid,p',?_,hpb,hru⟩
        simp only [get_set,if_neg hpi]
        exact hp'

def Right (known : ℕ → Bool) (s : State) : Prop := Sound known s ∧ s.Kept

theorem right_start : Right known State.start := by
  have ho : ∀ pid birth, ¬ State.start.Occupies pid birth := by
    rintro pid birth (⟨t,ht,-⟩ | ⟨r,hr,-⟩)
    · cases ht
    · cases hr
  refine ⟨⟨fun pid birth h => absurd h (ho pid birth),fun pid _ birth h => absurd h (ho pid birth),?_,?_,?_,?_⟩,
    ⟨?_,?_,?_,?_,?_⟩⟩
  · intro r hr
    cases hr
  · intro c hc
    cases hc
  · intro birth e e' he
    cases he
  · intro pid t n ht
    cases ht
  · intro q c hq
    cases hq
  · intro t ht
    cases ht
  · intro pid p hp
    cases hp
  · intro birth _
    rfl
  · intro birth hb
    cases hb

theorem Right.ended {kills : List Kill} {down : Bool} (h : Right known s) :
    Right known { s with kills := kills, down := down } :=
  ⟨⟨h.1.fresh,h.1.place,h.1.freed,h.1.past,h.1.single,h.1.heard⟩,
    ⟨h.2.posting,h.2.restarting,h.2.entry,h.2.blank,h.2.managed⟩⟩

theorem Sound.congr {posting : Option Posting} {restarts : List Restart} {procs : Dict ℕ Process} {managed : List ℕ}
    {recorded : List (ℕ × ProcessState)} (h : Sound known s) :
    Sound known
      { s with posting := posting, restarts := restarts, procs := procs, managed := managed, recorded := recorded } :=
  ⟨h.fresh,h.place,h.freed,h.past,h.single,h.heard⟩

theorem Right.reapWith (h : Right known s) (hr : s.reaping = some r) (hpo : s.posting = none)
    (hse : s.Settled r.birth) : Right known (s.reapWith r) := by
  obtain ⟨hs,hk⟩ := h
  unfold State.reapWith
  dsimp only
  split
  · rename_i hp
    exact ⟨hs.released hr,hk.unlisted hs hr hpo hse hp⟩
  · rename_i p hp
    have hk' := hk.recorded hs hr hpo hse hp
    unfold State.record
    dsimp only
    split
    · exact Right.ended ⟨(hs.released hr).congr,hk'⟩
    · unfold State.mayRestartProcess
      split
      · refine ⟨(hs.released hr).congr,hk'.withRestarts _ fun t ht => ?_⟩
        rcases mem_append.1 ht with ht | ht
        · exact hk'.restarting t ht
        · rw [mem_singleton.1 ht]
          refine ⟨?_,fun c hc => by cases hc⟩
          rw [show p.pid = r.pid from (hk.listed hs hr hp).2.2]
          exact vacant_released hs hr
      · exact ⟨(hs.released hr).congr,hk'⟩

theorem Right.wait (h : Right known s) (hr : s.reaping = none)
    (ht : s.tasks pid = some ⟨b,some e,ours⟩) : Right known (s.waitFor known pid ⟨b,some e,ours⟩ e) := by
  obtain ⟨hs,hk⟩ := h
  unfold waitFor
  dsimp only
  split
  · exact ⟨hs.taken hr ht rfl,hk.taken hr ht rfl⟩
  · rename_i hu
    -- a signal without a name only ends processes that init has not started
    have hou : ours = false := by
      cases ours with
      | false => rfl
      | true => exact absurd (hs.heard pid _ e ht rfl rfl) hu
    subst hou
    obtain ⟨hlt,hun⟩ := hs.fresh pid b (.inl ⟨_,ht,rfl⟩)
    refine ⟨hs.freeAt.consume hlt hun fun pid' ho => ?_,(hk.freeAt ht).consume b _⟩
    have hp := hs.place pid' pid b (occupies_freeAt ho) (.inl ⟨_,ht,rfl⟩)
    rcases ho with ⟨t,ht',-⟩ | ⟨r,hr',-⟩
    · exact (tasks_freeAt ht').1 hp
    · rw [show (s.freeAt pid).reaping = s.reaping from rfl, hr] at hr'
      cases hr'

/-- By cases on the step; `Orderly` excludes those by which an exit is lost. -/
theorem Right.act (ev : Event) (h : Right known s) (hok : s.Orderly known ev) : Right known (s.act known ev) := by
  obtain ⟨hs,hk⟩ := h
  cases ev with
  | lock required restart ignoreStatus =>
    rw [State.act]
    split
    · exact ⟨hs,hk⟩
    · refine ⟨hs.congr,hk.withPosting _ ?_⟩
      rintro q hq c hc
      cases hq
      cases hc
  | spawn pid =>
    rw [State.act]
    split
    · rename_i spec ignoreStatus _ ht
      refine ⟨(hs.birthAt hok ht).congr,(hk.birthAt hok ht).withPosting _ ?_⟩
      rintro q hq c hc
      cases hq
      cases hc
      exact owned_birthAt
    · exact ⟨hs,hk⟩
  | startFails => exact ⟨hs.congr,hk.withPosting none (by rintro q hq; cases hq)⟩
  | started now =>
    rw [State.act]
    split
    · rename_i spec c hq
      exact ⟨hs.congr,(hk.insert hs (hk.posting _ c hq rfl) spec now).withPosting none (by rintro q hq; cases hq)⟩
    · exact ⟨hs.congr,hk.withPosting none (by rintro q hq; cases hq)⟩
    · exact ⟨hs,hk⟩
  | fork pid =>
    rw [State.act]
    split
    · rename_i ht
      exact ⟨hs.birthAt hok ht,hk.birthAt hok ht⟩
    · exact ⟨hs,hk⟩
  | exit pid e =>
    rw [State.act]
    split
    · rename_i b ours ht
      exact ⟨hs.exit ht (hok _ ht),hk.exit ht⟩
    · exact ⟨hs,hk⟩
  | vanish pid =>
    rw [State.act]
    split
    · rename_i ht
      exact ⟨hs.freeAt,hk.freeAt ht⟩
    · exact ⟨hs,hk⟩
  | wait pid =>
    rw [State.act]
    split
    · rename_i hr ht
      exact Right.wait ⟨hs,hk⟩ hr ht
    · exact ⟨hs,hk⟩
  | reap =>
    rw [State.act]
    split
    · rename_i hpo hr
      exact Right.reapWith ⟨hs,hk⟩ hr hpo (hok _ hr)
    · exact ⟨hs,hk⟩
  | respawn i pid =>
    rw [State.act]
    split
    · rename_i spec currentPid hi ht
      refine ⟨(hs.birthAt hok ht).congr,(hk.birthAt hok ht).withRestarts _ fun t htm => ?_⟩
      rcases mem_or_eq_of_mem_set htm with htm | rfl
      · exact (hk.birthAt hok ht).restarting t htm
      · refine ⟨((hk.birthAt hok ht).restarting _ (mem_of_getElem? hi)).1,fun c hc => ?_⟩
        cases hc
        exact owned_birthAt
    · exact ⟨hs,hk⟩
  | restartFails i =>
    exact ⟨hs.congr,hk.withRestarts _ fun t ht => hk.restarting t (mem_of_mem_eraseIdx ht)⟩
  | restarted i now =>
    rw [State.act]
    split
    · rename_i spec currentPid c hpo hi
      obtain ⟨hv,hch⟩ := hk.restarting _ (mem_of_getElem? hi)
      have hk' : { s with procs := s.procs.erase currentPid }.Kept := hk.erase fun p hp hru =>
        hv p.birth ((hk.entry _ p hp).2.1 hru).occupies
      have hk'' := hk'.insert (hs.erase currentPid) (hch c rfl) spec now
      exact ⟨hs.congr,hk''.withRestarts _ fun t ht => hk''.restarting t (mem_of_mem_eraseIdx ht)⟩
    · exact ⟨hs,hk⟩
  | getStatus pid =>
    rw [State.act]
    split
    · rename_i p _ hp
      split
      · exact ⟨hs,hk⟩
      · rename_i hru
        refine ⟨hs.erase pid,hk.erase fun p' hp' => ?_⟩
        rw [hp] at hp'
        cases hp'
        exact hru
    · exact ⟨hs,hk⟩
  | signal pid =>
    rw [State.act]
    split
    · exact Right.ended ⟨hs,hk⟩
    · exact ⟨hs,hk⟩

/-- In an orderly run the table never shows a dead process as running, and each exit of
a process of the table is recorded once. -/
theorem truthful_of_orderly (known : ℕ → Bool) (evs : List Event) (h : Along (step known) (Orderly known) .start evs) :
    (State.start.run known evs).Truthful := by
  have hr : Right known (State.start.run known evs) :=
    h.keeps (fun _ ev hs hok => step_keeps (fun hs => hs.act ev hok) hs) right_start
  exact hr.1.truthful hr.2

def named (n : ℕ) : Bool := 1 ≤ n && n ≤ 31
instance decidableOrderly (ev : Event) : Decidable (s.Orderly known ev) := by
  cases ev <;> simp only [Orderly,Unused] <;> infer_instance
def earlyExit : List Event :=
  [.lock false true false,.spawn 10,.exit 10 (.code 1),.wait 10,.started 100,.reap,.respawn 0 11,.restarted 0 101]

theorem earlyExit_truthful : Along (step named) (Orderly named) .start earlyExit ∧
    (State.start.run named earlyExit).Truthful :=
  have h : Along (step named) (Orderly named) .start earlyExit := by decide
  ⟨h,truthful_of_orderly named earlyExit h⟩

def earlyRestart : List Event :=
  [.lock false true false,.spawn 10,.started 100,.exit 10 (.code 1),.wait 10,.reap,
    .respawn 0 11,.exit 11 (.code 1),.wait 11,.reap,.restarted 0 101]

theorem restarted_stays_running : ¬ (State.start.run named earlyRestart).Truthful := by
  intro h
  have he : (State.start.run named earlyRestart).procs.get 11 =
    some ⟨⟨false,true,[100,101]⟩,101,11,.running,1⟩ := by decide
  exact h.alive 11 _ he rfl (.code 1) (by decide)
end State

end Padsi.Proc
