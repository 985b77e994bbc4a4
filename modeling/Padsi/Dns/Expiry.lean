import Padsi.Dns.Restriction

/-! # Flows over the time

The table has one end for each address and keeps the flows of the first name that
resolved to it.
-/
namespace Padsi.Dns
open Text Net Python Fw List Query AllowedIp

variable {U : Unicode} {σ : Type}

inductive Event where
  | query (now : ℤ) (q : Query)
  | expired (now : ℤ)

def Event.time : Event → ℤ
  | .query now _ => now
  | .expired now => now

section
variable (nf : Netfilter U σ) (srv : Server U)

def handleEvent (s : State U σ) : Event → State U σ
  | .query now q => (handleCommand nf srv now q.json s).1
  | .expired now => handleExpired nf now s

def runEvents (k : σ) (events : List Event) : State U σ :=
  events.foldl (handleEvent nf srv) (.start k)

theorem runEvents_concat (k : σ) (events : List Event) (e : Event) :
    runEvents nf srv k (events ++ [e]) = handleEvent nf srv (runEvents nf srv k events) e := by
  rw [runEvents,foldl_append]
  rfl

def Succeeds : Prop := ∀ t nflow k, (nf.allow t nflow k).2 = .ok ()

end

variable {nf : Netfilter U σ} {now : ℤ} {s : State U σ}

theorem Succeeds.accepts (h : Succeeds nf) : Accepts nf (fun _ => True) (fun _ => True) :=
  fun t nflow k _ _ => ⟨h t nflow k,trivial⟩

def renewed (srv : Server U) (query : Str) (ip : Ipv4Addr) (known : Option (AllowedIp U)) (e : ℤ) : AllowedIp U :=
  match known with
  | some a => { a with endTtl := e }
  | none => ⟨e,srv.isOutputAllowed query,srv.flows query ip⟩

theorem get_grant (nf : Netfilter U σ) (srv : Server U) (now : ℤ) (query : Str) (s : State U σ)
    (x : ℕ × Ipv4Addr) (ip : Ipv4Addr) :
    (grant nf srv now query s x).allowedIps.get ip =
      if ip = x.2 then some (renewed srv query ip (s.allowedIps.get ip) (endOf now x.1)) else s.allowedIps.get ip := by
  unfold grant
  by_cases hip : ip = x.2
  · subst hip
    cases hg : s.allowedIps.get x.2 <;> simp only [Dict.get_set,if_pos,renewed]
  · cases s.allowedIps.get x.2 <;> simp only [Dict.get_set,if_neg hip]

def Query.ends (q : Query) (now : ℤ) (ip : Ipv4Addr) : List ℤ :=
  (q.resolved.filter fun x => x.2 = ip).map fun x => endOf now x.1

theorem Query.mem_ends {q : Query} {ip : Ipv4Addr} {e : ℤ} :
    e ∈ q.ends now ip ↔ ∃ ttl, (ttl,ip) ∈ q.resolved ∧ e = endOf now ttl := by
  simp only [ends,mem_map,mem_filter,decide_eq_true_eq]
  constructor
  · rintro ⟨⟨ttl,ip'⟩,⟨hmem,rfl⟩,rfl⟩
    exact ⟨ttl,hmem,rfl⟩
  · rintro ⟨ttl,hmem,rfl⟩
    exact ⟨(ttl,ip),⟨hmem,rfl⟩,rfl⟩

theorem lt_endOf (now : ℤ) (ttl : ℕ) : now < endOf now ttl := by
  unfold endOf gracePeriod
  omega

theorem get_foldl_grant (nf : Netfilter U σ) (srv : Server U) (now : ℤ) (q : Query) (s : State U σ) (ip : Ipv4Addr) :
    (q.resolved.foldl (grant nf srv now q.name) s).allowedIps.get ip =
      match (q.ends now ip).getLast? with
      | none => s.allowedIps.get ip
      | some e => some (renewed srv q.name ip (s.allowedIps.get ip) e) := by
  unfold ends
  induction q.resolved using reverseRecOn with
  | nil => rfl
  | append_singleton xs x ih =>
    rw [foldl_append,foldl_cons,foldl_nil,get_grant,ih,filter_append,map_append]
    by_cases hip : ip = x.2
    · have hl : [x].filter (fun x => x.2 = ip) = [x] := by simp [hip]
      rw [if_pos hip,hl,map_singleton,getLast?_concat]
      cases ((xs.filter fun x => x.2 = ip).map fun x => endOf now x.1).getLast? with
      | none => rfl
      | some e => cases s.allowedIps.get ip <;> rfl
    · have hl : [x].filter (fun x => x.2 = ip) = [] := by simp [Ne.symm hip]
      rw [if_neg hip,hl,map_nil,append_nil]

theorem get_handleCommand (hnf : Succeeds nf) (srv : Server U) (now : ℤ) (q : Query) (s : State U σ)
    (ip : Ipv4Addr) :
    (handleCommand nf srv now q.json s).1.allowedIps.get ip =
      match (q.ends now ip).getLast? with
      | none => s.allowedIps.get ip
      | some e => some (renewed srv q.name ip (s.allowedIps.get ip) e) := by
  rw [(handleCommand_eq hnf.accepts srv now q (fun _ _ _ _ => trivial) trivial).1]
  exact get_foldl_grant nf srv now q s ip

def State.IsOpen (s : State U σ) (ip : Ipv4Addr) (nflow : NetFlow U) : Prop :=
  ∃ a, s.allowedIps.get ip = some a ∧ nflow ∈ a.flows

/-- A query of the history resolved to the address, its name has the flow and its TTL has not ended. -/
def Justified (srv : Server U) (events : List Event) (t : ℤ) (ip : Ipv4Addr) (nflow : NetFlow U) : Prop :=
  ∃ t₀ q, .query t₀ q ∈ events ∧ ∃ ttl : ℕ, (ttl,ip) ∈ q.resolved ∧ nflow ∈ srv.flows q.name ip ∧ t < endOf t₀ ttl

def Outlives (table : Dict Ipv4Addr (AllowedIp U)) (t : ℤ) (ip : Ipv4Addr) (nflow : NetFlow U) : Prop :=
  ∃ a, table.get ip = some a ∧ nflow ∈ a.flows ∧ t < a.endTtl

theorem isOpen_handleExpired (nf : Netfilter U σ) (t : ℤ) (s : State U σ) (ip : Ipv4Addr) (nflow : NetFlow U) :
    (handleExpired nf t s).IsOpen ip nflow ↔ Outlives s.allowedIps t ip nflow := by
  have hk : ∀ a : AllowedIp U, (!a.isExpired t) = true ↔ t < a.endTtl := by
    intro a
    simp [isExpired]
  unfold State.IsOpen Outlives handleExpired
  simp only [Dict.get_filter,hk,and_assoc,and_comm (a := nflow ∈ _)]

/-- At every time from the last event on, what outlives it is what is justified. -/
def Exact (srv : Server U) (events : List Event) (table : Dict Ipv4Addr (AllowedIp U)) : Prop :=
  ∀ t, (∀ e ∈ events, e.time ≤ t) → ∀ ip nflow, Outlives table t ip nflow ↔ Justified srv events t ip nflow

/-- The last end of an address in the answer is the latest one, does not shorten its entry, and
extends it only with all its flows recorded. -/
def Agrees (srv : Server U) (table : Dict Ipv4Addr (AllowedIp U)) (now : ℤ) (q : Query) : Prop :=
  ∀ ip, ∀ e ∈ (q.ends now ip).getLast?, (∀ e' ∈ q.ends now ip, e' ≤ e) ∧
    ∀ a ∈ table.get ip, a.endTtl ≤ e ∧ (∀ f ∈ srv.flows q.name ip, f ∈ a.flows) ∧
      (a.endTtl < e → ∀ f ∈ a.flows, f ∈ srv.flows q.name ip)

section
variable {F : Type} {known new : List F} {ends : List ℤ} {now last e : ℤ}

theorem span_of_first (hl : last ∈ ends) (hno : now < last) (hn : new ≠ []) :
    (∀ t, now ≤ t → ∀ f, (f ∈ new ∧ t < last) ↔ ∃ e' ∈ ends, f ∈ new ∧ t < e') ↔ ∀ e' ∈ ends, e' ≤ last := by
  constructor
  · intro h e' he'
    by_contra hlt
    obtain ⟨f,hf⟩ := exists_mem_of_ne_nil new hn
    have hopen := (h last (by omega) f).2 ⟨e',he',hf,by omega⟩
    omega
  · intro h t _ f
    constructor
    · exact fun ⟨hf,ht⟩ => ⟨last,hl,hf,ht⟩
    · rintro ⟨e',he',hf,ht⟩
      exact ⟨hf,lt_of_lt_of_le ht (h e' he')⟩

/-- A further resolution: the flows of the entry are those of both, each up to its end. -/
theorem span_of_known (hl : last ∈ ends) (hn : now < last) (hne : new ≠ []) (hk : known ≠ []) :
    (∀ t, now ≤ t → ∀ f, (f ∈ known ∧ t < last) ↔ (f ∈ known ∧ t < e) ∨ ∃ e' ∈ ends, f ∈ new ∧ t < e') ↔
      (∀ e' ∈ ends, e' ≤ last) ∧ e ≤ last ∧ (∀ f ∈ new, f ∈ known) ∧ (e < last → ∀ f ∈ known, f ∈ new) := by
  constructor
  · intro h
    refine ⟨fun e' he' => ?_,?_,fun f hf => ?_,fun hlt f hf => ?_⟩
    · by_contra hlt
      obtain ⟨f,hf⟩ := exists_mem_of_ne_nil new hne
      have hopen := (h last (by omega) f).2 (.inr ⟨e',he',hf,by omega⟩)
      omega
    · by_contra hlt
      obtain ⟨f,hf⟩ := exists_mem_of_ne_nil known hk
      have hopen := (h last (by omega) f).2 (.inl ⟨hf,by omega⟩)
      omega
    · exact ((h now le_rfl f).2 (.inr ⟨last,hl,hf,hn⟩)).1
    · -- between the two ends only the new flows are justified
      rcases (h (max now e) (by omega) f).1 ⟨hf,by omega⟩ with ⟨_,ht⟩ | ⟨_,_,hf',_⟩
      · omega
      · exact hf'
  · rintro ⟨hen,hle,hs,hsa⟩ t ht f
    constructor
    · rintro ⟨hf,hlt⟩
      by_cases he : t < e
      · exact .inl ⟨hf,he⟩
      · exact .inr ⟨last,hl,hsa (by omega) f hf,hlt⟩
    · rintro (⟨hf,hlt⟩ | ⟨e',he',hf,hlt⟩)
      · exact ⟨hf,by omega⟩
      · exact ⟨hs f hf,lt_of_lt_of_le hlt (hen e' he')⟩

end

theorem justified_concat_query (srv : Server U) (events : List Event) (now : ℤ) (q : Query) (t : ℤ) (ip : Ipv4Addr)
    (nflow : NetFlow U) : Justified srv (events ++ [.query now q]) t ip nflow ↔
      Justified srv events t ip nflow ∨ ∃ e ∈ q.ends now ip, nflow ∈ srv.flows q.name ip ∧ t < e := by
  constructor
  · rintro ⟨t₀,q',hmem,ttl,hr,hf,ht⟩
    rcases mem_append.1 hmem with hmem | hmem
    · exact .inl ⟨t₀,q',hmem,ttl,hr,hf,ht⟩
    · cases mem_singleton.1 hmem
      exact .inr ⟨_,mem_ends.2 ⟨ttl,hr,rfl⟩,hf,ht⟩
  · rintro (⟨t₀,q',hmem,h⟩ | ⟨e,he,hf,ht⟩)
    · exact ⟨t₀,q',mem_append_left _ hmem,h⟩
    · obtain ⟨ttl,hr,rfl⟩ := mem_ends.1 he
      exact ⟨now,q,by simp,ttl,hr,hf,ht⟩

theorem justified_concat_expired (srv : Server U) (events : List Event) (now t : ℤ) (ip : Ipv4Addr)
    (nflow : NetFlow U) :
    Justified srv (events ++ [.expired now]) t ip nflow ↔ Justified srv events t ip nflow := by
  simp only [Justified,mem_append,mem_singleton,reduceCtorEq,or_false]

def Filled (table : Dict Ipv4Addr (AllowedIp U)) : Prop := ∀ ip a, table.get ip = some a → a.flows ≠ []

theorem filled_handleEvent (hnf : Succeeds nf) (srv : Server U) (h : Filled s.allowedIps) (e : Event) :
    Filled (handleEvent nf srv s e).allowedIps := by
  intro ip a hg
  cases e with
  | expired now => exact h ip a ((Dict.get_filter _ _ _ _).1 hg).1
  | query now q =>
    rw [handleEvent,get_handleCommand hnf] at hg
    cases hl : (q.ends now ip).getLast? with
    | none =>
      rw [hl] at hg
      exact h ip a hg
    | some e =>
      rw [hl] at hg
      cases hk : s.allowedIps.get ip with
      | none =>
        rw [hk] at hg
        cases hg
        exact srv.flows_ne_nil q.name ip
      | some a' =>
        rw [hk] at hg
        cases hg
        exact h ip a' hk

theorem filled_runEvents (hnf : Succeeds nf) (srv : Server U) (k : σ) (events : List Event) :
    Filled (runEvents nf srv k events).allowedIps := by
  induction events using reverseRecOn with
  | nil => nofun
  | append_singleton events e ih =>
    rw [runEvents_concat]
    exact filled_handleEvent hnf srv ih e

/-- One query keeps the table exact if and only if it agrees with it. -/
theorem exact_concat_query (hnf : Succeeds nf) {srv : Server U} {events : List Event}
    {q : Query} (hf : Filled s.allowedIps) (hb : ∀ e ∈ events, e.time ≤ now) (h : Exact srv events s.allowedIps) :
    Exact srv (events ++ [.query now q]) (handleCommand nf srv now q.json s).1.allowedIps ↔
      Agrees srv s.allowedIps now q := by
  have hti : ∀ t, (∀ e ∈ events ++ [Event.query now q], e.time ≤ t) ↔ now ≤ t := by
    intro t
    constructor
    · exact fun ht => ht (.query now q) (by simp)
    · intro ht e he
      rcases mem_append.1 he with he | he
      · exact (hb e he).trans ht
      · rw [mem_singleton.1 he]
        exact ht
  have had : ∀ ip, (∀ t, now ≤ t → ∀ nflow, Outlives (handleCommand nf srv now q.json s).1.allowedIps t ip nflow ↔
      Justified srv (events ++ [.query now q]) t ip nflow) ↔
      ∀ e ∈ (q.ends now ip).getLast?, (∀ e' ∈ q.ends now ip, e' ≤ e) ∧
        ∀ a ∈ s.allowedIps.get ip, a.endTtl ≤ e ∧ (∀ f ∈ srv.flows q.name ip, f ∈ a.flows) ∧
          (a.endTtl < e → ∀ f ∈ a.flows, f ∈ srv.flows q.name ip) := by
    intro ip
    have hju : ∀ t, now ≤ t → ∀ nflow, Justified srv events t ip nflow ↔ Outlives s.allowedIps t ip nflow :=
      fun t ht nflow => (h t (fun e he => (hb e he).trans ht) ip nflow).symm
    simp only [justified_concat_query,Outlives,get_handleCommand hnf]
    cases hl : (q.ends now ip).getLast? with
    | none =>
      have hnone : q.ends now ip = [] := getLast?_eq_none_iff.1 hl
      simp only [hnone,not_mem_nil,false_and,exists_false,or_false,Option.mem_def,reduceCtorEq,false_implies,
        implies_true,
        iff_true]
      exact fun t ht nflow => (hju t ht nflow).symm
    | some e =>
      have hmem : e ∈ q.ends now ip := mem_of_getLast? hl
      have hn : now < e := by
        obtain ⟨ttl,_,rfl⟩ := mem_ends.1 hmem
        exact lt_endOf now ttl
      simp only [Option.mem_def,Option.some.injEq,forall_eq',exists_eq_left']
      cases hk : s.allowedIps.get ip with
      | none =>
        have hne : ∀ t, now ≤ t → ∀ nflow, ¬ Justified srv events t ip nflow := by
          intro t ht nflow hj
          obtain ⟨a,ha,_⟩ := (hju t ht nflow).1 hj
          rw [hk] at ha
          cases ha
        simp only [renewed,reduceCtorEq,false_implies,implies_true,and_true]
        rw [← span_of_first hmem hn (srv.flows_ne_nil q.name ip)]
        refine forall₃_congr fun t ht nflow => ?_
        rw [or_iff_right (hne t ht nflow)]
      | some a =>
        simp only [renewed,Option.some.injEq,forall_eq']
        rw [← span_of_known hmem hn (srv.flows_ne_nil q.name ip) (hf ip a hk)]
        refine forall₃_congr fun t ht nflow => ?_
        rw [hju t ht nflow,Outlives,hk]
        simp only [Option.some.injEq,exists_eq_left']
  unfold Exact Agrees
  simp only [hti]
  constructor
  · exact fun hex ip => (had ip).1 fun t ht => hex t ht ip
  · exact fun hag t ht ip => (had ip).2 (hag ip) t ht

theorem exact_concat_expired {srv : Server U} {events : List Event}
    (h : Exact srv events s.allowedIps) : Exact srv (events ++ [.expired now]) (handleExpired nf now s).allowedIps := by
  intro t ht ip nflow
  have hn : now ≤ t := ht (.expired now) (by simp)
  rw [justified_concat_expired, ← h t (fun e he => ht e (mem_append_left _ he)) ip nflow]
  unfold Outlives handleExpired
  simp only [Dict.get_filter,isExpired,Bool.not_eq_true',decide_eq_false_iff_not]
  constructor
  · rintro ⟨a,⟨hg,_⟩,hf,hlt⟩
    exact ⟨a,hg,hf,hlt⟩
  · rintro ⟨a,hg,hf,hlt⟩
    exact ⟨a,⟨hg,by omega⟩,hf,hlt⟩

/-- Along a run the open flows are the justified ones exactly when every query agrees with the
table it finds. -/
theorem open_iff_justified_iff_agrees {nf : Netfilter U σ} (hnf : Succeeds nf) (srv : Server U) (k : σ)
    (events : List Event) (hordered : events.Pairwise fun a b => a.time ≤ b.time) :
    (∀ past, past <+: events → ∀ t, (∀ e ∈ past, e.time ≤ t) → ∀ ip nflow,
        (handleExpired nf t (runEvents nf srv k past)).IsOpen ip nflow ↔ Justified srv past t ip nflow) ↔
      ∀ past now q, past ++ [.query now q] <+: events → Agrees srv (runEvents nf srv k past).allowedIps now q := by
  simp only [isOpen_handleExpired]
  change (∀ past, past <+: events → Exact srv past (runEvents nf srv k past).allowedIps) ↔ _
  induction events using reverseRecOn with
  | nil =>
    constructor
    · intro _ past now q hp
      exact absurd (prefix_nil.1 hp) (by simp)
    · intro _ past hp
      obtain rfl := prefix_nil.1 hp
      intro t _ ip nflow
      constructor
      · rintro ⟨a,ha,_⟩
        cases ha
      · rintro ⟨_,_,hmem,_⟩
        cases hmem
  | append_singleton events e ih =>
    obtain ⟨hev,_,hl⟩ := pairwise_append.1 hordered
    have hb : ∀ e' ∈ events, e'.time ≤ e.time := fun e' he' => hl e' he' e (mem_singleton_self e)
    have hs : Exact srv events (runEvents nf srv k events).allowedIps →
        (Exact srv (events ++ [e]) (runEvents nf srv k (events ++ [e])).allowedIps ↔
          ∀ now q, e = .query now q → Agrees srv (runEvents nf srv k events).allowedIps now q) := by
      intro hex
      rw [runEvents_concat]
      cases e with
      | expired now =>
        simp only [reduceCtorEq,false_implies,implies_true,iff_true]
        exact exact_concat_expired hex
      | query now q =>
        have hq := exact_concat_query (q := q) hnf (filled_runEvents hnf srv k events) hb hex
        constructor
        · rintro h _ _ ⟨rfl,rfl⟩
          exact hq.1 h
        · exact fun h => hq.2 (h now q rfl)
    constructor
    · intro h past now q hp
      have hal := (ih hev).1 fun past hp => h past (hp.trans (prefix_append _ _))
      rcases prefix_concat_iff.1 hp with heq | hp
      · obtain ⟨rfl,hla⟩ := append_inj' heq rfl
        obtain rfl := singleton_inj.1 hla
        exact (hs (h past (prefix_append _ _))).1 (h _ (prefix_rfl)) now q rfl
      · exact hal past now q hp
    · intro h past hp
      have hal := (ih hev).2 fun past now q hp => h past now q (hp.trans (prefix_append _ _))
      rcases prefix_concat_iff.1 hp with rfl | hp
      · refine (hs (hal events prefix_rfl)).2 fun now q he => ?_
        subst he
        exact h events now q prefix_rfl
      · exact hal past hp

theorem succeeds_recorder : Succeeds (Netfilter.recorder (U := U)) := fun _ _ _ => rfl
def hostA : Ipv4Addr := ⟨10,0,0,1⟩
def resolvedHost (name : Str) (ttl : ℕ) : Query := ⟨name,[⟨ttl,some hostA,none⟩]⟩

theorem open_iff_justified_iff_first :
    [Event.query 0 (resolvedHost "a.com." 60),.expired 60].Pairwise (fun a b => a.time ≤ b.time) ∧
      ∀ past, past <+: [Event.query 0 (resolvedHost "a.com." 60),.expired 60] →
        ∀ t, (∀ e ∈ past, e.time ≤ t) → ∀ ip nflow,
        (handleExpired .recorder t (runEvents .recorder (Server.started [webRule] [] eth0) [] past)).IsOpen ip nflow ↔
          Justified (Server.started [webRule] [] eth0) past t ip nflow := by
  have ho : [Event.query 0 (resolvedHost "a.com." 60),.expired 60].Pairwise fun a b => a.time ≤ b.time := by
    simp [Event.time]
  refine ⟨ho,(open_iff_justified_iff_agrees succeeds_recorder _ [] _ ho).2 fun past now q hp => ?_⟩
  have hfirst : past = [] ∧ now = 0 ∧ q = resolvedHost "a.com." 60 := by
    rcases past with _ | ⟨e,_ | ⟨e',past⟩⟩
    · simpa using hp
    · simp at hp
    · simp at hp
  obtain ⟨rfl,rfl,rfl⟩ := hfirst
  intro ip e he
  refine ⟨fun e' he' => ?_,nofun⟩
  obtain ⟨ttl,ht,rfl⟩ := mem_ends.1 (mem_of_getLast? he)
  obtain ⟨ttl',ht',rfl⟩ := mem_ends.1 he'
  cases mem_singleton.1 ht
  cases mem_singleton.1 ht'
  exact le_rfl

theorem shared_or_shortened_flow_is_lost :
    (Justified (Server.started [webRule] [] eth0)
          [.query 0 (resolvedHost "a.com." 60),
            .query 1 (resolvedHost "b.org." 60)] 2 hostA (flowBehind eth0 [] [] [] hostA) ∧
        ¬ (handleExpired .recorder 2 (runEvents .recorder (Server.started [webRule] [] eth0) []
          [.query 0 (resolvedHost "a.com." 60),.query 1 (resolvedHost "b.org." 60)])).IsOpen hostA
            (flowBehind eth0 [] [] [] hostA)) ∧
      Justified (Server.started [webRule] [] eth0)
          [.query 0 (resolvedHost "b.org." 3600),.query 1 (resolvedHost "b.org." 60)] 2000 hostA
            (flowBehind eth0 [] [] [] hostA) ∧
        ¬ (handleExpired .recorder 2000 (runEvents .recorder (Server.started [webRule] [] eth0) []
          [.query 0 (resolvedHost "b.org." 3600),.query 1 (resolvedHost "b.org." 60)])).IsOpen hostA
            (flowBehind eth0 [] [] [] hostA) := by
  have hf : (Server.started [webRule] [] eth0).flows "b.org." hostA = [flowBehind eth0 [] [] [] hostA] := by
    decide +kernel
  have hs : ((handleExpired .recorder 2 (runEvents .recorder (Server.started [webRule] [] eth0) []
      [.query 0 (resolvedHost "a.com." 60),.query 1 (resolvedHost "b.org." 60)])).allowedIps.get hostA).map flows =
        some [flowBehind eth0 [.tcp] [port443] [] hostA] := by decide +kernel
  have hsh : ((handleExpired .recorder 2000 (runEvents .recorder (Server.started [webRule] [] eth0) []
      [.query 0 (resolvedHost "b.org." 3600),.query 1 (resolvedHost "b.org." 60)])).allowedIps.get hostA).map flows =
        none := by decide +kernel
  have hmem := mem_singleton_self (flowBehind (U := .ascii) eth0 [] [] [] hostA)
  refine ⟨⟨⟨1,resolvedHost "b.org." 60,mem_cons_of_mem _ mem_cons_self,60,mem_singleton_self _,
    hf ▸ hmem,by decide⟩,?_⟩,⟨0,resolvedHost "b.org." 3600,mem_cons_self,3600,mem_singleton_self _,
    hf ▸ hmem,by decide⟩,?_⟩
  · rintro ⟨a,ha,hfl⟩
    rw [ha,Option.map_some,Option.some.injEq] at hs
    rw [hs] at hfl
    exact absurd (mem_singleton.1 hfl) (by decide)
  · rintro ⟨a,ha,_⟩
    rw [ha] at hsh
    cases hsh

end Padsi.Dns
