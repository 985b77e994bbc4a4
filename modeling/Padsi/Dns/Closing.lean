import Padsi.Dns.Expiry
import Padsi.Fw.Opening

/-! # Expiry and the ruleset

The rules of an address are added with its entry and are never found again, so that
they outlive it.
-/
namespace Padsi.Dns
open Text Net Python Fw List Option Server Netfilter

variable {U : Unicode} {tool : FwTool} {report : Report} {N : Nft} {allows : List Json → Packet → Bool}

theorem toHost_flowBehind (dev : Device) (ps : List Protocol) (qs : List Port) (rs : List (PortRange U))
    (ip : Ipv4Addr) :
    (flowBehind dev ps qs rs ip).ToHost ip := ⟨rfl,rfl⟩

theorem Server.toHost_of_mem_flows {srv : Server U} {query : Str} {ip : Ipv4Addr} {f : NetFlow U}
    (h : f ∈ srv.flows query ip) : f.ToHost ip := by
  unfold flows at h
  split at h
  · rw [mem_singleton.1 h]
    exact toHost_flowBehind srv.outIface [] [] [] ip
  · obtain ⟨spec,_,rfl⟩ := mem_map.1 h
    exact toHost_flowBehind srv.outIface _ _ _ ip

theorem accepts_kernel (hdoc : Documented N report allows) :
    Accepts (kernel (U := U) tool report) Kernel.Plain (NetFlow.Writable tool report) :=
  fun _ _ _ hg hk => FwTool.flowSetPolicy_writable hdoc hk hg

section
variable (hdoc : Documented N report allows)
include hdoc

theorem opens_allowFlow {k : Kernel} (hk : k.Plain) {f : NetFlow U} (hf : f.Writable tool report)
    {ip : Ipv4Addr} (hh : f.ToHost ip) (out : Bool) (x : Ipv4Addr) :
    (allowFlow (.kernel tool report) out k f).Opens tool allows x ↔ k.Opens tool allows x ∨ x = ip := by
  have hfo := FwTool.opens_flowSetPolicy hdoc hk hf hh (by simp : FlowType.filterForward ∈ _) x
  have hp : ((kernel tool report).allow .filterForward f k).1.Plain := (FwTool.flowSetPolicy_writable hdoc hk hf).2
  have ho := FwTool.opens_flowSetPolicy hdoc hp hf hh (by simp : FlowType.filterOutput ∈ _) x
  unfold allowFlow
  cases out with
  | false => exact hfo
  | true =>
    refine ho.trans ⟨fun h => h.elim hfo.1 .inr,fun h => h.elim (fun h => .inl (hfo.2 (.inl h))) .inr⟩

theorem opens_foldl_allowFlow {flows : List (NetFlow U)} {ip : Ipv4Addr}
    (hfl : ∀ f ∈ flows, f.Writable tool report ∧ f.ToHost ip)
    {k : Kernel} (hk : k.Plain) (out : Bool) (x : Ipv4Addr) :
    (flows.foldl (allowFlow (.kernel tool report) out) k).Opens tool allows x ↔
      k.Opens tool allows x ∨ (flows ≠ [] ∧ x = ip) := by
  induction flows generalizing k with
  | nil => simp
  | cons f flows ih =>
    obtain ⟨⟨hf,hh⟩,hrest⟩ := forall_mem_cons.1 hfl
    rw [foldl_cons,ih hrest (allowFlow_keeps (accepts_kernel hdoc) hf hk out),opens_allowFlow hdoc hk hf hh]
    have hne : f :: flows ≠ [] := cons_ne_nil f flows
    tauto

theorem opens_grant {srv : Server U} {query : Str} {y : ℕ × Ipv4Addr}
    (hfl : ∀ f ∈ srv.flows query y.2, f.Writable tool report)
    {s : State U Kernel} (hs : s.netfilter.Plain) (now : ℤ) (x : Ipv4Addr) :
    (grant (.kernel tool report) srv now query s y).netfilter.Opens tool allows x ↔
      s.netfilter.Opens tool allows x ∨ (s.allowedIps.get y.2 = none ∧ x = y.2) := by
  unfold grant
  cases hg : s.allowedIps.get y.2 with
  | some a => simp
  | none =>
    simp only [opens_foldl_allowFlow hdoc (fun f hf => ⟨hfl f hf,srv.toHost_of_mem_flows hf⟩) hs, ne_eq,
      srv.flows_ne_nil,
      not_false_eq_true, true_and]

end

theorem isSome_get_grant {σ : Type} (nf : Netfilter U σ) (srv : Server U) (now : ℤ) (query : Str)
    (s : State U σ) (y : ℕ × Ipv4Addr)
    (x : Ipv4Addr) : ((grant nf srv now query s y).allowedIps.get x).isSome = true ↔
      (s.allowedIps.get x).isSome = true ∨ x = y.2 := by
  rw [get_grant]
  by_cases hx : x = y.2
  · simp [hx]
  · simp [hx]

def Event.Writable (tool : FwTool) (report : Report) (srv : Server U) : Event → Prop
  | .query _ q => ∀ y ∈ q.resolved, ∀ f ∈ srv.flows q.name y.2, f.Writable tool report
  | .expired _ => True

structure Opened (tool : FwTool) (allows : List Json → Packet → Bool) (s : State U Kernel) : Prop where
  plain : s.netfilter.Plain
  opens : ∀ ip, (s.allowedIps.get ip).isSome = true → s.netfilter.Opens tool allows ip

def OnlyRecorded (tool : FwTool) (allows : List Json → Packet → Bool) (s : State U Kernel) : Prop :=
  ∀ ip, s.netfilter.Opens tool allows ip → (s.allowedIps.get ip).isSome = true

theorem netfilter_handleExpired (t : ℤ) (s : State U Kernel) :
    (handleExpired (.kernel tool report) t s).netfilter = s.netfilter := by
  have hd : ∀ t f k, ((kernel (U := U) tool report).delete t f k).1 = k := fun _ f _ => FwTool.flowDeletePolicy_fst f
  have hfl : ∀ out k f, deleteFlow (kernel (U := U) tool report) out k f = k := by
    intro out k f
    unfold deleteFlow
    have hf := hd .filterForward f k
    split
    · rename_i h
      rw [h] at hf
      exact hf
    · rename_i h
      rw [h] at hf
      cases out with
      | false => exact hf
      | true => exact (hd .filterOutput f _).trans hf
  refine foldl_fixed' (fun e => ?_) _
  split
  · exact foldl_fixed' (hfl _ _) _
  · rfl

section
variable (hdoc : Documented N report allows) {srv : Server U}
include hdoc

theorem Opened.foldl_grant {q : Query} (now : ℤ) {xs : List (ℕ × Ipv4Addr)}
    (hf : ∀ y ∈ xs, ∀ f ∈ srv.flows q.name y.2, f.Writable tool report) {s : State U Kernel}
    (h : Opened tool allows s) :
    Opened tool allows (xs.foldl (grant (.kernel tool report) srv now q.name) s) ∧
      (OnlyRecorded tool allows s →
        OnlyRecorded tool allows (xs.foldl (grant (.kernel tool report) srv now q.name) s)) := by
  induction xs generalizing s with
  | nil => exact ⟨h,id⟩
  | cons y xs ih =>
    obtain ⟨hy,hrest⟩ := forall_mem_cons.1 hf
    have ho := opens_grant hdoc hy h.plain now
    have hs := isSome_get_grant (kernel tool report) srv now q.name s y
    have hp : (grant (.kernel tool report) srv now q.name s y).netfilter.Plain :=
      (resolveIp_eq (accepts_kernel hdoc) srv now hy y.1 h.plain).2
    have hop : Opened tool allows (grant (.kernel tool report) srv now q.name s y) := by
      refine ⟨hp,fun ip hip => (ho ip).2 ?_⟩
      rcases (hs ip).1 hip with hip | rfl
      · exact .inl (h.opens ip hip)
      · cases hg : s.allowedIps.get y.2 with
        | none => exact .inr ⟨rfl,rfl⟩
        | some a => exact .inl (h.opens y.2 (by rw [hg]; rfl))
    obtain ⟨ha,hon⟩ := ih hrest hop
    refine ⟨ha,fun hr => hon fun ip hip => (hs ip).2 ?_⟩
    exact ((ho ip).1 hip).imp (hr ip) And.right

theorem Opened.handleEvent {e : Event} (he : e.Writable tool report srv) {s : State U Kernel}
    (h : Opened tool allows s) : Opened tool allows (handleEvent (.kernel tool report) srv s e) := by
  cases e with
  | query now q =>
    rw [Dns.handleEvent,(handleCommand_eq (accepts_kernel hdoc) srv now q he h.plain).1]
    exact (h.foldl_grant hdoc now he).1
  | expired t =>
    refine ⟨?_,fun ip hip => ?_⟩
    · rw [Dns.handleEvent,netfilter_handleExpired]
      exact h.plain
    · rw [Dns.handleEvent,netfilter_handleExpired]
      obtain ⟨a,ha⟩ := isSome_iff_exists.1 hip
      rw [Dns.handleEvent,handleExpired,Dict.get_filter] at ha
      exact h.opens ip (by rw [ha.1]; rfl)

theorem OnlyRecorded.handleEvent {e : Event} (he : e.Writable tool report srv) {s : State U Kernel}
    (h : Opened tool allows s)
    (hr : OnlyRecorded tool allows s) (hk : ∀ t, e = .expired t → ∀ ip a, s.allowedIps.get ip = some a → t < a.endTtl) :
    OnlyRecorded tool allows (handleEvent (.kernel tool report) srv s e) := by
  cases e with
  | query now q =>
    rw [Dns.handleEvent,(handleCommand_eq (accepts_kernel hdoc) srv now q he h.plain).1]
    exact (h.foldl_grant hdoc now he).2 hr
  | expired t =>
    intro ip hip
    rw [Dns.handleEvent,netfilter_handleExpired] at hip
    obtain ⟨a,ha⟩ := isSome_iff_exists.1 (hr ip hip)
    have hlt := hk t rfl ip a ha
    refine isSome_iff_exists.2 ⟨a,(Dict.get_filter _ _ _ _).2 ⟨ha,?_⟩⟩
    simp only [AllowedIp.isExpired,Bool.not_eq_true',decide_eq_false_iff_not]
    omega

/-- Along a run, the ruleset opens the recorded addresses only exactly when no expiry drops an address. -/
theorem opens_iff_recorded_iff_kept {k : Kernel} (hk : k.rules = []) (events : List Event)
    (hwritable : ∀ e ∈ events, e.Writable tool report srv) :
    (∀ past t, past ++ [.expired t] <+: events → ∀ ip,
        (runEvents (.kernel tool report) srv k (past ++ [.expired t])).netfilter.Opens tool allows ip ↔
          ∃ a, (runEvents (.kernel tool report) srv k (past ++ [.expired t])).allowedIps.get ip = some a ∧
            t < a.endTtl) ↔
      ∀ past t, past ++ [.expired t] <+: events → ∀ ip a,
        (runEvents (.kernel tool report) srv k past).allowedIps.get ip = some a → t < a.endTtl := by
  have he : ∀ r, r ∉ k.rules := by simp [hk]
  have hst : Opened tool allows (State.start k : State U Kernel) := ⟨fun r hr => absurd hr (he r),nofun⟩
  have ho : ∀ past, past <+: events → Opened tool allows (runEvents (.kernel tool report) srv k past) := by
    intro past
    induction past using reverseRecOn with
    | nil => exact fun _ => hst
    | append_singleton past e ih =>
      intro hp
      rw [runEvents_concat]
      exact (ih ((prefix_append _ _).trans hp)).handleEvent hdoc (hwritable e (hp.subset (by simp)))
  have hex : ∀ past t ip a, (runEvents (.kernel tool report) srv k (past ++ [.expired t])).allowedIps.get ip = some a ↔
      (runEvents (.kernel tool report) srv k past).allowedIps.get ip = some a ∧ t < a.endTtl := by
    intro past t ip a
    rw [runEvents_concat,handleEvent,handleExpired,Dict.get_filter]
    simp [AllowedIp.isExpired]
  constructor
  · intro h past t hp ip a ha
    have hb := (ho past ((prefix_append _ _).trans hp)).opens ip (by rw [ha]; rfl)
    have haf : (runEvents (.kernel tool report) srv k (past ++ [.expired t])).netfilter.Opens tool allows ip := by
      rw [runEvents_concat,handleEvent,netfilter_handleExpired]
      exact hb
    obtain ⟨a',ha',hlt⟩ := (h past t hp ip).1 haf
    have hs := ((hex past t ip a').1 ha').1
    rw [ha] at hs
    cases hs
    exact hlt
  · intro h
    have hon : ∀ past, past <+: events → OnlyRecorded tool allows (runEvents (.kernel tool report) srv k past) := by
      intro past
      induction past using reverseRecOn with
      | nil =>
        rintro _ ip ⟨r,hr,_⟩
        exact absurd hr (he r)
      | append_singleton past e ih =>
        intro hp
        have hb := (prefix_append past [e]).trans hp
        rw [runEvents_concat]
        refine OnlyRecorded.handleEvent hdoc (hwritable e (hp.subset (by simp))) (ho past hb) (ih hb) ?_
        rintro t rfl
        exact h past t hp
    intro past t hp ip
    constructor
    · intro hip
      obtain ⟨a,ha⟩ := isSome_iff_exists.1 (hon _ hp ip hip)
      exact ⟨a,ha,((hex past t ip a).1 ha).2⟩
    · rintro ⟨a,ha,_⟩
      exact (ho _ hp).opens ip (by rw [ha]; rfl)

end

def wordsReport : Report := fun words =>
  if words.getLast? = some Policy.allow.keyword ∧ Nft.reference.reads words.dropLast = true then
    some [.obj [("match",.arr (words.dropLast.map .str))],.obj [("accept",.null)]]
  else none

def wordsOf : Json → List Str
  | .arr items => items.filterMap fun
    | .str s => some s
    | _ => none
  | _ => []

def wordsAllow (expr : List Json) (pkt : Packet) : Bool :=
  match expr with
  | .obj [(_,words)] :: _ => Nft.reference.satisfies pkt (wordsOf words)
  | _ => false

theorem documented_words : Documented Nft.reference wordsReport wordsAllow := by
  have hr : ∀ args expr, wordsReport (args ++ [Policy.allow.keyword]) = some expr → Nft.reference.reads args = true ∧
      expr = [.obj [("match",.arr (args.map .str))],.obj [("accept",.null)]] := by
    intro args expr h
    unfold wordsReport at h
    rw [dropLast_concat] at h
    split at h
    · rename_i hre
      exact ⟨hre.2,(Option.some.inj h).symm⟩
    · cases h
  refine ⟨Nft.lawful_reference,?_,fun args expr h => (hr args expr h).1,?_,?_⟩
  · intro s m hm
    simp only [Nft.reference] at hm
    split at hm
    · rename_i spec _
      cases hm
      cases spec with
      | port p => exact ⟨p,by simp [PortSpec.contains]⟩
      | range a b pos lt => exact ⟨a,by simp [PortSpec.contains,UInt16.le_of_lt lt]⟩
    · cases hm
  · intro args expr h pkt
    rw [(hr args expr h).2]
    simp only [wordsAllow,wordsOf,filterMap_map,Function.comp_def,filterMap_some]
  · intro args expr h e he
    rw [(hr args expr h).2] at he
    simp only [mem_cons,not_mem_nil,or_false] at he
    rcases he with rfl | rfl
    · exact ⟨_,rfl,rfl⟩
    · exact ⟨_,rfl,rfl⟩

theorem writable_webFlow :
    NetFlow.Writable plainTool wordsReport (flowBehind (U := .ascii) eth0 [.tcp] [port443] [] hostA) := by
  refine ⟨[(some .tcp,flowBehind eth0 [.tcp] [port443] [] hostA)],by decide +kernel,fun part hp => ?_⟩
  rw [mem_singleton.1 hp]
  have ha : (flowBehind (U := .ascii) eth0 [.tcp] [port443] [] hostA).nftArgs = .ok ["ip","protocol","tcp",
      "meta","oif","eth0","ip","daddr","\x7b10.0.0.1\x7d",
      "tcp","dport","\x7b443\x7d"] := by decide +kernel
  exact ⟨_,_,ha,if_pos ⟨rfl,by decide +kernel⟩⟩

theorem writable_webQuery : Event.Writable plainTool wordsReport (started [webRule] [] eth0)
    (.query 0 (resolvedHost "a.com." 60)) := by
  intro y hy f hf
  have hfl : (started [webRule] [] eth0).flows "a.com." hostA = [flowBehind eth0 [.tcp] [port443] [] hostA] := by
    decide +kernel
  cases mem_singleton.1 hy
  change f ∈ (started [webRule] [] eth0).flows "a.com." hostA at hf
  rw [hfl] at hf
  rw [mem_singleton.1 hf]
  exact writable_webFlow

theorem opens_iff_recorded_before_end :
    Documented Nft.reference wordsReport wordsAllow ∧
      (∀ e ∈ [Event.query 0 (resolvedHost "a.com." 60),.expired 60],
        e.Writable plainTool wordsReport (Server.started [webRule] [] eth0)) ∧
      ∀ past t, past ++ [.expired t] <+: [Event.query 0 (resolvedHost "a.com." 60),.expired 60] → ∀ ip,
        (runEvents (.kernel plainTool wordsReport) (Server.started [webRule] [] eth0) emptyKernel
            (past ++ [.expired t])).netfilter.Opens plainTool wordsAllow ip ↔
          ∃ a, (runEvents (.kernel plainTool wordsReport) (Server.started [webRule] [] eth0) emptyKernel
            (past ++ [.expired t])).allowedIps.get ip = some a ∧ t < a.endTtl := by
  have hw : ∀ e ∈ [Event.query 0 (resolvedHost "a.com." 60),.expired 60],
      e.Writable plainTool wordsReport (started [webRule] [] eth0) :=
    forall_mem_cons.2 ⟨writable_webQuery,forall_mem_cons.2 ⟨trivial,nofun⟩⟩
  refine ⟨documented_words,hw,(opens_iff_recorded_iff_kept documented_words rfl _ hw).2 ?_⟩
  intro past t hp ip a ha
  have ho : past = [.query 0 (resolvedHost "a.com." 60)] ∧ t = 60 := by
    rcases past with _ | ⟨e,_ | ⟨e',past⟩⟩
    · simp at hp
    · simpa using hp
    · simp at hp
  obtain ⟨rfl,rfl⟩ := ho
  have he : ((runEvents (.kernel plainTool wordsReport) (started [webRule] [] eth0) emptyKernel
      [.query 0 (resolvedHost "a.com." 60)]).allowedIps.entries.all fun x => decide (60 < x.2.endTtl)) = true :=
        by decide +kernel
  exact of_decide_eq_true (all_eq_true.1 he _ (Dict.mem_of_get ha))

/-- The address is forgotten after its end, and a packet to it is still accepted. -/
theorem forgotten_address_stays_open :
    Documented Nft.reference wordsReport wordsAllow ∧
      (runEvents (.kernel plainTool wordsReport) (Server.started [webRule] [] eth0) emptyKernel
        [.query 0 (resolvedHost "a.com." 60),.expired 5000]).allowedIps.get hostA = none ∧
      (runEvents (.kernel plainTool wordsReport) (Server.started [webRule] [] eth0) emptyKernel
        [.query 0 (resolvedHost "a.com." 60),.expired 5000]).netfilter.Opens plainTool wordsAllow hostA := by
  have hnone : ((runEvents (.kernel plainTool wordsReport) (started [webRule] [] eth0) emptyKernel
      [.query 0 (resolvedHost "a.com." 60),.expired 5000]).allowedIps.get hostA).isNone = true := by decide +kernel
  have hru : ((runEvents (.kernel plainTool wordsReport) (started [webRule] [] eth0) emptyKernel
      [.query 0 (resolvedHost "a.com." 60),.expired 5000]).netfilter.rules.any fun r =>
        decide (r.family = "ip" ∧ r.table = plainTool.tableOf .filterForward ∧
          r.chain = plainTool.chainOf .filterForward) &&
          wordsAllow r.expr ⟨none,some "eth0",⟨10,0,0,2⟩,hostA,6,some (40000,443)⟩) = true := by decide +kernel
  obtain ⟨r,hr,hopen⟩ := any_eq_true.1 hru
  obtain ⟨hp,ha⟩ := Bool.and_eq_true_iff.1 hopen
  exact ⟨documented_words,isNone_iff_eq_none.1 hnone,
    r,hr,⟨.filterForward,by simp,of_decide_eq_true hp⟩,_,rfl,ha⟩

end Padsi.Dns
