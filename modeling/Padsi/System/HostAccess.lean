import Padsi.Config.InRules
import Padsi.Fw.Nft
import Padsi.Fw.Search

/-! # The outbound rules of the host

The flow of a rule has its endpoint as the source, so that what is decided about a
packet depends on where it comes from.
-/
namespace Padsi.System
open Text Python Net Fw Config List Endpoint

variable {U : Unicode}

structure HostChains (U : Unicode) where
  output : List (NetFlow U × Fw.Policy)
  input : List (NetFlow U × Fw.Policy)

def flowSetPolicy (chain : List (NetFlow U × Fw.Policy)) (flow : NetFlow U) (policy : Fw.Policy) :
    List (NetFlow U × Fw.Policy) :=
  chain ++ [(flow,policy)]

def policyOf : Dns.Action → Fw.Policy
  | .allow => .allow
  | .deny => .deny

def setOutRules (chain : List (NetFlow U × Fw.Policy)) : List (FWRule U) → Except Exc (List (NetFlow U × Fw.Policy))
  | [] => .ok chain
  | rule :: rules => do
    let flow ← NetFlow.new (some rule.endpoint) none
    setOutRules (flowSetPolicy chain flow (policyOf rule.action)) rules

/-- Nothing is done unless the access is managed; the inbound rules go through another object. -/
def setupFwRules (managed : Bool) (outRules : Option (List (FWRule U))) : Except Exc (Option (HostChains U)) :=
  if managed then do
    let request ← NetFlow.fromRepr U "* ^ 68 > udp > 255.255.255.255 ^ 67"
    let answer ← NetFlow.fromRepr U "* ^ 67 > udp > * ^68"
    let multicast ← NetFlow.fromRepr U "* > > 224.0.0.0/4"
    let output := flowSetPolicy (flowSetPolicy [] request .allow) multicast .deny
    let input := flowSetPolicy (flowSetPolicy [] answer .allow) multicast .deny
    let output ← setOutRules output (outRules.getD [])
    return some ⟨output,input⟩
  else .ok none

def Accepts : List (NetFlow U × Fw.Policy) → Packet → Prop
  | [], _ => False
  | (flow,policy) :: rules, pkt => (flow.Carries pkt ∧ policy = .allow) ∨ (¬flow.Carries pkt ∧ Accepts rules pkt)

structure End where
  interface : Option Str
  address : Ipv4Addr
  port : Option UInt16

def source (pkt : Packet) : End := ⟨pkt.iif,pkt.saddr,pkt.ports.map Prod.fst⟩
def destination (pkt : Packet) : End := ⟨pkt.oif,pkt.daddr,pkt.ports.map Prod.snd⟩

structure Contains (e : Endpoint U) (protocol : UInt8) (x : End) : Prop where
  protocol : e.protocols ≠ [] → ∃ p ∈ e.protocols, protocolNumber p = protocol
  interface : e.CarriesInterface x.interface
  address : e.CarriesAddress x.address
  port : e.CarriesPort x.port

def FirstAllows (rules : List (FWRule U)) (protocol : UInt8) (x : End) : Prop :=
  ∃ before rule after, rules = before ++ rule :: after ∧ Contains rule.endpoint protocol x ∧
    (∀ r ∈ before, ¬Contains r.endpoint protocol x) ∧ rule.action = .allow

def HasPorts (protocol : UInt8) : Prop := protocol = protocolNumber .tcp ∨ protocol = protocolNumber .udp

structure Outgoing (pkt : Packet) : Prop where
  origin : pkt.iif = none
  ports : pkt.ports.isSome = true ↔ HasPorts pkt.protocol

def IsDhcp (pkt : Packet) : Prop :=
  pkt.protocol = protocolNumber .udp ∧ pkt.ports = some (68,67) ∧ pkt.daddr = ⟨255,255,255,255⟩
def multicastNetwork : Ipv4Network := ⟨⟨224,0,0,0⟩,4,by decide⟩
def IsMulticast (pkt : Packet) : Prop := multicastNetwork.Mem pkt.daddr

/-- Where the host sends from, and where to except for multicast. -/
structure IsEnd (protocol : UInt8) (x : End) : Prop where
  ports : x.port.isSome = true ↔ HasPorts protocol
  place : x.interface = none ∨ ¬multicastNetwork.Mem x.address

/-- The chain decides as the rules of the configuration say. -/
def AsConfigured (chain : List (NetFlow U × Fw.Policy)) (rules : List (FWRule U)) : Prop :=
  ∀ pkt, Outgoing pkt → ¬IsDhcp pkt → ¬IsMulticast pkt →
    (Accepts chain pkt ↔ FirstAllows rules pkt.protocol (destination pkt))

/-- For each protocol, the rules allow everything or nothing. -/
def AllOrNothing (rules : List (FWRule U)) : Prop :=
  ∀ protocol, (∀ x, IsEnd protocol x → FirstAllows rules protocol x) ∨ ∀ x, IsEnd protocol x →
    ¬FirstAllows rules protocol x

theorem analysePortSpec_single (hU : U.Lawful) (p : Port) {s : Str} (hs : itemsOf s = [Nat.toDigits 10 p.val]) :
    analysePortSpec U (some s) = .ok ([p],[]) := by
  have hi := Dns.readPortItem_digits hU p
  rw [strip_digits] at hi
  rw [analysePortSpec,hs]
  exact bind_eq_ok.2 ⟨_,hi,rfl⟩

def requestFlow : NetFlow U :=
  ⟨.ofParts [.all] none [.udp] [⟨68,by decide⟩] [],
    .ofParts [.address ⟨255,255,255,255⟩] none [.udp] [⟨67,by decide⟩] []⟩

theorem fromRepr_request (hU : U.Lawful) :
    NetFlow.fromRepr U "* ^ 68 > udp > 255.255.255.255 ^ 67" = .ok requestFlow := by
  have hs : fromRepr U "* ^ 68 " (some " udp ") = .ok (requestFlow (U := U)).src :=
    bind_eq_ok.2 ⟨_,rfl,
      bind_eq_ok.2 ⟨_,rfl,bind_eq_ok.2 ⟨_,analysePortSpec_single hU ⟨68,by decide⟩ (by decide +kernel),rfl⟩⟩⟩
  have hd : fromRepr U " 255.255.255.255 ^ 67" (some " udp ") = .ok (requestFlow (U := U)).dest :=
    bind_eq_ok.2 ⟨_,rfl,
      bind_eq_ok.2 ⟨_,rfl,bind_eq_ok.2 ⟨_,analysePortSpec_single hU ⟨67,by decide⟩ (by decide +kernel),rfl⟩⟩⟩
  have hsplit : "* ^ 68 > udp > 255.255.255.255 ^ 67".toList.splitOn '>' = ["* ^ 68 "," udp ",
      " 255.255.255.255 ^ 67"] := by
    decide +kernel
  rw [NetFlow.fromRepr,hsplit]
  exact bind_eq_ok.2 ⟨_,hs,bind_eq_ok.2 ⟨_,hd,rfl⟩⟩

def answerFlow : NetFlow U :=
  ⟨.ofParts [.all] none [.udp] [⟨67,by decide⟩] [],.ofParts [.all] none [.udp] [⟨68,by decide⟩] []⟩

theorem fromRepr_answer (hU : U.Lawful) : NetFlow.fromRepr U "* ^ 67 > udp > * ^68" = .ok answerFlow := by
  have hs : fromRepr U "* ^ 67 " (some " udp ") = .ok (answerFlow (U := U)).src :=
    bind_eq_ok.2 ⟨_,rfl,
      bind_eq_ok.2 ⟨_,rfl,bind_eq_ok.2 ⟨_,analysePortSpec_single hU ⟨67,by decide⟩ (by decide +kernel),rfl⟩⟩⟩
  have hd : fromRepr U " * ^68" (some " udp ") = .ok (answerFlow (U := U)).dest :=
    bind_eq_ok.2 ⟨_,rfl,
      bind_eq_ok.2 ⟨_,rfl,bind_eq_ok.2 ⟨_,analysePortSpec_single hU ⟨68,by decide⟩ (by decide +kernel),rfl⟩⟩⟩
  have hsplit : "* ^ 67 > udp > * ^68".toList.splitOn '>' = ["* ^ 67 "," udp "," * ^68"] := by decide +kernel
  rw [NetFlow.fromRepr,hsplit]
  exact bind_eq_ok.2 ⟨_,hs,bind_eq_ok.2 ⟨_,hd,rfl⟩⟩

def multicastFlow : NetFlow U := ⟨.unspecified,.ofParts [.network multicastNetwork] none [] [] []⟩
theorem fromRepr_multicast : NetFlow.fromRepr U "* > > 224.0.0.0/4" = .ok multicastFlow := rfl

variable {pkt : Packet} {rules : List (FWRule U)} {protocol : UInt8}

theorem isDhcp_of_carries (h : (requestFlow (U := U)).Carries pkt) : IsDhcp pkt := by
  obtain ⟨p,hp,hpr⟩ := h.protocol [.udp] rfl (by simp)
  rw [mem_singleton.1 hp] at hpr
  obtain ⟨k,hk,hkm⟩ := h.sport (.inl (by simp [requestFlow,ofParts]))
  obtain ⟨l,hl,hlm⟩ := h.dport (.inl (by simp [requestFlow,ofParts]))
  have hk6 : k = 68 := UInt16.toNat_inj.1 (by simpa [requestFlow,ofParts,portsMap] using hkm)
  have hl6 : l = 67 := UInt16.toNat_inj.1 (by simpa [requestFlow,ofParts,portsMap] using hlm)
  obtain ⟨⟨sport,dport⟩,hpo,hs⟩ := Option.map_eq_some_iff.1 hk
  rw [hpo] at hl
  cases hs
  cases hl
  refine ⟨hpr.symm,hpo.trans (congrArg some (Prod.ext hk6 hl6)),?_⟩
  · rcases h.daddr with hzones | ⟨z,hz,hd⟩
    · simp [requestFlow,ofParts] at hzones
    · have hzone : z = .address ⟨255,255,255,255⟩ := by simpa [requestFlow,ofParts] using hz
      subst hzone
      exact Zone.denotes_address.1 hd

theorem isMulticast_of_carries (h : (multicastFlow (U := U)).Carries pkt) : IsMulticast pkt := by
  rcases h.daddr with hzones | ⟨z,hz,hd⟩
  · simp [multicastFlow,ofParts] at hzones
  · have hzone : z = .network multicastNetwork := by simpa [multicastFlow,ofParts] using hz
    subst hzone
    exact Zone.denotes_network.1 hd

def ruleFlow (r : FWRule U) : NetFlow U × Fw.Policy := (⟨r.endpoint,.unspecified⟩,policyOf r.action)

theorem setOutRules_eq (chain : List (NetFlow U × Fw.Policy)) (rules : List (FWRule U)) :
    setOutRules chain rules = .ok (chain ++ rules.map ruleFlow) := by
  induction rules generalizing chain with
  | nil => rw [setOutRules,map_nil,append_nil]
  | cons r rules ih =>
    have hn : NetFlow.new (some r.endpoint) none = .ok ⟨r.endpoint,.unspecified⟩ := by
      have hc : NetFlow.checkProtocols ⟨r.endpoint,.unspecified⟩ = .ok () := if_neg fun h => h.2.1 rfl
      exact bind_eq_ok.2 ⟨_,hc,rfl⟩
    rw [setOutRules,map_cons,append_cons]
    exact bind_eq_ok.2 ⟨_,hn,ih _⟩

theorem setupFwRules_eq (hU : U.Lawful) (rules : List (FWRule U)) : setupFwRules true (some rules) =
    .ok (some ⟨(requestFlow,.allow) :: (multicastFlow,.deny) :: rules.map ruleFlow,
      [(answerFlow,.allow),(multicastFlow,.deny)]⟩) := by
  refine bind_eq_ok.2 ⟨_,fromRepr_request hU,bind_eq_ok.2 ⟨_,fromRepr_answer hU,bind_eq_ok.2 ⟨_,fromRepr_multicast,?_⟩⟩⟩
  exact bind_eq_ok.2 ⟨_,setOutRules_eq _ rules,rfl⟩

theorem carries_ruleFlow {r : FWRule U} : (ruleFlow r).1.Carries pkt ↔
    Contains r.endpoint pkt.protocol (source pkt) := by
  have hp : (ruleFlow r).1.protocols = .ok r.endpoint.protocols := by
    have hc : NetFlow.checkProtocols (ruleFlow r).1 = .ok () := if_neg fun h => h.2.1 rfl
    refine bind_eq_ok.2 ⟨_,hc,?_⟩
    by_cases hne : r.endpoint.protocols = []
    · simp [ruleFlow,hne,unspecified,ofParts,pure,Except.pure]
    · simp [ruleFlow,hne,pure,Except.pure]
  constructor
  · intro h
    exact ⟨h.protocol _ hp,h.iif,h.saddr,h.sport⟩
  · intro h
    refine ⟨fun protos hpr => ?_,h.interface,?_,h.address,?_,h.port,?_⟩
    · cases hp.symm.trans hpr
      exact h.protocol
    · simp [ruleFlow,Endpoint.CarriesInterface,unspecified,ofParts]
    · exact .inr ⟨.all,by simp [ruleFlow,unspecified,ofParts],.inl rfl⟩
    · simp [ruleFlow,Endpoint.CarriesPort,Endpoint.NamesPorts,unspecified,ofParts]

theorem firstAllows_nil (protocol : UInt8) (x : End) : ¬FirstAllows ([] : List (FWRule U)) protocol x := by
  rintro ⟨before,rule,after,heq,-⟩
  simp at heq

theorem firstAllows_cons {r : FWRule U} {x : End} : FirstAllows (r :: rules) protocol x ↔
    Contains r.endpoint protocol x ∧ r.action = .allow ∨ ¬Contains r.endpoint protocol x ∧
      FirstAllows rules protocol x := by
  constructor
  · rintro ⟨before,rule,after,heq,hin,hb,hallow⟩
    cases before with
    | nil =>
      cases heq
      exact .inl ⟨hin,hallow⟩
    | cons b before =>
      cases heq
      exact .inr ⟨hb _ mem_cons_self,before,rule,after,rfl,hin,fun r hr => hb r (mem_cons_of_mem _ hr),hallow⟩
  · rintro (⟨hin,hallow⟩ | ⟨ho,before,rule,after,rfl,hin,hb,hallow⟩)
    · exact ⟨[],r,rules,rfl,hin,by simp,hallow⟩
    · exact ⟨r :: before,rule,after,rfl,hin,forall_mem_cons.2 ⟨ho,hb⟩,hallow⟩

theorem accepts_rules (rules : List (FWRule U)) (pkt : Packet) :
    Accepts (rules.map ruleFlow) pkt ↔ FirstAllows rules pkt.protocol (source pkt) := by
  induction rules with
  | nil => exact iff_of_false (fun h => h) (firstAllows_nil _ _)
  | cons r rules ih =>
    have hp : (ruleFlow r).2 = .allow ↔ r.action = .allow := by
      unfold ruleFlow policyOf
      cases r.action <;> simp
    rw [map_cons,firstAllows_cons,← ih,← carries_ruleFlow,← hp]
    rfl

theorem accepts_output (hd : ¬IsDhcp pkt) (hm : ¬IsMulticast pkt) :
    Accepts ((requestFlow,.allow) :: (multicastFlow,.deny) :: rules.map ruleFlow) pkt ↔
      FirstAllows rules pkt.protocol (source pkt) := by
  have hr : ¬(requestFlow (U := U)).Carries pkt := fun h => hd (isDhcp_of_carries h)
  have ho : ¬(multicastFlow (U := U)).Carries pkt := fun h => hm (isMulticast_of_carries h)
  simp only [Accepts,hr,ho,false_and,not_false_eq_true,true_and,false_or]
  exact accepts_rules rules pkt

theorem isEnd_source (hp : Outgoing pkt) : IsEnd pkt.protocol (source pkt) :=
  ⟨by simpa [source] using hp.ports,.inl hp.origin⟩
theorem isEnd_destination (hp : Outgoing pkt) (hm : ¬IsMulticast pkt) : IsEnd pkt.protocol (destination pkt) :=
  ⟨by simpa [destination] using hp.ports,.inr hm⟩

theorem exists_packet {x y : End} (hx : IsEnd protocol x) (hs : x.interface = none) (hy : IsEnd protocol y) :
    ∃ pkt, Outgoing pkt ∧ pkt.protocol = protocol ∧ source pkt = x ∧ destination pkt = y := by
  obtain ⟨i,a,p⟩ := x
  obtain ⟨j,b,q⟩ := y
  cases hs
  have hp := hx.ports
  have hp' := hy.ports
  cases p with
  | none =>
    cases q with
    | none => exact ⟨⟨none,j,a,b,protocol,none⟩,⟨rfl,hp⟩,rfl,rfl,rfl⟩
    | some q => exact absurd (hp.2 (hp'.1 rfl)) (by simp)
  | some p =>
    cases q with
    | none => exact absurd (hp'.2 (hp.1 rfl)) (by simp)
    | some q => exact ⟨⟨none,j,a,b,protocol,some (p,q)⟩,⟨rfl,hp⟩,rfl,rfl,rfl⟩

instance (protocol : UInt8) : Decidable (HasPorts protocol) := inferInstanceAs (Decidable (_ ∨ _))
def plainEnd (protocol : UInt8) : End := ⟨none,⟨10,0,0,1⟩,if HasPorts protocol then some 1 else none⟩

theorem isEnd_plainEnd (protocol : UInt8) : IsEnd protocol (plainEnd protocol) := by
  refine ⟨?_,.inl rfl⟩
  unfold plainEnd
  split_ifs with hp <;> simp [hp]

theorem firstAllows_iff_plainEnd
    (h : AsConfigured ((requestFlow,.allow) :: (multicastFlow,.deny) :: rules.map ruleFlow) rules) {x : End}
    (hx : IsEnd protocol x) : FirstAllows rules protocol x ↔ FirstAllows rules protocol (plainEnd protocol) := by
  have hpl := isEnd_plainEnd protocol
  rcases hx.place with hso | hpla
  · -- from the end to the plain one
    obtain ⟨pkt,hp,rfl,hs,hd⟩ := exists_packet hx hso hpl
    have ha : pkt.daddr = ⟨10,0,0,1⟩ := congrArg End.address hd
    have hdh : ¬IsDhcp pkt := by
      rintro ⟨-,-,hal⟩
      cases ha.symm.trans hal
    have hm : ¬IsMulticast pkt := by
      rw [IsMulticast,ha]
      decide
    have hag := h pkt hp hdh hm
    rwa [accepts_output hdh hm, hs, hd] at hag
  · -- from the plain one to the end
    obtain ⟨pkt,hp,rfl,hs,hd⟩ := exists_packet hpl rfl hx
    have hm : ¬IsMulticast pkt := by
      have ha : pkt.daddr = x.address := congrArg End.address hd
      rwa [IsMulticast, ha]
    have hdh : ¬IsDhcp pkt := by
      rintro ⟨-,hpr,-⟩
      have hpo : pkt.ports.map Prod.fst = (plainEnd pkt.protocol).port := congrArg End.port hs
      rw [hpr,plainEnd] at hpo
      split_ifs at hpo <;> cases hpo
    have hag := h pkt hp hdh hm
    rw [accepts_output hdh hm,hs,hd] at hag
    exact hag.symm

/-- The chain decides as configured just if, for each protocol, the rules allow everything or nothing. -/
theorem output_asConfigured_iff (hU : U.Lawful) (rules : List (FWRule U)) :
    ∃ chains, setupFwRules true (some rules) = .ok (some chains) ∧
      (AsConfigured chains.output rules ↔ AllOrNothing rules) := by
  refine ⟨_,setupFwRules_eq hU rules,?_,?_⟩
  · intro h protocol
    by_cases hpl : FirstAllows rules protocol (plainEnd protocol)
    · exact .inl fun x hx => (firstAllows_iff_plainEnd h hx).2 hpl
    · exact .inr fun x hx => mt (firstAllows_iff_plainEnd h hx).1 hpl
  · intro h pkt hp hd hm
    rw [accepts_output hd hm]
    rcases h pkt.protocol with ha | hnone
    · exact iff_of_true (ha _ (isEnd_source hp)) (ha _ (isEnd_destination hp hm))
    · exact iff_of_false (hnone _ (isEnd_source hp)) (hnone _ (isEnd_destination hp hm))

theorem contains_unspecified (protocol : UInt8) (x : End) : Contains (.unspecified : Endpoint U) protocol x where
  protocol h := absurd rfl h
  interface := by simp [Endpoint.CarriesInterface,unspecified,ofParts]
  address := .inr ⟨.all,by simp [unspecified,ofParts],.inl rfl⟩
  port := by simp [Endpoint.CarriesPort,Endpoint.NamesPorts,unspecified,ofParts]

/-- Access to everything is as configured. -/
theorem everything_asConfigured :
    ∃ chains, setupFwRules true (some [(⟨.allow,none,.unspecified,.forward⟩ : FWRule .ascii)]) = .ok (some chains) ∧
    AsConfigured chains.output [⟨.allow,none,.unspecified,.forward⟩] := by
  obtain ⟨chains,hs,hi⟩ := output_asConfigured_iff Unicode.lawful_ascii [⟨.allow,none,.unspecified,.forward⟩]
  refine ⟨chains,hs,hi.2 fun protocol => .inl fun x _ => ?_⟩
  exact firstAllows_cons.2 (.inl ⟨contains_unspecified protocol x,rfl⟩)

def webRequest : Packet := ⟨none,some "eth0",⟨192,168,1,5⟩,⟨10,0,0,1⟩,6,some (40000,443)⟩
def webAccess : FWRule .ascii := ⟨.allow,none,oneHostWeb,.forward⟩

theorem contains_webRequest : Contains oneHostWeb webRequest.protocol (destination webRequest) where
  protocol _ := ⟨.tcp,by simp [oneHostWeb],rfl⟩
  interface := by simp [Endpoint.CarriesInterface,oneHostWeb]
  address := .inr ⟨.address ⟨10,0,0,1⟩,by simp [oneHostWeb],Zone.denotes_address.2 rfl⟩
  port _ := ⟨443,rfl,by simp [portsMap,oneHostWeb,port443]⟩

/-- The only rule gives access to the server, and the packet is not accepted. -/
theorem webRequest_denied : Outgoing webRequest ∧ ¬IsDhcp webRequest ∧ ¬IsMulticast webRequest ∧
    FirstAllows [webAccess] webRequest.protocol (destination webRequest) ∧
      ∃ chains, setupFwRules true (some [webAccess]) = .ok (some chains) ∧ ¬Accepts chains.output webRequest := by
  have hd : ¬IsDhcp webRequest := by
    rintro ⟨hp,-⟩
    revert hp
    decide
  have hm : ¬IsMulticast webRequest := by
    unfold IsMulticast
    decide
  refine ⟨⟨rfl,by decide⟩,hd,hm,firstAllows_cons.2 (.inl ⟨contains_webRequest,rfl⟩),_,
    setupFwRules_eq Unicode.lawful_ascii _,?_⟩
  rw [accepts_output hd hm,firstAllows_cons]
  rintro (⟨hs,-⟩ | ⟨-,hnone⟩)
  · rcases hs.address with hzones | ⟨z,hz,hde⟩
    · cases hzones
    · rw [mem_singleton.1 hz,Zone.denotes_address] at hde
      exact absurd hde (by decide)
  · exact firstAllows_nil _ _ hnone

end Padsi.System
