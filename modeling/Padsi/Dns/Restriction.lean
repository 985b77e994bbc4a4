import Padsi.Dns.Firewall

/-! # Restrictions from the rules to the flows

A rule is written to a file, read back and applied to the answers of a query. One with
ports and without protocols is lost on the way.
-/
namespace Padsi.Dns
open Text Net Python Regex Fw List ResolvEntry Server

variable {U : Unicode}

def ResolvRule.isLoaded (r : ResolvRule U) : Bool := decide (r.action = .allow ∧ r.endpoint.protocols ≠ [])

theorem compiles_domainToRegex (hU : U.Lawful) {d : Str} (h : isDomainName U d = .ok true) :
    (compile (domainToRegex d)).isSome = true := by
  have hp := (domainText_of_isDomainName hU h).plain
  by_cases hs : '*' ∈ d
  · have hm : '§' ∉ d := fun h => absurd (hp _ h) (by decide)
    rw [domainToRegex_of_star hs hm,compile_anchored (writable_tokens hp)]
    rfl
  · have hl : tokens true d = d.map .lit := tokens_of_starless hs
    rw [domainToRegex_of_starless hs,compile_tokens (hl ▸ writable_tokens hp)]
    rfl

theorem readQuery_domain (hU : U.Lawful) {d : Str} (h : isDomainName U d = .ok true) :
    ∃ p, readQuery (some d) = .ok p ∧ p.text = domainToRegex d := by
  refine ⟨⟨domainToRegex d,compiles_domainToRegex hU h⟩,?_,rfl⟩
  simp only [readQuery,(domainText_of_isDomainName hU h).dotted,ne_eq,not_true_eq_false,if_false,
    dif_pos (compiles_domainToRegex hU h)]

theorem restriction_of_loaded (hU : U.Lawful) {r : ResolvRule U} (hr : r.isLoaded = true) {z : Zone U}
    (hz : z ∈ r.endpoint.zones) :
    ∃ p spec, (r.entry z).restriction U = some (p,spec) ∧ p.text = domainToRegex z.text ∧
      SameServices spec.endpoint r.endpoint := by
  obtain ⟨hallow,hpr⟩ := of_decide_eq_true hr
  obtain ⟨text,spec,ht,hs,hsa⟩ := readSpec_specOf hU hpr
  obtain ⟨p,hp,hre⟩ := readQuery_domain hU (r.names z hz)
  obtain ⟨c,rest,rfl⟩ := exists_cons_of_ne_nil (specOf_ne_nil ht)
  have hrd : readRestriction U (some z.text) (c :: rest) = .ok (p,spec) :=
    bind_eq_ok.2 ⟨spec,hs,bind_eq_ok.2 ⟨p,hp,rfl⟩⟩
  refine ⟨p,spec,?_,hre,hsa⟩
  simp only [restriction,ResolvRule.entry,hallow,ht,hrd]

theorem restriction_of_skipped (hU : U.Lawful) {r : ResolvRule U} (hr : r.isLoaded = false) (z : Zone U) :
    (r.entry z).restriction U = none := by
  have hnot := of_decide_eq_false hr
  unfold restriction ResolvRule.entry
  split
  · rename_i c text hallow ht
    have hp : r.endpoint.protocols = [] := by
      by_contra hne
      exact hnot ⟨hallow,hne⟩
    obtain ⟨x,hx⟩ := readSpec_of_no_protocol hU hp ht
    have hre : readRestriction U (some z.text) (c :: text) = .error x := by
      rw [readRestriction,hx]
      rfl
    simp only [hre]
  · rfl

def heads (rules : List (ResolvRule U)) : List (Str × Endpoint U) :=
  (rules.filter ResolvRule.isLoaded).flatMap fun r => r.endpoint.zones.map fun z => (domainToRegex z.text,r.endpoint)
def ReadAs (x : Pattern × Spec U) (h : Str × Endpoint U) : Prop := x.1.text = h.1 ∧ SameServices x.2.endpoint h.2

theorem forall₂_restrictions (hU : U.Lawful) (rules : List (ResolvRule U)) :
    List.Forall₂ ReadAs ((rulesFile rules).filterMap (restriction U)) (heads rules) := by
  induction rules with
  | nil => exact .nil
  | cons r rules ih =>
    rw [rulesFile,flatMap_cons,filterMap_append,ResolvRule.formatForComponent]
    have he : ∀ zs : List (Zone U), (∀ z ∈ zs, z ∈ r.endpoint.zones) →
        List.Forall₂ ReadAs
          ((zs.map r.entry).filterMap (restriction U))
          (if r.isLoaded then zs.map fun z => (domainToRegex z.text,r.endpoint) else []) := by
      intro zs hzs
      induction zs with
      | nil => cases r.isLoaded <;> exact .nil
      | cons z zs ihz =>
        have hrest := ihz fun z hz => hzs z (mem_cons_of_mem _ hz)
        cases hr : r.isLoaded with
        | false =>
          rw [hr] at hrest
          rw [map_cons,filterMap_cons_none (restriction_of_skipped hU hr z)]
          exact hrest
        | true =>
          rw [hr] at hrest
          obtain ⟨p,spec,heq,ht,hs⟩ := restriction_of_loaded hU hr (hzs z mem_cons_self)
          rw [map_cons,filterMap_cons_some heq]
          exact .cons ⟨ht,hs⟩ hrest
    have hh : heads (r :: rules) =
        (if r.isLoaded then r.endpoint.zones.map fun z => (domainToRegex z.text,r.endpoint) else []) ++
          heads rules := by
      unfold heads
      cases hr : r.isLoaded <;> simp [hr]
    rw [hh]
    exact rel_append (he _ fun _ h => h) ih

/-- The protocols and the ports of an endpoint are among those of another one, where that one names them. -/
structure ServicesWithin (a e : Endpoint U) : Prop where
  protocols : e.protocols ≠ [] → a.protocols ≠ [] ∧ ∀ p ∈ a.protocols, p ∈ e.protocols
  ports : e.NamesPorts → a.NamesPorts ∧ ∀ k ∈ a.portsMap, k ∈ e.portsMap

def Unrestricted (e : Endpoint U) : Prop := e.protocols = [] ∧ ¬ e.NamesPorts

theorem servicesWithin_congr {a b : Endpoint U} (h : SameServices a b) (e : Endpoint U) :
    ServicesWithin a e ↔ ServicesWithin b e := by
  have hpo : (∀ k ∈ a.portsMap, k ∈ e.portsMap) ↔ ∀ k ∈ b.portsMap, k ∈ e.portsMap := by simp only [h.mem_portsMap]
  constructor
  · rintro ⟨hp,hq⟩
    exact ⟨h.protocols ▸ hp,fun hn => ⟨h.namesPorts.1 (hq hn).1,hpo.1 (hq hn).2⟩⟩
  · rintro ⟨hp,hq⟩
    exact ⟨h.protocols ▸ hp,fun hn => ⟨h.namesPorts.2 (hq hn).1,hpo.2 (hq hn).2⟩⟩

theorem Unrestricted.servicesWithin {e : Endpoint U} (h : Unrestricted e) (a : Endpoint U) : ServicesWithin a e :=
  ⟨fun hp => absurd h.1 hp,fun hn => absurd hn h.2⟩

theorem servicesWithin_bare (dev : Device) (ip : Ipv4Addr) (e : Endpoint U) :
    ServicesWithin (flowBehind dev [] [] [] ip).dest e ↔ Unrestricted e := by
  constructor
  · rintro ⟨hp,hq⟩
    refine ⟨?_,fun hn => ?_⟩
    · by_contra hne
      exact (hp hne).1 rfl
    · exact (hq hn).1.elim (fun h => h rfl) fun h => h rfl
  · exact fun h => h.servicesWithin _

section
variable {α β : Type} {R : α → β → Prop} {as : List α} {bs : List β} {p : α → Bool} {q : β → Bool}

theorem find?_of_forall₂ (h : List.Forall₂ R as bs) (hpq : ∀ a b, R a b → p a = q b) :
    (as.find? p = none ∧ bs.find? q = none) ∨ ∃ a b, as.find? p = some a ∧ bs.find? q = some b ∧ R a b := by
  induction h with
  | nil => exact .inl ⟨rfl,rfl⟩
  | @cons a b as bs hab _ ih =>
    rw [find?_cons,find?_cons,← hpq a b hab]
    cases p a with
    | false => exact ih
    | true => exact .inr ⟨a,b,rfl,rfl,hab⟩

theorem forall_mem_of_forall₂ (h : List.Forall₂ R as bs) {P : α → Prop} {Q : β → Prop}
    (hPQ : ∀ a b, R a b → (P a ↔ Q b)) : (∀ a ∈ as, P a) ↔ ∀ b ∈ bs, Q b := by
  induction h with
  | nil => exact ⟨nofun,nofun⟩
  | cons hab _ ih => rw [forall_mem_cons,forall_mem_cons,hPQ _ _ hab,ih]

end

theorem specsFor_group (items : List (Pattern × Spec U)) (outputAllowed : List Pattern) (dev : Device) (query : Str) :
    specsFor ⟨.group items,outputAllowed,dev⟩ query =
      match items.find? fun i => i.1.isMatch U query with
      | none => []
      | some i => (items.filter fun j => j.1 = i.1).map Prod.snd := by
  have hk := Dict.find_group (fun p : Pattern => p.isMatch U query) items
  rw [find?_map,find?_map] at hk
  unfold specsFor
  change Option.map Prod.fst ((Dict.group items).entries.find? fun e => e.1.isMatch U query) =
    Option.map Prod.fst (items.find? fun i => i.1.isMatch U query) at hk
  cases hf : items.find? fun i => i.1.isMatch U query with
  | none =>
    rw [hf,Option.map_none,Option.map_eq_none_iff] at hk
    simp only [hk,Option.map_none,Option.getD_none]
  | some i =>
    rw [hf,Option.map_some] at hk
    obtain ⟨e,he,hei⟩ := Option.map_eq_some_iff.1 hk
    have hg := Dict.mem_entries_iff.1 (mem_of_find?_eq_some he)
    have hmem : e.1 ∈ items.map Prod.fst := hei ▸ mem_map_of_mem (mem_of_find?_eq_some hf)
    rw [Dict.get_group,if_pos hmem,Option.some.injEq] at hg
    simp only [he,Option.map_some,Option.getD_some,← hg,hei]

def lead (rules : List (ResolvRule U)) (query : Str) : Option (Str × Endpoint U) :=
  (heads rules).find? fun h => decide (reMatch U h.1 query = .ok true)

/-- The endpoint is unrestricted, or all rules of the first matching expression are within it. -/
def Guarded (rules : List (ResolvRule U)) (query : Str) (e : Endpoint U) : Prop :=
  Unrestricted e ∨ ∃ h, lead rules query = some h ∧ ∀ h' ∈ heads rules, h'.1 = h.1 → ServicesWithin h'.2 e

def Server.started (rules : List (ResolvRule U)) (outputAllowed : List Pattern) (dev : Device) : Server U :=
  ⟨loadRestrictions U (rulesFile rules),outputAllowed,dev⟩

theorem isMatch_eq (p : Pattern) (query : Str) : p.isMatch U query = decide (reMatch U p.text query = .ok true) := by
  obtain ⟨r,hr⟩ := Option.isSome_iff_exists.1 p.compiles
  have hm : reMatch U p.text query = .ok (p.isMatch U query) := by
    simp only [reMatch,Pattern.isMatch,hr,Option.get_some]
  rw [hm]
  cases p.isMatch U query <;> rfl

/-- Flows are made from the first expression that matches the name. -/
theorem flows_within_iff (hU : U.Lawful) (rules : List (ResolvRule U)) (outputAllowed : List Pattern)
    (dev : Device) (query : Str) (ip : Ipv4Addr) (e : Endpoint U) :
    (∀ nflow ∈ (started rules outputAllowed dev).flows query ip, ServicesWithin nflow.dest e) ↔
      Guarded rules query e := by
  have hr := forall₂_restrictions hU rules
  have hsp := specsFor_group ((rulesFile rules).filterMap (restriction U)) outputAllowed dev query
  rw [← loadRestrictions_eq,← started] at hsp
  unfold flows Guarded lead
  rw [hsp]
  rcases find?_of_forall₂ (p := fun i => i.1.isMatch U query) (q := fun h => decide (reMatch U h.1 query = .ok true)) hr
    (fun a b hab => by rw [isMatch_eq,hab.1]) with ⟨hnone,hn'⟩ | ⟨i,h,hi,hh,hih⟩
  · simp only [hnone,hn',isEmpty_nil,if_true,mem_singleton,forall_eq,reduceCtorEq,false_and,exists_false,or_false]
    exact servicesWithin_bare dev ip e
  · have hne : (((rulesFile rules).filterMap (restriction U)).filter fun j => j.1 = i.1).map Prod.snd ≠ [] := by
      refine ne_nil_of_mem (mem_map_of_mem (mem_filter.2 ⟨mem_of_find?_eq_some hi,?_⟩))
      exact decide_eq_true rfl
    simp only [hi,hh,Option.some.injEq,exists_eq_left']
    rw [if_neg (by simpa using hne)]
    have ha : (∀ nflow ∈ ((((rulesFile rules).filterMap (restriction U)).filter fun j => j.1 = i.1).map Prod.snd).map
          (fun spec => flowBehind dev spec.endpoint.protocols spec.endpoint.ports spec.endpoint.portRanges ip),
          ServicesWithin nflow.dest e) ↔
        ∀ x ∈ (rulesFile rules).filterMap (restriction U), x.1 = i.1 → ServicesWithin x.2.endpoint e := by
      simp only [forall_mem_map,mem_filter,decide_eq_true_eq,and_imp]
      refine forall₂_congr fun x _ => imp_congr_right fun _ => ?_
      have hs : SameServices (flowBehind dev x.2.endpoint.protocols x.2.endpoint.ports x.2.endpoint.portRanges ip).dest
        x.2.endpoint := ⟨rfl,rfl,rfl⟩
      exact servicesWithin_congr hs e
    have hk : ∀ x h', ReadAs x h' → ((x.1 = i.1 → ServicesWithin x.2.endpoint e) ↔
        (h'.1 = h.1 → ServicesWithin h'.2 e)) := by
      intro x h' hx
      have hs : x.1 = i.1 ↔ h'.1 = h.1 := by
        rw [← hx.1,← hih.1,Pattern.mk.injEq]
      rw [hs,servicesWithin_congr hx.2]
    rw [show (started rules outputAllowed dev).outIface = dev from rfl, ha, forall_mem_of_forall₂ hr hk]
    constructor
    · exact .inr
    · rintro (hf | h)
      · exact fun h' _ _ => hf.servicesWithin _
      · exact h

def Netfilter.recorder : Netfilter U (List (FlowType × NetFlow U)) where
  allow t nflow log := (log ++ [(t,nflow)],.ok ())
  delete _ _ log := (log,.ok ())

theorem accepts_recorder : Accepts (Netfilter.recorder (U := U)) (fun _ => True) (fun _ => True) :=
  fun _ _ _ _ _ => ⟨rfl,trivial⟩

theorem mem_foldl_allowFlow (out : Bool) (flows : List (NetFlow U)) (log : List (FlowType × NetFlow U))
    (x : FlowType × NetFlow U) :
    x ∈ flows.foldl (allowFlow .recorder out) log ↔
      x ∈ log ∨ ∃ nflow ∈ flows, x = (.filterForward,nflow) ∨ (out = true ∧ x = (.filterOutput,nflow)) := by
  induction flows generalizing log with
  | nil => simp
  | cons nflow flows ih =>
    rw [foldl_cons,ih]
    cases out <;> simp [allowFlow,Netfilter.recorder,or_assoc]

def opened (srv : Server U) (now : ℤ) (q : Query) (s : State U (List (FlowType × NetFlow U))) :
    List (FlowType × NetFlow U) :=
  (handleCommand .recorder srv now q.json { s with netfilter := [] }).1.netfilter

theorem mem_foldl_grant {srv : Server U} {now : ℤ} {query : Str} {xs : List (ℕ × Ipv4Addr)}
    {s : State U (List (FlowType × NetFlow U))}
    {y : FlowType × NetFlow U} (h : y ∈ (xs.foldl (grant .recorder srv now query) s).netfilter) :
    y ∈ s.netfilter ∨ ∃ x ∈ xs, y.2 ∈ srv.flows query x.2 := by
  induction xs generalizing s with
  | nil => exact .inl h
  | cons x xs ih =>
    rcases ih h with hs | ⟨x',hx',hy⟩
    · unfold grant at hs
      split at hs
      · exact .inl hs
      · rcases (mem_foldl_allowFlow _ _ _ _).1 hs with hs | ⟨nflow,hf,rfl | ⟨_,rfl⟩⟩
        · exact .inl hs
        · exact .inr ⟨x,mem_cons_self,hf⟩
        · exact .inr ⟨x,mem_cons_self,hf⟩
    · exact .inr ⟨x',mem_cons_of_mem _ hx',hy⟩

theorem opened_subset {srv : Server U} {now : ℤ} {q : Query} {s : State U (List (FlowType × NetFlow U))}
    {y : FlowType × NetFlow U}
    (h : y ∈ opened srv now q s) : ∃ x ∈ q.resolved, y.2 ∈ srv.flows q.name x.2 := by
  rw [opened, (handleCommand_eq accepts_recorder srv now q (fun _ _ _ _ => trivial) trivial).1] at h
  exact (mem_foldl_grant h).resolve_left not_mem_nil

theorem opened_of_first (srv : Server U) (now : ℤ) (query : Str) (ttl : ℕ) {ip : Ipv4Addr} {nflow : NetFlow U}
    (h : nflow ∈ srv.flows query ip) :
    (.filterForward,nflow) ∈ opened srv now ⟨query,[⟨ttl,some ip,none⟩]⟩ (.start []) := by
  rw [opened, (handleCommand_eq accepts_recorder srv now _ (fun _ _ _ _ => trivial) trivial).1]
  exact (mem_foldl_allowFlow _ _ _ _).2 (.inr ⟨nflow,h,.inl rfl⟩)

/-- The flows of a name are within the services of a rule exactly when it has none, or the first
matching expression read back only has rules within it. -/
theorem opened_within_rule_iff_guarded (hU : U.Lawful) (rules : List (ResolvRule U))
    (outputAllowed : List Pattern) (dev : Device) (r : ResolvRule U) (query : Str) :
    (∀ (now : ℤ) (q : Query) (s : State U (List (FlowType × NetFlow U))), q.name = query →
      ∀ y ∈ opened ⟨(loadResolvRules .recorder outputAllowed (rulesFile rules) []).1,outputAllowed,dev⟩ now q s,
        ServicesWithin y.2.dest r.endpoint) ↔ Guarded rules query r.endpoint := by
  rw [loadResolvRules_fst]
  constructor
  · intro h
    rw [← flows_within_iff hU rules outputAllowed dev query ⟨0,0,0,0⟩ r.endpoint]
    intro nflow hf
    exact h 0 ⟨query,[⟨0,some ⟨0,0,0,0⟩,none⟩]⟩ (.start []) rfl _ (opened_of_first _ 0 query 0 hf)
  · rintro hg now q s rfl y hy
    obtain ⟨x,_,hf⟩ := opened_subset hy
    exact (flows_within_iff hU rules outputAllowed dev q.name x.2 r.endpoint).2 hg y.2 hf

def eth0 : Device where
  iface := ⟨"eth0",by decide⟩
  plain := by
    have hall : "eth0".toList.all (fun c => decide (c ≠ ',' ∧ c ≠ '^' ∧ isSpace c = false)) = true := by decide
    exact fun c hc => of_decide_eq_true (all_eq_true.1 hall c hc)

def webRule : ResolvRule .ascii := ⟨.allow,aComWeb,none,by decide +kernel⟩

theorem opened_within_webRule :
    Guarded [webRule] "a.com." webRule.endpoint ∧
      ∀ (now : ℤ) (q : Query) (s : State .ascii (List (FlowType × NetFlow .ascii))), q.name = "a.com." →
        ∀ y ∈ opened ⟨(loadResolvRules .recorder [] (rulesFile [webRule]) []).1,[],eth0⟩ now q s,
          ServicesWithin y.2.dest webRule.endpoint := by
  have hl : lead [webRule] "a.com." = some (domainToRegex "a*.com.",webRule.endpoint) := by decide +kernel
  have hw : ServicesWithin webRule.endpoint webRule.endpoint :=
    ⟨fun h => ⟨h,fun _ hp => hp⟩,fun h => ⟨h,fun _ hk => hk⟩⟩
  have hg : Guarded [webRule] "a.com." webRule.endpoint := by
    refine .inr ⟨_,hl,fun h hh _ => ?_⟩
    rw [mem_singleton.1 hh]
    exact hw
  exact ⟨hg,(opened_within_rule_iff_guarded Unicode.lawful_ascii [webRule] [] eth0 webRule _).2 hg⟩

def portRule : ResolvRule .ascii :=
  ⟨.allow,⟨[domainZone "a.com." (by decide +kernel)],none,[],[port443],[],.inl (by simp)⟩,none,by decide +kernel⟩

theorem opened_beyond_portRule :
    Endpoint.fromRepr .ascii "a.com.^^443" none = .ok portRule.endpoint ∧
      opened (U := .ascii) ⟨(loadResolvRules .recorder [] (rulesFile [portRule]) []).1,[],eth0⟩ 0
        ⟨"a.com.",[⟨60,some ⟨10,0,0,1⟩,none⟩]⟩ (.start []) = [(.filterForward,flowBehind eth0 [] [] [] ⟨10,0,0,1⟩)] ∧
      ¬ ServicesWithin (flowBehind eth0 [] [] [] ⟨10,0,0,1⟩).dest portRule.endpoint := by
  refine ⟨by decide +kernel,by decide +kernel,fun h => ?_⟩
  exact ((servicesWithin_bare eth0 ⟨10,0,0,1⟩ portRule.endpoint).1 h).2 (.inl (by decide))

end Padsi.Dns
