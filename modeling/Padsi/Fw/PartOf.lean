import Padsi.Fw.Endpoint

/-! # When one endpoint is part of another

The zone `*` is neither an address nor a name, so that `is_part_of` does not look at it;
a name with wildcards is tested with `abc` in their place.
-/
namespace Padsi.Fw
open Text Wildcard Net Python List Reference Pattern Except

variable {U : Unicode}

structure Connection where
  interface : Iface
  protocol : Protocol
  port : Port
  destination : Destination

def Zone.Denotes (z : Zone U) : Destination → Prop
  | .address x => z = .all ∨ z = .address x ∨ ∃ n : Ipv4Network, z = .network n ∧ n.Mem x
  | .name m => z = .all ∨ (isDomainName U z.text = .ok true ∧ InLanguage z.text m.text)

theorem Zone.denotes_address {x y : Ipv4Addr} : (address y : Zone U).Denotes (.address x) ↔ x = y := by
  constructor
  · rintro (h | h | ⟨n,h,_⟩)
    · exact absurd h (address_ne_all y)
    · exact (address_injective h).symm
    · exact absurd h (address_ne_network y n)
  · rintro rfl
    exact .inr (.inl rfl)

theorem Zone.denotes_network {n : Ipv4Network} {x : Ipv4Addr} :
    (network n : Zone U).Denotes (.address x) ↔ n.Mem x := by
  constructor
  · rintro (h | h | ⟨m,h,hm⟩)
    · exact absurd h (network_ne_all n)
    · exact absurd h.symm (address_ne_network x n)
    · exact network_injective h ▸ hm
  · exact fun h => .inr (.inr ⟨n,rfl,h⟩)

namespace Endpoint

def Everywhere (e : Endpoint U) : Prop := e.zones = [] ∨ .all ∈ e.zones

def Channel (e : Endpoint U) (i : Iface) (p : Protocol) (q : Port) : Prop :=
  (e.iface = none ∨ e.iface = some i) ∧ p ∈ e.meant ∧ q.val ∈ e.portsMap
def Denotes (e : Endpoint U) (c : Connection) : Prop :=
  e.Channel c.interface c.protocol c.port ∧ (e.zones = [] ∨ ∃ z ∈ e.zones, z.Denotes c.destination)
def Includes (e other : Endpoint U) : Prop := ∀ c, other.Denotes c → e.Denotes c

end Endpoint

/-- The pattern of the same text, in the library where expressions are read back into tokens. -/
theorem exists_pattern {s : Str} (hs : DomainText s) (hst : '*' ∈ s) : ∃ P : Pattern externals, P.pattern = s := by
  have hm : '§' ∉ s := fun h => absurd (hs.plain _ h) (by decide)
  have hc : (compile (regexText s)).isSome = true := by
    rw [regexText_eq hst hm,cons_append,compile,readTokens_tokensText (writable_tokens hs.plain)]
    simp
  exact ⟨pattern s hs.dotted hs.lead hc,rfl⟩

section
variable {E : Externals} {P : Pattern E}

theorem reMatch_eq_regex (hE : LawfulRegex E) (hP : Plain P.pattern) (hs : '*' ∈ P.pattern) {q : Str}
    (hq : q.getLast? = some '.') : reMatch U (domainToRegex P.pattern) q = .ok (P.regex q) := by
  rw [reMatch_of_star hP hs hq,regex_eq hE hP hs]

/-- The two libraries test names with wildcards alike. -/
theorem domainIsPartOf_eq (hE : LawfulRegex E) (hP : DomainText P.pattern) {d : Str} (hd : DomainText d) :
    ∃ b, domainIsPartOf U d P.pattern = .ok b ∧ P.nameContains d = .ok b := by
  have hw : ∀ {t : Str}, '*' ∈ P.pattern → '*' ∈ t → t.getLast? = some '.' → contains stars t = false →
      ∃ b, domainIsPartOf U t P.pattern = .ok b ∧ P.nameContains t = .ok b := by
    intro t hs ht hdo hst
    refine ⟨_,?_,nameContains_of_wild hs ht hst⟩
    rw [domainIsPartOf_of_wild ht hs hst,reMatch_eq_regex hE hP.plain hs (replace_star_dotted hdo),
      probe,tested_of_starless hst]
  by_cases hs : '*' ∈ d
  · by_cases ho : '*' ∈ P.pattern
    · cases hst : contains stars d with
      | false => exact hw ho hs hd.dotted hst
      | true =>
        have hl := hd.lead hst
        cases hp : startsWith stars P.pattern with
        | false =>
          exact ⟨false,domainIsPartOf_of_short hs (.inr ⟨hst,hp⟩),
            nameContains_of_short hs (.inr ⟨hst,hp⟩)⟩
        | true =>
          -- one or two characters are stripped before no `**` is left
          obtain ⟨rest,rfl⟩ := startsWith_iff.1 hl
          have hrest : contains stars rest = false := hd.single
          have hdo : ∀ {c : Char} {t : Str}, (c :: '*' :: t).getLast? = some '.' → ('*' :: t).getLast? = some '.' := by
            intro c t h
            rwa [getLast?_cons_cons] at h
          have hfirst : domainIsPartOf U (stars ++ rest) P.pattern = domainIsPartOf U ('*' :: rest) P.pattern :=
            domainIsPartOf_strip hl hp
          have hf' : P.nameContains (stars ++ rest) = P.nameContains ('*' :: rest) :=
            (nameContains_strip ho hp hst).trans (if_pos (by decide))
          rw [hfirst,hf']
          cases ha : contains stars ('*' :: rest) with
          | false => exact hw ho mem_cons_self (hdo hd.dotted) ha
          | true =>
            have hh : rest.head? = some '*' := by
              rcases contains_stars_cons.1 ha with h | h
              · exact h.2
              · rw [hrest] at h
                cases h
            obtain ⟨t,rfl⟩ := head?_eq_some_iff.1 hh
            have hse : domainIsPartOf U ('*' :: '*' :: t) P.pattern = domainIsPartOf U ('*' :: t) P.pattern :=
              domainIsPartOf_strip (startsWith_iff.2 ⟨t,rfl⟩) hp
            have hs' : P.nameContains ('*' :: '*' :: t) = P.nameContains ('*' :: t) :=
              (nameContains_strip ho hp ha).trans (if_pos (by decide))
            rw [hse,hs']
            exact hw ho mem_cons_self (hdo (hdo hd.dotted)) hrest
    · exact ⟨false,domainIsPartOf_of_short hs (.inl ho),nameContains_of_short hs (.inl ho)⟩
  · rw [nameContains_of_name hs,domainIsPartOf_of_name hs]
    by_cases ho : '*' ∈ P.pattern
    · exact ⟨_,(if_pos ho).trans (reMatch_eq_regex hE hP.plain ho hd.dotted),if_pos ho⟩
    · exact ⟨_,if_neg ho,if_neg ho⟩

end

theorem inLanguage_iff_matches {E : Externals} {P : Pattern E} {n : Name} :
    InLanguage P.pattern n.text ↔ P.Matches n.text := by
  have hs : ∀ c ∈ n.text, c ≠ '*' := fun c hc h => n.starless (h ▸ hc)
  constructor
  · intro h
    refine accepts_of_classes h (fun c _ hi => ?_) (fun _ _ _ => rfl)
    have hin : c ≠ '.' ∧ c ≠ '*' := of_decide_eq_true hi
    exact decide_eq_true hin.1
  · intro h
    refine accepts_of_classes h (fun c hc hi => ?_) (fun _ _ _ => rfl)
    have hin : c ≠ '.' := of_decide_eq_true hi
    exact decide_eq_true ⟨hin,hs c hc⟩

/-- The test on a name with wildcards also succeeds with `!`, which no accepted name has. -/
def Covers (U : Unicode) (s d : Str) : Prop :=
  '*' ∈ d → reMatch U (domainToRegex s) (replace ['*'] ['!'] (tested d)) = .ok true

theorem inLanguage_of_covers {d s : Str} (hd : DomainText d) (hs : DomainText s) (h : domainIsPartOf U d s = .ok true)
    (hc : Covers U s d) {n : Name} (hn : InLanguage d n.text) : InLanguage s n.text := by
  by_cases hst : '*' ∈ s
  · obtain ⟨P,rfl⟩ := exists_pattern hs hst
    obtain ⟨b,hb,hPb⟩ := domainIsPartOf_eq (U := U) lawfulRegex hs hd
    have ht : b = true := ok.inj (hb.symm.trans h)
    subst ht
    rw [inLanguage_iff_matches]
    by_cases hw : '*' ∈ d
    · obtain ⟨Q,rfl⟩ := exists_pattern hd hw
      have hco : P.Covers Q.pattern := by
        intro hq
        have hp := hc hq
        rw [reMatch_eq_regex lawfulRegex hs.plain hst (replace_star_dotted (tested_dotted hd.dotted))] at hp
        exact ok.inj hp
      exact included_of_covers lawfulRegex hs.plain hPb hco n (inLanguage_iff_matches.1 hn)
    · have heq : n.text = d := (accepts_of_starless hw).1 hn
      rw [heq]
      exact matches_of_contains_name lawfulRegex hs.plain hw hPb
  · have hw : '*' ∉ d := by
      intro hw
      rw [domainIsPartOf_of_short hw (.inl hst)] at h
      cases h
    rw [domainIsPartOf_of_name hw,if_neg hst] at h
    have heq : d = s := of_decide_eq_true (ok.inj h)
    exact heq ▸ hn

theorem exists_of_anyOf {α : Type} {f : α → Except Exc Bool} {as : List α} (h : anyOf f as = .ok true) :
    ∃ a ∈ as, f a = .ok true := by
  induction as with
  | nil => cases h
  | cons a as ih =>
    obtain ⟨b,hb,h⟩ := bind_eq_ok.1 h
    cases b with
    | true => exact ⟨a,mem_cons_self,hb⟩
    | false =>
      obtain ⟨x,hx,hfx⟩ := ih h
      exact ⟨x,mem_cons_of_mem _ hx,hfx⟩

theorem forall_of_allOf {α : Type} {f : α → Except Exc Bool} {as : List α} (h : allOf f as = .ok true) :
    ∀ a ∈ as, f a = .ok true := by
  induction as with
  | nil => exact nofun
  | cons a as ih =>
    obtain ⟨b,hb,h⟩ := bind_eq_ok.1 h
    cases b with
    | false => cases h
    | true => exact forall_mem_cons.2 ⟨hb,ih h⟩

namespace Endpoint

variable {a b : Endpoint U} {z : Zone U}

theorem isPartOf_cases (h : a.isPartOf b = .ok true) :
    ifaceWithin a b = true ∧ (∀ p ∈ a.meant, p ∈ b.meant) ∧ (∀ p ∈ a.portsMap, p ∈ b.portsMap) ∧
      (∃ ips sups, a.ipv4ZonesMap = .ok ips ∧ b.ipv4ZonesMap = .ok sups ∧ ∀ i ∈ ips, ∃ s ∈ sups, i.within s = true) ∧
      ∃ ds sups, a.domainZones = .ok ds ∧ b.domainZones = .ok sups ∧
        ∀ d ∈ ds, ∃ s ∈ sups, domainIsPartOf U d s = .ok true := by
  unfold isPartOf at h
  split at h
  · cases h
  rename_i hif
  split at h
  · cases h
  rename_i hp
  obtain ⟨sups,hs,h⟩ := bind_eq_ok.1 h
  obtain ⟨ips,hi,h⟩ := bind_eq_ok.1 h
  split at h
  · cases h
  rename_i hip
  obtain ⟨supd,hsu,h⟩ := bind_eq_ok.1 h
  obtain ⟨ds,hds,h⟩ := bind_eq_ok.1 h
  obtain ⟨b,ha,h⟩ := bind_eq_ok.1 h
  cases b with
  | false => cases h
  | true =>
    simp only [Bool.not_eq_true,Bool.not_eq_false',all_eq_true,any_eq_true,decide_eq_true_eq] at hif hp hip
    have hpo := all_eq_true.1 (ok.inj h)
    simp only [decide_eq_true_eq] at hpo
    exact ⟨hif,hp,hpo,⟨ips,sups,hi,hs,hip⟩,
      ⟨ds,supd,hds,hsu,fun d hd => exists_of_anyOf (forall_of_allOf ha d hd)⟩⟩

theorem channel_of_isPartOf (h : a.isPartOf b = .ok true) {i : Iface} {p : Protocol} {q : Port}
    (hc : a.Channel i p q) : b.Channel i p q := by
  obtain ⟨hi,hp,hpo,_⟩ := isPartOf_cases h
  refine ⟨?_,hp p hc.2.1,hpo _ hc.2.2⟩
  unfold ifaceWithin at hi
  rcases hc.1 with ha | ha
  · rw [ha] at hi
    exact .inl (Option.isNone_iff_eq_none.1 hi)
  · rw [ha] at hi
    cases hb : b.iface with
    | none => exact .inl rfl
    | some o =>
      rw [hb] at hi
      have heq : i = o := of_decide_eq_true hi
      exact .inr (congrArg some heq.symm)

theorem address_of_isPartOf (h : a.isPartOf b = .ok true) (hz : z ∈ a.zones) (hne : z ≠ .all)
    {x : Ipv4Addr} (hx : z.Denotes (.address x)) : ∃ w ∈ b.zones, w.Denotes (.address x) := by
  obtain ⟨_,_,_,⟨ips,sups,hip,hsu,hwi⟩,_⟩ := isPartOf_cases h
  have hf : ∀ {i}, z.element = .ok (some i) → ∃ w ∈ b.zones, ∃ j, w.element = .ok (some j) ∧ i.within j = true := by
    intro i hi
    obtain ⟨j,hj,hin⟩ := hwi i ((mem_ipv4ZonesMap hip).2 ⟨z,hz,hi⟩)
    obtain ⟨w,hw,hwj⟩ := (mem_ipv4ZonesMap hsu).1 hj
    exact ⟨w,hw,j,hwj,hin⟩
  rcases hx with rfl | rfl | ⟨n,rfl,hn⟩
  · exact absurd rfl hne
  · obtain ⟨w,hw,j,hj,hin⟩ := hf (element_address x)
    rcases element_cases hj with ⟨y,rfl,rfl⟩ | ⟨m,rfl,rfl,_⟩
    · exact ⟨_,hw,.inr (.inl (congrArg _ (of_decide_eq_true hin).symm))⟩
    · exact ⟨_,hw,.inr (.inr ⟨m,rfl,of_decide_eq_true hin⟩)⟩
  · have hs := (exists_ipv4ZonesMap_iff a).1 ⟨ips,hip⟩ n hz
    obtain ⟨w,hw,j,hj,hin⟩ := hf (by rw [element_network,if_pos hs])
    rcases element_cases hj with ⟨y,rfl,rfl⟩ | ⟨m,rfl,rfl,hs'⟩
    · cases hin
    · exact ⟨_,hw,.inr (.inr ⟨m,rfl,(subnetOf_iff hs hs').1 hin x hn⟩)⟩

theorem domain_of_isPartOf (h : a.isPartOf b = .ok true) (hz : z ∈ a.zones)
    (hd : isDomainName U z.text = .ok true) :
    ∃ w ∈ b.zones, isDomainName U w.text = .ok true ∧ domainIsPartOf U z.text w.text = .ok true := by
  obtain ⟨_,_,_,_,⟨ds,sups,hds,hsu,ha⟩⟩ := isPartOf_cases h
  obtain ⟨s,hs,hp⟩ := ha _ ((mem_domainZones hds).2 ⟨⟨z,hz,rfl⟩,hd⟩)
  obtain ⟨⟨w,hw,rfl⟩,hw'⟩ := (mem_domainZones hsu).1 hs
  exact ⟨w,hw,hw',hp⟩

/-- `b` is everywhere, or `a` is not and each name of `a` with wildcards is covered by a name of `b`. -/
def Covered (a b : Endpoint U) : Prop :=
  b.Everywhere ∨
    (¬ a.Everywhere ∧ ∀ z ∈ a.zones, isDomainName U z.text = .ok true → '*' ∈ z.text →
      ∃ w ∈ b.zones, isDomainName U w.text = .ok true ∧ domainIsPartOf U z.text w.text = .ok true ∧
        Covers U w.text z.text)

theorem includes_of_covered (hU : U.Lawful) (h : a.isPartOf b = .ok true) (hco : a.Covered b) :
    b.Includes a := by
  rintro c ⟨hc,hzones⟩
  refine ⟨channel_of_isPartOf h hc,?_⟩
  rcases hco with (hnone | ha) | ⟨hr,hn⟩
  · exact .inl hnone
  · right
    refine ⟨.all,ha,?_⟩
    cases c.destination with
    | address x => exact .inl rfl
    | name m => exact .inl rfl
  · right
    obtain ⟨z,hz,hde⟩ := hzones.resolve_left fun hnone => hr (.inl hnone)
    have hne : z ≠ .all := fun ha => hr (.inr (ha ▸ hz))
    cases hd : c.destination with
    | address x =>
      rw [hd] at hde
      exact address_of_isPartOf h hz hne hde
    | name m =>
      rw [hd] at hde
      obtain ⟨hname,hl⟩ := Or.resolve_left hde hne
      have hzt := domainText_of_isDomainName hU hname
      by_cases hs : '*' ∈ z.text
      · obtain ⟨w,hw,hwn,hp,hcv⟩ := hn z hz hname hs
        have hwt := domainText_of_isDomainName hU hwn
        exact ⟨w,hw,.inr ⟨hwn,inLanguage_of_covers hzt hwt hp hcv hl⟩⟩
      · obtain ⟨w,hw,hwn,hp⟩ := domain_of_isPartOf h hz hname
        have hwt := domainText_of_isDomainName hU hwn
        exact ⟨w,hw,.inr ⟨hwn,inLanguage_of_covers hzt hwt hp (fun h => absurd h hs) hl⟩⟩

theorem exists_channel (e : Endpoint U) : ∃ i p q, e.Channel i p q := by
  have hi : ∃ i, e.iface = none ∨ e.iface = some i := by
    cases h : e.iface with
    | none => exact ⟨⟨[],by decide⟩,.inl rfl⟩
    | some i => exact ⟨i,.inr rfl⟩
  have hp : ∃ p, p ∈ e.meant := by
    unfold meant
    split
    · exact ⟨.tcp,by decide⟩
    · rename_i h
      exact exists_mem_of_ne_nil _ h
  have hq : ∃ q : Port, q.val ∈ e.portsMap := by
    unfold portsMap
    split
    · exact ⟨⟨1,by decide⟩,by simp⟩
    · rename_i h
      by_cases hpo : e.ports = []
      · obtain ⟨r,hr⟩ := exists_mem_of_ne_nil _ fun hra => h ⟨hpo,hra⟩
        refine ⟨r.first,mem_append_right _ (mem_flatMap.2 ⟨r,hr,?_⟩)⟩
        have hlt := r.lt
        rw [mem_range'_1]
        omega
      · obtain ⟨q,hq⟩ := exists_mem_of_ne_nil _ hpo
        exact ⟨q,mem_append_left _ (mem_map_of_mem hq)⟩
  obtain ⟨i,hi⟩ := hi
  obtain ⟨p,hp⟩ := hp
  obtain ⟨q,hq⟩ := hq
  exact ⟨i,p,q,hi,hp,hq⟩

theorem name_of_includes (hi : b.Includes a) (hb : ¬ b.Everywhere) (hz : z ∈ a.zones)
    (hd : isDomainName U z.text = .ok true) {n : Name} (hn : InLanguage z.text n.text) :
    ∃ w ∈ b.zones, isDomainName U w.text = .ok true ∧ InLanguage w.text n.text := by
  obtain ⟨i,p,q,hc⟩ := a.exists_channel
  obtain ⟨_,hzones⟩ := hi ⟨i,p,q,.name n⟩ ⟨hc,.inr ⟨z,hz,.inr ⟨hd,hn⟩⟩⟩
  obtain ⟨w,hw,hde⟩ := hzones.resolve_left fun hnone => hb (.inl hnone)
  rcases hde with rfl | h
  · exact absurd (.inr hw) hb
  · exact ⟨w,hw,h⟩

end Endpoint

/-- A pattern that includes another one passes the test on it, also with `!`. -/
theorem covers_of_included {P Q : Pattern externals} (hP : DomainText P.pattern) (hQ : DomainText Q.pattern)
    (hs : '*' ∈ P.pattern) (hl : Pattern.StarsLead Q.pattern) (h : Q.Included P) :
    domainIsPartOf U Q.pattern P.pattern = .ok true ∧ Covers U P.pattern Q.pattern := by
  have hc := nameContains_of_included lawfulRegex hP.plain hQ.plain hl h
  obtain ⟨b,hb,hPb⟩ := domainIsPartOf_eq (U := U) lawfulRegex hP hQ
  have ht : b = true := ok.inj (hPb.symm.trans hc)
  refine ⟨ht ▸ hb,fun hq => ?_⟩
  rw [reMatch_eq_regex lawfulRegex hP.plain hs (replace_star_dotted (tested_dotted hQ.dotted))]
  exact congrArg ok (Pattern.covers_of_included lawfulRegex hP.plain hQ.plain hc hl h hq)

theorem exists_probe {Q : Pattern externals} (hs : '*' ∈ Q.pattern) (hl : Pattern.StarsLead Q.pattern) :
    ∃ n : Name, n.text = replace ['*'] ['!'] (tested Q.pattern) ∧ '!' ∈ n.text ∧ InLanguage Q.pattern n.text := by
  have hb : '*' ∉ ['!'] := by decide
  refine ⟨probeName ['!'] hb Q.pattern Q.dotted,rfl,mem_replace_star (star_mem_tested hs) mem_cons_self,?_⟩
  exact inLanguage_iff_matches.2 (matches_probeName hb (by decide) (by decide) hl)

theorem starsLead_of_starless {s : Str} (h : contains stars s = false) : Pattern.StarsLead s := by
  cases s with
  | nil => exact h
  | cons c s => exact starless_tail h

namespace Endpoint

/-- Names for which inclusion in the zones of `b` is decided by one of them. -/
def Decided (b : Endpoint U) (d : Str) : Prop :=
  contains stars d = false ∨ (Pattern.StarsLead d ∧ b.zones.length = 1)

/-- A name with `!` for its wildcards is in the zones of `b`, by one of them alone. -/
theorem covered_of_includes (hU : U.Lawful) {a b : Endpoint U} (h : a.isPartOf b = .ok true)
    (hde : ∀ z ∈ a.zones, isDomainName U z.text = .ok true → b.Decided z.text)
    (hin : b.Includes a) (ha : a.Everywhere → b.Everywhere) : a.Covered b := by
  by_cases hb : b.Everywhere
  · exact .inl hb
  refine .inr ⟨mt ha hb,fun z hz hd hs => ?_⟩
  have hzt := domainText_of_isDomainName hU hd
  obtain ⟨Q,hQ⟩ := exists_pattern hzt hs
  rcases hde z hz hd with hst | ⟨hl,hsi⟩
  · -- the zone that has the name with `!` includes the others
    have hl := starsLead_of_starless hst
    rw [← hQ] at hl hst hs hzt
    obtain ⟨n,hn,hmr,hla⟩ := exists_probe hs hl
    obtain ⟨w,hw,hwn,hwl⟩ := name_of_includes hin hb hz hd (hQ ▸ hla)
    have hwt := domainText_of_isDomainName hU hwn
    have hws : '*' ∈ w.text := by
      by_contra hnone
      have heq : n.text = w.text := (accepts_of_starless hnone).1 hwl
      exact absurd (hwt.plain _ (heq ▸ hmr)) (by decide)
    obtain ⟨P,hP⟩ := exists_pattern hwt hws
    rw [← hP] at hwt hws hwl
    have hpr : P.probe ['!'] Q.pattern = true := by
      have hma := inLanguage_iff_matches.1 hwl
      have hpl := plain_probeName (Q := Q) (w := ['!']) (by decide) (by decide) hzt.plain
      rw [hn] at hma
      exact regex_of_matches lawfulRegex hwt.plain hws hpl hma
    have hi : Q.Included P := fun m hm =>
      matches_of_probe lawfulRegex hwt.plain hws
        (fun hco => by rw [hst] at hco; cases hco) hpr hm
    obtain ⟨hp,hc⟩ := covers_of_included (U := U) hwt hzt hws hl hi
    rw [hP,hQ] at hp hc
    exact ⟨w,hw,hwn,hp,hc⟩
  · -- the only zone of the other endpoint has every name
    obtain ⟨w,hw,hwn,hp⟩ := domain_of_isPartOf h hz hd
    have hwt := domainText_of_isDomainName hU hwn
    have hws : '*' ∈ w.text := by
      by_contra hnone
      rw [domainIsPartOf_of_short hs (.inl hnone)] at hp
      cases hp
    obtain ⟨P,hP⟩ := exists_pattern hwt hws
    have hi : Q.Included P := by
      intro m hm
      obtain ⟨v,hv,_,hvl⟩ := name_of_includes hin hb hz hd (hQ ▸ inLanguage_iff_matches.2 hm)
      obtain ⟨u,hu⟩ := length_eq_one_iff.1 hsi
      rw [hu,mem_singleton] at hw hv
      rw [hv,← hw,← hP] at hvl
      exact inLanguage_iff_matches.1 hvl
    rw [← hQ] at hl hzt
    rw [← hP] at hwt hws
    obtain ⟨_,hc⟩ := covers_of_included (U := U) hwt hzt hws hl hi
    rw [hP,hQ] at hc
    exact ⟨w,hw,hwn,hp,hc⟩

/-- A successful test means inclusion of the connections when the zones are
covered, and only then as far as single names decide inclusion. -/
theorem isPartOf_sound_iff (hU : U.Lawful) {a b : Endpoint U} (h : a.isPartOf b = .ok true) :
    (a.Covered b → b.Includes a ∧ (a.Everywhere → b.Everywhere)) ∧
      ((∀ z ∈ a.zones, isDomainName U z.text = .ok true → b.Decided z.text) →
        (b.Includes a ∧ (a.Everywhere → b.Everywhere) ↔ a.Covered b)) := by
  have hs : a.Covered b → b.Includes a ∧ (a.Everywhere → b.Everywhere) := fun hc =>
    ⟨includes_of_covered hU h hc,fun ha => hc.elim id fun hnone => absurd ha hnone.1⟩
  exact ⟨hs,fun hd => ⟨fun hi => covered_of_includes hU h hd hi.1 hi.2,hs⟩⟩

end Endpoint

def port443 : Port := ⟨443,by decide⟩
def domainZone (s : Str) (h : isDomainName .ascii s = .ok true) : Zone .ascii := ⟨s,.inr (.inr (.inr h))⟩
def aComWeb : Endpoint .ascii :=
  ⟨[domainZone "a*.com." (by decide +kernel)],none,[.tcp],[port443],[],.inl (by simp)⟩
def anyComWeb : Endpoint .ascii :=
  ⟨[domainZone "*.com." (by decide +kernel)],none,[.tcp],[port443],[],.inl (by simp)⟩

theorem aComWeb_isPartOf_sound_iff :
    aComWeb.isPartOf anyComWeb = .ok true ∧
      (anyComWeb.Includes aComWeb ∧ (aComWeb.Everywhere → anyComWeb.Everywhere) ↔ aComWeb.Covered anyComWeb) := by
  have h : aComWeb.isPartOf anyComWeb = .ok true := by decide +kernel
  refine ⟨h,(Endpoint.isPartOf_sound_iff Unicode.lawful_ascii h).2 fun z hz _ => .inl ?_⟩
  rw [mem_singleton.1 hz]
  decide

def everywhereWeb : Endpoint .ascii := ⟨[.all],none,[.tcp],[port443],[],.inl (by simp)⟩
def oneHostWeb : Endpoint .ascii := ⟨[.address ⟨10,0,0,1⟩],none,[.tcp],[port443],[],.inl (by simp)⟩

/-- The zone `*` is not compared with anything. -/
theorem everywhere_is_part_of_one_host :
    Endpoint.fromRepr .ascii "*^tcp^443" none = .ok everywhereWeb ∧
      Endpoint.fromRepr .ascii "10.0.0.1^tcp^443" none = .ok oneHostWeb ∧
      everywhereWeb.isPartOf oneHostWeb = .ok true ∧ ¬ oneHostWeb.Includes everywhereWeb := by
  refine ⟨by decide +kernel,by decide +kernel,by decide +kernel,fun h => ?_⟩
  obtain ⟨i,p,q,hc⟩ := everywhereWeb.exists_channel
  obtain ⟨_,hzones⟩ := h ⟨i,p,q,.address ⟨10,0,0,2⟩⟩ ⟨hc,.inr ⟨.all,by simp [everywhereWeb],.inl rfl⟩⟩
  obtain ⟨z,hz,hd⟩ := hzones.resolve_left (by simp [oneHostWeb])
  rw [mem_singleton.1 hz,Zone.denotes_address] at hd
  exact absurd hd (by decide)

end Padsi.Fw
