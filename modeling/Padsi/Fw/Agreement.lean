import Padsi.Fw.Reading

/-! # The two tests of containment

The test of the web proxy and the one of the firewall library differ on protocols and
ports that are not named, on the zone `*`, and on networks that only one can compare.
-/
namespace Padsi.Fw
open Rust Text Net Net.EndPoint Python List Endpoint Reference Zone

variable {U : Unicode} {E : Externals}

def Zone.Within (z w : Zone U) : Prop :=
  (∃ i j, z.element = .ok (some i) ∧ w.element = .ok (some j) ∧ i.within j = true) ∨
    (isDomainName U z.text = .ok true ∧ isDomainName U w.text = .ok true ∧ domainIsPartOf U z.text w.text = .ok true)

/-- A network of one address, written with its full mask, and that address. -/
def Zone.SameHost (z w : Zone U) : Prop := ∃ x :
    Ipv4Addr, z = .network ⟨x,32,Ipv4Network.hostLength_le⟩ ∧ w = .address x

variable {x : Ipv4Addr} {n : Ipv4Network} {w z : Zone U}

theorem mem_host {y : Ipv4Addr} : (⟨x,32,le_rfl⟩ : Ipv4Network).Mem y ↔ y = x := by
  simp only [Ipv4Network.Mem,Nat.sub_self,pow_zero,Nat.div_one]
  exact ⟨value_injective,congrArg _⟩

theorem strict_host (x : Ipv4Addr) : Strict ⟨x,32,le_rfl⟩ := Nat.mod_one _

theorem eq_host (h : ∀ y, n.Mem y → y = x) : n = ⟨x,32,le_rfl⟩ := by
  have hs := (isSupernetOf_iff ⟨x,32,le_rfl⟩ n).2 fun y hy => mem_host.2 (h y hy)
  have hle : n.length = 32 := le_antisymm n.length_le (of_decide_eq_true hs).1
  have had : n.addr = x := h n.addr rfl
  obtain ⟨a,l,hl⟩ := n
  simp only at hle had
  subst hle had
  rfl

theorem not_within_of_kinds (h : isDomainName U z.text = .ok true ∧ isDomainName U w.text = .ok false ∨
    isDomainName U z.text = .ok false ∧ isDomainName U w.text = .ok true) : ¬ z.Within w := by
  rintro (⟨i,j,hi,hj,_⟩ | ⟨hz,hw,_⟩)
  · rcases h with h | h
    · rw [element_domain h.1] at hi
      cases hi
    · rw [element_domain h.2] at hj
      cases hj
  · rcases h with h | h
    · rw [hw] at h
      cases h.2
    · rw [hz] at h
      cases h.1

theorem within_domains (hz : isDomainName U z.text = .ok true) (hw : isDomainName U w.text = .ok true) :
    z.Within w ↔ domainIsPartOf U z.text w.text = .ok true := by
  constructor
  · rintro (⟨i,_,hi,_⟩ | h)
    · rw [element_domain hz] at hi
      cases hi
    · exact h.2.2
  · exact fun h => .inr ⟨hz,hw,h⟩

theorem within_elements {i j : IpElement} (hz : z.element = .ok (some i)) (hw : w.element = .ok (some j)) :
    z.Within w ↔ i.within j = true := by
  constructor
  · rintro (⟨i',j',hi,hj,h⟩ | ⟨h,_⟩)
    · rw [hz] at hi
      rw [hw] at hj
      cases hi
      cases hj
      exact h
    · rw [element_domain h] at hz
      cases hz
  · exact fun h => .inl ⟨i,j,hz,hw,h⟩

theorem not_sameHost_of_domain (h : isDomainName U z.text = .ok true ∨ isDomainName U w.text = .ok true) :
    ¬ z.SameHost w := by
  rintro ⟨x,rfl,rfl⟩
  rcases h with h | h
  · cases (isDomainName_network _).symm.trans h
  · cases (isDomainName_address _).symm.trans h

theorem isDomainName_of_same_network (h : Same (.network n : Net.Zone E) z) :
    isDomainName U z.text = .ok false := by
  rcases h with ⟨x,_,rfl⟩ | rfl
  · exact isDomainName_address x
  · exact isDomainName_network n

theorem sameHost_iff : (Zone.network n : Zone U).SameHost (.address x) ↔ n = ⟨x,32,le_rfl⟩ := by
  constructor
  · rintro ⟨y,hy,hx⟩
    rw [network_injective hy,address_injective hx]
  · rintro rfl
    exact ⟨x,rfl,rfl⟩

/-- On networks without host bits both libraries mean inclusion of addresses. -/
theorem isSupernetOf_same (hN : ReadsNetworks E) {k : Ipv4Network} (hw : Same (.network n : Net.Zone E) w)
    (hz : Same (.network k : Net.Zone E) z) (hn : ∀ m, w = .network m → Strict m)
      (hk : ∀ m, z = .network m → Strict m) :
    E.isSupernetOf n k = true ↔ z.Within w ∨ z.SameHost w := by
  rcases hw with ⟨x,rfl,rfl⟩ | rfl
  · rcases hz with ⟨y,rfl,rfl⟩ | rfl
    · have hh : ¬ (address y : Zone U).SameHost (.address x) := by
        rintro ⟨v,hv,_⟩
        exact address_ne_network y _ hv
      rw [hN.supernet (strict_host x) (strict_host y),within_elements (element_address y) (element_address x),
        or_iff_left hh]
      simp only [mem_host,forall_eq,IpElement.within,decide_eq_true_eq]
    · have hk := hk k rfl
      have hne : (Zone.network k : Zone U).element = .ok (some (.network k)) := by rw [element_network,if_pos hk]
      rw [hN.supernet (strict_host x) hk,within_elements hne (element_address x),sameHost_iff]
      simp only [mem_host,IpElement.within,Bool.false_eq_true,false_or]
      constructor
      · exact eq_host
      · rintro rfl y hy
        exact mem_host.1 hy
  · have hn := hn n rfl
    have hne : (Zone.network n : Zone U).element = .ok (some (.network n)) := by rw [element_network,if_pos hn]
    rcases hz with ⟨y,rfl,rfl⟩ | rfl
    · have hh : ¬ (address y : Zone U).SameHost (.network n) := by
        rintro ⟨v,hv,_⟩
        exact address_ne_network y _ hv
      rw [hN.supernet hn (strict_host y),within_elements (element_address y) hne,or_iff_left hh]
      simp only [mem_host,forall_eq,IpElement.within,decide_eq_true_eq]
    · have hk := hk k rfl
      have hn' : (Zone.network k : Zone U).element = .ok (some (.network k)) := by rw [element_network,if_pos hk]
      have hh : ¬ (Zone.network k : Zone U).SameHost (.network n) := by
        rintro ⟨v,_,hv⟩
        exact address_ne_network v n hv.symm
      rw [hN.supernet hn hk,within_elements hn' hne,or_iff_left hh]
      exact (subnetOf_iff hk hn).symm

/-- The web proxy compares two zones other than `*` as the firewall library does, but for networks
of one address. -/
theorem contains_same (hU : U.Lawful) (hE : LawfulRegex E) (hN : ReadsNetworks E) {s o : Net.Zone E}
    (hs : Same s w) (ho : Same o z) (hsa : s ≠ .all) (hoa : o ≠ .all) (hw : ∀ m, w = .network m → Strict m)
    (hz : ∀ m, z = .network m → Strict m) :
    ∃ r, s.contains o = .ok r ∧ (r = some true ↔ z.Within w ∨ z.SameHost w) := by
  have hnone : (isDomainName U z.text = .ok true ∧ isDomainName U w.text = .ok false ∨
      isDomainName U z.text = .ok false ∧ isDomainName U w.text = .ok true) →
      ((none : Option Bool) = some true ↔ z.Within w ∨ z.SameHost w) := by
    intro h
    have hd : isDomainName U z.text = .ok true ∨ isDomainName U w.text = .ok true := h.imp And.left And.right
    exact iff_of_false nofun (not_or.2 ⟨not_within_of_kinds h,not_sameHost_of_domain hd⟩)
  have hn : isDomainName U z.text = .ok true → isDomainName U w.text = .ok true → ∀ {b},
      domainIsPartOf U z.text w.text = .ok b → (some b = some true ↔ z.Within w ∨ z.SameHost w) := by
    intro hz hw b hb
    rw [within_domains hz hw,or_iff_left (not_sameHost_of_domain (.inl hz)),hb,Option.some.injEq,Except.ok.injEq]
  cases s with
  | all => exact absurd rfl hsa
  | name n =>
    obtain ⟨hwt,hwn⟩ := hs
    cases o with
    | all => exact absurd rfl hoa
    | name m =>
      obtain ⟨hzt,hzn⟩ := ho
      refine ⟨_,rfl,hn hzn hwn ?_⟩
      rw [hzt,hwt,domainIsPartOf_of_name m.starless,if_neg n.starless,Name.contains]
      simp only [eq_comm]
    | pattern Q =>
      obtain ⟨hzt,hst,hzn⟩ := ho
      refine ⟨_,rfl,?_⟩
      have hsh := hn hzn hwn (b := false)
        (by rw [hzt,hwt]; exact domainIsPartOf_of_short hst (.inl n.starless))
      rw [← hsh]
      simp
    | network k => exact ⟨_,rfl,hnone (.inr ⟨isDomainName_of_same_network ho,hwn⟩)⟩
  | pattern P =>
    obtain ⟨hwt,_,hwn⟩ := hs
    have hP : DomainText P.pattern := hwt ▸ domainText_of_isDomainName hU hwn
    have ht : ∀ {d : Str}, z.text = d → isDomainName U z.text = .ok true →
        ∃ r, (do return some (← P.contains d) : Partial (Option Bool)) = .ok r ∧
          (r = some true ↔ z.Within w ∨ z.SameHost w) := by
      rintro d rfl hzn
      obtain ⟨b,hb,hPb⟩ := domainIsPartOf_eq (U := U) hE hP (domainText_of_isDomainName hU hzn)
      exact ⟨some b,by rw [Pattern.contains,hPb]; rfl,hn hzn hwn (hwt ▸ hb)⟩
    cases o with
    | all => exact absurd rfl hoa
    | name m => exact ht ho.1 ho.2
    | pattern Q => exact ht ho.1 ho.2.2
    | network k => exact ⟨_,rfl,hnone (.inr ⟨isDomainName_of_same_network ho,hwn⟩)⟩
  | network n =>
    have hwn := isDomainName_of_same_network hs
    cases o with
    | all => exact absurd rfl hoa
    | name m => exact ⟨_,rfl,hnone (.inl ⟨ho.2,hwn⟩)⟩
    | pattern Q => exact ⟨_,rfl,hnone (.inl ⟨ho.2.2,hwn⟩)⟩
    | network k =>
      refine ⟨_,rfl,?_⟩
      rw [Option.some.injEq]
      exact isSupernetOf_same hN hs ho hw hz

section
variable (hU : U.Lawful) (hE : LawfulRegex E) (hN : ReadsNetworks E)
include hU hE hN

theorem someContains_same {ss : List (Net.Zone E)} {ws : List (Zone U)} (hs : List.Forall₂ Same ss ws) (hal : .all ∉ ss)
    (hws : ∀ m, .network m ∈ ws → Strict m) {o : Net.Zone E} {z : Zone U} (ho : Same o z) (hoa : o ≠ .all)
    (hz : ∀ m, z = .network m → Strict m) :
    ∃ r, someContains o ss = .ok r ∧ (r = true ↔ ∃ w ∈ ws, z.Within w ∨ z.SameHost w) := by
  induction hs with
  | nil => exact ⟨false,rfl,by simp⟩
  | @cons s w ss ws hsa _ ih =>
    rw [mem_cons,not_or] at hal
    obtain ⟨r,hr,hi⟩ := contains_same hU hE hN hsa ho (Ne.symm hal.1) hoa
      (fun m hm => hws m (hm ▸ mem_cons_self)) hz
    obtain ⟨b,hb,hrest⟩ := ih hal.2 fun m hm => hws m (mem_cons_of_mem _ hm)
    rw [someContains,hr,ok_bind,exists_mem_cons_iff,← hi,← hrest]
    by_cases ht : r = some true
    · exact ⟨true,by rw [if_pos ht]; rfl,by simp [ht]⟩
    · exact ⟨b,by rw [if_neg ht,hb],by simp [ht]⟩

theorem allContained_same {ss os : List (Net.Zone E)} {ws zs : List (Zone U)} (hs : List.Forall₂ Same ss ws)
    (hal : .all ∉ ss) (hws : ∀ m, .network m ∈ ws → Strict m) (ho : List.Forall₂ Same os zs) (hoa : .all ∉ os)
    (hzs : ∀ m, .network m ∈ zs → Strict m) :
    ∃ r, allContained ss os = .ok r ∧ (r = true ↔ ∀ z ∈ zs, ∃ w ∈ ws, z.Within w ∨ z.SameHost w) := by
  induction ho with
  | nil => exact ⟨true,rfl,by simp⟩
  | @cons o z os zs hsa _ ih =>
    rw [mem_cons,not_or] at hoa
    obtain ⟨r,hr,hi⟩ := someContains_same hU hE hN hs hal hws hsa (Ne.symm hoa.1)
      fun m hm => hzs m (hm ▸ mem_cons_self)
    obtain ⟨b,hb,hrest⟩ := ih hoa.2 fun m hm => hzs m (mem_cons_of_mem _ hm)
    rw [allContained,if_neg (Ne.symm hoa.1),hr,ok_bind,forall_mem_cons,← hi,← hrest]
    cases r with
    | true => exact ⟨b,hb,by simp⟩
    | false => exact ⟨false,rfl,by simp⟩

end

namespace Endpoint

def Explicit (e other : Endpoint U) : Prop :=
  (other.protocols ≠ [] → e.protocols ≠ []) ∧ (other.NamesPorts → e.NamesPorts)

def MeantWithin (e other : Endpoint U) : Prop := ∀ p ∈ e.meant, p ∈ other.meant
def PortsWithin (e other : Endpoint U) : Prop := ∀ p ∈ e.portsMap, p ∈ other.portsMap

end Endpoint

section
variable {ea eb : EndPoint E} {pa pb : Endpoint U}

theorem iface_cases (ha : SameEndpoint ea pa) :
    (ea.interfaces = [] ∧ pa.iface = none) ∨ ∃ j i, ea.interfaces = [j] ∧ pa.iface = some i ∧ j.text = i.text := by
  have ht := ha.iface
  cases hi : pa.iface with
  | none =>
    rw [hi] at ht
    exact .inl ⟨map_eq_nil_iff.1 ht,rfl⟩
  | some i =>
    rw [hi] at ht
    obtain ⟨j,hj,hji⟩ := map_eq_singleton_iff.1 ht
    exact .inr ⟨j,i,hj,rfl,hji⟩

theorem admits_interfaces (ha : SameEndpoint ea pa) (hb : SameEndpoint eb pb) :
    admits ea.interfaces eb.interfaces (fun i => decide (i ∈ ea.interfaces)) = ifaceWithin pb pa := by
  rcases iface_cases ha with ⟨hea,hpa⟩ | ⟨j,i,hea,hpa,hji⟩
  · rw [hea,ifaceWithin,hpa]
    cases pb.iface <;> rfl
  · rcases iface_cases hb with ⟨heb,hpb⟩ | ⟨l,k,heb,hpb,hlk⟩
    · rw [hea,heb,ifaceWithin,hpa,hpb]
      rfl
    · have hi : l = j ↔ k = i := by
        constructor
        · rintro rfl
          have ht : k.text = i.text := hlk.symm.trans hji
          cases k
          cases i
          simpa using ht
        · rintro rfl
          have ht : l.text = j.text := hlk.trans hji.symm
          cases l
          cases j
          simpa using ht
      simp [hea,heb,ifaceWithin,hpa,hpb,admits,hi]

theorem admits_protocols (ha : SameEndpoint ea pa) (hb : SameEndpoint eb pb) :
    admits ea.protocols eb.protocols (fun p => decide (p ∈ ea.protocols)) = true ↔
      pb.MeantWithin pa ∧ (pa.protocols ≠ [] → pb.protocols ≠ []) := by
  rw [admits_iff,ha.protocols,hb.protocols]
  simp only [decide_eq_true_eq,Endpoint.MeantWithin,meant]
  have hal : ∀ p : Protocol, p ∈ allProtocols := by
    intro p
    cases p <;> decide
  by_cases hpa : pa.protocols = []
  · simp [hpa,hal]
  · by_cases hpb : pb.protocols = []
    · simp [hpa,hpb]
    · simp [hpa,hpb]

theorem mem_portsMap (ha : SameEndpoint ea pa) (hn : pa.NamesPorts) (v : UInt16) :
    v.toNat ∈ pa.portsMap ↔ ∃ s ∈ ea.ports, s.contains v = true := by
  rw [mem_portsMap_of_names hn,ha.ports.mem]

theorem namesPorts_iff (ha : SameEndpoint ea pa) : pa.NamesPorts ↔ ea.ports ≠ [] := by
  rw [Ne,ha.ports.none,not_and_or]
  rfl

theorem admits_ports (ha : SameEndpoint ea pa) (hb : SameEndpoint eb pb) :
    admits ea.ports eb.ports (fun o => o.iter.all fun p => ea.ports.any (PortSpec.contains · p)) = true ↔
      pb.PortsWithin pa ∧ (pa.NamesPorts → pb.NamesPorts) := by
  have ht : (∀ o ∈ eb.ports, (o.iter.all fun p => ea.ports.any (PortSpec.contains · p)) = true) ↔
      ∀ v, (∃ o ∈ eb.ports, o.contains v = true) → ∃ s ∈ ea.ports, s.contains v = true := by
    simp only [all_eq_true,any_eq_true,PortSpec.mem_iter]
    constructor
    · rintro h v ⟨o,ho,hv⟩
      exact h o ho v hv
    · exact fun h o ho v hv => h v ⟨o,ho,hv⟩
  rw [admits_iff,ht]
  by_cases hpa : pa.NamesPorts
  · have hea : ea.ports ≠ [] := (namesPorts_iff ha).1 hpa
    rw [or_iff_right hea,← namesPorts_iff hb]
    constructor
    · rintro ⟨hpb,h⟩
      refine ⟨fun k hk => ?_,fun _ => hpb⟩
      obtain ⟨_,hk'⟩ := pb.portsMap_bounds hk
      have hv : (UInt16.ofNat k).toNat = k := by
        rw [UInt16.toNat_ofNat', Nat.mod_eq_of_lt (by omega)]
      rw [← hv] at hk ⊢
      exact (mem_portsMap ha hpa _).2 (h _ ((mem_portsMap hb hpb _).1 hk))
    · rintro ⟨h,hpb⟩
      exact ⟨hpb hpa,fun v hv => (mem_portsMap ha hpa v).1 (h _ ((mem_portsMap hb (hpb hpa) v).2 hv))⟩
  · have hea : ea.ports = [] := not_not.1 (mt (namesPorts_iff ha).2 hpa)
    refine iff_of_true (.inl hea) ⟨fun k hk => ?_,fun h => absurd h hpa⟩
    have hbo := pb.portsMap_bounds hk
    rw [portsMap_of_none hpa,mem_range'_1]
    omega

end

theorem anyOf_of_ok {α : Type} {f : α → Except Exc Bool} {as : List α} (h : ∀ a ∈ as, ∃ b, f a = .ok b) :
    ∃ r, anyOf f as = .ok r ∧ (r = true ↔ ∃ a ∈ as, f a = .ok true) := by
  induction as with
  | nil => exact ⟨false,rfl,by simp⟩
  | cons a as ih =>
    obtain ⟨b,hb⟩ := h a mem_cons_self
    obtain ⟨r,hr,hi⟩ := ih fun x hx => h x (mem_cons_of_mem _ hx)
    rw [anyOf,hb,exists_mem_cons_iff,← hi,hb,Except.ok.injEq]
    cases b with
    | true => exact ⟨true,rfl,by simp⟩
    | false => exact ⟨r,hr,by simp⟩

theorem allOf_of_ok {α : Type} {f : α → Except Exc Bool} {as : List α} (h : ∀ a ∈ as, ∃ b, f a = .ok b) :
    ∃ r, allOf f as = .ok r ∧ (r = true ↔ ∀ a ∈ as, f a = .ok true) := by
  induction as with
  | nil => exact ⟨true,rfl,by simp⟩
  | cons a as ih =>
    obtain ⟨b,hb⟩ := h a mem_cons_self
    obtain ⟨r,hr,hi⟩ := ih fun x hx => h x (mem_cons_of_mem _ hx)
    rw [allOf,hb,forall_mem_cons,← hi,hb,Except.ok.injEq]
    cases b with
    | true => exact ⟨r,hr,by simp⟩
    | false => exact ⟨false,rfl,by simp⟩

theorem exists_domainIsPartOf {d s : Str} (hd : DomainText d) (hs : DomainText s) :
    ∃ b, domainIsPartOf U d s = .ok b := by
  by_cases hst : '*' ∈ s
  · obtain ⟨P,rfl⟩ := exists_pattern hs hst
    obtain ⟨b,hb,_⟩ := domainIsPartOf_eq (U := U) lawfulRegex hs hd
    exact ⟨b,hb⟩
  · by_cases hw : '*' ∈ d
    · exact ⟨_,domainIsPartOf_of_short hw (.inl hst)⟩
    · exact ⟨_,by rw [domainIsPartOf_of_name hw,if_neg hst]⟩

namespace Endpoint

def Listable (e : Endpoint U) : Prop := ∀ n, Zone.network n ∈ e.zones → Strict n

def Placed (e other : Endpoint U) : Prop := ∀ z ∈ e.zones, z ≠ .all → ∃ w ∈ other.zones, z.Within w

/-- The zones of `b` are placed if the two lists of the firewall library are. -/
theorem placed_iff {a b : Endpoint U} (hb : b.Listable) {ips sups : List IpElement} (hips : b.ipv4ZonesMap = .ok ips)
    (hsu : a.ipv4ZonesMap = .ok sups) {ds supd : List Str} (hds : b.domainZones = .ok ds)
    (hsp : a.domainZones = .ok supd) :
    b.Placed a ↔ (∀ i ∈ ips, ∃ j ∈ sups, i.within j = true) ∧
      ∀ d ∈ ds, ∃ s ∈ supd, domainIsPartOf U d s = .ok true := by
  constructor
  · intro h
    constructor
    · intro i hi
      obtain ⟨z,hz,hzi⟩ := (mem_ipv4ZonesMap hips).1 hi
      obtain ⟨w,hw,hin⟩ := h z hz (by rintro rfl; cases hzi)
      rcases hin with ⟨i',j,hi',hj,hin⟩ | ⟨hd,_⟩
      · rw [hzi] at hi'
        cases hi'
        exact ⟨j,(mem_ipv4ZonesMap hsu).2 ⟨w,hw,hj⟩,hin⟩
      · rw [element_domain hd] at hzi
        cases hzi
    · intro d hd
      obtain ⟨⟨z,hz,rfl⟩,hname⟩ := (mem_domainZones hds).1 hd
      obtain ⟨w,hw,hin⟩ := h z hz (by rintro rfl; cases hname)
      rcases hin with ⟨i,_,hi,_⟩ | ⟨_,hwn,hp⟩
      · rw [element_domain hname] at hi
        cases hi
      · exact ⟨w.text,(mem_domainZones hsp).2 ⟨⟨w,hw,rfl⟩,hwn⟩,hp⟩
  · rintro ⟨hip,hdo⟩ z hz hne
    have he : ∀ {i}, z.element = .ok (some i) → ∃ w ∈ a.zones, z.Within w := by
      intro i hi
      obtain ⟨j,hj,hin⟩ := hip i ((mem_ipv4ZonesMap hips).2 ⟨z,hz,hi⟩)
      obtain ⟨w,hw,hwj⟩ := (mem_ipv4ZonesMap hsu).1 hj
      exact ⟨w,hw,.inl ⟨i,j,hi,hwj,hin⟩⟩
    rcases z.kinds with rfl | ⟨x,rfl⟩ | ⟨n,rfl⟩ | hname
    · exact absurd rfl hne
    · exact he (element_address x)
    · exact he (by rw [element_network,if_pos (hb n hz)])
    · obtain ⟨s,hs,hp⟩ := hdo z.text ((mem_domainZones hds).2 ⟨⟨z,hz,rfl⟩,hname⟩)
      obtain ⟨⟨w,hw,rfl⟩,hwn⟩ := (mem_domainZones hsp).1 hs
      exact ⟨w,hw,.inr ⟨hname,hwn,hp⟩⟩

theorem isPartOf_of_outside {a b : Endpoint U} (h : ¬ (ifaceWithin b a = true ∧ b.MeantWithin a)) :
    b.isPartOf a = .ok false := by
  unfold isPartOf
  by_cases hiface : ifaceWithin b a = true
  · have hmeant : ¬ b.MeantWithin a := fun hmeant => h ⟨hiface,hmeant⟩
    have ht : b.meant.all (fun p => decide (p ∈ a.meant)) = false := by
      rw [Bool.eq_false_iff,Ne,all_eq_true]
      simpa [MeantWithin] using hmeant
    simp [hiface,ht]
  · simp [hiface]

section
variable {a b : Endpoint U} (hiface : ifaceWithin b a = true) (hmeant : b.MeantWithin a)
include hiface hmeant

theorem isPartOf_eq : b.isPartOf a = (do
    let superIp ← a.ipv4ZonesMap
    let ip ← b.ipv4ZonesMap
    if !ip.all (fun item => superIp.any item.within) then return false
    let superDomains ← a.domainZones
    let domains ← b.domainZones
    if !(← allOf (fun d => anyOf (domainIsPartOf U d) superDomains) domains) then return false
    return b.portsMap.all fun p => decide (p ∈ a.portsMap)) := by
  have ht : b.meant.all (fun p => decide (p ∈ a.meant)) = true := by
    rw [all_eq_true]
    exact fun p hp => decide_eq_true (hmeant p hp)
  unfold isPartOf
  rw [hiface,ht]
  rfl

theorem listable_of_isPartOf {r : Bool} (h : b.isPartOf a = .ok r) : a.Listable ∧ b.Listable := by
  rw [isPartOf_eq hiface hmeant] at h
  obtain ⟨sups,hs,h⟩ := bind_eq_ok.1 h
  obtain ⟨ips,hi,_⟩ := bind_eq_ok.1 h
  exact ⟨(exists_ipv4ZonesMap_iff a).1 ⟨sups,hs⟩,(exists_ipv4ZonesMap_iff b).1 ⟨ips,hi⟩⟩

theorem isPartOf_of_listable (hU : U.Lawful) (ha : a.Listable) (hb : b.Listable) :
    ∃ r, b.isPartOf a = .ok r ∧ (r = true ↔ b.Placed a ∧ b.PortsWithin a) := by
  obtain ⟨sups,hsp⟩ := (exists_ipv4ZonesMap_iff a).2 ha
  obtain ⟨ips,hips⟩ := (exists_ipv4ZonesMap_iff b).2 hb
  obtain ⟨supd,hsu⟩ := a.exists_domainZones
  obtain ⟨ds,hds⟩ := b.exists_domainZones
  have han : ∀ d ∈ ds, ∃ r, anyOf (domainIsPartOf U d) supd = .ok r ∧
      (r = true ↔ ∃ s ∈ supd, domainIsPartOf U d s = .ok true) := by
    intro d hd
    have hdt := domainText_of_isDomainName hU ((mem_domainZones hds).1 hd).2
    exact anyOf_of_ok fun s hs => exists_domainIsPartOf hdt
      (domainText_of_isDomainName hU ((mem_domainZones hsu).1 hs).2)
  have hok : ∀ d ∈ ds, ∃ r, (fun d => anyOf (domainIsPartOf U d) supd) d = .ok r :=
    fun d hd => (han d hd).imp fun _ h => h.1
  have ht : ∀ d ∈ ds, anyOf (domainIsPartOf U d) supd = .ok true ↔ ∃ s ∈ supd, domainIsPartOf U d s = .ok true := by
    intro d hd
    obtain ⟨r,hr,hi⟩ := han d hd
    rw [hr,← hi,Except.ok.injEq]
  obtain ⟨r,hr,hi⟩ := allOf_of_ok hok
  have hdo : r = true ↔ ∀ d ∈ ds, ∃ s ∈ supd, domainIsPartOf U d s = .ok true :=
    hi.trans (forall₂_congr ht)
  have hip : ips.all (fun i => sups.any i.within) = true ↔ ∀ i ∈ ips, ∃ j ∈ sups, i.within j = true := by
    simp only [all_eq_true,any_eq_true]
  have hp : (b.portsMap.all fun p => decide (p ∈ a.portsMap)) = true ↔ b.PortsWithin a := by
    simp only [all_eq_true,decide_eq_true_eq,PortsWithin]
  rw [isPartOf_eq hiface hmeant,placed_iff hb hips hsp hds hsu,hsp,hips,hsu,hds,← hip,← hdo,← hp]
  refine ⟨ips.all (fun i => sups.any i.within) && r && b.portsMap.all fun p => decide (p ∈ a.portsMap),?_,by simp⟩
  cases hal : ips.all fun i => sups.any i.within with
  | false => simp [hal,bind,Except.bind,pure,Except.pure]
  | true =>
    simp only [bind,Except.bind,pure,Except.pure,hal,hr]
    cases r <;> rfl

end

end Endpoint

namespace Endpoint

/-- The zones that the web proxy does not refuse: it does not compare them when one endpoint is everywhere. -/
def Passed (e other : Endpoint U) : Prop :=
  other.Everywhere ∨ e.Everywhere ∨ ∀ z ∈ e.zones, ∃ w ∈ other.zones, z.Within w ∨ z.SameHost w

theorem Placed.passed {e other : Endpoint U} (h : e.Placed other) : e.Passed other := by
  by_cases hal : .all ∈ e.zones
  · exact .inr (.inl (.inr hal))
  · refine .inr (.inr fun z hz => ?_)
    obtain ⟨w,hw,hin⟩ := h z hz fun heq => hal (heq ▸ hz)
    exact ⟨w,hw,.inl hin⟩

/-- When both tests agree whether `b` is inside `a`: no host bits, zones that are found need
services named where those of `a` are, and zones that are passed must be found. -/
def Comparable (a b : Endpoint U) : Prop :=
  ifaceWithin b a = true → b.MeantWithin a →
    (a.Listable ∧ b.Listable) ∧
      (b.PortsWithin a → (b.Placed a → b.Explicit a) ∧ (b.Explicit a → b.Passed a → b.Placed a))

end Endpoint

section
variable {ea eb : EndPoint E} {pa pb : Endpoint U} (ha : SameEndpoint ea pa) (hb : SameEndpoint eb pb)
include ha hb

theorem contains_of_outside (h : ¬ (ifaceWithin pb pa = true ∧ pb.MeantWithin pa)) : ea.contains eb = .ok false := by
  unfold EndPoint.contains
  rw [admits_interfaces ha hb]
  by_cases hiface : ifaceWithin pb pa = true
  · have hp : admits ea.protocols eb.protocols (fun p => decide (p ∈ ea.protocols)) = false := by
      rw [Bool.eq_false_iff,Ne,admits_protocols ha hb]
      exact fun hmeant => h ⟨hiface,hmeant.1⟩
    simp [hiface,hp]
  · simp [hiface]

theorem zones_of_same (hU : U.Lawful) (hE : LawfulRegex E) (hN : ReadsNetworks E) (hla : pa.Listable)
    (hlb : pb.Listable) :
    ∃ r, (if .all ∈ ea.zones then .ok true else allContained ea.zones eb.zones : Partial Bool) = .ok r ∧
      (r = true ↔ pb.Passed pa) := by
  unfold Endpoint.Passed
  by_cases hea : .all ∈ ea.zones
  · exact ⟨true,if_pos hea,iff_of_true rfl (.inl (ha.everywhere.1 hea))⟩
  rw [if_neg hea,or_iff_right (mt ha.everywhere.2 hea)]
  by_cases heb : .all ∈ eb.zones
  · have hs : eb.zones = [.all] := by
      rw [← eb.adjusted]
      exact if_pos (.inr heb)
    rw [hs]
    exact ⟨true,rfl,iff_of_true rfl (.inl (hb.everywhere.1 heb))⟩
  · rw [or_iff_right (mt hb.everywhere.2 heb)]
    exact allContained_same hU hE hN (ha.zones hea) hea hla (hb.zones heb) heb hlb

theorem contains_of_inside (hU : U.Lawful) (hE : LawfulRegex E) (hN : ReadsNetworks E)
    (hiface : ifaceWithin pb pa = true) (hmeant : pb.MeantWithin pa) (hla : pa.Listable) (hlb : pb.Listable) :
    ∃ r, ea.contains eb = .ok r ∧ (r = true ↔ pb.PortsWithin pa ∧ pb.Explicit pa ∧ pb.Passed pa) := by
  obtain ⟨r,hr,hzones⟩ := zones_of_same ha hb hU hE hN hla hlb
  have hp := admits_protocols ha hb
  have hpo := admits_ports ha hb
  unfold EndPoint.contains
  rw [admits_interfaces ha hb,hiface,← hzones,Endpoint.Explicit]
  by_cases ht : admits ea.protocols eb.protocols (fun p => decide (p ∈ ea.protocols)) = true
  · have hn := (hp.1 ht).2
    by_cases ht' : admits ea.ports eb.ports (fun o => o.iter.all fun p => ea.ports.any (PortSpec.contains · p)) = true
    · obtain ⟨hw,hna⟩ := hpo.1 ht'
      refine ⟨r,?_,fun h => ⟨hw,⟨hn,hna⟩,h⟩,fun h => h.2.2⟩
      rw [ht,ht']
      exact hr
    · refine ⟨false,by simp [ht,ht'],iff_of_false nofun ?_⟩
      exact fun h => ht' (hpo.2 ⟨h.1,h.2.1.2⟩)
  · refine ⟨false,by simp [ht],iff_of_false nofun ?_⟩
    exact fun h => ht (hp.2 ⟨hmeant,h.2.1.1⟩)

end

/-- The two tests agree on two texts that both libraries read if and only if the
endpoints are comparable. -/
theorem contains_agrees_iff (hU : U.Lawful) (hE : LawfulRegex E) (hN : ReadsNetworks E) {sa sb : Str}
    (ha : NoSeparators sa)
    (hb : NoSeparators sb) {ea eb : EndPoint E} {pa pb : Endpoint U} (hea : EndPoint.new E sa = .ok (.ok ea))
    (heb : EndPoint.new E sb = .ok (.ok eb)) (hpa : Endpoint.fromRepr U sa none = .ok pa)
    (hpb : Endpoint.fromRepr U sb none = .ok pb) :
    (∃ r, ea.contains eb = .ok r ∧ pb.isPartOf pa = .ok r) ↔ pa.Comparable pb := by
  have hsa := sameEndpoint_of_read hU hN ha hea hpa
  have hsb := sameEndpoint_of_read hU hN hb heb hpb
  by_cases hi : ifaceWithin pb pa = true ∧ pb.MeantWithin pa
  · obtain ⟨hiface,hmeant⟩ := hi
    by_cases hlist : pa.Listable ∧ pb.Listable
    · obtain ⟨r,hr,hpy⟩ := isPartOf_of_listable hiface hmeant hU hlist.1 hlist.2
      obtain ⟨r',hr',hru⟩ := contains_of_inside hsa hsb hU hE hN hiface hmeant hlist.1 hlist.2
      have hag : (∃ x, ea.contains eb = .ok x ∧ pb.isPartOf pa = .ok x) ↔ (r = true ↔ r' = true) := by
        rw [hr,hr',← Bool.eq_iff_iff]
        simp
      rw [hag,hpy,hru]
      constructor
      · intro h _ _
        exact ⟨hlist,fun hp => ⟨fun hpl => (h.1 ⟨hpl,hp⟩).2.1,
          fun he hps => (h.2 ⟨hp,he,hps⟩).1⟩⟩
      · intro h
        obtain ⟨_,hzones⟩ := h hiface hmeant
        constructor
        · rintro ⟨hpl,hp⟩
          exact ⟨hp,(hzones hp).1 hpl,hpl.passed⟩
        · rintro ⟨hp,he,hps⟩
          exact ⟨(hzones hp).2 he hps,hp⟩
    · refine iff_of_false ?_ fun h => hlist (h hiface hmeant).1
      rintro ⟨r,_,hr⟩
      exact hlist (listable_of_isPartOf hiface hmeant hr)
  · refine iff_of_true ⟨false,contains_of_outside hsa hsb hi,isPartOf_of_outside hi⟩ ?_
    exact fun hiface hmeant => absurd ⟨hiface,hmeant⟩ hi

theorem readsNetworks_reference : ReadsNetworks externals where
  parts {s n} h := by
    change parseNetwork s = some n at h
    unfold parseNetwork at h
    split at h
    · rename_i a hsplit
      obtain ⟨x,hx,rfl⟩ := Option.map_eq_some_iff.1 h
      exact ⟨a,hx,.inl hsplit⟩
    · rename_i a p hsplit
      obtain ⟨x,hx,h⟩ := Option.bind_eq_some_iff.1 h
      obtain ⟨k,hk,h⟩ := Option.bind_eq_some_iff.1 h
      cases h
      exact ⟨a,hx,.inr ⟨p,hsplit⟩⟩
    · cases h
  agrees {s n m} h hm := by
    change parseNetwork s = some n at h
    unfold parseNetwork at h
    unfold interface at hm
    split at h
    · rename_i a hsplit
      rw [hsplit] at hm
      exact Option.some.inj (h.symm.trans hm)
    · rename_i a p hsplit
      rw [hsplit] at hm
      obtain ⟨x,hx,h⟩ := Option.bind_eq_some_iff.1 h
      obtain ⟨k,hk,h⟩ := Option.bind_eq_some_iff.1 h
      cases h
      have hd : Nat.toDigits 10 k.val = p := by simpa using find?_some hk
      simp only [hx,Option.bind_some,← hd] at hm
      exact Option.some.inj ((networkOf_toDigits ⟨x,k.val,_⟩).symm.trans hm)
    · cases h
  supernet {n o} _ _ := isSupernetOf_iff n o

def everywhereEnd : EndPoint Reference.externals := ⟨[.all],[],[.tcp],[.port 443],adjustZones_all⟩
def oneHostEnd : EndPoint Reference.externals :=
  ⟨[.network ⟨⟨10,0,0,1⟩,32,Ipv4Network.hostLength_le⟩],[],[.tcp],[.port 443],by decide⟩

theorem oneHost_agrees_iff :
    EndPoint.new Reference.externals "10.0.0.1^tcp^443" = .ok (.ok oneHostEnd) ∧
      Endpoint.fromRepr .ascii "10.0.0.1^tcp^443" none = .ok oneHostWeb ∧
      oneHostEnd.contains everywhereEnd = .ok true ∧
      ((∃ r, oneHostEnd.contains everywhereEnd = .ok r ∧ everywhereWeb.isPartOf oneHostWeb = .ok r) ↔
        oneHostWeb.Comparable everywhereWeb) := by
  have hh : EndPoint.new externals "10.0.0.1^tcp^443" = .ok (.ok oneHostEnd) := by decide +kernel
  have hh' : fromRepr .ascii "10.0.0.1^tcp^443" none = .ok oneHostWeb := by decide +kernel
  have hcl : ∀ s : Str, s.all (fun c => !separator c) = true → NoSeparators s := by
    intro s h c hc
    simpa using all_eq_true.1 h c hc
  exact ⟨hh,hh',by decide +kernel,contains_agrees_iff Unicode.lawful_ascii lawfulRegex readsNetworks_reference
    (hcl _ (by decide)) (hcl "*^tcp^443" (by decide)) hh (by decide +kernel) hh' (by decide +kernel)⟩

/-- Everything contains one host, but one host is not part of everything. -/
theorem one_host_is_not_part_of_everywhere :
    EndPoint.new Reference.externals "*^tcp^443" = .ok (.ok everywhereEnd) ∧
      EndPoint.new Reference.externals "10.0.0.1^tcp^443" = .ok (.ok oneHostEnd) ∧
      Endpoint.fromRepr .ascii "*^tcp^443" none = .ok everywhereWeb ∧
      Endpoint.fromRepr .ascii "10.0.0.1^tcp^443" none = .ok oneHostWeb ∧
      everywhereEnd.contains oneHostEnd = .ok true ∧ oneHostWeb.isPartOf everywhereWeb = .ok false := by
  refine ⟨?_,?_,?_,?_,?_,?_⟩ <;> decide +kernel

end Padsi.Fw
