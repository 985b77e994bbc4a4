import Padsi.Fw.Domain
import Padsi.Net.Denotation

/-! # Endpoints of the firewall library

Absent protocols, ports and ranges, `None` in the code and never an empty list, are
empty lists here.
-/
namespace Padsi.Fw
open Text Net Python List Ipv4Addr Reference

variable {U : Unicode}

def ZoneForm (U : Unicode) (s : Str) : Prop :=
  s = ['*'] ∨ (∃ x : Ipv4Addr, s = x.text) ∨ (∃ n : Ipv4Network, s = n.text) ∨ isDomainName U s = .ok true

structure Zone (U : Unicode) where
  text : Str
  form : ZoneForm U text
deriving DecidableEq

structure Iface where
  text : Str
  short : text.length ≤ 15

instance : DecidableEq Iface := fun i j =>
  decidable_of_iff (i.text = j.text) ⟨fun h => by cases i; cases j; cases h; rfl,congrArg Iface.text⟩
def ValidPort (p : ℤ) : Prop := 1 ≤ p ∧ p ≤ 65535
instance (p : ℤ) : Decidable (ValidPort p) := inferInstanceAs (Decidable (_ ∧ _))

theorem validPort_toNat {p : ℤ} (h : ValidPort p) : ValidPort p.toNat := by
  have := h.1
  rw [Int.toNat_of_nonneg (by omega)]
  exact h

structure Port where
  val : ℕ
  valid : ValidPort val
deriving DecidableEq

section
variable {p q : ℤ} (h : ValidPort p ∧ ValidPort q ∧ p ≤ q)
include h

theorem validPort_first : ValidPort p.toNat := validPort_toNat h.1
theorem validPort_last : ValidPort q.toNat := validPort_toNat h.2.1

end

def readRange (U : Unicode) (item : Str) : Option (Port × Port) :=
  match item.splitOn '-' with
  | [a,b] => do
    let p ← int U a
    let q ← int U b
    if h : ValidPort p ∧ ValidPort q ∧ p ≤ q then
      some (⟨p.toNat,validPort_first h⟩,⟨q.toNat,validPort_last h⟩)
    else none
  | _ => none

/-- A range of more than one port, kept as it was written. -/
structure PortRange (U : Unicode) where
  text : Str
  first : Port
  last : Port
  reads : readRange U text = some (first,last)
  lt : first.val < last.val
deriving DecidableEq

def readProtocol (s : Str) : Option Protocol :=
  if s = "tcp" then some .tcp
  else if s = "udp" then some .udp
  else if s = "icmp" then some .icmp
  else none

def allProtocols : List Protocol := [.tcp,.udp,.icmp]

structure Endpoint (U : Unicode) where
  zones : List (Zone U)
  iface : Option Iface
  protocols : List Protocol
  ports : List Port
  portRanges : List (PortRange U)
  located : zones ≠ [] ∨ iface ≠ none
deriving DecidableEq

def invalidProtocol (s : Str) : Exc := .firewall ("invalid protocol " ++ s)
def invalidInterface (s : Str) : Exc := .firewall ("invalid network interface " ++ s)
def invalidRange (s : Str) : Exc := .firewall ("Invalid endpoint spec: invalid port range '" ++ s ++ "'")
def invalidPort (s : Str) : Exc := .firewall ("invalid port number '" ++ s ++ "'")
def emptySpec : Exc := .firewall "Invalid empty (\"\") endpoint spec"
def secondInterface : Exc := .firewall "Invalid endpoint spec: more than one interface specified"
def invalidSpec (s : Str) : Exc := .firewall ("Invalid endpoint spec '" ++ s ++ "'")
def missingDot (s : Str) : Exc := .firewall ("Invalid endpoint spec '" ++ s ++ "' (missing final dot)")
def itemsOf (spec : Str) : List Str := ((strip spec).splitOn ',').map strip

def readProtocols : List Str → Except Exc (List Protocol)
  | [] => .ok []
  | item :: items =>
    if item = [] then readProtocols items
    else
      match readProtocol item with
      | none => .error (invalidProtocol item)
      | some p => do return p :: (← readProtocols items)

def analyseProtocolSpec : Option Str → Except Exc (List Protocol)
  | none => .ok []
  | some spec => readProtocols (itemsOf spec)

def readPortItem (U : Unicode) (item : Str) : Except Exc (Port ⊕ PortRange U) :=
  if contains ['-'] item then
    match h : readRange U item with
    | none => .error (invalidRange item)
    | some (p,q) => if hlt : p.val < q.val then .ok (.inr ⟨item,p,q,h,hlt⟩) else .ok (.inl p)
  else
    match int U item with
    | none => .error (invalidPort item)
    | some p =>
      if h : ValidPort p then
        .ok (.inl ⟨p.toNat,validPort_toNat h⟩)
      else .error (invalidPort item)

def readPorts (U : Unicode) : List Str → Except Exc (List Port × List (PortRange U))
  | [] => .ok ([],[])
  | item :: items => do
    match ← readPortItem U item with
    | .inl p => return (← readPorts U items).map (p :: ·) id
    | .inr r => return (← readPorts U items).map id (r :: ·)

def analysePortSpec (U : Unicode) : Option Str → Except Exc (List Port × List (PortRange U))
  | none => .ok ([],[])
  | some spec => readPorts U (itemsOf spec)

def Zone.all : Zone U := ⟨['*'],.inl rfl⟩
def Zone.address (x : Ipv4Addr) : Zone U := ⟨x.text,.inr (.inl ⟨x,rfl⟩)⟩
def Zone.network (n : Ipv4Network) : Zone U := ⟨n.text,.inr (.inr (.inl ⟨n,rfl⟩))⟩

def readZone (U : Unicode) (item : Str) : Except Exc (Zone U) :=
  match Ipv4Addr.parse item with
  | some x => .ok (.address x)
  | none =>
    match interface item with
    | some n => .ok (.network n)
    | none =>
      match h : isDomainName U item with
      | .error e => .error e
      | .ok true => .ok ⟨item,.inr (.inr (.inr h))⟩
      | .ok false =>
        match item.getLast? with
        | none => .error .index
        | some c => if c = '.' then .error (invalidSpec item) else .error (missingDot item)

def readItem (U : Unicode) (item : Str) : Except Exc (Iface ⊕ Zone U) :=
  match item with
  | [] => .error emptySpec
  | c :: rest =>
    if item = ['*'] then .ok (.inr .all)
    else if c = '#' then
      if h : rest.length ≤ 15 then .ok (.inl ⟨rest,h⟩) else .error (invalidInterface rest)
    else do return .inr (← readZone U (removesuffix "/32" item))

/-- An interface is refused after one that is not the empty text. -/
def readZones (U : Unicode) : Option Iface → List Str → Except Exc (Option Iface × List (Zone U))
  | iface, [] => .ok (iface,[])
  | iface, item :: items => do
    match ← readItem U item with
    | .inl i => if iface.any (·.text ≠ []) then throw secondInterface else readZones U (some i) items
    | .inr z => return (← readZones U iface items).map id (z :: ·)

def Endpoint.ofParts (zones : List (Zone U)) (iface : Option Iface) (protocols : List Protocol) (ports : List Port)
    (portRanges : List (PortRange U)) : Endpoint U :=
  if h : zones = [] ∧ iface = none then ⟨[.all],iface,protocols,ports,portRanges,.inl (by simp)⟩
  else ⟨zones,iface,protocols,ports,portRanges,by tauto⟩

def Endpoint.new (U : Unicode) (zones protocols ports : Option Str) : Except Exc (Endpoint U) := do
  let protocols ← analyseProtocolSpec protocols
  let located ←
    match zones with
    | none => pure (none,[])
    | some spec => readZones U none (itemsOf spec)
  let ports ← analysePortSpec U ports
  return .ofParts located.2 located.1 protocols ports.1 ports.2

def emptyRepr : Exc := .firewall "Invalid endpoint empty spec."
def invalidRepr (s : Str) : Exc := .firewall ("Invalid endpoint spec. " ++ s)

def Endpoint.ofRepr (U : Unicode) (txt : Str) : List Str → Option Str → Except Exc (Endpoint U)
  | [z], none => new U (some z) none none
  | [z,p], none => new U (some z) (some p) none
  | [z,p,q], _ => new U (some z) (some p) (some q)
  | [z], some protos => new U (some z) (some protos) none
  | [z,q], some protos => new U (some z) (some protos) (some q)
  | _, _ => .error (invalidRepr txt)

def Endpoint.fromRepr (U : Unicode) (txt : Str) (protos : Option Str) : Except Exc (Endpoint U) :=
  if strip txt = [] then .error emptyRepr else ofRepr U (strip txt) ((strip txt).splitOn '^') protos

inductive IpElement where
  | address (x : Ipv4Addr)
  | network (n : Ipv4Network)
deriving DecidableEq

def unhandledElement (s : Str) : Exc := .firewall ("TODO: unhandled address element '" ++ s ++ "'")

def Zone.element (z : Zone U) : Except Exc (Option IpElement) :=
  match isIpv4Element z.text with
  | .error e => .error e
  | .ok false => .ok none
  | .ok true =>
    match Ipv4Addr.parse z.text with
    | some x => .ok (some (.address x))
    | none =>
      match Fw.network z.text with
      | .ok n => .ok (some (.network n))
      | .error .address => .error (unhandledElement z.text)
      | .error .value => .error .value

def collectSome {α β : Type} (f : α → Except Exc (Option β)) : List α → Except Exc (List β)
  | [] => .ok []
  | a :: as => do
    let b ← f a
    let bs ← collectSome f as
    return b.toList ++ bs

namespace Endpoint

def ipv4ZonesMap (e : Endpoint U) : Except Exc (List IpElement) := collectSome Zone.element e.zones
def domainZones (e : Endpoint U) : Except Exc (List Str) :=
  collectSome (fun z : Zone U => do return if ← isDomainName U z.text then some z.text else none) e.zones

def portsMap (e : Endpoint U) : List ℕ :=
  if e.ports = [] ∧ e.portRanges = [] then range' 1 65535
  else
    e.ports.map Port.val ++
      e.portRanges.flatMap fun r => range' r.first.val (r.last.val + 1 - r.first.val)

def meant (e : Endpoint U) : List Protocol := if e.protocols = [] then allProtocols else e.protocols

end Endpoint

def IpElement.within : IpElement → IpElement → Bool
  | .address x, .address y => decide (x = y)
  | .address x, .network n => decide (n.Mem x)
  | .network _, .address _ => false
  | .network n, .network m => subnetOf n m

/-- Whether some element passes a test that can fail; the first one that passes ends the search. -/
def anyOf {α : Type} (f : α → Except Exc Bool) : List α → Except Exc Bool
  | [] => .ok false
  | a :: as => do if ← f a then return true else anyOf f as

def allOf {α : Type} (f : α → Except Exc Bool) : List α → Except Exc Bool
  | [] => .ok true
  | a :: as => do if ← f a then allOf f as else return false

namespace Endpoint

def ifaceWithin (e other : Endpoint U) : Bool :=
  match e.iface, other.iface with
  | none, o => o.isNone
  | some _, none => true
  | some i, some o => decide (i = o)

def isPartOf (e other : Endpoint U) : Except Exc Bool :=
  if !ifaceWithin e other then .ok false
  else if !e.meant.all (fun p => decide (p ∈ other.meant)) then .ok false
  else do
    let superIp ← other.ipv4ZonesMap
    let ip ← e.ipv4ZonesMap
    if !ip.all (fun item => superIp.any item.within) then return false
    let superDomains ← other.domainZones
    let domains ← e.domainZones
    if !(← allOf (fun d => anyOf (domainIsPartOf U d) superDomains) domains) then return false
    return e.portsMap.all fun p => decide (p ∈ other.portsMap)

end Endpoint

theorem Zone.eq_of_text {z w : Zone U} (h : z.text = w.text) : z = w := by
  obtain ⟨t,_⟩ := z
  cases h
  rfl

theorem Zone.kinds (z : Zone U) :
    z = .all ∨ (∃ x, z = .address x) ∨ (∃ n, z = .network n) ∨ isDomainName U z.text = .ok true := by
  rcases z.form with h | ⟨x,h⟩ | ⟨n,h⟩ | h
  · exact .inl (eq_of_text h)
  · exact .inr (.inl ⟨x,eq_of_text h⟩)
  · exact .inr (.inr (.inl ⟨n,eq_of_text h⟩))
  · exact .inr (.inr (.inr h))

theorem Zone.address_injective {x y : Ipv4Addr} (h : (address x : Zone U) = address y) : x = y := by
  have hp : parse x.text = parse y.text := congrArg (fun z : Zone U => parse z.text) h
  rw [x.parse_text,y.parse_text] at hp
  exact Option.some.inj hp

theorem Zone.network_injective {n m : Ipv4Network} (h : (network n : Zone U) = network m) : n = m := by
  have hp : parseNetwork n.text = parseNetwork m.text :=
    congrArg (fun z : Zone U => parseNetwork z.text) h
  rw [parseNetwork_text,parseNetwork_text] at hp
  exact Option.some.inj hp

section
variable (x : Ipv4Addr) (n : Ipv4Network)

theorem Zone.address_ne_network : (address x : Zone U) ≠ network n := by
  intro h
  have hp : parse x.text = parse n.text := congrArg (fun z : Zone U => parse z.text) h
  rw [x.parse_text,parse_networkText] at hp
  cases hp

theorem Zone.address_ne_all : (address x : Zone U) ≠ all := by
  intro h
  have hp : parse x.text = parse ['*'] := congrArg (fun z : Zone U => parse z.text) h
  rw [x.parse_text] at hp
  cases hp

theorem Zone.network_ne_all : (network n : Zone U) ≠ all := by
  intro h
  have hp : parseNetwork n.text = parseNetwork ['*'] :=
    congrArg (fun z : Zone U => parseNetwork z.text) h
  rw [parseNetwork_text] at hp
  cases hp

theorem isDomainName_of_last {s : Str} (h : s.getLast? ≠ some '.') : isDomainName U s = .ok false := if_pos h
theorem isDomainName_all : isDomainName U ['*'] = .ok false := rfl
theorem isDomainName_address : isDomainName U x.text = .ok false :=
  isDomainName_of_last (last_of_parse x.parse_text)

theorem isDomainName_network : isDomainName U n.text = .ok false := by
  apply isDomainName_of_last
  intro h
  rw [Ipv4Network.text, getLast?_append_of_ne_nil _ (by simp)] at h
  rcases mem_cons.1 (mem_of_getLast? h) with h | h
  · cases h
  · exact absurd (Nat.isDigit_of_mem_toDigits (by decide) (by decide) h) (by decide)

theorem isIpv4Element_of_isDomainName {s : Str} (h : isDomainName U s = .ok true) : isIpv4Element s = .ok false := by
  unfold isDomainName at h
  split at h
  · cases h
  · split at h
    · cases h
    · cases h
    · assumption

theorem element_all : (Zone.all : Zone U).element = .ok none := rfl
theorem element_address : (Zone.address x : Zone U).element = .ok (some (.address x)) := by
  simp only [Zone.element,Zone.address,isIpv4Element_address,parse_text]

theorem element_network :
    (Zone.network n : Zone U).element = if Strict n then .ok (some (.network n)) else .error .value := by
  simp only [Zone.element,Zone.network,isIpv4Element_network,parse_networkText,network_text]
  by_cases h : Strict n
  · simp only [if_pos h]
  · simp only [if_neg h]

end

theorem element_domain {z : Zone U} (h : isDomainName U z.text = .ok true) : z.element = .ok none := by
  simp only [Zone.element,isIpv4Element_of_isDomainName h]

theorem element_cases {z : Zone U} {i : IpElement} (h : z.element = .ok (some i)) :
    (∃ x, i = .address x ∧ z = .address x) ∨ ∃ n, i = .network n ∧ z = .network n ∧ Strict n := by
  rcases z.kinds with rfl | ⟨x,rfl⟩ | ⟨n,rfl⟩ | hd
  · cases h
  · rw [element_address] at h
    cases h
    exact .inl ⟨x,rfl,rfl⟩
  · rw [element_network] at h
    split at h
    · rename_i hs
      cases h
      exact .inr ⟨n,rfl,rfl,hs⟩
    · cases h
  · rw [element_domain hd] at h
    cases h

theorem mem_of_collectSome {α β : Type} {f : α → Except Exc (Option β)} {as : List α} {bs : List β}
    (h : collectSome f as = .ok bs) :
    (∀ a ∈ as, ∃ r, f a = .ok r ∧ ∀ b, r = some b → b ∈ bs) ∧ ∀ b ∈ bs, ∃ a ∈ as, f a = .ok (some b) := by
  induction as generalizing bs with
  | nil =>
    cases h
    exact ⟨nofun,nofun⟩
  | cons a as ih =>
    obtain ⟨r,hr,h⟩ := bind_eq_ok.1 h
    obtain ⟨bs',hrest,h⟩ := bind_eq_ok.1 h
    cases h
    obtain ⟨ha,hmem⟩ := ih hrest
    constructor
    · intro x hx
      rcases mem_cons.1 hx with rfl | hx
      · exact ⟨r,hr,fun b hb => mem_append_left _ (by simp [hb])⟩
      · obtain ⟨r',hr',hin⟩ := ha x hx
        exact ⟨r',hr',fun b hb => mem_append_right _ (hin b hb)⟩
    · intro b hb
      rcases mem_append.1 hb with hb | hb
      · exact ⟨a,mem_cons_self,by rw [hr,Option.mem_toList.1 hb]⟩
      · obtain ⟨x,hx,hfx⟩ := hmem b hb
        exact ⟨x,mem_cons_of_mem _ hx,hfx⟩

theorem collectSome_ok {α β : Type} {f : α → Except Exc (Option β)} {as : List α} (h : ∀ a ∈ as, ∃ r, f a = .ok r) :
    ∃ bs, collectSome f as = .ok bs := by
  induction as with
  | nil => exact ⟨[],rfl⟩
  | cons a as ih =>
    obtain ⟨r,hr⟩ := h a mem_cons_self
    obtain ⟨bs,hbs⟩ := ih fun x hx => h x (mem_cons_of_mem _ hx)
    exact ⟨r.toList ++ bs,by rw [collectSome,hr,hbs]; rfl⟩

namespace Endpoint

variable {e : Endpoint U}

theorem mem_domainZones {ds : List Str} (h : e.domainZones = .ok ds) {d : Str} :
    d ∈ ds ↔ (∃ z ∈ e.zones, z.text = d) ∧ isDomainName U d = .ok true := by
  obtain ⟨ha,hmem⟩ := mem_of_collectSome h
  constructor
  · intro hd
    obtain ⟨z,hz,hzd⟩ := hmem d hd
    obtain ⟨b,hb,hbd⟩ := bind_eq_ok.1 hzd
    cases b with
    | false => cases hbd
    | true =>
      cases hbd
      exact ⟨⟨z,hz,rfl⟩,hb⟩
  · rintro ⟨⟨z,hz,rfl⟩,hd⟩
    obtain ⟨r,hr,hin⟩ := ha z hz
    rw [hd] at hr
    cases hr
    exact hin _ rfl

theorem exists_domainZones (e : Endpoint U) : ∃ ds, e.domainZones = .ok ds := by
  apply collectSome_ok
  intro z _
  have hname : ∃ b, isDomainName U z.text = .ok b := by
    rcases z.kinds with rfl | ⟨x,rfl⟩ | ⟨n,rfl⟩ | h
    · exact ⟨false,isDomainName_all⟩
    · exact ⟨false,isDomainName_address x⟩
    · exact ⟨false,isDomainName_network n⟩
    · exact ⟨true,h⟩
  obtain ⟨b,hb⟩ := hname
  exact ⟨_,by rw [hb]; rfl⟩

/-- The addresses of an endpoint can be listed if no network has host bits. -/
theorem exists_ipv4ZonesMap_iff (e : Endpoint U) :
    (∃ is, e.ipv4ZonesMap = .ok is) ↔ ∀ n, Zone.network n ∈ e.zones → Strict n := by
  constructor
  · rintro ⟨is,h⟩ n hn
    obtain ⟨r,hr,_⟩ := (mem_of_collectSome h).1 _ hn
    rw [element_network] at hr
    by_contra hs
    rw [if_neg hs] at hr
    cases hr
  · intro h
    apply collectSome_ok
    intro z hz
    rcases z.kinds with rfl | ⟨x,rfl⟩ | ⟨n,rfl⟩ | hd
    · exact ⟨_,element_all⟩
    · exact ⟨_,element_address x⟩
    · exact ⟨_,by rw [element_network,if_pos (h n hz)]⟩
    · exact ⟨_,element_domain hd⟩

theorem mem_ipv4ZonesMap {is : List IpElement} (h : e.ipv4ZonesMap = .ok is) {i : IpElement} :
    i ∈ is ↔ ∃ z ∈ e.zones, z.element = .ok (some i) := by
  obtain ⟨ha,hmem⟩ := mem_of_collectSome h
  refine ⟨hmem i,?_⟩
  rintro ⟨z,hz,hzi⟩
  obtain ⟨r,hr,hin⟩ := ha z hz
  rw [hzi] at hr
  cases hr
  exact hin _ rfl

def NamesPorts (e : Endpoint U) : Prop := e.ports ≠ [] ∨ e.portRanges ≠ []

theorem mem_portsMap_of_names (hn : e.NamesPorts) {k : ℕ} :
    k ∈ e.portsMap ↔ (∃ q ∈ e.ports, q.val = k) ∨ ∃ r ∈ e.portRanges, r.first.val ≤ k ∧ k ≤ r.last.val := by
  have hr : ∀ r : PortRange U, k ∈ range' r.first.val (r.last.val + 1 - r.first.val) ↔
      r.first.val ≤ k ∧ k ≤ r.last.val := by
    intro r
    have hlt := r.lt
    rw [mem_range'_1]
    omega
  rw [portsMap, if_neg fun h => hn.elim (· h.1) (· h.2)]
  simp only [mem_append,mem_map,mem_flatMap,hr]

theorem portsMap_of_none (hn : ¬ e.NamesPorts) : e.portsMap = range' 1 65535 := by
  simp only [NamesPorts,not_or,not_not] at hn
  exact if_pos hn

theorem portsMap_bounds (e : Endpoint U) {k : ℕ} (hk : k ∈ e.portsMap) : 1 ≤ k ∧ k ≤ 65535 := by
  by_cases hn : e.NamesPorts
  · rcases (mem_portsMap_of_names hn).1 hk with ⟨q,_,rfl⟩ | ⟨r,_,hfirst,hla⟩
    · have hq := q.valid
      simp only [ValidPort] at hq
      omega
    · have hl := r.first.valid
      have hh := r.last.valid
      simp only [ValidPort] at hl hh
      omega
  · rw [portsMap_of_none hn,mem_range'_1] at hk
    omega

end Endpoint

end Padsi.Fw
