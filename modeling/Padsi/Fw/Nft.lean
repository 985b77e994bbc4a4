import Padsi.Fw.NetFlow
import Padsi.Fw.PartOf
import Padsi.Net.RoundTrip

/-! # The arguments of nft

`_netflow_to_nft_args` writes a flow as match expressions of three words. The reading of
addresses and ports in a set is a parameter.
-/
namespace Padsi.Fw
open Text Net Python List Endpoint UInt16

variable {U : Unicode}

def manyProtocols : Exc := .firewall "CODEBUG: more than one protocol!"
def portsNeedTransport : Exc :=
  .firewall "source or destination port can only be specified for TCP or UDP protocols"
def setText (items : List Str) : Str := '\x7b' :: [','].intercalate items ++ ['\x7d']

def protocolArgs : List Protocol → List Str
  | [] => []
  | p :: _ => ["ip","protocol",p.text]

namespace Endpoint

def interfaceArgs (keyword : Str) (e : Endpoint U) : List Str :=
  match e.iface with
  | none => []
  | some i => ["meta",keyword,i.text]

def addressArgs (keyword : Str) (e : Endpoint U) : List Str :=
  if e.zones ≠ [] ∧ e.isAllIpv4 = false then ["ip",keyword,setText (e.zones.map Zone.text)] else []

/-- The ports for each protocol: none of them is written without a protocol. -/
def portArgsFor (keyword : Str) (e : Endpoint U) : List Protocol → Except Exc (List Str)
  | [] => .ok []
  | p :: protos =>
    if p = .icmp then .error portsNeedTransport
    else do return p.text :: keyword :: setText e.portTexts :: (← portArgsFor keyword e protos)

def portArgs (keyword : Str) (protos : List Protocol) (e : Endpoint U) : Except Exc (List Str) := do
  let ports ← e.checkedPorts
  let ranges ← e.checkedRanges
  if ports = [] ∧ ranges = [] then return [] else e.portArgsFor keyword protos

end Endpoint

def NetFlow.nftArgs (f : NetFlow U) : Except Exc (List Str) := do
  let protos ← f.protocols
  if protos.length > 1 then throw manyProtocols
  let sports ← f.src.portArgs "sport" protos
  let dports ← f.dest.portArgs "dport" protos
  return protocolArgs protos ++ f.src.interfaceArgs "iif" ++ f.dest.interfaceArgs "oif" ++
    f.src.addressArgs "saddr" ++ f.dest.addressArgs "daddr" ++ sports ++ dports

structure Packet where
  iif : Option Str
  oif : Option Str
  saddr : Ipv4Addr
  daddr : Ipv4Addr
  protocol : UInt8
  ports : Option (UInt16 × UInt16)

def protocolNumber : Protocol → UInt8
  | .icmp => 1
  | .tcp => 6
  | .udp => 17

namespace Endpoint

def CarriesInterface (e : Endpoint U) (i : Option Str) : Prop := ∀ j, e.iface = some j → i = some j.text
def CarriesAddress (e : Endpoint U) (x : Ipv4Addr) : Prop := e.zones = [] ∨ ∃ z ∈ e.zones, z.Denotes (.address x)
def CarriesPort (e : Endpoint U) (p : Option UInt16) : Prop := e.NamesPorts → ∃ k, p = some k ∧ k.toNat ∈ e.portsMap

end Endpoint

structure NetFlow.Carries (f : NetFlow U) (pkt : Packet) : Prop where
  protocol : ∀ protos, f.protocols = .ok protos → protos ≠ [] → ∃ p ∈ protos, protocolNumber p = pkt.protocol
  iif : f.src.CarriesInterface pkt.iif
  oif : f.dest.CarriesInterface pkt.oif
  saddr : f.src.CarriesAddress pkt.saddr
  daddr : f.dest.CarriesAddress pkt.daddr
  sport : f.src.CarriesPort (pkt.ports.map Prod.fst)
  dport : f.dest.CarriesPort (pkt.ports.map Prod.snd)

/-- How nft reads an address, a port or a range in a set, and the sets that it accepts. -/
structure Nft where
  address : Str → Option (Ipv4Addr → Bool)
  port : Str → Option (UInt16 → Bool)
  accepts : Str → Bool

namespace Nft

/-- The documented meaning; nft reads decimal numbers without a leading zero. -/
structure Lawful (N : Nft) : Prop where
  star : N.address ['*'] = none
  address : ∀ x : Ipv4Addr, ∃ m, N.address x.text = some m ∧ ∀ y, m y = true ↔ y = x
  network : ∀ n : Ipv4Network, ∃ m, N.address n.text = some m ∧ ∀ y, m y = true ↔ n.Mem y
  port : ∀ p : Port, ∃ m, N.port (Nat.toDigits 10 p.val) = some m ∧ ∀ k, m k = true ↔ k.toNat = p.val
  range : ∀ p q : Port, p.val < q.val → ∃ m, N.port (Nat.toDigits 10 p.val ++ '-' :: Nat.toDigits 10 q.val) = some m ∧
    ∀ k, m k = true ↔ p.val ≤ k.toNat ∧ k.toNat ≤ q.val

def items (s : Str) : List Str := (s.tail.dropLast).splitOn ','

def readSet {α : Type} (N : Nft) (read : Str → Option (α → Bool)) (s : Str) : Option (α → Bool) :=
  if N.accepts s && (items s).all (fun i => (read i).isSome) then
    some fun x => (items s).any fun i => (read i).any (· x)
  else none

def readProtocolNumber (s : Str) : Option UInt8 := (readProtocol s).map protocolNumber

def expression (N : Nft) (a b c : Str) : Option (Packet → Bool) :=
  if a = "ip" then
    if b = "protocol" then (readProtocolNumber c).map fun n pkt => pkt.protocol == n
    else if b = "saddr" then (N.readSet N.address c).map fun m pkt => m pkt.saddr
    else if b = "daddr" then (N.readSet N.address c).map fun m pkt => m pkt.daddr
    else none
  else if a = "meta" then
    if b = "iif" then some fun pkt => decide (pkt.iif = some c)
    else if b = "oif" then some fun pkt => decide (pkt.oif = some c)
    else none
  else
    -- a test on ports also tests the protocol
    match readProtocolNumber a with
    | none => none
    | some n =>
      if b = "sport" then (N.readSet N.port c).map fun m pkt => pkt.protocol == n && pkt.ports.any fun p => m p.1
      else if b = "dport" then (N.readSet N.port c).map fun m pkt => pkt.protocol == n && pkt.ports.any fun p => m p.2
      else none

/-- Whether a packet satisfies the expressions; nothing satisfies an expression that nft refuses. -/
def satisfies (N : Nft) (pkt : Packet) : List Str → Bool
  | [] => true
  | a :: b :: c :: rest => (N.expression a b c).any (· pkt) && N.satisfies pkt rest
  | _ => false

theorem satisfies_append (N : Nft) (pkt : Packet) {xs : List Str} (h : 3 ∣ xs.length) (ys : List Str) :
    N.satisfies pkt (xs ++ ys) = (N.satisfies pkt xs && N.satisfies pkt ys) := by
  match xs, h with
  | [], _ => rfl
  | [_], h => exact absurd (Nat.le_of_dvd Nat.one_pos h) (by decide)
  | [_,_], h => exact absurd (Nat.le_of_dvd Nat.two_pos h) (by decide)
  | a :: b :: c :: xs, h =>
    have hrest : 3 ∣ xs.length := (Nat.dvd_add_left (Nat.dvd_refl 3)).1 h
    simp only [cons_append,satisfies,satisfies_append N pkt hrest ys,Bool.and_assoc]

theorem items_setText {l : List Str} (hl : l ≠ []) (hc : ∀ i ∈ l, ',' ∉ i) : items (setText l) = l := by
  rw [items,setText,cons_append,tail_cons,dropLast_concat,splitOn_intercalate ',' hc hl]

theorem readSet_setText {α : Type} {N : Nft} {read : Str → Option (α → Bool)} {l : List Str} (hl : l ≠ [])
    (hc : ∀ i ∈ l, ',' ∉ i) {m : α → Bool} (h : N.readSet read (setText l) = some m) :
    (∀ i ∈ l, ∃ r, read i = some r) ∧ ∀ x, m x = true ↔ ∃ i ∈ l, ∃ r, read i = some r ∧ r x = true := by
  unfold readSet at h
  rw [items_setText hl hc] at h
  split at h
  · rename_i ha
    cases h
    rw [Bool.and_eq_true,all_eq_true] at ha
    refine ⟨fun i hi => Option.isSome_iff_exists.1 (ha.2 i hi),fun x => ?_⟩
    simp only [any_eq_true,Option.any_eq_true]
  · cases h

end Nft

section
variable {N : Nft} {e : Endpoint U} {pkt : Packet}

theorem satisfies_single (a b c : Str) : N.satisfies pkt [a,b,c] = (N.expression a b c).any (· pkt) := Bool.and_true _

variable {keyword : Str} {value : Packet → Ipv4Addr}

theorem satisfies_interfaceArgs {value : Packet → Option Str}
    (he : ∀ c, N.expression "meta" keyword c = some fun pkt => decide (value pkt = some c)) :
    N.satisfies pkt (e.interfaceArgs keyword) = true ↔ e.CarriesInterface (value pkt) := by
  unfold interfaceArgs Endpoint.CarriesInterface
  cases e.iface with
  | none => simp [Nft.satisfies]
  | some i =>
    simp only [satisfies_single,he,Option.any_some,decide_eq_true_eq,Option.some.injEq,forall_eq']

def Endpoint.Ipv4Zones (e : Endpoint U) : Prop := ∀ z ∈ e.zones, z = .all ∨ (∃ x, z = .address x) ∨ ∃ n, z = .network n

theorem comma_not_mem_text {z : Zone U} (h : z = .all ∨ (∃ x, z = .address x) ∨ ∃ n, z = .network n) :
    ',' ∉ z.text := by
  have ha : ∀ x : Ipv4Addr, ',' ∉ x.text := fun x hmem =>
    absurd (Ipv4Addr.chars_of_parse x.parse_text _ hmem) (by decide)
  rcases h with rfl | ⟨x,rfl⟩ | ⟨n,rfl⟩
  · simp [Zone.all]
  · exact ha x
  · intro hmem
    rcases mem_append.1 hmem with hmem | hmem
    · exact ha _ hmem
    · rcases mem_cons.1 hmem with hs | hd
      · cases hs
      · exact absurd (Nat.isDigit_of_mem_toDigits (by decide) (by decide) hd) (by decide)

/-- A set that nft accepts has the addresses of the zones. -/
theorem readSet_zones (hN : N.Lawful) (he : e.Ipv4Zones) (hne : e.zones ≠ []) {m : Ipv4Addr → Bool}
    (h : N.readSet N.address (setText (e.zones.map Zone.text)) = some m) :
    .all ∉ e.zones ∧ ∀ x, m x = true ↔ ∃ z ∈ e.zones, z.Denotes (.address x) := by
  have hc : ∀ i ∈ e.zones.map Zone.text, ',' ∉ i := by
    intro i hi
    obtain ⟨z,hz,rfl⟩ := mem_map.1 hi
    exact comma_not_mem_text (he z hz)
  obtain ⟨hre,hmem⟩ := Nft.readSet_setText (by simpa using hne) hc h
  have ha : .all ∉ e.zones := by
    intro ha
    obtain ⟨r,hr⟩ := hre ['*'] (mem_map.2 ⟨_,ha,rfl⟩)
    rw [hN.star] at hr
    cases hr
  -- each text stands for the addresses of its zone
  have hzone : ∀ z ∈ e.zones, ∀ x, (∃ r, N.address z.text = some r ∧ r x = true) ↔ z.Denotes (.address x) := by
    intro z hz x
    rcases he z hz with rfl | ⟨y,rfl⟩ | ⟨n,rfl⟩
    · exact absurd hz ha
    · obtain ⟨r,hr,hry⟩ := hN.address y
      rw [Zone.denotes_address,← hry]
      exact ⟨fun ⟨_,h,hx⟩ => Option.some.inj (hr.symm.trans h) ▸ hx,fun h => ⟨r,hr,h⟩⟩
    · obtain ⟨r,hr,hrn⟩ := hN.network n
      rw [Zone.denotes_network,← hrn]
      exact ⟨fun ⟨_,h,hx⟩ => Option.some.inj (hr.symm.trans h) ▸ hx,fun h => ⟨r,hr,h⟩⟩
  refine ⟨ha,fun x => ?_⟩
  rw [hmem]
  constructor
  · rintro ⟨i,hi,hr⟩
    obtain ⟨z,hz,rfl⟩ := mem_map.1 hi
    exact ⟨z,hz,(hzone z hz x).1 hr⟩
  · rintro ⟨z,hz,hx⟩
    exact ⟨z.text,mem_map_of_mem hz,(hzone z hz x).2 hx⟩

theorem Endpoint.carriesInterface_own (e : Endpoint U) : e.CarriesInterface (e.iface.map Iface.text) :=
  fun j hj => by rw [hj]; rfl

theorem carriesAddress_of_satisfies (hN : N.Lawful) (he : e.Ipv4Zones)
    (hex : ∀ c, N.expression "ip" keyword c = (N.readSet N.address c).map fun m pkt => m (value pkt))
    (h : N.satisfies pkt (e.addressArgs keyword) = true) : e.CarriesAddress (value pkt) := by
  unfold addressArgs at h
  split at h
  · rename_i hzones
    rw [satisfies_single,hex,Option.any_map,Option.any_eq_true] at h
    obtain ⟨m,hm,hx⟩ := h
    exact .inr (((readSet_zones hN he hzones.1 hm).2 _).1 hx)
  · rename_i hzones
    by_cases hnone : e.zones = []
    · exact .inl hnone
    · have ha : e.zones = [.all] := by
        by_contra ha
        exact hzones ⟨hnone,decide_eq_false ha⟩
      exact .inr ⟨.all,by simp [ha],.inl rfl⟩

def Endpoint.Accepted (N : Nft) (e : Endpoint U) : Prop :=
  e.zones ≠ [] → e.isAllIpv4 = false → (N.readSet N.address (setText (e.zones.map Zone.text))).isSome = true

theorem accepted_of_satisfies
    (he : ∀ c, N.expression "ip" keyword c = (N.readSet N.address c).map fun m pkt => m (value pkt))
    (h : N.satisfies pkt (e.addressArgs keyword) = true) : e.Accepted N := by
  intro hne ha
  rw [addressArgs,if_pos ⟨hne,ha⟩,satisfies_single,he,Option.any_map,Option.any_eq_true] at h
  obtain ⟨m,hm,_⟩ := h
  rw [hm]
  rfl

theorem exists_address (hN : N.Lawful) (he : e.Ipv4Zones) (ha : e.Accepted N)
    (hex : ∀ c, N.expression "ip" keyword c = (N.readSet N.address c).map fun m pkt => m (value pkt)) :
    ∃ x, ∀ pkt, value pkt = x → N.satisfies pkt (e.addressArgs keyword) = true := by
  unfold addressArgs
  split
  · rename_i hzones
    obtain ⟨m,hm⟩ := Option.isSome_iff_exists.1 (ha hzones.1 hzones.2)
    obtain ⟨hal,hmem⟩ := readSet_zones hN he hzones.1 hm
    obtain ⟨z,hz⟩ := exists_mem_of_ne_nil _ hzones.1
    have hx : ∃ x, z.Denotes (.address x) := by
      rcases he z hz with rfl | ⟨x,rfl⟩ | ⟨n,rfl⟩
      · exact absurd hz hal
      · exact ⟨x,Zone.denotes_address.2 rfl⟩
      · exact ⟨n.addr,Zone.denotes_network.2 rfl⟩
    obtain ⟨x,hx⟩ := hx
    refine ⟨x,fun pkt hp => ?_⟩
    rw [satisfies_single,hex,hm,Option.map_some,Option.any_some]
    exact (hmem _).2 ⟨z,hz,hp ▸ hx⟩
  · exact ⟨⟨0,0,0,0⟩,fun _ _ => rfl⟩

def PortRange.Canonical (r : PortRange U) : Prop :=
  r.text = Nat.toDigits 10 r.first.val ++ '-' :: Nat.toDigits 10 r.last.val

theorem comma_not_mem_digits (n : ℕ) : ',' ∉ Nat.toDigits 10 n := fun h =>
  absurd (Nat.isDigit_of_mem_toDigits (by decide) (by decide) h) (by decide)

def Endpoint.PortsAccepted (N : Nft) (e : Endpoint U) : Prop :=
  e.NamesPorts → ∃ m k, N.readSet N.port (setText e.portTexts) = some m ∧ m k = true

theorem Endpoint.PortsAccepted.exists_port (h : e.PortsAccepted N) :
    ∃ m k, e.NamesPorts → N.readSet N.port (setText e.portTexts) = some m ∧ m k = true := by
  by_cases hn : e.NamesPorts
  · obtain ⟨m,k,hm⟩ := h hn
    exact ⟨m,k,fun _ => hm⟩
  · exact ⟨fun _ => false,0,fun h => absurd h hn⟩

def Endpoint.ReadsPorts (N : Nft) (e : Endpoint U) : Prop :=
  e.NamesPorts → ∀ m k, N.readSet N.port (setText e.portTexts) = some m → m k = true → k.toNat ∈ e.portsMap

/-- Ranges that are written canonically are read as what they are. -/
theorem readsPorts_of_canonical (hN : N.Lawful) (he : ∀ r ∈ e.portRanges, r.Canonical) : e.ReadsPorts N := by
  intro hn m k h hk
  have hne : e.portTexts ≠ [] := by simpa [portTexts,Endpoint.NamesPorts,or_iff_not_imp_left] using hn
  have hc : ∀ i ∈ e.portTexts, ',' ∉ i := by
    intro i hi
    rcases mem_append.1 hi with hi | hi
    · obtain ⟨p,_,rfl⟩ := mem_map.1 hi
      exact comma_not_mem_digits _
    · obtain ⟨r,hr,rfl⟩ := mem_map.1 hi
      rw [he r hr]
      simp [comma_not_mem_digits]
  obtain ⟨i,hi,t,ht,htk⟩ := ((Nft.readSet_setText hne hc h).2 k).1 hk
  rw [mem_portsMap_of_names hn]
  rcases mem_append.1 hi with hi | hi
  · obtain ⟨p,hp,rfl⟩ := mem_map.1 hi
    obtain ⟨t',ht',hpo⟩ := hN.port p
    rw [ht] at ht'
    cases ht'
    exact .inl ⟨p,hp,((hpo k).1 htk).symm⟩
  · obtain ⟨r,hr,rfl⟩ := mem_map.1 hi
    obtain ⟨t',ht',hra⟩ := hN.range r.first r.last r.lt
    rw [he r hr] at ht
    rw [ht] at ht'
    cases ht'
    exact .inr ⟨r,hr,(hra k).1 htk⟩

theorem portArgs_cases {p : Protocol} {args : List Str} (h : e.portArgs keyword [p] = .ok args) :
    (¬ e.NamesPorts ∧ args = []) ∨ (e.NamesPorts ∧ p ≠ .icmp ∧ args = [p.text,keyword,setText e.portTexts]) := by
  obtain ⟨ports,hpo,h⟩ := bind_eq_ok.1 h
  obtain ⟨ranges,hr,h⟩ := bind_eq_ok.1 h
  have hp : ports = e.ports := by
    unfold checkedPorts at hpo
    split at hpo <;> cases hpo
    rfl
  rw [e.checkedRanges_eq] at hr
  cases hr
  subst hp
  split at h
  · rename_i hnone
    cases h
    exact .inl ⟨by simp [Endpoint.NamesPorts,hnone],rfl⟩
  · rename_i hn
    unfold portArgsFor at h
    split at h
    · cases h
    · rename_i hp
      cases h
      exact .inr ⟨not_and_or.1 hn,hp,rfl⟩

theorem portArgs_nil (he : e.protocols = []) :
    e.portArgs keyword [] = if e.ports = [] then .ok [] else .error portsWithoutProtocol := by
  unfold portArgs checkedPorts
  by_cases hp : e.ports = []
  · simp [hp,e.checkedRanges_eq,bind,Except.bind,pure,Except.pure,portArgsFor]
  · simp [hp,he,bind,Except.bind]

section
variable {value : UInt16 × UInt16 → UInt16} {p : Protocol} {args : List Str}
  (hex : p ≠ .icmp → ∀ c, N.expression p.text keyword c = (N.readSet N.port c).map fun m pkt =>
    pkt.protocol == protocolNumber p && pkt.ports.any fun q => m (value q))
  (ha : e.portArgs keyword [p] = .ok args)
include hex ha

theorem satisfies_portArgs {q : UInt16 × UInt16} (hp : pkt.protocol = protocolNumber p) (hq : pkt.ports = some q)
    {m : UInt16 → Bool} (hm : e.NamesPorts → N.readSet N.port (setText e.portTexts) = some m ∧ m (value q) = true) :
    N.satisfies pkt args = true := by
  rcases portArgs_cases ha with ⟨_,rfl⟩ | ⟨hn,hi,rfl⟩
  · rfl
  · obtain ⟨hr,hv⟩ := hm hn
    rw [satisfies_single,hex hi,hr,Option.map_some,Option.any_some]
    simp [hp,hq,hv]

theorem read_of_satisfies (h : N.satisfies pkt args = true) (hn : e.NamesPorts) :
    ∃ m q, N.readSet N.port (setText e.portTexts) = some m ∧ pkt.ports = some q ∧ m (value q) = true := by
  rcases portArgs_cases ha with ⟨hnone,_⟩ | ⟨_,hp,rfl⟩
  · exact absurd hn hnone
  · rw [satisfies_single,hex hp,Option.any_map,Option.any_eq_true] at h
    obtain ⟨m,hm,hpk⟩ := h
    obtain ⟨q,hq,hmq⟩ := (Option.any_eq_true _ _).1 (Bool.and_eq_true_iff.1 hpk).2
    exact ⟨m,q,hm,hq,hmq⟩

theorem portsAccepted_of_satisfies (h : N.satisfies pkt args = true) : e.PortsAccepted N := by
  intro hn
  obtain ⟨m,q,hm,_,hmq⟩ := read_of_satisfies hex ha h hn
  exact ⟨m,value q,hm,hmq⟩

theorem carriesPort_of_satisfies (hr : e.ReadsPorts N) (h : N.satisfies pkt args = true) :
    e.CarriesPort (pkt.ports.map value) := by
  intro hn
  obtain ⟨m,q,hm,hq,hmq⟩ := read_of_satisfies hex ha h hn
  rw [hq]
  exact ⟨value q,rfl,hr hn m (value q) hm hmq⟩

end

theorem dvd_length_protocolArgs (protos : List Protocol) : 3 ∣ (protocolArgs protos).length := by
  cases protos with
  | nil => exact dvd_zero 3
  | cons => exact dvd_refl 3

theorem dvd_length_interfaceArgs (keyword : Str) (e : Endpoint U) : 3 ∣ (e.interfaceArgs keyword).length := by
  unfold interfaceArgs
  split
  · exact dvd_zero 3
  · exact dvd_refl 3

theorem dvd_length_addressArgs (keyword : Str) (e : Endpoint U) : 3 ∣ (e.addressArgs keyword).length := by
  unfold addressArgs
  split
  · exact dvd_refl 3
  · exact dvd_zero 3

theorem dvd_length_portArgs {protos args : List _} (h : e.portArgs keyword protos = .ok args) :
    3 ∣ args.length := by
  have hf : ∀ {protos args}, e.portArgsFor keyword protos = .ok args → 3 ∣ args.length := by
    intro protos
    induction protos with
    | nil =>
      intro args h
      cases h
      exact dvd_zero 3
    | cons p protos ih =>
      intro args h
      unfold portArgsFor at h
      split at h
      · cases h
      · obtain ⟨rest,hrest,h⟩ := bind_eq_ok.1 h
        cases h
        exact Nat.dvd_add_self_right.2 (ih hrest)
  obtain ⟨_,_,h⟩ := bind_eq_ok.1 h
  obtain ⟨_,_,h⟩ := bind_eq_ok.1 h
  split at h
  · cases h
    exact dvd_zero 3
  · exact hf h

end

namespace NetFlow
variable {f : NetFlow U}

theorem nftArgs_cases {args : List Str} (h : f.nftArgs = .ok args) :
    ∃ protos sports dports, f.protocols = .ok protos ∧ protos.length ≤ 1 ∧
      f.src.portArgs "sport" protos = .ok sports ∧ f.dest.portArgs "dport" protos = .ok dports ∧
      args = protocolArgs protos ++ f.src.interfaceArgs "iif" ++ f.dest.interfaceArgs "oif" ++
        f.src.addressArgs "saddr" ++ f.dest.addressArgs "daddr" ++ sports ++ dports := by
  obtain ⟨protos,hp,h⟩ := bind_eq_ok.1 h
  split at h
  · cases h
  · rename_i hl
    obtain ⟨sports,hs,h⟩ := bind_eq_ok.1 h
    obtain ⟨dports,hd,h⟩ := bind_eq_ok.1 h
    cases h
    exact ⟨protos,sports,dports,hp,by omega,hs,hd,rfl⟩

theorem protocols_nil (h : f.protocols = .ok []) : f.src.protocols = [] ∧ f.dest.protocols = [] := by
  obtain ⟨_,_,h⟩ := bind_eq_ok.1 h
  have heq : (if f.src.protocols ≠ [] then f.src.protocols else f.dest.protocols) = [] := Except.ok.inj h
  by_cases hs : f.src.protocols = []
  · rw [if_neg (not_not.2 hs)] at heq
    exact ⟨hs,heq⟩
  · rw [if_pos hs] at heq
    exact absurd heq hs

/-- The expressions of a flow are satisfied when each group of them is. -/
theorem satisfies_nftArgs {N : Nft} {pkt : Packet} {protos : List Protocol} {sports dports : List Str}
    (hs : f.src.portArgs "sport" protos = .ok sports) :
    N.satisfies pkt (protocolArgs protos ++ f.src.interfaceArgs "iif" ++ f.dest.interfaceArgs "oif" ++
        f.src.addressArgs "saddr" ++ f.dest.addressArgs "daddr" ++ sports ++ dports) = true ↔
      N.satisfies pkt (protocolArgs protos) = true ∧ f.src.CarriesInterface pkt.iif ∧ f.dest.CarriesInterface pkt.oif ∧
        N.satisfies pkt (f.src.addressArgs "saddr") = true ∧ N.satisfies pkt (f.dest.addressArgs "daddr") = true ∧
        N.satisfies pkt sports = true ∧ N.satisfies pkt dports = true := by
  have ha : ∀ {xs ys : List Str}, 3 ∣ xs.length → 3 ∣ ys.length → 3 ∣ (xs ++ ys).length := by
    intro xs ys hx hy
    rw [length_append]
    exact Nat.dvd_add hx hy
  have h2 := ha (dvd_length_protocolArgs protos) (dvd_length_interfaceArgs "iif" f.src)
  have h3 := ha h2 (dvd_length_interfaceArgs "oif" f.dest)
  have h4 := ha h3 (dvd_length_addressArgs "saddr" f.src)
  have h5 := ha h4 (dvd_length_addressArgs "daddr" f.dest)
  have h6 := ha h5 (dvd_length_portArgs hs)
  have hi : N.satisfies pkt (f.src.interfaceArgs "iif") = true ↔ f.src.CarriesInterface pkt.iif :=
    satisfies_interfaceArgs fun _ => rfl
  have ho : N.satisfies pkt (f.dest.interfaceArgs "oif") = true ↔ f.dest.CarriesInterface pkt.oif :=
    satisfies_interfaceArgs fun _ => rfl
  rw [N.satisfies_append pkt h6,N.satisfies_append pkt h5,N.satisfies_append pkt h4,N.satisfies_append pkt h3,
    N.satisfies_append pkt h2,N.satisfies_append pkt (dvd_length_protocolArgs protos)]
  simp only [Bool.and_eq_true,hi,ho,and_assoc]

/-- A port restriction is not dropped: without a protocol, a flow that nft accepts has no range of ports. -/
def KeepsPorts (N : Nft) (f : NetFlow U) : Prop :=
  f.protocols = .ok [] → f.src.ports = [] → f.dest.ports = [] → f.src.Accepted N → f.dest.Accepted N →
    f.src.portRanges = [] ∧ f.dest.portRanges = []

/-- With a protocol, nft reads no other ports in the texts that it is given. -/
def KeepsRanges (N : Nft) (f : NetFlow U) : Prop :=
  ∀ p args, f.protocols = .ok [p] → f.nftArgs = .ok args → f.src.Accepted N → f.dest.Accepted N →
    f.src.PortsAccepted N → f.dest.PortsAccepted N → f.src.ReadsPorts N ∧ f.dest.ReadsPorts N

theorem expression_protocol (N : Nft) (p : Protocol) :
    N.expression "ip" "protocol" p.text = some fun pkt => pkt.protocol == protocolNumber p := by
  cases p <;> rfl

theorem satisfies_protocolArgs {N : Nft} {pkt : Packet} {p : Protocol} :
    N.satisfies pkt (protocolArgs [p]) = true ↔ pkt.protocol = protocolNumber p := by
  rw [protocolArgs,satisfies_single,expression_protocol,Option.any_some,beq_iff_eq]

theorem expression_sport (N : Nft) {p : Protocol} (hp : p ≠ .icmp) (c : Str) : N.expression p.text "sport" c =
    (N.readSet N.port c).map fun m pkt => pkt.protocol == protocolNumber p && pkt.ports.any fun q => m q.1 := by
  cases p with
  | icmp => exact absurd rfl hp
  | tcp => rfl
  | udp => rfl

theorem expression_dport (N : Nft) {p : Protocol} (hp : p ≠ .icmp) (c : Str) : N.expression p.text "dport" c =
    (N.readSet N.port c).map fun m pkt => pkt.protocol == protocolNumber p && pkt.ports.any fun q => m q.2 := by
  cases p with
  | icmp => exact absurd rfl hp
  | tcp => rfl
  | udp => rfl

/-- A rule of the flow is satisfied by its packets only. -/
def Sound (N : Nft) (f : NetFlow U) : Prop :=
  ∀ args, f.nftArgs = .ok args → ∀ pkt, N.satisfies pkt args = true → f.Carries pkt

section
variable {N : Nft} (hN : N.Lawful) (hsrc : f.src.Ipv4Zones) (hdest : f.dest.Ipv4Zones)
include hN hsrc hdest

/-- Addresses for which a packet satisfies all but the tests on ports. -/
theorem exists_addresses (hsa : f.src.Accepted N) (hda : f.dest.Accepted N) : ∃ x y, ∀ pkt : Packet,
    pkt.saddr = x → pkt.daddr = y → N.satisfies pkt (f.src.addressArgs "saddr") = true ∧
      N.satisfies pkt (f.dest.addressArgs "daddr") = true := by
  obtain ⟨x,hx⟩ : ∃ x, ∀ pkt : Packet, pkt.saddr = x → N.satisfies pkt (f.src.addressArgs "saddr") = true :=
    exists_address hN hsrc hsa fun _ => rfl
  obtain ⟨y,hy⟩ : ∃ y, ∀ pkt : Packet, pkt.daddr = y → N.satisfies pkt (f.dest.addressArgs "daddr") = true :=
    exists_address hN hdest hda fun _ => rfl
  exact ⟨x,y,fun pkt hs hd => ⟨hx pkt hs,hy pkt hd⟩⟩

theorem keepsPorts_of_sound (h : f.Sound N) : f.KeepsPorts N := by
  intro hpr hsp hdp hsa hda
  obtain ⟨hsn,hdn⟩ := protocols_nil hpr
  have hs : f.src.portArgs "sport" [] = .ok [] := by rw [portArgs_nil hsn,if_pos hsp]
  have hd : f.dest.portArgs "dport" [] = .ok [] := by rw [portArgs_nil hdn,if_pos hdp]
  obtain ⟨args,ha⟩ : ∃ args, f.nftArgs = .ok args :=
    ⟨_,bind_eq_ok.2 ⟨[],hpr,bind_eq_ok.2 ⟨[],hs,bind_eq_ok.2 ⟨[],hd,rfl⟩⟩⟩⟩
  -- a packet without ports that satisfies everything else
  obtain ⟨x,y,hxy⟩ := exists_addresses hN hsrc hdest hsa hda
  have hpk := h args ha ⟨f.src.iface.map Iface.text,f.dest.iface.map Iface.text,x,y,1,none⟩
  obtain ⟨protos,sports,dports,hp',_,hs',hd',rfl⟩ := nftArgs_cases ha
  rw [hpr] at hp'
  cases hp'
  rw [hs] at hs'
  rw [hd] at hd'
  cases hs'
  cases hd'
  rw [satisfies_nftArgs hs] at hpk
  have hc := hpk ⟨rfl,f.src.carriesInterface_own,f.dest.carriesInterface_own,(hxy _ rfl rfl).1,
    (hxy _ rfl rfl).2,rfl,rfl⟩
  have hnone : ∀ e : Endpoint U, e.CarriesPort none → e.portRanges = [] := by
    intro e he
    by_contra hr
    obtain ⟨k,hk,_⟩ := he (.inr hr)
    cases hk
  exact ⟨hnone _ hc.sport,hnone _ hc.dport⟩

theorem keepsRanges_of_sound (h : f.Sound N) : f.KeepsRanges N := by
  intro p args hpr ha hsa hda hsp hdp
  obtain ⟨x,y,hxy⟩ := exists_addresses hN hsrc hdest hsa hda
  -- a packet from any port that nft reads on one side to any that it reads on the other
  have hpk : ∀ ms md ks kd, (f.src.NamesPorts → N.readSet N.port (setText f.src.portTexts) = some ms ∧ ms ks = true) →
      (f.dest.NamesPorts → N.readSet N.port (setText f.dest.portTexts) = some md ∧ md kd = true) →
      f.src.CarriesPort (some ks) ∧ f.dest.CarriesPort (some kd) := by
    intro ms md ks kd hms hmd
    have hc := h args ha ⟨f.src.iface.map Iface.text,f.dest.iface.map Iface.text,x,y,protocolNumber p,some (ks,kd)⟩
    obtain ⟨protos,sports,dports,hp',_,hs,hd,rfl⟩ := nftArgs_cases ha
    rw [hpr] at hp'
    cases hp'
    rw [satisfies_nftArgs hs] at hc
    have hc := hc ⟨satisfies_protocolArgs.2 rfl,f.src.carriesInterface_own,f.dest.carriesInterface_own,
      (hxy _ rfl rfl).1,(hxy _ rfl rfl).2,
      satisfies_portArgs (expression_sport N) hs rfl rfl hms,satisfies_portArgs (expression_dport N) hd rfl rfl hmd⟩
    exact ⟨hc.sport,hc.dport⟩
  obtain ⟨ms,ks,hms⟩ := hsp.exists_port
  obtain ⟨md,kd,hmd⟩ := hdp.exists_port
  refine ⟨fun hn m k hm hk => ?_,fun hn m k hm hk => ?_⟩
  · obtain ⟨k',hk',hmem⟩ := (hpk m md k kd (fun _ => ⟨hm,hk⟩) hmd).1 hn
    rwa [Option.some.inj hk']
  · obtain ⟨k',hk',hmem⟩ := (hpk ms m ks k hms fun _ => ⟨hm,hk⟩).2 hn
    rwa [Option.some.inj hk']

/-- What satisfies a rule has a protocol and ports that the flow names. -/
theorem carries_of_keeps (hk : f.KeepsPorts N) (hr : f.KeepsRanges N) : f.Sound N := by
  intro args ha pkt hpk
  obtain ⟨protos,sports,dports,hpr,hl,hs,hd,rfl⟩ := nftArgs_cases ha
  obtain ⟨hp,hi,ho,hsd,hdd,hspo,hdpo⟩ := (satisfies_nftArgs hs).1 hpk
  have hse : ∀ c, N.expression "ip" "saddr" c = (N.readSet N.address c).map fun m pkt => m pkt.saddr := fun _ => rfl
  have hde : ∀ c, N.expression "ip" "daddr" c = (N.readSet N.address c).map fun m pkt => m pkt.daddr := fun _ => rfl
  have hc : f.src.CarriesAddress pkt.saddr := carriesAddress_of_satisfies hN hsrc hse hsd
  have hc' : f.dest.CarriesAddress pkt.daddr := carriesAddress_of_satisfies hN hdest hde hdd
  have hsa : f.src.Accepted N := accepted_of_satisfies hse hsd
  have hda : f.dest.Accepted N := accepted_of_satisfies hde hdd
  rcases protos with _ | ⟨p,_ | ⟨q,rest⟩⟩
  · obtain ⟨hsn,hdn⟩ := protocols_nil hpr
    rw [portArgs_nil hsn] at hs
    rw [portArgs_nil hdn] at hd
    split at hs
    · rename_i hsp
      split at hd
      · rename_i hdp
        obtain ⟨hsr,hdr⟩ := hk hpr hsp hdp hsa hda
        refine ⟨fun protos hp' hne => ?_,hi,ho,hc,hc',fun hn => ?_,fun hn => ?_⟩
        · rw [hpr] at hp'
          cases hp'
          exact absurd rfl hne
        · exact absurd hsr (hn.resolve_left (· hsp))
        · exact absurd hdr (hn.resolve_left (· hdp))
      · cases hd
    · cases hs
  · obtain ⟨hsr,hdr⟩ := hr p _ hpr ha hsa hda (portsAccepted_of_satisfies (expression_sport N) hs hspo)
      (portsAccepted_of_satisfies (expression_dport N) hd hdpo)
    refine ⟨fun protos hp' _ => ?_,hi,ho,hc,hc',?_,?_⟩
    · rw [hpr] at hp'
      cases hp'
      exact ⟨p,mem_singleton_self p,(satisfies_protocolArgs.1 hp).symm⟩
    · exact carriesPort_of_satisfies (expression_sport N) hs hsr hspo
    · exact carriesPort_of_satisfies (expression_dport N) hd hdr hdpo
  · simp at hl

end

/-- A rule matches packets of its flow only, just if no port restriction is dropped and nft reads no
other ports in its ranges, which it does not if they are two decimal numbers. -/
theorem nftArgs_sound_iff {N : Nft} (hN : N.Lawful) (hsrc : f.src.Ipv4Zones) (hdest : f.dest.Ipv4Zones) :
    (f.Sound N ↔ f.KeepsPorts N ∧ f.KeepsRanges N) ∧
      ((∀ r ∈ f.src.portRanges ++ f.dest.portRanges, r.Canonical) → f.KeepsRanges N) := by
  refine ⟨⟨fun h => ?_,fun h => carries_of_keeps hN hsrc hdest h.1 h.2⟩,fun h p args _ _ _ _ _ _ => ?_⟩
  · exact ⟨keepsPorts_of_sound hN hsrc hdest h,keepsRanges_of_sound hN hsrc hdest h⟩
  · obtain ⟨hs,hd⟩ := forall_mem_append.1 h
    exact ⟨readsPorts_of_canonical hN hs,readsPorts_of_canonical hN hd⟩

end NetFlow

def Nft.reference : Nft where
  address s :=
    match Ipv4Addr.parse s with
    | some x => some fun y => decide (y = x)
    | none => (interface s).map fun n y => decide (n.Mem y)
  port s :=
    match PortSpec.fromStr s with
    | .ok spec => some spec.contains
    | .error _ => none
  accepts _ := true

theorem interface_text (n : Ipv4Network) : interface n.text = some n := by
  rw [interface,n.splitOn_text]
  simp only [Ipv4Addr.parse_text,Option.bind_some,networkOf_toDigits]

theorem Port.toNat_ofNat (p : Port) : (ofNat p.val).toNat = p.val := by
  have hp := p.valid
  simp only [ValidPort] at hp
  rw [toNat_ofNat', Nat.mod_eq_of_lt (by omega)]

theorem Nft.lawful_reference : Nft.reference.Lawful where
  star := by decide
  address x := by
    refine ⟨fun y => decide (y = x),?_,fun y => decide_eq_true_iff⟩
    simp only [reference,Ipv4Addr.parse_text]
  network n := by
    refine ⟨fun y => decide (n.Mem y),?_,fun y => decide_eq_true_iff⟩
    simp only [reference,parse_networkText,interface_text,Option.map_some]
  port p := by
    have ht : Nat.toDigits 10 p.val = (PortSpec.port (ofNat p.val)).text := by
      rw [PortSpec.text,portText,p.toNat_ofNat]
    refine ⟨(PortSpec.port (ofNat p.val)).contains,?_,fun k => ?_⟩
    · simp only [reference,ht,PortSpec.fromStr_text]
    · rw [PortSpec.contains,beq_iff_eq,← UInt16.toNat_inj,p.toNat_ofNat,eq_comm]
  range p q hlt := by
    have hp := p.valid
    simp only [ValidPort] at hp
    have hpo : 0 < ofNat p.val := by
      rw [lt_iff_toNat_lt,p.toNat_ofNat]
      exact Nat.lt_of_lt_of_le Nat.one_pos (by omega)
    have hl : ofNat p.val < ofNat q.val := by
      rwa [lt_iff_toNat_lt, p.toNat_ofNat, q.toNat_ofNat]
    have ht : Nat.toDigits 10 p.val ++ '-' :: Nat.toDigits 10 q.val =
        (PortSpec.range (ofNat p.val) (ofNat q.val) hpo hl).text := by
      rw [PortSpec.text,portText,portText,p.toNat_ofNat,q.toNat_ofNat]
    refine ⟨(PortSpec.range (ofNat p.val) (ofNat q.val) hpo hl).contains,?_,fun k => ?_⟩
    · simp only [reference,ht,PortSpec.fromStr_text]
    · simp only [PortSpec.contains,Bool.and_eq_true,decide_eq_true_eq,le_iff_toNat_le,p.toNat_ofNat,q.toNat_ofNat]

def range8090 : PortRange .ascii := ⟨"80-90",⟨80,by decide⟩,⟨90,by decide⟩,by decide +kernel,by decide⟩
def tcpRangeFlow : NetFlow .ascii :=
  ⟨⟨[.all],none,[.tcp],[],[],everywhereWeb.located⟩,
    ⟨[.address ⟨10,0,0,1⟩],none,[.tcp],[],[range8090],oneHostWeb.located⟩⟩

theorem tcpRangeFlow_sound :
    NetFlow.fromRepr .ascii "*>tcp>10.0.0.1^80-90" = .ok tcpRangeFlow ∧
      tcpRangeFlow.nftArgs =
        .ok ["ip","protocol","tcp","ip","daddr","\x7b10.0.0.1\x7d","tcp","dport","\x7b80-90\x7d"] ∧
      tcpRangeFlow.Sound Nft.reference := by
  obtain ⟨hiff,hcan⟩ := NetFlow.nftArgs_sound_iff (f := tcpRangeFlow) Nft.lawful_reference
    (fun z hz => .inl (mem_singleton.1 hz)) (fun z hz => .inr (.inl ⟨_,mem_singleton.1 hz⟩))
  refine ⟨by decide +kernel,by decide +kernel,hiff.2 ⟨fun hp => ?_,hcan fun r hr => ?_⟩⟩
  · exact absurd hp (by decide +kernel)
  · rw [mem_singleton.1 hr]
    exact (by decide +kernel : "80-90" = Nat.toDigits 10 80 ++ '-' :: Nat.toDigits 10 90)

def rangeFlow : NetFlow .ascii :=
  ⟨⟨[.all],none,[],[],[],everywhereWeb.located⟩,⟨[.address ⟨10,0,0,1⟩],none,[],[],[range8090],oneHostWeb.located⟩⟩
def sshPacket : Packet := ⟨none,none,⟨10,0,0,2⟩,⟨10,0,0,1⟩,6,some (40000,22)⟩

/-- The ports are dropped from the rule. -/
theorem range_without_protocol_is_dropped :
    NetFlow.fromRepr .ascii "*>>10.0.0.1^80-90" = .ok rangeFlow ∧
      rangeFlow.nftArgs = .ok ["ip","daddr","\x7b10.0.0.1\x7d"] ∧
      Nft.reference.satisfies sshPacket ["ip","daddr","\x7b10.0.0.1\x7d"] = true ∧
      ¬ rangeFlow.Carries sshPacket := by
  refine ⟨by decide +kernel,by decide +kernel,by decide +kernel,fun h => ?_⟩
  obtain ⟨k,hk,hmem⟩ := h.dport (.inr (by simp [rangeFlow]))
  cases hk
  rw [mem_portsMap_of_names (.inr (by simp [rangeFlow]))] at hmem
  revert hmem
  decide

end Padsi.Fw
