import Padsi.Fw.IpAddress

/-! # Networks for the zones and the admin namespaces

The network of the host is cut in networks of four addresses; the last ones are reserved
for the admin namespaces.
-/
namespace Padsi.Config
open Net Fw List Reference

def networkAddress (n : Ipv4Network) : ℕ := n.addr.value / 2 ^ (32 - n.length) * 2 ^ (32 - n.length)
theorem prefix30_le : (30 : ℕ) ≤ 32 := by decide
def subnets (n : Ipv4Network) : List Ipv4Network :=
  (range' (networkAddress n) (2 ^ (30 - n.length)) 4).map fun v => ⟨Reference.ofValue v,30,prefix30_le⟩
def addresses (n : Ipv4Network) : List Ipv4Addr :=
  (range' (networkAddress n) (2 ^ (32 - n.length))).map Reference.ofValue

structure Networks where
  adminSubNetworks : List Ipv4Network
  adminSubNetworkIndex : ℕ
  hostNetworkGenerator : List Ipv4Network

def Networks.new (hostNetwork : Ipv4Network) (adminnsLen : ℕ) : Networks where
  adminSubNetworks :=
    if 0 < adminnsLen then (subnets hostNetwork).drop ((subnets hostNetwork).length - adminnsLen) else []
  adminSubNetworkIndex := 0
  hostNetworkGenerator := subnets hostNetwork

def ask : ℕ → List Ipv4Addr → List (ℕ × Ipv4Addr)
  | _, [] => []
  | time, x :: xs => (time,x) :: ask (time + 1) xs

structure Search where
  net : Option Ipv4Network
  generator : List Ipv4Network
  questions : List (ℕ × Ipv4Addr)

def search (addrExists : ℕ → Ipv4Addr → Bool) (reserved : List Ipv4Network) : ℕ → List Ipv4Network → Search
  | _, [] => ⟨none,[],[]⟩
  | time, net :: generator =>
    if net ∈ reserved then search addrExists reserved time generator
    -- all addresses of the network are asked for, also after one that exists
    else if (ask time (addresses net)).any fun q => addrExists q.1 q.2 then
      let r := search addrExists reserved (time + (addresses net).length) generator
      { r with questions := ask time (addresses net) ++ r.questions }
    else ⟨some net,generator,ask time (addresses net)⟩

inductive Request where
  | low
  | admin
deriving DecidableEq, Repr

structure Allocation where
  request : Request
  net : Ipv4Network
  time : ℕ
  questions : List (ℕ × Ipv4Addr)

variable (addrExists : ℕ → Ipv4Addr → Bool)

def Networks.getUnusedLowNetwork (s : Networks) (time : ℕ) : Networks × Search :=
  let r := search addrExists s.adminSubNetworks time s.hostNetworkGenerator
  ({ s with hostNetworkGenerator := r.generator },r)

def Networks.getUnusedLowAdminNetwork (s : Networks) : Networks × Option Ipv4Network :=
  match s.adminSubNetworks[s.adminSubNetworkIndex]? with
  | none => (s,none)
  | some net => ({ s with adminSubNetworkIndex := s.adminSubNetworkIndex + 1 },some net)

/-- The calls that return, in any interleaving; each question of a call takes some time. -/
def allocations (s : Networks) (time : ℕ) : List Request → List Allocation
  | [] => []
  | .low :: requests =>
    match s.getUnusedLowNetwork addrExists time with
    | (s',r) =>
      (r.net.map fun net => ⟨.low,net,time,r.questions⟩).toList ++
        allocations s' (time + r.questions.length) requests
  | .admin :: requests =>
    match s.getUnusedLowAdminNetwork with
    | (s',net) => (net.map fun net => ⟨.admin,net,time,[]⟩).toList ++ allocations s' time requests

def Separate (n m : Ipv4Network) : Prop := ∀ x, ¬ (n.Mem x ∧ m.Mem x)

section
variable {n m : Ipv4Network}

theorem mem_subnets :
    m ∈ subnets n ↔ ∃ i < 2 ^ (30 - n.length), m = ⟨ofValue (networkAddress n + 4 * i),30,prefix30_le⟩ := by
  simp only [subnets,mem_map,mem_range']
  constructor
  · rintro ⟨_,⟨i,hi,rfl⟩,rfl⟩
    exact ⟨i,hi,rfl⟩
  · rintro ⟨i,hi,rfl⟩
    exact ⟨_,⟨i,hi,rfl⟩,rfl⟩

theorem length_subnets : (subnets n).length = 2 ^ (30 - n.length) := by
  rw [subnets,length_map,length_range']

theorem pow_split (hn : n.length ≤ 30) : 2 ^ (32 - n.length) = 4 * 2 ^ (30 - n.length) := by
  have hl : 32 - n.length = 2 + (30 - n.length) := by omega
  rw [hl,pow_add]
  norm_num

theorem networkAddress_add_le : networkAddress n + 2 ^ (32 - n.length) ≤ 2 ^ 32 := by
  have hsplit : 2 ^ 32 = 2 ^ n.length * 2 ^ (32 - n.length) := by
    rw [← pow_add,Nat.add_sub_cancel' n.length_le]
  have hlt : n.addr.value / 2 ^ (32 - n.length) < 2 ^ n.length := by
    rw [Nat.div_lt_iff_lt_mul (Nat.two_pow_pos _),← hsplit]
    exact value_lt n.addr
  calc networkAddress n + 2 ^ (32 - n.length) = (n.addr.value / 2 ^ (32 - n.length) + 1) * 2 ^ (32 - n.length) := by
        rw [networkAddress,Nat.add_mul,Nat.one_mul]
    _ ≤ 2 ^ n.length * 2 ^ (32 - n.length) := Nat.mul_le_mul_right _ hlt
    _ = 2 ^ 32 := hsplit.symm

theorem four_dvd_networkAddress (hn : n.length ≤ 30) : 4 ∣ networkAddress n := by
  rw [networkAddress,pow_split hn]
  exact (Dvd.intro _ rfl).mul_left _

theorem value_subnet (hn : n.length ≤ 30) {i : ℕ} (hi : i < 2 ^ (30 - n.length)) :
    (ofValue (networkAddress n + 4 * i)).value = networkAddress n + 4 * i := by
  have hle := networkAddress_add_le (n := n)
  rw [pow_split hn] at hle
  exact value_ofValue (by omega)

theorem mem_subnet (hn : n.length ≤ 30) {i : ℕ} (hi : i < 2 ^ (30 - n.length)) (x : Ipv4Addr) :
    (⟨ofValue (networkAddress n + 4 * i),30,prefix30_le⟩ : Ipv4Network).Mem x ↔
      x.value / 4 = networkAddress n / 4 + i := by
  rw [Ipv4Network.Mem,value_subnet hn hi]
  have hd := four_dvd_networkAddress hn
  have hf : 2 ^ (32 - 30) = 4 := rfl
  rw [hf]
  omega

theorem apart_subnets (hn : n.length ≤ 30) {a b : Ipv4Network} (ha : a ∈ subnets n) (hb : b ∈ subnets n)
    (hne : a ≠ b) : Separate a b := by
  obtain ⟨i,hi,rfl⟩ := mem_subnets.1 ha
  obtain ⟨j,hj,rfl⟩ := mem_subnets.1 hb
  rintro x ⟨hx,hx'⟩
  rw [mem_subnet hn hi] at hx
  rw [mem_subnet hn hj] at hx'
  obtain rfl : i = j := by omega
  exact hne rfl

theorem nodup_subnets (hn : n.length ≤ 30) : (subnets n).Nodup := by
  refine (nodup_map_iff_inj_on (nodup_range' 4)).2 ?_
  intro v hv w hw h
  obtain ⟨i,hi,rfl⟩ := mem_range'.1 hv
  obtain ⟨j,hj,rfl⟩ := mem_range'.1 hw
  rw [← value_subnet hn hi,← value_subnet hn hj]
  exact congrArg (fun m : Ipv4Network => m.addr.value) h

theorem subnet_of_host (hn : n.length ≤ 30) (hm : m ∈ subnets n) :
    m.length = 30 ∧ Strict m ∧ ∀ x, m.Mem x → n.Mem x := by
  obtain ⟨i,hi,rfl⟩ := mem_subnets.1 hm
  refine ⟨rfl,?_,fun x hx => ?_⟩
  · have hd := four_dvd_networkAddress hn
    rw [Strict,value_subnet hn hi]
    change _ % 4 = 0
    omega
  · rw [mem_subnet hn hi] at hx
    have hd := four_dvd_networkAddress hn
    have hsplit := pow_split hn
    have hp : 0 < 2 ^ (32 - n.length) := Nat.two_pow_pos _
    rw [Ipv4Network.Mem,Nat.div_eq_iff hp]
    change networkAddress n ≤ _ ∧ _ ≤ networkAddress n + _ - 1
    omega

theorem mem_of_mem_addresses {x : Ipv4Addr} (hx : x ∈ addresses m) : m.Mem x := by
  obtain ⟨v,hv,rfl⟩ := mem_map.1 hx
  obtain ⟨i,hi,rfl⟩ := mem_range'.1 hv
  have hle := networkAddress_add_le (n := m)
  have hp : 0 < 2 ^ (32 - m.length) := Nat.two_pow_pos _
  rw [Ipv4Network.Mem, value_ofValue (by omega), Nat.div_eq_iff hp]
  change networkAddress m ≤ _ ∧ _ ≤ networkAddress m + _ - 1
  omega

theorem mem_addresses_of_mem {x : Ipv4Addr} (hx : m.Mem x) : x ∈ addresses m := by
  have hp : 0 < 2 ^ (32 - m.length) := Nat.two_pow_pos _
  rw [Ipv4Network.Mem,Nat.div_eq_iff hp] at hx
  change networkAddress m ≤ _ ∧ _ ≤ networkAddress m + _ - 1 at hx
  refine mem_map.2 ⟨x.value,mem_range'.2 ⟨x.value - networkAddress m,by omega,by omega⟩,?_⟩
  exact value_injective (value_ofValue (value_lt x))

end

section
variable {addrExists}

theorem mem_of_mem_ask {time : ℕ} {xs : List Ipv4Addr} {q : ℕ × Ipv4Addr} (h : q ∈ ask time xs) : q.2 ∈ xs := by
  induction xs generalizing time with
  | nil => cases h
  | cons x xs ih =>
    rcases mem_cons.1 h with rfl | h
    · exact mem_cons_self
    · exact mem_cons_of_mem _ (ih h)

theorem exists_mem_ask {x : Ipv4Addr} {xs : List Ipv4Addr} (h : x ∈ xs) (time : ℕ) : ∃ t, (t,x) ∈ ask time xs := by
  induction xs generalizing time with
  | nil => cases h
  | cons y xs ih =>
    rcases mem_cons.1 h with rfl | h
    · exact ⟨time,mem_cons_self⟩
    · obtain ⟨t,ht⟩ := ih h (time + 1)
      exact ⟨t,mem_cons_of_mem _ ht⟩

theorem length_ask (time : ℕ) (xs : List Ipv4Addr) : (ask time xs).length = xs.length := by
  induction xs generalizing time with
  | nil => rfl
  | cons x xs ih => rw [ask,length_cons,length_cons,ih]

/-- The questions of a call are asked while it runs. -/
theorem time_of_mem_ask {time : ℕ} {xs : List Ipv4Addr} {q : ℕ × Ipv4Addr} (h : q ∈ ask time xs) :
    time ≤ q.1 ∧ q.1 < time + xs.length := by
  induction xs generalizing time with
  | nil => cases h
  | cons x xs ih =>
    rw [length_cons]
    rcases mem_cons.1 h with rfl | h
    · exact ⟨le_refl time,by omega⟩
    · have hq := ih h
      omega

theorem search_generator (reserved : List Ipv4Network) (time : ℕ) (generator : List Ipv4Network) :
    (search addrExists reserved time generator).generator <:+ generator := by
  fun_induction search addrExists reserved time generator with
  | case1 => exact suffix_refl _
  | case2 time net generator _ ih => exact ih.trans (suffix_cons net generator)
  | case3 time net generator _ _ r ih => exact ih.trans (suffix_cons net generator)
  | case4 time net generator => exact suffix_cons net generator

theorem time_of_mem_questions {reserved : List Ipv4Network} {time : ℕ} {generator : List Ipv4Network}
    {q : ℕ × Ipv4Addr} (h : q ∈ (search addrExists reserved time generator).questions) :
    time ≤ q.1 ∧ q.1 < time + (search addrExists reserved time generator).questions.length := by
  fun_induction search addrExists reserved time generator with
  | case1 => cases h
  | case2 time net generator _ ih => exact ih h
  | case3 time net generator _ _ r ih =>
    rw [length_append,length_ask]
    rcases mem_append.1 h with h | h
    · have hq := time_of_mem_ask h
      omega
    · have hq : _ ∧ q.1 < _ + r.questions.length := ih h
      omega
  | case4 time net generator =>
    rw [length_ask]
    exact time_of_mem_ask h

/-- The network found is not reserved and each of its addresses was asked for and is free; one in
use is of a network before it. -/
theorem search_net {reserved : List Ipv4Network} {time : ℕ} {generator : List Ipv4Network} {net : Ipv4Network}
    (h : (search addrExists reserved time generator).net = some net) : net ∉ reserved ∧
      (∀ x ∈ addresses net,
        ∃ t, (t,x) ∈ (search addrExists reserved time generator).questions ∧ addrExists t x = false) ∧
      ∃ skipped, generator = skipped ++ net :: (search addrExists reserved time generator).generator ∧
        ∀ q ∈ (search addrExists reserved time generator).questions, addrExists q.1 q.2 = true →
          ∃ m ∈ skipped, q.2 ∈ addresses m := by
  fun_induction search addrExists reserved time generator with
  | case1 => cases h
  | case2 time first generator _ ih =>
    obtain ⟨hn,hal,skipped,hs,ha⟩ := ih h
    refine ⟨hn,hal,first :: skipped,congrArg (first :: ·) hs,fun q hq hu => ?_⟩
    obtain ⟨m,hm,hmem⟩ := ha q hq hu
    exact ⟨m,mem_cons_of_mem _ hm,hmem⟩
  | case3 time first generator _ _ r ih =>
    obtain ⟨hn,hal,skipped,hs,ha⟩ := ih h
    refine ⟨hn,fun x hx => ?_,first :: skipped,congrArg (first :: ·) hs,fun q hq hu => ?_⟩
    · obtain ⟨t,ht,hf⟩ := hal x hx
      exact ⟨t,mem_append_right _ ht,hf⟩
    · rcases mem_append.1 hq with hq | hq
      · exact ⟨first,mem_cons_self,mem_of_mem_ask hq⟩
      · obtain ⟨m,hm,hmem⟩ := ha q hq hu
        exact ⟨m,mem_cons_of_mem _ hm,hmem⟩
  | case4 time first generator hr hf =>
    cases h
    have hno : ∀ q ∈ ask time (addresses net), ¬ addrExists q.1 q.2 = true :=
      fun q hq hu => hf (any_eq_true.2 ⟨q,hq,hu⟩)
    refine ⟨hr,fun x hx => ?_,[],rfl,fun q hq hu => absurd hu (hno q hq)⟩
    obtain ⟨t,ht⟩ := exists_mem_ask hx time
    exact ⟨t,ht,Bool.eq_false_iff.2 (hno (t,x) ht)⟩

end

structure Networks.Sound (all : List Ipv4Network) (s : Networks) : Prop where
  nodup : all.Nodup
  generator : s.hostNetworkGenerator <:+ all
  reserved : s.adminSubNetworks.Sublist all

def Networks.Ahead (s : Networks) (a : Allocation) : Prop :=
  match a.request with
  | .low => a.net ∈ s.hostNetworkGenerator ∧ a.net ∉ s.adminSubNetworks
  | .admin => a.net ∈ s.adminSubNetworks.drop s.adminSubNetworkIndex

section
variable {addrExists} {all : List Ipv4Network} {s : Networks} {time : ℕ} {requests : List Request} {a : Allocation}

theorem Networks.Ahead.mem (ha : s.Ahead a) (h : s.Sound all) : a.net ∈ all := by
  obtain ⟨request,net,time,questions⟩ := a
  cases request with
  | low => exact h.generator.subset ha.1
  | admin => exact h.reserved.subset (mem_of_mem_drop ha)

/-- A network that is returned: where it is from, that it is fresh, and when its addresses were asked for. -/
structure Returned (addrExists : ℕ → Ipv4Addr → Bool) (s s' : Networks) (a : Allocation) : Prop where
  ahead : s.Ahead a
  once : ∀ b, s'.Ahead b → a.net ≠ b.net
  during : ∀ q ∈ a.questions, a.time ≤ q.1 ∧ q.1 < a.time + a.questions.length
  unused : ∀ q ∈ a.questions, addrExists q.1 q.2 = true →
    ∃ m ∈ s.hostNetworkGenerator, m ≠ a.net ∧ q.2 ∈ addresses m
  asked : a.request = .low → ∀ x ∈ addresses a.net, ∃ t, (t,x) ∈ a.questions ∧ addrExists t x = false

theorem getUnusedLowNetwork_returned (h : s.Sound all) {net : Ipv4Network}
    (hne : (search addrExists s.adminSubNetworks time s.hostNetworkGenerator).net = some net) :
    Returned addrExists s (s.getUnusedLowNetwork addrExists time).1
      ⟨.low,net,time,(search addrExists s.adminSubNetworks time s.hostNetworkGenerator).questions⟩ := by
  obtain ⟨hr,hal,skipped,hg,ha⟩ := search_net hne
  have hn := h.nodup.sublist h.generator.sublist
  rw [hg,nodup_append,nodup_cons] at hn
  obtain ⟨_,⟨hrest,_⟩,hs⟩ := hn
  refine ⟨⟨?_,hr⟩,fun b hb heq => ?_,fun q hq => time_of_mem_questions hq,fun q hq hu => ?_,fun _ => hal⟩
  · rw [hg]
    exact mem_append_right _ mem_cons_self
  · obtain ⟨request,net',time',questions⟩ := b
    obtain rfl : net = net' := heq
    cases request with
    | low => exact hrest hb.1
    | admin => exact hr (mem_of_mem_drop hb)
  · obtain ⟨m,hm,hmem⟩ := ha q hq hu
    refine ⟨m,?_,hs m hm net mem_cons_self,hmem⟩
    rw [hg]
    exact mem_append_left _ hm

theorem getUnusedLowAdminNetwork_cases (s : Networks) :
    s.getUnusedLowAdminNetwork = (s,none) ∧ s.adminSubNetworks.length ≤ s.adminSubNetworkIndex ∨
      ∃ net, s.getUnusedLowAdminNetwork = ({ s with adminSubNetworkIndex := s.adminSubNetworkIndex + 1 },some net) ∧
        s.adminSubNetworks.drop s.adminSubNetworkIndex =
          net :: s.adminSubNetworks.drop (s.adminSubNetworkIndex + 1) := by
  unfold Networks.getUnusedLowAdminNetwork
  cases hg : s.adminSubNetworks[s.adminSubNetworkIndex]? with
  | none => exact .inl ⟨rfl,getElem?_eq_none_iff.1 hg⟩
  | some net =>
    obtain ⟨hlt,rfl⟩ := List.getElem?_eq_some_iff.mp hg
    exact .inr ⟨_,rfl,drop_eq_getElem_cons hlt⟩

theorem getUnusedLowAdminNetwork_returned (h : s.Sound all) {net : Ipv4Network} (hd :
      s.adminSubNetworks.drop s.adminSubNetworkIndex = net :: s.adminSubNetworks.drop (s.adminSubNetworkIndex + 1)) :
    Returned addrExists s { s with adminSubNetworkIndex := s.adminSubNetworkIndex + 1 } ⟨.admin,net,time,[]⟩ := by
  have hmem : net ∈ s.adminSubNetworks.drop s.adminSubNetworkIndex := by
    rw [hd]
    exact mem_cons_self
  have hn := (h.nodup.sublist h.reserved).sublist (drop_sublist s.adminSubNetworkIndex _)
  rw [hd,nodup_cons] at hn
  refine ⟨hmem,fun b hb heq => ?_,fun q hq => absurd hq not_mem_nil,fun q hq => absurd hq not_mem_nil,nofun⟩
  obtain ⟨request,net',time',questions⟩ := b
  obtain rfl : net = net' := heq
  cases request with
  | low => exact hb.2 (mem_of_mem_drop hmem)
  | admin => exact hn.1 hb

/-- One call: it returns a network or not, and what comes later was ahead before. -/
theorem allocations_cons (h : s.Sound all) (request : Request) :
    ∃ s' time', s'.Sound all ∧ (∀ b, s'.Ahead b → s.Ahead b) ∧
      (allocations addrExists s time (request :: requests) = allocations addrExists s' time' requests ∨
        ∃ a, Returned addrExists s s' a ∧
          allocations addrExists s time (request :: requests) = a :: allocations addrExists s' time' requests) := by
  cases request with
  | low =>
    have hs : (search addrExists s.adminSubNetworks time s.hostNetworkGenerator).generator <:+
        s.hostNetworkGenerator := search_generator _ _ _
    refine ⟨(s.getUnusedLowNetwork addrExists time).1,
      time + (search addrExists s.adminSubNetworks time s.hostNetworkGenerator).questions.length,
      ⟨h.nodup,hs.trans h.generator,h.reserved⟩,fun b hb => ?_,?_⟩
    · obtain ⟨request,net,time',questions⟩ := b
      cases request with
      | low => exact ⟨hs.subset hb.1,hb.2⟩
      | admin => exact hb
    · rw [allocations]
      cases hn : (search addrExists s.adminSubNetworks time s.hostNetworkGenerator).net with
      | none =>
        left
        simp [Networks.getUnusedLowNetwork,hn]
      | some net =>
        right
        refine ⟨_,getUnusedLowNetwork_returned h hn,?_⟩
        simp [Networks.getUnusedLowNetwork,hn]
  | admin =>
    rcases getUnusedLowAdminNetwork_cases s with ⟨hc,_⟩ | ⟨net,hc,hd⟩
    · refine ⟨s,time,h,fun _ hb => hb,.inl ?_⟩
      simp [allocations,hc]
    · refine ⟨{ s with adminSubNetworkIndex := s.adminSubNetworkIndex + 1 },time,
        ⟨h.nodup,h.generator,h.reserved⟩,fun b hb => ?_,
        .inr ⟨⟨.admin,net,time,[]⟩,getUnusedLowAdminNetwork_returned h hd,?_⟩⟩
      · obtain ⟨request,net',time',questions⟩ := b
        cases request with
        | low => exact hb
        | admin =>
          change _ ∈ drop _ _
          rw [hd]
          exact mem_cons_of_mem _ hb
      · simp [allocations,hc]

theorem ahead_of_mem_allocations (h : s.Sound all) (ha : a ∈ allocations addrExists s time requests) : s.Ahead a := by
  induction requests generalizing s time with
  | nil => cases ha
  | cons request requests ih =>
    obtain ⟨s',time',hs',hah,hc | ⟨b,hb,hc⟩⟩ := allocations_cons h request
    · rw [hc] at ha
      exact hah a (ih hs' ha)
    · rw [hc] at ha
      rcases mem_cons.1 ha with rfl | ha
      · exact hb.ahead
      · exact hah a (ih hs' ha)

theorem allocations_once (h : s.Sound all) :
    (allocations addrExists s time requests).Pairwise fun a b => a.net ≠ b.net := by
  induction requests generalizing s time with
  | nil => exact List.Pairwise.nil
  | cons request requests ih =>
    obtain ⟨s',time',hs',_,hc | ⟨a,ha,hc⟩⟩ := allocations_cons h request
    · rw [hc]
      exact ih hs'
    · rw [hc]
      exact pairwise_cons.2 ⟨fun b hb => ha.once b (ahead_of_mem_allocations hs' hb),ih hs'⟩

/-- Every network comes from one call, made in a state that has all networks ahead. -/
theorem returned_of_mem_allocations (h : s.Sound all) (ha : a ∈ allocations addrExists s time requests) :
    ∃ t t' : Networks, t.Sound all ∧ Returned addrExists t t' a := by
  induction requests generalizing s time with
  | nil => cases ha
  | cons request requests ih =>
    obtain ⟨s',time',hs',_,hc | ⟨b,hb,hc⟩⟩ := allocations_cons h request
    · rw [hc] at ha
      exact ih hs' ha
    · rw [hc] at ha
      rcases mem_cons.1 ha with rfl | ha
      · exact ⟨s,s',h,hb⟩
      · exact ih hs' ha

theorem allocations_admin (addrExists : ℕ → Ipv4Addr → Bool) (s : Networks) (time : ℕ) (requests : List Request) :
    ((allocations addrExists s time requests).filter fun a => a.request = .admin).length =
      min (requests.count .admin) (s.adminSubNetworks.length - s.adminSubNetworkIndex) := by
  induction requests generalizing s time with
  | nil => simp [allocations]
  | cons request requests ih =>
    cases request with
    | low =>
      rw [allocations, filter_append, length_append, ih, count_cons_of_ne (by decide)]
      cases hn : (s.getUnusedLowNetwork addrExists time).2.net with
      | none => simp [Networks.getUnusedLowNetwork]
      | some net => simp [Networks.getUnusedLowNetwork]
    | admin =>
      rw [allocations,filter_append,length_append,ih,count_cons_self]
      rcases getUnusedLowAdminNetwork_cases s with ⟨hc,hle⟩ | ⟨net,hc,hd⟩
      · simp only [hc,Option.map_none,Option.toList_none,filter_nil,length_nil]
        omega
      · have hl := congrArg length hd
        rw [length_drop,length_cons,length_drop] at hl
        simp only [hc,Option.map_some,Option.toList_some,decide_true,filter_cons_of_pos,filter_nil,length_singleton]
        omega

end

section
variable {hostNetwork : Ipv4Network} (hhost : hostNetwork.length ≤ 30)
include hhost

theorem sound_new (adminnsLen : ℕ) : (Networks.new hostNetwork adminnsLen).Sound (subnets hostNetwork) := by
  refine ⟨nodup_subnets hhost,suffix_refl _,?_⟩
  rw [Networks.new]
  split_ifs
  · exact drop_sublist _ _
  · exact nil_sublist _

omit hhost in
theorem length_adminSubNetworks {adminnsLen : ℕ} (h : adminnsLen < 2 ^ (30 - hostNetwork.length)) :
    (Networks.new hostNetwork adminnsLen).adminSubNetworks.length = adminnsLen := by
  rw [Networks.new]
  split_ifs with hp
  · rw [length_drop,length_subnets]
    omega
  · exact (Nat.eq_zero_of_not_pos hp).symm

end

/-- In every interleaving the networks returned are disjoint networks of four addresses of the
host's; each address of one was asked for during its call and did not exist, and every admin
namespace can have one. -/
theorem networks_apart (hostNetwork : Ipv4Network) (hhost : hostNetwork.length ≤ 30) (adminnsLen : ℕ)
    (hadmin : adminnsLen < 2 ^ (30 - hostNetwork.length)) (addrExists : ℕ → Ipv4Addr → Bool) (time : ℕ)
    (requests : List Request) :
    ((allocations addrExists (.new hostNetwork adminnsLen) time requests).Pairwise fun a b => Separate a.net b.net) ∧
      (∀ a ∈ allocations addrExists (.new hostNetwork adminnsLen) time requests,
        (a.net.length = 30 ∧ Strict a.net ∧ ∀ x, a.net.Mem x → hostNetwork.Mem x) ∧
          (∀ q ∈ a.questions, a.time ≤ q.1 ∧ q.1 < a.time + a.questions.length) ∧
          (a.request = .low → ∀ x, a.net.Mem x → ∃ t, (t,x) ∈ a.questions ∧ addrExists t x = false) ∧
          ∀ t x, (t,x) ∈ a.questions → addrExists t x = true → ¬ a.net.Mem x) ∧
      ((allocations addrExists (.new hostNetwork adminnsLen) time requests).filter
        fun a => a.request = .admin).length = min (requests.count .admin) adminnsLen := by
  have hs := sound_new hhost adminnsLen
  have hmem : ∀ a ∈ allocations addrExists (.new hostNetwork adminnsLen) time requests,
      a.net ∈ subnets hostNetwork := fun a ha => (ahead_of_mem_allocations hs ha).mem hs
  refine ⟨?_,fun a ha => ?_,?_⟩
  · refine (allocations_once hs).imp_of_mem fun ha hb hne => ?_
    exact apart_subnets hhost (hmem _ ha) (hmem _ hb) hne
  · obtain ⟨s,s',hso,hr⟩ := returned_of_mem_allocations hs ha
    refine ⟨subnet_of_host hhost (hmem a ha),hr.during,fun hl x hx => ?_,fun t x hq hu hx => ?_⟩
    · exact hr.asked hl x (mem_addresses_of_mem hx)
    · obtain ⟨m,hm,hne,hmx⟩ := hr.unused (t,x) hq hu
      exact apart_subnets hhost (hso.generator.subset hm) (hmem a ha) hne x ⟨mem_of_mem_addresses hmx,hx⟩
  · rw [allocations_admin,length_adminSubNetworks hadmin]
    rfl

def hostNetwork24 : Ipv4Network := ⟨⟨10,202,0,0⟩,24,by decide⟩
def addrExists24 (time : ℕ) (x : Ipv4Addr) : Bool := decide (x = ⟨10,202,0,1⟩ ∨ (time < 6 ∧ x = ⟨10,202,0,9⟩))
def allocations24 : List Allocation :=
  allocations addrExists24 (.new hostNetwork24 2) 0 [.low,.admin,.low,.admin,.admin]

/-- Two admin namespaces, an address of the first network in use, and one of the third for a time. -/
theorem hostNetwork24_apart :
    (allocations24.map fun a => (a.net.addr,a.questions.length)) =
        [(⟨10,202,0,4⟩,8),(⟨10,202,0,248⟩,0),(⟨10,202,0,8⟩,4),(⟨10,202,0,252⟩,0)] ∧
      (allocations24.Pairwise fun a b => Separate a.net b.net) ∧
      ∀ a ∈ allocations24, a.request = .low →
        ∀ x, a.net.Mem x → ∃ t, (t,x) ∈ a.questions ∧ addrExists24 t x = false := by
  obtain ⟨hp,hal,_⟩ := networks_apart hostNetwork24 (by decide) 2 (by decide) addrExists24 0
    [.low,.admin,.low,.admin,.admin]
  exact ⟨by decide +kernel,hp,fun a ha => (hal a ha).2.2.1⟩

structure Service where
  networks : Networks
  running : List Ipv4Network
  assigned : List Ipv4Addr

inductive Event where
  | start
  | stop (net : Ipv4Network)
  | assign (x : Ipv4Addr)
  | remove (x : Ipv4Addr)

namespace Service

def lowNetwork (s : Service) : Networks × Search :=
  s.networks.getUnusedLowNetwork (fun _ x => decide (x ∈ s.assigned)) 0

def act (s : Service) : Event → Service
  | .start => { s with networks := s.lowNetwork.1, running := s.lowNetwork.2.net.toList ++ s.running }
  | .stop net =>
    { s with running := s.running.erase net, assigned := s.assigned.filter fun x => !decide (x ∈ addresses net) }
  | .assign x => { s with assigned := x :: s.assigned }
  | .remove x => { s with assigned := s.assigned.filter (· ≠ x) }

/-- The network is not reserved, none of its addresses is assigned and no user runs on it. -/
structure Free (s : Service) (hostNetwork net : Ipv4Network) : Prop where
  mem : net ∈ subnets hostNetwork
  reserved : net ∉ s.networks.adminSubNetworks
  assigned : ∀ x ∈ addresses net, x ∉ s.assigned
  running : net ∉ s.running

structure Inv (hostNetwork : Ipv4Network) (s : Service) : Prop where
  generator : s.networks.hostNetworkGenerator <:+ subnets hostNetwork
  passed : ∀ net ∈ s.running, net ∉ s.networks.hostNetworkGenerator

variable {hostNetwork : Ipv4Network} {s : Service}

theorem Inv.act (hhost : hostNetwork.length ≤ 30) (h : Inv hostNetwork s) (e : Event) : Inv hostNetwork (s.act e) := by
  cases e with
  | start =>
    have hs : (s.act .start).networks.hostNetworkGenerator <:+ s.networks.hostNetworkGenerator := search_generator _ _ _
    refine ⟨hs.trans h.generator,fun net hn ha => ?_⟩
    rcases mem_append.1 hn with hn | hn
    · obtain ⟨-,-,skipped,hg,-⟩ := search_net (Option.mem_toList.1 hn)
      have hno := (nodup_subnets hhost).sublist h.generator.sublist
      rw [hg,nodup_append,nodup_cons] at hno
      exact hno.2.1.1 ha
    · exact h.passed net hn (hs.subset ha)
  | stop net => exact ⟨h.generator,fun m hm => h.passed m (mem_of_mem_erase hm)⟩
  | assign x => exact ⟨h.generator,h.passed⟩
  | remove x => exact ⟨h.generator,h.passed⟩

theorem Inv.run (hhost : hostNetwork.length ≤ 30) (h : Inv hostNetwork s) (events : List Event) :
    Inv hostNetwork (events.foldl Service.act s) := by
  induction events generalizing s with
  | nil => exact h
  | cons e events ih => exact ih (h.act hhost e)

end Service

theorem any_ask {p : Ipv4Addr → Bool} {time : ℕ} {xs : List Ipv4Addr} :
    (ask time xs).any (fun q => p q.2) = xs.any p := by
  induction xs generalizing time with
  | nil => rfl
  | cons x xs ih => rw [ask,any_cons,any_cons,ih]

/-- A network is found just if one that is not reserved and has no address in use is still to come. -/
theorem search_isSome {p : Ipv4Addr → Bool} {reserved : List Ipv4Network} {time : ℕ} {generator : List Ipv4Network} :
    (search (fun _ => p) reserved time generator).net.isSome = true ↔
      ∃ net ∈ generator, net ∉ reserved ∧ (addresses net).any p = false := by
  fun_induction search (fun _ => p) reserved time generator with
  | case1 => simp
  | case2 time net generator hr ih => simp [ih,hr]
  | case3 time net generator hr hu r ih =>
    rw [any_ask] at hu
    simp only [exists_mem_cons_iff,hu,Bool.true_eq_false,and_false,false_or]
    exact ih
  | case4 time net generator hr hf =>
    rw [any_ask,Bool.not_eq_true] at hf
    exact ⟨fun _ => ⟨net,mem_cons_self,hr,hf⟩,fun _ => rfl⟩

/-- A call succeeds whenever a network is free just if a free one is ahead whenever one is free. -/
theorem available_iff_ahead (hostNetwork : Ipv4Network) (hhost : hostNetwork.length ≤ 30) (adminnsLen : ℕ)
    (assigned : List Ipv4Addr)
    (events : List Event) {s : Service} (hs : s = events.foldl Service.act ⟨.new hostNetwork adminnsLen,[],assigned⟩) :
    ((∃ net, s.Free hostNetwork net) → s.lowNetwork.2.net.isSome = true) ↔
      ((∃ net, s.Free hostNetwork net) → ∃ net ∈ s.networks.hostNetworkGenerator, s.Free hostNetwork net) := by
  have hi : s.Inv hostNetwork := hs ▸ Service.Inv.run hhost ⟨suffix_refl _,by simp⟩ events
  refine imp_congr_right fun _ => search_isSome.trans (exists_congr fun net => and_congr_right fun hn => ?_)
  rw [any_eq_false]
  constructor
  · rintro ⟨hr,hf⟩
    exact ⟨hi.generator.subset hn,hr,fun x hx hmem => hf x hx (decide_eq_true hmem),fun hru => hi.passed net hru hn⟩
  · intro hf
    exact ⟨hf.reserved,fun x hx => fun h => hf.assigned x hx (of_decide_eq_true h)⟩

def hostNetwork28 : Ipv4Network := ⟨⟨10,202,0,0⟩,28,by decide⟩
def firstNetwork : Ipv4Network := ⟨⟨10,202,0,0⟩,30,by decide⟩
def thirdNetwork : Ipv4Network := ⟨⟨10,202,0,8⟩,30,by decide⟩

/-- Two users start and one of them stops; the third network has an address in use for a time. -/
def someStarts : List Event :=
  [.start,.assign ⟨10,202,0,1⟩,.assign ⟨10,202,0,9⟩,.start,.assign ⟨10,202,0,5⟩,.stop firstNetwork,
    .remove ⟨10,202,0,9⟩]
def afterStarts : Service := someStarts.foldl Service.act ⟨.new hostNetwork28 1,[],[]⟩

/-- The first network is free again but behind; the third one is ahead, and the next call finds it. -/
theorem afterStarts_available : afterStarts.Free hostNetwork28 firstNetwork ∧
    firstNetwork ∉ afterStarts.networks.hostNetworkGenerator ∧ afterStarts.running.length = 1 ∧
      afterStarts.lowNetwork.2.net.isSome = true := by
  have hfirst : afterStarts.Free hostNetwork28 firstNetwork :=
    ⟨by decide +kernel,by decide +kernel,by decide +kernel,by decide +kernel⟩
  have hthird : afterStarts.Free hostNetwork28 thirdNetwork :=
    ⟨by decide +kernel,by decide +kernel,by decide +kernel,by decide +kernel⟩
  refine ⟨hfirst,by decide +kernel,by decide +kernel,?_⟩
  refine (available_iff_ahead hostNetwork28 (by decide) 1 [] someStarts rfl).2 ?_ ⟨firstNetwork,hfirst⟩
  exact fun _ => ⟨thirdNetwork,by decide +kernel,hthird⟩

/-- Every network has been used once, by a user that has stopped. -/
def eachOnce : List Event := (subnets hostNetwork24).flatMap fun net => [.start,.assign net.addr,.stop net]

/-- All networks are free, and none can be had any more. -/
theorem networks_used_up :
    (∀ net ∈ subnets hostNetwork24, (eachOnce.foldl Service.act ⟨.new hostNetwork24 0,[],[]⟩).Free hostNetwork24 net) ∧
    (eachOnce.foldl Service.act ⟨.new hostNetwork24 0,[],[]⟩).lowNetwork.2.net = none := by
  have he : (eachOnce.foldl Service.act ⟨.new hostNetwork24 0,[],[]⟩).running = [] ∧
      (eachOnce.foldl Service.act ⟨.new hostNetwork24 0,[],[]⟩).assigned = [] ∧
      (eachOnce.foldl Service.act ⟨.new hostNetwork24 0,[],[]⟩).networks.adminSubNetworks = [] := by decide +kernel
  refine ⟨fun net hn => ⟨hn,by simp [he],by simp [he],by simp [he]⟩,by decide +kernel⟩

end Padsi.Config
