import Padsi.Fw.Ruleset

/-! # Rules that accept flows to a host, and to no other one -/
namespace Padsi.Fw
open Text Net Python List Option Json

variable {U : Unicode}

structure NetFlow.ToHost (f : NetFlow U) (ip : Ipv4Addr) : Prop where
  src : f.src = .unspecified
  zones : f.dest.zones = [.address ip]

theorem NetFlow.mem_of_pick {p : Protocol} {split : List (Option Protocol × Endpoint U)} {e : Endpoint U}
    (h : pick p split = .ok e) : ∃ key, (key,e) ∈ split := by
  have hmem : ∀ {key}, split.lookup key = some e → ∃ key, (key,e) ∈ split := by
    intro key hk
    obtain ⟨l₁,l₂,hsplit,_⟩ := lookup_eq_some_iff.1 hk
    exact ⟨key,by simp [hsplit]⟩
  unfold pick at h
  split at h
  · rename_i hk
    cases h
    exact hmem hk
  · split at h
    · rename_i hk
      cases h
      exact hmem hk
    · cases h

theorem Endpoint.zones_of_mem_split {e : Endpoint U} {x : Option Protocol × Endpoint U} (h : x ∈ e.splitByProtocol) :
    x.2.zones = e.zones := by
  unfold splitByProtocol at h
  split at h
  · rw [mem_singleton.1 h]
  · rw [mem_singleton.1 h]
  · obtain ⟨p,_,rfl⟩ := mem_map.1 h
    rfl

theorem NetFlow.ToHost.part {f : NetFlow U} {ip : Ipv4Addr} (h : f.ToHost ip)
    {parts : List (Option Protocol × NetFlow U)}
    (hpa : f.splitByProtocol = .ok parts) : ∀ part ∈ parts, part.2.ToHost ip := by
  obtain ⟨protos,_,hpa⟩ := bind_eq_ok.1 hpa
  intro part hpr
  split at hpa
  · cases hpa
    rw [mem_singleton.1 hpr]
    exact h
  · cases hpa
    rw [mem_singleton.1 hpr]
    exact h
  · obtain ⟨p,_,hp⟩ := mem_of_mapM hpa part hpr
    obtain ⟨src,hs,hp⟩ := bind_eq_ok.1 hp
    obtain ⟨dest,hd,hp⟩ := bind_eq_ok.1 hp
    obtain ⟨flow,hf,hp⟩ := bind_eq_ok.1 hp
    obtain ⟨_,_,hf⟩ := bind_eq_ok.1 hf
    cases hf
    cases hp
    obtain ⟨key,hk⟩ := mem_of_pick hd
    rw [h.src] at hs
    cases hs
    exact ⟨rfl,(Endpoint.zones_of_mem_split hk).trans h.zones⟩

def Nft.reads (N : Nft) : List Str → Bool
  | [] => true
  | a :: b :: c :: rest => (N.expression a b c).isSome && N.reads rest
  | _ => false

theorem Nft.reads_append (N : Nft) {xs : List Str} (h : 3 ∣ xs.length) (ys : List Str) :
    N.reads (xs ++ ys) = (N.reads xs && N.reads ys) := by
  match xs, h with
  | [], _ => rfl
  | [_], h => exact absurd (Nat.le_of_dvd Nat.one_pos h) (by decide)
  | [_,_], h => exact absurd (Nat.le_of_dvd Nat.two_pos h) (by decide)
  | a :: b :: c :: xs, h =>
    have hrest : 3 ∣ xs.length := (Nat.dvd_add_left (Nat.dvd_refl 3)).1 h
    simp only [cons_append,reads,reads_append N hrest ys,Bool.and_assoc]

/-- A rule accepts the packets that satisfy its expressions, and its report has no log. -/
structure Documented (N : Nft) (report : Report) (allows : List Json → Packet → Bool) : Prop where
  lawful : N.Lawful
  ports : ∀ s m, N.port s = some m → ∃ k, m k = true
  reads : ∀ args expr, report (args ++ [Policy.allow.keyword]) = some expr → N.reads args = true
  meaning : ∀ args expr, report (args ++ [Policy.allow.keyword]) = some expr →
    ∀ pkt, allows expr pkt = N.satisfies pkt args
  plain : ∀ args expr, report (args ++ [Policy.allow.keyword]) = some expr →
    ∀ e ∈ expr, ∃ fields, e = .obj fields ∧ Json.field "log" fields = none

section
variable {N : Nft} {f : NetFlow U} {ip : Ipv4Addr}

theorem NetFlow.ToHost.daddr (h : f.ToHost ip) (hN : N.Lawful) {args : List Str} (ha : f.nftArgs = .ok args)
    {pkt : Packet} (hp : N.satisfies pkt args = true) : pkt.daddr = ip := by
  obtain ⟨protos,sports,dports,_,_,hs,_,rfl⟩ := nftArgs_cases ha
  obtain ⟨_,_,_,_,hda,_⟩ := (satisfies_nftArgs hs).1 hp
  have hzones : f.dest.Ipv4Zones := by
    intro z hz
    rw [h.zones] at hz
    exact .inr (.inl ⟨ip,mem_singleton.1 hz⟩)
  rcases carriesAddress_of_satisfies hN hzones (fun _ => rfl) hda with hnone | ⟨z,hz,hd⟩
  · rw [h.zones] at hnone
    cases hnone
  · rw [h.zones] at hz
    rw [mem_singleton.1 hz] at hd
    exact Zone.denotes_address.1 hd

theorem exists_port (hp : ∀ s m, N.port s = some m → ∃ k, m k = true) {s : Str} {m : UInt16 → Bool}
    (h : N.readSet N.port s = some m) : ∃ k, m k = true := by
  unfold Nft.readSet at h
  split at h
  · rename_i ha
    cases h
    obtain ⟨i,hi⟩ := exists_mem_of_ne_nil _ (splitOn_ne_nil ',' (s.tail.dropLast))
    obtain ⟨r,hr⟩ := isSome_iff_exists.1 (all_eq_true.1 (Bool.and_eq_true_iff.1 ha).2 i hi)
    obtain ⟨k,hk⟩ := hp i r hr
    exact ⟨k,any_eq_true.2 ⟨i,hi,by rw [hr]; exact hk⟩⟩
  · cases h

theorem exists_dport (hpo : ∀ s m, N.port s = some m → ∃ k, m k = true) {e : Endpoint U}
    {protos : List Protocol} {dports : List Str}
    (hl : protos.length ≤ 1) (hd : e.portArgs "dport" protos = .ok dports) (hre : N.reads dports = true) :
    ∃ k, ∀ pkt : Packet, (∀ p ∈ protos, pkt.protocol = protocolNumber p) → pkt.ports = some (0,k) →
      N.satisfies pkt dports = true := by
  rcases protos with _ | ⟨p,_ | ⟨q,rest⟩⟩
  · obtain ⟨_,_,hd⟩ := bind_eq_ok.1 hd
    obtain ⟨_,_,hd⟩ := bind_eq_ok.1 hd
    have hn : dports = [] := by split at hd <;> cases hd <;> rfl
    exact ⟨0,fun pkt _ _ => by rw [hn]; rfl⟩
  · rcases portArgs_cases hd with ⟨_,rfl⟩ | ⟨_,hp,rfl⟩
    · exact ⟨0,fun _ _ _ => rfl⟩
    · have hr := (Bool.and_eq_true_iff.1 hre).1
      rw [NetFlow.expression_dport N hp,isSome_map] at hr
      obtain ⟨m,hm⟩ := isSome_iff_exists.1 hr
      obtain ⟨k,hk⟩ := exists_port hpo hm
      refine ⟨k,fun pkt hpr hk' => ?_⟩
      rw [satisfies_single,NetFlow.expression_dport N hp,hm,map_some,any_some]
      simp [hpr p mem_cons_self,hk',hk]
  · simp at hl

/-- Each expression of a flow to the host is satisfied by some packet to it. -/
theorem NetFlow.ToHost.exists_packet (h : f.ToHost ip) (hN : N.Lawful) (hp : ∀ s m, N.port s = some m → ∃ k, m k = true)
    {args : List Str} (ha : f.nftArgs = .ok args) (hr : N.reads args = true) :
    ∃ pkt : Packet, pkt.daddr = ip ∧ N.satisfies pkt args = true := by
  obtain ⟨protos,sports,dports,_,hle,hs,hd,rfl⟩ := nftArgs_cases ha
  have hsr : f.src.interfaceArgs "iif" = [] ∧ f.src.addressArgs "saddr" = [] ∧ sports = [] := by
    rw [h.src] at hs ⊢
    cases hs
    exact ⟨rfl,rfl,rfl⟩
  simp only [hsr,append_nil] at hr ⊢
  have hl := Nat.dvd_add (dvd_length_protocolArgs protos) (dvd_length_interfaceArgs "oif" f.dest)
  rw [← length_append] at hl
  have hl' := Nat.dvd_add hl (dvd_length_addressArgs "daddr" f.dest)
  rw [← length_append] at hl'
  rw [N.reads_append hl',N.reads_append hl,Bool.and_eq_true_iff,Bool.and_eq_true_iff] at hr
  obtain ⟨⟨_,hra⟩,hrp⟩ := hr
  have hac : f.dest.Accepted N := by
    intro hne hal
    rw [Endpoint.addressArgs,if_pos ⟨hne,hal⟩] at hra
    have hre := (Bool.and_eq_true_iff.1 hra).1
    have he : ∀ c, N.expression "ip" "daddr" c = (N.readSet N.address c).map fun m pkt => m pkt.daddr := fun _ => rfl
    rwa [he, isSome_map] at hre
  have hzones : f.dest.Ipv4Zones := by
    intro z hz
    rw [h.zones] at hz
    exact .inr (.inl ⟨ip,mem_singleton.1 hz⟩)
  obtain ⟨x,hx⟩ : ∃ x, ∀ pkt : Packet, pkt.daddr = x → N.satisfies pkt (f.dest.addressArgs "daddr") = true :=
    exists_address hN hzones hac fun _ => rfl
  obtain ⟨k,hk⟩ := exists_dport hp hle hd hrp
  have hsa : N.satisfies ⟨none,f.dest.iface.map Iface.text,ip,x,(protos.head?.map protocolNumber).getD 0,some (0,k)⟩
      (protocolArgs protos ++ f.dest.interfaceArgs "oif" ++ f.dest.addressArgs "daddr" ++ dports) = true := by
    rw [N.satisfies_append _ hl',N.satisfies_append _ hl,N.satisfies_append _ (dvd_length_protocolArgs protos),hx _ rfl]
    have hi : N.satisfies ⟨none,f.dest.iface.map Iface.text,ip,x,(protos.head?.map protocolNumber).getD 0,some (0,k)⟩
        (f.dest.interfaceArgs "oif") = true := by
      have he : ∀ c, N.expression "meta" "oif" c = some fun pkt => decide (pkt.oif = some c) := fun _ => rfl
      exact (satisfies_interfaceArgs he).2 fun j hj => by rw [hj]; rfl
    rw [hi]
    rcases protos with _ | ⟨p,_ | ⟨q,rest⟩⟩
    · rw [hk _ (by simp) rfl]
      rfl
    · have hpr : ∀ p' ∈ [p], protocolNumber p = protocolNumber p' := fun p' hp' => by rw [mem_singleton.1 hp']
      rw [hk _ hpr rfl,protocolArgs,satisfies_single,NetFlow.expression_protocol]
      simp
    · simp at hle
  have ha' : f.nftArgs =
      .ok (protocolArgs protos ++ f.dest.interfaceArgs "oif" ++ f.dest.addressArgs "daddr" ++ dports) := by
    rw [ha]
    simp only [hsr,append_nil]
  exact ⟨_,h.daddr hN ha' hsa,hsa⟩

end

def Kernel.Plain (k : Kernel) : Prop :=
  ∀ r ∈ k.rules, ∀ e ∈ r.expr, ∃ fields, e = .obj fields ∧ Json.field "log" fields = none

theorem inChain_eq (r : Rule) (table chain : Str) (family : Family) :
    inChain r.body table chain family = .ok (decide (r.family = family.value ∧ r.table = table ∧ r.chain = chain)) := by
  have hta : onJson (get "table" r.body) = .ok (some (.str r.table)) := rfl
  have hfa : onJson (get "family" r.body) = .ok (some (.str r.family)) := rfl
  have hc : onJson (get "chain" r.body) = .ok (some (.str r.chain)) := rfl
  unfold inChain
  simp only [hta,hfa,hc,bind,Except.bind,pure,Except.pure,any_some,isStr,decide_eq_true_eq]
  by_cases ht : r.table = table
  · by_cases hf : r.family = family.value <;> simp [ht,hf]
  · simp [ht]

theorem denyLogIn_cons (r : Rule) (table chain : Str) (family : Family) (log : Option LogSpec) (items : List Json) :
    denyLogIn table chain family log (.obj r.fields :: items) =
      if r.family = family.value ∧ r.table = table ∧ r.chain = chain then
        match r.expr with
        | [expr] => do
          if ← logsWith log expr then return some (.num r.handle) else denyLogIn table chain family log items
        | _ => denyLogIn table chain family log items
      else denyLogIn table chain family log items := by
  have hg : get "rule" (.obj r.fields) = .ok (some r.body) := rfl
  have he : getOr "expr" r.body (.arr []) = .ok (.arr r.expr) := rfl
  have hh : get "handle" r.body = .ok (some (.num r.handle)) := rfl
  rw [denyLogIn,hg]
  change (do
    if ← inChain r.body table chain family then _ else _) = _
  rw [inChain_eq]
  by_cases hp : r.family = family.value ∧ r.table = table ∧ r.chain = chain
  · rw [if_pos hp]
    have hin : (decide (r.family = family.value ∧ r.table = table ∧ r.chain = chain)) = true := decide_eq_true hp
    rcases hx : r.expr with _ | ⟨expr,_ | _⟩ <;>
      simp only [bind,Except.bind,hin,if_true,he,onJson,elements,hh,isSome_some,Bool.and_true,hx]
  · rw [if_neg hp]
    simp only [bind,Except.bind,decide_eq_false hp]
    rfl

theorem denyLogIn_plain {k : Kernel} (hk : k.Plain) (table chain : Str) (family : Family) (log : Option LogSpec)
    {rules : List Rule} (hrules : ∀ r ∈ rules, r ∈ k.rules) :
    denyLogIn table chain family log ((rules.map Rule.fields).map .obj) = .ok none := by
  induction rules with
  | nil => rfl
  | cons r rules ih =>
    have hrest := ih fun r' hr' => hrules r' (mem_cons_of_mem _ hr')
    rw [map_cons,map_cons,denyLogIn_cons]
    split
    · split
      · rename_i e he
        obtain ⟨fields,rfl,hf⟩ := hk r (hrules r mem_cons_self) e (by rw [he]; exact mem_singleton_self e)
        simp only [logsWith,has,hf]
        exact hrest
      · exact hrest
    · exact hrest

theorem findChainDenyLogRule_plain {k : Kernel} (hk : k.Plain) (table chain : Str) (log : Option LogSpec)
    (family : Family) : findChainDenyLogRule k.listing table chain log family = .ok none := by
  rw [findChainDenyLogRule_eq]
  exact denyLogIn_plain hk table chain family log fun _ hr => hr

def NetFlow.Writable (tool : FwTool) (report : Report) (f : NetFlow U) : Prop :=
  ∃ parts, f.splitByProtocol = .ok parts ∧
    ∀ part ∈ parts, ∃ args expr, part.2.nftArgs = .ok args ∧ report (tool.ruleWords args .allow true) = some expr

/-- A rule of the chains accepts a packet to the host. -/
def Kernel.Opens (tool : FwTool) (allows : List Json → Packet → Bool) (k : Kernel) (ip : Ipv4Addr) : Prop :=
  ∃ r ∈ k.rules, (∃ t ∈ [FlowType.filterForward,.filterOutput], r.family = "ip" ∧ r.table = tool.tableOf t ∧
    r.chain = tool.chainOf t) ∧
    ∃ pkt : Packet, pkt.daddr = ip ∧ allows r.expr pkt = true

namespace FwTool
variable {tool : FwTool} {report : Report} {t : FlowType}

theorem ruleWords_allow (args : List Str) (logIfDeny : Bool) :
    tool.ruleWords args .allow logIfDeny = args ++ [Policy.allow.keyword] := by
  simp [ruleWords]

theorem setEach_writable {k₀ : Kernel} (hk₀ : k₀.Plain) {flows : List (NetFlow U)}
    (hf : ∀ f ∈ flows, ∃ args expr, f.nftArgs = .ok args ∧ report (tool.ruleWords args .allow true) = some expr)
      (k : Kernel) :
    ∃ k', tool.setEach report k₀.listing t .allow true .ipv4 flows k = (k',.ok ()) ∧ (∀ r ∈ k.rules, r ∈ k'.rules) ∧
      (∀ r ∈ k'.rules, r ∈ k.rules ∨ ∃ f ∈ flows, tool.RuleFor report t f .allow r) ∧
      ∀ f ∈ flows, ∃ r ∈ k'.rules, tool.RuleFor report t f .allow r := by
  induction flows generalizing k with
  | nil => exact ⟨k,rfl,fun _ hr => hr,fun _ hr => .inl hr,nofun⟩
  | cons f flows ih =>
    obtain ⟨⟨args,expr,ha,he⟩,hrest⟩ := forall_mem_cons.1 hf
    let k₁ := k.withRule k.rules [] (append_nil _).symm (tool.tableOf t) (tool.chainOf t) expr
    have hex : k.exec report
        (newRule (tool.tableOf t) (tool.chainOf t) none (tool.ruleWords args .allow true)) = some k₁ := by
      simp only [newRule,Kernel.exec,he,map_some,k₁]
    have ho : tool.setOne report k₀.listing t .allow true .ipv4 f k = (k₁,.ok false) := by
      rw [setOne_eq,ha]
      simp only [findChainDenyLogRule_plain hk₀,hex]
    have hn : tool.RuleFor report t f .allow ⟨"ip",tool.tableOf t,tool.chainOf t,k.next,expr⟩ :=
      ⟨rfl,rfl,rfl,args,true,ha,he⟩
    obtain ⟨k',hs,hk,had,hea⟩ := ih hrest k₁
    refine ⟨k',?_,fun r hr => hk r (mem_append_left _ hr),fun r hr => ?_,?_⟩
    · rw [setEach,ho]
      exact hs
    · rcases had r hr with hr | ⟨f',hf',hr⟩
      · rcases mem_append.1 hr with hr | hr
        · exact .inl hr
        · rw [mem_singleton.1 hr]
          exact .inr ⟨f,mem_cons_self,hn⟩
      · exact .inr ⟨f',mem_cons_of_mem _ hf',hr⟩
    · exact forall_mem_cons.2 ⟨⟨_,hk _ (mem_append_right _ mem_cons_self),hn⟩,hea⟩

variable {N : Nft} {allows : List Json → Packet → Bool}

theorem flowSetPolicy_writable (hd : Documented N report allows) {k : Kernel} (hk : k.Plain) {f : NetFlow U}
    (hf : f.Writable tool report) :
    (tool.flowSetPolicy report t f .allow true .ipv4 k).2 = .ok () ∧
      (tool.flowSetPolicy report t f .allow true .ipv4 k).1.Plain := by
  obtain ⟨parts,hp,hw⟩ := hf
  obtain ⟨k',hs,_,ha,_⟩ := setEach_writable (t := t) hk (forall_mem_map.2 hw) k
  unfold flowSetPolicy
  simp only [hp,hs,true_and]
  intro r hr
  rcases ha r hr with hr | ⟨_,_,_,_,_,args,_,_,he⟩
  · exact hk r hr
  · rw [ruleWords_allow] at he
    exact hd.plain args r.expr he

theorem opens_flowSetPolicy (hd : Documented N report allows) {k : Kernel} (hk : k.Plain) {f : NetFlow U}
    (hf : f.Writable tool report)
    {ip : Ipv4Addr} (hh : f.ToHost ip) (ht : t ∈ [FlowType.filterForward,.filterOutput]) (x : Ipv4Addr) :
    (tool.flowSetPolicy report t f .allow true .ipv4 k).1.Opens tool allows x ↔ k.Opens tool allows x ∨ x = ip := by
  obtain ⟨parts,hp,hw⟩ := hf
  obtain ⟨k',hs,hke,had,hea⟩ := setEach_writable (t := t) hk (forall_mem_map.2 hw) k
  unfold flowSetPolicy
  simp only [hp,hs]
  constructor
  · rintro ⟨r,hr,hpl,pkt,hpk,ha⟩
    rcases had r hr with hr | ⟨_,hmem,_,_,_,args,_,har,he⟩
    · exact .inl ⟨r,hr,hpl,pkt,hpk,ha⟩
    · obtain ⟨part,hpa,rfl⟩ := mem_map.1 hmem
      rw [ruleWords_allow] at he
      rw [hd.meaning args r.expr he] at ha
      exact .inr (hpk.symm.trans ((hh.part hp part hpa).daddr hd.lawful har ha))
  · rintro (⟨r,hr,h⟩ | rfl)
    · exact ⟨r,hke r hr,h⟩
    · obtain ⟨part,rest,rfl⟩ := exists_cons_of_ne_nil (l := parts) fun hn => splitByProtocol_ne_nil (hn ▸ hp)
      obtain ⟨r,hr,hfa,hta,hc,args,_,har,he⟩ := hea part.2 mem_cons_self
      rw [ruleWords_allow] at he
      obtain ⟨pkt,hpk,hsa⟩ := (hh.part hp part mem_cons_self).exists_packet hd.lawful hd.ports har
        (hd.reads args r.expr he)
      exact ⟨r,hr,⟨t,ht,hfa,hta,hc⟩,pkt,hpk,(hd.meaning args r.expr he pkt).trans hsa⟩

end FwTool

end Padsi.Fw
