import Padsi.Dns.Rules
import Padsi.Fw.Ruleset

/-! # The DNS firewall

`padsi-dns-fw` drives the firewall library, whose operations are a parameter: they
change a state and can fail.
-/
namespace Padsi.Dns
open Text Net Python Fw List

variable {U : Unicode} {σ : Type}

structure Netfilter (U : Unicode) (σ : Type) where
  allow : FlowType → NetFlow U → σ → σ × Except Exc Unit
  delete : FlowType → NetFlow U → σ → σ × Except Exc Unit

def Netfilter.kernel (tool : FwTool) (report : Report) : Netfilter U Kernel where
  allow t nflow k := tool.flowSetPolicy report t nflow .allow true .ipv4 k
  delete t nflow k := tool.flowDeletePolicy report t nflow k

structure AllowedIp (U : Unicode) where
  endTtl : ℤ
  outputAllowed : Bool
  flows : List (NetFlow U)

/-- The device of the default route; a name with a comma or a `^` is read as more than a name. -/
structure Device where
  iface : Iface
  plain : ∀ c ∈ iface.text, c ≠ ',' ∧ c ≠ '^' ∧ isSpace c = false

structure Server (U : Unicode) where
  rules : Restrictions U
  outputAllowed : List Pattern
  outIface : Device

structure State (U : Unicode) (σ : Type) where
  netfilter : σ
  allowedIps : Dict Ipv4Addr (AllowedIp U)
  localResolved : List (NetFlow U)

def State.start (k : σ) : State U σ := ⟨k,.empty,[]⟩
def State.call (s : State U σ) (op : σ → σ × Except Exc Unit) : State U σ × Except Exc Unit :=
  ({ s with netfilter := (op s.netfilter).1 },(op s.netfilter).2)

def flowTo (U : Unicode) (expr : Str) (ip : Ipv4Addr) : Except Exc (NetFlow U) := do
  let dest ← Endpoint.fromRepr U expr none
  let nflow ← NetFlow.new (some .unspecified) (some dest)
  return ⟨nflow.src,nflow.dest.addAddress ⟨ip,32,Ipv4Network.hostLength_le⟩⟩

def loadReplies (nf : Netfilter U σ) (spec : Option Str) (replies : List Reply) (k : σ) : σ :=
  replies.foldl (fun k reply =>
    let expr := match spec with
      | some (c :: text) => reply.address.text ++ '^' :: c :: text
      | _ => reply.address.text
    match flowTo U expr reply.address with
    | .error _ => k
    | .ok nflow => (nf.allow .filterOutput nflow k).1) k

section
variable (nf : Netfilter U σ) (outputAllowed : List Pattern)

def loadOutput (k : σ) (entry : ResolvEntry) : σ :=
  match entry.action, entry.query, entry.reply with
  | .allow, some query, some replies =>
    if outputAllowed.any fun p => p.isMatch U query then loadReplies nf entry.spec replies k else k
  | _, _, _ => k

def loadResolvRules (entries : List ResolvEntry) (k : σ) : Restrictions U × σ :=
  entries.foldl (fun r entry => (loadRestriction r.1 entry,loadOutput nf outputAllowed r.2 entry)) (.empty,k)

theorem loadResolvRules_fst (entries : List ResolvEntry) (k : σ) :
    (loadResolvRules nf outputAllowed entries k).1 = loadRestrictions U entries := by
  unfold loadResolvRules loadRestrictions
  generalize (Dict.empty : Restrictions U) = rules
  induction entries generalizing rules k with
  | nil => rfl
  | cons entry entries ih => exact ih _ _

end

def invalidTtl (ttl : ℤ) : Exc := .prog ("Invalid TTL of " ++ intText ttl)
def unknownCommand : Exc := .prog "unknown command"

def Pattern.matchJson (U : Unicode) (query : Json) (p : Pattern) : Except Exc Bool :=
  match query with
  | .str s => .ok (p.isMatch U s)
  | _ => .error (.fault .type)

def firstRestriction (U : Unicode) (query : Json) : List (Pattern × List (Spec U)) → Except Exc (List (Spec U))
  | [] => .ok []
  | (p,specs) :: rules => do if ← p.matchJson U query then return specs else firstRestriction U query rules

def Server.destEndpoints (srv : Server U) (specs : List (Spec U)) : List Str :=
  if specs.isEmpty then ['#' :: srv.outIface.iface.text]
  else specs.map fun spec => '#' :: srv.outIface.iface.text ++ " ^ " ++ spec.text

def ipv4Address (j : Json) : Except Exc Ipv4Addr :=
  match j with
  | .str s =>
    match Ipv4Addr.parse s with
    | some ip => .ok ip
    | none => .error .value
  | j =>
    match j.asInt with
    | some n => if 0 ≤ n ∧ n < 2 ^ 32 then .ok (Reference.ofValue n.toNat) else .error .value
    | none => .error .value

def readRecord (U : Unicode) (resolv : Json) : Except Exc (ℤ × Option Ipv4Addr) := do
  let ttl ← intOf U (← onJson (resolv.getOr "TTL" (.num 0)))
  if ttl < 0 then throw (invalidTtl ttl)
  match ← onJson (resolv.get "A") with
  | none => return (ttl,none)
  | some record => return (ttl,some (← ipv4Address record))

def gracePeriod : ℤ := 1800
def endOf (now ttl : ℤ) : ℤ := now + min ttl 86400 + gracePeriod

def State.addNetflow (s : State U σ) (ip : Ipv4Addr) (nflow : NetFlow U) : State U σ :=
  match s.allowedIps.get ip with
  | none => s
  | some a => { s with allowedIps := s.allowedIps.set ip { a with flows := a.flows ++ [nflow] } }

def openFlow (nf : Netfilter U σ) (ip : Ipv4Addr) (outputAllowed : Bool) (expr : Str) (s : State U σ) :
    State U σ × Except Exc Unit :=
  given (flowTo U expr ip) s fun nflow =>
    andThen ((s.addNetflow ip nflow).call (nf.allow .filterForward nflow)) fun s =>
      if outputAllowed then s.call (nf.allow .filterOutput nflow) else (s,.ok ())

section
variable (nf : Netfilter U σ) (srv : Server U) (now : ℤ)

def resolveIp (query : Json) (exprs : List Str) (ttl : ℤ) (ip : Ipv4Addr)
    (s : State U σ) : State U σ × Except Exc Unit :=
  match s.allowedIps.get ip with
  | some a => ({ s with allowedIps := s.allowedIps.set ip { a with endTtl := endOf now ttl } },.ok ())
  | none =>
    given (anyOf (Pattern.matchJson U query) srv.outputAllowed) s fun outputAllowed =>
      each (openFlow nf ip outputAllowed) exprs
        { s with allowedIps := s.allowedIps.set ip ⟨endOf now ttl,outputAllowed,[]⟩ }

def resolveRecord (query : Json) (exprs : List Str) (resolv : Json) (s : State U σ) : State U σ × Except Exc Unit :=
  given (readRecord U resolv) s fun r =>
    match r.2 with
    | none => (s,.ok ())
    | some ip => resolveIp nf srv now query exprs r.1 ip s

def handleQuery (command : Json) (s : State U σ) : State U σ × Except Exc Unit :=
  given (onJson (command.index "query")) s fun query =>
    given (onJson (command.index "resolv")) s fun resolv =>
      given (firstRestriction U query srv.rules.entries) s fun specs =>
        given (onJson resolv.elements) s fun records =>
          each (resolveRecord nf srv now query (srv.destEndpoints specs)) records s

end

def resolverFlow (U : Unicode) (resolver : Json) : Except Exc (NetFlow U) :=
  match resolver with
  | .str text =>
    match text.splitOn ':' with
    | [ip,port] => do
      let dest ← Endpoint.fromRepr U (ip ++ " ^ tcp,udp ^ " ++ port) none
      NetFlow.new (some .unspecified) (some dest)
    | _ => .error .value
  | _ => .error (.fault .attribute)

def localFlow (U : Unicode) (ip : Ipv4Addr) (spec : Json) : Except Exc (NetFlow U) := do
  let expr := match spec with
    | .null => ip.text
    | spec => ip.text ++ " ^ " ++ spec.format
  let dest ← Endpoint.fromRepr U expr none
  NetFlow.new (some .unspecified) (some dest)

def localFlows (U : Unicode) (ip : Ipv4Addr) : List Json → List (NetFlow U)
  | [] => []
  | spec :: specs =>
    match localFlow U ip spec with
    | .error _ => []
    | .ok nflow => nflow :: localFlows U ip specs

def newResolved (U : Unicode) (fields : List (Str × Json)) : List (NetFlow U) :=
  fields.flatMap fun field =>
    match Ipv4Addr.parse field.1, field.2.elements with
    | some ip, .ok specs => localFlows U ip specs
    | _, _ => []

def absentFrom (known flows : List (NetFlow U)) : Except Exc (List (NetFlow U)) :=
  collectSome (fun nflow =>
    do return if ← anyOf (fun g => NetFlow.isEqualTo g nflow) known then none else some nflow) flows

def handleLocalResolved (nf : Netfilter U σ) (resolved : Json) (s : State U σ) : State U σ × Except Exc Unit :=
  match resolved with
  | .obj fields =>
    let new := newResolved U fields
    given (absentFrom s.localResolved new) s fun added =>
      andThen (each (fun nflow s => s.call (nf.allow .filterForward nflow)) added s) fun s =>
        given (absentFrom new s.localResolved) s fun removed =>
          andThen (each (fun nflow s => s.call (nf.delete .filterForward nflow)) removed s) fun s =>
            ({ s with localResolved := new },.ok ())
  | _ => (s,.error (.fault .attribute))

def handleCommand (nf : Netfilter U σ) (srv : Server U) (now : ℤ) (command : Json) (s : State U σ) :
    State U σ × Except Exc Unit :=
  given (onJson (command.has "query")) s fun isQuery =>
    if isQuery then handleQuery nf srv now command s
    else
      given (onJson (command.has "add-resolver")) s fun isAdd =>
        if isAdd then
          given (onJson (command.index "add-resolver")) s fun resolver =>
            given (resolverFlow U resolver) s fun nflow => s.call (nf.allow .filterOutput nflow)
        else
          given (onJson (command.has "del-resolver")) s fun isDel =>
            if isDel then
              given (onJson (command.index "del-resolver")) s fun resolver =>
                given (resolverFlow U resolver) s fun nflow => s.call (nf.delete .filterOutput nflow)
            else
              given (onJson (command.has "local-resolved")) s fun isLocal =>
                if isLocal then
                  given (onJson (command.index "local-resolved")) s fun resolved => handleLocalResolved nf resolved s
                else (s,.error unknownCommand)

/-- The policies of a flow are deleted; an exception ends the deletion of this flow. -/
def deleteFlow (nf : Netfilter U σ) (outputAllowed : Bool) (k : σ) (nflow : NetFlow U) : σ :=
  match nf.delete .filterForward nflow k with
  | (k,.error _) => k
  | (k,.ok _) => if outputAllowed then (nf.delete .filterOutput nflow k).1 else k

def AllowedIp.isExpired (now : ℤ) (a : AllowedIp U) : Bool := decide (a.endTtl ≤ now)

def handleExpired (nf : Netfilter U σ) (now : ℤ) (s : State U σ) : State U σ :=
  { s with
    netfilter := s.allowedIps.entries.foldl
      (fun k e => if e.2.isExpired now then e.2.flows.foldl (deleteFlow nf e.2.outputAllowed) k else k) s.netfilter
    allowedIps := s.allowedIps.filter fun a => !a.isExpired now }

section
variable (dev : Device) (ps : List Protocol) (qs : List Port) (rs : List (PortRange U)) (ip : Ipv4Addr)

def flowBehind : NetFlow U :=
  ⟨.unspecified,⟨[.address ip],some dev.iface,ps,qs,rs,Or.inl (by simp)⟩⟩

theorem items_device {blank : Str} (hb : ∀ c ∈ blank, isSpace c = true) :
    (('#' :: dev.iface.text ++ blank).splitOn ',').map strip = ['#' :: dev.iface.text] := by
  have hco : ',' ∉ '#' :: dev.iface.text ++ blank := by
    intro hmem
    rcases mem_append.1 hmem with hmem | hmem
    · rcases mem_cons.1 hmem with h | h
      · cases h
      · exact (dev.plain _ h).1 rfl
    · exact absurd (hb _ hmem) (by decide)
  have hs : ∀ c ∈ '#' :: dev.iface.text, isSpace c = false :=
    forall_mem_cons.2 ⟨by decide,fun c hc => (dev.plain c hc).2.2⟩
  rw [splitOn_eq_singleton hco,map_singleton,strip_append_right hb,strip_of_solid hs]

theorem readZones_device : readZones U none ['#' :: dev.iface.text] = .ok (some dev.iface,[]) := by
  have hi : readItem U ('#' :: dev.iface.text) = .ok (.inl dev.iface) := by
    rw [readItem, if_neg (by simp), if_pos rfl, dif_pos dev.iface.short]
  rw [readZones,hi]
  rfl

theorem caret_not_mem_device : '^' ∉ '#' :: dev.iface.text := by
  intro hmem
  rcases mem_cons.1 hmem with h | h
  · cases h
  · exact (dev.plain _ h).2.1 rfl

theorem flowTo_of_fromRepr {expr : Str} {dev : Device} {ps : List Protocol} {qs : List Port} {rs : List (PortRange U)}
    (h : Endpoint.fromRepr U expr none = .ok (.ofParts [] (some dev.iface) ps qs rs)) (ip : Ipv4Addr) :
    flowTo U expr ip = .ok (flowBehind dev ps qs rs ip) := by
  have hp : (Endpoint.ofParts [] (some dev.iface) ps qs rs : Endpoint U) = ⟨[],some dev.iface,ps,qs,rs,
    Or.inr (by simp)⟩ :=
    dif_neg (by simp)
  refine bind_eq_ok.2 ⟨_,h,bind_eq_ok.2 ⟨⟨.unspecified,_⟩,bind_eq_ok.2 ⟨(),if_neg (fun h => h.1 rfl),rfl⟩,?_⟩⟩
  simp only [Option.getD_some,hp]
  rfl

theorem flowTo_device : flowTo U ('#' :: dev.iface.text) ip = .ok (flowBehind dev [] [] [] ip) := by
  have hs : ∀ c ∈ '#' :: dev.iface.text, isSpace c = false :=
    forall_mem_cons.2 ⟨by decide,fun c hc => (dev.plain c hc).2.2⟩
  have hi : (('#' :: dev.iface.text ++ []).splitOn ',').map strip = ['#' :: dev.iface.text] := items_device dev nofun
  rw [append_nil] at hi
  apply flowTo_of_fromRepr
  rw [Endpoint.fromRepr, strip_of_solid hs, if_neg (by simp), splitOn_eq_singleton (caret_not_mem_device dev)]
  exact new_of_parts rfl (hi ▸ readZones_device dev) rfl

theorem flowTo_spec (spec : Spec U) (ip : Ipv4Addr) : flowTo U ('#' :: dev.iface.text ++ " ^ " ++ spec.text) ip =
      .ok (flowBehind dev spec.endpoint.protocols spec.endpoint.ports spec.endpoint.portRanges ip) := by
  have hb : ∀ c ∈ [' '], isSpace c = true := by
    intro c hc
    rw [mem_singleton.1 hc]
    decide
  have ht : '#' :: dev.iface.text ++ " ^ " ++ spec.text =
      '#' :: (dev.iface.text ++ [' ']) ++ '^' :: ' ' :: spec.text := by simp
  have hca : '^' ∉ '#' :: (dev.iface.text ++ [' ']) := by
    rw [← cons_append,mem_append,not_or]
    exact ⟨caret_not_mem_device dev,by simp⟩
  rw [ht]
  exact flowTo_of_fromRepr (spec.fromRepr_zone (by decide) hca (items_device dev hb ▸ readZones_device dev)) ip

end

def Server.specsFor (srv : Server U) (query : Str) : List (Spec U) :=
  ((srv.rules.entries.find? fun e => e.1.isMatch U query).map Prod.snd).getD []

section
variable (srv : Server U) (query : Str) (ip : Ipv4Addr)

def Server.flows : List (NetFlow U) :=
  if (srv.specsFor query).isEmpty then [flowBehind srv.outIface [] [] [] ip]
  else (srv.specsFor query).map fun spec =>
    flowBehind srv.outIface spec.endpoint.protocols spec.endpoint.ports spec.endpoint.portRanges ip

theorem Server.flows_ne_nil : srv.flows query ip ≠ [] := by
  unfold flows
  split
  · simp
  · rename_i h
    simpa using h

theorem Server.map_flowTo :
    (srv.destEndpoints (srv.specsFor query)).map (fun expr => flowTo U expr ip) = (srv.flows query ip).map .ok := by
  unfold destEndpoints flows
  split
  · simp only [map_singleton,flowTo_device]
  · simp only [map_map,map_inj_left,Function.comp_apply]
    exact fun spec _ => flowTo_spec srv.outIface spec ip

theorem firstRestriction_str (rules : List (Pattern × List (Spec U))) : firstRestriction U (.str query) rules =
    .ok (((rules.find? fun e => e.1.isMatch U query).map Prod.snd).getD []) := by
  induction rules with
  | nil => rfl
  | cons e rules ih =>
    obtain ⟨p,specs⟩ := e
    rw [firstRestriction,find?_cons]
    change (if p.isMatch U query = true then _ else _) = _
    cases p.isMatch U query with
    | false => exact ih
    | true => rfl

end

structure Record where
  ttl : ℕ
  a : Option Ipv4Addr
  aaaa : Option Str

structure Query where
  name : Str
  resolv : List Record

def Record.json (r : Record) : Json :=
  .obj [("TTL",.num r.ttl),("A",(r.a.map fun ip => Json.str ip.text).getD .null),
    ("AAAA",(r.aaaa.map Json.str).getD .null)]

def Query.json (q : Query) : Json :=
  .obj [("query",.str q.name),("resolv",.arr (q.resolv.map Record.json))]
def Query.resolved (q : Query) : List (ℕ × Ipv4Addr) := q.resolv.filterMap fun r => r.a.map fun ip => (r.ttl,ip)

theorem readRecord_json (r : Record) : readRecord U r.json = .ok ((r.ttl : ℤ),r.a) := by
  have hp : ¬ ((r.ttl : ℤ) < 0) := by omega
  have hr : ∀ ip : Ipv4Addr, ipv4Address (.str ip.text) = .ok ip := by
    intro ip
    simp only [ipv4Address,Ipv4Addr.parse_text]
  refine bind_eq_ok.2 ⟨.num r.ttl,rfl,bind_eq_ok.2 ⟨(r.ttl : ℤ),rfl,?_⟩⟩
  rw [if_neg hp]
  cases ha : r.a with
  | none => exact bind_eq_ok.2 ⟨none,by rw [Record.json,ha]; rfl,rfl⟩
  | some ip =>
    refine bind_eq_ok.2 ⟨some (.str ip.text),by rw [Record.json,ha]; rfl,?_⟩
    exact bind_eq_ok.2 ⟨ip,hr ip,rfl⟩

section
variable (nf : Netfilter U σ) (srv : Server U) (now : ℤ)

theorem handleCommand_json (q : Query) (s : State U σ) : handleCommand nf srv now q.json s =
      each (resolveRecord nf srv now (.str q.name) (srv.destEndpoints (srv.specsFor q.name)))
        (q.resolv.map Record.json) s := by
  have hrules : firstRestriction U (.str q.name) srv.rules.entries = .ok (srv.specsFor q.name) :=
    firstRestriction_str _ _
  change given (firstRestriction U (.str q.name) srv.rules.entries) s _ = _
  rw [hrules]
  rfl

def allowFlow (outputAllowed : Bool) (k : σ) (nflow : NetFlow U) : σ :=
  if outputAllowed then (nf.allow .filterOutput nflow (nf.allow .filterForward nflow k).1).1
    else (nf.allow .filterForward nflow k).1
def Server.isOutputAllowed (query : Str) : Bool := srv.outputAllowed.any fun p => p.isMatch U query

def grant (query : Str) (s : State U σ) (x : ℕ × Ipv4Addr) : State U σ :=
  match s.allowedIps.get x.2 with
  | some a => { s with allowedIps := s.allowedIps.set x.2 { a with endTtl := endOf now x.1 } }
  | none =>
    { s with
      netfilter := (srv.flows query x.2).foldl (allowFlow nf (srv.isOutputAllowed query)) s.netfilter
      allowedIps := s.allowedIps.set x.2 ⟨endOf now x.1,srv.isOutputAllowed query,srv.flows query x.2⟩ }

end

theorem anyOf_matchJson (query : Str) (ps : List Pattern) :
    anyOf (Pattern.matchJson U (.str query)) ps = .ok (ps.any fun p => p.isMatch U query) := by
  induction ps with
  | nil => rfl
  | cons p ps ih =>
    rw [anyOf,any_cons]
    change (if p.isMatch U query = true then _ else _) = _
    cases p.isMatch U query with
    | false => exact ih
    | true => rfl

section
variable {nf : Netfilter U σ} {p : σ → Prop} {good : NetFlow U → Prop}

def Accepts (nf : Netfilter U σ) (p : σ → Prop) (good : NetFlow U → Prop) : Prop :=
  ∀ t nflow k, good nflow → p k → (nf.allow t nflow k).2 = .ok () ∧ p (nf.allow t nflow k).1

theorem allowFlow_keeps (h : Accepts nf p good) {nflow : NetFlow U} (hg : good nflow) {k : σ} (hk : p k) (out : Bool) :
    p (allowFlow nf out k nflow) := by
  have hf := (h .filterForward nflow k hg hk).2
  unfold allowFlow
  split
  · exact (h .filterOutput nflow _ hg hf).2
  · exact hf

theorem openFlow_eq (h : Accepts nf p good) {ip : Ipv4Addr} {out : Bool} {expr : Str} {nflow : NetFlow U}
    (hf : flowTo U expr ip = .ok nflow) (hg : good nflow) {k : σ} (hk : p k) (t : Dict Ipv4Addr (AllowedIp U))
      (a : AllowedIp U)
    (resolved : List (NetFlow U)) :
    openFlow nf ip out expr ⟨k,t.set ip a,resolved⟩ =
      (⟨allowFlow nf out k nflow,t.set ip { a with flows := a.flows ++ [nflow] },resolved⟩,.ok ()) := by
  have ha : State.addNetflow ⟨k,t.set ip a,resolved⟩ ip nflow =
      ⟨k,t.set ip { a with flows := a.flows ++ [nflow] },resolved⟩ := by
    simp only [State.addNetflow,Dict.get_set,if_pos,Dict.set_set]
  obtain ⟨hfo,hk'⟩ := h .filterForward nflow k hg hk
  obtain ⟨ho,_⟩ := h .filterOutput nflow _ hg hk'
  rw [openFlow,hf]
  simp only [given,ha,State.call,hfo,andThen,ho,allowFlow]
  cases out <;> rfl

theorem each_openFlow_eq (h : Accepts nf p good) {ip : Ipv4Addr} {out : Bool} {exprs : List Str}
    {flows : List (NetFlow U)}
    (hfl : exprs.map (fun expr => flowTo U expr ip) = flows.map .ok) (hg : ∀ nflow ∈ flows, good nflow)
      {k : σ} (hk : p k)
    (t : Dict Ipv4Addr (AllowedIp U)) (a : AllowedIp U) (resolved : List (NetFlow U)) :
    each (openFlow nf ip out) exprs ⟨k,t.set ip a,resolved⟩ =
        (⟨flows.foldl (allowFlow nf out) k,t.set ip { a with flows := a.flows ++ flows },resolved⟩,.ok ()) ∧
      p (flows.foldl (allowFlow nf out) k) := by
  induction exprs generalizing flows k a with
  | nil =>
    obtain rfl : flows = [] := map_eq_nil_iff.1 hfl.symm
    rw [append_nil]
    exact ⟨rfl,hk⟩
  | cons expr exprs ih =>
    obtain ⟨nflow,flows,rfl⟩ := exists_cons_of_ne_nil (l := flows) (by rintro rfl; cases hfl)
    obtain ⟨hflo,hrest⟩ := cons.inj hfl
    have hfirst := hg nflow mem_cons_self
    rw [each,openFlow_eq h hflo hfirst hk]
    have hn := ih hrest (fun f hf => hg f (mem_cons_of_mem _ hf)) (allowFlow_keeps h hfirst hk out)
      { a with flows := a.flows ++ [nflow] }
    simp only [append_assoc,singleton_append] at hn
    exact hn

theorem resolveIp_eq (h : Accepts nf p good) (srv : Server U) (now : ℤ) {query : Str} {ip : Ipv4Addr}
    (hg : ∀ nflow ∈ srv.flows query ip, good nflow) (ttl : ℕ) {s : State U σ} (hs : p s.netfilter) :
    resolveIp nf srv now (.str query) (srv.destEndpoints (srv.specsFor query)) ttl ip s =
        (grant nf srv now query s (ttl,ip),.ok ()) ∧ p (grant nf srv now query s (ttl,ip)).netfilter := by
  have hm : anyOf (Pattern.matchJson U (.str query)) srv.outputAllowed = .ok (srv.isOutputAllowed query) :=
    anyOf_matchJson query srv.outputAllowed
  unfold resolveIp grant
  cases s.allowedIps.get ip with
  | some a => exact ⟨rfl,hs⟩
  | none =>
    obtain ⟨he,hp⟩ := each_openFlow_eq h (srv.map_flowTo query ip) hg hs s.allowedIps
      ⟨endOf now ttl,srv.isOutputAllowed query,[]⟩ s.localResolved
    simp only [hm,given]
    exact ⟨he,hp⟩

/-- A query command whose flows are all allowed grants its addresses one after the other. -/
theorem handleCommand_eq (h : Accepts nf p good) (srv : Server U) (now : ℤ) (q : Query)
    (hg : ∀ x ∈ q.resolved, ∀ nflow ∈ srv.flows q.name x.2, good nflow) {s : State U σ} (hs : p s.netfilter) :
    handleCommand nf srv now q.json s = (q.resolved.foldl (grant nf srv now q.name) s,.ok ()) ∧
      p (q.resolved.foldl (grant nf srv now q.name) s).netfilter := by
  rw [handleCommand_json]
  unfold Query.resolved at hg ⊢
  generalize q.resolv = resolv at hg ⊢
  induction resolv generalizing s with
  | nil => exact ⟨rfl,hs⟩
  | cons r resolv ih =>
    have hr : ∀ s', resolveRecord nf srv now (.str q.name) (srv.destEndpoints (srv.specsFor q.name)) r.json s' =
        match r.a with
        | none => (s',.ok ())
        | some ip => resolveIp nf srv now (.str q.name) (srv.destEndpoints (srv.specsFor q.name)) r.ttl ip s' := by
      intro s'
      rw [resolveRecord,readRecord_json]
      rfl
    rw [map_cons,each,hr]
    cases ha : r.a with
    | none =>
      simp only [filterMap_cons,ha,Option.map_none] at hg ⊢
      exact ih hs hg
    | some ip =>
      simp only [filterMap_cons,ha,Option.map_some] at hg ⊢
      obtain ⟨hfirst,hrest⟩ := forall_mem_cons.1 hg
      obtain ⟨heq,hp⟩ := resolveIp_eq h srv now hfirst r.ttl hs
      simp only [heq]
      exact ih hp hrest

end

end Padsi.Dns
