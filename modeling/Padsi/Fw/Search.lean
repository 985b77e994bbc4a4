import Padsi.Fw.NetFlow

/-! # The search for a rule

Every match expression of a rule completes an empty flow, which is then compared with
the flow that is looked for.
-/
namespace Padsi.Fw
open Text Net Python

variable {U : Unicode}

inductive Policy where
  | allow
  | deny
deriving DecidableEq, Repr

def Policy.keyword : Policy → Str
  | .allow => "accept"
  | .deny => "drop"

inductive Family where
  | ipv4
  | ipv6
  | inet
deriving DecidableEq, Repr

def Family.value : Family → Str
  | .ipv4 => "ip"
  | .ipv6 => "ip6"
  | .inet => "inet"

structure LogSpec where
  prefixText : Str
  group : Option ℤ
deriving DecidableEq

def LogSpec.getNftArgs (l : LogSpec) : List Str :=
  match l.group with
  | none => ["log","prefix",'"' :: l.prefixText ++ " \""]
  | some g => ["log","prefix",'"' :: l.prefixText ++ ['"'],"group",intText g]

def onJson {α : Type} : Except Fault α → Except Exc α
  | .ok a => .ok a
  | .error f => .error (.fault f)

def unhandledAddress (data : Json) : Exc :=
  .firewall ("Unhandled nft json's address formatted as: " ++ data.format)
def leftNotDict (left : Json) : Exc :=
  .firewall ("Code bug: expected left argument as dict, got " ++ left.format)
def unknownProtocol (right : Json) : Exc :=
  .firewall ("Unknown protocol ID '" ++ right.format ++ "', please update the protocols.py file")
def manyStatements : Exc := .firewall "Can't handle multiple statement in rule"

def readInterface (s : Str) : Except Exc Ipv4Network :=
  match interface s with
  | some n => .ok n
  | none => .error .value

def addrToObject (data : Json) : Except Exc Ipv4Network :=
  match data with
  | .str s => readInterface s
  | .obj fields =>
    match Json.field "prefix" fields with
    | none => .error (unhandledAddress data)
    | some addrdata => do
      if (← onJson (addrdata.has "addr")) then
        if (← onJson (addrdata.has "len")) then
          let addr ← onJson (addrdata.index "addr")
          let len ← onJson (addrdata.index "len")
          readInterface (addr.format ++ '/' :: len.format)
        else throw (unhandledAddress data)
      else throw (unhandledAddress data)
  | _ => .error (unhandledAddress data)

def intOf (U : Unicode) : Json → Except Exc ℤ
  | .str s =>
    match int U s with
    | some n => .ok n
    | none => .error .value
  | j =>
    match j.asInt with
    | some n => .ok n
    | none => .error (.fault .type)

def notPort (j : Json) : Exc := .firewall ("invalid port " ++ j.format)

def addJsonRange (e : Endpoint U) (first last : Json) : Except Exc (Endpoint U) :=
  match first.asInt with
  | none => .error (notPort first)
  | some p =>
    if ¬ ValidPort p then .error (invalidPortNumber p)
    else
      match last.asInt with
      | none => .error (notPort last)
      | some q => e.addPortrange p q

def addPortItem (e : Endpoint U) (item : Json) : Except Exc (Endpoint U) :=
  match item.asInt with
  | some p => e.addPort p
  | none =>
    match item with
    | .obj fields =>
      match Json.field "range" fields with
      | none => .ok e
      | some range => do
        let first ← onJson (range.item 0)
        let last ← onJson (range.item 1)
        addJsonRange e first last
    | _ => .ok e

def addPortItems (e : Endpoint U) : List Json → Except Exc (Endpoint U)
  | [] => .ok e
  | item :: items => do addPortItems (← addPortItem e item) items

def addPorts (e : Endpoint U) (right : Json) : Except Exc (Endpoint U) :=
  let single : Except Exc (Endpoint U) := do e.addPort (← intOf U right)
  match right with
  | .obj fields =>
    match Json.field "set" fields with
    | some set => do addPortItems e (← onJson set.elements)
    | none => single
  | _ => single

def protocolOfId (n : ℤ) : Option Protocol :=
  if n = 1 then some .icmp else if n = 6 then some .tcp else if n = 17 then some .udp else none

def protocolOf (U : Unicode) (right : Json) : Except Exc Protocol :=
  let found :=
    match right with
    | .str s =>
      match int U s with
      | some n => protocolOfId n
      | none => readProtocol s
    | j => j.asInt.bind protocolOfId
  match found with
  | some p => .ok p
  | none => .error (unknownProtocol right)

def matchTransport (nflow : NetFlow U) (proto : Str) (name : Option Json) (right : Json) :
    Except Exc (NetFlow U × Bool) := do
  if name.any (Json.isStr "sport") then
    let src ← nflow.src.addProtocol proto
    return ({ nflow with src := ← addPorts src right },true)
  else if name.any (Json.isStr "dport") then
    let dest ← nflow.dest.addProtocol proto
    return ({ nflow with dest := ← addPorts dest right },true)
  else return (nflow,false)

def matchIp (nflow : NetFlow U) (name : Option Json) (right : Json) : Except Exc (NetFlow U × Bool) := do
  if name.any (Json.isStr "protocol") then
    let p ← protocolOf U right
    let src ← nflow.src.addProtocol p.text
    let dest ← nflow.dest.addProtocol p.text
    return (⟨src,dest⟩,true)
  else if name.any (Json.isStr "daddr") then
    return ({ nflow with dest := nflow.dest.addAddress (← addrToObject right) },true)
  else if name.any (Json.isStr "saddr") then
    return ({ nflow with src := nflow.src.addAddress (← addrToObject right) },true)
  else return (nflow,false)

def matchMeta (nflow : NetFlow U) (key : Option Json) (right : Json) : Except Exc (NetFlow U × Bool) := do
  if key.any (Json.isStr "oif") then return ({ nflow with dest := ← nflow.dest.setInterface right },true)
  else if key.any (Json.isStr "iif") then return ({ nflow with src := ← nflow.src.setInterface right },true)
  else return (nflow,false)

def matchNetflow (nflow : NetFlow U) (left right : Json) : Except Exc (NetFlow U × Bool) :=
  match left with
  | .obj fields =>
    match Json.field "meta" fields with
    | some m => do matchMeta nflow (← onJson (m.get "key")) right
    | none =>
      match Json.field "payload" fields with
      | none => .ok (nflow,false)
      | some payload => do
        let protocol ← onJson (payload.get "protocol")
        let name ← onJson (payload.get "field")
        if protocol.any (Json.isStr "udp") then matchTransport nflow "udp" name right
        else if protocol.any (Json.isStr "tcp") then matchTransport nflow "tcp" name right
        else if protocol.any (Json.isStr "ip") then matchIp nflow name right
        else return (nflow,false)
  | _ => .error (leftNotDict left)

/-- The loop over the expressions of a rule; no result stands for `(False, None)`. -/
def matchExprs (cmp : NetFlow U) (policy : Option Policy) : List Json → Except Exc (Option (NetFlow U × Option Policy))
  | [] => .ok (some (cmp,policy))
  | expr :: exprs => do
    if (← onJson (expr.has "match")) then
      let mdata ← onJson (expr.index "match")
      let op ← onJson (mdata.index "op")
      if op.isStr "==" then
        let left ← onJson (mdata.index "left")
        let right ← onJson (mdata.index "right")
        let (cmp,found) ← matchNetflow cmp left right
        if found then matchExprs cmp policy exprs else return none
      else return none
    else if (← onJson (expr.has "drop")) then
      if policy.isSome then throw manyStatements else matchExprs cmp (some .deny) exprs
    else if (← onJson (expr.has "accept")) then
      if policy.isSome then throw manyStatements else matchExprs cmp (some .allow) exprs
    else if (← onJson (expr.has "masquerade")) then matchExprs cmp policy exprs
    else if (← onJson (expr.has "log")) then matchExprs cmp policy exprs
    else return none

def ruleMatchNetflow (rule : Json) (nflow : NetFlow U) : Except Exc (Bool × Option Policy) := do
  let cmp ← NetFlow.new (U := U) none none
  let exprs ← onJson (rule.index "expr")
  match ← matchExprs cmp none (← onJson exprs.elements) with
  | none => return (false,none)
  | some (cmp,policy) =>
    let m ← nflow.isEqualTo cmp
    return (m,if m then policy else none)

/-- The test on the place of a rule. Its first part reads the whole listing `data`, where the
others read the rule. -/
def rightPlace (data rule : Json) (table chain : Str) : Except Exc Bool := do
  if ((← onJson (data.get "table")).any (Json.isStr table)) then
    if ((← onJson (rule.get "family")).any (Json.isStr "ip")) then
      return (← onJson (rule.get "chain")).any (Json.isStr chain)
    else return false
  else return false

def findRuleIn (data : Json) (table chain : Str) (nflow : NetFlow U) :
    List Json → Except Exc (Option Json × Option Policy)
  | [] => .ok (none,none)
  | item :: items => do
    match ← onJson (item.get "rule") with
    | none => findRuleIn data table chain nflow items
    | some rule =>
      if (← rightPlace data rule table chain) then
        let (m,policy) ← ruleMatchNetflow rule nflow
        let handle ← onJson (rule.get "handle")
        if m && handle.isSome then return (handle,policy) else findRuleIn data table chain nflow items
      else findRuleIn data table chain nflow items

def findRule (data : Json) (table chain : Str) (nflow : NetFlow U) : Except Exc (Option Json × Option Policy) := do
  let items ← onJson (data.index "nftables")
  findRuleIn data table chain nflow (← onJson items.elements)

def logsWith (log : Option LogSpec) (expr : Json) : Except Exc Bool := do
  if (← onJson (expr.has "log")) then
    match log with
    | none => return true
    | some l =>
      let entry ← onJson (expr.getOr "log" (.obj []))
      return (← onJson (entry.get "prefix")).any (Json.isStr l.prefixText)
  else return false

def inChain (rule : Json) (table chain : Str) (family : Family) : Except Exc Bool := do
  if ((← onJson (rule.get "table")).any (Json.isStr table)) then
    if ((← onJson (rule.get "family")).any (Json.isStr family.value)) then
      return (← onJson (rule.get "chain")).any (Json.isStr chain)
    else return false
  else return false

def denyLogIn (table chain : Str) (family : Family) (log : Option LogSpec) : List Json → Except Exc (Option Json)
  | [] => .ok none
  | item :: items => do
    match ← onJson (item.get "rule") with
    | none => denyLogIn table chain family log items
    | some rule =>
      if (← inChain rule table chain family) then
        let exprs ← onJson (rule.getOr "expr" (.arr []))
        match ← onJson exprs.elements with
        | [expr] =>
          let handle ← onJson (rule.get "handle")
          if (← logsWith log expr) && handle.isSome then return handle else denyLogIn table chain family log items
        | _ => denyLogIn table chain family log items
      else denyLogIn table chain family log items

def findChainDenyLogRule (data : Json) (table chain : Str) (log : Option LogSpec) (family : Family) :
    Except Exc (Option Json) := do
  let items ← onJson (data.index "nftables")
  denyLogIn table chain family log (← onJson items.elements)

theorem denyLogIn_append_none {items : List (List (Str × Json))} (h : ∀ fields ∈ items, Json.field "rule" fields = none)
    (table chain : Str) (family : Family) (log : Option LogSpec) (rest : List Json) :
    denyLogIn table chain family log (items.map .obj ++ rest) = denyLogIn table chain family log rest := by
  induction items with
  | nil => rfl
  | cons item items ih =>
    rw [List.map_cons,List.cons_append,denyLogIn,Json.get_obj (h item List.mem_cons_self)]
    exact ih fun fields hf => h fields (List.mem_cons_of_mem _ hf)

/-- A listing has one key, which is not the name of a table: no rule is in the right place. -/
theorem rightPlace_eq {items rule : Json} {table chain : Str} :
    rightPlace (.obj [("nftables",items)]) rule table chain = .ok false := rfl

theorem findRuleIn_listing {data : Json} {items : List (List (Str × Json))} {table chain : Str} {nflow : NetFlow U}
    (hp : ∀ rule, rightPlace data rule table chain = .ok false) :
    findRuleIn data table chain nflow (items.map .obj) = .ok (none,none) := by
  induction items with
  | nil => rfl
  | cons item items ih =>
    have hg : ∃ r, Json.get "rule" (.obj item) = .ok r := by
      unfold Json.get
      split
      · split
        · exact ⟨_,rfl⟩
        · exact ⟨_,rfl⟩
      · rename_i h
        exact absurd rfl (h item)
    obtain ⟨r,hr⟩ := hg
    rw [List.map_cons,findRuleIn,hr]
    cases r with
    | none => exact ih
    | some rule =>
      have hru := hp rule
      simp only [onJson,bind,Except.bind,hru]
      exact ih

theorem findRule_listing (items : List (List (Str × Json))) (table chain : Str) (nflow : NetFlow U) :
    findRule (.obj [("nftables",.arr (items.map .obj))]) table chain nflow = .ok (none,none) :=
  findRuleIn_listing fun _ => rightPlace_eq

end Padsi.Fw
