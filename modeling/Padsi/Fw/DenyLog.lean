import Padsi.Fw.Opening

/-! # The rule that logs denied packets

A chain with the policy `DENY` ends with a rule that logs. It is looked for by the
prefix of its log each time the policy changes or another rule is set.
-/
namespace Padsi.Fw
open Text Net Python List Json Rule

variable {U : Unicode}

def Rule.isIn (r : Rule) (family : Family) (table chain handle : Str) : Bool :=
  decide (r.family = family.value ∧ r.table = table ∧ r.chain = chain ∧ Nat.toDigits 10 r.handle = handle)

namespace Kernel

def withRuleIn (k : Kernel) (front rest : List Rule) (hrules : k.rules = front ++ rest) (family : Family)
    (table chain : Str) (expr : List Json) : Kernel :=
  { k with
    rules := front ++ ⟨family.value,table,chain,k.next,expr⟩ :: rest
    next := k.next + 1
    fresh := by
      intro r hr
      rcases mem_append.1 hr with hr | hr
      · exact Nat.lt_succ_of_lt (k.fresh r (hrules ▸ mem_append_left _ hr))
      · rcases mem_cons.1 hr with rfl | hr
        · exact Nat.lt_succ_self _
        · exact Nat.lt_succ_of_lt (k.fresh r (hrules ▸ mem_append_right _ hr)) }

theorem rules_nil (k : Kernel) : k.rules = k.rules ++ [] := (append_nil _).symm

def execIn (report : Report) (k : Kernel) (family : Family) : Command → Option Kernel
  | .add table chain spec => (report spec).map fun expr => k.withRuleIn k.rules [] k.rules_nil family table chain expr
  | .insert table chain handle spec =>
    if k.rules.any (·.isIn family table chain handle) then
      (report spec).map fun expr =>
        k.withRuleIn (k.rules.takeWhile fun r => !r.isIn family table chain handle)
          (k.rules.dropWhile fun r => !r.isIn family table chain handle)
          takeWhile_append_dropWhile.symm family table chain expr
    else none
  | .delete table chain handle =>
    if k.rules.any (·.isIn family table chain handle) then
      some { k with
        rules := k.rules.filter fun r => !r.isIn family table chain handle
        fresh := fun r hr => k.fresh r (mem_of_mem_filter hr) }
    else none

theorem exec_eq (report : Report) (k : Kernel) (c : Command) : k.exec report c = k.execIn report .ipv4 c := by
  cases c <;> rfl

end Kernel

structure Chain where
  family : Family
  table : Str
  name : Str
  handle : ℕ
  policy : Policy

def Chain.isNamed (c : Chain) (family : Family) (table name : Str) : Bool :=
  decide (c.family = family ∧ c.table = table ∧ c.name = name)

def Chain.fields (c : Chain) : List (Str × Json) :=
  [("chain",.obj [("family",.str c.family.value),("table",.str c.table),("name",.str c.name),
    ("handle",.num c.handle),("policy",.str c.policy.keyword)])]

theorem noRule_chains (chains : List Chain) : ∀ fields ∈ chains.map Chain.fields, field "rule" fields = none := by
  intro fields hf
  obtain ⟨c,-,rfl⟩ := mem_map.1 hf
  rfl

structure Nftables where
  chains : List Chain
  rules : List Rule
  next : ℕ
  fresh : ∀ r ∈ rules, r.handle < next

namespace Nftables

def kernel (s : Nftables) : Kernel := ⟨s.chains.map Chain.fields,s.rules,s.next,noRule_chains s.chains,s.fresh⟩
def after (s : Nftables) (k : Kernel) : Nftables := ⟨s.chains,k.rules,k.next,k.fresh⟩

def addChain (s : Nftables) (family : Family) (table name : Str) (policy : Policy) : Nftables :=
  if s.chains.any (·.isNamed family table name) then
    { s with chains := s.chains.map fun c => if c.isNamed family table name then { c with policy := policy } else c }
  else
    { s with
      chains := s.chains ++ [⟨family,table,name,s.next,policy⟩]
      next := s.next + 1
      fresh := fun r hr => Nat.lt_succ_of_lt (s.fresh r hr) }

end Nftables

def unknownKeyword (keyword : Str) : Exc := .firewall ("Unknown Policy keyword '" ++ keyword ++ "'")

def Policy.fromKeyword : Json → Except Exc Policy
  | .str keyword =>
    if keyword.map Char.toLower = "accept" then .ok .allow
    else if keyword.map Char.toLower = "drop" then .ok .deny
    else .error (unknownKeyword keyword)
  | _ => .error (.fault .attribute)

def findChainIn (table chain : Str) (family : Family) : List Json → Except Exc (Option Json × Option Policy)
  | [] => .ok (none,none)
  | item :: items => do
    match ← onJson (item.get "chain") with
    | none => findChainIn table chain family items
    | some data =>
      let inTable := (← onJson (data.get "table")).any (Json.isStr table)
      let inFamily := (← onJson (data.get "family")).any (Json.isStr family.value)
      let named := (← onJson (data.get "name")).any (Json.isStr chain)
      match ← onJson (data.get "handle"), ← onJson (data.get "policy") with
      | some handle, some policy =>
        if inTable && inFamily && named then return (some handle,some (← Policy.fromKeyword policy))
        else findChainIn table chain family items
      | _, _ => findChainIn table chain family items

def findChain (data : Json) (table chain : Str) (family : Family) : Except Exc (Option Json × Option Policy) := do
  let items ← onJson (data.index "nftables")
  findChainIn table chain family (← onJson items.elements)

def hasFields (n : ℕ) (tests : List (Str × (Json → Bool))) : Json → Bool
  | .obj fields => decide (fields.length = n) && tests.all fun x => (Json.field x.1 fields).any x.2
  | _ => false

def xtConntrackMatch : Json → Bool := hasFields 2 [("type",Json.isStr "match"),("name",Json.isStr "conntrack")]

def isStates : Json → Bool
  | .arr [a,b] => Json.isStr "established" a && Json.isStr "related" b
  | _ => false

def nftConntrackMatch : Json → Bool :=
  hasFields 3 [("op",Json.isStr "in"),
    ("left",hasFields 1 [("ct",hasFields 1 [("key",Json.isStr "state")])]),("right",isStates)]

def isConntrack (ruleHandle : Option Json) (expr : Json) : Except Exc Bool :=
  match ruleHandle with
  | none => .ok false
  | some _ => do
    if (← onJson (expr.get "xt")).any xtConntrackMatch then return true
    else return (← onJson (expr.get "match")).any nftConntrackMatch

def relatedExprs (ruleHandle : Option Json) :
    Option Json → Option Policy → List Json → Except Exc (Option Json × Option Policy)
  | handle, policy, [] => .ok (handle,policy)
  | handle, policy, expr :: exprs => do
    let isRelated ← isConntrack ruleHandle expr
    let policy := if ← onJson (expr.has "accept") then some Policy.allow else policy
    let policy := if ← onJson (expr.has "deny") then some Policy.deny else policy
    relatedExprs ruleHandle (if isRelated then ruleHandle else handle) policy exprs

def findRelatedIn (table chain : Str) (family : Family) : List Json → Except Exc (Option Json × Option Policy)
  | [] => .ok (none,none)
  | item :: items => do
    match ← onJson (item.get "rule") with
    | none => findRelatedIn table chain family items
    | some rule =>
      if ← inChain rule table chain family then
        match ← onJson (rule.get "expr") with
        | none => findRelatedIn table chain family items
        | some exprs =>
          match ← relatedExprs (← onJson (rule.get "handle")) none none (← onJson exprs.elements) with
          | (some handle,some policy) => return (some handle,some policy)
          | _ => findRelatedIn table chain family items
      else findRelatedIn table chain family items

def findRelated (data : Json) (table chain : Str) (family : Family) : Except Exc (Option Json × Option Policy) := do
  let items ← onJson (data.index "nftables")
  findRelatedIn table chain family (← onJson items.elements)

def splitName (name : Str) : Except Exc Unit :=
  if '_' ∈ name ∧ (name.splitOn '_').length ≠ 2 then .error .value else .ok ()
def logNotSet : Exc := .firewall "Could not set deny log as global chain rule"
def logNotRemoved : Exc := .firewall "Could not remove deny log as global chain rule"
def relatedFailed (what table chain : Str) : Exc :=
  .firewall ("Could not " ++ what ++ " related connections policy in table '" ++ table ++ "', chain '" ++ chain ++ "'")

namespace FwTool

section
variable (tool : FwTool) (report : Report) (table chain : Str) (policy : Policy) (family : Family) (s : Nftables)

def adaptLog : Nftables × Except Exc Unit :=
  match findChainDenyLogRule s.kernel.listing table chain tool.log family with
  | .error e => (s,.error e)
  | .ok h =>
    match policy, tool.log, h with
    | .deny, some log, none =>
      match s.kernel.execIn report family (.add table chain log.getNftArgs) with
      | none => (s,.error logNotSet)
      | some k => (s.after k,.ok ())
    | .deny, _, _ => (s,.ok ())
    | .allow, _, none => (s,.ok ())
    | .allow, none, some _ => (s,.error (.prog "AssertionError"))
    | .allow, some _, some h =>
      match s.kernel.execIn report family (.delete table chain h.format) with
      | none => (s,.error logNotRemoved)
      | some k => (s.after k,.ok ())

def createChain : Nftables × Except Exc Unit :=
  match findChain s.kernel.listing table chain family with
  | .error e => (s,.error e)
  | .ok (_,cpolicy) =>
    match splitName table, splitName chain with
    | .error e, _ => (s,.error e)
    | _, .error e => (s,.error e)
    | .ok _, .ok _ =>
      let s' := s.addChain family table chain policy
      if cpolicy = some policy then (s',.ok ()) else tool.adaptLog report table chain policy family s'

def setDefaultPolicy (t : FlowType) (policy : Policy) (family : Family) (s : Nftables) :
    Nftables × Except Exc Unit := tool.createChain report (tool.tableOf t) (tool.chainOf t) policy family s
def relatedWords : List Str := ["ct".toList,"state".toList,"related,established".toList] ++ [policy.keyword]

end

def setRelatedConnectionsPolicy (tool : FwTool) (report : Report) (t : FlowType) (policy : Policy)
    (family : Family) (s : Nftables) : Nftables × Except Exc Unit :=
  let table := tool.tableOf t
  let chain := tool.chainOf t
  match findRelated s.kernel.listing table chain family with
  | .error e => (s,.error e)
  | .ok (handle,cpolicy) =>
    if cpolicy = some policy then (s,.ok ())
    else
      match cpolicy with
      | none =>
        match findChainDenyLogRule s.kernel.listing table chain tool.log family with
        | .error e => (s,.error e)
        | .ok h =>
          match s.kernel.execIn report family (newRule table chain h (relatedWords policy)) with
          | none => (s,.error (relatedFailed "set" table chain))
          | some k => (s.after k,.ok ())
      | some _ =>
        let h := (handle.getD .null).format
        match s.kernel.execIn report family (.insert table chain h (relatedWords policy)) with
        | none => (s,.error (relatedFailed "insert" table chain))
        | some k =>
          match k.execIn report family (.delete table chain h) with
          | none => (s.after k,.error (relatedFailed "delete" table chain))
          | some k' => (s.after k',.ok ())

end FwTool

/-- The calls on flows are for IPv4. -/
inductive PolicyCall (U : Unicode) where
  | setDefault (t : FlowType) (policy : Policy) (family : Family)
  | setRelated (t : FlowType) (policy : Policy) (family : Family)
  | flowSet (t : FlowType) (nflow : NetFlow U) (policy : Policy) (logIfDeny : Bool)
  | flowDelete (t : FlowType) (nflow : NetFlow U)

def PolicyCall.run (tool : FwTool) (report : Report) (s : Nftables) : PolicyCall U → Nftables
  | .setDefault t policy family => (tool.setDefaultPolicy report t policy family s).1
  | .setRelated t policy family => (tool.setRelatedConnectionsPolicy report t policy family s).1
  | .flowSet t nflow policy logIfDeny => s.after (tool.flowSetPolicy report t nflow policy logIfDeny .ipv4 s.kernel).1
  | .flowDelete t nflow => s.after (tool.flowDeletePolicy report t nflow s.kernel).1

def runPolicies (tool : FwTool) (report : Report) (s : Nftables) (calls : List (PolicyCall U)) : Nftables :=
  calls.foldl (PolicyCall.run tool report) s

def Rule.CatchAll (r : Rule) : Prop := ∃ fields entry, r.expr = [.obj fields] ∧ Json.field "log" fields = some entry

def Rule.verdict (r : Rule) : Option Policy :=
  match r.expr.getLast? with
  | some (.obj [(keyword,.null)]) =>
    if keyword = Policy.allow.keyword then some .allow else if keyword = Policy.deny.keyword then some .deny else none
  | _ => none

def Nftables.rulesOf (s : Nftables) (family : Family) (table chain : Str) : List Rule :=
  s.rules.filter fun r => decide (r.family = family.value ∧ r.table = table ∧ r.chain = chain)

def traverse (hits : Rule → Bool) : List Rule → List Rule × Option Policy
  | [] => ([],none)
  | r :: rules =>
    if hits r then
      match r.verdict with
      | some v => ([r],some v)
      | none => (r :: (traverse hits rules).1,(traverse hits rules).2)
    else traverse hits rules

def LogsLast (rules : List Rule) : Prop := ∃ front r, rules = front ++ [r] ∧ r.CatchAll ∧ ∀ x ∈ front, ¬x.CatchAll

structure TidyChain (rules : List Rule) (policy : Policy) : Prop where
  deny : policy = .deny → LogsLast rules
  allow : policy = .allow → ∀ r ∈ rules, ¬r.CatchAll
  /-- A packet that a rule accepts meets no rule that logs or denies. -/
  unlogged : ∀ hits, (traverse hits rules).2 = some .allow → ∀ r ∈ (traverse hits rules).1, ¬r.CatchAll ∧
    r.verdict ≠ some .deny

def Nftables.Tidy (s : Nftables) : Prop := ∀ c ∈ s.chains, TidyChain (s.rulesOf c.family c.table c.name) c.policy

structure Nftables.New (s : Nftables) : Prop where
  empty : s.rules = []
  allow : ∀ c ∈ s.chains, c.policy = .allow
  distinct : (s.chains.map fun c => (c.family,c.table,c.name)).Nodup

def LogSpec.given (l : LogSpec) : Str :=
  match l.group with
  | none => l.prefixText ++ [' ']
  | some _ => l.prefixText

/-- What nft reports for a rule that only logs and for one with a verdict. -/
structure ReportsLog (report : Report) (l : LogSpec) : Prop where
  log : ∃ entry, report l.getNftArgs = some [.obj [("log",.obj entry)]] ∧
    Json.field "prefix" entry = some (.str l.given)
  verdict : ∀ words (policy : Policy) exprs, report (words ++ [policy.keyword]) = some exprs →
    ∃ ms, exprs = ms ++ [.obj [(policy.keyword,.null)]]

/-- The prefix of the names has no underscore: the names of the chains can be split. -/
def FwTool.Splits (tool : FwTool) : Prop := ∀ p, tool.objectsPrefix = some p → '_' ∉ p

def Rule.IsLog (r : Rule) (l : LogSpec) : Prop :=
  ∃ entry, r.expr = [.obj [("log",.obj entry)]] ∧ Json.field "prefix" entry = some (.str l.given)

section
variable {r : Rule} {l : LogSpec}

theorem Rule.verdict_of {ms : List Json} {policy : Policy}
    (h : r.expr = ms ++ [.obj [(policy.keyword,.null)]]) : r.verdict = some policy := by
  rw [verdict, h, getLast?_append_of_ne_nil _ (by simp)]
  cases policy <;> rfl

theorem Rule.verdict_cases (h : r.verdict.isSome = true) : ∃ ms, ∃ policy :
    Policy, r.expr = ms ++ [.obj [(policy.keyword,.null)]] := by
  unfold verdict at h
  split at h
  · rename_i keyword hl
    obtain ⟨ms,hms⟩ := getLast?_eq_some_iff.1 hl
    split_ifs at h with hallow hd
    · exact ⟨ms,.allow,by rw [hms,hallow]⟩
    · exact ⟨ms,.deny,by rw [hms,hd]⟩
    · cases h
  · cases h

theorem Rule.not_catchAll_of_verdict (h : r.verdict.isSome = true) : ¬r.CatchAll := by
  obtain ⟨ms,policy,he⟩ := verdict_cases h
  rintro ⟨fields,entry,hs,hl⟩
  rw [he] at hs
  obtain ⟨-,hf⟩ := append_eq_singleton_iff.1 hs |>.resolve_right (by simp)
  cases hf
  cases policy <;> cases hl

theorem Rule.IsLog.catchAll (h : r.IsLog l) : r.CatchAll := by
  obtain ⟨entry,he,-⟩ := h
  exact ⟨_,.obj entry,he,rfl⟩

theorem Rule.IsLog.verdict (h : r.IsLog l) : r.verdict = none := by
  obtain ⟨entry,he,-⟩ := h
  rw [Rule.verdict,he]
  rfl

end

theorem given_eq_iff (l : LogSpec) : l.given = l.prefixText ↔ l.group.isSome = true := by
  unfold LogSpec.given
  cases l.group with
  | none => simp
  | some g => simp

theorem Family.value_injective {f g : Family} (h : f.value = g.value) : f = g := by
  cases f <;> cases g <;> first | rfl | cases h

variable {l : LogSpec}

theorem logsWith_log {entry : List (Str × Json)} (h : field "prefix" entry = some (.str l.given)) :
    logsWith (some l) (.obj [("log",.obj entry)]) = .ok (decide (l.given = l.prefixText)) := by
  have hh : onJson (has "log" (.obj [("log",.obj entry)])) = .ok true := rfl
  have he : onJson (getOr "log" (.obj [("log",.obj entry)]) (.obj [])) = .ok (.obj entry) := rfl
  have hg : onJson (get "prefix" (.obj entry)) = .ok (some (.str l.given)) := by
    rw [Json.get,h]
    rfl
  simp only [logsWith,hh,he,hg,bind,Except.bind,pure,Except.pure,if_true,Option.any_some,isStr]

theorem logsWith_verdict (log : Option LogSpec) (policy : Policy) :
    logsWith log (.obj [(policy.keyword,.null)]) = .ok false := by
  cases policy <;> rfl

def firstLog (l : LogSpec) (rules : List Rule) (family : Family) (table chain : Str) : Option Rule :=
  if l.group.isSome then
    rules.find? fun r => decide (r.family = family.value ∧ r.table = table ∧ r.chain = chain) && r.verdict.isNone
  else none

abbrev Rule.At (r : Rule) (family : Family) (table chain : Str) : Prop :=
  r.family = family.value ∧ r.table = table ∧ r.chain = chain

theorem denyLogIn_rules (table chain : Str) (family : Family) {rules : List Rule}
    (hs : ∀ r ∈ rules, r.verdict.isSome = true ∨ r.IsLog l) :
    denyLogIn table chain family (some l) ((rules.map fields).map .obj) =
      .ok ((firstLog l rules family table chain).map fun r => .num r.handle) := by
  induction rules with
  | nil => cases hg : l.group.isSome <;> simp [firstLog,hg,denyLogIn]
  | cons r rules ih =>
    obtain ⟨hr,hrest⟩ := forall_mem_cons.1 hs
    rw [map_cons,map_cons,denyLogIn_cons,ih hrest]
    by_cases hp : r.At family table chain
    · rw [if_pos hp]
      rcases hr with hv | ⟨entry,he,hen⟩
      · have hsk : firstLog l (r :: rules) family table chain = firstLog l rules family table chain := by
          simp [firstLog,Option.isNone_eq_false_iff.2 hv]
        obtain ⟨ms,policy,he⟩ := verdict_cases hv
        rw [hsk,he]
        cases ms with
        | nil =>
          simp only [nil_append,logsWith_verdict]
          rfl
        | cons m ms => cases ms <;> rfl
      · have hnone : r.verdict = none := Rule.IsLog.verdict ⟨entry,he,hen⟩
        rw [he]
        simp only [logsWith_log hen,bind,Except.bind,given_eq_iff,decide_eq_true_eq]
        by_cases hg : l.group.isSome = true
        · simp [firstLog,hg,hp,hnone,pure,Except.pure]
        · simp [firstLog,hg]
    · rw [if_neg hp]
      simp [firstLog,hp]

def TidyAt (rules : List Rule) (policy : Option Policy) : Prop :=
  if policy = some .deny then LogsLast rules else ∀ r ∈ rules, ¬r.CatchAll

namespace Nftables

def policyOf (s : Nftables) (family : Family) (table chain : Str) : Option Policy :=
  (s.chains.find? (·.isNamed family table chain)).map Chain.policy

abbrev Distinct (s : Nftables) : Prop := (s.chains.map fun c => (c.family,c.table,c.name)).Nodup

structure Inv (l : LogSpec) (s : Nftables) : Prop where
  shape : ∀ r ∈ s.rules, r.verdict.isSome = true ∨ r.IsLog l
  handles : (s.rules.map Rule.handle).Nodup
  distinct : (s.chains.map fun c => (c.family,c.table,c.name)).Nodup
  tidy : ∀ family table chain, TidyAt (s.rulesOf family table chain) (s.policyOf family table chain)

end Nftables

open Nftables

section
variable {A B rules : List Rule} {new : Rule} {p : Rule → Bool}

theorem LogsLast.insert (h : LogsLast (A ++ B)) (hB : B ≠ []) (hn : ¬new.CatchAll) : LogsLast (A ++ new :: B) := by
  obtain ⟨front,r,heq,hr,hf⟩ := h
  obtain ⟨B',b,rfl⟩ := eq_nil_or_concat B |>.resolve_left hB
  rw [concat_eq_append,← append_assoc] at heq
  obtain ⟨hfr,hb⟩ := append_inj' heq rfl
  cases hb
  rw [← hfr,forall_mem_append] at hf
  exact ⟨A ++ new :: B',r,by simp,hr,forall_mem_append.2 ⟨hf.1,forall_mem_cons.2 ⟨hn,hf.2⟩⟩⟩

theorem LogsLast.filter (h : LogsLast rules) (hk : ∀ r ∈ rules, r.CatchAll → p r = true) :
    LogsLast (rules.filter p) := by
  obtain ⟨front,r,rfl,hr,hf⟩ := h
  refine ⟨front.filter p,r,?_,hr,fun x hx => hf x (mem_of_mem_filter hx)⟩
  rw [filter_append, filter_singleton, hk r (by simp) hr]
  rfl

theorem TidyAt.insert {policy : Option Policy} (h : TidyAt (A ++ B) policy) (hB : policy = some .deny → B ≠ [])
    (hn : ¬new.CatchAll) : TidyAt (A ++ new :: B) policy := by
  unfold TidyAt at h ⊢
  split_ifs at h ⊢ with hp
  · exact h.insert (hB hp) hn
  · rw [forall_mem_append] at h
    exact forall_mem_append.2 ⟨h.1,forall_mem_cons.2 ⟨hn,h.2⟩⟩

theorem TidyAt.filter {policy : Option Policy} (h : TidyAt rules policy) (hk : ∀ r ∈ rules, r.CatchAll → p r = true) :
    TidyAt (rules.filter p) policy := by
  unfold TidyAt at h ⊢
  split_ifs at h ⊢ with hp
  · exact LogsLast.filter h hk
  · exact fun r hr => h r (mem_of_mem_filter hr)

end

namespace Nftables.Inv
variable {A B : List Rule} {l : LogSpec} {s s' : Nftables} {family : Family} {table chain : Str}

theorem rulesOf_append (hrules : s'.rules = A ++ B) (family : Family) (table chain : Str) :
    s'.rulesOf family table chain =
    A.filter (fun r => decide (r.At family table chain)) ++
      B.filter fun r => decide (r.At family table chain) := by
  rw [rulesOf,hrules,filter_append]

variable {p : Rule → Bool}

theorem rulesOf_filter (hrules : s'.rules = s.rules.filter p) (family : Family) (table chain : Str) :
    s'.rulesOf family table chain = (s.rulesOf family table chain).filter p := by
  rw [rulesOf,hrules,rulesOf,filter_filter,filter_filter]
  congr 1
  funext r
  exact Bool.and_comm _ _

theorem policyOf_congr (h : s'.chains = s.chains) (family : Family) (table chain : Str) :
    s'.policyOf family table chain = s.policyOf family table chain := by
  rw [policyOf,h,policyOf]

theorem grown (h : Inv l s) {front rest : List Rule} {new : Rule} (hrules : s.rules = front ++ rest)
    (hr' : s'.rules = front ++ new :: rest) (hs : new.verdict.isSome = true ∨ new.IsLog l)
    (hf : ∀ r ∈ s.rules, r.handle < new.handle) (hd : s'.Distinct)
    (ht : ∀ f t c, TidyAt (s'.rulesOf f t c) (s'.policyOf f t c)) : Inv l s' := by
  have hp : s'.rules.Perm (new :: s.rules) := by
    rw [hrules,hr']
    exact perm_middle
  refine ⟨fun r hr => ?_,?_,hd,ht⟩
  · rcases mem_cons.1 (hp.mem_iff.1 hr) with rfl | hr
    · exact hs
    · exact h.shape r hr
  · rw [(hp.map _).nodup_iff,map_cons,nodup_cons]
    refine ⟨fun hmem => ?_,h.handles⟩
    obtain ⟨r,hr,heq⟩ := mem_map.1 hmem
    exact (hf r hr).ne heq

theorem shrunk (h : Inv l s) (hrules : s'.rules = s.rules.filter p) (hd : s'.Distinct)
    (ht : ∀ f t c, TidyAt ((s.rulesOf f t c).filter p) (s'.policyOf f t c)) : Inv l s' where
  shape r hr := by
    rw [hrules] at hr
    exact h.shape r (mem_of_mem_filter hr)
  handles := by
    rw [hrules]
    exact h.handles.sublist (filter_sublist.map _)
  distinct := hd
  tidy f t c := by
    rw [rulesOf_filter hrules]
    exact ht f t c

theorem same_place {r : Rule} {f : Family} {t c : Str} (h : r.At family table chain)
    (h' : r.At f t c) : f = family ∧ t = table ∧ c = chain :=
  ⟨Family.value_injective (h'.1.symm.trans h.1),h'.2.1.symm.trans h.2.1,h'.2.2.symm.trans h.2.2⟩

/-- A rule with a verdict is put before a rule of its chain, or in a chain that does not deny. -/
theorem insert (h : Inv l s) (hc : s'.chains = s.chains) {front rest : List Rule} {new : Rule}
    (hrules : s.rules = front ++ rest)
    (hr' : s'.rules = front ++ new :: rest) (hv : new.verdict.isSome = true) (hh : new.handle = s.next)
    (hp : new.At family table chain)
    (hrest : s.policyOf family table chain = some .deny → ∃ r ∈ rest, r.At family table chain) : Inv l s' := by
  refine h.grown hrules hr' (.inl hv) (fun r hr => hh ▸ s.fresh r hr)
    (by rw [Distinct,hc]; exact h.distinct) fun f t c => ?_
  have hb := h.tidy f t c
  rw [rulesOf_append hrules] at hb
  rw [policyOf_congr hc,rulesOf_append hr',filter_cons]
  split_ifs with hs
  · refine hb.insert (fun hd => ?_) (not_catchAll_of_verdict hv)
    obtain ⟨rfl,rfl,rfl⟩ := same_place hp (of_decide_eq_true hs)
    obtain ⟨r,hr,hin⟩ := hrest hd
    exact ne_nil_of_mem (mem_filter.2 ⟨hr,decide_eq_true hin⟩)
  · exact hb

theorem filter (h : Inv l s) (hc : s'.chains = s.chains) (hr' : s'.rules = s.rules.filter p)
    (hk : ∀ r ∈ s.rules, r.CatchAll → p r = true) : Inv l s' := by
  refine h.shrunk hr' (by rw [Distinct,hc]; exact h.distinct) fun f t c => ?_
  rw [policyOf_congr hc]
  exact (h.tidy f t c).filter fun r hr => hk r (mem_of_mem_filter hr)

theorem handle_inj (h : Inv l s) {x y : Rule} (hx : x ∈ s.rules) (hy : y ∈ s.rules)
    (heq : x.handle = y.handle) : x = y :=
  inj_on_of_nodup_map h.handles hx hy heq

end Nftables.Inv

section
variable {report : Report} {k k' : Kernel} {family : Family} {table chain handle : Str} {words : List Str}

theorem execIn_insert (h : k.execIn report family (.insert table chain handle words) = some k') :
    ∃ front rest expr, k.rules = front ++ rest ∧ k'.rules = front ++ ⟨family.value,table,chain,k.next,expr⟩ :: rest ∧
      report words = some expr ∧ ∃ r ∈ rest, r.isIn family table chain handle = true := by
  rw [Kernel.execIn] at h
  split_ifs at h with ha
  obtain ⟨expr,he,rfl⟩ := Option.map_eq_some_iff.1 h
  refine ⟨_,_,expr,takeWhile_append_dropWhile.symm,rfl,he,?_⟩
  obtain ⟨r,hr,hin⟩ := any_eq_true.1 ha
  cases hd : k.rules.dropWhile fun r => !r.isIn family table chain handle with
  | nil =>
    have hal := dropWhile_eq_nil_iff.1 hd r hr
    rw [hin] at hal
    cases hal
  | cons x rest =>
    refine ⟨x,mem_cons_self,?_⟩
    have hh := head_dropWhile_not (fun r : Rule => !r.isIn family table chain handle) (hd ▸ cons_ne_nil x rest)
    simpa [hd] using hh

theorem execIn_add (h : k.execIn report family (.add table chain words) = some k') :
    ∃ expr, k'.rules = k.rules ++ [⟨family.value,table,chain,k.next,expr⟩] ∧ report words = some expr := by
  obtain ⟨expr,he,rfl⟩ := Option.map_eq_some_iff.1 h
  exact ⟨expr,rfl,he⟩

theorem execIn_delete (h : k.execIn report family (.delete table chain handle) = some k') :
    k'.rules = k.rules.filter fun r => !r.isIn family table chain handle := by
  rw [Kernel.execIn] at h
  split_ifs at h
  cases h
  rfl

theorem format_handle (n : ℕ) : (num n).format = Nat.toDigits 10 n := by
  simp [Json.format,Json.text]

theorem toDigits_injective {m n : ℕ} (h : Nat.toDigits 10 m = Nat.toDigits 10 n) : m = n := by
  have hv := congrArg (fun s => Nat.ofDigitChars 10 s 0) h
  simpa [Nat.ofDigitChars_toDigits] using hv

end

namespace Nftables.Inv
variable {l : LogSpec} {s : Nftables} {family : Family} {table chain : Str} {report : Report} {k k' : Kernel}

variable {words : List Str} {policy : Policy}

theorem inserted (hre : ReportsLog report l) (h : Inv l (s.after k)) {handle : Str}
    (he : k.execIn report family (.insert table chain handle (words ++ [policy.keyword])) = some k') :
    Inv l (s.after k') := by
  obtain ⟨front,rest,expr,hrules,hr',hex,r,hr,hin⟩ := execIn_insert he
  obtain ⟨ms,hms⟩ := hre.verdict words policy expr hex
  refine h.insert rfl hrules hr' ?_ rfl ⟨rfl,rfl,rfl⟩ fun _ => ⟨r,hr,?_⟩
  · exact Option.isSome_of_eq_some (verdict_of hms)
  · obtain ⟨hf,ht,hc,-⟩ := of_decide_eq_true hin
    exact ⟨hf,ht,hc⟩

theorem added (hr : ReportsLog report l) (h : Inv l (s.after k))
    (hp : s.policyOf family table chain ≠ some .deny)
    (he : k.execIn report family (.add table chain (words ++ [policy.keyword])) = some k') : Inv l (s.after k') := by
  obtain ⟨expr,hr',hex⟩ := execIn_add he
  obtain ⟨ms,hms⟩ := hr.verdict words policy expr hex
  refine h.insert rfl (append_nil _).symm hr' ?_ rfl ⟨rfl,rfl,rfl⟩ fun hd => absurd hd hp
  exact Option.isSome_of_eq_some (verdict_of hms)

theorem newRule (hr : ReportsLog report l) (h : Inv l (s.after k)) {hd : Option Json}
    (hnone : hd = none → s.policyOf family table chain ≠ some .deny)
    (he : k.execIn report family (FwTool.newRule table chain hd (words ++ [policy.keyword])) = some k') :
    Inv l (s.after k') := by
  cases hd with
  | none => exact h.added hr (hnone rfl) he
  | some j => exact h.inserted hr he

theorem found (hs : ∀ r ∈ s.rules, r.verdict.isSome = true ∨ r.IsLog l) (family : Family) (table chain : Str) :
    ∃ hd, findChainDenyLogRule s.kernel.listing table chain (some l) family = .ok hd ∧
      (hd = none → l.group.isSome = true → ∀ r ∈ s.rulesOf family table chain, ¬r.CatchAll) ∧
      ∀ j, hd = some j → l.group.isSome = true ∧ ∃ r ∈ s.rulesOf family table chain, r.CatchAll ∧
        j = .num r.handle := by
  rw [findChainDenyLogRule_eq]
  change ∃ hd, denyLogIn table chain family (some l) ((s.rules.map fields).map .obj) = .ok hd ∧ _
  rw [denyLogIn_rules table chain family hs,firstLog]
  refine ⟨_,rfl,fun hnone hg r hr hc => ?_,fun j hj => ?_⟩
  · rw [if_pos hg,Option.map_eq_none_iff,find?_eq_none] at hnone
    obtain ⟨hmem,hpl⟩ := mem_filter.1 hr
    have hl := (hs r hmem).resolve_left fun hv => not_catchAll_of_verdict hv hc
    exact hnone r hmem (by rw [hpl,hl.verdict]; rfl)
  · obtain ⟨r,hf,rfl⟩ := Option.map_eq_some_iff.1 hj
    split_ifs at hf with hg
    have hp := find?_some hf
    obtain ⟨hpl,hnone⟩ := Bool.and_eq_true_iff.1 hp
    have hmem := mem_of_find?_eq_some hf
    have hl := (hs r hmem).resolve_left fun hv => by
      rw [Option.isNone_iff_eq_none.1 hnone] at hv
      cases hv
    exact ⟨hg,r,mem_filter.2 ⟨hmem,hpl⟩,hl.catchAll,rfl⟩

theorem not_deny (h : Inv l s) (hnone : ∀ r ∈ s.rulesOf family table chain, ¬r.CatchAll) :
    s.policyOf family table chain ≠ some .deny := by
  intro hd
  have ht := h.tidy family table chain
  rw [TidyAt,if_pos hd] at ht
  obtain ⟨front,r,heq,hr,-⟩ := ht
  exact hnone r (by rw [heq]; simp) hr

end Nftables.Inv

def Safe (l : LogSpec) (s : Nftables) : Prop :=
  l.group.isSome = true ∨ ∀ family table chain, s.policyOf family table chain ≠ some .deny

theorem Nftables.Inv.not_deny_of_found {s : Nftables} (h : Inv l s) (hs : Safe l s) {family : Family}
    {table chain : Str} (hnone : l.group.isSome = true → ∀ r ∈ s.rulesOf family table chain, ¬r.CatchAll) :
    s.policyOf family table chain ≠ some .deny :=
  hs.elim (fun hg => h.not_deny (hnone hg)) fun ha => ha family table chain

namespace FwTool
variable {tool : FwTool} {l : LogSpec} {s : Nftables} {report : Report} {t : FlowType}

theorem inv_setEach (hr : ReportsLog report l) (hsa : Safe l s) (ht : tool.log = some l) (hs : Inv l s)
    {policy : Policy} {logIfDeny : Bool} (flows : List (NetFlow U)) {k : Kernel} (h : Inv l (s.after k)) :
    Inv l (s.after (tool.setEach report s.kernel.listing t policy logIfDeny .ipv4 flows k).1) := by
  induction flows generalizing k with
  | nil => exact h
  | cons pflow flows ih =>
    rw [setEach,setOne_eq]
    cases pflow.nftArgs with
    | error e => exact h
    | ok args =>
      obtain ⟨hd,hf,hnone,-⟩ := Inv.found hs.shape .ipv4 (tool.tableOf t) (tool.chainOf t)
      rw [ht,hf]
      simp only
      cases he : k.exec report
        (newRule (tool.tableOf t) (tool.chainOf t) hd (tool.ruleWords args policy logIfDeny)) with
      | none => exact h
      | some k' =>
        rw [Kernel.exec_eq] at he
        exact ih (h.newRule hr (fun hhd => hs.not_deny_of_found hsa (hnone hhd)) he)

theorem inv_flowSetPolicy (hr : ReportsLog report l) (hsa : Safe l s) (ht : tool.log = some l) (hs : Inv l s)
    {policy : Policy} {logIfDeny : Bool} (nflow : NetFlow U) :
    Inv l (s.after (tool.flowSetPolicy report t nflow policy logIfDeny .ipv4 s.kernel).1) := by
  unfold flowSetPolicy
  cases nflow.splitByProtocol with
  | error e => exact hs
  | ok flows => exact inv_setEach hr hsa ht hs _ hs

end FwTool

theorem handle_of_relatedExprs {ruleHandle handle x : Option Json} {policy y : Option Policy} {exprs : List Json}
    (h : relatedExprs ruleHandle handle policy exprs = .ok (x,y)) : x = handle ∨ x = ruleHandle := by
  induction exprs generalizing handle policy with
  | nil =>
    cases h
    exact .inl rfl
  | cons expr exprs ih =>
    unfold relatedExprs at h
    obtain ⟨b,-,h⟩ := bind_eq_ok.1 h
    obtain ⟨accepts,-,h⟩ := bind_eq_ok.1 h
    obtain ⟨denies,-,h⟩ := bind_eq_ok.1 h
    rcases ih h with hx | hx
    · cases b with
      | true => exact .inr hx
      | false => exact .inl hx
    · exact .inr hx

theorem relatedExprs_log (ruleHandle : Option Json) (entry : List (Str × Json)) :
    relatedExprs ruleHandle none none [.obj [("log",.obj entry)]] = .ok (none,none) := by
  cases ruleHandle <;> rfl

theorem findRelatedIn_rules {table chain : Str} {family : Family} {rules : List Rule} {handle : Option Json}
    {policy : Policy} (hsh : ∀ r ∈ rules, r.verdict.isSome = true ∨ r.IsLog l)
    (h : findRelatedIn table chain family ((rules.map fields).map .obj) = .ok (handle,some policy)) :
    ∃ r ∈ rules, r.verdict.isSome = true ∧ handle = some (.num r.handle) := by
  induction rules with
  | nil => cases h
  | cons r rules ih =>
    obtain ⟨hr,hrest⟩ := forall_mem_cons.1 hsh
    have hg : onJson (get "rule" (.obj r.fields)) = .ok (some r.body) := rfl
    have he : onJson (get "expr" r.body) = .ok (some (.arr r.expr)) := rfl
    have hh : onJson (get "handle" r.body) = .ok (some (.num r.handle)) := rfl
    have hel : onJson (elements (.arr r.expr)) = .ok r.expr := rfl
    have hs : findRelatedIn table chain family ((rules.map fields).map .obj) = .ok (handle,some policy) →
        ∃ x ∈ r :: rules, x.verdict.isSome = true ∧ handle = some (.num x.handle) := fun hn =>
      (ih hrest hn).imp fun x hx => ⟨mem_cons_of_mem _ hx.1,hx.2⟩
    rw [map_cons,map_cons,findRelatedIn,hg] at h
    change (do
      if ← inChain r.body table chain family then _ else _) = _ at h
    rw [inChain_eq] at h
    by_cases hp : r.At family table chain
    · simp only [bind,Except.bind,hp,and_self,decide_true,if_true,he,hh,hel] at h
      cases hre : relatedExprs (some (.num r.handle)) none none r.expr with
      | error e =>
        rw [hre] at h
        cases h
      | ok res =>
        obtain ⟨x,y⟩ := res
        rw [hre] at h
        rcases hr with hv | ⟨entry,hex,-⟩
        · rcases handle_of_relatedExprs hre with rfl | rfl
          · exact hs h
          · cases y with
            | none => exact hs h
            | some y =>
              cases h
              exact ⟨r,mem_cons_self,hv,rfl⟩
        · rw [hex,relatedExprs_log] at hre
          cases hre
          exact hs h
    · simp only [bind,Except.bind,decide_eq_false hp] at h
      exact hs h

theorem findRelatedIn_append {items : List (List (Str × Json))} (h : ∀ fields ∈ items, field "rule" fields = none)
    (table chain : Str) (family : Family) (rest : List Json) :
    findRelatedIn table chain family (items.map .obj ++ rest) = findRelatedIn table chain family rest := by
  induction items with
  | nil => rfl
  | cons item items ih =>
    rw [map_cons,cons_append,findRelatedIn,get_obj (h item mem_cons_self)]
    exact ih fun fields hf => h fields (mem_cons_of_mem _ hf)

namespace FwTool
variable {tool : FwTool} {l : LogSpec} {s : Nftables} {report : Report} {t : FlowType} {family : Family}

theorem inv_setRelatedConnectionsPolicy (hre : ReportsLog report l) (hsa : Safe l s) (ht : tool.log = some l)
    (hs : Inv l s) (policy : Policy) : Inv l (tool.setRelatedConnectionsPolicy report t policy family s).1 := by
  unfold setRelatedConnectionsPolicy
  simp only
  cases hrl : findRelated s.kernel.listing (tool.tableOf t) (tool.chainOf t) family with
  | error e => exact hs
  | ok res =>
    obtain ⟨handle,cpolicy⟩ := res
    simp only
    split_ifs with hsm
    · exact hs
    · cases cpolicy with
      | none =>
        obtain ⟨hd,hf,hnone,-⟩ := Inv.found hs.shape family (tool.tableOf t) (tool.chainOf t)
        rw [ht,hf]
        simp only
        cases he : s.kernel.execIn report family
          (newRule (tool.tableOf t) (tool.chainOf t) hd (relatedWords policy)) with
        | none => exact hs
        | some k =>
          rw [relatedWords] at he
          exact Inv.newRule (s := s) (k := s.kernel) hre hs (fun hhd => hs.not_deny_of_found hsa (hnone hhd)) he
      | some old =>
        have hin : findRelatedIn (tool.tableOf t) (tool.chainOf t) family ((s.rules.map fields).map .obj) =
            .ok (handle,some old) := by
          rw [← hrl,← findRelatedIn_append (noRule_chains s.chains),← map_append]
          rfl
        obtain ⟨y,hy,hv,rfl⟩ := findRelatedIn_rules hs.shape hin
        simp only [Option.getD_some,format_handle]
        cases he : s.kernel.execIn report family
          (.insert (tool.tableOf t) (tool.chainOf t) (Nat.toDigits 10 y.handle) (relatedWords policy)) with
        | none => exact hs
        | some k =>
          rw [relatedWords] at he
          have hi : Inv l (s.after k) := Inv.inserted (s := s) (k := s.kernel) hre hs he
          simp only
          cases hde : k.execIn report family (.delete (tool.tableOf t) (tool.chainOf t) (Nat.toDigits 10 y.handle)) with
          | none => exact hi
          | some k' =>
            refine hi.filter rfl (execIn_delete hde) fun r hr hc => ?_
            -- only the rule that was found has its handle
            rw [Bool.not_eq_true']
            refine decide_eq_false fun hat => ?_
            obtain ⟨front,rest,expr,hrules,hr',-⟩ := execIn_insert he
            have hmem : y ∈ k.rules := by
              have hsu : s.rules.Sublist k.rules := by
                rw [hr']
                change s.kernel.rules.Sublist _
                rw [hrules]
                exact (sublist_cons_self _ rest).append_left front
              exact hsu.subset hy
            rw [hi.handle_inj hr hmem (toDigits_injective hat.2.2.2)] at hc
            exact not_catchAll_of_verdict hv hc

end FwTool

theorem findChainIn_cons (c : Chain) (table chain : Str) (family : Family) (items : List Json) :
    findChainIn table chain family (.obj c.fields :: items) =
      if c.isNamed family table chain then .ok (some (.num c.handle),
        some c.policy) else findChainIn table chain family items := by
  have hk : Policy.fromKeyword (.str c.policy.keyword) = .ok c.policy := by cases c.policy <;> rfl
  have hv : decide (c.family.value = family.value) = decide (c.family = family) :=
    decide_eq_decide.2 ⟨Family.value_injective,congrArg Family.value⟩
  have hn : c.isNamed family table chain =
      (decide (c.table = table) && decide (c.family = family) && decide (c.name = chain)) := by
    simp only [Chain.isNamed,Bool.decide_and]
    cases decide (c.family = family) <;> cases decide (c.table = table) <;> rfl
  rw [hn,← hv,findChainIn]
  change (if (decide (c.table = table) && decide (c.family.value = family.value) && decide (c.name = chain)) = true then
    (do return (some (num c.handle),some (← Policy.fromKeyword (.str c.policy.keyword)))) else _) = _
  rw [hk]
  rfl

theorem findChainIn_rules (rules : List Rule) (table chain : Str) (family : Family) :
    findChainIn table chain family ((rules.map fields).map .obj) = .ok (none,none) := by
  induction rules with
  | nil => rfl
  | cons r rules ih => exact ih

theorem findChain_eq (s : Nftables) (table chain : Str) (family : Family) :
    ∃ handle, findChain s.kernel.listing table chain family = .ok (handle,s.policyOf family table chain) := by
  change ∃ handle, findChainIn table chain family ((s.chains.map Chain.fields ++ s.rules.map fields).map .obj) = _
  rw [map_append,policyOf]
  induction s.chains with
  | nil => exact ⟨none,findChainIn_rules s.rules table chain family⟩
  | cons c chains ih =>
    rw [map_cons,map_cons,cons_append,findChainIn_cons,find?_cons]
    cases c.isNamed family table chain with
    | true => exact ⟨_,rfl⟩
    | false => exact ih

namespace Nftables
variable {l : LogSpec} {s : Nftables} {family : Family} {table chain : Str} {policy : Policy}

theorem isNamed_iff {c : Chain} : c.isNamed family table chain = true ↔
    c.family = family ∧ c.table = table ∧ c.name = chain := decide_eq_true_iff

/-- A chain is added with its policy, or gets it if it is there, and no other one changes. -/
theorem policyOf_addChain (s : Nftables) (family : Family) (table chain : Str) (policy : Policy) (f : Family)
    (t n : Str) :
    (s.addChain family table chain policy).policyOf f t n =
      if f = family ∧ t = table ∧ n = chain then some policy else s.policyOf f t n := by
  unfold addChain policyOf
  by_cases ha : s.chains.any (·.isNamed family table chain) = true
  · have hname : (fun c : Chain => c.isNamed f t n) ∘
      (fun c : Chain => if c.isNamed family table chain then { c with policy := policy } else c) =
        fun c => c.isNamed f t n := by
      funext c
      simp only [Function.comp]
      split_ifs <;> rfl
    rw [if_pos ha]
    simp only [find?_map,hname]
    cases hfi : s.chains.find? fun c => c.isNamed f t n with
    | none =>
      have hne : ¬(f = family ∧ t = table ∧ n = chain) := by
        rintro ⟨rfl,rfl,rfl⟩
        obtain ⟨c,hc,hna⟩ := any_eq_true.1 ha
        exact find?_eq_none.1 hfi c hc hna
      rw [if_neg hne]
      rfl
    | some c =>
      have hna := find?_some hfi
      obtain ⟨hf,ht,hn⟩ := isNamed_iff.1 hna
      have hi : c.isNamed family table chain = true ↔ f = family ∧ t = table ∧ n = chain := by
        rw [isNamed_iff,hf,ht,hn]
      by_cases hs : f = family ∧ t = table ∧ n = chain
      · simp [hi.2 hs,hs]
      · simp [mt hi.1 hs,hs]
  · rw [if_neg ha]
    simp only [find?_append,find?_singleton]
    by_cases hs : f = family ∧ t = table ∧ n = chain
    · obtain ⟨rfl,rfl,rfl⟩ := hs
      have hnone : s.chains.find? (fun c => c.isNamed f t n) = none := by
        refine find?_eq_none.2 fun c hc hna => ha (any_eq_true.2 ⟨c,hc,hna⟩)
      rw [hnone]
      simp [Chain.isNamed]
    · have hna : Chain.isNamed ⟨family,table,chain,s.next,policy⟩ f t n = false :=
        decide_eq_false fun h => hs ⟨h.1.symm,h.2.1.symm,h.2.2.symm⟩
      simp [hna,hs]

theorem rules_addChain : (s.addChain family table chain policy).rules = s.rules := by
  unfold addChain
  split_ifs <;> rfl

theorem rulesOf_addChain (s : Nftables) (family : Family) (table chain : Str) (policy : Policy) (f : Family)
    (t n : Str) : (s.addChain family table chain policy).rulesOf f t n = s.rulesOf f t n := by
  rw [rulesOf,rules_addChain,rulesOf]

theorem Inv.found_addChain (h : Inv l s) (family : Family) (table chain : Str) (policy : Policy) :
    ∃ hd, findChainDenyLogRule (s.addChain family table chain policy).kernel.listing table chain
      (some l) family = .ok hd ∧
      (hd = none → l.group.isSome = true → ∀ r ∈ s.rulesOf family table chain, ¬r.CatchAll) ∧
      ∀ j, hd = some j → l.group.isSome = true ∧ ∃ r ∈ s.rulesOf family table chain, r.CatchAll ∧
        j = .num r.handle := by
  rw [← rulesOf_addChain s family table chain policy]
  refine Inv.found (fun r hr => h.shape r ?_) family table chain
  rwa [rules_addChain] at hr

theorem distinct_addChain (h : s.Distinct) : (s.addChain family table chain policy).Distinct := by
  unfold Distinct addChain
  split_ifs with han
  · rw [map_map]
    have hs : (fun c : Chain => (c.family,c.table,c.name)) ∘
      (fun c : Chain => if c.isNamed family table chain then { c with policy := policy } else c) =
        fun c => (c.family,c.table,c.name) := by
      funext c
      simp only [Function.comp]
      split_ifs <;> rfl
    rw [hs]
    exact h
  · rw [map_append,map_singleton]
    refine nodup_append.2 ⟨h,nodup_singleton _,fun a ha b hb heq => han ?_⟩
    obtain ⟨c,hc,rfl⟩ := mem_map.1 ha
    rw [mem_singleton.1 hb] at heq
    simp only [Prod.mk.injEq] at heq
    exact any_eq_true.2 ⟨c,hc,isNamed_iff.2 heq⟩

theorem Inv.addChain (h : Inv l s) (ht : TidyAt (s.rulesOf family table chain) (some policy)) :
    Inv l (s.addChain family table chain policy) where
  shape := by
    rw [rules_addChain]
    exact h.shape
  handles := by
    rw [rules_addChain]
    exact h.handles
  distinct := distinct_addChain h.distinct
  tidy := by
    intro f t n
    rw [policyOf_addChain,rulesOf_addChain]
    split_ifs with hs
    · obtain ⟨rfl,rfl,rfl⟩ := hs
      exact ht
    · exact h.tidy f t n

theorem Inv.logged (h : Inv l s) {s' : Nftables} {new : Rule} (hc : ∀ r ∈ s.rulesOf family table chain, ¬r.CatchAll)
    (hpo : ∀ f t n, s'.policyOf f t n = if f = family ∧ t = table ∧ n = chain then some .deny else s.policyOf f t n)
    (hd : s'.Distinct) (hrules : s'.rules = s.rules ++ [new]) (hl : new.IsLog l)
    (hp : new.At family table chain) (hf : ∀ r ∈ s.rules, r.handle < new.handle) : Inv l s' := by
  refine h.grown (append_nil _).symm hrules (.inr hl) hf hd fun f t n => ?_
  rw [hpo,Inv.rulesOf_append hrules,← rulesOf,filter_singleton]
  by_cases hs : f = family ∧ t = table ∧ n = chain
  · obtain ⟨rfl,rfl,rfl⟩ := hs
    rw [if_pos ⟨rfl,rfl,rfl⟩,decide_eq_true hp]
    exact ⟨_,new,rfl,hl.catchAll,hc⟩
  · rw [if_neg hs, decide_eq_false fun hn => hs (Inv.same_place hp hn), cond_false, append_nil]
    exact h.tidy f t n

theorem Inv.unlogged (h : Inv l s) {s' : Nftables} {p : Rule → Bool}
    (hpo : ∀ f t n, s'.policyOf f t n = if f = family ∧ t = table ∧ n = chain then some .allow else s.policyOf f t n)
    (hd : s'.Distinct) (hrules : s'.rules = s.rules.filter p)
    (hc : ∀ r ∈ s.rulesOf family table chain, r.CatchAll → p r = false)
    (ho : ∀ r, p r = false → r.At family table chain) : Inv l s' := by
  refine h.shrunk hrules hd fun f t n => ?_
  rw [hpo]
  split_ifs with hs
  · obtain ⟨rfl,rfl,rfl⟩ := hs
    intro r hr hca
    obtain ⟨hmem,hp⟩ := mem_filter.1 hr
    rw [hc r hmem hca] at hp
    cases hp
  · refine (h.tidy f t n).filter fun r hr _ => ?_
    -- a rule that is removed is in the other chain
    by_contra hp
    exact hs (Inv.same_place (ho r (Bool.eq_false_iff.2 hp)) (of_decide_eq_true (mem_filter.1 hr).2))

end Nftables

namespace FwTool
variable {tool : FwTool} {l : LogSpec} {s : Nftables} {report : Report} {family : Family} {table chain : Str}

theorem inv_adaptLog_deny (hre : ReportsLog report l) (ht : tool.log = some l) (h : Inv l s)
    (hp : s.policyOf family table chain ≠ some .deny) :
    Inv l (tool.adaptLog report table chain .deny family (s.addChain family table chain .deny)).1 := by
  have hc : ∀ r ∈ s.rulesOf family table chain, ¬r.CatchAll := by
    have hti := h.tidy family table chain
    rwa [TidyAt, if_neg hp] at hti
  obtain ⟨hd,hf,-,hs⟩ := h.found_addChain family table chain .deny
  obtain rfl : hd = none := by
    cases hd with
    | none => rfl
    | some j =>
      obtain ⟨-,r,hr,hca,-⟩ := hs j rfl
      exact absurd hca (hc r hr)
  obtain ⟨entry,he,hen⟩ := hre.log
  unfold adaptLog
  rw [ht,hf]
  simp only [Kernel.execIn,he,Option.map_some]
  have hrules : (s.addChain family table chain .deny).rules ++
      [(⟨family.value,table,chain,(s.addChain family table chain .deny).next,[.obj [("log",.obj entry)]]⟩ : Rule)] =
        s.rules ++ [⟨family.value,table,chain,(s.addChain family table chain .deny).next,
          [.obj [("log",.obj entry)]]⟩] := by
    rw [rules_addChain]
  refine h.logged hc (fun f t n => policyOf_addChain s family table chain .deny f t n)
    (distinct_addChain h.distinct) hrules
    ⟨entry,rfl,hen⟩ ⟨rfl,rfl,rfl⟩ fun r hr => ?_
  exact (s.addChain family table chain .deny).fresh r (by rw [rules_addChain]; exact hr)

theorem inv_adaptLog_allow (hto : tool.log = some l) (h : Inv l s) (hg : l.group.isSome = true) :
    Inv l (tool.adaptLog report table chain .allow family (s.addChain family table chain .allow)).1 := by
  obtain ⟨hd,hfi,hnone,hs⟩ := h.found_addChain family table chain .allow
  unfold adaptLog
  rw [hto,hfi]
  cases hd with
  | none =>
    refine h.addChain ?_
    rw [TidyAt, if_neg (by simp)]
    exact hnone rfl hg
  | some j =>
    obtain ⟨-,r,hr,hca,rfl⟩ := hs j rfl
    obtain ⟨hmem,hin⟩ := mem_filter.1 hr
    have hat : r.isIn family table chain (Nat.toDigits 10 r.handle) = true := by
      obtain ⟨hf,ht,hc⟩ := of_decide_eq_true hin
      exact decide_eq_true ⟨hf,ht,hc,rfl⟩
    have ha : (s.addChain family table chain .allow).kernel.rules.any
        (·.isIn family table chain (Nat.toDigits 10 r.handle)) = true := by
      refine any_eq_true.2 ⟨r,?_,hat⟩
      change r ∈ (s.addChain family table chain .allow).rules
      rw [rules_addChain]
      exact hmem
    simp only [format_handle,Kernel.execIn,ha,if_true]
    refine h.unlogged (fun f t n => policyOf_addChain s family table chain .allow f t n) (distinct_addChain h.distinct)
      (p := fun r' => !r'.isIn family table chain (Nat.toDigits 10 r.handle))
        (congrArg (filter _) rules_addChain) (fun x hx hxc => ?_)
      fun x hx => ?_
    · -- the only rule that logs is the one that was found
      have hti := h.tidy family table chain
      have hl : LogsLast (s.rulesOf family table chain) := by
        unfold TidyAt at hti
        split_ifs at hti
        · exact hti
        · exact absurd hca (hti r hr)
      obtain ⟨front,y,heq,-,hfr⟩ := hl
      have ho : ∀ z ∈ s.rulesOf family table chain, z.CatchAll → z = y := by
        intro z hz hzc
        rw [heq] at hz
        rcases mem_append.1 hz with hz | hz
        · exact absurd hzc (hfr z hz)
        · exact mem_singleton.1 hz
      rw [ho x hx hxc,← ho r hr hca,hat]
      rfl
    · rw [Bool.not_eq_false'] at hx
      obtain ⟨hf,ht,hc,-⟩ := of_decide_eq_true hx
      exact ⟨hf,ht,hc⟩

theorem inv_createChain (hr : ReportsLog report l) (ht : tool.log = some l) (h : Inv l s) (hg : l.group.isSome = true)
    (policy : Policy) : Inv l (tool.createChain report table chain policy family s).1 := by
  obtain ⟨handle,hf⟩ := findChain_eq s table chain family
  unfold createChain
  rw [hf]
  simp only
  cases splitName table with
  | error e => exact h
  | ok u =>
    cases splitName chain with
    | error e => exact h
    | ok u' =>
      simp only
      split_ifs with hs
      · refine h.addChain ?_
        rw [← hs]
        exact h.tidy family table chain
      · cases policy with
        | deny => exact inv_adaptLog_deny hr ht h hs
        | allow => exact inv_adaptLog_allow ht h hg

end FwTool

theorem splitName_of_splits {tool : FwTool} (h : tool.Splits) (t : FlowType) :
    splitName (tool.tableOf t) = .ok () ∧ splitName (tool.chainOf t) = .ok () := by
  have hpl : '_' ∉ t.table ∧ '_' ∉ t.chain := by
    cases t <;> decide
  unfold FwTool.tableOf FwTool.chainOf
  cases hp : tool.objectsPrefix with
  | none => exact ⟨if_neg fun h => hpl.1 h.1,if_neg fun h => hpl.2 h.1⟩
  | some p =>
    have ht : ∀ {x : Str}, '_' ∉ x → splitName (p ++ '_' :: x) = .ok () := by
      intro x hx
      refine if_neg fun hname => hname.2 ?_
      rw [splitOn_append_cons_self,splitOn_eq_singleton (h p hp),splitOn_eq_singleton hx]
      rfl
    exact ⟨ht hpl.1,ht hpl.2⟩

theorem splitName_of_not_splits {tool : FwTool} (h : ¬tool.Splits) (t : FlowType) :
    splitName (tool.tableOf t) = .error .value := by
  obtain ⟨p,hp,hmem⟩ : ∃ p, tool.objectsPrefix = some p ∧ '_' ∈ p := by
    simpa [FwTool.Splits] using h
  obtain ⟨u,v,rfl⟩ := append_of_mem hmem
  simp only [FwTool.tableOf,hp]
  refine if_pos ⟨by simp,?_⟩
  have hl : ∀ x : Str, 1 ≤ (x.splitOn '_').length := fun x => length_pos_of_ne_nil (splitOn_ne_nil '_' x)
  rw [splitOn_append_cons_self,splitOn_append_cons_self,length_append,length_append]
  have hu := hl u
  have hv := hl v
  have ht := hl t.table
  omega

section
variable {tool : FwTool} {l : LogSpec} {s : Nftables} {report : Report}

theorem createChain_of_not_splits (h : ¬tool.Splits) (t : FlowType) (policy : Policy) (family : Family) (s : Nftables) :
    (tool.setDefaultPolicy report t policy family s).1 = s := by
  obtain ⟨handle,hf⟩ := findChain_eq s (tool.tableOf t) (tool.chainOf t) family
  unfold FwTool.setDefaultPolicy FwTool.createChain
  rw [hf,splitName_of_not_splits h]

theorem chains_setRelated (t : FlowType) (policy : Policy) (family : Family) :
    (tool.setRelatedConnectionsPolicy report t policy family s).1.chains = s.chains := by
  unfold FwTool.setRelatedConnectionsPolicy
  simp only
  split
  · rfl
  · split_ifs
    · rfl
    · split
      · split
        · rfl
        · split <;> rfl
      · split
        · rfl
        · split <;> rfl

structure Kept (tool : FwTool) (l : LogSpec) (s : Nftables) : Prop where
  inv : Inv l s
  safe : l.group.isSome = true ∨ (¬tool.Splits ∧ ∀ family table chain, s.policyOf family table chain ≠ some .deny)

theorem Kept.isSafe (h : Kept tool l s) : Safe l s := h.safe.imp id And.right

theorem Kept.of_chains {s' : Nftables} (h : Kept tool l s) (hi : Inv l s') (hc : s'.chains = s.chains) :
    Kept tool l s' := by
  refine ⟨hi,h.safe.imp id fun hf => ⟨hf.1,fun family table chain => ?_⟩⟩
  rw [Inv.policyOf_congr hc]
  exact hf.2 family table chain

theorem Kept.run (hr : ReportsLog report l) (ht : tool.log = some l) (h : Kept tool l s) (c : PolicyCall U) :
    Kept tool l (c.run tool report s) := by
  cases c with
  | setDefault t policy family =>
    rcases h.safe with hg | ⟨hs,hallow⟩
    · exact ⟨FwTool.inv_createChain hr ht h.inv hg policy,.inl hg⟩
    · rw [PolicyCall.run,createChain_of_not_splits hs]
      exact h
  | setRelated t policy family =>
    exact h.of_chains (FwTool.inv_setRelatedConnectionsPolicy hr h.isSafe ht h.inv policy)
      (chains_setRelated t policy family)
  | flowSet t nflow policy logIfDeny => exact h.of_chains (FwTool.inv_flowSetPolicy hr h.isSafe ht h.inv nflow) rfl
  | flowDelete t nflow =>
    rw [PolicyCall.run,FwTool.flowDeletePolicy_fst]
    exact h

theorem Kept.runPolicies (hr : ReportsLog report l) (ht : tool.log = some l) (h : Kept tool l s)
    (calls : List (PolicyCall U)) : Kept tool l (runPolicies tool report s calls) := by
  induction calls generalizing s with
  | nil => exact h
  | cons c calls ih => exact ih (h.run hr ht c)

theorem policyOf_of_mem (h : s.Distinct) {c : Chain} (hc : c ∈ s.chains) :
    s.policyOf c.family c.table c.name = some c.policy := by
  rw [policyOf]
  cases hfi : s.chains.find? fun x => x.isNamed c.family c.table c.name with
  | none => exact absurd (isNamed_iff.2 ⟨rfl,rfl,rfl⟩) (find?_eq_none.1 hfi c hc)
  | some x =>
    have hna := find?_some hfi
    obtain ⟨hf,ht,hn⟩ := isNamed_iff.1 hna
    have heq : x = c := inj_on_of_nodup_map h (mem_of_find?_eq_some hfi) hc (by simp [hf,ht,hn])
    rw [heq]
    rfl

theorem inv_of_new (h : s.New) : Inv l s where
  shape := by simp [h.empty]
  handles := by simp [h.empty]
  distinct := h.distinct
  tidy := by
    intro family table chain
    have hp : s.policyOf family table chain ≠ some .deny := by
      intro hd
      obtain ⟨c,hc,hcd⟩ := Option.map_eq_some_iff.1 hd
      rw [h.allow c (mem_of_find?_eq_some hc)] at hcd
      cases hcd
    rw [TidyAt,if_neg hp,rulesOf,h.empty]
    simp

theorem not_deny_of_new (h : s.New) (family : Family) (table chain : Str) :
    s.policyOf family table chain ≠ some .deny :=
  (inv_of_new (l := ⟨[],none⟩) h).not_deny (by simp [rulesOf,h.empty])

theorem traverse_allow (hits : Rule → Bool) (last : List Rule) (hl : ∀ r ∈ last, r.verdict = none) {front : List Rule}
    (hf : ∀ r ∈ front, r.verdict.isSome = true) (h : (traverse hits (front ++ last)).2 = some .allow) :
    ∀ r ∈ (traverse hits (front ++ last)).1, r.verdict = some .allow := by
  induction front with
  | nil =>
    have hnone : ∀ last : List Rule, (∀ r ∈ last, r.verdict = none) → (traverse hits last).2 = none := by
      intro last hl
      induction last with
      | nil => rfl
      | cons r last ih =>
        obtain ⟨hr,hrest⟩ := forall_mem_cons.1 hl
        rw [traverse,hr]
        split_ifs <;> exact ih hrest
    rw [nil_append,hnone last hl] at h
    cases h
  | cons r front ih =>
    obtain ⟨hr,hrest⟩ := forall_mem_cons.1 hf
    obtain ⟨v,hv⟩ := Option.isSome_iff_exists.1 hr
    rw [cons_append,traverse,hv] at h ⊢
    split_ifs at h ⊢ with hh
    · intro x hx
      rw [mem_singleton.1 hx,hv]
      exact h
    · exact ih hrest h

theorem Nftables.Inv.tidy_all (h : Inv l s) : s.Tidy := by
  intro c hc
  have ht := h.tidy c.family c.table c.name
  rw [policyOf_of_mem h.distinct hc] at ht
  have hv : ∀ r ∈ s.rulesOf c.family c.table c.name, ¬r.CatchAll → r.verdict.isSome = true := fun r hr hca =>
    (h.shape r (mem_of_mem_filter hr)).resolve_right fun hl => hca hl.catchAll
  have ha : ∀ {r : Rule}, r.verdict = some .allow → ¬r.CatchAll ∧ r.verdict ≠ some .deny := by
    intro r hr
    exact ⟨not_catchAll_of_verdict (Option.isSome_of_eq_some hr),by simp [hr]⟩
  cases hp : c.policy with
  | allow =>
    rw [hp, TidyAt, if_neg (by simp)] at ht
    refine ⟨by simp,fun _ => ht,fun hits hallow r hr => ha ?_⟩
    rw [← append_nil (s.rulesOf c.family c.table c.name)] at hallow hr
    exact traverse_allow hits [] (by simp) (fun x hx => hv x hx (ht x hx)) hallow r hr
  | deny =>
    rw [hp,TidyAt,if_pos rfl] at ht
    refine ⟨fun _ => ht,by simp,fun hits hallow r hr => ha ?_⟩
    obtain ⟨front,x,heq,hx,hf⟩ := ht
    have hnone : x.verdict = none := by
      have hmem : x ∈ s.rules := mem_of_mem_filter (by rw [← rulesOf,heq]; simp : x ∈ _)
      exact ((h.shape x hmem).resolve_left fun hs => not_catchAll_of_verdict hs hx).verdict
    rw [heq] at hallow hr
    refine traverse_allow hits [x] (by simpa using hnone) (fun y hy => hv y ?_ (hf y hy)) hallow r hr
    rw [heq]
    exact mem_append_left _ hy

theorem chains_adaptLog (table chain : Str) (policy : Policy) (family : Family) :
    (tool.adaptLog report table chain policy family s).1.chains = s.chains := by
  unfold FwTool.adaptLog
  split
  · rfl
  · split
    · split <;> rfl
    · rfl
    · rfl
    · rfl
    · split <;> rfl

theorem setDefaultPolicy_eq (hs : tool.Splits) (t : FlowType) (policy : Policy) (family : Family)
    (hp : s.policyOf family (tool.tableOf t) (tool.chainOf t) ≠ some policy) :
    tool.setDefaultPolicy report t policy family s =
      tool.adaptLog report (tool.tableOf t) (tool.chainOf t) policy family
        (s.addChain family (tool.tableOf t) (tool.chainOf t) policy) := by
  obtain ⟨handle,hf⟩ := findChain_eq s (tool.tableOf t) (tool.chainOf t) family
  obtain ⟨ht,hc⟩ := splitName_of_splits hs t
  unfold FwTool.setDefaultPolicy FwTool.createChain
  rw [hf,ht,hc]
  exact if_neg hp

section
variable {family : Family} {table chain : Str}

theorem policyOf_adaptLog (policy : Policy) :
    (tool.adaptLog report table chain policy family
      (s.addChain family table chain policy)).1.policyOf family table chain = some policy := by
  rw [Inv.policyOf_congr (chains_adaptLog _ _ _ _),policyOf_addChain,if_pos ⟨rfl,rfl,rfl⟩]

/-- Without a group the log rule is not found again when the chain allows. -/
theorem not_tidy_adaptLog (hto : tool.log = some l) (hg : l.group.isSome = false) (h : Inv l s)
    (hd : s.policyOf family table chain = some .deny) :
    ¬(tool.adaptLog report table chain .allow family (s.addChain family table chain .allow)).1.Tidy := by
  have hti := h.tidy family table chain
  rw [TidyAt,if_pos hd] at hti
  obtain ⟨front,r,heq,hca,-⟩ := hti
  have hs : tool.adaptLog report table chain .allow family (s.addChain family table chain .allow) =
      (s.addChain family table chain .allow,.ok ()) := by
    obtain ⟨hf,hfi,-,hso⟩ := h.found_addChain family table chain .allow
    unfold FwTool.adaptLog
    rw [hto,hfi]
    cases hf with
    | none => rfl
    | some j =>
      rw [(hso j rfl).1] at hg
      cases hg
  rw [hs]
  intro ht
  have hp := policyOf_addChain s family table chain .allow family table chain
  rw [if_pos ⟨rfl,rfl,rfl⟩] at hp
  obtain ⟨c,hfi,hc⟩ := Option.map_eq_some_iff.1 hp
  have hna := find?_some hfi
  obtain ⟨hf,hta,hn⟩ := isNamed_iff.1 hna
  refine (ht c (mem_of_find?_eq_some hfi)).allow hc r ?_ hca
  rw [hf,hta,hn,rulesOf_addChain,heq]
  simp

end

theorem not_tidy_of_no_group (hr : ReportsLog report l) (hto : tool.log = some l) (hsp : tool.Splits)
    (hg : l.group.isSome = false) (hs : s.New) : ¬(runPolicies tool report s
      ([.setDefault .filterForward .deny .ipv4,
        .setDefault .filterForward .allow .ipv4] : List (PolicyCall U))).Tidy := by
  have hst := not_deny_of_new hs .ipv4 (tool.tableOf .filterForward) (tool.chainOf .filterForward)
  change ¬(tool.setDefaultPolicy report .filterForward .allow .ipv4
    (tool.setDefaultPolicy report .filterForward .deny .ipv4 s).1).1.Tidy
  rw [setDefaultPolicy_eq hsp .filterForward .deny .ipv4 hst,
    setDefaultPolicy_eq hsp .filterForward .allow .ipv4 (by rw [policyOf_adaptLog]; simp)]
  exact not_tidy_adaptLog hto hg (FwTool.inv_adaptLog_deny hr hto (inv_of_new hs) hst) (policyOf_adaptLog .deny)

end

theorem fresh_nil : ∀ r ∈ ([] : List Rule), r.handle < 0 := by simp
def noTables : Nftables := ⟨[],[],0,fresh_nil⟩
theorem new_noTables : noTables.New := ⟨rfl,by simp [noTables],by simp [noTables]⟩

/-- The log rule is the last one of each chain that denies, after all calls, just if the log has a
group or no policy can be changed. -/
theorem tidy_iff_group {tool : FwTool} {report : Report} {l : LogSpec} (htool : tool.log = some l)
    (hreport : ReportsLog report l) :
    (∀ s : Nftables, s.New → ∀ calls : List (PolicyCall U), (runPolicies tool report s calls).Tidy) ↔
      l.group.isSome = true ∨ ¬tool.Splits := by
  constructor
  · intro h
    by_contra hnot
    obtain ⟨hg,hsp⟩ := not_or.1 hnot
    exact not_tidy_of_no_group hreport htool (not_not.1 hsp) (Bool.eq_false_iff.2 hg) new_noTables (h _ new_noTables _)
  · intro hsa s hs calls
    have hk : Kept tool l s := ⟨inv_of_new hs,hsa.imp id fun hsp => ⟨hsp,not_deny_of_new hs⟩⟩
    exact (hk.runPolicies hreport htool calls).inv.tidy_all

def echoReport (l : LogSpec) : Report := fun words =>
  if words = l.getNftArgs then some [.obj [("log",.obj [("prefix",.str l.given)])]]
  else if words.getLast? = some Policy.allow.keyword then some [.obj [(Policy.allow.keyword,.null)]]
  else if words.getLast? = some Policy.deny.keyword then some [.obj [(Policy.deny.keyword,.null)]]
  else none

def padsiLog (group : Option ℤ) : LogSpec := ⟨"PADSI",group⟩

theorem reportsLog_echo (group : Option ℤ) (hg : group = none ∨ group = some 5) :
    ReportsLog (echoReport (padsiLog group)) (padsiLog group) where
  log := ⟨_,if_pos rfl,rfl⟩
  verdict := by
    intro words policy exprs h
    have hl : (words ++ [policy.keyword]).getLast? = some policy.keyword := by simp
    have ha : words ++ [policy.keyword] ≠ (padsiLog group).getNftArgs := by
      intro heq
      rw [heq] at hl
      rcases hg with rfl | rfl <;> cases policy <;> revert hl <;> decide +kernel
    rw [echoReport,if_neg ha,hl] at h
    cases policy <;> cases h <;> exact ⟨[],rfl⟩

theorem tidy_iff_group_padsi : padsiLog (some 5) ≠ padsiLog none ∧
    ((∀ s : Nftables, s.New → ∀ calls : List (PolicyCall .ascii),
      (runPolicies ⟨some (padsiLog (some 5)),none⟩ (echoReport (padsiLog (some 5))) s calls).Tidy) ↔
      (padsiLog (some 5)).group.isSome = true ∨ ¬FwTool.Splits ⟨some (padsiLog (some 5)),none⟩) :=
  ⟨by decide,tidy_iff_group rfl (reportsLog_echo (some 5) (.inr rfl))⟩

/-- Without a group the rule stays in a chain that allows, before the rule that accepts related
connections. -/
theorem log_rule_is_lost :
    ¬(runPolicies ⟨some (padsiLog none),none⟩ (echoReport (padsiLog none)) noTables
      ([.setDefault .filterForward .deny .ipv4,
        .setDefault .filterForward .allow .ipv4] : List (PolicyCall .ascii))).Tidy ∧
    (runPolicies ⟨some (padsiLog none),none⟩ (echoReport (padsiLog none)) noTables
      ([.setDefault .filterForward .deny .ipv4,
        .setRelated .filterForward .allow .ipv4] : List (PolicyCall .ascii))).rules.map Rule.verdict =
        [none,some .allow] :=
  ⟨not_tidy_of_no_group (reportsLog_echo none (.inl rfl)) rfl (by simp [FwTool.Splits]) rfl new_noTables,
    by decide +kernel⟩

end Padsi.Fw
