import Padsi.Fw.Nft
import Padsi.Fw.Search

/-! # Policies of flows

`FwTool` on the ruleset of the kernel. What nft reports for the words of a rule is a
parameter.
-/
namespace Padsi.Fw
open Text Net Python List Option

variable {U : Unicode}

inductive FlowType where
  | filterInput
  | filterOutput
  | filterForward
  | natPostrouting
  | natPrerouting
deriving DecidableEq, Repr

def FlowType.table : FlowType → Str
  | .filterInput | .filterOutput | .filterForward => "filter"
  | .natPostrouting | .natPrerouting => "nat"

def FlowType.chain : FlowType → Str
  | .filterInput => "INPUT"
  | .filterOutput => "OUTPUT"
  | .filterForward => "FORWARD"
  | .natPostrouting => "POSTROUTING"
  | .natPrerouting => "PREROUTING"

structure Rule where
  family : Str
  table : Str
  chain : Str
  handle : ℕ
  expr : List Json

def Rule.body (r : Rule) : Json :=
  .obj [("family",.str r.family),("table",.str r.table),("chain",.str r.chain),
    ("handle",.num r.handle),("expr",.arr r.expr)]

def Rule.fields (r : Rule) : List (Str × Json) := [("rule",r.body)]
def Rule.isAt (r : Rule) (table chain handle : Str) : Bool :=
  decide (r.family = "ip" ∧ r.table = table ∧ r.chain = chain ∧ Nat.toDigits 10 r.handle = handle)

structure Kernel where
  others : List (List (Str × Json))
  rules : List Rule
  next : ℕ
  noRule : ∀ fields ∈ others, Json.field "rule" fields = none
  fresh : ∀ r ∈ rules, r.handle < next

def Kernel.listing (k : Kernel) : Json :=
  .obj [("nftables",.arr ((k.others ++ k.rules.map Rule.fields).map .obj))]

inductive Command where
  | add (table chain : Str) (spec : List Str)
  | insert (table chain handle : Str) (spec : List Str)
  | delete (table chain handle : Str)

/-- What nft reports for the words of a rule, nothing if it refuses them. -/
abbrev Report := List Str → Option (List Json)

namespace Kernel

def withRule (k : Kernel) (front rest : List Rule) (hrules : k.rules = front ++ rest) (table chain : Str)
    (expr : List Json) : Kernel :=
  { k with
    rules := front ++ ⟨"ip",table,chain,k.next,expr⟩ :: rest
    next := k.next + 1
    fresh := by
      intro r hr
      rcases mem_append.1 hr with hr | hr
      · exact Nat.lt_succ_of_lt (k.fresh r (hrules ▸ mem_append_left _ hr))
      · rcases mem_cons.1 hr with rfl | hr
        · exact Nat.lt_succ_self _
        · exact Nat.lt_succ_of_lt (k.fresh r (hrules ▸ mem_append_right _ hr)) }

def exec (report : Report) (k : Kernel) : Command → Option Kernel
  | .add table chain spec => (report spec).map fun expr => k.withRule k.rules [] (append_nil _).symm table chain expr
  | .insert table chain handle spec =>
    if k.rules.any (·.isAt table chain handle) then
      (report spec).map fun expr =>
        k.withRule (k.rules.takeWhile fun r => !r.isAt table chain handle)
          (k.rules.dropWhile fun r => !r.isAt table chain handle)
          takeWhile_append_dropWhile.symm table chain expr
    else none
  | .delete table chain handle =>
    if k.rules.any (·.isAt table chain handle) then
      some { k with
        rules := k.rules.filter fun r => !r.isAt table chain handle
        fresh := fun r hr => k.fresh r (mem_of_mem_filter hr) }
    else none

end Kernel

structure FwTool where
  log : Option LogSpec
  objectsPrefix : Option Str

def FwTool.tableOf (tool : FwTool) (t : FlowType) : Str :=
  match tool.objectsPrefix with
  | none => t.table
  | some p => p ++ '_' :: t.table

def FwTool.chainOf (tool : FwTool) (t : FlowType) : Str :=
  match tool.objectsPrefix with
  | none => t.chain
  | some p => p ++ '_' :: t.chain

def commandFailed (what table chain : Str) : Exc :=
  .firewall ("Could not " ++ what ++ " rule in table '" ++ table ++ "', chain '" ++ chain ++ "'")

def noPolicy (flow : Str) : Exc := .firewall ("CODEBUG: could not identify Policy of netflow " ++ flow)

namespace FwTool

def ruleWords (tool : FwTool) (specargs : List Str) (policy : Policy) (logIfDeny : Bool) : List Str :=
  specargs ++ (if policy = .deny ∧ logIfDeny then (tool.log.map LogSpec.getNftArgs).getD [] else []) ++ [policy.keyword]

def newRule (table chain : Str) (h : Option Json) (words : List Str) : Command :=
  match h with
  | none => .add table chain words
  | some h => .insert table chain h.format words

section
variable (tool : FwTool) (report : Report) (current : Json) (t : FlowType) (policy : Policy)

def setOne (logIfDeny : Bool) (family : Family) (pflow : NetFlow U) (k : Kernel) : Kernel × Except Exc Bool :=
  let table := tool.tableOf t
  let chain := tool.chainOf t
  match findRule current table chain pflow with
  | .error e => (k,.error e)
  | .ok (handle,cpolicy) =>
    if cpolicy = some policy then (k,.ok true)
    else
      match pflow.nftArgs with
      | .error e => (k,.error e)
      | .ok specargs =>
        let words := tool.ruleWords specargs policy logIfDeny
        match cpolicy with
        | none =>
          match findChainDenyLogRule current table chain tool.log family with
          | .error e => (k,.error e)
          | .ok h =>
            match k.exec report (newRule table chain h words) with
            | none => (k,.error (commandFailed "add" table chain))
            | some k' => (k',.ok false)
        | some _ =>
          let h := (handle.getD .null).format
          match k.exec report (.insert table chain h words) with
          | none => (k,.error (commandFailed "insert" table chain))
          | some k' =>
            match k'.exec report (.delete table chain h) with
            | none => (k',.error (commandFailed "delete" table chain))
            | some k'' => (k'',.ok false)

def setEach (tool : FwTool) (report : Report) (current : Json) (t : FlowType) (policy : Policy)
    (logIfDeny : Bool) (family : Family) :
    List (NetFlow U) → Kernel → Kernel × Except Exc Unit
  | [], k => (k,.ok ())
  | pflow :: flows, k =>
    match tool.setOne report current t policy logIfDeny family pflow k with
    | (k',.error e) => (k',.error e)
    | (k',.ok true) => (k',.ok ())
    | (k',.ok false) => setEach tool report current t policy logIfDeny family flows k'

def flowSetPolicy (nflow : NetFlow U) (policy : Policy) (logIfDeny : Bool)
    (family : Family) (k : Kernel) : Kernel × Except Exc Unit :=
  match nflow.splitByProtocol with
  | .error e => (k,.error e)
  | .ok flows => tool.setEach report k.listing t policy logIfDeny family (flows.map Prod.snd) k

def policyOf (current : Json) (table chain : Str) (p : Option Policy) : List (NetFlow U) → Except Exc (Option Policy)
  | [] => .ok p
  | pflow :: flows => do
    let (_,cpolicy) ← findRule current table chain pflow
    if p ≠ none ∧ p ≠ cpolicy then throw .subFlows
    policyOf current table chain cpolicy flows

def flowGetPolicy (nflow : NetFlow U) (k : Kernel) : Except Exc Policy := do
  let flows ← nflow.splitByProtocol
  match ← policyOf k.listing (tool.tableOf t) (tool.chainOf t) none (flows.map Prod.snd) with
  | none => throw (noPolicy (← nflow.text))
  | some p => return p

def deleteEach (tool : FwTool) (report : Report) (current : Json) (t : FlowType) :
    List (NetFlow U) → Kernel → Kernel × Except Exc Unit
  | [], k => (k,.ok ())
  | pflow :: flows, k =>
    let table := tool.tableOf t
    let chain := tool.chainOf t
    match findRule current table chain pflow with
    | .error e => (k,.error e)
    | .ok (none,_) => deleteEach tool report current t flows k
    | .ok (some h,_) =>
      match k.exec report (.delete table chain h.format) with
      | none => (k,.error (commandFailed "delete" table chain))
      | some k' => deleteEach tool report current t flows k'

def flowDeletePolicy (nflow : NetFlow U) (k : Kernel) : Kernel × Except Exc Unit :=
  match nflow.splitByProtocol with
  | .error e => (k,.error e)
  | .ok flows => tool.deleteEach report k.listing t (flows.map Prod.snd) k

end

end FwTool

/-- The search finds no rule, so that nothing is deleted and every call that sets a policy adds its rules. -/
theorem findRule_kernel (k : Kernel) (table chain : Str) (nflow : NetFlow U) :
    findRule k.listing table chain nflow = .ok (none,none) := findRule_listing _ table chain nflow

theorem Kernel.sublist_withRule {k : Kernel} {front rest : List Rule} (hrules : k.rules = front ++ rest)
    {table chain : Str}
    {expr : List Json} : k.rules.Sublist (k.withRule front rest hrules table chain expr).rules := by
  rw [hrules]
  exact (sublist_cons_self _ rest).append_left front

theorem exec_newRule {report : Report} {k k' : Kernel} {table chain : Str} {h : Option Json} {words : List Str}
    (he : k.exec report (FwTool.newRule table chain h words) = some k') :
    k.rules.Sublist k'.rules ∧ ∃ r ∈ k'.rules, r.family = "ip" ∧ r.table = table ∧ r.chain = chain ∧
      report words = some r.expr := by
  have ha : ∀ {front rest} (hrules : k.rules = front ++ rest) {expr}, report words = some expr →
      k.withRule front rest hrules table chain expr = k' →
      k.rules.Sublist k'.rules ∧ ∃ r ∈ k'.rules, r.family = "ip" ∧ r.table = table ∧ r.chain = chain ∧
        report words = some r.expr := by
    rintro front rest hrules expr hex rfl
    exact ⟨Kernel.sublist_withRule hrules,_,mem_append_right _ mem_cons_self,rfl,rfl,rfl,hex⟩
  cases h with
  | none =>
    obtain ⟨expr,hex,hk⟩ := map_eq_some_iff.1 he
    exact ha _ hex hk
  | some h =>
    simp only [FwTool.newRule,Kernel.exec] at he
    split at he
    · obtain ⟨expr,hex,hk⟩ := map_eq_some_iff.1 he
      exact ha _ hex hk
    · cases he

namespace FwTool
variable {tool : FwTool} {report : Report} {k₀ k : Kernel} {t : FlowType} {policy : Policy} {logIfDeny : Bool}
  {family : Family}

theorem setOne_eq {pflow : NetFlow U} : tool.setOne report k₀.listing t policy logIfDeny family pflow k =
    match pflow.nftArgs with
    | .error e => (k,.error e)
    | .ok args =>
      match findChainDenyLogRule k₀.listing (tool.tableOf t) (tool.chainOf t) tool.log family with
      | .error e => (k,.error e)
      | .ok h =>
        match k.exec report (newRule (tool.tableOf t) (tool.chainOf t) h (tool.ruleWords args policy logIfDeny)) with
        | none => (k,.error (commandFailed "add" (tool.tableOf t) (tool.chainOf t)))
        | some k' => (k',.ok false) := by
  simp only [setOne,findRule_kernel,reduceCtorEq,reduceIte]

def RuleFor (tool : FwTool) (report : Report) (t : FlowType) (pflow : NetFlow U) (policy : Policy) (r : Rule) : Prop :=
  r.family = "ip" ∧ r.table = tool.tableOf t ∧ r.chain = tool.chainOf t ∧
    ∃ args logIfDeny, pflow.nftArgs = .ok args ∧ report (tool.ruleWords args policy logIfDeny) = some r.expr

theorem setOne_cases (pflow : NetFlow U) :
    (∃ e, tool.setOne report k₀.listing t policy logIfDeny family pflow k = (k,.error e)) ∨
      ∃ k', tool.setOne report k₀.listing t policy logIfDeny family pflow k = (k',.ok false) ∧
        k.rules.Sublist k'.rules ∧
        ∃ r ∈ k'.rules, RuleFor tool report t pflow policy r := by
  rw [setOne_eq]
  cases ha : pflow.nftArgs with
  | error e => exact .inl ⟨e,rfl⟩
  | ok args =>
    simp only
    cases findChainDenyLogRule k₀.listing (tool.tableOf t) (tool.chainOf t) tool.log family with
    | error e => exact .inl ⟨e,rfl⟩
    | ok h =>
      simp only
      cases he : k.exec report (newRule (tool.tableOf t) (tool.chainOf t) h (tool.ruleWords args policy logIfDeny)) with
      | none => exact .inl ⟨_,rfl⟩
      | some k' =>
        obtain ⟨hs,r,hr,hf,ht,hc,hex⟩ := exec_newRule he
        exact .inr ⟨k',rfl,hs,r,hr,hf,ht,hc,args,logIfDeny,ha,hex⟩

theorem sublist_setEach (flows : List (NetFlow U)) :
    k.rules.Sublist (tool.setEach report k₀.listing t policy logIfDeny family flows k).1.rules := by
  induction flows generalizing k with
  | nil => exact List.Sublist.refl _
  | cons pflow flows ih =>
    unfold setEach
    have ho : (∃ e, tool.setOne report k₀.listing t policy logIfDeny family pflow k = (k,.error e)) ∨ _ :=
      setOne_cases pflow
    rcases ho with ⟨e,he⟩ | ⟨k',hk',hs,_⟩
    · rw [he]
    · rw [hk']
      exact hs.trans ih

theorem deleteEach_eq (flows : List (NetFlow U)) : tool.deleteEach report k₀.listing t flows k = (k,.ok ()) := by
  induction flows with
  | nil => rfl
  | cons pflow flows ih =>
    unfold deleteEach
    simp only [findRule_kernel]
    exact ih

theorem flowDeletePolicy_fst (nflow : NetFlow U) : (tool.flowDeletePolicy report t nflow k).1 = k := by
  unfold flowDeletePolicy
  cases nflow.splitByProtocol with
  | error e => rfl
  | ok flows => exact congrArg Prod.fst (deleteEach_eq _)

theorem policyOf_eq (table chain : Str) (flows : List (NetFlow U)) :
    policyOf k.listing table chain none flows = .ok none := by
  induction flows with
  | nil => rfl
  | cons pflow flows ih =>
    unfold policyOf
    rw [findRule_kernel]
    exact ih

theorem flowGetPolicy_ne (nflow : NetFlow U) (p : Policy) : tool.flowGetPolicy t nflow k ≠ .ok p := by
  intro h
  obtain ⟨flows,_,h⟩ := bind_eq_ok.1 h
  obtain ⟨r,hr,h⟩ := bind_eq_ok.1 h
  rw [policyOf_eq] at hr
  cases hr
  obtain ⟨_,_,h⟩ := bind_eq_ok.1 h
  cases h

end FwTool

inductive Call (U : Unicode) where
  | set (t : FlowType) (nflow : NetFlow U) (policy : Policy) (logIfDeny : Bool) (family : Family)
  | delete (t : FlowType) (nflow : NetFlow U)

/-- The ruleset, with the last policy that was set and not deleted for each flow. -/
structure World (U : Unicode) where
  kernel : Kernel
  policies : FlowType → NetFlow U → Option Policy

def World.start (k : Kernel) : World U := ⟨k,fun _ _ => none⟩

/-- A call that raises an exception has set or deleted no policy. -/
def World.after (w : World U) (t : FlowType) (nflow : NetFlow U) (policy : Option Policy)
    (r : Kernel × Except Exc Unit) : World U :=
  match r with
  | (k,.ok _) => ⟨k,fun t' f => if t' = t ∧ f = nflow then policy else w.policies t' f⟩
  | (k,.error _) => ⟨k,w.policies⟩

namespace Call

def flowType : Call U → FlowType
  | .set t _ _ _ _ => t
  | .delete t _ => t

def flow : Call U → NetFlow U
  | .set _ f _ _ _ => f
  | .delete _ f => f

def run (tool : FwTool) (report : Report) (w : World U) : Call U → World U
  | .set t f p logIfDeny family => w.after t f (some p) (tool.flowSetPolicy report t f p logIfDeny family w.kernel)
  | .delete t f => w.after t f none (tool.flowDeletePolicy report t f w.kernel)

def Refused (tool : FwTool) (report : Report) : Call U → Prop
  | .set _ f p logIfDeny _ =>
    ∀ part parts, f.splitByProtocol = .ok (part :: parts) → ∀ args, part.2.nftArgs = .ok args →
      report (tool.ruleWords args p logIfDeny) = none
  | .delete _ _ => True

end Call

/-- The ruleset gives each part of a flow the policy of the flow. -/
structure Faithful (tool : FwTool) (report : Report) (w : World U) (t : FlowType) (nflow : NetFlow U) : Prop where
  single : ∀ parts, nflow.splitByProtocol = .ok parts →
    ∀ part ∈ parts, ∀ r ∈ w.kernel.rules, ∀ s ∈ w.kernel.rules, ∀ p q,
    tool.RuleFor report t part.2 p r → tool.RuleFor report t part.2 q s → r.handle = s.handle
  verdict : ∀ parts, nflow.splitByProtocol = .ok parts → ∀ part ∈ parts, ∀ r ∈ w.kernel.rules, ∀ p,
    tool.RuleFor report t part.2 p r → w.policies t nflow = some p
  present : ∀ parts, nflow.splitByProtocol = .ok parts → ∀ part ∈ parts, ∀ p, w.policies t nflow = some p →
    ∃ r ∈ w.kernel.rules, tool.RuleFor report t part.2 p r
  read : ∀ p, w.policies t nflow = some p → tool.flowGetPolicy t nflow w.kernel = .ok p

structure World.Untouched (w : World U) : Prop where
  rules : w.kernel.rules = []
  policies : ∀ t f, w.policies t f = none

theorem World.Untouched.faithful {tool : FwTool} {report : Report} {w : World U} (h : w.Untouched)
    (t : FlowType) (nflow : NetFlow U) : Faithful tool report w t nflow := by
  have hnone : ∀ r, r ∉ w.kernel.rules := by simp [h.rules]
  refine ⟨fun _ _ _ _ r hr => absurd hr (hnone r),fun _ _ _ _ r hr => absurd hr (hnone r),
    fun _ _ _ _ p hp => ?_,fun p hp => ?_⟩
  · rw [h.policies] at hp
    cases hp
  · rw [h.policies] at hp
    cases hp

theorem splitByProtocol_ne_nil {nflow : NetFlow U} : nflow.splitByProtocol ≠ .ok [] := by
  intro h
  obtain ⟨protos,_,h⟩ := bind_eq_ok.1 h
  split at h
  · cases h
  · cases h
  · rename_i protos hn hs
    obtain ⟨p,rest,hp⟩ := exists_cons_of_ne_nil hn
    rw [hp,eraseDups_cons,mapM_cons] at h
    obtain ⟨x,_,h⟩ := bind_eq_ok.1 h
    obtain ⟨xs,_,h⟩ := bind_eq_ok.1 h
    cases h

section
variable {tool : FwTool} {report : Report} {w : World U}

theorem findChainDenyLogRule_eq (k : Kernel) (table chain : Str) (log : Option LogSpec) (family : Family) :
    findChainDenyLogRule k.listing table chain log family =
      denyLogIn table chain family log ((k.rules.map Rule.fields).map .obj) := by
  change denyLogIn table chain family log ((k.others ++ k.rules.map Rule.fields).map .obj) = _
  rw [map_append,denyLogIn_append_none k.noRule]

theorem findChainDenyLogRule_none {k : Kernel} (hk : k.rules = []) (table chain : Str) (log : Option LogSpec)
    (family : Family) : findChainDenyLogRule k.listing table chain log family = .ok none := by
  rw [findChainDenyLogRule_eq,hk]
  rfl

theorem World.kernel_after {t : FlowType} {f : NetFlow U} {policy : Option Policy} {r : Kernel × Except Exc Unit} :
    (w.after t f policy r).kernel = r.1 := by
  obtain ⟨k,r⟩ := r
  cases r <;> rfl

theorem World.Untouched.after (h : w.Untouched) {t : FlowType} {f : NetFlow U} {policy : Option Policy}
    {r : Kernel × Except Exc Unit} (hk : r.1 = w.kernel) (hr : policy = none ∨ ∃ e, r.2 = .error e) :
    (w.after t f policy r).Untouched := by
  obtain ⟨k,r⟩ := r
  subst hk
  unfold World.after
  cases r with
  | error e => exact ⟨h.rules,h.policies⟩
  | ok u =>
    have hnone : policy = none := hr.resolve_right nofun
    refine ⟨h.rules,fun t' f' => ?_⟩
    simp only [hnone,h.policies,ite_self]

theorem World.Untouched.run (h : w.Untouched) {c : Call U} (hc : c.Refused tool report) :
    (c.run tool report w).Untouched := by
  cases c with
  | delete t f => exact h.after (FwTool.flowDeletePolicy_fst f) (.inl rfl)
  | set t f p logIfDeny family =>
    have hs : ∃ e, tool.flowSetPolicy report t f p logIfDeny family w.kernel = (w.kernel,.error e) := by
      unfold FwTool.flowSetPolicy
      cases hsplit : f.splitByProtocol with
      | error e => exact ⟨e,rfl⟩
      | ok parts =>
        cases parts with
        | nil => exact absurd hsplit splitByProtocol_ne_nil
        | cons part parts =>
          simp only [map_cons,FwTool.setEach,FwTool.setOne_eq]
          cases ha : part.2.nftArgs with
          | error e => exact ⟨e,rfl⟩
          | ok args =>
            have hr := hc part parts hsplit args ha
            have hex : w.kernel.exec report
                (.add (tool.tableOf t) (tool.chainOf t) (tool.ruleWords args p logIfDeny)) = none := by
              rw [Kernel.exec,hr]
              rfl
            simp only [findChainDenyLogRule_none h.rules,FwTool.newRule,hex]
            exact ⟨_,rfl⟩
    obtain ⟨e,he⟩ := hs
    exact h.after (congrArg Prod.fst he) (.inr ⟨e,congrArg Prod.snd he⟩)

/-- A call after which the ruleset is faithful was refused: a rule that it adds is never found again. -/
theorem refused_of_faithful (hw : w.Untouched) {c : Call U}
    (h : Faithful tool report (c.run tool report w) c.flowType c.flow) : c.Refused tool report := by
  cases c with
  | delete t f => trivial
  | set t f p logIfDeny family =>
    intro part parts hsplit args ha
    by_contra hre
    obtain ⟨expr,hex⟩ := ne_none_iff_exists'.1 hre
    obtain ⟨k',he⟩ : ∃ k', w.kernel.exec report
        (FwTool.newRule (tool.tableOf t) (tool.chainOf t) none (tool.ruleWords args p logIfDeny)) = some k' := by
      simp only [FwTool.newRule,Kernel.exec,hex,map_some]
      exact ⟨_,rfl⟩
    obtain ⟨_,r,hr,hf,ht,hc,hr'⟩ := exec_newRule he
    have ho : tool.setOne report w.kernel.listing t p logIfDeny family part.2 w.kernel = (k',.ok false) := by
      rw [FwTool.setOne_eq,ha]
      simp only [findChainDenyLogRule_none hw.rules,he]
    have hs : tool.flowSetPolicy report t f p logIfDeny family w.kernel =
        tool.setEach report w.kernel.listing t p logIfDeny family (parts.map Prod.snd) k' := by
      unfold FwTool.flowSetPolicy
      simp only [hsplit,map_cons,FwTool.setEach,ho]
    have hru : r ∈ ((Call.set t f p logIfDeny family).run tool report w).kernel.rules := by
      rw [Call.run,World.kernel_after,hs]
      exact (FwTool.sublist_setEach _).subset hr
    have hp := h.verdict _ hsplit part mem_cons_self r hru p ⟨hf,ht,hc,args,logIfDeny,ha,hr'⟩
    exact FwTool.flowGetPolicy_ne f p (h.read p hp)

def runCalls (tool : FwTool) (report : Report) (w : World U) (calls : List (Call U)) : World U :=
  calls.foldl (Call.run tool report) w

/-- From a ruleset without rules, the policies are faithful after each call if and only if every
call is refused. -/
theorem policies_faithful_iff {k : Kernel} (hk : k.rules = []) (calls : List (Call U)) :
    (∀ done, done <+: calls → ∀ c ∈ done,
      Faithful tool report (runCalls tool report (.start k) done) c.flowType c.flow) ↔
      ∀ c ∈ calls, c.Refused tool report := by
  have hs : (World.start k : World U).Untouched := ⟨hk,fun _ _ => rfl⟩
  have hr : ∀ done : List (Call U), (∀ c ∈ done, c.Refused tool report) →
      (runCalls tool report (.start k) done).Untouched := by
    intro done
    induction done using reverseRecOn with
    | nil => exact fun _ => hs
    | append_singleton done c ih =>
      intro hd
      rw [runCalls,foldl_append]
      exact (ih fun c hc => hd c (mem_append_left _ hc)).run (hd c (by simp))
  constructor
  · intro h
    -- the calls are refused one after the other
    suffices hp : ∀ done : List (Call U), done <+: calls →
      ∀ c ∈ done, c.Refused tool report from hp calls (prefix_refl _)
    intro done
    induction done using reverseRecOn with
    | nil => exact fun _ => nofun
    | append_singleton done c ih =>
      intro hd
      have hb := ih ((prefix_append _ _).trans hd)
      have hf := h _ hd c (by simp)
      rw [runCalls,foldl_append] at hf
      have hc := refused_of_faithful (hr done hb) hf
      intro x hx
      rcases mem_append.1 hx with hx | hx
      · exact hb x hx
      · rwa [mem_singleton.1 hx]
  · intro h done hd c _
    exact (hr done fun x hx => h x (hd.subset hx)).faithful _ _

end

def emptyKernel : Kernel := ⟨[],[],1,nofun,nofun⟩
def plainTool : FwTool := ⟨none,none⟩
def hostFlow : NetFlow .ascii :=
  ⟨⟨[.all],none,[],[],[],everywhereWeb.located⟩,⟨[.address ⟨10,0,0,1⟩],none,[],[],[],oneHostWeb.located⟩⟩

def hostReport : Report := fun words =>
  if words = ["ip".toList,"daddr".toList,"\x7b10.0.0.1\x7d".toList,"accept".toList] then
    some [.obj [("match",.obj [("op",.str "=="),
        ("left",.obj [("payload",.obj [("protocol",.str "ip"),("field",.str "daddr")])]),
        ("right",.str "10.0.0.1")])],
      .obj [("accept",.null)]]
  else none

def refusedCalls : List (Call .ascii) :=
  [.set .filterForward hostFlow .deny false .ipv4,.delete .filterForward hostFlow,
    .set .filterForward hostFlow .deny true .ipv4]

theorem refused_deny (logIfDeny : Bool) :
    (Call.set .filterForward hostFlow .deny logIfDeny .ipv4).Refused plainTool hostReport := by
  intro part parts hsplit args hargs
  have hp : hostFlow.splitByProtocol = .ok [(none,hostFlow)] := rfl
  cases hp.symm.trans hsplit
  have ha : hostFlow.nftArgs = .ok ["ip","daddr","\x7b10.0.0.1\x7d"] := by decide +kernel
  cases ha.symm.trans hargs
  cases logIfDeny <;> decide +kernel

/-- nft knows no rule that denies the host: the policies are set and deleted without an effect. -/
theorem refusedCalls_faithful : emptyKernel.rules = [] ∧ ∀ done, done <+: refusedCalls → ∀ c ∈ done,
    Faithful plainTool hostReport (runCalls plainTool hostReport (.start emptyKernel) done) c.flowType c.flow := by
  refine ⟨rfl,(policies_faithful_iff rfl refusedCalls).2 ?_⟩
  simp only [refusedCalls,forall_mem_cons]
  exact ⟨refused_deny false,trivial,refused_deny true,nofun⟩

/-- The rule of a flow stays after its policy is deleted, since the search does not look at it. -/
theorem deleted_policy_leaves_rule :
    let set := Call.set .filterForward hostFlow .allow true .ipv4
    let w := runCalls plainTool hostReport (.start emptyKernel) [set]
    let w' := runCalls plainTool hostReport (.start emptyKernel) [set,.delete .filterForward hostFlow]
    NetFlow.fromRepr .ascii "*>>10.0.0.1" = .ok hostFlow ∧
      w.policies .filterForward hostFlow = some .allow ∧
      plainTool.flowGetPolicy .filterForward hostFlow w.kernel = .error (noPolicy "*>>10.0.0.1") ∧
      w'.policies .filterForward hostFlow = none ∧
      (w'.kernel.rules.map fun r => ruleMatchNetflow r.body hostFlow) = [.ok (true,some .allow)] := by
  decide +kernel

end Padsi.Fw
