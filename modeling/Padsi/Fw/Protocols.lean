import Padsi.Fw.DenyLog

/-! # Every protocol of a flow

The loop of `flow_set_policy` for any answers of the search. A flow that has the policy
already ends the loop.
-/
namespace Padsi.Fw
open Text Net Python FwTool List Option
variable {U : Unicode}

/-- A call of `flow_set_policy`, with what its search answers for each flow: the handle of a rule
and its policy. -/
structure Setting (U : Unicode) where
  tool : FwTool
  report : Report
  flowtype : FlowType
  policy : Policy
  logIfDeny : Bool
  family : Family
  find : NetFlow U → Option (ℕ × Policy)

namespace Setting

section
variable (c : Setting U)

def table : Str := c.tool.tableOf c.flowtype
def chain : Str := c.tool.chainOf c.flowtype

def setOne (current : Json) (pflow : NetFlow U) (k : Kernel) : Kernel × Except Exc Bool :=
  if (c.find pflow).map Prod.snd = some c.policy then (k,.ok true)
  else
    match pflow.nftArgs with
    | .error e => (k,.error e)
    | .ok specargs =>
      let words := c.tool.ruleWords specargs c.policy c.logIfDeny
      match c.find pflow with
      | none =>
        match findChainDenyLogRule current c.table c.chain c.tool.log c.family with
        | .error e => (k,.error e)
        | .ok h =>
          match k.exec c.report (newRule c.table c.chain h words) with
          | none => (k,.error (commandFailed "add" c.table c.chain))
          | some k' => (k',.ok false)
      | some (handle,_) =>
        let h := (Json.num handle).format
        match k.exec c.report (.insert c.table c.chain h words) with
        | none => (k,.error (commandFailed "insert" c.table c.chain))
        | some k' =>
          match k'.exec c.report (.delete c.table c.chain h) with
          | none => (k',.error (commandFailed "delete" c.table c.chain))
          | some k'' => (k'',.ok false)

def setEach (current : Json) : List (NetFlow U) → Kernel → Kernel × Except Exc Unit
  | [], k => (k,.ok ())
  | pflow :: flows, k =>
    match c.setOne current pflow k with
    | (k',.error e) => (k',.error e)
    | (k',.ok true) => (k',.ok ())
    | (k',.ok false) => setEach current flows k'

def run (nflow : NetFlow U) (k : Kernel) : Kernel × Except Exc Unit :=
  match nflow.splitByProtocol with
  | .error e => (k,.error e)
  | .ok flows => c.setEach k.listing (flows.map Prod.snd) k

def Given (f : NetFlow U) (r : Rule) : Prop :=
  ∃ args, f.nftArgs = .ok args ∧ c.report (c.tool.ruleWords args c.policy c.logIfDeny) = some r.expr
def At (k : Kernel) (handle : ℕ) : Prop := ∃ r ∈ k.rules, r.isIn .ipv4 c.table c.chain (Nat.toDigits 10 handle) = true
def Has (f : NetFlow U) : Prop := (c.find f).map Prod.snd = some c.policy
instance : DecidablePred c.Has := fun _ => decEq _ _

structure Gave (flows : List (NetFlow U)) (k k' : Kernel) : Prop where
  next : k.next ≤ k'.next
  given : ∀ f ∈ flows, ∃ r ∈ k'.rules, k.next ≤ r.handle ∧ c.Given f r
  new : ∀ r ∈ k'.rules, r ∈ k.rules ∨ k.next ≤ r.handle ∧ ∃ f ∈ flows, c.Given f r
  kept : ∀ r ∈ k.rules, (∀ f ∈ flows, ∀ x ∈ c.find f, x.1 ≠ r.handle) → r ∈ k'.rules
  gone : ∀ f ∈ flows, ∀ x ∈ c.find f, ¬c.At k' x.1

/-- Each flow has a rule with the policy, and none with the other one. -/
structure Handled (flows : List (NetFlow U)) (k k' : Kernel) : Prop where
  set : ∀ f ∈ flows, (∃ h, c.find f = some (h,c.policy) ∧ c.At k' h) ∨ ∃ r ∈ k'.rules, k.next ≤ r.handle ∧ c.Given f r
  unset : ∀ f ∈ flows, ∀ h p, c.find f = some (h,p) → p ≠ c.policy → ¬c.At k' h

/-- The search answers with rules of the chain, and a rule has one policy. -/
structure Answers (flows : List (NetFlow U)) (k : Kernel) : Prop where
  isAt : ∀ f ∈ flows, ∀ x ∈ c.find f, c.At k x.1
  policy_eq : ∀ f ∈ flows, ∀ g ∈ flows, ∀ x ∈ c.find f, ∀ y ∈ c.find g, x.1 = y.1 → x.2 = y.2
end

variable {c : Setting U} {current : Json} {k k' : Kernel} {pflow : NetFlow U} {flows : List (NetFlow U)}

theorem setEach_eq (h : ∀ f ∈ flows,
    findRule current c.table c.chain f = .ok ((c.find f).map fun x => .num x.1,(c.find f).map Prod.snd)) :
    c.tool.setEach c.report current c.flowtype c.policy c.logIfDeny c.family flows k = c.setEach current flows k := by
  induction flows generalizing k with
  | nil => rfl
  | cons pflow flows ih =>
    obtain ⟨hfirst,hrest⟩ := forall_mem_cons.1 h
    have ho : c.tool.setOne c.report current c.flowtype c.policy c.logIfDeny c.family pflow k =
        c.setOne current pflow k := by
      unfold FwTool.setOne setOne
      rw [table,chain] at hfirst
      simp only [hfirst]
      cases c.find pflow with
      | none => rfl
      | some x => rfl
    rw [FwTool.setEach,setEach,ho]
    rcases c.setOne current pflow k with ⟨k₁,_ | _ | _⟩
    · rfl
    · exact ih hrest
    · rfl

theorem exec_added {report : Report} {h : Option Json} {table chain : Str} {words : List Str}
    (he : k.exec report (newRule table chain h words) = some k') :
    k'.next = k.next + 1 ∧ ∃ expr, report words = some expr ∧
      ∀ r, r ∈ k'.rules ↔ r = ⟨Family.ipv4.value,table,chain,k.next,expr⟩ ∨ r ∈ k.rules := by
  rw [Kernel.exec_eq] at he
  cases h with
  | none =>
    obtain ⟨expr,hex,rfl⟩ := map_eq_some_iff.1 he
    refine ⟨rfl,expr,hex,fun r => ?_⟩
    change r ∈ k.rules ++ [_] ↔ _
    rw [mem_append,mem_singleton,or_comm]
  | some h =>
    obtain ⟨front,rest,expr,hrules,hr',hex,-⟩ := execIn_insert he
    refine ⟨?_,expr,hex,fun r => ?_⟩
    · rw [newRule,Kernel.execIn] at he
      split_ifs at he
      obtain ⟨-,-,rfl⟩ := map_eq_some_iff.1 he
      rfl
    · rw [hrules,hr',mem_append,mem_cons,mem_append]
      exact or_left_comm

theorem handle_of_isIn {r : Rule} {handle : ℕ}
    (h : r.isIn .ipv4 c.table c.chain (Nat.toDigits 10 handle) = true) : r.handle = handle :=
  toDigits_injective (of_decide_eq_true h).2.2.2

namespace Gave

theorem refl (k : Kernel) : c.Gave [] k k :=
  ⟨le_rfl,by simp,fun r hr => .inl hr,fun r hr _ => hr,by simp⟩

theorem of_added {h : Option Json} {args : List Str} (ha : pflow.nftArgs = .ok args) (hf : c.find pflow = none)
    (hex : k.exec c.report (newRule c.table c.chain h (c.tool.ruleWords args c.policy c.logIfDeny)) = some k') :
    c.Gave [pflow] k k' := by
  obtain ⟨hn,expr,he,hmem⟩ := exec_added hex
  refine ⟨hn ▸ Nat.le_succ _,?_,fun r hr => ?_,fun r hr _ => (hmem r).2 (.inr hr),by simp [hf]⟩
  · exact forall_mem_singleton.2 ⟨_,(hmem _).2 (.inl rfl),le_rfl,args,ha,he⟩
  · rcases (hmem r).1 hr with rfl | hr
    · exact .inr ⟨le_rfl,pflow,mem_singleton_self _,args,ha,he⟩
    · exact .inl hr

theorem of_replaced {k₁ : Kernel} {handle : ℕ} {p : Policy} {args : List Str} (ha : pflow.nftArgs = .ok args)
    (hf : c.find pflow = some (handle,p)) (hold : handle < k.next)
    (hi : k.exec c.report (.insert c.table c.chain (Json.num handle).format
      (c.tool.ruleWords args c.policy c.logIfDeny)) = some k₁)
    (hd : k₁.exec c.report (.delete c.table c.chain (Json.num handle).format) = some k') : c.Gave [pflow] k k' := by
  obtain ⟨hn,expr,he,hmem⟩ := exec_added (h := some (.num handle)) hi
  have hn' : k'.next = k₁.next := by
    rw [Kernel.exec] at hd
    split_ifs at hd
    cases hd
    rfl
  rw [Kernel.exec_eq,format_handle] at hd
  have hrules := execIn_delete hd
  have hs : ∀ r ∈ k₁.rules, r.handle ≠ handle → r ∈ k'.rules := by
    intro r hr hne
    rw [hrules,mem_filter]
    exact ⟨hr,by simpa using fun h => hne (handle_of_isIn h)⟩
  refine ⟨by omega,?_,fun r hr => ?_,fun r hr ho => ?_,?_⟩
  · exact forall_mem_singleton.2 ⟨_,hs _ ((hmem _).2 (.inl rfl)) hold.ne',le_rfl,args,ha,he⟩
  · rw [hrules] at hr
    rcases (hmem r).1 (mem_of_mem_filter hr) with rfl | hr
    · exact .inr ⟨le_rfl,pflow,mem_singleton_self _,args,ha,he⟩
    · exact .inl hr
  · exact hs r ((hmem r).2 (.inr hr)) (ho pflow (mem_singleton_self _) _ hf).symm
  · refine forall_mem_singleton.2 fun x hx => ?_
    rw [hf] at hx
    cases hx
    rintro ⟨r,hr,hin⟩
    rw [hrules,mem_filter,hin] at hr
    cases hr.2

theorem trans {done : List (NetFlow U)} {k₁ : Kernel} (h : c.Gave [pflow] k k₁) (h' : c.Gave done k₁ k')
    (hold : ∀ f ∈ pflow :: done, ∀ x ∈ c.find f, x.1 < k.next) : c.Gave (pflow :: done) k k' where
  next := h.next.trans h'.next
  given := by
    refine forall_mem_cons.2 ⟨?_,fun f hf => ?_⟩
    · obtain ⟨r,hr,hn,hg⟩ := h.given pflow (mem_singleton_self _)
      refine ⟨r,h'.kept r hr fun f hf x hx => ?_,hn,hg⟩
      exact ((hold f (mem_cons_of_mem _ hf) x hx).trans_le hn).ne
    · obtain ⟨r,hr,hn,hg⟩ := h'.given f hf
      exact ⟨r,hr,h.next.trans hn,hg⟩
  new := by
    intro r hr
    rcases h'.new r hr with hr | ⟨hn,f,hf,hg⟩
    · exact (h.new r hr).imp_right fun ⟨hn,f,hf,hg⟩ => ⟨hn,f,mem_cons.2 (.inl (mem_singleton.1 hf)),hg⟩
    · exact .inr ⟨h.next.trans hn,f,mem_cons_of_mem _ hf,hg⟩
  kept := by
    intro r hr ho
    obtain ⟨hfirst,hrest⟩ := forall_mem_cons.1 ho
    exact h'.kept r (h.kept r hr (forall_mem_singleton.2 hfirst)) hrest
  gone := by
    refine forall_mem_cons.2 ⟨?_,h'.gone⟩
    rintro x hx ⟨r,hr,hin⟩
    rcases h'.new r hr with hr | ⟨hn,-⟩
    · exact h.gone pflow (mem_singleton_self _) x hx ⟨r,hr,hin⟩
    · -- a handle that was reported is older than the rule
      exact absurd (h.next.trans hn) (handle_of_isIn hin ▸ (hold pflow mem_cons_self x hx).not_ge)

end Gave

theorem setOne_true (h : c.setOne current pflow k = (k',.ok true)) : c.Has pflow ∧ k' = k := by
  unfold setOne at h
  split_ifs at h with hh
  · cases h
    exact ⟨hh,rfl⟩
  · grind

/-- A turn that does not end the loop adds a rule or replaces the one with the other policy. -/
theorem gave_setOne (hold : ∀ x ∈ c.find pflow, x.1 < k.next) (h : c.setOne current pflow k = (k',.ok false)) :
    ¬c.Has pflow ∧ c.Gave [pflow] k k' := by
  unfold setOne at h
  split_ifs at h with hh
  · cases h
  refine ⟨hh,?_⟩
  cases ha : pflow.nftArgs with
  | error e =>
    rw [ha] at h
    cases h
  | ok args =>
    rw [ha] at h
    cases hf : c.find pflow with
    | none =>
      rw [hf] at h
      simp only at h
      split at h
      · cases h
      · split at h
        · cases h
        · rename_i he
          cases h
          exact .of_added ha hf he
    | some x =>
      rw [hf] at h
      simp only at h
      split at h
      · cases h
      · rename_i hi
        split at h
        · cases h
        · rename_i hd
          cases h
          exact .of_replaced ha hf (hold x hf) hi hd

/-- The loop gives their rules to the flows before the first one that has the policy. -/
theorem gave_setEach (flows : List (NetFlow U)) {k : Kernel} (hold : ∀ f ∈ flows, ∀ x ∈ c.find f, x.1 < k.next)
    (h : c.setEach current flows k = (k',.ok ())) : c.Gave (flows.takeWhile fun f => ¬c.Has f) k k' := by
  induction flows generalizing k with
  | nil =>
    cases h
    exact .refl _
  | cons pflow flows ih =>
    rw [setEach] at h
    split at h
    · cases h
    · rename_i hs
      cases h
      obtain ⟨hh,rfl⟩ := setOne_true hs
      rw [takeWhile_cons_of_neg (by simpa using hh)]
      exact .refl _
    · rename_i hs
      obtain ⟨hfirst,hrest⟩ := forall_mem_cons.1 hold
      obtain ⟨hl,hg⟩ := gave_setOne hfirst hs
      rw [takeWhile_cons_of_pos (by simpa using hl)]
      refine hg.trans (ih (fun f hf x hx => (hrest f hf x hx).trans_le hg.next) h) ?_
      exact forall_mem_cons.2 ⟨hfirst,fun f hf => hrest f (( takeWhile_prefix _).subset hf)⟩

theorem Answers.lt_next (hfi : c.Answers flows k) : ∀ f ∈ flows, ∀ x ∈ c.find f, x.1 < k.next := by
  intro f hf x hx
  obtain ⟨r,hr,hin⟩ := hfi.isAt f hf x hx
  exact handle_of_isIn hin ▸ k.fresh r hr

theorem Gave.at_of_has (hfi : c.Answers flows k) (hga : c.Gave (flows.takeWhile fun f => ¬c.Has f) k k')
    {f : NetFlow U} (hf : f ∈ flows) {h : ℕ} (hfo : c.find f = some (h,c.policy)) : c.At k' h := by
  obtain ⟨r,hr,hin⟩ := hfi.isAt f hf _ hfo
  refine ⟨r,hga.kept r hr fun g hg x hx hh => ?_,hin⟩
  have hl : ¬c.Has g := by simpa using mem_takeWhile_imp hg
  have hp := hfi.policy_eq g (( takeWhile_prefix _).subset hg) f hf x hx _ hfo (hh.trans (handle_of_isIn hin))
  exact hl (by rw [Has,hx,map_some,hp])

/-- A call that returns handles every protocol if and only if no protocol without the policy comes
after one that has it. -/
theorem handled_iff_none_after {nflow : NetFlow U} {pflows : List (Option Protocol × NetFlow U)}
    (hsplit : nflow.splitByProtocol = .ok pflows) (hfind : c.Answers (pflows.map Prod.snd) k)
    (hreport : ∀ f ∈ pflows.map Prod.snd, ∀ g ∈ pflows.map Prod.snd, ∀ r, c.Given f r → c.Given g r → f = g)
    (hrun : c.run nflow k = (k',.ok ())) :
    c.Handled (pflows.map Prod.snd) k k' ↔
      ∀ f ∈ pflows.map Prod.snd, c.Has f ∨ f ∈ (pflows.map Prod.snd).takeWhile fun g => ¬c.Has g := by
  simp only [run,hsplit] at hrun
  generalize pflows.map Prod.snd = flows at *
  have hga := gave_setEach flows hfind.lt_next hrun
  constructor
  · intro h f hf
    rcases h.set f hf with ⟨handle,hfo,-⟩ | ⟨r,hr,hn,hgi⟩
    · exact .inl (by rw [Has,hfo,map_some])
    · rcases hga.new r hr with hr | ⟨-,g,hg,hg'⟩
      · exact absurd (k.fresh r hr) hn.not_gt
      · exact .inr (hreport g (( takeWhile_prefix _).subset hg) f hf r hg' hgi ▸ hg)
  · intro h
    refine ⟨fun f hf => ?_,fun f hf handle p hfo hp => ?_⟩
    · rcases h f hf with hh | hf'
      · obtain ⟨x,hx,hpo⟩ := map_eq_some_iff.1 hh
        have hfo : c.find f = some (x.1,c.policy) := hpo ▸ hx
        exact .inl ⟨x.1,hfo,hga.at_of_has hfind hf hfo⟩
      · exact .inr (hga.given f hf')
    · have hl : ¬c.Has f := by
        rw [Has,hfo,map_some,some_inj]
        exact hp
      exact hga.gone f ((h f hf).resolve_left hl) _ hfo

def hostOver (ps : List Protocol) : NetFlow .ascii :=
  ⟨⟨[.all],none,ps,[],[],everywhereWeb.located⟩,⟨[.address ⟨10,0,0,1⟩],none,ps,[],[],oneHostWeb.located⟩⟩

def allowHost : Setting .ascii where
  tool := plainTool
  report := hostReport
  flowtype := .filterForward
  policy := .allow
  logIfDeny := true
  family := .ipv4
  find f := if f = hostOver [.tcp] then some (1,.allow) else none

def tcpAllowed : Kernel :=
  ⟨[],[⟨"ip",allowHost.table,allowHost.chain,1,[.obj [("accept",.null)]]⟩],2,emptyKernel.noRule,by simp⟩

def allowBoth : Setting .ascii :=
  { allowHost with
    report := fun words => some (words.map .str)
    find := fun f => if f = hostOver [.tcp] then some (1,.deny) else if f =
      hostOver [.udp] then some (2,.allow) else none }

def tcpDenied : Kernel where
  others := []
  rules := [⟨"ip",allowBoth.table,allowBoth.chain,1,[.obj [("drop",.null)]]⟩,
    ⟨"ip",allowBoth.table,allowBoth.chain,2,[.obj [("accept",.null)]]⟩]
  next := 3
  noRule := emptyKernel.noRule
  fresh := by simp

theorem answers_allowBoth : allowBoth.Answers [hostOver [.tcp],hostOver [.udp]] tcpDenied := by
  have ht : allowBoth.find (hostOver [.tcp]) = some (1,.deny) := by decide +kernel
  have hu : allowBoth.find (hostOver [.udp]) = some (2,.allow) := by decide +kernel
  constructor
  · simp only [forall_mem_cons,ht,hu,mem_some,forall_eq']
    refine ⟨⟨_,mem_cons_self,by decide +kernel⟩,⟨_,mem_cons_of_mem _ mem_cons_self,by decide +kernel⟩,by simp⟩
  · simp [ht,hu]

/-- The reports of the rules for the two protocols differ. -/
theorem reports_allowBoth : ∀ f ∈ [hostOver [.tcp],hostOver [.udp]], ∀ g ∈ [hostOver [.tcp],hostOver [.udp]],
    ∀ r, allowBoth.Given f r → allowBoth.Given g r → f = g := by
  have ht : (hostOver [.tcp]).nftArgs = .ok ["ip","protocol","tcp","ip","daddr","\x7b10.0.0.1\x7d"] := by decide +kernel
  have hu : (hostOver [.udp]).nftArgs = .ok ["ip","protocol","udp","ip","daddr","\x7b10.0.0.1\x7d"] := by decide +kernel
  have hne : ∀ r, allowBoth.Given (hostOver [.tcp]) r → ¬ allowBoth.Given (hostOver [.udp]) r := by
    rintro r ⟨args,ha,hr⟩ ⟨args',ha',hr'⟩
    rw [ht] at ha
    rw [hu] at ha'
    cases ha
    cases ha'
    rw [← hr'] at hr
    have hw := map_injective_iff.2 (fun _ _ => Json.str.inj) (Option.some.inj hr)
    revert hw
    decide +kernel
  intro f hf g hg r hfr hgr
  simp only [mem_cons,not_mem_nil,or_false] at hf hg
  rcases hf with rfl | rfl
  · rcases hg with rfl | rfl
    · rfl
    · exact absurd hgr (hne r hfr)
  · rcases hg with rfl | rfl
    · exact absurd hfr (hne r hgr)
    · rfl

/-- The rule that denies tcp is replaced, and udp, which comes last, has its policy already. -/
theorem both_handled :
    NetFlow.fromRepr .ascii "*>tcp,udp>10.0.0.1" = .ok (hostOver [.tcp,.udp]) ∧
      allowBoth.Handled [hostOver [.tcp],hostOver [.udp]] tcpDenied (allowBoth.run (hostOver [.tcp,.udp]) tcpDenied).1 ∧
      (allowBoth.run (hostOver [.tcp,.udp]) tcpDenied).1.rules.map Rule.handle = [3,2] := by
  have hsplit : (hostOver [.tcp,.udp]).splitByProtocol =
    .ok [(some .tcp,hostOver [.tcp]),(some .udp,hostOver [.udp])] := by decide +kernel
  have hrun : allowBoth.run (hostOver [.tcp,.udp]) tcpDenied =
      ((allowBoth.run (hostOver [.tcp,.udp]) tcpDenied).1,.ok ()) := Prod.ext rfl (by decide +kernel)
  refine ⟨by decide +kernel,?_,by decide +kernel⟩
  refine (handled_iff_none_after hsplit answers_allowBoth reports_allowBoth hrun).2 ?_
  decide +kernel

theorem udp_is_not_set :
    NetFlow.fromRepr .ascii "*>tcp,udp>10.0.0.1" = .ok (hostOver [.tcp,.udp]) ∧
      (hostOver [.tcp,.udp]).splitByProtocol = .ok [(some .tcp,hostOver [.tcp]),(some .udp,hostOver [.udp])] ∧
      allowHost.run (hostOver [.tcp,.udp]) tcpAllowed = (tcpAllowed,.ok ()) ∧
      ¬allowHost.Handled [hostOver [.tcp],hostOver [.udp]] tcpAllowed tcpAllowed := by
  have hsplit : (hostOver [.tcp,.udp]).splitByProtocol =
    .ok [(some .tcp,hostOver [.tcp]),(some .udp,hostOver [.udp])] := by decide +kernel
  refine ⟨by decide +kernel,hsplit,?_,fun h => ?_⟩
  · simp only [run,hsplit]
    rfl
  · rcases h.set (hostOver [.udp]) (by simp) with ⟨handle,hf,-⟩ | ⟨r,hr,hn,-⟩
    · cases hf
    · exact absurd (tcpAllowed.fresh r hr) hn.not_gt

end Setting
end Padsi.Fw
