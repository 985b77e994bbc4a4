import Padsi.Config.InRules
import Padsi.Dns.Restriction
import Padsi.Dns.Unbound
import Padsi.Fw.Agreement

/-! # Networks of virtual machines

A machine may be run in a zone if each name that its rules allow is in an allow rule of
the zone or of a proxy. The zone itself decides with all of its rules.
-/
namespace Padsi.Config
open Text Python Fw Dns List Unbound Endpoint Unbound.Lists
open Net hiding Connection

variable {U : Unicode}

structure OutRules (U : Unicode) where
  fwRules : List (FWRule U)
  resolvRules : Option (List (ResolvRule U))
  zoned : ∀ rules, resolvRules = some rules → ∀ r ∈ rules, r.endpoint.zones ≠ []

abbrev NetworkSpec := OutRules
abbrev Proxy := OutRules

def isPartOfOne (rule : ResolvRule U) (rules : List (ResolvRule U)) : Except Exc Bool :=
  anyOf (fun orule => if orule.action = .allow then rule.endpoint.isPartOf orule.endpoint else .ok false) rules

def isPartOfProxy (rule : ResolvRule U) (proxies : List (Proxy U)) : Except Exc Bool :=
  anyOf (fun proxy =>
    match proxy.resolvRules with
    | none => .ok false
    | some prules => isPartOfOne rule prules) proxies

def checkRules (orules : List (ResolvRule U)) (proxies : List (Proxy U)) :
    List (ResolvRule U) → Except Exc (Bool × Option Str)
  | [] => .ok (true,none)
  | rule :: rules =>
    if rule.action ≠ .allow then checkRules orules proxies rules
    else do
      let allowed ← isPartOfOne rule orules
      let allowed ← if allowed then pure true else isPartOfProxy rule proxies
      if allowed then checkRules orules proxies rules else return (false,some (rule.endpoint.toRepr true))

def isNetworkCompatible (network other : Option (NetworkSpec U)) (proxies : List (Proxy U)) :
    Except Exc (Bool × Option Str) :=
  match network.bind OutRules.resolvRules with
  | none => .ok (true,none)
  | some rules =>
    match other.bind OutRules.resolvRules with
    | none => .ok (false,some "no network access or no DNS resolution")
    | some orules => checkRules orules proxies rules

def ExactFor (rule : ResolvRule U) (name : Str) : Prop := ∃ z ∈ rule.endpoint.zones, z.text = name
def WildFor (rule : ResolvRule U) (name : Str) : Prop :=
  ∃ z ∈ rule.endpoint.zones, '*' ∈ z.text ∧ InLanguage z.text name

/-- The exact rules that allow the name, else those that deny it, else the first one with wildcards. -/
inductive Decides (rules : List (ResolvRule U)) (name : Str) : ResolvRule U → Prop
  | allow {rule : ResolvRule U} (hmem : rule ∈ rules) (hname : ExactFor rule name)
  (hallow : rule.action = .allow) : Decides rules name rule
  | deny {rule : ResolvRule U} (hmem : rule ∈ rules) (hname : ExactFor rule name)
    (hnone : ∀ r ∈ rules, ExactFor r name → r.action = .deny) : Decides rules name rule
  | wild {rule : ResolvRule U} (before after : List (ResolvRule U)) (hrules : rules = before ++ rule :: after)
    (hname : WildFor rule name)
    (hfirst : ∀ r ∈ before, ¬WildFor r name) (hnone : ∀ r ∈ rules, ¬ExactFor r name) : Decides rules name rule

def Connects (rule : ResolvRule U) (c : Connection) : Prop := rule.endpoint.Channel c.interface c.protocol c.port
def NameAllowed (rules : List (ResolvRule U)) (name : Str) (c : Connection) : Prop :=
  ∃ rule, Decides rules name rule ∧ rule.action = .allow ∧ Connects rule c

/-- The rules that decide about the name deny it or are on other protocols and ports. -/
def Overruled (rules : List (ResolvRule U)) (name : Str) (c : Connection) : Prop :=
  (∃ rule, Decides rules name rule) ∧ ∀ rule, Decides rules name rule → rule.action = .deny ∨ ¬Connects rule c

def AddressAllowed (rules : List (FWRule U)) (c : Connection) : Prop :=
  ∃ before rule after, rules = before ++ rule :: after ∧ rule.endpoint.Denotes c ∧
    (∀ r ∈ before, ¬r.endpoint.Denotes c) ∧
    rule.action = .allow

namespace OutRules

def Allows (s : OutRules U) (c : Connection) : Prop :=
  match c.destination with
  | .address _ => AddressAllowed s.fwRules c
  | .name n => ∃ rules, s.resolvRules = some rules ∧ NameAllowed rules n.text c

def Wants (s : OutRules U) (c : Connection) : Prop :=
  match c.destination with
  | .address _ => ∃ r ∈ s.fwRules, r.action = .allow ∧ r.endpoint.Denotes c
  | .name _ => ∃ rules, s.resolvRules = some rules ∧ ∃ r ∈ rules, r.action = .allow ∧ r.endpoint.Denotes c

end OutRules

def sources (other : Option (NetworkSpec U)) (proxies : List (Proxy U)) : List (OutRules U) := other.toList ++ proxies
def Granted (other : Option (NetworkSpec U)) (proxies : List (Proxy U)) (c : Connection) : Prop :=
  ∃ s ∈ sources other proxies, s.Allows c
def Sound (network other : Option (NetworkSpec U)) (proxies : List (Proxy U)) : Prop :=
  (∃ text, isNetworkCompatible network other proxies = .ok (true,text)) → ∀ vm, network = some vm →
    ∀ c, vm.Wants c → Granted other proxies c

def FoundIn (rule : ResolvRule U) (rules : List (ResolvRule U)) (orule : ResolvRule U) : Prop :=
  orule ∈ rules ∧ orule.action = .allow ∧ rule.endpoint.isPartOf orule.endpoint = .ok true

/-- Each name rule of the machine is found in a rule of the zone or of a proxy. -/
def Contained (network other : Option (NetworkSpec U)) (proxies : List (Proxy U)) : Prop :=
  ∀ rules, network.bind OutRules.resolvRules = some rules → (other.bind OutRules.resolvRules).isSome = true ∧
    ∀ r ∈ rules, r.action = .allow → ∃ s ∈ sources other proxies, ∃ srules, s.resolvRules = some srules ∧
      ∃ o, FoundIn r srules o

structure Agrees (vm : NetworkSpec U) (other : Option (NetworkSpec U)) (proxies : List (Proxy U)) : Prop where
  /-- The check does not look at addresses. -/
  addresses : ∀ c x, c.destination = .address x → ∀ r ∈ vm.fwRules, r.action = .allow → r.endpoint.Denotes c →
    Granted other proxies c
  /-- Nor does it look for rules that overrule the one in which it finds a name. -/
  names : ∀ rules, vm.resolvRules = some rules → ∀ r ∈ rules, r.action = .allow → ∀ s ∈ sources other proxies, ∀ srules,
    s.resolvRules = some srules → ∀ o, FoundIn r srules o → ∀ c n, c.destination = .name n → r.endpoint.Denotes c →
      Overruled srules n.text c → Granted other proxies c

section
variable {rules : List (ResolvRule U)} {name : Str}

theorem exists_decides (h : ∃ r ∈ rules, ExactFor r name ∨ WildFor r name) : ∃ rule, Decides rules name rule := by
  by_cases hallow : ∃ r ∈ rules, ExactFor r name ∧ r.action = .allow
  · obtain ⟨r,hr,hname,ha⟩ := hallow
    exact ⟨r,.allow hr hname ha⟩
  by_cases he : ∃ r ∈ rules, ExactFor r name
  · obtain ⟨r,hr,hname⟩ := he
    refine ⟨r,.deny hr hname fun x hx hxn => ?_⟩
    cases hxa : x.action with
    | allow => exact absurd ⟨x,hx,hxn,hxa⟩ hallow
    | deny => rfl
  · have hnone : ∀ r ∈ rules, ¬ExactFor r name := fun r hr hname => he ⟨r,hr,hname⟩
    obtain ⟨r,hr,hname⟩ : ∃ r ∈ rules, WildFor r name := by
      obtain ⟨r,hr,hname⟩ := h
      exact ⟨r,hr,hname.resolve_left (hnone r hr)⟩
    classical
    obtain ⟨rule,hf⟩ := Option.isSome_iff_exists.1
      ((find?_isSome (p := fun r => decide (WildFor r name))).2 ⟨r,hr,decide_eq_true hname⟩)
    obtain ⟨hru,before,after,hrules,hfirst⟩ := find?_eq_some_iff_append.1 hf
    refine ⟨rule,.wild before after hrules (of_decide_eq_true hru) (fun x hx => ?_) hnone⟩
    simpa using hfirst x hx

theorem nameAllowed_or_overruled {o : ResolvRule U} (ho : o ∈ rules) (hzones : o.endpoint.zones ≠ [])
    {c : Connection} {n : Name} (hde : c.destination = .name n) (hc : o.endpoint.Denotes c) :
    NameAllowed rules n.text c ∨ Overruled rules n.text c := by
  have hname : ExactFor o n.text ∨ WildFor o n.text := by
    obtain ⟨z,hz,hd⟩ := hc.2.resolve_left hzones
    rw [hde] at hd
    have hl : InLanguage z.text n.text := by
      rcases hd with rfl | hd
      · have hal : isDomainName U ['*'] = .ok true := o.names _ hz
        cases hal
      · exact hd.2
    by_cases hs : '*' ∈ z.text
    · exact .inr ⟨z,hz,hs,hl⟩
    · exact .inl ⟨z,hz,((accepts_of_starless hs).1 hl).symm⟩
  by_cases ha : NameAllowed rules n.text c
  · exact .inl ha
  · refine .inr ⟨exists_decides ⟨o,ho,hname⟩,fun rule hr => ?_⟩
    cases hac : rule.action with
    | deny => exact .inl rfl
    | allow => exact .inr fun hch => ha ⟨rule,hr,hac,hch⟩

theorem Overruled.not_nameAllowed {c : Connection} (h : Overruled rules name c) : ¬NameAllowed rules name c := by
  rintro ⟨rule,hr,hallow,hc⟩
  rcases h.2 rule hr with hd | ho
  · rw [hallow] at hd
    cases hd
  · exact ho hc

end

def patternOf (entry : ResolvEntry) : Option Unbound.PatternRule :=
  match entry.query with
  | none => none
  | some query =>
    if '*' ∈ query then
      if h : (Regex.compile (domainToRegex query)).isSome =
        true then some ⟨decide (entry.action = .allow),domainToRegex query,h⟩ else none
    else none

theorem add_spec (l : Unbound.Lists) (entry : ResolvEntry) {name : Str} (hname : '*' ∉ name) :
    (l.add entry).patterns = l.patterns ++ (patternOf entry).toList ∧
      (name ∈ (l.add entry).allow ↔ name ∈ l.allow ∨ (entry.query = some name ∧ entry.action = .allow)) ∧
      (name ∈ (l.add entry).deny ↔ name ∈ l.deny ∨ (entry.query = some name ∧ entry.action = .deny)) := by
  unfold add patternOf
  cases entry.query with
  | none => simp
  | some query =>
    by_cases hs : '*' ∈ query
    · have hne : query ≠ name := fun heq => hname (heq ▸ hs)
      simp only [if_pos hs]
      split_ifs <;> simp [hne]
    · simp only [if_neg hs]
      cases entry.action <;> simp [eq_comm]

theorem init_eq (entries : List ResolvEntry) {name : Str} (hname : '*' ∉ name) :
    (init entries).patterns = entries.filterMap patternOf ∧
    (name ∈ (init entries).allow ↔ ∃ e ∈ entries, e.query = some name ∧ e.action = .allow) ∧
      (name ∈ (init entries).deny ↔ ∃ e ∈ entries, e.query = some name ∧ e.action = .deny) := by
  induction entries using reverseRecOn with
  | nil => simp [init]
  | append_singleton entries entry ih =>
    obtain ⟨hp,ha,hd⟩ := add_spec (init entries) entry hname
    rw [init,foldl_append,foldl_cons,foldl_nil,← init,hp,ha,hd,ih.1,ih.2.1,ih.2.2,filterMap_append]
    refine ⟨by cases h : patternOf entry <;> simp [h],?_,?_⟩
    · simp [or_and_right,exists_or]
    · simp [or_and_right,exists_or]

theorem isMatch_iff_inLanguage (hU : U.Lawful) {d : Str} (hd : isDomainName U d = .ok true) (hs : '*' ∈ d)
    {n : Name} (hl : '\n' ∉ n.text) (hc : (Regex.compile (domainToRegex d)).isSome = true) :
    Dns.Pattern.isMatch U ⟨domainToRegex d,hc⟩ n.text = true ↔ InLanguage d n.text := by
  have ht := domainText_of_isDomainName hU hd
  obtain ⟨P,rfl⟩ := exists_pattern ht hs
  rw [isMatch_eq,reMatch_eq_regex Reference.lawfulRegex ht.plain hs n.dotted,inLanguage_iff_matches]
  simp only [Except.ok.injEq,decide_eq_true_eq]
  refine ⟨Net.Pattern.matches_of_regex Reference.lawfulRegex ht.plain hs,fun h => ?_⟩
  refine Net.Pattern.regex_of_matches Reference.lawfulRegex ht.plain hs (fun c hc => ⟨?_,?_⟩) h
  · rintro rfl
    exact n.starless hc
  · rintro rfl
    exact hl hc

theorem find_patterns (hU : U.Lawful) (rule : ResolvRule U) {n : Name} (hl : '\n' ∉ n.text) :
    ((rule.formatForComponent.filterMap patternOf).find? (fun p => p.pattern.isMatch U n.text) = none ↔
      ¬WildFor rule n.text) ∧
      ∀ p, (rule.formatForComponent.filterMap patternOf).find? (fun p => p.pattern.isMatch U n.text) = some p →
        (p.allow = true ↔ rule.action = .allow) := by
  have hof : ∀ p, p ∈ rule.formatForComponent.filterMap patternOf ↔ ∃ z ∈ rule.endpoint.zones, '*' ∈ z.text ∧
      ∃ h, p = ⟨decide (rule.action = .allow),domainToRegex z.text,h⟩ := by
    intro p
    simp only [ResolvRule.formatForComponent,filterMap_map,mem_filterMap,Function.comp_apply,patternOf,ResolvRule.entry]
    refine exists_congr fun z => and_congr_right fun _ => ?_
    split_ifs with hs hc
    · simp [hs,hc,eq_comm]
    · simp [hc]
    · simp [hs]
  refine ⟨find?_eq_none.trans ⟨?_,fun hno p hp hm => hno ?_⟩,fun p hf => ?_⟩
  · rintro hnone ⟨z,hz,hs,hla⟩
    have hc := compiles_domainToRegex hU (rule.names z hz)
    exact hnone _ ((hof _).2 ⟨z,hz,hs,hc,rfl⟩) ((isMatch_iff_inLanguage hU (rule.names z hz) hs hl hc).2 hla)
  · obtain ⟨z,hz,hs,hc,rfl⟩ := (hof p).1 hp
    exact ⟨z,hz,hs,(isMatch_iff_inLanguage hU (rule.names z hz) hs hl hc).1 hm⟩
  · obtain ⟨z,hz,hs,hc,rfl⟩ := (hof p).1 (mem_of_find?_eq_some hf)
    exact decide_eq_true_iff

theorem find_rules (hU : U.Lawful) (rules : List (ResolvRule U)) {n : Name} (hl : '\n' ∉ n.text) :
    (∃ p, ((rulesFile rules).filterMap patternOf).find? (fun p => p.pattern.isMatch U n.text) = some p ∧
      p.allow = true) ↔
      ∃ before rule after, rules = before ++ rule :: after ∧ WildFor rule n.text ∧
        (∀ r ∈ before, ¬WildFor r n.text) ∧ rule.action = .allow := by
  simp only [rulesFile,filterMap_flatMap,find?_flatMap,findSome?_eq_some_iff]
  constructor
  · rintro ⟨p,⟨before,rule,after,hrules,hf,hb⟩,ha⟩
    obtain ⟨hnone,hp⟩ := find_patterns hU rule hl
    refine ⟨before,rule,after,hrules,?_,fun r hr => (find_patterns hU r hl).1.1 (hb r hr),(hp p hf).1 ha⟩
    by_contra hw
    cases hf.symm.trans (hnone.2 hw)
  · rintro ⟨before,rule,after,hrules,hw,hb,ha⟩
    obtain ⟨hnone,hp⟩ := find_patterns hU rule hl
    obtain ⟨p,hf⟩ := Option.ne_none_iff_exists'.1 fun h => hnone.1 h hw
    exact ⟨p,⟨before,rule,after,hrules,hf,fun r hr => (find_patterns hU r hl).1.2 (hb r hr)⟩,(hp p hf).2 ha⟩

theorem exactFor_iff {rules : List (ResolvRule U)} {name : Str} {a : Action} :
    (∃ e ∈ rulesFile rules, e.query = some name ∧ e.action = a) ↔ ∃ r ∈ rules, ExactFor r name ∧ r.action = a := by
  simp only [rulesFile,mem_flatMap,ResolvRule.formatForComponent,mem_map]
  constructor
  · rintro ⟨e,⟨r,hr,z,hz,rfl⟩,hq,ha⟩
    exact ⟨r,hr,⟨z,hz,Option.some_inj.1 hq⟩,ha⟩
  · rintro ⟨r,hr,⟨z,hz,rfl⟩,ha⟩
    exact ⟨_,⟨r,hr,z,hz,rfl⟩,rfl,ha⟩

theorem decides_allow_iff {rules : List (ResolvRule U)} {name : Str} :
    (∃ rule, Decides rules name rule ∧ rule.action = .allow) ↔
    (∃ r ∈ rules, ExactFor r name ∧ r.action = .allow) ∨ (∀ r ∈ rules, ¬ExactFor r name) ∧
      ∃ before rule after, rules = before ++ rule :: after ∧ WildFor rule name ∧
        (∀ r ∈ before, ¬WildFor r name) ∧ rule.action = .allow := by
  constructor
  · rintro ⟨rule,hd,ha⟩
    cases hd with
    | allow hmem hname | deny hmem hname => exact .inl ⟨rule,hmem,hname,ha⟩
    | wild before after hrules hw hb hnone => exact .inr ⟨hnone,before,rule,after,hrules,hw,hb,ha⟩
  · rintro (⟨r,hr,hname,ha⟩ | ⟨hnone,before,rule,after,hrules,hw,hb,ha⟩)
    · exact ⟨r,.allow hr hname ha,ha⟩
    · exact ⟨rule,.wild before after hrules hw hb hnone,ha⟩

/-- As loaded, before a CNAME is learned, the resolver allows a name just if a deciding rule does. -/
theorem isAllowed_iff_decides (hU : U.Lawful) (rules : List (ResolvRule U)) (n : Name) (hl : '\n' ∉ n.text) :
    (init (rulesFile rules)).isAllowed U n.text = true ↔ ∃ rule, Decides rules n.text rule ∧ rule.action = .allow := by
  obtain ⟨hpa,hallow,hde⟩ := init_eq (rulesFile rules) n.starless
  rw [exactFor_iff] at hallow hde
  rw [decides_allow_iff,← find_rules hU rules hl,← hallow,isAllowed,firstPattern,hpa]
  by_cases ha : n.text ∈ (init (rulesFile rules)).allow
  · simp [ha]
  · rw [if_neg ha]
    by_cases hd : n.text ∈ (init (rulesFile rules)).deny
    · obtain ⟨r,hr,hname,-⟩ := hde.1 hd
      rw [if_pos hd]
      exact iff_of_false Bool.false_ne_true (not_or.2 ⟨ha,fun h => h.1 r hr hname⟩)
    · have hnone : ∀ r ∈ rules, ¬ExactFor r n.text := by
        intro r hr hname
        cases hac : r.action with
        | allow => exact ha (hallow.2 ⟨r,hr,hname,hac⟩)
        | deny => exact hd (hde.2 ⟨r,hr,hname,hac⟩)
      rw [if_neg hd,or_iff_right ha,and_iff_right hnone]
      cases ((rulesFile rules).filterMap patternOf).find? _ with
      | none => simp
      | some p => simp

theorem exists_isPartOf (hU : U.Lawful) (r o : ResolvRule U) : ∃ b, r.endpoint.isPartOf o.endpoint = .ok b := by
  have hl : ∀ x : ResolvRule U, x.endpoint.Listable := fun x =>
    (exists_ipv4ZonesMap_iff _).1 (collectSome_ok fun z hz => ⟨none,element_domain (x.names z hz)⟩)
  by_cases h : ifaceWithin r.endpoint o.endpoint = true ∧ r.endpoint.MeantWithin o.endpoint
  · obtain ⟨b,hb,_⟩ := isPartOf_of_listable h.1 h.2 hU (hl o) (hl r)
    exact ⟨b,hb⟩
  · exact ⟨false,isPartOf_of_outside h⟩

section
variable {rule : ResolvRule U} {orules : List (ResolvRule U)} {proxies : List (Proxy U)}

theorem isPartOfOne_eq (hU : U.Lawful) (rule : ResolvRule U) (orules : List (ResolvRule U)) :
    ∃ b, isPartOfOne rule orules = .ok b ∧ (b = true ↔ ∃ o, FoundIn rule orules o) := by
  have hok : ∀ o ∈ orules, ∃ b, (if o.action = .allow then rule.endpoint.isPartOf o.endpoint else .ok false) =
      Except.ok b := by
    intro o _
    split_ifs
    · exact exists_isPartOf hU rule o
    · exact ⟨false,rfl⟩
  obtain ⟨b,hb,hi⟩ := anyOf_of_ok hok
  refine ⟨b,hb,hi.trans ⟨?_,?_⟩⟩
  · rintro ⟨o,ho,ht⟩
    split_ifs at ht with hallow
    · exact ⟨o,ho,hallow,ht⟩
    · cases ht
  · rintro ⟨o,ho,hallow,ht⟩
    exact ⟨o,ho,by rw [if_pos hallow,ht]⟩

theorem isPartOfProxy_eq (hU : U.Lawful) (rule : ResolvRule U) (proxies : List (Proxy U)) :
    ∃ b, isPartOfProxy rule proxies = .ok b ∧
    (b = true ↔ ∃ p ∈ proxies, ∃ prules, p.resolvRules = some prules ∧ ∃ o, FoundIn rule prules o) := by
  have ho : ∀ p : Proxy U, ∃ b,
    (match p.resolvRules with | none => .ok false | some prules => isPartOfOne rule prules) = Except.ok b ∧
      (b = true ↔ ∃ prules, p.resolvRules = some prules ∧ ∃ o, FoundIn rule prules o) := by
    intro p
    cases hrules : p.resolvRules with
    | none => exact ⟨false,rfl,by simp⟩
    | some prules =>
      obtain ⟨b,hb,hi⟩ := isPartOfOne_eq hU rule prules
      exact ⟨b,hb,by simpa using hi⟩
  obtain ⟨b,hb,hi⟩ := anyOf_of_ok fun p (_ : p ∈ proxies) => (ho p).imp fun b hb => hb.1
  refine ⟨b,hb,hi.trans ⟨?_,?_⟩⟩
  · rintro ⟨p,hp,ht⟩
    obtain ⟨b',hb',hi'⟩ := ho p
    cases hb'.symm.trans ht
    exact ⟨p,hp,hi'.1 rfl⟩
  · rintro ⟨p,hp,hf⟩
    obtain ⟨b',hb',hi'⟩ := ho p
    rw [hi'.2 hf] at hb'
    exact ⟨p,hp,hb'⟩

def Has (orules : List (ResolvRule U)) (proxies : List (Proxy U)) (rule : ResolvRule U) : Prop :=
  (∃ o, FoundIn rule orules o) ∨ ∃ p ∈ proxies, ∃ prules, p.resolvRules = some prules ∧ ∃ o, FoundIn rule prules o

/-- The check is passed if each rule that allows is found in the zone or in a proxy. -/
theorem checkRules_iff (hU : U.Lawful) (orules : List (ResolvRule U)) (proxies : List (Proxy U))
    (rules : List (ResolvRule U)) :
    (∃ text, checkRules orules proxies rules = .ok (true,text)) ↔
      ∀ r ∈ rules, r.action = .allow → Has orules proxies r := by
  induction rules with
  | nil => exact ⟨fun _ => by simp,fun _ => ⟨none,rfl⟩⟩
  | cons rule rules ih =>
    rw [forall_mem_cons,checkRules]
    by_cases hallow : rule.action = .allow
    · rw [if_neg (not_not.2 hallow)]
      obtain ⟨b,hb,ho⟩ := isPartOfOne_eq hU rule orules
      obtain ⟨b',hb',hp⟩ := isPartOfProxy_eq hU rule proxies
      rw [hb]
      cases b with
      | true =>
        refine ih.trans ⟨fun ha => ⟨fun _ => .inl (ho.1 rfl),ha⟩,fun ha => ha.2⟩
      | false =>
        have hnone : ¬∃ o, FoundIn rule orules o := fun h => by cases ho.2 h
        simp only [bind,Except.bind,Bool.false_eq_true,if_false,hb']
        cases b' with
        | true => exact ih.trans ⟨fun ha => ⟨fun _ => .inr (hp.1 rfl),ha⟩,fun ha => ha.2⟩
        | false =>
          refine ⟨?_,fun ha => ?_⟩
          · rintro ⟨text,ht⟩
            cases ht
          · rcases ha.1 hallow with h | h
            · exact absurd h hnone
            · cases hp.2 h
    · rw [if_pos hallow]
      exact ih.trans ⟨fun ha => ⟨fun h => absurd h hallow,ha⟩,fun ha => ha.2⟩

end

theorem isNetworkCompatible_iff (hU : U.Lawful) (network other : Option (NetworkSpec U)) (proxies : List (Proxy U)) :
    (∃ text, isNetworkCompatible network other proxies = .ok (true,text)) ↔ Contained network other proxies := by
  unfold isNetworkCompatible Contained
  cases hrules : network.bind OutRules.resolvRules with
  | none => exact ⟨fun _ => by simp,fun _ => ⟨none,rfl⟩⟩
  | some rules =>
    simp only [Option.some_inj,forall_eq']
    cases ho : other.bind OutRules.resolvRules with
    | none => simp
    | some orules =>
      obtain ⟨zone,rfl,hzone⟩ := Option.bind_eq_some_iff.1 ho
      refine (checkRules_iff hU orules proxies rules).trans ?_
      simp [Has,sources,hzone]

/-- Where the test on endpoints is sound, the check is sound just if nothing that it leaves out
speaks against the machine. -/
theorem sound_iff_agrees (hU : U.Lawful) (network other : Option (NetworkSpec U)) (proxies : List (Proxy U))
    (hsound : ∀ vm, network = some vm → ∀ rules, vm.resolvRules = some rules → ∀ r ∈ rules,
      ∀ s ∈ sources other proxies, ∀ srules,
      s.resolvRules = some srules → ∀ o ∈ srules, r.endpoint.isPartOf o.endpoint = .ok true →
        o.endpoint.Includes r.endpoint) :
    Sound network other proxies ↔
      (Contained network other proxies → ∀ vm, network = some vm → Agrees vm other proxies) := by
  rw [Sound,isNetworkCompatible_iff hU]
  refine forall_congr' fun hc => forall_congr' fun vm => forall_congr' fun hvm => ⟨fun h => ⟨?_,?_⟩,fun h c hw => ?_⟩
  · intro c x hd r hr hallow hde
    refine h c ?_
    simp only [OutRules.Wants,hd]
    exact ⟨r,hr,hallow,hde⟩
  · intro rules hrules r hr hallow s hs srules hsr o hf c n hd hde ho
    refine h c ?_
    simp only [OutRules.Wants,hd]
    exact ⟨rules,hrules,r,hr,hallow,hde⟩
  · cases hd : c.destination with
    | address x =>
      simp only [OutRules.Wants,hd] at hw
      obtain ⟨r,hr,hallow,hde⟩ := hw
      exact h.addresses c x hd r hr hallow hde
    | name n =>
      simp only [OutRules.Wants,hd] at hw
      obtain ⟨rules,hrules,r,hr,hallow,hde⟩ := hw
      obtain ⟨-,hal⟩ := hc rules (by rw [hvm]; exact hrules)
      obtain ⟨s,hs,srules,hsr,o,hf⟩ := hal r hr hallow
      have hod := hsound vm hvm rules hrules r hr s hs srules hsr o hf.1 hf.2.2 c hde
      -- the rule that the check finds decides, or another one does
      rcases nameAllowed_or_overruled hf.1 (s.zoned srules hsr o hf.1) hd hod with ha | ho
      · refine ⟨s,hs,?_⟩
        simp only [OutRules.Allows,hd]
        exact ⟨srules,hsr,ha⟩
      · exact h.names rules hrules r hr hallow s hs srules hsr o hf c n hd hde ho

theorem isDomainName_www : isDomainName .ascii "www.com." = .ok true := by decide +kernel
def wwwWeb : Endpoint .ascii :=
  ⟨[domainZone "www.com." isDomainName_www],none,[.tcp],[port443],[],.inl (cons_ne_nil _ _)⟩
theorem names_wwwWeb : ∀ z ∈ wwwWeb.zones, isDomainName .ascii z.text = .ok true := by decide +kernel
theorem names_anyComWeb : ∀ z ∈ anyComWeb.zones, isDomainName .ascii z.text = .ok true := by decide +kernel
def wwwRule : ResolvRule .ascii := ⟨.allow,wwwWeb,none,names_wwwWeb⟩
def comRule (action : Action) : ResolvRule .ascii := ⟨action,anyComWeb,none,names_anyComWeb⟩

theorem zoned_of {rules : List (ResolvRule .ascii)} (h : ∀ r ∈ rules, r.endpoint.zones ≠ []) :
    ∀ l, some rules = some l → ∀ r ∈ l, r.endpoint.zones ≠ [] := by
  rintro l ⟨⟩
  exact h

theorem zones_wwwRule : ∀ r ∈ [wwwRule], r.endpoint.zones ≠ [] := by decide +kernel
theorem zones_comRules : ∀ r ∈ [comRule .deny,comRule .allow], r.endpoint.zones ≠ [] := by decide +kernel
def wwwOnly : OutRules .ascii := ⟨[],some [wwwRule],zoned_of zones_wwwRule⟩
def comDenied : OutRules .ascii := ⟨[],some [comRule .deny,comRule .allow],zoned_of zones_comRules⟩
def hostOnly : OutRules .ascii := ⟨[⟨.allow,none,oneHostWeb,.forward⟩],some [],zoned_of (by simp)⟩
def noRules : OutRules .ascii := ⟨[],some [],zoned_of (by simp)⟩
def wwwName : Name := ⟨"www.com.",by decide,by decide⟩
theorem www_isAllowed : (init (rulesFile [comRule .deny,wwwRule])).isAllowed .ascii wwwName.text = true :=
  (isAllowed_iff_decides Unicode.lawful_ascii _ wwwName (by decide)).2 ⟨wwwRule,
    .allow (by simp) ⟨_,mem_cons_self,rfl⟩ rfl,rfl⟩

theorem not_www_comRule : ∀ r ∈ [comRule .deny,comRule .allow], ∀ z ∈ r.endpoint.zones, z.text ≠ wwwName.text :=
  by decide +kernel
theorem includes_refl (e : Endpoint U) : e.Includes e := fun _ h => h

theorem www_sound : Sound (some wwwOnly) (some wwwOnly) [] := by
  refine (sound_iff_agrees Unicode.lawful_ascii (some wwwOnly) (some wwwOnly) [] ?_).2 fun _ vm hvm => ?_
  · rintro vm ⟨⟩ rules ⟨⟩ r hr s hs srules hsr o ho -
    rw [mem_singleton.1 hr]
    rw [mem_singleton.1 hs] at hsr
    cases hsr
    rw [mem_singleton.1 ho]
    exact includes_refl _
  · cases hvm
    refine ⟨fun c x _ r hr => absurd hr (by simp [wwwOnly]),?_⟩
    rintro rules ⟨⟩ r hr - s hs srules hsr o ⟨ho,hallow,-⟩ c n hde hd hov
    rw [mem_singleton.1 hs] at hsr
    cases hsr
    rw [mem_singleton.1 hr] at hd
    obtain ⟨hc,hzones⟩ := hd
    obtain ⟨z,hz,hzone⟩ := hzones.resolve_left (by simp [wwwRule,wwwWeb])
    rw [mem_singleton.1 hz,hde] at hzone
    have hname : n.text = "www.com." := by
      rcases hzone with ha | ⟨-,hl⟩
      · cases ha
      · exact (accepts_of_starless (by decide)).1 hl
    refine absurd ⟨wwwRule,.allow mem_cons_self ⟨_,mem_cons_self,?_⟩ rfl,rfl,hc⟩ hov.not_nameAllowed
    rw [hname]
    rfl

/-- A name that is denied by an earlier rule of the zone, and an address that no rule of the zone allows. -/
theorem denied_requirements_compatible :
    isNetworkCompatible (some wwwOnly) (some comDenied) [] = .ok (true,none) ∧ anyComWeb.Includes wwwWeb ∧
      (∃ c, wwwOnly.Wants c ∧ ¬Granted (some comDenied) [] c) ∧
      isNetworkCompatible (some hostOnly) (some noRules) [] = .ok (true,none) ∧ ∃ c, hostOnly.Wants c ∧
        ¬Granted (some noRules) [] c := by
  refine ⟨by decide +kernel,?_,?_,by decide +kernel,?_⟩
  · refine includes_of_covered Unicode.lawful_ascii (by decide +kernel) (.inr ⟨?_,fun z hz _ hst => absurd hst ?_⟩)
    · exact not_or.2 ⟨by decide +kernel,by decide +kernel⟩
    · rw [mem_singleton.1 hz]
      decide
  · obtain ⟨i,p,q,hc⟩ := wwwWeb.exists_channel
    refine ⟨⟨i,p,q,.name wwwName⟩,
      ⟨_,rfl,wwwRule,mem_cons_self,rfl,hc,.inr ⟨_,mem_cons_self,.inr ⟨isDomainName_www,by decide +kernel⟩⟩⟩,?_⟩
    rintro ⟨s,hs,rules,hrules,rule,hru,hallow,-⟩
    rw [mem_singleton.1 hs] at hrules
    cases hrules
    cases hru with
    | allow hmem hname | deny hmem hname =>
      obtain ⟨z,hz,ht⟩ := hname
      exact absurd ht (not_www_comRule rule hmem z hz)
    | wild before after hrules hw hfirst hnone =>
      cases before with
      | nil =>
        cases hrules
        cases hallow
      | cons r before =>
        have hr : comRule .deny = r := (cons.inj hrules).1
        exact hfirst r mem_cons_self (hr ▸ ⟨_,mem_cons_self,by decide +kernel,by decide +kernel⟩)
  · obtain ⟨i,p,q,hc⟩ := oneHostWeb.exists_channel
    refine ⟨⟨i,p,q,.address ⟨10,0,0,1⟩⟩,⟨_,mem_cons_self,rfl,hc,.inr ⟨_,mem_cons_self,Zone.denotes_address.2 rfl⟩⟩,?_⟩
    rintro ⟨s,hs,before,rule,after,hrules,-⟩
    rw [mem_singleton.1 hs] at hrules
    cases before <;> cases hrules

end Padsi.Config
