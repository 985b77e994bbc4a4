import Padsi.Dns.Rules

/-! # Inbound rules of the configuration

The rules are lists of the program. What is read at the end depends on which lists are
one and the same.
-/
namespace Padsi.Config
open Text Python Net Fw Dns List Heap

variable {U : Unicode}

inductive Chain where
  | input
  | output
  | forward
deriving DecidableEq

structure FWRule (U : Unicode) where
  action : Action
  descr : Option Str
  endpoint : Endpoint U
  chain : Chain
deriving DecidableEq

structure NameRule (U : Unicode) where
  action : Action
  descr : Option Str
  endpoint : Endpoint U
  resolv : Option (List Json)

structure NetworkRessources (U : Unicode) where
  descr : Str
  ipv4Endpoints : List (Endpoint U)
  domainEndpoints : List (Endpoint U)

inductive ConfExc where
  | network (text : Str)
  | adminNS (text : Str)
  | configuration (text : Str)
  | fault (f : Fault)
deriving DecidableEq

def endpointEq (e other : Endpoint U) : Bool := e.isEqualTo other && e.protocols.isPerm other.protocols
def FWRule.eq (r other : FWRule U) : Bool :=
  decide (r.action = other.action) && decide (r.descr = other.descr) && endpointEq r.endpoint other.endpoint &&
    decide (r.chain = other.chain)

def splitByZone (e : Endpoint U) : Except Exc (List (Endpoint U)) :=
  if e.zones.length = 1 then .ok [e]
  else e.zones.mapM fun z => Endpoint.new U (some z.text) (protocolsAsString e) (portsAsString e)

def isIpv4 (e : Endpoint U) : Except Exc Bool := do
  let all ← allOf (fun z : Zone U => isIpv4Element z.text) e.zones
  return all && decide (e.zones ≠ [])

def isWildcardDomain (e : Endpoint U) : Except Exc Bool := do
  let all ← allOf (fun z : Zone U => isDomainName U z.text) e.zones
  return all && decide (e.zones ≠ [])

abbrev RuleLists (U : Unicode) := List (FWRule U) × List (NameRule U)
def RuleLists.append (a b : RuleLists U) : RuleLists U := (a.1 ++ b.1,a.2 ++ b.2)

def subRule (action : Action) (descr : Option Str) (resolv : Option (List Json)) (e : Endpoint U) :
    Except Exc (RuleLists U) := do
  let ipv4 ← isIpv4 e
  if ipv4 || e.isAllIpv4 then
    match resolv with
    | some _ => .error (.prog "'resolv' attribute can't be specified for non domain endpoint")
    | none => .ok ([⟨action,descr,e,.forward⟩],[])
  else
    let domain ← isWildcardDomain e
    if domain then .ok ([],[⟨action,descr,e,resolv⟩]) else .error (.prog "unhandled not IPv4 or domain endpoint")

def subRules (action : Action) (descr : Option Str) (resolv : Option (List Json)) :
    List (Endpoint U) → Except Exc (RuleLists U)
  | [] => .ok ([],[])
  | e :: es => do
    let rules ← subRule action descr resolv e
    let rest ← subRules action descr resolv es
    return rules.append rest

def endpointRules (action : Action) (descr : Option Str) (resolv : Option (List Json)) (eprepr : Json) :
    Except ConfExc (RuleLists U) :=
  let invalid : ConfExc := .network ("Invalid 'endpoint' attribute '" ++ eprepr.text ++ "'")
  match eprepr with
  | .str s =>
    match (do subRules action descr resolv (← splitByZone (← Endpoint.fromRepr U s none)) :
        Except Exc (RuleLists U)) with
    | .ok rules => .ok rules
    | .error _ => .error invalid
  | _ => .error invalid

def isReply (U : Unicode) : Json → Bool
  | .str s =>
    match s.splitOn '/' with
    | [typ,ttl,ip4] => decide (typ = ['A']) && (int U ttl).isSome && (Ipv4Addr.parse ip4).isSome
    | _ => false
  | _ => false

def readResolv (U : Unicode) (rule : Json) : Option Json → Except ConfExc (Option (List Json))
  | none => .ok none
  | some (.arr entries) =>
    if entries.all (isReply U) then .ok (some entries)
    else .error (.network ("Invalid 'resolv' attribute in '" ++ rule.text ++ "'"))
  | some _ => .error (.network ("Invalid 'resolv' attribute in '" ++ rule.text ++ "'"))

def readAction (rule : Json) : Option Json → Except ConfExc Action
  | some (.str s) =>
    if s = "allow" then .ok .allow
    else if s = "deny" then .ok .deny
    else .error (.network ("Invalid action in rule '" ++ rule.text ++ "'"))
  | _ => .error (.network ("Invalid action in rule '" ++ rule.text ++ "'"))

def readDescr (rule : Json) : Option Json → Except ConfExc (Option Str)
  | none => .ok none
  | some (.str s) => .ok (some s)
  | some _ => .error (.network ("Invalid 'descr' attribute in rule '" ++ rule.text ++ "'"))

section
variable (named : Dict Str (NetworkRessources U))

def netresRules (action : Action) (rule : Json) (netres : Json) : Except ConfExc (RuleLists U) := do
  let found ← match netres with
    | .str s => .ok (named.get s)
    | .arr _ | .obj _ => .error (.fault .type)
    | _ => .ok none
  match found with
  | none => .error (.network ("Invalid rule '" ++ rule.text ++ "': network resource '" ++ netres.text ++
    "' is not defined"))
  | some res =>
    .ok (res.ipv4Endpoints.map fun e => ⟨action,some res.descr,e,.forward⟩,
      res.domainEndpoints.map fun e => ⟨action,some res.descr,e,none⟩)

def lift {α : Type} : Except Fault α → Except ConfExc α
  | .ok a => .ok a
  | .error f => .error (.fault f)

def loadRule (rule : Json) : Except ConfExc (RuleLists U) :=
  match rule with
  | .obj _ => do
    let action ← readAction rule (← lift (rule.get "action"))
    let descr ← readDescr rule (← lift (rule.get "descr"))
    let eprepr ← lift (rule.get "endpoint")
    let netres ← lift (rule.get "netres")
    let resolv ← lift (rule.get "resolv")
    match eprepr, netres with
    | some _, some _ => .error (.network ("Invalid rule '" ++ rule.text ++ "': both 'endpoint' and 'netres' specified"))
    | none, none => .error (.network ("Invalid rule '" ++ rule.text ++ "': none of 'endpoint' or 'netres' specified"))
    | some eprepr, none => do endpointRules action descr (← readResolv U rule resolv) eprepr
    | none, some netres => netresRules named action rule netres
  | _ => .error (.network ("Invalid rule '" ++ rule.text ++ "'"))

def loadRules (named : Dict Str (NetworkRessources U)) : List Json → Except ConfExc (RuleLists U)
  | [] => .ok ([],[])
  | rule :: rules => do
    let lists ← loadRule named rule
    let rest ← loadRules named rules
    return lists.append rest

def loadRulesFromData (rulesData : Json) : Except ConfExc (RuleLists U) :=
  match rulesData with
  | .null => .ok ([],[])
  | _ => do loadRules named (← lift rulesData.elements)

end

/-- `rules` is the number of the list of its rules. -/
structure AdminNS where
  name : Str
  trafficShaper : Option Str
  inFwRules : ℕ

def shaperOf (shapers : List Str) (data : Json) : Except ConfExc (Option Str) := do
  match ← lift (data.get "traffic-shaper") with
  | none => .ok none
  | some (.str name) =>
    if name ∈ shapers then .ok (some name) else .error (.adminNS ("Unknown traffic shaper '" ++ name ++ "'"))
  | some name => .error (.adminNS ("Unknown traffic shaper '" ++ name.text ++ "'"))

def rulesOf (named : Dict Str (NetworkRessources U)) (name : Str) (data : Json) : Except ConfExc (List (FWRule U)) := do
  match ← lift (data.get "network") with
  | none => .error (.adminNS ("Admin NS '" ++ name ++ "' must have a network configuration"))
  | some netdata =>
    let (rules,names) ← loadRulesFromData named (← lift (netdata.getOr "in-rules" (.arr [])))
    if names.isEmpty then .ok rules else .error (.adminNS "Resolv. rules are not allowed as input rules")

/-- What the configuration directory has on inbound rules, in the order of its files; the rest of
the files is valid. -/
structure Files (U : Unicode) where
  named : Dict Str (NetworkRessources U)
  shapers : List Str
  admins : List (Str × Json)
  hostAccess : Option Json

def loadAdmins (f : Files U) : List (Str × Json) → Heap (FWRule U) → Except ConfExc (Heap (FWRule U) × List AdminNS)
  | [], heap => .ok (heap,[])
  | (name,data) :: admins, heap => do
    let shaper ← shaperOf f.shapers data
    let rules ← rulesOf f.named name data
    let (heap,r) := heap.alloc rules
    let (heap,rest) ← loadAdmins f admins heap
    return (heap,⟨name,shaper,r⟩ :: rest)

def hostRules (f : Files U) (key : Str) (refused : Str) : Except ConfExc (Option (List (FWRule U))) :=
  match f.hostAccess with
  | none => .ok none
  | some access => do
    let data := (← lift (access.get key)).getD (.arr [])
    let (rules,names) ← loadRulesFromData f.named data
    if names.isEmpty then .ok (some rules) else .error (.configuration refused)

def hostInRules (f : Files U) : Except ConfExc (Option (List (FWRule U))) :=
  hostRules f "in-rules" "Host network access for inbound connections does not allow non CIDR based rules"
def hostOutRules (f : Files U) : Except ConfExc (Option (List (FWRule U))) :=
  hostRules f "out-rules" "Host network access for outbound connections does not allow non CIDR based rules"

def allocHost (heap : Heap (FWRule U)) : Option (List (FWRule U)) → Heap (FWRule U) × Option ℕ
  | none => (heap,none)
  | some rules => ((heap.alloc rules).1,some (heap.alloc rules).2)

def duplicateRule (admin : AdminNS) : ConfExc :=
  .configuration ("Duplicate inbound rule in the admin NS '" ++ admin.name ++ "'")

def addRules (all : ℕ) (admin : AdminNS) : List (FWRule U) → Heap (FWRule U) → Except ConfExc (Heap (FWRule U))
  | [], heap => .ok heap
  | rule :: rules, heap =>
    if (heap.read all).any (FWRule.eq rule) then .error (duplicateRule admin)
      else addRules all admin rules (heap.append all rule)

def checkAdmins (all : ℕ) : List AdminNS → Heap (FWRule U) → Except ConfExc (Heap (FWRule U))
  | [], heap => .ok heap
  | admin :: admins, heap =>
    -- No traffic shaper, and a list that is not empty.
    if admin.trafficShaper.isNone && !(heap.read admin.inFwRules).isEmpty then do
      let heap ← addRules all admin (heap.read admin.inFwRules) heap
      checkAdmins all admins heap
    else checkAdmins all admins heap

/-- `self._host_in_fw_rules if self._host_in_fw_rules else []`: the list of the host itself, or a new one. -/
def allInRules (heap : Heap (FWRule U)) : Option ℕ → Heap (FWRule U) × ℕ
  | some r => if (heap.read r).isEmpty then heap.alloc [] else (heap,r)
  | none => heap.alloc []

structure Networking (U : Unicode) where
  heap : Heap (FWRule U)
  hostIn : Option ℕ
  hostOut : Option ℕ
  admins : List AdminNS

def Networking.init (f : Files U) : Except ConfExc (Networking U) := do
  let (heap,admins) ← loadAdmins f f.admins .empty
  let (heap,hostIn) := allocHost heap (← hostInRules f)
  let (heap,hostOut) := allocHost heap (← hostOutRules f)
  let (heap,all) := allInRules heap hostIn
  let heap ← checkAdmins all admins heap
  return ⟨heap,hostIn,hostOut,admins.mergeSort fun a b => decide (a.name ≤ b.name)⟩

def Networking.hostInboundFwRules (n : Networking U) : Option (List (FWRule U)) := n.hostIn.map n.heap.read
def Networking.inFwRules (n : Networking U) (admin : AdminNS) : List (FWRule U) := n.heap.read admin.inFwRules

structure AsConfigured (f : Files U) (n : Networking U) : Prop where
  host : hostInRules f = .ok n.hostInboundFwRules
  admins : ∃ admins, n.admins.Perm admins ∧
    List.Forall₂ (fun file admin => admin.name = file.1 ∧
      rulesOf f.named file.1 file.2 = .ok (n.inFwRules admin)) f.admins admins

/-- If the host has rules, then the namespaces without a traffic shaper have none. -/
def Apart (f : Files U) : Prop :=
  ∀ rules, hostInRules f = .ok (some rules) → rules ≠ [] → ∀ a ∈ f.admins, shaperOf f.shapers a.2 = .ok none →
    rulesOf f.named a.1 a.2 = .ok []

structure Loaded (f : Files U) (heap : Heap (FWRule U)) (file : Str × Json) (admin : AdminNS) : Prop where
  name : admin.name = file.1
  shaper : shaperOf f.shapers file.2 = .ok admin.trafficShaper
  rules : rulesOf f.named file.1 file.2 = .ok (heap.read admin.inFwRules)
  bound : admin.inFwRules < heap.lists.length

def Extends (heap heap' : Heap (FWRule U)) : Prop :=
  heap.lists.length ≤ heap'.lists.length ∧ ∀ r, r < heap.lists.length → heap'.read r = heap.read r
theorem Extends.refl (heap : Heap (FWRule U)) : Extends heap heap := ⟨Nat.le_refl _,fun _ _ => rfl⟩
theorem Extends.trans {a b c : Heap (FWRule U)} (h : Extends a b) (h' : Extends b c) : Extends a c :=
  ⟨Nat.le_trans h.1 h'.1,fun r hr => (h'.2 r (Nat.lt_of_lt_of_le hr h.1)).trans (h.2 r hr)⟩
theorem extends_alloc (heap : Heap (FWRule U)) (rules : List (FWRule U)) : Extends heap (heap.alloc rules).1 :=
  ⟨by rw [length_alloc]; exact Nat.le_succ _,fun _ hr => read_alloc_of_lt rules hr⟩

variable {f : Files U} {heap heap' : Heap (FWRule U)} {files : List (Str × Json)} {admins : List AdminNS} {all : ℕ}

theorem Loaded.extend {file : Str × Json} {admin : AdminNS} (h : Loaded f heap file admin)
    (hh : Extends heap heap') : Loaded f heap' file admin :=
  ⟨h.name,h.shaper,by rw [hh.2 _ h.bound]; exact h.rules,Nat.lt_of_lt_of_le h.bound hh.1⟩

theorem loadAdmins_loaded (h : loadAdmins f files heap = .ok (heap',admins)) :
    Extends heap heap' ∧ List.Forall₂ (Loaded f heap') files admins := by
  induction files generalizing heap admins with
  | nil =>
    cases h
    exact ⟨.refl _,.nil⟩
  | cons file files ih =>
    obtain ⟨shaper,hs,h⟩ := bind_eq_ok.1 h
    obtain ⟨rules,hrules,h⟩ := bind_eq_ok.1 h
    obtain ⟨⟨he'',rest⟩,hrest,h⟩ := bind_eq_ok.1 h
    cases h
    obtain ⟨he,hl⟩ := ih hrest
    refine ⟨(extends_alloc heap rules).trans he,.cons ?_ hl⟩
    have hr : (heap.alloc rules).1.read (heap.alloc rules).2 = rules := heap.read_alloc_self rules
    have hb : (heap.alloc rules).2 < (heap.alloc rules).1.lists.length := by
      rw [length_alloc]
      exact Nat.lt_succ_self _
    have hn : Loaded f (heap.alloc rules).1 file ⟨file.1,shaper,(heap.alloc rules).2⟩ :=
      ⟨rfl,hs,by rw [hr]; exact hrules,hb⟩
    exact hn.extend he

theorem extends_allocHost (heap : Heap (FWRule U)) (rules : Option (List (FWRule U))) :
    Extends heap (allocHost heap rules).1 := by
  cases rules with
  | none => exact .refl heap
  | some rules => exact extends_alloc heap rules

theorem addRules_ok {admin : AdminNS} {rules : List (FWRule U)} (ha : all < heap.lists.length)
    (h : addRules all admin rules heap = .ok heap') :
    heap'.lists.length = heap.lists.length ∧ heap'.read all = heap.read all ++ rules ∧ ∀ r, r ≠ all →
      heap'.read r = heap.read r := by
  induction rules generalizing heap with
  | nil =>
    cases h
    exact ⟨rfl,(append_nil _).symm,fun _ _ => rfl⟩
  | cons rule rules ih =>
    unfold addRules at h
    split_ifs at h
    have hl := heap.length_append all rule
    obtain ⟨hl',hre,ho⟩ := ih (by rw [hl]; exact ha) h
    refine ⟨hl'.trans hl,?_,fun r hr => (ho r hr).trans (read_append_of_ne hr rule)⟩
    rw [hre,read_append_self ha,append_assoc]
    rfl

def added (heap : Heap (FWRule U)) (admin : AdminNS) : List (FWRule U) :=
  if admin.trafficShaper = none then heap.read admin.inFwRules else []

/-- The list of the host gets the rules of the namespaces without a traffic shaper. -/
theorem checkAdmins_ok (hal : all < heap.lists.length)
    (hadm : ∀ a ∈ admins, a.inFwRules ≠ all) (h : checkAdmins all admins heap = .ok heap') :
    heap'.read all = heap.read all ++ admins.flatMap (added heap) ∧ ∀ r, r ≠ all → heap'.read r = heap.read r := by
  induction admins generalizing heap with
  | nil =>
    cases h
    exact ⟨(append_nil _).symm,fun _ _ => rfl⟩
  | cons admin admins ih =>
    obtain ⟨hadmin,hrest⟩ := forall_mem_cons.1 hadm
    unfold checkAdmins at h
    split_ifs at h with hif
    · obtain ⟨he'',hadd,h⟩ := bind_eq_ok.1 h
      obtain ⟨hl,hre,ho⟩ := addRules_ok hal hadd
      obtain ⟨hr',ho'⟩ := ih (by rw [hl]; exact hal) hrest h
      -- The rules of the other namespaces are still the same.
      have hs : admins.flatMap (added he'') = admins.flatMap (added heap) := by
        refine flatMap_congr fun a ha => ?_
        rw [added,added,ho _ (hrest a ha)]
      have had : added heap admin = heap.read admin.inFwRules :=
        if_pos (Option.isNone_iff_eq_none.1 (Bool.and_eq_true_iff.1 hif).1)
      refine ⟨?_,fun r hr => (ho' r hr).trans (ho r hr)⟩
      rw [hr',hre,hs,flatMap_cons,had,append_assoc]
    · obtain ⟨hre,ho⟩ := ih hal hrest h
      have had : added heap admin = [] := by
        unfold added
        split_ifs with hsh
        · rw [hsh] at hif
          simpa using hif
        · rfl
      refine ⟨?_,ho⟩
      rw [hre,flatMap_cons,had,nil_append]

/-- The check adds nothing exactly if the namespaces without a traffic shaper have no rules. -/
theorem added_eq_nil_iff (h : List.Forall₂ (Loaded f heap) files admins) :
    admins.flatMap (added heap) = [] ↔ ∀ a ∈ files, shaperOf f.shapers a.2 = .ok none →
      rulesOf f.named a.1 a.2 = .ok [] := by
  induction h with
  | nil => simp
  | @cons file admin files admins hl _ ih =>
    rw [flatMap_cons,append_eq_nil_iff,ih,forall_mem_cons]
    refine and_congr_left fun _ => ?_
    rw [added,hl.shaper,hl.rules]
    split_ifs with hs
    · simp [hs]
    · simp [hs]

theorem allInRules_of_empty {hostIn : Option ℕ} (h : ∀ r, hostIn = some r → heap.read r = []) :
    allInRules heap hostIn = heap.alloc [] := by
  cases hostIn with
  | none => rfl
  | some r => exact if_pos (isEmpty_iff.2 (h r rfl))

theorem allInRules_of_ne_nil {r : ℕ} (h : heap.read r ≠ []) : allInRules heap (some r) = (heap,r) :=
  if_neg (by simpa using h)

theorem admins_asConfigured
    (hl : List.Forall₂ (Loaded f heap) files admins) (hne : ∀ a ∈ admins, a.inFwRules ≠ all)
    (ho : ∀ r, r ≠ all → heap'.read r = heap.read r) :
    List.Forall₂ (fun file admin => admin.name = file.1 ∧
      rulesOf f.named file.1 file.2 = .ok (heap'.read admin.inFwRules)) files admins := by
  induction hl with
  | nil => exact .nil
  | @cons file admin files admins ha _ ih =>
    obtain ⟨hfirst,hrest⟩ := forall_mem_cons.1 hne
    exact .cons ⟨ha.name,by rw [ho _ hfirst]; exact ha.rules⟩ (ih hrest)

theorem Loaded.forall_bound
    (h : List.Forall₂ (Loaded f heap) files admins) : ∀ a ∈ admins, a.inFwRules < heap.lists.length := by
  induction h with
  | nil => nofun
  | cons ha _ ih => exact forall_mem_cons.2 ⟨ha.bound,ih⟩

/-- The inbound rules of the configuration are those of its files exactly if the host or the
namespaces have none. -/
theorem asConfigured_iff {f : Files U} {n : Networking U} (h : Networking.init f = .ok n) :
    AsConfigured f n ↔ Apart f := by
  obtain ⟨⟨heap,admins⟩,hadm,h⟩ := bind_eq_ok.1 h
  obtain ⟨hostIn,hh,h⟩ := bind_eq_ok.1 h
  obtain ⟨hostOut,hho,h⟩ := bind_eq_ok.1 h
  obtain ⟨heap',hc,h⟩ := bind_eq_ok.1 h
  cases h
  obtain ⟨-,hfirst⟩ := loadAdmins_loaded hadm
  have hb := Loaded.forall_bound hfirst
  -- The lists after the ones of the host were made.
  change checkAdmins (allInRules (allocHost (allocHost heap hostIn).1 hostOut).1 (allocHost heap hostIn).2).2 admins
    (allInRules (allocHost (allocHost heap hostIn).1 hostOut).1 (allocHost heap hostIn).2).1 = .ok heap' at hc
  have hei := extends_allocHost heap hostIn
  have he := extends_allocHost (allocHost heap hostIn).1 hostOut
  generalize hli : (allocHost (allocHost heap hostIn).1 hostOut).1 = lists at hc he
  have hex : Extends heap lists := hei.trans he
  have hl : List.Forall₂ (Loaded f lists) f.admins admins := hfirst.imp fun _ _ had => had.extend hex
  have hso : ∀ le, (admins.mergeSort le).Perm admins := fun le => mergeSort_perm admins le
  by_cases hem : hostIn.getD [] = []
  · have hre : ∀ r, (allocHost heap hostIn).2 = some r → r < lists.lists.length ∧ lists.read r = [] := by
      intro r hr
      cases hostIn with
      | none => cases hr
      | some rules =>
        cases hr
        have hlt : heap.lists.length < (heap.alloc rules).1.lists.length := by
          rw [length_alloc]
          exact Nat.lt_succ_self _
        have hs := he.2 _ hlt
        have hrules : (heap.alloc rules).1.read heap.lists.length = rules := heap.read_alloc_self rules
        exact ⟨Nat.lt_of_lt_of_le hlt he.1,hs.trans (hrules.trans hem)⟩
    rw [allInRules_of_empty fun r hr => (hre r hr).2] at hc
    have hne : ∀ a ∈ admins, a.inFwRules ≠ (lists.alloc []).2 :=
      fun a ha => Nat.ne_of_lt (Nat.lt_of_lt_of_le (hb a ha) hex.1)
    have hal : (lists.alloc []).2 < (lists.alloc []).1.lists.length := by
      rw [length_alloc]
      exact Nat.lt_succ_self _
    obtain ⟨-,ho⟩ := checkAdmins_ok hal hne hc
    have hnw : List.Forall₂ (Loaded f (lists.alloc []).1) f.admins admins :=
      hl.imp fun _ _ had => had.extend (extends_alloc lists [])
    refine iff_of_true ⟨?_,admins,hso _,admins_asConfigured hnw hne ho⟩ fun rules hrules hne => ?_
    · change hostInRules f = .ok ((allocHost heap hostIn).2.map heap'.read)
      rw [hh]
      cases hostIn with
      | none => rfl
      | some rules =>
        obtain ⟨hlt,hn⟩ := hre _ rfl
        have hs : heap'.read heap.lists.length = lists.read heap.lists.length :=
          (ho _ (Nat.ne_of_lt hlt)).trans (read_alloc_of_lt [] hlt)
        have hrules : rules = [] := hem
        change Except.ok (some rules) = .ok (some (heap'.read heap.lists.length))
        rw [hs,hrules]
        exact congrArg (fun l => Except.ok (some l)) hn.symm
    · rw [hh] at hrules
      cases hrules
      exact absurd hem hne
  · obtain ⟨rules,rfl⟩ : ∃ rules, hostIn = some rules := by
      cases hostIn with
      | none => exact absurd rfl hem
      | some rules => exact ⟨rules,rfl⟩
    have hlt : heap.lists.length < (heap.alloc rules).1.lists.length := by
      rw [length_alloc]
      exact Nat.lt_succ_self _
    have hre : lists.read heap.lists.length = rules := (he.2 _ hlt).trans (heap.read_alloc_self rules)
    have hne : ∀ a ∈ admins, a.inFwRules ≠ heap.lists.length := fun a ha => Nat.ne_of_lt (hb a ha)
    have hi : allInRules lists (some heap.lists.length) = (lists,heap.lists.length) :=
      allInRules_of_ne_nil (by rw [hre]; exact hem)
    change checkAdmins (allInRules lists (some heap.lists.length)).2 admins
      (allInRules lists (some heap.lists.length)).1 = .ok heap' at hc
    rw [hi] at hc
    obtain ⟨hal,ho⟩ := checkAdmins_ok (Nat.lt_of_lt_of_le hlt he.1) hne hc
    rw [hre] at hal
    have hhs : hostInRules f = .ok (some (heap'.read heap.lists.length)) ↔ admins.flatMap (added lists) = [] := by
      rw [hh,hal]
      simp
    have hap : Apart f ↔ admins.flatMap (added lists) = [] := by
      rw [added_eq_nil_iff hl]
      constructor
      · exact fun happ => happ rules hh hem
      · intro hn rules' hr' _
        exact hn
    rw [hap,← hhs]
    constructor
    · exact fun hco => hco.host
    · exact fun hhs => ⟨hhs,admins,hso _,admins_asConfigured hl hne ho⟩

def allowing (endpoint : String) : Json := .arr [.obj [("action",.str "allow"),("endpoint",.str endpoint.toList)]]

def backup (shaper : Json) : Files .ascii where
  named := .empty
  shapers := ["slow"]
  admins := [("backup",.obj [("traffic-shaper",shaper),("network",.obj [("in-rules",allowing "10.0.0.2^tcp^22")])])]
  hostAccess := some (.obj [("in-rules",allowing "10.0.0.1^tcp^22")])

theorem shaped_asConfigured : ∃ n, Networking.init (backup (.str "slow")) = .ok n ∧
    AsConfigured (backup (.str "slow")) n := by
  obtain ⟨n,hn⟩ : ∃ n, Networking.init (backup (.str "slow")) = .ok n := ⟨_,rfl⟩
  refine ⟨n,hn,(asConfigured_iff hn).2 fun rules _ _ a ha hs => ?_⟩
  rw [mem_singleton.1 ha] at hs
  have hsl : shaperOf ["slow"] (.obj [("traffic-shaper",.str "slow"),
      ("network",.obj [("in-rules",allowing "10.0.0.2^tcp^22")])]) = .ok (some "slow") := rfl
  cases hsl.symm.trans hs

/-- Without a traffic shaper, the rule of the namespace is one of the host too. -/
theorem host_gets_rule : ∃ n, Networking.init (backup .null) = .ok n ∧ ¬ AsConfigured (backup .null) n := by
  obtain ⟨n,hn,ht⟩ : ∃ n, Networking.init (backup .null) = .ok n ∧ n.hostInboundFwRules.map length = some 2 :=
    ⟨_,rfl,rfl⟩
  obtain ⟨rules,hrules,ho⟩ : ∃ rules, hostInRules (backup .null) = .ok (some rules) ∧ rules.length = 1 := ⟨_,rfl,rfl⟩
  refine ⟨n,hn,fun hc => ?_⟩
  have hh := hc.host
  rw [hrules] at hh
  injection hh with hh
  rw [← hh,Option.map_some,ho] at ht
  exact absurd ht (by decide)

end Padsi.Config
