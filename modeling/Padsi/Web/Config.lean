import Padsi.Lib.Selection
import Padsi.Net.Denotation
import Padsi.Net.RoundTrip
import Padsi.Web.Cache

/-! # The decision of the Web proxy

A panic inside the scan leaves the lock of the cache poisoned.
-/
namespace Padsi.Web
open Rust Text Net Selection List EndPoint

inductive RuleAction where
  | deny
  | allow
deriving DecidableEq, Repr

structure Rule (E : Externals) where
  action : RuleAction
  endpoint : EndPoint E
  written : ∀ z ∈ endpoint.zones, z.Written

structure Target (E : Externals) where
  remoteProxy : Option Str
  rules : List (Rule E)

abbrev Candidate (E : Externals) := Rule E × Option Str

inductive AccessError where
  | denied (remoteProxy : Option Str)
  | notAllowed
deriving DecidableEq, Repr

abbrev Answer := Except AccessError (Option Str)

variable {E : Externals}

def candidates (targets : List (Target E)) : List (Candidate E) :=
  targets.flatMap fun t => t.rules.map fun r => (r,t.remoteProxy)

def first {α : Type} : List α → Partial α
  | [] => .error .sliceIndex
  | x :: _ => .ok x

def ruleSpec (rule : Rule E) (req : EndPoint E) : Partial (EndPoint E) := do
  let zone ← first rule.endpoint.zones
  let port ← first req.ports
  match ← EndPoint.new E (EndPoint.tcpSpec zone.text port.text) with
  | .ok e => return e
  | .error _ => throw .unwrap

def scanStep (req : EndPoint E) (best : Option (Candidate E)) (c : Candidate E) : Partial (Option (Candidate E)) := do
  if ← c.1.endpoint.contains req then
    match best with
    | none => return some c
    | some b =>
      let spec ← ruleSpec c.1 req
      if ← b.1.endpoint.contains spec then return some c else return best
  else return best

def scan (targets : List (Target E)) (req : EndPoint E) : Partial (Option (Candidate E)) :=
  (candidates targets).foldlM (scanStep req) none

def outcome : Option (Candidate E) → Answer
  | some (rule,remoteProxy) =>
    match rule.action with
    | .allow => .ok remoteProxy
    | .deny => .error (.denied remoteProxy)
  | none => .error .notAllowed

structure TargetsCache where
  cache : SizedCache Str (Option Str)
  poisoned : Bool

def TargetsCache.new : TargetsCache := ⟨.new 100,false⟩

section
variable (targets : List (Target E)) (state : Option TargetsCache) (req : EndPoint E)

def getHextHopAddr : Partial Answer × Option TargetsCache :=
  match state with
  | none => (.error .unwrap,none)
  | some st =>
    if st.poisoned then (.error .poisoned,some st)
    else
      match st.cache.get req.text with
      | some v => (.ok (.ok v),some st)
      | none =>
        match scan targets req with
        | .error p => (.error p,some { st with poisoned := true })
        | .ok found =>
          match outcome found with
          | .ok v => (.ok (.ok v),some { st with cache := st.cache.add req.text v })
          | .error e => (.ok (.error e),some st)

def freshAnswer : Partial Answer :=
  (getHextHopAddr targets (some .new) req).1

theorem freshAnswer_eq : freshAnswer targets req = (scan targets req).map outcome := by
  have hg : TargetsCache.new.cache.get req.text = none := SizedCache.get_new 100 req.text
  unfold freshAnswer getHextHopAddr
  simp only [hg]
  cases hs : scan targets req with
  | error p => rfl
  | ok found =>
    cases ho : outcome found with
    | ok v => simp [TargetsCache.new,Except.map,ho]
    | error e => simp [TargetsCache.new,Except.map,ho]

end

def specEnd (z : Zone E) (p : PortSpec) : EndPoint E :=
  ⟨[z],[],[.tcp],[p],by by_cases h : z = .all <;> simp [adjustZones,h,eq_comm]⟩
theorem text_specEnd (z : Zone E) (p : PortSpec) : (specEnd z p).text = tcpSpec z.text p.text := by
  simp [specEnd,text,tcpSpec,Protocol.text]
def ruleZone (rule : Rule E) : Zone E := rule.endpoint.zones.headD .all

theorem ruleZone_mem (rule : Rule E) : ruleZone rule ∈ rule.endpoint.zones := by
  unfold ruleZone
  cases h : rule.endpoint.zones with
  | nil => exact absurd h rule.endpoint.zones_ne_nil
  | cons z zs => exact mem_cons_self

theorem ruleSpec_eq (hN : LawfulNetworks E) (rule : Rule E) {req : EndPoint E} {p : PortSpec} {ps : List PortSpec}
    (hp : req.ports = p :: ps) : ruleSpec rule req = .ok (specEnd (ruleZone rule) p) := by
  have hzone : first rule.endpoint.zones = .ok (ruleZone rule) := by
    unfold ruleZone
    cases h : rule.endpoint.zones with
    | nil => exact absurd h rule.endpoint.zones_ne_nil
    | cons z zs => rfl
  have hr : new E (tcpSpec (ruleZone rule).text p.text) = .ok (.ok (specEnd (ruleZone rule) p)) := by
    rw [← text_specEnd]
    apply new_text hN.parse_text
    intro z hz
    rw [mem_singleton.1 hz]
    exact rule.written _ (ruleZone_mem rule)
  rw [ruleSpec,hzone,ok_bind,hp]
  simp only [first,ok_bind,hr]
  rfl

def applies (req : EndPoint E) (c : Candidate E) : Bool := decide (c.1.endpoint.contains req = .ok true)
def replaces (p : PortSpec) (b c : Candidate E) : Bool :=
  decide (b.1.endpoint.contains (specEnd (ruleZone c.1) p) = .ok true)
def applicable (targets : List (Target E)) (req : EndPoint E) : List (Candidate E) :=
  (candidates targets).filter (applies req)

/-- No slice of the scan can panic: the zones that are tested on the right. -/
def SafeRules (targets : List (Target E)) : Prop :=
  ∀ c ∈ candidates targets, ∀ P, ruleZone c.1 = .pattern P → Pattern.sliceable P.pattern = true

theorem sliceable_specEnd {z : Zone E} (h : ∀ P, z = .pattern P → Pattern.sliceable P.pattern = true) (p : PortSpec) :
    (specEnd z p).Sliceable := fun P hP => h P (mem_singleton.1 hP).symm

theorem scanStep_eq (hN : LawfulNetworks E) {req : EndPoint E} {p : PortSpec} {ps : List PortSpec}
    (hp : req.ports = p :: ps) (hre : req.Sliceable) {c : Candidate E}
    (hc : ∀ P, ruleZone c.1 = .pattern P → Pattern.sliceable P.pattern = true) (best : Option (Candidate E)) :
    scanStep req best c = .ok (if applies req c then challenge (replaces p) best c else best) := by
  obtain ⟨b,hb⟩ := c.1.endpoint.returns_contains hre
  unfold scanStep applies
  rw [hb,ok_bind]
  cases b with
  | false => rfl
  | true =>
    cases best with
    | none => rfl
    | some d =>
      obtain ⟨r,hr⟩ := d.1.endpoint.returns_contains (sliceable_specEnd hc p)
      simp only [ruleSpec_eq hN c.1 hp,ok_bind,hr,challenge,keep,replaces]
      cases r <;> rfl

theorem scan_eq (hN : LawfulNetworks E) {targets : List (Target E)} {req : EndPoint E} {p : PortSpec}
    {ps : List PortSpec} (hp : req.ports = p :: ps) (hr : req.Sliceable) (hs : SafeRules targets) :
    scan targets req = .ok (select (replaces p) (applicable targets req)) := by
  have hf : ∀ (cs : List (Candidate E)) (best : Option (Candidate E)),
      (∀ c ∈ cs, ∀ P, ruleZone c.1 = .pattern P → Pattern.sliceable P.pattern = true) →
      cs.foldlM (scanStep req) best = .ok ((cs.filter (applies req)).foldl (challenge (replaces p)) best) := by
    intro cs best hcs
    induction cs generalizing best with
    | nil => rfl
    | cons c cs ih =>
      obtain ⟨hc,hrest⟩ := forall_mem_cons.1 hcs
      rw [foldlM_cons,scanStep_eq hN hp hr hc,ok_bind,ih _ hrest,filter_cons]
      split <;> rfl
  rw [scan,hf _ _ hs,applicable,foldl_challenge]

end Padsi.Web
