import Padsi.Fw.Endpoint

/-! # Flows of the firewall library -/
namespace Padsi.Fw
open Text Net Python Endpoint

variable {U : Unicode}

def intText (n : ℤ) : Str := (Json.num n).text
def invalidPortNumber (p : ℤ) : Exc := .firewall ("invalid port " ++ intText p)
def portsWithoutProtocol : Exc := .firewall "Invalid endpoint: ports specified without any protocol"
def rangesWithoutProtocol : Exc := .firewall "Invalid endpoint: ports range specified without any protocol"
def secondDeclaredInterface : Exc := .firewall "endpoint already has a declared network interface"
def invalidRangeOf (p q : ℤ) : Exc :=
  .firewall ("Invalid endpoint spec: invalid port range " ++ intText p ++ '-' :: intText q)

def protocolsDontMatch (sps dps : List Protocol) : Exc :=
  .firewall ("Source '" ++ [','].intercalate (sps.map Protocol.text) ++ "' and destination '" ++
    [','].intercalate (dps.map Protocol.text) ++ "' protocols don't match")

def noSeparator : Exc := .firewall "Invalid endpoint spec: no '>' separator"

namespace Endpoint

def unspecified : Endpoint U := ofParts [] none [] [] []
def isAllIpv4 (e : Endpoint U) : Bool := decide (e.zones = [.all])

def checkedPorts (e : Endpoint U) : Except Exc (List Port) :=
  if e.ports ≠ [] ∧ e.protocols = [] then .error portsWithoutProtocol else .ok e.ports

/-- The property `port_ranges`: its test reads the ranges twice and never the protocols. -/
def checkedRanges (e : Endpoint U) : Except Exc (List (PortRange U)) :=
  if e.portRanges ≠ [] ∧ e.portRanges = [] then .error rangesWithoutProtocol else .ok e.portRanges

theorem checkedRanges_eq (e : Endpoint U) : e.checkedRanges = .ok e.portRanges := if_neg fun h => h.1 h.2

def addProtocol (e : Endpoint U) (proto : Str) : Except Exc (Endpoint U) :=
  match readProtocol proto with
  | none => .error (invalidProtocol proto)
  | some p => .ok (if p ∈ e.protocols then e else { e with protocols := e.protocols ++ [p] })

def setInterface (e : Endpoint U) (interface : Json) : Except Exc (Endpoint U) :=
  match interface with
  | .str s =>
    if h : s.length ≤ 15 then
      match e.iface with
      | none =>
        .ok { e with iface := some ⟨s,h⟩, zones := if e.isAllIpv4 then [] else e.zones, located := .inr (by simp) }
      | some i => if i = ⟨s,h⟩ then .ok e else .error secondDeclaredInterface
    else .error (invalidInterface s)
  | j => .error (invalidInterface j.text)

def addAddress (e : Endpoint U) (addr : Ipv4Network) : Endpoint U :=
  let z : Zone U := if addr.length = 32 then .address addr.addr else .network addr
  if z ∈ e.zones then e
  else if e.isAllIpv4 then { e with zones := [z], located := .inl (by simp) }
  else { e with zones := e.zones ++ [z], located := .inl (by simp) }

def addPort (e : Endpoint U) (p : ℤ) : Except Exc (Endpoint U) :=
  if h : ValidPort p then
    let q : Port := ⟨p.toNat,validPort_toNat h⟩
    .ok (if q ∈ e.ports then e else { e with ports := e.ports ++ [q] })
  else .error (invalidPortNumber p)

/-- `add_portrange`; the text that it writes is always one that `ports_map` reads. -/
def addPortrange (e : Endpoint U) (p q : ℤ) : Except Exc (Endpoint U) :=
  if ¬ ValidPort p then .error (invalidPortNumber p)
  else if ¬ ValidPort q then .error (invalidPortNumber q)
  else if q < p then .error (invalidRangeOf p q)
  else if p = q then e.addPort p
  else
    match h : readRange U (intText p ++ '-' :: intText q) with
    | none => .error (invalidRangeOf p q)
    | some (first,last) =>
      if hlt : first.val < last.val then
        let r : PortRange U := ⟨intText p ++ '-' :: intText q,first,last,h,hlt⟩
        .ok (if r ∈ e.portRanges then e else { e with portRanges := e.portRanges ++ [r] })
      else .error (invalidRangeOf p q)

def portTexts (e : Endpoint U) : List Str :=
  e.ports.map (fun p => Nat.toDigits 10 p.val) ++ e.portRanges.map PortRange.text

def toRepr (e : Endpoint U) (includeProtocols : Bool) : Str :=
  let zones := e.zones.map Zone.text ++ e.iface.toList.map fun i => '#' :: i.text
  (if zones = [] then ['*'] else [','].intercalate zones) ++
    (if includeProtocols ∧ e.protocols ≠ [] then '^' :: [','].intercalate (e.protocols.map Protocol.text) else []) ++
    if e.ports = [] ∧ e.portRanges = [] then [] else '^' :: [','].intercalate e.portTexts

def isEqualTo (e other : Endpoint U) : Bool :=
  decide (e.iface = other.iface) && e.zones.isPerm other.zones && e.ports.isPerm other.ports &&
    e.portRanges.isPerm other.portRanges

theorem isEqualTo_iff {e e' : Endpoint U} : e.isEqualTo e' = true ↔
    e.iface = e'.iface ∧ e.zones.Perm e'.zones ∧ e.ports.Perm e'.ports ∧ e.portRanges.Perm e'.portRanges := by
  simp [isEqualTo,List.isPerm_iff,and_assoc]

theorem isEqualTo_symm {e e' : Endpoint U} (h : e.isEqualTo e' = true) : e'.isEqualTo e = true := by
  obtain ⟨hi,hzones,hp,hr⟩ := isEqualTo_iff.1 h
  exact isEqualTo_iff.2 ⟨hi.symm,hzones.symm,hp.symm,hr.symm⟩

theorem isEqualTo_trans {e f g : Endpoint U} (h : e.isEqualTo f = true) (h' : f.isEqualTo g = true) :
    e.isEqualTo g = true := by
  obtain ⟨hi,hzones,hp,hr⟩ := isEqualTo_iff.1 h
  obtain ⟨hi',hz',hp',hr'⟩ := isEqualTo_iff.1 h'
  exact isEqualTo_iff.2 ⟨hi.trans hi',hzones.trans hz',hp.trans hp',hr.trans hr'⟩

theorem isEqualTo_refl (e : Endpoint U) : e.isEqualTo e = true := isEqualTo_iff.2 ⟨rfl,.refl _,.refl _,.refl _⟩

def splitByProtocol (e : Endpoint U) : List (Option Protocol × Endpoint U) :=
  match e.protocols with
  | [] => [(none,e)]
  | [p] => [(some p,e)]
  | ps => ps.eraseDups.map fun p => (some p,{ e with protocols := [p] })

end Endpoint

/-- The protocols of the endpoints can be changed, so that they are compared again when they are read. -/
structure NetFlow (U : Unicode) where
  src : Endpoint U
  dest : Endpoint U
deriving DecidableEq

namespace NetFlow

def checkProtocols (f : NetFlow U) : Except Exc Unit :=
  if f.src.protocols ≠ [] ∧ f.dest.protocols ≠ [] ∧ ¬ f.src.protocols.isPerm f.dest.protocols then
    .error (protocolsDontMatch f.src.protocols f.dest.protocols)
  else .ok ()

def new (src dest : Option (Endpoint U)) : Except Exc (NetFlow U) := do
  let f : NetFlow U := ⟨src.getD .unspecified,dest.getD .unspecified⟩
  f.checkProtocols
  return f

def protocols (f : NetFlow U) : Except Exc (List Protocol) := do
  f.checkProtocols
  return if f.src.protocols ≠ [] then f.src.protocols else f.dest.protocols

def isEqualTo (f other : NetFlow U) : Except Exc Bool := do
  if (← f.protocols) ≠ (← other.protocols) then return false
  return f.src.isEqualTo other.src && f.dest.isEqualTo other.dest

def addProtocols (f : NetFlow U) : List Str → Except Exc (NetFlow U)
  | [] => .ok f
  | proto :: protos =>
    if strip proto = [] then f.addProtocols protos
    else do
      let src ← f.src.addProtocol (strip proto)
      let dest ← f.dest.addProtocol (strip proto)
      addProtocols ⟨src,dest⟩ protos

def fromRepr (U : Unicode) (txt : Str) : Except Exc (NetFlow U) :=
  match txt.splitOn '>' with
  | [rsrc,protos,rdest] => do
    let src ← Endpoint.fromRepr U rsrc (some protos)
    let dest ← Endpoint.fromRepr U rdest (some protos)
    let f ← addProtocols ⟨src,dest⟩ (if protos = [] then [] else protos.splitOn ',')
    new (some f.src) (some f.dest)
  | _ => .error noSeparator

def text (f : NetFlow U) : Except Exc Str := do
  let protos ← f.protocols
  return f.src.toRepr false ++ '>' :: [','].intercalate (protos.map Protocol.text) ++ '>' :: f.dest.toRepr false

def pick (p : Protocol) (split : List (Option Protocol × Endpoint U)) : Except Exc (Endpoint U) :=
  match split.lookup (some p) with
  | some e => .ok e
  | none =>
    match split.lookup none with
    | some e => .ok e
    | none => .error (.fault .key)

def splitByProtocol (f : NetFlow U) : Except Exc (List (Option Protocol × NetFlow U)) := do
  match ← f.protocols with
  | [] => return [(none,f)]
  | [p] => return [(some p,f)]
  | protos =>
    protos.eraseDups.mapM fun p => do
      let src ← pick p f.src.splitByProtocol
      let dest ← pick p f.dest.splitByProtocol
      return (some p,← new (some src) (some dest))

def same (f g : NetFlow U) : Bool :=
  match f.isEqualTo g with
  | .ok b => b
  | .error _ => false

theorem same_iff {f g : NetFlow U} : f.same g = true ↔
    ∃ ps, f.protocols = .ok ps ∧ g.protocols = .ok ps ∧ f.src.isEqualTo g.src = true ∧
      f.dest.isEqualTo g.dest = true := by
  unfold same isEqualTo
  cases hf : f.protocols with
  | error e => simp [bind,Except.bind]
  | ok ps =>
    cases hg : g.protocols with
    | error e => simp [bind,Except.bind]
    | ok qs =>
      by_cases hps : ps = qs
      · simp [bind,Except.bind,pure,Except.pure,hps]
      · have hne : ¬ qs = ps := fun h => hps h.symm
        simp [bind,Except.bind,pure,Except.pure,hps,hne]

theorem same_symm {f g : NetFlow U} (h : f.same g = true) : g.same f = true := by
  obtain ⟨ps,hf,hg,hs,hd⟩ := same_iff.1 h
  exact same_iff.2 ⟨ps,hg,hf,isEqualTo_symm hs,isEqualTo_symm hd⟩

theorem same_trans {f g h : NetFlow U} (hfg : f.same g = true) (hgh : g.same h = true) : f.same h = true := by
  obtain ⟨ps,hf,hg,hs,hd⟩ := same_iff.1 hfg
  obtain ⟨qs,hg',hh,hs',hd'⟩ := same_iff.1 hgh
  cases hg.symm.trans hg'
  exact same_iff.2 ⟨ps,hf,hh,isEqualTo_trans hs hs',isEqualTo_trans hd hd'⟩

end NetFlow

end Padsi.Fw
