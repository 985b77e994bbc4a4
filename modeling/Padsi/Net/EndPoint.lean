import Padsi.Net.Pattern

/-! # Endpoints

Every part keeps what its parser checks, and an endpoint the adjustment of its zones.
-/
namespace Padsi.Net
open Rust Text

inductive Protocol where
  | tcp
  | udp
  | icmp
deriving DecidableEq, Repr

inductive PortSpec where
  | port (p : UInt16)
  | range (a b : UInt16) (pos : 0 < a) (lt : a < b)
deriving DecidableEq

def interfaceFormat : Str → Bool
  | [] => false
  | c :: s => c.isLower && s.all fun d => d.isLower || d.isDigit || d == '-' || d == '_'

structure NetworkInterface where
  text : Str
  short : text.length ≤ 15
  format : interfaceFormat text = true
deriving DecidableEq

inductive Zone (E : Externals) where
  | all
  | name (n : Name)
  | pattern (P : Pattern E)
  | network (n : Ipv4Network)
deriving DecidableEq

inductive SpecError where
  | tooManyParts
  | zone (s : Str)
  | interfaceLength
  | interfaceFormat
  | protocol (s : Str)
  | port (e : IntError)
  | portRange (s : Str)
  | portSpec (s : Str)
deriving DecidableEq, Repr

def Protocol.fromStr (s : Str) : Except SpecError Protocol :=
  let lower := s.map Char.toLower
  if lower = "tcp" then .ok .tcp
  else if lower = "udp" then .ok .udp
  else if lower = "icmp" then .ok .icmp
  else .error (.protocol s)

def Protocol.text : Protocol → Str
  | .tcp => "tcp"
  | .udp => "udp"
  | .icmp => "icmp"

def parseU16 (s : Str) : Except SpecError UInt16 :=
  match parseUnsigned 65535 s with
  | .ok n => .ok (UInt16.ofNat n)
  | .error e => .error (.port e)

def PortSpec.fromStr (s : Str) : Except SpecError PortSpec :=
  match s.splitOn '-' with
  | [p] => do return .port (← parseU16 p)
  | [a,b] => do
    let x ← parseU16 a
    let y ← parseU16 b
    if hx : 0 < x then
      if hlt : x < y then return .range x y hx hlt
      else if x = y then return .port x
      else throw (.portRange b)
    else throw (.portRange b)
  | _ => .error (.portSpec s)

def portText (p : UInt16) : Str := Nat.toDigits 10 p.toNat

def PortSpec.text : PortSpec → Str
  | .port p => portText p
  | .range a b _ _ => portText a ++ '-' :: portText b

def PortSpec.contains : PortSpec → UInt16 → Bool
  | .port p, q => p == q
  | .range a b _ _, q => decide (a ≤ q) && decide (q ≤ b)

def PortSpec.next : PortSpec → Option UInt16 → Option UInt16
  | .port p, none => some p
  | .port _, some _ => none
  | .range a _ _ _, none => some a
  | .range _ b _ _, some x => if x = b then none else some (x + 1)

def PortSpec.items (s : PortSpec) : ℕ → Option UInt16 → List UInt16
  | 0, _ => []
  | fuel + 1, index =>
    match s.next index with
    | none => []
    | some p => p :: s.items fuel (some p)

def PortSpec.iter (s : PortSpec) : List UInt16 := s.items 65536 none

def NetworkInterface.fromStr (s : Str) : Except SpecError NetworkInterface :=
  if hs : s.all (fun c => decide (c.toNat < 128)) = true ∧ s.length ≤ 15 then
    if hf : Net.interfaceFormat s = true then .ok ⟨s,hs.2,hf⟩ else .error .interfaceFormat
  else .error .interfaceLength

namespace Zone
variable {E : Externals}

def fromStr (E : Externals) (s : Str) : Except SpecError (Zone E) :=
  if trim s = ['*'] then .ok .all
  else
    match Name.new s with
    | .ok n => .ok (.name n)
    | .error _ =>
      match Pattern.new E s with
      | .ok P => .ok (.pattern P)
      | .error _ =>
        match E.parseNetwork s with
        | some n => .ok (.network n)
        | none =>
          match Ipv4Addr.parse s with
          | some x => .ok (.network ⟨x,32,Ipv4Network.hostLength_le⟩)
          | none => .error (.zone s)

def text : Zone E → Str
  | .all => ['*']
  | .name n => n.text
  | .pattern P => P.pattern
  | .network n => n.text

def contains : Zone E → Zone E → Partial (Option Bool)
  | .all, _ => .ok (some true)
  | .name n, .name o => .ok (some (n.contains o))
  | .pattern P, .pattern Q => do return some (← P.contains Q.pattern)
  | .pattern P, .name o => do return some (← P.contains o.text)
  | .network n, .network o => .ok (some (E.isSupernetOf n o))
  | _, _ => .ok none

end Zone

variable {E : Externals}

def adjustZones (zones : List (Zone E)) : List (Zone E) :=
  if zones = [] ∨ .all ∈ zones then [.all] else zones
theorem adjustZones_all : adjustZones [(.all : Zone E)] = [.all] := by simp [adjustZones]

theorem adjustZones_adjustZones (zones : List (Zone E)) : adjustZones (adjustZones zones) = adjustZones zones := by
  by_cases h : zones = [] ∨ .all ∈ zones
  · simp [adjustZones,h]
  · have hs : adjustZones zones = zones := if_neg h
    rw [hs,hs]

structure EndPoint (E : Externals) where
  zones : List (Zone E)
  interfaces : List NetworkInterface
  protocols : List Protocol
  ports : List PortSpec
  adjusted : adjustZones zones = zones
deriving DecidableEq

namespace EndPoint

def zonesOf (E : Externals) (part : Str) : Attempt SpecError (List (Zone E)) :=
  collect (fun s => .ok (Zone.fromStr E (trim s)))
    ((part.splitOn ',').filter fun s => !s.isEmpty && !Text.contains ['#'] s)

def interfaceOf (s : Str) : Attempt SpecError NetworkInterface :=
  match trim s with
  | [] => .error .sliceIndex
  | c :: rest => if c.utf8Size = 1 then .ok (NetworkInterface.fromStr rest) else .error .charBoundary

def interfacesOf (part : Str) : Attempt SpecError (List NetworkInterface) :=
  collect interfaceOf ((part.splitOn ',').filter (Text.contains ['#']))

def protocolsOf (parts : List Str) : Attempt SpecError (List Protocol) :=
  match parts with
  | _ :: part :: _ =>
    collect (fun s => .ok (Protocol.fromStr (trim s))) ((part.splitOn ',').filter fun s => decide (trim s ≠ []))
  | _ => .ok (.ok [])

def portsOf (parts : List Str) : Attempt SpecError (List PortSpec) :=
  match parts with
  | _ :: _ :: part :: _ => collect (fun s => .ok (PortSpec.fromStr (trim s))) (part.splitOn ',')
  | _ => .ok (.ok [])

def ofParts (E : Externals) (parts : List Str) : Attempt SpecError (EndPoint E) :=
  if parts.length > 3 then .ok (.error .tooManyParts)
  else
    andThen (zonesOf E (parts.headD [])) fun zones =>
    andThen (interfacesOf (parts.headD [])) fun interfaces =>
    andThen (protocolsOf parts) fun protocols =>
    andThen (portsOf parts) fun ports =>
      .ok (.ok ⟨adjustZones zones,interfaces,protocols,ports,adjustZones_adjustZones zones⟩)

def new (E : Externals) (spec : Str) : Attempt SpecError (EndPoint E) := ofParts E ((trim spec).splitOn '^')
def isIpAddr (E : Externals) (s : Str) : Bool := (Ipv4Addr.parse s).isSome || E.isIpv6 s
def tcpSpec (s port : Str) : Str := s ++ "^tcp^" ++ port

def newFromReq (E : Externals) (s : Str) (port : UInt16) : Attempt SpecError (EndPoint E) :=
  if isIpAddr E s then new E (tcpSpec s (portText port))
  else
    match s.getLast? with
    | some c => if c ≠ '.' then new E (tcpSpec (s ++ ['.']) (portText port)) else new E (tcpSpec s (portText port))
    | none => new E (tcpSpec s (portText port))

def text (e : EndPoint E) : Str :=
  [','].intercalate (e.zones.map Zone.text) ++ e.interfaces.flatMap (fun i => ",#".toList ++ i.text) ++
    if e.protocols = [] ∧ e.ports = [] then []
    else
      '^' :: [','].intercalate (e.protocols.map Protocol.text) ++
        if e.ports = [] then [] else '^' :: [','].intercalate (e.ports.map PortSpec.text)

/-- An absent list means everything; otherwise the other list must be present and pass. -/
def admits {α β : Type} (self : List α) (other : List β) (test : β → Bool) : Bool :=
  self.isEmpty || (!other.isEmpty && other.all test)

def someContains (o : Zone E) : List (Zone E) → Partial Bool
  | [] => .ok false
  | s :: ss => do if (← s.contains o) = some true then return true else someContains o ss

def allContained (ss : List (Zone E)) : List (Zone E) → Partial Bool
  | [] => .ok true
  | o :: os =>
    if o = .all then allContained ss os
    else do if ← someContains o ss then allContained ss os else return false

def contains (e other : EndPoint E) : Partial Bool :=
  if !admits e.interfaces other.interfaces (fun i => decide (i ∈ e.interfaces)) then .ok false
  else if !admits e.protocols other.protocols (fun p => decide (p ∈ e.protocols)) then .ok false
  else if !admits e.ports other.ports (fun o => o.iter.all fun p => e.ports.any (PortSpec.contains · p)) then .ok false
  else if .all ∈ e.zones then .ok true
  else allContained e.zones other.zones

end EndPoint

end Padsi.Net
