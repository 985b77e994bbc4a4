import Padsi.Web.Config

/-! # The most specific rule

The scan compares the candidate with the first zone of the next rule, on the requested
port only. A rule that is not contained may pass this test, and the order then decides.
-/
namespace Padsi.Web
open Rust Text Net Selection List Reference

variable {E : Externals}

def StrictlyContains (b c : Candidate E) : Prop :=
  b.1.endpoint.contains c.1.endpoint = .ok true ∧ ¬ c.1.endpoint.contains b.1.endpoint = .ok true

section
variable (targets : List (Target E)) (req : EndPoint E)

/-- The applicable rules are pairwise comparable and no two are equivalent. -/
def Chain : Prop :=
  (applicable targets req).Pairwise fun b c => StrictlyContains b c ∨ StrictlyContains c b

end

variable {targets : List (Target E)} {req : EndPoint E} {p : PortSpec} {ps : List PortSpec}

theorem com_dotted : "a.com.".toList.getLast? = some '.' := by decide
theorem com_starless : '*' ∉ "a.com.".toList := by decide
def comName : Name := ⟨"a.com.",com_dotted,com_starless⟩
def comRequest : EndPoint Reference.externals := ⟨[.name comName],[],[.tcp],[.port 443],by decide⟩

def portRule : Rule Reference.externals where
  action := .allow
  endpoint := comRequest
  written := EndPoint.written_of_new
    (show EndPoint.new Reference.externals "a.com.^tcp^443" = .ok (.ok comRequest) by rfl)

def comDenied : Rule externals := { portRule with action := .deny }
end Padsi.Web
