import Padsi.Lib.Python
import Padsi.Lib.Store

/-! # Clipboard rules

The first rule that matches decides. Rules are enforced by the proxies of zones, which
not all zones get.
-/
namespace Padsi.Config
open Text Python List

inductive Policy where
  | allow
  | deny
deriving DecidableEq, Repr

structure ClipboardRule where
  policy : Policy
  copyZones : List Str
  pasteZones : List Str
deriving DecidableEq

namespace ClipboardRule

def new (action rule : Str) : Except Str ClipboardRule :=
  if action ≠ "allow" ∧ action ≠ "deny" then .error ("Invalid action '" ++ action ++ "'")
  else
    match rule.splitOn '>' with
    | [copyZones,pasteZones] =>
      .ok ⟨if action = "allow" then .allow else .deny,(copyZones.splitOn ',').map strip,
        (pasteZones.splitOn ',').map strip⟩
    | _ => .error ("Invalid clipboard rule '" ++ rule ++ "'")

def covers (r : ClipboardRule) (copyZone pasteZone : Str) : Bool :=
  (decide (['*'] ∈ r.copyZones) || decide (copyZone ∈ r.copyZones)) &&
    (decide (['*'] ∈ r.pasteZones) || decide (pasteZone ∈ r.pasteZones))
def getPolicy (r : ClipboardRule) (copyZone pasteZone : Str) : Option Policy :=
  if r.covers copyZone pasteZone then some r.policy else none
def unknownZone (existingZones names : List Str) : Option Str :=
  names.find? fun name => decide (name ≠ ['*'] ∧ name ∉ existingZones)

def checkZonesExist (r : ClipboardRule) (existingZones : List Str) : Except Str Unit :=
  match unknownZone existingZones r.copyZones, unknownZone existingZones r.pasteZones with
  | some name, _ => .error ("Unknown referenced copy zone '" ++ name ++ "'")
  | none, some name => .error ("Unknown referenced paste zone '" ++ name ++ "'")
  | none, none => .ok ()

end ClipboardRule

structure Configuration where
  zones : List Str
  rules : List ClipboardRule
  nodup : zones.Nodup
  checked : ∀ r ∈ rules, r.checkZonesExist zones = .ok ()

def handle (zoneName pasteZone : Str) (pzlist : Finset Str) : List ClipboardRule → Finset Str
  | [] => insert zoneName pzlist
  | r :: rules =>
    match r.getPolicy zoneName pasteZone with
    | some .deny => pzlist
    | some .allow => insert zoneName pzlist
    | none => handle zoneName pasteZone pzlist rules

namespace Configuration
variable (c : Configuration)

def copySources (pasteZone : Str) : Finset Str :=
  c.zones.foldl (fun pzlist zoneName => handle zoneName pasteZone pzlist c.rules) {pasteZone}
def allowedCopyFrom : Dict Str (Finset Str) :=
  if c.rules.length > 0 then c.zones.foldl (fun d pasteZone => d.set pasteZone (c.copySources pasteZone)) .empty
    else .empty

def pasteTargets (copyZone : Str) : Finset Str :=
  c.zones.foldl (fun czlist zoneName => if copyZone ∈ (c.allowedCopyFrom.get zoneName).getD ∅ then
    insert zoneName czlist else czlist)
    {copyZone}

def allowedPasteTo : Dict Str (Finset Str) :=
  if c.rules.length > 0 then c.zones.foldl (fun d copyZone => d.set copyZone (c.pasteTargets copyZone)) .empty
    else .empty
def getClipboardAllowedZones (pasteZone : Str) : Finset Str := (c.allowedCopyFrom.get pasteZone).getD ∅

def measure (zoneName : Str) (nbZones targets : ℕ) : Option ℕ → List Str → Bool
  | _, [] => false
  | nbz, zn :: zones =>
    if zn ≠ zoneName then
      match nbz with
      | none => if targets ≠ nbZones ∧
        targets ≠ nbZones - 1 then true else measure zoneName nbZones targets (some targets) zones
      | some n => if n ≠ targets then true else measure zoneName nbZones targets (some n) zones
    else measure zoneName nbZones targets nbz zones

def zoneNeedsWaylandProxy (zoneName : Str) : Bool :=
  if c.rules.length = 0 then false
  else
    match c.allowedCopyFrom.get zoneName with
    | none => true
    | some cfrom =>
      if cfrom.card ≠ c.zones.length then true
      else measure zoneName c.zones.length ((c.allowedPasteTo.get zoneName).getD ∅).card none c.zones

def tag (zone : Str) : Option Str := if c.zoneNeedsWaylandProxy zone then some zone else none

def accepts (zone : Str) (tag : Option Str) : Bool :=
  if c.zoneNeedsWaylandProxy zone then
    match tag with
    | some origin => decide (origin = zone) || decide (origin ∈ c.getClipboardAllowedZones zone)
    | none => false
  else true

/-- The first rule that matches allows the copy, or no rule matches. -/
def Permits (copyZone pasteZone : Str) : Prop :=
  ∀ r, c.rules.find? (fun r => r.covers copyZone pasteZone) = some r → r.policy = .allow

/-- Something cannot be pasted into the zone, or at least two other zones refuse what it copies. -/
def Filtered (zone : Str) : Prop :=
  (∃ x ∈ c.zones, x ≠ zone ∧ ¬ c.Permits x zone) ∨
    ∃ x ∈ c.zones, ∃ y ∈ c.zones, x ≠ y ∧ x ≠ zone ∧ y ≠ zone ∧ ¬ c.Permits zone x ∧ ¬ c.Permits zone y

variable {c}

theorem mem_handle (rules : List ClipboardRule) (zoneName pasteZone x : Str) (pzlist : Finset Str) :
    x ∈ handle zoneName pasteZone pzlist rules ↔
      x ∈ pzlist ∨ x = zoneName ∧ ∀ r, rules.find? (fun r => r.covers zoneName pasteZone) = some r →
        r.policy = .allow := by
  induction rules with
  | nil => simp [handle,or_comm]
  | cons r rules ih =>
    rw [handle,ClipboardRule.getPolicy,find?_cons]
    cases hc : r.covers zoneName pasteZone with
    | false => simpa using ih
    | true => cases hp : r.policy <;> simp [hp,or_comm]

theorem mem_copySources {pasteZone x : Str} : x ∈ c.copySources pasteZone ↔
    x = pasteZone ∨ x ∈ c.zones ∧ c.Permits x pasteZone := by
  have hf : ∀ (zones : List Str) (pzlist : Finset Str),
      x ∈ zones.foldl (fun pzlist zoneName => handle zoneName pasteZone pzlist c.rules) pzlist ↔
        x ∈ pzlist ∨ x ∈ zones ∧ c.Permits x pasteZone := by
    intro zones
    induction zones with
    | nil => simp
    | cons z zones ih =>
      intro pzlist
      rw [foldl_cons,ih,mem_handle,mem_cons]
      constructor
      · rintro ((h | ⟨rfl,h⟩) | ⟨h,h'⟩)
        · exact .inl h
        · exact .inr ⟨.inl rfl,h⟩
        · exact .inr ⟨.inr h,h'⟩
      · rintro (h | ⟨rfl | h,h'⟩)
        · exact .inl (.inl h)
        · exact .inl (.inr ⟨rfl,h'⟩)
        · exact .inr ⟨h,h'⟩
  rw [copySources,hf,Finset.mem_singleton]

theorem card_copySources_ne_iff {zone : Str} (hzone : zone ∈ c.zones) :
    (c.copySources zone).card ≠ c.zones.length ↔ ∃ x ∈ c.zones, x ≠ zone ∧ ¬ c.Permits x zone := by
  have hs : c.copySources zone ⊆ c.zones.toFinset := by
    intro x hx
    rcases mem_copySources.1 hx with rfl | ⟨hx,_⟩
    · exact mem_toFinset.2 hzone
    · exact mem_toFinset.2 hx
  have ha : (c.copySources zone).card = c.zones.length ↔ ∀ x ∈ c.zones, x = zone ∨ c.Permits x zone := by
    rw [← toFinset_card_of_nodup c.nodup]
    constructor
    · intro hc x hx
      rw [← mem_toFinset,← Finset.eq_of_subset_of_card_le hs hc.ge] at hx
      exact (mem_copySources.1 hx).imp_right And.right
    · intro h
      refine congrArg Finset.card (hs.antisymm fun x hx => ?_)
      have hx := mem_toFinset.1 hx
      exact mem_copySources.2 ((h x hx).imp_right fun hp => ⟨hx,hp⟩)
  rw [ne_eq,ha]
  push Not
  rfl

theorem get_foldl_set {β : Type} (f : Str → β) (zones : List Str) (z : Str) :
    (zones.foldl (fun d z => d.set z (f z)) .empty : Dict Str β).get z = if z ∈ zones then some (f z) else none := by
  induction zones using reverseRecOn with
  | nil => rfl
  | append_singleton zones y ih =>
    rw [foldl_append,foldl_cons,foldl_nil,Dict.get_set,ih]
    by_cases hz : z = y
    · subst hz
      simp
    · simp [hz]

section
variable (hrules : c.rules.length > 0) {zone : Str} (hzone : zone ∈ c.zones)
include hrules hzone

theorem get_allowedCopyFrom : c.allowedCopyFrom.get zone = some (c.copySources zone) := by
  rw [allowedCopyFrom,if_pos hrules,get_foldl_set,if_pos hzone]
theorem get_allowedPasteTo : c.allowedPasteTo.get zone = some (c.pasteTargets zone) := by
  rw [allowedPasteTo,if_pos hrules,get_foldl_set,if_pos hzone]

theorem mem_pasteTargets {x : Str} : x ∈ c.pasteTargets zone ↔ x ∈ c.zones ∧ (x = zone ∨ c.Permits zone x) := by
  have hf : ∀ (zones : List Str), (∀ z ∈ zones, z ∈ c.zones) → ∀ czlist : Finset Str,
      x ∈ zones.foldl (fun czlist zoneName => if zone ∈ (c.allowedCopyFrom.get zoneName).getD ∅ then
        insert zoneName czlist else czlist) czlist ↔
        x ∈ czlist ∨ x ∈ zones ∧ (x = zone ∨ c.Permits zone x) := by
    intro zones
    induction zones with
    | nil => simp
    | cons z zones ih =>
      intro hsu czlist
      obtain ⟨hz,hrest⟩ := forall_mem_cons.1 hsu
      have hs : zone ∈ (c.allowedCopyFrom.get z).getD ∅ ↔ z = zone ∨ c.Permits zone z := by
        rw [get_allowedCopyFrom hrules hz,Option.getD_some,mem_copySources,eq_comm]
        simp [hzone]
      rw [foldl_cons,ih hrest,mem_cons]
      by_cases hp : z = zone ∨ c.Permits zone z
      · rw [if_pos (hs.2 hp),Finset.mem_insert]
        constructor
        · rintro ((rfl | h) | ⟨h,h'⟩)
          · exact .inr ⟨.inl rfl,hp⟩
          · exact .inl h
          · exact .inr ⟨.inr h,h'⟩
        · rintro (h | ⟨rfl | h,h'⟩)
          · exact .inl (.inr h)
          · exact .inl (.inl rfl)
          · exact .inr ⟨h,h'⟩
      · rw [if_neg (mt hs.1 hp)]
        refine or_congr_right ⟨And.imp_left .inr,?_⟩
        rintro ⟨rfl | h,h'⟩
        · exact absurd h' hp
        · exact ⟨h,h'⟩
  rw [pasteTargets, hf c.zones fun _ h => h, Finset.mem_singleton]
  constructor
  · rintro (rfl | h)
    · exact ⟨hzone,.inl rfl⟩
    · exact h
  · exact .inr

theorem two_refusals_iff : (c.pasteTargets zone).card ≠ c.zones.length ∧
    (c.pasteTargets zone).card ≠ c.zones.length - 1 ↔
    ∃ x ∈ c.zones, ∃ y ∈ c.zones, x ≠ y ∧ x ≠ zone ∧ y ≠ zone ∧ ¬ c.Permits zone x ∧ ¬ c.Permits zone y := by
  have hs : c.pasteTargets zone ⊆ c.zones.toFinset :=
    fun x hx => mem_toFinset.2 ((mem_pasteTargets hrules hzone).1 hx).1
  have hr : ∀ x, x ∈ c.zones.toFinset \ c.pasteTargets zone ↔ x ∈ c.zones ∧ x ≠ zone ∧ ¬ c.Permits zone x := by
    intro x
    rw [Finset.mem_sdiff,mem_toFinset,mem_pasteTargets hrules hzone]
    tauto
  have hc := Finset.card_sdiff_of_subset hs
  have hle := Finset.card_le_card hs
  rw [toFinset_card_of_nodup c.nodup] at hc hle
  have hp : 0 < c.zones.length := length_pos_of_mem hzone
  have hm : ((c.pasteTargets zone).card ≠ c.zones.length ∧ (c.pasteTargets zone).card ≠ c.zones.length - 1) ↔
      1 < (c.zones.toFinset \ c.pasteTargets zone).card := by omega
  rw [hm,Finset.one_lt_card]
  constructor
  · rintro ⟨x,hx,y,hy,hne⟩
    obtain ⟨hx,hxz,hxp⟩ := (hr x).1 hx
    obtain ⟨hy,hyz,hyp⟩ := (hr y).1 hy
    exact ⟨x,hx,y,hy,hne,hxz,hyz,hxp,hyp⟩
  · rintro ⟨x,hx,y,hy,hne,hxz,hyz,hxp,hyp⟩
    exact ⟨x,(hr x).2 ⟨hx,hxz,hxp⟩,y,(hr y).2 ⟨hy,hyz,hyp⟩,hne⟩

end

theorem measure_some (zoneName : Str) (nbZones targets : ℕ) (zones : List Str) :
    measure zoneName nbZones targets (some targets) zones = false := by
  induction zones with
  | nil => rfl
  | cons z zones ih =>
    rw [measure]
    split
    · rw [if_neg (not_not.2 rfl)]
      exact ih
    · exact ih

theorem measure_none (zoneName : Str) (nbZones targets : ℕ) {zones : List Str} (h : ∃ z ∈ zones, z ≠ zoneName) :
    measure zoneName nbZones targets none zones = decide (targets ≠ nbZones ∧ targets ≠ nbZones - 1) := by
  induction zones with
  | nil =>
    obtain ⟨_,h,_⟩ := h
    cases h
  | cons z zones ih =>
    rw [measure]
    by_cases hz : z ≠ zoneName
    · rw [if_pos hz]
      by_cases ht : targets ≠ nbZones ∧ targets ≠ nbZones - 1
      · rw [if_pos ht,decide_eq_true ht]
      · rw [if_neg ht,measure_some,decide_eq_false ht]
    · rw [if_neg hz]
      obtain ⟨x,hx,hne⟩ := h
      rcases mem_cons.1 hx with rfl | hx
      · exact absurd hne hz
      · exact ih ⟨x,hx,hne⟩

theorem zoneNeedsWaylandProxy_iff {zone other : Str} (hzone : zone ∈ c.zones) (ho : other ∈ c.zones)
    (hne : other ≠ zone) : c.zoneNeedsWaylandProxy zone = true ↔ c.Filtered zone := by
  unfold zoneNeedsWaylandProxy
  by_cases hrules : c.rules.length = 0
  · have hp : ∀ x y, c.Permits x y := by
      intro x y r hr
      rw [length_eq_zero_iff.1 hrules] at hr
      cases hr
    simp [hrules,Filtered,hp]
  · have hpo : c.rules.length > 0 := Nat.pos_of_ne_zero hrules
    rw [if_neg hrules,get_allowedCopyFrom hpo hzone]
    simp only [get_allowedPasteTo hpo hzone,Option.getD_some,measure_none _ _ _ ⟨other,ho,hne⟩]
    unfold Filtered
    rw [← card_copySources_ne_iff hzone,← two_refusals_iff hpo hzone]
    by_cases hc : (c.copySources zone).card ≠ c.zones.length
    · simp [hc]
    · simp [hc]

/-- A zone accepts just what the rules permit if and only if no zone without proxy may copy to one
with a proxy. -/
theorem accepts_iff_permits_iff {a b : Str} (ha : a ∈ c.zones) (hb : b ∈ c.zones) (hne : a ≠ b) :
    (c.accepts b (c.tag a) = true ↔ c.Permits a b) ↔ (c.Permits a b → c.Filtered b → c.Filtered a) := by
  have hpa := zoneNeedsWaylandProxy_iff ha hb hne.symm
  have hp := zoneNeedsWaylandProxy_iff hb ha hne
  unfold accepts tag
  by_cases hfb : c.Filtered b
  · have hrules : c.rules.length > 0 := by
      by_contra hn
      have hz : c.rules.length = 0 := by omega
      have hnone : c.zoneNeedsWaylandProxy b = false := if_pos hz
      rw [hp.2 hfb] at hnone
      cases hnone
    have hal : a ∈ c.getClipboardAllowedZones b ↔ c.Permits a b := by
      rw [getClipboardAllowedZones,get_allowedCopyFrom hrules hb,Option.getD_some,mem_copySources]
      simp [hne,ha]
    rw [if_pos (hp.2 hfb)]
    by_cases hfa : c.Filtered a
    · rw [if_pos (hpa.2 hfa)]
      simp [hne,hal,hfa]
    · rw [if_neg (mt hpa.1 hfa)]
      simp [hfa,hfb]
  · -- everything may be pasted into a zone without proxy
    have hpe : c.Permits a b := by
      by_contra hnot
      exact hfb (.inl ⟨a,ha,hne,hnot⟩)
    rw [if_neg (mt hp.1 hfb)]
    simp [hpe,hfb]

def threeZones : Configuration where
  zones := ["a","b","c"]
  rules := [⟨.deny,["c"],["b"]⟩]
  nodup := by decide
  checked := by decide

theorem accepts_iff_permits_threeZones :
    ("c".toList ∈ threeZones.zones ∧ "b".toList ∈ threeZones.zones) ∧
      ((threeZones.accepts "b" (threeZones.tag "c") = true ↔ threeZones.Permits "c" "b") ↔
        (threeZones.Permits "c" "b" → threeZones.Filtered "b" → threeZones.Filtered "c")) :=
  ⟨by decide,accepts_iff_permits_iff (by decide) (by decide) (by decide)⟩

/-- The first zone has no proxy, so that the second one, which has one, refuses what it copies. -/
theorem untagged_copy_is_refused :
    ClipboardRule.new "deny" "c>b" = .ok ⟨.deny,["c"],["b"]⟩ ∧
      threeZones.Permits "a" "b" ∧ threeZones.accepts "b" (threeZones.tag "a") = false := by
  have hf : threeZones.rules.find? (fun r => r.covers "a" "b") = none := by decide
  refine ⟨by decide,fun r hr => ?_,by decide +kernel⟩
  rw [hf] at hr
  cases hr

end Configuration

end Padsi.Config
