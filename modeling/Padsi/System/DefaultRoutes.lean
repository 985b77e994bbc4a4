import Padsi.Config.InRules

/-! # Rules on the interfaces of the default routes

Two objects put each of their rules on each interface. The operations of the firewall
succeed here: a rule replaces the ones for the same flow, if there is one policy for
each flow.
-/
namespace Padsi.System
open Text Python Net Fw Dns Config List

def debug : Bool := false

/-- A kind of rules: the text by which a rule is known, what the firewall has of it, and what this replaces. -/
structure Kind (ρ ε : Type) where
  ident : ρ → Str
  effects : ρ → List ε
  replaces : ε → ε → Bool
  symm : ∀ e e', replaces e e' = true → replaces e' e = true
  ne_nil : ∀ r, effects r ≠ []
  known : (∀ e, replaces e e = true) ∨
    ∀ r, (effects r).Nodup ∧ ∀ r' e, e ∈ effects r → e ∈ effects r' → ident r = ident r'

structure Manager (ρ ε : Type) where
  ifaces : List Str
  rules : Dict Str ρ
  installed : List (Str × ε)

section
variable {ρ ε : Type} (K : Kind ρ ε)

def install (installed : List (Str × ε)) (x : Str × ε) : List (Str × ε) :=
  installed.filter (fun y => !(decide (y.1 = x.1) && K.replaces x.2 y.2)) ++ [x]
def clear (installed : List (Str × ε)) (iface : Str) : List (Str × ε) := installed.filter fun y => decide (y.1 ≠ iface)

namespace Manager

def start : Manager ρ ε := ⟨[],.empty,[]⟩

def addRule (m : Manager ρ ε) (r : ρ) : Manager ρ ε :=
  if (m.rules.get (K.ident r)).isSome then m
  else ⟨m.ifaces,m.rules.set (K.ident r) r,(m.ifaces ×ˢ K.effects r).foldl (install K) m.installed⟩

def declare (m : Manager ρ ε) (iface : Str) : Manager ρ ε :=
  if iface ∈ m.ifaces then m
  else ⟨m.ifaces ++ [iface],m.rules,
    ([iface] ×ˢ m.rules.entries.flatMap fun r => K.effects r.2).foldl (install K) m.installed⟩

def undeclare (m : Manager ρ ε) (iface : Str) : Manager ρ ε :=
  if iface ∉ m.ifaces then m
  else { m with
    ifaces := m.ifaces.filter (fun i => decide (i ≠ iface))
    installed := if debug then clear m.installed iface else m.installed }

def adapt (m : Manager ρ ε) (defaults : List Str) : Manager ρ ε :=
  let declared := defaults.foldl (declare K) m
  { declared.ifaces.foldl (fun m i => if i ∈ defaults then m else m.undeclare i) declared with
    ifaces := defaults.dedup }

end Manager

inductive Call (ρ : Type) where
  | addRule (r : ρ)
  | declare (iface : Str)
  | undeclare (iface : Str)
  | adapt (defaults : List Str)

def Manager.step (m : Manager ρ ε) : Call ρ → Manager ρ ε
  | .addRule r => m.addRule K r
  | .declare iface => m.declare K iface
  | .undeclare iface => m.undeclare iface
  | .adapt defaults => m.adapt K defaults

structure World (ρ : Type) where
  declared : Set Str
  added : List ρ

namespace World

def start : World ρ := ⟨∅,[]⟩

open Classical in
noncomputable def next (w : World ρ) : Call ρ → World ρ
  | .addRule r => if ∃ r' ∈ w.added, K.ident r' = K.ident r then w else { w with added := w.added ++ [r] }
  | .declare iface => { w with declared := insert iface w.declared }
  | .undeclare iface => { w with declared := w.declared \ {iface} }
  | .adapt defaults => { w with declared := {i | i ∈ defaults} }

def Compatible (w : World ρ) : Prop :=
  ∀ r ∈ w.added, ∀ r' ∈ w.added, ∀ e ∈ K.effects r, ∀ e' ∈ K.effects r', K.replaces e e' = true → e = e'

/-- No interface is undeclared once there are rules, and no two rules are about one flow. -/
def Keeps (w : World ρ) (c : Call ρ) : Prop :=
  (∀ i ∈ w.declared, i ∉ (w.next K c).declared → w.added = []) ∧
    ((w.next K c).declared.Nonempty → (w.next K c).Compatible K)

end World

/-- Each rule is installed once on each interface, and there are no others. -/
def Exact (installed : List (Str × ε)) (w : World ρ) : Prop :=
  installed.Nodup ∧ ∀ i e, (i,e) ∈ installed ↔ i ∈ w.declared ∧ ∃ r ∈ w.added, e ∈ K.effects r

def Follows : Manager ρ ε → World ρ → List (Call ρ) → Prop
  | _, _, [] => True
  | m, w, c :: cs => Exact K (m.step K c).installed (w.next K c) ∧ Follows (m.step K c) (w.next K c) cs

def KeepsAll : World ρ → List (Call ρ) → Prop
  | _, [] => True
  | w, c :: cs => w.Keeps K c ∧ KeepsAll (w.next K c) cs

end

section
variable {U : Unicode}

def actionText : Action → Str
  | .allow => "allow"
  | .deny => "deny"

def chainText : Config.Chain → Str
  | .input => "FWRuleChain.INPUT"
  | .output => "FWRuleChain.OUTPUT"
  | .forward => "FWRuleChain.FORWARD"

/-- The flow of one protocol to an endpoint, up to the order of its parts. -/
abbrev Part (U : Unicode) :=
  Option Protocol × Option Iface × Multiset (Fw.Zone U) × Multiset Port × Multiset (PortRange U)

def parts (e : Endpoint U) : List (Part U) :=
  e.splitByProtocol.map fun p => (p.1,p.2.iface,p.2.zones,p.2.ports,p.2.portRanges)

theorem parts_ne_nil (e : Endpoint U) : parts e ≠ [] := by
  unfold parts Endpoint.splitByProtocol
  split
  · exact cons_ne_nil _ _
  · exact cons_ne_nil _ _
  · rename_i ps hne _
    obtain ⟨p,ps',hps⟩ := exists_cons_of_ne_nil hne
    rw [hps,eraseDups_cons]
    exact cons_ne_nil _ _

/-- The input rules of `NetworkInputManager`: a policy for the flows from an interface to an endpoint. -/
def inputKind : Kind (FWRule U) (Part U × Action) where
  ident r := actionText r.action ++ '|' :: r.endpoint.toRepr true ++ '|' :: chainText r.chain
  effects r := (parts r.endpoint).map (·,r.action)
  replaces e e' := decide (e.1 = e'.1)
  symm _ _ h := decide_eq_true (of_decide_eq_true h).symm
  ne_nil r h := parts_ne_nil r.endpoint (map_eq_nil_iff.1 h)
  known := .inl fun _ => decide_eq_true rfl

structure DNATRule where
  destAddr : Ipv4Addr
  protocolSpec : Option Str
  portSpec : Option Str
deriving DecidableEq

def dnatKind : Kind DNATRule DNATRule where
  ident r := r.destAddr.text ++ '|' :: r.protocolSpec.getD "None" ++ '|' :: r.portSpec.getD "None"
  effects r := [r]
  replaces _ _ := false
  symm _ _ h := h
  ne_nil r := cons_ne_nil r []
  known := .inr fun r => ⟨nodup_singleton r,fun r' e he he' => by rw [← mem_singleton.1 he,mem_singleton.1 he']⟩

structure Shaper where
  fwPrefix : Option Str
  manager : Manager DNATRule DNATRule

inductive ShaperCall where
  | addIncomingDnat (fwPrefix : Str) (r : DNATRule)
  | declare (iface : Str)
  | undeclare (iface : Str)

namespace Shaper

def start : Shaper := ⟨none,.start⟩
def refuses (s : Shaper) (fwPrefix : Str) : Bool := decide (s.fwPrefix ≠ none ∧ s.fwPrefix ≠ some fwPrefix)

def step (s : Shaper) : ShaperCall → Shaper × Except Str Unit
  | .addIncomingDnat fwPrefix r =>
    if s.refuses fwPrefix then (s,.error ("CODEBUG: FW prefix changes to '" ++ fwPrefix ++ "'"))
    else (⟨some fwPrefix,s.manager.addRule dnatKind r⟩,.ok ())
  | .declare iface => ({ s with manager := s.manager.declare dnatKind iface },.ok ())
  | .undeclare iface => ({ s with manager := s.manager.undeclare iface },.ok ())

def call (s : Shaper) : ShaperCall → Option (Call DNATRule)
  | .addIncomingDnat fwPrefix r => if s.refuses fwPrefix then none else some (.addRule r)
  | .declare iface => some (.declare iface)
  | .undeclare iface => some (.undeclare iface)

/-- What is wanted after a call, which is nothing new if it was refused. -/
noncomputable def next (s : Shaper) (w : World DNATRule) (c : ShaperCall) : World DNATRule :=
  ((s.call c).map (w.next dnatKind)).getD w

def Follows : Shaper → World DNATRule → List ShaperCall → Prop
  | _, _, [] => True
  | s, w, c :: cs => Exact dnatKind (s.step c).1.manager.installed (s.next w c) ∧ Follows (s.step c).1 (s.next w c) cs

def KeepsAll : Shaper → World DNATRule → List ShaperCall → Prop
  | _, _, [] => True
  | s, w, c :: cs => (∀ c', s.call c = some c' → w.Keeps dnatKind c') ∧ KeepsAll (s.step c).1 (s.next w c) cs

end Shaper

end

section
variable {ρ ε : Type} {K : Kind ρ ε} {installed : List (Str × ε)}

/-- On one interface, one rule does not replace another one. -/
def Unique (K : Kind ρ ε) (installed : List (Str × ε)) : Prop :=
  ∀ x ∈ installed, ∀ y ∈ installed, x.1 = y.1 → K.replaces x.2 y.2 = true → x.2 = y.2

variable {y : Str × ε} {xs : List (Str × ε)}

theorem mem_install {x : Str × ε} : y ∈ install K installed x ↔
    y ∈ installed ∧ ¬ (y.1 = x.1 ∧ K.replaces x.2 y.2 = true) ∨ y = x := by
  rw [install,mem_append,mem_filter,mem_singleton]
  simp only [Bool.not_eq_true',← Bool.not_eq_true,Bool.and_eq_true,decide_eq_true_eq]

theorem unique_install (h : Unique K installed) (x : Str × ε) : Unique K (install K installed x) := by
  intro y hy z hz hyz hr
  rcases mem_install.1 hy with ⟨hy,hyx⟩ | rfl
  · rcases mem_install.1 hz with ⟨hz,_⟩ | rfl
    · exact h y hy z hz hyz hr
    · exact absurd ⟨hyz,K.symm _ _ hr⟩ hyx
  · rcases mem_install.1 hz with ⟨_,hzx⟩ | rfl
    · exact absurd ⟨hyz.symm,hr⟩ hzx
    · rfl

theorem unique_installAll (xs : List (Str × ε)) (h : Unique K installed) :
    Unique K (xs.foldl (install K) installed) := by
  induction xs generalizing installed with
  | nil => exact h
  | cons x xs ih => exact ih (unique_install h x)

theorem Unique.of_subset {ys : List (Str × ε)} (h : Unique K ys) (hs : ∀ x ∈ xs, x ∈ ys) : Unique K xs :=
  fun x hx y hy => h x (hs x hx) y (hs y hy)

theorem mem_installAll (h : Unique K (installed ++ xs)) :
    y ∈ xs.foldl (install K) installed ↔ y ∈ installed ∨ y ∈ xs := by
  induction xs generalizing installed with
  | nil => simp
  | cons x xs ih =>
    have hmem : ∀ z, z ∈ install K installed x ↔ z ∈ installed ∨ z = x := by
      intro z
      rw [mem_install]
      constructor
      · exact Or.imp_left And.left
      · rintro (hz | rfl)
        · by_cases hr : z.1 = x.1 ∧ K.replaces x.2 z.2 = true
          · -- What is replaced is the rule itself.
            have hs := h x (by simp) z (by simp [hz]) hr.1.symm hr.2
            exact .inr (Prod.ext hr.1 hs.symm)
          · exact .inl ⟨hz,hr⟩
        · exact .inr rfl
    have hrest : Unique K (install K installed x ++ xs) := by
      refine h.of_subset fun z hz => ?_
      rcases mem_append.1 hz with hz | hz
      · rcases (hmem z).1 hz with hz | rfl
        · simp [hz]
        · simp
      · simp [hz]
    rw [foldl_cons,ih hrest,hmem,mem_cons,or_assoc]

theorem mem_installAll_of_ne (hy : y ∈ installed) (hne : ∀ x ∈ xs, x.1 ≠ y.1) : y ∈ xs.foldl (install K) installed := by
  induction xs generalizing installed with
  | nil => exact hy
  | cons x xs ih =>
    obtain ⟨hx,hxs⟩ := forall_mem_cons.1 hne
    exact ih (mem_install.2 (.inl ⟨hy,fun hs => hx hs.1.symm⟩)) hxs

theorem nodup_installAll (h : installed.Nodup) (hxs : (∀ e, K.replaces e e = true) ∨ (installed ++ xs).Nodup) :
    (xs.foldl (install K) installed).Nodup := by
  induction xs generalizing installed with
  | nil => exact h
  | cons x xs ih =>
    rw [foldl_cons]
    have hs : List.Sublist (install K installed x ++ xs) (installed ++ x :: xs) := by
      rw [install,append_assoc]
      exact filter_sublist.append (List.Sublist.refl _)
    rcases hxs with hr | hno
    · refine ih ?_ (.inl hr)
      refine nodup_append.2 ⟨h.filter _,nodup_singleton x,fun y hy z hz => ?_⟩
      rw [mem_singleton.1 hz]
      rintro rfl
      simp [hr] at hy
    · have hn := hno.sublist hs
      exact ih (nodup_append.1 hn).1 (.inr hn)

end

section
variable {ρ ε : Type} {K : Kind ρ ε} {m : Manager ρ ε} {w : World ρ}

structure Synced (K : Kind ρ ε) (m : Manager ρ ε) (w : World ρ) : Prop where
  ifaces : ∀ i, i ∈ m.ifaces ↔ i ∈ w.declared
  nodup : m.ifaces.Nodup
  rules : m.rules.entries = w.added.map fun r => (K.ident r,r)
  exact : Exact K m.installed w
  unique : Unique K m.installed

theorem synced_start : Synced K (.start : Manager ρ ε) .start := by
  refine ⟨fun i => ?_,nodup_nil,rfl,⟨nodup_nil,fun i e => ?_⟩,nofun⟩
  · exact iff_of_false not_mem_nil (Set.notMem_empty i)
  · exact iff_of_false not_mem_nil fun ha => Set.notMem_empty i ha.1

theorem Synced.isSome_iff (h : Synced K m w) (r : ρ) :
    (m.rules.get (K.ident r)).isSome = true ↔ ∃ r' ∈ w.added, K.ident r' = K.ident r := by
  rw [Option.isSome_iff_exists]
  constructor
  · rintro ⟨r',hr'⟩
    have hmem := Dict.mem_entries_iff.2 hr'
    rw [h.rules] at hmem
    obtain ⟨r'',hmem,heq⟩ := mem_map.1 hmem
    injection heq with hi _
    exact ⟨r'',hmem,hi⟩
  · rintro ⟨r',hmem,hi⟩
    refine ⟨r',Dict.mem_entries_iff.1 ?_⟩
    rw [h.rules,← hi]
    exact mem_map_of_mem hmem

theorem Synced.nodup_idents (h : Synced K m w) : (w.added.map K.ident).Nodup := by
  have hk := m.rules.nodup
  rw [h.rules,map_map] at hk
  exact hk

theorem Synced.nodup_effects (h : Synced K m w)
    (hk : ∀ r, (K.effects r).Nodup ∧ ∀ r' e, e ∈ K.effects r → e ∈ K.effects r' → K.ident r = K.ident r') :
    (w.added.flatMap K.effects).Nodup := by
  have hi := pairwise_map.1 h.nodup_idents
  refine nodup_flatMap.2 ⟨fun r _ => (hk r).1,hi.imp fun hne e he he' => ?_⟩
  exact hne ((hk _).2 _ e he he')

theorem World.Compatible.unique (h : w.Compatible K) {xs : List (Str × ε)}
    (hxs : ∀ x ∈ xs, ∃ r ∈ w.added, x.2 ∈ K.effects r) : Unique K xs := by
  intro x hx y hy _ hre
  obtain ⟨r,hr,hrx⟩ := hxs x hx
  obtain ⟨r',hr',hry⟩ := hxs y hy
  exact h r hr r' hr' x.2 hrx y.2 hry hre

/-- A rule is put on each declared interface, where it replaces none. -/
theorem Synced.addRule (h : Synced K m w) {r : ρ} (hn : ¬ ∃ r' ∈ w.added, K.ident r' = K.ident r)
    (hc : w.declared.Nonempty → World.Compatible K ⟨w.declared,w.added ++ [r]⟩) :
    Synced K (m.addRule K r) ⟨w.declared,w.added ++ [r]⟩ := by
  have hu : ¬ (m.rules.get (K.ident r)).isSome = true := fun hs => hn ((h.isSome_iff r).1 hs)
  rw [Manager.addRule,if_neg hu]
  have hj : ∀ {y : Str × ε}, y ∈ m.ifaces ×ˢ K.effects r ↔ y.1 ∈ w.declared ∧ y.2 ∈ K.effects r := by
    intro y
    rw [mem_product,h.ifaces]
  have hun : Unique K (m.installed ++ m.ifaces ×ˢ K.effects r) := by
    by_cases ha : w.declared.Nonempty
    · refine (hc ha).unique fun x hx => ?_
      rcases mem_append.1 hx with hx | hx
      · obtain ⟨_,r',hr',heq⟩ := (h.exact.2 x.1 x.2).1 hx
        exact ⟨r',mem_append_left _ hr',heq⟩
      · exact ⟨r,by simp,(hj.1 hx).2⟩
    · refine h.unique.of_subset fun x hx => (mem_append.1 hx).resolve_right fun hx => ?_
      exact ha ⟨x.1,(hj.1 hx).1⟩
  refine ⟨h.ifaces,h.nodup,?_,⟨?_,fun i e => ?_⟩,unique_installAll _ h.unique⟩
  · have hnm : K.ident r ∉ m.rules.entries.map Prod.fst := by
      rw [h.rules,map_map]
      intro hmem
      obtain ⟨r',hr',hid⟩ := mem_map.1 hmem
      exact hn ⟨r',hr',hid⟩
    change Dict.setIn _ _ _ = _
    rw [Dict.setIn_of_notMem hnm,h.rules,map_append]
    rfl
  · refine nodup_installAll h.exact.1 (K.known.imp_right fun hk => ?_)
    refine nodup_append.2 ⟨h.exact.1,h.nodup.product (hk r).1,fun x hx y hy hxy => ?_⟩
    rw [hxy] at hx
    obtain ⟨_,r',hr',he⟩ := (h.exact.2 y.1 y.2).1 hx
    exact hn ⟨r',hr',(hk r').2 r y.2 he (hj.1 hy).2⟩
  · rw [mem_installAll hun,h.exact.2,hj]
    simp only [mem_append,mem_singleton]
    constructor
    · rintro (⟨hi,r',hr',heq⟩ | ⟨hi,heq⟩)
      · exact ⟨hi,r',.inl hr',heq⟩
      · exact ⟨hi,r,.inr rfl,heq⟩
    · rintro ⟨hi,r',hr' | rfl,heq⟩
      · exact .inl ⟨hi,r',hr',heq⟩
      · exact .inr ⟨hi,heq⟩

variable {iface : Str}

theorem Synced.declare (h : Synced K m w) (hc : w.Compatible K) :
    Synced K (m.declare K iface) ⟨insert iface w.declared,w.added⟩ := by
  unfold Manager.declare
  split_ifs with hmem
  · have hs : insert iface w.declared = w.declared := Set.insert_eq_of_mem ((h.ifaces iface).1 hmem)
    rw [hs]
    exact h
  have hall : (m.rules.entries.flatMap fun r => K.effects r.2) = w.added.flatMap K.effects := by
    rw [h.rules,flatMap_map]
  rw [hall]
  have hjo : ∀ {y : Str × ε}, y ∈ [iface] ×ˢ w.added.flatMap K.effects ↔
      y.1 = iface ∧ ∃ r ∈ w.added, y.2 ∈ K.effects r := by
    intro y
    rw [mem_product,mem_singleton,mem_flatMap]
  have hu : Unique K (m.installed ++ [iface] ×ˢ w.added.flatMap K.effects) := by
    refine hc.unique fun x hx => ?_
    rcases mem_append.1 hx with hx | hx
    · exact ((h.exact.2 x.1 x.2).1 hx).2
    · exact (hjo.1 hx).2
  refine ⟨fun i => ?_,?_,h.rules,⟨?_,fun i e => ?_⟩,unique_installAll _ h.unique⟩
  · rw [mem_append,mem_singleton,h.ifaces,Set.mem_insert_iff,or_comm]
  · refine nodup_append.2 ⟨h.nodup,nodup_singleton _,fun i hi j hj hij => ?_⟩
    rw [hij,mem_singleton.1 hj] at hi
    exact hmem hi
  · refine nodup_installAll h.exact.1 (K.known.imp_right fun hk => ?_)
    refine nodup_append.2 ⟨h.exact.1,(nodup_singleton iface).product (h.nodup_effects hk),fun x hx y hy hxy => ?_⟩
    rw [hxy] at hx
    have hd := ((h.exact.2 y.1 y.2).1 hx).1
    rw [(hjo.1 hy).1] at hd
    exact hmem ((h.ifaces iface).2 hd)
  · rw [mem_installAll hu,h.exact.2,hjo,Set.mem_insert_iff,or_comm,or_and_right]

theorem undeclare_of_notMem (h : iface ∉ m.ifaces) : m.undeclare iface = m := if_pos h
theorem undeclare_of_mem (h : iface ∈ m.ifaces) :
    m.undeclare iface = { m with ifaces := m.ifaces.filter fun i => decide (i ≠ iface) } :=
  if_neg (Classical.not_not.2 h)

theorem undeclare_rules (m : Manager ρ ε) (iface : Str) : (m.undeclare iface).rules = m.rules := by
  by_cases h : iface ∈ m.ifaces
  · rw [undeclare_of_mem h]
  · rw [undeclare_of_notMem h]

theorem undeclare_installed (m : Manager ρ ε) (iface : Str) : (m.undeclare iface).installed = m.installed := by
  by_cases h : iface ∈ m.ifaces
  · rw [undeclare_of_mem h]
  · rw [undeclare_of_notMem h]

theorem undeclare_ifaces (m : Manager ρ ε) (iface : Str) :
    (m.undeclare iface).ifaces = m.ifaces.filter fun i => decide (i ≠ iface) := by
  by_cases h : iface ∈ m.ifaces
  · rw [undeclare_of_mem h]
  · rw [undeclare_of_notMem h]
    refine (filter_eq_self.2 fun i hi => ?_).symm
    exact decide_eq_true fun heq => h (heq ▸ hi)

theorem Synced.undeclare (h : Synced K m w) (hk : iface ∈ w.declared → w.added = []) :
    Synced K (m.undeclare iface) ⟨w.declared \ {iface},w.added⟩ := by
  refine ⟨fun i => ?_,?_,?_,?_,?_⟩
  · rw [undeclare_ifaces,mem_filter,h.ifaces,decide_eq_true_eq]
    rfl
  · rw [undeclare_ifaces]
    exact h.nodup.filter _
  · rw [undeclare_rules]
    exact h.rules
  · rw [undeclare_installed]
    refine ⟨h.exact.1,fun i e => (h.exact.2 i e).trans ?_⟩
    constructor
    · rintro ⟨hi,r,hr,heq⟩
      refine ⟨⟨hi,fun hs => ?_⟩,r,hr,heq⟩
      rw [hk (Set.mem_singleton_iff.1 hs ▸ hi)] at hr
      cases hr
    · exact fun ⟨hi,hr⟩ => ⟨hi.1,hr⟩
  · rw [undeclare_installed]
    exact h.unique

theorem adapt_eq (m : Manager ρ ε) (defaults : List Str) : m.adapt K defaults =
    ⟨defaults.dedup,(defaults.foldl (Manager.declare K) m).rules,(defaults.foldl (Manager.declare K) m).installed⟩ := by
  have hf : ∀ (is : List Str) (n : Manager ρ ε),
    (is.foldl (fun m i => if i ∈ defaults then m else m.undeclare i) n).rules = n.rules ∧
      (is.foldl (fun m i => if i ∈ defaults then m else m.undeclare i) n).installed = n.installed := by
    intro is
    induction is with
    | nil => exact fun n => ⟨rfl,rfl⟩
    | cons i is ih =>
      intro n
      obtain ⟨hrules,hi⟩ := ih (if i ∈ defaults then n else n.undeclare i)
      rw [foldl_cons,hrules,hi]
      split_ifs
      · exact ⟨rfl,rfl⟩
      · exact ⟨undeclare_rules n i,undeclare_installed n i⟩
  unfold Manager.adapt
  obtain ⟨hrules,hi⟩ := hf (defaults.foldl (Manager.declare K) m).ifaces (defaults.foldl (Manager.declare K) m)
  dsimp only
  rw [hrules,hi]

theorem Synced.declareAll (h : Synced K m w) {defaults : List Str} (hc : defaults ≠ [] → w.Compatible K) :
    Synced K (defaults.foldl (Manager.declare K) m) ⟨w.declared ∪ {i | i ∈ defaults},w.added⟩ := by
  induction defaults generalizing m w with
  | nil =>
    have hs : w.declared ∪ {i | i ∈ ([] : List Str)} = w.declared := by simp
    rw [hs]
    exact h
  | cons i is ih =>
    have hw : w.Compatible K := hc (cons_ne_nil i is)
    have hs : w.declared ∪ {j | j ∈ i :: is} = insert i w.declared ∪ {j | j ∈ is} := by
      ext j
      change (j ∈ w.declared ∨ j ∈ i :: is) ↔ (j = i ∨ j ∈ w.declared) ∨ j ∈ is
      rw [mem_cons,or_left_comm,or_assoc]
    rw [foldl_cons,hs]
    have hn : World.Compatible K ⟨insert i w.declared,w.added⟩ := hw
    exact ih (h.declare hw) fun _ => hn

theorem Synced.adapt (h : Synced K m w) {defaults : List Str} (hk : ∀ i ∈ w.declared, i ∉ defaults → w.added = [])
    (hc : defaults ≠ [] → w.Compatible K) : Synced K (m.adapt K defaults) ⟨{i | i ∈ defaults},w.added⟩ := by
  have ha := h.declareAll hc
  rw [adapt_eq]
  refine ⟨fun i => mem_dedup,nodup_dedup defaults,ha.rules,⟨ha.exact.1,fun i e => (ha.exact.2 i e).trans ?_⟩,ha.unique⟩
  constructor
  · rintro ⟨hi | hi,r,hr,heq⟩
    · refine ⟨Classical.byContradiction fun hnot => ?_,r,hr,heq⟩
      have hr : r ∈ w.added := hr
      rw [hk i hi hnot] at hr
      cases hr
    · exact ⟨hi,r,hr,heq⟩
  · exact fun ⟨hi,hr⟩ => ⟨.inr hi,hr⟩

theorem World.next_known {r : ρ} (h : ∃ r' ∈ w.added, K.ident r' = K.ident r) : w.next K (.addRule r) = w := if_pos h
theorem World.next_new {r : ρ} (h : ¬ ∃ r' ∈ w.added, K.ident r' = K.ident r) :
    w.next K (.addRule r) = ⟨w.declared,w.added ++ [r]⟩ := if_neg h

theorem Synced.step (h : Synced K m w) {c : Call ρ} (hk : w.Keeps K c) : Synced K (m.step K c) (w.next K c) := by
  cases c with
  | addRule r =>
    obtain ⟨_,hc⟩ := hk
    change Synced K (m.addRule K r) (w.next K (.addRule r))
    by_cases hkn : ∃ r' ∈ w.added, K.ident r' = K.ident r
    · rw [Manager.addRule,if_pos ((h.isSome_iff r).2 hkn),World.next_known hkn]
      exact h
    · rw [World.next_new hkn] at hc ⊢
      exact h.addRule hkn hc
  | declare iface => exact h.declare (hk.2 ⟨iface,Set.mem_insert iface _⟩)
  | undeclare iface =>
    refine h.undeclare fun hmem => hk.1 iface hmem fun hn => ?_
    exact hn.2 rfl
  | adapt defaults =>
    refine h.adapt hk.1 fun hne => ?_
    obtain ⟨i,hi⟩ := exists_mem_of_ne_nil defaults hne
    exact hk.2 ⟨i,hi⟩

theorem unique_declare (h : Unique K m.installed) (iface : Str) : Unique K (m.declare K iface).installed := by
  unfold Manager.declare
  split_ifs
  · exact h
  · exact unique_installAll _ h

theorem unique_step (h : Unique K m.installed) (c : Call ρ) : Unique K (m.step K c).installed := by
  cases c with
  | addRule r =>
    change Unique K (m.addRule K r).installed
    unfold Manager.addRule
    split_ifs
    · exact h
    · exact unique_installAll _ h
  | declare iface => exact unique_declare h iface
  | undeclare iface =>
    change Unique K (m.undeclare iface).installed
    rw [undeclare_installed]
    exact h
  | adapt defaults =>
    change Unique K (m.adapt K defaults).installed
    rw [adapt_eq]
    induction defaults generalizing m with
    | nil => exact h
    | cons i is ih => exact ih (unique_declare h i)

theorem mem_declareAll {x : Str × ε} (hx : x ∈ m.installed) (hd : x.1 ∈ m.ifaces) (defaults : List Str) :
    x ∈ (defaults.foldl (Manager.declare K) m).installed := by
  induction defaults generalizing m with
  | nil => exact hx
  | cons i is ih =>
    rw [foldl_cons]
    unfold Manager.declare
    split_ifs with hmem
    · exact ih hx hd
    · refine ih (mem_installAll_of_ne hx fun y hy heq => ?_) (mem_append_left _ hd)
      have hs : y.1 = i := mem_singleton.1 (mem_product.1 hy).1
      exact hmem (hs ▸ heq ▸ hd)

/-- A rule stays on an interface that is undeclared, and a second rule on a flow removes the first. -/
theorem Synced.lost (h : Synced K m w) {c : Call ρ} (hnot : ¬ w.Keeps K c) :
    ¬ Exact K (m.step K c).installed (w.next K c) := by
  intro hex
  refine hnot ⟨fun i hi hn => ?_,fun ⟨i,hi⟩ r hr r' hr' e he e' he' hre => ?_⟩
  · -- A rule stays on an interface that is no longer declared.
    refine eq_nil_iff_forall_not_mem.2 fun r hr => hn ?_
    obtain ⟨e,he⟩ := exists_mem_of_ne_nil _ (K.ne_nil r)
    have hmem : (i,e) ∈ m.installed := (h.exact.2 i e).2 ⟨hi,r,hr,he⟩
    have hd : i ∈ m.ifaces := (h.ifaces i).2 hi
    cases c with
    | addRule r' =>
      by_cases hk : ∃ r'' ∈ w.added, K.ident r'' = K.ident r'
      · rw [World.next_known hk]
        exact hi
      · rw [World.next_new hk]
        exact hi
    | declare iface => exact Set.mem_insert_of_mem iface hi
    | undeclare iface =>
      have hs : (i,e) ∈ (m.undeclare iface).installed := by
        rw [undeclare_installed]
        exact hmem
      exact ((hex.2 i e).1 hs).1
    | adapt defaults =>
      have hs : (i,e) ∈ (m.adapt K defaults).installed := by
        rw [adapt_eq]
        exact mem_declareAll hmem hd defaults
      exact ((hex.2 i e).1 hs).1
  · -- Two rules for one flow are not on one interface.
    have hfirst := (hex.2 i e).2 ⟨hi,r,hr,he⟩
    have hse := (hex.2 i e').2 ⟨hi,r',hr',he'⟩
    exact unique_step h.unique c _ hfirst _ hse rfl hre

theorem Synced.follows_iff (h : Synced K m w) (cs : List (Call ρ)) : Follows K m w cs ↔ KeepsAll K w cs := by
  induction cs generalizing m w with
  | nil => exact Iff.rfl
  | cons c cs ih =>
    rw [Follows,KeepsAll]
    by_cases hk : w.Keeps K c
    · have hn := h.step hk
      rw [ih hn]
      exact and_congr_left fun _ => iff_of_true hn.exact hk
    · exact iff_of_false (fun hf => h.lost hk hf.1) fun ha => hk ha.1

end

variable {s : Shaper}

theorem Shaper.step_of_call {c : ShaperCall} {c' : Call DNATRule} (h : s.call c = some c') :
    (s.step c).1.manager = s.manager.step dnatKind c' := by
  cases c with
  | addIncomingDnat fwPrefix r =>
    rw [Shaper.call] at h
    split_ifs at h with hr
    cases h
    rw [Shaper.step,if_neg hr]
    rfl
  | declare iface =>
    cases h
    rfl
  | undeclare iface =>
    cases h
    rfl

theorem Shaper.step_of_refused {c : ShaperCall} (h : s.call c = none) : (s.step c).1 = s := by
  cases c with
  | addIncomingDnat fwPrefix r =>
    rw [Shaper.call] at h
    split_ifs at h with hr
    rw [Shaper.step,if_pos hr]
  | declare | undeclare => cases h

theorem Shaper.follows_iff {w : World DNATRule} (h : Synced dnatKind s.manager w) (cs : List ShaperCall) :
    s.Follows w cs ↔ s.KeepsAll w cs := by
  induction cs generalizing s w with
  | nil => exact Iff.rfl
  | cons c cs ih =>
    rw [Shaper.Follows,Shaper.KeepsAll]
    cases hc : s.call c with
    | none =>
      have hn : s.next w c = w := by rw [Shaper.next,hc]; rfl
      rw [Shaper.step_of_refused hc,hn,ih h]
      exact and_congr_left fun _ => iff_of_true h.exact nofun
    | some c' =>
      have hn : s.next w c = w.next dnatKind c' := by rw [Shaper.next,hc]; rfl
      have hs := Shaper.step_of_call hc
      rw [hn]
      by_cases hk : w.Keeps dnatKind c'
      · have hsy : Synced dnatKind (s.step c).1.manager (w.next dnatKind c') := by
          rw [hs]
          exact h.step hk
        rw [ih hsy]
        refine and_congr_left fun _ => iff_of_true hsy.exact fun c'' hc'' => ?_
        cases hc''
        exact hk
      · refine iff_of_false (fun hf => ?_) fun ha => hk (ha.1 c' rfl)
        have he := hf.1
        rw [hs] at he
        exact h.lost hk he

/-- The rules that are installed are those of the interfaces exactly if no interface with rules is
undeclared, and no two rules are about one flow. -/
theorem installed_iff_keeps {U : Unicode} :
    (∀ cs : List (Call (FWRule U)), Follows inputKind .start .start cs ↔ KeepsAll inputKind .start cs) ∧
      ∀ cs : List ShaperCall, Shaper.start.Follows .start cs ↔ Shaper.start.KeepsAll .start cs :=
  ⟨synced_start.follows_iff,Shaper.follows_iff synced_start⟩

def eth0 : Str := "eth0"
def webRule : FWRule .ascii := ⟨.allow,none,oneHostWeb,.forward⟩
def webPart : Part .ascii := (some .tcp,none,oneHostWeb.zones,oneHostWeb.ports,oneHostWeb.portRanges)
def webDnat : DNATRule := ⟨⟨10,0,0,1⟩,some "tcp",some "443"⟩

/-- The rule stays on an interface that was undeclared. -/
theorem rule_stays : ¬ Follows inputKind .start .start [.declare eth0,.addRule webRule,.undeclare eth0] ∧
    ¬ Shaper.start.Follows .start [.declare eth0,.addIncomingDnat "padsi" webDnat,.undeclare eth0] := by
  constructor
  · rintro ⟨_,_,⟨_,he⟩,_⟩
    have hmem : (eth0,webPart,Action.allow) ∈ [(eth0,webPart,Action.allow)] := mem_singleton_self _
    exact ((he eth0 (webPart,.allow)).1 hmem).1.2 rfl
  · rintro ⟨_,_,⟨_,he⟩,_⟩
    have hmem : (eth0,webDnat) ∈ [(eth0,webDnat)] := mem_singleton_self _
    exact ((he eth0 webDnat).1 hmem).1.2 rfl

end Padsi.System
