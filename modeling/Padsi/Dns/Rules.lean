import Padsi.Fw.NetFlow
import Padsi.Fw.Reading
import Padsi.Lib.Store

/-! # Resolution rules

A rule is written to a file by `network.py` and read back by `padsi-dns-fw`, which skips
the entries that it cannot read.
-/
namespace Padsi.Dns
open Text Net Python Regex Fw List Option Endpoint

variable {U : Unicode}

inductive Action where
  | allow
  | deny
deriving DecidableEq, Repr

structure Reply where
  ttl : ℤ
  address : Ipv4Addr
deriving DecidableEq

structure ResolvRule (U : Unicode) where
  action : Action
  endpoint : Endpoint U
  resolv : Option (List Reply)
  names : ∀ z ∈ endpoint.zones, isDomainName U z.text = .ok true

structure ResolvEntry where
  action : Action
  query : Option Str
  reply : Option (List Reply)
  spec : Option Str
deriving DecidableEq

def protocolsAsString (e : Endpoint U) : Option Str :=
  if e.protocols = [] then none else some ([','].intercalate (e.protocols.map Protocol.text))
def portsAsString (e : Endpoint U) : Option Str :=
  if e.portTexts = [] then none else some ([','].intercalate e.portTexts)

def specOf (e : Endpoint U) : Option Str :=
  match protocolsAsString e, portsAsString e with
  | some pr, some pp => some (pr ++ '^' :: pp)
  | some pr, none => some pr
  | none, pp => pp

def ResolvRule.entry (r : ResolvRule U) (z : Zone U) : ResolvEntry := ⟨r.action,some z.text,r.resolv,specOf r.endpoint⟩
def ResolvRule.formatForComponent (r : ResolvRule U) : List ResolvEntry := r.endpoint.zones.map r.entry
def rulesFile (rules : List (ResolvRule U)) : List ResolvEntry := rules.flatMap ResolvRule.formatForComponent

/-- A compiled expression; two of them are equal when their texts are. -/
structure Pattern where
  text : Str
  compiles : (compile text).isSome = true
deriving DecidableEq

def Pattern.isMatch (U : Unicode) (p : Pattern) (s : Str) : Bool :=
  ((compile p.text).get p.compiles).matchStart ⟨U,false⟩ s

structure Spec (U : Unicode) where
  text : Str
  endpoint : Endpoint U
  reads : Endpoint.fromRepr U ("* ^ " ++ text) none = .ok endpoint

def invalidQuery (query : Str) : Exc := .prog ("invalid query part '" ++ query ++ "'")

def readQuery : Option Str → Except Exc Pattern
  | none => .error (invalidQuery "None")
  | some query =>
    match query.getLast? with
    | none => .error .index
    | some c =>
      if c ≠ '.' then .error (invalidQuery query)
      else if h : (compile (domainToRegex query)).isSome = true then .ok ⟨domainToRegex query,h⟩
      else .error .regex

def readSpec (U : Unicode) (spec : Str) : Except Exc (Spec U) :=
  match h : Endpoint.fromRepr U ("* ^ " ++ spec) none with
  | .error e => .error e
  | .ok e => .ok ⟨spec,e,h⟩

def readRestriction (U : Unicode) (query : Option Str) (spec : Str) : Except Exc (Pattern × Spec U) := do
  let spec ← readSpec U spec
  return (← readQuery query,spec)

abbrev Restrictions (U : Unicode) := Dict Pattern (List (Spec U))

def ResolvEntry.restriction (U : Unicode) (entry : ResolvEntry) : Option (Pattern × Spec U) :=
  match entry.action, entry.spec with
  | .allow, some (c :: spec) =>
    match readRestriction U entry.query (c :: spec) with
    | .error _ => none
    | .ok r => some r
  | _, _ => none

def loadRestriction (rules : Restrictions U) (entry : ResolvEntry) : Restrictions U :=
  match entry.restriction U with
  | none => rules
  | some (query,spec) => rules.addTo query spec

def loadRestrictions (U : Unicode) (entries : List ResolvEntry) : Restrictions U := entries.foldl loadRestriction .empty

theorem loadRestrictions_eq (entries : List ResolvEntry) :
    loadRestrictions U entries = .group (entries.filterMap (ResolvEntry.restriction U)) := by
  rw [Dict.group,foldl_filterMap]
  unfold loadRestrictions
  congr 1
  funext rules entry
  unfold loadRestriction
  cases entry.restriction U <;> rfl

theorem rdropWhile_caret (z s : Str) : (z ++ '^' :: s).rdropWhile isSpace = z ++ '^' :: s.rdropWhile isSpace := by
  have hm : ('^' :: z.reverse).dropWhile isSpace = '^' :: z.reverse := dropWhile_cons_of_neg (by decide)
  rw [rdropWhile,rdropWhile,reverse_append,reverse_cons,append_assoc,singleton_append,
    dropWhile_append,hm]
  split
  · rename_i he
    rw [isEmpty_iff.1 he]
    simp
  · simp

variable {c : Char} {s text z : Str} {e : Endpoint U} {items : List Str}

theorem strip_caret (hc : isSpace c = false) (s : Str) :
    strip (c :: z ++ '^' :: s) = c :: z ++ '^' :: s.rdropWhile isSpace := by
  have hfirst : (c :: z ++ '^' :: s).dropWhile isSpace = c :: z ++ '^' :: s := dropWhile_cons_of_neg (by simp [hc])
  rw [strip,hfirst,rdropWhile_caret]

theorem fromRepr_caret (hc : isSpace c = false) (hca : '^' ∉ c :: z) (s : Str) :
    fromRepr U (c :: z ++ '^' :: s) none =
      ofRepr U (c :: z ++ '^' :: s.rdropWhile isSpace) ((c :: z) :: (s.rdropWhile isSpace).splitOn '^') none := by
  have hp : (c :: z ++ '^' :: s.rdropWhile isSpace).splitOn '^' = (c :: z) :: (s.rdropWhile isSpace).splitOn '^' := by
    rw [splitOn_append_cons_self,splitOn_eq_singleton hca]
    rfl
  rw [fromRepr, strip_caret hc, if_neg (by simp), hp]

theorem new_of_parts {protocols ports : Option Str} {ps : List Protocol} {i : Option Iface} {zs : List (Zone U)}
    {qs : List Port} {rs : List (PortRange U)} (hps : analyseProtocolSpec protocols = .ok ps)
    (hzs : readZones U none ((z.splitOn ',').map strip) = .ok (i,zs)) (hqs : analysePortSpec U ports = .ok (qs,rs)) :
    new U (some z) protocols ports = .ok (.ofParts zs i ps qs rs) := by
  rw [← map_strip_splitOn] at hzs
  exact bind_eq_ok.2 ⟨_,hps,bind_eq_ok.2 ⟨_,hzs,bind_eq_ok.2 ⟨_,hqs,rfl⟩⟩⟩

theorem services_ofParts (zs : List (Zone U)) (i : Option Iface) (ps : List Protocol) (qs : List Port)
    (rs : List (PortRange U)) :
    (ofParts zs i ps qs rs).protocols = ps ∧ (ofParts zs i ps qs rs).ports = qs ∧
      (ofParts zs i ps qs rs).portRanges = rs := by
  unfold ofParts
  split <;> exact ⟨rfl,rfl,rfl⟩

theorem Spec.fromRepr_zone (spec : Spec U) (hc : isSpace c = false) (hca : '^' ∉ c :: z) {i : Option Iface}
    {zs : List (Zone U)} (hzs : readZones U none (((c :: z).splitOn ',').map strip) = .ok (i,zs)) :
    fromRepr U (c :: z ++ '^' :: ' ' :: spec.text) none =
      .ok (.ofParts zs i spec.endpoint.protocols spec.endpoint.ports spec.endpoint.portRanges) := by
  have hre : fromRepr U ('*' :: [' '] ++ '^' :: ' ' :: spec.text) none = .ok spec.endpoint := spec.reads
  rw [fromRepr_caret (by decide) (by decide)] at hre
  have hn : ∀ protocols ports, new U (some ('*' :: [' '])) protocols ports = .ok spec.endpoint →
      new U (some (c :: z)) protocols ports =
        .ok (.ofParts zs i spec.endpoint.protocols spec.endpoint.ports spec.endpoint.portRanges) := by
    intro protocols ports h
    obtain ⟨ps,_,_,qs,rs,hps,_,hqs,he⟩ := new_cases h
    obtain ⟨hp,hq,hr⟩ := services_ofParts _ _ ps qs rs
    rw [he,hp,hq,hr]
    exact new_of_parts hps hzs hqs
  rw [fromRepr_caret hc hca]
  generalize ((' ' :: spec.text).rdropWhile isSpace).splitOn '^' = parts at hre ⊢
  rcases parts with _ | ⟨p,_ | ⟨q,_ | ⟨x,rest⟩⟩⟩
  · exact hn _ _ hre
  · exact hn _ _ hre
  · exact hn _ _ hre
  · cases hre

structure SameServices (e e' : Endpoint U) : Prop where
  protocols : e.protocols = e'.protocols
  ports : e.ports = e'.ports
  ranges : e.portRanges.map (fun r => (r.first,r.last)) = e'.portRanges.map fun r => (r.first,r.last)

theorem SameServices.namesPorts {e' : Endpoint U} (h : SameServices e e') : e.NamesPorts ↔ e'.NamesPorts := by
  have hr : e.portRanges = [] ↔ e'.portRanges = [] := by
    rw [← map_eq_nil_iff,h.ranges,map_eq_nil_iff]
  rw [Endpoint.NamesPorts,Endpoint.NamesPorts,h.ports,ne_eq,ne_eq,hr]

theorem SameServices.mem_portsMap {e' : Endpoint U} (h : SameServices e e') {k : ℕ} :
    k ∈ e.portsMap ↔ k ∈ e'.portsMap := by
  have hr : ∀ a : Endpoint U, (∃ r ∈ a.portRanges, r.first.val ≤ k ∧ k ≤ r.last.val) ↔
      ∃ x ∈ a.portRanges.map (fun r => (r.first,r.last)), x.1.val ≤ k ∧ k ≤ x.2.val := by
    simp
  by_cases hn : e.NamesPorts
  · rw [mem_portsMap_of_names hn,mem_portsMap_of_names (h.namesPorts.1 hn),h.ports,hr,hr,
      h.ranges]
  · rw [portsMap_of_none hn,portsMap_of_none (mt h.namesPorts.2 hn)]

theorem strip_rdropWhile (s : Str) : strip (s.rdropWhile isSpace) = strip s := by
  conv_rhs => rw [← rdropWhile_append_rtakeWhile (p := isSpace) (l := s)]
  exact (strip_append_right fun _ hc => mem_rtakeWhile_imp hc).symm

theorem itemsOf_intercalate (hne : items ≠ []) (hc : ∀ i ∈ items, ',' ∉ i) :
    itemsOf ([','].intercalate items) = items.map strip := by
  rw [itemsOf,map_strip_splitOn,splitOn_intercalate ',' hc hne]

theorem readProtocols_texts (ps : List Protocol) : readProtocols ((ps.map Protocol.text).map strip) = .ok ps := by
  induction ps with
  | nil => rfl
  | cons p ps ih =>
    have hr : readProtocol (strip p.text) = some p ∧ strip p.text ≠ [] := by cases p <;> decide
    rw [map_cons,map_cons,readProtocols,if_neg hr.2,hr.1]
    exact bind_eq_ok.2 ⟨ps,ih,rfl⟩

theorem int_congr {t : Str} (h : strip s = strip t) : int U s = int U t := by
  rw [int,int,h]

theorem readRange_strip (s : Str) : readRange U (strip s) = readRange U s := by
  have hi := map_strip_splitOn_of (c := '-') (by decide) s
  unfold readRange
  generalize (strip s).splitOn '-' = xs at hi ⊢
  generalize s.splitOn '-' = ys at hi ⊢
  have hl : xs.length = ys.length := by simpa using congrArg length hi
  rcases xs with _ | ⟨a,_ | ⟨b,_ | ⟨x,xs⟩⟩⟩
  · rw [length_eq_zero_iff.1 hl.symm]
  · obtain ⟨a',rfl⟩ := length_eq_one_iff.1 hl.symm
    rfl
  · obtain ⟨a',b',rfl⟩ := length_eq_two.1 hl.symm
    simp only [map_cons,map_nil,cons.injEq,and_true] at hi
    simp only [int_congr hi.1,int_congr hi.2]
  · rcases ys with _ | ⟨a',_ | ⟨b',_ | ⟨x',ys⟩⟩⟩
    · cases hl
    · cases hl
    · cases hl
    · rfl

theorem not_mem_digits (hc : c.isDigit = false) (n : ℕ) : c ∉ Nat.toDigits 10 n := by
  intro h
  rw [digits_solid n c h] at hc
  cases hc

theorem readPortItem_digits (hU : U.Lawful) (p : Port) :
    readPortItem U (strip (Nat.toDigits 10 p.val)) = .ok (.inl p) := by
  have hd : contains ['-'] (Nat.toDigits 10 p.val) = false :=
    Bool.eq_false_iff.2 (mt contains_singleton.1 (not_mem_digits (by decide) p.val))
  have hi : int U (Nat.toDigits 10 p.val) = some (p.val : ℤ) := int_of_parseUnsigned hU (parseUnsigned_toDigits le_rfl)
  rw [strip_digits, readPortItem, if_neg (by simp [hd])]
  simp only [hi,dif_pos p.valid,Int.toNat_natCast]

theorem exists_split_range (r : PortRange U) :
    ∃ a b, r.text.splitOn '-' = [a,b] ∧ (int U a).isSome = true ∧ (int U b).isSome = true := by
  have hr := r.reads
  unfold readRange at hr
  split at hr
  · rename_i a b hsplit
    obtain ⟨p,hp,hr⟩ := bind_eq_some_iff.1 hr
    obtain ⟨q,hq,_⟩ := bind_eq_some_iff.1 hr
    exact ⟨a,b,hsplit,by rw [hp]; rfl,by rw [hq]; rfl⟩
  · cases hr

theorem dash_mem_range (r : PortRange U) : '-' ∈ r.text := by
  obtain ⟨a,b,hsplit,_,_⟩ := exists_split_range r
  rw [eq_of_splitOn_pair hsplit]
  simp

theorem mem_strip (hc : isSpace c = false) : c ∈ strip s ↔ c ∈ s := by
  obtain ⟨u,v,hs,hu,hv⟩ := exists_strip s
  have hnot : ∀ w : Str, (∀ x ∈ w, isSpace x = true) → c ∉ w := by
    intro w hw hmem
    rw [hw c hmem] at hc
    cases hc
  conv_rhs => rw [hs,mem_append,mem_append]
  have hu' := hnot u hu
  have hv' := hnot v hv
  tauto

theorem readPortItem_range (r : PortRange U) :
    ∃ r' : PortRange U, readPortItem U (strip r.text) = .ok (.inr r') ∧ r'.first = r.first ∧ r'.last = r.last := by
  have hr : readRange U (strip r.text) = some (r.first,r.last) := (readRange_strip _).trans r.reads
  have hd : contains ['-'] (strip r.text) = true :=
    contains_singleton.2 ((mem_strip (by decide)).2 (dash_mem_range r))
  refine ⟨⟨strip r.text,r.first,r.last,hr,r.lt⟩,?_,rfl,rfl⟩
  rw [readPortItem,if_pos hd]
  split
  · rename_i hnone
    rw [hr] at hnone
    cases hnone
  · rename_i p q hs
    obtain ⟨rfl,rfl⟩ := Prod.mk.inj (Option.some.inj (hr.symm.trans hs))
    exact dif_pos r.lt

theorem readPorts_ranges (rs : List (PortRange U)) : ∃ rs' : List (PortRange U),
    readPorts U ((rs.map PortRange.text).map strip) = .ok ([],rs') ∧
      rs'.map (fun r => (r.first,r.last)) = rs.map fun r => (r.first,r.last) := by
  induction rs with
  | nil => exact ⟨[],rfl,rfl⟩
  | cons r rs ih =>
    obtain ⟨rs',hr,hs⟩ := ih
    obtain ⟨r',hr',hfirst,hl⟩ := readPortItem_range r
    refine ⟨r' :: rs',?_,by rw [map_cons,map_cons,hs,hfirst,hl]⟩
    rw [map_cons,map_cons,readPorts,hr']
    exact bind_eq_ok.2 ⟨_,rfl,bind_eq_ok.2 ⟨_,hr,rfl⟩⟩

theorem readPorts_portTexts (hU : U.Lawful) (e : Endpoint U) : ∃ rs' : List (PortRange U),
    readPorts U (e.portTexts.map strip) = .ok (e.ports,rs') ∧
      rs'.map (fun r => (r.first,r.last)) = e.portRanges.map fun r => (r.first,r.last) := by
  obtain ⟨rs',hr,hs⟩ := readPorts_ranges e.portRanges
  refine ⟨rs',?_,hs⟩
  rw [portTexts,map_append]
  induction e.ports with
  | nil => exact hr
  | cons p ps ih =>
    rw [map_cons,map_cons,cons_append,readPorts,readPortItem_digits hU]
    exact bind_eq_ok.2 ⟨_,rfl,bind_eq_ok.2 ⟨_,ih,rfl⟩⟩

theorem chars_of_intDigits {acc n : ℕ} {ready : Bool} (h : intDigits U acc ready s = some n) :
    ∀ c ∈ s, c = '_' ∨ (U.decimal c).isSome = true := by
  induction s generalizing acc ready with
  | nil => nofun
  | cons c s ih =>
    rw [intDigits] at h
    split at h
    · rename_i hc
      split at h
      · exact forall_mem_cons.2 ⟨Or.inl hc,ih h⟩
      · cases h
    · split at h
      · rename_i d hd
        exact forall_mem_cons.2 ⟨Or.inr (by rw [hd]; rfl),ih h⟩
      · cases h

def Separates (c : Char) : Prop :=
  c.toNat < 128 ∧ c.isAlphanum = false ∧ isSpace c = false ∧ c ≠ '_' ∧ c ≠ '+' ∧ c ≠ '-'

instance (c : Char) : Decidable (Separates c) := inferInstanceAs (Decidable (_ ∧ _))

theorem Separates.not_mem_of_int (hc : Separates c) (hU : U.Lawful) (h : (int U s).isSome = true) : c ∉ s := by
  obtain ⟨hasc,ha,hs,hu,hp,hm⟩ := hc
  have hde : ¬ (U.decimal c).isSome = true := by
    intro hd
    have hle := hU.alnum_of_decimal c hd
    rw [hU.alnum_ascii c hasc,ha] at hle
    cases hle
  have hdi : ∀ t (f : ℤ → ℤ) m,
      ((do let a ← intDigits U 0 false t; pure (a : ℤ)) : Option ℤ).map f = some m → c ∉ t := by
    intro t f m ht hmem
    obtain ⟨k,hk,_⟩ := map_eq_some_iff.1 ht
    obtain ⟨l,hl,_⟩ := bind_eq_some_iff.1 hk
    exact (chars_of_intDigits hl c hmem).elim hu hde
  rw [← mem_strip hs]
  obtain ⟨n,hn⟩ := isSome_iff_exists.1 h
  unfold int at hn
  split at hn
  · rename_i t ht
    rw [ht,mem_cons,not_or]
    exact ⟨hm,hdi t _ n hn⟩
  · rename_i t ht
    rw [ht,mem_cons,not_or]
    exact ⟨hp,hdi t _ n hn⟩
  · exact hdi _ _ n hn

theorem Separates.not_mem_portTexts (hc : Separates c) (hU : U.Lawful) (e : Endpoint U) : ∀ t ∈ e.portTexts, c ∉ t := by
  intro t ht
  rcases mem_append.1 ht with ht | ht
  · obtain ⟨p,_,rfl⟩ := mem_map.1 ht
    refine not_mem_digits ?_ p.val
    have hal := hc.2.1
    rw [Char.isAlphanum,Bool.or_eq_false_iff] at hal
    exact hal.2
  · obtain ⟨r,_,rfl⟩ := mem_map.1 ht
    obtain ⟨a,b,hsplit,ha,hb⟩ := exists_split_range r
    rw [eq_of_splitOn_pair hsplit,mem_append,mem_cons]
    rintro (hmem | rfl | hmem)
    · exact hc.not_mem_of_int hU ha hmem
    · exact hc.2.2.2.2.2 rfl
    · exact hc.not_mem_of_int hU hb hmem

theorem not_mem_protocolTexts (hc : Separates c) (ps : List Protocol) : ∀ t ∈ ps.map Protocol.text, c ∉ t := by
  intro t ht hmem
  obtain ⟨p,_,rfl⟩ := mem_map.1 ht
  have hal : p.text.all Char.isAlphanum = true := by cases p <;> decide
  have ha := hc.2.1
  rw [all_eq_true.1 hal c hmem] at ha
  cases ha

theorem itemsOf_cons_space (s : Str) : itemsOf (' ' :: s) = itemsOf s := by
  have hs : strip (' ' :: s) = strip s := strip_append_left (u := [' ']) fun c hc => by
    rw [mem_singleton.1 hc]
    decide
  rw [itemsOf,hs,itemsOf]

theorem itemsOf_rdropWhile (s : Str) : itemsOf (s.rdropWhile isSpace) = itemsOf s := by
  rw [itemsOf,strip_rdropWhile,itemsOf]

theorem not_mem_intercalate (hc : c ≠ ',') (h : ∀ t ∈ items, c ∉ t) : c ∉ [','].intercalate items := by
  intro hmem
  rcases mem_of_mem_intercalate hmem with hmem | ⟨t,ht,hmem⟩
  · exact hc (mem_singleton.1 hmem)
  · exact h t ht hmem

/-- What the firewall reads in a specification with one part or with two. -/
theorem fromRepr_spec {pr : Str} (hpr : '^' ∉ pr) {ps : List Protocol} (hps : readProtocols (itemsOf pr) = .ok ps) :
    (∃ e : Endpoint U, fromRepr U ("* ^ " ++ pr) none = .ok e ∧ e.protocols = ps ∧ e.ports = [] ∧ e.portRanges = []) ∧
      ∀ pp : Str, '^' ∉ pp → ∀ qs rs, readPorts U (itemsOf pp) = .ok (qs,rs) →
        ∃ e : Endpoint U, fromRepr U ("* ^ " ++ (pr ++ '^' :: pp)) none = .ok e ∧ e.protocols = ps ∧ e.ports = qs ∧
          e.portRanges = rs := by
  have hzones : readZones U none ((['*',' '].splitOn ',').map strip) = .ok (none,[.all]) := rfl
  have hs : '^' ∉ ' ' :: pr := by simp [hpr]
  have hd : ∀ {t : Str}, '^' ∉ t → '^' ∉ t.rdropWhile isSpace := fun h hmem => h (( rdropWhile_prefix _ _).subset hmem)
  constructor
  · refine ⟨_,?_,services_ofParts [.all] none ps [] []⟩
    change fromRepr U ('*' :: [' '] ++ '^' :: ' ' :: pr) none = _
    rw [fromRepr_caret (by decide) (by decide), splitOn_eq_singleton (hd hs)]
    refine new_of_parts ?_ hzones rfl
    rw [analyseProtocolSpec,itemsOf_rdropWhile,itemsOf_cons_space,hps]
  · intro pp hpp qs rs hp
    refine ⟨_,?_,services_ofParts [.all] none ps qs rs⟩
    change fromRepr U ('*' :: [' '] ++ '^' :: ((' ' :: pr) ++ '^' :: pp)) none = _
    rw [fromRepr_caret (by decide) (by decide), rdropWhile_caret, splitOn_append_cons_self, splitOn_eq_singleton hs,
      splitOn_eq_singleton (hd hpp)]
    refine new_of_parts ?_ hzones ?_
    · rw [analyseProtocolSpec,itemsOf_cons_space,hps]
    · rw [analysePortSpec,itemsOf_rdropWhile,hp]

theorem readSpec_of_fromRepr (h : fromRepr U ("* ^ " ++ text) none = .ok e) :
    readSpec U text = .ok ⟨text,e,h⟩ := by
  unfold readSpec
  split
  · rename_i heq
    rw [h] at heq
    cases heq
  · rename_i e' heq
    obtain rfl : e = e' := Except.ok.inj (h.symm.trans heq)
    rfl

theorem readSpec_specOf (hU : U.Lawful) (hp : e.protocols ≠ []) :
    ∃ text spec, specOf e = some text ∧ readSpec U text = .ok spec ∧ SameServices spec.endpoint e := by
  have hpr : '^' ∉ [','].intercalate (e.protocols.map Protocol.text) :=
    not_mem_intercalate (by decide) (not_mem_protocolTexts (by decide) e.protocols)
  have hps : readProtocols (itemsOf ([','].intercalate (e.protocols.map Protocol.text))) = .ok e.protocols := by
    rw [itemsOf_intercalate (by simpa using hp) (not_mem_protocolTexts (by decide) e.protocols), readProtocols_texts]
  obtain ⟨⟨e₁,he₁,hp₁,hq₁,hr₁⟩,ht⟩ := fromRepr_spec (U := U) hpr hps
  unfold specOf protocolsAsString portsAsString
  rw [if_neg hp]
  by_cases hnone : e.portTexts = []
  · rw [if_pos hnone]
    obtain ⟨hpo,hra⟩ := append_eq_nil_iff.1 hnone
    refine ⟨_,_,rfl,readSpec_of_fromRepr he₁,hp₁,?_,?_⟩
    · rw [hq₁,map_eq_nil_iff.1 hpo]
    · rw [hr₁,map_eq_nil_iff.1 hra]
  · rw [if_neg hnone]
    obtain ⟨rs,hr,hs⟩ := readPorts_portTexts hU e
    rw [← itemsOf_intercalate hnone (Separates.not_mem_portTexts (by decide) hU e)] at hr
    have hpp : '^' ∉ [','].intercalate e.portTexts :=
      not_mem_intercalate (by decide) (Separates.not_mem_portTexts (by decide) hU e)
    obtain ⟨e₂,he₂,hp₂,hq₂,hr₂⟩ := ht _ hpp _ _ hr
    exact ⟨_,_,rfl,readSpec_of_fromRepr he₂,hp₂,hq₂,hr₂ ▸ hs⟩

theorem text_of_readProtocol {t : Str} {p : Protocol} (h : readProtocol t = some p) : t = p.text := by
  unfold readProtocol at h
  split at h
  · cases h
    assumption
  · split at h
    · cases h
      assumption
    · split at h
      · cases h
        assumption
      · cases h

theorem not_alpha_of_digit (h : c.isDigit = true) : c.isAlpha = false := by
  have hc : ∀ k : Fin 128, (Char.ofNat k.val).isDigit = true → (Char.ofNat k.val).isAlpha = false := by decide
  exact forall_ascii (p := fun c => c.isDigit = true → c.isAlpha = false) hc
    (toNat_lt_of_isAlphanum (by simp [Char.isAlphanum,h])) h

theorem exists_no_letter {t : Str} (ht : t ∈ e.portTexts) : ∃ c ∈ strip t, c.isAlpha = false := by
  rcases mem_append.1 ht with ht | ht
  · obtain ⟨p,_,rfl⟩ := mem_map.1 ht
    obtain ⟨c,hc⟩ := exists_mem_of_ne_nil _ (Nat.toDigits_ne_nil (n := p.val) (b := 10))
    rw [strip_digits]
    exact ⟨c,hc,not_alpha_of_digit (digits_solid _ c hc)⟩
  · obtain ⟨r,_,rfl⟩ := mem_map.1 ht
    exact ⟨'-',(mem_strip (by decide)).2 (dash_mem_range r),by decide⟩

/-- Ports without a protocol are written in its place, where they are not read. -/
theorem readSpec_of_no_protocol (hU : U.Lawful) (hp : e.protocols = []) (h : specOf e = some text) :
    ∃ x, readSpec U text = .error x := by
  have ht : portsAsString e = some text := by rwa [specOf, protocolsAsString, if_pos hp] at h
  unfold portsAsString at ht
  split at ht
  · cases ht
  · rename_i hne
    cases ht
    have hca : '^' ∉ ' ' :: [','].intercalate e.portTexts := not_mem_cons_of_ne_of_not_mem (by decide)
      (not_mem_intercalate (by decide) (Separates.not_mem_portTexts (by decide) hU e))
    have hr : ∀ e' : Endpoint U, fromRepr U ("* ^ " ++ [','].intercalate e.portTexts) none ≠ .ok e' := by
      intro e' he'
      change fromRepr U ('*' :: [' '] ++ '^' :: ' ' :: [','].intercalate e.portTexts) none = _ at he'
      rw [fromRepr_caret (by decide) (by decide),
        splitOn_eq_singleton fun hmem => hca (( rdropWhile_prefix _ _).subset hmem)] at he'
      obtain ⟨ps,_,_,_,_,hps,_,_,_⟩ := new_cases he'
      rw [analyseProtocolSpec, itemsOf_rdropWhile, itemsOf_cons_space,
        itemsOf_intercalate hne (Separates.not_mem_portTexts (by decide) hU e)] at hps
      obtain ⟨t,ts,hts⟩ := exists_cons_of_ne_nil hne
      obtain ⟨c,hc,hl⟩ := exists_no_letter (hts ▸ mem_cons_self : t ∈ e.portTexts)
      rw [hts,map_cons,readProtocols,if_neg (ne_nil_of_mem hc)] at hps
      split at hps
      · cases hps
      · rename_i p hre
        have ha : p.text.all Char.isAlpha = true := by cases p <;> decide
        rw [text_of_readProtocol hre] at hc
        rw [all_eq_true.1 ha c hc] at hl
        cases hl
    unfold readSpec
    split
    · exact ⟨_,rfl⟩
    · rename_i e' heq
      exact absurd heq (hr e')

theorem intercalate_ne_nil (hne : items ≠ []) (h : ∀ t ∈ items, t ≠ []) : [','].intercalate items ≠ [] := by
  obtain ⟨t,ht⟩ := exists_mem_of_ne_nil _ hne
  obtain ⟨c,hc⟩ := exists_mem_of_ne_nil _ (h t ht)
  exact ne_nil_of_mem (mem_intercalate ht hc)

theorem specOf_ne_nil (h : specOf e = some text) : text ≠ [] := by
  have hp : ∀ pr, protocolsAsString e = some pr → pr ≠ [] := by
    intro pr hpr
    unfold protocolsAsString at hpr
    split at hpr
    · cases hpr
    · rename_i hne
      cases hpr
      refine intercalate_ne_nil (by simpa using hne) fun t ht => ?_
      obtain ⟨p,_,rfl⟩ := mem_map.1 ht
      cases p <;> decide
  have hpo : ∀ pp, portsAsString e = some pp → pp ≠ [] := by
    intro pp hpp
    unfold portsAsString at hpp
    split at hpp
    · cases hpp
    · rename_i hne
      cases hpp
      refine intercalate_ne_nil hne ?_
      rintro t ht rfl
      obtain ⟨c,hc,_⟩ := exists_no_letter ht
      cases hc
  unfold specOf at h
  cases hpr : protocolsAsString e with
  | none =>
    rw [hpr] at h
    exact hpo text h
  | some pr =>
    cases hpp : portsAsString e with
    | none =>
      rw [hpr,hpp] at h
      cases h
      exact hp _ hpr
    | some pp =>
      rw [hpr,hpp] at h
      cases h
      simp

end Padsi.Dns
