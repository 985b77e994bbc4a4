import Padsi.Net.EndPoint
import Padsi.Net.Inclusion

/-! # The connections of an endpoint

Containment is meant to be inclusion of sets of connections. It is, when each pattern on
the right has a pattern on the left that covers it.
-/
namespace Padsi.Net
open Rust Text List UInt16 Pattern PortSpec

inductive Destination where
  | address (x : Ipv4Addr)
  | name (n : Name)

structure Connection where
  interface : NetworkInterface
  protocol : Protocol
  port : UInt16
  destination : Destination

variable {E : Externals}

def Zone.Denotes : Zone E → Destination → Prop
  | .all, _ => True
  | .name n, .name m => m = n
  | .pattern P, .name m => P.Matches m.text
  | .network n, .address x => n.Mem x
  | _, _ => False

def EndPoint.Channel (e : EndPoint E) (i : NetworkInterface) (p : Protocol) (q : UInt16) : Prop :=
  (e.interfaces = [] ∨ i ∈ e.interfaces) ∧ (e.protocols = [] ∨ p ∈ e.protocols) ∧
    (e.ports = [] ∨ ∃ s ∈ e.ports, s.contains q = true)

def EndPoint.Denotes (e : EndPoint E) (c : Connection) : Prop :=
  e.Channel c.interface c.protocol c.port ∧ ∃ z ∈ e.zones, z.Denotes c.destination

theorem PortSpec.mem_items_range {a b x q : UInt16} (pos : 0 < a) (lt : a < b) (hx : x ≤ b) (fuel : ℕ)
    (hf : b.toNat - x.toNat ≤ fuel) : q ∈ (range a b pos lt).items fuel (some x) ↔ x < q ∧ q ≤ b := by
  induction fuel generalizing x with
  | zero =>
    simp only [items,not_mem_nil,false_iff]
    rw [le_iff_toNat_le] at hx
    simp only [lt_iff_toNat_lt,le_iff_toNat_le]
    omega
  | succ fuel ih =>
    rw [le_iff_toNat_le] at hx
    by_cases hxb : x = b
    · subst hxb
      simp only [items,next,reduceIte,not_mem_nil,false_iff,lt_iff_toNat_lt,le_iff_toNat_le]
      omega
    · have hne : x.toNat ≠ b.toNat := fun h => hxb (UInt16.toNat_inj.1 h)
      have hb := b.toNat_lt
      have hs : (x + 1).toNat = x.toNat + 1 := by
        rw [UInt16.toNat_add]
        exact Nat.mod_eq_of_lt (by change x.toNat + 1 < _; omega)
      have hn : (range a b pos lt).items (fuel + 1) (some x) =
          (x + 1) :: (range a b pos lt).items fuel (some (x + 1)) := by
        simp only [items,next,if_neg hxb]
      rw [hn, mem_cons, ih (by rw [le_iff_toNat_le]; omega) (by omega)]
      simp only [← UInt16.toNat_inj,UInt16.lt_iff_toNat_lt,UInt16.le_iff_toNat_le,hs]
      omega

theorem PortSpec.mem_iter {s : PortSpec} {q : UInt16} : q ∈ s.iter ↔ s.contains q = true := by
  cases s with
  | port p =>
    have hi : (port p).iter = [p] := rfl
    rw [hi,mem_singleton,contains,beq_iff_eq,eq_comm]
  | range a b pos lt =>
    have hb := b.toNat_lt
    have hi : (range a b pos lt).iter = a :: (range a b pos lt).items 65535 (some a) := rfl
    have hle : a ≤ b := UInt16.le_of_lt lt
    rw [hi, mem_cons, mem_items_range pos lt hle 65535 (by omega)]
    simp only [contains,Bool.and_eq_true,decide_eq_true_eq]
    rw [le_iff_toNat_le] at hle
    simp only [← UInt16.toNat_inj,UInt16.lt_iff_toNat_lt,UInt16.le_iff_toNat_le]
    omega

theorem PortSpec.exists_contains (s : PortSpec) : ∃ q, s.contains q = true := by
  cases s with
  | port p => exact ⟨p,by simp [contains]⟩
  | range a b pos lt => exact ⟨a,by simpa [contains] using UInt16.le_of_lt lt⟩

theorem EndPoint.exists_channel (e : EndPoint E) : ∃ i p q, e.Channel i p q := by
  have hi : ∃ i, e.interfaces = [] ∨ i ∈ e.interfaces := by
    cases e.interfaces with
    | nil => exact ⟨⟨['a'],by decide,by decide⟩,.inl rfl⟩
    | cons i is => exact ⟨i,.inr mem_cons_self⟩
  have hp : ∃ p, e.protocols = [] ∨ p ∈ e.protocols := by
    cases e.protocols with
    | nil => exact ⟨.tcp,.inl rfl⟩
    | cons p ps => exact ⟨p,.inr mem_cons_self⟩
  have hq : ∃ q, e.ports = [] ∨ ∃ s ∈ e.ports, s.contains q = true := by
    cases e.ports with
    | nil => exact ⟨0,.inl rfl⟩
    | cons s ss =>
      obtain ⟨q,hq⟩ := s.exists_contains
      exact ⟨q,.inr ⟨s,mem_cons_self,hq⟩⟩
  obtain ⟨i,hi⟩ := hi
  obtain ⟨p,hp⟩ := hp
  obtain ⟨q,hq⟩ := hq
  exact ⟨i,p,q,hi,hp,hq⟩

theorem EndPoint.admits_iff {α β : Type} {self : List α} {other : List β} {test : β → Bool} :
    admits self other test = true ↔ self = [] ∨ (other ≠ [] ∧ ∀ x ∈ other, test x = true) := by
  simp [admits]

theorem EndPoint.contains_iff {e o : EndPoint E} : e.contains o = .ok true ↔
    admits e.interfaces o.interfaces (fun i => decide (i ∈ e.interfaces)) = true ∧
      admits e.protocols o.protocols (fun p => decide (p ∈ e.protocols)) = true ∧
      admits e.ports o.ports (fun o => o.iter.all fun p => e.ports.any (PortSpec.contains · p)) = true ∧
      (.all ∈ e.zones ∨ allContained e.zones o.zones = .ok true) := by
  unfold contains
  split
  · simp_all
  · split
    · simp_all
    · split
      · simp_all
      · split
        · simp_all
        · simp_all

theorem EndPoint.contains_eq_true {e o : EndPoint E} (h : e.contains o = .ok true) :
    (∀ i p q, o.Channel i p q → e.Channel i p q) ∧
      (.all ∈ e.zones ∨ allContained e.zones o.zones = .ok true) := by
  obtain ⟨hi,hp,hq,hz⟩ := contains_iff.1 h
  refine ⟨?_,hz⟩
  rintro i p q ⟨hoi,hop,hoq⟩
  refine ⟨?_,?_,?_⟩
  · rcases admits_iff.1 hi with hnone | ⟨hne,ha⟩
    · exact .inl hnone
    · exact .inr (of_decide_eq_true (ha i (hoi.resolve_left hne)))
  · rcases admits_iff.1 hp with hnone | ⟨hne,ha⟩
    · exact .inl hnone
    · exact .inr (of_decide_eq_true (ha p (hop.resolve_left hne)))
  · rcases admits_iff.1 hq with hnone | ⟨hne,ha⟩
    · exact .inl hnone
    · obtain ⟨s,hs,hsq⟩ := hoq.resolve_left hne
      have hpo := all_eq_true.1 (ha s hs) q (mem_iter.2 hsq)
      exact .inr (any_eq_true.1 hpo)

theorem EndPoint.exists_of_someContains {o : Zone E} {ss : List (Zone E)} (h : someContains o ss = .ok true) :
    ∃ s ∈ ss, s.contains o = .ok (some true) := by
  induction ss with
  | nil => cases h
  | cons s ss ih =>
    obtain ⟨b,hb,h⟩ := bind_eq_ok.1 h
    split at h
    · rename_i hs
      exact ⟨s,mem_cons_self,by rw [hb,hs]⟩
    · obtain ⟨t,ht,hto⟩ := ih h
      exact ⟨t,mem_cons_of_mem _ ht,hto⟩

theorem EndPoint.someContains_of_allContained {ss os : List (Zone E)} (h : allContained ss os = .ok true) {o : Zone E}
    (ho : o ∈ os) (hne : o ≠ .all) : someContains o ss = .ok true := by
  induction os with
  | nil => cases ho
  | cons o' os ih =>
    unfold allContained at h
    split at h
    · rename_i ha
      rcases mem_cons.1 ho with rfl | ho
      · exact absurd ha hne
      · exact ih h ho
    · obtain ⟨b,hb,h⟩ := bind_eq_ok.1 h
      cases b with
      | false => cases h
      | true =>
        rcases mem_cons.1 ho with rfl | ho
        · exact hb
        · exact ih h ho

/-- No pattern of the endpoint makes the test slice inside a character. -/
def EndPoint.Sliceable (e : EndPoint E) : Prop := ∀ P, .pattern P ∈ e.zones → Pattern.sliceable P.pattern = true

theorem Zone.returns_contains {s o : Zone E} (h : ∀ Q, o = .pattern Q → sliceable Q.pattern = true) :
    Returns (s.contains o) := by
  have hs : ∀ {b : Partial Bool}, Returns b → Returns (do return some (← b) : Partial (Option Bool)) := by
    rintro b ⟨x,rfl⟩
    exact ⟨some x,rfl⟩
  cases s with
  | all => exact ⟨_,rfl⟩
  | name n => cases o <;> exact ⟨_,rfl⟩
  | network n => cases o <;> exact ⟨_,rfl⟩
  | pattern P =>
    cases o with
    | all => exact ⟨_,rfl⟩
    | network n => exact ⟨_,rfl⟩
    | pattern Q => exact hs (returns_nameContains (h Q rfl))
    | name n =>
      apply hs
      change Returns (P.nameContains n.text)
      rw [nameContains_of_name n.starless]
      split <;> exact ⟨_,rfl⟩

theorem EndPoint.returns_someContains {o : Zone E} (h : ∀ Q, o = .pattern Q → sliceable Q.pattern = true)
    (ss : List (Zone E)) : Returns (someContains o ss) := by
  induction ss with
  | nil => exact ⟨_,rfl⟩
  | cons s ss ih =>
    obtain ⟨b,hb⟩ := s.returns_contains h
    refine returns_bind.2 ⟨b,hb,?_⟩
    split
    · exact ⟨_,rfl⟩
    · exact ih

theorem EndPoint.returns_allContained {ss os : List (Zone E)}
    (h : ∀ Q, .pattern Q ∈ os → sliceable Q.pattern = true) : Returns (allContained ss os) := by
  induction os with
  | nil => exact ⟨_,rfl⟩
  | cons o os ih =>
    have hrest := ih fun Q hQ => h Q (mem_cons_of_mem _ hQ)
    unfold allContained
    split
    · exact hrest
    · obtain ⟨b,hb⟩ := returns_someContains (fun Q hQ => h Q (hQ ▸ mem_cons_self)) ss
      refine returns_bind.2 ⟨b,hb,?_⟩
      cases b with
      | true => exact hrest
      | false => exact ⟨_,rfl⟩

theorem EndPoint.returns_contains {e o : EndPoint E} (h : o.Sliceable) : Returns (e.contains o) := by
  unfold contains
  split
  · exact ⟨_,rfl⟩
  · split
    · exact ⟨_,rfl⟩
    · split
      · exact ⟨_,rfl⟩
      · split
        · exact ⟨_,rfl⟩
        · exact returns_allContained h

def EndPoint.PlainPatterns (e : EndPoint E) : Prop := ∀ P, .pattern P ∈ e.zones → Plain P.pattern

def EndPoint.Includes (e o : EndPoint E) : Prop := ∀ c, o.Denotes c → e.Denotes c

/-- Each pattern on the right is covered by a containing one on the left, and so is everything. -/
def EndPoint.Covered (e o : EndPoint E) : Prop :=
  .all ∈ e.zones ∨
    (.all ∉ o.zones ∧ ∀ Q, .pattern Q ∈ o.zones →
      ∃ P, .pattern P ∈ e.zones ∧ P.contains Q.pattern = .ok true ∧ P.Covers Q.pattern)

/-- A zone that contains another one denotes its destinations. -/
theorem Zone.denotes_of_contains (hE : LawfulRegex E) (hN : LawfulNetworks E) {s o : Zone E}
    (hs : ∀ P, s = .pattern P → Plain P.pattern) (h : s.contains o = .ok (some true)) (ha : o ≠ .all)
      (hp : ∀ Q, o ≠ .pattern Q) {d : Destination}
    (hd : o.Denotes d) : s.Denotes d := by
  cases s with
  | all => trivial
  | name n =>
    cases o with
    | name m =>
      cases d with
      | address x => cases hd
      | name k =>
        have ht : n.text = m.text := of_decide_eq_true (Option.some.inj (Except.ok.inj h))
        have hk : k = m := hd
        obtain ⟨nt,_,_⟩ := n
        obtain ⟨mt,_,_⟩ := m
        cases ht
        exact hk
    | all => cases h
    | pattern Q => cases h
    | network m => cases h
  | pattern P =>
    cases o with
    | name m =>
      cases d with
      | address x => cases hd
      | name k =>
        obtain ⟨b,hb,h⟩ := bind_eq_ok.1 h
        cases h
        have hk : k = m := hd
        rw [hk]
        exact matches_of_contains_name hE (hs P rfl) m.starless hb
    | all => exact absurd rfl ha
    | pattern Q => exact absurd rfl (hp Q)
    | network m => cases h
  | network n =>
    cases o with
    | network m =>
      cases d with
      | address x => exact (hN.supernet n m).1 (Option.some.inj (Except.ok.inj h)) x hd
      | name k => cases hd
    | all => cases h
    | name m => cases h
    | pattern Q => cases h

theorem EndPoint.includes_of_covered (hE : LawfulRegex E) (hN : LawfulNetworks E) {e o : EndPoint E}
    (he : e.PlainPatterns) (h : e.contains o = .ok true) (hco : e.Covered o) : e.Includes o := by
  obtain ⟨hch,hzones⟩ := contains_eq_true h
  rintro c ⟨hc,z,hz,hd⟩
  refine ⟨hch _ _ _ hc,?_⟩
  by_cases ha : .all ∈ e.zones
  · exact ⟨.all,ha,trivial⟩
  obtain ⟨hnone,hpa⟩ := hco.resolve_left ha
  have hne : z ≠ .all := fun hza => hnone (hza ▸ hz)
  by_cases hp : ∃ Q, z = .pattern Q
  · obtain ⟨Q,rfl⟩ := hp
    obtain ⟨P,hP,hcn,hcv⟩ := hpa Q hz
    refine ⟨.pattern P,hP,?_⟩
    cases hde : c.destination with
    | address x =>
      rw [hde] at hd
      cases hd
    | name m =>
      rw [hde] at hd
      exact included_of_covers hE (he P hP) hcn hcv m hd
  · obtain ⟨s,hs,hso⟩ := exists_of_someContains (someContains_of_allContained (hzones.resolve_left ha) hz hne)
    exact ⟨s,hs,Zone.denotes_of_contains hE hN (fun P hP => he P (hP ▸ hs)) hso hne (fun Q hQ => hp ⟨Q,hQ⟩) hd⟩

theorem EndPoint.denotes_name_of_includes {e o : EndPoint E} (h : e.Includes o) {Q : Pattern E}
    (hQ : .pattern Q ∈ o.zones) {n : Name} (hn : Q.Matches n.text) : ∃ z ∈ e.zones, z.Denotes (.name n) := by
  obtain ⟨i,p,q,hc⟩ := o.exists_channel
  exact (h ⟨i,p,q,.name n⟩ ⟨hc,.pattern Q,hQ,hn⟩).2

/-- An unnamed character in the pattern tells which pattern on the left covers it. -/
theorem EndPoint.exists_pattern_of_includes (hE : LawfulRegex E) {e o : EndPoint E} (he : e.PlainPatterns)
    (hna : ∀ n, .name n ∈ e.zones → Plain n.text) (ha : .all ∉ e.zones) (h : e.Includes o) {Q : Pattern E}
    (hQ : .pattern Q ∈ o.zones) (hp : Plain Q.pattern) (hst : '*' ∈ Q.pattern)
    (hsta : Text.contains stars Q.pattern = false) :
    ∃ P, .pattern P ∈ e.zones ∧ P.contains Q.pattern = .ok true ∧ P.Covers Q.pattern := by
  have hl : Pattern.StarsLead Q.pattern := by
    cases hq : Q.pattern with
    | nil => rfl
    | cons c q =>
      rw [hq] at hsta
      exact starless_tail hsta
  have hb : '*' ∉ ['!'] := by decide
  have hmem : '!' ∈ (probeName ['!'] hb Q.pattern Q.dotted).text :=
    mem_replace_star (star_mem_tested hst) mem_cons_self
  have hpb : ∀ s : Str, Plain s → '!' ∉ s := fun s hs h => absurd (hs _ h) (by decide)
  obtain ⟨z,hz,hd⟩ := denotes_name_of_includes h hQ (matches_probeName hb (by decide) (by decide) hl)
  cases z with
  | all => exact absurd hz ha
  | name n =>
    have hn : probeName ['!'] hb Q.pattern Q.dotted = n := hd
    rw [hn] at hmem
    exact absurd hmem (hpb _ (hna n hz))
  | network n => cases hd
  | pattern P =>
    have hP := he P hz
    have hm : P.Matches (probeName ['!'] hb Q.pattern Q.dotted).text := hd
    have hPs : '*' ∈ P.pattern := by
      by_contra hPs
      rw [Pattern.Matches,accepts_of_starless hPs] at hm
      rw [hm] at hmem
      exact hpb _ hP hmem
    have hpr : P.probe ['!'] Q.pattern = true :=
      regex_of_matches hE hP hPs (plain_probeName hb (by decide) hp) hm
    have hi : Q.Included P := fun n hn =>
      matches_of_probe hE hP hPs (fun hc => by rw [hsta] at hc; cases hc) hpr hn
    exact ⟨P,hz,nameContains_of_included hE hP hp hl hi,fun _ => hpr⟩

/-- Patterns for which inclusion in the zones of `e` is decided by one of them. -/
def EndPoint.Decided (e : EndPoint E) (Q : Pattern E) : Prop :=
  Plain Q.pattern ∧
    (Text.contains stars Q.pattern = false ∨ (Pattern.StarsLead Q.pattern ∧ e.zones.length = 1))

theorem EndPoint.covered_of_includes (hE : LawfulRegex E) {e o : EndPoint E} (he : e.PlainPatterns)
    (hna : ∀ n, .name n ∈ e.zones → Plain n.text) (hde : ∀ Q, .pattern Q ∈ o.zones → e.Decided Q)
    (h : e.contains o = .ok true) (hi : e.Includes o) (ha : .all ∈ o.zones → .all ∈ e.zones) : e.Covered o := by
  by_cases hea : .all ∈ e.zones
  · exact .inl hea
  refine .inr ⟨mt ha hea,fun Q hQ => ?_⟩
  have hz := (contains_eq_true h).2.resolve_left hea
  obtain ⟨s,hs,hsQ⟩ := exists_of_someContains (someContains_of_allContained hz hQ (by simp))
  have hc : ∃ P, s = .pattern P ∧ P.contains Q.pattern = .ok true := by
    cases s with
    | all => exact absurd hs hea
    | name n => cases hsQ
    | network n => cases hsQ
    | pattern P =>
      obtain ⟨b,hb,hsQ⟩ := bind_eq_ok.1 hsQ
      cases hsQ
      exact ⟨P,rfl,hb⟩
  obtain ⟨P,rfl,hPQ⟩ := hc
  obtain ⟨hp,hca⟩ := hde Q hQ
  by_cases hst : '*' ∈ Q.pattern
  · rcases hca with hsta | ⟨hl,hsi⟩
    · exact exists_pattern_of_includes hE he hna hea hi hQ hp hst hsta
    · refine ⟨P,hs,hPQ,covers_of_included hE (he P hs) hp hPQ hl fun n hn => ?_⟩
      obtain ⟨z,hz,hd⟩ := denotes_name_of_includes hi hQ hn
      obtain ⟨w,hw⟩ := length_eq_one_iff.1 hsi
      rw [hw,mem_singleton] at hs hz
      rw [hz,← hs] at hd
      exact hd
  · exact ⟨P,hs,hPQ,fun hq => absurd hq hst⟩

/-- Containment is inclusion of the connections when the zones are covered, and
only then as far as single patterns decide inclusion. -/
theorem EndPoint.includes_iff_covered (hE : LawfulRegex E) (hN : LawfulNetworks E) {e o : EndPoint E}
    (he : e.PlainPatterns) (h : e.contains o = .ok true) :
    (e.Covered o → e.Includes o ∧ (.all ∈ o.zones → .all ∈ e.zones)) ∧
      ((∀ n, .name n ∈ e.zones → Plain n.text) → (∀ Q, .pattern Q ∈ o.zones → e.Decided Q) →
        (e.Includes o ∧ (.all ∈ o.zones → .all ∈ e.zones) ↔ e.Covered o)) := by
  have hs : e.Covered o → e.Includes o ∧ (.all ∈ o.zones → .all ∈ e.zones) := fun hc =>
    ⟨includes_of_covered hE hN he h hc,fun ha => hc.elim id (fun hnone => absurd ha hnone.1)⟩
  exact ⟨hs,fun hn hd => ⟨fun hi => covered_of_includes hE he hn hd h hi.1 hi.2,hs⟩⟩

def anyComEnd : EndPoint Reference.externals := ⟨[.pattern anyCom],[],[],[],by decide⟩
def aComEnd : EndPoint Reference.externals := ⟨[.pattern aCom],[],[.tcp],[.port 443],by decide⟩

theorem anyComEnd_includes_iff :
    anyComEnd.contains aComEnd = .ok true ∧
      (anyComEnd.Includes aComEnd ∧ (.all ∈ aComEnd.zones → .all ∈ anyComEnd.zones) ↔ anyComEnd.Covered aComEnd) := by
  have hp : ∀ {P Q : Pattern Reference.externals}, Zone.pattern P ∈ [Zone.pattern Q] → P = Q := by
    intro P Q h
    cases mem_singleton.1 h
    rfl
  have hc : anyComEnd.contains aComEnd = .ok true := by decide
  refine ⟨hc,(EndPoint.includes_iff_covered Reference.lawfulRegex Reference.lawfulNetworks ?_ hc).2 ?_ ?_⟩
  · intro P hP
    rw [hp hP]
    exact plain_anyCom
  · intro n hn
    cases mem_singleton.1 hn
  · intro Q hQ
    rw [hp hQ]
    exact ⟨plain_aCom,.inl (by decide)⟩

def oneNameEnd : EndPoint Reference.externals :=
  ⟨[.name ⟨"a.com.",by decide,by decide⟩],[],[],[],by decide⟩
def everywhereEnd : EndPoint Reference.externals := ⟨[.all],[],[],[],adjustZones_all⟩

/-- An endpoint of one name contains the endpoint of everything: that zone of the other is skipped. -/
theorem one_name_contains_everything :
    EndPoint.new Reference.externals "a.com." = .ok (.ok oneNameEnd) ∧
      EndPoint.new Reference.externals "*" = .ok (.ok everywhereEnd) ∧
      oneNameEnd.contains everywhereEnd = .ok true ∧ .all ∈ everywhereEnd.zones ∧ .all ∉ oneNameEnd.zones ∧
      ¬ oneNameEnd.Includes everywhereEnd := by
  refine ⟨by rfl,by rfl,by decide,by decide,by decide,fun h => ?_⟩
  obtain ⟨i,p,q,hc⟩ := everywhereEnd.exists_channel
  obtain ⟨_,z,hz,hd⟩ := h ⟨i,p,q,.name ⟨"b.com.",by decide,by decide⟩⟩ ⟨hc,.all,by decide,trivial⟩
  rw [mem_singleton.1 hz] at hd
  exact absurd (congrArg Name.text hd) (by decide)

end Padsi.Net
