import Padsi.Net.EndPoint
import Padsi.Net.Reference

/-! # Endpoints are read back from their text -/
namespace Padsi.Net
open Rust Text List Zone PortSpec Name

variable {E : Externals}

structure Clean (s : Str) : Prop where
  solid : Solid s
  chars : ∀ c ∈ s, c ≠ ',' ∧ c ≠ '^' ∧ c ≠ '#'

def tameChar (c : Char) : Bool := c.isLower || c.isDigit || c == '-' || c == '_' || c == '.' || c == '/'

theorem tame_range {c : Char} (h : tameChar c = true) : 45 ≤ c.toNat ∧ c.toNat < 123 := by
  simp only [tameChar,Bool.or_eq_true,beq_iff_eq,Char.isLower,Char.isDigit,Bool.and_eq_true,decide_eq_true_eq] at h
  rcases h with ((((h | h) | rfl) | rfl) | rfl) | rfl
  · exact ⟨(show 45 ≤ 97 by decide).trans h.1,Nat.lt_succ_of_le h.2⟩
  · exact ⟨(show 45 ≤ 48 by decide).trans h.1,Nat.lt_of_le_of_lt h.2 (by decide)⟩
  all_goals decide

theorem isWhitespace_of_tame {c : Char} (h : tameChar c = true) : isWhitespace c = false := by
  obtain ⟨hl,hh⟩ := tame_range h
  generalize hk : c.toNat = k at hl hh
  simp only [isWhitespace,hk,Bool.or_eq_false_iff,Bool.and_eq_false_iff,decide_eq_false_iff_not,
    contains_eq_mem,mem_cons,not_mem_nil,or_false]
  refine ⟨⟨?_,?_⟩,?_⟩ <;> omega

theorem clean_of_tame {s : Str} (hne : s ≠ []) (h : ∀ c ∈ s, tameChar c = true) : Clean s := by
  have hnot : ∀ d, tameChar d = false → ∀ c ∈ s, c ≠ d := by
    rintro d hd c hc rfl
    rw [h c hc] at hd
    cases hd
  exact ⟨Solid.of_chars hne fun c hc => isWhitespace_of_tame (h c hc),fun c hc =>
    ⟨hnot ',' (by decide) c hc,hnot '^' (by decide) c hc,hnot '#' (by decide) c hc⟩⟩

theorem tame_of_digits {n : ℕ} {c : Char} (h : c ∈ Nat.toDigits 10 n) : tameChar c = true := by
  have hd : c.isDigit = true := Nat.isDigit_of_mem_toDigits (by decide) (by decide) h
  simp [tameChar,hd]

theorem Protocol.fromStr_text (p : Protocol) : Protocol.fromStr p.text = .ok p := by
  cases p <;> rfl
theorem Protocol.clean_text (p : Protocol) : Clean p.text := by
  cases p <;> exact clean_of_tame (by decide) (all_eq_true.1 (by decide))

theorem parseU16_portText (p : UInt16) : parseU16 (portText p) = .ok p := by
  have hp : p.toNat ≤ 65535 := Nat.le_of_lt_succ p.toNat_lt
  rw [parseU16,portText,parseUnsigned_toDigits hp]
  exact congrArg Except.ok (UInt16.ofNat_toNat)

theorem dash_not_mem_portText (p : UInt16) : '-' ∉ portText p := fun h =>
  absurd (Nat.isDigit_of_mem_toDigits (by decide) (by decide) h) (by decide)

theorem PortSpec.fromStr_text (s : PortSpec) : fromStr s.text = .ok s := by
  cases s with
  | port p =>
    rw [fromStr,text,splitOn_eq_singleton (dash_not_mem_portText p)]
    simp only [parseU16_portText]
    rfl
  | range a b pos lt =>
    have hj : (range a b pos lt).text = ['-'].intercalate [portText a,portText b] := by
      simp [text,intercalate]
    have hsplit : (range a b pos lt).text.splitOn '-' = [portText a,portText b] := by
      rw [hj]
      exact splitOn_intercalate '-' (by simp [dash_not_mem_portText]) (by simp)
    rw [fromStr,hsplit]
    simp only [parseU16_portText]
    exact (dif_pos pos).trans (dif_pos lt)

theorem PortSpec.clean_text (s : PortSpec) : Clean s.text := by
  cases s with
  | port p => exact clean_of_tame Nat.toDigits_ne_nil fun c hc => tame_of_digits hc
  | range a b pos lt =>
    refine clean_of_tame (by simp [text]) fun c hc => ?_
    rcases mem_append.1 hc with hc | hc
    · exact tame_of_digits hc
    · rcases mem_cons.1 hc with rfl | hc
      · decide
      · exact tame_of_digits hc

theorem NetworkInterface.tame_text (i : NetworkInterface) : i.text ≠ [] ∧ ∀ c ∈ i.text, tameChar c = true := by
  obtain ⟨s,_,hs⟩ := i
  cases s with
  | nil => cases hs
  | cons c s =>
    simp only [interfaceFormat,Bool.and_eq_true,all_eq_true,Bool.or_eq_true,beq_iff_eq] at hs
    refine ⟨by simp,forall_mem_cons.2 ⟨by simp [tameChar,hs.1],fun d hd => ?_⟩⟩
    have hd' := hs.2 d hd
    simp only [tameChar,Bool.or_eq_true,beq_iff_eq]
    tauto

theorem NetworkInterface.fromStr_text (i : NetworkInterface) : NetworkInterface.fromStr i.text = .ok i := by
  have ha : i.text.all (fun c => decide (c.toNat < 128)) = true := by
    rw [all_eq_true]
    intro c hc
    exact decide_eq_true ((tame_range (i.tame_text.2 c hc)).2.trans (by decide))
  rw [fromStr,dif_pos ⟨ha,i.short⟩,dif_pos i.format]

theorem NetworkInterface.solid_mark (i : NetworkInterface) : Solid ('#' :: i.text) := by
  apply Solid.of_chars (by simp)
  intro c hc
  rcases mem_cons.1 hc with rfl | hc
  · decide
  · exact isWhitespace_of_tame (i.tame_text.2 c hc)

theorem EndPoint.interfaceOf_text (i : NetworkInterface) : interfaceOf ('#' :: i.text) = .ok (.ok i) := by
  rw [interfaceOf,i.solid_mark.trim_eq]
  exact congrArg Except.ok i.fromStr_text

def Zone.Written : Zone E → Prop
  | .all => True
  | .name n => Clean n.text
  | .pattern P => Clean P.pattern ∧ '*' ∈ P.pattern
  | .network _ => True

theorem Ipv4Network.tame_text (n : Ipv4Network) : n.text ≠ [] ∧ ∀ c ∈ n.text, tameChar c = true := by
  refine ⟨by simp [text],fun c hc => ?_⟩
  have ho : ∀ {x : UInt8}, c ∈ octetText x → tameChar c = true := fun h => tame_of_digits h
  simp only [text,Ipv4Addr.text,intercalate_cons_cons,intercalate_singleton,mem_append,
    mem_cons,not_mem_nil,or_false] at hc
  rcases hc with ((h | rfl) | (h | rfl) | (h | rfl) | h) | rfl | h
  · exact ho h
  · decide
  · exact ho h
  · decide
  · exact ho h
  · decide
  · exact ho h
  · decide
  · exact tame_of_digits h

theorem Ipv4Network.last_text (n : Ipv4Network) : n.text.getLast? ≠ some '.' := by
  intro h
  obtain ⟨u,hu⟩ := getLast?_eq_some_iff.1 h
  have hl : (n.addr.text ++ '/' :: Nat.toDigits 10 n.length).getLast? = (Nat.toDigits 10 n.length).getLast? := by
    rw [getLast?_append_of_ne_nil _ (by simp), getLast?_cons_of_ne_nil Nat.toDigits_ne_nil]
  rw [text,hl] at h
  exact absurd (Nat.isDigit_of_mem_toDigits (by decide) (by decide) (mem_of_getLast? h)) (by decide)

theorem Zone.clean_text {z : Zone E} (h : z.Written) : Clean z.text := by
  cases z with
  | all =>
    exact ⟨Solid.of_chars (cons_ne_nil _ _) (forall_mem_singleton.2 (by decide)),
      forall_mem_singleton.2 (by decide)⟩
  | name n => exact h
  | pattern P => exact h.1
  | network n => exact clean_of_tame n.tame_text.1 n.tame_text.2

theorem Zone.fromStr_text (hN : ∀ n : Ipv4Network, E.parseNetwork n.text = some n) {z : Zone E}
    (h : z.Written) : fromStr E z.text = .ok z := by
  have ht := (clean_text h).solid.trim_eq
  have hd : ∀ s : Str, s.getLast? = some '.' → s ≠ ['*'] := by
    rintro s hs rfl
    cases hs
  cases z with
  | all => rfl
  | name n =>
    rw [fromStr,ht,text,if_neg (hd _ n.dotted),new_eq_ok.2 rfl]
  | pattern P =>
    have hname : new P.pattern = .error .starInName := by
      rw [new,dif_pos P.dotted,dif_pos (contains_singleton.2 h.2)]
    rw [fromStr,ht,text,if_neg (hd _ P.dotted),hname,Pattern.new_eq_ok.2 rfl]
  | network n =>
    have hst : n.text ≠ ['*'] := by
      intro hs
      have hmem := n.tame_text.2 '*' (by rw [hs]; exact mem_cons_self)
      exact absurd hmem (by decide)
    have hname : new n.text = .error .noFinalDot := by
      rw [new,dif_neg n.last_text]
    have hp : Pattern.new E n.text = .error .noFinalDot := by
      rw [Pattern.new,dif_neg n.last_text]
    rw [fromStr,ht,text,if_neg hst,hname,hp,hN]

theorem Zone.written_of_fromStr {s : Str} {z : Zone E} (hs : s ≠ [] → Clean s) (h : fromStr E s = .ok z) :
    z.Written := by
  have hne : ∀ t : Str, t.getLast? = some '.' → t ≠ [] := by
    rintro t ht rfl
    cases ht
  unfold fromStr at h
  split at h
  · cases h
    trivial
  · split at h
    · rename_i n hn
      cases h
      have hte := new_eq_ok.1 hn
      change Clean n.text
      rw [hte]
      exact hs (hne s (hte ▸ n.dotted))
    · rename_i e he
      split at h
      · rename_i P hP
        cases h
        have hte := Pattern.new_eq_ok.1 hP
        refine ⟨by rw [hte]; exact hs (hne s (hte ▸ P.dotted)),?_⟩
        -- without a star the text would have been a name
        by_contra hst
        rw [hte] at hst
        have hname : new s = .ok ⟨s,hte ▸ P.dotted,hst⟩ := new_eq_ok.2 rfl
        rw [hname] at he
        cases he
      · split at h
        · cases h
          trivial
        · split at h
          · cases h
            trivial
          · cases h

namespace EndPoint

theorem clean_piece {part p : Str} (hpa : '^' ∉ part) (hp : p ∈ part.splitOn ',') (hm : Text.contains ['#'] p = false)
    (hne : trim p ≠ []) : Clean (trim p) := by
  refine ⟨solid_trim hne,fun c hc => ?_⟩
  have hcp := mem_of_mem_trim hc
  refine ⟨?_,?_,?_⟩
  · rintro rfl
    exact not_mem_of_mem_splitOn hp hcp
  · rintro rfl
    exact hpa (mem_of_mem_splitOn hp hcp)
  · rintro rfl
    exact Bool.eq_false_iff.1 hm (contains_singleton.2 hcp)

theorem written_of_new {spec : Str} {e : EndPoint E} (h : new E spec = .ok (.ok e)) : ∀ z ∈ e.zones, z.Written := by
  unfold new ofParts at h
  split at h
  · cases h
  · obtain ⟨zones,hzones,h⟩ := andThen_eq_ok.1 h
    obtain ⟨interfaces,_,h⟩ := andThen_eq_ok.1 h
    obtain ⟨protocols,_,h⟩ := andThen_eq_ok.1 h
    obtain ⟨ports,_,h⟩ := andThen_eq_ok.1 h
    cases h
    intro z hz
    have hc : z = .all ∨ z ∈ zones := by
      change z ∈ adjustZones zones at hz
      unfold adjustZones at hz
      split at hz
      · exact Or.inl (mem_singleton.1 hz)
      · exact Or.inr hz
    rcases hc with rfl | hz
    · trivial
    · obtain ⟨p,hp,hpz⟩ := mem_of_collect hzones z hz
      obtain ⟨hp,hf⟩ := mem_filter.1 hp
      have hm : Text.contains ['#'] p = false := by simpa using (Bool.and_eq_true_iff.1 hf).2
      have hpa : '^' ∉ ((trim spec).splitOn '^').headD [] := by
        cases hpr : (trim spec).splitOn '^' with
        | nil => exact not_mem_nil
        | cons part parts => exact not_mem_of_mem_splitOn (by rw [hpr]; exact mem_cons_self)
      exact written_of_fromStr (clean_piece hpa hp hm) (Except.ok.inj hpz)

def pieces (e : EndPoint E) : List Str := e.zones.map Zone.text ++ e.interfaces.map fun i => '#' :: i.text

def parts (e : EndPoint E) : List Str :=
  [','].intercalate e.pieces ::
    if e.protocols = [] ∧ e.ports = [] then []
    else
      [','].intercalate (e.protocols.map Protocol.text) ::
        if e.ports = [] then [] else [[','].intercalate (e.ports.map PortSpec.text)]

variable {e : EndPoint E}

theorem zones_ne_nil (e : EndPoint E) : e.zones ≠ [] := by
  intro h
  have ha := e.adjusted
  rw [h] at ha
  cases ha

theorem text_eq (e : EndPoint E) : e.text = ['^'].intercalate e.parts := by
  have hm : e.interfaces.flatMap (fun i => ",#".toList ++ i.text) =
      (e.interfaces.map fun i => '#' :: i.text).flatMap ([','] ++ ·) := by
    rw [flatMap_map]
    rfl
  have hp : [','].intercalate e.pieces =
      [','].intercalate (e.zones.map Zone.text) ++ e.interfaces.flatMap (fun i => ",#".toList ++ i.text) := by
    rw [pieces, intercalate_append (by simpa using e.zones_ne_nil), hm]
  rw [text,parts,← hp]
  split
  · simp
  · split <;> simp [intercalate_cons_cons]

theorem piece_cases (hw : ∀ z ∈ e.zones, z.Written) {p : Str} (hp : p ∈ e.pieces) :
    Solid p ∧ ',' ∉ p ∧ '^' ∉ p := by
  rcases mem_append.1 hp with hp | hp
  · obtain ⟨z,hz,rfl⟩ := mem_map.1 hp
    have hc := clean_text (hw z hz)
    exact ⟨hc.solid,fun h => (hc.chars _ h).1 rfl,fun h => (hc.chars _ h).2.1 rfl⟩
  · obtain ⟨i,_,rfl⟩ := mem_map.1 hp
    have hc := clean_of_tame i.tame_text.1 i.tame_text.2
    refine ⟨i.solid_mark,fun h => ?_,fun h => ?_⟩
    · rcases mem_cons.1 h with h | h
      · cases h
      · exact (hc.chars _ h).1 rfl
    · rcases mem_cons.1 h with h | h
      · cases h
      · exact (hc.chars _ h).2.1 rfl

theorem pieces_ne_nil (e : EndPoint E) : e.pieces ≠ [] := by
  simp [pieces,e.zones_ne_nil]

theorem join_clean {α : Type} {f : α → Str} (xs : List α) (hf : ∀ x, Clean (f x)) :
    '^' ∉ [','].intercalate (xs.map f) ∧
      (xs ≠ [] → Solid ([','].intercalate (xs.map f)) ∧ ([','].intercalate (xs.map f)).splitOn ',' = xs.map f) := by
  refine ⟨fun h => ?_,fun hne => ⟨Solid.intercalate (by simpa using hne) ?_,
    splitOn_intercalate ',' ?_ (by simpa using hne)⟩⟩
  · rcases mem_of_mem_intercalate h with h | ⟨p,hp,h⟩
    · exact absurd (mem_singleton.1 h) (by decide)
    · obtain ⟨x,_,rfl⟩ := mem_map.1 hp
      exact ((hf x).chars _ h).2.1 rfl
  · intro p hp
    obtain ⟨x,_,rfl⟩ := mem_map.1 hp
    exact (hf x).solid
  · intro p hp h
    obtain ⟨x,_,rfl⟩ := mem_map.1 hp
    exact ((hf x).chars _ h).1 rfl

theorem solid_text (hw : ∀ z ∈ e.zones, z.Written) : Solid e.text := by
  have hfirst : Solid ([','].intercalate e.pieces) :=
    Solid.intercalate e.pieces_ne_nil fun p hp => (piece_cases hw hp).1
  rw [text_eq,parts]
  split
  · rwa [intercalate_singleton]
  · rename_i hs
    rw [intercalate_cons_cons]
    split
    · rename_i hpo
      have hpr : e.protocols ≠ [] := fun h => hs ⟨h,hpo⟩
      rw [intercalate_singleton]
      exact hfirst.append ['^'] ((join_clean e.protocols Protocol.clean_text).2 hpr).1
    · rename_i hpo
      rw [intercalate_cons_cons,intercalate_singleton,← append_assoc]
      have hl := ((join_clean e.ports clean_text).2 hpo).1
      have hj := hfirst.append (['^'] ++ [','].intercalate (e.protocols.map Protocol.text) ++ ['^']) hl
      simpa using hj

theorem splitOn_text (hw : ∀ z ∈ e.zones, z.Written) : e.text.splitOn '^' = e.parts := by
  rw [text_eq]
  apply splitOn_intercalate '^' _ (by simp [parts])
  have hfirst : '^' ∉ [','].intercalate e.pieces := by
    intro h
    rcases mem_of_mem_intercalate h with h | ⟨p,hp,h⟩
    · exact absurd (mem_singleton.1 h) (by decide)
    · exact (piece_cases hw hp).2.2 h
  have hpr := (join_clean e.protocols Protocol.clean_text).1
  have hpo := (join_clean e.ports clean_text).1
  intro p hp
  rw [parts] at hp
  rcases mem_cons.1 hp with rfl | hp
  · exact hfirst
  · split at hp
    · cases hp
    · rcases mem_cons.1 hp with rfl | hp
      · exact hpr
      · split at hp
        · cases hp
        · rw [mem_singleton.1 hp]
          exact hpo

theorem splitOn_pieces (hw : ∀ z ∈ e.zones, z.Written) : ([','].intercalate e.pieces).splitOn ',' = e.pieces :=
  splitOn_intercalate ',' (fun _ hp => (piece_cases hw hp).2.1) e.pieces_ne_nil

theorem zonesOf_pieces (hN : ∀ n : Ipv4Network, E.parseNetwork n.text = some n) (hw : ∀ z ∈ e.zones, z.Written) :
    zonesOf E ([','].intercalate e.pieces) = .ok (.ok e.zones) := by
  have hzones : (e.zones.map Zone.text).filter (fun s => !s.isEmpty && !Text.contains ['#'] s) =
      e.zones.map Zone.text := by
    rw [filter_eq_self]
    intro p hp
    obtain ⟨z,hz,rfl⟩ := mem_map.1 hp
    have hc := clean_text (hw z hz)
    have hm : Text.contains ['#'] z.text = false :=
      Bool.eq_false_iff.2 fun h => (hc.chars _ (contains_singleton.1 h)).2.2 rfl
    simp [hm,hc.solid.ne]
  have hi : (e.interfaces.map fun i => '#' :: i.text).filter (fun s => !s.isEmpty && !Text.contains ['#'] s) = [] := by
    rw [filter_eq_nil_iff]
    intro p hp
    obtain ⟨i,_,rfl⟩ := mem_map.1 hp
    simp [contains_singleton.2 (mem_cons_self (a := '#'))]
  rw [zonesOf,splitOn_pieces hw,pieces,filter_append,hzones,hi,append_nil]
  apply collect_map
  intro z hz
  rw [(clean_text (hw z hz)).solid.trim_eq,fromStr_text hN (hw z hz)]

theorem interfacesOf_pieces (hw : ∀ z ∈ e.zones, z.Written) :
    interfacesOf ([','].intercalate e.pieces) = .ok (.ok e.interfaces) := by
  have hzones : (e.zones.map Zone.text).filter (Text.contains ['#']) = [] := by
    rw [filter_eq_nil_iff]
    intro p hp h
    obtain ⟨z,hz,rfl⟩ := mem_map.1 hp
    exact ((clean_text (hw z hz)).chars _ (contains_singleton.1 h)).2.2 rfl
  have hi : (e.interfaces.map fun i => '#' :: i.text).filter (Text.contains ['#']) =
      e.interfaces.map fun i => '#' :: i.text := by
    rw [filter_eq_self]
    intro p hp
    obtain ⟨i,_,rfl⟩ := mem_map.1 hp
    exact contains_singleton.2 mem_cons_self
  rw [interfacesOf,splitOn_pieces hw,pieces,filter_append,hzones,hi,nil_append]
  exact collect_map e.interfaces fun i _ => interfaceOf_text i

theorem protocolsOf_parts (e : EndPoint E) : protocolsOf e.parts = .ok (.ok e.protocols) := by
  rw [parts]
  split
  · rename_i h
    rw [h.1]
    rfl
  · rename_i h
    by_cases hnone : e.protocols = []
    · rw [hnone]
      rfl
    · have hsplit := ((join_clean e.protocols Protocol.clean_text).2 hnone).2
      have hf : (e.protocols.map Protocol.text).filter (fun s => decide (trim s ≠ [])) =
          e.protocols.map Protocol.text := by
        rw [filter_eq_self]
        intro p hp
        obtain ⟨x,_,rfl⟩ := mem_map.1 hp
        rw [x.clean_text.solid.trim_eq]
        exact decide_eq_true x.clean_text.solid.ne
      simp only [protocolsOf]
      rw [hsplit,hf]
      apply collect_map
      intro p _
      rw [p.clean_text.solid.trim_eq,p.fromStr_text]

theorem portsOf_parts (e : EndPoint E) : portsOf e.parts = .ok (.ok e.ports) := by
  rw [parts]
  split
  · rename_i h
    rw [h.2]
    rfl
  · split
    · rename_i hp
      rw [hp]
      rfl
    · rename_i hp
      simp only [portsOf]
      rw [((join_clean e.ports clean_text).2 hp).2]
      apply collect_map
      intro p _
      rw [p.clean_text.solid.trim_eq,p.fromStr_text]

theorem new_text (hN : ∀ n : Ipv4Network, E.parseNetwork n.text = some n) (hw : ∀ z ∈ e.zones, z.Written) :
    new E e.text = .ok (.ok e) := by
  have hl : ¬ e.parts.length > 3 := by
    rw [parts]
    split
    · simp
    · split <;> simp
  have hfirst : e.parts.headD [] = [','].intercalate e.pieces := by
    rw [parts]
    rfl
  rw [new,(solid_text hw).trim_eq,splitOn_text hw,ofParts,if_neg hl,hfirst,zonesOf_pieces hN hw,andThen_ok,
    interfacesOf_pieces hw,andThen_ok,protocolsOf_parts,andThen_ok,portsOf_parts,andThen_ok]
  obtain ⟨zones,interfaces,protocols,ports,ha⟩ := e
  simp only [ha]

theorem eq_of_text (hN : ∀ n : Ipv4Network, E.parseNetwork n.text = some n) {e o : EndPoint E}
    (he : ∀ z ∈ e.zones, z.Written) (ho : ∀ z ∈ o.zones, z.Written) (h : e.text = o.text) : e = o := by
  have hr := new_text hN he
  rw [h,new_text hN ho] at hr
  exact (Except.ok.inj (Except.ok.inj hr)).symm

/-- An accepted endpoint is read back from the text that it is printed as. -/
theorem new_text_of_new (hN : ∀ n : Ipv4Network, E.parseNetwork n.text = some n) {s : Str} {e : EndPoint E}
    (h : new E s = .ok (.ok e)) : new E e.text = .ok (.ok e) ∧ ∀ o, new E e.text = .ok (.ok o) → o.text = e.text := by
  have hr := new_text hN (written_of_new h)
  refine ⟨hr,fun o ho => ?_⟩
  rw [hr] at ho
  cases ho
  rfl

theorem new_text_of_new_eth0 : ∃ e, new Reference.externals " a.com. ,#eth0^ ^443" = .ok (.ok e) ∧
    e.text = "a.com.,#eth0^^443" ∧
    new Reference.externals e.text = .ok (.ok e) ∧ ∀ o, new Reference.externals e.text = .ok (.ok o) →
      o.text = e.text :=
  ⟨_,rfl,by decide +kernel,new_text_of_new Reference.lawfulNetworks.parse_text (s := " a.com. ,#eth0^ ^443") rfl⟩

end EndPoint

end Padsi.Net
