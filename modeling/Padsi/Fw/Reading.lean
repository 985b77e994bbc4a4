import Padsi.Fw.PartOf

/-! # Two readings of one specification

A text that both libraries accept is read item by item to the same parts, if it has none
of the four separators that only Python strips.
-/
namespace Padsi.Fw
open Rust Text Wildcard Net Net.EndPoint Python List Ipv4Addr PortSpec

variable {U : Unicode} {E : Externals}

def separator (c : Char) : Bool := 0x1c ≤ c.toNat && c.toNat ≤ 0x1f
def NoSeparators (s : Str) : Prop := ∀ c ∈ s, separator c = false

variable {a item s t : Str} {v : UInt16} {x : Port ⊕ PortRange U} {items : List Str} {c : Char} {z : Zone U}
  {ss : List (Net.Zone E)}
  {zs : List (Zone U)} {is : List NetworkInterface}

theorem NoSeparators.of_subset (h : NoSeparators s) (hs : ∀ c ∈ t, c ∈ s) : NoSeparators t :=
  fun c hc => h c (hs c hc)

theorem dropWhile_congr {p q : Char → Bool} (h : ∀ c ∈ s, p c = q c) : s.dropWhile p = s.dropWhile q := by
  induction s with
  | nil => rfl
  | cons c s ih =>
    simp only [dropWhile_cons,h c mem_cons_self]
    rw [ih fun x hx => h x (mem_cons_of_mem _ hx)]

theorem strip_eq_trim (h : NoSeparators s) : strip s = trim s := by
  have hs : ∀ c ∈ s, isSpace c = isWhitespace c := by
    intro c hc
    have hse : (0x1c ≤ c.toNat && c.toNat ≤ 0x1f) = false := h c hc
    rw [isSpace,hse,Bool.or_false]
  rw [strip,trim,dropWhile_congr hs,rdropWhile,rdropWhile]
  rw [dropWhile_congr fun c hc => hs c ((dropWhile_sublist _).subset (mem_reverse.1 hc))]

theorem intDigits_of_parseDigits (hU : U.Lawful) {max acc n : ℕ} (ready : Bool) (hr : ready = true ∨ s ≠ [])
    (h : parseDigits max acc s = .ok n) : intDigits U acc ready s = some n ∧ ∀ c ∈ s, c.isDigit = true := by
  induction s generalizing acc ready with
  | nil =>
    cases h
    rcases hr with rfl | hne
    · exact ⟨rfl,nofun⟩
    · exact absurd rfl hne
  | cons c s ih =>
    rw [parseDigits] at h
    split at h
    · rename_i hd
      split at h
      · obtain ⟨hrest,ha⟩ := ih true (.inl rfl) h
        have hne : c ≠ '_' := by
          rintro rfl
          cases hd
        refine ⟨?_,forall_mem_cons.2 ⟨hd,ha⟩⟩
        rw [intDigits,if_neg hne,hU.decimal_digit c hd]
        exact hrest
      · cases h
    · cases h

theorem int_of_parseUnsigned (hU : U.Lawful) {max n : ℕ} (h : parseUnsigned max s = .ok n) :
    int U s = some (n : ℤ) := by
  cases s with
  | nil => cases h
  | cons c rest =>
    rw [parseUnsigned] at h
    split at h
    · rename_i hp
      obtain ⟨rfl,hne⟩ := hp
      obtain ⟨hi,hd⟩ := intDigits_of_parseDigits hU false (.inr hne) h
      have hs : strip ('+' :: rest) = '+' :: rest :=
        strip_of_solid (forall_mem_cons.2 ⟨by decide,fun x hx => isSpace_of_digit (hd x hx)⟩)
      rw [int,hs]
      simp only [hi]
      rfl
    · obtain ⟨hi,hd⟩ := intDigits_of_parseDigits hU false (.inr (cons_ne_nil c rest)) h
      have hs : strip (c :: rest) = c :: rest := strip_of_solid fun x hx => isSpace_of_digit (hd x hx)
      have hdi := hd c mem_cons_self
      rw [int,hs]
      split
      · rename_i heq
        cases heq
        cases hdi
      · rename_i heq
        cases heq
        cases hdi
      · rw [hi]
        rfl

theorem parseDigits_le {max acc n : ℕ} (ha : acc ≤ max) (h : parseDigits max acc s = .ok n) : n ≤ max := by
  induction s generalizing acc with
  | nil =>
    cases h
    exact ha
  | cons c s ih =>
    rw [parseDigits] at h
    split at h
    · split at h
      · rename_i hle
        exact ih hle h
      · cases h
    · cases h

theorem int_of_parseU16 (hU : U.Lawful) (h : parseU16 s = .ok v) : int U s = some (v.toNat : ℤ) := by
  unfold parseU16 at h
  split at h
  · rename_i n hn
    cases h
    have hle : n ≤ 65535 := by
      cases s with
      | nil => cases hn
      | cons c rest =>
        rw [parseUnsigned] at hn
        split at hn <;> exact parseDigits_le (by decide) hn
    rw [int_of_parseUnsigned hU hn, UInt16.toNat_ofNat', Nat.mod_eq_of_lt (by omega)]
  · cases h

def SamePort : PortSpec → Port ⊕ PortRange U → Prop
  | .port p, .inl q => q.val = p.toNat
  | .range a b _ _, .inr r => r.first.val = a.toNat ∧ r.last.val = b.toNat
  | _, _ => False

theorem samePort_of_port (hU : U.Lawful) (hd : '-' ∉ item) (hv : parseU16 item = .ok v)
    (hx : readPortItem U item = .ok x) : SamePort (.port v) x := by
  unfold readPortItem at hx
  rw [if_neg (mt contains_singleton.1 hd),int_of_parseU16 hU hv] at hx
  simp only at hx
  split at hx
  · cases hx
    exact Int.toNat_natCast _
  · cases hx

theorem readRange_of_parseU16 (hU : U.Lawful) {b : Str} {w : UInt16} (hsplit : item.splitOn '-' = [a,b])
    (hv : parseU16 a = .ok v) (hw : parseU16 b = .ok w) {p q : Port} (h : readRange U item = some (p,q)) :
    p.val = v.toNat ∧ q.val = w.toNat := by
  unfold readRange at h
  rw [hsplit] at h
  simp only [int_of_parseU16 hU hv,int_of_parseU16 hU hw,Option.bind_eq_bind,Option.bind_some] at h
  split at h
  · cases h
    exact ⟨Int.toNat_natCast _,Int.toNat_natCast _⟩
  · cases h

theorem samePort_of_range (hU : U.Lawful) {b : Str} {w : UInt16} {s : PortSpec} (hsplit : item.splitOn '-' = [a,b])
    (hv : parseU16 a = .ok v) (hw : parseU16 b = .ok w)
    (hs : (∃ hpo hlt, s = .range v w hpo hlt) ∨ (v = w ∧ s = .port v))
    (hx : readPortItem U item = .ok x) : SamePort s x := by
  have hd : '-' ∈ item := by
    have hj : ['-'].intercalate [a,b] = item := by rw [← hsplit,intercalate_splitOn]
    rw [← hj]
    simp [intercalate]
  unfold readPortItem at hx
  rw [if_pos (contains_singleton.2 hd)] at hx
  split at hx
  · cases hx
  rename_i p q hr
  obtain ⟨hp,hq⟩ := readRange_of_parseU16 hU hsplit hv hw hr
  rcases hs with ⟨hpo,hlt,rfl⟩ | ⟨rfl,rfl⟩
  · rw [UInt16.lt_iff_toNat_lt] at hlt
    rw [dif_pos (by omega)] at hx
    cases hx
    exact ⟨hp,hq⟩
  · rw [dif_neg (by omega)] at hx
    cases hx
    exact hp

theorem samePort (hU : U.Lawful) {s : PortSpec} (hs : fromStr item = .ok s)
    (hx : readPortItem U item = .ok x) : SamePort s x := by
  unfold fromStr at hs
  split at hs
  · rename_i p hsplit
    obtain ⟨v,hv,hs⟩ := bind_eq_ok.1 hs
    cases hs
    have hi : p = item := by
      have hj : ['-'].intercalate [p] = item := by rw [← hsplit,intercalate_splitOn]
      simpa [intercalate] using hj
    subst hi
    exact samePort_of_port hU (not_mem_of_mem_splitOn (hsplit ▸ mem_cons_self)) hv hx
  · rename_i a b hsplit
    obtain ⟨v,hv,hs⟩ := bind_eq_ok.1 hs
    obtain ⟨w,hw,hs⟩ := bind_eq_ok.1 hs
    refine samePort_of_range hU hsplit hv hw ?_ hx
    split at hs
    · split at hs
      · cases hs
        exact .inl ⟨_,_,rfl⟩
      · split at hs
        · cases hs
          exact .inr ⟨by assumption,rfl⟩
        · cases hs
    · cases hs
  · cases hs

structure SamePorts (ps : List PortSpec) (qs : List Port) (rs : List (PortRange U)) : Prop where
  none : ps = [] ↔ qs = [] ∧ rs = []
  mem : ∀ v : UInt16, (∃ s ∈ ps, s.contains v = true) ↔
    (∃ q ∈ qs, q.val = v.toNat) ∨ ∃ r ∈ rs, r.first.val ≤ v.toNat ∧ v.toNat ≤ r.last.val

/-- The two readings of the items have the same ports. -/
theorem samePorts (hU : U.Lawful) (hi : ∀ s ∈ items, NoSeparators s) {ps : List PortSpec}
    {qs : List Port} {rs : List (PortRange U)}
    (hps : collect (fun s => .ok (fromStr (trim s))) items = .ok (.ok ps))
    (hqs : readPorts U (items.map strip) = .ok (qs,rs)) : SamePorts ps qs rs := by
  induction items generalizing ps qs rs with
  | nil =>
    cases hps
    cases hqs
    exact ⟨by simp,by simp⟩
  | cons item items ih =>
    obtain ⟨p,hp,hps⟩ := andThen_eq_ok.1 hps
    obtain ⟨ps',hp',hps⟩ := andThen_eq_ok.1 hps
    cases hps
    rw [map_cons] at hqs
    obtain ⟨x,hx,hqs⟩ := bind_eq_ok.1 hqs
    rw [strip_eq_trim (hi item mem_cons_self)] at hx
    have hsa := samePort hU (Except.ok.inj hp) hx
    have hrest : ∀ {qs rs}, readPorts U (items.map strip) = .ok (qs,rs) → SamePorts ps' qs rs :=
      ih (fun s hs => hi s (mem_cons_of_mem _ hs)) hp'
    cases x with
    | inl q =>
      obtain ⟨⟨qs',rs'⟩,hq',hqs⟩ := bind_eq_ok.1 hqs
      cases hqs
      cases p with
      | range => exact hsa.elim
      | port v =>
        have hq : q.val = v.toNat := hsa
        refine ⟨by simp,fun w => ?_⟩
        have hw : (port v).contains w = true ↔ q.val = w.toNat := by
          rw [hq,UInt16.toNat_inj]
          exact beq_iff_eq
        rw [exists_mem_cons_iff,(hrest hq').mem,hw,exists_mem_cons_iff,or_assoc]
        rfl
    | inr r =>
      obtain ⟨⟨qs',rs'⟩,hq',hqs⟩ := bind_eq_ok.1 hqs
      cases hqs
      cases p with
      | port => exact hsa.elim
      | range a b hpo hlt =>
        obtain ⟨hfirst,hl⟩ := hsa
        refine ⟨by simp,fun w => ?_⟩
        have hw : (range a b hpo hlt).contains w = true ↔ r.first.val ≤ w.toNat ∧ w.toNat ≤ r.last.val := by
          rw [hfirst,hl,← UInt16.le_iff_toNat_le,← UInt16.le_iff_toNat_le]
          simp [PortSpec.contains]
        rw [exists_mem_cons_iff,(hrest hq').mem,hw,exists_mem_cons_iff]
        exact or_left_comm

theorem fromStr_of_readProtocol {p : Protocol} (h : readProtocol s = some p) : Protocol.fromStr s = .ok p := by
  unfold readProtocol at h
  split at h
  · rename_i hs
    subst hs
    cases h
    decide
  · split at h
    · rename_i hs
      subst hs
      cases h
      decide
    · split at h
      · rename_i hs
        subst hs
        cases h
        decide
      · cases h

theorem sameProtocols (hi : ∀ s ∈ items, NoSeparators s) {ps qs : List Protocol}
    (hps : collect (fun s => .ok (Protocol.fromStr (trim s))) (items.filter fun s => decide (trim s ≠ [])) =
      .ok (.ok ps))
    (hqs : readProtocols (items.map strip) = .ok qs) : ps = qs := by
  induction items generalizing ps qs with
  | nil =>
    cases hps
    cases hqs
    rfl
  | cons item items ih =>
    have hrest : ∀ s ∈ items, NoSeparators s := fun s hs => hi s (mem_cons_of_mem _ hs)
    rw [map_cons,readProtocols,strip_eq_trim (hi item mem_cons_self)] at hqs
    by_cases he : trim item = []
    · rw [filter_cons_of_neg (by simp [he])] at hps
      rw [if_pos he] at hqs
      exact ih hrest hps hqs
    · rw [filter_cons_of_pos (by simp [he])] at hps
      rw [if_neg he] at hqs
      obtain ⟨p,hp,hps⟩ := andThen_eq_ok.1 hps
      obtain ⟨ps',hp',hps⟩ := andThen_eq_ok.1 hps
      cases hps
      split at hqs
      · cases hqs
      · rename_i q hq
        obtain ⟨qs',hq',hqs⟩ := bind_eq_ok.1 hqs
        cases hqs
        have hpq : p = q := Except.ok.inj ((Except.ok.inj hp).symm.trans (fromStr_of_readProtocol hq))
        rw [hpq,ih hrest hp' hq']

/-- The documented meaning of the network library; networks with host bits are not compared. -/
structure ReadsNetworks (E : Externals) : Prop where
  parts : ∀ {s n}, E.parseNetwork s = some n →
    ∃ a, Ipv4Addr.parse a = some n.addr ∧ (s.splitOn '/' = [a] ∨ ∃ m, s.splitOn '/' = [a,m])
  agrees : ∀ {s n m}, E.parseNetwork s = some n → interface s = some m → n = m
  supernet : ∀ {n o}, Strict n → Strict o → (E.isSupernetOf n o = true ↔ ∀ x, o.Mem x → n.Mem x)

def Same : Net.Zone E → Zone U → Prop
  | .all, z => z = .all
  | .name n, z => z.text = n.text ∧ isDomainName U z.text = .ok true
  | .pattern P, z => z.text = P.pattern ∧ '*' ∈ P.pattern ∧ isDomainName U z.text = .ok true
  | .network n, z => (∃ x, n = ⟨x,32,Ipv4Network.hostLength_le⟩ ∧ z = .address x) ∨ z = .network n

theorem strip_strip (s : Str) : strip (strip s) = strip s := by
  obtain ⟨u,v,hs,hu,hv⟩ := exists_strip s
  conv_rhs => rw [hs,strip_append_right hv,strip_append_left hu]

theorem removesuffix_of_last (hc : t.getLast? = some c) (hne : c ≠ '2') :
    removesuffix "/32" t = t := by
  apply if_neg
  rintro ⟨u,rfl⟩
  rw [getLast?_append_of_ne_nil _ (by decide)] at hc
  cases hc
  exact hne rfl

theorem removesuffix_of_parse {x : Ipv4Addr} (h : parse t = some x) : removesuffix "/32" t = t := by
  apply if_neg
  rintro ⟨u,rfl⟩
  exact absurd (chars_of_parse h '/' (mem_append_right _ (by decide))) (by decide)

theorem parse_of_dotted (ht : t.getLast? = some '.') : parse t = none := by
  rw [Option.eq_none_iff_forall_ne_some]
  intro x hx
  exact last_of_parse hx ht

theorem networkOf_of_dotted {m : Str} (hm : m.getLast? = some '.') (x : Ipv4Addr) : networkOf x m = none := by
  have hnone : prefixOf m = none := by
    have hd : ¬ m.all Char.isDigit = true := fun h =>
      absurd (all_eq_true.1 h '.' (mem_of_getLast? hm)) (by decide)
    rw [prefixOf, if_neg fun h => hd h.2.1, parse_of_dotted hm]
  unfold networkOf
  split
  · rfl
  · rename_i h
    rw [hnone] at h
    cases h

theorem interface_of_dotted (ht : t.getLast? = some '.') : interface t = none := by
  have hj : ['/'].intercalate (t.splitOn '/') = t := intercalate_splitOn '/'
  unfold interface
  split
  · rename_i a hsplit
    rw [hsplit] at hj
    have ha : a = t := by simpa [intercalate] using hj
    rw [ha,parse_of_dotted ht]
    rfl
  · rename_i a m hsplit
    rw [hsplit] at hj
    have hap : a ++ '/' :: m = t := by simpa [intercalate] using hj
    rw [← hap,getLast?_append_of_ne_nil _ (cons_ne_nil _ _)] at ht
    cases m with
    | nil => cases ht
    | cons c m =>
      rw [getLast?_cons_cons] at ht
      rw [Option.bind_eq_none_iff]
      exact fun x _ => networkOf_of_dotted ht x
  · rfl

theorem readItem_of_dotted (ht : t.getLast? = some '.') (hh : '#' ∉ t)
    (hz : readItem U t = .ok (.inr z)) : z.text = t ∧ isDomainName U t = .ok true := by
  unfold readItem at hz
  split at hz
  · cases hz
  rename_i c rest
  have ha : c :: rest ≠ ['*'] := by
    intro h
    rw [h] at ht
    cases ht
  have hc : c ≠ '#' := fun h => hh (h ▸ mem_cons_self)
  rw [if_neg ha, if_neg hc, removesuffix_of_last ht (by decide)] at hz
  obtain ⟨w,hw,hz⟩ := bind_eq_ok.1 hz
  cases hz
  unfold readZone at hw
  rw [parse_of_dotted ht,interface_of_dotted ht] at hw
  simp only at hw
  split at hw
  · cases hw
  · rename_i hd
    cases hw
    exact ⟨rfl,hd⟩
  · split at hw
    · cases hw
    · split at hw <;> cases hw

theorem eq_of_splitOn_singleton (h : t.splitOn c = [a]) : t = a := by
  have hj : [c].intercalate [a] = t := by rw [← h,intercalate_splitOn]
  simpa [intercalate] using hj.symm

theorem eq_of_splitOn_pair {m : Str} (h : t.splitOn c = [a,m]) : t = a ++ c :: m := by
  have hj : [c].intercalate [a,m] = t := by rw [← h,intercalate_splitOn]
  simpa [intercalate] using hj.symm

theorem digit_of_parse {x : Ipv4Addr} (h : parse a = some x) :
    ∃ c rest, a = c :: rest ∧ c.isDigit = true := by
  obtain ⟨o,_,_,_,hsplit,ho,_⟩ := parse_cases h
  obtain ⟨hne,hd⟩ := octet_digits ho
  cases o with
  | nil => exact absurd rfl hne
  | cons c o =>
    have hj : ['.'].intercalate (a.splitOn '.') = a := intercalate_splitOn '.'
    rw [hsplit,intercalate_cons_cons] at hj
    exact ⟨c,_,hj.symm,hd c mem_cons_self⟩

theorem readItem_of_address {x : Ipv4Addr} (ha : parse a = some x)
    (hz : readItem U (a ++ t) = .ok (.inr z)) : readZone U (removesuffix "/32" (a ++ t)) = .ok z := by
  obtain ⟨c,rest,rfl,hc⟩ := digit_of_parse ha
  have hne : ∀ d : Char, d.isDigit = false → c ≠ d := by
    rintro d hd rfl
    rw [hc] at hd
    cases hd
  have hal : c :: (rest ++ t) ≠ ['*'] := fun h => hne '*' (by decide) (cons.inj h).1
  unfold readItem at hz
  simp only [cons_append, if_neg hal, if_neg (hne '#' (by decide))] at hz
  obtain ⟨w,hw,hz⟩ := bind_eq_ok.1 hz
  cases hz
  exact hw

theorem readZone_of_parse {x : Ipv4Addr} (h : parse t = some x) (hz : readZone U t = .ok z) :
    z = .address x := by
  unfold readZone at hz
  rw [h] at hz
  cases hz
  rfl

/-- A network text is an address and a mask; the mask `32` is left out by Python. -/
theorem same_of_network (hU : U.Lawful) (hE : ReadsNetworks E) {n : Ipv4Network} (hn : E.parseNetwork t = some n)
    (hz : readItem U t = .ok (.inr z)) : Same (.network n : Net.Zone E) z := by
  obtain ⟨a,ha,hsplit⟩ := hE.parts hn
  have hh : interface t = some ⟨n.addr,32,le_rfl⟩ → n = ⟨n.addr,32,le_rfl⟩ := hE.agrees hn
  rcases hsplit with hsplit | ⟨m,hsplit⟩
  · have ht := eq_of_splitOn_singleton hsplit
    subst ht
    have hr := readItem_of_address (t := []) ha (by rwa [append_nil])
    rw [append_nil,removesuffix_of_parse ha] at hr
    refine .inl ⟨n.addr,hh ?_,readZone_of_parse ha hr⟩
    rw [interface,hsplit]
    simp only [ha]
    rfl
  · have ht := eq_of_splitOn_pair hsplit
    subst ht
    have hr := readItem_of_address ha hz
    by_cases hs : "/32" <:+ a ++ '/' :: m
    · obtain ⟨u,hu⟩ := hs
      have hp : u.splitOn '/' ++ ["32".toList] = [a,m] := by
        rw [← hsplit,← hu]
        exact (splitOn_append_cons_self u "32").symm
      have hm : "32" = m := by
        have hl := congrArg getLast? hp
        rw [getLast?_concat] at hl
        exact Option.some.inj hl
      subst hm
      have hke : removesuffix "/32" (a ++ '/' :: "32") = a := by
        rw [removesuffix,if_pos ⟨a,rfl⟩]
        simp
      rw [hke] at hr
      refine .inl ⟨n.addr,hh ?_,readZone_of_parse ha hr⟩
      rw [interface,hsplit]
      have hdi : "32" = Nat.toDigits 10 32 := by decide
      simp only [ha,Option.bind_some,hdi]
      exact networkOf_toDigits ⟨n.addr,32,le_rfl⟩
    · have hsl : '/' ∈ a ++ '/' :: m := by simp
      have hnone : parse (a ++ '/' :: m) = none := by
        rw [Option.eq_none_iff_forall_ne_some]
        intro x hx
        exact absurd (chars_of_parse hx _ hsl) (by decide)
      rw [removesuffix,if_neg hs] at hr
      unfold readZone at hr
      rw [hnone] at hr
      simp only at hr
      split at hr
      · rename_i k hk
        cases hr
        exact .inr (congrArg Zone.network (hE.agrees hn hk).symm)
      · split at hr
        · cases hr
        · rename_i hd
          exact absurd ((domainText_of_isDomainName hU hd).plain _ hsl) (by decide)
        · split at hr
          · cases hr
          · split at hr <;> cases hr

theorem same_of_read (hU : U.Lawful) (hE : ReadsNetworks E) (htr : trim t = t) (hh : '#' ∉ t) {s : Net.Zone E}
    (hs : Net.Zone.fromStr E t = .ok s) (hz : readItem U t = .ok (.inr z)) : Same s z := by
  unfold Net.Zone.fromStr at hs
  rw [htr] at hs
  split at hs
  · rename_i ha
    cases hs
    subst ha
    cases hz
    rfl
  · split at hs
    · rename_i n hn
      cases hs
      rw [Name.new_eq_ok] at hn
      subst hn
      obtain ⟨ht,hd⟩ := readItem_of_dotted n.dotted hh hz
      exact ⟨ht,ht ▸ hd⟩
    · rename_i e hname
      split at hs
      · rename_i P hP
        cases hs
        rw [Pattern.new_eq_ok] at hP
        subst hP
        obtain ⟨ht,hd⟩ := readItem_of_dotted P.dotted hh hz
        refine ⟨ht,?_,ht ▸ hd⟩
        by_contra hst
        have hok : Name.new P.pattern = .ok ⟨P.pattern,P.dotted,hst⟩ := Name.new_eq_ok.2 rfl
        rw [hok] at hname
        cases hname
      · split at hs
        · rename_i n hn
          cases hs
          exact same_of_network hU hE hn hz
        · split at hs
          · rename_i x hx
            cases hs
            have hr := readItem_of_address (t := []) hx (by rwa [append_nil])
            rw [append_nil,removesuffix_of_parse hx] at hr
            exact .inl ⟨x,rfl,readZone_of_parse hx hr⟩
          · cases hs

theorem hash_not_mem_format (h : interfaceFormat s = true) : s ≠ [] ∧ '#' ∉ s := by
  cases s with
  | nil => cases h
  | cons c s =>
    obtain ⟨hc,hs⟩ := Bool.and_eq_true_iff.1 h
    refine ⟨cons_ne_nil c s,fun hmem => ?_⟩
    rcases mem_cons.1 hmem with rfl | hmem
    · cases hc
    · exact absurd (all_eq_true.1 hs _ hmem) (by decide)

theorem trim_of_interfaceOf (hh : '#' ∈ trim s) {i : NetworkInterface} (h : interfaceOf s = .ok (.ok i)) :
    trim s = '#' :: i.text := by
  unfold interfaceOf at h
  split at h
  · cases h
  · rename_i c rest ht
    split at h
    · have hrest : i.text = rest := by
        unfold NetworkInterface.fromStr at h
        split at h
        · split at h
          · cases h
            rfl
          · cases h
        · cases h
      rw [ht] at hh
      rcases mem_cons.1 hh with rfl | hmem
      · rw [ht,hrest]
      · exact absurd (hrest ▸ hmem) (hash_not_mem_format i.format).2
    · cases h

/-- What Python makes of the interfaces of the web proxy: the only one, after none that has a name. -/
def SameIface (is : List NetworkInterface) (before after : Option Iface) : Prop :=
  (is = [] ∧ after = before) ∨
    ∃ i, is = [i] ∧ after.map Iface.text = some i.text ∧ before.any (fun j => decide (j.text ≠ [])) = false

theorem mem_trim_iff (h : NoSeparators s) (hc : isSpace c = false) : c ∈ trim s ↔ c ∈ s := by
  rw [← strip_eq_trim h]
  obtain ⟨u,v,hs,hu,hv⟩ := exists_strip s
  have ho : ∀ {w : Str}, (∀ x ∈ w, isSpace x = true) → c ∉ w := by
    intro w hw hmem
    rw [hw c hmem] at hc
    cases hc
  conv_rhs => rw [hs]
  simp [ho hu,ho hv]

theorem readItem_iface {x : Iface ⊕ Zone U} (h : readItem U ('#' :: t) = .ok x) : ∃ hs, x = .inl ⟨t,hs⟩ := by
  have ha : '#' :: t ≠ ['*'] := by simp
  unfold readItem at h
  simp only [if_neg ha,reduceIte] at h
  split at h
  · cases h
    exact ⟨_,rfl⟩
  · cases h

theorem readItem_zone (hh : '#' ∉ t) {x : Iface ⊕ Zone U} (h : readItem U t = .ok x) : ∃ z, x = .inr z := by
  unfold readItem at h
  split at h
  · cases h
  rename_i c rest
  split at h
  · cases h
    exact ⟨_,rfl⟩
  · have hc : c ≠ '#' := fun hc => hh (hc ▸ mem_cons_self)
    rw [if_neg hc] at h
    obtain ⟨z,_,h⟩ := bind_eq_ok.1 h
    cases h
    exact ⟨z,rfl⟩

/-- Zone by zone, the two readings of the items agree. -/
theorem same_zones (hU : U.Lawful) (hE : ReadsNetworks E) (hite : ∀ s ∈ items, NoSeparators s)
    {before after : Option Iface} (hss : collect (fun s => .ok (Net.Zone.fromStr E (trim s)))
      (items.filter fun s => !s.isEmpty && !Text.contains ['#'] s) = .ok (.ok ss))
    (his : collect interfaceOf (items.filter (Text.contains ['#'])) = .ok (.ok is))
    (hzs : readZones U before (items.map strip) = .ok (after,zs)) :
    List.Forall₂ Same ss zs ∧ SameIface is before after := by
  induction items generalizing before ss zs is with
  | nil =>
    cases hss
    cases his
    cases hzs
    exact ⟨.nil,.inl ⟨rfl,rfl⟩⟩
  | cons item items ih =>
    have hrest : ∀ s ∈ items, NoSeparators s := fun s hs => hite s (mem_cons_of_mem _ hs)
    have hit := hite item mem_cons_self
    rw [map_cons] at hzs
    obtain ⟨x,hx,hzs⟩ := bind_eq_ok.1 hzs
    by_cases hh : '#' ∈ item
    · have hco := contains_singleton.2 hh
      rw [filter_cons_of_neg (by simp [hco])] at hss
      rw [filter_cons_of_pos hco] at his
      obtain ⟨i,hi,his⟩ := andThen_eq_ok.1 his
      obtain ⟨is',hi',his⟩ := andThen_eq_ok.1 his
      cases his
      rw [strip_eq_trim hit, trim_of_interfaceOf ((mem_trim_iff hit (by decide)).2 hh) hi] at hx
      obtain ⟨hsh,rfl⟩ := readItem_iface hx
      simp only at hzs
      split at hzs
      · cases hzs
      · rename_i hb
        obtain ⟨hzones,hif⟩ := ih hrest hss hi' hzs
        rcases hif with ⟨rfl,rfl⟩ | ⟨_,_,_,hnone⟩
        · exact ⟨hzones,.inr ⟨i,rfl,rfl,Bool.eq_false_iff.2 hb⟩⟩
        · simp [(hash_not_mem_format i.format).1] at hnone
    · have hco : Text.contains ['#'] item = false := Bool.eq_false_iff.2 (mt contains_singleton.1 hh)
      have hne : item ≠ [] := by
        rintro rfl
        cases hx
      rw [filter_cons_of_pos (by simp [hco,hne])] at hss
      rw [filter_cons_of_neg (by simp [hco])] at his
      obtain ⟨s,hs,hss⟩ := andThen_eq_ok.1 hss
      obtain ⟨ss',hs',hss⟩ := andThen_eq_ok.1 hss
      cases hss
      rw [strip_eq_trim hit] at hx
      have ht : trim (trim item) = trim item := by
        have hk : NoSeparators (trim item) := by
          rw [← strip_eq_trim hit]
          exact hit.of_subset fun c hc => (dropWhile_sublist _).subset ( rdropWhile_prefix _ _ |>.subset hc)
        rw [← strip_eq_trim hk,← strip_eq_trim hit,strip_strip]
      have hh' : '#' ∉ trim item := mt (mem_trim_iff hit (by decide)).1 hh
      obtain ⟨z,rfl⟩ := readItem_zone hh' hx
      obtain ⟨⟨after',zs'⟩,hz',hzs⟩ := bind_eq_ok.1 hzs
      cases hzs
      obtain ⟨hzones,hif⟩ := ih hrest hs' his hz'
      exact ⟨.cons (same_of_read hU hE ht hh' (Except.ok.inj hs) hx) hzones,hif⟩

structure SameEndpoint (e : EndPoint E) (p : Endpoint U) : Prop where
  iface : e.interfaces.map NetworkInterface.text = p.iface.toList.map Iface.text
  protocols : e.protocols = p.protocols
  ports : SamePorts e.ports p.ports p.portRanges
  everywhere : .all ∈ e.zones ↔ p.Everywhere
  zones : .all ∉ e.zones → List.Forall₂ Same e.zones p.zones

theorem same_all {s : Net.Zone E} (h : Same s (.all : Zone U)) : s = .all := by
  cases s with
  | all => rfl
  | name n => cases h.2
  | pattern P => cases h.2.2
  | network n =>
    rcases h with ⟨x,_,hx⟩ | hn
    · exact absurd hx.symm (Zone.address_ne_all x)
    · exact absurd hn.symm (Zone.network_ne_all n)

theorem all_mem_iff (h : List.Forall₂ Same ss zs) : .all ∈ ss ↔ .all ∈ zs := by
  induction h with
  | nil => simp
  | @cons s z ss zs hs _ ih =>
    have hh : Net.Zone.all = s ↔ .all = z := by
      constructor
      · rintro rfl
        exact Eq.symm hs
      · rintro rfl
        exact (same_all hs).symm
    rw [mem_cons,mem_cons,hh,ih]

theorem all_mem_adjustZones : .all ∈ adjustZones ss ↔ ss = [] ∨ .all ∈ ss := by
  unfold adjustZones
  split
  · rename_i h
    simpa using h
  · rename_i h
    simp [(not_or.1 h).1]

theorem SameIface.texts {i : Option Iface} (h : SameIface is none i) :
    is.map NetworkInterface.text = i.toList.map Iface.text := by
  rcases h with ⟨rfl,rfl⟩ | ⟨j,rfl,hj,_⟩
  · rfl
  · obtain ⟨k,rfl,hk⟩ := Option.map_eq_some_iff.1 hj
    simp [hk]

theorem sameEndpoint_ofParts (hzones : List.Forall₂ Same ss zs)
    {i : Option Iface} (hi : SameIface is none i) {ps : List PortSpec} {qs : List Port}
    {rs : List (PortRange U)} (hp : SamePorts ps qs rs) (protocols : List Protocol) :
    SameEndpoint ⟨adjustZones ss,is,protocols,ps,adjustZones_adjustZones ss⟩ (.ofParts zs i protocols qs rs) := by
  have he : ss = [] ↔ zs = [] := by
    cases hzones with
    | nil => simp
    | cons => simp
  have hs : .all ∉ adjustZones ss → adjustZones ss = ss := fun h => if_neg (mt all_mem_adjustZones.2 h)
  unfold Endpoint.ofParts
  split
  · rename_i hnone
    have ha : .all ∈ adjustZones ss := all_mem_adjustZones.2 (.inl (he.2 hnone.1))
    exact ⟨hi.texts,rfl,hp,iff_of_true ha (.inr mem_cons_self),fun h => absurd ha h⟩
  · refine ⟨hi.texts,rfl,hp,?_,fun h => ?_⟩
    · rw [all_mem_adjustZones,he,all_mem_iff hzones]
      rfl
    · have hse : List.Forall₂ Same (adjustZones ss) zs := (hs h).symm ▸ hzones
      exact hse

theorem NoSeparators.splitOn (h : NoSeparators s) (c : Char) : ∀ p ∈ s.splitOn c, NoSeparators p :=
  fun _ hp => h.of_subset fun _ hx => mem_of_mem_splitOn hp hx
theorem NoSeparators.strip (h : NoSeparators s) : NoSeparators (strip s) :=
  h.of_subset fun _ hc => (dropWhile_sublist _).subset (( rdropWhile_prefix _ _).subset hc)

theorem new_cases {z : Str} {protocols ports : Option Str} {p : Endpoint U}
    (h : Endpoint.new U (some z) protocols ports = .ok p) :
    ∃ ps i zs qs rs, analyseProtocolSpec protocols = .ok ps ∧
      readZones U none ((z.splitOn ',').map strip) = .ok (i,zs) ∧
      analysePortSpec U ports = .ok (qs,rs) ∧ p = .ofParts zs i ps qs rs := by
  obtain ⟨ps,hps,h⟩ := bind_eq_ok.1 h
  obtain ⟨⟨i,zs⟩,hzs,h⟩ := bind_eq_ok.1 h
  obtain ⟨⟨qs,rs⟩,hqs,h⟩ := bind_eq_ok.1 h
  cases h
  rw [itemsOf,map_strip_splitOn] at hzs
  exact ⟨ps,i,zs,qs,rs,hps,hzs,hqs,rfl⟩

theorem ofParts_cases {parts : List Str} {e : EndPoint E} (h : EndPoint.ofParts E parts = .ok (.ok e)) :
    ∃ ss is ps qs, zonesOf E (parts.headD []) = .ok (.ok ss) ∧ interfacesOf (parts.headD []) = .ok (.ok is) ∧
      protocolsOf parts = .ok (.ok ps) ∧ portsOf parts = .ok (.ok qs) ∧
      e = ⟨adjustZones ss,is,ps,qs,adjustZones_adjustZones ss⟩ := by
  unfold EndPoint.ofParts at h
  split at h
  · cases h
  · obtain ⟨ss,hss,h⟩ := andThen_eq_ok.1 h
    obtain ⟨is,his,h⟩ := andThen_eq_ok.1 h
    obtain ⟨ps,hps,h⟩ := andThen_eq_ok.1 h
    obtain ⟨qs,hqs,h⟩ := andThen_eq_ok.1 h
    cases h
    exact ⟨ss,is,ps,qs,hss,his,hps,hqs,rfl⟩

/-- A text that both libraries accept gives them the same endpoint. -/
theorem sameEndpoint_of_read (hU : U.Lawful) (hE : ReadsNetworks E) (hc : NoSeparators s) {e : EndPoint E}
    {p : Endpoint U} (he : EndPoint.new E s = .ok (.ok e)) (hp : Endpoint.fromRepr U s none = .ok p) :
    SameEndpoint e p := by
  unfold EndPoint.new at he
  unfold Endpoint.fromRepr at hp
  rw [← strip_eq_trim hc] at he
  split at hp
  · cases hp
  have hpa : ∀ q ∈ (strip s).splitOn '^', NoSeparators q := hc.strip.splitOn '^'
  generalize (strip s).splitOn '^' = parts at he hp hpa
  obtain ⟨ss,is,ps,qs,hss,his,hps,hqs,rfl⟩ := ofParts_cases he
  have hfirst : ∀ {z i zs}, parts.headD [] = z → NoSeparators z →
    readZones U none ((z.splitOn ',').map strip) = .ok (i,zs) →
      List.Forall₂ Same ss zs ∧ SameIface is none i := by
    rintro z i zs rfl hz hzs
    exact same_zones hU hE (hz.splitOn ',') hss his hzs
  have hpo : SamePorts [] [] ([] : List (PortRange U)) := ⟨by simp,by simp⟩
  rcases parts with _ | ⟨z,_ | ⟨pr,_ | ⟨po,_ | ⟨x,rest⟩⟩⟩⟩
  · cases hp
  · obtain ⟨ps',i,zs,qs',rs',hp',hzs,hq',rfl⟩ := new_cases hp
    obtain ⟨hzones,hi⟩ := hfirst rfl (hpa z (by simp)) hzs
    cases hps
    cases hqs
    cases hp'
    cases hq'
    exact sameEndpoint_ofParts hzones hi hpo []
  · obtain ⟨ps',i,zs,qs',rs',hp',hzs,hq',rfl⟩ := new_cases hp
    obtain ⟨hzones,hi⟩ := hfirst rfl (hpa z (by simp)) hzs
    cases hqs
    cases hq'
    rw [analyseProtocolSpec,itemsOf,map_strip_splitOn] at hp'
    have hpr := sameProtocols ((hpa pr (by simp)).splitOn ',') hps hp'
    exact hpr ▸ sameEndpoint_ofParts hzones hi hpo ps
  · obtain ⟨ps',i,zs,qs',rs',hp',hzs,hq',rfl⟩ := new_cases hp
    obtain ⟨hzones,hi⟩ := hfirst rfl (hpa z (by simp)) hzs
    rw [analyseProtocolSpec,itemsOf,map_strip_splitOn] at hp'
    rw [analysePortSpec,itemsOf,map_strip_splitOn] at hq'
    have hpr := sameProtocols ((hpa pr (by simp)).splitOn ',') hps hp'
    have hpo' := samePorts hU ((hpa po (by simp)).splitOn ',') hqs hq'
    exact hpr ▸ sameEndpoint_ofParts hzones hi hpo' ps
  · cases hp

end Padsi.Fw
