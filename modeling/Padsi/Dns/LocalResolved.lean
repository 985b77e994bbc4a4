import Padsi.Dns.Restriction

/-! # Local answers

`padsi-dns-server` sends the addresses of the local answers to `padsi-dns-fw`. Nothing
is sent when there is no local answer.
-/
namespace Padsi.Dns
open Text Net Python Fw List NetFlow Ipv4Addr Prod Netfilter

variable {U : Unicode} {σ : Type}

def ResolvEntry.answers (entry : ResolvEntry) : List (Ipv4Addr × Option Str) :=
  (entry.reply.getD []).map fun reply => (reply.address,entry.spec)

def localAnswers : List ResolvEntry → List (Ipv4Addr × Option Str)
  | [] => []
  | entry :: entries =>
    match entry.query.bind getLast? with
    | none => []
    | some c => (if c = '.' then entry.answers else []) ++ localAnswers entries

def addAnswer (d : Dict Ipv4Addr (List Str)) (answer : Ipv4Addr × Option Str) : Dict Ipv4Addr (List Str) :=
  d.set answer.1 ((d.get answer.1).getD [] ++ answer.2.toList)
def localResolv (entries : List ResolvEntry) : Dict Ipv4Addr (List Str) := (localAnswers entries).foldl addAnswer .empty
def resolvedFields (d : Dict Ipv4Addr (List Str)) : List (Str × Json) :=
  d.entries.map fun e => (e.1.text,.arr (e.2.map Json.str))
def localCommand (d : Dict Ipv4Addr (List Str)) : Json := .obj [("local-resolved",.obj (resolvedFields d))]
def reconfigureServer (nf : Netfilter U σ) (srv : Server U) (s : State U σ) (file : ℤ × List ResolvEntry) : State U σ :=
  if (localResolv file.2).entries.length > 0 then
    (handleCommand nf srv file.1 (localCommand (localResolv file.2)) s).1 else s
def reconfigurations (nf : Netfilter U σ) (srv : Server U) (s : State U σ)
    (files : List (ℤ × List ResolvEntry)) : State U σ :=
  files.foldl (reconfigureServer nf srv) s
def answerSpecs (entries : List ResolvEntry) (ip : Ipv4Addr) : List Str :=
  (localAnswers entries).filterMap fun answer => if answer.1 = ip then answer.2 else none

theorem get_foldl_addAnswer (answers : List (Ipv4Addr × Option Str)) (ip : Ipv4Addr) :
    (answers.foldl addAnswer .empty).get ip =
      if ip ∈ answers.map fst then some (answers.filterMap fun answer => if answer.1 = ip then answer.2
        else none) else none := by
  induction answers using reverseRecOn with
  | nil => rfl
  | append_singleton answers answer ih =>
    rw [foldl_append,foldl_cons,foldl_nil,addAnswer,Dict.get_set,filterMap_append]
    by_cases hip : ip = answer.1
    · subst hip
      rw [ih]
      by_cases hmem : answer.1 ∈ answers.map fst
      · cases h : answer.2 <;> simp [if_pos hmem,h]
      · have hnone : answers.filterMap (fun a => if a.1 = answer.1 then a.2 else none) = [] := by
          refine filterMap_eq_nil_iff.2 fun a ha => if_neg fun heq => hmem ?_
          exact heq ▸ mem_map_of_mem ha
        cases h : answer.2 <;> simp [if_neg hmem,h,hnone]
    · have hne : ¬ answer.1 = ip := fun h => hip h.symm
      have hmem : ip ∈ (answers ++ [answer]).map fst ↔ ip ∈ answers.map fst := by simp [hip]
      simp only [if_neg hip,ih,hmem,filterMap_cons,hne,if_false,filterMap_nil,append_nil]

variable {entries : List ResolvEntry} {ip : Ipv4Addr} {f : NetFlow U} {s : State U (List (NetFlow U))}
  {file : ℤ × List ResolvEntry}
  {opened : List (NetFlow U)} {files : List (ℤ × List ResolvEntry)}

theorem mem_localResolv {specs : List Str} :
    (ip,specs) ∈ (localResolv entries).entries ↔
      ip ∈ (localAnswers entries).map fst ∧ specs = answerSpecs entries ip := by
  rw [Dict.mem_entries_iff,localResolv,get_foldl_addAnswer]
  split
  · rename_i hmem
    simp [hmem,answerSpecs,eq_comm]
  · rename_i hmem
    simp [hmem]

theorem localResolv_length_pos_iff (entries : List ResolvEntry) :
    (localResolv entries).entries.length > 0 ↔ localAnswers entries ≠ [] := by
  rw [gt_iff_lt,length_pos_iff_exists_mem]
  constructor
  · rintro ⟨⟨ip,specs⟩,he⟩ hn
    have hmem := (mem_localResolv.1 he).1
    rw [hn] at hmem
    cases hmem
  · intro hne
    obtain ⟨answer,ha⟩ := exists_mem_of_ne_nil _ hne
    exact ⟨_,mem_localResolv.2 ⟨mem_map_of_mem ha,rfl⟩⟩

theorem readItem_address (ip : Ipv4Addr) : readItem U ip.text = .ok (.inr (.address ip)) := by
  obtain ⟨c,rest,ht,hc⟩ := digit_of_parse (parse_text ip)
  have hne : ∀ d : Char, d.isDigit = false → c ≠ d := by
    rintro d hd rfl
    rw [hc] at hd
    cases hd
  have ha : c :: rest ≠ ['*'] := fun h => hne '*' (by decide) (cons.inj h).1
  have hzone : readZone U (c :: rest) = .ok (.address ip) := by
    rw [readZone,← ht,parse_text]
  have hs : removesuffix "/32" (c :: rest) = c :: rest := by
    rw [← ht]
    exact removesuffix_of_parse (parse_text ip)
  rw [ht, readItem, if_neg ha, if_neg (hne '#' (by decide)), hs, hzone]
  rfl

theorem not_mem_addressText {d : Char} (hd : d.isDigit = false) (hdo : d ≠ '.') (ip : Ipv4Addr) : d ∉ ip.text := by
  intro hmem
  rcases chars_of_parse (parse_text ip) d hmem with h | h
  · rw [hd] at h
    cases h
  · exact hdo h

theorem addressText_solid (ip : Ipv4Addr) : ∀ c ∈ ip.text, isSpace c = false := by
  intro c hc
  rcases chars_of_parse (parse_text ip) c hc with h | rfl
  · exact isSpace_of_digit h
  · decide

theorem readZones_address (ip : Ipv4Addr) {blank : Str} (hb : ∀ c ∈ blank, isSpace c = true) :
    readZones U none (((ip.text ++ blank).splitOn ',').map strip) = .ok (none,[.address ip]) := by
  have hc : ',' ∉ ip.text ++ blank := by
    intro hmem
    rcases mem_append.1 hmem with hmem | hmem
    · exact not_mem_addressText (by decide) (by decide) ip hmem
    · exact absurd (hb _ hmem) (by decide)
  rw [splitOn_eq_singleton hc,map_singleton,strip_append_right hb,strip_of_solid (addressText_solid ip),readZones,
    readItem_address]
  rfl

structure ToAddress (ip : Ipv4Addr) (f : NetFlow U) : Prop where
  src : f.src = .unspecified
  zones : f.dest.zones = [.address ip]

theorem zones_ofParts (z : Zone U) (i : Option Iface) (ps : List Protocol) (qs : List Port) (rs : List (PortRange U)) :
    (Endpoint.ofParts [z] i ps qs rs).zones = [z] := by
  rw [Endpoint.ofParts, dif_neg (by simp)]

theorem zones_of_new {blank : Str} (hb : ∀ c ∈ blank, isSpace c = true) {protocols ports : Option Str}
    {e : Endpoint U} (h : Endpoint.new U (some (ip.text ++ blank)) protocols ports = .ok e) :
    e.zones = [.address ip] := by
  obtain ⟨ps,i,zs,qs,rs,_,hzs,_,rfl⟩ := new_cases h
  rw [readZones_address ip hb] at hzs
  cases hzs
  exact zones_ofParts _ _ _ _ _

theorem fromRepr_address (ip : Ipv4Addr) :
    Endpoint.fromRepr U ip.text none = .ok (.ofParts [.address ip] none [] [] []) := by
  have hne : ip.text ≠ [] := by
    obtain ⟨c,rest,ht,_⟩ := digit_of_parse (parse_text ip)
    rw [ht]
    exact cons_ne_nil c rest
  have hzones : readZones U none (((ip.text ++ []).splitOn ',').map strip) = .ok (none,[.address ip]) :=
    readZones_address ip nofun
  rw [append_nil] at hzones
  rw [Endpoint.fromRepr, strip_of_solid (addressText_solid ip), if_neg hne,
    splitOn_eq_singleton (not_mem_addressText (by decide) (by decide) ip)]
  exact new_of_parts rfl hzones rfl

theorem zones_of_fromRepr {spec : Str} {e : Endpoint U}
    (h : Endpoint.fromRepr U (ip.text ++ " ^ " ++ spec) none = .ok e) : e.zones = [.address ip] := by
  obtain ⟨c,rest,ht,hc⟩ := digit_of_parse (parse_text ip)
  have hb : ∀ c ∈ [' '], isSpace c = true := by
    intro c hc
    rw [mem_singleton.1 hc]
    decide
  have he : ip.text ++ " ^ " ++ spec = c :: (rest ++ [' ']) ++ '^' :: ' ' :: spec := by simp [ht]
  have hzone : c :: (rest ++ [' ']) = ip.text ++ [' '] := by rw [ht,cons_append]
  have hca : '^' ∉ c :: (rest ++ [' ']) := by
    rw [hzone,mem_append,not_or]
    exact ⟨not_mem_addressText (by decide) (by decide) ip,by decide⟩
  rw [he,fromRepr_caret (isSpace_of_digit hc) hca,hzone] at h
  -- the zone is the first part, whatever the number of parts
  generalize ((' ' :: spec).rdropWhile isSpace).splitOn '^' = parts at h
  rcases parts with _ | ⟨p,_ | ⟨q,_ | ⟨x,parts⟩⟩⟩
  · exact zones_of_new hb h
  · exact zones_of_new hb h
  · exact zones_of_new hb h
  · cases h

theorem toAddress_of_localFlow {w : Json} (h : localFlow U ip w = .ok f) : ToAddress ip f := by
  obtain ⟨dest,hd,hn⟩ := bind_eq_ok.1 h
  obtain ⟨_,_,hf⟩ := bind_eq_ok.1 hn
  cases hf
  refine ⟨rfl,?_⟩
  cases w with
  | null =>
    rw [fromRepr_address] at hd
    cases hd
    exact zones_ofParts _ _ _ _ _
  | bool _ | num _ | str _ | arr _ | obj _ => exact zones_of_fromRepr hd

theorem ToAddress.protocols (h : ToAddress ip f) : f.protocols = .ok f.dest.protocols := by
  have hs : f.src.protocols = [] := by rw [h.src]; rfl
  refine bind_eq_ok.2 ⟨(),if_neg fun hne => hne.1 hs,?_⟩
  rw [if_neg fun hne => hne hs]
  rfl

theorem ToAddress.same_self (h : ToAddress ip f) : f.same f = true :=
  same_iff.2 ⟨_,h.protocols,h.protocols,Endpoint.isEqualTo_refl _,Endpoint.isEqualTo_refl _⟩

theorem ToAddress.eq_of_same {ip' : Ipv4Addr} {g : NetFlow U} (hf : ToAddress ip f) (hg : ToAddress ip' g)
    (h : f.same g = true) : ip = ip' := by
  obtain ⟨_,_,_,_,hd⟩ := same_iff.1 h
  have hp := (Endpoint.isEqualTo_iff.1 hd).2.1
  rw [hf.zones,hg.zones,singleton_perm_singleton] at hp
  exact Zone.address_injective hp

def Netfilter.ideal : Netfilter U (List (NetFlow U)) where
  allow t f opened := (if t = .filterForward then opened ++ [f] else opened,.ok ())
  delete t f opened := (if t = .filterForward then without NetFlow.same opened [f] else opened,.ok ())

theorem anyOf_isEqualTo {known : List (NetFlow U)} (hk : ∀ g ∈ known, g.same g = true) (hf : f.same f = true) :
    anyOf (fun g => isEqualTo g f) known = .ok (known.any fun g => g.same f) := by
  induction known with
  | nil => rfl
  | cons g known ih =>
    obtain ⟨hg,hrest⟩ := forall_mem_cons.1 hk
    obtain ⟨b,hb⟩ : ∃ b, g.isEqualTo f = .ok b := by
      obtain ⟨ps,hps,_⟩ := same_iff.1 hg
      obtain ⟨qs,hqs,_⟩ := same_iff.1 hf
      unfold isEqualTo
      rw [hps,hqs]
      by_cases heq : ps = qs
      · exact ⟨_,if_neg (not_not.2 heq)⟩
      · exact ⟨_,if_pos heq⟩
    have hs : g.same f = b := by rw [same,hb]
    rw [anyOf,any_cons,hs,hb]
    cases b with
    | false => exact ih hrest
    | true => rfl

theorem absentFrom_eq {known flows : List (NetFlow U)} (hk : ∀ g ∈ known, g.same g = true)
    (hfl : ∀ f ∈ flows, f.same f = true) : absentFrom known flows = .ok (without same flows known) := by
  induction flows with
  | nil => rfl
  | cons f flows ih =>
    obtain ⟨hf,hrest⟩ := forall_mem_cons.1 hfl
    have hr := ih hrest
    unfold absentFrom without at hr ⊢
    rw [collectSome,anyOf_isEqualTo hk hf,hr,filter_cons]
    cases known.any fun g => g.same f <;> rfl

theorem each_allow (flows : List (NetFlow U)) (s : State U (List (NetFlow U))) :
    each (fun f s => s.call (ideal.allow .filterForward f)) flows s =
      ({ s with netfilter := s.netfilter ++ flows },.ok ()) := by
  induction flows generalizing s with
  | nil => simp [each]
  | cons f flows ih =>
    rw [each]
    refine (ih _).trans ?_
    simp [ideal]

theorem each_delete (flows : List (NetFlow U)) (s : State U (List (NetFlow U))) :
    each (fun f s => s.call (ideal.delete .filterForward f)) flows s =
      ({ s with netfilter := without same s.netfilter flows },.ok ()) := by
  induction flows generalizing s with
  | nil => simp [each,without]
  | cons f flows ih =>
    rw [each]
    refine (ih _).trans ?_
    simp [ideal,without,filter_filter,Bool.and_comm]

structure Records (s : State U (List (NetFlow U))) : Prop where
  among : ∀ f, Among NetFlow.same s.netfilter f ↔ Among NetFlow.same s.localResolved f
  opened : ∀ f ∈ s.netfilter, f.same f = true
  known : ∀ f ∈ s.localResolved, f.same f = true

theorem records_start : Records (State.start [] : State U (List (NetFlow U))) := ⟨fun _ => .rfl,nofun,nofun⟩

theorem mem_localFlows {specs : List Json} (h : f ∈ localFlows U ip specs) :
    ∃ spec ∈ specs, localFlow U ip spec = .ok f := by
  induction specs with
  | nil => cases h
  | cons spec specs ih =>
    rw [localFlows] at h
    cases hfl : localFlow U ip spec with
    | error e =>
      rw [hfl] at h
      cases h
    | ok g =>
      rw [hfl] at h
      rcases mem_cons.1 h with rfl | h
      · exact ⟨spec,mem_cons_self,hfl⟩
      · obtain ⟨spec',hs',hf⟩ := ih h
        exact ⟨spec',mem_cons_of_mem _ hs',hf⟩

theorem mem_localFlows_of_readable {specs : List Json} (h : ∀ spec ∈ specs, ∃ f, localFlow U ip spec = .ok f)
    {spec : Json} (hs : spec ∈ specs) (hf : localFlow U ip spec = .ok f) : f ∈ localFlows U ip specs := by
  induction specs with
  | nil => cases hs
  | cons spec' specs ih =>
    obtain ⟨⟨g,hg⟩,hrest⟩ := forall_mem_cons.1 h
    rw [localFlows,hg]
    rcases mem_cons.1 hs with rfl | hs
    · rw [hg] at hf
      cases hf
      exact mem_cons_self
    · exact mem_cons_of_mem _ (ih hrest hs)

theorem mem_newResolved : f ∈ newResolved U (resolvedFields (localResolv entries)) ↔
    ∃ ip ∈ (localAnswers entries).map fst, f ∈ localFlows U ip ((answerSpecs entries ip).map Json.str) := by
  have hfi : newResolved U (resolvedFields (localResolv entries)) =
      (localResolv entries).entries.flatMap fun e => localFlows U e.1 (e.2.map Json.str) := by
    rw [newResolved,resolvedFields,flatMap_map]
    refine flatMap_congr fun e _ => ?_
    simp only [parse_text]
    rfl
  rw [hfi,mem_flatMap]
  constructor
  · rintro ⟨⟨ip,specs⟩,he,hf⟩
    obtain ⟨hip,rfl⟩ := mem_localResolv.1 he
    exact ⟨ip,hip,hf⟩
  · rintro ⟨ip,hip,hf⟩
    exact ⟨(ip,_),mem_localResolv.2 ⟨hip,rfl⟩,hf⟩

theorem same_of_newResolved (entries : List ResolvEntry) :
    ∀ f ∈ newResolved U (resolvedFields (localResolv entries)), f.same f = true := by
  intro f hf
  obtain ⟨ip,_,hf⟩ := mem_newResolved.1 hf
  obtain ⟨_,_,hfl⟩ := mem_localFlows hf
  exact (toAddress_of_localFlow hfl).same_self

theorem handleCommand_local (nf : Netfilter U σ) (srv : Server U) (now : ℤ) (d : Dict Ipv4Addr (List Str))
    (s : State U σ) :
    handleCommand nf srv now (localCommand d) s = handleLocalResolved nf (.obj (resolvedFields d)) s := rfl

theorem handleLocalResolved_ideal (hs : Records s) {fields : List (Str × Json)}
    (hn : ∀ f ∈ newResolved U fields, f.same f = true) :
    (handleLocalResolved .ideal (.obj fields) s).1 =
      { s with
        netfilter := without same (s.netfilter ++ without same (newResolved U fields) s.localResolved)
          (without same s.localResolved (newResolved U fields))
        localResolved := newResolved U fields } := by
  unfold handleLocalResolved
  simp only [absentFrom_eq hs.known hn,given,each_allow,andThen,absentFrom_eq hn hs.known,each_delete]

theorem Records.update (hs : Records s) {new : List (NetFlow U)} (hn : ∀ f ∈ new, f.same f = true) :
    Records { s with
      netfilter := without same (s.netfilter ++ without same new s.localResolved) (without same s.localResolved new)
      localResolved := new } where
  among f := among_update (r := same) (fun _ _ h => same_symm h) (fun _ _ _ h h' => same_trans h h') hs.among f
  opened := by
    intro f hf
    rcases mem_append.1 (mem_without.1 hf).1 with hf | hf
    · exact hs.opened f hf
    · exact hn f (mem_without.1 hf).1
  known := hn

theorem reconfigureServer_sent (srv : Server U) (hs : Records s) (hf : localAnswers file.2 ≠ []) :
    Records (reconfigureServer .ideal srv s file) ∧
      (reconfigureServer .ideal srv s file).localResolved = newResolved U (resolvedFields (localResolv file.2)) := by
  have hn := same_of_newResolved (U := U) file.2
  rw [reconfigureServer,if_pos ((localResolv_length_pos_iff _).2 hf),handleCommand_local,
    handleLocalResolved_ideal hs hn]
  exact ⟨hs.update hn,rfl⟩

theorem reconfigureServer_not_sent (srv : Server U) (s : State U (List (NetFlow U)))
    (hf : localAnswers file.2 = []) : reconfigureServer .ideal srv s file = s :=
  if_neg fun hp => (localResolv_length_pos_iff _).1 hp hf

theorem records_reconfigurations (srv : Server U) (files : List (ℤ × List ResolvEntry)) :
    Records (reconfigurations .ideal srv (.start []) files) := by
  induction files using reverseRecOn with
  | nil => exact records_start
  | append_singleton files file ih =>
    rw [reconfigurations,foldl_append,foldl_cons,foldl_nil]
    by_cases hf : localAnswers file.2 = []
    · rw [reconfigureServer_not_sent srv _ hf]
      exact ih
    · exact (reconfigureServer_sent srv ih hf).1

/-- The specifications of an address; without any, the address is open as a whole. -/
def wantedSpecs (entries : List ResolvEntry) (ip : Ipv4Addr) : List Json :=
  if answerSpecs entries ip = [] then [.null] else (answerSpecs entries ip).map Json.str

/-- The open flows are the ones of the local answers. -/
structure Follows (entries : List ResolvEntry) (opened : List (NetFlow U)) : Prop where
  opens : ∀ ip ∈ (localAnswers entries).map Prod.fst, ∀ w ∈ wantedSpecs entries ip,
    ∃ f, localFlow U ip w = .ok f ∧ Among NetFlow.same opened f
  only : ∀ f, Among NetFlow.same opened f → ∃ ip ∈ (localAnswers entries).map Prod.fst, ∃ w ∈ wantedSpecs entries ip,
    ∃ g, localFlow U ip w = .ok g ∧ f.same g = true

def Restricted (U : Unicode) (entries : List ResolvEntry) : Prop :=
  ∀ ip ∈ (localAnswers entries).map Prod.fst, answerSpecs entries ip ≠ [] ∧
    ∀ spec ∈ answerSpecs entries ip, ∃ f, localFlow U ip (.str spec) = .ok f

/-- Each answer gives the flows of its specifications, if they can be read. -/
theorem follows_newResolved_iff (entries : List ResolvEntry) :
    Follows entries (newResolved U (resolvedFields (localResolv entries))) ↔ Restricted U entries := by
  constructor
  · intro h ip hip
    have hne : answerSpecs entries ip ≠ [] := by
      intro hn
      obtain ⟨f,hf,g,hg,hs⟩ := h.opens ip hip .null (by rw [wantedSpecs,if_pos hn]; exact mem_singleton_self _)
      -- the address has no flow, and the ones of other addresses are not equal
      obtain ⟨ip',hi',hg⟩ := mem_newResolved.1 hg
      obtain ⟨w,hw,hfl⟩ := mem_localFlows hg
      obtain rfl := (toAddress_of_localFlow hfl).eq_of_same (toAddress_of_localFlow hf) hs
      rw [hn] at hw
      cases hw
    refine ⟨hne,fun spec hsp => ?_⟩
    obtain ⟨f,hf,_⟩ := h.opens ip hip (.str spec) (by rw [wantedSpecs,if_neg hne]; exact mem_map_of_mem hsp)
    exact ⟨f,hf⟩
  · intro h
    have hwa : ∀ ip ∈ (localAnswers entries).map fst, wantedSpecs entries ip = (answerSpecs entries ip).map Json.str :=
      fun ip hip => if_neg (h ip hip).1
    have hr : ∀ ip ∈ (localAnswers entries).map fst, ∀ w ∈ (answerSpecs entries ip).map Json.str, ∃ f,
        localFlow U ip w = .ok f := by
      intro ip hip w hw
      obtain ⟨spec,hsp,rfl⟩ := mem_map.1 hw
      exact (h ip hip).2 spec hsp
    constructor
    · intro ip hip w hw
      rw [hwa ip hip] at hw
      obtain ⟨f,hf⟩ := hr ip hip w hw
      exact ⟨f,hf,f,mem_newResolved.2 ⟨ip,hip,mem_localFlows_of_readable (hr ip hip) hw hf⟩,
        (toAddress_of_localFlow hf).same_self⟩
    · rintro f ⟨g,hg,hs⟩
      obtain ⟨ip,hip,hg⟩ := mem_newResolved.1 hg
      obtain ⟨w,hw,hfl⟩ := mem_localFlows hg
      exact ⟨ip,hip,w,by rwa [hwa ip hip],g,hfl,same_symm hs⟩

theorem follows_congr {opened' : List (NetFlow U)}
    (h : ∀ f, Among same opened f ↔ Among same opened' f) : Follows entries opened ↔ Follows entries opened' := by
  constructor
  · intro hf
    exact ⟨fun ip hip w hw => let ⟨f,hfl,hopen⟩ := hf.opens ip hip w hw; ⟨f,hfl,(h f).1 hopen⟩,
      fun f hopen => hf.only f ((h f).2 hopen)⟩
  · intro hf
    exact ⟨fun ip hip w hw => let ⟨f,hfl,hopen⟩ := hf.opens ip hip w hw; ⟨f,hfl,(h f).2 hopen⟩,
      fun f hopen => hf.only f ((h f).1 hopen)⟩

theorem Follows.none_iff (h : Follows entries opened) :
    (∀ f, ¬ Among same opened f) ↔ localAnswers entries = [] := by
  constructor
  · intro hnone
    by_contra hne
    obtain ⟨answer,ha⟩ := exists_mem_of_ne_nil _ hne
    have hwa : ∃ w, w ∈ wantedSpecs entries answer.1 := by
      unfold wantedSpecs
      split
      · exact ⟨_,mem_singleton_self _⟩
      · rename_i hs
        obtain ⟨spec,hsp⟩ := exists_mem_of_ne_nil _ hs
        exact ⟨_,mem_map_of_mem hsp⟩
    obtain ⟨w,hw⟩ := hwa
    obtain ⟨f,_,hopen⟩ := h.opens answer.1 (mem_map_of_mem ha) w hw
    exact hnone f hopen
  · intro hn f hopen
    obtain ⟨ip,hip,_⟩ := h.only f hopen
    rw [hn] at hip
    cases hip

theorem follows_nil_iff (hn : localAnswers entries = []) :
    Follows entries opened ↔ ∀ f, ¬ Among same opened f := by
  constructor
  · exact fun h => h.none_iff.2 hn
  · intro hnone
    refine ⟨fun ip hip => ?_,fun f hopen => absurd hopen (hnone f)⟩
    rw [hn] at hip
    cases hip

/-- A file with local answers is not followed by one without. -/
def KeepsAnswers (files : List (ℤ × List ResolvEntry)) : Prop :=
  files.Pairwise fun file later => localAnswers file.2 ≠ [] → localAnswers later.2 ≠ []

theorem keepsAnswers_concat :
    KeepsAnswers (files ++ [file]) ↔ KeepsAnswers files ∧
      (localAnswers file.2 = [] → ∀ earlier ∈ files, localAnswers earlier.2 = []) := by
  unfold KeepsAnswers
  rw [pairwise_append]
  simp only [pairwise_singleton,mem_singleton,forall_eq,true_and]
  refine and_congr_right fun _ => ⟨fun h hn earlier hmem => ?_,fun h earlier hmem hne hn => hne (h hn earlier hmem)⟩
  by_contra hne
  exact h earlier hmem hne hn

def FollowsAlong (srv : Server U) (files : List (ℤ × List ResolvEntry)) : Prop :=
  ∀ past file, past ++ [file] <+: files →
    Follows file.2 (reconfigurations .ideal srv (.start []) (past ++ [file])).netfilter

theorem followsAlong_concat {srv : Server U} :
    FollowsAlong srv (files ++ [file]) ↔
      FollowsAlong srv files ∧
        Follows file.2 (reconfigurations .ideal srv (.start []) (files ++ [file])).netfilter := by
  constructor
  · exact fun h => ⟨fun past last hp => h past last (hp.trans (prefix_append _ _)),h files file prefix_rfl⟩
  · rintro ⟨hf,hl⟩ past last hp
    rcases prefix_concat_iff.1 hp with heq | hp
    · obtain ⟨rfl,hfi⟩ := append_inj' heq rfl
      cases hfi
      exact hl
    · exact hf past last hp

theorem none_open_iff {srv : Server U} (h : FollowsAlong srv files) (hk : KeepsAnswers files) :
    (∀ f, ¬ Among same (reconfigurations .ideal srv (.start []) files).netfilter f) ↔
      ∀ file ∈ files, localAnswers file.2 = [] := by
  rcases eq_nil_or_concat' files with rfl | ⟨past,last,rfl⟩
  · exact ⟨fun _ => nofun,fun _ f ⟨g,hg,_⟩ => by cases hg⟩
  · rw [(followsAlong_concat.1 h).2.none_iff]
    constructor
    · intro hn file hf
      rcases mem_append.1 hf with hf | hf
      · exact (keepsAnswers_concat.1 hk).2 hn file hf
      · rw [mem_singleton.1 hf]
        exact hn
    · exact fun ha => ha last (by simp)

/-- The flows follow the file after each reconfiguration if and only if every address has readable
specifications, and no file without local answers follows one with them. -/
theorem followsAlong_iff (srv : Server U) (files : List (ℤ × List ResolvEntry)) :
    FollowsAlong srv files ↔ (∀ file ∈ files, Restricted U file.2) ∧ KeepsAnswers files := by
  induction files using reverseRecOn with
  | nil => exact ⟨fun _ => ⟨nofun,List.Pairwise.nil⟩,fun _ past file hp => absurd (prefix_nil.1 hp) (by simp)⟩
  | append_singleton files file ih =>
    have hs : reconfigurations .ideal srv (.start []) (files ++ [file]) =
        reconfigureServer .ideal srv (reconfigurations .ideal srv (.start []) files) file := by
      rw [reconfigurations,foldl_append,foldl_cons,foldl_nil]
      rfl
    have hr : (∀ f ∈ files ++ [file], Restricted U f.2) ↔ (∀ f ∈ files, Restricted U f.2) ∧ Restricted U file.2 := by
      simp only [mem_append,mem_singleton,or_imp,forall_and,forall_eq]
    have hre := records_reconfigurations srv files
    rw [followsAlong_concat,keepsAnswers_concat,hr,hs]
    by_cases hf : localAnswers file.2 = []
    · have hv : Restricted U file.2 := by
        intro ip hip
        rw [hf] at hip
        cases hip
      rw [reconfigureServer_not_sent srv _ hf,follows_nil_iff hf]
      constructor
      · rintro ⟨ha,hnone⟩
        obtain ⟨hal,hk⟩ := ih.1 ha
        exact ⟨⟨hal,hv⟩,hk,fun _ => (none_open_iff ha hk).1 hnone⟩
      · rintro ⟨⟨hal,_⟩,hk,hn⟩
        have ha := ih.2 ⟨hal,hk⟩
        exact ⟨ha,(none_open_iff ha hk).2 (hn hf)⟩
    · obtain ⟨hne,hrs⟩ := reconfigureServer_sent srv hre hf
      rw [ih,follows_congr hne.among,hrs,follows_newResolved_iff]
      constructor
      · rintro ⟨⟨hal,hk⟩,hl⟩
        exact ⟨⟨hal,hl⟩,hk,fun hn => absurd hn hf⟩
      · rintro ⟨⟨hal,hl⟩,hk,_⟩
        exact ⟨⟨hal,hk⟩,hl⟩

def localEntry (spec : Option Str) : ResolvEntry := ⟨.allow,some "a.com.",some [⟨300,⟨10,0,0,1⟩⟩],spec⟩
def localFile : List ResolvEntry := [localEntry (some "tcp^443")]
def bareFile : List ResolvEntry := [localEntry none]

/-- The flow of the last entry stays open when the entry is removed, and an address without
restriction is not open at all. -/
theorem last_answer_stays_open :
    ¬ Follows [] (reconfigurations .ideal (.started [] [] eth0 : Server .ascii) (.start []) [(0,localFile),
      (60,[])]).netfilter ∧
      ¬ Follows bareFile
        (reconfigurations .ideal (.started [] [] eth0 : Server .ascii) (.start []) [(0,bareFile)]).netfilter := by
  have hopen : (reconfigurations .ideal (.started [] [] eth0 : Server .ascii) (.start []) [(0,localFile),
    (60,[])]).netfilter.any
      (fun f => f.same f) = true := by decide +kernel
  have hc : (reconfigurations .ideal (.started [] [] eth0 : Server .ascii) (.start []) [(0,
      bareFile)]).netfilter = [] := by
    decide +kernel
  constructor
  · intro h
    obtain ⟨f,hf,hs⟩ := any_eq_true.1 hopen
    exact (follows_nil_iff rfl).1 h f ⟨f,hf,hs⟩
  · rw [hc]
    intro h
    exact absurd (h.none_iff.1 nofun) (by decide)

end Padsi.Dns
