import Padsi.Web.Config

/-! # Transparency of the decision cache -/
namespace Padsi.Web
open Rust Text Net List SizedCache

variable {E : Externals}

def answers (targets : List (Target E)) :
    Option TargetsCache → List (EndPoint E) → List (Partial Answer) × Option TargetsCache
  | state, [] => ([],state)
  | state, req :: reqs =>
    let next := getHextHopAddr targets state req
    let rest := answers targets next.2 reqs
    (next.1 :: rest.1,rest.2)

/-- Every cached value is the answer of a fresh proxy. -/
structure Faithful (targets : List (Target E)) (st : TargetsCache) : Prop where
  open_lock : st.poisoned = false
  cached : ∀ k v, st.cache.get k = some v →
    ∃ e : EndPoint E, (∀ z ∈ e.zones, z.Written) ∧ e.text = k ∧ freshAnswer targets e = .ok (.ok v)

theorem faithful_new (targets : List (Target E)) : Faithful targets .new where
  open_lock := rfl
  cached := by
    intro k v h
    rw [show TargetsCache.new.cache.get k = none from get_new 100 k] at h
    cases h

variable {targets : List (Target E)} {st : TargetsCache} {req : EndPoint E}

/-- A request that panics leaves the lock poisoned, every other one a faithful cache. -/
theorem getHextHopAddr_faithful (hN : LawfulNetworks E)
    (hst : Faithful targets st) (hr : ∀ z ∈ req.zones, z.Written) :
    (getHextHopAddr targets (some st) req).1 = freshAnswer targets req ∧
      ∃ st', (getHextHopAddr targets (some st) req).2 = some st' ∧
        (Returns (freshAnswer targets req) → Faithful targets st') ∧
        (¬ Returns (freshAnswer targets req) → st'.poisoned = true) := by
  unfold getHextHopAddr
  simp only [hst.open_lock,Bool.false_eq_true,if_false]
  cases hg : st.cache.get req.text with
  | some v =>
    obtain ⟨e,he,ht,hf⟩ := hst.cached _ v hg
    obtain rfl := EndPoint.eq_of_text hN.parse_text he hr ht
    rw [hf]
    exact ⟨rfl,st,rfl,fun _ => hst,fun hp => absurd (returns_ok _) hp⟩
  | none =>
    have hf := freshAnswer_eq targets req
    cases hs : scan targets req with
    | error p =>
      rw [hs] at hf
      rw [hf]
      exact ⟨rfl,_,rfl,fun hre => absurd hre (not_returns_error p),fun _ => rfl⟩
    | ok found =>
      rw [hs] at hf
      have ha : freshAnswer targets req = .ok (outcome found) := hf
      rw [ha]
      cases ho : outcome found with
      | error e =>
        simp only [ho]
        exact ⟨trivial,st,rfl,fun _ => hst,fun hp => absurd (returns_ok _) hp⟩
      | ok v =>
        simp only [ho]
        refine ⟨trivial,_,rfl,fun _ => ⟨rfl,fun k w hw => ?_⟩,fun hp => absurd (returns_ok _) hp⟩
        rcases get_add hw with ⟨rfl,rfl⟩ | hold
        · exact ⟨req,hr,rfl,by rw [ha,ho]⟩
        · exact hst.cached k w hold

theorem answers_poisoned (targets : List (Target E)) (h : st.poisoned = true) (reqs : List (EndPoint E)) :
    (answers targets (some st) reqs).1.map Except.toOption = reqs.map fun _ => none := by
  induction reqs with
  | nil => rfl
  | cons req reqs ih =>
    have hs : getHextHopAddr targets (some st) req = (.error .poisoned,some st) := by
      unfold getHextHopAddr
      simp only [h,if_true]
    change (getHextHopAddr targets (some st) req).1.toOption ::
      (answers targets (getHextHopAddr targets (some st) req).2 reqs).1.map Except.toOption = _
    rw [hs,ih]
    rfl

theorem toOption_eq_none {α : Type} {x : Partial α} : x.toOption = none ↔ ¬ Returns x := by
  cases x with
  | ok a => simp [Except.toOption]
  | error e => simp [Except.toOption]

theorem answers_faithful_iff (hN : LawfulNetworks E)
    (hst : Faithful targets st) (reqs : List (EndPoint E)) (hre : ∀ r ∈ reqs, ∀ z ∈ r.zones, z.Written) :
    (answers targets (some st) reqs).1.map Except.toOption = reqs.map (fun r => (freshAnswer targets r).toOption) ↔
      reqs.Pairwise fun a b => Returns (freshAnswer targets b) → Returns (freshAnswer targets a) := by
  induction reqs generalizing st with
  | nil => simp [answers]
  | cons req reqs ih =>
    obtain ⟨hrq,hrest⟩ := forall_mem_cons.1 hre
    obtain ⟨ha,st',hs,hg,hba⟩ := getHextHopAddr_faithful hN hst hrq
    have hu : (answers targets (some st) (req :: reqs)).1.map Except.toOption =
        (freshAnswer targets req).toOption :: (answers targets (some st') reqs).1.map Except.toOption := by
      rw [← ha,← hs]
      rfl
    rw [hu,map_cons,pairwise_cons]
    by_cases hr : Returns (freshAnswer targets req)
    · rw [cons_inj_right,ih (hg hr) hrest]
      exact ⟨fun h => ⟨fun _ _ _ => hr,h⟩,fun h => h.2⟩
    · rw [cons_inj_right,answers_poisoned targets (hba hr),map_inj_left]
      constructor
      · intro h
        have hp : ∀ b ∈ reqs, ¬ Returns (freshAnswer targets b) := fun b hb => toOption_eq_none.1 (h b hb).symm
        refine ⟨fun b hb hb' => absurd hb' (hp b hb),
          List.Pairwise.imp_of_mem ?_ (pairwise_of_forall fun _ _ => trivial)⟩
        intro a b _ hb _ hb'
        exact absurd hb' (hp b hb)
      · intro h b hb
        exact (toOption_eq_none.2 fun hb' => hr (h.1 b hb hb')).symm

theorem consistent_getHextHopAddr {st' : TargetsCache}
    (h : st.cache.Consistent) (hst : (getHextHopAddr targets (some st) req).2 = some st') : st'.cache.Consistent := by
  unfold getHextHopAddr at hst
  simp only at hst
  split at hst
  · cases hst
    exact h
  · split at hst
    · cases hst
      exact h
    · split at hst
      · cases hst
        exact h
      · split at hst
        · cases hst
          exact consistent_add h _ _
        · cases hst
          exact h

theorem consistent_answers (targets : List (Target E)) (h : st.cache.Consistent)
    (reqs : List (EndPoint E)) : ∃ st', (answers targets (some st) reqs).2 = some st' ∧ st'.cache.Consistent := by
  induction reqs generalizing st with
  | nil => exact ⟨st,rfl,h⟩
  | cons req reqs ih =>
    have hs : ∃ st', (getHextHopAddr targets (some st) req).2 = some st' := by
      unfold getHextHopAddr
      simp only
      split
      · exact ⟨_,rfl⟩
      · split
        · exact ⟨_,rfl⟩
        · split
          · exact ⟨_,rfl⟩
          · split <;> exact ⟨_,rfl⟩
    obtain ⟨st',hs'⟩ := hs
    obtain ⟨last,hl,hc⟩ := ih (consistent_getHextHopAddr h hs')
    exact ⟨last,by change (answers targets _ reqs).2 = _; rw [hs',hl],hc⟩

theorem SizedCache.consistent_adds {K V : Type} [DecidableEq K] (maxSize : ℕ) (ops : List (K × V)) :
    (ops.foldl (fun c o => c.add o.1 o.2) (new maxSize : SizedCache K V)).Consistent := by
  have hr : ∀ c : SizedCache K V, c.Consistent → (ops.foldl (fun c o => c.add o.1 o.2) c).Consistent := by
    induction ops with
    | nil => exact fun c hc => hc
    | cons o ops ih => exact fun c hc => ih _ (consistent_add hc o.1 o.2)
  exact hr _ (consistent_new maxSize)

theorem returns_freshAnswer (hN : LawfulNetworks E) (hs : SafeRules targets)
    (hsl : req.Sliceable) (hpo : req.ports ≠ []) : Returns (freshAnswer targets req) := by
  obtain ⟨p,ps,hp⟩ := exists_cons_of_ne_nil hpo
  rw [freshAnswer_eq,scan_eq hN hp hsl hs]
  exact ⟨_,rfl⟩

/-- The answers are those of fresh proxies if and only if no request that panics alone comes before
one that does not; the cache is always consistent. -/
theorem answers_transparent_iff (hN : LawfulNetworks E) (targets : List (Target E)) (reqs : List (EndPoint E))
    (hreqs : ∀ r ∈ reqs, ∃ spec, EndPoint.new E spec = .ok (.ok r)) :
    ((answers targets (some .new) reqs).1.map Except.toOption = reqs.map (fun r => (freshAnswer targets r).toOption) ↔
        reqs.Pairwise fun a b => Returns (freshAnswer targets b) → Returns (freshAnswer targets a)) ∧
      (SafeRules targets → (∀ r ∈ reqs, r.Sliceable ∧ r.ports ≠ []) →
        (answers targets (some .new) reqs).1.map Except.toOption =
          reqs.map (fun r => (freshAnswer targets r).toOption)) ∧
      (∃ st, (answers targets (some .new) reqs).2 = some st ∧ st.cache.Consistent) ∧
      ∀ (K V : Type) [DecidableEq K] (maxSize : ℕ) (ops : List (K × V)),
        (ops.foldl (fun c o => c.add o.1 o.2) (SizedCache.new maxSize : SizedCache K V)).Consistent := by
  have hw : ∀ r ∈ reqs, ∀ z ∈ r.zones, z.Written := by
    intro r hr
    obtain ⟨spec,hsp⟩ := hreqs r hr
    exact EndPoint.written_of_new hsp
  have hi := answers_faithful_iff hN (faithful_new targets) reqs hw
  refine ⟨hi,fun hsa hs => hi.2 ?_,consistent_answers targets (consistent_new 100) reqs,?_⟩
  · apply List.Pairwise.imp_of_mem _ (pairwise_of_forall fun _ _ => trivial)
    intro a b ha _ _ _
    exact returns_freshAnswer hN hsa (hs a ha).1 (hs a ha).2
  · intro K V _ maxSize ops
    exact consistent_adds maxSize ops

def anyNameRule : Rule Reference.externals where
  action := .allow
  endpoint := ⟨[.pattern (Reference.pattern "**." (by decide) (by decide) (by decide))],[],[],[],by decide⟩
  written := EndPoint.written_of_new (show EndPoint.new Reference.externals "**." = .ok (.ok _) by rfl)

def accentRule : Rule Reference.externals where
  action := .allow
  endpoint := ⟨[.pattern (Reference.pattern "**é**." (by decide) (by decide) (by decide)),
    .name ⟨"www.a.",by decide,by decide⟩],[],[],[],by decide⟩
  written := EndPoint.written_of_new (show EndPoint.new Reference.externals "**é**.,www.a." = .ok (.ok _) by rfl)

def wwwRequest : EndPoint Reference.externals :=
  ⟨[.name ⟨"www.a.",by decide,by decide⟩],[],[.tcp],[.port 443],by decide⟩
def addressRequest : EndPoint Reference.externals :=
  ⟨[.network ⟨⟨10,0,0,1⟩,32,by decide⟩],[],[.tcp],[.port 443],by decide⟩

theorem answers_transparent_iff_two_requests :
    (answers [⟨none,[anyNameRule]⟩] (some .new) [wwwRequest,addressRequest]).1.map Except.toOption =
        [wwwRequest,addressRequest].map (fun r => (freshAnswer [⟨none,[anyNameRule]⟩] r).toOption) ↔
      [wwwRequest,addressRequest].Pairwise fun a b =>
        Returns (freshAnswer [⟨none,[anyNameRule]⟩] b) → Returns (freshAnswer [⟨none,[anyNameRule]⟩] a) := by
  refine (answers_transparent_iff Reference.lawfulNetworks _ [wwwRequest,addressRequest] ?_).1
  intro r hr
  rcases mem_cons.1 hr with rfl | hr
  · exact ⟨"www.a.^tcp^443",by rfl⟩
  · rw [mem_singleton.1 hr]
    exact ⟨"10.0.0.1^tcp^443",by rfl⟩

/-- The first request panics while it holds the lock; a fresh proxy refuses the
second one, the same proxy panics. -/
theorem panic_poisons_later_requests :
    EndPoint.newFromReq Reference.externals "www.a" 443 = .ok (.ok wwwRequest) ∧
      EndPoint.newFromReq Reference.externals "10.0.0.1" 443 = .ok (.ok addressRequest) ∧
      freshAnswer [⟨none,[anyNameRule,accentRule]⟩] addressRequest = .ok (.error .notAllowed) ∧
      (answers [⟨none,[anyNameRule,accentRule]⟩] (some .new) [wwwRequest,addressRequest]).1 =
        [.error .charBoundary,.error .poisoned] :=
  ⟨by rfl,by rfl,by rfl,by decide +kernel⟩

end Padsi.Web
