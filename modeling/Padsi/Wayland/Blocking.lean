import Padsi.Wayland.Wire

/-! # What a server chunk loses

The filter looks at the first `data_offer` of the chunk and at the first readable tag of
the offer it introduces.
-/
namespace Padsi.Wayland
open Rust List Option ProxyState

section
variable (T : Target) (conf : ProxyConfig) (st : ProxyState) (ms : List Msg)

def offerOf : Option UInt32 :=
  (st.slot .wlDataDevice).bind (fun d => referenced T ms (some d) ddEDataOffer none 0)
def primaryOf : Option UInt32 :=
  (st.slot .zwpPrimarySelectionDevice).bind (fun d => referenced T ms (some d) zpwPsdEDataOffer none 0)
def zoneRead (oid : UInt32) : Option Str :=
  (ms.find? (Msg.hit (some oid) doEOffer (some mimeTypePrefix))).bind (fun m => zoneText m.payload)
def coreRefused : Bool := (offerOf T st ms).any (fun oid => refuses conf (zoneRead ms oid))

def stateAfter : ProxyState :=
  (st.setSlot .wlDataOffer ((offerOf T st ms).or (st.slot .wlDataOffer))).setSlot .zwpPrimarySelectionOffer
    ((primaryOf T st ms).or (st.slot .zwpPrimarySelectionOffer))

def withheld (m : Msg) : Bool :=
  conf.enforce && (stateAfter T st ms).toBlock (coreRefused T conf st ms) (primaryOf T st ms).isSome (m.toMeta 0)
def kept : List Msg := ms.filter (fun m => !withheld T conf st ms m)

structure EventsReadable : Prop where
  offer : ∀ d, st.slot .wlDataDevice = some d →
    ∀ m, ms.find? (Msg.hit (some d) ddEDataOffer none) = some m → WordReadable T m.payload 0
  tag : ∀ oid, offerOf T st ms = some oid →
    ∀ m, ms.find? (Msg.hit (some oid) doEOffer (some mimeTypePrefix)) = some m →
      Utf8.isCharBoundary m.payload zoneOffset = true
  primary : ∀ d, st.slot .zwpPrimarySelectionDevice = some d →
    ∀ m, ms.find? (Msg.hit (some d) zpwPsdEDataOffer none) = some m → WordReadable T m.payload 0

end

section
variable {T : Target} {conf : ProxyConfig} {st : ProxyState} {ms : List Msg} {stale : List UInt8}

theorem offerId_chunk (stale : List UInt8) : offerId T (chunk T ms stale) st = offerOf T st ms := by
  unfold offerId offerOf
  simp only [referenced_chunk]

theorem primaryId_chunk : primaryId T (chunk T ms stale) st = primaryOf T st ms := by
  unfold primaryId primaryOf
  simp only [referenced_chunk]

theorem tagZone_chunk (oid : UInt32) : tagZone T (chunk T ms stale) oid = zoneRead ms oid := by
  have h := congrArg (fun o => o.bind zoneText)
    (found_chunk_payload T ms stale (some oid) doEOffer (some mimeTypePrefix))
  simp only [bind_map] at h
  exact h

theorem coreFlag_chunk : coreFlag T conf (chunk T ms stale) st = coreRefused T conf st ms := by
  simp only [coreFlag,coreRefused,offerId_chunk,tagZone_chunk]
theorem serverState_chunk : serverState T (chunk T ms stale) st = stateAfter T st ms := by
  simp only [serverState,stateAfter,offerId_chunk,primaryId_chunk]

theorem toBlock_of_flags {core x11 : Bool} {m : MessageMeta} (h : st.toBlock core x11 m = true) :
    (core || x11) = true := by
  unfold toBlock at h
  cases hi : st.getInterface m.objectId with
  | none => simp [hi] at h
  | some i =>
    cases core with
    | true => rfl
    | false =>
      cases x11 with
      | true => rfl
      | false => simp [hi] at h

theorem withheld_eq (m : Msg) :
    withheld T conf st ms m =
      ((conf.enforce && (coreRefused T conf st ms || (primaryOf T st ms).isSome)) &&
        (stateAfter T st ms).toBlock (coreRefused T conf st ms) (primaryOf T st ms).isSome (m.toMeta 0)) := by
  unfold withheld
  cases hb : (stateAfter T st ms).toBlock (coreRefused T conf st ms) (primaryOf T st ms).isSome (m.toMeta 0) with
  | false => simp
  | true => rw [toBlock_of_flags hb,Bool.and_true,Bool.and_true]

section
variable (T : Target) (conf : ProxyConfig) (st : ProxyState) (ms : List Msg) (stale : List UInt8)

theorem blocked_chunk : blocked T conf (chunk T ms stale) st =
      (metas 0 ms).filter (fun m => (conf.enforce && (coreRefused T conf st ms || (primaryOf T st ms).isSome)) &&
        (stateAfter T st ms).toBlock (coreRefused T conf st ms) (primaryOf T st ms).isSome m) := by
  unfold blocked x11Flag
  rw [coreFlag_chunk,primaryId_chunk,serverState_chunk,parsed_chunk]
  cases conf.enforce && (coreRefused T conf st ms || (primaryOf T st ms).isSome) with
  | true => simp
  | false => simp

theorem blocked_size : totalSize (blocked T conf (chunk T ms stale) st) + (encodeAll T (kept T conf st ms)).length =
      (encodeAll T ms).length := by
  have h := totalSize_metas T (fun m => (conf.enforce && (coreRefused T conf st ms || (primaryOf T st ms).isSome)) &&
    (stateAfter T st ms).toBlock (coreRefused T conf st ms) (primaryOf T st ms).isSome m) (fun _ _ _ => rfl) 0 ms
  rw [← blocked_chunk T conf st ms stale] at h
  simpa only [kept,withheld_eq] using h

theorem cut_blocked : cut (chunk T ms stale).data (blocked T conf (chunk T ms stale) st) =
      (chunk T (kept T conf st ms) stale).data := by
  have h := cut_metas T (fun m => (conf.enforce && (coreRefused T conf st ms || (primaryOf T st ms).isSome)) &&
    (stateAfter T st ms).toBlock (coreRefused T conf st ms) (primaryOf T st ms).isSome m) (fun _ _ _ => rfl) [] ms stale
  simp only [nil_append,length_nil] at h
  rw [← blocked_chunk T conf st ms stale] at h
  simp only [kept,withheld_eq]
  exact h

end

/-- Readability of a chunk of whole messages: the size counter never underflows. -/
theorem serverReadable_chunk (conf : ProxyConfig) (stale : List UInt8) :
    ServerReadable T conf (chunk T ms stale) st ↔ EventsReadable T st ms := by
  have hw : ∀ d : UInt32, (chunk T ms stale).Readable T (some d) 0 none 0 ↔
      ∀ m, ms.find? (Msg.hit (some d) 0 none) = some m → WordReadable T m.payload 0 :=
    fun d => forall_found_chunk T ms stale (some d) 0 none (WordReadable T · 0)
  have hta : ∀ oid : UInt32, (∀ m, tagMessage T (chunk T ms stale) oid = some m →
      Utf8.isCharBoundary (m.payloadOf (chunk T ms stale).data) zoneOffset = true) ↔
      ∀ m, ms.find? (Msg.hit (some oid) doEOffer (some mimeTypePrefix)) = some m →
        Utf8.isCharBoundary m.payload zoneOffset = true :=
    fun oid => forall_found_chunk T ms stale (some oid) doEOffer (some mimeTypePrefix)
      (fun p => Utf8.isCharBoundary p zoneOffset = true)
  constructor
  · rintro ⟨ho,ht,hp,_⟩
    refine ⟨fun d hd => (hw d).1 (ho d hd),?_,fun d hd => (hw d).1 (hp d hd)⟩
    intro oid hoi
    rw [← offerId_chunk stale] at hoi
    exact (hta oid).1 (fun m hm => ht oid m hoi hm)
  · rintro ⟨ho,ht,hp⟩
    refine ⟨fun d hd => (hw d).2 (ho d hd),?_,fun d hd => (hw d).2 (hp d hd),?_⟩
    · intro oid m hoi hm
      rw [offerId_chunk] at hoi
      exact (hta oid).2 (ht oid hoi) m hm
    · intro _
      have h := blocked_size T conf st ms stale
      simp only [chunk] at h ⊢
      omega

theorem proxyServerToClient_chunk (conf : ProxyConfig) (stale : List UInt8)
    (hd : st.hasInterface .wlDataDeviceManager = true) (hr : EventsReadable T st ms) :
    proxyServerToClient T conf st (chunk T ms stale).data (chunk T ms stale).size =
      .ok (stateAfter T st ms,(chunk T (kept T conf st ms) stale).data,(chunk T (kept T conf st ms) stale).size) := by
  obtain ⟨ho,ht,hp,_⟩ := (serverReadable_chunk conf stale).2 hr
  have hs := blocked_size T conf st ms stale
  have hle : totalSize (blocked T conf (chunk T ms stale) st) ≤ (chunk T ms stale).size := by
    simp only [chunk] at hs ⊢
    omega
  have hn : (chunk T ms stale).size - totalSize (blocked T conf (chunk T ms stale) st) =
      (chunk T (kept T conf st ms) stale).size := by
    simp only [chunk] at hs ⊢
    omega
  refine (proxyServerToClient_eq hd ho ht hp).trans ?_
  change (sizeAfter T (chunk T ms stale).size (blocked T conf (chunk T ms stale) st) >>= fun n' =>
    .ok (serverState T (chunk T ms stale) st,cut (chunk T ms stale).data (blocked T conf (chunk T ms stale) st),n')) = _
  rw [sizeAfter_of_le T hle,ok_bind,serverState_chunk,cut_blocked,hn]

/-- The flags that a call computes, with the state it looks the events up in. -/
def FlagsOf (T : Target) (conf : ProxyConfig) (b : ProxyBuffer) (st : ProxyState) (core x11 : Bool)
    (st' : ProxyState) : Prop :=
  if st.hasInterface .wlDataDeviceManager then ∃ st₁, offerDecision T conf b st = .ok (st₁,core) ∧
    primaryDecision T b st₁ = .ok (st',x11)
  else core = false ∧ x11 = false ∧ st' = st

/-- The call returns, and what it keeps are the messages that it does not select, byte for byte
and in their order. -/
def Framed (T : Target) (conf : ProxyConfig) (st : ProxyState) (ms : List Msg) (stale : List UInt8) : Prop :=
  ∃ st' data size core x11, FlagsOf T conf (chunk T ms stale) st core x11 st' ∧
    proxyServerToClient T conf st (chunk T ms stale).data (chunk T ms stale).size = .ok (st',data,size) ∧
    data.take size =
      encodeAll T (ms.filter fun m => !(conf.enforce && (core || x11) && st'.toBlock core x11 (m.toMeta 0))) ∧
    size + ((ms.filter fun m => conf.enforce && (core || x11) && st'.toBlock core x11 (m.toMeta 0)).map Msg.size).sum =
      (chunk T ms stale).size

theorem length_encodeAll_filter (p : Msg → Bool) (ms : List Msg) :
    (encodeAll T (ms.filter fun m => !p m)).length + ((ms.filter p).map Msg.size).sum = (encodeAll T ms).length := by
  induction ms with
  | nil => rfl
  | cons m ms ih =>
    rw [filter_cons,filter_cons]
    cases p m with
    | false =>
      simp only [Bool.not_false,if_true,Bool.false_eq_true,if_false,encodeAll_cons,length_append,encode_length]
      omega
    | true =>
      simp only [Bool.not_true,if_true,Bool.false_eq_true,if_false,map_cons,sum_cons,encodeAll_cons,length_append,
        encode_length]
      omega

theorem Framed.readable (h : Framed T conf st ms stale) (hd : st.hasInterface .wlDataDeviceManager = true) :
    EventsReadable T st ms := by
  obtain ⟨_,_,_,_,_,-,hc,-⟩ := h
  exact (serverReadable_chunk conf stale).1 (returns_proxyServerToClient.1 ⟨_,hc⟩ hd)

/-- A chunk of whole messages is cut as its flags say, just if the words and the tag that it makes
the proxy read are in range. -/
theorem framed_iff_readable (T : Target) (conf : ProxyConfig) (st : ProxyState) (ms : List Msg) (stale : List UInt8) :
    Framed T conf st ms stale ↔ (st.hasInterface .wlDataDeviceManager = true → EventsReadable T st ms) := by
  constructor
  · exact Framed.readable
  · intro h
    cases hd : st.hasInterface .wlDataDeviceManager with
    | false =>
      refine ⟨st,_,_,false,false,?_,proxyServerToClient_unknown hd,?_,?_⟩
      · rw [FlagsOf,hd]
        exact ⟨rfl,rfl,rfl⟩
      · simp [chunk]
      · simp
    | true =>
      have hr := h hd
      obtain ⟨ho,ht,hp,_⟩ := (serverReadable_chunk conf stale).2 hr
      refine ⟨_,_,_,coreRefused T conf st ms,(primaryOf T st ms).isSome,?_,
        proxyServerToClient_chunk conf stale hd hr,?_,?_⟩
      · rw [FlagsOf,hd,if_pos rfl]
        have hof : offerDecision T conf (chunk T ms stale) st = .ok (_,_) := exactly_offerDecision.eq ⟨ho,ht⟩
        rw [coreFlag_chunk] at hof
        refine ⟨_,hof,(exactly_primaryDecision.eq (by simpa using hp)).trans ?_⟩
        rw [x11Flag,← @serverState_chunk T st ms stale,← @primaryId_chunk T st ms stale]
        rfl
      · simp only [← withheld_eq]
        exact take_left
      · simp only [← withheld_eq]
        exact length_encodeAll_filter _ ms

end

section
variable {st : ProxyState} {oid : UInt32}

theorem getInterface_eq_some {i : WlInterface} {xs ys : List WlInterface}
    (ho : lookupOrder = xs ++ i :: ys) (hi : i ∉ xs) :
    st.getInterface oid = some i ↔ (∀ j ∈ xs, st.slot j ≠ some oid) ∧ st.slot i = some oid := by
  unfold getInterface
  rw [ho,find?_append]
  cases hf : xs.find? (fun i => st.slot i == some oid) with
  | none =>
    have ha : ∀ j ∈ xs, st.slot j ≠ some oid := by simpa using hf
    rw [none_or]
    constructor
    · intro h
      exact ⟨ha,by simpa using find?_some h⟩
    · intro h
      simp [h.2]
  | some j =>
    have hj := find?_some hf
    have hmem := mem_of_find?_eq_some hf
    simp only [some_or,Option.some.injEq]
    constructor
    · rintro rfl
      exact absurd hmem hi
    · rintro ⟨ha,_⟩
      exact absurd (by simpa using hj) (ha j hmem)

theorem getInterface_eq_offer :
    st.getInterface oid = some .wlDataOffer ↔
      st.slot .wlDataDeviceManager ≠ some oid ∧ st.slot .wlDataDevice ≠ some oid ∧ st.slot .wlDataOffer = some oid := by
  rw [getInterface_eq_some (show _ = [.wlDataDeviceManager,.wlDataDevice] ++ _ :: _ from rfl) (by decide)]
  simp [and_assoc]

def beforePrimary : List WlInterface :=
  [.wlDataDeviceManager,.wlDataDevice,.wlDataOffer,.wlDataSource,.zwpPrimarySelectionDeviceManager,
    .zwpPrimarySelectionDevice]

theorem getInterface_eq_primary :
    st.getInterface oid = some .zwpPrimarySelectionOffer ↔
      (∀ i ∈ beforePrimary, st.slot i ≠ some oid) ∧ st.slot .zwpPrimarySelectionOffer = some oid :=
  getInterface_eq_some rfl (by decide)

def Enforcing (st : ProxyState) : Prop :=
  st.coreEventsToBlock = (ProxyState.new true).coreEventsToBlock ∧
  st.x11EventsToBlock = (ProxyState.new true).x11EventsToBlock

theorem toBlock_offer (hl : Enforcing st) (core x11 : Bool) {m : MessageMeta} (hm : m.opcode = doEOffer) :
    st.toBlock core x11 m = true ↔
      (core = true ∧ st.getInterface m.objectId = some .wlDataOffer) ∨
      (x11 = true ∧ st.getInterface m.objectId = some .zwpPrimarySelectionOffer) := by
  unfold toBlock
  rw [hl.1,hl.2,hm]
  cases st.getInterface m.objectId with
  | none => simp
  | some i => cases i <;> cases core <;> cases x11 <;> decide

end

/-- The chunk introduces the object and reads a refused tag, or its first primary selection offer
has this id. -/
def Covered (T : Target) (conf : ProxyConfig) (st : ProxyState) (ms : List Msg) (oid : UInt32) : Prop :=
  (offerOf T st ms = some oid ∧ refuses conf (zoneRead ms oid) = true ∧
    st.slot .wlDataDeviceManager ≠ some oid ∧ st.slot .wlDataDevice ≠ some oid) ∨
  (primaryOf T st ms = some oid ∧ (offerOf T st ms).or (st.slot .wlDataOffer) ≠ some oid ∧
    ∀ i ∈ beforePrimary, i ≠ .wlDataOffer → st.slot i ≠ some oid)

section
variable {T : Target} {conf : ProxyConfig} {st : ProxyState} {ms : List Msg}

theorem enforcing_stateAfter (hl : Enforcing st) : Enforcing (stateAfter T st ms) := hl

theorem coreRefused_and_offer {oid : UInt32} :
    (coreRefused T conf st ms = true ∧ (stateAfter T st ms).getInterface oid = some .wlDataOffer) ↔
      offerOf T st ms = some oid ∧ refuses conf (zoneRead ms oid) = true ∧
        st.slot .wlDataDeviceManager ≠ some oid ∧ st.slot .wlDataDevice ≠ some oid := by
  rw [getInterface_eq_offer]
  unfold coreRefused stateAfter
  simp only [setSlot_slot,reduceCtorEq,↓reduceIte]
  cases offerOf T st ms with
  | none => simp
  | some o =>
    simp only [any_some,some_or,Option.some.injEq]
    constructor
    · rintro ⟨hr,h1,h2,rfl⟩
      exact ⟨rfl,hr,h1,h2⟩
    · rintro ⟨rfl,hr,h1,h2⟩
      exact ⟨hr,h1,h2,rfl⟩

/-- The slots before the one of the primary offer hide its id. -/
theorem primary_and_offer {oid : UInt32} :
    ((primaryOf T st ms).isSome = true ∧
      (stateAfter T st ms).getInterface oid = some .zwpPrimarySelectionOffer) ↔
      primaryOf T st ms = some oid ∧ (offerOf T st ms).or (st.slot .wlDataOffer) ≠ some oid ∧
        ∀ i ∈ beforePrimary, i ≠ .wlDataOffer → st.slot i ≠ some oid := by
  rw [getInterface_eq_primary]
  have hs : (stateAfter T st ms).slot .zwpPrimarySelectionOffer =
      (primaryOf T st ms).or (st.slot .zwpPrimarySelectionOffer) := by simp [stateAfter]
  have ho : (stateAfter T st ms).slot .wlDataOffer = (offerOf T st ms).or (st.slot .wlDataOffer) := by
    simp [stateAfter]
  have hot : ∀ i ∈ beforePrimary, i ≠ .wlDataOffer → (stateAfter T st ms).slot i = st.slot i := by
    intro i hi hne
    have hp : i ≠ .zwpPrimarySelectionOffer := by
      rintro rfl
      exact absurd hi (by decide)
    simp [stateAfter,hne,hp]
  have ha : (∀ i ∈ beforePrimary, (stateAfter T st ms).slot i ≠ some oid) ↔
      (offerOf T st ms).or (st.slot .wlDataOffer) ≠ some oid ∧
        ∀ i ∈ beforePrimary, i ≠ .wlDataOffer → st.slot i ≠ some oid := by
    constructor
    · intro h
      refine ⟨?_,?_⟩
      · rw [← ho]
        exact h .wlDataOffer (by decide)
      · intro i hi hne
        rw [← hot i hi hne]
        exact h i hi
    · rintro ⟨h1,h2⟩ i hi
      by_cases hne : i = .wlDataOffer
      · rw [hne,ho]
        exact h1
      · rw [hot i hi hne]
        exact h2 i hi hne
  rw [ha,hs]
  cases primaryOf T st ms with
  | none => simp
  | some o =>
    simp only [isSome_some,some_or,Option.some.injEq,true_and]
    exact and_comm

/-- An offer event is withheld exactly when its object is covered by the chunk. -/
theorem withheld_iff_covered (he : conf.enforce = true) (hl : Enforcing st) {m : Msg}
    (hm : m.opcode = doEOffer) : withheld T conf st ms m = true ↔ Covered T conf st ms m.objectId := by
  unfold withheld Covered
  rw [he,Bool.true_and,toBlock_offer (enforcing_stateAfter hl) _ _ hm]
  exact or_congr coreRefused_and_offer primary_and_offer

end

structure ServerStep where
  before : ProxyState
  events : List Msg
  forwarded : List UInt8

/-- A run of the server direction, up to the first panic; stale bytes follow each chunk. -/
def serverRun (T : Target) (conf : ProxyConfig) : ProxyState → List (List Msg × List UInt8) → List ServerStep
  | _, [] => []
  | st, (ms,stale) :: chunks =>
    match proxyServerToClient T conf st (chunk T ms stale).data (chunk T ms stale).size with
    | .ok (st',data,n) => ⟨st,ms,data.take n⟩ :: serverRun T conf st' chunks
    | .error _ => []

def Carries (T : Target) (bytes : List UInt8) (m : Msg) : Prop :=
  ∃ xs ys, bytes = encodeAll T (xs ++ m :: ys)

theorem carries_encodeAll {T : Target} {ms : List Msg} {m : Msg} : Carries T (encodeAll T ms) m ↔ m ∈ ms := by
  constructor
  · rintro ⟨xs,ys,h⟩
    rw [encodeAll_injective h]
    simp
  · intro h
    obtain ⟨xs,ys,rfl⟩ := append_of_mem h
    exact ⟨xs,ys,rfl⟩

structure Watching (st : ProxyState) (dd : UInt32) : Prop where
  manager : st.hasInterface .wlDataDeviceManager = true
  device : st.slot .wlDataDevice = some dd
  lists : Enforcing st

theorem watching_stateAfter {T : Target} {st : ProxyState} {dd : UInt32} (ms : List Msg) (h : Watching st dd) :
    Watching (stateAfter T st ms) dd :=
  ⟨by simpa [stateAfter,hasInterface] using h.manager,by simpa [stateAfter] using h.device,h.lists⟩

theorem serverRun_step {T : Target} {conf : ProxyConfig} {st : ProxyState} {dd : UInt32}
    {chunks : List (List Msg × List UInt8)} (hst : Watching st dd) {k : ℕ} {s : ServerStep}
    (hs : (serverRun T conf st chunks)[k]? = some s) :
    Watching s.before dd ∧ (chunks[k]?).map (·.1) = some s.events ∧
      s.forwarded = encodeAll T (kept T conf s.before s.events) := by
  induction chunks generalizing st k with
  | nil => simp [serverRun] at hs
  | cons c chunks ih =>
    obtain ⟨ms,stale⟩ := c
    cases hc : proxyServerToClient T conf st (chunk T ms stale).data (chunk T ms stale).size with
    | error e => simp [serverRun,hc] at hs
    | ok r =>
      have hr : ServerReadable T conf (chunk T ms stale) st :=
        returns_proxyServerToClient.1 ⟨r,hc⟩ hst.manager
      have heq := proxyServerToClient_chunk conf stale hst.manager ((serverReadable_chunk conf stale).1 hr)
      simp only [serverRun,heq] at hs
      cases k with
      | zero =>
        simp only [getElem?_cons_zero,Option.some.injEq] at hs
        subst hs
        exact ⟨hst,rfl,by simp [chunk]⟩
      | succ k =>
        rw [getElem?_cons_succ] at hs
        exact ih (watching_stateAfter ms hst) hs

def mimeType (payload : List UInt8) : Str := (payload.drop wordSize).takeWhile (· != 0)
def tagOf (payload : List UInt8) : Option Str :=
  if mimeTypePrefix.isPrefixOf (mimeType payload) then some ((mimeType payload).drop mimeTypePrefix.length) else none
def Introduces (T : Target) (dd oid : UInt32) (m : Msg) : Prop :=
  m.objectId = dd ∧ m.opcode = ddEDataOffer ∧ m.payload = u32ToNeBytes T oid
instance (T : Target) (dd oid : UInt32) (m : Msg) : Decidable (Introduces T dd oid m) :=
  inferInstanceAs (Decidable (_ ∧ _ ∧ _))

/-- The zone of an introduced offer: that of its first tag before the id is
introduced again. -/
def introducedZone (T : Target) (dd oid : UInt32) : List Msg → Option Str
  | [] => none
  | m :: ms =>
    if Introduces T dd oid m then none
    else if m.objectId = oid ∧ m.opcode = doEOffer then (tagOf m.payload).or (introducedZone T dd oid ms)
    else introducedZone T dd oid ms

/-- An offer event, among those sent before and after it, of a data offer whose
zone is not authorised. -/
def Forbidden (T : Target) (conf : ProxyConfig) (dd : UInt32) (before : List Msg) (e : Msg) (after : List Msg) :
    Prop :=
  e.opcode = doEOffer ∧ ∃ xs intro ys zone, before = xs ++ intro :: ys ∧ Introduces T dd e.objectId intro ∧
    (∀ m ∈ ys, ¬ Introduces T dd e.objectId m) ∧ introducedZone T dd e.objectId (ys ++ e :: after) = some zone ∧
    conf.zoneIsAuthorized zone = false

def SentIn (chunks : List (List Msg × List UInt8)) (k : ℕ) (before : List Msg) (e : Msg) (after : List Msg) : Prop :=
  ∃ cs ms stale cs' xs ys, chunks = cs ++ (ms,stale) :: cs' ∧ k = cs.length ∧ ms = xs ++ e :: ys ∧
    before = cs.flatMap (·.1) ++ xs ∧ after = ys ++ cs'.flatMap (·.1)

/-- For every chunking: no offer event of an unauthorised data offer is forwarded exactly when each
is covered by its chunk. -/
theorem no_forbidden_offer_forwarded_iff (T : Target) (conf : ProxyConfig) (st : ProxyState) (dd : UInt32)
    (chunks : List (List Msg × List UInt8)) (henf : conf.enforce = true) (hst : Watching st dd) :
    (∀ k before e after s, SentIn chunks k before e after → Forbidden T conf dd before e after →
      (serverRun T conf st chunks)[k]? = some s → ¬ Carries T s.forwarded e) ↔
    (∀ k before e after s, SentIn chunks k before e after → Forbidden T conf dd before e after →
      (serverRun T conf st chunks)[k]? = some s → Covered T conf s.before s.events e.objectId) := by
  have hp : ∀ k before e after s, SentIn chunks k before e after → Forbidden T conf dd before e after →
      (serverRun T conf st chunks)[k]? = some s →
      (¬ Carries T s.forwarded e ↔ Covered T conf s.before s.events e.objectId) := by
    rintro k before e after s ⟨cs,ms,stale,cs',xs,ys,hc,rfl,hms,_,_⟩ hf hs
    obtain ⟨hw,hev,hfw⟩ := serverRun_step hst hs
    have hmem : e ∈ s.events := by
      rw [hc,getElem?_append_right le_rfl,Nat.sub_self,getElem?_cons_zero,
        map_some,Option.some.injEq] at hev
      rw [← hev]
      simp [hms]
    rw [hfw,carries_encodeAll,← withheld_iff_covered henf hw.lists hf.1]
    simp [kept,hmem]
  constructor
  · intro h k before e after s hse hf hs
    exact (hp k before e after s hse hf hs).1 (h k before e after s hse hf hs)
  · intro h k before e after s hse hf hs
    exact (hp k before e after s hse hf hs).2 (h k before e after s hse hf hs)

def introEvent : Msg := ⟨6,0,[9,0,0,0],by decide⟩
def tagEvent : Msg := ⟨9,0,[15,0,0,0] ++ ascii "padsi/zone;z=b" ++ [0,0],by decide⟩
def textEvent : Msg := ⟨9,0,[11,0,0,0] ++ ascii "text/plain" ++ [0,0],by decide⟩

def strictConf : ProxyConfig := ⟨ascii "a",[],false,true⟩
def watchingState : ProxyState :=
  ((ProxyState.new true).setSlot .wlDataDeviceManager (some 5)).setSlot .wlDataDevice (some 6)
theorem watching_watchingState : Watching watchingState 6 := ⟨rfl,rfl,rfl,rfl⟩

theorem no_forbidden_offer_forwarded_iff_one_chunk :
    strictConf.enforce = true ∧ Watching watchingState 6 ∧
    ((∀ k before e after s, SentIn [([introEvent,tagEvent,textEvent],[])] k before e after →
      Forbidden ⟨true,true⟩ strictConf 6 before e after →
      (serverRun ⟨true,true⟩ strictConf watchingState [([introEvent,tagEvent,textEvent],[])])[k]? = some s →
      ¬ Carries ⟨true,true⟩ s.forwarded e) ↔
    (∀ k before e after s, SentIn [([introEvent,tagEvent,textEvent],[])] k before e after →
      Forbidden ⟨true,true⟩ strictConf 6 before e after →
      (serverRun ⟨true,true⟩ strictConf watchingState [([introEvent,tagEvent,textEvent],[])])[k]? = some s →
      Covered ⟨true,true⟩ strictConf s.before s.events e.objectId)) :=
  ⟨rfl,watching_watchingState,
    no_forbidden_offer_forwarded_iff ⟨true,true⟩ strictConf watchingState 6 _ rfl watching_watchingState⟩

/-- The three events in one chunk lose both offers; with the introduction alone
in the first chunk, both are forwarded. -/
theorem forbidden_offer_forwarded_after_split :
    Watching watchingState 6 ∧
    Forbidden ⟨true,true⟩ strictConf 6 [introEvent,tagEvent] textEvent [] ∧
    SentIn [([introEvent],[]),([tagEvent,textEvent],[])] 1 [introEvent,tagEvent] textEvent [] ∧
    (serverRun ⟨true,true⟩ strictConf watchingState [([introEvent,tagEvent,textEvent],[])]).map (·.forwarded) =
      [encodeAll ⟨true,true⟩ [introEvent]] ∧
    (serverRun ⟨true,true⟩ strictConf watchingState [([introEvent],[]),([tagEvent,textEvent],[])]).map (·.forwarded) =
      [encodeAll ⟨true,true⟩ [introEvent],encodeAll ⟨true,true⟩ [tagEvent,textEvent]] := by
  refine ⟨watching_watchingState,?_,?_,?_,?_⟩
  · exact ⟨rfl,[],introEvent,[tagEvent],ascii "b",rfl,by decide,by decide,by decide,by decide⟩
  · exact ⟨[([introEvent],[])],_,_,[],[tagEvent],[],rfl,rfl,rfl,rfl,rfl⟩
  · decide
  · decide

def accentEvent : Msg :=
  ⟨9,0,[28,0,0,0] ++ ascii "aaaaaaaaaaaa" ++ [0xc3,0xa9] ++ ascii "padsi/zone;z=" ++ [0],by decide⟩

/-- The zone would start in the middle of a character: the call does not return. -/
theorem accentEvent_not_framed : ¬ Framed ⟨true,true⟩ strictConf watchingState [introEvent,accentEvent] [] := by
  intro h
  have hr := h.readable rfl
  have hb := hr.tag 9 (by decide) accentEvent (by decide)
  revert hb
  decide

end Padsi.Wayland
