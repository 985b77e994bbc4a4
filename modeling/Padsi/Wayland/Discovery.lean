import Padsi.Wayland.Tagging

/-! # Discovery of the data device manager

The search decodes the whole payload of the bind request as text, integer words included.
-/
namespace Padsi.Wayland
open Rust List Option ProxyState WlInterface

section
variable {st : ProxyState} {oid : UInt32}

theorem getInterface_manager (h : st.slot .wlDataDeviceManager = some oid) :
    st.getInterface oid = some .wlDataDeviceManager := by
  unfold getInterface lookupOrder
  simp [h]

theorem getInterface_of_manager (h : st.getInterface oid = some .wlDataDeviceManager) :
    st.slot .wlDataDeviceManager = some oid := by
  simpa using find?_some h

def Releases (oid : UInt32) (m : MessageMeta) : Prop := m.objectId = oid ∧ m.opcode = ddmRDestroy

theorem handleDestroyMessage_cases (st : ProxyState) (m : MessageMeta) :
    (∃ i, st.getInterface m.objectId = some i ∧ st.releaseOpcodes i = some m.opcode ∧
      st.handleDestroyMessage m = st.setSlot i none) ∨
    ((∀ i, st.getInterface m.objectId = some i → st.releaseOpcodes i ≠ some m.opcode) ∧
      st.handleDestroyMessage m = st) := by
  unfold handleDestroyMessage deleteObjectId
  cases hi : st.getInterface m.objectId with
  | none => exact .inr ⟨by simp,rfl⟩
  | some i =>
    cases hr : st.releaseOpcodes i with
    | none => exact .inr ⟨by simp [hr],by simp [hr]⟩
    | some op =>
      by_cases hop : op = m.opcode
      · exact .inl ⟨i,rfl,by rw [hr,hop],by simp [hr,hop]⟩
      · exact .inr ⟨by simp [hr,hop],by simp [hr,hop]⟩

theorem handleDestroyMessage_releaseOpcodes (st : ProxyState) (m : MessageMeta) :
    (st.handleDestroyMessage m).releaseOpcodes = st.releaseOpcodes := by
  rcases handleDestroyMessage_cases st m with ⟨i,_,_,h⟩ | ⟨_,h⟩
  · rw [h,setSlot_releaseOpcodes]
  · rw [h]

theorem handleDestroyMessage_manager (hre : st.releaseOpcodes .wlDataDeviceManager = some ddmRDestroy)
    (m : MessageMeta) :
    (st.handleDestroyMessage m).slot .wlDataDeviceManager = some oid ↔
      st.slot .wlDataDeviceManager = some oid ∧ ¬ Releases oid m := by
  rcases handleDestroyMessage_cases st m with ⟨i,hi,hr,h⟩ | ⟨hnot,h⟩
  · rw [h,setSlot_slot]
    by_cases hm : wlDataDeviceManager = i
    · subst hm
      have hs := getInterface_of_manager hi
      have hop : m.opcode = ddmRDestroy := Option.some.inj (hr.symm.trans hre)
      rw [if_pos rfl,hs,Option.some.injEq]
      refine iff_of_false (by simp) ?_
      rintro ⟨ho,hno⟩
      exact hno ⟨ho,hop⟩
    · rw [if_neg hm]
      refine ⟨fun hs => ⟨hs,?_⟩,fun hs => hs.1⟩
      rintro ⟨rfl,_⟩
      rw [getInterface_manager hs] at hi
      exact hm (Option.some.inj hi)
  · rw [h]
    refine ⟨fun hs => ⟨hs,?_⟩,fun hs => hs.1⟩
    rintro ⟨rfl,hop⟩
    exact hnot _ (getInterface_manager hs) (hre.trans (congrArg some hop.symm))

theorem handleDestroyMessages_manager (hr : st.releaseOpcodes .wlDataDeviceManager = some ddmRDestroy)
    (ms : List MessageMeta) :
    (st.handleDestroyMessages ms).slot .wlDataDeviceManager = some oid ↔
      st.slot .wlDataDeviceManager = some oid ∧ ∀ m ∈ ms, ¬ Releases oid m := by
  induction ms generalizing st with
  | nil => simp [handleDestroyMessages]
  | cons m ms ih =>
    have hs := @ih (st.handleDestroyMessage m)
      (by rw [handleDestroyMessage_releaseOpcodes,hr])
    unfold handleDestroyMessages at hs ⊢
    rw [foldl_cons,hs,handleDestroyMessage_manager hr,and_assoc,forall_mem_cons]

theorem releases_matching (h : st.slot .wlDataDeviceManager = some oid) (ms : List MessageMeta) :
    (∀ m ∈ st.getMatchingMessages ms, ¬ Releases oid m) ↔ ∀ m ∈ ms, ¬ Releases oid m := by
  unfold getMatchingMessages
  constructor
  · intro ha m hm hr
    refine ha m (mem_filter.2 ⟨hm,?_⟩) hr
    rw [hr.1,getInterface_manager h]
    rfl
  · intro ha m hm
    exact ha m (mem_filter.1 hm).1

end

/-- The slot has the id that was bound for the manager, if it is not released. -/
theorem proxyClientToServer_manager {T : Target} {conf : ProxyConfig} {st : ProxyState} {data : List UInt8} {n : ℕ}
    {oid : UInt32} (hrl : st.releaseOpcodes .wlDataDeviceManager = some ddmRDestroy) :
    (∃ r, proxyClientToServer T conf st data n = .ok r ∧ r.1.slot .wlDataDeviceManager = some oid) ↔
      ClientReadable T ⟨data,n⟩ st ∧ managerId T ⟨data,n⟩ st .wlDataDeviceManager = some oid ∧
        ∀ m ∈ (taggedBuffer T conf ⟨data,n⟩ (discovered T ⟨data,n⟩ st)).parsed T, ¬ Releases oid m := by
  have hs : (discovered T ⟨data,n⟩ st).slot .wlDataDeviceManager =
      managerId T ⟨data,n⟩ st .wlDataDeviceManager := rfl
  have hrs : (clientResult T conf ⟨data,n⟩ st).1.slot .wlDataDeviceManager = some oid ↔
      managerId T ⟨data,n⟩ st .wlDataDeviceManager = some oid ∧
        ∀ m ∈ (taggedBuffer T conf ⟨data,n⟩ (discovered T ⟨data,n⟩ st)).parsed T, ¬ Releases oid m := by
    unfold clientResult
    dsimp only
    rw [hs]
    cases hm : managerId T ⟨data,n⟩ st .wlDataDeviceManager with
    | none =>
      simp only [isSome_none,Bool.false_eq_true,↓reduceIte,hs,hm,reduceCtorEq,false_and]
    | some mid =>
      simp only [isSome_some,↓reduceIte]
      rw [handleDestroyMessages_manager (by exact hrl), hs, hm]
      refine and_congr_right ?_
      intro hmi
      exact releases_matching (hs.trans (hm.trans hmi)) _
  constructor
  · rintro ⟨r,hr,hs⟩
    have hre := exactly_proxyClientToServer.cond ⟨r,hr⟩
    rw [exactly_proxyClientToServer.eq hre] at hr
    cases hr
    exact ⟨hre,hrs.1 hs⟩
  · rintro ⟨hre,hrest⟩
    exact ⟨_,exactly_proxyClientToServer.eq hre,hrs.2 hrest⟩

theorem bindText_length (T : Target) : (bindText T).length = 28 := by
  simp only [bindText,length_append,u32ToNeBytes_length]
  rfl

def bindRequest (T : Target) (registry name version newId : UInt32) : Msg :=
  ⟨registry,registryRBind,
    u32ToNeBytes T name ++ (bindText T ++ (u32ToNeBytes T version ++ u32ToNeBytes T newId)),
    by simp [bindText_length,headerSize,wordSize]⟩

/-- The integer words of the bind request are well-formed UTF-8. -/
def WordsDecodable (T : Target) (name version newId : UInt32) : Prop :=
  Utf8.valid (u32ToNeBytes T name) = true ∧ Utf8.valid (u32ToNeBytes T version ++ u32ToNeBytes T newId) = true

instance (T : Target) (name version newId : UInt32) : Decidable (WordsDecodable T name version newId) :=
  inferInstanceAs (Decidable (_ ∧ _))

section
variable {T : Target} {registry name version newId : UInt32}

theorem bindText_ascii (T : Target) : ∀ x ∈ bindText T, x < 0x80 := by
  have ha : (bindText ⟨true,true⟩).all (fun b => b.toNat < 128) = true ∧
      (bindText ⟨false,true⟩).all (fun b => b.toNat < 128) = true := by decide
  have hb : bindText T = bindText ⟨T.littleEndian,true⟩ := rfl
  intro x hx
  rw [hb] at hx
  cases hl : T.littleEndian with
  | true =>
    rw [hl] at hx
    simpa [UInt8.lt_iff_toNat_lt] using all_eq_true.1 ha.1 x hx
  | false =>
    rw [hl] at hx
    simpa [UInt8.lt_iff_toNat_lt] using all_eq_true.1 ha.2 x hx

theorem valid_bindRequest :
    Utf8.valid (bindRequest T registry name version newId).payload = true ↔ WordsDecodable T name version newId := by
  unfold bindRequest WordsDecodable
  dsimp only
  have ha := bindText_ascii T
  have hl := bindText_length T
  cases ht : bindText T with
  | nil => simp [ht] at hl
  | cons b rest =>
    rw [ht,forall_mem_cons] at ha
    rw [cons_append,Utf8.valid_append_ascii _ _ ha.1,Utf8.valid_ascii_append _ ha.2]

theorem hit_bindRequest :
    (bindRequest T registry name version newId).hit none 0 (some wlDataDeviceManager.id) = true ↔
      WordsDecodable T name version newId := by
  have hc : containsSub wlDataDeviceManager.id
      (bindRequest T registry name version newId).payload = true := by
    rw [containsSub_iff]
    exact ⟨u32ToNeBytes T name ++ u32ToNeBytes T 23,[0,0] ++ (u32ToNeBytes T version ++ u32ToNeBytes T newId),
      by simp [bindRequest,bindText]⟩
  rw [← @valid_bindRequest T registry]
  simp only [Msg.hit,all_some,hc,Bool.and_true,Bool.and_eq_true,decide_eq_true_eq]
  simp [bindRequest,registryRBind]

theorem wordBefore_bindRequest :
    wordBefore T (bindRequest T registry name version newId).payload 0 = some newId := by
  have h := wordBefore_append T (u32ToNeBytes T name ++ (bindText T ++ u32ToNeBytes T version)) newId
  simpa [bindRequest] using h

theorem referenced_bindRequest {pre post : List Msg}
    (hp : ∀ x ∈ pre, x.opcode = 0 → ¬ wlDataDeviceManager.id <:+: x.payload) :
    referenced T (pre ++ bindRequest T registry name version newId :: post) none 0
        (some wlDataDeviceManager.id) 0 = some newId ↔
      WordsDecodable T name version newId ∨
        referenced T post none 0 (some wlDataDeviceManager.id) 0 = some newId := by
  have hs : pre.find? (Msg.hit none 0 (some wlDataDeviceManager.id)) = none := by
    rw [find?_eq_none]
    intro x hx hh
    simp only [Msg.hit,all_some,Bool.and_eq_true,decide_eq_true_eq,containsSub_iff] at hh
    exact hp x hx hh.1.2 hh.2.2
  unfold referenced
  rw [find?_append,hs,none_or,find?_cons]
  by_cases hw : WordsDecodable T name version newId
  · have hl : 0 + wordSize ≤ (bindRequest T registry name version newId).payload.length := by
      simp [bindRequest,wordSize]
    rw [hit_bindRequest.2 hw]
    simp only [bind_some,hl,↓reduceIte,wordBefore_bindRequest,hw,true_or]
  · have hm : (bindRequest T registry name version newId).hit none 0
        (some wlDataDeviceManager.id) = false := by
      rw [← Bool.not_eq_true,hit_bindRequest]
      exact hw
    rw [hm]
    simp only [hw,false_or]

end

theorem releases_taggedBuffer {T : Target} {conf : ProxyConfig} (h : TagFits T conf.zone) (st : ProxyState)
    (ms : List Msg) (stale : List UInt8) (oid : UInt32) :
    (∀ m ∈ (taggedBuffer T conf (chunk T ms stale) st).parsed T, ¬ Releases oid m) ↔
      ∀ m ∈ ms, ¬ (m.objectId = oid ∧ m.opcode = ddmRDestroy) := by
  have hm : ∀ (i : ℕ) (ms : List Msg), (∀ m ∈ metas i ms, ¬ Releases oid m) ↔
      ∀ m ∈ ms, ¬ (m.objectId = oid ∧ m.opcode = ddmRDestroy) := by
    intro i ms
    induction ms generalizing i with
    | nil => simp [metas]
    | cons m ms ih =>
      rw [metas,forall_mem_cons,forall_mem_cons,ih]
      rfl
  cases hs : st.slot .wlDataSource with
  | none =>
    have hsa : taggedBuffer T conf (chunk T ms stale) st = chunk T ms stale := by
      unfold taggedBuffer
      rw [hs]
    rw [hsa,parsed_chunk,hm]
  | some src =>
    rw [taggedBuffer_chunk h hs,parsed_chunk,hm]
    rcases insertTag_cases src (tagMsg T h src) ms with ⟨_,heq⟩ | ⟨xs,m,ys,rfl,_,_,heq⟩
    · rw [heq]
    · have ht : ¬ ((tagMsg T h src).objectId = oid ∧ (tagMsg T h src).opcode = ddmRDestroy) := by
        rintro ⟨_,hop⟩
        exact absurd (show dsROffer = ddmRDestroy from hop) (by decide)
      rw [heq]
      simp only [forall_mem_append,forall_mem_cons,ht,not_false_eq_true,true_and]

/-- A chunk with a bind request for the manager leaves its id in the slot exactly when the chunk is
readable, the words around the name decode (or a later request has the same id) and no forwarded
message releases the id. -/
theorem manager_discovered_iff (T : Target) (conf : ProxyConfig) (st : ProxyState) (pre post : List Msg)
    (stale : List UInt8) (registry name version newId : UInt32) {ms : List Msg}
    (hms : ms = pre ++ bindRequest T registry name version newId :: post)
    (hst : st.slot .wlDataDeviceManager = none)
    (hrel : st.releaseOpcodes = (ProxyState.new true).releaseOpcodes)
    (hpre : ∀ x ∈ pre, x.opcode = 0 → ¬ WlInterface.wlDataDeviceManager.id <:+: x.payload) :
    ((∃ r, proxyClientToServer T conf st (chunk T ms stale).data (chunk T ms stale).size = .ok r ∧
        r.1.slot .wlDataDeviceManager = some newId) ↔
      ClientReadable T (chunk T ms stale) st ∧
      (WordsDecodable T name version newId ∨
        referenced T post none 0 (some WlInterface.wlDataDeviceManager.id) 0 = some newId) ∧
      ∀ m ∈ (taggedBuffer T conf (chunk T ms stale) (discovered T (chunk T ms stale) st)).parsed T,
        ¬ Releases newId m) ∧
    (TagFits T conf.zone →
      ((∀ m ∈ (taggedBuffer T conf (chunk T ms stale) (discovered T (chunk T ms stale) st)).parsed T,
        ¬ Releases newId m) ↔
      ∀ m ∈ ms, ¬ (m.objectId = newId ∧ m.opcode = ddmRDestroy))) := by
  have hr' : st.releaseOpcodes .wlDataDeviceManager = some ddmRDestroy := by
    rw [hrel]
    rfl
  have hm : managerId T (chunk T ms stale) st .wlDataDeviceManager =
      referenced T ms none 0 (some wlDataDeviceManager.id) 0 := by
    rw [managerId_chunk,managerOf,hst]
  refine ⟨?_,fun h => releases_taggedBuffer h _ ms stale newId⟩
  refine (proxyClientToServer_manager hr').trans ?_
  refine and_congr_right (fun _ => and_congr_left (fun _ => ?_))
  change managerId T (chunk T ms stale) st .wlDataDeviceManager = some newId ↔ _
  rw [hm,hms]
  exact referenced_bindRequest hpre

theorem manager_discovered_iff_ascii_words :
    (ProxyState.new true).slot .wlDataDeviceManager = none ∧
    (((∃ r, proxyClientToServer ⟨true,true⟩ zoneConf (ProxyState.new true)
          (chunk ⟨true,true⟩ ([] ++ [bindRequest ⟨true,true⟩ 2 1 3 5]) []).data
          (chunk ⟨true,true⟩ ([] ++ [bindRequest ⟨true,true⟩ 2 1 3 5]) []).size = .ok r ∧
        r.1.slot .wlDataDeviceManager = some 5) ↔
      ClientReadable ⟨true,true⟩ (chunk ⟨true,true⟩ ([] ++ [bindRequest ⟨true,true⟩ 2 1 3 5]) [])
        (ProxyState.new true) ∧
      (WordsDecodable ⟨true,true⟩ 1 3 5 ∨
        referenced ⟨true,true⟩ [] none 0 (some WlInterface.wlDataDeviceManager.id) 0 = some 5) ∧
      ∀ m ∈ (taggedBuffer ⟨true,true⟩ zoneConf (chunk ⟨true,true⟩ ([] ++ [bindRequest ⟨true,true⟩ 2 1 3 5]) [])
          (discovered ⟨true,true⟩ (chunk ⟨true,true⟩ ([] ++ [bindRequest ⟨true,true⟩ 2 1 3 5]) [])
            (ProxyState.new true))).parsed ⟨true,true⟩, ¬ Releases 5 m)) :=
  ⟨rfl,(manager_discovered_iff ⟨true,true⟩ zoneConf (new true) [] [] [] 2 1 3 5 rfl rfl rfl
    (by simp)).1⟩

/-- The 255th object id of a client is enough: the same request with new id 255
leaves the manager unknown, although it returns. -/
theorem manager_missed_for_new_id_255 :
    (proxyClientToServer ⟨true,true⟩ zoneConf (ProxyState.new true)
      (chunk ⟨true,true⟩ [bindRequest ⟨true,true⟩ 2 1 3 5] []).data
      (chunk ⟨true,true⟩ [bindRequest ⟨true,true⟩ 2 1 3 5] []).size).toOption.map
        (·.1.slot .wlDataDeviceManager) = some (some 5) ∧
    (proxyClientToServer ⟨true,true⟩ zoneConf (ProxyState.new true)
      (chunk ⟨true,true⟩ [bindRequest ⟨true,true⟩ 2 1 3 255] []).data
      (chunk ⟨true,true⟩ [bindRequest ⟨true,true⟩ 2 1 3 255] []).size).toOption.map
        (·.1.slot .wlDataDeviceManager) = some none := by
  decide

end Padsi.Wayland
