import Padsi.Wayland.Blocking
import Padsi.Wayland.Tagging

/-! # The two forwarding threads of a connection

Each thread owns one receive buffer for its whole life. The filter splices it in place,
and nothing restores its length.
-/
namespace Padsi.Wayland
open Rust List Option ProxyState

inductive ForwardMode where
  | clientToServer
  | serverToClient
deriving DecidableEq

def bufSize : ℕ := 65536

inductive Reception where
  | failed
  | received (bytes : List UInt8) (fds sent : Bool)

structure Connection where
  state : ProxyState
  /-- a thread has panicked while it held the state -/
  poisoned : Bool
  /-- the receive buffer of each thread, none once the thread has ended -/
  buffer : ForwardMode → Option (List UInt8)

def Connection.start (enforce : Bool) : Connection where
  state := ProxyState.new enforce
  poisoned := false
  buffer _ := some (replicate bufSize 0)

def Connection.withBuffer (c : Connection) (mode : ForwardMode) (buf : Option (List UInt8)) : Connection :=
  { c with buffer := fun m => if m = mode then buf else c.buffer m }
def fill (bytes buf : List UInt8) : List UInt8 := bytes ++ buf.drop bytes.length

def adapt (T : Target) (conf : ProxyConfig) (mode : ForwardMode) (st : ProxyState) (data : List UInt8) (n : ℕ) :
    Partial (ProxyState × List UInt8 × ℕ) :=
  match mode with
  | .clientToServer => proxyClientToServer T conf st data n
  | .serverToClient => proxyServerToClient T conf st data n

/-- A panic poisons the state; a size beyond the buffer panics after it is released. -/
def Connection.afterCall (c : Connection) (mode : ForwardMode) (sent : Bool) :
    Partial (ProxyState × List UInt8 × ℕ) → Connection
  | .error _ => { c.withBuffer mode none with poisoned := true }
  | .ok (st,data,n) =>
    { c.withBuffer mode (if sent && decide (n ≤ data.length) then some data else none) with state := st }

/-- One turn of the loop of a thread; absent if the thread has ended or the
bytes do not fit the buffer. -/
def turn (T : Target) (conf : ProxyConfig) (c : Connection) (mode : ForwardMode) (r : Reception) :
    Option Connection :=
  match c.buffer mode, r with
  | none, _ => none
  | some _, .failed => some (c.withBuffer mode none)
  | some buf, .received bytes fds sent =>
    if bytes.length ≤ buf.length then
      if (bytes.isEmpty && !fds) || c.poisoned then some (c.withBuffer mode none)
      else some (c.afterCall mode sent (adapt T conf mode c.state (fill bytes buf) bytes.length))
    else none

def connectionRun (T : Target) (conf : ProxyConfig) (c : Connection) (events : List (ForwardMode × Reception)) :
    Option Connection :=
  events.foldlM (fun c e => turn T conf c e.1 e.2) c

section
variable {T : Target} {conf : ProxyConfig} {c c' : Connection} {mode : ForwardMode} {r : Reception}

@[simp] theorem withBuffer_buffer (c : Connection) (mode m : ForwardMode) (buf : Option (List UInt8)) :
    (c.withBuffer mode buf).buffer m = if m = mode then buf else c.buffer m := rfl

variable {m : ForwardMode}

theorem withBuffer_none {buf : List UInt8} (h : (c.withBuffer mode none).buffer m = some buf) :
    m ≠ mode ∧ c.buffer m = some buf := by
  rw [withBuffer_buffer] at h
  split_ifs at h with hm
  exact ⟨hm,h⟩

theorem afterCall_buffer {sent : Bool} {p : Partial (ProxyState × List UInt8 × ℕ)}
    {buf : List UInt8} (h : (c.afterCall mode sent p).buffer m = some buf) :
    (m ≠ mode ∧ c.buffer m = some buf) ∨ (m = mode ∧ ∃ st n, p = .ok (st,buf,n)) := by
  cases p with
  | error e => exact .inl (withBuffer_none h)
  | ok res =>
    obtain ⟨st,data,n⟩ := res
    simp only [Connection.afterCall,withBuffer_buffer] at h
    split_ifs at h with hm
    · cases h
      exact .inr ⟨hm,st,n,rfl⟩
    · exact .inl ⟨hm,h⟩

/-- A buffer after a turn: the thread was alive, and the buffer is the same one or
what the filter made of the received bytes. -/
theorem turn_buffer (h : turn T conf c mode r = some c') {buf' : List UInt8} (hb : c'.buffer m = some buf') :
    ∃ buf, c.buffer m = some buf ∧
      (m ≠ mode ∧ buf' = buf ∨
       m = mode ∧ ∃ bytes fds sent st n, r = .received bytes fds sent ∧ bytes.length ≤ buf.length ∧
        adapt T conf mode c.state (fill bytes buf) bytes.length = .ok (st,buf',n)) := by
  unfold turn at h
  cases hbu : c.buffer mode with
  | none => simp [hbu] at h
  | some buf =>
    cases r with
    | failed =>
      simp only [hbu,Option.some.injEq] at h
      subst h
      obtain ⟨hm,hs⟩ := withBuffer_none hb
      exact ⟨buf',hs,.inl ⟨hm,rfl⟩⟩
    | received bytes fds sent =>
      simp only [hbu] at h
      split_ifs at h with hl he
      · cases h
        obtain ⟨hm,hs⟩ := withBuffer_none hb
        exact ⟨buf',hs,.inl ⟨hm,rfl⟩⟩
      · cases h
        rcases afterCall_buffer hb with ⟨hm,hs⟩ | ⟨rfl,st,n,hc⟩
        · exact ⟨buf',hs,.inl ⟨hm,rfl⟩⟩
        · exact ⟨buf,hbu,.inr ⟨rfl,bytes,fds,sent,st,n,rfl,hl,hc⟩⟩

end

section
variable {T : Target} {conf : ProxyConfig} {st st' : ProxyState} {data data' : List UInt8} {n n' : ℕ}

theorem fill_length {bytes buf : List UInt8} (h : bytes.length ≤ buf.length) :
    (fill bytes buf).length = buf.length := by
  simp only [fill,length_append,length_drop]
  omega

theorem taggedBuffer_length (T : Target) (conf : ProxyConfig) (b : ProxyBuffer) (st : ProxyState) :
    b.data.length ≤ (taggedBuffer T conf b st).data.length := by
  unfold taggedBuffer
  cases st.slot .wlDataSource with
  | none => exact le_rfl
  | some oid =>
    dsimp only
    cases b.found T (some oid) dsROffer none with
    | none => exact le_rfl
    | some m =>
      simp only [length_append,length_take,length_drop]
      omega

theorem proxyClientToServer_length (h : proxyClientToServer T conf st data n = .ok (st',data',n')) :
    data.length ≤ data'.length := by
  rw [exactly_proxyClientToServer.eq (exactly_proxyClientToServer.cond ⟨_,h⟩)] at h
  have hd : data' = (clientResult T conf ⟨data,n⟩ st).2.1 := by rw [Except.ok.inj h]
  rw [hd]
  unfold clientResult
  dsimp only
  split_ifs
  · exact taggedBuffer_length T conf ⟨data,n⟩ _
  · exact le_rfl

def lost (T : Target) (conf : ProxyConfig) (b : ProxyBuffer) (st : ProxyState) : List MessageMeta :=
  if st.hasInterface .wlDataDeviceManager then blocked T conf b st else []

theorem spaced_blocked (T : Target) (conf : ProxyConfig) (b : ProxyBuffer) (st : ProxyState) :
    Spaced b.data 0 (blocked T conf b st) := by
  unfold blocked
  split_ifs
  · exact (ProxyBuffer.parsed_contiguous T b).spaced.filter _
  · trivial

theorem proxyServerToClient_length (h : proxyServerToClient T conf st data n = .ok (st',data',n')) :
    data'.length + totalSize (lost T conf ⟨data,n⟩ st) = data.length := by
  unfold lost
  cases hd : st.hasInterface .wlDataDeviceManager with
  | false =>
    rw [proxyServerToClient_unknown hd] at h
    cases h
    simp
  | true =>
    obtain ⟨ho,ht,hp,_⟩ := returns_proxyServerToClient.1 ⟨_,h⟩ hd
    rw [proxyServerToClient_eq hd ho ht hp] at h
    obtain ⟨m,_,hm⟩ := bind_eq_ok.1 h
    cases hm
    simpa using (cut_spec (spaced_blocked T conf ⟨data,n⟩ st)).2

theorem totalSize_lost_eq_zero {b : ProxyBuffer} : totalSize (lost T conf b st) = 0 ↔ lost T conf b st = [] := by
  have hs : Spaced b.data 0 (lost T conf b st) := by
    unfold lost
    split_ifs
    · exact spaced_blocked T conf b st
    · trivial
  cases hl : lost T conf b st with
  | nil => simp
  | cons m ms =>
    rw [hl] at hs
    have hm : 8 ≤ m.size := hs.2.1.1
    simp only [totalSize_cons,reduceCtorEq,iff_false]
    omega

end

def Blocks (T : Target) (conf : ProxyConfig) (c : Connection) (e : ForwardMode × Reception) : Prop :=
  e.1 = .serverToClient ∧ ∃ buf bytes fds sent, c.buffer .serverToClient = some buf ∧
    e.2 = .received bytes fds sent ∧ lost T conf ⟨fill bytes buf,bytes.length⟩ c.state ≠ []

def NeverBlocks (T : Target) (conf : ProxyConfig) : Connection → List (ForwardMode × Reception) → Prop
  | _, [] => True
  | c, e :: events => ¬ Blocks T conf c e ∧ ∀ c', turn T conf c e.1 e.2 = some c' → NeverBlocks T conf c' events

section
variable {T : Target} {conf : ProxyConfig} {c c' : Connection}

variable {buf' : List UInt8}

theorem turn_client_length {e : ForwardMode × Reception} (h : turn T conf c e.1 e.2 = some c')
    (hb : c'.buffer .clientToServer = some buf') :
    ∃ buf, c.buffer .clientToServer = some buf ∧ buf.length ≤ buf'.length := by
  obtain ⟨buf,hbu,⟨_,rfl⟩ | ⟨hm,bytes,fds,sent,st,n,_,hl,hc⟩⟩ := turn_buffer h hb
  · exact ⟨buf',hbu,le_rfl⟩
  · rw [← hm] at hc
    refine ⟨buf,hbu,?_⟩
    rw [← fill_length hl]
    exact proxyClientToServer_length hc

theorem turn_server_length {e : ForwardMode × Reception} (h : turn T conf c e.1 e.2 = some c')
    (hb : c'.buffer .serverToClient = some buf') :
    ∃ buf, c.buffer .serverToClient = some buf ∧ buf'.length ≤ buf.length ∧
      (buf'.length = buf.length ↔ ¬ Blocks T conf c e) := by
  obtain ⟨buf,hbu,⟨hm,rfl⟩ | ⟨hm,bytes,fds,sent,st,n,hr,hle,hc⟩⟩ := turn_buffer h hb
  · exact ⟨buf',hbu,le_rfl,iff_of_true rfl (fun hbl => hm hbl.1.symm)⟩
  · rw [← hm] at hc
    have hl := proxyServerToClient_length hc
    rw [fill_length hle] at hl
    refine ⟨buf,hbu,by omega,?_⟩
    have hblo : Blocks T conf c e ↔ lost T conf ⟨fill bytes buf,bytes.length⟩ c.state ≠ [] := by
      constructor
      · rintro ⟨_,buf2,bytes2,fds2,sent2,hb2,hr2,hl2⟩
        cases hbu.symm.trans hb2
        cases hr.symm.trans hr2
        exact hl2
      · intro hne
        exact ⟨hm.symm,buf,bytes,fds,sent,hbu,hr,hne⟩
    rw [hblo,not_not,← totalSize_lost_eq_zero]
    omega

theorem run_client_length {events : List (ForwardMode × Reception)}
    (h : connectionRun T conf c events = some c') (hb : c'.buffer .clientToServer = some buf') :
    ∃ buf, c.buffer .clientToServer = some buf ∧ buf.length ≤ buf'.length := by
  induction events generalizing c with
  | nil =>
    cases h
    exact ⟨buf',hb,le_rfl⟩
  | cons e events ih =>
    obtain ⟨c1,h1,h2⟩ := bind_eq_some_iff.1 h
    obtain ⟨buf1,hb1,hl⟩ := ih h2
    obtain ⟨buf,hb0,hl0⟩ := turn_client_length h1 hb1
    exact ⟨buf,hb0,hl0.trans hl⟩

theorem run_server_length {events : List (ForwardMode × Reception)}
    (h : connectionRun T conf c events = some c') (hb : c'.buffer .serverToClient = some buf') :
    ∃ buf, c.buffer .serverToClient = some buf ∧ buf'.length ≤ buf.length ∧
      (buf'.length = buf.length ↔ NeverBlocks T conf c events) := by
  induction events generalizing c with
  | nil =>
    cases h
    exact ⟨buf',hb,le_rfl,iff_of_true rfl trivial⟩
  | cons e events ih =>
    obtain ⟨c1,h1,h2⟩ := bind_eq_some_iff.1 h
    obtain ⟨buf1,hb1,hl,hi⟩ := ih h2
    obtain ⟨buf,hb0,hl0,hi0⟩ := turn_server_length h1 hb1
    have hnb : NeverBlocks T conf c (e :: events) ↔ ¬ Blocks T conf c e ∧ NeverBlocks T conf c1 events := by
      refine and_congr_right (fun _ => ?_)
      constructor
      · intro ha
        exact ha c1 h1
      · intro ho c2 hc2
        cases h1.symm.trans hc2
        exact ho
    refine ⟨buf,hb0,hl.trans hl0,?_⟩
    rw [hnb,← hi0,← hi]
    omega

/-- In every reachable state the client's buffer has its full size, and the server's exactly if no
event has been blocked. -/
theorem receive_buffer_full_iff (T : Target) (conf : ProxyConfig) (events : List (ForwardMode × Reception))
    (c : Connection) (h : connectionRun T conf (Connection.start conf.enforce) events = some c) :
    (∀ buf, c.buffer .clientToServer = some buf → bufSize ≤ buf.length) ∧
    (∀ buf, c.buffer .serverToClient = some buf →
      (bufSize ≤ buf.length ↔ NeverBlocks T conf (Connection.start conf.enforce) events)) := by
  have hs : ∀ m buf, (Connection.start conf.enforce).buffer m = some buf → buf.length = bufSize := by
    intro m buf hm
    cases hm
    exact length_replicate
  refine ⟨?_,?_⟩
  · intro buf hb
    obtain ⟨buf0,hb0,hle⟩ := run_client_length h hb
    rw [← hs _ _ hb0]
    exact hle
  · intro buf hb
    obtain ⟨buf0,hb0,hle,hi⟩ := run_server_length h hb
    rw [← hi,← hs _ _ hb0]
    omega

end

section
variable {T : Target} {conf : ProxyConfig} {c : Connection} {buf : List UInt8} {ms : List Msg}

theorem encodeAll_not_end (hms : ms ≠ []) (hp : c.poisoned = false) :
    ¬ ((encodeAll T ms).isEmpty && !false || c.poisoned) = true := by
  have hl := length_le_encodeAll T ms
  rw [hp]
  simp only [Bool.not_false,Bool.and_true,Bool.or_false,List.isEmpty_iff]
  intro h
  rw [h] at hl
  exact hms (length_eq_zero_iff.1 (Nat.le_zero.1 hl))

theorem turn_client_chunk (h : TagFits T conf.zone) (hb : c.buffer .clientToServer = some buf)
    (hl : (encodeAll T ms).length ≤ buf.length) (hms : ms ≠ []) (hp : c.poisoned = false)
    (hr : RequestsReadable T c.state ms) :
    ∃ c', turn T conf c .clientToServer (.received (encodeAll T ms) false true) = some c' ∧
      c'.state = requestsState T c.state ms h ∧ c'.poisoned = false ∧
      c'.buffer .serverToClient = c.buffer .serverToClient := by
  have hc := proxyClientToServer_chunk (buf.drop (encodeAll T ms).length) h hr
  refine ⟨c.afterCall .clientToServer true (proxyClientToServer T conf c.state
    (chunk T ms (buf.drop (encodeAll T ms).length)).data (chunk T ms (buf.drop (encodeAll T ms).length)).size),?_,?_⟩
  · unfold turn
    rw [hb]
    dsimp only
    rw [if_pos hl,if_neg (encodeAll_not_end hms hp)]
    rfl
  · rw [hc]
    exact ⟨rfl,hp,rfl⟩

theorem turn_server_chunk (hb : c.buffer .serverToClient = some buf) (hl : (encodeAll T ms).length ≤ buf.length)
    (hms : ms ≠ []) (hp : c.poisoned = false) (hd : c.state.hasInterface .wlDataDeviceManager = true)
    (hr : EventsReadable T c.state ms) :
    ∃ c' buf', turn T conf c .serverToClient (.received (encodeAll T ms) false true) = some c' ∧
      c'.buffer .serverToClient = some buf' ∧
      buf'.length + (encodeAll T ms).length = buf.length + (encodeAll T (kept T conf c.state ms)).length := by
  have hc := proxyServerToClient_chunk conf (buf.drop (encodeAll T ms).length) hd hr
  refine ⟨c.afterCall .serverToClient true (proxyServerToClient T conf c.state
    (chunk T ms (buf.drop (encodeAll T ms).length)).data (chunk T ms (buf.drop (encodeAll T ms).length)).size),
    encodeAll T (kept T conf c.state ms) ++ buf.drop (encodeAll T ms).length,?_,?_,?_⟩
  · unfold turn
    rw [hb]
    dsimp only
    rw [if_pos hl,if_neg (encodeAll_not_end hms hp)]
    rfl
  · rw [hc]
    simp [Connection.afterCall,chunk]
  · simp only [length_append,length_drop]
    omega

end

def deviceRequests : List Msg :=
  [⟨1,1,[2,0,0,0],registry_fits⟩,
    ⟨2,0,[1,0,0,0] ++ bindText ⟨true,true⟩ ++ [3,0,0,0,5,0,0,0],bind_fits⟩,
    ⟨5,1,[6,0,0,0,4,0,0,0],by decide⟩]

def refusedPaste : List (ForwardMode × Reception) :=
  [(.clientToServer,.received (encodeAll ⟨true,true⟩ deviceRequests) false true),
    (.serverToClient,.received (encodeAll ⟨true,true⟩ [introEvent,tagEvent,textEvent]) false true)]

theorem requestsReadable_deviceRequests : RequestsReadable ⟨true,true⟩ (new true) deviceRequests := by
  refine ⟨?_,?_,?_⟩
  · intro mid hmi _ m hm
    have h5 : managerOf ⟨true,true⟩ (new true) deviceRequests .wlDataDeviceManager = some 5 := by decide
    cases h5.symm.trans hmi
    have hf : deviceRequests.find? (Msg.hit (some 5) ddmRGetDataDevice none) =
        some ⟨5,1,[6,0,0,0,4,0,0,0],by decide⟩ := by decide
    cases hf.symm.trans hm
    exact .inl (by decide)
  · intro mid hmi _ m hm
    have hnone : managerOf ⟨true,true⟩ (new true) deviceRequests .zwpPrimarySelectionDeviceManager =
        none := by decide
    cases hnone.symm.trans hmi
  · intro mid hmi _ m hm
    have h5 : managerOf ⟨true,true⟩ (new true) deviceRequests .wlDataDeviceManager = some 5 := by decide
    cases h5.symm.trans hmi
    have hf : deviceRequests.find? (Msg.hit (some 5) ddmRCreateDataSource none) = none := by decide
    cases hf.symm.trans hm

theorem tagFits_strictConf : TagFits ⟨true,true⟩ strictConf.zone := by decide
def deviceState : ProxyState := requestsState ⟨true,true⟩ (ProxyState.new true) deviceRequests tagFits_strictConf

theorem eventsReadable_deviceState :
    EventsReadable ⟨true,true⟩ deviceState [introEvent,tagEvent,textEvent] := by
  refine ⟨?_,?_,?_⟩
  · intro d hd m hm
    have h6 : deviceState.slot .wlDataDevice = some 6 := by decide
    cases h6.symm.trans hd
    have hf : [introEvent,tagEvent,textEvent].find? (Msg.hit (some 6) ddEDataOffer none) = some introEvent := by
      decide
    cases hf.symm.trans hm
    exact .inl (by decide)
  · intro oid ho m hm
    have h9 : offerOf ⟨true,true⟩ deviceState [introEvent,tagEvent,textEvent] = some 9 := by decide
    cases h9.symm.trans ho
    have hf : [introEvent,tagEvent,textEvent].find? (Msg.hit (some 9) doEOffer (some mimeTypePrefix)) =
        some tagEvent := by decide
    cases hf.symm.trans hm
    decide
  · intro d hd
    have hnone : deviceState.slot .zwpPrimarySelectionDevice = none := by decide
    cases hnone.symm.trans hd

theorem refusedPaste_run :
    ∃ c buf, connectionRun ⟨true,true⟩ strictConf (Connection.start true) refusedPaste = some c ∧
      c.buffer .serverToClient = some buf ∧ buf.length + 52 = bufSize := by
  have hbu : (replicate bufSize (0 : UInt8)).length = bufSize := length_replicate
  obtain ⟨c1,h1,hst,hp,hb⟩ := @turn_client_chunk ⟨true,true⟩ strictConf (Connection.start true) _ deviceRequests
    tagFits_strictConf rfl (by rw [hbu]; decide) (by decide) rfl requestsReadable_deviceRequests
  have hs' : c1.state = deviceState := hst
  obtain ⟨c2,buf,h2,hb2,hl⟩ := @turn_server_chunk ⟨true,true⟩ strictConf c1 _ [introEvent,tagEvent,textEvent] hb
    (by rw [hbu]; decide) (by decide) hp (by rw [hs']; decide) (by rw [hs']; exact eventsReadable_deviceState)
  refine ⟨c2,buf,?_,hb2,?_⟩
  · simp only [connectionRun,refusedPaste,foldlM_cons,foldlM_nil,h1,h2,bind_eq_bind,
      bind_some]
    rfl
  · have hk : (encodeAll ⟨true,true⟩ [introEvent,tagEvent,textEvent]).length =
        (encodeAll ⟨true,true⟩ (kept ⟨true,true⟩ strictConf deviceState [introEvent,tagEvent,
          textEvent])).length + 52 := by
      decide
    rw [hs',hbu] at hl
    omega

theorem receive_buffer_full_iff_refusedPaste :
    ∃ c, connectionRun ⟨true,true⟩ strictConf (Connection.start strictConf.enforce) refusedPaste = some c ∧
      (∀ buf, c.buffer .clientToServer = some buf → bufSize ≤ buf.length) ∧
      (∀ buf, c.buffer .serverToClient = some buf →
        (bufSize ≤ buf.length ↔
          NeverBlocks ⟨true,true⟩ strictConf (Connection.start strictConf.enforce) refusedPaste)) := by
  obtain ⟨c,_,hr,_⟩ := refusedPaste_run
  exact ⟨c,hr,receive_buffer_full_iff ⟨true,true⟩ strictConf refusedPaste c hr⟩

/-- After one refused paste the server thread receives into 65484 bytes. -/
theorem receive_buffer_shrinks_after_refusal :
    ∃ c buf, connectionRun ⟨true,true⟩ strictConf (Connection.start true) refusedPaste = some c ∧
      c.buffer .serverToClient = some buf ∧ buf.length = 65484 ∧ buf.length < bufSize := by
  obtain ⟨c,buf,hr,hb,hl⟩ := refusedPaste_run
  have hs : bufSize = 65536 := rfl
  exact ⟨c,buf,hr,hb,by omega,by omega⟩

end Padsi.Wayland
