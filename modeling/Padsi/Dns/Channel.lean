import Padsi.Dns.Restriction
import Padsi.Lib.Utf8

/-! # The command channel of the DNS firewall

What one call of `recv` returns is read as a command on its own: the variable that is
meant to keep an incomplete command is reset before each call.
-/
namespace Padsi.Dns.Channel
open Text Net Python Fw List Utf8

variable {U : Unicode} {σ ι : Type}

inductive Reaction where
  | executed (command : Json)
  | answered

structure Received (ι : Type) where
  conn : ι
  now : ℤ
  data : List UInt8

inductive Input (ι : Type) where
  | received (r : Received ι)
  | expired (now : ℤ)

/-- `_handle_recv_data`; every exception is an answer, also the one of a text that is no command. -/
def handleRecvData (nf : Netfilter U σ) (srv : Server U) (loads : Str → Option Json) (now : ℤ) (data : Str)
    (s : State U σ) : State U σ × List Reaction :=
  match loads data with
  | none => (s,[.answered])
  | some command => ((handleCommand nf srv now command s).1,[.executed command,.answered])

def turn (nf : Netfilter U σ) (srv : Server U) (loads : Str → Option Json) (s : State U σ) :
    Input ι → State U σ × List (ι × Reaction)
  | .received r =>
    match Utf8.decode r.data with
    | none => (s,[])
    | some data =>
      ((handleRecvData nf srv loads r.now data s).1,
        (handleRecvData nf srv loads r.now data s).2.map fun x => (r.conn,x))
  | .expired now => (handleExpired nf now s,[])

def serve (nf : Netfilter U σ) (srv : Server U) (loads : Str → Option Json) :
    State U σ → List (Input ι) → List (ι × Reaction)
  | _, [] => []
  | s, input :: inputs => (turn nf srv loads s input).2 ++ serve nf srv loads (turn nf srv loads s input).1 inputs

variable [DecidableEq ι]

def pieces (c : ι) (inputs : List (Input ι)) : List (List UInt8) :=
  inputs.filterMap fun
    | .received r => if r.conn = c then some r.data else none
    | .expired _ => none

def reactionsOn (c : ι) (trace : List (ι × Reaction)) : List Reaction :=
  trace.filterMap fun x => if x.1 = c then some x.2 else none

def reactTo (loads : Str → Option Json) (data : List UInt8) : List Reaction :=
  match Utf8.decode data with
  | none => []
  | some text =>
    match loads text with
    | none => [.answered]
    | some command => [.executed command,.answered]

theorem reactionsOn_map (c c' : ι) (l : List Reaction) :
    reactionsOn c (l.map fun x => (c',x)) = if c' = c then l else [] := by
  unfold reactionsOn
  by_cases hc : c' = c
  · simp [hc,filterMap_map]
  · simp [hc,filterMap_map]

theorem reactionsOn_turn (nf : Netfilter U σ) (srv : Server U) (loads : Str → Option Json) (s : State U σ)
    (c : ι) (input : Input ι) :
    reactionsOn c (turn nf srv loads s input).2 = (pieces c [input]).flatMap (reactTo loads) := by
  cases input with
  | expired now => rfl
  | received r =>
    have hr : reactionsOn c (turn nf srv loads s (.received r)).2 = if r.conn =
        c then reactTo loads r.data else [] := by
      cases hd : decode r.data with
      | none => simp [turn,reactTo,hd,reactionsOn]
      | some data =>
        simp only [turn,reactTo,hd,reactionsOn_map,handleRecvData]
        cases loads data <;> rfl
    rw [hr]
    by_cases hc : r.conn = c
    · simp [pieces,hc]
    · simp [pieces,hc]

theorem reactionsOn_serve (nf : Netfilter U σ) (srv : Server U) (loads : Str → Option Json) (s : State U σ) (c : ι)
    (inputs : List (Input ι)) :
    reactionsOn c (serve nf srv loads s inputs) = (pieces c inputs).flatMap (reactTo loads) := by
  induction inputs generalizing s with
  | nil => rfl
  | cons input inputs ih =>
    have hsplit : pieces c (input :: inputs) = pieces c [input] ++ pieces c inputs := by
      rw [← singleton_append,pieces,filterMap_append,← pieces,← pieces]
    rw [serve,reactionsOn,filterMap_append,← reactionsOn,← reactionsOn,ih,reactionsOn_turn,hsplit,flatMap_append]

structure Sent (loads : Str → Option Json) where
  command : Json
  pieces : List (List UInt8)
  sizes : ∀ p ∈ pieces, 1 ≤ p.length ∧ p.length ≤ 32768
  reads : ∃ text, Utf8.decode pieces.flatten = some text ∧ loads text = some command

/-- One piece alone reads as the command, and no other one is UTF-8. -/
def Sent.Whole {loads : Str → Option Json} (m : Sent loads) : Prop :=
  ∃ front p back, m.pieces = front ++ p :: back ∧ (∀ x ∈ front ++ back, Utf8.decode x = none) ∧
    ∃ text, Utf8.decode p = some text ∧ loads text = some m.command

def Sent.expected {loads : Str → Option Json} (m : Sent loads) : List Reaction := [.executed m.command,.answered]

theorem flatMap_reactTo_nil {loads : Str → Option Json} {ps : List (List UInt8)} :
    ps.flatMap (reactTo loads) = [] ↔ ∀ x ∈ ps, decode x = none := by
  rw [flatMap_eq_nil_iff]
  refine forall₂_congr fun x _ => ?_
  cases hd : decode x with
  | none => simp [reactTo,hd]
  | some text => cases hr : loads text <;> simp [reactTo,hd,hr]

/-- The pieces give one reaction just if one of them is read and the others are not. -/
theorem Sent.whole_iff {loads : Str → Option Json} (m : Sent loads) :
    m.pieces.flatMap (reactTo loads) = m.expected ↔ m.Whole := by
  constructor
  · intro h
    suffices ha : ∀ ps : List (List UInt8), ps.flatMap (reactTo loads) = m.expected →
      ∃ front p back, ps = front ++ p :: back ∧
        (∀ x ∈ front ++ back, decode x = none) ∧ ∃ text, decode p = some text ∧ loads text = some m.command from
      ha m.pieces h
    intro ps
    -- the first piece that is UTF-8 must be the command, since it is answered
    induction ps with
    | nil => exact fun h => nomatch h
    | cons p ps ih =>
      intro h
      rw [flatMap_cons] at h
      cases hd : decode p with
      | none =>
        simp only [reactTo,hd,nil_append] at h
        obtain ⟨front,q,back,rfl,hnone,hr⟩ := ih h
        exact ⟨p :: front,q,back,rfl,forall_mem_cons.2 ⟨hd,hnone⟩,hr⟩
      | some text =>
        cases hr : loads text with
        | none =>
          simp only [reactTo,hd,hr,Sent.expected] at h
          cases h
        | some command =>
          simp only [reactTo,hd,hr,Sent.expected] at h
          change Reaction.executed command :: .answered :: ps.flatMap (reactTo loads) = [.executed m.command,
            .answered] at h
          simp only [cons.injEq,Reaction.executed.injEq,true_and] at h
          exact ⟨[],p,ps,rfl,flatMap_reactTo_nil.1 h.2,text,hd,h.1 ▸ hr⟩
  · rintro ⟨front,p,back,hpi,hnone,text,hd,hr⟩
    have hf : front.flatMap (reactTo loads) = [] := flatMap_reactTo_nil.2 fun x hx => hnone x (mem_append_left _ hx)
    have hb : back.flatMap (reactTo loads) = [] := flatMap_reactTo_nil.2 fun x hx => hnone x (mem_append_right _ hx)
    have hp : reactTo loads p = m.expected := by simp only [reactTo,hd,hr,Sent.expected]
    rw [hpi,flatMap_append,flatMap_cons,hf,hb,hp,nil_append,append_nil]

/-- The commands of a connection are executed and answered once each, in their order, exactly when
each of them is whole. -/
theorem executed_once_iff_whole (nf : Netfilter U σ) (srv : Server U) (loads : Str → Option Json)
    (s : State U σ) (c : ι) (inputs : List (Input ι)) (commands : List (Sent loads))
      (hinputs : pieces c inputs = commands.flatMap Sent.pieces) :
    (∀ past, past <+: inputs → ∀ done, done <+: commands → pieces c past = done.flatMap Sent.pieces →
        reactionsOn c (serve nf srv loads s past) = done.flatMap Sent.expected) ↔ ∀ m ∈ commands, m.Whole := by
  have hr : ∀ done : List (Sent loads), (done.flatMap Sent.pieces).flatMap (reactTo loads) =
      done.flatMap fun m => m.pieces.flatMap (reactTo loads) := fun done => flatMap_assoc
  constructor
  · intro h m hm
    obtain ⟨front,back,rfl⟩ := append_of_mem hm
    -- the connection has got the commands before this one, and then this one too
    have ha : ∀ done, done <+: front ++ m :: back → done.flatMap (fun m => m.pieces.flatMap (reactTo loads)) =
        done.flatMap Sent.expected := by
      rintro done ⟨rest,hd⟩
      rw [← hd,flatMap_append] at hinputs
      obtain ⟨past,later,rfl,hp,_⟩ := filterMap_eq_append_iff.1 hinputs
      rw [← hr,← h past (prefix_append _ _) done ⟨rest,hd⟩ hp,reactionsOn_serve,← hp]
      rfl
    have hb := ha front (prefix_append _ _)
    have hw := ha (front ++ [m]) ⟨back,by simp⟩
    rw [flatMap_append,flatMap_append,hb,append_cancel_left_eq,flatMap_singleton,
      flatMap_singleton] at hw
    exact m.whole_iff.1 hw
  · intro h past _ done hd hp
    rw [reactionsOn_serve,hp,hr]
    exact flatMap_congr fun m hm => m.whole_iff.2 (h m (hd.subset hm))

def resolverText : Str := "\x7b\"del-resolver\": \"1.1.1.1:53\"\x7d"
def resolverCommand : Json := .obj [("del-resolver",.str "1.1.1.1:53")]

def loadsResolver (text : Str) : Option Json := if text = resolverText then some resolverCommand else none

def resolverBytes : List UInt8 := resolverText.map fun c => UInt8.ofNat c.toNat

def wholeCommand : Sent loadsResolver where
  command := resolverCommand
  pieces := [resolverBytes]
  sizes := by
    intro p hp
    rw [mem_singleton.1 hp]
    decide +kernel
  reads := ⟨resolverText,by decide +kernel,if_pos rfl⟩

def splitCommand : Sent loadsResolver where
  command := resolverCommand
  pieces := [resolverBytes.take 9,resolverBytes.drop 9]
  sizes := by
    have hall : [resolverBytes.take 9,resolverBytes.drop 9].all
        (fun p => decide (1 ≤ p.length ∧ p.length ≤ 32768)) = true := by
      decide +kernel
    exact fun p hp => of_decide_eq_true (all_eq_true.1 hall p hp)
  reads := ⟨resolverText,by decide +kernel,if_pos rfl⟩

def plainServer : Server .ascii := ⟨.empty,[],eth0⟩

def twoConnections : List (Input Bool) :=
  [.received ⟨true,0,resolverBytes⟩,.received ⟨false,1,resolverBytes.take 9⟩,.expired 2,
    .received ⟨true,3,resolverBytes⟩]

/-- Two commands of a connection, with a part of one from another connection and an expiry in between. -/
theorem twoConnections_executed :
    pieces true twoConnections = [wholeCommand,wholeCommand].flatMap Sent.pieces ∧
      ∀ past, past <+: twoConnections → ∀ done, done <+: [wholeCommand,wholeCommand] →
        pieces true past = done.flatMap Sent.pieces →
          reactionsOn true (serve .recorder plainServer loadsResolver (.start []) past) =
            done.flatMap Sent.expected := by
  have hp : pieces true twoConnections = [wholeCommand,wholeCommand].flatMap Sent.pieces := rfl
  have hw : wholeCommand.Whole := ⟨[],resolverBytes,[],rfl,nofun,resolverText,by decide +kernel,if_pos rfl⟩
  refine ⟨hp,(executed_once_iff_whole .recorder plainServer loadsResolver (.start []) true _ _ hp).2 ?_⟩
  exact forall_mem_cons.2 ⟨hw,forall_mem_cons.2 ⟨hw,nofun⟩⟩

/-- A command in two pieces is answered twice and never executed. -/
theorem split_command_is_not_executed :
    pieces () [.received ⟨(),0,resolverBytes.take 9⟩,.expired 0,.received ⟨(),1,resolverBytes.drop 9⟩] =
        [splitCommand].flatMap Sent.pieces ∧
      reactionsOn () (serve .recorder plainServer loadsResolver (.start [])
        [.received ⟨(),0,resolverBytes.take 9⟩,.expired 0,.received ⟨(),1,resolverBytes.drop 9⟩]) = [.answered,
          .answered] := by
  have hfirst : reactTo loadsResolver (resolverBytes.take 9) = [.answered] := rfl
  have hs : reactTo loadsResolver (resolverBytes.drop 9) = [.answered] := rfl
  refine ⟨rfl,?_⟩
  rw [reactionsOn_serve]
  change reactTo loadsResolver (resolverBytes.take 9) ++ (reactTo loadsResolver (resolverBytes.drop 9) ++ []) = _
  rw [hfirst,hs]
  rfl

end Padsi.Dns.Channel
