import Mathlib.Data.List.Sort
import Padsi.Lib.Python
import Padsi.Lib.Store

/-! # The end of a zone

The service unmounts whatever is below the runtime directory of the user, and the two
accesses that it withdraws are those of the user, with all of their zones.
-/
namespace Padsi.User.Ending
open Python Text Option

structure Mount where
  zone : Str
  source : Str
  type : Str
  options : Str

structure Zone where
  pkcs11 : Bool
  gpgCard : Bool
  vms : ℕ
deriving DecidableEq

def Zone.usesCard (z : Zone) : Bool := z.pkcs11 || z.gpgCard

structure Session where
  zones : Dict Str Zone
  mounts : Dict Str Mount
  pcscd : Bool
  usbredir : Bool

/-- The answers of the host; `deniesPcscd` and `deniesUsbredir` tell whether the two accesses can
be withdrawn. -/
structure Host where
  runDir : Str
  lists : Bool
  releases : Str → Bool
  deniesPcscd : Bool
  deniesUsbredir : Bool

def line (target : Str) (m : Mount) : Str :=
  m.source ++ " on " ++ target ++ " type " ++ m.type ++ " (" ++ m.options ++ ")"
def words (s : Str) : List Str := (s.splitOnP isSpace).filter (· ≠ [])

def isLineEnd (c : Char) : Bool := c.toNat ∈ [0xa,0xb,0xc,0xd,0x1c,0x1d,0x1e,0x85,0x2028,0x2029]

def splitlines : Str → List Str
  | [] => []
  | '\r' :: '\n' :: rest => [] :: splitlines rest
  | c :: rest =>
    if isLineEnd c then [] :: splitlines rest
    else
      match splitlines rest with
      | [] => [[c]]
      | l :: ls => (c :: l) :: ls

def listing (mounts : Dict Str Mount) : List Str :=
  splitlines (mounts.entries.flatMap fun e => line e.1 e.2 ++ ['\n'])

def dirPath (runDir : Str) : Str := if runDir.getLast? = some '/' then runDir else runDir ++ "/"

def mountpoint (runDir line : Str) : Option (Option Str) :=
  match words line with
  | _ :: _ :: point :: _ :: type :: _ =>
    some (if startsWith "fuse" type ∧ startsWith (dirPath runDir) point then some point else none)
  | _ => none

def fusePaths (runDir : Str) : List Str → Option (List Str)
  | [] => some []
  | line :: lines => do
    let point ← mountpoint runDir line
    let points ← fusePaths runDir lines
    return point.toList ++ points

def umount (host : Host) (mounts : Dict Str Mount) (path : Str) : Dict Str Mount :=
  if host.releases path then mounts.erase path else mounts

def fuseCleanup (host : Host) (mounts : Dict Str Mount) : Option (Dict Str Mount) :=
  if host.lists then do
    let paths ← fusePaths host.runDir (listing mounts)
    return (paths.insertionSort (· ≥ ·)).foldl (umount host) mounts
  else some mounts

namespace Session

def startApps (s : Session) (name : Str) (pkcs11 gpgCard : Bool) : Session :=
  { s with zones := s.zones.set name ⟨pkcs11,gpgCard,0⟩, pcscd := s.pcscd || pkcs11 || gpgCard }

/-- An exception in `fuse-cleanup` leaves `destroy` before the accesses are withdrawn; a denial
that fails is logged. -/
def destroy (s : Session) (host : Host) : Session :=
  match fuseCleanup host s.mounts with
  | some mounts =>
    { s with mounts := mounts, pcscd := s.pcscd && !host.deniesPcscd, usbredir := s.usbredir && !host.deniesUsbredir }
  | none => s

def Other (s : Session) (ending name : Str) (zone : Zone) : Prop := name ≠ ending ∧ s.zones.get name = some zone

/-- No FUSE file system of another zone is unmounted, and no access that it needs is withdrawn. -/
structure LeavesOthers (s : Session) (ending : Str) (after : Session) : Prop where
  fuse : ∀ target m zone, s.mounts.get target = some m → startsWith "fuse" m.type → s.Other ending m.zone zone →
    after.mounts.get target = some m
  card : s.pcscd → ∀ name zone, s.Other ending name zone → zone.usesCard → after.pcscd
  usb : s.usbredir → ∀ name zone, s.Other ending name zone → zone.vms ≠ 0 → after.usbredir

def Readable (s : Session) (host : Host) : Prop :=
  host.lists → ∀ line ∈ listing s.mounts, mountpoint host.runDir line ≠ none

/-- A line of the mount table gives the path as a FUSE mount point of the user. -/
def Names (s : Session) (host : Host) (path : Str) : Prop :=
  ∃ line ∈ listing s.mounts, mountpoint host.runDir line = some (some path)

/-- No other zone has a FUSE file system in the runtime directory of the user, or needs an access
that is withdrawn. -/
structure Spared (s : Session) (host : Host) (ending : Str) : Prop where
  fuse : ∀ target m zone, s.mounts.get target = some m → startsWith "fuse" m.type → s.Other ending m.zone zone →
    ¬ (host.lists ∧ host.releases target ∧ s.Names host target)
  card : s.pcscd → host.deniesPcscd → ∀ name zone, s.Other ending name zone → zone.usesCard = false
  usb : s.usbredir → host.deniesUsbredir → ∀ name zone, s.Other ending name zone → zone.vms = 0

end Session

theorem get_foldl_umount (host : Host) (paths : List Str) (mounts : Dict Str Mount) (t : Str) :
    (paths.foldl (umount host) mounts).get t = if t ∈ paths ∧ host.releases t then none else mounts.get t := by
  induction paths generalizing mounts with
  | nil => simp
  | cons path paths ih =>
    rw [List.foldl_cons,ih,umount]
    by_cases ht : t = path
    · subst ht
      by_cases hr : host.releases t <;> simp [hr,Dict.get_erase]
    · split_ifs <;> simp_all [Dict.get_erase]

theorem fusePaths_eq_none {runDir : Str} {lines : List Str} :
    fusePaths runDir lines = none ↔ ∃ line ∈ lines, mountpoint runDir line = none := by
  induction lines with
  | nil => simp [fusePaths]
  | cons line lines ih =>
    cases hp : mountpoint runDir line with
    | none => simp [fusePaths,hp]
    | some point => cases hrest : fusePaths runDir lines <;> simp_all [fusePaths]

theorem mem_of_fusePaths {runDir : Str} {lines paths : List Str} (h : fusePaths runDir lines = some paths) (t : Str) :
    t ∈ paths ↔ ∃ line ∈ lines, mountpoint runDir line = some (some t) := by
  induction lines generalizing paths with
  | nil => simp_all [fusePaths]
  | cons line lines ih =>
    obtain ⟨point,hp,h⟩ := bind_eq_some_iff.1 h
    obtain ⟨points,hpo,h⟩ := bind_eq_some_iff.1 h
    cases h
    simp [ih hpo,hp]

theorem fuseCleanup_spec {host : Host} {s : Session} {mounts : Dict Str Mount}
    (h : fuseCleanup host s.mounts = some mounts) {t : Str} {m : Mount} (hm : s.mounts.get t = some m) :
    mounts.get t = some m ↔ ¬ (host.lists ∧ host.releases t ∧ s.Names host t) := by
  unfold fuseCleanup at h
  split_ifs at h with hl
  · obtain ⟨paths,hp,h⟩ := bind_eq_some_iff.1 h
    cases h
    have hn : t ∈ paths ↔ s.Names host t := mem_of_fusePaths hp t
    simp [get_foldl_umount,hn,hm,hl,and_comm]
  · cases h
    simp [hm,hl]

theorem readable_iff {host : Host} {s : Session} :
    s.Readable host ↔ ∃ mounts, fuseCleanup host s.mounts = some mounts := by
  unfold Session.Readable fuseCleanup
  split_ifs with hl
  · cases hp : fusePaths host.runDir (listing s.mounts) with
    | none =>
      obtain ⟨line,hm,hnone⟩ := fusePaths_eq_none.1 hp
      simpa using ⟨hl,line,hm,hnone⟩
    | some paths =>
      refine iff_of_true (fun _ line hm hnone => ?_) ⟨_,rfl⟩
      rw [fusePaths_eq_none.2 ⟨line,hm,hnone⟩] at hp
      cases hp
  · simp [hl]

/-- The end of a zone leaves the others alone when there is nothing it could take from them. -/
theorem leavesOthers_iff_spared (s : Session) (host : Host) (ending : Str) :
    s.LeavesOthers ending (s.destroy host) ↔ (s.Readable host → s.Spared host ending) := by
  unfold Session.destroy
  cases hc : fuseCleanup host s.mounts with
  | none =>
    have hnot : ¬ s.Readable host := by simp [readable_iff,hc]
    exact iff_of_true ⟨fun _ _ _ hm _ _ => hm,fun hp _ _ _ _ => hp,fun hu _ _ _ _ => hu⟩ fun h => absurd h hnot
  | some mounts =>
    have hr : s.Readable host := readable_iff.2 ⟨mounts,hc⟩
    constructor
    · intro h _
      refine ⟨fun t m zone hm ht ho => (fuseCleanup_spec hc hm).1 (h.fuse t m zone hm ht ho),
        fun hp hd name zone ho => ?_,
        fun hu hd name zone ho => ?_⟩
      · simpa [hd] using h.card hp name zone ho
      · simpa [hd] using h.usb hu name zone ho
    · intro h
      obtain ⟨hf,hca,husb⟩ := h hr
      refine ⟨fun t m zone hm ht ho => (fuseCleanup_spec hc hm).2 (hf t m zone hm ht ho),fun hp name zone ho hus => ?_,
        fun hu name zone ho hv => ?_⟩
      · cases hd : host.deniesPcscd with
        | false => simp [hp]
        | true =>
          rw [hca hp hd name zone ho] at hus
          cases hus
      · cases hd : host.deniesUsbredir with
        | false => simp [hu]
        | true => exact absurd (husb hu hd name zone ho) hv

def host : Host := ⟨"/run/padsi/user/1000",true,fun _ => true,true,true⟩

def twoZones : Session :=
  { (((⟨.empty,.empty,false,false⟩ : Session).startApps "bank" true false).startApps "office" false false) with
    mounts := Dict.empty.set "/run/padsi/user/1000/userfiles/bank/mp"
      ⟨"bank","fuse-zip","fuse.fuse-zip","rw"⟩ }

theorem office_takes_card_from_bank : ¬ twoZones.LeavesOthers "office" (twoZones.destroy host) := by
  intro h
  have hc := h.card (by decide) "bank" ⟨true,false,0⟩ ⟨by decide,by decide⟩ (by decide)
  revert hc
  decide

end Padsi.User.Ending
