import Padsi.Lib.Store
import Padsi.Lib.Text
import Padsi.Lib.Tops

/-! # Groups of mount points

`MountPointSet.from_specifications` groups what is mounted in a bubble below common
paths. The mount points come in the order in which a set is iterated.
-/
namespace Padsi.Bubble
open Python Text Tops List Option Dict

/-- A mount point of a bubble, at an absolute path; the path of a directory ends with a slash. -/
structure MountPoint where
  sourcePath : Str
  mountPath : Str
  absolute : mountPath.head? = some '/'
deriving DecidableEq

structure MountPointGroup where
  mountPath : Str
  first : MountPoint
  others : List MountPoint
deriving DecidableEq

namespace MountPointGroup

def mountPoints (g : MountPointGroup) : List MountPoint := g.first :: g.others

def add (g : MountPointGroup) (mpoint : MountPoint) : MountPointGroup :=
  if mpoint.mountPath <+: g.mountPath then ⟨mpoint.mountPath,mpoint,g.mountPoints⟩
  else { g with others := g.others ++ [mpoint] }

def single (mpoint : MountPoint) : MountPointGroup := ⟨mpoint.mountPath,mpoint,[]⟩

end MountPointGroup

abbrev Groups := Dict Str MountPointGroup
def keys (groups : Groups) : List Str := groups.entries.map Prod.fst

structure BoundDir where
  path : Str
  absolute : path.head? = some '/'

def dirText (path : Str) : Str := if path.getLast? = some '/' then path else path ++ ['/']

theorem head_dirText {path : Str} (h : path.head? = some '/') : (dirText path).head? = some '/' := by
  unfold dirText
  split_ifs
  · exact h
  · rw [head?_append,h]
    rfl

-- A slash is added to the resolved source, also to the one of the root.
def sourceText (mountPath : Str) : Str := if mountPath = ['/'] then ['/','/'] else mountPath
def BoundDir.mountPoint (item : BoundDir) : MountPoint :=
  ⟨sourceText (dirText item.path),dirText item.path,head_dirText item.absolute⟩
def bindAll (bound : List BoundDir) : Groups :=
  bound.foldl (fun groups item => groups.set item.mountPoint.mountPath (.single item.mountPoint)) .empty

def place (groups : Groups) (mpoint : MountPoint) : List Str → Option Groups
  | [] => none
  | path :: paths =>
    match groups.get path with
    | none => none
    | some mpgrp =>
      if mpoint.mountPath = mpgrp.mountPath then place groups mpoint paths
      else if mpgrp.mountPath <+: mpoint.mountPath then some (groups.set path (mpgrp.add mpoint))
      else if mpoint.mountPath <+: mpgrp.mountPath then
        some ((groups.set mpoint.mountPath ⟨mpoint.mountPath,mpoint,mpgrp.mountPoints⟩).erase mpgrp.mountPath)
      else place groups mpoint paths

def insert (groups : Groups) (mpoint : MountPoint) : Groups :=
  (place groups mpoint (keys groups)).getD (groups.set mpoint.mountPath (.single mpoint))

structure SetOrder where
  arrange : List Str → List Str
  perm : ∀ l, (arrange l).Perm l

def addTop (order : SetOrder) (tops : List Str) (path : Str) : List Str :=
  match (order.arrange tops).find? (fun edir => decide (path <+: edir) || decide (edir <+: path)) with
  | none => tops ++ [path]
  | some edir => if path <+: edir then tops.erase edir ++ [path] else tops

def topPaths (order : SetOrder) (paths : List Str) : List Str := (paths.insertionSort (· ≤ ·)).foldl (addTop order) []

def topGroups (groups : Groups) (tops : List Str) : Groups :=
  tops.foldl (fun ngroups path =>
    match groups.get path with
    | some mpgrp => ngroups.set path mpgrp
    | none => ngroups) .empty

def dirHead (path : Str) : Str := path.rdropWhile (· ≠ '/')
def dirname (path : Str) : Str :=
  if ∀ c ∈ dirHead path, c = '/' then dirHead path else (dirHead path).rdropWhile (· = '/')

theorem dirname_below (path : Str) : dirname path <+: path := by
  unfold dirname
  split_ifs
  · exact rdropWhile_prefix _ _
  · exact ( rdropWhile_prefix _ _).trans ( rdropWhile_prefix _ _)

theorem length_dirname_lt {path : Str} (h : dirname path ≠ path) : (dirname path).length < path.length :=
  lt_of_le_of_ne (dirname_below path).length_le fun heq => h ((dirname_below path).eq_of_length heq)

inductive Stop where
  | codebug
  | forever
deriving DecidableEq, Repr

def parentGroup (ngroups : Groups) (tdir : Str) : Except Stop (Str × MountPointGroup) :=
  if tdir = ['/'] then .error .codebug
  else
    match ngroups.get (tdir ++ ['/']) with
    | some egrp => .ok (tdir ++ ['/'],egrp)
    | none => if dirname tdir = tdir then .error .forever else parentGroup ngroups (dirname tdir)
termination_by tdir.length
decreasing_by exact length_dirname_lt (by assumption)

def merge (tops : List Str) : List (Str × MountPointGroup) → Groups → Except Stop Groups
  | [], ngroups => .ok ngroups
  | (path,mpgrp) :: items, ngroups =>
    if path ∈ tops then merge tops items ngroups
    else
      match parentGroup ngroups (dirname path) with
      | .error e => .error e
      | .ok (key,egrp) => merge tops items (ngroups.set key { egrp with others := egrp.others ++ mpgrp.mountPoints })

def fromSpecifications (order : SetOrder) (mounts : Option (List MountPoint)) (bound : List BoundDir) :
    Except Stop (List MountPointGroup) :=
  match mounts with
  | none => .ok ((bindAll bound).entries.map Prod.snd)
  | some mounts => do
    let groups := mounts.foldl insert (bindAll bound)
    let tops := topPaths order (keys groups)
    let ngroups ← merge tops groups.entries (topGroups groups (order.arrange tops))
    return ngroups.entries.map Prod.snd

def components (path : Str) : List Str := (path.splitOn '/').filter (· ≠ [])

def Within (path dir : Str) : Prop := components dir <+: components path

def Beneath (path dir : Str) : Prop := Within path dir ∧ components path ≠ components dir
instance (path dir : Str) : Decidable (Within path dir) :=
  inferInstanceAs (Decidable (components dir <+: components path))
instance (path dir : Str) : Decidable (Beneath path dir) := inferInstanceAs (Decidable (Within path dir ∧ _))

structure Lossless (points : List MountPoint) (groups : List MountPointGroup) : Prop where
  member : ∀ x ∈ points, groups.countP (fun g => decide (x ∈ g.mountPoints)) = 1
  within : ∀ g ∈ groups, ∀ x ∈ g.mountPoints, Within x.mountPath g.mountPath
  apart : ∀ g ∈ groups, ∀ g' ∈ groups, ¬Beneath g.mountPath g'.mountPath
  first : ∀ g ∈ groups, g.first.mountPath = g.mountPath

def SameGroups (groups groups' : List MountPointGroup) : Prop :=
  ∀ g ∈ groups, ∃ g' ∈ groups', g'.mountPath = g.mountPath ∧ g'.first = g.first ∧ ∀ x, x ∈ g'.mountPoints ↔
    x ∈ g.mountPoints

def points (bound : List BoundDir) (mounts : List MountPoint) : List MountPoint :=
  bound.map BoundDir.mountPoint ++ mounts

/-- Nothing is lost, in whichever order the mount points come, and the order makes no difference. -/
structure Settled (order : SetOrder) (bound : List BoundDir) (mounts : List MountPoint) : Prop where
  lossless : ∀ l, l.Perm mounts → ∃ groups, fromSpecifications order (some l) bound = .ok groups ∧
    Lossless (points bound mounts) groups
  same : ∀ order' l l', l.Perm mounts → l'.Perm mounts → ∀ groups groups',
    fromSpecifications order (some l) bound = .ok groups → fromSpecifications order' (some l') bound = .ok groups' →
      SameGroups groups groups'

def paths (bound : List BoundDir) (mounts : List MountPoint) : List Str :=
  (points bound mounts).map MountPoint.mountPath
def boundPaths (bound : List BoundDir) : List Str := bound.map fun item => item.mountPoint.mountPath

def Proper (path : Str) : Prop := ∃ d c, path = d ++ [c,'/'] ∧ c ≠ '/'

/-- One path is the beginning of the other one, or a bound directory is the beginning of both. -/
def Related (bound : List BoundDir) (p q : Str) : Prop := p <+: q ∨ q <+: p ∨ ∃ b ∈ boundPaths bound, b <+: p ∧ b <+: q

structure Fit (bound : List BoundDir) (mounts : List MountPoint) : Prop where
  within : ∀ t, Topmost (paths bound mounts) t → ∀ p ∈ paths bound mounts, t <+: p → Within p t
  apart : ∀ t t', Topmost (paths bound mounts) t → Topmost (paths bound mounts) t' → ¬Beneath t t'
  related : ∀ t, Topmost (paths bound mounts) t → ¬Proper t →
    ∀ p ∈ paths bound mounts, ∀ q ∈ paths bound mounts, t <+: p → t <+: q → p ≠ q →
    ¬(p ∈ boundPaths bound ∧ q ∈ boundPaths bound) ∧ Related bound p q

theorem mem_keys {groups : Groups} {k : Str} : k ∈ keys groups ↔ ∃ g, groups.get k = some g := by
  constructor
  · intro h
    obtain ⟨⟨k',g⟩,he,rfl⟩ := mem_map.1 h
    exact ⟨g,mem_entries_iff.1 he⟩
  · rintro ⟨g,hg⟩
    exact mem_map.2 ⟨(k,g),mem_of_get hg,rfl⟩

/-- Another one of the paths is properly above the path, and none is properly below it. -/
structure Innermost (ps : List Str) (path : Str) : Prop where
  above : ∃ p ∈ ps, p <+: path ∧ p ≠ path
  lowest : ∀ p ∈ ps, path <+: p → p = path

instance (ps : List Str) (path : Str) : Decidable (Innermost ps path) :=
  decidable_of_iff ((∃ p ∈ ps, p <+: path ∧ p ≠ path) ∧ ∀ p ∈ ps, path <+: p → p = path)
    ⟨fun h => ⟨h.1,h.2⟩,fun h => ⟨h.above,h.lowest⟩⟩

inductive Inserted (groups : Groups) (m : MountPoint) : Groups → Prop
  | join {k : Str} {g : MountPointGroup} (hk : groups.get k = some g) (hbelow : k <+: m.mountPath) :
    Inserted groups m (groups.set k { g with others := g.others ++ [m] })
  | takeOver {k : Str} {g : MountPointGroup} (hk : groups.get k = some g) (habove : m.mountPath <+: k)
    (hfree : groups.get m.mountPath = none) :
    Inserted groups m ((groups.set m.mountPath ⟨m.mountPath,m,g.mountPoints⟩).erase k)
  | alone (h : ∀ k g, groups.get k = some g → ¬k <+: m.mountPath ∧ ¬m.mountPath <+: k) :
    Inserted groups m (groups.set m.mountPath (.single m))

section
variable {groups : Groups} {m : MountPoint}

theorem place_cases (hpath : ∀ k g, groups.get k = some g → g.mountPath = k)
    (hn : ∀ g, groups.get m.mountPath = some g → Innermost (keys groups) m.mountPath) (ks : List Str)
    (hks : ∀ k ∈ ks, ∃ g, groups.get k = some g) :
    (∃ groups', place groups m ks = some groups' ∧ Inserted groups m groups') ∨
      place groups m ks = none ∧ ∀ k ∈ ks, k ≠ m.mountPath → ¬k <+: m.mountPath ∧ ¬m.mountPath <+: k := by
  induction ks with
  | nil => exact .inr ⟨rfl,by simp⟩
  | cons k ks ih =>
    obtain ⟨⟨g,hg⟩,hrest⟩ := forall_mem_cons.1 hks
    have hk := hpath k g hg
    rw [place,hg]
    simp only [hk]
    by_cases heq : m.mountPath = k
    · rw [if_pos heq]
      exact (ih hrest).imp id fun hnone => ⟨hnone.1,forall_mem_cons.2 ⟨fun hne => absurd heq.symm hne,hnone.2⟩⟩
    · rw [if_neg heq]
      by_cases hbelow : k <+: m.mountPath
      · have hnot : ¬m.mountPath <+: k := fun h => heq (h.eq_of_length_le hbelow.length_le)
        rw [if_pos hbelow,MountPointGroup.add,if_neg (hk.symm ▸ hnot)]
        exact .inl ⟨_,rfl,.join hg hbelow⟩
      · rw [if_neg hbelow]
        by_cases habove : m.mountPath <+: k
        · have hfree : groups.get m.mountPath = none := by
            rw [eq_none_iff_forall_ne_some]
            exact fun i hi => heq ((hn i hi).lowest k (mem_keys.2 ⟨g,hg⟩) habove).symm
          rw [if_pos habove]
          exact .inl ⟨_,rfl,.takeOver hg habove hfree⟩
        · rw [if_neg habove]
          exact (ih hrest).imp id fun hnone => ⟨hnone.1,forall_mem_cons.2 ⟨fun _ => ⟨hbelow,habove⟩,hnone.2⟩⟩

theorem inserted_insert (hpath : ∀ k g, groups.get k = some g → g.mountPath = k)
    (hn : ∀ g, groups.get m.mountPath = some g → Innermost (keys groups) m.mountPath) :
    Inserted groups m (insert groups m) := by
  unfold insert
  rcases place_cases hpath hn (keys groups) fun k hk => mem_keys.1 hk with ⟨groups',hp,h⟩ | ⟨hp,h⟩
  · rw [hp]
    exact h
  · rw [hp]
    refine .alone fun k g hk => h k (mem_keys.2 ⟨g,hk⟩) ?_
    -- a group of the same path would have one above that is found
    rintro rfl
    obtain ⟨p,hp,hbelow,hne⟩ := (hn g hk).above
    exact (h p hp hne).1 hbelow

end

structure Change (groups : Groups) (m : MountPoint) (groups' : Groups) (k : Str) (g : MountPointGroup)
    (old : Option Str) : Prop where
  get : ∀ k', groups'.get k' = if k' = k then some g else if old = some k' then none else groups.get k'
  located : g.mountPath = k ∧ g.first.mountPath = k
  members : ∀ x, x ∈ g.mountPoints ↔ x = m ∨ ∃ k₀ g₀, old = some k₀ ∧ groups.get k₀ = some g₀ ∧ x ∈ g₀.mountPoints
  below : k <+: m.mountPath
  above : ∀ k₀, old = some k₀ → k <+: k₀ ∧ ∃ g₀, groups.get k₀ = some g₀
  key : k = m.mountPath ∧ groups.get k = none ∨ old = some k
  alone : old = none → ∀ k' g', groups.get k' = some g' → ¬k' <+: m.mountPath ∧ ¬m.mountPath <+: k'

namespace Change
variable {groups groups' : Groups} {m : MountPoint} {k k' : Str} {g g' : MountPointGroup} {old : Option Str}

theorem get_key (h : Change groups m groups' k g old) : groups'.get k = some g := by rw [h.get,if_pos rfl]

theorem before (h : Change groups m groups' k g old) (hk : groups'.get k' = some g') (hne : k' ≠ k) :
    old ≠ some k' ∧ groups.get k' = some g' := by
  rw [h.get,if_neg hne] at hk
  split_ifs at hk with heq
  exact ⟨heq,hk⟩

theorem after (h : Change groups m groups' k g old) (hk : groups.get k' = some g') (ho : old ≠ some k') :
    groups'.get k' = some g' ∧ k' ≠ k := by
  have hne : k' ≠ k := by
    rintro rfl
    rcases h.key with ⟨-,hn⟩ | hso
    · cases hn.symm.trans hk
    · exact ho hso
  rw [h.get,if_neg hne,if_neg ho]
  exact ⟨hk,hne⟩

theorem innermost {path : Str} (hc : Change groups m groups' k g old) (h : Innermost (keys groups) path)
    (hne : m.mountPath ≠ path) : Innermost (keys groups') path where
  above := by
    obtain ⟨p,hp,hbelow,hpn⟩ := h.above
    by_cases ho : old = some p
    · have hkp := (hc.above p ho).1
      refine ⟨k,mem_keys.2 ⟨g,hc.get_key⟩,hkp.trans hbelow,?_⟩
      rintro rfl
      exact hpn (hbelow.eq_of_length_le hkp.length_le)
    · obtain ⟨i,hi⟩ := mem_keys.1 hp
      exact ⟨p,mem_keys.2 ⟨i,(hc.after hi ho).1⟩,hbelow,hpn⟩
  lowest p hp hpath := by
    obtain ⟨i,hi⟩ := mem_keys.1 hp
    by_cases hpk : p = k
    · subst hpk
      cases hold : old with
      | none =>
        obtain ⟨q,hq,hbelow,-⟩ := h.above
        obtain ⟨j,hj⟩ := mem_keys.1 hq
        exact absurd (hbelow.trans (hpath.trans hc.below)) (hc.alone hold q j hj).1
      | some k₀ =>
        -- the group below the path that is taken over can only be the one at the path
        obtain ⟨hk,hg⟩ := hc.above k₀ hold
        have heq := h.lowest k₀ (mem_keys.2 hg) (hpath.trans hk)
        rw [heq] at hk
        exact hk.eq_of_length_le hpath.length_le
    · exact h.lowest p (mem_keys.2 ⟨i,(hc.before hi hpk).2⟩) hpath

end Change

structure Grouped (done : List MountPoint) (groups : Groups) : Prop where
  located : ∀ k g, groups.get k = some g → g.mountPath = k ∧ g.first.mountPath = k
  within : ∀ k g, groups.get k = some g → ∀ x ∈ g.mountPoints, x ∈ done ∧ k <+: x.mountPath
  covered : ∀ x ∈ done, ∃ k g, groups.get k = some g ∧ x ∈ g.mountPoints

namespace Grouped
variable {done : List MountPoint} {groups groups' : Groups} {m : MountPoint} {k : Str} {g : MountPointGroup}

theorem key_mem (h : Grouped done groups) (hk : groups.get k = some g) : k ∈ done.map MountPoint.mountPath := by
  have hfirst := h.within k g hk g.first mem_cons_self
  exact mem_map.2 ⟨g.first,hfirst.1,(h.located k g hk).2⟩

theorem exists_key (h : Grouped done groups) {p : Str} (hp : p ∈ done.map MountPoint.mountPath) :
    ∃ k g, groups.get k = some g ∧ k <+: p := by
  obtain ⟨x,hx,rfl⟩ := mem_map.1 hp
  obtain ⟨k,g,hk,hmem⟩ := h.covered x hx
  exact ⟨k,g,hk,(h.within k g hk x hmem).2⟩

theorem change (h : Grouped done groups)
    (hn : ∀ g, groups.get m.mountPath = some g → Innermost (keys groups) m.mountPath) :
    ∃ k g old, Change groups m (insert groups m) k g old := by
  have hi := inserted_insert (fun k g hk => (h.located k g hk).1) hn
  generalize Bubble.insert groups m = groups' at hi
  cases hi with
  | @join k g hk hbelow =>
    refine ⟨k,{ g with others := g.others ++ [m] },some k,fun k' => ?_,h.located k g hk,fun x => ?_,hbelow,
      by simp [hk],.inr rfl,by simp⟩
    · rw [get_set]
      by_cases hk' : k' = k
      · rw [if_pos hk',if_pos hk']
      · rw [if_neg hk', if_neg hk', if_neg fun heq => hk' (some_inj.1 heq).symm]
    · simp [MountPointGroup.mountPoints,hk,or_comm,or_left_comm]
  | @takeOver k g hk habove hfree =>
    have hne : m.mountPath ≠ k := by
      rintro rfl
      cases hfree.symm.trans hk
    refine ⟨_,⟨m.mountPath,m,g.mountPoints⟩,some k,fun k' => ?_,⟨rfl,rfl⟩,fun x => ?_,prefix_rfl,
      by simp [hk,habove],.inl ⟨rfl,hfree⟩,by simp⟩
    · rw [get_erase,get_set]
      by_cases hk' : k' = k
      · subst hk'
        rw [if_pos rfl,if_neg hne.symm,if_pos rfl]
      · rw [if_neg hk', if_neg fun heq => hk' (some_inj.1 heq).symm]
    · simp [MountPointGroup.mountPoints,hk]
  | alone ha =>
    have hfree : groups.get m.mountPath = none := by
      rw [eq_none_iff_forall_ne_some]
      exact fun g hg => (ha _ g hg).1 prefix_rfl
    refine ⟨m.mountPath,.single m,none,fun k' => ?_,⟨rfl,rfl⟩,fun x => ?_,prefix_rfl,by simp,.inl ⟨rfl,hfree⟩,
      fun _ => ha⟩
    · rw [get_set]
      simp
    · simp [MountPointGroup.mountPoints,MountPointGroup.single]

theorem changed {old : Option Str} (h : Grouped done groups) (hc : Change groups m groups' k g old) :
    Grouped (done ++ [m]) groups' := by
  refine ⟨fun k' g' hk' => ?_,fun k' g' hk' x hx => ?_,fun x hx => ?_⟩
  · by_cases hkk : k' = k
    · subst hkk
      cases hc.get_key.symm.trans hk'
      exact hc.located
    · exact h.located k' g' (hc.before hk' hkk).2
  · rw [mem_append,mem_singleton]
    by_cases hkk : k' = k
    · subst hkk
      cases hc.get_key.symm.trans hk'
      rcases (hc.members x).1 hx with rfl | ⟨k₀,g₀,hk₀,hg₀,hx₀⟩
      · exact ⟨.inr rfl,hc.below⟩
      · obtain ⟨hd,hpath⟩ := h.within k₀ g₀ hg₀ x hx₀
        exact ⟨.inl hd,(hc.above k₀ hk₀).1.trans hpath⟩
    · exact (h.within k' g' (hc.before hk' hkk).2 x hx).imp .inl id
  · rcases mem_append.1 hx with hx | hx
    · obtain ⟨k',g',hk',hx'⟩ := h.covered x hx
      by_cases hk : old = some k'
      · exact ⟨k,g,hc.get_key,(hc.members x).2 (.inr ⟨k',g',hk,hk',hx'⟩)⟩
      · exact ⟨k',g',(hc.after hk' hk).1,hx'⟩
    · exact ⟨k,g,hc.get_key,(hc.members x).2 (.inl (mem_singleton.1 hx))⟩

end Grouped

theorem mountPoint_eq {item item' : BoundDir} (h : item.mountPoint.mountPath = item'.mountPoint.mountPath) :
    item.mountPoint = item'.mountPoint := by
  simp only [BoundDir.mountPoint] at h ⊢
  simp only [h]

theorem get_bindAll {bound : List BoundDir} {k : Str} {g : MountPointGroup} : (bindAll bound).get k = some g ↔
    ∃ item ∈ bound, item.mountPoint.mountPath = k ∧ g = .single item.mountPoint := by
  induction bound using reverseRecOn with
  | nil => simp [bindAll,get_empty]
  | append_singleton bound item ih =>
    rw [bindAll,foldl_append,foldl_cons,foldl_nil,get_set]
    by_cases hk : k = item.mountPoint.mountPath
    · rw [if_pos hk,some_inj]
      constructor
      · rintro rfl
        exact ⟨item,by simp,hk.symm,rfl⟩
      · rintro ⟨item',-,hk',rfl⟩
        rw [mountPoint_eq (hk'.trans hk)]
    · rw [if_neg hk]
      refine ih.trans ?_
      constructor
      · rintro ⟨item',hmem,hg⟩
        exact ⟨item',mem_append_left _ hmem,hg⟩
      · rintro ⟨item',hmem,hk',hg⟩
        rcases mem_append.1 hmem with hmem | hmem
        · exact ⟨item',hmem,hk',hg⟩
        · rw [mem_singleton.1 hmem] at hk'
          exact absurd hk'.symm hk

theorem boundPaths_eq {bound : List BoundDir} :
    boundPaths bound = (bound.map BoundDir.mountPoint).map MountPoint.mountPath := by
  rw [List.map_map]
  rfl

theorem mem_keys_bindAll {bound : List BoundDir} {k : Str} : k ∈ keys (bindAll bound) ↔ k ∈ boundPaths bound := by
  simp only [mem_keys,get_bindAll,boundPaths,List.mem_map]
  constructor
  · rintro ⟨-,item,hi,hk,-⟩
    exact ⟨item,hi,hk⟩
  · rintro ⟨item,hi,hk⟩
    exact ⟨_,item,hi,hk,rfl⟩

theorem grouped_bindAll (bound : List BoundDir) : Grouped (bound.map BoundDir.mountPoint) (bindAll bound) where
  located k g hk := by
    obtain ⟨item,-,rfl,rfl⟩ := get_bindAll.1 hk
    exact ⟨rfl,rfl⟩
  within k g hk x hx := by
    obtain ⟨item,hi,rfl,rfl⟩ := get_bindAll.1 hk
    rw [mem_singleton.1 hx]
    exact ⟨mem_map_of_mem hi,prefix_rfl⟩
  covered x hx := by
    obtain ⟨item,hi,rfl⟩ := mem_map.1 hx
    exact ⟨_,_,get_bindAll.2 ⟨item,hi,rfl,rfl⟩,mem_cons_self⟩

/-- Mount paths are distinct, and one of a bound directory is beneath another one and above none. -/
structure Separate (bound : List BoundDir) (mounts : List MountPoint) : Prop where
  distinct : (mounts.map MountPoint.mountPath).Nodup
  nested : ∀ m ∈ mounts, m.mountPath ∈ boundPaths bound → Innermost (boundPaths bound) m.mountPath

/-- Groups of what is done that have a place for each of the mount points to come. -/
structure Steady (done : List MountPoint) (groups : Groups) (mounts : List MountPoint) : Prop where
  grouped : Grouped done groups
  distinct : (mounts.map MountPoint.mountPath).Nodup
  nested : ∀ m ∈ mounts, m.mountPath ∈ done.map MountPoint.mountPath → Innermost (keys groups) m.mountPath

variable {bound : List BoundDir} {done mounts : List MountPoint} {groups : Groups}

theorem Separate.steady (h : Separate bound mounts) :
    Steady (bound.map BoundDir.mountPoint) (bindAll bound) mounts where
  grouped := grouped_bindAll bound
  distinct := h.distinct
  nested m hm hd := by
    rw [← boundPaths_eq] at hd
    obtain ⟨⟨p,hp,hbelow⟩,hlow⟩ := h.nested m hm hd
    exact ⟨⟨p,mem_keys_bindAll.2 hp,hbelow⟩,fun k hk => hlow k (mem_keys_bindAll.1 hk)⟩

theorem Separate.perm {l : List MountPoint} (h : Separate bound mounts) (hl : l.Perm mounts) : Separate bound l :=
  ⟨(hl.map _).nodup_iff.2 h.distinct,fun m hm => h.nested m (hl.subset hm)⟩

theorem Steady.change {m : MountPoint} (h : Steady done groups (m :: mounts)) :
    ∃ k g old, Change groups m (insert groups m) k g old :=
  h.grouped.change fun _ hg => h.nested m mem_cons_self (h.grouped.key_mem hg)

theorem Steady.insert {m : MountPoint} (h : Steady done groups (m :: mounts)) :
    Steady (done ++ [m]) (insert groups m) mounts := by
  obtain ⟨hm,hrest⟩ := nodup_cons.1 h.distinct
  obtain ⟨k,g,old,hc⟩ := h.change
  refine ⟨h.grouped.changed hc,hrest,fun x hx hd => ?_⟩
  have hne : m.mountPath ≠ x.mountPath := fun heq => hm (heq ▸ mem_map_of_mem hx)
  rw [map_append,map_singleton,mem_append,mem_singleton] at hd
  exact hc.innermost (h.nested x (mem_cons_of_mem _ hx) (hd.resolve_right hne.symm)) hne

theorem Steady.foldl {late : List MountPoint} (h : Steady done groups (mounts ++ late)) :
    Steady (done ++ mounts) (mounts.foldl Bubble.insert groups) late := by
  induction mounts generalizing done groups with
  | nil => rwa [append_nil]
  | cons m mounts ih =>
    have hn := ih h.insert
    rwa [append_assoc] at hn

theorem grouped_run (h : Separate bound mounts) :
    Grouped (points bound mounts) (mounts.foldl insert (bindAll bound)) := by
  have hs := h.steady
  rw [← append_nil mounts] at hs
  exact hs.foldl.grouped

section
variable {groups' : Groups} {m : MountPoint} {ps : List Str} {t j : Str} {i : MountPointGroup} {old : Option Str}

def AtMostOne (t : Str) (groups : Groups) : Prop :=
  ∀ k g k' g', groups.get k = some g → groups.get k' = some g' → t <+: k → t <+: k' → k = k'
def AtLeastTwo (t : Str) (groups : Groups) : Prop :=
  ∃ k g k' g', groups.get k = some g ∧ groups.get k' = some g' ∧ t <+: k ∧ t <+: k' ∧ k ≠ k'

theorem AtLeastTwo.changed (h : AtLeastTwo t groups) (hc : Change groups m groups' j i old)
    (ht : Topmost ps t) (hm : m.mountPath ∈ ps) : AtLeastTwo t groups' := by
  obtain ⟨k,g,k',g',hk,hk',htk,ht',hne⟩ := h
  -- the new path is below the top if the old one was
  have hj : ∀ {x}, old = some x → t <+: x → t <+: j := by
    intro x hx htx
    rcases hc.key with ⟨rfl,-⟩ | ho
    · exact ht.below hm (hc.above x hx).1 htx
    · cases hx.symm.trans ho
      exact htx
  by_cases ho : old = some k
  · obtain ⟨hk',hkj⟩ := hc.after hk' fun ho' => hne (some_inj.1 (ho.symm.trans ho'))
    exact ⟨j,i,k',g',hc.get_key,hk',hj ho htk,ht',hkj.symm⟩
  · obtain ⟨hk,hkj⟩ := hc.after hk ho
    by_cases ho' : old = some k'
    · exact ⟨k,g,j,i,hk,hc.get_key,htk,hj ho' ht',hkj⟩
    · exact ⟨k,g,k',g',hk,(hc.after hk' ho').1,htk,ht',hne⟩

theorem AtLeastTwo.foldl (h : AtLeastTwo t groups) (hs : Steady done groups mounts)
    (ht : Topmost ps t) (hps : ∀ m ∈ mounts, m.mountPath ∈ ps) : AtLeastTwo t (mounts.foldl insert groups) := by
  induction mounts generalizing done groups with
  | nil => exact h
  | cons m mounts ih =>
    obtain ⟨k,g,old,hc⟩ := hs.change
    exact ih (h.changed hc ht (hps m mem_cons_self)) hs.insert fun x hx => hps x (mem_cons_of_mem _ hx)

theorem AtMostOne.changed (h : AtMostOne t groups) (hg : Grouped done groups) (hc : Change groups m groups' j i old)
    (hbo : ∀ b ∈ boundPaths bound, b ∈ done.map MountPoint.mountPath)
    (hr : ∀ k ∈ done.map MountPoint.mountPath, t <+: k → t <+: m.mountPath → Related bound m.mountPath k) :
    AtMostOne t groups' := by
  have hj : ∀ {x y}, groups'.get x = some y → t <+: j → t <+: x → x = j := by
    intro x y hx htj htx
    by_contra hne
    obtain ⟨ho,hx⟩ := hc.before hx hne
    cases hold : old with
    | some k₀ =>
      obtain ⟨hjk,g₀,hk₀⟩ := hc.above k₀ hold
      rw [h x y k₀ g₀ hx hk₀ htx (htj.trans hjk)] at ho
      exact ho hold
    | none =>
      -- a group below the top would have been found
      have ha := hc.alone hold
      rcases hr x (hg.key_mem hx) htx (htj.trans hc.below) with hmx | hxm | ⟨b,hb,hbm,-⟩
      · exact (ha x y hx).2 hmx
      · exact (ha x y hx).1 hxm
      · obtain ⟨k,g,hk,hkb⟩ := hg.exists_key (hbo b hb)
        exact (ha k g hk).1 (hkb.trans hbm)
  intro k g k' g' hk hk' htk ht'
  by_cases hkj : k = j
  · rw [hkj] at htk ⊢
    exact (hj hk' htk ht').symm
  · by_cases hkj' : k' = j
    · rw [hkj'] at ht' ⊢
      exact hj hk ht' htk
    · exact h k g k' g' (hc.before hk hkj).2 (hc.before hk' hkj').2 htk ht'

theorem AtMostOne.foldl (h : AtMostOne t groups) (hs : Steady done groups mounts)
    (hbo : ∀ b ∈ boundPaths bound, b ∈ done.map MountPoint.mountPath)
    (hd : ∀ p ∈ done.map MountPoint.mountPath, p ∈ ps) (hps : ∀ m ∈ mounts, m.mountPath ∈ ps)
    (hr : ∀ p ∈ ps, ∀ q ∈ ps, t <+: p → t <+: q → p ≠ q → Related bound p q) :
    AtMostOne t (mounts.foldl insert groups) := by
  induction mounts generalizing done groups with
  | nil => exact h
  | cons m mounts ih =>
    have hm := hps m mem_cons_self
    obtain ⟨k,g,old,hc⟩ := hs.change
    have hn : AtMostOne t (insert groups m) := by
      refine h.changed hs.grouped hc hbo fun k hk htk htm => ?_
      by_cases heq : m.mountPath = k
      · exact .inl (heq ▸ prefix_rfl)
      · exact hr _ hm k (hd k hk) htm htk heq
    refine ih hn hs.insert (fun b hb => ?_) (fun p hp => ?_) fun x hx => hps x (mem_cons_of_mem _ hx)
    · rw [map_append]
      exact mem_append_left _ (hbo b hb)
    · rw [map_append,map_singleton] at hp
      rcases mem_append.1 hp with hp | hp
      · exact hd p hp
      · rw [mem_singleton.1 hp]
        exact hm

end

end Padsi.Bubble
