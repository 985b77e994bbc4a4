import Mathlib

/-! # Paths of the data access guard

A filter looks for `padsi` among the last five entries of a walk to the root of the
filesystem of the file. The path that the kernel renders also crosses the mount points.
-/
namespace Padsi.Guard
open List

abbrev Name := List UInt8
def ascii (s : String) : Name := s.toList.map fun c => UInt8.ofNat c.toNat
def slash : UInt8 := 47

/-- An entry without parent is its own parent. -/
structure Vfs (D M : Type) where
  name : D → Name
  parent : D → D
  mntRoot : M → D
  mntPoint : M → D
  mntParent : M → M
  /-- whether the program can read the name -/
  readable : D → Bool
  plain : ∀ d, parent d ≠ d → slash ∉ name d

variable {D M : Type}

def nbPaths : ℕ := 5

def Vfs.probe (v : Vfs D M) (d : D) : Except ℤ Name := if v.readable d then .ok ((v.name d).take 5) else .error (-1)

def Vfs.scan (v : Vfs D M) : List (Option D) → Except ℤ Bool
  | [] => .ok false
  | none :: _ => .ok false
  | some d :: rest =>
    match v.probe d with
    | .error e => .error e
    | .ok name => if name = ascii "padsi" then .ok true else v.scan rest

def Vfs.walk [DecidableEq D] (v : Vfs D M) : ℕ → ℕ → D → List (Option D) → Except ℤ Bool
  | 0, _, _, _ => .error (-1)
  | turns + 1, depth, d, buffer =>
    if v.parent d = d then v.scan (buffer.set (depth % nbPaths) (some d))
    else v.walk turns (depth + 1) (v.parent d) (buffer.set (depth % nbPaths) (some d))

def Vfs.isPadsiSubdir [DecidableEq D] (v : Vfs D M) (d : D) : Except ℤ Bool := v.walk 128 0 d (replicate nbPaths none)

def protectedUser : Name := ascii "/run/padsi/user/"
def protectedLog : Name := ascii "/var/padsi/log/"
def isProtected (path : Name) : Bool := protectedUser.isPrefixOf path || protectedLog.isPrefixOf path

def Vfs.mayBlockFromPath [DecidableEq D] (v : Vfs D M) (d : D) (dPath : Except ℤ Name) :
    Except ℤ (Bool × Option Name) :=
  let mayBlock : Bool := match v.isPadsiSubdir d with
    | .error _ => true
    | .ok b => b
  if mayBlock = false then .ok (false,none)
  else
    match dPath with
    | .error _ => .error (-1)
    | .ok path => if isProtected path then .ok (true,some path) else .ok (false,none)

/-- The names of a path, from the global root; the root of a mount stands for its mount point. -/
inductive Vfs.Renders (v : Vfs D M) : M → D → List Name → Prop
  | root {m : M} : v.mntParent m = m → Renders v m (v.mntRoot m) []
  | cross {m : M} {names : List Name} : v.mntParent m ≠ m → Renders v (v.mntParent m) (v.mntPoint m) names →
      Renders v m (v.mntRoot m) names
  | entry {m : M} {d : D} {names : List Name} : d ≠ v.mntRoot m → v.parent d ≠ d → Renders v m (v.parent d) names →
      Renders v m d (names ++ [v.name d])

def pathText (names : List Name) : Name := if names = [] then [slash] else names.flatMap (slash :: ·)

structure File (v : Vfs D M) where
  mount : M
  dentry : D
  names : List Name
  renders : v.Renders mount dentry names
  fits : (pathText names).length < 4096

def File.path {v : Vfs D M} (f : File v) : Name := pathText f.names

section
variable {v : Vfs D M}

inductive Vfs.Chain (v : Vfs D M) : D → List D → Prop
  | root {d : D} : v.parent d = d → Chain v d [d]
  | entry {d : D} {ds : List D} : v.parent d ≠ d → Chain v (v.parent d) ds → Chain v d (d :: ds)

def slot (seen : List D) (i : ℕ) : Option D :=
  if i < seen.length then seen[seen.length - 1 - (seen.length - 1 - i) % nbPaths]? else none

structure Holds (seen : List D) (buffer : List (Option D)) : Prop where
  length : buffer.length = nbPaths
  slots : ∀ i < nbPaths, buffer[i]? = some (slot seen i)

theorem holds_start : Holds ([] : List D) (replicate nbPaths none) := by
  refine ⟨length_replicate,fun i hi => ?_⟩
  rw [getElem?_replicate,if_pos hi]
  rfl

variable {seen : List D} {buffer : List (Option D)}

theorem Holds.set (h : Holds seen buffer) (d : D) :
    Holds (seen ++ [d]) (buffer.set (seen.length % nbPaths) (some d)) := by
  unfold nbPaths
  refine ⟨by rw [length_set,h.length],fun i hi => ?_⟩
  unfold nbPaths at hi
  have hl := h.length
  unfold nbPaths at hl
  have hs := h.slots i hi
  unfold slot nbPaths at *
  rw [getElem?_set,length_append,length_singleton]
  by_cases hn : seen.length % 5 = i
  · have hin : seen.length + 1 - 1 - (seen.length + 1 - 1 - i) % 5 = seen.length := by omega
    rw [if_pos hn, if_pos (by omega), if_pos (by omega), hin, getElem?_concat_length]
  · rw [if_neg hn,hs]
    by_cases hi' : i < seen.length
    · have hin : seen.length + 1 - 1 - (seen.length + 1 - 1 - i) % 5 =
        seen.length - 1 - (seen.length - 1 - i) % 5 := by omega
      rw [if_pos hi', if_pos (by omega), hin, getElem?_append_left (by omega)]
    · rw [if_neg hi', if_neg (by omega)]

theorem Holds.mem_iff (h : Holds seen buffer) (x : D) :
    some x ∈ buffer ↔ x ∈ seen.drop (seen.length - nbPaths) := by
  have hl := h.length
  unfold nbPaths at *
  constructor
  · intro hx
    obtain ⟨i,hi⟩ := mem_iff_getElem?.1 hx
    have hlt : i < 5 := by
      rw [← hl]
      exact (List.getElem?_eq_some_iff.mp hi).1
    have hs := h.slots i hlt
    rw [hi,Option.some.injEq] at hs
    unfold slot nbPaths at hs
    split at hs
    · rename_i hse
      refine mem_iff_getElem?.2 ⟨seen.length - 1 - (seen.length - 1 - i) % 5 - (seen.length - 5),?_⟩
      rw [getElem?_drop,hs]
      congr 1
      omega
    · cases hs
  · intro hx
    obtain ⟨j,hj⟩ := mem_iff_getElem?.1 hx
    rw [getElem?_drop] at hj
    have hlt : seen.length - 5 + j < seen.length := (List.getElem?_eq_some_iff.mp hj).1
    refine mem_iff_getElem?.2 ⟨(seen.length - 5 + j) % 5,?_⟩
    have hs := h.slots ((seen.length - 5 + j) % 5) (Nat.mod_lt _ (by decide))
    unfold slot nbPaths at hs
    have hin : seen.length - 1 - (seen.length - 1 - (seen.length - 5 + j) % 5) % 5 = seen.length - 5 + j := by omega
    rw [hs, if_pos (by omega), hin, hj]

def FreeAtEnd (buffer : List (Option D)) : Prop :=
  ∀ i : ℕ, buffer[i]? = some none → ∀ j : ℕ, i ≤ j → ∀ x, buffer[j]? ≠ some (some x)

theorem Holds.freeAtEnd (h : Holds seen buffer) : FreeAtEnd buffer := by
  have hb : ∀ {k y}, buffer[k]? = some y → k < nbPaths := by
    intro k y hk
    rw [← h.length]
    exact (List.getElem?_eq_some_iff.mp hk).1
  intro i hi j hij x hj
  have hf := h.slots i (hb hi)
  have hu := h.slots j (hb hj)
  rw [hi,Option.some.injEq] at hf
  rw [hj,Option.some.injEq] at hu
  unfold slot at hf hu
  split at hu
  · rename_i hlt
    rw [if_pos (by omega), eq_comm, List.getElem?_eq_none_iff] at hf
    unfold nbPaths at hf
    omega
  · cases hu

/-- The filter lets the entry pass: its name is read, and does not start like `padsi`. -/
def Vfs.Clear (v : Vfs D M) (d : D) : Prop := v.readable d = true ∧ (v.name d).take 5 ≠ ascii "padsi"

theorem scan_eq_false_iff (h : FreeAtEnd buffer) :
    v.scan buffer = .ok false ↔ ∀ x, some x ∈ buffer → v.Clear x := by
  induction buffer with
  | nil => exact ⟨nofun,fun _ => rfl⟩
  | cons b rest ih =>
    cases b with
    | none =>
      refine ⟨fun _ x hx => ?_,fun _ => rfl⟩
      obtain ⟨j,hj⟩ := mem_iff_getElem?.1 hx
      exact absurd hj (h 0 rfl j (Nat.zero_le j) x)
    | some d =>
      have hrest := ih fun i hi j hij x hj => h (i + 1) hi (j + 1) (Nat.succ_le_succ hij) x hj
      unfold Vfs.scan Vfs.probe
      by_cases hr : v.readable d = true
      · by_cases hname : (v.name d).take 5 = ascii "padsi"
        · simp only [hr,if_true,hname]
          constructor
          · intro h
            cases h
          · exact fun ha => absurd hname (ha d mem_cons_self).2
        · simp only [hr,if_true,hname,if_false,hrest,mem_cons,Option.some.injEq]
          constructor
          · rintro ha x (rfl | hx)
            · exact ⟨hr,hname⟩
            · exact ha x hx
          · exact fun ha x hx => ha x (Or.inr hx)
      · simp only [hr,Bool.false_eq_true,if_false]
        constructor
        · intro h
          cases h
        · exact fun ha => absurd (ha d mem_cons_self).1 hr

/-- The walk over a chain scans its last five entries, unless there are too many. -/
theorem walk_of_chain [DecidableEq D] {d : D} {ds : List D} (hc : v.Chain d ds) {turns : ℕ} (ht : ds.length ≤ turns)
    (h : Holds seen buffer) :
    ∃ buffer', Holds (seen ++ ds) buffer' ∧ v.walk turns seen.length d buffer = v.scan buffer' := by
  induction hc generalizing turns seen buffer with
  | @root d hr =>
    cases turns with
    | zero => simp at ht
    | succ turns => exact ⟨_,h.set d,if_pos hr⟩
  | @entry d ds hp _ ih =>
    cases turns with
    | zero => simp at ht
    | succ turns =>
      obtain ⟨buffer',hh,hw⟩ := ih (Nat.le_of_succ_le_succ ht) (h.set d)
      rw [length_append,length_singleton] at hw
      refine ⟨buffer',by simpa using hh,?_⟩
      rw [Vfs.walk,if_neg hp]
      exact hw

theorem chain_of_walk [DecidableEq D] {turns depth : ℕ} {d : D} {b : Bool} (h : v.walk turns depth d buffer = .ok b) :
    ∃ ds, v.Chain d ds ∧ ds.length ≤ turns := by
  induction turns generalizing depth d buffer with
  | zero => cases h
  | succ turns ih =>
    rw [Vfs.walk] at h
    split at h
    · rename_i hr
      exact ⟨[d],.root hr,by simp⟩
    · rename_i hp
      obtain ⟨ds,hc,hl⟩ := ih h
      exact ⟨d :: ds,.entry hp hc,Nat.succ_le_succ hl⟩

/-- The chain is too long for the walk, or one of its last five entries is not clear. -/
def Vfs.SeesPadsi (v : Vfs D M) (d : D) : Prop :=
  ∀ ds, v.Chain d ds → ds.length ≤ 128 → ∃ x ∈ ds.drop (ds.length - nbPaths), ¬ v.Clear x

theorem isPadsiSubdir_ne_false_iff [DecidableEq D] (d : D) : v.isPadsiSubdir d ≠ .ok false ↔ v.SeesPadsi d := by
  have hs : ∀ ds, v.Chain d ds → ds.length ≤ 128 →
      (v.isPadsiSubdir d = .ok false ↔ ∀ x ∈ ds.drop (ds.length - nbPaths), v.Clear x) := by
    intro ds hc hl
    obtain ⟨buffer,hh,hw⟩ := walk_of_chain hc hl holds_start
    rw [nil_append] at hh
    rw [Vfs.isPadsiSubdir]
    simp only [length_nil] at hw
    rw [hw,scan_eq_false_iff hh.freeAtEnd]
    simp only [hh.mem_iff]
  constructor
  · intro h ds hc hl
    by_contra hcl
    push Not at hcl
    exact h ((hs ds hc hl).2 hcl)
  · intro h hf
    obtain ⟨ds,hc,hl⟩ := chain_of_walk hf
    obtain ⟨x,hx,hnot⟩ := h ds hc hl
    exact hnot ((hs ds hc hl).1 hf x hx)

end

theorem name_of_isPrefix {a n b t : Name} (ha : slash ∉ a) (hn : slash ∉ n) (ht : ∀ c t', t = c :: t' → c = slash)
    (h : a ++ slash :: b <+: n ++ t) : n = a ∧ slash :: b <+: t := by
  induction a generalizing n with
  | nil =>
    cases n with
    | nil => exact ⟨rfl,h⟩
    | cons c n => exact absurd (cons_prefix_cons.1 h).1 fun hc => hn (hc ▸ mem_cons_self)
  | cons x a ih =>
    cases n with
    | nil =>
      obtain ⟨rest,hrest⟩ := h
      exact absurd (ht x _ hrest.symm) fun hx => ha (hx ▸ mem_cons_self)
    | cons c n =>
      obtain ⟨rfl,hrest⟩ := cons_prefix_cons.1 h
      obtain ⟨rfl,hta⟩ := ih (fun h => ha (mem_cons_of_mem _ h)) (fun h => hn (mem_cons_of_mem _ h)) hrest
      exact ⟨rfl,hta⟩

variable {names : List Name} {v : Vfs D M} {d : D}

/-- A beginning of the text that ends with a slash is a beginning of the names. -/
theorem names_of_isPrefix {top : List Name} (ht : ∀ a ∈ top, slash ∉ a) (hna : ∀ n ∈ names, slash ∉ n)
    (h : top.flatMap (slash :: ·) ++ [slash] <+: names.flatMap (slash :: ·)) :
    ∃ rest, names = top ++ rest ∧ rest ≠ [] := by
  induction top generalizing names with
  | nil =>
    refine ⟨names,rfl,?_⟩
    rintro rfl
    exact absurd (prefix_nil.1 h) (by simp)
  | cons a top ih =>
    cases names with
    | nil => exact absurd (prefix_nil.1 h) (by simp)
    | cons n names =>
      obtain ⟨hn,hn'⟩ := forall_mem_cons.1 hna
      obtain ⟨ha,ht'⟩ := forall_mem_cons.1 ht
      have hh : ∀ (l : List Name) c t', l.flatMap (slash :: ·) = c :: t' → c = slash := by
        intro l c t' hl
        cases l with
        | nil => cases hl
        | cons x l => exact (cons.inj hl).1.symm
      rw [flatMap_cons,flatMap_cons,cons_append,cons_append,append_assoc] at h
      have hrest := (cons_prefix_cons.1 h).2
      -- what follows the first name starts with a slash
      obtain ⟨b,hb⟩ : ∃ b, top.flatMap (slash :: ·) ++ [slash] = slash :: b := by
        cases top with
        | nil => exact ⟨[],rfl⟩
        | cons x top => exact ⟨_,rfl⟩
      rw [hb] at hrest
      obtain ⟨rfl,hta⟩ := name_of_isPrefix ha hn (hh names) hrest
      obtain ⟨rest,rfl,hne⟩ := ih ht' hn' (hb ▸ hta)
      exact ⟨rest,rfl,hne⟩

def logDir : List Name := [ascii "var",ascii "padsi",ascii "log"]
def protectedDirs : List (List Name) := [[ascii "run",ascii "padsi",ascii "user"],logDir]

/-- A path starts with the text of a protected directory if it is one of something below it. -/
theorem prefix_pathText_iff (hna : ∀ n ∈ names, slash ∉ n) {top : List Name} (ht : top ∈ protectedDirs) :
    top.flatMap (slash :: ·) ++ [slash] <+: pathText names ↔ ∃ rest, names = top ++ rest ∧ rest ≠ [] := by
  have hp : ∀ top ∈ protectedDirs, ∀ a ∈ top, slash ∉ a := by decide
  have hlo : ¬ top.flatMap (slash :: ·) ++ [slash] <+: [slash] := by
    intro h
    have hle := h.length_le
    simp only [protectedDirs,mem_cons,not_mem_nil,or_false] at ht
    rcases ht with rfl | rfl
    · exact absurd hle (by decide)
    · exact absurd hle (by decide)
  unfold pathText
  by_cases hn : names = []
  · rw [if_pos hn,hn]
    refine ⟨fun h => absurd h hlo,fun ⟨rest,hrest,hne⟩ => absurd (append_eq_nil_iff.1 hrest.symm).2 hne⟩
  · rw [if_neg hn]
    constructor
    · exact names_of_isPrefix (hp top ht) hna
    · rintro ⟨rest,rfl,hne⟩
      obtain ⟨n,rest,rfl⟩ := exists_cons_of_ne_nil hne
      rw [flatMap_append,flatMap_cons,cons_append]
      exact (prefix_append_right_inj _).2 (cons_prefix_cons.2 ⟨rfl, nil_prefix⟩)

theorem isProtected_iff (hna : ∀ n ∈ names, slash ∉ n) :
    isProtected (pathText names) = true ↔ ∃ top ∈ protectedDirs, ∃ rest, names = top ++ rest ∧ rest ≠ [] := by
  have hu : protectedUser = [ascii "run",ascii "padsi",ascii "user"].flatMap (slash :: ·) ++ [slash] := rfl
  have hl : protectedLog = logDir.flatMap (slash :: ·) ++ [slash] := rfl
  have ha : isProtected (pathText names) = true ↔
      ∃ top ∈ protectedDirs, top.flatMap (slash :: ·) ++ [slash] <+: pathText names := by
    rw [isProtected,hu,hl]
    simp only [protectedDirs,mem_cons,not_mem_nil,or_false,exists_eq_or_imp,exists_eq_left,Bool.or_eq_true,
      isPrefixOf_iff_prefix]
  rw [ha]
  exact exists_congr fun top => and_congr_right fun ht => prefix_pathText_iff hna ht

theorem isPrefixOf_log_iff (hna : ∀ n ∈ names, slash ∉ n) :
    protectedLog.isPrefixOf (pathText names) = true ↔ ∃ rest, names = logDir ++ rest ∧ rest ≠ [] := by
  have hl : protectedLog = logDir.flatMap (slash :: ·) ++ [slash] := rfl
  rw [hl, isPrefixOf_iff_prefix]
  exact prefix_pathText_iff hna (by simp [protectedDirs])

theorem Vfs.Renders.plain {m : M} (h : v.Renders m d names) : ∀ n ∈ names, slash ∉ n := by
  induction h with
  | root _ => nofun
  | cross _ _ ih => exact ih
  | entry _ hp _ ih =>
    intro n hn
    rcases mem_append.1 hn with hn | hn
    · exact ih n hn
    · rw [mem_singleton.1 hn]
      exact v.plain _ hp

/-- A protected file may be blocked if and only if the filter sees `padsi` near the root of its filesystem. -/
theorem mayBlockFromPath_iff_seesPadsi [DecidableEq D] {v : Vfs D M} (f : File v)
    (hprotected : isProtected f.path = true) :
    v.mayBlockFromPath f.dentry (.ok f.path) = .ok (true,some f.path) ↔ v.SeesPadsi f.dentry := by
  rw [← isPadsiSubdir_ne_false_iff]
  unfold Vfs.mayBlockFromPath
  cases v.isPadsiSubdir f.dentry with
  | error e => simp [hprotected]
  | ok b => cases b <;> simp [hprotected]

theorem Vfs.Renders.split {m : M} (h : v.Renders m d names) (hr : v.parent (v.mntRoot m) = v.mntRoot m) :
    ∃ outer ds, v.Renders m (v.mntRoot m) outer ∧ v.Chain d ds ∧ names = outer ++ (ds.dropLast.map v.name).reverse := by
  induction h with
  | @root m hg => exact ⟨[],[v.mntRoot m],.root hg,.root hr,rfl⟩
  | @cross m names hm hp _ => exact ⟨names,[v.mntRoot m],.cross hm hp,.root hr,by simp⟩
  | @entry m d names _ hpa _ ih =>
    obtain ⟨outer,ds,ho,hc,rfl⟩ := ih hr
    have hne : ds ≠ [] := by
      rintro rfl
      cases hc
    refine ⟨outer,d :: ds,ho,.entry hpa hc,?_⟩
    rw [dropLast_cons_of_ne_nil hne,map_cons,reverse_cons,append_assoc]

theorem Vfs.Chain.unique {ds ds' : List D} (h : v.Chain d ds) (h' : v.Chain d ds') : ds = ds' := by
  induction h generalizing ds' with
  | root hr =>
    cases h' with
    | root _ => rfl
    | entry hp _ => exact absurd hr hp
  | entry hp _ ih =>
    cases h' with
    | root hr => exact absurd hr hp
    | entry _ hc => rw [ih hc]

/-- The filter sees the protected files of a filesystem that is mounted as a whole on the root,
`/run` or `/var`. -/
theorem seesPadsi_of_mounted_above {m : M} (hr : v.Renders m d names)
    (hpr : isProtected (pathText names) = true) (hro : v.parent (v.mntRoot m) = v.mntRoot m)
    (habove : ∀ outer, v.Renders m (v.mntRoot m) outer → outer.length ≤ 1) : v.SeesPadsi d := by
  obtain ⟨outer,ds,ho,hc,hn⟩ := hr.split hro
  obtain ⟨top,ht,rest,heq,_⟩ := (isProtected_iff hr.plain).1 hpr
  have hle := habove outer ho
  -- the name is among the first two below the root of the filesystem
  have hp : ascii "padsi" ∈ ((ds.dropLast.map v.name).reverse).take 4 := by
    rw [heq] at hn
    simp only [protectedDirs,mem_cons,not_mem_nil,or_false] at ht
    rcases outer with _ | ⟨n,_ | ⟨n',outer⟩⟩
    · rw [nil_append] at hn
      rw [← hn]
      rcases ht with rfl | rfl
      · exact mem_cons_of_mem _ mem_cons_self
      · exact mem_cons_of_mem _ mem_cons_self
    · rw [singleton_append] at hn
      rcases ht with rfl | rfl
      · rw [← (cons.inj hn).2]
        exact mem_cons_self
      · rw [← (cons.inj hn).2]
        exact mem_cons_self
    · simp at hle
  rw [← map_reverse,← map_take,take_reverse] at hp
  obtain ⟨x,hx,hname⟩ := mem_map.1 hp
  intro ds' hc' _
  obtain rfl := hc'.unique hc
  have hmem : x ∈ ds'.dropLast.drop (ds'.length - nbPaths) := by
    have hl : ds'.dropLast.length - 4 = ds'.length - nbPaths := by
      rw [length_dropLast]
      unfold nbPaths
      omega
    rw [← hl]
    exact mem_reverse.1 hx
  refine ⟨x,?_,fun hcl => hcl.2 (by rw [hname]; rfl)⟩
  exact (( dropLast_prefix ds').sublist.drop _).subset hmem

inductive Entry where
  | root
  | run
  | padsi
  | user
  | otherRoot
  | file
deriving DecidableEq

def Entry.name : Entry → Name
  | .root | .otherRoot => ascii "/"
  | .run => ascii "run"
  | .padsi => ascii "padsi"
  | .user => ascii "user"
  | .file => ascii "f"

def Entry.parent (mounted : Bool) : Entry → Entry
  | .root | .run => .root
  | .padsi => .run
  | .user => .padsi
  | .otherRoot => .otherRoot
  | .file => if mounted then .otherRoot else .user

def sample (mounted : Bool) : Vfs Entry Bool where
  name := Entry.name
  parent := Entry.parent mounted
  mntRoot m := if m then .otherRoot else .root
  mntPoint _ := .user
  mntParent _ := false
  readable _ := true
  plain d h := by
    cases d <;> cases mounted <;> first | exact absurd rfl h | decide

theorem renders_user (mounted : Bool) :
    (sample mounted).Renders false .user [ascii "run",ascii "padsi",ascii "user"] := by
  have hr : (sample mounted).Renders false .root [] := .root rfl
  have hru : (sample mounted).Renders false .run ([] ++ [ascii "run"]) := .entry nofun nofun hr
  have hp : (sample mounted).Renders false .padsi ([ascii "run"] ++ [ascii "padsi"]) := .entry nofun nofun hru
  have hu : (sample mounted).Renders false .user ([ascii "run",ascii "padsi"] ++ [ascii "user"]) :=
    .entry nofun nofun hp
  exact hu

theorem renders_file : (sample false).Renders false .file ([ascii "run",ascii "padsi",ascii "user"] ++ [ascii "f"]) :=
  .entry nofun nofun (renders_user false)

theorem renders_mounted :
    (sample true).Renders true .file ([ascii "run",ascii "padsi",ascii "user"] ++ [ascii "f"]) := by
  have hm : (sample true).Renders true .otherRoot [ascii "run",ascii "padsi",ascii "user"] :=
    .cross nofun (renders_user true)
  exact Vfs.Renders.entry (d := Entry.file) nofun nofun hm

def plainFile : File (sample false) where
  mount := false
  dentry := .file
  names := [ascii "run",ascii "padsi",ascii "user",ascii "f"]
  renders := renders_file
  fits := by decide

def mountedFile : File (sample true) where
  mount := true
  dentry := .file
  names := [ascii "run",ascii "padsi",ascii "user",ascii "f"]
  renders := renders_mounted
  fits := by decide

theorem mayBlockFromPath_iff_plainFile :
    isProtected plainFile.path = true ∧
      ((sample false).mayBlockFromPath plainFile.dentry (.ok plainFile.path) = .ok (true,some plainFile.path) ↔
        (sample false).SeesPadsi plainFile.dentry) :=
  ⟨by decide,mayBlockFromPath_iff_seesPadsi plainFile (by decide)⟩

/-- The filter dismisses a protected file whose filesystem does not know the name `padsi`. -/
theorem mountedFile_is_dismissed :
    mountedFile.path = ascii "/run/padsi/user/f" ∧ isProtected mountedFile.path = true ∧
      (sample true).mayBlockFromPath mountedFile.dentry (.ok mountedFile.path) = .ok (false,none) :=
  ⟨by decide,by decide,rfl⟩

end Padsi.Guard
