import Padsi.Vm.Load

/-! # Files that no version uses

The walk goes through the directories of all users, and the name of a directory tells
whose files are in it.
-/
namespace Padsi.Vm
open Python Text FileTree List Option

inductive Kind where
  | file
  | dir
  | other
deriving DecidableEq, Repr

/-- What the system answers about the paths below the directory of the virtual machine, as lists of names. -/
structure Os where
  listdir : Path → Option (List Str)
  kind : Path → Option Kind
  islink : Path → Bool
  analysed : Path → Bool
  depth : ℕ
  bounded : ∀ p, depth ≤ p.length → listdir p = none

inductive ListExc where
  | noDirectory
  | notListed (p : Path)
deriving DecidableEq, Repr

def Os.list (os : Os) (p : Path) : Except ListExc (List Str) :=
  match os.listdir p with
  | some names => .ok names
  | none => .error (.notListed p)

/-- `os.walk`: links to directories are not followed, and what cannot be listed is passed over. -/
def Os.walk (os : Os) : ℕ → Path → List (Path × List Str)
  | 0, _ => []
  | n + 1, p =>
    match os.listdir p with
    | none => []
    | some names =>
      (p,names.filter fun name => os.kind (p ++ [name]) ≠ some .dir) ::
        (names.filter fun name => os.kind (p ++ [name]) = some .dir ∧
          os.islink (p ++ [name]) = false).flatMap fun name =>
          os.walk n (p ++ [name])

def Dir.path : Dir → Path
  | .top => []
  | .staging uid => ["staging",decimal uid]
  | .zone name uid => ["zones",name,decimal uid]

def VMVersion.names (v : VMVersion) : List Str :=
  [(fileNames v.versionType v.versionNumber).img,(fileNames v.versionType v.versionNumber).vars,
    (fileNames v.versionType v.versionNumber).infos]
def VMVersion.files (v : VMVersion) : List Path := v.names.map fun name => v.directory.path ++ [name]
def VMVersion.imageFile (v : VMVersion) : Path := v.directory.path ++ [(fileNames v.versionType v.versionNumber).img]
def Os.isComplete (os : Os) (v : VMVersion) : Bool := v.files.all fun p => os.kind p = some .file

def Os.isUsable (os : Os) (v : VMVersion) : Bool := os.analysed v.imageFile && os.isComplete v

section
variable (U : Unicode) (os : Os)

def named (types : List VMVersionType) (dir : Dir) (fname : Str) : Option VMVersion :=
  match fname.splitOn '.' with
  | t :: number :: _ => do
    let t ← VMVersionType.ofValue t
    if t ∈ types then return ⟨t,some (← int U number),dir⟩ else none
  | _ => none

def stagedVersions (uid : Uid) : List VMVersion :=
  ([VMVersionType.base,.user,.snap].map fun t => ⟨t,none,.staging uid⟩).filter os.isUsable
def baseVersions (names : List Str) : List VMVersion :=
  ((names.filter fun name => os.kind [name] = some .file).filterMap (named U [.base] .top)).filter os.isUsable

def versionsOfZone (uid : Uid) (zone : Str) : Except ListExc (List VMVersion) := do
  if (os.kind (Dir.zone zone uid).path).isNone then return []
  let names ← os.list (Dir.zone zone uid).path
  return (names.filterMap (named U [.user,.snap] (.zone zone uid))).filter os.isUsable

def versionsOfZones (uid : Uid) (names : List Str) : Except ListExc (List VMVersion) := do
  if "zones".toList ∈ names ∧ os.kind ["zones".toList] ≠ some .file then
    let zones ← os.list ["zones"]
    let found ← zones.mapM (versionsOfZone U os uid)
    return found.flatten
  else return []

def versionsFound (uid : Uid) : Except ListExc (List VMVersion) := do
  let names ← os.list []
  let zoned ← versionsOfZones U os uid names
  return stagedVersions os uid ++ baseVersions U os names ++ zoned

/-- The directory is another user's: `parts[-1]` is a number, and not the one of the user. -/
def isSkipped (topName : Str) (uid : Uid) (root : Path) : Bool :=
  match int U (root.getLastD topName) with
  | some n => n != uid
  | none => false

def unusedFiles (topName : Str) (uid : Uid) : Except ListExc (List Path) := do
  let found ← versionsFound U os uid
  let used := found.flatMap VMVersion.files
  return (os.walk os.depth []).flatMap fun e =>
    if isSkipped U topName uid e.1 then [] else (e.2.map fun fname => e.1 ++ [fname]).filter fun p => p ∉ used

def uidOf (name : Str) : Option Uid :=
  match int U name with
  | some n => if 0 ≤ n then some n.toNat else none
  | none => none

def getUsersWithVmArtefacts : Except ListExc (List Uid) := do
  if (os.kind []).isNone then .error .noDirectory
  else
    let names ← os.list []
    let staged ← if "staging".toList ∈ names then os.list ["staging".toList] else pure []
    let zones ← if "zones".toList ∈ names then os.list ["zones".toList] else pure []
    let zoned ← zones.mapM fun zone => os.list ["zones",zone]
    return ((staged ++ zoned.flatten).filterMap (uidOf U)).dedup

def adminUnusedFiles (topName : Str) : Except ListExc (List Path) := do
  let users ← getUsersWithVmArtefacts U os
  let unused ← users.mapM (unusedFiles U os topName)
  return unused.flatten.dedup

end

section
variable {os : Os} {n : ℕ} {p root : Path} {files : List Str} {name : Str}

theorem listed_of_walk (h : (root,files) ∈ os.walk n p) :
    ∃ names, os.listdir root = some names ∧ ∀ name ∈ files, name ∈ names := by
  induction n generalizing p with
  | zero => cases h
  | succ n ih =>
    unfold Os.walk at h
    cases hlist : os.listdir p with
    | none =>
      simp only [hlist] at h
      cases h
    | some names =>
      simp only [hlist] at h
      rcases mem_cons.1 h with ht | hs
      · cases ht
        exact ⟨names,hlist,fun name hname => mem_of_mem_filter hname⟩
      · obtain ⟨name,_,hw⟩ := mem_flatMap.1 hs
        exact ih hw

theorem walk_below (h : (root,files) ∈ os.walk n p) :
    root = p ∨ ∃ names name rest, os.listdir p = some names ∧ name ∈ names ∧ os.kind (p ++ [name]) = some .dir ∧
      root = p ++ [name] ++ rest ∧ ∃ m, (root,files) ∈ os.walk m (p ++ [name]) := by
  induction n generalizing p with
  | zero => cases h
  | succ n ih =>
    unfold Os.walk at h
    cases hlist : os.listdir p with
    | none =>
      simp only [hlist] at h
      cases h
    | some names =>
      simp only [hlist] at h
      rcases mem_cons.1 h with ht | hs
      · cases ht
        exact Or.inl rfl
      · obtain ⟨name,hname,hw⟩ := mem_flatMap.1 hs
        obtain ⟨hname,hkind⟩ := mem_filter.1 hname
        refine Or.inr ⟨names,name,?_⟩
        rcases ih hw with hr | ⟨_,name',rest,_,_,_,hr,_⟩
        · exact ⟨[],rfl,hname,(of_decide_eq_true hkind).1,by rw [hr,append_nil],n,hw⟩
        · exact ⟨name' :: rest,rfl,hname,(of_decide_eq_true hkind).1,by rw [hr,append_assoc (p ++ [name])]; rfl,n,hw⟩

theorem listed_of_walk_cons {rest : Path} (h : (p ++ name :: rest,files) ∈ os.walk n p) :
    ∃ names, os.listdir p = some names ∧ name ∈ names ∧ os.kind (p ++ [name]) = some .dir ∧
      ∃ m, (p ++ [name] ++ rest,files) ∈ os.walk m (p ++ [name]) := by
  rcases walk_below h with ht | ⟨names,name',rest',hlist,hname,hkind,hr,m,hw⟩
  · exact absurd (append_right_eq_self.1 ht) (cons_ne_nil _ _)
  · rw [append_assoc,append_cancel_left_eq,singleton_append] at hr
    cases hr
    refine ⟨names,hlist,hname,hkind,m,?_⟩
    rw [append_assoc,singleton_append]
    exact hw

end

section
variable {U : Unicode} {v : VMVersion} {n : ℤ}

theorem int_decimal (hU : U.Lawful) (n : ℤ) : int U (decimal n) = some n := by
  unfold decimal
  split_ifs with hn
  · rw [int_neg_toDigits hU,Int.ofNat_natAbs_of_nonpos hn.le,neg_neg]
  · rw [int_toDigits hU,Int.natAbs_of_nonneg (not_lt.1 hn)]

theorem not_mem_decimal {c : Char} (hc : c.isDigit = false) (hm : c ≠ '-') (n : ℤ) : c ∉ decimal n := by
  have hd : c ∉ Nat.toDigits 10 n.natAbs := fun h => absurd (digits_solid _ _ h) (ne_true_of_eq_false hc)
  unfold decimal
  split_ifs
  · exact not_mem_cons_of_ne_of_not_mem hm hd
  · exact hd

theorem VMVersionType.ofValue_value_eq (t : VMVersionType) : VMVersionType.ofValue t.value = some t := by
  cases t <;> decide

theorem named_of_mem (hU : U.Lawful) (hn : v.versionNumber = some n) {types : List VMVersionType}
    (ht : v.versionType ∈ types)
    {name : Str} (hname : name ∈ v.names) : named U types v.directory name = some v := by
  have hsplit : ∃ ext, name.splitOn '.' = [v.versionType.value,decimal n,ext] := by
    have hs (ext : Str) (he : '.' ∉ ext) : (stem v.versionType v.versionNumber ++ '.' ::
        ext).splitOn '.' = [v.versionType.value,decimal n,ext] := by
      have hv : '.' ∉ v.versionType.value := by
        cases v.versionType <;> decide
      rw [hn,stem,append_assoc,cons_append,splitOn_append_cons_self,splitOn_append_cons_self,splitOn_eq_singleton hv,
        splitOn_eq_singleton (not_mem_decimal rfl (by decide) n),splitOn_eq_singleton he]
      rfl
    simp only [VMVersion.names,mem_cons,not_mem_nil,or_false] at hname
    rcases hname with rfl | rfl | rfl
    · exact ⟨_,hs "img" (by decide)⟩
    · exact ⟨_,hs "vars" (by decide)⟩
    · exact ⟨_,hs "infos" (by decide)⟩
  obtain ⟨ext,hsplit⟩ := hsplit
  simp only [named,hsplit,VMVersionType.ofValue_value_eq,int_decimal hU,Option.pure_def,Option.bind_eq_bind,
    Option.bind_some,if_pos ht]
  rw [← hn]

theorem eq_of_found {os : Os} {types : List VMVersionType} {dir : Dir} {names : List Str}
    (h : v ∈ (names.filterMap (named U types dir)).filter os.isUsable) :
    os.isUsable v = true ∧ ∃ t ∈ types, ∃ n, v = ⟨t,some n,dir⟩ := by
  obtain ⟨h,hu⟩ := mem_filter.1 h
  obtain ⟨name,_,h⟩ := mem_filterMap.1 h
  unfold named at h
  split at h
  · obtain ⟨t,_,h⟩ := bind_eq_some_iff.1 h
    split_ifs at h with ht
    obtain ⟨n,_,h⟩ := bind_eq_some_iff.1 h
    cases h
    exact ⟨hu,t,ht,n,rfl⟩
  · cases h

end

inductive Listed (os : Os) : VMVersion → Prop
  | staged {v : VMVersion} {uid : Uid} (hdir : v.directory = .staging uid) : Listed os v
  | top {v : VMVersion} {names : List Str} {name : Str} (hdir : v.directory = .top) (hlist : os.listdir [] = some names)
      (hname : name ∈ v.names) (hmem : name ∈ names) : Listed os v
  | zoned {v : VMVersion} {zone : Str} {uid : Uid} {names zones inZone : List Str} {name : Str}
    (hdir : v.directory = .zone zone uid)
      (hlist : os.listdir [] = some names) (hzones : "zones".toList ∈ names)
        (hkind : os.kind ["zones".toList] = some .dir)
      (hlistZones : os.listdir ["zones"] = some zones) (hzone : zone ∈ zones)
      (hkindZone : os.kind (Dir.zone zone uid).path = some .dir)
        (hlistZone : os.listdir (Dir.zone zone uid).path = some inZone)
      (hname : name ∈ v.names) (hmem : name ∈ inZone) : Listed os v

section
variable {U : Unicode} {os : Os} {uid : Uid} {v : VMVersion} {found : List VMVersion}

theorem list_of_listdir {p : Path} {names : List Str} (h : os.listdir p = some names) : os.list p = .ok names := by
  simp only [Os.list,h]

theorem isFile_of_isUsable (h : os.isUsable v = true) : ∀ p ∈ v.files, os.kind p = some .file := by
  obtain ⟨_,hc⟩ := Bool.and_eq_true_iff.1 h
  intro p hp
  exact of_decide_eq_true (all_eq_true.1 hc p hp)

/-- A usable version of the user that is listed is found. -/
theorem mem_versionsFound (hU : U.Lawful) (h : versionsFound U os uid = .ok found) (hv : isInView uid v = true)
    (hu : os.isUsable v = true) (hli : Listed os v) : v ∈ found := by
  obtain ⟨names,hn,h⟩ := bind_eq_ok.1 h
  obtain ⟨zoned,hz,h⟩ := bind_eq_ok.1 h
  cases h
  obtain ⟨t,number,dir⟩ := v
  cases hli with
  | staged hdir =>
    refine mem_append_left _ (mem_append_left _ (mem_filter.2 ⟨?_,hu⟩))
    cases hdir
    have hui := owner_of_isInView hv rfl
    subst hui
    cases number with
    | none => cases t <;> simp
    | some n => cases t <;> cases hv
  | @top names' name hdir hlist hname hmem =>
    refine mem_append_left _ (mem_append_right _ (mem_filter.2 ⟨?_,hu⟩))
    cases hdir
    cases (list_of_listdir hlist).symm.trans hn
    cases number with
    | none => cases t <;> cases hv
    | some n =>
      cases t with
      | user | snap => cases hv
      | base =>
        have hf : os.kind [name] = some .file := isFile_of_isUsable hu _ (mem_map.2 ⟨name,hname,rfl⟩)
        exact mem_filterMap.2 ⟨name,mem_filter.2 ⟨hmem,decide_eq_true hf⟩,
          named_of_mem hU rfl (mem_singleton.2 rfl) hname⟩
  | @zoned zone uid' names' zones inZone name hdir hlist hzones hkind hlistZones hzone hkindZone hlistZone hname hmem =>
    refine mem_append_right _ ?_
    cases hdir
    have hui := owner_of_isInView hv rfl
    subst hui
    cases (list_of_listdir hlist).symm.trans hn
    rw [versionsOfZones, if_pos ⟨hzones,by rw [hkind]; decide⟩] at hz
    obtain ⟨zones',hz',hz⟩ := bind_eq_ok.1 hz
    obtain ⟨lists,hls,hz⟩ := bind_eq_ok.1 hz
    cases hz
    cases (list_of_listdir hlistZones).symm.trans hz'
    obtain ⟨l,hl,hve⟩ := exists_of_mapM hls zone hzone
    refine mem_flatten.2 ⟨l,hl,?_⟩
    simp only [versionsOfZone,hkindZone,isNone_some,Bool.false_eq_true,if_false] at hve
    obtain ⟨inZone',hi,hve⟩ := bind_eq_ok.1 hve
    cases (list_of_listdir hlistZone).symm.trans hi
    cases hve
    refine mem_filter.2 ⟨mem_filterMap.2 ⟨name,hmem,?_⟩,hu⟩
    cases number with
    | none => cases t <;> cases hv
    | some n =>
      cases t with
      | base => cases hv
      | user | snap => exact named_of_mem hU rfl (by simp) hname

theorem view_of_found (h : versionsFound U os uid = .ok found) (hv : v ∈ found) :
    isInView uid v = true ∧ os.isUsable v = true := by
  obtain ⟨names,_,h⟩ := bind_eq_ok.1 h
  obtain ⟨zoned,hz,h⟩ := bind_eq_ok.1 h
  cases h
  rw [mem_append,mem_append] at hv
  rcases hv with (hv | hv) | hv
  · obtain ⟨hv,hu⟩ := mem_filter.1 hv
    obtain ⟨t,_,rfl⟩ := mem_map.1 hv
    exact ⟨by cases t <;> exact beq_self_eq_true uid,hu⟩
  · obtain ⟨hu,t,ht,n,rfl⟩ := eq_of_found hv
    cases mem_singleton.1 ht
    exact ⟨rfl,hu⟩
  · unfold versionsOfZones at hz
    split_ifs at hz
    · obtain ⟨zones,_,hz⟩ := bind_eq_ok.1 hz
      obtain ⟨lists,hli,hz⟩ := bind_eq_ok.1 hz
      cases hz
      obtain ⟨l,hl,hv⟩ := mem_flatten.1 hv
      obtain ⟨zone,_,hzone⟩ := mem_of_mapM hli l hl
      unfold versionsOfZone at hzone
      split_ifs at hzone
      · cases hzone
        cases hv
      · obtain ⟨inZone,_,hzone⟩ := bind_eq_ok.1 hzone
        cases hzone
        obtain ⟨hu,t,ht,n,rfl⟩ := eq_of_found hv
        cases t with
        | base => simp at ht
        | user | snap => exact ⟨beq_self_eq_true uid,hu⟩
    · cases hz
      cases hv

structure Describes {δ : Type} (os : Os) (s : Store δ) : Prop where
  usable : ∀ v, os.isUsable v = s.isUsable v
  listed : ∀ v, os.isUsable v = true → Listed os v

theorem Describes.mem_versions {δ : Type} {s : Store δ} (hs : Describes os s) (hU : U.Lawful)
    (h : versionsFound U os uid = .ok found) : v ∈ found ↔ v ∈ s.versions uid := by
  rw [Store.mem_versions,← hs.usable]
  constructor
  · exact view_of_found h
  · rintro ⟨hv,hu⟩
    exact mem_versionsFound hU h hv hu (hs.listed v hu)

end

section
variable {U : Unicode} {os : Os} {topName : Str} {uid u : Uid} {v : VMVersion} {root : Path} {files : List Str}
  {name : Str}

theorem listed_of_mem_walk (hw : (v.directory.path,files) ∈ os.walk os.depth []) (hf : name ∈ files)
    (hname : name ∈ v.names) : Listed os v := by
  obtain ⟨inRoot,hlist,hmem⟩ := listed_of_walk hw
  cases hdir : v.directory with
  | top =>
    rw [hdir] at hlist
    exact .top hdir hlist hname (hmem name hf)
  | staging uid => exact .staged hdir
  | zone zone uid =>
    rw [hdir] at hw hlist
    obtain ⟨names,hn,hzones,hkind,_,hw⟩ := listed_of_walk_cons (p := []) hw
    obtain ⟨zones,hlistZones,hzone,_,_,hw⟩ := listed_of_walk_cons hw
    obtain ⟨_,_,_,hkindZone,_⟩ := listed_of_walk_cons hw
    exact .zoned hdir hn hzones hkind hlistZones hzone hkindZone hlist hname (hmem name hf)

theorem view_of_not_skipped (hU : U.Lawful) (hv : isInView u v = true)
    (h : isSkipped U topName uid v.directory.path = false) : isInView uid v = true := by
  cases ho : v.directory.owner with
  | none => exact isInView_of_top ho uid u ▸ hv
  | some u' =>
    have hu := owner_of_isInView hv ho
    subst hu
    have hl : int U (v.directory.path.getLastD topName) = some (u' : ℤ) := by
      cases hdir : v.directory with
      | top =>
        rw [hdir] at ho
        cases ho
      | staging | zone =>
        rw [hdir] at ho
        cases ho
        exact int_decimal hU (u' : ℤ)
    simp only [isSkipped,hl,bne_eq_false_iff_eq,Nat.cast_inj] at h
    rw [← h]
    exact hv

theorem not_mem_files_of_unused (hU : U.Lawful) {l : List Path} (h : unusedFiles U os topName uid = .ok l)
    (hv : isInView u v = true) (hu : os.isUsable v = true) : ∀ p ∈ l, p ∉ v.files := by
  obtain ⟨found,hfo,h⟩ := bind_eq_ok.1 h
  cases h
  intro p hp hf
  obtain ⟨⟨root,files⟩,hw,hp⟩ := mem_flatMap.1 hp
  cases hs : isSkipped U topName uid root with
  | true =>
    rw [hs,if_pos rfl] at hp
    cases hp
  | false =>
    rw [hs,if_neg Bool.false_ne_true] at hp
    obtain ⟨hp,hun⟩ := mem_filter.1 hp
    obtain ⟨fname,hfn,rfl⟩ := mem_map.1 hp
    obtain ⟨name,hname,hsa⟩ := mem_map.1 hf
    obtain ⟨hr,hl⟩ := append_inj' hsa rfl
    cases hl
    subst hr
    have hmem := mem_versionsFound hU hfo (view_of_not_skipped hU hv hs) hu (listed_of_mem_walk hw hfn hname)
    exact of_decide_eq_true hun (mem_flatMap.2 ⟨v,hmem,hf⟩)

end

/-- No file that is reported as unused is one of a version of any user. -/
theorem adminUnusedFiles_unused {U : Unicode} (hU : U.Lawful) {os : Os} {topName : Str} {l : List Path}
    (h : adminUnusedFiles U os topName = .ok l) {u : Uid} {v : VMVersion} (hview : isInView u v = true)
    (hcomplete : os.isComplete v = true) (hanalysed : os.analysed v.imageFile = true) : ∀ p ∈ l, p ∉ v.files := by
  intro p hp
  obtain ⟨users,_,h⟩ := bind_eq_ok.1 h
  obtain ⟨unused,hu,h⟩ := bind_eq_ok.1 h
  cases h
  obtain ⟨l,hl,hp⟩ := mem_flatten.1 (mem_dedup.1 hp)
  obtain ⟨uid,_,hui⟩ := mem_of_mapM hu l hl
  exact not_mem_files_of_unused hU hui hview (Bool.and_eq_true_iff.2 ⟨hanalysed,hcomplete⟩) p hp

def stagedBase : VMVersion := ⟨.base,none,.staging 1000⟩
def stagedSnap : VMVersion := ⟨.snap,none,.staging 2000⟩

def twoUsers : Os where
  listdir p :=
    if p.length < 3 then
      if p = [] then some ["staging"]
      else if p = ["staging".toList] then some [decimal 1000,decimal 2000]
      else if p = stagedBase.directory.path then some ("lost" :: stagedBase.names)
      else if p = stagedSnap.directory.path then some stagedSnap.names
      else none
    else none
  kind p :=
    if p ∈ stagedBase.files ++ stagedSnap.files ++ [stagedBase.directory.path ++ ["lost".toList]] then some .file
    else if p ∈ [[],["staging".toList],stagedBase.directory.path,stagedSnap.directory.path] then some .dir
    else none
  islink _ := false
  analysed _ := true
  depth := 3
  bounded _ hp := if_neg (not_lt.2 hp)

/-- Only this file is reported. -/
theorem twoUsers_unused :
    adminUnusedFiles .ascii twoUsers "vm".toList = .ok [stagedBase.directory.path ++ ["lost".toList]] ∧
    isInView 2000 stagedSnap = true ∧ stagedBase.directory.path ++ ["lost".toList] ∉ stagedSnap.files := by
  have h : adminUnusedFiles .ascii twoUsers "vm".toList = .ok [stagedBase.directory.path ++ ["lost".toList]] :=
    by decide +kernel
  exact ⟨h,by decide,adminUnusedFiles_unused Unicode.lawful_ascii h (u := 2000) (by decide) (by decide) rfl _
    (mem_singleton.2 rfl)⟩

end Padsi.Vm
