import Padsi.Lib.FileTree
import Padsi.Vm.Files

/-! # Loading a virtual machine

The name of the extracted directory is chosen by the process of the user, and the
service, which runs as root, joins it to the path of the staging directory as it is.
-/
namespace Padsi.Vm
open Python Text FileTree List

def VMVersionType.value : VMVersionType → Str
  | .base => "base"
  | .user => "user"
  | .snap => "snap"

def VMVersionType.ofValue (s : Str) : Option VMVersionType :=
  [VMVersionType.base,.user,.snap].find? fun t => t.value = s
def decimal (n : ℤ) : Str := if n < 0 then '-' :: Nat.toDigits 10 n.natAbs else Nat.toDigits 10 n.natAbs

structure FileNames where
  img : Str
  vars : Str
  infos : Str

def stem (t : VMVersionType) : Option ℤ → Str
  | some n => t.value ++ '.' :: decimal n
  | none => t.value

def fileNames (t : VMVersionType) (number : Option ℤ) : FileNames :=
  ⟨stem t number ++ ".img",stem t number ++ ".vars",stem t number ++ ".infos"⟩

structure FileVersion where
  directory : Path
  files : FileNames

def FileVersion.img (v : FileVersion) : Path := v.directory ++ [v.files.img]
def FileVersion.vars (v : FileVersion) : Path := v.directory ++ [v.files.vars]
def FileVersion.infos (v : FileVersion) : Path := v.directory ++ [v.files.infos]

variable (U : Unicode)

def parseFilename (fname : Str) : Option (VMVersionType × Option ℤ × Str) :=
  match fname.splitOn '.' with
  | [t,number,ext] => do return (← VMVersionType.ofValue t,some (← int U number),ext)
  | parts => do return (← VMVersionType.ofValue (parts.headD []),none,parts.getLastD [])

def fromFiles (fs : Fs) (dir : List Str) : Option FileVersion := do
  let img ← realpath fs (dir ++ ["base.img".toList])
  let vars ← realpath fs (dir ++ ["base.vars".toList])
  let infos ← realpath fs (dir ++ ["base.infos".toList])
  if vars.dropLast ≠ img.dropLast ∨ infos.dropLast ≠ img.dropLast then none
  else
    let (t,number,ext) ← parseFilename U (img.getLastD [])
    let (vt,vnumber,vext) ← parseFilename U (vars.getLastD [])
    let (it,inumber,iext) ← parseFilename U (infos.getLastD [])
    if (t,number) ≠ (vt,vnumber) ∨ (t,number) ≠ (it,inumber) then none
    else if ext ≠ "img" ∨ vext ≠ "vars" ∨ iext ≠ "infos" then none
    else return ⟨img.dropLast,fileNames t number⟩

def versionName : Str := "vm-version-"

def importName (fs : Fs) (path : List Str) (found : Dict ℤ FileVersion) (fname : Str) : Option (Dict ℤ FileVersion) :=
  if versionName.isPrefixOf fname then do
    let vid ← int U (fname.drop versionName.length)
    if vid < 0 then none else return found.set vid (← fromFiles U fs (path ++ [fname]))
  else some found

def versionsToImport (fs : Fs) (path : List Str) : Option (Dict ℤ FileVersion) := do
  (← listdir fs path).foldlM (importName U fs path) .empty

inductive Touch where
  | remove (p : Path)
  | removeTree (p : Path)
  | move (src dst : Path)
  | chown (p : Path)
  | rewrite (p : Path)
deriving DecidableEq, Repr

/-- The answers about one version: whether one with its image exists, the next number, the files
left there, and how far each operation went. -/
structure Turn where
  matching : Option Bool
  number : ℤ
  leftovers : List Str
  rebased : Option Bool
  moved : ℕ
  owned : ℕ
  analysed : Bool

/-- The answers about the request: whether it is accepted, its dependency, and its first version. -/
structure Answers where
  accepted : Bool
  manifest : Option (Bool × Bool)
  firstComplete : Bool
  turn : ℤ → Turn

section
variable (fs : Fs) (vmDir : Path)

def target (number : ℤ) : FileVersion := ⟨vmDir,fileNames .base (some number)⟩
def follow (dir : Path) (name : Str) : Option Path := (walk fs false maxLinks dir [name]).map Prod.snd

def landing (src : Path) (name : Str) : Option Path :=
  match node fs src with
  | some (.link t) => (walk fs false maxLinks (linkStart vmDir t) (names t)).map Prod.snd
  | _ => some (vmDir ++ [name])

section
variable (v : FileVersion) (t : Turn)

def moveOps : List Touch :=
  let dst := target vmDir t.number
  t.leftovers.map (fun name => .remove (vmDir ++ [name])) ++
    [.move v.img dst.img,.move v.vars dst.vars,.move v.infos dst.infos] ++
    (landing fs vmDir v.infos dst.files.infos).toList.map .rewrite

def rollback : List Touch :=
  let dst := target vmDir t.number
  match t.moved - t.leftovers.length with
  | 0 => []
  | 1 => [.move dst.vars v.vars]
  | _ => [.move dst.infos v.infos,.move dst.infos v.infos]

def chowns : List Touch :=
  let dst := target vmDir t.number
  [landing fs vmDir v.img dst.files.img,landing fs vmDir v.vars dst.files.vars,
    landing fs vmDir v.infos dst.files.infos].flatMap fun p =>
    p.toList.map .chown

def rebase : List Touch := (follow fs v.directory v.files.img).toList.map .rewrite

def importVersion : List Touch × Bool :=
  if t.moved < (moveOps fs vmDir v t).length then ((moveOps fs vmDir v t).take t.moved ++ rollback vmDir v t,false)
  else if t.owned < (chowns fs vmDir v t).length then (moveOps fs vmDir v t ++ (chowns fs vmDir v t).take t.owned,false)
  else (moveOps fs vmDir v t ++ chowns fs vmDir v t,t.analysed)

end

/-- `dep`: a version that the next one depends on is known. It is only unknown for the first one. -/
def importVersions (turn : ℤ → Turn) : Bool → List (ℤ × FileVersion) → List Touch
  | _, [] => []
  | dep, (vid,v) :: rest =>
    match (turn vid).matching with
    | none => []
    | some true => importVersions turn true rest
    | some false =>
      let r := importVersion fs vmDir v (turn vid)
      if dep then
        match (turn vid).rebased with
        | none => []
        | some false => rebase fs v
        | some true => rebase fs v ++ r.1 ++ if r.2 then importVersions turn true rest else []
      else r.1 ++ if r.2 then importVersions turn true rest else []

def loadVersions (answers : Answers) (path : List Str) : List Touch :=
  match versionsToImport U fs path, answers.manifest with
  | some found, some (expected,known) =>
    let versions := found.entries.mergeSort fun a b => b.1 ≤ a.1
    if expected && !known || !expected && (versions.isEmpty || !answers.firstComplete) then []
    else importVersions fs vmDir answers.turn known versions
  | _, _ => []

end

def stagingDirectory (vmDir : Path) (uid : Uid) : Path := vmDir ++ ["staging".toList,Nat.toDigits 10 uid]

def vmLoad (fs : Fs) (vmDir : Path) (uid : Uid) (answers : Answers) (extractId : Str) : List Touch :=
  let path := join (stagingDirectory vmDir uid) extractId
  if answers.accepted then loadVersions U fs vmDir answers path ++ (rmtree fs path).toList.map .removeTree else []

def Beneath (dir p : Path) : Prop := dir <+: p
def StrictlyBeneath (dir p : Path) : Prop := dir <+: p ∧ p ≠ dir

/-- What is touched is beneath the directory of the machine, and what is removed beneath the user's. -/
def Touch.Confined (vmDir staging : Path) : Touch → Prop
  | .remove p => StrictlyBeneath staging p
  | .removeTree p => StrictlyBeneath staging p
  | .move src dst => Beneath vmDir src ∧ Beneath vmDir dst
  | .chown p => Beneath vmDir p
  | .rewrite p => Beneath vmDir p

def Confined (fs : Fs) (vmDir : Path) (uid : Uid) (answers : Answers) (extractId : Str) : Prop :=
  ∀ t ∈ vmLoad U fs vmDir uid answers extractId, t.Confined vmDir (stagingDirectory vmDir uid)

def baseFiles : List Str := ["base.img","base.vars","base.infos"]

/-- Neither a version directory of the extracted directory nor a file that is looked for in it is a link. -/
def Linkless (fs : Fs) (dir : Path) : Prop :=
  ∀ fname, versionName <+: fname → (∀ t, node fs (dir ++ [fname]) ≠ some (.link t)) ∧
    ∀ name ∈ baseFiles, ∀ t, node fs (dir ++ [fname] ++ [name]) ≠ some (.link t)

/-- The extracted directory is beneath the staging directory without links, and new versions have no files. -/
structure Safe (fs : Fs) (vmDir : Path) (uid : Uid) (answers : Answers) (extractId : Str) : Prop where
  links : ∀ p, stat fs (join (stagingDirectory vmDir uid) extractId) = some (p,.dir) → Linkless fs p
  inside : ∀ p, stat fs (join (stagingDirectory vmDir uid) extractId) = some (p,.dir) →
    StrictlyBeneath (stagingDirectory vmDir uid) p
  fresh : ∀ found, versionsToImport U fs (join (stagingDirectory vmDir uid) extractId) = some found →
    ∀ e ∈ found.entries, (answers.turn e.1).matching = some false → (answers.turn e.1).leftovers = []

theorem Beneath.append {dir p : Path} (h : Beneath dir p) (l : Path) : Beneath dir (p ++ l) :=
  h.trans (prefix_append p l)
theorem beneath_vmDir {vmDir p : Path} {uid : Uid} (h : Beneath (stagingDirectory vmDir uid) p) : Beneath vmDir p :=
  (prefix_append vmDir _).trans h

section
variable {U} {fs : Fs} {vmDir staging p : Path} {path : List Str} {fname : Str} {v : FileVersion}

theorem realpath_of_stat (hs : stat fs path = some (p,.dir)) (hf : IsPlain fname)
    (hl : ∀ t, node fs (p ++ [fname]) ≠ some (.link t)) {name : Str} (hname : IsPlain name)
    (hl' : ∀ t, node fs (p ++ [fname] ++ [name]) ≠ some (.link t)) :
    realpath fs (path ++ [fname] ++ [name]) = some (p ++ [fname] ++ [name]) := by
  obtain ⟨⟨m,q⟩,hw,hs⟩ := Option.bind_eq_some_iff.1 hs
  obtain ⟨nd,hnode,hs⟩ := Option.bind_eq_some_iff.1 hs
  cases hs
  rw [realpath,append_assoc,walk_append,walk_of_strict hw,Option.bind_some]
  rw [singleton_append,walk_plain hf hl,walk_plain hname hl',walk_nil]
  rfl

theorem fromFiles_eq_some (hlinks : Linkless fs p) (hs : stat fs path = some (p,.dir)) (hn : versionName <+: fname)
    (h : fromFiles U fs (path ++ [fname]) = some v) : v = ⟨p ++ [fname],fileNames .base none⟩ := by
  have hl : 11 ≤ fname.length := hn.length_le
  have hb : parseFilename U "base.img" = some (.base,none,"img".toList) := rfl
  unfold fromFiles at h
  obtain ⟨img,hi,h⟩ := Option.bind_eq_some_iff.1 h
  rw [realpath_of_stat hs (isPlain_of_length (by omega)) (hlinks fname hn).1 (isPlain_of_length (by decide))
    ((hlinks fname hn).2 _ (by decide))] at hi
  cases hi
  obtain ⟨vars,_,h⟩ := Option.bind_eq_some_iff.1 h
  obtain ⟨infos,_,h⟩ := Option.bind_eq_some_iff.1 h
  split_ifs at h
  obtain ⟨⟨t,number,ext⟩,ht,h⟩ := Option.bind_eq_some_iff.1 h
  obtain ⟨⟨vt,vnumber,vext⟩,_,h⟩ := Option.bind_eq_some_iff.1 h
  obtain ⟨⟨it,inumber,iext⟩,_,h⟩ := Option.bind_eq_some_iff.1 h
  rw [getLastD_concat] at ht
  cases hb.symm.trans ht
  dsimp only at h
  split_ifs at h
  cases h
  rw [dropLast_concat]

/-- The versions to import are beneath the staging directory, under the names that the service gives them. -/
structure Placed (fs : Fs) (staging : Path) (v : FileVersion) : Prop where
  beneath : Beneath staging v.directory
  files : v.files = fileNames .base none
  links : ∀ name ∈ baseFiles, ∀ t, node fs (v.directory ++ [name]) ≠ some (.link t)

theorem placed_of_importName (hlinks : Linkless fs p) (hp : Beneath staging p) (hs : stat fs path = some (p,.dir))
    {found found' : Dict ℤ FileVersion} (hf : ∀ vid v, found.get vid = some v → Placed fs staging v)
    (h : importName U fs path found fname = some found') : ∀ vid v, found'.get vid = some v → Placed fs staging v := by
  unfold importName at h
  split_ifs at h with hname
  · obtain ⟨vid,_,h⟩ := Option.bind_eq_some_iff.1 h
    split_ifs at h
    obtain ⟨v,hv,h⟩ := Option.bind_eq_some_iff.1 h
    cases h
    have hn := isPrefixOf_iff_prefix.1 hname
    intro vid' v' hg
    rw [Dict.get_set] at hg
    split_ifs at hg
    · cases hg
      rw [fromFiles_eq_some hlinks hs hn hv]
      exact ⟨hp.append _,rfl,(hlinks fname hn).2⟩
    · exact hf vid' v' hg
  · cases h
    exact hf

theorem placed_of_versionsToImport (hlinks : ∀ p, stat fs path = some (p,.dir) → Linkless fs p)
    (hi : ∀ p, stat fs path = some (p,.dir) → StrictlyBeneath staging p) {found : Dict ℤ FileVersion}
    (h : versionsToImport U fs path = some found) : ∀ vid v, found.get vid = some v → Placed fs staging v := by
  obtain ⟨l,hl,h⟩ := Option.bind_eq_some_iff.1 h
  unfold listdir at hl
  split at hl
  · rename_i p hst
    have hp := (hi p hst).1
    clear hl
    have hs : ∀ vid v, (Dict.empty : Dict ℤ FileVersion).get vid = some v → Placed fs staging v := nofun
    revert hs h
    generalize (Dict.empty : Dict ℤ FileVersion) = start
    intro h hs
    induction l generalizing start with
    | nil =>
      cases h
      exact hs
    | cons fname l ih =>
      rw [foldlM_cons] at h
      obtain ⟨next,hn,h⟩ := Option.bind_eq_some_iff.1 h
      exact ih next h (placed_of_importName (hlinks p hst) hp hst hs hn)
  · cases hl

end

section
variable {fs : Fs} {vmDir : Path} {uid : Uid} {v : FileVersion} {t : Turn}
  (hv : Placed fs (stagingDirectory vmDir uid) v)
include hv

theorem landing_eq {name : Str} (hn : name ∈ baseFiles) (name' : Str) :
    landing fs vmDir (v.directory ++ [name]) name' = some (vmDir ++ [name']) := by
  unfold landing
  split
  · exact absurd ‹_› (hv.links name hn _)
  · rfl

theorem img_mem : v.files.img ∈ baseFiles := by
  rw [hv.files]
  decide

theorem vars_mem : v.files.vars ∈ baseFiles := by
  rw [hv.files]
  decide

theorem infos_mem : v.files.infos ∈ baseFiles := by
  rw [hv.files]
  decide

theorem move_confined (name name' : Str) :
    (Touch.move (v.directory ++ [name]) (vmDir ++ [name'])).Confined vmDir (stagingDirectory vmDir uid) :=
  ⟨beneath_vmDir (hv.beneath.append _),prefix_append _ _⟩

theorem moveOps_confined (hf : t.leftovers = []) :
    ∀ x ∈ moveOps fs vmDir v t, x.Confined vmDir (stagingDirectory vmDir uid) := by
  intro x hx
  rw [moveOps,hf,FileVersion.infos,landing_eq hv (infos_mem hv)] at hx
  simp only [map_nil,nil_append,Option.toList_some,map_cons,mem_append,mem_cons,not_mem_nil,or_false] at hx
  rcases hx with (rfl | rfl | rfl) | rfl
  · exact move_confined hv _ _
  · exact move_confined hv _ _
  · exact move_confined hv _ _
  · exact prefix_append _ _

theorem rollback_confined : ∀ x ∈ rollback vmDir v t, x.Confined vmDir (stagingDirectory vmDir uid) := by
  have hb (name name' : Str) : (Touch.move (vmDir ++ [name]) (v.directory ++ [name'])).Confined vmDir
    (stagingDirectory vmDir uid) :=
    (move_confined hv name' name).symm
  intro x hx
  unfold rollback at hx
  split at hx
  · cases hx
  · rw [mem_singleton.1 hx]
    exact hb _ _
  · simp only [mem_cons,not_mem_nil,or_false,or_self] at hx
    rw [hx]
    exact hb _ _

theorem chowns_confined : ∀ x ∈ chowns fs vmDir v t, x.Confined vmDir (stagingDirectory vmDir uid) := by
  intro x hx
  rw [chowns,FileVersion.img,FileVersion.vars,FileVersion.infos,landing_eq hv (img_mem hv),landing_eq hv (vars_mem hv),
    landing_eq hv (infos_mem hv)] at hx
  obtain ⟨p,hp,hx⟩ := mem_flatMap.1 hx
  simp only [mem_cons,not_mem_nil,or_false] at hp
  rcases hp with rfl | rfl | rfl
  all_goals
    rw [mem_singleton.1 hx]
    exact prefix_append _ _

theorem rebase_confined : ∀ x ∈ rebase fs v, x.Confined vmDir (stagingDirectory vmDir uid) := by
  have hpl : IsPlain v.files.img := by
    rw [hv.files]
    exact isPlain_of_length (by decide)
  intro x hx
  rw [rebase,follow,walk_plain hpl (hv.links _ (img_mem hv)),walk_nil] at hx
  rw [mem_singleton.1 hx]
  exact beneath_vmDir (hv.beneath.append _)

theorem importVersion_confined (hf : t.leftovers = []) :
    ∀ x ∈ (importVersion fs vmDir v t).1, x.Confined vmDir (stagingDirectory vmDir uid) := by
  have hops := moveOps_confined (t := t) hv hf
  have hc := chowns_confined (t := t) hv
  intro x hx
  unfold importVersion at hx
  split_ifs at hx
  · rcases mem_append.1 hx with hx | hx
    · exact hops x (mem_of_mem_take hx)
    · exact rollback_confined hv x hx
  · rcases mem_append.1 hx with hx | hx
    · exact hops x hx
    · exact hc x (mem_of_mem_take hx)
  · rcases mem_append.1 hx with hx | hx
    · exact hops x hx
    · exact hc x hx

end

section
variable {U} {fs : Fs} {vmDir : Path} {uid : Uid} {answers : Answers} {extractId : Str}

/-- Without files left of the new versions, every import is confined. -/
theorem importVersions_confined {turn : ℤ → Turn} {l : List (ℤ × FileVersion)}
    (hf : ∀ e ∈ l, (turn e.1).matching = some false → (turn e.1).leftovers = [])
    (hl : ∀ e ∈ l, Placed fs (stagingDirectory vmDir uid) e.2) (dep : Bool) :
    ∀ x ∈ importVersions fs vmDir turn dep l, x.Confined vmDir (stagingDirectory vmDir uid) := by
  induction l generalizing dep with
  | nil => nofun
  | cons e l ih =>
    obtain ⟨vid,v⟩ := e
    obtain ⟨hv,hl⟩ := forall_mem_cons.1 hl
    obtain ⟨hfv,hf⟩ := forall_mem_cons.1 hf
    have hrest : ∀ x ∈ if (importVersion fs vmDir v (turn vid)).2 then importVersions fs vmDir turn true l else [],
        x.Confined vmDir (stagingDirectory vmDir uid) := by
      split
      · exact ih hf hl true
      · nofun
    intro x hx
    rw [importVersions] at hx
    split at hx
    · cases hx
    · exact ih hf hl true x hx
    · rename_i hm
      have ho := importVersion_confined hv (hfv hm)
      dsimp only at hx
      split at hx
      · split at hx
        · cases hx
        · exact rebase_confined hv x hx
        · simp only [mem_append] at hx
          rcases hx with (hx | hx) | hx
          · exact rebase_confined hv x hx
          · exact ho x hx
          · exact hrest x hx
      · rcases mem_append.1 hx with hx | hx
        · exact ho x hx
        · exact hrest x hx

theorem Safe.confined (h : Safe U fs vmDir uid answers extractId) : Confined U fs vmDir uid answers extractId := by
  intro x hx
  unfold vmLoad at hx
  dsimp only at hx
  split_ifs at hx
  · rcases mem_append.1 hx with hx | hx
    · unfold loadVersions at hx
      split at hx
      · rename_i found expected known hf hm
        dsimp only at hx
        split_ifs at hx
        · cases hx
        · refine importVersions_confined (fun e he => h.fresh found hf e (mem_mergeSort.1 he)) (fun e he => ?_) _ x hx
          have hg := Dict.mem_entries_iff.1 (mem_mergeSort.1 he)
          exact placed_of_versionsToImport h.links h.inside hf e.1 e.2 hg
      · cases hx
    · obtain ⟨p,hp,rfl⟩ := mem_map.1 hx
      unfold rmtree at hp
      split at hp
      · rename_i q hl
        cases mem_singleton.1 hp
        exact h.inside p (stat_of_lstat hl)
      · cases hp
  · cases hx

/-- What the extracted directory is has to be beneath the staging directory, as it is removed. -/
theorem Confined.inside (h : Confined U fs vmDir uid answers extractId) (ha : answers.accepted = true)
    (hl : ∀ q t, lstat fs (join (stagingDirectory vmDir uid) extractId) ≠ some (q,.link t)) {p : Path}
    (hp : stat fs (join (stagingDirectory vmDir uid) extractId) = some (p,.dir)) :
    StrictlyBeneath (stagingDirectory vmDir uid) p := by
  refine h (.removeTree p) ?_
  unfold vmLoad
  rw [if_pos ha]
  refine mem_append_right _ ?_
  rw [rmtree,lstat_of_stat hp hl]
  exact mem_singleton_self _

end

/-- A request is confined if the extracted directory is in the staging directory without links to
resolve, and no file is left of the new versions. The first condition is necessary, unless the
path ends with a link. -/
theorem vmLoad_confined (U : Unicode) (fs : Fs) (vmDir : Path) (uid : Uid) (answers : Answers) (extractId : Str) :
    (Safe U fs vmDir uid answers extractId → Confined U fs vmDir uid answers extractId) ∧
      (answers.accepted = true → (∀ q t, lstat fs (join (stagingDirectory vmDir uid) extractId) ≠ some (q,.link t)) →
        Confined U fs vmDir uid answers extractId →
          ∀ p, stat fs (join (stagingDirectory vmDir uid) extractId) = some (p,.dir) →
            StrictlyBeneath (stagingDirectory vmDir uid) p) :=
  ⟨Safe.confined,fun haccepted hlink h _ hp => h.inside haccepted hlink hp⟩

def vmDirectory : Path := ["vm"]

def extracted : Fs where
  nodes := ⟨[(["etc"],.dir),(["etc","passwd"],.file),
    (["vm"],.dir),(["vm","staging"],.dir),
    (["vm","staging","1000"],.dir),
    (["vm","staging","1000","x"],.dir),
    (["vm","staging","1000","x","vm-version-0"],.dir),
    (["vm","staging","1000","x","vm-version-0","base.img"],.file),
    (["vm","staging","1000","x","vm-version-0","base.vars"],.file),
    (["vm","staging","1000","x","vm-version-0","base.infos"],.file)],by decide⟩
  closed := by decide

def imported : Answers := ⟨true,some (false,false),true,fun _ => ⟨some false,0,[],none,4,3,true⟩⟩

theorem node_extracted_ne_link (p : Path) (t : Str) : node extracted p ≠ some (.link t) := by
  intro h
  have ha : ∀ e ∈ extracted.nodes.entries, e.2 = .dir ∨ e.2 = .file := by decide
  unfold node at h
  split_ifs at h
  · cases h
  · rcases ha _ (Dict.mem_of_get h) with hdir | hf
    · cases hdir
    · cases hf

theorem safe_extracted : Safe .ascii extracted vmDirectory 1000 imported "x" where
  links p _ fname _ := ⟨fun _ => node_extracted_ne_link _ _,fun _ _ _ => node_extracted_ne_link _ _⟩
  inside p hp := by
    have hpath : join (stagingDirectory vmDirectory 1000) "x".toList = ["vm".toList,"staging".toList,
      "1000".toList,"x".toList] := by decide
    have hw : walk extracted true maxLinks [] ["vm","staging","1000","x"] =
        some (maxLinks,["vm".toList,"staging".toList,"1000".toList,"x".toList]) := by
      rw [walk_dir (by decide) rfl, walk_dir (by decide) rfl, walk_dir (by decide) rfl,
        walk_dir (by decide) rfl, walk_nil]
      rfl
    rw [hpath,stat,hw] at hp
    cases hp
    exact ⟨by decide,by decide⟩
  fresh _ _ _ _ _ := rfl

theorem extracted_confined : Safe .ascii extracted vmDirectory 1000 imported "x" ∧
    Confined .ascii extracted vmDirectory 1000 imported "x" :=
  ⟨safe_extracted,(vmLoad_confined .ascii extracted vmDirectory 1000 imported "x").1 safe_extracted⟩

/-- The extracted directory is given by an absolute path, where there is no manifest. -/
theorem etc_removed :
    ¬ Confined .ascii extracted vmDirectory 1000 { imported with manifest := none } "/etc".toList := by
  intro h
  have hpath : join (stagingDirectory vmDirectory 1000) "/etc".toList = [[],"etc".toList] := by decide
  have hl : lstat extracted [[],"etc".toList] = some (["etc".toList],.dir) := by
    have hw : walk extracted true maxLinks [] [[]] = some (maxLinks,[]) := by
      rw [walk_skip (Or.inl rfl),walk_nil]
    change (walk extracted true maxLinks [] [[]]).bind _ = _
    rw [hw]
    rfl
  have hmem : Touch.removeTree ["etc".toList] ∈ vmLoad .ascii extracted vmDirectory 1000
      { imported with manifest := none } "/etc".toList := by
    unfold vmLoad
    refine mem_append_right _ ?_
    rw [hpath,rmtree,hl]
    exact mem_singleton_self _
  exact absurd (h _ hmem).1 (by decide)

end Padsi.Vm
