import Padsi.Lib.FileTree

/-! # The file requests of the VM agent

The agent checks the path that is asked for as a text, and the system resolves it. A
name that goes up passes the check.
-/
namespace Padsi.Agent
open Python Text FileTree List Option

def components (path : Str) : List Str := steps (names path)
def startsWith (path base : Str) : Bool := (components base).isPrefixOf (components path)

def push (buf path : Str) : Str :=
  if isAbsolute path then path
  else if buf = [] ∨ buf.getLast? = some '/' then buf ++ path
  else buf ++ '/' :: path

def fileName (path : Str) : Option Str := (components path).getLast?.filter (· ≠ ['.','.'])
def nul : Char := Char.ofNat 0

/-- The path that a request is about; none if the access is not allowed. -/
def accessPath (home name : Str) : Option Str :=
  if isAbsolute name then
    if startsWith name home then some name else none
  else some (push home name)

inductive Refusal where
  | badRequest
  | forbidden
  | internalServerError
deriving DecidableEq, Repr

section
variable (decode : Str → Option Str)

def getFile (fs : Fs) (home filename : Str) : Except Refusal Path :=
  match decode filename with
  | none => .error .badRequest
  | some name =>
    match accessPath home name with
    | none => .error .forbidden
    | some path =>
      -- `NamedFile::open`, which wants a file name once the file is open
      if nul ∈ path then .error .forbidden
      else
        match stat fs (names path), fileName path with
        | some (p,_), some _ => .ok p
        | _, _ => .error .forbidden

end

inductive Mkdir where
  | created (p : Path)
  | alreadyExists
  | notFound
deriving DecidableEq, Repr

def mkdir (fs : Fs) (parent : List Str) (name : Str) : Mkdir :=
  match stat fs parent with
  | some (p,.dir) => if name = ['.','.'] ∨ node fs (p ++ [name]) ≠ none then .alreadyExists else .created (p ++ [name])
  | _ => .notFound

def isDir (fs : Fs) (path : List Str) : Bool :=
  match stat fs path with
  | some (_,.dir) => true
  | _ => false

structure Made where
  fs : Fs
  places : List Path
  ok : Bool

def Made.mkdir (made : Made) (parent : List Str) (name : Str) : Made :=
  if made.ok then
    match Agent.mkdir made.fs parent name with
    | .created p => ⟨add made.fs p .dir,made.places ++ [p],true⟩
    | _ => ⟨made.fs,made.places,isDir made.fs (parent ++ [name])⟩
  else made

def createDirAll (fs : Fs) : List Str → Made
  | [] => ⟨fs,[],true⟩
  | name :: up =>
    if mkdir fs up.reverse name = .notFound then (createDirAll fs up).mkdir up.reverse name
    else (⟨fs,[],true⟩ : Made).mkdir up.reverse name

def openWrite (fs : Fs) : ℕ → ℕ → Path → List Str → Option Path
  | 0, _, _, _ => none
  | hops + 1, n, cwd, path => do
    let name ← path.getLast?
    if IsPlain name then
      let (n,p) ← walk fs true n cwd path.dropLast
      match node fs (p ++ [name]) with
      | some .dir => none
      | some .file => some (p ++ [name])
      | some (.link target) =>
        match n with
        | 0 => none
        | n + 1 => openWrite fs hops n (linkStart p target) (names target)
      | none => if node fs p = some .dir then some (p ++ [name]) else none
    else none

def store (fs : Fs) (path : Str) : List Path × Except Refusal Unit :=
  if nul ∈ path then ([],.error .internalServerError)
  else
    match openWrite fs (maxLinks + 1) maxLinks [] (names path) with
    | none => ([],.error .internalServerError)
    | some p =>
      match stat (add fs p .file) (names path) with
      | some (q,_) => ([p,q],.ok ())
      | none => ([p],.error .internalServerError)

def postFile (fs : Fs) (home : Str) : Option Str → List Path × Except Refusal Unit
  | none => store fs home
  | some name =>
    match accessPath home name with
    | none => ([],.error .forbidden)
    | some path =>
      if components path = [] then ([],.error .badRequest)
      else if nul ∈ (components path).dropLast.flatten then ([],.error .forbidden)
      else
        let made := createDirAll fs (components path).dropLast.reverse
        if made.ok then
          let (places,answer) := store made.fs path
          (made.places ++ places,answer)
        else (made.places,.error .forbidden)

inductive Request where
  | get (filename : Str)
  | post (name : Option Str)

def touched (decode : Str → Option Str) (fs : Fs) (home : Str) : Request → List Path
  | .get filename => (getFile decode fs home filename).toOption.toList
  | .post name => (postFile fs home name).1

/-- The home directory of a user: an absolute path without names that go up. -/
structure Home where
  path : Str
  absolute : isAbsolute path = true
  direct : ['.','.'] ∉ components path

def HomeAt (fs : Fs) (home : Str) (dir : Path) : Prop :=
  ∃ n, walk fs true maxLinks [] (names home) = some (n,dir) ∧ node fs dir = some .dir
def NoLinks (fs : Fs) (dir : Path) : Prop := ∀ p t, dir <+: p → node fs p ≠ some (.link t)

/-- Wherever the home directory is, the request stays in it. -/
def Confined (decode : Str → Option Str) (home : Home) (request : Request) : Prop :=
  ∀ fs dir, HomeAt fs home.path dir → NoLinks fs dir → ∀ p ∈ touched decode fs home.path request, dir <+: p

def rest (home path : Str) : List Str := (components path).drop (components home).length

def Quiet (l : List Str) : Prop := ∀ r name, r ++ [name] <+: l → name ≠ ['.','.'] → stays 0 r = true

def isWritable (path : Str) : Prop := nul ∉ path ∧ ∀ name ∈ (names path).getLast?, IsPlain name
instance (path : Str) : Decidable (isWritable path) := inferInstanceAs (Decidable (_ ∧ _))

def creatable (home path : Str) : List Str :=
  if nul ∈ (components path).dropLast.flatten then []
  else if isWritable path then rest home path
  else (rest home path).dropLast

/-- The names of the request do not lead above the home directory. -/
def Safe (decode : Str → Option Str) (home : Str) : Request → Prop
  | .get filename => ∀ name path, decode filename = some name → accessPath home name = some path → nul ∉ path →
      fileName path ≠ none → stays 0 (rest home path) = true
  | .post none => True
  | .post (some name) => ∀ path, accessPath home name = some path → Quiet (creatable home path)

variable {name path : Str} {p : Path} {parent : List Str}

variable {home : Str} {fs : Fs} {dir : Path} {l : List Str} {decode : Str → Option Str}

theorem components_push (hname : isAbsolute name = false) :
    components (push home name) = components home ++ components name := by
  rw [push, if_neg (by simp [hname])]
  split_ifs with he
  · rcases he with rfl | he
    · rfl
    · -- the separator ends the home directory
      obtain ⟨base,rfl⟩ : ∃ base, home = base ++ ['/'] := ⟨home.dropLast,(dropLast_append_getLast? _ he).symm⟩
      rw [append_assoc,components,components,components,names,names,names,singleton_append,splitOn_append_cons_self,
        splitOn_append_cons_self,steps_append,steps_append]
      simp [steps]
  · rw [components,names,splitOn_append_cons_self,steps_append]
    rfl

theorem components_of_accessPath (h : accessPath home name = some path) :
    components path = components home ++ rest home path := by
  have hbelow : components home <+: components path := by
    unfold accessPath at h
    split_ifs at h with ha hs
    · cases h
      exact isPrefixOf_iff_prefix.1 hs
    · cases h
      rw [components_push (by simpa using ha)]
      exact prefix_append _ _
  exact (prefix_iff_eq_append.1 hbelow).symm

theorem mem_components_of_rest (h : name ∈ rest home path) : name ∈ components path := mem_of_mem_drop h
theorem ne_of_mem_components (h : name ∈ components path) : name ≠ [] ∧ name ≠ ['.'] := ne_of_mem_steps h
theorem steps_components (path : Str) : steps (components path) = components path :=
  steps_of_forall fun _ => ne_of_mem_components

section
variable {fs : Fs} {home : Str} {dir : Path}

theorem HomeAt.walk_components (h : HomeAt fs home dir) :
    ∃ n, walk fs true maxLinks [] (components home) = some (n,dir) ∧ node fs dir = some .dir := by
  obtain ⟨n,hw,hdir⟩ := h
  exact ⟨n,walk_skims hw (skims_steps _),hdir⟩

theorem HomeAt.grows {fs' : Fs} (h : HomeAt fs home dir) (hg : Grows fs fs') : HomeAt fs' home dir := by
  obtain ⟨n,hw,hdir⟩ := h
  exact ⟨n,hg.walk hw,hg _ _ hdir⟩

theorem NoLinks.add (h : NoLinks fs dir) {nd : Node} (hnd : ∀ t, nd ≠ .link t) (p : Path) :
    NoLinks (FileTree.add fs p nd) dir := by
  intro q t hq
  by_cases hf : IsFree fs p
  · rw [node_add hf]
    split_ifs
    · exact fun heq => hnd t (some_inj.1 heq)
    · exact h q t hq
  · have hs : FileTree.add fs p nd = fs := dif_neg hf
    rw [hs]
    exact h q t hq

theorem HomeAt.below (h : HomeAt fs home dir) (hl : NoLinks fs dir) {path r : List Str}
    (hpath : steps path = components home ++ r)
    (hr : stays 0 r = true) {n : ℕ} {p : Path} (hw : walk fs true maxLinks [] path = some (n,p)) : dir <+: p := by
  obtain ⟨m,hh,hdir⟩ := h.walk_components
  have hs := walk_skims hw (skims_steps path)
  rw [hpath,walk_append_dir hh hdir] at hs
  have hst : steps r = r := by
    refine steps_of_forall fun name hname => ne_of_mem_steps (l := path) ?_
    rw [hpath]
    exact mem_append_right _ hname
  have hbelow := walk_stays (e := []) hl (by rwa [hst]) (by rwa [append_nil])
  exact hbelow.2

end

structure Made.Within (made : Made) (home : Str) (dir : Path) : Prop where
  home : HomeAt made.fs home dir
  links : NoLinks made.fs dir
  places : ∀ p ∈ made.places, dir <+: p

theorem stat_eq_some {path : List Str} {nd : Node} :
    stat fs path = some (p,nd) ↔ (∃ n, walk fs true maxLinks [] path = some (n,p)) ∧ node fs p = some nd := by
  unfold stat
  constructor
  · intro h
    obtain ⟨⟨n,q⟩,hw,h⟩ := bind_eq_some_iff.1 h
    obtain ⟨nd',hnode,h⟩ := bind_eq_some_iff.1 h
    cases h
    exact ⟨⟨n,hw⟩,hnode⟩
  · rintro ⟨⟨n,hw⟩,hnode⟩
    rw [hw]
    simp [hnode]

theorem mkdir_eq_created {q : Path} (h : mkdir fs parent name = .created q) :
    ∃ p, stat fs parent = some (p,.dir) ∧ name ≠ ['.','.'] ∧ node fs (p ++ [name]) = none ∧ q = p ++ [name] := by
  unfold mkdir at h
  split at h
  · rename_i p hs
    split_ifs at h with ht
    cases h
    rw [not_or,not_not] at ht
    exact ⟨p,hs,ht.1,ht.2,rfl⟩
  · cases h

theorem Made.Within.mkdir {made : Made} (h : made.Within home dir)
    (hp : name ≠ ['.','.'] → ∀ n p, walk made.fs true maxLinks [] parent = some (n,p) → dir <+: p) :
    (made.mkdir parent name).Within home dir := by
  unfold Made.mkdir
  split_ifs
  · split
    · rename_i p hm
      obtain ⟨q,hs,hname,hnone,rfl⟩ := mkdir_eq_created hm
      obtain ⟨⟨n,hw⟩,-⟩ := stat_eq_some.1 hs
      refine ⟨h.home.grows (grows_add _ _ _),h.links.add (by simp) _,?_⟩
      intro p' hp'
      rcases mem_append.1 hp' with hp' | hp'
      · exact h.places p' hp'
      · rw [mem_singleton.1 hp']
        exact (hp hname n q hw).trans (prefix_append _ _)
    · exact ⟨h.home,h.links,h.places⟩
  · exact h

theorem mkdir_of_walk (hname : name ≠ [] ∧ name ≠ ['.']) {r : ℕ × Path}
    (h : walk fs true maxLinks [] (parent ++ [name]) = some r) : mkdir fs parent name = .alreadyExists := by
  obtain ⟨n,p,hw,hl,hdir⟩ := exists_walk_of_append rfl h
  have hs : stat fs parent = some (p,.dir) := stat_eq_some.2 ⟨⟨n,hw⟩,hdir (by simp)⟩
  simp only [mkdir,hs]
  apply if_pos
  rw [or_iff_not_imp_left]
  intro hup hnone
  rw [walk,if_neg (not_or.2 hname),if_neg hup,hnone] at hl
  simp at hl

theorem createDirAll_of_walk (hl : ∀ name ∈ l, name ≠ [] ∧ name ≠ ['.']) {n : ℕ}
    (h : walk fs true maxLinks [] l = some (n,p)) (hp : node fs p = some .dir) :
    createDirAll fs l.reverse = ⟨fs,[],true⟩ := by
  rcases eq_nil_or_concat l with rfl | ⟨parent,name,rfl⟩
  · rfl
  · rw [concat_eq_append] at hl h ⊢
    have ht := mkdir_of_walk (hl name (by simp)) h
    have hs := stat_eq_some.2 ⟨⟨n,h⟩,hp⟩
    rw [reverse_append, reverse_singleton, singleton_append, createDirAll, reverse_reverse, if_neg (by simp [ht])]
    simp [Made.mkdir,ht,isDir,hs]

/-- By induction on the names after the home directory: each directory is created below it. -/
theorem createDirAll_within (hh : HomeAt fs home dir) (hl : NoLinks fs dir) {r : List Str}
    (hr : ∀ name ∈ r, name ≠ [] ∧ name ≠ ['.']) (hq : Quiet r) :
    (createDirAll fs (components home ++ r).reverse).Within home dir := by
  induction r using reverseRecOn with
  | nil =>
    obtain ⟨n,hw,hdir⟩ := hh.walk_components
    rw [append_nil, createDirAll_of_walk (fun _ => ne_of_mem_components) hw hdir]
    exact ⟨hh,hl,by simp⟩
  | append_singleton r name ih =>
    have hb : ∀ x ∈ r, x ≠ [] ∧ x ≠ ['.'] := fun x hx => hr x (mem_append_left _ hx)
    have hm := ih hb fun s x hs => hq s x (hs.trans (prefix_append _ _))
    have hp : ∀ {fs : Fs}, HomeAt fs home dir → NoLinks fs dir → name ≠ ['.','.'] → ∀ n p,
        walk fs true maxLinks [] (components home ++ r) = some (n,p) → dir <+: p := by
      intro fs hh hl hname n p
      refine hh.below hl ?_ (hq r name prefix_rfl hname)
      rw [steps_append,steps_components,steps_of_forall hb]
    rw [← append_assoc,reverse_append,reverse_singleton,singleton_append,createDirAll,reverse_reverse]
    split_ifs
    · exact hm.mkdir (hp hm.home hm.links)
    · exact Made.Within.mkdir ⟨hh,hl,by simp⟩ (hp hh hl)

theorem openWrite_of_dir (hops : ℕ) {n m : ℕ} {cwd : Path} {path : List Str} (h : walk fs true n cwd path = some (m,p))
    (hp : node fs p = some .dir) (hc : node fs cwd = some .dir) : openWrite fs hops n cwd path = none := by
  induction hops generalizing n cwd path with
  | zero => rfl
  | succ hops ih =>
    rw [openWrite]
    cases hl : path.getLast? with
    | none => rfl
    | some name =>
      by_cases hname : IsPlain name
      · have hpath : path.dropLast ++ [name] = path := dropLast_append_getLast? name hl
        rw [← hpath] at h
        obtain ⟨k,q,hw,he,hdir⟩ := exists_walk_of_append hc h
        have hq := hdir (by simp)
        simp only [bind_eq_bind,bind_some,if_pos hname,hw]
        cases hnode : node fs (q ++ [name]) with
        | none =>
          rw [walk,if_neg hname.not_skip,if_neg hname.2.2,hnode] at he
          simp at he
        | some nd =>
          cases nd with
          | dir => rfl
          | file =>
            have hf := walk_of_cons hname (by simp [hnode]) he
            rw [walk_nil] at hf
            cases hf
            cases hnode.symm.trans hp
          | link target =>
            cases k with
            | zero => rfl
            | succ k =>
              rw [walk_link hname hnode,append_nil] at he
              exact ih he (node_linkStart hq target)
      · simp [hname]

theorem components_of_getLast (h : (names path).getLast? = some name) (hname : IsPlain name) :
    components path = steps (names path).dropLast ++ [name] := by
  rw [components, ← dropLast_append_getLast? name h, steps_append, steps_cons_keep fun h => h.elim hname.1 hname.2.1,
    dropLast_concat]
  rfl

theorem openWrite_eq_some {hops n : ℕ} {cwd : Path} {path : List Str}
    (h : openWrite fs (hops + 1) n cwd path = some p) :
    ∃ name m q, path.getLast? = some name ∧ IsPlain name ∧ walk fs true n cwd path.dropLast = some (m,q) ∧
      ((∀ t, node fs (q ++ [name]) ≠ some (.link t)) → p = q ++ [name]) := by
  rw [openWrite] at h
  obtain ⟨name,hl,h⟩ := bind_eq_some_iff.1 h
  split_ifs at h with hname
  obtain ⟨⟨m,q⟩,hw,h⟩ := bind_eq_some_iff.1 h
  refine ⟨name,m,q,hl,hname,hw,fun hli => ?_⟩
  cases hnode : node fs (q ++ [name]) with
  | none =>
    simp only [hnode] at h
    split_ifs at h
    exact (some_inj.1 h).symm
  | some nd =>
    cases nd with
    | dir => simp [hnode] at h
    | file =>
      simp only [hnode] at h
      exact (some_inj.1 h).symm
    | link t => exact absurd hnode (hli t)

/-- Without links the file that is opened is below the home directory. -/
theorem store_within (hh : HomeAt fs home dir) (hli : NoLinks fs dir)
    (hpath : components path = components home ++ rest home path) (hq : isWritable path → Quiet (rest home path)) :
    ∀ p ∈ (store fs path).1, dir <+: p := by
  unfold store
  split_ifs with hn
  · simp
  · cases hopen : openWrite fs (maxLinks + 1) maxLinks [] (names path) with
    | none => simp
    | some p =>
      obtain ⟨name,m,q,hl,hname,hw,hpl⟩ := openWrite_eq_some hopen
      have hc := components_of_getLast hl hname
      rcases eq_nil_or_concat (rest home path) with hrest | ⟨r,last,hrest⟩
      · -- the home directory itself
        obtain ⟨n,hdir,hnode⟩ := hh.walk_components
        rw [hrest,append_nil] at hpath
        rw [← hpath] at hdir
        have hnone := openWrite_of_dir (maxLinks + 1) (walk_of_skims hdir hnode (skims_steps (names path))) hnode rfl
        cases hopen.symm.trans hnone
      · rw [concat_eq_append] at hrest
        rw [hrest,← append_assoc,hc] at hpath
        obtain ⟨hst,hln⟩ := append_inj' hpath rfl
        cases hln
        have hwr : isWritable path := ⟨hn,fun x hx => by cases hl.symm.trans hx; exact hname⟩
        have hr : stays 0 r = true := by
          refine hq hwr r name ?_ hname.2.2
          rw [hrest]
        have hbelow : dir <+: q := hh.below hli hst hr hw
        have hp := hpl fun t => hli _ t (hbelow.trans (prefix_append _ _))
        have hsta : stays 0 (r ++ [name]) = true := (stays_concat [] r name).2 ⟨hr,fun hup => absurd hup hname.2.2⟩
        have ho : ∀ x nd, stat (add fs p .file) (names path) = some (x,nd) → dir <+: x := by
          intro x nd hs
          obtain ⟨⟨k,hw'⟩,-⟩ := stat_eq_some.1 hs
          refine (hh.grows (grows_add _ _ _)).below (hli.add (by simp) _) ?_ hsta hw'
          rw [← append_assoc,← hst]
          exact hc
        subst hp
        have hf : dir <+: q ++ [name] := hbelow.trans (prefix_append _ _)
        cases hs : stat (add fs (q ++ [name]) .file) (names path) with
        | none =>
          simp only [hs]
          simpa using hf
        | some r =>
          simp only [hs]
          simpa using ⟨hf,ho r.1 r.2 hs⟩

theorem mem_touched_get {filename : Str} :
    p ∈ touched decode fs home (.get filename) ↔
      ∃ name path, decode filename = some name ∧ accessPath home name = some path ∧ nul ∉ path ∧
      (∃ nd, stat fs (names path) = some (p,nd)) ∧ fileName path ≠ none := by
  simp only [touched,getFile]
  cases hd : decode filename with
  | none => simp [Except.toOption]
  | some name =>
    cases ha : accessPath home name with
    | none => simp [ha,Except.toOption]
    | some path =>
      by_cases hn : nul ∈ path
      · simp [ha,hn,Except.toOption]
      · cases hs : stat fs (names path) with
        | none => simp [ha,hn,hs,Except.toOption]
        | some r =>
          cases hname : fileName path with
          | none => simp [ha,hn,hs,hname,Except.toOption]
          | some name' => simp [ha,hn,hs,hname,Except.toOption,Prod.ext_iff,eq_comm]

theorem get_within {filename : Str} (hh : HomeAt fs home dir)
    (hl : NoLinks fs dir) (hs : Safe decode home (.get filename)) :
    ∀ p ∈ touched decode fs home (.get filename), dir <+: p := by
  intro p hp
  obtain ⟨name,path,hd,ha,hn,⟨nd,hst⟩,hf⟩ := mem_touched_get.1 hp
  obtain ⟨⟨n,hw⟩,-⟩ := stat_eq_some.1 hst
  exact hh.below hl (components_of_accessPath ha) (hs name path hd ha hn hf) hw

theorem Quiet.dropLast (h : Quiet l) : Quiet l.dropLast := fun r name hr => h r name (hr.trans ( dropLast_prefix l))

theorem post_within (hh : HomeAt fs home dir) (hl : NoLinks fs dir)
    (ha : accessPath home name = some path) (hqu : Quiet (creatable home path)) :
    ∀ p ∈ (postFile fs home (some name)).1, dir <+: p := by
  have hpath := components_of_accessPath ha
  simp only [postFile,ha]
  split_ifs with hr hn hok
  · simp
  · simp
  all_goals
    have hd : Quiet (rest home path).dropLast := by
      rw [creatable,if_neg hn] at hqu
      split_ifs at hqu
      · exact hqu.dropLast
      · exact hqu
    have hm : (createDirAll fs (components path).dropLast.reverse).Within home dir := by
      by_cases hrest : rest home path = []
      · -- all of it is above the home directory
        obtain ⟨n,hw,hdir⟩ := hh.walk_components
        rw [hrest,append_nil] at hpath
        rw [hpath]
        rw [hpath] at hr
        rw [← dropLast_append_getLast hr] at hw
        obtain ⟨m,q,hpa,-,hq⟩ := exists_walk_of_append rfl hw
        rw [createDirAll_of_walk (fun x hx => ne_of_mem_components (mem_of_mem_dropLast hx)) hpa (hq (by simp))]
        exact ⟨hh,hl,by simp⟩
      · rw [hpath,dropLast_append_of_ne_nil hrest]
        exact createDirAll_within hh hl
          (fun x hx => ne_of_mem_components (mem_components_of_rest (mem_of_mem_dropLast hx))) hd
  · intro p hp
    rcases mem_append.1 hp with hp | hp
    · exact hm.places p hp
    · refine store_within hm.home hm.links hpath ?_ p hp
      intro hwr
      rwa [creatable, if_neg hn, if_pos hwr] at hqu
  · exact hm.places

theorem root_of_components (h : HomeAt fs home dir) (hr : components home = []) : dir = [] := by
  obtain ⟨n,hw,-⟩ := h.walk_components
  rw [hr,walk_nil] at hw
  cases hw
  rfl

theorem confined_of_safe {home : Home} {request : Request} (h : Safe decode home.path request) :
    Confined decode home request := by
  intro fs dir hh hl
  cases request with
  | get filename => exact get_within hh hl h
  | post name =>
    cases name with
    | none =>
      obtain ⟨n,hw,hdir⟩ := hh
      have hnone := openWrite_of_dir (maxLinks + 1) hw hdir rfl
      simp only [touched,postFile,store,hnone]
      split_ifs <;> simp
    | some name =>
      cases ha : accessPath home.path name with
      | none => simp [touched,postFile,ha]
      | some path => exact post_within hh hl ha (h path ha)

def fresh (l : List Str) : Str := replicate (l.flatten.length + 3) 'f'

theorem fresh_ne (h : name ∈ l) : name ≠ fresh l := by
  rintro rfl
  have hl := (sublist_flatten_of_mem h).length_le
  rw [fresh,length_replicate] at hl
  omega

theorem isPlain_fresh (l : List Str) : IsPlain (fresh l) := isPlain_of_length (by rw [fresh,length_replicate]; omega)
def repeated (f : Str) (depth : ℕ) : Str := (replicate depth ('/' :: f)).flatten

theorem names_repeated {f : Str} (hf : '/' ∉ f) (depth : ℕ) : names (repeated f depth) = [] :: replicate depth f := by
  induction depth with
  | zero => rfl
  | succ depth ih =>
    have hname : names f = [f] := splitOn_eq_singleton hf
    rw [repeated,replicate_succ',flatten_append,flatten_singleton,names,splitOn_append_cons_self]
    rw [repeated,names] at ih
    rw [names] at hname
    rw [ih,hname,replicate_succ',cons_append]

theorem isAbsolute_repeated (f : Str) {depth : ℕ} (hd : 0 < depth) : isAbsolute (repeated f depth) = true := by
  obtain ⟨d,rfl⟩ := Nat.exists_eq_succ_of_ne_zero hd.ne'
  rfl

def detour (home : List Str) (f : Str) (depth : ℕ) (ps : List Path) : Fs :=
  add (ofDirs (home.dropLast :: replicate depth f :: ps)) home (.link (repeated f depth))

structure IsDetour (home : List Str) (f : Str) (depth : ℕ) (ps : List Path) : Prop where
  plain : ∀ name ∈ home, IsPlain name
  proper : home ≠ []
  target : IsPlain f ∧ '/' ∉ f
  apart : f ∉ home
  deep : 0 < depth
  below : ∀ p ∈ ps, [f] <+: p

namespace IsDetour
variable {home : List Str} {f : Str} {depth : ℕ} {ps : List Path}

theorem target_below (h : IsDetour home f depth ps) : [f] <+: replicate depth f := by
  obtain ⟨d,rfl⟩ := Nat.exists_eq_succ_of_ne_zero h.deep.ne'
  rw [replicate_succ]
  exact cons_prefix_cons.2 ⟨rfl, nil_prefix⟩

theorem not_below (h : IsDetour home f depth ps) {p : Path} (hp : [f] <+: p) : ¬p <+: home := fun hh =>
  h.apart (hh.subset (hp.subset (mem_singleton_self f)))

theorem isFree (h : IsDetour home f depth ps) : IsFree (ofDirs (home.dropLast :: replicate depth f :: ps)) home := by
  refine ⟨h.proper,node_ofDirs mem_cons_self prefix_rfl,node_ofDirs_eq_none h.proper ?_⟩
  have ho : ∀ p, [f] <+: p → ¬home <+: p := by
    intro p hp hh
    obtain ⟨first,l,rfl⟩ := exists_cons_of_ne_nil h.proper
    obtain ⟨l',rfl⟩ := hp
    obtain ⟨rfl,-⟩ := cons_prefix_cons.1 hh
    exact h.apart mem_cons_self
  rintro q hq hh
  rcases mem_cons.1 hq with rfl | hq
  · exact not_prefix_dropLast h.proper hh
  · rcases mem_cons.1 hq with rfl | hq
    · exact ho _ h.target_below hh
    · exact ho _ (h.below q hq) hh

theorem node_eq (h : IsDetour home f depth ps) {p : Path} (hp : p ≠ home) :
    node (detour home f depth ps) p = node (ofDirs (home.dropLast :: replicate depth f :: ps)) p := by
  rw [detour,node_add h.isFree,if_neg hp]

theorem node_dir (h : IsDetour home f depth ps) {p q : Path} (hq : q ∈ replicate depth f :: ps) (hp : p <+: q) :
    node (detour home f depth ps) p = some .dir := by
  have hne : p ≠ home := by
    rintro rfl
    have hnone := h.isFree.2.2
    rw [node_ofDirs (mem_cons_of_mem _ hq) hp] at hnone
    cases hnone
  rw [h.node_eq hne]
  exact node_ofDirs (mem_cons_of_mem _ hq) hp

theorem noLinks (h : IsDetour home f depth ps) : NoLinks (detour home f depth ps) (replicate depth f) := by
  intro p t hp hl
  have hne : p ≠ home := by
    rintro rfl
    exact h.not_below h.target_below hp
  rw [h.node_eq hne] at hl
  cases (of_node_ofDirs hl).1

theorem walk_home (h : IsDetour home f depth ps) :
    walk (detour home f depth ps) true maxLinks [] home = some (maxLinks - 1,replicate depth f) := by
  have hup : walk (detour home f depth ps) true maxLinks [] home.dropLast = some (maxLinks,home.dropLast) := by
    refine walk_of_dirs (fun name hname => h.plain name (mem_of_mem_dropLast hname)) fun l hl => ?_
    have hne : l ≠ home := by
      rintro rfl
      exact not_prefix_dropLast h.proper hl
    rw [h.node_eq hne]
    exact node_ofDirs mem_cons_self hl
  have hdir : node (detour home f depth ps) home.dropLast = some .dir := by
    rw [h.node_eq (dropLast_ne_self h.proper)]
    exact node_ofDirs mem_cons_self prefix_rfl
  have hli : node (detour home f depth ps) (home.dropLast ++ [home.getLast h.proper]) =
      some (.link (repeated f depth)) := by
    rw [dropLast_append_getLast,detour,node_add h.isFree,if_pos rfl]
  have hd : walk (detour home f depth ps) true (maxLinks - 1) [] (replicate depth f) =
      some (maxLinks - 1,replicate depth f) := by
    refine walk_of_dirs (fun name hname => ?_) fun l hl => h.node_dir mem_cons_self hl
    rw [eq_of_mem_replicate hname]
    exact h.target.1
  have hsplit := walk_append_dir hup hdir [home.getLast h.proper]
  rw [dropLast_append_getLast] at hsplit
  refine (hsplit.trans (walk_link (n := maxLinks - 1) (h.plain _ (getLast_mem _)) hli [])).trans ?_
  rw [linkStart,if_pos (isAbsolute_repeated f h.deep),names_repeated h.target.2,append_nil,walk_skip (.inl rfl),hd]

end IsDetour

section
variable {f : Str} {depth : ℕ}

variable {name : Str}

theorem not_prefix_step {p : Path} (h : ¬replicate depth f <+: p) (hname : name ≠ f) :
    ¬replicate depth f <+: p ++ [name] := by
  intro hbelow
  rcases prefix_concat_iff.1 hbelow with heq | hbelow
  · have hl : name ∈ replicate depth f := by
      rw [heq]
      simp
    exact hname (eq_of_mem_replicate hl)
  · exact h hbelow

variable {l : List Str}

theorem not_prefix_visit (hl : ∀ name ∈ l, name ≠ f) {p : Path} (h : ¬replicate depth f <+: p) :
    ¬replicate depth f <+: visit p l := by
  induction l using reverseRecOn with
  | nil => exact h
  | append_singleton l name ih =>
    have hv := ih fun x hx => hl x (mem_append_left _ hx)
    rw [visit_concat]
    split_ifs
    · exact fun hbelow => hv (hbelow.trans ( dropLast_prefix _))
    · exact not_prefix_step hv (hl name (by simp))

theorem not_prefix_of_leaves (hd : 0 < depth) (hl : ∀ name ∈ l, name ≠ f) {e : Path} (h : stays e.length l = false) :
    ¬replicate depth f <+: visit (replicate depth f ++ e) l := by
  induction l generalizing e with
  | nil => cases h
  | cons name l ih =>
    obtain ⟨hname,hrest⟩ := forall_mem_cons.1 hl
    by_cases hup : name = ['.','.']
    · subst hup
      rw [visit_cons_up]
      rcases eq_nil_or_concat e with rfl | ⟨e',last,rfl⟩
      · -- here the names go above the directory
        rw [append_nil]
        exact not_prefix_visit hrest (not_prefix_dropLast fun hn => hd.ne' (replicate_eq_nil_iff f |>.1 hn))
      · rw [concat_eq_append,length_append] at h
        rw [concat_eq_append,← append_assoc,dropLast_concat]
        exact ih hrest h
    · have hs : stays (e ++ [name]).length l = false := by
        rw [length_append]
        rwa [stays_cons hup] at h
      rw [visit_cons hup,append_assoc]
      exact ih hrest hs

theorem Quiet.of_prefix {l' : List Str} (h : Quiet l) (hl : l' <+: l) : Quiet l' :=
  fun r name hr => h r name (hr.trans hl)

theorem visit_of_quiet (hde : 0 < depth) (hq : Quiet l) (h : stays 0 l = false) :
    ∃ d < depth, visit (replicate depth f) l = replicate d f := by
  induction l using reverseRecOn with
  | nil => cases h
  | append_singleton l name ih =>
    have hb : Quiet l := hq.of_prefix (prefix_append _ _)
    rw [visit_concat]
    cases hl : stays 0 l with
    | false =>
      have hup : name = ['.','.'] := by
        by_contra hname
        rw [hq l name prefix_rfl hname] at hl
        cases hl
      obtain ⟨d,hd,hv⟩ := ih hb hl
      rw [if_pos hup,hv,dropLast_replicate]
      exact ⟨d - 1,by omega,rfl⟩
    | true =>
      -- the last name is the one that goes above the directory
      have hla := mt (stays_concat [] l name).2 (by simp [h])
      rw [not_and,Classical.not_imp,not_not] at hla
      obtain ⟨hup,hs⟩ := hla hl
      have hv : visit (replicate depth f) l = replicate depth f := by
        have hbelow := visit_of_stays (e := []) hl (replicate depth f)
        rwa [hs, append_nil] at hbelow
      rw [if_pos hup,hv,dropLast_replicate]
      exact ⟨depth - 1,by omega,rfl⟩

theorem exists_first (h : ¬Quiet l) : ∃ r name, r ++ [name] <+: l ∧ name ≠ ['.','.'] ∧ stays 0 r = false ∧ Quiet r := by
  induction l using reverseRecOn with
  | nil =>
    exfalso
    refine h fun r name hr => ?_
    simp at hr
  | append_singleton l last ih =>
    by_cases hl : Quiet l
    · unfold Quiet at h
      push Not at h
      obtain ⟨r,name,hr,hname,hs⟩ := h
      rcases prefix_concat_iff.1 hr with heq | hr
      · obtain ⟨rfl,-⟩ := append_inj' heq rfl
        exact ⟨r,name,hr,hname,by simpa using hs,hl⟩
      · exact absurd (hl r name hr hname) hs
    · obtain ⟨r,name,hr,hfirst⟩ := ih hl
      exact ⟨r,name,hr.trans (prefix_append _ _),hfirst⟩

theorem not_prefix_replicate {d : ℕ} (hname : name ≠ f) :
    ¬replicate d f ++ [name] <+: replicate depth f := fun hbelow =>
  hname (eq_of_mem_replicate (hbelow.subset (by simp)))

theorem not_prefix_deep {d : ℕ} (hd : d < depth) (hname : name ≠ f) (e : Path) :
    ¬replicate d f ++ [name] <+: replicate depth f ++ e := by
  intro hbelow
  have hs : (replicate d f ++ [name]).length ≤ (replicate depth f).length := by
    simp only [length_append,length_replicate,length_singleton]
    omega
  exact not_prefix_replicate hname (prefix_of_prefix_length_le hbelow (prefix_append _ _) hs)

end

section
variable {home : Home} {r l : List Str}

def strange (home : Home) (l : List Str) : Str := fresh (components home.path ++ l)
def deepHome (home : Home) (r l : List Str) : Path := replicate (r.length + 1) (strange home l)
def attack (home : Home) (r l : List Str) : Fs :=
  detour (components home.path) (strange home l) (r.length + 1) (r.inits.map (visit (deepHome home r l)))

variable {name : Str}

theorem ne_strange (h : name ∈ l) : name ≠ strange home l := fresh_ne (mem_append_right _ h)

theorem isDetour_attack (hr : components home.path ≠ []) :
    IsDetour (components home.path) (strange home l) (r.length + 1) (r.inits.map (visit (deepHome home r l))) where
  plain name hname :=
    ⟨(ne_of_mem_components hname).1,(ne_of_mem_components hname).2,fun hup => home.direct (hup ▸ hname)⟩
  proper := hr
  target := ⟨isPlain_fresh _,by simp [strange,fresh]⟩
  apart hmem := fresh_ne (mem_append_left l hmem) rfl
  deep := Nat.succ_pos _
  below := by
    intro p hp
    obtain ⟨r',hr',rfl⟩ := mem_map.1 hp
    rw [deepHome,replicate_succ,← singleton_append]
    apply prefix_visit
    rw [length_replicate]
    exact ((mem_inits _ _).1 hr').length_le

theorem node_attack (hr : components home.path ≠ []) {r' : List Str} (hr' : r' <+: r) :
    node (attack home r l) (visit (deepHome home r l) r') = some .dir :=
  (isDetour_attack hr).node_dir (mem_cons_of_mem _ (mem_map.2 ⟨r',(mem_inits _ _).2 hr',rfl⟩)) prefix_rfl

theorem walk_attack (hro : components home.path ≠ []) (hr : ∀ name ∈ r, name ≠ [] ∧ name ≠ ['.']) :
    walk (attack home r l) true maxLinks [] (components home.path ++ r) =
      some (maxLinks - 1,visit (deepHome home r l) r) := by
  have hh := (isDetour_attack (r := r) (l := l) hro).walk_home
  have hdir : node (attack home r l) (deepHome home r l) = some .dir := node_attack hro nil_prefix
  refine (walk_append_dir hh hdir r).trans ?_
  exact walk_visit hr fun r' hr' => node_attack hro hr'

theorem homeAt_attack (hr : components home.path ≠ []) : HomeAt (attack home r l) home.path (deepHome home r l) := by
  have hdir : node (attack home r l) (deepHome home r l) = some .dir := node_attack hr nil_prefix
  exact ⟨_,walk_of_skims (isDetour_attack hr).walk_home hdir (skims_steps _),hdir⟩

theorem safe_get_of_confined {decode : Str → Option Str} {filename : Str} (hro : components home.path ≠ [])
    (h : Confined decode home (.get filename)) : Safe decode home.path (.get filename) := by
  intro name path hd ha hn hf
  by_contra hs
  rw [Bool.not_eq_true] at hs
  have hpath := components_of_accessPath ha
  set r := rest home.path path
  have hr : ∀ name ∈ r, name ≠ [] ∧ name ≠ ['.'] :=
    fun name hname => ne_of_mem_components (mem_components_of_rest hname)
  have hw := walk_attack (l := r) hro hr
  have hdir := node_attack (l := r) hro (prefix_refl r)
  have hst : stat (attack home r r) (names path) = some (visit (deepHome home r r) r,.dir) := by
    rw [← hpath] at hw
    exact stat_eq_some.2 ⟨⟨_,walk_of_skims hw hdir (skims_steps _)⟩,hdir⟩
  have ht := mem_touched_get.2 ⟨name,path,hd,ha,hn,⟨_,hst⟩,hf⟩
  refine not_prefix_of_leaves (f := strange home r) (e := []) (Nat.succ_pos r.length)
    (fun name hname => ne_strange hname) hs ?_
  rw [append_nil]
  exact h _ _ (homeAt_attack hro) (isDetour_attack hro).noLinks _ ht

theorem node_attack_eq_none (hr : components home.path ≠ []) (hqu : Quiet r) (hs : stays 0 r = false)
    (hname : name ∈ l) : node (attack home r l) (visit (deepHome home r l) r ++ [name]) = none := by
  have hde := isDetour_attack (r := r) (l := l) hr
  obtain ⟨d,hd,hv⟩ := visit_of_quiet (f := strange home l) (Nat.succ_pos r.length) hqu hs
  have hbelow : [strange home l] <+: visit (deepHome home r l) r ++ [name] :=
    (hde.below _ (mem_map.2 ⟨r,(mem_inits _ _).2 prefix_rfl,rfl⟩)).trans (prefix_append _ _)
  have ho := hde.not_below hbelow
  rw [attack, hde.node_eq fun heq => ho (by rw [heq])]
  refine node_ofDirs_eq_none (concat_ne_nil _ _) fun q hq hp => ?_
  rcases mem_cons.1 hq with rfl | hq
  · exact ho (hp.trans ( dropLast_prefix _))
  · rw [deepHome,hv] at hp
    rcases mem_cons.1 hq with rfl | hq
    · exact not_prefix_replicate (ne_strange hname) hp
    · obtain ⟨r',hr',rfl⟩ := mem_map.1 hq
      have hr' := (mem_inits _ _).1 hr'
      cases hs' : stays 0 r' with
      | false =>
        obtain ⟨d',-,hv'⟩ := visit_of_quiet (f := strange home l) (Nat.succ_pos r.length) (hqu.of_prefix hr') hs'
        rw [deepHome,hv'] at hp
        exact not_prefix_replicate (ne_strange hname) hp
      | true =>
        have hdp := visit_of_stays (e := []) hs' (deepHome home r l)
        rw [append_nil] at hdp
        rw [hdp] at hp
        exact not_prefix_deep hd (ne_strange hname) _ hp

variable {fs : Fs}

theorem mkdir_missing {parent : List Str} (h : stat fs parent = none) : mkdir fs parent name = .notFound := by
  simp only [mkdir,h]

theorem places_subset_mkdir (made : Made) (parent : List Str) (name : Str) :
    made.places ⊆ (made.mkdir parent name).places := by
  unfold Made.mkdir
  split_ifs
  · split
    · exact subset_append_left _ _
    · exact List.Subset.refl _
  · exact List.Subset.refl _

theorem mem_createDirAll {parent : List Str} {n : ℕ} {q : Path} (hname : IsPlain name)
    (hw : walk fs true maxLinks [] parent = some (n,q)) (hdir : node fs q = some .dir)
      (hnone : node fs (q ++ [name]) = none)
    (s : List Str) : q ++ [name] ∈ (createDirAll fs (parent ++ [name] ++ s).reverse).places := by
  have hmi : ∀ s, walk fs true maxLinks [] (parent ++ [name] ++ s) = none := by
    intro s
    rw [append_assoc,walk_append_dir hw hdir,singleton_append,walk,if_neg hname.not_skip,
      if_neg hname.2.2,hnone]
    rfl
  induction s using reverseRecOn with
  | nil =>
    have hs := stat_eq_some.2 ⟨⟨n,hw⟩,hdir⟩
    have hm : mkdir fs parent name = .created (q ++ [name]) := by
      simp only [mkdir,hs]
      exact if_neg (by simp [hname.2.2,hnone])
    rw [append_nil, reverse_append, reverse_singleton, singleton_append, createDirAll, reverse_reverse,
      if_neg (by simp [hm])]
    simp [Made.mkdir,hm]
  | append_singleton s last ih =>
    have hs : stat fs (parent ++ [name] ++ s) = none := by
      rw [stat,hmi s]
      rfl
    rw [← append_assoc,reverse_append,reverse_singleton,singleton_append,createDirAll,reverse_reverse,
      if_pos (mkdir_missing hs)]
    exact places_subset_mkdir _ _ _ ih

theorem openWrite_of_walk {hops n m : ℕ} {cwd q : Path} {path : List Str} (hl : path.getLast? = some name)
    (hname : IsPlain name) (hw : walk fs true n cwd path.dropLast = some (m,q)) (hdir : node fs q = some .dir)
    (hnode : node fs (q ++ [name]) = none ∨ node fs (q ++ [name]) = some .file) :
    openWrite fs (hops + 1) n cwd path = some (q ++ [name]) := by
  rw [openWrite,hl]
  rcases hnode with hnode | hnode
  · simp only [bind_eq_bind,bind_some,if_pos hname,hw,hnode]
    exact if_pos hdir
  · simp only [bind_eq_bind,bind_some,if_pos hname,hw,hnode]

theorem mem_store {path : Str} {p : Path} (hn : nul ∉ path)
    (h : openWrite fs (maxLinks + 1) maxLinks [] (names path) = some p) : p ∈ (store fs path).1 := by
  unfold store
  rw [if_neg hn,h]
  cases hs : stat (add fs p .file) (names path) with
  | none => simp [hs]
  | some r => simp [hs]

theorem postFile_eq {path : Str} (ha : accessPath home.path name = some path) (hne : components path ≠ [])
    (hn : nul ∉ (components path).dropLast.flatten) : (postFile fs home.path (some name)).1 =
      (createDirAll fs (components path).dropLast.reverse).places ++
        if (createDirAll fs (components path).dropLast.reverse).ok then
          (store (createDirAll fs (components path).dropLast.reverse).fs path).1 else [] := by
  simp only [postFile,ha,if_neg hne,if_neg hn]
  split_ifs
  · rfl
  · rw [append_nil]

/-- In the file system of the attack, a name above the home directory is created. -/
theorem mem_post_of_first {path : Str} {x : Str} (hro : components home.path ≠ [])
    (ha : accessPath home.path name = some path)
    (hr : r ++ [x] <+: creatable home.path path) (hx : x ≠ ['.','.']) (hst : stays 0 r = false) (hq : Quiet r) :
    visit (deepHome home r (rest home.path path)) r ++ [x] ∈
      (postFile (attack home r (rest home.path path)) home.path (some name)).1 := by
  have hpath := components_of_accessPath ha
  have hne : components path ≠ [] := by
    rw [hpath]
    exact append_ne_nil_of_left_ne_nil hro _
  have hn : nul ∉ (components path).dropLast.flatten := by
    intro hn
    rw [creatable,if_pos hn] at hr
    simp at hr
  rw [creatable,if_neg hn] at hr
  have hrest : r ++ [x] <+: rest home.path path := by
    split_ifs at hr
    · exact hr
    · exact hr.trans ( dropLast_prefix _)
  have hna : ∀ name ∈ r ++ [x], name ≠ [] ∧ name ≠ ['.'] :=
    fun name hname => ne_of_mem_components (mem_components_of_rest (hrest.subset hname))
  have hr' : ∀ name ∈ r, name ≠ [] ∧ name ≠ ['.'] := fun name hname => hna name (mem_append_left _ hname)
  have hp : IsPlain x := ⟨(hna x (by simp)).1,(hna x (by simp)).2,hx⟩
  have hw := walk_attack (l := rest home.path path) hro hr'
  have hdir := node_attack (l := rest home.path path) hro (prefix_refl r)
  have hnone := node_attack_eq_none (l := rest home.path path) hro hq hst (hrest.subset (by simp) : x ∈ _)
  have hpr : rest home.path path ≠ [] := fun hni => by simp [hni] at hrest
  rw [postFile_eq ha hne hn,hpath,dropLast_append_of_ne_nil hpr,mem_append]
  by_cases hl : r ++ [x] <+: (rest home.path path).dropLast
  · -- the name is one of a directory on the way
    obtain ⟨s,hs⟩ := hl
    left
    rw [← hs,← append_assoc,← append_assoc]
    exact mem_createDirAll hp hw hdir hnone s
  · -- the name is the one of the file
    right
    have hwr : isWritable path := by
      by_contra hnot
      rw [if_neg hnot] at hr
      exact hl hr
    have heq : r ++ [x] = rest home.path path := by
      rw [← dropLast_append_getLast hpr] at hrest
      rcases prefix_concat_iff.1 hrest with heq | hsh
      · rw [heq,dropLast_append_getLast]
      · exact absurd hsh hl
    obtain ⟨last,hln⟩ : ∃ last, (names path).getLast? = some last := by
      rw [← isSome_iff_exists,getLast?_isSome]
      exact splitOn_ne_nil _ _
    have hc := components_of_getLast hln (hwr.2 last hln)
    rw [hpath,← heq,← append_assoc] at hc
    obtain ⟨hste,hsa⟩ := append_inj' hc rfl
    cases hsa
    have hpa : ∀ name ∈ components home.path ++ r, name ≠ [] ∧ name ≠ ['.'] := fun name hname =>
      (mem_append.1 hname).elim ne_of_mem_components (hr' name)
    have hm : createDirAll (attack home r (rest home.path path))
      (components home.path ++ (rest home.path path).dropLast).reverse =
        ⟨attack home r (rest home.path path),[],true⟩ := by
      have hd : (rest home.path path).dropLast = r := by rw [← heq,dropLast_concat]
      rw [hd]
      exact createDirAll_of_walk hpa hw hdir
    rw [hm,if_pos rfl]
    rw [hste] at hw
    exact mem_store hwr.1 (openWrite_of_walk hln hp (walk_of_skims hw hdir (skims_steps _)) hdir (.inl hnone))

theorem safe_post_of_confined {decode : Str → Option Str} (hro : components home.path ≠ [])
    (h : Confined decode home (.post (some name))) : Safe decode home.path (.post (some name)) := by
  intro path ha
  by_contra hnot
  obtain ⟨r,x,hr,hx,hs,hq⟩ := exists_first hnot
  have hrest : r ++ [x] <+: rest home.path path := by
    refine hr.trans ?_
    unfold creatable
    split_ifs
    · exact nil_prefix
    · exact prefix_rfl
    · exact dropLast_prefix _
  have ho : ¬deepHome home r (rest home.path path) <+: visit (deepHome home r (rest home.path path)) r := by
    have hl := not_prefix_of_leaves (f := strange home (rest home.path path)) (e := []) (Nat.succ_pos r.length)
      (fun name hname => ne_strange (hrest.subset (mem_append_left _ hname))) hs
    rwa [append_nil] at hl
  exact not_prefix_step ho (ne_strange (hrest.subset (by simp)))
    (h _ _ (homeAt_attack hro) (isDetour_attack hro).noLinks _ (mem_post_of_first hro ha hr hx hs hq))

end

/-- A request stays in the home directory, wherever that is, just if its names do not lead above it. -/
theorem home_confined_iff_safe (decode : Str → Option Str) (home : Home) (request : Request) :
    Confined decode home request ↔ components home.path = [] ∨ Safe decode home.path request := by
  constructor
  · intro h
    rw [or_iff_not_imp_left]
    intro hr
    cases request with
    | get filename => exact safe_get_of_confined hr h
    | post name =>
      cases name with
      | none => trivial
      | some name => exact safe_post_of_confined hr h
  · rintro (hr | hs)
    · intro fs dir hh _ p _
      rw [root_of_components hh hr]
      exact nil_prefix
    · exact confined_of_safe hs

def userHome : Home where
  path := "/home/user"
  absolute := by decide +kernel
  direct := by decide +kernel

def escape : Str := "/home/user/../../etc/passwd"

/-- A file of the system is read and written, asked for relative to the home directory or below it. -/
theorem dotdot_leaves_home :
    (∀ name ∈ ["../../etc/passwd".toList,"/home/user/../../etc/passwd".toList], ¬Confined some userHome (.get name)) ∧
      ¬Confined some userHome (.post (some "../../etc/passwd".toList)) := by
  have hr : components userHome.path ≠ [] := by decide +kernel
  constructor
  · intro name hname h
    have ha : ∀ name ∈ ["../../etc/passwd".toList,"/home/user/../../etc/passwd".toList],
        accessPath userHome.path name = some escape := by
      decide +kernel
    have hs := safe_get_of_confined hr h name escape rfl (ha name hname) (by decide +kernel) (by decide +kernel)
    revert hs
    decide +kernel
  · intro h
    have ha : accessPath userHome.path "../../etc/passwd" = some escape := by decide +kernel
    have hs := safe_post_of_confined hr h escape ha [['.','.'],['.','.']] "etc" (by decide +kernel) (by decide)
    revert hs
    decide +kernel

end Padsi.Agent
