import Padsi.Lib.Store
import Padsi.Lib.Text

/-! # File trees with symbolic links

A tree is given by the nodes at its paths. The names of a path can go up, and through
symbolic links, of which the kernel follows forty.
-/
namespace Padsi.FileTree
open Python Text List Dict

abbrev Path := List Str

inductive Node where
  | dir
  | file
  | link (target : Str)
deriving DecidableEq, Repr

structure Fs where
  nodes : Dict Path Node
  closed : ∀ e ∈ nodes.entries, e.1.dropLast = [] ∨ nodes.get e.1.dropLast = some .dir

def node (fs : Fs) (p : Path) : Option Node := if p = [] then some .dir else fs.nodes.get p
def children (fs : Fs) (p : Path) : List Str :=
  fs.nodes.entries.filterMap fun e => if e.1 ≠ [] ∧ e.1.dropLast = p then e.1.getLast? else none
def names (path : Str) : List Str := path.splitOn '/'
def isAbsolute (path : Str) : Bool := path.head? == some '/'
def join (dir : Path) (path : Str) : List Str := if isAbsolute path then names path else dir ++ names path
def maxLinks : ℕ := 40

def IsPlain (name : Str) : Prop := name ≠ [] ∧ name ≠ ['.'] ∧ name ≠ ['.','.']

instance (name : Str) : Decidable (IsPlain name) := inferInstanceAs (Decidable (_ ∧ _))
def linkStart (cwd : Path) (target : Str) : Path := if isAbsolute target then [] else cwd

/-- Where names lead, and how many links may still be followed; `realpath` keeps names that lead nowhere. -/
def walk (fs : Fs) (strict : Bool) (n : ℕ) (cwd : Path) : List Str → Option (ℕ × Path)
  | [] => some (n,cwd)
  | name :: rest =>
    if name = [] ∨ name = ['.'] then walk fs strict n cwd rest
    else if name = ['.','.'] then walk fs strict n cwd.dropLast rest
    else
      match node fs (cwd ++ [name]) with
      | some (.link target) =>
        match n with
        | 0 => none
        | n + 1 => walk fs strict n (linkStart cwd target) (names target ++ rest)
      | some .dir => walk fs strict n (cwd ++ [name]) rest
      | some .file => if strict ∧ rest ≠ [] then none else walk fs strict n (cwd ++ [name]) rest
      | none => if strict then none else walk fs strict n (cwd ++ [name]) rest
termination_by l => (n,l.length)

section
variable (fs : Fs) (path : List Str)

def stat : Option (Path × Node) := do
  let (_,p) ← walk fs true maxLinks [] path
  return (p,← node fs p)

/-- The place that a path names; a link at its end is not followed. -/
def lstat : Option (Path × Node) :=
  match path.getLast? with
  | none => stat fs path
  | some name =>
    if name = [] ∨ name = ['.'] ∨ name = ['.','.'] then stat fs path
    else do
      let (_,p) ← walk fs true maxLinks [] path.dropLast
      return (p ++ [name],← node fs (p ++ [name]))

def realpath : Option Path := (walk fs false maxLinks [] path).map Prod.snd

def listdir : Option (List Str) :=
  match stat fs path with
  | some (p,.dir) => some (children fs p)
  | _ => none

def rmtree : Option Path :=
  match lstat fs path with
  | some (p,.dir) => some p
  | _ => none

end

inductive Goes (fs : Fs) : ℕ → Path → List Str → ℕ × Path → Prop
  | nil (n : ℕ) (cwd : Path) : Goes fs n cwd [] (n,cwd)
  | skip {n cwd name rest r} (hname : name = [] ∨
    name = ['.']) (h : Goes fs n cwd rest r) : Goes fs n cwd (name :: rest) r
  | up {n cwd rest r} (h : Goes fs n (dropLast cwd) rest r) : Goes fs n cwd (['.','.'] :: rest) r
  | link {n cwd name rest r target} (hname : IsPlain name) (hnode : node fs (cwd ++ [name]) = some (.link target))
    (h : Goes fs n (linkStart cwd target) (names target ++ rest) r) : Goes fs (n + 1) cwd (name :: rest) r
  | dir {n cwd name rest r} (hname : IsPlain name) (hnode : node fs (cwd ++ [name]) = some .dir)
    (h : Goes fs n (cwd ++ [name]) rest r) : Goes fs n cwd (name :: rest) r
  | file {n cwd name} (hname : IsPlain name)
    (hnode : node fs (cwd ++ [name]) = some .file) : Goes fs n cwd [name] (n,cwd ++ [name])

section
variable {fs : Fs} {strict : Bool} {n : ℕ} {cwd : Path} {name : Str}

theorem isPlain_of (h : ¬ (name = [] ∨ name = ['.'])) (h' : name ≠ ['.','.']) : IsPlain name :=
  ⟨fun hn => h (.inl hn),fun hn => h (.inr hn),h'⟩
theorem IsPlain.not_skip (h : IsPlain name) : ¬ (name = [] ∨ name = ['.']) := fun hname => hname.elim h.1 h.2.1

theorem isPlain_of_length (h : 2 < name.length) : IsPlain name := by
  refine ⟨?_,?_,?_⟩
  all_goals
    rintro rfl
    revert h
    decide

theorem walk_nil : walk fs strict n cwd [] = some (n,cwd) := by
  rw [walk]
theorem walk_skip (hname : name = [] ∨ name = ['.']) (rest : List Str) :
    walk fs strict n cwd (name :: rest) = walk fs strict n cwd rest := by
  rw [walk,if_pos hname]
theorem walk_up (rest : List Str) : walk fs strict n cwd (['.','.'] :: rest) = walk fs strict n cwd.dropLast rest := by
  rw [walk, if_neg (by decide), if_pos rfl]

theorem walk_link (hname : IsPlain name) {target : Str} (hnode : node fs (cwd ++ [name]) = some (.link target))
    (rest : List Str) :
    walk fs strict (n + 1) cwd (name :: rest) = walk fs strict n (linkStart cwd target) (names target ++ rest) := by
  rw [walk,if_neg hname.not_skip,if_neg hname.2.2,hnode]

theorem walk_dir (hname : IsPlain name) (hnode : node fs (cwd ++ [name]) = some .dir) (rest : List Str) :
    walk fs strict n cwd (name :: rest) = walk fs strict n (cwd ++ [name]) rest := by
  rw [walk,if_neg hname.not_skip,if_neg hname.2.2,hnode]

theorem walk_file (hname : IsPlain name) (hnode : node fs (cwd ++ [name]) = some .file) :
    walk fs strict n cwd [name] = some (n,cwd ++ [name]) := by
  rw [walk,if_neg hname.not_skip,if_neg hname.2.2,hnode]
  simp [walk_nil]

theorem walk_plain (hname : IsPlain name) (hnode : ∀ t, node fs (cwd ++ [name]) ≠ some (.link t)) (rest : List Str) :
    walk fs false n cwd (name :: rest) = walk fs false n (cwd ++ [name]) rest := by
  rw [walk,if_neg hname.not_skip,if_neg hname.2.2]
  cases hn : node fs (cwd ++ [name]) with
  | none => simp
  | some nd =>
    cases nd with
    | dir => rfl
    | file => simp
    | link t => exact absurd hn (hnode t)

variable {r : ℕ × Path} {p : Path}

variable {l : List Str}

theorem goes_of_walk (h : walk fs true n cwd l = some r) : Goes fs n cwd l r := by
  fun_induction walk fs true n cwd l with
  | case1 n cwd =>
    cases h
    exact .nil n cwd
  | case2 n cwd name rest hname ih => exact .skip hname (ih h)
  | case3 n cwd rest hname ih => exact .up (ih h)
  | case4 | case7 | case9 => cases h
  | case5 cwd name rest hname hup target hnode n ih => exact .link (isPlain_of hname hup) hnode (ih h)
  | case6 n cwd name rest hname hup hnode ih => exact .dir (isPlain_of hname hup) hnode (ih h)
  | case8 n cwd name rest hname hup hnode hl ih =>
    have hrest : rest = [] := not_not.1 fun hne => hl ⟨rfl,hne⟩
    subst hrest
    rw [walk_nil] at h
    cases h
    exact .file (isPlain_of hname hup) hnode
  | case10 n cwd name rest hname hup hnode hs => exact absurd rfl hs

theorem Goes.walk_eq (h : Goes fs n cwd l r) : walk fs true n cwd l = some r := by
  induction h with
  | nil => exact walk_nil
  | skip hname _ ih => rw [walk_skip hname,ih]
  | up _ ih => rw [walk_up,ih]
  | link hname hnode _ ih => rw [walk_link hname hnode,ih]
  | dir hname hnode _ ih => rw [walk_dir hname hnode,ih]
  | file hname hnode => exact walk_file hname hnode

theorem walk_of_strict (h : walk fs true n cwd l = some r) : walk fs false n cwd l = some r := by
  induction goes_of_walk h with
  | nil => exact walk_nil
  | skip hname hrest ih => rw [walk_skip hname,ih hrest.walk_eq]
  | up hrest ih => rw [walk_up,ih hrest.walk_eq]
  | link hname hnode hrest ih => rw [walk_link hname hnode,ih hrest.walk_eq]
  | dir hname hnode hrest ih => rw [walk_dir hname hnode,ih hrest.walk_eq]
  | file hname hnode => exact walk_file hname hnode

theorem walk_append (l l' : List Str) :
    walk fs false n cwd (l ++ l') = (walk fs false n cwd l).bind fun r => walk fs false r.1 r.2 l' := by
  fun_induction walk fs false n cwd l with
  | case1 => rfl
  | case2 n cwd name rest hname ih => rw [cons_append,walk_skip hname,ih]
  | case3 n cwd rest hname ih => rw [cons_append,walk_up,ih]
  | case4 cwd name rest hname hup target hnode =>
    rw [cons_append,walk,if_neg hname,if_neg hup,hnode]
    rfl
  | case5 cwd name rest hname hup target hnode n ih =>
    rw [cons_append,walk_link (isPlain_of hname hup) hnode,← append_assoc,ih]
  | case6 n cwd name rest hname hup hnode ih =>
    rw [cons_append, walk_plain (isPlain_of hname hup) (by simp [hnode]), ih]
  | case7 n cwd name rest hname hup hnode hs => exact absurd hs.1 (by decide)
  | case8 n cwd name rest hname hup hnode _ ih =>
    rw [cons_append, walk_plain (isPlain_of hname hup) (by simp [hnode]), ih]
  | case9 n cwd name rest hname hup hnode hs => cases hs
  | case10 n cwd name rest hname hup hnode _ ih =>
    rw [cons_append, walk_plain (isPlain_of hname hup) (by simp [hnode]), ih]

theorem walk_of_cons (hname : IsPlain name) (hnode : ∀ t, node fs (cwd ++ [name]) ≠ some (.link t)) {rest : List Str}
    (h : walk fs strict n cwd (name :: rest) = some r) : walk fs strict n (cwd ++ [name]) rest = some r := by
  rw [walk,if_neg hname.not_skip,if_neg hname.2.2] at h
  cases hn : node fs (cwd ++ [name]) with
  | none =>
    simp only [hn,Option.ite_none_left_eq_some] at h
    exact h.2
  | some nd =>
    cases nd with
    | dir => simpa only [hn] using h
    | file =>
      simp only [hn,Option.ite_none_left_eq_some] at h
      exact h.2
    | link t => exact absurd hn (hnode t)

theorem node_parent {nd : Node} (h : node fs (p ++ [name]) = some nd) : node fs p = some .dir := by
  have hne : p ++ [name] ≠ [] := concat_ne_nil _ _
  rw [node,if_neg hne] at h
  have hpa := fs.closed _ (mem_of_get h)
  rw [dropLast_concat] at hpa
  unfold node
  split_ifs with hp
  · rfl
  · exact hpa.resolve_left hp

theorem node_dropLast {nd : Node} (h : node fs p = some nd) : node fs p.dropLast = some .dir := by
  rcases eq_nil_or_concat p with rfl | ⟨q,last,rfl⟩
  · rfl
  · rw [concat_eq_append] at h ⊢
    rw [dropLast_concat]
    exact node_parent h

theorem node_linkStart (hc : node fs cwd = some .dir) (target : Str) : node fs (linkStart cwd target) = some .dir := by
  unfold linkStart
  split_ifs
  · rfl
  · exact hc

theorem walk_append_dir (h : walk fs true n cwd l = some r) (hr : node fs r.2 = some .dir) (l' : List Str) :
    walk fs true n cwd (l ++ l') = walk fs true r.1 r.2 l' := by
  induction goes_of_walk h with
  | nil => rfl
  | skip hname hrest ih => rw [cons_append,walk_skip hname,ih hrest.walk_eq hr]
  | up hrest ih => rw [cons_append,walk_up,ih hrest.walk_eq hr]
  | link hname hnode hrest ih => rw [cons_append,walk_link hname hnode,← append_assoc,ih hrest.walk_eq hr]
  | dir hname hnode hrest ih => rw [cons_append,walk_dir hname hnode,ih hrest.walk_eq hr]
  | file hname hnode => cases hnode.symm.trans hr

theorem exists_walk_of_append {l' : List Str} (hc : node fs cwd = some .dir)
    (h : walk fs true n cwd (l ++ l') = some r) :
    ∃ m p, walk fs true n cwd l = some (m,p) ∧ walk fs true m p l' = some r ∧ (l' ≠ [] → node fs p = some .dir) := by
  fun_induction walk fs true n cwd l with
  | case1 n cwd => exact ⟨n,cwd,rfl,h,fun _ => hc⟩
  | case2 n cwd name rest hname ih =>
    rw [cons_append,walk_skip hname] at h
    exact ih hc h
  | case3 n cwd rest hname ih =>
    rw [cons_append,walk_up] at h
    exact ih (node_dropLast hc) h
  | case4 cwd name rest hname hup target hnode =>
    rw [cons_append,walk,if_neg hname,if_neg hup,hnode] at h
    cases h
  | case5 cwd name rest hname hup target hnode n ih =>
    rw [cons_append,walk_link (isPlain_of hname hup) hnode,← append_assoc] at h
    exact ih (node_linkStart hc target) h
  | case6 n cwd name rest hname hup hnode ih =>
    rw [cons_append,walk_dir (isPlain_of hname hup) hnode] at h
    exact ih hnode h
  | case7 n cwd name rest hname hup hnode hl =>
    rw [cons_append,walk,if_neg hname,if_neg hup,hnode] at h
    simp [hl.2] at h
  | case8 n cwd name rest hname hup hnode hl ih =>
    have hrest : rest = [] := not_not.1 fun hne => hl ⟨rfl,hne⟩
    subst hrest
    rw [cons_append,nil_append,walk,if_neg hname,if_neg hup,hnode] at h
    by_cases hl' : l' = []
    · subst hl'
      exact ⟨n,cwd ++ [name],walk_nil,by simpa using h,fun hne => absurd rfl hne⟩
    · simp [hl'] at h
  | case9 n cwd name rest hname hup hnone hs =>
    rw [cons_append,walk,if_neg hname,if_neg hup,hnone] at h
    simp at h
  | case10 n cwd name rest hname hup hnone hs => exact absurd rfl hs

theorem stat_of_lstat {path : List Str} (h : lstat fs path = some (p,.dir)) : stat fs path = some (p,.dir) := by
  unfold lstat at h
  cases hl : path.getLast? with
  | none =>
    rw [hl] at h
    exact h
  | some name =>
    simp only [hl] at h
    split_ifs at h with hs
    · exact h
    · obtain ⟨⟨m,q⟩,hw,h⟩ := Option.bind_eq_some_iff.1 h
      obtain ⟨nd,hnode,h⟩ := Option.bind_eq_some_iff.1 h
      cases h
      have hname : IsPlain name := ⟨fun h => hs (.inl h),fun h => hs (.inr (.inl h)),fun h => hs (.inr (.inr h))⟩
      have hpath : path = path.dropLast ++ [name] := (dropLast_append_getLast? name hl).symm
      rw [stat,hpath,walk_append_dir hw (node_parent hnode),walk_dir hname hnode,walk_nil]
      simp [hnode]

theorem lstat_of_stat {path : List Str} (h : stat fs path = some (p,.dir))
    (hli : ∀ q t, lstat fs path ≠ some (q,.link t)) : lstat fs path = some (p,.dir) := by
  cases hl : path.getLast? with
  | none =>
    simp only [lstat,hl]
    exact h
  | some name =>
    by_cases hs : name = [] ∨ name = ['.'] ∨ name = ['.','.']
    · simp only [lstat,hl,if_pos hs]
      exact h
    · have hname : IsPlain name := ⟨fun h => hs (.inl h),fun h => hs (.inr (.inl h)),fun h => hs (.inr (.inr h))⟩
      have hpath : path.dropLast ++ [name] = path := dropLast_append_getLast? name hl
      have heq : lstat fs path = (walk fs true maxLinks [] path.dropLast).bind fun q =>
          (node fs (q.2 ++ [name])).bind fun nd => some (q.2 ++ [name],nd) := by
        simp only [lstat,hl,if_neg hs]
        rfl
      obtain ⟨⟨m,p'⟩,hw,h⟩ := Option.bind_eq_some_iff.1 h
      obtain ⟨nd,hnode,h⟩ := Option.bind_eq_some_iff.1 h
      cases h
      rw [← hpath] at hw
      obtain ⟨k,q,hq,hst,-⟩ := exists_walk_of_append rfl hw
      have hn : ∀ t, node fs (q ++ [name]) ≠ some (.link t) := fun t ht =>
        hli (q ++ [name]) t (by rw [heq,hq,Option.bind_some,ht]; rfl)
      have he := walk_of_cons hname hn hst
      rw [walk_nil] at he
      cases he
      rw [heq,hq,Option.bind_some,hnode]
      rfl

end

def steps (path : List Str) : List Str := path.filter fun name => name ≠ [] ∧ name ≠ ['.']

variable {name : Str} {l : List Str} {fs : Fs} {n : ℕ}

theorem steps_cons_skip (hname : name = [] ∨ name = ['.']) (l : List Str) : steps (name :: l) = steps l := by
  rcases hname with rfl | rfl <;> rfl
theorem steps_cons_keep (hname : ¬(name = [] ∨ name = ['.'])) (l : List Str) : steps (name :: l) = name :: steps l :=
  filter_cons_of_pos (by simpa using not_or.1 hname)
theorem steps_append (l l' : List Str) : steps (l ++ l') = steps l ++ steps l' := filter_append _ _
theorem steps_of_forall (h : ∀ name ∈ l, name ≠ [] ∧ name ≠ ['.']) : steps l = l :=
  filter_eq_self.2 fun name hname => by simpa using h name hname
theorem ne_of_mem_steps (h : name ∈ steps l) : name ≠ [] ∧ name ≠ ['.'] := by
  simpa using (mem_filter.1 h).2

inductive Skims : List Str → List Str → Prop
  | nil : Skims [] []
  | keep {l l' : List Str} (name : Str) (h : Skims l l') : Skims (name :: l) (name :: l')
  | drop {l l' : List Str} {name : Str} (hname : name = [] ∨ name = ['.']) (h : Skims l l') : Skims (name :: l) l'

theorem Skims.append_left {l' : List Str} (h : Skims l l') (l₀ : List Str) : Skims (l₀ ++ l) (l₀ ++ l') := by
  induction l₀ with
  | nil => exact h
  | cons name l₀ ih => exact .keep name ih

theorem skims_steps (l : List Str) : Skims l (steps l) := by
  induction l with
  | nil => exact .nil
  | cons name l ih =>
    by_cases hname : name = [] ∨ name = ['.']
    · rw [steps_cons_skip hname]
      exact .drop hname ih
    · rw [steps_cons_keep hname]
      exact .keep name ih

theorem Skims.eq_nil (h : Skims [] l) : l = [] := by
  cases h
  rfl

theorem Skims.of_nil (h : Skims l []) : ∀ x ∈ l, x = [] ∨ x = ['.'] := by
  induction l with
  | nil => simp
  | cons x l ih =>
    cases h with
    | drop hx h => exact forall_mem_cons.2 ⟨hx,ih h⟩

theorem Skims.of_cons {l' : List Str} (h : Skims l (name :: l')) :
    ∃ l₁ l₂, l = l₁ ++ name :: l₂ ∧ (∀ x ∈ l₁, x = [] ∨ x = ['.']) ∧ Skims l₂ l' := by
  generalize hl : name :: l' = full at h
  induction h with
  | nil => cases hl
  | keep _ h =>
    cases hl
    exact ⟨[],_,rfl,by simp,h⟩
  | @drop _ _ x hx _ ih =>
    obtain ⟨l₁,l₂,rfl,hs,h⟩ := ih hl
    exact ⟨x :: l₁,l₂,rfl,forall_mem_cons.2 ⟨hx,hs⟩,h⟩

section
variable {fs : Fs} {n : ℕ} {cwd : Path} {l l' : List Str}

theorem walk_skips (h : ∀ x ∈ l, x = [] ∨ x = ['.']) (rest : List Str) :
    walk fs true n cwd (l ++ rest) = walk fs true n cwd rest := by
  induction l with
  | nil => rfl
  | cons x l ih =>
    obtain ⟨hx,hl⟩ := forall_mem_cons.1 h
    rw [cons_append,walk_skip hx,ih hl]

theorem walk_skims {r : ℕ × Path} (h : walk fs true n cwd l = some r) (hs : Skims l l') :
    walk fs true n cwd l' = some r := by
  induction goes_of_walk h generalizing l' with
  | nil => rw [hs.eq_nil,walk_nil]
  | skip hname hrest ih =>
    cases hs with
    | keep _ hs => rw [walk_skip hname,ih hrest.walk_eq hs]
    | drop _ hs => exact ih hrest.walk_eq hs
  | up hrest ih =>
    cases hs with
    | keep _ hs => rw [walk_up,ih hrest.walk_eq hs]
    | drop hsk _ => exact absurd hsk (by decide)
  | link hname hnode hrest ih =>
    cases hs with
    | keep _ hs => rw [walk_link hname hnode,ih hrest.walk_eq (hs.append_left _)]
    | drop hsk _ => exact absurd hsk hname.not_skip
  | dir hname hnode hrest ih =>
    cases hs with
    | keep _ hs => rw [walk_dir hname hnode,ih hrest.walk_eq hs]
    | drop hsk _ => exact absurd hsk hname.not_skip
  | file hname hnode =>
    cases hs with
    | keep _ hs => rw [hs.eq_nil,walk_file hname hnode]
    | drop hsk _ => exact absurd hsk hname.not_skip

/-- The names that were left out lead nowhere; only a file must be the last one. -/
theorem walk_of_skims {r : ℕ × Path} (h : walk fs true n cwd l' = some r) (hr : node fs r.2 = some .dir)
    (hs : Skims l l') : walk fs true n cwd l = some r := by
  induction goes_of_walk h generalizing l with
  | nil n cwd => rw [← append_nil l,walk_skips hs.of_nil,walk_nil]
  | skip hname hrest ih =>
    obtain ⟨l₁,l₂,rfl,hsk,hs⟩ := hs.of_cons
    rw [walk_skips hsk,walk_skip hname,ih hrest.walk_eq hr hs]
  | up hrest ih =>
    obtain ⟨l₁,l₂,rfl,hsk,hs⟩ := hs.of_cons
    rw [walk_skips hsk,walk_up,ih hrest.walk_eq hr hs]
  | link hname hnode hrest ih =>
    obtain ⟨l₁,l₂,rfl,hsk,hs⟩ := hs.of_cons
    rw [walk_skips hsk,walk_link hname hnode,ih hrest.walk_eq hr (hs.append_left _)]
  | dir hname hnode hrest ih =>
    obtain ⟨l₁,l₂,rfl,hsk,hs⟩ := hs.of_cons
    rw [walk_skips hsk,walk_dir hname hnode,ih hrest.walk_eq hr hs]
  | file hname hnode => cases hnode.symm.trans hr

end

def visit (cwd : Path) (l : List Str) : Path :=
  l.foldl (fun p name => if name = ['.','.'] then p.dropLast else p ++ [name]) cwd
theorem visit_cons_up (cwd : Path) (l : List Str) : visit cwd (['.','.'] :: l) = visit cwd.dropLast l := rfl
theorem visit_cons (hname : name ≠ ['.','.']) (cwd : Path) (l : List Str) :
    visit cwd (name :: l) = visit (cwd ++ [name]) l := by
  simp [visit,hname]
theorem visit_concat (cwd : Path) (l : List Str) (name : Str) :
    visit cwd (l ++ [name]) = if name = ['.','.'] then (visit cwd l).dropLast else visit cwd l ++ [name] :=
  foldl_concat _ _ _ _

theorem visit_of_forall (h : ∀ name ∈ l, name ≠ ['.','.']) (cwd : Path) : visit cwd l = cwd ++ l := by
  induction l generalizing cwd with
  | nil => simp [visit]
  | cons name l ih =>
    obtain ⟨hname,hl⟩ := forall_mem_cons.1 h
    rw [visit_cons hname,ih hl,append_assoc]
    rfl

theorem walk_visit {cwd : Path} (hl : ∀ name ∈ l, name ≠ [] ∧ name ≠ ['.'])
    (h : ∀ l', l' <+: l → node fs (visit cwd l') = some .dir) : walk fs true n cwd l = some (n,visit cwd l) := by
  induction l generalizing cwd with
  | nil => exact walk_nil
  | cons name l ih =>
    obtain ⟨hname,hrest⟩ := forall_mem_cons.1 hl
    by_cases hup : name = ['.','.']
    · subst hup
      rw [walk_up,visit_cons_up]
      exact ih hrest fun l' hl' => h (['.','.'] :: l') (cons_prefix_cons.2 ⟨rfl,hl'⟩)
    · have hnode : node fs (cwd ++ [name]) = some .dir := by
        have hfirst := h [name] (cons_prefix_cons.2 ⟨rfl, nil_prefix⟩)
        rwa [visit_cons hup] at hfirst
      rw [walk_dir ⟨hname.1,hname.2,hup⟩ hnode,visit_cons hup]
      refine ih hrest fun l' hl' => ?_
      have hn := h (name :: l') (cons_prefix_cons.2 ⟨rfl,hl'⟩)
      rwa [visit_cons hup] at hn

theorem walk_of_dirs (hl : ∀ name ∈ l, IsPlain name) (h : ∀ l', l' <+: l → node fs l' = some .dir) :
    walk fs true n [] l = some (n,l) := by
  have hp : ∀ l', l' <+: l → visit [] l' = l' :=
    fun l' hl' => visit_of_forall (fun name hname => (hl name (hl'.subset hname)).2.2) []
  have hw : walk fs true n [] l = some (n,visit [] l) := by
    refine walk_visit (fun name hname => ⟨(hl name hname).1,(hl name hname).2.1⟩) fun l' hl' => ?_
    rw [hp l' hl']
    exact h l' hl'
  rwa [hp l prefix_rfl] at hw

def stays : ℕ → List Str → Bool
  | _, [] => true
  | d, name :: l =>
    if name = ['.','.'] then
      match d with
      | 0 => false
      | d + 1 => stays d l
    else stays (d + 1) l

theorem stays_cons (hname : name ≠ ['.','.']) (d : ℕ) (l : List Str) : stays d (name :: l) = stays (d + 1) l := by
  rw [stays.eq_def]
  exact if_neg hname

/-- Without links, names that go up no more often than down stay below the directory. -/
theorem walk_stays {strict : Bool} {dir e : Path} {r : ℕ × Path}
    (hli : ∀ p t, dir <+: p → node fs p ≠ some (.link t)) (hl : stays e.length (steps l) = true)
    (h : walk fs strict n (dir ++ e) l = some r) : r.1 = n ∧ dir <+: r.2 := by
  induction l generalizing e with
  | nil =>
    rw [walk_nil] at h
    cases h
    exact ⟨rfl,prefix_append _ _⟩
  | cons name l ih =>
    by_cases hs : name = [] ∨ name = ['.']
    · rw [steps_cons_skip hs] at hl
      rw [walk_skip hs] at h
      exact ih hl h
    · rw [steps_cons_keep hs] at hl
      by_cases hup : name = ['.','.']
      · subst hup
        rw [walk_up] at h
        rcases eq_nil_or_concat e with rfl | ⟨e',last,rfl⟩
        · cases hl
        · rw [concat_eq_append] at hl h
          rw [← append_assoc,dropLast_concat] at h
          rw [length_append] at hl
          exact ih hl h
      · rw [stays_cons hup] at hl
        have hp : IsPlain name := isPlain_of hs hup
        have hla : stays (e ++ [name]).length (steps l) = true := by
          rw [length_append]
          exact hl
        have hbelow : dir <+: dir ++ e ++ [name] := by
          rw [append_assoc]
          exact prefix_append _ _
        have hw : walk fs strict n (dir ++ (e ++ [name])) l = some r := by
          rw [← append_assoc]
          exact walk_of_cons hp (fun t => hli _ t hbelow) h
        exact ih hla hw

theorem stays_concat (e : Path) (l : List Str) (name : Str) :
    stays e.length (l ++ [name]) = true ↔ stays e.length l = true ∧ (name = ['.','.'] → visit e l ≠ []) := by
  induction l generalizing e with
  | nil =>
    by_cases hup : name = ['.','.']
    · subst hup
      cases e <;> simp [stays,visit]
    · rw [nil_append,stays_cons hup]
      simp [stays,hup]
  | cons first l ih =>
    rw [cons_append]
    by_cases hup : first = ['.','.']
    · subst hup
      rw [visit_cons_up]
      rcases eq_nil_or_concat e with rfl | ⟨e',last,rfl⟩
      · simp [stays]
      · rw [concat_eq_append,dropLast_concat,length_append]
        exact ih e'
    · have hn := ih (e ++ [first])
      rw [length_append] at hn
      rw [stays_cons hup,stays_cons hup,visit_cons hup]
      exact hn

theorem visit_of_stays {e : Path} (h : stays e.length l = true) (dir : Path) :
    visit (dir ++ e) l = dir ++ visit e l := by
  induction l generalizing e with
  | nil => rfl
  | cons name l ih =>
    by_cases hup : name = ['.','.']
    · subst hup
      rcases eq_nil_or_concat e with rfl | ⟨e',last,rfl⟩
      · cases h
      · rw [concat_eq_append,length_append] at h
        rw [visit_cons_up,visit_cons_up,concat_eq_append,← append_assoc,dropLast_concat,dropLast_concat]
        exact ih h
    · rw [stays_cons hup,← length_concat (a := name),concat_eq_append] at h
      rw [visit_cons hup,visit_cons hup,append_assoc]
      exact ih h

theorem prefix_visit {dir e : Path} (h : l.length ≤ e.length) : dir <+: visit (dir ++ e) l := by
  induction l generalizing e with
  | nil => exact prefix_append _ _
  | cons name l ih =>
    rw [length_cons] at h
    by_cases hup : name = ['.','.']
    · subst hup
      have hne : e ≠ [] := ne_nil_of_length_pos (by omega)
      rw [visit_cons_up,dropLast_append_of_ne_nil hne]
      exact ih (by rw [length_dropLast]; omega)
    · rw [visit_cons hup,append_assoc]
      exact ih (by rw [length_append]; omega)

def IsFree (fs : Fs) (p : Path) : Prop := p ≠ [] ∧ node fs p.dropLast = some .dir ∧ node fs p = none

instance (fs : Fs) (p : Path) : Decidable (IsFree fs p) := inferInstanceAs (Decidable (_ ∧ _))

variable {p : Path} {ps : List Path}

theorem not_prefix_dropLast (hp : p ≠ []) : ¬p <+: p.dropLast := by
  intro hbelow
  have hl := hbelow.length_le
  have hpo := length_pos_iff.2 hp
  rw [length_dropLast] at hl
  omega

theorem dropLast_ne_self (hp : p ≠ []) : p.dropLast ≠ p := fun heq =>
  not_prefix_dropLast hp (by rw [heq])

theorem closed_set (h : IsFree fs p) (nd : Node) :
    ∀ e ∈ (fs.nodes.set p nd).entries, e.1.dropLast = [] ∨ (fs.nodes.set p nd).get e.1.dropLast = some .dir := by
  obtain ⟨hp,hpa,hnone⟩ := h
  rw [node,if_neg hp] at hnone
  rintro ⟨q,nd'⟩ he
  have hg := mem_entries_iff.1 he
  rw [get_set] at hg ⊢
  split_ifs at hg with hq
  · subst hq
    rw [if_neg (dropLast_ne_self hp)]
    unfold node at hpa
    split_ifs at hpa with hr
    · exact .inl hr
    · exact .inr hpa
  · refine (fs.closed _ (mem_entries_iff.2 hg)).imp id fun hdir => ?_
    rw [if_neg]
    · exact hdir
    · intro heq
      rw [heq,hnone] at hdir
      cases hdir

def add (fs : Fs) (p : Path) (nd : Node) : Fs := if h : IsFree fs p then ⟨fs.nodes.set p nd,closed_set h nd⟩ else fs

theorem node_add (h : IsFree fs p) (nd : Node) (q : Path) :
    node (add fs p nd) q = if q = p then some nd else node fs q := by
  rw [add,dif_pos h]
  unfold node
  by_cases hq : q = []
  · rw [if_pos hq,if_pos hq,if_neg]
    rintro rfl
    exact h.1 hq
  · rw [if_neg hq,if_neg hq]
    exact get_set _ _ _ _

def Grows (fs fs' : Fs) : Prop := ∀ p nd, node fs p = some nd → node fs' p = some nd

theorem grows_add (fs : Fs) (p : Path) (nd : Node) : Grows fs (add fs p nd) := by
  intro q nd' hq
  by_cases h : IsFree fs p
  · rw [node_add h,if_neg]
    · exact hq
    · rintro rfl
      cases h.2.2.symm.trans hq
  · have hs : add fs p nd = fs := dif_neg h
    rwa [hs]

theorem Grows.walk {fs' : Fs} (hg : Grows fs fs') {cwd : Path} {r : ℕ × Path}
    (h : walk fs true n cwd l = some r) : walk fs' true n cwd l = some r := by
  induction goes_of_walk h with
  | nil => exact walk_nil
  | skip hname hrest ih => rw [walk_skip hname,ih hrest.walk_eq]
  | up hrest ih => rw [walk_up,ih hrest.walk_eq]
  | link hname hnode hrest ih => rw [walk_link hname (hg _ _ hnode),ih hrest.walk_eq]
  | dir hname hnode hrest ih => rw [walk_dir hname (hg _ _ hnode),ih hrest.walk_eq]
  | file hname hnode => exact walk_file hname (hg _ _ hnode)

def dirsOf (ps : List Path) : List (Path × Node) := ((ps.flatMap inits).filter (· ≠ [])).dedup.map (·,.dir)

theorem mem_dirsOf {e : Path × Node} : e ∈ dirsOf ps ↔ (∃ q ∈ ps, e.1 <+: q) ∧ e.1 ≠ [] ∧ e.2 = .dir := by
  obtain ⟨p,nd⟩ := e
  simp only [dirsOf,mem_map,mem_dedup,mem_filter,mem_flatMap,mem_inits,decide_eq_true_eq,Prod.mk.injEq]
  constructor
  · rintro ⟨p',⟨hp,hne⟩,rfl,rfl⟩
    exact ⟨hp,hne,rfl⟩
  · rintro ⟨hp,hne,rfl⟩
    exact ⟨p,⟨hp,hne⟩,rfl,rfl⟩

theorem nodup_dirsOf (ps : List Path) : ((dirsOf ps).map Prod.fst).Nodup := by
  rw [dirsOf,map_map]
  exact (nodup_dedup _).map fun _ _ h => h

theorem closed_dirsOf (ps : List Path) : ∀ e ∈ dirsOf ps, e.1.dropLast = [] ∨
    (⟨dirsOf ps,nodup_dirsOf ps⟩ : Dict Path Node).get e.1.dropLast = some .dir := by
  intro e he
  obtain ⟨⟨q,hq,hbelow⟩,_,_⟩ := mem_dirsOf.1 he
  rw [or_iff_not_imp_left]
  intro hne
  exact mem_entries_iff.1 (mem_dirsOf.2 ⟨⟨q,hq,( dropLast_prefix _).trans hbelow⟩,hne,rfl⟩)

def ofDirs (ps : List Path) : Fs := ⟨⟨dirsOf ps,nodup_dirsOf ps⟩,closed_dirsOf ps⟩

theorem node_ofDirs {q : Path} (hq : q ∈ ps) (hp : p <+: q) : node (ofDirs ps) p = some .dir := by
  unfold node
  split_ifs with hr
  · rfl
  · exact mem_entries_iff.1 (mem_dirsOf.2 ⟨⟨q,hq,hp⟩,hr,rfl⟩)

theorem of_node_ofDirs {nd : Node} (h : node (ofDirs ps) p = some nd) :
    nd = .dir ∧ (p = [] ∨ ∃ q ∈ ps, p <+: q) := by
  unfold node at h
  split_ifs at h with hr
  · cases h
    exact ⟨rfl,.inl hr⟩
  · obtain ⟨hq,_,rfl⟩ := mem_dirsOf.1 (mem_of_get h)
    exact ⟨rfl,.inr hq⟩

theorem node_ofDirs_eq_none (hr : p ≠ []) (h : ∀ q ∈ ps, ¬p <+: q) : node (ofDirs ps) p = none := by
  rw [Option.eq_none_iff_forall_ne_some]
  intro nd hnode
  obtain ⟨q,hq,hbelow⟩ := (of_node_ofDirs hnode).2.resolve_left hr
  exact h q hq hbelow

end Padsi.FileTree
