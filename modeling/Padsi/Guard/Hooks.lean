import Padsi.Guard.Paths

/-! # Hooks of the data access guard

The test on the network namespace reads the task at which the walk over the ancestors
has stopped. The hook on deletions only gets the directory of the file.
-/
namespace Padsi.Guard
open List

variable {T P N : Type}

structure TaskMemory (T P N : Type) where
  realParent : T → Option T
  tgid : T → Option Int32
  nsproxy : T → Option P
  netNs : P → Option N
  inum : N → Option UInt32

structure Config where
  padsiPid : Option UInt64
  initNetns : Option UInt64

def getPpid (mem : TaskMemory T P N) (task : T) : Except ℤ (Int32 × T) :=
  match mem.realParent task with
  | none => .error (-1)
  | some ptask =>
    match mem.tgid ptask with
    | none => .error (-1)
    | some tgid => .ok (tgid,ptask)

def getNetNs (mem : TaskMemory T P N) (task : T) : Except ℤ UInt64 :=
  match mem.nsproxy task with
  | none => .error (-1)
  | some nsproxy =>
    match mem.netNs nsproxy with
    | none => .error (-1)
    | some ns =>
      match mem.inum ns with
      | none => .error (-1)
      | some inum => .ok inum.toUInt64

def climb (mem : TaskMemory T P N) (expPpid : UInt64) : ℕ → T → Except ℤ (Option T)
  | 0, task => .ok (some task)
  | levels + 1, task =>
    match getPpid mem task with
    | .error e => .error e
    | .ok (ppid,ptask) => if ppid.toUInt32 = expPpid.toUInt32 then .ok none else climb mem expPpid levels ptask

def mustBlockOnPid (mem : TaskMemory T P N) (config : Config) (task : Option T) : Except ℤ Bool :=
  match task with
  | none => .error (-1)
  | some task =>
    match config.padsiPid with
    | none => .error (-1)
    | some expPpid =>
      match climb mem expPpid 5 task with
      | .error e => .error e
      | .ok none => .ok false
      -- the task is no longer the current one
      | .ok (some task) =>
        match getNetNs mem task with
        | .error e => .error e
        | .ok netNs =>
          match config.initNetns with
          | none => .error (-1)
          | some initNetNs => if netNs ≠ initNetNs then .ok false else .ok true

structure ProcessTree (T : Type) where
  parent : T → T
  tgid : T → Int32
  netNs : T → UInt32

section
variable (tree : ProcessTree T) (service : Int32) (host : UInt32)

def ProcessTree.memory : TaskMemory T T T :=
  ⟨fun t => some (tree.parent t),fun t => some (tree.tgid t),some,some,fun t => some (tree.netNs t)⟩

def Config.written : Config := ⟨some service.toInt64.toUInt64,some host.toUInt64⟩

section
variable (levels : ℕ) (task : T)

/-- One of the nearest ancestors of the task is the service. -/
def ProcessTree.Descends : Prop := ∃ n, 1 ≤ n ∧ n ≤ levels ∧ tree.tgid (tree.parent^[n] task) = service

/-- The task is in another network namespace than the host. -/
def ProcessTree.Outside : Prop := tree.netNs task ≠ host

theorem toUInt32_eq_iff (x : Int32) : x.toUInt32 = service.toInt64.toUInt64.toUInt32 ↔ x = service := by
  have ht : service.toInt64.toUInt64.toUInt32 = service.toUInt32 := by
    rw [← UInt32.toBitVec_inj]
    ext i hi
    have hlt : i < 64 := by omega
    simp [BitVec.getElem_signExtend,hi,hlt]
  rw [ht]
  cases x
  cases service
  simp

theorem toUInt64_eq_iff (x y : UInt32) : x.toUInt64 = y.toUInt64 ↔ x = y := by
  rw [← UInt64.toNat_inj,← UInt32.toNat_inj,UInt32.toNat_toUInt64,UInt32.toNat_toUInt64]

theorem descends_succ : tree.Descends service (levels + 1) task ↔
      tree.tgid (tree.parent task) = service ∨ tree.Descends service levels (tree.parent task) := by
  constructor
  · rintro ⟨n,hn,hle,hp⟩
    obtain ⟨n,rfl⟩ := Nat.exists_eq_add_of_le' hn
    rw [Function.iterate_succ_apply] at hp
    rcases Nat.eq_zero_or_pos n with rfl | hpo
    · exact .inl hp
    · exact .inr ⟨n,hpo,by omega,hp⟩
  · rintro (hp | ⟨n,hn,hle,hp⟩)
    · exact ⟨1,le_rfl,by omega,hp⟩
    · refine ⟨n + 1,by omega,by omega,?_⟩
      rwa [Function.iterate_succ_apply]

theorem climb_memory [Decidable (tree.Descends service levels task)] :
    climb tree.memory service.toInt64.toUInt64 levels task =
      .ok (if tree.Descends service levels task then none else some (tree.parent^[levels] task)) := by
  induction levels generalizing task with
  | zero => rw [if_neg fun ⟨n,hn,hle,_⟩ => by omega]; rfl
  | succ levels ih =>
    have hs : climb tree.memory service.toInt64.toUInt64 (levels + 1) task =
        if (tree.tgid (tree.parent task)).toUInt32 = service.toInt64.toUInt64.toUInt32 then .ok none
        else climb tree.memory service.toInt64.toUInt64 levels (tree.parent task) :=
      rfl
    rw [hs]
    by_cases hp : tree.tgid (tree.parent task) = service
    · rw [if_pos ((toUInt32_eq_iff service _).2 hp),if_pos ((descends_succ tree service levels task).2 (.inl hp))]
    · classical
      rw [if_neg (mt (toUInt32_eq_iff service _).1 hp),ih,Function.iterate_succ_apply]
      simp only [descends_succ,hp,false_or]

theorem mustBlockOnPid_eq_false_iff : mustBlockOnPid tree.memory (.written service host) (some task) = .ok false ↔
      tree.Descends service 5 task ∨ tree.Outside host (tree.parent^[5] task) := by
  classical
  have hns : ∀ t, getNetNs tree.memory t = .ok (tree.netNs t).toUInt64 := fun _ => rfl
  unfold mustBlockOnPid Config.written ProcessTree.Outside
  simp only [climb_memory]
  by_cases hd : tree.Descends service 5 task
  · simp only [hd,if_true,true_or]
  · simp only [hd,if_false,hns,false_or,ne_eq,toUInt64_eq_iff]
    split
    · rename_i hne
      exact ⟨fun _ => hne,fun _ => rfl⟩
    · rename_i heq
      exact ⟨nofun,fun hne => absurd hne heq⟩

theorem mustBlockOnPid_eq_true_iff : mustBlockOnPid tree.memory (.written service host) (some task) = .ok true ↔
      ¬ mustBlockOnPid tree.memory (.written service host) (some task) = .ok false := by
  classical
  have hns : ∀ t, getNetNs tree.memory t = .ok (tree.netNs t).toUInt64 := fun _ => rfl
  unfold mustBlockOnPid Config.written
  simp only [climb_memory,hns]
  by_cases hd : tree.Descends service 5 task
  · simp [hd]
  · simp only [hd,if_false]
    split
    · simp
    · simp

end

/-- The verdict follows the namespace of the task if and only if it descends from the service, or
its fifth ancestor is outside of the host just when it is. -/
theorem mustBlockOnPid_right_iff (task : T) :
    (mustBlockOnPid tree.memory (.written service host) (some task) = .ok false ↔
        tree.Descends service 5 task ∨ tree.Outside host task) ↔
      tree.Descends service 5 task ∨ (tree.Outside host (tree.parent^[5] task) ↔ tree.Outside host task) := by
  rw [mustBlockOnPid_eq_false_iff]
  tauto

end

def lineTree (apart : ℕ) : ProcessTree ℕ := ⟨Nat.pred,fun t => Int32.ofNat (t + 1),fun t => if t = apart then 7 else 1⟩

/-- A task in a zone is blocked, and a task of the host whose fifth ancestor is in a zone is not. -/
theorem fifth_ancestor_decides :
    ((lineTree 6).Outside 1 6 ∧ mustBlockOnPid (lineTree 6).memory (.written 100 1) (some 6) = .ok true) ∧
      ¬ (lineTree 1).Outside 1 6 ∧ ¬ (lineTree 1).Descends 100 5 6 ∧
        mustBlockOnPid (lineTree 1).memory (.written 100 1) (some 6) = .ok false := by
  refine ⟨⟨?_,rfl⟩,?_,?_,rfl⟩
  · unfold ProcessTree.Outside
    decide
  · unfold ProcessTree.Outside
    decide
  · rintro ⟨n,hn,hle,hp⟩
    interval_cases n <;> exact absurd hp (by decide)

variable {D M : Type}

structure Caller (T P N : Type) where
  uid : UInt32
  task : Option T
  mem : TaskMemory T P N
  config : Config

def Caller.mustBlock (c : Caller T P N) : Except ℤ Bool := mustBlockOnPid c.mem c.config c.task

/-- `bpf_d_path`, with a buffer of 4096 bytes; `-36` is `ENAMETOOLONG`. -/
def dPath (names : List Name) : Except ℤ Name :=
  if (pathText names).length < 4096 then .ok (pathText names) else .error (-36)

-- the event that a blocked access sends does not change the verdict
def tryFileOpen [DecidableEq D] (v : Vfs D M) (c : Caller T P N) (file : Option (D × UInt32))
    (path : Except ℤ Name) : Except ℤ ℤ :=
  if c.uid < 1000 then .ok 0
  else
    match file with
    | none => .error (-1)
    | some (dentry,flags) =>
      match v.mayBlockFromPath dentry path with
      | .ok (false,_) => .ok 0
      | .ok (true,none) => .error (-1)
      | .error e => .error e
      | .ok (true,some path) =>
        if protectedLog.isPrefixOf path && flags &&& 3 == 0 then .ok 0
        else
          match c.mustBlock with
          | .ok false => .ok 0
          | .error e => .error e
          | .ok true => .error (-1)

def tryPathUnlink [DecidableEq D] (v : Vfs D M) (c : Caller T P N) (dir : Option D) (path : Except ℤ Name) :
    Except ℤ ℤ :=
  if c.uid < 1000 then .ok 0
  else
    match dir with
    | none => .error (-1)
    | some dir =>
      match v.mayBlockFromPath dir path with
      | .ok (false,_) => .ok 0
      | .ok (true,none) => .error (-1)
      | .error e => .error e
      | .ok (true,some _) =>
        match c.mustBlock with
        | .ok false => .ok 0
        | .error e => .error e
        | .ok true => .error (-1)

def answer : Except ℤ ℤ → ℤ
  | .ok _ => 0
  | .error ret => ret

def fileOpen [DecidableEq D] (v : Vfs D M) (c : Caller T P N) (file : Option (D × UInt32)) (path : Except ℤ Name) : ℤ :=
  answer (tryFileOpen v c file path)
def pathUnlink [DecidableEq D] (v : Vfs D M) (c : Caller T P N) (dir : Option D) (path : Except ℤ Name) : ℤ :=
  answer (tryPathUnlink v c dir path)

/-- The filter dismisses no protected file. -/
def Vfs.FilterSound [DecidableEq D] (v : Vfs D M) : Prop :=
  ∀ m d names, v.Renders m d names → isProtected (pathText names) = true → v.isPadsiSubdir d ≠ .ok false

section
variable [DecidableEq D] {v : Vfs D M} {c : Caller T P N} {m : M} {d : D} {names : List Name}

/-- Past the filter, the whole path decides. -/
theorem mayBlockFromPath_of_seen (hf : v.isPadsiSubdir d ≠ .ok false) (path : Except ℤ Name) :
    v.mayBlockFromPath d path = match path with
      | .error _ => .error (-1)
      | .ok path => if isProtected path then .ok (true,some path) else .ok (false,none) := by
  unfold Vfs.mayBlockFromPath
  cases hsu : v.isPadsiSubdir d with
  | error e => rfl
  | ok b =>
    cases b with
    | false => exact absurd hsu hf
    | true => rfl

theorem mayBlockFromPath_of_protected (hs : v.FilterSound) (hr : v.Renders m d names)
    (hp : isProtected (pathText names) = true) : v.mayBlockFromPath d (dPath names) =
      if (pathText names).length < 4096 then .ok (true,some (pathText names)) else .error (-1) := by
  rw [mayBlockFromPath_of_seen (hs m d names hr hp),dPath]
  by_cases hfi : (pathText names).length < 4096
  · simp [hp,hfi]
  · simp [hfi]

theorem mayBlockFromPath_of_not_protected (path : Name) (hp : isProtected path = false) :
    v.mayBlockFromPath d (.ok path) = .ok (false,none) := by
  unfold Vfs.mayBlockFromPath
  simp only [hp,Bool.false_eq_true,if_false,ite_self]

omit [DecidableEq D] in
/-- The directory of a protected file is protected too, unless it is one of the two directories themselves. -/
theorem isProtected_parent_iff (hr : v.Renders m d names) {name : Name} (hname : slash ∉ name)
    (hp : isProtected (pathText (names ++ [name])) = true) :
    isProtected (pathText names) = true ↔ names ∉ protectedDirs := by
  have hpl : ∀ n ∈ names ++ [name], slash ∉ n := by
    intro n hn
    rcases mem_append.1 hn with hn | hn
    · exact hr.plain n hn
    · rw [mem_singleton.1 hn]
      exact hname
  have hln : ∀ l ∈ protectedDirs, l.length = 3 := by decide
  obtain ⟨top,ht,rest,heq,hne⟩ := (isProtected_iff hpl).1 hp
  have hdir : names = top ++ rest.dropLast := by
    have hl := congrArg dropLast heq
    rwa [dropLast_concat, dropLast_append_of_ne_nil hne] at hl
  rw [isProtected_iff hr.plain]
  constructor
  · rintro ⟨top',ht',rest',he',hn'⟩ hmem
    have hle := congrArg length he'
    rw [hln _ hmem,length_append,hln _ ht'] at hle
    exact hn' (length_eq_zero_iff.1 (by omega))
  · intro hnot
    refine ⟨top,ht,rest.dropLast,hdir,fun hni => hnot ?_⟩
    rw [hdir,hni,append_nil]
    exact ht

/-- The removal of a protected file is denied if and only if its directory is not one of the two
directories themselves. -/
theorem pathUnlink_denies_iff (hsound : v.FilterSound) (huid : 1000 ≤ c.uid) (hblock : c.mustBlock = .ok true)
    (hrenders : v.Renders m d names) {name : Name} (hname : slash ∉ name)
    (hprotected : isProtected (pathText (names ++ [name])) = true) :
    pathUnlink v c (some d) (dPath names) = -1 ↔ names ∉ protectedDirs := by
  rw [← isProtected_parent_iff hrenders hname hprotected]
  unfold pathUnlink tryPathUnlink
  rw [if_neg (UInt32.not_lt.2 huid)]
  by_cases hdir : isProtected (pathText names) = true
  · have hm := mayBlockFromPath_of_protected hsound hrenders hdir
    -- a path that is too long is an error of the hook
    by_cases hf : (pathText names).length < 4096
    · rw [if_pos hf] at hm
      simp only [hm,hblock,hdir,iff_true]
      rfl
    · rw [if_neg hf] at hm
      simp only [hm,hdir,iff_true]
      rfl
  · have hmem : names ∈ protectedDirs := by
      by_contra hnot
      exact hdir ((isProtected_parent_iff hrenders hname hprotected).2 hnot)
    have hf : ∀ l ∈ protectedDirs, (pathText l).length < 4096 := by decide
    have hm := mayBlockFromPath_of_not_protected (v := v) (d := d) (pathText names) (Bool.eq_false_of_not_eq_true hdir)
    have hpath : dPath names = .ok (pathText names) := if_pos (hf names hmem)
    rw [hpath]
    simp only [hm,hdir]
    exact ⟨nofun,nofun⟩

/-- A user is denied a file that the filter sees if its path is too long, or if it is protected and
not a log opened for reading, and the process neither descends from the service nor has a fifth
ancestor in a zone. -/
theorem fileOpen_denies_iff (tree : ProcessTree T) (service : Int32) (host uid flags : UInt32) (task : T)
    (hrenders : v.Renders m d names) :
    fileOpen v ⟨uid,some task,tree.memory,.written service host⟩ (some (d,flags)) (dPath names) = -1 ↔
      1000 ≤ uid ∧ v.SeesPadsi d ∧ (4096 ≤ (pathText names).length ∨
        (∃ top ∈ protectedDirs, ∃ rest, names = top ++ rest ∧ rest ≠ []) ∧
          ((∃ rest, names = logDir ++ rest ∧ rest ≠ []) → flags &&& 3 ≠ 0) ∧
          ¬ tree.Descends service 5 task ∧ ¬ tree.Outside host (tree.parent^[5] task)) := by
  rw [← isProtected_iff hrenders.plain,← isPrefixOf_log_iff hrenders.plain,← not_or,
    ← mustBlockOnPid_eq_false_iff,← isPadsiSubdir_ne_false_iff]
  unfold fileOpen tryFileOpen
  by_cases hu : uid < 1000
  · rw [if_pos hu]
    exact iff_of_false nofun fun h => absurd hu (UInt32.not_lt.2 h.1)
  · rw [if_neg hu]
    by_cases hf : v.isPadsiSubdir d = .ok false
    · have hm : v.mayBlockFromPath d (dPath names) = .ok (false,none) := by
        unfold Vfs.mayBlockFromPath
        rw [hf]
        rfl
      simp only [hm]
      exact iff_of_false nofun fun h => h.2.1 hf
    · have hleft : 1000 ≤ uid := UInt32.not_lt.1 hu
      simp only [mayBlockFromPath_of_seen hf,dPath,hleft,hf,ne_eq,not_false_eq_true,true_and]
      by_cases hfit : (pathText names).length < 4096
      · simp only [hfit,if_true,Nat.not_le.2 hfit,false_or]
        by_cases hp : isProtected (pathText names) = true
        · simp only [hp,if_true,true_and]
          by_cases hl : protectedLog.isPrefixOf (pathText names) = true ∧ flags &&& 3 = 0
          · rw [if_pos (by simpa using hl)]
            exact iff_of_false nofun fun h => h.1 hl.1 hl.2
          · rw [if_neg (by simpa using hl)]
            have hlog : protectedLog.isPrefixOf (pathText names) = true → ¬ flags &&& 3 = 0 := not_and.1 hl
            by_cases hb : mustBlockOnPid tree.memory (.written service host) (some task) = .ok false
            · simp [Caller.mustBlock,hb,answer]
            · simp only [Caller.mustBlock,(mustBlockOnPid_eq_true_iff tree service host task).2 hb]
              exact iff_of_true rfl ⟨hlog,nofun⟩
        · simp [hp,answer]
      · simp only [hfit,if_false,Nat.not_lt.1 hfit,true_or,iff_true]
        rfl

end

def lineVfs : Vfs ℕ Unit where
  name d := [ascii "/",ascii "run",ascii "padsi",ascii "user"].getD d (ascii "a")
  parent := Nat.pred
  mntRoot _ := 0
  mntPoint _ := 0
  mntParent := id
  readable _ := true
  plain d h := by
    match d with
    | 0 => exact absurd rfl h
    | 1 | 2 | 3 => decide
    | _ + 4 => exact (by decide : slash ∉ ascii "a")

theorem filterSound_lineVfs : lineVfs.FilterSound := by
  intro m d names hr hp
  refine (isPadsiSubdir_ne_false_iff d).2 (seesPadsi_of_mounted_above hr hp rfl fun outer ho => ?_)
  cases ho with
  | root _ => exact Nat.zero_le 1
  | cross hm _ => exact absurd rfl hm
  | entry hne _ _ => exact absurd rfl hne

theorem renders_lineVfs : lineVfs.Renders () 3 [ascii "run",ascii "padsi",ascii "user"] := by
  have hr : lineVfs.Renders () 1 ([] ++ [ascii "run"]) := .entry nofun nofun (.root rfl)
  have hp : lineVfs.Renders () 2 ([ascii "run"] ++ [ascii "padsi"]) := .entry nofun nofun hr
  have hu : lineVfs.Renders () 3 ([ascii "run",ascii "padsi"] ++ [ascii "user"]) := .entry nofun nofun hp
  exact hu

theorem renders_lineVfs_below : lineVfs.Renders () 4 [ascii "run",ascii "padsi",ascii "user",ascii "a"] := by
  have hbelow : lineVfs.Renders () 4 ([ascii "run",ascii "padsi",ascii "user"] ++ [ascii "a"]) :=
    .entry nofun nofun renders_lineVfs
  exact hbelow

def shell : Caller ℕ ℕ ℕ := ⟨1000,some 6,(lineTree 9).memory,.written 100 1⟩

/-- A shell is denied a file of the user; the same program started by the service is not. -/
theorem fileOpen_below :
    fileOpen lineVfs ⟨1000,some 6,(lineTree 9).memory,.written 100 1⟩ (some (4,0))
        (dPath [ascii "run",ascii "padsi",ascii "user",ascii "a"]) = -1 ∧
      fileOpen lineVfs ⟨1000,some 6,(lineTree 9).memory,.written 4 1⟩ (some (4,0))
        (dPath [ascii "run",ascii "padsi",ascii "user",ascii "a"]) ≠ -1 := by
  have hs : lineVfs.SeesPadsi 4 := (isPadsiSubdir_ne_false_iff 4).1 (by decide)
  refine ⟨(fileOpen_denies_iff (lineTree 9) 100 1 1000 0 6 renders_lineVfs_below).2 ?_,fun h => ?_⟩
  · refine ⟨by decide,hs,.inr ⟨⟨_,mem_cons_self,[ascii "a"],rfl,by simp⟩,?_,?_,?_⟩⟩
    · rintro ⟨rest,hr,_⟩
      exact absurd (cons.inj hr).1 (by decide)
    · rintro ⟨n,hn,hle,hp⟩
      interval_cases n <;> exact absurd hp (by decide)
    · unfold ProcessTree.Outside
      decide
  · obtain ⟨_,_,hlong | ⟨_,_,hd,_⟩⟩ := (fileOpen_denies_iff (lineTree 9) 4 1 1000 0 6 renders_lineVfs_below).1 h
    · exact absurd hlong (by decide)
    · exact hd ⟨3,by decide,by decide,by decide⟩

theorem pathUnlink_denies_below :
    isProtected (pathText ([ascii "run",ascii "padsi",ascii "user",ascii "a"] ++ [ascii "f"])) = true ∧
      (pathUnlink lineVfs shell (some 4) (dPath [ascii "run",ascii "padsi",ascii "user",ascii "a"]) = -1 ↔
        [ascii "run",ascii "padsi",ascii "user",ascii "a"] ∉ protectedDirs) := by
  have hp : isProtected (pathText ([ascii "run",ascii "padsi",ascii "user",ascii "a"] ++ [ascii "f"])) = true :=
    by decide
  exact ⟨hp,pathUnlink_denies_iff filterSound_lineVfs (by decide) rfl renders_lineVfs_below (by decide) hp⟩

/-- The file `/run/padsi/user/f` can be removed. -/
theorem pathUnlink_allows_top :
    lineVfs.FilterSound ∧ lineVfs.Renders () 3 [ascii "run",ascii "padsi",ascii "user"] ∧ shell.mustBlock = .ok true ∧
      isProtected (pathText ([ascii "run",ascii "padsi",ascii "user"] ++ [ascii "f"])) = true ∧
        pathUnlink lineVfs shell (some 3) (dPath [ascii "run",ascii "padsi",ascii "user"]) = 0 :=
  ⟨filterSound_lineVfs,renders_lineVfs,rfl,by decide,by decide⟩

end Padsi.Guard
