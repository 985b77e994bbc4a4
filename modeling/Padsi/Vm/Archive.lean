import Padsi.Vm.Merge

/-! # Saving and loading a version

An element whose image is, bit for bit, the one of a version that is already there is
not imported: what follows is laid on that version instead.
-/
namespace Padsi.Vm
open Python Text List Option Store

variable {δ : Type}

structure Element (δ : Type) where
  image : Image δ
  state : Option VMState

/-- The versions in the order of their indexes; size and hash of the dependency stand for its bytes. -/
structure Archive (δ : Type) where
  elements : List (Element δ)
  dependency : Option (Image δ)

inductive SaveExc where
  | noFile (v : VMVersion)
  | noEnd
deriving DecidableEq, Repr

namespace Store
variable (s : Store δ) (uid : Uid)

def getParentVersion (v : VMVersion) : Option VMVersion := (s.backingImageFile v).bind (s.versionOfImage uid)

/-- The chain of dependencies; `noEnd` stands for a loop that has not ended after a number of turns. -/
def dependencies : ℕ → VMVersion → Except SaveExc (List VMVersion)
  | 0, _ => .error .noEnd
  | n + 1, v =>
    match s.getParentVersion uid v with
    | none => .ok []
    | some parent => (dependencies n parent).map (parent :: ·)

def element (v : VMVersion) : Except SaveExc (Element δ) :=
  match s.files.get v with
  | some ⟨some i,_,_,state⟩ => .ok ⟨i,state⟩
  | _ => .error (.noFile v)

def createArchive (n : ℕ) (v : VMVersion) (dependVmVersion : Option VMVersion) : Except SaveExc (Archive δ) := do
  let dependencies ← s.dependencies uid n v
  let elements ← (v :: dependencies.takeWhile fun w => some w ≠ dependVmVersion).mapM s.element
  let dependency ← (dependencies.find? fun w => some w = dependVmVersion).mapM s.element
  return ⟨elements,dependency.map Element.image⟩

end Store

def Image.read (reading : ImagePath → ImagePath) (i : Image δ) : Image δ := ⟨i.backing.map reading,i.data⟩
def Element.read (reading : ImagePath → ImagePath) (a : Element δ) : Element δ :=
  { a with image := a.image.read reading }

inductive LoadExc where
  | noDependency
  | notDiscarded
  | noBackingVersion
  | notHandled
  | analysis (e : VMExc)
deriving DecidableEq, Repr

structure LoadState (δ : Type) where
  store : Store δ
  firstVm : Bool
  depVmVersion : Option VMVersion
  res : List VMVersion

section
variable [DecidableEq δ]

/-- The order in which `os.listdir` has the versions that are not staged. -/
structure Listing where
  order : List VMVersion → List VMVersion
  perm : ∀ l, (order l).Perm l

def Listing.asIs : Listing := ⟨id,.refl⟩

def Image.same (i j : Image δ) : Bool := i.backing = j.backing ∧ i.data = j.data

namespace Store
variable (s : Store δ) (uid : Uid)

def hasImage (i : Image δ) (v : VMVersion) : Bool := (s.image (.version v)).any fun j => j.same i
def isStaged (v : VMVersion) : Bool := v.directory.owner.isSome && v.zoneName.isNone

def allVersionsByImage (L : Listing) : List VMVersion :=
  (s.versions uid).filter isStaged ++ L.order ((s.versions uid).filter fun v => !isStaged v)

def getVmVersionMatchingImage (L : Listing) (i : Image δ) : Option VMVersion :=
  (s.allVersionsByImage uid L).find? (s.hasImage i)
def sortedBaseVersions : List VMVersion :=
  ((s.baseNumbers uid).mergeSort fun m n => m ≤ n).map fun n => ⟨.base,some n,.top⟩
def nextBaseVersion : VMVersion := ⟨.base,some (nextNumber (s.lastBaseVersion uid)),.top⟩

end Store

def LoadState.importAs (uid : Uid) (st : LoadState δ) (i : Image δ) (state : Option VMState) :
    Except LoadExc (LoadState δ) :=
  if st.store.isComplete (st.store.nextBaseVersion uid) then .error .notDiscarded
  else
    match analyse (st.store.put (st.store.nextBaseVersion uid) ⟨some i,true,true,state⟩) uid with
    | .error e => .error (.analysis e)
    | .ok _ => .ok ⟨st.store.put (st.store.nextBaseVersion uid) ⟨some i,true,true,state⟩,false,
      some (st.store.nextBaseVersion uid),
        st.res ++ [st.store.nextBaseVersion uid]⟩

def loadTurn (L : Listing) (uid : Uid) (st : LoadState δ) (a : Element δ) : Except LoadExc (LoadState δ) :=
  match st.store.getVmVersionMatchingImage uid L a.image with
  | some e => .ok { st with depVmVersion := some e }
  | none =>
    match st.depVmVersion with
    | none => if st.firstVm then st.importAs uid a.image a.state else .error .notHandled
    | some dep =>
      if a.image.backing.isNone then .error .noBackingVersion
      else st.importAs uid { a.image with backing := some (.version dep) } a.state

def findDependency (s : Store δ) (uid : Uid) : Option (Image δ) → Except LoadExc (Option VMVersion)
  | none => .ok none
  | some i =>
    match (s.sortedBaseVersions uid).find? (s.hasImage i) with
    | none => .error .noDependency
    | some v => .ok (some v)

def Archive.sorted (reading : ImagePath → ImagePath) (ar : Archive δ) : List (Element δ) :=
  (ar.elements.map (Element.read reading)).reverse

def loadStart (reading : ImagePath → ImagePath) (s : Store δ) (uid : Uid) (ar : Archive δ) :
    Except LoadExc (LoadState δ) :=
  match analyse s uid with
  | .error e => .error (.analysis e)
  | .ok _ => (findDependency s uid (ar.dependency.map (Image.read reading))).map fun dep => ⟨s,true,dep,[]⟩

def loadArchive (L : Listing) (reading : ImagePath → ImagePath) (s : Store δ) (uid : Uid) (ar : Archive δ) :
    Except LoadExc (LoadState δ) := do
  let st ← loadStart reading s uid ar
  (ar.sorted reading).foldlM (loadTurn L uid) st

end

def Closed (s : Store δ) (uid : Uid) : Prop :=
  ∀ w ∈ s.versions uid, ∀ p, s.backingImageFile w = some p → ∃ x ∈ s.versions uid, p = .version x

def Extends (s s' : Store δ) (uid : Uid) : Prop :=
  ∀ w ∈ s.versions uid, w ∈ s'.versions uid ∧ s'.image (.version w) = s.image (.version w)

/-- The version is a base version, and so are all versions under it. -/
def AllBase (s : Store δ) (v : VMVersion) : Prop :=
  ∀ q, Relation.ReflTransGen (Backs s) (.version v) q → ∃ w, q = .version w ∧ w.versionType = .base

section
variable {s s' s'' : Store δ} {uid : Uid} {v w e : VMVersion}

theorem closed_of_analyse {f : VMFiles} (h : analyse s uid = .ok f) : Closed s uid := (analyse_eq_ok.1 h).1
theorem Extends.refl (s : Store δ) (uid : Uid) : Extends s s uid := fun _ hw => ⟨hw,rfl⟩

theorem Extends.trans (h : Extends s s' uid) (h' : Extends s' s'' uid) : Extends s s'' uid := by
  intro w hw
  obtain ⟨hw',hi⟩ := h w hw
  obtain ⟨hw'',hi'⟩ := h' w hw'
  exact ⟨hw'',hi'.trans hi⟩

variable {i : Image δ} {p : ImagePath}

theorem Closed.backing (h : Closed s uid) (hw : w ∈ s.versions uid) {q : ImagePath} (hi : s.image (.version w) = some i)
    (hq : i.backing = some q) : ∃ x ∈ s.versions uid, q = .version x := by
  refine h w hw q ?_
  rw [backingImageFile,hi,bind_some,hq]

theorem chain_extends (hcl : Closed s uid) (h : Extends s s' uid) {q : ImagePath}
    (hc : Relation.ReflTransGen (Backs s) p q) (hp : ∃ x ∈ s.versions uid, p = .version x) :
    Relation.ReflTransGen (Backs s') p q ∧ ∃ x ∈ s.versions uid, q = .version x := by
  induction hc with
  | refl => exact ⟨.refl,hp⟩
  | tail _ hs ih =>
    obtain ⟨hc,x,hx,rfl⟩ := ih
    obtain ⟨i,hi,hq⟩ := hs
    exact ⟨hc.tail ⟨i,(h x hx).2.trans hi,hq⟩,hcl.backing hx hi hq⟩

theorem chain_of_extends (hcl : Closed s uid) (h : Extends s s' uid) {q : ImagePath}
    (hc : Relation.ReflTransGen (Backs s') p q) (hp : ∃ x ∈ s.versions uid, p = .version x) :
    Relation.ReflTransGen (Backs s) p q ∧ ∃ x ∈ s.versions uid, q = .version x := by
  induction hc with
  | refl => exact ⟨.refl,hp⟩
  | tail _ hs ih =>
    obtain ⟨hc,x,hx,rfl⟩ := ih
    obtain ⟨i,hi,hq⟩ := hs
    rw [(h x hx).2] at hi
    exact ⟨hc.tail ⟨i,hi,hq⟩,hcl.backing hx hi hq⟩

theorem allBase_extends (hc : Closed s uid) (h : Extends s s' uid) (hw : w ∈ s.versions uid) :
    AllBase s' w ↔ AllBase s w :=
  ⟨fun ha q hq => ha q (chain_extends hc h hq ⟨w,hw,rfl⟩).1,fun ha q hq => ha q (chain_of_extends hc h hq ⟨w,hw,rfl⟩).1⟩

theorem allBase_root (hi : s.image (.version v) = some i) (hr : i.backing = none) (hv : v.versionType = .base) :
    AllBase s v := by
  intro q hq
  rcases hq.cases_head with rfl | ⟨p,⟨j,hj,hp⟩,_⟩
  · exact ⟨v,rfl,hv⟩
  · cases hi.symm.trans hj
    cases hr.symm.trans hp

theorem allBase_layer (hi : s.image (.version v) = some i) (hb : i.backing = some (.version e))
    (hv : v.versionType = .base) : AllBase s v ↔ AllBase s e := by
  constructor
  · intro ha q hq
    exact ha q (hq.head ⟨i,hi,hb⟩)
  · intro ha q hq
    rcases hq.cases_head with rfl | ⟨p,⟨j,hj,hp⟩,hrest⟩
    · exact ⟨v,rfl,hv⟩
    · cases hi.symm.trans hj
      cases hb.symm.trans hp
      exact ha q hrest

variable [Monoid δ] {x : δ}

theorem Reads.extends (hc : Closed s uid) (h : Extends s s' uid) (hx : Reads s p x)
    (hp : ∃ w ∈ s.versions uid, p = .version w) : Reads s' p x := by
  induction hx with
  | root hi hr =>
    obtain ⟨w,hw,rfl⟩ := hp
    exact .root ((h w hw).2.trans hi) hr
  | layer hi hq _ ih =>
    obtain ⟨w,hw,rfl⟩ := hp
    exact .layer ((h w hw).2.trans hi) hq (ih (hc.backing hw hi hq))

theorem Reads.of_extends (hc : Closed s uid) (h : Extends s s' uid) (hx : Reads s' p x)
    (hp : ∃ w ∈ s.versions uid, p = .version w) : Reads s p x := by
  induction hx with
  | root hi hr =>
    obtain ⟨w,hw,rfl⟩ := hp
    exact .root ((h w hw).2.symm.trans hi) hr
  | layer hi hq _ ih =>
    obtain ⟨w,hw,rfl⟩ := hp
    rw [(h w hw).2] at hi
    exact .layer hi hq (ih (hc.backing hw hi hq))

theorem reads_extends (hc : Closed s uid) (h : Extends s s' uid) (hw : w ∈ s.versions uid) :
    Reads s' (.version w) x ↔ Reads s (.version w) x :=
  ⟨fun hx => hx.of_extends hc h ⟨w,hw,rfl⟩,fun hx => hx.extends hc h ⟨w,hw,rfl⟩⟩

theorem reads_root (hi : s.image p = some i) (hr : i.backing = none) : Reads s p x ↔ x = i.data := by
  constructor
  · intro h
    cases h with
    | root hj _ =>
      cases hi.symm.trans hj
      rfl
    | layer hj hq _ =>
      cases hi.symm.trans hj
      cases hr.symm.trans hq
  · rintro rfl
    exact .root hi hr

theorem reads_layer {q : ImagePath} (hi : s.image p = some i) (hq : i.backing = some q) :
    Reads s p x ↔ ∃ c, Reads s q c ∧ i.data * c = x := by
  constructor
  · intro h
    cases h with
    | root hj hr =>
      cases hi.symm.trans hj
      cases hr.symm.trans hq
    | layer hj hq' hc =>
      cases hi.symm.trans hj
      cases hq.symm.trans hq'
      exact ⟨_,hc,rfl⟩
  · rintro ⟨c,hc,rfl⟩
    exact .layer hi hq hc

end

section
variable {s s' : Store δ} {uid : Uid} {t e w : VMVersion} {i : Image δ}

structure Imported (s s' : Store δ) (uid : Uid) (t : VMVersion) (i : Image δ) : Prop where
  base : t.versionType = .base
  view : isInView uid t = true
  fresh : s.isComplete t = false
  files : ∃ f, HasFiles s' t f i
  others : ∀ w, w ≠ t → s'.files.get w = s.files.get w
  closed : Closed s' uid

theorem Imported.ne (h : Imported s s' uid t i) (hw : s.isComplete w = true) : w ≠ t := by
  rintro rfl
  cases hw.symm.trans h.fresh

theorem Imported.kept (h : Imported s s' uid t i) (hw : s.isComplete w = true) :
    s'.files.get w = s.files.get w := h.others w (h.ne hw)

theorem Imported.extends (h : Imported s s' uid t i) (hc : Closed s uid) : Extends s s' uid := by
  have hs (w : VMVersion) (hw : w ∈ s.versions uid) : s'.files.get w = s.files.get w :=
    h.kept (isComplete_of_isUsable (mem_versions.1 hw).2)
  have hi (w : VMVersion) (hw : w ∈ s.versions uid) : s'.image (.version w) = s.image (.version w) := by
    rw [image,hs w hw,image]
  intro w hw
  refine ⟨mem_versions.2 ⟨(mem_versions.1 hw).1,?_⟩,hi w hw⟩
  have hu := (mem_versions.1 hw).2
  have hb : s'.backingImageFile w = s.backingImageFile w := by
    rw [backingImageFile,hi w hw,backingImageFile]
  have hco : s'.isComplete w = s.isComplete w := by
    rw [isComplete,hs w hw,isComplete]
  unfold isUsable at hu ⊢
  rw [hco,hb]
  cases hp : s.backingImageFile w with
  | none => simpa [hp] using hu
  | some p =>
    obtain ⟨x,hx,rfl⟩ := hc w hw p hp
    simpa [hp,hi x hx] using hu

theorem Imported.mem_versions (h : Imported s s' uid t i) (hc : Closed s uid)
    (hb : ∀ p, i.backing = some p → ∃ e ∈ s.versions uid, p = .version e) : t ∈ s'.versions uid := by
  obtain ⟨f,hf⟩ := h.files
  refine Store.mem_versions.2 ⟨h.view,Bool.and_eq_true_iff.2 ⟨isComplete_iff.2 ⟨f,i,hf⟩,?_⟩⟩
  rw [hf.backingImageFile]
  cases hp : i.backing with
  | none => rfl
  | some p =>
    obtain ⟨e,he,rfl⟩ := hb p hp
    obtain ⟨_,j,hj⟩ := exists_hasFiles (h.extends hc e he).1
    simp [hj.imageOf]

end

section
variable [DecidableEq δ] {L : Listing} {uid : Uid} {st st' : LoadState δ} {a : Element δ} {es : List (Element δ)}
  {e w : VMVersion}

omit [DecidableEq δ] in
theorem Store.mem_allVersionsByImage {s : Store δ} (h : w ∈ s.allVersionsByImage uid L) : w ∈ s.versions uid := by
  rcases mem_append.1 h with h | h
  · exact mem_of_mem_filter h
  · exact mem_of_mem_filter ((L.perm _).subset h)

theorem Store.mem_of_matching {s : Store δ} {i : Image δ} (h : s.getVmVersionMatchingImage uid L i = some e) :
    e ∈ s.versions uid :=
  mem_allVersionsByImage (mem_of_find?_eq_some h)

omit [DecidableEq δ] in
theorem Store.mem_sortedBaseVersions {s : Store δ} (h : w ∈ s.sortedBaseVersions uid) : w ∈ s.versions uid := by
  obtain ⟨n,hn,rfl⟩ := mem_map.1 h
  obtain ⟨v,hv,hnu⟩ := mem_filterMap.1 (mem_mergeSort.1 hn)
  obtain ⟨hv,hdir⟩ := mem_filter.1 hv
  have hvi := (mem_versions.1 hv).1
  obtain ⟨type,number,dir⟩ := v
  cases of_decide_eq_true hdir
  cases hnu
  cases type with
  | base => exact hv
  | user | snap => cases hvi

structure Sound (uid : Uid) (st : LoadState δ) : Prop where
  closed : Closed st.store uid
  found : ∀ e, st.depVmVersion = some e → e ∈ st.store.versions uid

omit [DecidableEq δ] in
theorem importAs_eq_ok {i : Image δ} {state : Option VMState} (h : st.importAs uid i state = .ok st') :
    Imported st.store st'.store uid (st.store.nextBaseVersion uid) i ∧
      st'.depVmVersion = some (st.store.nextBaseVersion uid) := by
  unfold LoadState.importAs at h
  split_ifs at h with hc
  cases ha : analyse (st.store.put (st.store.nextBaseVersion uid) ⟨some i,true,true,state⟩) uid with
  | error x =>
    rw [ha] at h
    cases h
  | ok f =>
    rw [ha] at h
    cases h
    refine ⟨⟨rfl,rfl,Bool.eq_false_iff.2 hc,?_,fun w hw => ?_,closed_of_analyse ha⟩,rfl⟩
    · exact ⟨_,(get_put _ _ _ _).trans (if_pos rfl),rfl,rfl,rfl⟩
    · exact (get_put _ _ _ _).trans (if_neg hw)

/-- A turn either finds the element, or imports it over what was found before. -/
theorem loadTurn_cases (h : loadTurn L uid st a = .ok st') :
    (∃ e, st.store.getVmVersionMatchingImage uid L a.image = some e ∧ st' = { st with depVmVersion := some e }) ∨
      st.store.getVmVersionMatchingImage uid L a.image = none ∧ ∃ t i, Imported st.store st'.store uid t i ∧
        st'.depVmVersion = some t ∧
        i.data = a.image.data ∧ (st.depVmVersion = none → i.backing = a.image.backing) ∧
          ∀ e, st.depVmVersion = some e → i.backing = some (.version e) := by
  unfold loadTurn at h
  cases hm : st.store.getVmVersionMatchingImage uid L a.image with
  | some e =>
    rw [hm] at h
    cases h
    exact .inl ⟨e,rfl,rfl⟩
  | none =>
    rw [hm] at h
    refine .inr ⟨rfl,?_⟩
    cases hd : st.depVmVersion with
    | none =>
      simp only [hd] at h
      split_ifs at h
      obtain ⟨hi,hd'⟩ := importAs_eq_ok h
      exact ⟨_,_,hi,hd',rfl,fun _ => rfl,by simp⟩
    | some e =>
      simp only [hd] at h
      split_ifs at h
      obtain ⟨hi,hd'⟩ := importAs_eq_ok h
      refine ⟨_,_,hi,hd',rfl,by simp,fun e' he' => ?_⟩
      cases he'
      rfl

structure Kept (uid : Uid) (st st' : LoadState δ) : Prop where
  sound : Sound uid st'
  found : st'.depVmVersion.isSome = true
  extends' : Extends st.store st'.store uid
  files : ∀ w, st.store.isComplete w = true → st'.store.files.get w = st.store.files.get w

theorem kept_turn (hst : Sound uid st) (hr : st.depVmVersion = none → a.image.backing = none)
    (h : loadTurn L uid st a = .ok st') : Kept uid st st' := by
  rcases loadTurn_cases h with ⟨e,he,rfl⟩ | ⟨_,t,i,hi,hd,_,hnone,hs⟩
  · refine ⟨⟨hst.closed,fun e' he' => ?_⟩,rfl,.refl _ _,fun _ _ => rfl⟩
    cases he'
    exact mem_of_matching he
  · have hb : ∀ p, i.backing = some p → ∃ e ∈ st.store.versions uid, p = .version e := by
      intro p hp
      cases hs' : st.depVmVersion with
      | none =>
        rw [hnone hs',hr hs'] at hp
        cases hp
      | some e =>
        cases (hs e hs').symm.trans hp
        exact ⟨e,hst.found e hs',rfl⟩
    refine ⟨⟨hi.closed,fun e he => ?_⟩,by rw [hd]; rfl,hi.extends hst.closed,fun w hw => hi.kept hw⟩
    cases hd.symm.trans he
    exact hi.mem_versions hst.closed hb

theorem kept_run (hst : Sound uid st) (hr : st.depVmVersion = none → ∀ a ∈ es.head?, a.image.backing = none)
    (h : es.foldlM (loadTurn L uid) st = .ok st') : Sound uid st' ∧ Extends st.store st'.store uid ∧
      ∀ w, st.store.isComplete w = true → st'.store.files.get w = st.store.files.get w := by
  induction es generalizing st with
  | nil =>
    cases h
    exact ⟨hst,.refl _ _,fun _ _ => rfl⟩
  | cons a es ih =>
    rw [foldlM_cons] at h
    obtain ⟨st₁,h₁,h⟩ := bind_eq_ok.1 h
    have hk := kept_turn hst (fun hnone => hr hnone a rfl) h₁
    have hf : st₁.depVmVersion = none → ∀ a ∈ es.head?, a.image.backing = none := by
      intro hnone
      have hs := hk.found
      rw [hnone] at hs
      cases hs
    obtain ⟨hs',he,hfi⟩ := ih hk.sound hf h
    refine ⟨hs',hk.extends'.trans he,fun w hw => ?_⟩
    have hw₁ : st₁.store.isComplete w = true := by
      rw [isComplete,hk.files w hw]
      exact hw
    exact (hfi w hw₁).trans (hk.files w hw)

def Unrecognised (L : Listing) (uid : Uid) : LoadState δ → List (Element δ) → Prop
  | _, [] => True
  | st, a :: es => st.store.getVmVersionMatchingImage uid L a.image = none ∧
    ∀ st', loadTurn L uid st a = .ok st' → Unrecognised L uid st' es

variable [Monoid δ] {x : δ}

def through (es : List (Element δ)) (c : δ) : δ := es.foldl (fun c a => a.image.data * c) c

theorem run_unrecognised (hst : Sound uid st) (he : st.depVmVersion = some e) (hes : Unrecognised L uid st es)
    (h : es.foldlM (loadTurn L uid) st = .ok st') : ∃ r, st'.depVmVersion = some r ∧
      (∀ x, Reads st'.store (.version r) x ↔ ∃ c, Reads st.store (.version e) c ∧ through es c = x) ∧
        (AllBase st'.store r ↔ AllBase st.store e) := by
  induction es generalizing st e with
  | nil =>
    cases h
    exact ⟨e,he,fun x => by simp [through],Iff.rfl⟩
  | cons a es ih =>
    rw [foldlM_cons] at h
    obtain ⟨st₁,h₁,h⟩ := bind_eq_ok.1 h
    have hk := kept_turn hst (fun hnone => by rw [he] at hnone; cases hnone) h₁
    have hmem := hst.found e he
    rcases loadTurn_cases h₁ with ⟨e',he',_⟩ | ⟨_,t,i,hi,hd,hda,_,hs⟩
    · cases he'.symm.trans hes.1
    · obtain ⟨r,hr,hre,ha⟩ := ih hk.sound hd (hes.2 st₁ h₁) h
      obtain ⟨_,hf⟩ := hi.files
      refine ⟨r,hr,fun x => ?_,?_⟩
      · rw [hre x]
        constructor
        · rintro ⟨c,hc,rfl⟩
          obtain ⟨c',hc',rfl⟩ := (reads_layer hf.imageOf (hs e he)).1 hc
          exact ⟨c',(reads_extends hst.closed hk.extends' hmem).1 hc',by rw [hda]; rfl⟩
        · rintro ⟨c,hc,rfl⟩
          refine ⟨a.image.data * c,(reads_layer hf.imageOf (hs e he)).2 ⟨c,?_,by rw [hda]⟩,rfl⟩
          exact (reads_extends hst.closed hk.extends' hmem).2 hc
      · rw [ha,allBase_layer hf.imageOf (hs e he) hi.base,allBase_extends hst.closed hk.extends' hmem]

theorem run_root (hst : Sound uid st) (hnone : st.depVmVersion = none) (hro : a.image.backing = none)
    (hes : Unrecognised L uid st (a :: es))
    (h : (a :: es).foldlM (loadTurn L uid) st = .ok st') : ∃ r, st'.depVmVersion = some r ∧ AllBase st'.store r ∧
      Reads st'.store (.version r) (through (a :: es) 1) := by
  rw [foldlM_cons] at h
  obtain ⟨st₁,h₁,h⟩ := bind_eq_ok.1 h
  have hk := kept_turn hst (fun _ => hro) h₁
  rcases loadTurn_cases h₁ with ⟨e',he',_⟩ | ⟨_,t,i,him,hd,hda,hb,_⟩
  · cases he'.symm.trans hes.1
  · obtain ⟨_,hf⟩ := him.files
    have hi : i.backing = none := (hb hnone).trans hro
    obtain ⟨r,hr,hre,ha⟩ := run_unrecognised hk.sound hd (hes.2 st₁ h₁) h
    refine ⟨r,hr,ha.2 (allBase_root hf.imageOf hi him.base),(hre _).2 ⟨a.image.data,?_,?_⟩⟩
    · rw [← hda]
      exact (reads_root hf.imageOf hi).2 rfl
    · rw [through,through,foldl_cons,mul_one]

/-- The version that the last element found is found as, or the dependency, and the elements after it. -/
def LastFound (L : Listing) (uid : Uid) (st : LoadState δ) (es : List (Element δ)) (s : Store δ) (e : VMVersion)
    (after : List (Element δ)) : Prop :=
  (∃ before a st₁, es = before ++ a :: after ∧ before.foldlM (loadTurn L uid) st = .ok st₁ ∧ s = st₁.store ∧
    st₁.store.getVmVersionMatchingImage uid L a.image = some e ∧
      Unrecognised L uid { st₁ with depVmVersion := some e } after) ∨
  st.depVmVersion = some e ∧ s = st.store ∧ after = es ∧ Unrecognised L uid st es

omit [Monoid δ] in
theorem found_or_unrecognised (h : es.foldlM (loadTurn L uid) st = .ok st') :
    (∃ before a after st₁ e, es = before ++ a :: after ∧ before.foldlM (loadTurn L uid) st = .ok st₁ ∧
      st₁.store.getVmVersionMatchingImage uid L a.image = some e ∧
        Unrecognised L uid { st₁ with depVmVersion := some e } after) ∨
    Unrecognised L uid st es := by
  induction es generalizing st with
  | nil => exact .inr trivial
  | cons a es ih =>
    rw [foldlM_cons] at h
    obtain ⟨st₁,h₁,h⟩ := bind_eq_ok.1 h
    rcases ih h with ⟨before,a',after,st₂,e,rfl,hb,he,ha⟩ | hes
    · refine .inl ⟨a :: before,a',after,st₂,e,rfl,?_,he,ha⟩
      rw [foldlM_cons,h₁]
      exact hb
    · rcases loadTurn_cases h₁ with ⟨e,he,rfl⟩ | ⟨hnone,_⟩
      · exact .inl ⟨[],a,es,st,e,rfl,rfl,he,hes⟩
      · refine .inr ⟨hnone,fun st₂ h₂ => ?_⟩
        cases h₁.symm.trans h₂
        exact hes

theorem run_lastFound {s : Store δ} {after : List (Element δ)} (hst : Sound uid st)
    (hr : st.depVmVersion = none → ∀ a ∈ es.head?, a.image.backing = none) (h : es.foldlM (loadTurn L uid) st = .ok st')
    (hf : LastFound L uid st es s e after) : ∃ r, st'.depVmVersion = some r ∧
      (∀ x, Reads st'.store (.version r) x ↔ ∃ c, Reads s (.version e) c ∧ through after c = x) ∧
        (AllBase st'.store r ↔ AllBase s e) := by
  rcases hf with ⟨before,a,st₁,rfl,hb,rfl,he,ha⟩ | ⟨he,rfl,rfl,hes⟩
  · rw [foldlM_append,hb] at h
    change (a :: after).foldlM (loadTurn L uid) st₁ = .ok st' at h
    rw [foldlM_cons] at h
    obtain ⟨st₂,h₂,h⟩ := bind_eq_ok.1 h
    have hr' : st.depVmVersion = none → ∀ a ∈ before.head?, a.image.backing = none := by
      intro hnone x hx
      refine hr hnone x ?_
      cases before with
      | nil => cases hx
      | cons b before => exact hx
    obtain ⟨hs,_,_⟩ := kept_run hst hr' hb
    have ht : loadTurn L uid st₁ a = .ok { st₁ with depVmVersion := some e } := by
      rw [loadTurn,he]
    cases ht.symm.trans h₂
    have hs₂ : Sound uid { st₁ with depVmVersion := some e } := by
      refine ⟨hs.closed,fun e' he' => ?_⟩
      cases he'
      exact mem_of_matching he
    have hru := run_unrecognised hs₂ rfl ha h
    exact hru
  · exact run_unrecognised hst he hes h

end

section
variable [Monoid δ] {s : Store δ} {uid : Uid} {n : ℕ} {v : VMVersion} {l : List VMVersion} {es : List (Element δ)}

omit [Monoid δ] in
theorem image_of_element {a : Element δ} (h : s.element v = .ok a) : s.image (.version v) = some a.image := by
  unfold element at h
  split at h
  · rename_i i _ _ _ hg
    cases h
    rw [image,hg,bind_some]
  · cases h

/-- What a version contains is the product of the layers of its chain. -/
theorem reads_dependencies (hcl : Closed s uid) (hv : v ∈ s.versions uid) (h : s.dependencies uid n v = .ok l)
    (hes : List.Forall₂ (fun w a => s.element w = .ok a) (v :: l) es) :
    (∀ d, Reads s (.version v) d → es.foldr (fun a c => a.image.data * c) 1 = d) ∧
      ∀ a ∈ es.getLast?, a.image.backing = none := by
  induction n generalizing v l es with
  | zero => cases h
  | succ n ih =>
    unfold dependencies at h
    cases hes with
    | @cons _ a _ es ha hes =>
      have hi := image_of_element ha
      have hba : s.backingImageFile v = a.image.backing := by
        rw [backingImageFile,hi,bind_some]
      cases hpa : s.getParentVersion uid v with
      | none =>
        rw [hpa] at h
        cases h
        cases hes
        have hnone : a.image.backing = none := by
          cases hp : a.image.backing with
          | none => rfl
          | some p =>
            obtain ⟨x,hx,rfl⟩ := hcl v hv p (hba.trans hp)
            rw [getParentVersion,hba,hp,bind_some,versionOfImage_eq_some.2 ⟨rfl,hx⟩] at hpa
            cases hpa
        refine ⟨fun d hd => ?_,fun b hb => by cases hb; exact hnone⟩
        rw [(reads_root hi hnone).1 hd]
        exact mul_one _
      | some parent =>
        rw [hpa] at h
        cases hrest : s.dependencies uid n parent with
        | error x =>
          simp only [hrest] at h
          cases h
        | ok rest =>
          simp only [hrest] at h
          cases h
          obtain ⟨p,hp,hve⟩ := bind_eq_some_iff.1 hpa
          obtain ⟨rfl,hmem⟩ := versionOfImage_eq_some.1 hve
          obtain ⟨hr,hl⟩ := ih hmem hrest hes
          refine ⟨fun d hd => ?_,fun b hb => hl b ?_⟩
          · obtain ⟨c,hc,rfl⟩ := (reads_layer hi (hba.symm.trans hp)).1 hd
            rw [foldr_cons,hr c hc]
          · cases hes with
            | cons _ _ => rwa [getLast?_cons_cons] at hb

/-- The elements of an archive without dependency give the contents of the version. -/
theorem reads_archive [DecidableEq δ] {depend : Option VMVersion} {ar : Archive δ} (hc : Closed s uid)
    (hv : v ∈ s.versions uid)
    (har : s.createArchive uid n v depend = .ok ar) (hnone : ar.dependency = none) (reading : ImagePath → ImagePath) :
    (∀ d, Reads s (.version v) d → through (ar.sorted reading) 1 = d) ∧
      ∀ a ∈ (ar.sorted reading).head?, a.image.backing = none := by
  obtain ⟨l,hl,har⟩ := bind_eq_ok.1 har
  obtain ⟨es,hes,har⟩ := bind_eq_ok.1 har
  obtain ⟨dependency,hde,har⟩ := bind_eq_ok.1 har
  cases har
  -- no dependency was reached, so that the archive has the whole chain
  have hal : l.takeWhile (fun w => some w ≠ depend) = l := by
    cases hf : l.find? fun w => some w = depend with
    | none =>
      refine takeWhile_eq_self_iff.2 fun w hw => ?_
      simpa using find?_eq_none.1 hf w hw
    | some w =>
      rw [hf] at hde
      change (s.element w).bind (fun a => .ok (some a)) = _ at hde
      cases hw : s.element w with
      | error x =>
        rw [hw] at hde
        cases hde
      | ok a =>
        rw [hw] at hde
        cases hde
        cases hnone
  rw [hal] at hes
  obtain ⟨hr,hla⟩ := reads_dependencies hc hv hl (forall₂_of_mapM hes)
  refine ⟨fun d hd => ?_,fun a ha => ?_⟩
  · rw [← hr d hd,through,Archive.sorted,foldl_reverse,foldr_map]
    rfl
  · rw [Archive.sorted,head?_reverse,getLast?_map] at ha
    obtain ⟨b,hb,rfl⟩ := map_eq_some_iff.1 ha
    have hb := hla b hb
    simp [Element.read,Image.read,hb]

omit [Monoid δ] in
theorem sorted_ne_nil {depend : Option VMVersion} {ar : Archive δ} (har : s.createArchive uid n v depend = .ok ar)
    (reading : ImagePath → ImagePath) : ar.sorted reading ≠ [] := by
  obtain ⟨l,_,har⟩ := bind_eq_ok.1 har
  obtain ⟨es,hes,har⟩ := bind_eq_ok.1 har
  obtain ⟨_,_,har⟩ := bind_eq_ok.1 har
  cases har
  cases forall₂_of_mapM hes with
  | cons _ _ => simp [Archive.sorted]

end

/-- A base version over base versions with the saved contents, and no version is changed. -/
structure Faithful [Monoid δ] (saved : Store δ) (v : VMVersion) (s : Store δ) (st : LoadState δ) : Prop where
  version : ∃ r, st.depVmVersion = some r ∧ AllBase st.store r ∧ ∀ d, Reads saved (.version v) d →
    Reads st.store (.version r) d
  files : ∀ w, s.isComplete w = true → st.store.files.get w = s.files.get w

section
variable [DecidableEq δ] {s : Store δ} {uid : Uid} {ar : Archive δ} {reading : ImagePath → ImagePath} {st : LoadState δ}

theorem loadStart_eq_ok (h : loadStart reading s uid ar = .ok st) :
    st.store = s ∧ Sound uid st ∧ (st.depVmVersion = none → ar.dependency = none) := by
  unfold loadStart at h
  cases ha : analyse s uid with
  | error e =>
    rw [ha] at h
    cases h
  | ok f =>
    simp only [ha] at h
    cases hd : ar.dependency with
    | none =>
      rw [hd] at h
      cases h
      exact ⟨rfl,⟨closed_of_analyse ha,by simp⟩,fun _ => rfl⟩
    | some i =>
      rw [hd,map_some,findDependency] at h
      cases hf : (s.sortedBaseVersions uid).find? (s.hasImage (i.read reading)) with
      | none =>
        simp only [hf] at h
        cases h
      | some w =>
        simp only [hf] at h
        cases h
        refine ⟨rfl,⟨closed_of_analyse ha,fun e he => ?_⟩,by simp⟩
        cases he
        exact mem_sortedBaseVersions (mem_of_find?_eq_some hf)

end

/-- An import is faithful exactly if the last elements are laid on a version over base versions only
that contains, as far as it is seen, what is under them in the saved version. -/
theorem loadArchive_faithful_iff [DecidableEq δ] [Monoid δ] {saved s : Store δ} {savingUid uid : Uid}
    {f : VMFiles} {n : ℕ} {v : VMVersion}
    {depend : Option VMVersion} {ar : Archive δ} {L : Listing} {reading : ImagePath → ImagePath} {st st' : LoadState δ}
    (hsaved : analyse saved savingUid = .ok f) (hv : v ∈ saved.versions savingUid)
    (har : saved.createArchive savingUid n v depend = .ok ar) (hstart : loadStart reading s uid ar = .ok st)
    (hload : loadArchive L reading s uid ar = .ok st') :
    Faithful saved v s st' ↔ ∀ s₁ e after, LastFound L uid st (ar.sorted reading) s₁ e after →
      AllBase s₁ e ∧ ∀ d, Reads saved (.version v) d → ∃ c, Reads s₁ (.version e) c ∧ through after c = d := by
  obtain ⟨st₀,hs',hru⟩ := bind_eq_ok.1 hload
  cases hstart.symm.trans hs'
  obtain ⟨hst,hs,hdp⟩ := loadStart_eq_ok hstart
  have hc := closed_of_analyse hsaved
  have hro (hnone : st.depVmVersion = none) := (reads_archive hc hv har (hdp hnone) reading).2
  have hfi : ∀ w, s.isComplete w = true → st'.store.files.get w = s.files.get w := by
    rw [← hst]
    exact (kept_run hs hro hru).2.2
  constructor
  · rintro ⟨⟨r,hr,hal,hre⟩,_⟩ s₁ e after hf
    obtain ⟨r',hr',hi,hb⟩ := run_lastFound hs hro hru hf
    cases hr.symm.trans hr'
    exact ⟨hb.1 hal,fun d hd => (hi d).1 (hre d hd)⟩
  · intro hco
    refine ⟨?_,hfi⟩
    have hl {s₁ : Store δ} {e : VMVersion} {after : List (Element δ)}
      (hf : LastFound L uid st (ar.sorted reading) s₁ e after) :
        ∃ r, st'.depVmVersion = some r ∧ AllBase st'.store r ∧ ∀ d, Reads saved (.version v) d →
          Reads st'.store (.version r) d := by
      obtain ⟨r,hr,hi,hb⟩ := run_lastFound hs hro hru hf
      obtain ⟨hal,hre⟩ := hco _ _ _ hf
      exact ⟨r,hr,hb.2 hal,fun d hd => (hi d).2 (hre d hd)⟩
    rcases found_or_unrecognised hru with ⟨before,a,after,st₁,e,hes,hbe,he,ha⟩ | hes
    · exact hl (.inl ⟨before,a,st₁,hes,hbe,rfl,he,ha⟩)
    · cases hde : st.depVmVersion with
      | some e => exact hl (.inr ⟨hde,rfl,rfl,hes⟩)
      | none =>
        -- nothing was found and nothing is expected: the whole chain is imported
        obtain ⟨hrd,hh⟩ := reads_archive hc hv har (hdp hde) reading
        cases hso : ar.sorted reading with
        | nil => exact absurd hso (sorted_ne_nil har reading)
        | cons a rest =>
          rw [hso] at hru hes hrd hh
          obtain ⟨r,hr,hal,hcn⟩ := run_root hs hde (hh a rfl) hes hru
          exact ⟨r,hr,hal,fun d hd => hrd d hd ▸ hcn⟩

def base1 : VMVersion := ⟨.base,some 1,.top⟩
instance decidableEqDisk : DecidableEq (FreeMonoid Char) := inferInstanceAs (DecidableEq (List Char))
theorem nodup_layers : [base0,base1].Nodup := by decide

def twoLayers (lower upper : Char) : Store (FreeMonoid Char) where
  files := ⟨[(base0,layer none lower),(base1,layer (some base0) upper)],nodup_layers⟩
  others := .empty
  users := [1000]
  known := by simp [base0,base1,Dir.owner]

theorem reads_base1 {s : Store (FreeMonoid Char)} {lower upper : Char}
    (h₀ : s.image (.version base0) = (layer none lower).image)
    (h₁ : s.image (.version base1) = (layer (some base0) upper).image) {d : FreeMonoid Char} :
    Reads s (.version base1) d ↔ d = .of upper * .of lower := by
  rw [reads_layer h₁ rfl]
  constructor
  · rintro ⟨c,hc,rfl⟩
    rw [(reads_root h₀ rfl).1 hc]
  · rintro rfl
    exact ⟨_,(reads_root h₀ rfl).2 rfl,rfl⟩

def oneLayer (lower : Char) : Store (FreeMonoid Char) where
  files := ⟨[(base0,layer none lower)],nodup_singleton base0⟩
  others := .empty
  users := [1000]
  known := by simp [base0,Dir.owner]

/-- The lower version is found, and the upper one imported over it. -/
theorem oneLayer_faithful : ∃ ar st st', (twoLayers 'a' 'b').createArchive 1000 3 base1 none = .ok ar ∧
    loadStart id (oneLayer 'a') 1000 ar = .ok st ∧ loadArchive .asIs id (oneLayer 'a') 1000 ar = .ok st' ∧
    Faithful (twoLayers 'a' 'b') base1 (oneLayer 'a') st' ∧
      ∀ s₁ e after, LastFound .asIs 1000 st (ar.sorted id) s₁ e after → AllBase s₁ e := by
  have hl : ∃ ar st st', (twoLayers 'a' 'b').createArchive 1000 3 base1 none = .ok ar ∧
    loadStart id (oneLayer 'a') 1000 ar = .ok st ∧
      loadArchive .asIs id (oneLayer 'a') 1000 ar = .ok st' ∧ st'.depVmVersion = some base1 ∧
        st'.store.image (.version base0) = (layer none 'a').image ∧
          st'.store.image (.version base1) = (layer (some base0) 'b').image ∧
          st'.store.files.get base0 = (oneLayer 'a').files.get base0 := ⟨_,_,_,rfl,rfl,rfl,rfl,rfl,rfl,rfl⟩
  obtain ⟨ar,st,st',har,hs,hl,hde,h₀,h₁,hk⟩ := hl
  have hfa : Faithful (twoLayers 'a' 'b') base1 (oneLayer 'a') st' := by
    refine ⟨⟨base1,hde,?_,fun d hd => ?_⟩,fun w hw => ?_⟩
    · exact (allBase_layer h₁ rfl rfl).2 (allBase_root h₀ rfl rfl)
    · rw [(reads_base1 rfl rfl).1 hd]
      exact (reads_base1 h₀ h₁).2 rfl
    · obtain ⟨f,_,hf⟩ := isComplete_iff.1 hw
      have hke : w ∈ (oneLayer 'a').files.entries.map Prod.fst := mem_map.2 ⟨(w,f),Dict.mem_of_get hf.get,rfl⟩
      cases mem_singleton.1 hke
      exact hk
  refine ⟨ar,st,st',har,hs,hl,hfa,fun s₁ e after hfo => ?_⟩
  exact ((loadArchive_faithful_iff rfl (by decide) har hs hl).1 hfa s₁ e after hfo).1

/-- The upper version is found by its own bytes, over another lower one. -/
theorem twoLayers_mixed : ∃ ar st', (twoLayers 'a' 'b').createArchive 1000 3 base1 none = .ok ar ∧
    loadArchive .asIs id (twoLayers 'x' 'b') 1000 ar = .ok st' ∧
      ¬ Faithful (twoLayers 'a' 'b') base1 (twoLayers 'x' 'b') st' := by
  have hl : ∃ ar st', (twoLayers 'a' 'b').createArchive 1000 3 base1 none = .ok ar ∧
    loadArchive .asIs id (twoLayers 'x' 'b') 1000 ar = .ok st' ∧
      st'.depVmVersion = some base1 ∧ st'.store.image (.version base0) = (layer none 'x').image ∧
        st'.store.image (.version base1) = (layer (some base0) 'b').image := ⟨_,_,rfl,rfl,rfl,rfl,rfl⟩
  obtain ⟨ar,st',har,hl,hd,h₀,h₁⟩ := hl
  refine ⟨ar,st',har,hl,fun hf => ?_⟩
  obtain ⟨r,hr,_,hre⟩ := hf.version
  cases hd.symm.trans hr
  have hm := (reads_base1 h₀ h₁).1 (hre _ ((reads_base1 rfl rfl).2 rfl))
  revert hm
  decide

end Padsi.Vm
