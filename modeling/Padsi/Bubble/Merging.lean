import Padsi.Bubble.Mounts

/-! # Merging the groups

After the first phase a group can be below another one: it goes to the top that is
found among its parent directories.
-/
namespace Padsi.Bubble
open Python Text Tops List BoundDir Dict MountPoint

theorem le_append (b c : Str) : b ≤ b ++ c := by
  rcases eq_or_ne c [] with rfl | hc
  · rw [append_nil]
  · apply le_of_lt
    induction b with
    | nil =>
      obtain ⟨x,l,rfl⟩ := exists_cons_of_ne_nil hc
      exact List.Lex.nil
    | cons x b ih => exact List.Lex.cons ih

/-- By induction on the sorted paths: what comes later is not the beginning of what came before. -/
theorem mem_foldl_addTop (order : SetOrder) {l : List Str} (hl : l.Pairwise fun a b => ¬b <+: a) (t : Str) :
    t ∈ l.foldl (addTop order) [] ↔ Topmost l t := by
  induction l using reverseRecOn generalizing t with
  | nil => simp [Topmost]
  | append_singleton l p ih =>
    obtain ⟨hb,-,hla⟩ := pairwise_append.1 hl
    have hnot : ∀ a ∈ l, ¬p <+: a := fun a ha => hla a ha p (mem_singleton_self p)
    have ih := ih hb
    have hto : ∀ t ∈ l, Topmost (l ++ [p]) t ↔ Topmost l t := by
      intro t ht
      simp only [Topmost,mem_append,ht,true_or,true_and]
      constructor
      · exact fun h q hq => h q (.inl hq)
      · rintro h q (hq | hq) hqt
        · exact h q hq hqt
        · rw [mem_singleton.1 hq] at hqt
          exact absurd hqt (hnot t ht)
    have hsplit : Topmost (l ++ [p]) t ↔ Topmost l t ∨ t = p ∧ ∀ q ∈ l, ¬q <+: p := by
      constructor
      · intro h
        rcases mem_append.1 h.1 with ht | ht
        · exact .inl ((hto t ht).1 h)
        · have heq := mem_singleton.1 ht
          subst heq
          refine .inr ⟨rfl,fun q hq hqt => hnot q hq ?_⟩
          rw [h.2 q (mem_append_left _ hq) hqt]
      · rintro (h | ⟨rfl,h⟩)
        · exact (hto t h.1).2 h
        · refine ⟨by simp,fun q hq hqt => ?_⟩
          rcases mem_append.1 hq with hq | hq
          · exact absurd hqt (h q hq)
          · exact mem_singleton.1 hq
    rw [foldl_append,foldl_cons,foldl_nil,addTop,hsplit]
    cases hf : (order.arrange (l.foldl (addTop order) [])).find?
      (fun edir => decide (p <+: edir) || decide (edir <+: p)) with
    | none =>
      have hnone : ∀ q ∈ l, ¬q <+: p := by
        intro q hq hqp
        obtain ⟨t',ht',htq⟩ := exists_top hq
        have hm := find?_eq_none.1 hf t' ((order.perm _).mem_iff.2 ((ih t').2 ht'))
        exact hm (by simp [htq.trans hqp])
      rw [mem_append,ih,mem_singleton]
      exact or_congr Iff.rfl ⟨fun h => ⟨h,hnone⟩,And.left⟩
    | some edir =>
      have hmem : Topmost l edir := (ih edir).1 ((order.perm _).mem_iff.1 (mem_of_find?_eq_some hf))
      have hbelow : edir <+: p := by
        have hfo := find?_some hf
        simpa [hnot edir hmem.1] using hfo
      simp only [if_neg (hnot edir hmem.1)]
      rw [ih]
      exact ⟨.inl,fun h => h.elim id fun h => absurd hbelow (h.2 edir hmem.1)⟩

theorem mem_topPaths (order : SetOrder) {ks : List Str} (hks : ks.Nodup) (t : Str) :
    t ∈ topPaths order ks ↔ Topmost ks t := by
  have hp := perm_insertionSort (· ≤ ·) ks
  have hs : (ks.insertionSort (· ≤ ·)).Pairwise fun a b => ¬b <+: a := by
    refine (pairwise_insertionSort (· ≤ ·) ks).imp₂ (fun a b hle hne hbelow => ?_) (hp.nodup_iff.2 hks)
    obtain ⟨c,rfl⟩ := hbelow
    exact hne (le_antisymm hle (le_append _ _))
  rw [topPaths,mem_foldl_addTop order hs]
  simp only [Topmost,hp.mem_iff]

variable {g : MountPointGroup} {path s : Str} {ngroups : Groups}

theorem get_topGroups {groups : Groups} {k : Str} (tops : List Str) :
    (topGroups groups tops).get k = some g ↔ k ∈ tops ∧ groups.get k = some g := by
  induction tops using reverseRecOn with
  | nil => simp [topGroups,get_empty]
  | append_singleton tops t ih =>
    rw [topGroups,foldl_append,foldl_cons,foldl_nil,← topGroups]
    cases hge : groups.get t with
    | none =>
      simp only [ih,mem_append,mem_singleton]
      constructor
      · exact fun h => ⟨.inl h.1,h.2⟩
      · rintro ⟨hk | rfl,hg⟩
        · exact ⟨hk,hg⟩
        · cases hge.symm.trans hg
    | some g' =>
      simp only [get_set,mem_append,mem_singleton]
      by_cases hk : k = t
      · subst hk
        rw [if_pos rfl,hge]
        simp
      · rw [if_neg hk,ih]
        simp [hk]

theorem prefixed_rdropWhile {p : Char → Bool} {l : Str} {c : Char} (hc : p c = false) (h : s ++ [c] <+: l) :
    s ++ [c] <+: l.rdropWhile p := by
  induction l using reverseRecOn with
  | nil => simp at h
  | append_singleton l x ih =>
    by_cases hx : p x = true
    · rw [rdropWhile_concat_pos p l x hx]
      rcases prefix_concat_iff.1 h with heq | h
      · obtain ⟨-,hcx⟩ := append_inj' heq rfl
        cases hcx
        rw [hc] at hx
        cases hx
      · exact ih h
    · rwa [rdropWhile_concat_neg p l x hx]

def Slashes (s : Str) : Prop := ∀ c ∈ s, c = '/'

def Above (path tdir : Str) : Prop :=
  (∃ d c, tdir = d ++ [c] ∧ c ≠ '/' ∧ tdir ++ ['/'] <+: path) ∨ (tdir ≠ [] ∧ Slashes tdir ∧ ¬tdir ++ ['/'] <+: path)

theorem dirHead_concat (h : path.head? = some '/') : ∃ s, dirHead path = s ++ ['/'] := by
  have hne : dirHead path ≠ [] := by
    obtain ⟨l,rfl⟩ : ∃ l, path = '/' :: l := by
      cases path with
      | nil => cases h
      | cons c l =>
        cases h
        exact ⟨l,rfl⟩
    have hfirst : [] ++ ['/'] <+: dirHead ('/' :: l) := prefixed_rdropWhile (by decide) (by simp)
    intro hn
    rw [hn] at hfirst
    simp at hfirst
  have hl := rdropWhile_last_not (· ≠ '/') path hne
  refine ⟨(dirHead path).dropLast,?_⟩
  have hs : (dirHead path).getLast hne = '/' := by simpa [dirHead] using hl
  rw [← hs,dropLast_append_getLast]

theorem above_dirname (h : path.head? = some '/') : Above path (dirname path) := by
  obtain ⟨s,hs⟩ := dirHead_concat h
  have hbelow : dirHead path <+: path := rdropWhile_prefix _ _
  unfold dirname
  split_ifs with ha
  · refine .inr ⟨by simp [hs],ha,fun hl => ?_⟩
    have hsh : dirHead path ++ ['/'] <+: dirHead path := prefixed_rdropWhile (p := (· ≠ '/')) (by decide) hl
    have hle := hsh.length_le
    simp at hle
  · have hne : (dirHead path).rdropWhile (· = '/') ≠ [] := by
      intro hn
      refine ha fun c hc => ?_
      simpa using rdropWhile_eq_nil_iff.1 hn c hc
    have hla := rdropWhile_last_not (· = '/') (dirHead path) hne
    refine .inl ⟨((dirHead path).rdropWhile (· = '/')).dropLast,_,(dropLast_append_getLast hne).symm,
      by simpa using hla,?_⟩
    -- the slash after it was removed
    have hsplit : (dirHead path).rdropWhile (· = '/') ++ (dirHead path).rtakeWhile (· = '/') = dirHead path :=
      rdropWhile_append_rtakeWhile
    cases hrest : (dirHead path).rtakeWhile (· = '/') with
    | nil =>
      rw [hrest,append_nil] at hsplit
      have he : (dirHead path).rdropWhile (· = '/') = s.rdropWhile (· = '/') := by
        rw [hs]
        exact rdropWhile_concat_pos _ _ _ (by decide)
      have hle := ( rdropWhile_prefix (· = '/') s).length_le
      rw [← he,hsplit,hs] at hle
      simp at hle
    | cons c r =>
      have hc : c = '/' := by
        simpa using mem_rtakeWhile_imp (hrest ▸ mem_cons_self : c ∈ (dirHead path).rtakeWhile (· = '/'))
      rw [hrest,hc] at hsplit
      refine List.IsPrefix.trans ⟨r,?_⟩ hbelow
      rw [append_assoc]
      exact hsplit

theorem dirname_slashes (hs : Slashes s) : dirname s = s := by
  have hh : dirHead s = s := by
    refine rdropWhile_eq_self_iff.2 fun hl => ?_
    simp [hs _ (getLast_mem hl)]
  rw [dirname,hh]
  exact if_pos hs

theorem head_of_below (hs : s ≠ []) (h : s <+: path) (hpath : path.head? = some '/') : s.head? = some '/' := by
  obtain ⟨r,rfl⟩ := h
  rwa [head?_append_of_ne_nil _ hs] at hpath

theorem Above.dirname {tdir : Str} (hpath : path.head? = some '/') (h : Above path tdir) :
    Above path (dirname tdir) := by
  rcases h with ⟨d,c,rfl,hc,hbelow⟩ | ⟨hne,hs,hl⟩
  · have hsu : d ++ [c] <+: path := (prefix_append _ _).trans hbelow
    rcases above_dirname (head_of_below (by simp) hsu hpath) with ⟨d',c',heq,hc',hb'⟩ | ⟨hne,hs,hl⟩
    · exact .inl ⟨d',c',heq,hc',hb'.trans hsu⟩
    · refine .inr ⟨hne,hs,fun hl' => ?_⟩
      rcases prefix_or_prefix_of_prefix hl' hsu with hsh | hsh
      · exact hl hsh
      · -- the last character of the directory is not a slash
        rcases mem_append.1 (hsh.subset (by simp : c ∈ d ++ [c])) with hmem | hmem
        · exact hc (hs c hmem)
        · exact hc (mem_singleton.1 hmem)
  · rw [dirname_slashes hs]
    exact .inr ⟨hne,hs,hl⟩

/-- What is found is a directory above the path, or slashes that are too many. -/
theorem parentGroup_eq_ok {tdir k : Str} (hpath : path.head? = some '/') (habove : Above path tdir)
    (h : parentGroup ngroups tdir = .ok (k,g)) :
    ngroups.get k = some g ∧ (Proper k ∧ k <+: path ∨ Slashes k ∧ ¬k <+: path) := by
  fun_induction parentGroup ngroups tdir with
  | case1 => cases h
  | case2 tdir hr egrp hg =>
    cases h
    refine ⟨hg,?_⟩
    rcases habove with ⟨d,c,rfl,hc,hbelow⟩ | ⟨-,hs,hl⟩
    · exact .inl ⟨⟨d,c,by simp,hc⟩,hbelow⟩
    · refine .inr ⟨fun c hc => ?_,hl⟩
      rcases mem_append.1 hc with hc | hc
      · exact hs c hc
      · exact mem_singleton.1 hc
  | case3 => cases h
  | case4 tdir hr hg hne ih => exact ih (habove.dirname hpath) h

theorem proper_dirname {d : Str} {c : Char} (hc : c ≠ '/') (hpath : path.head? = some '/') (h : d ++ [c,'/'] <+: path) :
    d ++ [c,'/'] <+: dirname path ++ ['/'] := by
  have hsplit : d ++ [c,'/'] = (d ++ [c]) ++ ['/'] := by simp
  rw [hsplit] at h ⊢
  have hh : d ++ [c] ++ ['/'] <+: dirHead path := prefixed_rdropWhile (by decide) h
  have hnot : ¬∀ x ∈ dirHead path, x = '/' := fun ha => hc (ha c (hh.subset (by simp)))
  have hname : d ++ [c] <+: dirname path := by
    rw [dirname,if_neg hnot]
    exact prefixed_rdropWhile (by simpa using hc) ((prefix_append _ _).trans hh)
  rcases above_dirname hpath with ⟨-,-,-,-,hbelow⟩ | ⟨-,hs,-⟩
  · refine prefix_of_prefix_length_le h hbelow ?_
    have hl := hname.length_le
    simp only [length_append,length_singleton] at hl ⊢
    omega
  · exact absurd (hs c (hname.subset (by simp))) hc

theorem parentGroup_proper {t tdir : Str} (ht : Proper t) (hg : ngroups.get t = some g)
    (hto : ∀ k i, ngroups.get k = some i → t <+: k → k = t) (hh : tdir.head? = some '/')
    (hbelow : t <+: tdir ++ ['/']) : parentGroup ngroups tdir = .ok (t,g) := by
  obtain ⟨d,c,rfl,hc⟩ := ht
  have hc' : ∀ {s : Str}, d ++ [c,'/'] <+: s → ¬Slashes s := fun h hs => hc (hs c (h.subset (by simp)))
  fun_induction parentGroup ngroups tdir with
  | case1 => exact absurd (by simp [Slashes]) (hc' hbelow)
  | case2 tdir hr egrp hf =>
    have heq := hto _ _ hf hbelow
    rw [heq] at hf ⊢
    rw [hg] at hf
    cases hf
    rfl
  | case3 tdir hr hf hse =>
    rcases prefix_concat_iff.1 hbelow with heq | hbelow
    · rw [← heq,hg] at hf
      cases hf
    · -- a directory that is its own parent is made of slashes
      have habove := above_dirname hh
      rw [hse] at habove
      rcases habove with ⟨-,-,-,-,hl⟩ | ⟨-,hsl,-⟩
      · have hle := hl.length_le
        simp at hle
      · exact absurd hsl (hc' hbelow)
  | case4 tdir hr hf hne ih =>
    rcases prefix_concat_iff.1 hbelow with heq | hbelow
    · rw [← heq,hg] at hf
      cases hf
    · have hp := proper_dirname hc hh hbelow
      refine ih (head_of_below ?_ (dirname_below tdir) hh) hp
      intro hn
      have hle := hp.length_le
      simp [hn] at hle

def KeysAre (tops : List Str) (ngroups : Groups) : Prop := ∀ k, (∃ g, ngroups.get k = some g) ↔ k ∈ tops

theorem KeysAre.set {tops : List Str} (h : KeysAre tops ngroups) {k : Str} (hk : ngroups.get k = some g)
    (g' : MountPointGroup) : KeysAre tops (ngroups.set k g') := by
  intro k'
  rw [get_set,← h k']
  split_ifs with heq
  · rw [heq]
    exact iff_of_true ⟨g',rfl⟩ ⟨g,hk⟩
  · rfl

theorem components_eq_nil : components s = [] ↔ Slashes s := by
  unfold components
  rw [filter_eq_nil_iff]
  constructor
  · intro h c hc
    have hj : ['/'].intercalate (s.splitOn '/') = s := intercalate_splitOn '/'
    rw [← hj] at hc
    rcases mem_of_mem_intercalate hc with hc | ⟨p,hp,hc⟩
    · exact mem_singleton.1 hc
    · have he : p = [] := by simpa using h p hp
      rw [he] at hc
      cases hc
  · intro h p hp
    have he : p = [] := by
      refine eq_nil_iff_forall_not_mem.2 fun c hc => ?_
      have hs := h c (mem_of_mem_splitOn hp hc)
      exact not_mem_of_mem_splitOn hp (hs ▸ hc)
    simp [he]

theorem Slashes.below {s' : Str} (hs : Slashes s) (hs' : Slashes s') (h : s.length ≤ s'.length) : s <+: s' := by
  rw [eq_replicate_of_mem hs,eq_replicate_of_mem hs']
  exact prefix_replicate_iff.2 ⟨by simpa using h,by simp⟩

/-- A group of slashes only is not found among tops of which none is beneath another. -/
theorem parent_is_top {ps tops : List Str} (hto : ∀ t, t ∈ tops ↔ Topmost ps t)
    (ha : ∀ t t', Topmost ps t → Topmost ps t' → ¬Beneath t t')
    (hke : KeysAre tops ngroups) {k t : Str} (hpath : path.head? = some '/')
    (ht : Topmost ps t) (htp : t <+: path) (h : parentGroup ngroups (dirname path) = .ok (k,g)) :
    k = t ∧ Proper t ∧ ngroups.get t = some g := by
  obtain ⟨hg,hk⟩ := parentGroup_eq_ok hpath (above_dirname hpath) h
  have hkt : Topmost ps k := (hto k).1 ((hke k).1 ⟨g,hg⟩)
  rcases hk with ⟨hp,hbelow⟩ | ⟨hs,hnot⟩
  · have heq := hkt.unique ht hbelow htp
    subst heq
    exact ⟨rfl,hp,hg⟩
  · exfalso
    by_cases hr : components t = []
    · have hts := components_eq_nil.1 hr
      have heq : k = t := by
        rcases le_total k.length t.length with hle | hle
        · exact ht.2 k hkt.1 (hs.below hts hle)
        · exact (hkt.2 t ht.1 (hts.below hs hle)).symm
      exact hnot (heq ▸ htp)
    · refine ha t k ht hkt ⟨?_,?_⟩
      · rw [Within,components_eq_nil.2 hs]
        exact nil_prefix
      · rwa [components_eq_nil.2 hs]

structure Merged (groups : Groups) (tops : List Str) (seen : List (Str × MountPointGroup)) (ngroups : Groups) :
    Prop where
  keys : KeysAre tops ngroups
  merged : ∀ t g', ngroups.get t = some g' → ∃ g, groups.get t = some g ∧ g'.mountPath = g.mountPath ∧
    g'.first = g.first ∧
    ∀ x, x ∈ g'.mountPoints ↔ x ∈ g.mountPoints ∨ ∃ e ∈ seen, e.1 ∉ tops ∧ t <+: e.1 ∧ x ∈ e.2.mountPoints

section
variable {groups ngroups : Groups} {ps tops : List Str} {seen items : List (Str × MountPointGroup)} {path : Str}
  {mpgrp : MountPointGroup}

theorem Merged.skip (h : Merged groups tops seen ngroups) (hpath : path ∈ tops) :
    Merged groups tops (seen ++ [(path,mpgrp)]) ngroups := by
  refine ⟨h.keys,fun t g' hg' => ?_⟩
  obtain ⟨g,hg,hgp,hfirst,hmem⟩ := h.merged t g' hg'
  refine ⟨g,hg,hgp,hfirst,fun x => (hmem x).trans (or_congr Iff.rfl ?_)⟩
  simp only [mem_append,mem_singleton,or_and_right,exists_or,exists_eq_left]
  simp [hpath]

theorem Merged.step (hto : ∀ t, t ∈ tops ↔ Topmost ps t) (h : Merged groups tops seen ngroups)
    (hpath : path ∉ tops) {t : Str} {g : MountPointGroup}
    (ht : Topmost ps t) (htp : t <+: path) (hg : ngroups.get t = some g) :
    Merged groups tops (seen ++ [(path,mpgrp)]) (ngroups.set t { g with others := g.others ++ mpgrp.mountPoints }) := by
  refine ⟨h.keys.set hg _,fun t' g' hg' => ?_⟩
  rw [get_set] at hg'
  split_ifs at hg' with heq
  · subst heq
    cases hg'
    obtain ⟨g₀,hg₀,hgp,hfirst,hmem⟩ := h.merged t' g hg
    refine ⟨g₀,hg₀,hgp,hfirst,fun x => ?_⟩
    have hsplit : x ∈ MountPointGroup.mountPoints { g with others := g.others ++ mpgrp.mountPoints } ↔
        x ∈ g.mountPoints ∨ x ∈ mpgrp.mountPoints := by
      simp [MountPointGroup.mountPoints,or_assoc]
    rw [hsplit,hmem x]
    simp only [mem_append,mem_singleton,or_and_right,exists_or,exists_eq_left,or_assoc]
    simp [hpath,htp]
  · obtain ⟨g₀,hg₀,hgp,hfirst,hmem⟩ := h.merged t' g' hg'
    refine ⟨g₀,hg₀,hgp,hfirst,fun x => (hmem x).trans (or_congr Iff.rfl ?_)⟩
    have hnot : ¬t' <+: path := fun hbelow => heq (((hto t').1 ((h.keys t').1 ⟨g',hg'⟩)).unique ht hbelow htp)
    simp only [mem_append,mem_singleton,or_and_right,exists_or,exists_eq_left]
    simp [hnot]

/-- The merge ends well just if all groups that are no tops are below proper directories. -/
theorem merge_cases (hto : ∀ t, t ∈ tops ↔ Topmost ps t) (ha : ∀ t t', Topmost ps t → Topmost ps t' → ¬Beneath t t')
    (hh : ∀ p ∈ ps, p.head? = some '/') (hi : ∀ e ∈ items, e.1 ∈ ps) (h : Merged groups tops seen ngroups) :
    (∃ ngroups', merge tops items ngroups = .ok ngroups' ∧ Merged groups tops (seen ++ items) ngroups' ∧
        ∀ e ∈ items, e.1 ∉ tops → ∀ t, Topmost ps t → t <+: e.1 → Proper t) ∨
      ∃ stop, merge tops items ngroups = .error stop ∧ ∃ e ∈ items, e.1 ∉ tops ∧ ∃ t, Topmost ps t ∧ t <+: e.1 ∧
        ¬Proper t := by
  induction items generalizing seen ngroups with
  | nil => exact .inl ⟨ngroups,rfl,by rwa [append_nil],by simp⟩
  | cons e items ih =>
    obtain ⟨path,mpgrp⟩ := e
    obtain ⟨hpm,hrest⟩ := forall_mem_cons.1 hi
    have hl : ∀ {ngroups : Groups}, Merged groups tops (seen ++ [(path,mpgrp)]) ngroups →
        (path ∉ tops → ∀ t, Topmost ps t → t <+: path → Proper t) →
        (∃ ngroups', merge tops items ngroups = .ok ngroups' ∧
          Merged groups tops (seen ++ (path,mpgrp) :: items) ngroups' ∧
          ∀ e ∈ (path,mpgrp) :: items, e.1 ∉ tops → ∀ t, Topmost ps t → t <+: e.1 → Proper t) ∨
          ∃ stop, merge tops items ngroups = .error stop ∧ ∃ e ∈ (path,mpgrp) :: items, e.1 ∉ tops ∧
            ∃ t, Topmost ps t ∧ t <+: e.1 ∧ ¬Proper t := by
      intro ngroups hn hs
      rcases ih hrest hn with ⟨ngroups',hm,hme,hp⟩ | ⟨stop,hm,e,he,hb⟩
      · rw [append_assoc,singleton_append] at hme
        exact .inl ⟨ngroups',hm,hme,forall_mem_cons.2 ⟨hs,hp⟩⟩
      · exact .inr ⟨stop,hm,e,mem_cons_of_mem _ he,hb⟩
    rw [merge]
    by_cases hpath : path ∈ tops
    · rw [if_pos hpath]
      exact hl (h.skip hpath) fun hnot => absurd hpath hnot
    · rw [if_neg hpath]
      obtain ⟨t,ht,htp⟩ := exists_top hpm
      have hph := hh path hpm
      by_cases hp : Proper t
      · obtain ⟨g,hg⟩ := (h.keys t).2 ((hto t).2 ht)
        have hpa : parentGroup ngroups (dirname path) = .ok (t,g) := by
          obtain ⟨d,c,rfl,hc⟩ := id hp
          have hbelow := proper_dirname hc hph htp
          refine parentGroup_proper hp hg (fun k i hk hbelow => ?_) (head_of_below ?_ (dirname_below path) hph) hbelow
          · exact (((hto k).1 ((h.keys k).1 ⟨i,hk⟩)).2 _ ht.1 hbelow).symm
          · intro hni
            have hle := hbelow.length_le
            simp [hni] at hle
        rw [hpa]
        exact hl (h.step hto hpath ht htp hg) fun _ t' ht' htp' => ht'.unique ht htp' htp ▸ hp
      · cases hpa : parentGroup ngroups (dirname path) with
        | error stop => exact .inr ⟨stop,rfl,_,mem_cons_self,hpath,t,ht,htp,hp⟩
        | ok r => exact absurd (parent_is_top hto ha h.keys hph ht htp hpa).2.1 hp

theorem get_of_parentGroup {tdir k : Str} {g : MountPointGroup} (h : parentGroup ngroups tdir = .ok (k,g)) :
    ngroups.get k = some g := by
  fun_induction parentGroup ngroups tdir with
  | case1 | case3 => cases h
  | case2 tdir hr egrp hg =>
    cases h
    exact hg
  | case4 tdir hr hg hne ih => exact ih h

theorem merge_located {ngroups' : Groups} (h : merge tops items ngroups = .ok ngroups') (hke : KeysAre tops ngroups)
    (hpath : ∀ k g, ngroups.get k = some g → g.mountPath = k) :
    KeysAre tops ngroups' ∧ ∀ k g, ngroups'.get k = some g → g.mountPath = k := by
  induction items generalizing ngroups with
  | nil =>
    cases h
    exact ⟨hke,hpath⟩
  | cons e items ih =>
    obtain ⟨path,mpgrp⟩ := e
    rw [merge] at h
    split_ifs at h with hmem
    · exact ih h hke hpath
    · cases hp : parentGroup ngroups (dirname path) with
      | error stop =>
        rw [hp] at h
        cases h
      | ok r =>
        obtain ⟨k,g⟩ := r
        rw [hp] at h
        have hk := get_of_parentGroup hp
        refine ih h (hke.set hk _) fun k' g' hk' => ?_
        rw [get_set] at hk'
        split_ifs at hk' with heq
        · cases hk'
          rw [heq]
          exact hpath k g hk
        · exact hpath k' g' hk'

end

/-- The groups of a run without error: one for each top, with all that is below it. -/
structure Result (done : List MountPoint) (groups : List MountPointGroup) : Prop where
  tops : ∀ t, (∃ g ∈ groups, g.mountPath = t) ↔ Topmost (done.map MountPoint.mountPath) t
  distinct : (groups.map MountPointGroup.mountPath).Nodup
  first : ∀ g ∈ groups, g.first.mountPath = g.mountPath
  members : ∀ g ∈ groups, ∀ x, x ∈ g.mountPoints ↔ x ∈ done ∧ g.mountPath <+: x.mountPath

section
variable {done : List MountPoint} {groups : Groups} {order : SetOrder}

theorem topmost_keys (h : Grouped done groups) {t : Str} :
    Topmost (keys groups) t ↔ Topmost (done.map mountPath) t := by
  refine topmost_iff (fun k hk => ?_) fun p hp => ?_
  · obtain ⟨g,hg⟩ := mem_keys.1 hk
    exact h.key_mem hg
  · obtain ⟨k,g,hk,hkp⟩ := h.exists_key hp
    exact ⟨k,mem_keys.2 ⟨g,hk⟩,hkp⟩

theorem mem_tops (order : SetOrder) (h : Grouped done groups) (t : Str) :
    t ∈ topPaths order (keys groups) ↔ Topmost (done.map mountPath) t :=
  (mem_topPaths order groups.nodup t).trans (topmost_keys h)

theorem keysAre_topGroups (order : SetOrder) (groups : Groups) :
    KeysAre (topPaths order (keys groups)) (topGroups groups (order.arrange (topPaths order (keys groups)))) := by
  intro k
  simp only [get_topGroups,(order.perm _).mem_iff]
  constructor
  · exact fun h => h.elim fun _ hg => hg.1
  · intro hk
    obtain ⟨g,hg⟩ := mem_keys.1 ((mem_topPaths order groups.nodup k).1 hk).1
    exact ⟨g,hk,hg⟩

theorem merged_topGroups (order : SetOrder) (groups : Groups) :
    Merged groups (topPaths order (keys groups)) []
    (topGroups groups (order.arrange (topPaths order (keys groups)))) := by
  refine ⟨keysAre_topGroups order groups,fun t g hg => ⟨g,((get_topGroups _).1 hg).2,rfl,rfl,fun x => ?_⟩⟩
  simp

/-- After the merge the group of a top has the members of all groups below it. -/
theorem result_of_merged (hgr : Grouped done groups) {ngroups : Groups}
    (h : Merged groups (topPaths order (keys groups)) groups.entries ngroups) :
    Result done (ngroups.entries.map Prod.snd) := by
  have hen : ∀ g' ∈ ngroups.entries.map Prod.snd, ∃ t g, ngroups.get t = some g' ∧ groups.get t = some g ∧
    g'.mountPath = t ∧ g'.first = g.first ∧
      ∀ x, x ∈ g'.mountPoints ↔ x ∈ g.mountPoints ∨ ∃ e ∈ groups.entries, e.1 ∉ topPaths order (keys groups) ∧
        t <+: e.1 ∧ x ∈ e.2.mountPoints := by
    intro g' hg'
    obtain ⟨⟨t,g''⟩,he,rfl⟩ := mem_map.1 hg'
    have hge := mem_entries_iff.1 he
    obtain ⟨g,hg,hpath,hfirst,hmem⟩ := h.merged t g'' hge
    exact ⟨t,g,hge,hg,hpath.trans (hgr.located t g hg).1,hfirst,hmem⟩
  have hke : ∀ e ∈ ngroups.entries, e.2.mountPath = e.1 := by
    rintro ⟨t,g''⟩ he
    have hge := mem_entries_iff.1 he
    obtain ⟨g,hg,hpath,-⟩ := h.merged t g'' hge
    exact hpath.trans (hgr.located t g hg).1
  refine ⟨fun t => ?_,?_,fun g' hg' => ?_,fun g' hg' x => ?_⟩
  · rw [← mem_tops order hgr,← h.keys t]
    constructor
    · rintro ⟨g',hg',rfl⟩
      obtain ⟨t,-,hge,-,hpath,-⟩ := hen g' hg'
      exact ⟨g',hpath ▸ hge⟩
    · rintro ⟨g',hg'⟩
      exact ⟨g',mem_map.2 ⟨(t,g'),mem_of_get hg',rfl⟩,hke (t,g') (mem_of_get hg')⟩
  · rw [map_map]
    have hm : ngroups.entries.map (MountPointGroup.mountPath ∘ Prod.snd) = ngroups.entries.map Prod.fst :=
      map_congr_left hke
    rw [hm]
    exact ngroups.nodup
  · obtain ⟨t,g,-,hg,hpath,hfirst,-⟩ := hen g' hg'
    rw [hfirst,hpath]
    exact (hgr.located t g hg).2
  · obtain ⟨t,g,hge,hg,hpath,-,hmem⟩ := hen g' hg'
    have ht : Topmost (done.map mountPath) t := (mem_tops order hgr t).1 ((h.keys t).1 ⟨g',hge⟩)
    rw [hmem x,hpath]
    constructor
    · rintro (hx | ⟨e,he,-,hte,hx⟩)
      · exact hgr.within t g hg x hx
      · obtain ⟨hd,hbelow⟩ := hgr.within e.1 e.2 (mem_entries_iff.1 he) x hx
        exact ⟨hd,hte.trans hbelow⟩
    · rintro ⟨hx,hbelow⟩
      obtain ⟨k,i,hk,hxi⟩ := hgr.covered x hx
      have htk := ht.below (hgr.key_mem hk) (hgr.within k i hk x hxi).2 hbelow
      by_cases hkt : k ∈ topPaths order (keys groups)
      · have heq := ((mem_tops order hgr k).1 hkt).2 t ht.1 htk
        subst heq
        rw [hg] at hk
        cases hk
        exact .inl hxi
      · exact .inr ⟨(k,i),mem_of_get hk,hkt,htk,hxi⟩

def mergeTops (order : SetOrder) (groups : Groups) : Except Stop Groups :=
  merge (topPaths order (keys groups)) groups.entries (topGroups groups (order.arrange (topPaths order (keys groups))))

theorem fromSpecifications_eq (order : SetOrder) (bound : List BoundDir) (mounts : List MountPoint) :
    fromSpecifications order (some mounts) bound =
      (mergeTops order (mounts.foldl insert (bindAll bound))).map fun ngroups => ngroups.entries.map Prod.snd := by
  change (mergeTops order (mounts.foldl insert (bindAll bound)) >>= _) = _
  cases mergeTops order (mounts.foldl insert (bindAll bound)) <;> rfl

end

section
variable {bound : List BoundDir} {mounts l : List MountPoint} {order : SetOrder}

theorem head_paths : ∀ p ∈ paths bound mounts, p.head? = some '/' := by
  intro p hp
  obtain ⟨x,-,rfl⟩ := mem_map.1 hp
  exact x.absolute

theorem mem_paths_perm (hl : l.Perm mounts) (p : Str) : p ∈ paths bound l ↔ p ∈ paths bound mounts :=
  ((hl.append_left _).map _).mem_iff
theorem topmost_perm (hl : l.Perm mounts) (t : Str) : Topmost (paths bound l) t ↔ Topmost (paths bound mounts) t := by
  simp only [Topmost,mem_paths_perm hl]
theorem mem_points_perm (hl : l.Perm mounts) (x : MountPoint) : x ∈ points bound l ↔ x ∈ points bound mounts :=
  (hl.append_left _).mem_iff

theorem Result.perm {groups : List MountPointGroup} (hl : l.Perm mounts) (h : Result (points bound l) groups) :
    Result (points bound mounts) groups where
  tops t := (h.tops t).trans (topmost_perm hl t)
  distinct := h.distinct
  first := h.first
  members g hg x := (h.members g hg x).trans (and_congr_left' (mem_points_perm hl x))

/-- A run either gives the groups of the tops, and then what is below an improper top is one
group, or it fails. -/
theorem run_cases (order : SetOrder) (h : Separate bound mounts) (hl : l.Perm mounts)
    (ha : ∀ t t', Topmost (paths bound mounts) t → Topmost (paths bound mounts) t' → ¬Beneath t t') :
    (∃ groups, fromSpecifications order (some l) bound = .ok groups ∧ Result (points bound mounts) groups ∧
        ∀ t, Topmost (paths bound mounts) t → ¬Proper t → AtMostOne t (l.foldl insert (bindAll bound))) ∨
      ∃ stop, fromSpecifications order (some l) bound = .error stop ∧
        ∃ t, Topmost (paths bound mounts) t ∧ ¬Proper t ∧ ¬AtMostOne t (l.foldl insert (bindAll bound)) := by
  have hgr := grouped_run (h.perm hl)
  have hto := fun t => (mem_tops order hgr t).trans (topmost_perm hl t)
  rw [fromSpecifications_eq]
  generalize l.foldl insert (bindAll bound) = groups at hgr hto
  have hen : ∀ e ∈ groups.entries, e.1 ∈ paths bound mounts :=
    fun e he => (mem_paths_perm hl _).1 (hgr.key_mem (mem_entries_iff.1 he))
  rcases merge_cases hto ha head_paths hen (merged_topGroups order _) with ⟨ngroups,hm,hme,hp⟩ | ⟨stop,hm,e,he,
    hnot,t,ht,hte,hi⟩
  · rw [nil_append] at hme
    refine .inl ⟨_,
      by rw [mergeTops,hm]; rfl,(result_of_merged hgr hme).perm hl,fun t ht hi k g k' g' hk hk' htk ht' => ?_⟩
    -- a group below that is no top would be below a proper directory
    have hs : ∀ {k g}, groups.get k = some g → t <+: k → k = t := by
      intro k g hk htk
      have hkt : k ∈ topPaths order (keys groups) := by
        by_contra hkt
        exact hi (hp (k,g) (mem_of_get hk) hkt t ht htk)
      exact (((hto k).1 hkt).2 t ht.1 htk).symm
    rw [hs hk htk,hs hk' ht']
  · refine .inr ⟨stop,by rw [mergeTops,hm]; rfl,t,ht,hi,fun ho => hnot ?_⟩
    obtain ⟨g,hg⟩ := mem_keys.1 ((topmost_keys hgr).2 ((topmost_perm hl t).2 ht)).1
    rw [ho e.1 e.2 t g (mem_entries_iff.1 he) hg hte prefix_rfl]
    exact (hto t).2 ht

variable {t : Str} {groups : List MountPointGroup}

theorem atMostOne_bindAll (h : ∀ p ∈ boundPaths bound, ∀ q ∈ boundPaths bound, t <+: p → t <+: q → p = q) :
    AtMostOne t (bindAll bound) := by
  intro k g k' g' hk hk' htk ht'
  obtain ⟨item,hi,rfl,-⟩ := get_bindAll.1 hk
  obtain ⟨item',hi',rfl,-⟩ := get_bindAll.1 hk'
  exact h _ (mem_map_of_mem hi) _ (mem_map_of_mem hi') htk ht'

theorem mem_paths_of_bound {p : Str} (hp : p ∈ boundPaths bound) : p ∈ paths bound mounts := by
  rw [boundPaths_eq] at hp
  rw [paths,points,map_append]
  exact mem_append_left _ hp

theorem mem_paths_of_mount {m : MountPoint} (hm : m ∈ mounts) : m.mountPath ∈ paths bound mounts :=
  mem_map_of_mem (mem_append_right _ hm)

theorem Fit.atMostOne (h : Fit bound mounts) (hs : Separate bound mounts) (hl : l.Perm mounts)
    (ht : Topmost (paths bound mounts) t) (hi : ¬Proper t) : AtMostOne t (l.foldl insert (bindAll bound)) := by
  have hba : AtMostOne t (bindAll bound) := by
    refine atMostOne_bindAll fun p hp q hq htp htq => ?_
    by_contra hne
    exact (h.related t ht hi p (mem_paths_of_bound hp) q (mem_paths_of_bound hq) htp htq hne).1 ⟨hp,hq⟩
  have hbo : ∀ b ∈ boundPaths bound, b ∈ (bound.map mountPoint).map mountPath := by
    rw [boundPaths_eq]
    exact fun b hb => hb
  have hd : ∀ p ∈ (bound.map mountPoint).map mountPath, p ∈ paths bound mounts := by
    rw [← boundPaths_eq]
    exact fun p hp => mem_paths_of_bound hp
  exact hba.foldl (hs.perm hl).steady hbo hd (fun m hm => mem_paths_of_mount (hl.subset hm))
    fun p hp q hq htp htq hne => (h.related t ht hi p hp q hq htp htq hne).2

theorem Separate.not_topmost (h : Separate bound mounts) {m : MountPoint} (hm : m ∈ mounts) {item : BoundDir}
    (hi : item ∈ bound) (heq : item.mountPoint.mountPath = m.mountPath) :
    ¬Topmost (paths bound mounts) m.mountPath := by
  obtain ⟨b,hb,hbelow,hne⟩ := (h.nested m hm (heq ▸ mem_map_of_mem hi)).above
  exact fun ht => hne (ht.2 b (mem_paths_of_bound hb) hbelow)

theorem point_eq (h : Separate bound mounts) {x y : MountPoint} (hx : x ∈ points bound mounts)
    (hy : y ∈ points bound mounts) (hx' : x.mountPath = t) (hy' : y.mountPath = t)
    (ht : Topmost (paths bound mounts) t) : x = y := by
  rcases mem_append.1 hx with hx | hx <;> rcases mem_append.1 hy with hy | hy
  · obtain ⟨item,-,rfl⟩ := mem_map.1 hx
    obtain ⟨item',-,rfl⟩ := mem_map.1 hy
    exact mountPoint_eq (hx'.trans hy'.symm)
  · obtain ⟨item,hi,rfl⟩ := mem_map.1 hx
    exact absurd (hy' ▸ ht) (h.not_topmost hy hi (hx'.trans hy'.symm))
  · obtain ⟨item,hi,rfl⟩ := mem_map.1 hy
    exact absurd (hx' ▸ ht) (h.not_topmost hx hi (hy'.trans hx'.symm))
  · exact inj_on_of_nodup_map h.distinct hx hy (hx'.trans hy'.symm)

theorem countP_eq_one {α : Type} {p : α → Bool} {as : List α} {a : α} (hn : as.Nodup) (ha : a ∈ as) (hp : p a = true)
    (hu : ∀ b ∈ as, p b = true → b = a) : as.countP p = 1 := by
  rw [countP_eq_length_filter]
  have hmem : a ∈ as.filter p := mem_filter.2 ⟨ha,hp⟩
  have hal : as.filter p = replicate (as.filter p).length a := eq_replicate_of_mem fun b hb =>
    hu b (mem_of_mem_filter hb) (of_mem_filter hb)
  have hle : (as.filter p).length ≤ 1 := by
    have hs := hn.filter p
    rw [hal] at hs
    exact nodup_replicate.1 hs
  have hpo := length_pos_of_mem hmem
  omega

theorem Result.lossless (h : Fit bound mounts) (hr : Result (points bound mounts) groups) :
    Lossless (points bound mounts) groups where
  member x hx := by
    obtain ⟨t,ht,htx⟩ := exists_top (mem_map_of_mem hx : x.mountPath ∈ (points bound mounts).map mountPath)
    obtain ⟨g,hg,rfl⟩ := (hr.tops t).2 ht
    refine countP_eq_one (List.Nodup.of_map _ hr.distinct) hg
      (by simpa using (hr.members g hg x).2 ⟨hx,htx⟩) fun g' hg' hmem => ?_
    have hbelow := ((hr.members g' hg' x).1 (by simpa using hmem)).2
    have ht' := (hr.tops g'.mountPath).1 ⟨g',hg',rfl⟩
    exact inj_on_of_nodup_map hr.distinct hg' hg (ht'.unique ht hbelow htx)
  within g hg x hx := by
    obtain ⟨hp,hbelow⟩ := (hr.members g hg x).1 hx
    exact h.within _ ((hr.tops _).1 ⟨g,hg,rfl⟩) _ (mem_map_of_mem hp) hbelow
  apart g hg g' hg' := h.apart _ _ ((hr.tops _).1 ⟨g,hg,rfl⟩) ((hr.tops _).1 ⟨g',hg',rfl⟩)
  first := hr.first

theorem Result.same (hs : Separate bound mounts) {groups' : List MountPointGroup}
    (h : Result (points bound mounts) groups) (h' : Result (points bound mounts) groups') :
    SameGroups groups groups' := by
  intro g hg
  obtain ⟨g',hg',hpath⟩ := (h'.tops g.mountPath).2 ((h.tops _).1 ⟨g,hg,rfl⟩)
  refine ⟨g',hg',hpath,?_,fun x => ?_⟩
  · have hfirst := ((h.members g hg _).1 mem_cons_self).1
    have hf' := ((h'.members g' hg' _).1 mem_cons_self).1
    exact point_eq hs hf' hfirst ((h'.first g' hg').trans hpath) (h.first g hg) ((h.tops _).1 ⟨g,hg,rfl⟩)
  · rw [h'.members g' hg' x,h.members g hg x,hpath]

theorem Fit.result (h : Fit bound mounts) (hs : Separate bound mounts) (hl : l.Perm mounts) :
    ∃ groups, fromSpecifications order (some l) bound = .ok groups ∧ Result (points bound mounts) groups := by
  rcases run_cases order hs hl h.apart with ⟨groups,hr,hre,-⟩ | ⟨stop,-,t,ht,hi,hm⟩
  · exact ⟨groups,hr,hre⟩
  · exact absurd (h.atMostOne hs hl ht hi) hm

theorem Fit.settled (h : Fit bound mounts) (hs : Separate bound mounts) : Settled order bound mounts where
  lossless l hl := by
    obtain ⟨groups,hr,hre⟩ := h.result hs hl
    exact ⟨groups,hr,hre.lossless h⟩
  same order' l l' hl hl' groups groups' hr hr' := by
    obtain ⟨gs,hgs,hre⟩ := h.result hs hl
    obtain ⟨gs',hg',hre'⟩ := h.result hs hl'
    cases hr.symm.trans hgs
    cases hr'.symm.trans hg'
    exact hre.same hs hre'

theorem Settled.apart (h : Settled order bound mounts) (hs : Separate bound mounts) (t t' : Str)
    (ht : Topmost (paths bound mounts) t) (ht' : Topmost (paths bound mounts) t') : ¬Beneath t t' := by
  obtain ⟨groups,hr,hl⟩ := h.lossless mounts (.refl _)
  have hgr := grouped_run hs
  rw [fromSpecifications_eq] at hr
  cases hm : mergeTops order (mounts.foldl insert (bindAll bound)) with
  | error stop =>
    rw [hm] at hr
    cases hr
  | ok ngroups =>
    rw [hm] at hr
    cases hr
    obtain ⟨hke,hpath⟩ :=
      merge_located hm (keysAre_topGroups order _) fun k g hk => (hgr.located k g ((get_topGroups _).1 hk).2).1
    have hgro : ∀ {t}, Topmost (paths bound mounts) t → ∃ g ∈ ngroups.entries.map Prod.snd, g.mountPath = t := by
      intro t ht
      obtain ⟨g,hg⟩ := (hke t).2 ((mem_tops order hgr t).2 ht)
      exact ⟨g,mem_map.2 ⟨(t,g),mem_of_get hg,rfl⟩,hpath t g hg⟩
    obtain ⟨g,hg,rfl⟩ := hgro ht
    obtain ⟨g',hg',rfl⟩ := hgro ht'
    exact hl.apart g hg g' hg'

theorem Settled.run (h : Settled order bound mounts) (hs : Separate bound mounts) (hl : l.Perm mounts) :
    ∃ groups, fromSpecifications order (some l) bound = .ok groups ∧ Result (points bound mounts) groups ∧
      ∀ t, Topmost (paths bound mounts) t → ¬Proper t → AtMostOne t (l.foldl insert (bindAll bound)) := by
  rcases run_cases order hs hl (h.apart hs) with hr | ⟨stop,hr,-⟩
  · exact hr
  · obtain ⟨groups,hok,-⟩ := h.lossless l hl
    cases hr.symm.trans hok

theorem AtLeastTwo.not_atMostOne {groups : Groups} (h : AtLeastTwo t groups) : ¬AtMostOne t groups := by
  obtain ⟨k,g,k',g',hk,hk',htk,ht',hne⟩ := h
  exact fun ho => hne (ho k g k' g' hk hk' htk ht')

/-- The mount points at two unrelated paths, if they come first, have two groups. -/
theorem atLeastTwo_of_unrelated {early : List MountPoint} (h : Separate bound early) {p q : Str}
    (ht : Topmost (paths bound mounts) t) (he : ∀ k ∈ paths bound early, k ∈ paths bound mounts)
    (hpq : ∀ m ∈ early, m.mountPath = p ∨ m.mountPath = q) (hp : p ∈ paths bound early)
    (hq : q ∈ paths bound early) (htp : t <+: p) (htq : t <+: q)
    (hu : ¬Related bound p q) : AtLeastTwo t (early.foldl insert (bindAll bound)) := by
  have hg := grouped_run h
  obtain ⟨k,g,hk,hkp⟩ := hg.exists_key hp
  obtain ⟨k',g',hk',hkq⟩ := hg.exists_key hq
  refine ⟨k,g,k',g',hk,hk',ht.below (he k (hg.key_mem hk)) hkp htp,ht.below (he k' (hg.key_mem hk')) hkq htq,?_⟩
  rintro rfl
  -- the path of a common group is a bound directory or one of the two
  obtain ⟨x,hx,rfl⟩ := mem_map.1 (hg.key_mem hk)
  rcases mem_append.1 hx with hx | hx
  · refine hu (.inr (.inr ⟨x.mountPath,?_,hkp,hkq⟩))
    rw [boundPaths_eq]
    exact mem_map_of_mem hx
  · rcases hpq x hx with heq | heq
    · exact hu (.inl (heq ▸ hkq))
    · exact hu (.inr (.inl (heq ▸ hkp)))

/-- Two unrelated mount points that come first have two groups, for which no parent is found. -/
theorem Settled.related (h : Settled order bound mounts) (hs : Separate bound mounts) {p q : Str}
    (ht : Topmost (paths bound mounts) t) (hi : ¬Proper t) (hp : p ∈ paths bound mounts) (hq : q ∈ paths bound mounts)
    (htp : t <+: p) (htq : t <+: q) : Related bound p q := by
  by_contra hu
  obtain ⟨early,he⟩ : ∃ early, early = mounts.filter fun m => m.mountPath = p ∨ m.mountPath = q := ⟨_,rfl⟩
  obtain ⟨late,hla⟩ : ∃ late, late = mounts.filter fun m => !decide (m.mountPath = p ∨ m.mountPath = q) := ⟨_,rfl⟩
  have hl : (early ++ late).Perm mounts := by
    rw [he,hla]
    exact filter_append_perm _ _
  have hfirst : Separate bound early := by
    have ha := hs.perm hl
    refine ⟨?_,fun m hm => ha.nested m (mem_append_left _ hm)⟩
    have hn := ha.distinct
    rw [map_append] at hn
    exact hn.of_append_left
  have hc : ∀ {r}, r ∈ paths bound mounts → r = p ∨ r = q → r ∈ paths bound early := by
    intro r hr hpq
    obtain ⟨x,hx,rfl⟩ := mem_map.1 hr
    rcases mem_append.1 hx with hx | hx
    · exact mem_map_of_mem (mem_append_left _ hx)
    · refine mem_paths_of_mount ?_
      rw [he]
      exact mem_filter.2 ⟨hx,by simpa using hpq⟩
  have hsu : ∀ k ∈ paths bound early, k ∈ paths bound mounts := by
    intro k hk
    obtain ⟨x,hx,rfl⟩ := mem_map.1 hk
    refine mem_map_of_mem ((mem_append.1 hx).elim (mem_append_left _) fun hx => mem_append_right _ ?_)
    exact hl.subset (mem_append_left _ hx)
  have htw : AtLeastTwo t (early.foldl insert (bindAll bound)) := by
    refine atLeastTwo_of_unrelated hfirst ht hsu (fun m hm => ?_) (hc hp (.inl rfl)) (hc hq (.inr rfl)) htp htq hu
    rw [he] at hm
    simpa using of_mem_filter hm
  have hen := htw.foldl (hs.perm hl).steady.foldl ht fun m hm => mem_paths_of_mount
    (hl.subset (mem_append_right _ hm))
  rw [← foldl_append] at hen
  obtain ⟨groups,-,-,ho⟩ := h.run hs hl
  exact hen.not_atMostOne (ho t ht hi)

theorem Settled.fit (h : Settled order bound mounts) (hs : Separate bound mounts) : Fit bound mounts where
  within t ht p hp htp := by
    obtain ⟨groups,hru,hl⟩ := h.lossless mounts (.refl _)
    obtain ⟨groups',hr',hr,-⟩ := h.run hs (.refl _)
    cases hru.symm.trans hr'
    obtain ⟨g,hg,rfl⟩ := (hr.tops t).2 ht
    obtain ⟨x,hx,rfl⟩ := mem_map.1 hp
    exact hl.within g hg x ((hr.members g hg x).2 ⟨hx,htp⟩)
  apart := h.apart hs
  related t ht hi p hp q hq htp htq hne := by
    refine ⟨?_,h.related hs ht hi hp hq htp htq⟩
    rintro ⟨hpb,hqb⟩
    obtain ⟨item,hit,rfl⟩ := mem_map.1 hpb
    obtain ⟨item',hi',rfl⟩ := mem_map.1 hqb
    have htw : AtLeastTwo t (bindAll bound) :=
      ⟨_,_,_,_,get_bindAll.2 ⟨item,hit,rfl,rfl⟩,get_bindAll.2 ⟨item',hi',rfl,rfl⟩,htp,htq,hne⟩
    obtain ⟨groups,-,-,ho⟩ := h.run hs (.refl _)
    exact (htw.foldl hs.steady ht fun m hm => mem_paths_of_mount hm).not_atMostOne (ho t ht hi)

/-- All mount points are kept, below the paths of their groups and whatever their order, just if
beginnings of paths are directories and what is mounted below the root or below a file finds a
common group. -/
theorem settled_iff_fit (order : SetOrder) (bound : List BoundDir) (mounts : List MountPoint)
    (h : Separate bound mounts) : Settled order bound mounts ↔ Fit bound mounts :=
  ⟨fun hsettled => hsettled.fit h,fun hfit => hfit.settled h⟩

def asListed : SetOrder := ⟨id,fun _ => .refl _⟩
def usrDir : BoundDir := ⟨"/usr",rfl⟩
def etcDir : BoundDir := ⟨"/etc",rfl⟩
def libDir : BoundDir := ⟨"/usr/lib",rfl⟩
def mountAt (sourcePath rest : String) : MountPoint := ⟨sourcePath.toList,'/' :: rest.toList,rfl⟩
def hostMounts : List MountPoint := [mountAt "/run/hosts" "etc/hosts",mountAt "/opt/lib/" "usr/lib/"]

theorem topmost_usr_etc : ∀ t ∈ paths [usrDir,etcDir,libDir] hostMounts,
    Topmost (paths [usrDir,etcDir,libDir] hostMounts) t → t = "/usr/" ∨ t = "/etc/" := by
  decide +kernel

theorem fit_usr_etc : Fit [usrDir,etcDir,libDir] hostMounts where
  within t ht := by
    rcases topmost_usr_etc t ht.1 ht with rfl | rfl <;> decide +kernel
  apart t t' ht ht' := by
    rcases topmost_usr_etc t ht.1 ht with rfl | rfl <;>
      rcases topmost_usr_etc t' ht'.1 ht' with rfl | rfl <;> decide +kernel
  related t ht hi := by
    refine absurd ?_ hi
    rcases topmost_usr_etc t ht.1 ht with rfl | rfl
    · exact ⟨"/us",'r',rfl,by decide⟩
    · exact ⟨"/et",'c',rfl,by decide⟩

theorem usr_etc_settled : Settled asListed [usrDir,etcDir,libDir] hostMounts :=
  (settled_iff_fit asListed _ _ ⟨by decide +kernel,by decide +kernel⟩).2 fit_usr_etc

/-- A file is put below another one whose path it only begins with, and a bound directory is lost if
something is mounted in its place. -/
theorem unbound_conf_misplaced : Separate [] [mountAt "/run/a" "tmp/unbound",mountAt "/run/b" "tmp/unbound.conf"] ∧
    fromSpecifications asListed (some [mountAt "/run/a" "tmp/unbound",mountAt "/run/b" "tmp/unbound.conf"]) [] =
      .ok [⟨"/tmp/unbound",mountAt "/run/a" "tmp/unbound",[mountAt "/run/b" "tmp/unbound.conf"]⟩] ∧
    ¬Within "/tmp/unbound.conf" "/tmp/unbound" ∧
    fromSpecifications asListed (some [mountAt "/opt/usr/" "usr/"]) [usrDir] =
      .ok [⟨"/usr/",mountAt "/opt/usr/" "usr/",[]⟩] ∧
    usrDir.mountPoint ∉ [mountAt "/opt/usr/" "usr/"] := by
  refine ⟨⟨by decide +kernel,by decide +kernel⟩,?_,by decide +kernel,?_,by decide +kernel⟩
  · decide +kernel
  · decide +kernel

end

end Padsi.Bubble
