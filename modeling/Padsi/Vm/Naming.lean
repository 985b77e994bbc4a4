import Padsi.Vm.Unused

/-! # The texts of versions -/
namespace Padsi.Vm
open Python Text List VMVersionType

structure Shown where
  uid : Option Uid
  versionType : VMVersionType
  versionNumber : Option ℤ
  staged : Bool
  staged_base : staged = true → versionType = .base ∧ versionNumber = none

def ownerText : Option Uid → Str
  | none => []
  | some uid => Nat.toDigits 10 uid ++ ['/']

def Shown.str (v : Shown) : Str :=
  ownerText v.uid ++ bif v.staged then ("staged" : Str) else stem v.versionType v.versionNumber

/-- In `re.match`, `$` also stands before a newline at the end. -/
def nicknameIsValid (nickname : Str) : Bool :=
  (match removesuffix "\n" nickname with
    | [] => false
    | c :: s => c.isAlpha && s.all fun c => c.isAlphanum || c = '_' || c = '-') &&
  decide (nickname ∉ (["staged","base","user","snapshot"] : List Str))

def parseNickname (remain : Str) : Option (VMVersionType × Option ℤ × Option Str) :=
  if nicknameIsValid remain then some (.snap,none,some remain) else none

def parseRemain (U : Unicode) (remain : Str) : Option (VMVersionType × Option ℤ × Option Str) :=
  match remain.splitOn '.' with
  | [t] =>
    if t = "staged" then some (.base,none,none)
    else match VMVersionType.ofValue t with
      | some vtype => some (vtype,none,none)
      | none => parseNickname remain
  | [t,n] =>
    if t = "staged" then some (.base,none,none)
    else match VMVersionType.ofValue t, int U n with
      | some vtype, some num => if num < 0 then parseNickname remain else some (vtype,some num,none)
      | _, _ => parseNickname remain
  | _ => none

def parseOwner (U : Unicode) (vmVersion : Str) : Option (Option ℤ × Str) :=
  match vmVersion.splitOn '/' with
  | [remain] => some (none,remain)
  | [userid,remain] => (int U userid).map fun userid => (some userid,remain)
  | _ => none

def parseVmVersion (U : Unicode) (vmVersion : Str) :
    Option (Option ℤ × VMVersionType × Option ℤ × Bool × Option Str) := do
  let (userid,remain) ← parseOwner U vmVersion
  let (vtype,num,nickname) ← parseRemain U remain
  return (userid,vtype,num,num.isNone && nickname.isNone,nickname)

theorem mem_of_nicknameIsValid {s : Str} (h : nicknameIsValid s) {c : Char} (hc : c ∈ s) :
    (c.isAlphanum || c = '_' || c = '-' || c = '\n') = true := by
  have hm : c ∈ removesuffix "\n" s ∨ c = '\n' := by
    unfold removesuffix
    split_ifs with hn
    · obtain ⟨t,rfl⟩ := hn
      simpa using hc
    · exact .inl hc
  rw [nicknameIsValid,Bool.and_eq_true] at h
  have hv := h.1
  split at hv
  · cases hv
  · rename_i d t he
    rw [he,mem_cons] at hm
    simp only [Bool.and_eq_true,all_eq_true] at hv
    rcases hm with (rfl | hm) | rfl
    · simp [Char.isAlphanum,hv.1]
    · rw [hv.2 c hm]
      rfl
    · rfl

theorem parseRemain_nickname {s : Str} (U : Unicode) (h : nicknameIsValid s) (hs : s ≠ "snap") :
    parseRemain U s = some (.snap,none,some s) := by
  have hd : '.' ∉ s := fun hc => absurd (mem_of_nicknameIsValid h hc) (by decide)
  have hr : s ∉ (["staged","base","user","snapshot"] : List Str) := by
    rw [nicknameIsValid,Bool.and_eq_true] at h
    exact of_decide_eq_true h.2
  simp only [mem_cons,not_or] at hr
  have ho : ofValue s = none := by
    rw [ofValue,find?_eq_none]
    intro t _ ht
    cases t with
    | base => exact hr.2.1 (of_decide_eq_true ht).symm
    | user => exact hr.2.2.1 (of_decide_eq_true ht).symm
    | snap => exact hs (of_decide_eq_true ht).symm
  rw [parseRemain,splitOn_eq_singleton hd]
  simp only [if_neg hr.1,ho,parseNickname,if_pos h]

theorem slash_not_mem_stem (t : VMVersionType) (number : Option ℤ) : '/' ∉ stem t number := by
  have ht : '/' ∉ t.value := by
    cases t <;> decide
  cases number with
  | none => exact ht
  | some n =>
    rw [stem,mem_append,mem_cons]
    rintro (h | h | h)
    · exact ht h
    · cases h
    · exact not_mem_decimal rfl (by decide) n h

section
variable {U : Unicode} (hU : U.Lawful)
include hU

theorem parseOwner_ownerText (uid : Option Uid) {s : Str} (hs : '/' ∉ s) :
    parseOwner U (ownerText uid ++ s) = some (uid.map Nat.cast,s) := by
  cases uid with
  | none => rw [parseOwner,ownerText,nil_append,splitOn_eq_singleton hs,Option.map_none]
  | some uid =>
    have hu : '/' ∉ Nat.toDigits 10 uid := fun h => absurd (digits_solid _ _ h) (by decide)
    rw [parseOwner,ownerText,append_assoc,singleton_append,splitOn_append_cons_self,splitOn_eq_singleton hu,
      splitOn_eq_singleton hs]
    simp only [singleton_append,int_toDigits hU,Option.map_some]

theorem parseRemain_stem (t : VMVersionType) (n : ℤ) :
    parseRemain U (stem t (some n)) = if n < 0 then none else some (t,some n,none) := by
  have hv : '.' ∉ t.value ∧ t.value ≠ "staged" := by
    cases t <;> decide
  have hd : '.' ∈ stem t (some n) := by simp [stem]
  have hn : ¬nicknameIsValid (stem t (some n)) := fun h => absurd (mem_of_nicknameIsValid h hd) (by decide)
  rw [parseRemain,parseNickname,if_neg hn,stem,splitOn_append_cons_self,splitOn_eq_singleton hv.1,
    splitOn_eq_singleton (not_mem_decimal rfl (by decide) n)]
  simp only [singleton_append,if_neg hv.2,ofValue_value_eq,int_decimal hU]

/-- A version without a number must be staged, and no number is negative. The nickname `snap` is a type. -/
theorem texts_parse_back_iff :
    (∀ v : Shown, parseVmVersion U v.str = some (v.uid.map Nat.cast,v.versionType,v.versionNumber,v.staged,none) ↔
      (v.versionNumber = none → v.staged) ∧ ∀ n ∈ v.versionNumber, 0 ≤ n) ∧
    ∀ uid nickname, nicknameIsValid nickname →
      (parseVmVersion U (ownerText uid ++ nickname) = some (uid.map Nat.cast,.snap,none,false,some nickname) ↔
        nickname ≠ "snap") := by
  constructor
  · rintro ⟨uid,t,number,staged,hb⟩
    cases staged with
    | true =>
      obtain ⟨rfl,rfl⟩ := hb rfl
      rw [parseVmVersion,Shown.str,cond_true,parseOwner_ownerText hU uid (by decide)]
      exact iff_of_true rfl (by simp)
    | false =>
      rw [parseVmVersion,Shown.str,cond_false,parseOwner_ownerText hU uid (slash_not_mem_stem t number)]
      cases number with
      | none =>
        have hr : parseRemain U (stem t none) = some (t,none,none) := by
          cases t <;> rfl
        simp [hr]
      | some n =>
        simp only [Option.bind_eq_bind,Option.bind_some,parseRemain_stem hU]
        split_ifs with hn
        · simpa using hn
        · simpa using hn
  · intro uid nickname hv
    rw [parseVmVersion,parseOwner_ownerText hU uid fun hc => absurd (mem_of_nicknameIsValid hv hc) (by decide)]
    by_cases hs : nickname = "snap"
    · rw [hs]
      refine iff_of_false (fun h => ?_) (not_not_intro rfl)
      cases h
    · refine iff_of_true ?_ hs
      simp [parseRemain_nickname U hv hs]

end

/-- The first base version of user 1000 is read back. -/
theorem first_base_parses_back : Unicode.ascii.Lawful ∧
    parseVmVersion Unicode.ascii (⟨some 1000,.base,some 1,false,by simp⟩ : Shown).str =
      some (some 1000,.base,some 1,false,none) :=
  ⟨Unicode.lawful_ascii,
    ((texts_parse_back_iff Unicode.lawful_ascii).1 ⟨some 1000,.base,some 1,false,by simp⟩).2 (by simp)⟩

/-- A base version without a number is read as staged, and the nickname `snap` as no nickname. -/
theorem base_read_as_staged :
    parseVmVersion Unicode.ascii (⟨none,.base,none,false,by simp⟩ : Shown).str = some (none,.base,none,true,none) ∧
    nicknameIsValid "snap" = true ∧ parseVmVersion Unicode.ascii "snap" = some (none,.snap,none,true,none) :=
  ⟨rfl,by decide,rfl⟩

end Padsi.Vm
