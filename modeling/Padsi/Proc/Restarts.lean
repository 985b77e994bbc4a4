import Padsi.Proc.Table

/-! # The rate of restarts

The times of the last five starts are readings of a clock that may be set back.
-/
namespace Padsi.Proc.ProcessSpec
open List

def after (required : Bool) (times : List UInt64) : ProcessSpec := times.foldl started ⟨required,true,[]⟩

/-- The subtraction of `may_restart` is below zero. -/
def Overflows (spec : ProcessSpec) : Prop :=
  spec.restartEvents.length = restartEventsCount ∧
    spec.restartEvents.getD (restartEventsCount - 1) 0 < spec.restartEvents.getD 0 0

/-- A span of time, where the clock was not set back. -/
def Spans (times : List UInt64) (i j : ℕ) : Prop :=
  times.getD i 0 ≤ times.getD j 0 ∧ restartMinDelay ≤ times.getD j 0 - times.getD i 0

structure Limited (required : Bool) (times : List UInt64) : Prop where
  exact : ∀ n ≤ times.length, ¬(after required (times.take n)).Overflows
  six : times.Pairwise (· ≤ ·) → (∀ n < times.length, 0 < n → (after required (times.take n)).mayRestart) →
    ∀ i, i + 5 < times.length → Spans times i (i + 5)
  answers : ∀ n ≤ times.length, n < 5 ∨ Spans times (n - 5) (n - 1) → (after required (times.take n)).mayRestart

theorem after_eq (required : Bool) (times : List UInt64) :
    after required times = ⟨required,true,times.drop (times.length - 5)⟩ := by
  induction times using reverseRecOn with
  | nil => rfl
  | append_singleton times t ih =>
    rw [after,foldl_append,← after,ih,foldl_cons,foldl_nil,started,length_append,length_singleton]
    have hl : times.length + 1 - 5 ≤ times.length := by omega
    rw [drop_append_of_le_length hl,mk.injEq]
    refine ⟨rfl,rfl,congrArg (· ++ [t]) ?_⟩
    simp only [restartEventsCount,length_drop]
    split_ifs with h
    · rw [tail_drop]
      congr 1
      omega
    · congr 1
      omega

variable {required : Bool} {times : List UInt64} {n : ℕ}

theorem getD_after (hn : n ≤ times.length) {i : ℕ} (hi : i < 5) (h : 5 ≤ n) :
    (after required (times.take n)).restartEvents.getD i 0 = times.getD (n - 5 + i) 0 := by
  rw [after_eq,length_take_of_le hn,getD_eq_getElem?_getD,getD_eq_getElem?_getD,getElem?_drop,
    getElem?_take_of_lt (by omega)]

theorem ends_after (hn : n ≤ times.length) (h : 5 ≤ n) :
    (after required (times.take n)).restartEvents.getD (restartEventsCount - 1) 0 = times.getD (n - 1) 0 ∧
      (after required (times.take n)).restartEvents.getD 0 0 = times.getD (n - 5) 0 := by
  have he : n - 5 + (5 - 1) = n - 1 := by omega
  exact ⟨(getD_after hn (by decide) h).trans (by rw [restartEventsCount,he]),getD_after hn (by decide) h⟩

theorem length_after (hn : n ≤ times.length) :
    (after required (times.take n)).restartEvents.length = restartEventsCount ↔ 5 ≤ n := by
  rw [after_eq,length_drop,length_take_of_le hn,restartEventsCount]
  omega

theorem overflows_iff (hn : n ≤ times.length) :
    (after required (times.take n)).Overflows ↔ 5 ≤ n ∧ times.getD (n - 1) 0 < times.getD (n - 5) 0 := by
  rw [Overflows,length_after hn]
  refine and_congr_right fun h => ?_
  rw [(ends_after hn h).1,(ends_after hn h).2]

theorem mayRestart_iff (hn : n ≤ times.length) : (after required (times.take n)).mayRestart = true ↔
    (5 ≤ n → restartMinDelay ≤ times.getD (n - 1) 0 - times.getD (n - 5) 0) := by
  have hr : (after required (times.take n)).restart = true := by rw [after_eq]
  rw [mayRestart,hr]
  simp only [length_after hn]
  by_cases h : 5 ≤ n
  · rw [(ends_after hn h).1,(ends_after hn h).2]
    simp [h]
  · simp [h]

/-- The subtraction is right if the clock was not set back below the fourth start before. -/
theorem limited_iff : Limited required times ↔ ∀ i, i + 4 < times.length → times.getD i 0 ≤ times.getD (i + 4) 0 := by
  constructor
  · intro h i hi
    have he := h.exact (i + 5) hi
    rw [overflows_iff hi,not_and] at he
    exact UInt64.not_lt.1 (he (by omega))
  · intro h
    refine ⟨fun n hn => ?_,fun hs hr i hi => ?_,fun n hn hsp => ?_⟩
    · rw [overflows_iff hn]
      rintro ⟨hf,hlt⟩
      obtain ⟨i,rfl⟩ := Nat.exists_eq_add_of_le' hf
      exact UInt64.not_lt.2 (h i hn) hlt
    · -- the answer before the last of the six starts
      have ha := (mayRestart_iff hi.le).1 (hr _ hi (by omega)) (by omega)
      have hle := h i (by omega)
      have hl : times.getD (i + 4) 0 ≤ times.getD (i + 5) 0 := by
        rw [getD_eq_getElem _ _ hi,getD_eq_getElem _ _ (by omega)]
        exact pairwise_iff_getElem.1 hs _ _ _ _ (by omega)
      simp only [Nat.add_sub_cancel,Nat.reduceSubDiff] at ha
      rw [Spans,UInt64.le_iff_toNat_le,UInt64.le_iff_toNat_le,UInt64.toNat_sub_of_le _ _ (UInt64.le_trans hle hl)]
      rw [UInt64.le_iff_toNat_le] at ha hle hl
      rw [UInt64.toNat_sub_of_le _ _ hle] at ha
      omega
    · rw [mayRestart_iff hn]
      intro hf
      exact (hsp.resolve_left (by omega)).2

theorem set_back_overflows : (∀ n < 5, (after false ([100,101,102,103,50].take n)).mayRestart = true) ∧
    (after false [100,101,102,103,50]).Overflows :=
  ⟨by decide,by rw [Overflows]; decide⟩

end Padsi.Proc.ProcessSpec
