import Padsi.Wayland.Filter

/-! # Removal of selected messages

The bytes that remain and the size counter are described separately: the bytes never
depend on the counter.
-/
namespace Padsi.Wayland
open Rust List

def Spaced (data : List UInt8) : ℕ → List MessageMeta → Prop
  | _, [] => True
  | i, m :: ms => i ≤ m.index ∧ m.InBuffer data ∧ Spaced data (m.index + m.size) ms

variable {data : List UInt8} {i : ℕ} {ms : List MessageMeta}

theorem Spaced.mono {j : ℕ} (h : Spaced data i ms) (hj : j ≤ i) : Spaced data j ms := by
  cases ms with
  | nil => trivial
  | cons m ms => exact ⟨hj.trans h.1,h.2⟩

theorem Contiguous.spaced (h : Contiguous data i ms) : Spaced data i ms := by
  induction ms generalizing i with
  | nil => trivial
  | cons m ms ih =>
    obtain ⟨rfl,hb,hms⟩ := h
    exact ⟨le_rfl,hb,ih hms⟩

theorem Spaced.filter (h : Spaced data i ms) (p : MessageMeta → Bool) : Spaced data i (ms.filter p) := by
  induction ms generalizing i with
  | nil => trivial
  | cons m ms ih =>
    obtain ⟨hi,hb,hms⟩ := h
    rw [filter_cons]
    split
    · exact ⟨hi,hb,ih hms⟩
    · exact (ih hms).mono (by omega)

theorem Spaced.inBuffer (h : Spaced data i ms) : ∀ m ∈ ms, m.InBuffer data := by
  induction ms generalizing i with
  | nil => simp
  | cons m ms ih =>
    intro m' hm'
    rcases mem_cons.1 hm' with rfl | hm'
    · exact h.2.1
    · exact ih h.2.2 m' hm'

def cut (data : List UInt8) : List MessageMeta → List UInt8
  | [] => data
  | m :: ms => (cut data ms).take m.index ++ (cut data ms).drop (m.index + m.size)

def sizeAfter (T : Target) (size : ℕ) : List MessageMeta → Partial ℕ
  | [] => .ok size
  | m :: ms => do usizeSub T (← sizeAfter T size ms) m.size

def totalSize (ms : List MessageMeta) : ℕ := (ms.map (·.size)).sum

@[simp] theorem totalSize_nil : totalSize [] = 0 := rfl
@[simp] theorem totalSize_cons (m : MessageMeta) (ms : List MessageMeta) :
    totalSize (m :: ms) = m.size + totalSize ms := by simp [totalSize]

/-- Bytes before the first removed message stay, and the rest shrinks by the
sizes of the removed messages. -/
theorem cut_spec (h : Spaced data i ms) :
    (cut data ms).take i = data.take i ∧ (cut data ms).length + totalSize ms = data.length := by
  induction ms generalizing i with
  | nil => simp [cut]
  | cons m ms ih =>
    obtain ⟨hi,⟨hs,hb⟩,hms⟩ := h
    obtain ⟨ht,hl⟩ := ih hms
    have hle : m.index + m.size ≤ (cut data ms).length := by
      have he := congrArg length ht
      simp only [length_take] at he
      omega
    have hid : (cut data ms).take m.index = data.take m.index := by
      have he := congrArg (take m.index) ht
      simpa only [take_take,Nat.min_eq_left (Nat.le_add_right m.index m.size)] using he
    constructor
    · have hm : min i m.index = i := Nat.min_eq_left hi
      have hz : i - ((cut data ms).take m.index).length = 0 := by
        rw [length_take]
        omega
      rw [cut,take_append,take_take,hz,hm,take_zero,append_nil]
      have he := congrArg (take i) hid
      simpa only [take_take,hm] using he
    · simp only [cut,totalSize_cons,length_append,length_take,length_drop]
      omega

theorem cut_room {m : MessageMeta}
    (h : Spaced data i (m :: ms)) : m.index + m.size ≤ (cut data ms).length := by
  have ht := congrArg length (cut_spec h.2.2).1
  have hb := h.2.1.2
  simp only [length_take] at ht
  omega

/-- The removal loop on ordered messages: only the size counter can fail. -/
theorem removeMessages_eq (T : Target) (b : ProxyBuffer) (h : Spaced b.data i ms) :
    b.removeMessages T ms = (sizeAfter T b.size ms >>= fun n => .ok ⟨cut b.data ms,n⟩) := by
  have hl : ms.reverse.foldlM (ProxyBuffer.removeStep T) (none,b) =
      (sizeAfter T b.size ms >>= fun n => .ok (ms.head?.map (·.index),⟨cut b.data ms,n⟩)) := by
    induction ms generalizing i with
    | nil => rfl
    | cons m ms ih =>
      have hr := cut_room h
      have hla : ¬ (Option.any (fun x => decide (m.index > x)) (ms.head?.map (·.index)) = true) := by
        cases ms with
        | nil => simp
        | cons m' ms =>
          have hm := h.2.2.1
          simp only [head?_cons,Option.map_some,Option.any_some,decide_eq_true_eq]
          omega
      simp only [reverse_cons,foldlM_append,ih h.2.2,bind_assoc,sizeAfter]
      cases hs : sizeAfter T b.size ms with
      | error e => rfl
      | ok n =>
        simp only [ok_bind,foldlM_cons,foldlM_nil,ProxyBuffer.removeStep]
        rw [if_neg hla,splice_ok _ (Nat.le_add_right _ _) hr]
        cases usizeSub T n m.size with
        | error e => rfl
        | ok n' => simp [cut]
  rw [ProxyBuffer.removeMessages,hl]
  cases sizeAfter T b.size ms <;> rfl

theorem sizeAfter_of_le (T : Target) {size : ℕ} (h : totalSize ms ≤ size) :
    sizeAfter T size ms = .ok (size - totalSize ms) := by
  induction ms with
  | nil => rfl
  | cons m ms ih =>
    rw [totalSize_cons] at h ⊢
    rw [sizeAfter, ih (by omega), ok_bind, usizeSub_of_le T (by omega)]
    congr 1
    omega

theorem returns_sizeAfter (T : Target) {size : ℕ} :
    Returns (sizeAfter T size ms) ↔ (T.overflowChecks = true → totalSize ms ≤ size) := by
  rcases le_or_gt (totalSize ms) size with hle | hgt
  · rw [sizeAfter_of_le T hle]
    simp [hle]
  · cases hc : T.overflowChecks with
    | false =>
      have hr : Returns (sizeAfter T size ms) := by
        clear hgt
        induction ms with
        | nil => exact returns_ok _
        | cons m ms ih =>
          obtain ⟨n,hn⟩ := ih
          rw [sizeAfter,hn,ok_bind]
          rcases le_or_gt m.size n with h | h
          · rw [usizeSub_of_le T h]
            exact returns_ok _
          · rw [usizeSub_of_lt T h,hc]
            exact returns_ok _
      simp [hr]
    | true =>
      have hr : ¬ Returns (sizeAfter T size ms) := by
        induction ms with
        | nil => simp at hgt
        | cons m ms ih =>
          rw [totalSize_cons] at hgt
          rw [sizeAfter,returns_bind]
          rintro ⟨n,hn,hs⟩
          rcases le_or_gt (totalSize ms) size with hle | hlt
          · rw [sizeAfter_of_le T hle] at hn
            cases hn
            rw [usizeSub_of_lt T (by omega), hc] at hs
            exact not_returns_error _ hs
          · exact ih hlt ⟨n,hn⟩
      simp [hr,hgt]

end Padsi.Wayland
