import Mathlib.Tactic
import Mathlib.Data.List.Basic

/-! Threads as a list of program counters. How many threads stand at a place is a
count; moving one thread changes it by what that thread contributes. -/
namespace SdkCp
namespace Threads

variable {α : Type*}

theorem getElem?_set_cases {l : List α} {i j : ℕ} {a b : α} (h : (l.set i a)[j]? = some b) :
    (j = i ∧ b = a) ∨ (j ≠ i ∧ l[j]? = some b) := by
  rw [List.getElem?_set] at h
  by_cases hij : i = j
  · subst hij
    simp only [if_true] at h
    split at h <;> simp_all
  · exact .inr ⟨Ne.symm hij,by simpa [hij] using h⟩

theorem getElem?_concat {l : List α} {i : ℕ} {a : α} :
    (l++[a])[i]? = if i = l.length then some a else l[i]? := by
  rw [List.getElem?_append]
  split
  · rw [if_neg (by omega)]
  · split
    · simp_all
    · rw [List.getElem?_eq_none_iff.mpr (by simp only [List.length_singleton]; omega),
        List.getElem?_eq_none_iff.mpr (by omega)]

theorem getElem?_concat_cases {l : List α} {i : ℕ} {a b : α} (h : (l++[a])[i]? = some b) :
    l[i]? = some b ∨ i = l.length ∧ b = a := by
  rw [getElem?_concat] at h
  split at h
  · rename_i hi
    exact .inr ⟨hi,(Option.some.inj h).symm⟩
  · exact .inl h

theorem set_self {l : List α} {i : ℕ} {a : α} (h : l[i]? = some a) : l.set i a = l := by
  obtain ⟨hlt,rfl⟩ := List.getElem?_eq_some_iff.mp h
  exact List.set_getElem_self hlt

theorem any_iff {l : List α} {p : α → Bool} :
    l.any p = true ↔ ∃ (i : ℕ) (a : α), l[i]? = some a ∧ p a = true := by
  rw [List.any_eq_true]
  constructor
  · rintro ⟨a,ha,hp⟩
    obtain ⟨i,hi⟩ := List.getElem?_of_mem ha
    exact ⟨i,a,hi,hp⟩
  · rintro ⟨i,a,hi,hp⟩
    exact ⟨a,List.mem_of_getElem? hi,hp⟩

theorem countP_set_add {l : List α} {i : ℕ} {a b : α} (h : l[i]? = some a) (p : α → Bool) :
    (l.set i b).countP p+(p a).toNat = l.countP p+(p b).toNat := by
  obtain ⟨hlt,rfl⟩ := List.getElem?_eq_some_iff.mp h
  have hle : p l[i] = true → 0 < l.countP p := fun hp =>
    List.countP_pos_iff.mpr ⟨_,List.getElem_mem hlt,hp⟩
  rw [List.countP_set hlt]
  cases hpa : p l[i] <;> cases p b <;> simp_all

theorem countP_pos {l : List α} {i : ℕ} {a : α} {p : α → Bool} (h : l[i]? = some a)
    (hp : p a = true) : 0 < l.countP p :=
  List.countP_pos_iff.mpr ⟨a,List.mem_of_getElem? h,hp⟩

theorem eq_of_countP_le_one {l : List α} {i j : ℕ} {a b : α} {p : α → Bool}
    (hle : l.countP p ≤ 1) (hi : l[i]? = some a) (hj : l[j]? = some b)
    (ha : p a = true) (hb : p b = true) : i = j := by
  induction l generalizing i j with
  | nil => simp at hi
  | cons x l ih =>
    rw [List.countP_cons] at hle
    cases i with
    | zero =>
      obtain rfl : x = a := by simpa using hi
      cases j with
      | zero => rfl
      | succ j =>
        have hpos := countP_pos (l:=l) (i:=j) (by simpa using hj) hb
        rw [if_pos ha] at hle
        omega
    | succ i =>
      cases j with
      | zero =>
        obtain rfl : x = b := by simpa using hj
        have hpos := countP_pos (l:=l) (i:=i) (by simpa using hi) ha
        rw [if_pos hb] at hle
        omega
      | succ j =>
        exact congrArg (·+1) (ih (by omega) (by simpa using hi) (by simpa using hj))

end Threads
end SdkCp
