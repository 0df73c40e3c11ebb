import Mathlib.Tactic
import Mathlib.Data.List.Basic

/-! Hashes that fold a step over their input. Where the step can be undone, in the state and in the
item, every change of one item shows in the hash. -/
namespace SdkCp
namespace FoldHash

variable {H α : Type*}

/-- Neither the state before nor the item is lost in a step. -/
structure Reversible (step : H → α → H) : Prop where
  state : ∀ a, Function.Injective fun h => step h a
  item : ∀ h, Function.Injective (step h)

variable {step : H → α → H}

theorem Reversible.foldl_injective (hstep : Reversible step) (xs : List α) :
    Function.Injective fun h => xs.foldl step h := by
  induction xs with
  | nil => exact fun _ _ h => h
  | cons a xs ih => exact ih.comp (hstep.state a)

theorem Reversible.foldl_set_ne (hstep : Reversible step) {xs : List α} {i : ℕ} {a : α}
    (hi : i < xs.length) (hne : xs[i]? ≠ some a) (h : H) :
    (xs.set i a).foldl step h ≠ xs.foldl step h := by
  intro heq
  have hset : xs.set i a = xs.take i ++ a::xs.drop (i+1) :=
    List.set_eq_take_append_cons_drop.trans (if_pos hi)
  have hold : xs.foldl step h = (xs.take i ++ xs[i]::xs.drop (i+1)).foldl step h := by
    rw [List.getElem_cons_drop,List.take_append_drop]
  rw [hset,hold] at heq
  simp only [List.foldl_append,List.foldl_cons] at heq
  have hitem := hstep.item _ (hstep.foldl_injective _ heq)
  exact hne (by rw [List.getElem?_eq_getElem hi,hitem])

section window

variable {xs : List α} {p n k : ℕ} {a : α}

theorem window_set_outside (h : p < n ∨ n+k ≤ p) :
    ((xs.set p a).drop n).take k = (xs.drop n).take k := by
  rw [List.drop_set]
  split
  · rfl
  · rw [List.take_set_of_le (by omega)]

theorem window_set_inside (hn : n ≤ p) :
    ((xs.set p a).drop n).take k = ((xs.drop n).take k).set (p-n) a := by
  rw [List.drop_set,if_neg (by omega),List.take_set]

theorem getElem?_window (hn : n ≤ p) (hk : p < n+k) : ((xs.drop n).take k)[p-n]? = xs[p]? := by
  rw [List.getElem?_take_of_lt (by omega),List.getElem?_drop,Nat.add_sub_cancel' hn]

end window

end FoldHash
end SdkCp
