import SdkCp.TransitionSystem
import Mathlib.Tactic

/-! Runs that end. Where every allowed step lowers a measure, no run of them is longer
than the measure, and each can be continued to a state that allows no further step. A
measure of many threads is a sum, of which one thread's step changes one term. -/
namespace SdkCp
namespace TransitionSystem

variable {S E : Type*} {sys : TransitionSystem S E} {ok : S → E → Prop} {P : S → Prop} {μ : S → ℕ}

/-- No allowed event is enabled. -/
def AtRest (sys : TransitionSystem S E) (ok : S → E → Prop) (s : S) : Prop :=
  ∀ e, ok s e → sys.step s e = none

/-- Allowed steps keep `P` and lower `μ`. -/
def Lowers (sys : TransitionSystem S E) (ok : S → E → Prop) (P : S → Prop) (μ : S → ℕ) : Prop :=
  ∀ s e t, P s → ok s e → sys.step s e = some t → P t ∧ μ t < μ s

theorem Lowers.exec (h : sys.Lowers ok P μ) {s t : S} {es : List E} (hs : P s)
    (hok : sys.Allowed ok s es) (ht : sys.exec s es = some t) : P t ∧ μ t+es.length ≤ μ s := by
  induction es generalizing s with
  | nil =>
    obtain rfl := Option.some.inj ht
    exact ⟨hs,Nat.le_refl _⟩
  | cons e es ih =>
    obtain ⟨u,hu,ht⟩ := Option.bind_eq_some_iff.mp ht
    obtain ⟨hPu,hlt⟩ := h s e u hs hok.1 hu
    obtain ⟨hPt,hle⟩ := ih hPu (hok.2 u hu) ht
    refine ⟨hPt,?_⟩
    rw [List.length_cons]
    omega

/-- The rest is reached whatever is chosen on the way; here some choice is taken. -/
theorem Lowers.exists_rest (h : sys.Lowers ok P μ) {s : S} (hs : P s) :
    ∃ es t, sys.Allowed ok s es ∧ sys.exec s es = some t ∧ P t ∧ sys.AtRest ok t := by
  induction hn : μ s using Nat.strongRecOn generalizing s with
  | ind n ih =>
    by_cases hrest : sys.AtRest ok s
    · exact ⟨[],s,trivial,rfl,hs,hrest⟩
    · obtain ⟨e,hrest⟩ := not_forall.mp hrest
      obtain ⟨hok,hstep⟩ := Classical.not_imp.mp hrest
      obtain ⟨u,hu⟩ := Option.ne_none_iff_exists'.mp hstep
      obtain ⟨hPu,hlt⟩ := h s e u hs hok hu
      obtain ⟨es,t,hes,ht,hend⟩ := ih (μ u) (hn ▸ hlt) hPu rfl
      refine ⟨e::es,t,⟨hok,fun v hv => ?_⟩,Option.bind_eq_some_iff.mpr ⟨u,hu,ht⟩,hend⟩
      obtain rfl := Option.some.inj (hu.symm.trans hv)
      exact hes

end TransitionSystem

theorem sum_map_set_add {α : Type*} {l : List α} {i : ℕ} {a : α} (h : l[i]? = some a) (b : α) (f : α → ℕ) :
    ((l.set i b).map f).sum+f a = (l.map f).sum+f b := by
  induction l generalizing i with
  | nil => simp at h
  | cons x l ih =>
    cases i with
    | zero =>
      obtain rfl : x = a := by simpa using h
      simp only [List.set_cons_zero,List.map_cons,List.sum_cons]
      omega
    | succ i =>
      have hsum := ih (i:=i) (by simpa using h)
      simp only [List.set_cons_succ,List.map_cons,List.sum_cons]
      omega

end SdkCp
