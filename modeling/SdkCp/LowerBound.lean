import Mathlib.Tactic

/-! The halving search of `std::lower_bound` over indices: where the predicate changes once, from
true to false, it finds the place. -/
namespace SdkCp
namespace LowerBound

/-- The search among `len` indices from `first` on. -/
def lowerBound (below : ℕ → Bool) (first len : ℕ) : ℕ :=
  if len = 0 then first
  else
    let half := len/2
    if below (first+half) then lowerBound below (first+half+1) (len-half-1)
    else lowerBound below first half
termination_by len

/-- The predicate does not become true again. -/
def Partitioned (below : ℕ → Bool) (first len : ℕ) : Prop :=
  ∀ i j, first ≤ i → i ≤ j → j < first+len → below j → below i

theorem Partitioned.mono {below : ℕ → Bool} {first len first' len' : ℕ}
    (h : Partitioned below first len) (hfirst : first ≤ first') (hend : first'+len' ≤ first+len) :
    Partitioned below first' len' :=
  fun i j hi hij hj => h i j (hfirst.trans hi) hij (hj.trans_le hend)

theorem lowerBound_spec {below : ℕ → Bool} {first len : ℕ} (h : Partitioned below first len) :
    first ≤ lowerBound below first len ∧ lowerBound below first len ≤ first+len ∧
      (∀ i, first ≤ i → i < lowerBound below first len → below i) ∧
      (lowerBound below first len < first+len → below (lowerBound below first len) = false) := by
  fun_induction lowerBound below first len with
  | case1 first => exact ⟨le_rfl,le_rfl,fun i hi hlt => by omega,fun hlt => by omega⟩
  | case2 first len hlen half hbelow ih =>
    have hhalf : half < len := Nat.div_lt_self (by omega) (by decide)
    obtain ⟨hlow,hhigh,htrue,hfalse⟩ := ih (h.mono (by omega) (by omega))
    refine ⟨by omega,by omega,fun i hi hlt => ?_,fun hlt => hfalse (by omega)⟩
    rcases Nat.lt_or_ge i (first+half+1) with hi' | hi'
    · exact h i (first+half) hi (by omega) (by omega) hbelow
    · exact htrue i hi' hlt
  | case3 first len hlen half hbelow ih =>
    have hhalf : half < len := Nat.div_lt_self (by omega) (by decide)
    obtain ⟨hlow,hhigh,htrue,hfalse⟩ := ih (h.mono le_rfl (by omega))
    refine ⟨hlow,by omega,htrue,fun _ => ?_⟩
    rcases Nat.lt_or_ge (lowerBound below first half) (first+half) with hlt | hge
    · exact hfalse hlt
    · rw [Nat.le_antisymm hhigh hge]
      simpa using hbelow

end LowerBound
end SdkCp
