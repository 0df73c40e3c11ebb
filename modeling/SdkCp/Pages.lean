import Mathlib.Tactic

/-! Extents of bytes laid out on pages of one size `P`: the pages an extent of `n`
bytes at `a` touches, and the page its last bytes are charged to. -/
namespace SdkCp
namespace Pages

variable {P a b n m i : ℕ}

/-- The page of the first byte. -/
def first (P a : ℕ) : ℕ := a/P
/-- The page of the last byte. -/
def last (P a n : ℕ) : ℕ := (a+n-1)/P
/-- Some byte of the extent is on page `i`. -/
def Touches (P a n i : ℕ) : Prop := ∃ x, a ≤ x ∧ x < a+n ∧ x/P = i
/-- The bytes of an extent on its last page, which is the page they are charged to. -/
def charged (P a n i : ℕ) : ℕ := if last P a n = i then a+n-max a (P*i) else 0

theorem mul_le_of_div_eq (h : a/P = i) : P*i ≤ a := h ▸ Nat.mul_div_le a P

theorem lt_mul_add_of_div_eq (hP : 0 < P) (h : a/P = i) : a < P*i+P := by
  have := Nat.lt_mul_div_succ a hP
  rwa [h,Nat.mul_succ] at this

theorem div_eq_of_mem (h : P*i ≤ a) (h' : a < P*i+P) : a/P = i :=
  Nat.div_eq_of_lt_le (by rwa [Nat.mul_comm]) (by rwa [Nat.succ_mul,Nat.mul_comm])

theorem first_le_last (hn : 0 < n) : first P a ≤ last P a n := Nat.div_le_div_right (by omega)

theorem touches_iff (hP : 0 < P) (hn : 0 < n) :
    Touches P a n i ↔ first P a ≤ i ∧ i ≤ last P a n := by
  constructor
  · rintro ⟨x,hx,hx',rfl⟩
    exact ⟨Nat.div_le_div_right hx,Nat.div_le_div_right (by omega)⟩
  · rintro ⟨hfirst,hlast⟩
    have hlo : a < P*i+P := by
      have := lt_mul_add_of_div_eq hP (rfl : a/P = a/P)
      have := Nat.mul_le_mul_left P hfirst
      simp only [first] at this
      omega
    have hhi : P*i ≤ a+n-1 := by
      have := Nat.mul_le_mul_left P hlast
      exact this.trans (Nat.mul_div_le _ _)
    exact ⟨max a (P*i),by omega,by omega,div_eq_of_mem (by omega) (by omega)⟩

theorem disjoint_of_pages (hn : 0 < n) (hm : 0 < m)
    (h : ∀ i, Touches P a n i → ¬Touches P b m i) : a+n ≤ b ∨ b+m ≤ a := by
  by_contra hover
  exact h (max a b/P) ⟨max a b,by omega,by omega,rfl⟩ ⟨max a b,by omega,by omega,rfl⟩

theorem charged_of_ne (h : last P a n ≠ i) : charged P a n i = 0 := if_neg h

theorem charged_eq_zero (hn : 0 < n) (h : ¬Touches P a n i) : charged P a n i = 0 :=
  charged_of_ne fun hl => h ⟨a+n-1,by omega,by omega,hl⟩

theorem charged_pos (hn : 0 < n) (h : last P a n = i) : 0 < charged P a n i := by
  have := mul_le_of_div_eq h
  rw [charged,if_pos h]
  omega

section Within

variable {fill : ℕ}

theorem first_within (h : fill < P) : first P (P*i+fill) = i := div_eq_of_mem (by omega) (by omega)

theorem last_within (hn : 0 < n) (h : fill+n ≤ P) : last P (P*i+fill) n = i :=
  div_eq_of_mem (by omega) (by omega)

theorem charged_of_first_eq_last (h : first P a = last P a n) : charged P a n (last P a n) = n := by
  have := mul_le_of_div_eq h
  rw [charged,if_pos rfl]
  omega

end Within

section Aligned

theorem first_mul (hP : 0 < P) : first P (P*i) = i := Nat.mul_div_cancel_left i hP

theorem last_mul (hP : 0 < P) (hn : 0 < n) : last P (P*i) n = i+(n-1)/P := by
  rw [last,Nat.add_sub_assoc hn,Nat.mul_add_div hP]

theorem charged_mul (hP : 0 < P) (hn : 0 < n) :
    charged P (P*i) n (last P (P*i) n) = n-P*((n-1)/P) := by
  rw [charged,if_pos rfl,last_mul hP hn,Nat.mul_add]
  omega

end Aligned

theorem div_add_one_of_mod (hP : 0 < P) (hn : 0 < n) :
    n/P+(if n % P ≠ 0 then 1 else 0) = (n-1)/P+1 := by
  have hdiv := Nat.div_add_mod n P
  have hmod := Nat.mod_lt n hP
  split
  · rw [div_eq_of_mem (a := n-1) (i := n/P) (by omega) (by omega)]
  · rename_i hz
    have hz : n % P = 0 := not_not.mp hz
    obtain ⟨k,hk⟩ : ∃ k, n/P = k+1 := Nat.exists_eq_succ_of_ne_zero fun h => by
      rw [h,hz] at hdiv
      omega
    rw [hk,Nat.mul_succ] at hdiv
    rw [div_eq_of_mem (a := n-1) (i := k) (by omega) (by omega),hk]

theorem mod_add_of_mod (hP : 0 < P) (hn : 0 < n) :
    n % P+P*(if n % P = 0 then 1 else 0) = n-P*((n-1)/P) := by
  have hcount := div_add_one_of_mod hP hn
  have hdiv := Nat.div_add_mod n P
  by_cases hz : n % P = 0
  · rw [if_neg (not_not_intro hz),Nat.add_zero] at hcount
    rw [hcount,hz,Nat.mul_succ] at hdiv
    rw [if_pos hz,hz]
    omega
  · rw [if_pos hz,Nat.add_right_cancel_iff] at hcount
    rw [hcount] at hdiv
    rw [if_neg hz]
    omega

end Pages
end SdkCp
