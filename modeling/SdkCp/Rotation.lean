import Mathlib.Tactic

/-! Positions behind a cursor that turns over `k` slots. -/
namespace SdkCp
namespace Rotation

/-- The slot `i` positions behind the cursor. -/
def back (k cursor i : ℕ) : ℕ := (cursor+k-i) % k

variable {k cursor i j : ℕ}

theorem back_lt (hcursor : cursor < k) : back k cursor i < k := Nat.mod_lt _ (by omega)

theorem back_eq (hcursor : cursor < k) (hi : i < k) :
    back k cursor i = if i ≤ cursor then cursor-i else cursor+k-i := by
  rw [back]
  split
  · rw [show cursor+k-i = cursor-i+k by omega,Nat.add_mod_right,Nat.mod_eq_of_lt (by omega)]
  · exact Nat.mod_eq_of_lt (by omega)

theorem back_zero (hcursor : cursor < k) : back k cursor 0 = cursor := by
  rw [back_eq hcursor (by omega),if_pos (Nat.zero_le _),Nat.sub_zero]

theorem back_next (hcursor : cursor < k) (hi : i+1 < k) :
    back k ((cursor+1) % k) (i+1) = back k cursor i := by
  have hnext : (cursor+1) % k < k := Nat.mod_lt _ (by omega)
  rw [back_eq hnext hi,back_eq hcursor (by omega)]
  rcases Nat.lt_or_ge (cursor+1) k with hlt | hge
  · rw [Nat.mod_eq_of_lt hlt]
    split_ifs <;> omega
  · rw [show cursor+1 = k by omega,Nat.mod_self]
    split_ifs <;> omega

theorem back_ne (hcursor : cursor < k) (hi : i < k) (hj : j < k) (hne : i ≠ j) :
    back k cursor i ≠ back k cursor j := by
  rw [ne_eq,back_eq hcursor hi,back_eq hcursor hj]
  split_ifs <;> omega

theorem back_back (hcursor : cursor < k) (hi : i < k) : back k cursor (back k cursor i) = i := by
  rw [back_eq hcursor (back_lt hcursor),back_eq hcursor hi]
  split_ifs <;> omega

end Rotation
end SdkCp
