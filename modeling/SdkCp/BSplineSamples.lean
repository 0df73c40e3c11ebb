import SdkCp.BSpline

/-! tools/b_spline.hpp: the samples of a segment. A cubic grows with its control points: what it
gains between two places is a sum of their differences with weights that are not negative. -/
namespace SdkCp
namespace BSpline

section

variable {p0 p1 p2 p3 p4 t u : ℚ}

theorem eval_sub (p0 p1 p2 p3 t u : ℚ) : (coefficients p0 p1 p2 p3).eval u-(coefficients p0 p1 p2 p3).eval t =
    (p1-p0)*(((1-t)^3-(1-u)^3)/6)+(p2-p1)*((u-t)/2+(u^2-t^2)/2-(u^3-t^3)/3)+
      (p3-p2)*((u^3-t^3)/6) := by
  simp only [Cubic.eval,coefficients]
  ring

theorem weight_first (htu : t ≤ u) (hu : u ≤ 1) : 0 ≤ ((1-t)^3-(1-u)^3)/6 := by
  have hpow : (1-u)^3 ≤ (1-t)^3 := pow_le_pow_left₀ (by linarith) (by linarith) 3
  linarith

theorem weight_last (ht : 0 ≤ t) (htu : t ≤ u) : 0 ≤ (u^3-t^3)/6 := by
  have hpow : t^3 ≤ u^3 := pow_le_pow_left₀ ht htu 3
  linarith

theorem weight_middle (ht : 0 ≤ t) (htu : t ≤ u) (hu : u ≤ 1) :
    (u-t)/2 ≤ (u-t)/2+(u^2-t^2)/2-(u^3-t^3)/3 := by
  have hfactor : (u^2-t^2)/2-(u^3-t^3)/3 = (u-t)*((u+t)/2-(u^2+u*t+t^2)/3) := by ring
  have hsquare : u^2+u*t+t^2 ≤ u+2*t := by nlinarith
  have hpos : 0 ≤ (u+t)/2-(u^2+u*t+t^2)/3 := by linarith
  have hmul := mul_nonneg (sub_nonneg.mpr htu) hpos
  linarith

theorem eval_mono (h01 : p0 ≤ p1) (h12 : p1 ≤ p2) (h23 : p2 ≤ p3) (ht : 0 ≤ t) (htu : t ≤ u)
    (hu : u ≤ 1) : (coefficients p0 p1 p2 p3).eval t ≤ (coefficients p0 p1 p2 p3).eval u := by
  have hmiddle := weight_middle ht htu hu
  have hfirst := mul_nonneg (sub_nonneg.mpr h01) (weight_first htu hu)
  have hsecond := mul_nonneg (sub_nonneg.mpr h12) (by linarith : 0 ≤ (u-t)/2+(u^2-t^2)/2-(u^3-t^3)/3)
  have hthird := mul_nonneg (sub_nonneg.mpr h23) (weight_last ht htu)
  have hsub := eval_sub p0 p1 p2 p3 t u
  linarith

theorem eval_strictMono (h01 : p0 ≤ p1) (h12 : p1 < p2) (h23 : p2 ≤ p3) (ht : 0 ≤ t) (htu : t < u)
    (hu : u ≤ 1) : (coefficients p0 p1 p2 p3).eval t < (coefficients p0 p1 p2 p3).eval u := by
  have hmiddle := weight_middle ht htu.le hu
  have hfirst := mul_nonneg (sub_nonneg.mpr h01) (weight_first htu.le hu)
  have hsecond := mul_pos (sub_pos.mpr h12) (by linarith : 0 < (u-t)/2+(u^2-t^2)/2-(u^3-t^3)/3)
  have hthird := mul_nonneg (sub_nonneg.mpr h23) (weight_last ht htu.le)
  have hsub := eval_sub p0 p1 p2 p3 t u
  linarith

theorem eval_next (p0 p1 p2 p3 p4 : ℚ) :
    (coefficients p0 p1 p2 p3).eval 1 = (coefficients p1 p2 p3 p4).eval 0 := by
  simp only [Cubic.eval,coefficients]
  ring

end

section

variable {count : ℕ} {p0 p1 p2 p3 p4 : Point}

theorem place_le {i j : Fin count} (hij : i ≤ j) : (i.val : ℚ)/count ≤ j.val/count :=
  div_le_div_of_nonneg_right (by exact_mod_cast hij) (Nat.cast_nonneg _)

theorem place_lt_one (i : Fin count) : (i.val : ℚ)/count < 1 := by
  rw [div_lt_one (by exact_mod_cast i.pos)]
  exact_mod_cast i.isLt

theorem place_nonneg (i : Fin count) : (0 : ℚ) ≤ i.val/count :=
  div_nonneg (Nat.cast_nonneg _) (Nat.cast_nonneg _)

theorem samples_mono (h01 : p0.x ≤ p1.x) (h12 : p1.x ≤ p2.x) (h23 : p2.x ≤ p3.x) {i j : Fin count}
    (hij : i ≤ j) : (samples count p0 p1 p2 p3 i).x ≤ (samples count p0 p1 p2 p3 j).x :=
  eval_mono h01 h12 h23 (place_nonneg i) (place_le hij) (place_lt_one j).le

theorem samples_le_next (h01 : p0.x ≤ p1.x) (h12 : p1.x ≤ p2.x) (h23 : p2.x ≤ p3.x) (i : Fin count)
    (hpos : 0 < count) :
    (samples count p0 p1 p2 p3 i).x ≤ (samples count p1 p2 p3 p4 ⟨0,hpos⟩).x := by
  have hend := eval_mono h01 h12 h23 (place_nonneg i) (place_lt_one i).le le_rfl
  rw [eval_next _ _ _ _ p4.x] at hend
  simpa [samples,calculate] using hend

theorem samples_lt_next (h01 : p0.x ≤ p1.x) (h12 : p1.x < p2.x) (h23 : p2.x ≤ p3.x) (i : Fin count)
    (hpos : 0 < count) :
    (samples count p0 p1 p2 p3 i).x < (samples count p1 p2 p3 p4 ⟨0,hpos⟩).x := by
  have hend := eval_strictMono h01 h12 h23 (place_nonneg i) (place_lt_one i) le_rfl
  rw [eval_next _ _ _ _ p4.x] at hend
  simpa [samples,calculate] using hend

end

/-- The segments of a history of points, both newest first. -/
def segmentsOf (count : ℕ) : List Point → List (Fin count → Point)
  | p3::p2::p1::p0::older =>
    samples count p0 p1 p2 p3::segmentsOf count (p2::p1::p0::older)
  | _ => []

/-- The samples of a segment do not go back. -/
def Ascending {count : ℕ} (p : Fin count → Point) : Prop := ∀ i j, i ≤ j → (p i).x ≤ (p j).x

/-- Coordinates that do not go back in time. -/
abbrev Ordered (history : List Point) : Prop := history.Pairwise fun p q => q.x ≤ p.x

section

variable {count : ℕ} {history : List Point}

theorem length_segmentsOf (history : List Point) :
    (segmentsOf count history).length = history.length-3 := by
  fun_induction segmentsOf count history with
  | case1 p3 p2 p1 p0 older ih => simpa using ih
  | case2 history h =>
    obtain _ | ⟨a,_ | ⟨b,_ | ⟨d,_ | ⟨e,older⟩⟩⟩⟩ := history
    · rfl
    · rfl
    · rfl
    · rfl
    · exact absurd rfl (h a b d e older)

theorem ascending_of_mem {p : Fin count → Point} (h : Ordered history)
    (hp : p ∈ segmentsOf count history) : Ascending p := by
  fun_induction segmentsOf count history with
  | case1 p3 p2 p1 p0 older ih =>
    obtain ⟨hnew,hold⟩ := List.pairwise_cons.mp h
    rcases List.mem_cons.mp hp with rfl | hp
    · have h01 : p0.x ≤ p1.x := by
        exact (List.pairwise_cons.mp (List.pairwise_cons.mp hold).2).1 p0 (by simp)
      have h12 : p1.x ≤ p2.x := (List.pairwise_cons.mp hold).1 p1 (by simp)
      have h23 : p2.x ≤ p3.x := hnew p2 (by simp)
      exact fun i j hij => samples_mono h01 h12 h23 hij
    · exact ih hold hp
  | case2 => exact absurd hp (by simp)

theorem pairwise_segmentsOf (h : Ordered history) :
    (segmentsOf count history).Pairwise fun p q => ∀ i j, (q i).x ≤ (p j).x := by
  fun_induction segmentsOf count history with
  | case1 p3 p2 p1 p0 older ih =>
    obtain ⟨hnew,hold⟩ := List.pairwise_cons.mp h
    obtain ⟨h2,hold'⟩ := List.pairwise_cons.mp hold
    have h01 : p0.x ≤ p1.x := (List.pairwise_cons.mp hold').1 p0 (by simp)
    have h12 : p1.x ≤ p2.x := h2 p1 (by simp)
    have h23 : p2.x ≤ p3.x := hnew p2 (by simp)
    have htail := ih hold
    refine List.pairwise_cons.mpr ⟨fun q hq i j => ?_,htail⟩
    have hzero : (⟨0,j.pos⟩ : Fin count) ≤ j := Nat.zero_le j
    refine le_trans ?_ (samples_mono h01 h12 h23 hzero)
    cases older with
    | nil => exact absurd hq (by simp [segmentsOf])
    | cons p older =>
      have hp : p.x ≤ p0.x :=
        (List.pairwise_cons.mp (List.pairwise_cons.mp hold').2).1 p (by simp)
      rw [segmentsOf] at hq htail
      rcases List.mem_cons.mp hq with rfl | hq
      · exact samples_le_next hp h01 h12 i j.pos
      · exact ((List.pairwise_cons.mp htail).1 q hq i i).trans (samples_le_next hp h01 h12 i j.pos)
  | case2 => exact List.Pairwise.nil

end
end BSpline
end SdkCp
