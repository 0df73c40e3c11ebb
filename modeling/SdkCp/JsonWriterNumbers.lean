import SdkCp.JsonWriter
import Mathlib.Data.Nat.Digits.Lemmas

/-! The local buffers of the numeric `str_conv` overloads. `sprintf` is not told their sizes;
the integers and the words always fit, a fixed-point text grows with the magnitude. -/
namespace SdkCp
namespace JsonWriter

/-- The finite doubles: a significand of 53 bits and a power of two. -/
def Double.Finite (x : Double) : Prop :=
  ∃ (m : ℕ) (e : ℤ), m < 2^53 ∧ -1074 ≤ e ∧ e ≤ 971 ∧ x.magnitude = m*(2 : ℚ)^e

/-- What the four overloads are called with. -/
inductive Number
  | int64 (n : Int64)
  | uint64 (n : UInt64)
  | bool (b : Bool)
  | double (x : Double) (h : x.Finite)

/-- The tree that is only this number. -/
def Number.value : Number → Value
  | .int64 n => .intValue n.toInt
  | .uint64 n => .uintValue n.toNat
  | .bool b => .booleanValue b
  | .double x _ => .realValue x

/-- What `sprintf` prints into `buf`. -/
def Number.text : Number → List UInt8
  | .int64 n => strConvInt n.toInt
  | .uint64 n => strConvUint n.toNat
  | .bool b => strConvBool b
  | .double x _ => strConvDouble x

theorem writeValue_number (v : Number) : writeValue v.value = v.text := by
  cases v <;> rfl

/-- `sizeof(buf)`. -/
def Number.bufferSize : Number → ℕ
  | .bool _ => 16
  | _ => 32

/-- The text and its NUL fit. -/
def Number.Fits (v : Number) : Prop := v.text.length+1 ≤ v.bufferSize

/-- The doubles strictly between -10^21 and 10^22. -/
def Double.Small (x : Double) : Prop := x.magnitude < if x.negative then 10^21 else 10^22

def Number.Small : Number → Prop
  | .double x _ => x.Small
  | _ => True

theorem decimal_length_le_iff {n d : ℕ} (hd : 0 < d) : (decimal n).length ≤ d ↔ n < 10^d := by
  rw [decimal]
  by_cases h : n = 0
  · rw [if_pos h]
    have hpos : 0 < 10^d := by positivity
    simp only [List.length_singleton]
    omega
  · rw [if_neg h,List.length_map,List.length_reverse,Nat.digits_length_le_iff (by norm_num)]

theorem strConvInt_length_le {n : ℤ} {d : ℕ} (hd : 0 < d) (h : n.natAbs < 10^d) :
    (strConvInt n).length ≤ d+1 := by
  have hdigits := (decimal_length_le_iff hd).mpr h
  have hsign : (if n < 0 then ascii "-" else []).length ≤ 1 := by split <;> decide
  rw [strConvInt,List.length_append]
  omega

/-- The whole digits of `%.8f`. -/
def wholePart (x : Double) : ℕ := roundHalfEven (x.magnitude*10^8)/10^8

theorem strConvDouble_length (x : Double) : (strConvDouble x).length =
    (if x.negative then 1 else 0)+(decimal (wholePart x)).length+9 := by
  have hfrac : (decimal (roundHalfEven (x.magnitude*10^8) % 10^8)).length ≤ 8 :=
    (decimal_length_le_iff (by norm_num)).mpr (Nat.mod_lt _ (by norm_num))
  have hsign : (if x.negative then ascii "-" else []).length = if x.negative then 1 else 0 := by
    split <;> rfl
  have hpoint : (ascii ".").length = 1 := by decide
  simp only [strConvDouble,List.length_append,List.length_replicate,hsign,hpoint,wholePart]
  omega

theorem roundHalfEven_natCast (n : ℕ) : roundHalfEven n = n := by
  have hfloor : (n : ℚ).floor.toNat = n := by
    exact_mod_cast congrArg Int.toNat (Rat.floor_intCast n)
  simp only [roundHalfEven,hfloor,sub_self]
  norm_num

theorem roundHalfEven_le {q : ℚ} {n : ℕ} (hn : 0 < n) (h : q < n) : roundHalfEven q ≤ n := by
  have hfloor : q.floor < (n : ℤ) := Rat.floor_lt_iff.mpr (by exact_mod_cast h)
  simp only [roundHalfEven]
  split_ifs <;> omega

theorem Double.Finite.whole {x : Double} (h : x.Finite) (hbig : 2^53 ≤ x.magnitude) :
    ∃ k : ℕ, x.magnitude = k := by
  obtain ⟨m,e,hm,-,-,hx⟩ := h
  rcases lt_or_ge e 0 with he | he
  · have hpow : (2 : ℚ)^e ≤ 1 := zpow_le_one_of_nonpos₀ (by norm_num) he.le
    have hm' : (m : ℚ) < 2^53 := by exact_mod_cast hm
    have hle : (m : ℚ)*2^e ≤ m := mul_le_of_le_one_right (Nat.cast_nonneg m) hpow
    linarith
  · obtain ⟨k,rfl⟩ := Int.eq_ofNat_of_zero_le he
    exact ⟨m*2^k,by rw [hx,zpow_natCast]; push_cast; rfl⟩

theorem wholePart_lt_iff {x : Double} (h : x.Finite) {d : ℕ} (hd : 16 ≤ d) :
    wholePart x < 10^d ↔ x.magnitude < 10^d := by
  have hpow : 10^16 ≤ 10^d := Nat.pow_le_pow_right (by norm_num) hd
  rcases lt_or_ge x.magnitude (2^53) with hsmall | hbig
  · have hround : roundHalfEven (x.magnitude*10^8) ≤ 2^53*10^8 := by
      refine roundHalfEven_le (by norm_num) ?_
      push_cast
      linarith
    have hpow' : (10 : ℚ)^16 ≤ 10^d := by exact_mod_cast hpow
    refine iff_of_true ?_ (by linarith)
    rw [wholePart]
    omega
  · obtain ⟨k,hk⟩ := h.whole hbig
    have hround : roundHalfEven (x.magnitude*10^8) = k*10^8 := by
      rw [hk]
      exact_mod_cast roundHalfEven_natCast (k*10^8)
    rw [wholePart,hround,Nat.mul_div_cancel _ (by norm_num),hk]
    exact_mod_cast Iff.rfl

theorem strConvDouble_fits_iff {x : Double} (h : x.Finite) :
    (strConvDouble x).length+1 ≤ 32 ↔ x.Small := by
  rw [strConvDouble_length,Double.Small]
  split
  · have hdigits : (decimal (wholePart x)).length ≤ 21 ↔ wholePart x < 10^21 :=
      decimal_length_le_iff (by norm_num)
    rw [← wholePart_lt_iff h (by norm_num),← hdigits]
    omega
  · have hdigits : (decimal (wholePart x)).length ≤ 22 ↔ wholePart x < 10^22 :=
      decimal_length_le_iff (by norm_num)
    rw [← wholePart_lt_iff h (by norm_num),← hdigits]
    omega

/-- The text fits into its buffer exactly if the number is small. -/
theorem fits_iff (v : Number) : v.Fits ↔ v.Small := by
  cases v with
  | int64 n =>
    have hlen : (strConvInt n.toInt).length ≤ 19+1 := by
      refine strConvInt_length_le (by norm_num) ?_
      have hlo := n.le_toInt
      have hhi := n.toInt_lt
      omega
    exact iff_of_true (by simp only [Number.Fits,Number.text,Number.bufferSize]; omega) trivial
  | uint64 n =>
    have hlen : (decimal n.toNat).length ≤ 20 :=
      (decimal_length_le_iff (by norm_num)).mpr (lt_trans n.toNat_lt (by norm_num))
    refine iff_of_true ?_ trivial
    simp only [Number.Fits,Number.text,Number.bufferSize,strConvUint]
    omega
  | bool b =>
    refine iff_of_true ?_ trivial
    simp only [Number.Fits,Number.text,Number.bufferSize]
    cases b <;> decide
  | double x h => exact strConvDouble_fits_iff h

theorem finite_overflow : (Double.mk false (10^22)).Finite :=
  ⟨5^22,22,by norm_num,by norm_num,by norm_num,by norm_num⟩

theorem not_fits_overflow : ¬∀ v : Number, v.Fits := by
  intro h
  have hfits := (strConvDouble_fits_iff finite_overflow).mp (h (.double _ finite_overflow))
  simp [Double.Small] at hfits

end JsonWriter
end SdkCp
