import Mathlib.Tactic
import Mathlib.Logic.Function.Basic

/-! Bitmaps stored in 64-bit words: the bit at an index, masks built by shifts and
wrapping subtractions, ranges of bits set or cleared word by word, and the scan
for the lowest set bit. -/
namespace SdkCp
namespace Bitmap

/-- Bit `i` of a bitmap. -/
def bit (words : ℕ → BitVec 64) (i : ℕ) : Bool := (words (i/64)).getLsbD (i%64)

theorem bit_word (words : ℕ → BitVec 64) (k : ℕ) {j : ℕ} (hj : j < 64) :
    bit words (64*k+j) = (words k).getLsbD j := by
  have hq : (64*k+j)/64 = k := by omega
  have hr : (64*k+j)%64 = j := by omega
  simp only [bit,hq,hr]

theorem bit_allOnes (i : ℕ) : bit (fun _ => BitVec.allOnes 64) i = true := by
  rw [bit,BitVec.getLsbD_allOnes,decide_eq_true (Nat.mod_lt i (by norm_num))]

theorem bit_update (words : ℕ → BitVec 64) (k : ℕ) (v : BitVec 64) (i : ℕ) :
    bit (Function.update words k v) i = if i/64 = k then v.getLsbD (i%64) else bit words i := by
  by_cases h : i/64 = k
  · simp [bit,h]
  · simp [bit,h]

/-- The low `e` bits, all 64 from `e = 64` on: the shifted bit is dropped there and
the subtraction wraps. -/
def lowMask (e : ℕ) : BitVec 64 := (if e ≥ 64 then 0#64 else 1#64 <<< e)-1#64

theorem one_shiftLeft_sub_one_toNat {e : ℕ} (h : e < 64) :
    ((1#64 <<< e)-1#64).toNat = 2^e-1 := by
  have hlt : 2^e < 2^64 := Nat.pow_lt_pow_right (by norm_num) h
  have hpos : 0 < 2^e := by positivity
  have hs : (1#64 <<< e).toNat = 2^e := by
    rw [BitVec.toNat_shiftLeft,BitVec.toNat_ofNat,Nat.shiftLeft_eq]
    omega
  rw [BitVec.toNat_sub,hs,BitVec.toNat_ofNat]
  omega

theorem getLsbD_lowMask (e i : ℕ) : (lowMask e).getLsbD i = decide (i < 64 ∧ i < e) := by
  unfold lowMask
  split
  · have hall : 0#64-1#64 = BitVec.allOnes 64 := by decide
    rw [hall,BitVec.getLsbD_allOnes]
    exact decide_eq_decide.mpr (by omega)
  · rw [BitVec.getLsbD,one_shiftLeft_sub_one_toNat (by omega),Nat.testBit_two_pow_sub_one]
    exact decide_eq_decide.mpr (by omega)

theorem and_eq_mask_iff (w m : BitVec 64) :
    w &&& m = m ↔ ∀ i, m.getLsbD i = true → w.getLsbD i = true := by
  constructor
  · intro h i hi
    rw [← h,BitVec.getLsbD_and,Bool.and_eq_true] at hi
    exact hi.1
  · intro h
    apply BitVec.eq_of_getLsbD_eq
    intro i _
    rw [BitVec.getLsbD_and]
    cases hm : m.getLsbD i with
    | false => simp
    | true => simp [h i hm]

/-- The bits of word `k` from `p` on, up to `e`. -/
def rangeMask (p e : ℕ) : BitVec 64 := ~~~((1#64 <<< p)-1#64) &&& lowMask e

theorem getLsbD_rangeMask {p : ℕ} (hp : p < 64) (e i : ℕ) :
    (rangeMask p e).getLsbD i = decide (i < 64 ∧ p ≤ i ∧ i < e) := by
  have hlow : ((1#64 <<< p)-1#64).getLsbD i = decide (i < p) := by
    rw [BitVec.getLsbD,one_shiftLeft_sub_one_toNat hp,Nat.testBit_two_pow_sub_one]
  rw [rangeMask,BitVec.getLsbD_and,BitVec.getLsbD_not,hlow,getLsbD_lowMask,
    ← decide_not,← Bool.decide_and,← Bool.decide_and]
  exact decide_eq_decide.mpr (by omega)

/-- Drop the lowest run of set bits: filling below the lowest set bit and adding one
carries through the run. -/
def clearLowestRun (w : BitVec 64) : BitVec 64 := w &&& ((w ||| (w-1#64))+1#64)

theorem mod_of_lowest {x k : ℕ} (hlow : ∀ j < k, x.testBit j = false) (hk : x.testBit k = true) :
    x % 2^(k+1) = 2^k := by
  apply Nat.eq_of_testBit_eq
  intro i
  rw [Nat.testBit_mod_two_pow,Nat.testBit_two_pow]
  rcases lt_trichotomy i k with h | h | h
  · simp [hlow i h,h.ne']
  · simp [h,hk]
  · have hi : ¬i < k+1 := by omega
    simp [hi,h.ne]

/-- A number one below its lowest set bit `k`: ones up to `k`, the same bits above. -/
theorem testBit_pred {x k : ℕ} (h : x % 2^(k+1) = 2^k) (i : ℕ) :
    (x-1).testBit i = if i < k then true else if i = k then false else x.testBit i := by
  have hpos : 0 < 2^k := by positivity
  have hlt : 2^k < 2^(k+1) := Nat.pow_lt_pow_right (by norm_num) (by omega)
  have hx := Nat.div_add_mod x (2^(k+1))
  rw [h] at hx
  have hpred : x-1 = 2^(k+1)*(x/2^(k+1))+(2^k-1) := by omega
  have hlow := Nat.testBit_two_pow_mul_add (x/2^(k+1)) (show 2^k-1 < 2^(k+1) by omega) i
  have hsame := Nat.testBit_two_pow_mul_add (x/2^(k+1)) hlt i
  rw [hx] at hsame
  rw [hpred,hlow,hsame,Nat.testBit_two_pow_sub_one]
  by_cases hi : i < k
  · simp [hi,show i < k+1 by omega]
  · by_cases hik : i = k
    · simp [hik]
    · simp [hi,hik,show ¬i < k+1 by omega]

/-- Adding one to a number that ends in a zero at `e` and ones below it. -/
theorem testBit_succ {y e : ℕ} (h : y % 2^(e+1) = 2^e-1) (i : ℕ) :
    (y+1).testBit i = if i < e then false else if i = e then true else y.testBit i := by
  have hpos : 0 < 2^e := by positivity
  have hlt : 2^e < 2^(e+1) := Nat.pow_lt_pow_right (by norm_num) (by omega)
  have hy := Nat.div_add_mod y (2^(e+1))
  rw [h] at hy
  have hsucc : y+1 = 2^(e+1)*(y/2^(e+1))+2^e := by omega
  have hnext := Nat.testBit_two_pow_mul_add (y/2^(e+1)) hlt i
  have hsame := Nat.testBit_two_pow_mul_add (y/2^(e+1)) (show 2^e-1 < 2^(e+1) by omega) i
  rw [hy] at hsame
  rw [hsucc,hnext,hsame,Nat.testBit_two_pow]
  by_cases hi : i < e
  · simp [hi,show i < e+1 by omega,hi.ne']
  · by_cases hie : i = e
    · simp [hie]
    · simp [hi,hie,show ¬i < e+1 by omega]

theorem getLsbD_clearLowestRun {w : BitVec 64} {k e : ℕ} (hlow : ∀ j < k, w.getLsbD j = false)
    (hke : k < e) (hrun : ∀ j, k ≤ j → j < e → w.getLsbD j = true) (hend : w.getLsbD e = false) (i : ℕ) :
    (clearLowestRun w).getLsbD i = (decide (e ≤ i) && w.getLsbD i) := by
  have hmod := mod_of_lowest hlow (hrun k le_rfl hke)
  have he : e ≤ 64 := by
    have := BitVec.lt_of_getLsbD (hrun (e-1) (by omega) (by omega))
    omega
  have hpos : 0 < w.toNat := by
    have := (show 0 < 2^k by positivity)
    rcases Nat.eq_zero_or_pos w.toNat with h0 | h0
    · rw [h0,Nat.zero_mod] at hmod
      omega
    · exact h0
  have hpred : (w-1#64).toNat = w.toNat-1 := by
    have := w.isLt
    rw [BitVec.toNat_sub,BitVec.toNat_ofNat]
    omega
  have hfill : ∀ j, (w ||| (w-1#64)).toNat.testBit j = if j < e then true else w.getLsbD j := by
    intro j
    rw [BitVec.toNat_or,Nat.testBit_or,hpred,testBit_pred hmod,← BitVec.getLsbD]
    rcases lt_trichotomy j k with hj | rfl | hj
    · simp [hj,show j < e by omega]
    · simp [hke,hrun j le_rfl hke]
    · by_cases hje : j < e
      · simp [hje,hrun j hj.le hje]
      · simp [hje,hj.ne',show ¬j < k by omega]
  have hones : (w ||| (w-1#64)).toNat % 2^e = 2^e-1 := by
    apply Nat.eq_of_testBit_eq
    intro j
    rw [Nat.testBit_mod_two_pow,Nat.testBit_two_pow_sub_one,hfill]
    by_cases hj : j < e <;> simp [hj]
  have hsucc : ((w ||| (w-1#64))+1#64).getLsbD i =
      (((w ||| (w-1#64)).toNat+1) % 2^64).testBit i := by
    rw [BitVec.getLsbD,BitVec.toNat_add,BitVec.toNat_ofNat]
  rw [clearLowestRun,BitVec.getLsbD_and,hsucc]
  rcases Nat.lt_or_ge e 64 with he64 | he64
  · have hzero : (w ||| (w-1#64)).toNat % 2^(e+1) = 2^e-1 := by
      have hbit := hfill e
      rw [if_neg (Nat.lt_irrefl e),hend] at hbit
      apply Nat.eq_of_testBit_eq
      intro j
      rw [Nat.testBit_mod_two_pow,Nat.testBit_two_pow_sub_one,hfill]
      by_cases hj : j < e
      · simp [hj,show j < e+1 by omega]
      · by_cases hje : j = e
        · simp [hje,hend]
        · simp [hj,show ¬j < e+1 by omega]
    rw [Nat.testBit_mod_two_pow,testBit_succ hzero]
    by_cases hi : i < e
    · simp [hi]
    · by_cases hie : i = e
      · simp [hie,hend]
      · rw [if_neg hi,if_neg hie,hfill,if_neg hi,decide_eq_true (show e ≤ i by omega)]
        cases hw : w.getLsbD i with
        | false => simp
        | true => simp [BitVec.lt_of_getLsbD hw]
  · obtain rfl : e = 64 := by omega
    have hlt := (w ||| (w-1#64)).isLt
    rw [Nat.mod_eq_of_lt hlt] at hones
    rw [hones]
    by_cases hi : i < 64
    · simp [hi]
    · have hw : w.getLsbD i = false := BitVec.getLsbD_of_ge _ _ (by omega)
      rw [hw]
      simp

end Bitmap
end SdkCp
