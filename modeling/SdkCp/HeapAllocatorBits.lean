import SdkCp.HeapAllocator

/-! The bitmap operations of `heap_allocator`: ranges of pages are marked and freed
exactly and without leaving `_blocks`. -/
namespace SdkCp
namespace HeapAllocator

open Bytes Bitmap

@[simp] theorem kHVal_eq : kHVal = 64 := rfl
theorem shiftRight_kFlagBound (n : ℕ) : n >>> kFlagBound = n/64 := Nat.shiftRight_eq_div_pow n 6
theorem shiftLeft_kFlagBound (n : ℕ) : n <<< kFlagBound = n*64 := Nat.shiftLeft_eq n 6
theorem and_kLMask (n : ℕ) : n &&& kLMask = n % 64 := Nat.and_two_pow_sub_one_eq_mod n 6

theorem u32_eq {n : ℕ} (h : n < 2^32) : u32 n = n := Nat.mod_eq_of_lt h

theorem sub32_eq {a b : ℕ} (ha : a < 2^32) (hb : b ≤ a) : sub32 a b = a-b := by
  unfold sub32
  omega

section BitStream

/-- `put` writes `v` under its mask and nothing elsewhere. -/
def Puts (put : BitVec 64 → BitVec 64 → BitVec 64) (v : Bool) : Prop :=
  ∀ w m i, (put w m).getLsbD i = if m.getLsbD i then v else w.getLsbD i

theorem puts_reset : Puts (fun b m => b &&& ~~~m) false := by
  intro w m i
  rw [BitVec.getLsbD_and,BitVec.getLsbD_not]
  cases hm : m.getLsbD i with
  | true => simp
  | false =>
    cases hw : w.getLsbD i with
    | false => simp
    | true => simp [BitVec.lt_of_getLsbD hw]

theorem puts_set : Puts (fun b m => b ||| m) true := by
  intro w m i
  rw [BitVec.getLsbD_or]
  cases m.getLsbD i <;> simp

/-- The loop writes the bits from `64*block+position` on, `remains` of them. -/
theorem bitStream_spec {put : BitVec 64 → BitVec 64 → BitVec 64} {v : Bool} (hput : Puts put v)
    {left block position remains : ℕ} {blocks : ℕ → BitVec 64} (hpos : position < 64)
    (hfit : position+remains ≤ 64*left) (hleft : 64*left < 2^32) :
    ∃ blocks', bitStream put left block position remains blocks = some blocks' ∧
      ∀ i, bit blocks' i =
        if 64*block+position ≤ i ∧ i < 64*block+position+remains then v else bit blocks i := by
  induction left generalizing block position remains blocks with
  | zero =>
    have hrem : remains = 0 := by omega
    refine ⟨blocks,by rw [bitStream,if_pos hrem],fun i => ?_⟩
    rw [if_neg (by omega)]
  | succ left ih =>
    rcases Nat.eq_zero_or_pos remains with hrem | hrem
    · refine ⟨blocks,by rw [bitStream,if_pos hrem],fun i => ?_⟩
      rw [if_neg (by omega)]
    have he0 : u32 (position+remains) = position+remains := u32_eq (by omega)
    have hlen : sub32 (min (position+remains) 64) position = min (position+remains) 64-position :=
      sub32_eq (by omega) (by omega)
    have hnext : sub32 remains (min (position+remains) 64-position) =
        remains-(min (position+remains) 64-position) := sub32_eq (by omega) (by omega)
    obtain ⟨blocks',hrun,hbits⟩ := @ih (block+1) 0 (remains-(min (position+remains) 64-position))
      (Function.update blocks block (put (blocks block) (rangeMask position (position+remains))))
      (by omega) (by omega) (by omega)
    refine ⟨blocks',?_,fun i => ?_⟩
    · rw [bitStream,if_neg (by omega)]
      simp only [he0,kHVal_eq,hlen,hnext]
      exact hrun
    · rw [hbits,bit_update,hput,getLsbD_rangeMask hpos]
      by_cases hi : i/64 = block
      · have hw : bit blocks i = (blocks block).getLsbD (i%64) := by rw [bit,hi]
        rw [if_pos hi,hw]
        by_cases hin : 64*block+position ≤ i ∧ i < 64*block+position+remains
        · rw [if_neg (by omega),if_pos (by simp only [decide_eq_true_eq]; omega),if_pos hin]
        · rw [if_neg (by omega),if_neg (by simp only [decide_eq_true_eq]; omega),if_neg hin]
      · rw [if_neg hi]
        by_cases hin : 64*block+position ≤ i ∧ i < 64*block+position+remains
        · rw [if_pos (by omega),if_pos hin]
        · rw [if_neg (by omega),if_neg hin]

variable (cfg : Config)

/-- `_resetBitStream` clears the bits of a range of pages and no others. -/
theorem resetBitStream_spec {start count : ℕ} (blocks : ℕ → BitVec 64)
    (hfit : start+count ≤ 64*cfg.numBlocks) (hsize : 64*cfg.numBlocks < 2^32) :
    ∃ blocks', resetBitStream cfg start count blocks = some blocks' ∧
      ∀ i, bit blocks' i = if start ≤ i ∧ i < start+count then false else bit blocks i := by
  have hbase : 64*(start/64)+start%64 = start := Nat.div_add_mod start 64
  obtain ⟨blocks',hrun,hbits⟩ := @bitStream_spec _ false puts_reset (cfg.numBlocks-start/64)
    (start/64) (start%64) count blocks (by omega) (by omega) (by omega)
  refine ⟨blocks',?_,?_⟩
  · rw [resetBitStream,shiftRight_kFlagBound,and_kLMask]
    exact hrun
  · rwa [hbase] at hbits

theorem setBitStream_spec {start count : ℕ} (blocks : ℕ → BitVec 64)
    (hfit : start+count ≤ 64*cfg.numBlocks) (hsize : 64*cfg.numBlocks < 2^32) :
    ∃ blocks', setBitStream cfg start count blocks = some blocks' ∧
      ∀ i, bit blocks' i = if start ≤ i ∧ i < start+count then true else bit blocks i := by
  have hbase : 64*(start/64)+start%64 = start := Nat.div_add_mod start 64
  obtain ⟨blocks',hrun,hbits⟩ := @bitStream_spec _ true puts_set (cfg.numBlocks-start/64)
    (start/64) (start%64) count blocks (by omega) (by omega) (by omega)
  refine ⟨blocks',?_,?_⟩
  · rw [setBitStream,shiftRight_kFlagBound,and_kLMask]
    exact hrun
  · rwa [hbase] at hbits

theorem bit_set (blocks : ℕ → BitVec 64) (page i : ℕ) :
    bit (Function.update blocks (page >>> kFlagBound)
      (blocks (page >>> kFlagBound) ||| 1#64 <<< (page &&& kLMask))) i =
      if i = page then true else bit blocks i := by
  rw [shiftRight_kFlagBound,and_kLMask,bit_update,BitVec.getLsbD_or,← BitVec.twoPow_eq,
    BitVec.getLsbD_twoPow]
  by_cases hi : i/64 = page/64
  · by_cases hm : page % 64 = i % 64
    · rw [if_pos hi,if_pos (by omega),decide_eq_true (Nat.mod_lt page (by norm_num)),decide_eq_true hm]
      simp
    · rw [if_pos hi,if_neg (by omega),decide_eq_false hm,Bool.and_false,Bool.or_false,bit,hi]
  · rw [if_neg hi,if_neg (by omega)]

end BitStream

end HeapAllocator
end SdkCp
