import SdkCp.HeapAllocatorCompleteness

/-! The page search and the two bit ranges of `heap_allocator` by themselves, over every bitmap. The
search adds a bit position and the number of pages in 32 bits: only for more than 2^32-64 pages the
sum wraps around, and `allocate` asks for fewer. -/
namespace SdkCp
namespace HeapAllocator

open Bytes Bitmap

/-- What is returned, if not the invalid page, starts `n` free pages of the arena. -/
def FindsRun (cfg : Config) (blocks : ℕ → BitVec 64) (n p : ℕ) : Prop :=
  p ≠ invalidPageIx → p+n ≤ cfg.numPages ∧ Run (fun i => bit blocks i = true) p n

section Search
variable {cfg : Config} {blocks : ℕ → BitVec 64} {n p : ℕ}

theorem blocks_lt (cfg : Config) : 64*cfg.numBlocks < 2^32 := by
  rw [← numPages_eq]
  exact (numPages_lt cfg).trans (by norm_num)

/-- The page of a run that wraps around is returned without a run of `n` pages. -/
theorem not_findsRun_of_wraps (hw : Wraps blocks n p) (hp : p < cfg.numPages) : ¬FindsRun cfg blocks n p := by
  have hpages := numPages_lt cfg
  intro hfinds
  have hvalid : p ≠ invalidPageIx := by
    simp only [invalidPageIx]
    omega
  have hfit := (hfinds hvalid).1
  have hlate := hw.2.2
  omega

/-- What the search of `allocate` returns is a run. -/
theorem allocate_findsRun (cfg : Config) (blocks : ℕ → BitVec 64) {size : ℕ} (hsize : size < 2^32) :
    ∃ p, getBitScanStreamRevWord cfg.numBlocks blocks (fullPagesCount cfg (size+headerSize)) = some p ∧
      FindsRun cfg blocks (fullPagesCount cfg (size+headerSize)) p := by
  rw [fullPagesCount_eq hsize]
  obtain ⟨p,hscan,hfound,-⟩ := getBitScanStreamRevWord_spec blocks (Nat.succ_pos (morePages cfg size))
    (pages_bounds hsize).1 (blocks_lt cfg)
  refine ⟨p,hscan,fun hvalid => ?_⟩
  obtain ⟨hfit,hrun⟩ := hfound hvalid
  exact ⟨(numPages_eq cfg).symm ▸ hfit,fun i hi hi' => (hrun i hi hi').free⟩

end Search

/-- The search ends, and what it returns is a run if and only if no run that it sees starts so late in
its block that its end wraps around. -/
theorem findsRun_iff (cfg : Config) (blocks : ℕ → BitVec 64) (n : UInt32) (hn : 0 < n.toNat) :
    ∃ p, getBitScanStreamRevWord cfg.numBlocks blocks n.toNat = some p ∧
      (FindsRun cfg blocks n.toNat p ↔ ∀ i < cfg.numPages, ¬Wraps blocks n.toNat i) := by
  obtain ⟨p,hscan,⟨hnowrap,hfound,-⟩ | ⟨hwraps,hlt⟩⟩ :=
    getBitScanStreamRevWord_cases blocks hn n.toNat_lt (blocks_lt cfg)
  · rw [← numPages_eq] at hnowrap hfound
    refine ⟨p,hscan,iff_of_true (fun hvalid => ?_) fun i hi => hnowrap i (Nat.zero_le i) hi⟩
    obtain ⟨hfit,hrun⟩ := hfound hvalid
    exact ⟨hfit,fun i hi hi' => (hrun i hi hi').free⟩
  · rw [← numPages_eq] at hlt
    exact ⟨p,hscan,iff_of_false (not_findsRun_of_wraps hwraps hlt) fun hnone => hnone p hlt hwraps⟩

theorem findsRun_iff_three : ∃ p, getBitScanStreamRevWord twoBlocks.numBlocks (fun _ => 0x8000000000000003#64)
      (3 : UInt32).toNat = some p ∧
    (FindsRun twoBlocks (fun _ => 0x8000000000000003#64) (3 : UInt32).toNat p ↔
      ∀ i < twoBlocks.numPages, ¬Wraps (fun _ => 0x8000000000000003#64) (3 : UInt32).toNat i) :=
  findsRun_iff twoBlocks _ 3 (by decide)

/-- Page 1 alone is free in each block, and 2^32-1 pages are asked for. -/
theorem not_findsRun_wrapped : ¬∀ (cfg : Config) (blocks : ℕ → BitVec 64) (n : UInt32), 0 < n.toNat →
    ∃ p, getBitScanStreamRevWord cfg.numBlocks blocks n.toNat = some p ∧ FindsRun cfg blocks n.toNat p := by
  intro h
  obtain ⟨p,hscan,hfinds⟩ := h twoBlocks (fun _ => 2#64) 0xFFFFFFFF (by decide)
  have hone : getBitScanStreamRevWord twoBlocks.numBlocks (fun _ => 2#64)
      (0xFFFFFFFF : UInt32).toNat = some 1 := by decide
  cases hone.symm.trans hscan
  exact absurd (hfinds (by decide)).1 (by decide)

/-- The bits from `start` on are set and cleared, `count` of them and no others. -/
theorem bitStreams_exact (cfg : Config) (blocks : ℕ → BitVec 64) (start count : ℕ)
    (hfit : start+count ≤ cfg.numPages) :
    (∃ blocks', setBitStream cfg start count blocks = some blocks' ∧
      ∀ i, bit blocks' i = if start ≤ i ∧ i < start+count then true else bit blocks i) ∧
    ∃ blocks', resetBitStream cfg start count blocks = some blocks' ∧
      ∀ i, bit blocks' i = if start ≤ i ∧ i < start+count then false else bit blocks i := by
  rw [numPages_eq] at hfit
  exact ⟨setBitStream_spec cfg blocks hfit (blocks_lt cfg),resetBitStream_spec cfg blocks hfit (blocks_lt cfg)⟩

/-- Ten bits across the end of the first block. -/
theorem bitStreams_across :
    (∃ blocks', setBitStream twoBlocks 60 10 (fun _ => 0) = some blocks' ∧
      ∀ i, bit blocks' i = if 60 ≤ i ∧ i < 60+10 then true else bit (fun _ => 0) i) ∧
    ∃ blocks', resetBitStream twoBlocks 60 10 (fun _ => 0) = some blocks' ∧
      ∀ i, bit blocks' i = if 60 ≤ i ∧ i < 60+10 then false else bit (fun _ => 0) i :=
  bitStreams_exact twoBlocks _ 60 10 (by decide)

end HeapAllocator
end SdkCp
