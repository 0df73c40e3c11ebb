import SdkCp.HeapAllocatorScan
import SdkCp.Pages

/-! Where `heap_allocator` puts blocks: the sizes of the arena, the pages a block
touches, the bytes charged to its last page, and the blocks that start a page or
lie in the rest of one. -/
namespace SdkCp
namespace HeapAllocator

open Bytes Bitmap Pages

section Sizes

variable (cfg : Config)

theorem pageSize_gt : 1024 < cfg.pageSize := cfg.page_gt
theorem pageSize_le : cfg.pageSize ≤ 16384 := cfg.page_le
theorem pageSize_pos : 0 < cfg.pageSize := Nat.lt_of_le_of_lt (Nat.zero_le _) cfg.page_gt

theorem and_pageMask (n : ℕ) : n &&& cfg.pageMask = n % cfg.pageSize :=
  Nat.and_two_pow_sub_one_eq_mod n _

theorem pageBits_bounds : 4 < cfg.pageBits ∧ cfg.pageBits ≤ 14 := by
  constructor
  · by_contra h
    have := Nat.pow_le_pow_right (n := 2) (by norm_num) (show cfg.pageBits ≤ 4 by omega)
    have := cfg.page_gt
    omega
  · by_contra h
    have := Nat.pow_le_pow_right (n := 2) (by norm_num) (show 15 ≤ cfg.pageBits by omega)
    have := cfg.page_le
    omega

theorem sixteen_dvd_pageSize : 16 ∣ cfg.pageSize :=
  pow_dvd_pow 2 (show 4 ≤ cfg.pageBits from (pageBits_bounds cfg).1.le)

theorem numPages_eq : cfg.numPages = 64*cfg.numBlocks := by
  rw [Config.numPages,shiftLeft_kFlagBound,Nat.mul_comm]

theorem numBlocks_pos : 0 < cfg.numBlocks := by
  have h : 0 < cfg.numPages := cfg.pages_pos
  rw [numPages_eq] at h
  omega

theorem pageSize_mul_blocks : ∃ m, cfg.pageSize*(64*m) = 2^32 := by
  have hb := (pageBits_bounds cfg).2
  refine ⟨2^(26-cfg.pageBits),?_⟩
  rw [Config.pageSize,show (64 : ℕ) = 2^6 by norm_num,← pow_add,← pow_add]
  congr 1
  omega

theorem numPages_mul_le : cfg.numPages*cfg.pageSize ≤ 2^32 := by
  obtain ⟨m,hm⟩ := pageSize_mul_blocks cfg
  have hnp : cfg.initSize/cfg.pageSize < 64*m := by
    rw [Nat.div_lt_iff_lt_mul (pageSize_pos cfg),Nat.mul_comm,hm]
    exact cfg.init_lt
  have hnb : cfg.numBlocks ≤ m := by
    simp only [Config.numBlocks,blockCount,kHVal_eq,and_kLMask]
    split <;> omega
  calc cfg.numPages*cfg.pageSize = cfg.pageSize*(64*cfg.numBlocks) := by rw [numPages_eq,Nat.mul_comm]
    _ ≤ cfg.pageSize*(64*m) := Nat.mul_le_mul_left _ (Nat.mul_le_mul_left _ hnb)
    _ = 2^32 := hm

theorem numPages_lt : cfg.numPages < 2^22 := by
  have h := numPages_mul_le cfg
  have hp := pageSize_gt cfg
  by_contra hlt
  have := Nat.mul_lt_mul_of_le_of_lt (show 2^22 ≤ cfg.numPages by omega) hp (by omega)
  omega

end Sizes

variable (cfg : Config)

namespace Block

/-- Header and payload. -/
def need (b : Block) : ℕ := b.size+headerSize
/-- The distance from `_mem_ptr`. -/
def off (memPtr : ℕ) (b : Block) : ℕ := b.addr-memPtr

end Block

section Placement

variable (base : ℕ)

/-- Block `b` touches page `i`. -/
def TouchesPage (b : Block) (i : ℕ) : Prop := Touches cfg.pageSize (b.off base) b.need i
/-- The bytes of block `b` that are charged to page `i`. -/
def chargedPage (b : Block) (i : ℕ) : ℕ := charged cfg.pageSize (b.off base) b.need i
/-- The bytes of the live blocks that are charged to page `i`. -/
def chargedTo (live : List Block) (i : ℕ) : ℕ := (live.map fun b => chargedPage cfg base b i).sum

def firstPage (b : Block) : ℕ := first cfg.pageSize (b.off base)
def lastPage (b : Block) : ℕ := last cfg.pageSize (b.off base) b.need

/-- The ranges of two blocks do not meet. -/
def Apart (b c : Block) : Prop := b.finish ≤ c.addr ∨ c.finish ≤ b.addr

/-- Where a block lies in an arena at `base`. A block of at most a page is on one page,
a larger one starts a page. -/
structure Placed (b : Block) : Prop where
  base_le : base ≤ b.addr
  inside : b.off base+b.need ≤ cfg.pageSize*cfg.numPages
  aligned : 16 ∣ b.off base
  size_pos : 0 < b.size
  size_dvd : 16 ∣ b.size
  size_lt : b.size < 2^32
  small : b.need ≤ cfg.pageSize → firstPage cfg base b = lastPage cfg base b
  large : cfg.pageSize < b.need → b.off base = cfg.pageSize*firstPage cfg base b

end Placement

section Geometry

variable {cfg} {base i : ℕ} {b c : Block} {live : List Block}

theorem Block.need_pos (b : Block) : 0 < b.need := Nat.succ_pos _

theorem Apart.symm (h : Apart b c) : Apart c b := Or.symm h

theorem Placed.addr_eq (h : Placed cfg base b) : b.addr = base+b.off base := by
  have := h.base_le
  simp only [Block.off]
  omega

theorem Placed.finish_eq (h : Placed cfg base b) : b.finish = base+b.off base+b.need := by
  rw [← h.addr_eq]
  rfl

theorem touchesPage_iff : TouchesPage cfg base b i ↔ firstPage cfg base b ≤ i ∧ i ≤ lastPage cfg base b :=
  touches_iff (pageSize_pos cfg) b.need_pos

theorem touchesPage_lastPage : TouchesPage cfg base b (lastPage cfg base b) :=
  touchesPage_iff.mpr ⟨first_le_last b.need_pos,le_rfl⟩

theorem Placed.lastPage_lt (h : Placed cfg base b) : lastPage cfg base b < cfg.numPages := by
  have := h.inside
  have := b.need_pos
  rw [lastPage,last,Nat.div_lt_iff_lt_mul (pageSize_pos cfg),Nat.mul_comm]
  omega

theorem apart_of_pages (hb : Placed cfg base b) (hc : Placed cfg base c)
    (h : ∀ i, TouchesPage cfg base b i → ¬TouchesPage cfg base c i) : Apart b c := by
  have := disjoint_of_pages b.need_pos c.need_pos h
  rw [Apart,hb.finish_eq,hc.finish_eq,hb.addr_eq,hc.addr_eq]
  omega

/-- Of two blocks that are apart and share a page, both end there: a block covers
every page it touches before its last one. -/
theorem lastPage_of_shared (hb : Placed cfg base b) (hc : Placed cfg base c) (hap : Apart b c)
    (hbi : TouchesPage cfg base b i) (hci : TouchesPage cfg base c i) : lastPage cfg base b = i := by
  obtain ⟨hfirst,hlast⟩ := touchesPage_iff.mp hbi
  by_contra hne
  have hlarge : cfg.pageSize < b.need := by
    by_contra hsmall
    have := hb.small (by omega)
    omega
  obtain ⟨x,hx,hx',hpage⟩ := hci
  have hxlo := mul_le_of_div_eq hpage
  have hxhi := lt_mul_add_of_div_eq (pageSize_pos cfg) hpage
  have hstart : b.off base ≤ cfg.pageSize*i := hb.large hlarge ▸ Nat.mul_le_mul_left _ hfirst
  have hend : cfg.pageSize*i+cfg.pageSize ≤ b.off base+b.need-1 := by
    have := Nat.mul_le_mul_left cfg.pageSize (show i+1 ≤ lastPage cfg base b by omega)
    rw [Nat.mul_succ] at this
    exact this.trans (Nat.mul_div_le _ _)
  rw [Apart,hb.finish_eq,hc.finish_eq,hb.addr_eq,hc.addr_eq] at hap
  omega

@[simp] theorem chargedTo_cons : chargedTo cfg base (b::live) i =
    chargedPage cfg base b i+chargedTo cfg base live i := by
  simp [chargedTo]

theorem chargedTo_perm {live' : List Block} (h : live.Perm live') :
    chargedTo cfg base live i = chargedTo cfg base live' i := (h.map _).sum_eq

theorem chargedPage_eq_zero (h : ¬TouchesPage cfg base b i) : chargedPage cfg base b i = 0 :=
  charged_eq_zero b.need_pos h

theorem chargedPage_of_ne (h : lastPage cfg base b ≠ i) : chargedPage cfg base b i = 0 :=
  charged_of_ne h

theorem chargedPage_single (hf : firstPage cfg base b = i) (hl : lastPage cfg base b = i) :
    chargedPage cfg base b i = b.need := by
  subst hl
  exact charged_of_first_eq_last hf

theorem chargedTo_eq_zero (h : ∀ b ∈ live, ¬TouchesPage cfg base b i) :
    chargedTo cfg base live i = 0 := by
  apply List.sum_eq_zero
  intro n hn
  obtain ⟨b,hb,rfl⟩ := List.mem_map.mp hn
  exact chargedPage_eq_zero (h b hb)

theorem chargedTo_pos (hb : b ∈ live) (h : lastPage cfg base b = i) : 0 < chargedTo cfg base live i := by
  have hle : chargedPage cfg base b i ≤ chargedTo cfg base live i :=
    List.single_le_sum (by simp) _ (List.mem_map.mpr ⟨b,hb,rfl⟩)
  exact (charged_pos b.need_pos h).trans_le hle

end Geometry

section New

variable {cfg} {base page fill size : ℕ} {hdr : List UInt8}

theorem page_inside {x : ℕ} (hpage : page < cfg.numPages) (hx : x ≤ cfg.pageSize) :
    cfg.pageSize*page+x ≤ cfg.pageSize*cfg.numPages := by
  have := Nat.mul_le_mul_left cfg.pageSize (Nat.succ_le_of_lt hpage)
  rw [Nat.mul_succ] at this
  omega

theorem off_within : Block.off base ⟨base+cfg.pageSize*page+fill,size,hdr⟩ = cfg.pageSize*page+fill := by
  simp only [Block.off]
  omega

theorem pages_within (hfit : fill+(size+headerSize) ≤ cfg.pageSize) :
    firstPage cfg base ⟨base+cfg.pageSize*page+fill,size,hdr⟩ = page ∧
    lastPage cfg base ⟨base+cfg.pageSize*page+fill,size,hdr⟩ = page := by
  rw [firstPage,lastPage,off_within]
  exact ⟨first_within (by simp only [headerSize] at hfit; omega),last_within (Nat.succ_pos _) hfit⟩

theorem placed_within (hpage : page < cfg.numPages) (hfit : fill+(size+headerSize) ≤ cfg.pageSize)
    (hfdvd : 16 ∣ fill) (hpos : 0 < size) (hdvd : 16 ∣ size) (hlt : size < 2^32) :
    Placed cfg base ⟨base+cfg.pageSize*page+fill,size,hdr⟩ where
  base_le := by simp only; omega
  inside := by
    rw [off_within,Nat.add_assoc]
    exact page_inside hpage hfit
  aligned := by
    rw [off_within]
    exact dvd_add (Dvd.dvd.mul_right (sixteen_dvd_pageSize cfg) _) hfdvd
  size_pos := hpos
  size_dvd := hdvd
  size_lt := hlt
  small _ := by rw [(pages_within hfit).1,(pages_within hfit).2]
  large hl := absurd hl (by simp only [Block.need]; omega)

theorem off_at : Block.off base ⟨base+cfg.pageSize*page,size,hdr⟩ = cfg.pageSize*page :=
  Nat.add_sub_cancel_left _ _

variable (cfg size) in
/-- The pages after its first one that a block at the start of a page takes. -/
def morePages : ℕ := (size+headerSize-1)/cfg.pageSize

variable (cfg size) in
theorem morePages_bounds : cfg.pageSize*morePages cfg size < size+headerSize ∧
    size+headerSize ≤ cfg.pageSize*morePages cfg size+cfg.pageSize := by
  have hle : cfg.pageSize*morePages cfg size ≤ size+headerSize-1 := Nat.mul_div_le _ _
  have hlt := Nat.lt_mul_div_succ (size+headerSize-1) (pageSize_pos cfg)
  rw [Nat.mul_succ] at hlt
  simp only [morePages,headerSize] at *
  omega

theorem fullPagesCount_eq (hlt : size < 2^32) :
    fullPagesCount cfg (size+headerSize) = morePages cfg size+1 := by
  have hcount := @div_add_one_of_mod _ (size+headerSize) (pageSize_pos cfg) (Nat.succ_pos _)
  have hsmall : (size+headerSize)/cfg.pageSize ≤ (size+headerSize)/1024 :=
    Nat.div_le_div_left (pageSize_gt cfg).le (by norm_num)
  have hneed : size+headerSize < 2^33 := by
    simp only [headerSize]
    omega
  rw [fullPagesCount,and_pageMask,u32_eq (n := (size+headerSize)/cfg.pageSize) (by omega),u32_eq]
  · exact hcount
  · split <;> omega

theorem lastPageUsage_eq : lastPageUsage cfg (size+headerSize) =
    size+headerSize-cfg.pageSize*morePages cfg size := by
  have hrest := @mod_add_of_mod _ (size+headerSize) (pageSize_pos cfg) (Nat.succ_pos _)
  have hb := morePages_bounds cfg size
  have hP := pageSize_le cfg
  simp only [lastPageUsage,and_pageMask,hrest]
  rw [← morePages,u16,Nat.mod_eq_of_lt (by omega)]

theorem firstPage_at : firstPage cfg base ⟨base+cfg.pageSize*page,size,hdr⟩ = page := by
  rw [firstPage,off_at,first_mul (pageSize_pos cfg)]

theorem lastPage_at :
    lastPage cfg base ⟨base+cfg.pageSize*page,size,hdr⟩ = page+morePages cfg size := by
  rw [lastPage,off_at,last_mul (pageSize_pos cfg) (Block.need_pos _)]
  rfl

theorem chargedPage_at : chargedPage cfg base ⟨base+cfg.pageSize*page,size,hdr⟩
    (page+morePages cfg size) = size+headerSize-cfg.pageSize*morePages cfg size := by
  have hc := charged_mul (pageSize_pos cfg) (Nat.succ_pos (size+15)) (i := page)
  rw [last_mul (pageSize_pos cfg) (Nat.succ_pos _)] at hc
  rw [chargedPage,off_at]
  exact hc

theorem placed_at (hpage : page+morePages cfg size < cfg.numPages) (hpos : 0 < size)
    (hdvd : 16 ∣ size) (hlt : size < 2^32) : Placed cfg base ⟨base+cfg.pageSize*page,size,hdr⟩ where
  base_le := Nat.le_add_right _ _
  inside := by
    have hb := morePages_bounds cfg size
    have hin := page_inside (x := size+headerSize-cfg.pageSize*morePages cfg size) hpage (by omega)
    rw [Nat.mul_add] at hin
    rw [off_at]
    simp only [Block.need]
    omega
  aligned := by
    rw [off_at]
    exact Dvd.dvd.mul_right (sixteen_dvd_pageSize cfg) _
  size_pos := hpos
  size_dvd := hdvd
  size_lt := hlt
  small hs := by
    have hzero : morePages cfg size = 0 :=
      Nat.div_eq_of_lt (by simp only [Block.need,headerSize] at *; omega)
    rw [firstPage_at,lastPage_at,hzero,Nat.add_zero]
  large _ := by rw [off_at,firstPage_at]

end New

end HeapAllocator
end SdkCp
