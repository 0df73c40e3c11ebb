import SdkCp.HeapAllocatorInvariant

/-! Runs of `heap_allocator` under its clients: every reachable state satisfies the
invariant, no call is stuck, and the blocks are sound exactly when the byte count of
the arena fits `uint32_t`. -/
namespace SdkCp
namespace HeapAllocator

open Bytes Bitmap

section Run

variable {cfg}

theorem heapAllocator_inv {raw : ℕ} (hraw : 0 < raw) (mem : Mem) :
    Inv cfg (heapAllocator cfg raw mem) [] := by
  have hP := pageSize_pos cfg
  have hdiv := Nat.div_add_mod raw cfg.pageSize
  have hmod := Nat.mod_lt raw hP
  have hptr : (heapAllocator cfg raw mem).memPtr =
      if raw % cfg.pageSize > 0 then raw+(cfg.pageSize-raw % cfg.pageSize) else raw := by
    simp only [heapAllocator,and_pageMask]
  constructor
  · rw [hptr]
    split <;> omega
  · rw [hptr]
    split
    · exact ⟨raw/cfg.pageSize+1,by rw [Nat.mul_succ]; omega⟩
    · exact Nat.dvd_of_mod_eq_zero (by omega)
  · simp
  · simp
  · exact List.Pairwise.nil
  · intro i _
    exact iff_of_true (bit_allOnes i) (by simp)
  · intro i _
    rfl
  · exact fun i _ => Nat.zero_le _
  · exact .none rfl rfl

theorem step_inv {s t : State} (e : Event) (hI : Inv cfg s.heap s.live)
    (hs : step cfg s e = some t) : Inv cfg t.heap t.live := by
  cases e with
  | allocate size =>
    obtain ⟨r,hr,hkept⟩ := allocate_kept hI size.toNat
    rw [step,hr,Option.map_some,Option.some_inj] at hs
    subst hs
    rcases r with ⟨h,_ | ptr⟩ <;> exact hkept
  | release mem =>
    obtain ⟨b,hb,hs⟩ := Option.bind_eq_some_iff.mp hs
    obtain rfl : b.ptr = mem := by simpa using List.find?_some hb
    obtain ⟨r,hr,-,hkept⟩ := release_kept (hI.perm (List.perm_cons_erase (List.mem_of_find?_eq_some hb)))
    rw [hr,Option.map_some,Option.some_inj] at hs
    subst hs
    exact hkept
  | write mem i v =>
    obtain ⟨b,hb,rfl⟩ := Option.map_eq_some_iff.mp hs
    obtain ⟨rfl,hi⟩ : b.ptr = mem ∧ i < b.size := by simpa using List.find?_some hb
    exact hI.write (List.mem_of_find?_eq_some hb) hi v

theorem inv_of_reachable {s : State} (h : (system cfg).Reachable s) : Inv cfg s.heap s.live := by
  refine TransitionSystem.ReachableBy.invariant (P := fun s => Inv cfg s.heap s.live) ?_ ?_ h
  · rintro s ⟨raw,mem,hraw,rfl⟩
    exact heapAllocator_inv hraw mem
  · exact fun s e t hI _ hs => step_inv e hI hs

/-- No call is stuck: a request ends without leaving the arrays, and every live block
can be released. -/
theorem Inv.served {s : State} (hI : Inv cfg s.heap s.live) :
    (∀ size, ∃ t, step cfg s (.allocate size) = some t) ∧
    ∀ b ∈ s.live, ∃ t, step cfg s (.release b.ptr) = some t := by
  constructor
  · intro size
    obtain ⟨r,hr,-⟩ := allocate_kept hI size.toNat
    exact ⟨_,by rw [step,hr,Option.map_some]⟩
  · intro b hb
    obtain ⟨c,hc⟩ : ∃ c, s.live.find? (fun c => c.ptr = b.ptr) = some c :=
      Option.isSome_iff_exists.mp (List.find?_isSome.mpr ⟨b,hb,by simp⟩)
    have hptr : c.ptr = b.ptr := by simpa using List.find?_some hc
    obtain ⟨r,hr,-⟩ := release_kept (hI.perm (List.perm_cons_erase (List.mem_of_find?_eq_some hc)))
    rw [hptr] at hr
    exact ⟨_,by rw [step,hc,Option.bind_some,hr,Option.map_some]⟩

end Run

section Sound

variable (cfg : Config)

/-- What the clients of an allocator rely on: their blocks lie in the arena, aligned,
apart and with intact headers; the bitmap and the counters tell which pages are
used; everything is free again once everything is released; and no call is stuck. -/
structure Sound (s : State) : Prop where
  inside : ∀ b ∈ s.live,
    s.heap.memPtr ≤ b.addr ∧ b.finish ≤ s.heap.memPtr+cfg.allocationSize
  aligned : ∀ b ∈ s.live, b.addr % sdkCpAlignment = 0
  apart : s.live.Pairwise Apart
  headers : ∀ b ∈ s.live,
    load s.heap.mem b.addr headerSize = b.header ∧ loadLE s.heap.mem b.addr 8 = b.size
  bitmap : ∀ i < cfg.numPages,
    bit s.heap.blocks i = true ↔ ∀ b ∈ s.live, ¬TouchesPage cfg s.heap.memPtr b i
  usages : ∀ i < cfg.numPages,
    s.heap.usage i = chargedTo cfg s.heap.memPtr s.live i ∧ s.heap.usage i ≤ cfg.pageSize
  all_released : s.live = [] →
    (∀ i < cfg.numPages, bit s.heap.blocks i = true ∧ s.heap.usage i = 0) ∧
    s.heap.activePage = none ∧ s.heap.activePosition = none
  served : (∀ size, ∃ t, step cfg s (.allocate size) = some t) ∧
    ∀ b ∈ s.live, ∃ t, step cfg s (.release b.ptr) = some t

variable {cfg}

/-- Without live blocks everything is free and there is no active page. -/
theorem Inv.all_released {h : Heap} (hI : Inv cfg h []) :
    (∀ i < cfg.numPages, bit h.blocks i = true ∧ h.usage i = 0) ∧
    h.activePage = none ∧ h.activePosition = none := by
  refine ⟨fun i hi => ⟨(hI.bits i hi).mpr (by simp),hI.usage i hi⟩,?_⟩
  rcases hI.cursor with ⟨hap,hactive⟩ | ⟨_,_,_,_,_,_,_,_,⟨b,hb,_⟩,_⟩
  · exact ⟨hactive,hap⟩
  · simp at hb

/-- The invariant gives everything, if the byte count of the arena does not wrap. -/
theorem Inv.sound {s : State} (hI : Inv cfg s.heap s.live)
    (hfit : cfg.numPages*cfg.pageSize < 2^32) : Sound cfg s where
  inside b hb := by
    have hp := hI.placed b hb
    have hin := hp.inside
    rw [hp.finish_eq,Config.allocationSize,u32_eq hfit,Nat.mul_comm]
    exact ⟨hp.base_le,by omega⟩
  aligned b hb := by
    have hp := hI.placed b hb
    rw [hp.addr_eq]
    exact Nat.mod_eq_zero_of_dvd (dvd_add ((sixteen_dvd_pageSize cfg).trans hI.memPtr_dvd) hp.aligned)
  apart := hI.apart
  headers b hb := ⟨(hI.headed b hb).bytes,(hI.headed b hb).size⟩
  bitmap := hI.bits
  usages i hi := ⟨hI.usage i hi,hI.usage_le i hi⟩
  all_released hnil := by
    rw [hnil] at hI
    exact hI.all_released
  served := hI.served

/-- When `__num_pages * __page_size` stays below 2^32, in terms of the parameters. -/
theorem numPages_mul_lt_iff :
    cfg.numPages*cfg.pageSize < 2^32 ↔ cfg.initSize+63*cfg.pageSize < 2^32 := by
  have hP := pageSize_pos cfg
  obtain ⟨m,hm⟩ : ∃ m, cfg.pageSize*(64*m) = 2^32 := pageSize_mul_blocks cfg
  have hleft : cfg.numPages*cfg.pageSize < 2^32 ↔ cfg.numBlocks < m := by
    rw [← hm,numPages_eq,Nat.mul_comm,Nat.mul_lt_mul_left hP]
    omega
  have hblocks : cfg.numBlocks < m ↔ cfg.initSize/cfg.pageSize < 64*m-63 := by
    simp only [Config.numBlocks,blockCount,kHVal_eq,and_kLMask]
    generalize cfg.initSize/cfg.pageSize = np
    split <;> omega
  rw [hleft,hblocks,Nat.div_lt_iff_lt_mul hP,Nat.mul_comm,Nat.mul_sub,hm]
  omega

theorem allocate_fresh {raw : ℕ} (hraw : 0 < raw) (mem : Mem) :
    ∃ h ptr, allocate cfg (heapAllocator cfg raw mem) 1 = some (h,some ptr) := by
  have hP := pageSize_gt cfg
  have hpages := numPages_lt cfg
  have hsize : alignSize 1 = 16 := rfl
  have hzero : (16+headerSize)/cfg.pageSize = 0 := Nat.div_eq_of_lt (by simp only [headerSize]; omega)
  have hmore : morePages cfg 16 = 0 := Nat.div_eq_of_lt (by simp only [headerSize]; omega)
  have hscan : getBitScanStreamRevWord cfg.numBlocks (heapAllocator cfg raw mem).blocks 1 = some 0 :=
    getBitScanStreamRevWord_fresh (numBlocks_pos cfg)
  have hpos : 0 < cfg.numPages := cfg.pages_pos
  rw [numPages_eq] at hpos hpages
  obtain ⟨blocks,hreset,-⟩ := @resetBitStream_spec cfg 0 1 (heapAllocator cfg raw mem).blocks
    (by omega) (by omega)
  rw [← numPages_eq] at hpos
  have hin : allocateInPage cfg (heapAllocator cfg raw mem) 16 (16+headerSize) =
      (heapAllocator cfg raw mem,none) := rfl
  have hnull : (heapAllocator cfg raw mem).memPtr ≠ 0 := (heapAllocator_inv hraw mem).memPtr_pos.ne'
  rw [allocate]
  simp only [hsize,hzero,hin]
  rw [if_pos ⟨hnull,by norm_num⟩,if_pos (show u32 0 = 0 from rfl)]
  simp only [allocatePages,@fullPagesCount_eq cfg 16 (by norm_num),hmore,Nat.zero_add,hscan,
    Option.bind_some]
  rw [if_neg (show 0 ≠ invalidPageIx by decide)]
  simp only [show u32 (1-1) = 0 from rfl,hpos,if_true,getPage_of_lt hpos,
    show (heapAllocator cfg raw mem).activePosition = none from rfl,hreset,Option.map_some]
  exact ⟨_,_,rfl⟩

/-- The blocks of every reachable state are sound exactly if the arena, rounded up to
whole blocks of 64 pages, is below 2^32 bytes. -/
theorem sound_iff (cfg : Config) :
    (∀ s, (system cfg).Reachable s → Sound cfg s) ↔ cfg.initSize+63*cfg.pageSize < 2^32 := by
  rw [← numPages_mul_lt_iff]
  refine ⟨fun hall => ?_,fun hfit s hs => (inv_of_reachable hs).sound hfit⟩
  by_contra hwrap
  have hzero : cfg.allocationSize = 0 := by
    have := numPages_mul_le cfg
    simp only [Config.allocationSize,u32]
    omega
  obtain ⟨h,ptr,hr⟩ := @allocate_fresh cfg 1 Nat.one_pos fun _ => 0
  have hstep : (system cfg).step ⟨heapAllocator cfg 1 fun _ => 0,[]⟩ (.allocate 1) =
      some (handOut 1 (h,some ptr) []) := by
    simp only [system,step]
    rw [show (1 : UInt32).toNat = 1 from rfl,hr,Option.map_some]
  have hsound := hall _ (.step (.init ⟨1,fun _ => 0,Nat.one_pos,rfl⟩) trivial hstep)
  obtain ⟨hbase,hin⟩ := hsound.inside _ List.mem_cons_self
  rw [hzero] at hin
  simp only [handOut,Block.finish,headerSize] at hbase hin
  omega

/-- The largest `__init_size` with pages of 4096 bytes: 2^20 pages, whose byte count
wraps to 0. -/
def wrapped : Config where
  initSize := 2^32-1
  pageBits := 12
  init_pos := by decide
  init_lt := by decide
  page_gt := by decide
  page_le := by decide
  pages_pos := by decide

/-- The first block of the wrapped allocator lies behind the end of its arena. -/
theorem not_sound_wrapped :
    ∃ s, (system wrapped).Reachable s ∧ wrapped.allocationSize = 0 ∧ s.heap.memPtr = 4096 ∧
      s.live.map (fun b => (b.addr,b.finish)) = [(4096,4128)] ∧ ¬Sound wrapped s := by
  have hrun : ((system wrapped).exec ⟨heapAllocator wrapped 4096 fun _ => 0,[]⟩ [.allocate 1]).map
      (fun s => (s.heap.memPtr,s.live.map fun b => (b.addr,b.finish))) =
      some (4096,[(4096,4128)]) := by decide
  obtain ⟨s,hs,hfacts⟩ := Option.map_eq_some_iff.mp hrun
  obtain ⟨hptr,hlive⟩ := Prod.mk.inj hfacts
  have hzero : wrapped.allocationSize = 0 := by decide
  refine ⟨s,?_,hzero,hptr,hlive,fun hsound => ?_⟩
  · exact TransitionSystem.ReachableBy.exec (fun _ _ _ => trivial)
      (.init ⟨4096,fun _ => 0,by decide,rfl⟩) hs
  · obtain ⟨b,hb,hrange⟩ := List.mem_map.mp (hlive ▸ List.mem_singleton_self (4096,4128))
    have hin := (hsound.inside b hb).2
    rw [hzero,hptr] at hin
    have := (Prod.mk.inj hrange).2
    omega

end Sound

end HeapAllocator
end SdkCp
