import SdkCp.HeapAllocatorSafety

/-! When `heap_allocator` finds room: what `allocate` does with a request, as a condition on
the cursor and the bitmap, and the free runs that it misses. -/
namespace SdkCp
namespace HeapAllocator

open Bytes Bitmap

section Room

variable (cfg : Config)

/-- The rounded request plus header, in bytes. -/
def requestSize (size : ℕ) : ℕ := (size+(sdkCpAlignment-1))/sdkCpAlignment*sdkCpAlignment+headerSize
/-- The number of pages `need` bytes take. -/
def requestPages (need : ℕ) : ℕ := (need-1)/cfg.pageSize+1

/-- Less than a page, and it fits behind the cursor. -/
def FitsPage (h : Heap) (need : ℕ) : Prop :=
  need < cfg.pageSize ∧ ∃ position page, h.activePosition = some position ∧ h.activePage = some page ∧
    position+need ≤ page+cfg.pageSize

/-- `n` consecutive free pages of the arena. -/
def FreeRun (h : Heap) (n : ℕ) : Prop :=
  ∃ start, start+n ≤ cfg.numPages ∧ Run (fun i => bit h.blocks i = true) start n

/-- `n` consecutive free pages of the arena, none of which is in a dropped run. -/
def SeenRun (h : Heap) (n : ℕ) : Prop := ∃ start, start+n ≤ cfg.numPages ∧ Run (Seen h.blocks) start n

/-- The allocator returns null only if there is no room. -/
def Complete (h : Heap) (size : ℕ) : Prop :=
  ∀ h', allocate cfg h size = some (h',none) →
    ¬FitsPage cfg h (requestSize size) ∧ ¬FreeRun cfg h (requestPages cfg (requestSize size))

end Room

section Calls

variable {cfg : Config} {h : Heap} {live : List Block} {n page fill : ℕ}

/-- The allocator without an active page. -/
def Heap.noCursor (h : Heap) : Heap := {h with activePosition := none, activePage := none}

theorem Heap.noCursor_eq (hap : h.activePosition = none) (hactive : h.activePage = none) :
    h.noCursor = h := by
  obtain ⟨mem,memPtr,blocks,usage,position,page⟩ := h
  subst hap hactive
  rfl

theorem alignSize_lt (n : ℕ) : alignSize n < 2^32 := by
  rw [alignSize_eq]
  omega

theorem u32_div_eq_zero (hlt : n < 2^32) :
    u32 ((n+headerSize)/cfg.pageSize) = 0 ↔ n+headerSize < cfg.pageSize := by
  have hP := pageSize_gt cfg
  have hle : (n+headerSize)/cfg.pageSize ≤ (n+headerSize)/1024 :=
    Nat.div_le_div_left hP.le (by norm_num)
  have hneed : n+headerSize < 2^33 := by
    simp only [headerSize]
    omega
  rw [u32_eq (by omega),Nat.div_eq_zero_iff]
  omega

theorem allocatePages_memPtr {size needSize : ℕ} {r : Heap × Option ℕ}
    (hr : allocatePages cfg h size needSize = some r) : r.1.memPtr = h.memPtr := by
  obtain ⟨position,-,hr⟩ := Option.bind_eq_some_iff.mp hr
  split at hr
  · rw [← Option.some.inj hr]
  dsimp only at hr
  split at hr
  · split at hr
    · obtain ⟨blocks,-,rfl⟩ := Option.map_eq_some_iff.mp hr
      dsimp only
      split <;> rfl
    · rw [← Option.some.inj hr]
  · cases hr

theorem allocate_memPtr {r : Heap × Option ℕ} (hr : allocate cfg h n = some r) :
    r.1.memPtr = h.memPtr := by
  simp only [allocate] at hr
  split at hr
  · split at hr
    · have hin : (allocateInPage cfg h (alignSize n) (alignSize n+headerSize)).1.memPtr = h.memPtr := by
        simp only [allocateInPage]
        split
        · split <;> rfl
        · rfl
      revert hr hin
      rcases allocateInPage cfg h (alignSize n) (alignSize n+headerSize) with ⟨h',_ | ptr⟩
      · exact fun hr hin => (allocatePages_memPtr hr).trans hin
      · intro hr hin
        rw [← Option.some.inj hr]
        exact hin
    · exact allocatePages_memPtr hr
  · rw [← Option.some.inj hr]

/-- `release` leaves the cursor, or takes it away from a page that is no longer used. -/
theorem releasePage_cursor {position needSize : ℕ} {r : Heap × Bool}
    (hr : releasePage cfg h position needSize = some r) :
    r.1.memPtr = h.memPtr ∧
    (r.1.activePosition = h.activePosition ∧ r.1.activePage = h.activePage ∨
      r.1.activePosition = none ∧ r.1.usage (getPageIndex cfg h h.activePage) = 0) := by
  simp only [releasePage] at hr
  split at hr
  · split at hr
    · rename_i hzero
      split at hr
      · rename_i hix
        obtain rfl := Option.some.inj hr
        refine ⟨rfl,.inr ⟨rfl,?_⟩⟩
        have hsame : getPageIndex cfg h h.activePage = position := hix
        simp only [hsame,Function.update_self,hzero]
      · obtain rfl := Option.some.inj hr
        exact ⟨rfl,.inl ⟨rfl,rfl⟩⟩
    · obtain rfl := Option.some.inj hr
      exact ⟨rfl,.inl ⟨rfl,rfl⟩⟩
  · cases hr

theorem release_cursor {ptr : Option ℕ} {r : Heap × Bool} (hr : release cfg h ptr = some r) :
    r.1.memPtr = h.memPtr ∧
    (r.1.activePosition = h.activePosition ∧ r.1.activePage = h.activePage ∨
      r.1.activePosition = none ∧ r.1.usage (getPageIndex cfg h h.activePage) = 0) := by
  have hsame : ∀ ok, some (h,ok) = some r → r.1.memPtr = h.memPtr ∧
      (r.1.activePosition = h.activePosition ∧ r.1.activePage = h.activePage ∨
        r.1.activePosition = none ∧ r.1.usage (getPageIndex cfg h h.activePage) = 0) := by
    intro ok h
    obtain rfl := Option.some.inj h
    exact ⟨rfl,.inl ⟨rfl,rfl⟩⟩
  cases ptr with
  | none => exact hsame _ hr
  | some mem =>
    simp only [release] at hr
    split at hr
    · exact hsame _ hr
    split at hr
    · exact hsame _ hr
    split at hr
    · exact hsame _ hr
    split at hr
    · obtain ⟨blocks,-,hr⟩ := Option.bind_eq_some_iff.mp hr
      exact @releasePage_cursor cfg {h with blocks := blocks} _ _ _ hr
    · exact releasePage_cursor hr

theorem allocate_large (hbase : 0 < h.memPtr) (hpos : 0 < alignSize n)
    (hlarge : cfg.pageSize ≤ alignSize n+headerSize) :
    allocate cfg h n = allocatePages cfg h (alignSize n) (alignSize n+headerSize) := by
  simp only [allocate]
  rw [if_pos ⟨hbase.ne',hpos⟩,if_neg (mt (u32_div_eq_zero (alignSize_lt n)).mp (by omega))]

/-- A smaller one does so without a cursor, where it does not fit behind it. -/
theorem allocate_small (hI : Inv cfg h live) (hpos : 0 < alignSize n)
    (hsmall : alignSize n+headerSize < cfg.pageSize) (hno : ¬FitsPage cfg h (alignSize n+headerSize)) :
    allocate cfg h n = allocatePages cfg h.noCursor (alignSize n) (alignSize n+headerSize) := by
  simp only [allocate]
  rw [if_pos ⟨hI.memPtr_pos.ne',hpos⟩,if_pos ((u32_div_eq_zero (alignSize_lt n)).mpr hsmall)]
  rcases hI.cursor with ⟨hap,hactive⟩ | ⟨page,fill,hpage,hactive,hap,hfill,-⟩
  · have hin : allocateInPage cfg h (alignSize n) (alignSize n+headerSize) = (h,none) := by
      simp only [allocateInPage,hap]
    rw [hin,Heap.noCursor_eq hap hactive]
  · rw [allocateInPage_eq hpage hfill hactive hap,if_neg]
    · rfl
    · exact fun hfit => hno ⟨hsmall,_,_,hap,hactive,by omega⟩

theorem allocate_fits (hI : Inv cfg h live) (hpos : 0 < alignSize n)
    (hfits : FitsPage cfg h (alignSize n+headerSize)) :
    ∃ h' position, h.activePosition = some position ∧
      allocate cfg h n = some (h',some (position+headerSize)) := by
  obtain ⟨hsmall,position,active,hap',hactive',hroom⟩ := hfits
  rcases hI.cursor with ⟨hap,-⟩ | ⟨page,fill,hpage,hactive,hap,hfill,-⟩
  · rw [hap] at hap'
    cases hap'
  obtain rfl := Option.some.inj (hap.symm.trans hap')
  obtain rfl := Option.some.inj (hactive.symm.trans hactive')
  simp only [allocate]
  rw [if_pos ⟨hI.memPtr_pos.ne',hpos⟩,if_pos ((u32_div_eq_zero (alignSize_lt n)).mpr hsmall),
    allocateInPage_eq hpage hfill hactive hap,if_pos (by omega)]
  exact ⟨_,_,hap,rfl⟩

/-- Where a run is seen, the search returns one, and its pages can be taken. -/
theorem exists_scan {size : ℕ} (hlt : size < 2^32) (hseen : SeenRun cfg h (morePages cfg size+1)) :
    ∃ start blocks, getBitScanStreamRevWord cfg.numBlocks h.blocks (morePages cfg size+1) = some start ∧
      resetBitStream cfg start (morePages cfg size+1) h.blocks = some blocks ∧
      start+morePages cfg size < cfg.numPages ∧ Run (Seen h.blocks) start (morePages cfg size+1) := by
  obtain ⟨hn32,hsize⟩ := @pages_bounds cfg size hlt
  obtain ⟨start,hscan,hfound,hnone⟩ := @getBitScanStreamRevWord_spec (morePages cfg size+1) h.blocks
    (Nat.succ_pos _) hn32 cfg.numBlocks hsize
  have hvalid : start ≠ invalidPageIx := by
    intro hinvalid
    obtain ⟨first,hfit,hrun⟩ := hseen
    rw [numPages_eq] at hfit
    exact hnone hinvalid first hfit hrun
  obtain ⟨hfit,hrun⟩ := hfound hvalid
  obtain ⟨blocks,hreset,-⟩ := resetBitStream_spec cfg h.blocks hfit hsize
  rw [← numPages_eq] at hfit
  exact ⟨start,blocks,hscan,hreset,by omega,hrun⟩

theorem scan_none {size : ℕ} (hlt : size < 2^32) (hseen : ¬SeenRun cfg h (morePages cfg size+1)) :
    getBitScanStreamRevWord cfg.numBlocks h.blocks (morePages cfg size+1) = some invalidPageIx := by
  obtain ⟨hn32,hsize⟩ := @pages_bounds cfg size hlt
  obtain ⟨start,hscan,hfound,-⟩ := @getBitScanStreamRevWord_spec (morePages cfg size+1) h.blocks
    (Nat.succ_pos _) hn32 cfg.numBlocks hsize
  by_cases hvalid : start = invalidPageIx
  · exact hvalid ▸ hscan
  · obtain ⟨hfit,hrun⟩ := hfound hvalid
    exact absurd ⟨start,numPages_eq cfg ▸ hfit,hrun⟩ hseen

theorem allocatePages_none_iff {size : ℕ} (hlt : size < 2^32) :
    (∃ h', allocatePages cfg h size (size+headerSize) = some (h',none)) ↔
      ¬SeenRun cfg h (morePages cfg size+1) := by
  by_cases hseen : SeenRun cfg h (morePages cfg size+1)
  · obtain ⟨start,blocks,hscan,hreset,hfit,-⟩ := exists_scan hlt hseen
    refine iff_of_false ?_ (not_not_intro hseen)
    rintro ⟨h',hres⟩
    rw [allocatePages_some hlt hscan hfit hreset] at hres
    simp at hres
  · exact iff_of_true ⟨h,allocatePages_none hlt (scan_none hlt hseen)⟩ hseen

/-- `allocate` returns null exactly for an empty request, or where it neither fits behind the
cursor nor on pages that are seen. -/
theorem allocate_none_iff (hI : Inv cfg h live) (n : ℕ) :
    (∃ h', allocate cfg h n = some (h',none)) ↔ alignSize n = 0 ∨
      ¬FitsPage cfg h (alignSize n+headerSize) ∧ ¬SeenRun cfg h (morePages cfg (alignSize n)+1) := by
  rcases Nat.eq_zero_or_pos (alignSize n) with hzero | hpos
  · refine iff_of_true ⟨h,?_⟩ (.inl hzero)
    simp only [allocate]
    rw [if_neg (by omega)]
  by_cases hfits : FitsPage cfg h (alignSize n+headerSize)
  · obtain ⟨h',position,-,hres⟩ := allocate_fits hI hpos hfits
    refine iff_of_false ?_ (by simp [hfits,hpos.ne'])
    rintro ⟨h'',hres'⟩
    rw [hres] at hres'
    simp at hres'
  · have hpages : ∃ h₁, SeenRun cfg h₁ = SeenRun cfg h ∧
        allocate cfg h n = allocatePages cfg h₁ (alignSize n) (alignSize n+headerSize) := by
      rcases Nat.lt_or_ge (alignSize n+headerSize) cfg.pageSize with hsmall | hlarge
      · exact ⟨h.noCursor,rfl,allocate_small hI hpos hsmall hfits⟩
      · exact ⟨h,rfl,allocate_large hI.memPtr_pos hpos hlarge⟩
    obtain ⟨h₁,hsame,hcall⟩ := hpages
    rw [hcall,allocatePages_none_iff (alignSize_lt n),hsame]
    simp [hfits,hpos.ne']

end Calls

section Complete

variable {cfg : Config} {h : Heap} {live : List Block} {size : ℕ}

theorem SeenRun.free {n : ℕ} (hrun : SeenRun cfg h n) : FreeRun cfg h n := by
  obtain ⟨start,hfit,hseen⟩ := hrun
  exact ⟨start,hfit,fun i hi hi' => (hseen i hi hi').free⟩

theorem seenRun_one {i : ℕ} (hi : i < cfg.numPages) (hfree : bit h.blocks i = true) :
    SeenRun cfg h 1 := by
  classical
  have hex : ∃ i, bit h.blocks i = true := ⟨i,hfree⟩
  have hfirst := Nat.find_le hfree (h:=hex)
  refine ⟨Nat.find hex,by omega,fun j hj hj' => ?_⟩
  obtain rfl : j = Nat.find hex := by omega
  refine ⟨Nat.find_spec hex,fun hskips => ?_⟩
  obtain ⟨hskip,-⟩ := hskips
  rcases hb : Nat.find hex/64 with _ | b
  · rw [hb] at hskip
    exact hskip
  · rw [hb,skips_succ] at hskip
    exact Nat.find_min hex (show 64*b+63 < _ by omega) hskip.2.free

theorem requestSize_eq (hsize : size+15 < 2^32) : requestSize size = alignSize size+headerSize := by
  rw [requestSize,alignSize_eq]
  simp only [sdkCpAlignment]
  omega

theorem not_freeRun_of_wrap (hlt : size < 2^32) (hsize : 2^32 ≤ size+15) :
    ¬FreeRun cfg h (requestPages cfg (requestSize size)) := by
  rintro ⟨start,hfit,-⟩
  have hneed : requestSize size = 2^32+16 := by
    simp only [requestSize,sdkCpAlignment,headerSize]
    omega
  have hall := numPages_mul_le cfg
  have hmore := Nat.lt_mul_div_succ (2^32+16-1) (pageSize_pos cfg)
  rw [requestPages,hneed] at hfit
  have hmul := Nat.mul_le_mul_left cfg.pageSize (show (2^32+16-1)/cfg.pageSize+1 ≤ cfg.numPages by omega)
  rw [Nat.mul_comm cfg.numPages] at hall
  omega

/-- In every reachable state and for every request, `allocate` is complete if and only if the
request fits behind the cursor, or a run of free pages of the required length, where there is
one, is also there among the pages that are seen. -/
theorem complete_iff {s : State} (hs : (system cfg).Reachable s) {size : UInt32} (hpos : 0 < size) :
    Complete cfg s.heap size.toNat ↔ FitsPage cfg s.heap (requestSize size.toNat) ∨
      (FreeRun cfg s.heap (requestPages cfg (requestSize size.toNat)) →
        SeenRun cfg s.heap (requestPages cfg (requestSize size.toNat))) := by
  have hI := inv_of_reachable hs
  have hlt : size.toNat < 2^32 := size.toNat_lt
  have hpos : 0 < size.toNat := hpos
  by_cases hwrap : 2^32 ≤ size.toNat+15
  · have hfree := @not_freeRun_of_wrap cfg s.heap _ hlt hwrap
    refine iff_of_true (fun h' _ => ⟨?_,hfree⟩) (.inr fun h => absurd h hfree)
    rintro ⟨hsmall,-⟩
    have := pageSize_le cfg
    simp only [requestSize,sdkCpAlignment,headerSize] at hsmall
    omega
  have hneed := requestSize_eq (show size.toNat+15 < 2^32 by omega)
  have hround : 0 < alignSize size.toNat := by
    rw [alignSize_eq]
    omega
  have hpages : requestPages cfg (requestSize size.toNat) = morePages cfg (alignSize size.toNat)+1 := by
    rw [hneed]
    rfl
  have hnone := allocate_none_iff hI size.toNat
  rw [← hneed,← hpages] at hnone
  rw [Complete]
  constructor
  · intro hcomplete
    by_cases hfits : FitsPage cfg s.heap (requestSize size.toNat)
    · exact .inl hfits
    · refine .inr fun hfree => ?_
      by_contra hseen
      obtain ⟨h',hres⟩ := hnone.mpr (.inr ⟨hfits,hseen⟩)
      exact (hcomplete h' hres).2 hfree
  · intro hcond h' hres
    obtain ⟨hfits,hseen⟩ := (hnone.mp ⟨h',hres⟩).resolve_left hround.ne'
    exact ⟨hfits,fun hfree => hseen (hcond.resolve_left hfits hfree)⟩

/-- 128 pages of 4096 bytes. -/
def twoBlocks : Config where
  initSize := 2^19
  pageBits := 12
  init_pos := by decide
  init_lt := by decide
  page_gt := wrapped.page_gt
  page_le := wrapped.page_le
  pages_pos := by decide

/-- All pages are taken, with an active one among them: null for two more pages. -/
theorem complete_iff_full : ∃ s : State, s.live.length = 4 ∧ s.heap.activePage = some 4096 ∧
    (allocate twoBlocks s.heap 8000).map (·.2) = some none ∧ Complete twoBlocks s.heap 8000 := by
  have hrun : ((system twoBlocks).exec ⟨heapAllocator twoBlocks 4096 fun _ => 0,[]⟩
      [.allocate 100,.allocate 258032,.allocate 4080,.allocate 257000]).map (fun s =>
        (s.live.length,s.heap.activePage,(allocate twoBlocks s.heap 8000).map (·.2),
          s.heap.blocks 0,s.heap.blocks 1)) = some (4,some 4096,some none,0,0) := by decide +kernel
  obtain ⟨s,hs,hfacts⟩ := Option.map_eq_some_iff.mp hrun
  simp only [Prod.mk.injEq] at hfacts
  obtain ⟨hlive,hactive,hnull,hfirst,hsecond⟩ := hfacts
  have hreach : (system twoBlocks).Reachable s :=
    .exec (fun _ _ _ => trivial) (.init ⟨4096,fun _ => 0,by decide,rfl⟩) hs
  refine ⟨s,hlive,hactive,hnull,(@complete_iff twoBlocks s hreach 8000 (by decide)).mpr (.inr fun hfree => ?_)⟩
  obtain ⟨start,hle,hrun⟩ := hfree
  have hpages : requestPages twoBlocks (requestSize (8000 : UInt32).toNat) = 2 := by decide
  have hlt : twoBlocks.numPages = 128 := by decide
  have hbit := hrun start le_rfl (by omega)
  obtain hword | hword : start/64 = 0 ∨ start/64 = 1 := by omega
  · simp [bit,hword,hfirst] at hbit
  · simp [bit,hword,hsecond] at hbit

/-- Of pages 0 to 64 only page 63 is free again, all others are. Page 63 is pending when the
search comes to page 64, and pages 65 to 127 are dropped with it. -/
theorem not_complete_pending : ¬∀ cfg s, (system cfg).Reachable s → ∀ size : UInt32, 0 < size →
    Complete cfg s.heap size.toNat := by
  intro hall
  have hrun : ((system twoBlocks).exec ⟨heapAllocator twoBlocks 4096 fun _ => 0,[]⟩
      [.allocate 258032,.allocate 4080,.allocate 4080,.release 262160]).map (fun s =>
        (bit s.heap.blocks 65,bit s.heap.blocks 66,(allocate twoBlocks s.heap 4096).map (·.2))) =
      some (true,true,some none) := by decide +kernel
  obtain ⟨s,hs,hfacts⟩ := Option.map_eq_some_iff.mp hrun
  obtain ⟨h65,hrest⟩ := Prod.mk.inj hfacts
  obtain ⟨h66,hcall⟩ := Prod.mk.inj hrest
  have hreach : (system twoBlocks).Reachable s :=
    TransitionSystem.ReachableBy.exec (fun _ _ _ => trivial) (.init ⟨4096,fun _ => 0,by decide,rfl⟩) hs
  obtain ⟨⟨h',r⟩,hres,hnull⟩ := Option.map_eq_some_iff.mp hcall
  dsimp only at hnull
  subst hnull
  refine (hall twoBlocks s hreach 4096 (by decide) h' hres).2 ⟨65,by decide,fun i hi hi' => ?_⟩
  have hpages : requestPages twoBlocks (requestSize (4096 : UInt32).toNat) = 2 := by decide
  rcases (show i = 65 ∨ i = 66 by omega) with rfl | rfl
  · exact h65
  · exact h66

end Complete

end HeapAllocator
end SdkCp
