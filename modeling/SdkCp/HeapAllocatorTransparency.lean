import SdkCp.HeapAllocatorCompleteness

/-! What a failed call of `heap_allocator` leaves behind. A request smaller than a page that
fails gives up the active page; later calls show it exactly if a smaller request would have
fitted there, or if some other page can become free while the active page is in use. -/
namespace SdkCp
namespace HeapAllocator

open Bytes Bitmap

section Defs

variable (cfg : Config)

/-- What a call returns to the client. -/
inductive Result
  | pointer (ptr : Option ℕ)
  | released (ok : Bool)
  | written
  deriving DecidableEq

def result (s : State) : Event → Option Result
  | .allocate size => (allocate cfg s.heap size.toNat).map fun r => .pointer r.2
  | .release mem => (release cfg s.heap (some mem)).map fun r => .released r.2
  | .write _ _ _ => some .written

/-- What the calls of a list return, one after the other. -/
def results : State → List Event → Option (List Result)
  | _, [] => some []
  | s, e::es => (step cfg s e).bind fun t => (result cfg s e).bind fun r => (results t es).map (r::·)

/-- A failed call does not show: whatever follows returns what it would have returned. -/
def Transparent (s : State) (size : ℕ) : Prop :=
  ∀ h', allocate cfg s.heap size = some (h',none) → ∀ es, results cfg ⟨h',s.live⟩ es = results cfg s es

/-- A request smaller than a page that fits neither behind the cursor nor on any page, while
the smallest block fits behind the cursor or not every live block covers the whole arena. -/
def Abandons (s : State) (size : ℕ) : Prop :=
  0 < alignSize size ∧ alignSize size+headerSize < cfg.pageSize ∧
  (∀ i < cfg.numPages, bit s.heap.blocks i = false) ∧
  ∃ position page, s.heap.activePosition = some position ∧ s.heap.activePage = some page ∧
    page+cfg.pageSize < position+(alignSize size+headerSize) ∧
    (position+(sdkCpAlignment+headerSize) ≤ page+cfg.pageSize ∨
      ∃ b ∈ s.live, ∃ i < cfg.numPages, ¬TouchesPage cfg s.heap.memPtr b i)

end Defs

section Frame

variable {cfg : Config} {h h' : Heap} {live : List Block}

@[simp] theorem Heap.noCursor_noCursor (h : Heap) : h.noCursor.noCursor = h.noCursor := rfl

theorem releasePage_noCursor (h : Heap) (position needSize : ℕ) :
    releasePage cfg h.noCursor position needSize =
      (releasePage cfg h position needSize).map fun r => (r.1.noCursor,r.2) := by
  simp only [releasePage,Heap.noCursor]
  by_cases hlt : position < cfg.numPages
  · by_cases hzero : sub16 (h.usage position) (u16 needSize) = 0
    · simp only [hlt,hzero,if_true,ite_self]
      split <;> rfl
    · simp only [hlt,hzero,if_true,if_false,Option.map_some]
  · simp only [hlt,if_false,Option.map_none]

theorem release_noCursor (h : Heap) (ptr : Option ℕ) :
    release cfg h.noCursor ptr = (release cfg h ptr).map fun r => (r.1.noCursor,r.2) := by
  cases ptr with
  | none => rfl
  | some mem =>
    have hbase : h.noCursor.memPtr = h.memPtr := rfl
    have hmem : h.noCursor.mem = h.mem := rfl
    have hblocks : h.noCursor.blocks = h.blocks := rfl
    have hix : getPageIndex cfg h.noCursor (some mem) = getPageIndex cfg h (some mem) := rfl
    simp only [release,hbase,hmem,hblocks,hix]
    split
    · rfl
    split
    · rfl
    split
    · rfl
    split
    · cases hset : setBitStream cfg (getPageIndex cfg h (some mem))
        (sub32 (fullPagesCount cfg (u64 (loadLE h.mem (mem-headerSize) 8+headerSize))) 1) h.blocks with
      | none => rfl
      | some blocks => exact releasePage_noCursor {h with blocks := blocks} _ _
    · exact releasePage_noCursor h _ _

theorem allocatePages_noCursor (h : Heap) (size needSize : ℕ) :
    (allocatePages cfg h.noCursor size needSize).map (fun r => (r.1.noCursor,r.2)) =
      (allocatePages cfg h size needSize).map fun r => (r.1.noCursor,r.2) := by
  have hblocks : h.noCursor.blocks = h.blocks := rfl
  simp only [allocatePages,hblocks]
  cases getBitScanStreamRevWord cfg.numBlocks h.blocks (fullPagesCount cfg needSize) with
  | none => rfl
  | some position =>
    simp only [Option.bind_some]
    by_cases hvalid : position = invalidPageIx
    · simp only [hvalid,if_true,Option.map_some,Heap.noCursor]
    by_cases hlast : u32 (position+fullPagesCount cfg needSize-1) < cfg.numPages
    · simp only [hvalid,hlast,if_true,if_false,Heap.noCursor,getPage]
      by_cases hfirst : position < cfg.numPages
      · simp only [hfirst,if_true]
        by_cases hap : h.activePosition = none
        · simp only [hap,if_true,Option.map_map]
        · simp only [hap,if_false,Option.map_map]
          rfl
      · simp only [hfirst,if_false,Option.map_some]
    · simp only [hvalid,hlast,if_false,Option.map_none]

end Frame

section Twins

variable (cfg) in
/-- Some calls tell two states apart. -/
def Differ (A B : State) : Prop := ∃ es, results cfg A es ≠ results cfg B es

/-- Two states that agree but for the cursor. -/
structure Twins (A B : State) : Prop where
  live : A.live = B.live
  heap : A.heap.noCursor = B.heap.noCursor

variable {cfg : Config} {A B A' B' : State}

theorem Twins.memPtr (h : Twins A B) : A.heap.memPtr = B.heap.memPtr := by
  have := congrArg Heap.memPtr h.heap
  exact this

theorem Twins.blocks (h : Twins A B) : A.heap.blocks = B.heap.blocks := by
  have := congrArg Heap.blocks h.heap
  exact this

theorem Differ.of_step {e : Event} (hA : step cfg A e = some A') (hB : step cfg B e = some B')
    (hsame : result cfg A e = result cfg B e) (hdiffer : Differ cfg A' B') {r : Result}
    (hr : result cfg A e = some r) : Differ cfg A B := by
  obtain ⟨es,hne⟩ := hdiffer
  refine ⟨e::es,fun heq => hne ?_⟩
  rw [results,results,hA,hB,Option.bind_some,Option.bind_some,← hsame,hr,Option.bind_some,
    Option.bind_some] at heq
  exact Option.map_injective (List.cons_injective) heq

theorem twins_handOut {n : ℕ} {r r' : Heap × Option ℕ} (h : (r.1.noCursor,r.2) = (r'.1.noCursor,r'.2))
    (live : List Block) : Twins (handOut n r live) (handOut n r' live) := by
  obtain ⟨hheap,hptr⟩ := Prod.mk.inj h
  obtain ⟨h₁,p₁⟩ := r
  obtain ⟨h₂,p₂⟩ := r'
  dsimp only at hheap hptr
  subst hptr
  cases p₁ with
  | none => exact ⟨rfl,hheap⟩
  | some ptr =>
    have hmem : h₁.noCursor.mem = h₂.noCursor.mem := by rw [hheap]
    change h₁.mem = h₂.mem at hmem
    exact ⟨by simp only [handOut,hmem],hheap⟩

theorem Twins.allocate (h : Twins A B) (hbase : 0 < A.heap.memPtr) {size : UInt32}
    (hpos : 0 < alignSize size.toNat) (hlarge : cfg.pageSize ≤ alignSize size.toNat+headerSize)
    (hA : step cfg A (.allocate size) = some A') :
    ∃ B', step cfg B (.allocate size) = some B' ∧ Twins A' B' ∧
      result cfg A (.allocate size) = result cfg B (.allocate size) := by
  have hcallA := allocate_large hbase hpos hlarge
  have hcallB := allocate_large (h.memPtr ▸ hbase) hpos hlarge
  have hsame : (HeapAllocator.allocate cfg A.heap size.toNat).map (fun r => (r.1.noCursor,r.2)) =
      (HeapAllocator.allocate cfg B.heap size.toNat).map fun r => (r.1.noCursor,r.2) := by
    rw [hcallA,hcallB,← allocatePages_noCursor A.heap,h.heap,allocatePages_noCursor]
  obtain ⟨r,hr,rfl⟩ := Option.map_eq_some_iff.mp hA
  rw [hr,Option.map_some] at hsame
  obtain ⟨r',hr',heq⟩ := Option.map_eq_some_iff.mp hsame.symm
  refine ⟨handOut size.toNat r' B.live,by rw [step,hr',Option.map_some],?_,?_⟩
  · rw [h.live]
    exact twins_handOut heq.symm _
  · rw [result,result,hr,hr',Option.map_some,Option.map_some,(Prod.mk.inj heq).2]

theorem Twins.release (h : Twins A B) {mem : ℕ} (hA : step cfg A (.release mem) = some A') :
    ∃ B', step cfg B (.release mem) = some B' ∧ Twins A' B' ∧
      result cfg A (.release mem) = result cfg B (.release mem) := by
  have hsame : (HeapAllocator.release cfg A.heap (some mem)).map (fun r => (r.1.noCursor,r.2)) =
      (HeapAllocator.release cfg B.heap (some mem)).map fun r => (r.1.noCursor,r.2) := by
    rw [← release_noCursor,← release_noCursor,h.heap]
  obtain ⟨b,hb,hA⟩ := Option.bind_eq_some_iff.mp hA
  obtain ⟨r,hr,rfl⟩ := Option.map_eq_some_iff.mp hA
  rw [hr,Option.map_some] at hsame
  obtain ⟨r',hr',heq⟩ := Option.map_eq_some_iff.mp hsame.symm
  obtain ⟨hheap,hok⟩ := Prod.mk.inj heq
  refine ⟨⟨r'.1,B.live.erase b⟩,?_,⟨by rw [h.live],hheap.symm⟩,?_⟩
  · rw [step,← h.live,hb,Option.bind_some,hr',Option.map_some]
  · rw [result,result,hr,hr',Option.map_some,Option.map_some,hok]

end Twins

section Differ

variable {cfg : Config} {A B : State}

theorem results_allocate {size : UInt32} {r : Heap × Option ℕ}
    (hr : allocate cfg A.heap size.toNat = some r) :
    results cfg A [.allocate size] = some [.pointer r.2] := by
  rw [results,step,result,hr]
  rfl

theorem Inv.cursor_fill {h : Heap} {live : List Block} (hI : Inv cfg h live) {position page : ℕ}
    (hap : h.activePosition = some position) (hactive : h.activePage = some page) :
    ∃ ix < cfg.numPages, page = h.memPtr+cfg.pageSize*ix ∧ page < position ∧
      position ≤ page+cfg.pageSize ∧
      ∀ b ∈ live, TouchesPage cfg h.memPtr b ix → lastPage cfg h.memPtr b = ix := by
  rcases hI.cursor with ⟨hap',-⟩ | ⟨ix,fill,hlt,hactive',hap',hfill,-,huse,⟨b,hb,hbt⟩,hall⟩
  · rw [hap'] at hap
    cases hap
  obtain rfl := Option.some.inj (hactive.symm.trans hactive')
  obtain rfl := Option.some.inj (hap.symm.trans hap')
  have hend : ∀ b ∈ live, TouchesPage cfg h.memPtr b ix → lastPage cfg h.memPtr b = ix :=
    fun b hb hbt => (hI.placed b hb).lastPage_eq hbt hfill (hall b hb hbt)
  have hpos := chargedTo_pos hb (hend b hb hbt)
  rw [← hI.usage ix hlt] at hpos
  exact ⟨ix,hlt,rfl,by omega,by omega,hend⟩

/-- The block of a cursor lies behind the start of a page, the block of a search at its start. -/
theorem differ_of_cursor (hA : Inv cfg A.heap A.live) (hB : Inv cfg B.heap B.live)
    (hbase : A.heap.memPtr = B.heap.memPtr) (hfits : FitsPage cfg A.heap (sdkCpAlignment+headerSize))
    (hno : ¬FitsPage cfg B.heap (sdkCpAlignment+headerSize)) : Differ cfg A B := by
  have hP := pageSize_gt cfg
  have hround : alignSize (1 : UInt32).toNat = sdkCpAlignment := by decide
  have hpos : 0 < alignSize (1 : UInt32).toNat := by decide
  obtain ⟨hA',position,hap,hresA⟩ := allocate_fits hA hpos (by rw [hround]; exact hfits)
  obtain ⟨-,position',page,hap',hactive,hroom⟩ := hfits
  obtain rfl := Option.some.inj (hap.symm.trans hap')
  obtain ⟨ix,hix,rfl,hlo,-⟩ := hA.cursor_fill hap hactive
  have hcallB := allocate_small hB hpos (by rw [hround]; simp only [sdkCpAlignment,headerSize]; omega)
    (by rw [hround]; exact hno)
  have hlt := alignSize_lt (1 : UInt32).toNat
  have hresB : ∃ hB' start, allocate cfg B.heap (1 : UInt32).toNat = some (hB',none) ∨
      allocate cfg B.heap (1 : UInt32).toNat =
        some (hB',some (B.heap.memPtr+cfg.pageSize*start+headerSize)) := by
    rw [hcallB]
    by_cases hseen : SeenRun cfg B.heap.noCursor (morePages cfg (alignSize (1 : UInt32).toNat)+1)
    · obtain ⟨start,blocks,hscan,hreset,hfit,-⟩ := exists_scan hlt hseen
      exact ⟨_,start,.inr (allocatePages_some hlt hscan hfit hreset)⟩
    · exact ⟨_,0,.inl (allocatePages_none hlt (scan_none hlt hseen))⟩
  refine ⟨[.allocate 1],fun heq => ?_⟩
  rw [results_allocate hresA] at heq
  obtain ⟨hB',start,hnone | hsome⟩ := hresB
  · rw [results_allocate hnone] at heq
    simp at heq
  · rw [results_allocate hsome] at heq
    simp only [Option.some.injEq,List.cons.injEq,Result.pointer.injEq,and_true] at heq
    -- the cursor is inside a page
    rcases Nat.lt_or_ge ix start with hlt' | hge
    · have := Nat.mul_le_mul_left cfg.pageSize (show ix+1 ≤ start from hlt')
      rw [Nat.mul_succ] at this
      simp only [sdkCpAlignment,headerSize] at hroom
      omega
    · have := Nat.mul_le_mul_left cfg.pageSize hge
      omega

/-- A request of a page or more takes the run that is found. Its last page becomes the active
one where there is none. -/
theorem step_pages (hbase : 0 < A.heap.memPtr) {size : UInt32} {n start : ℕ} {blocks : ℕ → BitVec 64}
    (hn : alignSize size.toNat = n) (hlarge : cfg.pageSize ≤ n+headerSize) (hpos : 0 < n)
    (hscan : getBitScanStreamRevWord cfg.numBlocks A.heap.blocks (morePages cfg n+1) = some start)
    (hreset : resetBitStream cfg start (morePages cfg n+1) A.heap.blocks = some blocks)
    (hfit : start+morePages cfg n < cfg.numPages) :
    ∃ A' hdr, step cfg A (.allocate size) = some A' ∧
      result cfg A (.allocate size) = some (.pointer (some (A.heap.memPtr+cfg.pageSize*start+headerSize))) ∧
      A'.live = ⟨A.heap.memPtr+cfg.pageSize*start,n,hdr⟩::A.live ∧ A'.heap.memPtr = A.heap.memPtr ∧
      (A.heap.activePosition ≠ none → A'.heap.activePosition = A.heap.activePosition ∧
        A'.heap.activePage = A.heap.activePage) ∧
      (A.heap.activePosition = none →
        A'.heap.activePosition = some (A.heap.memPtr+cfg.pageSize*(start+morePages cfg n)+
          (n+headerSize-cfg.pageSize*morePages cfg n)) ∧
        A'.heap.activePage = some (A.heap.memPtr+cfg.pageSize*(start+morePages cfg n))) := by
  subst hn
  have hcall := (allocate_large hbase hpos hlarge).trans
    (allocatePages_some (alignSize_lt _) hscan hfit hreset)
  refine ⟨_,load (storeLE A.heap.mem (A.heap.memPtr+cfg.pageSize*start) 8 (alignSize size.toNat))
    (A.heap.memPtr+cfg.pageSize*start) headerSize,by rw [step,hcall,Option.map_some],
    by rw [result,hcall,Option.map_some],?_,?_,?_,?_⟩
  · simp only [handOut,Nat.add_sub_cancel]
  · simp only [handOut]
  · intro hap
    simp only [handOut,hap,if_false,and_self]
  · intro hap
    simp only [handOut,hap,if_true,and_self]

theorem alignSize_ofNat {n : ℕ} (h16 : 16 ∣ n) (hlt : n < 2^32) :
    alignSize (UInt32.ofNat n).toNat = n := by
  rw [UInt32.toNat_ofNat_of_lt' hlt,alignSize_eq]
  omega

/-- Without a cursor in `A` and with one at the end of its page in `B`, two pages and one more
byte tell them apart. -/
theorem differ_of_full (hA : Inv cfg A.heap A.live) (hB : Inv cfg B.heap B.live) (htwins : Twins A B)
    (hnone : A.heap.activePosition = none) (hsome : B.heap.activePosition ≠ none)
    (hfull : ¬FitsPage cfg B.heap (sdkCpAlignment+headerSize)) (hseen : SeenRun cfg A.heap 2) :
    Differ cfg A B := by
  have hP := pageSize_gt cfg
  have hPle := pageSize_le cfg
  have hround : alignSize (UInt32.ofNat cfg.pageSize).toNat = cfg.pageSize :=
    alignSize_ofNat (sixteen_dvd_pageSize cfg) (by omega)
  have hmore : morePages cfg cfg.pageSize = 1 :=
    Nat.div_eq_of_lt_le (by simp only [headerSize]; omega) (by simp only [headerSize]; omega)
  obtain ⟨start,blocks,hscan,hreset,hfit,-⟩ := @exists_scan cfg A.heap cfg.pageSize (by omega)
    (by rw [hmore]; exact hseen)
  obtain ⟨A',_,hstepA,hresA,-,hbaseA,-,hcursor⟩ := step_pages hA.memPtr_pos hround (by omega) (by omega)
    hscan hreset hfit
  obtain ⟨B',_,hstepB,-,-,hbaseB,hkept,-⟩ := step_pages hB.memPtr_pos hround (by omega) (by omega)
    (htwins.blocks ▸ hscan) (htwins.blocks ▸ hreset) hfit
  obtain ⟨B'',hstepB',-,hsame⟩ := htwins.allocate hA.memPtr_pos (by omega) (by omega) hstepA
  obtain ⟨hap,hactive⟩ := hcursor hnone
  obtain ⟨hapB,hactiveB⟩ := hkept hsome
  refine .of_step hstepA hstepB hsame (differ_of_cursor (step_inv _ hA hstepA) (step_inv _ hB hstepB)
    (by rw [hbaseA,hbaseB,htwins.memPtr]) ⟨?_,_,_,hap,hactive,?_⟩ ?_) hresA
  · simp only [sdkCpAlignment,headerSize]
    omega
  · rw [hmore]
    simp only [sdkCpAlignment,headerSize]
    omega
  · rw [FitsPage,hapB,hactiveB]
    exact hfull

theorem Inv.apart_of_ne {h : Heap} {live : List Block} {b c : Block} (hI : Inv cfg h live) (hb : b ∈ live)
    (hc : c ∈ live) (hne : b ≠ c) : Apart b c :=
  List.rel_of_pairwise_cons (hI.perm (List.perm_cons_erase hb)).apart
    ((List.mem_erase_of_ne hne.symm).mpr hc)

/-- A live block is released. The cursor stays, unless its page is no longer used. -/
theorem step_released (hI : Inv cfg A.heap A.live) {b : Block} (hb : b ∈ A.live) :
    ∃ A', step cfg A (.release b.ptr) = some A' ∧ result cfg A (.release b.ptr) = some (.released true) ∧
      A'.live = A.live.erase b ∧ A'.heap.memPtr = A.heap.memPtr ∧
      (A'.heap.activePosition = A.heap.activePosition ∧ A'.heap.activePage = A.heap.activePage ∨
        A'.heap.activePosition = none ∧
          A'.heap.usage (getPageIndex cfg A.heap A.heap.activePage) = 0) := by
  obtain ⟨c,hc⟩ : ∃ c, A.live.find? (fun c => c.ptr = b.ptr) = some c :=
    Option.isSome_iff_exists.mp (List.find?_isSome.mpr ⟨b,hb,by simp⟩)
  have hptr : c.ptr = b.ptr := by simpa using List.find?_some hc
  obtain rfl : c = b := by
    by_contra hne
    have hap := hI.apart_of_ne (List.mem_of_find?_eq_some hc) hb hne
    simp only [Apart,Block.finish,Block.ptr,headerSize] at hap hptr
    omega
  obtain ⟨r,hr,hok,-⟩ := release_kept (hI.perm (List.perm_cons_erase hb))
  obtain ⟨hbase,hcursor⟩ := release_cursor hr
  refine ⟨⟨r.1,A.live.erase c⟩,?_,?_,rfl,hbase,hcursor⟩
  · rw [step,hc,Option.bind_some,hr,Option.map_some]
  · rw [result,hr,Option.map_some,hok]

theorem cursor_stays {A' : State} (hI' : Inv cfg A'.heap A'.live)
    (hbase : A'.heap.memPtr = A.heap.memPtr) {page : ℕ} (hpage : page < cfg.numPages)
    (hactive : A.heap.activePage = some (A.heap.memPtr+cfg.pageSize*page)) {b : Block} (hb : b ∈ A'.live)
    (hend : lastPage cfg A.heap.memPtr b = page)
    (hcursor : A'.heap.activePosition = A.heap.activePosition ∧ A'.heap.activePage = A.heap.activePage ∨
      A'.heap.activePosition = none ∧ A'.heap.usage (getPageIndex cfg A.heap A.heap.activePage) = 0) :
    A'.heap.activePosition = A.heap.activePosition ∧ A'.heap.activePage = A.heap.activePage := by
  rcases hcursor with hsame | ⟨-,hzero⟩
  · exact hsame
  exfalso
  have hix : getPageIndex cfg A.heap (some (A.heap.memPtr+cfg.pageSize*page)) = page :=
    getPageIndex_page (by rw [Nat.add_sub_cancel_left,Nat.mul_div_cancel_left _ (pageSize_pos cfg)]) hpage
  rw [← hbase] at hend
  have hpos := chargedTo_pos hb hend
  rw [← hI'.usage page hpage] at hpos
  rw [hactive,hix] at hzero
  omega

theorem Inv.cursor_gone {h : Heap} {b : Block} {live : List Block} {page : ℕ} (hI : Inv cfg h live)
    (hlive : live = [b]) (hactive : h.activePage = some (h.memPtr+cfg.pageSize*page))
    (hout : ¬TouchesPage cfg h.memPtr b page) : h.activePosition = none := by
  rcases hI.cursor with ⟨hnone,-⟩ | ⟨ix,fill,-,hactive',-,-,-,-,⟨c,hc,htouch⟩,-⟩
  · exact hnone
  rw [hlive,List.mem_singleton] at hc
  rw [hactive] at hactive'
  have hpages : page = ix := Nat.eq_of_mul_eq_mul_left (pageSize_pos cfg)
    (Nat.add_left_cancel (Option.some.inj hactive'))
  rw [hc,← hpages] at htouch
  exact absurd htouch hout

/-- With one used page there are two free ones next to each other that are seen. -/
theorem seenRun_two {h : Heap} {page : ℕ} (hbits : ∀ i < cfg.numPages, bit h.blocks i = true ↔ i ≠ page) :
    SeenRun cfg h 2 := by
  have hpages : 64 ≤ cfg.numPages := by
    have := numBlocks_pos cfg
    rw [numPages_eq]
    omega
  have hseen : ∀ i < 64, i ≠ page → Seen h.blocks i := by
    intro i hi hne
    refine ⟨(hbits i (by omega)).mpr hne,fun hskips => ?_⟩
    rw [Nat.div_eq_of_lt hi] at hskips
    exact hskips.1
  refine ⟨if page < 2 then 2 else 0,by split <;> omega,fun i hi hi' => hseen i ?_ ?_⟩
  · split at hi' <;> omega
  · split at hi <;> split at hi' <;> omega

/-- One block is left, in `A` the cursor stands on its last page, in `B` there is none, and it
does not cover the arena: a block of one page, the release, two pages and one more byte. -/
theorem differ_of_alone (hA : Inv cfg A.heap A.live) (hB : Inv cfg B.heap B.live) (htwins : Twins A B)
    {b : Block} (hlive : A.live = [b]) {page free : ℕ}
    (hactive : A.heap.activePage = some (A.heap.memPtr+cfg.pageSize*page))
    (hsome : A.heap.activePosition ≠ none) (hend : lastPage cfg A.heap.memPtr b = page)
    (hnone : B.heap.activePosition = none) (hfree : free < cfg.numPages)
    (hout : ¬TouchesPage cfg A.heap.memPtr b free) : Differ cfg A B := by
  have hP := pageSize_gt cfg
  have hPle := pageSize_le cfg
  have hround : alignSize (UInt32.ofNat (cfg.pageSize-16)).toNat = cfg.pageSize-16 :=
    alignSize_ofNat (Nat.dvd_sub (sixteen_dvd_pageSize cfg) (dvd_refl 16)) (by omega)
  have hmore : morePages cfg (cfg.pageSize-16) = 0 :=
    Nat.div_eq_of_lt (by simp only [headerSize]; omega)
  have hopen : bit A.heap.blocks free = true := by
    rw [hA.bits free hfree,hlive]
    simpa using hout
  obtain ⟨start,blocks,hscan,hreset,hfit,hrun⟩ := @exists_scan cfg A.heap (cfg.pageSize-16) (by omega)
    (by rw [hmore]; exact seenRun_one hfree hopen)
  obtain ⟨A₁,hdr,hstepA,hresA,hliveA,hbaseA,hkeptA,-⟩ := step_pages hA.memPtr_pos hround
    (by simp only [headerSize]; omega) (by omega) hscan hreset hfit
  obtain ⟨B₁,_,hstepB,-,-,hbaseB,-,hcursorB⟩ := step_pages hB.memPtr_pos hround
    (by simp only [headerSize]; omega) (by omega) (htwins.blocks ▸ hscan) (htwins.blocks ▸ hreset) hfit
  obtain ⟨B₁',hstepB',htwins₁,hsame₁⟩ := htwins.allocate hA.memPtr_pos (by omega)
    (by simp only [headerSize]; omega) hstepA
  obtain rfl := Option.some.inj (hstepB.symm.trans hstepB')
  have hA₁ := step_inv _ hA hstepA
  have hB₁ := step_inv _ hB hstepB
  obtain ⟨hapA,hactiveA⟩ := hkeptA hsome
  obtain ⟨hapB,hactiveB⟩ := hcursorB hnone
  rw [hmore,Nat.add_zero] at hfit hapB hactiveB
  -- the new block is on page `start`, the old one is not
  generalize hu : (⟨A.heap.memPtr+cfg.pageSize*start,cfg.pageSize-16,hdr⟩ : Block) = u at hliveA
  have hfirstu : firstPage cfg A.heap.memPtr u = start := by
    rw [← hu]
    exact firstPage_at
  have hlastu : lastPage cfg A.heap.memPtr u = start := by
    rw [← hu,lastPage_at,hmore,Nat.add_zero]
  have htouch : ∀ i, TouchesPage cfg A.heap.memPtr u i ↔ i = start := by
    intro i
    rw [touchesPage_iff,hfirstu,hlastu]
    omega
  have hbstart : ¬TouchesPage cfg A.heap.memPtr b start := by
    have hbit := (hrun start le_rfl (by omega)).free
    rw [hA.bits start hfit] at hbit
    exact hbit b (by rw [hlive]; exact List.mem_cons_self)
  have hub : u ≠ b := by
    rintro rfl
    exact hbstart ((htouch start).mpr rfl)
  rw [hlive] at hliveA
  obtain ⟨A₂,hstepA₂,hresA₂,hliveA₂,hbaseA₂,hcursorA₂⟩ := @step_released cfg A₁ hA₁ b (by simp [hliveA])
  obtain ⟨B₂,hstepB₂,hresB₂,hliveB₂,hbaseB₂,hcursorB₂⟩ := @step_released cfg B₁ hB₁ b
    (by rw [← htwins₁.live,hliveA]; simp)
  obtain ⟨B₂',hstepB₂',htwins₂,hsame₂⟩ := htwins₁.release hstepA₂
  obtain rfl := Option.some.inj (hstepB₂.symm.trans hstepB₂')
  have hA₂ := step_inv _ hA₁ hstepA₂
  have hB₂ := step_inv _ hB₁ hstepB₂
  have hlive₂ : A₂.live = [u] := by
    rw [hliveA₂,hliveA,List.erase_cons_tail (by simpa using hub)]
    simp
  have hbase₂ : A₂.heap.memPtr = A.heap.memPtr := hbaseA₂.trans hbaseA
  have hstay := cursor_stays hB₂ hbaseB₂ hfit (by rw [hbaseB]; exact hactiveB)
    (b:=u) (by rw [← htwins₂.live,hlive₂]; exact List.mem_singleton_self u)
    (by rw [hbaseB,← htwins.memPtr]; exact hlastu) hcursorB₂
  refine .of_step hstepA hstepB hsame₁ (.of_step hstepA₂ hstepB₂ hsame₂
    (differ_of_full hA₂ hB₂ htwins₂ ?_ ?_ ?_ ?_) hresA₂) hresA
  · rcases hcursorA₂ with ⟨-,hactive₂⟩ | ⟨hnone₂,-⟩
    · rw [hactiveA,hactive,← hbase₂] at hactive₂
      refine hA₂.cursor_gone hlive₂ hactive₂ ?_
      rw [hbase₂,htouch]
      rintro rfl
      exact hbstart (hend ▸ touchesPage_lastPage)
    · exact hnone₂
  · rw [hstay.1,hapB]
    simp
  · rintro ⟨-,position,active,hap,hactive,hroom⟩
    rw [hstay.1,hapB] at hap
    rw [hstay.2,hactiveB] at hactive
    have hposition := Option.some.inj hap
    have hpage := Option.some.inj hactive
    rw [Nat.mul_zero] at hposition
    simp only [sdkCpAlignment,headerSize] at hroom hposition
    omega
  · refine @seenRun_two cfg A₂.heap start fun i hi => ?_
    rw [hA₂.bits i hi,hlive₂,List.forall_mem_singleton,hbase₂,htouch]

theorem differ_of_block {n : ℕ} (hn : A.live.length = n) (hA : Inv cfg A.heap A.live)
    (hB : Inv cfg B.heap B.live) (htwins : Twins A B) {b : Block} (hb : b ∈ A.live) {page free : ℕ}
    (hpage : page < cfg.numPages) (hactive : A.heap.activePage = some (A.heap.memPtr+cfg.pageSize*page))
    (hsome : A.heap.activePosition ≠ none) (hend : lastPage cfg A.heap.memPtr b = page)
    (hnone : B.heap.activePosition = none) (hfree : free < cfg.numPages)
    (hout : ¬TouchesPage cfg A.heap.memPtr b free) : Differ cfg A B := by
  induction n generalizing A B with
  | zero => rw [List.length_eq_zero_iff.mp hn] at hb; cases hb
  | succ n ih =>
    by_cases hother : ∃ c ∈ A.live, c ≠ b
    · obtain ⟨c,hc,hcb⟩ := hother
      obtain ⟨A₁,hstepA,hresA,hliveA,hbaseA,hcursorA⟩ := step_released hA hc
      obtain ⟨B₁,hstepB,-,-,hbaseB,hcursorB⟩ := @step_released cfg B hB c (htwins.live ▸ hc)
      obtain ⟨B₁',hstepB',htwins₁,hsame⟩ := htwins.release hstepA
      obtain rfl := Option.some.inj (hstepB.symm.trans hstepB')
      have hA₁ := step_inv _ hA hstepA
      have hb₁ : b ∈ A₁.live := by
        rw [hliveA]
        exact (List.mem_erase_of_ne hcb.symm).mpr hb
      obtain ⟨hap,hactive'⟩ := cursor_stays hA₁ hbaseA hpage hactive hb₁ hend hcursorA
      refine .of_step hstepA hstepB hsame (ih ?_ hA₁ (step_inv _ hB hstepB) htwins₁ hb₁
        (by rw [hactive',hbaseA,hactive]) (by rw [hap]; exact hsome) (by rw [hbaseA]; exact hend) ?_
        (by rw [hbaseA]; exact hout)) hresA
      · rw [hliveA,List.length_erase_of_mem hc,hn]
        rfl
      · rcases hcursorB with ⟨hap',-⟩ | ⟨hnone',-⟩
        · exact hap'.trans hnone
        · exact hnone'
    · have hlive : A.live = [b] := by
        have hall : ∀ c ∈ A.live, c = b := fun c hc => by
          by_contra hne
          exact hother ⟨c,hc,hne⟩
        have hrep := List.eq_replicate_of_mem hall
        rcases n with _ | n
        · rw [hrep,hn]
          rfl
        · exfalso
          have hap := hA.apart
          rw [hrep,hn,List.replicate_succ,List.replicate_succ] at hap
          have hbb := List.rel_of_pairwise_cons hap List.mem_cons_self
          simp only [Apart,Block.finish,headerSize] at hbb
          omega
      exact differ_of_alone hA hB htwins hlive hactive hsome hend hnone hfree hout

end Differ

section Transparent

variable {cfg : Config} {A B : State}

/-- Two states that no call tells apart: equal, or twins whose only block covers the arena and
whose cursors have no room for any block. -/
inductive Alike (cfg : Config) : State → State → Prop
  | same (A : State) : Alike cfg A A
  | covered {A B : State} : Inv cfg A.heap A.live → A.live = B.live → B.heap = A.heap.noCursor →
      ¬FitsPage cfg A.heap (sdkCpAlignment+headerSize) → A.live ≠ [] →
      (∀ b ∈ A.live, ∀ i < cfg.numPages, TouchesPage cfg A.heap.memPtr b i) → Alike cfg A B

theorem not_fitsPage_noCursor (h : Heap) (need : ℕ) : ¬FitsPage cfg h.noCursor need := by
  rintro ⟨-,_,_,hap,-⟩
  cases hap

/-- What is too small for the smallest block is too small for the others. -/
theorem not_fitsPage_of_le {h : Heap} {m n : ℕ} (hmn : m ≤ n) (hno : ¬FitsPage cfg h m) :
    ¬FitsPage cfg h n := by
  rintro ⟨hsmall,position,page,hap,hactive,hroom⟩
  exact hno ⟨by omega,position,page,hap,hactive,by omega⟩

theorem alignSize_ge {n : ℕ} (h : 0 < alignSize n) : sdkCpAlignment ≤ alignSize n := by
  rw [alignSize_eq] at h ⊢
  simp only [sdkCpAlignment]
  omega

theorem erase_covered (hA : Inv cfg A.heap A.live)
    (hall : ∀ b ∈ A.live, ∀ i < cfg.numPages, TouchesPage cfg A.heap.memPtr b i) {b : Block}
    (hb : b ∈ A.live) : A.live.erase b = [] := by
  rw [List.eq_nil_iff_forall_not_mem]
  intro c hc
  have hI := hA.perm (List.perm_cons_erase hb)
  have hap := List.rel_of_pairwise_cons hI.apart hc
  have hpages : 64 ≤ cfg.numPages := by
    have := numBlocks_pos cfg
    rw [numPages_eq]
    omega
  have hend : ∀ i < cfg.numPages, lastPage cfg A.heap.memPtr b = i := fun i hi =>
    lastPage_of_shared (hA.placed b hb) (hA.placed c (List.mem_of_mem_erase hc)) hap
      (hall b hb i hi) (hall c (List.mem_of_mem_erase hc) i hi)
  have h₀ := hend 0 (by omega)
  have h₁ := hend 1 (by omega)
  omega

theorem not_seenRun_covered (hA : Inv cfg A.heap A.live) (hne : A.live ≠ [])
    (hall : ∀ b ∈ A.live, ∀ i < cfg.numPages, TouchesPage cfg A.heap.memPtr b i) {n : ℕ} (hn : 0 < n) :
    ¬SeenRun cfg A.heap n := by
  rintro ⟨start,hfit,hrun⟩
  obtain ⟨b,hb⟩ := List.exists_mem_of_ne_nil _ hne
  have hfree := (hrun start le_rfl (by omega)).free
  exact (hA.bits start (by omega)).mp hfree b hb (hall b hb start (by omega))

/-- A request to a covered arena whose cursor has no room: it changes nothing, or takes the
cursor away. -/
theorem allocate_covered (hA : Inv cfg A.heap A.live) (hne : A.live ≠ [])
    (hall : ∀ b ∈ A.live, ∀ i < cfg.numPages, TouchesPage cfg A.heap.memPtr b i)
    (hno : ¬FitsPage cfg A.heap (sdkCpAlignment+headerSize)) (n : ℕ) :
    allocate cfg A.heap.noCursor n = some (A.heap.noCursor,none) ∧
    (allocate cfg A.heap n = some (A.heap,none) ∨ allocate cfg A.heap n = some (A.heap.noCursor,none)) := by
  have hscan := @not_seenRun_covered cfg A hA hne hall (morePages cfg (alignSize n)+1) (Nat.succ_pos _)
  have hnone : ∀ h : Heap, h.blocks = A.heap.blocks →
      allocatePages cfg h (alignSize n) (alignSize n+headerSize) = some (h,none) := fun h hblocks =>
    allocatePages_none (alignSize_lt n) (scan_none (alignSize_lt n) (by rw [SeenRun,hblocks]; exact hscan))
  rcases Nat.eq_zero_or_pos (alignSize n) with hzero | hpos
  · have hempty : ∀ h : Heap, allocate cfg h n = some (h,none) := fun h => by
      simp only [allocate]
      rw [if_neg (by omega)]
    exact ⟨hempty _,.inl (hempty _)⟩
  rcases Nat.lt_or_ge (alignSize n+headerSize) cfg.pageSize with hsmall | hlarge
  · have hle := Nat.add_le_add_right (alignSize_ge hpos) headerSize
    refine ⟨?_,.inr ?_⟩
    · have hI : Inv cfg A.heap.noCursor A.live := hA.dropCursor
      rw [allocate_small hI hpos hsmall (not_fitsPage_noCursor _ _)]
      exact hnone _ rfl
    · rw [allocate_small hA hpos hsmall (not_fitsPage_of_le hle hno)]
      exact hnone _ rfl
  · refine ⟨?_,.inl ?_⟩
    · exact (@allocate_large cfg A.heap.noCursor n hA.memPtr_pos hpos hlarge).trans (hnone _ rfl)
    · exact (allocate_large hA.memPtr_pos hpos hlarge).trans (hnone _ rfl)

/-- One call on states that are alike: the same result, and states that are alike again. -/
theorem Alike.step (h : Alike cfg A B) (e : Event) :
    HeapAllocator.step cfg A e = none ∧ HeapAllocator.step cfg B e = none ∨
    result cfg A e = result cfg B e ∧ ∃ A' B', HeapAllocator.step cfg A e = some A' ∧
      HeapAllocator.step cfg B e = some B' ∧ Alike cfg A' B' := by
  cases h with
  | same =>
    cases hs : HeapAllocator.step cfg A e with
    | none => exact .inl ⟨rfl,rfl⟩
    | some A' => exact .inr ⟨rfl,A',A',rfl,rfl,.same A'⟩
  | covered hA hlive hheap hno hne hall =>
    obtain ⟨hB,lB⟩ := B
    dsimp only at hlive hheap
    subst hlive hheap
    cases e with
    | allocate size =>
      obtain ⟨hresB,hresA | hresA⟩ := allocate_covered hA hne hall hno size.toNat
      · refine .inr ⟨by rw [result,result,hresA,hresB]; rfl,_,_,by rw [HeapAllocator.step,hresA]; rfl,
          by rw [HeapAllocator.step,hresB]; rfl,?_⟩
        exact .covered hA rfl rfl hno hne hall
      · refine .inr ⟨by rw [result,result,hresA,hresB],_,_,by rw [HeapAllocator.step,hresA]; rfl,
          by rw [HeapAllocator.step,hresB]; rfl,?_⟩
        exact .same _
    | release mem =>
      cases hfind : A.live.find? fun b => b.ptr = mem with
      | none => exact .inl ⟨by rw [HeapAllocator.step,hfind]; rfl,by rw [HeapAllocator.step,hfind]; rfl⟩
      | some b =>
        have hb := List.mem_of_find?_eq_some hfind
        obtain rfl : b.ptr = mem := by simpa using List.find?_some hfind
        obtain ⟨r,hr,hok,hI⟩ := release_kept (hA.perm (List.perm_cons_erase hb))
        rw [erase_covered hA hall hb] at hI
        have hgone := hI.all_released.2
        have hrB := @release_noCursor cfg A.heap (some b.ptr)
        rw [hr,Option.map_some,Heap.noCursor_eq hgone.2 hgone.1] at hrB
        refine .inr ⟨by rw [result,result,hr,hrB],⟨r.1,A.live.erase b⟩,⟨r.1,A.live.erase b⟩,?_,?_,.same _⟩
        · rw [HeapAllocator.step,hfind,Option.bind_some,hr,Option.map_some]
        · rw [HeapAllocator.step,hfind,Option.bind_some,hrB,Option.map_some]
    | write mem i v =>
      cases hfind : A.live.find? fun b => b.ptr = mem ∧ i < b.size with
      | none => exact .inl ⟨by rw [HeapAllocator.step,hfind]; rfl,by rw [HeapAllocator.step,hfind]; rfl⟩
      | some b =>
        obtain ⟨rfl,hi⟩ : b.ptr = mem ∧ i < b.size := by simpa using List.find?_some hfind
        have hI := hA.write (List.mem_of_find?_eq_some hfind) hi v
        refine .inr ⟨rfl,_,_,by rw [HeapAllocator.step,hfind]; rfl,by rw [HeapAllocator.step,hfind]; rfl,?_⟩
        exact .covered hI rfl rfl hno hne hall

theorem Alike.results (h : Alike cfg A B) (es : List Event) :
    HeapAllocator.results cfg A es = HeapAllocator.results cfg B es := by
  induction es generalizing A B with
  | nil => rfl
  | cons e es ih =>
    rw [HeapAllocator.results,HeapAllocator.results]
    rcases h.step e with ⟨hA,hB⟩ | ⟨hres,A',B',hA,hB,halike⟩
    · rw [hA,hB,Option.bind_none,Option.bind_none]
    · rw [hA,hB,hres,Option.bind_some,Option.bind_some,ih halike]

theorem morePages_small {n : ℕ} (hsmall : n+headerSize < cfg.pageSize) : morePages cfg n = 0 :=
  Nat.div_eq_of_lt (by simp only [headerSize] at *; omega)

theorem seenRun_iff_free {h : Heap} : SeenRun cfg h 1 ↔ ∃ i < cfg.numPages, bit h.blocks i = true := by
  constructor
  · rintro ⟨start,hfit,hrun⟩
    exact ⟨start,by omega,(hrun start le_rfl (by omega)).free⟩
  · rintro ⟨i,hi,hfree⟩
    exact seenRun_one hi hfree

theorem allocate_abandons {h : Heap} {live : List Block} (hI : Inv cfg h live) {n : ℕ}
    (hpos : 0 < alignSize n) (hsmall : alignSize n+headerSize < cfg.pageSize)
    (hno : ¬FitsPage cfg h (alignSize n+headerSize)) (hfull : ∀ i < cfg.numPages, bit h.blocks i = false) :
    allocate cfg h n = some (h.noCursor,none) := by
  rw [allocate_small hI hpos hsmall hno]
  refine allocatePages_none (alignSize_lt n) (scan_none (alignSize_lt n) ?_)
  rw [morePages_small hsmall,seenRun_iff_free]
  rintro ⟨i,hi,hfree⟩
  have hused : bit h.blocks i = false := hfull i hi
  exact absurd (hfree.symm.trans hused) (by simp)

/-- A failed call changes nothing, or it was a small one and left no cursor. -/
theorem allocate_null_cases {h h' : Heap} {live : List Block} (hI : Inv cfg h live) {n : ℕ}
    (hres : allocate cfg h n = some (h',none)) :
    h' = h ∨ h' = h.noCursor ∧ 0 < alignSize n ∧ alignSize n+headerSize < cfg.pageSize ∧
      ¬FitsPage cfg h (alignSize n+headerSize) ∧ ∀ i < cfg.numPages, bit h.blocks i = false := by
  rcases (allocate_none_iff hI n).mp ⟨h',hres⟩ with hzero | ⟨hno,hseen⟩
  · simp only [allocate] at hres
    rw [if_neg (by omega)] at hres
    exact .inl (Prod.mk.inj (Option.some.inj hres)).1.symm
  rcases Nat.eq_zero_or_pos (alignSize n) with hzero | hpos
  · simp only [allocate] at hres
    rw [if_neg (by omega)] at hres
    exact .inl (Prod.mk.inj (Option.some.inj hres)).1.symm
  rcases Nat.lt_or_ge (alignSize n+headerSize) cfg.pageSize with hsmall | hlarge
  · rw [morePages_small hsmall,seenRun_iff_free] at hseen
    have hfull : ∀ i < cfg.numPages, bit h.blocks i = false := fun i hi => by
      by_contra hfree
      exact hseen ⟨i,hi,by simpa using hfree⟩
    rw [allocate_abandons hI hpos hsmall hno hfull] at hres
    exact .inr ⟨(Prod.mk.inj (Option.some.inj hres)).1.symm,hpos,hsmall,hno,hfull⟩
  · rw [allocate_large hI.memPtr_pos hpos hlarge,
      allocatePages_none (alignSize_lt n) (scan_none (alignSize_lt n) hseen)] at hres
    exact .inl (Prod.mk.inj (Option.some.inj hres)).1.symm

/-- A state whose request abandons the active page differs from the one the call leaves. -/
theorem Abandons.differ {s : State} (hI : Inv cfg s.heap s.live) {n : ℕ} (h : Abandons cfg s n) :
    allocate cfg s.heap n = some (s.heap.noCursor,none) ∧ Differ cfg s ⟨s.heap.noCursor,s.live⟩ := by
  obtain ⟨hpos,hsmall,hfull,position,page,hap,hactive,htight,hcase⟩ := h
  have hno : ¬FitsPage cfg s.heap (alignSize n+headerSize) := by
    rintro ⟨-,position',page',hap',hactive',hroom⟩
    obtain rfl := Option.some.inj (hap.symm.trans hap')
    obtain rfl := Option.some.inj (hactive.symm.trans hactive')
    omega
  refine ⟨allocate_abandons hI hpos hsmall hno hfull,?_⟩
  have hB : Inv cfg s.heap.noCursor s.live := hI.dropCursor
  have hP := pageSize_gt cfg
  rcases hcase with hroom | ⟨b,hb,i,hi,hout⟩
  · exact differ_of_cursor hI hB rfl
      ⟨by simp only [sdkCpAlignment,headerSize]; omega,position,page,hap,hactive,hroom⟩
      (not_fitsPage_noCursor _ _)
  · rcases hI.cursor with ⟨hap',-⟩ | ⟨ix,fill,hix,hactive',hap',hfill,-,-,⟨c,hc,hct⟩,hall⟩
    · rw [hap] at hap'
      cases hap'
    have hend := (hI.placed c hc).lastPage_eq hct hfill (hall c hc hct)
    have hdiffer : ∀ d ∈ s.live, lastPage cfg s.heap.memPtr d = ix → ∀ j < cfg.numPages,
        ¬TouchesPage cfg s.heap.memPtr d j → Differ cfg s ⟨s.heap.noCursor,s.live⟩ :=
      fun d hd hlast j hj hdj => differ_of_block rfl hI hB ⟨rfl,rfl⟩ hd hix hactive' (by simp [hap])
        hlast rfl hj hdj
    by_cases hcover : ∀ j < cfg.numPages, TouchesPage cfg s.heap.memPtr c j
    · -- a block that covers the arena meets `b` on its last page
      have hne : c ≠ b := by
        rintro rfl
        exact hout (hcover i hi)
      have hlast := lastPage_of_shared (hI.placed c hc) (hI.placed b hb) (hI.apart_of_ne hc hb hne)
        (hcover _ (hI.placed b hb).lastPage_lt) touchesPage_lastPage
      exact hdiffer b hb (hlast.symm.trans hend) i hi hout
    · push Not at hcover
      obtain ⟨j,hj,hcj⟩ := hcover
      exact hdiffer c hc hend j hj hcj

/-- In every reachable state, a failed request does not show in later calls if and only if it
does not abandon an active page that is still of use. -/
theorem transparent_iff {s : State} (hs : (system cfg).Reachable s) (size : UInt32) :
    Transparent cfg s size.toNat ↔ ¬Abandons cfg s size.toNat := by
  have hI := inv_of_reachable hs
  constructor
  · intro htrans habandons
    obtain ⟨hres,es,hne⟩ := habandons.differ hI
    exact hne (htrans _ hres es).symm
  · intro hkeeps h' hres es
    rcases allocate_null_cases hI hres with rfl | ⟨rfl,hpos,hsmall,hno,hfull⟩
    · rfl
    rcases hI.cursor with ⟨hap,hactive⟩ | ⟨ix,fill,hix,hactive,hap,hfill,-,-,⟨c,hc,-⟩,-⟩
    · rw [Heap.noCursor_eq hap hactive]
    have htight : s.heap.memPtr+cfg.pageSize*ix+cfg.pageSize <
        s.heap.memPtr+cfg.pageSize*ix+fill+(alignSize size.toNat+headerSize) := by
      by_contra hroom
      exact hno ⟨hsmall,_,_,hap,hactive,by omega⟩
    have hcase : ¬_ := fun hcase => hkeeps ⟨hpos,hsmall,hfull,_,_,hap,hactive,htight,hcase⟩
    rw [not_or] at hcase
    have halike : Alike cfg s ⟨s.heap.noCursor,s.live⟩ := by
      refine .covered hI rfl rfl ?_ (List.ne_nil_of_mem hc) fun b hb i hi => ?_
      · rintro ⟨-,position,page,hap',hactive',hroom⟩
        obtain rfl := Option.some.inj (hap.symm.trans hap')
        obtain rfl := Option.some.inj (hactive.symm.trans hactive')
        exact hcase.1 hroom
      · by_contra hout
        exact hcase.2 ⟨b,hb,i,hi,hout⟩
    exact (halike.results es).symm

/-- All 128 pages are in one block, with 4064 bytes left behind the cursor. -/
theorem not_transparent_small : ¬∀ cfg s, (system cfg).Reachable s → ∀ size : UInt32,
    Transparent cfg s size.toNat := by
  intro hall
  have hrun : ((system twoBlocks).exec ⟨heapAllocator twoBlocks 4096 fun _ => 0,[]⟩
      [.allocate 520208]).map (fun s => (results twoBlocks s [.allocate 1],
        (allocate twoBlocks s.heap 4064).map fun r => (r.2,results twoBlocks ⟨r.1,s.live⟩ [.allocate 1]))) =
      some (some [.pointer (some 524336)],some (none,some [.pointer none])) := by decide +kernel
  obtain ⟨s,hs,hfacts⟩ := Option.map_eq_some_iff.mp hrun
  obtain ⟨hone,hfail⟩ := Prod.mk.inj hfacts
  obtain ⟨⟨h',ptr⟩,hres,hafter⟩ := Option.map_eq_some_iff.mp hfail
  obtain ⟨hnull,htwo⟩ := Prod.mk.inj hafter
  dsimp only at hnull htwo
  subst hnull
  have hreach : (system twoBlocks).Reachable s :=
    TransitionSystem.ReachableBy.exec (fun _ _ _ => trivial) (.init ⟨4096,fun _ => 0,by decide,rfl⟩) hs
  have hsame := hall twoBlocks s hreach 4064 h' hres [.allocate 1]
  rw [hone,htwo] at hsame
  simp at hsame

/-- One block takes all pages and leaves less than a block behind the cursor. -/
theorem transparent_iff_full : ∃ s : State, s.live.length = 1 ∧ s.heap.activePage = some 524288 ∧
    (allocate twoBlocks s.heap 1).map (fun r => (r.2,r.1.activePage)) = some (none,none) ∧
    Transparent twoBlocks s 1 := by
  have hrun : ((system twoBlocks).exec ⟨heapAllocator twoBlocks 4096 fun _ => 0,[]⟩
      [.allocate 524256]).map (fun s => ((s.heap.activePosition,s.heap.activePage),
        (allocate twoBlocks s.heap 1).map (fun r => (r.2,r.1.activePage)),
        s.live.map fun b => (b.off s.heap.memPtr,b.need))) =
      some ((some 528368,some 524288),some (none,none),[(0,524272)]) := by decide +kernel
  obtain ⟨s,hs,hfacts⟩ := Option.map_eq_some_iff.mp hrun
  simp only [Prod.mk.injEq] at hfacts
  obtain ⟨⟨hposition,hactive⟩,hnull,hlive⟩ := hfacts
  have hreach : (system twoBlocks).Reachable s :=
    .exec (fun _ _ _ => trivial) (.init ⟨4096,fun _ => 0,by decide,rfl⟩) hs
  refine ⟨s,by simpa using congrArg List.length hlive,hactive,hnull,(transparent_iff hreach 1).mpr ?_⟩
  rintro ⟨-,-,-,position,page,hap,hpage,-,hsmall | ⟨b,hb,i,hi,hout⟩⟩
  · obtain rfl := Option.some.inj (hposition.symm.trans hap)
    obtain rfl := Option.some.inj (hactive.symm.trans hpage)
    exact absurd hsmall (by decide)
  · have hextent : (b.off s.heap.memPtr,b.need) ∈ [(0,524272)] := hlive ▸ List.mem_map_of_mem hb
    simp only [List.mem_singleton,Prod.mk.injEq] at hextent
    obtain ⟨hoff,hneed⟩ := hextent
    have hsize : twoBlocks.pageSize = 4096 := by decide
    have hpages : twoBlocks.numPages = 128 := by decide
    refine hout ⟨4096*i,?_,?_,?_⟩
    · omega
    · omega
    · rw [hsize]
      omega

end Transparent

end HeapAllocator
end SdkCp
