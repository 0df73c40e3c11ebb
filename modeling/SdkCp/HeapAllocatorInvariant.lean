import SdkCp.HeapAllocatorPlacement

/-! The invariant of `heap_allocator`: live blocks are placed in pages, no two
overlap, the bitmap marks the pages they touch, and each counter holds the bytes
charged to its page. `allocate` and `release` end and keep it. -/
namespace SdkCp
namespace HeapAllocator

open Bytes Bitmap Pages

variable (cfg : Config)

/-- What the header of a live block says. -/
structure Headed (mem : Mem) (b : Block) : Prop where
  bytes : load mem b.addr headerSize = b.header
  size : loadLE mem b.addr 8 = b.size

/-- The cursor: either there is none, or it stands in a page that some live block
touches, behind all of them. -/
inductive Cursor (h : Heap) (live : List Block) : Prop
  | none : h.activePosition = .none → h.activePage = .none → Cursor h live
  | page (page fill : ℕ) : page < cfg.numPages →
      h.activePage = some (h.memPtr+cfg.pageSize*page) →
      h.activePosition = some (h.memPtr+cfg.pageSize*page+fill) →
      fill ≤ cfg.pageSize → 16 ∣ fill → h.usage page ≤ fill →
      (∃ b ∈ live, TouchesPage cfg h.memPtr b page) →
      (∀ b ∈ live, TouchesPage cfg h.memPtr b page →
        b.finish ≤ h.memPtr+cfg.pageSize*page+fill) → Cursor h live

structure Inv (h : Heap) (live : List Block) : Prop where
  memPtr_pos : 0 < h.memPtr
  memPtr_dvd : cfg.pageSize ∣ h.memPtr
  placed : ∀ b ∈ live, Placed cfg h.memPtr b
  headed : ∀ b ∈ live, Headed h.mem b
  apart : live.Pairwise Apart
  bits : ∀ i < cfg.numPages, bit h.blocks i = true ↔ ∀ b ∈ live, ¬TouchesPage cfg h.memPtr b i
  usage : ∀ i < cfg.numPages, h.usage i = chargedTo cfg h.memPtr live i
  usage_le : ∀ i < cfg.numPages, h.usage i ≤ cfg.pageSize
  cursor : Cursor cfg h live

theorem Headed.frame {mem mem' : Mem} {b : Block} (h : Headed mem b)
    (hsame : ∀ i, b.addr ≤ i → i < b.addr+headerSize → mem' i = mem i) : Headed mem' b := by
  refine ⟨(load_congr hsame).trans h.bytes,?_⟩
  rw [← h.size]
  exact loadLE_congr fun i hi hi' => hsame i hi (by simp only [headerSize]; omega)

theorem headed_new (mem : Mem) {addr size : ℕ} (hsize : size < 2^32) :
    Headed (storeLE mem addr 8 size) ⟨addr,size,load (storeLE mem addr 8 size) addr headerSize⟩ :=
  ⟨rfl,loadLE_storeLE_self (by omega)⟩

section Allocate

variable {cfg} {h h' : Heap} {live : List Block} {b : Block}

/-- A new block next to the live ones: only its header is written, its pages are
marked and its bytes charged. -/
theorem Inv.cons (hI : Inv cfg h live) (hbase : h'.memPtr = h.memPtr)
    (hmem : h'.mem = storeLE h.mem b.addr 8 b.size) (hplaced : Placed cfg h.memPtr b)
    (hheaded : Headed h'.mem b) (hapart : ∀ c ∈ live, Apart b c)
    (hbits : ∀ i < cfg.numPages,
      bit h'.blocks i = true ↔ bit h.blocks i = true ∧ ¬TouchesPage cfg h.memPtr b i)
    (husage : ∀ i < cfg.numPages, h'.usage i = chargedPage cfg h.memPtr b i+h.usage i)
    (hle : ∀ i < cfg.numPages, h'.usage i ≤ cfg.pageSize) (hcursor : Cursor cfg h' (b::live)) :
    Inv cfg h' (b::live) := by
  constructor
  · exact hbase ▸ hI.memPtr_pos
  · exact hbase ▸ hI.memPtr_dvd
  · rw [hbase]
    exact List.forall_mem_cons.mpr ⟨hplaced,hI.placed⟩
  · refine List.forall_mem_cons.mpr ⟨hheaded,fun c hc => (hI.headed c hc).frame fun i hi hi' => ?_⟩
    have hap := hapart c hc
    rw [hmem]
    apply storeLE_apply_of_outside
    simp only [Apart,Block.finish,headerSize] at hap hi'
    omega
  · exact List.pairwise_cons.mpr ⟨hapart,hI.apart⟩
  · intro i hi
    rw [hbits i hi,hI.bits i hi,hbase,List.forall_mem_cons,and_comm]
  · intro i hi
    rw [husage i hi,hI.usage i hi,hbase,chargedTo_cons]
  · exact hle
  · exact hcursor

/-- What a call of `allocate` for `size` rounded bytes leaves: the same blocks, or one more. -/
def Kept (cfg : Config) (size : ℕ) (r : Heap × Option ℕ) (live : List Block) : Prop :=
  match r with
  | (h,none) => Inv cfg h live
  | (h,some ptr) =>
    Inv cfg h (⟨ptr-headerSize,size,load h.mem (ptr-headerSize) headerSize⟩::live)

theorem Inv.dropCursor (hI : Inv cfg h live) :
    Inv cfg {h with activePosition := none, activePage := none} live :=
  ⟨hI.memPtr_pos,hI.memPtr_dvd,hI.placed,hI.headed,hI.apart,hI.bits,hI.usage,hI.usage_le,.none rfl rfl⟩

theorem getPageIndex_page {x page : ℕ} (hx : (x-h.memPtr)/cfg.pageSize = page)
    (hlt : page < cfg.numPages) : getPageIndex cfg h (some x) = page := by
  have := numPages_lt cfg
  rw [getPageIndex,hx,u32_eq (by omega)]

variable {size page fill last usage : ℕ}

theorem update_usage_eq (hlast : lastPage cfg h.memPtr b = last)
    (husage : usage = chargedPage cfg h.memPtr b last+h.usage last) (i : ℕ) :
    Function.update h.usage last usage i = chargedPage cfg h.memPtr b i+h.usage i := by
  by_cases hi : i = last
  · rw [hi,Function.update_self,husage]
  · rw [Function.update_of_ne hi,chargedPage_of_ne (fun h => hi (h.symm.trans hlast)),Nat.zero_add]

theorem Inv.update_usage_le (hI : Inv cfg h live) (husage : usage ≤ cfg.pageSize) {i : ℕ}
    (hi : i < cfg.numPages) : Function.update h.usage last usage i ≤ cfg.pageSize := by
  by_cases hil : i = last
  · rw [hil,Function.update_self]
    exact husage
  · rw [Function.update_of_ne hil]
    exact hI.usage_le i hi

theorem Inv.bump (hI : Inv cfg h live) (hpage : page < cfg.numPages)
    (hactive : h.activePage = some (h.memPtr+cfg.pageSize*page)) (hfdvd : 16 ∣ fill)
    (huse : h.usage page ≤ fill) (hex : ∃ b ∈ live, TouchesPage cfg h.memPtr b page)
    (hall : ∀ b ∈ live, TouchesPage cfg h.memPtr b page →
      b.finish ≤ h.memPtr+cfg.pageSize*page+fill)
    (hfit : fill+(size+headerSize) ≤ cfg.pageSize) (hpos : 0 < size) (hdvd : 16 ∣ size)
    (hlt : size < 2^32) {hdr : List UInt8}
    (hheaded : Headed (storeLE h.mem (h.memPtr+cfg.pageSize*page+fill) 8 size)
      ⟨h.memPtr+cfg.pageSize*page+fill,size,hdr⟩) :
    Inv cfg {h with
        mem := storeLE h.mem (h.memPtr+cfg.pageSize*page+fill) 8 size
        usage := Function.update h.usage page (size+headerSize+h.usage page)
        activePosition := some (h.memPtr+cfg.pageSize*page+fill+(size+headerSize))}
      (⟨h.memPtr+cfg.pageSize*page+fill,size,hdr⟩::live) := by
  have hplaced : Placed cfg h.memPtr ⟨h.memPtr+cfg.pageSize*page+fill,size,hdr⟩ :=
    placed_within hpage hfit hfdvd hpos hdvd hlt
  obtain ⟨hfirst,hlast⟩ := @pages_within cfg h.memPtr page fill size hdr hfit
  have hfinish : Block.finish ⟨h.memPtr+cfg.pageSize*page+fill,size,hdr⟩ =
      h.memPtr+cfg.pageSize*page+fill+(size+headerSize) := rfl
  have haddr : Block.addr ⟨h.memPtr+cfg.pageSize*page+fill,size,hdr⟩ =
      h.memPtr+cfg.pageSize*page+fill := rfl
  have hneed : Block.need ⟨h.memPtr+cfg.pageSize*page+fill,size,hdr⟩ = size+headerSize := rfl
  generalize hb : (⟨h.memPtr+cfg.pageSize*page+fill,size,hdr⟩ : Block) = b at *
  have htouch : ∀ {i}, TouchesPage cfg h.memPtr b i ↔ i = page := by
    intro i
    rw [touchesPage_iff,hfirst,hlast]
    omega
  have husage := update_usage_eq hlast
    (show size+headerSize+h.usage page = _ by rw [chargedPage_single hfirst hlast,hneed])
  refine hI.cons rfl ?_ hplaced hheaded ?_ ?_ (fun i _ => husage i) ?_ ?_
  · subst hb
    rfl
  · intro c hc
    by_cases hct : TouchesPage cfg h.memPtr c page
    · right
      rw [haddr]
      exact hall c hc hct
    · refine apart_of_pages hplaced (hI.placed c hc) fun i hi => ?_
      rw [htouch.mp hi]
      exact hct
  · intro i hi
    rw [htouch]
    refine ⟨fun hbit => ⟨hbit,fun hip => ?_⟩,fun h => h.1⟩
    obtain ⟨c,hc,hct⟩ := hex
    exact (hI.bits i hi).mp hbit c hc (hip ▸ hct)
  · exact fun i hi => hI.update_usage_le (by omega) hi
  · refine .page page (fill+(size+headerSize)) hpage hactive
      (congrArg some (Nat.add_assoc _ _ _)) hfit ?_ ?_ ?_ ?_
    · exact dvd_add hfdvd (dvd_add hdvd (dvd_refl 16))
    · simp only [Function.update_self]
      omega
    · exact ⟨b,List.mem_cons_self,htouch.mpr rfl⟩
    · intro c hc hct
      rcases List.mem_cons.mp hc with rfl | hc
      · simp only
        omega
      · have := hall c hc hct
        simp only
        omega

/-- The in-page part of `allocate`, with a cursor: a block at the cursor, or no cursor. -/
theorem allocateInPage_eq (hpage : page < cfg.numPages) (hfill : fill ≤ cfg.pageSize)
    (hactive : h.activePage = some (h.memPtr+cfg.pageSize*page))
    (hap : h.activePosition = some (h.memPtr+cfg.pageSize*page+fill)) (needSize : ℕ) :
    allocateInPage cfg h size needSize =
      if fill+needSize ≤ cfg.pageSize then
        ({h with
            mem := storeLE h.mem (h.memPtr+cfg.pageSize*page+fill) 8 size
            usage := Function.update h.usage page (u16 (h.usage page+u16 needSize))
            activePosition := some (h.memPtr+cfg.pageSize*page+fill+needSize)},
          some (h.memPtr+cfg.pageSize*page+fill+headerSize))
      else ({h with activePosition := none, activePage := none},none) := by
  have hP := pageSize_le cfg
  have hix : getPageIndex cfg h (some (h.memPtr+cfg.pageSize*page)) = page :=
    getPageIndex_page (by rw [Nat.add_sub_cancel_left,Nat.mul_div_cancel_left _ (pageSize_pos cfg)]) hpage
  have hremains : sub32 cfg.pageSize (u32 (h.memPtr+cfg.pageSize*page+fill-(h.memPtr+cfg.pageSize*page))) =
      cfg.pageSize-fill := by
    rw [Nat.add_sub_cancel_left,u32_eq (by omega),sub32_eq (by omega) hfill]
  simp only [allocateInPage,hap,hactive,hix,hremains]
  by_cases hfit : fill+needSize ≤ cfg.pageSize
  · rw [if_pos ⟨by omega,hpage⟩,if_pos hfit]
  · rw [if_neg (by omega),if_neg hfit]

theorem allocateInPage_kept (hI : Inv cfg h live) (hpos : 0 < size) (hdvd : 16 ∣ size)
    (hlt : size < 2^32) : Kept cfg size (allocateInPage cfg h size (size+headerSize)) live := by
  have hP := pageSize_le cfg
  rcases hI.cursor with ⟨hap,-⟩ | ⟨page,fill,hpage,hactive,hap,hfill,hfdvd,huse,hex,hall⟩
  · simp only [allocateInPage,hap]
    exact hI
  rw [allocateInPage_eq hpage hfill hactive hap]
  split
  · rename_i hfit
    have husage : u16 (h.usage page+u16 (size+headerSize)) = size+headerSize+h.usage page := by
      simp only [u16]
      omega
    simp only [Kept,Nat.add_sub_cancel,husage]
    exact hI.bump hpage hactive hfdvd huse hex hall hfit hpos hdvd hlt (headed_new _ hlt)
  · exact hI.dropCursor

/-- A block on a run of free pages. The last page becomes the active one unless there
is one already. -/
theorem Inv.pages (hI : Inv cfg h live) (hpage : page+morePages cfg size < cfg.numPages)
    (hfree : ∀ i, page ≤ i → i ≤ page+morePages cfg size → bit h.blocks i = true)
    (hpos : 0 < size) (hdvd : 16 ∣ size) (hlt : size < 2^32) {hdr : List UInt8}
    (hheaded : Headed (storeLE h.mem (h.memPtr+cfg.pageSize*page) 8 size)
      ⟨h.memPtr+cfg.pageSize*page,size,hdr⟩) {blocks : ℕ → BitVec 64}
    (hblocks : ∀ i, bit blocks i =
      if page ≤ i ∧ i < page+(morePages cfg size+1) then false else bit h.blocks i)
    {position activePage : Option ℕ}
    (hcursor : h.activePosition = none ∧
        position = some (h.memPtr+cfg.pageSize*(page+morePages cfg size)+
          (size+headerSize-cfg.pageSize*morePages cfg size)) ∧
        activePage = some (h.memPtr+cfg.pageSize*(page+morePages cfg size)) ∨
      h.activePosition ≠ none ∧ position = h.activePosition ∧ activePage = h.activePage) :
    Inv cfg {h with
        mem := storeLE h.mem (h.memPtr+cfg.pageSize*page) 8 size
        blocks := blocks
        usage := Function.update h.usage (page+morePages cfg size)
          (size+headerSize-cfg.pageSize*morePages cfg size)
        activePosition := position
        activePage := activePage}
      (⟨h.memPtr+cfg.pageSize*page,size,hdr⟩::live) := by
  obtain ⟨hmore,hless⟩ := morePages_bounds cfg size
  have hplaced : Placed cfg h.memPtr ⟨h.memPtr+cfg.pageSize*page,size,hdr⟩ :=
    placed_at hpage hpos hdvd hlt
  have hfirst := @firstPage_at cfg h.memPtr page size hdr
  have hlast := @lastPage_at cfg h.memPtr page size hdr
  have hcharged := @chargedPage_at cfg h.memPtr page size hdr
  have hfinish : Block.finish ⟨h.memPtr+cfg.pageSize*page,size,hdr⟩ =
      h.memPtr+cfg.pageSize*page+(size+headerSize) := rfl
  have hmem : storeLE h.mem (h.memPtr+cfg.pageSize*page) 8 size =
      storeLE h.mem (Block.addr ⟨h.memPtr+cfg.pageSize*page,size,hdr⟩) 8
        (Block.size ⟨h.memPtr+cfg.pageSize*page,size,hdr⟩) := rfl
  generalize (⟨h.memPtr+cfg.pageSize*page,size,hdr⟩ : Block) = b at *
  have htouch : ∀ {i}, TouchesPage cfg h.memPtr b i ↔ page ≤ i ∧ i ≤ page+morePages cfg size := by
    intro i
    rw [touchesPage_iff,hfirst,hlast]
  have huntouched : ∀ i, TouchesPage cfg h.memPtr b i → ∀ c ∈ live, ¬TouchesPage cfg h.memPtr c i := by
    intro i hi
    obtain ⟨hi,hi'⟩ := htouch.mp hi
    exact (hI.bits i (by omega)).mp (hfree i hi hi')
  have hfresh : h.usage (page+morePages cfg size) = 0 := by
    rw [hI.usage _ hpage,chargedTo_eq_zero (huntouched _ (htouch.mpr ⟨by omega,le_rfl⟩))]
  have husage := update_usage_eq hlast
    (show size+headerSize-cfg.pageSize*morePages cfg size = _ by rw [hcharged,hfresh,Nat.add_zero])
  refine hI.cons rfl hmem hplaced hheaded ?_ ?_ (fun i _ => husage i) ?_ ?_
  · exact fun c hc => apart_of_pages hplaced (hI.placed c hc) fun i hi => huntouched i hi c hc
  · intro i _
    simp only [hblocks i]
    rw [htouch]
    split
    · simp only [Bool.false_eq_true,false_iff,not_and]
      intro _
      omega
    · exact ⟨fun hb => ⟨hb,by omega⟩,fun hb => hb.1⟩
  · exact fun i hi => hI.update_usage_le (by omega) hi
  · rcases hcursor with ⟨-,rfl,rfl⟩ | ⟨hsome,rfl,rfl⟩
    · refine .page (page+morePages cfg size) (size+headerSize-cfg.pageSize*morePages cfg size)
        hpage rfl rfl (by omega) ?_ ?_ ?_ ?_
      · exact Nat.dvd_sub (dvd_add hdvd (dvd_refl 16)) (Dvd.dvd.mul_right (sixteen_dvd_pageSize cfg) _)
      · simp only [Function.update_self]
        omega
      · exact ⟨b,List.mem_cons_self,htouch.mpr ⟨by omega,by omega⟩⟩
      · intro c hc hct
        rcases List.mem_cons.mp hc with rfl | hc
        · simp only [hfinish,Nat.mul_add]
          omega
        · exact absurd hct (huntouched _ (htouch.mpr ⟨by omega,by omega⟩) c hc)
    · rcases hI.cursor with ⟨hap,-⟩ | ⟨active,fill,hlt',hactive,hap,hfill,hfdvd,huse,hex,hall⟩
      · exact absurd hap hsome
      have hout : ¬TouchesPage cfg h.memPtr b active := fun hb => by
        obtain ⟨c,hc,hct⟩ := hex
        exact huntouched active hb c hc hct
      have hne : active ≠ page+morePages cfg size := fun he => hout (htouch.mpr (by omega))
      refine .page active fill hlt' hactive hap hfill hfdvd ?_ ?_ ?_
      · simp only [Function.update_of_ne hne]
        exact huse
      · obtain ⟨c,hc,hct⟩ := hex
        exact ⟨c,List.mem_cons_of_mem _ hc,hct⟩
      · intro c hc hct
        rcases List.mem_cons.mp hc with rfl | hc
        · exact absurd hct hout
        · exact hall c hc hct

theorem getPage_of_lt (hpage : page < cfg.numPages) :
    getPage cfg h page = some (h.memPtr+cfg.pageSize*page) := by
  have hlt : cfg.pageSize*page < 2^32 := by
    have hin := page_inside (x := 1) hpage (pageSize_pos cfg)
    have hall := numPages_mul_le cfg
    rw [Nat.mul_comm] at hall
    omega
  rw [getPage,if_pos hpage,u32_eq hlt]

theorem pages_bounds (hlt : size < 2^32) : morePages cfg size+1+64 ≤ 2^32 ∧ 64*cfg.numBlocks < 2^32 := by
  have hpages := numPages_lt cfg
  rw [numPages_eq] at hpages
  have hcount : morePages cfg size ≤ (size+headerSize-1)/1024 :=
    Nat.div_le_div_left (pageSize_gt cfg).le (by norm_num)
  simp only [headerSize] at hcount
  omega

theorem allocatePages_none (hlt : size < 2^32)
    (hscan : getBitScanStreamRevWord cfg.numBlocks h.blocks (morePages cfg size+1) = some invalidPageIx) :
    allocatePages cfg h size (size+headerSize) = some (h,none) := by
  simp only [allocatePages,fullPagesCount_eq hlt,hscan,Option.bind_some,if_true]

theorem allocatePages_some {position : ℕ} {blocks : ℕ → BitVec 64} (hlt : size < 2^32)
    (hscan : getBitScanStreamRevWord cfg.numBlocks h.blocks (morePages cfg size+1) = some position)
    (hfit : position+morePages cfg size < cfg.numPages)
    (hreset : resetBitStream cfg position (morePages cfg size+1) h.blocks = some blocks) :
    allocatePages cfg h size (size+headerSize) = some ({h with
        mem := storeLE h.mem (h.memPtr+cfg.pageSize*position) 8 size
        blocks := blocks
        usage := Function.update h.usage (position+morePages cfg size)
          (size+headerSize-cfg.pageSize*morePages cfg size)
        activePosition := if h.activePosition = none then
            some (h.memPtr+cfg.pageSize*(position+morePages cfg size)+
              (size+headerSize-cfg.pageSize*morePages cfg size))
          else h.activePosition
        activePage := if h.activePosition = none then
            some (h.memPtr+cfg.pageSize*(position+morePages cfg size))
          else h.activePage},
      some (h.memPtr+cfg.pageSize*position+headerSize)) := by
  have hpages := numPages_lt cfg
  have hvalid : position ≠ invalidPageIx := by
    simp only [invalidPageIx]
    omega
  have hlastIx : u32 (position+(morePages cfg size+1)-1) = position+morePages cfg size :=
    u32_eq (by omega)
  have hfirst : position < cfg.numPages := by omega
  simp only [allocatePages,fullPagesCount_eq hlt,lastPageUsage_eq,hscan,Option.bind_some,hvalid,if_false,
    hlastIx,hfit,if_true,getPage_of_lt hfirst,getPage_of_lt hfit]
  by_cases hap : h.activePosition = none
  · simp only [hap,if_true,hreset,Option.map_some]
  · simp only [hap,if_false,hreset,Option.map_some]

theorem allocatePages_kept (hI : Inv cfg h live) (hpos : 0 < size) (hdvd : 16 ∣ size)
    (hlt : size < 2^32) :
    ∃ r, allocatePages cfg h size (size+headerSize) = some r ∧ Kept cfg size r live := by
  obtain ⟨hn32,hsize⟩ := @pages_bounds cfg size hlt
  obtain ⟨position,hscan,hfound,-⟩ := @getBitScanStreamRevWord_spec (morePages cfg size+1) h.blocks
    (Nat.succ_pos _) hn32 cfg.numBlocks hsize
  by_cases hvalid : position = invalidPageIx
  · exact ⟨_,allocatePages_none hlt (hvalid ▸ hscan),hI⟩
  obtain ⟨hfit,hseen⟩ := hfound hvalid
  obtain ⟨blocks,hreset,hblocks⟩ := resetBitStream_spec cfg h.blocks hfit hsize
  rw [← numPages_eq] at hfit
  have hlast : position+morePages cfg size < cfg.numPages := by omega
  refine ⟨_,allocatePages_some hlt hscan hlast hreset,?_⟩
  simp only [Kept,Nat.add_sub_cancel]
  refine hI.pages hlast (fun i hi hi' => (hseen i hi (by omega)).free) hpos hdvd hlt
    (headed_new _ hlt) hblocks ?_
  by_cases hap : h.activePosition = none
  · rw [if_pos hap,if_pos hap]
    exact .inl ⟨hap,rfl,rfl⟩
  · rw [if_neg hap,if_neg hap]
    exact .inr ⟨hap,rfl,rfl⟩

theorem alignSize_eq (n : ℕ) : alignSize n = (n+(16-n % 16) % 16) % 2^32 := by
  have hmask : ∀ m : ℕ, m &&& 15 = m % 16 := fun m => Nat.and_two_pow_sub_one_eq_mod m 4
  simp only [alignSize,sdkCpAlignment,u32]
  rw [Nat.and_comm,hmask,hmask]

/-- `allocate` ends, and keeps the invariant with the block it hands out. -/
theorem allocate_kept (hI : Inv cfg h live) (n : ℕ) :
    ∃ r, allocate cfg h n = some r ∧ Kept cfg (alignSize n) r live := by
  have halign := alignSize_eq n
  rw [allocate]
  split
  · rename_i hcond
    have hdvd : 16 ∣ alignSize n := by
      rw [halign]
      omega
    have hlt : alignSize n < 2^32 := by
      rw [halign]
      omega
    dsimp only
    split
    · have hin := allocateInPage_kept hI hcond.2 hdvd hlt
      revert hin
      rcases allocateInPage cfg h (alignSize n) (alignSize n+headerSize) with ⟨h',_ | ptr⟩
      · exact fun hin => allocatePages_kept hin hcond.2 hdvd hlt
      · exact fun hin => ⟨_,rfl,hin⟩
    · exact allocatePages_kept hI hcond.2 hdvd hlt
  · exact ⟨_,rfl,hI⟩

end Allocate

section Release

variable {cfg} {h : Heap} {b : Block} {live : List Block}

theorem Inv.perm {live' : List Block} (hI : Inv cfg h live) (hp : live.Perm live') : Inv cfg h live' := by
  have hmem : ∀ c, c ∈ live' ↔ c ∈ live := fun c => hp.mem_iff.symm
  constructor
  · exact hI.memPtr_pos
  · exact hI.memPtr_dvd
  · exact fun c hc => hI.placed c ((hmem c).mp hc)
  · exact fun c hc => hI.headed c ((hmem c).mp hc)
  · exact (hp.pairwise_iff fun h => h.symm).mp hI.apart
  · intro i hi
    simp only [hmem]
    exact hI.bits i hi
  · intro i hi
    rw [hI.usage i hi,chargedTo_perm hp]
  · exact hI.usage_le
  · rcases hI.cursor with ⟨hap,hactive⟩ | ⟨page,fill,hlt,hactive,hap,hfill,hfdvd,huse,hex,hall⟩
    · exact .none hap hactive
    · refine .page page fill hlt hactive hap hfill hfdvd huse ?_ ?_
      · simpa only [hmem] using hex
      · simpa only [hmem] using hall

theorem exists_of_chargedTo {base i : ℕ} (h : chargedTo cfg base live i ≠ 0) :
    ∃ c ∈ live, TouchesPage cfg base c i := by
  by_contra hno
  exact h (chargedTo_eq_zero fun c hc hct => hno ⟨c,hc,hct⟩)

/-- A released block leaves its last page untouched exactly when no bytes stay charged there. -/
theorem Inv.lastPage_free (hI : Inv cfg h (b::live)) :
    chargedTo cfg h.memPtr live (lastPage cfg h.memPtr b) = 0 ↔
      ∀ c ∈ live, ¬TouchesPage cfg h.memPtr c (lastPage cfg h.memPtr b) := by
  refine ⟨fun hzero c hc hct => ?_,chargedTo_eq_zero⟩
  have hap := List.rel_of_pairwise_cons hI.apart hc
  have hend := lastPage_of_shared (hI.placed c (List.mem_cons_of_mem _ hc))
    (hI.placed b List.mem_cons_self) hap.symm hct touchesPage_lastPage
  exact (chargedTo_pos hc hend).ne' hzero

/-- On every other page the bitmap with the block's leading pages freed is right. -/
theorem Inv.bits_released (hI : Inv cfg h (b::live)) {blocks : ℕ → BitVec 64}
    (hblocks : ∀ i, bit blocks i = if firstPage cfg h.memPtr b ≤ i ∧
      i < lastPage cfg h.memPtr b then true else bit h.blocks i) {i : ℕ} (hi : i < cfg.numPages)
    (hne : i ≠ lastPage cfg h.memPtr b) :
    bit blocks i = true ↔ ∀ c ∈ live, ¬TouchesPage cfg h.memPtr c i := by
  rw [hblocks]
  split
  · rename_i hlead
    refine ⟨fun _ c hc hct => ?_,fun _ => rfl⟩
    exact hne (lastPage_of_shared (hI.placed b List.mem_cons_self)
      (hI.placed c (List.mem_cons_of_mem _ hc)) (List.rel_of_pairwise_cons hI.apart hc)
      (touchesPage_iff.mpr ⟨hlead.1,hlead.2.le⟩) hct).symm
  · have hout : ¬TouchesPage cfg h.memPtr b i := fun ht => by
      have := touchesPage_iff.mp ht
      omega
    rw [hI.bits i hi,List.forall_mem_cons]
    exact ⟨fun h => h.2,fun h => ⟨hout,h⟩⟩

theorem Inv.usage_released (hI : Inv cfg h (b::live)) {i : ℕ} (hi : i < cfg.numPages) :
    Function.update h.usage (lastPage cfg h.memPtr b)
      (chargedTo cfg h.memPtr live (lastPage cfg h.memPtr b)) i = chargedTo cfg h.memPtr live i := by
  by_cases hil : i = lastPage cfg h.memPtr b
  · subst hil
    exact Function.update_self _ _ _
  · rw [Function.update_of_ne hil,hI.usage i hi,chargedTo_cons,chargedPage_of_ne (Ne.symm hil),Nat.zero_add]

/-- The block is gone: its leading pages are free, its bytes are no longer charged. -/
theorem Inv.released (hI : Inv cfg h (b::live)) {blocks : ℕ → BitVec 64}
    (hbits : ∀ i < cfg.numPages, bit blocks i = true ↔ ∀ c ∈ live, ¬TouchesPage cfg h.memPtr c i)
    {position active : Option ℕ}
    (hcursor : Cursor cfg {h with
        blocks := blocks
        usage := Function.update h.usage (lastPage cfg h.memPtr b)
          (chargedTo cfg h.memPtr live (lastPage cfg h.memPtr b))
        activePosition := position
        activePage := active} live) :
    Inv cfg {h with
        blocks := blocks
        usage := Function.update h.usage (lastPage cfg h.memPtr b)
          (chargedTo cfg h.memPtr live (lastPage cfg h.memPtr b))
        activePosition := position
        activePage := active} live where
  memPtr_pos := hI.memPtr_pos
  memPtr_dvd := hI.memPtr_dvd
  placed c hc := hI.placed c (List.mem_cons_of_mem _ hc)
  headed c hc := hI.headed c (List.mem_cons_of_mem _ hc)
  apart := (List.pairwise_cons.mp hI.apart).2
  bits := hbits
  usage _ hi := hI.usage_released hi
  usage_le i hi := by
    have hle := hI.usage_le i hi
    rw [hI.usage i hi,chargedTo_cons] at hle
    simp only [hI.usage_released hi]
    omega
  cursor := hcursor

theorem Placed.lastPage_eq {base page fill : ℕ} (hp : Placed cfg base b)
    (hb : TouchesPage cfg base b page) (hfill : fill ≤ cfg.pageSize)
    (hfinish : b.finish ≤ base+cfg.pageSize*page+fill) : lastPage cfg base b = page := by
  obtain ⟨-,hle⟩ := touchesPage_iff.mp hb
  by_contra hne
  have hmul := Nat.mul_le_mul_left cfg.pageSize (show page+1 ≤ lastPage cfg base b by omega)
  have hlo : cfg.pageSize*lastPage cfg base b ≤ b.off base+b.need-1 := Nat.mul_div_le _ _
  have hpos := b.need_pos
  rw [hp.finish_eq] at hfinish
  rw [Nat.mul_succ] at hmul
  omega

theorem Inv.cursor_released (hI : Inv cfg h (b::live)) (blocks : ℕ → BitVec 64)
    (hstay : h.activePage ≠ some (h.memPtr+cfg.pageSize*lastPage cfg h.memPtr b) ∨
      chargedTo cfg h.memPtr live (lastPage cfg h.memPtr b) ≠ 0) :
    Cursor cfg {h with
      blocks := blocks
      usage := Function.update h.usage (lastPage cfg h.memPtr b)
        (chargedTo cfg h.memPtr live (lastPage cfg h.memPtr b))} live := by
  rcases hI.cursor with ⟨hap,hactive⟩ | ⟨page,fill,hlt,hactive,hap,hfill,hfdvd,huse,hex,hall⟩
  · exact .none hap hactive
  refine .page page fill hlt hactive hap hfill hfdvd ?_ ?_ ?_
  · rw [hI.usage page hlt,chargedTo_cons] at huse
    simp only [hI.usage_released hlt]
    omega
  · obtain ⟨c,hc,hct⟩ := hex
    rcases List.mem_cons.mp hc with rfl | hc
    · have hend := (hI.placed c List.mem_cons_self).lastPage_eq hct hfill (hall c List.mem_cons_self hct)
      rcases hstay with hstay | hstay
      · rw [hend] at hstay
        exact absurd hactive hstay
      · exact exists_of_chargedTo (hend ▸ hstay)
    · exact ⟨c,hc,hct⟩
  · exact fun c hc hct => hall c (List.mem_cons_of_mem _ hc) hct

theorem releasePage_kept (hI : Inv cfg h (b::live)) {blocks : ℕ → BitVec 64}
    (hblocks : ∀ i, bit blocks i = if firstPage cfg h.memPtr b ≤ i ∧
      i < lastPage cfg h.memPtr b then true else bit h.blocks i) :
    ∃ r, releasePage cfg {h with blocks := blocks} (lastPage cfg h.memPtr b)
        (chargedPage cfg h.memPtr b (lastPage cfg h.memPtr b)) = some r ∧
      r.2 = true ∧ Inv cfg r.1 live := by
  have hlt := (hI.placed b List.mem_cons_self).lastPage_lt
  have hP := pageSize_le cfg
  have husage : sub16 (h.usage (lastPage cfg h.memPtr b))
      (u16 (chargedPage cfg h.memPtr b (lastPage cfg h.memPtr b))) =
      chargedTo cfg h.memPtr live (lastPage cfg h.memPtr b) := by
    have hle := hI.usage_le _ hlt
    rw [hI.usage _ hlt,chargedTo_cons] at hle ⊢
    simp only [sub16,u16]
    omega
  simp only [releasePage,hlt,if_true,husage]
  by_cases hzero : chargedTo cfg h.memPtr live (lastPage cfg h.memPtr b) = 0
  · have hbits : ∀ i < cfg.numPages,
        bit (Function.update blocks (lastPage cfg h.memPtr b >>> kFlagBound)
          (blocks (lastPage cfg h.memPtr b >>> kFlagBound) |||
            1#64 <<< (lastPage cfg h.memPtr b &&& kLMask))) i = true ↔
        ∀ c ∈ live, ¬TouchesPage cfg h.memPtr c i := by
      intro i hi
      rw [bit_set]
      by_cases hil : i = lastPage cfg h.memPtr b
      · subst hil
        simp only [if_true,true_iff]
        exact hI.lastPage_free.mp hzero
      · rw [if_neg hil]
        exact hI.bits_released hblocks hi hil
    rw [if_pos hzero]
    split
    · exact ⟨_,rfl,rfl,hI.released hbits (.none rfl rfl)⟩
    · rename_i hix
      refine ⟨_,rfl,rfl,hI.released hbits (hI.cursor_released _ (.inl fun hactive => hix ?_))⟩
      simp only [hactive]
      exact getPageIndex_page (by
        simp only [Nat.add_sub_cancel_left]
        exact Nat.mul_div_cancel_left _ (pageSize_pos cfg)) hlt
  · rw [if_neg hzero]
    refine ⟨_,rfl,rfl,hI.released (fun i hi => ?_) (hI.cursor_released _ (.inr hzero))⟩
    by_cases hil : i = lastPage cfg h.memPtr b
    · subst hil
      have hbit : bit blocks (lastPage cfg h.memPtr b) = bit h.blocks (lastPage cfg h.memPtr b) := by
        rw [hblocks,if_neg (by omega)]
      have hold : ¬bit h.blocks (lastPage cfg h.memPtr b) = true := fun ht =>
        (hI.bits _ hi).mp ht b List.mem_cons_self touchesPage_lastPage
      rw [hbit,← hI.lastPage_free]
      exact ⟨fun ht => absurd ht hold,fun hz => absurd hz hzero⟩
    · exact hI.bits_released hblocks hi hil

theorem Placed.page_ptr {base : ℕ} (hp : Placed cfg base b) :
    (b.ptr-base)/cfg.pageSize = firstPage cfg base b := by
  have hoff : b.ptr-base = b.off base+headerSize := by
    have := hp.base_le
    simp only [Block.ptr,Block.off]
    omega
  have hpos := hp.size_pos
  have hdvd := hp.size_dvd
  have hP := pageSize_gt cfg
  have hlo : cfg.pageSize*firstPage cfg base b ≤ b.off base := Nat.mul_div_le _ _
  rw [hoff]
  by_cases hl : cfg.pageSize < b.need
  · have hlarge := hp.large hl
    exact div_eq_of_mem (by omega) (by simp only [headerSize]; omega)
  · have hhi := lt_mul_add_of_div_eq (pageSize_pos cfg) (hp.small (by omega)).symm
    refine div_eq_of_mem (by omega) ?_
    simp only [Block.need,headerSize] at *
    omega

theorem Placed.lastPage_large {base : ℕ} (hp : Placed cfg base b) (hl : cfg.pageSize < b.need) :
    lastPage cfg base b = firstPage cfg base b+morePages cfg b.size ∧
    chargedPage cfg base b (lastPage cfg base b) =
      b.size+headerSize-cfg.pageSize*morePages cfg b.size := by
  have hlast : lastPage cfg base b = firstPage cfg base b+morePages cfg b.size := by
    rw [lastPage,hp.large hl,last_mul (pageSize_pos cfg) b.need_pos]
    rfl
  refine ⟨hlast,?_⟩
  rw [chargedPage,lastPage,hp.large hl,charged_mul (pageSize_pos cfg) b.need_pos]
  rfl

/-- `release` of a live block ends, returns `true` and keeps the invariant. -/
theorem release_kept (hI : Inv cfg h (b::live)) :
    ∃ r, release cfg h (some b.ptr) = some r ∧ r.2 = true ∧ Inv cfg r.1 live := by
  have hp := hI.placed b List.mem_cons_self
  have hfl : firstPage cfg h.memPtr b ≤ lastPage cfg h.memPtr b := first_le_last b.need_pos
  have hlt := hp.lastPage_lt
  have hix : getPageIndex cfg h (some b.ptr) = firstPage cfg h.memPtr b :=
    getPageIndex_page hp.page_ptr (by omega)
  have hsize : loadLE h.mem (b.ptr-headerSize) 8 = b.size := by
    rw [Block.ptr,Nat.add_sub_cancel]
    exact (hI.headed b List.mem_cons_self).size
  have hvalid : ¬(b.ptr < h.memPtr ∨ firstPage cfg h.memPtr b ≥ cfg.numPages) := by
    have := hp.base_le
    simp only [Block.ptr]
    omega
  have hpos := hp.size_pos
  have hneed : u64 (b.size+headerSize) = b.size+headerSize := by
    have := hp.size_lt
    simp only [u64,headerSize]
    omega
  simp only [release,hI.memPtr_pos.ne',if_false,hix,hvalid,hsize,hneed,hpos.ne']
  split
  · rename_i hl
    obtain ⟨hlast,hcharged⟩ := hp.lastPage_large hl
    have hpages := numPages_lt cfg
    rw [fullPagesCount_eq hp.size_lt,lastPageUsage_eq,sub32_eq (by omega) (by omega),
      Nat.add_sub_cancel,← hcharged,
      u32_eq (n := firstPage cfg h.memPtr b+(morePages cfg b.size+1)-1) (by omega),
      show firstPage cfg h.memPtr b+(morePages cfg b.size+1)-1 = lastPage cfg h.memPtr b by omega]
    obtain ⟨blocks,hset,hblocks⟩ := @setBitStream_spec cfg (firstPage cfg h.memPtr b)
      (morePages cfg b.size) h.blocks (by rw [← numPages_eq]; omega) (by rw [← numPages_eq]; omega)
    rw [hset,Option.bind_some]
    rw [← hlast] at hblocks
    exact releasePage_kept hI hblocks
  · rename_i hl
    have hsame := hp.small (Nat.le_of_not_lt hl)
    have hkept := @releasePage_kept cfg h b live hI h.blocks fun i => by rw [if_neg (by omega)]
    rw [chargedPage_single hsame rfl,← hsame] at hkept
    exact hkept

theorem Inv.write (hI : Inv cfg h live) (hb : b ∈ live) {i : ℕ} (hi : i < b.size) (v : UInt8) :
    Inv cfg {h with mem := store h.mem (b.ptr+i) [v]} live := by
  refine ⟨hI.memPtr_pos,hI.memPtr_dvd,hI.placed,fun c hc => ?_,hI.apart,hI.bits,hI.usage,
    hI.usage_le,?_⟩
  · refine (hI.headed c hc).frame fun a ha ha' => store_apply_of_outside ?_
    simp only [Block.ptr,List.length_singleton]
    by_cases hcb : c = b
    · subst hcb
      omega
    · have hap := List.rel_of_pairwise_cons (hI.perm (List.perm_cons_erase hb)).apart
        ((List.mem_erase_of_ne hcb).mpr hc)
      simp only [Apart,Block.finish] at hap
      omega
  · rcases hI.cursor with ⟨hap,hactive⟩ | ⟨page,fill,hlt,hactive,hap,hfill,hfdvd,huse,hex,hall⟩
    · exact .none hap hactive
    · exact .page page fill hlt hactive hap hfill hfdvd huse hex hall

end Release

end HeapAllocator
end SdkCp
