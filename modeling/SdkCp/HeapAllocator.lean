import SdkCp.TransitionSystem
import SdkCp.Bytes
import SdkCp.Bitmap

/-! `heap_allocator` of tools/heap_allocator.hpp: pages of one arena, a bitmap of
free pages, a usage counter for each page and a cursor into the active page.
Small blocks are bumped into the active page, larger ones take runs of pages whose
last page may be shared. `none` stands for an access outside `_blocks` or
`_pagesInfo`, or a loop that does not end. -/
namespace SdkCp
namespace HeapAllocator

open Bytes Bitmap

def u16 (n : ℕ) : ℕ := n % 2^16
def u32 (n : ℕ) : ℕ := n % 2^32
def u64 (n : ℕ) : ℕ := n % 2^64
def sub16 (a b : ℕ) : ℕ := (a+(2^16-b)) % 2^16
def sub32 (a b : ℕ) : ℕ := (a+(2^32-b)) % 2^32

def sdkCpAlignment : ℕ := 16
/-- `sizeof(alloc_header)`: the 64-bit size, padded to the alignment. -/
def headerSize : ℕ := 16
def kFlagBound : ℕ := 6
def kHVal : ℕ := 1 <<< kFlagBound
def kLMask : ℕ := kHVal-1
/-- `(uint32_t)__invalid_page_ix`. -/
def invalidPageIx : ℕ := 2^32-1

/-- `__NB` of an instantiation. -/
def blockCount (initSize pageSize : ℕ) : ℕ :=
  let np := initSize/pageSize
  np/kHVal + if np &&& kLMask ≠ 0 then 1 else 0

/-- One instantiation the static assertions let through: `__init_size` and
`__page_size = 2^pageBits`, a power of two above 1024 and at most 16384. -/
structure Config where
  initSize : ℕ
  pageBits : ℕ
  init_pos : 0 < initSize
  init_lt : initSize < 2^32
  page_gt : 1024 < 2^pageBits
  page_le : 2^pageBits ≤ 16384
  pages_pos : 0 < blockCount initSize (2^pageBits) <<< kFlagBound

namespace Config

variable (cfg : Config)

def pageSize : ℕ := 2^cfg.pageBits
def pageMask : ℕ := cfg.pageSize-1
def numBlocks : ℕ := blockCount cfg.initSize cfg.pageSize
def numPages : ℕ := cfg.numBlocks <<< kFlagBound
/-- `__allocation_size`, a product of 32-bit unsigned numbers. -/
def allocationSize : ℕ := u32 (cfg.numPages*cfg.pageSize)

end Config

/-- The allocator object: the bytes around `_mem_ptr`, the bitmap (a set bit is a
free page), `_pagesInfo[i].usage` and the cursor. -/
structure Heap where
  mem : Mem
  memPtr : ℕ
  blocks : ℕ → BitVec 64
  usage : ℕ → ℕ
  activePosition : Option ℕ
  activePage : Option ℕ

def bitScanForward64 (value : BitVec 64) : ℕ :=
  if value ≠ 0 then ((List.range 64).find? value.getLsbD).getD 0 else 2^64-1

/-- `st_mask[p]`. -/
def stMask (p : ℕ) : BitVec 64 := BitVec.allOnes 64 <<< p

/-- The loop of `_resetBitStream` and `_setBitStream`; `left` counts the blocks from
`block` to the end of `_blocks`. -/
def bitStream (put : BitVec 64 → BitVec 64 → BitVec 64) :
    ℕ → ℕ → ℕ → ℕ → (ℕ → BitVec 64) → Option (ℕ → BitVec 64)
  | left, block, position, remains, blocks =>
    if remains = 0 then some blocks
    else match left with
      | 0 => none
      | left+1 =>
        let e0 := u32 (position+remains)
        bitStream put left (block+1) 0 (sub32 remains (sub32 (min e0 kHVal) position))
          (Function.update blocks block (put (blocks block) (rangeMask position e0)))

variable (cfg : Config)

def resetBitStream (start count : ℕ) (blocks : ℕ → BitVec 64) : Option (ℕ → BitVec 64) :=
  bitStream (fun b m => b &&& ~~~m) (cfg.numBlocks-(start >>> kFlagBound)) (start >>> kFlagBound)
    (start &&& kLMask) count blocks

def setBitStream (start count : ℕ) (blocks : ℕ → BitVec 64) : Option (ℕ → BitVec 64) :=
  bitStream (fun b m => b ||| m) (cfg.numBlocks-(start >>> kFlagBound)) (start >>> kFlagBound)
    (start &&& kLMask) count blocks

/-- The `for (;;)` of `_getBitScanStreamRevWord` on one block: the new
`remainsFindPages` and `startPage`. Each round that goes on drops a set bit. -/
def scanBlock (numberOfSetBits blockIx : ℕ) : ℕ → BitVec 64 → ℕ → ℕ → Option (ℕ × ℕ)
  | 0, _, _, _ => none
  | rounds+1, block, remainsFindPages, startPage =>
    let position := bitScanForward64 block
    if position ≠ 2^64-1 then
      if startPage ≠ invalidPageIx then
        let boundMask := lowMask remainsFindPages
        if block &&& boundMask = boundMask then
          some (sub32 remainsFindPages (min remainsFindPages kHVal),startPage)
        else scanBlock numberOfSetBits blockIx rounds (clearLowestRun block) numberOfSetBits invalidPageIx
      else
        let endPosition := u32 (position+remainsFindPages)
        let normalizedBlock := stMask position &&& lowMask endPosition
        if block &&& normalizedBlock = normalizedBlock then
          some (sub32 remainsFindPages (sub32 (min endPosition kHVal) position),
            u32 ((blockIx <<< kFlagBound)+position))
        else scanBlock numberOfSetBits blockIx rounds (clearLowestRun block) remainsFindPages startPage
    else some (numberOfSetBits,invalidPageIx)

/-- The outer loop, with `left` blocks to go. -/
def scanBlocks (blocks : ℕ → BitVec 64) (numberOfSetBits : ℕ) : ℕ → ℕ → ℕ → ℕ → Option (ℕ × ℕ)
  | 0, _, remainsFindPages, startPage => some (remainsFindPages,startPage)
  | left+1, blockIx, remainsFindPages, startPage =>
    if remainsFindPages > 0 then
      (scanBlock numberOfSetBits blockIx 65 (blocks blockIx) remainsFindPages startPage).bind fun r =>
        scanBlocks blocks numberOfSetBits left (blockIx+1) r.1 r.2
    else some (remainsFindPages,startPage)

def getBitScanStreamRevWord (numBlocks : ℕ) (blocks : ℕ → BitVec 64) (numberOfSetBits : ℕ) : Option ℕ :=
  (scanBlocks blocks numberOfSetBits numBlocks 0 numberOfSetBits invalidPageIx).map fun r =>
    if r.1 > 0 then invalidPageIx else r.2

/-- The constructor, on the bytes and the address the object is built at. -/
def heapAllocator (raw : ℕ) (mem : Mem) : Heap where
  mem := mem
  memPtr :=
    let dif := raw &&& cfg.pageMask
    if dif > 0 then raw+(cfg.pageSize-dif) else raw
  blocks := fun _ => BitVec.allOnes 64
  usage := fun _ => 0
  activePosition := none
  activePage := none

def getPage (h : Heap) (ix : ℕ) : Option ℕ :=
  if ix < cfg.numPages then some (h.memPtr+u32 (cfg.pageSize*ix)) else none

def getPageIndex (h : Heap) : Option ℕ → ℕ
  | some p => u32 ((p-h.memPtr)/cfg.pageSize)
  | none => invalidPageIx

/-- `size` rounded up to the alignment, in `uint32_t`. -/
def alignSize (size : ℕ) : ℕ :=
  let mask := sdkCpAlignment-1
  u32 (size+(mask &&& (sdkCpAlignment-(size &&& mask))))

/-- The bytes a block of `needSize` bytes has on its last page. -/
def lastPageUsage (needSize : ℕ) : ℕ :=
  let usage := needSize &&& cfg.pageMask
  u16 (usage+cfg.pageSize*(if usage = 0 then 1 else 0))

/-- The number of pages `needSize` bytes take. -/
def fullPagesCount (needSize : ℕ) : ℕ :=
  u32 (u32 (needSize/cfg.pageSize)+if needSize &&& cfg.pageMask ≠ 0 then 1 else 0)

/-- The `__USE_IN_PAGE_ALLOCATION__` part of `allocate`: a block in the rest of the
active page, or the page is given up. -/
def allocateInPage (h : Heap) (size needSize : ℕ) : Heap × Option ℕ :=
  match h.activePosition, h.activePage with
  | some activePosition, some activePage =>
    let remains := sub32 cfg.pageSize (u32 (activePosition-activePage))
    let position := getPageIndex cfg h (some activePage)
    if remains ≥ needSize ∧ position < cfg.numPages then
      ({h with
          mem := storeLE h.mem activePosition 8 size
          usage := Function.update h.usage position (u16 (h.usage position+u16 needSize))
          activePosition := some (activePosition+needSize)},
        some (activePosition+headerSize))
    else ({h with activePosition := none, activePage := none},none)
  | _, _ => (h,none)

/-- The rest of `allocate`: a run of free pages. -/
def allocatePages (h : Heap) (size needSize : ℕ) : Option (Heap × Option ℕ) :=
  (getBitScanStreamRevWord cfg.numBlocks h.blocks (fullPagesCount cfg needSize)).bind fun position =>
    if position = invalidPageIx then some (h,none)
    else
      let lastPageIx := u32 (position+fullPagesCount cfg needSize-1)
      if lastPageIx < cfg.numPages then
        let h := {h with usage := Function.update h.usage lastPageIx (lastPageUsage cfg needSize)}
        match getPage cfg h position, getPage cfg h lastPageIx with
        | some pageStart, some pageLast =>
          let h := {h with mem := storeLE h.mem pageStart 8 size}
          let h := if h.activePosition = none then
              {h with activePage := some pageLast,
                      activePosition := some (pageLast+lastPageUsage cfg needSize)}
            else h
          (resetBitStream cfg position (fullPagesCount cfg needSize) h.blocks).map fun blocks =>
            ({h with blocks := blocks},some (pageStart+headerSize))
        | _, _ => some (h,none)
      else none

def allocate (h : Heap) (size : ℕ) : Option (Heap × Option ℕ) :=
  let size := alignSize size
  if h.memPtr ≠ 0 ∧ size > 0 then
    let needSize := size+headerSize
    if u32 (needSize/cfg.pageSize) = 0 then
      match allocateInPage cfg h size needSize with
      | (h,some ptr) => some (h,some ptr)
      | (h,none) => allocatePages cfg h size needSize
    else allocatePages cfg h size needSize
  else some (h,none)

/-- The end of `release`: `needSize` bytes come off page `position`, which is free
when none are left. -/
def releasePage (h : Heap) (position needSize : ℕ) : Option (Heap × Bool) :=
  if position < cfg.numPages then
    let usage := sub16 (h.usage position) (u16 needSize)
    let h := {h with usage := Function.update h.usage position usage}
    if usage = 0 then
      let blockIx := position >>> kFlagBound
      let bitPosition := position &&& kLMask
      let h := {h with
        blocks := Function.update h.blocks blockIx (h.blocks blockIx ||| 1#64 <<< bitPosition)}
      if getPageIndex cfg h h.activePage = position then
        some ({h with activePage := none, activePosition := none},true)
      else some (h,true)
    else some (h,true)
  else none

def release (h : Heap) : Option ℕ → Option (Heap × Bool)
  | none => some (h,false)
  | some mem =>
    if h.memPtr = 0 then some (h,false)
    else
      let position := getPageIndex cfg h (some mem)
      if mem < h.memPtr ∨ position ≥ cfg.numPages then some (h,false)
      else
        let size := loadLE h.mem (mem-headerSize) 8
        if size = 0 then some (h,true)
        else
          let needSize := u64 (size+headerSize)
          if needSize > cfg.pageSize then
            let count := fullPagesCount cfg needSize
            (setBitStream cfg position (sub32 count 1) h.blocks).bind fun blocks =>
              releasePage cfg {h with blocks := blocks} (u32 (position+count-1))
                (lastPageUsage cfg needSize)
          else releasePage cfg h position needSize

/-- A live block: the address of its header, the rounded size of its payload, and
the header's bytes as `allocate` left them. -/
structure Block where
  addr : ℕ
  size : ℕ
  header : List UInt8
  deriving DecidableEq

namespace Block

variable (b : Block)

/-- What the client holds. -/
def ptr : ℕ := b.addr+headerSize
/-- The end of header and payload. -/
def finish : ℕ := b.addr+(b.size+headerSize)

end Block

/-- The allocator and the blocks its clients hold. -/
structure State where
  heap : Heap
  live : List Block

/-- What clients do. -/
inductive Event
  | allocate (size : UInt32)
  | release (mem : ℕ)
  | write (mem i : ℕ) (v : UInt8)

/-- The block of a non-null pointer that `allocate` returned. -/
def handOut (size : ℕ) : Heap × Option ℕ → List Block → State
  | (h,none), live => ⟨h,live⟩
  | (h,some ptr), live =>
    ⟨h,⟨ptr-headerSize,alignSize size,load h.mem (ptr-headerSize) headerSize⟩::live⟩

/-- One call, or one byte written by a client: only live blocks are released, and
a client writes only inside its payload. -/
def step (s : State) : Event → Option State
  | .allocate size => (allocate cfg s.heap size.toNat).map fun r => handOut size.toNat r s.live
  | .release mem =>
    (s.live.find? fun b => b.ptr = mem).bind fun b =>
      (release cfg s.heap (some mem)).map fun r => ⟨r.1,s.live.erase b⟩
  | .write mem i v =>
    (s.live.find? fun b => b.ptr = mem ∧ i < b.size).map fun _ =>
      {s with heap := {s.heap with mem := store s.heap.mem (mem+i) [v]}}

/-- A fresh allocator at any non-null address. -/
def system : TransitionSystem State Event where
  init s := ∃ raw mem, 0 < raw ∧ s = ⟨heapAllocator cfg raw mem,[]⟩
  step := step cfg

end HeapAllocator
end SdkCp
