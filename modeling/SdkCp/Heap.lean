import SdkCp.HeapAllocatorCompleteness

/-! `heap` of tools/heap.hpp: a list of chunks, each a `heap_allocator` with an arena of its
own, and `malloc` for what no chunk takes. `new` and `malloc` are the environment: they
fail, or they hand out storage that overlaps none in use. -/
namespace SdkCp
namespace Heap

open Bytes HeapAllocator

/-- `__chunk_size`, which is the `__init_size` of the chunks; their pages have `SDK_CP_PAGE_SIZE`. -/
structure Config where
  chunk : HeapAllocator.Config
  page_eq : chunk.pageSize = 4096

/-- `heap_chunk_info`, with the address of the chunk's `_mem_ptr_raw` and the blocks its
clients hold. -/
structure ChunkInfo where
  pointerBegin : ℕ
  pointerEnd : ℕ
  raw : ℕ
  chunk : HeapAllocator.State

structure State where
  heapChunks : List ChunkInfo
  mallocs : List (ℕ × ℕ)

/-- What `allocate` returns, and where it is from. -/
inductive Answer
  | fromChunk (ptr : ℕ)
  | fromMalloc (ptr : ℕ)
  | null

def Answer.ptr : Answer → Option ℕ
  | fromChunk ptr => some ptr
  | fromMalloc ptr => some ptr
  | null => none

variable (cfg : Config)

def chunkSize : ℕ := cfg.chunk.initSize

/-- `sizeof(_mem_ptr_raw)`. -/
def rawSize : ℕ := u32 (cfg.chunk.allocationSize+cfg.chunk.pageSize-1)

/-- The storage in use: the arrays of the chunks and the blocks of `malloc`, by address and size. -/
def storages (s : State) : List (ℕ × ℕ) := s.heapChunks.map (fun c => (c.raw,rawSize cfg)) ++ s.mallocs

/-- Two ranges of bytes do not overlap. An empty one has an address of its own. -/
def Separate (x y : ℕ × ℕ) : Prop := x.1+max x.2 1 ≤ y.1 ∨ y.1+max y.2 1 ≤ x.1

instance (x y : ℕ × ℕ) : Decidable (Separate x y) := inferInstanceAs (Decidable (_ ∨ _))

/-- Storage that is not in use. -/
def Fresh (s : State) (x : ℕ × ℕ) : Prop := 0 < x.1 ∧ ∀ y ∈ storages cfg s, Separate x y

instance (s : State) (x : ℕ × ℕ) : Decidable (Fresh cfg s x) := inferInstanceAs (Decidable (_ ∧ _))

/-- A new `heap_allocator`, as it is put into the list. -/
def newChunk (raw : ℕ) (mem : Mem) : ChunkInfo :=
  let h := heapAllocator cfg.chunk raw mem
  ⟨h.memPtr,h.memPtr+cfg.chunk.allocationSize,raw,⟨h,[]⟩⟩

/-- The loop over the chunks: the first one that does not return null. The argument of
`heap_allocator::allocate` is a `uint32_t`. -/
def tryChunks : List ChunkInfo → ℕ → Option (List ChunkInfo × Option ℕ)
  | [], _ => some ([],none)
  | c::cs, size =>
    (HeapAllocator.allocate cfg.chunk c.chunk.heap (u32 size)).bind fun r =>
      let c := {c with chunk := handOut (u32 size) r c.chunk.live}
      match r.2 with
      | some ptr => some (c::cs,some ptr)
      | none => (tryChunks cs size).map fun q => (c::q.1,q.2)

/-- `malloc(size)`. -/
def mallocBlock (s : State) (size : ℕ) : Option ℕ → Option (State × Answer)
  | none => some (s,.null)
  | some ptr =>
    if Fresh cfg s (ptr,size) then some ({s with mallocs := (ptr,size)::s.mallocs},.fromMalloc ptr) else none

/-- `allocate`. `newAt` and `mallocAt` say what `new(std::nothrow)` and `malloc` return, if they
are called; `new` finds some bytes in its storage. -/
def allocate (s : State) (size : ℕ) (newAt : Option (ℕ × Mem)) (mallocAt : Option ℕ) :
    Option (State × Answer) :=
  if u64 (2*size) ≤ chunkSize cfg then
    (tryChunks cfg s.heapChunks size).bind fun r =>
      let s := {s with heapChunks := r.1}
      match r.2,newAt with
      | some ptr,_ => some (s,.fromChunk ptr)
      | none,none => mallocBlock cfg s size mallocAt
      | none,some (raw,mem) =>
        if Fresh cfg s (raw,rawSize cfg) then
          (tryChunks cfg [newChunk cfg raw mem] size).bind fun q =>
            let s := {s with heapChunks := s.heapChunks ++ q.1}
            match q.2 with
            | some ptr => some (s,.fromChunk ptr)
            | none => mallocBlock cfg s size mallocAt
        else none
  else mallocBlock cfg s size mallocAt

/-- The loop of `deallocate`: the chunk whose range the pointer is in releases it. -/
def releaseIn : List ChunkInfo → ℕ → Option (Option (List ChunkInfo × Bool))
  | [], _ => some none
  | c::cs, p =>
    if p ≥ c.pointerBegin ∧ p < c.pointerEnd then
      (c.chunk.live.find? fun b => b.ptr = p).bind fun b =>
        (release cfg.chunk c.chunk.heap (some p)).map fun r =>
          some ({c with chunk := ⟨r.1,c.chunk.live.erase b⟩}::cs,r.2)
    else (releaseIn cs p).map fun r => r.map fun q => (c::q.1,q.2)

/-- `deallocate`, of a pointer that a client holds. -/
def deallocate (s : State) (p : ℕ) : Option (State × Bool) :=
  (releaseIn cfg s.heapChunks p).bind fun r =>
    match r with
    | some (cs,ok) => some ({s with heapChunks := cs},ok)
    | none => (s.mallocs.find? fun m => m.1 = p).map fun m => ({s with mallocs := s.mallocs.erase m},true)

/-- A client writes inside a block of a chunk. The bytes of `malloc` blocks are not modelled. -/
def writeIn : List ChunkInfo → ℕ → ℕ → UInt8 → Option (List ChunkInfo)
  | [], _, _, _ => none
  | c::cs, p, i, v =>
    match HeapAllocator.step cfg.chunk c.chunk (.write p i v) with
    | some t => some ({c with chunk := t}::cs)
    | none => (writeIn cs p i v).map (c::·)

/-- What clients do. -/
inductive Event
  | allocate (size : UInt64) (newAt : Option (ℕ × Mem)) (mallocAt : Option ℕ)
  | deallocate (p : ℕ)
  | write (p i : ℕ) (v : UInt8)

def step (s : State) : Event → Option State
  | .allocate size newAt mallocAt => (allocate cfg s size.toNat newAt mallocAt).map (·.1)
  | .deallocate p => (deallocate cfg s p).map (·.1)
  | .write p i v => (writeIn cfg s.heapChunks p i v).map fun cs => {s with heapChunks := cs}

/-- A heap without chunks. -/
def system : TransitionSystem State Event where
  init s := s = ⟨[],[]⟩
  step := step cfg

/-- `std_chunk_hallocator<T>::allocate`, for objects of `sizeofT` bytes. -/
def hallocate (s : State) (n sizeofT : ℕ) (newAt : Option (ℕ × Mem)) (mallocAt : Option ℕ) :
    Option (State × Answer) :=
  allocate cfg s (u64 (n*sizeofT)) newAt mallocAt

end Heap
end SdkCp
