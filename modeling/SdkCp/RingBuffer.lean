import SdkCp.TransitionSystem
import SdkCp.Bytes

/-! `ring_buffer` of tools/ring_buffer.hpp, byte for byte: block headers, wrap
fillers and payloads live in one memory, and the two indices are `unsigned long`
words. `allocate`, `peek` and `free` are cut where they wait or re-read an index,
so that producers and the consumer interleave between any two of these points. -/
namespace SdkCp
namespace RingBuffer

open Bytes

/-- One instantiation: `__size = 2^kSizeBound`, `__alignment = 2^kSlotBound`,
whether `__USE_GUARD__` is defined, and the width of `unsigned long`. -/
structure Config where
  kSizeBound : ℕ
  kSlotBound : ℕ
  useGuard : Bool
  wordBits : ℕ
  size_ge : 6 ≤ kSizeBound
  size_lt : kSizeBound < 32
  slot_ge : 2 ≤ kSlotBound
  slot_le : kSlotBound ≤ 7
  word_eq : wordBits = 32 ∨ wordBits = 64

namespace Config

variable (cfg : Config)

def size : ℕ := 2^cfg.kSizeBound
def slotAlignment : ℕ := 2^cfg.kSlotBound
def slotAlignmentMask : ℕ := cfg.slotAlignment-1

/-- `k_padding_size` of a header with `n` bytes of fields. -/
def paddingSize (n : ℕ) : ℕ :=
  ((n >>> cfg.kSlotBound) + if n &&& cfg.slotAlignmentMask ≠ 0 then 1 else 0)*cfg.slotAlignment

/-- `sizeof(prefix)`: the guarded header has one more 32-bit field. -/
def prefixSize : ℕ := cfg.paddingSize (if cfg.useGuard then 10 else 6)
/-- `sizeof(postfix)`; only the guarded layout has one. -/
def postfixSize : ℕ := if cfg.useGuard then cfg.paddingSize 4 else 0
def kOverhead : ℕ := cfg.prefixSize+cfg.postfixSize

def sizeOffset : ℕ := if cfg.useGuard then 4 else 0
def stateOffset : ℕ := if cfg.useGuard then 8 else 4

/-- `load_ptr_t` arithmetic. -/
def add (a b : ℕ) : ℕ := (a+b) % 2^cfg.wordBits
def sub (a b : ℕ) : ℕ := (a+(2^cfg.wordBits-b)) % 2^cfg.wordBits

/-- `ix & (__size - 1)`. -/
def pos (ix : ℕ) : ℕ := ix &&& (cfg.size-1)

end Config

def kGuard : ℕ := 0xdeadbeaf
def kInvalidHandle : ℕ := 0xffffffff

/-- `prefix::busy` and its siblings, as stored in the 16-bit `state` field. -/
inductive BlockState
  | busy | fake | commited | skipped
  deriving DecidableEq

def BlockState.code : BlockState → ℕ
  | .busy => 0
  | .fake => 1
  | .commited => 2
  | .skipped => 3

/-- The buffer object: the bytes from `_mem_ptr` on and the two indices. -/
structure Buffer where
  mem : Mem
  ixRead : ℕ
  ixWrite : ℕ

variable (cfg : Config)

def readSize (m : Mem) (p : ℕ) : ℕ := loadLE m (p+cfg.sizeOffset) 4
def readState (m : Mem) (p : ℕ) : ℕ := loadLE m (p+cfg.stateOffset) 2

/-- `LOCK_ASSERT(... ->guard == k_guard)` at address `p`; absent without guards. -/
def guardHolds (m : Mem) (p : ℕ) : Bool := !cfg.useGuard || loadLE m p 4 == kGuard

def writeGuard (m : Mem) (p : ℕ) : Mem := if cfg.useGuard then storeLE m p 4 kGuard else m

/-- Fill the fields of the `prefix` at `p`. -/
def writePrefix (m : Mem) (p size : ℕ) (state : BlockState) : Mem :=
  storeLE (storeLE (writeGuard cfg m p) (p+cfg.sizeOffset) 4 size) (p+cfg.stateOffset) 2 state.code

/-- `_update_block_state`, with whether its assertions hold. -/
def updateBlockState (m : Mem) (handle : ℕ) (state : BlockState) : Mem × Bool :=
  if handle = kInvalidHandle then (m,true)
  else
    let beg := cfg.pos handle
    let m' := storeLE m (beg+cfg.stateOffset) 2 state.code
    (m',guardHolds cfg m' beg && guardHolds cfg m' (beg+cfg.prefixSize+readSize cfg m' beg))

/-- What one look of `_get_first_block` at the block under `readIx` finds: a block
still being filled, a block to step over, or a payload with its address and size. -/
inductive FirstBlock
  | busy
  | next (readIx : ℕ)
  | block (readIx ptr size : ℕ)

/-- `_get_first_block`; the wait for a busy block is left to the caller's loop. -/
def getFirstBlock (m : Mem) (readIx : ℕ) : FirstBlock × Bool :=
  let p := cfg.pos readIx
  let ok := guardHolds cfg m p
  let size := readSize cfg m p
  if readState cfg m p = BlockState.fake.code then (.next (cfg.add readIx size),ok)
  else if readState cfg m p = BlockState.busy.code then (.busy,ok)
  else
    let ok := ok && guardHolds cfg m (p+cfg.prefixSize+size)
    let readIx := cfg.add readIx (cfg.kOverhead+size)
    if readState cfg m p = BlockState.commited.code then (.block readIx (p+cfg.prefixSize) size,ok)
    else (.next readIx,ok)

/-- The locals of a running `allocate`. -/
structure Frame where
  noWait : Bool
  requested : ℕ
  dataSize : ℕ
  commitSize : ℕ
  writeBegIx : ℕ
  writeEndIx : ℕ
  bufferPos : ℕ

/-- The requested size rounded up to the slot alignment. -/
def roundUp (size : ℕ) : ℕ :=
  size + (cfg.slotAlignmentMask &&& (cfg.slotAlignment-(size &&& cfg.slotAlignmentMask)))

/-- The part of `allocate` before its first test of `_ix_read`; `none` is the
early `nullptr`. Sizes stay far below 2^32, so `uint32_t` sums do not wrap. -/
def allocateBegin (b : Buffer) (size : ℕ) (noWait : Bool) : Option Frame :=
  if size = 0 ∨ size > cfg.size >>> 2 then none
  else
    let dataSize := roundUp cfg size
    let commitSize := dataSize+cfg.kOverhead
    some { noWait, requested := size, dataSize, commitSize
           writeBegIx := b.ixWrite
           writeEndIx := cfg.add b.ixWrite commitSize
           bufferPos := cfg.pos b.ixWrite }

/-- `end_block != beg_block`. -/
def crosses (f : Frame) : Bool :=
  cfg.sub (f.writeEndIx >>> cfg.kSizeBound) (if cfg.pos f.writeEndIx = 0 then 1 else 0) ≠
    f.writeBegIx >>> cfg.kSizeBound

/-- `border - _ix_read > __size`. -/
def borderTaken (b : Buffer) (f : Frame) : Bool :=
  cfg.sub (cfg.add f.writeBegIx cfg.prefixSize) b.ixRead > cfg.size

/-- Write the filler header and move the block to the start of the buffer. -/
def wrap (b : Buffer) (f : Frame) : Buffer × Frame :=
  let remains := cfg.size-f.bufferPos
  ({ b with mem := writePrefix cfg b.mem f.bufferPos remains .fake },
   { f with writeEndIx := cfg.add f.writeEndIx remains
            writeBegIx := cfg.add f.writeBegIx remains
            commitSize := f.commitSize+remains
            bufferPos := 0 })

/-- `write_end_ix - _ix_read > __size`. -/
def endTaken (b : Buffer) (f : Frame) : Bool :=
  cfg.sub f.writeEndIx b.ixRead > cfg.size

/-- `handle = write_beg_ix`, truncated to `handle_t`. -/
def Frame.handle (f : Frame) : ℕ := f.writeBegIx % 2^32

/-- Write header and postfix and publish the block. -/
def publish (b : Buffer) (f : Frame) : Buffer :=
  let m := writePrefix cfg b.mem f.bufferPos f.dataSize .busy
  { b with mem := writeGuard cfg m (f.bufferPos+cfg.prefixSize+f.dataSize)
           ixWrite := cfg.add b.ixWrite f.commitSize }

/-- `_ix_read += readIx - _ix_read`. -/
def advanceRead (b : Buffer) (readIx : ℕ) : Buffer :=
  { b with ixRead := cfg.add b.ixRead (cfg.sub readIx b.ixRead) }

/-- Where the producer that holds `_write_blocker` stands. -/
inductive Writer
  | idle
  | border (f : Frame)
  | finish (f : Frame)

/-- Where the consumer stands. `freeing` keeps the payload it read before `free`. -/
inductive Reader
  | idle
  | peeking (readIx : ℕ)
  | peeked (ptr size : ℕ)
  | freeing (readIx : ℕ) (payload : List UInt8)

/-- An accepted `allocate`: what it handed out and what its producer did with it. -/
structure Entry where
  requested : ℕ
  size : ℕ
  handle : ℕ
  ptr : ℕ
  written : ℕ → Option UInt8
  state : BlockState

/-- The buffer with its clients. `log` holds the accepted allocations in order,
`delivered` the payloads of the peek/free pairs, `asserts` whether every
assertion evaluated so far held. -/
structure State where
  buf : Buffer
  writer : Writer
  reader : Reader
  log : List Entry
  delivered : List (List UInt8)
  asserts : Bool

/-- The steps of producers and consumer. `allocateStep`, `peekStep` and `freeStep`
are one iteration of the respective wait or scan. -/
inductive Event
  | allocate (size : ℕ) (noWait : Bool)
  | allocateStep
  | write (i off : ℕ) (b : UInt8)
  | commit (i : ℕ)
  | skip (i : ℕ)
  | peek
  | peekStep
  | free
  | freeStep

def Event.isAllocate : Event → Bool
  | .allocate _ _ | .allocateStep => true
  | _ => false

/-- The log entry of a published frame. -/
def Frame.entry (f : Frame) : Entry where
  requested := f.requested
  size := f.dataSize
  handle := f.handle
  ptr := f.bufferPos+cfg.prefixSize
  written _ := none
  state := .busy

/-- One look at `_ix_read` by the running `allocate`. A full buffer makes a
`no_wait` call return `nullptr` and a blocking call look again later. -/
def stepAllocate (s : State) : Option State :=
  match s.writer with
  | .idle => none
  | .border f =>
    if borderTaken cfg s.buf f then
      if f.noWait then some { s with writer := .idle } else some s
    else
      let (b,f) := wrap cfg s.buf f
      some { s with buf := b, writer := .finish f }
  | .finish f =>
    if endTaken cfg s.buf f then
      if f.noWait then some { s with writer := .idle } else some s
    else
      some { s with buf := publish cfg s.buf f, writer := .idle, log := s.log ++ [f.entry cfg]
                    asserts := s.asserts && cfg.pos f.handle == f.bufferPos }

/-- `commit` or `skip` on the handle of entry `i`, once. -/
def stepSettle (s : State) (i : ℕ) (state : BlockState) : Option State :=
  match s.log[i]? with
  | none => none
  | some e =>
    if e.state = .busy then
      let (m,ok) := updateBlockState cfg s.buf.mem e.handle state
      some { s with buf := { s.buf with mem := m }, log := s.log.set i { e with state }
                    asserts := s.asserts && ok }
    else none

/-- A producer writes one byte of the block it still owns. -/
def stepWrite (s : State) (i off : ℕ) (b : UInt8) : Option State :=
  match s.log[i]? with
  | none => none
  | some e =>
    if e.state = .busy ∧ off < e.size then
      some { s with buf := { s.buf with mem := store s.buf.mem (e.ptr+off) [b] }
                    log := s.log.set i { e with written := Function.update e.written off (some b) } }
    else none

/-- One iteration of the loop of `peek`. -/
def stepPeek (s : State) : Option State :=
  match s.reader with
  | .peeking readIx =>
    if s.buf.ixWrite = readIx then
      some { s with buf := advanceRead cfg s.buf readIx, reader := .idle }
    else
      match getFirstBlock cfg s.buf.mem readIx with
      | (.busy,ok) => some { s with asserts := s.asserts && ok }
      | (.next readIx,ok) => some { s with reader := .peeking readIx, asserts := s.asserts && ok }
      | (.block _ ptr size,ok) =>
        some { s with reader := .peeked ptr size, asserts := s.asserts && ok }
  | _ => none

/-- One iteration of the loop of `free`. -/
def stepFree (s : State) : Option State :=
  match s.reader with
  | .freeing readIx payload =>
    if s.buf.ixWrite = readIx then some s
    else
      match getFirstBlock cfg s.buf.mem readIx with
      | (.busy,ok) => some { s with asserts := s.asserts && ok }
      | (.next readIx,ok) =>
        some { s with reader := .freeing readIx payload, asserts := s.asserts && ok }
      | (.block readIx _ _,ok) =>
        some { s with buf := advanceRead cfg s.buf readIx, reader := .idle
                      delivered := s.delivered ++ [payload], asserts := s.asserts && ok }
  | _ => none

def step (s : State) : Event → Option State
  | .allocate size noWait =>
    match allocateBegin cfg s.buf size noWait with
    | none => some s
    | some f =>
      match s.writer with
      | .idle => some { s with writer := if crosses cfg f then .border f else .finish f }
      | _ => none
  | .allocateStep => stepAllocate cfg s
  | .write i off b => stepWrite s i off b
  | .commit i => stepSettle cfg s i .commited
  | .skip i => stepSettle cfg s i .skipped
  | .peek =>
    match s.reader with
    | .idle | .peeked _ _ => some { s with reader := .peeking s.buf.ixRead }
    | _ => none
  | .peekStep => stepPeek cfg s
  | .free =>
    match s.reader with
    | .peeked ptr size =>
      some { s with reader := .freeing s.buf.ixRead (load s.buf.mem ptr size) }
    | _ => none
  | .freeStep => stepFree cfg s

/-- The constructor's state. -/
def initial : State where
  buf := ⟨fun _ => 0,0,0⟩
  writer := .idle
  reader := .idle
  log := []
  delivered := []
  asserts := true

def system : TransitionSystem State Event where
  init s := s = initial
  step := step cfg

/-- The steps of `peek` and `free`. -/
def Event.isConsumer : Event → Bool
  | .peek | .peekStep | .free | .freeStep => true
  | _ => false

/-- `allocate` moves the writer or publishes a block, the owner of a busy block writes or
settles it, and the consumer moves its place and the read index. -/
inductive Changes (s : State) : Event → State → Prop
  | writer {ev : Event} {m : Mem} {w : Writer} (hev : ev.isAllocate = true) :
    Changes s ev { s with buf := { s.buf with mem := m }, writer := w }
  | publish {m : Mem} {ix : ℕ} {e : Entry} {ok : Bool} (he : e.state = .busy) :
    Changes s .allocateStep { s with buf := ⟨m,s.buf.ixRead,ix⟩, writer := .idle,
                                     log := s.log ++ [e], asserts := ok }
  | block {ev : Event} {i : ℕ} {e e' : Entry} {m : Mem} {ok : Bool} (hi : s.log[i]? = some e)
    (hbusy : e.state = .busy) (hev : (∃ off b, ev = .write i off b) ∧ e'.state = .busy ∨
      ev = .commit i ∧ e'.state = .commited ∨ ev = .skip i ∧ e'.state = .skipped) :
    Changes s ev { s with buf := { s.buf with mem := m }, log := s.log.set i e', asserts := ok }
  | consumer {ev : Event} {ix : ℕ} {r : Reader} {ds : List (List UInt8)} {ok : Bool}
    (hev : ev.isConsumer = true) :
    Changes s ev { s with buf := { s.buf with ixRead := ix }, reader := r, delivered := ds,
                          asserts := ok }

variable {cfg} {s t : State}

theorem stepAllocate_changes (hs : stepAllocate cfg s = some t) : Changes s .allocateStep t := by
  simp only [stepAllocate] at hs
  split at hs
  · simp at hs
  · split at hs
    · split at hs <;> (rw [← Option.some.inj hs]; exact .writer rfl)
    · rw [← Option.some.inj hs]
      exact .writer rfl
  · split at hs
    · split at hs <;> (rw [← Option.some.inj hs]; exact .writer rfl)
    · rw [← Option.some.inj hs]
      exact .publish rfl

theorem stepSettle_changes {ev : Event} {i : ℕ} {state : BlockState}
    (hev : ev = .commit i ∧ state = .commited ∨ ev = .skip i ∧ state = .skipped)
    (hs : stepSettle cfg s i state = some t) : Changes s ev t := by
  simp only [stepSettle] at hs
  split at hs
  · simp at hs
  · rename_i e hi
    split at hs
    · rename_i hbusy
      rw [← Option.some.inj hs]
      exact .block hi hbusy (.inr hev)
    · simp at hs

theorem stepWrite_changes {i off : ℕ} {b : UInt8} (hs : stepWrite s i off b = some t) :
    Changes s (.write i off b) t := by
  simp only [stepWrite] at hs
  split at hs
  · simp at hs
  · rename_i e hi
    split at hs
    · rename_i hbusy
      rw [← Option.some.inj hs]
      exact .block hi hbusy.1 (.inl ⟨⟨off,b,rfl⟩,hbusy.1⟩)
    · simp at hs

theorem stepPeek_changes (hs : stepPeek cfg s = some t) : Changes s .peekStep t := by
  simp only [stepPeek] at hs
  split at hs
  · split at hs
    · rw [← Option.some.inj hs]
      exact .consumer rfl
    · split at hs <;> (rw [← Option.some.inj hs]; exact .consumer rfl)
  · simp at hs

theorem stepFree_changes (hs : stepFree cfg s = some t) : Changes s .freeStep t := by
  simp only [stepFree] at hs
  split at hs
  · split at hs
    · rw [← Option.some.inj hs]
      exact .consumer rfl
    · split at hs <;> (rw [← Option.some.inj hs]; exact .consumer rfl)
  · simp at hs

theorem step_changes {ev : Event} (hs : step cfg s ev = some t) : Changes s ev t := by
  cases ev with
  | allocate size noWait =>
    simp only [step] at hs
    split at hs
    · rw [← Option.some.inj hs]
      exact .writer rfl
    · split at hs
      · rw [← Option.some.inj hs]
        exact .writer rfl
      · simp at hs
  | allocateStep => exact stepAllocate_changes hs
  | write i off b => exact stepWrite_changes hs
  | commit i => exact stepSettle_changes (.inl ⟨rfl,rfl⟩) hs
  | skip i => exact stepSettle_changes (.inr ⟨rfl,rfl⟩) hs
  | peek =>
    simp only [step] at hs
    split at hs
    · rw [← Option.some.inj hs]
      exact .consumer rfl
    · rw [← Option.some.inj hs]
      exact .consumer rfl
    · simp at hs
  | peekStep => exact stepPeek_changes hs
  | free =>
    simp only [step] at hs
    split at hs
    · rw [← Option.some.inj hs]
      exact .consumer rfl
    · simp at hs
  | freeStep => exact stepFree_changes hs

end RingBuffer
end SdkCp
