import SdkCp.HeapUsable

/-! When `heap` adds a chunk. It does so whenever no chunk returns a block, and a chunk returns
none also for a request that it rejects or misses the room for. -/
namespace SdkCp
namespace Heap

open Bytes Bitmap HeapAllocator

/-- The chunk has room for the request, behind the cursor of its active page or in a free run. -/
def CanServe (cfg : Config) (c : ChunkInfo) (size : ℕ) : Prop :=
  FitsPage cfg.chunk c.chunk.heap (requestSize size) ∨
    FreeRun cfg.chunk c.chunk.heap (requestPages cfg.chunk (requestSize size))

/-- A call that adds a chunk finds no room in the chunks there are, and returns a block of at
least `size` bytes from the new one. -/
def GrowsForRequest (cfg : Config) (s : State) (size : ℕ) : Prop :=
  ∀ newAt mallocAt t a, allocate cfg s size newAt mallocAt = some (t,a) →
    s.heapChunks.length < t.heapChunks.length →
    (∀ c ∈ s.heapChunks, ¬CanServe cfg c size) ∧
    ∃ old c ptr room, t.heapChunks = old ++ [c] ∧ old.length = s.heapChunks.length ∧
      a = .fromChunk ptr ∧ (ptr,room) ∈ c.blocks ∧ size ≤ room

/-- The request is for `malloc`, a chunk takes it, or it is not empty, its double does not wrap, and
no chunk has room for it. -/
def Needed (cfg : Config) (s : State) (size : ℕ) : Prop :=
  chunkSize cfg < u64 (2*size) ∨ (∃ c ∈ s.heapChunks, Finds cfg c (u32 size)) ∨
    0 < size ∧ size < 2^63 ∧ ∀ c ∈ s.heapChunks, ¬CanServe cfg c size

section Call

variable {cfg : Config} {s t : State} {size : ℕ} {newAt : Option (ℕ × Mem)} {mallocAt : Option ℕ}
  {a : Answer}

def Answer.servedByChunk : Answer → ℕ
  | .fromChunk _ => 1
  | _ => 0

theorem mallocBlock_served {u : State} (hI : Inv cfg u) (h : mallocBlock cfg u size mallocAt = some (t,a)) :
    t.heapChunks = u.heapChunks ∧ a.servedByChunk = 0 := by
  obtain ⟨hsame,-,⟨-,rfl⟩ | ⟨ptr,-,rfl,-⟩⟩ := mallocBlock_cases hI h
  · exact ⟨hsame,rfl⟩
  · exact ⟨hsame,rfl⟩

/-- The chunks after a call: the same number, one more that takes the request, or one more that
rejects it. -/
inductive Growth (cfg : Config) (s : State) (size : ℕ) (newAt : Option (ℕ × Mem)) (t : State) (a : Answer) :
    Prop
  | kept : t.heapChunks.length = s.heapChunks.length →
      (chunkSize cfg < u64 (2*size) ∨ (∃ c ∈ s.heapChunks, Finds cfg c (u32 size)) ∨ newAt = none) →
      Growth cfg s size newAt t a
  | grown (old : List ChunkInfo) (c : ChunkInfo) (ptr : ℕ) : u64 (2*size) ≤ chunkSize cfg →
      (∀ c ∈ s.heapChunks, ¬Finds cfg c (u32 size)) → t.heapChunks = old ++ [c] →
      old.length = s.heapChunks.length → a = .fromChunk ptr →
      (ptr,alignSize (u32 size)) ∈ c.blocks → Growth cfg s size newAt t a
  | wasted : u32 size = 0 → u64 (2*size) ≤ chunkSize cfg → (∀ c ∈ s.heapChunks, ¬Finds cfg c (u32 size)) →
      t.heapChunks.length = s.heapChunks.length+1 → a.servedByChunk = 0 → Growth cfg s size newAt t a

theorem allocate_growth (hI : Inv cfg s) (h : allocate cfg s size newAt mallocAt = some (t,a)) :
    Growth cfg s size newAt t a := by
  have hout := allocate_outcome hI size newAt mallocAt
  rw [h] at hout
  cases hout with
  | large hlarge hr => exact .kept (congrArg _ (mallocBlock_served hI hr.symm).1) (.inl hlarge)
  | served u _ _ hfound _ hlen _ hr =>
    rw [← (Prod.mk.inj (Option.some.inj hr)).1] at hlen
    exact .kept hlen (.inr (.inl hfound))
  | noChunk u _ _ hnew hu hlen _ hr =>
    rw [← (mallocBlock_served hu hr.symm).1] at hlen
    exact .kept hlen (.inr (.inr hnew))
  | refused _ _ _ _ hr => cases hr
  | grown _ _ u old c ptr hsmall hno _ hu hchunks hlen _ hold hr =>
    obtain ⟨rfl,rfl⟩ := Prod.mk.inj (Option.some.inj hr)
    exact .grown old c ptr hsmall hno hchunks hlen rfl hold.mem
  | wasted raw mem u hsmall hno _ _ hnew hu hlen _ hr =>
    obtain ⟨hchunks,hserved⟩ := mallocBlock_served hu hr.symm
    rw [← hchunks] at hlen
    refine .wasted ?_ hsmall hno hlen hserved
    by_contra hzero
    have hchunk : chunkSize cfg < 2^32 := cfg.chunk.init_lt
    refine hnew (finds_newChunk raw mem (Nat.pos_of_ne_zero hzero) ?_)
    simp only [u64,u32] at *
    omega

theorem Needed.not_wasted (h : Needed cfg s size) (hzero : u32 size = 0)
    (hsmall : u64 (2*size) ≤ chunkSize cfg) : ∃ c ∈ s.heapChunks, Finds cfg c (u32 size) := by
  have hchunk : chunkSize cfg < 2^32 := cfg.chunk.init_lt
  rcases h with hlarge | hfound | ⟨hpos,hhalf,-⟩
  · omega
  · exact hfound
  · simp only [u64,u32] at *
    omega

/-- Exactly the calls that are needed add chunks only for their request. -/
theorem growsForRequest_iff (hI : Inv cfg s) (hlt : size < 2^64) :
    GrowsForRequest cfg s size ↔ Needed cfg s size := by
  have hchunk : chunkSize cfg < 2^32 := cfg.chunk.init_lt
  constructor
  · intro hgrows
    by_contra hneeded
    rw [Needed,not_or,not_or] at hneeded
    obtain ⟨hsmall,hno,hroom⟩ := hneeded
    obtain ⟨raw,hraw⟩ := exists_fresh cfg s (rawSize cfg)
    obtain ⟨t,a,hcall⟩ := @allocate_total cfg s size (some (raw,fun _ => 0)) none hI
      ⟨by simpa using hraw,by simp,by simp⟩
    have hmore : s.heapChunks.length < t.heapChunks.length := by
      cases allocate_growth hI hcall with
      | kept _ hwhy =>
        rcases hwhy with hlarge | hfound | hnew
        · exact absurd hlarge hsmall
        · exact absurd hfound hno
        · cases hnew
      | grown old c ptr _ _ hchunks hlen => simp [hchunks,hlen]
      | wasted _ _ _ hlen => omega
    obtain ⟨hall,old,c,ptr,room,hchunks,-,rfl,hmem,hle⟩ := hgrows _ _ _ _ hcall hmore
    obtain ⟨b,hb,hpair⟩ := List.mem_map.mp hmem
    obtain ⟨rfl,rfl⟩ := Prod.mk.inj hpair
    have hplaced := ((allocate_inv hI hcall).chunks c (by rw [hchunks]; simp)).inv.placed b hb
    have hsize := hplaced.size_lt
    refine hroom ⟨?_,by omega,hall⟩
    rcases allocate_ptr hI hcall rfl with ⟨hnone,-⟩ | ⟨-,hpos,-⟩
    · cases hnone
    · exact Nat.pos_of_ne_zero (by rintro rfl; exact absurd hpos (by decide))
  · intro hneeded newAt mallocAt t a hcall hmore
    cases allocate_growth hI hcall with
    | kept hlen => omega
    | grown old c ptr hsmall hno hchunks hlen ha hmem =>
      rcases hneeded with hlarge | ⟨c,hc,hfound⟩ | ⟨hpos,hhalf,hall⟩
      · omega
      · exact absurd hfound (hno c hc)
      · refine ⟨hall,old,c,ptr,_,hchunks,hlen,ha,hmem,?_⟩
        rw [alignSize_eq]
        simp only [u64,u32] at *
        omega
    | wasted hzero hsmall hno =>
      obtain ⟨c,hc,hfound⟩ := hneeded.not_wasted hzero hsmall
      exact absurd hfound (hno c hc)

end Call

section Runs

variable (cfg : Config)

/-- The heap and the number of requests that a chunk served. -/
def counted : TransitionSystem (State × ℕ) Event where
  init x := x = (⟨[],[]⟩,0)
  step x e :=
    match e with
    | .allocate size newAt mallocAt =>
      (allocate cfg x.1 size.toNat newAt mallocAt).map fun r => (r.1,x.2+r.2.servedByChunk)
    | e => (step cfg x.1 e).map fun s => (s,x.2)

/-- The allocations of a run are needed in the states they are made in. -/
def AllNeeded (x : State × ℕ) : Event → Prop
  | .allocate size _ _ => Needed cfg x.1 size.toNat
  | _ => True

variable {cfg} {x y : State × ℕ} {e : Event}

theorem counted_step (h : (counted cfg).step x e = some y) : step cfg x.1 e = some y.1 := by
  cases e with
  | allocate size newAt mallocAt =>
    obtain ⟨r,hr,rfl⟩ := Option.map_eq_some_iff.mp h
    rw [step,hr,Option.map_some]
  | deallocate p =>
    obtain ⟨s,hs,rfl⟩ := Option.map_eq_some_iff.mp h
    exact hs
  | write p i v =>
    obtain ⟨s,hs,rfl⟩ := Option.map_eq_some_iff.mp h
    exact hs

theorem length_of_raws {s t : State} (h : t.heapChunks.map (·.raw) = s.heapChunks.map (·.raw)) :
    t.heapChunks.length = s.heapChunks.length := by
  have := congrArg List.length h
  rwa [List.length_map,List.length_map] at this

theorem step_growth (hI : Inv cfg x.1) (hle : x.1.heapChunks.length ≤ x.2) (hok : AllNeeded cfg x e)
    (h : (counted cfg).step x e = some y) : y.1.heapChunks.length ≤ y.2 := by
  cases e with
  | allocate size newAt mallocAt =>
    obtain ⟨⟨t,a⟩,hcall,rfl⟩ := Option.map_eq_some_iff.mp h
    cases allocate_growth hI hcall with
    | kept hlen =>
      dsimp only
      omega
    | grown old c ptr _ _ hchunks hlen ha =>
      subst ha
      simp only [hchunks,List.length_append,List.length_singleton,hlen,Answer.servedByChunk]
      omega
    | wasted hzero hsmall hno =>
      obtain ⟨c,hc,hfound⟩ := Needed.not_wasted hok hzero hsmall
      exact absurd hfound (hno c hc)
  | deallocate p =>
    obtain ⟨s,hs,rfl⟩ := Option.map_eq_some_iff.mp h
    obtain ⟨⟨t,ok⟩,hd,rfl⟩ := Option.map_eq_some_iff.mp hs
    exact (length_of_raws (deallocate_inv hI hd).2).trans_le hle
  | write p i v =>
    obtain ⟨s,hs,rfl⟩ := Option.map_eq_some_iff.mp h
    obtain ⟨cs,hw,rfl⟩ := Option.map_eq_some_iff.mp hs
    exact (length_of_raws (t:=⟨cs,x.1.mallocs⟩) (writeIn_inv hI.chunks hw).2).trans_le hle

/-- In a run whose allocations are needed there are never more chunks than served requests. -/
theorem length_le_of_allNeeded (h : (counted cfg).ReachableBy (AllNeeded cfg) x) :
    x.1.heapChunks.length ≤ x.2 := by
  have hboth : Inv cfg x.1 ∧ x.1.heapChunks.length ≤ x.2 := by
    refine TransitionSystem.ReachableBy.invariant
      (P := fun x => Inv cfg x.1 ∧ x.1.heapChunks.length ≤ x.2) ?_ ?_ h
    · rintro x rfl
      exact ⟨inv_of_reachable (.init rfl),le_rfl⟩
    · exact fun x e y hx hok hs => ⟨step_inv hx.1 (counted_step hs),step_growth hx.1 hx.2 hok hs⟩
  exact hboth.2

/-- In every reachable state a call of `allocate` adds chunks only for its request if and only if it
is needed. In a run of such calls there are never more chunks than requests served from a chunk. -/
theorem growth_iff (cfg : Config) :
    (∀ s, (system cfg).Reachable s → ∀ size : UInt64,
      GrowsForRequest cfg s size.toNat ↔ Needed cfg s size.toNat) ∧
    ∀ x, (counted cfg).ReachableBy (AllNeeded cfg) x → x.1.heapChunks.length ≤ x.2 :=
  ⟨fun _ hs size => growsForRequest_iff (inv_of_reachable hs) size.toNat_lt,fun _ => length_le_of_allNeeded⟩

/-- Two requests for a quarter of a megabyte: the first leaves 63 pages of its chunk. -/
theorem growth_iff_two : ∃ x y, (counted twoBlocks).step (⟨[],[]⟩,0)
      (.allocate 262144 (some (4096,fun _ => 0)) none) = some x ∧
    (counted twoBlocks).step x (.allocate 262144 (some (1000000,fun _ => 0)) none) = some y ∧
    y.1.heapChunks.length = 2 ∧ y.2 = 2 ∧ GrowsForRequest twoBlocks x.1 262144 ∧
    y.1.heapChunks.length ≤ y.2 := by
  have hfirst : ((counted twoBlocks).step (⟨[],[]⟩,0) (.allocate 262144 (some (4096,fun _ => 0)) none)).map
      (fun x => x.1.heapChunks.map fun c => c.chunk.heap.blocks 0) = some [0] := by decide +kernel
  obtain ⟨x,hx,hblocks⟩ := Option.map_eq_some_iff.mp hfirst
  have hsecond : (((counted twoBlocks).step (⟨[],[]⟩,0) (.allocate 262144 (some (4096,fun _ => 0)) none)).bind
      fun x => (counted twoBlocks).step x (.allocate 262144 (some (1000000,fun _ => 0)) none)).map
      (fun y => (y.1.heapChunks.length,y.2)) = some (2,2) := by decide +kernel
  rw [hx,Option.bind_some] at hsecond
  obtain ⟨y,hy,hcounts⟩ := Option.map_eq_some_iff.mp hsecond
  simp only [Prod.mk.injEq] at hcounts
  obtain ⟨hlength,hserved⟩ := hcounts
  have hneeded : Needed twoBlocks x.1 (262144 : UInt64).toNat := by
    refine .inr (.inr ⟨by decide,by decide,fun c hc => ?_⟩)
    have hzero : c.chunk.heap.blocks 0 ∈ [0] := hblocks ▸ List.mem_map_of_mem hc
    rintro (⟨hsmall,-⟩ | ⟨start,hle,hrun⟩)
    · exact absurd hsmall (by decide)
    · -- every run of 65 pages has page 63 in it
      have hpages : requestPages twoBlocks.chunk (requestSize (262144 : UInt64).toNat) = 65 := by decide
      have hall : twoBlocks.chunk.numPages = 128 := by decide
      have hbit := hrun 63 (by omega) (by omega)
      simp [bit,List.mem_singleton.mp hzero] at hbit
  have hreach : (counted twoBlocks).ReachableBy (AllNeeded twoBlocks) x :=
    .step (.init rfl) (e:=.allocate 262144 _ _) (.inr (.inr ⟨by decide,by decide,by simp⟩)) hx
  have hgrows := (growth_iff twoBlocks).1 x.1 (.step (.init rfl)
    (e:=.allocate 262144 (some (4096,fun _ => 0)) none) trivial (counted_step hx)) 262144
  exact ⟨x,y,hx,hy,hlength,hserved,hgrows.mpr hneeded,
    (growth_iff twoBlocks).2 y (hreach.step (e:=.allocate 262144 _ _) hneeded hy)⟩
/-- A request for nothing adds a chunk that serves nobody. -/
theorem not_growth_zero : ¬∀ cfg,
    (∀ s, (system cfg).Reachable s → ∀ size : UInt64, GrowsForRequest cfg s size.toNat) ∧
    ∀ x, (counted cfg).Reachable x → x.1.heapChunks.length ≤ x.2 := by
  intro hall
  have hrun : ((counted twoBlocks).exec (⟨[],[]⟩,0) [.allocate 0 (some (4096,fun _ => 0)) none]).map
      (fun x => (x.1.heapChunks.length,x.2)) = some (1,0) := by decide
  obtain ⟨x,hx,hcounts⟩ := Option.map_eq_some_iff.mp hrun
  obtain ⟨hchunks,hserved⟩ := Prod.mk.inj hcounts
  have hle := (hall twoBlocks).2 x
    (TransitionSystem.ReachableBy.exec (fun _ _ _ => trivial) (.init rfl) hx)
  omega

end Runs

end Heap
end SdkCp
