import SdkCp.HeapAllocatorBits

/-! The search of `heap_allocator` for a run of free pages. It ends, and it finds a run if
and only if there is one among the pages it sees: where a run is pending at the end of a
block of 64 pages and the next block starts with a used page, the first free run of that
block is dropped together with the pending one. The end of a run is computed in 32 bits, and
wraps around only for more than 2^32-64 pages. -/
namespace SdkCp
namespace HeapAllocator

open Bytes Bitmap

/-- Page `i` belongs to the first run of free pages of its block. -/
def InFirstRun (blocks : ℕ → BitVec 64) (i : ℕ) : Prop :=
  ∃ k, 64*(i/64) ≤ k ∧ k ≤ i ∧ (∀ j, 64*(i/64) ≤ j → j < k → bit blocks j = false) ∧
    ∀ j, k ≤ j → j ≤ i → bit blocks j = true

/-- The block's first free run is dropped: its first page is used, and the last page of the
block before it is free and not itself in a dropped run. -/
def Skips (blocks : ℕ → BitVec 64) : ℕ → Prop
  | 0 => False
  | k+1 => bit blocks (64*(k+1)) = false ∧ bit blocks (64*k+63) = true ∧
      ¬(Skips blocks k ∧ InFirstRun blocks (64*k+63))

/-- The free pages that the search looks at. -/
def Seen (blocks : ℕ → BitVec 64) (i : ℕ) : Prop :=
  bit blocks i = true ∧ ¬(Skips blocks (i/64) ∧ InFirstRun blocks i)

/-- The pages `start`, ..., `start+n-1` all have the property. -/
def Run (P : ℕ → Prop) (start n : ℕ) : Prop := ∀ i, start ≤ i → i < start+n → P i

/-- No run of `n` seen pages ends at `finish` or before. -/
def NoRun (blocks : ℕ → BitVec 64) (n finish : ℕ) : Prop :=
  ∀ start, start+n ≤ finish → ¬Run (Seen blocks) start n

/-- A run that is seen starts at `i`, and its end in the block of `i` wraps around. -/
def Wraps (blocks : ℕ → BitVec 64) (n i : ℕ) : Prop :=
  Seen blocks i ∧ (∀ j, j+1 = i → ¬Seen blocks j) ∧ 2^32 ≤ i%64+n

/-- No run wraps around on the pages from `lo` to `hi`. -/
def NoWrap (blocks : ℕ → BitVec 64) (n lo hi : ℕ) : Prop :=
  ∀ i, lo ≤ i → i < hi → ¬Wraps blocks n i

section Seen

variable {blocks : ℕ → BitVec 64} {k ix lo hi : ℕ}

theorem skips_succ : Skips blocks (k+1) ↔ bit blocks (64*(k+1)) = false ∧ Seen blocks (64*k+63) := by
  rw [Skips,Seen,show (64*k+63)/64 = k by omega]

theorem Seen.free {i : ℕ} (h : Seen blocks i) : bit blocks i = true := h.1

theorem not_skips_of_free (h : bit blocks (64*ix) = true) : ¬Skips blocks ix := by
  cases ix with
  | zero => exact id
  | succ k =>
    rw [skips_succ,h]
    simp

theorem seen_of_not_skips (h : ¬Skips blocks ix) {j : ℕ} (hj : j < 64) :
    Seen blocks (64*ix+j) ↔ (blocks ix).getLsbD j = true := by
  rw [Seen,bit_word blocks ix hj,show (64*ix+j)/64 = ix by omega]
  exact and_iff_left fun hs => h hs.1

theorem inFirstRun_iff (hlow : ∀ j < lo, (blocks ix).getLsbD j = false) (hlt : lo < hi) (hhi : hi ≤ 64)
    (hrun : ∀ j, lo ≤ j → j < hi → (blocks ix).getLsbD j = true) (hend : (blocks ix).getLsbD hi = false)
    {j : ℕ} (hj : j < 64) : InFirstRun blocks (64*ix+j) ↔ lo ≤ j ∧ j < hi := by
  have hblock : (64*ix+j)/64 = ix := by omega
  constructor
  · rintro ⟨k,hk,hkj,hbelow,hset⟩
    rw [hblock] at hk hbelow
    obtain ⟨p,rfl⟩ : ∃ p, k = 64*ix+p := ⟨k-64*ix,by omega⟩
    have hp : lo ≤ p := by
      by_contra hlt'
      have hbit := hset (64*ix+p) le_rfl hkj
      rw [bit_word blocks ix (by omega),hlow p (by omega)] at hbit
      exact Bool.noConfusion hbit
    refine ⟨by omega,?_⟩
    by_contra hge
    rcases Nat.lt_or_ge hi 64 with h64 | h64
    · rcases Nat.lt_or_ge hi p with hpast | hin
      · have hbit := hbelow (64*ix+lo) (by omega) (by omega)
        rw [bit_word blocks ix (by omega),hrun lo le_rfl hlt] at hbit
        exact Bool.noConfusion hbit
      · have hbit := hset (64*ix+hi) (by omega) (by omega)
        rw [bit_word blocks ix h64,hend] at hbit
        exact Bool.noConfusion hbit
    · omega
  · rintro ⟨hlo,hhij⟩
    refine ⟨64*ix+lo,by omega,by omega,fun p hp hp' => ?_,fun p hp hp' => ?_⟩
    · obtain ⟨q,rfl⟩ : ∃ q, p = 64*ix+q := ⟨p-64*ix,by omega⟩
      rw [bit_word blocks ix (by omega)]
      exact hlow q (by omega)
    · obtain ⟨q,rfl⟩ : ∃ q, p = 64*ix+q := ⟨p-64*ix,by omega⟩
      rw [bit_word blocks ix (by omega)]
      exact hrun q (by omega) (by omega)

theorem seen_of_skips (h : Skips blocks ix) (hlow : ∀ j < lo, (blocks ix).getLsbD j = false)
    (hlt : lo < hi) (hhi : hi ≤ 64) (hrun : ∀ j, lo ≤ j → j < hi → (blocks ix).getLsbD j = true)
    (hend : (blocks ix).getLsbD hi = false) {j : ℕ} (hj : j < 64) :
    Seen blocks (64*ix+j) ↔ hi ≤ j ∧ (blocks ix).getLsbD j = true := by
  rw [Seen,bit_word blocks ix hj,show (64*ix+j)/64 = ix by omega,
    inFirstRun_iff hlow hlt hhi hrun hend hj]
  constructor
  · rintro ⟨hbit,hout⟩
    refine ⟨?_,hbit⟩
    by_contra hlt'
    have hlo : lo ≤ j := by
      by_contra hbelow
      rw [hlow j (by omega)] at hbit
      exact Bool.noConfusion hbit
    exact hout ⟨h,hlo,by omega⟩
  · rintro ⟨hge,hbit⟩
    exact ⟨hbit,fun hin => by omega⟩

end Seen

section NoRun

variable {blocks : ℕ → BitVec 64} {n a b : ℕ}

theorem NoRun.anti (h : NoRun blocks n b) (hab : a ≤ b) : NoRun blocks n a :=
  fun start hfit => h start (by omega)

theorem NoRun.unseen (hn : 0 < n) (h : NoRun blocks n a) (ha : ¬Seen blocks a) : NoRun blocks n (a+1) := by
  intro start hfit hrun
  rcases Nat.lt_or_ge (start+n) (a+1) with hlt | hge
  · exact h start (by omega) hrun
  · exact ha (hrun a (by omega) (by omega))

theorem NoRun.gap (hn : 0 < n) (h : NoRun blocks n a) (hab : a ≤ b)
    (hgap : ∀ i, a ≤ i → i < b → ¬Seen blocks i) : NoRun blocks n b := by
  induction b, hab using Nat.le_induction with
  | base => exact h
  | succ b hab ih => exact (ih fun i hi hi' => hgap i hi (by omega)).unseen hn (hgap b hab (by omega))

theorem NoRun.short (h : NoRun blocks n a) (ha : ∀ i, i+1 = a → ¬Seen blocks i) (hshort : b < a+n) :
    NoRun blocks n b := by
  intro start hfit hrun
  rcases Nat.lt_or_ge (start+n) (a+1) with hlt | hge
  · exact h start (by omega) hrun
  · exact ha (a-1) (by omega) (hrun (a-1) (by omega) (by omega))

theorem not_wraps_of_seen {i : ℕ} (h : Seen blocks i) : ¬Wraps blocks n (i+1) :=
  fun hw => hw.2.1 i rfl h

theorem noWrap_run (ha : ¬Wraps blocks n a) (hrun : ∀ i, a ≤ i → i < b → Seen blocks i) :
    NoWrap blocks n a (b+1) := by
  intro i hi hi'
  rcases Nat.eq_or_lt_of_le hi with rfl | hlt
  · exact ha
  · obtain ⟨j,rfl⟩ := Nat.exists_eq_add_of_lt hlt
    exact not_wraps_of_seen (hrun (a+j) (by omega) (by omega))

theorem NoWrap.trans {lo mid hi : ℕ} (h : NoWrap blocks n lo mid) (h' : NoWrap blocks n mid hi) :
    NoWrap blocks n lo hi := by
  intro i hi hi'
  rcases Nat.lt_or_ge i mid with hlt | hge
  · exact h i hi hlt
  · exact h' i hge hi'

theorem noWrap_of_le (hn : n+64 ≤ 2^32) (lo hi : ℕ) : NoWrap blocks n lo hi := by
  intro i _ _ hw
  have := hw.2.2
  omega

end NoRun

section Scan

/-- `bit_scan_forward_64` finds the lowest set bit, and none only in zero. -/
theorem bitScanForward64_cases (value : BitVec 64) :
    (bitScanForward64 value = 2^64-1 ∧ ∀ j, value.getLsbD j = false) ∨
    ∃ k < 64, bitScanForward64 value = k ∧ value.getLsbD k = true ∧ ∀ j < k, value.getLsbD j = false := by
  unfold bitScanForward64
  by_cases hzero : value = 0
  · exact .inl ⟨if_neg (not_not_intro hzero),fun j => by rw [hzero]; exact BitVec.getLsbD_zero⟩
  right
  rw [if_pos hzero]
  cases hf : (List.range 64).find? value.getLsbD with
  | none =>
    exfalso
    apply hzero
    apply BitVec.eq_of_getLsbD_eq
    intro i hi
    have := List.find?_eq_none.mp hf i (List.mem_range.mpr hi)
    simpa using this
  | some k =>
    obtain ⟨hk,hmem,hbefore⟩ := List.find?_range_eq_some.mp hf
    refine ⟨k,List.mem_range.mp hmem,rfl,hk,fun j hj => ?_⟩
    simpa using hbefore j hj

theorem getLsbD_stMask (p i : ℕ) : (stMask p).getLsbD i = decide (p ≤ i ∧ i < 64) := by
  rw [stMask,BitVec.getLsbD_shiftLeft,BitVec.getLsbD_allOnes,← decide_not,← Bool.decide_and,
    ← Bool.decide_and]
  exact decide_eq_decide.mpr (by omega)

/-- Where the run of set bits from `k` ends, if it is shorter than asked for. -/
theorem exists_runEnd {w : BitVec 64} {k stop : ℕ} (hk : w.getLsbD k = true)
    (hnot : ¬∀ j, k ≤ j → j < stop → w.getLsbD j = true) :
    ∃ e, k < e ∧ e < stop ∧ (∀ j, k ≤ j → j < e → w.getLsbD j = true) ∧ w.getLsbD e = false := by
  push Not at hnot
  obtain ⟨j,hkj,hjs,hj⟩ := hnot
  have hex : ∃ j, k ≤ j ∧ w.getLsbD j = false := ⟨j,hkj,by simpa using hj⟩
  obtain ⟨hke,he⟩ := Nat.find_spec hex
  refine ⟨Nat.find hex,?_,?_,fun i hi hi' => ?_,he⟩
  · rcases Nat.lt_or_eq_of_le hke with h | h
    · exact h
    · rw [← h,hk] at he
      exact Bool.noConfusion he
  · exact (Nat.find_le ⟨hkj,by simpa using hj⟩).trans_lt hjs
  · by_contra hi0
    exact Nat.find_min hex hi' ⟨hi,by simpa using hi0⟩

/-- What the search knows before block `blockIx`: the last page before it is in no run, or a
run reaches this block and is still too short, or there is a whole run. -/
inductive Searched (blocks : ℕ → BitVec 64) (n blockIx : ℕ) : ℕ → ℕ → Prop
  | nothing : NoRun blocks n (64*blockIx) → (∀ i, i+1 = 64*blockIx → ¬Seen blocks i) →
      Searched blocks n blockIx n invalidPageIx
  | running {remains start : ℕ} : 0 < remains → start+n = 64*blockIx+remains → start < 64*blockIx →
      start ≠ invalidPageIx → Run (Seen blocks) start (64*blockIx-start) →
      (∀ i, i+1 = start → ¬Seen blocks i) → NoRun blocks n (64*blockIx) →
      Searched blocks n blockIx remains start
  | found {start : ℕ} : start+n ≤ 64*blockIx → start ≠ invalidPageIx → Run (Seen blocks) start n →
      Searched blocks n blockIx 0 start

variable {blocks : ℕ → BitVec 64} {n blockIx : ℕ}

/-- What the search knows before block `blockIx` when it started at page `lo`: no run has wrapped
around, or it has ended at the first one that does. -/
inductive Scanned (blocks : ℕ → BitVec 64) (n lo blockIx : ℕ) : ℕ → ℕ → Prop
  | searched {remains start : ℕ} : Searched blocks n blockIx remains start →
      NoWrap blocks n lo (64*blockIx) → Scanned blocks n lo blockIx remains start
  | wrapped {start : ℕ} : Wraps blocks n start → start < 64*blockIx → Scanned blocks n lo blockIx 0 start

theorem Scanned.extend {lo lo' remains start : ℕ} (h : Scanned blocks n lo blockIx remains start)
    (hlo : NoWrap blocks n lo' lo) : Scanned blocks n lo' blockIx remains start := by
  cases h with
  | searched hs hnowrap => exact .searched hs (hlo.trans hnowrap)
  | wrapped hw hlt => exact .wrapped hw hlt

/-- A block whose bits below `low` are gone: above them it holds what is seen of its pages, and
up to them there was no run. -/
structure Rest (blocks : ℕ → BitVec 64) (n blockIx low : ℕ) (block : BitVec 64) : Prop where
  low_le : low ≤ 64
  clear : ∀ j < low, block.getLsbD j = false
  seen : ∀ j, low ≤ j → j < 64 → (block.getLsbD j = true ↔ Seen blocks (64*blockIx+j))
  noRun : NoRun blocks n (64*blockIx+low)
  edge : ∀ i, i+1 = 64*blockIx+low → ¬Seen blocks i

section Rest

variable {low k e : ℕ} {block : BitVec 64}

theorem Rest.unseen (h : Rest blocks n blockIx low block) (hk : k ≤ 64)
    (hbelow : ∀ j < k, block.getLsbD j = false) {i : ℕ} (hi : 64*blockIx+low ≤ i) (hi' : i < 64*blockIx+k) :
    ¬Seen blocks i := by
  intro hs
  obtain ⟨j,rfl⟩ : ∃ j, i = 64*blockIx+j := ⟨i-64*blockIx,by omega⟩
  rw [← h.seen j (by omega) (by omega),hbelow j (by omega)] at hs
  exact Bool.noConfusion hs

theorem Rest.before (h : Rest blocks n blockIx low block) (hn : 0 < n) (hlow : low ≤ k) (hk : k ≤ 64)
    (hbelow : ∀ j < k, block.getLsbD j = false) :
    NoRun blocks n (64*blockIx+k) ∧ ∀ i, i+1 = 64*blockIx+k → ¬Seen blocks i := by
  have hunseen : ∀ i, 64*blockIx+low ≤ i → i < 64*blockIx+k → ¬Seen blocks i :=
    fun i hi hi' => h.unseen hk hbelow hi hi'
  refine ⟨h.noRun.gap hn (by omega) hunseen,fun i hi => ?_⟩
  rcases Nat.lt_or_ge i (64*blockIx+low) with hlt | hge
  · exact h.edge i (by omega)
  · exact hunseen i hge (by omega)

theorem rest_clear (hn : 0 < n) (hke : k < e) (he : e < 64)
    (hseen : ∀ j, e ≤ j → j < 64 → (block.getLsbD j = true ↔ Seen blocks (64*blockIx+j)))
    (hbelow : ∀ j < k, block.getLsbD j = false)
    (hrun : ∀ j, k ≤ j → j < e → block.getLsbD j = true) (hend : block.getLsbD e = false)
    (hnorun : NoRun blocks n (64*blockIx+e)) : Rest blocks n blockIx (e+1) (clearLowestRun block) := by
  have hclear := getLsbD_clearLowestRun hbelow hke hrun hend
  have hunseen : ¬Seen blocks (64*blockIx+e) := by
    rw [← hseen e le_rfl he,hend]
    simp
  refine ⟨by omega,fun j hj => ?_,fun j hj hj' => ?_,hnorun.unseen hn hunseen,fun i hi => ?_⟩
  · rw [hclear]
    rcases Nat.lt_or_eq_of_le (Nat.le_of_lt_succ hj) with hlt | rfl
    · rw [decide_eq_false (by omega),Bool.false_and]
    · rw [hend,Bool.and_false]
  · rw [hclear,decide_eq_true (by omega),Bool.true_and]
    exact hseen j (by omega) hj'
  · rw [show i = 64*blockIx+e by omega]
    exact hunseen

/-- Up to the end of the run from `k` nothing wraps around if that run does not. -/
theorem Rest.noWrap (h : Rest blocks n blockIx low block) (hlow : low ≤ k) (hk : k < 64)
    (hbelow : ∀ j < k, block.getLsbD j = false) (hnowrap : k+n < 2^32) (he : e ≤ 64)
    (hset : ∀ j, k ≤ j → j < e → block.getLsbD j = true) :
    NoWrap blocks n (64*blockIx+low) (64*blockIx+e+1) := by
  have hbefore : NoWrap blocks n (64*blockIx+low) (64*blockIx+k) :=
    fun i hi hi' hw => h.unseen hk.le hbelow hi hi' hw.1
  refine hbefore.trans (noWrap_run (fun hw => ?_) fun i hi hi' => ?_)
  · have hlate := hw.2.2
    omega
  · obtain ⟨j,rfl⟩ : ∃ j, i = 64*blockIx+j := ⟨i-64*blockIx,by omega⟩
    exact (h.seen j (by omega) (by omega)).mp (hset j (by omega) (by omega))

/-- The pages from the lowest set bit on, up to the end of the run or of the block, are seen. -/
theorem Rest.scanned (h : Rest blocks n blockIx low block) (hn : 0 < n) (hix : 64*blockIx+64 < 2^32)
    (hlow : low ≤ k) (hk : k < 64) (hbelow : ∀ j < k, block.getLsbD j = false) (hnowrap : k+n < 2^32)
    (hbits : ∀ j, k ≤ j → j < min (k+n) 64 → block.getLsbD j = true) :
    Scanned blocks n (64*blockIx+low) (blockIx+1) (n-(min (k+n) 64-k)) (64*blockIx+k) := by
  obtain ⟨hnorun,hedge⟩ := h.before hn hlow hk.le hbelow
  have hinvalid : 64*blockIx+k ≠ invalidPageIx := by
    simp only [invalidPageIx]
    omega
  have hrun : ∀ i, 64*blockIx+k ≤ i → i < 64*blockIx+min (k+n) 64 → Seen blocks i := by
    intro i hi hi'
    obtain ⟨j,rfl⟩ : ∃ j, i = 64*blockIx+j := ⟨i-64*blockIx,by omega⟩
    exact (h.seen j (by omega) (by omega)).mp (hbits j (by omega) (by omega))
  rcases Nat.lt_or_ge 64 (k+n) with hmore | hdone
  · rw [min_eq_right hmore.le] at hrun hbits ⊢
    have hnone := h.noWrap hlow hk hbelow hnowrap le_rfl hbits
    refine .searched ?_ fun i hi hi' => hnone i hi (by omega)
    exact .running (by omega) (by omega) (by omega) hinvalid (fun i hi hi' => hrun i hi (by omega)) hedge
      (hnorun.short hedge (by omega))
  · rw [min_eq_left hdone] at hrun ⊢
    have h0 : n-(k+n-k) = 0 := by omega
    rw [h0]
    refine .searched ?_ (noWrap_of_le (by omega) _ _)
    exact .found (by omega) hinvalid fun i hi hi' => hrun i hi (by omega)

theorem startPage_eq (hk : k < 64) (hix : 64*blockIx+64 < 2^32) :
    u32 ((blockIx <<< kFlagBound)+k) = 64*blockIx+k := by
  rw [shiftLeft_kFlagBound,u32_eq (by omega)]
  omega

theorem and_runMask_iff (block : BitVec 64) (k e : ℕ) :
    block &&& (stMask k &&& lowMask e) = stMask k &&& lowMask e ↔
      ∀ j, k ≤ j → j < min e 64 → block.getLsbD j = true := by
  rw [and_eq_mask_iff]
  refine forall_congr' fun j => ?_
  rw [BitVec.getLsbD_and,getLsbD_stMask,getLsbD_lowMask,← Bool.decide_and,decide_eq_true_eq]
  exact ⟨fun hall hj hj' => hall (by omega),fun hall hj => hall (by omega) (by omega)⟩

theorem scanBlock_round (hk : k < 64) (hpos : bitScanForward64 block = k) (hnowrap : k+n < 2^32)
    (hix : 64*blockIx+64 < 2^32) (rounds : ℕ) : scanBlock n blockIx (rounds+1) block n invalidPageIx =
      if block &&& (stMask k &&& lowMask (k+n)) = stMask k &&& lowMask (k+n) then
        some (n-(min (k+n) 64-k),64*blockIx+k)
      else scanBlock n blockIx rounds (clearLowestRun block) n invalidPageIx := by
  have hend : u32 (k+n) = k+n := u32_eq hnowrap
  have hlen : sub32 (min (k+n) 64) k = min (k+n) 64-k := sub32_eq (by omega) (by omega)
  have hrem : sub32 n (min (k+n) 64-k) = n-(min (k+n) 64-k) := sub32_eq (by omega) (by omega)
  rw [scanBlock]
  simp only [hpos,hend,kHVal_eq,hlen,hrem,startPage_eq hk hix]
  rw [if_pos (show k ≠ 2^64-1 by omega),if_neg (by simp)]

theorem scanBlock_wraps (hk : k < 64) (hpos : bitScanForward64 block = k) (hwrap : 2^32 ≤ k+n)
    (hn32 : n < 2^32) (hix : 64*blockIx+64 < 2^32) (rounds : ℕ) :
    scanBlock n blockIx (rounds+1) block n invalidPageIx = some (0,64*blockIx+k) := by
  have hend : u32 (k+n) = k+n-2^32 := by
    rw [u32]
    omega
  have hlen : sub32 (min (k+n-2^32) 64) k = n := by
    rw [sub32]
    omega
  have hrem : sub32 n n = 0 := by
    rw [sub32]
    omega
  have hmask : ∀ j, k ≤ j → j < min (k+n-2^32) 64 → block.getLsbD j = true := fun j hj hj' => by omega
  rw [scanBlock]
  simp only [hpos,hend,kHVal_eq,hlen,hrem,startPage_eq hk hix]
  rw [if_pos (show k ≠ 2^64-1 by omega),if_neg (by simp),if_pos ((and_runMask_iff block k _).mpr hmask)]

/-- Searching one block from scratch. Each round removes the lowest run. -/
theorem scanBlock_nothing (hn : 0 < n) (hn32 : n < 2^32) (hix : 64*blockIx+64 < 2^32)
    {rounds : ℕ} (hrounds : 65 ≤ rounds+low) (h : Rest blocks n blockIx low block) :
    ∃ r, scanBlock n blockIx rounds block n invalidPageIx = some r ∧
      Scanned blocks n (64*blockIx+low) (blockIx+1) r.1 r.2 := by
  have hle := h.low_le
  induction rounds generalizing low block with
  | zero => omega
  | succ rounds ih =>
    rcases bitScanForward64_cases block with ⟨hnone,hzero⟩ | ⟨k,hk,hpos,hbit,hbelow⟩
    · obtain ⟨hnorun,hedge⟩ := h.before hn hle le_rfl fun j _ => hzero j
      refine ⟨(n,invalidPageIx),by rw [scanBlock]; simp [hnone],.searched (.nothing hnorun hedge) ?_⟩
      exact fun i hi hi' hw => h.unseen le_rfl (fun j _ => hzero j) hi hi' hw.1
    have hlowk : low ≤ k := by
      by_contra hlt
      rw [h.clear k (by omega)] at hbit
      exact Bool.noConfusion hbit
    obtain ⟨hnorun,hedge⟩ := h.before hn hlowk hk.le hbelow
    rcases Nat.lt_or_ge (k+n) (2^32) with hnowrap | hwrap
    · have hmask := and_runMask_iff block k (k+n)
      rw [scanBlock_round hk hpos hnowrap hix rounds]
      split
      · rename_i hall
        exact ⟨_,rfl,h.scanned hn hix hlowk hk hbelow hnowrap (hmask.mp hall)⟩
      · rename_i hshort
        obtain ⟨e,hke,hstop,hset,hunset⟩ := exists_runEnd hbit (mt hmask.mpr hshort)
        have hnext := rest_clear hn hke (by omega) (fun j hj => h.seen j (by omega)) hbelow hset hunset
          (hnorun.short hedge (by omega))
        obtain ⟨r,hr,hscanned⟩ := ih (by omega) hnext hnext.low_le
        exact ⟨r,hr,hscanned.extend (h.noWrap hlowk hk hbelow hnowrap (by omega) hset)⟩
    · refine ⟨_,scanBlock_wraps hk hpos hwrap hn32 hix rounds,.wrapped ⟨?_,hedge,?_⟩ ?_⟩
      · exact (h.seen k hlowk hk).mp hbit
      · rw [show (64*blockIx+k)%64 = k by omega]
        exact hwrap
      · omega

theorem not_wraps_of_reached {start : ℕ} (hstart : start < 64*blockIx)
    (hrun : Run (Seen blocks) start (64*blockIx-start)) : ¬Wraps blocks n (64*blockIx) := by
  intro hw
  exact hw.2.1 (64*blockIx-1) (by omega) (hrun _ (by omega) (by omega))

/-- The first round on a block that a short run reaches: the run goes on at bit 0 and ends, or
the lowest run of the block is dropped with it. -/
theorem Rest.after (hn : 0 < n) {remains start : ℕ} (hreach : start+n = 64*blockIx+remains)
    (hstart : start < 64*blockIx) (hrun : Run (Seen blocks) start (64*blockIx-start))
    (hedge : ∀ i, i+1 = start → ¬Seen blocks i) (hnorun : NoRun blocks n (64*blockIx))
    (hk : k < 64) (hbit : (blocks blockIx).getLsbD k = true)
    (hbelow : ∀ j < k, (blocks blockIx).getLsbD j = false)
    (hnot : ¬∀ j < min remains 64, (blocks blockIx).getLsbD j = true) :
    ∃ low, 0 < low ∧ Rest blocks n blockIx low (clearLowestRun (blocks blockIx)) ∧
      NoWrap blocks n (64*blockIx) (64*blockIx+low) := by
  rcases Nat.eq_zero_or_pos k with rfl | hkpos
  · have hfree : bit blocks (64*blockIx) = true := by
      rw [← hbit]
      exact bit_word blocks blockIx (j:=0) (by norm_num)
    obtain ⟨e,he,hstop,hset,hunset⟩ := @exists_runEnd _ _ (min remains 64) hbit
      fun hall => hnot fun j hj => hall j (by omega) hj
    have hseen : ∀ j < 64, (blocks blockIx).getLsbD j = true ↔ Seen blocks (64*blockIx+j) :=
      fun j hj => (seen_of_not_skips (not_skips_of_free hfree) hj).symm
    refine ⟨e+1,by omega,rest_clear hn he (by omega) (fun j _ hj => hseen j hj) hbelow hset hunset ?_,?_⟩
    · exact (hnorun.anti (by omega)).short hedge (by omega)
    · rw [← Nat.add_assoc]
      refine noWrap_run (not_wraps_of_reached hstart hrun) fun i hi hi' => ?_
      obtain ⟨j,rfl⟩ : ∃ j, i = 64*blockIx+j := ⟨i-64*blockIx,by omega⟩
      exact (hseen j (by omega)).mp (hset j (by omega) (by omega))
  · have hskips : Skips blocks blockIx := by
      obtain ⟨b,rfl⟩ : ∃ b, blockIx = b+1 := ⟨blockIx-1,by omega⟩
      refine skips_succ.mpr ⟨?_,hrun _ (by omega) (by omega)⟩
      rw [← hbelow 0 hkpos]
      exact bit_word blocks (b+1) (j:=0) (by norm_num)
    obtain ⟨e,hke,he,hset,hunset⟩ : ∃ e, k < e ∧ e ≤ 64 ∧
        (∀ j, k ≤ j → j < e → (blocks blockIx).getLsbD j = true) ∧ (blocks blockIx).getLsbD e = false := by
      by_cases hall : ∀ j, k ≤ j → j < 64 → (blocks blockIx).getLsbD j = true
      · exact ⟨64,hk,le_rfl,hall,BitVec.getLsbD_of_ge _ _ le_rfl⟩
      · obtain ⟨e,hke,he,hset,hunset⟩ := exists_runEnd hbit hall
        exact ⟨e,hke,he.le,hset,hunset⟩
    have hclear := getLsbD_clearLowestRun hbelow hke hset hunset
    have hseen : ∀ j < 64, Seen blocks (64*blockIx+j) ↔ e ≤ j ∧ (blocks blockIx).getLsbD j = true :=
      fun j hj => seen_of_skips hskips hbelow hke he hset hunset hj
    have hunseen : ∀ i, 64*blockIx ≤ i → i < 64*blockIx+e → ¬Seen blocks i := by
      intro i hi hi' hs
      obtain ⟨j,rfl⟩ : ∃ j, i = 64*blockIx+j := ⟨i-64*blockIx,by omega⟩
      have := ((hseen j (by omega)).mp hs).1
      omega
    refine ⟨e,by omega,⟨he,fun j hj => ?_,fun j hj hj' => ?_,?_,fun i hi => ?_⟩,
      fun i hi hi' hw => hunseen i hi hi' hw.1⟩
    · rw [hclear,decide_eq_false (by omega),Bool.false_and]
    · rw [hclear,hseen j hj',decide_eq_true hj,Bool.true_and]
      exact (and_iff_right hj).symm
    · exact hnorun.gap hn (by omega) hunseen
    · exact hunseen i (by omega) (by omega)

end Rest

section Reached

variable {remains start : ℕ}

theorem scanBlock_reached {k : ℕ} {block : BitVec 64} (hk : k < 64) (hscan : bitScanForward64 block = k)
    (hremains : remains < 2^32) (hvalid : start ≠ invalidPageIx) (rounds : ℕ) :
    scanBlock n blockIx (rounds+1) block remains start =
      if block &&& lowMask remains = lowMask remains then some (remains-min remains 64,start)
      else scanBlock n blockIx rounds (clearLowestRun block) n invalidPageIx := by
  have hrem : sub32 remains (min remains 64) = remains-min remains 64 := sub32_eq (by omega) (by omega)
  rw [scanBlock]
  simp only [hscan,kHVal_eq,hrem]
  rw [if_pos (show k ≠ 2^64-1 by omega),if_pos hvalid]

/-- The run that reaches a block goes on to its end, or to the end of the block. -/
theorem scanned_of_reached (hix : 64*blockIx+64 < 2^32) (hpos : 0 < remains)
    (hreach : start+n = 64*blockIx+remains) (hstart : start < 64*blockIx) (hvalid : start ≠ invalidPageIx)
    (hrun : Run (Seen blocks) start (64*blockIx-start)) (hedge : ∀ i, i+1 = start → ¬Seen blocks i)
    (hnorun : NoRun blocks n (64*blockIx))
    (hbits : ∀ j < min remains 64, (blocks blockIx).getLsbD j = true) :
    Scanned blocks n (64*blockIx) (blockIx+1) (remains-min remains 64) start := by
  have hfree : bit blocks (64*blockIx) = true := by
    rw [← hbits 0 (by omega)]
    exact bit_word blocks blockIx (j:=0) (by norm_num)
  have hseen : ∀ i, start ≤ i → i < 64*blockIx+min remains 64 → Seen blocks i := by
    intro i hi hi'
    rcases Nat.lt_or_ge i (64*blockIx) with hold | hnew
    · exact hrun i hi (by omega)
    obtain ⟨j,rfl⟩ : ∃ j, i = 64*blockIx+j := ⟨i-64*blockIx,by omega⟩
    exact (seen_of_not_skips (not_skips_of_free hfree) (by omega)).mpr (hbits j (by omega))
  rcases Nat.lt_or_ge 64 remains with hmore | hdone
  · rw [min_eq_right hmore.le] at hseen ⊢
    have hnone : NoWrap blocks n (64*blockIx) (64*blockIx+64+1) :=
      noWrap_run (not_wraps_of_reached hstart hrun) fun i hi hi' => hseen i (by omega) hi'
    refine .searched ?_ fun i hi hi' => hnone i hi (by omega)
    exact .running (by omega) (by omega) (by omega) hvalid (fun i hi hi' => hseen i hi (by omega))
      hedge ((hnorun.anti (by omega)).short hedge (by omega))
  · rw [min_eq_left hdone,Nat.sub_self]
    rw [min_eq_left hdone] at hseen
    refine .searched ?_ (noWrap_of_le (by omega) _ _)
    exact .found (by omega) hvalid fun i hi hi' => hseen i hi (by omega)

theorem scanBlock_spec (hn : 0 < n) (hn32 : n < 2^32) (hix : 64*blockIx+64 < 2^32)
    (hpos : 0 < remains) (hs : Searched blocks n blockIx remains start) :
    ∃ r, scanBlock n blockIx 65 (blocks blockIx) remains start = some r ∧
      Scanned blocks n (64*blockIx) (blockIx+1) r.1 r.2 := by
  cases hs with
  | nothing hnorun hedge =>
    have hskip : ¬Skips blocks blockIx := by
      cases blockIx with
      | zero => exact id
      | succ k =>
        rw [skips_succ]
        exact fun h => hedge _ (by omega) h.2
    have hrest : Rest blocks n blockIx 0 (blocks blockIx) :=
      ⟨by omega,by simp,fun j _ hj => (seen_of_not_skips hskip hj).symm,hnorun,hedge⟩
    exact scanBlock_nothing hn hn32 hix (by omega) hrest
  | found => omega
  | running _ hreach hstart hvalid hrun hedge hnorun =>
    have hmask : blocks blockIx &&& lowMask remains = lowMask remains ↔
        ∀ j < min remains 64, (blocks blockIx).getLsbD j = true := by
      rw [and_eq_mask_iff]
      refine forall_congr' fun j => ?_
      rw [getLsbD_lowMask,decide_eq_true_eq]
      exact ⟨fun hall hj => hall (by omega),fun hall hj => hall (by omega)⟩
    rcases bitScanForward64_cases (blocks blockIx) with ⟨hnone,hzero⟩ | ⟨k,hk,hscan,hbit,hbelow⟩
    · have hunseen : ∀ i, 64*blockIx ≤ i → i < 64*(blockIx+1) → ¬Seen blocks i := by
        intro i hi hi' hs
        obtain ⟨j,rfl⟩ : ∃ j, i = 64*blockIx+j := ⟨i-64*blockIx,by omega⟩
        have hfree := hs.free
        rw [bit_word blocks blockIx (by omega),hzero] at hfree
        exact Bool.noConfusion hfree
      refine ⟨(n,invalidPageIx),by rw [scanBlock]; simp [hnone],.searched (.nothing ?_ fun i hi => ?_)
        fun i hi hi' hw => hunseen i hi hi' hw.1⟩
      · exact hnorun.gap hn (by omega) hunseen
      · exact hunseen i (by omega) (by omega)
    rw [scanBlock_reached hk hscan (by omega) hvalid 64]
    split
    · rename_i hall
      exact ⟨_,rfl,scanned_of_reached hix hpos hreach hstart hvalid hrun hedge hnorun (hmask.mp hall)⟩
    · rename_i hnot
      obtain ⟨low,hlow,hrest,hnowrap⟩ := Rest.after hn hreach hstart hrun hedge hnorun hk hbit hbelow
        (mt hmask.mpr hnot)
      obtain ⟨r,hr,hscanned⟩ := scanBlock_nothing hn hn32 hix (show 65 ≤ 64+low by omega) hrest
      exact ⟨r,hr,hscanned.extend hnowrap⟩

end Reached

theorem scanBlocks_spec (hn : 0 < n) (hn32 : n < 2^32) {left blockIx remains start : ℕ}
    (hsize : 64*(blockIx+left) < 2^32) (hs : Scanned blocks n 0 blockIx remains start) :
    ∃ r, scanBlocks blocks n left blockIx remains start = some r ∧
      ∃ ix ≤ blockIx+left, (0 < r.1 → ix = blockIx+left) ∧ Scanned blocks n 0 ix r.1 r.2 := by
  induction left generalizing blockIx remains start with
  | zero => exact ⟨_,by rw [scanBlocks],blockIx,by omega,fun _ => rfl,hs⟩
  | succ left ih =>
    rw [scanBlocks]
    split
    · rename_i hpos
      cases hs with
      | searched hsearched hnowrap =>
        obtain ⟨r,hrun,hr⟩ := scanBlock_spec hn hn32 (by omega) hpos hsearched
        obtain ⟨q,hq,ix,hix,hlast,hscanned⟩ := ih (by omega) (hr.extend hnowrap)
        exact ⟨q,by rw [hrun]; exact hq,ix,by omega,fun h => by have := hlast h; omega,hscanned⟩
      | wrapped => omega
    · rename_i hdone
      exact ⟨_,rfl,blockIx,by omega,fun h => absurd h hdone,hs⟩

/-- The page search ends. It returns a run of `n` seen pages, and none only where there is none,
unless a run wraps around, which is then returned. -/
theorem getBitScanStreamRevWord_cases (blocks : ℕ → BitVec 64) (hn : 0 < n) (hn32 : n < 2^32)
    {numBlocks : ℕ} (hsize : 64*numBlocks < 2^32) :
    ∃ position, getBitScanStreamRevWord numBlocks blocks n = some position ∧
      ((NoWrap blocks n 0 (64*numBlocks) ∧
          (position ≠ invalidPageIx → position+n ≤ 64*numBlocks ∧ Run (Seen blocks) position n) ∧
          (position = invalidPageIx → NoRun blocks n (64*numBlocks))) ∨
        (Wraps blocks n position ∧ position < 64*numBlocks)) := by
  have hinit : Scanned blocks n 0 0 n invalidPageIx :=
    .searched (.nothing (fun start hfit _ => by omega) fun i hi => by omega) fun i hi hi' => by omega
  obtain ⟨⟨remains,start⟩,hrun,ix,hix,hlast,hs⟩ := @scanBlocks_spec blocks n hn hn32 numBlocks 0 n
    invalidPageIx (by omega) hinit
  rw [Nat.zero_add] at hix hlast
  refine ⟨if remains > 0 then invalidPageIx else start,
    by rw [getBitScanStreamRevWord,hrun]; rfl,?_⟩
  simp only at hs hlast
  cases hs with
  | wrapped hw hlt =>
    rw [if_neg (by omega)]
    exact .inr ⟨hw,by omega⟩
  | searched hsearched hnowrap =>
    left
    cases hsearched with
    | nothing hnorun =>
      rw [if_pos hn]
      rw [hlast hn] at hnorun hnowrap
      exact ⟨hnowrap,fun h => absurd rfl h,fun _ => hnorun⟩
    | running hpos _ _ _ _ _ hnorun =>
      rw [if_pos hpos]
      rw [hlast hpos] at hnorun hnowrap
      exact ⟨hnowrap,fun h => absurd rfl h,fun _ => hnorun⟩
    | found hfit hvalid hseen =>
      rw [if_neg (by omega)]
      exact ⟨noWrap_of_le (by omega) _ _,fun _ => ⟨by omega,hseen⟩,fun h => absurd h hvalid⟩

/-- The page search ends. It returns a run of `n` seen pages, and none only where there is none. -/
theorem getBitScanStreamRevWord_spec (blocks : ℕ → BitVec 64) (hn : 0 < n) (hn32 : n+64 ≤ 2^32)
    {numBlocks : ℕ} (hsize : 64*numBlocks < 2^32) :
    ∃ position, getBitScanStreamRevWord numBlocks blocks n = some position ∧
      (position ≠ invalidPageIx → position+n ≤ 64*numBlocks ∧ Run (Seen blocks) position n) ∧
      (position = invalidPageIx → NoRun blocks n (64*numBlocks)) := by
  obtain ⟨position,hscan,⟨-,hspec⟩ | ⟨hwraps,-⟩⟩ := getBitScanStreamRevWord_cases blocks hn (by omega) hsize
  · exact ⟨position,hscan,hspec⟩
  · exact absurd hwraps (noWrap_of_le hn32 _ _ position le_rfl (Nat.lt_succ_self _))

theorem getBitScanStreamRevWord_fresh {numBlocks : ℕ} (h : 0 < numBlocks) :
    getBitScanStreamRevWord numBlocks (fun _ => BitVec.allOnes 64) 1 = some 0 := by
  obtain ⟨left,rfl⟩ := Nat.exists_eq_succ_of_ne_zero h.ne'
  have hfirst : scanBlock 1 0 65 (BitVec.allOnes 64) 1 invalidPageIx = some (0,0) := by decide
  rw [getBitScanStreamRevWord,scanBlocks,if_pos Nat.one_pos,hfirst]
  cases left <;> rfl

end Scan

end HeapAllocator
end SdkCp
