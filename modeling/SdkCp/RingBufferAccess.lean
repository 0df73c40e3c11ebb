import SdkCp.RingBufferQueue

/-! Where `ring_buffer` reads and writes. A header, payload or postfix can leave the
buffer in one way only, a wrap filler whose header does not fit behind the write
index, and the sizes of header, slot and buffer decide whether an index where that
happens is ever reached. -/
namespace SdkCp
namespace RingBuffer

open Bytes TransitionSystem

variable (cfg : Config)

/-- The header, payload and postfix of a block at `p`: first byte and length of each. -/
def blockRanges (p dataSize : ℕ) : List (ℕ × ℕ) :=
  [(p,cfg.prefixSize),(p+cfg.prefixSize,dataSize),(p+cfg.prefixSize+dataSize,cfg.postfixSize)]

/-- What a look of `_get_first_block` at the block at `p` reads, and the payload it returns. -/
def lookRanges (m : Mem) (p : ℕ) : List (ℕ × ℕ) :=
  if readState cfg m p = BlockState.fake.code ∨ readState cfg m p = BlockState.busy.code then
    [(p,cfg.prefixSize)]
  else blockRanges cfg p (readSize cfg m p)

/-- The ranges a step reads or writes in the memory of the buffer. -/
def accesses (s : State) : Event → List (ℕ × ℕ)
  | .allocateStep =>
    match s.writer with
    | .idle => []
    | .border f => if borderTaken cfg s.buf f then [] else [(f.bufferPos,cfg.prefixSize)]
    | .finish f => if endTaken cfg s.buf f then [] else blockRanges cfg f.bufferPos f.dataSize
  | .write i off _ => (s.log[i]?).toList.map fun e => (e.ptr+off,1)
  | .commit i | .skip i => (s.log[i]?).toList.flatMap fun e =>
      [(cfg.pos e.handle,cfg.prefixSize),
        (cfg.pos e.handle+cfg.prefixSize+readSize cfg s.buf.mem (cfg.pos e.handle),cfg.postfixSize)]
  | .peekStep =>
    match s.reader with
    | .peeking ix => if s.buf.ixWrite = ix then [] else lookRanges cfg s.buf.mem (cfg.pos ix)
    | _ => []
  | .freeStep =>
    match s.reader with
    | .freeing ix _ => if s.buf.ixWrite = ix then [] else lookRanges cfg s.buf.mem (cfg.pos ix)
    | _ => []
  | .free =>
    match s.reader with
    | .peeked ptr size => [(ptr,size)]
    | _ => []
  | .allocate _ _ | .peek => []

/-- The ranges of the blocks and of the filler headers between two indices, as the
consumer steps over them. -/
def held (m : Mem) (writeIx : ℕ) : ℕ → ℕ → List (ℕ × ℕ)
  | 0, _ => []
  | fuel+1, readIx =>
    if writeIx = readIx then []
    else
      let p := cfg.pos readIx
      let size := readSize cfg m p
      if readState cfg m p = BlockState.fake.code then
        (p,cfg.prefixSize)::held m writeIx fuel (cfg.add readIx size)
      else (p,cfg.kOverhead+size)::held m writeIx fuel (cfg.add readIx (cfg.kOverhead+size))

/-- What is between `_ix_read` and `_ix_write`. -/
def between (b : Buffer) : List (ℕ × ℕ) := held cfg b.mem b.ixWrite cfg.size b.ixRead

/-- Every step enabled in `s` stays inside the buffer, and `allocate` writes on nothing
that is still between the indices. -/
structure LayoutSafe (s : State) : Prop where
  inside : ∀ e t, step cfg s e = some t → ∀ r ∈ accesses cfg s e, r.1+r.2 ≤ cfg.size
  apart : ∀ t, step cfg s .allocateStep = some t → ∀ r ∈ accesses cfg s .allocateStep,
    ∀ q ∈ between cfg s.buf, r.1+r.2 ≤ q.1 ∨ q.1+q.2 ≤ r.1

variable {cfg}

theorem mem_held {m : Mem} {x W fuel : ℕ} {ss : List Seg} (hc : Chain cfg m x ss)
    (htot : x+segsLen cfg ss = W) (hroom : segsLen cfg ss ≤ cfg.size) {q : ℕ × ℕ}
    (hq : q ∈ held cfg m (W % 2^cfg.wordBits) fuel (x % 2^cfg.wordBits)) :
    ∃ y, x ≤ y ∧ y+q.2 ≤ W ∧ q.1 = y % cfg.size := by
  induction ss generalizing x fuel with
  | nil =>
    obtain rfl : x = W := by simpa using htot
    cases fuel <;> simp [held] at hq
  | cons s ss ih =>
    obtain ⟨hat,-,hlen,hfoot,htail⟩ := hc
    simp only [segsLen_cons] at htot hroom
    cases fuel with
    | zero => simp [held] at hq
    | succ fuel =>
      rw [held] at hq
      split at hq
      · simp at hq
      cases s with
      | filler n =>
        simp only [Seg.len,Seg.foot] at htot hroom hfoot htail
        simp only [cfg.pos_mod_word,hat.state_eq,hat.size_eq,if_true,cfg.add_mod_word,
          List.mem_cons] at hq
        rcases hq with rfl | hq
        · exact ⟨x,le_rfl,by simp only; omega,rfl⟩
        · obtain ⟨y,hy,hrest⟩ := ih htail (by omega) (by omega) hq
          exact ⟨y,by omega,hrest⟩
      | block e =>
        obtain ⟨hh,-,-,-,-,hfake,-⟩ := hat
        simp only [Seg.len] at htot hroom htail
        have hcode : e.state.code ≠ BlockState.fake.code := fun h => hfake (BlockState.code_inj h)
        simp only [cfg.pos_mod_word,hh.state_eq,hh.size_eq,if_neg hcode,cfg.add_mod_word,
          List.mem_cons] at hq
        rcases hq with rfl | hq
        · exact ⟨x,le_rfl,by simp only; omega,rfl⟩
        · obtain ⟨y,hy,hrest⟩ := ih htail (by omega) (by omega) hq
          exact ⟨y,by omega,hrest⟩

/-- A range behind the write index is apart from what is between the indices. -/
theorem InvAt.apart {s : State} {R W k : ℕ} {ss : List Seg} (h : InvAt cfg s R W ss k)
    {y n : ℕ} (hy : W ≤ y) (hroom : y+n ≤ R+cfg.size) {q : ℕ × ℕ} (hq : q ∈ between cfg s.buf) :
    y % cfg.size+n ≤ q.1 ∨ q.1+q.2 ≤ y % cfg.size := by
  have htot := h.total
  have hle := h.room
  rw [between,h.read,h.write] at hq
  obtain ⟨x,hx,hx',hpos⟩ := mem_held h.chain htot (by omega) hq
  rw [hpos]
  exact (mod_disjoint (by omega) (by omega)).symm

theorem blockRanges_in {p dataSize : ℕ} {r : ℕ × ℕ} (hr : r ∈ blockRanges cfg p dataSize) :
    p ≤ r.1 ∧ r.1+r.2 ≤ p+(dataSize+cfg.kOverhead) := by
  simp only [blockRanges,List.mem_cons,List.not_mem_nil,or_false] at hr
  simp only [Config.kOverhead]
  rcases hr with rfl | rfl | rfl <;> simp only <;> omega

theorem lookRanges_in {m : Mem} {x : ℕ} {sg : Seg} (hat : sg.At cfg m (x % cfg.size))
    (hfit : x % cfg.size+sg.len cfg ≤ cfg.size) (hfoot : sg.foot cfg ≤ sg.len cfg) {r : ℕ × ℕ}
    (hr : r ∈ lookRanges cfg m (x % cfg.size)) : r.1+r.2 ≤ cfg.size := by
  have hpre : cfg.prefixSize ≤ sg.foot cfg := by
    cases sg <;> simp only [Seg.foot,Config.kOverhead] <;> omega
  unfold lookRanges at hr
  split at hr
  · obtain rfl := List.mem_singleton.mp hr
    simp only
    omega
  · rename_i hstate
    cases sg with
    | filler n => exact absurd (.inl hat.state_eq) hstate
    | block e =>
      rw [hat.1.size_eq] at hr
      have := (blockRanges_in hr).2
      simp only [Seg.len] at hfit
      omega

theorem InvAt.block_in {s : State} {R W k : ℕ} {A B : List Seg} {e : Entry}
    (h : InvAt cfg s R W (A++.block e::B) k) :
    ∃ p, (Seg.block e).At cfg s.buf.mem p ∧ p+(cfg.kOverhead+e.size) ≤ cfg.size := by
  obtain ⟨hat,hfit,-⟩ := (chain_append.mp h.chain).2
  exact ⟨_,hat,hfit⟩

theorem InvAt.busy_in {s : State} {R W k i : ℕ} {ss : List Seg} {e : Entry}
    (h : InvAt cfg s R W ss k) (hi : s.log[i]? = some e) (hbusy : e.state = .busy) :
    ∃ p, (Seg.block e).At cfg s.buf.mem p ∧ p+(cfg.kOverhead+e.size) ≤ cfg.size := by
  obtain ⟨-,A,B,rfl,-⟩ := h.find hi hbusy
  exact h.block_in

theorem InvAt.settle_in {s : State} {R W k i : ℕ} {ss : List Seg} (h : InvAt cfg s R W ss k)
    {st : BlockState} (hs : ∃ t, stepSettle cfg s i st = some t) {r : ℕ × ℕ}
    (hr : r ∈ (s.log[i]?).toList.flatMap fun e =>
      [(cfg.pos e.handle,cfg.prefixSize),
        (cfg.pos e.handle+cfg.prefixSize+readSize cfg s.buf.mem (cfg.pos e.handle),cfg.postfixSize)]) :
    r.1+r.2 ≤ cfg.size := by
  obtain ⟨t,hs⟩ := hs
  unfold stepSettle at hs
  cases hi : s.log[i]? with
  | none => simp [hi] at hs
  | some e =>
    simp only [hi] at hs hr
    split at hs
    · rename_i hbusy
      obtain ⟨p,⟨hh,-,-,-,hpos,-⟩,hfit⟩ := h.busy_in hi hbusy
      simp only [hpos,hh.size_eq,Option.toList_some,List.flatMap_cons,List.flatMap_nil,
        List.append_nil,List.mem_cons,List.not_mem_nil,or_false] at hr
      simp only [Config.kOverhead] at hfit
      rcases hr with rfl | rfl <;> simp only <;> omega
    · simp at hs

theorem InvAt.look_in {s : State} {R W k : ℕ} {pre post : List Seg}
    (h : InvAt cfg s R W (pre++post) k)
    (hne : s.buf.ixWrite ≠ (R+segsLen cfg pre) % 2^cfg.wordBits) {r : ℕ × ℕ}
    (hr : r ∈ lookRanges cfg s.buf.mem (cfg.pos ((R+segsLen cfg pre) % 2^cfg.wordBits))) :
    r.1+r.2 ≤ cfg.size := by
  cases post with
  | nil => exact absurd (h.write_eq_iff.mpr rfl) hne
  | cons sg post =>
    obtain ⟨hat,hfit,-,hfoot,-⟩ := (chain_append.mp h.chain).2
    rw [cfg.pos_mod_word] at hr
    exact lookRanges_in hat hfit hfoot hr

/-- The filler header of a wrap that is not refused fits behind the write index. -/
theorem InvAt.border_in {s : State} {R W k : ℕ} {ss : List Seg}
    (h : InvAt cfg s R W ss k) (hfits : FillerFits cfg s.buf.ixWrite)
    (hroom : W+cfg.prefixSize ≤ R+cfg.size) : W % cfg.size+cfg.prefixSize ≤ cfg.size := by
  have htot := h.total
  have hslot : cfg.slotAlignment ≤ cfg.prefixSize :=
    Nat.le_of_dvd (by have := cfg.stateOffset_le; omega) cfg.dvd_prefixSize
  have hfits := hfits (by omega)
  have hWn := Nat.mod_lt W cfg.size_pos
  rw [h.write,Nat.mod_mod_of_dvd _ cfg.size_dvd_word] at hfits
  omega

/-- What `allocate` writes stays in the buffer and behind the write index. -/
theorem InvAt.allocateStep_in {s : State} {R W k : ℕ} {ss : List Seg}
    (h : InvAt cfg s R W ss k) (hfits : FillerFits cfg s.buf.ixWrite) {r : ℕ × ℕ}
    (hr : r ∈ accesses cfg s .allocateStep) :
    r.1+r.2 ≤ cfg.size ∧ ∀ q ∈ between cfg s.buf, r.1+r.2 ≤ q.1 ∨ q.1+q.2 ≤ r.1 := by
  have hwr := h.writer
  simp only [accesses] at hr
  cases hw : s.writer with
  | idle => simp [hw] at hr
  | border f =>
    rw [hw] at hwr
    simp only [hw] at hr
    cases hfree : borderTaken cfg s.buf f with
    | true => simp [hfree] at hr
    | false =>
      have hroom := h.border_room hwr.1.beg hfree
      have hpos : f.bufferPos = W % cfg.size := hwr.1.position
      simp only [hfree,Bool.false_eq_true,if_false,List.mem_singleton] at hr
      obtain rfl := hr
      simp only [hpos]
      exact ⟨h.border_in hfits hroom,fun q hq => h.apart le_rfl hroom hq⟩
  | finish f =>
    rw [hw] at hwr
    simp only [hw] at hr
    cases hfree : endTaken cfg s.buf f with
    | true => simp [hfree] at hr
    | false =>
      simp only [hfree,Bool.false_eq_true,if_false] at hr
      obtain ⟨hlo,hhi⟩ := blockRanges_in hr
      -- the block of the frame, before or after the wrap
      have hplace : ∃ rem, FrameOk cfg f W rem ∧
          W+rem+(f.dataSize+cfg.kOverhead) ≤ R+cfg.size ∧
          (W+rem) % cfg.size+(f.dataSize+cfg.kOverhead) ≤ cfg.size := by
        have htot := h.total
        rcases hwr with ⟨hfr,hfit⟩ | ⟨hfr,hcross,-,-⟩
        · have hroom := h.room_of_free hfr (Nat.zero_le _) hfree
          exact ⟨0,hfr,hroom,hfit (by omega)⟩
        · have hWn := Nat.mod_lt W cfg.size_pos
          have hroom := h.room_of_free hfr (by omega) hfree
          have hd := Nat.div_add_mod W cfg.size
          have hsum : W+(cfg.size-W % cfg.size) = cfg.size*(W/cfg.size+1) := by rw [mul_add]; omega
          have hzero : (W+(cfg.size-W % cfg.size)) % cfg.size = 0 := by
            rw [hsum,Nat.mul_mod_right]
          exact ⟨_,hfr,hroom,by rw [hzero]; omega⟩
      obtain ⟨rem,hfr,hroom,hfit⟩ := hplace
      have hpos := hfr.position
      refine ⟨by omega,fun q hq => ?_⟩
      have := h.apart (Nat.le_add_right W rem) hroom hq
      omega

/-- The invariant, with room for the next filler header, keeps every access in place. -/
theorem InvAt.layoutSafe {s : State} {R W k : ℕ} {ss : List Seg} (h : InvAt cfg s R W ss k)
    (hfits : FillerFits cfg s.buf.ixWrite) : LayoutSafe cfg s := by
  refine ⟨fun e t hs r hr => ?_,fun t _ r hr => (h.allocateStep_in hfits hr).2⟩
  cases e with
  | allocate size noWait => simp [accesses] at hr
  | peek => simp [accesses] at hr
  | allocateStep => exact (h.allocateStep_in hfits hr).1
  | commit i => exact h.settle_in ⟨t,hs⟩ hr
  | skip i => exact h.settle_in ⟨t,hs⟩ hr
  | write i off b =>
    simp only [step,stepWrite] at hs
    cases hi : s.log[i]? with
    | none => simp [hi] at hs
    | some e =>
      simp only [hi] at hs
      split at hs
      · rename_i hc
        obtain ⟨p,⟨-,-,hptr,-⟩,hfit⟩ := h.busy_in hi hc.1
        simp only [accesses,hi,Option.toList_some,List.map_cons,List.map_nil,List.mem_singleton] at hr
        obtain rfl := hr
        simp only [Config.kOverhead] at hfit
        simp only
        omega
      · simp at hs
  | peekStep =>
    have hreader := h.reader
    simp only [accesses] at hr
    cases hrd : s.reader with
    | peeking ix =>
      rw [hrd] at hreader
      obtain ⟨pre,post,rfl,-,rfl⟩ := hreader
      simp only [hrd] at hr
      split at hr
      · simp at hr
      · rename_i hne
        exact h.look_in hne hr
    | _ => simp [hrd] at hr
  | freeStep =>
    have hreader := h.reader
    simp only [accesses] at hr
    cases hrd : s.reader with
    | freeing ix payload =>
      rw [hrd] at hreader
      obtain ⟨pre,mid,c,post,rfl,-,-,-,-,rfl⟩ := hreader
      simp only [hrd] at hr
      split at hr
      · simp at hr
      · rename_i hne
        exact h.look_in hne hr
    | _ => simp [hrd] at hr
  | free =>
    have hreader := h.reader
    simp only [accesses] at hr
    cases hrd : s.reader with
    | peeked ptr n =>
      rw [hrd] at hreader
      obtain ⟨pre,e,post,rfl,-,-,rfl,rfl⟩ := hreader
      simp only [hrd,List.mem_singleton] at hr
      obtain rfl := hr
      obtain ⟨p,⟨-,-,hptr,-⟩,hfit⟩ := h.block_in
      simp only [Config.kOverhead] at hfit
      simp only
      omega
    | _ => simp [hrd] at hr

/-- A header fills one slot, or the offsets that are reached leave room for two. -/
def Roomy (cfg : Config) : Prop :=
  4 ≤ cfg.kSlotBound ∨ cfg.kSlotBound = 3 ∧ (cfg.useGuard = false ∨ cfg.kSizeBound = 6)

theorem prefixSize_cases : cfg.prefixSize = cfg.slotAlignment ∨
    (cfg.kSlotBound = 3 ∧ cfg.useGuard = true ∧ cfg.prefixSize = 16 ∧ cfg.kOverhead = 24) ∨
    (cfg.kSlotBound = 2 ∧ cfg.useGuard = true ∧ cfg.prefixSize = 12 ∧ cfg.kOverhead = 16) ∨
    (cfg.kSlotBound = 2 ∧ cfg.useGuard = false ∧ cfg.prefixSize = 8 ∧ cfg.kOverhead = 8) := by
  have hge := cfg.slot_ge
  rcases Nat.lt_or_ge cfg.kSlotBound 4 with hlt | h4
  · have hk : cfg.kSlotBound = 2 ∨ cfg.kSlotBound = 3 := by omega
    rcases hk with hk | hk <;> cases hg : cfg.useGuard <;>
      simp [Config.prefixSize,Config.kOverhead,Config.postfixSize,Config.paddingSize,
        Config.slotAlignmentMask,Config.slotAlignment,hk,hg,Nat.shiftRight_eq_div_pow]
  · exact .inl (Config.prefixSize_eq h4)

theorem step_ixWrite {s t : State} {e : Event} (hs : step cfg s e = some t)
    (he : e ≠ .allocateStep) : t.buf.ixWrite = s.buf.ixWrite := by
  cases step_changes hs with
  | publish => exact absurd rfl he
  | _ => rfl

/-- A published block moves the write index by its size, from the start of the buffer
if it wrapped. -/
theorem Inv.allocateStep_ixWrite {s t : State} (h : Inv cfg s)
    (hs : stepAllocate cfg s = some t) :
    t.buf.ixWrite = s.buf.ixWrite ∨ ∃ requested, 0 < requested ∧ requested ≤ cfg.size/4 ∧
      (s.buf.ixWrite % cfg.size+(roundUp cfg requested+cfg.kOverhead) ≤ cfg.size ∧
        t.buf.ixWrite % cfg.size =
          (s.buf.ixWrite % cfg.size+(roundUp cfg requested+cfg.kOverhead)) % cfg.size ∨
        t.buf.ixWrite % cfg.size = (roundUp cfg requested+cfg.kOverhead) % cfg.size) := by
  obtain ⟨R,W,ss,k,h⟩ := h
  unfold stepAllocate at hs
  cases hw : s.writer with
  | idle => simp [hw] at hs
  | border f =>
    simp only [hw] at hs
    split at hs
    · split at hs <;> exact .inl (by rw [← Option.some.inj hs])
    · exact .inl (by rw [← Option.some.inj hs]; rfl)
  | finish f =>
    simp only [hw] at hs
    cases hfree : endTaken cfg s.buf f with
    | true =>
      simp only [hfree,if_true] at hs
      split at hs <;> exact .inl (by rw [← Option.some.inj hs])
    | false =>
      simp only [hfree] at hs
      obtain rfl := Option.some.inj hs
      right
      have hwr := h.writer
      have htot := h.total
      rw [hw] at hwr
      have hix : s.buf.ixWrite % cfg.size = W % cfg.size := by
        rw [h.write,Nat.mod_mod_of_dvd _ cfg.size_dvd_word]
      have hnew : ∀ rem, FrameOk cfg f W rem → (publish cfg s.buf f).ixWrite % cfg.size =
          (W+(roundUp cfg f.requested+cfg.kOverhead+rem)) % cfg.size := by
        intro rem hfr
        simp only [publish,h.write,hfr.commit,hfr.data,cfg.add_mod_word]
        rw [Nat.mod_mod_of_dvd _ cfg.size_dvd_word]
      rcases hwr with ⟨hfr,hfit⟩ | ⟨hfr,hcross,-,-⟩
      · have hroom := h.room_of_free hfr (Nat.zero_le _) hfree
        have hfit := hfit (by omega)
        rw [hfr.data] at hfit
        refine ⟨f.requested,hfr.requested_pos,hfr.requested_le,.inl ⟨by rw [hix]; exact hfit,?_⟩⟩
        rw [hnew 0 hfr,hix,Nat.mod_add_mod,Nat.add_zero]
      · refine ⟨f.requested,hfr.requested_pos,hfr.requested_le,.inr ?_⟩
        have hWn := Nat.mod_lt W cfg.size_pos
        have hd := Nat.div_add_mod W cfg.size
        have hsum : W+(roundUp cfg f.requested+cfg.kOverhead+(cfg.size-W % cfg.size)) =
            roundUp cfg f.requested+cfg.kOverhead+cfg.size*(W/cfg.size+1) := by rw [mul_add]; omega
        rw [hnew _ hfr,hsum,Nat.add_mul_mod_self_left]

/-- The write offsets of a guarded buffer of 64 bytes with slots of 8. -/
def SmallOffset (ixWrite : ℕ) : Prop :=
  ixWrite % 64 = 0 ∨ ixWrite % 64 = 32 ∨ ixWrite % 64 = 40

theorem smallOffset_step {s t : State} {e : Event} (hk : cfg.kSlotBound = 3)
    (hsize : cfg.kSizeBound = 6) (hover : cfg.kOverhead = 24) (h : Inv cfg s)
    (hoff : SmallOffset s.buf.ixWrite) (hs : step cfg s e = some t) : SmallOffset t.buf.ixWrite := by
  by_cases he : e = .allocateStep
  · subst he
    have h64 : cfg.size = 64 := by rw [Config.size,hsize]; norm_num
    have h8 : cfg.slotAlignment = 8 := by rw [Config.slotAlignment,hk]; norm_num
    rcases h.allocateStep_ixWrite hs with heq | ⟨n,hpos,hle,hcase⟩
    · rwa [heq]
    · rw [h64,hover,roundUp_eq,h8] at hcase
      rw [h64] at hle
      unfold SmallOffset at *
      omega
  · rwa [step_ixWrite hs he]

/-- In a roomy layout the invariant holds along every run, with room for the next filler. -/
theorem inv_of_roomy (hroomy : Roomy cfg) {s : State} (h : (system cfg).Reachable s) :
    Inv cfg s ∧ FillerFits cfg s.buf.ixWrite := by
  rcases @prefixSize_cases cfg with hp | ⟨hk,hg,hpre,hover⟩ | ⟨hk,-⟩ | ⟨hk,-⟩
  · have hinv := inv_reachable hp h
    obtain ⟨_,_,_,_,hat⟩ := hinv
    exact ⟨⟨_,_,_,_,hat⟩,hat.fillerFits hp⟩
  · have hsize : cfg.kSizeBound = 6 := by
      rcases hroomy with h4 | ⟨-,hg' | h6⟩
      · omega
      · rw [hg] at hg'
        cases hg'
      · exact h6
    have hfits : ∀ ix, SmallOffset ix → FillerFits cfg ix := by
      intro ix hix _
      have h64 : cfg.size = 64 := by rw [Config.size,hsize]; norm_num
      rw [hpre,h64]
      unfold SmallOffset at hix
      omega
    have hboth : Inv cfg s ∧ SmallOffset s.buf.ixWrite := by
      refine h.invariant (P:=fun s => Inv cfg s ∧ SmallOffset s.buf.ixWrite) ?_ ?_
      · rintro _ rfl
        exact ⟨inv_initial,.inl rfl⟩
      · rintro s e t ⟨hinv,hoff⟩ - hs
        exact ⟨inv_step (hfits _ hoff) hinv hs,smallOffset_step hk hsize hover hinv hoff hs⟩
    exact ⟨hboth.1,hfits _ hboth.2⟩
  · rcases hroomy with h4 | ⟨h3,-⟩ <;> omega
  · rcases hroomy with h4 | ⟨h3,-⟩ <;> omega

/-- Everything written has been read; nobody is in a call. -/
structure Drained (cfg : Config) (s : State) (x : ℕ) : Prop where
  inv : ∃ k, InvAt cfg s x x [] k
  writer : s.writer = .idle
  reader : s.reader = .idle
  reachable : (system cfg).Reachable s

theorem drained_initial : Drained cfg initial 0 :=
  ⟨⟨0,by constructor <;> simp [initial,segsLen,Chain,ReaderOk,WriterOk,committed]⟩,rfl,rfl,.init rfl⟩

theorem Drained.begin {s : State} {x n : ℕ} (h : Drained cfg s x) (hpos : 0 < n)
    (hle : n ≤ cfg.size/4) : ∃ f, FrameOk cfg f x 0 ∧ f.requested = n ∧
      step cfg s (.allocate n true) =
        some { s with writer := if crosses cfg f then .border f else .finish f } := by
  obtain ⟨k,hinv⟩ := h.inv
  have hf : ∃ f, allocateBegin cfg s.buf n true = some f ∧ f.requested = n := by
    rw [allocateBegin,if_neg (by rw [Nat.shiftRight_eq_div_pow]; omega)]
    exact ⟨_,rfl,rfl⟩
  obtain ⟨f,hf,hreq⟩ := hf
  refine ⟨f,hinv.frame_begin hf,hreq,?_⟩
  simp only [step,hf,h.writer]

theorem reachable_step {s t : State} {e : Event} (h : (system cfg).Reachable s)
    (hs : step cfg s e = some t) : (system cfg).Reachable t := ReachableBy.step h trivial hs

theorem drained_of_skipped {s : State} {x W k : ℕ} {e : Entry}
    (h : InvAt cfg s x W [.block e] k) (he : e.state = .skipped) (hwriter : s.writer = .idle)
    (hreader : s.reader = .idle) (hreach : (system cfg).Reachable s) : ∃ t, Drained cfg t W := by
  have hpassed : ∀ sg ∈ [Seg.block e], sg.Passed := by
    intro sg hsg
    rw [List.mem_singleton.mp hsg]
    exact he
  have htot := h.total
  have hpeek : step cfg s .peek = some { s with reader := .peeking s.buf.ixRead } := by
    simp only [step,hreader]
  have hne : s.buf.ixWrite ≠ s.buf.ixRead := by
    intro heq
    have hend := (@InvAt.write_eq_iff cfg s x W k [] [.block e] h).mp (by simpa [h.read] using heq)
    cases hend
  have hlook : step cfg { s with reader := .peeking s.buf.ixRead } .peekStep =
      some { s with reader := .peeking ((x+(Seg.block e).len cfg) % 2^cfg.wordBits) } := by
    simp only [step,stepPeek,if_neg hne]
    simp only [h.read,getFirstBlock_at h.chain.1,
      Seg.found_of_passed (hpassed (.block e) List.mem_cons_self),Bool.and_true]
  have hend : s.buf.ixWrite = (x+(Seg.block e).len cfg) % 2^cfg.wordBits := by
    rw [h.write,← htot]
    simp
  have hstop : step cfg { s with reader := .peeking ((x+(Seg.block e).len cfg) % 2^cfg.wordBits) }
      .peekStep = some { s with
        buf := advanceRead cfg s.buf ((x+(Seg.block e).len cfg) % 2^cfg.wordBits)
        reader := .idle } := by
    simp only [step,stepPeek,if_pos hend]
  obtain ⟨hcom,hbusy⟩ := entry?_passed hpassed
  have hdone := InvAt.consume (show InvAt cfg s x W ([.block e]++[]) k from h) [] .idle hbusy
    (by rw [hcom]; exact .nil) trivial
  rw [htot,List.append_nil] at hdone
  rw [show x+(Seg.block e).len cfg = W by rw [← htot]; simp] at hlook hstop
  exact ⟨_,⟨_,hdone⟩,hwriter,rfl,reachable_step (reachable_step (reachable_step hreach hpeek) hlook) hstop⟩

theorem Drained.advance {s : State} {x n : ℕ} (h : Drained cfg s x) (hpos : 0 < n)
    (hle : n ≤ cfg.size/4) (hdvd : cfg.slotAlignment ∣ n) (hfit : x+(n+cfg.kOverhead) < cfg.size) :
    ∃ t, Drained cfg t (x+(n+cfg.kOverhead)) := by
  obtain ⟨f,hfr,hreq,hbegin⟩ := h.begin hpos hle
  obtain ⟨k,hinv⟩ := h.inv
  have hx : x % cfg.size = x := Nat.mod_eq_of_lt (by omega)
  have hsz := cfg.size_le
  have hword := cfg.word_ge
  have hdata : f.dataSize = n := by
    rw [hfr.data,hreq,roundUp_eq,Nat.mod_eq_zero_of_dvd hdvd,Nat.sub_zero,Nat.mod_self,Nat.add_zero]
  have hbeg := hfr.beg
  have hfin := hfr.fin
  rw [Nat.add_zero] at hbeg hfin
  have hcross : crosses cfg f = false := by
    cases hc : crosses cfg f with
    | false => rfl
    | true =>
      have := le_of_crosses hbeg hfin hfr.commit_lt.1 hc
      omega
  rw [hcross] at hbegin
  have hfree : endTaken cfg s.buf f = false := by
    simp only [endTaken,hfin,hinv.read,decide_eq_false_iff_not,not_lt]
    rw [cfg.sub_mod_word (by omega) (by omega)]
    omega
  have hpub := hinv.publish_block [] hfr rfl rfl trivial hinv.aligned (by omega)
    (by rw [Nat.add_zero,hx]; omega)
  have hstep : step cfg { s with writer := .finish f } .allocateStep =
      some { s with buf := publish cfg s.buf f, writer := .idle, log := s.log ++ [f.entry cfg]
                    asserts := s.asserts && cfg.pos f.handle == f.bufferPos } := by
    simp only [step,stepAllocate,hfree]
    rfl
  have hmid := reachable_step (reachable_step h.reachable hbegin) hstep
  have hlast : (s.log ++ [f.entry cfg])[s.log.length]? = some (f.entry cfg) := by simp
  obtain ⟨A,B,t,hss,hskip,hsettled,hreader,hwriter⟩ :=
    hpub.settle hlast rfl (show BlockState.skipped ≠ .fake by decide)
  obtain ⟨rfl,rfl⟩ : A = [] ∧ B = [] := by
    have hlen := congrArg List.length hss
    simp only [List.nil_append,List.length_append,List.length_cons,List.length_nil] at hlen
    exact ⟨List.length_eq_zero_iff.mp (by omega),List.length_eq_zero_iff.mp (by omega)⟩
  rw [hdata,Nat.add_zero] at hsettled
  exact drained_of_skipped hsettled rfl hwriter (hreader.trans h.reader)
    (reachable_step hmid (show step cfg _ (.skip s.log.length) = some t from hskip))

/-- Blocks of one and of two slots reach every sum of their lengths below the size. -/
theorem drained_sum {p : ℕ} (hover : cfg.slotAlignment+cfg.kOverhead = p*cfg.slotAlignment)
    (hroom : 2*cfg.slotAlignment ≤ cfg.size/4) (a b : ℕ)
    (hlt : (p*a+(p+1)*b)*cfg.slotAlignment < cfg.size) :
    ∃ s, Drained cfg s ((p*a+(p+1)*b)*cfg.slotAlignment) := by
  have hpos := cfg.slotAlignment_pos
  induction b with
  | zero =>
    induction a with
    | zero => exact ⟨initial,by simpa using drained_initial⟩
    | succ a ih =>
      have hsum : (p*(a+1)+(p+1)*0)*cfg.slotAlignment =
          (p*a+(p+1)*0)*cfg.slotAlignment+(cfg.slotAlignment+cfg.kOverhead) := by
        rw [hover]
        ring
      rw [hsum] at hlt ⊢
      obtain ⟨s,hs⟩ := ih (by omega)
      exact hs.advance hpos (by omega) (dvd_refl _) hlt
  | succ b ih =>
    have hsum : (p*a+(p+1)*(b+1))*cfg.slotAlignment =
        (p*a+(p+1)*b)*cfg.slotAlignment+(2*cfg.slotAlignment+cfg.kOverhead) := by
      have htwo : 2*cfg.slotAlignment+cfg.kOverhead = (p+1)*cfg.slotAlignment := by
        rw [Nat.add_mul,← hover]
        omega
      rw [htwo]
      ring
    rw [hsum] at hlt ⊢
    obtain ⟨s,hs⟩ := ih (by omega)
    exact hs.advance (by omega) hroom (Dvd.intro_left 2 rfl) hlt

/-- A block that does not fit behind the index puts a filler header there, which sticks out
when the space is smaller than a header. -/
theorem Drained.overrun {s : State} {x n : ℕ} (h : Drained cfg s x) (hpos : 0 < n)
    (hle : n ≤ cfg.size/4) (hdvd : cfg.slotAlignment ∣ n) (hx : x < cfg.size)
    (hshort : cfg.size < x+cfg.prefixSize) (hcommit : n+cfg.kOverhead ≤ cfg.size) :
    ∃ t, (system cfg).Reachable t ∧ ¬LayoutSafe cfg t := by
  obtain ⟨f,hfr,hreq,hbegin⟩ := h.begin hpos hle
  obtain ⟨k,hinv⟩ := h.inv
  have hx' : x % cfg.size = x := Nat.mod_eq_of_lt hx
  have hsz := cfg.size_le
  have hword := cfg.word_ge
  have hover : cfg.prefixSize ≤ cfg.kOverhead := Nat.le_add_right _ _
  have hdata : f.dataSize = n := by
    rw [hfr.data,hreq,roundUp_eq,Nat.mod_eq_zero_of_dvd hdvd,Nat.sub_zero,Nat.mod_self,Nat.add_zero]
  have hbeg := hfr.beg
  have hfin := hfr.fin
  have hposition := hfr.position
  rw [Nat.add_zero] at hbeg hfin hposition
  have hcross : crosses cfg f = true := by
    cases hc : crosses cfg f with
    | true => rfl
    | false =>
      have := le_of_not_crosses hbeg hfin (by omega) hc
      omega
  rw [hcross] at hbegin
  have hfree : borderTaken cfg s.buf f = false := by
    simp only [borderTaken,hbeg,hinv.read,cfg.add_mod_word,decide_eq_false_iff_not,not_lt]
    rw [cfg.sub_mod_word (by omega) (by omega)]
    omega
  refine ⟨_,reachable_step h.reachable hbegin,fun hsafe => ?_⟩
  have hstep : step cfg { s with writer := .border f } .allocateStep =
      some { s with buf := (wrap cfg s.buf f).1, writer := .finish (wrap cfg s.buf f).2 } := by
    simp only [step,stepAllocate,hfree]
    rfl
  have hin := hsafe.inside _ _ hstep (f.bufferPos,cfg.prefixSize) (by simp [accesses,hfree])
  rw [hposition,hx'] at hin
  omega

/-- In the other layouts a header is longer than a slot, a block of one slot takes three
to five of them, and the buffer has at least 16. -/
theorem not_roomy_cases (h : ¬Roomy cfg) : cfg.slotAlignment < cfg.prefixSize ∧
    (∃ p, (p = 3 ∨ p = 4 ∨ p = 5) ∧ cfg.slotAlignment+cfg.kOverhead = p*cfg.slotAlignment) ∧
    cfg.kSlotBound+4 ≤ cfg.kSizeBound := by
  have hge := cfg.slot_ge
  have hsize := cfg.size_ge
  have hk : cfg.kSlotBound = 2 ∨ cfg.kSlotBound = 3 ∧ cfg.useGuard = true ∧ cfg.kSizeBound ≠ 6 := by
    obtain ⟨hfour,hthree⟩ := not_or.mp h
    rcases Nat.lt_or_ge cfg.kSlotBound 3 with hlt | hge3
    · exact .inl (by omega)
    · have h3 : cfg.kSlotBound = 3 := by omega
      obtain ⟨hguard,h6⟩ := not_or.mp (not_and.mp hthree h3)
      exact .inr ⟨h3,Bool.eq_true_of_not_eq_false hguard,h6⟩
  rcases hk with hk | ⟨hk,hg,h6⟩
  · cases hg : cfg.useGuard <;>
      simp [Config.prefixSize,Config.kOverhead,Config.postfixSize,Config.paddingSize,
        Config.slotAlignmentMask,Config.slotAlignment,hk,hg,Nat.shiftRight_eq_div_pow] <;> omega
  · simp [Config.prefixSize,Config.kOverhead,Config.postfixSize,Config.paddingSize,
      Config.slotAlignmentMask,Config.slotAlignment,hk,hg,Nat.shiftRight_eq_div_pow]
    omega

/-- A layout that is not roomy reaches such an index: one slot before the end. -/
theorem exists_not_layoutSafe (hroomy : ¬Roomy cfg) :
    ∃ t, (system cfg).Reachable t ∧ ¬LayoutSafe cfg t := by
  obtain ⟨hpre,⟨p,hp,hover⟩,hk⟩ := not_roomy_cases hroomy
  have hslot := cfg.slotAlignment_pos
  obtain ⟨j,hj⟩ := Nat.exists_eq_add_of_le hk
  -- the buffer is `m+1` slots, a power of two
  obtain ⟨m,hm,hcases⟩ : ∃ m, m+1 = 16*2^j ∧ (m = 15 ∨ 31 ≤ m) := by
    have hone := Nat.one_le_two_pow (n:=j)
    refine ⟨16*2^j-1,by omega,?_⟩
    rcases Nat.eq_zero_or_pos j with rfl | hpos
    · exact .inl rfl
    · have htwo : 2^1 ≤ 2^j := Nat.pow_le_pow_right (by norm_num) hpos
      omega
  have hsize : cfg.size = (m+1)*cfg.slotAlignment := by
    rw [hm,Config.size,Config.slotAlignment,hj,show (16 : ℕ) = 2^4 by norm_num,← pow_add,← pow_add]
    congr 1
    omega
  have hsum : p*(m/p-m % p)+(p+1)*(m % p) = m := by
    rcases hp with rfl | rfl | rfl <;> omega
  have hm16 : 16*cfg.slotAlignment ≤ cfg.size := by
    rw [hsize]
    exact Nat.mul_le_mul_right _ (by omega)
  have hlast : m*cfg.slotAlignment+cfg.slotAlignment = cfg.size := by rw [hsize,Nat.succ_mul]
  obtain ⟨s,hs⟩ := drained_sum hover (by omega) (m/p-m % p) (m % p) (by rw [hsum]; omega)
  rw [hsum] at hs
  refine hs.overrun hslot (by omega) (dvd_refl _) (by omega) (by omega) ?_
  rw [hover]
  rcases hp with rfl | rfl | rfl <;> omega

/-- Every access of every run lies in the buffer, and `allocate` never writes on what is
between the indices, exactly in the roomy layouts. -/
theorem layoutSafe_iff (cfg : Config) :
    (∀ s, (system cfg).Reachable s → LayoutSafe cfg s) ↔
      4 ≤ cfg.kSlotBound ∨ cfg.kSlotBound = 3 ∧ (cfg.useGuard = false ∨ cfg.kSizeBound = 6) := by
  constructor
  · intro hall
    by_contra hroomy
    obtain ⟨t,ht,hbad⟩ := exists_not_layoutSafe hroomy
    exact hbad (hall t ht)
  · intro hroomy s hs
    obtain ⟨⟨_,_,_,_,hinv⟩,hfits⟩ := inv_of_roomy hroomy hs
    exact hinv.layoutSafe hfits

/-- `ring_buffer<64,4>` without guards: five skipped blocks of 12 bytes bring both indices
to 60, and the next `allocate` writes a header of eight bytes there. -/
theorem not_layoutSafe_64 : ¬∀ s, (system ⟨6,2,false,32,by decide,by decide,by decide,by decide,
    .inl rfl⟩).Reachable s → LayoutSafe ⟨6,2,false,32,by decide,by decide,by decide,by decide,
    .inl rfl⟩ s := by
  intro hall
  let cfg : Config := ⟨6,2,false,32,by decide,by decide,by decide,by decide,.inl rfl⟩
  let fill : ℕ → List Event := fun i => [.allocate 4 true,.allocateStep,.skip i]
  let run := (system cfg).exec initial ((List.range 5).flatMap fill ++
    .peek::List.replicate 6 .peekStep ++ [.allocate 4 true])
  have hrun : run.map (fun s => ((step cfg s .allocateStep).isSome,accesses cfg s .allocateStep)) =
      some (true,[(60,8)]) := by decide
  obtain ⟨s,hs,hval⟩ := Option.map_eq_some_iff.mp hrun
  obtain ⟨hsome,hacc⟩ := Prod.mk.inj hval
  obtain ⟨t,ht⟩ := Option.isSome_iff_exists.mp hsome
  have hin := (hall s (ReachableBy.exec (fun _ _ _ => trivial) (.init rfl) hs)).inside _ t ht
    (60,8) (by rw [hacc]; exact List.mem_singleton_self _)
  simp [Config.size] at hin

end RingBuffer
end SdkCp
