import SdkCp.RingBufferInvariant

/-! The queue a consumer sees in the bytes of a `ring_buffer`, and the main
results: every run delivers a prefix of the committed payloads in allocation
order, and what remains in the buffer is the rest of the log. -/
namespace SdkCp
namespace RingBuffer

open Bytes TransitionSystem

variable (cfg : Config)

/-- State code and payload of each block between `readIx` and `writeIx`. -/
def walk (m : Mem) (writeIx : ℕ) : ℕ → ℕ → List (ℕ × List UInt8)
  | 0, _ => []
  | fuel+1, readIx =>
    if writeIx = readIx then []
    else
      let p := cfg.pos readIx
      let size := readSize cfg m p
      if readState cfg m p = BlockState.fake.code then walk m writeIx fuel (cfg.add readIx size)
      else
        (readState cfg m p,load m (p+cfg.prefixSize) size)::
          walk m writeIx fuel (cfg.add readIx (cfg.kOverhead+size))

/-- The queue held in the buffer. Every block takes at least a byte, so `__size`
steps reach the end. -/
def queue (b : Buffer) : List (ℕ × List UInt8) := walk cfg b.mem b.ixWrite cfg.size b.ixRead

/-- How an entry of the log appears in the queue. -/
def Entry.held (m : Mem) (e : Entry) : ℕ × List UInt8 := (e.state.code,load m e.ptr e.size)

variable {cfg}

theorem walk_chain {m : Mem} {x W fuel : ℕ} {ss : List Seg} (hc : Chain cfg m x ss)
    (htot : x+segsLen cfg ss = W) (hroom : segsLen cfg ss ≤ cfg.size)
    (hfuel : segsLen cfg ss ≤ fuel) :
    walk cfg m (W % 2^cfg.wordBits) fuel (x % 2^cfg.wordBits) =
      (ss.filterMap Seg.entry?).map (Entry.held m) := by
  induction ss generalizing x fuel with
  | nil =>
    obtain rfl : x = W := by simpa using htot
    cases fuel <;> simp [walk]
  | cons s ss ih =>
    have hsz := cfg.size_le
    have hword := cfg.word_ge
    have hpos := hc.segsLen_pos (List.cons_ne_nil s ss)
    have hne : W % 2^cfg.wordBits ≠ x % 2^cfg.wordBits := by
      intro heq
      have hd := cfg.sub_mod_word (a:=W) (b:=x) (by omega) (by omega)
      rw [heq,cfg.sub_mod_word le_rfl (by rw [Nat.sub_self]; exact Nat.two_pow_pos _)] at hd
      omega
    obtain ⟨hat,-,hlen,-,htail⟩ := hc
    simp only [segsLen_cons] at htot hroom hfuel
    obtain ⟨fuel,rfl⟩ : ∃ n, fuel = n+1 := ⟨fuel-1,by omega⟩
    rw [walk,if_neg hne]
    cases s with
    | filler n =>
      simp only [Seg.len] at htot hroom hfuel hlen htail
      simp only [cfg.pos_mod_word,hat.state_eq,hat.size_eq,if_true,cfg.add_mod_word,filterMap_filler]
      exact ih htail (by omega) (by omega) (by omega)
    | block e =>
      obtain ⟨hh,-,hptr,-,-,hfake,-⟩ := hat
      simp only [Seg.len] at htot hroom hfuel hlen htail
      have hcode : e.state.code ≠ BlockState.fake.code := fun h => hfake (BlockState.code_inj h)
      simp only [cfg.pos_mod_word,hh.state_eq,hh.size_eq,if_neg hcode,cfg.add_mod_word,
        filterMap_block,List.map_cons,Entry.held,hptr]
      rw [ih htail (by omega) (by omega) (by omega)]

theorem InvAt.queue_eq {s : State} {R W k : ℕ} {ss : List Seg} (h : InvAt cfg s R W ss k) :
    queue cfg s.buf = (s.log.drop k).map (Entry.held s.buf.mem) := by
  have htot := h.total
  have hroom := h.room
  rw [queue,h.read,h.write,walk_chain h.chain htot (by omega) (by omega),h.entries]

theorem Chain.delivers {m : Mem} {x : ℕ} {ss : List Seg} (hc : Chain cfg m x ss) {e : Entry}
    (he : e ∈ ss.filterMap Seg.entry?) : Delivers e (load m e.ptr e.size) := by
  obtain ⟨sg,hmem,hsg⟩ := List.mem_filterMap.mp he
  obtain ⟨A,B,rfl⟩ := List.append_of_mem hmem
  cases sg with
  | filler n => simp [Seg.entry?] at hsg
  | block e' =>
    obtain rfl : e' = e := by simpa [Seg.entry?] using hsg
    obtain ⟨-,-,-,-,-,-,hw⟩ := (chain_append.mp hc).2.1
    refine ⟨load_length _ _ _,fun off b hb => ?_⟩
    obtain ⟨hlt,hm⟩ := hw off b hb
    rw [load_getElem? _ _ _ _ hlt,hm]

/-- The block a successful `peek` returned is the oldest committed one not yet delivered. -/
theorem InvAt.peeked {s : State} {R W k ptr n : ℕ} {ss : List Seg} (h : InvAt cfg s R W ss k)
    (hr : s.reader = .peeked ptr n) :
    ∃ e, (committed (s.log.drop k)).head? = some e ∧ Delivers e (load s.buf.mem ptr n) := by
  have hreader := h.reader
  rw [hr] at hreader
  obtain ⟨pre,e,post,rfl,hpre,hst,rfl,rfl⟩ := hreader
  refine ⟨e,?_,h.chain.delivers (by simp)⟩
  rw [← h.entries,List.filterMap_append,committed_append,(entry?_passed hpre).1]
  simp [committed,hst]

theorem inv_peek_begin {s : State} (h : Inv cfg s) :
    Inv cfg { s with reader := .peeking s.buf.ixRead } := by
  obtain ⟨R,W,ss,k,h⟩ := h
  exact ⟨R,W,ss,k,{ h with reader := ⟨[],ss,rfl,by simp,by simp [h.read]⟩ }⟩

theorem inv_free_begin {s : State} {ptr n : ℕ} (h : Inv cfg s) (hr : s.reader = .peeked ptr n) :
    Inv cfg { s with reader := .freeing s.buf.ixRead (load s.buf.mem ptr n) } := by
  obtain ⟨R,W,ss,k,h⟩ := h
  have hreader := h.reader
  rw [hr] at hreader
  obtain ⟨pre,e,post,rfl,hpre,hst,rfl,rfl⟩ := hreader
  exact ⟨R,W,_,k,{ h with
    reader := ⟨[],pre,e,post,rfl,by simp,hpre,hst,h.chain.delivers (by simp),by simp [h.read]⟩ }⟩

theorem inv_step {s t : State} {e : Event} (hfits : FillerFits cfg s.buf.ixWrite)
    (h : Inv cfg s) (hs : step cfg s e = some t) : Inv cfg t := by
  cases e with
  | allocate size noWait => exact inv_allocate h hs
  | allocateStep => exact inv_allocateStep hfits h hs
  | write i off b => exact inv_write h hs
  | commit i => exact inv_settle h (by decide) hs
  | skip i => exact inv_settle h (by decide) hs
  | peekStep => exact inv_peek h hs
  | freeStep => exact inv_free h hs
  | peek =>
    simp only [step] at hs
    split at hs
    · obtain rfl := Option.some.inj hs
      exact inv_peek_begin h
    · obtain rfl := Option.some.inj hs
      exact inv_peek_begin h
    · simp at hs
  | free =>
    simp only [step] at hs
    split at hs
    · rename_i ptr n hr
      obtain rfl := Option.some.inj hs
      exact inv_free_begin h hr
    · simp at hs

theorem inv_reachable (hp : cfg.prefixSize = cfg.slotAlignment) {s : State}
    (h : (system cfg).Reachable s) : Inv cfg s := by
  refine h.invariant (P:=Inv cfg) ?_ fun _ _ _ hinv _ hs => ?_
  · rintro _ rfl
    exact inv_initial
  · obtain ⟨_,_,_,_,h⟩ := hinv
    exact inv_step (h.fillerFits hp) ⟨_,_,_,_,h⟩ hs

/-- A step of `allocate` that accepts nothing leaves the queue as it was. -/
theorem InvAt.queue_allocate {s t : State} {R W k : ℕ} {ss : List Seg} {e : Event}
    (h : InvAt cfg s R W ss k) (hs : step cfg s e = some t) (he : e.isAllocate = true)
    (hlog : t.log = s.log) : queue cfg t.buf = queue cfg s.buf := by
  cases e with
  | allocate size noWait =>
    simp only [step] at hs
    split at hs
    · rw [Option.some.inj hs]
    · split at hs
      · rw [← Option.some.inj hs]
      · simp at hs
  | allocateStep =>
    simp only [step,stepAllocate] at hs
    cases hw : s.writer with
    | idle => simp [hw] at hs
    | border f =>
      simp only [hw] at hs
      cases hfree : borderTaken cfg s.buf f with
      | true =>
        simp only [hfree,if_true] at hs
        split at hs <;> rw [← Option.some.inj hs]
      | false =>
        simp only [hfree] at hs
        obtain rfl := Option.some.inj hs
        have hwr := h.writer
        rw [hw] at hwr
        have hload := (h.wrap_frame hwr.1 hfree).2
        rw [h.queue_eq,(h.wrap hw hfree).queue_eq]
        refine List.map_congr_left fun e he => ?_
        rw [Entry.held,hload e (by rw [h.entries]; exact he),Entry.held]
    | finish f =>
      simp only [hw] at hs
      cases hfree : endTaken cfg s.buf f with
      | true =>
        simp only [hfree,if_true] at hs
        split at hs <;> rw [← Option.some.inj hs]
      | false =>
        simp only [hfree] at hs
        obtain rfl := Option.some.inj hs
        simp at hlog
  | _ => simp [Event.isAllocate] at he

theorem Config.prefixSize_eq (h : 4 ≤ cfg.kSlotBound) : cfg.prefixSize = cfg.slotAlignment := by
  have h16 : 16 ≤ cfg.slotAlignment :=
    (Nat.pow_le_pow_right (by norm_num) h : 2^4 ≤ 2^cfg.kSlotBound)
  have hn : ∀ n, 0 < n → n ≤ 10 → cfg.paddingSize n = cfg.slotAlignment := by
    intro n hpos hle
    rw [cfg.paddingSize_eq,Nat.div_eq_of_lt (by omega),Nat.mod_eq_of_lt (by omega),
      if_pos (by omega),Nat.zero_add,Nat.one_mul]
  unfold prefixSize
  split
  · exact hn 10 (by norm_num) le_rfl
  · exact hn 6 (by norm_num) (by norm_num)

theorem roundUp_sixteen (h : cfg.kSlotBound = 4) (size : ℕ) :
    roundUp cfg size = (size+15)/16*16 := by
  have h16 : cfg.slotAlignment = 16 := by rw [Config.slotAlignment,h]; norm_num
  rw [roundUp_eq,h16]
  omega

/-- The queue refinement. In every state of every run the first `k` accepted
allocations are settled, the committed ones among them are the payloads
delivered so far, in order and byte for byte, and the rest of the log is what
the buffer holds. -/
theorem delivers_committed_prefix (h16 : cfg.kSlotBound = 4) {s : State}
    (h : (system cfg).Reachable s) :
    (∃ k ≤ s.log.length,
      (∀ e ∈ s.log.take k, e.state ≠ .busy) ∧
      List.Forall₂ Delivers (committed (s.log.take k)) s.delivered ∧
      queue cfg s.buf = (s.log.drop k).map (Entry.held s.buf.mem) ∧
      (∀ e ∈ s.log.drop k, Delivers e (load s.buf.mem e.ptr e.size)) ∧
      ∀ ptr n, s.reader = .peeked ptr n → ∃ e,
        (committed (s.log.drop k)).head? = some e ∧ Delivers e (load s.buf.mem ptr n)) ∧
    (∀ e ∈ s.log, e.size = (e.requested+15)/16*16) ∧
    ∀ ev t, (system cfg).step s ev = some t → ev.isAllocate = true → t.log = s.log →
      queue cfg t.buf = queue cfg s.buf := by
  obtain ⟨R,W,ss,k,hinv⟩ := inv_reachable (Config.prefixSize_eq h16.ge) h
  refine ⟨⟨k,hinv.k_le,hinv.taken,hinv.delivered,hinv.queue_eq,?_,fun ptr n => hinv.peeked⟩,?_,
    fun ev t => hinv.queue_allocate⟩
  · intro e he
    rw [← hinv.entries] at he
    exact hinv.chain.delivers he
  · intro e he
    rw [hinv.sizes e he,roundUp_sixteen h16]

/-- A guarded buffer of 64 bytes: one payload is delivered although a `no_wait`
call in between writes a filler header and gives up. -/
theorem delivers_committed_prefix_64 :
    let cfg : Config := ⟨6,4,true,32,by decide,by decide,by decide,by decide,.inl rfl⟩
    let run := (system cfg).exec initial [.allocate 2 true,.allocateStep,.write 0 0 7,
      .write 0 1 9,.commit 0,.allocate 3 true,.allocateStep,.allocateStep,.peek,.peekStep,.free,
      .freeStep]
    run.map (fun s => (s.delivered.map (·.take 2),s.log.map (·.requested))) = some ([[7,9]],[2]) ∧
    ∀ s, run = some s →
      ∃ k ≤ s.log.length, List.Forall₂ Delivers (committed (s.log.take k)) s.delivered := by
  intro cfg run
  refine ⟨by decide,fun s hs => ?_⟩
  obtain ⟨⟨k,hk,-,hd,-⟩,-⟩ := delivers_committed_prefix (show cfg.kSlotBound = 4 from rfl)
    (ReachableBy.exec (fun _ _ _ => trivial) (.init rfl) hs)
  exact ⟨k,hk,hd⟩

end RingBuffer
end SdkCp
