import SdkCp.RingBufferLayout

/-! The invariant of `ring_buffer` and its clients: the log of accepted
allocations is what the consumer has passed followed by the chain of segments in
the buffer. It needs of the layout only that a filler header fits behind every
index where `allocate` puts one. -/
namespace SdkCp
namespace RingBuffer

open Bytes

variable {cfg : Config}

/-- The committed entries of a log, oldest first. -/
def committed (log : List Entry) : List Entry := log.filter fun e => e.state = .commited

@[simp] theorem committed_nil : committed [] = [] := rfl

@[simp] theorem committed_append (l₁ l₂ : List Entry) :
    committed (l₁++l₂) = committed l₁++committed l₂ := by simp [committed]

/-- The payload has the entry's size and every byte its producer wrote. -/
def Delivers (e : Entry) (payload : List UInt8) : Prop :=
  payload.length = e.size ∧ ∀ off b, e.written off = some b → payload[off]? = some b

/-- The running `allocate` would place its block at true index `W+rem`. -/
structure FrameOk (cfg : Config) (f : Frame) (W rem : ℕ) : Prop where
  beg : f.writeBegIx = (W+rem) % 2^cfg.wordBits
  fin : f.writeEndIx = (W+rem+(f.dataSize+cfg.kOverhead)) % 2^cfg.wordBits
  commit : f.commitSize = f.dataSize+cfg.kOverhead+rem
  position : f.bufferPos = (W+rem) % cfg.size
  data : f.dataSize = roundUp cfg f.requested
  requested_pos : 0 < f.requested
  requested_le : f.requested ≤ cfg.size/4

/-- What the producer inside `allocate` relies on. After `wrap` the filler header
is in place behind the published blocks. -/
def WriterOk (cfg : Config) (m : Mem) (R W : ℕ) : Writer → Prop
  | .idle => True
  | .border f => FrameOk cfg f W 0 ∧ cfg.size ≤ W % cfg.size+(f.dataSize+cfg.kOverhead)
  | .finish f =>
    (FrameOk cfg f W 0 ∧ (f.dataSize+cfg.kOverhead ≤ cfg.size →
      W % cfg.size+(f.dataSize+cfg.kOverhead) ≤ cfg.size)) ∨
    (FrameOk cfg f W (cfg.size-W % cfg.size) ∧
      cfg.size ≤ W % cfg.size+(f.dataSize+cfg.kOverhead) ∧
      HeaderAt cfg m (W % cfg.size) (cfg.size-W % cfg.size) .fake ∧
      W+cfg.prefixSize ≤ R+cfg.size)

/-- How far the consumer's local index is into the chain. -/
def ReaderOk (cfg : Config) (R : ℕ) (ss : List Seg) : Reader → Prop
  | .idle => True
  | .peeking ix => ∃ pre post, ss = pre++post ∧ (∀ s ∈ pre, s.Passed) ∧
      ix = (R+segsLen cfg pre) % 2^cfg.wordBits
  | .peeked ptr n => ∃ pre e post, ss = pre++.block e::post ∧ (∀ s ∈ pre, s.Passed) ∧
      e.state = .commited ∧ ptr = e.ptr ∧ n = e.size
  | .freeing ix payload => ∃ pre mid e post, ss = pre++(mid++.block e::post) ∧
      (∀ s ∈ pre, s.Passed) ∧ (∀ s ∈ mid, s.Passed) ∧ e.state = .commited ∧
      Delivers e payload ∧ ix = (R+segsLen cfg pre) % 2^cfg.wordBits

/-- The invariant at true indices `R` and `W`, with the first `k` entries of the
log behind the consumer. -/
structure InvAt (cfg : Config) (s : State) (R W : ℕ) (ss : List Seg) (k : ℕ) : Prop where
  read : s.buf.ixRead = R % 2^cfg.wordBits
  write : s.buf.ixWrite = W % 2^cfg.wordBits
  total : R+segsLen cfg ss = W
  room : W ≤ R+cfg.size
  aligned : cfg.slotAlignment ∣ W
  chain : Chain cfg s.buf.mem R ss
  k_le : k ≤ s.log.length
  entries : ss.filterMap Seg.entry? = s.log.drop k
  taken : ∀ e ∈ s.log.take k, e.state ≠ .busy
  delivered : List.Forall₂ Delivers (committed (s.log.take k)) s.delivered
  sizes : ∀ e ∈ s.log, e.size = roundUp cfg e.requested
  reader : ReaderOk cfg R ss s.reader
  writer : WriterOk cfg s.buf.mem R W s.writer
  asserts : s.asserts = true

def Inv (cfg : Config) (s : State) : Prop := ∃ R W ss k, InvAt cfg s R W ss k

theorem inv_initial : Inv cfg initial :=
  ⟨0,0,[],0,by
    constructor <;> simp [initial,segsLen,Chain,ReaderOk,WriterOk,committed]⟩

@[simp] theorem filterMap_filler (n : ℕ) (ss : List Seg) :
    (Seg.filler n::ss).filterMap Seg.entry? = ss.filterMap Seg.entry? := rfl
@[simp] theorem filterMap_block (e : Entry) (ss : List Seg) :
    (Seg.block e::ss).filterMap Seg.entry? = e::ss.filterMap Seg.entry? := rfl

theorem Chain.segsLen_pos {m : Mem} {x : ℕ} {ss : List Seg} (hc : Chain cfg m x ss)
    (hne : ss ≠ []) : 0 < segsLen cfg ss := by
  cases ss with
  | nil => exact absurd rfl hne
  | cons s ss => have := hc.2.2.1; simp; omega

theorem entry?_passed {ss : List Seg} (h : ∀ s ∈ ss, s.Passed) :
    committed (ss.filterMap Seg.entry?) = [] ∧
    ∀ e ∈ ss.filterMap Seg.entry?, e.state ≠ .busy := by
  have hskip : ∀ e ∈ ss.filterMap Seg.entry?, e.state = .skipped := by
    intro e he
    obtain ⟨s,hs,hse⟩ := List.mem_filterMap.mp he
    cases s with
    | filler n => simp [Seg.entry?] at hse
    | block e' =>
      obtain rfl : e' = e := by simpa [Seg.entry?] using hse
      exact h _ hs
  refine ⟨List.filter_eq_nil_iff.mpr fun e he => ?_,fun e he => ?_⟩
  · simp [hskip e he]
  · simp [hskip e he]

/-- An entry of the chain sits in exactly one segment, and replacing it there is
replacing it in the list of entries. -/
theorem entries_split {ss : List Seg} {j : ℕ} {e : Entry}
    (h : (ss.filterMap Seg.entry?)[j]? = some e) :
    ∃ pre post, ss = pre++.block e::post ∧
      ∀ e', (pre++.block e'::post).filterMap Seg.entry? = (ss.filterMap Seg.entry?).set j e' := by
  induction ss generalizing j with
  | nil => simp at h
  | cons s ss ih =>
    cases s with
    | filler n =>
      obtain ⟨pre,post,rfl,hset⟩ := ih (by simpa using h)
      exact ⟨.filler n::pre,post,rfl,fun e' => by simpa using hset e'⟩
    | block e₀ =>
      cases j with
      | zero =>
        obtain rfl : e₀ = e := by simpa using h
        exact ⟨[],ss,rfl,fun e' => by simp⟩
      | succ j =>
        obtain ⟨pre,post,rfl,hset⟩ := ih (by simpa using h)
        exact ⟨.block e₀::pre,post,rfl,fun e' => by simpa using hset e'⟩

theorem split_before {A B P Q : List Seg} {x : Seg} (h : A++x::B = P++Q) (hx : x ∉ P) :
    ∃ mid, A = P++mid ∧ Q = mid++x::B := by
  rcases List.append_eq_append_iff.mp h with ⟨t,rfl,ht⟩ | ⟨t,rfl,rfl⟩
  · cases t with
    | nil => exact ⟨[],by simp,by simpa using ht.symm⟩
    | cons y t =>
      obtain rfl : x = y := by simp only [List.cons_append,List.cons.injEq] at ht; exact ht.1
      simp at hx
  · exact ⟨t,rfl,rfl⟩

theorem ReaderOk.replace {R : ℕ} {A B : List Seg} {e e' : Entry} {r : Reader}
    (h : ReaderOk cfg R (A++.block e::B) r) (he : e.state = .busy) :
    ReaderOk cfg R (A++.block e'::B) r := by
  have hnot : ∀ P : List Seg, (∀ s ∈ P, s.Passed) → Seg.block e ∉ P := fun P hP hmem => by
    have : e.state = .skipped := hP _ hmem
    simp [he] at this
  cases r with
  | idle => trivial
  | peeking ix =>
    obtain ⟨pre,post,hs,hpre,hix⟩ := h
    obtain ⟨mid,rfl,rfl⟩ := split_before hs (hnot pre hpre)
    exact ⟨pre,mid++.block e'::B,by simp,hpre,hix⟩
  | peeked ptr n =>
    obtain ⟨pre,c,post,hs,hpre,hc,hptr,hn⟩ := h
    have hne : e ≠ c := fun heq => by simp [← heq,he] at hc
    obtain ⟨mid,rfl,hq⟩ := split_before
      (show A++.block e::B = (pre++[.block c])++post by simpa using hs)
      (by simp only [List.mem_append,not_or]; exact ⟨hnot pre hpre,by simpa using hne⟩)
    exact ⟨pre,c,mid++.block e'::B,by simp,hpre,hc,hptr,hn⟩
  | freeing ix payload =>
    obtain ⟨pre,mid,c,post,hs,hpre,hmid,hc,hd,hix⟩ := h
    have hne : e ≠ c := fun heq => by simp [← heq,he] at hc
    obtain ⟨mid',rfl,hq⟩ := split_before
      (show A++.block e::B = (pre++mid++[.block c])++post by simpa using hs)
      (by
        simp only [List.mem_append,not_or]
        exact ⟨⟨hnot pre hpre,hnot mid hmid⟩,by simpa using hne⟩)
    exact ⟨pre,mid,c,mid'++.block e'::B,by simp,hpre,hmid,hc,hd,hix⟩

theorem ReaderOk.append {R : ℕ} {ss ts : List Seg} {r : Reader} (h : ReaderOk cfg R ss r) :
    ReaderOk cfg R (ss++ts) r := by
  cases r with
  | idle => trivial
  | peeking ix =>
    obtain ⟨pre,post,rfl,hpre,hix⟩ := h
    exact ⟨pre,post++ts,by simp,hpre,hix⟩
  | peeked ptr n =>
    obtain ⟨pre,c,post,rfl,hrest⟩ := h
    exact ⟨pre,c,post++ts,by simp,hrest⟩
  | freeing ix payload =>
    obtain ⟨pre,mid,c,post,rfl,hrest⟩ := h
    exact ⟨pre,mid,c,post++ts,by simp,hrest⟩

/-- Rewriting one block in place: its new bytes describe the new entry and
nothing outside them changed. -/
theorem Chain.replace {m m' : Mem} {R : ℕ} {A B : List Seg} {e e' : Entry}
    (hc : Chain cfg m R (A++.block e::B)) (hsize : e'.size = e.size)
    (hroom : segsLen cfg (A++.block e::B) ≤ cfg.size)
    (hout : ∀ i, i < (R+segsLen cfg A) % cfg.size ∨
      (R+segsLen cfg A) % cfg.size+(cfg.kOverhead+e.size) ≤ i → m' i = m i)
    (hat : (Seg.block e).At cfg m ((R+segsLen cfg A) % cfg.size) →
      (Seg.block e').At cfg m' ((R+segsLen cfg A) % cfg.size)) :
    Chain cfg m' R (A++.block e'::B) := by
  rw [chain_append] at hc ⊢
  obtain ⟨hA,hblock,hfit,hlen,hfoot,hB⟩ := hc
  simp only [segsLen_append,segsLen_cons,Seg.len] at hroom
  have hlen' : (Seg.block e').len cfg = (Seg.block e).len cfg := by simp [Seg.len,hsize]
  have hfoot' : (Seg.block e').foot cfg = (Seg.block e).foot cfg := by simp [Seg.foot,hsize]
  refine ⟨?_,hat hblock,hlen' ▸ hfit,hlen' ▸ hlen,by rw [hlen',hfoot']; exact hfoot,?_⟩
  · exact hA.congr_of_outside (w:=R) hout (Or.inl ⟨le_rfl,le_rfl,by omega⟩)
  · rw [hlen']
    exact hB.congr_of_outside (w:=R) hout
      (Or.inr ⟨by omega,le_rfl,by simp only [Seg.len]; omega⟩)

theorem InvAt.find {s : State} {R W k i : ℕ} {ss : List Seg} {e : Entry}
    (h : InvAt cfg s R W ss k) (hi : s.log[i]? = some e) (hbusy : e.state = .busy) :
    k ≤ i ∧ ∃ A B, ss = A++.block e::B ∧
      ∀ e', (A++.block e'::B).filterMap Seg.entry? = (s.log.drop k).set (i-k) e' := by
  have hki : k ≤ i := by
    by_contra hlt
    have hmem : e ∈ s.log.take k := by
      rw [List.mem_iff_getElem?]
      exact ⟨i,by rw [List.getElem?_take_of_lt (by omega),hi]⟩
    exact h.taken e hmem hbusy
  have hj : (ss.filterMap Seg.entry?)[i-k]? = some e := by
    rw [h.entries,List.getElem?_drop,Nat.add_sub_cancel' hki,hi]
  obtain ⟨A,B,hss,hset⟩ := entries_split hj
  exact ⟨hki,A,B,hss,fun e' => by rw [hset,h.entries]⟩

/-- Replacing a busy entry, when its block's bytes are rewritten to match. -/
theorem InvAt.replace {s : State} {R W k i : ℕ} {ss : List Seg} {e : Entry}
    (h : InvAt cfg s R W ss k) (hi : s.log[i]? = some e) (hbusy : e.state = .busy)
    (e' : Entry) (m' : Mem)
    (hsize : e'.size = e.size) (hreq : e'.requested = e.requested)
    (hblock : ∀ p, (Seg.block e).At cfg s.buf.mem p →
      (∀ i, i < p ∨ p+(cfg.kOverhead+e.size) ≤ i → m' i = s.buf.mem i) ∧
      (Seg.block e').At cfg m' p) :
    ∃ A B, ss = A++.block e::B ∧ InvAt cfg { s with buf := { s.buf with mem := m' }, log := s.log.set i e' }
      R W (A++.block e'::B) k := by
  obtain ⟨hki,A,B,rfl,hset⟩ := h.find hi hbusy
  have hlen : segsLen cfg (A++.block e'::B) = segsLen cfg (A++.block e::B) := by
    simp [Seg.len,hsize]
  have hroom : segsLen cfg (A++.block e::B) ≤ cfg.size := by
    have := h.total; have := h.room; omega
  have hat := (chain_append.mp h.chain).2
  obtain ⟨hout,hat'⟩ := hblock _ hat.1
  refine ⟨A,B,rfl,{ h with
    total := by rw [hlen]; exact h.total
    chain := h.chain.replace hsize hroom hout fun _ => hat'
    k_le := by simpa using h.k_le
    entries := ?_
    taken := ?_
    delivered := ?_
    sizes := ?_
    reader := h.reader.replace hbusy
    writer := ?_ }⟩
  · rw [hset,List.drop_set,if_neg (by omega)]
  · rw [List.take_set_of_le hki]; exact h.taken
  · rw [List.take_set_of_le hki]; exact h.delivered
  · intro c hc
    rcases List.mem_or_eq_of_mem_set hc with hc | rfl
    · exact h.sizes c hc
    · rw [hsize,hreq]
      exact h.sizes e (List.mem_of_getElem? hi)
  · have hw := h.writer
    cases hf : s.writer with
    | idle => trivial
    | border f => rw [hf] at hw; exact hw
    | finish f =>
      rw [hf] at hw
      rcases hw with hw | ⟨hfr,hcross,hhead,hborder⟩
      · exact Or.inl hw
      · -- the filler header waits behind the chain, so the block cannot reach it
        refine Or.inr ⟨hfr,hcross,hhead.congr fun i h₁ h₂ => hout i ?_,hborder⟩
        have htot := h.total
        simp only [segsLen_append,segsLen_cons,Seg.len] at htot
        have hd : (R+segsLen cfg A) % cfg.size+(cfg.kOverhead+e.size) ≤ W % cfg.size ∨
            W % cfg.size+cfg.prefixSize ≤ (R+segsLen cfg A) % cfg.size :=
          mod_disjoint (by omega) (by omega)
        omega

theorem inv_write {s t : State} {i off : ℕ} {b : UInt8} (h : Inv cfg s)
    (hs : stepWrite s i off b = some t) : Inv cfg t := by
  unfold stepWrite at hs
  cases hi : s.log[i]? with
  | none => simp [hi] at hs
  | some e =>
    simp only [hi] at hs
    split at hs
    · rename_i hc
      obtain rfl := Option.some.inj hs
      obtain ⟨R,W,ss,k,h⟩ := h
      have hpre := cfg.stateOffset_le
      obtain ⟨A,B,-,h'⟩ := h.replace hi hc.1
        { e with written := Function.update e.written off (some b) }
        (store s.buf.mem (e.ptr+off) [b]) rfl rfl
        (fun p hat => ⟨fun i hi => store_apply_of_outside (by
          have hptr := hat.2.2.1
          have hlt := hc.2
          simp only [List.length_singleton,Config.kOverhead] at hi ⊢
          omega),hat.write hc.2⟩)
      exact ⟨R,W,_,k,h'⟩
    · simp at hs

/-- `commit` and `skip` touch the state field of their block and their assertions hold. -/
theorem updateBlockState_at {m : Mem} {p : ℕ} {e : Entry} {st : BlockState}
    (hat : (Seg.block e).At cfg m p) (hst : st ≠ .fake) :
    updateBlockState cfg m e.handle st = (storeLE m (p+cfg.stateOffset) 2 st.code,true) := by
  obtain ⟨hh,hg,-,-,-,-,-⟩ := hat.settle hst
  unfold updateBlockState
  rw [if_neg hat.2.2.2.1,hat.2.2.2.2.1]
  simp only [hh.guard,hh.size_eq]
  rw [hg]
  rfl

theorem InvAt.settle {s : State} {R W k i : ℕ} {ss : List Seg} {e : Entry} {st : BlockState}
    (h : InvAt cfg s R W ss k) (hi : s.log[i]? = some e) (hbusy : e.state = .busy)
    (hst : st ≠ .fake) : ∃ A B t, ss = A++.block e::B ∧ stepSettle cfg s i st = some t ∧
      InvAt cfg t R W (A++.block { e with state := st }::B) k ∧
      t.reader = s.reader ∧ t.writer = s.writer := by
  obtain ⟨-,A₀,B₀,hss,-⟩ := h.find hi hbusy
  have hchain := h.chain
  rw [hss,chain_append] at hchain
  have hat := hchain.2.1
  have hpre := cfg.stateOffset_le
  obtain ⟨A,B,hss',h'⟩ := h.replace hi hbusy { e with state := st }
    (storeLE s.buf.mem (cfg.pos e.handle+cfg.stateOffset) 2 st.code) rfl rfl
    (fun p hat => by
      rw [hat.2.2.2.2.1]
      exact ⟨fun i hi => storeLE_apply_of_outside (by simp only [Config.kOverhead] at hi; omega),
        hat.settle hst⟩)
  refine ⟨A,B,_,hss',?_,h',rfl,rfl⟩
  simp only [stepSettle,hi,if_pos hbusy,updateBlockState_at hat hst,hat.2.2.2.2.1,Bool.and_true]

theorem inv_settle {s t : State} {i : ℕ} {st : BlockState} (h : Inv cfg s)
    (hst : st ≠ .fake) (hs : stepSettle cfg s i st = some t) : Inv cfg t := by
  obtain ⟨R,W,ss,k,h⟩ := h
  cases hi : s.log[i]? with
  | none => simp [stepSettle,hi] at hs
  | some e =>
    by_cases hbusy : e.state = .busy
    · obtain ⟨A,B,t',-,hs',h',-⟩ := h.settle hi hbusy hst
      rw [hs'] at hs
      obtain rfl := Option.some.inj hs
      exact ⟨R,W,_,k,h'⟩
    · simp [stepSettle,hi,hbusy] at hs

/-- What `_get_first_block` reports about a segment at true index `x`. -/
def Seg.found (cfg : Config) (x : ℕ) : Seg → FirstBlock
  | .filler n => .next ((x+n) % 2^cfg.wordBits)
  | .block e =>
    match e.state with
    | .busy => .busy
    | .commited => .block ((x+(cfg.kOverhead+e.size)) % 2^cfg.wordBits) e.ptr e.size
    | _ => .next ((x+(cfg.kOverhead+e.size)) % 2^cfg.wordBits)

theorem getFirstBlock_at {m : Mem} {x : ℕ} {sg : Seg} (hat : sg.At cfg m (x % cfg.size)) :
    getFirstBlock cfg m (x % 2^cfg.wordBits) = (sg.found cfg x,true) := by
  cases sg with
  | filler n => simp [getFirstBlock,Seg.found,hat.state_eq,hat.size_eq,hat.guard]
  | block e =>
    obtain ⟨hh,hg,hptr,-,-,hfake,-⟩ := hat
    cases hst : e.state <;>
      simp_all [getFirstBlock,Seg.found,hh.state_eq,hh.size_eq,hh.guard,BlockState.code]

theorem Seg.found_of_passed {x : ℕ} {sg : Seg} (h : sg.Passed) :
    sg.found cfg x = .next ((x+sg.len cfg) % 2^cfg.wordBits) := by
  cases sg with
  | filler n => rfl
  | block e => simp [Seg.found,show e.state = .skipped from h,Seg.len]

/-- The consumer has passed `done`: they leave the chain and their entries count as taken. -/
theorem InvAt.consume {s : State} {R W k : ℕ} {done rest : List Seg}
    (h : InvAt cfg s R W (done++rest) k) (payloads : List (List UInt8)) (r : Reader)
    (hbusy : ∀ e ∈ done.filterMap Seg.entry?, e.state ≠ .busy)
    (hpay : List.Forall₂ Delivers (committed (done.filterMap Seg.entry?)) payloads)
    (hr : ReaderOk cfg (R+segsLen cfg done) rest r) :
    InvAt cfg { s with buf := advanceRead cfg s.buf ((R+segsLen cfg done) % 2^cfg.wordBits)
                       reader := r, delivered := s.delivered++payloads }
      (R+segsLen cfg done) W rest (k+(done.filterMap Seg.entry?).length) := by
  have hroom := h.room
  have htot := h.total
  have hword := cfg.word_ge
  have hsz := cfg.size_le
  have hent := h.entries
  rw [segsLen_append] at htot
  rw [List.filterMap_append] at hent
  have hk : s.log.take (k+(done.filterMap Seg.entry?).length) =
      s.log.take k++done.filterMap Seg.entry? := by
    rw [List.take_add,← hent,List.take_left]
  have hdrop : s.log.drop (k+(done.filterMap Seg.entry?).length) =
      rest.filterMap Seg.entry? := by
    rw [← List.drop_drop,← hent,List.drop_left]
  refine { h with
    read := ?_
    total := by omega
    room := by omega
    chain := (chain_append.mp h.chain).2
    k_le := by
      have hl := congrArg List.length hent
      simp only [List.length_append,List.length_drop] at hl
      have := h.k_le
      simp only
      omega
    entries := hdrop.symm
    taken := ?_
    delivered := ?_
    reader := hr
    writer := ?_ }
  · simp only [advanceRead,h.read]
    rw [cfg.sub_mod_word (by omega) (by omega),cfg.add_mod_word]
    congr 1
    omega
  · rw [hk]
    intro e he
    rcases List.mem_append.mp he with he | he
    · exact h.taken e he
    · exact hbusy e he
  · rw [hk,committed_append]
    exact List.rel_append h.delivered hpay
  · have hw := h.writer
    cases hf : s.writer with
    | idle => trivial
    | border f => rw [hf] at hw; exact hw
    | finish f =>
      rw [hf] at hw
      rcases hw with hw | ⟨hfr,hcross,hhead,hborder⟩
      · exact Or.inl hw
      · exact Or.inr ⟨hfr,hcross,hhead,by omega⟩

/-- The write index tells whether the consumer's local index is at the end of the chain. -/
theorem InvAt.write_eq_iff {s : State} {R W k : ℕ} {pre post : List Seg}
    (h : InvAt cfg s R W (pre++post) k) :
    s.buf.ixWrite = (R+segsLen cfg pre) % 2^cfg.wordBits ↔ post = [] := by
  have htot := h.total
  have hroom := h.room
  have hword := cfg.word_ge
  have hsz := cfg.size_le
  rw [segsLen_append] at htot
  rw [h.write]
  constructor
  · intro heq
    by_contra hne
    have hpos := (chain_append.mp h.chain).2.segsLen_pos hne
    have hd := cfg.sub_mod_word (a:=W) (b:=R+segsLen cfg pre) (by omega) (by omega)
    rw [heq,cfg.sub_mod_word le_rfl (by rw [Nat.sub_self]; exact Nat.two_pow_pos _)] at hd
    omega
  · rintro rfl
    rw [← htot]
    simp

theorem passed_append {pre : List Seg} {sg : Seg} (hpre : ∀ s ∈ pre, s.Passed) (hs : sg.Passed) :
    ∀ s ∈ pre++[sg], s.Passed := by
  intro s hmem
  rcases List.mem_append.mp hmem with hmem | hmem
  · exact hpre s hmem
  · rw [List.mem_singleton.mp hmem]
    exact hs

theorem inv_peek {s t : State} (h : Inv cfg s) (hs : stepPeek cfg s = some t) : Inv cfg t := by
  obtain ⟨R,W,ss,k,h⟩ := h
  have hr := h.reader
  unfold stepPeek at hs
  cases hreader : s.reader with
  | idle => simp [hreader] at hs
  | peeked ptr n => simp [hreader] at hs
  | freeing ix payload => simp [hreader] at hs
  | peeking ix =>
    simp only [hreader] at hs
    rw [hreader] at hr
    obtain ⟨pre,post,rfl,hpre,rfl⟩ := hr
    split at hs
    · rename_i heq
      obtain rfl := h.write_eq_iff.mp heq
      obtain rfl := Option.some.inj hs
      obtain ⟨hcom,hbusy⟩ := entry?_passed hpre
      have h' := h.consume [] .idle hbusy (by rw [hcom]; exact .nil) trivial
      rw [List.append_nil] at h'
      exact ⟨_,_,_,_,h'⟩
    · rename_i hne
      cases post with
      | nil => exact absurd (h.write_eq_iff.mpr rfl) hne
      | cons sg post =>
        have hat := (chain_append.mp h.chain).2.1
        rw [getFirstBlock_at hat] at hs
        by_cases hp : sg.Passed
        · simp only [Seg.found_of_passed hp,Bool.and_true] at hs
          obtain rfl := Option.some.inj hs
          exact ⟨R,W,_,k,{ h with reader := ⟨pre++[sg],post,by simp,passed_append hpre hp,
            by simp [Nat.add_assoc]⟩ }⟩
        · cases sg with
          | filler n => exact absurd trivial hp
          | block e =>
            cases hst : e.state <;> simp only [Seg.found,hst,Bool.and_true] at hs
            case busy =>
              obtain rfl := Option.some.inj hs
              exact ⟨R,W,_,k,{ h with reader := ⟨pre,_,rfl,hpre,rfl⟩ }⟩
            case fake => exact absurd hst hat.2.2.2.2.2.1
            case commited =>
              obtain rfl := Option.some.inj hs
              exact ⟨R,W,_,k,{ h with reader := ⟨pre,e,post,rfl,hpre,hst,rfl,rfl⟩ }⟩
            case skipped => exact absurd hst hp

theorem inv_free {s t : State} (h : Inv cfg s) (hs : stepFree cfg s = some t) : Inv cfg t := by
  obtain ⟨R,W,ss,k,h⟩ := h
  have hr := h.reader
  unfold stepFree at hs
  cases hreader : s.reader with
  | idle => simp [hreader] at hs
  | peeked ptr n => simp [hreader] at hs
  | peeking ix => simp [hreader] at hs
  | freeing ix payload =>
    simp only [hreader] at hs
    rw [hreader] at hr
    obtain ⟨pre,mid,c,post,rfl,hpre,hmid,hc,hd,rfl⟩ := hr
    split at hs
    · obtain rfl := Option.some.inj hs
      exact ⟨R,W,_,k,h⟩
    · cases mid with
      | cons sg mid =>
        have hat := (chain_append.mp h.chain).2.1
        have hp : sg.Passed := hmid sg (by simp)
        rw [getFirstBlock_at hat] at hs
        simp only [Seg.found_of_passed hp,Bool.and_true] at hs
        obtain rfl := Option.some.inj hs
        exact ⟨R,W,_,k,{ h with reader := ⟨pre++[sg],mid,c,post,by simp,passed_append hpre hp,
          fun s hs => hmid s (by simp [hs]),hc,hd,by simp [Nat.add_assoc]⟩ }⟩
      | nil =>
        have hat := (chain_append.mp h.chain).2.1
        rw [List.nil_append] at h
        rw [getFirstBlock_at hat] at hs
        simp only [Seg.found,hc,Bool.and_true] at hs
        obtain rfl := Option.some.inj hs
        obtain ⟨hcom,hbusy⟩ := entry?_passed hpre
        have h₁ : InvAt cfg s R W ((pre++[.block c])++post) k := by simpa using h
        have h' := h₁.consume [payload] .idle
          (by
            intro e he
            simp only [List.filterMap_append,filterMap_block,List.filterMap_nil,List.mem_append,
              List.mem_singleton] at he
            rcases he with he | rfl
            · exact hbusy e he
            · simp [hc])
          (by
            simp only [List.filterMap_append,filterMap_block,List.filterMap_nil,committed_append,hcom]
            simpa [committed,hc] using hd)
          trivial
        simp only [segsLen_append,segsLen_cons,segsLen_nil,Nat.add_zero,← Nat.add_assoc] at h'
        exact ⟨_,_,_,_,h'⟩

/-- The block numbers `allocate` compares: the block of the last byte and of the first. -/
theorem crosses_iff {f : Frame} {W c : ℕ} (hbeg : f.writeBegIx = W % 2^cfg.wordBits)
    (hend : f.writeEndIx = (W+c) % 2^cfg.wordBits) (hc : (W+c) % cfg.size ≠ 0) :
    crosses cfg f = true ↔
      (W+c) % 2^cfg.wordBits/cfg.size ≠ W % 2^cfg.wordBits/cfg.size := by
  have hlt : (W+c) % 2^cfg.wordBits/cfg.size < 2^cfg.wordBits :=
    lt_of_le_of_lt (Nat.div_le_self _ _) (Nat.mod_lt _ (Nat.two_pow_pos _))
  simp only [crosses,hbeg,hend,cfg.pos_mod_word,if_neg hc,Nat.shiftRight_eq_div_pow,decide_eq_true_eq]
  rw [show 2^cfg.kSizeBound = cfg.size from rfl,Config.sub,Nat.sub_zero,Nat.add_mod_right,
    Nat.mod_eq_of_lt hlt]

/-- A block that ends before the end of the buffer does not count as crossing. -/
theorem le_of_crosses {f : Frame} {W c : ℕ} (hbeg : f.writeBegIx = W % 2^cfg.wordBits)
    (hend : f.writeEndIx = (W+c) % 2^cfg.wordBits) (hc : 0 < c) (h : crosses cfg f = true) :
    cfg.size ≤ W % cfg.size+c := by
  by_contra hlt
  rw [not_le] at hlt
  have hn := cfg.size_pos
  obtain ⟨K,hK⟩ := cfg.size_dvd_word
  have hmod : (W+c) % cfg.size = W % cfg.size+c := by
    rw [Nat.add_mod,Nat.mod_eq_of_lt (show c < cfg.size by omega),Nat.mod_eq_of_lt hlt]
  rw [crosses_iff hbeg hend (by omega)] at h
  apply h
  have hp : W % 2^cfg.wordBits % cfg.size = W % cfg.size :=
    Nat.mod_mod_of_dvd _ cfg.size_dvd_word
  have hd := Nat.div_add_mod (W % 2^cfg.wordBits) cfg.size
  have hW := Nat.mod_lt W (Nat.two_pow_pos cfg.wordBits)
  have hb : W % 2^cfg.wordBits/cfg.size < K := by
    rw [Nat.div_lt_iff_lt_mul hn,mul_comm,← hK]; exact hW
  have hle : cfg.size*(W % 2^cfg.wordBits/cfg.size+1) ≤ cfg.size*K := Nat.mul_le_mul_left _ hb
  have hfit : W % 2^cfg.wordBits+c < 2^cfg.wordBits := by rw [mul_add] at hle; omega
  rw [← Nat.mod_add_mod,Nat.mod_eq_of_lt hfit]
  conv_lhs => rw [← hd,hp,add_assoc,Nat.mul_add_div hn,Nat.div_eq_of_lt hlt]
  rfl

/-- A block that runs over the end of the buffer, and is no longer than it, crosses. -/
theorem le_of_not_crosses {f : Frame} {W c : ℕ} (hbeg : f.writeBegIx = W % 2^cfg.wordBits)
    (hend : f.writeEndIx = (W+c) % 2^cfg.wordBits) (hc : c ≤ cfg.size)
    (h : crosses cfg f = false) : W % cfg.size+c ≤ cfg.size := by
  by_contra hgt
  rw [not_le] at hgt
  have hn := cfg.size_pos
  have hsz := cfg.size_le
  have hword := cfg.word_ge
  obtain ⟨K,hK⟩ := cfg.size_dvd_word
  have hWn := Nat.mod_lt W hn
  obtain ⟨d,hd⟩ := Nat.exists_eq_add_of_lt hgt
  have hmod : (W+c) % cfg.size = d+1 := by
    rw [← Nat.mod_add_mod,hd,add_assoc,Nat.add_mod_left,Nat.mod_eq_of_lt (by omega)]
  have hne := mt (crosses_iff hbeg hend (by omega)).mpr (by simp [h])
  rw [not_not] at hne
  have hp : W % 2^cfg.wordBits % cfg.size = W % cfg.size :=
    Nat.mod_mod_of_dvd _ cfg.size_dvd_word
  have hdiv := Nat.div_add_mod (W % 2^cfg.wordBits) cfg.size
  have hW := Nat.mod_lt W (Nat.two_pow_pos cfg.wordBits)
  have hb : W % 2^cfg.wordBits/cfg.size < K := by
    rw [Nat.div_lt_iff_lt_mul hn,mul_comm,← hK]; exact hW
  rw [← Nat.mod_add_mod] at hne
  generalize W % 2^cfg.wordBits/cfg.size = b at hne hdiv hb
  have hstep : cfg.size*(b+1) = cfg.size*b+cfg.size := by ring
  have hsum : W % 2^cfg.wordBits+c = cfg.size*(b+1)+(d+1) := by omega
  have hsmall : d+1 < cfg.size := by omega
  rw [hsum] at hne
  -- the next block either exists or is block 0 again, after the index wrapped
  rcases Nat.lt_or_ge (b+1) K with hK' | hK'
  · have hle : cfg.size*(b+1)+cfg.size ≤ cfg.size*K := by
      calc cfg.size*(b+1)+cfg.size = cfg.size*(b+1+1) := by ring
        _ ≤ cfg.size*K := Nat.mul_le_mul_left _ hK'
    have hfit : cfg.size*(b+1)+(d+1) < 2^cfg.wordBits := by omega
    rw [Nat.mod_eq_of_lt hfit,Nat.mul_add_div hn,Nat.div_eq_of_lt hsmall] at hne
    omega
  · obtain rfl : K = b+1 := by omega
    have hfit : d+1 < 2^cfg.wordBits := by omega
    rw [← hK,Nat.add_mod_left,Nat.mod_eq_of_lt hfit,Nat.div_eq_of_lt hsmall] at hne
    subst hne
    omega

theorem FrameOk.commit_lt {f : Frame} {W rem : ℕ} (h : FrameOk cfg f W rem) :
    0 < f.dataSize+cfg.kOverhead ∧ 2*(f.dataSize+cfg.kOverhead)+cfg.size < 2^32 := by
  have h₁ := @roundUp_lt cfg f.requested
  have h₂ := @le_roundUp cfg f.requested
  have h₃ := h.requested_pos
  have h₄ := h.requested_le
  have h₅ := cfg.kOverhead_lt
  have h₆ := cfg.slotAlignment_le
  have h₇ := cfg.size_le
  rw [h.data]
  omega

theorem FrameOk.dvd_commit {f : Frame} {W rem : ℕ} (h : FrameOk cfg f W rem) :
    cfg.slotAlignment ∣ f.dataSize+cfg.kOverhead := by
  rw [h.data]
  exact dvd_add (dvd_roundUp _) cfg.dvd_kOverhead

theorem InvAt.frame_begin {s : State} {R W k size : ℕ} {ss : List Seg} {noWait : Bool} {f : Frame}
    (h : InvAt cfg s R W ss k) (hf : allocateBegin cfg s.buf size noWait = some f) :
    FrameOk cfg f W 0 := by
  unfold allocateBegin at hf
  split at hf
  · simp at hf
  · rename_i hsize
    obtain rfl := Option.some.inj hf
    rw [not_or,Nat.shiftRight_eq_div_pow] at hsize
    constructor <;> simp only [h.write,Nat.add_zero,cfg.add_mod_word,cfg.pos_mod_word] <;> omega

theorem inv_allocate {s t : State} {size : ℕ} {noWait : Bool} (h : Inv cfg s)
    (hs : step cfg s (.allocate size noWait) = some t) : Inv cfg t := by
  simp only [step] at hs
  split at hs
  · obtain rfl := Option.some.inj hs
    exact h
  · rename_i f hf
    obtain ⟨R,W,ss,k,h⟩ := h
    have hfr := h.frame_begin hf
    split at hs
    · obtain rfl := Option.some.inj hs
      refine ⟨R,W,ss,k,{ h with writer := ?_ }⟩
      have hbeg := hfr.beg
      have hfin := hfr.fin
      rw [Nat.add_zero] at hbeg hfin
      cases hcross : crosses cfg f with
      | true => exact ⟨hfr,le_of_crosses hbeg hfin hfr.commit_lt.1 hcross⟩
      | false => exact Or.inl ⟨hfr,fun hc => le_of_not_crosses hbeg hfin hc hcross⟩
    · simp at hs

theorem InvAt.idle {s : State} {R W k : ℕ} {ss : List Seg} (h : InvAt cfg s R W ss k) :
    InvAt cfg { s with writer := .idle } R W ss k :=
  { h with writer := trivial }

/-- When the space test before the wrap passes, the filler header fits behind the
published blocks. -/
theorem InvAt.border_room {s : State} {R W k : ℕ} {ss : List Seg} {f : Frame}
    (h : InvAt cfg s R W ss k) (hbeg : f.writeBegIx = W % 2^cfg.wordBits)
    (hfree : borderTaken cfg s.buf f = false) : W+cfg.prefixSize ≤ R+cfg.size := by
  have htot := h.total
  have hroom := h.room
  have hsz := cfg.size_le
  have hword := cfg.word_ge
  have hpre : cfg.prefixSize < 10+cfg.slotAlignment := by
    have h₁ := cfg.paddingSize_lt 10
    have h₂ := cfg.paddingSize_lt 6
    unfold Config.prefixSize
    cases cfg.useGuard <;> simp <;> omega
  have hal := cfg.slotAlignment_le
  simp only [borderTaken,hbeg,h.read,cfg.add_mod_word,decide_eq_false_iff_not,not_lt] at hfree
  rw [cfg.sub_mod_word (by omega) (by omega)] at hfree
  omega

/-- Writing the filler header keeps the published blocks and their payloads. -/
theorem InvAt.wrap_frame {s : State} {R W k : ℕ} {ss : List Seg} {f : Frame}
    (h : InvAt cfg s R W ss k) (hfr : FrameOk cfg f W 0)
    (hfree : borderTaken cfg s.buf f = false) :
    Chain cfg (wrap cfg s.buf f).1.mem R ss ∧ ∀ e ∈ ss.filterMap Seg.entry?,
      load (wrap cfg s.buf f).1.mem e.ptr e.size = load s.buf.mem e.ptr e.size := by
  have htot := h.total
  have hborder := h.border_room hfr.beg hfree
  have hpos : f.bufferPos = W % cfg.size := hfr.position
  exact h.chain.frame (w:=R) (y:=W) (b:=cfg.prefixSize)
    (fun i hi => by rw [← hpos] at hi; exact writePrefix_apply hi)
    (Or.inl ⟨le_rfl,by omega,hborder⟩)

theorem InvAt.wrap {s : State} {R W k : ℕ} {ss : List Seg} {f : Frame}
    (h : InvAt cfg s R W ss k) (hw : s.writer = .border f)
    (hfree : borderTaken cfg s.buf f = false) :
    InvAt cfg { s with buf := (wrap cfg s.buf f).1, writer := .finish (wrap cfg s.buf f).2 }
      R W ss k := by
  have hwr := h.writer
  rw [hw] at hwr
  obtain ⟨hfr,hcross⟩ := hwr
  have hborder := h.border_room hfr.beg hfree
  have hsz := cfg.size_le
  have hpos : f.bufferPos = W % cfg.size := hfr.position
  have hbeg : f.writeBegIx = W % 2^cfg.wordBits := hfr.beg
  have hfin : f.writeEndIx = (W+(f.dataSize+cfg.kOverhead)) % 2^cfg.wordBits := hfr.fin
  have hWn := Nat.mod_lt W cfg.size_pos
  refine { h with
    chain := (h.wrap_frame hfr hfree).1
    writer := Or.inr ⟨?_,hcross,?_,hborder⟩ }
  · constructor
    · simp only [RingBuffer.wrap,hbeg,hpos,cfg.add_mod_word]
    · simp only [RingBuffer.wrap,hfin,hpos,cfg.add_mod_word]
      congr 1
      omega
    · simp only [RingBuffer.wrap,hfr.commit,hpos,Nat.add_zero]
    · have hd := Nat.div_add_mod W cfg.size
      have hsum : W+(cfg.size-W % cfg.size) = cfg.size*(W/cfg.size+1) := by rw [mul_add]; omega
      simp only [RingBuffer.wrap,hsum,Nat.mul_mod_right]
    · exact hfr.data
    · exact hfr.requested_pos
    · exact hfr.requested_le
  · simp only [RingBuffer.wrap,hpos]
    exact headerAt_writePrefix (by omega)

theorem publish_apply {b : Buffer} {f : Frame} {i : ℕ}
    (h : i < f.bufferPos ∨ f.bufferPos+(f.dataSize+cfg.kOverhead) ≤ i) :
    (publish cfg b f).mem i = b.mem i := by
  simp only [Config.kOverhead] at h
  simp only [publish]
  rw [writeGuard_apply fun hg => by have := cfg.guard_le_postfixSize hg; omega,
    writePrefix_apply (by omega)]

theorem publish_at {b : Buffer} {f : Frame} {W rem : ℕ} (hfr : FrameOk cfg f W rem)
    (hW : cfg.slotAlignment ∣ W+rem) :
    (Seg.block (f.entry cfg)).At cfg (publish cfg b f).mem ((W+rem) % cfg.size) := by
  have hc := hfr.commit_lt
  have hpos := hfr.position
  have hhandle : f.handle = (W+rem) % 2^32 := by
    rw [Frame.handle,hfr.beg,Nat.mod_mod_of_dvd]
    exact pow_dvd_pow 2 (by rcases cfg.word_eq with h | h <;> omega)
  have hfour : 4 ∣ W+rem := dvd_trans (pow_dvd_pow 2 cfg.slot_ge) hW
  refine ⟨?_,?_,by simp only [Frame.entry,hpos],?_,?_,by simp [Frame.entry],by simp [Frame.entry]⟩
  · have hh : HeaderAt cfg (writePrefix cfg b.mem f.bufferPos f.dataSize .busy) f.bufferPos
        f.dataSize .busy := headerAt_writePrefix (by omega)
    rw [← hpos]
    exact hh.congr fun i h₁ h₂ => writeGuard_apply fun _ => by omega
  · rw [← hpos]
    exact guardHolds_writeGuard _ _
  · have hmod : (W+rem) % 2^32 % 4 = 0 := by
      rw [Nat.mod_mod_of_dvd _ (by norm_num)]
      exact Nat.mod_eq_zero_of_dvd hfour
    simp only [Frame.entry,hhandle,kInvalidHandle]
    omega
  · simp only [Frame.entry,hhandle,cfg.pos_eq]
    exact Nat.mod_mod_of_dvd _ cfg.size_dvd_handle

/-- The published block behind the chain, possibly after a filler `pad`. -/
theorem InvAt.publish_block {s : State} {R W k rem : ℕ} {ss : List Seg} {f : Frame}
    (h : InvAt cfg s R W ss k) (pad : List Seg) (hfr : FrameOk cfg f W rem)
    (hpadlen : segsLen cfg pad = rem) (hpadent : pad.filterMap Seg.entry? = [])
    (hpad : Chain cfg (publish cfg s.buf f).mem W pad)
    (hal : cfg.slotAlignment ∣ W+rem)
    (hroom : W+rem+(f.dataSize+cfg.kOverhead) ≤ R+cfg.size)
    (hfit : (W+rem) % cfg.size+(f.dataSize+cfg.kOverhead) ≤ cfg.size) :
    InvAt cfg { s with buf := publish cfg s.buf f, writer := .idle
                       log := s.log ++ [f.entry cfg]
                       asserts := s.asserts && cfg.pos f.handle == f.bufferPos }
      R (W+rem+(f.dataSize+cfg.kOverhead)) (ss++(pad++[.block (f.entry cfg)])) k := by
  have htot := h.total
  have hat := publish_at (b:=s.buf) hfr hal
  have hc := hfr.commit_lt
  have hlen : (Seg.block (f.entry cfg)).len cfg = f.dataSize+cfg.kOverhead := by
    simp [Seg.len,Frame.entry,Nat.add_comm]
  have hkeep : Chain cfg (publish cfg s.buf f).mem R ss :=
    h.chain.congr_of_outside (w:=R) (y:=W+rem) (b:=f.dataSize+cfg.kOverhead)
      (fun i hi => by rw [← hfr.position] at hi; exact publish_apply hi)
      (Or.inl ⟨le_rfl,by omega,hroom⟩)
  constructor
  case read => exact h.read
  case write =>
    simp only [publish,h.write,hfr.commit,cfg.add_mod_word]
    congr 1
    omega
  case total => simp only [segsLen_append,segsLen_cons,segsLen_nil,hlen,hpadlen]; omega
  case room => exact hroom
  case aligned => exact dvd_add hal hfr.dvd_commit
  case chain =>
    refine chain_append.mpr ⟨hkeep,?_⟩
    rw [htot]
    refine chain_append.mpr ⟨hpad,?_⟩
    rw [hpadlen]
    exact ⟨hat,by rw [hlen]; exact hfit,by rw [hlen]; exact hc.1,le_of_eq rfl,trivial⟩
  case k_le => have := h.k_le; simp; omega
  case entries =>
    rw [List.filterMap_append,List.filterMap_append,h.entries,hpadent,
      List.drop_append_of_le_length h.k_le]
    rfl
  case taken => rw [List.take_append_of_le_length h.k_le]; exact h.taken
  case delivered => rw [List.take_append_of_le_length h.k_le]; exact h.delivered
  case sizes =>
    intro e he
    rcases List.mem_append.mp he with he | he
    · exact h.sizes e he
    · rw [List.mem_singleton.mp he]
      exact hfr.data
  case reader => exact h.reader.append
  case writer => trivial
  case asserts =>
    have hpos := hat.2.2.2.2.1
    simp only [Frame.entry] at hpos
    simp [h.asserts,hpos,hfr.position]

/-- Under the space test the block of the frame fits the window behind the chain. -/
theorem InvAt.room_of_free {s : State} {R W k rem : ℕ} {ss : List Seg} {f : Frame}
    (h : InvAt cfg s R W ss k) (hfr : FrameOk cfg f W rem)
    (hrem : rem ≤ f.dataSize+cfg.kOverhead) (hfree : endTaken cfg s.buf f = false) :
    W+rem+(f.dataSize+cfg.kOverhead) ≤ R+cfg.size := by
  have htot := h.total
  have hroom := h.room
  have hc := hfr.commit_lt
  have hword := cfg.word_ge
  simp only [endTaken,hfr.fin,h.read,decide_eq_false_iff_not,not_lt] at hfree
  rw [cfg.sub_mod_word (by omega) (by omega)] at hfree
  omega

/-- A wrap header at the write index ends inside the buffer. -/
def FillerFits (cfg : Config) (ixWrite : ℕ) : Prop :=
  cfg.slotAlignment ≤ cfg.size → cfg.prefixSize ≤ cfg.size-ixWrite % cfg.size

theorem Config.slot_dvd_size (h : cfg.slotAlignment ≤ cfg.size) : cfg.slotAlignment ∣ cfg.size :=
  pow_dvd_pow 2 ((Nat.pow_le_pow_iff_right (by norm_num)).mp h)

theorem InvAt.fillerFits {s : State} {R W k : ℕ} {ss : List Seg} (h : InvAt cfg s R W ss k)
    (hp : cfg.prefixSize = cfg.slotAlignment) : FillerFits cfg s.buf.ixWrite := by
  intro hle
  have hslot := Config.slot_dvd_size hle
  have hWn := Nat.mod_lt W cfg.size_pos
  rw [h.write,Nat.mod_mod_of_dvd _ cfg.size_dvd_word,hp]
  exact Nat.le_of_dvd (by omega) (Nat.dvd_sub hslot ((Nat.dvd_mod_iff hslot).mpr h.aligned))

theorem InvAt.filler_chain {s : State} {R W k : ℕ} {ss : List Seg} {f : Frame}
    (h : InvAt cfg s R W ss k) (hfits : FillerFits cfg s.buf.ixWrite)
    (hfr : FrameOk cfg f W (cfg.size-W % cfg.size))
    (hhead : HeaderAt cfg s.buf.mem (W % cfg.size) (cfg.size-W % cfg.size) .fake)
    (hroom : W+(cfg.size-W % cfg.size)+(f.dataSize+cfg.kOverhead) ≤ R+cfg.size) :
    cfg.slotAlignment ∣ cfg.size-W % cfg.size ∧
    Chain cfg (publish cfg s.buf f).mem W [.filler (cfg.size-W % cfg.size)] := by
  have htot := h.total
  have hc := hfr.commit_lt
  have hWn := Nat.mod_lt W cfg.size_pos
  -- a slot fits the buffer, so the buffer is a whole number of slots
  have hle : cfg.slotAlignment ≤ cfg.size := by
    have := Nat.le_of_dvd hc.1 hfr.dvd_commit
    omega
  have hslot := Config.slot_dvd_size hle
  have hdvd : cfg.slotAlignment ∣ cfg.size-W % cfg.size :=
    Nat.dvd_sub hslot ((Nat.dvd_mod_iff hslot).mpr h.aligned)
  have hrem : cfg.prefixSize ≤ cfg.size-W % cfg.size := by
    have hfits := hfits hle
    rwa [h.write,Nat.mod_mod_of_dvd _ cfg.size_dvd_word] at hfits
  refine ⟨hdvd,hhead.congr fun i h₁ h₂ => publish_apply ?_,?_,?_,hrem,trivial⟩
  rotate_left
  · change W % cfg.size+(cfg.size-W % cfg.size) ≤ cfg.size
    omega
  · change 0 < cfg.size-W % cfg.size
    omega
  have hd : W % cfg.size+(cfg.size-W % cfg.size) ≤ (W+(cfg.size-W % cfg.size)) % cfg.size ∨
      (W+(cfg.size-W % cfg.size)) % cfg.size+(f.dataSize+cfg.kOverhead) ≤ W % cfg.size :=
    mod_disjoint le_rfl (by omega)
  rw [hfr.position]
  have := Nat.mod_lt (W+(cfg.size-W % cfg.size)) cfg.size_pos
  omega

theorem inv_allocateStep {s t : State} (hfits : FillerFits cfg s.buf.ixWrite) (h : Inv cfg s)
    (hs : stepAllocate cfg s = some t) : Inv cfg t := by
  unfold stepAllocate at hs
  cases hw : s.writer with
  | idle => simp [hw] at hs
  | border f =>
    simp only [hw] at hs
    cases hfree : borderTaken cfg s.buf f with
    | false =>
      simp only [hfree] at hs
      obtain rfl := Option.some.inj hs
      obtain ⟨R,W,ss,k,h⟩ := h
      exact ⟨R,W,ss,k,h.wrap hw hfree⟩
    | true =>
      simp only [hfree,if_true] at hs
      split at hs <;> obtain rfl := Option.some.inj hs
      · obtain ⟨R,W,ss,k,h⟩ := h
        exact ⟨R,W,ss,k,h.idle⟩
      · exact h
  | finish f =>
    simp only [hw] at hs
    cases hfree : endTaken cfg s.buf f with
    | true =>
      simp only [hfree,if_true] at hs
      split at hs <;> obtain rfl := Option.some.inj hs
      · obtain ⟨R,W,ss,k,h⟩ := h
        exact ⟨R,W,ss,k,h.idle⟩
      · exact h
    | false =>
      simp only [hfree] at hs
      obtain rfl := Option.some.inj hs
      obtain ⟨R,W,ss,k,h⟩ := h
      have hwr := h.writer
      have htot := h.total
      rw [hw] at hwr
      rcases hwr with ⟨hfr,hfit⟩ | ⟨hfr,hcross,hhead,-⟩
      · have hroom := h.room_of_free hfr (Nat.zero_le _) hfree
        exact ⟨_,_,_,_,h.publish_block [] hfr rfl rfl trivial h.aligned hroom (hfit (by omega))⟩
      · have hWn := Nat.mod_lt W cfg.size_pos
        have hroom := h.room_of_free hfr (by omega) hfree
        obtain ⟨hdvd,hpad⟩ := h.filler_chain hfits hfr hhead hroom
        have hzero : (W+(cfg.size-W % cfg.size)) % cfg.size = 0 := by
          have hd := Nat.div_add_mod W cfg.size
          have hsum : W+(cfg.size-W % cfg.size) = cfg.size*(W/cfg.size+1) := by
            rw [mul_add]; omega
          rw [hsum,Nat.mul_mod_right]
        exact ⟨_,_,_,_,h.publish_block _ hfr (by simp [Seg.len]) rfl hpad (dvd_add h.aligned hdvd) hroom
          (by rw [hzero]; omega)⟩

end RingBuffer
end SdkCp
