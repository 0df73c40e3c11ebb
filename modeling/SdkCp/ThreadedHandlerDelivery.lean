import SdkCp.ThreadedHandler
import SdkCp.Threads

/-! What the worker of a `threaded_handler` hands out: the blocks of its ring, in
allocation order, each once. They are the constructed objects as long as no
constructor throws, since `~buffer_auto_commit` commits a block either way. -/
namespace SdkCp
namespace RingBuffer

open Bytes TransitionSystem

variable {cfg : Config} {s t : State} {ev : Event}

/-- What one step does to the log: nothing, a new block, or a change to a busy one. -/
theorem step_log (hs : step cfg s ev = some t) : t.log = s.log ∨
    (∃ e, e.state = .busy ∧ t.log = s.log++[e]) ∨
    ∃ i e e', s.log[i]? = some e ∧ e.state = .busy ∧ t.log = s.log.set i e' ∧
      (e'.state = .busy ∨ ev = .commit i ∧ e'.state = .commited ∨ ev = .skip i) := by
  cases step_changes hs with
  | writer hev => exact .inl rfl
  | publish he => exact .inr (.inl ⟨_,he,rfl⟩)
  | block hi hbusy hev =>
    rename_i i e e' _ _
    refine .inr (.inr ⟨i,e,e',hi,hbusy,rfl,?_⟩)
    rcases hev with ⟨-,hst⟩ | hev | ⟨hev,-⟩
    · exact .inl hst
    · exact .inr (.inl hev)
    · exact .inr (.inr hev)
  | consumer hev => exact .inl rfl

theorem step_settled (hs : step cfg s ev = some t) {i : ℕ} {e : Entry}
    (he : s.log[i]? = some e) (hset : e.state ≠ .busy) : t.log[i]? = some e := by
  rcases step_log hs with h | ⟨e',-,h⟩ | ⟨j,x,x',hx,hbusy,h,-⟩
  · rwa [h]
  · rw [h,List.getElem?_append_left (List.getElem?_eq_some_iff.mp he).1]
    exact he
  · have hij : j ≠ i := by
      rintro rfl
      exact hset (Option.some.inj (he.symm.trans hx) ▸ hbusy)
    rw [h,List.getElem?_set_ne hij]
    exact he

/-- A block that is settled after a step was so before, or the step settled it. -/
theorem step_settled_cases (hs : step cfg s ev = some t) {i : ℕ} {e : Entry}
    (he : t.log[i]? = some e) (hset : e.state ≠ .busy) :
    s.log[i]? = some e ∨ ev = .commit i ∧ e.state = .commited ∨ ev = .skip i := by
  rcases step_log hs with h | ⟨e',hbusy,h⟩ | ⟨j,x,x',-,-,h,hx⟩
  · exact .inl (by rwa [← h])
  · rw [h] at he
    rcases Threads.getElem?_concat_cases he with he | ⟨-,rfl⟩
    · exact .inl he
    · exact absurd hbusy hset
  · rw [h] at he
    rcases Threads.getElem?_set_cases he with ⟨rfl,rfl⟩ | ⟨-,he⟩
    · rcases hx with hx | hx | hx
      · exact absurd hx hset
      · exact .inr (.inl hx)
      · exact .inr (.inr hx)
    · exact .inl he

/-- The steps of `allocate`, of a constructor and of `commit`. -/
def Event.isProducer : Event → Bool
  | .allocate _ _ | .allocateStep | .write _ _ _ | .commit _ => true
  | _ => false

theorem step_producer (hs : step cfg s ev = some t) (hev : ev.isProducer = true) :
    t.reader = s.reader ∧ t.delivered = s.delivered := by
  cases step_changes hs with
  | consumer hcons => cases ev <;> simp [Event.isProducer,Event.isConsumer] at hev hcons
  | _ => exact ⟨rfl,rfl⟩

theorem step_peek (hs : step cfg s .peek = some t) :
    (∃ ix, t.reader = .peeking ix) ∧ t.delivered = s.delivered := by
  simp only [step] at hs
  split at hs
  · rw [← Option.some.inj hs]; exact ⟨⟨_,rfl⟩,rfl⟩
  · rw [← Option.some.inj hs]; exact ⟨⟨_,rfl⟩,rfl⟩
  · simp at hs

theorem step_peekStep (hs : step cfg s .peekStep = some t) :
    ((∃ ix, t.reader = .peeking ix) ∨ (∃ ptr n, t.reader = .peeked ptr n) ∨ t.reader = .idle) ∧
    t.delivered = s.delivered := by
  simp only [step,stepPeek] at hs
  split at hs
  · rename_i ix hr
    split at hs
    · rw [← Option.some.inj hs]; exact ⟨.inr (.inr rfl),rfl⟩
    · split at hs
      · rw [← Option.some.inj hs]; exact ⟨.inl ⟨ix,hr⟩,rfl⟩
      · rw [← Option.some.inj hs]; exact ⟨.inl ⟨_,rfl⟩,rfl⟩
      · rw [← Option.some.inj hs]; exact ⟨.inr (.inl ⟨_,_,rfl⟩),rfl⟩
  · simp at hs

theorem step_free (hs : step cfg s .free = some t) :
    (∃ ix payload, t.reader = .freeing ix payload) ∧ t.delivered = s.delivered := by
  simp only [step] at hs
  split at hs
  · rw [← Option.some.inj hs]; exact ⟨⟨_,_,rfl⟩,rfl⟩
  · simp at hs

theorem step_freeStep (hs : step cfg s .freeStep = some t) :
    (∃ ix payload, t.reader = .freeing ix payload) ∧ t.delivered = s.delivered ∨
    t.reader = .idle ∧ t.delivered.length = s.delivered.length+1 := by
  simp only [step,stepFree] at hs
  split at hs
  · rename_i ix payload hr
    split at hs
    · rw [← Option.some.inj hs]; exact .inl ⟨⟨ix,payload,hr⟩,rfl⟩
    · split at hs
      · rw [← Option.some.inj hs]; exact .inl ⟨⟨ix,payload,hr⟩,rfl⟩
      · rw [← Option.some.inj hs]; exact .inl ⟨⟨_,_,rfl⟩,rfl⟩
      · rw [← Option.some.inj hs]; exact .inr ⟨rfl,by simp⟩
  · simp at hs

/-- Where nothing is skipped, the block `peek` returned is the next one by number. -/
theorem InvAt.peeked_next {R W k ptr n : ℕ} {ss : List Seg} (h : InvAt cfg s R W ss k)
    (hlog : ∀ e ∈ s.log, e.state ≠ .busy → e.state = .commited) (hr : s.reader = .peeked ptr n) :
    ∃ e, s.log[s.delivered.length]? = some e ∧ e.state = .commited ∧ ptr = e.ptr ∧
      Delivers e (load s.buf.mem ptr n) := by
  have htaken : committed (s.log.take k) = s.log.take k := by
    refine List.filter_eq_self.mpr fun e he => ?_
    simpa using hlog e (List.mem_of_mem_take he) (h.taken e he)
  have hlen : s.delivered.length = k := by
    rw [← h.delivered.length_eq,htaken,List.length_take]
    exact Nat.min_eq_left h.k_le
  have hreader := h.reader
  rw [hr] at hreader
  obtain ⟨pre,e,post,rfl,hpre,hst,rfl,rfl⟩ := hreader
  have hent := h.entries
  rw [List.filterMap_append,filterMap_block] at hent
  -- what `peek` stepped over were fillers only
  have hnil : pre.filterMap Seg.entry? = [] := by
    refine List.eq_nil_iff_forall_not_mem.mpr fun x hx => ?_
    have hmem : x ∈ s.log := List.mem_of_mem_drop (hent ▸ List.mem_append_left _ hx)
    have hcom := hlog x hmem ((entry?_passed hpre).2 x hx)
    have : x ∈ committed (pre.filterMap Seg.entry?) := by simp [committed,hx,hcom]
    rw [(entry?_passed hpre).1] at this
    simp at this
  rw [hnil,List.nil_append] at hent
  refine ⟨e,?_,hst,rfl,h.chain.delivers (by simp)⟩
  rw [hlen,← Nat.add_zero k,← List.getElem?_drop,← hent]
  rfl

end RingBuffer

namespace ThreadedHandler

open RingBuffer (Entry Delivers Reader)

variable {cfg : Config}

/-- The objects are those of the first blocks, in allocation order. -/
def Handed (log : List Entry) (xs : List Object) : Prop :=
  ∀ (j : ℕ) (x : Object), xs[j]? = some x →
    ∃ e, log[j]? = some e ∧ e.state = .commited ∧ x.ptr = e.ptr ∧ Delivers e x.bytes

/-- Where the worker stands in the ring. -/
def ReaderMatches : Option Worker → Reader → Prop
  | some .scanning, r => ∃ ix, r = .peeking ix
  | some (.calling ptr n), r | some (.destroying ptr n), r => r = .peeked ptr n
  | some .releasing, r => ∃ ptr n, r = .peeked ptr n
  | some .freeing, r => ∃ ix payload, r = .freeing ix payload
  | _, r => r = .idle

/-- Objects passed to the callback and not yet destroyed. -/
def called : Option Worker → ℕ
  | some (.destroying _ _) => 1
  | _ => 0

/-- Objects destroyed whose block is not yet freed. -/
def dead : Option Worker → ℕ
  | some .releasing | some .freeing => 1
  | _ => 0

structure Inv (cfg : Config) (s : State) : Prop where
  ring : (RingBuffer.system cfg.toConfig).Reachable s.rb
  settled : ∀ i e, s.rb.log[i]? = some e → e.state ≠ .busy →
    e.state = .commited ∧ s.outcome i ≠ .running
  committing : ∀ (p i : ℕ) (b : Bool), s.producers[p]? = some (.committing i b) →
    s.outcome i ≠ .running
  stateBlock : s.producers.countP (·.inStateBlock) ≤ if s.worker.isNone then 1 else 0
  resetting : s.stopper = .resetting → s.worker = some .exited
  reader : ReaderMatches s.worker s.rb.reader
  destroyed_length : s.destroyed.length = s.rb.delivered.length+dead s.worker
  passed_length : s.passed.length =
    if s.callback then s.destroyed.length+called s.worker else 0
  destroyed : Handed s.rb.log s.destroyed
  passed : Handed s.rb.log s.passed

theorem inv_initial (n : ℕ) (callback : Bool) : Inv cfg (initial n callback) := by
  constructor <;> simp [initial,RingBuffer.initial,ReaderMatches,Handed,called,dead]
  · exact .init rfl
  · simp [List.getElem?_replicate]
  · simp [List.countP_replicate,Producer.inStateBlock]

theorem Handed.append {log : List Entry} {xs : List Object} {x : Object} {e : Entry}
    (h : Handed log xs) (he : log[xs.length]? = some e) (hst : e.state = .commited)
    (hptr : x.ptr = e.ptr) (hx : Delivers e x.bytes) : Handed log (xs++[x]) := by
  intro j y hy
  rcases Threads.getElem?_concat_cases hy with hy | ⟨rfl,rfl⟩
  · exact h j y hy
  · exact ⟨e,he,hst,hptr,hx⟩

theorem Handed.step {rb rb' : RingBuffer.State} {ev : RingBuffer.Event} {xs : List Object}
    (h : Handed rb.log xs) (hs : RingBuffer.step cfg.toConfig rb ev = some rb') :
    Handed rb'.log xs := by
  intro j x hx
  obtain ⟨e,he,hst,hrest⟩ := h j x hx
  exact ⟨e,RingBuffer.step_settled hs he (by rw [hst]; decide),hst,hrest⟩

theorem Inv.peeked {s : State} (h : Inv cfg s) {ptr n : ℕ} (hr : s.rb.reader = .peeked ptr n) :
    ∃ e, s.rb.log[s.rb.delivered.length]? = some e ∧ e.state = .commited ∧ ptr = e.ptr ∧
      Delivers e (Bytes.load s.rb.buf.mem ptr n) := by
  obtain ⟨_,_,_,_,hinv⟩ := RingBuffer.inv_reachable
    (RingBuffer.Config.prefixSize_eq cfg.default_alignment.ge) h.ring
  refine hinv.peeked_next (fun e he hbusy => ?_) hr
  obtain ⟨i,hi⟩ := List.getElem?_of_mem he
  exact (h.settled i e hi hbusy).1

theorem Inv.settled_step {s : State} (h : Inv cfg s) {ev : RingBuffer.Event}
    {rb : RingBuffer.State} (hs : RingBuffer.step cfg.toConfig s.rb ev = some rb)
    (hcommit : ∀ i, ev = .commit i → s.outcome i ≠ .running) (hskip : ∀ i, ev ≠ .skip i) :
    ∀ i e, rb.log[i]? = some e → e.state ≠ .busy →
      e.state = .commited ∧ s.outcome i ≠ .running := by
  intro i e he hbusy
  rcases RingBuffer.step_settled_cases hs he hbusy with he | ⟨hev,hst⟩ | hev
  · exact h.settled i e he hbusy
  · exact ⟨hst,hcommit i hev⟩
  · exact absurd hev (hskip i)

theorem ring_step {rb rb' : RingBuffer.State} {ev : RingBuffer.Event}
    (h : (RingBuffer.system cfg.toConfig).Reachable rb)
    (hs : RingBuffer.step cfg.toConfig rb ev = some rb') :
    (RingBuffer.system cfg.toConfig).Reachable rb' := h.step trivial hs

/-- How many producers are in the scope of `_state_block` when one moves. -/
theorem inStateBlock_set {ps : List Producer} {q : ℕ} {x y : Producer} (hq : ps[q]? = some y) :
    (ps.set q x).countP (·.inStateBlock)+y.inStateBlock.toNat =
      ps.countP (·.inStateBlock)+x.inStateBlock.toNat := Threads.countP_set_add hq _

/-- A producer moves on, and enters neither the scope of `_state_block` nor the
destructor of its guard. -/
theorem Inv.move {s : State} (h : Inv cfg s) {q : ℕ} {x y : Producer}
    (hq : s.producers[q]? = some y) (hx : ∀ i b, x ≠ .committing i b)
    (hblock : x.inStateBlock = true → y.inStateBlock = true) : Inv cfg (s.setProducer q x) where
  ring := h.ring
  settled := h.settled
  committing := by
    intro p i b hp
    rcases Threads.getElem?_set_cases hp with ⟨-,hp⟩ | ⟨-,hp⟩
    · exact absurd hp.symm (hx i b)
    · exact h.committing p i b hp
  stateBlock := by
    have hcount := inStateBlock_set (x:=x) hq
    have hmono : x.inStateBlock.toNat ≤ y.inStateBlock.toNat := Bool.toNat_le_toNat hblock
    refine Nat.le_trans ?_ h.stateBlock
    simp only [State.setProducer]
    omega
  resetting := h.resetting
  reader := h.reader
  destroyed_length := h.destroyed_length
  passed_length := h.passed_length
  destroyed := h.destroyed
  passed := h.passed

theorem Inv.producer_ring {s : State} (h : Inv cfg s) {ev : RingBuffer.Event}
    {rb : RingBuffer.State} (hs : RingBuffer.step cfg.toConfig s.rb ev = some rb)
    (hev : ev.isProducer = true) (hcommit : ∀ i, ev = .commit i → s.outcome i ≠ .running) :
    Inv cfg { s with rb } where
  ring := ring_step h.ring hs
  settled := h.settled_step hs hcommit (by rintro i rfl; simp [RingBuffer.Event.isProducer] at hev)
  committing := h.committing
  stateBlock := h.stateBlock
  resetting := h.resetting
  reader := by
    rw [(RingBuffer.step_producer hs hev).1]
    exact h.reader
  destroyed_length := by
    rw [(RingBuffer.step_producer hs hev).2]
    exact h.destroyed_length
  passed_length := h.passed_length
  destroyed := h.destroyed.step hs
  passed := h.passed.step hs

theorem inv_push {s t : State} {p size : ℕ} {noWait : Bool} (h : Inv cfg s)
    (hs : stepPush s p size noWait = some t) : Inv cfg t := by
  simp only [stepPush] at hs
  split at hs
  · rename_i hp
    split at hs
    · simp at hs
    · rename_i hfree
      split at hs
      · rename_i hnone
        obtain rfl := Option.some.inj hs
        have hzero : s.producers.countP (·.inStateBlock) = 0 := by
          rw [List.countP_eq_zero]
          intro x hx hin
          exact hfree (List.any_eq_true.mpr ⟨x,hx,hin⟩)
        have hcount : (s.producers.set p (.starting size noWait)).countP (·.inStateBlock) =
            s.producers.countP (·.inStateBlock)+1 := inStateBlock_set hp
        refine { h with committing := ?_, stateBlock := ?_ }
        · intro q i b hq
          rcases Threads.getElem?_set_cases hq with ⟨-,hq⟩ | ⟨-,hq⟩
          · simp at hq
          · exact h.committing q i b hq
        · simp only [State.setProducer,hnone,if_true]
          omega
      · obtain rfl := Option.some.inj hs
        exact h.move hp (by simp) (by simp [Producer.inStateBlock])
  · simp at hs

theorem inv_producer {s t : State} {p : ℕ} (h : Inv cfg s) (hs : stepProducer cfg s p = some t) :
    Inv cfg t := by
  simp only [stepProducer] at hs
  split at hs
  · rename_i size noWait hp
    obtain rfl := Option.some.inj hs
    exact { h.move (x:=.spawning size noWait) hp (by simp) (by simp [Producer.inStateBlock]) with
      ring := h.ring }
  · -- only one producer is here, and there is no worker before its step
    rename_i size noWait hp
    obtain rfl := Option.some.inj hs
    have hpos := Threads.countP_pos (p:=(·.inStateBlock)) hp rfl
    have hle := h.stateBlock
    have hcount : (s.producers.set p (.ready size noWait)).countP (·.inStateBlock)+1 =
        s.producers.countP (·.inStateBlock) := inStateBlock_set hp
    have hnone : s.worker = none := by
      cases hw : s.worker with
      | none => rfl
      | some w =>
        rw [hw] at hle
        simp only [Option.isNone_some,Bool.false_eq_true,if_false] at hle
        omega
    have hmove := h.move (x:=.ready size noWait) hp (by simp) (by simp [Producer.inStateBlock])
    have hreader := h.reader
    have hdes := h.destroyed_length
    have hpas := h.passed_length
    have hres := h.resetting
    rw [hnone] at hreader hdes hpas hle hres
    simp only [Option.isNone_none,if_true] at hle
    exact { hmove with
      stateBlock := by
        simp only [State.setProducer,Option.isNone_some,Bool.false_eq_true,if_false]
        omega
      resetting := fun hr => absurd (hres hr) (by simp)
      reader := hreader
      destroyed_length := hdes
      passed_length := hpas }
  · rename_i size noWait hp
    split at hs
    · obtain rfl := Option.some.inj hs
      exact h.move hp (by simp) (by simp [Producer.inStateBlock])
    · obtain ⟨rb,hrb,rfl⟩ := Option.map_eq_some_iff.mp hs
      exact (h.producer_ring hrb rfl (by simp)).move hp (by simp) (by simp [Producer.inStateBlock])
  · rename_i hp
    obtain ⟨rb,hrb,rfl⟩ := Option.map_eq_some_iff.mp hs
    have hafter : (∀ i b, afterAllocate s.rb rb ≠ .committing i b) ∧
        (afterAllocate s.rb rb).inStateBlock = false := by
      unfold afterAllocate
      split
      · split <;> simp [Producer.inStateBlock]
      · simp [Producer.inStateBlock]
    exact (h.producer_ring hrb rfl (by simp)).move hp hafter.1 (by simp [hafter.2])
  · rename_i i threw hp
    obtain ⟨rb,hrb,rfl⟩ := Option.map_eq_some_iff.mp hs
    refine (h.producer_ring hrb rfl ?_).move hp ?_ ?_
    · intro j hj
      obtain rfl : i = j := by simpa using hj
      exact h.committing p i threw hp
    · cases threw <;> simp
    · cases threw <;> simp [Producer.inStateBlock]
  · rename_i hp
    obtain rfl := Option.some.inj hs
    exact { h.move (x:=.idle) hp (by simp) (by simp [Producer.inStateBlock]) with ring := h.ring }
  · simp at hs

theorem inv_write {s t : State} {p off : ℕ} {b : UInt8} (h : Inv cfg s)
    (hs : stepWrite cfg s p off b = some t) : Inv cfg t := by
  simp only [stepWrite] at hs
  split at hs
  · obtain ⟨rb,hrb,rfl⟩ := Option.map_eq_some_iff.mp hs
    exact h.producer_ring hrb rfl (by simp)
  · simp at hs

theorem inv_constructor {s t : State} {p : ℕ} {threw : Bool} (h : Inv cfg s)
    (hs : stepConstructor s p threw = some t) : Inv cfg t := by
  simp only [stepConstructor] at hs
  split at hs
  · rename_i i hp
    obtain rfl := Option.some.inj hs
    have hended : ∀ j, s.outcome j ≠ .running ∨ j = i →
        Function.update s.outcome i (if threw then Outcome.threw else .completed) j ≠ .running := by
      intro j hj
      rw [Function.update_apply]
      split
      · cases threw <;> simp
      · rename_i hne
        exact hj.resolve_right hne
    have hcount : (s.producers.set p (.committing i threw)).countP (·.inStateBlock) =
        s.producers.countP (·.inStateBlock) := inStateBlock_set hp
    exact { h with
      settled := fun j e he hbusy =>
        ⟨(h.settled j e he hbusy).1,hended j (.inl (h.settled j e he hbusy).2)⟩
      committing := by
        intro q j b hq
        rcases Threads.getElem?_set_cases hq with ⟨-,hq⟩ | ⟨-,hq⟩
        · exact hended j (.inr (Producer.committing.inj hq).1)
        · exact hended j (.inl (h.committing q j b hq))
      stateBlock := by
        refine Nat.le_trans ?_ h.stateBlock
        simp only [State.setProducer]
        omega }
  · simp at hs

/-- The worker, not having exited, takes a step of the ring on its way to `w`. -/
theorem Inv.worker_ring {s : State} (h : Inv cfg s) {ev : RingBuffer.Event}
    {rb : RingBuffer.State} {v w : Worker} (hw : s.worker = some v) (hv : v ≠ .exited)
    (hs : RingBuffer.step cfg.toConfig s.rb ev = some rb) (hcommit : ∀ i, ev ≠ .commit i)
    (hskip : ∀ i, ev ≠ .skip i) (hreader : ReaderMatches (some w) rb.reader)
    (hdead : s.rb.delivered.length+dead (some v) = rb.delivered.length+dead (some w))
    (hcalled : called (some v) = called (some w)) :
    Inv cfg { s with rb, worker := some w } where
  ring := ring_step h.ring hs
  settled := h.settled_step hs (fun i hi => absurd hi (hcommit i)) hskip
  committing := h.committing
  stateBlock := by
    have hle := h.stateBlock
    rw [hw] at hle
    exact hle
  resetting := fun hr => absurd (Option.some.inj (hw.symm.trans (h.resetting hr))) hv
  reader := hreader
  destroyed_length := by rw [h.destroyed_length,hw,hdead]
  passed_length := by rw [h.passed_length,hw,hcalled]
  destroyed := h.destroyed.step hs
  passed := h.passed.step hs

theorem Inv.worker_move {s : State} (h : Inv cfg s) {v w : Worker} (hw : s.worker = some v)
    (hv : v ≠ .exited) (hreader : ReaderMatches (some w) s.rb.reader)
    (hdead : dead (some v) = dead (some w)) (hcalled : called (some v) = called (some w)) :
    Inv cfg { s with worker := some w } :=
  { h with
    stateBlock := by
      have hle := h.stateBlock
      rw [hw] at hle
      exact hle
    resetting := fun hr => absurd (Option.some.inj (hw.symm.trans (h.resetting hr))) hv
    reader := hreader
    destroyed_length := by rw [h.destroyed_length,hw,hdead]
    passed_length := by rw [h.passed_length,hw,hcalled] }

theorem inv_worker {s t : State} (h : Inv cfg s) (hs : stepWorker cfg s = some t) : Inv cfg t := by
  have hreader := h.reader
  have hdes := h.destroyed_length
  have hpas := h.passed_length
  have hstate := h.stateBlock
  simp only [stepWorker] at hs
  split at hs
  case h_1 hw =>
    obtain rfl := Option.some.inj hs
    rw [hw] at hreader
    refine h.worker_move hw (by simp) ?_ ?_ ?_
    · split <;> exact hreader
    · split <;> rfl
    · split <;> rfl
  case h_2 hw =>
    obtain rfl := Option.some.inj hs
    rw [hw] at hreader
    exact { h.worker_move (w:=.peeking) hw (by simp) hreader rfl rfl with ring := h.ring }
  case h_3 hw =>
    obtain ⟨rb,hrb,rfl⟩ := Option.map_eq_some_iff.mp hs
    obtain ⟨hr,hd⟩ := RingBuffer.step_peek hrb
    exact h.worker_ring hw (by simp) hrb (by simp) (by simp) hr (by rw [hd]; rfl) rfl
  case h_4 hw =>
    obtain ⟨rb,hrb,rfl⟩ := Option.map_eq_some_iff.mp hs
    obtain ⟨hr,hd⟩ := RingBuffer.step_peekStep hrb
    rcases hr with ⟨ix,hr⟩ | ⟨ptr,n,hr⟩ | hr
    · have hring := h.worker_ring (w:=.scanning) hw (by simp) hrb (by simp) (by simp) ⟨ix,hr⟩
        (by rw [hd]) rfl
      rw [← hw] at hring
      simpa only [hr] using hring
    · simp only [hr]
      exact h.worker_ring hw (by simp) hrb (by simp) (by simp) hr (by rw [hd]; rfl) rfl
    · simp only [hr]
      exact h.worker_ring hw (by simp) hrb (by simp) (by simp) hr (by rw [hd]; rfl) rfl
  case h_5 ptr n hw =>
    obtain rfl := Option.some.inj hs
    rw [hw] at hreader hdes hpas hstate
    obtain ⟨e,he,hst,hptr,hbytes⟩ := h.peeked hreader
    have hlen : s.destroyed.length = s.rb.delivered.length := hdes
    refine { h with stateBlock := hstate, reader := hreader, destroyed_length := hdes,
                    resetting := fun hr => ?_, passed_length := ?_, passed := ?_ }
    · exact absurd (hw.symm.trans (h.resetting hr)) (by simp)
    · by_cases hc : s.callback
      · simp only [hc,if_true,called,Nat.add_zero] at hpas
        simp only [hc,if_true,called,List.length_append,List.length_singleton,hpas]
      · simp only [hc] at hpas ⊢
        exact hpas
    · by_cases hc : s.callback
      · simp only [hc,if_true,called,Nat.add_zero] at hpas
        simp only [hc,if_true]
        exact h.passed.append (by rw [hpas,hlen]; exact he) hst hptr hbytes
      · simp only [hc]
        exact h.passed
  case h_6 ptr n hw =>
    obtain rfl := Option.some.inj hs
    rw [hw] at hreader hdes hpas hstate
    obtain ⟨e,he,hst,hptr,hbytes⟩ := h.peeked hreader
    have hlen : s.destroyed.length = s.rb.delivered.length := hdes
    refine { h with stateBlock := hstate, reader := ⟨ptr,n,hreader⟩, destroyed_length := ?_,
                    resetting := fun hr => ?_, passed_length := ?_, destroyed := ?_ }
    · exact absurd (hw.symm.trans (h.resetting hr)) (by simp)
    · rw [List.length_append,hlen]
      rfl
    · rw [List.length_append]
      exact hpas
    · exact h.destroyed.append (by rw [hlen]; exact he) hst hptr hbytes
  case h_7 hw =>
    obtain ⟨rb,hrb,rfl⟩ := Option.map_eq_some_iff.mp hs
    obtain ⟨hr,hd⟩ := RingBuffer.step_free hrb
    exact h.worker_ring hw (by simp) hrb (by simp) (by simp) hr (by rw [hd]; rfl) rfl
  case h_8 hw =>
    obtain ⟨rb,hrb,rfl⟩ := Option.map_eq_some_iff.mp hs
    rcases RingBuffer.step_freeStep hrb with ⟨⟨ix,payload,hr⟩,hd⟩ | ⟨hr,hd⟩
    · have hring := h.worker_ring (w:=.freeing) hw (by simp) hrb (by simp) (by simp)
        ⟨ix,payload,hr⟩ (by rw [hd]) rfl
      rw [← hw] at hring
      simpa only [hr] using hring
    · simp only [hr]
      exact h.worker_ring hw (by simp) hrb (by simp) (by simp) hr (by rw [hd]; rfl) rfl
  case h_9 => simp at hs

theorem inv_stop {s t : State} (h : Inv cfg s) (hs : stepStop s = some t) : Inv cfg t := by
  simp only [stepStop] at hs
  split at hs
  · obtain rfl := Option.some.inj hs
    exact { h with resetting := by simp }
  · obtain rfl := Option.some.inj hs
    exact { h with resetting := by simp }
  · split at hs
    · obtain rfl := Option.some.inj hs
      exact { h with resetting := by simp }
    · rename_i hw
      obtain rfl := Option.some.inj hs
      exact { h with resetting := fun _ => hw }
    · simp at hs
  · rename_i hst
    obtain rfl := Option.some.inj hs
    have hw := h.resetting hst
    have hreader := h.reader
    have hdes := h.destroyed_length
    have hpas := h.passed_length
    have hstate := h.stateBlock
    rw [hw] at hreader hdes hpas hstate
    exact { h with
      resetting := by simp
      stateBlock := Nat.le_trans hstate (by simp)
      reader := hreader
      destroyed_length := hdes
      passed_length := hpas }

theorem inv_step {s t : State} {e : Event} (h : Inv cfg s) (hs : step cfg s e = some t) :
    Inv cfg t := by
  cases e with
  | push p size noWait => exact inv_push h hs
  | producer p => exact inv_producer h hs
  | write p off b => exact inv_write h hs
  | constructed p => exact inv_constructor h hs
  | threw p => exact inv_constructor h hs
  | worker => exact inv_worker h hs
  | stop => exact inv_stop h hs

theorem inv_reachable {ok : State → Event → Prop} {s : State}
    (h : (system cfg).ReachableBy ok s) : Inv cfg s := by
  refine h.invariant (P:=Inv cfg) ?_ fun _ _ _ hinv _ hs => inv_step hinv hs
  rintro _ ⟨n,callback,rfl⟩
  exact inv_initial n callback

/-- The allocation numbers of the objects whose constructor completed. -/
def State.completed (s : State) : List ℕ :=
  (List.range s.rb.log.length).filter fun i => s.outcome i = .completed

/-- `x` is what the constructor left in the block with number `i`. -/
def IsObject (s : State) (i : ℕ) (x : Object) : Prop :=
  ∃ e, s.rb.log[i]? = some e ∧ x.ptr = e.ptr ∧ Delivers e x.bytes

/-- The objects passed to the callback and then destroyed are the first of those that
were constructed, in allocation order. -/
structure Delivered (s : State) : Prop where
  passed : List.Forall₂ (IsObject s) (s.completed.take s.passed.length) s.passed
  destroyed : List.Forall₂ (IsObject s) (s.completed.take s.destroyed.length) s.destroyed
  order : s.callback = true →
    s.passed.length = s.destroyed.length ∨ s.passed.length = s.destroyed.length+1

theorem range_filter_take {p : ℕ → Bool} {n m : ℕ} (hle : n ≤ m) (hp : ∀ i < n, p i = true) :
    ((List.range m).filter p).take n = List.range n := by
  obtain ⟨k,rfl⟩ := Nat.exists_eq_add_of_le hle
  have hfirst : (List.range n).filter p = List.range n :=
    List.filter_eq_self.mpr fun i hi => hp i (List.mem_range.mp hi)
  rw [List.range_add,List.filter_append,hfirst,List.take_left' (List.length_range)]

/-- Whatever the constructors did, the objects are those of the first settled blocks. -/
theorem Inv.handed {s : State} (h : Inv cfg s) {xs : List Object} (hxs : Handed s.rb.log xs)
    {i : ℕ} (hi : i < xs.length) : i < s.rb.log.length ∧ s.outcome i ≠ .running := by
  obtain ⟨e,he,hst,-⟩ := hxs i _ (List.getElem?_eq_getElem hi)
  exact ⟨(List.getElem?_eq_some_iff.mp he).1,(h.settled i e he (by rw [hst]; decide)).2⟩

theorem Inv.forall_isObject {s : State} (h : Inv cfg s) (hthrow : ∀ i, s.outcome i ≠ .threw)
    {xs : List Object} (hxs : Handed s.rb.log xs) :
    List.Forall₂ (IsObject s) (s.completed.take xs.length) xs := by
  have hle : xs.length ≤ s.rb.log.length := by
    rcases Nat.eq_zero_or_pos xs.length with h0 | hpos
    · omega
    · have := (h.handed hxs (i:=xs.length-1) (by omega)).1
      omega
  have htake : s.completed.take xs.length = List.range xs.length := by
    refine range_filter_take hle fun i hi => ?_
    have hrun := (h.handed hxs hi).2
    have hthr := hthrow i
    cases ho : s.outcome i <;> simp_all
  rw [htake]
  refine List.forall₂_iff_get.mpr ⟨List.length_range,fun i h₁ h₂ => ?_⟩
  obtain ⟨e,he,-,hx⟩ := hxs i _ (List.getElem?_eq_getElem h₂)
  simp only [List.get_eq_getElem,List.getElem_range]
  exact ⟨e,he,hx⟩

theorem step_outcome {s t : State} {e : Event} (hs : step cfg s e = some t) :
    t.outcome = s.outcome ∨ ∃ p i, e = .constructed p ∧
      t.outcome = Function.update s.outcome i .completed ∨
      e = .threw p ∧ t.outcome = Function.update s.outcome i .threw := by
  cases e with
  | push p size noWait =>
    simp only [step,stepPush,State.setProducer] at hs
    split at hs
    · split at hs
      · simp at hs
      · split at hs <;> exact .inl (by rw [← Option.some.inj hs])
    · simp at hs
  | producer p =>
    simp only [step,stepProducer,State.setProducer] at hs
    split at hs
    · exact .inl (by rw [← Option.some.inj hs])
    · exact .inl (by rw [← Option.some.inj hs])
    · split at hs
      · exact .inl (by rw [← Option.some.inj hs])
      · obtain ⟨rb,-,rfl⟩ := Option.map_eq_some_iff.mp hs
        exact .inl rfl
    · obtain ⟨rb,-,rfl⟩ := Option.map_eq_some_iff.mp hs
      exact .inl rfl
    · obtain ⟨rb,-,rfl⟩ := Option.map_eq_some_iff.mp hs
      exact .inl rfl
    · exact .inl (by rw [← Option.some.inj hs])
    · simp at hs
  | write p off b =>
    simp only [step,stepWrite] at hs
    split at hs
    · obtain ⟨rb,-,rfl⟩ := Option.map_eq_some_iff.mp hs
      exact .inl rfl
    · simp at hs
  | constructed p =>
    simp only [step,stepConstructor] at hs
    split at hs
    · rename_i i _
      exact .inr ⟨p,i,.inl ⟨rfl,by rw [← Option.some.inj hs]; rfl⟩⟩
    · simp at hs
  | threw p =>
    simp only [step,stepConstructor] at hs
    split at hs
    · rename_i i _
      exact .inr ⟨p,i,.inr ⟨rfl,by rw [← Option.some.inj hs]; rfl⟩⟩
    · simp at hs
  | worker =>
    simp only [step,stepWorker] at hs
    split at hs
    case h_9 => simp at hs
    all_goals
      first
      | exact .inl (by rw [← Option.some.inj hs])
      | obtain ⟨rb,-,rfl⟩ := Option.map_eq_some_iff.mp hs
        first
        | exact .inl rfl
        | split <;> exact .inl rfl
  | stop =>
    simp only [step,stepStop] at hs
    split at hs
    · exact .inl (by rw [← Option.some.inj hs])
    · exact .inl (by rw [← Option.some.inj hs])
    · split at hs
      · exact .inl (by rw [← Option.some.inj hs])
      · exact .inl (by rw [← Option.some.inj hs])
      · simp at hs
    · exact .inl (by rw [← Option.some.inj hs])

theorem outcome_ne_threw {s : State}
    (h : (system cfg).ReachableBy (fun _ e => e.isThrow = false) s) (i : ℕ) :
    s.outcome i ≠ .threw := by
  revert i
  refine h.invariant (P:=fun s => ∀ i, s.outcome i ≠ .threw) ?_ fun s e t hinv hok hs => ?_
  · rintro _ ⟨n,callback,rfl⟩ i
    simp [initial]
  · intro i
    rcases step_outcome hs with ho | ⟨p,j,⟨-,ho⟩ | ⟨rfl,-⟩⟩
    · rw [ho]
      exact hinv i
    · rw [ho,Function.update_apply]
      split
      · simp
      · exact hinv i
    · simp [Event.isThrow] at hok

/-- As long as no constructor throws, the objects handed out are a prefix of the
constructed ones. -/
theorem delivered_of_no_throw {s : State}
    (h : (system cfg).ReachableBy (fun _ e => e.isThrow = false) s) : Delivered s := by
  have hinv := inv_reachable h
  have hthrow := outcome_ne_threw h
  refine ⟨hinv.forall_isObject hthrow hinv.passed,hinv.forall_isObject hthrow hinv.destroyed,
    fun hc => ?_⟩
  rw [hinv.passed_length,if_pos hc]
  unfold called
  split
  · exact .inr rfl
  · exact .inl rfl

/-- One object is handed out, `stop` ends the worker, and a later `push` starts another. -/
theorem delivered_of_no_throw_restart :
    let cfg : Config := ⟨⟨6,4,false,32,by decide,by decide,by decide,by decide,.inl rfl⟩,rfl⟩
    let run := (system cfg).exec (initial 2 true) (([.push 0 2 true,.producer 0,.producer 0,
      .producer 0,.producer 0,.write 0 0 7,.write 0 1 9,.constructed 0,.producer 0] : List Event)++
      List.replicate 8 .worker++([.stop,.stop] : List Event)++List.replicate 3 .worker++([.stop,.stop,
      .push 1 3 true,.producer 1,.producer 1,.producer 1,.producer 1] : List Event))
    run.map (fun s => (s.destroyed.map (·.bytes.take 2),s.completed,s.rb.log.length)) =
      some ([[7,9]],[0],2) ∧
    ∀ s, run = some s → Delivered s := by
  intro cfg run
  refine ⟨by decide,fun s hs => @delivered_of_no_throw cfg _ ?_⟩
  exact TransitionSystem.ReachableBy.exec (fun _ e he => by fin_cases he <;> rfl)
    (.init ⟨2,true,rfl⟩) hs

/-- A handler over 64 bytes: the first constructor throws and its block is handed to the
callback and destroyed; no object was ever constructed. -/
theorem not_delivered_after_throw : ¬∀ s, (system ⟨⟨6,4,false,32,by decide,by decide,by decide,
    by decide,.inl rfl⟩,rfl⟩).Reachable s → Delivered s := by
  intro hall
  let cfg : Config := ⟨⟨6,4,false,32,by decide,by decide,by decide,by decide,.inl rfl⟩,rfl⟩
  let run := (system cfg).exec (initial 1 true) (([.push 0 1 true,.producer 0,.producer 0,
    .producer 0,.producer 0,.threw 0,.producer 0] : List Event)++List.replicate 6 .worker)
  have hrun : run.map (fun s => (s.completed,s.destroyed.length)) = some ([],1) := by decide
  obtain ⟨s,hs,hval⟩ := Option.map_eq_some_iff.mp hrun
  obtain ⟨hcom,hdes⟩ := Prod.mk.inj hval
  have hlen := (hall s (TransitionSystem.ReachableBy.exec (fun _ _ _ => trivial)
    (.init ⟨1,true,rfl⟩) hs)).destroyed.length_eq
  rw [hcom,hdes] at hlen
  simp at hlen

end ThreadedHandler
end SdkCp
