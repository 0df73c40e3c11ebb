import SdkCp.ThreadedHandlerDelivery
import SdkCp.RingBufferDrain

/-! Who holds what in a `threaded_handler`. A block that is being filled belongs to one
producer, and the spinlock of the ring to the producer that is in `allocate`. -/
namespace SdkCp
namespace ThreadedHandler

open RingBuffer (Entry Waits)

variable {cfg : Config} {s t : State}

theorem Inv.rb (h : Inv cfg s) : RingBuffer.Inv cfg.toConfig s.rb :=
  RingBuffer.inv_reachable (RingBuffer.Config.prefixSize_eq cfg.default_alignment.ge) h.ring

def Producer.isAllocating : Producer → Bool
  | .allocating => true
  | _ => false

/-- The producer owns the block with number `i`. -/
def Producer.holds (i : ℕ) : Producer → Bool
  | .constructing j | .committing j _ => j == i
  | _ => false

/-- The block with number `i` is still being filled. -/
def busyAt (log : List Entry) (i : ℕ) : Bool := log[i]?.any (·.state = .busy)

/-- One producer stands in `allocate` if the ring is locked, and each busy block has one owner. -/
structure Owned (s : State) : Prop where
  writer : s.producers.countP (·.isAllocating) = (!s.rb.writer.isIdle).toNat
  blocks : ∀ i, s.producers.countP (·.holds i) = (busyAt s.rb.log i).toNat

theorem busyAt_append {log : List Entry} {e : Entry} (he : e.state = .busy) (i : ℕ) :
    (busyAt (log ++ [e]) i).toNat = (busyAt log i).toNat+(log.length == i).toNat := by
  unfold busyAt
  rw [Threads.getElem?_concat]
  split
  · rename_i hi
    subst hi
    simp [he]
  · rename_i hi
    simp [Ne.symm hi]

theorem busyAt_set {log : List Entry} {j : ℕ} {e : Entry} (e' : Entry) (he : log[j]? = some e)
    (hbusy : e.state = .busy) (i : ℕ) : (busyAt (log.set j e') i).toNat+(j == i).toNat =
      (busyAt log i).toNat+(j == i && e'.state = .busy).toNat := by
  unfold busyAt
  by_cases hij : j = i
  · subst hij
    rw [List.getElem?_set_self (List.getElem?_eq_some_iff.mp he).1,he]
    simp [hbusy,Nat.add_comm]
  · rw [List.getElem?_set_ne hij,beq_false_of_ne hij]
    rfl

theorem Owned.move (h : Owned s) {q : ℕ} {x y : Producer} (hq : s.producers[q]? = some y)
    (hproducers : t.producers = s.producers.set q x)
    (hwriter : (!t.rb.writer.isIdle).toNat+y.isAllocating.toNat =
      (!s.rb.writer.isIdle).toNat+x.isAllocating.toNat)
    (hblocks : ∀ i, (busyAt t.rb.log i).toNat+(y.holds i).toNat =
      (busyAt s.rb.log i).toNat+(x.holds i).toNat) : Owned t where
  writer := by
    have hcount := Threads.countP_set_add (b:=x) hq (·.isAllocating)
    have hold := h.writer
    rw [hproducers]
    omega
  blocks i := by
    have hcount := Threads.countP_set_add (b:=x) hq (·.holds i)
    have hold := h.blocks i
    have hnew := hblocks i
    rw [hproducers]
    omega

theorem Owned.same (h : Owned s) (hproducers : t.producers = s.producers)
    (hwriter : t.rb.writer = s.rb.writer)
    (hblocks : ∀ i, (busyAt t.rb.log i).toNat = (busyAt s.rb.log i).toNat) : Owned t where
  writer := by rw [hproducers,hwriter,h.writer]
  blocks i := by rw [hproducers,hblocks,h.blocks]

theorem allocate_begin {rb rb' : RingBuffer.State} {size : ℕ} {noWait : Bool} {f : RingBuffer.Frame}
    (hf : RingBuffer.allocateBegin cfg.toConfig rb.buf size noWait = some f)
    (hs : RingBuffer.step cfg.toConfig rb (.allocate size noWait) = some rb') :
    rb.writer = .idle ∧ rb'.writer ≠ .idle ∧ rb'.log = rb.log := by
  simp only [RingBuffer.step,hf] at hs
  split at hs
  · rename_i hw
    obtain rfl := Option.some.inj hs
    refine ⟨hw,?_,rfl⟩
    dsimp only
    split <;> simp
  · cases hs

theorem owned_push {p size : ℕ} {noWait : Bool} (h : Owned s) (hs : stepPush s p size noWait = some t) :
    Owned t := by
  simp only [stepPush] at hs
  split at hs
  · rename_i hp
    split at hs
    · cases hs
    · split at hs <;> obtain rfl := Option.some.inj hs
      · exact h.move hp rfl rfl fun i => rfl
      · exact h.move hp rfl rfl fun i => rfl
  · cases hs

theorem owned_allocate {p : ℕ} {rb : RingBuffer.State} (h : Owned s) (hp : s.producers[p]? = some .allocating)
    (hs : RingBuffer.stepAllocate cfg.toConfig s.rb = some rb) :
    Owned { s.setProducer p (afterAllocate s.rb rb) with rb } := by
  by_cases hlook : Waits cfg.toConfig s.rb
  · obtain ⟨rfl,hw⟩ := RingBuffer.stepAllocate_waits hs hlook
    have hafter : afterAllocate s.rb s.rb = .allocating := by
      unfold afterAllocate
      split
      · rename_i hidle
        exact absurd hidle hw
      · rfl
    exact h.move hp rfl (by rw [hafter]) fun i => by rw [hafter]
  obtain ⟨f,g,hw,hw',hlog⟩ | ⟨hw,hw',hlog | ⟨e,he,hlog⟩⟩ := RingBuffer.stepAllocate_cases hs hlook
  · have hafter : afterAllocate s.rb rb = .allocating := by simp only [afterAllocate,hw']
    refine h.move hp rfl ?_ fun i => ?_
    · simp only [hafter,hw,hw']
      rfl
    · simp only [hafter,hlog]
  · have hafter : afterAllocate s.rb rb = .idle := by simp only [afterAllocate,hw',hlog,if_true]
    have hlock := Bool.eq_false_of_not_eq_true (mt RingBuffer.Writer.isIdle_iff.mp hw)
    refine h.move hp rfl ?_ fun i => ?_
    · simp only [hafter,hw',hlock]
      rfl
    · simp only [hafter,hlog]
      rfl
  · have hafter : afterAllocate s.rb rb = .constructing s.rb.log.length := by
      simp [afterAllocate,hw',hlog]
    have hlock := Bool.eq_false_of_not_eq_true (mt RingBuffer.Writer.isIdle_iff.mp hw)
    refine h.move hp rfl ?_ fun i => ?_
    · simp only [hafter,hw',hlock]
      rfl
    · simp only [hafter,hlog]
      exact busyAt_append he i

theorem commit_eq {rb rb' : RingBuffer.State} {i : ℕ}
    (hs : RingBuffer.step cfg.toConfig rb (.commit i) = some rb') :
    rb'.writer = rb.writer ∧ ∃ e, rb.log[i]? = some e ∧ e.state = .busy ∧
      rb'.log = rb.log.set i { e with state := .commited } := by
  simp only [RingBuffer.step,RingBuffer.stepSettle] at hs
  split at hs
  · cases hs
  · rename_i e he
    split at hs
    · rename_i hbusy
      obtain rfl := Option.some.inj hs
      exact ⟨rfl,e,he,hbusy,rfl⟩
    · cases hs

theorem owned_producer {p : ℕ} (h : Owned s) (hs : stepProducer cfg s p = some t) : Owned t := by
  simp only [stepProducer] at hs
  split at hs
  · rename_i hp
    obtain rfl := Option.some.inj hs
    exact h.move hp rfl rfl fun i => rfl
  · rename_i hp
    obtain rfl := Option.some.inj hs
    exact h.move hp rfl rfl fun i => rfl
  · rename_i hp
    split at hs
    · obtain rfl := Option.some.inj hs
      exact h.move hp rfl rfl fun i => rfl
    · rename_i f hf
      obtain ⟨rb,hrb,rfl⟩ := Option.map_eq_some_iff.mp hs
      obtain ⟨hw,hw',hlog⟩ := allocate_begin hf hrb
      have hlock := Bool.eq_false_of_not_eq_true (mt RingBuffer.Writer.isIdle_iff.mp hw')
      refine h.move hp rfl ?_ fun i => ?_
      · simp only [hw,hlock]
        rfl
      · simp only [hlog]
        rfl
  · rename_i hp
    obtain ⟨rb,hrb,rfl⟩ := Option.map_eq_some_iff.mp hs
    exact owned_allocate h hp hrb
  · rename_i i threw hp
    obtain ⟨rb,hrb,rfl⟩ := Option.map_eq_some_iff.mp hs
    obtain ⟨hw,e,he,hbusy,hlog⟩ := commit_eq hrb
    refine h.move hp rfl ?_ fun j => ?_
    · simp only [hw]
      cases threw <;> rfl
    · have hset := busyAt_set { e with state := .commited } he hbusy j
      have hnew : (Producer.holds j (if threw = true then .idle else .signalling)) = false := by
        cases threw <;> rfl
      simp only [hlog,hnew]
      simpa [Producer.holds] using hset
  · rename_i hp
    obtain rfl := Option.some.inj hs
    exact h.move hp rfl rfl fun i => rfl
  · cases hs

theorem owned_write {p off : ℕ} {b : UInt8} (h : Owned s) (hs : stepWrite cfg s p off b = some t) : Owned t := by
  simp only [stepWrite] at hs
  split at hs
  · obtain ⟨rb,hrb,rfl⟩ := Option.map_eq_some_iff.mp hs
    simp only [RingBuffer.step,RingBuffer.stepWrite] at hrb
    split at hrb
    · cases hrb
    · rename_i e he
      split at hrb
      · rename_i hbusy
        obtain rfl := Option.some.inj hrb
        refine h.same rfl rfl fun j => ?_
        have hset :=
          busyAt_set { e with written := Function.update e.written off (some b) } he hbusy.1 j
        rw [decide_eq_true hbusy.1,Bool.and_true] at hset
        exact Nat.add_right_cancel hset
      · cases hrb
  · cases hs

theorem owned_constructor {p : ℕ} {threw : Bool} (h : Owned s) (hs : stepConstructor s p threw = some t) :
    Owned t := by
  simp only [stepConstructor] at hs
  split at hs
  · rename_i i hp
    obtain rfl := Option.some.inj hs
    exact h.move hp rfl rfl fun j => rfl
  · cases hs

theorem consumer_same {rb rb' : RingBuffer.State} {ev : RingBuffer.Event} (hev : ev.isConsumer = true)
    (hs : RingBuffer.step cfg.toConfig rb ev = some rb') : rb'.writer = rb.writer ∧ rb'.log = rb.log := by
  cases RingBuffer.step_changes hs with
  | consumer => exact ⟨rfl,rfl⟩
  | writer hev' => cases ev <;> simp [RingBuffer.Event.isAllocate,RingBuffer.Event.isConsumer] at hev hev'
  | publish he => cases hev
  | block hi hbusy hev' => rcases hev' with ⟨⟨off,b,rfl⟩,-⟩ | ⟨rfl,-⟩ | ⟨rfl,-⟩ <;> cases hev

/-- What the worker's steps leave alone. -/
structure WorkerKeeps (s t : State) : Prop where
  producers : t.producers = s.producers
  stopper : t.stopper = s.stopper
  working : t.working = s.working
  writer : t.rb.writer = s.rb.writer
  log : t.rb.log = s.rb.log

theorem worker_keeps (hs : stepWorker cfg s = some t) : WorkerKeeps s t := by
  unfold stepWorker at hs
  split at hs
  case h_3 | h_7 =>
    obtain ⟨rb,hrb,rfl⟩ := Option.map_eq_some_iff.mp hs
    obtain ⟨hw,hlog⟩ := consumer_same rfl hrb
    exact ⟨rfl,rfl,rfl,hw,hlog⟩
  case h_4 | h_8 =>
    obtain ⟨rb,hrb,rfl⟩ := Option.map_eq_some_iff.mp hs
    obtain ⟨hw,hlog⟩ := consumer_same rfl hrb
    split <;> exact ⟨rfl,rfl,rfl,hw,hlog⟩
  case h_9 => cases hs
  all_goals
    obtain rfl := Option.some.inj hs
    exact ⟨rfl,rfl,rfl,rfl,rfl⟩

theorem owned_worker (h : Owned s) (hs : stepWorker cfg s = some t) : Owned t := by
  have hkeeps := worker_keeps hs
  exact h.same hkeeps.producers hkeeps.writer fun i => by rw [hkeeps.log]

theorem owned_stop (h : Owned s) (hs : stepStop s = some t) : Owned t := by
  unfold stepStop at hs
  split at hs
  · obtain rfl := Option.some.inj hs
    exact h.same rfl rfl fun i => rfl
  · obtain rfl := Option.some.inj hs
    exact h.same rfl rfl fun i => rfl
  · split at hs
    · obtain rfl := Option.some.inj hs
      exact h.same rfl rfl fun i => rfl
    · obtain rfl := Option.some.inj hs
      exact h.same rfl rfl fun i => rfl
    · cases hs
  · obtain rfl := Option.some.inj hs
    exact h.same rfl rfl fun i => rfl

theorem owned_step {e : Event} (h : Owned s) (hs : step cfg s e = some t) : Owned t := by
  cases e with
  | push p size noWait => exact owned_push h hs
  | producer p => exact owned_producer h hs
  | write p off b => exact owned_write h hs
  | constructed p => exact owned_constructor h hs
  | threw p => exact owned_constructor h hs
  | worker => exact owned_worker h hs
  | stop => exact owned_stop h hs

theorem owned_reachable (h : (system cfg).Reachable s) : Owned s := by
  refine h.invariant (P:=Owned) ?_ fun _ _ _ howned _ hs => owned_step howned hs
  rintro _ ⟨n,callback,rfl⟩
  refine ⟨?_,fun i => ?_⟩ <;>
    simp [initial,RingBuffer.initial,List.countP_replicate,Producer.isAllocating,Producer.holds,
      RingBuffer.Writer.isIdle,busyAt]

end ThreadedHandler
end SdkCp
