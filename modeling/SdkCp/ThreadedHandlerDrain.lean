import SdkCp.ThreadedHandlerOwners

/-! The calls of a `threaded_handler` that are under way complete. While the worker runs somebody
can always move: the owner of a busy block can finish it, the worker hands out what is
committed, and the producer that waits for room finds it in the drained ring. A notification that
the worker misses costs it the timeout of its `wait`. -/
namespace SdkCp
namespace ThreadedHandler

open TransitionSystem
open RingBuffer (Entry Delivers Reader CaughtUp Spins Waits)

variable {cfg : Config} {s t : State}

/-- How far a producer is from the end of its call. -/
def Producer.rank : Producer → ℕ
  | .idle => 0
  | .signalling => 1
  | .committing _ _ => 2
  | .constructing _ => 3
  | .allocating => 4
  | .ready _ _ => 6
  | .spawning _ _ => 7
  | .starting _ _ => 8

def writerRank : RingBuffer.Writer → ℕ
  | .border _ => 1
  | .idle | .finish _ => 0

def Stopper.rank : Stopper → ℕ
  | .idle => 0
  | .resetting => 1
  | .joining => 2
  | .signalling => 3

/-- The steps left of the calls under way. -/
def State.calls (s : State) : ℕ := (s.producers.map Producer.rank).sum+writerRank s.rb.writer+s.stopper.rank

/-- The worker's steps until it has nothing to hand out, with one look at the empty ring. -/
def State.looks (cfg : Config) (s : State) : ℕ :=
  let round := 4*(s.rb.work cfg.toConfig+cfg.size+8)
  match s.worker with
  | some .testing => if s.working then if CaughtUp s.rb then 0 else round+3 else 1
  | some .waiting => round+2
  | some .peeking => round+1
  | some .scanning => 4*s.rb.work cfg.toConfig+if CaughtUp s.rb then 0 else 4*(cfg.size+8)
  | some (.calling _ _) => round+3
  | some (.destroying _ _) => round+2
  | some .releasing => round+1
  | some .freeing => round
  | some .exited | none => 0

def Config.maxLooks (cfg : Config) : ℕ := 4*(cfg.size*(2*cfg.size+8)+3*cfg.size+14)

/-- A step of a call may cost the worker all its looks. -/
def State.work (cfg : Config) (s : State) : ℕ := s.calls*cfg.maxLooks+s.looks cfg

/-- The threads go on with what they are at: no new call is made, and nobody looks for room
or at a busy block in vain. -/
def Moves (cfg : Config) (s : State) : Event → Prop
  | .producer p => s.producers[p]? = some .allocating → ¬Waits cfg.toConfig s.rb
  | .constructed _ | .threw _ => True
  | .worker => ¬Spins cfg.toConfig s.rb ∧
    (s.worker = some .testing → s.working = true → ¬CaughtUp s.rb)
  | .stop => s.stopper ≠ .idle
  | .push _ _ _ | .write _ _ _ => False

theorem looks_lt (h : Inv cfg s) : s.looks cfg < cfg.maxLooks := by
  have hle := RingBuffer.work_le h.rb
  unfold State.looks Config.maxLooks
  dsimp only
  split
  · split
    · split <;> omega
    · omega
  all_goals first | omega | split <;> omega

theorem calls_move {p : ℕ} {x y : Producer} (hp : s.producers[p]? = some y)
    (hproducers : t.producers = s.producers.set p x) (hstopper : t.stopper = s.stopper)
    (hlt : x.rank+writerRank t.rb.writer < y.rank+writerRank s.rb.writer) : t.calls < s.calls := by
  have hsum := sum_map_set_add hp x Producer.rank
  simp only [State.calls,hproducers,hstopper]
  omega

theorem writerRank_le (w : RingBuffer.Writer) : writerRank w ≤ 1 := by
  cases w <;> simp [writerRank]

theorem producer_calls {p : ℕ} (hlook : Moves cfg s (.producer p))
    (hs : stepProducer cfg s p = some t) :
    t.calls < s.calls := by
  simp only [stepProducer] at hs
  split at hs
  · rename_i hp
    obtain rfl := Option.some.inj hs
    exact calls_move hp rfl rfl (by simp [State.setProducer,Producer.rank])
  · rename_i hp
    obtain rfl := Option.some.inj hs
    exact calls_move hp rfl rfl (by simp [State.setProducer,Producer.rank])
  · rename_i hp
    split at hs
    · obtain rfl := Option.some.inj hs
      exact calls_move hp rfl rfl (by simp [State.setProducer,Producer.rank])
    · rename_i f hf
      obtain ⟨rb,hrb,rfl⟩ := Option.map_eq_some_iff.mp hs
      have hle := writerRank_le rb.writer
      refine calls_move hp rfl rfl ?_
      simp only [Producer.rank]
      omega
  · rename_i hp
    obtain ⟨rb,hrb,rfl⟩ := Option.map_eq_some_iff.mp hs
    obtain ⟨f,g,hw,hw',-⟩ | ⟨hw,hw',hlog⟩ := RingBuffer.stepAllocate_cases hrb (hlook hp)
    · refine calls_move hp rfl rfl ?_
      simp only [afterAllocate,hw,hw',Producer.rank,writerRank]
      omega
    · refine calls_move hp rfl rfl ?_
      have hle : (afterAllocate s.rb rb).rank ≤ 3 := by
        simp only [afterAllocate,hw']
        split <;> simp [Producer.rank]
      have hzero : writerRank rb.writer = 0 := by rw [hw']; rfl
      change _+writerRank rb.writer < 4+_
      omega
  · rename_i i threw hp
    obtain ⟨rb,hrb,rfl⟩ := Option.map_eq_some_iff.mp hs
    refine calls_move hp rfl rfl ?_
    rw [(commit_eq hrb).1]
    cases threw <;> simp [Producer.rank]
  · rename_i hp
    obtain rfl := Option.some.inj hs
    exact calls_move hp rfl rfl (by simp [State.setProducer,Producer.rank])
  · cases hs

theorem constructor_calls {p : ℕ} {threw : Bool} (hs : stepConstructor s p threw = some t) :
    t.calls < s.calls := by
  simp only [stepConstructor] at hs
  split at hs
  · rename_i i hp
    obtain rfl := Option.some.inj hs
    exact calls_move hp rfl rfl (by simp [State.setProducer,Producer.rank])
  · cases hs

theorem stop_calls (hon : s.stopper ≠ .idle) (hs : stepStop s = some t) : t.calls < s.calls := by
  unfold stepStop at hs
  split at hs
  · rename_i hidle
    exact absurd hidle hon
  · rename_i hst
    obtain rfl := Option.some.inj hs
    simp only [State.calls,hst,Stopper.rank]
    omega
  · rename_i hst
    split at hs
    · obtain rfl := Option.some.inj hs
      simp only [State.calls,hst,Stopper.rank]
      omega
    · obtain rfl := Option.some.inj hs
      simp only [State.calls,hst,Stopper.rank]
      omega
    · cases hs
  · rename_i hst
    obtain rfl := Option.some.inj hs
    simp only [State.calls,hst,Stopper.rank]
    omega

theorem worker_looks (h : Inv cfg s) (hon : Moves cfg s .worker) (hs : stepWorker cfg s = some t) :
    t.looks cfg < s.looks cfg := by
  obtain ⟨hspins,htest⟩ := hon
  have hring := h.rb
  have hreader := h.reader
  have hlowers (ev : RingBuffer.Event) {rb : RingBuffer.State} (hev : RingBuffer.Consumes cfg.toConfig s.rb ev)
      (hrb : RingBuffer.step cfg.toConfig s.rb ev = some rb) :
      rb.work cfg.toConfig < s.rb.work cfg.toConfig := (RingBuffer.consumes_lowers s.rb ev rb hring hev hrb).2
  unfold stepWorker at hs
  split at hs
  case h_1 hw =>
    obtain rfl := Option.some.inj hs
    cases hworking : s.working with
    | false => simp [State.looks,hw,hworking]
    | true =>
      have hbehind := htest hw hworking
      simp [State.looks,hw,hworking,hbehind]
  case h_2 hw =>
    obtain rfl := Option.some.inj hs
    simp [State.looks,hw]
  case h_3 hw =>
    obtain ⟨rb,hrb,rfl⟩ := Option.map_eq_some_iff.mp hs
    have hidle : s.rb.reader = .idle := by rwa [hw] at hreader
    by_cases hcaught : CaughtUp s.rb
    · simp only [RingBuffer.step,hidle,Option.some.injEq] at hrb
      subst hrb
      have hwork := RingBuffer.peek_caughtUp hring hcaught
      have hcaught' : CaughtUp { s.rb with reader := .peeking s.rb.buf.ixRead } := hcaught
      simp only [State.looks,hw,hwork,if_pos hcaught']
      omega
    · have hwork := hlowers .peek ⟨hidle,hcaught⟩ hrb
      simp only [State.looks,hw]
      split <;> omega
  case h_4 hw =>
    obtain ⟨rb,hrb,rfl⟩ := Option.map_eq_some_iff.mp hs
    have hwork := hlowers .peekStep hspins hrb
    obtain ⟨hidle,hcaught⟩ | ⟨hne,hbehind,hbehind'⟩ := RingBuffer.peek_ends hring hspins hrb
    · simp only [hidle,State.looks,hw,if_pos hcaught]
      split <;> omega
    · obtain ⟨⟨ix,hr⟩ | ⟨ptr,n,hr⟩ | hr,-⟩ := RingBuffer.step_peekStep hrb
      · simp only [hr,State.looks,hw,if_neg hbehind,if_neg hbehind']
        omega
      · simp only [hr,State.looks,hw,if_neg hbehind]
        omega
      · exact absurd hr hne
  case h_5 hw =>
    obtain rfl := Option.some.inj hs
    simp [State.looks,hw]
  case h_6 hw =>
    obtain rfl := Option.some.inj hs
    simp [State.looks,hw]
  case h_7 hw =>
    obtain ⟨rb,hrb,rfl⟩ := Option.map_eq_some_iff.mp hs
    have hwork := hlowers .free trivial hrb
    simp only [State.looks,hw]
    omega
  case h_8 hw =>
    obtain ⟨rb,hrb,rfl⟩ := Option.map_eq_some_iff.mp hs
    have hwork := hlowers .freeStep trivial hrb
    obtain ⟨⟨ix,payload,hr⟩,-⟩ | ⟨hr,-⟩ := RingBuffer.step_freeStep hrb
    · simp only [hr,State.looks,hw]
      omega
    · simp only [hr,State.looks,hw]
      omega
  case h_9 => cases hs

theorem moves_lowers :
    (system cfg).Lowers (Moves cfg) (fun s => Inv cfg s ∧ Owned s) (State.work cfg) := by
  rintro s e t ⟨hinv,howned⟩ hon hs
  have hinv' := inv_step hinv hs
  refine ⟨⟨hinv',owned_step howned hs⟩,?_⟩
  -- the step of a call pays for all looks that the worker may have to take again
  have hcall : t.calls < s.calls → t.work cfg < s.work cfg := fun hlt => by
    have hlooks := looks_lt hinv'
    have hmul := Nat.mul_le_mul_right cfg.maxLooks (Nat.succ_le_of_lt hlt)
    rw [Nat.succ_mul] at hmul
    unfold State.work
    omega
  cases e with
  | push p size noWait => exact absurd hon id
  | producer p => exact hcall (producer_calls hon hs)
  | write p off b => exact absurd hon id
  | constructed p => exact hcall (constructor_calls hs)
  | threw p => exact hcall (constructor_calls hs)
  | worker =>
    have hkeeps := worker_keeps hs
    have hcalls : t.calls = s.calls := by
      simp only [State.calls,hkeeps.producers,hkeeps.writer,hkeeps.stopper]
    have hlooks := worker_looks hinv hon hs
    unfold State.work
    rw [hcalls]
    omega
  | stop => exact hcall (stop_calls hon hs)

/-- The object was met in the block. -/
def HandedOut (e : Entry) (x : Object) : Prop := x.ptr = e.ptr ∧ Delivers e x.bytes

/-- Every call has returned, and the objects of all blocks were passed to the callback and
destroyed, in allocation order. -/
structure Complete (s : State) : Prop where
  producers : ∀ x ∈ s.producers, x = .idle
  worker : s.worker = some .testing
  ended : ∀ i < s.rb.log.length, s.outcome i ≠ .running
  destroyed : List.Forall₂ HandedOut s.rb.log s.destroyed
  passed : s.callback = true → List.Forall₂ HandedOut s.rb.log s.passed

/-- There is no worker, and `stop` has returned. -/
structure Stopped (s : State) : Prop where
  worker : s.worker = none ∨ s.worker = some .exited
  stopper : s.stopper = .idle
  settled : RingBuffer.Settled s.rb

def Worker.live : Worker → Bool
  | .exited => false
  | _ => true

/-- The worker runs and was not told to stop. -/
def Runs (s : State) : Prop := s.working = true ∧ ∃ w, s.worker = some w ∧ w.live = true

instance (s : State) : Decidable (Runs s) :=
  decidable_of_iff (s.working = true ∧ s.worker.any Worker.live = true) (by simp [Runs,Option.any_eq_true])

theorem commit_ne_none {i : ℕ} (hat : busyAt s.rb.log i = true) :
    RingBuffer.step cfg.toConfig s.rb (.commit i) ≠ none := by
  unfold busyAt at hat
  cases hi : s.rb.log[i]? with
  | none => simp [hi] at hat
  | some e =>
    have hbusy : e.state = .busy := by simpa [hi] using hat
    simp [RingBuffer.step,RingBuffer.stepSettle,hi,hbusy]

theorem Handed.forall₂ {log : List Entry} {xs : List Object} (h : Handed log xs) (hlen : xs.length = log.length) :
    List.Forall₂ HandedOut log xs := by
  refine List.forall₂_iff_get.mpr ⟨hlen.symm,fun i h₁ h₂ => ?_⟩
  obtain ⟨e,he,-,hptr,hbytes⟩ := h i _ (List.getElem?_eq_getElem h₂)
  rw [List.get_eq_getElem,Option.some.inj ((List.getElem?_eq_getElem h₁).symm.trans he)]
  exact ⟨hptr,hbytes⟩

section Rest

variable (hinv : Inv cfg s) (howned : Owned s) (hrest : (system cfg).AtRest (Moves cfg) s)
include howned hrest

theorem settled_of_rest : RingBuffer.Settled s.rb := by
  intro e he hbusy
  obtain ⟨i,hi⟩ := List.getElem?_of_mem he
  have hcount := howned.blocks i
  have hat : busyAt s.rb.log i = true := by simp [busyAt,hi,hbusy]
  have hpos : 0 < s.producers.countP (·.holds i) := by simp [hcount,hat]
  obtain ⟨x,hx,hholds⟩ := List.countP_pos_iff.mp hpos
  obtain ⟨p,hp⟩ := List.getElem?_of_mem hx
  cases x <;> simp only [Producer.holds,beq_iff_eq,Bool.false_eq_true] at hholds
  case constructing j =>
    have hstep := hrest (.constructed p) trivial
    simp [system,step,stepConstructor,hp] at hstep
  case committing j threw =>
    subst hholds
    have hstep := hrest (.producer p) fun ha => by simp [hp] at ha
    simp only [system,step,stepProducer,hp,Option.map_eq_none_iff] at hstep
    exact commit_ne_none hat hstep

include hinv

theorem worker_of_rest : s.worker = none ∨ s.worker = some .exited ∨
    s.worker = some .testing ∧ CaughtUp s.rb := by
  have hspins := hinv.rb.not_spins (settled_of_rest howned hrest)
  have hreader := hinv.reader
  have hstep : (s.worker = some .testing → s.working = true → ¬CaughtUp s.rb) → stepWorker cfg s = none :=
    fun htest => hrest .worker ⟨hspins,htest⟩
  cases hw : s.worker with
  | none => exact .inl rfl
  | some w =>
    right
    rw [hw] at hreader hstep
    cases w with
    | exited => exact .inl rfl
    | testing =>
      refine .inr ⟨rfl,?_⟩
      by_contra hbehind
      have hnone := hstep fun _ _ => hbehind
      simp [stepWorker,hw] at hnone
    | waiting => simp [stepWorker,hw] at hstep
    | calling ptr n => simp [stepWorker,hw] at hstep
    | destroying ptr n => simp [stepWorker,hw] at hstep
    | peeking =>
      have hidle : s.rb.reader = .idle := hreader
      simp [stepWorker,hw,RingBuffer.step,hidle] at hstep
    | releasing =>
      obtain ⟨ptr,n,hpeeked⟩ := hreader
      simp [stepWorker,hw,RingBuffer.step,hpeeked] at hstep
    | scanning =>
      obtain ⟨ix,hpeeking⟩ := hreader
      have hnone := hstep fun ht => by cases ht
      simp only [stepWorker,hw,Option.map_eq_none_iff] at hnone
      exact absurd hnone (RingBuffer.stepPeek_ne_none hpeeking)
    | freeing =>
      obtain ⟨ix,payload,hfreeing⟩ := hreader
      have hnone := hstep fun ht => by cases ht
      simp only [stepWorker,hw,Option.map_eq_none_iff] at hnone
      exact absurd hnone (RingBuffer.stepFree_ne_none hfreeing)

omit hinv in
theorem producers_of_rest (hroom : RingBuffer.FindsRoom cfg.toConfig s.rb) : ∀ x ∈ s.producers, x = .idle := by
  have hmoves {p : ℕ} : Moves cfg s (.producer p) := fun _ => hroom.not_waits
  have hnone {p : ℕ} : stepProducer cfg s p = none := hrest (.producer p) hmoves
  have hallocating : ∀ p : ℕ, s.producers[p]? ≠ some Producer.allocating := by
    intro p hp
    have hpos := Threads.countP_pos (p:=(·.isAllocating)) hp rfl
    have hwriter : s.rb.writer ≠ .idle := fun hidle => by
      rw [howned.writer,hidle] at hpos
      exact absurd hpos (Nat.lt_irrefl 0)
    have hstep := hnone (p:=p)
    simp only [stepProducer,hp,Option.map_eq_none_iff] at hstep
    exact RingBuffer.stepAllocate_ne_none hwriter hstep
  have hfree : s.rb.writer = .idle := by
    by_contra hwriter
    have hcount := howned.writer
    have hpos : 0 < s.producers.countP (·.isAllocating) := by
      simp [hcount,Bool.eq_false_of_not_eq_true (mt RingBuffer.Writer.isIdle_iff.mp hwriter)]
    obtain ⟨x,hx,hall⟩ := List.countP_pos_iff.mp hpos
    obtain ⟨p,hp⟩ := List.getElem?_of_mem hx
    cases x <;> simp only [Producer.isAllocating,Bool.false_eq_true] at hall
    exact hallocating p hp
  intro x hx
  obtain ⟨p,hp⟩ := List.getElem?_of_mem hx
  have hstep := hnone (p:=p)
  cases x with
  | idle => rfl
  | starting size noWait => simp [stepProducer,hp] at hstep
  | spawning size noWait => simp [stepProducer,hp] at hstep
  | signalling => simp [stepProducer,hp] at hstep
  | allocating => exact absurd hp (hallocating p)
  | constructing i =>
    have hstep := hrest (.constructed p) trivial
    simp [system,step,stepConstructor,hp] at hstep
  | committing i threw =>
    have hpos := Threads.countP_pos (p:=(·.holds i)) hp (by simp [Producer.holds])
    have hat : busyAt s.rb.log i = true := by
      rw [howned.blocks i] at hpos
      cases hat : busyAt s.rb.log i with
      | true => rfl
      | false => simp [hat] at hpos
    simp only [stepProducer,hp,Option.map_eq_none_iff] at hstep
    exact absurd hstep (commit_ne_none hat)
  | ready size noWait =>
    simp only [stepProducer,hp] at hstep
    split at hstep
    · cases hstep
    · rename_i f hf
      simp [RingBuffer.step,hf,hfree] at hstep

end Rest

theorem complete_of_rest (h : (system cfg).Reachable s) (hrest : (system cfg).AtRest (Moves cfg) s)
    (hw : s.worker = some .testing) (hcaught : CaughtUp s.rb) : Complete s := by
  have hinv := inv_reachable h
  have howned := owned_reachable h
  have hsettled := settled_of_rest howned hrest
  have hreader : s.rb.reader = .idle := by
    have hreader := hinv.reader
    rwa [hw] at hreader
  have hcounts : dead s.worker = 0 ∧ called s.worker = 0 := by
    rw [hw]
    exact ⟨rfl,rfl⟩
  have hemptied := RingBuffer.emptied_of_caughtUp cfg.default_alignment hinv.ring hreader hcaught
  have hcommitted : RingBuffer.committed s.rb.log = s.rb.log := by
    refine List.filter_eq_self.mpr fun e he => ?_
    obtain ⟨i,hi⟩ := List.getElem?_of_mem he
    simpa using (hinv.settled i e hi (hsettled e he)).1
  have hlen : s.destroyed.length = s.rb.log.length := by
    have hdelivered := hemptied.delivered.length_eq
    rw [hcommitted] at hdelivered
    rw [hinv.destroyed_length,hcounts.1,← hdelivered,Nat.add_zero]
  refine ⟨producers_of_rest howned hrest hemptied.room,hw,fun i hi => ?_,hinv.destroyed.forall₂ hlen,fun hc => ?_⟩
  · have he := List.getElem?_eq_getElem hi
    exact (hinv.settled i _ he (hsettled _ (List.getElem_mem hi))).2
  · refine hinv.passed.forall₂ ?_
    rw [hinv.passed_length,if_pos hc,hcounts.2,Nat.add_zero]
    exact hlen

theorem rest_cases (h : (system cfg).Reachable s) (hrest : (system cfg).AtRest (Moves cfg) s) :
    Complete s ∨ Stopped s := by
  have hinv := inv_reachable h
  have howned := owned_reachable h
  have hsettled := settled_of_rest howned hrest
  have hstop (hw : s.worker = none ∨ s.worker = some .exited) : s.stopper = .idle := by
    by_contra hne
    have hstep : stepStop s = none := hrest .stop hne
    unfold stepStop at hstep
    rcases hw with hw | hw <;> cases hst : s.stopper <;> simp [hst,hw] at hstep hne
  obtain hw | hw | ⟨hw,hcaught⟩ := worker_of_rest hinv howned hrest
  · exact .inr ⟨.inl hw,hstop (.inl hw),hsettled⟩
  · exact .inr ⟨.inr hw,hstop (.inr hw),hsettled⟩
  · exact .inl (complete_of_rest h hrest hw hcaught)

theorem runs_step {e : Event} (hinv : Inv cfg s) (hruns : Runs s) (hon : Moves cfg s e)
    (hs : step cfg s e = some t) : Runs t := by
  obtain ⟨hworking,w,hw,hlive⟩ := hruns
  cases e with
  | push p size noWait => exact absurd hon id
  | write p off b => exact absurd hon id
  | constructed p | threw p =>
    simp only [step,stepConstructor] at hs
    split at hs
    · obtain rfl := Option.some.inj hs
      exact ⟨hworking,w,hw,hlive⟩
    · cases hs
  | producer p =>
    simp only [step,stepProducer] at hs
    split at hs
    case h_1 =>
      obtain rfl := Option.some.inj hs
      exact ⟨rfl,w,hw,hlive⟩
    case h_2 =>
      obtain rfl := Option.some.inj hs
      exact ⟨hworking,_,rfl,rfl⟩
    case h_3 =>
      split at hs
      · obtain rfl := Option.some.inj hs
        exact ⟨hworking,w,hw,hlive⟩
      · obtain ⟨rb,-,rfl⟩ := Option.map_eq_some_iff.mp hs
        exact ⟨hworking,w,hw,hlive⟩
    case h_4 | h_5 =>
      obtain ⟨rb,-,rfl⟩ := Option.map_eq_some_iff.mp hs
      exact ⟨hworking,w,hw,hlive⟩
    case h_6 =>
      obtain rfl := Option.some.inj hs
      exact ⟨hworking,w,hw,hlive⟩
    case h_7 => cases hs
  | worker =>
    have hkeeps := worker_keeps hs
    refine ⟨hkeeps.working.trans hworking,?_⟩
    simp only [step,stepWorker] at hs
    split at hs
    case h_1 =>
      obtain rfl := Option.some.inj hs
      exact ⟨_,rfl,by simp [hworking,Worker.live]⟩
    case h_3 | h_7 =>
      obtain ⟨rb,-,rfl⟩ := Option.map_eq_some_iff.mp hs
      exact ⟨_,rfl,rfl⟩
    case h_4 =>
      obtain ⟨rb,-,rfl⟩ := Option.map_eq_some_iff.mp hs
      split
      · exact ⟨_,rfl,rfl⟩
      · exact ⟨_,rfl,rfl⟩
      · exact ⟨w,hw,hlive⟩
    case h_8 =>
      obtain ⟨rb,-,rfl⟩ := Option.map_eq_some_iff.mp hs
      split
      · exact ⟨_,rfl,rfl⟩
      · exact ⟨w,hw,hlive⟩
    case h_9 => cases hs
    all_goals
      obtain rfl := Option.some.inj hs
      exact ⟨_,rfl,rfl⟩
  | stop =>
    simp only [step,stepStop] at hs
    split at hs
    · rename_i hidle
      exact absurd hidle hon
    · obtain rfl := Option.some.inj hs
      exact ⟨hworking,w,hw,hlive⟩
    · split at hs
      · rename_i hnone
        simp [hnone] at hw
      · rename_i hexited
        obtain rfl := Option.some.inj (hw.symm.trans hexited)
        cases hlive
      · cases hs
    · rename_i hst
      obtain rfl := Option.some.inj (hw.symm.trans (hinv.resetting hst))
      cases hlive

theorem runs_exec {es : List Event} (hinv : Inv cfg s) (hruns : Runs s)
    (hes : (system cfg).Allowed (Moves cfg) s es) (ht : (system cfg).exec s es = some t) : Runs t := by
  induction es generalizing s with
  | nil =>
    obtain rfl := Option.some.inj ht
    exact hruns
  | cons e es ih =>
    obtain ⟨u,hu,ht⟩ := Option.bind_eq_some_iff.mp ht
    exact ih (inv_step hinv hu) (runs_step hinv hruns hes.1 hu) (hes.2 u hu) ht

end ThreadedHandler
end SdkCp
