import SdkCp.RingBufferQueue

/-! `threaded_handler` of tools/threaded_handler.hpp on top of its ring: producers
construct objects in blocks of the ring, one worker passes them to the callback and
destroys them. One step is one access of a shared member, or one step of the ring. -/
namespace SdkCp
namespace ThreadedHandler

/-- `ring_buffer<N>` with the default alignment. -/
structure Config extends RingBuffer.Config where
  default_alignment : kSlotBound = 4

/-- What became of the constructor run on a block. -/
inductive Outcome
  | running | completed | threw
  deriving DecidableEq

/-- Where a producer stands in `_push`. The first two places are inside the scope of
`_state_block`; `committing` is the destructor of the `buffer_auto_commit`. -/
inductive Producer
  | idle
  | starting (size : ℕ) (noWait : Bool)
  | spawning (size : ℕ) (noWait : Bool)
  | ready (size : ℕ) (noWait : Bool)
  | allocating
  | constructing (i : ℕ)
  | committing (i : ℕ) (threw : Bool)
  | signalling

def Producer.inStateBlock : Producer → Bool
  | .starting _ _ | .spawning _ _ => true
  | _ => false

/-- Where the worker stands in `proc`. -/
inductive Worker
  | testing
  | waiting
  | peeking
  | scanning
  | calling (ptr size : ℕ)
  | destroying (ptr size : ℕ)
  | releasing
  | freeing
  | exited

/-- Where the thread that calls `stop` stands. -/
inductive Stopper
  | idle | signalling | joining | resetting
  deriving DecidableEq

/-- An object as the worker meets it: its address and its bytes. -/
structure Object where
  ptr : ℕ
  bytes : List UInt8
  deriving DecidableEq

/-- The handler and its threads. `worker` is `_s`, `working` is `_work_status ==
k_work`, `callback` is `!!_f`. `outcome` records the constructors by allocation number,
`passed` and `destroyed` the objects given to the callback and to the destructor. -/
structure State where
  rb : RingBuffer.State
  producers : List Producer
  worker : Option Worker
  stopper : Stopper
  working : Bool
  haveEvent : Bool
  callback : Bool
  outcome : ℕ → Outcome
  passed : List Object
  destroyed : List Object

/-- A step of one of the threads. `producer`, `worker` and `stop` name the thread only:
where it stands decides what it does, outside of the constructors. -/
inductive Event
  | push (p size : ℕ) (noWait : Bool)
  | producer (p : ℕ)
  | write (p off : ℕ) (b : UInt8)
  | constructed (p : ℕ)
  | threw (p : ℕ)
  | worker
  | stop

def Event.isThrow : Event → Bool
  | .threw _ => true
  | _ => false

def State.setProducer (s : State) (p : ℕ) (x : Producer) : State :=
  { s with producers := s.producers.set p x }

variable (cfg : Config)

/-- `push` and `push_no_wait`: enter `_state_block` and look at `_s`. -/
def stepPush (s : State) (p size : ℕ) (noWait : Bool) : Option State :=
  match s.producers[p]? with
  | some .idle =>
    if s.producers.any (·.inStateBlock) then none
    else if s.worker.isNone then some (s.setProducer p (.starting size noWait))
    else some (s.setProducer p (.ready size noWait))
  | _ => none

/-- Where `allocate` leaves its caller: waiting, refused or with a new block. -/
def afterAllocate (before after : RingBuffer.State) : Producer :=
  match after.writer with
  | .idle =>
    if after.log.length = before.log.length then .idle else .constructing before.log.length
  | _ => .allocating

/-- `_push` but for the constructor. A block that `allocate` refused leaves
`k_invalid_handle`, which `commit` ignores. -/
def stepProducer (s : State) (p : ℕ) : Option State :=
  match s.producers[p]? with
  | some (.starting size noWait) =>
    some { s.setProducer p (.spawning size noWait) with working := true }
  | some (.spawning size noWait) =>
    some { s.setProducer p (.ready size noWait) with worker := some .testing }
  | some (.ready size noWait) =>
    match RingBuffer.allocateBegin cfg.toConfig s.rb.buf size noWait with
    | none => some (s.setProducer p .idle)
    | some _ => (RingBuffer.step cfg.toConfig s.rb (.allocate size noWait)).map fun rb =>
        { s.setProducer p .allocating with rb }
  | some .allocating =>
    (RingBuffer.step cfg.toConfig s.rb .allocateStep).map fun rb =>
      { s.setProducer p (afterAllocate s.rb rb) with rb }
  | some (.committing i threw) =>
    (RingBuffer.step cfg.toConfig s.rb (.commit i)).map fun rb =>
      { s.setProducer p (if threw then .idle else .signalling) with rb }
  | some .signalling => some { s.setProducer p .idle with haveEvent := true }
  | _ => none

/-- A constructor fills a byte of its block. -/
def stepWrite (s : State) (p off : ℕ) (b : UInt8) : Option State :=
  match s.producers[p]? with
  | some (.constructing i) =>
    (RingBuffer.step cfg.toConfig s.rb (.write i off b)).map fun rb => { s with rb }
  | _ => none

/-- A constructor returns or throws. Either way the scope of the `buffer_auto_commit`
is left next. -/
def stepConstructor (s : State) (p : ℕ) (threw : Bool) : Option State :=
  match s.producers[p]? with
  | some (.constructing i) =>
    some { s.setProducer p (.committing i threw) with
           outcome := Function.update s.outcome i (if threw then .threw else .completed) }
  | _ => none

/-- `proc`. `wait` returns at any time, by a notification or by its timeout, and takes the event
with it, if there is one; a callback that throws is caught, so both its ends are one step. -/
def stepWorker (s : State) : Option State :=
  match s.worker with
  | some .testing => some { s with worker := some (if s.working then .waiting else .exited) }
  | some .waiting => some { s with worker := some .peeking, haveEvent := false }
  | some .peeking => (RingBuffer.step cfg.toConfig s.rb .peek).map fun rb =>
      { s with rb, worker := some .scanning }
  | some .scanning => (RingBuffer.step cfg.toConfig s.rb .peekStep).map fun rb =>
      match rb.reader with
      | .peeked ptr size => { s with rb, worker := some (.calling ptr size) }
      | .idle => { s with rb, worker := some .testing }
      | _ => { s with rb }
  | some (.calling ptr size) =>
    some { s with
           worker := some (.destroying ptr size)
           passed := if s.callback then s.passed ++ [⟨ptr,Bytes.load s.rb.buf.mem ptr size⟩]
                     else s.passed }
  | some (.destroying ptr size) =>
    some { s with
           worker := some .releasing
           destroyed := s.destroyed ++ [⟨ptr,Bytes.load s.rb.buf.mem ptr size⟩] }
  | some .releasing => (RingBuffer.step cfg.toConfig s.rb .free).map fun rb =>
      { s with rb, worker := some .freeing }
  | some .freeing => (RingBuffer.step cfg.toConfig s.rb .freeStep).map fun rb =>
      match rb.reader with
      | .idle => { s with rb, worker := some .peeking }
      | _ => { s with rb }
  | _ => none

/-- `stop`, called by one thread at a time. -/
def stepStop (s : State) : Option State :=
  match s.stopper with
  | .idle => some { s with stopper := .signalling, working := false }
  | .signalling => some { s with stopper := .joining, haveEvent := true }
  | .joining =>
    match s.worker with
    | none => some { s with stopper := .idle }
    | some .exited => some { s with stopper := .resetting }
    | some _ => none
  | .resetting => some { s with stopper := .idle, worker := none }

def step (s : State) : Event → Option State
  | .push p size noWait => stepPush s p size noWait
  | .producer p => stepProducer cfg s p
  | .write p off b => stepWrite cfg s p off b
  | .constructed p => stepConstructor s p false
  | .threw p => stepConstructor s p true
  | .worker => stepWorker cfg s
  | .stop => stepStop s

/-- A handler with `n` producers. -/
def initial (n : ℕ) (callback : Bool) : State where
  rb := RingBuffer.initial
  producers := List.replicate n .idle
  worker := none
  stopper := .idle
  working := false
  haveEvent := false
  callback := callback
  outcome _ := .running
  passed := []
  destroyed := []

def system : TransitionSystem State Event where
  init s := ∃ n callback, s = initial n callback
  step := step cfg

end ThreadedHandler
end SdkCp
