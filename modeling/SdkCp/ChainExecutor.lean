import SdkCp.TransitionSystem
import SdkCp.Threads

/-! `chain_pool` of tools/chain_executor.hpp: clients add jobs to per-key chains,
and a chain with jobs is handed to one worker through `_ready2work_list`. One
step is one critical section, or one begin or end of `execute`. -/
namespace SdkCp
namespace ChainExecutor

/-- `task_chain`, with the key it was made for. -/
structure TaskChain (K T : Type*) where
  key : K
  tasks : List T
  isPending : Bool

namespace TaskChain

variable {K T : Type*}

def addTask (c : TaskChain K T) (value : T) : TaskChain K T × Bool :=
  let c := { c with tasks := c.tasks ++ [value] }
  if c.isPending then (c,false) else ({ c with isPending := true },true)

/-- `task_chain::get_task`: the chain, the value taken, the result, and whether
the assertion in it holds. -/
def getTask (c : TaskChain K T) : TaskChain K T × Option T × Bool × Bool :=
  match c.tasks with
  | [] => ({ c with isPending := false },none,false,true)
  | t::ts => ({ c with tasks := ts },some t,c.isPending,c.isPending)

end TaskChain

/-- Where a client stands in `task_syncronizer::add_task`. Chains are numbered in
the order of their creation. `returning` still owns its `chain_ptr`. -/
inductive Adder (K T : Type*)
  | idle
  | located (key : K) (value : T) (chain : ℕ)
  | pushing (chain : ℕ)
  | returning (chain : ℕ)

/-- Where a worker stands in `threadManager`. `leaving` is past the last `get_task`
and still owns its `chain_ptr`. -/
inductive Worker (T : Type*)
  | idle
  | draining (chain : ℕ)
  | executing (chain : ℕ) (job : T)
  | leaving (chain : ℕ)

/-- The client owns a `chain_ptr`. -/
def Adder.owns {K T : Type*} : Adder K T → ℕ → Bool
  | .idle, _ => false
  | .located _ _ c, d => c == d
  | .pushing c, d => c == d
  | .returning c, d => c == d

/-- `add_task` returned true and the chain is not yet on the list. -/
def Adder.pushes {K T : Type*} : Adder K T → ℕ → Bool
  | .pushing c, d => c == d
  | _, _ => false

/-- The worker takes tasks from the chain. -/
def Worker.owns {T : Type*} : Worker T → ℕ → Bool
  | .idle, _ => false
  | .draining c, d => c == d
  | .executing c _, d => c == d
  | .leaving _, _ => false

/-- The worker owns a `chain_ptr`. -/
def Worker.holds {T : Type*} : Worker T → ℕ → Bool
  | .leaving c, d => c == d
  | p, d => p.owns d

/-- The pool and its threads. `appended` and `executed` record, in order, the jobs
put on a chain and the jobs whose `execute` has returned. -/
structure State (K T : Type*) where
  chainsList : List (K × ℕ)
  chains : List (TaskChain K T)
  ready2workList : List ℕ
  adders : List (Adder K T)
  workers : List (Worker T)
  appended : List (K × T)
  executed : List (K × T)
  asserts : Bool

inductive Event (K T : Type*)
  | lookup (a : ℕ) (key : K) (value : T)
  | addTask (a : ℕ)
  | push (a : ℕ)
  | release (a : ℕ)
  | pop (w : ℕ)
  | getTask (w : ℕ)
  | executed (w : ℕ)
  | leave (w : ℕ)
  | removeChain (key : K)

def Event.removes {K T : Type*} : Event K T → Bool
  | .removeChain _ => true
  | _ => false

variable {K T : Type*} [DecidableEq K]

/-- The chain is owned by a `chain_ptr`, so `weak_ptr::lock` succeeds. -/
def State.alive (s : State K T) (c : ℕ) : Bool :=
  s.chainsList.any (·.2 == c) || s.adders.any (·.owns c) || s.workers.any (·.holds c)

/-- The loop of `pop_chain` over the ready list. -/
def popChain (s : State K T) : List ℕ → Option ℕ × List ℕ
  | [] => (none,[])
  | c::cs => if s.alive c then (some c,cs) else popChain s cs

/-- The first critical section of `task_syncronizer::add_task`. -/
def stepLookup (s : State K T) (a : ℕ) (key : K) (value : T) : Option (State K T) :=
  match s.adders[a]? with
  | some .idle =>
    match s.chainsList.lookup key with
    | some c => some { s with adders := s.adders.set a (.located key value c) }
    | none =>
      let c := s.chains.length
      some { s with
        chainsList := (key,c)::s.chainsList
        chains := s.chains ++ [⟨key,[],false⟩]
        adders := s.adders.set a (.located key value c) }
  | _ => none

def stepAddTask (s : State K T) (a : ℕ) : Option (State K T) :=
  match s.adders[a]? with
  | some (.located key value c) =>
    match s.chains[c]? with
    | none => none
    | some chain =>
      let (chain,first) := chain.addTask value
      some { s with
        chains := s.chains.set c chain
        adders := s.adders.set a (if first then .pushing c else .returning c)
        appended := s.appended ++ [(key,value)] }
  | _ => none

def stepPush (s : State K T) (a : ℕ) : Option (State K T) :=
  match s.adders[a]? with
  | some (.pushing c) =>
    some { s with ready2workList := s.ready2workList ++ [c], adders := s.adders.set a (.returning c) }
  | _ => none

/-- `add_task` returns. -/
def stepRelease (s : State K T) (a : ℕ) : Option (State K T) :=
  match s.adders[a]? with
  | some (.returning _) => some { s with adders := s.adders.set a .idle }
  | _ => none

def stepPop (s : State K T) (w : ℕ) : Option (State K T) :=
  match s.workers[w]? with
  | some .idle =>
    match popChain s s.ready2workList with
    | (none,cs) => some { s with ready2workList := cs }
    | (some c,cs) =>
      some { s with ready2workList := cs, workers := s.workers.set w (.draining c) }
  | _ => none

def stepGetTask (s : State K T) (w : ℕ) : Option (State K T) :=
  match s.workers[w]? with
  | some (.draining c) =>
    match s.chains[c]? with
    | none => none
    | some chain =>
      match chain.getTask with
      | (chain,some job,true,ok) =>
        some { s with
          chains := s.chains.set c chain
          workers := s.workers.set w (.executing c job)
          asserts := s.asserts && ok }
      | (chain,_,_,ok) =>
        some { s with
          chains := s.chains.set c chain
          workers := s.workers.set w (.leaving c)
          asserts := s.asserts && ok }
  | _ => none

def stepExecuted (s : State K T) (w : ℕ) : Option (State K T) :=
  match s.workers[w]? with
  | some (.executing c job) =>
    match s.chains[c]? with
    | none => none
    | some chain =>
      some { s with
        workers := s.workers.set w (.draining c)
        executed := s.executed ++ [(chain.key,job)] }
  | _ => none

/-- The worker is done with its chain. -/
def stepLeave (s : State K T) (w : ℕ) : Option (State K T) :=
  match s.workers[w]? with
  | some (.leaving _) => some { s with workers := s.workers.set w .idle }
  | _ => none

def step (s : State K T) : Event K T → Option (State K T)
  | .lookup a key value => stepLookup s a key value
  | .addTask a => stepAddTask s a
  | .push a => stepPush s a
  | .release a => stepRelease s a
  | .pop w => stepPop s w
  | .getTask w => stepGetTask s w
  | .executed w => stepExecuted s w
  | .leave w => stepLeave s w
  | .removeChain key => some { s with chainsList := s.chainsList.filter (·.1 ≠ key) }

/-- A pool with `n` clients and `m` workers. -/
def initial (n m : ℕ) : State K T where
  chainsList := []
  chains := []
  ready2workList := []
  adders := List.replicate n .idle
  workers := List.replicate m .idle
  appended := []
  executed := []
  asserts := true

def system : TransitionSystem (State K T) (Event K T) where
  init s := ∃ n m, s = initial n m
  step := step

/-- The jobs of one key in a log. -/
def jobsOf (key : K) (log : List (K × T)) : List T :=
  (log.filter (·.1 = key)).map (·.2)

/-- How many tokens for a chain exist: its entries on the ready list, the workers
that hold it and the clients about to push it. -/
def State.tokens (s : State K T) (c : ℕ) : ℕ :=
  s.ready2workList.count c+s.workers.countP (·.owns c)+s.adders.countP (·.pushes c)

end ChainExecutor
end SdkCp
