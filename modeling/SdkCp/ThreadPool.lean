import SdkCp.TransitionSystem
import SdkCp.Threads

/-! `thread_pool` of tools/thread_pool.hpp: tasks wait in a list until `run_task` clears
their flag, and a worker that pops one swaps it with the `task_type` it reuses. `pop_task`
holds `_tasks_cs`; `run_task` and `add_cb` do not take it and come between its steps. -/
namespace SdkCp
namespace ThreadPool

variable {F C : Type*}

/-- `task_type`; an empty `std::function` is `none`. The flag `ready_to_run` is clear when
the task may run. -/
structure TaskType (F C : Type*) where
  id : ℕ
  func : Option F
  readyToRun : Bool
  cbs : List C
  blocked : Bool

namespace TaskType

/-- The default constructor. -/
def default : TaskType F C := ⟨0,none,true,[],false⟩

/-- The constructor from a function, with the next global id. -/
def ofFunc (id : ℕ) (f : F) : TaskType F C := ⟨id,some f,true,[],false⟩

def run (t : TaskType F C) : TaskType F C := { t with readyToRun := false }

/-- `add_cb`, with whether the callback is accepted. -/
def addCb (t : TaskType F C) : Option C → TaskType F C × Bool
  | none => (t,false)
  | some c => if t.blocked then (t,false) else ({ t with cbs := t.cbs ++ [c] },true)

theorem addCb_cases (t : TaskType F C) (f : Option C) : t.addCb f = (t,false) ∨
    ∃ c, f = some c ∧ t.addCb f = ({ t with cbs := t.cbs ++ [c] },true) := by
  cases f with
  | none => exact .inl rfl
  | some c =>
    by_cases hb : t.blocked = true
    · exact .inl (if_pos hb)
    · exact .inr ⟨c,rfl,if_neg hb⟩

def swapAndBlock (t : TaskType F C) (cbs : List C) : TaskType F C :=
  if t.blocked then t else { t with cbs, blocked := true }

def clear (t : TaskType F C) : TaskType F C := { t with func := none, cbs := [] }

/-- `t.swap(c)`: both objects afterwards. The flag of `c` is set by the test that reads it. -/
def swap (t c : TaskType F C) : TaskType F C × TaskType F C :=
  (c,{ t with readyToRun := true })

end TaskType

/-- Where the holder of `_tasks_cs` stands in `pop_task`: about to test node `i`, about to
swap it, about to erase it. -/
inductive Place
  | scanning (i : ℕ)
  | claimed (i : ℕ)
  | swapped (i : ℕ)
  deriving DecidableEq

/-- A worker's `active_task` and whether its function is running. -/
structure Worker (F C : Type*) where
  active : TaskType F C
  running : Bool

/-- The pool. `handles` are the ids of the tasks that the nodes were created for, which is what the
clients know of them. The last six fields are its history by these ids: the tasks added, the
callbacks accepted before the task was popped and behind that, the tasks `run_task` was called on
and the tasks popped, and the tasks that were runnable when the current `pop_task` began. -/
structure State (F C : Type*) where
  taskIdGlobal : ℕ
  tasks : List (TaskType F C)
  handles : List ℕ
  popping : Option (ℕ × Place)
  workers : List (Worker F C)
  added : List (ℕ × F)
  accepted : List (ℕ × C)
  late : List (ℕ × C)
  ran : List ℕ
  popped : List ℕ
  began : List ℕ

/-- `pop` is the next step of the `pop_task` in progress; the last four are what the running
function does to the task it is given, and its end. -/
inductive Event (F C : Type*)
  | addTask (f : Option F)
  | addCb (i : ℕ) (f : Option C)
  | runTask (i : ℕ)
  | popTask (w : ℕ)
  | pop
  | activeAddCb (w : ℕ) (f : Option C)
  | activeRunTask (w : ℕ)
  | activeSwapAndBlock (w : ℕ) (cbs : List C)
  | finish (w : ℕ)

/-- The task that the client of node `i` was given. -/
def State.handle (s : State F C) (i : ℕ) : ℕ := s.handles.getD i 0

def stepAddTask (s : State F C) : Option F → Option (State F C)
  | none => some s
  | some f =>
    if s.popping.isSome then none
    else
      let id := s.taskIdGlobal+1
      some { s with taskIdGlobal := id, tasks := s.tasks ++ [TaskType.ofFunc id f]
                    handles := s.handles ++ [id]
                    added := s.added ++ [(id,f)] }

def stepAddCb (s : State F C) (i : ℕ) (f : Option C) : Option (State F C) :=
  (s.tasks[i]?).map fun t =>
    let new := if (t.addCb f).2 then f.toList.map (s.handle i,·) else []
    -- between the swap and the erasure the callback goes to what is erased with the node
    let popped := decide (s.handle i ∈ s.popped)
    { s with tasks := s.tasks.set i (t.addCb f).1
             accepted := s.accepted ++ if popped then [] else new
             late := s.late ++ if popped then new else [] }

def stepRunTask (s : State F C) (i : ℕ) : Option (State F C) :=
  (s.tasks[i]?).map fun t =>
    { s with tasks := s.tasks.set i t.run, ran := s.ran ++ [s.handle i] }

/-- `pop_task` takes `_tasks_cs`. -/
def stepPopTask (s : State F C) (w : ℕ) : Option (State F C) :=
  if s.popping.isSome then none
  else
    match s.workers[w]? with
    | some ⟨_,false⟩ =>
      some { s with popping := some (w,.scanning 0)
                    began := (s.tasks.filter fun t => !t.readyToRun).map (·.id) }
    | _ => none

def stepPop (s : State F C) : Option (State F C) :=
  match s.popping with
  | some (w,.scanning i) =>
    match s.tasks[i]? with
    | none => some { s with popping := none }
    | some t =>
      if t.readyToRun then some { s with popping := some (w,.scanning (i+1)) }
      else some { s with tasks := s.tasks.set i { t with readyToRun := true }
                         popping := some (w,.claimed i) }
  | some (w,.claimed i) =>
    match s.tasks[i]?, s.workers[w]? with
    | some t, some x =>
      some { s with tasks := s.tasks.set i (t.swap x.active).1
                    workers := s.workers.set w { x with active := (t.swap x.active).2 }
                    popped := s.popped ++ [t.id]
                    popping := some (w,.swapped i) }
    | _, _ => none
  | some (w,.swapped i) =>
    some { s with tasks := s.tasks.eraseIdx i, handles := s.handles.eraseIdx i, popping := none
                  workers := s.workers.modify w fun x => { x with running := true } }
  | none => none

/-- What the function run by worker `w` does to its task. -/
def stepActive (s : State F C) (w : ℕ) (f : Worker F C → Worker F C) : Option (State F C) :=
  match s.workers[w]? with
  | some ⟨_,true⟩ => some { s with workers := s.workers.modify w f }
  | _ => none

def step (s : State F C) : Event F C → Option (State F C)
  | .addTask f => stepAddTask s f
  | .addCb i f => stepAddCb s i f
  | .runTask i => stepRunTask s i
  | .popTask w => stepPopTask s w
  | .pop => stepPop s
  | .activeAddCb w f => stepActive s w fun x => { x with active := (x.active.addCb f).1 }
  | .activeRunTask w => stepActive s w fun x => { x with active := x.active.run }
  | .activeSwapAndBlock w cbs =>
    stepActive s w fun x => { x with active := x.active.swapAndBlock cbs }
  | .finish w => stepActive s w fun x => ⟨x.active.clear,false⟩

/-- A pool with `n` workers. -/
def initial (n : ℕ) : State F C where
  taskIdGlobal := 0
  tasks := []
  handles := []
  popping := none
  workers := List.replicate n ⟨TaskType.default,false⟩
  added := []
  accepted := []
  late := []
  ran := []
  popped := []
  began := []

def system : TransitionSystem (State F C) (Event F C) where
  init s := ∃ n, s = initial n
  step := step

end ThreadPool
end SdkCp
