import SdkCp.ChainExecutorInvariant
import SdkCp.Termination

/-! Every job is executed. The work that is left is a number, which each step of a client
or a worker lowers but for the beginning of a new call; where no such step is left, each
key has executed what was appended to its chain. -/
namespace SdkCp
namespace ChainExecutor

open Threads TransitionSystem

variable {K T : Type*}

/-- The steps that are left of an `add_task`, and those it makes for a worker: a job is taken
and executed, a chain is popped, found empty and left. -/
def Adder.work : Adder K T → ℕ
  | .idle => 0
  | .located _ _ _ => 8
  | .pushing _ => 5
  | .returning _ => 1

def Worker.work : Worker T → ℕ
  | .idle => 0
  | .draining _ => 2
  | .executing _ _ => 3
  | .leaving _ => 1

def State.work (s : State K T) : ℕ :=
  (s.chains.map fun c => 2*c.tasks.length).sum+3*s.ready2workList.length+
    (s.adders.map Adder.work).sum+(s.workers.map Worker.work).sum

/-- The steps that go on with what has begun. A worker that finds the ready list empty
waits. -/
def GoesOn (s : State K T) : Event K T → Prop
  | .lookup _ _ _ | .removeChain _ => False
  | .pop _ => s.ready2workList ≠ []
  | _ => True

theorem addTask_work {s t : State K T} {a : ℕ} (hs : stepAddTask s a = some t) :
    t.work < s.work ∧ t.workers.length = s.workers.length := by
  unfold stepAddTask at hs
  split at hs
  case h_2 => cases hs
  rename_i key value c ha
  split at hs
  case h_1 => cases hs
  rename_i chain hc
  have hlength : (chain.addTask value).1.tasks.length = chain.tasks.length+1 := by
    simp only [TaskChain.addTask]
    split <;> simp
  generalize chain.addTask value = added at hs hlength
  obtain ⟨chain',first⟩ := added
  obtain rfl := Option.some.inj hs
  have hplace : (if first then Adder.pushing c else .returning c : Adder K T).work ≤ 5 := by
    split <;> simp [Adder.work]
  generalize (if first then Adder.pushing c else .returning c : Adder K T) = place at hplace ⊢
  have hadder := sum_map_set_add ha place Adder.work
  have hchain := sum_map_set_add hc chain' fun c => 2*c.tasks.length
  have hlocated : (Adder.located key value c).work = 8 := rfl
  refine ⟨?_,rfl⟩
  simp only [State.work]
  simp only at hlength hchain
  omega

theorem push_work {s t : State K T} {a : ℕ} (hs : stepPush s a = some t) :
    t.work < s.work ∧ t.workers.length = s.workers.length := by
  unfold stepPush at hs
  split at hs
  case h_2 => cases hs
  rename_i c ha
  obtain rfl := Option.some.inj hs
  refine ⟨?_,rfl⟩
  have hadder := sum_map_set_add ha (.returning c) Adder.work
  simp only [Adder.work] at hadder
  simp only [State.work,List.length_append,List.length_singleton]
  omega

theorem release_work {s t : State K T} {a : ℕ} (hs : stepRelease s a = some t) :
    t.work < s.work ∧ t.workers.length = s.workers.length := by
  unfold stepRelease at hs
  split at hs
  case h_2 => cases hs
  rename_i c ha
  obtain rfl := Option.some.inj hs
  refine ⟨?_,rfl⟩
  have hadder := sum_map_set_add ha .idle Adder.work
  simp only [Adder.work] at hadder
  simp only [State.work]
  omega

theorem executed_work {s t : State K T} {w : ℕ} (hs : stepExecuted s w = some t) :
    t.work < s.work ∧ t.workers.length = s.workers.length := by
  unfold stepExecuted at hs
  split at hs
  case h_2 => cases hs
  rename_i c job hw
  split at hs
  case h_1 => cases hs
  obtain rfl := Option.some.inj hs
  refine ⟨?_,List.length_set⟩
  have hworker := sum_map_set_add hw (.draining c) Worker.work
  simp only [Worker.work] at hworker
  simp only [State.work]
  omega

theorem leave_work {s t : State K T} {w : ℕ} (hs : stepLeave s w = some t) :
    t.work < s.work ∧ t.workers.length = s.workers.length := by
  unfold stepLeave at hs
  split at hs
  case h_2 => cases hs
  rename_i c hw
  obtain rfl := Option.some.inj hs
  refine ⟨?_,List.length_set⟩
  have hworker := sum_map_set_add hw .idle Worker.work
  simp only [Worker.work] at hworker
  simp only [State.work]
  omega

variable [DecidableEq K]

theorem pop_work {s t : State K T} {w : ℕ} (h : Inv s) (hready : s.ready2workList ≠ [])
    (hs : stepPop s w = some t) : t.work < s.work ∧ t.workers.length = s.workers.length := by
  unfold stepPop at hs
  split at hs
  case h_2 => cases hs
  rename_i hw
  cases hlist : s.ready2workList with
  | nil => exact absurd hlist hready
  | cons c cs =>
    simp only [hlist,popChain,h.alive (hlist ▸ List.mem_cons_self),if_true] at hs
    obtain rfl := Option.some.inj hs
    refine ⟨?_,List.length_set⟩
    have hworker := sum_map_set_add hw (.draining c) Worker.work
    simp only [Worker.work] at hworker
    simp only [State.work,hlist,List.length_cons]
    omega

theorem getTask_work {s t : State K T} {w : ℕ} (h : Inv s) (hs : stepGetTask s w = some t) :
    t.work < s.work ∧ t.workers.length = s.workers.length := by
  unfold stepGetTask at hs
  split at hs
  case h_2 => cases hs
  rename_i c hw
  obtain ⟨chain,hc,hpend,-⟩ := h.owner hw (c:=c) (by simp [Worker.owns])
  simp only [hc,TaskChain.getTask] at hs
  cases htl : chain.tasks with
  | nil =>
    simp only [htl] at hs
    obtain rfl := Option.some.inj hs
    refine ⟨?_,List.length_set⟩
    have hworker := sum_map_set_add hw (.leaving c) Worker.work
    have hchain := sum_map_set_add hc { chain with isPending := false, tasks := [] } fun c => 2*c.tasks.length
    simp only [Worker.work] at hworker
    simp only [htl] at hchain
    simp only [State.work]
    omega
  | cons j ts =>
    simp only [htl,hpend] at hs
    obtain rfl := Option.some.inj hs
    refine ⟨?_,List.length_set⟩
    have hworker := sum_map_set_add hw (.executing c j) Worker.work
    have hchain := sum_map_set_add hc { chain with tasks := ts } fun c => 2*c.tasks.length
    simp only [Worker.work] at hworker
    simp only [htl,List.length_cons] at hchain
    simp only [State.work,hpend] at hchain ⊢
    omega

/-- A pool that removes no chain and has a worker. -/
def Manned (s : State K T) : Prop := Inv s ∧ s.workers ≠ []

theorem goesOn_lowers : (system (K:=K) (T:=T)).Lowers GoesOn Manned State.work := by
  intro s e t ⟨h,hworkers⟩ hon hs
  have hinv : Inv t := inv_step h (by cases e <;> simp_all [GoesOn,Event.removes]) hs
  have hstep : t.work < s.work ∧ t.workers.length = s.workers.length := by
    cases e with
    | lookup a key value => exact absurd hon id
    | addTask a => exact addTask_work hs
    | push a => exact push_work hs
    | release a => exact release_work hs
    | pop w => exact pop_work h hon hs
    | getTask w => exact getTask_work h hs
    | executed w => exact executed_work hs
    | leave w => exact leave_work hs
    | removeChain key => exact absurd hon id
  refine ⟨⟨hinv,fun hnil => hworkers ?_⟩,hstep.1⟩
  rw [hnil] at hstep
  exact List.length_eq_zero_iff.mp hstep.2.symm

/-- Every call has returned, every worker waits and every job was executed. -/
structure Complete (s : State K T) : Prop where
  adders : ∀ p ∈ s.adders, p = .idle
  workers : ∀ p ∈ s.workers, p = .idle
  ready : s.ready2workList = []
  executed : ∀ key, jobsOf key s.executed = jobsOf key s.appended

theorem Manned.complete {s : State K T} (h : Manned s) (hrest : system.AtRest GoesOn s) : Complete s := by
  obtain ⟨hinv,hworkers⟩ := h
  have hadders : ∀ p ∈ s.adders, p = .idle := by
    intro p hp
    obtain ⟨a,ha⟩ := List.getElem?_of_mem hp
    cases p with
    | idle => rfl
    | located key value c =>
      obtain ⟨chain,hc,-⟩ := hinv.listed key c (hinv.located a key value c ha)
      have hstep := hrest (.addTask a) trivial
      simp [system,step,stepAddTask,ha,hc] at hstep
    | pushing c =>
      have hstep := hrest (.push a) trivial
      simp [system,step,stepPush,ha] at hstep
    | returning c =>
      have hstep := hrest (.release a) trivial
      simp [system,step,stepRelease,ha] at hstep
  have hidle : ∀ p ∈ s.workers, p = .idle := by
    intro p hp
    obtain ⟨w,hw⟩ := List.getElem?_of_mem hp
    cases p with
    | idle => rfl
    | draining c =>
      obtain ⟨chain,hc,-,-⟩ := hinv.owner hw (c:=c) (by simp [Worker.owns])
      have hstep := hrest (.getTask w) trivial
      simp only [system,step,stepGetTask,hw,hc] at hstep
      split at hstep <;> cases hstep
    | executing c j =>
      obtain ⟨chain,hc,-,-⟩ := hinv.owner hw (c:=c) (by simp [Worker.owns])
      have hstep := hrest (.executed w) trivial
      simp [system,step,stepExecuted,hw,hc] at hstep
    | leaving c =>
      have hstep := hrest (.leave w) trivial
      simp [system,step,stepLeave,hw] at hstep
  have hready : s.ready2workList = [] := by
    by_contra hne
    obtain ⟨p,ps,hps⟩ := List.exists_cons_of_ne_nil hworkers
    have hw : s.workers[0]? = some .idle := by simp [hps,hidle p (hps ▸ List.mem_cons_self)]
    have hstep := hrest (.pop 0) hne
    simp only [system,step,stepPop,hw] at hstep
    split at hstep <;> cases hstep
  refine ⟨hadders,hidle,hready,fun key => ?_⟩
  cases hk : s.chainsList.lookup key with
  | none =>
    obtain ⟨happended,hexecuted⟩ := hinv.fresh key hk
    rw [happended,hexecuted]
  | some c =>
    obtain ⟨chain,hc,rfl⟩ := hinv.listed key c hk
    obtain ⟨htoken,htasks,running,hrun,hord⟩ := hinv.chain c chain hc
    -- nobody has a token, so the chain is not pending and holds nothing
    have htokens : s.tokens c = 0 := by
      have h₁ : s.workers.countP (·.owns c) = 0 := by
        rw [List.countP_eq_zero]
        intro p hp
        simp [hidle p hp,Worker.owns]
      have h₂ : s.adders.countP (·.pushes c) = 0 := by
        rw [List.countP_eq_zero]
        intro p hp
        simp [hadders p hp,Adder.pushes]
      simp [State.tokens,hready,h₁,h₂]
    have hpend : chain.isPending = false := by
      rw [htokens] at htoken
      cases hp : chain.isPending <;> simp_all
    rcases hrun with ⟨rfl,-⟩ | ⟨w,j,hw,rfl⟩
    · simpa [htasks hpend] using hord.symm
    · cases hidle _ (List.mem_of_getElem? hw)

/-- Whatever the schedule, a pool with a worker to which no new job is given executes every
job it has, in a number of steps that `work` bounds, and only then does it rest. -/
theorem every_job_runs {s : State K T}
    (h : (system (K:=K) (T:=T)).ReachableBy (fun _ e => e.removes = false) s) (hworkers : s.workers ≠ []) :
    (∀ es t, system.Allowed GoesOn s es → system.exec s es = some t →
      es.length ≤ s.work ∧ (system.AtRest GoesOn t → Complete t)) ∧
    ∃ es t, system.Allowed GoesOn s es ∧ system.exec s es = some t ∧ Complete t := by
  have hmanned : Manned s := ⟨inv_reachable h,hworkers⟩
  refine ⟨fun es t hes ht => ?_,?_⟩
  · obtain ⟨hend,hle⟩ := goesOn_lowers.exec hmanned hes ht
    exact ⟨by omega,hend.complete⟩
  · obtain ⟨es,t,hes,ht,hend,hrest⟩ := goesOn_lowers.exists_rest hmanned
    exact ⟨es,t,hes,ht,hend.complete hrest⟩

/-- Two clients and a worker: one chain is on the list, the other about to be pushed. -/
theorem every_job_runs_two :
    let run := (system (K:=ℕ) (T:=ℕ)).exec (initial 2 1) [.lookup 0 3 10,.addTask 0,.push 0,.lookup 1 5 11,
      .addTask 1,.pop 0]
    run.map (fun s => (s.work,s.workers.length)) = some (12,1) ∧
    ∀ s, run = some s → ∃ es t, system.Allowed GoesOn s es ∧ system.exec s es = some t ∧ Complete t := by
  intro run
  have hrun : run.map (fun s => (s.work,s.workers.length)) = some (12,1) := by decide
  refine ⟨hrun,fun s hs => ?_⟩
  have hlength : s.workers.length = 1 := by
    rw [hs] at hrun
    exact (Prod.mk.inj (Option.some.inj hrun)).2
  have hreach : (system (K:=ℕ) (T:=ℕ)).ReachableBy (fun _ e => e.removes = false) s :=
    .exec (by simp [Event.removes]) (.init ⟨2,1,rfl⟩) hs
  exact (every_job_runs hreach (List.ne_nil_of_length_pos (by omega))).2

end ChainExecutor
end SdkCp
