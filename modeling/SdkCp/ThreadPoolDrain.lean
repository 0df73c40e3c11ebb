import SdkCp.ThreadPoolHandOver
import SdkCp.Termination

/-! Every task that was made runnable is run. A task that `run_task` was called on is
never lost, also when the call comes between the steps of a `pop_task`; and the work that
is left for the workers is a number that each of their steps lowers. -/
namespace SdkCp
namespace ThreadPool

open Threads TransitionSystem

variable {F C : Type*}

/-- The task was popped, its flag is clear, or `pop_task` has claimed its node. Id 0 is an
object that holds no task. -/
def Kept (s : State F C) (id : ℕ) : Prop :=
  id = 0 ∨ id ∈ s.popped ∨ ∃ (j : ℕ) (x : TaskType F C), s.tasks[j]? = some x ∧ x.id = id ∧
    (x.readyToRun = false ∨ ∃ w, s.popping = some (w,.claimed j))

def AllKept (s : State F C) : Prop := ∀ id ∈ s.ran, Kept s id

theorem AllKept.of_nodes {s t : State F C} (h : AllKept s) (hran : ∀ id ∈ t.ran, id ∈ s.ran ∨ Kept t id)
    (hpopped : ∀ id ∈ s.popped, id ∈ t.popped)
    (hnode : ∀ (j : ℕ) x, s.tasks[j]? = some x →
      (x.readyToRun = false ∨ ∃ w, s.popping = some (w,.claimed j)) → Kept t x.id) : AllKept t := by
  intro id hid
  rcases hran id hid with hid | hkept
  · rcases h id hid with rfl | hmem | ⟨j,x,hx,rfl,hflag⟩
    · exact .inl rfl
    · exact .inr (.inl (hpopped id hmem))
    · exact hnode j x hx hflag
  · exact hkept

theorem AllKept.set_node {s t : State F C} {i : ℕ} {x : TaskType F C} (x' : TaskType F C) (h : AllKept s)
    (hx : s.tasks[i]? = some x) (hid : x'.id = x.id) (hflag : x.readyToRun = false → x'.readyToRun = false)
    (htasks : t.tasks = s.tasks.set i x') (hpopping : t.popping = s.popping) (hpopped : t.popped = s.popped)
    (hran : ∀ id ∈ t.ran, id ∈ s.ran ∨ Kept t id) : AllKept t := by
  refine h.of_nodes hran (fun _ hmem => hpopped ▸ hmem) fun j y hy hkept => ?_
  refine .inr (.inr ?_)
  rw [htasks,hpopping]
  by_cases hij : i = j
  · subst hij
    obtain rfl := Option.some.inj (hx.symm.trans hy)
    exact ⟨i,x',List.getElem?_set_self (List.getElem?_eq_some_iff.mp hx).1,hid,hkept.imp_left hflag⟩
  · exact ⟨j,y,by rw [List.getElem?_set_ne hij,hy],rfl,hkept⟩

theorem kept_addTask {s t : State F C} {f : Option F} (h : AllKept s) (hs : stepAddTask s f = some t) :
    AllKept t := by
  unfold stepAddTask at hs
  split at hs
  · obtain rfl := Option.some.inj hs
    exact h
  · split at hs
    · cases hs
    · obtain rfl := Option.some.inj hs
      refine h.of_nodes (fun _ hmem => .inl hmem) (fun _ hmem => hmem) fun j x hx hkept => ?_
      exact .inr (.inr ⟨j,x,by rw [List.getElem?_append_left (List.getElem?_eq_some_iff.mp hx).1,hx],rfl,hkept⟩)

theorem kept_addCb {s t : State F C} {i : ℕ} {f : Option C} (h : AllKept s)
    (hs : stepAddCb s i f = some t) : AllKept t := by
  obtain ⟨x,hx,rfl⟩ := Option.map_eq_some_iff.mp hs
  refine h.set_node (x.addCb f).1 hx ?_ ?_ rfl rfl rfl fun _ hmem => .inl hmem
  all_goals rcases x.addCb_cases f with hadd | ⟨c,-,hadd⟩ <;> simp [hadd]

theorem kept_runTask {s t : State F C} {i : ℕ} (hinv : Inv s) (h : AllKept s)
    (hs : stepRunTask s i = some t) : AllKept t := by
  obtain ⟨x,hx,rfl⟩ := Option.map_eq_some_iff.mp hs
  refine h.set_node x.run hx rfl (fun _ => rfl) rfl rfl rfl fun id hid => ?_
  rcases List.mem_append.mp hid with hid | hid
  · exact .inl hid
  · obtain rfl := List.mem_singleton.mp hid
    rcases hinv.handle_cases hx with ⟨-,hhandle,-⟩ | ⟨-,hpopped⟩
    · exact .inr (.inr (.inr ⟨i,x.run,List.getElem?_set_self (List.getElem?_eq_some_iff.mp hx).1,
        hhandle.symm,.inl rfl⟩))
    · exact .inr (.inr (.inl hpopped))

theorem kept_popTask {s t : State F C} {w : ℕ} (h : AllKept s) (hs : stepPopTask s w = some t) :
    AllKept t := by
  unfold stepPopTask at hs
  split at hs
  · cases hs
  rename_i hfree
  have hnone : s.popping = none := by simpa using hfree
  split at hs
  case h_2 => cases hs
  obtain rfl := Option.some.inj hs
  refine h.of_nodes (fun _ hmem => .inl hmem) (fun _ hmem => hmem) fun j x hx hkept => ?_
  rw [hnone] at hkept
  exact .inr (.inr ⟨j,x,hx,rfl,.inl (by simpa using hkept)⟩)

theorem kept_pop {s t : State F C} (hinv : Inv s) (h : AllKept s) (hs : stepPop s = some t) : AllKept t := by
  rcases hp : s.popping with _ | ⟨w,i | i | i⟩
  · simp [stepPop,hp] at hs
  · obtain ⟨-,⟨-,rfl⟩ | ⟨x,-,-,-,rfl⟩ | ⟨x,hx,hflag,rfl⟩⟩ := hinv.looks hp hs
    · refine h.of_nodes (fun _ hmem => .inl hmem) (fun _ hmem => hmem) fun j y hy hkept => ?_
      exact .inr (.inr ⟨j,y,hy,rfl,.inl (by simpa [hp] using hkept)⟩)
    · refine h.of_nodes (fun _ hmem => .inl hmem) (fun _ hmem => hmem) fun j y hy hkept => ?_
      exact .inr (.inr ⟨j,y,hy,rfl,.inl (by simpa [hp] using hkept)⟩)
    · refine h.of_nodes (fun _ hmem => .inl hmem) (fun _ hmem => hmem) fun j y hy hkept => ?_
      have hclear : y.readyToRun = false := by simpa [hp] using hkept
      by_cases hij : i = j
      · subst hij
        obtain rfl := Option.some.inj (hx.symm.trans hy)
        exact .inr (.inr ⟨i,_,List.getElem?_set_self (List.getElem?_eq_some_iff.mp hx).1,rfl,.inr ⟨w,rfl⟩⟩)
      · exact .inr (.inr ⟨j,y,by rw [List.getElem?_set_ne hij,hy],rfl,.inl hclear⟩)
  · obtain ⟨x,y,f,hx,-,-,-,rfl⟩ := hinv.takes hp hs
    refine h.of_nodes (fun _ hmem => .inl hmem) (fun _ hmem => List.mem_append_left _ hmem) fun j z hz hkept => ?_
    by_cases hij : i = j
    · subst hij
      obtain rfl := Option.some.inj (hx.symm.trans hz)
      exact .inr (.inl (by simp))
    · refine .inr (.inr ⟨j,z,by rw [List.getElem?_set_ne hij,hz],rfl,.inl ?_⟩)
      simpa [hp,hij] using hkept
  · have hpop := hinv.pop
    rw [hp] at hpop
    obtain ⟨x,y,hx,-,hused,-⟩ := hpop
    simp only [stepPop,hp] at hs
    obtain rfl := Option.some.inj hs
    refine h.of_nodes (fun _ hmem => .inl hmem) (fun _ hmem => hmem) fun j z hz hkept => ?_
    have hclear : z.readyToRun = false := by simpa [hp] using hkept
    by_cases hij : i = j
    · -- the node that goes holds no task
      subst hij
      obtain rfl := Option.some.inj (hx.symm.trans hz)
      exact hused.imp_right .inl
    · obtain ⟨k,hk⟩ := List.getElem?_of_mem (List.mem_eraseIdx_iff_getElem?.mpr ⟨j,Ne.symm hij,hz⟩)
      exact .inr (.inr ⟨k,z,hk,rfl,.inl hclear⟩)

theorem kept_active {s t : State F C} {w : ℕ} {f : Worker F C → Worker F C} (h : AllKept s)
    (hs : stepActive s w f = some t) : AllKept t := by
  unfold stepActive at hs
  split at hs
  case h_2 => cases hs
  obtain rfl := Option.some.inj hs
  exact h

theorem kept_step {s t : State F C} {e : Event F C} (hinv : Inv s) (h : AllKept s)
    (hs : step s e = some t) : AllKept t := by
  cases e with
  | addTask f => exact kept_addTask h hs
  | addCb i f => exact kept_addCb h hs
  | runTask i => exact kept_runTask hinv h hs
  | popTask w => exact kept_popTask h hs
  | pop => exact kept_pop hinv h hs
  | activeAddCb w f => exact kept_active h hs
  | activeRunTask w => exact kept_active h hs
  | activeSwapAndBlock w cbs => exact kept_active h hs
  | finish w => exact kept_active h hs

theorem kept_of_reachable {s : State F C} (h : system.Reachable s) : Inv s ∧ AllKept s := by
  refine h.invariant (P:=fun s => Inv s ∧ AllKept s) ?_ ?_
  · rintro _ ⟨n,rfl⟩
    exact ⟨inv_initial n,by simp [AllKept,initial]⟩
  · exact fun s e t hs _ ht => ⟨inv_step hs.1 ht,kept_step hs.1 hs.2 ht⟩

/-- The nodes without the one that is about to be erased. -/
def State.listed (s : State F C) : List (TaskType F C) :=
  match s.popping with
  | some (_,.swapped i) => s.tasks.eraseIdx i
  | _ => s.tasks

def TaskType.runnable (t : TaskType F C) : Bool := !t.readyToRun

/-- The steps left of the `pop_task` in progress; with none, those of the next. A scan that
finds nothing leaves room for another. -/
def State.scan (s : State F C) : ℕ :=
  match s.popping with
  | none => s.tasks.length+4
  | some (_,.scanning i) => s.tasks.length-i+3+
      if (s.tasks.drop i).any TaskType.runnable then 0 else s.tasks.length+5
  | some (_,.claimed _) => s.tasks.length+7
  | some (_,.swapped _) => s.tasks.length+6

def State.work (s : State F C) : ℕ :=
  s.listed.countP TaskType.runnable*(s.tasks.length+8)+s.scan+s.workers.countP Worker.running

/-- The steps of the workers. One that has nothing to pop waits. -/
def GoesOn (s : State F C) : Event F C → Prop
  | .popTask _ => s.tasks.any TaskType.runnable = true
  | .pop | .finish _ => True
  | _ => False

theorem modify_eq_set {α : Type*} {l : List α} {i : ℕ} {a : α} (h : l[i]? = some a) (f : α → α) :
    l.modify i f = l.set i (f a) := by
  ext j : 1
  by_cases hij : i = j
  · subst hij
    rw [List.getElem?_modify_eq,h,List.getElem?_set_self (List.getElem?_eq_some_iff.mp h).1]
    rfl
  · simp [List.getElem?_set_ne hij,hij]

theorem popTask_work {s t : State F C} {w : ℕ} (hany : s.tasks.any TaskType.runnable = true)
    (hs : stepPopTask s w = some t) : t.work < s.work := by
  unfold stepPopTask at hs
  split at hs
  · cases hs
  rename_i hfree
  have hnone : s.popping = none := by simpa using hfree
  split at hs
  case h_2 => cases hs
  obtain rfl := Option.some.inj hs
  simp only [State.work,State.listed,State.scan,hnone,List.drop_zero,hany,if_true]
  omega

theorem pop_work {s t : State F C} (hinv : Inv s) (hs : stepPop s = some t) : t.work < s.work := by
  rcases hp : s.popping with _ | ⟨w,i | i | i⟩
  · simp [stepPop,hp] at hs
  · obtain ⟨-,⟨hle,rfl⟩ | ⟨x,hx,hflag,-,rfl⟩ | ⟨x,hx,hflag,rfl⟩⟩ := hinv.looks hp hs
    · simp only [State.work,State.listed,State.scan,hp,List.drop_eq_nil_of_le hle,List.any_nil,
        Bool.false_eq_true,if_false]
      omega
    · obtain ⟨hlt,rfl⟩ := List.getElem?_eq_some_iff.mp hx
      have hany : (s.tasks.drop i).any TaskType.runnable = (s.tasks.drop (i+1)).any TaskType.runnable := by
        rw [List.drop_eq_getElem_cons hlt,List.any_cons,TaskType.runnable,hflag]
        rfl
      simp only [State.work,State.listed,State.scan,hp,hany]
      omega
    · obtain ⟨hlt,rfl⟩ := List.getElem?_eq_some_iff.mp hx
      have hany : (s.tasks.drop i).any TaskType.runnable = true := by
        rw [List.drop_eq_getElem_cons hlt,List.any_cons,TaskType.runnable,hflag]
        rfl
      have hcount := countP_set_add (b:={ s.tasks[i] with readyToRun := true }) hx TaskType.runnable
      have hold : TaskType.runnable s.tasks[i] = true := by simp [TaskType.runnable,hflag]
      have hnew : TaskType.runnable { s.tasks[i] with readyToRun := true } = false := rfl
      rw [hold,hnew] at hcount
      simp only [Bool.toNat_true,Bool.toNat_false,Nat.add_zero] at hcount
      simp only [State.work,State.listed,State.scan,hp,hany,if_true,List.length_set,← hcount,Nat.add_mul]
      omega
  · have hpop := hinv.pop
    rw [hp] at hpop
    obtain ⟨⟨y,hw⟩,-⟩ := hpop
    obtain ⟨x,z,f,-,-,-,-,rfl⟩ := hinv.takes hp hs
    have hrunning := countP_set_add hw Worker.running (b:=⟨⟨x.id,some f,true,acceptedFor s x.id,false⟩,false⟩)
    have herase := (List.eraseIdx_sublist s.tasks i).countP_le (p:=TaskType.runnable)
    have hmul := Nat.mul_le_mul_right (s.tasks.length+8) herase
    simp only [Bool.toNat_false,Nat.add_zero] at hrunning
    simp only [State.work,State.listed,State.scan,hp,List.eraseIdx_set_eq,List.length_set,hrunning]
    omega
  · have hpop := hinv.pop
    rw [hp] at hpop
    obtain ⟨x,y,hx,hw,-⟩ := hpop
    simp only [stepPop,hp] at hs
    obtain rfl := Option.some.inj hs
    have hlt := (List.getElem?_eq_some_iff.mp hx).1
    have hlength := List.length_eraseIdx_of_lt hlt
    have hrunning := countP_set_add hw Worker.running (b:=⟨y,true⟩)
    have hmul := Nat.mul_le_mul_left ((s.tasks.eraseIdx i).countP TaskType.runnable)
      (show (s.tasks.eraseIdx i).length+8 ≤ s.tasks.length+8 by omega)
    simp only [Bool.toNat_false,Bool.toNat_true,Nat.add_zero] at hrunning
    simp only [State.work,State.listed,State.scan,hp,modify_eq_set hw,hrunning]
    omega

theorem finish_work {s t : State F C} {w : ℕ} (hs : step s (.finish w) = some t) :
    t.work < s.work ∧ t.workers.length = s.workers.length := by
  simp only [step,stepActive] at hs
  split at hs
  case h_2 => cases hs
  rename_i x hw
  obtain rfl := Option.some.inj hs
  have hrunning := countP_set_add hw Worker.running (b:=⟨x.clear,false⟩)
  simp only [Bool.toNat_false,Bool.toNat_true,Nat.add_zero] at hrunning
  refine ⟨?_,List.length_modify ..⟩
  simp only [State.work,State.listed,State.scan,modify_eq_set hw]
  omega

theorem pop_workers {s t : State F C} (hs : stepPop s = some t) : t.workers.length = s.workers.length := by
  rcases hp : s.popping with _ | ⟨w,i | i | i⟩ <;> simp only [stepPop,hp] at hs
  · cases hs
  · split at hs
    · obtain rfl := Option.some.inj hs
      rfl
    · split at hs <;> obtain rfl := Option.some.inj hs <;> rfl
  · split at hs
    · obtain rfl := Option.some.inj hs
      exact List.length_set
    · cases hs
  · obtain rfl := Option.some.inj hs
    exact List.length_modify ..

/-- A pool with a worker. -/
def Manned (s : State F C) : Prop := (Inv s ∧ AllKept s) ∧ s.workers ≠ []

theorem goesOn_lowers : (system (F:=F) (C:=C)).Lowers GoesOn Manned State.work := by
  intro s e t ⟨⟨hinv,hkept⟩,hworkers⟩ hon hs
  have hstep : t.work < s.work ∧ t.workers.length = s.workers.length := by
    cases e with
    | popTask w =>
      refine ⟨popTask_work hon hs,?_⟩
      simp only [system,step,stepPopTask] at hs
      split at hs
      · cases hs
      · split at hs
        · obtain rfl := Option.some.inj hs
          rfl
        · cases hs
    | pop => exact ⟨pop_work hinv hs,pop_workers hs⟩
    | finish w => exact finish_work hs
    | _ => exact absurd hon id
  refine ⟨⟨⟨inv_step hinv hs,kept_step hinv hkept hs⟩,fun hnil => hworkers ?_⟩,hstep.1⟩
  rw [hnil] at hstep
  exact List.length_eq_zero_iff.mp hstep.2.symm

/-- The workers wait, nothing that is listed can run, and every task that `run_task` was
called on was popped and its function has returned. -/
structure Complete (s : State F C) : Prop where
  popping : s.popping = none
  workers : ∀ x ∈ s.workers, x.running = false
  listed : ∀ x ∈ s.tasks, x.readyToRun = true
  run : ∀ id ∈ s.ran, 0 < id → id ∈ s.popped

theorem Manned.complete {s : State F C} (h : Manned s) (hrest : system.AtRest GoesOn s) : Complete s := by
  obtain ⟨⟨hinv,hkept⟩,hworkers⟩ := h
  have hpopping : s.popping = none := by
    have hpop := hinv.pop
    have hstep : stepPop s = none := hrest .pop trivial
    rcases hp : s.popping with _ | ⟨w,i | i | i⟩ <;> rw [hp] at hpop <;> simp only [stepPop,hp] at hstep
    · split at hstep
      · cases hstep
      · split at hstep <;> cases hstep
    · obtain ⟨⟨y,hw⟩,-,x,hx,-⟩ := hpop
      simp [hx,hw] at hstep
    · cases hstep
  have hidle : ∀ x ∈ s.workers, x.running = false := by
    intro x hx
    obtain ⟨w,hw⟩ := List.getElem?_of_mem hx
    obtain ⟨active,running⟩ := x
    cases running with
    | false => rfl
    | true =>
      have hstep := hrest (.finish w) trivial
      simp [system,step,stepActive,hw] at hstep
  have hlisted : s.tasks.any TaskType.runnable = false := by
    by_contra hany
    obtain ⟨⟨active,running⟩,xs,hxs⟩ := List.exists_cons_of_ne_nil hworkers
    have hw : s.workers[0]? = some ⟨active,false⟩ := by
      have hfalse : running = false := hidle ⟨active,running⟩ (hxs ▸ List.mem_cons_self)
      simp [hxs,hfalse]
    have hstep := hrest (.popTask 0) (Bool.eq_true_of_not_eq_false hany)
    simp [system,step,stepPopTask,hpopping,hw] at hstep
  have hflag : ∀ x ∈ s.tasks, x.readyToRun = true := fun x hx => by
    simpa [TaskType.runnable] using List.any_eq_false.mp hlisted x hx
  refine ⟨hpopping,hidle,hflag,fun id hid hpos => ?_⟩
  rcases hkept id hid with rfl | hmem | ⟨j,x,hx,-,hclear | ⟨w,hp⟩⟩
  · exact absurd hpos (Nat.lt_irrefl 0)
  · exact hmem
  · rw [hflag x (List.mem_of_getElem? hx)] at hclear
    cases hclear
  · rw [hpopping] at hp
    cases hp

/-- Whatever the schedule, the workers of a pool to which nothing new is given run every task
that `run_task` was called on, in a number of steps that `work` bounds, and only then rest. -/
theorem every_task_runs {s : State F C} (h : system.Reachable s) (hworkers : s.workers ≠ []) :
    (∀ es t, system.Allowed GoesOn s es → system.exec s es = some t →
      es.length ≤ s.work ∧ (system.AtRest GoesOn t → Complete t)) ∧
    ∃ es t, system.Allowed GoesOn s es ∧ system.exec s es = some t ∧ Complete t := by
  have hmanned : Manned s := ⟨kept_of_reachable h,hworkers⟩
  refine ⟨fun es t hes ht => ?_,?_⟩
  · obtain ⟨hend,hle⟩ := goesOn_lowers.exec hmanned hes ht
    exact ⟨by omega,hend.complete⟩
  · obtain ⟨es,t,hes,ht,hend,hrest⟩ := goesOn_lowers.exists_rest hmanned
    exact ⟨es,t,hes,ht,hend.complete hrest⟩

/-- The second task is made runnable before the scan comes to it and the first behind it. -/
theorem every_task_runs_behind :
    let run := (system : TransitionSystem (State ℕ ℕ) (Event ℕ ℕ)).exec (initial 1) [.addTask (some 7),
      .addTask (some 8),.popTask 0,.pop,.runTask 0,.runTask 1]
    run.map (fun s => (s.work,s.workers.length)) = some (24,1) ∧
    ∀ s, run = some s → ∃ es t, system.Allowed GoesOn s es ∧ system.exec s es = some t ∧ Complete t := by
  intro run
  have hrun : run.map (fun s => (s.work,s.workers.length)) = some (24,1) := by decide
  refine ⟨hrun,fun s hs => ?_⟩
  have hlength : s.workers.length = 1 := by
    rw [hs] at hrun
    exact (Prod.mk.inj (Option.some.inj hrun)).2
  have hreach : (system : TransitionSystem (State ℕ ℕ) (Event ℕ ℕ)).Reachable s :=
    .exec (fun _ _ _ => trivial) (.init ⟨1,rfl⟩) hs
  exact (every_task_runs hreach (List.ne_nil_of_length_pos (by omega))).2

end ThreadPool
end SdkCp
