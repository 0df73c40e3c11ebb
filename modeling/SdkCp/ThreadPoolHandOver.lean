import SdkCp.ThreadPool

/-! The hand-over of tasks. A popped object is the task as it was added, with the
callbacks accepted for it and nothing of the task before; a call of `pop_task` passes
over no task that was runnable when it began. -/
namespace SdkCp
namespace ThreadPool

open Threads TransitionSystem

variable {F C : Type*}

/-- Node `j` holds task `x`. The node that has been swapped and is about to be erased holds
what its worker had before, and no task. -/
def Listed (s : State F C) (j : ℕ) (x : TaskType F C) : Prop :=
  s.tasks[j]? = some x ∧ ∀ w, s.popping ≠ some (w,.swapped j)

/-- The callbacks that `add_cb` accepted for a task before it was popped, in order. -/
def acceptedFor (s : State F C) (id : ℕ) : List C := (s.accepted.filter (·.1 = id)).map (·.2)

/-- The object is an added task with the callbacks accepted for it, unblocked, and with
the flag set. -/
def Handed (s : State F C) (x : TaskType F C) : Prop :=
  ∃ f, (x.id,f) ∈ s.added ∧ x = ⟨x.id,some f,true,acceptedFor s x.id,false⟩

/-- A task object that holds no task: the default one, or one whose task was popped. -/
def Used (s : State F C) (x : TaskType F C) : Prop := x.id = 0 ∨ x.id ∈ s.popped

/-- What is known of a task between `add_task` and `pop_task`. -/
structure TaskOk (s : State F C) (x : TaskType F C) : Prop where
  pos : 0 < x.id
  le : x.id ≤ s.taskIdGlobal
  unpopped : x.id ∉ s.popped
  handed : Handed s { x with readyToRun := true }
  runnable : x.readyToRun = false → x.id ∈ s.ran

/-- Where the current `pop_task` stands. -/
def PopOk (s : State F C) : Option (ℕ × Place) → Prop
  | none => True
  | some (w,.scanning i) => (∃ y, s.workers[w]? = some ⟨y,false⟩) ∧
      ∀ (j : ℕ) x, s.tasks[j]? = some x → x.id ∈ s.began → i ≤ j ∧ x.readyToRun = false
  | some (w,.claimed i) => (∃ y, s.workers[w]? = some ⟨y,false⟩) ∧
      (∀ (j : ℕ) x, s.tasks[j]? = some x → x.id ∈ s.began → i ≤ j) ∧
      ∃ x, s.tasks[i]? = some x ∧ x.id ∈ s.ran
  | some (w,.swapped i) => ∃ x y, s.tasks[i]? = some x ∧ s.workers[w]? = some ⟨y,false⟩ ∧
      Used s x ∧ Handed s y ∧ (∃ ids, s.popped = ids ++ [y.id]) ∧ x.id ≠ y.id ∧ s.handle i = y.id

structure Inv (s : State F C) : Prop where
  increasing : ∀ j k x y, Listed s j x → Listed s k y → j < k → x.id < y.id
  task : ∀ j x, Listed s j x → TaskOk s x
  handles_length : s.handles.length = s.tasks.length
  handle : ∀ j x, Listed s j x → s.handle j = x.id
  late_popped : ∀ p ∈ s.late, p.1 ∈ s.popped
  added_le : ∀ p ∈ s.added, p.1 ≤ s.taskIdGlobal
  added_increasing : s.added.Pairwise (·.1 < ·.1)
  accepted_le : ∀ p ∈ s.accepted, p.1 ≤ s.taskIdGlobal
  popped_le : ∀ id ∈ s.popped, id ≤ s.taskIdGlobal
  popped_nodup : s.popped.Nodup
  popped_ran : ∀ id ∈ s.popped, id ∈ s.ran
  active : ∀ (w : ℕ) x, s.workers[w]? = some x → Used s x.active
  pop : PopOk s s.popping

theorem inv_initial (n : ℕ) : Inv (initial n : State F C) := by
  constructor <;> simp [initial,Listed,PopOk,List.getElem?_replicate,Used,TaskType.default]

/-- Where no `pop_task` is between swap and erase, all nodes hold tasks. -/
theorem listed_iff {s : State F C} (h : ∀ w i, s.popping ≠ some (w,.swapped i)) {j : ℕ}
    {x : TaskType F C} : Listed s j x ↔ s.tasks[j]? = some x :=
  and_iff_left fun w => h w j

theorem acceptedFor_eq {s t : State F C} {id : ℕ} {new : List (ℕ × C)}
    (ht : t.accepted = s.accepted ++ new) (hnew : ∀ p ∈ new, p.1 ≠ id) :
    acceptedFor t id = acceptedFor s id := by
  have hnil : new.filter (·.1 = id) = [] :=
    List.filter_eq_nil_iff.mpr fun p hp => by simpa using hnew p hp
  rw [acceptedFor,acceptedFor,ht,List.filter_append,hnil,List.append_nil]

theorem Handed.mono {s t : State F C} {x : TaskType F C} (h : Handed s x)
    (hadded : ∀ p ∈ s.added, p ∈ t.added) (hacc : acceptedFor t x.id = acceptedFor s x.id) :
    Handed t x := by
  obtain ⟨f,hf,hx⟩ := h
  exact ⟨f,hadded _ hf,hacc ▸ hx⟩

section Nodes

variable {s : State F C} (h : Inv s)
include h

theorem Inv.eq_of_id {j k : ℕ} {x y : TaskType F C} (hx : Listed s j x) (hy : Listed s k y)
    (hid : x.id = y.id) : j = k := by
  rcases Nat.lt_trichotomy j k with hjk | hjk | hjk
  · exact absurd hid (h.increasing j k x y hx hy hjk).ne
  · exact hjk
  · exact absurd hid (h.increasing k j y x hy hx hjk).ne'

/-- A node stands for the task it holds, or for the one that was just popped from it. -/
theorem Inv.handle_cases {i : ℕ} {x : TaskType F C} (hx : s.tasks[i]? = some x) :
    (Listed s i x ∧ s.handle i = x.id ∧ s.handle i ∉ s.popped) ∨
      (Used s x ∧ s.handle i ∈ s.popped) := by
  by_cases hp : ∃ w, s.popping = some (w,.swapped i)
  · obtain ⟨w,hp⟩ := hp
    have hpop := h.pop
    rw [hp] at hpop
    obtain ⟨z,y,hz,-,hused,-,⟨ids,hpopped⟩,-,hhandle⟩ := hpop
    obtain rfl := Option.some.inj (hz.symm.trans hx)
    exact .inr ⟨hused,by simp [hhandle,hpopped]⟩
  · have hl : Listed s i x := ⟨hx,fun w hw => hp ⟨w,hw⟩⟩
    have hhandle := h.handle i x hl
    exact .inl ⟨hl,hhandle,hhandle ▸ (h.task i x hl).unpopped⟩

theorem Inv.used_le {x : TaskType F C} (hx : Used s x) : x.id ≤ s.taskIdGlobal := by
  rcases hx with hx | hx
  · omega
  · exact h.popped_le _ hx

theorem Inv.not_used {j : ℕ} {x : TaskType F C} (hx : Listed s j x) {y : TaskType F C}
    (hy : Used s y) : x.id ≠ y.id := by
  intro hid
  have hok := h.task j x hx
  rcases hy with hy | hy
  · have := hok.pos
    omega
  · exact hok.unpopped (hid ▸ hy)

theorem Inv.id_le {i : ℕ} {x : TaskType F C} (hx : s.tasks[i]? = some x) :
    x.id ≤ s.taskIdGlobal := by
  rcases h.handle_cases hx with ⟨hl,-⟩ | ⟨hu,-⟩
  · exact (h.task i x hl).le
  · exact h.used_le hu

theorem Inv.id_ne {i j : ℕ} {x y : TaskType F C} (hx : s.tasks[i]? = some x) (hy : Listed s j y)
    (hij : i ≠ j) : x.id ≠ y.id := by
  rcases h.handle_cases hx with ⟨hl,-⟩ | ⟨hu,-⟩
  · exact fun hid => hij (h.eq_of_id hl hy hid)
  · exact (h.not_used hy hu).symm

theorem Inv.acceptedFor_new : acceptedFor s (s.taskIdGlobal+1) = [] := by
  have hnil : s.accepted.filter (·.1 = s.taskIdGlobal+1) = [] := by
    refine List.filter_eq_nil_iff.mpr fun p hp => ?_
    have := h.accepted_le p hp
    simp only [decide_eq_true_eq]
    omega
  rw [acceptedFor,hnil,List.map_nil]

end Nodes

theorem inv_addTask {s t : State F C} {f : Option F} (h : Inv s)
    (hs : stepAddTask s f = some t) : Inv t := by
  cases f with
  | none => exact Option.some.inj hs ▸ h
  | some f =>
    simp only [stepAddTask] at hs
    split at hs
    · simp at hs
    rename_i hfree
    obtain rfl := Option.some.inj hs
    have hnone : s.popping = none := by simpa using hfree
    have hold : ∀ j x, Listed s j x ↔ s.tasks[j]? = some x := fun j x =>
      listed_iff (by simp [hnone])
    have hcases : ∀ (j : ℕ) x, (s.tasks++[TaskType.ofFunc (s.taskIdGlobal+1) f])[j]? = some x →
        Listed s j x ∨ (j = s.tasks.length ∧ x = TaskType.ofFunc (s.taskIdGlobal+1) f) := by
      exact fun j x hx => (getElem?_concat_cases hx).imp_left (hold j x).mpr
    refine { h with
      increasing := ?_
      task := ?_
      handles_length := by simp [h.handles_length]
      handle := ?_
      added_le := ?_
      added_increasing := ?_
      accepted_le := fun p hp => (h.accepted_le p hp).trans (Nat.le_succ _)
      popped_le := fun id hid => (h.popped_le id hid).trans (Nat.le_succ _)
      pop := by rw [hnone]; trivial }
    · rintro j k x y ⟨hx,-⟩ ⟨hy,-⟩ hjk
      have hlen : ∀ i z, Listed s i z → i < s.tasks.length := fun i z hz =>
        (List.getElem?_eq_some_iff.mp hz.1).1
      rcases hcases j x hx with hx | ⟨hj,rfl⟩ <;> rcases hcases k y hy with hy | ⟨hk,rfl⟩
      · exact h.increasing j k x y hx hy hjk
      · exact Nat.lt_succ_of_le (h.task j x hx).le
      · have := hlen k y hy
        omega
      · omega
    · rintro j x ⟨hx,-⟩
      rcases hcases j x hx with hx | ⟨hj,rfl⟩
      · obtain ⟨hpos,hle,hun,hhand,hrun⟩ := h.task j x hx
        exact ⟨hpos,hle.trans (Nat.le_succ _),hun,
          hhand.mono (fun p hp => List.mem_append_left _ hp) rfl,hrun⟩
      · have hnew := h.acceptedFor_new
        refine ⟨Nat.succ_pos _,le_rfl,fun hmem => ?_,⟨f,?_,?_⟩,by simp [TaskType.ofFunc]⟩
        · have := h.popped_le _ hmem
          simp only [TaskType.ofFunc] at this
          omega
        · simp [TaskType.ofFunc]
        · change _ = TaskType.mk (s.taskIdGlobal+1) (some f) true (acceptedFor s (s.taskIdGlobal+1)) false
          rw [hnew]
          rfl
    · rintro j x ⟨hx,-⟩
      rcases hcases j x hx with hx | ⟨rfl,rfl⟩
      · have hlt := (List.getElem?_eq_some_iff.mp hx.1).1
        have hget : (s.handles ++ [s.taskIdGlobal+1])[j]? = s.handles[j]? :=
          List.getElem?_append_left (h.handles_length ▸ hlt)
        rw [← h.handle j x hx]
        simp only [State.handle,List.getD_eq_getElem?_getD,hget]
      · simp [State.handle,TaskType.ofFunc,← h.handles_length]
    · intro p hp
      rcases List.mem_append.mp hp with hp | hp
      · exact (h.added_le p hp).trans (Nat.le_succ _)
      · rw [List.mem_singleton.mp hp]
    · rw [List.pairwise_append]
      refine ⟨h.added_increasing,List.pairwise_singleton _ _,fun p hp q hq => ?_⟩
      rw [List.mem_singleton.mp hq]
      exact Nat.lt_succ_of_le (h.added_le p hp)

theorem inv_node {s t : State F C} {i : ℕ} {x : TaskType F C} (x' : TaskType F C) (new : List (ℕ × C))
    (ids : List ℕ) (h : Inv s) (hx : s.tasks[i]? = some x) (hid : x'.id = x.id)
    (htasks : t.tasks = s.tasks.set i x') (hglobal : t.taskIdGlobal = s.taskIdGlobal)
    (hadded : t.added = s.added) (hacc : t.accepted = s.accepted ++ new)
    (hran : t.ran = s.ran ++ ids) (hpopped : t.popped = s.popped) (hworkers : t.workers = s.workers)
    (hhandles : t.handles = s.handles) (hlate : ∀ p ∈ t.late, p ∈ s.late ∨ p.1 ∈ s.popped)
    (hnew : ∀ p ∈ new, p.1 = x.id)
    (hswapped : ∀ w j, s.popping = some (w,.swapped j) → t.popping = some (w,.swapped j))
    (htask : TaskOk s x → TaskOk t x') (hpop : PopOk t t.popping) : Inv t := by
  have hcases : ∀ j y, Listed t j y → (j = i ∧ y = x' ∧ Listed s i x) ∨ (j ≠ i ∧ Listed s j y) := by
    rintro j y ⟨hy,hplace⟩
    have hplace' : ∀ w, s.popping ≠ some (w,.swapped j) := fun w hw => hplace w (hswapped w j hw)
    rw [htasks] at hy
    rcases getElem?_set_cases hy with ⟨rfl,rfl⟩ | ⟨hj,hy⟩
    · exact .inl ⟨rfl,rfl,hx,hplace'⟩
    · exact .inr ⟨hj,hy,hplace'⟩
  have hbefore : ∀ j y, Listed t j y → ∃ z, Listed s j z ∧ y.id = z.id := by
    intro j y hy
    rcases hcases j y hy with ⟨rfl,rfl,hl⟩ | ⟨-,hl⟩
    · exact ⟨x,hl,hid⟩
    · exact ⟨y,hl,rfl⟩
  refine ⟨?_,?_,?_,?_,?_,?_,?_,?_,?_,?_,?_,?_,hpop⟩
  · intro j k y z hy hz hjk
    obtain ⟨y',hy',hyid⟩ := hbefore j y hy
    obtain ⟨z',hz',hzid⟩ := hbefore k z hz
    rw [hyid,hzid]
    exact h.increasing j k y' z' hy' hz' hjk
  · intro j y hy
    rcases hcases j y hy with ⟨rfl,rfl,hl⟩ | ⟨hj,hl⟩
    · exact htask (h.task _ _ hl)
    · obtain ⟨hpos,hle,hun,hhand,hrun⟩ := h.task j y hl
      have hne := h.id_ne hx hl (Ne.symm hj)
      refine ⟨hpos,hglobal ▸ hle,hpopped ▸ hun,hhand.mono (fun p hp => hadded ▸ hp) ?_,fun hflag => ?_⟩
      · exact acceptedFor_eq hacc fun p hp => (hnew p hp).symm ▸ hne
      · rw [hran]
        exact List.mem_append_left _ (hrun hflag)
  · rw [hhandles,htasks,List.length_set,h.handles_length]
  · intro j y hy
    obtain ⟨z,hz,hzid⟩ := hbefore j y hy
    rw [State.handle,hhandles,hzid]
    exact h.handle j z hz
  · intro p hp
    rw [hpopped]
    exact (hlate p hp).elim (h.late_popped p) id
  · rw [hadded,hglobal]
    exact h.added_le
  · rw [hadded]
    exact h.added_increasing
  · intro p hp
    rw [hglobal]
    rw [hacc] at hp
    rcases List.mem_append.mp hp with hp | hp
    · exact h.accepted_le p hp
    · rw [hnew p hp]
      exact h.id_le hx
  · rw [hpopped,hglobal]
    exact h.popped_le
  · rw [hpopped]
    exact h.popped_nodup
  · intro id hmem
    rw [hran]
    exact List.mem_append_left _ (h.popped_ran id (hpopped ▸ hmem))
  · intro w y hy
    rw [hworkers] at hy
    simpa only [Used,hpopped] using h.active w y hy

/-- What `add_cb` and `run_task` do to a node does not disturb the `pop_task` in progress. -/
theorem popOk_client {s : State F C} {i : ℕ} {x x' : TaskType F C} {new late : List (ℕ × C)}
    {ids : List ℕ} (h : Inv s) (hx : s.tasks[i]? = some x) (hid : x'.id = x.id)
    (hflag : x.readyToRun = false → x'.readyToRun = false) (hnew : ∀ p ∈ new, p.1 = x.id) :
    PopOk { s with tasks := s.tasks.set i x', accepted := s.accepted ++ new, late := late
                   ran := s.ran ++ ids } s.popping := by
  have hbefore : ∀ (j : ℕ) y, (s.tasks.set i x')[j]? = some y →
      ∃ z, s.tasks[j]? = some z ∧ y.id = z.id ∧ (z.readyToRun = false → y.readyToRun = false) := by
    intro j y hy
    rcases getElem?_set_cases hy with ⟨rfl,rfl⟩ | ⟨-,hy⟩
    · exact ⟨x,hx,hid,hflag⟩
    · exact ⟨y,hy,rfl,id⟩
  have hafter : ∀ (j : ℕ) z, s.tasks[j]? = some z →
      ∃ y, (s.tasks.set i x')[j]? = some y ∧ y.id = z.id := by
    intro j z hz
    by_cases hij : i = j
    · subst hij
      obtain rfl := Option.some.inj (hx.symm.trans hz)
      exact ⟨x',List.getElem?_set_self (List.getElem?_eq_some_iff.mp hx).1,hid⟩
    · exact ⟨z,by rwa [List.getElem?_set_ne hij],rfl⟩
  have hpop := h.pop
  rcases hp : s.popping with _ | ⟨w,i₀ | i₀ | i₀⟩ <;> rw [hp] at hpop
  · trivial
  · obtain ⟨hw,hseen⟩ := hpop
    refine ⟨hw,fun j y hy hbegan => ?_⟩
    obtain ⟨z,hz,hzid,hzflag⟩ := hbefore j y hy
    obtain ⟨hle,hrunnable⟩ := hseen j z hz (hzid ▸ hbegan)
    exact ⟨hle,hzflag hrunnable⟩
  · obtain ⟨hw,hseen,z,hz,hran⟩ := hpop
    refine ⟨hw,fun j y hy hbegan => ?_,?_⟩
    · obtain ⟨z,hz,hzid,-⟩ := hbefore j y hy
      exact hseen j z hz (hzid ▸ hbegan)
    · obtain ⟨y,hy,hyid⟩ := hafter i₀ z hz
      exact ⟨y,hy,List.mem_append_left _ (hyid ▸ hran)⟩
  · obtain ⟨z,y,hz,hw,hused,hhand,⟨ids,hpopped⟩,hne,hhandle⟩ := hpop
    obtain ⟨z',hz',hzid⟩ := hafter i₀ z hz
    have hxy : x.id ≠ y.id := by
      by_cases hi : i = i₀
      · subst hi
        obtain rfl := Option.some.inj (hx.symm.trans hz)
        exact hne
      · refine fun hxy => (h.task i x ⟨hx,fun w' hw' => hi ?_⟩).unpopped (by simp [hpopped,hxy])
        rw [hp] at hw'
        injection hw' with hw'
        injection hw' with _ hw'
        injection hw' with hw'
        exact hw'.symm
    refine ⟨z',y,hz',hw,?_,?_,⟨ids,hpopped⟩,hzid ▸ hne,hhandle⟩
    · simpa only [Used,hzid] using hused
    · exact hhand.mono (fun _ => id) (acceptedFor_eq rfl fun p hp => hnew p hp ▸ hxy)

theorem inv_client {s : State F C} {i : ℕ} {x : TaskType F C} (x' : TaskType F C)
    (new late : List (ℕ × C)) (ids : List ℕ) (h : Inv s) (hx : s.tasks[i]? = some x) (hid : x'.id = x.id)
    (hflag : x.readyToRun = false → x'.readyToRun = false) (hnew : ∀ p ∈ new, p.1 = x.id)
    (hlate : ∀ p ∈ late, p.1 ∈ s.popped) (htask : TaskOk s x → TaskOk { s with
      tasks := s.tasks.set i x', accepted := s.accepted ++ new, late := s.late ++ late
      ran := s.ran ++ ids } x') :
    Inv { s with tasks := s.tasks.set i x', accepted := s.accepted ++ new, late := s.late ++ late
                 ran := s.ran ++ ids } :=
  inv_node x' new ids h hx hid rfl rfl rfl rfl rfl rfl rfl rfl
    (fun p hp => (List.mem_append.mp hp).imp_right (hlate p)) hnew (fun _ _ => id) htask
    (popOk_client h hx hid hflag hnew)

theorem Used.not_ok {s : State F C} {x : TaskType F C} (hx : Used s x) : ¬TaskOk s x := by
  intro hok
  rcases hx with hx | hx
  · exact absurd hok.pos (by omega)
  · exact hok.unpopped hx

theorem inv_runTask {s t : State F C} {i : ℕ} (h : Inv s) (hs : stepRunTask s i = some t) : Inv t := by
  obtain ⟨x,hx,rfl⟩ := Option.map_eq_some_iff.mp hs
  have hinv := inv_client x.run [] [] [s.handle i] h hx rfl (fun _ => rfl) (by simp) (by simp) ?_
  · simpa using hinv
  · rintro hok
    rcases h.handle_cases hx with ⟨-,hhandle,-⟩ | ⟨hused,-⟩
    · obtain ⟨hpos,hle,hun,hhand,-⟩ := hok
      exact ⟨hpos,hle,hun,hhand.mono (fun _ => id) (acceptedFor_eq rfl (by simp)),
        fun _ => by simp [TaskType.run,hhandle]⟩
    · exact (hused.not_ok hok).elim

theorem inv_addCb {s t : State F C} {i : ℕ} {f : Option C} (h : Inv s)
    (hs : stepAddCb s i f = some t) : Inv t := by
  obtain ⟨x,hx,rfl⟩ := Option.map_eq_some_iff.mp hs
  rcases x.addCb_cases f with hadd | ⟨c,rfl,hadd⟩
  · simpa [hadd,set_self hx] using h
  rcases h.handle_cases hx with ⟨-,hhandle,hun⟩ | ⟨hused,hpopped⟩
  · have hinv := inv_client { x with cbs := x.cbs ++ [c] } [(x.id,c)] [] [] h hx rfl id (by simp) (by simp) ?_
    · rw [hhandle] at hun
      simpa [hadd,hhandle,hun] using hinv
    · rintro ⟨hpos,hle,hun,⟨g,hg,hhand⟩,hran⟩
      refine ⟨hpos,hle,hun,⟨g,hg,?_⟩,fun hflag => by simpa using hran hflag⟩
      have hcbs : acceptedFor s x.id = x.cbs := (congrArg TaskType.cbs hhand).symm
      have hnext : acceptedFor { s with accepted := s.accepted ++ [(x.id,c)] } x.id = x.cbs ++ [c] := by
        rw [← hcbs]
        simp [acceptedFor]
      injection hhand with _ hfunc _ _ hblocked
      simp only [TaskType.mk.injEq,true_and]
      exact ⟨hfunc,hnext.symm,hblocked⟩
  · have hinv := inv_client { x with cbs := x.cbs ++ [c] } [] [(s.handle i,c)] [] h hx rfl id (by simp)
      (by simpa using hpopped) fun hok => (hused.not_ok hok).elim
    simpa [hadd,hpopped] using hinv

theorem Inv.with_popping {s t : State F C} (h : Inv s) {p : Option (ℕ × Place)} {began : List ℕ}
    (hs : ∀ w i, s.popping ≠ some (w,.swapped i))
    (ht : t = { s with popping := p, began := began }) (hpop : PopOk t p) : Inv t := by
  subst ht
  have hlisted : ∀ j x, Listed { s with popping := p, began := began } j x → Listed s j x :=
    fun j x hx => (listed_iff hs).mpr hx.1
  refine { h with
    increasing := fun j k x y hx hy => h.increasing j k x y (hlisted j x hx) (hlisted k y hy)
    task := fun j x hx => ?_
    handle := fun j x hx => h.handle j x (hlisted j x hx)
    pop := hpop }
  obtain ⟨hpos,hle,hun,hhand,hran⟩ := h.task j x (hlisted j x hx)
  exact ⟨hpos,hle,hun,hhand,hran⟩

theorem inv_popTask {s t : State F C} {w : ℕ} (h : Inv s) (hs : stepPopTask s w = some t) : Inv t := by
  simp only [stepPopTask] at hs
  split at hs
  · simp at hs
  rename_i hfree
  have hnone : s.popping = none := by simpa using hfree
  have hold : ∀ w i, s.popping ≠ some (w,.swapped i) := by simp [hnone]
  split at hs
  · rename_i y hw
    obtain rfl := Option.some.inj hs
    refine h.with_popping hold rfl ⟨⟨y,hw⟩,fun j x hx hmem => ⟨Nat.zero_le _,?_⟩⟩
    obtain ⟨z,hz,hid⟩ := List.mem_map.mp hmem
    obtain ⟨hz,hflag⟩ := List.mem_filter.mp hz
    obtain ⟨k,hk⟩ := List.getElem?_of_mem hz
    obtain rfl := h.eq_of_id ((listed_iff hold).mpr hk) ((listed_iff hold).mpr hx) hid
    obtain rfl := Option.some.inj (hk.symm.trans hx)
    simpa using hflag
  · simp at hs

theorem inv_scanning {s t : State F C} {w i : ℕ} (h : Inv s)
    (hp : s.popping = some (w,.scanning i)) (hs : stepPop s = some t) : Inv t := by
  have hold : ∀ w i, s.popping ≠ some (w,.swapped i) := by simp [hp]
  have hpop := h.pop
  rw [hp] at hpop
  obtain ⟨hw,hseen⟩ := hpop
  simp only [stepPop,hp] at hs
  cases hx : s.tasks[i]? with
  | none =>
    simp only [hx] at hs
    obtain rfl := Option.some.inj hs
    exact h.with_popping hold rfl trivial
  | some x =>
    simp only [hx] at hs
    split at hs
    · rename_i hflag
      obtain rfl := Option.some.inj hs
      refine h.with_popping hold rfl ⟨hw,fun j y hy hbegan => ?_⟩
      obtain ⟨hle,hrunnable⟩ := hseen j y hy hbegan
      have hne : i ≠ j := by
        rintro rfl
        obtain rfl := Option.some.inj (hx.symm.trans hy)
        simp [hflag] at hrunnable
      exact ⟨by omega,hrunnable⟩
    · rename_i hflag
      obtain rfl := Option.some.inj hs
      have hok := h.task i x ((listed_iff hold).mpr hx)
      have hlt := (List.getElem?_eq_some_iff.mp hx).1
      refine inv_node { x with readyToRun := true } [] [] h hx rfl rfl rfl rfl
        (by simp) (by simp) rfl rfl rfl (fun _ => .inl) (by simp) (by simp [hp]) ?_ ⟨hw,?_,?_⟩
      · rintro ⟨hpos,hle,hun,hhand,-⟩
        exact ⟨hpos,hle,hun,hhand,by simp⟩
      · intro j y hy hbegan
        rcases getElem?_set_cases hy with ⟨rfl,-⟩ | ⟨-,hy⟩
        · exact le_rfl
        · exact (hseen j y hy hbegan).1
      · exact ⟨_,List.getElem?_set_self hlt,hok.runnable (by simpa using hflag)⟩

theorem inv_claimed {s t : State F C} {w i : ℕ} (h : Inv s)
    (hp : s.popping = some (w,.claimed i)) (hs : stepPop s = some t) : Inv t := by
  have hold : ∀ w i, s.popping ≠ some (w,.swapped i) := by simp [hp]
  have hpop := h.pop
  rw [hp] at hpop
  obtain ⟨⟨y,hw⟩,-,x,hx,hxran⟩ := hpop
  simp only [stepPop,hp,hx,hw] at hs
  obtain rfl := Option.some.inj hs
  have hok := h.task i x ((listed_iff hold).mpr hx)
  have husedy : Used s y := h.active w ⟨y,false⟩ hw
  have hmono : ∀ z, Used s z → z.id = 0 ∨ z.id ∈ s.popped ++ [x.id] := fun z hz =>
    hz.imp_right (List.mem_append_left _)
  have hcases : ∀ (j : ℕ) z, (s.tasks.set i y)[j]? = some z → i ≠ j → Listed s j z := by
    intro j z hz hij
    rw [List.getElem?_set_ne hij] at hz
    exact (listed_iff hold).mpr hz
  have hne : ∀ j z, Listed { s with tasks := s.tasks.set i y, popping := some (w,.swapped i) } j z →
      i ≠ j := by
    rintro j z ⟨-,hz⟩ rfl
    exact hz w rfl
  refine ⟨?_,?_,?_,?_,?_,h.added_le,h.added_increasing,h.accepted_le,?_,?_,?_,?_,?_⟩
  · intro j k a b ha hb
    exact h.increasing j k a b (hcases j a ha.1 (hne j a ha)) (hcases k b hb.1 (hne k b hb))
  · intro j z hz
    have hij := hne j z hz
    have hl := hcases j z hz.1 hij
    obtain ⟨hpos,hle,hun,hhand,hran⟩ := h.task j z hl
    refine ⟨hpos,hle,fun hmem => ?_,hhand,hran⟩
    rcases List.mem_append.mp hmem with hmem | hmem
    · exact hun hmem
    · exact h.id_ne hx hl hij (List.mem_singleton.mp hmem).symm
  · rw [List.length_set]
    exact h.handles_length
  · exact fun j z hz => h.handle j z (hcases j z hz.1 (hne j z hz))
  · exact fun p hp => List.mem_append_left _ (h.late_popped p hp)
  · intro id hmem
    rcases List.mem_append.mp hmem with hmem | hmem
    · exact h.popped_le id hmem
    · rw [List.mem_singleton.mp hmem]
      exact hok.le
  · refine List.nodup_append.mpr ⟨h.popped_nodup,List.nodup_singleton _,fun a ha b hb => ?_⟩
    rw [List.mem_singleton.mp hb]
    exact fun hab => hok.unpopped (hab ▸ ha)
  · intro id hmem
    rcases List.mem_append.mp hmem with hmem | hmem
    · exact h.popped_ran id hmem
    · rwa [List.mem_singleton.mp hmem]
  · intro w' z hz
    rcases getElem?_set_cases hz with ⟨-,rfl⟩ | ⟨-,hz⟩
    · exact .inr (by simp [TaskType.swap])
    · exact hmono _ (h.active w' z hz)
  · refine ⟨y,{ x with readyToRun := true },?_,?_,hmono y husedy,hok.handed,⟨s.popped,rfl⟩,?_,
      h.handle i x ((listed_iff hold).mpr hx)⟩
    · exact List.getElem?_set_self (List.getElem?_eq_some_iff.mp hx).1
    · exact List.getElem?_set_self (List.getElem?_eq_some_iff.mp hw).1
    · exact (h.not_used ((listed_iff hold).mpr hx) husedy).symm

theorem inv_swapped {s t : State F C} {w i : ℕ} (h : Inv s)
    (hp : s.popping = some (w,.swapped i)) (hs : stepPop s = some t) : Inv t := by
  simp only [stepPop,hp] at hs
  obtain rfl := Option.some.inj hs
  -- node `j` afterwards is a node before it, other than the erased one
  have hcases : ∀ (j : ℕ) x, (s.tasks.eraseIdx i)[j]? = some x →
      Listed s (if j < i then j else j+1) x := by
    intro j x hx
    rw [List.getElem?_eraseIdx] at hx
    refine ⟨by split <;> simp_all,fun w' hw' => ?_⟩
    rw [hp] at hw'
    simp only [Option.some.injEq,Prod.mk.injEq,Place.swapped.injEq] at hw'
    split at hw' <;> omega
  refine { h with
    increasing := fun j k x y hx hy hjk => ?_
    task := fun j x hx => ?_
    handles_length := by simp only [List.length_eraseIdx,h.handles_length]
    handle := fun j x hx => ?_
    active := fun w' x hx => ?_
    pop := trivial }
  · refine h.increasing _ _ x y (hcases j x hx.1) (hcases k y hy.1) ?_
    split <;> split <;> omega
  · obtain ⟨hpos,hle,hun,hhand,hran⟩ := h.task _ x (hcases j x hx.1)
    exact ⟨hpos,hle,hun,hhand,hran⟩
  · rw [← h.handle _ x (hcases j x hx.1)]
    simp only [State.handle,List.getD_eq_getElem?_getD,List.getElem?_eraseIdx]
    split <;> rfl
  · rw [List.getElem?_modify] at hx
    obtain ⟨y,hy,rfl⟩ := Option.map_eq_some_iff.mp hx
    have hused := h.active w' y hy
    split <;> exact hused

theorem inv_pop {s t : State F C} (h : Inv s) (hs : stepPop s = some t) : Inv t := by
  rcases hp : s.popping with _ | ⟨w,i | i | i⟩
  · simp [stepPop,hp] at hs
  · exact inv_scanning h hp hs
  · exact inv_claimed h hp hs
  · exact inv_swapped h hp hs

theorem inv_active {s t : State F C} {w : ℕ} {f : Worker F C → Worker F C} (h : Inv s)
    (hf : ∀ x, (f x).active.id = x.active.id) (hs : stepActive s w f = some t) : Inv t := by
  simp only [stepActive] at hs
  split at hs
  · rename_i z hw
    obtain rfl := Option.some.inj hs
    have hother : ∀ (v : ℕ) y, s.workers[v]? = some ⟨y,false⟩ →
        (s.workers.modify w f)[v]? = some ⟨y,false⟩ := by
      intro v y hv
      have hne : w ≠ v := by
        rintro rfl
        simp [hw] at hv
      rw [List.getElem?_modify,hv]
      simp [hne]
    refine ⟨h.increasing,fun j x hx => ?_,h.handles_length,h.handle,h.late_popped,h.added_le,
      h.added_increasing,h.accepted_le,h.popped_le,h.popped_nodup,h.popped_ran,fun v y hy => ?_,?_⟩
    · obtain ⟨hpos,hle,hun,hhand,hran⟩ := h.task j x hx
      exact ⟨hpos,hle,hun,hhand,hran⟩
    · rw [List.getElem?_modify] at hy
      obtain ⟨x,hx,rfl⟩ := Option.map_eq_some_iff.mp hy
      have hused := h.active v x hx
      split
      · simpa only [Used,hf] using hused
      · exact hused
    · have hpop := h.pop
      rcases hp : s.popping with _ | ⟨v,i | i | i⟩ <;> rw [hp] at hpop
      · trivial
      · obtain ⟨⟨y,hv⟩,hseen⟩ := hpop
        exact ⟨⟨y,hother v y hv⟩,hseen⟩
      · obtain ⟨⟨y,hv⟩,hseen⟩ := hpop
        exact ⟨⟨y,hother v y hv⟩,hseen⟩
      · obtain ⟨x,y,hx,hv,hrest⟩ := hpop
        exact ⟨x,y,hx,hother v y hv,hrest⟩
  · simp at hs

theorem inv_step {s t : State F C} {e : Event F C} (h : Inv s) (hs : step s e = some t) : Inv t := by
  cases e with
  | addTask f => exact inv_addTask h hs
  | addCb i f => exact inv_addCb h hs
  | runTask i => exact inv_runTask h hs
  | popTask w => exact inv_popTask h hs
  | pop => exact inv_pop h hs
  | activeAddCb w f =>
    refine inv_active h (fun x => ?_) hs
    rcases x.active.addCb_cases f with hadd | ⟨c,-,hadd⟩ <;> simp [hadd]
  | activeRunTask w => exact inv_active (f:=fun x => { x with active := x.active.run }) h (fun _ => rfl) hs
  | activeSwapAndBlock w cbs =>
    refine inv_active h (fun x => ?_) hs
    simp only [TaskType.swapAndBlock]
    split <;> rfl
  | finish w => exact inv_active (f:=fun x => ⟨x.active.clear,false⟩) h (fun _ => rfl) hs

theorem inv_reachable {s : State F C} (h : system.Reachable s) : Inv s := by
  refine h.invariant (P:=Inv) ?_ fun _ _ _ hinv _ hs => inv_step hinv hs
  rintro _ ⟨n,rfl⟩
  exact inv_initial n

/-- `pop_task` looks at node `i`: it returns false behind the last node, passes over a task
that is not runnable, or takes the first that is. No task behind it was runnable when it
began. -/
def Looks (s t : State F C) (w i : ℕ) : Prop :=
  (∀ j < i, ∀ x, s.tasks[j]? = some x → x.id ∉ s.began) ∧
  ((s.tasks.length ≤ i ∧ t = { s with popping := none }) ∨
    (∃ x, s.tasks[i]? = some x ∧ x.readyToRun = true ∧ x.id ∉ s.began ∧
      t = { s with popping := some (w,.scanning (i+1)) }) ∨
    ∃ x, s.tasks[i]? = some x ∧ x.readyToRun = false ∧
      t = { s with tasks := s.tasks.set i { x with readyToRun := true }
                   popping := some (w,.claimed i) })

/-- `pop_task` swaps: the task leaves its node for the first time and is what the worker
has; nothing else changes. -/
def Takes (s t : State F C) (w i : ℕ) : Prop :=
  ∃ x y f, s.tasks[i]? = some x ∧ (x.id,f) ∈ s.added ∧ x.id ∈ s.ran ∧ x.id ∉ s.popped ∧
    t = { s with tasks := s.tasks.set i y
                 workers := s.workers.set w ⟨⟨x.id,some f,true,acceptedFor s x.id,false⟩,false⟩
                 popped := s.popped ++ [x.id]
                 popping := some (w,.swapped i) }

/-- `pop_task` erases the node and returns true: the worker has the task last popped. -/
def Returns (s t : State F C) (w i : ℕ) : Prop :=
  t.tasks = s.tasks.eraseIdx i ∧ t.popped = s.popped ∧ ∃ ids id f, t.popped = ids ++ [id] ∧
    (id,f) ∈ t.added ∧ t.workers[w]? = some ⟨⟨id,some f,true,acceptedFor t id,false⟩,true⟩

structure HandsOver (s : State F C) : Prop where
  once : s.popped.Nodup
  after_run : ∀ id ∈ s.popped, id ∈ s.ran
  added : s.added.Pairwise (·.1 < ·.1)
  order : ∀ j k x y, Listed s j x → Listed s k y → j < k → x.id < y.id
  looks : ∀ w i t, s.popping = some (w,.scanning i) → stepPop s = some t → Looks s t w i
  takes : ∀ w i t, s.popping = some (w,.claimed i) → stepPop s = some t → Takes s t w i
  returns : ∀ w i t, s.popping = some (w,.swapped i) → stepPop s = some t → Returns s t w i
  late : ∀ p ∈ s.late, p.1 ∈ s.popped

theorem Inv.looks {s t : State F C} {w i : ℕ} (h : Inv s) (hp : s.popping = some (w,.scanning i))
    (hs : stepPop s = some t) : Looks s t w i := by
  have hpop := h.pop
  rw [hp] at hpop
  obtain ⟨-,hseen⟩ := hpop
  refine ⟨fun j hj x hx hbegan => ?_,?_⟩
  · have := (hseen j x hx hbegan).1
    omega
  simp only [stepPop,hp] at hs
  cases hx : s.tasks[i]? with
  | none =>
    simp only [hx] at hs
    exact .inl ⟨List.getElem?_eq_none_iff.mp hx,(Option.some.inj hs).symm⟩
  | some x =>
    simp only [hx] at hs
    split at hs
    · rename_i hflag
      refine .inr (.inl ⟨x,rfl,hflag,fun hbegan => ?_,(Option.some.inj hs).symm⟩)
      exact absurd hflag (by simp [(hseen i x hx hbegan).2])
    · rename_i hflag
      exact .inr (.inr ⟨x,rfl,by simpa using hflag,(Option.some.inj hs).symm⟩)

theorem Inv.takes {s t : State F C} {w i : ℕ} (h : Inv s) (hp : s.popping = some (w,.claimed i))
    (hs : stepPop s = some t) : Takes s t w i := by
  have hpop := h.pop
  rw [hp] at hpop
  obtain ⟨⟨y,hw⟩,-,x,hx,hran⟩ := hpop
  simp only [stepPop,hp,hx,hw] at hs
  have hok := h.task i x ((listed_iff (by simp [hp])).mpr hx)
  obtain ⟨f,hf,hhand⟩ := hok.handed
  refine ⟨x,y,f,hx,hf,hran,hok.unpopped,?_⟩
  rw [← Option.some.inj hs]
  simp only [TaskType.swap,hhand]

theorem Inv.returns {s t : State F C} {w i : ℕ} (h : Inv s) (hp : s.popping = some (w,.swapped i))
    (hs : stepPop s = some t) : Returns s t w i := by
  have hpop := h.pop
  rw [hp] at hpop
  obtain ⟨-,y,-,hw,-,⟨f,hf,hy⟩,⟨ids,hids⟩,-⟩ := hpop
  simp only [stepPop,hp] at hs
  obtain rfl := Option.some.inj hs
  refine ⟨rfl,rfl,ids,y.id,f,hids,hf,?_⟩
  rw [List.getElem?_modify,hw,hy]
  simp [acceptedFor]

/-- In every state of the pool, a task is popped at most once and after it was made
runnable; `pop_task` passes over no task that was runnable when it began, and what it
hands over is the task that was added. -/
theorem handsOver {s : State F C} (h : system.Reachable s) : HandsOver s := by
  have hinv := inv_reachable h
  exact ⟨hinv.popped_nodup,hinv.popped_ran,hinv.added_increasing,hinv.increasing,
    fun _ _ _ => hinv.looks,fun _ _ _ => hinv.takes,fun _ _ _ => hinv.returns,hinv.late_popped⟩

/-- A worker runs the second task while the first is not runnable, and then gets the first
with the one callback accepted for it in between. -/
theorem handsOver_reused :
    let run := (system : TransitionSystem (State ℕ ℕ) (Event ℕ ℕ)).exec (initial 2) [.addTask (some 7),
      .addTask (some 8),.addCb 1 (some 3),.runTask 1,.popTask 1,.pop,.pop,.pop,.pop,
      .activeSwapAndBlock 1 [],.activeAddCb 1 (some 4),.addCb 0 (some 5),.finish 1,.runTask 0,
      .popTask 1,.pop,.pop,.pop]
    run.map (fun s => s.workers.map fun x => (x.active.func,x.active.cbs,x.active.blocked)) =
      some [(none,[],false),(some 7,[5],false)] ∧
    ∀ s, run = some s → HandsOver s := by
  intro run
  refine ⟨by decide,fun s hs => handsOver ?_⟩
  exact ReachableBy.exec (fun _ _ _ => trivial) (.init ⟨2,rfl⟩) hs

/-- The task taken is the first that can run, and false is returned when none can. -/
def TakesEarliest (s : State F C) : Prop :=
  (∀ w i, s.popping = some (w,.claimed i) → ∀ j x, Listed s j x → x.readyToRun = false → i ≤ j) ∧
  ∀ w i t, s.popping = some (w,.scanning i) → stepPop s = some t → t.popping = none →
    ∀ x ∈ s.tasks, x.readyToRun = true

/-- The popped object carries all callbacks that `add_cb` accepted for the task. -/
def CarriesAll (s : State F C) : Prop :=
  ∀ w i t, s.popping = some (w,.swapped i) → stepPop s = some t → ∀ x, t.workers[w]? = some x →
    x.active.cbs = acceptedFor t x.active.id ++ (t.late.filter (·.1 = x.active.id)).map (·.2)

theorem not_takesEarliest : ¬∀ s : State ℕ ℕ, system.Reachable s → TakesEarliest s := by
  intro hall
  let run := (system : TransitionSystem (State ℕ ℕ) (Event ℕ ℕ)).exec (initial 1) [.addTask (some 7),
    .addTask (some 8),.popTask 0,.pop,.runTask 0,.runTask 1,.pop]
  have hrun : run.map (fun s => (s.popping,s.tasks.map (·.readyToRun))) =
      some (some (0,.claimed 1),[false,true]) := by decide
  obtain ⟨s,hs,hstate⟩ := Option.map_eq_some_iff.mp hrun
  have hreach : system.Reachable s := ReachableBy.exec (fun _ _ _ => trivial) (.init ⟨1,rfl⟩) hs
  obtain ⟨hpop,hflags⟩ := Prod.mk.inj hstate
  obtain ⟨x,hx,hflag⟩ : ∃ x, s.tasks[0]? = some x ∧ x.readyToRun = false := by
    have hhead := congrArg (·[0]?) hflags
    simpa using hhead
  have := (hall s hreach).1 0 1 hpop 0 x ⟨hx,by simp [hpop]⟩ hflag
  omega

theorem not_carriesAll : ¬∀ s : State ℕ ℕ, system.Reachable s → CarriesAll s := by
  intro hall
  let run := (system : TransitionSystem (State ℕ ℕ) (Event ℕ ℕ)).exec (initial 1) [.addTask (some 7),
    .runTask 0,.popTask 0,.pop,.pop,.addCb 0 (some 3)]
  have hrun : run.map (fun s => (s.popping,(stepPop s).map fun t =>
      (t.workers.map fun x => (x.active.id,x.active.cbs),t.accepted,t.late))) =
      some (some (0,.swapped 0),some ([(1,[])],[],[(1,3)])) := rfl
  obtain ⟨s,hs,hstate⟩ := Option.map_eq_some_iff.mp hrun
  have hreach : system.Reachable s := ReachableBy.exec (fun _ _ _ => trivial) (.init ⟨1,rfl⟩) hs
  obtain ⟨hpop,hnext⟩ := Prod.mk.inj hstate
  obtain ⟨t,ht,hstate⟩ := Option.map_eq_some_iff.mp hnext
  simp only [Prod.mk.injEq] at hstate
  obtain ⟨hworkers,haccepted,hlate⟩ := hstate
  obtain ⟨x,hx,hactive⟩ : ∃ x, t.workers[0]? = some x ∧ (x.active.id,x.active.cbs) = (1,[]) := by
    have hhead := congrArg (·[0]?) hworkers
    simpa using hhead
  simp only [Prod.mk.injEq] at hactive
  have := hall s hreach 0 0 t hpop ht x hx
  simp [hactive,acceptedFor,haccepted,hlate] at this

/-- Where the scan is past the first task when both are made runnable, in order; and where a callback
comes between the swap and the erasure. -/
theorem not_takesEarliest_nor_carriesAll :
    (¬∀ s : State ℕ ℕ, system.Reachable s → TakesEarliest s) ∧
      ¬∀ s : State ℕ ℕ, system.Reachable s → CarriesAll s :=
  ⟨not_takesEarliest,not_carriesAll⟩

end ThreadPool
end SdkCp
