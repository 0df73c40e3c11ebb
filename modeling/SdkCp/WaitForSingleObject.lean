import SdkCp.Linearizability
import SdkCp.Termination
import SdkCp.Threads

/-! `wait_for_single_object` of tools/wait_for_single_object.hpp: a flag and a condition variable.
`set` clears the flag and notifies without the mutex, so that a thread which has looked at the
flag and does not yet sleep misses the notification and sleeps until its timeout. Still `wait`
and `set` are atomic: a client sees an event that one `wait` takes. -/
namespace SdkCp
namespace WaitForSingleObject

open Linearizability TransitionSystem

inductive Call
  | wait | set
  deriving DecidableEq

/-- Where a thread stands. `looking` runs the predicate, after a timeout for the last time, and
`falling` found the flag set; they and `returning` hold `_wait_m`. `notifying` has cleared the flag. -/
inductive Place
  | idle
  | locking
  | looking (timedOut : Bool)
  | falling
  | blocked
  | waking (timedOut : Bool)
  | returning (result : Bool)
  | setting
  | notifying
  deriving DecidableEq

/-- `event` is a clear `_wait_lock`. -/
structure State where
  event : Bool
  threads : List Place
  history : List (ℕ × Action Call Bool)

/-- A step of a thread. The end of a timeout and a spurious wake-up come from outside;
`notify_one` wakes any of the threads that sleep. -/
inductive Event
  | wait (i : ℕ)
  | set (i : ℕ)
  | go (i : ℕ)
  | notify (i : ℕ) (woken : Option ℕ)
  | timeout (i : ℕ)
  | spurious (i : ℕ)

def Place.holds : Place → Bool
  | .looking _ | .falling | .returning _ => true
  | _ => false

def State.move (s : State) (i : ℕ) (x : Place) : State := { s with threads := s.threads.set i x }

def State.record (s : State) (i : ℕ) (a : Action Call Bool) : State :=
  { s with history := s.history ++ [(i,a)] }

/-- `_wait_m` is locked. -/
def State.locked (s : State) : Bool := s.threads.any Place.holds

def stepGo (s : State) (i : ℕ) : Option State :=
  match s.threads[i]? with
  | some .locking => if s.locked then none else some (s.move i (.looking false))
  | some (.waking timedOut) => if s.locked then none else some (s.move i (.looking timedOut))
  | some (.looking timedOut) =>
    -- `!_wait_lock.test_and_set()`
    if s.event then some { (s.move i (.returning true)).record i (.effect .wait true) with event := false }
    else if timedOut then some ((s.move i (.returning false)).record i (.effect .wait false))
    else some (s.move i .falling)
  | some .falling => some (s.move i .blocked)
  | some (.returning result) => some ((s.move i .idle).record i (.ret .wait result))
  | some .setting => some { (s.move i .notifying).record i (.effect .set true) with event := true }
  | _ => none

/-- `notify_one`, after which `set` returns. -/
def stepNotify (s : State) (i : ℕ) (woken : Option ℕ) : Option State :=
  if s.threads[i]? = some .notifying then
    match woken with
    | none =>
      if s.threads.any (· = .blocked) then none else some ((s.move i .idle).record i (.ret .set true))
    | some j =>
      if s.threads[j]? = some .blocked then
        some (((s.move i .idle).move j (.waking false)).record i (.ret .set true))
      else none
  else none

def step (s : State) : Event → Option State
  | .wait i =>
    if s.threads[i]? = some .idle then some ((s.move i .locking).record i (.call .wait)) else none
  | .set i =>
    if s.threads[i]? = some .idle then some ((s.move i .setting).record i (.call .set)) else none
  | .go i => stepGo s i
  | .notify i woken => stepNotify s i woken
  | .timeout i => if s.threads[i]? = some .blocked then some (s.move i (.waking true)) else none
  | .spurious i => if s.threads[i]? = some .blocked then some (s.move i (.waking false)) else none

/-- `n` threads share a new object. -/
def initial (n : ℕ) : State := ⟨false,List.replicate n .idle,[]⟩

def system : TransitionSystem State Event where
  init s := ∃ n, s = initial n
  step := step

/-- What a client sees: `set` sets the event, `wait` takes it, and times out only without it. -/
def event : Object Bool Call Bool where
  start := false
  apply set
    | .set, true => some true
    | .wait, true => if set then some false else none
    | .wait, false => if set then none else some false
    | .set, false => none

def Place.phase : Place → Phase Call Bool
  | .idle => .idle
  | .locking | .looking _ | .falling | .blocked | .waking _ => .called .wait
  | .returning result => .done .wait result
  | .setting => .called .set
  | .notifying => .done .set true

def State.phase (s : State) (i : ℕ) : Phase Call Bool := (s.threads[i]?.map Place.phase).getD .idle

structure Inv (s : State) : Prop where
  tracks : Tracks event s.history s.phase s.event
  lock : s.threads.countP Place.holds ≤ 1

variable {s t : State} {i : ℕ}

theorem phase_eq {x : Place} (hi : s.threads[i]? = some x) : s.phase i = x.phase := by
  simp [State.phase,hi]

theorem phase_set {x y : Place} (hi : s.threads[i]? = some y) (hthreads : t.threads = s.threads.set i x) :
    t.phase i = x.phase ∧ ∀ j, j ≠ i → t.phase j = s.phase j := by
  refine ⟨?_,fun j hj => ?_⟩
  · simp [State.phase,hthreads,(List.getElem?_eq_some_iff.mp hi).1]
  · simp [State.phase,hthreads,List.getElem?_set_ne (Ne.symm hj)]

theorem Inv.within (h : Inv s) {x y : Place} (hi : s.threads[i]? = some y) (hphase : x.phase = y.phase)
    (hlock : (s.move i x).threads.countP Place.holds ≤ 1) : Inv (s.move i x) := by
  have hsame : (s.move i x).phase = s.phase := by
    obtain ⟨hx,hother⟩ := phase_set (t:=s.move i x) hi rfl
    funext j
    by_cases hj : j = i
    · rw [hj,hx,hphase,phase_eq hi]
    · exact hother j hj
  exact ⟨hsame ▸ h.tracks,hlock⟩

theorem lock_move {x y : Place} (hi : s.threads[i]? = some y) :
    (s.move i x).threads.countP Place.holds+y.holds.toNat = s.threads.countP Place.holds+x.holds.toNat :=
  Threads.countP_set_add hi Place.holds

theorem lock_free (hfree : ¬s.locked = true) : s.threads.countP Place.holds = 0 := by
  rw [List.countP_eq_zero]
  exact fun x hx hholds => hfree (List.any_eq_true.mpr ⟨x,hx,hholds⟩)

theorem inv_go (h : Inv s) (hs : stepGo s i = some t) : Inv t := by
  have hle := h.lock
  unfold stepGo at hs
  split at hs
  · rename_i hi
    split at hs
    · cases hs
    · rename_i hfree
      obtain rfl := Option.some.inj hs
      have hmove := lock_move (x:=.looking false) hi
      have hzero := lock_free hfree
      exact h.within hi rfl (by simp only [Place.holds,Bool.toNat_true,Bool.toNat_false] at hmove; omega)
  · rename_i timedOut hi
    split at hs
    · cases hs
    · rename_i hfree
      obtain rfl := Option.some.inj hs
      have hmove := lock_move (x:=.looking timedOut) hi
      have hzero := lock_free hfree
      exact h.within hi rfl (by simp only [Place.holds,Bool.toNat_true,Bool.toNat_false] at hmove; omega)
  · rename_i timedOut hi
    split at hs
    · rename_i hevent
      obtain rfl := Option.some.inj hs
      have hmove := lock_move (x:=.returning true) hi
      obtain ⟨hdone,hsame⟩ := phase_set (t:=s.move i (.returning true)) hi rfl
      refine ⟨h.tracks.effect (phase_eq hi) hdone (by simp [event,hevent]) hsame,?_⟩
      exact Nat.le_trans (Nat.le_of_eq (Nat.add_right_cancel hmove)) hle
    · rename_i hevent
      split at hs
      · obtain rfl := Option.some.inj hs
        have hmove := lock_move (x:=.returning false) hi
        obtain ⟨hdone,hsame⟩ := phase_set (t:=s.move i (.returning false)) hi rfl
        refine ⟨h.tracks.effect (phase_eq hi) hdone (by simp [event,hevent,State.record,State.move]) hsame,?_⟩
        exact Nat.le_trans (Nat.le_of_eq (Nat.add_right_cancel hmove)) hle
      · obtain rfl := Option.some.inj hs
        have hmove := lock_move (x:=.falling) hi
        exact h.within hi rfl (Nat.le_trans (Nat.le_of_eq (Nat.add_right_cancel hmove)) hle)
  · rename_i hi
    obtain rfl := Option.some.inj hs
    have hmove := lock_move (x:=.blocked) hi
    exact h.within hi rfl (by simp only [Place.holds,Bool.toNat_true,Bool.toNat_false] at hmove; omega)
  · rename_i result hi
    obtain rfl := Option.some.inj hs
    have hmove := lock_move (x:=.idle) hi
    obtain ⟨hidle,hsame⟩ := phase_set (t:=s.move i .idle) hi rfl
    refine ⟨h.tracks.ret (phase_eq hi) hidle hsame,?_⟩
    simp only [Place.holds,Bool.toNat_true,Bool.toNat_false] at hmove
    simp only [State.record]
    omega
  · rename_i hi
    obtain rfl := Option.some.inj hs
    have hmove := lock_move (x:=.notifying) hi
    obtain ⟨hdone,hsame⟩ := phase_set (t:=s.move i .notifying) hi rfl
    refine ⟨h.tracks.effect (phase_eq hi) hdone rfl hsame,?_⟩
    exact Nat.le_trans (Nat.le_of_eq (Nat.add_right_cancel hmove)) hle
  · cases hs

theorem inv_notify {woken : Option ℕ} (h : Inv s) (hs : stepNotify s i woken = some t) : Inv t := by
  have hle := h.lock
  unfold stepNotify at hs
  split at hs
  case isFalse => cases hs
  rename_i hi
  have hmove := lock_move (x:=.idle) hi
  obtain ⟨hidle,hsame⟩ := phase_set (t:=s.move i .idle) hi rfl
  have hreturned : Inv ((s.move i .idle).record i (.ret .set true)) := by
    refine ⟨h.tracks.ret (phase_eq hi) hidle hsame,?_⟩
    exact Nat.le_trans (Nat.le_of_eq (Nat.add_right_cancel hmove)) hle
  split at hs
  · split at hs
    · cases hs
    · obtain rfl := Option.some.inj hs
      exact hreturned
  · rename_i j
    split at hs
    · rename_i hj
      obtain rfl := Option.some.inj hs
      have hne : i ≠ j := by
        rintro rfl
        cases Option.some.inj (hi.symm.trans hj)
      have hj' : ((s.move i .idle).record i (.ret .set true)).threads[j]? = some .blocked := by
        simpa [State.record,State.move,List.getElem?_set_ne hne] using hj
      have hwake := lock_move (x:=.waking false) hj'
      exact hreturned.within hj' rfl (Nat.le_trans (Nat.le_of_eq (Nat.add_right_cancel hwake)) hreturned.lock)
    · cases hs

theorem Inv.begin (h : Inv s) {c : Call} {x : Place} (hi : s.threads[i]? = some .idle)
    (hphase : x.phase = .called c)
    (hholds : x.holds = false) : Inv ((s.move i x).record i (.call c)) := by
  have hmove := lock_move (x:=x) hi
  obtain ⟨hcalled,hsame⟩ := phase_set (t:=s.move i x) hi rfl
  refine ⟨h.tracks.call (phase_eq hi) (hcalled.trans hphase) hsame,?_⟩
  rw [hholds] at hmove
  exact Nat.le_trans (Nat.le_of_eq (Nat.add_right_cancel hmove)) h.lock

theorem Inv.wake (h : Inv s) (timedOut : Bool) (hi : s.threads[i]? = some .blocked) :
    Inv (s.move i (.waking timedOut)) := by
  have hmove := lock_move (x:=.waking timedOut) hi
  exact h.within hi rfl (Nat.le_trans (Nat.le_of_eq (Nat.add_right_cancel hmove)) h.lock)

theorem inv_step {e : Event} (h : Inv s) (hs : step s e = some t) : Inv t := by
  cases e with
  | go i => exact inv_go h hs
  | notify i woken => exact inv_notify h hs
  | wait i | set i =>
    simp only [step] at hs
    split at hs
    · rename_i hi
      obtain rfl := Option.some.inj hs
      exact h.begin hi rfl rfl
    · cases hs
  | timeout i | spurious i =>
    simp only [step] at hs
    split at hs
    · rename_i hi
      obtain rfl := Option.some.inj hs
      exact h.wake _ hi
    · cases hs

theorem inv_reachable (h : system.Reachable s) : Inv s := by
  refine h.invariant (P:=Inv) ?_ fun _ _ _ hinv _ hs => inv_step hinv hs
  rintro _ ⟨n,rfl⟩
  have hphase : (initial n).phase = fun _ => .idle := by
    funext i
    simp only [State.phase,initial,List.getElem?_replicate]
    split <;> rfl
  refine ⟨⟨fun i => by rw [hphase]; rfl,rfl⟩,?_⟩
  simp [initial,List.countP_replicate,Place.holds]

/-- The steps of a call that are left. A notification costs its sender what the thread that it
wakes may need for another look. -/
def Place.rank : Place → ℕ
  | .idle => 0
  | .returning _ => 1
  | .looking true => 2
  | .waking true => 3
  | .blocked => 4
  | .falling => 5
  | .looking false => 6
  | .locking | .waking false => 7
  | .notifying => 4
  | .setting => 5

def State.work (s : State) : ℕ := (s.threads.map Place.rank).sum

/-- No new calls, and nobody wakes up for nothing. -/
def Finishes (_ : State) : Event → Prop
  | .go _ | .notify _ _ | .timeout _ => True
  | _ => False

theorem work_move {x y : Place} (hi : s.threads[i]? = some y) (hlt : x.rank < y.rank) :
    (s.move i x).work < s.work := by
  have hsum := sum_map_set_add hi x Place.rank
  unfold State.work State.move
  dsimp only
  omega

theorem go_work (hs : stepGo s i = some t) : t.work < s.work := by
  unfold stepGo at hs
  split at hs
  · rename_i hi
    split at hs
    · cases hs
    · obtain rfl := Option.some.inj hs
      exact work_move hi (by decide)
  · rename_i timedOut hi
    split at hs
    · cases hs
    · obtain rfl := Option.some.inj hs
      exact work_move hi (by cases timedOut <;> decide)
  · rename_i timedOut hi
    split at hs
    · obtain rfl := Option.some.inj hs
      exact work_move hi (by cases timedOut <;> decide)
    · split at hs
      · rename_i hlast
        obtain rfl := Option.some.inj hs
        exact work_move hi (by rw [hlast]; decide)
      · rename_i hfirst
        obtain rfl := Option.some.inj hs
        exact work_move hi (by rw [Bool.eq_false_of_not_eq_true hfirst]; decide)
  · rename_i hi
    obtain rfl := Option.some.inj hs
    exact work_move hi (by decide)
  · rename_i result hi
    obtain rfl := Option.some.inj hs
    exact work_move hi (Nat.one_pos)
  · rename_i hi
    obtain rfl := Option.some.inj hs
    exact work_move hi (by decide)
  · cases hs

theorem notify_work {woken : Option ℕ} (hs : stepNotify s i woken = some t) : t.work < s.work := by
  unfold stepNotify at hs
  split at hs
  case isFalse => cases hs
  rename_i hi
  split at hs
  · split at hs
    · cases hs
    · obtain rfl := Option.some.inj hs
      exact work_move hi (by decide)
  · rename_i j
    split at hs
    · rename_i hj
      obtain rfl := Option.some.inj hs
      have hne : i ≠ j := by
        rintro rfl
        cases Option.some.inj (hi.symm.trans hj)
      have hj' : (s.threads.set i .idle)[j]? = some .blocked := by rwa [List.getElem?_set_ne hne]
      have hsum := sum_map_set_add hi .idle Place.rank
      have hsum' := sum_map_set_add hj' (.waking false) Place.rank
      simp only [Place.rank] at hsum hsum'
      simp only [State.work,State.record,State.move]
      omega
    · cases hs

theorem finishes_lowers : system.Lowers Finishes (fun _ => True) State.work := by
  intro s e t _ hon hs
  refine ⟨trivial,?_⟩
  cases e with
  | go i => exact go_work hs
  | notify i woken => exact notify_work hs
  | timeout i =>
    simp only [system,step] at hs
    split at hs
    · rename_i hi
      obtain rfl := Option.some.inj hs
      exact work_move hi (by decide)
    · cases hs
  | wait i | set i | spurious i => exact absurd hon id

theorem idle_of_rest (hrest : system.AtRest Finishes s) : ∀ x ∈ s.threads, x = .idle := by
  have hgo (i : ℕ) : stepGo s i = none := hrest (.go i) trivial
  have hfree : ¬s.locked = true := by
    intro hlocked
    obtain ⟨x,hx,hholds⟩ := List.any_eq_true.mp hlocked
    obtain ⟨i,hi⟩ := List.getElem?_of_mem hx
    have hnone := hgo i
    cases x <;> simp only [Place.holds,Bool.false_eq_true] at hholds
    · simp only [stepGo,hi] at hnone
      split at hnone
      · cases hnone
      · split at hnone <;> cases hnone
    · simp [stepGo,hi] at hnone
    · simp [stepGo,hi] at hnone
  have hawake : ∀ i : ℕ, s.threads[i]? ≠ some .blocked := fun i hi => by
    have hnone := hrest (.timeout i) trivial
    simp [system,step,hi] at hnone
  intro x hx
  obtain ⟨i,hi⟩ := List.getElem?_of_mem hx
  have hnone := hgo i
  cases x with
  | idle => rfl
  | locking => simp [stepGo,hi,hfree] at hnone
  | waking timedOut => simp [stepGo,hi,hfree] at hnone
  | setting => simp [stepGo,hi] at hnone
  | looking timedOut => exact absurd (List.any_eq_true.mpr ⟨_,hx,rfl⟩) hfree
  | falling => exact absurd (List.any_eq_true.mpr ⟨_,hx,rfl⟩) hfree
  | returning result => exact absurd (List.any_eq_true.mpr ⟨_,hx,rfl⟩) hfree
  | blocked => exact absurd hi (hawake i)
  | notifying =>
    have hnotify : stepNotify s i none = none := hrest (.notify i none) trivial
    have hany : s.threads.any (· = .blocked) = false := by
      refine Bool.eq_false_of_not_eq_true fun hany => ?_
      obtain ⟨y,hy,hblocked⟩ := List.any_eq_true.mp hany
      obtain ⟨j,hj⟩ := List.getElem?_of_mem hy
      exact hawake j (hj.trans (congrArg some (of_decide_eq_true hblocked)))
    simp [stepNotify,hi,hany] at hnotify

/-- In every run `wait` and `set` take effect at one moment between call and return, as an event
that each `set` sets and one `wait` takes; at most one thread holds the mutex, and the calls under
way return after a bounded number of steps, by their timeouts at the latest. -/
theorem wait_linearizable (h : system.Reachable s) : Linearizable event s.history ∧
    s.threads.countP Place.holds ≤ 1 ∧
    (∀ es t, system.Allowed Finishes s es → system.exec s es = some t →
      es.length ≤ s.work ∧ (system.AtRest Finishes t → ∀ x ∈ t.threads, x = .idle)) ∧
    ∃ es t, system.Allowed Finishes s es ∧ system.exec s es = some t ∧ ∀ x ∈ t.threads, x = .idle := by
  have hinv := inv_reachable h
  refine ⟨hinv.tracks.linearizable,hinv.lock,fun es t hes ht => ⟨?_,idle_of_rest⟩,?_⟩
  · obtain ⟨-,hle⟩ := finishes_lowers.exec trivial hes ht
    omega
  · obtain ⟨es,t,hes,ht,-,hrest⟩ := finishes_lowers.exists_rest (s:=s) trivial
    exact ⟨es,t,hes,ht,idle_of_rest hrest⟩

/-- Between its look and its sleep a thread misses a `set`: it sleeps while the event is set. -/
theorem wait_linearizable_missed : ∃ s, system.exec (initial 2) [.wait 0,.go 0,.go 0,.set 1,.go 1,.notify 1 none,
      .go 0] = some s ∧ s.threads = [.blocked,.idle] ∧ s.event = true ∧ Linearizable event s.history := by
  have hrun : (system.exec (initial 2) [.wait 0,.go 0,.go 0,.set 1,.go 1,.notify 1 none,.go 0]).map
      (fun s => (s.threads,s.event)) = some ([.blocked,.idle],true) := by decide
  obtain ⟨s,hs,hstate⟩ := Option.map_eq_some_iff.mp hrun
  obtain ⟨hthreads,hevent⟩ := Prod.mk.inj hstate
  have hreach : system.Reachable s := .exec (fun _ _ _ => trivial) (.init ⟨2,rfl⟩) hs
  exact ⟨s,hs,hthreads,hevent,(wait_linearizable hreach).1⟩

end WaitForSingleObject
end SdkCp
