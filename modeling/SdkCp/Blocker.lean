import SdkCp.TransitionSystem
import SdkCp.Threads

/-! `spin_blocker` of tools/blocker.hpp under `guard_lock` and `spin_blocker_infinite`.
`guard_lock` is a loop over a guard: the flag is cleared by `release` when the body
ends, and by the destructor in any case. -/
namespace SdkCp
namespace Blocker

open Threads TransitionSystem

/-- The two ways of holding the lock for a while. -/
inductive Scope
  | guardLock
  | infinite
  deriving DecidableEq

/-- Where a thread stands. `testing` and `destroying` carry the member `_locked` of a
`spin_blocker_infinite_flag`, which a `spin_blocker_infinite` does not have. -/
inductive Place
  | idle
  | locking (k : Scope)
  | testing (locked : Bool)
  | inside (k : Scope)
  | releasing
  | destroying (k : Scope) (locked : Bool)
  deriving DecidableEq

/-- The thread found the flag clear and has not cleared it since. -/
def Place.holds : Place → Bool
  | .testing locked | .destroying _ locked => locked
  | .inside _ | .releasing => true
  | .idle | .locking _ => false

/-- The next step of the thread clears the flag. -/
def Place.clears : Place → Bool
  | .releasing | .destroying _ _ => true
  | _ => false

/-- The `atomic_flag` and the threads. -/
structure State where
  flag : Bool
  threads : List Place

/-- `finish` is the end of a body or scope, `leave` a `break`, `return` or exception out of
it. `advance` is the next step of a thread anywhere else. -/
inductive Event
  | enter (i : ℕ) (k : Scope)
  | advance (i : ℕ)
  | finish (i : ℕ)
  | leave (i : ℕ)

def State.set (s : State) (i : ℕ) (p : Place) : State := { s with threads := s.threads.set i p }

/-- `test_and_set` of `lock`, the loop test and increment of `guard_lock`, and the destructors. -/
def stepAdvance (s : State) (i : ℕ) : Option State :=
  match s.threads[i]? with
  | some (.locking k) =>
    if s.flag then some s
    else
      let p := match k with
        | .guardLock => .testing true
        | .infinite => .inside .infinite
      some { s.set i p with flag := true }
  | some (.testing locked) =>
    some (s.set i (if locked then .inside .guardLock else .destroying .guardLock false))
  | some .releasing => some { s.set i (.testing false) with flag := false }
  | some (.destroying _ _) => some { s.set i .idle with flag := false }
  | _ => none

def step (s : State) : Event → Option State
  | .enter i k => if s.threads[i]? = some .idle then some (s.set i (.locking k)) else none
  | .advance i => stepAdvance s i
  | .finish i =>
    match s.threads[i]? with
    | some (.inside .guardLock) => some (s.set i .releasing)
    | some (.inside .infinite) => some (s.set i (.destroying .infinite true))
    | _ => none
  | .leave i =>
    match s.threads[i]? with
    | some (.inside k) => some (s.set i (.destroying k true))
    | _ => none

/-- An unlocked `spin_blocker` and `n` threads. -/
def initial (n : ℕ) : State := ⟨false,List.replicate n .idle⟩

def system : TransitionSystem State Event where
  init s := ∃ n, s = initial n
  step := step

/-- One thread at most is inside, and a thread about to clear the flag holds the lock. -/
structure Exclusive (s : State) : Prop where
  alone : ∀ (i j : ℕ) k l, s.threads[i]? = some (.inside k) → s.threads[j]? = some (.inside l) → i = j
  owner : ∀ (i : ℕ) p, s.threads[i]? = some p → p.clears = true → p.holds = true

/-- No `guard_lock` body runs to its end. -/
def Breaks (s : State) : Event → Prop
  | .finish i => s.threads[i]? ≠ some (.inside .guardLock)
  | _ => True

instance (s : State) : ∀ e, Decidable (Breaks s e)
  | .finish i => inferInstanceAs (Decidable (s.threads[i]? ≠ some (.inside .guardLock)))
  | .enter _ _ | .advance _ | .leave _ => .isTrue trivial

/-- A place that is reached without `release`. -/
def Place.Unreleased (p : Place) : Prop :=
  p ≠ .releasing ∧ p ≠ .testing false ∧ ∀ k, p ≠ .destroying k false

structure Inv (s : State) : Prop where
  holders : s.threads.countP (·.holds) = s.flag.toNat
  unreleased : ∀ (i : ℕ) p, s.threads[i]? = some p → p.Unreleased

theorem inv_initial (n : ℕ) : Inv (initial n) := by
  constructor
  · simp [initial,List.countP_replicate,Place.holds]
  · intro i p hp
    obtain ⟨-,rfl⟩ : i < n ∧ .idle = p := by simpa [initial,List.getElem?_replicate] using hp
    simp [Place.Unreleased]

/-- One thread moves, and the flag changes as its hold on the lock does. -/
theorem Inv.move {s : State} (h : Inv s) {i : ℕ} {p q : Place} {b : Bool}
    (hp : s.threads[i]? = some p) (hq : q.Unreleased)
    (hflag : s.flag.toNat+q.holds.toNat = b.toNat+p.holds.toNat) :
    Inv { s.set i q with flag := b } where
  holders := by
    have hcount := countP_set_add (b:=q) hp (·.holds)
    have hhold := h.holders
    simp only [State.set]
    omega
  unreleased j r hr := by
    rcases getElem?_set_cases hr with ⟨-,rfl⟩ | ⟨-,hr⟩
    · exact hq
    · exact h.unreleased j r hr

theorem Inv.flag_of_holds {s : State} (h : Inv s) {i : ℕ} {p : Place} (hp : s.threads[i]? = some p)
    (hold : p.holds = true) : s.flag = true := by
  have hpos := countP_pos (p:=(·.holds)) hp hold
  have hhold := h.holders
  cases hf : s.flag with
  | true => rfl
  | false => rw [hf,Bool.toNat_false] at hhold; omega

theorem inv_advance {s t : State} {i : ℕ} (h : Inv s) (hs : stepAdvance s i = some t) : Inv t := by
  unfold stepAdvance at hs
  split at hs
  · rename_i k hp
    split at hs
    · rw [← Option.some.inj hs]
      exact h
    · rename_i hfree
      obtain rfl := Option.some.inj hs
      cases k <;> exact h.move hp (by simp [Place.Unreleased]) (by simp [Place.holds,hfree])
  · rename_i locked hp
    obtain rfl := Option.some.inj hs
    cases locked with
    | true => exact h.move (b:=s.flag) hp (by simp [Place.Unreleased]) rfl
    | false => exact absurd rfl (h.unreleased i _ hp).2.1
  · rename_i hp
    exact absurd rfl (h.unreleased i _ hp).1
  · rename_i k locked hp
    obtain rfl := Option.some.inj hs
    cases locked with
    | true =>
      have hset := h.flag_of_holds hp rfl
      exact h.move hp (by simp [Place.Unreleased]) (by rw [hset]; rfl)
    | false => exact absurd rfl ((h.unreleased i _ hp).2.2 k)
  · simp at hs

theorem inv_step {s t : State} {e : Event} (h : Inv s) (hok : Breaks s e)
    (hs : step s e = some t) : Inv t := by
  cases e with
  | enter i k =>
    simp only [step] at hs
    split at hs
    · rename_i hp
      obtain rfl := Option.some.inj hs
      exact h.move (b:=s.flag) hp (by simp [Place.Unreleased]) rfl
    · simp at hs
  | advance i => exact inv_advance h hs
  | finish i =>
    simp only [step] at hs
    split at hs
    · rename_i hp
      exact absurd hp hok
    · rename_i hp
      obtain rfl := Option.some.inj hs
      exact h.move (b:=s.flag) hp (by simp [Place.Unreleased]) rfl
    · simp at hs
  | leave i =>
    simp only [step] at hs
    split at hs
    · rename_i k hp
      obtain rfl := Option.some.inj hs
      exact h.move (b:=s.flag) hp (by simp [Place.Unreleased]) rfl
    · simp at hs

theorem Inv.exclusive {s : State} (h : Inv s) : Exclusive s where
  alone i j k l hi hj := by
    have hle : s.threads.countP (·.holds) ≤ 1 := h.holders ▸ Bool.toNat_le s.flag
    exact eq_of_countP_le_one hle hi hj rfl rfl
  owner i p hp hc := by
    obtain ⟨hrel,-,hdes⟩ := h.unreleased i p hp
    cases p with
    | releasing => rfl
    | destroying k locked =>
      cases locked with
      | true => rfl
      | false => exact absurd rfl (hdes k)
    | _ => simp [Place.clears] at hc

/-- Mutual exclusion, as long as every `guard_lock` body is left by `break`: a body that
runs to its end is followed by two clears, and the lock was given back by the first. -/
theorem exclusive_of_breaks {s : State} (h : system.ReachableBy Breaks s) : Exclusive s := by
  refine (h.invariant (P:=Inv) ?_ fun _ _ _ hinv hok hs => inv_step hinv hok hs).exclusive
  rintro _ ⟨n,rfl⟩
  exact inv_initial n

/-- Three threads: one leaves a `guard_lock` by `break`, one ends a scope, the third is inside. -/
theorem exclusive_of_breaks_three :
    let run := system.exec (initial 3) [.enter 0 .guardLock,.enter 1 .infinite,.enter 2 .guardLock,
      .advance 0,.advance 1,.advance 0,.leave 0,.advance 0,.advance 1,.advance 2,.finish 1,
      .advance 1,.advance 2,.advance 2]
    run.map (·.threads) = some [.idle,.idle,.inside .guardLock] ∧
    ∀ s, run = some s → Exclusive s := by
  intro run
  refine ⟨by decide,fun s hs => exclusive_of_breaks ?_⟩
  exact ReachableBy.exec_allowed (.init ⟨3,rfl⟩) (by decide) hs

/-- Three threads: the first ends its body and gives the lock to the second, then its
destructor clears the flag of the second and lets the third in. -/
theorem not_exclusive_finish : ¬∀ s, system.Reachable s → Exclusive s := by
  intro hall
  let run := system.exec (initial 3) [.enter 0 .guardLock,.enter 1 .infinite,.enter 2 .infinite,
    .advance 0,.advance 0,.finish 0,.advance 0,.advance 1,.advance 0,.advance 0,.advance 2]
  have hrun : run.map (·.threads) = some [.idle,.inside .infinite,.inside .infinite] := by decide
  obtain ⟨s,hs,hthreads⟩ := Option.map_eq_some_iff.mp hrun
  have hreach : system.Reachable s := ReachableBy.exec (fun _ _ _ => trivial) (.init ⟨3,rfl⟩) hs
  have := (hall s hreach).alone 1 2 .infinite .infinite (by rw [hthreads]; rfl) (by rw [hthreads]; rfl)
  simp at this

end Blocker
end SdkCp
