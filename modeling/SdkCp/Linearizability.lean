import Mathlib.Tactic.Common
import Mathlib.Logic.Function.Basic

/-! Linearizability of a shared object. In a history every thread calls an operation, the call
takes effect once with its result, and then it returns that result. The object's own rules say
which effects may follow each other. -/
namespace SdkCp
namespace Linearizability

/-- A sequential object: the state after an operation with a result, if it can have that result. -/
structure Object (A C R : Type*) where
  start : A
  apply : A → C → R → Option A

inductive Action (C R : Type*)
  | call (c : C)
  | effect (c : C) (r : R)
  | ret (c : C) (r : R)

/-- How far the call of a thread is. -/
inductive Phase (C R : Type*)
  | idle
  | called (c : C)
  | done (c : C) (r : R)

section

variable {A C R : Type*} [DecidableEq C] [DecidableEq R]

def Phase.next : Phase C R → Action C R → Option (Phase C R)
  | .idle, .call c => some (.called c)
  | .called c, .effect c' r => if c = c' then some (.done c r) else none
  | .done c r, .ret c' r' => if c = c' ∧ r = r' then some .idle else none
  | _, _ => none

/-- The phase of thread `i` after a history, if its calls are well formed. -/
def phaseOf (i : ℕ) : List (ℕ × Action C R) → Phase C R → Option (Phase C R)
  | [], p => some p
  | (j,a)::h, p => if j = i then (p.next a).bind (phaseOf i h) else phaseOf i h p

omit [DecidableEq C] [DecidableEq R] in
/-- The state of the object after the effects of a history. -/
def Object.replay (o : Object A C R) : List (ℕ × Action C R) → A → Option A
  | [], a => some a
  | (_,.effect c r)::h, a => (o.apply a c r).bind (replay o h)
  | _::h, a => replay o h a

/-- Each call takes effect once, between its call and its return, and the effects in their order
are a run of the object. -/
structure Linearizable (o : Object A C R) (h : List (ℕ × Action C R)) : Prop where
  calls : ∀ i, ∃ p, phaseOf i h .idle = some p
  effects : ∃ a, o.replay h o.start = some a

/-- A history together with the phases and the state that it leads to. -/
structure Tracks (o : Object A C R) (h : List (ℕ × Action C R)) (phase : ℕ → Phase C R) (a : A) : Prop where
  calls : ∀ i, phaseOf i h .idle = some (phase i)
  effects : o.replay h o.start = some a

variable {o : Object A C R} {h : List (ℕ × Action C R)} {phase phase' : ℕ → Phase C R} {a : A}

theorem Tracks.linearizable (ht : Tracks o h phase a) : Linearizable o h :=
  ⟨fun i => ⟨_,ht.calls i⟩,_,ht.effects⟩

theorem phaseOf_concat (i j : ℕ) (x : Action C R) (h : List (ℕ × Action C R)) (p : Phase C R) :
    phaseOf i (h ++ [(j,x)]) p =
      if j = i then (phaseOf i h p).bind (Phase.next · x) else phaseOf i h p := by
  induction h generalizing p with
  | nil => by_cases hij : j = i <;> simp [phaseOf,hij]
  | cons y h ih =>
    obtain ⟨k,y⟩ := y
    simp only [List.cons_append,phaseOf]
    by_cases hk : k = i
    · simp only [hk,if_true]
      cases p.next y with
      | none => simp
      | some q => simp [ih]
    · simp only [hk,if_false,ih]

omit [DecidableEq C] [DecidableEq R] in
theorem Object.replay_append (o : Object A C R) (h h' : List (ℕ × Action C R)) (a : A) :
    o.replay (h ++ h') a = (o.replay h a).bind (o.replay h') := by
  induction h generalizing a with
  | nil => rfl
  | cons y h ih =>
    obtain ⟨k,c | ⟨c,r⟩ | ⟨c,r⟩⟩ := y
    · exact ih a
    · simp only [List.cons_append,Object.replay]
      cases o.apply a c r with
      | none => rfl
      | some b => exact ih b
    · exact ih a

theorem Tracks.calls_concat (ht : Tracks o h phase a) {i : ℕ} {x : Action C R}
    (hnext : (phase i).next x = some (phase' i)) (hsame : ∀ j, j ≠ i → phase' j = phase j) (j : ℕ) :
    phaseOf j (h ++ [(i,x)]) .idle = some (phase' j) := by
  rw [phaseOf_concat,ht.calls j]
  by_cases hij : i = j
  · subst hij
    rw [if_pos rfl]
    exact hnext
  · rw [if_neg hij,hsame j (Ne.symm hij)]

theorem Tracks.call (ht : Tracks o h phase a) {i : ℕ} {c : C} (hidle : phase i = .idle)
    (hcalled : phase' i = .called c) (hsame : ∀ j, j ≠ i → phase' j = phase j) :
    Tracks o (h ++ [(i,.call c)]) phase' a where
  calls := ht.calls_concat (by rw [hidle,hcalled]; rfl) hsame
  effects := by rw [o.replay_append,ht.effects]; rfl

theorem Tracks.effect (ht : Tracks o h phase a) {i : ℕ} {c : C} {r : R} {b : A} (hcalled : phase i = .called c)
    (hdone : phase' i = .done c r) (happly : o.apply a c r = some b)
    (hsame : ∀ j, j ≠ i → phase' j = phase j) : Tracks o (h ++ [(i,.effect c r)]) phase' b where
  calls := ht.calls_concat (by rw [hcalled,hdone]; simp [Phase.next]) hsame
  effects := by
    rw [o.replay_append,ht.effects]
    simp [Object.replay,happly]

theorem Tracks.ret (ht : Tracks o h phase a) {i : ℕ} {c : C} {r : R} (hdone : phase i = .done c r)
    (hidle : phase' i = .idle) (hsame : ∀ j, j ≠ i → phase' j = phase j) :
    Tracks o (h ++ [(i,.ret c r)]) phase' a where
  calls := ht.calls_concat (by rw [hdone,hidle]; simp [Phase.next]) hsame
  effects := by rw [o.replay_append,ht.effects]; rfl

end

end Linearizability
end SdkCp
