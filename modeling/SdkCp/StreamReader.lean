import SdkCp.TransitionSystem
import Mathlib.Tactic
import Mathlib.Data.List.Basic

/-! Machines that consume a stream in portions whose length they ask for. However
the input is cut into arriving pieces and whenever a portion is taken, the machine
goes through the same states. -/
namespace SdkCp

/-- `need m` is how many items `m` waits for, `read m` what it does with them. -/
structure StreamReader (α M : Type*) where
  need : M → ℕ
  read : M → List α → M

namespace StreamReader

variable {α M : Type*} (r : StreamReader α M)

/-- From `m` with input `xs` some portions lead to `m'` with `xs'` left. -/
inductive Reads : M → List α → M → List α → Prop
  | refl (m xs) : Reads m xs m xs
  | step {m xs m' xs'} : r.need m ≤ xs.length →
    Reads (r.read m (xs.take (r.need m))) (xs.drop (r.need m)) m' xs' → Reads m xs m' xs'

/-- A machine, what has arrived and how much of it is not consumed yet. -/
structure State (α M : Type*) where
  machine : M
  received : List α
  buffered : List α

inductive Event (α : Type*)
  | arrive (xs : List α)
  | read

/-- The machine `m₀` fed by a stream. -/
def system (m₀ : M) : TransitionSystem (State α M) (Event α) where
  init s := s = ⟨m₀,[],[]⟩
  step s
    | .arrive xs => some { s with received := s.received ++ xs, buffered := s.buffered ++ xs }
    | .read =>
      if r.need s.machine ≤ s.buffered.length then
        some { s with machine := r.read s.machine (s.buffered.take (r.need s.machine))
                      buffered := s.buffered.drop (r.need s.machine) }
      else none

variable {r}

theorem Reads.trans {m₁ m₂ m₃ : M} {xs₁ xs₂ xs₃ : List α} (h : r.Reads m₁ xs₁ m₂ xs₂)
    (h' : r.Reads m₂ xs₂ m₃ xs₃) : r.Reads m₁ xs₁ m₃ xs₃ := by
  induction h with
  | refl => exact h'
  | step hn _ ih => exact .step hn (ih h')

theorem Reads.portion {m : M} {xs : List α} (ys : List α) (h : xs.length = r.need m) :
    r.Reads m (xs++ys) (r.read m xs) ys := by
  refine .step (by rw [List.length_append]; omega) ?_
  rw [List.take_left' h,List.drop_left' h]
  exact .refl _ _

theorem Reads.append {m m' : M} {xs xs' : List α} (h : r.Reads m xs m' xs') (ys : List α) :
    r.Reads m (xs++ys) m' (xs'++ys) := by
  induction h with
  | refl => exact .refl _ _
  | step hn _ ih =>
    refine .step (by rw [List.length_append]; omega) ?_
    rw [List.take_append_of_le_length hn,List.drop_append_of_le_length hn]
    exact ih

/-- Reading is deterministic: every reading leads on to where a finished one ends. -/
theorem Reads.confluent {m m₁ m₂ : M} {xs xs₁ xs₂ : List α} (h₁ : r.Reads m xs m₁ xs₁)
    (h₂ : r.Reads m xs m₂ xs₂) (hdone : xs₂.length < r.need m₂) : r.Reads m₁ xs₁ m₂ xs₂ := by
  induction h₁ with
  | refl => exact h₂
  | step hn _ ih =>
    cases h₂ with
    | refl => omega
    | step _ h₂ => exact ih h₂

theorem Reads.stuck {m m' : M} {xs xs' : List α} (h : r.Reads m xs m' xs')
    (hdone : xs.length < r.need m) : m' = m ∧ xs' = xs := by
  cases h with
  | refl => exact ⟨rfl,rfl⟩
  | step hn _ => omega

theorem reads_of_reachable {m₀ : M} {s : State α M} (h : (r.system m₀).Reachable s) :
    r.Reads m₀ s.received s.machine s.buffered := by
  refine h.invariant (P:=fun s => r.Reads m₀ s.received s.machine s.buffered) ?_ ?_
  · rintro _ rfl
    exact .refl _ _
  · intro s e t hinv _ hs
    cases e with
    | arrive xs =>
      obtain rfl := Option.some.inj hs
      exact hinv.append xs
    | read =>
      simp only [system] at hs
      split at hs
      · rename_i hn
        obtain rfl := Option.some.inj hs
        exact hinv.trans (.step hn (.refl _ _))
      · simp at hs

theorem reachable_of_reads {m₀ m' : M} {s : State α M} {xs' : List α}
    (h : (r.system m₀).Reachable s) (hr : r.Reads s.machine s.buffered m' xs') :
    (r.system m₀).Reachable ⟨m',s.received,xs'⟩ := by
  obtain ⟨m,received,xs⟩ := s
  simp only at hr
  induction hr with
  | refl => exact h
  | step hn _ ih =>
    exact ih (h.step (e:=.read) trivial (if_pos hn))

theorem Reads.length_le {m m' : M} {xs xs' : List α} (h : r.Reads m xs m' xs') :
    xs'.length ≤ xs.length := by
  induction h with
  | refl => exact le_rfl
  | step _ _ ih => exact ih.trans (by rw [List.length_drop]; omega)

/-- Every reading from `m` on either is still in front of `m'`, where `P` holds, or goes on
from `m'`. -/
structure Passes (r : StreamReader α M) (P : M → Prop) (m : M) (xs : List α) (m' : M)
    (xs' : List α) : Prop where
  reads : r.Reads m xs m' xs'
  splits : ∀ m₁ xs₁, r.Reads m xs m₁ xs₁ → P m₁ ∧ xs'.length < xs₁.length ∨ r.Reads m' xs' m₁ xs₁

theorem Passes.refl {P : M → Prop} (m : M) (xs : List α) : r.Passes P m xs m xs :=
  ⟨.refl _ _,fun _ _ h => .inr h⟩

theorem Passes.step {P : M → Prop} {m m' : M} {xs xs' : List α} (hn : r.need m ≤ xs.length)
    (hpos : 0 < r.need m) (hP : P m)
    (h : r.Passes P (r.read m (xs.take (r.need m))) (xs.drop (r.need m)) m' xs') :
    r.Passes P m xs m' xs' := by
  refine ⟨.step hn h.reads,fun m₁ xs₁ hr => ?_⟩
  cases hr with
  | refl =>
    have hle := h.reads.length_le
    rw [List.length_drop] at hle
    exact .inl ⟨hP,by omega⟩
  | step _ hr => exact h.splits m₁ xs₁ hr

theorem Passes.trans {P : M → Prop} {m₁ m₂ m₃ : M} {xs₁ xs₂ xs₃ : List α}
    (h : r.Passes P m₁ xs₁ m₂ xs₂) (h' : r.Passes P m₂ xs₂ m₃ xs₃) : r.Passes P m₁ xs₁ m₃ xs₃ := by
  refine ⟨h.reads.trans h'.reads,fun m xs hr => ?_⟩
  rcases h.splits m xs hr with ⟨hP,hlt⟩ | hr
  · have hle := h'.reads.length_le
    exact .inl ⟨hP,by omega⟩
  · exact h'.splits m xs hr

/-- Every read on the stream `xs` from `m` on, given the machine and the portion. -/
def EveryRead (r : StreamReader α M) (P : M → List α → Prop) (m : M) (xs : List α) : Prop :=
  ∀ m' xs', r.Reads m xs m' xs' → r.need m' ≤ xs'.length → P m' (xs'.take (r.need m'))

variable {P : M → List α → Prop}

theorem everyRead_of_short {m : M} {xs : List α} (h : xs.length < r.need m) :
    r.EveryRead P m xs := by
  intro m' xs' hr hn
  obtain ⟨rfl,rfl⟩ := hr.stuck h
  omega

theorem everyRead_iff {m : M} {xs : List α} (h : r.need m ≤ xs.length) : r.EveryRead P m xs ↔
    P m (xs.take (r.need m)) ∧
      r.EveryRead P (r.read m (xs.take (r.need m))) (xs.drop (r.need m)) := by
  constructor
  · exact fun hall => ⟨hall m xs (.refl _ _) h,fun m' xs' hr => hall m' xs' (.step h hr)⟩
  · rintro ⟨hnow,hlater⟩ m' xs' hr hn
    cases hr with
    | refl => exact hnow
    | step _ hr => exact hlater m' xs' hr hn

theorem everyRead_of_invariant {I : M → Prop} (hI : ∀ m xs, I m → P m xs ∧ I (r.read m xs))
    {m : M} (h : I m) (xs : List α) : r.EveryRead P m xs := by
  intro m' xs' hr hn
  induction hr with
  | refl => exact (hI _ _ h).1
  | step _ _ ih => exact ih (hI _ _ h).2 hn

/-- However a stream arrives, its reads are those of the stream as a whole. -/
theorem everyRead_iff_reachable {m₀ : M} {bs : List α} : r.EveryRead P m₀ bs ↔
    ∀ s, (r.system m₀).Reachable s → s.received <+: bs → r.need s.machine ≤ s.buffered.length →
      P s.machine (s.buffered.take (r.need s.machine)) := by
  constructor
  · rintro hall s hs ⟨rest,rfl⟩ hn
    have hr := (reads_of_reachable hs).append rest
    have := hall _ _ hr (by rw [List.length_append]; omega)
    rwa [List.take_append_of_le_length hn] at this
  · intro hall m' xs' hr hn
    have harrive : (r.system m₀).Reachable ⟨m₀,bs,bs⟩ :=
      .step (.init rfl) trivial (e:=.arrive bs) rfl
    exact hall _ (reachable_of_reads harrive hr) (List.prefix_refl bs) hn

end StreamReader
end SdkCp
