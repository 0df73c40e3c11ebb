import Mathlib.Logic.Basic

/-! Labelled transition systems given by a guarded, executable step function.
`step s e = none` says that event `e` is not enabled in `s`. The rules below
carry an invariant, possibly under a guard on the events taken, along every run. -/
namespace SdkCp

/-- An initial predicate and a guarded step function. -/
structure TransitionSystem (S E : Type*) where
  init : S → Prop
  step : S → E → Option S

namespace TransitionSystem

variable {S E : Type*} {sys : TransitionSystem S E}

/-- The state after the events of a list, if each is enabled in turn. -/
def exec (sys : TransitionSystem S E) : S → List E → Option S
  | s, [] => some s
  | s, e::es => (sys.step s e).bind fun t => exec sys t es

/-- The states of all runs whose steps satisfy `ok` in the state they are taken from. -/
inductive ReachableBy (sys : TransitionSystem S E) (ok : S → E → Prop) : S → Prop
  | init {s} : sys.init s → ReachableBy sys ok s
  | step {s t e} : ReachableBy sys ok s → ok s e → sys.step s e = some t → ReachableBy sys ok t

/-- The states of all runs. -/
abbrev Reachable (sys : TransitionSystem S E) : S → Prop := sys.ReachableBy fun _ _ => True

/-- The invariant rule: what holds initially and is kept by every allowed step
holds in every state reached by allowed steps. -/
theorem ReachableBy.invariant {ok : S → E → Prop} {P : S → Prop}
    (hinit : ∀ s, sys.init s → P s)
    (hstep : ∀ s e t, P s → ok s e → sys.step s e = some t → P t)
    {s : S} (h : sys.ReachableBy ok s) : P s := by
  induction h with
  | init h => exact hinit _ h
  | step _ hok hs ih => exact hstep _ _ _ ih hok hs

/-- The events of a list are allowed in the states they are taken from. -/
def Allowed (sys : TransitionSystem S E) (ok : S → E → Prop) : S → List E → Prop
  | _, [] => True
  | s, e::es => ok s e ∧ ∀ t, sys.step s e = some t → Allowed sys ok t es

theorem ReachableBy.exec_allowed {ok : S → E → Prop} {s t : S} {es : List E}
    (h : sys.ReachableBy ok s) (hok : sys.Allowed ok s es) (ht : sys.exec s es = some t) :
    sys.ReachableBy ok t := by
  induction es generalizing s with
  | nil => exact Option.some.inj ht ▸ h
  | cons e es ih =>
    obtain ⟨u,hu,ht⟩ := Option.bind_eq_some_iff.mp ht
    exact ih (h.step hok.1 hu) (hok.2 u hu) ht

instance allowedDecidable (sys : TransitionSystem S E) (ok : S → E → Prop)
    [∀ s e, Decidable (ok s e)] : ∀ s es, Decidable (sys.Allowed ok s es)
  | _, [] => .isTrue trivial
  | s, e::es =>
    match h : sys.step s e with
    | none => decidable_of_iff (ok s e) (by simp [Allowed,h])
    | some u =>
      have := allowedDecidable sys ok u es
      decidable_of_iff (ok s e ∧ sys.Allowed ok u es) (by simp [Allowed,h])

theorem allowed_of_forall {ok : S → E → Prop} {es : List E} (hok : ∀ s, ∀ e ∈ es, ok s e) (s : S) :
    sys.Allowed ok s es := by
  induction es generalizing s with
  | nil => trivial
  | cons e es ih => exact ⟨hok s e (by simp),fun t _ => ih (fun s e he => hok s e (by simp [he])) t⟩

theorem ReachableBy.exec {ok : S → E → Prop} {s t : S} {es : List E}
    (hok : ∀ s, ∀ e ∈ es, ok s e) (h : sys.ReachableBy ok s) (ht : sys.exec s es = some t) :
    sys.ReachableBy ok t := h.exec_allowed (allowed_of_forall hok s) ht

/-- Where a step that starts well ends well if and only if it is allowed, a run is well after every
event if and only if its events are allowed. -/
theorem allowed_iff {ok : S → E → Prop} {I P : S → Prop}
    (hstep : ∀ s e t, I s → P s → sys.step s e = some t → I t ∧ (P t ↔ ok s e))
    {s t : S} {es : List E} (hI : I s) (hP : P s) (ht : sys.exec s es = some t) :
    (∀ n u, sys.exec s (es.take n) = some u → P u) ↔ sys.Allowed ok s es := by
  induction es generalizing s with
  | nil =>
    refine iff_of_true (fun n u hu => ?_) trivial
    rw [List.take_nil] at hu
    exact Option.some.inj hu ▸ hP
  | cons e es ih =>
    obtain ⟨s',hs,ht⟩ := Option.bind_eq_some_iff.mp ht
    obtain ⟨hI',hok⟩ := hstep s e s' hI hP hs
    constructor
    · intro hall
      have hP' := hall 1 s' (by rw [List.take_succ_cons,List.take_zero,exec,hs]; rfl)
      refine ⟨hok.mp hP',fun u hu => ?_⟩
      obtain rfl := Option.some.inj (hs.symm.trans hu)
      refine (ih hI' hP' ht).mp fun n u hu => hall (n+1) u ?_
      rw [List.take_succ_cons,exec,hs]
      exact hu
    · rintro ⟨hoke,hallowed⟩ n u hu
      cases n with
      | zero => exact Option.some.inj hu ▸ hP
      | succ n =>
        rw [List.take_succ_cons,exec,hs] at hu
        exact (ih hI' (hok.mpr hoke) ht).mpr (hallowed s' hs) n u hu

end TransitionSystem
end SdkCp
