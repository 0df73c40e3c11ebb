import Mathlib.Data.List.AList

/-! callback_keeper of tools/callback_keeper.hpp: callbacks under keys, each to be called once.
Against the calls that a history of the keeper asks for. Callbacks return: one that throws, or that
binds again under the destructor, is left out. -/
namespace SdkCp
namespace CallbackKeeper

section

variable {K F S T : Type}

/-- A call of a `std::function`, or of an empty one; a pointer may be null. -/
structure Call (F S T : Type) where
  callback : Option F
  session : Option S
  data : Option T
deriving DecidableEq

/-- The loop of the destructor. An empty function throws, and the exception leaves the
destructor: nothing is called after it. -/
def destroy : List (Σ _ : K, Option F) → List (Call F S T)
  | [] => []
  | ⟨_,some f⟩::rest => ⟨some f,none,none⟩::destroy rest
  | ⟨_,none⟩::_ => [⟨none,none,none⟩]

theorem none_mem_destroy {order : List (Σ _ : K, Option F)} (h : ∃ e ∈ order, e.2 = none) :
    (⟨none,none,none⟩ : Call F S T) ∈ destroy order := by
  obtain ⟨e,he,hnone⟩ := h
  induction order with
  | nil => exact absurd he (by simp)
  | cons first order ih =>
    obtain ⟨k,f⟩ := first
    cases f with
    | none => simp [destroy]
    | some f =>
      rcases List.mem_cons.mp he with rfl | he
      · exact absurd hnone (by simp)
      · exact List.mem_cons_of_mem _ (ih he)

variable [DecidableEq K]

/-- `_callbacks`; a `std::function` may be empty. -/
abbrev Callbacks (K F : Type) := AList fun _ : K => Option F

def bind (callbacks : Callbacks K F) (key : K) (f : Option F) :
    Callbacks K F × Option (Call F S T) :=
  let callback := (callbacks.lookup key).join
  (callbacks.insert key f,callback.map fun g => ⟨some g,none,none⟩)

/-- Without a callback under the key there is only a warning. -/
def process (callbacks : Callbacks K F) (session : Option S) (key : K) (data : Option T) :
    Callbacks K F × Option (Call F S T) :=
  match callbacks.lookup key with
  | some callback => (callbacks.erase key,callback.map fun g => ⟨some g,session,data⟩)
  | none => (callbacks,none)

inductive Op (K F S T : Type)
  | bind (key : K) (f : Option F)
  | process (session : Option S) (key : K) (data : Option T)

def Op.key : Op K F S T → K
  | .bind key _ => key
  | .process _ key _ => key

def apply (callbacks : Callbacks K F) : Op K F S T → Callbacks K F × Option (Call F S T)
  | .bind key f => bind callbacks key f
  | .process session key data => process callbacks session key data

/-- What the destructor finds. -/
def left (callbacks : Callbacks K F) : List (Op K F S T) → Callbacks K F
  | [] => callbacks
  | op::ops => left (apply callbacks op).1 ops

/-- The calls with the number of the operation they are made by; the destructor comes last and
takes the map in some order. -/
def log (order : List (Σ _ : K, Option F)) :
    Callbacks K F → ℕ → List (Op K F S T) → List (ℕ × Call F S T)
  | _, n, [] => (destroy order).map fun call => (n,call)
  | callbacks, n, op::ops =>
    ((apply callbacks op).2.toList.map fun call => (n,call)) ++
      log order (apply callbacks op).1 (n+1) ops

/-- The call that is due for `f`, bound under `k`, when `n` operations have gone before: by the
first one that comes for the key, or in the end. -/
def due (f : F) (k : K) : ℕ → List (Op K F S T) → ℕ × Call F S T
  | n, [] => (n,⟨some f,none,none⟩)
  | n, .bind key _::ops => if key = k then (n,⟨some f,none,none⟩) else due f k (n+1) ops
  | n, .process session key data::ops =>
    if key = k then (n,⟨some f,session,data⟩) else due f k (n+1) ops

/-- One call for each callback that is bound. -/
def expected : ℕ → List (Op K F S T) → List (ℕ × Call F S T)
  | _, [] => []
  | n, .bind key (some f)::ops => due f key (n+1) ops::expected (n+1) ops
  | n, .bind _ none::ops => expected (n+1) ops
  | n, .process _ _ _::ops => expected (n+1) ops

/-- Every callback that is bound is called once, with what is due, and no empty one is called. -/
def Once (order : List (Σ _ : K, Option F)) (ops : List (Op K F S T)) : Prop :=
  (log order ∅ 0 ops).Perm (expected 0 ops) ∧
    ∀ call ∈ log order ∅ 0 ops, call.2.callback.isSome

/-- Something comes for the key of every empty callback. -/
def Settled : List (Op K F S T) → Prop
  | [] => True
  | .bind key none::ops => (∃ op ∈ ops, op.key = key) ∧ Settled ops
  | _::ops => Settled ops

/-- What the map holds under the key of an operation after it. -/
def Op.stored : Op K F S T → Option (Option F)
  | .bind _ f => some f
  | .process _ _ _ => none

theorem lookup_apply {callbacks : Callbacks K F} {op : Op K F S T} :
    (apply callbacks op).1.lookup op.key = op.stored := by
  cases op with
  | bind key f => exact AList.lookup_insert _
  | process session key data =>
    simp only [apply,process,Op.key,Op.stored]
    split
    · exact AList.lookup_erase _ _
    · assumption

theorem lookup_apply_of_ne {callbacks : Callbacks K F} {op : Op K F S T} {k : K} (h : k ≠ op.key) :
    (apply callbacks op).1.lookup k = callbacks.lookup k := by
  cases op with
  | bind key f => exact AList.lookup_insert_ne h
  | process session key data =>
    simp only [apply,process]
    split
    · exact AList.lookup_erase_ne h
    · rfl

omit [DecidableEq K] in
theorem settled_cons {op : Op K F S T} {ops : List (Op K F S T)} :
    Settled (op::ops) ↔
      (op.stored = some none → ∃ later ∈ ops, later.key = op.key) ∧ Settled ops := by
  cases op with
  | bind key f => cases f <;> simp [Settled,Op.stored,Op.key]
  | process session key data => simp [Settled,Op.stored]

/-- The calls that are due for the callbacks in the map. -/
def pending (n : ℕ) (ops : List (Op K F S T)) (entries : List (Σ _ : K, Option F)) :
    List (ℕ × Call F S T) :=
  entries.filterMap fun e => e.2.map fun f => due f e.1 n ops

theorem due_of_ne {f : F} {k : K} {n : ℕ} {op : Op K F S T} {ops : List (Op K F S T)}
    (h : op.key ≠ k) : due f k n (op::ops) = due f k (n+1) ops := by
  cases op <;> simp_all [due,Op.key]

theorem entries_perm {callbacks : Callbacks K F} {k : K} {g : Option F}
    (h : callbacks.lookup k = some g) :
    callbacks.entries.Perm (⟨k,g⟩::(callbacks.erase k).entries) := by
  have hmem : k ∈ callbacks.entries.keys :=
    AList.lookup_isSome.mp (by rw [h]; rfl)
  obtain ⟨b,before,after,-,hsplit,herase⟩ := List.exists_of_kerase hmem
  have hb : b ∈ callbacks.lookup k := by
    rw [AList.mem_lookup_iff,hsplit]
    simp
  rw [h,Option.mem_some_iff] at hb
  have hentries : (callbacks.erase k).entries = before ++ after := herase
  rw [hentries,hsplit,hb]
  exact List.perm_middle

theorem entries_erase {callbacks : Callbacks K F} {k : K} (h : callbacks.lookup k = none) :
    (callbacks.erase k).entries = callbacks.entries :=
  List.kerase_of_notMem_keys (AList.lookup_eq_none.mp h)

theorem ne_of_mem_erase {callbacks : Callbacks K F} {k : K} {e : Σ _ : K, Option F}
    (h : e ∈ (callbacks.erase k).entries) : e.1 ≠ k := by
  have hmem : e.1 ∈ callbacks.erase k := List.mem_keys_of_mem h
  exact (AList.mem_erase.mp hmem).1

theorem pending_erase {callbacks : Callbacks K F} {n : ℕ} {op : Op K F S T}
    {ops : List (Op K F S T)} :
    pending n (op::ops) (callbacks.erase op.key).entries =
      pending (n+1) ops (callbacks.erase op.key).entries := by
  refine List.filterMap_congr fun e he => ?_
  have hne := (ne_of_mem_erase he).symm
  simp only [due_of_ne hne]

theorem pending_perm {n : ℕ} {ops : List (Op K F S T)} {l l' : List (Σ _ : K, Option F)}
    (h : l.Perm l') : (pending n ops l).Perm (pending n ops l') := h.filterMap _

/-- What is due for the key of an operation is what the operation calls. -/
theorem pending_apply (callbacks : Callbacks K F) (n : ℕ) (op : Op K F S T)
    (ops : List (Op K F S T)) :
    (pending n (op::ops) callbacks.entries).Perm
      (((apply callbacks op).2.toList.map fun call => (n,call)) ++
        pending (n+1) ops (callbacks.erase op.key).entries) := by
  rw [← pending_erase]
  cases hlookup : callbacks.lookup op.key with
  | none =>
    rw [entries_erase hlookup]
    cases op <;> simp_all [apply,bind,process,Op.key]
  | some callback =>
    refine (pending_perm (entries_perm hlookup)).trans ?_
    cases callback <;> cases op <;> simp_all [apply,bind,process,Op.key,pending,due]

theorem pending_bind (callbacks : Callbacks K F) (key : K) (f : Option F) (n : ℕ)
    (ops : List (Op K F S T)) :
    pending n ops (callbacks.insert key f).entries =
      (f.map fun g => due g key n ops).toList ++ pending n ops (callbacks.erase key).entries := by
  have herase : (callbacks.erase key).entries = callbacks.entries.kerase key := rfl
  rw [AList.entries_insert,herase]
  cases f <;> simp [pending]

theorem entries_process (callbacks : Callbacks K F) (session : Option S) (key : K)
    (data : Option T) :
    (process callbacks session key data).1.entries = (callbacks.erase key).entries := by
  cases hlookup : callbacks.lookup key with
  | none => simp [process,hlookup,entries_erase hlookup]
  | some callback => simp [process,hlookup]

theorem expected_apply (callbacks : Callbacks K F) (n : ℕ) (op : Op K F S T)
    (ops : List (Op K F S T)) :
    (expected n (op::ops) ++ pending n (op::ops) callbacks.entries).Perm
      (((apply callbacks op).2.toList.map fun call => (n,call)) ++
        (expected (n+1) ops ++ pending (n+1) ops (apply callbacks op).1.entries)) := by
  have hdue := pending_apply callbacks n op ops
  refine ((hdue.append_left _).trans (List.perm_append_comm_assoc _ _ _)).trans (List.Perm.append_left _ ?_)
  cases op with
  | bind key f =>
    simp only [apply,bind,pending_bind]
    cases f with
    | none => exact List.Perm.refl _
    | some g => exact List.perm_middle.symm
  | process session key data =>
    simp only [apply,entries_process]
    exact List.Perm.refl _

theorem destroy_eq {n : ℕ} {order : List (Σ _ : K, Option F)} (h : ∀ e ∈ order, e.2.isSome) :
    (destroy order).map (fun call => (n,call)) =
      pending n ([] : List (Op K F S T)) order := by
  induction order with
  | nil => rfl
  | cons e order ih =>
    obtain ⟨k,f⟩ := e
    obtain ⟨g,rfl⟩ := Option.isSome_iff_exists.mp (h ⟨k,f⟩ (by simp))
    have hrest := ih fun e he => h e (by simp [he])
    simp only [destroy,pending,List.map_cons,List.filterMap_cons,Option.map_some,due] at hrest ⊢
    rw [hrest]

theorem log_perm {order : List (Σ _ : K, Option F)} {callbacks : Callbacks K F} {n : ℕ}
    {ops : List (Op K F S T)} (horder : order.Perm (left callbacks ops).entries)
    (h : ∀ e ∈ order, e.2.isSome) :
    (log order callbacks n ops).Perm (expected n ops ++ pending n ops callbacks.entries) := by
  induction ops generalizing callbacks n with
  | nil =>
    rw [log,destroy_eq h]
    exact pending_perm horder
  | cons op ops ih => exact ((ih horder).append_left _).trans (expected_apply _ _ _ _).symm

theorem destroy_subset_log (callbacks : Callbacks K F) (n : ℕ) (ops : List (Op K F S T))
    {order : List (Σ _ : K, Option F)} {call : Call F S T} (h : call ∈ destroy order) :
    ∃ m, (m,call) ∈ log order callbacks n ops := by
  induction ops generalizing callbacks n with
  | nil => exact ⟨n,List.mem_map_of_mem h⟩
  | cons op ops ih =>
    obtain ⟨m,hm⟩ := ih (apply callbacks op).1 (n+1)
    exact ⟨m,List.mem_append_right _ hm⟩

theorem due_callback (f : F) (k : K) (n : ℕ) (ops : List (Op K F S T)) :
    (due f k n ops).2.callback = some f := by
  induction ops generalizing n with
  | nil => rfl
  | cons op ops ih =>
    cases op <;> (simp only [due]; split_ifs <;> first | rfl | exact ih _)

theorem expected_isSome {n : ℕ} {ops : List (Op K F S T)} :
    ∀ call ∈ expected n ops, call.2.callback.isSome := by
  induction ops generalizing n with
  | nil => simp [expected]
  | cons op ops ih =>
    cases op with
    | bind key f =>
      cases f with
      | none => exact ih
      | some f =>
        rw [expected,List.forall_mem_cons,due_callback]
        exact ⟨rfl,ih⟩
    | process session key data => exact ih

/-- Something comes for the key of every empty callback in the map. -/
def Cleared (callbacks : Callbacks K F) (ops : List (Op K F S T)) : Prop :=
  ∀ k, callbacks.lookup k = some none → ∃ op ∈ ops, op.key = k

theorem cleared_cons {callbacks : Callbacks K F} {op : Op K F S T} {ops : List (Op K F S T)} :
    Cleared (apply callbacks op).1 ops ∧ Settled ops ↔
      Cleared callbacks (op::ops) ∧ Settled (op::ops) := by
  rw [settled_cons]
  constructor
  · rintro ⟨hcleared,hsettled⟩
    refine ⟨fun k hk => ?_,fun hstored => hcleared _ (lookup_apply.trans hstored),hsettled⟩
    by_cases hkey : k = op.key
    · exact ⟨op,by simp,hkey.symm⟩
    · obtain ⟨later,hmem,hlater⟩ := hcleared k ((lookup_apply_of_ne hkey).trans hk)
      exact ⟨later,List.mem_cons_of_mem _ hmem,hlater⟩
  · rintro ⟨hcleared,hstored,hsettled⟩
    refine ⟨fun k hk => ?_,hsettled⟩
    by_cases hkey : k = op.key
    · rw [hkey,lookup_apply] at hk
      rw [hkey]
      exact hstored hk
    · rw [lookup_apply_of_ne hkey] at hk
      obtain ⟨later,hmem,hlater⟩ := hcleared k hk
      rcases List.mem_cons.mp hmem with rfl | hmem
      · exact absurd hlater.symm hkey
      · exact ⟨later,hmem,hlater⟩

theorem lookup_of_mem {callbacks : Callbacks K F} {k : K} {f : Option F}
    (h : ⟨k,f⟩ ∈ callbacks.entries) : callbacks.lookup k = some f :=
  AList.mem_lookup_iff.mpr h

theorem left_isSome_iff (callbacks : Callbacks K F) (ops : List (Op K F S T)) :
    (∀ e ∈ (left callbacks ops).entries, e.2.isSome) ↔ Cleared callbacks ops ∧ Settled ops := by
  induction ops generalizing callbacks with
  | nil =>
    simp only [left,Cleared,Settled,and_true]
    constructor
    · intro h k hk
      exact absurd (h ⟨k,none⟩ (AList.mem_lookup_iff.mp hk)) (by simp)
    · intro h e he
      rw [Option.isSome_iff_ne_none]
      intro hnone
      obtain ⟨op,hop,-⟩ := h e.1 ((lookup_of_mem he).trans (congrArg some hnone))
      exact absurd hop (by simp)
  | cons op ops ih => exact (ih _).trans cleared_cons

/-- The calls of a history are those that are due if and only if a later call comes for the key
of every empty callback: `bind` and `process` test what they take out, the destructor does not. -/
theorem once_iff {order : List (Σ _ : K, Option F)} {ops : List (Op K F S T)}
    (horder : order.Perm (left ∅ ops).entries) : Once order ops ↔ Settled ops := by
  have hcleared : Cleared (∅ : Callbacks K F) ops := fun k hk => by simp at hk
  have hiff := left_isSome_iff ∅ ops
  constructor
  · rintro ⟨-,hsome⟩
    refine (hiff.mp fun e he => ?_).2
    rw [Option.isSome_iff_ne_none]
    intro hnone
    obtain ⟨n,hn⟩ := destroy_subset_log ∅ 0 ops
      (none_mem_destroy ⟨e,horder.mem_iff.mpr he,hnone⟩)
    exact absurd (hsome _ hn) (by simp)
  · intro hsettled
    have hfull := hiff.mpr ⟨hcleared,hsettled⟩
    have hperm := log_perm (n:=0) horder fun e he => hfull e (horder.mem_iff.mp he)
    have hempty : pending 0 ops (∅ : Callbacks K F).entries = [] := rfl
    rw [hempty,List.append_nil] at hperm
    exact ⟨hperm,fun call hcall => expected_isSome call (hperm.mem_iff.mp hcall)⟩

end

/-- Two callbacks on one key, an empty one that is processed, and one that is left. -/
def history : List (Op ℕ Char ℕ ℕ) := [.bind 1 (some 'a'),.bind 2 none,.bind 1 (some 'b'),
  .process (some 5) 2 none,.process (some 5) 1 (some 6),.bind 2 (some 'c')]

theorem once_history : Once [⟨2,some 'c'⟩] history ↔ Settled history := once_iff (by decide)

/-- An empty callback that is still bound is called by the destructor. -/
theorem not_once_empty : ¬∀ (order : List (Σ _ : ℕ, Option Char)) (ops : List (Op ℕ Char ℕ ℕ)),
    order.Perm (left ∅ ops).entries → Once order ops := by
  intro h
  have hnone := (h [⟨1,none⟩] [.bind 1 none] (by decide)).2 (1,⟨none,none,none⟩) (by decide)
  exact absurd hnone (by decide)

end CallbackKeeper
end SdkCp
