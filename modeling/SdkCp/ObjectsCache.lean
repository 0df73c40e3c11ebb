import SdkCp.TransitionSystem
import SdkCp.Threads
import Mathlib.Data.List.Perm.Basic
import Mathlib.Data.List.ReduceOption

/-! `objects_cache` of tools/cache.hpp with its clients: raw pointers, `object_ptr`s and
their copies, and objects that a client made itself. Objects are their addresses, and an
address is free again when its object is gone. Each operation runs under the spin lock,
so an interleaving of threads is a list of events. -/
namespace SdkCp
namespace ObjectsCache

/-- What the copies of one `object_ptr` share: the pointer and how many copies there are. -/
structure Control where
  ptr : Option ℕ
  uses : ℕ
  deriving DecidableEq

/-- The objects behind `object_ptr`s. -/
def handed (controls : List Control) : List ℕ := (controls.map Control.ptr).reduceOption

/-- `cache` is `_cache` with its front first, `live` the objects that are constructed,
`raw` the pointers that clients hold. `fault` is set when an object is deleted that does not
live, `made` counts the objects of clients, `peak` is the most objects that were out at once. -/
structure State where
  cache : List ℕ
  live : List ℕ
  raw : List ℕ
  controls : List Control
  destroyed : Bool
  fault : Bool
  made : ℕ
  peak : ℕ
  deriving DecidableEq

namespace State

def out (s : State) : ℕ := s.raw.length+(handed s.controls).length

/-- `_get_raw_ptr`; `fresh` is what `allocate` returns if it is asked. -/
def getRawPtr (s : State) (fresh : Option ℕ) : Option ℕ × State :=
  match s.cache with
  | ptr::cache => (some ptr,{ s with cache := cache, peak := max s.peak (s.out+1) })
  | [] =>
    match fresh with
    | some ptr => (some ptr,{ s with live := ptr::s.live, peak := max s.peak (s.out+1) })
    | none => (none,s)

def deallocate (s : State) (ptr : ℕ) : State :=
  if ptr ∈ s.live then { s with live := s.live.erase ptr } else { s with fault := true }

def setRawPtr (kMaxObjectsCount : ℕ) (s : State) : Option ℕ → State
  | none => s
  | some ptr =>
    if s.cache.length < kMaxObjectsCount then { s with cache := ptr::s.cache }
    else s.deallocate ptr

/-- The end of one copy; the last one runs the deleter. -/
def release (kMaxObjectsCount : ℕ) (s : State) (i : ℕ) : Option State :=
  match s.controls[i]? with
  | none => none
  | some c =>
    if c.uses = 1 then
      some ({ s with controls := s.controls.eraseIdx i }.setRawPtr kMaxObjectsCount c.ptr)
    else some { s with controls := s.controls.set i { c with uses := c.uses-1 } }

/-- A new object does not stand where another lives. -/
def Unused (s : State) (fresh : Option ℕ) : Prop := ∀ ptr ∈ fresh, ptr ∉ s.live

instance (s : State) (fresh : Option ℕ) : Decidable (s.Unused fresh) :=
  inferInstanceAs (Decidable (∀ ptr ∈ fresh, ptr ∉ s.live))

end State

/-- `get` and `set` are `get_cached_object` and `set_cached_object` of a raw pointer,
`share` is `get_cached_object(object_ptr& obj)` where `obj` shared control block `obj`
before and `control` says whether there is memory for a new one. -/
inductive Event
  | get (fresh : Option ℕ)
  | set (ptr : Option ℕ)
  | make (ptr : ℕ)
  | share (fresh : Option ℕ) (control : Bool) (obj : Option ℕ)
  | copy (i : ℕ)
  | release (i : ℕ)
  | destroy
  deriving DecidableEq

def step (kMaxObjectsCount : ℕ) (s : State) (e : Event) : Option State :=
  if s.destroyed then none
  else
    match e with
    | .get fresh =>
      if s.Unused fresh then
        let (ptr,s) := s.getRawPtr fresh
        some { s with raw := ptr.toList ++ s.raw }
      else none
    | .set ptr => some ({ s with raw := s.raw.diff ptr.toList }.setRawPtr kMaxObjectsCount ptr)
    | .make ptr =>
      if ptr ∈ s.live then none
      else some { s with live := ptr::s.live, raw := ptr::s.raw, made := s.made+1 }
    | .share fresh control obj =>
      if s.Unused fresh then
        let (ptr,s) := s.getRawPtr fresh
        if control then
          let s := { s with controls := s.controls ++ [⟨ptr,1⟩] }
          match obj with
          | none => some s
          | some i => s.release kMaxObjectsCount i
        else some (s.setRawPtr kMaxObjectsCount ptr) -- `reset` runs the deleter and throws
      else none
    | .copy i => s.controls[i]?.map fun c =>
        { s with controls := s.controls.set i { c with uses := c.uses+1 } }
    | .release i => s.release kMaxObjectsCount i
    | .destroy => some { s.cache.foldl State.deallocate { s with cache := [] } with destroyed := true }

def system (kMaxObjectsCount : ℕ) : TransitionSystem State Event where
  init s := s = ⟨[],[],[],[],false,false,0,0⟩
  step := step kMaxObjectsCount

/-- A client gives back what it holds, and no `object_ptr` outlives the cache. -/
def Returns (s : State) : Event → Prop
  | .set (some ptr) => ptr ∈ s.raw
  | .destroy => s.controls = []
  | _ => True

instance (s : State) (e : Event) : Decidable (Returns s e) := by
  unfold Returns
  split <;> infer_instance

/-- Every object that lives is in one place: on the way (`way`), in the cache, with the
holder of a raw pointer or behind an `object_ptr`. -/
structure Owned (kMaxObjectsCount : ℕ) (way : List ℕ) (s : State) : Prop where
  owners : s.live.Perm (way ++ (s.cache ++ (s.raw ++ handed s.controls)))
  nodup : s.live.Nodup
  bounded : s.cache.length ≤ kMaxObjectsCount
  intact : s.fault = false
  memory : s.live.length ≤ s.peak+s.made

variable {k : ℕ} {s t : State} {way : List ℕ}

theorem getRawPtr_owned {fresh : Option ℕ} (h : Owned k [] s) (hfresh : s.Unused fresh) :
    Owned k (s.getRawPtr fresh).1.toList (s.getRawPtr fresh).2 := by
  unfold State.getRawPtr
  split
  · rename_i ptr cache hcache
    have howners := h.owners
    have hbounded := h.bounded
    have hmemory := h.memory
    rw [hcache] at howners hbounded
    refine ⟨howners,h.nodup,?_,h.intact,?_⟩
    · exact (Nat.le_succ _).trans hbounded
    · change s.live.length ≤ max s.peak (s.out+1)+s.made
      omega
  · rename_i hcache
    split
    · rename_i ptr
      refine ⟨h.owners.cons ptr,List.nodup_cons.mpr ⟨hfresh ptr rfl,h.nodup⟩,h.bounded,h.intact,?_⟩
      -- nothing was idle, so all that lives is out
      have hlength : s.live.length = s.out := by
        rw [h.owners.length_eq,hcache]
        simp [State.out]
      change s.live.length+1 ≤ max s.peak (s.out+1)+s.made
      omega
    · exact h

theorem deallocate_owned {ptr : ℕ} (h : Owned k (ptr::way) s) : Owned k way (s.deallocate ptr) := by
  have hmem : ptr ∈ s.live := h.owners.mem_iff.mpr (by simp)
  rw [State.deallocate,if_pos hmem]
  refine ⟨?_,h.nodup.erase ptr,h.bounded,h.intact,?_⟩
  · have herase := h.owners.erase ptr
    rwa [List.cons_append,List.erase_cons_head] at herase
  · exact List.length_erase_le.trans h.memory

theorem setRawPtr_owned {ptr : Option ℕ} (h : Owned k ptr.toList s) : Owned k [] (s.setRawPtr k ptr) := by
  cases ptr with
  | none => exact h
  | some ptr =>
    rw [State.setRawPtr]
    split
    · exact ⟨h.owners,h.nodup,by simpa,h.intact,h.memory⟩
    · exact deallocate_owned h

theorem handed_set {cs : List Control} {c : Control} {i uses : ℕ} (hc : cs[i]? = some c) :
    handed (cs.set i { c with uses := uses }) = handed cs := by
  simp only [handed,List.map_set]
  rw [Threads.set_self (by rw [List.getElem?_map,hc]; rfl)]

theorem handed_erase {cs : List Control} {c : Control} {i : ℕ} (hc : cs[i]? = some c) :
    (handed cs).Perm (c.ptr.toList ++ handed (cs.eraseIdx i)) := by
  obtain ⟨hlt,rfl⟩ := List.getElem?_eq_some_iff.mp hc
  have hperm := ((List.getElem_cons_eraseIdx_perm hlt).map Control.ptr).filterMap id
  refine hperm.symm.trans (.of_eq ?_)
  rw [List.map_cons]
  cases cs[i].ptr <;> simp [handed,List.reduceOption]

theorem handed_append (cs : List Control) (ptr : Option ℕ) :
    handed (cs ++ [⟨ptr,1⟩]) = handed cs ++ ptr.toList := by
  cases ptr <;> simp [handed,List.reduceOption]

theorem Owned.move {way' raw : List ℕ} {controls : List Control} (h : Owned k way s)
    (hperm : (way ++ (s.raw ++ handed s.controls)).Perm (way' ++ (raw ++ handed controls))) :
    Owned k way' { s with raw := raw, controls := controls } := by
  refine ⟨?_,h.nodup,h.bounded,h.intact,h.memory⟩
  have hcache := (List.perm_append_comm_assoc way s.cache _).trans (hperm.append_left s.cache)
  exact h.owners.trans (hcache.trans (List.perm_append_comm_assoc ..))

theorem release_owned {i : ℕ} (h : Owned k [] s) (ht : s.release k i = some t) : Owned k [] t := by
  unfold State.release at ht
  split at ht
  · cases ht
  · rename_i c hc
    split at ht
    · obtain rfl := Option.some.inj ht
      refine setRawPtr_owned (h.move ?_)
      exact ((handed_erase hc).append_left s.raw).trans (List.perm_append_comm_assoc ..)
    · obtain rfl := Option.some.inj ht
      exact h.move (by rw [handed_set hc])

theorem set_owned {ptr : Option ℕ} (h : Owned k [] s) (hptr : ∀ a ∈ ptr, a ∈ s.raw) :
    Owned k [] ({ s with raw := s.raw.diff ptr.toList }.setRawPtr k ptr) := by
  refine setRawPtr_owned (h.move ?_)
  cases ptr with
  | none => exact .rfl
  | some a =>
    have herase := List.perm_cons_erase (hptr a rfl)
    simpa using herase.append_right (handed s.controls)

theorem deallocateAll_owned {ptrs : List ℕ} (h : Owned k (ptrs ++ way) s) :
    Owned k way (ptrs.foldl State.deallocate s) := by
  induction ptrs generalizing s with
  | nil => exact h
  | cons ptr ptrs ih => exact ih (deallocate_owned h)

theorem destroy_owned (h : Owned k [] s) :
    Owned k [] (s.cache.foldl State.deallocate { s with cache := [] }) := by
  refine deallocateAll_owned ⟨?_,h.nodup,by simp,h.intact,h.memory⟩
  simpa using h.owners

theorem take_owned {s : State} {ptr : Option ℕ} (h : Owned k ptr.toList s) :
    Owned k [] { s with raw := ptr.toList ++ s.raw } :=
  h.move (by simp)

theorem share_owned {s : State} {ptr : Option ℕ} (h : Owned k ptr.toList s) :
    Owned k [] { s with controls := s.controls ++ [⟨ptr,1⟩] } := by
  refine h.move ?_
  rw [handed_append,List.nil_append,← List.append_assoc s.raw]
  exact List.perm_append_comm

theorem make_owned {ptr : ℕ} (h : Owned k [] s) (hptr : ptr ∉ s.live) :
    Owned k [] { s with live := ptr::s.live, raw := ptr::s.raw, made := s.made+1 } := by
  refine ⟨?_,List.nodup_cons.mpr ⟨hptr,h.nodup⟩,h.bounded,h.intact,Nat.succ_le_succ h.memory⟩
  have hmiddle : (s.cache ++ ptr::(s.raw ++ handed s.controls)).Perm
      (ptr::(s.cache ++ (s.raw ++ handed s.controls))) := List.perm_middle
  exact (h.owners.cons ptr).trans hmiddle.symm

theorem step_owned {e : Event} (h : Owned k [] s) (hret : Returns s e) (ht : step k s e = some t) :
    Owned k [] t := by
  unfold step at ht
  split at ht
  · cases ht
  · cases e with
    | get fresh =>
      simp only [Option.ite_none_right_eq_some,Option.some.injEq] at ht
      obtain ⟨hfresh,rfl⟩ := ht
      exact take_owned (getRawPtr_owned h hfresh)
    | set ptr =>
      obtain rfl := Option.some.inj ht
      refine set_owned h fun a ha => ?_
      obtain rfl := Option.mem_def.mp ha
      exact hret
    | make ptr =>
      simp only [Option.ite_none_left_eq_some,Option.some.injEq] at ht
      obtain ⟨hptr,rfl⟩ := ht
      exact make_owned h hptr
    | share fresh control obj =>
      simp only [Option.ite_none_right_eq_some] at ht
      obtain ⟨hfresh,ht⟩ := ht
      have hgot := getRawPtr_owned h hfresh
      split at ht
      · cases obj with
        | none =>
          obtain rfl := Option.some.inj ht
          exact share_owned hgot
        | some i => exact release_owned (share_owned hgot) ht
      · obtain rfl := Option.some.inj ht
        exact setRawPtr_owned hgot
    | copy i =>
      obtain ⟨c,hc,rfl⟩ := Option.map_eq_some_iff.mp ht
      exact h.move (by rw [handed_set hc])
    | release i => exact release_owned h ht
    | destroy =>
      obtain rfl := Option.some.inj ht
      have hdestroyed := destroy_owned h
      exact ⟨hdestroyed.owners,hdestroyed.nodup,hdestroyed.bounded,hdestroyed.intact,hdestroyed.memory⟩

theorem getRawPtr_frame (s : State) (fresh : Option ℕ) : (s.getRawPtr fresh).2.raw = s.raw ∧
    (s.getRawPtr fresh).2.controls = s.controls ∧ (s.getRawPtr fresh).2.destroyed = s.destroyed := by
  unfold State.getRawPtr
  split
  · exact ⟨rfl,rfl,rfl⟩
  · split <;> exact ⟨rfl,rfl,rfl⟩

theorem deallocate_frame (s : State) (ptr : ℕ) : (s.deallocate ptr).cache = s.cache ∧
    (s.deallocate ptr).raw = s.raw ∧ (s.deallocate ptr).controls = s.controls ∧
    (s.deallocate ptr).destroyed = s.destroyed := by
  unfold State.deallocate
  split <;> exact ⟨rfl,rfl,rfl,rfl⟩

theorem deallocateAll_frame (ptrs : List ℕ) (s : State) :
    (ptrs.foldl State.deallocate s).controls = s.controls ∧ (ptrs.foldl State.deallocate s).cache = s.cache := by
  induction ptrs generalizing s with
  | nil => exact ⟨rfl,rfl⟩
  | cons ptr ptrs ih =>
    obtain ⟨hcache,-,hcontrols,-⟩ := deallocate_frame s ptr
    exact ⟨(ih _).1.trans hcontrols,(ih _).2.trans hcache⟩

theorem setRawPtr_frame (s : State) (ptr : Option ℕ) : (s.setRawPtr k ptr).raw = s.raw ∧
    (s.setRawPtr k ptr).controls = s.controls ∧ (s.setRawPtr k ptr).destroyed = s.destroyed := by
  cases ptr with
  | none => exact ⟨rfl,rfl,rfl⟩
  | some ptr =>
    rw [State.setRawPtr]
    split
    · exact ⟨rfl,rfl,rfl⟩
    · exact (deallocate_frame s ptr).2

theorem get_raw {fresh : Option ℕ} (ht : step k s (.get fresh) = some t) :
    t.raw = (s.getRawPtr fresh).1.toList ++ s.raw ∧ t.destroyed = false := by
  unfold step at ht
  split at ht
  · cases ht
  · rename_i hlive
    simp only [Option.ite_none_right_eq_some,Option.some.injEq] at ht
    obtain ⟨-,rfl⟩ := ht
    obtain ⟨hraw,-,hdestroyed⟩ := getRawPtr_frame s fresh
    exact ⟨congrArg (_ ++ ·) hraw,by simpa [hdestroyed] using hlive⟩

theorem set_raw {ptr : ℕ} (ht : step k s (.set (some ptr)) = some t) :
    t.raw = s.raw.erase ptr ∧ t.destroyed = false := by
  unfold step at ht
  split at ht
  · cases ht
  · rename_i hlive
    obtain rfl := Option.some.inj ht
    obtain ⟨hraw,-,hdestroyed⟩ := setRawPtr_frame (k:=k) { s with raw := s.raw.diff [ptr] } (some ptr)
    exact ⟨hraw.trans (by simp),hdestroyed.trans (by simpa using hlive)⟩

theorem get_enabled {fresh : Option ℕ} (halive : s.destroyed = false) (hfresh : s.Unused fresh) :
    ∃ t, step k s (.get fresh) = some t := by
  rw [step,if_neg (by simp [halive])]
  exact ⟨_,if_pos hfresh⟩

theorem set_enabled (ptr : Option ℕ) (halive : s.destroyed = false) :
    ∃ t, step k s (.set ptr) = some t := by
  rw [step,if_neg (by simp [halive])]
  exact ⟨_,rfl⟩

/-- Every control block has a copy that uses it. -/
def Counted (controls : List Control) : Prop := ∀ c ∈ controls, 0 < c.uses

theorem Counted.set {cs : List Control} {c : Control} (h : Counted cs) (i : ℕ) (hc : 0 < c.uses) :
    Counted (cs.set i c) := by
  intro d hd
  rcases List.mem_or_eq_of_mem_set hd with hd | rfl
  · exact h d hd
  · exact hc

theorem release_counted {i : ℕ} (h : Counted s.controls) (ht : s.release k i = some t) :
    Counted t.controls ∧ t.destroyed = s.destroyed := by
  unfold State.release at ht
  split at ht
  · cases ht
  · rename_i c hc
    have hpos := h c (List.mem_of_getElem? hc)
    split at ht
    · obtain rfl := Option.some.inj ht
      rw [(setRawPtr_frame _ _).2.1,(setRawPtr_frame _ _).2.2]
      exact ⟨fun d hd => h d (List.mem_of_mem_eraseIdx hd),rfl⟩
    · obtain rfl := Option.some.inj ht
      exact ⟨h.set i (by simp only; omega),rfl⟩

theorem Counted.append {cs : List Control} (h : Counted cs) (ptr : Option ℕ) :
    Counted (cs ++ [⟨ptr,1⟩]) := by
  intro d hd
  rcases List.mem_append.mp hd with hd | hd
  · exact h d hd
  · obtain rfl := List.mem_singleton.mp hd
    exact Nat.one_pos

theorem step_counted {e : Event} (h : Counted s.controls) (ht : step k s e = some t) :
    Counted t.controls ∧ (t.destroyed = true → e = .destroy) := by
  unfold step at ht
  split at ht
  · cases ht
  · rename_i hlive
    have hnot {d : Bool} (hd : d = s.destroyed) : d = true → e = .destroy := fun hd' =>
      absurd (hd ▸ hd') hlive
    cases e with
    | get fresh =>
      simp only [Option.ite_none_right_eq_some,Option.some.injEq] at ht
      obtain ⟨-,rfl⟩ := ht
      obtain ⟨-,hcontrols,hdestroyed⟩ := getRawPtr_frame s fresh
      exact ⟨hcontrols ▸ h,hnot hdestroyed⟩
    | set ptr =>
      obtain rfl := Option.some.inj ht
      obtain ⟨-,hcontrols,hdestroyed⟩ := setRawPtr_frame (k:=k) { s with raw := s.raw.diff ptr.toList } ptr
      exact ⟨by rwa [hcontrols],hnot hdestroyed⟩
    | make ptr =>
      simp only [Option.ite_none_left_eq_some,Option.some.injEq] at ht
      obtain ⟨-,rfl⟩ := ht
      exact ⟨h,hnot rfl⟩
    | share fresh control obj =>
      simp only [Option.ite_none_right_eq_some] at ht
      obtain ⟨-,ht⟩ := ht
      obtain ⟨-,hcontrols,hdestroyed⟩ := getRawPtr_frame s fresh
      have hgot : Counted (s.getRawPtr fresh).2.controls := hcontrols ▸ h
      split at ht
      · have hshared := hgot.append (s.getRawPtr fresh).1
        cases obj with
        | none =>
          obtain rfl := Option.some.inj ht
          exact ⟨hshared,hnot hdestroyed⟩
        | some i =>
          obtain ⟨hcounted,hframe⟩ := release_counted hshared ht
          exact ⟨hcounted,hnot (hframe.trans hdestroyed)⟩
      · obtain rfl := Option.some.inj ht
        obtain ⟨-,hc,hd⟩ := setRawPtr_frame (k:=k) (s.getRawPtr fresh).2 (s.getRawPtr fresh).1
        exact ⟨hc ▸ hgot,hnot (hd.trans hdestroyed)⟩
    | copy i =>
      obtain ⟨c,-,rfl⟩ := Option.map_eq_some_iff.mp ht
      exact ⟨h.set i (Nat.succ_pos _),hnot rfl⟩
    | release i =>
      obtain ⟨hcounted,hframe⟩ := release_counted h ht
      exact ⟨hcounted,hnot hframe⟩
    | destroy =>
      obtain rfl := Option.some.inj ht
      obtain ⟨hcontrols,-⟩ := deallocateAll_frame s.cache { s with cache := [] }
      refine ⟨?_,fun _ => rfl⟩
      change Counted (s.cache.foldl State.deallocate { s with cache := [] }).controls
      rwa [hcontrols]

/-- What holds in every state: each object in one place, each control block in use, and
nothing left in a cache that is gone. -/
structure Sound (kMaxObjectsCount : ℕ) (s : State) : Prop where
  owned : Owned kMaxObjectsCount [] s
  counted : Counted s.controls
  ended : s.destroyed = true → s.cache = [] ∧ s.controls = []

theorem Sound.init (h : (system k).init s) : Sound k s := by
  obtain rfl : s = ⟨[],[],[],[],false,false,0,0⟩ := h
  exact ⟨⟨.nil,.nil,Nat.zero_le k,rfl,Nat.zero_le 0⟩,by simp [Counted],by simp⟩

theorem step_sound {e : Event} (h : Sound k s) (hret : Returns s e) (ht : step k s e = some t) :
    Sound k t := by
  obtain ⟨hcounted,hend⟩ := step_counted h.counted ht
  refine ⟨step_owned h.owned hret ht,hcounted,fun hd => ?_⟩
  obtain rfl := hend hd
  unfold step at ht
  split at ht
  · cases ht
  · obtain rfl := Option.some.inj ht
    obtain ⟨hcontrols,hcache⟩ := deallocateAll_frame s.cache { s with cache := [] }
    exact ⟨hcache,hcontrols.trans hret⟩

theorem sound_of_reachable (h : (system k).ReachableBy Returns s) : Sound k s :=
  h.invariant (fun _ => Sound.init) fun _ _ _ => step_sound

/-- Over every run of clients that give back what they hold: what lives is exactly what is
idle, held or shared, each object once; nothing is deleted twice; at most
`kMaxObjectsCount` objects idle and no more live than were once out together; and a cache
that is gone has left nothing behind but what clients still hold. -/
theorem one_place (h : (system k).ReachableBy Returns s) :
    s.live.Perm (s.cache ++ (s.raw ++ handed s.controls)) ∧
    (s.cache ++ (s.raw ++ handed s.controls)).Nodup ∧ s.fault = false ∧
    s.cache.length ≤ k ∧ s.live.length ≤ s.peak+s.made ∧
    (s.destroyed = true → s.live.Perm s.raw) := by
  obtain ⟨howned,-,hended⟩ := sound_of_reachable h
  refine ⟨howned.owners,howned.owners.nodup_iff.mp howned.nodup,howned.intact,howned.bounded,
    howned.memory,fun hd => ?_⟩
  obtain ⟨hcache,hcontrols⟩ := hended hd
  simpa [hcache,hcontrols,handed] using howned.owners

/-- Two clients take an object each, one gives its object back, the other's `object_ptr`
is copied and both copies end; the cache keeps one object and deletes the other. The kept
one is taken again and outlives the cache. -/
def sampleRun : List Event :=
  [.get (some 1),.share (some 2) true none,.copy 0,.set (some 1),.release 0,.release 0,.get none,
    .set none,.destroy]

def sampleEnd : State := ⟨[],[1],[1],[],true,false,0,2⟩

theorem one_place_sample : sampleEnd.live.Perm (sampleEnd.cache ++ (sampleEnd.raw ++ handed sampleEnd.controls)) ∧
    (sampleEnd.cache ++ (sampleEnd.raw ++ handed sampleEnd.controls)).Nodup ∧ sampleEnd.fault = false ∧
    sampleEnd.cache.length ≤ 1 ∧ sampleEnd.live.length ≤ sampleEnd.peak+sampleEnd.made ∧
    (sampleEnd.destroyed = true → sampleEnd.live.Perm sampleEnd.raw) := by
  have hallowed : (system 1).Allowed Returns ⟨[],[],[],[],false,false,0,0⟩ sampleRun := by decide
  exact one_place (.exec_allowed (.init rfl) hallowed rfl)

/-- The rule for clients is exact: to give back an object that is not held, or no longer,
leaves it in two places, deletes what another uses, or deletes it twice. -/
theorem set_owned_iff {ptr : ℕ} (h : Owned k [] s) :
    Owned k [] ({ s with raw := s.raw.diff [ptr] }.setRawPtr k (some ptr)) ↔ ptr ∈ s.raw := by
  constructor
  · intro hset
    by_contra hptr
    have hraw : s.raw.diff [ptr] = s.raw := by simpa using List.erase_of_not_mem hptr
    have hlength := h.owners.length_eq
    rw [hraw,State.setRawPtr] at hset
    split at hset
    · have hlength' := hset.owners.length_eq
      simp only [List.nil_append,List.length_append,List.length_cons] at hlength hlength'
      omega
    · unfold State.deallocate at hset
      split at hset
      · rename_i hmem
        dsimp only at hmem hset
        have hlength' := hset.owners.length_eq
        have hpos := List.length_pos_of_mem hmem
        simp only [List.nil_append,List.length_append,List.length_erase_of_mem hmem] at hlength hlength'
        omega
      · exact absurd hset.intact (by simp)
  · intro hptr
    exact set_owned h fun a ha => (Option.some.inj ha) ▸ hptr

end ObjectsCache
end SdkCp
