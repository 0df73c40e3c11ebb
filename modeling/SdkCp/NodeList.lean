import SdkCp.LinkedRing
import SdkCp.TransitionSystem
import Mathlib.Tactic

/-! list of tools/list.hpp: circular lists whose nodes are linked in their memory. A function
has no result where it comes to memory that is not a node. -/
namespace SdkCp
namespace NodeList

structure Node (A α : Type) where
  data : α
  prev : A
  next : A
deriving DecidableEq

/-- The nodes that are constructed and not deallocated. -/
abbrev Heap (A α : Type) := A → Option (Node A α)

namespace Heap

variable {A α : Type}

def dataOf (h : Heap A α) (a : A) : Option α := (h a).map Node.data

def prevOf (h : Heap A α) (a : A) : Option A := (h a).map Node.prev

def nextOf (h : Heap A α) (a : A) : Option A := (h a).map Node.next

variable [DecidableEq A]

/-- `a->_prev = v` -/
def setPrev (h : Heap A α) (a v : A) : Option (Heap A α) :=
  (h a).map fun n => Function.update h a (some { n with prev := v })

/-- `a->_next = v` -/
def setNext (h : Heap A α) (a v : A) : Option (Heap A α) :=
  (h a).map fun n => Function.update h a (some { n with next := v })

/-- The destructor and `dealloc`. -/
def free (h : Heap A α) (a : A) : Option (Heap A α) :=
  (h a).map fun _ => Function.update h a none

/-- The allocator has given `alloc`, which may be null. -/
def create (h : Heap A α) (alloc : Option A) (data : α) : Heap A α × Option A :=
  match alloc with
  | some ptr => (Function.update h ptr (some ⟨data,ptr,ptr⟩),some ptr)
  | none => (h,none)

def insertAfter (h : Heap A α) (after target : A) : Option (Heap A α) := do
  let r ← h.nextOf after
  let h ← h.setNext after target
  let h ← h.setPrev target after
  let h ← h.setNext target r
  h.setPrev r target

def remove (h : Heap A α) (ptr : A) : Option (Heap A α) := do
  let l ← h.prevOf ptr
  let r ← h.nextOf ptr
  let h ← h.setNext l r
  h.setPrev r l

/-- The neighbours are linked as in `remove`. -/
def destroy (h : Heap A α) (ptr : A) : Option (Heap A α) := (h.remove ptr).bind fun h => h.free ptr

/-- The nodes are freed behind `n`, `t` comes last; the second component is what is freed, in
its order. -/
def destroyAllLoop (t : A) : ℕ → Heap A α → A → Option (Heap A α × List A)
  | 0, _, _ => none
  | fuel+1, h, n =>
    if t = n then (h.free t).map fun h => (h,[t])
    else do
      let n ← h.nextOf n
      let p ← h.prevOf n
      let h ← h.free p
      (destroyAllLoop t fuel h n).map fun done => (done.1,p::done.2)

def destroyAll (fuel : ℕ) (h : Heap A α) (ptr : A) : Option (Heap A α × List A) :=
  (h.nextOf ptr).bind fun n => destroyAllLoop ptr fuel h n

def next (h : Heap A α) (ptr : A) : Option A := h.nextOf ptr

/-- The nodes from `n` on that `func` is called for. -/
def foreachLoop (h : Heap A α) (func : α → Bool) (t : A) : ℕ → A → Option (List A)
  | 0, _ => none
  | fuel+1, n =>
    (h n).bind fun node =>
      if func node.data then
        if t = node.next then some [n]
        else (foreachLoop h func t fuel node.next).map fun rest => n::rest
      else some [n]

def foreach (fuel : ℕ) (h : Heap A α) (ptr : A) (func : α → Bool) : Option (List A) :=
  h.foreachLoop func ptr fuel ptr

end Heap

inductive Op (A α : Type)
  | create (alloc : Option A) (data : α)
  | insertAfter (after target : A)
  | remove (ptr : A)
  | destroy (ptr : A)
  | destroyAll (fuel : ℕ) (ptr : A)

def Heap.apply {A α : Type} [DecidableEq A] (h : Heap A α) : Op A α → Option (Heap A α)
  | .create alloc data => some (h.create alloc data).1
  | .insertAfter after target => h.insertAfter after target
  | .remove ptr => h.remove ptr
  | .destroy ptr => h.destroy ptr
  | .destroyAll fuel ptr => (h.destroyAll fuel ptr).map Prod.fst

namespace Heap

variable {A α : Type} {h h' : Heap A α} {a t l r : A}

theorem isSome_dataOf : (h.dataOf a).isSome ↔ (h a).isSome := by rw [dataOf,Option.isSome_map]

theorem isSome_of_nextOf (hr : h.nextOf a = some r) : (h a).isSome := by
  rw [← Option.isSome_map (f:=Node.next),← nextOf,hr]
  rfl

theorem ext_of (hdata : h'.dataOf a = h.dataOf a) (hprev : h'.prevOf a = h.prevOf a)
    (hnext : h'.nextOf a = h.nextOf a) : h' a = h a := by
  simp only [dataOf,prevOf,nextOf] at hdata hprev hnext
  cases hn : h a with
  | none => simpa [hn] using hdata
  | some n =>
    rw [hn] at hdata hprev hnext
    obtain ⟨n',hn',hd⟩ := Option.map_eq_some_iff.mp hdata
    rw [hn'] at hprev hnext ⊢
    cases n
    cases n'
    simp_all

variable [DecidableEq A]

theorem nextOf_update (n : Option (Node A α)) :
    nextOf (Function.update h a n) = Function.update h.nextOf a (n.map Node.next) := by
  funext x
  by_cases hx : x = a <;> simp [nextOf,hx]

theorem prevOf_update (n : Option (Node A α)) :
    prevOf (Function.update h a n) = Function.update h.prevOf a (n.map Node.prev) := by
  funext x
  by_cases hx : x = a <;> simp [prevOf,hx]

theorem setNext_some (ha : (h a).isSome) (v : A) : ∃ h', h.setNext a v = some h' ∧
    h'.nextOf = Function.update h.nextOf a (some v) ∧ h'.prevOf = h.prevOf ∧
    h'.dataOf = h.dataOf := by
  obtain ⟨n,hn⟩ := Option.isSome_iff_exists.mp ha
  refine ⟨_,by rw [setNext,hn]; rfl,?_,?_,?_⟩ <;> funext x <;> by_cases hx : x = a <;>
    simp [nextOf,prevOf,dataOf,hx,hn]

theorem setPrev_some (ha : (h a).isSome) (v : A) : ∃ h', h.setPrev a v = some h' ∧
    h'.prevOf = Function.update h.prevOf a (some v) ∧ h'.nextOf = h.nextOf ∧
    h'.dataOf = h.dataOf := by
  obtain ⟨n,hn⟩ := Option.isSome_iff_exists.mp ha
  refine ⟨_,by rw [setPrev,hn]; rfl,?_,?_,?_⟩ <;> funext x <;> by_cases hx : x = a <;>
    simp [nextOf,prevOf,dataOf,hx,hn]

theorem insertAfter_some (hr : h.nextOf a = some r) (ht : (h t).isSome) (hrt : (h r).isSome) :
    ∃ h', h.insertAfter a t = some h' ∧
      h'.nextOf = Function.update (Function.update h.nextOf a (some t)) t (some r) ∧
      h'.prevOf = Function.update (Function.update h.prevOf t (some a)) r (some t) ∧
      h'.dataOf = h.dataOf := by
  obtain ⟨h₁,hs₁,hn₁,hp₁,hd₁⟩ := setNext_some (isSome_of_nextOf hr) t
  obtain ⟨h₂,hs₂,hp₂,hn₂,hd₂⟩ := setPrev_some (h:=h₁) (a:=t)
    (by rw [← isSome_dataOf,hd₁,isSome_dataOf]; exact ht) a
  obtain ⟨h₃,hs₃,hn₃,hp₃,hd₃⟩ := setNext_some (h:=h₂) (a:=t)
    (by rw [← isSome_dataOf,hd₂,hd₁,isSome_dataOf]; exact ht) r
  obtain ⟨h₄,hs₄,hp₄,hn₄,hd₄⟩ := setPrev_some (h:=h₃) (a:=r)
    (by rw [← isSome_dataOf,hd₃,hd₂,hd₁,isSome_dataOf]; exact hrt) t
  refine ⟨h₄,?_,by rw [hn₄,hn₃,hn₂,hn₁],by rw [hp₄,hp₃,hp₂,hp₁],by rw [hd₄,hd₃,hd₂,hd₁]⟩
  simp only [insertAfter,hr,hs₁,hs₂,hs₃,hs₄,Option.bind_eq_bind,Option.bind_some]

theorem remove_some (hl : h.prevOf t = some l) (hr : h.nextOf t = some r) (hls : (h l).isSome)
    (hrs : (h r).isSome) : ∃ h', h.remove t = some h' ∧
      h'.nextOf = Function.update h.nextOf l (some r) ∧
      h'.prevOf = Function.update h.prevOf r (some l) ∧ h'.dataOf = h.dataOf := by
  obtain ⟨h₁,hs₁,hn₁,hp₁,hd₁⟩ := setNext_some hls r
  obtain ⟨h₂,hs₂,hp₂,hn₂,hd₂⟩ := setPrev_some (h:=h₁) (a:=r)
    (by rw [← isSome_dataOf,hd₁,isSome_dataOf]; exact hrs) l
  refine ⟨h₂,?_,by rw [hn₂,hn₁],by rw [hp₂,hp₁],by rw [hd₂,hd₁]⟩
  simp only [remove,hl,hr,hs₁,hs₂,Option.bind_eq_bind,Option.bind_some]

end Heap
end NodeList
end SdkCp
