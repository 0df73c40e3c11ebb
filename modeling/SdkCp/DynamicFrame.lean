import SdkCp.Rotation
import SdkCp.StaticFrame

/-! tools/dynamic_frame.hpp: a window that can grow. The constructor counts one slot more than
it allocates; `reserve` allocates them all. -/
namespace SdkCp
namespace DynamicFrame

open StaticFrame (wrap wrap_natCast)

/-- What `std::vector` holds at most. -/
structure Limit where
  maxSize : ℕ
  bound : maxSize < 2^63

structure Frame (α : Type) where
  data : List α
  virtualBlocks : ℕ
  iterator : ℕ
  size : ℕ
  sz : ℕ

theorem wrap_succ {n : ℕ} (h : n+1 < 2^64) : wrap (n+1) = n+1 := wrap_natCast (n:=n+1) h

theorem wrap_pred {n : ℕ} (hpos : 0 < n) (h : n < 2^64) : wrap (n-1) = n-1 := by
  rw [show (n : ℤ)-1 = ((n-1 : ℕ) : ℤ) by omega,wrap_natCast (by omega)]

/-- The conversion of a `uint64_t` to `int64_t`. -/
def toInt64 (n : ℕ) : ℤ := if n % 2^64 < 2^63 then (n : ℤ) % 2^64 else (n : ℤ) % 2^64-2^64

section

variable {α : Type} [Inhabited α]

def resize (l : List α) (n : ℕ) : List α := l.takeD n default

namespace Frame

/-- The constructor. -/
def create (initialCapacity : ℕ) : Frame α where
  data := resize [] initialCapacity
  virtualBlocks := wrap (initialCapacity+1)
  iterator := 0
  size := 0
  sz := initialCapacity

/-- `_iterator_to_node`, a reference into `_data`; there is none to a slot outside it. -/
def node (s : Frame α) (it : ℕ) : Option (Fin s.data.length) :=
  if h : 0 < s.virtualBlocks ∧ it % s.virtualBlocks < s.data.length then
    some ⟨it % s.virtualBlocks,h.2⟩
  else none

/-- The argument is converted to a `uint32_t`. -/
def getFromFirst (s : Frame α) (offset : ℕ) : Option (Fin s.data.length) :=
  s.node (wrap (s.iterator+s.virtualBlocks-(offset % 2^32 : ℕ)))

def getFirst (s : Frame α) : Option (Fin s.data.length) := s.node s.iterator

def getLast (s : Frame α) : Option (Fin s.data.length) :=
  s.node (wrap (s.iterator+s.virtualBlocks-s.sz+1))

/-- The elements at the offsets below `count`, the last one first. -/
def copies (s : Frame α) : ℕ → Option (List α)
  | 0 => some []
  | count+1 =>
    (s.getFromFirst count).bind fun n => (copies s count).map fun tmp => s.data.get n::tmp

/-- The loop of `reserve` counts an `int64_t` down from `_size - 1`. -/
def count (s : Frame α) : ℕ := (toInt64 (wrap (s.size-1))+1).toNat

/-- Where the vector does not get its memory the exception leaves the frame as it was. -/
def reserve (lim : Limit) (s : Frame α) (sz : ℕ) (room : Bool) : Option (Frame α) :=
  if s.sz < sz then
    if wrap (sz+1) ≤ lim.maxSize ∧ room then
      (s.copies s.count).map fun tmp =>
        { s with
          data := resize tmp (wrap (sz+1))
          virtualBlocks := wrap (sz+1)
          iterator := wrap (s.size-1)
          sz := sz }
    else some s
  else some s

/-- The iterator and the size after `move_fwd`. -/
def advance (s : Frame α) : Frame α :=
  { s with
    iterator := wrap (s.iterator+1) % s.virtualBlocks
    size := min (wrap (s.size+1)) s.sz }

/-- `f` may write to the slot it is called with, whose element is the second component; the
caller stores `v` in the slot that is returned. -/
def moveFwd (s : Frame α) (f : α → α) (v : α) : Option (Frame α × α) :=
  s.getLast.bind fun last =>
    let t := { s with data := s.data.set last (f (s.data.get last)) }.advance
    t.getFirst.bind fun first => some ({ t with data := t.data.set first v },s.data.get last)

def moveBck (s : Frame α) (f : α → α) : Option (Frame α × α) :=
  s.getFirst.bind fun first =>
    some ({ s with
            data := s.data.set first (f (s.data.get first))
            iterator := wrap (s.iterator+s.virtualBlocks-1) % s.virtualBlocks
            size := min (wrap (s.size-1)) 0 },s.data.get first)

end Frame

inductive Op (α : Type)
  | moveFwd (f : α → α) (v : α)
  | moveBck (f : α → α)
  | reserve (sz : UInt64) (room : Bool)
  | getFirst
  | getLast
  | getFromFirst (i : ℕ)

def Frame.apply (lim : Limit) (s : Frame α) : Op α → Option (Frame α)
  | .moveFwd f v => (s.moveFwd f v).map Prod.fst
  | .moveBck f => (s.moveBck f).map Prod.fst
  | .reserve sz room => s.reserve lim sz.toNat room
  | .getFirst => s.getFirst.map fun _ => s
  | .getLast => s.getLast.map fun _ => s
  | .getFromFirst i => (s.getFromFirst i).map fun _ => s

/-- A call has a step where every slot it uses is in `_data`. -/
def calls (α : Type) [Inhabited α] (lim : Limit) : TransitionSystem (Frame α) (Op α) where
  init s := ∃ initialCapacity, initialCapacity ≤ lim.maxSize ∧ s = .create initialCapacity
  step s op := s.apply lim op

/-- `get_from_first` is called below the capacity. -/
def Called (s : Frame α) : Op α → Prop
  | .getFromFirst i => i < s.sz
  | _ => True

instance (s : Frame α) : ∀ op, Decidable (Called s op)
  | .getFromFirst i => inferInstanceAs (Decidable (i < s.sz))
  | .moveFwd _ _ => .isTrue trivial
  | .moveBck _ => .isTrue trivial
  | .reserve _ _ => .isTrue trivial
  | .getFirst => .isTrue trivial
  | .getLast => .isTrue trivial

end
end DynamicFrame
end SdkCp
