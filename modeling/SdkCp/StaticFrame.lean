import SdkCp.TransitionSystem
import SdkCp.Rotation

/-! tools/static_frame.hpp: a window over `SZ + 1` slots that turns with its newest element.
Against a list, newest first. -/
namespace SdkCp
namespace StaticFrame

/-- The template argument: not zero by the static assertion, and `T _data[SZ + 1]` is an object. -/
structure Capacity where
  SZ : ℕ
  pos : 0 < SZ
  object : SZ+1 < 2^63

/-- `k_virt_blocks`. -/
def Capacity.blocks (c : Capacity) : ℕ := c.SZ+1

structure Frame (α : Type) (c : Capacity) where
  data : Fin c.blocks → α
  iterator : ℕ
  size : ℕ

/-- A result of `uint64_t` arithmetic. -/
def wrap (z : ℤ) : ℕ := (z % 2^64).toNat

/-- The conversion of a `uint64_t` to `int`. -/
def toInt (n : ℕ) : ℤ := if n % 2^32 < 2^31 then (n : ℤ) % 2^32 else (n : ℤ) % 2^32-2^32

namespace Frame

variable {α : Type} {c : Capacity}

/-- `_iterator_to_node`. -/
def node (it : ℕ) : Fin c.blocks := ⟨it % c.blocks,Nat.mod_lt _ (Nat.succ_pos _)⟩

/-- `offset` is an `int`. -/
def getFromFirst (s : Frame α c) (offset : ℤ) : α :=
  s.data (node (wrap (s.iterator+c.blocks-offset)))

def getFirst (s : Frame α c) : α := s.data (node s.iterator)

def getLast (s : Frame α c) : α := s.data (node (wrap (s.iterator+c.blocks-c.SZ+1)))

/-- The second component is what `f` is called with. -/
def popBack (s : Frame α c) : Frame α c × Option α :=
  if 0 < s.size then
    let t := s.getFromFirst (toInt (s.size-1))
    ({ s with size := s.size-1 },some t)
  else (s,none)

/-- The caller stores `v` in the slot that is returned. -/
def moveFwd (s : Frame α c) (v : α) : Frame α c × Option α :=
  let it := wrap (s.iterator+1) % c.blocks
  ({ data := Function.update s.data (node it) v
     iterator := it
     size := min (wrap (s.size+1)) c.SZ },some s.getLast)

def moveBck (s : Frame α c) : Frame α c × Option α :=
  ({ s with
     iterator := wrap (s.iterator+c.blocks-1) % c.blocks
     size := min (wrap (s.size-1)) 0 },some s.getFirst)

end Frame

inductive Op (α : Type)
  | moveFwd (v : α)
  | moveBck
  | popBack

section

variable {α : Type} {c : Capacity}

def Frame.apply (s : Frame α c) : Op α → Frame α c × Option α
  | .moveFwd v => s.moveFwd v
  | .moveBck => s.moveBck
  | .popBack => s.popBack

/-- The window after an operation, and the element that leaves it. -/
def window (c : Capacity) (w : List α) : Op α → List α × Option α
  | .moveFwd v => ((v::w).take c.SZ,if w.length = c.SZ then w.getLast? else none)
  | .moveBck => (w.tail,w.head?)
  | .popBack => (w.dropLast,w.getLast?)

/-- The frame beside its window. -/
def next (p : Frame α c × List α) (op : Op α) : Frame α c × List α :=
  ((p.1.apply op).1,(window c p.2 op).1)

/-- The slots of a new frame hold anything. -/
def runs (α : Type) (c : Capacity) : TransitionSystem (Frame α c × List α) (Op α) where
  init p := p.1.iterator = 0 ∧ p.1.size = 0 ∧ p.2 = []
  step p op := some (next p op)

/-- The accessors show the window. -/
structure Agrees (s : Frame α c) (w : List α) : Prop where
  size : s.size = w.length
  get : ∀ i : ℕ, i < 2^31 → ∀ v, w[i]? = some v → s.getFromFirst i = v

/-- What leaves the window goes to the callback. -/
def HandsOut (s : Frame α c) (w : List α) (op : Op α) : Prop :=
  ∀ v, (window c w op).2 = some v → (s.apply op).2 = some v

/-- Not the steps that go wrong: `move_bck` keeps no size, and `pop_back` passes the size
through an `int`. -/
def Harmless (p : Frame α c × List α) : Op α → Prop
  | .moveFwd _ => True
  | .moveBck => p.2.length ≤ 1
  | .popBack => p.2.length ≤ 2^31

theorem Harmless.tail {p : Frame α c × List α} (h : Harmless p .moveBck) : p.2.tail = [] := by
  have hlen : p.2.length ≤ 1 := h
  exact List.length_eq_zero_iff.mp (by rw [List.length_tail]; omega)

theorem wrap_natCast {n : ℕ} (h : n < 2^64) : wrap n = n := by
  rw [wrap,Int.emod_eq_of_lt (by omega) (by exact_mod_cast h),Int.toNat_natCast]

/-- The slot of position `i`. -/
def slot (c : Capacity) (it i : ℕ) : Fin c.blocks := Frame.node (it+c.blocks-i)

theorem slot_next {it i : ℕ} (hit : it < c.blocks) (hi : i+1 < c.blocks) :
    slot c ((it+1) % c.blocks) (i+1) = slot c it i :=
  Fin.ext (Rotation.back_next hit hi)

theorem slot_ne {it i j : ℕ} (hit : it < c.blocks) (hi : i < c.blocks) (hj : j < c.blocks)
    (hne : i ≠ j) : slot c it i ≠ slot c it j :=
  fun h => Rotation.back_ne hit hi hj hne (congrArg Fin.val h)

theorem getFromFirst_slot {s : Frame α c} {i : ℕ} (hit : s.iterator < c.blocks) (hi : i < c.blocks) :
    s.getFromFirst i = s.data (slot c s.iterator i) := by
  have hmax : c.blocks < 2^63 := c.object
  rw [Frame.getFromFirst,show (s.iterator : ℤ)+c.blocks-i = ((s.iterator+c.blocks-i : ℕ) : ℤ) by omega,
    wrap_natCast (by omega)]
  rfl

theorem node_add_blocks (it : ℕ) : Frame.node (c:=c) (it+c.blocks) = Frame.node it :=
  Fin.ext (Nat.add_mod_right _ _)

theorem node_slot_zero (it : ℕ) : Frame.node it = slot c it 0 := by
  rw [slot,Frame.node,Frame.node,Nat.sub_zero]
  simp

/-- The slot of `get_last` is that of the oldest element of a full frame. -/
theorem node_last {it : ℕ} (hit : it < c.blocks) :
    Frame.node (wrap (it+c.blocks-c.SZ+1)) = slot c it (c.SZ-1) := by
  have hmax := c.object
  have hpos := c.pos
  have hblocks : c.blocks = c.SZ+1 := rfl
  have hsum : (it : ℤ)+c.blocks-c.SZ+1 = ((it+c.blocks-(c.SZ-1) : ℕ) : ℤ) := by omega
  rw [slot,hsum,wrap_natCast (by omega)]

theorem getLast_slot {s : Frame α c} (hit : s.iterator < c.blocks) :
    s.getLast = s.data (slot c s.iterator (c.SZ-1)) := by
  rw [Frame.getLast,node_last hit]

theorem toInt_natCast {n : ℕ} (h : n < 2^31) : toInt n = n := by
  rw [toInt,if_pos (by omega)]
  omega

/-- The positions of the window are in their slots. -/
structure Shows (s : Frame α c) (w : List α) : Prop where
  size : s.size = w.length
  bound : w.length ≤ c.SZ
  iterator : s.iterator < c.blocks
  slots : ∀ i v, w[i]? = some v → s.data (slot c s.iterator i) = v

theorem shows_moveBck (s : Frame α c) : Shows s.moveBck.1 [] :=
  ⟨Nat.min_zero _,Nat.zero_le _,Nat.mod_lt _ (Nat.succ_pos _),fun i v hv => by simp at hv⟩

namespace Shows

variable {s : Frame α c} {w : List α}

theorem lt_blocks (h : Shows s w) {i : ℕ} {v : α} (hv : w[i]? = some v) : i < c.blocks := by
  obtain ⟨hi,-⟩ := List.getElem?_eq_some_iff.mp hv
  have hbound := h.bound
  simp only [Capacity.blocks]
  omega

theorem getFromFirst (h : Shows s w) {i : ℕ} {v : α} (hv : w[i]? = some v) :
    s.getFromFirst i = v := by
  rw [getFromFirst_slot h.iterator (h.lt_blocks hv),h.slots i v hv]

theorem agrees (h : Shows s w) : Agrees s w := ⟨h.size,fun _ _ _ hv => h.getFromFirst hv⟩

/-- The new element is in the slot in front; the others are one position further. -/
theorem moveFwd (h : Shows s w) (v : α) : Shows (s.moveFwd v).1 ((v::w).take c.SZ) := by
  have hit := h.iterator
  have hmax : c.blocks < 2^63 := c.object
  have hblocks : c.blocks = c.SZ+1 := rfl
  have hwrap : wrap (s.iterator+1) = s.iterator+1 := wrap_natCast (n:=s.iterator+1) (by omega)
  have hnext : (s.iterator+1) % c.blocks < c.blocks := Nat.mod_lt _ (by omega)
  refine ⟨?_,?_,?_,?_⟩
  · have hsize : wrap (s.size+1) = s.size+1 :=
      wrap_natCast (n:=s.size+1) (by rw [h.size]; have := h.bound; omega)
    simp only [Frame.moveFwd,hsize]
    rw [h.size,List.length_take,List.length_cons,min_comm]
  · exact List.length_take_le _ _
  · simp only [Frame.moveFwd,hwrap]
    exact hnext
  · intro i x hx
    simp only [Frame.moveFwd,hwrap]
    have hi : i < c.SZ := by
      obtain ⟨hi,-⟩ := List.getElem?_eq_some_iff.mp hx
      exact lt_of_lt_of_le hi (List.length_take_le _ _)
    rw [List.getElem?_take_of_lt hi] at hx
    cases i with
    | zero =>
      rw [← node_slot_zero,Function.update_self]
      exact Option.some.inj hx
    | succ j =>
      rw [List.getElem?_cons_succ] at hx
      have hother := slot_ne hnext (i:=j+1) (j:=0) (by omega) (by omega) (Nat.succ_ne_zero j)
      rw [node_slot_zero,Function.update_of_ne hother,slot_next hit (by omega)]
      exact h.slots j x hx

theorem popBack (h : Shows s w) : Shows s.popBack.1 w.dropLast := by
  rw [Frame.popBack]
  split
  · refine ⟨?_,?_,h.iterator,fun i v hv => ?_⟩
    · rw [List.length_dropLast]
      exact congrArg (· - 1) h.size
    · rw [List.length_dropLast]
      exact (Nat.sub_le _ _).trans h.bound
    · rw [List.getElem?_dropLast] at hv
      split at hv
      · exact h.slots i v hv
      · simp at hv
  · have hw : w = [] := List.length_eq_zero_iff.mp (by have := h.size; omega)
    rw [hw] at h ⊢
    exact h

theorem apply (h : Shows s w) {op : Op α} (hop : Harmless (s,w) op) :
    Shows (s.apply op).1 (window c w op).1 := by
  cases op with
  | moveFwd v => exact h.moveFwd v
  | moveBck =>
    simp only [window,hop.tail]
    exact shows_moveBck s
  | popBack => exact h.popBack

/-- The element that leaves is the one whose slot the callback is shown. -/
theorem handsOut (h : Shows s w) {op : Op α} (hop : Harmless (s,w) op) : HandsOut s w op := by
  intro v hv
  cases op with
  | moveFwd _ =>
    simp only [window] at hv
    split at hv
    · rename_i hfull
      rw [List.getLast?_eq_getElem?,hfull] at hv
      simp only [Frame.apply,Frame.moveFwd]
      rw [getLast_slot h.iterator,h.slots _ v hv]
    · simp at hv
  | moveBck =>
    rw [window,List.head?_eq_getElem?] at hv
    simp only [Frame.apply,Frame.moveBck,Frame.getFirst]
    rw [node_slot_zero,h.slots 0 v hv]
  | popBack =>
    rw [window,List.getLast?_eq_getElem?] at hv
    obtain ⟨hlt,-⟩ := List.getElem?_eq_some_iff.mp hv
    have hlen : w.length ≤ 2^31 := hop
    simp only [Frame.apply,Frame.popBack]
    rw [if_pos (by rw [h.size]; omega),h.size,toInt_natCast (by omega),h.getFromFirst hv]

end Shows

theorem shows_init {p : Frame α c × List α} (h : (runs α c).init p) : Shows p.1 p.2 := by
  obtain ⟨hit,hsize,hw⟩ := h
  rw [hw]
  refine ⟨hsize,Nat.zero_le _,by rw [hit]; exact Nat.succ_pos _,fun i v hv => ?_⟩
  simp at hv

theorem shows_step {p q : Frame α c × List α} {op : Op α} (h : Shows p.1 p.2)
    (hop : Harmless p op) (hq : (runs α c).step p op = some q) : Shows q.1 q.2 := by
  obtain rfl := Option.some.inj hq
  exact h.apply hop

theorem shows_of_reachable {p : Frame α c × List α} (h : (runs α c).ReachableBy Harmless p) :
    Shows p.1 p.2 :=
  h.invariant (fun _ => shows_init) fun _ _ _ => shows_step

/-- Where two elements are in the frame, `move_bck` loses more than the newest one. -/
theorem agrees_moveBck_iff {p : Frame α c × List α} :
    Agrees p.1.moveBck.1 p.2.tail ↔ Harmless p .moveBck := by
  have hempty := (shows_moveBck p.1).size
  constructor
  · intro h
    have hsize := h.size
    rw [hempty,List.length_tail] at hsize
    simp only [Harmless,List.length_nil] at hsize ⊢
    omega
  · intro hop
    rw [hop.tail]
    exact (shows_moveBck p.1).agrees

end

def two : Capacity := ⟨2,by decide,by decide⟩

def empty : Frame ℕ two × List ℕ := (⟨fun _ => 0,0,0⟩,[])

/-- Two elements in a frame for two. -/
def filled : Frame ℕ two × List ℕ := next (next empty (.moveFwd 1)) (.moveFwd 2)

theorem reachable_filled {ok : Frame ℕ two × List ℕ → Op ℕ → Prop}
    (hok : ∀ p v, ok p (.moveFwd v)) : (runs ℕ two).ReachableBy ok filled :=
  .step (.step (.init (s:=empty) ⟨rfl,rfl,rfl⟩) (hok _ 1) rfl) (hok _ 2) rfl

end StaticFrame
end SdkCp
