import SdkCp.DynamicFrameSafety

/-! tools/dynamic_frame.hpp: a frame that owns all the slots it counts, against a window that
only gets wider. -/
namespace SdkCp
namespace DynamicFrame

open StaticFrame (wrap wrap_natCast)

/-- The newest elements, at most `capacity` of them, newest first. -/
structure Window (α : Type) where
  elements : List α
  capacity : ℕ

inductive Update (α : Type)
  | moveFwd (f : α → α) (v : α)
  | reserve (sz : UInt64) (room : Bool)

def Update.op {α : Type} : Update α → Op α
  | .moveFwd f v => .moveFwd f v
  | .reserve sz room => .reserve sz room

section

variable {α : Type}

/-- The window after an update, and the element that leaves it. -/
def Window.update (lim : Limit) (w : Window α) : Update α → Window α × Option α
  | .moveFwd _ v => ({ w with elements := (v::w.elements).take w.capacity },
      if w.elements.length = w.capacity then w.elements.getLast? else none)
  | .reserve sz room => ({ w with
      capacity := if (Op.reserve (α:=α) sz room).grows lim w.capacity then sz.toNat
        else w.capacity },none)

/-- What `get_from_first` refers to. -/
def Frame.element (s : Frame α) (i : ℕ) : Option α := (s.getFromFirst i).map s.data.get

/-- The accessors show the window. -/
structure Agrees (s : Frame α) (w : Window α) : Prop where
  size : s.size = w.elements.length
  capacity : s.sz = w.capacity
  get : ∀ i : ℕ, i < 2^32 → ∀ v, w.elements[i]? = some v → s.element i = some v

end

section

variable {α : Type} [Inhabited α] {lim : Limit}

/-- The frame after an update, and what the callback of `move_fwd` is called with. -/
def Frame.update (lim : Limit) (s : Frame α) : Update α → Option (Frame α × Option α)
  | .moveFwd f v => (s.moveFwd f v).map fun p => (p.1,some p.2)
  | .reserve sz room => (s.reserve lim sz.toNat room).map fun t => (t,none)

/-- The frame beside its window, from a frame that owns its slots. -/
def growth (α : Type) [Inhabited α] (lim : Limit) :
    TransitionSystem (Frame α × Window α) (Update α) where
  init p := (calls α lim).Reachable p.1 ∧
    (p.1.data.length = p.1.virtualBlocks ∧ p.1.virtualBlocks = p.1.sz+1) ∧
    (p.1.size ≤ p.1.sz ∧ p.1.sz < 2^32) ∧ Agrees p.1 p.2
  step p u := (p.1.update lim u).map fun q => (q.1,(p.2.update lim u).1)

/-- What leaves the window goes to the callback. -/
def HandsOut (lim : Limit) (s : Frame α) (w : Window α) (u : Update α) : Prop :=
  ∀ v, (w.update lim u).2 = some v → ∃ t, s.update lim u = some (t,some v)

/-- Not a `reserve` whose `sz + 1` is zero, and not one that counts elements in a `uint32_t`
that has not enough bits. -/
def Harmless (lim : Limit) (p : Frame α × Window α) (u : Update α) : Prop :=
  u.op.grows lim p.2.capacity → ¬u.op.overflows ∧ p.2.elements.length ≤ 2^32

instance (p : Frame α × Window α) (u : Update α) : Decidable (Harmless lim p u) :=
  inferInstanceAs (Decidable (_ → _))

theorem resize_getElem? {l : List α} {n i : ℕ} (hi : i < n) (hl : i < l.length) :
    (resize l n)[i]? = l[i]? := by
  rw [resize]
  induction l generalizing n i with
  | nil => exact absurd hl (Nat.not_lt_zero i)
  | cons a l ih =>
    obtain ⟨n,rfl⟩ := Nat.exists_eq_succ_of_ne_zero (by omega : n ≠ 0)
    cases i with
    | zero => rfl
    | succ i =>
      rw [List.takeD_succ,List.getElem?_cons_succ,List.getElem?_cons_succ]
      exact ih (by omega) (by simpa using hl)

end

section

variable {α : Type} {s : Frame α} {w : Window α}

/-- The elements of the window are in their slots. -/
structure Shows (s : Frame α) (w : Window α) : Prop where
  grown : Grown s
  size : s.size = w.elements.length
  capacity : s.sz = w.capacity
  slots : ∀ i v, w.elements[i]? = some v →
    s.data[Rotation.back s.virtualBlocks s.iterator i]? = some v

theorem Grown.node_back (h : Grown s) (hit : s.iterator < s.virtualBlocks) {z : ℤ} {i : ℕ}
    (hi : i < s.virtualBlocks) (hz : z = s.iterator+s.virtualBlocks-i) :
    ∃ n, s.node (wrap z) = some n ∧ n.val = Rotation.back s.virtualBlocks s.iterator i := by
  have hbound := h.bound
  have hblocks := h.blocks
  obtain ⟨n,hn⟩ := Option.isSome_iff_exists.mp (h.node (wrap z))
  refine ⟨n,hn,?_⟩
  have hwrap : wrap z = s.iterator+s.virtualBlocks-i := by
    rw [hz,show (s.iterator : ℤ)+s.virtualBlocks-i = ((s.iterator+s.virtualBlocks-i : ℕ) : ℤ) by omega]
    exact wrap_natCast (by omega)
  rw [Frame.node,hwrap] at hn
  split at hn
  · rw [← Option.some.inj hn]
    rfl
  · exact absurd hn (by simp)

namespace Shows

theorem lt_size (h : Shows s w) {i : ℕ} {v : α} (hv : w.elements[i]? = some v) : i < s.size := by
  obtain ⟨hi,-⟩ := List.getElem?_eq_some_iff.mp hv
  rw [h.size]
  exact hi

theorem iterator_lt (h : Shows s w) (hpos : 0 < s.size) : s.iterator < s.virtualBlocks := by
  rcases h.grown.placed with hlt | hempty
  · exact hlt
  · exact absurd hempty.2 hpos.ne'

theorem element (h : Shows s w) {i : ℕ} {v : α} (hi : i < 2^32) (hv : w.elements[i]? = some v) :
    s.element i = some v := by
  have hsize := h.grown.size
  have hblocks := h.grown.blocks
  have hlt := h.lt_size hv
  have hit := h.iterator_lt (by omega)
  obtain ⟨n,hn,hback⟩ := h.grown.node_back hit (i:=i) (by omega) rfl
  have hslot := h.slots i v hv
  rw [← hback] at hslot
  rw [Frame.element,Frame.getFromFirst,Nat.mod_eq_of_lt hi,hn,Option.map_some]
  rw [List.getElem?_eq_getElem n.isLt] at hslot
  exact hslot

theorem agrees (h : Shows s w) : Agrees s w :=
  ⟨h.size,h.capacity,fun _ hi _ hv => h.element hi hv⟩

theorem getLast (h : Shows s w) {v : α} (hfull : w.elements.length = w.capacity)
    (hv : w.elements.getLast? = some v) : ∃ n, s.getLast = some n ∧ s.data.get n = v := by
  have hbound := h.grown.bound
  have hblocks := h.grown.blocks
  have hsize := h.grown.size
  have hcap := h.capacity
  rw [List.getLast?_eq_getElem?] at hv
  have hlt := h.lt_size hv
  have hit := h.iterator_lt (by omega)
  obtain ⟨n,hn,hback⟩ := h.grown.node_back hit (i:=s.sz-1)
    (z:=s.iterator+s.virtualBlocks-s.sz+1) (by omega) (by omega)
  refine ⟨n,hn,?_⟩
  have hslot := h.slots _ v hv
  rw [hfull,← hcap,← hback,List.getElem?_eq_getElem n.isLt] at hslot
  exact Option.some.inj hslot

/-- The slot in front is new, the oldest slot of a full frame may be written, and every other
element is one position further. -/
theorem moveFwd (h : Shows s w) {f : α → α} {v : α} {p : Frame α × α}
    (hp : s.moveFwd f v = some p) : Shows p.1 (w.update lim (.moveFwd f v)).1 := by
  have hbound := h.grown.bound
  have hblocks := h.grown.blocks
  have hsize := h.grown.size
  have hcap := h.capacity
  have hgrown := h.grown.moveFwd hp
  have hfilled : min (s.size+1) s.sz = ((v::w.elements).take w.capacity).length := by
    rw [List.length_take,List.length_cons,h.size,hcap,min_comm]
  obtain ⟨last,first,hlast,hfirst,hlt,rfl⟩ := moveFwd_some hp
  have hwrap : wrap (s.size+1) = s.size+1 := wrap_succ (by omega)
  refine ⟨hgrown,by simp only [Frame.advance,hwrap,hfilled,Window.update],hcap,fun i x hx => ?_⟩
  have hnext : s.advance.iterator < s.virtualBlocks := Nat.mod_lt _ (by omega)
  have hi : i < w.capacity := by
    obtain ⟨hi,-⟩ := List.getElem?_eq_some_iff.mp hx
    exact lt_of_lt_of_le hi (List.length_take_le _ _)
  simp only [Window.update] at hx
  rw [List.getElem?_take_of_lt hi] at hx
  rw [Nat.mod_eq_of_lt hnext,← Rotation.back_zero hnext] at hfirst
  change ((s.data.set last (f (s.data.get last))).set first v)[
    Rotation.back s.virtualBlocks s.advance.iterator i]? = some x
  cases i with
  | zero =>
    rw [← hfirst,List.getElem?_set_self (by simpa using hlt)]
    exact hx
  | succ j =>
    rw [List.getElem?_cons_succ] at hx
    have hj := h.lt_size hx
    have hit := h.iterator_lt (by omega)
    obtain ⟨n,hn,hback⟩ := h.grown.node_back hit (i:=s.sz-1)
      (z:=s.iterator+s.virtualBlocks-s.sz+1) (by omega) (by omega)
    obtain rfl := Option.some.inj (hn.symm.trans hlast)
    have hturn : s.advance.iterator = (s.iterator+1) % s.virtualBlocks := by
      simp only [Frame.advance]
      rw [wrap_succ (by omega)]
    rw [List.getElem?_set_ne,hturn,Rotation.back_next hit (by omega),List.getElem?_set_ne]
    · exact h.slots j x hx
    · rw [hback]
      exact Rotation.back_ne hit (by omega) (by omega) (by omega)
    · rw [hfirst]
      exact Rotation.back_ne hnext (by omega) (by omega) (Nat.succ_ne_zero j).symm

theorem copies (h : Shows s w) {n : ℕ} (hn : n ≤ s.size) (hlen : n ≤ 2^32) :
    s.copies n = some (w.elements.take n).reverse := by
  induction n with
  | zero => rfl
  | succ n ih =>
    have hlt : n < w.elements.length := by rw [← h.size]; omega
    have helement := h.element (by omega) (List.getElem?_eq_getElem hlt)
    obtain ⟨node,hnode,hget⟩ := Option.map_eq_some_iff.mp helement
    rw [Frame.copies,ih (by omega) (by omega),hnode,List.take_succ_eq_append_getElem hlt,
      List.reverse_append,Option.bind_some,Option.map_some,hget]
    rfl

end Shows

end

section

variable {α : Type} [Inhabited α] {lim : Limit} {s t : Frame α} {w : Window α}

/-- A larger frame has the elements behind its new iterator in the order they had. -/
theorem Shows.grow (h : Shows s w) {sz : UInt64} (hop : (Op.reserve (α:=α) sz true).grows lim s.sz)
    (hover : ¬(Op.reserve (α:=α) sz true).overflows) (hlen : w.elements.length ≤ 2^32)
    (ht : s.apply lim (.reserve sz true) = some t) : Shows t { w with capacity := sz.toNat } := by
  have hbound := h.grown.bound
  have hsize := h.grown.size
  have hlt := sz.toNat_lt
  have hgrown := grown_of_grows (Nat.lt_of_succ_lt hbound) hsize hop ht
  rw [if_neg hover] at hgrown
  obtain ⟨n,hn,hgrow,-,happly⟩ := apply_grows hop
  obtain ⟨rfl,-⟩ := Op.reserve.inj hn
  have hwrap : wrap (sz.toNat+1) = sz.toNat+1 :=
    wrap_succ (by have := mt overflows_iff.mpr hover; omega)
  have hcopies := h.copies le_rfl (h.size ▸ hlen)
  rw [h.size,List.take_length,← h.size] at hcopies
  rw [happly,count_eq (by omega),hcopies,Option.map_some] at ht
  obtain rfl := Option.some.inj ht
  refine ⟨hgrown,h.size,rfl,fun i v hv => ?_⟩
  have hi := h.lt_size hv
  have hit : wrap ((s.size : ℤ)-1) = s.size-1 := wrap_pred (by omega) (by omega)
  simp only [hwrap,hit]
  rw [Rotation.back_eq (by omega) (by omega),if_pos (by omega),
    resize_getElem? (by omega) (by rw [List.length_reverse,← h.size]; omega),
    List.getElem?_reverse (by rw [← h.size]; omega),← h.size]
  rw [show s.size-1-(s.size-1-i) = i by omega]
  exact hv

theorem Shows.reserve (h : Shows s w) {sz : UInt64} {room : Bool}
    (hop : Harmless lim (s,w) (.reserve sz room)) (ht : s.reserve lim sz.toNat room = some t) :
    Shows t (w.update lim (.reserve sz room)).1 := by
  have happly : s.apply lim (.reserve sz room) = some t := ht
  cases hgrows : (Op.reserve (α:=α) sz room).grows lim s.sz with
  | false =>
    rw [apply_reserve hgrows] at happly
    obtain rfl := Option.some.inj happly
    rw [h.capacity] at hgrows
    simpa only [Window.update,hgrows,Bool.false_eq_true,if_false] using h
  | true =>
    obtain ⟨hover,hlen⟩ := hop (h.capacity ▸ hgrows)
    obtain ⟨n,hn,-⟩ := apply_grows hgrows
    obtain ⟨rfl,rfl⟩ := Op.reserve.inj hn
    have hgrow := h.grow hgrows hover hlen happly
    rw [h.capacity] at hgrows
    simpa only [Window.update,hgrows,if_true] using hgrow

theorem Shows.update (h : Shows s w) {u : Update α} {o : Option α} (hu : Harmless lim (s,w) u)
    (ht : s.update lim u = some (t,o)) : Shows t (w.update lim u).1 := by
  cases u with
  | moveFwd f v =>
    obtain ⟨p,hp,hpt⟩ := Option.map_eq_some_iff.mp ht
    obtain rfl : p.1 = t := congrArg Prod.fst hpt
    exact h.moveFwd hp
  | reserve sz room =>
    obtain ⟨t,hreserve,hpt⟩ := Option.map_eq_some_iff.mp ht
    obtain rfl := congrArg Prod.fst hpt
    exact h.reserve hu hreserve

/-- A frame without slots or with one slot too few is none that owns its slots. -/
theorem grown_of_reachable (h : (calls α lim).Reachable s)
    (hslots : s.data.length = s.virtualBlocks ∧ s.virtualBlocks = s.sz+1) (hsz : s.sz < 2^32) :
    Grown s := by
  rcases phase_of_reachable h with ⟨cap,pos,hfresh⟩ | hgrown | hdead
  · have hlength := hfresh.length
    have hcap := hfresh.sz
    omega
  · exact hgrown
  · have hnone := hdead.sz
    omega

theorem shows_init {p : Frame α × Window α} (h : (growth α lim).init p) : Shows p.1 p.2 := by
  obtain ⟨hreach,hslots,⟨hsize,hsz⟩,hagrees⟩ := h
  have hgrown := grown_of_reachable hreach hslots hsz
  refine ⟨hgrown,hagrees.size,hagrees.capacity,fun i v hv => ?_⟩
  obtain ⟨hi,-⟩ := List.getElem?_eq_some_iff.mp hv
  have hlen := hagrees.size
  have hit : p.1.iterator < p.1.virtualBlocks := by
    rcases hgrown.placed with hlt | hempty
    · exact hlt
    · omega
  have helement := hagrees.get i (by omega) v hv
  obtain ⟨m,hm,hget⟩ := Option.map_eq_some_iff.mp helement
  obtain ⟨n,hn,hback⟩ := hgrown.node_back hit (i:=i) (by have := hgrown.blocks; omega) rfl
  rw [Frame.getFromFirst,Nat.mod_eq_of_lt (by omega),hn] at hm
  obtain rfl := Option.some.inj hm
  rw [← hback,List.getElem?_eq_getElem n.isLt]
  exact congrArg some hget

theorem shows_of_reachable {p : Frame α × Window α}
    (h : (growth α lim).ReachableBy (Harmless lim) p) : Shows p.1 p.2 := by
  refine TransitionSystem.ReachableBy.invariant (P:=fun p => Shows p.1 p.2)
    (fun _ => shows_init) (fun p u q hp hu hq => ?_) h
  obtain ⟨r,hr,rfl⟩ := Option.map_eq_some_iff.mp hq
  exact hp.update (o:=r.2) hu hr

theorem Shows.update_isSome (h : Shows s w) (lim : Limit) (u : Update α) : (s.update lim u).isSome := by
  cases u with
  | moveFwd f v =>
    have hsome := h.grown.apply_isSome lim (.moveFwd f v)
    rw [Frame.apply,Option.isSome_map] at hsome
    rw [Frame.update,Option.isSome_map]
    exact hsome
  | reserve sz room =>
    rw [Frame.update,Option.isSome_map]
    exact h.grown.apply_isSome lim (.reserve sz room)

/-- The callback of `move_fwd` is called with the oldest element of a full frame. -/
theorem Shows.handsOut (h : Shows s w) (u : Update α) : HandsOut lim s w u := by
  intro x hx
  cases u with
  | moveFwd f v =>
    simp only [Window.update] at hx
    split at hx
    · rename_i hfull
      obtain ⟨n,hn,hget⟩ := h.getLast hfull hx
      obtain ⟨p,hp⟩ := Option.isSome_iff_exists.mp (h.update_isSome lim (.moveFwd f v))
      obtain ⟨q,hq,rfl⟩ := Option.map_eq_some_iff.mp hp
      refine ⟨q.1,?_⟩
      obtain ⟨last,first,hlast,-,-,rfl⟩ := moveFwd_some hq
      obtain rfl := Option.some.inj (hn.symm.trans hlast)
      rw [hp,hget]
    · exact absurd hx (by simp)
  | reserve sz room => exact absurd hx (by simp [Window.update])

end

/-- A frame for one element that has grown to two before its first element. -/
def roomForTwo : Frame ℕ := ⟨[0,0,0],3,2^64-1,0,2⟩

def wideWindow : Frame ℕ × Window ℕ := (roomForTwo,⟨[],2⟩)

theorem init_wideWindow : (growth ℕ desktop).init wideWindow := by
  refine ⟨?_,by decide,by decide,rfl,rfl,fun i _ v hv => ?_⟩
  · exact .step (.init ⟨1,by decide,rfl⟩) trivial (e:=.reserve 2 true) rfl
  · simp [wideWindow] at hv

/-- The third element pushes the first one out, then there is room for one more. -/
def pushes : List (Update ℕ) := [.moveFwd id 7,.moveFwd id 8,.moveFwd id 9,.reserve 3 true]

def pushed : Frame ℕ × Window ℕ := (⟨[8,9,0,0],4,1,2,3⟩,⟨[9,8],3⟩)

theorem reachable_pushed : (growth ℕ desktop).ReachableBy (Harmless desktop) pushed := by
  have hallowed : (growth ℕ desktop).Allowed (Harmless desktop) wideWindow pushes := by decide
  exact .exec_allowed (.init init_wideWindow) hallowed rfl

/-- A frame with one element that is to grow to `2^64 - 1`. -/
def emptied : Frame ℕ × Window ℕ := (⟨[],0,0,1,2^64-1⟩,⟨[7],2^64-1⟩)

theorem reachable_emptied : (growth ℕ desktop).Reachable emptied := by
  have hexec : (growth ℕ desktop).exec wideWindow [.moveFwd id 7,.reserve 0xFFFFFFFFFFFFFFFF true] =
    some emptied := rfl
  exact .exec (fun _ _ _ => trivial) (.init init_wideWindow) hexec

end DynamicFrame
end SdkCp
