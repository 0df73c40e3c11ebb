import SdkCp.DynamicFrame

/-! tools/dynamic_frame.hpp: which sequences of calls keep to `_data`. The slots of a new frame
are counted from its cursor, which each `move_fwd` turns on and each `move_bck` turns back. -/
namespace SdkCp
namespace DynamicFrame

open StaticFrame (wrap wrap_natCast)

section

variable {α : Type} {lim : Limit}

/-- How far a call turns the cursor. -/
def Op.turn : Op α → ℤ
  | .moveFwd _ _ => 1
  | .moveBck _ => -1
  | _ => 0

/-- The positions of the slots that a call uses in a frame as it was constructed, where the
cursor is at `pos`. -/
def Op.positions (pos : ℤ) : Op α → List ℤ
  | .moveFwd _ _ => [pos+2,pos+1]
  | .moveBck _ => [pos]
  | .reserve _ _ => []
  | .getFirst => [pos]
  | .getLast => [pos+2]
  | .getFromFirst i => [pos-(i % 2^32 : ℕ)]

/-- Not the slot that the constructor counts and does not allocate. -/
def Allocated (cap : ℕ) (q : ℤ) : Prop := q % (cap+1) ≠ cap

/-- A `reserve` that allocates. -/
def Op.grows (lim : Limit) (cap : ℕ) : Op α → Bool
  | .reserve sz room => decide (cap < sz.toNat) && decide (wrap (sz.toNat+1) ≤ lim.maxSize) && room
  | _ => false

/-- `sz + 1` is zero, and so is the number of slots. -/
def Op.overflows : Op α → Bool
  | .reserve sz room => decide (sz.toNat+1 = 2^64) && room
  | _ => false

def Op.isReserve : Op α → Bool
  | .reserve _ _ => true
  | _ => false

/-- Once the frame has grown only a `reserve` for `2^64 - 1` elements leaves it without slots. -/
def Roomy : List (Op α) → Prop
  | [] => True
  | op::ops => if op.overflows then ∀ later ∈ ops, later.isReserve else Roomy ops

/-- Until it grows no call comes to the slot that is missing. -/
def Clear (lim : Limit) (cap : ℕ) : ℤ → List (Op α) → Prop
  | _, [] => True
  | pos, op::ops =>
    if op.grows lim cap then Roomy (op::ops)
    else (∀ q ∈ op.positions pos, Allocated cap q) ∧ Clear lim cap (pos+op.turn) ops

theorem overflows_iff {sz : UInt64} : (Op.reserve (α:=α) sz true).overflows ↔ sz.toNat+1 = 2^64 := by
  simp [Op.overflows]

theorem grows_of_overflows {cap : ℕ} {op : Op α} (h : op.overflows) (hcap : cap < 2^63) :
    op.grows lim cap := by
  cases op with
  | reserve sz room =>
    simp only [Op.overflows,Bool.and_eq_true,decide_eq_true_eq] at h
    simp only [Op.grows,Bool.and_eq_true,decide_eq_true_eq]
    refine ⟨⟨by omega,?_⟩,h.2⟩
    have hzero : wrap (((sz.toNat : ℕ) : ℤ)+1) = 0 := by
      rw [show ((sz.toNat : ℕ) : ℤ)+1 = 2^64 by exact_mod_cast h.1]
      rfl
    rw [hzero]
    exact Nat.zero_le _
  | _ => exact absurd h Bool.noConfusion

variable {s t : Frame α}

theorem node_isSome {it : ℕ} :
    (s.node it).isSome ↔ 0 < s.virtualBlocks ∧ it % s.virtualBlocks < s.data.length := by
  rw [Frame.node]
  split <;> simp_all

theorem bind_isSome {β γ : Type} {o : Option β} {f : β → γ} :
    (o.bind fun b => some (f b)).isSome ↔ o.isSome := by
  cases o <;> simp

theorem moveFwd_isSome {f : α → α} {v : α} :
    (s.moveFwd f v).isSome ↔ s.getLast.isSome ∧ (s.node s.advance.iterator).isSome := by
  cases hlast : s.getLast with
  | none => simp [Frame.moveFwd,hlast]
  | some last =>
    simp only [Frame.moveFwd,hlast,Option.bind_some,bind_isSome,Frame.getFirst,Frame.advance,
      Option.isSome_some,true_and]
    rw [node_isSome,node_isSome]
    simp only [List.length_set]

theorem node_some {it : ℕ} {n : Fin s.data.length} (h : s.node it = some n) :
    n.val = it % s.virtualBlocks := by
  rw [Frame.node] at h
  split at h
  · rw [← Option.some.inj h]
  · exact absurd h (by simp)

/-- `move_fwd` writes to the last slot and to the one that is in front afterwards. -/
theorem moveFwd_some {f : α → α} {v : α} {p : Frame α × α} (h : s.moveFwd f v = some p) :
    ∃ (last : Fin s.data.length) (first : ℕ), s.getLast = some last ∧
      first = s.advance.iterator % s.virtualBlocks ∧ first < s.data.length ∧
      p = ({ s.advance with data := (s.data.set last (f (s.data.get last))).set first v },
        s.data.get last) := by
  obtain ⟨last,hlast,h⟩ := Option.bind_eq_some_iff.mp h
  obtain ⟨first,hfirst,h⟩ := Option.bind_eq_some_iff.mp h
  have hlt := first.isLt
  simp only [Frame.advance,List.length_set] at hlt
  exact ⟨last,first,hlast,node_some hfirst,hlt,(Option.some.inj h).symm⟩

theorem moveBck_some {f : α → α} {p : Frame α × α} (h : s.moveBck f = some p) :
    p.1 = { s with
      data := p.1.data
      iterator := wrap (s.iterator+s.virtualBlocks-1) % s.virtualBlocks
      size := 0 } ∧ p.1.data.length = s.data.length := by
  obtain ⟨first,-,h⟩ := Option.bind_eq_some_iff.mp h
  obtain rfl := Option.some.inj h
  exact ⟨by simp,List.length_set⟩

theorem copies_isSome {n : ℕ} (h : ∀ i < n, (s.getFromFirst i).isSome) : (s.copies n).isSome := by
  induction n with
  | zero => rfl
  | succ n ih =>
    obtain ⟨node,hnode⟩ := Option.isSome_iff_exists.mp (h n n.lt_succ_self)
    obtain ⟨tmp,htmp⟩ := Option.isSome_iff_exists.mp (ih fun i hi => h i (by omega))
    rw [Frame.copies,hnode,htmp]
    rfl

theorem count_eq (h : s.size < 2^63) : s.count = s.size := by
  rw [Frame.count]
  rcases Nat.eq_zero_or_pos s.size with hzero | hpos
  · rw [hzero]
    rfl
  · rw [wrap_pred hpos (by omega),toInt64,if_pos (by omega)]
    omega

/-- The slots at the positions of the elements are there. -/
structure Fresh (cap : ℕ) (pos : ℤ) (s : Frame α) : Prop where
  bound : cap < 2^63
  length : s.data.length = cap
  blocks : s.virtualBlocks = cap+1
  sz : s.sz = cap
  lt : s.iterator < cap+1
  cursor : s.iterator ≡ pos [ZMOD cap+1]
  size : s.size ≤ cap
  used : ∀ i : ℕ, i < s.size → Allocated cap (pos-i)

namespace Fresh

variable {cap : ℕ} {pos : ℤ}

theorem node_isSome (h : Fresh cap pos s) {it : ℕ} {q : ℤ} (hq : it ≡ q [ZMOD cap+1]) :
    (s.node it).isSome ↔ Allocated cap q := by
  rw [DynamicFrame.node_isSome,h.blocks,h.length,Allocated,← hq]
  have hlt : it % (cap+1) < cap+1 := Nat.mod_lt _ (by omega)
  have hcast : ((it : ℤ) % (cap+1)) = ((it % (cap+1) : ℕ) : ℤ) := by push_cast; rfl
  rw [hcast]
  omega

theorem node_shift (h : Fresh cap pos s) {z k : ℤ} (hz : z ≡ s.iterator+k [ZMOD cap+1])
    (hlow : 0 ≤ z) (hhigh : z < 2^64) : (s.node (wrap z)).isSome ↔ Allocated cap (pos+k) := by
  refine h.node_isSome ?_
  have hwrap : ((wrap z : ℕ) : ℤ) = z := by
    rw [wrap,Int.toNat_of_nonneg (Int.emod_nonneg _ (by decide)),Int.emod_eq_of_lt hlow hhigh]
  rw [hwrap]
  exact hz.trans (h.cursor.add_right k)

theorem getFirst_isSome (h : Fresh cap pos s) : s.getFirst.isSome ↔ Allocated cap pos :=
  h.node_isSome h.cursor

theorem getLast_isSome (h : Fresh cap pos s) : s.getLast.isSome ↔ Allocated cap (pos+2) := by
  have hbound := h.bound
  have hblocks := h.blocks
  have hlt := h.lt
  have hsz := h.sz
  have hz : (s.iterator : ℤ)+s.virtualBlocks-s.sz+1 = s.iterator+2 := by omega
  exact h.node_shift (by rw [hz]) (by omega) (by omega)

theorem getFromFirst_isSome (h : Fresh cap pos s) {i : ℕ} (hi : i < cap) :
    (s.getFromFirst i).isSome ↔ Allocated cap (pos-(i % 2^32 : ℕ)) := by
  have hbound := h.bound
  have hblocks := h.blocks
  have hlt := h.lt
  have hle : i % 2^32 ≤ i := Nat.mod_le _ _
  rw [Frame.getFromFirst,sub_eq_add_neg pos]
  refine h.node_shift (Int.modEq_iff_dvd.mpr ⟨-1,?_⟩) (by omega) (by omega)
  rw [hblocks]
  push_cast
  ring

theorem advance_isSome (h : Fresh cap pos s) :
    (s.node s.advance.iterator).isSome ↔ Allocated cap (pos+1) := by
  have hbound := h.bound
  have hblocks := h.blocks
  have hlt := h.lt
  refine h.node_isSome ?_
  have hwrap : wrap (s.iterator+1) = s.iterator+1 := wrap_succ (by omega)
  simp only [Frame.advance,hwrap,h.blocks]
  push_cast
  exact (Int.mod_modEq _ _).trans (h.cursor.add_right 1)

theorem moveFwd (h : Fresh cap pos s) {f : α → α} {v : α} {p : Frame α × α}
    (hp : s.moveFwd f v = some p) : Fresh cap (pos+1) p.1 := by
  have hbound := h.bound
  have hlt := h.lt
  have hsize := h.size
  have hsome : (s.moveFwd f v).isSome := by rw [hp]; rfl
  have hfirst := h.advance_isSome.mp (moveFwd_isSome.mp hsome).2
  have hwrap : wrap (s.iterator+1) = s.iterator+1 := wrap_succ (by omega)
  have hcount : wrap (s.size+1) = s.size+1 := wrap_succ (by omega)
  obtain ⟨last,first,-,-,-,rfl⟩ := moveFwd_some hp
  simp only [Frame.advance,hwrap,hcount]
  refine ⟨hbound,by simpa using h.length,h.blocks,h.sz,?_,?_,?_,?_⟩
  · rw [h.blocks]
    exact Nat.mod_lt _ (by omega)
  · rw [h.blocks]
    push_cast
    exact (Int.mod_modEq _ _).trans (h.cursor.add_right 1)
  · rw [h.sz]
    exact min_le_right _ _
  · intro i hi
    have hi : i < min (s.size+1) s.sz := hi
    cases i with
    | zero => simpa using hfirst
    | succ i =>
      have hused := h.used i (by omega)
      rwa [show pos+1-((i+1 : ℕ) : ℤ) = pos-i by push_cast; ring]

theorem moveBck (h : Fresh cap pos s) {f : α → α} {p : Frame α × α}
    (hp : s.moveBck f = some p) : Fresh cap (pos-1) p.1 := by
  have hbound := h.bound
  have hlt := h.lt
  obtain ⟨heq,hlength⟩ := moveBck_some hp
  have hwrap : wrap (s.iterator+(cap+1 : ℕ)-1) = s.iterator+cap := by
    rw [show ((s.iterator : ℕ) : ℤ)+(cap+1 : ℕ)-1 = ((s.iterator+cap : ℕ) : ℤ) by push_cast; ring]
    exact wrap_natCast (by omega)
  rw [heq]
  simp only [h.blocks,hwrap]
  refine ⟨hbound,hlength.trans h.length,rfl,h.sz,Nat.mod_lt _ (by omega),?_,Nat.zero_le _,
    fun i hi => absurd hi (Nat.not_lt_zero i)⟩
  push_cast
  refine (Int.mod_modEq _ _).trans ?_
  obtain ⟨c,hc⟩ := Int.modEq_iff_dvd.mp h.cursor
  exact Int.modEq_iff_dvd.mpr ⟨c-1,by linear_combination hc⟩

theorem copies (h : Fresh cap pos s) : ∃ tmp, s.copies s.count = some tmp := by
  have hbound := h.bound
  have hsize := h.size
  rw [count_eq (by omega)]
  refine Option.isSome_iff_exists.mp (copies_isSome fun i hi => ?_)
  have hle : i % 2^32 ≤ i := Nat.mod_le _ _
  exact (h.getFromFirst_isSome (by omega)).mpr (h.used _ (by omega))

end Fresh

/-- Every slot that is counted is there; an empty frame may have its iterator in front of
slot 0. -/
structure Grown (s : Frame α) : Prop where
  length : s.data.length = s.virtualBlocks
  blocks : s.virtualBlocks = s.sz+1
  bound : s.sz+1 < 2^63
  size : s.size ≤ s.sz
  placed : s.iterator < s.virtualBlocks ∨ s.iterator+1 = 2^64 ∧ s.size = 0

/-- A frame without slots. -/
structure Dead (s : Frame α) : Prop where
  blocks : s.virtualBlocks = 0
  sz : s.sz+1 = 2^64

namespace Grown

theorem node (h : Grown s) (it : ℕ) : (s.node it).isSome := by
  have hblocks := h.blocks
  rw [node_isSome,h.length]
  exact ⟨by omega,Nat.mod_lt _ (by omega)⟩

theorem moveFwd (h : Grown s) {f : α → α} {v : α} {p : Frame α × α}
    (hp : s.moveFwd f v = some p) : Grown p.1 := by
  have hblocks := h.blocks
  obtain ⟨last,first,-,-,-,rfl⟩ := moveFwd_some hp
  exact ⟨by simpa [Frame.advance] using h.length,h.blocks,h.bound,min_le_right _ _,
    .inl (Nat.mod_lt _ (by omega))⟩

theorem moveBck (h : Grown s) {f : α → α} {p : Frame α × α} (hp : s.moveBck f = some p) :
    Grown p.1 := by
  have hblocks := h.blocks
  obtain ⟨heq,hlength⟩ := moveBck_some hp
  rw [heq]
  exact ⟨hlength.trans h.length,h.blocks,h.bound,Nat.zero_le _,.inl (Nat.mod_lt _ (by omega))⟩

end Grown

end

section

variable {α : Type} [Inhabited α] {lim : Limit} {s t : Frame α}

theorem apply_reserve {sz : UInt64} {room : Bool} (h : (Op.reserve (α:=α) sz room).grows lim s.sz = false) :
    s.apply lim (.reserve sz room) = some s := by
  simp only [Frame.apply,Frame.reserve]
  split_ifs with hsz hroom
  · rw [Op.grows,decide_eq_true hsz,decide_eq_true hroom.1,hroom.2] at h
    exact absurd h Bool.noConfusion
  · rfl
  · rfl

theorem apply_grows {op : Op α} (h : op.grows lim s.sz) : ∃ sz : UInt64, op = .reserve sz true ∧
    s.sz < sz.toNat ∧ wrap (sz.toNat+1) ≤ lim.maxSize ∧
    s.apply lim op = (s.copies s.count).map fun tmp =>
      { s with
        data := resize tmp (wrap (sz.toNat+1))
        virtualBlocks := wrap (sz.toNat+1)
        iterator := wrap (s.size-1)
        sz := sz.toNat } := by
  cases op with
  | reserve sz room =>
    simp only [Op.grows,Bool.and_eq_true,decide_eq_true_eq] at h
    obtain ⟨⟨hgrow,hroom⟩,rfl⟩ := h
    refine ⟨sz,rfl,hgrow,hroom,?_⟩
    rw [Frame.apply,Frame.reserve,if_pos hgrow,if_pos ⟨hroom,rfl⟩]
  | _ => exact absurd h Bool.noConfusion

namespace Fresh

variable {cap : ℕ} {pos : ℤ}

theorem apply_isSome (h : Fresh cap pos s) {op : Op α} (hop : op.grows lim cap = false)
    (hcalled : Called s op) :
    (s.apply lim op).isSome ↔ ∀ q ∈ op.positions pos, Allocated cap q := by
  cases op with
  | moveFwd f v =>
    simp only [Frame.apply,Option.isSome_map,moveFwd_isSome,h.getLast_isSome,h.advance_isSome,
      Op.positions,List.forall_mem_cons,List.not_mem_nil,false_imp_iff,implies_true,and_true]
  | moveBck f =>
    simp only [Frame.apply,Frame.moveBck,Option.isSome_map,bind_isSome,h.getFirst_isSome,
      Op.positions,List.forall_mem_cons,List.not_mem_nil,false_imp_iff,implies_true,and_true]
  | reserve sz room =>
    rw [apply_reserve (h.sz ▸ hop)]
    simp [Op.positions]
  | getFirst => simp [Frame.apply,h.getFirst_isSome,Op.positions]
  | getLast => simp [Frame.apply,h.getLast_isSome,Op.positions]
  | getFromFirst i =>
    have hi : i < cap := h.sz ▸ hcalled
    simp [Frame.apply,h.getFromFirst_isSome hi,Op.positions]

theorem apply (h : Fresh cap pos s) {op : Op α} (hop : op.grows lim cap = false)
    (ht : s.apply lim op = some t) : Fresh cap (pos+op.turn) t := by
  cases op with
  | moveFwd f v =>
    obtain ⟨p,hp,rfl⟩ := Option.map_eq_some_iff.mp ht
    exact h.moveFwd hp
  | moveBck f =>
    obtain ⟨p,hp,rfl⟩ := Option.map_eq_some_iff.mp ht
    exact h.moveBck hp
  | reserve sz room =>
    rw [apply_reserve (h.sz ▸ hop)] at ht
    obtain rfl := Option.some.inj ht
    simpa [Op.turn] using h
  | _ =>
    obtain ⟨n,-,rfl⟩ := Option.map_eq_some_iff.mp ht
    simpa [Op.turn] using h

end Fresh

theorem fresh_create {cap : ℕ} (hcap : cap ≤ lim.maxSize) :
    Fresh cap 0 (Frame.create (α:=α) cap) := by
  have hbound := lim.bound
  refine ⟨by omega,List.takeD_length _ _ _,?_,rfl,?_,Int.ModEq.refl _,Nat.zero_le _,
    fun i hi => absurd hi (Nat.not_lt_zero i)⟩
  · exact wrap_succ (by omega)
  · exact Nat.succ_pos _

theorem grown_of_grows {op : Op α} (hbound : s.sz < 2^63) (hsize : s.size ≤ s.sz)
    (hop : op.grows lim s.sz) (ht : s.apply lim op = some t) :
    if op.overflows then Dead t else Grown t := by
  have hmax := lim.bound
  obtain ⟨sz,rfl,hgrow,hroom,happly⟩ := apply_grows hop
  rw [happly] at ht
  obtain ⟨tmp,-,rfl⟩ := Option.map_eq_some_iff.mp ht
  have hlt := sz.toNat_lt
  split
  · rename_i h
    have hsz := overflows_iff.mp h
    refine ⟨?_,hsz⟩
    rw [show ((sz.toNat : ℕ) : ℤ)+1 = 2^64 by exact_mod_cast hsz]
    rfl
  · rename_i h
    have hsz : sz.toNat+1 ≠ 2^64 := fun hsz => h (overflows_iff.mpr hsz)
    have hwrap : wrap (sz.toNat+1) = sz.toNat+1 := wrap_succ (by omega)
    rw [hwrap] at hroom
    refine ⟨List.takeD_length _ _ _,hwrap,hroom.trans_lt lim.bound,hsize.trans hgrow.le,?_⟩
    simp only [hwrap]
    rcases Nat.eq_zero_or_pos s.size with hzero | hpos
    · right
      exact ⟨by rw [hzero]; rfl,hzero⟩
    · left
      rw [wrap_pred hpos (by omega)]
      omega

namespace Grown

theorem apply_isSome (h : Grown s) (lim : Limit) (op : Op α) : (s.apply lim op).isSome := by
  cases op with
  | moveFwd f v =>
    rw [Frame.apply,Option.isSome_map,moveFwd_isSome]
    exact ⟨h.node _,h.node _⟩
  | moveBck f =>
    rw [Frame.apply,Option.isSome_map,Frame.moveBck,bind_isSome]
    exact h.node _
  | reserve sz room =>
    cases hgrows : (Op.reserve (α:=α) sz room).grows lim s.sz with
    | false => rw [apply_reserve hgrows]; rfl
    | true =>
      obtain ⟨n,-,-,-,happly⟩ := apply_grows hgrows
      rw [happly,Option.isSome_map]
      exact copies_isSome fun i _ => h.node _
  | getFirst => exact (Option.isSome_map ..).trans (h.node _)
  | getLast => exact (Option.isSome_map ..).trans (h.node _)
  | getFromFirst i => exact (Option.isSome_map ..).trans (h.node _)

theorem apply (h : Grown s) {op : Op α} (ht : s.apply lim op = some t) :
    if op.overflows then Dead t else Grown t := by
  have hbound : s.sz < 2^63 := Nat.lt_of_succ_lt h.bound
  cases hgrows : op.grows lim s.sz with
  | true => exact grown_of_grows hbound h.size hgrows ht
  | false =>
    have hover : ¬op.overflows := fun hover => by
      rw [grows_of_overflows hover hbound] at hgrows
      exact absurd hgrows Bool.noConfusion
    rw [if_neg hover]
    cases op with
    | moveFwd f v =>
      obtain ⟨p,hp,rfl⟩ := Option.map_eq_some_iff.mp ht
      exact h.moveFwd hp
    | moveBck f =>
      obtain ⟨p,hp,rfl⟩ := Option.map_eq_some_iff.mp ht
      exact h.moveBck hp
    | reserve sz room =>
      rw [apply_reserve hgrows] at ht
      exact Option.some.inj ht ▸ h
    | _ =>
      obtain ⟨n,-,rfl⟩ := Option.map_eq_some_iff.mp ht
      exact h

end Grown

theorem Dead.apply (h : Dead s) (lim : Limit) (op : Op α) :
    s.apply lim op = if op.isReserve then some s else none := by
  have hnone : ∀ it, s.node it = none := fun it => by
    rw [← Option.not_isSome_iff_eq_none,node_isSome,h.blocks]
    exact fun hnode => absurd hnode.1 (lt_irrefl 0)
  cases op with
  | reserve sz room =>
    have hsz := h.sz
    have hlt := sz.toNat_lt
    rw [apply_reserve]
    · rfl
    · simp only [Op.grows,Bool.and_eq_false_iff,decide_eq_false_iff_not]
      exact .inl (.inl (by omega))
  | moveFwd f v => rw [Frame.apply,Frame.moveFwd,Frame.getLast,hnone]; rfl
  | moveBck f => rw [Frame.apply,Frame.moveBck,Frame.getFirst,hnone]; rfl
  | getFirst => rw [Frame.apply,Frame.getFirst,hnone]; rfl
  | getLast => rw [Frame.apply,Frame.getLast,hnone]; rfl
  | getFromFirst i => rw [Frame.apply,Frame.getFromFirst,hnone]; rfl

/-- What a frame can be. -/
def Phase (s : Frame α) : Prop := (∃ cap pos, Fresh cap pos s) ∨ Grown s ∨ Dead s

omit [Inhabited α] in
theorem phase_of_grows {op : Op α} (h : if op.overflows then Dead t else Grown t) : Phase t := by
  split_ifs at h
  · exact .inr (.inr h)
  · exact .inr (.inl h)

theorem phase_step {op : Op α} (h : Phase s) (ht : s.apply lim op = some t) : Phase t := by
  rcases h with ⟨cap,pos,hfresh⟩ | hgrown | hdead
  · cases hgrows : op.grows lim cap with
    | true =>
      have hsize := hfresh.size.trans_eq hfresh.sz.symm
      exact phase_of_grows (grown_of_grows (hfresh.sz ▸ hfresh.bound) hsize (hfresh.sz ▸ hgrows) ht)
    | false => exact .inl ⟨cap,pos+op.turn,hfresh.apply hgrows ht⟩
  · exact phase_of_grows (hgrown.apply ht)
  · rw [hdead.apply] at ht
    split_ifs at ht
    exact .inr (.inr (Option.some.inj ht ▸ hdead))

theorem phase_of_reachable (h : (calls α lim).Reachable s) : Phase s := by
  refine TransitionSystem.ReachableBy.invariant (P:=Phase) (fun s hs => ?_)
    (fun s op t hs _ ht => phase_step hs ht) h
  obtain ⟨cap,hcap,rfl⟩ := hs
  exact .inl ⟨cap,0,fresh_create hcap⟩

theorem exec_cons {op : Op α} {ops : List (Op α)} (hs : s.apply lim op = some t) :
    (calls α lim).exec s (op::ops) = (calls α lim).exec t ops := by
  rw [TransitionSystem.exec,show (calls α lim).step s op = some t from hs,Option.bind_some]

theorem Dead.exec_isSome (h : Dead s) {ops : List (Op α)} :
    ((calls α lim).exec s ops).isSome ↔ ∀ op ∈ ops, op.isReserve := by
  induction ops with
  | nil => simp [TransitionSystem.exec]
  | cons op ops ih =>
    rw [List.forall_mem_cons]
    have happly := h.apply lim op
    cases hop : op.isReserve with
    | true =>
      rw [hop,if_pos rfl] at happly
      rw [exec_cons happly,ih]
      simp
    | false =>
      rw [hop,if_neg Bool.false_ne_true] at happly
      rw [TransitionSystem.exec,show (calls α lim).step s op = none from happly]
      simp

theorem Grown.exec_isSome (h : Grown s) {ops : List (Op α)} :
    ((calls α lim).exec s ops).isSome ↔ Roomy ops := by
  induction ops generalizing s with
  | nil => simp [TransitionSystem.exec,Roomy]
  | cons op ops ih =>
    obtain ⟨t,ht⟩ := Option.isSome_iff_exists.mp (h.apply_isSome lim op)
    have hnext := h.apply ht
    rw [exec_cons ht,Roomy]
    split_ifs at hnext ⊢
    · exact hnext.exec_isSome
    · exact ih hnext

theorem Fresh.exec_isSome {cap : ℕ} {pos : ℤ} (h : Fresh cap pos s) {ops : List (Op α)}
    (hcalled : (calls α lim).Allowed Called s ops) :
    ((calls α lim).exec s ops).isSome ↔ Clear lim cap pos ops := by
  induction ops generalizing s pos with
  | nil => simp [TransitionSystem.exec,Clear]
  | cons op ops ih =>
    rw [Clear]
    cases hgrows : op.grows lim cap with
    | true =>
      rw [← h.sz] at hgrows
      obtain ⟨sz,-,-,-,happly⟩ := apply_grows hgrows
      obtain ⟨tmp,htmp⟩ := h.copies
      rw [htmp,Option.map_some] at happly
      have hnext := grown_of_grows (h.sz ▸ h.bound) (h.size.trans_eq h.sz.symm) hgrows happly
      rw [exec_cons happly,if_pos rfl,Roomy]
      split_ifs at hnext ⊢
      · exact hnext.exec_isSome
      · exact hnext.exec_isSome
    | false =>
      have hsafe := h.apply_isSome hgrows hcalled.1
      rw [if_neg Bool.false_ne_true,← hsafe]
      cases happly : s.apply lim op with
      | none =>
        rw [TransitionSystem.exec,show (calls α lim).step s op = none from happly]
        simp
      | some t =>
        rw [exec_cons happly,ih (h.apply hgrows happly) (hcalled.2 t happly)]
        simp

/-- A sequence of calls uses only slots that are in `_data` if and only if it does not come to
the slot that the constructor leaves out, and does not go on after a `reserve` for `2^64 - 1`
elements. -/
theorem exec_create_isSome_iff {cap : ℕ} (hcap : cap ≤ lim.maxSize) {ops : List (Op α)}
    (hcalled : (calls α lim).Allowed Called (Frame.create cap) ops) :
    ((calls α lim).exec (Frame.create cap) ops).isSome ↔ Clear lim cap 0 ops :=
  (fresh_create hcap).exec_isSome hcalled

end

def desktop : Limit := ⟨2^61,by norm_num⟩

/-- A frame for one element that grows before it is used. -/
def grownFirst : List (Op ℕ) := [.reserve 2 true,.moveFwd id 7,.getFromFirst 0]

theorem exec_grownFirst_isSome_iff :
    ((calls ℕ desktop).exec (.create 1) grownFirst).isSome ↔ Clear desktop 1 0 grownFirst :=
  exec_create_isSome_iff (by decide) (by decide)

/-- The first `move_fwd` of a new frame for one element stores behind the vector. -/
theorem not_exec_create_isSome : ¬∀ (lim : Limit) (cap : ℕ) (ops : List (Op ℕ)), 1 ≤ cap →
    cap ≤ lim.maxSize → (calls ℕ lim).Allowed Called (.create cap) ops →
    ((calls ℕ lim).exec (.create cap) ops).isSome := by
  intro h
  have hrun := h desktop 1 [.moveFwd id 7] le_rfl (by decide) (by decide)
  exact absurd hrun (by decide)

end DynamicFrame
end SdkCp
