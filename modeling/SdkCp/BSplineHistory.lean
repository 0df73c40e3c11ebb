import SdkCp.BSplineSamples

/-! tools/b_spline.hpp: what the two frames hold after a history of points. A mark stands on the
newest elements and on no other slot. -/
namespace SdkCp
namespace BSpline

open StaticFrame (Capacity Frame slot slot_next slot_ne node_last node_slot_zero getFromFirst_slot
  wrap wrap_natCast)

section

variable {β : Type} {c : Capacity} {s : Frame (Info β) c} {l : List β}

/-- The slots of the list are marked, and no others. -/
structure Holds (s : Frame (Info β) c) (l : List β) : Prop where
  iterator : s.iterator < c.blocks
  bound : l.length ≤ c.SZ
  marked : ∀ i v, l[i]? = some v → s.data (slot c s.iterator i) = ⟨v,true⟩
  unmarked : ∀ i, i < c.blocks → l.length ≤ i → (s.data (slot c s.iterator i)).inited = false

theorem advance_iterator (v : Info β) (hit : s.iterator < c.blocks) :
    (advance s v).iterator = (s.iterator+1) % c.blocks := by
  have hmax : c.blocks < 2^63 := c.object
  have hwrap : wrap (s.iterator+1) = s.iterator+1 := wrap_natCast (n:=s.iterator+1) (by omega)
  simp only [advance,Frame.moveFwd,hwrap]

theorem advance_first (v : Info β) :
    (advance s v).data (slot c (advance s v).iterator 0) = v := by
  rw [← node_slot_zero]
  simp only [advance,Frame.moveFwd,Function.update_self]

/-- The others are one position further, and the last one has lost its mark. -/
theorem advance_next (v : Info β) (hit : s.iterator < c.blocks) {i : ℕ} (hi : i+1 < c.blocks) :
    (advance s v).data (slot c (advance s v).iterator (i+1)) =
      if i = c.SZ-1 then { s.data (slot c s.iterator i) with inited := false }
      else s.data (slot c s.iterator i) := by
  have hblocks : c.blocks = c.SZ+1 := rfl
  have hpos := c.pos
  have hnext : (s.iterator+1) % c.blocks < c.blocks := Nat.mod_lt _ (by omega)
  have hfront := slot_ne hnext (i:=i+1) (j:=0) hi (by omega) (Nat.succ_ne_zero i)
  have hdata : (advance s v).data = Function.update (Function.update s.data
      (slot c s.iterator (c.SZ-1)) { s.data (slot c s.iterator (c.SZ-1)) with inited := false })
      (Frame.node (advance s v).iterator) v := by
    simp only [advance,Frame.moveFwd,node_last hit]
  rw [hdata,node_slot_zero,advance_iterator v hit,Function.update_of_ne hfront,slot_next hit hi]
  split
  · rename_i hlast
    rw [hlast,Function.update_self]
  · rename_i hlast
    exact Function.update_of_ne (slot_ne hit (by omega) (by omega) hlast) _ _

theorem take_cons_take (v : β) (l : List β) (n : ℕ) : (v::l.take n).take n = (v::l).take n := by
  cases n with
  | zero => rfl
  | succ n => rw [List.take_succ_cons,List.take_succ_cons,List.take_take,min_eq_left n.le_succ]

theorem Holds.advance (h : Holds s l) (v : β) :
    Holds (advance s ⟨v,true⟩) ((v::l).take c.SZ) := by
  have hblocks : c.blocks = c.SZ+1 := rfl
  have hit := h.iterator
  refine ⟨?_,List.length_take_le _ _,fun i x hx => ?_,fun i hi hlen => ?_⟩
  · rw [advance_iterator _ hit]
    exact Nat.mod_lt _ (by omega)
  · have hi : i < c.SZ := by
      obtain ⟨hi,-⟩ := List.getElem?_eq_some_iff.mp hx
      exact lt_of_lt_of_le hi (List.length_take_le _ _)
    rw [List.getElem?_take_of_lt hi] at hx
    cases i with
    | zero =>
      rw [advance_first]
      exact congrArg (Info.mk · true) (Option.some.inj hx)
    | succ i =>
      rw [advance_next _ hit (by omega),if_neg (by omega)]
      exact h.marked i x hx
  · rw [List.length_take,List.length_cons] at hlen
    have hpos := c.pos
    cases i with
    | zero => omega
    | succ i =>
      rw [advance_next _ hit hi]
      split
      · rfl
      · exact h.unmarked i (by omega) (by omega)

theorem Holds.constructed (hit : s.iterator = 0) (hdata : ∀ n, (s.data n).inited = false) :
    Holds s [] := by
  refine ⟨by rw [hit]; exact Nat.succ_pos _,Nat.zero_le _,fun i v hv => ?_,fun i _ _ => hdata _⟩
  simp at hv

theorem Holds.mem (h : Holds s l) {n : Fin c.blocks} (hn : (s.data n).inited = true) :
    (s.data n).p ∈ l := by
  have hslot : slot c s.iterator (Rotation.back c.blocks s.iterator n) = n :=
    Fin.ext (Rotation.back_back h.iterator n.isLt)
  have hback : Rotation.back c.blocks s.iterator n < c.blocks := Rotation.back_lt h.iterator
  rw [← hslot] at hn ⊢
  rcases Nat.lt_or_ge (Rotation.back c.blocks s.iterator n) l.length with hlt | hge
  · rw [h.marked _ _ (List.getElem?_eq_getElem hlt)]
    exact List.getElem_mem hlt
  · rw [h.unmarked _ hback hge] at hn
    exact absurd hn Bool.noConfusion

theorem Holds.read_mem (h : Holds s l) {z : ℤ} (hz : (s.getFromFirst z).inited = true) :
    (s.getFromFirst z).p ∈ l := h.mem hz

theorem Holds.read (h : Holds s l) {i : ℕ} {v : β} (hv : l[i]? = some v) :
    s.getFromFirst i = ⟨v,true⟩ := by
  obtain ⟨hi,-⟩ := List.getElem?_eq_some_iff.mp hv
  have hbound := h.bound
  have hblocks : c.blocks = c.SZ+1 := rfl
  rw [getFromFirst_slot h.iterator (by omega),h.marked i v hv]

theorem Holds.read_unmarked (h : Holds s l) {i : ℕ} (hi : i < c.blocks) (hlen : l.length ≤ i) :
    (s.getFromFirst i).inited = false := by
  rw [getFromFirst_slot h.iterator hi]
  exact h.unmarked i hi hlen

end

section

variable {c : Params} {s : Spline c} {history : List Point} {x : ℚ}

/-- The frames hold the newest points and the newest segments. -/
structure Tracks (s : Spline c) (history : List Point) : Prop where
  points : Holds s.pointContainer (history.take c.numPts)
  segments : Holds s.segmentContainer ((segmentsOf c.discreteCount history).take c.numSeg)

theorem tracks_constructed (hs : Constructed s) : Tracks s [] := by
  obtain ⟨⟨hit,-,hdata⟩,hit',-,hdata'⟩ := hs
  exact ⟨by simpa using Holds.constructed hit hdata,
    by simpa [segmentsOf] using Holds.constructed hit' hdata'⟩

theorem addPoint_of_unmarked {p : Point}
    (h : ((advance s.pointContainer ⟨p,true⟩).getFromFirst 3).inited = false) :
    s.addPoint p = { s with pointContainer := advance s.pointContainer ⟨p,true⟩ } := by
  simp only [Spline.addPoint,h,Bool.not_false,Bool.or_true,if_true]

theorem addPoint_of_marked {p p0 p1 p2 p3 : Point}
    (h3 : (advance s.pointContainer ⟨p,true⟩).getFromFirst 0 = ⟨p3,true⟩)
    (h2 : (advance s.pointContainer ⟨p,true⟩).getFromFirst 1 = ⟨p2,true⟩)
    (h1 : (advance s.pointContainer ⟨p,true⟩).getFromFirst 2 = ⟨p1,true⟩)
    (h0 : (advance s.pointContainer ⟨p,true⟩).getFromFirst 3 = ⟨p0,true⟩) :
    s.addPoint p = { pointContainer := advance s.pointContainer ⟨p,true⟩
                     segmentContainer := advance s.segmentContainer
                       ⟨samples c.discreteCount p0 p1 p2 p3,true⟩ } := by
  simp only [Spline.addPoint,h0,h1,h2,h3,Bool.not_true,Bool.or_self,Bool.false_eq_true,if_false]

theorem Tracks.addPoint (h : Tracks s history) (p : Point) :
    Tracks (s.addPoint p) (p::history) := by
  have hnum := c.four_lt
  have hpts := h.points.advance p
  rw [show c.points.SZ = c.numPts from rfl,take_cons_take] at hpts
  rcases Nat.lt_or_ge history.length 3 with hfew | hmany
  · have hlen : ((p::history).take c.numPts).length ≤ 3 :=
      (List.length_take_le' _ _).trans (by rw [List.length_cons]; omega)
    have hblocks : 3 < c.points.blocks := show 3 < c.numPts+1 by omega
    rw [addPoint_of_unmarked (hpts.read_unmarked (i:=3) hblocks hlen)]
    refine ⟨hpts,?_⟩
    have hnone : ∀ l : List Point, l.length ≤ 3 → segmentsOf c.discreteCount l = [] := fun l hl =>
      List.length_eq_zero_iff.mp (by rw [length_segmentsOf]; omega)
    have hsegs := h.segments
    rw [hnone history (by omega)] at hsegs
    rwa [hnone (p::history) (by rw [List.length_cons]; omega)]
  · obtain _ | ⟨p2,_ | ⟨p1,_ | ⟨p0,older⟩⟩⟩ := history
    · exact absurd hmany (by simp)
    · exact absurd hmany (by simp)
    · exact absurd hmany (by simp)
    have hread : ∀ (i : ℕ) v, i < 4 → (p::p2::p1::p0::older)[i]? = some v →
        (advance s.pointContainer ⟨p,true⟩).getFromFirst i = ⟨v,true⟩ := fun i v hi hv =>
      hpts.read (by rwa [List.getElem?_take_of_lt (by omega)])
    have hadd := addPoint_of_marked (s:=s) (hread 0 p (by decide) rfl) (hread 1 p2 (by decide) rfl)
      (hread 2 p1 (by decide) rfl) (hread 3 p0 (by decide) rfl)
    have hsegs := h.segments.advance (samples c.discreteCount p0 p1 p2 p)
    rw [show c.segments.SZ = c.numSeg from rfl,take_cons_take] at hsegs
    rw [hadd]
    exact ⟨hpts,hsegs⟩

theorem tracks_addAll (h : Tracks s history) (pts : List Point) :
    Tracks (s.addAll pts) (pts.reverse ++ history) := by
  induction pts generalizing s history with
  | nil => exact h
  | cons p pts ih =>
    have hnext := ih (h.addPoint p)
    rw [List.reverse_cons,List.append_assoc]
    exact hnext

end
end BSpline
end SdkCp
