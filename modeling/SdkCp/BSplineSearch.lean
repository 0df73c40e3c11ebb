import SdkCp.BSplineHistory

/-! tools/b_spline.hpp: what `get_point` finds among the segments that are retained. -/
namespace SdkCp
namespace BSpline

open StaticFrame (Capacity Frame node_add_blocks toInt toInt_natCast wrap wrap_natCast)
open LowerBound (lowerBound lowerBound_spec)

section

variable {count : ℕ} {p : Fin count → Point} {x : ℚ}

/-- The first sample that is not in front of `x`. -/
def firstNotBelow (p : Fin count → Point) (x : ℚ) : Option ℚ :=
  ((List.finRange count).find? fun i => x ≤ (p i).x).map fun i => (p i).y

theorem below_of_lt {i : ℕ} (hi : i < count) : Spline.below p x i = decide ((p ⟨i,hi⟩).x < x) :=
  dif_pos hi

theorem partitioned_below (h : Ascending p) :
    LowerBound.Partitioned (Spline.below p x) 0 count := by
  intro i j _ hij hj hbelow
  rw [zero_add] at hj
  rw [below_of_lt hj,decide_eq_true_eq] at hbelow
  rw [below_of_lt (hij.trans_lt hj),decide_eq_true_eq]
  exact lt_of_le_of_lt (h ⟨i,_⟩ ⟨j,hj⟩ hij) hbelow

theorem search_eq (h : Ascending p) (x : ℚ) : Spline.search p x = firstNotBelow p x := by
  obtain ⟨-,hhigh,hbefore,hat⟩ := lowerBound_spec (partitioned_below (x:=x) h)
  rw [zero_add] at hhigh hat
  simp only [Spline.search,firstNotBelow]
  split
  · rename_i hlt
    have hfind : ((List.finRange count).find? fun i => x ≤ (p i).x) =
        some ⟨lowerBound (Spline.below p x) 0 count,hlt⟩ := by
      have hfound := hat hlt
      rw [below_of_lt hlt,decide_eq_false_iff_not,not_lt] at hfound
      rw [List.find?_eq_some_iff_getElem]
      refine ⟨by simpa using hfound,_,by simpa using hlt,List.getElem_finRange _,fun j hj => ?_⟩
      have hbelow := hbefore j (Nat.zero_le _) hj
      rw [below_of_lt (hj.trans hlt),decide_eq_true_eq] at hbelow
      simpa using hbelow
    rw [hfind]
    rfl
  · rename_i hge
    have hfind : ((List.finRange count).find? fun i => x ≤ (p i).x) = none := by
      rw [List.find?_eq_none]
      intro i _
      have hbelow := hbefore i (Nat.zero_le _) (by omega)
      rw [below_of_lt i.isLt,decide_eq_true_eq] at hbelow
      simpa using hbelow
    rw [hfind]
    rfl

end

section

variable {c : Params} {s : Spline c} {x : ℚ}

/-- The segments that are retained after a history. -/
def retained (c : Params) (history : List Point) : List (Fin c.discreteCount → Point) :=
  (segmentsOf c.discreteCount history).take c.numSeg

/-- The answer that is due: the newest segment whose range has `x`, and the first sample there
that is not in front of it. -/
def lookup (segs : List (Fin c.discreteCount → Point)) (x : ℚ) : Option ℚ :=
  (segs.find? fun p => Spline.InRange p x).bind fun p => firstNotBelow p x

/-- The loop finds nothing where none of the slots it comes to has `x`. -/
theorem getPointLoop_none {left offset : ℕ} (h : ∀ o, offset ≤ o → o < offset+left →
    (s.segmentContainer.getFromFirst (toInt o)).inited = true →
      ¬Spline.InRange (s.segmentContainer.getFromFirst (toInt o)).p x) :
    s.getPointLoop x left offset = none := by
  induction left generalizing offset with
  | zero => rfl
  | succ left ih =>
    simp only [Spline.getPointLoop]
    split_ifs with hmark hrange
    · rfl
    · exact absurd hrange (h offset le_rfl (by omega) (by simpa using hmark))
    · exact ih fun o hlow hhigh => h o (by omega) (by omega)

/-- Every slot that is marked is a retained segment, so `x` has to be in one. -/
theorem getPoint_none {segs : List (Fin c.discreteCount → Point)}
    (h : Holds s.segmentContainer segs) (hx : ∀ p ∈ segs, ¬Spline.InRange p x) :
    s.getPoint x = none :=
  getPointLoop_none fun _ _ _ hmark => hx _ (h.read_mem hmark)

theorem getPointLoop_some {segs : List (Fin c.discreteCount → Point)}
    (h : Holds s.segmentContainer segs) {i : ℕ} {p : Fin c.discreteCount → Point} {y : ℚ}
    (hi : i < 2^31) (hp : segs[i]? = some p) (hrange : Spline.InRange p x)
    (hfirst : ∀ j < i, ∀ q, segs[j]? = some q → ¬Spline.InRange q x)
    (hsearch : Spline.search p x = some y) {left offset : ℕ} (hoffset : offset ≤ i)
    (hleft : i < offset+left) : s.getPointLoop x left offset = some y := by
  induction left generalizing offset with
  | zero => omega
  | succ left ih =>
    simp only [Spline.getPointLoop,toInt_natCast (hoffset.trans_lt hi)]
    rcases Nat.eq_or_lt_of_le hoffset with rfl | hlt
    · simp only [h.read hp,Bool.not_true,Bool.false_eq_true,if_false,hrange,if_true,hsearch,
        Option.some_or]
    · obtain ⟨hlen,-⟩ := List.getElem?_eq_some_iff.mp hp
      have hq : segs[offset]? = some segs[offset] := List.getElem?_eq_getElem (hlt.trans hlen)
      have hnot := hfirst offset hlt _ hq
      simp only [h.read hq,Bool.not_true,Bool.false_eq_true,if_false,hnot]
      exact ih hlt (by omega)

theorem exists_firstNotBelow {p : Fin c.discreteCount → Point} (h : Spline.InRange p x) :
    ∃ y, firstNotBelow p x = some y := by
  have hsome : ((List.finRange c.discreteCount).find? fun i => x ≤ (p i).x).isSome := by
    rw [List.find?_isSome]
    exact ⟨_,List.mem_finRange _,by simpa using h.2⟩
  obtain ⟨i,hi⟩ := Option.isSome_iff_exists.mp hsome
  exact ⟨_,by rw [firstNotBelow,hi]; rfl⟩

theorem getPoint_eq {segs : List (Fin c.discreteCount → Point)}
    (h : Holds s.segmentContainer segs) (hasc : ∀ p ∈ segs, Ascending p)
    (hlen : segs.length ≤ 2^31) (x : ℚ) : s.getPoint x = lookup segs x := by
  cases hfind : segs.find? fun p => Spline.InRange p x with
  | none =>
    rw [lookup,hfind]
    exact getPoint_none h fun p hp => by simpa using List.find?_eq_none.mp hfind p hp
  | some p =>
    obtain ⟨hrange,i,hi,rfl,hfirst⟩ := List.find?_eq_some_iff_getElem.mp hfind
    have hrange' : Spline.InRange segs[i] x := by simpa using hrange
    obtain ⟨y,hy⟩ := exists_firstNotBelow hrange'
    have hsearch := (search_eq (hasc _ (List.getElem_mem hi)) x).trans hy
    rw [lookup,hfind,Option.bind_some,hy]
    refine getPointLoop_some h (i:=i) (by omega) (List.getElem?_eq_getElem hi) hrange' ?_ hsearch
      (Nat.zero_le i) ?_
    · intro j hj q hq
      obtain ⟨-,rfl⟩ := List.getElem?_eq_some_iff.mp hq
      simpa using hfirst j hj
    · have hbound := h.bound
      have hsz : c.segments.SZ = c.numSeg := rfl
      omega

theorem lookup_isSome {segs : List (Fin c.discreteCount → Point)} :
    (lookup segs x).isSome ↔ ∃ p ∈ segs, Spline.InRange p x := by
  rw [lookup]
  cases hfind : segs.find? fun p => Spline.InRange p x with
  | none =>
    have hnone := List.find?_eq_none.mp hfind
    simpa using hnone
  | some p =>
    have hrange : Spline.InRange p x := by simpa using List.find?_some hfind
    obtain ⟨y,hy⟩ := exists_firstNotBelow hrange
    rw [Option.bind_some,hy]
    exact ⟨fun _ => ⟨p,List.mem_of_find?_eq_some hfind,hrange⟩,fun _ => rfl⟩

/-- The segments of the list are in the places that `get_from_first` reads, and no others. -/
def Retains (s : Spline c) (segs : List (Fin c.discreteCount → Point)) : Prop :=
  ∀ i : ℕ, i < c.numSeg →
    (∀ p, segs[i]? = some p → s.segmentContainer.getFromFirst i = ⟨p,true⟩) ∧
      (segs.length ≤ i → (s.segmentContainer.getFromFirst i).inited = false)

theorem retains_of_holds {segs : List (Fin c.discreteCount → Point)}
    (h : Holds s.segmentContainer segs) : Retains s segs := by
  have hblocks : c.segments.blocks = c.numSeg+1 := rfl
  exact fun i hi => ⟨fun p hp => h.read hp,h.read_unmarked (by omega)⟩

theorem length_retained (pts : List Point) :
    (retained c pts.reverse).length = min (pts.length-3) c.numSeg := by
  rw [retained,List.length_take,length_segmentsOf,List.length_reverse,min_comm]

theorem tracks_of_constructed (hs : Constructed s) (pts : List Point) :
    Tracks (s.addAll pts) pts.reverse := by
  have htracks := tracks_addAll (tracks_constructed hs) pts
  rwa [List.append_nil] at htracks

/-- After points that do not go back the samples of every segment ascend, the newest segments are
retained, and `get_point` finds the newest one that has `x`: as long as an `int` can count the
segments that are retained. -/
theorem getPoint_addAll (hs : Constructed s) {pts : List Point}
    (hord : pts.Pairwise fun p q => p.x ≤ q.x) (hfew : min (pts.length-3) c.numSeg ≤ 2^31) :
    (∀ p ∈ segmentsOf c.discreteCount pts.reverse, Ascending p) ∧
      (retained c pts.reverse).length = min (pts.length-3) c.numSeg ∧
      Retains (s.addAll pts) (retained c pts.reverse) ∧
      ∀ x, (s.addAll pts).getPoint x = lookup (retained c pts.reverse) x ∧
        (((s.addAll pts).getPoint x).isSome ↔
          ∃ p ∈ retained c pts.reverse, Spline.InRange p x) := by
  have hasc : ∀ p ∈ segmentsOf c.discreteCount pts.reverse, Ascending p := fun p hp =>
    ascending_of_mem (List.pairwise_reverse.mpr hord) hp
  have hsegs := (tracks_of_constructed hs pts).segments
  refine ⟨hasc,length_retained pts,retains_of_holds hsegs,fun x => ?_⟩
  have hget := getPoint_eq hsegs (fun p hp => hasc p (List.mem_of_mem_take hp))
    ((length_retained pts).trans_le hfew) x
  exact ⟨hget,by rw [hget]; exact lookup_isSome⟩

end

/-- A spline as it is constructed. -/
def blank (c : Params) : Spline c where
  pointContainer := ⟨fun _ => ⟨⟨0,0⟩,false⟩,0,0⟩
  segmentContainer := ⟨fun _ => ⟨fun _ => ⟨0,0⟩,false⟩,0,0⟩

theorem constructed_blank (c : Params) : Constructed (blank c) :=
  ⟨⟨rfl,rfl,fun _ => rfl⟩,rfl,rfl,fun _ => rfl⟩

/-- Points on a line, one for each `x`. -/
def line (n : ℕ) : List Point := (List.range n).map fun i : ℕ => ⟨i,0⟩

theorem pairwise_line (n : ℕ) : (line n).Pairwise fun p q => p.x ≤ q.x := by
  exact List.pairwise_map.mpr (List.pairwise_lt_range.imp fun h => (Nat.cast_le (α:=ℚ)).mpr h.le)

def five : Params := ⟨5,2,Nat.lt_succ_self 4,Nat.two_pos,by norm_num⟩

theorem getPoint_addAll_line :
    (∀ p ∈ segmentsOf five.discreteCount (line 6).reverse, Ascending p) ∧
      (retained five (line 6).reverse).length = min ((line 6).length-3) five.numSeg ∧
      Retains ((blank five).addAll (line 6)) (retained five (line 6).reverse) ∧
      ∀ x, ((blank five).addAll (line 6)).getPoint x = lookup (retained five (line 6).reverse) x ∧
        ((((blank five).addAll (line 6)).getPoint x).isSome ↔
          ∃ p ∈ retained five (line 6).reverse, Spline.InRange p x) :=
  getPoint_addAll (constructed_blank five) (pairwise_line 6) (by decide)

section

variable {c : Params} {s : Spline c} {n : ℕ}

theorem line_reverse {j : ℕ} (hj : j < n) : (line n).reverse[j]? = some ⟨(n-1-j : ℕ),0⟩ := by
  rw [List.getElem?_reverse (by simpa [line] using hj)]
  simp only [line,List.length_map,List.length_range,List.getElem?_map]
  rw [List.getElem?_range (by omega)]
  rfl

theorem segmentsOf_getElem? {count j : ℕ} {history : List Point} {p0 p1 p2 p3 : Point}
    (h3 : history[j]? = some p3) (h2 : history[j+1]? = some p2) (h1 : history[j+2]? = some p1)
    (h0 : history[j+3]? = some p0) :
    (segmentsOf count history)[j]? = some (samples count p0 p1 p2 p3) := by
  induction j generalizing history with
  | zero =>
    obtain _ | ⟨a,_ | ⟨b,_ | ⟨d,_ | ⟨e,older⟩⟩⟩⟩ := history <;> simp_all [segmentsOf]
  | succ j ih =>
    obtain _ | ⟨a,_ | ⟨b,_ | ⟨d,_ | ⟨e,older⟩⟩⟩⟩ := history
    · simp at h3
    · simp at h2
    · simp at h1
    · simp at h0
    · rw [segmentsOf,List.getElem?_cons_succ]
      exact ih h3 h2 h1 h0

/-- The first sample of the segment of four points on the line is the second one of them. -/
theorem segmentsOf_line (count : ℕ) {j : ℕ} (hj : j+3 < n) : ∃ p : Fin count → Point,
    (segmentsOf count (line n).reverse)[j]? = some p ∧
      ∀ i : Fin count, i.val = 0 → p i = ⟨(n-3-j : ℕ),0⟩ := by
  refine ⟨_,segmentsOf_getElem? (line_reverse (by omega)) (line_reverse (by omega))
    (line_reverse (by omega)) (line_reverse hj),fun i hi => ?_⟩
  obtain ⟨m,rfl⟩ : ∃ m, n = m+4+j := ⟨n-4-j,by omega⟩
  have e0 : m+4+j-1-(j+3) = m := by omega
  have e1 : m+4+j-1-(j+2) = m+1 := by omega
  have e2 : m+4+j-1-(j+1) = m+2 := by omega
  have e3 : m+4+j-3-j = m+1 := by omega
  simp only [samples,calculate,coefficients,Cubic.eval,hi,e0,e1,e2,e3]
  push_cast
  congr 1 <;> ring

theorem inRange_one (hc : c.discreteCount = 1) {p : Fin c.discreteCount → Point} {v x : ℚ}
    (hp : ∀ i : Fin c.discreteCount, i.val = 0 → p i = ⟨v,0⟩) : Spline.InRange p x ↔ x = v := by
  simp only [Spline.InRange,hp ⟨0,c.pos⟩ rfl,
    hp ⟨c.discreteCount-1,c.pred_lt⟩ (by simp [hc])]
  exact ⟨fun h => le_antisymm h.2 h.1,fun h => ⟨h.ge,h.le⟩⟩

theorem retained_line (hc : c.discreteCount = 1) {j : ℕ} (hj : j < c.numSeg) (hn : j+3 < n) :
    ∃ p, (retained c (line n).reverse)[j]? = some p ∧
      ∀ x, Spline.InRange p x ↔ x = (n-3-j : ℕ) := by
  obtain ⟨p,hp,hfirst⟩ := segmentsOf_line c.discreteCount hn
  refine ⟨p,?_,fun x => inRange_one hc hfirst⟩
  rw [retained,List.getElem?_take_of_lt hj,hp]

/-- The offset `2 ^ 31` becomes `-2 ^ 31`, and the slot is that of the offset 2. -/
theorem getFromFirst_wraps (hc : c.numPts = 2^31+4)
    (hit : s.segmentContainer.iterator < c.segments.blocks) :
    s.segmentContainer.getFromFirst (toInt (2^31)) = s.segmentContainer.getFromFirst 2 := by
  have hblocks : c.segments.blocks = 2^31+2 := by
    simp only [Capacity.blocks,Params.segments,Params.numSeg,hc]
    omega
  have htoInt : toInt (2^31) = -2^31 := by decide
  have hfar : wrap (s.segmentContainer.iterator+c.segments.blocks- -2^31) =
      s.segmentContainer.iterator+2^31+c.segments.blocks := by
    rw [show (s.segmentContainer.iterator : ℤ)+c.segments.blocks- -2^31 =
      ((s.segmentContainer.iterator+2^31+c.segments.blocks : ℕ) : ℤ) by push_cast; ring]
    exact wrap_natCast (by omega)
  have hnear : wrap (s.segmentContainer.iterator+c.segments.blocks-2) =
      s.segmentContainer.iterator+2^31 := by
    rw [show (s.segmentContainer.iterator : ℤ)+c.segments.blocks-2 =
      ((s.segmentContainer.iterator+2^31 : ℕ) : ℤ) by rw [hblocks]; push_cast; ring]
    exact wrap_natCast (by omega)
  rw [Frame.getFromFirst,Frame.getFromFirst,htoInt,hfar,hnear,node_add_blocks]

theorem getPoint_line (hs : Constructed s) (hc : c.discreteCount = 1) (hn : c.numPts = 2^31+4) :
    (s.addAll (line (2^31+4))).getPoint 1 = none := by
  have hsegs := (tracks_of_constructed hs (line (2^31+4))).segments
  have hnum : c.numSeg = 2^31+1 := by rw [Params.numSeg,hn]; omega
  have hnot : ∀ j : ℕ, j < 2^31 → ¬Spline.InRange
      ((s.addAll (line (2^31+4))).segmentContainer.getFromFirst j).p 1 := by
    intro j hj
    obtain ⟨p,hp,hrange⟩ := retained_line (n:=2^31+4) hc (j:=j) (by omega) (by omega)
    rw [hsegs.read hp,hrange]
    intro hone
    have hcast : (1 : ℕ) = 2^31+4-3-j := by exact_mod_cast hone
    omega
  refine getPointLoop_none fun o _ ho _ => ?_
  rw [zero_add,hnum] at ho
  rcases Nat.lt_or_ge o (2^31) with hlt | hge
  · rw [toInt_natCast hlt]
    exact hnot o hlt
  · rw [show o = 2^31 by omega,getFromFirst_wraps hn hsegs.iterator]
    exact hnot 2 (by norm_num)

end

/-- Room for `2 ^ 31 + 1` segments of one sample each. -/
def vast : Params := ⟨2^31+4,1,by norm_num,Nat.one_pos,by norm_num⟩

theorem not_getPoint_addAll : ¬∀ (c : Params) (s : Spline c), Constructed s → ∀ pts : List Point,
    pts.Pairwise (fun p q => p.x ≤ q.x) → ∀ x, ((s.addAll pts).getPoint x).isSome ↔
      ∃ p ∈ retained c pts.reverse, Spline.InRange p x := by
  intro h
  have hfound := h vast (blank vast) (constructed_blank vast) (line (2^31+4)) (pairwise_line _) 1
  rw [getPoint_line (constructed_blank vast) rfl rfl] at hfound
  obtain ⟨p,hp,hrange⟩ := retained_line (c:=vast) (n:=2^31+4) (j:=2^31) rfl (by decide) (by norm_num)
  have hmem : p ∈ retained vast (line (2^31+4)).reverse := List.mem_of_getElem? hp
  have hone : Spline.InRange p 1 := (hrange 1).mpr (by norm_num)
  exact absurd (hfound.mpr ⟨p,hmem,hone⟩) Bool.noConfusion

end BSpline
end SdkCp
