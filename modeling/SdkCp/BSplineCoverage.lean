import SdkCp.BSplineSearch

/-! tools/b_spline.hpp: the places that `get_point` knows. The samples of a segment stop one step
before its end, where the next segment begins. -/
namespace SdkCp
namespace BSpline

section

variable {c : Params} {s : Spline c}

/-- Every place from the first sample of the oldest segment to the last one of the newest is
found. -/
def Covered (s : Spline c) (segs : List (Fin c.discreteCount → Point)) : Prop :=
  ∀ oldest newest, segs.getLast? = some oldest → segs.head? = some newest → ∀ x,
    (oldest ⟨0,c.pos⟩).x ≤ x → x ≤ (newest ⟨c.discreteCount-1,c.pred_lt⟩).x →
      (s.getPoint x).isSome

theorem covered_of_single {p : Fin c.discreteCount → Point} (h : Holds s.segmentContainer [p])
    (hasc : Ascending p) : Covered s [p] := by
  intro oldest newest hold hnew x hlow hhigh
  obtain rfl : p = oldest := Option.some.inj hold
  obtain rfl : p = newest := Option.some.inj hnew
  rw [getPoint_eq h (by simpa using hasc) (by norm_num) x,lookup_isSome]
  exact ⟨p,by simp,hlow,hhigh⟩

/-- A place between two segments, behind all the older ones, is not found. -/
theorem not_covered_of_gap {p q : Fin c.discreteCount → Point}
    {rest : List (Fin c.discreteCount → Point)} (h : Holds s.segmentContainer (p::q::rest))
    (hasc : ∀ r ∈ p::q::rest, Ascending r)
    (hpair : (p::q::rest).Pairwise fun p q => ∀ i j, (q i).x ≤ (p j).x)
    (hgap : (q ⟨c.discreteCount-1,c.pred_lt⟩).x < (p ⟨0,c.pos⟩).x) :
    ¬Covered s (p::q::rest) := by
  obtain ⟨-,hpair⟩ := List.pairwise_cons.mp hpair
  obtain ⟨x,hqx,hxp⟩ := exists_between hgap
  -- No older segment reaches beyond `q`.
  have hbehind : ∀ r ∈ q::rest, (r ⟨c.discreteCount-1,c.pred_lt⟩).x < x := by
    intro r hr
    rcases List.mem_cons.mp hr with rfl | hr
    · exact hqx
    · exact ((List.pairwise_cons.mp hpair).1 r hr _ _).trans_lt hqx
  have hnone : s.getPoint x = none := by
    refine getPoint_none h fun r hr hrange => ?_
    rcases List.mem_cons.mp hr with rfl | hr
    · exact absurd hrange.1 (not_le.mpr hxp)
    · exact absurd hrange.2 (not_le.mpr (hbehind r hr))
  intro hcovered
  have hlast : (p::q::rest).getLast? = some ((q::rest).getLast (List.cons_ne_nil q rest)) := by
    rw [List.getLast?_cons_cons,List.getLast?_eq_some_getLast]
  have hmem := List.getLast_mem (List.cons_ne_nil q rest)
  have hlow := (hasc _ (List.mem_cons_of_mem p hmem) ⟨0,c.pos⟩ _ (Nat.zero_le _)).trans
    (hbehind _ hmem).le
  have hhigh := hxp.le.trans (hasc p (by simp) ⟨0,c.pos⟩
    ⟨c.discreteCount-1,c.pred_lt⟩ (Nat.zero_le _))
  have hsome := hcovered _ p hlast rfl x hlow hhigh
  rw [hnone] at hsome
  exact absurd hsome Bool.noConfusion

/-- The two newest segments after five points, with the gap between them. -/
theorem exists_gap {pts : List Point} (hord : pts.Pairwise fun p q => p.x < q.x)
    (hlen : 4 < pts.length) : ∃ p q rest, retained c pts.reverse = p::q::rest ∧
      (q ⟨c.discreteCount-1,c.pred_lt⟩).x < (p ⟨0,c.pos⟩).x := by
  have hrev : pts.reverse.Pairwise fun p q => q.x < p.x := List.pairwise_reverse.mpr hord
  have hlen' : 4 < pts.reverse.length := by rwa [List.length_reverse]
  have hseg : ∃ n, c.numSeg = n+2 := ⟨c.numPts-5,by have := c.four_lt; rw [Params.numSeg]; omega⟩
  obtain ⟨n,hn⟩ := hseg
  generalize pts.reverse = history at hrev hlen' ⊢
  obtain _ | ⟨p4,_ | ⟨p3,_ | ⟨p2,_ | ⟨p1,_ | ⟨p0,older⟩⟩⟩⟩⟩ := history
  · exact absurd hlen' (by simp)
  · exact absurd hlen' (by simp)
  · exact absurd hlen' (by simp)
  · exact absurd hlen' (by simp)
  · exact absurd hlen' (by simp)
  · refine ⟨_,_,_,by rw [retained,hn,segmentsOf,segmentsOf,List.take_succ_cons,
      List.take_succ_cons],?_⟩
    have h3 := (List.pairwise_cons.mp hrev).2
    have h2 := (List.pairwise_cons.mp h3).2
    have h1 := (List.pairwise_cons.mp h2).2
    have h01 : p0.x < p1.x := (List.pairwise_cons.mp h1).1 p0 (by simp)
    have h12 : p1.x < p2.x := (List.pairwise_cons.mp h2).1 p1 (by simp)
    have h23 : p2.x < p3.x := (List.pairwise_cons.mp h3).1 p2 (by simp)
    exact samples_lt_next h01.le h12 h23.le _ c.pos

theorem ascending_of_retained {pts : List Point} (hord : pts.Pairwise fun p q => p.x < q.x) :
    ∀ p ∈ retained c pts.reverse, Ascending p := fun _ hp =>
  ascending_of_mem (List.pairwise_reverse.mpr (hord.imp fun h => h.le)) (List.mem_of_mem_take hp)

theorem not_covered_of_five (hs : Constructed s) {pts : List Point}
    (hord : pts.Pairwise fun p q => p.x < q.x) (hlen : 4 < pts.length) :
    ¬Covered (s.addAll pts) (retained c pts.reverse) := by
  have hrev : Ordered pts.reverse := List.pairwise_reverse.mpr (hord.imp fun h => h.le)
  have hsegs : Holds (s.addAll pts).segmentContainer (retained c pts.reverse) :=
    (tracks_of_constructed hs pts).segments
  have hasc := ascending_of_retained (c:=c) hord
  have hpair : (retained c pts.reverse).Pairwise fun p q => ∀ i j, (q i).x ≤ (p j).x :=
    (pairwise_segmentsOf hrev).sublist (List.take_sublist _ _)
  obtain ⟨p,q,rest,hret,hgap⟩ := exists_gap (c:=c) hord hlen
  rw [hret] at hsegs hasc hpair ⊢
  exact not_covered_of_gap hsegs hasc hpair hgap

/-- After points that go forward every place is found if and only if there are at most four of
them, and so at most one segment. -/
theorem covered_iff (hs : Constructed s) {pts : List Point}
    (hord : pts.Pairwise fun p q => p.x < q.x) :
    Covered (s.addAll pts) (retained c pts.reverse) ↔ pts.length ≤ 4 := by
  refine ⟨fun hcovered => not_lt.mp fun hlen => not_covered_of_five hs hord hlen hcovered,
    fun hlen => ?_⟩
  have hsegs : Holds (s.addAll pts).segmentContainer (retained c pts.reverse) :=
    (tracks_of_constructed hs pts).segments
  have hasc := ascending_of_retained (c:=c) hord
  have hshort : (retained c pts.reverse).length ≤ 1 := by
    rw [length_retained]
    omega
  generalize retained c pts.reverse = segs at hsegs hasc hshort ⊢
  obtain _ | ⟨p,_ | ⟨q,rest⟩⟩ := segs
  · intro oldest newest hold
    exact absurd hold (by simp)
  · exact covered_of_single hsegs (hasc p (by simp))
  · exact absurd hshort (by simp)

end

theorem lt_line (n : ℕ) : (line n).Pairwise fun p q => p.x < q.x :=
  List.pairwise_map.mpr (List.pairwise_lt_range.imp fun h => (Nat.cast_lt (α:=ℚ)).mpr h)

theorem covered_iff_line : Covered ((blank five).addAll (line 4)) (retained five (line 4).reverse) ↔
    (line 4).length ≤ 4 :=
  covered_iff (constructed_blank five) (lt_line 4)

/-- Five points on a line leave a gap between their two segments. -/
theorem not_covered : ¬∀ (c : Params) (s : Spline c) (pts : List Point), 2 ≤ c.discreteCount →
    Constructed s → pts.Pairwise (fun p q => p.x < q.x) →
    Covered (s.addAll pts) (retained c pts.reverse) := by
  intro h
  exact not_covered_of_five (constructed_blank five) (lt_line 5) (by decide)
    (h five (blank five) (line 5) le_rfl (constructed_blank five) (lt_line 5))

end BSpline
end SdkCp
