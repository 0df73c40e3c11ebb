import SdkCp.LowerBound
import SdkCp.StaticFrame

/-! tools/b_spline.hpp: points that come in, and a sampled cubic for every four in a row, both in
frames that keep the newest. `float` is read as a rational number. -/
namespace SdkCp
namespace BSpline

open StaticFrame (Capacity Frame wrap toInt)
open LowerBound (lowerBound)

/-- The template arguments: more than four points by the static assertion, and arrays with an
element that are objects. -/
structure Params where
  numPts : ℕ
  discreteCount : ℕ
  four_lt : 4 < numPts
  pos : 0 < discreteCount
  object : numPts+1 < 2^63

namespace Params

theorem pred_lt (c : Params) : c.discreteCount-1 < c.discreteCount := Nat.sub_lt c.pos Nat.one_pos

def numSeg (c : Params) : ℕ := c.numPts-3

def points (c : Params) : Capacity := ⟨c.numPts,by have := c.four_lt; omega,c.object⟩

def segments (c : Params) : Capacity :=
  ⟨c.numSeg,by have := c.four_lt; simp only [numSeg]; omega,
    by have := c.object; simp only [numSeg]; omega⟩

end Params

structure Point where
  x : ℚ
  y : ℚ

/-- `point_info` and `segment_info`. -/
structure Info (β : Type) where
  p : β
  inited : Bool

structure Spline (c : Params) where
  pointContainer : Frame (Info Point) c.points
  segmentContainer : Frame (Info (Fin c.discreteCount → Point)) c.segments

/-- The constructors: nothing is marked, whatever the coordinates are. -/
def Constructed {c : Params} (s : Spline c) : Prop :=
  (s.pointContainer.iterator = 0 ∧ s.pointContainer.size = 0 ∧
    ∀ n, (s.pointContainer.data n).inited = false) ∧
  s.segmentContainer.iterator = 0 ∧ s.segmentContainer.size = 0 ∧
    ∀ n, (s.segmentContainer.data n).inited = false

/-- The coefficients of a coordinate. -/
structure Cubic where
  c0 : ℚ
  c1 : ℚ
  c2 : ℚ
  c3 : ℚ

def Cubic.eval (a : Cubic) (t : ℚ) : ℚ := a.c0+t*(a.c1+t*(a.c2+t*a.c3))

def coefficients (p0 p1 p2 p3 : ℚ) : Cubic where
  c0 := (p0+4*p1+p2)/6
  c1 := (-p0+p2)/2
  c2 := (p0-2*p1+p2)/2
  c3 := (-p0+3*p1-3*p2+p3)/6

def calculate (p0 p1 p2 p3 : Point) : Cubic × Cubic :=
  (coefficients p0.x p1.x p2.x p3.x,coefficients p0.y p1.y p2.y p3.y)

/-- The loop of `add_point` over the samples. -/
def samples (count : ℕ) (p0 p1 p2 p3 : Point) (ix : Fin count) : Point :=
  let ab := calculate p0 p1 p2 p3
  let t : ℚ := ix.val/count
  ⟨ab.1.eval t,ab.2.eval t⟩

/-- `move_fwd` with the mark taken off the slot that its callback is shown. -/
def advance {β : Type} {c : Capacity} (s : Frame (Info β) c) (v : Info β) : Frame (Info β) c :=
  let last := Frame.node (wrap (s.iterator+c.blocks-c.SZ+1))
  let t := { s with data := Function.update s.data last { s.data last with inited := false } }
  (t.moveFwd v).1

namespace Spline

variable {c : Params}

def addPoint (s : Spline c) (p : Point) : Spline c :=
  let points := advance s.pointContainer ⟨p,true⟩
  let p3 := points.getFromFirst 0
  let p2 := points.getFromFirst 1
  let p1 := points.getFromFirst 2
  let p0 := points.getFromFirst 3
  if !p3.inited || !p2.inited || !p1.inited || !p0.inited then { s with pointContainer := points }
  else
    { pointContainer := points
      segmentContainer := advance s.segmentContainer
        ⟨samples c.discreteCount p0.p p1.p p2.p p3.p,true⟩ }

/-- The comparison of the search. -/
def below {count : ℕ} (p : Fin count → Point) (x : ℚ) (i : ℕ) : Bool :=
  if h : i < count then decide ((p ⟨i,h⟩).x < x) else false

/-- The search in one segment: `y`, if it does not come to the end. -/
def search {count : ℕ} (p : Fin count → Point) (x : ℚ) : Option ℚ :=
  let it := lowerBound (below p x) 0 count
  if h : it < count then some (p ⟨it,h⟩).y else none

/-- `x` is not outside the first and the last sample. -/
def InRange (p : Fin c.discreteCount → Point) (x : ℚ) : Prop :=
  (p ⟨0,c.pos⟩).x ≤ x ∧ x ≤ (p ⟨c.discreteCount-1,c.pred_lt⟩).x

instance (p : Fin c.discreteCount → Point) (x : ℚ) : Decidable (InRange p x) :=
  inferInstanceAs (Decidable (_ ∧ _))

/-- The loop of `get_point` with `left` rounds to go; `get_from_first` takes an `int`. -/
def getPointLoop (s : Spline c) (x : ℚ) : ℕ → ℕ → Option ℚ
  | 0, _ => none
  | left+1, offset =>
    let seg := s.segmentContainer.getFromFirst (toInt offset)
    if !seg.inited then none
    else if InRange seg.p x then (search seg.p x).or (getPointLoop s x left (offset+1))
    else getPointLoop s x left (offset+1)

/-- The result for true is `y`. -/
def getPoint (s : Spline c) (x : ℚ) : Option ℚ := s.getPointLoop x c.numSeg 0

def addAll (s : Spline c) (pts : List Point) : Spline c := pts.foldl addPoint s

end Spline
end BSpline
end SdkCp
