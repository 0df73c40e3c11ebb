import Mathlib.Tactic
import Mathlib.Data.List.Basic

/-! Back references of the LZ77 family: values are copied from `d` places behind the end of what has
been written, one after another, so that a copy may reach into what it writes itself. -/
namespace SdkCp
namespace BackReference

variable {α : Type*}

/-- `n` values from `d` places behind the end, each one seen by the next. -/
def copyBack (d : ℕ) : ℕ → List α → List α
  | 0,out => out
  | n+1,out => copyBack d n (out ++ (out[out.length-d]?).toList)

/-- A block of `w` values from `d` places behind the end, read at once. -/
def appendBlock (d w : ℕ) (out : List α) : List α := out ++ (out.drop (out.length-d)).take w

theorem copyBack_add (d m n : ℕ) (out : List α) :
    copyBack d (m+n) out = copyBack d n (copyBack d m out) := by
  induction m generalizing out with
  | zero => rw [Nat.zero_add,copyBack]
  | succ m ih => rw [Nat.succ_add,copyBack,ih,copyBack]

section
variable {d : ℕ} {out : List α}

theorem copyBack_succ (n : ℕ) (hd : 0 < d) (hle : d ≤ out.length) : ∃ x, out[out.length-d]? = some x ∧
    copyBack d (n+1) out = copyBack d n (out ++ [x]) := by
  have hlt : out.length-d < out.length := by omega
  refine ⟨out[out.length-d],List.getElem?_eq_getElem hlt,?_⟩
  rw [copyBack,List.getElem?_eq_getElem hlt,Option.toList_some]

theorem length_copyBack (n : ℕ) (hd : 0 < d) (hle : d ≤ out.length) :
    (copyBack d n out).length = out.length+n := by
  induction n generalizing out with
  | zero => rfl
  | succ n ih =>
    obtain ⟨x,-,hstep⟩ := copyBack_succ n hd hle
    have hnext : d ≤ (out ++ [x]).length := hle.trans (by simp)
    rw [hstep,ih hnext,List.length_append,List.length_singleton]
    omega

end

/-- Where the text repeats what stands `d` places before, a copy extends what has been written of it. -/
theorem copyBack_take {text : List α} {p d : ℕ} (n : ℕ) (hd : 0 < d) (hdp : d ≤ p)
    (hroom : p+n ≤ text.length) (hmatch : ∀ i < n, text[p+i]? = text[p-d+i]?) :
    copyBack d n (text.take p) = text.take (p+n) := by
  induction n generalizing p with
  | zero => rfl
  | succ n ih =>
    have hlen : (text.take p).length = p := List.length_take_of_le (by omega)
    have hread : (text.take p)[p-d]? = text[p]? := by
      rw [List.getElem?_take_of_lt (by omega)]
      exact (hmatch 0 n.succ_pos).symm
    rw [copyBack,hlen,hread,← List.take_add_one]
    have hlater : ∀ i < n, text[p+1+i]? = text[p+1-d+i]? := by
      intro i hi
      have h := hmatch (i+1) (by omega)
      rwa [show p+(i+1) = p+1+i by omega,show p-d+(i+1) = p+1-d+i by omega] at h
    rw [ih (by omega) (by omega) hlater]
    congr 1
    omega

theorem appendBlock_eq {d w : ℕ} {out : List α} (hd : 0 < d) (hw : w ≤ d) (hle : d ≤ out.length) :
    appendBlock d w out = copyBack d w out := by
  have hblock : ((out.drop (out.length-d)).take w).length = w := by
    rw [List.length_take,List.length_drop]
    omega
  have htotal : (appendBlock d w out).length = out.length+w := by
    rw [appendBlock,List.length_append,hblock]
  have hmatch : ∀ i < w, (appendBlock d w out)[out.length+i]? = (appendBlock d w out)[out.length-d+i]? := by
    intro i hi
    have hbefore : out.length-d+i < out.length := by omega
    rw [appendBlock,List.getElem?_append_right (Nat.le_add_right ..),List.getElem?_append_left hbefore,
      Nat.add_sub_cancel_left,List.getElem?_take_of_lt hi,List.getElem?_drop]
  have hcopy := copyBack_take w hd hle htotal.ge hmatch
  have hfront : (appendBlock d w out).take out.length = out := List.take_left
  rw [hfront,← htotal,List.take_length] at hcopy
  exact hcopy.symm

theorem length_appendBlock {d w : ℕ} {out : List α} (hd : 0 < d) (hw : w ≤ d) (hle : d ≤ out.length) :
    (appendBlock d w out).length = out.length+w := by
  rw [appendBlock_eq hd hw hle,length_copyBack w hd hle]

theorem iterate_appendBlock_eq {d w : ℕ} {out : List α} (k : ℕ) (hd : 0 < d) (hw : w ≤ d)
    (hle : d ≤ out.length) : (appendBlock d w)^[k] out = copyBack d (k*w) out := by
  induction k generalizing out with
  | zero => rw [Nat.zero_mul,Function.iterate_zero,id_eq,copyBack]
  | succ k ih =>
    have hnext : d ≤ (appendBlock d w out).length := by
      rw [length_appendBlock hd hw hle]
      omega
    rw [Function.iterate_succ_apply,ih hnext,appendBlock_eq hd hw hle,← copyBack_add,Nat.succ_mul,
      Nat.add_comm w]

end BackReference
end SdkCp
