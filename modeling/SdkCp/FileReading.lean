import Mathlib.Algebra.BigOperators.Group.Finset.Basic
import Mathlib.Tactic

/-! read_all_file of tools/file.hpp: a string is resized to the length of the file and filled by
calls of `fread`. The stream gives its bytes in pieces of any length. -/
namespace SdkCp
namespace FileReading

/-- A file from its beginning: the length that `ftell` says it has, the bytes that are there, and
how many of them each call of `fread` can give at most. -/
structure Stream where
  ftell : ℤ
  long : -2^63 ≤ ftell ∧ ftell < 2^63
  bytes : List UInt8
  counts : ℕ → ℕ

/-- The argument of `resize` is a `size_t`. -/
def Stream.reported (f : Stream) : ℕ := (f.ftell % 2^64).toNat

/-- The `i`-th call, for `n` bytes, where `pos` bytes have been read; there are none behind the
end. -/
def Stream.fread (f : Stream) (i pos n : ℕ) : List UInt8 :=
  ((f.bytes.drop pos).take n).take (f.counts i)

/-- The loop from the `i`-th call on, for as many calls as it is given: every call writes to the
beginning of `data`. -/
def readLoop (f : Stream) (size : ℕ) : ℕ → ℕ → ℕ → List UInt8 → Option (ℕ × List UInt8)
  | 0, _, _, _ => none
  | calls+1, i, accum, data =>
    let piece := f.fread i accum (size-accum)
    let data := piece ++ data.drop piece.length
    let accum := accum+piece.length
    if accum < size then readLoop f size calls (i+1) accum data else some (accum,data)

inductive Outcome
  | returned (result : Bool) (data : List UInt8)
  | thrown
deriving DecidableEq

/-- `data` can be resized to `room` characters at most. No handle is `none`. -/
def readAllFile (calls room : ℕ) (file : Option Stream) (data : List UInt8) : Option Outcome :=
  match file with
  | none => some (.returned false data)
  | some f =>
    if room < f.reported then some .thrown
    else
      let data := data.takeD f.reported 0
      if data.isEmpty then some (.returned false data)
      else (readLoop f data.length calls 0 0 data).map fun done =>
        .returned (decide (data.length = done.1)) done.2

/-- Some number of calls is enough. -/
def Terminates (room : ℕ) (file : Option Stream) (data : List UInt8) : Prop :=
  ∃ calls, (readAllFile calls room file data).isSome

section

variable {f : Stream} {n m j room : ℕ} {old data : List UInt8}

/-- What the first `n` calls have read: as much as they give, up to the reported length. -/
def Stream.start (f : Stream) (n : ℕ) : ℕ :=
  min (min f.reported f.bytes.length) (∑ i ∈ Finset.range n, f.counts i)

def Stream.piece (f : Stream) (n : ℕ) : List UInt8 := f.fread n (f.start n) (f.reported-f.start n)

/-- `data` after `n` calls. -/
def overlay (f : Stream) (old : List UInt8) : ℕ → List UInt8
  | 0 => old
  | n+1 => f.piece n ++ (overlay f old n).drop (f.piece n).length

theorem start_zero : f.start 0 = 0 := by simp [Stream.start]

theorem start_le : f.start n ≤ f.reported := (min_le_left _ _).trans (min_le_left _ _)

theorem start_add_piece : f.start n+(f.piece n).length = f.start (n+1) := by
  simp only [Stream.piece,Stream.fread,List.length_take,List.length_drop,Stream.start,
    Finset.sum_range_succ]
  omega

theorem start_mono (h : n ≤ m) : f.start n ≤ f.start m :=
  monotone_nat_of_le_succ (fun _ => start_add_piece ▸ Nat.le_add_right _ _) h

theorem readLoop_succ (calls : ℕ) :
    readLoop f f.reported (calls+1) n (f.start n) (overlay f old n) =
      if f.start (n+1) < f.reported then
        readLoop f f.reported calls (n+1) (f.start (n+1)) (overlay f old (n+1))
      else some (f.start (n+1),overlay f old (n+1)) := by
  have hpiece : f.fread n (f.start n) (f.reported-f.start n) = f.piece n := rfl
  rw [readLoop]
  simp only [hpiece,start_add_piece,overlay]

theorem readLoop_some {calls : ℕ} {done : ℕ × List UInt8}
    (h : readLoop f f.reported calls n (f.start n) (overlay f old n) = some done) :
    ∃ m, f.start m = f.reported ∧ done = (f.start m,overlay f old m) := by
  induction calls generalizing n with
  | zero => exact absurd h (by simp [readLoop])
  | succ calls ih =>
    rw [readLoop_succ] at h
    split at h
    · exact ih h
    · rename_i hge
      exact ⟨n+1,Nat.le_antisymm start_le (not_lt.mp hge),(Option.some.inj h).symm⟩

theorem isSome_readLoop (hn : n < m) (hm : f.reported ≤ f.start m) :
    (readLoop f f.reported (m-n) n (f.start n) (overlay f old n)).isSome := by
  obtain ⟨d,rfl⟩ : ∃ d, m = n+(d+1) := ⟨m-n-1,by omega⟩
  induction d generalizing n with
  | zero =>
    rw [show n+(0+1)-n = 0+1 by omega,readLoop_succ,if_neg (not_lt.mpr hm)]
    rfl
  | succ d ih =>
    rw [show n+(d+1+1)-n = d+1+1 by omega,readLoop_succ]
    split
    · have hnext := ih (n:=n+1) (by omega) (by rwa [show n+1+(d+1) = n+(d+1+1) by omega])
      rwa [show n+1+(d+1)-(n+1) = d+1 by omega] at hnext
    · rfl

theorem readAllFile_some {calls : ℕ} (hroom : f.reported ≤ room) (hpos : 0 < f.reported) :
    readAllFile calls room (some f) data =
      (readLoop f f.reported calls 0 (f.start 0) (overlay f (data.takeD f.reported 0) 0)).map
        fun done => .returned (decide (f.reported = done.1)) done.2 := by
  have hlen : (data.takeD f.reported 0).length = f.reported := List.takeD_length _ _ _
  have hne : (data.takeD f.reported 0).isEmpty = false := by
    rw [← Bool.not_eq_true,List.isEmpty_iff,← List.length_eq_zero_iff,hlen]
    omega
  simp only [readAllFile,not_lt.mpr hroom,if_false,hne,Bool.false_eq_true,hlen,start_zero,overlay]

/-- The loop comes to its end where the stream gives the reported length. -/
theorem terminates_some (data : List UInt8) (hroom : f.reported ≤ room) (hpos : 0 < f.reported) :
    Terminates room (some f) data ↔ ∃ n, f.reported ≤ f.start n := by
  simp only [Terminates,readAllFile_some hroom hpos,Option.isSome_map]
  constructor
  · rintro ⟨calls,hsome⟩
    obtain ⟨done,hdone⟩ := Option.isSome_iff_exists.mp hsome
    obtain ⟨m,hm,-⟩ := readLoop_some hdone
    exact ⟨m,hm.ge⟩
  · rintro ⟨n,hn⟩
    have hn' : 0 < n := Nat.pos_of_ne_zero fun hzero => by
      rw [hzero,start_zero] at hn
      omega
    exact ⟨n-0,isSome_readLoop hn' hn⟩

/-- `read_all_file` returns (or throws) if and only if it has no loop to run, or the stream has
as many bytes as `ftell` reports and gives them in some number of calls. -/
theorem terminates_iff (room : ℕ) (file : Option Stream) (data : List UInt8) :
    Terminates room file data ↔ ∀ f, file = some f → room < f.reported ∨ f.reported = 0 ∨
      f.reported ≤ f.bytes.length ∧ ∃ n, f.reported ≤ ∑ i ∈ Finset.range n, f.counts i := by
  cases file with
  | none => exact ⟨fun _ f hf => absurd hf (by simp),fun _ => ⟨0,rfl⟩⟩
  | some f =>
    simp only [Option.some.injEq,forall_eq']
    rcases Nat.lt_or_ge room f.reported with hroom | hroom
    · exact ⟨fun _ => .inl hroom,fun _ => ⟨0,by simp [readAllFile,hroom]⟩⟩
    rcases Nat.eq_zero_or_pos f.reported with hzero | hpos
    · exact ⟨fun _ => .inr (.inl hzero),fun _ => ⟨0,by simp [readAllFile,hzero]⟩⟩
    · rw [terminates_some data hroom hpos]
      simp only [not_lt.mpr hroom,hpos.ne',false_or,Stream.start,le_min_iff,le_refl,true_and,
        exists_and_left]

end

/-- The file has been cut after its length was asked for. -/
def truncated : Stream := ⟨1,by norm_num,[],fun _ => 1⟩

theorem not_terminates : ¬∀ (room : ℕ) (file : Option Stream) (data : List UInt8),
    Terminates room file data := by
  intro h
  obtain ⟨n,hn⟩ := (terminates_some [] (by decide) (by decide)).mp (h 1 (some truncated) [])
  exact absurd hn (by simp [Stream.start,truncated,Stream.reported])

end FileReading
end SdkCp
