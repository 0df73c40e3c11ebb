import SdkCp.TransitionSystem
import Mathlib.Tactic
import Mathlib.Data.Nat.Bitwise

/-! `stack_allocator` of tools/stack_allocator.hpp: a cursor that moves up in one arena. The
round-up and the check against the end are done in 64-bit addresses, and both can wrap. -/
namespace SdkCp
namespace StackAllocator

def u64 (n : ℕ) : ℕ := n % 2^64
def sub64 (a b : ℕ) : ℕ := (a+(2^64-b)) % 2^64

/-- `SDK_CP_ALIGN_MEM`. -/
def alignMem (mem base : ℕ) : ℕ := u64 (mem+(base-1)) &&& 2^64-1-(base-1)

/-- The members of the object. -/
structure Arena where
  memPtr : ℕ
  endPtr : ℕ
  curPtr : ℕ

/-- The constructor, on what `malloc(__size)` returns. -/
def stackAllocator (size memPtr : ℕ) : Arena where
  memPtr := memPtr
  endPtr := u64 (memPtr+if memPtr ≠ 0 then size else 0)
  curPtr := memPtr

/-- `allocate<align>`; 0 is `nullptr`. -/
def allocate (s : Arena) (align size : ℕ) : Arena × ℕ :=
  let ptr := alignMem s.curPtr align
  if u64 (ptr+size) > s.endPtr then (s,0) else ({s with curPtr := u64 (ptr+size)},ptr)

def clear (s : Arena) : Arena := {s with curPtr := s.memPtr}

def Arena.size (s : Arena) : ℕ := sub64 s.curPtr s.memPtr
def Arena.remains (s : Arena) : ℕ := sub64 s.endPtr s.curPtr

/-- A range that `allocate` returned. -/
structure Range where
  ptr : ℕ
  size : ℕ
  align : ℕ

/-- The allocator and the ranges returned since the last `clear`. -/
structure State where
  arena : Arena
  live : List Range

/-- The alignments are the powers of two of `uint16_t`. -/
inductive Event
  | allocate (k : Fin 16) (size : UInt64)
  | clear

def step (s : State) : Event → State
  | .allocate k size =>
    let r := allocate s.arena (2^k.val) size.toNat
    ⟨r.1,if r.2 ≠ 0 then ⟨r.2,size.toNat,2^k.val⟩::s.live else s.live⟩
  | .clear => ⟨clear s.arena,[]⟩

/-- An arena of `capacity` bytes, anywhere below the last address, or none. -/
def system (capacity : UInt64) : TransitionSystem State Event where
  init s := ∃ memPtr, memPtr+capacity.toNat < 2^64 ∧ s = ⟨stackAllocator capacity.toNat memPtr,[]⟩
  step s e := some (step s e)

/-- Two ranges do not overlap. -/
def Apart (a b : Range) : Prop := a.ptr+a.size ≤ b.ptr ∨ b.ptr+b.size ≤ a.ptr

/-- The cursor is in the arena, and the ranges are aligned, inside the arena and apart. -/
structure Sound (capacity : ℕ) (s : State) : Prop where
  cursor : s.arena.memPtr ≤ s.arena.curPtr ∧ s.arena.curPtr ≤ s.arena.endPtr
  aligned : ∀ r ∈ s.live, r.ptr % r.align = 0
  inside : ∀ r ∈ s.live, s.arena.memPtr ≤ r.ptr ∧ r.ptr+r.size ≤ s.arena.endPtr
  apart : s.live.Pairwise Apart
  sizes : s.arena.memPtr ≠ 0 → s.arena.size+s.arena.remains = capacity

/-- The call keeps everything sound, and changes nothing where it returns null. -/
def Sound.Call (capacity : ℕ) (s : State) (k : Fin 16) (size : UInt64) : Prop :=
  Sound capacity (step s (.allocate k size)) ∧
  ((allocate s.arena (2^k.val) size.toNat).2 = 0 → step s (.allocate k size) = s)

section Align

variable {k mem : ℕ}

/-- The next multiple of `align`, without wrapping. -/
def roundUp (mem align : ℕ) : ℕ := (mem+(align-1))/align*align

theorem alignMem_eq (hk : k < 64) (mem : ℕ) : alignMem mem (2^k) = u64 (roundUp mem (2^k)) := by
  have hmask : 2^64-1-(2^k-1) = 2^64-((2^k-1)+1) := by omega
  have hlt : 2^k-1 < 2^64 := by
    have := Nat.pow_lt_pow_right (a := 2) (by norm_num) hk
    omega
  refine Nat.eq_of_testBit_eq fun i => ?_
  rw [alignMem,hmask,Nat.testBit_and,Nat.testBit_two_pow_sub_succ hlt,Nat.testBit_two_pow_sub_one,u64,u64,
    Nat.testBit_mod_two_pow,Nat.testBit_mod_two_pow,roundUp,Nat.testBit_mul_two_pow,Nat.testBit_div_two_pow]
  by_cases hi : i < 64
  · by_cases hki : k ≤ i
    · simp [hi,hki,Nat.not_lt.mpr hki]
    · simp [hki,Nat.lt_of_not_le hki]
  · simp [hi]

theorem le_roundUp (hk : 0 < k) : mem ≤ roundUp mem k := by
  have := Nat.lt_mul_div_succ (mem+(k-1)) hk
  rw [roundUp,Nat.mul_comm]
  rw [Nat.mul_succ] at this
  omega

theorem roundUp_lt (hk : 0 < k) : roundUp mem k < mem+k := by
  have := Nat.div_mul_le_self (mem+(k-1)) k
  rw [roundUp]
  omega

theorem dvd_roundUp : k ∣ roundUp mem k := Nat.dvd_mul_left _ _

theorem roundUp_wrap (hk : k ≤ 64) (hmem : mem < 2^64) (h : 2^64 ≤ roundUp mem (2^k)) :
    roundUp mem (2^k) = 2^64 := by
  have hlt := @roundUp_lt (2^k) mem (by positivity)
  have hdvd : 2^k ∣ roundUp mem (2^k)-2^64 := Nat.dvd_sub dvd_roundUp (pow_dvd_pow 2 hk)
  have := Nat.eq_zero_of_dvd_of_lt hdvd (by omega)
  omega

end Align

/-- The end of the range stays below 2^64; or it wraps to a number that is still beyond the arena; or
the round-up wraps to 0 and the call puts the cursor where it is. -/
def Proper (s : Arena) (align size : ℕ) : Prop :=
  roundUp s.curPtr align+size < 2^64 ∨ s.endPtr < u64 (roundUp s.curPtr align+size) ∨
    roundUp s.curPtr align = 2^64 ∧ size = s.curPtr

instance (s : Arena) (align size : ℕ) : Decidable (Proper s align size) :=
  inferInstanceAs (Decidable (_ ∨ _ ∨ _))

/-- The requests of a run are proper in the states they are made in. -/
def AllProper (s : State) : Event → Prop
  | .allocate k size => Proper s.arena (2^k.val) size.toNat
  | .clear => True

/-- An arena of `capacity` bytes or none, the cursor in it, and all ranges below the cursor. -/
structure Inv (capacity : ℕ) (s : State) : Prop where
  arena : s.arena.memPtr = 0 ∧ s.arena.endPtr = 0 ∨
    0 < s.arena.memPtr ∧ s.arena.endPtr = s.arena.memPtr+capacity
  bound : s.arena.endPtr < 2^64
  cursor : s.arena.memPtr ≤ s.arena.curPtr ∧ s.arena.curPtr ≤ s.arena.endPtr
  aligned : ∀ r ∈ s.live, r.ptr % r.align = 0
  below : ∀ r ∈ s.live, s.arena.memPtr ≤ r.ptr ∧ r.ptr+r.size ≤ s.arena.curPtr
  apart : s.live.Pairwise Apart

section Calls

variable {capacity : ℕ} {s : State} {k : Fin 16} {size : UInt64}

theorem Inv.sound (hI : Inv capacity s) : Sound capacity s where
  cursor := hI.cursor
  aligned := hI.aligned
  inside r hr := ⟨(hI.below r hr).1,(hI.below r hr).2.trans hI.cursor.2⟩
  apart := hI.apart
  sizes hmem := by
    have hbound := hI.bound
    have hcursor := hI.cursor
    have harena := hI.arena
    simp only [Arena.size,Arena.remains,sub64]
    omega

theorem stackAllocator_inv {memPtr : ℕ} (h : memPtr+capacity < 2^64) :
    Inv capacity ⟨stackAllocator capacity memPtr,[]⟩ := by
  have hend : (stackAllocator capacity memPtr).endPtr = memPtr+if memPtr ≠ 0 then capacity else 0 := by
    refine Nat.mod_eq_of_lt ?_
    split <;> omega
  refine ⟨?_,?_,⟨le_rfl,?_⟩,by simp,by simp,List.Pairwise.nil⟩
  · by_cases hnull : memPtr = 0
    · exact .inl ⟨hnull,by rw [hend,hnull]; rfl⟩
    · exact .inr ⟨Nat.pos_of_ne_zero hnull,by rw [hend,if_pos hnull]; rfl⟩
  · rw [hend]
    split <;> omega
  · rw [hend]
    exact Nat.le_add_right _ _

theorem clear_inv (hI : Inv capacity s) : Inv capacity (step s .clear) :=
  ⟨hI.arena,hI.bound,⟨le_rfl,hI.cursor.1.trans hI.cursor.2⟩,by simp [step],by simp [step],List.Pairwise.nil⟩

theorem allocate_eq (s : Arena) (k : Fin 16) (size : ℕ) : allocate s (2^k.val) size =
    if u64 (roundUp s.curPtr (2^k.val)+size) > s.endPtr then (s,0)
    else ({s with curPtr := u64 (roundUp s.curPtr (2^k.val)+size)},u64 (roundUp s.curPtr (2^k.val))) := by
  have hwrap : u64 (u64 (roundUp s.curPtr (2^k.val))+size) = u64 (roundUp s.curPtr (2^k.val)+size) := by
    simp only [u64]
    omega
  simp only [allocate,alignMem_eq (show k.val < 64 by omega),hwrap]

theorem step_unchanged (h : allocate s.arena (2^k.val) size.toNat = (s.arena,0)) :
    step s (.allocate k size) = s := by
  simp [step,h]

theorem push_inv (hI : Inv capacity s) (hend : roundUp s.arena.curPtr (2^k.val)+size.toNat ≤ s.arena.endPtr)
    (hcall : allocate s.arena (2^k.val) size.toNat =
      ({s.arena with curPtr := roundUp s.arena.curPtr (2^k.val)+size.toNat},roundUp s.arena.curPtr (2^k.val))) :
    Inv capacity (step s (.allocate k size)) := by
  have hle : s.arena.curPtr ≤ roundUp s.arena.curPtr (2^k.val) := le_roundUp (by positivity)
  have hmem := hI.cursor.1
  simp only [step,hcall]
  have hold : ∀ r ∈ s.live, s.arena.memPtr ≤ r.ptr ∧
      r.ptr+r.size ≤ roundUp s.arena.curPtr (2^k.val)+size.toNat := by
    intro r hr
    have := hI.below r hr
    omega
  split
  · refine ⟨hI.arena,hI.bound,⟨by dsimp only; omega,hend⟩,?_,?_,?_⟩
    · exact List.forall_mem_cons.mpr ⟨Nat.mod_eq_zero_of_dvd dvd_roundUp,hI.aligned⟩
    · exact List.forall_mem_cons.mpr ⟨⟨hmem.trans hle,le_rfl⟩,hold⟩
    · refine List.pairwise_cons.mpr ⟨fun r hr => .inr ?_,hI.apart⟩
      exact (hI.below r hr).2.trans hle
  · exact ⟨hI.arena,hI.bound,⟨by dsimp only; omega,hend⟩,hI.aligned,hold,hI.apart⟩

theorem allocate_proper (hI : Inv capacity s) (h : Proper s.arena (2^k.val) size.toNat) :
    Inv capacity (step s (.allocate k size)) ∧
    ((allocate s.arena (2^k.val) size.toNat).2 = 0 → step s (.allocate k size) = s) := by
  have hbound := hI.bound
  have hcursor := hI.cursor
  have hcall := allocate_eq s.arena k size.toNat
  split at hcall
  · have hsame := step_unchanged hcall
    exact ⟨by rwa [hsame],fun _ => hsame⟩
  rename_i hend
  rcases h with hlt | hwrap | ⟨hzero,hsize⟩
  · have hsum : u64 (roundUp s.arena.curPtr (2^k.val)+size.toNat) =
        roundUp s.arena.curPtr (2^k.val)+size.toNat := Nat.mod_eq_of_lt hlt
    have hptr : u64 (roundUp s.arena.curPtr (2^k.val)) = roundUp s.arena.curPtr (2^k.val) :=
      Nat.mod_eq_of_lt (by omega)
    rw [hsum] at hend
    rw [hsum,hptr] at hcall
    refine ⟨push_inv hI (Nat.le_of_not_lt hend) hcall,fun hnull => step_unchanged ?_⟩
    -- a null pointer means that there is no arena, and then nothing fits but the empty range
    rw [hcall] at hnull
    dsimp only at hnull
    have hle : s.arena.curPtr ≤ roundUp s.arena.curPtr (2^k.val) := le_roundUp (by positivity)
    have hcur : s.arena.curPtr = 0 := by omega
    have hempty : size.toNat = 0 := by
      have := hI.arena
      omega
    have hsame : ({s.arena with curPtr := 0} : Arena) = s.arena := by
      rw [← hcur]
    rw [hcall,hnull,hempty,Nat.add_zero,hsame]
  · exact absurd hwrap hend
  · have hsum : u64 (roundUp s.arena.curPtr (2^k.val)+size.toNat) = s.arena.curPtr := by
      simp only [hzero,hsize,u64]
      omega
    have hptr : u64 (roundUp s.arena.curPtr (2^k.val)) = 0 := by
      rw [hzero]
      rfl
    rw [hsum,hptr] at hcall
    have hsame := step_unchanged hcall
    exact ⟨by rwa [hsame],fun _ => hsame⟩

/-- Any other call moves the cursor down, or moves it and returns null. -/
theorem allocate_improper (hI : Inv capacity s) (h : ¬Proper s.arena (2^k.val) size.toNat) :
    ¬Sound.Call capacity s k size := by
  have hbound := hI.bound
  have hcursor := hI.cursor
  have hsize := size.toNat_lt
  rw [Proper,not_or,not_or] at h
  obtain ⟨hge,hend,hmoves⟩ := h
  have hcall := allocate_eq s.arena k size.toNat
  rw [if_neg hend] at hcall
  rintro ⟨hsound,hnull⟩
  by_cases hwrap : 2^64 ≤ roundUp s.arena.curPtr (2^k.val)
  · have hzero := roundUp_wrap (show k.val ≤ 64 by omega) (by omega) hwrap
    rw [hcall,hzero] at hnull
    have hsame := congrArg (fun t => t.arena.curPtr) (hnull rfl)
    simp only [step,hcall,hzero,u64] at hsame
    exact hmoves ⟨hzero,by omega⟩
  · have hle : s.arena.curPtr ≤ roundUp s.arena.curPtr (2^k.val) := le_roundUp (by positivity)
    have hptr : u64 (roundUp s.arena.curPtr (2^k.val)) = roundUp s.arena.curPtr (2^k.val) :=
      Nat.mod_eq_of_lt (by omega)
    rw [hptr] at hcall
    have hpos : roundUp s.arena.curPtr (2^k.val) ≠ 0 := by omega
    have hin := (hsound.inside ⟨roundUp s.arena.curPtr (2^k.val),size.toNat,2^k.val⟩
      (by simp only [step,hcall]; rw [if_pos hpos]; exact List.mem_cons_self)).2
    simp only [step,hcall] at hin
    omega

end Calls

section Runs

variable {capacity : UInt64} {s : State}

theorem inv_of_reachable (h : (system capacity).ReachableBy AllProper s) : Inv capacity.toNat s := by
  refine TransitionSystem.ReachableBy.invariant (P := Inv capacity.toNat) ?_ ?_ h
  · rintro s ⟨memPtr,hlt,rfl⟩
    exact stackAllocator_inv hlt
  · intro s e t hI hok hs
    obtain rfl := Option.some.inj hs
    cases e with
    | allocate k size => exact (allocate_proper hI hok).1
    | clear => exact clear_inv hI

/-- In a run of proper calls everything is sound in every state, and the next call keeps it so if
and only if it is proper. -/
theorem sound_call_iff (h : (system capacity).ReachableBy AllProper s) : Sound capacity.toNat s ∧
    ∀ k size, Sound.Call capacity.toNat s k size ↔ Proper s.arena (2^k.val) size.toNat := by
  have hI := inv_of_reachable h
  refine ⟨hI.sound,fun k size => ⟨fun hcall => ?_,fun hproper => ?_⟩⟩
  · by_contra hno
    exact allocate_improper hI hno hcall
  · exact ⟨(allocate_proper hI hproper).1.sound,(allocate_proper hI hproper).2⟩

/-- 32 bytes of an arena of 64 bytes. -/
theorem sound_call_iff_first : Sound.Call 64 ⟨stackAllocator 64 4096,[]⟩ 4 32 :=
  ((@sound_call_iff 64 _ (.init ⟨4096,by decide,rfl⟩)).2 4 32).mpr (by decide)

/-- A request for 2^64 - 16 bytes puts the cursor below the arena. -/
theorem not_sound_wrapping : ¬∀ (capacity : UInt64) s, (system capacity).Reachable s →
    Sound capacity.toNat s := by
  intro hall
  have hinit : (system 64).Reachable ⟨stackAllocator 64 4096,[]⟩ := .init ⟨4096,by decide,rfl⟩
  have hsound := hall 64 _ (hinit.step trivial (e:=.allocate 0 18446744073709551600) rfl)
  exact absurd hsound.cursor.1 (by decide)

end Runs

end StackAllocator
end SdkCp
