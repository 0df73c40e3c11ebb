import SdkCp.WebSocketReceive

/-! The two unmasking loops of websocket.cpp in memory. One counts with an `int32_t` up to a
64-bit length, the other with a `uint32_t` up to a 32-bit one. -/
namespace SdkCp
namespace WebSocket

open Bytes

/-- An `int32_t` compared with a `uint64_t` is converted to one. -/
def toUInt64 (i : ℤ) : ℕ := (i % 2^64).toNat

/-- `*(data+i) = *(data+i) ^ *(key+i%4)`. -/
def unmaskByte (key data : ℕ) (i : ℤ) (m : Mem) : Mem :=
  store m (data+i).toNat [m (data+i).toNat ^^^ m (key+i.tmod 4).toNat]

/-- The loop of `unmask_payload_data(frame)`; `none` where `++i` overflows. -/
def unmaskFrameLoop (key data len : ℕ) (i : ℤ) (m : Mem) : Option Mem :=
  if toUInt64 i < len then
    if i+1 < 2^31 then unmaskFrameLoop key data len (i+1) (unmaskByte key data i m) else none
  else some m
termination_by (2^31-i).toNat

/-- What `unmask_payload_data` sees of a `frame_t`: where its key is and the payload. -/
structure FramePtr where
  maskingKey : ℕ
  payloadData : Option ℕ
  payloadLen : ℕ

/-- `unmask_payload_data(frame)`, with the result it returns. -/
def unmaskPayloadDataFrame (f : FramePtr) (m : Mem) : Option (ℤ × Mem) :=
  match f.payloadData with
  | some data =>
    if 0 < f.payloadLen then
      (unmaskFrameLoop f.maskingKey data f.payloadLen 0 m).map fun m => (0,m)
    else some (-1,m)
  | none => some (-1,m)

/-- The loop of `unmask_payload_data(masking_key, payload_data, payload_len)`. -/
def unmaskKeyLoop (key data : ℕ) (len i : UInt32) (m : Mem) : Mem :=
  if i < len then
    unmaskKeyLoop key data len (i+1)
      (store m (data+i.toNat) [m (data+i.toNat) ^^^ m (key+(i % 4).toNat)])
  else m
termination_by len.toNat-i.toNat
decreasing_by
  rename_i hlt
  have hlt : i.toNat < len.toNat := hlt
  have hsize := len.toNat_lt
  rw [UInt32.toNat_add,show (1 : UInt32).toNat = 1 from rfl,Nat.mod_eq_of_lt (by omega)]
  omega

/-- `unmask_payload_data(masking_key, payload_data, payload_len)`. -/
def unmaskPayloadDataKey (maskingKey payloadData : Option ℕ) (payloadLen : UInt32) (m : Mem) :
    ℤ × Mem :=
  match maskingKey,payloadData with
  | some key,some data => if payloadLen = 0 then (-1,m) else (0,unmaskKeyLoop key data payloadLen 0 m)
  | _,_ => (-1,m)

/-- A frame as step FOUR has it: a block of `len` bytes apart from the key in the frame. -/
structure PayloadFrame where
  key : ℕ
  data : ℕ
  len : ℕ
  pos : 0 < len
  len_lt : len < 2^64
  separate : key+4 ≤ data ∨ data+len ≤ key

def PayloadFrame.ptr (f : PayloadFrame) : FramePtr := ⟨f.key,some f.data,f.len⟩

/-- The function returns, and byte `i` of the payload is combined with byte `i mod 4` of the
key, nothing else has changed, and the twin with a 32-bit length does the same. -/
def Unmasks (f : PayloadFrame) (m : Mem) : Prop :=
  ∃ m', unmaskPayloadDataFrame f.ptr m = some (0,m') ∧
    (∀ i < f.len, m' (f.data+i) = m (f.data+i) ^^^ m (f.key+i % 4)) ∧
    (∀ a, a < f.data ∨ f.data+f.len ≤ a → m' a = m a) ∧
    (f.len < 2^32 →
      unmaskPayloadDataKey (some f.key) (some f.data) (UInt32.ofNat f.len) m = (0,m'))

variable (f : PayloadFrame)

/-- Memory with the bytes from index `i` on unmasked. -/
def unmaskedFrom (i : ℕ) (m : Mem) : Mem := fun a =>
  if f.data+i ≤ a ∧ a < f.data+f.len then m a ^^^ m (f.key+(a-f.data) % 4) else m a

theorem unmaskedFrom_len (m : Mem) : unmaskedFrom f f.len m = m := by
  funext a
  exact if_neg (by omega)

theorem unmaskedFrom_succ {i : ℕ} (h : i < f.len) (m : Mem) :
    unmaskedFrom f (i+1) (store m (f.data+i) [m (f.data+i) ^^^ m (f.key+i % 4)]) =
      unmaskedFrom f i m := by
  have hsep := f.separate
  have houtside : ∀ a, a ≠ f.data+i →
      store m (f.data+i) [m (f.data+i) ^^^ m (f.key+i % 4)] a = m a := fun a ha =>
    store_apply_of_outside (by simp only [List.length_singleton]; omega)
  funext a
  simp only [unmaskedFrom]
  have hkey : f.key+(a-f.data) % 4 ≠ f.data+i := by
    have := Nat.mod_lt (a-f.data) (show 0 < 4 by norm_num)
    omega
  rcases Nat.lt_trichotomy a (f.data+i) with hlt | rfl | hgt
  · rw [if_neg (by omega),if_neg (by omega),houtside a (by omega)]
  · rw [if_neg (by omega),if_pos (by omega),Nat.add_sub_cancel_left]
    exact store_apply_add (i:=0) (by simp)
  · rw [houtside a (by omega),houtside _ hkey]
    refine if_congr ?_ rfl rfl
    omega

theorem unmaskByte_eq (key data i : ℕ) (m : Mem) :
    unmaskByte key data i m = store m (data+i) [m (data+i) ^^^ m (key+i % 4)] := by
  have hdata : ((data : ℤ)+i).toNat = data+i := by omega
  have hkey : ((key : ℤ)+(i : ℤ).tmod 4).toNat = key+i % 4 := by
    rw [Int.tmod_eq_emod_of_nonneg (by omega)]
    omega
  rw [unmaskByte,hdata,hkey]

/-- The loop from index `i` on; the induction is on what is left up to `2^31`. -/
theorem unmaskFrameLoop_eq {i : ℕ} (hi : i ≤ f.len) (hlt : i < 2^31) (m : Mem) :
    unmaskFrameLoop f.key f.data f.len i m =
      if f.len < 2^31 then some (unmaskedFrom f i m) else none := by
  have h64 : toUInt64 i = i := by
    unfold toUInt64
    omega
  induction hk : 2^31-1-i generalizing i m with
  | zero =>
    rw [unmaskFrameLoop,h64]
    rcases Nat.lt_or_ge i f.len with hlen | hlen
    · rw [if_pos hlen,if_neg (by omega),if_neg (by omega)]
    · obtain rfl : i = f.len := by omega
      rw [if_neg hlen.not_gt,if_pos hlt,unmaskedFrom_len]
  | succ k ih =>
    rw [unmaskFrameLoop,h64]
    rcases Nat.lt_or_ge i f.len with hlen | hlen
    · rw [if_pos hlen,if_pos (by omega),unmaskByte_eq,← Nat.cast_succ,
        ih (by omega) (by omega) _ (by unfold toUInt64; omega) (by omega),
        unmaskedFrom_succ f hlen]
    · obtain rfl : i = f.len := by omega
      rw [if_neg hlen.not_gt,if_pos hlt,unmaskedFrom_len]

theorem unmaskKeyLoop_eq (h32 : f.len < 2^32) {i : ℕ} (hi : i ≤ f.len) (m : Mem) :
    unmaskKeyLoop f.key f.data (UInt32.ofNat f.len) (UInt32.ofNat i) m = unmaskedFrom f i m := by
  have hval : ∀ n ≤ f.len, (UInt32.ofNat n).toNat = n := fun n hn => by
    rw [UInt32.toNat_ofNat',Nat.mod_eq_of_lt (by omega)]
  induction hk : f.len-i generalizing i m with
  | zero =>
    obtain rfl : i = f.len := by omega
    rw [unmaskKeyLoop,if_neg (by simp),unmaskedFrom_len]
  | succ k ih =>
    have hlen : i < f.len := by omega
    have hcond : UInt32.ofNat i < UInt32.ofNat f.len := by
      rw [UInt32.lt_iff_toNat_lt,hval i hi,hval _ le_rfl]
      exact hlen
    have hnext : UInt32.ofNat i+1 = UInt32.ofNat (i+1) := by
      rw [UInt32.ofNat_add]
      rfl
    have hmod : (UInt32.ofNat i % 4).toNat = i % 4 := by
      rw [UInt32.toNat_mod,hval i hi]
      rfl
    rw [unmaskKeyLoop,if_pos hcond,hnext,ih hlen _ (by omega),hval i hi,hmod,unmaskedFrom_succ f hlen]

/-- The loop in memory does what `unmaskFrom` does to the list of the payload. -/
theorem load_unmaskedFrom (hlen : f.len ≤ 2^31) (m : Mem) :
    load (unmaskedFrom f 0 m) f.data f.len =
      unmaskFrom (load m f.key 4) 0 (load m f.data f.len) := by
  rw [unmaskFrom_eq _ (by simpa using hlen)]
  apply List.ext_getElem (by simp)
  intro i h₁ h₂
  have hi : i < f.len := by simpa using h₁
  have hmod : i % 4 < 4 := Nat.mod_lt _ (by norm_num)
  simp [load,unmaskedFrom,hi,List.getD_eq_getElem?_getD,List.getElem?_range hmod]

theorem unmaskPayloadDataFrame_eq (m : Mem) : unmaskPayloadDataFrame f.ptr m =
    if f.len < 2^31 then some (0,unmaskedFrom f 0 m) else none := by
  have hloop := unmaskFrameLoop_eq f (Nat.zero_le _) (by norm_num) m
  have hframe : unmaskPayloadDataFrame f.ptr m =
      (unmaskFrameLoop f.key f.data f.len (0 : ℕ) m).map fun m => (0,m) := by
    simp [unmaskPayloadDataFrame,PayloadFrame.ptr,f.pos]
  rw [hframe,hloop]
  split <;> rfl

/-- Unmasking does what it should exactly on the payloads of less than `2^31` bytes. -/
theorem unmasks_iff (m : Mem) : Unmasks f m ↔ f.len < 2^31 := by
  constructor
  · rintro ⟨m',hreturn,-⟩
    by_contra hge
    rw [unmaskPayloadDataFrame_eq,if_neg hge] at hreturn
    simp at hreturn
  · intro hlt
    refine ⟨unmaskedFrom f 0 m,?_,fun i hi => ?_,fun a ha => ?_,fun h32 => ?_⟩
    · rw [unmaskPayloadDataFrame_eq,if_pos hlt]
    · rw [unmaskedFrom,if_pos (by omega),Nat.add_sub_cancel_left]
    · exact if_neg (by omega)
    · have hne : UInt32.ofNat f.len ≠ 0 := by
        intro hzero
        have hpos := f.pos
        have hval := congrArg UInt32.toNat hzero
        rw [UInt32.toNat_ofNat',Nat.mod_eq_of_lt h32] at hval
        simp at hval
        omega
      have htwin := unmaskKeyLoop_eq f h32 (Nat.zero_le _) m
      simp only [unmaskPayloadDataKey,if_neg hne]
      rw [← htwin]
      rfl

/-- A payload of `2^31` bytes. -/
def longPayload : PayloadFrame := ⟨0,4,2^31,by decide,by decide,by decide⟩

theorem not_unmasks : ¬∀ f m, Unmasks f m := by
  intro hall
  obtain ⟨m',hreturn,-⟩ := hall longPayload fun _ => 0
  rw [unmaskPayloadDataFrame_eq,if_neg (show ¬longPayload.len < 2^31 from lt_irrefl _)] at hreturn
  simp at hreturn

end WebSocket
end SdkCp
