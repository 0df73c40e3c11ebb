import SdkCp.WebSocketReceive

/-! The frame encoders of web_server/ws/frame.cpp: one puts the header in front of a
payload that is already in its string, the other copies header and payload into a block
of its own. Both give the unmasked frame of RFC 6455 in its shortest form. The host is
little-endian. -/
namespace SdkCp
namespace WebSocket

open Bytes

/-! tools.h -/

def myhtons (n : ℕ) : ℕ := ((n &&& 0xff00) >>> 8) ||| ((n &&& 0x00ff) <<< 8)

def myhtonl (n : ℕ) : ℕ :=
  ((n &&& 0xff000000) >>> 24) ||| ((n &&& 0x00ff0000) >>> 8) ||| ((n &&& 0x0000ff00) <<< 8) |||
    ((n &&& 0x000000ff) <<< 24)

def myhtonll (n : ℕ) : ℕ := myhtonl (n >>> 32) ||| (myhtonl (n % 2^32) <<< 32)

/-! frame.h and frame.cpp -/

/-- `frame_buffer_t`, without its reference to a string. -/
structure FrameBufferT where
  data : Option ℕ
  len : ℕ
  deriving DecidableEq

def FrameBufferT.kPrefixSize : ℕ := 16

open FrameBufferT (kPrefixSize)

/-- A `std::string` in memory; `max_size()` is below `2^63`. -/
structure StdString where
  data : ℕ
  size : ℕ
  size_lt : size < 2^63

/-- The two bytes at `p`, and behind them the copies of the length and of the key. -/
def putHeader (m : Mem) (p : ℕ) (c₁ c₂ : UInt8) (tmplen key : List UInt8) : Mem :=
  store (store (store (store m p [c₁]) (p+1) [c₂]) (p+2) tmplen) (p+2+tmplen.length) key

/-- One length class of the encoder in place: where the header goes and how long the frame is. -/
def putInPlace (m : Mem) (data : StdString) (c₁ c₂ : UInt8) (tmplen key : List UInt8) :
    Option ℕ × ℕ × Mem :=
  let p := data.data+(kPrefixSize-(2+tmplen.length+key.length))
  (some p,2+tmplen.length+key.length+data.size-kPrefixSize,putHeader m p c₁ c₂ tmplen key)

/-- `frame_buffer_new(fin, opcode, data)`. The two branches of each class differ in the
key, which only a masked frame has. -/
def frameBufferNewInPlace (fin opcode : UInt8) (data : StdString) (m : Mem) : FrameBufferT × Mem :=
  let fb : FrameBufferT := ⟨none,0⟩
  if fin > 1 ∨ opcode > 0xf then (fb,m)
  else if data.size < kPrefixSize then (fb,m)
  else
    let mask : UInt8 := 0
    let key : List UInt8 := if mask = 0 then [] else [0,0,0,0]
    let c₁ := ((0x00 : UInt8) ||| (fin <<< 7)) ||| opcode
    let c₂ := (0x00 : UInt8) ||| (mask <<< 7)
    let (p,len,m) : Option ℕ × ℕ × Mem :=
      if data.size = kPrefixSize then putInPlace m data c₁ c₂ [] key
      else if data.size ≤ 125+kPrefixSize then
        putInPlace m data c₁ (c₂+UInt8.ofNat data.size-UInt8.ofNat kPrefixSize) [] key
      else if data.size ≥ 126+kPrefixSize ∧ data.size ≤ 65535+kPrefixSize then
        putInPlace m data c₁ (c₂+126) (leBytes 2 (myhtons ((data.size-kPrefixSize) % 2^16))) key
      else if data.size ≥ 65536+kPrefixSize then
        putInPlace m data c₁ (c₂+127) (leBytes 8 (myhtonll (data.size-kPrefixSize))) key
      else (none,0,m)
    if p.isSome ∧ len > 0 then (⟨p,len⟩,m) else (fb,m)

/-- The two allocations: `new char[n]`, without memory where it throws, and whether
`new (nothrow) frame_buffer_t()` finds some. -/
structure New where
  char : ℕ → Option ℕ
  frameBuffer : Bool

/-- One length class of the copying encoder, with `n` bytes of payload at `payload`. -/
def putCopy (new : New) (m : Mem) (c₁ c₂ : UInt8) (tmplen key : List UInt8) (payload n : ℕ) :
    Option (Option ℕ × ℕ × Mem) :=
  let len := (2+tmplen.length+key.length+n) % 2^64
  (new.char len).map fun p =>
    let m := putHeader m p c₁ c₂ tmplen key
    (some p,len,store m (p+(2+tmplen.length+key.length)) (load m payload n))

/-- `frame_buffer_new(fin, opcode, payload_len, payload_data)`; `none` is `std::bad_alloc`. -/
def frameBufferNew (new : New) (fin opcode : UInt8) (payloadLen : ℕ) (payloadData : Option ℕ)
    (m : Mem) : Option (Option FrameBufferT × Mem) :=
  if fin > 1 ∨ opcode > 0xf then some (none,m)
  else
    let mask : UInt8 := 0
    let key : List UInt8 := if mask = 0 then [] else [0,0,0,0]
    let c₁ := ((0x00 : UInt8) ||| (fin <<< 7)) ||| opcode
    let c₂ := (0x00 : UInt8) ||| (mask <<< 7)
    let payload := payloadData.getD 0
    let block : Option (Option ℕ × ℕ × Mem) :=
      if payloadData = none ∨ payloadLen = 0 then putCopy new m c₁ c₂ [] key payload 0
      else if payloadLen ≤ 125 then
        putCopy new m c₁ (c₂+UInt8.ofNat payloadLen) [] key payload payloadLen
      else if payloadLen ≥ 126 ∧ payloadLen ≤ 65535 then
        putCopy new m c₁ (c₂+126) (leBytes 2 (myhtons (payloadLen % 2^16))) key payload payloadLen
      else if payloadLen ≥ 65536 then
        putCopy new m c₁ (c₂+127) (leBytes 8 (myhtonll payloadLen)) key payload payloadLen
      else some (none,0,m)
    block.map fun (p,len,m) =>
      (if p.isSome ∧ len > 0 ∧ new.frameBuffer then some ⟨p,len⟩ else none,m)

namespace LengthForm

/-- The payloads a form can carry; the top bit of the 64 is not used. -/
def Fits : LengthForm → ℕ → Prop
  | .short, n => n ≤ 125
  | .medium, n => n < 2^16
  | .long, n => n < 2^63

/-- The 7-bit length field. -/
def code : LengthForm → ℕ → ℕ
  | .short, n => n
  | .medium, _ => 126
  | .long, _ => 127

/-- The extended length, big-endian. -/
def extended : LengthForm → ℕ → List UInt8
  | .short, _ => []
  | .medium, n => beBytes 2 n
  | .long, n => beBytes 8 n

def size : LengthForm → ℕ
  | .short => 0
  | .medium => 2
  | .long => 8

def shortest (n : ℕ) : LengthForm :=
  if n ≤ 125 then .short else if n < 2^16 then .medium else .long

theorem extended_length (form : LengthForm) (n : ℕ) : (form.extended n).length = form.size := by
  cases form <;> simp [extended,size,beBytes]

theorem shortest_fits {n : ℕ} (h : n < 2^63) : (shortest n).Fits n := by
  unfold shortest
  split_ifs with hshort hmedium
  · exact hshort
  · exact hmedium
  · exact h

theorem shortest_size_le {form : LengthForm} {n : ℕ} (h : form.Fits n) :
    (shortest n).size ≤ form.size := by
  unfold shortest
  cases form with
  | short => rw [if_pos (show n ≤ 125 from h)]
  | medium => split_ifs <;> simp_all [size,Fits]
  | long => split_ifs <;> simp [size]

theorem code_lt {form : LengthForm} {n : ℕ} (h : form.Fits n) : form.code n < 128 := by
  cases form <;> simp_all [code,Fits]
  omega

end LengthForm

/-- An unmasked frame without extension. -/
structure Unmasked where
  fin : UInt8
  opcode : UInt8
  payload : List UInt8
  form : LengthForm
  fin_le : fin ≤ 1
  opcode_le : opcode ≤ 0xf
  fits : form.Fits payload.length

namespace Unmasked

def header (f : Unmasked) : List UInt8 :=
  [(f.fin <<< 7) ||| f.opcode,UInt8.ofNat (f.form.code f.payload.length)] ++
    f.form.extended f.payload.length

def bytes (f : Unmasked) : List UInt8 := f.header ++ f.payload

theorem header_length (f : Unmasked) : f.header.length = 2+f.form.size := by
  simp [header,LengthForm.extended_length]
  omega

theorem bytes_length (f : Unmasked) : f.bytes.length = 2+f.form.size+f.payload.length := by
  rw [bytes,List.length_append,header_length]

end Unmasked

def ofBE (bs : List UInt8) : ℕ := ofLE bs.reverse

/-- The payload length behind a 7-bit length field, and what follows it. -/
def decodeLength (code : ℕ) (bs : List UInt8) : Option (ℕ × List UInt8) :=
  if code ≤ 125 then some (code,bs)
  else if code = 126 then
    if 2 ≤ bs.length then some (ofBE (bs.take 2),bs.drop 2) else none
  else if 8 ≤ bs.length ∧ ofBE (bs.take 8) < 2^63 then some (ofBE (bs.take 8),bs.drop 8) else none

/-- The fin bit, the opcode and the payload of an unmasked frame whose reserved bits are
zero, and what follows it. -/
def decode : List UInt8 → Option ((UInt8 × UInt8 × List UInt8) × List UInt8)
  | b₀::b₁::bs =>
    if b₀ &&& 0x70 = 0 ∧ b₁ &&& 0x80 = 0 then
      (decodeLength (b₁ &&& 0x7f).toNat bs).bind fun (n,bs) =>
        if n ≤ bs.length then some ((b₀ >>> 7,b₀ &&& 0x0f,bs.take n),bs.drop n) else none
    else none
  | _ => none

@[simp] theorem beBytes_length (n v : ℕ) : (beBytes n v).length = n := by simp [beBytes]

theorem ofBE_beBytes {n v : ℕ} (h : v < 256^n) : ofBE (beBytes n v) = v := by
  rw [ofBE,beBytes,List.reverse_reverse,ofLE_leBytes n v h]

theorem beBytes_ofBE (bs : List UInt8) : beBytes bs.length (ofBE bs) = bs := by
  have h := leBytes_ofLE bs.reverse
  rw [List.length_reverse] at h
  rw [beBytes,ofBE,h,List.reverse_reverse]

theorem leBytes_ofLE_beBytes (n v : ℕ) : leBytes n (ofLE (beBytes n v)) = beBytes n v := by
  have h := leBytes_ofLE (beBytes n v)
  rwa [beBytes_length] at h

theorem beBytes_ofLE_beBytes (n v : ℕ) : beBytes n (ofLE (beBytes n v)) = leBytes n v := by
  rw [beBytes,leBytes_ofLE_beBytes,beBytes,List.reverse_reverse]

theorem ofLE_beBytes_lt (n v : ℕ) : ofLE (beBytes n v) < 256^n := by
  have h := ofLE_lt (beBytes n v)
  rwa [beBytes_length] at h

theorem leBytes_myhtons {v : ℕ} (h : v < 2^16) : leBytes 2 (myhtons v) = beBytes 2 v := by
  have hswap := myntohs_beBytes (ofLE_beBytes_lt 2 v)
  rw [beBytes_ofLE_beBytes,ofLE_leBytes 2 v h] at hswap
  rw [show myhtons v = myntohs v from rfl,hswap,leBytes_ofLE_beBytes]

theorem leBytes_myhtonll {v : ℕ} (h : v < 2^64) : leBytes 8 (myhtonll v) = beBytes 8 v := by
  have hswap := myntohll_beBytes (ofLE_beBytes_lt 8 v)
  rw [beBytes_ofLE_beBytes,ofLE_leBytes 8 v h] at hswap
  rw [show myhtonll v = myntohll v from rfl,hswap,leBytes_ofLE_beBytes]

theorem decodeLength_extended {form : LengthForm} {n : ℕ} (h : form.Fits n) (bs : List UInt8) :
    decodeLength (form.code n) (form.extended n ++ bs) = some (n,bs) := by
  cases form with
  | short => exact if_pos (show n ≤ 125 from h)
  | medium =>
    have hlen := beBytes_length 2 n
    have hn : n < 256^2 := h
    simp [decodeLength,LengthForm.code,LengthForm.extended,List.take_left' hlen,List.drop_left' hlen,
      ofBE_beBytes hn]
  | long =>
    have hlen := beBytes_length 8 n
    have hn : n < 2^63 := h
    have hwide : n < 256^8 := by omega
    simp [decodeLength,LengthForm.code,LengthForm.extended,List.take_left' hlen,List.drop_left' hlen,
      ofBE_beBytes hwide]
    omega

theorem decodeLength_eq_some {code n : ℕ} {bs rest : List UInt8} (hcode : code < 128)
    (h : decodeLength code bs = some (n,rest)) :
    ∃ form : LengthForm, form.Fits n ∧ form.code n = code ∧ bs = form.extended n ++ rest := by
  unfold decodeLength at h
  split_ifs at h with hshort hmedium hroom hlong
  · obtain ⟨rfl,rfl⟩ : code = n ∧ bs = rest := by simpa using h
    exact ⟨.short,hshort,rfl,rfl⟩
  · obtain ⟨rfl,rfl⟩ : ofBE (bs.take 2) = n ∧ bs.drop 2 = rest := by simpa using h
    have hlen : (bs.take 2).length = 2 := List.length_take_of_le hroom
    have hbytes := beBytes_ofBE (bs.take 2)
    rw [hlen] at hbytes
    refine ⟨.medium,?_,hmedium.symm,?_⟩
    · have hlt := ofLE_lt (bs.take 2).reverse
      rwa [List.length_reverse,hlen] at hlt
    · rw [LengthForm.extended,hbytes,List.take_append_drop]
  · obtain ⟨rfl,rfl⟩ : ofBE (bs.take 8) = n ∧ bs.drop 8 = rest := by simpa using h
    have hbytes := beBytes_ofBE (bs.take 8)
    rw [List.length_take_of_le hlong.1] at hbytes
    refine ⟨.long,hlong.2,by simp only [LengthForm.code]; omega,?_⟩
    rw [LengthForm.extended,hbytes,List.take_append_drop]

theorem forall_byte {p : UInt8 → Prop} (h : ∀ n < 256, p (UInt8.ofNat n)) (b : UInt8) : p b := by
  have hb := h b.toNat b.toNat_lt
  rwa [UInt8.ofNat_toNat] at hb

theorem first_byte {fin opcode : UInt8} (hfin : fin ≤ 1) (hopcode : opcode ≤ 0xf) :
    ((fin <<< 7) ||| opcode) &&& 0x70 = 0 ∧ ((fin <<< 7) ||| opcode) >>> 7 = fin ∧
      ((fin <<< 7) ||| opcode) &&& 0x0f = opcode := by
  have hall : ∀ i < 2, ∀ j < 16, ∀ b, b = (UInt8.ofNat i <<< 7) ||| UInt8.ofNat j →
      b &&& 0x70 = 0 ∧ b >>> 7 = UInt8.ofNat i ∧ b &&& 0x0f = UInt8.ofNat j := by
    simp only [forall_eq]
    decide
  have hi : fin.toNat < 2 := Nat.lt_succ_of_le hfin
  have hj : opcode.toNat < 16 := Nat.lt_succ_of_le hopcode
  have h := hall fin.toNat hi opcode.toNat hj _ rfl
  rwa [UInt8.ofNat_toNat,UInt8.ofNat_toNat] at h

theorem first_byte_split (b : UInt8) : b &&& 0x70 = 0 →
    b >>> 7 ≤ 1 ∧ b &&& 0x0f ≤ 0xf ∧ ((b >>> 7) <<< 7) ||| (b &&& 0x0f) = b := by
  revert b
  apply forall_byte
  decide +kernel

theorem second_byte {n : ℕ} (h : n < 128) :
    UInt8.ofNat n &&& 0x80 = 0 ∧ (UInt8.ofNat n &&& 0x7f).toNat = n := by
  have hall : ∀ n < 128, UInt8.ofNat n &&& 0x80 = 0 ∧ (UInt8.ofNat n &&& 0x7f).toNat = n := by
    decide
  exact hall n h

theorem second_byte_split (b : UInt8) : b &&& 0x80 = 0 → b &&& 0x7f = b ∧ b.toNat < 128 := by
  revert b
  apply forall_byte
  decide +kernel

theorem decode_bytes (f : Unmasked) (rest : List UInt8) :
    decode (f.bytes ++ rest) = some ((f.fin,f.opcode,f.payload),rest) := by
  obtain ⟨hrsv,hfin,hopcode⟩ := first_byte f.fin_le f.opcode_le
  obtain ⟨hmask,hcode⟩ := second_byte (LengthForm.code_lt f.fits)
  simp only [Unmasked.bytes,Unmasked.header,List.cons_append,List.nil_append,List.append_assoc,decode]
  rw [if_pos ⟨hrsv,hmask⟩,hcode,decodeLength_extended f.fits,hfin,hopcode]
  simp

theorem decode_eq_some {bs rest payload : List UInt8} {fin opcode : UInt8}
    (h : decode bs = some ((fin,opcode,payload),rest)) :
    ∃ f : Unmasked, f.fin = fin ∧ f.opcode = opcode ∧ f.payload = payload ∧ bs = f.bytes ++ rest := by
  match bs,h with
  | b₀::b₁::bs,h =>
    rw [decode] at h
    split_ifs at h with hbits
    obtain ⟨⟨n,tail⟩,hlength,hpayload⟩ := Option.bind_eq_some_iff.mp h
    obtain ⟨hcode,hlt⟩ := second_byte_split b₁ hbits.2
    rw [hcode] at hlength
    obtain ⟨form,hfits,hn,rfl⟩ := decodeLength_eq_some hlt hlength
    obtain ⟨hfin,hopcode,hfirst⟩ := first_byte_split b₀ hbits.1
    dsimp only at hpayload
    split_ifs at hpayload with hroom
    simp only [Option.some.injEq,Prod.mk.injEq] at hpayload
    obtain ⟨⟨rfl,rfl,rfl⟩,rfl⟩ := hpayload
    have hlen : (tail.take n).length = n := List.length_take_of_le hroom
    refine ⟨⟨_,_,tail.take n,form,hfin,hopcode,by rwa [hlen]⟩,rfl,rfl,rfl,?_⟩
    simp [Unmasked.bytes,Unmasked.header,hlen,hfirst,hn]

theorem putHeader_eq (m : Mem) (p : ℕ) (c₁ c₂ : UInt8) (tmplen key : List UInt8) :
    putHeader m p c₁ c₂ tmplen key = store m p ([c₁,c₂] ++ tmplen ++ key) := by
  have hfirst : store (store m p [c₁]) (p+1) [c₂] = store m p [c₁,c₂] := store_append m p [c₁] [c₂]
  have hlength : store (store m p [c₁,c₂]) (p+2) tmplen = store m p ([c₁,c₂] ++ tmplen) :=
    store_append m p [c₁,c₂] tmplen
  have hkey := store_append m p ([c₁,c₂] ++ tmplen) key
  rw [show p+([c₁,c₂] ++ tmplen).length = p+2+tmplen.length by simp; omega] at hkey
  rw [putHeader,hfirst,hlength,hkey]

namespace Unmasked

variable {f : Unmasked} (hform : f.form = .shortest f.payload.length)
include hform

theorem header_short (h : f.payload.length ≤ 125) :
    f.header = [(f.fin <<< 7) ||| f.opcode,UInt8.ofNat f.payload.length] := by
  rw [header,hform,LengthForm.shortest,if_pos h]
  rfl

theorem header_medium (hlow : 125 < f.payload.length) (h : f.payload.length < 2^16) :
    f.header = [(f.fin <<< 7) ||| f.opcode,126] ++
      leBytes 2 (myhtons (f.payload.length % 2^16)) := by
  rw [header,hform,LengthForm.shortest,if_neg (by omega),if_pos h,Nat.mod_eq_of_lt h,leBytes_myhtons h]
  rfl

theorem header_long (hlow : 2^16 ≤ f.payload.length) (h : f.payload.length < 2^64) :
    f.header = [(f.fin <<< 7) ||| f.opcode,127] ++ leBytes 8 (myhtonll f.payload.length) := by
  rw [header,hform,LengthForm.shortest,if_neg (by omega),if_neg (by omega),leBytes_myhtonll h]
  rfl

end Unmasked

/-- Where the encoder in place puts the header of `f`. -/
def frameStart (data : StdString) (f : Unmasked) : ℕ := data.data+(kPrefixSize-f.header.length)

theorem header_length_le (f : Unmasked) : f.header.length ≤ 10 := by
  rw [Unmasked.header_length]
  cases f.form <;> simp [LengthForm.size]

theorem putInPlace_header {f : Unmasked} {data : StdString}
    (hsize : data.size = kPrefixSize+f.payload.length) {c₁ c₂ : UInt8} {tmplen : List UInt8}
    (h : f.header = [c₁,c₂] ++ tmplen) (m : Mem) :
    putInPlace m data c₁ c₂ tmplen [] =
      (some (frameStart data f),f.bytes.length,store m (frameStart data f) f.header) := by
  have hlen : f.header.length = 2+tmplen.length := by rw [h]; simp; omega
  have hbytes : f.bytes.length = 2+tmplen.length+data.size-kPrefixSize := by
    rw [Unmasked.bytes,List.length_append,hlen,hsize]
    omega
  simp only [putInPlace,putHeader_eq,frameStart,h,hbytes,List.append_nil,List.length_nil,Nat.add_zero]
  rw [← h,hlen]

theorem Unmasked.guard (f : Unmasked) : ¬ (f.fin > 1 ∨ f.opcode > 0xf) := by
  rintro (h | h)
  · exact absurd f.fin_le (UInt8.not_le.mpr h)
  · exact absurd f.opcode_le (UInt8.not_le.mpr h)

theorem Unmasked.bytes_pos (f : Unmasked) : 0 < f.bytes.length := by
  rw [bytes_length]
  omega

theorem first_byte_or (fin opcode : UInt8) :
    ((0x00 : UInt8) ||| (fin <<< 7)) ||| opcode = (fin <<< 7) ||| opcode := by simp

theorem second_byte_or : (0x00 : UInt8) ||| ((0 : UInt8) <<< 7) = 0 := by decide

theorem frameBufferNewInPlace_eq {f : Unmasked} (hform : f.form = .shortest f.payload.length)
    {data : StdString} (hsize : data.size = kPrefixSize+f.payload.length) (m : Mem) :
    frameBufferNewInPlace f.fin f.opcode data m =
      (⟨some (frameStart data f),f.bytes.length⟩,store m (frameStart data f) f.header) := by
  have hlt := data.size_lt
  have hprefix : ¬ data.size < kPrefixSize := by omega
  have hsub : data.size-kPrefixSize = f.payload.length := by omega
  have hput : (if data.size = kPrefixSize then
        putInPlace m data ((f.fin <<< 7) ||| f.opcode) 0 [] []
      else if data.size ≤ 125+kPrefixSize then
        putInPlace m data ((f.fin <<< 7) ||| f.opcode)
          (0+UInt8.ofNat data.size-UInt8.ofNat kPrefixSize) [] []
      else if data.size ≥ 126+kPrefixSize ∧ data.size ≤ 65535+kPrefixSize then
        putInPlace m data ((f.fin <<< 7) ||| f.opcode) (0+126)
          (leBytes 2 (myhtons (f.payload.length % 2^16))) []
      else if data.size ≥ 65536+kPrefixSize then
        putInPlace m data ((f.fin <<< 7) ||| f.opcode) (0+127)
          (leBytes 8 (myhtonll f.payload.length)) []
      else (none,0,m)) =
      (some (frameStart data f),f.bytes.length,store m (frameStart data f) f.header) := by
    split_ifs with hempty hshort hmedium hlong
    · apply putInPlace_header hsize
      rw [Unmasked.header_short hform (by omega),show f.payload.length = 0 by omega]
      rfl
    · apply putInPlace_header hsize
      -- the prefix is taken off after the cast to `uint8_t`, which may have wrapped
      have hcast : 0+UInt8.ofNat data.size-UInt8.ofNat kPrefixSize = UInt8.ofNat f.payload.length := by
        rw [hsize,UInt8.ofNat_add,UInt8.zero_add,UInt8.add_comm,UInt8.add_sub_cancel]
      rw [Unmasked.header_short hform (by omega),hcast]
      rfl
    · apply putInPlace_header hsize
      rw [Unmasked.header_medium hform (by omega) (by omega)]
      rfl
    · apply putInPlace_header hsize
      rw [Unmasked.header_long hform (by omega) (by omega)]
      rfl
    · omega
  simp only [frameBufferNewInPlace,if_neg f.guard,if_neg hprefix,first_byte_or,second_byte_or,hsub,if_true,
    hput]
  exact if_pos ⟨rfl,f.bytes_pos⟩

/-- `payload_data` points to these bytes; the null pointer stands for none. -/
def PointsTo (m : Mem) (payloadData : Option ℕ) (payload : List UInt8) : Prop :=
  match payloadData with
  | none => payload = []
  | some a => load m a payload.length = payload

theorem PointsTo.eq_nil {m : Mem} {payloadData : Option ℕ} {payload : List UInt8}
    (h : PointsTo m payloadData payload) (hempty : payloadData = none ∨ payload.length = 0) :
    payload = [] := by
  rcases hempty with rfl | hlen
  · exact h
  · exact List.length_eq_zero_iff.mp hlen

/-- `new char[]` gives blocks that do not overlap the `n` bytes at `payload_data`. -/
def New.Fresh (new : New) (payloadData : Option ℕ) (n : ℕ) : Prop :=
  ∀ len p, new.char len = some p → ∀ a ∈ payloadData, p+len ≤ a ∨ a+n ≤ p

theorem putCopy_header {f : Unmasked} (hlt : f.payload.length < 2^63) {c₁ c₂ : UInt8}
    {tmplen : List UInt8} (h : f.header = [c₁,c₂] ++ tmplen) {new : New} {m : Mem} {payload n : ℕ}
    (hn : f.payload.length = n) (hpayload : load m payload n = f.payload)
    (hfresh : ∀ p, new.char f.bytes.length = some p →
      n = 0 ∨ p+f.bytes.length ≤ payload ∨ payload+n ≤ p) :
    putCopy new m c₁ c₂ tmplen [] payload n =
      (new.char f.bytes.length).map fun p => (some p,f.bytes.length,store m p f.bytes) := by
  have hlen : 2+tmplen.length = f.header.length := by rw [h]; simp; omega
  have hbytes : (f.header.length+n) % 2^64 = f.bytes.length := by
    have hle := header_length_le f
    rw [Unmasked.bytes,List.length_append]
    omega
  simp only [putCopy,putHeader_eq,List.append_nil,List.length_nil,Nat.add_zero,hlen,← h,hbytes]
  apply Option.map_congr
  intro p hp
  have hapart := hfresh p hp
  rw [Unmasked.bytes,List.length_append] at hapart
  have hload : load (store m p f.header) payload n = f.payload := by
    rw [load_congr fun i _ _ => store_apply_of_outside (by omega),hpayload]
  rw [hload,store_append]
  rfl

/-- The copying encoder stores the frame in its block and nothing else. -/
theorem frameBufferNew_eq {f : Unmasked} (hform : f.form = .shortest f.payload.length)
    (hlt : f.payload.length < 2^63) {new : New} {m : Mem} {payloadData : Option ℕ}
    (hpayload : PointsTo m payloadData f.payload)
    (hfresh : new.Fresh payloadData f.payload.length) :
    frameBufferNew new f.fin f.opcode f.payload.length payloadData m =
      (new.char f.bytes.length).map fun p =>
        (if new.frameBuffer then some ⟨some p,f.bytes.length⟩ else none,store m p f.bytes) := by
  have hblock : (if payloadData = none ∨ f.payload.length = 0 then
        putCopy new m ((f.fin <<< 7) ||| f.opcode) 0 [] [] (payloadData.getD 0) 0
      else if f.payload.length ≤ 125 then
        putCopy new m ((f.fin <<< 7) ||| f.opcode) (0+UInt8.ofNat f.payload.length) [] []
          (payloadData.getD 0) f.payload.length
      else if f.payload.length ≥ 126 ∧ f.payload.length ≤ 65535 then
        putCopy new m ((f.fin <<< 7) ||| f.opcode) (0+126)
          (leBytes 2 (myhtons (f.payload.length % 2^16))) [] (payloadData.getD 0) f.payload.length
      else if f.payload.length ≥ 65536 then
        putCopy new m ((f.fin <<< 7) ||| f.opcode) (0+127)
          (leBytes 8 (myhtonll f.payload.length)) [] (payloadData.getD 0) f.payload.length
      else some (none,0,m)) =
      (new.char f.bytes.length).map fun p => (some p,f.bytes.length,store m p f.bytes) := by
    by_cases hempty : payloadData = none ∨ f.payload.length = 0
    · have hnil : f.payload = [] := hpayload.eq_nil hempty
      rw [if_pos hempty]
      apply putCopy_header hlt _ (by rw [hnil]; rfl) (by rw [hnil]; rfl) (fun p _ => Or.inl rfl)
      rw [Unmasked.header_short hform (by rw [hnil]; decide),hnil]
      rfl
    · rw [if_neg hempty]
      obtain ⟨hdata,_⟩ := not_or.mp hempty
      obtain ⟨payload,rfl⟩ := Option.ne_none_iff_exists'.mp hdata
      have hapart : ∀ p, new.char f.bytes.length = some p →
          f.payload.length = 0 ∨ p+f.bytes.length ≤ payload ∨ payload+f.payload.length ≤ p :=
        fun p hp => Or.inr (hfresh _ p hp payload rfl)
      split_ifs with hshort hmedium hlong
      · apply putCopy_header hlt _ rfl hpayload hapart
        rw [Unmasked.header_short hform hshort,UInt8.zero_add]
        rfl
      · apply putCopy_header hlt _ rfl hpayload hapart
        rw [Unmasked.header_medium hform (by omega) (by omega)]
        rfl
      · apply putCopy_header hlt _ rfl hpayload hapart
        rw [Unmasked.header_long hform (by omega) (by omega)]
        rfl
      · omega
  simp only [frameBufferNew,if_neg f.guard,first_byte_or,second_byte_or,if_true,hblock,Option.map_map]
  apply Option.map_congr
  intro p _
  simp [f.bytes_pos]

theorem load_frameStart {data : StdString} {f : Unmasked} {m : Mem}
    (hpayload : load m (data.data+kPrefixSize) f.payload.length = f.payload) :
    load (store m (frameStart data f) f.header) (frameStart data f) f.bytes.length = f.bytes := by
  have hle := header_length_le f
  have hend : frameStart data f+f.header.length = data.data+kPrefixSize := by
    simp only [frameStart,kPrefixSize]
    omega
  rw [Unmasked.bytes,List.length_append,load_append,load_store_self,hend,
    load_congr fun i _ _ => store_apply_of_outside (by omega),hpayload]

theorem bytes_length_le {f : Unmasked} (hform : f.form = .shortest f.payload.length) {bs : List UInt8}
    (h : decode bs = some ((f.fin,f.opcode,f.payload),[])) : f.bytes.length ≤ bs.length := by
  obtain ⟨g,_,_,hpayload,rfl⟩ := decode_eq_some h
  have hsize := LengthForm.shortest_size_le g.fits
  rw [hpayload,← hform] at hsize
  rw [List.append_nil,Unmasked.bytes_length,Unmasked.bytes_length,hpayload]
  omega

/-- Both encoders give the shortest unmasked frame of RFC 6455 with these fields; in place
the header lies inside the prefix and every other byte stays. -/
theorem frameBufferNew_refines {fin opcode : UInt8} (hfin : fin ≤ 1) (hopcode : opcode ≤ 0xf)
    {payload : List UInt8} {data : StdString} {m : Mem} (hsize : data.size = kPrefixSize+payload.length)
    (hpayload : load m (data.data+kPrefixSize) payload.length = payload) :
    ∃ f : Unmasked, (f.fin = fin ∧ f.opcode = opcode ∧ f.payload = payload ∧
        ∀ form : LengthForm, form.Fits payload.length → f.form.size ≤ form.size) ∧
      (∀ rest, decode (f.bytes ++ rest) = some ((fin,opcode,payload),rest)) ∧
      (∀ bs, decode bs = some ((fin,opcode,payload),[]) → f.bytes.length ≤ bs.length) ∧
      (∃ p m', frameBufferNewInPlace fin opcode data m = (⟨some p,f.bytes.length⟩,m') ∧
        load m' p f.bytes.length = f.bytes ∧
        data.data ≤ p ∧ p+f.header.length = data.data+kPrefixSize ∧
        ∀ i, i < p ∨ data.data+kPrefixSize ≤ i → m' i = m i) ∧
      ∀ (new : New) (m : Mem) (payloadData : Option ℕ), PointsTo m payloadData payload →
        new.Fresh payloadData payload.length →
        match new.char f.bytes.length with
        | none => frameBufferNew new fin opcode payload.length payloadData m = none
        | some p => ∃ m', frameBufferNew new fin opcode payload.length payloadData m =
            some (if new.frameBuffer then some ⟨some p,f.bytes.length⟩ else none,m') ∧
          load m' p f.bytes.length = f.bytes := by
  have hlt : payload.length < 2^63 := by have := data.size_lt; omega
  let f : Unmasked :=
    ⟨fin,opcode,payload,.shortest payload.length,hfin,hopcode,LengthForm.shortest_fits hlt⟩
  have hform : f.form = .shortest f.payload.length := rfl
  refine ⟨f,⟨rfl,rfl,rfl,fun _ => LengthForm.shortest_size_le⟩,decode_bytes f,
    fun _ => bytes_length_le hform,?_,?_⟩
  · have hle := header_length_le f
    refine ⟨frameStart data f,_,frameBufferNewInPlace_eq hform hsize m,load_frameStart hpayload,
      Nat.le_add_right _ _,?_,?_⟩
    · simp only [frameStart,kPrefixSize]
      omega
    · intro i hi
      apply store_apply_of_outside
      simp only [frameStart,kPrefixSize] at hi ⊢
      omega
  · intro new m payloadData hpoints hfresh
    have heq := frameBufferNew_eq hform hlt hpoints hfresh
    cases hp : new.char f.bytes.length with
    | none => rw [heq,hp]; rfl
    | some p => exact ⟨_,by rw [heq,hp]; rfl,load_store_self m p f.bytes⟩

/-- Two bytes behind the prefix, in a string at address 100. -/
def greeting : Mem := store (fun _ => 0) 116 [0x48,0x69]

def greetingString : StdString where
  data := 100
  size := 18
  size_lt := by decide

theorem frameBufferNew_refines_greeting : ∃ f : Unmasked, f.payload = [0x48,0x69] ∧
    (∃ p m', frameBufferNewInPlace 1 1 greetingString greeting = (⟨some p,f.bytes.length⟩,m') ∧
      load m' p f.bytes.length = f.bytes) ∧
    ∃ m', frameBufferNew ⟨fun _ => some 1000,true⟩ 1 1 2 (some 116) greeting =
        some (some ⟨some 1000,f.bytes.length⟩,m') ∧ load m' 1000 f.bytes.length = f.bytes := by
  obtain ⟨f,⟨_,_,hpayload,_⟩,_,_,⟨p,m',hplace,hload,_⟩,hcopy⟩ := frameBufferNew_refines
    (show (1 : UInt8) ≤ 1 by decide) (show (1 : UInt8) ≤ 0xf by decide)
    (show greetingString.size = kPrefixSize+([0x48,0x69] : List UInt8).length by decide)
    (show load greeting 116 2 = [0x48,0x69] by decide)
  have hfresh : New.Fresh ⟨fun _ => some 1000,true⟩ (some 116) 2 := by
    intro len p hp a ha
    obtain rfl : 1000 = p := Option.some.inj hp
    obtain rfl : 116 = a := Option.some.inj ha
    omega
  exact ⟨f,hpayload,⟨p,m',hplace,hload⟩,
    hcopy ⟨fun _ => some 1000,true⟩ greeting (some 116) (show load greeting 116 2 = _ by decide)
      hfresh⟩

end WebSocket
end SdkCp
