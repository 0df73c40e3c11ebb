import SdkCp.WebSocket

/-! Conforming client frames on the wire, and what the receive path makes of them:
after each frame the machine stands at the start of the next one, with the open
message in `_msg`. -/
namespace SdkCp
namespace WebSocket

open Bytes StreamReader TransitionSystem

theorem and_byte (n k : ℕ) : n &&& 255 <<< k = (n/2^k % 256) <<< k := by
  apply Nat.eq_of_testBit_eq
  intro i
  rw [Nat.testBit_and,Nat.testBit_shiftLeft,Nat.testBit_shiftLeft,show 255 = 2^8-1 by norm_num,
    Nat.testBit_two_pow_sub_one,show 256 = 2^8 by norm_num,Nat.testBit_mod_two_pow,
    Nat.testBit_div_two_pow]
  by_cases hk : k ≤ i
  · simp [hk,Bool.and_comm]
  · simp [hk]

theorem myntohs_bytes {c₀ c₁ : ℕ} (h₀ : c₀ < 256) (h₁ : c₁ < 256) :
    myntohs (c₀+256*c₁) = c₁+256*c₀ := by
  have hhigh := and_byte (c₀+256*c₁) 8
  have hlow := and_byte (c₀+256*c₁) 0
  simp only [Nat.shiftLeft_zero,pow_zero,Nat.div_one] at hlow
  rw [show (c₀+256*c₁)/2^8 % 256 = c₁ by omega] at hhigh
  rw [show (c₀+256*c₁) % 256 = c₀ by omega] at hlow
  rw [myntohs,show 0xff00 = 255 <<< 8 by rfl,hhigh,hlow,Nat.shiftLeft_shiftRight,Nat.or_comm,
    ← Nat.shiftLeft_add_eq_or_of_lt (by omega : c₁ < 2^8),Nat.shiftLeft_eq]
  omega

theorem myntohl_bytes {c₀ c₁ c₂ c₃ : ℕ} (h₀ : c₀ < 256) (h₁ : c₁ < 256) (h₂ : c₂ < 256)
    (h₃ : c₃ < 256) : myntohl (c₀+256*(c₁+256*(c₂+256*c₃))) = c₃+256*(c₂+256*(c₁+256*c₀)) := by
  set n := c₀+256*(c₁+256*(c₂+256*c₃)) with hn
  have b₀ := and_byte n 0
  simp only [Nat.shiftLeft_zero,pow_zero,Nat.div_one] at b₀
  rw [show n % 256 = c₀ by omega] at b₀
  have b₁ := and_byte n 8
  rw [show n/2^8 % 256 = c₁ by omega] at b₁
  have b₂ := and_byte n 16
  rw [show n/2^16 % 256 = c₂ by omega] at b₂
  have b₃ := and_byte n 24
  rw [show n/2^24 % 256 = c₃ by omega] at b₃
  have hmid : c₂ <<< 16 >>> 8 = c₂ <<< 8 := by
    rw [Nat.shiftLeft_eq,Nat.shiftLeft_eq,Nat.shiftRight_eq_div_pow]
    omega
  have s₁ : c₂ <<< 8+c₃ < 2^16 := by rw [Nat.shiftLeft_eq]; omega
  have s₂ : c₁ <<< 16+(c₂ <<< 8+c₃) < 2^24 := by rw [Nat.shiftLeft_eq,Nat.shiftLeft_eq]; omega
  rw [myntohl,show 0xff000000 = 255 <<< 24 by rfl,show 0x00ff0000 = 255 <<< 16 by rfl,
    show 0x0000ff00 = 255 <<< 8 by rfl,b₀,b₁,b₂,b₃,Nat.shiftLeft_shiftRight,hmid,← Nat.shiftLeft_add,
    Nat.or_comm c₃,← Nat.shiftLeft_add_eq_or_of_lt (by omega : c₃ < 2^8),
    Nat.or_comm _ (c₁ <<< _),← Nat.shiftLeft_add_eq_or_of_lt s₁,
    Nat.or_comm _ (c₀ <<< _),← Nat.shiftLeft_add_eq_or_of_lt s₂]
  simp only [Nat.shiftLeft_eq]
  omega

/-- Big-endian bytes of a number. -/
def beBytes (n v : ℕ) : List UInt8 := (leBytes n v).reverse

theorem myntohs_beBytes {v : ℕ} (h : v < 2^16) : myntohs (ofLE (beBytes 2 v)) = v := by
  have hle : ofLE (beBytes 2 v) = v/256 % 256+256*(v % 256) := by simp [beBytes,leBytes,ofLE]
  rw [hle,myntohs_bytes (by omega) (by omega)]
  omega

theorem myntohll_bytes {a b : ℕ} {c₀ c₁ c₂ c₃ c₄ c₅ c₆ c₇ : ℕ} (h₀ : c₀ < 256) (h₁ : c₁ < 256)
    (h₂ : c₂ < 256) (h₃ : c₃ < 256) (h₄ : c₄ < 256) (h₅ : c₅ < 256) (h₆ : c₆ < 256) (h₇ : c₇ < 256)
    (ha : a = c₀+256*(c₁+256*(c₂+256*c₃))) (hb : b = c₄+256*(c₅+256*(c₆+256*c₇))) :
    myntohll (a+2^32*b) =
      c₇+256*(c₆+256*(c₅+256*c₄))+2^32*(c₃+256*(c₂+256*(c₁+256*c₀))) := by
  have hhigh : (a+2^32*b) >>> 32 = b := by
    rw [Nat.shiftRight_eq_div_pow]
    omega
  have hlow : (a+2^32*b) % 2^32 = a := by omega
  rw [myntohll,hhigh,hlow,ha,hb,myntohl_bytes h₄ h₅ h₆ h₇,myntohl_bytes h₀ h₁ h₂ h₃,Nat.or_comm,
    ← Nat.shiftLeft_add_eq_or_of_lt (by omega),Nat.shiftLeft_eq]
  omega

theorem exists_bytes {v : ℕ} (n : ℕ) (h : v < 256^(n+1)) :
    ∃ c r, c < 256 ∧ r < 256^n ∧ v = c+256*r :=
  ⟨v % 256,v/256,Nat.mod_lt _ (by norm_num),
    by rw [Nat.div_lt_iff_lt_mul (by norm_num),← pow_succ]; exact h,(Nat.mod_add_div v 256).symm⟩

theorem leBytes_add {c r : ℕ} (n : ℕ) (h : c < 256) :
    leBytes (n+1) (c+256*r) = UInt8.ofNat c::leBytes n r := by
  have hc : UInt8.ofNat (c+256*r) = UInt8.ofNat c := by
    apply UInt8.toNat.inj
    rw [UInt8.toNat_ofNat',UInt8.toNat_ofNat']
    omega
  rw [leBytes,hc,show (c+256*r)/256 = r by omega]

theorem myntohll_beBytes {v : ℕ} (h : v < 2^64) : myntohll (ofLE (beBytes 8 v)) = v := by
  obtain ⟨c₀,r₀,h₀,hr₀,rfl⟩ := exists_bytes 7 (show v < 256^8 by norm_num; exact h)
  obtain ⟨c₁,r₁,h₁,hr₁,rfl⟩ := exists_bytes 6 hr₀
  obtain ⟨c₂,r₂,h₂,hr₂,rfl⟩ := exists_bytes 5 hr₁
  obtain ⟨c₃,r₃,h₃,hr₃,rfl⟩ := exists_bytes 4 hr₂
  obtain ⟨c₄,r₄,h₄,hr₄,rfl⟩ := exists_bytes 3 hr₃
  obtain ⟨c₅,r₅,h₅,hr₅,rfl⟩ := exists_bytes 2 hr₄
  obtain ⟨c₆,r₆,h₆,hr₆,rfl⟩ := exists_bytes 1 hr₅
  obtain ⟨c₇,r₇,h₇,hr₇,rfl⟩ := exists_bytes 0 hr₆
  obtain rfl : r₇ = 0 := by simpa using hr₇
  have hbyte : ∀ {c}, c < 256 → (UInt8.ofNat c).toNat = c := fun hc => by
    rw [UInt8.toNat_ofNat',Nat.mod_eq_of_lt hc]
  have hle : ofLE (beBytes 8 (c₀+256*(c₁+256*(c₂+256*(c₃+256*(c₄+256*(c₅+256*(c₆+256*(c₇+256*0)))))))))
      = (c₇+256*(c₆+256*(c₅+256*c₄)))+2^32*(c₃+256*(c₂+256*(c₁+256*c₀))) := by
    rw [beBytes,leBytes_add 7 h₀,leBytes_add 6 h₁,leBytes_add 5 h₂,leBytes_add 4 h₃,leBytes_add 3 h₄,
      leBytes_add 2 h₅,leBytes_add 1 h₆,leBytes_add 0 h₇]
    simp only [leBytes,List.reverse_cons,List.reverse_nil,List.nil_append,List.cons_append,ofLE,
      hbyte h₀,hbyte h₁,hbyte h₂,hbyte h₃,hbyte h₄,hbyte h₅,hbyte h₆,hbyte h₇]
    ring
  rw [hle,myntohll_bytes h₇ h₆ h₅ h₄ h₃ h₂ h₁ h₀ rfl rfl]
  ring

/-- The opcodes a client uses, without close. -/
inductive Opcode
  | continuation | text | binary | ping | pong
  deriving DecidableEq

def Opcode.code : Opcode → UInt8
  | .continuation => 0x0
  | .text => 0x1
  | .binary => 0x2
  | .ping => 0x9
  | .pong => 0xA

def Opcode.isData : Opcode → Bool
  | .ping | .pong => false
  | _ => true

/-- The forms of a payload length: 7, 16 or 64 bits. -/
inductive LengthForm
  | short | medium | long

/-- A masked client frame. Its length form only has to be wide enough. -/
structure Frame where
  fin : Bool
  opcode : Opcode
  key : List UInt8
  form : LengthForm
  payload : List UInt8
  key_length : key.length = 4
  payload_lt : payload.length < 2^31
  form_ok : match form with
    | .short => payload.length ≤ 125
    | .medium => payload.length < 2^16
    | .long => True
  control_fin : opcode.isData = false → fin = true

namespace Frame

def finCode (f : Frame) : UInt8 := if f.fin then 1 else 0

/-- The 7-bit length field. -/
def lengthCode (f : Frame) : ℕ :=
  match f.form with
  | .short => f.payload.length
  | .medium => 126
  | .long => 127

def extendedLength (f : Frame) : List UInt8 :=
  match f.form with
  | .short => []
  | .medium => beBytes 2 f.payload.length
  | .long => beBytes 8 f.payload.length

/-- The payload with byte `i` combined with byte `i mod 4` of the key. -/
def masked (f : Frame) : List UInt8 := f.payload.mapIdx fun i b => b ^^^ f.key.getD (i % 4) 0

/-- The frame on the wire. -/
def bytes (f : Frame) : List UInt8 :=
  [(f.finCode <<< 7) ||| f.opcode.code,0x80 ||| UInt8.ofNat f.lengthCode] ++
    (f.extendedLength ++ (f.key ++ f.masked))

end Frame

/-- What a sequence of frames delivers, with `msg` collected of the open message. -/
def delivered (msg : List UInt8) : List Frame → List Effect
  | [] => []
  | f::fs =>
    match f.opcode with
    | .ping => delivered msg fs
    | .pong => .pongRecv f.payload::delivered msg fs
    | _ =>
      if f.fin then .frameRecv (msg ++ f.payload)::delivered [] fs
      else delivered (msg ++ f.payload) fs

/-- The frames of each complete message among data frames. -/
def fragments : List Frame → List (List Frame)
  | [] => []
  | f::fs =>
    if f.fin then [f]::fragments fs
    else
      match fragments fs with
      | [] => []
      | g::gs => (f::g)::gs

/-- The complete messages of a sequence of frames, fragments put together. -/
def messages (fs : List Frame) : List (List UInt8) :=
  (fragments (fs.filter (·.opcode.isData))).map fun g => g.flatMap (·.payload)

/-- The payloads of the pongs. -/
def pongs (fs : List Frame) : List (List UInt8) :=
  (fs.filter (·.opcode = .pong)).map (·.payload)

@[simp] def Effect.frameRecv? : Effect → Option (List UInt8)
  | .frameRecv msg => some msg
  | _ => none

@[simp] def Effect.pongRecv? : Effect → Option (List UInt8)
  | .pongRecv data => some data
  | _ => none

theorem pongs_cons (f : Frame) (fs : List Frame) :
    pongs (f::fs) = if f.opcode = .pong then f.payload::pongs fs else pongs fs := by
  rw [pongs,List.filter_cons]
  split <;> simp_all [pongs]

theorem delivered_pongs (msg : List UInt8) (fs : List Frame) :
    (delivered msg fs).filterMap Effect.pongRecv? = pongs fs := by
  induction fs generalizing msg with
  | nil => rfl
  | cons f fs ih =>
    rw [pongs_cons]
    cases hop : f.opcode <;> simp only [delivered,hop]
    case pong => simp [ih]
    case ping => simp [ih]
    all_goals
      split
      · rw [List.filterMap_cons_none rfl]
        exact ih []
      · exact ih _

theorem delivered_data {f : Frame} (h : f.opcode.isData = true) (msg : List UInt8)
    (fs : List Frame) : delivered msg (f::fs) =
      if f.fin then .frameRecv (msg ++ f.payload)::delivered [] fs
      else delivered (msg ++ f.payload) fs := by
  cases hop : f.opcode <;> simp_all [delivered,Opcode.isData]

/-- Complete messages when `msg` of the first one has been collected already. -/
def continued (msg : List UInt8) : List (List Frame) → List (List UInt8)
  | [] => []
  | g::gs => (msg ++ g.flatMap (·.payload))::gs.map fun g => g.flatMap (·.payload)

theorem continued_nil (gs : List (List Frame)) :
    continued [] gs = gs.map fun g => g.flatMap (·.payload) := by
  cases gs <;> simp [continued]

theorem continued_fragments (msg : List UInt8) (f : Frame) (fs : List Frame) :
    continued msg (fragments (f::fs)) =
      if f.fin then (msg ++ f.payload)::continued [] (fragments fs)
      else continued (msg ++ f.payload) (fragments fs) := by
  rw [fragments]
  split
  · rw [continued_nil]
    simp [continued]
  · cases fragments fs <;> simp [continued]

theorem delivered_messages (msg : List UInt8) (fs : List Frame) :
    (delivered msg fs).filterMap Effect.frameRecv? =
      continued msg (fragments (fs.filter (·.opcode.isData))) := by
  induction fs generalizing msg with
  | nil => rfl
  | cons f fs ih =>
    rw [List.filter_cons]
    cases hd : f.opcode.isData with
    | true =>
      rw [delivered_data hd,if_pos rfl,continued_fragments]
      split <;> simp [ih]
    | false =>
      rw [if_neg (by simp)]
      cases hop : f.opcode <;> simp [hop,Opcode.isData] at hd
      · simpa only [delivered,hop] using ih msg
      · simp only [delivered,hop]
        rw [List.filterMap_cons_none rfl]
        exact ih msg

theorem unmaskFrom_eq (key : List UInt8) {i : ℕ} {bs : List UInt8} (h : i+bs.length ≤ 2^31) :
    unmaskFrom key i bs = bs.mapIdx fun j b => b ^^^ key.getD ((i+j) % 4) 0 := by
  induction bs generalizing i with
  | nil => rfl
  | cons b bs ih =>
    rw [List.length_cons] at h
    rw [unmaskFrom,if_pos (by omega),ih (by omega),List.mapIdx_cons,Nat.add_zero]
    congr 2
    funext j b
    rw [Nat.add_assoc,Nat.add_comm 1 j]

theorem unmask_masked (f : Frame) : unmaskFrom f.key 0 f.masked = f.payload := by
  have hlen : 0+f.masked.length ≤ 2^31 := by
    have := f.payload_lt
    simp only [Frame.masked,List.length_mapIdx]
    omega
  rw [unmaskFrom_eq _ hlen,Frame.masked,List.mapIdx_mapIdx]
  apply List.ext_getElem (by simp)
  intro i h₁ h₂
  rw [List.getElem_mapIdx,Function.comp_apply,Nat.zero_add,UInt8.xor_assoc,UInt8.xor_self,
    UInt8.xor_zero]

theorem masked_length (f : Frame) : f.masked.length = f.payload.length := by simp [Frame.masked]

theorem code_lt (f : Frame) : f.lengthCode < 128 := by
  have hform := f.form_ok
  unfold Frame.lengthCode
  cases hf : f.form <;> simp only [hf] at hform ⊢ <;> omega

theorem parseFrameHeader_bytes (f : Frame) (frame : FrameT) :
    parseFrameHeader [(f.finCode <<< 7) ||| f.opcode.code,0x80 ||| UInt8.ofNat f.lengthCode] frame =
      { frame with fin := f.finCode, opcode := f.opcode.code, mask := 1
                   payloadLen := f.lengthCode } := by
  have hfin : ((f.finCode <<< 7) ||| f.opcode.code) >>> 7 &&& 0xff = f.finCode ∧
      ((f.finCode <<< 7) ||| f.opcode.code) &&& 0x0f = f.opcode.code := by
    unfold Frame.finCode
    cases f.fin <;> cases f.opcode <;> decide
  have hlen : ∀ n < 128, (0x80 ||| UInt8.ofNat n) >>> 7 &&& 0xff = 1 ∧
      ((0x80 ||| UInt8.ofNat n) &&& 0x7f).toNat = n := by decide
  obtain ⟨hmask,hcode⟩ := hlen _ (code_lt f)
  simp [parseFrameHeader,hfin.1,hfin.2,hmask,hcode]

/-- The machine waits for a frame, with `msg` of an open message. -/
structure Synced (c : Conn) (msg : List UInt8) (effects : List Effect) : Prop where
  step : c.step = .one
  ntoread : c.ntoread = 2
  msg : c.msg = msg
  pongData : c.pongData = []
  effects : c.effects = effects

/-- The machine knows fin, opcode and length of frame `f`. -/
structure Headed (c : Conn) (f : Frame) (msg : List UInt8) (effects : List Effect) : Prop where
  fin : c.frame.fin = f.finCode
  opcode : c.frame.opcode = f.opcode.code
  payloadLen : c.frame.payloadLen = f.payload.length
  msg : c.msg = msg
  pongData : c.pongData = []
  effects : c.effects = effects

variable (cb : Callbacks) {c : Conn} {f : Frame} {msg : List UInt8} {effects : List Effect}

theorem reads_header (f : Frame) (h : Synced c msg effects) (xs : List UInt8) : ∃ c',
    (reader cb).Reads c ([(f.finCode <<< 7) ||| f.opcode.code,0x80 ||| UInt8.ofNat f.lengthCode] ++
      (f.extendedLength ++ xs)) c' xs ∧
    c'.step = .three ∧ c'.ntoread = 4 ∧ Headed c' f msg effects := by
  have hform := f.form_ok
  have hlt := f.payload_lt
  set header := [(f.finCode <<< 7) ||| f.opcode.code,0x80 ||| UInt8.ofNat f.lengthCode] with hheader
  have hone := Reads.portion (f.extendedLength ++ xs)
    (show header.length = (reader cb).need c by simp [hheader,reader,h.ntoread])
  have hparse := parseFrameHeader_bytes f c.frame
  rw [← hheader] at hparse
  cases hf : f.form with
  | short =>
    simp only [hf] at hform
    have hcode : f.lengthCode = f.payload.length := by simp [Frame.lengthCode,hf]
    have hread : (reader cb).read c header = { c with
        step := .three, ntoread := 4
        frame := { c.frame with fin := f.finCode, opcode := f.opcode.code, mask := 1
                                payloadLen := f.payload.length } } := by
      simp [reader,frameReadCb,h.step,hparse,hcode,hform,Conn.expect]
    have hext : f.extendedLength = [] := by simp [Frame.extendedLength,hf]
    rw [hread,hext,List.nil_append] at hone
    rw [hext,List.nil_append]
    exact ⟨_,hone,rfl,rfl,⟨rfl,rfl,rfl,h.msg,h.pongData,h.effects⟩⟩
  | medium =>
    simp only [hf] at hform
    have hcode : f.lengthCode = 126 := by simp [Frame.lengthCode,hf]
    have hext : f.extendedLength = beBytes 2 f.payload.length := by simp [Frame.extendedLength,hf]
    have hread : (reader cb).read c header = { c with
        step := .two, ntoread := 2
        frame := { c.frame with fin := f.finCode, opcode := f.opcode.code, mask := 1
                                payloadLen := 126 } } := by
      simp [reader,frameReadCb,h.step,hparse,hcode,Conn.expect]
    rw [hread] at hone
    refine ⟨_,hone.trans (Reads.portion xs (by simp [hext,reader,beBytes])),rfl,rfl,rfl,rfl,?_,h.msg,
      h.pongData,h.effects⟩
    have htake : (beBytes 2 f.payload.length).take 2 = beBytes 2 f.payload.length :=
      List.take_of_length_le (by simp [beBytes])
    simp [reader,frameReadCb,Conn.expect,hext,htake,myntohs_beBytes hform]
  | long =>
    have hcode : f.lengthCode = 127 := by simp [Frame.lengthCode,hf]
    have hext : f.extendedLength = beBytes 8 f.payload.length := by simp [Frame.extendedLength,hf]
    have hread : (reader cb).read c header = { c with
        step := .two, ntoread := 8
        frame := { c.frame with fin := f.finCode, opcode := f.opcode.code, mask := 1
                                payloadLen := 127 } } := by
      simp [reader,frameReadCb,h.step,hparse,hcode,Conn.expect]
    rw [hread] at hone
    refine ⟨_,hone.trans (Reads.portion xs (by simp [hext,reader,beBytes])),rfl,rfl,rfl,rfl,?_,h.msg,
      h.pongData,h.effects⟩
    have htake : (beBytes 8 f.payload.length).take 8 = beBytes 8 f.payload.length :=
      List.take_of_length_le (by simp [beBytes])
    simp [reader,frameReadCb,Conn.expect,hext,htake,myntohll_beBytes (by omega : f.payload.length < 2^64)]

/-- Steps THREE and FOUR up to the whole frame; an empty payload skips FOUR. -/
theorem reads_payload (h : Headed c f msg effects) (hstep : c.step = .three) (hn : c.ntoread = 4)
    (xs : List UInt8) : ∃ c', (reader cb).Reads c (f.key ++ (f.masked ++ xs)) (wholeFrame cb c') xs ∧
      Headed c' f msg effects ∧ c'.frame.payload = f.payload := by
  have hkey := Reads.portion (f.masked ++ xs)
    (show f.key.length = (reader cb).need c by simp [reader,hn,f.key_length])
  by_cases hpos : 0 < f.payload.length
  · have hread : (reader cb).read c f.key = { c with
        step := .four, ntoread := f.payload.length
        frame := { c.frame with maskingKey := f.key } } := by
      simp [reader,frameReadCb,hstep,h.payloadLen,hpos,Conn.expect]
    rw [hread] at hkey
    have hfour := Reads.portion xs (show f.masked.length = (reader cb).need { c with
      step := .four, ntoread := f.payload.length
      frame := { c.frame with maskingKey := f.key } } by simp [reader,masked_length])
    refine ⟨{ c with
      step := .four, ntoread := f.payload.length
      frame := { c.frame with maskingKey := f.key, payloadData := some f.payload } },?_,
      ⟨h.fin,h.opcode,h.payloadLen,h.msg,h.pongData,h.effects⟩,?_⟩
    · have hwhole : (reader cb).read { c with
          step := .four, ntoread := f.payload.length
          frame := { c.frame with maskingKey := f.key } } f.masked = wholeFrame cb { c with
          step := .four, ntoread := f.payload.length
          frame := { c.frame with maskingKey := f.key, payloadData := some f.payload } } := by
        simp [reader,frameReadCb,h.payloadLen,hpos,unmaskPayloadData,unmask_masked]
      rw [hwhole] at hfour
      exact hkey.trans hfour
    · simp [FrameT.payload,h.payloadLen,hpos]
  · have hempty : f.payload = [] := by
      rw [← List.length_eq_zero_iff]
      omega
    have hmasked : f.masked = [] := by
      rw [← List.length_eq_zero_iff,masked_length]
      omega
    refine ⟨{ c with frame := { c.frame with maskingKey := f.key } },?_,
      ⟨h.fin,h.opcode,h.payloadLen,h.msg,h.pongData,h.effects⟩,?_⟩
    · have hwhole : (reader cb).read c f.key =
          wholeFrame cb { c with frame := { c.frame with maskingKey := f.key } } := by
        simp [reader,frameReadCb,hstep,h.payloadLen,hpos]
      rw [hwhole,hmasked] at hkey
      rw [hmasked]
      exact hkey
    · simp [FrameT.payload,h.payloadLen,hempty]

theorem wholeFrame_synced (h : Headed c f msg effects) (hp : c.frame.payload = f.payload) :
    ∃ msg' new, Synced (wholeFrame cb c) msg' (effects ++ new) ∧
      ∀ fs, delivered msg (f::fs) = new ++ delivered msg' fs := by
  have hcontrol := f.control_fin
  cases hop : f.opcode with
  | ping =>
    have hfin : c.frame.fin = 1 := by simp [h.fin,Frame.finCode,hcontrol (by simp [hop,Opcode.isData])]
    have hcode : c.frame.opcode = 0x9 := by rw [h.opcode,hop]; rfl
    refine ⟨msg,[],⟨?_,?_,?_,?_,?_⟩,fun fs => by simp [delivered,hop]⟩ <;>
      simp [wholeFrame,hfin,hcode,Conn.expect,h.msg,h.pongData,h.effects]
  | pong =>
    have hfin : c.frame.fin = 1 := by simp [h.fin,Frame.finCode,hcontrol (by simp [hop,Opcode.isData])]
    have hcode : c.frame.opcode = 0xA := by rw [h.opcode,hop]; rfl
    refine ⟨msg,[.pongRecv f.payload],⟨?_,?_,?_,?_,?_⟩,fun fs => by simp [delivered,hop]⟩ <;>
      simp [wholeFrame,onPongReceived,hfin,hcode,hp,Conn.expect,h.msg,h.pongData,h.effects]
  | _ =>
    have hd : f.opcode.isData = true := by rw [hop]; rfl
    have hcode : c.frame.opcode ≠ 0x8 ∧ c.frame.opcode ≠ 0x9 ∧ c.frame.opcode ≠ 0xA := by
      rw [h.opcode,hop]
      decide
    by_cases hfin : f.fin = true
    · have hone : c.frame.fin = 1 := by simp [h.fin,Frame.finCode,hfin]
      refine ⟨[],[.frameRecv (msg ++ f.payload)],⟨?_,?_,?_,?_,?_⟩,fun fs => by
        simp [delivered_data hd,hfin]⟩ <;>
        simp [wholeFrame,onFrameReceived,hone,hcode,hp,Conn.expect,h.msg,h.pongData,h.effects]
    · have hzero : c.frame.fin ≠ 1 := by simp [h.fin,Frame.finCode,hfin]
      refine ⟨msg ++ f.payload,[],⟨?_,?_,?_,?_,?_⟩,fun fs => by simp [delivered_data hd,hfin]⟩ <;>
        simp [wholeFrame,onFrameReceived,hzero,hp,Conn.expect,h.msg,h.pongData,h.effects]

theorem reads_frame (f : Frame) (h : Synced c msg effects) (xs : List UInt8) : ∃ c' msg' new,
    (reader cb).Reads c (f.bytes ++ xs) c' xs ∧ Synced c' msg' (effects ++ new) ∧
      ∀ fs, delivered msg (f::fs) = new ++ delivered msg' fs := by
  obtain ⟨c₂,hread₂,hstep,hn,hhead⟩ := reads_header cb f h (f.key ++ (f.masked ++ xs))
  obtain ⟨c₃,hread₃,hhead₃,hp⟩ := reads_payload cb hhead hstep hn xs
  obtain ⟨msg',new,hsync,hdel⟩ := wholeFrame_synced cb hhead₃ hp
  refine ⟨_,msg',new,?_,hsync,hdel⟩
  have hbytes : f.bytes ++ xs = [(f.finCode <<< 7) ||| f.opcode.code,
      0x80 ||| UInt8.ofNat f.lengthCode] ++ (f.extendedLength ++ (f.key ++ (f.masked ++ xs))) := by
    simp [Frame.bytes]
  rw [hbytes]
  exact hread₂.trans hread₃

theorem reads_frames (h : Synced c msg effects) (fs : List Frame) : ∃ c' msg',
    (reader cb).Reads c (fs.flatMap Frame.bytes) c' [] ∧
      Synced c' msg' (effects ++ delivered msg fs) := by
  induction fs generalizing c msg effects with
  | nil => exact ⟨c,msg,.refl _ _,by simpa [delivered] using h⟩
  | cons f fs ih =>
    obtain ⟨c₁,msg₁,new,hread,hsync,hdel⟩ := reads_frame cb f h (fs.flatMap Frame.bytes)
    obtain ⟨c₂,msg₂,hread₂,hsync₂⟩ := ih hsync
    refine ⟨c₂,msg₂,?_,?_⟩
    · rw [List.flatMap_cons]
      exact hread.trans hread₂
    · rw [hdel fs,← List.append_assoc]
      exact hsync₂

/-- The receive path. Once the bytes of any frames have arrived, in whatever pieces, the
reads still to come deliver each complete message once and in order, and each pong
once; when no read is left, they have been delivered and nothing is buffered. -/
theorem receive_delivers (cb : Callbacks) (fs : List Frame) {s : State UInt8 Conn}
    (h : ((reader cb).system frameRecvLoop).Reachable s)
    (hs : s.received = fs.flatMap Frame.bytes) : ∃ c,
      (reader cb).Reads s.machine s.buffered c [] ∧
      c.effects = delivered [] fs ∧
      c.effects.filterMap Effect.frameRecv? = messages fs ∧
      c.effects.filterMap Effect.pongRecv? = pongs fs ∧
      (s.buffered.length < s.machine.ntoread → c = s.machine ∧ s.buffered = []) := by
  have hinit : Synced frameRecvLoop [] [] := ⟨rfl,rfl,rfl,rfl,rfl⟩
  obtain ⟨c,msg,hread,hsync⟩ := reads_frames cb hinit fs
  have hreads := reads_of_reachable h
  rw [hs] at hreads
  have hrest : (reader cb).Reads s.machine s.buffered c [] :=
    hreads.confluent hread (by simp [reader,hsync.ntoread])
  have heff : c.effects = delivered [] fs := by simpa using hsync.effects
  refine ⟨c,hrest,heff,?_,?_,fun hdone => ?_⟩
  · rw [heff,delivered_messages,continued_nil]
    rfl
  · rw [heff,delivered_pongs]
  · obtain ⟨hc,hb⟩ := hrest.stuck hdone
    exact ⟨hc,hb.symm⟩

/-- A message in two fragments with a ping and a pong between them. -/
def interrupted : List Frame :=
  [⟨false,.text,[1,2,3,4],.short,[72,105],rfl,by decide,by decide,by decide⟩,
    ⟨true,.ping,[0,0,0,0],.short,[],rfl,by decide,by decide,by decide⟩,
    ⟨true,.pong,[5,6,7,8],.short,[1],rfl,by decide,by decide,by decide⟩,
    ⟨true,.continuation,[9,9,9,9],.medium,[33],rfl,by decide,by decide,by decide⟩]

/-- The stream arrives in two pieces, cut inside the second header. -/
theorem receive_delivers_interrupted :
    let cb : Callbacks := ⟨id,id⟩
    let stream := interrupted.flatMap Frame.bytes
    let run := ((reader cb).system frameRecvLoop).exec ⟨frameRecvLoop,[],[]⟩
      ([.arrive (stream.take 9),.read,.read,.read,.arrive (stream.drop 9)] ++ List.replicate 9 .read)
    run.map (fun s => (s.received,s.buffered,s.machine.effects.filterMap Effect.frameRecv?)) =
      some (stream,[],[[72,105,33]]) ∧
    messages interrupted = [[72,105,33]] ∧ pongs interrupted = [[1]] ∧
    ∀ s, run = some s → s.received = stream → ∃ c,
      (reader cb).Reads s.machine s.buffered c [] ∧
      c.effects.filterMap Effect.pongRecv? = pongs interrupted := by
  intro cb stream run
  refine ⟨by decide,by decide,by decide,fun s hs hr => ?_⟩
  obtain ⟨c,hread,-,-,hpongs,-⟩ := receive_delivers cb interrupted
    (ReachableBy.exec (fun _ _ _ => trivial) (.init rfl) hs) hr
  exact ⟨c,hread,hpongs⟩

end WebSocket
end SdkCp
