import SdkCp.BackReference
import SdkCp.Bytes

/-! compression/minilzo.c: `lzo1x_1_compress` and the two decompressors, as they are compiled for 64-bit
little-endian processors. A pointer into a buffer is a position in it, or what lies before and behind
it. -/
namespace SdkCp
namespace Lzo

open BackReference Bytes

abbrev LZO_E_OK : ℤ := 0
abbrev LZO_E_INPUT_OVERRUN : ℤ := -4
abbrev LZO_E_OUTPUT_OVERRUN : ℤ := -5
abbrev LZO_E_LOOKBEHIND_OVERRUN : ℤ := -6
abbrev LZO_E_INPUT_NOT_CONSUMED : ℤ := -8

abbrev M2_MAX_OFFSET : ℕ := 0x0800
abbrev M3_MAX_OFFSET : ℕ := 0x4000
abbrev M4_MAX_OFFSET : ℕ := 0xbfff
abbrev M2_MAX_LEN : ℕ := 8
abbrev M3_MAX_LEN : ℕ := 33
abbrev M4_MAX_LEN : ℕ := 9
abbrev M3_MARKER : ℕ := 32
abbrev M4_MARKER : ℕ := 16
abbrev D_BITS : ℕ := 14

abbrev lzoByte (x : ℕ) : UInt8 := UInt8.ofNat x

def getLE32 (text : List UInt8) (p : ℕ) : ℕ := ofLE ((text.drop p).take 4)

def getNE64 (text : List UInt8) (p : ℕ) : ℕ := ofLE ((text.drop p).take 8)

def dindex (dv : ℕ) : ℕ := ((0x1824429d*dv % 2^32) >>> (32-D_BITS)) &&& (2^D_BITS-1)

/-- The number of zero bytes at the low end of a word of `k` bytes. -/
def lowZeroBytes : ℕ → ℕ → ℕ
  | 0,_ => 0
  | k+1,v => if v % 256 = 0 then lowZeroBytes k (v/256)+1 else 0

/-- A number in zeros for 255 each and a byte for the rest. -/
def lengthBytes (tt : ℕ) : List UInt8 :=
  if tt > 255 then 0::lengthBytes (tt-255) else [lzoByte tt]

/-- `op[-2] |= t`. -/
def orLast2 (op : List UInt8) (t : ℕ) : List UInt8 := op.modify (op.length-2) fun b => b ||| lzoByte t

/-- The literals before a match, and behind the last one. -/
def putLiterals (op lits : List UInt8) : List UInt8 :=
  let t := lits.length
  if t = 0 then op
  else if t ≤ 3 then orLast2 op t ++ lits
  else if t ≤ 18 then op ++ lzoByte (t-3)::lits
  else op ++ 0::(lengthBytes (t-18) ++ lits)

/-- The bytes of a match. -/
def matchBytes (m_off m_len : ℕ) : List UInt8 :=
  if m_len ≤ M2_MAX_LEN ∧ m_off ≤ M2_MAX_OFFSET then
    let m_off := m_off-1
    [lzoByte (((m_len-1) <<< 5) ||| ((m_off &&& 7) <<< 2)),lzoByte (m_off >>> 3)]
  else if m_off ≤ M3_MAX_OFFSET then
    let m_off := m_off-1
    (if m_len ≤ M3_MAX_LEN then [lzoByte (M3_MARKER ||| (m_len-2))]
      else lzoByte (M3_MARKER ||| 0)::lengthBytes (m_len-M3_MAX_LEN)) ++
    [lzoByte (m_off <<< 2),lzoByte (m_off >>> 6)]
  else
    let m_off := m_off-0x4000
    (if m_len ≤ M4_MAX_LEN then [lzoByte (M4_MARKER ||| ((m_off >>> 11) &&& 8) ||| (m_len-2))]
      else lzoByte (M4_MARKER ||| ((m_off >>> 11) &&& 8))::lengthBytes (m_len-M4_MAX_LEN)) ++
    [lzoByte (m_off <<< 2),lzoByte (m_off >>> 6)]

/-- The part of the input that one call of `do_compress` looks at, from `in` on. -/
structure Block where
  text : List UInt8
  start : ℕ
  len : ℕ

/-- `in_end` and `ip_end`. -/
def Block.inEnd (b : Block) : ℕ := b.start+b.len

def Block.ipEnd (b : Block) : ℕ := b.start+b.len-20

/-- The locals of `do_compress`, and the output so far. -/
structure Scan where
  ip : ℕ
  ii : ℕ
  ti : ℕ
  dict : ℕ → ℕ
  op : List UInt8

/-- The loop that has found eight equal bytes. -/
def Block.extendMatch (b : Block) (ip m_pos m_len : ℕ) : ℕ :=
  let m_len' := m_len+8
  let v := getNE64 b.text (ip+m_len') ^^^ getNE64 b.text (m_pos+m_len')
  if b.ipEnd ≤ ip+m_len' then m_len'
  else if v = 0 then b.extendMatch ip m_pos m_len'
  else m_len'+lowZeroBytes 8 v
termination_by b.ipEnd-(ip+m_len)

def Block.matchLength (b : Block) (ip m_pos : ℕ) : ℕ :=
  let m_len := 4
  let v := getNE64 b.text (ip+m_len) ^^^ getNE64 b.text (m_pos+m_len)
  if v = 0 then b.extendMatch ip m_pos m_len else m_len+lowZeroBytes 8 v

def Scan.literal (s : Scan) : Scan := { s with ip := s.ip+(1+((s.ip-s.ii) >>> 5)) }

/-- What follows a match of four bytes at `m_pos`. -/
def Block.putMatch (b : Block) (s : Scan) (m_pos : ℕ) : Scan :=
  let ii := s.ii-s.ti
  let op := putLiterals s.op ((b.text.drop ii).take (s.ip-ii))
  let m_len := b.matchLength s.ip m_pos
  ⟨s.ip+m_len,s.ip+m_len,0,s.dict,op ++ matchBytes (s.ip-m_pos) m_len⟩

/-- `next:`, while `ip` is before `ip_end`. -/
def Block.next (b : Block) (s : Scan) : Scan :=
  let dv := getLE32 b.text s.ip
  let m_pos := b.start+s.dict (dindex dv)
  let s := { s with dict := Function.update s.dict (dindex dv) ((s.ip-b.start) % 2^16) }
  if dv ≠ getLE32 b.text m_pos then s.literal else b.putMatch s m_pos

theorem Block.le_extendMatch (b : Block) (ip m_pos m_len : ℕ) : m_len ≤ b.extendMatch ip m_pos m_len := by
  fun_induction b.extendMatch ip m_pos m_len with
  | case1 => omega
  | case2 _ _ _ _ _ ih => omega
  | case3 => omega

theorem Block.four_le_matchLength (b : Block) (ip m_pos : ℕ) : 4 ≤ b.matchLength ip m_pos := by
  unfold matchLength
  simp only
  split
  · exact b.le_extendMatch ip m_pos 4
  · omega

theorem Block.lt_ip_next (b : Block) (s : Scan) : s.ip < (b.next s).ip := by
  unfold next
  simp only
  split
  · simp only [Scan.literal]
    omega
  · have hlen := b.four_le_matchLength s.ip (b.start+s.dict (dindex (getLE32 b.text s.ip)))
    simp only [putMatch]
    omega

def Block.scan (b : Block) (s : Scan) : Scan :=
  if b.ipEnd ≤ s.ip then s else b.scan (b.next s)
termination_by b.ipEnd-s.ip
decreasing_by
  have hlt := b.lt_ip_next s
  omega

/-- `do_compress`: what it has written behind `op`, and the number of literals that are left over. -/
def Block.doCompress (b : Block) (op : List UInt8) (ti : ℕ) : List UInt8 × ℕ :=
  let ip := b.start+(if ti < 4 then 4-ti else 0)
  let s := b.scan (Scan.literal ⟨ip,b.start,ti,fun _ => 0,op⟩)
  (s.op,b.inEnd-(s.ii-s.ti))

/-- The blocks of `lzo1x_1_compress`, `l` bytes before the end of the input. -/
def compressBlocks (text : List UInt8) (op : List UInt8) (t l : ℕ) : List UInt8 × ℕ :=
  if 20 < l then
    let ll := min l 49152
    if (t+ll) >>> 5 = 0 then (op,t+l)
    else
      let (op,t) := Block.doCompress ⟨text,text.length-l,ll⟩ op t
      compressBlocks text op t (l-ll)
  else (op,t+l)
termination_by l

/-- The literals behind the last match. -/
def putRest (op lits : List UInt8) : List UInt8 :=
  if lits.length > 0 ∧ op = [] ∧ lits.length ≤ 238 then lzoByte (17+lits.length)::lits
  else putLiterals op lits

def lzo1x1Compress (text : List UInt8) : ℤ × List UInt8 :=
  let (op,t) := compressBlocks text [] 0 text.length
  (LZO_E_OK,putRest op (text.drop (text.length-t)) ++ [lzoByte (M4_MARKER ||| 1),0,0])

/-- `lzo1x_decompress` has no tests; `lzo1x_decompress_safe` has all of them. `room` is `*out_len` on
entry. -/
structure Variant where
  tests : Bool
  room : ℕ

/-- A return, with the bytes that are written, or an access behind or before a buffer. -/
inductive Outcome
  | fault
  | ret (code : ℤ) (out : List UInt8)
  deriving DecidableEq

inductive Label
  | start
  | outer
  | firstLiteralRun
  | token (t : ℕ)
  | matchDone
  | matchNext (t : ℕ)
  deriving DecidableEq

/-- The input before `ip`, its last byte first, and from `ip` on; the output up to `op`. -/
structure Dec where
  label : Label
  passed : List UInt8
  ip : List UInt8
  out : List UInt8

section
variable (v : Variant)

def needIp (x : ℕ) (s : Dec) : Except Outcome Unit :=
  if v.tests ∧ s.ip.length < x then .error (.ret LZO_E_INPUT_OVERRUN s.out) else .ok ()

def needOp (x : ℕ) (s : Dec) : Except Outcome Unit :=
  if v.tests ∧ v.room-s.out.length < x then .error (.ret LZO_E_OUTPUT_OVERRUN s.out) else .ok ()

/-- `TEST_LB` of the place `off` bytes behind `op`. -/
def testLb (off : ℕ) (s : Dec) : Except Outcome Unit :=
  if v.tests ∧ (s.out.length < off ∨ off = 0) then .error (.ret LZO_E_LOOKBEHIND_OVERRUN s.out) else .ok ()

def Dec.goto (s : Dec) (label : Label) : Dec := { s with label := label }

/-- `*ip++`. -/
def Dec.byte (s : Dec) : Except Outcome (ℕ × Dec) :=
  match s.ip with
  | [] => .error .fault
  | b::ip => .ok (b.toNat,{ s with passed := b::s.passed, ip := ip })

/-- `UA_GET_LE16(ip)` and `ip += 2`. -/
def Dec.word (s : Dec) : Except Outcome (ℕ × Dec) :=
  match s.ip with
  | b₀::b₁::ip => .ok (b₀.toNat+(b₁.toNat <<< 8),{ s with passed := b₁::b₀::s.passed, ip := ip })
  | _ => .error .fault

/-- `t` literals, with three more bytes to come. -/
def literals (t : ℕ) (label : Label) (s : Dec) : Except Outcome Dec := do
  needOp v t s
  needIp v (t+3) s
  if s.ip.length < t ∨ v.room < s.out.length+t then throw .fault
  else return ⟨label,(s.ip.take t).reverse ++ s.passed,s.ip.drop t,s.out ++ s.ip.take t⟩

/-- The copy of a match in steps of eight, four and up to three bytes. -/
def wideCopy (off t : ℕ) (out : List UInt8) : List UInt8 :=
  let out := (appendBlock off 8)^[t/8] out
  let out := if t % 8 ≥ 4 then appendBlock off 4 out else out
  if t % 4 > 0 then appendBlock off (t % 4) out else out

/-- `t` bytes from `off` bytes behind `op`. The steps are for the longer matches, from eight bytes
behind on. -/
def matchCopy (wide : Bool) (off t : ℕ) (s : Dec) : Except Outcome Dec := do
  testLb v off s
  needOp v t s
  if off = 0 ∨ s.out.length < off ∨ v.room < s.out.length+t then throw .fault
  else
    let out := if wide ∧ off ≥ 8 then wideCopy off t s.out else copyBack off t s.out
    return { s with label := .matchDone, out := out }

/-- A length behind its token: 255 for each zero, `base` and a last byte. `code` is where the test of an
overflow of `t` goes. -/
def lengthLoop (code : ℤ) (base : ℕ) (s : Dec) :
    (t : ℕ) → (passed ip : List UInt8) → Except Outcome (ℕ × Dec)
  | _,_,[] => .error .fault
  | t,passed,b::ip =>
    if b = 0 then
      if v.tests ∧ t+255 > 2^64-511 then .error (.ret code s.out)
      else if v.tests ∧ ip.length < 1 then .error (.ret LZO_E_INPUT_OVERRUN s.out)
      else lengthLoop code base s (t+255) (b::passed) ip
    else .ok (t+base+b.toNat,{ s with passed := b::passed, ip := ip })

/-- The length of a match, with the two bytes of its distance still to come. -/
def matchLen (low base : ℕ) (s : Dec) : Except Outcome (ℕ × Dec) := do
  if low = 0 then
    let (t,s) ← lengthLoop v LZO_E_OUTPUT_OVERRUN base s 0 s.passed s.ip
    needIp v 2 s
    return (t,s)
  else return (low,s)

def eofFound (s : Dec) : Outcome :=
  .ret (if s.ip = [] then LZO_E_OK else LZO_E_INPUT_NOT_CONSUMED) s.out

def stepM1 (t : ℕ) (s : Dec) : Except Outcome Dec := do
  let (b,s) ← s.byte
  matchCopy v false (1+(t >>> 2)+(b <<< 2)) 2 s

def stepM2 (t : ℕ) (s : Dec) : Except Outcome Dec := do
  let (b,s) ← s.byte
  matchCopy v false (1+((t >>> 2) &&& 7)+(b <<< 3)) ((t >>> 5)-1+3-1) s

def stepM3 (t : ℕ) (s : Dec) : Except Outcome Dec := do
  let (t,s) ← matchLen v (t &&& 31) 31 s
  let (w,s) ← s.word
  matchCopy v true (1+(w >>> 2)) (t+3-1) s

def stepM4 (t : ℕ) (s : Dec) : Except Outcome Dec := do
  let far := (t &&& 8) <<< 11
  let (t,s) ← matchLen v (t &&& 7) 7 s
  let (w,s) ← s.word
  let off := far+(w >>> 2)
  if off = 0 then throw (eofFound s) else matchCopy v true (off+0x4000) (t+3-1) s

/-- `match:`, with the token in `t`. -/
def stepToken (t : ℕ) (s : Dec) : Except Outcome Dec :=
  if t ≥ 64 then stepM2 v t s
  else if t ≥ 32 then stepM3 v t s
  else if t ≥ 16 then stepM4 v t s
  else stepM1 v t s

def stepStart (s : Dec) : Except Outcome Dec := do
  needIp v 1 s
  let (b,s') ← s.byte
  if b > 17 then
    let t := b-17
    if t < 4 then return s'.goto (.matchNext t) else literals v t .firstLiteralRun s'
  else return s.goto .outer

def stepOuter (s : Dec) : Except Outcome Dec := do
  needIp v 3 s
  let (t,s) ← s.byte
  if t ≥ 16 then return s.goto (.token t)
  else if t = 0 then
    let (t,s) ← lengthLoop v LZO_E_INPUT_OVERRUN 15 s 0 s.passed s.ip
    literals v (t+3) .firstLiteralRun s
  else literals v (t+3) .firstLiteralRun s

def stepFirstLiteralRun (s : Dec) : Except Outcome Dec := do
  let (t,s) ← s.byte
  if t ≥ 16 then return s.goto (.token t)
  else
    let (b,s) ← s.byte
    matchCopy v false (1+M2_MAX_OFFSET+(t >>> 2)+(b <<< 2)) 3 s

/-- `ip[-2]` has the number of literals that follow a match. -/
def stepMatchDone (s : Dec) : Except Outcome Dec :=
  match s.passed with
  | _::b::_ =>
    let t := b.toNat &&& 3
    if t = 0 then .ok (s.goto .outer) else .ok (s.goto (.matchNext t))
  | _ => .error .fault

def stepMatchNext (t : ℕ) (s : Dec) : Except Outcome Dec := do
  let s ← literals v t s.label s
  let (t,s) ← s.byte
  return s.goto (.token t)

def step (s : Dec) : Except Outcome Dec :=
  match s.label with
  | .start => stepStart v s
  | .outer => stepOuter v s
  | .firstLiteralRun => stepFirstLiteralRun v s
  | .token t => stepToken v t s
  | .matchDone => stepMatchDone s
  | .matchNext t => stepMatchNext v t s

end

end Lzo
end SdkCp
