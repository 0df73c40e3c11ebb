import SdkCp.Bytes
import SdkCp.StreamReader

/-! The receive path of web_server/ws: the step machine of `frame_read_cb` in
connection.cpp, the header and unmasking functions of websocket.cpp and tools.h,
and the two buffers `user_t` collects payloads in. The host is little-endian. -/
namespace SdkCp
namespace WebSocket

open Bytes

/-- `enum Step`. -/
inductive Step
  | zero | one | two | three | four
  deriving DecidableEq

structure FrameT where
  fin : UInt8
  opcode : UInt8
  mask : UInt8
  payloadLen : ℕ
  maskingKey : List UInt8
  payloadData : Option (List UInt8)

/-- What the machine does to the outside: the two callbacks of `user_t` with the data
they see, bytes written to the peer, and the `exit` of an unknown step. -/
inductive Effect
  | frameRecv (msg : List UInt8)
  | pongRecv (data : List UInt8)
  | send (bytes : List UInt8)
  | exit

/-- `ws_conn_t` and the buffers of its `user_t`. -/
structure Conn where
  step : Step
  ntoread : ℕ
  frame : FrameT
  msg : List UInt8
  pongData : List UInt8
  effects : List Effect

/-- What the bound callbacks leave in `_msg` and `_pong_data`. -/
structure Callbacks where
  onFrameRecv : List UInt8 → List UInt8
  onPongRecv : List UInt8 → List UInt8

/-! tools.h -/

def myntohs (n : ℕ) : ℕ := ((n &&& 0xff00) >>> 8) ||| ((n &&& 0x00ff) <<< 8)

def myntohl (n : ℕ) : ℕ :=
  ((n &&& 0xff000000) >>> 24) ||| ((n &&& 0x00ff0000) >>> 8) ||| ((n &&& 0x0000ff00) <<< 8) |||
    ((n &&& 0x000000ff) <<< 24)

def myntohll (n : ℕ) : ℕ := myntohl (n >>> 32) ||| (myntohl (n % 2^32) <<< 32)

/-! websocket.cpp and frame.cpp -/

def parseFrameHeader (buf : List UInt8) (frame : FrameT) : FrameT :=
  let c₁ := buf.getD 0 0
  let c₂ := buf.getD 1 0
  { frame with fin := (c₁ >>> 7) &&& 0xff
               opcode := c₁ &&& 0x0f
               mask := (c₂ >>> 7) &&& 0xff
               payloadLen := (c₂ &&& 0x7f).toNat }

def isFrameValid (frame : FrameT) : Bool := frame.fin ≤ 1 && frame.opcode ≤ 0xf && frame.mask == 1

/-- The loop of `unmask_payload_data`, from index `i` on. An `int32_t` index does not get
to `2^31`: `++i` overflows, which is undefined, and where it wraps the loop ends. -/
def unmaskFrom (key : List UInt8) : ℕ → List UInt8 → List UInt8
  | _, [] => []
  | i, b::bs => if i < 2^31 then (b ^^^ key.getD (i % 4) 0)::unmaskFrom key (i+1) bs else b::bs

def unmaskPayloadData (frame : FrameT) : FrameT :=
  if 0 < frame.payloadLen then
    { frame with payloadData := frame.payloadData.map (unmaskFrom frame.maskingKey 0) }
  else frame

/-! `user_t` -/

/-- `append(payload_data, payload_len)`. -/
def FrameT.payload (frame : FrameT) : List UInt8 :=
  if 0 < frame.payloadLen then frame.payloadData.getD [] |>.take frame.payloadLen else []

def onPongReceived (cb : Callbacks) (c : Conn) : Conn :=
  let c := { c with pongData := c.pongData ++ c.frame.payload }
  if c.frame.fin = 1 then
    let c := { c with effects := c.effects ++ [Effect.pongRecv c.pongData]
                      pongData := cb.onPongRecv c.pongData }
    { c with pongData := [] }
  else c

def onFrameReceived (cb : Callbacks) (c : Conn) : Conn :=
  let c := { c with msg := c.msg ++ c.frame.payload }
  if c.frame.fin = 1 then
    let c := { c with effects := c.effects ++ [Effect.frameRecv c.msg], msg := cb.onFrameRecv c.msg }
    { c with msg := [] }
  else c

/-! connection.cpp -/

def Conn.expect (c : Conn) (step : Step) (ntoread : ℕ) : Conn := { c with step, ntoread }

/-- What follows "recv a whole frame" in steps THREE and FOUR. -/
def wholeFrame (cb : Callbacks) (c : Conn) : Conn :=
  if c.frame.fin = 1 ∧ c.frame.opcode = 0x8 then { c with effects := c.effects ++ [Effect.send [0x88,0]] }
  else
    let c :=
      if c.frame.fin = 1 ∧ c.frame.opcode = 0x9 then c
      else if c.frame.fin = 1 ∧ c.frame.opcode = 0xA then onPongReceived cb c
      else onFrameReceived cb c
    c.expect .one 2

/-- `frame_read_cb` on the `ntoread` bytes it reads. -/
def frameReadCb (cb : Callbacks) (c : Conn) (tmp : List UInt8) : Conn :=
  match c.step with
  | .one =>
    let c := { c with frame := parseFrameHeader tmp c.frame }
    -- `is_frame_valid` is tested afterwards, with nothing left to do either way
    if c.frame.payloadLen ≤ 125 then c.expect .three 4
    else if c.frame.payloadLen = 126 then c.expect .two 2
    else if c.frame.payloadLen = 127 then c.expect .two 8
    else c
  | .two =>
    let len :=
      if c.frame.payloadLen = 126 then myntohs (ofLE (tmp.take 2))
      else if c.frame.payloadLen = 127 then myntohll (ofLE (tmp.take 8))
      else c.frame.payloadLen
    { c with frame := { c.frame with payloadLen := len } }.expect .three 4
  | .three =>
    let c := { c with frame := { c.frame with maskingKey := tmp } }
    if 0 < c.frame.payloadLen then c.expect .four c.frame.payloadLen else wholeFrame cb c
  | .four =>
    let c :=
      if 0 < c.frame.payloadLen then
        { c with frame := unmaskPayloadData { c.frame with payloadData := some tmp } }
      else c
    wholeFrame cb c
  | .zero => { c with effects := c.effects ++ [Effect.exit] }

/-- `ws_conn_new` followed by `frame_recv_loop`. -/
def frameRecvLoop : Conn where
  step := .one
  ntoread := 2
  frame := ⟨0,0,0,0,[0,0,0,0],none⟩
  msg := []
  pongData := []
  effects := []

/-- The connection as a consumer of its input: `frame_read_cb` runs when `ntoread`
bytes are buffered and removes exactly these. -/
def reader (cb : Callbacks) : StreamReader UInt8 Conn := ⟨Conn.ntoread,frameReadCb cb⟩

end WebSocket
end SdkCp
