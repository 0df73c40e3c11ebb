import SdkCp.Base64
import SdkCp.WebSocketReceive
import SdkCp.WebSocketRequest
import SdkCp.WebSocketSafety

/-! A whole connection of web_server/ws/connection.cpp: the request is read byte by byte, answered
with the response of websocket.cpp, and the drained response starts the frame loop. The buffers
belong to a `bufferevent`, whose events come in any order. -/
namespace SdkCp
namespace WebSocketConnection

open WebSocket TransitionSystem

/-! websocket.cpp -/

def guid : List UInt8 := bytesOf "258EAFA5-E914-47DA-95CA-C5AB0DC85B11"

/-- `SHA1` of the crypto library, into `md`. -/
abbrev Digest := List UInt8 → List.Vector UInt8 20

def generateKey (sha1 : Digest) (key : List UInt8) : List UInt8 :=
  Base64.base64Encode (sha1 (key ++ guid)).toList

/-- The lines of every response. -/
def statusLines : List UInt8 :=
  bytesOf "HTTP/1.1 101 WebSocket Protocol HandShake\r\n" ++ bytesOf "Connection: Upgrade\r\n" ++
    bytesOf "Upgrade: WebSocket\r\n" ++ bytesOf "Server: WebChat Demo Server\r\n"

def generateWebsocketResponse (sha1 : Digest) (wsReq : Option WsReqT) : List UInt8 :=
  match wsReq with
  | none => []
  | some wsReq =>
    statusLines ++
      (bytesOf "Sec-WebSocket-Accept: " ++ generateKey sha1 wsReq.secWebsocketKey ++ bytesOf "\r\n") ++
      bytesOf "\r\n"

/-! connection.cpp -/

/-- The callbacks that are set: those of the request, or those of the frame loop. -/
inductive Phase
  | request | frames
  deriving DecidableEq

/-- `ws_conn_t` with the buffers of its `bufferevent`, and what went through it so far: what
the peer sent, the buffers written and the bytes of them the peer got. `ended` is the end of the
process in a log call. -/
structure State where
  ended : Bool
  bev : Bool
  phase : Phase
  reading : Bool
  wsReqStr : List UInt8
  wsRespStr : List UInt8
  conn : Conn
  input : List UInt8
  output : List UInt8
  handshakes : ℕ
  closes : ℕ
  received : List UInt8
  written : List (List UInt8)
  sent : List UInt8

def wsConnNew : Conn := frameRecvLoop.expect .zero 0

/-- `bufferevent_write`. -/
def State.write (s : State) (bytes : List UInt8) : State :=
  { s with output := s.output ++ bytes, written := s.written ++ [bytes] }

/-- `ws_serve_exit`: the close callback destroys the user, which frees the `bufferevent`. A user that
a handler keeps alive behind its close is left out. -/
def wsServeExit (s : State) : State := { s with bev := false, closes := s.closes+1 }

/-- `accept_websocket_request` on a new connection. -/
def acceptWebsocketRequest : State where
  ended := false
  bev := true
  phase := .request
  reading := true
  wsReqStr := []
  wsRespStr := []
  conn := wsConnNew
  input := []
  output := []
  handshakes := 0
  closes := 0
  received := []
  written := []
  sent := []

/-- What `respond_websocket_request` answers. -/
def response (sha1 : Digest) (wsReqStr : List UInt8) : List UInt8 :=
  generateWebsocketResponse sha1 (parseWebsocketRequest (some wsReqStr) (some ⟨[],[],[],[],[],[],[],[]⟩)).2

def respondWebsocketRequest (sha1 : Digest) (s : State) : State :=
  let s := { s with wsRespStr := response sha1 s.wsReqStr }
  if s.wsRespStr = [] then wsServeExit s else s.write s.wsRespStr

def crlfcrlf : List UInt8 := [13,10,13,10]

def requestReadCb (sha1 : Digest) (s : State) (c : List UInt8) : State :=
  let s := { s with wsReqStr := s.wsReqStr ++ c }
  let n := s.wsReqStr.length
  if 4 ≤ n ∧ s.wsReqStr.drop (n-4) = crlfcrlf then
    respondWebsocketRequest sha1 { s with reading := false }
  else s

/-- `LOG("%s")`: the text with its NUL fits the buffer of `__LOG`. -/
def logFits (text : List UInt8) : Bool := (cstr text 0).length < 5*1024

/-- `response_write_cb`: both texts are logged before `frame_recv_loop`, and `sprintf_s` ends the
process where one does not fit. -/
def responseWriteCb (s : State) : State :=
  if logFits s.wsReqStr ∧ logFits s.wsRespStr then
    { s with handshakes := s.handshakes+1, conn := s.conn.expect .one 2, phase := .frames, reading := true }
  else { s with ended := true }

def Effect.sent? : Effect → Option (List UInt8)
  | .send bytes => some bytes
  | _ => none

/-- `frame_read_cb`, with its `send_a_frame`. -/
def frameReadStep (cb : Callbacks) (s : State) (tmp : List UInt8) : State :=
  let conn := frameReadCb cb s.conn tmp
  ((conn.effects.drop s.conn.effects.length).filterMap Effect.sent?).foldl State.write
    { s with conn }

/-- The low watermark of the read callback that is set. -/
def State.ntoread (s : State) : ℕ :=
  match s.phase with
  | .request => 1
  | .frames => s.conn.ntoread

/-- What happens to a connection: bytes of the peer, the read callback, bytes that leave, a frame
of the user, `user_t::disconnect` and the end of the peer. -/
inductive Event
  | arrive (bytes : List UInt8)
  | read
  | flush (n : ℕ)
  | send (frame : List UInt8)
  | disconnect
  | close

/-- A freed `bufferevent` has no events; the write callback runs when the output is drained. -/
def step (sha1 : Digest) (cb : Callbacks) (s : State) : Event → Option State
  | .arrive bytes =>
    if s.bev then some { s with received := s.received ++ bytes, input := s.input ++ bytes } else none
  | .read =>
    if s.bev ∧ s.reading ∧ s.ntoread ≤ s.input.length then
      let tmp := s.input.take s.ntoread
      let t := { s with input := s.input.drop s.ntoread }
      match s.phase with
      | .request => some (requestReadCb sha1 t tmp)
      | .frames => some (frameReadStep cb t tmp)
    else none
  | .flush n =>
    if s.bev ∧ 0 < n ∧ n ≤ s.output.length then
      let t := { s with sent := s.sent ++ s.output.take n, output := s.output.drop n }
      if t.output = [] ∧ s.phase = .request then some (responseWriteCb t) else some t
    else none
  | .send frame => some (if s.bev ∧ frame ≠ [] then s.write frame else s)
  | .disconnect => some { s with bev := false }
  | .close => if s.bev then some (wsServeExit s) else none

/-- There is no event behind the end of the process. -/
def system (sha1 : Digest) (cb : Callbacks) : TransitionSystem State Event where
  init s := s = acceptWebsocketRequest
  step s e := if s.ended then none else step sha1 cb s e

theorem system_step {sha1 : Digest} {cb : Callbacks} {s t : State} {e : Event} :
    (system sha1 cb).step s e = some t ↔ s.ended = false ∧ step sha1 cb s e = some t := by
  cases h : s.ended <;> simp [system,h]

/-- A handler gets the connection with its first message, so that a frame is sent after the
handshake. -/
def Handed (s : State) : Event → Prop
  | .send _ => s.handshakes ≠ 0
  | _ => True

/-- No request ends in `bs`. -/
def Unfinished (bs : List UInt8) : Prop := ∀ p, p <+: bs → ¬crlfcrlf <:+ p

/-- `bs` is a request and nothing else. -/
structure Finished (bs : List UInt8) : Prop where
  ends : crlfcrlf <:+ bs
  shortest : ∀ p, p <+: bs → crlfcrlf <:+ p → p = bs

theorem ends_iff (bs : List UInt8) :
    4 ≤ bs.length ∧ bs.drop (bs.length-4) = crlfcrlf ↔ crlfcrlf <:+ bs := by
  rw [List.suffix_iff_eq_drop]
  constructor
  · exact fun h => h.2.symm
  · intro h
    have hlen := congrArg List.length h
    simp only [crlfcrlf,List.length_drop,List.length_cons,List.length_nil] at hlen
    exact ⟨by omega,h.symm⟩

theorem unfinished_nil : Unfinished [] := by
  intro p hp
  obtain rfl := List.prefix_nil.mp hp
  decide

theorem Unfinished.concat {bs : List UInt8} (h : Unfinished bs) (c : UInt8) :
    if crlfcrlf <:+ bs ++ [c] then Finished (bs ++ [c]) else Unfinished (bs ++ [c]) := by
  have hsplit : ∀ p, p <+: bs ++ [c] → crlfcrlf <:+ p → p = bs ++ [c] := by
    intro p hp hends
    rcases List.prefix_concat_iff.mp hp with rfl | hp
    · rfl
    · exact absurd hends (h p hp)
  split
  · rename_i hends
    exact ⟨hends,hsplit⟩
  · rename_i hends
    intro p hp hp'
    exact hends (hsplit p hp hp' ▸ hp')

theorem Finished.unique {r r' rest rest' : List UInt8} (h : Finished r) (h' : Finished r')
    (heq : r ++ rest = r' ++ rest') : r = r' ∧ rest = rest' := by
  have hr : r = r' := by
    rcases List.prefix_or_prefix_of_prefix (List.prefix_append r rest)
      (heq ▸ List.prefix_append r' rest') with hp | hp
    · exact h'.shortest r hp h.ends
    · exact (h.shortest r' hp h'.ends).symm
  subst hr
  exact ⟨rfl,List.append_cancel_left heq⟩

theorem foldl_write (bufs : List (List UInt8)) (s : State) : bufs.foldl State.write s =
    { s with output := s.output ++ bufs.flatten, written := s.written ++ bufs } := by
  induction bufs generalizing s with
  | nil => simp
  | cons b bufs ih => simp [ih,State.write]

theorem frameReadStep_eq (cb : Callbacks) (s : State) (tmp : List UInt8) : ∃ bufs,
    frameReadStep cb s tmp =
      { s with conn := frameReadCb cb s.conn tmp
               output := s.output ++ bufs.flatten
               written := s.written ++ bufs } := ⟨_,foldl_write _ _⟩

theorem response_ne_nil (sha1 : Digest) (wsReqStr : List UInt8) : response sha1 wsReqStr ≠ [] := by
  unfold response parseWebsocketRequest
  have hline : statusLines ≠ [] := by decide
  split <;> split <;> simp_all [generateWebsocketResponse]

theorem requestReadCb_eq (sha1 : Digest) (s : State) (c : List UInt8) : requestReadCb sha1 s c =
    if crlfcrlf <:+ s.wsReqStr ++ c then
      { s with wsReqStr := s.wsReqStr ++ c
               reading := false
               wsRespStr := response sha1 (s.wsReqStr ++ c)
               output := s.output ++ response sha1 (s.wsReqStr ++ c)
               written := s.written ++ [response sha1 (s.wsReqStr ++ c)] }
    else { s with wsReqStr := s.wsReqStr ++ c } := by
  simp only [requestReadCb,ends_iff,respondWebsocketRequest,response_ne_nil,if_false]
  rfl

section stages

variable (sha1 : Digest) (cb : Callbacks) (s : State)

/-- The request is being read. -/
structure Asking : Prop where
  live : s.ended = false
  phase : s.phase = .request
  reading : s.reading = true
  received : s.received = s.wsReqStr ++ s.input
  unfinished : Unfinished s.wsReqStr
  written : s.written = []
  conn : s.conn = wsConnNew
  handshakes : s.handshakes = 0

/-- The response is on its way. -/
structure Answering : Prop where
  live : s.ended = false
  phase : s.phase = .request
  reading : s.reading = false
  received : s.received = s.wsReqStr ++ s.input
  finished : Finished s.wsReqStr
  resp : s.wsRespStr = response sha1 s.wsReqStr
  written : s.written = [response sha1 s.wsReqStr]
  output : s.output ≠ []
  conn : s.conn = wsConnNew
  handshakes : s.handshakes = 0

/-- The response has arrived, and the frame machine reads what follows the request. -/
structure Serving : Prop where
  live : s.ended = false
  logged : logFits s.wsReqStr = true
  phase : s.phase = .frames
  reading : s.reading = true
  finished : Finished s.wsReqStr
  written : s.written.head? = some (response sha1 s.wsReqStr)
  sent : response sha1 s.wsReqStr <+: s.sent
  handshakes : s.handshakes = 1
  reads : ∃ rest, s.received = s.wsReqStr ++ rest ∧
    ((reader cb).system frameRecvLoop).Reachable ⟨s.conn,rest,s.input⟩

/-- The response has left, and its request was too long to be logged. -/
structure Ended : Prop where
  ended : s.ended = true
  long : logFits s.wsReqStr = false
  received : s.received = s.wsReqStr ++ s.input
  finished : Finished s.wsReqStr
  written : s.written = [response sha1 s.wsReqStr]
  conn : s.conn = wsConnNew
  handshakes : s.handshakes = 0

/-- The invariant of a connection. -/
structure Inv : Prop where
  bytes : s.sent ++ s.output = s.written.flatten
  closes : s.closes = 0 ∨ s.closes = 1 ∧ s.bev = false
  stage : Asking s ∨ Answering sha1 s ∨ Serving sha1 cb s ∨ Ended sha1 s

end stages

variable {sha1 : Digest} {cb : Callbacks} {s t : State}

theorem inv_accept : Inv sha1 cb acceptWebsocketRequest :=
  ⟨rfl,.inl rfl,.inl ⟨rfl,rfl,rfl,rfl,unfinished_nil,rfl,rfl,rfl⟩⟩

theorem Inv.stages (h : Inv sha1 cb s) (hlive : s.ended = false) :
    Asking s ∨ Answering sha1 s ∨ Serving sha1 cb s := by
  rcases h.stage with hst | hst | hst | hst
  · exact .inl hst
  · exact .inr (.inl hst)
  · exact .inr (.inr hst)
  · exact absurd hst.ended (by simp [hlive])

theorem Inv.arrive (h : Inv sha1 cb s) (bytes : List UInt8) :
    Inv sha1 cb { s with received := s.received ++ bytes, input := s.input ++ bytes } := by
  refine ⟨h.bytes,h.closes,?_⟩
  rcases h.stage with h | h | h | h
  · exact .inl { h with received := by simp [h.received] }
  · exact .inr (.inl { h with received := by simp [h.received] })
  · obtain ⟨rest,hrest,hreach⟩ := h.reads
    exact .inr (.inr (.inl { h with reads := ⟨rest++bytes,by simp [hrest],
      hreach.step (e:=.arrive bytes) trivial rfl⟩ }))
  · exact .inr (.inr (.inr { h with received := by simp [h.received] }))

theorem Inv.read (h : Inv sha1 cb s) (hlive : s.ended = false) (hs : step sha1 cb s .read = some t) :
    Inv sha1 cb t := by
  simp only [step] at hs
  split at hs
  case isFalse => simp at hs
  rename_i hen
  obtain ⟨-,hreading,hn⟩ := hen
  rcases h.stages hlive with hst | hst | hst
  · -- one byte of the request
    simp only [State.ntoread,hst.phase,Option.some.injEq,requestReadCb_eq] at hs hn
    obtain ⟨c,input,hinput⟩ := List.exists_cons_of_length_pos hn
    simp only [hinput,List.take_succ_cons,List.take_zero,List.drop_succ_cons,List.drop_zero] at hs
    have hbytes := h.bytes
    have hnext := hst.unfinished.concat c
    have hrec : s.received = (s.wsReqStr ++ [c]) ++ input := by simp [hst.received,hinput]
    split at hs
    · rename_i hends
      rw [if_pos hends] at hnext
      subst hs
      have hout : s.output = [] := by
        rw [hst.written,List.flatten_nil,List.append_eq_nil_iff] at hbytes
        exact hbytes.2
      refine ⟨by simp [← List.append_assoc,hbytes],h.closes,.inr (.inl ?_)⟩
      exact ⟨hlive,rfl,rfl,hrec,hnext,rfl,by simp [hst.written],by simp [hout,response_ne_nil],hst.conn,
        hst.handshakes⟩
    · rename_i hends
      rw [if_neg hends] at hnext
      subst hs
      exact ⟨hbytes,h.closes,.inl ⟨hlive,rfl,hreading,hrec,hnext,hst.written,hst.conn,hst.handshakes⟩⟩
  · simp [hst.reading] at hreading
  · -- a portion of a frame
    simp only [State.ntoread,hst.phase,Option.some.injEq] at hs hn
    obtain ⟨bufs,heq⟩ := frameReadStep_eq cb
      { s with phase := .frames, input := s.input.drop s.conn.ntoread } (s.input.take s.conn.ntoread)
    rw [heq] at hs
    subst hs
    obtain ⟨rest,hrest,hreach⟩ := hst.reads
    refine ⟨by simp [← List.append_assoc,h.bytes],h.closes,.inr (.inr (.inl ?_))⟩
    refine ⟨hlive,hst.logged,rfl,hreading,hst.finished,?_,hst.sent,hst.handshakes,rest,hrest,?_⟩
    · simp [hst.written]
    · exact hreach.step (e:=.read) trivial (if_pos hn)

theorem length_response (sha1 : Digest) (wsReqStr : List UInt8) :
    (response sha1 wsReqStr).length ≤ 167 := by
  have hlines : statusLines.length = 113 := by decide +kernel
  have haccept : (bytesOf "Sec-WebSocket-Accept: ").length = 22 := by decide +kernel
  have hcrlf : (bytesOf "\r\n").length = 2 := by decide +kernel
  unfold response generateWebsocketResponse
  split
  · exact Nat.zero_le 167
  · simp only [List.length_append,generateKey,Base64.length_base64Encode,List.Vector.toList_length,hlines,
      haccept,hcrlf]
    omega

theorem logFits_response (sha1 : Digest) (wsReqStr : List UInt8) :
    logFits (response sha1 wsReqStr) = true := by
  have hlen := length_response sha1 wsReqStr
  have hle : (cstr (response sha1 wsReqStr) 0).length ≤ (response sha1 wsReqStr).length :=
    (List.takeWhile_sublist _).length_le
  simp only [logFits,decide_eq_true_eq]
  omega

theorem Inv.flush (h : Inv sha1 cb s) (hlive : s.ended = false) {n : ℕ}
    (hs : step sha1 cb s (.flush n) = some t) : Inv sha1 cb t := by
  simp only [step] at hs
  split at hs
  case isFalse => simp at hs
  rename_i hen
  obtain ⟨-,hpos,hn⟩ := hen
  have hbytes : (s.sent ++ s.output.take n) ++ s.output.drop n = s.written.flatten := by
    rw [List.append_assoc,List.take_append_drop,h.bytes]
  rcases h.stages hlive with hst | hst | hst
  · have hout := h.bytes
    rw [hst.written,List.flatten_nil,List.append_eq_nil_iff] at hout
    simp [hout.2] at hn
    omega
  · split at hs
    · -- the response is drained
      rename_i hdrained
      obtain rfl := Option.some.inj hs
      have hsent : s.sent ++ s.output.take n = response sha1 s.wsReqStr := by
        simpa [hdrained.1,hst.written] using hbytes
      have hfits : logFits s.wsRespStr = true := hst.resp ▸ logFits_response sha1 s.wsReqStr
      cases hlogged : logFits s.wsReqStr with
      | true =>
        rw [responseWriteCb,if_pos ⟨hlogged,hfits⟩]
        refine ⟨hbytes,h.closes,.inr (.inr (.inl ⟨hlive,hlogged,rfl,rfl,hst.finished,by simp [hst.written],?_,
          by simp [hst.handshakes],s.input,hst.received,?_⟩))⟩
        · exact hsent ▸ List.prefix_rfl
        · have hconn : s.conn.expect .one 2 = frameRecvLoop := by rw [hst.conn]; rfl
          simp only [hconn]
          exact .step (.init rfl) trivial (e:=.arrive s.input) rfl
      | false =>
        rw [responseWriteCb,if_neg (by simp [hlogged])]
        exact ⟨hbytes,h.closes,.inr (.inr (.inr ⟨rfl,hlogged,hst.received,hst.finished,hst.written,hst.conn,
          hst.handshakes⟩))⟩
    · rename_i hmore
      obtain rfl := Option.some.inj hs
      have hne : s.output.drop n ≠ [] := fun hnil => hmore ⟨hnil,hst.phase⟩
      exact ⟨hbytes,h.closes,.inr (.inl { hst with output := hne })⟩
  · rw [if_neg (by simp [hst.phase])] at hs
    obtain rfl := Option.some.inj hs
    refine ⟨hbytes,h.closes,.inr (.inr (.inl { hst with sent := ?_ }))⟩
    exact hst.sent.trans (List.prefix_append _ _)

theorem Inv.step {e : Event} (h : Inv sha1 cb s) (hlive : s.ended = false) (hok : Handed s e)
    (hs : WebSocketConnection.step sha1 cb s e = some t) : Inv sha1 cb t := by
  cases e with
  | arrive bytes =>
    simp only [WebSocketConnection.step] at hs
    split at hs
    · obtain rfl := Option.some.inj hs
      exact h.arrive bytes
    · simp at hs
  | read => exact h.read hlive hs
  | flush n => exact h.flush hlive hs
  | send frame =>
    obtain rfl := Option.some.inj hs
    split
    · refine ⟨by simp [State.write,← List.append_assoc,h.bytes],h.closes,?_⟩
      rcases h.stages hlive with hst | hst | hst
      · exact absurd hst.handshakes hok
      · exact absurd hst.handshakes hok
      · exact .inr (.inr (.inl { hst with written := by simp [State.write,hst.written] }))
    · exact h
  | disconnect =>
    obtain rfl := Option.some.inj hs
    refine ⟨h.bytes,h.closes.imp_right fun hc => ⟨hc.1,rfl⟩,?_⟩
    rcases h.stages hlive with hst | hst | hst
    · exact .inl { hst with }
    · exact .inr (.inl { hst with })
    · exact .inr (.inr (.inl { hst with }))
  | close =>
    simp only [WebSocketConnection.step] at hs
    split at hs
    · rename_i hbev
      obtain rfl := Option.some.inj hs
      have hzero : s.closes = 0 := by
        rcases h.closes with hc | hc
        · exact hc
        · simp [hc.2] at hbev
      refine ⟨h.bytes,.inr ⟨by simp [wsServeExit,hzero],rfl⟩,?_⟩
      rcases h.stages hlive with hst | hst | hst
      · exact .inl { hst with }
      · exact .inr (.inl { hst with })
      · exact .inr (.inr (.inl { hst with }))
    · simp at hs

theorem inv_of_reachable (h : (system sha1 cb).ReachableBy Handed s) : Inv sha1 cb s := by
  refine h.invariant ?_ fun s e t hinv hok hs => ?_
  · rintro _ rfl
    exact inv_accept
  · obtain ⟨hlive,hs⟩ := system_step.mp hs
    exact hinv.step hlive hok hs

/-- Without `Handed`: a frame sent while the request is read makes `response_write_cb` start the
frame loop, without a response and in the middle of the request. -/
theorem starts_unanswered (h : Inv sha1 cb s) (hst : Asking s) (hbev : s.bev = true)
    (hlogs : logFits s.wsReqStr = true ∧ logFits s.wsRespStr = true) {frame : List UInt8}
    (hne : frame ≠ []) : ∃ t,
    (system sha1 cb).exec s [.send frame,.flush frame.length] = some t ∧
      t.phase = .frames ∧ t.handshakes = 1 ∧ t.wsReqStr = s.wsReqStr ∧ t.written = [frame] := by
  have hout : s.output = [] := by
    have hbytes := h.bytes
    rw [hst.written,List.flatten_nil,List.append_eq_nil_iff] at hbytes
    exact hbytes.2
  have hsend : step sha1 cb s (.send frame) = some (s.write frame) := by
    simp only [step,hbev,hne,ne_eq,not_false_iff,and_self,if_true]
  have hflush : step sha1 cb (s.write frame) (.flush frame.length) = some
      { s.write frame with sent := s.sent ++ frame, output := [], handshakes := s.handshakes+1
                           conn := s.conn.expect .one 2, phase := .frames, reading := true } := by
    simp only [step,State.write,hout,hbev,hst.phase,List.nil_append]
    rw [if_pos ⟨trivial,List.length_pos_iff.mpr hne,le_rfl⟩,if_pos ⟨by simp,trivial⟩,responseWriteCb,
      if_pos hlogs]
    simp
  refine ⟨_,Option.bind_eq_some_iff.mpr ⟨_,system_step.mpr ⟨hst.live,hsend⟩,Option.bind_eq_some_iff.mpr
    ⟨_,system_step.mpr ⟨hst.live,hflush⟩,rfl⟩⟩,?_⟩
  exact ⟨rfl,by simp [hst.handshakes],rfl,by simp [State.write,hst.written]⟩

/-- A connection refines the frame reader. On every schedule nothing leaves before the request is
complete, what leaves starts with its response, the handshake is over once, when the response has
left, and from there the frame machine reads the bytes behind the request. -/
theorem connection_refines (h : (system sha1 cb).ReachableBy Handed s) :
    s.sent ++ s.output = s.written.flatten ∧ s.handshakes ≤ 1 ∧ s.closes ≤ 1 ∧
    (s.written ≠ [] → ∃ request rest, s.received = request ++ rest ∧ Finished request ∧
      s.written.head? = some (response sha1 request)) ∧
    (s.handshakes = 0 → s.conn = wsConnNew) ∧
    (s.handshakes = 1 → ∃ request rest, s.received = request ++ rest ∧ Finished request ∧
      response sha1 request <+: s.sent ∧
      ((reader cb).system frameRecvLoop).Reachable ⟨s.conn,rest,s.input⟩) := by
  have hinv := inv_of_reachable h
  have hcloses : s.closes ≤ 1 := by
    rcases hinv.closes with hc | hc <;> omega
  rcases hinv.stage with hst | hst | hst | hst
  · refine ⟨hinv.bytes,by simp [hst.handshakes],hcloses,fun hw => absurd hst.written hw,
      fun _ => hst.conn,fun hone => ?_⟩
    simp [hst.handshakes] at hone
  · refine ⟨hinv.bytes,by simp [hst.handshakes],hcloses,fun _ => ?_,fun _ => hst.conn,fun hone => ?_⟩
    · exact ⟨_,_,hst.received,hst.finished,by rw [hst.written]; rfl⟩
    · simp [hst.handshakes] at hone
  · obtain ⟨rest,hrest,hreach⟩ := hst.reads
    refine ⟨hinv.bytes,hst.handshakes.le,hcloses,fun _ => ⟨_,rest,hrest,hst.finished,hst.written⟩,
      fun hzero => ?_,fun _ => ⟨_,rest,hrest,hst.finished,hst.sent,hreach⟩⟩
    simp [hst.handshakes] at hzero
  · refine ⟨hinv.bytes,by simp [hst.handshakes],hcloses,fun _ => ?_,fun _ => hst.conn,fun hone => ?_⟩
    · exact ⟨_,_,hst.received,hst.finished,by rw [hst.written]; rfl⟩
    · simp [hst.handshakes] at hone

/-- The digest of `guid` alone. -/
def emptyKeyDigest : Digest := fun _ =>
  ⟨[41,248,125,64,139,12,85,151,37,235,17,15,99,19,199,205,111,18,103,204],rfl⟩

/-- A request without headers and the first byte of a frame in one piece: the frame is read after
both parts of the response have left. -/
theorem connection_refines_headerless : ∃ (s : State) (request rest : List UInt8),
    s.input = [0x81] ∧ s.received = request ++ rest ∧ Finished request ∧ s.conn.ntoread = 2 ∧
    response emptyKeyDigest request <+: s.sent := by
  let sys := system emptyKeyDigest ⟨id,id⟩
  let run := sys.exec acceptWebsocketRequest
    ([.arrive (bytesOf "GET /\r\n\r\n" ++ [0x81])] ++ List.replicate 9 .read ++ [.flush 100,.flush 67])
  have hrun : run.map (fun s => (s.input,s.handshakes,s.conn.ntoread)) = some ([0x81],1,2) := by
    decide +kernel
  obtain ⟨s,hs,hval⟩ := Option.map_eq_some_iff.mp hrun
  simp only [Prod.mk.injEq] at hval
  have hreach : sys.ReachableBy Handed s := by
    refine ReachableBy.exec (fun _ e he => ?_) (.init rfl) hs
    simp only [List.mem_append,List.mem_cons,List.mem_replicate,List.not_mem_nil,or_false] at he
    rcases he with (rfl | ⟨-,rfl⟩) | rfl | rfl <;> trivial
  obtain ⟨-,-,-,-,-,hserving⟩ := connection_refines hreach
  obtain ⟨request,rest,hrec,hfin,hsent,-⟩ := hserving hval.2.1
  exact ⟨s,request,rest,hval.1,hrec,hfin,hval.2.2,hsent⟩

/-- A client's request: lines that are not empty, and one that is. -/
structure Opening where
  requestLine : Line
  headers : List Line
  nonempty : ∀ l ∈ requestLine::headers, l.bytes ≠ []

def Opening.request (o : Opening) : Request where
  requestLine := o.requestLine
  nonempty := o.nonempty _ List.mem_cons_self
  lines := o.headers ++ [⟨[],by simp⟩]

theorem Opening.text_eq (o : Opening) :
    o.request.text = (o.requestLine::o.headers).flatMap Line.crlf ++ [13,10] := by
  simp [Request.text,Opening.request,Line.crlf]

theorem getLast_of_ends {bs : List UInt8} {x : UInt8} (h : crlfcrlf <:+ bs ++ [x]) : x = 10 := by
  obtain ⟨t,ht⟩ := h
  have hlast := congrArg List.getLast? ht
  simpa [crlfcrlf,eq_comm] using hlast

theorem Line.last_ne (l : Line) {bs : List UInt8} {x : UInt8} (h : bs ++ [x] <+: l.bytes) :
    x ≠ 10 ∧ x ≠ 13 := by
  have hmem : x ∈ l.bytes := h.subset (by simp)
  have hclean := (l.clean x hmem).2
  constructor <;> rintro rfl <;> simp [isDelim] at hclean

theorem ends_behind (l : Line) (hne : l.bytes ≠ []) {q : List UInt8}
    (h : crlfcrlf <:+ [13,10] ++ (l.bytes ++ 13::10::q)) : crlfcrlf <:+ [13,10] ++ q := by
  obtain ⟨init,x,hx⟩ := (List.eq_nil_or_concat' l.bytes).resolve_left hne
  have hxne := Line.last_ne l ⟨[],by rw [List.append_nil,hx]⟩
  have hsplit : [13,10] ++ (l.bytes ++ 13::10::q) = ([13,10] ++ init) ++ (x::13::10::q) := by simp [hx]
  rw [hsplit] at h
  match q with
  | [] =>
    obtain ⟨t,ht⟩ := h
    have hrev := congrArg List.reverse ht
    simp [crlfcrlf,eq_comm] at hrev
    exact absurd hrev.1 hxne.1
  | [c] =>
    obtain ⟨t,ht⟩ := h
    have hrev := congrArg List.reverse ht
    simp [crlfcrlf] at hrev
  | c::d::q =>
    refine List.suffix_of_suffix_length_le h ?_ (by simp [crlfcrlf])
    exact ⟨([13,10] ++ init) ++ [x],by simp⟩

theorem eq_of_ends (ls : List Line) (hne : ∀ l ∈ ls, l.bytes ≠ []) (p : List UInt8)
    (hp : p <+: ls.flatMap Line.crlf ++ [13,10]) (hends : crlfcrlf <:+ [13,10] ++ p) :
    p = ls.flatMap Line.crlf ++ [13,10] := by
  induction ls generalizing p with
  | nil =>
    refine hp.eq_of_length_le ?_
    have hlen := hends.length_le
    simp only [crlfcrlf,List.length_cons,List.length_nil,List.length_append] at hlen
    simp only [List.flatMap_nil,List.nil_append,List.length_cons,List.length_nil]
    omega
  | cons l ls ih =>
    have hl := hne l List.mem_cons_self
    rw [List.flatMap_cons,Line.crlf,List.append_assoc,List.append_assoc] at hp ⊢
    have hinside : ¬p <+: l.bytes := by
      intro hpre
      rcases List.eq_nil_or_concat' p with rfl | ⟨q,x,rfl⟩
      · simpa [crlfcrlf] using hends.length_le
      · rw [← List.append_assoc] at hends
        exact (Line.last_ne l hpre).1 (getLast_of_ends hends)
    rcases List.prefix_or_prefix_of_prefix hp (List.prefix_append _ _) with hpre | ⟨q,rfl⟩
    · exact absurd hpre hinside
    rw [List.prefix_append_right_inj] at hp
    rcases q with _ | ⟨c,_ | ⟨d,q⟩⟩
    · exact absurd (by simp) hinside
    · obtain rfl : c = 13 := by simpa using hp
      rw [← List.append_assoc] at hends
      exact absurd (getLast_of_ends hends) (by decide)
    · obtain ⟨rfl,rfl,hq⟩ : c = 13 ∧ d = 10 ∧ q <+: ls.flatMap Line.crlf ++ [13,10] := by
        simpa using hp
      have hls := ih (fun l h => hne l (List.mem_cons_of_mem _ h)) q hq (ends_behind l hl hends)
      rw [hls]
      simp

theorem Opening.finished (o : Opening) : Finished o.request.text where
  ends := by
    rw [o.text_eq]
    obtain ⟨init,l,hl⟩ := (List.eq_nil_or_concat' (o.requestLine::o.headers)).resolve_left (by simp)
    refine ⟨init.flatMap Line.crlf ++ l.bytes,?_⟩
    simp [hl,Line.crlf,crlfcrlf]
  shortest p hp hends := by
    rw [o.text_eq] at hp ⊢
    exact eq_of_ends _ o.nonempty p hp (hends.trans (List.suffix_append _ _))

/-- The key the client sent. -/
def Opening.key (o : Opening) : List UInt8 := (lastValue .secWebsocketKey o.request.lines).getD []

/-- A client decodes the value of `Sec-WebSocket-Accept` to the digest of its own key. -/
def Accepts (sha1 : Digest) (key resp : List UInt8) : Prop := ∃ accept,
  resp = statusLines ++ bytesOf "Sec-WebSocket-Accept: " ++ accept ++ crlfcrlf ∧ accept.length = 28 ∧
    Base64.base64Decode accept = some (sha1 (key ++ guid)).toList

theorem Opening.accepts (o : Opening) : Accepts sha1 o.key (response sha1 o.request.text) := by
  obtain ⟨res,hres,-,hget,-⟩ := parseWebsocketRequest_text o.request ⟨[],[],[],[],[],[],[],[]⟩
  have hkey : res.secWebsocketKey = o.key := by
    have := hget .secWebsocketKey (by decide)
    rwa [Request.get_fields] at this
  refine ⟨generateKey sha1 o.key,?_,?_,Base64.base64Decode_encode _⟩
  · rw [response,hres,generateWebsocketResponse,hkey]
    have hcrlf : bytesOf "\r\n" ++ bytesOf "\r\n" = crlfcrlf := by decide
    rw [← hcrlf]
    simp only [List.append_assoc]
  · rw [generateKey,Base64.length_base64Encode,List.Vector.toList_length]

/-- Nothing is left for the library to do: no portion to read and no byte to write. -/
def Quiescent (sha1 : Digest) (cb : Callbacks) (s : State) : Prop :=
  (system sha1 cb).step s .read = none ∧ ∀ n, (system sha1 cb).step s (.flush n) = none

theorem read_isSome (hlive : s.ended = false) (hbev : s.bev = true) (hreading : s.reading = true)
    (hn : s.ntoread ≤ s.input.length) : (system sha1 cb).step s .read ≠ none := by
  simp only [system,hlive,Bool.false_eq_true,if_false,step]
  rw [if_pos ⟨hbev,hreading,hn⟩]
  cases s.phase <;> simp

theorem flush_isSome (hlive : s.ended = false) (hbev : s.bev = true) (hout : s.output ≠ []) :
    (system sha1 cb).step s (.flush s.output.length) ≠ none := by
  simp only [system,hlive,Bool.false_eq_true,if_false,step]
  rw [if_pos ⟨hbev,List.length_pos_iff.mpr hout,le_rfl⟩]
  split <;> simp

/-- The client `o` accepted the response, and its frames `fs` were delivered. -/
structure Served (sha1 : Digest) (o : Opening) (fs : List Frame) (s : State) : Prop where
  handshakes : s.handshakes = 1
  sent : s.sent = s.written.flatten
  accepts : ∃ resp frames, s.written = resp::frames ∧ Accepts sha1 o.key resp
  input : s.input = []
  effects : s.conn.effects = delivered [] fs

/-- Where the connection of the client `o` rests: its request was served, or it was too long to be
logged and has ended the process. -/
structure AtRest (sha1 : Digest) (o : Opening) (fs : List Frame) (s : State) : Prop where
  served : logFits o.request.text = true → Served sha1 o fs s
  ended : logFits o.request.text = false → s.ended = true

theorem Inv.served (hinv : Inv sha1 cb s) (o : Opening) (fs : List Frame) (hbev : s.bev = true)
    (hlive : s.ended = false) (hrec : s.received = o.request.text ++ fs.flatMap Frame.bytes)
    (hrest : Quiescent sha1 cb s) : logFits o.request.text = true ∧ Served sha1 o fs s := by
  have hout : s.output = [] := by
    by_contra hne
    exact flush_isSome hlive hbev hne (hrest.2 _)
  have hshort : s.reading = true → s.input.length < s.ntoread := by
    intro hreading
    by_contra hn
    exact read_isSome hlive hbev hreading (by omega) hrest.1
  rcases hinv.stages hlive with hst | hst | hst
  · -- all of the request has been read
    have hlt := hshort hst.reading
    simp only [State.ntoread,hst.phase] at hlt
    have hnil : s.input = [] := List.length_eq_zero_iff.mp (by omega)
    have hreq := hst.received
    rw [hnil,List.append_nil,hrec] at hreq
    exact absurd o.finished.ends (hst.unfinished _ ⟨_,hreq⟩)
  · exact absurd hout hst.output
  · obtain ⟨rest,hsplit,hreach⟩ := hst.reads
    obtain ⟨hreq,rfl⟩ := hst.finished.unique o.finished (hsplit.symm.trans hrec)
    have hlt := hshort hst.reading
    simp only [State.ntoread,hst.phase] at hlt
    obtain ⟨c,msg,hread,hsync⟩ := reads_frames cb
      (show Synced frameRecvLoop [] [] from ⟨rfl,rfl,rfl,rfl,rfl⟩) fs
    have hreads := (StreamReader.reads_of_reachable hreach).confluent hread
      (by simp [reader,hsync.ntoread])
    obtain ⟨rfl,hinput⟩ := hreads.stuck hlt
    have hsent := hinv.bytes
    rw [hout,List.append_nil] at hsent
    refine ⟨hreq ▸ hst.logged,hst.handshakes,hsent,?_,hinput.symm,by simpa using hsync.effects⟩
    obtain ⟨frames,hframes⟩ := List.head?_eq_some_iff.mp hst.written
    exact ⟨_,frames,hframes,hreq ▸ o.accepts⟩

theorem Inv.long_of_ended (hinv : Inv sha1 cb s) (o : Opening) {rest : List UInt8}
    (hended : s.ended = true) (hrec : s.received = o.request.text ++ rest) :
    logFits o.request.text = false := by
  rcases hinv.stage with hst | hst | hst | hst
  · simp [hst.live] at hended
  · simp [hst.live] at hended
  · simp [hst.live] at hended
  · obtain ⟨hreq,-⟩ := hst.finished.unique o.finished (hst.received.symm.trans hrec)
    exact hreq ▸ hst.long

theorem Inv.atRest (hinv : Inv sha1 cb s) (o : Opening) (fs : List Frame) (hbev : s.bev = true)
    (hrec : s.received = o.request.text ++ fs.flatMap Frame.bytes)
    (hrest : Quiescent sha1 cb s) : AtRest sha1 o fs s := by
  cases hended : s.ended with
  | false =>
    obtain ⟨hfits,hserved⟩ := hinv.served o fs hbev hended hrec hrest
    exact ⟨fun _ => hserved,by simp [hfits]⟩
  | true =>
    have hlong := hinv.long_of_ended o hended hrec
    exact ⟨by simp [hlong],fun _ => hended⟩

theorem read_keeps (hs : step sha1 cb s .read = some t) :
    s.ntoread ≤ s.input.length ∧ t.input = s.input.drop s.ntoread ∧ t.bev = s.bev ∧
      t.received = s.received ∧ t.ended = s.ended := by
  simp only [step] at hs
  split at hs
  case isFalse => simp at hs
  rename_i hen
  cases hphase : s.phase with
  | request =>
    simp only [hphase,Option.some.injEq,requestReadCb_eq] at hs
    subst hs
    split <;> exact ⟨hen.2.2,rfl,rfl,rfl,rfl⟩
  | frames =>
    simp only [hphase,Option.some.injEq] at hs
    obtain ⟨bufs,heq⟩ := frameReadStep_eq cb
      { s with phase := .frames, input := s.input.drop s.ntoread } (s.input.take s.ntoread)
    rw [heq] at hs
    subst hs
    exact ⟨hen.2.2,rfl,rfl,rfl,rfl⟩

/-- Whether the process ends in it or not. -/
theorem responseWriteCb_keeps (s : State) : (responseWriteCb s).output = s.output ∧
    (responseWriteCb s).input = s.input ∧ (responseWriteCb s).bev = s.bev ∧
    (responseWriteCb s).received = s.received ∧ (responseWriteCb s).closes = s.closes ∧
    (responseWriteCb s).conn.effects = s.conn.effects := by
  unfold responseWriteCb
  split <;> exact ⟨rfl,rfl,rfl,rfl,rfl,rfl⟩

theorem flush_keeps {n : ℕ} (hs : step sha1 cb s (.flush n) = some t) :
    0 < n ∧ n ≤ s.output.length ∧ t.output = s.output.drop n ∧ t.input = s.input ∧ t.bev = s.bev ∧
      t.received = s.received := by
  simp only [step] at hs
  split at hs
  case isFalse => simp at hs
  rename_i hen
  split at hs
  · obtain rfl := Option.some.inj hs
    obtain ⟨hout,hinput,hbev,hrec,-,-⟩ := responseWriteCb_keeps
      { s with sent := s.sent ++ s.output.take n, output := s.output.drop n }
    exact ⟨hen.2.1,hen.2.2,hout,hinput,hbev,hrec⟩
  · obtain rfl := Option.some.inj hs
    exact ⟨hen.2.1,hen.2.2,rfl,rfl,rfl,rfl⟩

theorem Inv.ntoread_pos (h : Inv sha1 cb s) (hlive : s.ended = false) : 0 < s.ntoread := by
  rcases h.stages hlive with hst | hst | hst
  · simp [State.ntoread,hst.phase]
  · simp [State.ntoread,hst.phase]
  · obtain ⟨rest,-,hreach⟩ := hst.reads
    have hexpects : Expects s.conn := (steady_of_reachable hreach).expects
    simp only [State.ntoread,hst.phase]
    unfold Expects at hexpects
    split at hexpects
    · exact hexpects.elim
    all_goals omega

/-- The events of the library. -/
def Event.isTransfer : Event → Bool
  | .read | .flush _ => true
  | _ => false

/-- Reads and writes end, at the latest when what has arrived is used up. -/
theorem comes_to_rest (sha1 : Digest) (cb : Callbacks) (s : State) (hinv : Inv sha1 cb s) :
    ∃ es t, (∀ e ∈ es, Event.isTransfer e = true) ∧ (system sha1 cb).exec s es = some t ∧
      Inv sha1 cb t ∧ Quiescent sha1 cb t ∧ t.bev = s.bev ∧ t.received = s.received := by
  cases hread : (system sha1 cb).step s .read with
  | some u =>
    obtain ⟨hlive,hstep⟩ := system_step.mp hread
    obtain ⟨hn,hinput,hbev,hrec,-⟩ := read_keeps hstep
    have hpos := hinv.ntoread_pos hlive
    have hdec : u.input.length < s.input.length := by
      rw [hinput,List.length_drop]
      omega
    obtain ⟨es,t,hes,ht,hinv',hrest,hbev',hrec'⟩ :=
      comes_to_rest sha1 cb u (hinv.step (e:=.read) hlive trivial hstep)
    exact ⟨.read::es,t,by simpa [Event.isTransfer] using hes,Option.bind_eq_some_iff.mpr ⟨u,hread,ht⟩,
      hinv',hrest,hbev'.trans hbev,hrec'.trans hrec⟩
  | none =>
    by_cases hflush : ∃ n u, (system sha1 cb).step s (.flush n) = some u
    · obtain ⟨n,u,hflush⟩ := hflush
      obtain ⟨hlive,hstep⟩ := system_step.mp hflush
      obtain ⟨hn,hle,hout,hinput,hbev,hrec⟩ := flush_keeps hstep
      have hdec : u.input.length = s.input.length ∧ u.output.length < s.output.length := by
        rw [hinput,hout,List.length_drop]
        omega
      obtain ⟨es,t,hes,ht,hinv',hrest,hbev',hrec'⟩ :=
        comes_to_rest sha1 cb u (hinv.step (e:=.flush n) hlive trivial hstep)
      exact ⟨.flush n::es,t,by simpa [Event.isTransfer] using hes,
        Option.bind_eq_some_iff.mpr ⟨u,hflush,ht⟩,hinv',hrest,hbev'.trans hbev,hrec'.trans hrec⟩
    · refine ⟨[],s,by simp,rfl,hinv,⟨hread,fun n => ?_⟩,rfl,rfl⟩
      cases hn : (system sha1 cb).step s (.flush n) with
      | none => rfl
      | some u => exact absurd ⟨n,u,hn⟩ hflush
termination_by (s.input.length,s.output.length)
decreasing_by
  · rw [hdec.1]
    exact Prod.Lex.right _ hdec.2
  · exact Prod.Lex.left _ _ hdec

/-- Whatever the schedule, a live connection whose client sent a request and frames comes to rest by
reading and writing. Where it rests it has served the client, unless the request was too long for the
log: it has ended the process there. -/
theorem served_at_rest (o : Opening) (fs : List Frame) (h : (system sha1 cb).ReachableBy Handed s)
    (hbev : s.bev = true) (hrec : s.received = o.request.text ++ fs.flatMap Frame.bytes) :
    (Quiescent sha1 cb s → AtRest sha1 o fs s) ∧
    ∃ es t, (∀ e ∈ es, Event.isTransfer e = true) ∧ (system sha1 cb).exec s es = some t ∧
      Quiescent sha1 cb t ∧ AtRest sha1 o fs t := by
  have hinv := inv_of_reachable h
  obtain ⟨es,t,hes,ht,hinv',hrest,hbev',hrec'⟩ := comes_to_rest sha1 cb s hinv
  exact ⟨hinv.atRest o fs hbev hrec,es,t,hes,ht,hrest,
    hinv'.atRest o fs (hbev'.trans hbev) (hrec'.trans hrec) hrest⟩

/-- A request with the key of a browser. -/
def sampleOpening : Opening where
  requestLine := ⟨bytesOf "GET /chat HTTP/1.1",clean_of_all (by decide)⟩
  headers := [⟨bytesOf "Sec-WebSocket-Key: dGhlIHNhbXBsZSBub25jZQ==",clean_of_all (by decide)⟩]
  nonempty := by decide

/-- The digest of its key and `guid`. -/
def sampleDigest : Digest := fun _ =>
  ⟨[179,122,79,44,192,98,79,22,144,246,70,6,207,56,89,69,178,190,196,234],rfl⟩

/-- The request and the frames arrive at once. -/
theorem served_at_rest_sample : sampleOpening.key = bytesOf "dGhlIHNhbXBsZSBub25jZQ==" ∧
    Base64.base64Encode (sampleDigest sampleOpening.key).toList = bytesOf "s3pPLMBiTxaQ9kYGzzhZRbK+xOo=" ∧
    ∃ es t, (system sampleDigest ⟨id,id⟩).exec acceptWebsocketRequest es = some t ∧
      Served sampleDigest sampleOpening interrupted t := by
  let bytes := sampleOpening.request.text ++ interrupted.flatMap Frame.bytes
  let s := { acceptWebsocketRequest with received := bytes, input := bytes }
  have harrive : (system sampleDigest ⟨id,id⟩).step acceptWebsocketRequest (.arrive bytes) = some s := rfl
  have hreach : (system sampleDigest ⟨id,id⟩).ReachableBy Handed s :=
    .step (.init rfl) (e:=.arrive bytes) trivial harrive
  obtain ⟨-,es,t,-,ht,-,hrests⟩ := served_at_rest sampleOpening interrupted hreach rfl rfl
  refine ⟨by decide,by decide,.arrive bytes::es,t,?_,hrests.served (by decide +kernel)⟩
  exact Option.bind_eq_some_iff.mpr ⟨s,harrive,ht⟩

end WebSocketConnection
end SdkCp
