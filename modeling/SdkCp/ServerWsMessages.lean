import SdkCp.HttpServerIsolation
import SdkCp.ServerWs
import SdkCp.WebSocketConnection
import SdkCp.WebSocketFrame

/-! The messages of a whole `server_ws` (web_server/server_ws_win.hpp). Its connections are machines
of their own and share the buffers of their worker; a complete message is parsed and handed to the
handler of the worker with its user. jsoncpp and the handlers are parameters. -/
namespace SdkCp
namespace ServerWsMessages

open HttpServer (Library Jsoncpp Outcome)
open WebSocket TransitionSystem Threads
open FrameBufferT (kPrefixSize)
open WebSocketConnection (Digest Handed Opening Quiescent Served acceptWebsocketRequest logFits)

/-- What `on_frame_recv` uses of a `_worker_context`. -/
structure WorkerContext (J K : Type*) where
  request : J
  response : J
  directData : List UInt8
  stack : K

/-- `server_call_context` with its `user_connection`. -/
structure CallContext (J K : Type*) extends HttpServer.CallContext J K where
  userConnection : ℕ

/-- What a handler does with a `user_t` it was given. -/
inductive Action
  | send (frame : List UInt8)
  | disconnect

/-- `on_request`: how it ends, what it leaves behind the references of its context, and what it
does with the user meanwhile. -/
abbrev Handler (J K : Type*) := CallContext J K → Outcome × HttpServer.CallContext J K × List Action

/-- `user_t`, accepted by the listener of worker `ix`. -/
structure User (n : ℕ) where
  ix : Fin n
  conn : WebSocketConnection.State

/-- `server_ws` of `n` workers, the users in the order of their creation. What was parsed and what
the handlers were called with is recorded; `fault` is a lookup that finds no user. -/
structure State (n : ℕ) (J K : Type*) where
  workers : Fin n → WorkerContext J K
  users : List (User n)
  pendingList : List ℕ
  texts : List (ℕ × List UInt8)
  calls : List (CallContext J K)
  fault : Bool

/-- A user is acted on by handlers it was given to, in their calls or later, from any thread. -/
inductive Event (n : ℕ) (J K : Type*)
  | accept (ix : Fin n) (wscon : Bool)
  | arrive (v : ℕ) (bytes : List UInt8)
  | read (v : ℕ) (rh : Handler J K)
  | flush (v k : ℕ)
  | act (v : ℕ) (a : Action)
  | peerClose (v : ℕ)

def Action.event : Action → WebSocketConnection.Event
  | .send frame => .send frame
  | .disconnect => .disconnect

/-- `user_t::send` and `user_t::disconnect`. -/
def Action.run (c : WebSocketConnection.State) : Action → WebSocketConnection.State
  | .send frame => if c.bev ∧ frame ≠ [] then c.write frame else c
  | .disconnect => { c with bev := false }

/-- `extract_data` empties `_msg`, and nothing is bound to `on_pong_recv`. -/
def callbacks : Callbacks := ⟨fun _ => [],id⟩

section server

variable {n : ℕ} {J K : Type*} (sha1 : Digest) (lib : Library J K)

/-- The callback bound to `on_frame_recv`, from `extract_data` on: the worker, the connection, and
the context of the handler if it gets that far. What follows a handled request sends nothing. -/
def onFrameRecv (rh : Handler J K) (v : ℕ) (ix : Fin n) (wc : WorkerContext J K)
    (c : WebSocketConnection.State) (msg : List UInt8) :
    WorkerContext J K × WebSocketConnection.State × Option (CallContext J K) :=
  let (result,root) := lib.parse msg wc.request
  let wc := { wc with request := root, directData := msg }
  match result with
  | .refused | .raised => (wc,Action.disconnect.run c,none)
  | .parsed =>
    match lib.clear wc.response with
    | none => (wc,Action.disconnect.run c,none)
    | some response =>
      let cc : CallContext J K := {
        handle := 0, request := root, response := response
        directData := List.replicate kPrefixSize 0, requestHandlerIx := ix, hold := false
        stack := lib.clearStack wc.stack, userConnection := v }
      let (outcome,cc',actions) := rh cc
      let wc : WorkerContext J K := ⟨cc'.request,cc'.response,cc'.directData,cc'.stack⟩
      let c := actions.foldl Action.run c
      match outcome with
      | .returns _ => (wc,c,some cc)
      | .raises => (wc,Action.disconnect.run c,some cc)

/-- The message that a read completes. -/
def received (c c' : WebSocketConnection.State) : Option (List UInt8) :=
  ((c'.conn.effects.drop c.conn.effects.length).filterMap Effect.frameRecv?).head?

/-- `_listencb`; without a connection in it a user has nothing to handle. -/
def listencb (s : State n J K) (ix : Fin n) (wscon : Bool) : State n J K :=
  let c := if wscon then acceptWebsocketRequest else Action.disconnect.run acceptWebsocketRequest
  { s with users := s.users ++ [⟨ix,c⟩], pendingList := s.pendingList ++ [s.users.length] }

/-- An event of one connection. -/
def State.onConn (s : State n J K) (v : ℕ) (e : WebSocketConnection.Event) : Option (State n J K) :=
  (s.users[v]?).bind fun user => (WebSocketConnection.step sha1 callbacks user.conn e).map fun c =>
    { s with users := s.users.set v ⟨user.ix,c⟩ }

/-- `_frame_recv_cb` behind `frame_read_cb`. -/
def dispatch (s : State n J K) (rh : Handler J K) (v : ℕ) (user : User n)
    (c : WebSocketConnection.State) : Option (List UInt8) → State n J K
  | none => { s with users := s.users.set v ⟨user.ix,c⟩ }
  | some msg =>
    let (wc,c,call) := onFrameRecv lib rh v user.ix (s.workers user.ix) c msg
    { workers := Function.update s.workers user.ix wc
      users := s.users.set v ⟨user.ix,c⟩
      pendingList := s.pendingList
      texts := s.texts ++ [(v,msg)]
      calls := s.calls ++ call.toList
      fault := s.fault || !s.pendingList.contains v }

def stepRead (s : State n J K) (v : ℕ) (rh : Handler J K) : Option (State n J K) :=
  (s.users[v]?).bind fun user => (WebSocketConnection.step sha1 callbacks user.conn .read).map fun c =>
    dispatch lib s rh v user c (received user.conn c)

/-- The calls in which a handler was given user `v`. -/
def callsOf (v : ℕ) (calls : List (CallContext J K)) : List (CallContext J K) :=
  calls.filter (·.userConnection = v)

/-- What was parsed of the messages of user `v`. -/
def textsOf (v : ℕ) (texts : List (ℕ × List UInt8)) : List (List UInt8) :=
  (texts.filter (·.1 = v)).map (·.2)

def step (s : State n J K) : Event n J K → Option (State n J K)
  | .accept ix wscon => some (listencb s ix wscon)
  | .arrive v bytes => s.onConn sha1 v (.arrive bytes)
  | .read v rh => stepRead sha1 lib s v rh
  | .flush v k => s.onConn sha1 v (.flush k)
  | .act v a => if callsOf v s.calls = [] then none else s.onConn sha1 v a.event
  -- `_on_user_disconnect` erases the user
  | .peerClose v => (s.onConn sha1 v .close).map fun t =>
      { t with pendingList := t.pendingList.filter (· ≠ v) }

/-- The process has ended in a log call for one of the users. -/
def State.ended (s : State n J K) : Bool := s.users.any (·.conn.ended)

/-- What the workers hold at first does not matter. -/
def system : TransitionSystem (State n J K) (Event n J K) where
  init s := s.users = [] ∧ s.pendingList = [] ∧ s.texts = [] ∧ s.calls = [] ∧ s.fault = false
  step s e := if s.ended then none else step sha1 lib s e

end server

section connection

variable {sha1 : Digest} {c c' : WebSocketConnection.State}

theorem Action.step_event (c : WebSocketConnection.State) (a : Action) :
    WebSocketConnection.step sha1 callbacks c a.event = some (a.run c) := by
  cases a <;> rfl

/-- The frame machine goes on with at most one message. -/
def Grows (c c' : Conn) : Prop := ∃ new, c'.effects = c.effects ++ new ∧
  (new.filterMap Effect.frameRecv?).length ≤ 1

theorem Grows.of_eq {c c' : Conn} (h : c'.effects = c.effects) : Grows c c' := ⟨[],by simp [h],Nat.zero_le 1⟩

theorem grows_onFrameReceived (cb : Callbacks) (c : Conn) : Grows c (onFrameReceived cb c) := by
  by_cases hfin : c.frame.fin = 1
  · exact ⟨[.frameRecv (c.msg ++ c.frame.payload)],by simp [onFrameReceived,hfin],Nat.le_refl 1⟩
  · exact .of_eq (by simp [onFrameReceived,hfin])

theorem grows_onPongReceived (cb : Callbacks) (c : Conn) : Grows c (onPongReceived cb c) := by
  by_cases hfin : c.frame.fin = 1
  · exact ⟨[.pongRecv (c.pongData ++ c.frame.payload)],by simp [onPongReceived,hfin],Nat.zero_le 1⟩
  · exact .of_eq (by simp [onPongReceived,hfin])

theorem grows_wholeFrame (cb : Callbacks) (c : Conn) : Grows c (wholeFrame cb c) := by
  unfold wholeFrame
  split
  · exact ⟨[.send [0x88,0]],rfl,Nat.zero_le 1⟩
  · dsimp only [Conn.expect]
    split
    · exact .of_eq rfl
    · split
      · exact grows_onPongReceived cb c
      · exact grows_onFrameReceived cb c

theorem grows_frameReadCb (cb : Callbacks) (c : Conn) (tmp : List UInt8) :
    Grows c (frameReadCb cb c tmp) := by
  unfold frameReadCb
  cases c.step with
  | zero => exact ⟨[.exit],rfl,Nat.zero_le 1⟩
  | one =>
    dsimp only
    split
    · exact .of_eq rfl
    · split
      · exact .of_eq rfl
      · split <;> exact .of_eq rfl
  | two => exact .of_eq rfl
  | three =>
    dsimp only
    split
    · exact .of_eq rfl
    · exact grows_wholeFrame cb _
  | four =>
    dsimp only
    split <;> exact grows_wholeFrame cb _

theorem read_grows (hs : WebSocketConnection.step sha1 callbacks c .read = some c') :
    Grows c.conn c'.conn ∧ c.bev = true ∧ c'.bev = true := by
  obtain ⟨-,-,hbev,-,-⟩ := WebSocketConnection.read_keeps hs
  simp only [WebSocketConnection.step] at hs
  split at hs
  case isFalse => simp at hs
  rename_i hen
  refine ⟨?_,hen.1,hbev.trans hen.1⟩
  split at hs <;> obtain rfl := Option.some.inj hs
  · rw [WebSocketConnection.requestReadCb_eq]
    split <;> exact .of_eq rfl
  · obtain ⟨bufs,heq⟩ := WebSocketConnection.frameReadStep_eq callbacks
      { c with input := c.input.drop c.ntoread } (c.input.take c.ntoread)
    rw [heq]
    exact grows_frameReadCb callbacks c.conn _

/-- The messages of a connection so far. -/
def messagesOf (c : WebSocketConnection.State) : List (List UInt8) :=
  c.conn.effects.filterMap Effect.frameRecv?

theorem Grows.messagesOf (h : Grows c.conn c'.conn) :
    messagesOf c' = messagesOf c ++ (received c c').toList := by
  obtain ⟨new,hnew,hle⟩ := h
  simp only [ServerWsMessages.messagesOf,received,hnew,List.filterMap_append,List.drop_left]
  match hmsgs : new.filterMap Effect.frameRecv?, hle with
  | [], _ => rfl
  | [msg], _ => rfl

/-- The events of a connection other than reading: no message, and no new life. -/
theorem step_keeps {e : WebSocketConnection.Event} (he : e ≠ .read)
    (hs : WebSocketConnection.step sha1 callbacks c e = some c') :
    messagesOf c' = messagesOf c ∧ (c'.bev = true → c.bev = true) := by
  cases e with
  | read => exact absurd rfl he
  | arrive bytes =>
    simp only [WebSocketConnection.step] at hs
    split at hs
    · obtain rfl := Option.some.inj hs
      exact ⟨rfl,id⟩
    · cases hs
  | flush k =>
    simp only [WebSocketConnection.step] at hs
    split at hs
    · split at hs <;> obtain rfl := Option.some.inj hs
      · obtain ⟨-,-,hbev,-,-,heffects⟩ := WebSocketConnection.responseWriteCb_keeps
          { c with sent := c.sent ++ c.output.take k, output := c.output.drop k }
        exact ⟨by simp only [messagesOf,heffects],fun h => hbev ▸ h⟩
      · exact ⟨rfl,id⟩
    · cases hs
  | send frame =>
    obtain rfl := Option.some.inj hs
    split <;> exact ⟨rfl,id⟩
  | disconnect =>
    obtain rfl := Option.some.inj hs
    exact ⟨rfl,fun h => by cases h⟩
  | close =>
    simp only [WebSocketConnection.step] at hs
    split at hs
    · obtain rfl := Option.some.inj hs
      exact ⟨rfl,fun h => by cases h⟩
    · cases hs

theorem step_closes {e : WebSocketConnection.Event} (he : e ≠ .close)
    (hs : WebSocketConnection.step sha1 callbacks c e = some c') : c'.closes = c.closes := by
  cases e with
  | close => exact absurd rfl he
  | arrive bytes =>
    simp only [WebSocketConnection.step] at hs
    split at hs
    · obtain rfl := Option.some.inj hs
      rfl
    · cases hs
  | read =>
    simp only [WebSocketConnection.step] at hs
    split at hs
    · split at hs <;> obtain rfl := Option.some.inj hs
      · rw [WebSocketConnection.requestReadCb_eq]
        split <;> rfl
      · obtain ⟨bufs,heq⟩ := WebSocketConnection.frameReadStep_eq callbacks
          { c with input := c.input.drop c.ntoread } (c.input.take c.ntoread)
        rw [heq]
    · cases hs
  | flush k =>
    simp only [WebSocketConnection.step] at hs
    split at hs
    · split at hs <;> obtain rfl := Option.some.inj hs
      · obtain ⟨-,-,-,-,hcloses,-⟩ := WebSocketConnection.responseWriteCb_keeps
          { c with sent := c.sent ++ c.output.take k, output := c.output.drop k }
        exact hcloses
      · rfl
    · cases hs
  | send frame =>
    obtain rfl := Option.some.inj hs
    split <;> rfl
  | disconnect =>
    obtain rfl := Option.some.inj hs
    rfl

theorem Action.run_keeps (c : WebSocketConnection.State) (a : Action) :
    (a.run c).conn = c.conn ∧ (a.run c).handshakes = c.handshakes ∧ (a.run c).closes = c.closes ∧
      (a.run c).input = c.input ∧ (a.run c).received = c.received ∧ (a.run c).ended = c.ended := by
  cases a with
  | send frame =>
    simp only [Action.run]
    split <;> exact ⟨rfl,rfl,rfl,rfl,rfl,rfl⟩
  | disconnect => exact ⟨rfl,rfl,rfl,rfl,rfl,rfl⟩

theorem foldl_run_keeps (actions : List Action) (c : WebSocketConnection.State) :
    let c' := actions.foldl Action.run c
    c'.conn = c.conn ∧ c'.handshakes = c.handshakes ∧ c'.closes = c.closes ∧ c'.input = c.input ∧
      c'.received = c.received ∧ c'.ended = c.ended := by
  induction actions generalizing c with
  | nil => exact ⟨rfl,rfl,rfl,rfl,rfl,rfl⟩
  | cons a actions ih =>
    obtain ⟨hconn,hhands,hcloses,hinput,hrec,hended⟩ := a.run_keeps c
    obtain ⟨hconn',hhands',hcloses',hinput',hrec',hended'⟩ := ih (a.run c)
    exact ⟨hconn'.trans hconn,hhands'.trans hhands,hcloses'.trans hcloses,hinput'.trans hinput,
      hrec'.trans hrec,hended'.trans hended⟩

/-- Once the handshake is over, whatever is done with a user is a run of its connection. -/
theorem reachable_run (h : (WebSocketConnection.system sha1 callbacks).ReachableBy Handed c)
    (hhands : c.handshakes ≠ 0) (hlive : c.ended = false) (actions : List Action) :
    (WebSocketConnection.system sha1 callbacks).ReachableBy Handed (actions.foldl Action.run c) := by
  induction actions generalizing c with
  | nil => exact h
  | cons a actions ih =>
    obtain ⟨-,hhands',-,-,-,hended'⟩ := a.run_keeps c
    refine ih (h.step (e:=a.event) ?_ (WebSocketConnection.system_step.mpr ⟨hlive,a.step_event c⟩)) ?_ ?_
    · cases a with
      | send frame => exact hhands
      | disconnect => trivial
    · rwa [hhands']
    · rwa [hended']

theorem handshakes_ne_zero (h : (WebSocketConnection.system sha1 callbacks).ReachableBy Handed c)
    (hne : messagesOf c ≠ []) : c.handshakes ≠ 0 := by
  have hfresh : c.conn = WebSocketConnection.wsConnNew → False := fun heq => hne (by rw [messagesOf,heq]; rfl)
  rcases (WebSocketConnection.inv_of_reachable h).stage with hst | hst | hst | hst
  · exact (hfresh hst.conn).elim
  · exact (hfresh hst.conn).elim
  · simp [hst.handshakes]
  · exact (hfresh hst.conn).elim

end connection

section serving

variable {n : ℕ} {J K : Type*} (sha1 : Digest) (lib : Library J K)

/-- A call of the handler of worker `ix` for the message `text` of user `v`: all it gets of the
shared buffers is parsed from `text`, emptied or cleared. -/
structure Handled (v : ℕ) (ix : Fin n) (text : List UInt8) (cc : CallContext J K) : Prop where
  request : ∀ root, lib.parse text root = (.parsed,cc.request)
  response : ∃ old, lib.clear old = some cc.response
  directData : cc.directData = List.replicate kPrefixSize 0
  stack : ∃ old, cc.stack = lib.clearStack old
  handle : cc.handle = 0
  hold : cc.hold = false
  requestHandlerIx : cc.requestHandlerIx = ix
  userConnection : cc.userConnection = v

/-- A user's connection is a run of its own, each of its messages was parsed once and in order,
and all of them were handled, but for the one that ended the connection. -/
structure Serves (v : ℕ) (user : User n) (texts : List (List UInt8)) (calls : List (CallContext J K)) :
    Prop where
  conn : (WebSocketConnection.system sha1 callbacks).ReachableBy Handed user.conn
  parsed : texts = messagesOf user.conn
  handled : ∃ done rest, texts = done ++ rest ∧ rest.length ≤ 1 ∧ (user.conn.bev = true → rest = []) ∧
    List.Forall₂ (Handled lib v user.ix) done calls

/-- The connection of a user in the registry. -/
def User.connection (user : User n) : ServerWs.Connection :=
  if user.conn.bev then .live else if user.conn.closes = 0 then .null else .destroyed

def registry (users : List (User n)) (pendingList : List ℕ) : ServerWs.Registry :=
  ⟨users.map User.connection,pendingList⟩

structure Inv (s : State n J K) : Prop where
  serves : ∀ v user, s.users[v]? = some user →
    Serves sha1 lib v user (textsOf v s.texts) (callsOf v s.calls)
  fresh : ∀ v, s.users.length ≤ v → textsOf v s.texts = [] ∧ callsOf v s.calls = []
  owned : ServerWs.Owned (registry s.users s.pendingList)
  fault : s.fault = false

end serving

variable {n : ℕ} {J K : Type*} {sha1 : Digest} {lib : Library J K} {s t : State n J K}
  {v : ℕ} {user : User n} {c : WebSocketConnection.State}

theorem onFrameRecv_actions (lib : Library J K) (rh : Handler J K) (v : ℕ) (ix : Fin n)
    (wc : WorkerContext J K) (c : WebSocketConnection.State) (msg : List UInt8) :
    ∃ actions : List Action, (onFrameRecv lib rh v ix wc c msg).2.1 = actions.foldl Action.run c := by
  unfold onFrameRecv
  rcases lib.parse msg wc.request with ⟨result,root⟩
  cases result with
  | refused => exact ⟨[.disconnect],rfl⟩
  | raised => exact ⟨[.disconnect],rfl⟩
  | parsed =>
    dsimp only
    cases lib.clear wc.response with
    | none => exact ⟨[.disconnect],rfl⟩
    | some response =>
      dsimp only
      generalize rh _ = r
      rcases r with ⟨outcome,cc',actions⟩
      cases outcome with
      | returns b => exact ⟨actions,rfl⟩
      | raises => exact ⟨actions ++ [.disconnect],by simp⟩

/-- Either the handler is called for the message, or the message ends the connection. -/
theorem onFrameRecv_spec (hj : Jsoncpp lib) (rh : Handler J K) (v : ℕ) (ix : Fin n) (wc : WorkerContext J K)
    (c : WebSocketConnection.State) (msg : List UInt8) :
    let r := onFrameRecv lib rh v ix wc c msg
    r.2.2 = none ∧ r.2.1.bev = false ∨ ∃ cc, r.2.2 = some cc ∧ Handled lib v ix msg cc := by
  unfold onFrameRecv
  rcases hp : lib.parse msg wc.request with ⟨result,root⟩
  cases result with
  | refused => exact .inl ⟨rfl,rfl⟩
  | raised => exact .inl ⟨rfl,rfl⟩
  | parsed =>
    have hparse (root' : J) : lib.parse msg root' = (.parsed,root) := by
      have hverdict := hj.parse_verdict msg root' wc.request
      rw [hp] at hverdict
      have hroot := hj.parse_replaces msg root' wc.request hverdict
      rw [hp] at hroot
      exact Prod.ext hverdict hroot
    dsimp only
    cases hclear : lib.clear wc.response with
    | none => exact .inl ⟨rfl,rfl⟩
    | some response =>
      dsimp only
      generalize rh _ = r
      rcases r with ⟨outcome,cc',actions⟩
      have hhandled : Handled lib v ix msg ⟨⟨0,root,response,List.replicate kPrefixSize 0,ix,false,
          lib.clearStack wc.stack⟩,v⟩ := ⟨hparse,⟨_,hclear⟩,rfl,⟨_,rfl⟩,rfl,rfl,rfl,rfl⟩
      cases outcome with
      | returns b => exact .inr ⟨_,rfl,hhandled⟩
      | raises => exact .inr ⟨_,rfl,hhandled⟩

theorem closes_eq_zero (h : (WebSocketConnection.system sha1 callbacks).ReachableBy Handed c)
    (hbev : c.bev = true) : c.closes = 0 := by
  rcases (WebSocketConnection.inv_of_reachable h).closes with hc | hc
  · exact hc
  · simp [hbev] at hc

theorem registry_set (users : List (User n)) (pendingList : List ℕ) (v : ℕ) (user : User n) :
    registry (users.set v user) pendingList =
      ⟨(registry users pendingList).users.set v user.connection,pendingList⟩ := by
  simp [registry,List.map_set]

theorem registry_getElem? {users : List (User n)} (hv : users[v]? = some user) (pendingList : List ℕ) :
    (registry users pendingList).users[v]? = some user.connection := by
  simp [registry,hv]

/-- What keeps a user keeps the registry; what frees its `bufferevent` is a `disconnect`. -/
theorem owned_set {users : List (User n)} {pendingList : List ℕ}
    (h : ServerWs.Owned (registry users pendingList)) (hv : users[v]? = some user)
    (halive : user.conn.bev = true → user.conn.closes = 0) (hbev : c.bev = true → user.conn.bev = true)
    (hcloses : c.closes = user.conn.closes) :
    ServerWs.Owned (registry (users.set v ⟨user.ix,c⟩) pendingList) := by
  have hu := registry_getElem? hv pendingList
  rw [registry_set]
  by_cases hsame : User.connection ⟨user.ix,c⟩ = user.connection
  · rw [hsame,set_self hu]
    exact h
  · -- the connection was alive and is not any more
    have hlive : user.conn.bev = true := by
      by_contra hdead
      have hdead' : c.bev = false := Bool.eq_false_of_not_eq_true (mt hbev hdead)
      exact hsame (by simp [User.connection,hdead,hdead',hcloses])
    have hdead : c.bev = false := by
      by_contra hbev'
      exact hsame (by simp [User.connection,hlive,hbev'])
    have hconn : user.connection = .live := by simp [User.connection,hlive]
    have hnull : User.connection ⟨user.ix,c⟩ = .null := by
      simp [User.connection,hdead,hcloses,halive hlive]
    rw [hconn] at hu
    have hdisconnect := h.disconnect v
    rwa [ServerWs.disconnect,if_pos hu,← hnull] at hdisconnect

theorem system_step {e : Event n J K} :
    (system sha1 lib).step s e = some t ↔ s.ended = false ∧ step sha1 lib s e = some t := by
  cases h : s.ended <;> simp [system,h]

theorem State.conn_live (hlive : s.ended = false) (hv : s.users[v]? = some user) :
    user.conn.ended = false := by
  simp only [State.ended,List.any_eq_false,Bool.not_eq_true] at hlive
  exact hlive user (List.mem_of_getElem? hv)

theorem textsOf_concat (v w : ℕ) (texts : List (ℕ × List UInt8)) (msg : List UInt8) :
    textsOf w (texts ++ [(v,msg)]) = textsOf w texts ++ if v = w then [msg] else [] := by
  by_cases h : v = w <;> simp [textsOf,h]

theorem callsOf_append (v : ℕ) (calls calls' : List (CallContext J K)) :
    callsOf v (calls ++ calls') = callsOf v calls ++ callsOf v calls' := List.filter_append ..

theorem Inv.move (h : Inv sha1 lib s) (hv : s.users[v]? = some user)
    (workers : Fin n → WorkerContext J K) {texts : List (ℕ × List UInt8)} {calls : List (CallContext J K)}
    {fault : Bool} (hfault : fault = false)
    (hserves : Serves sha1 lib v ⟨user.ix,c⟩ (textsOf v texts) (callsOf v calls))
    (hothers : ∀ w, w ≠ v → textsOf w texts = textsOf w s.texts ∧ callsOf w calls = callsOf w s.calls)
    (hbev : c.bev = true → user.conn.bev = true) (hcloses : c.closes = user.conn.closes) :
    Inv sha1 lib ⟨workers,s.users.set v ⟨user.ix,c⟩,s.pendingList,texts,calls,fault⟩ where
  serves w user' hw := by
    rcases getElem?_set_cases hw with ⟨rfl,rfl⟩ | ⟨hne,hw⟩
    · exact hserves
    · rw [(hothers w hne).1,(hothers w hne).2]
      exact h.serves w user' hw
  fresh w hw := by
    rw [List.length_set] at hw
    have hne : w ≠ v := by
      rintro rfl
      exact absurd (List.getElem?_eq_some_iff.mp hv).1 (by omega)
    rw [(hothers w hne).1,(hothers w hne).2]
    exact h.fresh w hw
  owned := owned_set h.owned hv (closes_eq_zero (h.serves v user hv).conn) hbev hcloses
  fault := hfault

theorem Serves.handshakes {texts : List (List UInt8)} {calls : List (CallContext J K)}
    (h : Serves sha1 lib v user texts calls) (hne : calls ≠ []) : user.conn.handshakes ≠ 0 := by
  obtain ⟨done,rest,htexts,-,-,hall⟩ := h.handled
  refine handshakes_ne_zero h.conn ?_
  rw [← h.parsed,htexts]
  intro hnil
  obtain ⟨rfl,-⟩ := List.append_eq_nil_iff.mp hnil
  exact hne (List.forall₂_nil_left_iff.mp hall)

theorem Serves.go {texts : List (List UInt8)} {calls : List (CallContext J K)}
    (h : Serves sha1 lib v user texts calls)
    (hconn : (WebSocketConnection.system sha1 callbacks).ReachableBy Handed c)
    (hmsgs : messagesOf c = messagesOf user.conn) (hbev : c.bev = true → user.conn.bev = true) :
    Serves sha1 lib v ⟨user.ix,c⟩ texts calls := by
  obtain ⟨done,rest,htexts,hlen,hrest,hall⟩ := h.handled
  exact ⟨hconn,h.parsed.trans hmsgs.symm,done,rest,htexts,hlen,hrest ∘ hbev,hall⟩

theorem Inv.onConn (h : Inv sha1 lib s) (hlive : s.ended = false) {e : WebSocketConnection.Event}
    (hread : e ≠ .read) (hclose : e ≠ .close) (hok : callsOf v s.calls ≠ [] ∨ ∀ c, Handed c e)
    (hs : s.onConn sha1 v e = some t) : Inv sha1 lib t := by
  obtain ⟨user,hv,hs⟩ := Option.bind_eq_some_iff.mp hs
  obtain ⟨c,hc,rfl⟩ := Option.map_eq_some_iff.mp hs
  have hserves := h.serves v user hv
  have hhanded : Handed user.conn e := by
    rcases hok with hne | hok
    · have hhands := hserves.handshakes hne
      cases e with
      | send frame => exact hhands
      | arrive | read | flush | disconnect | close => trivial
    · exact hok _
  obtain ⟨hmsgs,hbev⟩ := step_keeps hread hc
  have hstep := WebSocketConnection.system_step.mpr ⟨s.conn_live hlive hv,hc⟩
  exact h.move hv s.workers h.fault (hserves.go (hserves.conn.step hhanded hstep) hmsgs hbev)
    (fun _ _ => ⟨rfl,rfl⟩) hbev (step_closes hclose hc)

theorem Inv.read (hj : Jsoncpp lib) (h : Inv sha1 lib s) (hrun : s.ended = false) {rh : Handler J K}
    (hs : stepRead sha1 lib s v rh = some t) : Inv sha1 lib t := by
  obtain ⟨user,hv,hs⟩ := Option.bind_eq_some_iff.mp hs
  obtain ⟨c,hc,rfl⟩ := Option.map_eq_some_iff.mp hs
  have hserves := h.serves v user hv
  have hconn : (WebSocketConnection.system sha1 callbacks).ReachableBy Handed c :=
    hserves.conn.step (e:=.read) trivial (WebSocketConnection.system_step.mpr ⟨s.conn_live hrun hv,hc⟩)
  have hcloses : c.closes = user.conn.closes := step_closes (fun he => by cases he) hc
  obtain ⟨hgrows,hlive,-⟩ := read_grows hc
  have hmsgs := hgrows.messagesOf
  cases hmsg : received user.conn c with
  | none =>
    rw [hmsg,Option.toList_none,List.append_nil] at hmsgs
    exact h.move hv s.workers h.fault (hserves.go hconn hmsgs fun _ => hlive) (fun _ _ => ⟨rfl,rfl⟩)
      (fun _ => hlive) hcloses
  | some msg =>
    rw [hmsg,Option.toList_some] at hmsgs
    have hhands : c.handshakes ≠ 0 := handshakes_ne_zero hconn (by simp [hmsgs])
    obtain ⟨actions,hactions⟩ := onFrameRecv_actions lib rh v user.ix (s.workers user.ix) c msg
    have hcall := onFrameRecv_spec hj rh v user.ix (s.workers user.ix) c msg
    simp only [dispatch]
    generalize hr : onFrameRecv lib rh v user.ix (s.workers user.ix) c msg = r at hactions hcall
    obtain ⟨wc,c',call⟩ := r
    dsimp only at hactions hcall ⊢
    have hkeeps := foldl_run_keeps actions c
    rw [← hactions] at hkeeps
    obtain ⟨hsame,-,hcloses',-,-,-⟩ := hkeeps
    obtain ⟨-,-,-,-,hended⟩ := WebSocketConnection.read_keeps hc
    -- the owner of a live connection is in the list
    have hpending : s.pendingList.contains v = true := by
      refine List.contains_iff_mem.mpr ((h.owned.mem_iff v).mpr ⟨_,registry_getElem? hv s.pendingList,?_⟩)
      simp [User.connection,hlive]
    have hothers (w : ℕ) (hne : w ≠ v) : textsOf w (s.texts ++ [(v,msg)]) = textsOf w s.texts ∧
        callsOf w (s.calls ++ call.toList) = callsOf w s.calls := by
      rw [textsOf_concat,if_neg hne.symm,List.append_nil,callsOf_append]
      rcases hcall with ⟨rfl,-⟩ | ⟨cc,rfl,hcc⟩
      · exact ⟨rfl,by simp [callsOf]⟩
      · exact ⟨rfl,by simp [callsOf,hcc.userConnection,hne.symm]⟩
    refine h.move hv _ (by rw [h.fault,hpending]; rfl) ⟨?_,?_,?_⟩ hothers (fun _ => hlive)
      (hcloses'.trans hcloses)
    · exact hactions ▸ reachable_run hconn hhands (hended.trans (s.conn_live hrun hv)) actions
    · rw [textsOf_concat,if_pos rfl,hserves.parsed]
      simpa only [messagesOf,hsame] using hmsgs.symm
    · -- all earlier messages were handled, since the connection was alive
      obtain ⟨done,rest,htexts,-,hrest,hall⟩ := hserves.handled
      rw [hrest hlive,List.append_nil] at htexts
      rw [textsOf_concat,if_pos rfl,callsOf_append,htexts]
      rcases hcall with ⟨rfl,hdead⟩ | ⟨cc,rfl,hcc⟩
      · exact ⟨done,[msg],rfl,le_rfl,fun hbev => by simp [hdead] at hbev,by simpa [callsOf] using hall⟩
      · refine ⟨done ++ [msg],[],(List.append_nil _).symm,by simp,fun _ => rfl,?_⟩
        have hof : callsOf v (some cc).toList = [cc] := by simp [callsOf,hcc.userConnection]
        rw [hof]
        exact List.rel_append hall (.cons hcc .nil)

theorem Inv.accept (h : Inv sha1 lib s) (ix : Fin n) (wscon : Bool) : Inv sha1 lib (listencb s ix wscon) where
  serves v user hv := by
    rcases getElem?_concat_cases hv with hv | ⟨rfl,rfl⟩
    · exact h.serves v user hv
    · obtain ⟨htexts,hcalls⟩ := h.fresh s.users.length le_rfl
      have hinit : (WebSocketConnection.system sha1 callbacks).ReachableBy Handed acceptWebsocketRequest :=
        .init rfl
      simp only [listencb,htexts,hcalls]
      refine ⟨?_,?_,[],[],rfl,Nat.zero_le 1,fun _ => rfl,.nil⟩
      · cases wscon with
        | true => exact hinit
        | false => exact hinit.step (e:=.disconnect) trivial rfl
      · cases wscon <;> rfl
  fresh v hv := by
    simp only [listencb,List.length_append,List.length_singleton] at hv
    exact h.fresh v (by omega)
  owned := by
    have haccept := h.owned.listencb wscon
    cases wscon <;> simpa [registry,listencb,ServerWs.listencb,User.connection,acceptWebsocketRequest,
      Action.run] using haccept
  fault := h.fault

theorem Inv.peerClose (h : Inv sha1 lib s) (hrun : s.ended = false) (hs : s.onConn sha1 v .close = some t) :
    Inv sha1 lib { t with pendingList := t.pendingList.filter (· ≠ v) } := by
  obtain ⟨user,hv,hs⟩ := Option.bind_eq_some_iff.mp hs
  obtain ⟨c,hc,rfl⟩ := Option.map_eq_some_iff.mp hs
  have hserves := h.serves v user hv
  obtain ⟨hmsgs,hbev⟩ := step_keeps (fun he => by cases he) hc
  have hstep := WebSocketConnection.system_step.mpr ⟨s.conn_live hrun hv,hc⟩
  have hgoes := hserves.go (hserves.conn.step (e:=.close) trivial hstep) hmsgs hbev
  refine ⟨fun w user' hw => ?_,fun w hw => h.fresh w (by simpa using hw),?_,h.fault⟩
  · rcases getElem?_set_cases hw with ⟨rfl,rfl⟩ | ⟨-,hw⟩
    · exact hgoes
    · exact h.serves w user' hw
  · simp only [WebSocketConnection.step] at hc
    split at hc
    · rename_i hlive
      obtain rfl := Option.some.inj hc
      have hu := registry_getElem? hv s.pendingList
      have hconn : user.connection = .live := by simp [User.connection,hlive]
      have hclosed := h.owned.onUserDisconnect (hconn ▸ hu)
      rw [registry_set]
      simpa [ServerWs.onUserDisconnect,registry,User.connection,WebSocketConnection.wsServeExit] using hclosed
    · cases hc

theorem Inv.step (hj : Jsoncpp lib) (h : Inv sha1 lib s) (hlive : s.ended = false) {e : Event n J K}
    (hs : step sha1 lib s e = some t) : Inv sha1 lib t := by
  cases e with
  | accept ix wscon => exact Option.some.inj hs ▸ h.accept ix wscon
  | arrive v bytes =>
    exact h.onConn hlive (e:=.arrive bytes) (fun he => by cases he) (fun he => by cases he)
      (.inr fun _ => trivial) hs
  | read v rh => exact h.read hj hlive hs
  | flush v k =>
    exact h.onConn hlive (e:=.flush k) (fun he => by cases he) (fun he => by cases he)
      (.inr fun _ => trivial) hs
  | act v a =>
    simp only [ServerWsMessages.step] at hs
    split at hs
    · cases hs
    · rename_i hne
      exact h.onConn hlive (by cases a <;> exact fun he => by cases he)
        (by cases a <;> exact fun he => by cases he) (.inl hne) hs
  | peerClose v =>
    obtain ⟨u,hu,rfl⟩ := Option.map_eq_some_iff.mp hs
    exact h.peerClose hlive hu

theorem inv_reachable (hj : Jsoncpp lib) (h : (system sha1 lib).Reachable s) : Inv sha1 lib s := by
  refine h.invariant ?_ fun s e t hinv _ hs => ?_
  case refine_2 =>
    obtain ⟨hlive,hs⟩ := system_step.mp hs
    exact hinv.step hj hlive hs
  rintro s ⟨husers,hpending,htexts,hcalls,hfault⟩
  refine ⟨fun v user hv => ?_,fun v _ => ?_,?_,hfault⟩
  · simp [husers] at hv
  · simp [htexts,hcalls,textsOf,callsOf]
  · rw [husers,hpending]
    exact ServerWs.owned_initial

theorem Inv.mem_pendingList_iff (h : Inv sha1 lib s) (hv : s.users[v]? = some user) :
    v ∈ s.pendingList ↔ user.conn.closes = 0 := by
  have hmem := h.owned.mem_iff v
  rw [registry_getElem? hv] at hmem
  refine hmem.trans ?_
  have hlive := closes_eq_zero (h.serves v user hv).conn
  simp only [Option.some.injEq,exists_eq_left',User.connection]
  split
  · rename_i hbev
    simp [hlive hbev]
  · split <;> simp_all

theorem dispatch_user (lib : Library J K) (s : State n J K) (user : User n) (rh : Handler J K)
    (c : WebSocketConnection.State) (msg : Option (List UInt8)) :
    ∃ c', (dispatch lib s rh v user c msg).users = s.users.set v ⟨user.ix,c'⟩ ∧ c'.input = c.input ∧
      c'.received = c.received ∧ c'.ended = c.ended := by
  cases msg with
  | none => exact ⟨c,rfl,rfl,rfl,rfl⟩
  | some msg =>
    obtain ⟨actions,hactions⟩ := onFrameRecv_actions lib rh v user.ix (s.workers user.ix) c msg
    have hkeeps := foldl_run_keeps actions c
    rw [← hactions] at hkeeps
    exact ⟨_,rfl,hkeeps.2.2.2.1,hkeeps.2.2.2.2.1,hkeeps.2.2.2.2.2⟩

theorem ended_of_set (hlive : s.ended = false) (hc : c.ended = false)
    (hset : t.users = s.users.set v ⟨user.ix,c⟩) : t.ended = false := by
  simp only [State.ended,List.any_eq_false,Bool.not_eq_true] at hlive ⊢
  intro user' hmem
  rw [hset] at hmem
  rcases List.mem_or_eq_of_mem_set hmem with hmem | rfl
  · exact hlive user' hmem
  · exact hc

theorem quiescent_of_ended (h : c.ended = true) : Quiescent sha1 callbacks c := by
  simp [Quiescent,WebSocketConnection.system,h]

/-- While the process lives, user `v` comes to rest by its own reads and writes, whatever the
handler. -/
theorem user_rests (hj : Jsoncpp lib) (rh : Handler J K) (s : State n J K) (hinv : Inv sha1 lib s)
    (hlive : s.ended = false) {user : User n} (hv : s.users[v]? = some user) :
    ∃ es t user', (∀ e ∈ es, e = .read v rh ∨ ∃ k, e = .flush v k) ∧
      (system sha1 lib).exec s es = some t ∧ t.users[v]? = some user' ∧
      user'.conn.received = user.conn.received ∧ Quiescent sha1 callbacks user'.conn := by
  have hconn := WebSocketConnection.inv_of_reachable (hinv.serves v user hv).conn
  have huser := s.conn_live hlive hv
  have hpos := hconn.ntoread_pos huser
  have hlt := (List.getElem?_eq_some_iff.mp hv).1
  cases hread : WebSocketConnection.step sha1 callbacks user.conn .read with
  | some c =>
    obtain ⟨hn,hinput,-,hrec,hended⟩ := WebSocketConnection.read_keeps hread
    obtain ⟨c',hset,hinput',hrec',hended'⟩ := dispatch_user lib s user rh c (received user.conn c)
    have hstep : step sha1 lib s (.read v rh) = some (dispatch lib s rh v user c (received user.conn c)) := by
      simp only [step,stepRead,hv,hread,Option.bind_some,Option.map_some]
    have hdec : c'.input.length < user.conn.input.length := by
      rw [hinput',hinput,List.length_drop]
      omega
    have hlive' := ended_of_set hlive (hended'.trans (hended.trans huser)) hset
    obtain ⟨es,t,user',hes,ht,hv',hrec'',hrest⟩ := user_rests hj rh _ (hinv.step hj hlive hstep) hlive'
      (hset ▸ List.getElem?_set_self hlt)
    refine ⟨.read v rh::es,t,user',?_,
      Option.bind_eq_some_iff.mpr ⟨_,system_step.mpr ⟨hlive,hstep⟩,ht⟩,hv',hrec''.trans (hrec'.trans hrec),
      hrest⟩
    simpa using hes
  | none =>
    by_cases hflush : ∃ k c, WebSocketConnection.step sha1 callbacks user.conn (.flush k) = some c
    · obtain ⟨k,c,hflush⟩ := hflush
      obtain ⟨hn,hle,hout,hinput,-,hrec⟩ := WebSocketConnection.flush_keeps hflush
      have hstep : step sha1 lib s (.flush v k) = some { s with users := s.users.set v ⟨user.ix,c⟩ } := by
        simp only [step,State.onConn,hv,hflush,Option.bind_some,Option.map_some]
      have hsys := system_step.mpr ⟨hlive,hstep⟩
      have hdec : c.input.length = user.conn.input.length ∧ c.output.length < user.conn.output.length := by
        rw [hinput,hout,List.length_drop]
        omega
      cases hended : c.ended with
      | true =>
        refine ⟨[.flush v k],_,⟨user.ix,c⟩,by simp,Option.bind_eq_some_iff.mpr ⟨_,hsys,rfl⟩,
          List.getElem?_set_self hlt,hrec,quiescent_of_ended hended⟩
      | false =>
        obtain ⟨es,t,user',hes,ht,hv',hrec',hrest⟩ := user_rests hj rh _ (hinv.step hj hlive hstep)
          (ended_of_set hlive hended rfl) (List.getElem?_set_self hlt)
        refine ⟨.flush v k::es,t,user',?_,Option.bind_eq_some_iff.mpr ⟨_,hsys,ht⟩,hv',hrec'.trans hrec,hrest⟩
        simpa using hes
    · refine ⟨[],s,user,by simp,rfl,hv,rfl,?_,fun k => ?_⟩
      · simp [WebSocketConnection.system,hread]
      · cases hk : WebSocketConnection.step sha1 callbacks user.conn (.flush k) with
        | none => simp [WebSocketConnection.system,hk]
        | some c => exact absurd ⟨k,c,hk⟩ hflush
termination_by (user.conn.input.length,user.conn.output.length)
decreasing_by
  · rw [hdec.1]
    exact Prod.Lex.right _ hdec.2
  · exact Prod.Lex.left _ _ hdec

/-- In every run of the server, whatever the handlers do: the lookup of a user never fails, the list
holds exactly the users whose peer has not closed, and each user is served on its own. A live user
at rest whose client sent a request and frames got the handshake, and its messages were handed to
the handler of its worker, each once, in order and untouched by other users, unless its request was
too long for the log: it has ended the process. While no request has, every user can be brought to
rest by its own reads and writes. -/
theorem messages_handled (hj : Jsoncpp lib) (h : (system sha1 lib).Reachable s) :
    s.fault = false ∧ s.pendingList.Nodup ∧ ∀ v user, s.users[v]? = some user →
      (v ∈ s.pendingList ↔ user.conn.closes = 0) ∧
      Serves sha1 lib v user (textsOf v s.texts) (callsOf v s.calls) ∧
      (∀ (o : Opening) (fs : List Frame), user.conn.bev = true →
        user.conn.received = o.request.text ++ fs.flatMap Frame.bytes →
        Quiescent sha1 callbacks user.conn →
        if logFits o.request.text then Served sha1 o fs user.conn ∧
          List.Forall₂ (Handled lib v user.ix) (messages fs) (callsOf v s.calls)
        else user.conn.ended = true) ∧
      (s.ended = false → ∀ rh : Handler J K, ∃ es t user',
        (∀ e ∈ es, e = .read v rh ∨ ∃ k, e = .flush v k) ∧
        (system sha1 lib).exec s es = some t ∧ t.users[v]? = some user' ∧
        user'.conn.received = user.conn.received ∧ Quiescent sha1 callbacks user'.conn) := by
  have hinv := inv_reachable hj h
  refine ⟨hinv.fault,hinv.owned.nodup,fun v user hv => ?_⟩
  have hserves := hinv.serves v user hv
  refine ⟨hinv.mem_pendingList_iff hv,hserves,fun o fs hbev hrec hrest => ?_,
    fun hlive rh => user_rests hj rh s hinv hlive hv⟩
  have hatRest := (WebSocketConnection.inv_of_reachable hserves.conn).atRest o fs hbev hrec hrest
  split
  case isFalse =>
    rename_i hlong
    exact hatRest.ended (Bool.eq_false_of_not_eq_true hlong)
  rename_i hfits
  have hserved := hatRest.served hfits
  refine ⟨hserved,?_⟩
  obtain ⟨done,rest,htexts,-,hnone,hall⟩ := hserves.handled
  have hmsgs : messagesOf user.conn = messages fs := by
    rw [messagesOf,hserved.effects,delivered_messages,continued_nil]
    rfl
  rw [hnone hbev,List.append_nil,hserves.parsed,hmsgs] at htexts
  rwa [htexts]

/-- Every message is answered with an empty frame. -/
def answering : Handler JsonWriter.Value (HttpServer.Stack 4096 8192) := fun cc =>
  (.returns true,cc.toCallContext,[.send [0x81,0]])

def oneWorker : State 1 JsonWriter.Value (HttpServer.Stack 4096 8192) where
  workers _ := ⟨.nullValue,.nullValue,[],HttpServer.freshWorker.stack⟩
  users := []
  pendingList := []
  texts := []
  calls := []
  fault := false

/-- Two users of one worker: the frame of the second comes between the fragments of the first, and
the last message of the first is no JSON. -/
theorem messages_handled_two :
    let request := bytesOf "G\r\n\r\n"
    let run := (system WebSocketConnection.sampleDigest HttpServer.valueLibrary).exec oneWorker
      ([.accept 0 true,.accept 0 true,.arrive 0 (request ++ [0x01,0x81,0,0,0,0,91]),.arrive 1 request] ++
        List.replicate 5 (.read 0 answering) ++ List.replicate 5 (.read 1 answering) ++
        [.flush 0 167,.flush 1 167] ++ List.replicate 3 (.read 0 answering) ++
        [.arrive 1 [0x81,0x82,0,0,0,0,91,93]] ++ List.replicate 3 (.read 1 answering) ++
        [.arrive 0 [0x80,0x81,0,0,0,0,93,0x81,0x80,0,0,0,0]] ++ List.replicate 5 (.read 0 answering))
    run.map (fun s => (s.texts,s.calls.map (·.userConnection),s.users.map (·.conn.bev))) =
      some ([(1,[91,93]),(0,[91,93]),(0,[])],[1,0],[false,true]) ∧
    ∀ s, run = some s → ∀ v user, s.users[v]? = some user →
      Serves WebSocketConnection.sampleDigest HttpServer.valueLibrary v user (textsOf v s.texts)
        (callsOf v s.calls) := by
  intro request run
  refine ⟨by decide +kernel,fun s hs v user hv => ?_⟩
  have hreach : (system WebSocketConnection.sampleDigest HttpServer.valueLibrary).Reachable s :=
    .exec (fun _ _ _ => trivial) (.init ⟨rfl,rfl,rfl,rfl,rfl⟩) hs
  obtain ⟨-,-,husers⟩ := messages_handled HttpServer.valueJsoncpp hreach
  exact (husers v user hv).2.1

end ServerWsMessages
end SdkCp
