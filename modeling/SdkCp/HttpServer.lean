import SdkCp.TransitionSystem
import Mathlib.Tactic

/-! One worker of web_server/server_win.hpp: `_process_request`, `_compress_response`,
`_event_handler` and `register_uploader` over its `_worker_context`. jsoncpp, the JSON
writer, minilzo and the stack allocator are parameters; what libevent is asked to do is
recorded as effects. -/
namespace SdkCp
namespace HttpServer

/-- `evhttp_cmd_type`. -/
inductive CmdType
  | get | post | head | put | delete | options | trace | connect | patch
  deriving DecidableEq

/-- `evhttp_request`, identified by its pointer. -/
structure Request where
  handle : ℕ
  type : CmdType
  inputHeaders : List (String × String)
  body : List UInt8

/-- `Json::Reader::parse` accepts, refuses, or raises on too deep a text. -/
inductive ParseResult
  | parsed | refused | raised

/-- The code a worker calls. `parse` also says what it leaves in the root value it is
given, `clear` is `none` where `Json::Value::clear` raises, and the two compressors return
their result code and what they wrote. -/
structure Library (J K : Type*) where
  parse : List UInt8 → J → ParseResult × J
  clear : J → Option J
  empty : J → Bool
  write : J → List UInt8
  compress : List UInt8 → ℤ × List UInt8
  decompress : List UInt8 → ℕ → ℤ × List UInt8
  clearStack : K → K

/-- `server_call_context`; the references into the worker are their values here. -/
structure CallContext (J K : Type*) where
  handle : ℕ
  request : J
  response : J
  directData : List UInt8
  requestHandlerIx : ℕ
  hold : Bool
  stack : K

/-- How a handler or an uploader ends. -/
inductive Outcome
  | returns (b : Bool)
  | raises

/-- `on_request`, and the function of an uploader: both change the context they get. -/
abbrev Handler (J K : Type*) := CallContext J K → Outcome × CallContext J K

/-- `uploader_context`, with the number of its registration. -/
structure UploaderContext (J K : Type*) where
  f : Handler J K
  h : ℕ
  ix : ℕ

structure WorkerContext (J K : Type*) where
  stack : K
  requestData : List UInt8
  uncompressedData : List UInt8
  responseStr : List UInt8
  request : J
  response : J
  directData : List UInt8
  uploaders : List (UploaderContext J K)

/-- What a worker does: bytes given to the JSON parser, calls of the handler and runs of
uploaders with the contexts they get, `evhttp_request_own`, `evhttp_send_reply` and `evhttp_send_error`, the last two
with the output headers added for them. -/
inductive Effect (J K : Type*)
  | parse (data : List UInt8)
  | call (cc : CallContext J K)
  | run (ix : ℕ) (cc : CallContext J K)
  | own (handle : ℕ)
  | reply (handle code : ℕ) (reason : String) (headers : List (String × String))
      (body : Option (List UInt8))
  | error (handle code : ℕ) (reason : String) (headers : List (String × String))

abbrev HTTP_OK : ℕ := 200
abbrev HTTP_NOCONTENT : ℕ := 204
abbrev HTTP_BADREQUEST : ℕ := 400
abbrev HTTP_BADMETHOD : ℕ := 405
abbrev HTTP_INTERNAL : ℕ := 500

abbrev LZO_E_OK : ℤ := 0
abbrev LZO_E_INPUT_OVERRUN : ℤ := -4

def kServerName : String := "AMTS_WebAPI"

def optionsHeaders : List (String × String) :=
  [("Server",kServerName),("Access-Control-Allow-Origin","*"),
    ("Access-Control-Allow-Headers","origin, content-type, accept"),
    ("Access-Control-Max-Age","3628800"),("Access-Control-Allow-Methods","PUT,DELETE,GET,POST")]

def responseHeaders : List (String × String) :=
  [("Server",kServerName),("Connection","close"),("Access-Control-Allow-Origin","*"),
    ("Access-Control-Allow-Headers","origin, content-type, accept"),
    ("Content-Type","application/json")]

def resize (l : List UInt8) (n : ℕ) : List UInt8 := l.take n ++ List.replicate (n-l.length) 0

/-- A buffer after its first bytes were written. -/
def overwrite (l out : List UInt8) : List UInt8 := out ++ l.drop out.length

variable {J K : Type*} (lib : Library J K) (compression : Bool)

/-- The references of a call context lead into the worker. -/
def WorkerContext.update (wc : WorkerContext J K) (cc : CallContext J K) : WorkerContext J K :=
  { wc with request := cc.request, response := cc.response, directData := cc.directData
            stack := cc.stack }

/-- `_compress_response`: the headers it adds, and the data unless it returns false. -/
def compressResponse (wc : WorkerContext J K) (inData : List UInt8) :
    WorkerContext J K × List (String × String) × Option (List UInt8) :=
  if compression then
    let buffer := resize wc.requestData (inData.length+inData.length/16+64+3)
    let (result,out) := lib.compress inData
    let wc := { wc with requestData := overwrite buffer out }
    if result ≠ LZO_E_OK then (wc,responseHeaders,none)
    else (wc,responseHeaders ++ [("Accept-Compression","lzo")],some out)
  else (wc,responseHeaders,some inData)

/-- Sending non-empty data; true when it went out with `HTTP_OK`. -/
def sendData (wc : WorkerContext J K) (handle : ℕ) (inData : List UInt8) :
    WorkerContext J K × Effect J K × Bool :=
  match compressResponse lib compression wc inData with
  | (wc,headers,none) => (wc,.error handle HTTP_INTERNAL "Compression failed." headers,false)
  | (wc,headers,some []) => (wc,.reply handle HTTP_NOCONTENT "OK" headers none,false)
  | (wc,headers,some out) => (wc,.reply handle HTTP_OK "OK" headers (some out),true)

/-- What `_process_request` and the loop of `_event_handler` both end with. -/
def respond (wc : WorkerContext J K) (handle : ℕ) : WorkerContext J K × Effect J K × Bool :=
  if wc.directData ≠ [] then sendData lib compression wc handle wc.directData
  else if lib.empty wc.response = false then
    let wc := { wc with responseStr := lib.write wc.response }
    sendData lib compression wc handle wc.responseStr
  else (wc,.reply handle HTTP_NOCONTENT "OK" [] none,false)

/-- From the JSON parser on. -/
def processData (rh : Handler J K) (ix : ℕ) (wc : WorkerContext J K) (req : Request)
    (data : List UInt8) : WorkerContext J K × List (Effect J K) :=
  let (result,root) := lib.parse data wc.request
  let wc := { wc with request := root }
  match result with
  | .refused => (wc,[.parse data,.error req.handle HTTP_BADREQUEST "No json data" []])
  | .raised => (wc,[.parse data,.error req.handle HTTP_INTERNAL "Internal error." []])
  | .parsed =>
    match lib.clear wc.response with
    | none => (wc,[.parse data,.error req.handle HTTP_INTERNAL "Internal error." []])
    | some response =>
      let cc : CallContext J K := {
        handle := req.handle, request := root, response := response, directData := []
        requestHandlerIx := ix, hold := false, stack := lib.clearStack wc.stack }
      let (outcome,cc') := rh cc
      let wc := wc.update cc'
      match outcome with
      | .raises =>
        (wc,[.parse data,.call cc,.error req.handle HTTP_INTERNAL "Internal error." []])
      | .returns false => (wc,[.parse data,.call cc,
          .error req.handle HTTP_BADMETHOD "No request handler for current method." []])
      | .returns true =>
        if cc'.hold then (wc,[.parse data,.call cc,.own req.handle])
        else
          let (wc,effect,_) := respond lib compression wc req.handle
          (wc,[.parse data,.call cc,effect])

/-- `evutil_ascii_strcasecmp(a, b) == 0`. -/
def strcasecmp (a b : String) : Bool := a.toList.map Char.toLower == b.toList.map Char.toLower

/-- What the scan of the input headers finds. -/
inductive Scan
  | plain | lzo | unsupported
  deriving DecidableEq

def scanHeaders : List (String × String) → Scan
  | [] => .plain
  | (key,value)::kvs =>
    if strcasecmp key "Accept-Compression" then
      if strcasecmp value "lzo" then .lzo else .unsupported
    else scanHeaders kvs

/-- The size `uncompressed_data` is given. -/
abbrev uncompressedSize : ℕ := 4*1024*1024

def processRequest (rh : Handler J K) (ix : ℕ) (wc : WorkerContext J K) (req : Request) :
    WorkerContext J K × List (Effect J K) :=
  if req.type = .options then
    (wc,[.reply req.handle HTTP_NOCONTENT "No Content" optionsHeaders none])
  else if req.body = [] then (wc,[.reply req.handle HTTP_NOCONTENT "No Content" [] none])
  else
    match scanHeaders req.inputHeaders with
    | .unsupported =>
      (wc,[.error req.handle HTTP_BADREQUEST "Unsupported compression type." []])
    | .plain => processData lib compression rh ix { wc with requestData := req.body } req req.body
    | .lzo =>
      let (result,out) := lib.decompress req.body uncompressedSize
      let wc := { wc with
        requestData := req.body
        uncompressedData := overwrite (resize wc.uncompressedData uncompressedSize) out }
      if result ≠ LZO_E_INPUT_OVERRUN then
        (wc,[.error req.handle HTTP_BADREQUEST "Big request." []])
      else if result ≠ LZO_E_OK then
        (wc,[.error req.handle HTTP_BADREQUEST "Decompression failed." []])
      else processData lib compression rh ix wc req out

/-- `register_uploader`; the `EV_UPLOAD` it activates is an event of its own. -/
def registerUploader (wc : WorkerContext J K) (u : UploaderContext J K) : WorkerContext J K :=
  { wc with uploaders := wc.uploaders ++ [u] }

/-- How the walk over the uploaders ends. -/
inductive Walk
  | finished | returned | raised
  deriving DecidableEq

/-- The loop of `_event_handler`. One call context serves the whole walk. -/
def runUploaders (wc : WorkerContext J K) (cc : CallContext J K) :
    List (UploaderContext J K) → WorkerContext J K × List (Effect J K) × Walk
  | [] => (wc,[],.finished)
  | u::us =>
    match lib.clear wc.response with
    | none => (wc,[],.raised)
    | some response =>
      let cc := { cc with
        handle := u.h, request := wc.request, response := response, directData := []
        stack := lib.clearStack wc.stack }
      let (outcome,cc') := u.f cc
      let wc := wc.update cc'
      match outcome with
      | .raises => (wc,[.run u.ix cc],.raised)
      | .returns false => (wc,[.run u.ix cc,
          .error u.h HTTP_BADMETHOD "Process request failed. Uploader not prepared." []],.returned)
      | .returns true =>
        match respond lib compression wc u.h with
        | (wc,effect,false) => (wc,[.run u.ix cc,effect],.returned)
        | (wc,effect,true) =>
          let (wc,effects,walk) := runUploaders wc cc' us
          (wc,.run u.ix cc::effect::effects,walk)

/-- `_event_handler` on `EV_UPLOAD`. -/
def eventHandler (ix : ℕ) (wc : WorkerContext J K) :
    WorkerContext J K × List (Effect J K) × Walk :=
  match lib.clear wc.request with
  | none => (wc,[],.raised)
  | some request =>
    let wc := { wc with request := request }
    let cc : CallContext J K := {
      handle := 0, request := request, response := wc.response, directData := wc.directData
      requestHandlerIx := ix, hold := false, stack := wc.stack }
    match runUploaders lib compression wc cc wc.uploaders with
    | (wc,effects,.finished) => ({ wc with uploaders := [] },effects,.finished)
    | (wc,effects,walk) => (wc,effects,walk)

/-- The request an effect answers. -/
def Effect.answered? : Effect J K → Option ℕ
  | .reply handle _ _ _ _ => some handle
  | .error handle _ _ _ => some handle
  | _ => none

/-- The request an effect holds. -/
def Effect.owned? : Effect J K → Option ℕ
  | .own handle => some handle
  | _ => none

/-- The registration whose uploader an effect runs. -/
def Effect.run? : Effect J K → Option ℕ
  | .run ix _ => some ix
  | _ => none

/-- The requests answered, in order. -/
def answered (es : List (Effect J K)) : List ℕ := es.filterMap Effect.answered?

def owned (es : List (Effect J K)) : List ℕ := es.filterMap Effect.owned?

def ran (es : List (Effect J K)) : List ℕ := es.filterMap Effect.run?

@[simp] theorem answered_append (es es' : List (Effect J K)) :
    answered (es ++ es') = answered es ++ answered es' := List.filterMap_append

@[simp] theorem owned_append (es es' : List (Effect J K)) :
    owned (es ++ es') = owned es ++ owned es' := List.filterMap_append

@[simp] theorem ran_append (es es' : List (Effect J K)) :
    ran (es ++ es') = ran es ++ ran es' := List.filterMap_append

theorem answered_run (ix : ℕ) (cc : CallContext J K) (es : List (Effect J K)) :
    answered (.run ix cc::es) = answered es := rfl

theorem owned_run (ix : ℕ) (cc : CallContext J K) (es : List (Effect J K)) :
    owned (.run ix cc::es) = owned es := rfl

theorem ran_run (ix : ℕ) (cc : CallContext J K) (es : List (Effect J K)) :
    ran (.run ix cc::es) = ix::ran es := rfl

theorem answer_cons {handle : ℕ} {e : Effect J K} (h : e.answered? = some handle)
    (es : List (Effect J K)) : answered (e::es) = handle::answered es ∧
      owned (e::es) = owned es ∧ ran (e::es) = ran es := by
  cases e <;> simp only [Effect.answered?,Option.some.injEq,reduceCtorEq] at h
  all_goals
    subst h
    exact ⟨rfl,rfl,rfl⟩

/-- Effects that answer the request once or hold it, not both, and run no uploader. -/
structure Settles (handle : ℕ) (es : List (Effect J K)) : Prop where
  ran : ran es = []
  once : (answered es = [handle] ∧ owned es = []) ∨ (answered es = [] ∧ owned es = [handle])

theorem settles_answer {handle : ℕ} {e : Effect J K} (h : e.answered? = some handle) :
    Settles handle [e] := by
  obtain ⟨hanswered,howned,hran⟩ := answer_cons h []
  exact ⟨hran,.inl ⟨hanswered,howned⟩⟩

theorem settles_own (handle : ℕ) : Settles handle [(.own handle : Effect J K)] :=
  ⟨rfl,.inr ⟨rfl,rfl⟩⟩

theorem Settles.parse {handle : ℕ} {es : List (Effect J K)} (h : Settles handle es)
    (data : List UInt8) : Settles handle (.parse data::es) := ⟨h.ran,h.once⟩

theorem Settles.call {handle : ℕ} {es : List (Effect J K)} (h : Settles handle es)
    (cc : CallContext J K) : Settles handle (.call cc::es) := ⟨h.ran,h.once⟩

variable {lib compression}

@[simp] theorem update_uploaders (wc : WorkerContext J K) (cc : CallContext J K) :
    (wc.update cc).uploaders = wc.uploaders := rfl

theorem compressResponse_uploaders (wc : WorkerContext J K) (inData : List UInt8) :
    (compressResponse lib compression wc inData).1.uploaders = wc.uploaders := by
  unfold compressResponse
  split
  · dsimp only
    split <;> rfl
  · rfl

theorem sendData_spec (wc : WorkerContext J K) (handle : ℕ) (inData : List UInt8) :
    (sendData lib compression wc handle inData).2.1.answered? = some handle ∧
    (sendData lib compression wc handle inData).1.uploaders = wc.uploaders := by
  have h : (compressResponse lib compression wc inData).1.uploaders = _ :=
    compressResponse_uploaders wc inData
  unfold sendData
  split <;> rename_i heq <;> rw [heq] at h <;> exact ⟨rfl,h⟩

theorem respond_spec (wc : WorkerContext J K) (handle : ℕ) :
    (respond lib compression wc handle).2.1.answered? = some handle ∧
    (respond lib compression wc handle).1.uploaders = wc.uploaders := by
  unfold respond
  split
  · exact sendData_spec wc handle _
  · split
    · exact sendData_spec _ handle _
    · exact ⟨rfl,rfl⟩

theorem processData_spec (rh : Handler J K) (ix : ℕ) (wc : WorkerContext J K) (req : Request)
    (data : List UInt8) :
    Settles req.handle (processData lib compression rh ix wc req data).2 ∧
    (processData lib compression rh ix wc req data).1.uploaders = wc.uploaders := by
  unfold processData
  dsimp only
  split
  · exact ⟨(settles_answer rfl).parse _,rfl⟩
  · exact ⟨(settles_answer rfl).parse _,rfl⟩
  · split
    · exact ⟨(settles_answer rfl).parse _,rfl⟩
    · split
      · exact ⟨((settles_answer rfl).call _).parse _,rfl⟩
      · exact ⟨((settles_answer rfl).call _).parse _,rfl⟩
      · split
        · exact ⟨((settles_own _).call _).parse _,rfl⟩
        · exact ⟨((settles_answer (respond_spec _ _).1).call _).parse _,(respond_spec _ _).2⟩

theorem processRequest_spec (rh : Handler J K) (ix : ℕ) (wc : WorkerContext J K) (req : Request) :
    Settles req.handle (processRequest lib compression rh ix wc req).2 ∧
    (processRequest lib compression rh ix wc req).1.uploaders = wc.uploaders := by
  unfold processRequest
  split
  · exact ⟨settles_answer rfl,rfl⟩
  · split
    · exact ⟨settles_answer rfl,rfl⟩
    · split
      · exact ⟨settles_answer rfl,rfl⟩
      · exact processData_spec rh ix _ req _
      · dsimp only
        split
        · exact ⟨settles_answer rfl,rfl⟩
        · split
          · exact ⟨settles_answer rfl,rfl⟩
          · exact processData_spec rh ix _ req _

/-- A worker with what happened so far: the requests received, the request of each
uploader registered, how many of these were there at the last `EV_UPLOAD`, and whether an
exception has ended the worker's loop. -/
structure State (J K : Type*) where
  wc : WorkerContext J K
  effects : List (Effect J K)
  received : List ℕ
  registered : List ℕ
  uploaded : ℕ
  stopped : Bool

/-- A registration during the call of a handler counts as one right after it: it only
appends to the list, which `_process_request` does not use. -/
inductive Event (J K : Type*)
  | request (req : Request) (rh : Handler J K)
  | registerUploader (h : ℕ) (f : Handler J K)
  | upload

variable (lib compression)

def initial (wc : WorkerContext J K) : State J K where
  wc := { wc with uploaders := [] }
  effects := []
  received := []
  registered := []
  uploaded := 0
  stopped := false

def step (ix : ℕ) (s : State J K) : Event J K → Option (State J K)
  | .request req rh =>
    if s.stopped ∨ req.handle ∈ s.received then none
    else
      let (wc,effects) := processRequest lib compression rh ix s.wc req
      some { s with wc := wc, effects := s.effects ++ effects, received := req.handle::s.received }
  | .registerUploader h f =>
    if h ∈ s.received then
      some { s with wc := HttpServer.registerUploader s.wc ⟨f,h,s.registered.length⟩
                    registered := s.registered ++ [h] }
    else none
  | .upload =>
    if s.stopped then none
    else
      let (wc,effects,walk) := eventHandler lib compression ix s.wc
      some { s with
        wc := wc, effects := s.effects ++ effects, uploaded := s.registered.length
        stopped := walk = .raised }

def system (ix : ℕ) : TransitionSystem (State J K) (Event J K) where
  init s := ∃ wc, s = initial wc
  step := step lib compression ix

end HttpServer
end SdkCp
