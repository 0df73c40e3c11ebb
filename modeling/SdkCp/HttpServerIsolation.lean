import SdkCp.HttpServer
import SdkCp.JsonWriter

/-! Two histories of one worker, and the same request after each. The parser replaces
the request, the direct data and the stack are emptied and every buffer is written before
it is read; what is left of an earlier request is the JSON type of the response, which
`Json::Value::clear` keeps. minilzo clears its work memory itself before it compresses. -/
namespace SdkCp
namespace HttpServer

/-- `stack_allocator` over the memory from `memPtr` to `endPtr`. What that memory holds is
not part of the value: `allocate` gives it out uninitialised. -/
structure Stack (memPtr endPtr : ℕ) where
  curPtr : ℕ
  mem_le : memPtr ≤ curPtr
  le_end : curPtr ≤ endPtr

def Stack.clear {memPtr endPtr : ℕ} (s : Stack memPtr endPtr) : Stack memPtr endPtr :=
  ⟨memPtr,le_rfl,s.mem_le.trans s.le_end⟩

/-- The types of `Json::Value` that `clear` tells apart. -/
inductive Kind
  | null | array | object | scalar
  deriving DecidableEq

variable {J K : Type*}

/-- What the worker relies on in jsoncpp: the verdict of a parse does not depend on the old
root value and a successful one replaces it; `clear` raises on a scalar, and otherwise
empties the value and keeps its type. -/
structure Jsoncpp (lib : Library J K) where
  kind : J → Kind
  parse_verdict : ∀ data root root', (lib.parse data root).1 = (lib.parse data root').1
  parse_replaces : ∀ data root root', (lib.parse data root).1 = .parsed →
    (lib.parse data root).2 = (lib.parse data root').2
  clear_raises : ∀ v, lib.clear v = none ↔ kind v = .scalar
  clear_keeps : ∀ v w, lib.clear v = some w → kind w = kind v
  clear_empties : ∀ v v', kind v = kind v' → lib.clear v = lib.clear v'

/-- What goes out for a request: a reply, an error, or nothing yet when it is held. -/
def Effect.sent? : Effect J K → Option (Effect J K)
  | .own handle => some (.own handle)
  | .reply handle code reason headers body => some (.reply handle code reason headers body)
  | .error handle code reason headers => some (.error handle code reason headers)
  | _ => none

def sent (es : List (Effect J K)) : List (Effect J K) := es.filterMap Effect.sent?

@[simp] theorem sent_parse (data : List UInt8) (es : List (Effect J K)) :
    sent (.parse data::es) = sent es := rfl

@[simp] theorem sent_call (cc : CallContext J K) (es : List (Effect J K)) :
    sent (.call cc::es) = sent es := rfl

@[simp] theorem sent_error (handle code : ℕ) (reason : String) (headers : List (String × String))
    (es : List (Effect J K)) :
    sent (.error handle code reason headers::es) = .error handle code reason headers::sent es := rfl

variable (lib : Library J K) (compression : Bool) (ix : ℕ)

/-- A worker after a history of requests, each with what the handler does on it. -/
def after (wc : WorkerContext J K) : List (Request × Handler J K) → WorkerContext J K
  | [] => wc
  | (req,rh)::history => after (processRequest lib compression rh ix wc req).1 history

/-- The request gets to the handler, unless clearing the response raises. -/
def ReachesHandler (req : Request) : Prop :=
  req.type ≠ .options ∧ req.body ≠ [] ∧ scanHeaders req.inputHeaders = .plain ∧
    ∀ root, (lib.parse req.body root).1 = .parsed

variable {lib compression ix} {wc wc' : WorkerContext J K}

theorem sendData_congr (wc wc' : WorkerContext J K) (handle : ℕ) (inData : List UInt8) :
    (sendData lib compression wc handle inData).2 = (sendData lib compression wc' handle inData).2 := by
  have h : (compressResponse lib compression wc inData).2 =
      (compressResponse lib compression wc' inData).2 := by
    unfold compressResponse
    cases compression with
    | false => rfl
    | true =>
      simp only [if_true]
      split <;> rfl
  revert h
  unfold sendData
  rcases compressResponse lib compression wc inData with ⟨w,headers,out⟩
  rcases compressResponse lib compression wc' inData with ⟨w',headers',out'⟩
  rintro ⟨⟩
  rcases out with _ | _ | ⟨b,bs⟩ <;> rfl

theorem respond_congr (hdirect : wc.directData = wc'.directData)
    (hresponse : wc.response = wc'.response) (handle : ℕ) :
    (respond lib compression wc handle).2 = (respond lib compression wc' handle).2 := by
  unfold respond
  rw [hdirect,hresponse]
  split
  · exact sendData_congr _ _ _ _
  · split
    · exact sendData_congr _ _ _ _
    · rfl

/-- From the parser on, the same answer for the same root, cleared response and stack. -/
theorem processData_congr {rh : Handler J K} {req : Request} {data : List UInt8}
    (hverdict : (lib.parse data wc.request).1 = (lib.parse data wc'.request).1)
    (hroot : (lib.parse data wc.request).1 = .parsed →
      (lib.parse data wc.request).2 = (lib.parse data wc'.request).2)
    (hclear : (lib.parse data wc.request).1 = .parsed → lib.clear wc.response = lib.clear wc'.response)
    (hstack : lib.clearStack wc.stack = lib.clearStack wc'.stack) :
    sent (processData lib compression rh ix wc req data).2 =
      sent (processData lib compression rh ix wc' req data).2 := by
  unfold processData
  rcases hp : lib.parse data wc.request with ⟨result,root⟩
  rcases hp' : lib.parse data wc'.request with ⟨result',root'⟩
  rw [hp,hp'] at hverdict hroot
  rw [hp] at hclear
  obtain rfl : result = result' := hverdict
  cases result with
  | refused => rfl
  | raised => rfl
  | parsed =>
    obtain rfl : root = root' := hroot rfl
    dsimp only
    rw [hclear rfl,hstack]
    cases lib.clear wc'.response with
    | none => rfl
    | some response =>
      dsimp only
      generalize rh _ = r
      rcases r with ⟨b | _,cc'⟩
      · cases b with
        | false => rfl
        | true =>
          dsimp only
          split
          · rfl
          · simp only [sent_parse,sent_call]
            refine congrArg (fun r : Effect J K × Bool => sent [r.1]) ?_
            apply respond_congr <;> rfl
      · rfl

/-- A request that reaches the handler is not looked at before the parser. -/
theorem processRequest_reaches {req : Request} (hr : ReachesHandler lib req) (rh : Handler J K) :
    processRequest lib compression rh ix wc req =
      processData lib compression rh ix { wc with requestData := req.body } req req.body := by
  obtain ⟨htype,hbody,hscan,-⟩ := hr
  rw [processRequest,if_neg htype,if_neg hbody,hscan]

/-- Where the request does not reach the handler the worker is not looked at. -/
theorem processRequest_congr_of_not_reaches (hj : Jsoncpp lib) {req : Request}
    (hr : ¬ReachesHandler lib req) (rh : Handler J K) :
    sent (processRequest lib compression rh ix wc req).2 =
      sent (processRequest lib compression rh ix wc' req).2 := by
  unfold processRequest
  split
  · rfl
  rename_i htype
  split
  · rfl
  rename_i hbody
  split
  · rfl
  · rename_i hscan
    have hno : (lib.parse req.body wc.request).1 ≠ .parsed := fun hp =>
      hr ⟨htype,hbody,hscan,fun root => (hj.parse_verdict _ _ _).trans hp⟩
    have hverdict := hj.parse_verdict req.body wc.request wc'.request
    unfold processData
    rcases hp : lib.parse req.body wc.request with ⟨result,root⟩
    rcases hp' : lib.parse req.body wc'.request with ⟨result',root'⟩
    rw [hp,hp'] at hverdict
    rw [hp] at hno
    obtain rfl : result = result' := hverdict
    cases result with
    | refused => rfl
    | raised => rfl
    | parsed => exact absurd rfl hno
  · dsimp only
    split
    · rfl
    · split
      · rfl
      · rename_i hoverrun hok
        exact absurd (not_not.mp hoverrun ▸ not_not.mp hok) (by decide)

theorem processRequest_raised {req : Request} (hr : ReachesHandler lib req)
    (hclear : lib.clear wc.response = none) (rh : Handler J K) :
    sent (processRequest lib compression rh ix wc req).2 =
      [.error req.handle HTTP_INTERNAL "Internal error." []] := by
  have hparsed := hr.2.2.2 wc.request
  rw [processRequest_reaches hr,processData]
  rcases hp : lib.parse req.body wc.request with ⟨result,root⟩
  rw [hp] at hparsed
  obtain rfl : result = .parsed := hparsed
  simp only [hclear]
  rfl

/-- A handler that asks for the type of the response it is given. -/
def probe (hj : Jsoncpp lib) (kind : Kind) : Handler J K := fun cc =>
  if hj.kind cc.response = kind then (.returns false,cc) else (.raises,cc)

/-- What is sent then tells whether the response left before had that type. -/
theorem processRequest_probe (hj : Jsoncpp lib) {req : Request} (hr : ReachesHandler lib req)
    {kind : Kind} (hkind : kind ≠ .scalar) :
    sent (processRequest lib compression (probe hj kind) ix wc req).2 =
      if hj.kind wc.response = kind then
        [.error req.handle HTTP_BADMETHOD "No request handler for current method." []]
      else [.error req.handle HTTP_INTERNAL "Internal error." []] := by
  have hparsed := hr.2.2.2 wc.request
  rcases hclear : lib.clear wc.response with _ | response
  · have hscalar := (hj.clear_raises _).mp hclear
    rw [processRequest_raised hr hclear,if_neg (by rw [hscalar]; exact hkind.symm)]
  rw [← hj.clear_keeps _ _ hclear,processRequest_reaches hr,processData]
  rcases hp : lib.parse req.body wc.request with ⟨result,root⟩
  rw [hp] at hparsed
  obtain rfl : result = .parsed := hparsed
  simp only [hclear,probe]
  by_cases hk : hj.kind response = kind
  · simp only [if_pos hk]
    rfl
  · simp only [if_neg hk]
    rfl

variable {memPtr endPtr : ℕ} {lib : Library J (Stack memPtr endPtr)}

/-- Two histories of a worker and a request after each: whatever the handler does on it, the
same is sent, exactly if the request does not get to the handler or both histories leave a
response of the same JSON type. -/
theorem isolated_iff (hj : Jsoncpp lib) (hstack : ∀ k, lib.clearStack k = k.clear)
    (compression : Bool) (ix : ℕ) (fresh : WorkerContext J (Stack memPtr endPtr))
    (h₁ h₂ : List (Request × Handler J (Stack memPtr endPtr))) (req : Request) :
    (∀ rh, sent (processRequest lib compression rh ix (after lib compression ix fresh h₁) req).2 =
      sent (processRequest lib compression rh ix (after lib compression ix fresh h₂) req).2) ↔
    (ReachesHandler lib req → hj.kind (after lib compression ix fresh h₁).response =
      hj.kind (after lib compression ix fresh h₂).response) := by
  generalize after lib compression ix fresh h₁ = wc₁
  generalize after lib compression ix fresh h₂ = wc₂
  constructor
  · intro hsame hr
    by_contra hkind
    have hprobe : ∀ {wc wc' : WorkerContext J (Stack memPtr endPtr)},
        hj.kind wc.response ≠ hj.kind wc'.response → hj.kind wc.response ≠ .scalar →
        sent (processRequest lib compression (probe hj (hj.kind wc.response)) ix wc req).2 ≠
          sent (processRequest lib compression (probe hj (hj.kind wc.response)) ix wc' req).2 := by
      intro wc wc' hne hs
      rw [processRequest_probe hj hr hs,processRequest_probe hj hr hs,if_pos rfl,if_neg hne.symm]
      simp
    by_cases hs : hj.kind wc₁.response = .scalar
    · exact hprobe (fun h => hkind h.symm) (fun h => hkind (hs.trans h.symm)) (hsame _).symm
    · exact hprobe hkind hs (hsame _)
  · intro hkind rh
    by_cases hr : ReachesHandler lib req
    · rw [processRequest_reaches hr,processRequest_reaches hr]
      exact processData_congr (hj.parse_verdict _ _ _) (hj.parse_replaces _ _ _)
        (fun _ => hj.clear_empties _ _ (hkind hr)) (by rw [hstack,hstack]; rfl)
    · exact processRequest_congr_of_not_reaches hj hr rh

open JsonWriter

/-- The kind of a `Json::Value`. -/
def valueKind : Value → Kind
  | .nullValue => .null
  | .arrayValue _ => .array
  | .objectValue _ => .object
  | _ => .scalar

/-- `Json::Value::clear`. -/
def clearValue : Value → Option Value
  | .nullValue => some .nullValue
  | .arrayValue _ => some (.arrayValue [])
  | .objectValue _ => some (.objectValue [])
  | _ => none

/-- `Json::Value::empty`. -/
def emptyValue : Value → Bool
  | .nullValue => true
  | .arrayValue vs => vs.isEmpty
  | .objectValue members => members.isEmpty
  | _ => false

/-- `value[name] = w`. -/
def setMember (name : List UInt8) (w : Value) : Value → Option Value
  | .nullValue => some (.objectValue [(name,w)])
  | .objectValue members => some (.objectValue (members.filter (fun m => m.1 != name) ++ [(name,w)]))
  | _ => none

/-- `value.append(w)`. -/
def append (w : Value) : Value → Option Value
  | .nullValue => some (.arrayValue [w])
  | .arrayValue vs => some (.arrayValue (vs ++ [w]))
  | _ => none

/-- jsoncpp on the texts of an empty object and an empty array, with the JSON writer. -/
def valueLibrary : Library Value (Stack 4096 8192) where
  parse data root :=
    if data = ascii "\x7b\x7d" then (.parsed,.objectValue [])
    else if data = ascii "[]" then (.parsed,.arrayValue [])
    else (.refused,root)
  clear := clearValue
  empty := emptyValue
  write root := write true root []
  compress d := (LZO_E_OK,d)
  decompress d _ := (LZO_E_OK,d)
  clearStack := Stack.clear

def valueJsoncpp : Jsoncpp valueLibrary where
  kind := valueKind
  parse_verdict data root root' := by
    simp only [valueLibrary]
    split
    · rfl
    · split <;> rfl
  parse_replaces data root root' := by
    simp only [valueLibrary]
    split
    · exact fun _ => rfl
    · split
      · exact fun _ => rfl
      · exact fun h => by cases h
  clear_raises v := by cases v <;> simp [valueLibrary,clearValue,valueKind]
  clear_keeps v w h := by
    cases v <;> simp only [valueLibrary,clearValue,Option.some.injEq,reduceCtorEq] at h
    all_goals exact h ▸ rfl
  clear_empties v v' h := by
    cases v <;> cases v' <;> first | rfl | exact absurd h (by simp [valueKind])

/-- It appends to the response of an array and sets a member of the response of anything else. -/
def mixed : Handler Value (Stack 4096 8192) := fun cc =>
  let response := match cc.request with
    | .arrayValue _ => append (.booleanValue true) cc.response
    | _ => setMember (ascii "ok") (.booleanValue true) cc.response
  match response with
  | none => (.raises,cc)
  | some response => (.returns true,{ cc with response := response })

def freshWorker : WorkerContext Value (Stack 4096 8192) where
  stack := ⟨4096,by decide,by decide⟩
  requestData := []
  uncompressedData := []
  responseStr := []
  request := .nullValue
  response := .nullValue
  directData := []
  uploaders := []

def post (handle : ℕ) (body : List UInt8) : Request := ⟨handle,.post,[],body⟩

/-- One or two objects before: the next request is answered alike. -/
theorem isolated_iff_objects :
    sent (processRequest valueLibrary false mixed 0
      (after valueLibrary false 0 freshWorker [(post 1 (ascii "\x7b\x7d"),mixed)]) (post 3 (ascii "[]"))).2 =
    sent (processRequest valueLibrary false mixed 0
      (after valueLibrary false 0 freshWorker
        [(post 1 (ascii "\x7b\x7d"),mixed),(post 2 (ascii "\x7b\x7d"),mixed)]) (post 3 (ascii "[]"))).2 :=
  (isolated_iff valueJsoncpp (fun _ => rfl) false 0 freshWorker _ _ _).mpr (fun _ => rfl) mixed

/-- One handler, no history against one array: the object request succeeds on the fresh
worker and fails on the other. -/
theorem not_isolated_mixed :
    ¬∀ (rh : Handler Value (Stack 4096 8192)) (l₁ l₂ : List Request) (req : Request),
      sent (processRequest valueLibrary false rh 0
        (after valueLibrary false 0 freshWorker (l₁.map fun r => (r,rh))) req).2 =
      sent (processRequest valueLibrary false rh 0
        (after valueLibrary false 0 freshWorker (l₂.map fun r => (r,rh))) req).2 := by
  intro h
  have hsame := h mixed [] [post 1 (ascii "[]")] (post 2 (ascii "\x7b\x7d"))
  have hfresh : sent (processRequest valueLibrary false mixed 0
      (after valueLibrary false 0 freshWorker []) (post 2 (ascii "\x7b\x7d"))).2 =
      [.reply 2 HTTP_OK "OK" responseHeaders (some (ascii "\x7b\"ok\":true\x7d\n"))] := rfl
  have hused : sent (processRequest valueLibrary false mixed 0
      (after valueLibrary false 0 freshWorker [(post 1 (ascii "[]"),mixed)])
      (post 2 (ascii "\x7b\x7d"))).2 = [.error 2 HTTP_INTERNAL "Internal error." []] := rfl
  rw [List.map_nil,List.map_singleton,hfresh,hused] at hsame
  simp at hsame

end HttpServer
end SdkCp
