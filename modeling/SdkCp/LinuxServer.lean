import SdkCp.ExtendedProtocol
import SdkCp.HttpServerIsolation
import SdkCp.JsonWriterRoundTrip

/-! `_process_request` of web_server/server_linux.hpp without the extended protocol format: the body is
the text, and the answer is printed with `%s`. It catches nothing; an exception of jsoncpp or of the
handler is caught by `on_worker`, behind the event loop, and ends the worker. -/
namespace SdkCp

namespace JsonWriter

def Visible (bs : List UInt8) : Prop := ∀ b ∈ bs, 0x20 ≤ b.toNat

instance (bs : List UInt8) : Decidable (Visible bs) := List.decidableBAll _ bs

theorem visible_nil : Visible [] := by simp [Visible]

theorem Visible.append {bs bs' : List UInt8} (h : Visible bs) (h' : Visible bs') :
    Visible (bs ++ bs') := by
  intro b hb
  rcases List.mem_append.mp hb with hb | hb
  · exact h b hb
  · exact h' b hb

theorem visible_decimal (n : ℕ) : Visible (decimal n) := by
  intro b hb
  rw [decimal] at hb
  split at hb
  · rw [List.mem_singleton.mp hb]
    decide
  · obtain ⟨d,hd,rfl⟩ := List.mem_map.mp hb
    have hlt : d < 10 := Nat.digits_lt_base (by norm_num) (List.mem_reverse.mp hd)
    rw [toNat_byte (by omega)]
    omega

theorem visible_toHex16Bit (x : ℕ) : Visible (toHex16Bit x) := by
  have hdigit : ∀ n < 16, 0x20 ≤ (hexDigit n).toNat := by decide
  have hhi : (x >>> 8) &&& 0xff < 256 := Nat.and_lt_two_pow (n:=8) _ (by norm_num)
  have hlo : x &&& 0xff < 256 := Nat.and_lt_two_pow (n:=8) _ (by norm_num)
  obtain ⟨h₀,h₁⟩ := hex2_getD hhi
  obtain ⟨h₂,h₃⟩ := hex2_getD hlo
  intro b hb
  simp only [toHex16Bit,h₀,h₁,h₂,h₃,List.mem_cons,List.not_mem_nil,or_false] at hb
  rcases hb with rfl | rfl | rfl | rfl <;> exact hdigit _ (by omega)

theorem visible_escapeCodepoint (cp : ℕ) : Visible (escapeCodepoint cp) := by
  have hu : Visible (ascii "\\u") := by decide
  rw [escapeCodepoint]
  split
  · rename_i h
    intro b hb
    rw [List.mem_singleton.mp hb,toNat_byte (by omega)]
    exact h.2
  split
  · exact hu.append (visible_toHex16Bit _)
  · exact (hu.append (visible_toHex16Bit _)).append (hu.append (visible_toHex16Bit _))

theorem visible_shortEscape {b : UInt8} {esc : List UInt8} (h : shortEscape b = some esc) :
    Visible esc := by
  unfold shortEscape at h
  repeat' split at h
  case isFalse => simp at h
  all_goals
    obtain rfl := Option.some.inj h
    decide

theorem visible_quoteLoop (k : ℕ) (s : List UInt8) : Visible (quoteLoop k s) := by
  induction s generalizing k with
  | nil =>
    cases k <;> exact visible_nil
  | cons b s ih =>
    cases k with
    | succ k => exact ih k
    | zero =>
      rw [quoteLoop]
      split
      · rename_i hesc
        exact (visible_shortEscape hesc).append (ih 0)
      · exact (visible_escapeCodepoint _).append (ih _)

theorem visible_value2QuotedStr (value : List UInt8) (length : ℕ) :
    Visible (value2QuotedStr value length) := by
  have hquote : Visible (ascii "\"") := by decide
  exact hquote.append ((visible_quoteLoop 0 _).append hquote)

theorem visible_strConvInt (n : ℤ) : Visible (strConvInt n) := by
  rw [strConvInt]
  split
  · exact Visible.append (by decide) (visible_decimal _)
  · exact visible_decimal _

theorem visible_strConvDouble (x : Double) : Visible (strConvDouble x) := by
  have hsign : Visible (if x.negative then ascii "-" else []) := by
    split
    · decide
    · exact visible_nil
  have hzeros : ∀ k, Visible (List.replicate k 48) := by
    intro k b hb
    rw [List.eq_of_mem_replicate hb]
    decide
  exact (((hsign.append (visible_decimal _)).append (by decide)).append (hzeros _)).append
    (visible_decimal _)

mutual

theorem visible_writeValue : ∀ v : Value, Visible (writeValue v)
  | .nullValue => by decide
  | .intValue n => visible_strConvInt n
  | .uintValue n => visible_decimal n
  | .realValue x => visible_strConvDouble x
  | .stringValue s => visible_value2QuotedStr s _
  | .booleanValue true => by decide
  | .booleanValue false => by decide
  | .arrayValue vs => Visible.append (by decide) ((visible_writeElements vs).append (by decide))
  | .objectValue ms => Visible.append (by decide) ((visible_writeMembers ms).append (by decide))

theorem visible_writeElements : ∀ vs : List Value, Visible (writeElements vs)
  | [] => visible_nil
  | [v] => visible_writeValue v
  | v::v'::vs => (visible_writeValue v).append (Visible.append (by decide)
      (visible_writeElements (v'::vs)))

theorem visible_writeMembers : ∀ ms : List (List UInt8 × Value), Visible (writeMembers ms)
  | [] => visible_nil
  | [(name,v)] => (visible_value2QuotedStr name _).append
      (Visible.append (by decide) (visible_writeValue v))
  | (name,v)::m::ms => (visible_value2QuotedStr name _).append (Visible.append (by decide)
      ((visible_writeValue v).append (Visible.append (by decide) (visible_writeMembers (m::ms)))))

end

mutual

/-- The reals of a tree fit the buffer of `str_conv`. -/
def realsFit : Value → Bool
  | .realValue x => (strConvDouble x).length < 32
  | .arrayValue vs => elementsFit vs
  | .objectValue ms => membersFit ms
  | _ => true

def elementsFit : List Value → Bool
  | [] => true
  | v::vs => realsFit v && elementsFit vs

def membersFit : List (List UInt8 × Value) → Bool
  | [] => true
  | (_,v)::ms => realsFit v && membersFit ms

end

/-- What `write` appends is one line of printable characters, with its end. -/
theorem write_line (v : Value) : ∃ line, write true v [] = line ++ [10] ∧
    ∀ b ∈ line, 0x20 ≤ b.toNat ∧ b.toNat < 0x80 :=
  ⟨writeValue v,rfl,fun b hb => ⟨visible_writeValue v b hb,ascii_writeValue v b hb⟩⟩

end JsonWriter

namespace LinuxServer

open ExtendedProtocol (kHeaderSize Effect replyHeaders)
open HttpServer (HTTP_OK HTTP_NOCONTENT HTTP_BADMETHOD ParseResult Outcome)
open JsonWriter

/-- jsoncpp: the parser, `clear`, which is `none` where it raises, and `empty`. -/
structure Library where
  parse : List UInt8 → Value → ParseResult × Value
  clear : Value → Option Value
  empty : Value → Bool

/-- `on_request`: how it ends, and what it leaves in the request and the response. -/
abbrev RequestHandler := Value → Value → Outcome × Value × Value

structure WorkerContext where
  requestData : List UInt8
  responseStr : List UInt8
  request : Value
  response : Value

/-- What `evbuffer_add_printf` adds for `%s`: the text up to a zero byte, and nothing if its length
is no `int`. -/
def printed (s : List UInt8) : List UInt8 :=
  let s := s.takeWhile (· ≠ 0)
  if s.length < 2^31 then s else []

/-- The answer of the handler. -/
def respond (lib : Library) (wc : WorkerContext) : WorkerContext × Effect Value :=
  if lib.empty wc.response then (wc,.reply HTTP_OK "OK" replyHeaders [])
  else
    let wc := { wc with responseStr := write true wc.response [] }
    (wc,.reply HTTP_OK "OK" replyHeaders (printed wc.responseStr))

/-- With whether an exception leaves it. -/
def processRequest (lib : Library) (rh : RequestHandler) (wc : WorkerContext) (inBuf : List UInt8) :
    WorkerContext × List (Effect Value) × Bool :=
  if inBuf.length > kHeaderSize then
    let (result,request) := lib.parse inBuf wc.request
    let wc := { wc with requestData := inBuf, request := request }
    match result with
    | .raised => (wc,[.parse inBuf],true)
    | .refused => (wc,[.parse inBuf,.error HTTP_NOCONTENT "No json data"],false)
    | .parsed =>
      match lib.clear wc.response with
      | none => (wc,[.parse inBuf],true)
      | some response =>
        let (outcome,request',response) := rh request response
        let wc := { wc with request := request', response := response }
        match outcome with
        | .raises => (wc,[.parse inBuf,.call request],true)
        | .returns false => (wc,[.parse inBuf,.call request,
            .error HTTP_BADMETHOD "No request handler for current method."],false)
        | .returns true =>
          let (wc,effect) := respond lib wc
          (wc,[.parse inBuf,.call request,effect],false)
  else (wc,[.error HTTP_NOCONTENT "No data"],false)

/-- What was done for a request, and the worker it found. -/
structure Served where
  found : WorkerContext
  effects : List (Effect Value)
  raised : Bool

/-- The worker serves one request after the other, each with what the handler does on it. An exception
is caught where the worker ends. -/
def serve (lib : Library) (wc : WorkerContext) : List (List UInt8 × RequestHandler) → List Served
  | [] => []
  | (inBuf,rh)::rest =>
    match processRequest lib rh wc inBuf with
    | (_,effects,true) => [⟨wc,effects,true⟩]
    | (wc',effects,false) => ⟨wc,effects,false⟩::serve lib wc' rest

theorem printed_write (v : Value) : printed (write true v []) =
    if (write true v []).length < 2^31 then write true v [] else [] := by
  obtain ⟨line,hline,hchars⟩ := write_line v
  have hwhole : (write true v []).takeWhile (· ≠ 0) = write true v [] := by
    rw [hline,List.takeWhile_eq_self_iff]
    intro b hb
    have hne : b ≠ 0 := by
      rintro rfl
      rcases List.mem_append.mp hb with hb | hb
      · exact absurd (hchars 0 hb).1 (by decide)
      · simp at hb
    simpa using hne
  simp only [printed,hwhole]

def Effect.isAnswer : Effect Value → Bool
  | .reply _ _ _ _ | .error _ _ => true
  | _ => false

/-- A body that a client reads back as `v`: one line, and the value that `v` denotes. -/
structure Text (body : List UInt8) (v : Value) : Prop where
  line : ∃ line, body = line ++ [10] ∧ ∀ b ∈ line, 0x20 ≤ b.toNat ∧ b.toNat < 0x80
  reads : ∀ j, Denotes v j → ∃ text, body = utf8 text ∧ Json.parse text = some j

theorem text_write (v : Value) : Text (write true v []) v where
  line := write_line v
  reads j hj := by
    refine ⟨asText (writeValue v) ++ ['\n'],?_,?_⟩
    · rw [utf8,List.flatMap_append,← utf8,utf8_asText (ascii_writeValue v)]
      rfl
    · have hend : Json.Ws ['\n'] := by simp [Json.Ws,Json.isWs]
      exact Json.parse_iff.mpr (Json.Text.mk Json.ws_nil (valueText_writeValue hj) hend)

/-- The body of a reply to a response: none, where there is nothing to print or too much, or the text
of the response, if `str_conv` has room for its reals. -/
def Prints (lib : Library) (response : Value) (body : List UInt8) : Prop :=
  if lib.empty response ∨ 2^31 ≤ (write true response []).length then body = []
  else realsFit response = true → Text body response

/-- An exception leaves `_process_request`: the parser raises, a scalar is left from an earlier request
that `clear` raises on, or the handler raises. -/
def Raises (lib : Library) (req : List UInt8 × RequestHandler) (found : WorkerContext) : Prop :=
  kHeaderSize < req.1.length ∧ ((lib.parse req.1 found.request).1 = .raised ∨
    (lib.parse req.1 found.request).1 = .parsed ∧ (lib.clear found.response = none ∨
      ∃ response, lib.clear found.response = some response ∧
        (req.2 (lib.parse req.1 found.request).2 response).1 = .raises))

/-- One answer, unless an exception comes before it; and the body of a reply is that of what the handler
left to the parsed request, over the cleared response of the worker. -/
structure Answered (lib : Library) (req : List UInt8 × RequestHandler) (s : Served) : Prop where
  one : (s.effects.filter Effect.isAnswer).length = if s.raised then 0 else 1
  raised_iff : s.raised = true ↔ Raises lib req s.found
  reply : ∀ code reason headers body, .reply code reason headers body ∈ s.effects →
    code = HTTP_OK ∧ headers = replyHeaders ∧ ∃ request before request' response,
      .call request ∈ s.effects ∧ lib.parse req.1 s.found.request = (.parsed,request) ∧
      lib.clear s.found.response = some before ∧
      req.2 request before = (.returns true,request',response) ∧ Prints lib response body

variable (lib : Library)

theorem respond_reply (wc : WorkerContext) : ∃ body, (respond lib wc).2 =
    .reply HTTP_OK "OK" replyHeaders body ∧ Prints lib wc.response body := by
  unfold respond Prints
  by_cases hempty : lib.empty wc.response = true
  · exact ⟨[],by rw [if_pos hempty],by rw [if_pos (.inl hempty)]⟩
  · rw [if_neg hempty]
    refine ⟨_,rfl,?_⟩
    rw [printed_write]
    by_cases hlong : 2^31 ≤ (write true wc.response []).length
    · rw [if_pos (.inr hlong),if_neg (Nat.not_lt.mpr hlong)]
    · rw [if_neg (not_or.mpr ⟨hempty,hlong⟩),if_pos (Nat.not_le.mp hlong)]
      exact fun _ => text_write wc.response

theorem processRequest_answered (wc : WorkerContext) (inBuf : List UInt8) (rh : RequestHandler) :
    let (_,effects,raised) := processRequest lib rh wc inBuf
    Answered lib (inBuf,rh) ⟨wc,effects,raised⟩ := by
  unfold processRequest
  by_cases hlong : inBuf.length > kHeaderSize
  · rw [if_pos hlong]
    rcases hparse : lib.parse inBuf wc.request with ⟨result,request⟩
    have hraises : Raises lib (inBuf,rh) wc ↔ result = .raised ∨ result = .parsed ∧
        (lib.clear wc.response = none ∨ ∃ response, lib.clear wc.response = some response ∧
          (rh request response).1 = .raises) := by
      rw [Raises,hparse]
      exact and_iff_right hlong
    cases result with
    | raised => exact ⟨rfl,iff_of_true rfl (hraises.mpr (.inl rfl)),by simp⟩
    | refused => exact ⟨rfl,iff_of_false (by simp) (by simp [hraises]),by simp⟩
    | parsed =>
      dsimp only
      cases hclear : lib.clear wc.response with
      | none => exact ⟨rfl,iff_of_true rfl (hraises.mpr (.inr ⟨rfl,.inl hclear⟩)),by simp⟩
      | some response =>
        dsimp only
        rcases hrh : rh request response with ⟨outcome,request',response'⟩
        have hcalm (b : Bool) (hb : outcome = .returns b) : ¬Raises lib (inBuf,rh) wc := by
          simp [hraises,hclear,hrh,hb]
        cases outcome with
        | raises =>
          refine ⟨rfl,iff_of_true rfl (hraises.mpr (.inr ⟨rfl,.inr ⟨response,hclear,?_⟩⟩)),by simp⟩
          rw [hrh]
        | returns b =>
          cases b with
          | false => exact ⟨rfl,iff_of_false (by simp) (hcalm false rfl),by simp⟩
          | true =>
            obtain ⟨body,heffect,hprints⟩ := respond_reply lib ⟨inBuf,wc.responseStr,request',response'⟩
            dsimp only
            rw [heffect]
            refine ⟨rfl,iff_of_false (by simp) (hcalm true rfl),fun code reason headers body' hmem => ?_⟩
            simp only [List.mem_cons,List.not_mem_nil,or_false,reduceCtorEq,false_or,Effect.reply.injEq] at hmem
            obtain ⟨rfl,-,rfl,rfl⟩ := hmem
            exact ⟨rfl,rfl,request,response,request',response',by simp,hparse,hclear,hrh,hprints⟩
  · rw [if_neg hlong]
    exact ⟨rfl,iff_of_false (by simp) fun h => hlong h.1,by simp⟩

variable {lib}

end LinuxServer
end SdkCp
