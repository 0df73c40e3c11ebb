import SdkCp.Dataport
import SdkCp.HttpServer

/-! `_process_request` of web_server/server_linux.hpp with the extended protocol format: a header of
flags, size and a hash of the two before the text. jsoncpp, the JSON writer, minilzo and the handler
are parameters; `none` is an access behind a vector. -/
namespace SdkCp
namespace ExtendedProtocol

open Bytes Dataport
open HttpServer (HTTP_OK HTTP_NOCONTENT HTTP_BADMETHOD HTTP_INTERNAL LZO_E_OK kServerName)

def kHeaderDataSize : ℕ := 5
def kHeaderSize : ℕ := kHeaderDataSize+4
def kServerMaxRequestSize : ℕ := 1*1024*1024
abbrev SERVER_FLAG_COMPRESSED : UInt8 := 0x01

def fnv1aHashBytes32 (bs : List UInt8) : UInt32 :=
  bs.foldl (fun result b => (result ^^^ b.toUInt32)*16777619) 2166136261

structure NetHeader where
  flags : UInt8
  size : ℕ
  crc32 : UInt32

def NetHeader.ofBytes (bs : List UInt8) : NetHeader :=
  ⟨bs.getD 0 0,ofLE ((bs.drop 1).take 4),UInt32.ofNat (ofLE ((bs.drop 5).take 4))⟩

/-- `lzo1x_1_compress` and `lzo1x_decompress`: the result and the bytes that are written. -/
structure Minilzo where
  compress : List UInt8 → ℤ × List UInt8
  decompress : List UInt8 → ℤ × List UInt8

/-- The bytes that the parser is given: the vector from `data` on, how many bytes there have been
received or produced, and `data_size`. -/
structure Range where
  memory : List UInt8
  filled : ℕ
  size : ℕ

inductive Decoded
  | refused (reason : String)
  | overrun
  | handed (range : Range)

/-- The decoder on `data_compressed`, with `uncompressed_data` as it is left. The decompressor does
not look at the size of its output. -/
def decode (lzo : Minilzo) (dataCompressed uncompressedData : List UInt8) : List UInt8 × Decoded :=
  let nh := NetHeader.ofBytes dataCompressed
  let data := dataCompressed.drop kHeaderSize
  if nh.size > kServerMaxRequestSize then (uncompressedData,.refused "Too large request")
  else if nh.crc32 ≠ fnv1aHashBytes32 (dataCompressed.take kHeaderDataSize) then
    (uncompressedData,.refused "No correct data")
  else if nh.flags &&& SERVER_FLAG_COMPRESSED ≠ 0 then
    let uncompressedData := resize uncompressedData nh.size
    let (result,out) := lzo.decompress data
    if out.length > nh.size then (uncompressedData,.overrun)
    else
      let uncompressedData := memcpy uncompressedData 0 out
      if result ≠ LZO_E_OK then (uncompressedData,.refused "Decompression failed.")
      else (uncompressedData,.handed ⟨uncompressedData,out.length,nh.size⟩)
  else (uncompressedData,.handed ⟨data,data.length,nh.size⟩)

/-- Bodies without a text behind the header are refused. -/
def receive (lzo : Minilzo) (inBuf uncompressedData : List UInt8) : List UInt8 × Decoded :=
  if inBuf.length > kHeaderSize then decode lzo inBuf uncompressedData
  else (uncompressedData,.refused "No data")

/-- The encoder: `data_compressed` as it is left, and the packet unless the compressor fails. -/
def encode (lzo : Minilzo) (dataCompressed responseStr : List UInt8) :
    Option (List UInt8 × Option (List UInt8)) :=
  let n := responseStr.length
  let dataCompressed := resize dataCompressed (kHeaderSize+n+n/16+64+3)
  let (result,out) := lzo.compress responseStr
  if kHeaderSize+out.length > dataCompressed.length then none
  else
    let dataCompressed := memcpy dataCompressed kHeaderSize out
    let dataCompressed := memcpy dataCompressed 0 [SERVER_FLAG_COMPRESSED]
    let dataCompressed := memcpy dataCompressed 1 (leBytes 4 n)
    some (dataCompressed,if result ≠ LZO_E_OK then none
      else some (dataCompressed.take (out.length+kHeaderSize)))

structure Library (J : Type*) where
  lzo : Minilzo
  parse : List UInt8 → J → Bool × J
  clear : J → J
  empty : J → Bool
  write : J → List UInt8

/-- `on_request`: its result and what it leaves in the request and the response. -/
abbrev RequestHandler (J : Type*) := J → J → Bool × J × J

structure WorkerContext (J : Type*) where
  requestData : List UInt8
  uncompressedData : List UInt8
  responseStr : List UInt8
  request : J
  response : J

inductive Effect (J : Type*)
  | parse (data : List UInt8)
  | call (request : J)
  | reply (code : ℕ) (reason : String) (headers : List (String × String)) (body : List UInt8)
  | error (code : ℕ) (reason : String)

def replyHeaders : List (String × String) :=
  [("Server",kServerName),("Connection","close"),("Content-Type","application/json")]

variable {J : Type*} (lib : Library J) (rh : RequestHandler J)

/-- The answer of the handler: an empty response has no packet. -/
def respond (wc : WorkerContext J) : Option (WorkerContext J × Effect J) :=
  if lib.empty wc.response then some (wc,.reply HTTP_OK "OK" replyHeaders [])
  else
    let wc := { wc with responseStr := lib.write wc.response }
    (encode lib.lzo wc.requestData wc.responseStr).map fun (requestData,packet) =>
      ({ wc with requestData := requestData },
        (packet.map (.reply HTTP_OK "OK" replyHeaders)).getD (.error HTTP_INTERNAL "Compression failed."))

/-- What follows the decoder. -/
def parseRequest (wc : WorkerContext J) (range : Range) :
    Option (WorkerContext J × List (Effect J)) :=
  if range.size > range.memory.length then none
  else
    let data := range.memory.take range.size
    let (parsed,request) := lib.parse data wc.request
    let wc := { wc with request := request }
    if parsed = false then some (wc,[.parse data,.error HTTP_NOCONTENT "No json data"])
    else
      let (served,request',response) := rh wc.request (lib.clear wc.response)
      let wc := { wc with request := request', response := response }
      if served = false then some (wc,[.parse data,.call request,
        .error HTTP_BADMETHOD "No request handler for current method."])
      else (respond lib wc).map fun (wc,effect) => (wc,[.parse data,.call request,effect])

def processRequest (wc : WorkerContext J) (inBuf : List UInt8) :
    Option (WorkerContext J × List (Effect J)) :=
  let wc := { wc with requestData := if inBuf.length > kHeaderSize then inBuf else wc.requestData }
  let (uncompressedData,decoded) := receive lib.lzo inBuf wc.uncompressedData
  let wc := { wc with uncompressedData := uncompressedData }
  match decoded with
  | .refused reason => some (wc,[.error HTTP_NOCONTENT reason])
  | .overrun => none
  | .handed range => parseRequest lib rh wc range

/-- The bodies that pass the two checks. -/
structure Accepted (body : List UInt8) : Prop where
  longer : kHeaderSize < body.length
  limit : (NetHeader.ofBytes body).size ≤ kServerMaxRequestSize
  hash : (NetHeader.ofBytes body).crc32 = fnv1aHashBytes32 (body.take kHeaderDataSize)

section
variable (lzo : Minilzo) {body : List UInt8} (un : List UInt8)

theorem receive_of_not_accepted (h : ¬Accepted body) :
    ∃ reason, receive lzo body un = (un,.refused reason) := by
  unfold receive
  split
  next hlong =>
    unfold decode
    by_cases hsize : (NetHeader.ofBytes body).size > kServerMaxRequestSize
    · exact ⟨_,if_pos hsize⟩
    · refine ⟨_,(if_neg hsize).trans (if_pos fun hhash => h ⟨hlong,not_lt.mp hsize,hhash⟩)⟩
  next => exact ⟨_,rfl⟩

theorem receive_plain (h : Accepted body)
    (hflag : (NetHeader.ofBytes body).flags &&& SERVER_FLAG_COMPRESSED = 0) :
    receive lzo body un =
      (un,.handed ⟨body.drop kHeaderSize,(body.drop kHeaderSize).length,(NetHeader.ofBytes body).size⟩) := by
  simp only [receive,decode,if_pos h.longer,if_neg (not_lt.mpr h.limit),h.hash,hflag,ne_eq,
    not_true_eq_false,if_false]

theorem receive_compressed {result : ℤ} {out : List UInt8} (h : Accepted body)
    (hflag : (NetHeader.ofBytes body).flags &&& SERVER_FLAG_COMPRESSED ≠ 0)
    (hout : lzo.decompress (body.drop kHeaderSize) = (result,out)) :
    receive lzo body un =
      let size := (NetHeader.ofBytes body).size
      let produced := memcpy (resize un size) 0 out
      if out.length > size then (resize un size,.overrun)
      else (produced,if result ≠ LZO_E_OK then .refused "Decompression failed."
        else .handed ⟨produced,out.length,size⟩) := by
  simp only [receive,decode,if_pos h.longer,if_neg (not_lt.mpr h.limit),h.hash,ne_eq,
    not_true_eq_false,if_false,if_pos hflag,hout]
  split
  next => rfl
  next => split <;> rfl

end

/-- What the parser is given has been received or produced. -/
def InBounds (lzo : Minilzo) (body un : List UInt8) : Prop :=
  ∀ range, (receive lzo body un).2 = .handed range → range.size ≤ range.filled

/-- The declared size is compared with the limit, and with nothing that arrives. -/
theorem inBounds_iff (lzo : Minilzo) (body un : List UInt8) : InBounds lzo body un ↔
    (Accepted body →
      if (NetHeader.ofBytes body).flags &&& SERVER_FLAG_COMPRESSED ≠ 0 then
        (lzo.decompress (body.drop kHeaderSize)).1 = LZO_E_OK →
          (NetHeader.ofBytes body).size ≤ (lzo.decompress (body.drop kHeaderSize)).2.length
      else kHeaderSize+(NetHeader.ofBytes body).size ≤ body.length) := by
  by_cases h : Accepted body
  · by_cases hflag : (NetHeader.ofBytes body).flags &&& SERVER_FLAG_COMPRESSED ≠ 0
    · rcases hout : lzo.decompress (body.drop kHeaderSize) with ⟨result,out⟩
      simp only [InBounds,receive_compressed lzo un h hflag hout,if_pos hflag]
      by_cases hover : out.length > (NetHeader.ofBytes body).size
      · simp only [if_pos hover,reduceCtorEq,false_implies,implies_true,true_iff]
        exact fun _ _ => hover.le
      · by_cases hresult : result = LZO_E_OK
        · simp [hover,hresult,h]
        · simp [hover,hresult]
    · have hplain : (NetHeader.ofBytes body).flags &&& SERVER_FLAG_COMPRESSED = 0 := not_not.mp hflag
      simp only [InBounds,receive_plain lzo un h hplain,if_neg hflag,Decoded.handed.injEq,forall_eq']
      have hlong := h.longer
      rw [List.length_drop,Nat.le_sub_iff_add_le' hlong.le]
      exact ⟨fun hsize _ => hsize,fun hsize => hsize h⟩
  · obtain ⟨reason,hrec⟩ := receive_of_not_accepted lzo un h
    refine iff_of_true (fun range hrange => ?_) fun haccepted => absurd haccepted h
    rw [hrec] at hrange
    cases hrange

section
variable {lib rh} {wc wc' : WorkerContext J} {inBuf : List UInt8} {effects : List (Effect J)}

theorem respond_cases {effect : Effect J} (h : respond lib wc = some (wc',effect)) :
    (∃ code reason, effect = .error code reason) ∨ ∃ body, effect = .reply HTTP_OK "OK" replyHeaders body ∧
      (body = [] ∨ ∃ buffer,
        encode lib.lzo wc.requestData (lib.write wc.response) = some (buffer,some body)) := by
  unfold respond at h
  split at h
  · cases h
    exact .inr ⟨[],rfl,.inl rfl⟩
  · obtain ⟨⟨buffer,packet⟩,hencode,heq⟩ := Option.map_eq_some_iff.mp h
    cases packet with
    | none =>
      cases heq
      exact .inl ⟨_,_,rfl⟩
    | some body =>
      cases heq
      exact .inr ⟨body,rfl,.inr ⟨buffer,hencode⟩⟩

theorem parseRequest_cases {range : Range} (h : parseRequest lib rh wc range = some (wc',effects)) :
    range.size ≤ range.memory.length ∧ ∃ answer, effects = .parse (range.memory.take range.size)::answer ∧
      ((∃ code reason, answer = [.error code reason]) ∨
        (∃ request code reason, answer = [.call request,.error code reason]) ∨
        ∃ request wc₁ effect, answer = [.call request,effect] ∧ wc₁.requestData = wc.requestData ∧
          lib.parse (range.memory.take range.size) wc.request = (true,request) ∧
          rh request (lib.clear wc.response) = (true,wc₁.request,wc₁.response) ∧
          respond lib wc₁ = some (wc',effect)) := by
  unfold parseRequest at h
  split at h
  · cases h
  next hsize =>
    refine ⟨not_lt.mp hsize,?_⟩
    rcases hparse : lib.parse (range.memory.take range.size) wc.request with ⟨parsed,request⟩
    rcases hrh : rh request (lib.clear wc.response) with ⟨served,request',response⟩
    simp only [hparse,hrh] at h
    split at h
    · cases h
      exact ⟨_,rfl,.inl ⟨_,_,rfl⟩⟩
    next hparsed =>
      split at h
      · cases h
        exact ⟨_,rfl,.inr (.inl ⟨_,_,_,rfl⟩)⟩
      next hserved =>
        obtain ⟨⟨wc₂,effect⟩,hrespond,heq⟩ := Option.map_eq_some_iff.mp h
        cases heq
        obtain rfl := Bool.eq_true_of_not_eq_false hparsed
        obtain rfl := Bool.eq_true_of_not_eq_false hserved
        exact ⟨_,rfl,.inr (.inr ⟨request,_,effect,rfl,by rfl,rfl,hrh,hrespond⟩)⟩

theorem processRequest_cases (h : processRequest lib rh wc inBuf = some (wc',effects)) :
    (∃ left reason, receive lib.lzo inBuf wc.uncompressedData = (left,.refused reason) ∧
      effects = [.error HTTP_NOCONTENT reason]) ∨
    ∃ left range wc₁, receive lib.lzo inBuf wc.uncompressedData = (left,.handed range) ∧
      wc₁.requestData = (if inBuf.length > kHeaderSize then inBuf else wc.requestData) ∧
      wc₁.request = wc.request ∧ wc₁.response = wc.response ∧
      parseRequest lib rh wc₁ range = some (wc',effects) := by
  unfold processRequest at h
  simp only at h
  rcases hreceive : receive lib.lzo inBuf wc.uncompressedData with ⟨left,decoded⟩
  rw [hreceive] at h
  cases decoded with
  | refused reason =>
    cases h
    exact .inl ⟨left,reason,rfl,rfl⟩
  | overrun => cases h
  | handed range => exact .inr ⟨left,range,_,rfl,by rfl,by rfl,by rfl,h⟩

/-- The parser is given what the decoder hands on. -/
theorem processRequest_parse {data : List UInt8}
    (h : processRequest lib rh wc inBuf = some (wc',effects)) (hdata : .parse data ∈ effects) :
    ∃ left range, receive lib.lzo inBuf wc.uncompressedData = (left,.handed range) ∧
      range.size ≤ range.memory.length ∧ data = range.memory.take range.size := by
  obtain ⟨left,reason,-,rfl⟩ | ⟨left,range,wc₁,hreceive,-,-,-,hparse⟩ := processRequest_cases h
  · simp at hdata
  · obtain ⟨hsize,answer,rfl,hanswer⟩ := parseRequest_cases hparse
    refine ⟨left,range,hreceive,hsize,?_⟩
    obtain ⟨code,reason,rfl⟩ | ⟨request,code,reason,rfl⟩ | ⟨request,wc₂,effect,rfl,-,-,-,hrespond⟩ := hanswer
    · simpa using hdata
    · simpa using hdata
    · obtain ⟨code,reason,rfl⟩ | ⟨body,rfl,-⟩ := respond_cases hrespond <;> simpa using hdata

end

/-- A hundred bytes are declared, and one is sent. -/
def overstated : List UInt8 := [0,100,0,0,0,43,122,247,225,0x7b]

theorem overstated_accepted : Accepted overstated := ⟨by decide,by decide,by decide⟩

theorem not_inBounds : ¬∀ (lzo : Minilzo) (body un : List UInt8), Accepted body → InBounds lzo body un := by
  intro h
  have hbounds := h ⟨fun _ => (0,[]),fun _ => (0,[])⟩ overstated [] overstated_accepted
  have hhanded := receive_plain ⟨fun _ => (0,[]),fun _ => (0,[])⟩ [] overstated_accepted (by decide)
  exact absurd (hbounds _ (congrArg Prod.snd hhanded)) (by decide)

end ExtendedProtocol
end SdkCp
