import SdkCp.ExtendedProtocolPacket
import SdkCp.HttpServerReplies
import SdkCp.LzoCompress

/-! The compressed answers of the two HTTP servers with the vendored minilzo: each body is read back as
the text that the handler gave. -/
namespace SdkCp

namespace ExtendedProtocol

open Lzo (lzo1x1Compress lzo1xDecompress)
open HttpServer (HTTP_OK LZO_E_OK)

/-- The calls go to compression/minilzo.c, with `room` bytes of memory behind the output. Where the
decompressor leaves its buffers nothing is said. -/
structure Vendored (room : ℕ) (lzo : Minilzo) : Prop where
  compress : lzo.compress = lzo1x1Compress
  decompress : ∀ data code out, lzo1xDecompress room data = .ret code out → lzo.decompress data = (code,out)

section
variable {room : ℕ} {lzo : Minilzo}

theorem Vendored.faithful (h : Vendored room lzo) {text : List UInt8} (hroom : text.length ≤ room) :
    Faithful lzo text where
  ok := by
    rw [h.compress]
    rfl
  room := by
    rw [h.compress]
    exact Lzo.length_lzo1x1Compress text
  marker := by
    rw [h.compress]
    exact List.suffix_append _ _
  inverts := by
    have hrun := Lzo.lzo1xDecompress_compress text [] hroom
    rw [List.append_nil,if_pos rfl] at hrun
    rw [h.compress]
    exact h.decompress _ _ _ hrun

end

section
variable {J : Type*} {lib : Library J} {rh : RequestHandler J} {wc wc' : WorkerContext J}
  {inBuf : List UInt8} {effects : List (Effect J)} {code : ℕ} {reason : String}
  {headers : List (String × String)} {body : List UInt8} {room : ℕ}

/-- Behind its header a packet is the compressed text of the response that the handler left to the
parsed request, over the cleared response of the worker; a receiver that accepts the header is given
the text and nothing of what its buffer held. -/
theorem processRequest_reply_text (hlzo : Vendored room lib.lzo)
    (h : processRequest lib rh wc inBuf = some (wc',effects))
    (hroom : ∀ request, .call request ∈ effects →
      (lib.write (rh request (lib.clear wc.response)).2.2).length ≤ room)
    (hreply : .reply code reason headers body ∈ effects) (hne : body ≠ []) :
    ∃ data request, effects = [.parse data,.call request,.reply code reason headers body] ∧
      lib.parse data wc.request = (true,request) ∧ (rh request (lib.clear wc.response)).1 = true ∧
      let text := lib.write (rh request (lib.clear wc.response)).2.2
      lzo1xDecompress text.length (body.drop kHeaderSize) = .ret LZO_E_OK text ∧
        (text.length ≤ kServerMaxRequestSize → Accepted body → ∀ un,
          receive lib.lzo body un = (text,.handed ⟨text,text.length,text.length⟩)) := by
  obtain ⟨haccepted,buffer,data,request,request',response,rfl,hparse,hrh,hencode⟩ :=
    processRequest_reply h hreply hne
  have hroom := hroom request (by simp)
  refine ⟨data,request,rfl,hparse,congrArg Prod.fst hrh,?_⟩
  rw [hrh] at hroom ⊢
  refine ⟨?_,fun hsmall hbody un => ?_⟩
  · obtain ⟨buffer',held,hencode',hheld,-⟩ := encode_faithful (hlzo.faithful hroom) inBuf
    cases hencode.symm.trans hencode'
    have hfront : (SERVER_FLAG_COMPRESSED::(Bytes.leBytes 4 (lib.write response).length ++ held)).length =
        kHeaderSize := by
      rw [List.length_cons,List.length_append,Bytes.leBytes_length,hheld]
      rfl
    have hrun := Lzo.lzo1xDecompress_compress (lib.write response) [] le_rfl
    rw [List.append_nil,if_pos rfl] at hrun
    rw [← List.append_assoc,← List.cons_append,List.drop_left' hfront,hlzo.compress]
    exact hrun
  · obtain ⟨buffer',packet,hencode',-,hread⟩ := encode_spec (hlzo.faithful hroom) hsmall inBuf
    cases hencode.symm.trans hencode'
    exact hread hbody un

end

/-- minilzo with `room` bytes behind the output; a fault is given the code of an overrun. -/
def minilzo (room : ℕ) : Minilzo where
  compress := lzo1x1Compress
  decompress data :=
    match lzo1xDecompress room data with
    | .ret code out => (code,out)
    | .fault => (Lzo.LZO_E_OUTPUT_OVERRUN,[])

theorem vendored_minilzo (room : ℕ) : Vendored room (minilzo room) where
  compress := rfl
  decompress data code out h := by
    simp only [minilzo,h]

/-- A library whose handler always answers `{}`. -/
def bracesLibrary : Library Unit where
  lzo := minilzo 2
  parse := fun _ j => (true,j)
  clear := id
  empty := fun _ => false
  write := fun _ => [0x7b,0x7d]

/-- A plain request with the text `{}`. -/
def bracesRequest : List UInt8 := [0,2,0,0,0,237,81,184,113,0x7b,0x7d]

theorem processRequest_reply_text_braces : ∃ body,
    lzo1xDecompress 2 (body.drop kHeaderSize) = .ret LZO_E_OK [0x7b,0x7d] ∧
      (Accepted body → ∀ un, receive bracesLibrary.lzo body un = ([0x7b,0x7d],.handed ⟨[0x7b,0x7d],2,2⟩)) := by
  have hfaithful : Faithful bracesLibrary.lzo [0x7b,0x7d] := (vendored_minilzo 2).faithful (by decide)
  obtain ⟨buffer,held,hencode,hheld,-⟩ := encode_faithful hfaithful bracesRequest
  have haccepted : Accepted bracesRequest := ⟨by decide,by decide,by decide⟩
  have hreceive := receive_plain bracesLibrary.lzo [] haccepted (by decide)
  have hrun : processRequest bracesLibrary (fun j j' => (true,j,j')) ⟨[],[],[],(),()⟩ bracesRequest =
      some (⟨buffer,[],[0x7b,0x7d],(),()⟩,[.parse [0x7b,0x7d],.call (),.reply HTTP_OK "OK" replyHeaders
        (SERVER_FLAG_COMPRESSED::(Bytes.leBytes 4 2 ++ (held ++ (bracesLibrary.lzo.compress [0x7b,0x7d]).2)))]) := by
    have hlen : bracesRequest.length > kHeaderSize := by decide
    have hsize : ¬(NetHeader.ofBytes bracesRequest).size > (bracesRequest.drop kHeaderSize).length := by decide
    have htake : (bracesRequest.drop kHeaderSize).take (NetHeader.ofBytes bracesRequest).size =
        [0x7b,0x7d] := by decide
    have hrespond : respond bracesLibrary ⟨bracesRequest,[],[],(),()⟩ = some (⟨buffer,[],[0x7b,0x7d],(),()⟩,
        .reply HTTP_OK "OK" replyHeaders (SERVER_FLAG_COMPRESSED::
          (Bytes.leBytes 4 2 ++ (held ++ (bracesLibrary.lzo.compress [0x7b,0x7d]).2)))) := by
      simp only [respond,show bracesLibrary.empty () = false from rfl,Bool.false_eq_true,if_false]
      exact congrArg (Option.map _) hencode
    simp only [processRequest,if_pos hlen,hreceive,parseRequest,if_neg hsize,htake]
    exact congrArg (Option.map _) hrespond
  obtain ⟨data,request,-,-,-,htext,hread⟩ := processRequest_reply_text (vendored_minilzo 2) hrun
    (fun _ _ => Nat.le_refl 2) (List.mem_cons_of_mem _ (List.mem_cons_of_mem _ List.mem_cons_self))
    (List.cons_ne_nil _ _)
  exact ⟨_,htext,hread (show 2 ≤ kServerMaxRequestSize by decide)⟩

end ExtendedProtocol

namespace HttpServer

open Lzo (lzo1x1Compress lzo1xDecompress)

/-- A body that a client reads back as `text`, with the header that says how. -/
def Carries (headers : List (String × String)) (body text : List UInt8) : Prop :=
  ("Accept-Compression","lzo") ∈ headers ∧
    ∀ room, text.length ≤ room → lzo1xDecompress room body = .ret LZO_E_OK text

section
variable {J K : Type*}

/-- The request and the uploader that an event registers. -/
def Event.uploader? : Event J K → Option (ℕ × Handler J K)
  | .registerUploader h f => some (h,f)
  | _ => none

/-- The handler of the request, or an uploader that was registered for it, was called with the
recorded context and left `text` to be sent. -/
def Left (lib : Library J K) (es : List (Event J K)) (handle : ℕ) (text : List UInt8) :
    Effect J K → Prop
  | .call cc => ∃ req rh, .request req rh ∈ es ∧ req.handle = handle ∧ cc.handle = handle ∧
      (rh cc).2.text lib = some text
  | .run ix cc => ∃ f, (es.filterMap Event.uploader?)[ix]? = some (handle,f) ∧ cc.handle = handle ∧
      (f cc).2.text lib = some text
  | _ => False

/-- What follows a call: an answer with a body carries the text that the call left. -/
def Answers (lib : Library J K) (es : List (Event J K)) (call : Effect J K) : Effect J K → Prop
  | .reply handle _ _ headers (some body) =>
    ∃ text, Left lib es handle text call ∧ Carries headers body text
  | _ => True

def Effect.bodied : Effect J K → Bool
  | .reply _ _ _ _ (some _) => true
  | _ => false

/-- No answer says that compression failed. -/
def Compresses : Effect J K → Prop
  | .error _ _ reason _ => reason ≠ "Compression failed."
  | _ => True

/-- The effects of some steps: no body comes first, and each follows its call. -/
structure Readable (lib : Library J K) (es : List (Event J K)) (l : List (Effect J K)) : Prop where
  head : ∀ e ∈ l.head?, e.bodied = false
  chain : l.IsChain (Answers lib es)
  compresses : ∀ e ∈ l, Compresses e

variable {lib : Library J K} {es es' : List (Event J K)} {wc : WorkerContext J K} {ix : ℕ}

theorem answers_of_not_bodied {e : Effect J K} (h : e.bodied = false) (a : Effect J K) :
    Answers lib es a e := by
  cases e with
  | reply handle code reason headers body =>
    cases body with
    | none => trivial
    | some body => cases h
  | _ => trivial

theorem Left.mono {handle : ℕ} {text : List UInt8} {e : Effect J K} (h : Left lib es handle text e) :
    Left lib (es ++ es') handle text e := by
  cases e with
  | call cc =>
    obtain ⟨req,rh,hmem,hrest⟩ := h
    exact ⟨req,rh,List.mem_append_left _ hmem,hrest⟩
  | run ix cc =>
    obtain ⟨f,hf,hrest⟩ := h
    refine ⟨f,?_,hrest⟩
    rw [List.filterMap_append,List.getElem?_append_left (List.getElem?_eq_some_iff.mp hf).1,hf]
  | _ => exact h.elim

theorem Answers.mono {a e : Effect J K} (h : Answers lib es a e) : Answers lib (es ++ es') a e := by
  cases e with
  | reply handle code reason headers body =>
    cases body with
    | none => trivial
    | some body =>
      obtain ⟨text,hleft,hcarries⟩ := h
      exact ⟨text,hleft.mono,hcarries⟩
  | _ => trivial

section
variable {l l' : List (Effect J K)}

theorem Readable.mono (h : Readable lib es l) : Readable lib (es ++ es') l :=
  ⟨h.head,h.chain.imp fun _ _ => Answers.mono,h.compresses⟩

theorem readable_nil : Readable lib es [] := ⟨by simp,.nil,by simp⟩

theorem readable_singleton {e : Effect J K} (hbody : e.bodied = false) (he : Compresses e) :
    Readable lib es [e] := ⟨by simpa using hbody,.singleton e,by simpa using he⟩

theorem Readable.append (h : Readable lib es l) (h' : Readable lib es l') : Readable lib es (l ++ l') where
  head := by
    cases l with
    | nil => exact h'.head
    | cons e l => exact h.head
  chain := h.chain.append h'.chain fun a _ e he => answers_of_not_bodied (h'.head e he) a
  compresses e he := (List.mem_append.mp he).elim (h.compresses e) (h'.compresses e)

theorem Readable.cons {e : Effect J K} (hbody : e.bodied = false) (he : Compresses e)
    (h : Readable lib es l) : Readable lib es (e::l) := (readable_singleton hbody he).append h

end

variable (wc) in
theorem sendData_carries (hlzo : lib.compress = lzo1x1Compress) (handle : ℕ) (inData : List UInt8) :
    ∃ headers body, (sendData lib true wc handle inData).2.1 =
      .reply handle HTTP_OK "OK" headers (some body) ∧ Carries headers body inData := by
  have hout : lib.compress inData = (LZO_E_OK,(lzo1x1Compress inData).2) := by
    rw [hlzo]
    rfl
  have hrun (room : ℕ) (hroom : inData.length ≤ room) :
      lzo1xDecompress room (lzo1x1Compress inData).2 = .ret LZO_E_OK inData := by
    have h := Lzo.lzo1xDecompress_compress inData [] hroom
    rwa [List.append_nil,if_pos rfl] at h
  have hbody : (lzo1x1Compress inData).2 ≠ [] := List.append_ne_nil_of_right_ne_nil _ (by decide)
  obtain ⟨b,bs,hcons⟩ := List.exists_cons_of_ne_nil hbody
  refine ⟨responseHeaders ++ [("Accept-Compression","lzo")],(lzo1x1Compress inData).2,?_,by simp,hrun⟩
  simp only [sendData,compressResponse,if_true,hout,ne_eq,not_true_eq_false,if_false,hcons]

variable (wc) in
theorem readable_respond (hlzo : lib.compress = lzo1x1Compress) {call : Effect J K}
    (hcall : call.bodied = false) (hcompresses : Compresses call) {cc : CallContext J K} {handle : ℕ}
    (hleft : ∀ text, cc.text lib = some text → Left lib es handle text call) :
    Readable lib es [call,(respond lib true (wc.update cc) handle).2.1] := by
  have hsend (wc' : WorkerContext J K) (text : List UInt8) (htext : cc.text lib = some text) :
      Readable lib es [call,(sendData lib true wc' handle text).2.1] := by
    obtain ⟨headers,body,heq,hcarries⟩ := sendData_carries wc' hlzo handle text
    rw [heq]
    refine ⟨by simpa using hcall,?_,by simpa [Compresses] using hcompresses⟩
    exact .cons_cons ⟨text,hleft text htext,hcarries⟩ (.singleton _)
  unfold respond
  split
  next hdirect => exact hsend _ _ (if_pos hdirect)
  next hdirect =>
    split
    next hempty => exact hsend _ _ ((if_neg hdirect).trans (if_pos hempty))
    next => exact (readable_singleton rfl (by trivial)).cons hcall hcompresses

theorem readable_processData (hlzo : lib.compress = lzo1x1Compress) {rh : Handler J K} {req : Request}
    (hrh : .request req rh ∈ es) {data : List UInt8} :
    Readable lib es (processData lib true rh ix wc req data).2 := by
  have herror (code : ℕ) {reason : String} (h : reason ≠ "Compression failed.") :
      Readable lib es [.error req.handle code reason []] := readable_singleton rfl h
  unfold processData
  dsimp only
  split
  · exact (herror _ (by decide)).cons rfl (by trivial)
  · exact (herror _ (by decide)).cons rfl (by trivial)
  · split
    · exact (herror _ (by decide)).cons rfl (by trivial)
    · split
      · exact ((herror _ (by decide)).cons rfl (by trivial)).cons rfl (by trivial)
      · exact ((herror _ (by decide)).cons rfl (by trivial)).cons rfl (by trivial)
      · split
        · exact ((readable_singleton rfl (by trivial)).cons rfl (by trivial)).cons rfl (by trivial)
        · refine (readable_respond _ hlzo rfl (by trivial) fun text htext => ?_).cons rfl (by trivial)
          exact ⟨req,rh,hrh,rfl,rfl,htext⟩

theorem readable_processRequest (hlzo : lib.compress = lzo1x1Compress) {rh : Handler J K} {req : Request}
    (hrh : .request req rh ∈ es) : Readable lib es (processRequest lib true rh ix wc req).2 := by
  unfold processRequest
  split
  · exact readable_singleton rfl (by trivial)
  · split
    · exact readable_singleton rfl (by trivial)
    · split
      · exact readable_singleton rfl (by simp [Compresses])
      · exact readable_processData hlzo hrh
      · dsimp only
        split
        · exact readable_singleton rfl (by simp [Compresses])
        · split
          · exact readable_singleton rfl (by simp [Compresses])
          · exact readable_processData hlzo hrh

/-- The uploader was registered by the event of its number. -/
def Registered (es : List (Event J K)) (u : UploaderContext J K) : Prop :=
  (es.filterMap Event.uploader?)[u.ix]? = some (u.h,u.f)

variable (wc) in
theorem readable_runUploaders (hlzo : lib.compress = lzo1x1Compress) {us : List (UploaderContext J K)}
    (hus : ∀ u ∈ us, Registered es u) (cc : CallContext J K) :
    Readable lib es (runUploaders lib true wc cc us).2.1 ∧
      (runUploaders lib true wc cc us).1.uploaders = wc.uploaders := by
  induction us generalizing wc cc with
  | nil => exact ⟨readable_nil,rfl⟩
  | cons u us ih =>
    have hu : Registered es u := hus u List.mem_cons_self
    unfold runUploaders
    split
    · exact ⟨readable_nil,rfl⟩
    next response hclear =>
      dsimp only
      generalize hcc : ({ cc with handle := u.h, request := wc.request, response := response
                                  directData := [], stack := lib.clearStack wc.stack } : CallContext J K) = cc₀
      have hleft : ∀ text, (u.f cc₀).2.text lib = some text → Left lib es u.h text (.run u.ix cc₀) :=
        fun text htext => ⟨u.f,hu,hcc ▸ rfl,htext⟩
      have hread := readable_respond wc hlzo (show (Effect.run u.ix cc₀).bodied = false from rfl) (by trivial)
        hleft
      have hkeep : (respond lib true (wc.update (u.f cc₀).2) u.h).1.uploaders = wc.uploaders :=
        (respond_spec _ _).2
      split
      · exact ⟨readable_singleton rfl (by trivial),rfl⟩
      · exact ⟨(readable_singleton rfl (by simp [Compresses])).cons rfl (by trivial),rfl⟩
      · split
        next wc₁ effect heq =>
          rw [heq] at hread hkeep
          exact ⟨hread,hkeep⟩
        next wc₁ effect heq =>
          rw [heq] at hread hkeep
          obtain ⟨heffects,hlist⟩ := ih wc₁ (fun u' hu' => hus u' (List.mem_cons_of_mem u hu')) (u.f cc₀).2
          exact ⟨hread.append heffects,hlist.trans hkeep⟩

variable (ix) in
theorem readable_eventHandler (hlzo : lib.compress = lzo1x1Compress)
    (hus : ∀ u ∈ wc.uploaders, Registered es u) :
    Readable lib es (eventHandler lib true ix wc).2.1 ∧
      (eventHandler lib true ix wc).1.uploaders ⊆ wc.uploaders := by
  unfold eventHandler
  split
  · exact ⟨readable_nil,List.Subset.refl _⟩
  next request hclear =>
    obtain ⟨heffects,hlist⟩ := readable_runUploaders { wc with request := request } hlzo hus
      ⟨0,request,wc.response,wc.directData,ix,false,wc.stack⟩
    dsimp only
    split
    next wc₁ effects heq =>
      rw [heq] at heffects
      exact ⟨heffects,List.nil_subset _⟩
    next wc₁ effects walk hwalk heq =>
      rw [heq] at heffects hlist
      exact ⟨heffects,fun u hu => hlist ▸ hu⟩

/-- Everything that is done is readable, and the uploaders that wait are known. -/
structure AllReadable (lib : Library J K) (es : List (Event J K)) (s : State J K) : Prop where
  effects : Readable lib es s.effects
  registered : s.registered.length = (es.filterMap Event.uploader?).length
  uploaders : ∀ u ∈ s.wc.uploaders, Registered es u

theorem allReadable_step (hlzo : lib.compress = lzo1x1Compress) {s t : State J K} {e : Event J K}
    (h : AllReadable lib es s) (hstep : step lib true ix s e = some t) :
    AllReadable lib (es ++ [e]) t := by
  have huploaders : ∀ u ∈ s.wc.uploaders, Registered (es ++ [e]) u := by
    intro u hu
    have hold := h.uploaders u hu
    rw [Registered,List.filterMap_append,
      List.getElem?_append_left (List.getElem?_eq_some_iff.mp hold).1]
    exact hold
  cases e with
  | request req rh =>
    unfold step at hstep
    dsimp only at hstep
    split at hstep
    · cases hstep
    · cases hstep
      refine ⟨h.effects.mono.append (readable_processRequest hlzo (by simp)),?_,?_⟩
      · rw [List.filterMap_append,List.length_append]
        exact h.registered
      · rw [(@processRequest_spec _ _ lib true rh ix s.wc req).2]
        exact huploaders
  | registerUploader r f =>
    unfold step at hstep
    dsimp only at hstep
    split at hstep
    · cases hstep
      refine ⟨h.effects.mono,by simp [Event.uploader?,h.registered],fun u hu => ?_⟩
      obtain hu | hu := List.mem_append.mp hu
      · exact huploaders u hu
      · rw [List.mem_singleton.mp hu]
        simp [Registered,Event.uploader?,h.registered]
    · cases hstep
  | upload =>
    unfold step at hstep
    dsimp only at hstep
    split at hstep
    · cases hstep
    · cases hstep
      obtain ⟨hdone,hleft⟩ := readable_eventHandler ix hlzo huploaders
      refine ⟨h.effects.mono.append hdone,?_,fun u hu => huploaders u (hleft hu)⟩
      rw [List.filterMap_append,List.length_append]
      exact h.registered

theorem allReadable_exec (hlzo : lib.compress = lzo1x1Compress) {s t : State J K} {es' : List (Event J K)}
    (h : AllReadable lib es s) (hexec : (system lib true ix).exec s es' = some t) :
    AllReadable lib (es ++ es') t := by
  induction es' generalizing s es with
  | nil =>
    cases hexec
    simpa using h
  | cons e es' ih =>
    obtain ⟨u,hu,hrest⟩ := Option.bind_eq_some_iff.mp hexec
    have hnext := ih (allReadable_step hlzo h hu) hrest
    rwa [List.append_assoc] at hnext

/-- In every run of a compressing worker a body that is sent directly follows the call of the handler
of its request, or of an uploader registered for it, and is read back as the text that this call left;
and compression does not fail. -/
theorem readable_of_exec (hlzo : lib.compress = lzo1x1Compress) (wc : WorkerContext J K)
    {s : State J K} (h : (system lib true ix).exec (initial wc) es = some s) :
    (∀ e ∈ s.effects, Compresses e) ∧ ∀ before handle code reason headers body after,
      s.effects = before ++ .reply handle code reason headers (some body)::after →
        ∃ earlier call text, before = earlier ++ [call] ∧ Left lib es handle text call ∧
          Carries headers body text := by
  have hinit : AllReadable lib [] (initial wc) := ⟨readable_nil,rfl,by simp [initial]⟩
  have hread := (allReadable_exec hlzo hinit h).effects
  refine ⟨hread.compresses,fun before handle code reason headers body after heffects => ?_⟩
  have hhead := hread.head
  have hchain := hread.chain
  rw [heffects] at hhead hchain
  rcases List.eq_nil_or_concat' before with rfl | ⟨earlier,call,rfl⟩
  · cases hhead _ rfl
  · rw [List.append_assoc,List.singleton_append,List.isChain_append_cons_cons] at hchain
    obtain ⟨text,hleft,hcarries⟩ := hchain.2.1
    exact ⟨earlier,call,text,rfl,hleft,hcarries⟩

end

/-- The library of the plain server with the compressor of minilzo. -/
def lzoLibrary : Library ℕ Unit := { plainLibrary with compress := lzo1x1Compress }

/-- The two uploaders of the batch are answered for, the last with the text of its own context. -/
theorem readable_of_exec_batch :
    let run := (system lzoLibrary true 0).exec (initial ⟨(),[],[],[],0,0,[],[]⟩) batch
    run.map (fun s => s.effects.map Effect.bodied) =
      some [false,false,false,false,false,false,false,true,false,true] ∧
    ∀ s, run = some s → ∀ before handle code reason headers body,
      s.effects = before ++ [.reply handle code reason headers (some body)] →
        ∃ earlier call text, before = earlier ++ [call] ∧ Left lzoLibrary batch handle text call ∧
          Carries headers body text :=
  ⟨by decide +kernel,fun _ hs before handle code reason headers body heffects =>
    (readable_of_exec rfl _ hs).2 before handle code reason headers body [] heffects⟩

end HttpServer
end SdkCp
