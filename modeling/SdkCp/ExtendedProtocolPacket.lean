import SdkCp.ExtendedProtocol

/-! The packets of the encoder against the decoder. The encoder does not write the hash of the header:
the bytes of the request are still there. -/
namespace SdkCp
namespace ExtendedProtocol

open Bytes Dataport
open HttpServer (LZO_E_OK)

/-- What the code relies on for a text: the compressor succeeds within the room that its documentation
asks for, its output is closed by the end marker, and the decompressor inverts it. -/
structure Faithful (lzo : Minilzo) (text : List UInt8) : Prop where
  ok : (lzo.compress text).1 = LZO_E_OK
  room : (lzo.compress text).2.length ≤ text.length+text.length/16+64+3
  marker : [17,0,0] <:+ (lzo.compress text).2
  inverts : lzo.decompress (lzo.compress text).2 = (LZO_E_OK,text)

section
variable {v m r : List UInt8}

theorem crc32_resize (v : List UInt8) {n : ℕ} (hn : kHeaderSize ≤ n) :
    (NetHeader.ofBytes (resize v n)).crc32 = (NetHeader.ofBytes v).crc32 := by
  have hheld : ((v.take n).drop 5).take 4 = (v.drop 5).take 4 := by
    rw [List.drop_take,List.take_take,min_eq_left]
    exact Nat.le_sub_of_add_le hn
  simp only [NetHeader.ofBytes,resize,List.drop_append,List.take_append,List.drop_replicate,
    List.take_replicate,hheld,ofLE_append_zeros]

theorem split_packet {k : ℕ} (hroom : kHeaderSize+k ≤ v.length) : ∃ a size held room tail,
    v = a::(size ++ (held ++ (room ++ tail))) ∧ size.length = 4 ∧ held.length = 4 ∧ room.length = k := by
  cases v with
  | nil => exact absurd hroom (by simp [kHeaderSize])
  | cons a v =>
    simp only [List.length_cons,kHeaderSize,kHeaderDataSize] at hroom
    refine ⟨a,v.take 4,(v.drop 4).take 4,(v.drop 8).take k,(v.drop 8).drop k,?_,?_,?_,?_⟩
    · have hrest : (v.drop 4).drop 4 = v.drop 8 := List.drop_drop
      rw [List.take_append_drop,← hrest,List.take_append_drop,List.take_append_drop]
    all_goals
      simp only [List.length_take,List.length_drop]
      omega

theorem take_packet {f : UInt8} {out : List UInt8} (n : ℕ) (hroom : kHeaderSize+out.length ≤ v.length) :
    (memcpy (memcpy (memcpy v kHeaderSize out) 0 [f]) 1 (leBytes 4 n)).take (out.length+kHeaderSize) =
      f::(leBytes 4 n ++ ((v.drop 5).take 4 ++ out)) := by
  obtain ⟨a,size,held,room,tail,rfl,hsize,hheld,hlen⟩ := split_packet hroom
  have hout : memcpy (a::(size ++ (held ++ (room ++ tail)))) kHeaderSize out =
      a::(size ++ (held ++ (out ++ tail))) := by
    have hfront : (a::(size ++ held)).length = kHeaderSize := by
      rw [List.length_cons,List.length_append,hsize,hheld]
      rfl
    rw [← hfront]
    simpa using memcpy_append (l:=a::(size ++ held)) (r:=tail) hlen
  have hflag (w : List UInt8) : memcpy (a::w) 0 [f] = f::w := rfl
  have hlow (w : List UInt8) : memcpy (f::(size ++ w)) 1 (leBytes 4 n) = f::(leBytes 4 n ++ w) :=
    memcpy_append (l:=[f]) (hsize.trans (leBytes_length 4 n).symm)
  have hheld' : ((a::(size ++ (held ++ (room ++ tail)))).drop 5).take 4 = held := by
    rw [List.drop_succ_cons,List.drop_left' hsize,List.take_left' hheld]
  rw [hout,hflag,hlow,hheld']
  have hlength : (f::(leBytes 4 n ++ (held ++ out))).length = out.length+kHeaderSize := by
    simp [hheld,kHeaderSize,kHeaderDataSize]
    omega
  have htail : f::(leBytes 4 n ++ (held ++ (out ++ tail))) = f::(leBytes 4 n ++ (held ++ out)) ++ tail := by
    simp
  rw [htail,List.take_left' hlength]

theorem ofBytes_packet {f : UInt8} {n : ℕ} (hn : n < 2^32) (hm : m.length = 4) :
    NetHeader.ofBytes (f::(leBytes 4 n ++ (m ++ r))) = ⟨f,n,UInt32.ofNat (ofLE m)⟩ := by
  have hsize : (leBytes 4 n ++ (m ++ r)).take 4 = leBytes 4 n := List.take_left' (leBytes_length 4 n)
  have hcrc : ((leBytes 4 n ++ (m ++ r)).drop 4).take 4 = m := by
    rw [List.drop_left' (leBytes_length 4 n),List.take_left' hm]
  rw [NetHeader.ofBytes]
  congr 1
  · rw [List.drop_succ_cons,List.drop_zero,hsize,ofLE_leBytes 4 n hn]
  · rw [List.drop_succ_cons,hcrc]

end

section
variable {lzo : Minilzo} {text : List UInt8}

/-- Five bytes of the packet are the header, the hash is the request's, and the compressed text follows. -/
theorem encode_faithful (h : Faithful lzo text) (request : List UInt8) : ∃ buffer held,
    encode lzo request text = some (buffer,some (SERVER_FLAG_COMPRESSED::
      (leBytes 4 text.length ++ (held ++ (lzo.compress text).2)))) ∧
    held.length = 4 ∧ UInt32.ofNat (ofLE held) = (NetHeader.ofBytes request).crc32 := by
  rcases hout : lzo.compress text with ⟨result,out⟩
  have hresult : result = LZO_E_OK := (congrArg Prod.fst hout).symm.trans h.ok
  have hlen : out.length ≤ text.length+text.length/16+64+3 :=
    (congrArg (·.2.length) hout).symm.trans_le h.room
  obtain ⟨resized,hresized⟩ : ∃ v, v = resize request (kHeaderSize+text.length+text.length/16+64+3) := ⟨_,rfl⟩
  have hlength : resized.length = kHeaderSize+text.length+text.length/16+64+3 := by
    rw [hresized,length_resize]
  have hroom : kHeaderSize+out.length ≤ resized.length := by omega
  refine ⟨memcpy (memcpy (memcpy resized kHeaderSize out) 0 [SERVER_FLAG_COMPRESSED]) 1
    (leBytes 4 text.length),(resized.drop 5).take 4,?_,?_,?_⟩
  · simp only [encode,hout,← hresized,if_neg (not_lt.mpr hroom),hresult,ne_eq,not_true_eq_false,if_false,
      take_packet text.length hroom]
  · rw [List.length_take,List.length_drop,hlength]
    simp only [kHeaderSize,kHeaderDataSize]
    omega
  · refine Eq.trans ?_ (crc32_resize request (n:=kHeaderSize+text.length+text.length/16+64+3) (by omega))
    rw [hresized,NetHeader.ofBytes]

theorem receive_packet (h : Faithful lzo text) {packet : List UInt8} (un : List UInt8)
    (haccepted : Accepted packet) (hflags : (NetHeader.ofBytes packet).flags = SERVER_FLAG_COMPRESSED)
    (hsize : (NetHeader.ofBytes packet).size = text.length)
    (hdata : packet.drop kHeaderSize = (lzo.compress text).2) :
    receive lzo packet un = (text,.handed ⟨text,text.length,text.length⟩) := by
  have hmemcpy : memcpy (resize un text.length) 0 text = text := by
    rw [memcpy,List.take_zero,List.nil_append,List.drop_of_length_le,List.append_nil]
    exact ((length_resize un text.length).trans (Nat.zero_add _).symm).le
  have hout : lzo.decompress (packet.drop kHeaderSize) = (LZO_E_OK,text) :=
    (congrArg lzo.decompress hdata).trans h.inverts
  have hflag : (NetHeader.ofBytes packet).flags &&& SERVER_FLAG_COMPRESSED ≠ 0 := by
    rw [hflags]
    decide
  rw [receive_compressed lzo un haccepted hflag hout]
  simp only [hsize,gt_iff_lt,lt_irrefl,if_false,hmemcpy,ne_eq,not_true_eq_false]

/-- The packet passes the check if the request's hash is the packet's too, and is then read back. -/
theorem encode_spec (h : Faithful lzo text) (hsmall : text.length ≤ kServerMaxRequestSize)
    (request : List UInt8) : ∃ buffer packet, encode lzo request text = some (buffer,some packet) ∧
      (Accepted packet ↔ (NetHeader.ofBytes request).crc32 =
        fnv1aHashBytes32 (SERVER_FLAG_COMPRESSED::leBytes 4 text.length)) ∧
      (Accepted packet → ∀ un,
        receive lzo packet un = (text,.handed ⟨text,text.length,text.length⟩)) := by
  obtain ⟨buffer,held,hencode,hheld,hcrc⟩ := encode_faithful h request
  have hn : text.length < 2^32 := hsmall.trans_lt (by decide)
  have hheader := ofBytes_packet (f:=SERVER_FLAG_COMPRESSED) (r:=(lzo.compress text).2) hn hheld
  set packet := SERVER_FLAG_COMPRESSED::(leBytes 4 text.length ++ (held ++ (lzo.compress text).2))
  have htake : packet.take kHeaderDataSize = SERVER_FLAG_COMPRESSED::leBytes 4 text.length :=
    congrArg _ (List.take_left' (leBytes_length 4 text.length))
  have hfront : (SERVER_FLAG_COMPRESSED::(leBytes 4 text.length ++ held)).length = kHeaderSize := by
    rw [List.length_cons,List.length_append,leBytes_length,hheld]
    rfl
  have hpacket : packet = SERVER_FLAG_COMPRESSED::(leBytes 4 text.length ++ held) ++ (lzo.compress text).2 :=
    congrArg _ (List.append_assoc ..).symm
  have hdrop : packet.drop kHeaderSize = (lzo.compress text).2 := by rw [hpacket,List.drop_left' hfront]
  refine ⟨buffer,packet,hencode,⟨fun haccepted => ?_,fun hsame => ⟨?_,?_,?_⟩⟩,fun haccepted un => ?_⟩
  · have hhash := haccepted.hash
    rwa [hheader,htake,hcrc] at hhash
  · have hmarker := h.marker.length_le
    rw [hpacket,List.length_append,hfront]
    exact Nat.lt_add_of_pos_right (Nat.lt_of_lt_of_le (by decide) hmarker)
  · rwa [hheader]
  · rw [hheader,htake]
    exact hcrc.trans hsame
  · exact receive_packet h un haccepted (by rw [hheader]) (by rw [hheader]) hdrop

end

/-- The packet for a text passes the check of the header, and the decoder hands on that text. -/
def Returns (lzo : Minilzo) (request un text : List UInt8) : Prop :=
  ∃ buffer packet left range, encode lzo request text = some (buffer,some packet) ∧ Accepted packet ∧
    receive lzo packet un = (left,.handed range) ∧ range.size = text.length ∧
    range.memory.take range.size = text

/-- The packet is read back if and only if the request's hash is that of the packet's header. -/
theorem returns_iff (lzo : Minilzo) (request un text : List UInt8) (h : Faithful lzo text)
    (hsmall : text.length ≤ kServerMaxRequestSize) :
    Returns lzo request un text ↔ (NetHeader.ofBytes request).crc32 =
      fnv1aHashBytes32 (SERVER_FLAG_COMPRESSED::leBytes 4 text.length) := by
  obtain ⟨buffer,packet,hencode,haccepted,hreceive⟩ := encode_spec h hsmall request
  rw [← haccepted]
  constructor
  · rintro ⟨buffer',packet',left,range,hencode',hpacket',-⟩
    cases hencode.symm.trans hencode'
    exact hpacket'
  · intro hpacket
    exact ⟨buffer,packet,_,_,hencode,hpacket,hreceive hpacket un,rfl,List.take_length⟩

/-- What minilzo does with up to 238 bytes in which nothing repeats: one run of literals. -/
def literalRun : Minilzo where
  compress text := (LZO_E_OK,(if text = [] then [] else UInt8.ofNat (17+text.length)::text) ++ [17,0,0])
  decompress data := (LZO_E_OK,(data.drop 1).take ((data.getD 0 0).toNat-17))

theorem literalRun_faithful : Faithful literalRun [0x7b,0x7d] where
  ok := rfl
  room := by decide
  marker := ⟨[19,0x7b,0x7d],rfl⟩
  inverts := rfl

/-- A compressed request of as many bytes as the answer. -/
theorem returns_same_header : Returns literalRun [1,2,0,0,0,110,6,194,107,19,0x7b,0x7d,17,0,0] [] [0x7b,0x7d] :=
  (returns_iff literalRun _ [] _ literalRun_faithful (by decide)).mpr (by decide)

/-- The answer to a request that is not compressed: the request's hash is not the packet's. -/
theorem not_returns : ¬∀ (lzo : Minilzo) (request un text : List UInt8), Faithful lzo text →
    text.length ≤ kServerMaxRequestSize → Accepted request → Returns lzo request un text := by
  intro h
  have haccepted : Accepted [0,2,0,0,0,237,81,184,113,0x7b,0x7d] := ⟨by decide,by decide,by decide⟩
  obtain ⟨buffer,packet,left,range,hencode,hpacket,-⟩ :=
    h literalRun _ [] [0x7b,0x7d] literalRun_faithful (by decide) haccepted
  obtain ⟨buffer',packet',hencode',hiff,-⟩ := encode_spec literalRun_faithful (by decide)
    [0,2,0,0,0,237,81,184,113,0x7b,0x7d]
  cases hencode.symm.trans hencode'
  have hsame := hiff.mp hpacket
  revert hsame
  decide

section
variable {J : Type*} {lib : Library J} {rh : RequestHandler J} {wc wc' : WorkerContext J}
  {inBuf : List UInt8} {effects : List (Effect J)} {code : ℕ} {reason : String}
  {headers : List (String × String)} {body : List UInt8}

/-- A packet is built over the request, which has passed the check itself, for the response that the
handler leaves to the parsed request. -/
theorem processRequest_reply (h : processRequest lib rh wc inBuf = some (wc',effects))
    (hreply : .reply code reason headers body ∈ effects) (hne : body ≠ []) :
    Accepted inBuf ∧ ∃ buffer data request request' response,
      effects = [.parse data,.call request,.reply code reason headers body] ∧
      lib.parse data wc.request = (true,request) ∧
      rh request (lib.clear wc.response) = (true,request',response) ∧
      encode lib.lzo inBuf (lib.write response) = some (buffer,some body) := by
  have haccepted : Accepted inBuf := by
    by_contra hnot
    obtain ⟨reason',hrefused⟩ := receive_of_not_accepted lib.lzo wc.uncompressedData hnot
    obtain ⟨left,reason,-,rfl⟩ | ⟨left,range,wc₁,hreceive,-⟩ := processRequest_cases h
    · simp at hreply
    · cases hrefused.symm.trans hreceive
  refine ⟨haccepted,?_⟩
  obtain ⟨left,reason,-,rfl⟩ | ⟨left,range,wc₁,-,hdata,hrequest,hresponse,hparse⟩ := processRequest_cases h
  · simp at hreply
  rw [if_pos haccepted.longer] at hdata
  obtain ⟨-,answer,rfl,hanswer⟩ := parseRequest_cases hparse
  obtain ⟨code,reason,rfl⟩ | ⟨request,code,reason,rfl⟩ | ⟨request,wc₂,effect,rfl,hsame,hparsed,hrh,hrespond⟩ :=
    hanswer
  · simp at hreply
  · simp at hreply
  obtain ⟨code,reason,rfl⟩ | ⟨packet,rfl,hpacket⟩ := respond_cases hrespond
  · simp at hreply
  simp only [List.mem_cons,reduceCtorEq,Effect.reply.injEq,List.not_mem_nil,or_false,false_or] at hreply
  obtain ⟨rfl,rfl,rfl,rfl⟩ := hreply
  obtain hempty | ⟨buffer,hencode⟩ := hpacket
  · exact absurd hempty hne
  · rw [hsame,hdata] at hencode
    rw [hrequest] at hparsed
    rw [hresponse] at hrh
    exact ⟨buffer,_,request,_,_,rfl,hparsed,hrh,hencode⟩

/-- The packet of an answer passes the check if and only if its header and the one of the request it
answers have one hash. -/
theorem processRequest_reply_accepted (hfaithful : ∀ text, Faithful lib.lzo text)
    (h : processRequest lib rh wc inBuf = some (wc',effects))
    (hreply : .reply code reason headers body ∈ effects) (hne : body ≠ []) : ∃ buffer response,
      encode lib.lzo inBuf (lib.write response) = some (buffer,some body) ∧
      ((lib.write response).length ≤ kServerMaxRequestSize →
        (Accepted body ↔ fnv1aHashBytes32 (inBuf.take kHeaderDataSize) =
          fnv1aHashBytes32 (SERVER_FLAG_COMPRESSED::leBytes 4 (lib.write response).length))) := by
  obtain ⟨haccepted,buffer,-,-,-,response,-,-,-,hencode⟩ := processRequest_reply h hreply hne
  refine ⟨buffer,response,hencode,fun hsmall => ?_⟩
  obtain ⟨buffer',packet,hencode',hiff,-⟩ := encode_spec (hfaithful _) hsmall inBuf
  cases hencode.symm.trans hencode'
  rw [← haccepted.hash]
  exact hiff

end

end ExtendedProtocol
end SdkCp
