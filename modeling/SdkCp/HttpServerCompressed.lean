import SdkCp.HttpServer

/-! Requests with the header `Accept-Compression: lzo` beside the same requests without
it. The first test of the decompressor's result code turns every body it could restore
away, so the two agree only where the body is not looked at. -/
namespace SdkCp
namespace HttpServer

variable {J K : Type*}

def Effect.parse? : Effect J K → Option (List UInt8)
  | .parse data => some data
  | _ => none

def Effect.call? : Effect J K → Option J
  | .call cc => some cc.request
  | _ => none

def Effect.answer? : Effect J K → Option (Effect J K)
  | .reply handle code reason headers body => some (.reply handle code reason headers body)
  | .error handle code reason headers => some (.error handle code reason headers)
  | _ => none

@[simp] theorem parse?_parse (data : List UInt8) :
    (Effect.parse data : Effect J K).parse? = some data := rfl

@[simp] theorem parse?_call (cc : CallContext J K) : (Effect.call cc).parse? = none := rfl

@[simp] theorem parse?_error (handle code : ℕ) (reason : String) (headers : List (String × String)) :
    (Effect.error handle code reason headers : Effect J K).parse? = none := rfl

@[simp] theorem answer?_error (handle code : ℕ) (reason : String)
    (headers : List (String × String)) :
    (Effect.error handle code reason headers : Effect J K).answer? =
      some (.error handle code reason headers) := rfl

/-- The same bytes parsed, the handler called with the same request, the same reply. -/
structure Agrees (es₁ es₂ : List (Effect J K)) : Prop where
  parsed : es₁.filterMap Effect.parse? = es₂.filterMap Effect.parse?
  called : es₁.filterMap Effect.call? = es₂.filterMap Effect.call?
  answered : es₁.filterMap Effect.answer? = es₂.filterMap Effect.answer?

/-- An `Accept-Compression: lzo` header. -/
def IsLzo (kv : String × String) : Prop :=
  strcasecmp kv.1 "Accept-Compression" = true ∧ strcasecmp kv.2 "lzo" = true

/-- An `Accept-Compression` header with another value. -/
def IsUnsupported (kv : String × String) : Prop :=
  strcasecmp kv.1 "Accept-Compression" = true ∧ strcasecmp kv.2 "lzo" = false

theorem scanHeaders_cons_lzo {kv : String × String} (h : IsLzo kv) (kvs : List (String × String)) :
    scanHeaders (kv::kvs) = .lzo := by
  rw [scanHeaders,if_pos h.1,if_pos h.2]

theorem scanHeaders_cons_unsupported {kv : String × String} (h : IsUnsupported kv)
    (kvs : List (String × String)) : scanHeaders (kv::kvs) = .unsupported := by
  rw [scanHeaders,if_pos h.1,if_neg (by simp [h.2])]

theorem scanHeaders_cons_other {kv : String × String} (h : ¬IsLzo kv) (h' : ¬IsUnsupported kv)
    (kvs : List (String × String)) : scanHeaders (kv::kvs) = scanHeaders kvs := by
  rw [scanHeaders,if_neg]
  intro hk
  cases hv : strcasecmp kv.2 "lzo" with
  | true => exact h ⟨hk,hv⟩
  | false => exact h' ⟨hk,hv⟩

variable {pre : List (String × String)}

theorem scanHeaders_unsupported (hlzo : ∀ kv ∈ pre, ¬IsLzo kv) (h : ∃ kv ∈ pre, IsUnsupported kv)
    (kvs : List (String × String)) : scanHeaders (pre ++ kvs) = .unsupported := by
  induction pre with
  | nil => simp at h
  | cons kv pre ih =>
    rw [List.cons_append]
    by_cases hkv : IsUnsupported kv
    · exact scanHeaders_cons_unsupported hkv _
    · rw [scanHeaders_cons_other (hlzo kv (by simp)) hkv]
      refine ih (fun x hx => hlzo x (by simp [hx])) ?_
      obtain ⟨x,hx,hu⟩ := h
      rcases List.mem_cons.mp hx with rfl | hx
      · exact absurd hu hkv
      · exact ⟨x,hx,hu⟩

theorem scanHeaders_append (hlzo : ∀ kv ∈ pre, ¬IsLzo kv) (h : ∀ kv ∈ pre, ¬IsUnsupported kv)
    (kvs : List (String × String)) : scanHeaders (pre ++ kvs) = scanHeaders kvs := by
  induction pre with
  | nil => rfl
  | cons kv pre ih =>
    rw [List.cons_append,scanHeaders_cons_other (hlzo kv (by simp)) (h kv (by simp))]
    exact ih (fun x hx => hlzo x (by simp [hx])) (fun x hx => h x (by simp [hx]))

theorem scanHeaders_ne_lzo {kvs : List (String × String)} (hlzo : ∀ kv ∈ kvs, ¬IsLzo kv) :
    scanHeaders kvs ≠ .lzo := by
  by_cases h : ∃ kv ∈ kvs, IsUnsupported kv
  · have hs := scanHeaders_unsupported hlzo h []
    rw [List.append_nil] at hs
    simp [hs]
  · have hs := scanHeaders_append hlzo (fun kv hkv hu => h ⟨kv,hkv,hu⟩) []
    rw [List.append_nil] at hs
    simp [hs,scanHeaders]

theorem parse?_of_answered {e : Effect J K} {h : ℕ} (he : e.answered? = some h) :
    e.parse? = none := by
  cases e <;> simp_all [Effect.answered?,Effect.parse?]

variable {lib : Library J K} {compression : Bool}

theorem processData_parsed (rh : Handler J K) (ix : ℕ) (wc : WorkerContext J K) (req : Request)
    (data : List UInt8) :
    (processData lib compression rh ix wc req data).2.filterMap Effect.parse? = [data] := by
  unfold processData
  dsimp only
  split
  · rfl
  · rfl
  · split
    · rfl
    · split
      · rfl
      · rfl
      · split
        · rfl
        · simp [parse?_of_answered (respond_spec _ _).1]

variable {rh : Handler J K} {ix : ℕ} {wc : WorkerContext J K} {handle : ℕ} {type : CmdType}
  {kvs : List (String × String)} {body : List UInt8}

theorem processRequest_unsupported (htype : type ≠ .options) (hbody : body ≠ [])
    (h : scanHeaders kvs = .unsupported) :
    processRequest lib compression rh ix wc ⟨handle,type,kvs,body⟩ =
      (wc,[.error handle HTTP_BADREQUEST "Unsupported compression type." []]) := by
  simp [processRequest,htype,hbody,h]

theorem processRequest_plain (htype : type ≠ .options) (hbody : body ≠ [])
    (h : scanHeaders kvs = .plain) :
    processRequest lib compression rh ix wc ⟨handle,type,kvs,body⟩ =
      processData lib compression rh ix { wc with requestData := body } ⟨handle,type,kvs,body⟩ body := by
  simp [processRequest,htype,hbody,h]

theorem processRequest_lzo (htype : type ≠ .options) (hbody : body ≠ [])
    (h : scanHeaders kvs = .lzo) {d : List UInt8}
    (hd : lib.decompress body uncompressedSize = (LZO_E_OK,d)) :
    (processRequest lib compression rh ix wc ⟨handle,type,kvs,body⟩).2 =
      [.error handle HTTP_BADREQUEST "Big request." []] := by
  simp [processRequest,htype,hbody,h,hd]

/-- The compressed path agrees with the plain one only where neither looks at the body:
on `OPTIONS`, or when an unsupported compression is named before `lzo`. -/
theorem compressed_agrees_iff {Compresses : List UInt8 → List UInt8 → Prop}
    (hlzo : ∀ c d n, Compresses c d → d.length ≤ n → lib.decompress c n = (LZO_E_OK,d))
    (hmarker : ∀ d, ¬Compresses [] d)
    {pre post : List (String × String)} {kv : String × String} (hkv : IsLzo kv)
    (hother : ∀ x ∈ pre ++ post, ¬IsLzo x) {c d : List UInt8} (hc : Compresses c d)
    (hpos : 0 < d.length) (hle : d.length ≤ 4*1024*1024) (rh : Handler J K) (ix : ℕ)
    (wc : WorkerContext J K) (handle : ℕ) (type : CmdType) :
    Agrees (processRequest lib compression rh ix wc ⟨handle,type,pre ++ kv::post,c⟩).2
        (processRequest lib compression rh ix wc ⟨handle,type,pre ++ post,d⟩).2 ↔
      type = .options ∨ ∃ x ∈ pre, IsUnsupported x := by
  have hd : d ≠ [] := List.length_pos_iff.mp hpos
  have hc' : c ≠ [] := fun h => hmarker d (h ▸ hc)
  have hpre : ∀ x ∈ pre, ¬IsLzo x := fun x hx => hother x (by simp [hx])
  by_cases htype : type = .options
  · simp only [processRequest,htype,if_true,true_or,iff_true]
    exact ⟨rfl,rfl,rfl⟩
  by_cases hun : ∃ x ∈ pre, IsUnsupported x
  · rw [processRequest_unsupported htype hc' (scanHeaders_unsupported hpre hun _),
      processRequest_unsupported htype hd (scanHeaders_unsupported hpre hun _)]
    exact iff_of_true ⟨rfl,rfl,rfl⟩ (.inr hun)
  have hscan : scanHeaders (pre ++ kv::post) = .lzo := by
    rw [scanHeaders_append hpre (fun x hx hu => hun ⟨x,hx,hu⟩),scanHeaders_cons_lzo hkv]
  rw [processRequest_lzo htype hc' hscan (hlzo c d _ hc hle)]
  refine iff_of_false (fun h => ?_) (by simp [htype,hun])
  cases hs : scanHeaders (pre ++ post) with
  | lzo => exact scanHeaders_ne_lzo hother hs
  | unsupported =>
    rw [processRequest_unsupported htype hd hs] at h
    have hreason := h.answered
    simp at hreason
  | plain =>
    rw [processRequest_plain htype hd hs] at h
    have hparse := h.parsed
    rw [processData_parsed] at hparse
    simp [List.filterMap_cons] at hparse

/-- A library that knows one compressed text, `{}` as minilzo packs it. -/
def bracesLibrary : Library ℕ Unit where
  parse _ _ := (.parsed,0)
  clear _ := some 0
  empty root := root == 0
  write _ := []
  compress d := (LZO_E_OK,d)
  decompress c _ := if c = [19,123,125,17,0,0] then (LZO_E_OK,[123,125]) else (LZO_E_INPUT_OVERRUN,[])
  clearStack := id

def bracesContext : WorkerContext ℕ Unit := ⟨(),[],[],[],0,0,[],[]⟩

theorem compressed_agrees_iff_braces :
    Agrees (processRequest bracesLibrary false (fun cc => (.returns true,cc)) 0 bracesContext
        ⟨1,.post,[("accept-compression","LZO")],[19,123,125,17,0,0]⟩).2
      (processRequest bracesLibrary false (fun cc => (.returns true,cc)) 0 bracesContext
        ⟨1,.post,[],[123,125]⟩).2 ↔
    CmdType.post = .options ∨ ∃ x ∈ ([] : List (String × String)), IsUnsupported x :=
  compressed_agrees_iff
    (show ∀ c d n, (c = [19,123,125,17,0,0] ∧ d = [123,125]) → d.length ≤ n →
      bracesLibrary.decompress c n = (LZO_E_OK,d) by rintro _ _ n ⟨rfl,rfl⟩ -; rfl)
    (by simp) (show IsLzo ("accept-compression","LZO") from ⟨by decide,by decide⟩)
    (show ∀ x ∈ ([] : List (String × String)) ++ [], ¬IsLzo x by simp) ⟨rfl,rfl⟩ (by decide)
    (by decide) _ 0 bracesContext 1 .post

/-- A correctly compressed `{}` is refused although its text is answered. -/
theorem not_agrees_braces :
    ¬Agrees (processRequest bracesLibrary false (fun cc => (.returns true,cc)) 0 bracesContext
        ⟨1,.post,[("Accept-Compression","lzo")],[19,123,125,17,0,0]⟩).2
      (processRequest bracesLibrary false (fun cc => (.returns true,cc)) 0 bracesContext
        ⟨1,.post,[],[123,125]⟩).2 := by
  intro h
  have hparse := h.parsed
  rw [processRequest_lzo (d:=[123,125]) (by decide) (by decide) (by decide) rfl,
    processRequest_plain (by decide) (by decide) rfl,processData_parsed] at hparse
  simp [List.filterMap_cons] at hparse

end HttpServer
end SdkCp
