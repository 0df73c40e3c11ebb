import SdkCp.HttpServer

/-! One answer for each request of a worker. `_event_handler` leaves the list of uploaders
as it is on every early exit, so a later `EV_UPLOAD` runs them again; the property holds in
the runs where no exit is taken. -/
namespace SdkCp
namespace HttpServer

open TransitionSystem

variable {J K : Type*}

/-- No request is answered twice, and the uploaders registered before the last `EV_UPLOAD`
have been run once each and their requests answered. -/
structure OneReply (s : State J K) : Prop where
  once : (answered s.effects).Nodup
  uploaded : ∀ i < s.uploaded, (ran s.effects).count i = 1 ∧
    ∃ h ∈ answered s.effects, s.registered[i]? = some h

variable (lib : Library J K) (compression : Bool)

/-- What a context gives to send, if anything. -/
def CallContext.text (cc : CallContext J K) : Option (List UInt8) :=
  if cc.directData ≠ [] then some cc.directData
  else if lib.empty cc.response = false then some (lib.write cc.response)
  else none

/-- There is something to send, and compressing it, where that is on, gives something. -/
def Sendable (cc : CallContext J K) : Prop :=
  ∃ data, cc.text lib = some data ∧
    if compression then (lib.compress data).1 = LZO_E_OK ∧ (lib.compress data).2 ≠ []
    else data ≠ []

/-- The uploaders, run one after another on the context, return true and leave something to
send, and no response they leave makes `clear` raise. -/
def Prepared (cc : CallContext J K) : List (UploaderContext J K) → Prop
  | [] => True
  | u::us => ∃ response cc', lib.clear cc.response = some response ∧
      u.f { cc with handle := u.h, response := response, directData := []
                    stack := lib.clearStack cc.stack } = (.returns true,cc') ∧
      Sendable lib compression cc' ∧ Prepared cc' us

/-- The runs that take no early exit. An uploader is registered for a held request, once,
and on `EV_UPLOAD` the uploaders listed are prepared. -/
def Undisturbed (ix : ℕ) (s : State J K) : Event J K → Prop
  | .request _ _ => True
  | .registerUploader h _ => h ∈ owned s.effects ∧ h ∉ s.registered
  | .upload => ∃ request, lib.clear s.wc.request = some request ∧
      Prepared lib compression { handle := 0, request := request, response := s.wc.response
                                 directData := s.wc.directData, requestHandlerIx := ix
                                 hold := false, stack := s.wc.stack } s.wc.uploaders

variable {lib compression}

theorem sendData_sendable (wc : WorkerContext J K) (handle : ℕ) {data : List UInt8}
    (h : if compression then (lib.compress data).1 = LZO_E_OK ∧ (lib.compress data).2 ≠ []
      else data ≠ []) :
    ∃ wc' effect, sendData lib compression wc handle data = (wc',effect,true) ∧
      wc'.request = wc.request ∧ wc'.response = wc.response ∧ wc'.stack = wc.stack := by
  cases compression with
  | false =>
    rw [if_neg (by simp)] at h
    obtain ⟨b,bs,rfl⟩ := List.exists_cons_of_ne_nil h
    exact ⟨_,_,rfl,rfl,rfl,rfl⟩
  | true =>
    rw [if_pos rfl] at h
    obtain ⟨hok,hne⟩ := h
    obtain ⟨b,bs,hout⟩ := List.exists_cons_of_ne_nil hne
    simp only [sendData,compressResponse,if_true,hok,ne_eq,not_true_eq_false,if_false,hout]
    exact ⟨_,_,rfl,rfl,rfl,rfl⟩

theorem respond_sendable (wc : WorkerContext J K) (cc : CallContext J K) (handle : ℕ)
    (h : Sendable lib compression cc) :
    ∃ wc' effect, respond lib compression (wc.update cc) handle = (wc',effect,true) ∧
      effect.answered? = some handle ∧
      wc'.request = cc.request ∧ wc'.response = cc.response ∧ wc'.stack = cc.stack := by
  obtain ⟨data,htext,hdata⟩ := h
  have hanswered : (respond lib compression (wc.update cc) handle).2.1.answered? = some handle :=
    (respond_spec _ _).1
  have hsent : ∃ wc', respond lib compression (wc.update cc) handle =
        sendData lib compression wc' handle data ∧
      wc'.request = cc.request ∧ wc'.response = cc.response ∧ wc'.stack = cc.stack := by
    unfold CallContext.text at htext
    split at htext
    · rename_i hdirect
      obtain rfl := Option.some.inj htext
      exact ⟨wc.update cc,if_pos hdirect,rfl,rfl,rfl⟩
    · rename_i hdirect
      split at htext
      · rename_i hempty
        obtain rfl := Option.some.inj htext
        exact ⟨_,(if_neg hdirect).trans (if_pos hempty),rfl,rfl,rfl⟩
      · simp at htext
  obtain ⟨wc₁,hrespond,h₁,h₂,h₃⟩ := hsent
  obtain ⟨wc₂,effect,hsend,k₁,k₂,k₃⟩ := sendData_sendable wc₁ handle hdata
  rw [hrespond,hsend] at hanswered
  exact ⟨wc₂,effect,hrespond.trans hsend,hanswered,k₁.trans h₁,k₂.trans h₂,k₃.trans h₃⟩

/-- A prepared walk reaches the end, runs every uploader once and answers its request. -/
theorem runUploaders_prepared {us : List (UploaderContext J K)} {cc : CallContext J K}
    (h : Prepared lib compression cc us) {wc : WorkerContext J K}
    (hrequest : wc.request = cc.request) (hresponse : wc.response = cc.response)
    (hstack : wc.stack = cc.stack) :
    ∃ wc' effects, runUploaders lib compression wc cc us = (wc',effects,.finished) ∧
      ran effects = us.map (·.ix) ∧ answered effects = us.map (·.h) ∧ owned effects = [] := by
  induction us generalizing cc wc with
  | nil => exact ⟨wc,[],rfl,rfl,rfl,rfl⟩
  | cons u us ih =>
    obtain ⟨response,cc',hclear,hf,hsend,hrest⟩ := h
    obtain ⟨wc₁,effect,hrespond,hanswered,h₁,h₂,h₃⟩ := respond_sendable wc cc' u.h hsend
    obtain ⟨wc₂,effects,hwalk,hran,hansw,howned⟩ := ih hrest h₁ h₂ h₃
    have hstep : runUploaders lib compression wc cc (u::us) =
        (wc₂,.run u.ix { cc with handle := u.h, response := response, directData := []
                                 stack := lib.clearStack cc.stack }::effect::effects,.finished) := by
      rw [runUploaders,hresponse,hrequest,hstack]
      simp only [hclear,hf,hrespond,hwalk]
    obtain ⟨ha,ho,hr⟩ := answer_cons hanswered effects
    refine ⟨wc₂,_,hstep,?_,?_,?_⟩
    · rw [ran_run,hr,hran,List.map_cons]
    · rw [answered_run,ha,hansw,List.map_cons]
    · rw [owned_run,ho,howned]

/-- The first `k` uploaders registered have been run and their requests answered; the others
are listed, and their requests are held. -/
structure InvAt (s : State J K) (k : ℕ) : Prop where
  le : k ≤ s.registered.length
  uploaded_le : s.uploaded ≤ k
  pending_ix : s.wc.uploaders.map (·.ix) = List.range' k (s.registered.length-k)
  pending_h : s.wc.uploaders.map (·.h) = s.registered.drop k
  ran : ran s.effects = List.range k
  answered_nodup : (answered s.effects).Nodup
  registered_nodup : s.registered.Nodup
  done : ∀ h ∈ s.registered.take k, h ∈ answered s.effects
  registered_owned : ∀ h ∈ s.registered, h ∈ owned s.effects
  owned_answered : ∀ h ∈ owned s.effects, h ∈ answered s.effects → h ∈ s.registered.take k
  owned_received : ∀ h ∈ owned s.effects, h ∈ s.received
  answered_received : ∀ h ∈ answered s.effects, h ∈ s.received

def Inv (s : State J K) : Prop := ∃ k, InvAt s k

theorem inv_initial (wc : WorkerContext J K) : Inv (initial wc) :=
  ⟨0,by constructor <;> simp [initial,HttpServer.answered,HttpServer.ran,HttpServer.owned]⟩

variable {s t : State J K} {ix : ℕ}

theorem inv_request (h : Inv s) {req : Request} {rh : Handler J K}
    (hs : step lib compression ix s (.request req rh) = some t) : Inv t := by
  obtain ⟨k,h⟩ := h
  simp only [step] at hs
  split at hs
  · simp at hs
  rename_i hnew
  obtain rfl := Option.some.inj hs
  have hnew : req.handle ∉ s.received := fun hmem => hnew (.inr hmem)
  obtain ⟨⟨hran,honce⟩,hup⟩ := @processRequest_spec _ _ lib compression rh ix s.wc req
  have hans : req.handle ∉ answered s.effects := fun hmem => hnew (h.answered_received _ hmem)
  have hown : req.handle ∉ owned s.effects := fun hmem => hnew (h.owned_received _ hmem)
  refine ⟨k,{ h with
    pending_ix := ?_, pending_h := ?_, ran := ?_, answered_nodup := ?_, done := ?_
    registered_owned := ?_, owned_answered := ?_, owned_received := ?_, answered_received := ?_ }⟩
  all_goals dsimp only
  · rw [hup]
    exact h.pending_ix
  · rw [hup]
    exact h.pending_h
  · rw [ran_append,hran,List.append_nil]
    exact h.ran
  · rcases honce with ⟨ha,-⟩ | ⟨ha,-⟩
    · rw [answered_append,ha]
      exact h.answered_nodup.append (List.nodup_singleton _) (by simpa using hans)
    · rw [answered_append,ha,List.append_nil]
      exact h.answered_nodup
  · intro r hr
    rw [answered_append]
    exact List.mem_append_left _ (h.done r hr)
  · intro r hr
    rw [owned_append]
    exact List.mem_append_left _ (h.registered_owned r hr)
  · intro r ho ha
    rw [owned_append,List.mem_append] at ho
    rw [answered_append,List.mem_append] at ha
    rcases honce with ⟨ha',ho'⟩ | ⟨ha',ho'⟩
    · simp only [ho',List.not_mem_nil,or_false] at ho
      rcases ha with ha | ha
      · exact h.owned_answered r ho ha
      · rw [ha',List.mem_singleton] at ha
        exact absurd (ha ▸ ho) hown
    · simp only [ha',List.not_mem_nil,or_false] at ha
      rcases ho with ho | ho
      · exact h.owned_answered r ho ha
      · rw [ho',List.mem_singleton] at ho
        exact absurd (ho ▸ ha) hans
  · intro r hr
    rw [owned_append,List.mem_append] at hr
    rcases honce with ⟨-,ho⟩ | ⟨-,ho⟩ <;> simp only [ho,List.mem_singleton,List.not_mem_nil,or_false] at hr
    · exact List.mem_cons_of_mem _ (h.owned_received r hr)
    · rcases hr with hr | rfl
      · exact List.mem_cons_of_mem _ (h.owned_received r hr)
      · exact List.mem_cons_self
  · intro r hr
    rw [answered_append,List.mem_append] at hr
    rcases honce with ⟨ha,-⟩ | ⟨ha,-⟩ <;> simp only [ha,List.mem_singleton,List.not_mem_nil,or_false] at hr
    · rcases hr with hr | rfl
      · exact List.mem_cons_of_mem _ (h.answered_received r hr)
      · exact List.mem_cons_self
    · exact List.mem_cons_of_mem _ (h.answered_received r hr)

theorem inv_registerUploader (h : Inv s) {r : ℕ} {f : Handler J K}
    (hok : r ∈ owned s.effects ∧ r ∉ s.registered)
    (hs : step lib compression ix s (.registerUploader r f) = some t) : Inv t := by
  obtain ⟨k,h⟩ := h
  simp only [step] at hs
  split at hs
  swap
  · simp at hs
  obtain rfl := Option.some.inj hs
  have hk := h.le
  have htake : (s.registered ++ [r]).take k = s.registered.take k :=
    List.take_append_of_le_length hk
  refine ⟨k,{ h with
    le := ?_, pending_ix := ?_, pending_h := ?_, registered_nodup := ?_, done := ?_
    registered_owned := ?_, owned_answered := ?_ }⟩
  all_goals simp only [registerUploader,List.length_append,List.length_singleton,List.map_append,
    List.map_cons,List.map_nil,htake]
  · omega
  · rw [h.pending_ix,show s.registered.length+1-k = s.registered.length-k+1 by omega,
      List.range'_concat]
    congr 2
    omega
  · rw [h.pending_h,List.drop_append_of_le_length hk]
  · exact h.registered_nodup.append (List.nodup_singleton _) (by simpa using hok.2)
  · exact h.done
  · intro r' hr'
    rcases List.mem_append.mp hr' with hr' | hr'
    · exact h.registered_owned r' hr'
    · rw [List.mem_singleton.mp hr']
      exact hok.1
  · exact h.owned_answered

theorem inv_upload (h : Inv s) (hok : Undisturbed lib compression ix s .upload)
    (hs : step lib compression ix s .upload = some t) : Inv t := by
  obtain ⟨k,h⟩ := h
  obtain ⟨request,hclear,hprepared⟩ := hok
  obtain ⟨wc',effects,hwalk,hran,hansw,howned⟩ := runUploaders_prepared hprepared
    (show ({ s.wc with request := request } : WorkerContext J K).request = request from rfl) rfl rfl
  have hevent : eventHandler lib compression ix s.wc = ({ wc' with uploaders := [] },effects,.finished) := by
    rw [eventHandler]
    simp only [hclear,hwalk]
  simp only [step] at hs
  split at hs
  · simp at hs
  rw [hevent] at hs
  obtain rfl := Option.some.inj hs
  rw [h.pending_ix] at hran
  rw [h.pending_h] at hansw
  have hk := h.le
  have hdisjoint : ∀ r ∈ s.registered.drop k, r ∉ answered s.effects := by
    intro r hr ha
    have htake := h.owned_answered r (h.registered_owned r (List.mem_of_mem_drop hr)) ha
    have hsplit := h.registered_nodup
    rw [← List.take_append_drop k s.registered] at hsplit
    exact (List.nodup_append.mp hsplit).2.2 r htake r hr rfl
  refine ⟨s.registered.length,{ h with
    le := le_rfl, uploaded_le := le_rfl, pending_ix := ?_, pending_h := ?_, ran := ?_
    answered_nodup := ?_, done := ?_, registered_owned := ?_, owned_answered := ?_
    owned_received := ?_, answered_received := ?_ }⟩
  all_goals simp only [List.map_nil,Nat.sub_self,List.range'_zero,List.drop_length,List.take_length,
    ran_append,answered_append,owned_append,hran,hansw,howned,List.append_nil]
  · have happend : List.range' 0 k ++ List.range' (0+k) (s.registered.length-k) = _ :=
      List.range'_append_1
    rw [Nat.zero_add,Nat.add_sub_of_le hk] at happend
    rw [h.ran,List.range_eq_range',List.range_eq_range',happend]
  · refine h.answered_nodup.append (h.registered_nodup.sublist (List.drop_sublist _ _)) ?_
    exact fun r ha hr => hdisjoint r hr ha
  · intro r hr
    rw [← List.take_append_drop k s.registered] at hr
    rcases List.mem_append.mp hr with hr | hr
    · exact List.mem_append_left _ (h.done r hr)
    · exact List.mem_append_right _ hr
  · exact h.registered_owned
  · intro r ho ha
    rcases List.mem_append.mp ha with ha | ha
    · exact List.mem_of_mem_take (h.owned_answered r ho ha)
    · exact List.mem_of_mem_drop ha
  · exact h.owned_received
  · intro r hr
    rcases List.mem_append.mp hr with hr | hr
    · exact h.answered_received r hr
    · exact h.owned_received r (h.registered_owned r (List.mem_of_mem_drop hr))

theorem inv_reachable (h : (system lib compression ix).ReachableBy (Undisturbed lib compression ix) s) :
    Inv s := by
  refine h.invariant (P:=Inv) ?_ ?_
  · rintro _ ⟨wc,rfl⟩
    exact inv_initial wc
  · intro s e t hinv hok hs
    cases e with
    | request req rh => exact inv_request hinv hs
    | registerUploader r f =>
      exact inv_registerUploader hinv hok (show step lib compression ix s _ = some t from hs)
    | upload => exact inv_upload hinv hok hs

/-- In a run without an early exit no request is answered twice, and after an `EV_UPLOAD`
every uploader registered before it has run once and its request is answered. -/
theorem one_reply (h : (system lib compression ix).ReachableBy (Undisturbed lib compression ix) s) :
    OneReply s := by
  obtain ⟨k,h⟩ := inv_reachable h
  refine ⟨h.answered_nodup,fun i hi => ?_⟩
  have hik : i < k := lt_of_lt_of_le hi h.uploaded_le
  have hlen : i < s.registered.length := lt_of_lt_of_le hik h.le
  refine ⟨?_,s.registered[i],?_,List.getElem?_eq_getElem hlen⟩
  · rw [h.ran]
    exact List.count_eq_one_of_mem List.nodup_range (List.mem_range.mpr hik)
  · apply h.done
    rw [List.mem_take_iff_getElem]
    exact ⟨i,by omega,rfl⟩

/-- A library whose JSON values are numbers; zero is the empty value. -/
def plainLibrary : Library ℕ Unit where
  parse _ _ := (.parsed,0)
  clear _ := some 0
  empty root := root == 0
  write _ := [123,125]
  compress d := (LZO_E_OK,d)
  decompress d _ := (LZO_E_INPUT_OVERRUN,d)
  clearStack := id

/-- A handler that holds every request. -/
def holds : Handler ℕ Unit := fun cc => (.returns true,{ cc with hold := true })

/-- Two requests held, uploaded together, one with direct data and one with a response. -/
def batch : List (Event ℕ Unit) :=
  [.request ⟨1,.post,[],[123,125]⟩ holds,.request ⟨2,.post,[],[123,125]⟩ holds,
    .registerUploader 2 fun cc => (.returns true,{ cc with directData := [49] }),
    .registerUploader 1 fun cc => (.returns true,{ cc with response := 1 }),.upload]

theorem one_reply_batch :
    let start := initial ⟨(),[],[],[],0,0,[],[]⟩
    let run := (system plainLibrary false 0).exec start batch
    run.map (fun s => (answered s.effects,ran s.effects,s.uploaded)) = some ([2,1],[0,1],2) ∧
    ∀ s, run = some s → OneReply s := by
  intro start run
  have hallowed : (system plainLibrary false 0).Allowed (Undisturbed plainLibrary false 0) start batch := by
    refine ⟨trivial,fun s₁ h₁ => ?_⟩
    obtain rfl := Option.some.inj h₁
    refine ⟨trivial,fun s₂ h₂ => ?_⟩
    obtain rfl := Option.some.inj h₂
    refine ⟨⟨by decide,by decide⟩,fun s₃ h₃ => ?_⟩
    obtain rfl := Option.some.inj h₃
    refine ⟨⟨by decide,by decide⟩,fun s₄ h₄ => ?_⟩
    obtain rfl := Option.some.inj h₄
    exact ⟨⟨0,rfl,0,_,rfl,rfl,⟨[49],rfl,by decide⟩,0,_,rfl,rfl,⟨[123,125],rfl,by decide⟩,trivial⟩,
      fun _ _ => trivial⟩
  exact ⟨by decide,fun s hs => one_reply (ReachableBy.exec_allowed (.init ⟨_,rfl⟩) hallowed hs)⟩

/-- An uploader that is not ready, then the same event again. -/
def retried : List (Event ℕ Unit) :=
  [.request ⟨1,.post,[],[123,125]⟩ holds,.registerUploader 1 fun cc => (.returns false,cc),
    .upload,.upload]

/-- The second `EV_UPLOAD` runs the failed uploader again and answers its request twice. -/
theorem not_one_reply_retried :
    ¬∀ s, (system plainLibrary false 0).Reachable s → OneReply s := by
  intro h
  have hrun : (((system plainLibrary false 0).exec (initial ⟨(),[],[],[],0,0,[],[]⟩) retried).map
      fun s => answered s.effects) = some [1,1] := by decide
  obtain ⟨s,hs,hanswered⟩ := Option.map_eq_some_iff.mp hrun
  have honce := (h s (ReachableBy.exec (fun _ _ _ => trivial) (.init ⟨_,rfl⟩) hs)).once
  rw [hanswered] at honce
  exact absurd honce (by decide)

end HttpServer
end SdkCp
