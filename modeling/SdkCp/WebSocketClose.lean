import SdkCp.WebSocketValidation

/-! What the receive path makes of the bytes behind a close frame. The branch that answers
it leaves step and portion as they are, so each further portion of this length is answered
with another close frame. -/
namespace SdkCp
namespace WebSocket

open StreamReader TransitionSystem

def Effect.isClose : Effect → Bool
  | .send bytes => bytes == [0x88,0]
  | _ => false

/-- How many close frames the server has sent. -/
def closesSent (c : Conn) : ℕ := c.effects.countP Effect.isClose

/-- The length of the last portion of the frame a stream begins with: its payload, or its key
if that is empty. -/
def lastPortion (bs : List UInt8) : ℕ :=
  let len := declaredLength (parseFrameHeader (bs.take 2) frameRecvLoop.frame) (bs.drop 2)
  if len = 0 then 4 else len

/-- The last portion of the first complete close frame of a stream, and what follows the frame. -/
def firstClose : ℕ → List UInt8 → Option (ℕ × List UInt8)
  | 0, _ => none
  | n+1, bs =>
    match nextFrame bs with
    | none => none
    | some (h,rest) => if h.isClose then some (lastPortion bs,rest) else firstClose n rest

/-- The first close frame of `bs` has been read completely. -/
def CloseRead (bs : List UInt8) (s : State UInt8 Conn) : Prop :=
  ∃ n rest, firstClose bs.length bs = some (n,rest) ∧
    bs.length+s.buffered.length ≤ s.received.length+rest.length

/-- However the stream `bs` arrives, from the close frame on one close frame has been sent
and no read calls back; before, none has been sent. -/
def ClosesOnce (cb : Callbacks) (bs : List UInt8) : Prop :=
  ∀ s, ((reader cb).system frameRecvLoop).Reachable s → s.received <+: bs →
    (CloseRead bs s → closesSent s.machine = 1 ∧ (s.machine.ntoread ≤ s.buffered.length →
      calledBack s.machine (s.buffered.take s.machine.ntoread) = none)) ∧
    (¬CloseRead bs s → closesSent s.machine = 0)

variable {cb : Callbacks} {c d : Conn} {tmp bs : List UInt8} {g : FrameT}

theorem closesSent_onPongReceived (c : Conn) : closesSent (onPongReceived cb c) = closesSent c := by
  by_cases hf : c.frame.fin = 1 <;> simp [onPongReceived,hf,closesSent,Effect.isClose]

theorem closesSent_onFrameReceived (c : Conn) : closesSent (onFrameReceived cb c) = closesSent c := by
  by_cases hf : c.frame.fin = 1 <;> simp [onFrameReceived,hf,closesSent,Effect.isClose]

theorem closesSent_wholeFrame (h : c.frame.isClose = false) :
    closesSent (wholeFrame cb c) = closesSent c := by
  have hne : ¬(c.frame.fin = 1 ∧ c.frame.opcode = 0x8) := by simpa [FrameT.isClose] using h
  rw [wholeFrame,if_neg hne]
  split
  · rfl
  · split
    · exact closesSent_onPongReceived c
    · exact closesSent_onFrameReceived c

theorem closesSent_close (h : c.frame.isClose = true) :
    closesSent (wholeFrame cb c) = closesSent c+1 := by
  have hc : c.frame.fin = 1 ∧ c.frame.opcode = 0x8 := by simpa [FrameT.isClose] using h
  rw [wholeFrame,if_pos hc]
  simp [closesSent,Effect.isClose]

theorem closesSent_of_not_whole (h : whole c tmp = none) :
    closesSent (frameReadCb cb c tmp) = closesSent c := by
  unfold frameReadCb
  cases hstep : c.step with
  | zero => simp [closesSent,Effect.isClose]
  | one =>
    simp only
    split
    · rfl
    · split
      · rfl
      · split <;> rfl
  | two => rfl
  | three =>
    simp only [whole,hstep] at h
    split at h
    · rename_i hpos
      simp [hpos,closesSent,Conn.expect]
    · simp at h
  | four => simp [whole,hstep] at h

theorem closesSent_closed (h : Closed (c,[])) :
    closesSent (frameReadCb cb c tmp) = closesSent c+1 ∧ (frameReadCb cb c tmp).ntoread = c.ntoread := by
  obtain ⟨f,-,-,-,hread⟩ := @Closed.read cb c [] h tmp
  rw [hread]
  simp [closesSent,Effect.isClose]

/-- Before the `n` bytes of a frame are read nothing is sent; then its close frame is, and the
machine is closed with the last portion of the frame, or it waits for the next frame. -/
def Answers (cb : Callbacks) (g : FrameT) (len : ℕ) (c : Conn) (n : ℕ) (bs : List UInt8) : Prop :=
  closesSent c = 0 →
  (bs.length < n → ∀ m xs, (reader cb).Reads c bs m xs → closesSent m = 0) ∧
  (n ≤ bs.length → ∃ d, (reader cb).Passes (closesSent · = 0) c bs d (bs.drop n) ∧
    (g.isClose = true → Closed (d,[]) ∧ d.ntoread = (if len = 0 then 4 else len) ∧ closesSent d = 1) ∧
    (g.isClose = false → d.step = .one ∧ d.ntoread = 2 ∧ closesSent d = 0))

theorem frameRule_answers (cb : Callbacks) (g : FrameT) (len : ℕ) :
    FrameRule cb g len (Answers cb g len) where
  after {c k n bs} hk hpos hwhole _ _ h := by
    subst hk
    intro hzero
    obtain ⟨hshort,hlong⟩ := h ((closesSent_of_not_whole hwhole).trans hzero)
    rw [List.length_drop] at hshort hlong
    constructor
    · intro hlt m xs hr
      cases hr with
      | refl => exact hzero
      | step hn hr =>
        have hn : c.ntoread ≤ bs.length := hn
        exact hshort (by omega) m xs hr
    · intro hle
      obtain ⟨d,hpass,hd⟩ := hlong (by omega)
      rw [List.drop_drop] at hpass
      exact ⟨d,.step (show c.ntoread ≤ bs.length by omega) hpos hzero hpass,hd⟩
  last {c f bs} _ hwhole hf hlen hstep hzero := by
    have hpos : 0 < c.ntoread := by
      rcases hstep with ⟨-,-,hn⟩ | ⟨-,hpos,hn⟩ <;> omega
    constructor
    · intro hlt m xs hr
      obtain ⟨rfl,-⟩ := hr.stuck hlt
      exact hzero
    · intro hle
      have hread : (reader cb).read c (bs.take ((reader cb).need c)) =
          wholeFrame cb { c with frame := f } := frameReadCb_whole hwhole
      refine ⟨_,.step hle hpos hzero (.refl _ _),fun hclose => ?_,fun hopen => ?_⟩
      · have hfc : ({ c with frame := f } : Conn).frame.isClose = true := hf.isClose.trans hclose
        rw [hread]
        refine ⟨wholeFrame_closed hfc ?_,?_,?_⟩
        · exact hstep.imp (fun h => ⟨h.1,hlen.trans h.2.1⟩) (·.1)
        · have hc : f.fin = 1 ∧ f.opcode = 0x8 := by simpa [FrameT.isClose] using hfc
          simp only [wholeFrame,hc,and_self,if_true]
          rcases hstep with ⟨-,h₀,hn⟩ | ⟨-,h₀,hn⟩
          · rw [if_pos h₀,hn]
          · rw [if_neg (by omega),hn]
        · exact (closesSent_close hfc).trans (congrArg (·+1) hzero)
      · have hfo : ({ c with frame := f } : Conn).frame.isClose = false := hf.isClose.trans hopen
        rw [hread]
        obtain ⟨h₁,h₂⟩ := @wholeFrame_waits cb _ hfo
        exact ⟨h₁,h₂,(closesSent_wholeFrame hfo).trans hzero⟩

theorem answers_next (hstep : c.step = .one) (hn : c.ntoread = 2) (hzero : closesSent c = 0)
    (bs : List UInt8) :
    (nextFrame bs = none → ∀ m xs, (reader cb).Reads c bs m xs → closesSent m = 0) ∧
    ∀ h rest, nextFrame bs = some (h,rest) → rest.length < bs.length ∧
      ∃ d, (reader cb).Passes (closesSent · = 0) c bs d rest ∧
        (h.isClose = true → Closed (d,[]) ∧ d.ntoread = lastPortion bs ∧ closesSent d = 1) ∧
        (h.isClose = false → d.step = .one ∧ d.ntoread = 2 ∧ closesSent d = 0) := by
  have hstuck : bs.length < 2 → ∀ m xs, (reader cb).Reads c bs m xs → closesSent m = 0 := by
    intro hlt m xs hr
    obtain ⟨rfl,-⟩ := hr.stuck (show bs.length < c.ntoread by omega)
    exact hzero
  rcases bs with _ | ⟨c₁,_ | ⟨c₂,rest⟩⟩
  · exact ⟨fun _ => hstuck (by simp),by simp [nextFrame]⟩
  · exact ⟨fun _ => hstuck (by simp),by simp [nextFrame]⟩
  · set h := parseFrameHeader [c₁,c₂] c.frame with hh
    obtain ⟨hshort,hlong⟩ :=
      (frameRule_answers cb h (declaredLength h rest)).frame hstep hn hh.symm hzero
    have hportion : lastPortion (c₁::c₂::rest) =
        if declaredLength h rest = 0 then 4 else declaredLength h rest := rfl
    rw [← hportion] at hlong
    refine ⟨fun hnone => hshort (nextFrame_none c.frame hnone),?_⟩
    rintro g tail heq
    obtain ⟨rfl,rfl,hle⟩ := nextFrame_some c.frame heq
    refine ⟨?_,hlong hle⟩
    rw [List.length_drop,List.length_cons,List.length_cons]
    omega

/-- From a waiting machine up to the first close frame, by induction on the frames. -/
theorem answers_frames (n : ℕ) (hle : bs.length ≤ n) (hstep : c.step = .one) (hn : c.ntoread = 2)
    (hzero : closesSent c = 0) :
    (firstClose n bs = none → ∀ m xs, (reader cb).Reads c bs m xs → closesSent m = 0) ∧
    ∀ k rest, firstClose n bs = some (k,rest) →
      ∃ d, (reader cb).Passes (closesSent · = 0) c bs d rest ∧
        Closed (d,[]) ∧ d.ntoread = k ∧ closesSent d = 1 := by
  induction n generalizing bs c with
  | zero =>
    refine ⟨fun _ m xs hr => ?_,by simp [firstClose]⟩
    obtain ⟨rfl,-⟩ := hr.stuck (show bs.length < c.ntoread by omega)
    exact hzero
  | succ n ih =>
    obtain ⟨hnone,hsome⟩ := @answers_next cb c hstep hn hzero bs
    rw [firstClose]
    cases hnext : nextFrame bs with
    | none => exact ⟨fun _ => hnone hnext,by simp⟩
    | some hr =>
      obtain ⟨h,rest⟩ := hr
      obtain ⟨hlt,d,hpass,hclose,hopen⟩ := hsome h rest hnext
      simp only
      cases hc : h.isClose with
      | true =>
        refine ⟨by simp,fun k tail heq => ?_⟩
        obtain ⟨rfl,rfl⟩ : lastPortion bs = k ∧ rest = tail := by simpa using heq
        exact ⟨d,hpass,hclose hc⟩
      | false =>
        obtain ⟨h₁,h₂,h₃⟩ := hopen hc
        obtain ⟨ihnone,ihsome⟩ := @ih d rest (by omega) h₁ h₂ h₃
        simp only [Bool.false_eq_true,if_false]
        refine ⟨fun heq m xs hr => ?_,fun k tail heq => ?_⟩
        · exact (hpass.splits m xs hr).elim (·.1) (ihnone heq m xs)
        · obtain ⟨e,hpass',he⟩ := ihsome k tail heq
          exact ⟨e,hpass.trans hpass',he⟩

/-- One close frame is sent exactly on the streams in which less than another portion follows
the close frame. -/
theorem closesOnce_iff (cb : Callbacks) (bs : List UInt8) : ClosesOnce cb bs ↔
    ∀ n rest, firstClose bs.length bs = some (n,rest) → rest.length < n := by
  obtain ⟨hnone,hsome⟩ := @answers_frames cb frameRecvLoop bs bs.length le_rfl rfl rfl rfl
  constructor
  · intro h n rest hfirst
    by_contra hge
    obtain ⟨d,hpass,hclosed,hn,hone⟩ := hsome n rest hfirst
    have hmore : (reader cb).need d ≤ rest.length := by
      change d.ntoread ≤ _
      omega
    -- one read more
    have hr := hpass.reads.trans (.step hmore (.refl _ _))
    have harrive : ((reader cb).system frameRecvLoop).Reachable ⟨frameRecvLoop,bs,bs⟩ :=
      .step (.init rfl) trivial (e:=.arrive bs) rfl
    obtain ⟨hafter,-⟩ := h _ (reachable_of_reads harrive hr) (List.prefix_refl bs)
    obtain ⟨htwo,-⟩ := hafter ⟨n,rest,hfirst,by simp⟩
    have hsent : closesSent (frameReadCb cb d (rest.take d.ntoread)) = closesSent d+1 :=
      (closesSent_closed hclosed).1
    have htwo : closesSent (frameReadCb cb d (rest.take d.ntoread)) = 1 := htwo
    omega
  · rintro h s hs ⟨tail,hbs⟩
    have hr := (reads_of_reachable hs).append tail
    rw [hbs] at hr
    have hlen : s.received.length+tail.length = bs.length := by rw [← hbs,List.length_append]
    cases hfirst : firstClose bs.length bs with
    | none =>
      refine ⟨?_,fun _ => hnone hfirst _ _ hr⟩
      rintro ⟨n,rest,heq,-⟩
      simp [hfirst] at heq
    | some nr =>
      obtain ⟨n,rest⟩ := nr
      obtain ⟨d,hpass,hclosed,hn,hone⟩ := hsome n rest hfirst
      have hlt := h n rest hfirst
      rcases hpass.splits _ _ hr with ⟨hzero,hbefore⟩ | hafter
      · refine ⟨?_,fun _ => hzero⟩
        rintro ⟨n',rest',heq,hle⟩
        obtain ⟨-,rfl⟩ : n = n' ∧ rest = rest' := by simpa [hfirst] using heq
        rw [List.length_append] at hbefore
        omega
      · obtain ⟨hd,hxs⟩ := hafter.stuck (show rest.length < d.ntoread by omega)
        rw [hd]
        refine ⟨fun _ => ⟨hone,fun _ => hclosed.silent _⟩,fun hnot => ?_⟩
        refine absurd ⟨n,rest,hfirst,?_⟩ hnot
        rw [← hxs,List.length_append]
        omega

/-- Four bytes behind a close frame without payload. -/
theorem not_closesOnce : ¬∀ bs, ClosesOnce ⟨fun _ => [],fun _ => []⟩ bs := by
  intro hall
  let r := reader ⟨fun _ => [],fun _ => []⟩
  let bs : List UInt8 := [0x88,0x80,0,0,0,0,0,0,0,0]
  let run := (r.system frameRecvLoop).exec ⟨frameRecvLoop,[],[]⟩ [.arrive bs,.read,.read,.read]
  have hrun : run.map (fun s => (s.received,s.buffered,closesSent s.machine)) = some (bs,[],2) := by
    decide
  have hfirst : firstClose bs.length bs = some (4,[0,0,0,0]) := by decide
  obtain ⟨s,hs,hval⟩ := Option.map_eq_some_iff.mp hrun
  simp only [Prod.mk.injEq] at hval
  obtain ⟨hreceived,hbuffered,htwo⟩ := hval
  have hone := ((hall bs s (ReachableBy.exec (fun _ _ _ => trivial) (.init rfl) hs)
    (hreceived ▸ List.prefix_refl bs)).1 ⟨4,[0,0,0,0],hfirst,by simp [hreceived,hbuffered]⟩).1
  omega

end WebSocket
end SdkCp
