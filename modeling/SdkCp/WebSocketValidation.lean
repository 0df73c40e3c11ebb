import SdkCp.WebSocket

/-! What `is_frame_valid` keeps out of the receive path: nothing. Step ONE looks at the
header after it has moved on to the next step, and leaves the same way in both cases,
so an unmasked frame is delivered like any other. -/
namespace SdkCp
namespace WebSocket

open Bytes StreamReader TransitionSystem

/-- The frame that a read completes, if it does. -/
def whole (c : Conn) (tmp : List UInt8) : Option FrameT :=
  match c.step with
  | .three => if 0 < c.frame.payloadLen then none else some { c.frame with maskingKey := tmp }
  | .four =>
    some (if 0 < c.frame.payloadLen then
      unmaskPayloadData { c.frame with payloadData := some tmp } else c.frame)
  | _ => none

theorem whole_three {c : Conn} {tmp : List UInt8} (h : c.step = .three)
    (hlen : c.frame.payloadLen = 0) : whole c tmp = some { c.frame with maskingKey := tmp } := by
  simp [whole,h,hlen]

theorem whole_four {c : Conn} {tmp : List UInt8} (h : c.step = .four) : whole c tmp =
    some (if 0 < c.frame.payloadLen then
      unmaskPayloadData { c.frame with payloadData := some tmp } else c.frame) := by
  simp [whole,h]

def FrameT.isClose (f : FrameT) : Bool := f.fin == 1 && f.opcode == 0x8
def FrameT.isPing (f : FrameT) : Bool := f.fin == 1 && f.opcode == 0x9

/-- The frame for which a read calls `frame_recv_cb` or `pong_cb`. -/
def calledBack (c : Conn) (tmp : List UInt8) : Option FrameT :=
  (whole c tmp).filter fun f => !f.isClose && !f.isPing

variable {cb : Callbacks} {c : Conn} {tmp : List UInt8} {f : FrameT}

theorem frameReadCb_whole (h : whole c tmp = some f) :
    frameReadCb cb c tmp = wholeFrame cb { c with frame := f } := by
  obtain ⟨step,ntoread,frame,msg,pongData,effects⟩ := c
  cases step with
  | three =>
    simp only [whole] at h
    split at h
    · simp at h
    · rename_i hlen
      obtain rfl := Option.some.inj h
      simp only [frameReadCb,hlen,if_false]
  | four =>
    obtain rfl := Option.some.inj h
    simp only [frameReadCb]
    split <;> rfl
  | _ => simp [whole] at h

/-- A read that calls back hands the frame to one of the two callbacks of `user_t`. -/
theorem frameReadCb_calledBack (h : calledBack c tmp = some f) : frameReadCb cb c tmp =
    ((if f.fin = 1 ∧ f.opcode = 0xA then onPongReceived cb else onFrameReceived cb)
      { c with frame := f }).expect .one 2 := by
  obtain ⟨hwhole,hpass⟩ := Option.filter_eq_some_iff.mp h
  simp only [FrameT.isClose,FrameT.isPing,Bool.and_eq_true,Bool.not_eq_true',
    Bool.and_eq_false_iff,beq_eq_false_iff_ne] at hpass
  have hclose : ¬(f.fin = 1 ∧ f.opcode = 0x8) := fun ⟨h₁,h₂⟩ => hpass.1.elim (· h₁) (· h₂)
  have hping : ¬(f.fin = 1 ∧ f.opcode = 0x9) := fun ⟨h₁,h₂⟩ => hpass.2.elim (· h₁) (· h₂)
  rw [frameReadCb_whole hwhole,wholeFrame]
  simp only [hclose,hping,if_false]
  split <;> rfl

/-- A read that does not call back leaves the buffers of `user_t` alone. -/
theorem frameReadCb_silent (h : calledBack c tmp = none) :
    (frameReadCb cb c tmp).msg = c.msg ∧ (frameReadCb cb c tmp).pongData = c.pongData := by
  cases hw : whole c tmp with
  | some f =>
    rw [frameReadCb_whole hw,wholeFrame]
    rw [calledBack,hw] at h
    have hpass : f.isClose = true ∨ f.isPing = true := by
      by_contra hnot
      obtain ⟨hc,hp⟩ := not_or.mp hnot
      simp [Option.filter,hc,hp] at h
    simp only [FrameT.isClose,FrameT.isPing,Bool.and_eq_true,beq_iff_eq] at hpass
    rcases hpass with hf | hf
    · simp [hf]
    · have hne : ¬(f.fin = 1 ∧ f.opcode = 0x8) := by simp [hf.2]
      simp [hf,Conn.expect]
  | none =>
    unfold whole at hw
    unfold frameReadCb
    split at hw
    · rename_i hstep
      split at hw
      · rename_i hlen
        simp [hstep,hlen,Conn.expect]
      · simp at hw
    · simp at hw
    · cases hstep : c.step with
      | zero => simp
      | one =>
        simp only
        split
        · simp [Conn.expect]
        · split
          · simp [Conn.expect]
          · split <;> simp [Conn.expect]
      | two => simp [Conn.expect]
      | three => simp_all
      | four => simp_all

/-- The receive path with the headers it has parsed. -/
def watched (cb : Callbacks) : StreamReader UInt8 (Conn × List FrameT) where
  need m := m.1.ntoread
  read m tmp :=
    (frameReadCb cb m.1 tmp,
      if m.1.step = .one then m.2 ++ [parseFrameHeader tmp m.1.frame] else m.2)

/-- If the read calls back, the frame is valid and so are all headers up to its own. -/
def CallsBackValid (m : Conn × List FrameT) (tmp : List UInt8) : Prop :=
  ∀ f, calledBack m.1 tmp = some f →
    isFrameValid f = true ∧ ∀ h ∈ m.2, isFrameValid h = true

/-- However the stream `bs` arrives, no callback is called for an invalid frame or for one
behind an invalid frame. -/
def Rejects (cb : Callbacks) (bs : List UInt8) : Prop :=
  ∀ s, ((watched cb).system (frameRecvLoop,[])).Reachable s → s.received <+: bs →
    (watched cb).need s.machine ≤ s.buffered.length →
      CallsBackValid s.machine (s.buffered.take ((watched cb).need s.machine))

/-- The header of the frame a stream begins with and what follows the frame. There are
four key bytes whatever the mask bit says. -/
def nextFrame : List UInt8 → Option (FrameT × List UInt8)
  | c₁::c₂::bs =>
    let h := parseFrameHeader [c₁,c₂] frameRecvLoop.frame
    let form := if h.payloadLen = 126 then 2 else if h.payloadLen = 127 then 8 else 0
    let len :=
      if h.payloadLen = 126 then myntohs (ofLE (bs.take 2))
      else if h.payloadLen = 127 then myntohll (ofLE (bs.take 8))
      else h.payloadLen
    if form+4+len ≤ bs.length then some (h,bs.drop (form+4+len)) else none
  | _ => none

/-- The headers of the complete frames of a stream up to the first close frame. -/
def wireFrames : ℕ → List UInt8 → List FrameT
  | 0, _ => []
  | n+1, bs =>
    match nextFrame bs with
    | none => []
    | some (h,rest) => if h.isClose then [] else h::wireFrames n rest

/-- Every frame that is not a ping, and all before it, are masked. -/
def MaskedUpToCall (hs : List FrameT) : Prop :=
  ∀ (i : ℕ) h, hs[i]? = some h → h.isPing = false → ∀ v ∈ hs.take (i+1), v.mask = 1

theorem isFrameValid_parse (tmp : List UInt8) (f : FrameT) :
    isFrameValid (parseFrameHeader tmp f) = true ↔ (parseFrameHeader tmp f).mask = 1 := by
  have hop : ∀ c : UInt8, c &&& 0x0f ≤ 0xf := fun c =>
    UInt8.le_iff_toNat_le.mpr (by rw [UInt8.toNat_and]; exact Nat.and_le_right)
  have hfin : ∀ c : UInt8, (c >>> 7) &&& 0xff ≤ 1 := by
    intro c
    have hlt := c.toNat_lt
    rw [UInt8.le_iff_toNat_le,UInt8.toNat_and,UInt8.toNat_shiftRight]
    refine Nat.and_le_left.trans ?_
    simp [Nat.shiftRight_eq_div_pow]
    omega
  simp [isFrameValid,parseFrameHeader,hfin,hop]

variable {hs : List FrameT} {bs : List UInt8}

/-- A close frame stops the machine: it goes on reading portions of the same length and
answers each with a close frame. -/
def Closed (m : Conn × List FrameT) : Prop :=
  m.1.frame.isClose = true ∧ (m.1.step = .three ∧ m.1.frame.payloadLen = 0 ∨ m.1.step = .four)

theorem Closed.read (h : Closed (c,hs)) (tmp : List UInt8) : ∃ f, whole c tmp = some f ∧
    f.isClose = true ∧ f.payloadLen = c.frame.payloadLen ∧ frameReadCb cb c tmp =
      { c with frame := f, effects := c.effects ++ [Effect.send [0x88,0]] } := by
  obtain ⟨hclose,hstep⟩ := h
  obtain ⟨f,hw,hf,hlen⟩ : ∃ f, whole c tmp = some f ∧ f.isClose = true ∧
      f.payloadLen = c.frame.payloadLen := by
    rcases hstep with ⟨hstep,hlen⟩ | hstep
    · exact ⟨_,whole_three hstep hlen,hclose,rfl⟩
    · refine ⟨_,whole_four hstep,?_,?_⟩
      · split
        · simp only [unmaskPayloadData]
          split <;> exact hclose
        · exact hclose
      · split
        · simp only [unmaskPayloadData]
          split <;> rfl
        · rfl
  refine ⟨f,hw,hf,hlen,?_⟩
  have hf' := hf
  simp only [FrameT.isClose,Bool.and_eq_true,beq_iff_eq] at hf'
  rw [frameReadCb_whole hw,wholeFrame,if_pos hf']

theorem Closed.silent (h : Closed (c,hs)) (tmp : List UInt8) : calledBack c tmp = none := by
  obtain ⟨f,hw,hf,-,-⟩ := @Closed.read ⟨id,id⟩ c hs h tmp
  simp [calledBack,hw,Option.filter,hf]

theorem Closed.stays (h : Closed (c,hs)) (tmp : List UInt8) : Closed (frameReadCb cb c tmp,hs) := by
  obtain ⟨f,-,hf,hlen,hread⟩ := @Closed.read cb c hs h tmp
  rw [hread]
  exact ⟨hf,h.2.imp (fun h => ⟨h.1,hlen.trans h.2⟩) id⟩

theorem everyRead_closed {m : Conn × List FrameT} (h : Closed m) (xs : List UInt8) :
    (watched cb).EveryRead CallsBackValid m xs := by
  refine everyRead_of_invariant (I:=Closed) ?_ h xs
  rintro ⟨c,hs⟩ tmp hclosed
  refine ⟨fun g hg => ?_,hclosed.stays tmp⟩
  simp [hclosed.silent tmp] at hg

/-- After a whole frame other than close the machine waits for a header. -/
theorem wholeFrame_waits (h : c.frame.isClose = false) :
    (wholeFrame cb c).step = .one ∧ (wholeFrame cb c).ntoread = 2 := by
  have hne : ¬(c.frame.fin = 1 ∧ c.frame.opcode = 0x8) := by
    simpa [FrameT.isClose] using h
  rw [wholeFrame,if_neg hne]
  exact ⟨rfl,rfl⟩

theorem wholeFrame_closed (h : c.frame.isClose = true)
    (hstep : c.step = .three ∧ c.frame.payloadLen = 0 ∨ c.step = .four) :
    Closed (wholeFrame cb c,hs) := by
  have hc : c.frame.fin = 1 ∧ c.frame.opcode = 0x8 := by simpa [FrameT.isClose] using h
  rw [wholeFrame,if_pos hc]
  exact ⟨h,hstep⟩

/-- What is known of a frame once its header has been read. -/
def SameHeader (f g : FrameT) : Prop := f.fin = g.fin ∧ f.opcode = g.opcode ∧ f.mask = g.mask

theorem SameHeader.isFrameValid {f g : FrameT} (h : SameHeader f g) :
    WebSocket.isFrameValid f = WebSocket.isFrameValid g := by
  obtain ⟨h₁,h₂,h₃⟩ := h
  simp [WebSocket.isFrameValid,h₁,h₂,h₃]

theorem SameHeader.isClose {f g : FrameT} (h : SameHeader f g) : f.isClose = g.isClose := by
  simp [FrameT.isClose,h.1,h.2.1]

theorem SameHeader.isPing {f g : FrameT} (h : SameHeader f g) : f.isPing = g.isPing := by
  simp [FrameT.isPing,h.1,h.2.1]

/-- From `m` the frame with header `g` takes `n` bytes, after which it is called back or
not and the machine waits for the next one. -/
def FrameReads (cb : Callbacks) (m : Conn × List FrameT) (hs : List FrameT) (g : FrameT) (n : ℕ)
    (bs : List UInt8) : Prop :=
  (bs.length < n → (watched cb).EveryRead CallsBackValid m bs) ∧
  (n ≤ bs.length →
    (g.isClose = true → (watched cb).EveryRead CallsBackValid m bs) ∧
    (g.isClose = false → ∃ c', c'.step = .one ∧ c'.ntoread = 2 ∧
      ((watched cb).EveryRead CallsBackValid m bs ↔
        (g.isPing = false → ∀ h ∈ hs, isFrameValid h = true) ∧
          (watched cb).EveryRead CallsBackValid (c',hs) (bs.drop n))))

theorem frameReads_whole {n : ℕ} {g : FrameT} (hn : c.ntoread = n) (hone : c.step ≠ .one)
    (hw : whole c (bs.take n) = some f) (hf : SameHeader f g)
    (hstep : c.step = .three ∧ f.payloadLen = 0 ∨ c.step = .four) (hlast : g ∈ hs) :
    FrameReads cb (c,hs) hs g n bs := by
  subst hn
  refine ⟨fun h => everyRead_of_short h,fun hle => ?_⟩
  have hread : (watched cb).read (c,hs) (bs.take ((watched cb).need (c,hs))) =
      (wholeFrame cb { c with frame := f },hs) := by
    simp only [watched,if_neg hone]
    rw [← frameReadCb_whole hw]
  have hiff := everyRead_iff (P:=CallsBackValid) (r:=watched cb) (m:=(c,hs)) hle
  rw [hread] at hiff
  rw [hiff]
  constructor
  · intro hclose
    refine ⟨fun k hk => ?_,everyRead_closed (wholeFrame_closed (by rw [hf.isClose,hclose]) hstep) _⟩
    have hk' : calledBack c (bs.take c.ntoread) = some k := hk
    rw [calledBack,hw] at hk'
    simp [Option.filter,hf.isClose,hclose] at hk'
  · intro hclose
    obtain ⟨h₁,h₂⟩ := @wholeFrame_waits cb { c with frame := f } (hf.isClose.trans hclose)
    refine ⟨_,h₁,h₂,and_congr_left' ?_⟩
    have hcall : calledBack c (bs.take c.ntoread) = if g.isPing then none else some f := by
      rw [calledBack,hw]
      cases hp : g.isPing <;> simp [Option.filter,hf.isClose,hf.isPing,hclose,hp]
    change (∀ k, calledBack c (bs.take c.ntoread) = some k → _) ↔ _
    rw [hcall]
    cases hp : g.isPing with
    | true => simp
    | false =>
      constructor
      · exact fun hall _ => (hall f rfl).2
      · rintro hall k hk
        obtain rfl := Option.some.inj hk
        exact ⟨by rw [hf.isFrameValid]; exact hall rfl g hlast,hall rfl⟩

theorem FrameReads.after {m m' : Conn × List FrameT} {g : FrameT} {k n : ℕ}
    (hneed : m.1.ntoread = k) (hsilent : calledBack m.1 (bs.take k) = none)
    (hread : (watched cb).read m (bs.take k) = m') (h : FrameReads cb m' hs g n (bs.drop k)) :
    FrameReads cb m hs g (k+n) bs := by
  subst hneed hread
  rcases Nat.lt_or_ge bs.length m.1.ntoread with hlt | hle
  · exact ⟨fun _ => everyRead_of_short hlt,fun hge => by omega⟩
  have hiff : (watched cb).EveryRead CallsBackValid m bs ↔ _ := everyRead_iff hle
  have hnow : CallsBackValid m (bs.take ((watched cb).need m)) := fun f hf => by
    simp [show calledBack m.1 (bs.take ((watched cb).need m)) = none from hsilent] at hf
  rw [and_iff_right hnow] at hiff
  obtain ⟨hshort,hlong⟩ := h
  rw [List.length_drop] at hshort hlong
  refine ⟨fun hlt => hiff.mpr (hshort (by omega)),fun hge => ?_⟩
  obtain ⟨hclose,hopen⟩ := hlong (by omega)
  refine ⟨fun hc => hiff.mpr (hclose hc),fun hc => ?_⟩
  obtain ⟨c',h₁,h₂,hreads⟩ := hopen hc
  rw [List.drop_drop] at hreads
  exact ⟨c',h₁,h₂,hiff.trans hreads⟩

/-- Bytes of the extended payload length, and the length that header and these bytes give. -/
def extendedBytes (h : FrameT) : ℕ :=
  if h.payloadLen = 126 then 2 else if h.payloadLen = 127 then 8 else 0

def declaredLength (h : FrameT) (ext : List UInt8) : ℕ :=
  if h.payloadLen = 126 then myntohs (ofLE (ext.take 2))
  else if h.payloadLen = 127 then myntohll (ofLE (ext.take 8))
  else h.payloadLen

/-- What carries `F`, a property of a machine that takes `n` bytes for a frame with header `g`
and payload length `len`, over the reads of the frame: those in between and the last one. -/
structure FrameRule (cb : Callbacks) (g : FrameT) (len : ℕ) (F : Conn → ℕ → List UInt8 → Prop) :
    Prop where
  after : ∀ {c k n bs}, c.ntoread = k → 0 < k → whole c (bs.take k) = none →
    (c.step = .one → parseFrameHeader (bs.take k) c.frame = g) →
    (frameReadCb cb c (bs.take k)).step ≠ .one →
    F (frameReadCb cb c (bs.take k)) n (bs.drop k) → F c (k+n) bs
  last : ∀ {c f bs}, c.step ≠ .one → whole c (bs.take c.ntoread) = some f → SameHeader f g →
    f.payloadLen = len →
    (c.step = .three ∧ len = 0 ∧ c.ntoread = 4 ∨ c.step = .four ∧ 0 < len ∧ c.ntoread = len) →
    F c c.ntoread bs

theorem FrameRule.body {g : FrameT} {F : Conn → ℕ → List UInt8 → Prop}
    (h : FrameRule cb g c.frame.payloadLen F) (hstep : c.step = .three) (hn : c.ntoread = 4)
    (hf : SameHeader c.frame g) (bs : List UInt8) : F c (4+c.frame.payloadLen) bs := by
  have hone : c.step ≠ .one := by rw [hstep]; decide
  rcases Nat.eq_zero_or_pos c.frame.payloadLen with hlen | hpos
  · have hlast : F c c.ntoread bs :=
      h.last hone (whole_three hstep hlen) hf rfl (.inl ⟨hstep,hlen,hn⟩)
    rwa [hlen,Nat.add_zero,← hn]
  · have hread : frameReadCb cb c (bs.take 4) =
        { c with frame := { c.frame with maskingKey := bs.take 4 } }.expect .four
          c.frame.payloadLen := by
      simp [frameReadCb,hstep,hpos]
    refine h.after hn (by norm_num) (by simp [whole,hstep,hpos]) (fun h => absurd h hone) ?_ ?_
    · simp [hread,Conn.expect]
    · rw [hread]
      refine h.last (by simp [Conn.expect]) (whole_four rfl) ?_ ?_ (.inr ⟨rfl,hpos,rfl⟩) <;>
        simp only [Conn.expect,hpos,if_true,unmaskPayloadData]
      exact hf

theorem FrameRule.frame {g : FrameT} {F : Conn → ℕ → List UInt8 → Prop} {c₁ c₂ : UInt8}
    {rest : List UInt8} (h : FrameRule cb g (declaredLength g rest) F) (hstep : c.step = .one)
    (hn : c.ntoread = 2) (hg : parseFrameHeader [c₁,c₂] c.frame = g) :
    F c (2+(extendedBytes g+(4+declaredLength g rest))) (c₁::c₂::rest) := by
  have hle : g.payloadLen ≤ 127 := by
    simp only [← hg,parseFrameHeader,UInt8.toNat_and]
    exact Nat.and_le_right
  have hwhole : whole c ((c₁::c₂::rest).take 2) = none := by simp [whole,hstep]
  by_cases h126 : g.payloadLen = 126
  · have hread : frameReadCb cb c ((c₁::c₂::rest).take 2) = { c with frame := g }.expect .two 2 := by
      simp [frameReadCb,hstep,hg,h126]
    refine h.after hn (by norm_num) hwhole (fun _ => hg) (by rw [hread]; simp [Conn.expect]) ?_
    rw [hread]
    simp only [extendedBytes,declaredLength,h126,if_true] at h ⊢
    have hread₂ : frameReadCb cb ({ c with frame := g }.expect .two 2) (rest.take 2) =
        { c with frame := { g with payloadLen := myntohs (ofLE (rest.take 2)) } }.expect .three 4 := by
      simp [frameReadCb,Conn.expect,h126,List.take_take]
    refine h.after rfl (by norm_num) (by simp [whole,Conn.expect]) (by simp [Conn.expect]) ?_ ?_
    · rw [List.drop_succ_cons,List.drop_succ_cons,List.drop_zero,hread₂]
      simp [Conn.expect]
    · rw [List.drop_succ_cons,List.drop_succ_cons,List.drop_zero,hread₂]
      exact FrameRule.body (g:=g) (c:={ c with
        frame := { g with payloadLen := myntohs (ofLE (rest.take 2)) } }.expect .three 4)
        h rfl rfl ⟨rfl,rfl,rfl⟩ _
  · by_cases h127 : g.payloadLen = 127
    · have hread : frameReadCb cb c ((c₁::c₂::rest).take 2) = { c with frame := g }.expect .two 8 := by
        simp [frameReadCb,hstep,hg,h127]
      refine h.after hn (by norm_num) hwhole (fun _ => hg) (by rw [hread]; simp [Conn.expect]) ?_
      rw [hread]
      simp only [extendedBytes,declaredLength,if_neg h126,if_pos h127] at h ⊢
      have hread₂ : frameReadCb cb ({ c with frame := g }.expect .two 8) (rest.take 8) =
          { c with frame := { g with payloadLen := myntohll (ofLE (rest.take 8)) } }.expect
            .three 4 := by
        simp [frameReadCb,Conn.expect,h127,List.take_take]
      refine h.after rfl (by norm_num) (by simp [whole,Conn.expect]) (by simp [Conn.expect]) ?_ ?_
      · rw [List.drop_succ_cons,List.drop_succ_cons,List.drop_zero,hread₂]
        simp [Conn.expect]
      · rw [List.drop_succ_cons,List.drop_succ_cons,List.drop_zero,hread₂]
        exact FrameRule.body (g:=g) (c:={ c with
          frame := { g with payloadLen := myntohll (ofLE (rest.take 8)) } }.expect .three 4)
          h rfl rfl ⟨rfl,rfl,rfl⟩ _
    · have h125 : g.payloadLen ≤ 125 := by omega
      have hread : frameReadCb cb c ((c₁::c₂::rest).take 2) =
          { c with frame := g }.expect .three 4 := by
        simp [frameReadCb,hstep,hg,h125]
      refine h.after hn (by norm_num) hwhole (fun _ => hg) (by rw [hread]; simp [Conn.expect]) ?_
      rw [hread]
      simp only [extendedBytes,declaredLength,h126,h127,if_false,Nat.zero_add] at h ⊢
      exact FrameRule.body (g:=g) (c:={ c with frame := g }.expect .three 4) h rfl rfl ⟨rfl,rfl,rfl⟩ _

theorem frameRule_frameReads (cb : Callbacks) (hs : List FrameT) (g : FrameT) (len : ℕ) :
    FrameRule cb g len fun c n bs =>
      FrameReads cb (c,if c.step = .one then hs else hs++[g]) (hs++[g]) g n bs where
  after {c k n bs} hk _ hwhole hg hstep h := by
    rw [if_neg hstep] at h
    refine FrameReads.after hk (by simp [calledBack,hwhole]) ?_ h
    by_cases hone : c.step = .one
    · simp only [watched,if_pos hone,hg hone]
    · simp only [watched,if_neg hone]
  last {c f bs} hone hwhole hf hlen hstep := by
    rw [if_neg hone]
    refine frameReads_whole rfl hone hwhole hf ?_ (by simp)
    exact hstep.imp (fun h => ⟨h.1,hlen.trans h.2.1⟩) (·.1)

/-- The lengths in a header do not depend on the frame it is parsed into. -/
theorem nextFrame_cons (c₁ c₂ : UInt8) (rest : List UInt8) (frame : FrameT) :
    nextFrame (c₁::c₂::rest) =
      if extendedBytes (parseFrameHeader [c₁,c₂] frame)+4+
          declaredLength (parseFrameHeader [c₁,c₂] frame) rest ≤ rest.length then
        some (parseFrameHeader [c₁,c₂] frameRecvLoop.frame,
          rest.drop (extendedBytes (parseFrameHeader [c₁,c₂] frame)+4+
            declaredLength (parseFrameHeader [c₁,c₂] frame) rest))
      else none := rfl

theorem nextFrame_none {c₁ c₂ : UInt8} {rest : List UInt8} (frame : FrameT)
    (h : nextFrame (c₁::c₂::rest) = none) :
    (c₁::c₂::rest).length < 2+(extendedBytes (parseFrameHeader [c₁,c₂] frame)+
      (4+declaredLength (parseFrameHeader [c₁,c₂] frame) rest)) := by
  rw [nextFrame_cons c₁ c₂ rest frame] at h
  split at h
  · simp at h
  · rw [List.length_cons,List.length_cons]
    omega

theorem nextFrame_some {c₁ c₂ : UInt8} {rest tail : List UInt8} {f : FrameT} (frame : FrameT)
    (h : nextFrame (c₁::c₂::rest) = some (f,tail)) :
    let n := 2+(extendedBytes (parseFrameHeader [c₁,c₂] frame)+
      (4+declaredLength (parseFrameHeader [c₁,c₂] frame) rest))
    f = parseFrameHeader [c₁,c₂] frameRecvLoop.frame ∧ tail = (c₁::c₂::rest).drop n ∧
      n ≤ (c₁::c₂::rest).length := by
  rw [nextFrame_cons c₁ c₂ rest frame] at h
  split at h
  · obtain ⟨rfl,rfl⟩ := Prod.mk.inj (Option.some.inj h)
    refine ⟨rfl,?_,?_⟩
    · rw [Nat.add_comm 2,← Nat.add_assoc]
      rfl
    · rw [List.length_cons,List.length_cons]
      omega
  · simp at h

theorem everyRead_next (hstep : c.step = .one) (hn : c.ntoread = 2) (bs : List UInt8) :
    (nextFrame bs = none → (watched cb).EveryRead CallsBackValid (c,hs) bs) ∧
    ∀ g rest, nextFrame bs = some (g,rest) → rest.length < bs.length ∧
      (g.isClose = true → (watched cb).EveryRead CallsBackValid (c,hs) bs) ∧
      (g.isClose = false → ∃ c' h, c'.step = .one ∧ c'.ntoread = 2 ∧
        (isFrameValid h = true ↔ g.mask = 1) ∧
        ((watched cb).EveryRead CallsBackValid (c,hs) bs ↔
          (g.isPing = false → ∀ v ∈ hs++[h], isFrameValid v = true) ∧
            (watched cb).EveryRead CallsBackValid (c',hs++[h]) rest)) := by
  rcases bs with _ | ⟨c₁,_ | ⟨c₂,rest⟩⟩
  · exact ⟨fun _ => everyRead_of_short (by simp [watched,hn]),by simp [nextFrame]⟩
  · exact ⟨fun _ => everyRead_of_short (by simp [watched,hn]),by simp [nextFrame]⟩
  · set h := parseFrameHeader [c₁,c₂] c.frame with hh
    have hframe := (frameRule_frameReads cb hs h (declaredLength h rest)).frame hstep hn hh.symm
    rw [if_pos hstep] at hframe
    obtain ⟨hshort,hlong⟩ := hframe
    refine ⟨fun hnone => hshort (nextFrame_none c.frame hnone),?_⟩
    rintro g tail heq
    obtain ⟨rfl,rfl,hle⟩ := nextFrame_some c.frame heq
    obtain ⟨hclose,hopen⟩ := hlong hle
    refine ⟨?_,hclose,fun hc => ?_⟩
    · rw [List.length_drop,List.length_cons,List.length_cons]
      omega
    · obtain ⟨c',h₁,h₂,hreads⟩ := hopen hc
      exact ⟨c',h,h₁,h₂,isFrameValid_parse _ _,hreads⟩

/-- `MaskedUpToCall` of the frames to come, `ok` telling whether the earlier ones are masked. -/
def MaskedFrom (ok : Prop) : List FrameT → Prop
  | [] => True
  | h::t => (h.isPing = false → ok ∧ h.mask = 1) ∧ MaskedFrom (ok ∧ h.mask = 1) t

theorem maskedFrom_iff (ok : Prop) (ws : List FrameT) : MaskedFrom ok ws ↔
    ∀ (i : ℕ) h, ws[i]? = some h → h.isPing = false → ok ∧ ∀ v ∈ ws.take (i+1), v.mask = 1 := by
  induction ws generalizing ok with
  | nil => simp [MaskedFrom]
  | cons h t ih =>
    rw [MaskedFrom,ih]
    constructor
    · rintro ⟨hfirst,hrest⟩ i x hx hp
      cases i with
      | zero =>
        obtain rfl : h = x := by simpa using hx
        simpa using hfirst hp
      | succ i =>
        obtain ⟨⟨hok,hmask⟩,hall⟩ := hrest i x (by simpa using hx) hp
        refine ⟨hok,fun v hv => ?_⟩
        rw [List.take_succ_cons] at hv
        rcases List.mem_cons.mp hv with rfl | hv
        · exact hmask
        · exact hall v hv
    · intro hall
      refine ⟨fun hp => ?_,fun i x hx hp => ?_⟩
      · simpa using hall 0 h rfl hp
      · obtain ⟨hok,hmask⟩ := hall (i+1) x (by simpa using hx) hp
        rw [List.take_succ_cons] at hmask
        exact ⟨⟨hok,hmask h List.mem_cons_self⟩,fun v hv => hmask v (List.mem_cons_of_mem _ hv)⟩

theorem everyRead_frames (n : ℕ) (hle : bs.length ≤ n) (hstep : c.step = .one)
    (hn : c.ntoread = 2) : (watched cb).EveryRead CallsBackValid (c,hs) bs ↔
      MaskedFrom (∀ h ∈ hs, isFrameValid h = true) (wireFrames n bs) := by
  induction n generalizing bs c hs with
  | zero =>
    have hshort : bs.length < (watched cb).need (c,hs) := by simp only [watched,hn]; omega
    exact iff_of_true (everyRead_of_short hshort) trivial
  | succ n ih =>
    obtain ⟨hnone,hsome⟩ := @everyRead_next cb c hs hstep hn bs
    rw [wireFrames]
    cases hnext : nextFrame bs with
    | none => exact iff_of_true (hnone hnext) trivial
    | some gr =>
      obtain ⟨g,rest⟩ := gr
      obtain ⟨hlt,hclose,hopen⟩ := hsome g rest hnext
      simp only
      cases hc : g.isClose with
      | true => exact iff_of_true (hclose hc) trivial
      | false =>
        obtain ⟨c',h,h₁,h₂,hvalid,hreads⟩ := hopen hc
        have hall : (∀ v ∈ hs++[h], isFrameValid v = true) ↔
            (∀ v ∈ hs, isFrameValid v = true) ∧ g.mask = 1 := by
          rw [List.forall_mem_append,← hvalid,List.forall_mem_singleton]
        rw [hreads,ih (by omega) h₁ h₂,hall]
        rfl

/-- No callback for or behind an invalid frame, exactly on the streams whose frames are
masked up to every one that is called back. -/
theorem rejects_iff (cb : Callbacks) (bs : List UInt8) :
    Rejects cb bs ↔ MaskedUpToCall (wireFrames bs.length bs) := by
  have hstream := @everyRead_frames cb frameRecvLoop [] bs bs.length le_rfl rfl rfl
  rw [everyRead_iff_reachable,maskedFrom_iff] at hstream
  refine Iff.trans hstream ⟨fun h i x hx hp => (h i x hx hp).2,fun h i x hx hp => ⟨by simp,h i x hx hp⟩⟩

/-- An unmasked text frame with one payload byte, and four bytes taken for its key. -/
theorem not_rejects_unmasked : ¬∀ bs, Rejects ⟨fun _ => [],fun _ => []⟩ bs := by
  intro hall
  let r := watched ⟨fun _ => [],fun _ => []⟩
  let bs : List UInt8 := [0x81,0x01,0,0,0,0,72]
  let run := (r.system (frameRecvLoop,[])).exec ⟨(frameRecvLoop,[]),[],[]⟩ [.arrive bs,.read,.read]
  have hrun : run.map (fun s => (s.received,r.need s.machine,s.buffered.length,
      (calledBack s.machine.1 (s.buffered.take (r.need s.machine))).map isFrameValid)) =
      some (bs,1,1,some false) := by decide
  obtain ⟨s,hs,hval⟩ := Option.map_eq_some_iff.mp hrun
  simp only [Prod.mk.injEq,Option.map_eq_some_iff] at hval
  obtain ⟨hreceived,hneed,hlen,f,hf,hinvalid⟩ := hval
  have hvalid := (hall bs s (ReachableBy.exec (fun _ _ _ => trivial) (.init rfl) hs)
    (hreceived ▸ List.prefix_refl bs) (hneed.trans hlen.symm).le f hf).1
  exact Bool.false_ne_true (hinvalid.symm.trans hvalid)

end WebSocket
end SdkCp
