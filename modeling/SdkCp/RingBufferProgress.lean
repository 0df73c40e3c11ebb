import SdkCp.RingBufferAccess

/-! A drained `ring_buffer` takes every admitted block. Near the end of the buffer the block also
pays for the filler; in the smallest guarded buffer there is room for both only at the offsets
that are reached. -/
namespace SdkCp
namespace RingBuffer

variable {cfg : Config}

/-- The consumer has caught up. -/
def CaughtUp (s : State) : Prop := s.buf.ixRead = s.buf.ixWrite

/-- The running `allocate`, if any, finds room at its next look. -/
structure FindsRoom (cfg : Config) (s : State) : Prop where
  border : ∀ f, s.writer = .border f → borderTaken cfg s.buf f = false
  finish : ∀ f, s.writer = .finish f → endTaken cfg s.buf f = false

/-- `allocate` on its own, from its begin to its end: it looks at `_ix_read` once or twice. -/
def allocateCall (cfg : Config) (s : State) (size : ℕ) (noWait : Bool) : Option State :=
  (step cfg s (.allocate size noWait)).bind fun s =>
    match s.writer with
    | .idle => some s
    | .border _ => (stepAllocate cfg s).bind (stepAllocate cfg)
    | .finish _ => stepAllocate cfg s

/-- The write offsets of a guarded buffer of 64 bytes with slots of 16. -/
def EndOffset (cfg : Config) (ixWrite : ℕ) : Prop :=
  cfg.useGuard = true → cfg.kSizeBound = 6 → ixWrite % 64 = 0 ∨ ixWrite % 64 = 48

theorem kOverhead_eq (h16 : cfg.kSlotBound = 4) : cfg.kOverhead = if cfg.useGuard then 32 else 16 := by
  cases hg : cfg.useGuard <;>
    simp [Config.prefixSize,Config.kOverhead,Config.postfixSize,Config.paddingSize,
      Config.slotAlignmentMask,Config.slotAlignment,h16,hg,Nat.shiftRight_eq_div_pow]

theorem endOffset_step (h16 : cfg.kSlotBound = 4) {s t : State} {e : Event} (h : Inv cfg s)
    (hoff : EndOffset cfg s.buf.ixWrite) (hs : step cfg s e = some t) : EndOffset cfg t.buf.ixWrite := by
  by_cases he : e = .allocateStep
  · subst he
    intro hg hsize
    have h64 : cfg.size = 64 := by rw [Config.size,hsize]; norm_num
    have hover : cfg.kOverhead = 32 := by rw [kOverhead_eq h16,hg]; rfl
    have hoff := hoff hg hsize
    rcases h.allocateStep_ixWrite hs with heq | ⟨n,hpos,hle,hcase⟩
    · rwa [heq]
    · rw [h64,hover,roundUp_sixteen h16] at hcase
      rw [h64] at hle
      omega
  · rwa [step_ixWrite hs he]

theorem inv_endOffset (h16 : cfg.kSlotBound = 4) {s : State} (h : (system cfg).Reachable s) :
    Inv cfg s ∧ EndOffset cfg s.buf.ixWrite := by
  refine h.invariant (P:=fun s => Inv cfg s ∧ EndOffset cfg s.buf.ixWrite) ?_ ?_
  · rintro _ rfl
    exact ⟨inv_initial,fun _ _ => .inl rfl⟩
  · rintro s e t ⟨hinv,hoff⟩ - hs
    refine ⟨?_,endOffset_step h16 hinv hoff hs⟩
    obtain ⟨_,_,_,_,hat⟩ := hinv
    exact inv_step (hat.fillerFits (Config.prefixSize_eq h16.ge)) ⟨_,_,_,_,hat⟩ hs

section Room

variable {s : State} {R W k : ℕ} {ss : List Seg} {f : Frame}

theorem size_ge (cfg : Config) : cfg.size = 64 ∨ 128 ≤ cfg.size := by
  rcases Nat.lt_or_ge cfg.kSizeBound 7 with hlt | hge
  · have h6 : cfg.kSizeBound = 6 := by have := cfg.size_ge; omega
    exact .inl (by rw [Config.size,h6]; norm_num)
  · exact .inr ((Nat.pow_le_pow_right (by norm_num) hge : 2^7 ≤ 2^cfg.kSizeBound))

theorem FrameOk.commit_le (h16 : cfg.kSlotBound = 4) {rem : ℕ} (hfr : FrameOk cfg f W rem) :
    f.dataSize+cfg.kOverhead ≤ cfg.size/4+cfg.kOverhead := by
  have hle := hfr.requested_le
  have hquarter : 16 ∣ cfg.size/4 := by
    refine ⟨2^(cfg.kSizeBound-6),?_⟩
    have hsplit : cfg.size = 2^(cfg.kSizeBound-6)*64 := by
      rw [Config.size,show (64 : ℕ) = 2^6 by norm_num,← pow_add]
      congr 1
      have := cfg.size_ge
      omega
    omega
  rw [hfr.data,roundUp_sixteen h16]
  omega

/-- A block that crosses the end of the buffer fits before its own start. -/
theorem commit_le_offset (h16 : cfg.kSlotBound = 4) {rem : ℕ} (hfr : FrameOk cfg f W rem)
    (hoff : EndOffset cfg (W % 2^cfg.wordBits)) (hcross : cfg.size ≤ W % cfg.size+(f.dataSize+cfg.kOverhead)) :
    f.dataSize+cfg.kOverhead ≤ W % cfg.size := by
  have hle := hfr.commit_le h16
  have hover := @kOverhead_eq cfg h16
  cases hg : cfg.useGuard with
  | false =>
    rw [hg] at hover
    simp only [Bool.false_eq_true,if_false] at hover
    have := size_ge cfg
    omega
  | true =>
    rw [hg] at hover
    simp only [if_true] at hover
    rcases size_ge cfg with h64 | h128
    · have h6 : cfg.kSizeBound = 6 := by
        by_contra hne
        have h7 : 7 ≤ cfg.kSizeBound := by have := cfg.size_ge; omega
        have : 2^7 ≤ cfg.size := Nat.pow_le_pow_right (by norm_num) h7
        omega
      have hix := hoff hg h6
      rw [← h64,Nat.mod_mod_of_dvd _ cfg.size_dvd_word] at hix
      omega
    · omega

theorem InvAt.findsRoom (h16 : cfg.kSlotBound = 4) (h : InvAt cfg s R W ss k)
    (hoff : EndOffset cfg s.buf.ixWrite) (hcaught : CaughtUp s) : FindsRoom cfg s := by
  have hread : s.buf.ixRead = W % 2^cfg.wordBits := hcaught.trans h.write
  have hsz := cfg.size_le
  have hword := cfg.word_ge
  have hover := @kOverhead_eq cfg h16
  have hge := size_ge cfg
  have hslot : cfg.prefixSize = 16 := by
    rw [Config.prefixSize_eq h16.ge,Config.slotAlignment,h16]
    norm_num
  have hsmall : cfg.kOverhead ≤ 32 := by
    rw [hover]
    split <;> omega
  have hwr := h.writer
  constructor
  · intro f hf
    rw [hf] at hwr
    simp only [borderTaken,hwr.1.beg,hread,Nat.add_zero,cfg.add_mod_word,decide_eq_false_iff_not,not_lt]
    rw [cfg.sub_mod_word (by omega) (by omega)]
    omega
  · intro f hf
    rw [hf] at hwr
    rcases hwr with ⟨hfr,-⟩ | ⟨hfr,hcross,-⟩
    · have hle := hfr.commit_le h16
      simp only [endTaken,hfr.fin,hread,decide_eq_false_iff_not,not_lt]
      rw [cfg.sub_mod_word (by omega) (by omega)]
      omega
    · rw [h.write] at hoff
      have hle := commit_le_offset h16 hfr hoff hcross
      have hWn := Nat.mod_lt W cfg.size_pos
      simp only [endTaken,hfr.fin,hread,decide_eq_false_iff_not,not_lt]
      rw [cfg.sub_mod_word (by omega) (by omega)]
      omega

theorem stepAllocate_finish (hf : s.writer = .finish f) (hfree : endTaken cfg s.buf f = false) :
    ∃ t, stepAllocate cfg s = some t ∧ t.writer = .idle ∧ t.log = s.log ++ [f.entry cfg] := by
  refine ⟨{ s with buf := publish cfg s.buf f, writer := .idle, log := s.log ++ [f.entry cfg]
                   asserts := s.asserts && cfg.pos f.handle == f.bufferPos },?_,rfl,rfl⟩
  simp only [stepAllocate,hf,hfree,Bool.false_eq_true,if_false]

theorem InvAt.allocateCall (h16 : cfg.kSlotBound = 4) (h : InvAt cfg s R W ss k)
    (hoff : EndOffset cfg s.buf.ixWrite) (hcaught : CaughtUp s) (hidle : s.writer = .idle) {n : ℕ}
    (hpos : 0 < n) (hle : n ≤ cfg.size/4) (noWait : Bool) :
    ∃ t e, allocateCall cfg s n noWait = some t ∧ t.writer = .idle ∧ t.log = s.log ++ [e] ∧
      e.requested = n := by
  obtain ⟨f,hf,hreq⟩ : ∃ f, allocateBegin cfg s.buf n noWait = some f ∧ f.requested = n := by
    rw [allocateBegin,if_neg (by rw [Nat.shiftRight_eq_div_pow]; omega)]
    exact ⟨_,rfl,rfl⟩
  have hbegin : step cfg s (.allocate n noWait) =
      some { s with writer := if crosses cfg f then .border f else .finish f } := by
    simp only [step,hf,hidle]
  obtain ⟨R₁,W₁,ss₁,k₁,h₁⟩ := inv_allocate ⟨R,W,ss,k,h⟩ hbegin
  have hroom := h₁.findsRoom h16 hoff hcaught
  cases hcross : crosses cfg f with
  | false =>
    simp only [hcross,Bool.false_eq_true,if_false] at hbegin hroom
    obtain ⟨t,ht,hw,hlog⟩ := stepAllocate_finish rfl (hroom.finish f rfl)
    refine ⟨t,_,?_,hw,hlog,hreq⟩
    simp only [RingBuffer.allocateCall,hbegin,Option.bind_some]
    exact ht
  | true =>
    simp only [hcross,if_true] at hbegin hroom h₁
    have hfree := hroom.border f rfl
    have h₂ := h₁.wrap rfl hfree
    have hroom₂ := h₂.findsRoom h16 hoff hcaught
    obtain ⟨t,ht,hw,hlog⟩ := stepAllocate_finish rfl (hroom₂.finish _ rfl)
    refine ⟨t,_,?_,hw,hlog,hreq⟩
    simp only [RingBuffer.allocateCall,hbegin,Option.bind_some]
    simp only [stepAllocate,hfree,Bool.false_eq_true,if_false,Option.bind_some]
    exact ht

theorem InvAt.segs_nil (h : InvAt cfg s R W ss k) (hcaught : CaughtUp s) : ss = [] := by
  by_contra hne
  have hpos := h.chain.segsLen_pos hne
  have htot := h.total
  have hroom := h.room
  have hsz := cfg.size_le
  have hword := cfg.word_ge
  have hdist := cfg.sub_mod_word (a:=W) (b:=R) (by omega) (by omega)
  rw [← h.read,← h.write,hcaught,h.write,cfg.sub_mod_word le_rfl (by omega)] at hdist
  omega

theorem InvAt.caughtUp_step (h : InvAt cfg s R W ss k) (hcaught : CaughtUp s) {t : State} {e : Event}
    (hs : step cfg s e = some t) (hlog : t.log.length = s.log.length) : CaughtUp t := by
  have hnil := h.segs_nil hcaught
  have hrd := h.reader
  rw [hnil] at hrd
  cases e with
  | peekStep =>
    simp only [step,stepPeek] at hs
    split at hs
    · rename_i readIx hr
      split at hs
      · rename_i hix
        rw [← Option.some.inj hs]
        have hlt : s.buf.ixWrite < 2^cfg.wordBits := h.write ▸ Nat.mod_lt _ (Nat.two_pow_pos _)
        have hsame : (advanceRead cfg s.buf readIx).ixRead = s.buf.ixWrite := by
          rw [CaughtUp] at hcaught
          simp only [advanceRead,← hix,hcaught,Config.add,Config.sub]
          rw [Nat.add_sub_cancel' hlt.le,Nat.mod_self,Nat.add_zero,Nat.mod_eq_of_lt hlt]
        exact hsame
      · split at hs <;> (rw [← Option.some.inj hs]; exact hcaught)
    · cases hs
  | freeStep =>
    simp only [step,stepFree] at hs
    split at hs
    · rename_i readIx payload hr
      rw [hr] at hrd
      obtain ⟨pre,mid,e,post,hsplit,-⟩ := hrd
      simp at hsplit
    · cases hs
  | peek =>
    simp only [step] at hs
    split at hs
    · rw [← Option.some.inj hs]
      exact hcaught
    · rw [← Option.some.inj hs]
      exact hcaught
    · cases hs
  | free =>
    simp only [step] at hs
    split at hs
    · rw [← Option.some.inj hs]
      exact hcaught
    · cases hs
  | allocateStep =>
    cases step_changes hs with
    | writer => exact hcaught
    | publish => simp at hlog
    | block => exact hcaught
    | consumer hev => cases hev
  | _ =>
    cases step_changes hs with
    | writer => exact hcaught
    | block => exact hcaught
    | consumer hev => cases hev

end Room

/-- In every reachable state in which the consumer has caught up, `allocate` of up to a quarter of the
buffer succeeds; a call that is under way finds room at its next look, and the buffer stays
drained until the block is published. -/
theorem drained_progress (h16 : cfg.kSlotBound = 4) {s : State} (h : (system cfg).Reachable s)
    (hcaught : CaughtUp s) :
    (s.writer = .idle → ∀ n, 1 ≤ n → n ≤ cfg.size/4 → ∀ noWait, ∃ t e,
      allocateCall cfg s n noWait = some t ∧ t.writer = .idle ∧ t.log = s.log ++ [e] ∧ e.requested = n) ∧
    FindsRoom cfg s ∧
    ∀ e t, step cfg s e = some t → t.log.length = s.log.length → CaughtUp t := by
  obtain ⟨⟨R,W,ss,k,hinv⟩,hoff⟩ := inv_endOffset h16 h
  exact ⟨fun hidle n hpos hle => hinv.allocateCall h16 hoff hcaught hidle hpos hle,
    hinv.findsRoom h16 hoff hcaught,fun e t => hinv.caughtUp_step hcaught⟩

def Writer.isIdle : Writer → Bool
  | .idle => true
  | .border _ | .finish _ => false

theorem Writer.isIdle_iff {w : Writer} : w.isIdle = true ↔ w = .idle := by
  cases w <;> simp [isIdle]

/-- The smallest guarded buffer, with 64-bit indices. -/
def guarded64 : Config := ⟨6,4,true,64,by decide,by decide,by decide,by decide,.inr rfl⟩

/-- There the second block takes the filler and everything else. -/
theorem drained_progress_guarded64 : ∃ s t e, (system guarded64).exec initial [.allocate 16 true,.allocateStep,
    .commit 0,.peek,.peekStep,.free,.freeStep] = some s ∧ s.buf.ixWrite = 48 ∧
    allocateCall guarded64 s 16 true = some t ∧ t.log = s.log ++ [e] := by
  have hrun : ((system guarded64).exec initial [.allocate 16 true,.allocateStep,.commit 0,.peek,.peekStep,
      .free,.freeStep]).map (fun s => (s.buf.ixRead,s.buf.ixWrite,s.writer.isIdle)) =
      some (48,48,true) := by decide
  obtain ⟨s,hs,hfacts⟩ := Option.map_eq_some_iff.mp hrun
  obtain ⟨hread,hrest⟩ := Prod.mk.inj hfacts
  obtain ⟨hwrite,hwriter⟩ := Prod.mk.inj hrest
  have hidle := Writer.isIdle_iff.mp hwriter
  obtain ⟨t,e,hcall,-,hlog,-⟩ := (drained_progress (show guarded64.kSlotBound = 4 from rfl)
    (TransitionSystem.ReachableBy.exec (fun _ _ _ => trivial) (.init rfl) hs)
    (hread.trans hwrite.symm)).1 hidle 16 (by norm_num) (by decide) true
  exact ⟨s,t,e,hs,hwrite,hcall,hlog⟩

end RingBuffer
end SdkCp
