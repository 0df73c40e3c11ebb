import SdkCp.WebSocket

/-! The receive path on any bytes: which portion each step waits for, and that no callback
asks more of its buffers than they hold. -/
namespace SdkCp
namespace WebSocket

open Bytes StreamReader TransitionSystem

/-- What a callback could do wrong: fail an assertion, write behind a buffer, use bytes that
it has not read, or `exit` in an unknown step. -/
inductive Fault
  | assertion | overflow | unread | exit

/-- `bufferevent_read` of at most `n` bytes of the input into a buffer of `room` bytes, with
what is left of the input. -/
def buffereventRead (input : List UInt8) (n room : ℕ) : Except Fault (List UInt8 × List UInt8) :=
  if room < min n input.length then .error .overflow else .ok (input.take n,input.drop n)

/-- The bytes of the extended payload length that step TWO converts. -/
def lengthBytes (payloadLen : ℕ) : ℕ :=
  if payloadLen = 126 then 2 else if payloadLen = 127 then 8 else 0

/-- `frame_read_cb` on everything that is buffered, with its local and its heap buffers:
`tmp` has 16 bytes, `masking_key` 4 and `payload_data` `payload_len`. -/
def frameReadChecked (cb : Callbacks) (c : Conn) (input : List UInt8) :
    Except Fault (Conn × List UInt8) :=
  match c.step with
  | .one =>
    if 16 < c.ntoread then .error .assertion
    else (buffereventRead input c.ntoread 16).bind fun (tmp,rest) =>
      if tmp.length < 2 then .error .unread else .ok (frameReadCb cb c tmp,rest)
  | .two =>
    if 16 < c.ntoread then .error .assertion
    else (buffereventRead input c.ntoread 16).bind fun (tmp,rest) =>
      if tmp.length < lengthBytes c.frame.payloadLen then .error .unread
      else .ok (frameReadCb cb c tmp,rest)
  | .three =>
    if 16 < c.ntoread then .error .assertion
    else (buffereventRead input c.ntoread 16).bind fun (tmp,rest) =>
      -- `memcpy(masking_key, tmp, ntoread)`
      if tmp.length < c.ntoread then .error .unread
      else if 4 < c.ntoread then .error .overflow
      else .ok (frameReadCb cb c tmp,rest)
  | .four =>
    if 0 < c.frame.payloadLen then
      (buffereventRead input c.frame.payloadLen c.frame.payloadLen).bind fun (data,rest) =>
        -- `unmask_payload_data` goes over the whole buffer
        if data.length < c.frame.payloadLen then .error .unread
        else .ok (frameReadCb cb c data,rest)
    else .ok (frameReadCb cb c [],input)
  | .zero => .error .exit

/-- The portion that each step waits for. -/
def Expects (c : Conn) : Prop :=
  match c.step with
  | .zero => False
  | .one => c.ntoread = 2
  | .two => c.ntoread = lengthBytes c.frame.payloadLen ∧ (c.ntoread = 2 ∨ c.ntoread = 8)
  | .three => c.ntoread = 4
  | .four => c.ntoread = c.frame.payloadLen ∧ 0 < c.frame.payloadLen

/-- The invariant of the receive path. -/
structure Steady (c : Conn) : Prop where
  expects : Expects c
  length_lt : c.frame.payloadLen < 2^64
  no_exit : Effect.exit ∉ c.effects

variable {cb : Callbacks} {c : Conn} {tmp : List UInt8}

theorem myntohl_lt (n : ℕ) : myntohl n < 2^32 := by
  have h₁ : (n &&& 0xff000000) >>> 24 < 2^32 := by
    have := Nat.and_le_right (n:=n) (m:=0xff000000)
    rw [Nat.shiftRight_eq_div_pow]
    omega
  have h₂ : (n &&& 0x00ff0000) >>> 8 < 2^32 := by
    have := Nat.and_le_right (n:=n) (m:=0x00ff0000)
    rw [Nat.shiftRight_eq_div_pow]
    omega
  have h₃ : (n &&& 0x0000ff00) <<< 8 < 2^32 := by
    have := Nat.and_le_right (n:=n) (m:=0x0000ff00)
    rw [Nat.shiftLeft_eq]
    omega
  have h₄ : (n &&& 0x000000ff) <<< 24 < 2^32 := by
    have := Nat.and_le_right (n:=n) (m:=0x000000ff)
    rw [Nat.shiftLeft_eq]
    omega
  exact Nat.or_lt_two_pow (Nat.or_lt_two_pow (Nat.or_lt_two_pow h₁ h₂) h₃) h₄

theorem myntohs_lt {n : ℕ} : myntohs n < 2^16 := by
  have h₁ : (n &&& 0xff00) >>> 8 < 2^16 := by
    have := Nat.and_le_right (n:=n) (m:=0xff00)
    rw [Nat.shiftRight_eq_div_pow]
    omega
  have h₂ : (n &&& 0x00ff) <<< 8 < 2^16 := by
    have := Nat.and_le_right (n:=n) (m:=0x00ff)
    rw [Nat.shiftLeft_eq]
    omega
  exact Nat.or_lt_two_pow h₁ h₂

theorem myntohll_lt (n : ℕ) : myntohll n < 2^64 := by
  have hlow := myntohl_lt (n >>> 32)
  have hhigh : myntohl (n % 2^32) <<< 32 < 2^64 := by
    have := myntohl_lt (n % 2^32)
    rw [Nat.shiftLeft_eq]
    omega
  exact Nat.or_lt_two_pow (by omega) hhigh

theorem parseFrameHeader_le (tmp : List UInt8) (f : FrameT) :
    (parseFrameHeader tmp f).payloadLen ≤ 127 := by
  simp only [parseFrameHeader,UInt8.toNat_and]
  exact Nat.and_le_right

theorem onPongReceived_keeps (c : Conn) : (onPongReceived cb c).frame = c.frame ∧
    (Effect.exit ∈ (onPongReceived cb c).effects → Effect.exit ∈ c.effects) := by
  by_cases hf : c.frame.fin = 1 <;> simp [onPongReceived,hf]

theorem onFrameReceived_keeps (c : Conn) : (onFrameReceived cb c).frame = c.frame ∧
    (Effect.exit ∈ (onFrameReceived cb c).effects → Effect.exit ∈ c.effects) := by
  by_cases hf : c.frame.fin = 1 <;> simp [onFrameReceived,hf]

theorem Steady.wholeFrame (h : Steady c) : Steady (wholeFrame cb c) := by
  unfold WebSocket.wholeFrame
  split
  · exact ⟨h.expects,h.length_lt,by simp [h.no_exit]⟩
  · have hkeeps : ∀ d : Conn, d.frame = c.frame → (Effect.exit ∈ d.effects → Effect.exit ∈ c.effects) →
        Steady (d.expect .one 2) := fun d hframe hexit =>
      ⟨rfl,by rw [Conn.expect,hframe]; exact h.length_lt,fun hd => h.no_exit (hexit hd)⟩
    split
    · exact hkeeps c rfl id
    · split
      · exact hkeeps _ (onPongReceived_keeps c).1 (onPongReceived_keeps c).2
      · exact hkeeps _ (onFrameReceived_keeps c).1 (onFrameReceived_keeps c).2

theorem unmaskPayloadData_payloadLen (f : FrameT) :
    (unmaskPayloadData f).payloadLen = f.payloadLen := by
  unfold unmaskPayloadData
  split <;> rfl

theorem Steady.read (h : Steady c) (tmp : List UInt8) : Steady (frameReadCb cb c tmp) := by
  obtain ⟨hexpects,hlt,hexit⟩ := h
  unfold frameReadCb
  cases hstep : c.step with
  | zero => simp [Expects,hstep] at hexpects
  | one =>
    have hle := parseFrameHeader_le tmp c.frame
    simp only
    split
    · exact ⟨rfl,by simp only [Conn.expect]; omega,hexit⟩
    · split
      · rename_i h126
        exact ⟨⟨by simp [Conn.expect,lengthBytes,h126],.inl rfl⟩,by simp only [Conn.expect]; omega,hexit⟩
      · split
        · rename_i h127
          exact ⟨⟨by simp [Conn.expect,lengthBytes,h127],.inr rfl⟩,by simp only [Conn.expect]; omega,hexit⟩
        · omega
  | two =>
    simp only
    refine ⟨rfl,?_,hexit⟩
    simp only [Conn.expect]
    split
    · exact (myntohs_lt).trans (by norm_num)
    · split
      · exact myntohll_lt _
      · exact hlt
  | three =>
    simp only
    split
    · rename_i hpos
      exact ⟨⟨rfl,hpos⟩,hlt,hexit⟩
    · exact Steady.wholeFrame ⟨by simpa [Expects,hstep] using hexpects,hlt,hexit⟩
  | four =>
    simp only [Expects,hstep] at hexpects
    simp only [hexpects.2,if_true]
    refine Steady.wholeFrame ⟨?_,?_,hexit⟩
    · simpa only [Expects,hstep,unmaskPayloadData_payloadLen] using hexpects
    · simpa only [unmaskPayloadData_payloadLen] using hlt

/-- What is buffered is enough for the callback, and fits into its buffers. -/
theorem Steady.checked (h : Steady c) {input : List UInt8} (hn : c.ntoread ≤ input.length) :
    frameReadChecked cb c input =
      .ok (frameReadCb cb c (input.take c.ntoread),input.drop c.ntoread) := by
  have hexpects := h.expects
  unfold frameReadChecked
  cases hstep : c.step with
  | zero => simp [Expects,hstep] at hexpects
  | one =>
    simp only [Expects,hstep] at hexpects
    simp only [buffereventRead]
    rw [if_neg (by omega),if_neg (by omega)]
    simp only [Except.bind,List.length_take]
    rw [if_neg (by omega)]
  | two =>
    simp only [Expects,hstep] at hexpects
    simp only [buffereventRead]
    rw [if_neg (by omega),if_neg (by omega)]
    simp only [Except.bind,List.length_take]
    rw [if_neg (by omega)]
  | three =>
    simp only [Expects,hstep] at hexpects
    simp only [buffereventRead]
    rw [if_neg (by omega),if_neg (by omega)]
    simp only [Except.bind,List.length_take]
    rw [if_neg (by omega),if_neg (by omega)]
  | four =>
    simp only [Expects,hstep] at hexpects
    simp only [buffereventRead]
    rw [if_pos hexpects.2,if_neg (by omega),← hexpects.1]
    simp only [Except.bind,List.length_take]
    rw [if_neg (by omega)]

theorem steady_frameRecvLoop : Steady frameRecvLoop :=
  ⟨rfl,by norm_num [frameRecvLoop],by simp [frameRecvLoop]⟩

theorem steady_of_reachable {s : State UInt8 Conn}
    (h : ((reader cb).system frameRecvLoop).Reachable s) : Steady s.machine := by
  refine h.invariant (P:=fun s => Steady s.machine) ?_ ?_
  · rintro _ rfl
    exact steady_frameRecvLoop
  · intro s e t hinv _ hs
    cases e with
    | arrive xs =>
      obtain rfl := Option.some.inj hs
      exact hinv
    | read =>
      simp only [system] at hs
      split at hs
      · obtain rfl := Option.some.inj hs
        exact hinv.read _
      · simp at hs

/-- Whatever arrives, every state waits for the portion of its step, and a callback that runs
then reads exactly this portion without a fault. -/
theorem receive_safe {s : State UInt8 Conn} (h : ((reader cb).system frameRecvLoop).Reachable s) :
    Expects s.machine ∧ s.machine.frame.payloadLen < 2^64 ∧ Effect.exit ∉ s.machine.effects ∧
    (s.machine.ntoread ≤ s.buffered.length →
      frameReadChecked cb s.machine s.buffered =
        .ok (frameReadCb cb s.machine (s.buffered.take s.machine.ntoread),
          s.buffered.drop s.machine.ntoread)) := by
  have hsteady := steady_of_reachable h
  exact ⟨hsteady.expects,hsteady.length_lt,hsteady.no_exit,hsteady.checked⟩

/-- After a close frame with one byte of payload, the next byte is read like a payload. -/
theorem receive_safe_closed : ∃ s : State UInt8 Conn,
    s.machine.step = .four ∧ s.machine.ntoread = 1 ∧ s.buffered = [7] ∧ Expects s.machine := by
  let r := reader ⟨fun _ => [],fun _ => []⟩
  let run := (r.system frameRecvLoop).exec ⟨frameRecvLoop,[],[]⟩
    [.arrive [0x88,0x81,0,0,0,0,3,7],.read,.read,.read]
  have hrun : run.map (fun s => (s.machine.step,s.machine.ntoread,s.buffered)) =
      some (.four,1,[7]) := by decide
  obtain ⟨s,hs,hval⟩ := Option.map_eq_some_iff.mp hrun
  simp only [Prod.mk.injEq] at hval
  exact ⟨s,hval.1,hval.2.1,hval.2.2,
    (receive_safe (ReachableBy.exec (fun _ _ _ => trivial) (.init rfl) hs)).1⟩

end WebSocket
end SdkCp
