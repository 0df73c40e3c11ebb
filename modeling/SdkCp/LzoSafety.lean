import SdkCp.LzoDecompress

/-! `lzo1x_decompress_safe` stays in its buffers on every input, and where it does not report an overrun
`lzo1x_decompress` does the same; on all other inputs `lzo1x_decompress` leaves its buffers. -/
namespace SdkCp
namespace Lzo

open BackReference

theorem bind_eq_error {α β : Type} {x : Except Outcome α} {f : α → Except Outcome β} {o : Outcome} :
    (x >>= f) = .error o ↔ x = .error o ∨ ∃ a, x = .ok a ∧ f a = .error o := by
  cases x with
  | error e =>
    constructor
    · intro h
      cases h
      exact .inl rfl
    · rintro (h | ⟨a,ha,-⟩)
      · cases h
        rfl
      · cases ha
  | ok a =>
    constructor
    · exact fun h => .inr ⟨a,rfl,h⟩
    · rintro (h | ⟨b,hb,h⟩)
      · cases h
      · cases hb
        exact h

/-- The bytes before and from `ip` on that the code behind a label takes for granted. -/
def Label.behind : Label → ℕ
  | .token _ => 1
  | .matchDone => 2
  | _ => 0

def Label.ahead : Label → ℕ
  | .firstLiteralRun => 3
  | .token _ => 2
  | _ => 0

structure Fits (v : Variant) (s : Dec) : Prop where
  room : s.out.length ≤ v.room
  behind : s.label.behind ≤ s.passed.length
  ahead : s.label.ahead ≤ s.ip.length

/-- Without tests the buffers are left; with them an overrun is returned. -/
def Stops (v : Variant) (s : Dec) (o : Outcome) : Prop :=
  v.tests = false ∧ o = .fault ∨
  v.tests = true ∧ ∃ code, o = .ret code s.out ∧
    (code = LZO_E_INPUT_OVERRUN ∨ code = LZO_E_OUTPUT_OVERRUN ∨ code = LZO_E_LOOKBEHIND_OVERRUN)

/-- The end marker is read. -/
def Ends (v : Variant) (s : Dec) (o : Outcome) : Prop :=
  ∃ t, s.label = .token t ∧ 16 ≤ t ∧ t < 32 ∧ ∃ n s₁ w s₂, matchLen v (t &&& 7) 7 s = .ok (n,s₁) ∧
    s₁.word = .ok (w,s₂) ∧ ((t &&& 8) <<< 11)+(w >>> 2) = 0 ∧ o = eofFound s₂

section
variable {v : Variant} {s s' : Dec} {o : Outcome}

theorem Stops.of_out {s₁ : Dec} (h : Stops v s₁ o) (hout : s₁.out = s.out) : Stops v s o := by
  rwa [Stops,← hout]

theorem needIp_error {x : ℕ} (h : needIp v x s = .error o) : Stops v s o := by
  unfold needIp at h
  split at h
  next htest =>
    cases h
    exact .inr ⟨htest.1,_,rfl,.inl rfl⟩
  next => cases h

theorem needOp_error {x : ℕ} (h : needOp v x s = .error o) : Stops v s o := by
  unfold needOp at h
  split at h
  next htest =>
    cases h
    exact .inr ⟨htest.1,_,rfl,.inr (.inl rfl)⟩
  next => cases h

theorem testLb_error {off : ℕ} (h : testLb v off s = .error o) : Stops v s o := by
  unfold testLb at h
  split at h
  next htest =>
    cases h
    exact .inr ⟨htest.1,_,rfl,.inr (.inr rfl)⟩
  next => cases h

theorem stops_of_fault (h : v.tests = true → False) (ho : o = .fault) : Stops v s o :=
  .inl ⟨Bool.eq_false_iff.mpr fun ht => h ht,ho⟩

theorem byte_error (h : s.byte = .error o) : s.ip = [] ∧ o = .fault := by
  unfold Dec.byte at h
  split at h
  next hip =>
    cases h
    exact ⟨hip,rfl⟩
  next => cases h

theorem word_error (h : s.word = .error o) : s.ip.length < 2 ∧ o = .fault := by
  unfold Dec.word at h
  split at h
  next => cases h
  next hshort =>
    cases h
    refine ⟨not_le.mp fun hle => ?_,rfl⟩
    match hip : s.ip with
    | [] => simp [hip] at hle
    | [_] => simp [hip] at hle
    | b₀::b₁::ip => exact hshort b₀ b₁ ip hip

theorem literals_error {t : ℕ} {label : Label} {s₁ : Dec} (hroom : v.tests = true → s.out.length ≤ v.room)
    (hout : s₁.out = s.out) (h : literals v t label s₁ = .error o) : Stops v s o := by
  unfold literals at h
  rcases bind_eq_error.mp h with h | ⟨u,hop,h⟩
  · exact (needOp_error h).of_out hout
  rcases bind_eq_error.mp h with h | ⟨u',hip,h⟩
  · exact (needIp_error h).of_out hout
  split at h
  next hover =>
    cases h
    refine stops_of_fault (fun ht => ?_) rfl
    have hop' := needOp_ok.mp hop ht
    have hip' := needIp_ok.mp hip ht
    have hroom' := hroom ht
    rw [← hout] at hroom'
    omega
  next => cases h

theorem matchCopy_error {wide : Bool} {off t : ℕ} {s₁ : Dec}
    (hroom : v.tests = true → s.out.length ≤ v.room) (hout : s₁.out = s.out)
    (h : matchCopy v wide off t s₁ = .error o) : Stops v s o := by
  unfold matchCopy at h
  rcases bind_eq_error.mp h with h | ⟨u,hlb,h⟩
  · exact (testLb_error h).of_out hout
  rcases bind_eq_error.mp h with h | ⟨u',hop,h⟩
  · exact (needOp_error h).of_out hout
  split at h
  next hover =>
    cases h
    refine stops_of_fault (fun ht => ?_) rfl
    have hlb' := testLb_ok.mp hlb ht
    have hop' := needOp_ok.mp hop ht
    have hroom' := hroom ht
    rw [← hout] at hroom'
    omega
  next => cases h

theorem lengthLoop_error {code : ℤ} {base t : ℕ} {passed ip : List UInt8}
    (hcode : code = LZO_E_INPUT_OVERRUN ∨ code = LZO_E_OUTPUT_OVERRUN) (hip : v.tests = true → ip ≠ [])
    (h : lengthLoop v code base s t passed ip = .error o) : Stops v s o := by
  induction ip generalizing t passed with
  | nil =>
    cases h
    exact stops_of_fault (fun ht => hip ht rfl) rfl
  | cons b ip ih =>
    unfold lengthLoop at h
    split_ifs at h with hb hover hshort
    · cases h
      exact .inr ⟨hover.1,code,rfl,hcode.imp_right .inl⟩
    · cases h
      exact .inr ⟨hshort.1,_,rfl,.inl rfl⟩
    · refine ih (fun ht hnil => hshort ⟨ht,?_⟩) h
      rw [hnil]
      exact Nat.one_pos

theorem lengthLoop_out {code : ℤ} {base n t : ℕ} {passed ip : List UInt8}
    (h : lengthLoop v code base s t passed ip = .ok (n,s')) :
    s'.out = s.out ∧ s'.label = s.label ∧ passed.length < s'.passed.length := by
  obtain ⟨k,b,rest,-,-,-,-,rfl⟩ := lengthLoop_ok.mp h
  refine ⟨rfl,rfl,?_⟩
  simp only [List.length_cons,List.length_append]
  omega

theorem matchLen_out {low base n : ℕ} (h : matchLen v low base s = .ok (n,s')) :
    s'.out = s.out ∧ s.passed.length ≤ s'.passed.length := by
  obtain ⟨-,-,rfl⟩ | ⟨-,hloop,-⟩ := matchLen_ok.mp h
  · exact ⟨rfl,le_rfl⟩
  · obtain ⟨hout,-,hlt⟩ := lengthLoop_out hloop
    exact ⟨hout,hlt.le⟩

theorem matchLen_ahead {low base n : ℕ} (ht : v.tests = true) (hip : 2 ≤ s.ip.length)
    (h : matchLen v low base s = .ok (n,s')) : 2 ≤ s'.ip.length := by
  obtain ⟨-,-,rfl⟩ | ⟨-,-,htest⟩ := matchLen_ok.mp h
  · exact hip
  · exact htest ht

theorem matchLen_error {low base : ℕ} (hip : v.tests = true → 2 ≤ s.ip.length)
    (h : matchLen v low base s = .error o) : Stops v s o := by
  unfold matchLen at h
  split at h
  · rcases bind_eq_error.mp h with h | ⟨⟨n,s₁⟩,hloop,h⟩
    · refine lengthLoop_error (.inr rfl) (fun ht hnil => ?_) h
      have hlen := hip ht
      rw [hnil] at hlen
      simp at hlen
    · rcases bind_eq_error.mp h with h | ⟨u,-,h⟩
      · exact (needIp_error h).of_out (lengthLoop_out hloop).1
      · cases h
  · cases h

theorem stepToken_error {t : ℕ} (hlabel : s.label = .token t) (hfits : v.tests = true → Fits v s)
    (h : stepToken v t s = .error o) : Ends v s o ∨ Stops v s o := by
  have hroom : v.tests = true → s.out.length ≤ v.room := fun ht => (hfits ht).room
  have hahead : v.tests = true → 2 ≤ s.ip.length := fun ht => by
    have hahead := (hfits ht).ahead
    rwa [hlabel] at hahead
  have hbyte (h : s.byte = .error o) : Stops v s o := by
    obtain ⟨hnil,ho⟩ := byte_error h
    refine stops_of_fault (fun ht => ?_) ho
    have hlen := hahead ht
    simp [hnil] at hlen
  have hword {low base n : ℕ} {s₁ : Dec} (hlen : matchLen v low base s = .ok (n,s₁))
      (h : s₁.word = .error o) : Stops v s o := by
    obtain ⟨hshort,ho⟩ := word_error h
    refine stops_of_fault (fun ht => ?_) ho
    exact absurd (matchLen_ahead ht (hahead ht) hlen) (not_le.mpr hshort)
  have hout {low base n w : ℕ} {s₁ s₂ : Dec} (hlen : matchLen v low base s = .ok (n,s₁))
      (h : s₁.word = .ok (w,s₂)) : s₂.out = s.out := by
    obtain ⟨b₀,b₁,ip,-,-,rfl⟩ := word_ok.mp h
    exact (matchLen_out hlen).1
  unfold stepToken at h
  split_ifs at h with h64 h32 h16
  · right
    rcases bind_eq_error.mp h with h | ⟨⟨b,s₁⟩,hb,h⟩
    · exact hbyte h
    · obtain ⟨b,ip,-,-,rfl⟩ := byte_ok.mp hb
      exact matchCopy_error hroom (by rfl) h
  · right
    rcases bind_eq_error.mp h with h | ⟨⟨n,s₁⟩,hlen,h⟩
    · exact matchLen_error hahead h
    rcases bind_eq_error.mp h with h | ⟨⟨w,s₂⟩,hw,h⟩
    · exact hword hlen h
    · exact matchCopy_error hroom (hout hlen hw) h
  · rcases bind_eq_error.mp h with h | ⟨⟨n,s₁⟩,hlen,h⟩
    · exact .inr (matchLen_error hahead h)
    rcases bind_eq_error.mp h with h | ⟨⟨w,s₂⟩,hw,h⟩
    · exact .inr (hword hlen h)
    · simp only at h
      split at h
      next hoff =>
        cases h
        exact .inl ⟨t,hlabel,h16,not_le.mp h32,n,s₁,w,s₂,hlen,hw,hoff,rfl⟩
      next => exact .inr (matchCopy_error hroom (hout hlen hw) h)
  · right
    rcases bind_eq_error.mp h with h | ⟨⟨b,s₁⟩,hb,h⟩
    · exact hbyte h
    · obtain ⟨b,ip,-,-,rfl⟩ := byte_ok.mp hb
      exact matchCopy_error hroom (by rfl) h

theorem step_error (hfits : v.tests = true → Fits v s) (h : step v s = .error o) :
    Ends v s o ∨ Stops v s o := by
  have hroom : v.tests = true → s.out.length ≤ v.room := fun ht => (hfits ht).room
  have hbyte (hahead : v.tests = true → 1 ≤ s.ip.length) (h : s.byte = .error o) : Stops v s o := by
    obtain ⟨hnil,ho⟩ := byte_error h
    refine stops_of_fault (fun ht => ?_) ho
    have hlen := hahead ht
    simp [hnil] at hlen
  obtain ⟨label,passed,ip,out⟩ := s
  cases label with
  | start =>
    right
    rcases bind_eq_error.mp h with h | ⟨u,hip,h⟩
    · exact needIp_error h
    rcases bind_eq_error.mp h with h | ⟨⟨t,s₁⟩,hb,h⟩
    · exact hbyte (needIp_ok.mp hip) h
    obtain ⟨b,ip',-,-,rfl⟩ := byte_ok.mp hb
    simp only at h
    split_ifs at h
    · cases h
    · exact literals_error hroom (by rfl) h
    · cases h
  | outer =>
    right
    rcases bind_eq_error.mp h with h | ⟨u,hip,h⟩
    · exact needIp_error h
    rcases bind_eq_error.mp h with h | ⟨⟨t,s₁⟩,hb,h⟩
    · exact hbyte (fun ht => (needIp_ok.mp hip ht).trans' (by decide)) h
    obtain ⟨b,ip',hcons,-,rfl⟩ := byte_ok.mp hb
    simp only at h
    split_ifs at h
    · cases h
    · rcases bind_eq_error.mp h with h | ⟨⟨n,s₁⟩,hloop,h⟩
      · refine (lengthLoop_error (.inl rfl) (fun ht hnil => ?_) h).of_out rfl
        have hlen := needIp_ok.mp hip ht
        rw [hcons,List.length_cons,show ip' = [] from hnil] at hlen
        simp at hlen
      · exact literals_error hroom (lengthLoop_out hloop).1 h
    · exact literals_error hroom (by rfl) h
  | firstLiteralRun =>
    right
    have hahead : v.tests = true → 3 ≤ ip.length := fun ht => (hfits ht).ahead
    rcases bind_eq_error.mp h with h | ⟨⟨t,s₁⟩,hb,h⟩
    · exact hbyte (fun ht => (hahead ht).trans' (by decide)) h
    obtain ⟨b,ip',hcons,-,rfl⟩ := byte_ok.mp hb
    simp only at h
    split_ifs at h
    · cases h
    · rcases bind_eq_error.mp h with h | ⟨⟨t',s₁⟩,hb',h⟩
      · obtain ⟨hnil,ho⟩ := byte_error h
        refine stops_of_fault (fun ht => ?_) ho
        have hlen := hahead ht
        rw [show ip = b::ip' from hcons,show ip' = [] from hnil] at hlen
        simp at hlen
      · obtain ⟨c,ip'',-,-,rfl⟩ := byte_ok.mp hb'
        exact matchCopy_error hroom (by rfl) h
  | token t => exact stepToken_error rfl hfits h
  | matchDone =>
    right
    change stepMatchDone _ = _ at h
    unfold stepMatchDone at h
    split at h
    next =>
      simp only at h
      split at h <;> cases h
    next hshort =>
      cases h
      refine stops_of_fault (fun ht => ?_) rfl
      have hlen : 2 ≤ passed.length := (hfits ht).behind
      match passed with
      | [] => simp at hlen
      | [_] => simp at hlen
      | a::b::rest => exact hshort a b rest rfl
  | matchNext t =>
    right
    rcases bind_eq_error.mp h with h | ⟨s₁,hlit,h⟩
    · exact literals_error hroom rfl h
    obtain ⟨hcan,rfl⟩ := literals_ok.mp hlit
    rcases bind_eq_error.mp h with h | ⟨⟨t',s₁⟩,hb,h⟩
    · obtain ⟨hnil,ho⟩ := byte_error h
      refine stops_of_fault (fun ht => ?_) ho
      have hmore := hcan.more ht
      have hlen := congrArg List.length hnil
      simp only [Dec.afterLiterals,List.length_drop,List.length_nil] at hlen
      simp only at hmore
      omega
    · cases h

theorem Dec.fits_afterMatch {off t : ℕ} (h : CanMatch v off t s) (hpassed : 2 ≤ s.passed.length) :
    Fits v (s.afterMatch off t) where
  room := by
    simp only [Dec.afterMatch]
    rw [length_copyBack t h.pos h.behind]
    exact h.room
  behind := hpassed
  ahead := Nat.zero_le _

theorem Dec.length_afterLiterals {t : ℕ} (label : Label) (h : CanCopy v t s) :
    (s.afterLiterals t label).out.length ≤ v.room := by
  have hhere := h.here
  have hroom := h.room
  simp only [Dec.afterLiterals,List.length_append,List.length_take]
  omega

theorem Dec.fits_afterLiterals {t : ℕ} (ht : v.tests = true) (h : CanCopy v t s) :
    Fits v (s.afterLiterals t .firstLiteralRun) where
  room := Dec.length_afterLiterals _ h
  behind := Nat.zero_le _
  ahead := by
    have hmore := h.more ht
    simp only [Dec.afterLiterals,Label.ahead,List.length_drop]
    omega

theorem fits_stepToken {t : ℕ} (hpassed : 1 ≤ s.passed.length) (h : stepToken v t s = .ok s') : Fits v s' := by
  have hword {low base n w : ℕ} {s₁ s₂ : Dec} (hlen : matchLen v low base s = .ok (n,s₁))
      (h : s₁.word = .ok (w,s₂)) : 2 ≤ s₂.passed.length := by
    obtain ⟨b₀,b₁,ip,-,-,rfl⟩ := word_ok.mp h
    simp [Dec.past]
  have hbyte {b : UInt8} {ip : List UInt8} : 2 ≤ (s.past b ip).passed.length := by
    simp only [Dec.past,List.length_cons]
    omega
  unfold stepToken at h
  split_ifs at h
  · obtain ⟨b,ip,-,hcan,rfl⟩ := stepM2_ok.mp h
    exact Dec.fits_afterMatch hcan hbyte
  · obtain ⟨n,s₁,hlen,w,s₂,hw,hcan,rfl⟩ := stepM3_ok.mp h
    exact Dec.fits_afterMatch hcan (hword hlen hw)
  · obtain ⟨n,s₁,hlen,w,s₂,hw,-,hcan,rfl⟩ := stepM4_ok.mp h
    exact Dec.fits_afterMatch hcan (hword hlen hw)
  · obtain ⟨b,ip,-,hcan,rfl⟩ := stepM1_ok.mp h
    exact Dec.fits_afterMatch hcan hbyte

theorem fits_step (hfits : Fits v s) (ht : v.tests = true) (h : step v s = .ok s') : Fits v s' := by
  have hroom := hfits.room
  obtain ⟨label,passed,ip,out⟩ := s
  cases label with
  | start =>
    obtain ⟨b,ip,rfl,⟨-,-,rfl⟩ | ⟨-,hcan,rfl⟩ | ⟨-,rfl⟩⟩ := stepStart_ok.mp h
    · exact ⟨hroom,Nat.zero_le _,Nat.zero_le _⟩
    · exact Dec.fits_afterLiterals ht hcan
    · exact ⟨hroom,Nat.zero_le _,Nat.zero_le _⟩
  | outer =>
    obtain ⟨hlen,b,ip,rfl,⟨-,rfl⟩ | ⟨-,-,hcan,rfl⟩ | ⟨-,n,s₁,hloop,hcan,rfl⟩⟩ := stepOuter_ok.mp h
    · exact ⟨hroom,Nat.le_add_left _ _,Nat.le_of_succ_le_succ (hlen ht)⟩
    · exact Dec.fits_afterLiterals ht hcan
    · exact Dec.fits_afterLiterals ht hcan
  | firstLiteralRun =>
    have hahead := hfits.ahead
    obtain ⟨b,ip,rfl,⟨-,rfl⟩ | ⟨-,c,ip',rfl,hcan,rfl⟩⟩ := stepFirstLiteralRun_ok.mp h
    · exact ⟨hroom,Nat.le_add_left _ _,Nat.le_of_succ_le_succ hahead⟩
    · exact Dec.fits_afterMatch hcan (by simp [Dec.past])
  | token t => exact fits_stepToken hfits.behind h
  | matchDone =>
    obtain ⟨a,b,rest,rfl,rfl⟩ := stepMatchDone_ok.mp h
    by_cases hzero : b.toNat &&& 3 = 0
    · rw [if_pos hzero]
      exact ⟨hroom,Nat.zero_le _,Nat.zero_le _⟩
    · rw [if_neg hzero]
      exact ⟨hroom,Nat.zero_le _,Nat.zero_le _⟩
  | matchNext t =>
    obtain ⟨hcan,b,ip',hip,rfl⟩ := stepMatchNext_ok.mp h
    have hmore := hcan.more ht
    have hlen := congrArg List.length hip
    simp only [List.length_drop,List.length_cons] at hlen hmore
    refine ⟨Dec.length_afterLiterals (.matchNext t) hcan,?_,?_⟩
    · simp [Dec.goto,Dec.past,Label.behind]
    · simp only [Dec.goto,Dec.past,Label.ahead]
      omega

/-- A return with as many bytes as there is room for at most. -/
def Returns (v : Variant) (o : Outcome) : Prop :=
  ∃ code out, o = .ret code out ∧ out.length ≤ v.room ∧ code ∈ [LZO_E_OK,LZO_E_INPUT_OVERRUN,
    LZO_E_OUTPUT_OVERRUN,LZO_E_LOOKBEHIND_OVERRUN,LZO_E_INPUT_NOT_CONSUMED]

theorem Stops.returns (h : Stops v s o) (ht : v.tests = true) (hroom : s.out.length ≤ v.room) :
    Returns v o := by
  obtain ⟨hf,-⟩ | ⟨-,code,rfl,hcode⟩ := h
  · exact absurd ht (by rw [hf]; decide)
  · refine ⟨code,s.out,rfl,hroom,?_⟩
    obtain rfl | rfl | rfl := hcode <;> decide

theorem Ends.returns (h : Ends v s o) (hroom : s.out.length ≤ v.room) : Returns v o := by
  obtain ⟨t,-,-,-,n,s₁,w,s₂,hlen,hw,-,rfl⟩ := h
  obtain ⟨b₀,b₁,ip,-,-,rfl⟩ := word_ok.mp hw
  refine ⟨_,_,rfl,?_,?_⟩
  · rw [← (matchLen_out hlen).1] at hroom
    exact hroom
  · split <;> decide

theorem returns_run (hfits : Fits v s) (ht : v.tests = true) : Returns v (run v s) := by
  induction hm : s.measure using Nat.strong_induction_on generalizing s with
  | _ m ih =>
    rcases hstep : step v s with o | s'
    · rw [run_error hstep]
      rcases step_error (fun _ => hfits) hstep with hends | hstops
      · exact hends.returns hfits.room
      · exact hstops.returns ht hfits.room
    · rw [run_ok hstep]
      exact ih s'.measure (hm ▸ measure_step hstep) (fits_step hfits ht hstep) rfl

end

theorem lzo1xDecompressSafe_returns (room : ℕ) (input : List UInt8) :
    ∃ code out, lzo1xDecompressSafe room input = .ret code out ∧ out.length ≤ room ∧
      code ∈ [LZO_E_OK,LZO_E_INPUT_OVERRUN,LZO_E_OUTPUT_OVERRUN,LZO_E_LOOKBEHIND_OVERRUN,
        LZO_E_INPUT_NOT_CONSUMED] :=
  returns_run (v:=⟨true,room⟩) ⟨Nat.zero_le _,Nat.zero_le _,Nat.zero_le _⟩ rfl

/-- The bytes that are still read from a label on before the end marker is. -/
def Label.needs : Label → ℕ
  | .start => 1
  | .outer => 3
  | .firstLiteralRun => 3
  | .token _ => 2
  | .matchDone => 3
  | .matchNext t => t+3

def Dec.Supplied (s : Dec) : Prop := s.label.needs ≤ s.ip.length

/-- The length of an input that is too short for an overflow of `t`. -/
abbrev kShort : ℕ := 2^56

section
variable {room : ℕ} {s s' : Dec} {o : Outcome}

theorem CanCopy.plain {t : ℕ} (h : CanCopy ⟨true,room⟩ t s) : CanCopy ⟨false,room⟩ t s :=
  ⟨h.here,h.room,fun ht => by cases ht⟩

theorem CanCopy.safe {t : ℕ} (h : CanCopy ⟨false,room⟩ t s) (hmore : t+3 ≤ s.ip.length) :
    CanCopy ⟨true,room⟩ t s :=
  ⟨h.here,h.room,fun _ => hmore⟩

theorem CanMatch.variant {tests tests' : Bool} {off t : ℕ} (h : CanMatch ⟨tests,room⟩ off t s) :
    CanMatch ⟨tests',room⟩ off t s :=
  ⟨h.pos,h.behind,h.room⟩

theorem lengthLoop_plain {code : ℤ} {base n t : ℕ} {passed ip : List UInt8}
    (h : lengthLoop ⟨true,room⟩ code base s t passed ip = .ok (n,s')) :
    lengthLoop ⟨false,room⟩ code base s t passed ip = .ok (n,s') := by
  obtain ⟨k,b,rest,hip,hb,-,hn,hs⟩ := lengthLoop_ok.mp h
  exact lengthLoop_ok.mpr ⟨k,b,rest,hip,hb,fun ht => (by cases ht),hn,hs⟩

theorem lengthLoop_safe {code : ℤ} {base n : ℕ} {passed ip : List UInt8} (hshort : ip.length < kShort)
    (h : lengthLoop ⟨false,room⟩ code base s 0 passed ip = .ok (n,s')) :
    lengthLoop ⟨true,room⟩ code base s 0 passed ip = .ok (n,s') := by
  obtain ⟨k,b,rest,hip,hb,-,hn,hs⟩ := lengthLoop_ok.mp h
  refine lengthLoop_ok.mpr ⟨k,b,rest,hip,hb,fun _ _ => ?_,hn,hs⟩
  have hlen := congrArg List.length hip
  simp only [List.length_append,List.length_replicate,List.length_cons] at hlen
  have hk : k < 2^56 := lt_of_le_of_lt (by omega) hshort
  omega

theorem matchLen_plain {low base n : ℕ} (h : matchLen ⟨true,room⟩ low base s = .ok (n,s')) :
    matchLen ⟨false,room⟩ low base s = .ok (n,s') := by
  refine matchLen_ok.mpr ((matchLen_ok.mp h).imp_right fun h => ⟨h.1,lengthLoop_plain h.2.1,?_⟩)
  intro ht
  cases ht

theorem matchLen_safe {low base n : ℕ} (hshort : s.ip.length < kShort) (hip : 2 ≤ s'.ip.length)
    (h : matchLen ⟨false,room⟩ low base s = .ok (n,s')) : matchLen ⟨true,room⟩ low base s = .ok (n,s') :=
  matchLen_ok.mpr ((matchLen_ok.mp h).imp_right fun h => ⟨h.1,lengthLoop_safe hshort h.2.1,fun _ => hip⟩)

theorem two_le_of_word {w : ℕ} (h : s.word = .ok (w,s')) : 2 ≤ s.ip.length := by
  obtain ⟨b₀,b₁,ip,hip,-,-⟩ := word_ok.mp h
  rw [hip]
  exact Nat.le_add_left _ _

theorem stepToken_variant {tests tests' : Bool} {t : ℕ}
    (hlen : ∀ {low base n s₁}, 2 ≤ s₁.ip.length → matchLen ⟨tests,room⟩ low base s = .ok (n,s₁) →
      matchLen ⟨tests',room⟩ low base s = .ok (n,s₁))
    (h : stepToken ⟨tests,room⟩ t s = .ok s') : stepToken ⟨tests',room⟩ t s = .ok s' := by
  unfold stepToken at h ⊢
  split_ifs at h ⊢
  · obtain ⟨b,ip,hip,hcan,hs⟩ := stepM2_ok.mp h
    exact stepM2_ok.mpr ⟨b,ip,hip,hcan.variant,hs⟩
  · obtain ⟨n,s₁,hn,w,s₂,hw,hcan,hs⟩ := stepM3_ok.mp h
    exact stepM3_ok.mpr ⟨n,s₁,hlen (two_le_of_word hw) hn,w,s₂,hw,hcan.variant,hs⟩
  · obtain ⟨n,s₁,hn,w,s₂,hw,hoff,hcan,hs⟩ := stepM4_ok.mp h
    exact stepM4_ok.mpr ⟨n,s₁,hlen (two_le_of_word hw) hn,w,s₂,hw,hoff,hcan.variant,hs⟩
  · obtain ⟨b,ip,hip,hcan,hs⟩ := stepM1_ok.mp h
    exact stepM1_ok.mpr ⟨b,ip,hip,hcan.variant,hs⟩

theorem step_plain (h : step ⟨true,room⟩ s = .ok s') : step ⟨false,room⟩ s = .ok s' := by
  obtain ⟨label,passed,ip,out⟩ := s
  cases label with
  | start =>
    obtain ⟨b,ip',hip,hcase⟩ := stepStart_ok.mp h
    exact stepStart_ok.mpr ⟨b,ip',hip,hcase.imp_right (.imp_left fun h => ⟨h.1,h.2.1.plain,h.2.2⟩)⟩
  | outer =>
    obtain ⟨-,b,ip',hip,hcase⟩ := stepOuter_ok.mp h
    refine stepOuter_ok.mpr ⟨fun ht => (by cases ht),b,ip',hip,hcase.imp_right (.imp ?_ ?_)⟩
    · exact fun h => ⟨h.1,h.2.1,h.2.2.1.plain,h.2.2.2⟩
    · rintro ⟨hzero,n,s₁,hloop,hcan,hs⟩
      exact ⟨hzero,n,s₁,lengthLoop_plain hloop,hcan.plain,hs⟩
  | firstLiteralRun =>
    obtain ⟨b,ip',hip,hcase⟩ := stepFirstLiteralRun_ok.mp h
    refine stepFirstLiteralRun_ok.mpr ⟨b,ip',hip,hcase.imp_right ?_⟩
    rintro ⟨hlow,c,ip'',hc,hcan,hs⟩
    exact ⟨hlow,c,ip'',hc,hcan.variant,hs⟩
  | token t => exact stepToken_variant (fun _ => matchLen_plain) h
  | matchDone => exact h
  | matchNext t =>
    obtain ⟨hcan,hrest⟩ := stepMatchNext_ok.mp h
    exact stepMatchNext_ok.mpr ⟨hcan.plain,hrest⟩

/-- A step without the tests is one with them if it leaves the bytes that its next label needs. -/
theorem step_safe (hshort : s.ip.length < kShort) (hsupplied : s'.Supplied)
    (h : step ⟨false,room⟩ s = .ok s') : step ⟨true,room⟩ s = .ok s' := by
  have hmore {s₁ : Dec} {t : ℕ} (hcan : CanCopy ⟨false,room⟩ t s₁)
      (hs : s' = s₁.afterLiterals t .firstLiteralRun) : CanCopy ⟨true,room⟩ t s₁ := by
    have hhere := hcan.here
    refine hcan.safe ?_
    subst hs
    simp only [Dec.Supplied,Dec.afterLiterals,Label.needs,List.length_drop] at hsupplied
    omega
  obtain ⟨label,passed,ip,out⟩ := s
  cases label with
  | start =>
    obtain ⟨b,ip',hip,hcase⟩ := stepStart_ok.mp h
    exact stepStart_ok.mpr ⟨b,ip',hip,hcase.imp_right (.imp_left fun h => ⟨h.1,hmore h.2.1 h.2.2,h.2.2⟩)⟩
  | outer =>
    obtain ⟨-,b,ip',hip,hcase⟩ := stepOuter_ok.mp h
    cases hip
    have hlt : ip'.length < kShort := (Nat.lt_succ_self _).trans hshort
    refine stepOuter_ok.mpr ⟨fun _ => ?_,b,ip',rfl,hcase.imp_right (.imp ?_ ?_)⟩
    · obtain ⟨-,rfl⟩ | ⟨-,-,hcan,hs⟩ | ⟨-,n,s₁,hloop,hcan,hs⟩ := hcase
      · exact Nat.succ_le_succ hsupplied
      · have hlen := (hmore hcan hs).more rfl
        simp only [Dec.past] at hlen
        simp only [List.length_cons]
        omega
      · have hlen := (hmore hcan hs).more rfl
        have hle := lengthLoop_shorter hloop
        simp only [List.length_cons]
        omega
    · exact fun h => ⟨h.1,h.2.1,hmore h.2.2.1 h.2.2.2,h.2.2.2⟩
    · rintro ⟨hzero,n,s₁,hloop,hcan,hs⟩
      exact ⟨hzero,n,s₁,lengthLoop_safe hlt hloop,hmore hcan hs,hs⟩
  | firstLiteralRun =>
    obtain ⟨b,ip',hip,hcase⟩ := stepFirstLiteralRun_ok.mp h
    refine stepFirstLiteralRun_ok.mpr ⟨b,ip',hip,hcase.imp_right ?_⟩
    rintro ⟨hlow,c,ip'',hc,hcan,hs⟩
    exact ⟨hlow,c,ip'',hc,hcan.variant,hs⟩
  | token t => exact stepToken_variant (fun hip => matchLen_safe hshort hip) h
  | matchDone => exact h
  | matchNext t =>
    obtain ⟨hcan,b,ip',hip,hs⟩ := stepMatchNext_ok.mp h
    refine stepMatchNext_ok.mpr ⟨hcan.safe ?_,b,ip',hip,hs⟩
    have hlen := congrArg List.length hip
    have hhere := hcan.here
    subst hs
    simp only [Dec.Supplied,Dec.goto,Dec.past,Label.needs,List.length_drop,List.length_cons] at *
    omega

theorem Dec.Supplied.before {v : Variant} (hsupplied : s'.Supplied) (h : step v s = .ok s') :
    s.Supplied := by
  have hmore {s₁ : Dec} {t : ℕ} (hcan : CanCopy v t s₁)
      (hs : s' = s₁.afterLiterals t .firstLiteralRun) : t+3 ≤ s₁.ip.length := by
    have hhere := hcan.here
    subst hs
    simp only [Dec.Supplied,Dec.afterLiterals,Label.needs,List.length_drop] at hsupplied
    omega
  obtain ⟨label,passed,ip,out⟩ := s
  cases label with
  | start =>
    obtain ⟨b,ip',hip,-⟩ := stepStart_ok.mp h
    simp only at hip
    simp [Dec.Supplied,Label.needs,hip]
  | outer =>
    obtain ⟨-,b,ip',hip,hcase⟩ := stepOuter_ok.mp h
    cases hip
    obtain ⟨-,rfl⟩ | ⟨-,-,hcan,hs⟩ | ⟨-,n,s₁,hloop,hcan,hs⟩ := hcase
    · exact Nat.succ_le_succ hsupplied
    · have hlen := hmore hcan hs
      simp only [Dec.past] at hlen
      simp only [Dec.Supplied,Label.needs,List.length_cons]
      omega
    · have hlen := hmore hcan hs
      have hle := lengthLoop_shorter hloop
      simp only [Dec.Supplied,Label.needs,List.length_cons]
      omega
  | firstLiteralRun =>
    obtain ⟨b,ip',hip,⟨-,rfl⟩ | ⟨-,c,ip'',rfl,-,rfl⟩⟩ := stepFirstLiteralRun_ok.mp h <;> cases hip
    · exact Nat.succ_le_succ hsupplied
    · simp only [Dec.Supplied,Dec.afterMatch,Dec.past,Label.needs,List.length_cons] at hsupplied ⊢
      omega
  | token t =>
    obtain ⟨hlabel,hlt⟩ := stepToken_shorter h
    simp only [Dec.Supplied,hlabel,Label.needs] at hsupplied ⊢
    simp only at hlt
    omega
  | matchDone =>
    obtain ⟨a,b,rest,-,rfl⟩ := stepMatchDone_ok.mp h
    simp only [Dec.Supplied,Dec.goto,Label.needs] at hsupplied ⊢
    by_cases hzero : b.toNat &&& 3 = 0
    · rwa [if_pos hzero] at hsupplied
    · rw [if_neg hzero] at hsupplied
      simp only at hsupplied
      omega
  | matchNext t =>
    obtain ⟨-,b,ip',hip,rfl⟩ := stepMatchNext_ok.mp h
    have hlen := congrArg List.length hip
    simp only [Dec.Supplied,Dec.goto,Dec.past,Label.needs,List.length_drop,List.length_cons] at *
    omega

theorem Ends.supplied {v : Variant} (h : Ends v s o) : s.Supplied := by
  obtain ⟨t,hlabel,-,-,n,s₁,w,s₂,hlen,hw,-,-⟩ := h
  simp only [Dec.Supplied,hlabel,Label.needs]
  exact (two_le_of_word hw).trans (matchLen_le hlen)

theorem step_of_ends {v : Variant} (h : Ends v s o) : step v s = .error o := by
  obtain ⟨t,hlabel,hlow,hhigh,n,s₁,w,s₂,hlen,hw,hoff,rfl⟩ := h
  unfold step
  rw [hlabel]
  simp only [stepToken]
  rw [if_neg (by omega),if_neg (by omega),if_pos hlow]
  exact bind_eq_error.mpr (.inr ⟨_,hlen,bind_eq_error.mpr (.inr ⟨_,hw,if_pos hoff⟩)⟩)

theorem Ends.safe (h : Ends ⟨false,room⟩ s o) (hshort : s.ip.length < kShort) : Ends ⟨true,room⟩ s o := by
  obtain ⟨t,hlabel,hlow,hhigh,n,s₁,w,s₂,hlen,hw,hrest⟩ := h
  exact ⟨t,hlabel,hlow,hhigh,n,s₁,w,s₂,matchLen_safe hshort (two_le_of_word hw) hlen,hw,hrest⟩

theorem Ends.plain (h : Ends ⟨true,room⟩ s o) : Ends ⟨false,room⟩ s o := by
  obtain ⟨t,hlabel,hlow,hhigh,n,s₁,w,s₂,hlen,hrest⟩ := h
  exact ⟨t,hlabel,hlow,hhigh,n,s₁,w,s₂,matchLen_plain hlen,hrest⟩

theorem Ends.code {v : Variant} {code : ℤ} {out : List UInt8} (h : Ends v s (.ret code out)) :
    code = LZO_E_OK ∨ code = LZO_E_INPUT_NOT_CONSUMED := by
  obtain ⟨t,-,-,-,n,s₁,w,s₂,-,-,-,heq⟩ := h
  cases heq
  split
  · exact .inl rfl
  · exact .inr rfl

/-- A decompressor without tests that returns has had the bytes it needs at every label. -/
theorem supplied_of_run {code : ℤ} {out : List UInt8} (h : run ⟨false,room⟩ s = .ret code out) :
    s.Supplied := by
  induction hm : s.measure using Nat.strong_induction_on generalizing s with
  | _ m ih =>
    rcases hstep : step ⟨false,room⟩ s with o | s'
    · rw [run_error hstep] at h
      subst h
      rcases step_error (fun ht => by cases ht) hstep with hends | ⟨-,ho⟩ | ⟨ht,-⟩
      · exact hends.supplied
      · cases ho
      · cases ht
    · rw [run_ok hstep] at h
      exact (ih s'.measure (hm ▸ measure_step hstep) h rfl).before hstep

theorem ip_le_of_step {v : Variant} (h : step v s = .ok s') : s'.ip.length ≤ s.ip.length := by
  have hlt := measure_step h
  have hrank : s.label.rank ≤ 1 := by cases s.label <;> simp [Label.rank]
  simp only [Dec.measure] at hlt
  omega

theorem run_safe {code : ℤ} {out : List UInt8} (hshort : s.ip.length < kShort)
    (h : run ⟨false,room⟩ s = .ret code out) :
    run ⟨true,room⟩ s = .ret code out ∧ (code = LZO_E_OK ∨ code = LZO_E_INPUT_NOT_CONSUMED) := by
  induction hm : s.measure using Nat.strong_induction_on generalizing s with
  | _ m ih =>
    rcases hstep : step ⟨false,room⟩ s with o | s'
    · rw [run_error hstep] at h
      subst h
      rcases step_error (fun ht => by cases ht) hstep with hends | ⟨-,ho⟩ | ⟨ht,-⟩
      · exact ⟨run_error (step_of_ends (hends.safe hshort)),hends.code⟩
      · cases ho
      · cases ht
    · rw [run_ok hstep] at h
      rw [run_ok (step_safe hshort (supplied_of_run h) hstep)]
      exact ih s'.measure (hm ▸ measure_step hstep) ((ip_le_of_step hstep).trans_lt hshort) h rfl

theorem run_plain {code : ℤ} {out : List UInt8} (hfits : Fits ⟨true,room⟩ s)
    (hcode : code = LZO_E_OK ∨ code = LZO_E_INPUT_NOT_CONSUMED) (h : run ⟨true,room⟩ s = .ret code out) :
    run ⟨false,room⟩ s = .ret code out := by
  induction hm : s.measure using Nat.strong_induction_on generalizing s with
  | _ m ih =>
    rcases hstep : step ⟨true,room⟩ s with o | s'
    · rw [run_error hstep] at h
      subst h
      rcases step_error (fun _ => hfits) hstep with hends | ⟨ht,-⟩ | ⟨-,c,hc,hover⟩
      · exact run_error (step_of_ends hends.plain)
      · cases ht
      · cases hc
        obtain rfl | rfl := hcode <;> exact absurd hover (by decide)
    · rw [run_ok hstep] at h
      rw [run_ok (step_plain hstep)]
      exact ih s'.measure (hm ▸ measure_step hstep) (fits_step hfits rfl hstep) h rfl

end

/-- Without the tests the same is returned wherever the tests find no overrun; elsewhere a buffer is
left. -/
theorem lzo1xDecompress_iff (room : ℕ) (input : List UInt8) (hshort : input.length < kShort) (code : ℤ)
    (out : List UInt8) : lzo1xDecompress room input = .ret code out ↔
      lzo1xDecompressSafe room input = .ret code out ∧
        (code = LZO_E_OK ∨ code = LZO_E_INPUT_NOT_CONSUMED) :=
  ⟨fun h => run_safe hshort h,fun h => run_plain ⟨Nat.zero_le _,Nat.zero_le _,Nat.zero_le _⟩ h.2 h.1⟩

/-- Four literals, the first three of them again, and the end marker. -/
def repeated : List UInt8 := [21,97,98,99,100,76,0,17,0,0]

theorem lzo1xDecompress_iff_repeated :
    lzo1xDecompress 7 repeated = .ret LZO_E_OK [97,98,99,100,97,98,99] := by
  refine (lzo1xDecompress_iff 7 repeated (by decide) LZO_E_OK _).mpr ⟨?_,.inl rfl⟩
  unfold lzo1xDecompressSafe
  rw [run_ok rfl,run_ok rfl,run_ok rfl,run_ok rfl,run_ok rfl,run_error rfl]
  rfl

end Lzo
end SdkCp
