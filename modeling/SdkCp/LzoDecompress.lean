import SdkCp.Lzo

/-! One step of the decompressors: when it goes on and to which state, with the tests and without. The
steps end, so that both decompressors are total. -/
namespace SdkCp
namespace Lzo

open BackReference

theorem bind_eq_ok {α β : Type} {x : Except Outcome α} {f : α → Except Outcome β} {r : β} :
    (x >>= f) = .ok r ↔ ∃ a, x = .ok a ∧ f a = .ok r := by
  cases x with
  | error o => exact iff_of_false (fun h => by cases h) fun ⟨a,ha,_⟩ => by cases ha
  | ok a => exact ⟨fun h => ⟨a,rfl,h⟩,fun ⟨b,hb,h⟩ => by cases hb; exact h⟩

theorem wideCopy_eq {off t : ℕ} {out : List UInt8} (hoff : 8 ≤ off) (hle : off ≤ out.length) :
    wideCopy off t out = copyBack off t out := by
  have hpos : 0 < off := by omega
  have hmore (n : ℕ) : off ≤ (copyBack off n out).length := by
    rw [length_copyBack n hpos hle]
    omega
  have htail : (if t % 8 ≥ 4 then appendBlock off 4 (copyBack off (t/8*8) out)
      else copyBack off (t/8*8) out) = copyBack off (t-t % 4) out := by
    split
    · rw [appendBlock_eq hpos (by omega) (hmore _),← copyBack_add]
      congr 1
      omega
    · congr 1
      omega
  unfold wideCopy
  simp only
  rw [iterate_appendBlock_eq (t/8) hpos hoff hle,htail]
  split
  · rw [appendBlock_eq hpos (by omega) (hmore _),← copyBack_add]
    congr 1
    omega
  · congr 1
    omega

section
variable {v : Variant} {s s' : Dec}

theorem needIp_ok {x : ℕ} {u : Unit} : needIp v x s = .ok u ↔ (v.tests = true → x ≤ s.ip.length) := by
  unfold needIp
  split
  next h => exact iff_of_false (fun h' => by cases h') fun h' => absurd (h' h.1) (not_le.mpr h.2)
  next h => exact iff_of_true rfl fun htests => not_lt.mp fun hlt => h ⟨htests,hlt⟩

theorem needOp_ok {x : ℕ} {u : Unit} :
    needOp v x s = .ok u ↔ (v.tests = true → x ≤ v.room-s.out.length) := by
  unfold needOp
  split
  next h => exact iff_of_false (fun h' => by cases h') fun h' => absurd (h' h.1) (not_le.mpr h.2)
  next h => exact iff_of_true rfl fun htests => not_lt.mp fun hlt => h ⟨htests,hlt⟩

theorem testLb_ok {off : ℕ} {u : Unit} :
    testLb v off s = .ok u ↔ (v.tests = true → off ≤ s.out.length ∧ off ≠ 0) := by
  unfold testLb
  split
  next h =>
    refine iff_of_false (fun h' => by cases h') fun h' => ?_
    obtain ⟨hle,hne⟩ := h' h.1
    exact h.2.elim (fun hlt => absurd hle (not_le.mpr hlt)) hne
  next h =>
    refine iff_of_true rfl fun htests => ⟨not_lt.mp fun hlt => h ⟨htests,.inl hlt⟩,fun hz => h ⟨htests,.inr hz⟩⟩

/-- The state behind a byte. -/
def Dec.past (s : Dec) (b : UInt8) (ip : List UInt8) : Dec := { s with passed := b::s.passed, ip := ip }

theorem byte_ok {t : ℕ} :
    s.byte = .ok (t,s') ↔ ∃ b ip, s.ip = b::ip ∧ t = b.toNat ∧ s' = s.past b ip := by
  unfold Dec.byte
  split
  next h =>
    refine iff_of_false (fun h' => by cases h') ?_
    rintro ⟨b,ip,hip,-⟩
    rw [h] at hip
    cases hip
  next b ip h =>
    rw [h]
    constructor
    · intro h'
      cases h'
      exact ⟨b,ip,rfl,rfl,rfl⟩
    · rintro ⟨b',ip',hip,ht,hs⟩
      cases hip
      rw [ht,hs]
      rfl

theorem word_ok {w : ℕ} : s.word = .ok (w,s') ↔ ∃ b₀ b₁ ip, s.ip = b₀::b₁::ip ∧
    w = b₀.toNat+(b₁.toNat <<< 8) ∧ s' = (s.past b₀ (b₁::ip)).past b₁ ip := by
  unfold Dec.word
  split
  next b₀ b₁ ip h =>
    rw [h]
    refine ⟨fun h' => ?_,fun ⟨b₀',b₁',ip',hip,hw,hs⟩ => ?_⟩
    · cases h'
      exact ⟨b₀,b₁,ip,rfl,rfl,rfl⟩
    · cases hip
      rw [hw,hs]
      rfl
  next h =>
    exact iff_of_false (fun h' => by cases h') fun ⟨b₀,b₁,ip,hip,_⟩ => h b₀ b₁ ip hip

/-- The state behind `t` literals. -/
def Dec.afterLiterals (s : Dec) (t : ℕ) (label : Label) : Dec :=
  ⟨label,(s.ip.take t).reverse ++ s.passed,s.ip.drop t,s.out ++ s.ip.take t⟩

/-- There are `t` literals and the room for them, and the three bytes behind them if that is tested. -/
structure CanCopy (v : Variant) (t : ℕ) (s : Dec) : Prop where
  here : t ≤ s.ip.length
  room : s.out.length+t ≤ v.room
  more : v.tests = true → t+3 ≤ s.ip.length

theorem literals_ok {t : ℕ} {label : Label} :
    literals v t label s = .ok s' ↔ CanCopy v t s ∧ s' = s.afterLiterals t label := by
  unfold literals
  simp only [bind_eq_ok,needOp_ok,needIp_ok,exists_and_left,exists_const]
  split
  next h =>
    refine iff_of_false (fun h' => by cases h'.2.2) fun h' => ?_
    have hhere := h'.1.here
    have hroom := h'.1.room
    omega
  next h =>
    refine ⟨fun h' => ⟨⟨by omega,by omega,h'.2.1⟩,?_⟩,fun h' => ⟨fun _ => ?_,h'.1.more,?_⟩⟩
    · cases h'.2.2
      rfl
    · omega
    · rw [h'.2]
      rfl

/-- The state behind a match. -/
def Dec.afterMatch (s : Dec) (off t : ℕ) : Dec :=
  { s with label := .matchDone, out := copyBack off t s.out }

structure CanMatch (v : Variant) (off t : ℕ) (s : Dec) : Prop where
  pos : 0 < off
  behind : off ≤ s.out.length
  room : s.out.length+t ≤ v.room

theorem matchCopy_ok {wide : Bool} {off t : ℕ} :
    matchCopy v wide off t s = .ok s' ↔ CanMatch v off t s ∧ s' = s.afterMatch off t := by
  unfold matchCopy
  simp only [bind_eq_ok,testLb_ok,needOp_ok,exists_and_left,exists_const]
  split
  next h =>
    refine iff_of_false (fun h' => by cases h'.2.2) fun h' => ?_
    have hpos := h'.1.pos
    have hbehind := h'.1.behind
    have hroom := h'.1.room
    omega
  next h =>
    have hsame : (if wide = true ∧ off ≥ 8 then wideCopy off t s.out else copyBack off t s.out) =
        copyBack off t s.out := by
      split
      next hwide => exact wideCopy_eq hwide.2 (by omega)
      next => rfl
    rw [hsame]
    refine ⟨fun h' => ⟨⟨by omega,by omega,by omega⟩,?_⟩,fun h' => ⟨fun _ => by omega,fun _ => ?_,?_⟩⟩
    · cases h'.2.2
      rfl
    · omega
    · rw [h'.2]
      rfl

theorem lengthLoop_ok {code : ℤ} {base n t : ℕ} {passed ip : List UInt8} :
    lengthLoop v code base s t passed ip = .ok (n,s') ↔ ∃ k b rest, ip = List.replicate k 0 ++ b::rest ∧
      b ≠ 0 ∧ (v.tests = true → k ≠ 0 → t+255*k ≤ 2^64-511) ∧ n = t+255*k+base+b.toNat ∧
      s' = { s with passed := b::(List.replicate k 0 ++ passed), ip := rest } := by
  induction ip generalizing t passed with
  | nil => exact iff_of_false (fun h => by cases h) fun ⟨k,b,rest,h,_⟩ => by simp at h
  | cons c ip ih =>
    unfold lengthLoop
    by_cases hc : c = 0
    · rw [if_pos hc]
      refine ⟨fun h => ?_,fun ⟨k,b,rest,hip,hb,htests,hn,hs⟩ => ?_⟩
      · split at h
        · cases h
        next hover =>
        split at h
        · cases h
        next =>
        obtain ⟨k,b,rest,hip,hb,htests,hn,hs⟩ := ih.mp h
        refine ⟨k+1,b,rest,by rw [hc,hip]; rfl,hb,fun ht _ => ?_,by omega,?_⟩
        · by_cases hk : k = 0
          · subst hk
            exact not_lt.mp fun hlt => hover ⟨ht,by omega⟩
          · have := htests ht hk
            omega
        · rw [hs,hc,List.replicate_succ']
          simp
      · cases k with
        | zero =>
          simp only [List.replicate_zero,List.nil_append,List.cons.injEq] at hip
          exact absurd (hip.1.symm.trans hc) hb
        | succ k =>
          simp only [List.replicate_succ,List.cons_append,List.cons.injEq] at hip
          rw [if_neg,if_neg]
          · refine ih.mpr ⟨k,b,rest,hip.2,hb,fun ht _ => ?_,by omega,?_⟩
            · have := htests ht (by omega)
              omega
            · rw [hs,hc,List.replicate_succ']
              simp
          · rintro ⟨ht,hlen⟩
            rw [hip.2] at hlen
            simp at hlen
          · rintro ⟨ht,hlt⟩
            have := htests ht (by omega)
            omega
    · rw [if_neg hc]
      refine ⟨fun h => ?_,fun ⟨k,b,rest,hip,hb,htests,hn,hs⟩ => ?_⟩
      · cases h
        exact ⟨0,c,ip,rfl,hc,fun _ h => absurd rfl h,by omega,rfl⟩
      · cases k with
        | zero =>
          cases hip
          rw [hs,hn]
          simp
        | succ k =>
          simp only [List.replicate_succ,List.cons_append,List.cons.injEq] at hip
          exact absurd hip.1 hc

theorem stepM1_ok {t : ℕ} : stepM1 v t s = .ok s' ↔ ∃ b ip, s.ip = b::ip ∧
    CanMatch v (1+(t >>> 2)+(b.toNat <<< 2)) 2 (s.past b ip) ∧
    s' = (s.past b ip).afterMatch (1+(t >>> 2)+(b.toNat <<< 2)) 2 := by
  simp only [stepM1,bind_eq_ok,Prod.exists,byte_ok,matchCopy_ok]
  constructor
  · rintro ⟨_,_,⟨b,ip,hip,rfl,rfl⟩,h⟩
    exact ⟨b,ip,hip,h⟩
  · rintro ⟨b,ip,hip,h⟩
    exact ⟨_,_,⟨b,ip,hip,rfl,rfl⟩,h⟩

theorem stepM2_ok {t : ℕ} : stepM2 v t s = .ok s' ↔ ∃ b ip, s.ip = b::ip ∧
    CanMatch v (1+((t >>> 2) &&& 7)+(b.toNat <<< 3)) ((t >>> 5)-1+3-1) (s.past b ip) ∧
    s' = (s.past b ip).afterMatch (1+((t >>> 2) &&& 7)+(b.toNat <<< 3)) ((t >>> 5)-1+3-1) := by
  simp only [stepM2,bind_eq_ok,Prod.exists,byte_ok,matchCopy_ok]
  constructor
  · rintro ⟨_,_,⟨b,ip,hip,rfl,rfl⟩,h⟩
    exact ⟨b,ip,hip,h⟩
  · rintro ⟨b,ip,hip,h⟩
    exact ⟨_,_,⟨b,ip,hip,rfl,rfl⟩,h⟩

/-- The length of a match is in its token, or the token is followed by a length. -/
theorem matchLen_ok {low base n : ℕ} : matchLen v low base s = .ok (n,s') ↔
    low ≠ 0 ∧ n = low ∧ s' = s ∨
    low = 0 ∧ lengthLoop v LZO_E_OUTPUT_OVERRUN base s 0 s.passed s.ip = .ok (n,s') ∧
      (v.tests = true → 2 ≤ s'.ip.length) := by
  unfold matchLen
  by_cases hlow : low = 0
  · simp only [hlow,ite_true,bind_eq_ok,Prod.exists,needIp_ok]
    constructor
    · rintro ⟨_,_,hloop,_,htests,h⟩
      cases h
      exact .inr ⟨trivial,hloop,htests⟩
    · rintro (⟨h,-⟩ | ⟨-,hloop,htests⟩)
      · exact absurd rfl h
      · exact ⟨_,_,hloop,(),htests,rfl⟩
  · rw [if_neg hlow]
    constructor
    · intro h
      cases h
      exact .inl ⟨hlow,rfl,rfl⟩
    · rintro (⟨-,hn,hs⟩ | ⟨h,-⟩)
      · rw [hn,hs]
        rfl
      · exact absurd h hlow

theorem stepM3_ok {t : ℕ} : stepM3 v t s = .ok s' ↔ ∃ n s₁, matchLen v (t &&& 31) 31 s = .ok (n,s₁) ∧
    ∃ w s₂, s₁.word = .ok (w,s₂) ∧ CanMatch v (1+(w >>> 2)) (n+3-1) s₂ ∧
    s' = s₂.afterMatch (1+(w >>> 2)) (n+3-1) := by
  simp only [stepM3,bind_eq_ok,Prod.exists,matchCopy_ok]

theorem stepM4_ok {t : ℕ} : stepM4 v t s = .ok s' ↔ ∃ n s₁, matchLen v (t &&& 7) 7 s = .ok (n,s₁) ∧
    ∃ w s₂, s₁.word = .ok (w,s₂) ∧ ((t &&& 8) <<< 11)+(w >>> 2) ≠ 0 ∧
    CanMatch v (((t &&& 8) <<< 11)+(w >>> 2)+0x4000) (n+3-1) s₂ ∧
    s' = s₂.afterMatch (((t &&& 8) <<< 11)+(w >>> 2)+0x4000) (n+3-1) := by
  simp only [stepM4,bind_eq_ok,Prod.exists]
  refine exists_congr fun n => exists_congr fun s₁ => and_congr_right fun _ =>
    exists_congr fun w => exists_congr fun s₂ => and_congr_right fun _ => ?_
  split
  next hoff => exact iff_of_false (fun h => by cases h) fun h => h.1 hoff
  next hoff => exact matchCopy_ok.trans ⟨fun h => ⟨hoff,h⟩,fun h => h.2⟩

theorem stepStart_ok : stepStart v s = .ok s' ↔ ∃ b ip, s.ip = b::ip ∧
    (17 < b.toNat ∧ b.toNat < 21 ∧ s' = (s.past b ip).goto (.matchNext (b.toNat-17)) ∨
      21 ≤ b.toNat ∧ CanCopy v (b.toNat-17) (s.past b ip) ∧
        s' = (s.past b ip).afterLiterals (b.toNat-17) .firstLiteralRun ∨
      b.toNat ≤ 17 ∧ s' = s.goto .outer) := by
  simp only [stepStart,bind_eq_ok,Prod.exists,needIp_ok,byte_ok]
  constructor
  · rintro ⟨_,_,_,_,⟨b,ip,hip,rfl,rfl⟩,h⟩
    refine ⟨b,ip,hip,?_⟩
    split_ifs at h with hrun hshort
    · cases h
      exact .inl ⟨hrun,by omega,rfl⟩
    · exact .inr (.inl ⟨by omega,literals_ok.mp h⟩)
    · cases h
      exact .inr (.inr ⟨not_lt.mp hrun,rfl⟩)
  · rintro ⟨b,ip,hip,h⟩
    refine ⟨(),fun _ => by simp [hip],_,_,⟨b,ip,hip,rfl,rfl⟩,?_⟩
    obtain ⟨hlow,hhigh,rfl⟩ | ⟨hrun,h⟩ | ⟨hrun,rfl⟩ := h
    · rw [if_pos hlow,if_pos (by omega)]
      rfl
    · rw [if_pos (by omega),if_neg (by omega)]
      exact literals_ok.mpr h
    · rw [if_neg (by omega)]
      rfl

theorem stepOuter_ok : stepOuter v s = .ok s' ↔ (v.tests = true → 3 ≤ s.ip.length) ∧
    ∃ b ip, s.ip = b::ip ∧
    (16 ≤ b.toNat ∧ s' = (s.past b ip).goto (.token b.toNat) ∨
      b.toNat < 16 ∧ b.toNat ≠ 0 ∧ CanCopy v (b.toNat+3) (s.past b ip) ∧
        s' = (s.past b ip).afterLiterals (b.toNat+3) .firstLiteralRun ∨
      b.toNat = 0 ∧ ∃ n s₁,
        lengthLoop v LZO_E_INPUT_OVERRUN 15 (s.past b ip) 0 (b::s.passed) ip = .ok (n,s₁) ∧
        CanCopy v (n+3) s₁ ∧ s' = s₁.afterLiterals (n+3) .firstLiteralRun) := by
  simp only [stepOuter,bind_eq_ok,Prod.exists,needIp_ok,byte_ok,exists_and_left,exists_const]
  refine and_congr_right fun _ => ?_
  constructor
  · rintro ⟨_,_,⟨b,ip,hip,rfl,rfl⟩,h⟩
    refine ⟨b,ip,hip,?_⟩
    split_ifs at h with htoken hzero
    · cases h
      exact .inl ⟨htoken,rfl⟩
    · obtain ⟨⟨n,s₁⟩,hloop,h⟩ := bind_eq_ok.mp h
      exact .inr (.inr ⟨hzero,n,s₁,hloop,literals_ok.mp h⟩)
    · exact .inr (.inl ⟨by omega,hzero,literals_ok.mp h⟩)
  · rintro ⟨b,ip,hip,h⟩
    refine ⟨_,_,⟨b,ip,hip,rfl,rfl⟩,?_⟩
    obtain ⟨htoken,rfl⟩ | ⟨hlow,hzero,h⟩ | ⟨hzero,n,s₁,hloop,h⟩ := h
    · rw [if_pos htoken]
      rfl
    · rw [if_neg (by omega),if_neg hzero]
      exact literals_ok.mpr h
    · rw [if_neg (by omega),if_pos hzero]
      exact bind_eq_ok.mpr ⟨(n,s₁),hloop,literals_ok.mpr h⟩

theorem stepFirstLiteralRun_ok : stepFirstLiteralRun v s = .ok s' ↔ ∃ b ip, s.ip = b::ip ∧
    (16 ≤ b.toNat ∧ s' = (s.past b ip).goto (.token b.toNat) ∨
      b.toNat < 16 ∧ ∃ c ip', ip = c::ip' ∧
        CanMatch v (1+M2_MAX_OFFSET+(b.toNat >>> 2)+(c.toNat <<< 2)) 3 ((s.past b ip).past c ip') ∧
        s' = ((s.past b ip).past c ip').afterMatch
          (1+M2_MAX_OFFSET+(b.toNat >>> 2)+(c.toNat <<< 2)) 3) := by
  simp only [stepFirstLiteralRun,bind_eq_ok,Prod.exists,byte_ok]
  constructor
  · rintro ⟨_,_,⟨b,ip,hip,rfl,rfl⟩,h⟩
    refine ⟨b,ip,hip,?_⟩
    split_ifs at h with htoken
    · cases h
      exact .inl ⟨htoken,rfl⟩
    · obtain ⟨⟨t,s₁⟩,hbyte,h⟩ := bind_eq_ok.mp h
      obtain ⟨c,ip',hip',rfl,rfl⟩ := byte_ok.mp hbyte
      exact .inr ⟨not_le.mp htoken,c,ip',hip',matchCopy_ok.mp h⟩
  · rintro ⟨b,ip,hip,h⟩
    refine ⟨_,_,⟨b,ip,hip,rfl,rfl⟩,?_⟩
    obtain ⟨htoken,rfl⟩ | ⟨hlow,c,ip',hip',h⟩ := h
    · rw [if_pos htoken]
      rfl
    · rw [if_neg (not_le.mpr hlow)]
      exact bind_eq_ok.mpr ⟨_,byte_ok.mpr ⟨c,ip',hip',rfl,rfl⟩,matchCopy_ok.mpr h⟩

theorem stepMatchDone_ok : stepMatchDone s = .ok s' ↔ ∃ a b rest, s.passed = a::b::rest ∧
    s' = s.goto (if b.toNat &&& 3 = 0 then .outer else .matchNext (b.toNat &&& 3)) := by
  unfold stepMatchDone
  split
  next a b rest hpassed =>
    rw [hpassed]
    constructor
    · intro h
      refine ⟨a,b,rest,rfl,?_⟩
      simp only at h
      split at h
      next hzero =>
        cases h
        rw [if_pos hzero]
      next hzero =>
        cases h
        rw [if_neg hzero]
    · rintro ⟨_,_,_,h,rfl⟩
      cases h
      simp only
      split <;> rfl
  next hshort => exact iff_of_false (fun h => by cases h) fun ⟨a,b,rest,h,_⟩ => hshort a b rest h

theorem stepMatchNext_ok {t : ℕ} : stepMatchNext v t s = .ok s' ↔ CanCopy v t s ∧
    ∃ b ip, s.ip.drop t = b::ip ∧ s' = ((s.afterLiterals t s.label).past b ip).goto (.token b.toNat) := by
  simp only [stepMatchNext,bind_eq_ok,Prod.exists,literals_ok]
  constructor
  · rintro ⟨_,⟨hcan,rfl⟩,_,_,hbyte,h⟩
    obtain ⟨b,ip,hip,rfl,rfl⟩ := byte_ok.mp hbyte
    cases h
    exact ⟨hcan,b,ip,hip,rfl⟩
  · rintro ⟨hcan,b,ip,hip,rfl⟩
    exact ⟨_,⟨hcan,rfl⟩,_,_,byte_ok.mpr ⟨b,ip,hip,rfl,rfl⟩,rfl⟩

/-- Two labels are left without reading. -/
def Label.rank : Label → ℕ
  | .start => 1
  | .matchDone => 1
  | _ => 0

def Dec.measure (s : Dec) : ℕ := 2*s.ip.length+s.label.rank

theorem lengthLoop_shorter {code : ℤ} {base n t : ℕ} {passed ip : List UInt8}
    (h : lengthLoop v code base s t passed ip = .ok (n,s')) : s'.ip.length < ip.length := by
  obtain ⟨k,b,rest,rfl,-,-,-,rfl⟩ := lengthLoop_ok.mp h
  simp only [List.length_append,List.length_cons]
  omega

theorem matchLen_le {low base n : ℕ} (h : matchLen v low base s = .ok (n,s')) :
    s'.ip.length ≤ s.ip.length := by
  obtain ⟨-,-,rfl⟩ | ⟨-,hloop,-⟩ := matchLen_ok.mp h
  · exact le_rfl
  · exact (lengthLoop_shorter hloop).le

theorem stepToken_shorter {t : ℕ} (h : stepToken v t s = .ok s') :
    s'.label = .matchDone ∧ s'.ip.length < s.ip.length := by
  have hword {n : ℕ} {s₁ s₂ : Dec} {w : ℕ} {low base : ℕ} (hlen : matchLen v low base s = .ok (n,s₁))
      (h : s₁.word = .ok (w,s₂)) : s₂.ip.length < s.ip.length := by
    obtain ⟨b₀,b₁,ip,hip,-,rfl⟩ := word_ok.mp h
    have hle := matchLen_le hlen
    rw [hip] at hle
    simp only [List.length_cons] at hle
    simp only [Dec.past]
    omega
  unfold stepToken at h
  split_ifs at h
  · obtain ⟨b,ip,hip,-,rfl⟩ := stepM2_ok.mp h
    exact ⟨rfl,by simp [Dec.afterMatch,Dec.past,hip]⟩
  · obtain ⟨n,s₁,hlen,w,s₂,hw,-,rfl⟩ := stepM3_ok.mp h
    have hlt := hword hlen hw
    exact ⟨rfl,hlt⟩
  · obtain ⟨n,s₁,hlen,w,s₂,hw,-,-,rfl⟩ := stepM4_ok.mp h
    have hlt := hword hlen hw
    exact ⟨rfl,hlt⟩
  · obtain ⟨b,ip,hip,-,rfl⟩ := stepM1_ok.mp h
    exact ⟨rfl,by simp [Dec.afterMatch,Dec.past,hip]⟩

theorem measure_step (h : step v s = .ok s') : s'.measure < s.measure := by
  obtain ⟨label,passed,ip,out⟩ := s
  cases label with
  | start =>
    obtain ⟨b,ip,rfl,⟨-,-,rfl⟩ | ⟨-,-,rfl⟩ | ⟨-,rfl⟩⟩ := stepStart_ok.mp h
    · simp [Dec.measure,Dec.goto,Dec.past,Label.rank]
    · simp [Dec.measure,Dec.afterLiterals,Dec.past,Label.rank]
      omega
    · simp [Dec.measure,Dec.goto,Label.rank]
  | outer =>
    obtain ⟨-,b,ip,rfl,⟨-,rfl⟩ | ⟨-,-,-,rfl⟩ | ⟨-,n,s₁,hloop,-,rfl⟩⟩ := stepOuter_ok.mp h
    · simp [Dec.measure,Dec.goto,Dec.past,Label.rank]
    · simp [Dec.measure,Dec.afterLiterals,Dec.past,Label.rank]
    · have hlt := lengthLoop_shorter hloop
      simp [Dec.measure,Dec.afterLiterals,Label.rank]
      omega
  | firstLiteralRun =>
    obtain ⟨b,ip,rfl,⟨-,rfl⟩ | ⟨-,c,ip',rfl,-,rfl⟩⟩ := stepFirstLiteralRun_ok.mp h
    · simp [Dec.measure,Dec.goto,Dec.past,Label.rank]
    · simp [Dec.measure,Dec.afterMatch,Dec.past,Label.rank]
      omega
  | token t =>
    obtain ⟨hlabel,hlt⟩ := stepToken_shorter h
    simp only at hlt
    simp only [Dec.measure,hlabel,Label.rank]
    omega
  | matchDone =>
    obtain ⟨a,b,rest,rfl,rfl⟩ := stepMatchDone_ok.mp h
    by_cases hzero : b.toNat &&& 3 = 0
    · simp [Dec.measure,Dec.goto,hzero,Label.rank]
    · simp [Dec.measure,Dec.goto,hzero,Label.rank]
  | matchNext t =>
    obtain ⟨-,b,ip',hip,rfl⟩ := stepMatchNext_ok.mp h
    have hlen := congrArg List.length hip
    simp only [List.length_drop,List.length_cons] at hlen
    simp only [Dec.measure,Dec.goto,Dec.past,Label.rank]
    omega

end

def run (v : Variant) (s : Dec) : Outcome :=
  match _h : step v s with
  | .error o => o
  | .ok s' => run v s'
termination_by s.measure
decreasing_by exact measure_step (by assumption)

/-- The state at the entry of both decompressors. -/
def Dec.entry (input : List UInt8) : Dec := ⟨.start,[],input,[]⟩

/-- `lzo1x_decompress`, with `room` bytes behind `out`. -/
def lzo1xDecompress (room : ℕ) (input : List UInt8) : Outcome := run ⟨false,room⟩ (.entry input)

def lzo1xDecompressSafe (room : ℕ) (input : List UInt8) : Outcome := run ⟨true,room⟩ (.entry input)

theorem run_ok {v : Variant} {s s' : Dec} (h : step v s = .ok s') : run v s = run v s' := by
  rw [run]
  split
  next o ho =>
    rw [h] at ho
    cases ho
  next s₁ hs =>
    rw [h] at hs
    cases hs
    rfl

theorem run_error {v : Variant} {s : Dec} {o : Outcome} (h : step v s = .error o) : run v s = o := by
  rw [run]
  split
  next o' ho =>
    rw [h] at ho
    cases ho
    rfl
  next s₁ hs =>
    rw [h] at hs
    cases hs

end Lzo
end SdkCp
