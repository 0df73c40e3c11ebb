import Mathlib.Data.Nat.Bitwise
import SdkCp.LzoSafety

/-! The format between the two: runs of literals and matches as the compressor writes them, and what the
decompressor makes of each. -/
namespace SdkCp
namespace Lzo

open BackReference

theorem toNat_or_m2 (l r t : ℕ) (hl : l < 8) (hr : r < 8) (ht : t < 4) :
    (lzoByte ((l <<< 5) ||| (r <<< 2)) ||| lzoByte t).toNat = 32*l+4*r+t := by
  have h : ∀ l < 8, ∀ r < 8, ∀ t < 4,
      (lzoByte ((l <<< 5) ||| (r <<< 2)) ||| lzoByte t).toNat = 32*l+4*r+t := by decide
  exact h l hl r hr t ht

theorem toNat_m3 (x : ℕ) (hx : x < 32) : (lzoByte (M3_MARKER ||| x)).toNat = 32+x := by
  have h : ∀ x < 32, (lzoByte (M3_MARKER ||| x)).toNat = 32+x := by decide
  exact h x hx

theorem toNat_m4 (h x : ℕ) (hh : h < 2) (hx : x < 8) :
    (lzoByte (M4_MARKER ||| (8*h) ||| x)).toNat = 16+8*h+x := by
  have hall : ∀ h < 2, ∀ x < 8, (lzoByte (M4_MARKER ||| (8*h) ||| x)).toNat = 16+8*h+x := by decide
  exact hall h hh x hx

theorem shiftRight_and_8 (o : ℕ) : (o >>> 11) &&& 8 = 8*(o/2^14 % 2) := by
  have h := Nat.and_two_pow (o >>> 11) 3
  rw [Nat.testBit_shiftRight,Nat.testBit_eq_decide_div_mod_eq] at h
  refine h.trans ?_
  rcases Nat.mod_two_eq_zero_or_one (o/2^14) with hbit | hbit
  · rw [hbit]
    rfl
  · rw [hbit]
    rfl

/-- The two bytes of a distance, with the number of literals that follow in the lowest bits. -/
theorem toNat_low (o t : ℕ) (ht : t < 4) : (lzoByte (o <<< 2) ||| lzoByte t).toNat = 4*(o % 64)+t := by
  have h : ∀ r < 64, ∀ t < 4, (lzoByte (4*r) ||| lzoByte t).toNat = 4*r+t := by decide
  have hlow : lzoByte (o <<< 2) = lzoByte (4*(o % 64)) := by
    apply UInt8.toNat_inj.mp
    simp only [lzoByte,UInt8.toNat_ofNat',Nat.shiftLeft_eq]
    omega
  rw [hlow]
  exact h _ (Nat.mod_lt _ (by decide)) t ht

theorem distance_word (o t : ℕ) (ht : t < 4) :
    ((lzoByte (o <<< 2) ||| lzoByte t).toNat+((lzoByte (o >>> 6)).toNat <<< 8)) >>> 2 = o % 2^14 := by
  rw [toNat_low o t ht,lzoByte,UInt8.toNat_ofNat',Nat.shiftRight_eq_div_pow,Nat.shiftRight_eq_div_pow,
    Nat.shiftLeft_eq]
  omega

theorem low_and_3 (o t : ℕ) (ht : t < 4) : (lzoByte (o <<< 2) ||| lzoByte t).toNat &&& 3 = t := by
  rw [toNat_low o t ht,show (3 : ℕ) = 2^2-1 from rfl,Nat.and_two_pow_sub_one_eq_mod]
  omega

theorem lengthBytes_eq (n : ℕ) (hn : 0 < n) : ∃ k b, lengthBytes n = List.replicate k 0 ++ [b] ∧ b ≠ 0 ∧
    n = 255*k+b.toNat := by
  induction n using Nat.strong_induction_on with
  | _ n ih =>
    unfold lengthBytes
    split
    next hlong =>
      obtain ⟨k,b,hk,hb,hsum⟩ := ih (n-255) (by omega) (by omega)
      exact ⟨k+1,b,by rw [hk]; rfl,hb,by omega⟩
    next hshort =>
      have hmod : (lzoByte n).toNat = n := by
        rw [lzoByte,UInt8.toNat_ofNat']
        omega
      refine ⟨0,lzoByte n,rfl,fun hz => ?_,by omega⟩
      rw [hz] at hmod
      exact hn.ne hmod

theorem modify_append {α : Type*} (f : α → α) (front back : List α) (i : ℕ) :
    (front ++ back).modify (front.length+i) f = front ++ back.modify i f := by
  induction front with
  | nil => rw [List.length_nil,Nat.zero_add,List.nil_append,List.nil_append]
  | cons a front ih => rw [List.cons_append,List.length_cons,Nat.succ_add,List.modify_succ_cons,ih,List.cons_append]

theorem orLast2_append (front : List UInt8) {back : List UInt8} (h : 2 ≤ back.length) (t : ℕ) :
    orLast2 (front ++ back) t = front ++ orLast2 back t := by
  have hpos : (front ++ back).length-2 = front.length+(back.length-2) := by
    rw [List.length_append]
    omega
  rw [orLast2,hpos,modify_append,orLast2]

theorem orLast2_pair (a b : UInt8) (t : ℕ) : orLast2 [a,b] t = [a ||| lzoByte t,b] := rfl

theorem orLast2_zero (op : List UInt8) : orLast2 op 0 = op := by
  have h : (fun b : UInt8 => b ||| lzoByte 0) = id := by
    funext b
    exact UInt8.or_zero
  rw [orLast2,h,List.modify_id]

section
variable {room : ℕ}

variable (room) in
theorem matchLen_of_bytes (label : Label) (passed tail out : List UInt8) {base len low : ℕ} (hlen : 2 < len)
    (hlow : low = if len ≤ base+2 then len-2 else 0) :
    ∃ passed', matchLen ⟨false,room⟩ low base
        ⟨label,passed,(if len ≤ base+2 then [] else lengthBytes (len-(base+2))) ++ tail,out⟩ =
      .ok (len-2,⟨label,passed',tail,out⟩) := by
  by_cases hshort : len ≤ base+2
  · rw [if_pos hshort] at hlow ⊢
    rw [List.nil_append]
    exact ⟨passed,matchLen_ok.mpr (.inl ⟨by omega,hlow.symm,rfl⟩)⟩
  · rw [if_neg hshort] at hlow ⊢
    obtain ⟨k,b,hk,hb,hsum⟩ := lengthBytes_eq (len-(base+2)) (by omega)
    rw [hk,List.append_assoc,List.singleton_append]
    refine ⟨_,matchLen_ok.mpr (.inr ⟨hlow,lengthLoop_ok.mpr ⟨k,b,tail,rfl,hb,?_,by omega,rfl⟩,?_⟩)⟩
    · exact fun ht => (by cases ht)
    · exact fun ht => (by cases ht)

/-- The state in front of the byte behind a match, with `t` in the lowest bits of the last byte but one. -/
def Dec.Matched (t : ℕ) (rest out : List UInt8) (s : Dec) : Prop :=
  ∃ a b passed, b.toNat &&& 3 = t ∧ s = ⟨.matchDone,a::b::passed,rest,out⟩

/-- What the decompressor makes of the bytes of a match in front of `rest`. -/
def Reads (room off len t : ℕ) (bytes : List UInt8) : Prop :=
  ∃ token tail, bytes = token::tail ∧ 16 ≤ token.toNat ∧
    ∀ passed rest out, off ≤ out.length → out.length+len ≤ room →
      ∃ s, s.Matched t rest (copyBack off len out) ∧
        step ⟨false,room⟩ ⟨.token token.toNat,token::passed,tail ++ rest,out⟩ = .ok s

theorem reads_m2 {off len t : ℕ} (hlow : 3 ≤ len) (hhigh : len ≤ 8) (hpos : 0 < off)
    (hoff : off ≤ 0x0800) (ht : t < 4) :
    Reads room off len t [lzoByte (((len-1) <<< 5) ||| (((off-1) &&& 7) <<< 2)) ||| lzoByte t,
      lzoByte ((off-1) >>> 3)] := by
  have hand : (off-1) &&& 7 = (off-1) % 8 := Nat.and_two_pow_sub_one_eq_mod (off-1) 3
  have htoken := toNat_or_m2 (len-1) ((off-1) % 8) t (by omega) (Nat.mod_lt _ (by decide)) ht
  rw [hand]
  set token := lzoByte (((len-1) <<< 5) ||| (((off-1) % 8) <<< 2)) ||| lzoByte t
  have hsecond : (lzoByte ((off-1) >>> 3)).toNat = (off-1)/8 := by
    rw [lzoByte,UInt8.toNat_ofNat',Nat.shiftRight_eq_div_pow]
    omega
  have hdist : 1+((token.toNat >>> 2) &&& 7)+((lzoByte ((off-1) >>> 3)).toNat <<< 3) = off := by
    rw [show (7 : ℕ) = 2^3-1 from rfl,Nat.and_two_pow_sub_one_eq_mod,htoken,hsecond,
      Nat.shiftRight_eq_div_pow,Nat.shiftLeft_eq]
    omega
  have hcount : (token.toNat >>> 5)-1+3-1 = len := by
    rw [htoken,Nat.shiftRight_eq_div_pow]
    omega
  have hbits : token.toNat &&& 3 = t := by
    rw [show (3 : ℕ) = 2^2-1 from rfl,Nat.and_two_pow_sub_one_eq_mod,htoken]
    omega
  refine ⟨token,[lzoByte ((off-1) >>> 3)],rfl,by omega,fun passed rest out hle hroom => ?_⟩
  refine ⟨_,⟨lzoByte ((off-1) >>> 3),token,passed,hbits,rfl⟩,?_⟩
  have h64 : token.toNat ≥ 64 := by omega
  refine (if_pos h64).trans (stepM2_ok.mpr ⟨_,rest,rfl,?_⟩)
  rw [hdist,hcount]
  exact ⟨⟨hpos,hle,hroom⟩,rfl⟩

theorem word_distance (o t : ℕ) (label : Label) (passed rest out : List UInt8) :
    Dec.word ⟨label,passed,(lzoByte (o <<< 2) ||| lzoByte t)::lzoByte (o >>> 6)::rest,out⟩ =
      .ok ((lzoByte (o <<< 2) ||| lzoByte t).toNat+((lzoByte (o >>> 6)).toNat <<< 8),
        ⟨label,lzoByte (o >>> 6)::(lzoByte (o <<< 2) ||| lzoByte t)::passed,rest,out⟩) := rfl

theorem reads_m3 {off len t : ℕ} (hlow : 3 ≤ len) (hpos : 0 < off) (hoff : off ≤ 0x4000) (ht : t < 4) :
    Reads room off len t ((if len ≤ M3_MAX_LEN then [lzoByte (M3_MARKER ||| (len-2))]
      else lzoByte (M3_MARKER ||| 0)::lengthBytes (len-M3_MAX_LEN)) ++
        [lzoByte ((off-1) <<< 2) ||| lzoByte t,lzoByte ((off-1) >>> 6)]) := by
  have hsplit : (if len ≤ M3_MAX_LEN then [lzoByte (M3_MARKER ||| (len-2))]
      else lzoByte (M3_MARKER ||| 0)::lengthBytes (len-M3_MAX_LEN)) =
      lzoByte (M3_MARKER ||| (if len ≤ 31+2 then len-2 else 0))::
        (if len ≤ 31+2 then [] else lengthBytes (len-(31+2))) := by
    split <;> rfl
  have hx : (if len ≤ 31+2 then len-2 else 0) < 32 := by
    split <;> omega
  have htoken := toNat_m3 _ hx
  rw [hsplit,List.cons_append]
  set x := if len ≤ 31+2 then len-2 else 0 with hxdef
  refine ⟨_,_,rfl,by omega,fun passed rest out hle hroom => ?_⟩
  rw [htoken,List.append_assoc]
  have hand : (32+x) &&& 31 = x := by
    rw [show (31 : ℕ) = 2^5-1 from rfl,Nat.and_two_pow_sub_one_eq_mod]
    omega
  obtain ⟨passed',hlen⟩ := matchLen_of_bytes room (.token (32+x)) (lzoByte (M3_MARKER ||| x)::passed)
    ([lzoByte ((off-1) <<< 2) ||| lzoByte t,lzoByte ((off-1) >>> 6)] ++ rest) out hlow (hand.trans hxdef)
  refine ⟨_,⟨lzoByte ((off-1) >>> 6),_,passed',low_and_3 (off-1) t ht,rfl⟩,?_⟩
  refine (if_neg (by omega)).trans ((if_pos (by omega)).trans
    (stepM3_ok.mpr ⟨_,_,hlen,_,_,word_distance (off-1) t _ passed' rest out,?_⟩))
  · rw [distance_word (off-1) t ht,Nat.mod_eq_of_lt (by omega),show 1+(off-1) = off by omega,
      show len-2+3-1 = len by omega]
    exact ⟨⟨hpos,hle,hroom⟩,rfl⟩

theorem reads_m4 {off len t : ℕ} (hlow : 3 ≤ len) (hnear : 0x4000 < off) (hoff : off ≤ M4_MAX_OFFSET)
    (ht : t < 4) :
    Reads room off len t ((if len ≤ M4_MAX_LEN then
        [lzoByte (M4_MARKER ||| (((off-0x4000) >>> 11) &&& 8) ||| (len-2))]
      else lzoByte (M4_MARKER ||| (((off-0x4000) >>> 11) &&& 8))::lengthBytes (len-M4_MAX_LEN)) ++
        [lzoByte ((off-0x4000) <<< 2) ||| lzoByte t,lzoByte ((off-0x4000) >>> 6)]) := by
  have hoff' : off ≤ 0xbfff := hoff
  rw [shiftRight_and_8]
  set o := off-0x4000 with ho
  have hsplit : (if len ≤ M4_MAX_LEN then [lzoByte (M4_MARKER ||| 8*(o/2^14 % 2) ||| (len-2))]
      else lzoByte (M4_MARKER ||| 8*(o/2^14 % 2))::lengthBytes (len-M4_MAX_LEN)) =
      lzoByte (M4_MARKER ||| 8*(o/2^14 % 2) ||| (if len ≤ 7+2 then len-2 else 0))::
        (if len ≤ 7+2 then [] else lengthBytes (len-(7+2))) := by
    split
    · rfl
    · rw [Nat.or_zero]
  have hx : (if len ≤ 7+2 then len-2 else 0) < 8 := by
    split <;> omega
  have htoken := toNat_m4 (o/2^14 % 2) _ (Nat.mod_lt _ (by decide)) hx
  rw [hsplit,List.cons_append]
  set x := if len ≤ 7+2 then len-2 else 0 with hxdef
  refine ⟨_,_,rfl,by omega,fun passed rest out hle hroom => ?_⟩
  rw [htoken,List.append_assoc]
  have hand : (16+8*(o/2^14 % 2)+x) &&& 7 = x := by
    rw [show (7 : ℕ) = 2^3-1 from rfl,Nat.and_two_pow_sub_one_eq_mod]
    omega
  have hfar : ((16+8*(o/2^14 % 2)+x) &&& 8) <<< 11 = 2^14*(o/2^14 % 2) := by
    have h : ∀ h < 2, ∀ x < 8, ((16+8*h+x) &&& 8) <<< 11 = 2^14*h := by decide
    exact h _ (Nat.mod_lt _ (by decide)) x hx
  have hdist : 2^14*(o/2^14 % 2)+o % 2^14 = o := by omega
  obtain ⟨passed',hlen⟩ := matchLen_of_bytes room (.token (16+8*(o/2^14 % 2)+x))
    (lzoByte (M4_MARKER ||| 8*(o/2^14 % 2) ||| x)::passed)
    ([lzoByte (o <<< 2) ||| lzoByte t,lzoByte (o >>> 6)] ++ rest) out hlow (hand.trans hxdef)
  refine ⟨_,⟨lzoByte (o >>> 6),_,passed',low_and_3 o t ht,rfl⟩,?_⟩
  refine (if_neg (by omega)).trans ((if_neg (by omega)).trans ((if_pos (by omega)).trans
    (stepM4_ok.mpr ⟨_,_,hlen,_,_,word_distance o t _ passed' rest out,?_⟩)))
  · rw [distance_word o t ht,hfar,hdist,show o+0x4000 = off by omega,show len-2+3-1 = len by omega]
    exact ⟨by omega,⟨by omega,hle,hroom⟩,rfl⟩

variable (room) in
theorem reads_matchBytes {off len t : ℕ} (hlow : 3 ≤ len) (hpos : 0 < off) (hoff : off ≤ M4_MAX_OFFSET)
    (ht : t < 4) : Reads room off len t (orLast2 (matchBytes off len) t) := by
  unfold matchBytes
  by_cases hm2 : len ≤ M2_MAX_LEN ∧ off ≤ M2_MAX_OFFSET
  · rw [if_pos hm2]
    exact reads_m2 hlow hm2.1 hpos hm2.2 ht
  rw [if_neg hm2]
  by_cases hm3 : off ≤ M3_MAX_OFFSET
  · rw [if_pos hm3,orLast2_append _ (by simp),orLast2_pair]
    exact reads_m3 hlow hpos hm3 ht
  · rw [if_neg hm3,orLast2_append _ (by simp),orLast2_pair]
    exact reads_m4 hlow (not_le.mp hm3) hoff ht

theorem two_le_length_matchBytes (off len : ℕ) : 2 ≤ (matchBytes off len).length := by
  unfold matchBytes
  simp only
  split_ifs <;> simp

/-- Runs of literals and matches: what is written and the text it stands for. -/
inductive Stream : List UInt8 → List UInt8 → Prop
  | nil : Stream [] []
  | sequence {op text lits : List UInt8} {off len : ℕ} (h : Stream op text)
      (hfirst : op = [] → 4 ≤ lits.length) (hpos : 0 < off) (hback : off ≤ (text ++ lits).length)
      (hoff : off ≤ M4_MAX_OFFSET) (hlen : 4 ≤ len) :
      Stream (putLiterals op lits ++ matchBytes off len) (copyBack off len (text ++ lits))

/-- The decompressor has come from the entry to the token in front of `rest`. -/
def AtToken (room : ℕ) (bytes : List UInt8) (token : UInt8) (rest out : List UInt8) : Prop :=
  ∃ passed, run ⟨false,room⟩ (.entry (bytes ++ token::rest)) =
    run ⟨false,room⟩ ⟨.token token.toNat,token::passed,rest,out⟩

/-- What is written so far ends with a match, and the decompressor comes to the place behind it. -/
def AtMatchDone (room : ℕ) (op out : List UInt8) : Prop :=
  2 ≤ op.length ∧ ∀ t < 4, ∀ rest, ∃ s, s.Matched t rest out ∧
    run ⟨false,room⟩ (.entry (orLast2 op t ++ rest)) = run ⟨false,room⟩ s

variable (room) in
theorem literals_token (rest : List UInt8) (token : UInt8) {s : Dec} {t : ℕ} {lits : List UInt8}
    (ht : lits.length = t)
    (hip : s.ip = lits ++ token::rest) (hroom : s.out.length+t ≤ room) :
    CanCopy ⟨false,room⟩ t s ∧ s.afterLiterals t .firstLiteralRun =
      ⟨.firstLiteralRun,lits.reverse ++ s.passed,token::rest,s.out ++ lits⟩ := by
  subst ht
  refine ⟨⟨?_,hroom,fun ht => (by cases ht)⟩,?_⟩
  · rw [hip,List.length_append]
    exact Nat.le_add_right _ _
  · rw [Dec.afterLiterals,hip,List.take_left,List.drop_left]

theorem run_firstLiteralRun {passed rest out : List UInt8} {token : UInt8} (htoken : 16 ≤ token.toNat) :
    run ⟨false,room⟩ ⟨.firstLiteralRun,passed,token::rest,out⟩ =
      run ⟨false,room⟩ ⟨.token token.toNat,token::passed,rest,out⟩ :=
  run_ok (stepFirstLiteralRun_ok.mpr ⟨token,rest,rfl,.inl ⟨htoken,rfl⟩⟩)

theorem run_outer_token {passed rest out : List UInt8} {token : UInt8} (htoken : 16 ≤ token.toNat) :
    run ⟨false,room⟩ ⟨.outer,passed,token::rest,out⟩ =
      run ⟨false,room⟩ ⟨.token token.toNat,token::passed,rest,out⟩ :=
  run_ok (stepOuter_ok.mpr ⟨fun ht => (by cases ht),token,rest,rfl,.inl ⟨htoken,rfl⟩⟩)

/-- A run of four literals or more. -/
def longRun (lits : List UInt8) : List UInt8 :=
  if lits.length ≤ 18 then lzoByte (lits.length-3)::lits else 0::(lengthBytes (lits.length-18) ++ lits)

theorem putLiterals_long (op : List UInt8) {lits : List UInt8} (h : 4 ≤ lits.length) :
    putLiterals op lits = op ++ longRun lits := by
  unfold putLiterals longRun
  simp only
  rw [if_neg (by omega),if_neg (by omega)]
  split <;> rfl

theorem longRun_head {lits : List UInt8} (h : 4 ≤ lits.length) :
    ∃ b tail, longRun lits = b::tail ∧ b.toNat ≤ 17 := by
  unfold longRun
  split
  next hshort =>
    refine ⟨_,_,rfl,?_⟩
    rw [lzoByte,UInt8.toNat_ofNat']
    omega
  next => exact ⟨_,_,rfl,Nat.zero_le _⟩

theorem run_outer_longRun (passed rest : List UInt8) {out lits : List UInt8} {token : UInt8}
    (h : 4 ≤ lits.length)
    (htoken : 16 ≤ token.toNat) (hroom : out.length+lits.length ≤ room) :
    ∃ passed', run ⟨false,room⟩ ⟨.outer,passed,longRun lits ++ token::rest,out⟩ =
      run ⟨false,room⟩ ⟨.token token.toNat,token::passed',rest,out ++ lits⟩ := by
  unfold longRun
  split
  next hshort =>
    have hb : (lzoByte (lits.length-3)).toNat = lits.length-3 := by
      rw [lzoByte,UInt8.toNat_ofNat']
      omega
    obtain ⟨hcan,hafter⟩ := literals_token room rest token (s:=Dec.past ⟨.outer,passed,
      lzoByte (lits.length-3)::(lits ++ token::rest),out⟩ (lzoByte (lits.length-3)) (lits ++ token::rest))
      (show lits.length = (lzoByte (lits.length-3)).toNat+3 by omega) rfl
      (by simp only [Dec.past]; omega)
    have hstep : step ⟨false,room⟩ ⟨.outer,passed,lzoByte (lits.length-3)::(lits ++ token::rest),out⟩ = .ok
        ⟨.firstLiteralRun,lits.reverse ++ lzoByte (lits.length-3)::passed,token::rest,out ++ lits⟩ :=
      stepOuter_ok.mpr ⟨fun ht => (by cases ht),_,_,rfl,.inr (.inl ⟨by omega,by omega,hcan,hafter.symm⟩)⟩
    exact ⟨_,(run_ok hstep).trans (run_firstLiteralRun htoken)⟩
  next hlong =>
    obtain ⟨k,b,hk,hb,hsum⟩ := lengthBytes_eq (lits.length-18) (by omega)
    rw [hk,List.cons_append,List.append_assoc,List.append_assoc,List.singleton_append]
    set s : Dec := ⟨.outer,passed,0::(List.replicate k 0 ++ b::(lits ++ token::rest)),out⟩
    have hloop : lengthLoop ⟨false,room⟩ LZO_E_INPUT_OVERRUN 15
        (s.past 0 (List.replicate k 0 ++ b::(lits ++ token::rest))) 0 (0::passed)
        (List.replicate k 0 ++ b::(lits ++ token::rest)) =
        .ok (lits.length-3,⟨.outer,b::(List.replicate k 0 ++ 0::passed),lits ++ token::rest,out⟩) :=
      lengthLoop_ok.mpr ⟨k,b,_,rfl,hb,fun ht => (by cases ht),by omega,rfl⟩
    obtain ⟨hcan,hafter⟩ := literals_token room rest token (s:=⟨.outer,b::(List.replicate k 0 ++ 0::passed),
      lits ++ token::rest,out⟩) (show lits.length = lits.length-3+3 by omega) rfl (by simp only; omega)
    have hstep : step ⟨false,room⟩ s = .ok ⟨.firstLiteralRun,
        lits.reverse ++ b::(List.replicate k 0 ++ 0::passed),token::rest,out ++ lits⟩ :=
      stepOuter_ok.mpr ⟨fun ht => (by cases ht),_,_,rfl,.inr (.inr ⟨rfl,_,_,hloop,hcan,hafter.symm⟩)⟩
    exact ⟨_,(run_ok hstep).trans (run_firstLiteralRun htoken)⟩

variable (room) in
theorem run_matchDone {s : Dec} {t : ℕ} {rest out : List UInt8} (h : s.Matched t rest out) :
    ∃ passed, run ⟨false,room⟩ s = run ⟨false,room⟩ ⟨if t = 0 then .outer else .matchNext t,passed,rest,out⟩ := by
  obtain ⟨a,b,passed,rfl,rfl⟩ := h
  have hstep : step ⟨false,room⟩ ⟨.matchDone,a::b::passed,rest,out⟩ = .ok
      ⟨if b.toNat &&& 3 = 0 then .outer else .matchNext (b.toNat &&& 3),a::b::passed,rest,out⟩ :=
    (stepMatchDone_ok (s:=⟨.matchDone,a::b::passed,rest,out⟩)).mpr ⟨a,b,passed,rfl,rfl⟩
  exact ⟨_,run_ok hstep⟩

theorem run_matchNext (passed rest : List UInt8) (token : UInt8) {out lits : List UInt8}
    (hroom : out.length+lits.length ≤ room) :
    ∃ passed', run ⟨false,room⟩ ⟨.matchNext lits.length,passed,lits ++ token::rest,out⟩ =
      run ⟨false,room⟩ ⟨.token token.toNat,token::passed',rest,out ++ lits⟩ := by
  obtain ⟨hcan,-⟩ := literals_token room rest token (s:=⟨.matchNext lits.length,passed,lits ++ token::rest,out⟩)
    rfl rfl hroom
  refine ⟨lits.reverse ++ passed,run_ok (stepMatchNext_ok.mpr ⟨hcan,token,rest,List.drop_left,?_⟩)⟩
  simp only [Dec.goto,Dec.past,Dec.afterLiterals,List.take_left]

/-- Behind a match any number of literals is read up to the next token. -/
theorem AtMatchDone.literals {op out : List UInt8} (h : AtMatchDone room op out) {lits rest : List UInt8}
    {token : UInt8} (htoken : 16 ≤ token.toNat) (hroom : out.length+lits.length ≤ room) :
    AtToken room (putLiterals op lits) token rest (out ++ lits) := by
  obtain ⟨hlength,h⟩ := h
  unfold AtToken
  by_cases hlong : 4 ≤ lits.length
  · obtain ⟨s,hs,hrun⟩ := h 0 (by decide) (longRun lits ++ token::rest)
    obtain ⟨passed,hdone⟩ := run_matchDone room hs
    obtain ⟨passed',hlits⟩ := run_outer_longRun passed rest hlong htoken hroom
    refine ⟨passed',?_⟩
    rw [putLiterals_long op hlong,List.append_assoc]
    rw [orLast2_zero] at hrun
    exact hrun.trans (hdone.trans hlits)
  · by_cases hnone : lits.length = 0
    · obtain rfl := List.length_eq_zero_iff.mp hnone
      obtain ⟨s,hs,hrun⟩ := h 0 (by decide) (token::rest)
      obtain ⟨passed,hdone⟩ := run_matchDone room hs
      refine ⟨passed,?_⟩
      rw [orLast2_zero] at hrun
      rw [List.append_nil]
      exact hrun.trans (hdone.trans (run_outer_token htoken))
    · obtain ⟨s,hs,hrun⟩ := h lits.length (by omega) (lits ++ token::rest)
      obtain ⟨passed,hdone⟩ := run_matchDone room hs
      obtain ⟨passed',hlits⟩ := run_matchNext passed rest token hroom
      refine ⟨passed',?_⟩
      have hput : putLiterals op lits = orLast2 op lits.length ++ lits := by
        unfold putLiterals
        simp only
        rw [if_neg hnone,if_pos (by omega)]
      rw [if_neg hnone] at hdone
      rw [hput,List.append_assoc]
      exact hrun.trans (hdone.trans hlits)

theorem run_entry_outer {b : UInt8} {tail : List UInt8} (h : b.toNat ≤ 17) :
    run ⟨false,room⟩ (.entry (b::tail)) = run ⟨false,room⟩ ⟨.outer,[],b::tail,[]⟩ :=
  run_ok (stepStart_ok.mpr ⟨b,tail,rfl,.inr (.inr ⟨h,rfl⟩)⟩)

theorem atToken_first {lits rest : List UInt8} {token : UInt8} (h : 4 ≤ lits.length)
    (htoken : 16 ≤ token.toNat) (hroom : lits.length ≤ room) :
    AtToken room (putLiterals [] lits) token rest lits := by
  obtain ⟨b,tail,hhead,hb⟩ := longRun_head h
  obtain ⟨passed,hrun⟩ := run_outer_longRun [] rest h htoken
    (show ([] : List UInt8).length+lits.length ≤ room by rwa [List.length_nil,Nat.zero_add])
  refine ⟨passed,?_⟩
  rw [putLiterals_long [] h,List.nil_append]
  rw [List.nil_append] at hrun
  refine Eq.trans ?_ hrun
  rw [hhead]
  exact run_entry_outer hb

theorem atMatchDone_append {front out : List UInt8} {off len : ℕ} (hlen : 3 ≤ len) (hpos : 0 < off)
    (hoff : off ≤ M4_MAX_OFFSET) (hback : off ≤ out.length) (hroom : out.length+len ≤ room)
    (h : ∀ token rest, 16 ≤ token.toNat → AtToken room front token rest out) :
    AtMatchDone room (front ++ matchBytes off len) (copyBack off len out) := by
  have htwo := two_le_length_matchBytes off len
  refine ⟨?_,fun t ht rest => ?_⟩
  · rw [List.length_append]
    omega
  · obtain ⟨token,tail,hbytes,htoken,hreads⟩ := reads_matchBytes room hlen hpos hoff ht
    obtain ⟨passed,hrun⟩ := h token (tail ++ rest) htoken
    obtain ⟨s,hs,hstep⟩ := hreads passed rest out hback hroom
    refine ⟨s,hs,?_⟩
    rw [orLast2_append front htwo,hbytes,List.append_assoc,List.cons_append]
    exact hrun.trans (run_ok hstep)

theorem Stream.atMatchDone {op text : List UInt8} (h : Stream op text) (hroom : text.length ≤ room) :
    op = [] ∧ text = [] ∨ AtMatchDone room op text := by
  induction h with
  | nil => exact .inl ⟨rfl,rfl⟩
  | @sequence op text lits off len h hfirst hpos hback hoff hlen ih =>
    right
    rw [length_copyBack len hpos hback] at hroom
    have hlits : text.length+lits.length ≤ room := by
      rw [List.length_append] at hroom
      omega
    refine atMatchDone_append (by omega) hpos hoff hback hroom fun token rest htoken => ?_
    obtain ⟨rfl,rfl⟩ | hdone := ih (by omega)
    · rw [List.length_nil,Nat.zero_add] at hlits
      exact atToken_first (hfirst rfl) htoken hlits
    · exact hdone.literals htoken hlits

theorem Stream.atToken (token : UInt8) (rest : List UInt8) {op text lits : List UInt8} (h : Stream op text)
    (htoken : 16 ≤ token.toNat) (hlow : token.toNat ≤ 17) (hroom : (text ++ lits).length ≤ room) :
    AtToken room (putRest op lits) token rest (text ++ lits) := by
  rw [List.length_append] at hroom
  obtain ⟨rfl,rfl⟩ | hdone := h.atMatchDone (Nat.le_of_add_right_le hroom)
  · rw [List.length_nil,Nat.zero_add] at hroom
    rw [List.nil_append]
    unfold putRest
    by_cases hnone : lits.length = 0
    · obtain rfl := List.length_eq_zero_iff.mp hnone
      exact ⟨_,(run_entry_outer hlow).trans (run_outer_token htoken)⟩
    by_cases hshort : lits.length ≤ 238
    · rw [if_pos ⟨Nat.pos_of_ne_zero hnone,rfl,hshort⟩]
      have hb : (lzoByte (17+lits.length)).toNat = 17+lits.length := by
        rw [lzoByte,UInt8.toNat_ofNat']
        omega
      have ht : lits.length = (lzoByte (17+lits.length)).toNat-17 := by omega
      unfold AtToken
      rw [List.cons_append]
      set first := lzoByte (17+lits.length)
      by_cases hfew : lits.length < 4
      · have hstep : step ⟨false,room⟩ (.entry (first::(lits ++ token::rest))) =
            .ok ⟨.matchNext (first.toNat-17),[first],lits ++ token::rest,[]⟩ :=
          stepStart_ok.mpr ⟨_,_,rfl,.inl ⟨by omega,by omega,rfl⟩⟩
        obtain ⟨passed,hrun⟩ := run_matchNext [first] rest token
          (show ([] : List UInt8).length+lits.length ≤ room by rwa [List.length_nil,Nat.zero_add])
        rw [← ht] at hstep
        exact ⟨passed,(run_ok hstep).trans hrun⟩
      · obtain ⟨hcan,hafter⟩ := literals_token room rest token
          (s:=⟨.start,[first],lits ++ token::rest,[]⟩) ht rfl (by simp only [List.length_nil]; omega)
        have hstep : step ⟨false,room⟩ (.entry (first::(lits ++ token::rest))) =
            .ok ⟨.firstLiteralRun,lits.reverse ++ [first],token::rest,lits⟩ :=
          stepStart_ok.mpr ⟨_,_,rfl,.inr (.inl ⟨by omega,hcan,hafter.symm⟩)⟩
        exact ⟨_,(run_ok hstep).trans (run_firstLiteralRun htoken)⟩
    · rw [if_neg fun h => hshort h.2.2]
      exact atToken_first (by omega) htoken hroom
  · have hne : op ≠ [] := by
      rintro rfl
      exact absurd hdone.1 (by decide)
    unfold putRest
    rw [if_neg fun h => hne h.2.1]
    exact hdone.literals htoken hroom

theorem run_endMarker {passed tail out : List UInt8} :
    run ⟨false,room⟩ ⟨.token 17,passed,0::0::tail,out⟩ =
      .ret (if tail = [] then LZO_E_OK else LZO_E_INPUT_NOT_CONSUMED) out := by
  refine run_error (step_of_ends ⟨17,rfl,by decide,by decide,1,⟨.token 17,passed,0::0::tail,out⟩,0,
    ⟨.token 17,0::0::passed,tail,out⟩,?_,?_,rfl,rfl⟩)
  · exact matchLen_ok.mpr (.inl ⟨by decide,rfl,rfl⟩)
  · exact word_ok.mpr ⟨0,0,tail,rfl,rfl,rfl⟩

/-- A whole stream is read as the text it stands for. What follows it is reported and not read. -/
theorem Stream.run {op text lits : List UInt8} (h : Stream op text) (hroom : (text ++ lits).length ≤ room)
    (tail : List UInt8) :
    lzo1xDecompress room (putRest op lits ++ [lzoByte (M4_MARKER ||| 1),0,0] ++ tail) =
      .ret (if tail = [] then LZO_E_OK else LZO_E_INPUT_NOT_CONSUMED) (text ++ lits) := by
  obtain ⟨passed,hrun⟩ := Stream.atToken (lzoByte (M4_MARKER ||| 1)) (0::0::tail) h (by decide) (by decide) hroom
  rw [List.append_assoc]
  exact hrun.trans run_endMarker

end

end Lzo
end SdkCp
