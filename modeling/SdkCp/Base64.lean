import Mathlib.Tactic
import Mathlib.Data.List.Basic

/-! `base64_encode` of web_server/ws/base64.h, and a strict decoder that accepts its outputs and nothing
else. The decoder is the specification: the one of base64.cpp is commented out. -/
namespace SdkCp
namespace Base64

def base64Chars : List UInt8 :=
  "ABCDEFGHIJKLMNOPQRSTUVWXYZabcdefghijklmnopqrstuvwxyz0123456789+/".toList.map fun c =>
    UInt8.ofNat c.toNat

/-- `'='`. -/
abbrev pad : UInt8 := 61

/-- `base64_chars[i]`. -/
def base64Char (i : UInt8) : UInt8 := base64Chars.getD i.toNat 0

/-- `char_array_4` from `char_array_3`. -/
def charArray4 (a b c : UInt8) : List UInt8 :=
  [(a &&& 0xfc) >>> 2,((a &&& 0x03) <<< 4)+((b &&& 0xf0) >>> 4),
    ((b &&& 0x0f) <<< 2)+((c &&& 0xc0) >>> 6),c &&& 0x3f]

/-- The loop over the bytes, with the bytes of `char_array_3` that are filled. -/
def encodeLoop (ret : List UInt8) (filled : List UInt8) : List UInt8 → List UInt8 × List UInt8
  | [] => (ret,filled)
  | x::bytes =>
    let filled := filled ++ [x]
    if filled.length = 3 then
      encodeLoop (ret ++ (charArray4 (filled.getD 0 0) (filled.getD 1 0) (filled.getD 2 0)).map base64Char)
        [] bytes
    else encodeLoop ret filled bytes

def base64Encode (bytes : List UInt8) : List UInt8 :=
  let (ret,filled) := encodeLoop [] [] bytes
  if filled = [] then ret
  else
    let quad := charArray4 (filled.getD 0 0) (filled.getD 1 0) (filled.getD 2 0)
    ret ++ (quad.take (filled.length+1)).map base64Char ++ List.replicate (3-filled.length) pad

/-- The number a character stands for. -/
def sextet (c : UInt8) : Option ℕ :=
  if 65 ≤ c ∧ c ≤ 90 then some (c.toNat-65)
  else if 97 ≤ c ∧ c ≤ 122 then some (c.toNat-71)
  else if 48 ≤ c ∧ c ≤ 57 then some (c.toNat+4)
  else if c = 43 then some 62
  else if c = 47 then some 63
  else none

/-- Three bytes from four numbers. -/
def joined (s₀ s₁ s₂ s₃ : ℕ) : List UInt8 :=
  [UInt8.ofNat (4*s₀+s₁/16),UInt8.ofNat (16*(s₁ % 16)+s₂/4),UInt8.ofNat (64*(s₂ % 4)+s₃)]

/-- The last four characters: one byte or two if they are padded, and no bits beside these. -/
def decodeLast (c₀ c₁ c₂ c₃ : UInt8) : Option (List UInt8) := do
  let s₀ ← sextet c₀
  let s₁ ← sextet c₁
  if c₂ = pad ∧ c₃ = pad then
    if s₁ % 16 = 0 then return (joined s₀ s₁ 0 0).take 1 else failure
  else
    let s₂ ← sextet c₂
    if c₃ = pad then
      if s₂ % 4 = 0 then return (joined s₀ s₁ s₂ 0).take 2 else failure
    else
      let s₃ ← sextet c₃
      return joined s₀ s₁ s₂ s₃

def base64Decode : List UInt8 → Option (List UInt8)
  | [] => some []
  | [c₀,c₁,c₂,c₃] => decodeLast c₀ c₁ c₂ c₃
  | c₀::c₁::c₂::c₃::rest => do
    let s₀ ← sextet c₀
    let s₁ ← sextet c₁
    let s₂ ← sextet c₂
    let s₃ ← sextet c₃
    let bytes ← base64Decode rest
    return joined s₀ s₁ s₂ s₃ ++ bytes
  | _ => none

theorem sextet_base64Char {n : ℕ} (h : n < 64) : sextet (base64Char (UInt8.ofNat n)) = some n := by
  revert h n
  decide +kernel

theorem base64Char_ne_pad {n : ℕ} (h : n < 64) : base64Char (UInt8.ofNat n) ≠ pad := by
  revert h n
  decide +kernel

theorem eq_base64Char {c : UInt8} {n : ℕ} (h : sextet c = some n) :
    n < 64 ∧ c = base64Char (UInt8.ofNat n) := by
  have hall : ∀ k < 256, ∀ n, sextet (UInt8.ofNat k) = some n →
      n < 64 ∧ UInt8.ofNat k = base64Char (UInt8.ofNat n) := by
    intro k hk
    have : ∀ k < 256, (sextet (UInt8.ofNat k)).all
        fun n => decide (n < 64 ∧ UInt8.ofNat k = base64Char (UInt8.ofNat n)) := by decide +kernel
    intro n hn
    simpa [hn] using this k hk
  have hc : UInt8.ofNat c.toNat = c := by simp
  have := hall c.toNat c.toNat_lt n (by rw [hc,h])
  rwa [hc] at this

theorem charArray4_eq (a b c : UInt8) : charArray4 a b c =
    [UInt8.ofNat (a.toNat/4),UInt8.ofNat (16*(a.toNat % 4)+b.toNat/16),
      UInt8.ofNat (4*(b.toNat % 16)+c.toNat/64),UInt8.ofNat (c.toNat % 64)] := by
  have h₀ : ∀ k < 256, (UInt8.ofNat k &&& 0xfc) >>> 2 = UInt8.ofNat (k/4) := by decide +kernel
  have h₁ : ∀ k < 256, (UInt8.ofNat k &&& 0x03) <<< 4 = UInt8.ofNat (16*(k % 4)) := by decide +kernel
  have h₂ : ∀ k < 256, (UInt8.ofNat k &&& 0xf0) >>> 4 = UInt8.ofNat (k/16) := by decide +kernel
  have h₃ : ∀ k < 256, (UInt8.ofNat k &&& 0x0f) <<< 2 = UInt8.ofNat (4*(k % 16)) := by decide +kernel
  have h₄ : ∀ k < 256, (UInt8.ofNat k &&& 0xc0) >>> 6 = UInt8.ofNat (k/64) := by decide +kernel
  have h₅ : ∀ k < 256, UInt8.ofNat k &&& 0x3f = UInt8.ofNat (k % 64) := by decide +kernel
  have ha : UInt8.ofNat a.toNat = a := by simp
  have hb : UInt8.ofNat b.toNat = b := by simp
  have hc : UInt8.ofNat c.toNat = c := by simp
  have e₀ := h₀ a.toNat a.toNat_lt
  have e₁ := h₁ a.toNat a.toNat_lt
  have e₂ := h₂ b.toNat b.toNat_lt
  have e₃ := h₃ b.toNat b.toNat_lt
  have e₄ := h₄ c.toNat c.toNat_lt
  have e₅ := h₅ c.toNat c.toNat_lt
  rw [ha] at e₀ e₁
  rw [hb] at e₂ e₃
  rw [hc] at e₄ e₅
  rw [charArray4,e₀,e₁,e₂,e₃,e₄,e₅,UInt8.ofNat_add,UInt8.ofNat_add]

theorem encodeLoop_append (pre ret filled bytes : List UInt8) : encodeLoop (pre ++ ret) filled bytes =
    (pre ++ (encodeLoop ret filled bytes).1,(encodeLoop ret filled bytes).2) := by
  induction bytes generalizing ret filled with
  | nil => rfl
  | cons x bytes ih =>
    simp only [encodeLoop]
    split
    · rw [List.append_assoc,ih]
    · exact ih _ _

theorem base64Encode_quad (a b c : UInt8) (bytes : List UInt8) :
    base64Encode (a::b::c::bytes) = (charArray4 a b c).map base64Char ++ base64Encode bytes := by
  have hloop : encodeLoop [] [] (a::b::c::bytes) =
      encodeLoop ((charArray4 a b c).map base64Char ++ []) [] bytes := rfl
  simp only [base64Encode,hloop,encodeLoop_append]
  split
  · rfl
  · simp only [List.append_assoc]

theorem base64Encode_one (a : UInt8) :
    base64Encode [a] = ((charArray4 a 0 0).take 2).map base64Char ++ [pad,pad] := rfl

theorem base64Encode_two (a b : UInt8) :
    base64Encode [a,b] = ((charArray4 a b 0).take 3).map base64Char ++ [pad] := rfl

theorem base64Encode_ne_nil (a : UInt8) (bytes : List UInt8) : base64Encode (a::bytes) ≠ [] := by
  match bytes with
  | [] => simp [base64Encode_one]
  | [b] => simp [base64Encode_two]
  | b::c::bytes => simp [base64Encode_quad,charArray4]

theorem length_base64Encode : ∀ bytes : List UInt8,
    (base64Encode bytes).length = 4*((bytes.length+2)/3)
  | [] => rfl
  | [a] => by simp [base64Encode_one,charArray4]
  | [a,b] => by simp [base64Encode_two,charArray4]
  | a::b::c::bytes => by
    rw [base64Encode_quad,List.length_append,length_base64Encode bytes]
    simp only [charArray4,List.length_map,List.length_cons,List.length_nil]
    omega

section quad

variable (a b c : UInt8)

theorem sextets : sextet (base64Char (UInt8.ofNat (a.toNat/4))) = some (a.toNat/4) ∧
    sextet (base64Char (UInt8.ofNat (16*(a.toNat % 4)+b.toNat/16))) =
      some (16*(a.toNat % 4)+b.toNat/16) ∧
    sextet (base64Char (UInt8.ofNat (4*(b.toNat % 16)+c.toNat/64))) =
      some (4*(b.toNat % 16)+c.toNat/64) ∧
    sextet (base64Char (UInt8.ofNat (c.toNat % 64))) = some (c.toNat % 64) := by
  have ha := a.toNat_lt
  have hb := b.toNat_lt
  have hc := c.toNat_lt
  exact ⟨sextet_base64Char (by omega),sextet_base64Char (by omega),sextet_base64Char (by omega),
    sextet_base64Char (by omega)⟩

theorem joined_sextets : joined (a.toNat/4) (16*(a.toNat % 4)+b.toNat/16)
    (4*(b.toNat % 16)+c.toNat/64) (c.toNat % 64) = [a,b,c] := by
  have ha := a.toNat_lt
  have hb := b.toNat_lt
  have hc := c.toNat_lt
  have e₀ : 4*(a.toNat/4)+(16*(a.toNat % 4)+b.toNat/16)/16 = a.toNat := by omega
  have e₁ : 16*((16*(a.toNat % 4)+b.toNat/16) % 16)+(4*(b.toNat % 16)+c.toNat/64)/4 = b.toNat := by
    omega
  have e₂ : 64*((4*(b.toNat % 16)+c.toNat/64) % 4)+c.toNat % 64 = c.toNat := by omega
  simp only [joined,e₀,e₁,e₂,UInt8.ofNat_toNat]

end quad

theorem base64Decode_encode : ∀ bytes : List UInt8, base64Decode (base64Encode bytes) = some bytes
  | [] => rfl
  | [a] => by
    obtain ⟨h₀,h₁,-,-⟩ := sextets a 0 0
    have hzero : (16*(a.toNat % 4)+(0 : UInt8).toNat/16) % 16 = 0 := by simp
    have hbytes : joined (a.toNat/4) (16*(a.toNat % 4)+(0 : UInt8).toNat/16) 0 0 = [a,0,0] :=
      joined_sextets a 0 0
    rw [base64Encode_one,charArray4_eq]
    simp only [List.take_succ_cons,List.take_zero,List.map_cons,List.map_nil,List.cons_append,
      List.nil_append,base64Decode,decodeLast,h₀,h₁,hbytes,hzero,Option.bind_eq_bind,Option.bind_some,
      and_self,if_true,Option.pure_def]
  | [a,b] => by
    obtain ⟨h₀,h₁,h₂,-⟩ := sextets a b 0
    have hb := b.toNat_lt
    have hne := base64Char_ne_pad (n:=4*(b.toNat % 16)+(0 : UInt8).toNat/64) (by simp; omega)
    have hzero : (4*(b.toNat % 16)+(0 : UInt8).toNat/64) % 4 = 0 := by simp
    have hbytes : joined (a.toNat/4) (16*(a.toNat % 4)+b.toNat/16)
        (4*(b.toNat % 16)+(0 : UInt8).toNat/64) 0 = [a,b,0] := joined_sextets a b 0
    rw [base64Encode_two,charArray4_eq]
    simp only [List.take_succ_cons,List.take_zero,List.map_cons,List.map_nil,List.cons_append,
      List.nil_append,base64Decode,decodeLast,h₀,h₁,h₂,hbytes,hne,hzero,Option.bind_eq_bind,
      Option.bind_some,false_and,if_false,if_true,Option.pure_def]
  | a::b::c::bytes => by
    obtain ⟨h₀,h₁,h₂,h₃⟩ := sextets a b c
    have hc := c.toNat_lt
    have hne := base64Char_ne_pad (n:=c.toNat % 64) (by omega)
    have ih := base64Decode_encode bytes
    rw [base64Encode_quad,charArray4_eq]
    cases hrest : base64Encode bytes with
    | nil =>
      obtain rfl : bytes = [] := by
        cases bytes with
        | nil => rfl
        | cons x xs => exact absurd hrest (base64Encode_ne_nil x xs)
      simp only [List.map_cons,List.map_nil,List.append_nil,base64Decode,decodeLast,h₀,h₁,h₂,h₃,
        joined_sextets,hne,Option.bind_eq_bind,Option.bind_some,and_false,if_false,Option.pure_def]
    | cons d rest =>
      rw [hrest] at ih
      simp only [List.map_cons,List.map_nil,List.cons_append,List.nil_append,base64Decode,h₀,h₁,h₂,h₃,
        joined_sextets,ih,Option.bind_eq_bind,Option.bind_some,Option.pure_def]

section joined

variable {s₀ s₁ s₂ s₃ : ℕ}

theorem charArray4_joined (h₀ : s₀ < 64) (h₁ : s₁ < 64) (h₂ : s₂ < 64) (h₃ : s₃ < 64) :
    charArray4 (UInt8.ofNat (4*s₀+s₁/16)) (UInt8.ofNat (16*(s₁ % 16)+s₂/4))
      (UInt8.ofNat (64*(s₂ % 4)+s₃)) =
    [UInt8.ofNat s₀,UInt8.ofNat s₁,UInt8.ofNat s₂,UInt8.ofNat s₃] := by
  have toNat_ofNat {n : ℕ} (h : n < 256) : (UInt8.ofNat n).toNat = n := by
    rw [UInt8.toNat_ofNat']
    exact Nat.mod_eq_of_lt h
  have e₀ : (4*s₀+s₁/16)/4 = s₀ := by omega
  have e₁ : 16*((4*s₀+s₁/16) % 4)+(16*(s₁ % 16)+s₂/4)/16 = s₁ := by omega
  have e₂ : 4*((16*(s₁ % 16)+s₂/4) % 16)+(64*(s₂ % 4)+s₃)/64 = s₂ := by omega
  have e₃ : (64*(s₂ % 4)+s₃) % 64 = s₃ := by omega
  rw [charArray4_eq,toNat_ofNat (by omega),toNat_ofNat (by omega),toNat_ofNat (by omega),e₀,e₁,e₂,e₃]

end joined

theorem base64Encode_decodeLast {c₀ c₁ c₂ c₃ : UInt8} {bytes : List UInt8}
    (h : decodeLast c₀ c₁ c₂ c₃ = some bytes) : base64Encode bytes = [c₀,c₁,c₂,c₃] := by
  simp only [decodeLast,Option.bind_eq_bind,Option.bind_eq_some_iff] at h
  obtain ⟨s₀,hs₀,s₁,hs₁,h⟩ := h
  obtain ⟨h₀,rfl⟩ := eq_base64Char hs₀
  obtain ⟨h₁,rfl⟩ := eq_base64Char hs₁
  split at h
  · rename_i hpad
    obtain ⟨rfl,rfl⟩ := hpad
    split at h
    · rename_i hzero
      obtain rfl := Option.some.inj h
      have hquad := charArray4_joined h₀ h₁ (by decide : 0 < 64) (by decide : 0 < 64)
      rw [hzero] at hquad
      have hone : charArray4 (UInt8.ofNat (4*s₀+s₁/16)) 0 0 =
        [UInt8.ofNat s₀,UInt8.ofNat s₁,UInt8.ofNat 0,UInt8.ofNat 0] := hquad
      rw [joined,List.take_succ_cons,List.take_zero,base64Encode_one,hone]
      rfl
    · simp at h
  · rw [Option.bind_eq_some_iff] at h
    obtain ⟨s₂,hs₂,h⟩ := h
    obtain ⟨h₂,rfl⟩ := eq_base64Char hs₂
    split at h
    · rename_i hpad
      subst hpad
      split at h
      · rename_i hzero
        obtain rfl := Option.some.inj h
        have hquad := charArray4_joined h₀ h₁ h₂ (by decide : 0 < 64)
        rw [hzero] at hquad
        have htwo : charArray4 (UInt8.ofNat (4*s₀+s₁/16)) (UInt8.ofNat (16*(s₁ % 16)+s₂/4)) 0 =
          [UInt8.ofNat s₀,UInt8.ofNat s₁,UInt8.ofNat s₂,UInt8.ofNat 0] := hquad
        rw [joined,List.take_succ_cons,List.take_succ_cons,List.take_zero,base64Encode_two,htwo]
        rfl
      · simp at h
    · rw [Option.bind_eq_some_iff] at h
      obtain ⟨s₃,hs₃,h⟩ := h
      obtain ⟨h₃,rfl⟩ := eq_base64Char hs₃
      obtain rfl := Option.some.inj h
      rw [joined,base64Encode_quad,charArray4_joined h₀ h₁ h₂ h₃]
      rfl

theorem base64Encode_decode (s : List UInt8) : ∀ bytes, base64Decode s = some bytes →
    base64Encode bytes = s := by
  fun_induction base64Decode s with
  | case1 =>
    intro bytes h
    obtain rfl := Option.some.inj h
    rfl
  | case2 c₀ c₁ c₂ c₃ => exact fun bytes h => base64Encode_decodeLast h
  | case3 c₀ c₁ c₂ c₃ rest _ ih =>
    intro bytes h
    simp only [Option.bind_eq_bind,Option.bind_eq_some_iff] at h
    obtain ⟨s₀,hs₀,s₁,hs₁,s₂,hs₂,s₃,hs₃,tail,htail,h⟩ := h
    obtain ⟨h₀,rfl⟩ := eq_base64Char hs₀
    obtain ⟨h₁,rfl⟩ := eq_base64Char hs₁
    obtain ⟨h₂,rfl⟩ := eq_base64Char hs₂
    obtain ⟨h₃,rfl⟩ := eq_base64Char hs₃
    obtain rfl := Option.some.inj h
    rw [joined,List.cons_append,List.cons_append,List.cons_append,List.nil_append,base64Encode_quad,
      charArray4_joined h₀ h₁ h₂ h₃,ih tail htail]
    rfl
  | case4 => simp

/-- The decoder accepts the encodings and nothing else, each for the bytes it was made from, with
four characters for every three bytes begun. -/
theorem base64Decode_iff (s bytes : List UInt8) :
    (base64Decode s = some bytes ↔ s = base64Encode bytes) ∧
    (base64Encode bytes).length = 4*((bytes.length+2)/3) := by
  refine ⟨⟨fun h => (base64Encode_decode s bytes h).symm,?_⟩,length_base64Encode bytes⟩
  rintro rfl
  exact base64Decode_encode bytes

/-- Characters, padding and stray bits. -/
example : base64Encode [77,97] = "TWE=".toList.map (fun c => UInt8.ofNat c.toNat) ∧
    base64Decode ("TWF=".toList.map fun c => UInt8.ofNat c.toNat) = none := by decide

end Base64
end SdkCp
