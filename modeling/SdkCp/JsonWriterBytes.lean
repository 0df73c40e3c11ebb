import SdkCp.JsonWriterRoundTrip

/-! `value_2_quoted_str` on arbitrary bytes. The decoder takes a lead byte with as many bytes as
it announces and does not look at these; which sequences come out right is decided by their
bytes. -/
namespace SdkCp
namespace JsonWriter

open Json

/-- How many bytes the lead byte `b` announces. Continuation bytes count as lead bytes. -/
def announced (b : UInt8) : ℕ :=
  if b.toNat < 0x80 then 0
  else if b.toNat < 0xE0 then 1
  else if b.toNat < 0xF0 then 2
  else if b.toNat < 0xF8 then 3
  else 0

/-- The bytes taken behind `b`: none if there are less than announced. -/
def taken (b : UInt8) (s : List UInt8) : ℕ := if announced b ≤ s.length then announced b else 0

/-- The sequences of a byte string. -/
def sequences : List UInt8 → List (List UInt8)
  | [] => []
  | b::s => (b::s.take (taken b s))::sequences (s.drop (taken b s))
termination_by s => s.length
decreasing_by simp

def replacement : Char := Char.ofNat REPLACEMENT_CHARACTER

/-- A well-formed sequence becomes its character, any other one U+FFFD, which is no stand-in
for an ASCII character. -/
def Becomes (t : List UInt8) (c : Char) : Prop :=
  t = String.utf8EncodeChar c ∨
    c = replacement ∧ (∀ b ∈ t, 0x80 ≤ b.toNat) ∧ ∀ c', t ≠ String.utf8EncodeChar c'

/-- What should hold of the text of `s`: wherever the decoder is called it stays inside, what
is appended is a string of one character for each sequence, and its ASCII characters are the
ASCII bytes. -/
structure Quotes (s : List UInt8) : Prop where
  inside : ∀ r b u, s = r ++ b::u → (utf8ToCodepoint b u).2 ≤ u.length
  text : ∃ cs, StringText (asText (value2QuotedStr s s.length)) cs ∧
    List.Forall₂ Becomes (sequences s) cs ∧
    cs.filter (fun c => c.toNat < 0x80) = asText (s.filter fun b => b.toNat < 0x80)

def isTail (b : UInt8) : Prop := 0x80 ≤ b.toNat ∧ b.toNat < 0xC0

/-- The sequences that come out right: none of the announced bytes is ASCII, and the payload
bits are too few for the length, a surrogate or U+FFFD, or the sequence is well formed. -/
def Sane : List UInt8 → Prop
  | [b₀,b₁] => 0x80 ≤ b₁.toNat ∧
    (b₀.toNat % 32*64+b₁.toNat % 64 < 0x80 ∨ 0xC0 ≤ b₀.toNat ∧ isTail b₁)
  | [b₀,b₁,b₂] =>
    let bits := (b₀.toNat % 16*64+b₁.toNat % 64)*64+b₂.toNat % 64
    (0x80 ≤ b₁.toNat ∧ 0x80 ≤ b₂.toNat) ∧
      (bits < 0x800 ∨ (0xD800 ≤ bits ∧ bits ≤ 0xDFFF) ∨ bits = REPLACEMENT_CHARACTER ∨
        isTail b₁ ∧ isTail b₂)
  | [b₀,b₁,b₂,b₃] =>
    let bits := ((b₀.toNat % 8*64+b₁.toNat % 64)*64+b₂.toNat % 64)*64+b₃.toNat % 64
    (0x80 ≤ b₁.toNat ∧ 0x80 ≤ b₂.toNat ∧ 0x80 ≤ b₃.toNat) ∧
      (bits < 0x10000 ∨ bits < 0x110000 ∧ isTail b₁ ∧ isTail b₂ ∧ isTail b₃)
  | _ => True

theorem encode_one {c : Char} (h : c.toNat < 0x80) :
    String.utf8EncodeChar c = [UInt8.ofNat c.toNat] := by
  have hval : c.val.toNat = c.toNat := rfl
  simp only [String.utf8EncodeChar,hval]
  rw [if_pos (by omega)]

theorem encode_two {c : Char} (h : 0x80 ≤ c.toNat) (h' : c.toNat < 0x800) :
    String.utf8EncodeChar c = [UInt8.ofNat (c.toNat/64+0xC0),UInt8.ofNat (c.toNat % 64+0x80)] := by
  have hval : c.val.toNat = c.toNat := rfl
  simp only [String.utf8EncodeChar,hval]
  rw [if_neg (by omega),if_pos (by omega),show c.toNat/64 % 32 = c.toNat/64 by omega]

theorem encode_three {c : Char} (h : 0x800 ≤ c.toNat) (h' : c.toNat < 0x10000) :
    String.utf8EncodeChar c = [UInt8.ofNat (c.toNat/4096+0xE0),UInt8.ofNat (c.toNat/64 % 64+0x80),
      UInt8.ofNat (c.toNat % 64+0x80)] := by
  have hval : c.val.toNat = c.toNat := rfl
  simp only [String.utf8EncodeChar,hval]
  rw [if_neg (by omega),if_neg (by omega),if_pos (by omega),
    show c.toNat/4096 % 16 = c.toNat/4096 by omega]

theorem toNat_lt_max (c : Char) : c.toNat < 0x110000 := by
  rcases c.valid with h | h
  · exact lt_trans h (by norm_num)
  · exact h.2

theorem encode_four {c : Char} (h : 0x10000 ≤ c.toNat) :
    String.utf8EncodeChar c = [UInt8.ofNat (c.toNat/262144+0xF0),UInt8.ofNat (c.toNat/4096 % 64+0x80),
      UInt8.ofNat (c.toNat/64 % 64+0x80),UInt8.ofNat (c.toNat % 64+0x80)] := by
  have hval : c.val.toNat = c.toNat := rfl
  have hmax := toNat_lt_max c
  simp only [String.utf8EncodeChar,hval]
  rw [if_neg (by omega),if_neg (by omega),if_neg (by omega),
    show c.toNat/262144 % 8 = c.toNat/262144 by omega]

theorem eq_ofNat_iff {b : UInt8} {n : ℕ} (h : n < 256) : b = UInt8.ofNat n ↔ b.toNat = n := by
  rw [← UInt8.toNat_inj,toNat_byte h]

theorem encode_high {c : Char} (h : 0x80 ≤ c.toNat) :
    ∀ b ∈ String.utf8EncodeChar c, 0x80 ≤ b.toNat := by
  have hmax := toNat_lt_max c
  have key : ∀ n, 0x80 ≤ n → n < 256 → 0x80 ≤ (UInt8.ofNat n).toNat := fun n h₁ h₂ => by
    rwa [toNat_byte h₂]
  intro b hb
  rcases Nat.lt_or_ge c.toNat 0x800 with h₂ | h₂
  · rw [encode_two h h₂] at hb
    simp only [List.mem_cons,List.not_mem_nil,or_false] at hb
    rcases hb with rfl | rfl <;> exact key _ (by omega) (by omega)
  rcases Nat.lt_or_ge c.toNat 0x10000 with h₃ | h₃
  · rw [encode_three h₂ h₃] at hb
    simp only [List.mem_cons,List.not_mem_nil,or_false] at hb
    rcases hb with rfl | rfl | rfl <;> exact key _ (by omega) (by omega)
  · rw [encode_four h₃] at hb
    simp only [List.mem_cons,List.not_mem_nil,or_false] at hb
    rcases hb with rfl | rfl | rfl | rfl <;> exact key _ (by omega) (by omega)

theorem and_07 (n : ℕ) : n &&& 0x07 = n % 8 := and_low n 3
theorem and_0F (n : ℕ) : n &&& 0x0F = n % 16 := and_low n 4
theorem and_1F (n : ℕ) : n &&& 0x1F = n % 32 := and_low n 5
theorem and_3F (n : ℕ) : n &&& 0x3F = n % 64 := and_low n 6

theorem utf8ToCodepoint_two {b₀ : UInt8} (h : 0x80 ≤ b₀.toNat) (h' : b₀.toNat < 0xE0) (b₁ : UInt8)
    (s : List UInt8) : utf8ToCodepoint b₀ (b₁::s) =
      (if b₀.toNat % 32*64+b₁.toNat % 64 < 0x80 then REPLACEMENT_CHARACTER
        else b₀.toNat % 32*64+b₁.toNat % 64,1) := by
  simp only [utf8ToCodepoint,List.getD_cons_zero,List.length_cons]
  rw [if_neg (by omega),if_pos h',if_neg (by omega),and_1F,and_3F,shift_or (by omega)]

theorem utf8ToCodepoint_three {b₀ : UInt8} (h : 0xE0 ≤ b₀.toNat) (h' : b₀.toNat < 0xF0)
    (b₁ b₂ : UInt8) (s : List UInt8) : utf8ToCodepoint b₀ (b₁::b₂::s) =
      (if (b₀.toNat % 16*64+b₁.toNat % 64)*64+b₂.toNat % 64 < 0x800 ∨
          (0xD800 ≤ (b₀.toNat % 16*64+b₁.toNat % 64)*64+b₂.toNat % 64 ∧
            (b₀.toNat % 16*64+b₁.toNat % 64)*64+b₂.toNat % 64 ≤ 0xDFFF) then REPLACEMENT_CHARACTER
        else (b₀.toNat % 16*64+b₁.toNat % 64)*64+b₂.toNat % 64,2) := by
  simp only [utf8ToCodepoint,List.getD_cons_zero,List.getD_cons_succ,List.length_cons]
  rw [if_neg (by omega),if_neg (by omega),if_pos h',if_neg (by omega),and_0F,and_3F,and_3F,
    shift_or₂ (by omega) (by omega)]
  split_ifs with h₁ h₂ h₃ <;> first | rfl | omega

theorem utf8ToCodepoint_four {b₀ : UInt8} (h : 0xF0 ≤ b₀.toNat) (h' : b₀.toNat < 0xF8)
    (b₁ b₂ b₃ : UInt8) (s : List UInt8) : utf8ToCodepoint b₀ (b₁::b₂::b₃::s) =
      (if ((b₀.toNat % 8*64+b₁.toNat % 64)*64+b₂.toNat % 64)*64+b₃.toNat % 64 < 0x10000 then
          REPLACEMENT_CHARACTER
        else ((b₀.toNat % 8*64+b₁.toNat % 64)*64+b₂.toNat % 64)*64+b₃.toNat % 64,3) := by
  simp only [utf8ToCodepoint,List.getD_cons_zero,List.getD_cons_succ,List.length_cons]
  rw [if_neg (by omega),if_neg (by omega),if_neg (by omega),if_pos h',if_neg (by omega),
    and_07,and_3F,and_3F,and_3F,shift_or₃ (by omega) (by omega) (by omega)]

theorem utf8ToCodepoint_alone {b : UInt8} (h : 0x80 ≤ b.toNat) {s : List UInt8}
    (hs : b.toNat < 0xF8 → s.length < announced b) :
    utf8ToCodepoint b s = (REPLACEMENT_CHARACTER,0) := by
  simp only [announced] at hs
  rw [if_neg (by omega)] at hs
  simp only [utf8ToCodepoint]
  rw [if_neg (by omega)]
  split
  · rename_i h₁
    rw [if_pos h₁] at hs
    rw [if_pos (by omega)]
  rename_i h₁
  split
  · rename_i h₂
    rw [if_neg h₁,if_pos h₂] at hs
    rw [if_pos (by omega)]
  rename_i h₂
  split
  · rename_i h₃
    rw [if_neg h₁,if_neg h₂,if_pos h₃] at hs
    rw [if_pos (by omega)]
  · rfl

/-- The sequences there are: ASCII, a byte alone, and lead bytes with what they announce. -/
inductive IsSequence : List UInt8 → Prop
  | ascii {b : UInt8} : b.toNat < 0x80 → IsSequence [b]
  | alone {b : UInt8} : 0x80 ≤ b.toNat → IsSequence [b]
  | two {b₀ : UInt8} (b₁ : UInt8) : 0x80 ≤ b₀.toNat → b₀.toNat < 0xE0 → IsSequence [b₀,b₁]
  | three {b₀ : UInt8} (b₁ b₂ : UInt8) : 0xE0 ≤ b₀.toNat → b₀.toNat < 0xF0 → IsSequence [b₀,b₁,b₂]
  | four {b₀ : UInt8} (b₁ b₂ b₃ : UInt8) : 0xF0 ≤ b₀.toNat → b₀.toNat < 0xF8 →
    IsSequence [b₀,b₁,b₂,b₃]

/-- The code point of a sequence taken by itself. -/
def codepoint : List UInt8 → ℕ
  | [] => 0
  | b::u => (utf8ToCodepoint b u).1

theorem taken_le (b : UInt8) (s : List UInt8) : taken b s ≤ s.length := by
  unfold taken
  split <;> omega

/-- The decoder takes the sequence in front and sees nothing behind it. -/
theorem utf8ToCodepoint_taken (b : UInt8) (s : List UInt8) : IsSequence (b::s.take (taken b s)) ∧
    utf8ToCodepoint b s = (codepoint (b::s.take (taken b s)),taken b s) := by
  rcases Nat.lt_or_ge b.toNat 0x80 with h | h
  · have htaken : taken b s = 0 := by simp [taken,announced,h]
    rw [htaken,List.take_zero]
    exact ⟨.ascii h,by simp [codepoint,utf8ToCodepoint,h]⟩
  by_cases hshort : b.toNat < 0xF8 → s.length < announced b
  · have htaken : taken b s = 0 := by
      unfold taken
      split
      · rcases Nat.lt_or_ge b.toNat 0xF8 with hlt | hge
        · have := hshort hlt
          omega
        · simp only [announced]
          rw [if_neg (by omega),if_neg (by omega),if_neg (by omega),if_neg (by omega)]
      · rfl
    have hempty : utf8ToCodepoint b [] = (REPLACEMENT_CHARACTER,0) := by
      refine utf8ToCodepoint_alone h fun hlt => ?_
      have := hshort hlt
      rw [List.length_nil]
      omega
    rw [htaken,List.take_zero,utf8ToCodepoint_alone h hshort]
    exact ⟨.alone h,by rw [codepoint,hempty]⟩
  · obtain ⟨hlt,hlen⟩ := Classical.not_imp.mp hshort
    have htaken : taken b s = announced b := if_pos (not_lt.mp hlen)
    rw [not_lt] at hlen
    rw [htaken]
    rcases Nat.lt_or_ge b.toNat 0xE0 with h₁ | h₁
    · have hann : announced b = 1 := by simp [announced,h.not_gt,h₁]
      rw [hann] at hlen ⊢
      obtain ⟨b₁,s,rfl⟩ := List.exists_cons_of_length_pos hlen
      exact ⟨.two b₁ h h₁,by simp [codepoint,utf8ToCodepoint_two h h₁]⟩
    rcases Nat.lt_or_ge b.toNat 0xF0 with h₂ | h₂
    · have hann : announced b = 2 := by simp [announced,h.not_gt,h₁.not_gt,h₂]
      rw [hann] at hlen ⊢
      obtain ⟨b₁,s,rfl⟩ := List.exists_cons_of_length_pos (show 0 < s.length by omega)
      rw [List.length_cons] at hlen
      obtain ⟨b₂,s,rfl⟩ := List.exists_cons_of_length_pos (show 0 < s.length by omega)
      exact ⟨.three b₁ b₂ h₁ h₂,by simp [codepoint,utf8ToCodepoint_three h₁ h₂]⟩
    · have hann : announced b = 3 := by simp [announced,h.not_gt,h₁.not_gt,h₂.not_gt,hlt]
      rw [hann] at hlen ⊢
      obtain ⟨b₁,s,rfl⟩ := List.exists_cons_of_length_pos (show 0 < s.length by omega)
      rw [List.length_cons] at hlen
      obtain ⟨b₂,s,rfl⟩ := List.exists_cons_of_length_pos (show 0 < s.length by omega)
      rw [List.length_cons] at hlen
      obtain ⟨b₃,s,rfl⟩ := List.exists_cons_of_length_pos (show 0 < s.length by omega)
      exact ⟨.four b₁ b₂ b₃ h₂ hlt,by simp [codepoint,utf8ToCodepoint_four h₂ hlt]⟩

/-- The text of a sequence. -/
def sequenceText : List UInt8 → List UInt8
  | [] => []
  | b::u => (shortEscape b).getD (escapeCodepoint (codepoint (b::u)))

theorem quoteLoop_drop {k : ℕ} {s : List UInt8} (h : k ≤ s.length) :
    quoteLoop k s = quoteLoop 0 (s.drop k) := by
  have hskip := quoteLoop_skip (s.take k) (s.drop k)
  rwa [List.length_take_of_le h,List.take_append_drop] at hskip

theorem quoteLoop_sequence (b : UInt8) (s : List UInt8) : quoteLoop 0 (b::s) =
    sequenceText (b::s.take (taken b s)) ++ quoteLoop 0 (s.drop (taken b s)) := by
  obtain ⟨-,hcode⟩ := utf8ToCodepoint_taken b s
  rw [quoteLoop,sequenceText]
  cases hesc : shortEscape b with
  | some esc =>
    have hlt := (shortEscape_text hesc).1
    have htaken : taken b s = 0 := by simp [taken,announced,hlt]
    rw [htaken]
    rfl
  | none =>
    simp only [hcode,Option.getD_none,quoteLoop_drop (taken_le b s)]

theorem toNat_ofNat {v : ℕ} (h : v < 0xD800 ∨ 0xDFFF < v ∧ v < 0x110000) :
    (Char.ofNat v).toNat = v := by
  rw [Char.ofNat,dif_pos (show v.isValidChar from h)]
  rfl

theorem codepoint_encode {t : List UInt8} {c : Char} (h : t = String.utf8EncodeChar c) :
    codepoint t = c.toNat := by
  obtain ⟨b,bs,hc,hdecode,-⟩ := utf8ToCodepoint_encode c []
  rw [List.append_nil] at hdecode
  rw [h,hc,codepoint,hdecode]

/-- With the character of its code point a sequence is the encoding of it, or it is without
ASCII and the code point U+FFFD. -/
theorem becomes_iff {t : List UInt8} {v : ℕ} (hv : codepoint t = v)
    (hvalid : v < 0xD800 ∨ 0xDFFF < v ∧ v < 0x110000) : Becomes t (Char.ofNat v) ↔
      t = String.utf8EncodeChar (Char.ofNat v) ∨
        v = REPLACEMENT_CHARACTER ∧ ∀ b ∈ t, 0x80 ≤ b.toNat := by
  have hreplace : Char.ofNat v = replacement ↔ v = REPLACEMENT_CHARACTER := by
    constructor
    · intro h
      have hnat := congrArg Char.toNat h
      rwa [toNat_ofNat hvalid,replacement,toNat_ofNat (by norm_num)] at hnat
    · rintro rfl
      rfl
  rw [Becomes,hreplace]
  constructor
  · rintro (h | ⟨h,hhigh,-⟩)
    · exact .inl h
    · exact .inr ⟨h,hhigh⟩
  · rintro (h | ⟨h,hhigh⟩)
    · exact .inl h
    · by_cases hwell : ∃ c, t = String.utf8EncodeChar c
      · obtain ⟨c,hc⟩ := hwell
        have hcv : c = Char.ofNat v := by
          rw [← hv,codepoint_encode hc,Char.ofNat_toNat]
        exact .inl (hcv ▸ hc)
      · exact .inr ⟨h,hhigh,fun c hc => hwell ⟨c,hc⟩⟩

theorem shortEscape_high {b : UInt8} (h : 0x80 ≤ b.toNat) : shortEscape b = none := by
  cases hesc : shortEscape b with
  | none => rfl
  | some esc =>
    have := (shortEscape_text hesc).1
    omega

theorem charText_high {b : UInt8} {u : List UInt8} {v : ℕ} (h : 0x80 ≤ b.toNat)
    (hv : codepoint (b::u) = v) (hhigh : 0x80 ≤ v) (hvalid : v < 0xD800 ∨ 0xDFFF < v ∧ v < 0x110000) :
    CharText (asText (sequenceText (b::u))) (Char.ofNat v) := by
  have hnat := toNat_ofNat hvalid
  rw [sequenceText,shortEscape_high h,hv,Option.getD_none]
  have htext := @escapeCodepoint_text (Char.ofNat v) ?_ ?_
  · rwa [hnat] at htext
  · intro heq
    rw [heq] at hnat
    have : '"'.toNat = 34 := rfl
    omega
  · intro heq
    rw [heq] at hnat
    have : '\\'.toNat = 92 := rfl
    omega

theorem charText_ascii {b : UInt8} (h : b.toNat < 0x80) :
    [b] = String.utf8EncodeChar (Char.ofNat b.toNat) ∧
      CharText (asText (sequenceText [b])) (Char.ofNat b.toNat) := by
  have hnat := toNat_ofNat (v:=b.toNat) (by omega)
  have hencode : String.utf8EncodeChar (Char.ofNat b.toNat) = [b] := by
    rw [encode_one (by omega),hnat,UInt8.ofNat_toNat]
  obtain ⟨t,ht,htext⟩ := quoteLoop_char (Char.ofNat b.toNat) []
  have htaken : taken b [] = 0 := by simp [taken,announced,h]
  rw [hencode,List.append_nil,quoteLoop_sequence,htaken] at ht
  rw [← List.append_cancel_right ht] at htext
  exact ⟨hencode.symm,htext⟩

theorem sequence_high {b : UInt8} {u : List UInt8} {v : ℕ} (h : 0x80 ≤ b.toNat)
    (hv : codepoint (b::u) = v) (hhigh : 0x80 ≤ v) (hvalid : v < 0xD800 ∨ 0xDFFF < v ∧ v < 0x110000)
    (hsane : Sane (b::u) ↔ b::u = String.utf8EncodeChar (Char.ofNat v) ∨
      v = REPLACEMENT_CHARACTER ∧ ∀ x ∈ u, 0x80 ≤ x.toNat) :
    ∃ c, CharText (asText (sequenceText (b::u))) c ∧ (Becomes (b::u) c ↔ Sane (b::u)) := by
  refine ⟨_,charText_high h hv hhigh hvalid,?_⟩
  rw [becomes_iff hv hvalid,hsane,List.forall_mem_cons,and_iff_right h]

theorem eq_encode_two {b₀ b₁ : UInt8} {c : Char} (h : 0x80 ≤ c.toNat) (h' : c.toNat < 0x800) :
    [b₀,b₁] = String.utf8EncodeChar c ↔
      b₀.toNat = c.toNat/64+0xC0 ∧ b₁.toNat = c.toNat % 64+0x80 := by
  rw [encode_two h h',List.cons.injEq,List.cons.injEq,eq_ofNat_iff (by omega),eq_ofNat_iff (by omega)]
  simp

theorem eq_encode_three {b₀ b₁ b₂ : UInt8} {c : Char} (h : 0x800 ≤ c.toNat) (h' : c.toNat < 0x10000) :
    [b₀,b₁,b₂] = String.utf8EncodeChar c ↔ b₀.toNat = c.toNat/4096+0xE0 ∧
      b₁.toNat = c.toNat/64 % 64+0x80 ∧ b₂.toNat = c.toNat % 64+0x80 := by
  rw [encode_three h h',List.cons.injEq,List.cons.injEq,List.cons.injEq,eq_ofNat_iff (by omega),
    eq_ofNat_iff (by omega),eq_ofNat_iff (by omega)]
  simp

theorem eq_encode_four {b₀ b₁ b₂ b₃ : UInt8} {c : Char} (h : 0x10000 ≤ c.toNat) :
    [b₀,b₁,b₂,b₃] = String.utf8EncodeChar c ↔ b₀.toNat = c.toNat/262144+0xF0 ∧
      b₁.toNat = c.toNat/4096 % 64+0x80 ∧ b₂.toNat = c.toNat/64 % 64+0x80 ∧
      b₃.toNat = c.toNat % 64+0x80 := by
  have hmax := toNat_lt_max c
  rw [encode_four h,List.cons.injEq,List.cons.injEq,List.cons.injEq,List.cons.injEq,
    eq_ofNat_iff (by omega),eq_ofNat_iff (by omega),eq_ofNat_iff (by omega),eq_ofNat_iff (by omega)]
  simp

theorem toNat_replacement : (Char.ofNat REPLACEMENT_CHARACTER).toNat = 0xFFFD :=
  toNat_ofNat (by norm_num)

theorem sequence_two {b₀ : UInt8} (b₁ : UInt8) (h : 0x80 ≤ b₀.toNat) (h' : b₀.toNat < 0xE0) :
    ∃ c, CharText (asText (sequenceText [b₀,b₁])) c ∧ (Becomes [b₀,b₁] c ↔ Sane [b₀,b₁]) := by
  have hb₁ := b₁.toNat_lt
  obtain ⟨v,hbits⟩ : ∃ v, b₀.toNat % 32*64+b₁.toNat % 64 = v := ⟨_,rfl⟩
  have hv : codepoint [b₀,b₁] = if v < 0x80 then REPLACEMENT_CHARACTER else v := by
    rw [codepoint,utf8ToCodepoint_two h h',hbits]
  by_cases hlong : v < 0x80
  · rw [if_pos hlong] at hv
    refine sequence_high h hv (by norm_num) (by norm_num) ?_
    rw [encode_three (by rw [toNat_replacement]; norm_num) (by rw [toNat_replacement]; norm_num)]
    simp [Sane,hbits,hlong]
  · rw [if_neg hlong] at hv
    have hnat := toNat_ofNat (v:=v) (by omega)
    refine sequence_high h hv (by omega) (by omega) ?_
    rw [eq_encode_two (by omega) (by omega),hnat]
    simp only [Sane,isTail,REPLACEMENT_CHARACTER]
    omega

theorem sequence_three {b₀ : UInt8} (b₁ b₂ : UInt8) (h : 0xE0 ≤ b₀.toNat) (h' : b₀.toNat < 0xF0) :
    ∃ c, CharText (asText (sequenceText [b₀,b₁,b₂])) c ∧
      (Becomes [b₀,b₁,b₂] c ↔ Sane [b₀,b₁,b₂]) := by
  have hb₁ := b₁.toNat_lt
  have hb₂ := b₂.toNat_lt
  obtain ⟨v,hbits⟩ : ∃ v, (b₀.toNat % 16*64+b₁.toNat % 64)*64+b₂.toNat % 64 = v := ⟨_,rfl⟩
  have hv : codepoint [b₀,b₁,b₂] =
      if v < 0x800 ∨ 0xD800 ≤ v ∧ v ≤ 0xDFFF then REPLACEMENT_CHARACTER else v := by
    rw [codepoint,utf8ToCodepoint_three h h',hbits]
  by_cases hbad : v < 0x800 ∨ 0xD800 ≤ v ∧ v ≤ 0xDFFF
  · rw [if_pos hbad] at hv
    refine sequence_high (by omega) hv (by norm_num) (by norm_num) ?_
    rw [eq_encode_three (by rw [toNat_replacement]; norm_num) (by rw [toNat_replacement]; norm_num),
      toNat_replacement]
    simp only [Sane,isTail,hbits,REPLACEMENT_CHARACTER,List.forall_mem_cons,List.not_mem_nil,
      false_imp_iff,implies_true,and_true,true_and]
    omega
  · rw [if_neg hbad] at hv
    have hnat := toNat_ofNat (v:=v) (by omega)
    refine sequence_high (by omega) hv (by omega) (by omega) ?_
    rw [eq_encode_three (by omega) (by omega),hnat]
    simp only [Sane,isTail,hbits,REPLACEMENT_CHARACTER,List.forall_mem_cons,List.not_mem_nil,
      false_imp_iff,implies_true,and_true]
    omega

theorem sequence_four {b₀ : UInt8} (b₁ b₂ b₃ : UInt8) (h : 0xF0 ≤ b₀.toNat) (h' : b₀.toNat < 0xF8) :
    (0x110000 ≤ codepoint [b₀,b₁,b₂,b₃] ∧ codepoint [b₀,b₁,b₂,b₃] < 0x200000 ∧
      ¬Sane [b₀,b₁,b₂,b₃]) ∨
    ∃ c, CharText (asText (sequenceText [b₀,b₁,b₂,b₃])) c ∧
      (Becomes [b₀,b₁,b₂,b₃] c ↔ Sane [b₀,b₁,b₂,b₃]) := by
  have hb₁ := b₁.toNat_lt
  have hb₂ := b₂.toNat_lt
  have hb₃ := b₃.toNat_lt
  obtain ⟨v,hbits⟩ : ∃ v,
    ((b₀.toNat % 8*64+b₁.toNat % 64)*64+b₂.toNat % 64)*64+b₃.toNat % 64 = v := ⟨_,rfl⟩
  have hv : codepoint [b₀,b₁,b₂,b₃] = if v < 0x10000 then REPLACEMENT_CHARACTER else v := by
    rw [codepoint,utf8ToCodepoint_four h h',hbits]
  by_cases hlong : v < 0x10000
  · rw [if_pos hlong] at hv
    refine .inr (sequence_high (by omega) hv (by norm_num) (by norm_num) ?_)
    rw [encode_three (by rw [toNat_replacement]; norm_num) (by rw [toNat_replacement]; norm_num)]
    simp [Sane,hbits,hlong]
  rw [if_neg hlong] at hv
  by_cases hmax : v < 0x110000
  · have hnat := toNat_ofNat (v:=v) (by omega)
    refine .inr (sequence_high (by omega) hv (by omega) (by omega) ?_)
    rw [eq_encode_four (by omega),hnat]
    simp only [Sane,isTail,hbits,REPLACEMENT_CHARACTER,List.forall_mem_cons,List.not_mem_nil,
      false_imp_iff,implies_true,and_true]
    omega
  · refine .inl ⟨by omega,by omega,?_⟩
    simp only [Sane,hbits]
    omega

/-- A sequence has the text of a character, the right one exactly if it is sane, or its code
point is beyond Unicode. -/
theorem sequence_cases {t : List UInt8} (h : IsSequence t) :
    (∃ c, CharText (asText (sequenceText t)) c ∧ (Becomes t c ↔ Sane t)) ∨
      ∃ cp, 0x110000 ≤ cp ∧ cp < 0x200000 ∧ sequenceText t = escapeCodepoint cp ∧ ¬Sane t := by
  cases h with
  | @ascii b h =>
    obtain ⟨hencode,htext⟩ := charText_ascii h
    exact .inl ⟨_,htext,iff_of_true (.inl hencode) trivial⟩
  | @alone b h =>
    have hv : codepoint [b] = REPLACEMENT_CHARACTER := by
      have halone := utf8ToCodepoint_alone h (s:=[]) fun hlt => by
        simp only [announced]
        rw [if_neg (by omega)]
        split_ifs <;> simp
      rw [codepoint,halone]
    refine .inl (sequence_high h hv (by norm_num) (by norm_num) ?_)
    exact iff_of_true trivial (.inr ⟨rfl,by simp⟩)
  | @two b₀ b₁ h h' => exact .inl (sequence_two b₁ h h')
  | @three b₀ b₁ b₂ h h' => exact .inl (sequence_three b₁ b₂ h h')
  | @four b₀ b₁ b₂ b₃ h h' =>
    rcases sequence_four b₁ b₂ b₃ h h' with ⟨hmax,hlt,hsane⟩ | htext
    · refine .inr ⟨_,hmax,hlt,?_,hsane⟩
      rw [sequenceText,shortEscape_high (by omega),Option.getD_none]
    · exact .inl htext

theorem parseUnicode_low {a b c d : Char} {n : ℕ} (hx : hex4 a b c d = some n)
    (hhigh : ¬IsHigh n) (hlow : IsLow n) (s : List Char) : parseUnicode (a::b::c::d::s) = none := by
  rw [parseUnicode,hx,Option.bind_some,if_neg hhigh,if_pos hlow]

theorem not_charsText_low {a b c d : Char} {n : ℕ} (hx : hex4 a b c d = some n)
    (hhigh : ¬IsHigh n) (hlow : IsLow n) (s cs : List Char) :
    ¬CharsText ('\\':: 'u'::a::b::c::d::s) cs := by
  have hparse : parseChar ('\\':: 'u'::a::b::c::d::s) = none := parseUnicode_low hx hhigh hlow s
  have hne : '\\':: 'u'::a::b::c::d::s ≠ [] := List.cons_ne_nil _ _
  generalize '\\':: 'u'::a::b::c::d::s = t at hparse hne
  intro hcs
  cases hcs with
  | nil => exact hne rfl
  | @cons t ts c cs hc _ =>
    rw [(parseChar_complete hc ts).1] at hparse
    simp at hparse

/-- The escapes of a code point beyond Unicode begin with a low surrogate. -/
theorem escapeCodepoint_beyond {cp : ℕ} (h : 0x110000 ≤ cp) (h' : cp < 0x200000) :
    ∃ n t, escapeCodepoint cp = ascii "\\u" ++ (toHex16Bit n ++ t) ∧
      ¬IsHigh n ∧ IsLow n ∧ n < 0x10000 := by
  have htext : escapeCodepoint cp = ascii "\\u" ++ (toHex16Bit (((cp-0x10000) >>> 10)+0xD800) ++
      (ascii "\\u" ++ toHex16Bit (((cp-0x10000) &&& 0x3FF)+0xDC00))) := by
    rw [escapeCodepoint,if_neg (by omega),if_neg (by omega),List.append_assoc]
  rw [Nat.shiftRight_eq_div_pow] at htext
  refine ⟨_,_,htext,?_⟩
  simp only [IsHigh,IsLow]
  omega

theorem not_charsText_beyond {cp : ℕ} (h : 0x110000 ≤ cp) (h' : cp < 0x200000) (r cs : List Char) :
    ¬CharsText (asText (escapeCodepoint cp) ++ r) cs := by
  obtain ⟨n,t,ht,hhigh,hlow,hn⟩ := escapeCodepoint_beyond h h'
  obtain ⟨a,b,c,d,htext,hx⟩ := hex4_toHex16Bit hn
  have hu : asText (ascii "\\u") = ['\\','u'] := by decide
  rw [ht,asText_append,asText_append,htext,hu]
  exact not_charsText_low hx hhigh hlow _ _

theorem charsText_cons_iff {t r cs : List Char} {c : Char} (h : CharText t c) :
    CharsText (t ++ r) cs ↔ ∃ cs', cs = c::cs' ∧ CharsText r cs' := by
  constructor
  · intro hcs
    obtain ⟨hparse,c₀,s₀,rfl,-⟩ := parseChar_complete h r
    generalize hu : c₀::s₀ ++ r = u at hcs hparse
    cases hcs with
    | nil => simp at hu
    | @cons t' ts' c' cs' h' hcs' =>
      have hparse' := (parseChar_complete h' ts').1
      rw [hparse] at hparse'
      obtain ⟨rfl,rfl⟩ := Prod.mk.inj (Option.some.inj hparse')
      exact ⟨cs',rfl,hcs'⟩
  · rintro ⟨cs',rfl,hcs'⟩
    exact .cons h hcs'

theorem charsText_iff (s : List UInt8) :
    (∃ cs, CharsText (asText (quoteLoop 0 s)) cs ∧ List.Forall₂ Becomes (sequences s) cs) ↔
      ∀ t ∈ sequences s, Sane t := by
  induction hn : s.length using Nat.strong_induction_on generalizing s with
  | _ n ih =>
    cases s with
    | nil =>
      refine iff_of_true ⟨[],.nil,?_⟩ ?_ <;> simp [sequences]
    | cons b s =>
      have hseq := (utf8ToCodepoint_taken b s).1
      have hrest := ih (s.drop (taken b s)).length
        (by rw [← hn,List.length_drop,List.length_cons]; omega) _ rfl
      rw [quoteLoop_sequence,asText_append,sequences,List.forall_mem_cons,← hrest]
      rcases sequence_cases hseq with ⟨c,htext,hsane⟩ | ⟨cp,hmax,hlt,htext,hsane⟩
      · rw [← hsane]
        constructor
        · rintro ⟨cs,hcs,hall⟩
          obtain ⟨cs',rfl,hcs'⟩ := (charsText_cons_iff htext).mp hcs
          rw [List.forall₂_cons] at hall
          exact ⟨hall.1,cs',hcs',hall.2⟩
        · rintro ⟨hbecomes,cs,hcs,hall⟩
          exact ⟨c::cs,(charsText_cons_iff htext).mpr ⟨cs,rfl,hcs⟩,.cons hbecomes hall⟩
      · refine iff_of_false ?_ (fun h => hsane h.1)
        rintro ⟨cs,hcs,-⟩
        rw [htext] at hcs
        exact not_charsText_beyond hmax hlt _ _ hcs

theorem flatten_sequences (s : List UInt8) : (sequences s).flatten = s := by
  induction hn : s.length using Nat.strong_induction_on generalizing s with
  | _ n ih =>
    cases s with
    | nil => simp [sequences]
    | cons b s =>
      rw [sequences,List.flatten_cons,ih (s.drop (taken b s)).length
        (by rw [← hn,List.length_drop,List.length_cons]; omega) _ rfl,List.cons_append,
        List.take_append_drop]

theorem Becomes.ascii {t : List UInt8} {c : Char} (h : Becomes t c) :
    [c].filter (fun c => c.toNat < 0x80) = asText (t.filter fun b => b.toNat < 0x80) := by
  have hhigh : 0x80 ≤ c.toNat → (∀ b ∈ t, 0x80 ≤ b.toNat) →
      [c].filter (fun c => c.toNat < 0x80) = asText (t.filter fun b => b.toNat < 0x80) := by
    intro hc ht
    rw [List.filter_eq_nil_iff.mpr (by simpa using hc),List.filter_eq_nil_iff.mpr (by simpa using ht)]
    rfl
  rcases h with rfl | ⟨rfl,ht,-⟩
  · rcases Nat.lt_or_ge c.toNat 0x80 with hc | hc
    · have hb : (UInt8.ofNat c.toNat).toNat = c.toNat := toNat_byte (by omega)
      simp [encode_one hc,hb,hc,asText]
    · exact hhigh hc (encode_high hc)
  · exact hhigh (by rw [replacement,toNat_replacement]; norm_num) ht

theorem ascii_of_becomes {ts : List (List UInt8)} {cs : List Char} (h : List.Forall₂ Becomes ts cs) :
    cs.filter (fun c => c.toNat < 0x80) = asText (ts.flatten.filter fun b => b.toNat < 0x80) := by
  induction h with
  | nil => rfl
  | @cons t c ts cs hc _ ih =>
    rw [List.flatten_cons,List.filter_append,asText_append,← hc.ascii,← ih,← List.filter_append]
    rfl

theorem stringText_iff (s : List UInt8) (cs : List Char) :
    StringText (asText (value2QuotedStr s s.length)) cs ↔ CharsText (asText (quoteLoop 0 s)) cs := by
  rw [value2QuotedStr,List.take_length,asText_append,asText_append]
  constructor
  · intro h
    generalize hu : asText (ascii "\"") ++ (asText (quoteLoop 0 s) ++ asText (ascii "\"")) = u at h
    cases h with
    | quoted h =>
      rename_i t
      have ht : asText (quoteLoop 0 s) ++ ['"'] = t ++ ['"'] := (List.cons.inj hu).2
      rwa [List.append_cancel_right ht]
  · exact .quoted

/-- The text is right exactly if every sequence is sane. -/
theorem quotes_iff (s : List UInt8) : Quotes s ↔ ∀ t ∈ sequences s, Sane t := by
  rw [← charsText_iff]
  constructor
  · rintro ⟨-,cs,htext,hall,-⟩
    exact ⟨cs,(stringText_iff s cs).mp htext,hall⟩
  · rintro ⟨cs,htext,hall⟩
    refine ⟨fun r b u _ => ?_,cs,(stringText_iff s cs).mpr htext,hall,?_⟩
    · rw [(utf8ToCodepoint_taken b u).2]
      exact taken_le b u
    · rw [ascii_of_becomes hall,flatten_sequences]

/-- A lead byte in front of the letter A. -/
theorem not_quotes_swallowed : ¬∀ s, Quotes s := by
  intro hall
  obtain ⟨cs,-,hbecomes,-⟩ := (hall [0xC3,0x41]).text
  have hseq : sequences [0xC3,0x41] = [[0xC3,0x41]] := by
    simp [sequences,taken,announced]
  rw [hseq] at hbecomes
  cases hbecomes with
  | @cons _ c _ cs hbecomes _ =>
    have hA : ¬0x80 ≤ (0x41 : UInt8).toNat := by decide
    rcases hbecomes with hencode | ⟨-,hhigh,-⟩
    · rcases Nat.lt_or_ge c.toNat 0x80 with hc | hc
      · rw [encode_one hc] at hencode
        simp at hencode
      · exact hA (encode_high hc _ (hencode ▸ by simp))
    · exact hA (hhigh _ (by simp))

end JsonWriter
end SdkCp
