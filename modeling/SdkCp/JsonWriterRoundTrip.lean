import SdkCp.JsonParser
import SdkCp.JsonWriter
import Mathlib.Data.Nat.Digits.Lemmas

/-! What `json_writer` writes is a JSON text of the tree it was given. Every piece it
appends is ASCII and a text of the grammar; the parser then reads the tree back. -/
namespace SdkCp
namespace JsonWriter

open Json

/-- The bytes of a string. -/
def utf8 (s : List Char) : List UInt8 := s.flatMap String.utf8EncodeChar

/-- The characters of ASCII bytes. -/
def asText (bs : List UInt8) : List Char := bs.map fun b => Char.ofNat b.toNat

@[simp] theorem asText_nil : asText [] = [] := rfl

@[simp] theorem asText_append (bs bs' : List UInt8) : asText (bs ++ bs') = asText bs ++ asText bs' :=
  List.map_append

mutual

/-- The trees without real numbers whose strings are UTF-8, and the values they stand for. -/
inductive Denotes : Value → Json → Prop
  | null : Denotes .nullValue .null
  | int {n : ℤ} : -2^63 ≤ n → n < 2^63 → Denotes (.intValue n) (.number n)
  | uint {n : ℕ} : n < 2^64 → Denotes (.uintValue n) (.number n)
  | string {s : List Char} : (utf8 s).length < 2^32 → Denotes (.stringValue (utf8 s)) (.string s)
  | bool (b : Bool) : Denotes (.booleanValue b) (.bool b)
  | array {vs : List Value} {js : List Json} : DenotesAll vs js →
    Denotes (.arrayValue vs) (.array js)
  | object {ms : List (List UInt8 × Value)} {js : List (List Char × Json)} : DenotesMembers ms js →
    Denotes (.objectValue ms) (.object js)

inductive DenotesAll : List Value → List Json → Prop
  | nil : DenotesAll [] []
  | cons {v : Value} {j : Json} {vs : List Value} {js : List Json} : Denotes v j →
    DenotesAll vs js → DenotesAll (v::vs) (j::js)

inductive DenotesMembers : List (List UInt8 × Value) → List (List Char × Json) → Prop
  | nil : DenotesMembers [] []
  | cons {name : List Char} {v : Value} {j : Json} {ms : List (List UInt8 × Value)}
    {js : List (List Char × Json)} : (utf8 name).length < 2^32 → Denotes v j →
    DenotesMembers ms js → DenotesMembers ((utf8 name,v)::ms) ((name,j)::js)

end

theorem digit_char : ∀ d < 10, (Char.ofNat (UInt8.ofNat (48+d)).toNat).isDigit = true ∧
    (Char.ofNat (UInt8.ofNat (48+d)).toNat).toNat-48 = d ∧
    (d ≠ 0 → Char.ofNat (UInt8.ofNat (48+d)).toNat ≠ '0') := by decide

theorem asText_decimal {n : ℕ} (h : n ≠ 0) : asText (decimal n) =
    (Nat.digits 10 n).reverse.map fun d => Char.ofNat (UInt8.ofNat (48+d)).toNat := by
  rw [decimal,if_neg h,asText,List.map_map]
  rfl

theorem digitsVal_decimal {n : ℕ} (h : n ≠ 0) : digitsVal (asText (decimal n)) = n := by
  have hlt : ∀ d ∈ Nat.digits 10 n, d < 10 := fun d hd => Nat.digits_lt_base (by norm_num) hd
  rw [asText_decimal h,digitsVal,List.foldl_map,List.foldl_reverse]
  conv_rhs => rw [← Nat.ofDigits_digits 10 n]
  generalize Nat.digits 10 n = ds at hlt
  induction ds with
  | nil => rfl
  | cons d ds ih =>
    rw [List.foldr_cons,ih (fun x hx => hlt x (by simp [hx])),Nat.ofDigits_cons,
      (digit_char d (hlt d (by simp))).2.1]
    ring

theorem intText_decimal (n : ℕ) : IntText (asText (decimal n)) n := by
  by_cases h : n = 0
  · subst h
    exact .zero
  have hval := digitsVal_decimal h
  have hne : Nat.digits 10 n ≠ [] := Nat.digits_ne_nil_iff_ne_zero.mpr h
  have hlt : ∀ d ∈ Nat.digits 10 n, d < 10 := fun d hd => Nat.digits_lt_base (by norm_num) hd
  obtain ⟨init,last,hsplit,hlast⟩ : ∃ init last, Nat.digits 10 n = init ++ [last] ∧ last ≠ 0 :=
    ⟨_,_,(List.dropLast_append_getLast hne).symm,Nat.getLast_digit_ne_zero 10 h⟩
  have hdigits : Digits (asText (decimal n)) := by
    rw [asText_decimal h]
    refine ⟨by simpa using hne,fun c hc => ?_⟩
    obtain ⟨d,hd,rfl⟩ := List.mem_map.mp hc
    exact (digit_char d (hlt d (List.mem_reverse.mp hd))).1
  obtain ⟨ds,hds⟩ : ∃ ds, asText (decimal n) = Char.ofNat (UInt8.ofNat (48+last)).toNat::ds := by
    rw [asText_decimal h,hsplit,List.reverse_append]
    exact ⟨_,rfl⟩
  rw [hds] at hval hdigits ⊢
  rw [← hval]
  exact .pos ((digit_char last (hlt last (by simp [hsplit]))).2.2 hlast) hdigits

theorem unsignedText_decimal (n : ℕ) : UnsignedText (asText (decimal n)) n := by
  have h := UnsignedText.mk (intText_decimal n) .none .none
  simpa using h

theorem numberText_strConvInt (n : ℤ) : NumberText (asText (strConvInt n)) n := by
  rw [strConvInt]
  split
  · rename_i hneg
    have h := NumberText.neg (unsignedText_decimal n.natAbs)
    have hq : -((n.natAbs : ℕ) : ℚ) = n := by
      rw [Nat.cast_natAbs,abs_of_neg hneg]
      push_cast
      ring
    rw [hq] at h
    exact h
  · rename_i hpos
    have h := NumberText.pos (unsignedText_decimal n.natAbs)
    have hq : ((n.natAbs : ℕ) : ℚ) = n := by
      rw [Nat.cast_natAbs,abs_of_nonneg (by omega)]
    rw [hq] at h
    exact h

theorem shift_or {a b : ℕ} (h : b < 64) : a <<< 6 ||| b = a*64+b := by
  rw [← Nat.shiftLeft_add_eq_or_of_lt (show b < 2^6 by omega),Nat.shiftLeft_eq]

theorem shift_or₂ {a b c : ℕ} (hb : b < 64) (hc : c < 64) :
    a <<< 12 ||| b <<< 6 ||| c = (a*64+b)*64+c := by
  rw [show 12 = 6+6 by rfl,Nat.shiftLeft_add,← Nat.shiftLeft_or_distrib,shift_or hb,shift_or hc]

theorem shift_or₃ {a b c d : ℕ} (hb : b < 64) (hc : c < 64) (hd : d < 64) :
    a <<< 18 ||| b <<< 12 ||| c <<< 6 ||| d = ((a*64+b)*64+c)*64+d := by
  rw [show 18 = 6+(6+6) by rfl,show 12 = 6+6 by rfl,Nat.shiftLeft_add,Nat.shiftLeft_add b,
    Nat.shiftLeft_add _ 6 6,← Nat.shiftLeft_or_distrib,← Nat.shiftLeft_or_distrib,
    ← Nat.shiftLeft_or_distrib,shift_or hb,shift_or hc,shift_or hd]

theorem toNat_byte {n : ℕ} (h : n < 256) : (UInt8.ofNat n).toNat = n := by
  rw [UInt8.toNat_ofNat',Nat.mod_eq_of_lt (by omega)]

theorem and_low (n k : ℕ) : n &&& 2^k-1 = n % 2^k := Nat.and_two_pow_sub_one_eq_mod n k

/-- The decoder reads back what UTF-8 makes of a character and moves over just that. -/
theorem utf8ToCodepoint_encode (c : Char) (s : List UInt8) : ∃ b bs,
    String.utf8EncodeChar c = b::bs ∧ utf8ToCodepoint b (bs ++ s) = (c.toNat,bs.length) ∧
      (b.toNat < 0x80 → bs = [] ∧ b.toNat = c.toNat) := by
  have hmax : c.toNat < 0x110000 := by
    rcases c.valid with h | h
    · exact lt_trans h (by norm_num)
    · exact h.2
  have hsurrogate : ¬(0xD800 ≤ c.toNat ∧ c.toNat ≤ 0xDFFF) := by
    rcases c.valid with h | h
    · exact fun hs => absurd hs.1 (by exact not_le.mpr h)
    · exact fun hs => absurd hs.2 (by exact not_le.mpr h.1)
  have hval : c.val.toNat = c.toNat := rfl
  simp only [String.utf8EncodeChar,hval]
  generalize c.toNat = v at hmax hsurrogate
  by_cases h₁ : v ≤ 0x7f
  · refine ⟨_,_,if_pos h₁,?_,fun _ => ⟨rfl,toNat_byte (by omega)⟩⟩
    simp only [utf8ToCodepoint,toNat_byte (show v < 256 by omega)]
    rw [if_pos (by omega)]
    rfl
  rw [if_neg h₁]
  by_cases h₂ : v ≤ 0x7ff
  · refine ⟨_,_,if_pos h₂,?_,fun h => ?_⟩
    · have hb₀ := toNat_byte (show v/64 % 32+0xc0 < 256 by omega)
      have hb₁ := toNat_byte (show v % 64+0x80 < 256 by omega)
      simp only [utf8ToCodepoint,List.cons_append,List.nil_append,List.getD_cons_zero,hb₀,hb₁,
        List.length_cons,List.length_nil]
      rw [if_neg (by omega),if_pos (by omega),if_neg (by omega),show 0x1F = 2^5-1 by rfl,
        show 0x3F = 2^6-1 by rfl,and_low,and_low,shift_or (by omega)]
      have hv : (v/64 % 32+0xc0) % 2^5*64+(v % 64+0x80) % 2^6 = v := by omega
      rw [hv,if_neg (by omega)]
    · rw [toNat_byte (by omega)] at h
      omega
  rw [if_neg h₂]
  by_cases h₃ : v ≤ 0xffff
  · refine ⟨_,_,if_pos h₃,?_,fun h => ?_⟩
    · have hb₀ := toNat_byte (show v/4096 % 16+0xe0 < 256 by omega)
      have hb₁ := toNat_byte (show v/64 % 64+0x80 < 256 by omega)
      have hb₂ := toNat_byte (show v % 64+0x80 < 256 by omega)
      simp only [utf8ToCodepoint,List.cons_append,List.nil_append,List.getD_cons_zero,
        List.getD_cons_succ,hb₀,hb₁,hb₂,List.length_cons,List.length_nil]
      rw [if_neg (by omega),if_neg (by omega),if_pos (by omega),if_neg (by omega),
        show 0x0F = 2^4-1 by rfl,show 0x3F = 2^6-1 by rfl,and_low,and_low,and_low,
        shift_or₂ (by omega) (by omega)]
      have hv : ((v/4096 % 16+0xe0) % 2^4*64+(v/64 % 64+0x80) % 2^6)*64+(v % 64+0x80) % 2^6 = v := by
        omega
      rw [hv,if_neg hsurrogate,if_neg (by omega)]
    · rw [toNat_byte (by omega)] at h
      omega
  rw [if_neg h₃]
  refine ⟨_,_,rfl,?_,fun h => ?_⟩
  · have hb₀ := toNat_byte (show v/262144 % 8+0xf0 < 256 by omega)
    have hb₁ := toNat_byte (show v/4096 % 64+0x80 < 256 by omega)
    have hb₂ := toNat_byte (show v/64 % 64+0x80 < 256 by omega)
    have hb₃ := toNat_byte (show v % 64+0x80 < 256 by omega)
    simp only [utf8ToCodepoint,List.cons_append,List.nil_append,List.getD_cons_zero,
      List.getD_cons_succ,hb₀,hb₁,hb₂,hb₃,List.length_cons,List.length_nil]
    rw [if_neg (by omega),if_neg (by omega),if_neg (by omega),if_pos (by omega),if_neg (by omega),
      show 0x07 = 2^3-1 by rfl,show 0x3F = 2^6-1 by rfl,and_low,and_low,and_low,and_low,
      shift_or₃ (by omega) (by omega) (by omega)]
    have hv : (((v/262144 % 8+0xf0) % 2^3*64+(v/4096 % 64+0x80) % 2^6)*64+
        (v/64 % 64+0x80) % 2^6)*64+(v % 64+0x80) % 2^6 = v := by omega
    rw [hv,if_neg (by omega)]
  · rw [toNat_byte (by omega)] at h
    omega

def hexDigit (n : ℕ) : UInt8 := UInt8.ofNat (if n < 10 then 48+n else 87+n)

theorem hexVal_hexDigit : ∀ n < 16, hexVal (Char.ofNat (hexDigit n).toNat) = some n := by decide

theorem hex2_eq : hex2 = (List.range 256).flatMap fun n => [hexDigit (n/16),hexDigit (n % 16)] := by
  decide +kernel

theorem getD_flatMap_pair (f g : ℕ → UInt8) {l : List ℕ} {i n : ℕ} (h : l[i]? = some n) :
    (l.flatMap fun n => [f n,g n]).getD (2*i) 0 = f n ∧
    (l.flatMap fun n => [f n,g n]).getD (2*i+1) 0 = g n := by
  induction l generalizing i with
  | nil => simp at h
  | cons m l ih =>
    cases i with
    | zero =>
      obtain rfl : m = n := by simpa using h
      exact ⟨rfl,rfl⟩
    | succ i => exact ih (by simpa using h)

theorem hex2_getD {n : ℕ} (h : n < 256) :
    hex2.getD (2*n) 0 = hexDigit (n/16) ∧ hex2.getD (2*n+1) 0 = hexDigit (n % 16) := by
  rw [hex2_eq]
  exact getD_flatMap_pair _ _ (by simp [h])

theorem hex4_toHex16Bit {x : ℕ} (h : x < 0x10000) : ∃ a b c d,
    asText (toHex16Bit x) = [a,b,c,d] ∧ hex4 a b c d = some x := by
  have hhi : (x >>> 8) &&& 0xff = x/256 := by
    rw [show 0xff = 2^8-1 by rfl,and_low,Nat.shiftRight_eq_div_pow]
    omega
  have hlo : x &&& 0xff = x % 256 := and_low x 8
  obtain ⟨h₀,h₁⟩ := hex2_getD (show x/256 < 256 by omega)
  obtain ⟨h₂,h₃⟩ := hex2_getD (show x % 256 < 256 by omega)
  simp only [toHex16Bit,hhi,hlo,h₀,h₁,h₂,h₃]
  refine ⟨_,_,_,_,rfl,?_⟩
  rw [hex4,hexVal_hexDigit _ (by omega),hexVal_hexDigit _ (by omega),hexVal_hexDigit _ (by omega),
    hexVal_hexDigit _ (by omega)]
  simp only [Option.bind_some,Option.some.injEq]
  omega

theorem char_eq {c d : Char} (h : c.toNat = d.toNat) : c = d := by
  rw [← Char.ofNat_toNat c,h,Char.ofNat_toNat]

theorem shortEscape_text {b : UInt8} {esc : List UInt8} (h : shortEscape b = some esc) :
    b.toNat < 0x80 ∧ ∀ c : Char, b.toNat = c.toNat → CharText (asText esc) c := by
  have key : ∀ (d e : Char), Json.shortEscape e = some d → asText esc = ['\\',e] →
      b.toNat = d.toNat → d.toNat < 0x80 →
      b.toNat < 0x80 ∧ ∀ c : Char, b.toNat = c.toNat → CharText (asText esc) c := by
    intro d e he ht hb hd
    refine ⟨hb ▸ hd,fun c hc => ?_⟩
    rw [ht,char_eq (hc.symm.trans hb)]
    exact .short he
  unfold shortEscape at h
  split at h
  · rename_i hb
    obtain rfl := Option.some.inj h
    exact key '"' '"' rfl rfl (by rw [hb]; rfl) (by decide)
  split at h
  · rename_i hb
    obtain rfl := Option.some.inj h
    exact key '\\' '\\' rfl rfl (by rw [hb]; rfl) (by decide)
  split at h
  · rename_i hb
    obtain rfl := Option.some.inj h
    exact key _ 'b' rfl rfl (by rw [hb]; rfl) (by decide)
  split at h
  · rename_i hb
    obtain rfl := Option.some.inj h
    exact key _ 'f' rfl rfl (by rw [hb]; rfl) (by decide)
  split at h
  · rename_i hb
    obtain rfl := Option.some.inj h
    exact key '\n' 'n' rfl rfl (by rw [hb]; rfl) (by decide)
  split at h
  · rename_i hb
    obtain rfl := Option.some.inj h
    exact key '\r' 'r' rfl rfl (by rw [hb]; rfl) (by decide)
  split at h
  · rename_i hb
    obtain rfl := Option.some.inj h
    exact key '\t' 't' rfl rfl (by rw [hb]; rfl) (by decide)
  · simp at h

theorem escapeCodepoint_text {c : Char} (hquote : c ≠ '"') (hback : c ≠ '\\') :
    CharText (asText (escapeCodepoint c.toNat)) c := by
  have hmax : c.toNat < 0x110000 := by
    rcases c.valid with h | h
    · exact lt_trans h (by norm_num)
    · exact h.2
  rw [escapeCodepoint]
  split
  · rename_i hplain
    have htext : asText [UInt8.ofNat c.toNat] = [c] := by
      simp only [asText,List.map_cons,List.map_nil]
      rw [toNat_byte (by omega),Char.ofNat_toNat]
    rw [htext]
    exact .unescaped hplain.2 hquote hback
  split
  · rename_i hbmp
    obtain ⟨a,b,c',d,ht,hx⟩ := hex4_toHex16Bit hbmp
    have hchar := CharText.unicode hx
    rw [Char.ofNat_toNat] at hchar
    rw [asText_append,ht]
    refine hchar ?_ ?_
    · rcases c.valid with h | h
      · exact fun hs => absurd hs.1 (not_le.mpr h)
      · exact fun hs => absurd (show c.toNat ≤ 0xDFFF by omega) (not_le.mpr h.1)
    · rcases c.valid with h | h
      · exact fun hs => absurd (show 0xD800 ≤ c.toNat by omega) (not_le.mpr h)
      · exact fun hs => absurd hs.2 (not_le.mpr h.1)
  · rename_i hplain hbmp
    have hlo : (c.toNat-0x10000) &&& 0x3FF = (c.toNat-0x10000) % 1024 := and_low _ 10
    simp only [hlo,Nat.shiftRight_eq_div_pow]
    obtain ⟨a,b,c',d,ht,hx⟩ := hex4_toHex16Bit
      (show (c.toNat-0x10000)/2^10+0xD800 < 0x10000 by omega)
    obtain ⟨a₂,b₂,c₂,d₂,ht₂,hx₂⟩ := hex4_toHex16Bit
      (show (c.toNat-0x10000) % 1024+0xDC00 < 0x10000 by omega)
    have hpair : pairChar ((c.toNat-0x10000)/2^10+0xD800) ((c.toNat-0x10000) % 1024+0xDC00) = c := by
      rw [pairChar,show 0x10000+((c.toNat-0x10000)/2^10+0xD800-0xD800)*0x400+
        ((c.toNat-0x10000) % 1024+0xDC00-0xDC00) = c.toNat by omega,Char.ofNat_toNat]
    have hchar := CharText.pair hx ⟨by omega,by omega⟩ hx₂ ⟨by omega,by omega⟩
    rw [hpair] at hchar
    rw [asText_append,asText_append,asText_append,ht,ht₂]
    exact hchar

theorem quoteLoop_skip (bs s : List UInt8) : quoteLoop bs.length (bs ++ s) = quoteLoop 0 s := by
  induction bs with
  | nil => rfl
  | cons b bs ih => exact ih

theorem quoteLoop_char (c : Char) (s : List UInt8) : ∃ t,
    quoteLoop 0 (String.utf8EncodeChar c ++ s) = t ++ quoteLoop 0 s ∧ CharText (asText t) c := by
  obtain ⟨b,bs,hc,hdecode,hascii⟩ := utf8ToCodepoint_encode c s
  rw [hc,List.cons_append,quoteLoop]
  cases hesc : shortEscape b with
  | some esc =>
    obtain ⟨hlt,htext⟩ := shortEscape_text hesc
    obtain ⟨rfl,hb⟩ := hascii hlt
    exact ⟨esc,rfl,htext c hb⟩
  | none =>
    simp only [hdecode,quoteLoop_skip]
    refine ⟨_,rfl,escapeCodepoint_text ?_ ?_⟩
    · rintro rfl
      obtain ⟨rfl,rfl⟩ := List.cons.inj hc
      simp [shortEscape] at hesc
    · rintro rfl
      obtain ⟨rfl,rfl⟩ := List.cons.inj hc
      simp [shortEscape] at hesc

theorem charsText_quoteLoop (s : List Char) : CharsText (asText (quoteLoop 0 (utf8 s))) s := by
  induction s with
  | nil => exact .nil
  | cons c s ih =>
    obtain ⟨t,ht,hc⟩ := quoteLoop_char c (utf8 s)
    rw [utf8,List.flatMap_cons,← utf8,ht,asText_append]
    exact .cons hc ih

theorem stringText_value2QuotedStr {s : List Char} (h : (utf8 s).length < 2^32) :
    StringText (asText (value2QuotedStr (utf8 s) ((utf8 s).length % 2^32))) s := by
  rw [value2QuotedStr,Nat.mod_eq_of_lt h,List.take_length,asText_append,asText_append]
  exact .quoted (charsText_quoteLoop s)

theorem writeElements_cons (v v' : Value) (vs : List Value) :
    writeElements (v::v'::vs) = writeValue v ++ (ascii "," ++ writeElements (v'::vs)) := rfl

theorem writeMembers_cons (name : List UInt8) (v : Value) (m : List UInt8 × Value)
    (ms : List (List UInt8 × Value)) : writeMembers ((name,v)::m::ms) =
      value2QuotedStr name (name.length % 2^32) ++ (ascii ":" ++
        (writeValue v ++ (ascii "," ++ writeMembers (m::ms)))) := rfl

mutual

theorem valueText_writeValue : ∀ {v : Value} {j : Json}, Denotes v j →
    ValueText (asText (writeValue v)) j
  | _,_,.null => .null
  | _,_,.int _ _ => .number (numberText_strConvInt _)
  | _,_,.uint _ => .number (.pos (unsignedText_decimal _))
  | _,_,.string h => .string (stringText_value2QuotedStr h)
  | _,_,.bool true => .true
  | _,_,.bool false => .false
  | _,_,@Denotes.array vs _ hs => by
    rw [writeValue,asText_append,asText_append]
    cases vs with
    | nil =>
      cases hs
      exact .emptyArray ws_nil
    | cons v vs => exact .array (elementsText_writeElements hs (by simp))
  | _,_,@Denotes.object ms _ hs => by
    rw [writeValue,asText_append,asText_append]
    cases ms with
    | nil =>
      cases hs
      exact .emptyObject ws_nil
    | cons m ms => exact .object (membersText_writeMembers hs (by simp))

theorem elementsText_writeElements : ∀ {vs : List Value} {js : List Json}, DenotesAll vs js →
    vs ≠ [] → ElementsText (asText (writeElements vs)) js
  | _,_,.nil,h => absurd rfl h
  | _,_,@DenotesAll.cons _ _ vs _ h hs,_ => by
    have hvalue := valueText_writeValue h
    cases vs with
    | nil =>
      cases hs
      have hone := ElementsText.one ws_nil hvalue ws_nil
      rwa [List.nil_append,List.append_nil] at hone
    | cons v' vs =>
      rw [writeElements_cons,asText_append,asText_append]
      exact .cons ws_nil hvalue ws_nil (elementsText_writeElements hs (by simp))

theorem membersText_writeMembers : ∀ {ms : List (List UInt8 × Value)}
    {js : List (List Char × Json)}, DenotesMembers ms js → ms ≠ [] →
    MembersText (asText (writeMembers ms)) js
  | _,_,.nil,h => absurd rfl h
  | _,_,@DenotesMembers.cons _ _ _ ms _ hname h hs,_ => by
    have hvalue := valueText_writeValue h
    have hstring := stringText_value2QuotedStr hname
    cases ms with
    | nil =>
      cases hs
      have hone := MembersText.one ws_nil hstring ws_nil ws_nil hvalue ws_nil
      rw [writeMembers,asText_append,asText_append]
      rwa [List.append_nil] at hone
    | cons m ms =>
      rw [writeMembers_cons,asText_append,asText_append,asText_append,asText_append]
      exact .cons ws_nil hstring ws_nil ws_nil hvalue ws_nil
        (membersText_writeMembers hs (by simp))

end

def Ascii (bs : List UInt8) : Prop := ∀ b ∈ bs, b.toNat < 0x80

instance (bs : List UInt8) : Decidable (Ascii bs) := List.decidableBAll _ bs

theorem ascii_nil : Ascii [] := by simp [Ascii]

theorem Ascii.append {bs bs' : List UInt8} (h : Ascii bs) (h' : Ascii bs') : Ascii (bs ++ bs') := by
  intro b hb
  rcases List.mem_append.mp hb with hb | hb
  · exact h b hb
  · exact h' b hb

theorem ascii_decimal (n : ℕ) : Ascii (decimal n) := by
  intro b hb
  rw [decimal] at hb
  split at hb
  · rw [List.mem_singleton.mp hb]
    decide
  · obtain ⟨d,hd,rfl⟩ := List.mem_map.mp hb
    have hlt : d < 10 := Nat.digits_lt_base (by norm_num) (List.mem_reverse.mp hd)
    rw [toNat_byte (by omega)]
    omega

theorem ascii_toHex16Bit (x : ℕ) : Ascii (toHex16Bit x) := by
  have hdigit : ∀ n < 16, (hexDigit n).toNat < 0x80 := by decide
  have hhi : (x >>> 8) &&& 0xff < 256 := Nat.and_lt_two_pow (n:=8) _ (by norm_num)
  have hlo : x &&& 0xff < 256 := Nat.and_lt_two_pow (n:=8) _ (by norm_num)
  obtain ⟨h₀,h₁⟩ := hex2_getD hhi
  obtain ⟨h₂,h₃⟩ := hex2_getD hlo
  intro b hb
  simp only [toHex16Bit,h₀,h₁,h₂,h₃,List.mem_cons,List.not_mem_nil,or_false] at hb
  rcases hb with rfl | rfl | rfl | rfl <;> exact hdigit _ (by omega)

theorem ascii_escapeCodepoint (cp : ℕ) : Ascii (escapeCodepoint cp) := by
  have hu : Ascii (ascii "\\u") := by decide
  rw [escapeCodepoint]
  split
  · rename_i h
    intro b hb
    rw [List.mem_singleton.mp hb,toNat_byte (by omega)]
    exact h.1
  split
  · exact hu.append (ascii_toHex16Bit _)
  · exact (hu.append (ascii_toHex16Bit _)).append (hu.append (ascii_toHex16Bit _))

theorem ascii_shortEscape {b : UInt8} {esc : List UInt8} (h : shortEscape b = some esc) :
    Ascii esc := by
  unfold shortEscape at h
  repeat' split at h
  case isFalse => simp at h
  all_goals
    obtain rfl := Option.some.inj h
    decide

theorem ascii_quoteLoop (k : ℕ) (s : List UInt8) : Ascii (quoteLoop k s) := by
  induction s generalizing k with
  | nil =>
    cases k <;> exact ascii_nil
  | cons b s ih =>
    cases k with
    | succ k => exact ih k
    | zero =>
      rw [quoteLoop]
      split
      · rename_i hesc
        exact (ascii_shortEscape hesc).append (ih 0)
      · exact (ascii_escapeCodepoint _).append (ih _)

theorem ascii_value2QuotedStr (value : List UInt8) (length : ℕ) :
    Ascii (value2QuotedStr value length) := by
  have hquote : Ascii (ascii "\"") := by decide
  exact hquote.append ((ascii_quoteLoop 0 _).append hquote)

theorem ascii_strConvInt (n : ℤ) : Ascii (strConvInt n) := by
  rw [strConvInt]
  split
  · exact Ascii.append (by decide) (ascii_decimal _)
  · exact ascii_decimal _

theorem ascii_strConvDouble (x : Double) : Ascii (strConvDouble x) := by
  have hsign : Ascii (if x.negative then ascii "-" else []) := by
    split
    · decide
    · exact ascii_nil
  have hzeros : ∀ k, Ascii (List.replicate k 48) := by
    intro k b hb
    rw [List.eq_of_mem_replicate hb]
    decide
  exact (((hsign.append (ascii_decimal _)).append (by decide)).append (hzeros _)).append
    (ascii_decimal _)

mutual

theorem ascii_writeValue : ∀ v : Value, Ascii (writeValue v)
  | .nullValue => by decide
  | .intValue n => ascii_strConvInt n
  | .uintValue n => ascii_decimal n
  | .realValue x => ascii_strConvDouble x
  | .stringValue s => ascii_value2QuotedStr s _
  | .booleanValue true => by decide
  | .booleanValue false => by decide
  | .arrayValue vs => Ascii.append (by decide) ((ascii_writeElements vs).append (by decide))
  | .objectValue ms => Ascii.append (by decide) ((ascii_writeMembers ms).append (by decide))

theorem ascii_writeElements : ∀ vs : List Value, Ascii (writeElements vs)
  | [] => ascii_nil
  | [v] => ascii_writeValue v
  | v::v'::vs => (ascii_writeValue v).append (Ascii.append (by decide) (ascii_writeElements (v'::vs)))

theorem ascii_writeMembers : ∀ ms : List (List UInt8 × Value), Ascii (writeMembers ms)
  | [] => ascii_nil
  | [(name,v)] => (ascii_value2QuotedStr name _).append
      (Ascii.append (by decide) (ascii_writeValue v))
  | (name,v)::m::ms => (ascii_value2QuotedStr name _).append (Ascii.append (by decide)
      ((ascii_writeValue v).append (Ascii.append (by decide) (ascii_writeMembers (m::ms)))))

end

theorem utf8EncodeChar_ascii : ∀ n < 0x80,
    String.utf8EncodeChar (Char.ofNat n) = [UInt8.ofNat n] := by decide

theorem utf8_asText {bs : List UInt8} (h : Ascii bs) : utf8 (asText bs) = bs := by
  induction bs with
  | nil => rfl
  | cons b bs ih =>
    have hb : b.toNat < 0x80 := h b (by simp)
    have hchar := utf8EncodeChar_ascii _ hb
    rw [UInt8.ofNat_toNat] at hchar
    rw [asText,List.map_cons,utf8,List.flatMap_cons,hchar]
    exact congrArg (b::·) (ih fun x hx => h x (by simp [hx]))

/-- `write` appends one JSON text and a newline, and the parser reads the tree back. -/
theorem write_round_trip {v : Value} {j : Json} (h : Denotes v j) (out : List UInt8) :
    ∃ text, write true v out = out ++ (utf8 text ++ utf8 ['\n']) ∧ Text text j ∧
      parse text = some j ∧ parse (text ++ ['\n']) = some j := by
  have hvalue := valueText_writeValue h
  have htext : Text (asText (writeValue v)) j := by
    have hmk := Text.mk ws_nil hvalue ws_nil
    rwa [List.nil_append,List.append_nil] at hmk
  refine ⟨asText (writeValue v),?_,htext,parse_iff.mpr htext,parse_iff.mpr ?_⟩
  · rw [utf8_asText (ascii_writeValue v)]
    rfl
  · exact .mk ws_nil hvalue (by simp [Ws,isWs])

/-- An object with a member `é` that holds `[-5, "😀\n"]`. -/
theorem write_round_trip_nested : ∃ text,
    write true (.objectValue [([0xc3,0xa9],.arrayValue [.intValue (-5),
      .stringValue [0xf0,0x9f,0x98,0x80,10]])]) [] = [] ++ (utf8 text ++ utf8 ['\n']) ∧
    Text text (.object [(['é'],.array [.number (-5 : ℤ),.string ['😀','\n']])]) ∧
    parse text = some (.object [(['é'],.array [.number (-5 : ℤ),.string ['😀','\n']])]) ∧
    parse (text ++ ['\n']) =
      some (.object [(['é'],.array [.number (-5 : ℤ),.string ['😀','\n']])]) :=
  write_round_trip (.object (@DenotesMembers.cons ['é'] _ _ _ _ (by decide) (.array (.cons
    (.int (by norm_num) (by norm_num)) (.cons (@Denotes.string ['😀','\n'] (by decide)) .nil)))
    .nil)) []

end JsonWriter
end SdkCp
