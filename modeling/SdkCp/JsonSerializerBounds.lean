import SdkCp.JsonSerializer

/-! Fixed-size destinations of `_get_field`. `strncpy` and `mbstowcs` are told the size but
terminate only if there is room; the loop over an array is not told it. -/
namespace SdkCp
namespace JsonSerializer

open JsonWriter (Value)

/-- The overloads with a fixed-size destination. -/
inductive Buffer
  | chars
  | wchars
  | words

/-- The element type. -/
abbrev Buffer.Cell : Buffer → Type
  | .chars => UInt8
  | .wchars => Wchar
  | .words => UInt32

/-- What an overload does with the value of the field. -/
def Buffer.read (lib : Jsoncpp) (conv : Conversion) (size : ℕ) :
    (b : Buffer) → Value → (ℕ → b.Cell) → Bool × (ℕ → b.Cell)
  | .chars => readChars size
  | .wchars => readWchars conv size
  | .words => readWords lib

def Buffer.getField (lib : Jsoncpp) (conv : Conversion) (size : ℕ) :
    (b : Buffer) → Value → List UInt8 → (ℕ → b.Cell) → Bool × (ℕ → b.Cell)
  | .chars => getFieldChars lib size
  | .wchars => getFieldWchars lib conv size
  | .words => getFieldWords lib size

/-- A NUL among the elements, for the character types. -/
def Buffer.Terminated (size : ℕ) : (b : Buffer) → (ℕ → b.Cell) → Prop
  | .chars, result => ∃ i < size, result i = 0
  | .wchars, result => ∃ i < size, result i = 0
  | .words, _ => True

/-- Nothing behind the destination is written, and what returns true leaves a string, whatever
was there before. -/
def Buffer.Keeps (b : Buffer) (size : ℕ) (read : (ℕ → b.Cell) → Bool × (ℕ → b.Cell)) : Prop :=
  (∀ result i, size ≤ i → (read result).2 i = result i) ∧
    ∀ result, (read result).1 = true → b.Terminated size (read result).2

/-- The destination is large enough for the value: for a string with its terminator and valid
in the locale, for an array up to the first element that is no 32-bit number. -/
def Buffer.Room (lib : Jsoncpp) (conv : Conversion) (size : ℕ) : Buffer → Value → Prop
  | .chars, .stringValue s => (cString s).length < size
  | .wchars, .stringValue s =>
    conv.valid (cString s) = true ∧ (conv.wide (cString s)).length < size
  | .words, .arrayValue vs => (leading lib vs).length ≤ size
  | _, _ => True

theorem Buffer.getField_eq (lib : Jsoncpp) (conv : Conversion) (size : ℕ) (b : Buffer) :
    b.getField lib conv size = JsonSerializer.getField lib (b.read lib conv size) := by
  cases b <;> rfl

theorem Buffer.keeps_idle (b : Buffer) (size : ℕ) : b.Keeps size fun result => (false,result) :=
  ⟨fun _ _ _ => rfl,fun _ h => Bool.noConfusion h⟩

theorem cString_ne_zero (s : List UInt8) : ∀ c ∈ cString s, c ≠ 0 := fun c hc => by
  simpa using List.mem_takeWhile_imp hc

theorem strncpy_terminated_iff (s : List UInt8) (size : ℕ) (result : ℕ → UInt8) :
    (∃ i < size, strncpy result s size i = 0) ↔ (cString s).length < size := by
  constructor
  · rintro ⟨i,hi,hzero⟩
    rw [strncpy,if_pos hi] at hzero
    by_contra hlong
    rw [List.getD_eq_getElem _ _ (by omega)] at hzero
    exact cString_ne_zero s _ (List.getElem_mem _) hzero
  · intro h
    refine ⟨_,h,?_⟩
    rw [strncpy,if_pos h,List.getD_eq_default _ _ le_rfl]

theorem mbstowcs_terminated {conv : Conversion} {s : List UInt8} {size : ℕ}
    (hvalid : conv.valid (cString s) = true) (h : (conv.wide (cString s)).length < size)
    (result : ℕ → Wchar) : ∃ i < size, mbstowcs conv result s size i = 0 :=
  ⟨_,h,by simp [mbstowcs,h,hvalid]⟩

theorem of_mbstowcs_terminated {conv : Conversion} {s : List UInt8} {size : ℕ}
    (h : ∃ i < size, mbstowcs conv (fun _ => 1) s size i = 0) :
    conv.valid (cString s) = true ∧ (conv.wide (cString s)).length < size := by
  obtain ⟨i,hi,hzero⟩ := h
  simp only [mbstowcs,if_pos hi] at hzero
  split at hzero
  · rename_i hend
    exact ⟨hend.2,hend.1 ▸ hi⟩
  · rcases Nat.lt_or_ge i (conv.wide (cString s)).length with hlt | hge
    · rw [List.getD_eq_getElem _ _ hlt] at hzero
      exact absurd (hzero ▸ List.getElem_mem hlt) (conv.nonzero _)
    · rw [List.getD_eq_default _ _ hge] at hzero
      exact absurd hzero (by decide)

theorem keeps_chars_iff (size : ℕ) (s : List UInt8) :
    Buffer.chars.Keeps size (readChars size (.stringValue s)) ↔ (cString s).length < size := by
  rw [← strncpy_terminated_iff s size fun _ => 0]
  constructor
  · exact fun h => h.2 _ rfl
  · intro h
    refine ⟨fun result i hi => if_neg hi.not_gt,fun result _ => ?_⟩
    exact (strncpy_terminated_iff s size result).mpr ((strncpy_terminated_iff s size _).mp h)

theorem keeps_wchars_iff (conv : Conversion) (size : ℕ) (s : List UInt8) :
    Buffer.wchars.Keeps size (readWchars conv size (.stringValue s)) ↔
      conv.valid (cString s) = true ∧ (conv.wide (cString s)).length < size := by
  constructor
  · exact fun h => of_mbstowcs_terminated (h.2 (fun _ => 1) rfl)
  · rintro ⟨hvalid,hlen⟩
    exact ⟨fun result i hi => if_neg hi.not_gt,fun result _ => mbstowcs_terminated hvalid hlen result⟩

theorem keeps_words_iff (lib : Jsoncpp) (size : ℕ) (vs : List Value) :
    Buffer.words.Keeps size (readWords lib (.arrayValue vs)) ↔ (leading lib vs).length ≤ size := by
  constructor
  · intro h
    by_contra hlong
    rw [not_le] at hlong
    -- A destination that differs from the first element behind its end.
    have hwrite := h.1 (fun _ => lib.asUInt (leading lib vs)[size]+1) size le_rfl
    simp only [readWords] at hwrite
    rw [storeElements_at,if_neg (by omega),Nat.sub_zero,
      List.getD_eq_getElem _ _ (by rwa [List.length_map]),List.getElem_map] at hwrite
    simp at hwrite
  · intro h
    refine ⟨fun result i hi => ?_,fun _ _ => trivial⟩
    simp only [readWords]
    rw [storeElements_at,if_neg (by omega),Nat.sub_zero,
      List.getD_eq_default _ _ (by rw [List.length_map]; omega)]

theorem keeps_read_iff (lib : Jsoncpp) (conv : Conversion) (size : ℕ) (b : Buffer) (value : Value) :
    b.Keeps size (b.read lib conv size value) ↔ b.Room lib conv size value := by
  cases b with
  | chars =>
    cases value with
    | stringValue s => exact keeps_chars_iff size s
    | _ => exact iff_of_true (Buffer.keeps_idle .chars size) trivial
  | wchars =>
    cases value with
    | stringValue s => exact keeps_wchars_iff conv size s
    | _ => exact iff_of_true (Buffer.keeps_idle .wchars size) trivial
  | words =>
    cases value with
    | arrayValue vs => exact keeps_words_iff lib size vs
    | _ => exact iff_of_true (Buffer.keeps_idle .words size) trivial

/-- The destination is kept within its bounds exactly if there is room for the field. -/
theorem keeps_iff (lib : Jsoncpp) (conv : Conversion) (size : ℕ) (b : Buffer) (json : Object)
    (name : List UInt8) : b.Keeps size (b.getField lib conv size json.value name) ↔
      ∀ value, (cString name,value) ∈ json.members → b.Room lib conv size value := by
  rw [Buffer.getField_eq,getField_iff (b.keeps_idle size)]
  exact forall₂_congr fun value _ => keeps_read_iff lib conv size b value

/-- The object with one field "f". -/
def field (value : Value) : Object := ⟨[([102],value)],List.nodup_singleton _⟩

/-- Four characters into an array of four. -/
theorem not_keeps_full : ¬∀ lib conv size (b : Buffer) (json : Object) name,
    b.Keeps size (b.getField lib conv size json.value name) := by
  intro h
  have hkeeps := h rangeJsoncpp asciiConversion 4 .chars
    (field (.stringValue [97,98,99,100])) [102]
  rw [Buffer.getField_eq,getField_iff (Buffer.keeps_idle .chars 4)] at hkeeps
  have hroom := (keeps_chars_iff 4 _).mp (hkeeps _ (List.mem_singleton.mpr rfl))
  exact absurd hroom (by decide)

end JsonSerializer
end SdkCp
