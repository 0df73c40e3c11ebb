import SdkCp.JsonWriter
import Mathlib.Data.List.GetD
import Mathlib.Data.List.TakeWhile

/-! tools/json_serializer.hpp: the `_get_field` overloads for integers, strings and fixed-size
destinations. An overload returns its result and the destination behind it; a fixed-size
destination is the memory from its first element on. -/
namespace SdkCp
namespace JsonSerializer

open JsonWriter (Value)

/-- The integer that a JSON value is, if it is one. -/
def integer : Value → Option ℤ
  | .intValue n => some n
  | .uintValue n => some n
  | .realValue x =>
    if x.magnitude.den = 1 then some (if x.negative then -x.magnitude.num else x.magnitude.num)
    else none
  | _ => none

/-- A JSON object: each name stands once. -/
structure Object where
  members : List (List UInt8 × Value)
  nodup : (members.map Prod.fst).Nodup

def Object.value (o : Object) : Value := .objectValue o.members

/-- What is called of jsoncpp to find a member and to convert a number. A number that passes
the test of a type is converted to that type as it is. -/
structure Jsoncpp where
  find : Value → List UInt8 → Option Value
  isUInt : Value → Bool
  asUInt : Value → UInt32
  isInt : Value → Bool
  asInt : Value → Int32
  isInt64 : Value → Bool
  asInt64 : Value → Int64
  isUInt64 : Value → Bool
  asUInt64 : Value → UInt64
  find_iff : ∀ (o : Object) name v, find o.value name = some v ↔ (name,v) ∈ o.members
  asUInt_exact : ∀ v, isUInt v = true → integer v = some ((asUInt v).toNat : ℤ)
  asInt_exact : ∀ v, isInt v = true → integer v = some (asInt v).toInt
  asInt64_exact : ∀ v, isInt64 v = true → integer v = some (asInt64 v).toInt
  asUInt64_exact : ∀ v, isUInt64 v = true → integer v = some ((asUInt64 v).toNat : ℤ)

def inRange (lo hi : ℤ) (v : Value) : Bool := (integer v).any fun n => lo ≤ n ∧ n < hi

theorem inRange_cases {lo hi : ℤ} {v : Value} (h : inRange lo hi v = true) :
    ∃ n, integer v = some n ∧ lo ≤ n ∧ n < hi := by
  rw [inRange,Option.any_eq_true] at h
  obtain ⟨n,hn,hrange⟩ := h
  exact ⟨n,hn,of_decide_eq_true hrange⟩

def convert (v : Value) : ℤ := (integer v).getD 0

def findMember : Value → List UInt8 → Option Value
  | .objectValue members, name => (members.find? fun m => m.1 = name).map Prod.snd
  | _, _ => none

theorem findMember_iff (o : Object) (name : List UInt8) (v : Value) :
    findMember o.value name = some v ↔ (name,v) ∈ o.members := by
  rw [Object.value,findMember,Option.map_eq_some_iff]
  constructor
  · rintro ⟨⟨name',v'⟩,hfind,rfl⟩
    obtain rfl : name' = name := by simpa using List.find?_some hfind
    exact List.mem_of_find?_eq_some hfind
  · intro hmem
    cases hfind : o.members.find? fun m => m.1 = name with
    | none => simpa using List.find?_eq_none.mp hfind _ hmem
    | some m =>
      have hname : m.1 = name := by simpa using List.find?_some hfind
      have heq := List.inj_on_of_nodup_map o.nodup (List.mem_of_find?_eq_some hfind) hmem hname
      exact ⟨m,rfl,by rw [heq]⟩

/-- A jsoncpp that tests for the range of the type. -/
def rangeJsoncpp : Jsoncpp where
  find := findMember
  isUInt := inRange 0 (2^32)
  asUInt v := UInt32.ofNat (convert v).toNat
  isInt := inRange (-2^31) (2^31)
  asInt v := Int32.ofInt (convert v)
  isInt64 := inRange (-2^63) (2^63)
  asInt64 v := Int64.ofInt (convert v)
  isUInt64 := inRange 0 (2^64)
  asUInt64 v := UInt64.ofNat (convert v).toNat
  find_iff := findMember_iff
  asUInt_exact v h := by
    obtain ⟨n,hn,hlo,hhi⟩ := inRange_cases h
    rw [convert,hn,Option.getD_some,UInt32.toNat_ofNat_of_lt' (by simp only [UInt32.size]; omega),
      Int.toNat_of_nonneg hlo]
  asInt_exact v h := by
    obtain ⟨n,hn,hlo,hhi⟩ := inRange_cases h
    rw [convert,hn,Option.getD_some,Int32.toInt_ofInt_of_le (by omega) (by omega)]
  asInt64_exact v h := by
    obtain ⟨n,hn,hlo,hhi⟩ := inRange_cases h
    rw [convert,hn,Option.getD_some,Int64.toInt_ofInt_of_le (by omega) (by omega)]
  asUInt64_exact v h := by
    obtain ⟨n,hn,hlo,hhi⟩ := inRange_cases h
    rw [convert,hn,Option.getD_some,UInt64.toNat_ofNat_of_lt' (by simp only [UInt64.size]; omega),
      Int.toNat_of_nonneg hlo]

/-- The C string in front of the first NUL. -/
def cString (s : List UInt8) : List UInt8 := s.takeWhile (· ≠ 0)

/-- Pads with NULs. -/
def strncpy (dst : ℕ → UInt8) (src : List UInt8) (n : ℕ) : ℕ → UInt8 := fun i =>
  if i < n then (cString src).getD i 0 else dst i

abbrev Wchar := UInt32

/-- The multibyte conversion of the locale: the wide characters in front of the first invalid
sequence, and whether there is none. -/
structure Conversion where
  wide : List UInt8 → List Wchar
  valid : List UInt8 → Bool
  nonzero : ∀ s, 0 ∉ wide s

/-- The locale whose characters are ASCII. -/
def asciiConversion : Conversion where
  wide s := (s.takeWhile fun c => 0 < c ∧ c < 0x80).map fun c => c.toUInt32
  valid s := s.all fun c => c < 0x80
  nonzero s h := by
    obtain ⟨c,hc,hzero⟩ := List.mem_map.mp h
    have hrange := List.mem_takeWhile_imp hc
    have hpos : 0 < c := (of_decide_eq_true hrange).1
    rw [← UInt32.toNat_inj,UInt8.toNat_toUInt32] at hzero
    rw [UInt8.lt_iff_toNat_lt,hzero] at hpos
    exact lt_irrefl _ hpos

def mbstowcs (conv : Conversion) (dst : ℕ → Wchar) (src : List UInt8) (n : ℕ) : ℕ → Wchar := fun i =>
  let wide := conv.wide (cString src)
  if i < n then
    if i = wide.length ∧ conv.valid (cString src) then 0 else wide.getD i (dst i)
  else dst i

section

variable (lib : Jsoncpp)

/-- The frame of all overloads. -/
def getField {δ : Type} (read : Value → δ → Bool × δ) (json : Value) (name : List UInt8)
    (result : δ) : Bool × δ :=
  match lib.find json (cString name) with
  | some value => read value result
  | none => (false,result)

def readInteger {α : Type} (test : Value → Bool) (convert : Value → α) (value : Value)
    (result : α) : Bool × α :=
  if test value then (true,convert value) else (false,result)

def getFieldUint16 : Value → List UInt8 → UInt16 → Bool × UInt16 :=
  getField lib (readInteger lib.isUInt fun value => (lib.asUInt value).toUInt16)

def getFieldUint32 : Value → List UInt8 → UInt32 → Bool × UInt32 :=
  getField lib (readInteger lib.isUInt lib.asUInt)

def getFieldInt32 : Value → List UInt8 → Int32 → Bool × Int32 :=
  getField lib (readInteger lib.isInt lib.asInt)

def getFieldInt64 : Value → List UInt8 → Int64 → Bool × Int64 :=
  getField lib (readInteger lib.isInt64 lib.asInt64)

def getFieldUint64 : Value → List UInt8 → UInt64 → Bool × UInt64 :=
  getField lib (readInteger lib.isUInt64 lib.asUInt64)

def readChars (size : ℕ) : Value → (ℕ → UInt8) → Bool × (ℕ → UInt8)
  | .stringValue s, result => (true,strncpy result s size)
  | _, result => (false,result)

def getFieldChars (size : ℕ) : Value → List UInt8 → (ℕ → UInt8) → Bool × (ℕ → UInt8) :=
  getField lib (readChars size)

def readString : Value → List UInt8 → Bool × List UInt8
  | .stringValue s, _ => (true,s)
  | _, result => (false,result)

def getFieldString : Value → List UInt8 → List UInt8 → Bool × List UInt8 :=
  getField lib readString

/-- The result of `mbstowcs` is not looked at. -/
def readWchars (conv : Conversion) (size : ℕ) : Value → (ℕ → Wchar) → Bool × (ℕ → Wchar)
  | .stringValue s, result => (true,mbstowcs conv result s size)
  | _, result => (false,result)

def getFieldWchars (conv : Conversion) (size : ℕ) :
    Value → List UInt8 → (ℕ → Wchar) → Bool × (ℕ → Wchar) :=
  getField lib (readWchars conv size)

/-- The loop over the elements, from `ix` on. -/
def storeElements : List Value → ℕ → (ℕ → UInt32) → Bool × (ℕ → UInt32)
  | [], _, result => (true,result)
  | v::vs, ix, result =>
    if lib.isUInt v then storeElements vs (ix+1) (Function.update result ix (lib.asUInt v))
    else (false,result)

def readWords : Value → (ℕ → UInt32) → Bool × (ℕ → UInt32)
  | .arrayValue vs, result => storeElements lib vs 0 result
  | _, result => (false,result)

/-- `__size` is not looked at. -/
def getFieldWords (_size : ℕ) : Value → List UInt8 → (ℕ → UInt32) → Bool × (ℕ → UInt32) :=
  getField lib (readWords lib)

end

section

variable {lib : Jsoncpp} {δ : Type} {read : Value → δ → Bool × δ} {json : Object}
  {name : List UInt8}

theorem getField_found {value : Value} (h : (cString name,value) ∈ json.members) (result : δ) :
    getField lib read json.value name result = read value result := by
  rw [getField,(lib.find_iff json _ value).mpr h]

theorem getField_missing (h : ∀ value, (cString name,value) ∉ json.members) (result : δ) :
    getField lib read json.value name result = (false,result) := by
  cases hfind : lib.find json.value (cString name) with
  | none => rw [getField,hfind]
  | some value => exact absurd ((lib.find_iff json _ value).mp hfind) (h value)

/-- A property of the call is one of the field, if it is there; `P` holds where nothing is done. -/
theorem getField_iff {P : (δ → Bool × δ) → Prop} (hmissing : P fun result => (false,result)) :
    P (getField lib read json.value name) ↔
      ∀ value, (cString name,value) ∈ json.members → P (read value) := by
  by_cases h : ∃ value, (cString name,value) ∈ json.members
  · obtain ⟨value,hmem⟩ := h
    have hread : getField lib read json.value name = read value := funext (getField_found hmem)
    rw [hread]
    constructor
    · intro hP value' hmem'
      have hread' : getField lib read json.value name = read value' := funext (getField_found hmem')
      rwa [← hread',hread]
    · exact fun hP => hP value hmem
  · rw [not_exists] at h
    rw [show getField lib read json.value name = fun result => (false,result) from
      funext (getField_missing h)]
    exact iff_of_true hmissing fun value hmem => absurd hmem (h value)

end

/-- The leading elements that are stored. -/
def leading (lib : Jsoncpp) (vs : List Value) : List Value := vs.takeWhile lib.isUInt

theorem storeElements_result (lib : Jsoncpp) (vs : List Value) (ix : ℕ) (result : ℕ → UInt32) :
    (storeElements lib vs ix result).1 = vs.all lib.isUInt := by
  induction vs generalizing ix result with
  | nil => rfl
  | cons v vs ih =>
    rw [storeElements,List.all_cons]
    cases hv : lib.isUInt v
    · rfl
    · exact ih _ _

theorem storeElements_at (lib : Jsoncpp) (vs : List Value) (ix : ℕ) (result : ℕ → UInt32) (i : ℕ) :
    (storeElements lib vs ix result).2 i = if i < ix then result i else
      ((leading lib vs).map lib.asUInt).getD (i-ix) (result i) := by
  induction vs generalizing ix result with
  | nil => simp [storeElements,leading]
  | cons v vs ih =>
    rw [storeElements,leading,List.takeWhile_cons]
    cases hv : lib.isUInt v
    · simp
    · rw [if_pos rfl,if_pos rfl,ih,List.map_cons]
      rcases lt_trichotomy i ix with hlt | rfl | hgt
      · rw [if_pos (by omega),if_pos hlt,Function.update_of_ne hlt.ne]
      · rw [if_pos (by omega),if_neg (by omega),Function.update_self,Nat.sub_self,
          List.getD_cons_zero]
      · rw [if_neg (by omega),if_neg (by omega),Function.update_of_ne hgt.ne',
          show i-ix = (i-(ix+1))+1 by omega,List.getD_cons_succ]
        rfl

end JsonSerializer
end SdkCp
