import SdkCp.JsonSerializer

/-! What `_get_field` leaves in the destination: the value of the field if it returns true,
what was there if it returns false. A type test may be wider than the type, and the elements of
an array are stored before all of them are tested. -/
namespace SdkCp
namespace JsonSerializer

open JsonWriter (Value)

/-- The overloads for integers, strings and arrays of 32-bit integers. -/
inductive Overload
  | uint16
  | uint32
  | int32
  | int64
  | uint64
  | string
  | words (size : ℕ)

abbrev Overload.Dest : Overload → Type
  | .uint16 => UInt16
  | .uint32 => UInt32
  | .int32 => Int32
  | .int64 => Int64
  | .uint64 => UInt64
  | .string => List UInt8
  | .words _ => ℕ → UInt32

/-- What an overload does with the value of the field. -/
def Overload.read (lib : Jsoncpp) : (o : Overload) → Value → o.Dest → Bool × o.Dest
  | .uint16 => readInteger lib.isUInt fun value => (lib.asUInt value).toUInt16
  | .uint32 => readInteger lib.isUInt lib.asUInt
  | .int32 => readInteger lib.isInt lib.asInt
  | .int64 => readInteger lib.isInt64 lib.asInt64
  | .uint64 => readInteger lib.isUInt64 lib.asUInt64
  | .string => readString
  | .words _ => readWords lib

def Overload.getField (lib : Jsoncpp) :
    (o : Overload) → Value → List UInt8 → o.Dest → Bool × o.Dest
  | .uint16 => getFieldUint16 lib
  | .uint32 => getFieldUint32 lib
  | .int32 => getFieldInt32 lib
  | .int64 => getFieldInt64 lib
  | .uint64 => getFieldUint64 lib
  | .string => getFieldString lib
  | .words size => getFieldWords lib size

theorem Overload.getField_eq (lib : Jsoncpp) (o : Overload) :
    o.getField lib = JsonSerializer.getField lib (o.read lib) := by
  cases o <;> rfl

/-- The destination represents the value. An array that is longer than the destination is not
asked for. -/
def Overload.Represents : (o : Overload) → Value → o.Dest → Prop
  | .uint16, value, result => integer value = some (result.toNat : ℤ)
  | .uint32, value, result => integer value = some (result.toNat : ℤ)
  | .int32, value, result => integer value = some result.toInt
  | .int64, value, result => integer value = some result.toInt
  | .uint64, value, result => integer value = some (result.toNat : ℤ)
  | .string, value, result => value = .stringValue result
  | .words size, value, result => ∃ vs, value = .arrayValue vs ∧ (vs.length ≤ size →
    ∀ i v, vs[i]? = some v → integer v = some ((result i).toNat : ℤ))

/-- The destinations are the same; behind the end of an array nothing is compared. -/
def Overload.Same : (o : Overload) → o.Dest → o.Dest → Prop
  | .words size, result, result' => ∀ i < size, result' i = result i
  | _, result, result' => result' = result

/-- The outcome of an overload on a value. -/
structure Overload.Outcome (o : Overload) (value : Value) (result : o.Dest) (r : Bool × o.Dest) :
    Prop where
  represents : r.1 = true → o.Represents value r.2
  unchanged : r.1 = false → o.Same result r.2

/-- Exact on true and unchanged on false. -/
structure Overload.Exact (lib : Jsoncpp) (o : Overload) (json : Object) (name : List UInt8)
    (result : o.Dest) : Prop where
  represents : (o.getField lib json.value name result).1 = true → ∃ value,
    (cString name,value) ∈ json.members ∧
      o.Represents value (o.getField lib json.value name result).2
  unchanged : (o.getField lib json.value name result).1 = false →
    o.Same result (o.getField lib json.value name result).2

/-- The values that come out right: below 2^16 for 16 bits; an array that is refused begins with
what the destination already holds. -/
def Overload.Suits (lib : Jsoncpp) : (o : Overload) → o.Dest → Value → Prop
  | .uint16, _, value => lib.isUInt value = true → ∃ n : ℕ, n < 2^16 ∧ integer value = some (n : ℤ)
  | .words size, result, .arrayValue vs => vs.all lib.isUInt = false →
    ∀ i < size, ∀ v, (leading lib vs)[i]? = some v → integer v = some ((result i).toNat : ℤ)
  | _, _, _ => True

theorem Object.unique {json : Object} {name : List UInt8} {value value' : Value}
    (h : (name,value) ∈ json.members) (h' : (name,value') ∈ json.members) : value = value' :=
  (Prod.mk.inj (List.inj_on_of_nodup_map json.nodup h h' rfl)).2

theorem exact_found {lib : Jsoncpp} {o : Overload} {json : Object} {name : List UInt8}
    {result : o.Dest} {value : Value} (h : (cString name,value) ∈ json.members) :
    o.Exact lib json name result ↔ o.Outcome value result (o.read lib value result) := by
  have hread : o.getField lib json.value name result = o.read lib value result := by
    rw [Overload.getField_eq,getField_found h]
  constructor
  · rintro ⟨htrue,hfalse⟩
    rw [hread] at htrue hfalse
    refine ⟨fun hr => ?_,hfalse⟩
    obtain ⟨value',hmem,hrep⟩ := htrue hr
    rwa [Object.unique hmem h] at hrep
  · rintro ⟨htrue,hfalse⟩
    refine ⟨?_,?_⟩ <;> rw [hread]
    · exact fun hr => ⟨value,h,htrue hr⟩
    · exact hfalse

theorem Overload.same_refl (o : Overload) (result : o.Dest) : o.Same result result := by
  cases o with
  | words size => exact fun _ _ => rfl
  | _ => rfl

theorem Overload.outcome_false {o : Overload} {value : Value} {result : o.Dest} :
    o.Outcome value result (false,result) :=
  ⟨fun h => Bool.noConfusion h,fun _ => o.same_refl result⟩

theorem outcome_true_iff {o : Overload} {value : Value} {result result' : o.Dest} :
    o.Outcome value result (true,result') ↔ o.Represents value result' :=
  ⟨fun h => h.represents rfl,fun h => ⟨fun _ => h,fun h => Bool.noConfusion h⟩⟩

theorem outcome_integer {o : Overload} {test : Value → Bool} {convert : Value → o.Dest}
    (hexact : ∀ value, test value = true → o.Represents value (convert value)) (value : Value)
    (result : o.Dest) : o.Outcome value result (readInteger test convert value result) := by
  rw [readInteger]
  split
  · exact outcome_true_iff.mpr (hexact value ‹_›)
  · exact Overload.outcome_false

theorem outcome_uint16_iff (lib : Jsoncpp) (value : Value) (result : UInt16) :
    Overload.uint16.Outcome value result (Overload.uint16.read lib value result) ↔
      Overload.uint16.Suits lib result value := by
  simp only [Overload.read,readInteger,Overload.Suits]
  cases hv : lib.isUInt value
  · exact iff_of_true Overload.outcome_false (fun h => Bool.noConfusion h)
  · have hval := lib.asUInt_exact value hv
    have hlow : (lib.asUInt value).toUInt16.toNat = (lib.asUInt value).toNat % 2^16 :=
      UInt32.toNat_toUInt16 _
    rw [if_pos rfl,outcome_true_iff,Overload.Represents,hval,hlow,Option.some_inj]
    constructor
    · intro h _
      exact ⟨_,by omega,rfl⟩
    · intro h
      obtain ⟨n,hn,heq⟩ := h rfl
      rw [Option.some_inj] at heq
      omega

theorem outcome_string (value : Value) (result : List UInt8) :
    Overload.string.Outcome value result (readString value result) := by
  cases value with
  | stringValue s => exact outcome_true_iff.mpr rfl
  | _ => exact Overload.outcome_false

theorem storeElements_leading {lib : Jsoncpp} {vs : List Value} {i : ℕ} {v : Value}
    (h : (leading lib vs)[i]? = some v) (result : ℕ → UInt32) :
    integer v = some (((storeElements lib vs 0 result).2 i).toNat : ℤ) := by
  have hv : lib.isUInt v = true := List.mem_takeWhile_imp (List.mem_of_getElem? h)
  rw [storeElements_at,if_neg (by omega),Nat.sub_zero,List.getD_eq_getElem?_getD,List.getElem?_map,h]
  exact lib.asUInt_exact v hv

theorem storeElements_behind {lib : Jsoncpp} {vs : List Value} {i : ℕ}
    (h : (leading lib vs)[i]? = none) (result : ℕ → UInt32) :
    (storeElements lib vs 0 result).2 i = result i := by
  rw [storeElements_at,if_neg (by omega),Nat.sub_zero,List.getD_eq_getElem?_getD,List.getElem?_map,h]
  rfl

theorem leading_all {lib : Jsoncpp} {vs : List Value} (h : vs.all lib.isUInt = true) :
    leading lib vs = vs := List.takeWhile_eq_self_iff.mpr (List.all_eq_true.mp h)

theorem outcome_words_iff (lib : Jsoncpp) (size : ℕ) (vs : List Value) (result : ℕ → UInt32) :
    (Overload.words size).Outcome (.arrayValue vs) result (storeElements lib vs 0 result) ↔
      (Overload.words size).Suits lib result (.arrayValue vs) := by
  simp only [Overload.Suits]
  have hresult := storeElements_result lib vs 0 result
  cases hall : vs.all lib.isUInt
  · rw [hall] at hresult
    constructor
    · intro h _ i hi v hv
      rw [← h.unchanged hresult i hi]
      exact storeElements_leading hv result
    · intro h
      refine ⟨fun htrue => absurd (hresult.symm.trans htrue) (by decide),fun _ i hi => ?_⟩
      cases hv : (leading lib vs)[i]? with
      | none => exact storeElements_behind hv result
      | some v =>
        have heq := (storeElements_leading hv result).symm.trans (h rfl i hi v hv)
        exact UInt32.toNat_inj.mp (Int.ofNat.inj (Option.some.inj heq))
  · rw [hall] at hresult
    refine iff_of_true ⟨fun _ => ?_,fun hfalse => ?_⟩ (fun h => Bool.noConfusion h)
    · refine ⟨vs,rfl,fun _ i v hv => storeElements_leading ?_ result⟩
      rwa [leading_all hall]
    · exact absurd (hresult.symm.trans hfalse) (by decide)

theorem outcome_iff (lib : Jsoncpp) (o : Overload) (value : Value) (result : o.Dest) :
    o.Outcome value result (o.read lib value result) ↔ o.Suits lib result value := by
  cases o with
  | uint16 => exact outcome_uint16_iff lib value result
  | uint32 => exact iff_of_true (outcome_integer lib.asUInt_exact value result) trivial
  | int32 => exact iff_of_true (outcome_integer lib.asInt_exact value result) trivial
  | int64 => exact iff_of_true (outcome_integer lib.asInt64_exact value result) trivial
  | uint64 => exact iff_of_true (outcome_integer lib.asUInt64_exact value result) trivial
  | string => exact iff_of_true (outcome_string value result) trivial
  | words size =>
    cases value with
    | arrayValue vs => exact outcome_words_iff lib size vs result
    | _ => exact iff_of_true Overload.outcome_false trivial

/-- `_get_field` is exact and atomic exactly if the field suits the destination. -/
theorem exact_iff (lib : Jsoncpp) (o : Overload) (json : Object) (name : List UInt8)
    (result : o.Dest) : o.Exact lib json name result ↔
      ∀ value, (cString name,value) ∈ json.members → o.Suits lib result value := by
  by_cases h : ∃ value, (cString name,value) ∈ json.members
  · obtain ⟨value,hmem⟩ := h
    rw [exact_found hmem,outcome_iff]
    exact ⟨fun hsuits value' hmem' => Object.unique hmem hmem' ▸ hsuits,fun h => h value hmem⟩
  · have hmiss : o.getField lib json.value name result = (false,result) := by
      rw [Overload.getField_eq,getField_missing (not_exists.mp h)]
    refine iff_of_true ⟨?_,?_⟩ fun value hmem => absurd ⟨value,hmem⟩ h
    all_goals rw [hmiss]
    · exact fun htrue => Bool.noConfusion htrue
    · exact fun _ => o.same_refl result

/-- 65536 read into 16 bits. -/
theorem not_exact_uint16 : ¬∀ lib (o : Overload) json name result, o.Exact lib json name result := by
  intro h
  have hexact := h rangeJsoncpp .uint16 ⟨[([102],.uintValue 65536)],List.nodup_singleton _⟩ [102] 0
  rw [exact_found (List.mem_singleton.mpr rfl),outcome_uint16_iff] at hexact
  obtain ⟨n,hn,heq⟩ := hexact (by decide)
  rw [integer,Option.some_inj] at heq
  omega

end JsonSerializer
end SdkCp
