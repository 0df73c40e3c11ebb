import SdkCp.Bytes
import Mathlib.Data.PNat.Basic

/-! `binary_serialization` of tools/binary_serializer.hpp: the overloads of
`amtsSerialize`, `amtsSize` and `amtsDeserialize` over a grammar of types. Values
are the bytes they occupy; `size` is the `uint32_t` both directions count down. -/
namespace SdkCp
namespace BinarySerializer

open Bytes

/-- The build and its environment: whether `SERIALIZER_COMPACT_STR_ARRAYS` is defined,
`sizeof(wchar_t)`, and which element counts `std::vector::resize` finds memory for. -/
structure Config where
  compact : Bool
  wcharSize : ℕ+
  canResize : ℕ → Bool

/-- POD of `sizeof` bytes, `std::basic_string` of characters of a width, `wchar_t[N]`,
and vectors of these. -/
inductive Ty
  | pod (sizeof : ℕ+)
  | str (width : ℕ+)
  | warr (n : ℕ+)
  | vec (t : Ty)

/-- An object of `n` bytes. -/
abbrev Chunk (n : ℕ) := {bs : List UInt8 // bs.length = n}

/-- The object with these bytes, cut or filled with zeros. -/
def Chunk.ofBytes (n : ℕ) (bs : List UInt8) : Chunk n :=
  ⟨bs.take n ++ List.replicate (n-bs.length) 0,by simp; omega⟩

/-- Consecutive objects as bytes, and back. -/
def flat {n : ℕ} (cs : List (Chunk n)) : List UInt8 := cs.flatMap (·.val)
def unflat (n : ℕ) : ℕ → List UInt8 → List (Chunk n)
  | 0, _ => []
  | k+1, bs => Chunk.ofBytes n bs::unflat n k (bs.drop n)

theorem unflat_length (n k : ℕ) (bs : List UInt8) : (unflat n k bs).length = k := by
  induction k generalizing bs with
  | zero => rfl
  | succ k ih => simp [unflat,ih]

variable (cfg : Config)

/-- The values of a type. -/
@[reducible] def Val : Ty → Type
  | .pod n => Chunk n
  | .str w => List (Chunk w)
  | .warr n => {cs : List (Chunk cfg.wcharSize) // cs.length = n}
  | .vec t => List (Val t)

/-- What `resize` fills a vector with. -/
def Val.default : (t : Ty) → Val cfg t
  | .pod n => Chunk.ofBytes n []
  | .str _ => []
  | .warr n => ⟨List.replicate n (Chunk.ofBytes cfg.wcharSize []),by simp⟩
  | .vec _ => []

/-- `resize` of a vector or string. -/
def resize {α : Type*} (xs : List α) (n : ℕ) (fill : α) : List α :=
  xs.take n ++ List.replicate (n-xs.length) fill

/-- `wcsnlen`: the characters before the first zero. -/
def wcsnlen {n : ℕ} (cs : List (Chunk n)) : ℕ :=
  (cs.takeWhile fun c => c ≠ Chunk.ofBytes n []).length

/-- The output: what was written and the room left. -/
structure Output where
  written : List UInt8
  size : ℕ
  deriving DecidableEq

/-- Copy bytes and advance; more than there is room for wrap the `uint32_t` counter. -/
def Output.put (out : Output) (bs : List UInt8) : Output :=
  ⟨out.written ++ bs,
    if bs.length ≤ out.size then out.size-bs.length else (out.size+(2^32-bs.length % 2^32)) % 2^32⟩

def amtsSize : (t : Ty) → Val cfg t → ℕ
  | .pod n, _ => n % 2^32
  | .str w, s => (8+s.length*w) % 2^32
  | .warr n, a => if cfg.compact then (4+wcsnlen a.val*cfg.wcharSize) % 2^32
      else n*cfg.wcharSize % 2^32
  | .vec t, xs => (8+(xs.map (amtsSize t)).sum) % 2^64 % 2^32

/-- `Core<__Type,1>::Serializer`, on an object of `n` bytes. -/
def serializePod (n : ℕ) (bs : List UInt8) (out : Output) : Bool × Output :=
  let typeSz := n % 2^32
  if out.size ≥ typeSz then (true,out.put (bs.take typeSz)) else (false,out)

/-- The loop of `__amtsSerialize` over the elements. -/
def serializeList {α : Type*} (f : α → Output → Bool × Output) : List α → Output → Bool × Output
  | [], out => (true,out)
  | x::xs, out =>
    match f x out with
    | (true,out) => serializeList f xs out
    | (false,out) => (false,out)

def amtsSerialize : (t : Ty) → Val cfg t → Output → Bool × Output
  | .pod n, v, out => serializePod n v.val out
  | .str w, s, out =>
    match serializePod 8 (leBytes 8 s.length) out with
    | (false,out) => (false,out)
    | (true,out) => if s.length*w > out.size then (false,out) else (true,out.put (flat s))
  | .warr n, a, out =>
    if out.size ≥ amtsSize cfg (.warr n) a then
      if cfg.compact then
        let count := wcsnlen a.val
        match serializePod 4 (leBytes 4 count) out with
        | (false,out) => (false,out)
        | (true,out) => (true,out.put ((flat a.val).take (count*cfg.wcharSize % 2^32)))
      else (true,out.put (flat a.val))
    else (false,out)
  | .vec t, xs, out =>
    if amtsSize cfg (.vec t) xs > out.size then (false,out)
    else
      match serializePod 8 (leBytes 8 xs.length) out with
      | (false,out) => (false,out)
      | (true,out) => serializeList (amtsSerialize t) xs out

/-- The input: the bytes left in the buffer and the counter. -/
structure Input where
  bytes : List UInt8
  size : ℕ

/-- What a call leaves: its result, the destination and the input, or an access outside
the buffer or the destination. -/
inductive Outcome (α : Type*)
  | ret (result : Bool) (dest : α) (inp : Input)
  | fault

/-- Read `n` bytes and advance; the counter is a `uint32_t`. -/
def Input.take (inp : Input) (n : ℕ) : Option (List UInt8 × Input) :=
  if n ≤ inp.bytes.length then
    some (inp.bytes.take n,⟨inp.bytes.drop n,(inp.size+(2^32-n % 2^32)) % 2^32⟩)
  else none

/-- `Core<__Type,1>::Deserializer`, on an object of `n` bytes. -/
def deserializePod (n : ℕ) (dest : List UInt8) (inp : Input) : Outcome (List UInt8) :=
  let typeSz := n % 2^32
  if inp.size ≥ typeSz then
    match inp.take typeSz with
    | none => .fault
    | some (bs,inp) => .ret true (bs ++ dest.drop typeSz) inp
  else .ret false dest inp

/-- The loop of `__amtsDeserialize` over the elements of the destination. -/
def deserializeList {α : Type*} (f : α → Input → Outcome α) : List α → Input → Outcome (List α)
  | [], inp => .ret true [] inp
  | x::xs, inp =>
    match f x inp with
    | .fault => .fault
    | .ret false x inp => .ret false (x::xs) inp
    | .ret true x inp =>
      match deserializeList f xs inp with
      | .fault => .fault
      | .ret b xs inp => .ret b (x::xs) inp

/-- `size < amtsSize(count) || !amtsDeserialize(count, buffer, size)`, else the count. -/
def deserializeCount (inp : Input) : Outcome ℕ :=
  if inp.size < 8 then .ret false 0 inp
  else
    match deserializePod 8 [] inp with
    | .fault => .fault
    | .ret b bs inp => .ret b (ofLE bs) inp

def amtsDeserialize : (t : Ty) → Val cfg t → Input → Outcome (Val cfg t)
  | .pod n, d, inp =>
    match deserializePod n d.val inp with
    | .fault => .fault
    | .ret b bs inp => .ret b (Chunk.ofBytes n bs) inp
  | .str w, d, inp =>
    match deserializeCount inp with
    | .fault => .fault
    | .ret false _ inp => .ret false d inp
    | .ret true count inp =>
      let sz := count*w % 2^64
      if inp.size < sz then .ret false d inp
      else if sz = 0 then .ret true d inp
      else if cfg.canResize count = false then .ret false d inp
      else
        match inp.take sz with
        | none => .fault
        | some (bs,inp) =>
          .ret true (unflat w count (bs ++ (flat (resize d count (Chunk.ofBytes w []))).drop sz)) inp
  | .warr n, d, inp =>
    if cfg.compact then
      match deserializePod 4 [] inp with
      | .fault => .fault
      | .ret false _ inp => .ret false d inp
      | .ret true bs inp =>
        let count := ofLE bs
        let sz := count*cfg.wcharSize % 2^32
        if count ≤ n then
          match inp.take sz with
          | none => .fault
          | some (bs,inp) =>
            -- `t[count] = 0` is past the end of the array for `count == __Sz`
            if count = n then .fault
            else
              .ret true ⟨(unflat cfg.wcharSize n (bs ++ (flat d.val).drop sz)).set count
                (Chunk.ofBytes cfg.wcharSize []),by simp [unflat_length]⟩ inp
        else .ret false d inp
    else if inp.size ≥ n then
      match inp.take (n*cfg.wcharSize) with
      | none => .fault
      | some (bs,inp) => .ret true ⟨unflat cfg.wcharSize n bs,unflat_length _ _ _⟩ inp
    else .ret false d inp
  | .vec t, d, inp =>
    match deserializeCount inp with
    | .fault => .fault
    | .ret false _ inp => .ret false d inp
    | .ret true count inp =>
      if cfg.canResize count = false then .ret false d inp
      else deserializeList (amtsDeserialize t) (resize d count (Val.default cfg t)) inp

end BinarySerializer
end SdkCp
