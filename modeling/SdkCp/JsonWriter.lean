import Mathlib.Tactic
import Mathlib.Data.Nat.Digits.Defs

/-! tools/json_writer.hpp and the `str_conv` overloads of tools/string_converter.hpp that
it calls. Texts are bytes; a function that appends to `out_str` returns what it appends. -/
namespace SdkCp
namespace JsonWriter

/-- A finite `double`: its sign and its exact magnitude. -/
structure Double where
  negative : Bool
  magnitude : ℚ

/-- `Json::Value`. Strings are their bytes and the members of an object stand in the order
of `getMemberNames`, each with the value `value[name]`. -/
inductive Value
  | nullValue
  | intValue (n : ℤ)
  | uintValue (n : ℕ)
  | realValue (x : Double)
  | stringValue (s : List UInt8)
  | booleanValue (b : Bool)
  | arrayValue (vs : List Value)
  | objectValue (members : List (List UInt8 × Value))

/-- A string literal of the source. -/
def ascii (s : String) : List UInt8 := s.toList.map fun c => UInt8.ofNat c.toNat

/-! string_converter.hpp -/

/-- `%llu`. -/
def decimal (n : ℕ) : List UInt8 :=
  if n = 0 then [48] else (Nat.digits 10 n).reverse.map fun d => UInt8.ofNat (48+d)

def strConvBool (b : Bool) : List UInt8 := if b then ascii "true" else ascii "false"

def strConvInt (n : ℤ) : List UInt8 := (if n < 0 then ascii "-" else []) ++ decimal n.natAbs

def strConvUint (n : ℕ) : List UInt8 := decimal n

/-- The nearest integer, the even one of two that are equally near. -/
def roundHalfEven (q : ℚ) : ℕ :=
  let n := q.floor.toNat
  if q-n < 1/2 then n
  else if 1/2 < q-n then n+1
  else if n % 2 = 0 then n
  else n+1

/-- `%.8f`. -/
def strConvDouble (x : Double) : List UInt8 :=
  let n := roundHalfEven (x.magnitude*10^8)
  let frac := decimal (n % 10^8)
  (if x.negative then ascii "-" else []) ++ decimal (n/10^8) ++ ascii "." ++
    List.replicate (8-frac.length) 48 ++ frac

/-! json_writer.hpp -/

def hex2 : List UInt8 :=
  ascii "000102030405060708090a0b0c0d0e0f" ++ ascii "101112131415161718191a1b1c1d1e1f" ++
  ascii "202122232425262728292a2b2c2d2e2f" ++ ascii "303132333435363738393a3b3c3d3e3f" ++
  ascii "404142434445464748494a4b4c4d4e4f" ++ ascii "505152535455565758595a5b5c5d5e5f" ++
  ascii "606162636465666768696a6b6c6d6e6f" ++ ascii "707172737475767778797a7b7c7d7e7f" ++
  ascii "808182838485868788898a8b8c8d8e8f" ++ ascii "909192939495969798999a9b9c9d9e9f" ++
  ascii "a0a1a2a3a4a5a6a7a8a9aaabacadaeaf" ++ ascii "b0b1b2b3b4b5b6b7b8b9babbbcbdbebf" ++
  ascii "c0c1c2c3c4c5c6c7c8c9cacbcccdcecf" ++ ascii "d0d1d2d3d4d5d6d7d8d9dadbdcdddedf" ++
  ascii "e0e1e2e3e4e5e6e7e8e9eaebecedeeef" ++ ascii "f0f1f2f3f4f5f6f7f8f9fafbfcfdfeff"

def toHex16Bit (x : ℕ) : List UInt8 :=
  let hi := (x >>> 8) &&& 0xff
  let lo := x &&& 0xff
  [hex2.getD (2*hi) 0,hex2.getD (2*hi+1) 0,hex2.getD (2*lo) 0,hex2.getD (2*lo+1) 0]

abbrev REPLACEMENT_CHARACTER : ℕ := 0xFFFD

/-- `utf8ToCodepoint` at the byte `b` with `s` behind it: the code point and how many bytes
of `s` the pointer moves over. -/
def utf8ToCodepoint (b : UInt8) (s : List UInt8) : ℕ × ℕ :=
  let firstByte := b.toNat
  let low6 (i : ℕ) := (s.getD i 0).toNat &&& 0x3F
  if firstByte < 0x80 then (firstByte,0)
  else if firstByte < 0xE0 then
    if s.length+1 < 2 then (REPLACEMENT_CHARACTER,0)
    else
      let calculated := ((firstByte &&& 0x1F) <<< 6) ||| low6 0
      (if calculated < 0x80 then REPLACEMENT_CHARACTER else calculated,1)
  else if firstByte < 0xF0 then
    if s.length+1 < 3 then (REPLACEMENT_CHARACTER,0)
    else
      let calculated := ((firstByte &&& 0x0F) <<< 12) ||| (low6 0 <<< 6) ||| low6 1
      if 0xD800 ≤ calculated ∧ calculated ≤ 0xDFFF then (REPLACEMENT_CHARACTER,2)
      else (if calculated < 0x800 then REPLACEMENT_CHARACTER else calculated,2)
  else if firstByte < 0xF8 then
    if s.length+1 < 4 then (REPLACEMENT_CHARACTER,0)
    else
      let calculated := ((firstByte &&& 0x07) <<< 18) ||| (low6 0 <<< 12) ||| (low6 1 <<< 6) ||| low6 2
      (if calculated < 0x10000 then REPLACEMENT_CHARACTER else calculated,3)
  else (REPLACEMENT_CHARACTER,0)

/-- The cases of the `switch` but `default`. -/
def shortEscape (b : UInt8) : Option (List UInt8) :=
  if b = 34 then some (ascii "\\\"")
  else if b = 92 then some (ascii "\\\\")
  else if b = 8 then some (ascii "\\b")
  else if b = 12 then some (ascii "\\f")
  else if b = 10 then some (ascii "\\n")
  else if b = 13 then some (ascii "\\r")
  else if b = 9 then some (ascii "\\t")
  else none

/-- What `default` appends for a code point. -/
def escapeCodepoint (cp : ℕ) : List UInt8 :=
  if cp < 0x80 ∧ cp ≥ 0x20 then [UInt8.ofNat cp]
  else if cp < 0x10000 then ascii "\\u" ++ toHex16Bit cp
  else
    let cp := cp-0x10000
    ascii "\\u" ++ toHex16Bit ((cp >>> 10)+0xD800) ++
      (ascii "\\u" ++ toHex16Bit ((cp &&& 0x3FF)+0xDC00))

/-- The loop over the bytes, with `k` of them still to pass over. -/
def quoteLoop : ℕ → List UInt8 → List UInt8
  | _, [] => []
  | k+1, _::s => quoteLoop k s
  | 0, b::s =>
    match shortEscape b with
    | some esc => esc ++ quoteLoop 0 s
    | none =>
      let (cp,k) := utf8ToCodepoint b s
      escapeCodepoint cp ++ quoteLoop k s

def value2QuotedStr (value : List UInt8) (length : ℕ) : List UInt8 :=
  ascii "\"" ++ (quoteLoop 0 (value.take length) ++ ascii "\"")

mutual

/-- `_write_value`. String lengths are converted to 32 bits. -/
def writeValue : Value → List UInt8
  | .nullValue => ascii "null"
  | .intValue n => strConvInt n
  | .uintValue n => strConvUint n
  | .realValue x => strConvDouble x
  | .stringValue s => value2QuotedStr s (s.length % 2^32)
  | .booleanValue b => strConvBool b
  | .arrayValue vs => ascii "[" ++ (writeElements vs ++ ascii "]")
  | .objectValue members => ascii "\x7b" ++ (writeMembers members ++ ascii "\x7d")

def writeElements : List Value → List UInt8
  | [] => []
  | [v] => writeValue v
  | v::vs => writeValue v ++ (ascii "," ++ writeElements vs)

def writeMembers : List (List UInt8 × Value) → List UInt8
  | [] => []
  | [(name,v)] => value2QuotedStr name (name.length % 2^32) ++ (ascii ":" ++ writeValue v)
  | (name,v)::members => value2QuotedStr name (name.length % 2^32) ++ (ascii ":" ++
      (writeValue v ++ (ascii "," ++ writeMembers members)))

end

/-- `write`, with `__append_endl`. -/
def write (appendEndl : Bool) (root : Value) (out : List UInt8) : List UInt8 :=
  out ++ (writeValue root ++ if appendEndl then ascii "\n" else [])

end JsonWriter
end SdkCp
