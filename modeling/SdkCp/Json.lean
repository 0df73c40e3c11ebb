import Mathlib.Tactic

/-! JSON texts: the grammar of RFC 8259 with the value that each text stands for, and a
parser. -/
namespace SdkCp

/-- JSON values. Numbers are rational and strings are lists of characters. -/
inductive Json
  | null
  | bool (b : Bool)
  | number (q : ℚ)
  | string (s : List Char)
  | array (js : List Json)
  | object (members : List (List Char × Json))

namespace Json

def isWs (c : Char) : Bool := c = ' ' || c = '\t' || c = '\n' || c = '\r'

def Ws (t : List Char) : Prop := ∀ c ∈ t, isWs c = true

def hexVal (c : Char) : Option ℕ :=
  if 48 ≤ c.toNat ∧ c.toNat ≤ 57 then some (c.toNat-48)
  else if 97 ≤ c.toNat ∧ c.toNat ≤ 102 then some (c.toNat-87)
  else if 65 ≤ c.toNat ∧ c.toNat ≤ 70 then some (c.toNat-55)
  else none

/-- The number of four hexadecimal digits. -/
def hex4 (a b c d : Char) : Option ℕ :=
  (hexVal a).bind fun a => (hexVal b).bind fun b => (hexVal c).bind fun c => (hexVal d).bind fun d =>
    some (((a*16+b)*16+c)*16+d)

/-- The characters that a single letter escapes. -/
def shortEscape (c : Char) : Option Char :=
  if c = '"' then some '"'
  else if c = '\\' then some '\\'
  else if c = '/' then some '/'
  else if c = 'b' then some (Char.ofNat 8)
  else if c = 'f' then some (Char.ofNat 12)
  else if c = 'n' then some '\n'
  else if c = 'r' then some '\r'
  else if c = 't' then some '\t'
  else none

abbrev IsHigh (n : ℕ) : Prop := 0xD800 ≤ n ∧ n ≤ 0xDBFF

abbrev IsLow (n : ℕ) : Prop := 0xDC00 ≤ n ∧ n ≤ 0xDFFF

/-- The character of a surrogate pair. -/
def pairChar (hi lo : ℕ) : Char := Char.ofNat (0x10000+(hi-0xD800)*0x400+(lo-0xDC00))

/-- The text of one character of a string. An unpaired surrogate stands for nothing. -/
inductive CharText : List Char → Char → Prop
  | unescaped {c : Char} : 0x20 ≤ c.toNat → c ≠ '"' → c ≠ '\\' → CharText [c] c
  | short {e c : Char} : shortEscape e = some c → CharText ['\\',e] c
  | unicode {a b c d : Char} {n : ℕ} : hex4 a b c d = some n → ¬IsHigh n → ¬IsLow n →
    CharText ['\\','u',a,b,c,d] (Char.ofNat n)
  | pair {a b c d a' b' c' d' : Char} {hi lo : ℕ} : hex4 a b c d = some hi → IsHigh hi →
    hex4 a' b' c' d' = some lo → IsLow lo →
    CharText ['\\','u',a,b,c,d,'\\','u',a',b',c',d'] (pairChar hi lo)

inductive CharsText : List Char → List Char → Prop
  | nil : CharsText [] []
  | cons {t ts : List Char} {c : Char} {cs : List Char} : CharText t c → CharsText ts cs →
    CharsText (t ++ ts) (c::cs)

inductive StringText : List Char → List Char → Prop
  | quoted {t s : List Char} : CharsText t s → StringText ('"'::(t ++ ['"'])) s

def digitsVal (ds : List Char) : ℕ := ds.foldl (fun n c => 10*n+(c.toNat-48)) 0

def Digits (ds : List Char) : Prop := ds ≠ [] ∧ ∀ c ∈ ds, c.isDigit = true

inductive IntText : List Char → ℕ → Prop
  | zero : IntText ['0'] 0
  | pos {d : Char} {ds : List Char} : d ≠ '0' → Digits (d::ds) → IntText (d::ds) (digitsVal (d::ds))

inductive FracText : List Char → ℚ → Prop
  | none : FracText [] 0
  | some {ds : List Char} : Digits ds → FracText ('.'::ds) (digitsVal ds/10^ds.length)

inductive ExpText : List Char → ℤ → Prop
  | none : ExpText [] 0
  | unsigned {e : Char} {ds : List Char} : e = 'e' ∨ e = 'E' → Digits ds →
    ExpText (e::ds) (digitsVal ds)
  | plus {e : Char} {ds : List Char} : e = 'e' ∨ e = 'E' → Digits ds →
    ExpText (e:: '+'::ds) (digitsVal ds)
  | minus {e : Char} {ds : List Char} : e = 'e' ∨ e = 'E' → Digits ds →
    ExpText (e:: '-'::ds) (-digitsVal ds)

inductive UnsignedText : List Char → ℚ → Prop
  | mk {t t' t'' : List Char} {n : ℕ} {q : ℚ} {x : ℤ} : IntText t n → FracText t' q →
    ExpText t'' x → UnsignedText (t ++ (t' ++ t'')) ((n+q)*10^x)

inductive NumberText : List Char → ℚ → Prop
  | pos {t : List Char} {q : ℚ} : UnsignedText t q → NumberText t q
  | neg {t : List Char} {q : ℚ} : UnsignedText t q → NumberText ('-'::t) (-q)

mutual

inductive ValueText : List Char → Json → Prop
  | null : ValueText ['n','u','l','l'] .null
  | true : ValueText ['t','r','u','e'] (.bool true)
  | false : ValueText ['f','a','l','s','e'] (.bool false)
  | number {t : List Char} {q : ℚ} : NumberText t q → ValueText t (.number q)
  | string {t s : List Char} : StringText t s → ValueText t (.string s)
  | emptyArray {w : List Char} : Ws w → ValueText ('['::(w ++ [']'])) (.array [])
  | array {t : List Char} {js : List Json} : ElementsText t js →
    ValueText ('['::(t ++ [']'])) (.array js)
  | emptyObject {w : List Char} : Ws w → ValueText ('{'::(w ++ ['}'])) (.object [])
  | object {t : List Char} {members : List (List Char × Json)} : MembersText t members →
    ValueText ('{'::(t ++ ['}'])) (.object members)

/-- Values with commas between and whitespace around them. -/
inductive ElementsText : List Char → List Json → Prop
  | one {w t w' : List Char} {j : Json} : Ws w → ValueText t j → Ws w' →
    ElementsText (w ++ (t ++ w')) [j]
  | cons {w t w' ts : List Char} {j : Json} {js : List Json} : Ws w → ValueText t j → Ws w' →
    ElementsText ts js → ElementsText (w ++ (t ++ (w' ++ ','::ts))) (j::js)

/-- Members with commas between and whitespace around them. -/
inductive MembersText : List Char → List (List Char × Json) → Prop
  | one {w k w₁ w₂ t w' name : List Char} {j : Json} : Ws w → StringText k name → Ws w₁ → Ws w₂ →
    ValueText t j → Ws w' → MembersText (w ++ (k ++ (w₁ ++ ':'::(w₂ ++ (t ++ w'))))) [(name,j)]
  | cons {w k w₁ w₂ t w' ts name : List Char} {j : Json} {members : List (List Char × Json)} :
    Ws w → StringText k name → Ws w₁ → Ws w₂ → ValueText t j → Ws w' → MembersText ts members →
    MembersText (w ++ (k ++ (w₁ ++ ':'::(w₂ ++ (t ++ (w' ++ ','::ts)))))) ((name,j)::members)

end

/-- A JSON text: a value with whitespace around it. -/
inductive Text : List Char → Json → Prop
  | mk {w t w' : List Char} {j : Json} : Ws w → ValueText t j → Ws w' → Text (w ++ (t ++ w')) j

def skipWs (s : List Char) : List Char := s.dropWhile isWs

def parseUnicode : List Char → Option (Char × List Char)
  | a::b::c::d::s => (hex4 a b c d).bind fun n =>
    if IsHigh n then
      match s with
      | '\\':: 'u'::a'::b'::c'::d'::s => (hex4 a' b' c' d').bind fun lo =>
        if IsLow lo then some (pairChar n lo,s) else none
      | _ => none
    else if IsLow n then none
    else some (Char.ofNat n,s)
  | _ => none

def parseEscape : List Char → Option (Char × List Char)
  | 'u'::s => parseUnicode s
  | e::s => (shortEscape e).map fun c => (c,s)
  | [] => none

def parseChar : List Char → Option (Char × List Char)
  | '\\'::s => parseEscape s
  | c::s => if 0x20 ≤ c.toNat ∧ c ≠ '"' then some (c,s) else none
  | [] => none

/-- The characters up to the closing quotation mark. -/
def parseChars : ℕ → List Char → Option (List Char × List Char)
  | 0, _ => none
  | n+1, s =>
    match s with
    | '"'::s => some ([],s)
    | s => (parseChar s).bind fun (c,s) => (parseChars n s).map fun (cs,s) => (c::cs,s)

def parseDigits (s : List Char) : Option (List Char × List Char) :=
  if s.takeWhile Char.isDigit = [] then none
  else some (s.takeWhile Char.isDigit,s.dropWhile Char.isDigit)

def parseInt : List Char → Option (ℕ × List Char)
  | '0'::s => some (0,s)
  | s => (parseDigits s).map fun (ds,s) => (digitsVal ds,s)

def parseFrac : List Char → Option (ℚ × List Char)
  | '.'::s => (parseDigits s).map fun (ds,s) => (digitsVal ds/10^ds.length,s)
  | s => some (0,s)

def parseExpDigits : List Char → Option (ℤ × List Char)
  | '+'::s => (parseDigits s).map fun (ds,s) => (digitsVal ds,s)
  | '-'::s => (parseDigits s).map fun (ds,s) => (-digitsVal ds,s)
  | s => (parseDigits s).map fun (ds,s) => (digitsVal ds,s)

def parseExp : List Char → Option (ℤ × List Char)
  | e::s => if e = 'e' ∨ e = 'E' then parseExpDigits s else some (0,e::s)
  | [] => some (0,[])

def parseUnsigned (s : List Char) : Option (ℚ × List Char) :=
  (parseInt s).bind fun (n,s) => (parseFrac s).bind fun (q,s) => (parseExp s).map fun (x,s) =>
    ((n+q)*10^x,s)

def parseNumber : List Char → Option (ℚ × List Char)
  | '-'::s => (parseUnsigned s).map fun (q,s) => (-q,s)
  | s => parseUnsigned s

mutual

/-- `n` bounds the nesting and the number of elements. -/
def parseValue : ℕ → List Char → Option (Json × List Char)
  | 0, _ => none
  | n+1, s =>
    match s with
    | 'n':: 'u':: 'l':: 'l'::s => some (.null,s)
    | 't':: 'r':: 'u':: 'e'::s => some (.bool true,s)
    | 'f':: 'a':: 'l':: 's':: 'e'::s => some (.bool false,s)
    | '"'::s => (parseChars (s.length+1) s).map fun (cs,s) => (.string cs,s)
    | '['::s =>
      match skipWs s with
      | ']'::s => some (.array [],s)
      | s => (parseElements n s).map fun (js,s) => (.array js,s)
    | '{'::s =>
      match skipWs s with
      | '}'::s => some (.object [],s)
      | s => (parseMembers n s).map fun (members,s) => (.object members,s)
    | s => (parseNumber s).map fun (q,s) => (.number q,s)

def parseElements : ℕ → List Char → Option (List Json × List Char)
  | 0, _ => none
  | n+1, s => (parseValue n s).bind fun (j,s) =>
    match skipWs s with
    | ','::s => (parseElements n (skipWs s)).map fun (js,s) => (j::js,s)
    | ']'::s => some ([j],s)
    | _ => none

def parseMembers : ℕ → List Char → Option (List (List Char × Json) × List Char)
  | 0, _ => none
  | n+1, s =>
    match s with
    | '"'::s => (parseChars (s.length+1) s).bind fun (name,s) =>
      match skipWs s with
      | ':'::s => (parseValue n (skipWs s)).bind fun (j,s) =>
        match skipWs s with
        | ','::s => (parseMembers n (skipWs s)).map fun (members,s) => ((name,j)::members,s)
        | '}'::s => some ([(name,j)],s)
        | _ => none
      | _ => none
    | _ => none

end

/-- The value of a whole text. -/
def parse (s : List Char) : Option Json :=
  (parseValue (s.length+1) (skipWs s)).bind fun (j,s) => if skipWs s = [] then some j else none

end Json
end SdkCp
