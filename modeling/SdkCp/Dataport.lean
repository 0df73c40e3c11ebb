import SdkCp.Bytes

/-! `dataport_direct` of dataport/dataport_direct.hpp over a byte file whose
writes append. A record is meant to be a header with size and hash and the data
behind it; `_data_format` overwrites the header the caller prepared. -/
namespace SdkCp
namespace Dataport

open Bytes

inductive DataError
  | ok | openFileFailed | invalidArg | writeOperationFailed | readOperationFailed
  | memoryResizeFailed | invalidHash | setFilePositionFailed
  deriving DecidableEq

structure MessageHeader where
  hash : UInt64
  size : ℕ

/-- `sizeof(message_header)`. -/
def headerSize : ℕ := 16

def MessageHeader.bytes (h : MessageHeader) : List UInt8 := leBytes 8 h.hash.toNat ++ leBytes 8 h.size

def MessageHeader.ofBytes (bs : List UInt8) : MessageHeader :=
  ⟨UInt64.ofNat (ofLE (bs.take 8)),ofLE ((bs.drop 8).take 8)⟩

def fnv1aHashBytes (bs : List UInt8) : UInt64 :=
  bs.foldl (fun result b => (result ^^^ b.toUInt64)*1099511628211) 14695981039346656037

def resize (v : List UInt8) (n : ℕ) : List UInt8 := v.take n ++ List.replicate (n-v.length) 0

/-- `memcpy` into a vector at an offset. -/
def memcpy (v : List UInt8) (off : ℕ) (bs : List UInt8) : List UInt8 :=
  v.take off ++ bs ++ v.drop (off+bs.length)

/-- `_data_format`: the header it copies is the one in the message. -/
def dataFormat (header : MessageHeader) (data out : List UInt8) : List UInt8 :=
  let out := resize out (headerSize+data.length)
  memcpy (memcpy out 0 header.bytes) headerSize data

/-- How the C library behaves during one call: whether each operation gets through,
how many bytes a failing `fwrite` leaves behind, and what the cached buffer holds. -/
structure Library where
  opens : Bool
  seeks : Bool
  resizes : Bool
  writes : Option ℕ
  cached : List UInt8

/-- Every operation succeeds. -/
def Library.good (cached : List UInt8) : Library := ⟨true,true,true,none,cached⟩

/-- `fread(&v[0], size, 1, file)` at a position: the bytes if a whole item was read. An
item of size 0 is never read. -/
def fread (file : List UInt8) (position size : ℕ) : Option (List UInt8) :=
  if 0 < size ∧ position+size ≤ file.length then some ((file.drop position).take size) else none

/-- `_database_write`: the address, the file afterwards and the result. -/
def databaseWrite (lib : Library) (file data : List UInt8) (header : MessageHeader) :
    ℤ × List UInt8 × DataError :=
  let buffer := resize lib.cached headerSize
  let buffer := memcpy buffer 0 (MessageHeader.bytes ⟨fnv1aHashBytes data,data.length⟩)
  let buffer := dataFormat header data buffer
  match lib.writes with
  | none => (file.length,file ++ buffer,.ok)
  | some n => (file.length,file ++ buffer.take n,.writeOperationFailed)

/-- `_database_read`: what `data` holds afterwards and the result. -/
def databaseRead (lib : Library) (file : List UInt8) (addr : ℤ) (data : List UInt8) :
    List UInt8 × DataError :=
  if addr < 0 ∨ lib.seeks = false then (data,.setFilePositionFailed)
  else
    match fread file addr.toNat headerSize with
    | none => (data,.readOperationFailed)
    | some bs =>
      let header := MessageHeader.ofBytes bs
      if lib.resizes = false then (data,.memoryResizeFailed)
      else
        match fread file (addr.toNat+headerSize) header.size with
        | none => (resize data header.size,.readOperationFailed)
        | some data => (data,if fnv1aHashBytes data = header.hash then .ok else .invalidHash)

/-- `add`: the address it stores (none if it is left as it was), the file and the result. -/
def add (lib : Library) (file data : List UInt8) : Option ℤ × List UInt8 × DataError :=
  if data = [] then (none,file,.invalidArg)
  else if lib.opens = false then (none,file,.openFileFailed)
  else
    let (addr,file,result) := databaseWrite lib file data ⟨0,0⟩
    (some addr,file,result)

/-- `get`: what `data` holds afterwards and the result. -/
def get (lib : Library) (file : List UInt8) (addr : ℤ) (data : List UInt8) :
    List UInt8 × DataError :=
  if addr = 0 then (data,.invalidArg)
  else if lib.opens = false then (data,.openFileFailed)
  else databaseRead lib file addr data

/-- One call of a client. -/
inductive Call
  | add (lib : Library) (data : List UInt8)
  | get (lib : Library) (addr : ℤ) (data : List UInt8)

/-- The file after a history of calls. -/
def history (file : List UInt8) : List Call → List UInt8
  | [] => file
  | .add lib data::cs => history (add lib file data).2.1 cs
  | .get _ _ _::cs => history file cs

/-- The store keeps a record: after `before`, `add` of `data` succeeds with an address at
which a `get` after `later` finds the data, and the bytes stored earlier are unchanged. -/
def Keeps (file : List UInt8) (before : List Call) (lib : Library) (data : List UInt8)
    (later : List Call) (lib' : Library) (out : List UInt8) : Prop :=
  let file := history file before
  ∀ a file', add lib file data = (some a,file',.ok) →
    file <+: file' ∧ get lib' (history file' later) a out = (data,.ok)

theorem length_resize (v : List UInt8) (n : ℕ) : (resize v n).length = n := by
  rw [resize,List.length_append,List.length_take,List.length_replicate]
  omega

theorem memcpy_append {l m r bs : List UInt8} (hm : m.length = bs.length) :
    memcpy (l ++ (m ++ r)) l.length bs = l ++ (bs ++ r) := by
  rw [memcpy,List.take_left,← hm,← List.length_append,← List.append_assoc l m r,List.drop_left,
    List.append_assoc]

theorem header_length (h : MessageHeader) : h.bytes.length = headerSize := by
  simp [MessageHeader.bytes,headerSize]

theorem dataFormat_eq (header : MessageHeader) (data out : List UInt8) :
    dataFormat header data out = header.bytes ++ data := by
  have hl := header_length header
  have hlen := length_resize out (headerSize+data.length)
  simp only [dataFormat,memcpy,hl,List.take_zero,List.nil_append,Nat.zero_add]
  rw [List.take_left' hl,List.drop_eq_nil_of_le (by simp [hl,hlen]),List.append_nil]

theorem add_ok {lib : Library} {file data file' : List UInt8} {a : ℤ}
    (h : add lib file data = (some a,file',.ok)) :
    a = file.length ∧ file' = file ++ (MessageHeader.bytes ⟨0,0⟩ ++ data) := by
  simp only [add,databaseWrite,dataFormat_eq] at h
  split at h
  · simp at h
  · split at h
    · simp at h
    · cases hw : lib.writes with
      | none =>
        simp only [hw,Prod.mk.injEq,Option.some.injEq] at h
        exact ⟨h.1.symm,h.2.1.symm⟩
      | some n => simp [hw] at h

theorem history_prefix (cs : List Call) (file : List UInt8) : file <+: history file cs := by
  induction cs generalizing file with
  | nil => exact List.prefix_rfl
  | cons c cs ih =>
    cases c with
    | get lib addr data => exact ih file
    | add lib data =>
      refine List.IsPrefix.trans ?_ (ih _)
      simp only [add,databaseWrite]
      split
      · exact List.prefix_rfl
      · split
        · exact List.prefix_rfl
        · cases lib.writes <;> exact List.prefix_append _ _

/-- Where a record of a successful `add` begins, every later read finds size 0 and
reads nothing. -/
theorem get_added {lib : Library} {file file' data : List UInt8} {a : ℤ}
    (h : add lib file data = (some a,file',.ok)) (later : List Call) (lib' : Library)
    (out : List UInt8) :
    (get lib' (history file' later) a out).2 ≠ .ok := by
  obtain ⟨rfl,rfl⟩ := add_ok h
  obtain ⟨rest,hrest⟩ := history_prefix later (file ++ (MessageHeader.bytes ⟨0,0⟩ ++ data))
  have hread : fread (history (file ++ (MessageHeader.bytes ⟨0,0⟩ ++ data)) later) file.length
      headerSize = some (MessageHeader.bytes ⟨0,0⟩) := by
    rw [← hrest,fread,if_pos]
    · rw [List.append_assoc,List.drop_left,List.append_assoc,List.take_left' (header_length _)]
    · simp [headerSize,MessageHeader.bytes]
      omega
  simp only [get,databaseRead]
  split
  · simp
  · split
    · simp
    · split
      · simp
      · rw [Int.toNat_natCast,hread]
        dsimp only
        split
        · simp
        · simp [fread,MessageHeader.ofBytes,MessageHeader.bytes,leBytes,ofLE]

/-- No record is ever found again: whatever the file and the calls before and after a
successful `add`, `get` at its address fails. -/
theorem added_record_lost {file : List UInt8} {before later : List Call} {lib lib' : Library}
    {data out : List UInt8} {a : ℤ} {file' : List UInt8}
    (h : add lib (history file before) data = (some a,file',.ok)) :
    ¬Keeps file before lib data later lib' out := by
  intro hk
  have hget := (hk a file' h).2
  exact get_added h later lib' out (by rw [hget])

theorem added_record_lost_empty :
    ¬Keeps [] [.add (.good []) [1]] (.good []) [7,8] [] (.good []) [] :=
  added_record_lost (show add (.good []) (history [] [.add (.good []) [1]]) [7,8] =
    (some 17,List.replicate 16 0 ++ [1] ++ List.replicate 16 0 ++ [7,8],.ok) by decide)

/-- At an empty file the first record is not found either. -/
theorem not_keeps_empty : ¬Keeps [] [] (.good []) [7] [] (.good []) [] := by
  intro h
  exact absurd (h 0 (List.replicate 16 0 ++ [7]) (by decide)).2 (by decide)

end Dataport
end SdkCp
