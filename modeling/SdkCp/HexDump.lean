import SdkCp.JsonWriter

/-! `str_conv` of a byte vector in tools/string_converter.hpp: a row of sixteen items is gathered in
`buf` and appended when the next one begins; the last row is appended behind the loop. -/
namespace SdkCp
namespace HexDump

open JsonWriter (ascii)

def hexDigit (n : ℕ) : UInt8 := UInt8.ofNat (if n < 10 then 48+n else 55+n)

/-- ` %02X('%c')`. -/
def byteFormat (b : UInt8) : List UInt8 :=
  [0x20,hexDigit (b.toNat/16),hexDigit (b.toNat % 16),0x28,0x27,b,0x27,0x29]

def wrapPosition : ℕ := 16
def byteFormatLen : ℕ := 8

/-- What has been appended, and the row. -/
structure State where
  out : List UInt8
  buf : List UInt8
  count : ℕ

/-- The text and its NUL from `count` on; `none` is a write behind the buffer. -/
def sprintf (buf : List UInt8) (count : ℕ) (text : List UInt8) : Option (List UInt8) :=
  if count+text.length+1 ≤ buf.length then
    some (buf.take count ++ (text ++ 0::buf.drop (count+text.length+1)))
  else none

/-- The row is appended and the next one begins with a newline. -/
def flush (s : State) : State := ⟨s.out ++ s.buf.take s.count,s.buf.set 0 0x0A,1⟩

/-- The body of the loop for the byte at `ix`; `count` is a `uint16_t`. -/
def putByte (ix : ℕ) (b : UInt8) (s : State) : Option State :=
  let s := if ix % wrapPosition = 0 ∧ ix ≠ 0 then flush s else s
  (sprintf s.buf s.count (byteFormat b)).map fun buf => ⟨s.out,buf,(s.count+byteFormatLen) % 2^16⟩

def putBytes : ℕ → List UInt8 → State → Option State
  | _, [], s => some s
  | ix, b::bytes, s => (putByte ix b s).bind (putBytes (ix+1) bytes)

/-- `buf[512]`, with what is in it before anything is written. -/
structure RowBuffer where
  chars : List UInt8
  size : chars.length = 512

def strConv (buf : RowBuffer) (bytes out : List UInt8) : Option (List UInt8) :=
  if bytes.isEmpty then some (out ++ ascii "no_data")
  else (putBytes 0 bytes ⟨out,buf.chars,0⟩).map fun s =>
    (if bytes.length % wrapPosition ≠ 0 then s.out ++ s.buf.take s.count else s.out) ++
      ascii "\nstring: " ++ bytes

/-- An item, on a new line where its index is a positive multiple of 16. -/
def item (b : UInt8 × ℕ) : List UInt8 :=
  (if 0 < b.2 ∧ 16 ∣ b.2 then [0x0A] else []) ++ byteFormat b.1

/-- One item for every byte. -/
def dump (bytes : List UInt8) : List UInt8 := bytes.zipIdx.flatMap item

section

variable {s : State} {ix : ℕ} {b : UInt8} {bytes out : List UInt8}

theorem length_byteFormat : (byteFormat b).length = 8 := rfl

/-- What has been appended and what is in the row. -/
def State.text (s : State) : List UInt8 := s.out ++ s.buf.take s.count

/-- Before the byte at `ix` the row holds the items since the last newline. -/
structure Fits (ix : ℕ) (s : State) : Prop where
  size : s.buf.length = 512
  first : ix = 0 → s.count = 0
  least : 0 < ix → 8 ≤ s.count
  most : 0 < ix → s.count ≤ 1+8*((ix-1) % 16+1)

theorem text_flush (hsize : s.buf.length = 512) : (flush s).text = s.text ++ [0x0A] := by
  obtain ⟨c,l,hbuf⟩ := List.exists_cons_of_length_pos (by omega : 0 < s.buf.length)
  simp [State.text,flush,hbuf]

theorem sprintf_spec {buf : List UInt8} {count : ℕ} (hroom : count+9 ≤ buf.length) :
    ∃ buf', sprintf buf count (byteFormat b) = some buf' ∧ buf'.length = buf.length ∧
      buf'.take (count+8) = buf.take count ++ byteFormat b := by
  refine ⟨_,if_pos hroom,?_,?_⟩
  · simp only [List.length_append,List.length_cons,List.length_take,List.length_drop,length_byteFormat]
    omega
  · have htake : (buf.take count).length = count := List.length_take_of_le (by omega)
    rw [← List.append_assoc,List.take_left' (by rw [List.length_append,htake,length_byteFormat])]

theorem putByte_spec (h : Fits ix s) : ∃ t, putByte ix b s = some t ∧ Fits (ix+1) t ∧
    t.text = s.text ++ item (b,ix) := by
  have hmost := h.most
  have hfirst := h.first
  by_cases hwrap : ix % 16 = 0 ∧ ix ≠ 0
  · have hsize : (flush s).buf.length = 512 := (List.length_set ..).trans h.size
    have hone : (flush s).count = 1 := rfl
    have hroom : (flush s).count+9 ≤ (flush s).buf.length := by
      rw [hsize,hone]
      norm_num
    obtain ⟨buf,hbuf,hlen,htake⟩ := sprintf_spec (b:=b) hroom
    refine ⟨⟨(flush s).out,buf,9⟩,?_,⟨hlen.trans hsize,by simp,fun _ => ?_,fun _ => ?_⟩,?_⟩
    · simp only [putByte,wrapPosition,hwrap,ne_eq,not_false_eq_true,and_self,if_true,hbuf,Option.map_some]
      rfl
    · simp only
      omega
    · simp only
      omega
    · have hitem : item (b,ix) = [0x0A] ++ byteFormat b := by
        rw [item,if_pos ⟨by omega,Nat.dvd_of_mod_eq_zero hwrap.1⟩]
      rw [hitem,← List.append_assoc,← text_flush h.size]
      exact (congrArg _ htake).trans (List.append_assoc ..).symm
  · have hroom : s.count+9 ≤ s.buf.length := by
      rw [h.size]
      omega
    obtain ⟨buf,hbuf,hlen,htake⟩ := sprintf_spec (b:=b) hroom
    have hcount : (s.count+8) % 2^16 = s.count+8 := Nat.mod_eq_of_lt (by rw [h.size] at hroom; omega)
    refine ⟨⟨s.out,buf,s.count+8⟩,?_,⟨hlen.trans h.size,by omega,fun _ => by simp,fun _ => ?_⟩,?_⟩
    · simp only [putByte,wrapPosition,byteFormatLen,hwrap,if_false,hbuf,Option.map_some,hcount]
    · have hrow : s.count ≤ 1+8*(ix % 16) := by omega
      simp only [Nat.add_sub_cancel]
      omega
    · have hitem : item (b,ix) = byteFormat b := by
        rw [item,if_neg fun hnew => hwrap ⟨Nat.mod_eq_zero_of_dvd hnew.2,hnew.1.ne'⟩,List.nil_append]
      rw [hitem]
      exact (congrArg _ htake).trans (List.append_assoc ..).symm

theorem putBytes_spec (bytes : List UInt8) (h : Fits ix s) : ∃ t, putBytes ix bytes s = some t ∧
    Fits (ix+bytes.length) t ∧ t.text = s.text ++ (bytes.zipIdx ix).flatMap item := by
  induction bytes generalizing ix s with
  | nil => exact ⟨s,rfl,h,(List.append_nil _).symm⟩
  | cons b bytes ih =>
    obtain ⟨u,hu,hfits,htext⟩ := putByte_spec (b:=b) h
    obtain ⟨t,ht,hfits',htext'⟩ := ih hfits
    refine ⟨t,?_,?_,?_⟩
    · rw [putBytes,hu,Option.bind_some,ht]
    · rw [List.length_cons,Nat.add_comm bytes.length,← Nat.add_assoc]
      exact hfits'
    · rw [htext',htext,List.zipIdx_cons,List.flatMap_cons,List.append_assoc]

theorem putBytes_start (buf : RowBuffer) (bytes out : List UInt8) :
    ∃ s, putBytes 0 bytes ⟨out,buf.chars,0⟩ = some s ∧ Fits bytes.length s ∧
      s.out ++ s.buf.take s.count = out ++ dump bytes := by
  have hinit : Fits 0 ⟨out,buf.chars,0⟩ := ⟨buf.size,fun _ => rfl,by simp,by simp⟩
  obtain ⟨s,hs,hfits,htext⟩ := putBytes_spec bytes hinit
  rw [Nat.zero_add] at hfits
  exact ⟨s,hs,hfits,htext.trans (by simp [State.text,dump])⟩

theorem strConv_isSome (buf : RowBuffer) (bytes out : List UInt8) : (strConv buf bytes out).isSome := by
  obtain ⟨s,hs,-⟩ := putBytes_start buf bytes out
  rw [strConv]
  split
  · rfl
  · rw [hs]
    rfl

theorem strConv_eq_iff (buf : RowBuffer) {bytes : List UInt8} (out : List UInt8) (hne : bytes ≠ []) :
    strConv buf bytes out = some (out ++ dump bytes ++ ascii "\nstring: " ++ bytes) ↔
      bytes.length % 16 ≠ 0 := by
  obtain ⟨s,hs,hfits,hdump⟩ := putBytes_start buf bytes out
  have hempty : bytes.isEmpty = false := by simpa using hne
  simp only [strConv,hempty,Bool.false_eq_true,if_false,hs,Option.map_some,Option.some.injEq,
    List.append_cancel_right_eq]
  by_cases hlast : bytes.length % wrapPosition ≠ 0
  · rw [if_pos hlast]
    exact iff_of_true hdump hlast
  · rw [if_neg hlast]
    refine iff_of_false (fun heq => ?_) hlast
    -- the items in the row are missing
    have hlen := congrArg List.length (heq.trans hdump.symm)
    have hleast := hfits.least (List.length_pos_iff.mpr hne)
    rw [List.length_append,List.length_take,hfits.size] at hlen
    omega

end

/-- No row leaves the buffer, and the text before the string is the dump of all bytes if and only if
the last row is not full. -/
theorem strConv_dump_iff (buf : RowBuffer) (bytes out : List UInt8) (hne : bytes ≠ []) :
    (strConv buf bytes out).isSome ∧
      (strConv buf bytes out = some (out ++ dump bytes ++ ascii "\nstring: " ++ bytes) ↔
        bytes.length % 16 ≠ 0) :=
  ⟨strConv_isSome buf bytes out,strConv_eq_iff buf out hne⟩

def zeros : RowBuffer := ⟨List.replicate 512 0,List.length_replicate⟩

theorem strConv_dump_two : (strConv zeros [0x61,0] []).isSome ∧
    (strConv zeros [0x61,0] [] = some ([] ++ dump [0x61,0] ++ ascii "\nstring: " ++ [0x61,0]) ↔
      ([0x61,0] : List UInt8).length % 16 ≠ 0) :=
  strConv_dump_iff zeros [0x61,0] [] (by decide)

/-- One full row: it is not appended. -/
theorem not_strConv_dump : ¬∀ (buf : RowBuffer) (bytes out : List UInt8), bytes ≠ [] →
    strConv buf bytes out = some (out ++ dump bytes ++ ascii "\nstring: " ++ bytes) := by
  intro h
  have hne : List.replicate 16 (0x61 : UInt8) ≠ [] := by decide
  exact (strConv_eq_iff zeros [] hne).mp (h zeros _ [] hne) rfl

end HexDump
end SdkCp
