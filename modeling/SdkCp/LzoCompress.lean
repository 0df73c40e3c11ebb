import SdkCp.LzoStream

/-! What `lzo1x_1_compress` writes is a stream of its input, whatever its table holds, so that both
decompressors give the input back; and it is not much longer than the input. -/
namespace SdkCp
namespace Lzo

open BackReference Bytes

theorem lowZeroBytes_le (k v : ℕ) : lowZeroBytes k v ≤ k := by
  induction k generalizing v with
  | zero => exact le_rfl
  | succ k ih =>
    unfold lowZeroBytes
    split
    · exact Nat.succ_le_succ (ih _)
    · exact Nat.zero_le _

theorem lowZeroBytes_zero (k : ℕ) : lowZeroBytes k 0 = k := by
  induction k with
  | zero => rfl
  | succ k ih => rw [lowZeroBytes,if_pos (Nat.zero_mod _),Nat.zero_div,ih]

theorem getElem?_eq_of_lowZeroBytes {xs ys : List UInt8} (hlen : xs.length = ys.length) {i : ℕ}
    (hi : i < lowZeroBytes xs.length (ofLE xs ^^^ ofLE ys)) : xs[i]? = ys[i]? := by
  induction xs generalizing ys i with
  | nil => simp [lowZeroBytes] at hi
  | cons x xs ih =>
    cases ys with
    | nil => simp at hlen
    | cons y ys =>
      have hmod : (ofLE (x::xs) ^^^ ofLE (y::ys)) % 256 = x.toNat ^^^ y.toNat := by
        have hx := x.toNat_lt
        have hy := y.toNat_lt
        rw [show 256 = 2^8 from rfl,Nat.xor_mod_two_pow,ofLE,ofLE]
        congr 1 <;> omega
      have hdiv : (ofLE (x::xs) ^^^ ofLE (y::ys))/256 = ofLE xs ^^^ ofLE ys := by
        have hx := x.toNat_lt
        have hy := y.toNat_lt
        rw [show 256 = 2^8 from rfl,Nat.xor_div_two_pow,ofLE,ofLE]
        congr 1 <;> omega
      rw [List.length_cons,lowZeroBytes,hmod,hdiv] at hi
      split at hi
      next hzero =>
        have hxy : x = y := UInt8.toNat_inj.mp (Nat.xor_eq_zero_iff.mp hzero)
        cases i with
        | zero => rw [List.getElem?_cons_zero,List.getElem?_cons_zero,hxy]
        | succ i =>
          rw [List.getElem?_cons_succ,List.getElem?_cons_succ]
          exact ih (Nat.succ.inj hlen) (Nat.lt_of_succ_lt_succ hi)
      next => exact absurd hi (Nat.not_lt_zero _)

theorem ofLE_inj {xs ys : List UInt8} (hlen : xs.length = ys.length) (h : ofLE xs = ofLE ys) : xs = ys := by
  rw [← leBytes_ofLE xs,hlen,h,leBytes_ofLE]

section
variable {text : List UInt8}

theorem getElem?_eq_of_word {a b i : ℕ} (ha : a+8 ≤ text.length) (hb : b+8 ≤ text.length)
    (hi : i < lowZeroBytes 8 (getNE64 text a ^^^ getNE64 text b)) : text[a+i]? = text[b+i]? := by
  have hword {p : ℕ} (hp : p+8 ≤ text.length) : ((text.drop p).take 8).length = 8 := by
    rw [List.length_take,List.length_drop]
    omega
  have hi8 : i < 8 := hi.trans_le (lowZeroBytes_le _ _)
  have h : ((text.drop a).take 8)[i]? = ((text.drop b).take 8)[i]? :=
    getElem?_eq_of_lowZeroBytes ((hword ha).trans (hword hb).symm) (by rwa [hword ha])
  rwa [List.getElem?_take_of_lt hi8,List.getElem?_take_of_lt hi8,List.getElem?_drop,List.getElem?_drop] at h

theorem getElem?_eq_of_getLE32 {a b i : ℕ} (ha : a+4 ≤ text.length) (hb : b+4 ≤ text.length) (hi : i < 4)
    (h : getLE32 text a = getLE32 text b) : text[a+i]? = text[b+i]? := by
  have hword {p : ℕ} (hp : p+4 ≤ text.length) : ((text.drop p).take 4).length = 4 := by
    rw [List.length_take,List.length_drop]
    omega
  have h' : ((text.drop a).take 4)[i]? = ((text.drop b).take 4)[i]? := by
    rw [ofLE_inj ((hword ha).trans (hword hb).symm) h]
  rwa [List.getElem?_take_of_lt hi,List.getElem?_take_of_lt hi,List.getElem?_drop,List.getElem?_drop] at h'

end

section
variable {b : Block} {ip m_pos m_len : ℕ}

/-- `m_len` bytes at `ip` are those at `m_pos`, inside the block. -/
structure Block.Agrees (b : Block) (ip m_pos m_len : ℕ) : Prop where
  inside : ip+m_len ≤ b.inEnd
  same : ∀ i < m_len, b.text[ip+i]? = b.text[m_pos+i]?

theorem Block.Agrees.extend {k : ℕ} (h : b.Agrees ip m_pos m_len) (hpos : m_pos < ip)
    (hroom : ip+m_len+8 ≤ b.inEnd) (htext : b.inEnd ≤ b.text.length)
    (hk : k ≤ lowZeroBytes 8 (getNE64 b.text (ip+m_len) ^^^ getNE64 b.text (m_pos+m_len))) :
    b.Agrees ip m_pos (m_len+k) where
  inside := by
    have hle := lowZeroBytes_le 8 (getNE64 b.text (ip+m_len) ^^^ getNE64 b.text (m_pos+m_len))
    omega
  same i hi := by
    rcases Nat.lt_or_ge i m_len with hlt | hge
    · exact h.same i hlt
    · have hword : b.text[ip+m_len+(i-m_len)]? = b.text[m_pos+m_len+(i-m_len)]? :=
        getElem?_eq_of_word (by omega) (by omega) (by omega)
      rwa [show ip+m_len+(i-m_len) = ip+i by omega,show m_pos+m_len+(i-m_len) = m_pos+i by omega] at hword

theorem Block.agrees_extendMatch (hpos : m_pos < ip) (htext : b.inEnd ≤ b.text.length)
    (hlen : b.ipEnd+20 = b.inEnd) (hnear : ip+m_len < b.ipEnd+4) (h : b.Agrees ip m_pos (m_len+8)) :
    b.Agrees ip m_pos (b.extendMatch ip m_pos m_len) := by
  fun_induction b.extendMatch ip m_pos m_len with
  | case1 m_len m_len' hend => exact h
  | case2 m_len m_len' v hend hzero ih =>
    refine ih (by omega) (h.extend hpos (by omega) htext ?_)
    rw [show getNE64 b.text (ip+(m_len+8)) ^^^ getNE64 b.text (m_pos+(m_len+8)) = 0 from hzero,
      lowZeroBytes_zero]
  | case3 m_len m_len' v hend hne => exact h.extend hpos (by omega) htext le_rfl

theorem Block.agrees_matchLength (hpos : m_pos < ip) (htext : b.inEnd ≤ b.text.length)
    (hlen : b.ipEnd+20 = b.inEnd) (hip : ip < b.ipEnd) (h : b.Agrees ip m_pos 4) :
    b.Agrees ip m_pos (b.matchLength ip m_pos) := by
  unfold matchLength
  simp only
  split
  next hzero =>
    refine agrees_extendMatch hpos htext hlen (by omega) (h.extend hpos (by omega) htext ?_)
    rw [hzero,lowZeroBytes_zero]
  next => exact h.extend hpos (by omega) htext le_rfl

end

/-- The blocks that `lzo1x_1_compress` makes. -/
structure Block.Valid (b : Block) : Prop where
  more : 20 < b.len
  limit : b.len ≤ 49152
  inside : b.inEnd ≤ b.text.length

/-- What is written is a stream of the input up to the literals that are still to be written. The table
only has places before `ip`. -/
structure Block.Inv (b : Block) (s : Scan) : Prop where
  stream : Stream s.op (b.text.take (s.ii-s.ti))
  first : s.op = [] → s.ii-s.ti+4 ≤ s.ip
  start : b.start ≤ s.ii
  ii : s.ii ≤ b.inEnd
  order : s.ii ≤ s.ip
  dict : ∀ i, b.start+s.dict i < s.ip

section
variable {b : Block} {s : Scan}

theorem Block.inv_putMatch (hb : b.Valid) (h : b.Inv s) (hip : s.ip < b.ipEnd) {m_pos : ℕ}
    (hstart : b.start ≤ m_pos) (hpos : m_pos < s.ip)
    (hsame : getLE32 b.text s.ip = getLE32 b.text m_pos) {dict : ℕ → ℕ}
    (hdict : ∀ i, b.start+dict i ≤ s.ip) : b.Inv (b.putMatch { s with dict := dict } m_pos) := by
  have hmore := hb.more
  have hlimit := hb.limit
  have htext := hb.inside
  have hend : b.inEnd = b.start+b.len := rfl
  have hipEnd : b.ipEnd = b.start+b.len-20 := rfl
  have horder := h.order
  have hii := h.start
  have hfour : b.Agrees s.ip m_pos 4 :=
    ⟨by omega,fun i hi => getElem?_eq_of_getLE32 (by omega) (by omega) hi hsame⟩
  have hagrees := agrees_matchLength hpos htext (by omega) hip hfour
  have hlen := b.four_le_matchLength s.ip m_pos
  set m_len := b.matchLength s.ip m_pos
  have hinside := hagrees.inside
  have hsplit : b.text.take (s.ii-s.ti) ++ (b.text.drop (s.ii-s.ti)).take (s.ip-(s.ii-s.ti)) =
      b.text.take s.ip := by
    rw [← List.take_add]
    congr 1
    omega
  have htake : (b.text.take s.ip).length = s.ip := List.length_take_of_le (by omega)
  have hcopy : copyBack (s.ip-m_pos) m_len (b.text.take s.ip) = b.text.take (s.ip+m_len) := by
    refine copyBack_take m_len (by omega) (by omega) (by omega) fun i hi => ?_
    rw [show s.ip-(s.ip-m_pos) = m_pos by omega]
    exact hagrees.same i hi
  have hstream : Stream (putLiterals s.op ((b.text.drop (s.ii-s.ti)).take (s.ip-(s.ii-s.ti))) ++
      matchBytes (s.ip-m_pos) m_len) (b.text.take (s.ip+m_len)) := by
    rw [← hcopy,← hsplit]
    refine h.stream.sequence (fun hop => ?_) (by omega) ?_ (by unfold M4_MAX_OFFSET; omega) hlen
    · have hfirst := h.first hop
      rw [List.length_take,List.length_drop]
      omega
    · rw [hsplit,htake]
      omega
  refine ⟨hstream,fun hop => ?_,?_,hinside,le_rfl,fun i => ?_⟩
  · have htwo := two_le_length_matchBytes (s.ip-m_pos) m_len
    simp only [putMatch,List.append_eq_nil_iff] at hop
    rw [hop.2] at htwo
    exact absurd htwo (by decide)
  · simp only [putMatch]
    omega
  · have hd := hdict i
    simp only [putMatch]
    omega

theorem Block.inv_next (hb : b.Valid) (h : b.Inv s) (hip : s.ip < b.ipEnd) : b.Inv (b.next s) := by
  have hpos := h.dict (dindex (getLE32 b.text s.ip))
  have hdict : ∀ i, b.start+Function.update s.dict (dindex (getLE32 b.text s.ip))
      ((s.ip-b.start) % 2^16) i ≤ s.ip := by
    intro i
    have hle := Nat.mod_le (s.ip-b.start) (2^16)
    have hstart := h.start.trans h.order
    rw [Function.update_apply]
    split
    · omega
    · exact (h.dict i).le
  unfold next
  simp only
  split
  · refine ⟨h.stream,fun hop => ?_,h.start,h.ii,?_,fun i => ?_⟩
    · have hfirst := h.first hop
      simp only [Scan.literal]
      omega
    · have horder := h.order
      simp only [Scan.literal]
      omega
    · have hd := hdict i
      simp only [Scan.literal]
      omega
  next hsame => exact inv_putMatch hb h hip (Nat.le_add_right _ _) hpos (not_not.mp hsame) hdict

theorem Block.inv_scan (hb : b.Valid) (h : b.Inv s) : b.Inv (b.scan s) := by
  fun_induction b.scan s with
  | case1 s hend => exact h
  | case2 s hend ih => exact ih (inv_next hb h (not_le.mp hend))

end

/-- What `do_compress` writes is a stream of the input up to the literals that it leaves. -/
theorem Block.doCompress_stream {b : Block} (hb : b.Valid) {op : List UInt8} {ti : ℕ} (hti : ti ≤ b.start)
    (h : Stream op (b.text.take (b.start-ti))) :
    (b.doCompress op ti).2 ≤ b.inEnd ∧
      Stream (b.doCompress op ti).1 (b.text.take (b.inEnd-(b.doCompress op ti).2)) := by
  have hentry : b.Inv (Scan.literal
      ⟨b.start+(if ti < 4 then 4-ti else 0),b.start,ti,fun _ => 0,op⟩) := by
    refine ⟨h,fun _ => ?_,le_rfl,Nat.le_add_right _ _,?_,fun _ => ?_⟩
    · simp only [Scan.literal]
      split <;> omega
    · simp only [Scan.literal]
      omega
    · simp only [Scan.literal]
      omega
  have hinv := inv_scan hb hentry
  have hii := hinv.ii
  refine ⟨Nat.sub_le _ _,?_⟩
  unfold doCompress
  simp only
  rw [Nat.sub_sub_self (by omega)]
  exact hinv.stream

theorem compressBlocks_stream (text op : List UInt8) (t : ℕ) {l : ℕ} (hl : l ≤ text.length)
    (ht : t ≤ text.length-l) (h : Stream op (text.take (text.length-l-t))) :
    (compressBlocks text op t l).2 ≤ text.length ∧
      Stream (compressBlocks text op t l).1 (text.take (text.length-(compressBlocks text op t l).2)) := by
  fun_induction compressBlocks text op t l with
  | case1 op t l hl20 ll hsmall =>
    refine ⟨by omega,?_⟩
    rwa [show text.length-(t+l) = text.length-l-t by omega]
  | case2 op t l hl20 ll hbig op' t' hblock ih =>
    have hvalid : Block.Valid ⟨text,text.length-l,ll⟩ := by
      refine ⟨lt_min hl20 (by decide),min_le_right _ _,?_⟩
      have hle : ll ≤ l := min_le_left _ _
      simp only [Block.inEnd]
      omega
    have hblock' := Block.doCompress_stream hvalid ht h
    rw [hblock] at hblock'
    have hle : ll ≤ l := min_le_left _ _
    have hend : (Block.mk text (text.length-l) ll).inEnd = text.length-(l-ll) := by
      simp only [Block.inEnd]
      omega
    rw [hend] at hblock'
    exact ih (by omega) hblock'.1 hblock'.2
  | case3 op t l hl20 =>
    refine ⟨by omega,?_⟩
    rwa [show text.length-(t+l) = text.length-l-t by omega]

/-- The output is a stream, the literals behind its last match, and the end marker. -/
theorem lzo1x1Compress_spec (text : List UInt8) : ∃ op lits before, Stream op before ∧
    before ++ lits = text ∧
    lzo1x1Compress text = (LZO_E_OK,putRest op lits ++ [lzoByte (M4_MARKER ||| 1),0,0]) := by
  have h := compressBlocks_stream text [] 0 le_rfl (Nat.zero_le _) (by
    rw [Nat.sub_self,Nat.zero_sub,List.take_zero]
    exact .nil)
  exact ⟨_,_,_,h.2,List.take_append_drop _ _,rfl⟩

theorem length_lengthBytes (n : ℕ) : (lengthBytes n).length ≤ n/255+1 := by
  induction n using Nat.strong_induction_on with
  | _ n ih =>
    unfold lengthBytes
    split
    next hlong =>
      have h := ih (n-255) (by omega)
      rw [List.length_cons]
      omega
    next => exact Nat.le_add_left _ _

theorem length_orLast2 (op : List UInt8) (t : ℕ) : (orLast2 op t).length = op.length :=
  List.length_modify ..

theorem length_putLiterals (op lits : List UInt8) : (putLiterals op lits).length ≤
    op.length+lits.length+if lits.length ≤ 3 then 0 else if lits.length ≤ 18 then 1
      else (lits.length-18)/255+2 := by
  have hor := length_orLast2 op lits.length
  have hlong := length_lengthBytes (lits.length-18)
  unfold putLiterals
  simp only
  by_cases hfew : lits.length ≤ 3
  · rw [if_pos hfew,if_pos hfew]
    split
    · omega
    · rw [List.length_append]
      omega
  · rw [if_neg (by omega),if_neg hfew,if_neg hfew]
    split
    · simp only [List.length_append,List.length_cons]
      omega
    · simp only [List.length_append,List.length_cons]
      omega

theorem length_matchBytes (off len : ℕ) :
    (matchBytes off len).length ≤ if len ≤ M4_MAX_LEN then 3 else (len-9)/255+4 := by
  unfold matchBytes
  simp only
  have h3 := length_lengthBytes (len-M3_MAX_LEN)
  have h4 := length_lengthBytes (len-M4_MAX_LEN)
  simp only [M3_MAX_LEN,M4_MAX_LEN] at *
  split_ifs
  all_goals
    simp only [List.length_append,List.length_cons,List.length_nil]
    omega

theorem Stream.length_le {op text : List UInt8} (h : Stream op text) : 16*op.length ≤ 17*text.length := by
  induction h with
  | nil => exact le_rfl
  | @sequence op text lits off len h hfirst hpos hback hoff hlen ih =>
    have hlits := length_putLiterals op lits
    have hmatch := length_matchBytes off len
    rw [length_copyBack len hpos hback,List.length_append,List.length_append]
    simp only [M4_MAX_LEN] at hmatch
    split_ifs at hlits hmatch <;> omega

theorem length_lzo1x1Compress (text : List UInt8) :
    (lzo1x1Compress text).2.length ≤ text.length+text.length/16+64+3 := by
  obtain ⟨op,lits,before,hstream,rfl,heq⟩ := lzo1x1Compress_spec text
  have hop := hstream.length_le
  have hrest : (putRest op lits).length ≤ op.length+lits.length+2+lits.length/255 := by
    have hlits := length_putLiterals op lits
    unfold putRest
    split
    next hfirst =>
      rw [List.length_cons]
      omega
    next => split_ifs at hlits <;> omega
  rw [heq]
  simp only [List.length_append,List.length_cons,List.length_nil]
  omega

theorem lzo1xDecompress_compress (text tail : List UInt8) {room : ℕ} (hroom : text.length ≤ room) :
    lzo1xDecompress room ((lzo1x1Compress text).2 ++ tail) =
      .ret (if tail = [] then LZO_E_OK else LZO_E_INPUT_NOT_CONSUMED) text := by
  obtain ⟨op,lits,before,hstream,rfl,heq⟩ := lzo1x1Compress_spec text
  rw [heq]
  exact hstream.run hroom tail

/-- Both decompressors give back what the compressor was given, with any spare room, and report bytes
that follow. -/
theorem decompress_compress (text tail : List UInt8) (spare : ℕ)
    (hshort : text.length+text.length/16+67+tail.length < kShort) :
    let packed := (lzo1x1Compress text).2 ++ tail
    let returned : Outcome := .ret (if tail = [] then LZO_E_OK else LZO_E_INPUT_NOT_CONSUMED) text
    lzo1xDecompress (text.length+spare) packed = returned ∧
      lzo1xDecompressSafe (text.length+spare) packed = returned := by
  have hplain := lzo1xDecompress_compress text tail (Nat.le_add_right text.length spare)
  have hlen : ((lzo1x1Compress text).2 ++ tail).length < kShort := by
    have hpacked := length_lzo1x1Compress text
    rw [List.length_append]
    omega
  exact ⟨hplain,(run_safe hlen hplain).1⟩

theorem decompress_compress_short :
    lzo1xDecompress 3 ((lzo1x1Compress [1,2,3]).2 ++ []) = .ret LZO_E_OK [1,2,3] ∧
      lzo1xDecompressSafe 3 ((lzo1x1Compress [1,2,3]).2 ++ []) = .ret LZO_E_OK [1,2,3] :=
  decompress_compress [1,2,3] [] 0 (by decide)

/-- The output fits in the room that the callers give it, and is never empty. -/
theorem compress_fits (text : List UInt8) :
    3 ≤ (lzo1x1Compress text).2.length ∧
      (lzo1x1Compress text).2.length ≤ text.length+text.length/16+64+3 :=
  ⟨by simp [lzo1x1Compress],length_lzo1x1Compress text⟩

end Lzo
end SdkCp
