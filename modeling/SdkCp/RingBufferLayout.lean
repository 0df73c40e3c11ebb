import SdkCp.RingBuffer

/-! The byte layout between `_ix_read` and `_ix_write`. True, unbounded indices
are related to the machine words; the buffer holds a chain of segments, each
inside the buffer, and a store outside a segment's bytes leaves it as it is. -/
namespace SdkCp
namespace RingBuffer

open Bytes

namespace Config

variable (cfg : Config)

theorem size_pos : 0 < cfg.size := Nat.two_pow_pos _

theorem size_le : cfg.size ≤ 2^31 := Nat.pow_le_pow_right (by norm_num) (by have := cfg.size_lt; omega)

theorem word_ge : 2^32 ≤ 2^cfg.wordBits :=
  Nat.pow_le_pow_right (by norm_num) (by rcases cfg.word_eq with h | h <;> omega)

theorem slotAlignment_pos : 0 < cfg.slotAlignment := Nat.two_pow_pos _

theorem slotAlignment_le : cfg.slotAlignment ≤ 128 :=
  (Nat.pow_le_pow_right (by norm_num) cfg.slot_le : 2^cfg.kSlotBound ≤ 2^7)

theorem size_dvd_word : cfg.size ∣ 2^cfg.wordBits :=
  pow_dvd_pow 2 (by have := cfg.size_lt; rcases cfg.word_eq with h | h <;> omega)

theorem size_dvd_handle : cfg.size ∣ 2^32 := pow_dvd_pow 2 (by have := cfg.size_lt; omega)

theorem pos_eq (ix : ℕ) : cfg.pos ix = ix % cfg.size := Nat.and_two_pow_sub_one_eq_mod ix _

theorem mask_eq (n : ℕ) : n &&& cfg.slotAlignmentMask = n % cfg.slotAlignment :=
  Nat.and_two_pow_sub_one_eq_mod n _

@[simp] theorem pos_mod_word (ix : ℕ) : cfg.pos (ix % 2^cfg.wordBits) = ix % cfg.size := by
  rw [pos_eq,Nat.mod_mod_of_dvd _ cfg.size_dvd_word]

@[simp] theorem add_mod_word (a b : ℕ) :
    cfg.add (a % 2^cfg.wordBits) b = (a+b) % 2^cfg.wordBits := by
  simp [add,Nat.add_mod]

theorem sub_mod_word {a b : ℕ} (hle : b ≤ a) (hlt : a-b < 2^cfg.wordBits) :
    cfg.sub (a % 2^cfg.wordBits) (b % 2^cfg.wordBits) = a-b := by
  obtain ⟨d,rfl⟩ := Nat.exists_eq_add_of_le hle
  rw [Nat.add_sub_cancel_left] at hlt ⊢
  have hb := Nat.mod_lt b (Nat.two_pow_pos cfg.wordBits)
  have hcancel : b % 2^cfg.wordBits+d+(2^cfg.wordBits-b % 2^cfg.wordBits) = d+2^cfg.wordBits := by
    omega
  calc cfg.sub ((b+d) % 2^cfg.wordBits) (b % 2^cfg.wordBits)
      = (b % 2^cfg.wordBits+d+(2^cfg.wordBits-b % 2^cfg.wordBits)) % 2^cfg.wordBits := by
        simp [sub,Nat.add_mod]
    _ = d := by rw [hcancel,Nat.add_mod_right,Nat.mod_eq_of_lt hlt]

theorem paddingSize_eq (n : ℕ) : cfg.paddingSize n =
    (n/cfg.slotAlignment + if n % cfg.slotAlignment ≠ 0 then 1 else 0)*cfg.slotAlignment := by
  rw [paddingSize,mask_eq,Nat.shiftRight_eq_div_pow,slotAlignment]

theorem le_paddingSize (n : ℕ) : n ≤ cfg.paddingSize n := by
  have hm := Nat.div_add_mod n cfg.slotAlignment
  have hl := Nat.mod_lt n cfg.slotAlignment_pos
  rw [paddingSize_eq,add_mul,mul_comm (n/_)]
  split <;> omega

theorem paddingSize_lt (n : ℕ) : cfg.paddingSize n < n+cfg.slotAlignment := by
  have hm := Nat.div_add_mod n cfg.slotAlignment
  have hp := cfg.slotAlignment_pos
  rw [paddingSize_eq,add_mul,mul_comm (n/_)]
  split <;> omega

theorem dvd_paddingSize (n : ℕ) : cfg.slotAlignment ∣ cfg.paddingSize n := by
  rw [paddingSize_eq]
  exact dvd_mul_left _ _

theorem dvd_prefixSize : cfg.slotAlignment ∣ cfg.prefixSize := cfg.dvd_paddingSize _

theorem dvd_kOverhead : cfg.slotAlignment ∣ cfg.kOverhead := by
  refine dvd_add cfg.dvd_prefixSize ?_
  unfold postfixSize
  split
  · exact cfg.dvd_paddingSize 4
  · exact dvd_zero _

theorem kOverhead_lt : cfg.kOverhead < 2*cfg.slotAlignment+14 := by
  have h₁ := cfg.paddingSize_lt 10
  have h₂ := cfg.paddingSize_lt 6
  have h₃ := cfg.paddingSize_lt 4
  have hp := cfg.slotAlignment_pos
  unfold kOverhead prefixSize postfixSize
  cases cfg.useGuard <;> simp <;> omega

theorem stateOffset_le : cfg.stateOffset+2 ≤ cfg.prefixSize := by
  have h := cfg.le_paddingSize (if cfg.useGuard then 10 else 6)
  unfold prefixSize stateOffset
  split at * <;> simp_all

theorem sizeOffset_le : cfg.sizeOffset+4 ≤ cfg.stateOffset := by
  unfold sizeOffset stateOffset
  split <;> simp

theorem guard_le_sizeOffset (h : cfg.useGuard = true) : 4 ≤ cfg.sizeOffset := by
  simp [sizeOffset,h]

theorem guard_le_postfixSize (h : cfg.useGuard = true) : 4 ≤ cfg.postfixSize := by
  have := cfg.le_paddingSize 4
  simpa [postfixSize,h] using this

end Config

variable {cfg : Config}

theorem roundUp_eq (size : ℕ) : roundUp cfg size =
    size+(cfg.slotAlignment-size % cfg.slotAlignment) % cfg.slotAlignment := by
  rw [roundUp,cfg.mask_eq,Nat.and_comm,cfg.mask_eq]

theorem roundUp_cases (size : ℕ) :
    (size % cfg.slotAlignment = 0 ∧ roundUp cfg size = size) ∨
    (size % cfg.slotAlignment ≠ 0 ∧
      roundUp cfg size = size+(cfg.slotAlignment-size % cfg.slotAlignment)) := by
  have hl := Nat.mod_lt size cfg.slotAlignment_pos
  rw [roundUp_eq]
  by_cases h : size % cfg.slotAlignment = 0
  · left; simp [h]
  · right; exact ⟨h,by rw [Nat.mod_eq_of_lt (by omega)]⟩

theorem le_roundUp (size : ℕ) : size ≤ roundUp cfg size := by
  rcases @roundUp_cases cfg size with ⟨_,h⟩ | ⟨_,h⟩ <;> omega

theorem roundUp_lt (size : ℕ) : roundUp cfg size < size+cfg.slotAlignment := by
  have hp := cfg.slotAlignment_pos
  rcases @roundUp_cases cfg size with ⟨_,h⟩ | ⟨_,h⟩ <;> omega

theorem dvd_roundUp (size : ℕ) : cfg.slotAlignment ∣ roundUp cfg size := by
  have hl := Nat.mod_lt size cfg.slotAlignment_pos
  have hd := Nat.div_add_mod size cfg.slotAlignment
  rcases @roundUp_cases cfg size with ⟨h,he⟩ | ⟨_,he⟩
  · rw [he]; exact Nat.dvd_of_mod_eq_zero h
  · refine ⟨size/cfg.slotAlignment+1,?_⟩
    rw [he,mul_add,mul_one]
    omega

/-- A well-formed header at `p`, as `writePrefix` leaves it. -/
structure HeaderAt (cfg : Config) (m : Mem) (p size : ℕ) (state : BlockState) : Prop where
  state_eq : readState cfg m p = state.code
  size_eq : readSize cfg m p = size
  guard : guardHolds cfg m p = true

theorem BlockState.code_lt (st : BlockState) : st.code < 256^2 := by cases st <;> decide

theorem BlockState.code_inj {a b : BlockState} (h : a.code = b.code) : a = b := by
  cases a <;> cases b <;> simp_all [BlockState.code]

theorem guardHolds_congr {m m' : Mem} {p : ℕ}
    (h : cfg.useGuard = true → ∀ i, p ≤ i → i < p+4 → m' i = m i) :
    guardHolds cfg m' p = guardHolds cfg m p := by
  unfold guardHolds
  cases hg : cfg.useGuard with
  | false => rfl
  | true => rw [loadLE_congr (h hg)]

theorem HeaderAt.congr {m m' : Mem} {p size : ℕ} {state : BlockState}
    (hh : HeaderAt cfg m p size state) (h : ∀ i, p ≤ i → i < p+cfg.prefixSize → m' i = m i) :
    HeaderAt cfg m' p size state := by
  have hs := cfg.stateOffset_le
  have hz := cfg.sizeOffset_le
  refine ⟨?_,?_,?_⟩
  · rw [← hh.state_eq]
    exact loadLE_congr fun i h₁ h₂ => h i (by omega) (by omega)
  · rw [← hh.size_eq]
    exact loadLE_congr fun i h₁ h₂ => h i (by omega) (by omega)
  · rw [← hh.guard]
    exact guardHolds_congr fun hg i h₁ h₂ => h i h₁ (by have := cfg.guard_le_sizeOffset hg; omega)

theorem guardHolds_writeGuard (m : Mem) (p : ℕ) : guardHolds cfg (writeGuard cfg m p) p = true := by
  unfold guardHolds writeGuard
  cases cfg.useGuard with
  | false => rfl
  | true => simp [kGuard,loadLE_storeLE_self]

theorem writeGuard_apply {m : Mem} {p i : ℕ}
    (h : cfg.useGuard = true → i < p ∨ p+4 ≤ i) : writeGuard cfg m p i = m i := by
  unfold writeGuard
  split
  · rename_i hg
    exact storeLE_apply_of_outside (h hg)
  · rfl

theorem writePrefix_apply {m : Mem} {p size i : ℕ} {state : BlockState}
    (h : i < p ∨ p+cfg.prefixSize ≤ i) : writePrefix cfg m p size state i = m i := by
  have hs := cfg.stateOffset_le
  have hz := cfg.sizeOffset_le
  unfold writePrefix
  rw [storeLE_apply_of_outside (by omega),storeLE_apply_of_outside (by omega),
    writeGuard_apply fun hg => by have := cfg.guard_le_sizeOffset hg; omega]

theorem headerAt_writePrefix {m : Mem} {p size : ℕ} {state : BlockState} (hsize : size < 2^32) :
    HeaderAt cfg (writePrefix cfg m p size state) p size state := by
  have hz := cfg.sizeOffset_le
  refine ⟨?_,?_,?_⟩
  · exact loadLE_storeLE_self state.code_lt
  · unfold readSize writePrefix
    rw [loadLE_storeLE_of_disjoint (by omega),loadLE_storeLE_self (by norm_num; omega)]
  · rw [← @guardHolds_writeGuard cfg m p]
    refine guardHolds_congr fun hg i h₁ h₂ => ?_
    have := cfg.guard_le_sizeOffset hg
    rw [writePrefix,storeLE_apply_of_outside (by omega),storeLE_apply_of_outside (by omega)]

theorem HeaderAt.setState {m : Mem} {p size : ℕ} {state state' : BlockState}
    (hh : HeaderAt cfg m p size state) :
    HeaderAt cfg (storeLE m (p+cfg.stateOffset) 2 state'.code) p size state' := by
  have hz := cfg.sizeOffset_le
  refine ⟨loadLE_storeLE_self state'.code_lt,?_,?_⟩
  · rw [← hh.size_eq]
    exact loadLE_storeLE_of_disjoint (by omega)
  · rw [← hh.guard]
    refine guardHolds_congr fun hg i h₁ h₂ => storeLE_apply_of_outside ?_
    have := cfg.guard_le_sizeOffset hg
    omega

/-- What lies between two consecutive block boundaries. -/
inductive Seg
  | filler (len : ℕ)
  | block (e : Entry)

namespace Seg

/-- Distance to the next segment. -/
def len (cfg : Config) : Seg → ℕ
  | .filler n => n
  | .block e => cfg.kOverhead+e.size

/-- How many of the segment's bytes carry meaning. -/
def foot (cfg : Config) : Seg → ℕ
  | .filler _ => cfg.prefixSize
  | .block e => cfg.kOverhead+e.size

def entry? : Seg → Option Entry
  | .filler _ => none
  | .block e => some e

/-- Segments the consumer steps over. -/
def Passed : Seg → Prop
  | .filler _ => True
  | .block e => e.state = .skipped

/-- The segment's bytes at address `p`, and what its producer knows of them. -/
def At (cfg : Config) (m : Mem) (p : ℕ) : Seg → Prop
  | .filler n => HeaderAt cfg m p n .fake
  | .block e => HeaderAt cfg m p e.size e.state ∧
      guardHolds cfg m (p+cfg.prefixSize+e.size) = true ∧
      e.ptr = p+cfg.prefixSize ∧ e.handle ≠ kInvalidHandle ∧ cfg.pos e.handle = p ∧
      e.state ≠ .fake ∧ ∀ off b, e.written off = some b → off < e.size ∧ m (e.ptr+off) = b

theorem At.congr {m m' : Mem} {p : ℕ} {s : Seg} (hs : s.At cfg m p)
    (h : ∀ i, p ≤ i → i < p+s.foot cfg → m' i = m i) : s.At cfg m' p := by
  cases s with
  | filler n => exact HeaderAt.congr hs h
  | block e =>
    simp only [foot,Config.kOverhead] at h
    obtain ⟨hh,hg,hp,hi,ha,hf,hw⟩ := hs
    refine ⟨hh.congr fun i h₁ h₂ => h i h₁ (by omega),?_,hp,hi,ha,hf,?_⟩
    · rw [← hg]
      refine guardHolds_congr fun hu i h₁ h₂ => h i (by omega) ?_
      have := cfg.guard_le_postfixSize hu
      omega
    · intro off b hb
      obtain ⟨hlt,hm⟩ := hw off b hb
      exact ⟨hlt,by rw [h _ (by omega) (by omega),hm]⟩

theorem At.write {m : Mem} {p off : ℕ} {e : Entry} {b : UInt8} (h : (Seg.block e).At cfg m p)
    (hoff : off < e.size) :
    (Seg.block { e with written := Function.update e.written off (some b) }).At cfg
      (store m (e.ptr+off) [b]) p := by
  obtain ⟨hh,hg,hptr,hinv,hpos,hfake,hw⟩ := h
  have hout : ∀ i, i ≠ e.ptr+off → store m (e.ptr+off) [b] i = m i := fun i hi =>
    store_apply_of_outside (by simp only [List.length_singleton]; omega)
  refine ⟨hh.congr fun i h₁ h₂ => hout i (by omega),?_,hptr,hinv,hpos,hfake,?_⟩
  · rw [← hg]
    exact guardHolds_congr fun _ i h₁ h₂ => hout i (by simp only at h₁; omega)
  · intro off' b' hb'
    by_cases ho : off' = off
    · subst ho
      obtain rfl : b = b' := by simpa using hb'
      exact ⟨hoff,store_apply_add (i:=0) (by simp)⟩
    · obtain ⟨hlt,hm⟩ := hw off' b' (by simpa [Function.update_of_ne ho] using hb')
      exact ⟨hlt,by rw [← hm]; exact hout _ (by simp only; omega)⟩

theorem At.settle {m : Mem} {p : ℕ} {e : Entry} {st : BlockState} (h : (Seg.block e).At cfg m p)
    (hst : st ≠ .fake) :
    (Seg.block { e with state := st }).At cfg (storeLE m (p+cfg.stateOffset) 2 st.code) p := by
  obtain ⟨hh,hg,hptr,hinv,hpos,-,hw⟩ := h
  have hs := cfg.stateOffset_le
  have hout : ∀ i, p+cfg.prefixSize ≤ i → storeLE m (p+cfg.stateOffset) 2 st.code i = m i :=
    fun i hi => storeLE_apply_of_outside (by omega)
  refine ⟨hh.setState,?_,hptr,hinv,hpos,hst,fun off b hb => ?_⟩
  · rw [← hg]
    exact guardHolds_congr fun _ i h₁ h₂ => hout i (by simp only at h₁; omega)
  · obtain ⟨hlt,hm⟩ := hw off b hb
    exact ⟨hlt,by rw [← hm]; exact hout _ (by simp only; omega)⟩

end Seg

/-- Total length of consecutive segments. -/
def segsLen (cfg : Config) (ss : List Seg) : ℕ := (ss.map (Seg.len cfg)).sum

@[simp] theorem segsLen_nil : segsLen cfg [] = 0 := rfl
@[simp] theorem segsLen_cons (s : Seg) (ss : List Seg) :
    segsLen cfg (s::ss) = s.len cfg+segsLen cfg ss := by simp [segsLen]
@[simp] theorem segsLen_append (ss ts : List Seg) :
    segsLen cfg (ss++ts) = segsLen cfg ss+segsLen cfg ts := by simp [segsLen]

/-- Segments laid out one after another from true index `x` on, each of them
inside the buffer without crossing its end. -/
def Chain (cfg : Config) (m : Mem) : ℕ → List Seg → Prop
  | _, [] => True
  | x, s::ss => s.At cfg m (x % cfg.size) ∧ x % cfg.size+s.len cfg ≤ cfg.size ∧
      0 < s.len cfg ∧ s.foot cfg ≤ s.len cfg ∧ Chain cfg m (x+s.len cfg) ss

theorem chain_append {m : Mem} {x : ℕ} {ss ts : List Seg} :
    Chain cfg m x (ss++ts) ↔ Chain cfg m x ss ∧ Chain cfg m (x+segsLen cfg ss) ts := by
  induction ss generalizing x with
  | nil => simp [Chain]
  | cons s ss ih => simp [Chain,ih,and_assoc,Nat.add_assoc]

/-- Two pieces of one window of `n` bytes keep apart modulo `n`, although the
window may run past the buffer's end. -/
theorem mod_disjoint {n x y a b : ℕ} (hxy : x+a ≤ y) (hwin : y+b ≤ x+n) :
    x % n+a ≤ y % n ∨ y % n+b ≤ x % n := by
  have hx := Nat.div_add_mod x n
  have hy := Nat.div_add_mod y n
  have hle : x/n ≤ y/n := Nat.div_le_div_right (by omega)
  obtain ⟨d,hd⟩ := Nat.exists_eq_add_of_le hle
  rw [hd,mul_add] at hy
  -- the window spans at most one buffer end, so the quotients differ by at most one
  rcases d with _ | d
  · left; omega
  · right
    have hd' : n ≤ n*(d+1) := Nat.le_mul_of_pos_right n (by omega)
    omega

/-- A store whose bytes lie in one piece of the window leaves the segments in the
rest of the window, and the payloads they hold, unchanged. -/
theorem Chain.frame {m m' : Mem} {x w y b : ℕ} {ss : List Seg}
    (hc : Chain cfg m x ss)
    (hm : ∀ i, i < y % cfg.size ∨ y % cfg.size+b ≤ i → m' i = m i)
    (hpos : (w ≤ x ∧ x+segsLen cfg ss ≤ y ∧ y+b ≤ w+cfg.size) ∨
      (w ≤ y ∧ y+b ≤ x ∧ x+segsLen cfg ss ≤ w+cfg.size)) :
    Chain cfg m' x ss ∧
    ∀ e ∈ ss.filterMap Seg.entry?, load m' e.ptr e.size = load m e.ptr e.size := by
  induction ss generalizing x with
  | nil => exact ⟨trivial,by simp⟩
  | cons s ss ih =>
    obtain ⟨hat,hfit,hlen,hfoot,htail⟩ := hc
    simp only [segsLen_cons] at hpos
    have hsame : ∀ i, x % cfg.size ≤ i → i < x % cfg.size+s.len cfg → m' i = m i := by
      intro i h₁ h₂
      refine hm i ?_
      rcases hpos with ⟨h₃,h₄,h₅⟩ | ⟨h₃,h₄,h₅⟩
      · have hd : x % cfg.size+s.len cfg ≤ y % cfg.size ∨ y % cfg.size+b ≤ x % cfg.size :=
          mod_disjoint (by omega) (by omega)
        omega
      · have hd : y % cfg.size+b ≤ x % cfg.size ∨ x % cfg.size+s.len cfg ≤ y % cfg.size :=
          mod_disjoint h₄ (by omega)
        omega
    obtain ⟨hrest,hload⟩ := ih htail (by
      rcases hpos with ⟨h₃,h₄,h₅⟩ | ⟨h₃,h₄,h₅⟩
      · left; omega
      · right; omega)
    refine ⟨⟨hat.congr fun i h₁ h₂ => hsame i h₁ (by omega),hfit,hlen,hfoot,hrest⟩,?_⟩
    intro e he
    obtain ⟨sg,hmem,hsg⟩ := List.mem_filterMap.mp he
    rcases List.mem_cons.mp hmem with rfl | hmem
    · cases sg with
      | filler n => simp [Seg.entry?] at hsg
      | block e' =>
        obtain rfl : e' = e := by simpa [Seg.entry?] using hsg
        have hptr := hat.2.2.1
        refine load_congr fun i h₁ h₂ => hsame i (by omega) ?_
        simp only [Seg.len,Config.kOverhead]
        omega
    · exact hload e (List.mem_filterMap.mpr ⟨sg,hmem,hsg⟩)

theorem Chain.congr_of_outside {m m' : Mem} {x w y b : ℕ} {ss : List Seg}
    (hc : Chain cfg m x ss)
    (hm : ∀ i, i < y % cfg.size ∨ y % cfg.size+b ≤ i → m' i = m i)
    (hpos : (w ≤ x ∧ x+segsLen cfg ss ≤ y ∧ y+b ≤ w+cfg.size) ∨
      (w ≤ y ∧ y+b ≤ x ∧ x+segsLen cfg ss ≤ w+cfg.size)) :
    Chain cfg m' x ss :=
  (hc.frame hm hpos).1

end RingBuffer
end SdkCp
