import SdkCp.BinarySerializerRoundTrip

/-! Inputs of any bytes: what the format puts where in an input, and what
`amtsDeserialize` reads and writes of it. Every access stays inside unless a
`wchar_t[N]` is met whose check lets through more than is left. -/
namespace SdkCp
namespace BinarySerializer

open Bytes

/-- What checks itself: a string of `count` characters, or an array in front of the
bytes that are left. -/
inductive Item
  | str (width : ℕ+) (count : ℕ)
  | warr (n : ℕ+) (left : List UInt8)

/-- `count` elements in turn. -/
def scanList (f : List UInt8 → List Item × Option (List UInt8)) :
    ℕ → List UInt8 → List Item × Option (List UInt8)
  | 0, bs => ([],some bs)
  | k+1, bs =>
    match f bs with
    | (items,none) => (items,none)
    | (items,some bs) => (items ++ (scanList f k bs).1,(scanList f k bs).2)

theorem scanList_succ {f : List UInt8 → List Item × Option (List UInt8)} {k : ℕ} {bs rest : List UInt8}
    (h : (f bs).2 = some rest) :
    scanList f (k+1) bs = ((f bs).1 ++ (scanList f k rest).1,(scanList f k rest).2) := by
  rw [scanList]
  generalize f bs = first at h
  obtain ⟨items,left⟩ := first
  obtain rfl := h
  rfl

/-- The format alone: the strings and arrays of a type in an input, in order, and the bytes
behind the value, if the input does not end before and the counts find memory. -/
def scan (cfg : Config) : Ty → List UInt8 → List Item × Option (List UInt8)
  | .pod n, bs => ([],if n % 2^32 ≤ bs.length then some (bs.drop (n % 2^32)) else none)
  | .str w, bs =>
    if bs.length < 8 then ([],none)
    else
      let count := ofLE (bs.take 8)
      let sz : ℕ := count*w % 2^64
      ([.str w count],if bs.length-8 < sz ∨ sz ≠ 0 ∧ cfg.canResize count = false then none
        else some (bs.drop (8+sz)))
  | .warr n, bs =>
    let sz : ℕ := if cfg.compact then 4+ofLE (bs.take 4)*cfg.wcharSize % 2^32 else n*cfg.wcharSize
    ([.warr n bs],if bs.length < sz ∨ cfg.compact = true ∧ n < ofLE (bs.take 4) then none
      else some (bs.drop sz))
  | .vec t, bs =>
    if bs.length < 8 ∨ cfg.canResize (ofLE (bs.take 8)) = false then ([],none)
    else scanList (scan cfg t) (ofLE (bs.take 8)) (bs.drop 8)

/-- An array is refused, or its characters are among the bytes left and, in the compact
build, the zero behind them has a place in the array. -/
def Item.Fits (cfg : Config) : Item → Prop
  | .str _ _ => True
  | .warr n left =>
    if cfg.compact then left.length < 4 ∨ n < ofLE (left.take 4) ∨
      ofLE (left.take 4) < n ∧ 4+ofLE (left.take 4)*cfg.wcharSize % 2^32 ≤ left.length
    else left.length < n ∨ n*cfg.wcharSize ≤ left.length

instance (cfg : Config) : DecidablePred (Item.Fits cfg)
  | .str _ _ => .isTrue trivial
  | .warr n left =>
    match h : cfg.compact with
    | true => decidable_of_iff (left.length < 4 ∨ n < ofLE (left.take 4) ∨
        ofLE (left.take 4) < n ∧ 4+ofLE (left.take 4)*cfg.wcharSize % 2^32 ≤ left.length)
        (by simp [Item.Fits,h])
    | false => decidable_of_iff (left.length < n ∨ n*cfg.wcharSize ≤ left.length)
        (by simp [Item.Fits,h])

/-- A buffer and its size. -/
def Input.all (bs : List UInt8) : Input := ⟨bs,bs.length⟩

/-- The call stays inside the buffer and the destination and takes off `size` what it has
consumed. -/
def Bounded (cfg : Config) (t : Ty) (d : Val cfg t) (bs : List UInt8) : Prop :=
  ∃ b d' n, n ≤ bs.length ∧ amtsDeserialize cfg t d (.all bs) = .ret b d' ⟨bs.drop n,bs.length-n⟩

variable {cfg : Config}

theorem take_all {bs : List UInt8} {n : ℕ} (hlt : bs.length < 2^32) :
    (Input.all bs).take n = if n ≤ bs.length then some (bs.take n,.all (bs.drop n)) else none := by
  split
  · rename_i hn
    have hl : (bs.take n).length = n := List.length_take_of_le hn
    have htake := take_of (bs.take n) (bs.drop n) hl (by rw [hl,List.length_drop]; omega)
    rw [Input.of,List.take_append_drop,hl,List.length_drop,Nat.add_sub_cancel' hn] at htake
    rw [Input.all,htake,Input.all,List.length_drop]
  · rename_i hn
    exact if_neg hn

theorem deserializePod_all {bs dest : List UInt8} {n : ℕ} (hlt : bs.length < 2^32) :
    deserializePod n dest (.all bs) =
      if n % 2^32 ≤ bs.length then
        .ret true (bs.take (n % 2^32) ++ dest.drop (n % 2^32)) (.all (bs.drop (n % 2^32)))
      else .ret false dest (.all bs) := by
  simp only [deserializePod,take_all hlt,ge_iff_le]
  change (if n % 2^32 ≤ bs.length then _ else _) = _
  split
  · rfl
  · rfl

theorem deserializeCount_all {bs : List UInt8} (hlt : bs.length < 2^32) :
    deserializeCount (.all bs) =
      if bs.length < 8 then .ret false 0 (.all bs)
      else .ret true (ofLE (bs.take 8)) (.all (bs.drop 8)) := by
  simp only [deserializeCount,deserializePod_all hlt]
  change (if bs.length < 8 then _ else _) = _
  split
  · rfl
  · rename_i hlt
    rw [if_pos (by omega)]
    simp

/-- `amtsDeserialize` follows the format: where all items fit, it returns what `scan` says
and keeps the counter right; where one does not, it leaves the buffer or the destination. -/
structure Follows (α : Type) (items : List Item × Option (List UInt8)) (bs : List UInt8)
    (cfg : Config) (out : Outcome α) : Prop where
  inside : (∀ item ∈ items.1, item.Fits cfg) → ∃ b d n, n ≤ bs.length ∧
    out = .ret b d (.all (bs.drop n)) ∧ items.2 = if b then some (bs.drop n) else none
  outside : (∃ item ∈ items.1, ¬item.Fits cfg) → out = .fault

theorem follows_pod {n : ℕ+} (d : Val cfg (.pod n)) {bs : List UInt8} (hlt : bs.length < 2^32) :
    Follows _ (scan cfg (.pod n) bs) bs cfg (amtsDeserialize cfg (.pod n) d (.all bs)) where
  inside _ := by
    simp only [amtsDeserialize,deserializePod_all hlt,scan]
    by_cases hn : (n : ℕ) % 2^32 ≤ bs.length
    · rw [if_pos hn,if_pos hn]
      exact ⟨true,_,(n : ℕ) % 2^32,hn,rfl,rfl⟩
    · rw [if_neg hn,if_neg hn]
      exact ⟨false,_,0,Nat.zero_le _,rfl,rfl⟩
  outside h := by simp [scan] at h

theorem follows_str {w : ℕ+} (d : Val cfg (.str w)) {bs : List UInt8} (hlt : bs.length < 2^32) :
    Follows _ (scan cfg (.str w) bs) bs cfg (amtsDeserialize cfg (.str w) d (.all bs)) where
  inside _ := by
    simp only [amtsDeserialize,deserializeCount_all hlt,scan]
    by_cases hhead : bs.length < 8
    · rw [if_pos hhead,if_pos hhead]
      exact ⟨false,d,0,Nat.zero_le _,rfl,rfl⟩
    · rw [if_neg hhead,if_neg hhead]
      have hdrop : (bs.drop 8).length = bs.length-8 := List.length_drop
      set count := ofLE (bs.take 8)
      set sz : ℕ := count*w % 2^64
      change ∃ b d' n, n ≤ bs.length ∧ (if (bs.drop 8).length < sz then _ else _) = _ ∧ _
      rw [hdrop]
      by_cases hsz : bs.length-8 < sz
      · rw [if_pos hsz,if_pos (.inl hsz)]
        exact ⟨false,d,8,by omega,rfl,rfl⟩
      rw [if_neg hsz]
      by_cases hzero : sz = 0
      · rw [if_pos hzero,if_neg (by simp [hzero])]
        exact ⟨true,d,8,by omega,rfl,by simp [hzero]⟩
      rw [if_neg hzero]
      by_cases hfit : cfg.canResize count = false
      · rw [if_pos hfit,if_pos (.inr ⟨hzero,hfit⟩)]
        exact ⟨false,d,8,by omega,rfl,rfl⟩
      · rw [if_neg hfit,if_neg (by simp [hsz,hfit]),take_all (by omega),if_pos (by omega)]
        exact ⟨true,_,8+sz,by omega,by rw [List.drop_drop],rfl⟩
  outside h := by
    simp only [scan] at h
    split at h <;> simp [Item.Fits] at h

theorem follows_warr {n : ℕ+} (d : Val cfg (.warr n)) {bs : List UInt8} (hlt : bs.length < 2^32) :
    Follows _ (scan cfg (.warr n) bs) bs cfg (amtsDeserialize cfg (.warr n) d (.all bs)) := by
  have hw := cfg.wcharSize.pos
  cases hc : cfg.compact with
  | false =>
    have hn : (n : ℕ) ≤ n*cfg.wcharSize := Nat.le_mul_of_pos_right _ hw
    have hsize : (Input.all bs).size = bs.length := rfl
    simp only [amtsDeserialize,scan,hc,Bool.false_eq_true,if_false,false_and,or_false,hsize,ge_iff_le,
      take_all hlt]
    refine ⟨fun hfit => ?_,fun hout => ?_⟩
    · simp only [List.mem_singleton,forall_eq,Item.Fits,hc,Bool.false_eq_true,if_false] at hfit
      rcases hfit with hfit | hfit
      · rw [if_neg (by omega),if_pos (by omega)]
        exact ⟨false,d,0,Nat.zero_le _,rfl,rfl⟩
      · rw [if_pos (by omega),if_pos hfit,if_neg (by omega)]
        exact ⟨true,_,n*cfg.wcharSize,hfit,rfl,rfl⟩
    · simp only [List.mem_singleton,exists_eq_left,Item.Fits,hc,Bool.false_eq_true,if_false,
        not_or,not_lt,not_le] at hout
      rw [if_pos hout.1,if_neg (by omega)]
  | true =>
    have hdrop : (bs.drop 4).length = bs.length-4 := List.length_drop
    simp only [amtsDeserialize,scan,hc,if_true,true_and,deserializePod_all hlt]
    set count := ofLE (bs.take 4) with hcount
    set sz : ℕ := count*cfg.wcharSize % 2^32 with hsz
    refine ⟨fun hfit => ?_,fun hout => ?_⟩
    · simp only [List.mem_singleton,forall_eq,Item.Fits,hc,if_true,← hcount,← hsz] at hfit
      by_cases hhead : bs.length < 4
      · rw [if_neg (by omega),if_pos (by omega)]
        exact ⟨false,d,0,Nat.zero_le _,rfl,rfl⟩
      rw [if_pos (by omega)]
      simp only [show 4 % 2^32 = 4 from rfl,List.drop_nil,List.append_nil,← hcount,← hsz]
      rcases hfit.resolve_left hhead with hmany | ⟨hfew,hroom⟩
      · rw [if_neg (by omega),if_pos (.inr hmany)]
        exact ⟨false,d,4,by omega,rfl,rfl⟩
      · rw [if_pos hfew.le,take_all (by omega),if_pos (by omega),if_neg (by omega)]
        simp only [hfew.ne,if_false]
        exact ⟨true,_,4+sz,hroom,by rw [List.drop_drop],rfl⟩
    · simp only [List.mem_singleton,exists_eq_left,Item.Fits,hc,if_true,← hcount,← hsz,not_or,not_and,
        not_lt,not_le] at hout
      obtain ⟨hhead,hcn,hroom⟩ := hout
      rw [if_pos (by omega)]
      simp only [show 4 % 2^32 = 4 from rfl,List.drop_nil,List.append_nil,← hcount,← hsz]
      rw [if_pos hcn,take_all (by omega)]
      by_cases hread : sz ≤ (bs.drop 4).length
      · -- the characters are there, the zero is written behind the array
        rw [if_pos hread]
        simp only [show count = n by omega,if_true]
      · rw [if_neg hread]

theorem follows_list {α : Type} {f : α → Input → Outcome α}
    {g : List UInt8 → List Item × Option (List UInt8)}
    (hf : ∀ d bs, bs.length < 2^32 → Follows α (g bs) bs cfg (f d (.all bs))) (ds : List α)
    {bs : List UInt8} (hlt : bs.length < 2^32) :
    Follows _ (scanList g ds.length bs) bs cfg (deserializeList f ds (.all bs)) := by
  induction ds generalizing bs with
  | nil =>
    exact ⟨fun _ => ⟨true,[],0,Nat.zero_le _,rfl,rfl⟩,fun h => by simp [scanList] at h⟩
  | cons d ds ih =>
    have hfirst := hf d bs hlt
    rw [List.length_cons,scanList,deserializeList]
    generalize g bs = first at hfirst ⊢
    obtain ⟨items,left⟩ := first
    obtain ⟨hinside,houtside⟩ := hfirst
    by_cases hfit : ∀ item ∈ items, item.Fits cfg
    · obtain ⟨b,d',n,hn,hout,rfl⟩ := hinside hfit
      rw [hout]
      cases b with
      | false =>
        refine ⟨fun _ => ⟨false,d'::ds,n,hn,rfl,rfl⟩,fun hbad => ?_⟩
        obtain ⟨item,hmem,hbad⟩ := hbad
        exact absurd (hfit item hmem) hbad
      | true =>
        obtain ⟨hinside,houtside⟩ := @ih (bs.drop n) (by rw [List.length_drop]; omega)
        refine ⟨fun hall => ?_,fun hbad => ?_⟩
        · obtain ⟨b,ds',k,hk,hout,hleft⟩ := hinside fun item hmem =>
            hall item (List.mem_append_right _ hmem)
          rw [List.length_drop] at hk
          rw [List.drop_drop] at hout hleft
          exact ⟨b,d'::ds',n+k,by omega,by simp only [hout],hleft⟩
        · obtain ⟨item,hmem,hbad⟩ := hbad
          rcases List.mem_append.mp hmem with hmem | hmem
          · exact absurd (hfit item hmem) hbad
          · simp only [houtside ⟨item,hmem,hbad⟩]
    · simp only [not_forall] at hfit
      obtain ⟨item,hmem,hbad⟩ := hfit
      rw [houtside ⟨item,hmem,hbad⟩]
      cases left with
      | none => exact ⟨fun hall => absurd (hall item hmem) hbad,fun _ => rfl⟩
      | some rest =>
        exact ⟨fun hall => absurd (hall item (List.mem_append_left _ hmem)) hbad,fun _ => rfl⟩

theorem follows_vec {t : Ty} (hf : ∀ (d : Val cfg t) bs, bs.length < 2^32 →
      Follows _ (scan cfg t bs) bs cfg (amtsDeserialize cfg t d (.all bs)))
    (d : Val cfg (.vec t)) {bs : List UInt8} (hlt : bs.length < 2^32) :
    Follows _ (scan cfg (.vec t) bs) bs cfg (amtsDeserialize cfg (.vec t) d (.all bs)) := by
  simp only [amtsDeserialize,deserializeCount_all hlt,scan]
  by_cases hhead : bs.length < 8
  · rw [if_pos hhead,if_pos (.inl hhead)]
    exact ⟨fun _ => ⟨false,d,0,Nat.zero_le _,rfl,rfl⟩,fun h => by simp at h⟩
  rw [if_neg hhead]
  set count := ofLE (bs.take 8)
  by_cases hfit : cfg.canResize count = false
  · rw [if_pos (.inr hfit)]
    dsimp only
    rw [if_pos hfit]
    exact ⟨fun _ => ⟨false,d,8,by omega,rfl,rfl⟩,fun h => by simp at h⟩
  · rw [if_neg (by simp [hhead,hfit])]
    dsimp only
    rw [if_neg hfit]
    have hlist := follows_list hf (resize d count (Val.default cfg t))
      (show (bs.drop 8).length < 2^32 by rw [List.length_drop]; omega)
    rw [resize_length] at hlist
    refine ⟨fun hall => ?_,hlist.outside⟩
    obtain ⟨b,d',n,hn,hout,hleft⟩ := hlist.inside hall
    rw [List.length_drop] at hn
    rw [List.drop_drop] at hout hleft
    exact ⟨b,d',8+n,by omega,hout,hleft⟩

theorem follows {t : Ty} (d : Val cfg t) {bs : List UInt8} (hlt : bs.length < 2^32) :
    Follows _ (scan cfg t bs) bs cfg (amtsDeserialize cfg t d (.all bs)) := by
  induction t generalizing bs with
  | pod n => exact follows_pod d hlt
  | str w => exact follows_str d hlt
  | warr n => exact follows_warr d hlt
  | vec t ih => exact follows_vec (fun d _ hlt => ih d hlt) d hlt

/-- The reading of any input of any size stays inside the buffer and the destination, and
counts down what it consumes, exactly when each array that the format puts into the input is
refused or fits. -/
theorem bounded_iff {t : Ty} (d : Val cfg t) {bs : List UInt8} (hlt : bs.length < 2^32) :
    Bounded cfg t d bs ↔ ∀ item ∈ (scan cfg t bs).1, item.Fits cfg := by
  have hfollows := follows d hlt
  constructor
  · rintro ⟨b,d',n,-,hout⟩ item hmem
    by_contra hbad
    rw [hfollows.outside ⟨item,hmem,hbad⟩] at hout
    cases hout
  · intro hfit
    obtain ⟨b,d',n,hn,hout,-⟩ := hfollows.inside hfit
    exact ⟨b,d',n,hn,by rw [hout,Input.all,List.length_drop]⟩

/-- Two arrays of two characters in a vector, with room for both. -/
theorem bounded_iff_two :
    let cfg : Config := ⟨false,4,fun n => n < 2^32⟩
    Bounded cfg (.vec (.warr 2)) [] (leBytes 8 2 ++ List.replicate 16 65) := by
  intro cfg
  refine (@bounded_iff cfg _ _ _ (by decide)).mpr ?_
  decide

/-- Two bytes for an array of two characters of four bytes: the bytes left are compared
with the number of characters. -/
theorem not_bounded_short : ¬∀ (cfg : Config) t (d : Val cfg t) bs, bs.length < 2^32 →
    Bounded cfg t d bs := by
  intro hall
  let cfg : Config := ⟨false,4,fun n => n < 2^32⟩
  obtain ⟨b,d',n,-,hout⟩ := hall cfg (.warr 2) (Val.default cfg (.warr 2)) [65,66] (by decide)
  have hfault := (@follows cfg _ (Val.default cfg (.warr 2)) [65,66] (by decide)).outside
    ⟨.warr 2 [65,66],by simp [scan],by decide⟩
  rw [hfault] at hout
  cases hout

end BinarySerializer
end SdkCp
