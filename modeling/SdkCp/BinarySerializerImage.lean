import SdkCp.BinarySerializerInput

/-! What `amtsDeserialize` accepts, against what `amtsSerialize` writes. A string header
with a count whose size in bytes has more than 64 bits is accepted and is not what is
written for the string read. -/
namespace SdkCp
namespace BinarySerializer

open Bytes

/-- PODs, strings, and vectors of these at any depth: the grammar without `wchar_t[N]`. -/
def Ty.isPlain : Ty → Bool
  | .pod _ => true
  | .str _ => true
  | .warr _ => false
  | .vec t => t.isPlain

/-- The size of the characters does not wrap. -/
def Item.Exact : Item → Prop
  | .str w count => count*w < 2^64
  | .warr _ _ => True

/-- What `amtsDeserialize` accepts from an input into a default-constructed destination,
`amtsSerialize` writes again. -/
def AcceptsEncodings (cfg : Config) (t : Ty) (bs : List UInt8) : Prop :=
  ∀ v n, n ≤ bs.length →
    amtsDeserialize cfg t (Val.default cfg t) (.all bs) = .ret true v (.all (bs.drop n)) →
    ∀ out : Output, n ≤ out.size → amtsSerialize cfg t v out = (true,out.put (bs.take n))

variable {cfg : Config}

theorem fits_scanList {f : List UInt8 → List Item × Option (List UInt8)}
    (hf : ∀ bs, ∀ item ∈ (f bs).1, item.Fits cfg) (k : ℕ) (bs : List UInt8) :
    ∀ item ∈ (scanList f k bs).1, item.Fits cfg := by
  induction k generalizing bs with
  | zero => simp [scanList]
  | succ k ih =>
    intro item hmem
    have hfirst := hf bs
    rw [scanList] at hmem
    split at hmem
    · rename_i hscan
      rw [hscan] at hfirst
      exact hfirst item hmem
    · rename_i hscan
      rw [hscan] at hfirst
      rcases List.mem_append.mp hmem with hmem | hmem
      · exact hfirst item hmem
      · exact ih _ item hmem

theorem fits_of_isPlain {t : Ty} (ht : t.isPlain = true) (bs : List UInt8) :
    ∀ item ∈ (scan cfg t bs).1, item.Fits cfg := by
  induction t generalizing bs with
  | pod n => simp [scan]
  | str w =>
    intro item hmem
    rw [scan] at hmem
    split at hmem
    · simp at hmem
    · rw [List.mem_singleton.mp hmem]
      trivial
  | warr n => simp [Ty.isPlain] at ht
  | vec t ih =>
    rw [scan]
    split
    · simp
    · exact fits_scanList (fun bs => ih ht bs) _ _

theorem drop_inj {bs : List UInt8} {m n : ℕ} (hm : m ≤ bs.length) (hn : n ≤ bs.length)
    (h : Input.all (bs.drop m) = Input.all (bs.drop n)) : m = n := by
  have hlen := congrArg Input.size h
  simp only [Input.all,List.length_drop] at hlen
  omega

theorem flat_unflat {n k : ℕ} {bs : List UInt8} (h : bs.length = k*n) : flat (unflat n k bs) = bs := by
  induction k generalizing bs with
  | zero =>
    rw [Nat.zero_mul] at h
    rw [List.length_eq_zero_iff.mp h]
    rfl
  | succ k ih =>
    have hlen : bs.length = k*n+n := by rw [h,Nat.succ_mul]
    have hval : (Chunk.ofBytes n bs).val = bs.take n := by
      simp only [Chunk.ofBytes]
      rw [Nat.sub_eq_zero_of_le (by omega),List.replicate_zero,List.append_nil]
    have hrest := @ih (bs.drop n) (by rw [List.length_drop]; omega)
    simp only [flat] at hrest
    rw [unflat,flat,List.flatMap_cons,hval,hrest,List.take_append_drop]

/-- The bytes read are those that are written for the value read, as far as there are
string headers that do not wrap; a header that does makes them fewer or different. -/
structure Image (items : List Item) (bs written : List UInt8) (n : ℕ) : Prop where
  le : n ≤ written.length
  iff_exact : written = bs.take n ↔ ∀ item ∈ items, item.Exact

theorem image_pod {w : ℕ+} {bs : List UInt8} (hlt : bs.length < 2^32) {v : Val cfg (.pod w)} {n : ℕ}
    (hn : n ≤ bs.length) {d : Val cfg (.pod w)}
    (h : amtsDeserialize cfg (.pod w) d (.all bs) = .ret true v (.all (bs.drop n))) :
    Image (scan cfg (.pod w) bs).1 bs (wire cfg (.pod w) v) n := by
  simp only [amtsDeserialize,deserializePod_all hlt] at h
  by_cases hm : (w : ℕ) % 2^32 ≤ bs.length
  · rw [if_pos hm] at h
    simp only [Outcome.ret.injEq,true_and] at h
    obtain ⟨rfl,hrest⟩ := h
    obtain rfl := drop_inj hm hn hrest
    have hmw : (w : ℕ) % 2^32 ≤ w := Nat.mod_le _ _
    have hl : (bs.take (w % 2^32)).length = w % 2^32 := List.length_take_of_le hm
    have hwire : wire cfg (.pod w) (Chunk.ofBytes w (bs.take (w % 2^32) ++ d.val.drop (w % 2^32))) =
        bs.take (w % 2^32) := by
      have hval : (bs.take (w % 2^32) ++ d.val.drop (w % 2^32)).length = w := by
        rw [List.length_append,hl,List.length_drop,d.property]
        omega
      simp only [wire,Chunk.ofBytes]
      rw [List.take_of_length_le hval.le,List.append_assoc,List.take_left' hl]
    rw [hwire]
    exact ⟨hl.ge,by simp [scan]⟩
  · rw [if_neg hm] at h
    simp at h

theorem image_str {w : ℕ+} {bs : List UInt8} (hlt : bs.length < 2^32) {v : Val cfg (.str w)} {n : ℕ}
    (hn : n ≤ bs.length)
    (h : amtsDeserialize cfg (.str w) [] (.all bs) = .ret true v (.all (bs.drop n))) :
    Image (scan cfg (.str w) bs).1 bs (wire cfg (.str w) v) n := by
  simp only [amtsDeserialize,deserializeCount_all hlt] at h
  by_cases hhead : bs.length < 8
  · simp [hhead] at h
  rw [if_neg hhead] at h
  have hscan : (scan cfg (.str w) bs).1 = [.str w (ofLE (bs.take 8))] := by
    rw [scan,if_neg hhead]
  have hl : (bs.take 8).length = 8 := List.length_take_of_le (by omega)
  have hbytes : leBytes 8 (ofLE (bs.take 8)) = bs.take 8 := by
    have := leBytes_ofLE (bs.take 8)
    rwa [hl] at this
  have hdrop : (bs.drop 8).length = bs.length-8 := List.length_drop
  have hcount : ofLE (bs.take 8) < 2^64 := by
    have := ofLE_lt (bs.take 8)
    rw [hl] at this
    omega
  rw [hscan]
  generalize ofLE (bs.take 8) = count at *
  dsimp only at h
  set sz : ℕ := count*w % 2^64 with hsz
  have hexact : (∀ item ∈ [Item.str w count],item.Exact) ↔ count*w < 2^64 := by simp [Item.Exact]
  split at h
  · simp at h
  rename_i hroom
  change ¬(bs.drop 8).length < sz at hroom
  split at h
  · -- the string stays empty
    rename_i hzero
    simp only [Outcome.ret.injEq,true_and] at h
    obtain ⟨rfl,hrest⟩ := h
    obtain rfl := drop_inj (by omega) hn hrest
    have hwire : wire cfg (.str w) [] = leBytes 8 0 := by simp [wire,flat]
    refine ⟨by rw [hwire,leBytes_length],?_⟩
    rw [hwire,hexact,← hbytes]
    constructor
    · intro heq
      have hval := congrArg ofLE heq
      rw [ofLE_leBytes 8 0 (by norm_num),ofLE_leBytes 8 count hcount] at hval
      rw [← hval]
      norm_num
    · intro hsmall
      rw [Nat.mod_eq_of_lt hsmall] at hsz
      have hzero' : count*(w : ℕ) = 0 := hsz ▸ hzero
      rw [(Nat.mul_eq_zero.mp hzero').resolve_right w.pos.ne']
  split at h
  · simp at h
  rw [take_all (by omega),if_pos (by omega)] at h
  simp only [Outcome.ret.injEq,true_and,List.drop_drop] at h
  obtain ⟨rfl,hrest⟩ := h
  obtain rfl := drop_inj (by omega) hn hrest
  have hread : ((bs.drop 8).take sz).length = sz := List.length_take_of_le (by omega)
  have hmod : sz ≤ count*w := Nat.mod_le _ _
  have hfill : (flat (resize ([] : List (Chunk w)) count (Chunk.ofBytes w []))).length = count*w := by
    rw [flat_length,resize_length]
  set chars := (bs.drop 8).take sz ++
    (flat (resize ([] : List (Chunk w)) count (Chunk.ofBytes w []))).drop sz with hchars
  have hlen : chars.length = count*w := by
    rw [hchars,List.length_append,hread,List.length_drop,hfill]
    omega
  have hwire : wire cfg (.str w) (unflat w count chars) = bs.take 8 ++ chars := by
    rw [wire,unflat_length,hbytes,flat_unflat hlen]
  have htake : bs.take (8+sz) = bs.take 8 ++ (bs.drop 8).take sz := List.take_add
  rw [hwire]
  refine ⟨by rw [List.length_append,hl,hlen]; omega,?_⟩
  rw [hexact,htake]
  constructor
  · intro heq
    have hlens := congrArg List.length (List.append_cancel_left heq)
    rw [hlen,hread,hsz] at hlens
    rw [hlens]
    exact Nat.mod_lt _ (by norm_num)
  · intro hsmall
    have hfull : sz = count*w := Nat.mod_eq_of_lt hsmall
    rw [hchars,List.drop_eq_nil_of_le (hfill.le.trans hfull.ge),List.append_nil]

theorem Image.append {items items' : List Item} {bs x y : List UInt8} {m n : ℕ}
    (hx : Image items bs x m) (hy : Image items' (bs.drop m) y n) (hm : m ≤ bs.length) (hmn : m+n ≤ bs.length) :
    Image (items ++ items') bs (x ++ y) (m+n) := by
  have hxle := hx.le
  have hyle := hy.le
  refine ⟨by rw [List.length_append]; omega,?_⟩
  have hboth : (∀ item ∈ items ++ items',item.Exact) ↔
      (∀ item ∈ items,item.Exact) ∧ ∀ item ∈ items',item.Exact := by
    simp [or_imp,forall_and]
  rw [hboth,← hx.iff_exact,← hy.iff_exact,List.take_add]
  constructor
  · intro heq
    -- neither part is shorter than what was read for it, so neither is longer
    have hlens := congrArg List.length heq
    simp only [List.length_append,List.length_take,List.length_drop] at hlens
    exact List.append_inj heq (by rw [List.length_take]; omega)
  · rintro ⟨rfl,rfl⟩
    rfl

theorem image_list {t : Ty} (ht : t.isPlain = true)
    (himage : ∀ {bs : List UInt8}, bs.length < 2^32 → ∀ {v : Val cfg t} {n : ℕ}, n ≤ bs.length →
      amtsDeserialize cfg t (Val.default cfg t) (.all bs) = .ret true v (.all (bs.drop n)) →
      Image (scan cfg t bs).1 bs (wire cfg t v) n)
    (k : ℕ) {bs : List UInt8} (hlt : bs.length < 2^32) {vs : List (Val cfg t)} {n : ℕ} (hn : n ≤ bs.length)
    (h : deserializeList (amtsDeserialize cfg t) (List.replicate k (Val.default cfg t)) (.all bs) =
      .ret true vs (.all (bs.drop n))) :
    vs.length = k ∧ Image (scanList (scan cfg t) k bs).1 bs (vs.flatMap (wire cfg t)) n := by
  induction k generalizing bs vs n with
  | zero =>
    simp only [List.replicate_zero,deserializeList,Outcome.ret.injEq,true_and] at h
    obtain ⟨rfl,hrest⟩ := h
    obtain rfl := drop_inj (Nat.zero_le _) hn hrest
    exact ⟨rfl,Nat.zero_le _,by simp [scanList]⟩
  | succ k ih =>
    rw [List.replicate_succ,deserializeList] at h
    obtain ⟨b,v,m,hm,hv,hleft⟩ := (follows (Val.default cfg t) hlt).inside (fits_of_isPlain ht bs)
    rw [hv] at h
    cases b with
    | false => simp at h
    | true =>
      have hdrop : (bs.drop m).length = bs.length-m := List.length_drop
      have hlt' : (bs.drop m).length < 2^32 := by omega
      have hloop := follows_list (fun d bs hlt => @follows cfg t d bs hlt)
        (List.replicate k (Val.default cfg t)) hlt'
      obtain ⟨b,ws,l,hl,hws,-⟩ := hloop.inside (fits_scanList (fits_of_isPlain ht) _ _)
      rw [List.drop_drop] at hws
      simp only [hws,Outcome.ret.injEq] at h
      obtain ⟨rfl,rfl,hrest⟩ := h
      obtain rfl := drop_inj (by omega) hn hrest
      rw [← List.drop_drop] at hws
      obtain ⟨hlen,himg⟩ := ih hlt' hl hws
      refine ⟨by rw [List.length_cons,hlen],?_⟩
      rw [scanList_succ hleft,List.flatMap_cons]
      exact (himage hlt hm hv).append himg hm (by omega)

theorem image_vec {t : Ty} (ht : t.isPlain = true)
    (himage : ∀ {bs : List UInt8}, bs.length < 2^32 → ∀ {v : Val cfg t} {n : ℕ}, n ≤ bs.length →
      amtsDeserialize cfg t (Val.default cfg t) (.all bs) = .ret true v (.all (bs.drop n)) →
      Image (scan cfg t bs).1 bs (wire cfg t v) n)
    {bs : List UInt8} (hlt : bs.length < 2^32) {v : Val cfg (.vec t)} {n : ℕ} (hn : n ≤ bs.length)
    (h : amtsDeserialize cfg (.vec t) [] (.all bs) = .ret true v (.all (bs.drop n))) :
    Image (scan cfg (.vec t) bs).1 bs (wire cfg (.vec t) v) n := by
  simp only [amtsDeserialize,deserializeCount_all hlt] at h
  by_cases hhead : bs.length < 8
  · simp [hhead] at h
  rw [if_neg hhead] at h
  dsimp only at h
  split at h
  · simp at h
  rename_i hfit
  have hscan : (scan cfg (.vec t) bs).1 = [] ++ (scanList (scan cfg t) (ofLE (bs.take 8)) (bs.drop 8)).1 := by
    rw [scan,if_neg (by simp [hhead,hfit]),List.nil_append]
  have hresize : resize ([] : List (Val cfg t)) (ofLE (bs.take 8)) (Val.default cfg t) =
      List.replicate (ofLE (bs.take 8)) (Val.default cfg t) := by simp [resize]
  have hdrop : (bs.drop 8).length = bs.length-8 := List.length_drop
  have hloop := follows_list (fun d bs hlt => @follows cfg t d bs hlt)
    (List.replicate (ofLE (bs.take 8)) (Val.default cfg t)) (by omega : (bs.drop 8).length < 2^32)
  obtain ⟨b,ws,l,hl,hws,-⟩ := hloop.inside (fits_scanList (fits_of_isPlain ht) _ _)
  rw [hresize,hws] at h
  simp only [Outcome.ret.injEq,List.drop_drop] at h
  obtain ⟨rfl,rfl,hrest⟩ := h
  obtain rfl := drop_inj (by omega) hn hrest
  obtain ⟨hlen,himg⟩ := image_list ht himage _ (by omega) hl hws
  have hl8 : (bs.take 8).length = 8 := List.length_take_of_le (by omega)
  have hbytes := leBytes_ofLE (bs.take 8)
  rw [hl8] at hbytes
  have hcount : Image [] bs (bs.take 8) 8 := ⟨hl8.ge,by simp⟩
  rw [hscan,wire,hlen,hbytes]
  exact hcount.append himg (by omega) (by omega)

theorem image {t : Ty} (ht : t.isPlain = true) {bs : List UInt8} (hlt : bs.length < 2^32)
    {v : Val cfg t} {n : ℕ} (hn : n ≤ bs.length)
    (h : amtsDeserialize cfg t (Val.default cfg t) (.all bs) = .ret true v (.all (bs.drop n))) :
    Image (scan cfg t bs).1 bs (wire cfg t v) n := by
  induction t generalizing bs n with
  | pod w => exact image_pod hlt hn h
  | str w => exact image_str hlt hn h
  | warr n => simp [Ty.isPlain] at ht
  | vec t ih =>
    have ht' : t.isPlain = true := ht
    exact image_vec ht' (fun hlt _ _ hn h => ih ht' hlt hn h) hlt hn h

/-- An input is accepted only as an encoding exactly when, where the format reaches behind
the value, no string header on the way wraps. -/
theorem acceptsEncodings_iff {t : Ty} (ht : t.isPlain = true) {bs : List UInt8} (hlt : bs.length < 2^32) :
    AcceptsEncodings cfg t bs ↔
      ((scan cfg t bs).2.isSome = true → ∀ item ∈ (scan cfg t bs).1, item.Exact) := by
  constructor
  · intro hall hsome
    obtain ⟨b,v,n,hn,hv,hleft⟩ := (follows (Val.default cfg t) hlt).inside (fits_of_isPlain ht bs)
    cases b with
    | false => simp [hleft] at hsome
    | true =>
      have hwritten := amtsSerialize_written (hall v n hn hv ⟨[],n⟩ le_rfl)
      exact (image ht hlt hn hv).iff_exact.mp hwritten.symm
  · intro hexact v n hn hv out hsize
    obtain ⟨b,v',n',hn',hv',hleft⟩ := (follows (Val.default cfg t) hlt).inside (fits_of_isPlain ht bs)
    rw [hv'] at hv
    simp only [Outcome.ret.injEq] at hv
    obtain ⟨rfl,rfl,hrest⟩ := hv
    have hwire := (image ht hlt hn' hv').iff_exact.mpr (hexact (by simp [hleft]))
    obtain rfl := drop_inj hn' hn hrest
    have hlen : (bs.take n').length = n' := List.length_take_of_le hn'
    rw [← hwire]
    exact amtsSerialize_wire v' (by rw [hwire]; omega) (by rw [hwire]; omega)

instance : DecidablePred Item.Exact
  | .str w count => inferInstanceAs (Decidable (count*w < 2^64))
  | .warr _ _ => .isTrue trivial

/-- A vector of one string of one 16-bit character, with a byte behind it. -/
theorem acceptsEncodings_iff_string :
    AcceptsEncodings defaultConfig (.vec (.str 2)) (leBytes 8 1 ++ leBytes 8 1 ++ [65,0,255]) := by
  refine (@acceptsEncodings_iff defaultConfig (.vec (.str 2)) rfl _ (by decide)).mpr fun _ => ?_
  decide

/-- The header of a string of `2^63` characters of 16 bits, and nothing behind it. -/
theorem not_acceptsEncodings_wrapped : ¬∀ (cfg : Config) t bs, t.isPlain = true →
    bs.length < 2^32 → AcceptsEncodings cfg t bs := by
  intro hall
  let bs : List UInt8 := [0,0,0,0,0,0,0,128]
  have hcount : ofLE (bs.take 8) = 2^63 := by decide
  have hread : amtsDeserialize defaultConfig (.str 2) [] (.all bs) = .ret true [] (.all (bs.drop 8)) := by
    rw [amtsDeserialize,deserializeCount_all (by decide),if_neg (by decide),hcount]
    rfl
  have hwrite := hall defaultConfig (.str 2) bs rfl (by decide) [] 8 (by decide) hread ⟨[],8⟩ le_rfl
  have hzero : amtsSerialize defaultConfig (.str 2) [] ⟨[],8⟩ = (true,⟨List.replicate 8 0,0⟩) := by
    decide
  rw [hzero] at hwrite
  exact absurd (congrArg (·.2.written) hwrite) (by decide)

end BinarySerializer
end SdkCp
