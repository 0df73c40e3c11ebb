import SdkCp.BinarySerializerWire

/-! The round trip of `binary_serialization`: what `amtsSerialize` writes, and when
`amtsDeserialize` turns a used destination into the value that was written. -/
namespace SdkCp
namespace BinarySerializer

open Bytes

variable (cfg : Config)

/-- The bytes of a value on the wire. -/
def encode : (t : Ty) → Val cfg t → List UInt8
  | .pod _, v => v.val
  | .str _, s => leBytes 8 s.length ++ flat s
  | .warr _, a =>
    if cfg.compact then leBytes 4 (wcsnlen a.val) ++ (flat a.val).take (wcsnlen a.val*cfg.wcharSize)
    else flat a.val
  | .vec t, xs => leBytes 8 xs.length ++ xs.flatMap (encode t)

/-- The destination `d` holds nothing that would survive reading `v` into it: an empty
string meets an empty string, and in the compact build an array is shorter than its
type and agrees behind its end with what was there. A vector element meets the old element at its
position, or a fresh one. -/
def Meets : (t : Ty) → Val cfg t → Val cfg t → Prop
  | .pod _, _, _ => True
  | .str _, v, d => v = [] → d = []
  | .warr n, v, d => cfg.compact = true → wcsnlen v.val < n ∧
      d.val.drop (wcsnlen v.val+1) = v.val.drop (wcsnlen v.val+1)
  | .vec t, v, d => ∀ (i : ℕ) x, v[i]? = some x → Meets t x (d[i]?.getD (Val.default cfg t))

variable {cfg}

theorem wcsnlen_zero {n : ℕ} (cs : List (Chunk n)) (h : wcsnlen cs < cs.length) :
    cs[wcsnlen cs]? = some (Chunk.ofBytes n []) := by
  induction cs with
  | nil => simp at h
  | cons c cs ih =>
    by_cases hc : c = Chunk.ofBytes n []
    · subst hc
      simp [wcsnlen]
    · have hl : wcsnlen (c::cs) = wcsnlen cs+1 := by simp [wcsnlen,hc]
      rw [hl,List.length_cons] at h
      rw [hl,List.getElem?_cons_succ]
      exact ih (by omega)

theorem split_at_wcsnlen {n : ℕ} (cs : List (Chunk n)) (h : wcsnlen cs < cs.length) :
    cs = cs.take (wcsnlen cs) ++ Chunk.ofBytes n []::cs.drop (wcsnlen cs+1) := by
  have hz := wcsnlen_zero cs h
  rw [List.getElem?_eq_getElem h] at hz
  rw [← Option.some.inj hz,← List.drop_eq_getElem_cons h,List.take_append_drop]

theorem wire_eq {t : Ty} (v : Val cfg t) (h : (encode cfg t v).length < 2^32) :
    wire cfg t v = encode cfg t v := by
  induction t with
  | pod n =>
    have hv := v.property
    simp only [encode,hv] at h
    rw [wire,encode,Nat.mod_eq_of_lt h,List.take_of_length_le hv.le]
  | str w => rfl
  | warr n =>
    have hle := wcsnlen_le v.val
    cases hc : cfg.compact with
    | true =>
      simp only [encode,hc,if_true,List.length_append,leBytes_length,flat_take,flat_length,
        List.length_take_of_le hle] at h
      simp only [wire,encode,hc,if_true]
      rw [Nat.mod_eq_of_lt (by omega)]
    | false => simp [wire,encode,hc]
  | vec t ih =>
    simp only [encode,List.length_append,leBytes_length] at h
    rw [wire,encode,List.flatMap_congr fun x hx => ih x ?_]
    have := length_le_flatMap_of_mem (encode cfg t) hx
    omega

/-- Below `2^32` bytes, and with room for them, `amtsSerialize` writes the encoding. -/
theorem amtsSerialize_ok {t : Ty} (v : Val cfg t) {out : Output}
    (hlt : (encode cfg t v).length < 2^32) (hsize : (encode cfg t v).length ≤ out.size) :
    amtsSerialize cfg t v out = (true,out.put (encode cfg t v)) := by
  have hwire := wire_eq v hlt
  rw [← hwire] at hlt hsize ⊢
  exact amtsSerialize_wire v hlt hsize

/-- An input that starts with `bs`. -/
def Input.of (bs rest : List UInt8) : Input := ⟨bs ++ rest,bs.length+rest.length⟩

theorem Input.of_append (bs cs rest : List UInt8) :
    Input.of (bs ++ cs) rest = Input.of bs (cs ++ rest) := by
  simp [Input.of,Nat.add_assoc]

theorem take_of (bs rest : List UInt8) {n : ℕ} (hn : bs.length = n)
    (hlt : bs.length+rest.length < 2^32) :
    (Input.of bs rest).take n = some (bs,⟨rest,rest.length⟩) := by
  have hc : bs.length+rest.length+(2^32-n % 2^32) = rest.length+2^32 := by
    rw [Nat.mod_eq_of_lt (by omega)]
    omega
  simp only [Input.take,Input.of,List.length_append]
  rw [if_pos (by omega),List.take_left' hn,List.drop_left' hn,hc,Nat.add_mod_right,
    Nat.mod_eq_of_lt (by omega)]

theorem deserializePod_of (dest rest : List UInt8) {n : ℕ} {bs : List UInt8} (hn : bs.length = n)
    (hd : dest.length ≤ n) (hlt : bs.length+rest.length < 2^32) :
    deserializePod n dest (Input.of bs rest) = .ret true bs ⟨rest,rest.length⟩ := by
  simp only [deserializePod,Nat.mod_eq_of_lt (by omega : n < 2^32),take_of bs rest hn hlt]
  rw [if_pos (by simp only [Input.of]; omega),List.drop_eq_nil_of_le hd,List.append_nil]

theorem deserializeCount_of (rest : List UInt8) {k : ℕ} (hk : k < 2^64)
    (hlt : 8+rest.length < 2^32) :
    deserializeCount (Input.of (leBytes 8 k) rest) = .ret true k ⟨rest,rest.length⟩ := by
  have hl := leBytes_length 8 k
  have hpod := deserializePod_of [] rest hl (Nat.zero_le _) (by rw [hl]; exact hlt)
  rw [deserializeCount,if_neg (by simp [Input.of]),hpod]
  simp only [ofLE_leBytes 8 k hk]

/-- Reading the encoding of `v` into `d` leaves either exactly `v` and the input after
it, if `d` meets `v`, or something else. -/
structure Reads (t : Ty) (v d : Val cfg t) (rest : List UInt8) : Prop where
  exact : Meets cfg t v d →
    amtsDeserialize cfg t d (.of (encode cfg t v) rest) = .ret true v ⟨rest,rest.length⟩
  only : ∀ inp, amtsDeserialize cfg t d (.of (encode cfg t v) rest) = .ret true v inp →
    Meets cfg t v d
  left : amtsDeserialize cfg t d (.of (encode cfg t v) rest) = .fault ∨
    ∃ d', amtsDeserialize cfg t d (.of (encode cfg t v) rest) = .ret true d' ⟨rest,rest.length⟩

theorem reads_pod {n : ℕ+} (v d : Val cfg (.pod n)) {rest : List UInt8}
    (hlt : (encode cfg (.pod n) v).length+rest.length < 2^32) : Reads (.pod n) v d rest := by
  have hv := v.property
  have h : amtsDeserialize cfg (.pod n) d (.of (encode cfg (.pod n) v) rest) =
      .ret true v ⟨rest,rest.length⟩ := by
    have hpod := deserializePod_of d.val rest hv d.property.le hlt
    simp only [encode] at hpod ⊢
    rw [amtsDeserialize,hpod]
    have hc := Chunk.ofBytes_val v []
    rw [List.append_nil] at hc
    simp only [hc]
  exact ⟨fun _ => h,fun _ _ => trivial,.inr ⟨v,h⟩⟩

theorem reads_str {w : ℕ+} (v d : Val cfg (.str w)) {rest : List UInt8}
    (hfits : ∀ n < 2^32, cfg.canResize n = true)
    (hlt : (encode cfg (.str w) v).length+rest.length < 2^32) : Reads (.str w) v d rest := by
  have hw := w.pos
  simp only [encode,List.length_append,leBytes_length,flat_length] at hlt
  have hle : v.length ≤ v.length*w := Nat.le_mul_of_pos_right _ hw
  have hcount := deserializeCount_of (flat v ++ rest) (show v.length < 2^64 by omega)
    (by simp only [List.length_append,flat_length]; omega)
  have hsz : v.length*w % 2^64 = v.length*w := Nat.mod_eq_of_lt (by omega)
  have htake := take_of (flat v) rest rfl (by rw [flat_length]; omega)
  simp only [Input.of,flat_length] at htake
  have hroom : ¬(flat v ++ rest).length < v.length*w := by
    rw [List.length_append,flat_length]
    omega
  have h : amtsDeserialize cfg (.str w) d (.of (encode cfg (.str w) v) rest) =
      .ret true (if v = [] then d else v) ⟨rest,rest.length⟩ := by
    rw [encode,Input.of_append,amtsDeserialize,hcount]
    simp only [hsz,hroom,if_false]
    by_cases hnil : v = []
    · subst hnil
      simp [flat]
    · have hpos : 0 < v.length := List.length_pos_iff.mpr hnil
      have hne : v.length*w ≠ 0 := Nat.mul_ne_zero hpos.ne' hw.ne'
      rw [if_neg hne,if_neg (by rw [hfits _ (by omega)]; simp),if_neg hnil]
      simp only [List.length_append,flat_length,htake,unflat_flat]
  refine ⟨fun hm => ?_,fun inp heq hnil => ?_,.inr ⟨_,h⟩⟩
  · rw [h]
    by_cases hnil : v = []
    · rw [if_pos hnil,hm hnil,hnil]
    · rw [if_neg hnil]
  · rw [h,if_pos hnil] at heq
    injection heq with _ hd
    rw [hd,hnil]

theorem reads_warr_full {n : ℕ+} (v d : Val cfg (.warr n)) {rest : List UInt8}
    (hc : cfg.compact = false) (hlt : (encode cfg (.warr n) v).length+rest.length < 2^32) :
    Reads (.warr n) v d rest := by
  have hv := v.property
  have henc : encode cfg (.warr n) v = flat v.val := by simp [encode,hc]
  rw [henc,flat_length,hv] at hlt
  have htake := take_of (flat v.val) rest
    (show (flat v.val).length = n*cfg.wcharSize by rw [flat_length,hv]) (by rw [flat_length,hv]; exact hlt)
  have hsize : (Input.of (flat v.val) rest).size ≥ n := by
    have hn : (n : ℕ) ≤ n*cfg.wcharSize := Nat.le_mul_of_pos_right _ cfg.wcharSize.pos
    simp only [Input.of,flat_length,hv]
    omega
  have h : amtsDeserialize cfg (.warr n) d (.of (encode cfg (.warr n) v) rest) =
      .ret true v ⟨rest,rest.length⟩ := by
    rw [henc,amtsDeserialize,if_neg (by simp [hc]),if_pos hsize,htake]
    simp only [unflat_self v.val hv]
  exact ⟨fun _ => h,fun _ _ hfalse => by simp [hc] at hfalse,.inr ⟨v,h⟩⟩

/-- In the compact build the characters before the zero are read over the old array, and a full
array is not read back. -/
theorem deserialize_warr_compact {n : ℕ+} (v d : Val cfg (.warr n)) {rest : List UInt8}
    (hc : cfg.compact = true) (hlt : (encode cfg (.warr n) v).length+rest.length < 2^32) :
    (wcsnlen v.val = n →
      amtsDeserialize cfg (.warr n) d (.of (encode cfg (.warr n) v) rest) = .fault) ∧
    (wcsnlen v.val < n → ∃ d' : Val cfg (.warr n), d'.val = v.val.take (wcsnlen v.val) ++
        Chunk.ofBytes cfg.wcharSize []::d.val.drop (wcsnlen v.val+1) ∧
      amtsDeserialize cfg (.warr n) d (.of (encode cfg (.warr n) v) rest) =
        .ret true d' ⟨rest,rest.length⟩) := by
  have hd := d.property
  have hle := wcsnlen_le v.val
  have hn := v.property
  set count := wcsnlen v.val with hcount
  have henc : encode cfg (.warr n) v = leBytes 4 count ++ flat (v.val.take count) := by
    simp [encode,hc,flat_take,← hcount]
  have hlen : (flat (v.val.take count)).length = count*cfg.wcharSize := by
    rw [flat_length,List.length_take_of_le hle]
  rw [henc,List.length_append,leBytes_length,hlen] at hlt
  have hcw : count ≤ count*cfg.wcharSize := Nat.le_mul_of_pos_right _ cfg.wcharSize.pos
  have hsz : count*cfg.wcharSize % 2^32 = count*cfg.wcharSize := Nat.mod_eq_of_lt (by omega)
  have hpod := deserializePod_of [] (flat (v.val.take count) ++ rest)
    (leBytes_length 4 count) (Nat.zero_le _)
    (by rw [leBytes_length,List.length_append,hlen]; omega)
  have htake := take_of (flat (v.val.take count)) rest hlen (by rw [hlen]; omega)
  simp only [Input.of,← List.length_append] at htake
  have hnum : ofLE (leBytes 4 count) = count := ofLE_leBytes 4 count (by omega)
  rw [henc,Input.of_append,amtsDeserialize,if_pos hc,hpod]
  simp only [hnum,hsz,htake]
  rw [if_pos (by omega : count ≤ n)]
  refine ⟨fun hfull => by rw [if_pos hfull],fun hshort => ?_⟩
  have hl : (v.val.take count ++ d.val.drop count).length = n := by
    rw [List.length_append,List.length_take_of_le hle,List.length_drop,hd]
    omega
  have hold : unflat cfg.wcharSize n (flat (v.val.take count) ++
      (flat d.val).drop (count*cfg.wcharSize)) = v.val.take count ++ d.val.drop count := by
    rw [flat_drop d.val (by omega),← flat_append,unflat_self _ hl]
  have hset : (v.val.take count ++ d.val.drop count).set count (Chunk.ofBytes cfg.wcharSize []) =
      v.val.take count ++ Chunk.ofBytes cfg.wcharSize []::d.val.drop (count+1) := by
    rw [List.set_append_right _ _ (by rw [List.length_take_of_le hle]),
      List.length_take_of_le hle,Nat.sub_self,List.drop_eq_getElem_cons (by omega : count < d.val.length)]
    rfl
  rw [if_neg hshort.ne]
  exact ⟨_,by simp only [hold,hset],rfl⟩

theorem reads_warr {n : ℕ+} (v d : Val cfg (.warr n)) {rest : List UInt8}
    (hlt : (encode cfg (.warr n) v).length+rest.length < 2^32) : Reads (.warr n) v d rest := by
  cases hc : cfg.compact with
  | false => exact reads_warr_full v d hc hlt
  | true =>
    have hle := wcsnlen_le v.val
    have hn := v.property
    obtain ⟨hfault,hread⟩ := deserialize_warr_compact v d hc hlt
    rcases Nat.eq_or_lt_of_le (hle.trans_eq hn) with hfull | hshort
    · have h := hfault hfull
      refine ⟨fun hm => absurd hfull (hm hc).1.ne,fun inp heq => ?_,.inl h⟩
      rw [h] at heq
      cases heq
    · obtain ⟨d',hd',h⟩ := hread hshort
      have hval := split_at_wcsnlen v.val (hshort.trans_eq hn.symm)
      refine ⟨fun hm => ?_,fun inp heq _ => ⟨hshort,?_⟩,.inr ⟨d',h⟩⟩
      · obtain ⟨-,htail⟩ := hm hc
        rw [h]
        congr 1
        apply Subtype.ext
        rw [hd',htail,← hval]
      · rw [h] at heq
        injection heq with _ hdv
        rw [hdv] at hd'
        have htail := List.append_cancel_left (hval.symm.trans hd')
        exact (List.cons.inj htail).2.symm

theorem resize_getElem? {α : Type*} (xs : List α) {n i : ℕ} (fill : α) (hi : i < n) :
    (resize xs n fill)[i]? = some (xs[i]?.getD fill) := by
  rw [resize,List.getElem?_append]
  by_cases hx : i < xs.length
  · rw [if_pos (by rw [List.length_take]; omega),List.getElem?_take_of_lt hi,
      List.getElem?_eq_getElem hx,Option.getD_some]
  · rw [if_neg (by rw [List.length_take]; omega),List.getElem?_replicate,
      if_pos (by rw [List.length_take]; omega),List.getElem?_eq_none (by omega),Option.getD_none]

@[simp] theorem resize_length {α : Type*} (xs : List α) (n : ℕ) (fill : α) :
    (resize xs n fill).length = n := by
  simp [resize]
  omega

theorem reads_list {t : Ty} (hread : ∀ (x e : Val cfg t) (rest : List UInt8),
      (encode cfg t x).length+rest.length < 2^32 → Reads t x e rest)
    {xs ds : List (Val cfg t)} (hlen : ds.length = xs.length) {rest : List UInt8}
    (hlt : (xs.flatMap (encode cfg t)).length+rest.length < 2^32) :
    ((∀ (i : ℕ) x e, xs[i]? = some x → ds[i]? = some e → Meets cfg t x e) →
      deserializeList (amtsDeserialize cfg t) ds (.of (xs.flatMap (encode cfg t)) rest) =
        .ret true xs ⟨rest,rest.length⟩) ∧
    (∀ inp, deserializeList (amtsDeserialize cfg t) ds (.of (xs.flatMap (encode cfg t)) rest) =
        .ret true xs inp →
      ∀ (i : ℕ) x e, xs[i]? = some x → ds[i]? = some e → Meets cfg t x e) ∧
    (deserializeList (amtsDeserialize cfg t) ds (.of (xs.flatMap (encode cfg t)) rest) = .fault ∨
      ∃ ds', deserializeList (amtsDeserialize cfg t) ds (.of (xs.flatMap (encode cfg t)) rest) =
        .ret true ds' ⟨rest,rest.length⟩) := by
  induction xs generalizing ds with
  | nil =>
    obtain rfl := List.length_eq_zero_iff.mp hlen
    refine ⟨fun _ => ?_,fun _ _ => by simp,.inr ⟨[],?_⟩⟩ <;> simp [deserializeList,Input.of]
  | cons x xs ih =>
    cases ds with
    | nil => simp at hlen
    | cons e ds =>
      rw [length_flatMap_cons] at hlt
      have hinp : Input.of ((x::xs).flatMap (encode cfg t)) rest =
          Input.of (encode cfg t x) (xs.flatMap (encode cfg t) ++ rest) := by
        rw [List.flatMap_cons,Input.of_append]
      have hnext : ∀ bs : List UInt8, (⟨bs ++ rest,(bs ++ rest).length⟩ : Input) = .of bs rest := by
        simp [Input.of]
      have hx := hread x e (xs.flatMap (encode cfg t) ++ rest)
        (by rw [List.length_append]; omega)
      obtain ⟨hexact,honly,hleft⟩ := ih (show ds.length = xs.length by simpa using hlen) (by omega)
      rw [hinp,deserializeList]
      refine ⟨fun hm => ?_,fun inp heq => ?_,?_⟩
      · rw [hx.exact (hm 0 x e rfl rfl)]
        simp only [hnext,hexact fun i y c hy hc => hm (i+1) y c hy hc]
      · rcases hx.left with hf | ⟨e',he'⟩
        · simp [hf] at heq
        · simp only [he',hnext] at heq
          rcases hleft with hf | ⟨ds',hds'⟩
          · simp [hf] at heq
          · simp only [hds',Outcome.ret.injEq,List.cons.injEq,true_and] at heq
            obtain ⟨⟨rfl,rfl⟩,-⟩ := heq
            intro i y c hy hc
            cases i with
            | zero =>
              obtain rfl := Option.some.inj hy
              obtain rfl := Option.some.inj hc
              exact hx.only _ he'
            | succ i => exact honly _ hds' i y c hy hc
      · rcases hx.left with hf | ⟨e',he'⟩
        · left; simp [hf]
        · simp only [he',hnext]
          rcases hleft with hf | ⟨ds',hds'⟩
          · left; simp [hf]
          · right; exact ⟨e'::ds',by simp [hds']⟩

theorem encode_pos {t : Ty} (v : Val cfg t) : 0 < (encode cfg t v).length := by
  cases t with
  | pod n =>
    rw [encode,v.property]
    exact n.pos
  | str w => simp [encode]
  | vec t => simp [encode]
  | warr n =>
    cases hc : cfg.compact with
    | true => simp [encode,hc]
    | false =>
      rw [encode,hc,if_neg (by simp),flat_length,v.property]
      exact Nat.mul_pos n.pos cfg.wcharSize.pos

theorem length_le_flatMap {t : Ty} (xs : List (Val cfg t)) :
    xs.length ≤ (xs.flatMap (encode cfg t)).length := by
  induction xs with
  | nil => simp
  | cons x xs ih =>
    have := encode_pos x
    rw [length_flatMap_cons,List.length_cons]
    omega

/-- One case per type constructor; a vector element is read like a value of its own. -/
theorem reads_encode (hfits : ∀ n < 2^32, cfg.canResize n = true) {t : Ty} (v d : Val cfg t)
    {rest : List UInt8} (hlt : (encode cfg t v).length+rest.length < 2^32) : Reads t v d rest := by
  induction t generalizing rest with
  | pod n => exact reads_pod v d hlt
  | str w => exact reads_str v d hfits hlt
  | warr n => exact reads_warr v d hlt
  | vec t ih =>
    simp only [encode,List.length_append,leBytes_length] at hlt
    have hle := length_le_flatMap v
    set fresh := resize d v.length (Val.default cfg t) with hfresh
    have hcount := deserializeCount_of (v.flatMap (encode cfg t) ++ rest)
      (show v.length < 2^64 by omega) (by rw [List.length_append]; omega)
    have hinp : (⟨v.flatMap (encode cfg t) ++ rest,(v.flatMap (encode cfg t) ++ rest).length⟩ : Input) =
        .of (v.flatMap (encode cfg t)) rest := by simp [Input.of]
    have hloop : amtsDeserialize cfg (.vec t) d (.of (encode cfg (.vec t) v) rest) =
        deserializeList (amtsDeserialize cfg t) fresh (.of (v.flatMap (encode cfg t)) rest) := by
      rw [encode,Input.of_append,amtsDeserialize,hcount]
      simp only [hfits v.length (by omega),hinp]
      rfl
    have hmeets : Meets cfg (.vec t) v d ↔
        ∀ (i : ℕ) x e, v[i]? = some x → fresh[i]? = some e → Meets cfg t x e := by
      have hget : ∀ (i : ℕ) x, v[i]? = some x →
          fresh[i]? = some (d[i]?.getD (Val.default cfg t)) := fun i x hx =>
        resize_getElem? d _ (List.getElem?_eq_some_iff.mp hx).1
      constructor
      · intro h i x e hx he
        rw [hget i x hx] at he
        exact Option.some.inj he ▸ h i x hx
      · exact fun h i x hx => h i x _ hx (hget i x hx)
    obtain ⟨hexact,honly,hleft⟩ := reads_list (fun x e _ => ih x e)
      (show fresh.length = v.length by simp [hfresh])
      (show (v.flatMap (encode cfg t)).length+rest.length < 2^32 by omega)
    rw [← hloop] at hexact honly hleft
    exact ⟨fun hm => hexact (hmeets.mp hm),fun inp h => hmeets.mpr (honly inp h),hleft⟩

/-- The round trip. `amtsSerialize` writes the encoding of `v`, and reading it back into
`d`, with any bytes behind it, gives `v` and consumes exactly the encoding if and only
if `d` meets `v`. -/
theorem round_trip_iff (hfits : ∀ n < 2^32, cfg.canResize n = true) {t : Ty} (v d : Val cfg t)
    {size : ℕ} {rest : List UInt8} (hsize : (encode cfg t v).length ≤ size)
    (hlt : (encode cfg t v).length+rest.length < 2^32) :
    amtsSerialize cfg t v ⟨[],size⟩ = (true,⟨encode cfg t v,size-(encode cfg t v).length⟩) ∧
    (amtsDeserialize cfg t d ⟨encode cfg t v ++ rest,(encode cfg t v).length+rest.length⟩ =
        .ret true v ⟨rest,rest.length⟩ ↔ Meets cfg t v d) := by
  refine ⟨?_,fun h => ?_,fun h => ?_⟩
  · rw [amtsSerialize_ok v (by omega) hsize,Output.put,if_pos hsize]
    rfl
  · exact (reads_encode hfits v d hlt).only _ h
  · exact (reads_encode hfits v d hlt).exact h

/-- The default build on a machine with 16-bit `wchar_t`. -/
def defaultConfig : Config := ⟨false,2,fun n => n < 2^32⟩

/-- A vector of two strings, the second one empty, read into a vector that holds only one. -/
theorem round_trip_iff_strings :
    let v : Val defaultConfig (.vec (.str 1)) := [[⟨[104],rfl⟩],[]]
    let d : Val defaultConfig (.vec (.str 1)) := [[⟨[120],rfl⟩,⟨[121],rfl⟩]]
    amtsDeserialize defaultConfig (.vec (.str 1)) d ⟨encode defaultConfig _ v ++ [255],26⟩ =
      .ret true v ⟨[255],1⟩ := by
  intro v d
  refine (@round_trip_iff defaultConfig (by simp [defaultConfig]) _ v d 25 [255] (by decide)
    (by decide)).2.mpr ?_
  intro i x hx
  match i with
  | 0 => obtain rfl := Option.some.inj hx; simp [Meets]
  | 1 => obtain rfl := Option.some.inj hx; exact fun _ => rfl
  | i+2 => cases hx

/-- An empty string is read back as whatever the destination held. -/
theorem empty_string_not_read :
    amtsSerialize defaultConfig (.str 1) [] ⟨[],8⟩ = (true,⟨List.replicate 8 0,0⟩) ∧
    amtsDeserialize defaultConfig (.str 1) [⟨[65],rfl⟩] ⟨List.replicate 8 0,8⟩ ≠
      .ret true [] ⟨[],0⟩ := by
  refine ⟨by decide,fun h => ?_⟩
  have hread : amtsDeserialize defaultConfig (.str 1) [⟨[65],rfl⟩] ⟨List.replicate 8 0,8⟩ =
      .ret true [⟨[65],rfl⟩] ⟨[],0⟩ := rfl
  rw [hread] at h
  injection h with _ hd
  exact absurd hd (by decide)

end BinarySerializer
end SdkCp
