import SdkCp.BinarySerializer

/-! What `amtsSerialize` writes: the bytes of a value, of each object as many as its
`uint32_t` size counts. -/
namespace SdkCp
namespace BinarySerializer

open Bytes

/-- The bytes that are written for a value. -/
def wire (cfg : Config) : (t : Ty) → Val cfg t → List UInt8
  | .pod n, v => v.val.take (n % 2^32)
  | .str _, s => leBytes 8 s.length ++ flat s
  | .warr _, a =>
    if cfg.compact then
      leBytes 4 (wcsnlen a.val) ++ (flat a.val).take (wcsnlen a.val*cfg.wcharSize % 2^32)
    else flat a.val
  | .vec t, xs => leBytes 8 xs.length ++ xs.flatMap (wire cfg t)

variable {cfg : Config}

theorem flat_length {n : ℕ} (cs : List (Chunk n)) : (flat cs).length = cs.length*n := by
  induction cs with
  | nil => simp [flat]
  | cons c cs ih =>
    simp only [flat,List.flatMap_cons,List.length_append,c.property,List.length_cons] at ih ⊢
    rw [ih]
    ring

@[simp] theorem Chunk.ofBytes_val {n : ℕ} (c : Chunk n) (bs : List UInt8) :
    Chunk.ofBytes n (c.val ++ bs) = c := by
  apply Subtype.ext
  have hc := c.property
  simp [Chunk.ofBytes,List.take_left' hc]
  omega

theorem unflat_flat {n : ℕ} (cs : List (Chunk n)) (bs : List UInt8) :
    unflat n cs.length (flat cs ++ bs) = cs := by
  induction cs with
  | nil => rfl
  | cons c cs ih =>
    simp only [List.length_cons,unflat,flat,List.flatMap_cons,List.append_assoc]
    rw [Chunk.ofBytes_val,List.drop_left' c.property]
    exact congrArg (c::·) ih

theorem unflat_self {n k : ℕ} (cs : List (Chunk n)) (h : cs.length = k) : unflat n k (flat cs) = cs := by
  have hback := unflat_flat cs []
  rwa [h,List.append_nil] at hback

theorem flat_append {n : ℕ} (cs ds : List (Chunk n)) : flat (cs ++ ds) = flat cs ++ flat ds := by
  simp [flat]

theorem flat_take {n : ℕ} (cs : List (Chunk n)) (k : ℕ) : (flat cs).take (k*n) = flat (cs.take k) := by
  rcases Nat.lt_or_ge k cs.length with hk | hk
  · have hl : (flat (cs.take k)).length = k*n := by rw [flat_length,List.length_take_of_le hk.le]
    conv_lhs => rw [← List.take_append_drop k cs,flat_append,List.take_left' hl]
  · rw [List.take_of_length_le hk,List.take_of_length_le]
    rw [flat_length]
    exact Nat.mul_le_mul_right n hk

theorem flat_drop {n : ℕ} (cs : List (Chunk n)) {k : ℕ} (hk : k ≤ cs.length) :
    (flat cs).drop (k*n) = flat (cs.drop k) := by
  have hl : (flat (cs.take k)).length = k*n := by rw [flat_length,List.length_take_of_le hk]
  conv_lhs => rw [← List.take_append_drop k cs,flat_append,List.drop_left' hl]

theorem wcsnlen_le {n : ℕ} (cs : List (Chunk n)) : wcsnlen cs ≤ cs.length :=
  (List.takeWhile_prefix _).length_le

theorem serializePod_ok {n : ℕ} {bs : List UInt8} {out : Output} (hsize : n % 2^32 ≤ out.size) :
    serializePod n bs out = (true,out.put (bs.take (n % 2^32))) := if_pos hsize

theorem serializeLE_ok {n : ℕ} (hn : n < 2^32) {v : ℕ} {out : Output} (hsize : n ≤ out.size) :
    serializePod n (leBytes n v) out = (true,out.put (leBytes n v)) := by
  have hmod : n % 2^32 = n := Nat.mod_eq_of_lt hn
  rw [serializePod_ok (by omega),hmod,List.take_of_length_le (leBytes_length n v).le]

theorem Output.put_size {out : Output} {bs : List UInt8} (h : bs.length ≤ out.size) :
    (out.put bs).size = out.size-bs.length := if_pos h

theorem Output.put_put {out : Output} {bs cs : List UInt8} (h : bs.length+cs.length ≤ out.size) :
    (out.put bs).put cs = out.put (bs ++ cs) := by
  have hbs : bs.length ≤ out.size := by omega
  have hcs : cs.length ≤ out.size-bs.length := by omega
  simp only [Output.put,List.append_assoc,List.length_append,if_pos hbs,if_pos hcs,if_pos h,
    Output.mk.injEq,true_and]
  omega

theorem length_flatMap_cons {α : Type*} (f : α → List UInt8) (x : α) (xs : List α) :
    ((x::xs).flatMap f).length = (f x).length+(xs.flatMap f).length := by simp

theorem length_le_flatMap_of_mem {α : Type*} (f : α → List UInt8) {x : α} {xs : List α} (h : x ∈ xs) :
    (f x).length ≤ (xs.flatMap f).length := by
  rw [List.length_flatMap]
  exact List.le_sum_of_mem (List.mem_map_of_mem h)

theorem amtsSize_wire {t : Ty} (v : Val cfg t) (h : (wire cfg t v).length < 2^32) :
    amtsSize cfg t v = (wire cfg t v).length := by
  induction t with
  | pod n =>
    have hle : (n : ℕ) % 2^32 ≤ n := Nat.mod_le _ _
    rw [wire,List.length_take,v.property,min_eq_left hle]
    rfl
  | str w =>
    simp only [wire,List.length_append,leBytes_length,flat_length] at h ⊢
    exact Nat.mod_eq_of_lt h
  | warr n =>
    cases hc : cfg.compact with
    | true =>
      have hle := Nat.mul_le_mul_right (cfg.wcharSize : ℕ) (wcsnlen_le v.val)
      have hmod := Nat.mod_le (wcsnlen v.val*cfg.wcharSize) (2^32)
      simp only [wire,hc,if_true,List.length_append,leBytes_length,List.length_take,flat_length,
        min_eq_left (hmod.trans hle)] at h ⊢
      rw [amtsSize,hc,if_pos rfl,Nat.add_mod,Nat.mod_eq_of_lt (by norm_num : 4 < 2^32),
        Nat.mod_eq_of_lt h]
    | false =>
      have hv := v.property
      simp only [wire,hc,Bool.false_eq_true,if_false,flat_length,hv] at h ⊢
      rw [amtsSize,hc,if_neg (by simp)]
      exact Nat.mod_eq_of_lt h
  | vec t ih =>
    have hsum : ∀ xs : List (Val cfg t), (xs.flatMap (wire cfg t)).length < 2^32 →
        (xs.map (amtsSize cfg t)).sum = (xs.flatMap (wire cfg t)).length := by
      intro xs
      induction xs with
      | nil => intro _; rfl
      | cons x xs ihx =>
        intro hx
        rw [length_flatMap_cons] at hx ⊢
        rw [List.map_cons,List.sum_cons,ih x (by omega),ihx (by omega)]
    simp only [wire,List.length_append,leBytes_length] at h ⊢
    rw [amtsSize,hsum v (by omega),Nat.mod_mod_of_dvd _ (by norm_num),Nat.mod_eq_of_lt h]

theorem serializeList_ok {α : Type*} {f : α → Output → Bool × Output} {g : α → List UInt8}
    {xs : List α} (h : ∀ x ∈ xs, ∀ out : Output, (g x).length ≤ out.size → f x out = (true,out.put (g x)))
    {out : Output} (hsize : (xs.flatMap g).length ≤ out.size) :
    serializeList f xs out = (true,out.put (xs.flatMap g)) := by
  induction xs generalizing out with
  | nil => simp [serializeList,Output.put]
  | cons x xs ih =>
    rw [length_flatMap_cons] at hsize
    rw [serializeList,h x (by simp) out (by omega)]
    have hrest : (xs.flatMap g).length ≤ (out.put (g x)).size := by
      rw [Output.put_size (by omega)]
      omega
    simp only [ih (fun y hy => h y (by simp [hy])) hrest]
    rw [Output.put_put hsize,List.flatMap_cons]

/-- Below `2^32` bytes, and with room for them, `amtsSerialize` succeeds. -/
theorem amtsSerialize_wire {t : Ty} (v : Val cfg t) {out : Output}
    (hlt : (wire cfg t v).length < 2^32) (hsize : (wire cfg t v).length ≤ out.size) :
    amtsSerialize cfg t v out = (true,out.put (wire cfg t v)) := by
  induction t generalizing out with
  | pod n =>
    have hle : (n : ℕ) % 2^32 ≤ n := Nat.mod_le _ _
    rw [wire,List.length_take,v.property,min_eq_left hle] at hsize
    exact serializePod_ok hsize
  | str w =>
    simp only [wire,List.length_append,leBytes_length,flat_length] at hlt hsize
    have hcount := @serializeLE_ok 8 (by norm_num) v.length out (by omega)
    have hroom : ¬v.length*w > (out.put (leBytes 8 v.length)).size := by
      rw [Output.put_size (by rw [leBytes_length]; omega),leBytes_length]
      omega
    simp only [amtsSerialize,hcount,if_neg hroom,wire]
    rw [Output.put_put (by rw [leBytes_length,flat_length]; exact hsize)]
  | warr n =>
    have hsz := amtsSize_wire v hlt
    rw [amtsSerialize,if_pos (by rw [hsz]; exact hsize)]
    cases hc : cfg.compact with
    | true =>
      simp only [wire,hc,if_true,List.length_append,leBytes_length] at hsize ⊢
      rw [serializeLE_ok (by norm_num) (by omega)]
      dsimp only
      rw [Output.put_put (by rw [leBytes_length]; exact hsize)]
    | false => simp [wire,hc]
  | vec t ih =>
    have hsz := amtsSize_wire v hlt
    rw [amtsSerialize,if_neg (by rw [hsz]; omega)]
    simp only [wire,List.length_append,leBytes_length] at hlt hsize ⊢
    have hroom : (v.flatMap (wire cfg t)).length ≤ (out.put (leBytes 8 v.length)).size := by
      rw [Output.put_size (by rw [leBytes_length]; omega),leBytes_length]
      omega
    rw [serializeLE_ok (by norm_num) (by omega)]
    dsimp only
    rw [serializeList_ok (g:=wire cfg t)
      (fun x hx out ho => ih x (by have := length_le_flatMap_of_mem (wire cfg t) hx; omega) ho) hroom,
      Output.put_put (by rw [leBytes_length]; exact hsize)]

theorem serializePod_written {n : ℕ} {bs : List UInt8} {out out' : Output}
    (h : serializePod n bs out = (true,out')) : out'.written = out.written ++ bs.take (n % 2^32) := by
  simp only [serializePod] at h
  split at h
  · rw [← (Prod.mk.inj h).2]
    rfl
  · simp at h

theorem serializeList_written {α : Type*} {f : α → Output → Bool × Output} {g : α → List UInt8}
    (hf : ∀ x out out', f x out = (true,out') → out'.written = out.written ++ g x)
    {xs : List α} {out out' : Output} (h : serializeList f xs out = (true,out')) :
    out'.written = out.written ++ xs.flatMap g := by
  induction xs generalizing out with
  | nil =>
    rw [← (Prod.mk.inj h).2]
    simp
  | cons x xs ih =>
    rw [serializeList] at h
    split at h
    · rename_i hx
      rw [ih h,hf _ _ _ hx,List.flatMap_cons,List.append_assoc]
    · simp at h

/-- Where `amtsSerialize` succeeds, however large the value, it has written its bytes. -/
theorem amtsSerialize_written {t : Ty} {v : Val cfg t} {out out' : Output}
    (h : amtsSerialize cfg t v out = (true,out')) : out'.written = out.written ++ wire cfg t v := by
  have hcount : ∀ {n k : ℕ} {out out' : Output}, n < 2^32 →
      serializePod n (leBytes n k) out = (true,out') → out'.written = out.written ++ leBytes n k := by
    intro n k out out' hn h
    rw [serializePod_written h,Nat.mod_eq_of_lt hn,List.take_of_length_le (leBytes_length n k).le]
  induction t generalizing out out' with
  | pod n => exact serializePod_written h
  | str w =>
    rw [amtsSerialize] at h
    split at h
    · simp at h
    rename_i hhead
    split at h
    · simp at h
    rw [← (Prod.mk.inj h).2,Output.put,hcount (by norm_num) hhead,List.append_assoc]
    rfl
  | warr n =>
    rw [amtsSerialize] at h
    split at h
    case isFalse => simp at h
    rw [wire]
    split at h
    · rename_i hc
      rw [if_pos hc]
      dsimp only at h
      split at h
      · simp at h
      · rename_i hhead
        rw [← (Prod.mk.inj h).2,Output.put,hcount (by norm_num) hhead,List.append_assoc]
    · rename_i hc
      rw [if_neg hc,← (Prod.mk.inj h).2,Output.put]
  | vec t ih =>
    rw [amtsSerialize] at h
    split at h
    · simp at h
    split at h
    · simp at h
    · rename_i hhead
      rw [serializeList_written (fun x out out' hx => ih hx) h,hcount (by norm_num) hhead,
        List.append_assoc]
      rfl

end BinarySerializer
end SdkCp
