import SdkCp.BinarySerializerRoundTrip

/-! The sizes of `binary_serialization`: `amtsSerialize` succeeds exactly where `amtsSize`
bytes are left, and which calls without room for the value leave the output as it was. -/
namespace SdkCp
namespace BinarySerializer

open Bytes

variable {cfg : Config}

/-- The memory of the buffer, `mem` before the first byte is written. -/
def Output.memory (out : Output) (mem : Mem) : Mem := store mem 0 out.written

theorem Output.memory_after (out : Output) (mem : Mem) {i : ℕ} (hi : out.written.length ≤ i) :
    out.memory mem i = mem i := by
  simp [Output.memory,store,List.getElem?_eq_none hi]

theorem wire_le_of_serialize {t : Ty} (v : Val cfg t) {out : Output}
    (hlt : (wire cfg t v).length < 2^32) (h : (amtsSerialize cfg t v out).1 = true) :
    (wire cfg t v).length ≤ out.size := by
  have hsz := amtsSize_wire v hlt
  cases t with
  | pod n =>
    rw [← hsz]
    by_contra hroom
    rw [amtsSerialize,serializePod,if_neg (by simpa [amtsSize] using hroom)] at h
    simp at h
  | str w =>
    simp only [wire,List.length_append,leBytes_length,flat_length]
    by_cases hcount : 8 ≤ out.size
    · rw [amtsSerialize,serializeLE_ok (by norm_num) hcount] at h
      by_contra hroom
      have hsize : (out.put (leBytes 8 v.length)).size = out.size-8 := by
        rw [Output.put_size (by rwa [leBytes_length]),leBytes_length]
      dsimp only at h
      rw [if_pos (by omega)] at h
      simp at h
    · rw [amtsSerialize,serializePod,if_neg (by norm_num; omega)] at h
      simp at h
  | warr n =>
    rw [← hsz]
    by_contra hroom
    rw [amtsSerialize,if_neg hroom] at h
    simp at h
  | vec t =>
    rw [← hsz]
    by_contra hroom
    rw [amtsSerialize,if_pos (by omega)] at h
    simp at h

/-- Below `2^32` bytes `amtsSerialize` succeeds if and only if `amtsSize` bytes are left; it
then writes exactly so many and no byte after them. -/
theorem amtsSerialize_iff {t : Ty} (v : Val cfg t) (out : Output)
    (hlt : (encode cfg t v).length < 2^32) :
    ((amtsSerialize cfg t v out).1 = true ↔ amtsSize cfg t v ≤ out.size) ∧
    ∀ out', amtsSerialize cfg t v out = (true,out') →
      out'.written = out.written ++ encode cfg t v ∧ (encode cfg t v).length = amtsSize cfg t v ∧
      out'.size+amtsSize cfg t v = out.size ∧
      ∀ mem i, out'.written.length ≤ i → out'.memory mem i = mem i := by
  have hwire := wire_eq v hlt
  have hwlt : (wire cfg t v).length < 2^32 := by rwa [hwire]
  have hsz := amtsSize_wire v hwlt
  have hiff : (amtsSerialize cfg t v out).1 = true ↔ amtsSize cfg t v ≤ out.size := by
    rw [hsz]
    refine ⟨wire_le_of_serialize v hwlt,fun hroom => ?_⟩
    rw [amtsSerialize_wire v hwlt hroom]
  refine ⟨hiff,fun out' h => ?_⟩
  have hroom := wire_le_of_serialize v hwlt (by rw [h])
  have hput := amtsSerialize_wire v hwlt hroom
  obtain rfl : out' = out.put (wire cfg t v) := (Prod.mk.inj (h.symm.trans hput)).2
  refine ⟨by rw [← hwire]; rfl,by rw [hsz,hwire],?_,fun mem i hi => Output.memory_after _ mem hi⟩
  rw [Output.put_size hroom,hsz]
  omega

/-- The string "h" asks for nine bytes. -/
theorem amtsSerialize_iff_string :
    let v : Val defaultConfig (.str 1) := [⟨[104],rfl⟩]
    (amtsSerialize defaultConfig (.str 1) v ⟨[],9⟩).1 = true ↔ amtsSize defaultConfig (.str 1) v ≤ 9 :=
  (@amtsSerialize_iff defaultConfig (.str 1) [⟨[104],rfl⟩] ⟨[],9⟩ (by decide)).1

variable (cfg) in
/-- The room the writers ask for. The elements of a vector are checked one after the other,
each for itself, and take `amtsSize` bytes each. -/
def need : (t : Ty) → Val cfg t → ℕ
  | .pod n, _ => n % 2^32
  | .str w, s => 8+s.length*w
  | .warr n, a =>
    if cfg.compact then max 4 (amtsSize cfg (.warr n) a) else amtsSize cfg (.warr n) a
  | .vec t, xs => 8+xs.foldr (fun x room => max (need t x) (amtsSize cfg t x+room)) 0

variable (cfg) in
/-- Nothing is written before the value is known to fit. A string's count is written first,
and so is a vector's where its `amtsSize`, a 32-bit sum, lets it pass. -/
def WholeOrNothing : (t : Ty) → Val cfg t → ℕ → Prop
  | .pod _, _, _ => True
  | .warr _, _, _ => True
  | .str w, s, size => size < 8 ∨ need cfg (.str w) s ≤ size
  | .vec t, xs, size => size < 8 ∨ size < amtsSize cfg (.vec t) xs ∨ need cfg (.vec t) xs ≤ size

/-- A writer succeeds where it has the room it needs, and takes `len` bytes of it. -/
structure Takes (need len : ℕ) (out : Output) (r : Bool × Output) : Prop where
  iff : r.1 = true ↔ need ≤ out.size
  le : r.1 = true → len ≤ out.size
  size : r.1 = true → r.2.size = out.size-len

theorem Takes.of_fail {need len : ℕ} {out : Output} {r : Bool × Output} (h : r.1 = false)
    (hsize : out.size < need) : Takes need len out r := by
  refine ⟨?_,?_,?_⟩
  · rw [h]
    exact iff_of_false (by simp) (by omega)
  · simp [h]
  · simp [h]

theorem takes_pod {n : ℕ} {bs : List UInt8} (hn : bs.length = n) (out : Output) :
    Takes (n % 2^32) (n % 2^32) out (serializePod n bs out) := by
  have hle : n % 2^32 ≤ n := Nat.mod_le _ _
  have hl : (bs.take (n % 2^32)).length = n % 2^32 := List.length_take_of_le (by omega)
  by_cases hroom : n % 2^32 ≤ out.size
  · rw [serializePod_ok hroom]
    refine ⟨by simpa using hroom,fun _ => hroom,fun _ => ?_⟩
    rw [Output.put_size (by rwa [hl]),hl]
  · have hfail : serializePod n bs out = (false,out) := if_neg hroom
    rw [hfail]
    exact .of_fail rfl (by omega)

theorem serializeLE_fail {n : ℕ} (hn : n < 2^32) {v : ℕ} {out : Output} (hsize : out.size < n) :
    serializePod n (leBytes n v) out = (false,out) := by
  rw [serializePod,Nat.mod_eq_of_lt hn]
  exact if_neg (by omega)

theorem takes_str {w : ℕ+} (s : Val cfg (.str w)) {out : Output} (hout : out.size < 2^32) :
    Takes (need cfg (.str w) s) (amtsSize cfg (.str w) s) out (amtsSerialize cfg (.str w) s out) := by
  rw [amtsSerialize]
  by_cases hcount : 8 ≤ out.size
  · rw [serializeLE_ok (by norm_num) hcount]
    have hsize : (out.put (leBytes 8 s.length)).size = out.size-8 := by
      rw [Output.put_size (by rwa [leBytes_length]),leBytes_length]
    dsimp only
    by_cases hroom : 8+s.length*w ≤ out.size
    · have hlen : amtsSize cfg (.str w) s = 8+s.length*w := Nat.mod_eq_of_lt (by omega)
      rw [if_neg (by omega),hlen]
      refine ⟨by simpa [need] using hroom,fun _ => hroom,fun _ => ?_⟩
      rw [Output.put_size (by rw [flat_length]; omega),flat_length,hsize]
      omega
    · rw [if_pos (by omega)]
      exact .of_fail rfl (by rw [need]; omega)
  · rw [serializeLE_fail (by norm_num) (by omega)]
    exact .of_fail rfl (by rw [need]; omega)

theorem Output.put_size_mod {out : Output} {bs : List UInt8} (hout : out.size < 2^32)
    (h : bs.length % 2^32 ≤ out.size) : (out.put bs).size = out.size-bs.length % 2^32 := by
  by_cases hle : bs.length ≤ out.size
  · rw [Output.put_size hle,Nat.mod_eq_of_lt (by omega)]
  · have hsize : (out.put bs).size = (out.size+(2^32-bs.length % 2^32)) % 2^32 := if_neg hle
    have := Nat.mod_lt bs.length (by norm_num : 0 < 2^32)
    omega

theorem takes_warr {n : ℕ+} (a : Val cfg (.warr n)) {out : Output} (hout : out.size < 2^32) :
    Takes (need cfg (.warr n) a) (amtsSize cfg (.warr n) a) out (amtsSerialize cfg (.warr n) a out) := by
  rw [amtsSerialize]
  by_cases hroom : out.size ≥ amtsSize cfg (.warr n) a
  · rw [if_pos hroom]
    cases hc : cfg.compact with
    | true =>
      have hneed : need cfg (.warr n) a = max 4 (amtsSize cfg (.warr n) a) := if_pos hc
      have hsz : amtsSize cfg (.warr n) a = (4+wcsnlen a.val*cfg.wcharSize) % 2^32 := if_pos hc
      rw [if_pos rfl]
      dsimp only
      by_cases hcount : 4 ≤ out.size
      · rw [serializeLE_ok (by norm_num) hcount]
        have hsize : (out.put (leBytes 4 (wcsnlen a.val))).size = out.size-4 := by
          rw [Output.put_size (by rwa [leBytes_length]),leBytes_length]
        have hle := Nat.mul_le_mul_right (cfg.wcharSize : ℕ) (wcsnlen_le a.val)
        have hmod := Nat.mod_le (wcsnlen a.val*cfg.wcharSize) (2^32)
        have hl : ((flat a.val).take (wcsnlen a.val*cfg.wcharSize % 2^32)).length =
            wcsnlen a.val*cfg.wcharSize % 2^32 :=
          List.length_take_of_le (by rw [flat_length]; omega)
        refine ⟨by simp [hneed]; omega,fun _ => hroom,fun _ => ?_⟩
        dsimp only
        -- an array close to `2^32` bytes passes the check, its size being cut to three bytes or less
        by_cases hfit : wcsnlen a.val*cfg.wcharSize % 2^32 ≤ out.size-4
        · rw [Output.put_size (by rw [hl,hsize]; exact hfit),hl,hsize,hsz]
          omega
        · rw [Output.put,if_neg (by rw [hl,hsize]; exact hfit)]
          dsimp only
          rw [hl,hsize]
          omega
      · rw [serializeLE_fail (by norm_num) (by omega)]
        exact .of_fail rfl (by omega)
    | false =>
      have hneed : need cfg (.warr n) a = amtsSize cfg (.warr n) a := if_neg (by simp [hc])
      have hsz : amtsSize cfg (.warr n) a = n*cfg.wcharSize % 2^32 := if_neg (by simp [hc])
      have hl : (flat a.val).length = n*cfg.wcharSize := by rw [flat_length,a.property]
      rw [if_neg (by simp)]
      refine ⟨by simpa [hneed] using hroom,fun _ => hroom,fun _ => ?_⟩
      dsimp only
      rw [Output.put_size_mod hout (by rw [hl,← hsz]; exact hroom),hl,hsz]
  · rw [if_neg hroom]
    have hle : amtsSize cfg (.warr n) a ≤ need cfg (.warr n) a := by
      rw [need]
      split
      · exact le_max_right _ _
      · exact le_rfl
    exact .of_fail rfl (by omega)

theorem takes_list {α : Type*} {f : α → Output → Bool × Output} {need len : α → ℕ}
    (hf : ∀ x out, out.size < 2^32 → Takes (need x) (len x) out (f x out)) (xs : List α) {out : Output}
    (hout : out.size < 2^32) :
    Takes (xs.foldr (fun x room => max (need x) (len x+room)) 0) (xs.map len).sum out
      (serializeList f xs out) := by
  induction xs generalizing out with
  | nil => exact ⟨by simp [serializeList],by simp,by simp [serializeList]⟩
  | cons x xs ih =>
    have hx := hf x out hout
    rw [serializeList,List.foldr_cons,List.map_cons,List.sum_cons]
    rcases hr : f x out with ⟨b,mid⟩
    rw [hr] at hx
    cases b with
    | false =>
      have hneed : ¬need x ≤ out.size := fun h => by simpa using hx.iff.mpr h
      exact .of_fail rfl (by omega)
    | true =>
      have hneed := hx.iff.mp rfl
      have hle := hx.le rfl
      have hsize : mid.size = out.size-len x := hx.size rfl
      have hrest := @ih mid (by omega)
      dsimp only
      refine ⟨?_,fun h => ?_,fun h => ?_⟩
      · rw [hrest.iff,hsize]
        omega
      · have := hrest.le h
        omega
      · rw [hrest.size h,hsize]
        omega

/-- How `amtsSerialize` counts: for every value, also where its sizes wrap. -/
theorem takes {t : Ty} (v : Val cfg t) {out : Output} (hout : out.size < 2^32) :
    Takes (need cfg t v) (amtsSize cfg t v) out (amtsSerialize cfg t v out) := by
  induction t generalizing out with
  | pod n => exact takes_pod v.property out
  | str w => exact takes_str v hout
  | warr n => exact takes_warr v hout
  | vec t ih =>
    have hsz : amtsSize cfg (.vec t) v = (8+(v.map (amtsSize cfg t)).sum) % 2^32 :=
      Nat.mod_mod_of_dvd _ (by norm_num)
    have hneed : need cfg (.vec t) v =
        8+v.foldr (fun x room => max (need cfg t x) (amtsSize cfg t x+room)) 0 := rfl
    rw [amtsSerialize]
    by_cases hcount : 8 ≤ out.size
    · have hsize : (out.put (leBytes 8 v.length)).size = out.size-8 := by
        rw [Output.put_size (by rwa [leBytes_length]),leBytes_length]
      have hlist := @takes_list _ (amtsSerialize cfg t) (need cfg t) (amtsSize cfg t)
        (fun x out ho => ih x ho) v (out.put (leBytes 8 v.length)) (by omega)
      rw [serializeLE_ok (by norm_num) hcount]
      dsimp only
      by_cases hfit : (serializeList (amtsSerialize cfg t) v (out.put (leBytes 8 v.length))).1 = true
      · have hle := hlist.le hfit
        have hroom := hlist.iff.mp hfit
        rw [if_neg (by omega)]
        refine ⟨?_,fun _ => by omega,fun _ => ?_⟩
        · rw [hneed]
          exact iff_of_true hfit (by omega)
        · rw [hlist.size hfit]
          omega
      · have hroom := mt hlist.iff.mpr hfit
        refine .of_fail ?_ (by omega)
        split
        · rfl
        · exact Bool.not_eq_true _ ▸ hfit
    · rw [serializeLE_fail (by norm_num) (by omega)]
      simp only [ite_self]
      exact .of_fail rfl (by omega)

theorem serializePod_extends (n : ℕ) (bs : List UInt8) (out : Output) :
    out.written <+: (serializePod n bs out).2.written := by
  rw [serializePod]
  split
  · exact List.prefix_append _ _
  · exact List.prefix_rfl

theorem serializeList_extends {α : Type*} {f : α → Output → Bool × Output}
    (hf : ∀ x out, out.written <+: (f x out).2.written) (xs : List α) (out : Output) :
    out.written <+: (serializeList f xs out).2.written := by
  induction xs generalizing out with
  | nil => exact List.prefix_rfl
  | cons x xs ih =>
    have hx := hf x out
    rw [serializeList]
    rcases hr : f x out with ⟨b,mid⟩
    rw [hr] at hx
    cases b with
    | false => exact hx
    | true => exact hx.trans (ih mid)

theorem amtsSerialize_extends {t : Ty} (v : Val cfg t) (out : Output) :
    out.written <+: (amtsSerialize cfg t v out).2.written := by
  induction t generalizing out with
  | pod n => exact serializePod_extends _ _ _
  | str w =>
    have hcount := serializePod_extends 8 (leBytes 8 v.length) out
    rw [amtsSerialize]
    split
    · rename_i h
      rwa [h] at hcount
    · rename_i h
      rw [h] at hcount
      split
      · exact hcount
      · exact hcount.trans (List.prefix_append _ _)
  | warr n =>
    have hcount := serializePod_extends 4 (leBytes 4 (wcsnlen v.val)) out
    rw [amtsSerialize]
    split
    case isFalse => exact List.prefix_rfl
    split
    case isFalse => exact List.prefix_append _ _
    dsimp only
    split
    · rename_i h
      rwa [h] at hcount
    · rename_i h
      rw [h] at hcount
      exact hcount.trans (List.prefix_append _ _)
  | vec t ih =>
    have hcount := serializePod_extends 8 (leBytes 8 v.length) out
    rw [amtsSerialize]
    split
    · exact List.prefix_rfl
    split
    · rename_i h
      rwa [h] at hcount
    · rename_i h
      rw [h] at hcount
      exact hcount.trans (serializeList_extends ih _ _)

variable (cfg) in
/-- A call that returns false leaves the buffer, the size and the bytes written as they were. -/
def Atomic (t : Ty) (v : Val cfg t) (out : Output) : Prop :=
  ∀ out', amtsSerialize cfg t v out = (false,out') → out' = out

theorem not_atomic_of_count {t : Ty} {v : Val cfg t} {out : Output} {k : ℕ}
    (h : (amtsSerialize cfg t v out).1 = false)
    (hpre : (out.put (leBytes 8 k)).written <+: (amtsSerialize cfg t v out).2.written) :
    ¬Atomic cfg t v out := by
  intro hatomic
  have hsame : (amtsSerialize cfg t v out).2 = out := hatomic _ (by rw [← h])
  have hle := hpre.length_le
  rw [hsame] at hle
  simp [Output.put] at hle

theorem atomic_pod {n : ℕ+} (v : Val cfg (.pod n)) (out : Output) : Atomic cfg (.pod n) v out := by
  intro out' h
  rw [amtsSerialize,serializePod] at h
  split at h
  · simp at h
  · exact (Prod.mk.inj h).2.symm

theorem atomic_warr {n : ℕ+} (a : Val cfg (.warr n)) (out : Output) : Atomic cfg (.warr n) a out := by
  intro out' h
  rw [amtsSerialize] at h
  split at h
  case isFalse => exact (Prod.mk.inj h).2.symm
  split at h
  case isFalse => simp at h
  dsimp only at h
  by_cases hcount : 4 ≤ out.size
  · rw [serializeLE_ok (by norm_num) hcount] at h
    simp at h
  · rw [serializeLE_fail (by norm_num) (by omega)] at h
    exact (Prod.mk.inj h).2.symm

theorem Takes.atomic {t : Ty} {v : Val cfg t} {out : Output} {k len : ℕ}
    (h : Takes k len out (amtsSerialize cfg t v out)) (hroom : k ≤ out.size) : Atomic cfg t v out := by
  intro out' hfail
  have htrue := h.iff.mpr hroom
  rw [hfail] at htrue
  simp at htrue

theorem Takes.fails {k len : ℕ} {out : Output} {r : Bool × Output} (h : Takes k len out r)
    (hroom : ¬k ≤ out.size) : r.1 = false :=
  Bool.eq_false_of_not_eq_true (mt h.iff.mp hroom)

theorem atomic_str_iff {w : ℕ+} (s : Val cfg (.str w)) {out : Output} (hout : out.size < 2^32) :
    Atomic cfg (.str w) s out ↔ WholeOrNothing cfg (.str w) s out.size := by
  have htakes := takes_str s hout
  by_cases hcount : 8 ≤ out.size
  · by_cases hroom : need cfg (.str w) s ≤ out.size
    · exact iff_of_true (htakes.atomic hroom) (.inr hroom)
    · refine iff_of_false ?_ (by rw [WholeOrNothing]; omega)
      refine @not_atomic_of_count _ _ _ _ s.length (htakes.fails hroom) ?_
      rw [amtsSerialize,serializeLE_ok (by norm_num) hcount]
      dsimp only
      split
      · exact List.prefix_rfl
      · exact List.prefix_append _ _
  · refine iff_of_true (fun out' h => ?_) (.inl (by omega))
    rw [amtsSerialize,serializeLE_fail (by norm_num) (by omega)] at h
    exact (Prod.mk.inj h).2.symm

theorem atomic_vec_iff {t : Ty} (xs : Val cfg (.vec t)) {out : Output} (hout : out.size < 2^32) :
    Atomic cfg (.vec t) xs out ↔ WholeOrNothing cfg (.vec t) xs out.size := by
  have htakes := takes xs hout
  by_cases hpass : amtsSize cfg (.vec t) xs ≤ out.size ∧ 8 ≤ out.size
  · obtain ⟨hsz,hcount⟩ := hpass
    by_cases hroom : need cfg (.vec t) xs ≤ out.size
    · exact iff_of_true (htakes.atomic hroom) (.inr (.inr hroom))
    · refine iff_of_false ?_ (by rw [WholeOrNothing]; omega)
      refine @not_atomic_of_count _ _ _ _ (List.length xs) (htakes.fails hroom) ?_
      rw [amtsSerialize,if_neg (by omega),serializeLE_ok (by norm_num) hcount]
      exact serializeList_extends (fun x out => amtsSerialize_extends x out) _ _
  · refine iff_of_true (fun out' h => ?_) (by rw [WholeOrNothing]; omega)
    rw [amtsSerialize] at h
    split at h
    · exact (Prod.mk.inj h).2.symm
    · rw [serializeLE_fail (by norm_num) (by omega)] at h
      exact (Prod.mk.inj h).2.symm

/-- For every value and every output, a failed write is atomic exactly where nothing is
written before the value is known to fit. -/
theorem atomic_iff {t : Ty} (v : Val cfg t) {out : Output} (hout : out.size < 2^32) :
    Atomic cfg t v out ↔ WholeOrNothing cfg t v out.size := by
  cases t with
  | pod n => exact iff_of_true (atomic_pod v out) trivial
  | str w => exact atomic_str_iff v hout
  | warr n => exact iff_of_true (atomic_warr v out) trivial
  | vec t => exact atomic_vec_iff v hout

/-- A vector of one string and room for its own count and the string's. -/
theorem atomic_iff_vector :
    let v : Val defaultConfig (.vec (.str 1)) := [[⟨[104],rfl⟩]]
    Atomic defaultConfig (.vec (.str 1)) v ⟨[],16⟩ ↔
      WholeOrNothing defaultConfig (.vec (.str 1)) v 16 :=
  @atomic_iff defaultConfig (.vec (.str 1)) [[⟨[104],rfl⟩]] ⟨[],16⟩ (by norm_num)

/-- The string "h" into eight bytes: its count is written, then the call fails. -/
theorem not_atomic_string : ¬∀ (cfg : Config) t (v : Val cfg t) (out : Output), out.size < 2^32 →
    Atomic cfg t v out := by
  intro h
  have hcall : amtsSerialize defaultConfig (.str 1) [⟨[104],rfl⟩] ⟨[],8⟩ =
      (false,⟨leBytes 8 1,0⟩) := by decide
  have hsame := h defaultConfig (.str 1) [⟨[104],rfl⟩] ⟨[],8⟩ (by norm_num) _ hcall
  exact absurd hsame (by decide)

/-- Below `2^32` bytes only a string on its own can fail half-way. -/
theorem wholeOrNothing_of_lt {t : Ty} (v : Val cfg t) (hlt : (encode cfg t v).length < 2^32)
    (ht : ∀ w, t ≠ .str w) (size : ℕ) : WholeOrNothing cfg t v size := by
  cases t with
  | pod n => trivial
  | str w => exact absurd rfl (ht w)
  | warr n => trivial
  | vec t =>
    have hsz : amtsSize cfg (.vec t) v = (encode cfg (.vec t) v).length := by
      have hwire := wire_eq v hlt
      rw [← hwire] at hlt ⊢
      exact amtsSize_wire v hlt
    have hneed : need cfg (.vec t) v ≤ amtsSize cfg (.vec t) v := by
      have hok := @amtsSerialize_ok _ _ v ⟨[],amtsSize cfg (.vec t) v⟩ hlt hsz.ge
      have htakes := @takes _ _ v ⟨[],amtsSize cfg (.vec t) v⟩ (hsz.trans_lt hlt)
      exact htakes.iff.mp (by rw [hok])
    rw [WholeOrNothing]
    omega

end BinarySerializer
end SdkCp
