import Mathlib.Tactic
import Mathlib.Data.List.Basic

/-! Byte sequences and byte-addressed memory: little-endian encodings of
naturals, and loads and stores of byte ranges with their frame lemmas. -/
namespace SdkCp
namespace Bytes

/-- The low `n` bytes of `v`, least significant first. -/
def leBytes : ℕ → ℕ → List UInt8
  | 0, _ => []
  | n+1, v => UInt8.ofNat v :: leBytes n (v/256)

/-- The number a little-endian byte sequence stands for. -/
def ofLE : List UInt8 → ℕ
  | [] => 0
  | b::bs => b.toNat + 256*ofLE bs

@[simp] theorem leBytes_length (n v : ℕ) : (leBytes n v).length = n := by
  induction n generalizing v with
  | zero => rfl
  | succ n ih => simp [leBytes,ih]

theorem ofLE_leBytes (n v : ℕ) (h : v < 256^n) : ofLE (leBytes n v) = v := by
  induction n generalizing v with
  | zero => simp only [pow_zero] at h; simp [leBytes,ofLE]; omega
  | succ n ih =>
    have hq : v/256 < 256^n := by
      rw [Nat.div_lt_iff_lt_mul (by norm_num)]
      rwa [pow_succ] at h
    simp only [leBytes,ofLE,ih _ hq,UInt8.toNat_ofNat']
    omega

theorem ofLE_lt (bs : List UInt8) : ofLE bs < 256^bs.length := by
  induction bs with
  | nil => simp [ofLE]
  | cons b bs ih =>
    have hb := b.toNat_lt
    simp only [ofLE,List.length_cons,pow_succ]
    omega

theorem leBytes_ofLE (bs : List UInt8) : leBytes bs.length (ofLE bs) = bs := by
  induction bs with
  | nil => rfl
  | cons b bs ih =>
    have hb := b.toNat_lt
    have hlow : UInt8.ofNat (b.toNat+256*ofLE bs) = b := by
      apply UInt8.toNat_inj.mp
      rw [UInt8.toNat_ofNat']
      omega
    have hhigh : (b.toNat+256*ofLE bs)/256 = ofLE bs := by omega
    rw [List.length_cons,ofLE,leBytes,hlow,hhigh,ih]

theorem ofLE_zeros (n : ℕ) : ofLE (List.replicate n 0) = 0 := by
  induction n with
  | zero => rfl
  | succ n ih =>
    rw [List.replicate_succ,ofLE,ih]
    rfl

theorem ofLE_append_zeros (bs : List UInt8) (n : ℕ) : ofLE (bs ++ List.replicate n 0) = ofLE bs := by
  induction bs with
  | nil => exact ofLE_zeros n
  | cons b bs ih => rw [List.cons_append,ofLE,ih,ofLE]

/-- Byte-addressed memory, unbounded so that an access outside an object stays visible. -/
abbrev Mem := ℕ → UInt8

/-- Write `bs` at address `a`. -/
def store (m : Mem) (a : ℕ) (bs : List UInt8) : Mem := fun i =>
  if a ≤ i then (bs[i-a]?).getD (m i) else m i

/-- The `n` bytes at address `a`. -/
def load (m : Mem) (a n : ℕ) : List UInt8 := (List.range n).map fun i => m (a+i)

@[simp] theorem load_length (m : Mem) (a n : ℕ) : (load m a n).length = n := by simp [load]

theorem load_getElem? (m : Mem) (a n i : ℕ) (h : i < n) : (load m a n)[i]? = some (m (a+i)) := by
  simp [load,h]

theorem load_congr {m m' : Mem} {a n : ℕ} (h : ∀ i, a ≤ i → i < a+n → m' i = m i) :
    load m' a n = load m a n := by
  apply List.map_congr_left
  intro i hi
  exact h (a+i) (by omega) (by simp at hi; omega)

theorem store_apply_of_outside {m : Mem} {a i : ℕ} {bs : List UInt8}
    (h : i < a ∨ a+bs.length ≤ i) : store m a bs i = m i := by
  unfold store
  split
  · rw [List.getElem?_eq_none (by omega),Option.getD_none]
  · rfl

theorem store_apply_add {m : Mem} {a i : ℕ} {bs : List UInt8} (h : i < bs.length) :
    store m a bs (a+i) = bs[i] := by
  simp [store,List.getElem?_eq_getElem h]

@[simp] theorem load_store_self (m : Mem) (a : ℕ) (bs : List UInt8) :
    load (store m a bs) a bs.length = bs := by
  apply List.ext_getElem (by simp)
  intro i _ h
  simp only [load,List.getElem_map,List.getElem_range,store_apply_add h]

theorem store_append (m : Mem) (a : ℕ) (bs cs : List UInt8) :
    store (store m a bs) (a+bs.length) cs = store m a (bs ++ cs) := by
  funext i
  rcases Nat.lt_or_ge i a with hlow | hlow
  · rw [store_apply_of_outside (Or.inl (by omega)),store_apply_of_outside (Or.inl hlow),
      store_apply_of_outside (Or.inl hlow)]
  · obtain ⟨j,rfl⟩ := Nat.exists_eq_add_of_le hlow
    rcases Nat.lt_or_ge j bs.length with hj | hj
    · rw [store_apply_of_outside (Or.inl (by omega)),store_apply_add hj,
        store_apply_add (by rw [List.length_append]; omega),List.getElem_append_left hj]
    · have hsub : a+j-(a+bs.length) = j-bs.length := by omega
      simp only [store,if_pos (by omega : a+bs.length ≤ a+j),if_pos (Nat.le_add_right a j),hsub,
        Nat.add_sub_cancel_left,List.getElem?_append_right hj,List.getElem?_eq_none hj,Option.getD_none]

theorem load_append (m : Mem) (a n k : ℕ) : load m a (n+k) = load m a n ++ load m (a+n) k := by
  rw [load,List.range_add,List.map_append,List.map_map]
  simp [load,Function.comp_def,Nat.add_assoc]

theorem store_load (m : Mem) (a n : ℕ) : store m a (load m a n) = m := by
  funext i
  rcases Nat.lt_or_ge i a with hlow | hlow
  · exact store_apply_of_outside (Or.inl hlow)
  · obtain ⟨j,rfl⟩ := Nat.exists_eq_add_of_le hlow
    rcases Nat.lt_or_ge j n with hj | hj
    · rw [store_apply_add (by simpa using hj)]
      simp [load]
    · exact store_apply_of_outside (Or.inr (by simpa using hj))

theorem load_take (m : Mem) (a n : ℕ) {k : ℕ} (h : k ≤ n) : (load m a n).take k = load m a k := by
  rw [load,← List.map_take,List.take_range,Nat.min_eq_left h,load]

/-- Write the `n`-byte little-endian image of `v`. -/
def storeLE (m : Mem) (a n v : ℕ) : Mem := store m a (leBytes n v)

/-- Read an `n`-byte little-endian number. -/
def loadLE (m : Mem) (a n : ℕ) : ℕ := ofLE (load m a n)

theorem loadLE_congr {m m' : Mem} {a n : ℕ} (h : ∀ i, a ≤ i → i < a+n → m' i = m i) :
    loadLE m' a n = loadLE m a n := by
  rw [loadLE,load_congr h,loadLE]

theorem storeLE_apply_of_outside {m : Mem} {a n v i : ℕ} (h : i < a ∨ a+n ≤ i) :
    storeLE m a n v i = m i :=
  store_apply_of_outside (by simpa using h)

@[simp] theorem loadLE_storeLE_self {m : Mem} {a n v : ℕ} (h : v < 256^n) :
    loadLE (storeLE m a n v) a n = v := by
  have hl := load_store_self m a (leBytes n v)
  rw [leBytes_length] at hl
  rw [loadLE,storeLE,hl,ofLE_leBytes n v h]

@[simp] theorem loadLE_storeLE_of_disjoint {m : Mem} {a b n k v : ℕ} (h : a+k ≤ b ∨ b+n ≤ a) :
    loadLE (storeLE m a k v) b n = loadLE m b n :=
  loadLE_congr fun _ hb hn => storeLE_apply_of_outside (by omega)

end Bytes
end SdkCp
