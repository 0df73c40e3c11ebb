import SdkCp.FoldHash
import SdkCp.LzoServers

/-! What the hashes of tools/hash.hpp protect: a changed byte of a stored record is reported by `get`
of dataport_direct.hpp, and one of a packet's header by the decoder of server_linux.hpp. -/
namespace SdkCp
namespace Dataport

open Bytes FoldHash

theorem reversible_fnv1a :
    Reversible fun (result : UInt64) (b : UInt8) => (result ^^^ b.toUInt64)*1099511628211 := by
  have hcancel : ∀ x y : UInt64, x*1099511628211 = y*1099511628211 → x = y := by
    intro x y h
    have hunit : (1099511628211 : UInt64)*14886173955864302971 = 1 := by decide
    have := congrArg (· * (14886173955864302971 : UInt64)) h
    simpa [UInt64.mul_assoc,hunit] using this
  constructor
  · intro b x y h
    exact (UInt64.xor_left_inj _).mp (hcancel _ _ h)
  · intro x b c h
    exact UInt8.toUInt64_inj.mp ((UInt64.xor_right_inj _).mp (hcancel _ _ h))

theorem fnv1aHashBytes_set {bs : List UInt8} {i : ℕ} {b : UInt8} (hi : i < bs.length)
    (hb : bs[i]? ≠ some b) : fnv1aHashBytes (bs.set i b) ≠ fnv1aHashBytes bs :=
  reversible_fnv1a.foldl_set_ne hi hb _

/-- A record that is found: its header, its data and the hash that protects it. -/
theorem get_ok {lib : Library} {file out data : List UInt8} {addr : ℤ}
    (h : get lib file addr out = (data,.ok)) : ∃ p : ℕ, addr = p ∧ 0 < p ∧ lib.opens = true ∧
    lib.seeks = true ∧ lib.resizes = true ∧ p+headerSize+data.length ≤ file.length ∧ 0 < data.length ∧
    (MessageHeader.ofBytes ((file.drop p).take headerSize)).size = data.length ∧
    data = (file.drop (p+headerSize)).take data.length ∧
    fnv1aHashBytes data = (MessageHeader.ofBytes ((file.drop p).take headerSize)).hash := by
  unfold get at h
  split at h
  · simp at h
  rename_i hzero
  split at h
  · simp at h
  rename_i hopens
  unfold databaseRead at h
  split at h
  · simp at h
  rename_i hseek
  rw [not_or] at hseek
  cases hhead : fread file addr.toNat headerSize with
  | none => simp [hhead] at h
  | some bs =>
    simp only [hhead] at h
    split at h
    · simp at h
    rename_i hresizes
    cases hdata : fread file (addr.toNat+headerSize) (MessageHeader.ofBytes bs).size with
    | none => simp [hdata] at h
    | some data' =>
      simp only [hdata,Prod.mk.injEq] at h
      obtain ⟨rfl,hhash⟩ := h
      unfold fread at hhead hdata
      obtain ⟨-,hbs⟩ := Option.ite_none_right_eq_some.mp hhead
      obtain rfl := Option.some.inj hbs
      obtain ⟨hlen,hval⟩ := Option.ite_none_right_eq_some.mp hdata
      obtain rfl := Option.some.inj hval
      have hlength : ((file.drop (addr.toNat+headerSize)).take
          (MessageHeader.ofBytes ((file.drop addr.toNat).take headerSize)).size).length =
          (MessageHeader.ofBytes ((file.drop addr.toNat).take headerSize)).size := by
        rw [List.length_take,List.length_drop]
        omega
      refine ⟨addr.toNat,by omega,by omega,by simpa using hopens,by simpa using hseek.2,
        by simpa using hresizes,by omega,by omega,hlength.symm,by rw [hlength],?_⟩
      by_contra hne
      simp [hne] at hhash

theorem get_found {lib : Library} {file : List UInt8} {q n : ℕ} (out : List UInt8) (hq : 0 < q)
    (hopens : lib.opens = true) (hseeks : lib.seeks = true) (hresizes : lib.resizes = true)
    (hsize : (MessageHeader.ofBytes ((file.drop q).take headerSize)).size = n) (hn : 0 < n)
    (hlen : q+headerSize+n ≤ file.length) : get lib file q out =
    ((file.drop (q+headerSize)).take n,
      if fnv1aHashBytes ((file.drop (q+headerSize)).take n) =
        (MessageHeader.ofBytes ((file.drop q).take headerSize)).hash then .ok else .invalidHash) := by
  have hhead : fread file q headerSize = some ((file.drop q).take headerSize) :=
    if_pos ⟨by decide,by omega⟩
  have hdata : fread file (q+headerSize) n = some ((file.drop (q+headerSize)).take n) :=
    if_pos ⟨hn,hlen⟩
  simp only [get,databaseRead,hopens,hseeks,hresizes,Int.toNat_natCast,hhead,hsize,hdata]
  rw [if_neg (by omega),if_neg (by simp),if_neg (by simp),if_neg (by simp)]

theorem ofLE_inj {xs ys : List UInt8} (hlen : xs.length = ys.length) (h : ofLE xs = ofLE ys) :
    xs = ys := by
  rw [← leBytes_ofLE xs,hlen,h,leBytes_ofLE]

theorem set_ne {xs : List UInt8} {i : ℕ} {b : UInt8} (hi : i < xs.length) (hb : xs[i]? ≠ some b) :
    xs.set i b ≠ xs := by
  intro heq
  rw [← heq,List.getElem?_set_self hi] at hb
  exact hb rfl

theorem hash_set_ne {bs : List UInt8} {i : ℕ} {b : UInt8} (hi : i < 8) (hlen : bs.length = headerSize)
    (hb : bs[i]? ≠ some b) :
    (MessageHeader.ofBytes (bs.set i b)).hash ≠ (MessageHeader.ofBytes bs).hash := by
  intro heq
  have hlt : ∀ xs : List UInt8, ofLE (xs.take 8) < 2^64 := by
    intro xs
    refine (ofLE_lt _).trans_le ?_
    calc 256^(xs.take 8).length ≤ 256^8 := Nat.pow_le_pow_right (by norm_num) (by simp)
      _ = 2^64 := by norm_num
  have hnat := congrArg UInt64.toNat heq
  simp only [MessageHeader.ofBytes,UInt64.toNat_ofNat',Nat.mod_eq_of_lt (hlt _)] at hnat
  have hbytes := ofLE_inj (by simp) hnat
  rw [List.take_set] at hbytes
  refine set_ne (by simp [hlen,headerSize]; omega) ?_ hbytes
  rwa [List.getElem?_take_of_lt hi]

/-- One changed byte in the hash or in the data of a record is found by every `get` of it. -/
theorem get_detects {lib : Library} {file out data : List UInt8} {addr : ℤ} {p : ℕ} {b : UInt8}
    (h : get lib file addr out = (data,.ok))
    (hp : addr ≤ p ∧ p < addr+8 ∨ addr+headerSize ≤ p ∧ p < addr+headerSize+data.length)
    (hb : file[p]? ≠ some b) : (get lib (file.set p b) addr out).2 = .invalidHash := by
  obtain ⟨q,rfl,hq,hopens,hseeks,hresizes,hlen,hpos,hsize,hdata,hhash⟩ := get_ok h
  have hlen' : q+headerSize+data.length ≤ (file.set p b).length := by simpa using hlen
  have hsz : headerSize = 16 := rfl
  rcases hp with hp | hp
  · -- the hash
    have hhead : ((file.set p b).drop q).take headerSize = ((file.drop q).take headerSize).set (p-q) b :=
      window_set_inside (by omega)
    have hbody : ((file.set p b).drop (q+headerSize)).take data.length = data :=
      (window_set_outside (by omega)).trans hdata.symm
    have hsize' : (MessageHeader.ofBytes (((file.set p b).drop q).take headerSize)).size = data.length := by
      rw [← hsize,hhead,MessageHeader.ofBytes,MessageHeader.ofBytes,window_set_outside (by omega)]
    rw [get_found out hq hopens hseeks hresizes hsize' hpos hlen',hbody,hhead,hhash]
    refine if_neg (hash_set_ne (by omega) (by simp [headerSize] at hlen ⊢; omega) ?_).symm
    rwa [getElem?_window (by omega) (by omega)]
  · -- the data
    have hhead : ((file.set p b).drop q).take headerSize = (file.drop q).take headerSize :=
      window_set_outside (by omega)
    have hbody : ((file.set p b).drop (q+headerSize)).take data.length =
        data.set (p-(q+headerSize)) b := by
      rw [window_set_inside (by omega),← hdata]
    rw [get_found out hq hopens hseeks hresizes (hhead ▸ hsize) hpos hlen',hbody,hhead,← hhash]
    refine if_neg (fnv1aHashBytes_set (by omega) ?_)
    rw [hdata,getElem?_window (by omega) (by omega)]
    exact hb

/-- A record of two bytes at address 1, with the last of them changed. -/
theorem get_detects_last :
    let file := 0::MessageHeader.bytes ⟨fnv1aHashBytes [7,8],2⟩ ++ [7,8]
    (get (.good []) file 1 []).1 = [7,8] ∧ (get (.good []) (file.set 18 9) 1 []).2 = .invalidHash := by
  have hget : get (.good []) (0::MessageHeader.bytes ⟨fnv1aHashBytes [7,8],2⟩ ++ [7,8]) 1 [] =
      ([7,8],.ok) := by decide
  exact ⟨congrArg Prod.fst hget,get_detects hget (.inr ⟨by decide,by decide⟩) (by decide)⟩

end Dataport

namespace ExtendedProtocol

open Bytes FoldHash
open HttpServer (HTTP_NOCONTENT)

theorem reversible_fnv1a32 :
    Reversible fun (result : UInt32) (b : UInt8) => (result ^^^ b.toUInt32)*16777619 := by
  have hcancel : ∀ x y : UInt32, x*16777619 = y*16777619 → x = y := by
    intro x y h
    have hunit : (16777619 : UInt32)*899433627 = 1 := by decide
    have := congrArg (· * (899433627 : UInt32)) h
    simpa [UInt32.mul_assoc,hunit] using this
  constructor
  · intro b x y h
    exact (UInt32.xor_left_inj _).mp (hcancel _ _ h)
  · intro x b c h
    exact UInt8.toUInt32_inj.mp ((UInt32.xor_right_inj _).mp (hcancel _ _ h))

theorem fnv1aHashBytes32_set {bs : List UInt8} {i : ℕ} {b : UInt8} (hi : i < bs.length)
    (hb : bs[i]? ≠ some b) : fnv1aHashBytes32 (bs.set i b) ≠ fnv1aHashBytes32 bs :=
  reversible_fnv1a32.foldl_set_ne hi hb _

/-- The hash field of a header. -/
def hashField (bs : List UInt8) : UInt32 := UInt32.ofNat (ofLE ((bs.drop 5).take 4))

theorem hashField_set_ne {bs : List UInt8} {i : ℕ} {b : UInt8} (hi : 5 ≤ i) (hi' : i < kHeaderSize)
    (hlen : kHeaderSize ≤ bs.length) (hb : bs[i]? ≠ some b) : hashField (bs.set i b) ≠ hashField bs := by
  intro heq
  have hsz : kHeaderSize = 9 := rfl
  have hlt : ∀ xs : List UInt8, ofLE (xs.take 4) < 2^32 := by
    intro xs
    refine (ofLE_lt _).trans_le ?_
    calc 256^(xs.take 4).length ≤ 256^4 := Nat.pow_le_pow_right (by norm_num) (by simp)
      _ = 2^32 := by norm_num
  have hnat := congrArg UInt32.toNat heq
  simp only [hashField,UInt32.toNat_ofNat',Nat.mod_eq_of_lt (hlt _)] at hnat
  have hbytes := Dataport.ofLE_inj (by simp) hnat
  rw [window_set_inside hi] at hbytes
  refine Dataport.set_ne (by simp; omega) ?_ hbytes
  rwa [getElem?_window hi (by omega)]

/-- A packet whose header differs in one byte from one that is accepted is refused. -/
theorem not_accepted_of_set {body body' : List UInt8} {p : ℕ} {b : UInt8} (h : Accepted body)
    (hp : p < kHeaderSize) (hb : body[p]? ≠ some b)
    (hhead : body'.take kHeaderSize = (body.set p b).take kHeaderSize) : ¬Accepted body' := by
  intro h'
  have hsz : kHeaderSize = 9 := rfl
  have hlen := h.longer
  have hsplit : ∀ bs : List UInt8, (NetHeader.ofBytes bs).crc32 = hashField (bs.take kHeaderSize) ∧
      bs.take kHeaderDataSize = (bs.take kHeaderSize).take kHeaderDataSize := by
    intro bs
    refine ⟨?_,by rw [List.take_take]; rfl⟩
    rw [hashField,List.drop_take,List.take_take]
    rfl
  have hcheck := h.hash
  have hcheck' := h'.hash
  rw [(hsplit body).1,(hsplit body).2] at hcheck
  rw [(hsplit body').1,(hsplit body').2,hhead,List.take_set] at hcheck'
  have hb' : (body.take kHeaderSize)[p]? ≠ some b := by rwa [List.getElem?_take_of_lt hp]
  have hlen' : (body.take kHeaderSize).length = kHeaderSize := by
    rw [List.length_take]
    omega
  by_cases hdata : p < kHeaderDataSize
  · -- the data of the header: another hash, the same field
    have hfield : hashField ((body.take kHeaderSize).set p b) = hashField (body.take kHeaderSize) := by
      have hlt : p < 5 := hdata
      rw [hashField,hashField,window_set_outside (.inl hlt)]
    rw [hfield,hcheck,List.take_set] at hcheck'
    refine fnv1aHashBytes32_set ?_ ?_ hcheck'.symm
    · rw [List.length_take,hlen']
      omega
    · rwa [List.getElem?_take_of_lt hdata]
  · -- the field: the same hash
    rw [List.take_set_of_le (by omega),← hcheck] at hcheck'
    exact hashField_set_ne (by simp [kHeaderDataSize] at hdata; omega) hp hlen'.ge hb' hcheck'

/-- The worker answers such a packet with an error, and neither parses it nor calls its handler. -/
theorem processRequest_header_error {J : Type*} (lib : Library J) (rh : RequestHandler J)
    (wc : WorkerContext J) {body body' : List UInt8} {p : ℕ} {b : UInt8} (h : Accepted body)
    (hp : p < kHeaderSize) (hb : body[p]? ≠ some b)
    (hhead : body'.take kHeaderSize = (body.set p b).take kHeaderSize) : ∃ reason,
    processRequest lib rh wc body' = some
      ({ wc with requestData := if body'.length > kHeaderSize then body' else wc.requestData },
        [.error HTTP_NOCONTENT reason]) := by
  obtain ⟨reason,hreason⟩ := receive_of_not_accepted lib.lzo wc.uncompressedData
    (not_accepted_of_set h hp hb hhead)
  refine ⟨reason,?_⟩
  simp only [processRequest,hreason]

/-- The size byte of a packet changed, and its text. -/
theorem processRequest_header_error_size : ∃ reason,
    processRequest bracesLibrary (fun j j' => (true,j,j')) ⟨[],[],[],(),()⟩ ((bracesRequest.set 1 3).set 9 0) =
      some (⟨(bracesRequest.set 1 3).set 9 0,[],[],(),()⟩,[.error HTTP_NOCONTENT reason]) :=
  processRequest_header_error bracesLibrary _ _ ⟨by decide,by decide,by decide⟩
    (by decide : 1 < kHeaderSize) (by decide : bracesRequest[1]? ≠ some 3) (by decide)

end ExtendedProtocol
end SdkCp
