import SdkCp.WebSocketFrame

/-! `fb_end_prepare` with encryption: two runs on payloads of the same length that the cipher
treats alike. Where it fails the frame of the plaintext is returned, so they differ. -/
namespace SdkCp
namespace WebSocket

open Bytes FrameBufferT

def toInt32 (x : ℤ) : ℤ := x.bmod (2^32)

/-- A signed value converted to `size_t`. -/
def toSizeT (x : ℤ) : ℕ := (x % 2^64).toNat

/-! `std::string` -/

/-- `s.resize(n)`, with the storage at `place` if it can be had; otherwise it throws. -/
def resize (place : Option ℕ) (s : StdString) (n : ℕ) (m : Mem) : Option (StdString × Mem) :=
  if h : n < 2^63 then
    place.map fun p =>
      (⟨p,n,h⟩,store m p (load m s.data (min s.size n) ++ List.replicate (n-s.size) 0))
  else none

/-! OpenSSL -/

/-- How the calls of one encryption end: whether there is a context, whether it could be
initialised, and of the other two whether they succeed and what they write. -/
structure CipherOutcome where
  ctxNew : Bool
  encryptInit : Bool
  encryptUpdate : Bool × List UInt8
  encryptFinal : Bool × List UInt8

/-- What the library does with a key, an initialisation vector, a plaintext length and the
plaintext. -/
abbrev OpenSSL := List UInt8 → List UInt8 → ℤ → List UInt8 → CipherOutcome

/-! server_ws_user_win.hpp -/

/-- `encrypt`, with the result it returns. -/
def encrypt (ssl : OpenSSL) (plaintext : ℕ) (plaintextLen : ℤ) (key iv : List UInt8)
    (ciphertext : ℕ) (m : Mem) : ℤ × Mem :=
  let o := ssl key iv plaintextLen (load m plaintext plaintextLen.toNat)
  if !o.ctxNew then (-1,m)
  else if !o.encryptInit then (-1,m)
  else
    let m := store m ciphertext o.encryptUpdate.2
    if !o.encryptUpdate.1 then (-1,m)
    else
      let m := store m (ciphertext+o.encryptUpdate.2.length) o.encryptFinal.2
      if !o.encryptFinal.1 then (-1,m)
      else (toInt32 (o.encryptUpdate.2.length+o.encryptFinal.2.length),m)

/-- `EVP_MAX_BLOCK_LENGTH`. -/
def maxBlockLength : ℕ := 32

/-- `fb_end_prepare`; `none` is what a `resize` throws, and `place` is where `tmp` has its storage
once it has grown. -/
def fbEndPrepare (ssl : OpenSSL) (place : Option ℕ) (enc : Bool) (aesKey aesIvc : Option (List UInt8))
    (data tmp : StdString) (m : Mem) : Option (FrameBufferT × Mem) :=
  match enc,aesKey,aesIvc with
  | true,some key,some iv =>
    (resize place tmp (data.size+maxBlockLength) m).bind fun (tmp,m) =>
      let m := store m tmp.data (load m data.data kPrefixSize)
      let (len,m) := encrypt ssl (data.data+kPrefixSize) (toInt32 data.size-kPrefixSize) key iv
        (tmp.data+kPrefixSize) m
      if len = -1 then some (frameBufferNewInPlace 1 1 data m)
      else
        -- the string shrinks and keeps its storage
        (resize (some tmp.data) tmp (toSizeT (toInt32 (len+kPrefixSize))) m).map fun (tmp,m) =>
          frameBufferNewInPlace 1 1 tmp m
  | _,_,_ => some (frameBufferNewInPlace 1 1 data m)

/-- The bytes of the frame that is returned. -/
def frameBytes (r : Option (FrameBufferT × Mem)) : Option (List UInt8) :=
  r.bind fun (fb,m) => fb.data.map fun p => load m p fb.len

/-- All four calls succeed. -/
def CipherOutcome.Succeeds (o : CipherOutcome) : Prop :=
  o.ctxNew ∧ o.encryptInit ∧ o.encryptUpdate.1 ∧ o.encryptFinal.1

/-- What the cipher writes. -/
def CipherOutcome.output (o : CipherOutcome) : List UInt8 := o.encryptUpdate.2 ++ o.encryptFinal.2

/-- A string with a payload behind its prefix, and the storage of `tmp`, which is another one. -/
structure Plain where
  data : StdString
  tmp : StdString
  place : Option ℕ
  prefix_le : kPrefixSize ≤ data.size
  separate : ∀ p ∈ place, p+(data.size+maxBlockLength) ≤ data.data ∨ data.data+data.size ≤ p

/-- The storage that `tmp` needs can be had. -/
def Plain.Grows (s : Plain) : Prop := s.data.size+maxBlockLength < 2^63 ∧ s.place ≠ none

/-- The length that `encrypt` is called with. -/
def Plain.len (s : Plain) : ℤ := toInt32 s.data.size-kPrefixSize

/-- The calls on the payload `p`. -/
def Plain.outcome (s : Plain) (ssl : OpenSSL) (key iv p : List UInt8) : CipherOutcome :=
  ssl key iv s.len (p.take s.len.toNat)

/-- What the library promises of its output: it is at most a block of 16 bytes longer than the
input. -/
def Plain.Fits (s : Plain) (o : CipherOutcome) : Prop :=
  o.output.length ≤ s.len.toNat+16

/-- The frame that is returned for the payload `p`. -/
def Plain.frame (s : Plain) (ssl : OpenSSL) (key iv : List UInt8) (m : Mem) (p : List UInt8) :
    Option (List UInt8) :=
  frameBytes (fbEndPrepare ssl s.place true (some key) (some iv) s.data s.tmp
    (store m (s.data.data+kPrefixSize) p))

variable {s : Plain} {ssl : OpenSSL} {key iv p q : List UInt8} {m : Mem}

theorem toInt32_le {x : ℤ} (h : 0 ≤ x) : toInt32 x ≤ x ∧ toInt32 x < 2^31 := by
  unfold toInt32
  rw [Int.bmod_def]
  split <;> omega

theorem toInt32_eq {x : ℤ} (h : 0 ≤ x) (hlt : x < 2^31) : toInt32 x = x := by
  unfold toInt32
  rw [Int.bmod_def]
  split <;> omega

/-- The frame of a payload of its shortest length form. -/
def shortestFrame (payload : List UInt8) (h : payload.length < 2^63) : Unmasked :=
  ⟨1,1,payload,.shortest payload.length,by decide,by decide,LengthForm.shortest_fits h⟩

theorem frameBytes_inPlace {d : StdString} {payload : List UInt8}
    (hsize : d.size = kPrefixSize+payload.length)
    (hload : load m (d.data+kPrefixSize) payload.length = payload) :
    frameBytes (some (frameBufferNewInPlace 1 1 d m)) =
      some (shortestFrame payload (by have := d.size_lt; omega)).bytes := by
  have hlt : payload.length < 2^63 := by
    have := d.size_lt
    omega
  have heq := frameBufferNewInPlace_eq (f:=shortestFrame payload hlt) rfl hsize m
  have hfin : (shortestFrame payload hlt).fin = 1 := rfl
  have hopcode : (shortestFrame payload hlt).opcode = 1 := rfl
  rw [hfin,hopcode] at heq
  rw [heq]
  exact congrArg some (load_frameStart (f:=shortestFrame payload hlt) hload)

theorem shortestFrame_inj (hp : p.length < 2^63) (hq : q.length < 2^63)
    (h : (shortestFrame p hp).bytes = (shortestFrame q hq).bytes) : p = q := by
  have hdp := decode_bytes (shortestFrame p hp) []
  have hdq := decode_bytes (shortestFrame q hq) []
  rw [h,hdq] at hdp
  simp only [Option.some.injEq,Prod.mk.injEq] at hdp
  exact hdp.1.2.2.symm

/-- `encrypt` returns -1 exactly if a call fails, and writes only the output of the cipher. -/
theorem encrypt_spec (ssl : OpenSSL) (a : ℕ) (len : ℤ) (key iv : List UInt8) (c : ℕ) (m : Mem)
    {o : CipherOutcome} (ho : ssl key iv len (load m a len.toNat) = o) (hlt : o.output.length < 2^31) :
    ∃ m', (∀ i, i < c ∨ c+o.output.length ≤ i → m' i = m i) ∧
      (¬o.Succeeds → encrypt ssl a len key iv c m = (-1,m')) ∧
      (o.Succeeds → encrypt ssl a len key iv c m = (↑o.output.length,m') ∧
        load m' c o.output.length = o.output) := by
  obtain ⟨ctxNew,init,⟨update,out⟩,⟨final,out'⟩⟩ := o
  simp only [CipherOutcome.output,List.length_append] at hlt ⊢
  have hupdate : ∀ i, i < c ∨ c+(out.length+out'.length) ≤ i → store m c out i = m i :=
    fun i hi => store_apply_of_outside (by omega)
  have hfinal : ∀ i, i < c ∨ c+(out.length+out'.length) ≤ i →
      store (store m c out) (c+out.length) out' i = m i := by
    intro i hi
    rw [store_append]
    exact store_apply_of_outside (by rw [List.length_append]; omega)
  simp only [CipherOutcome.Succeeds,encrypt,ho]
  cases ctxNew
  · exact ⟨m,fun _ _ => rfl,fun _ => rfl,by simp⟩
  cases init
  · exact ⟨m,fun _ _ => rfl,fun _ => rfl,by simp⟩
  cases update
  · exact ⟨_,hupdate,fun _ => rfl,by simp⟩
  cases final
  · exact ⟨_,hfinal,fun _ => rfl,by simp⟩
  · refine ⟨_,hfinal,by simp,fun _ => ⟨?_,?_⟩⟩
    · have hint := toInt32_eq (x:=out.length+out'.length) (by omega) (by omega)
      simp [hint]
    · rw [store_append,← List.length_append]
      exact load_store_self m c _

/-- The frame of the output, which is not returned if the length with the prefix is too large
for an `int`. -/
def CipherOutcome.frame (o : CipherOutcome) : Option (List UInt8) :=
  if h : o.output.length+kPrefixSize < 2^31 then
    some (shortestFrame o.output (by omega)).bytes
  else none

theorem Plain.resize_grows (hgrow : s.Grows) (m : Mem) : ∃ tmp m',
    resize s.place s.tmp (s.data.size+maxBlockLength) m = some (tmp,m') ∧ tmp.data ∈ s.place ∧
      tmp.size = s.data.size+maxBlockLength ∧
      ∀ i, i < tmp.data ∨ tmp.data+tmp.size ≤ i → m' i = m i := by
  obtain ⟨hsize,hplace⟩ := hgrow
  obtain ⟨t,ht⟩ := Option.ne_none_iff_exists'.mp hplace
  simp only [resize,ht]
  rw [dif_pos hsize]
  refine ⟨_,_,rfl,rfl,rfl,fun i hi => store_apply_of_outside ?_⟩
  simp only [List.length_append,load_length,List.length_replicate] at hi ⊢
  omega

theorem frameBytes_shrunk {o : CipherOutcome} {tmp : StdString}
    (hsize : o.output.length+kPrefixSize ≤ tmp.size) (hmax : o.output.length < 2^31)
    (hout : load m (tmp.data+kPrefixSize) o.output.length = o.output) :
    frameBytes ((resize (some tmp.data) tmp (toSizeT (toInt32 (o.output.length+kPrefixSize))) m).map
      fun (tmp,m) => frameBufferNewInPlace 1 1 tmp m) = o.frame := by
  rcases Nat.lt_or_ge (o.output.length+kPrefixSize) (2^31) with hsmall | hlarge
  · have hn : toSizeT (toInt32 (o.output.length+kPrefixSize)) = o.output.length+kPrefixSize := by
      rw [toInt32_eq (by omega) (by omega),toSizeT]
      omega
    -- the shorter string keeps its first bytes
    have hkeep : store m tmp.data (load m tmp.data (min tmp.size (o.output.length+kPrefixSize)) ++
        List.replicate (o.output.length+kPrefixSize-tmp.size) 0) = m := by
      rw [Nat.sub_eq_zero_of_le hsize,List.replicate_zero,List.append_nil,store_load]
    rw [hn,resize,dif_pos (by omega),CipherOutcome.frame,dif_pos hsmall]
    simp only [Option.map_some,hkeep]
    exact frameBytes_inPlace (Nat.add_comm _ _) hout
  · have hn : 2^63 ≤ toSizeT (toInt32 (o.output.length+kPrefixSize)) := by
      simp only [kPrefixSize] at hlarge ⊢
      unfold toSizeT toInt32
      rw [Int.bmod_def]
      split <;> omega
    rw [resize,dif_neg (by omega),CipherOutcome.frame,dif_neg hlarge.not_gt]
    rfl

/-- What is returned: the frame of the output if all calls succeed, otherwise that of the
plaintext. -/
theorem Plain.frame_eq (hp : s.data.size = kPrefixSize+p.length) (hgrow : s.Grows)
    (hfit : s.Fits (s.outcome ssl key iv p)) :
    (¬(s.outcome ssl key iv p).Succeeds → s.frame ssl key iv m p =
      some (shortestFrame p (by have := s.data.size_lt; omega)).bytes) ∧
    ((s.outcome ssl key iv p).Succeeds → s.frame ssl key iv m p = (s.outcome ssl key iv p).frame) := by
  obtain ⟨tmp,m₁,hresize,htmp,hsize,hm₁⟩ :=
    s.resize_grows hgrow (store m (s.data.data+kPrefixSize) p)
  have hsep := s.separate _ htmp
  rw [← hsize] at hsep
  have hlt := s.data.size_lt
  obtain ⟨hle,hint⟩ := toInt32_le (x:=s.data.size) (by omega)
  have hlen : s.len.toNat ≤ p.length ∧ s.len.toNat+16 < 2^31 := by
    simp only [Plain.len,kPrefixSize] at hp ⊢
    omega
  have hfits : (s.outcome ssl key iv p).output.length ≤ s.len.toNat+16 := hfit
  simp only [kPrefixSize] at hp
  simp only [maxBlockLength] at hsize
  set m₂ := store m₁ tmp.data (load m₁ s.data.data kPrefixSize) with hm₂
  have hout₂ : ∀ i, i < tmp.data ∨ tmp.data+tmp.size ≤ i →
      m₂ i = store m (s.data.data+kPrefixSize) p i := by
    intro i hi
    rw [hm₂,store_apply_of_outside (by simp only [load_length,kPrefixSize]; omega),hm₁ i hi]
  have hpayload : ∀ m', (∀ i, i < tmp.data ∨ tmp.data+tmp.size ≤ i → m' i = m₂ i) →
      load m' (s.data.data+kPrefixSize) p.length = p := by
    intro m' hm'
    rw [load_congr fun i h₁ h₂ => (hm' i (by simp only [kPrefixSize] at h₁ h₂; omega)).trans
      (hout₂ i (by simp only [kPrefixSize] at h₁ h₂; omega)),load_store_self]
  have hinput : load m₂ (s.data.data+kPrefixSize) s.len.toNat = p.take s.len.toNat := by
    rw [← load_take m₂ _ p.length hlen.1,hpayload m₂ fun _ _ => rfl]
  obtain ⟨m₃,hm₃,hfail,hok⟩ := encrypt_spec ssl (s.data.data+kPrefixSize) s.len key iv
    (tmp.data+kPrefixSize) m₂ (o:=s.outcome ssl key iv p) (by rw [hinput]; rfl) (by omega)
  have hframe : s.frame ssl key iv m p = frameBytes (
      let (len,m) := encrypt ssl (s.data.data+kPrefixSize) s.len key iv (tmp.data+kPrefixSize) m₂
      if len = -1 then some (frameBufferNewInPlace 1 1 s.data m)
      else (resize (some tmp.data) tmp (toSizeT (toInt32 (len+kPrefixSize))) m).map fun (tmp,m) =>
        frameBufferNewInPlace 1 1 tmp m) := by
    simp only [Plain.frame,fbEndPrepare,hresize,Option.bind_some]
    rfl
  constructor
  · intro hnot
    rw [hframe,hfail hnot]
    simp only [if_true]
    refine frameBytes_inPlace hp (hpayload m₃ fun i hi => hm₃ i ?_)
    simp only [kPrefixSize]
    omega
  · intro hsucc
    obtain ⟨hres,hout⟩ := hok hsucc
    rw [hframe,hres]
    simp only
    rw [if_neg (by omega)]
    exact frameBytes_shrunk (by simp only [kPrefixSize]; omega) (by omega) hout

theorem Plain.frame_of_not_grows (h : ¬s.Grows) : s.frame ssl key iv m p = none := by
  have hresize : ∀ m, resize s.place s.tmp (s.data.size+maxBlockLength) m = none := by
    intro m
    unfold resize
    split
    · rename_i hsize
      have hplace : s.place = none := by
        by_contra hne
        exact h ⟨hsize,hne⟩
      rw [hplace]
      rfl
    · rfl
  simp only [Plain.frame,fbEndPrepare,hresize,Option.bind_none]
  rfl

/-- The frames of two payloads that the cipher treats alike are the same exactly if all calls
succeed, the payloads are the same, or there is no frame because `tmp` does not get its storage. -/
theorem frame_eq_iff (hp : s.data.size = kPrefixSize+p.length) (hq : s.data.size = kPrefixSize+q.length)
    (hsame : s.outcome ssl key iv p = s.outcome ssl key iv q) (hfit : s.Fits (s.outcome ssl key iv p)) :
    s.frame ssl key iv m p = s.frame ssl key iv m q ↔
      (s.outcome ssl key iv p).Succeeds ∨ p = q ∨ ¬s.Grows := by
  by_cases hgrow : s.Grows
  · obtain ⟨hfail,hok⟩ := Plain.frame_eq (m:=m) hp hgrow hfit
    obtain ⟨hfail',hok'⟩ := Plain.frame_eq (m:=m) hq hgrow (hsame ▸ hfit)
    rw [← hsame] at hfail' hok'
    by_cases hsucc : (s.outcome ssl key iv p).Succeeds
    · exact iff_of_true ((hok hsucc).trans (hok' hsucc).symm) (.inl hsucc)
    · rw [hfail hsucc,hfail' hsucc]
      simp only [hsucc,hgrow,not_true,or_false,false_or,Option.some.injEq]
      refine ⟨shortestFrame_inj _ _,?_⟩
      rintro rfl
      rfl
  · refine iff_of_true ?_ (.inr (.inr hgrow))
    rw [Plain.frame_of_not_grows hgrow,Plain.frame_of_not_grows hgrow]

/-- The string of `greetingString`, with two bytes of payload, and `tmp` behind it. -/
def shortPlain : Plain where
  data := greetingString
  tmp := ⟨200,0,by decide⟩
  place := some 200
  prefix_le := by decide
  separate p hp := by
    rw [← Option.mem_some.mp hp]
    exact .inr (by decide)

/-- A library that finds no memory for a context. -/
def exhausted : OpenSSL := fun _ _ _ _ => ⟨false,false,(false,[]),(false,[])⟩

theorem shortPlain_grows : shortPlain.Grows := ⟨by decide,by simp [shortPlain]⟩

theorem exhausted_fails (key iv p : List UInt8) :
    ¬(shortPlain.outcome exhausted key iv p).Succeeds := by
  simp [Plain.outcome,exhausted,CipherOutcome.Succeeds]

theorem exhausted_fits (key iv p : List UInt8) :
    shortPlain.Fits (shortPlain.outcome exhausted key iv p) := Nat.zero_le _

theorem frame_eq_iff_exhausted :
    shortPlain.frame exhausted (List.replicate 32 1) (List.replicate 16 2) (fun _ => 0) [5,6] ≠
      shortPlain.frame exhausted (List.replicate 32 1) (List.replicate 16 2) (fun _ => 0) [7,8] := by
  intro heq
  have hiff := @frame_eq_iff shortPlain exhausted (List.replicate 32 1) (List.replicate 16 2) [5,6] [7,8]
    (fun _ => 0) rfl rfl rfl (exhausted_fits _ _ _)
  rcases hiff.mp heq with hsucc | heq | hgrow
  · exact exhausted_fails _ _ _ hsucc
  · simp at heq
  · exact hgrow shortPlain_grows

/-- Whatever the two payloads are, the frame does not tell them apart. -/
def NoLeak (s : Plain) (ssl : OpenSSL) (key iv : List UInt8) (m : Mem) : Prop :=
  ∀ p q, s.data.size = kPrefixSize+p.length → s.data.size = kPrefixSize+q.length →
    s.outcome ssl key iv p = s.outcome ssl key iv q → s.Fits (s.outcome ssl key iv p) →
    s.frame ssl key iv m p = s.frame ssl key iv m q

theorem not_noLeak : ¬∀ s ssl key iv m, NoLeak s ssl key iv m := by
  intro hall
  have heq := hall shortPlain exhausted [] [] (fun _ => 0) [5,6] [7,8] rfl rfl rfl (exhausted_fits _ _ _)
  have hp := (Plain.frame_eq (s:=shortPlain) (p:=[5,6]) (m:=fun _ => 0) rfl shortPlain_grows
    (exhausted_fits [] [] _)).1 (exhausted_fails _ _ _)
  have hq := (Plain.frame_eq (s:=shortPlain) (p:=[7,8]) (m:=fun _ => 0) rfl shortPlain_grows
    (exhausted_fits [] [] _)).1 (exhausted_fails _ _ _)
  rw [hp,hq] at heq
  have hne := shortestFrame_inj _ _ (Option.some.inj heq)
  simp at hne

end WebSocket
end SdkCp
