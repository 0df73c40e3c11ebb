import SdkCp.FileReading

/-! tools/file.hpp: what read_all_file has in the string when it returns true. The pieces lie on
top of each other, at its beginning. -/
namespace SdkCp
namespace FileReading

section

variable {f : Stream} {n m j room : ℕ} {old data : List UInt8}

/-- The `n`-th piece is longer than `j`. -/
def Stream.Reaches (f : Stream) (n j : ℕ) : Prop := f.start n+j < f.start (n+1)

/-- At every position the byte of the file is the one that the last piece reaching there has, or
that `data` had if none does. -/
def Settles (f : Stream) (data : List UInt8) : Prop :=
  ∀ j < f.bytes.length,
    (∀ n, f.Reaches n j → (∀ k, n < k → ¬f.Reaches k j) → f.bytes[f.start n+j]? = f.bytes[j]?) ∧
      ((∀ n, ¬f.Reaches n j) → f.bytes[j]? = some (data.getD j 0))

/-- Where it returns true the string is the file. -/
def ContentRight (room : ℕ) (f : Stream) (data : List UInt8) : Prop :=
  ∀ calls result, readAllFile calls room (some f) data = some (.returned true result) →
    result = f.bytes

theorem takeD_getElem? (h : j < n) : (data.takeD n 0)[j]? = some (data.getD j 0) := by
  induction n generalizing j data with
  | zero => exact absurd h (Nat.not_lt_zero j)
  | succ n ih =>
    cases j with
    | zero => cases data <;> rfl
    | succ j =>
      rw [List.takeD_succ,List.getElem?_cons_succ,ih (Nat.lt_of_succ_lt_succ h)]
      cases data <;> simp

theorem piece_getElem? (h : f.Reaches n j) : (f.piece n)[j]? = f.bytes[f.start n+j]? := by
  have hlen := start_add_piece (f:=f) (n:=n)
  have hj : j < (f.piece n).length := by
    rw [Stream.Reaches] at h
    omega
  have hlt : j < f.reported-f.start n ∧ j < f.counts n := by
    simp only [Stream.piece,Stream.fread,List.length_take,List.length_drop] at hj
    omega
  rw [Stream.piece,Stream.fread,List.getElem?_take_of_lt hlt.2,List.getElem?_take_of_lt hlt.1,
    List.getElem?_drop]

theorem overlay_succ (hold : old.length = f.reported) (h : (overlay f old n).length = old.length) :
    (overlay f old (n+1)).length = old.length ∧
      (f.Reaches n j → (overlay f old (n+1))[j]? = f.bytes[f.start n+j]?) ∧
        (¬f.Reaches n j → (overlay f old (n+1))[j]? = (overlay f old n)[j]?) := by
  have hlen := start_add_piece (f:=f) (n:=n)
  have hle := start_le (f:=f) (n:=n+1)
  refine ⟨?_,fun hreach => ?_,fun hreach => ?_⟩
  · rw [overlay,List.length_append,List.length_drop]
    omega
  · have hj : j < (f.piece n).length := by
      rw [Stream.Reaches] at hreach
      omega
    rw [overlay,List.getElem?_append_left hj,piece_getElem? hreach]
  · have hj : (f.piece n).length ≤ j := by
      rw [Stream.Reaches] at hreach
      omega
    rw [overlay,List.getElem?_append_right hj,List.getElem?_drop]
    congr 1
    omega

theorem length_overlay (hold : old.length = f.reported) : (overlay f old n).length = old.length := by
  induction n with
  | zero => rfl
  | succ n ih => exact (overlay_succ (j:=0) hold ih).1

theorem overlay_of_none (hold : old.length = f.reported) (h : ∀ m < n, ¬f.Reaches m j) :
    (overlay f old n)[j]? = old[j]? := by
  induction n with
  | zero => rfl
  | succ n ih =>
    rw [(overlay_succ hold (length_overlay hold)).2.2 (h n n.lt_succ_self)]
    exact ih fun m hm => h m (hm.trans n.lt_succ_self)

theorem overlay_of_last (hold : old.length = f.reported) (hn : n < m) (hreach : f.Reaches n j)
    (h : ∀ k, n < k → k < m → ¬f.Reaches k j) : (overlay f old m)[j]? = f.bytes[f.start n+j]? := by
  induction m with
  | zero => exact absurd hn (Nat.not_lt_zero n)
  | succ m ih =>
    have hstep := overlay_succ (j:=j) (n:=m) hold (length_overlay hold)
    rcases Nat.eq_or_lt_of_le (Nat.lt_succ_iff.mp hn) with rfl | hlt
    · exact hstep.2.1 hreach
    · rw [hstep.2.2 (h m hlt m.lt_succ_self)]
      exact ih hlt fun k hk hkm => h k hk (hkm.trans m.lt_succ_self)

theorem not_reaches_of_done (hdone : f.start m = f.reported) (h : m ≤ n) : ¬f.Reaches n j := by
  have hmono := start_mono (f:=f) h
  have hle := start_le (f:=f) (n:=n+1)
  rw [Stream.Reaches]
  omega

theorem exists_last (h : ∃ n < m, f.Reaches n j) :
    ∃ n < m, f.Reaches n j ∧ ∀ k, n < k → k < m → ¬f.Reaches k j := by
  induction m with
  | zero =>
    obtain ⟨n,hn,-⟩ := h
    exact absurd hn (Nat.not_lt_zero n)
  | succ m ih =>
    by_cases hm : f.Reaches m j
    · exact ⟨m,m.lt_succ_self,hm,fun k hk hkm => by omega⟩
    · obtain ⟨n,hn,hreach⟩ := h
      have hlt : n < m := Nat.lt_of_le_of_ne (Nat.lt_succ_iff.mp hn) fun heq => hm (heq ▸ hreach)
      obtain ⟨l,hl,hreach',hlast⟩ := ih ⟨n,hlt,hreach⟩
      refine ⟨l,hl.trans m.lt_succ_self,hreach',fun k hk hkm => ?_⟩
      rcases Nat.eq_or_lt_of_le (Nat.lt_succ_iff.mp hkm) with rfl | hkm'
      · exact hm
      · exact hlast k hk hkm'

/-- The last piece that reaches a position is the only one that no later piece follows there. -/
theorem last_unique {l : ℕ} (hn : f.Reaches n j) (hn' : ∀ k, n < k → ¬f.Reaches k j)
    (hl : f.Reaches l j) (hl' : ∀ k, l < k → ¬f.Reaches k j) : n = l := by
  rcases Nat.lt_trichotomy n l with hlt | heq | hgt
  · exact absurd hl (hn' l hlt)
  · exact heq
  · exact absurd hn (hl' n hgt)

theorem overlay_right_iff (hold : old.length = f.reported) (hdone : f.start m = f.reported) :
    (overlay f old m)[j]? = f.bytes[j]? ↔
      (∀ n, f.Reaches n j → (∀ k, n < k → ¬f.Reaches k j) → f.bytes[f.start n+j]? = f.bytes[j]?) ∧
        ((∀ n, ¬f.Reaches n j) → f.bytes[j]? = old[j]?) := by
  by_cases h : ∃ n < m, f.Reaches n j
  · obtain ⟨l,hl,hreach,hbetween⟩ := exists_last h
    have hlast : ∀ k, l < k → ¬f.Reaches k j := fun k hk => by
      rcases Nat.lt_or_ge k m with hkm | hkm
      · exact hbetween k hk hkm
      · exact not_reaches_of_done hdone hkm
    rw [overlay_of_last hold hl hreach hbetween]
    constructor
    · intro heq
      refine ⟨fun n hn hn' => ?_,fun hnone => absurd hreach (hnone l)⟩
      rwa [last_unique hn hn' hreach hlast]
    · exact fun hright => hright.1 l hreach hlast
  · have hnone : ∀ n, ¬f.Reaches n j := fun n hn => by
      rcases Nat.lt_or_ge n m with hnm | hnm
      · exact h ⟨n,hnm,hn⟩
      · exact not_reaches_of_done hdone hnm hn
    rw [overlay_of_none hold fun n _ => hnone n]
    exact ⟨fun heq => ⟨fun n hn => absurd hn (hnone n),fun _ => heq.symm⟩,
      fun hright => (hright.2 hnone).symm⟩

theorem overlay_eq_bytes (heq : f.reported = f.bytes.length) (hdone : f.start m = f.reported) :
    overlay f (data.takeD f.reported 0) m = f.bytes ↔ Settles f data := by
  have hold : (data.takeD f.reported 0).length = f.reported := List.takeD_length _ _ _
  have hpos : ∀ j < f.bytes.length, (data.takeD f.reported 0)[j]? = some (data.getD j 0) := by
    intro j hj
    rw [heq]
    exact takeD_getElem? hj
  constructor
  · intro hall j hj
    rw [← hpos j hj]
    exact (overlay_right_iff hold hdone).mp (by rw [hall])
  · intro hsettles
    refine List.ext_getElem? fun j => ?_
    rcases Nat.lt_or_ge j f.bytes.length with hj | hj
    · refine (overlay_right_iff hold hdone).mpr ?_
      rw [hpos j hj]
      exact hsettles j hj
    · rw [List.getElem?_eq_none hj,List.getElem?_eq_none]
      rw [length_overlay hold,hold,heq]
      exact hj

theorem returned_true {calls : ℕ} {result : List UInt8} (hroom : f.reported ≤ room)
    (hpos : 0 < f.reported) (h : readAllFile calls room (some f) data = some (.returned true result)) :
    ∃ m, f.start m = f.reported ∧ result = overlay f (data.takeD f.reported 0) m := by
  rw [readAllFile_some hroom hpos,Option.map_eq_some_iff] at h
  obtain ⟨done,hdone,hresult⟩ := h
  obtain ⟨m,hm,rfl⟩ := readLoop_some hdone
  exact ⟨m,hm,(Outcome.returned.inj hresult).2.symm⟩

theorem exists_returned (data : List UInt8) (hroom : f.reported ≤ room) (hpos : 0 < f.reported)
    (hn : f.reported ≤ f.start n) :
    ∃ calls m, f.start m = f.reported ∧ readAllFile calls room (some f) data =
      some (.returned true (overlay f (data.takeD f.reported 0) m)) := by
  obtain ⟨calls,hsome⟩ := (terminates_some data hroom hpos).mpr ⟨n,hn⟩
  rw [readAllFile_some hroom hpos,Option.isSome_map] at hsome
  obtain ⟨done,hdone⟩ := Option.isSome_iff_exists.mp hsome
  obtain ⟨m,hm,rfl⟩ := readLoop_some hdone
  refine ⟨calls,m,hm,?_⟩
  rw [readAllFile_some hroom hpos,hdone,Option.map_some,hm,decide_eq_true rfl]

theorem le_start (hgives : ∀ i, 0 < f.counts i) (h : f.reported ≤ f.bytes.length) :
    f.reported ≤ f.start f.reported := by
  have hsum : (Finset.range f.reported).card • 1 ≤ ∑ i ∈ Finset.range f.reported, f.counts i :=
    Finset.card_nsmul_le_sum _ _ _ fun i _ => hgives i
  rw [Finset.card_range,smul_eq_mul,Nat.mul_one] at hsum
  exact le_min (le_min le_rfl h) hsum

/-- Where every call of `fread` gives something, `read_all_file` has the bytes of the file in
`data` whenever it returns true if and only if it cannot return true, or `ftell` is right and the
pieces, each at the beginning, happen to leave every byte in its place. -/
theorem content_iff (room : ℕ) (f : Stream) (data : List UInt8) (hgives : ∀ i, 0 < f.counts i) :
    ContentRight room f data ↔ room < f.reported ∨ f.reported = 0 ∨ f.bytes.length < f.reported ∨
      f.reported = f.bytes.length ∧ Settles f data := by
  rcases Nat.lt_or_ge room f.reported with hroom | hroom
  · refine ⟨fun _ => .inl hroom,fun _ calls result h => ?_⟩
    simp [readAllFile,hroom] at h
  rcases Nat.eq_zero_or_pos f.reported with hzero | hpos
  · refine ⟨fun _ => .inr (.inl hzero),fun _ calls result h => ?_⟩
    simp [readAllFile,hzero] at h
  rcases Nat.lt_or_ge f.bytes.length f.reported with hshort | hlong
  · refine ⟨fun _ => .inr (.inr (.inl hshort)),fun _ calls result h => ?_⟩
    obtain ⟨m,hm,-⟩ := returned_true hroom hpos h
    have hle : f.start m ≤ f.bytes.length := (min_le_left _ _).trans (min_le_right _ _)
    omega
  simp only [not_lt.mpr hroom,hpos.ne',not_lt.mpr hlong,false_or]
  constructor
  · intro hright
    obtain ⟨calls,m,hm,hreturned⟩ := exists_returned data hroom hpos (le_start hgives hlong)
    have hbytes := hright calls _ hreturned
    have heq : f.reported = f.bytes.length := by
      rw [← hbytes,length_overlay (List.takeD_length _ _ _),List.takeD_length]
    exact ⟨heq,(overlay_eq_bytes heq hm).mp hbytes⟩
  · rintro ⟨heq,hsettles⟩ calls result h
    obtain ⟨m,hm,rfl⟩ := returned_true hroom hpos h
    exact (overlay_eq_bytes heq hm).mpr hsettles

end

/-- Three bytes and one more: the second piece lies on a byte like its own. -/
def inPieces : Stream := ⟨4,by norm_num,[0,98,99,0],fun _ => 3⟩

theorem start_inPieces (n : ℕ) : inPieces.start n = min 4 (n*3) := by
  simp [Stream.start,Stream.reported,inPieces]

theorem content_inPieces : ContentRight 4 inPieces [] := by
  refine (content_iff 4 inPieces [] fun _ => Nat.succ_pos 2).mpr
    (.inr (.inr (.inr ⟨by decide,fun j hj => ⟨fun n hn _ => ?_,fun hnone => ?_⟩⟩)))
  · rw [Stream.Reaches,start_inPieces,start_inPieces] at hn
    rw [start_inPieces]
    obtain ⟨rfl,-⟩ | ⟨rfl,rfl⟩ : n = 0 ∧ j < 3 ∨ n = 1 ∧ j = 0 := by omega
    · simp
    · rfl
  · have hbehind : 3 ≤ j := by
      have hfirst := hnone 0
      rw [Stream.Reaches,start_inPieces,start_inPieces] at hfirst
      omega
    obtain rfl : j = 3 := le_antisymm (Nat.le_of_lt_succ hj) hbehind
    rfl

/-- Two bytes that come one by one: the second one lies on the first. -/
def bytewise : Stream := ⟨2,by norm_num,[97,98],fun _ => 1⟩

theorem not_contentRight : ¬∀ (room : ℕ) (f : Stream) (data : List UInt8),
    f.ftell = f.bytes.length → (∀ i, 0 < f.counts i) → ContentRight room f data := by
  intro h
  have hright := h 2 bytewise [] rfl (fun _ => Nat.one_pos) 2 [98,0] (by decide)
  exact absurd hright (by decide)

end FileReading
end SdkCp
