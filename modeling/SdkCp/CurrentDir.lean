import SdkCp.FileListing
import Mathlib.Data.List.DropRight

/-! current_dir of tools/file.hpp and r_substr of sdk_defines.hpp: the buffer is scanned backwards
for separators over its whole length, also behind the end of the path. -/
namespace SdkCp
namespace CurrentDir

open FileListing (Name)

/-- From `ptr` backwards to the character: the place behind it, or the beginning. -/
def rSubstrSingle (data : List UInt8) (ch : UInt8) : ℕ → ℕ
  | 0 => 0
  | ptr+1 => if data[ptr]? = some ch then ptr+1 else rSubstrSingle data ch ptr

def sdkCpMax (l r : ℕ) : ℕ := if l > r then l else r

def rSubstr (data chars : List UInt8) : ℕ :=
  chars.foldl (fun ptr ch => sdkCpMax (rSubstrSingle data ch data.length) ptr) 0

/-- A path that fits is written with its NUL to the beginning of the buffer. -/
def getModuleFileName (path : Name) (buf : List UInt8) : ℕ × List UInt8 :=
  (path.chars.length,path.chars ++ 0::buf.drop (path.chars.length+1))

/-- A backslash and a slash. -/
def separators : List UInt8 := [0x5C,0x2F]

/-- `none` is a write behind the buffer. -/
def currentDir (path : Name) (buf : List UInt8) : Option (Bool × List UInt8) :=
  let (res,buf) := getModuleFileName path buf
  if res = 0 then some (false,buf)
  else
    let ptr := rSubstr buf separators
    if ptr < buf.length then some (true,buf.set ptr 0) else none

def cString (buf : List UInt8) : List UInt8 := buf.takeWhile (· ≠ 0)

/-- The string in the buffer afterwards. -/
def leaves (path : Name) (buf : List UInt8) : Option (List UInt8) :=
  (currentDir path buf).map fun r => cString r.2

/-- Up to the last separator and with it. -/
def upToSeparator (chars data : List UInt8) : List UInt8 := data.rdropWhile (· ∉ chars)

/-- Nothing behind the NUL is taken for a separator, or the place found there is harmless: the path
ends with a separator itself, and the place is still in the buffer. -/
def Clean (path : Name) (buf : List UInt8) : Prop :=
  path.chars = [] ∨ (∀ c ∈ buf.drop (path.chars.length+1), c ∉ separators) ∨
    (∃ c ∈ separators, path.chars.getLast? = some c) ∧ ∀ c ∈ separators, buf.getLast? ≠ some c

section

variable {data chars l m buf : List UInt8} {c ch : UInt8} {path : Name}

theorem upToSeparator_concat : upToSeparator chars (l ++ [c]) =
    if c ∈ chars then l ++ [c] else upToSeparator chars l := by
  rw [upToSeparator,List.rdropWhile_concat]
  by_cases h : c ∈ chars <;> simp [h,upToSeparator]

theorem length_upToSeparator_le (chars data : List UInt8) :
    (upToSeparator chars data).length ≤ data.length :=
  (List.rdropWhile_prefix _ _).length_le

theorem upToSeparator_append_of_none (h : ∀ c ∈ m, c ∉ chars) :
    upToSeparator chars (l ++ m) = upToSeparator chars l := by
  induction m using List.reverseRecOn with
  | nil => rw [List.append_nil]
  | append_singleton m c ih =>
    rw [← List.append_assoc,upToSeparator_concat,if_neg (h c (by simp))]
    exact ih fun x hx => h x (by simp [hx])

theorem upToSeparator_append_of_mem (hc : c ∈ m) (h : c ∈ chars) :
    upToSeparator chars (l ++ m) = l ++ upToSeparator chars m := by
  induction m using List.reverseRecOn with
  | nil => exact absurd hc List.not_mem_nil
  | append_singleton m x ih =>
    rw [← List.append_assoc,upToSeparator_concat,upToSeparator_concat]
    by_cases hx : x ∈ chars
    · rw [if_pos hx,if_pos hx,List.append_assoc]
    · have hcm : c ∈ m := by
        rcases List.mem_append.mp hc with hcm | hcx
        · exact hcm
        · exact absurd (List.mem_singleton.mp hcx ▸ h) hx
      rw [if_neg hx,if_neg hx,ih hcm]

theorem upToSeparator_eq_self (chars : List UInt8) (hne : data ≠ []) :
    upToSeparator chars data = data ↔ ∃ c ∈ chars, data.getLast? = some c := by
  obtain ⟨l,c,rfl⟩ := (List.eq_nil_or_concat' data).resolve_left hne
  rw [upToSeparator_concat,List.getLast?_concat]
  by_cases h : c ∈ chars
  · simp [h]
  · have hlen := length_upToSeparator_le chars l
    refine ⟨fun heq => ?_,fun ⟨x,hx,hcx⟩ => absurd (Option.some.inj hcx ▸ hx) h⟩
    rw [if_neg h] at heq
    rw [heq,List.length_append,List.length_singleton] at hlen
    omega

theorem rSubstrSingle_eq : rSubstrSingle data ch data.length = (upToSeparator [ch] data).length := by
  have htaken : ∀ n ≤ data.length, rSubstrSingle data ch n = (upToSeparator [ch] (data.take n)).length := by
    intro n hn
    induction n with
    | zero => rfl
    | succ n ih =>
      have hlt : n < data.length := hn
      rw [rSubstrSingle,List.take_succ_eq_append_getElem hlt,upToSeparator_concat,
        List.getElem?_eq_getElem hlt,ih hlt.le]
      by_cases h : data[n] = ch
      · simp [h,Nat.min_eq_left hlt.le]
      · simp [h]
  rw [htaken _ le_rfl,List.take_length]

theorem sdkCpMax_eq (l r : ℕ) : sdkCpMax l r = max l r := by
  unfold sdkCpMax
  split <;> omega

theorem length_upToSeparator_append : (upToSeparator (chars ++ [ch]) data).length =
    sdkCpMax (upToSeparator [ch] data).length (upToSeparator chars data).length := by
  induction data using List.reverseRecOn with
  | nil => rfl
  | append_singleton l c ih =>
    have hl := length_upToSeparator_le chars l
    have hl' := length_upToSeparator_le [ch] l
    rw [sdkCpMax_eq] at ih ⊢
    simp only [upToSeparator_concat,List.mem_append,List.mem_singleton]
    by_cases hc : c ∈ chars
    · rw [if_pos hc,if_pos (.inl hc)]
      have hle : (if c = ch then l ++ [c] else upToSeparator [ch] l).length ≤ (l ++ [c]).length := by
        split
        · exact le_rfl
        · exact hl'.trans (by simp)
      omega
    · by_cases hch : c = ch
      · rw [if_neg hc,if_pos hch,if_pos (.inr hch),List.length_append]
        omega
      · rw [if_neg hc,if_neg hch,if_neg (by simp [hc,hch])]
        exact ih

theorem rSubstr_eq : rSubstr data chars = (upToSeparator chars data).length := by
  induction chars using List.reverseRecOn with
  | nil =>
    have hnone : upToSeparator [] ([] ++ data) = upToSeparator [] [] :=
      upToSeparator_append_of_none fun _ _ => List.not_mem_nil
    rw [List.nil_append] at hnone
    rw [hnone]
    rfl
  | append_singleton chars ch ih =>
    rw [rSubstr,List.foldl_concat,← rSubstr,ih,rSubstrSingle_eq,length_upToSeparator_append]

theorem cString_append (h : 0 ∉ l) (m : List UInt8) : cString (l ++ 0::m) = l := by
  rw [cString,List.takeWhile_append_of_pos fun c hc => by simpa using fun hz : c = 0 => h (hz ▸ hc)]
  simp

theorem cString_set_of_le {n : ℕ} (h : 0 ∉ l) (hn : n ≤ l.length) :
    cString ((l ++ 0::m).set n 0) = l.take n := by
  have hlt : n < (l ++ 0::m).length := by
    rw [List.length_append,List.length_cons]
    omega
  rw [List.set_eq_take_cons_drop 0 hlt,List.take_append_of_le_length hn]
  exact cString_append (fun hz => h (List.mem_of_mem_take hz)) _

theorem cString_set_of_lt {n : ℕ} (h : 0 ∉ l) (hn : l.length < n) :
    cString ((l ++ 0::m).set n 0) = l := by
  obtain ⟨k,rfl⟩ := Nat.exists_eq_add_of_lt hn
  rw [List.set_append_right _ _ (by omega),show l.length+k+1-l.length = k+1 by omega,List.set_cons_succ]
  exact cString_append h _

theorem zero_notMem_separators : (0 : UInt8) ∉ separators := by decide

theorem rSubstr_of_mem (hc : c ∈ m) (h : c ∈ separators) :
    rSubstr (path.chars ++ 0::m) separators =
      path.chars.length+1+(upToSeparator separators m).length := by
  rw [rSubstr_eq,List.append_cons,upToSeparator_append_of_mem hc h,List.length_append,
    List.length_append,List.length_singleton]

theorem rSubstr_of_none (h : ∀ c ∈ m, c ∉ separators) : rSubstr (path.chars ++ 0::m) separators =
    (upToSeparator separators path.chars).length := by
  rw [rSubstr_eq,upToSeparator_append_of_none fun c hc hsep => ?_]
  rcases List.mem_cons.mp hc with rfl | hcm
  · exact zero_notMem_separators hsep
  · exact h c hcm hsep

theorem leaves_of_mem (hne : path.chars ≠ []) (hc : c ∈ buf.drop (path.chars.length+1))
    (hsep : c ∈ separators) : leaves path buf =
      if ∃ c ∈ separators, buf.getLast? = some c then none else some path.chars := by
  have hres : path.chars.length ≠ 0 := mt List.length_eq_zero_iff.mp hne
  have hm : buf.drop (path.chars.length+1) ≠ [] := List.ne_nil_of_mem hc
  have hlast : buf.getLast? = (buf.drop (path.chars.length+1)).getLast? := by
    rw [List.getLast?_drop,if_neg fun hle => hm (List.drop_eq_nil_of_le hle)]
  simp only [leaves,currentDir,getModuleFileName,hres,if_false,rSubstr_of_mem hc hsep,hlast]
  have hle := length_upToSeparator_le separators (buf.drop (path.chars.length+1))
  have hself := upToSeparator_eq_self separators hm
  split_ifs with hroom hout hout
  · rw [hself.mpr hout,List.length_append,List.length_cons] at hroom
    omega
  · rw [Option.map_some,cString_set_of_lt path.closed (by omega)]
  · rfl
  · rw [List.length_append,List.length_cons] at hroom
    have hfull := Nat.le_antisymm hle (by omega)
    exact absurd (hself.mp ((List.rdropWhile_prefix _ _).eq_of_length hfull)) hout

theorem leaves_of_none (hnone : ∀ c ∈ buf.drop (path.chars.length+1), c ∉ separators) :
    leaves path buf = some (upToSeparator separators path.chars) := by
  by_cases hnil : path.chars = []
  · simp [leaves,currentDir,getModuleFileName,hnil,cString,upToSeparator]
  have hres : path.chars.length ≠ 0 := mt List.length_eq_zero_iff.mp hnil
  have hle := length_upToSeparator_le separators path.chars
  simp only [leaves,currentDir,getModuleFileName,hres,if_false,rSubstr_of_none hnone]
  rw [if_pos (by rw [List.length_append,List.length_cons]; omega),Option.map_some,
    cString_set_of_le path.closed hle]
  exact congrArg some (List.prefix_iff_eq_take.mp (List.rdropWhile_prefix _ _)).symm

theorem leaves_iff : leaves path buf = some (upToSeparator separators path.chars) ↔ Clean path buf := by
  by_cases hnil : path.chars = []
  · refine iff_of_true ?_ (.inl hnil)
    simp [leaves,currentDir,getModuleFileName,hnil,cString,upToSeparator]
  by_cases hnone : ∀ c ∈ buf.drop (path.chars.length+1), c ∉ separators
  · exact iff_of_true (leaves_of_none hnone) (.inr (.inl hnone))
  · simp only [Clean,hnil,hnone,false_or]
    push Not at hnone
    obtain ⟨c,hc,hsep⟩ := hnone
    rw [leaves_of_mem hnil hc hsep,← upToSeparator_eq_self separators hnil]
    split
    · rename_i hout
      obtain ⟨x,hx,hlast⟩ := hout
      exact iff_of_false (by simp) fun h => h.2 x hx hlast
    · rename_i hin
      rw [Option.some.injEq,eq_comm]
      exact (and_iff_left fun x hx hlast => hin ⟨x,hx,hlast⟩).symm

end

/-- Whatever two buffers held before, `current_dir` leaves the same string in both, the path up to
its last separator, if and only if both are clean behind the path. -/
theorem leaves_same_iff (path : Name) (b₁ b₂ : List UInt8) :
    leaves path b₁ = leaves path b₂ ∧ leaves path b₁ = some (upToSeparator separators path.chars) ↔
      Clean path b₁ ∧ Clean path b₂ := by
  rw [← leaves_iff,← leaves_iff]
  constructor
  · rintro ⟨hsame,hfirst⟩
    exact ⟨hfirst,hsame ▸ hfirst⟩
  · rintro ⟨hfirst,hsecond⟩
    exact ⟨hfirst.trans hsecond.symm,hfirst⟩

/-- `C:\a`. -/
def shortPath : Name := ⟨[0x43,0x3A,0x5C,0x61],by decide⟩

/-- A buffer that held slashes: the string is the whole path (and a zero is written behind the
buffer). -/
theorem not_leaves_same : ¬∀ (sz : ℕ) (path : Name) (b₁ b₂ : List UInt8), 260 ≤ sz →
    b₁.length = sz → b₂.length = sz → path.chars.length < sz →
      leaves path b₁ = leaves path b₂ ∧
        leaves path b₁ = some (upToSeparator separators path.chars) := by
  intro h
  have hright := (h 260 shortPath (List.replicate 260 0x2F) (List.replicate 260 0) le_rfl
    List.length_replicate List.length_replicate (by decide)).2
  rcases leaves_iff.mp hright with hnil | hnone | ⟨hends,-⟩
  · exact absurd hnil (by decide)
  · refine hnone 0x2F ?_ (by decide)
    rw [List.drop_replicate]
    exact List.mem_replicate.mpr ⟨by decide,rfl⟩
  · exact absurd hends (by decide)

end CurrentDir
end SdkCp
