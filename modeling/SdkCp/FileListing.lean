import Mathlib.Data.List.Basic
import Mathlib.Tactic

/-! enumerate_files of tools/file.hpp: the names of a directory and the names to leave out, a
loop over the second in a loop over the first. -/
namespace SdkCp
namespace FileListing

section

variable {α β : Type*} [DecidableEq α] [DecidableEq β] {g : α → β} {l : List α} {k k' : α → ℕ}

theorem count_repeated (hg : Function.Injective g) (a : α) :
    (l.flatMap fun b => List.replicate (k b) (g b)).count (g a) = l.count a*k a := by
  induction l with
  | nil => simp
  | cons b l ih =>
    rw [List.flatMap_cons,List.count_append,ih,List.count_cons,List.count_replicate]
    by_cases h : b = a
    · subst h
      simp only [BEq.rfl,if_true]
      ring
    · simp [h,hg.ne h]

/-- Two such lists are the same only where every item is there as often in one as in the other. -/
theorem repeated_eq_iff (hg : Function.Injective g) :
    (l.flatMap fun b => List.replicate (k b) (g b)) =
      (l.flatMap fun b => List.replicate (k' b) (g b)) ↔ ∀ a ∈ l, k a = k' a := by
  constructor
  · intro heq a ha
    have hcount := count_repeated (l:=l) (k:=k) hg a
    rw [heq,count_repeated hg] at hcount
    exact (Nat.eq_of_mul_eq_mul_left (List.count_pos_iff.mpr ha) hcount).symm
  · intro h
    exact List.flatMap_congr fun a ha => by rw [h a ha]

end

/-- Characters up to the first zero. -/
structure Name where
  chars : List UInt8
  closed : 0 ∉ chars
deriving DecidableEq

/-- The first difference; a name that has ended has a zero there. -/
def compareChars : List UInt8 → List UInt8 → ℤ
  | [], [] => 0
  | [], b::_ => -b.toNat
  | a::_, [] => a.toNat
  | a::as, b::bs => if a = b then compareChars as bs else a.toNat-b.toNat

def strcmp (x y : Name) : ℤ := compareChars x.chars y.chars

/-- The inner loop goes on with the next exclusion where the names are equal, else it calls
`f`. -/
def enumerateFiles {σ : Type*} (dirPath : Name) (exclude listing : List Name)
    (f : σ → Name → Name → ℕ → σ) (s : σ) : σ :=
  listing.foldl (fun s entry =>
    exclude.foldl (fun s ex =>
      if strcmp ex entry = 0 then s else f s dirPath entry entry.chars.length) s) s

structure Call where
  dirPath : Name
  name : Name
  size : ℕ
deriving DecidableEq

/-- An `f` that writes its calls down. -/
def record (calls : List Call) (dirPath name : Name) (size : ℕ) : List Call :=
  calls ++ [⟨dirPath,name,size⟩]

def call (dirPath entry : Name) : Call := ⟨dirPath,entry,entry.chars.length⟩

/-- One call for each entry that is not excluded, in the order of the directory. -/
def wanted (dirPath : Name) (exclude listing : List Name) : List Call :=
  (listing.filter fun entry => entry ∉ exclude).map (call dirPath)

/-- As many calls for an entry as there are other names among the exclusions. -/
def made (dirPath : Name) (exclude listing : List Name) : List Call :=
  listing.flatMap fun entry =>
    List.replicate (exclude.countP fun ex => ex ≠ entry) (call dirPath entry)

section

variable {σ : Type*} {dirPath entry : Name} {exclude listing : List Name}

theorem toNat_ne_zero {c : UInt8} {l : List UInt8} (h : 0 ∉ c :: l) : c.toNat ≠ 0 :=
  fun hzero => h (UInt8.toNat_inj.mp (hzero.trans UInt8.toNat_zero.symm) ▸ List.mem_cons_self)

theorem compareChars_eq_zero {a b : List UInt8} (ha : 0 ∉ a) (hb : 0 ∉ b) :
    compareChars a b = 0 ↔ a = b := by
  induction a generalizing b with
  | nil =>
    cases b with
    | nil => simp [compareChars]
    | cons b bs =>
      have hne : b.toNat ≠ 0 := toNat_ne_zero hb
      simp [compareChars,hne]
  | cons a as ih =>
    have hne : a.toNat ≠ 0 := toNat_ne_zero ha
    cases b with
    | nil => simp [compareChars,hne]
    | cons b bs =>
      rw [compareChars]
      split
      · rename_i heq
        rw [ih (fun h => ha (List.mem_cons_of_mem _ h)) fun h => hb (List.mem_cons_of_mem _ h)]
        simp [heq]
      · rename_i hab
        have hnat : a.toNat ≠ b.toNat := fun h => hab (UInt8.toNat_inj.mp h)
        simp only [List.cons.injEq,hab,false_and,iff_false]
        omega

theorem strcmp_eq_zero {x y : Name} : strcmp x y = 0 ↔ x = y := by
  rw [strcmp,compareChars_eq_zero x.closed y.closed,Name.mk.injEq]

theorem call_injective (dirPath : Name) : Function.Injective (call dirPath) :=
  fun _ _ h => (Call.mk.inj h).2.1

theorem foldl_exclude (f : σ → Call → σ) (s : σ) :
    exclude.foldl (fun s ex => if strcmp ex entry = 0 then s else f s (call dirPath entry)) s =
      (List.replicate (exclude.countP fun ex => ex ≠ entry) (call dirPath entry)).foldl f s := by
  induction exclude generalizing s with
  | nil => rfl
  | cons ex exclude ih =>
    rw [List.foldl_cons,ih,List.countP_cons]
    by_cases h : ex = entry
    · simp [h,strcmp_eq_zero]
    · simp [h,strcmp_eq_zero,List.replicate_succ]

theorem enumerateFiles_eq (f : σ → Name → Name → ℕ → σ) (s : σ) :
    enumerateFiles dirPath exclude listing f s =
      (made dirPath exclude listing).foldl (fun s c => f s c.dirPath c.name c.size) s := by
  rw [made,List.foldl_flatMap,enumerateFiles]
  congr 1
  funext s entry
  exact foldl_exclude (fun s c => f s c.dirPath c.name c.size) s

theorem foldl_record (calls more : List Call) :
    more.foldl (fun s c => record s c.dirPath c.name c.size) calls = calls ++ more := by
  induction more generalizing calls with
  | nil => simp
  | cons c more ih => rw [List.foldl_cons,ih,record,List.append_assoc,List.singleton_append]

theorem wanted_eq : wanted dirPath exclude listing = listing.flatMap fun entry =>
    List.replicate (if entry ∈ exclude then 0 else 1) (call dirPath entry) := by
  induction listing with
  | nil => rfl
  | cons entry listing ih =>
    rw [List.flatMap_cons,← ih,wanted,wanted,List.filter_cons]
    by_cases h : entry ∈ exclude <;> simp [h]

theorem countP_eq_iff : (exclude.countP fun ex => ex ≠ entry) = (if entry ∈ exclude then 0 else 1) ↔
    exclude.length = 1 ∨ entry ∈ exclude ∧ ∀ ex ∈ exclude, ex = entry := by
  by_cases h : entry ∈ exclude
  · rw [if_pos h,List.countP_eq_zero]
    simp only [decide_eq_true_eq,not_not,h,true_and]
    refine ⟨.inr,?_⟩
    rintro (hone | hall)
    · obtain ⟨only,rfl⟩ := List.length_eq_one_iff.mp hone
      rw [List.mem_singleton] at h
      simp [h]
    · exact hall
  · have hall : (exclude.countP fun ex => ex ≠ entry) = exclude.length :=
      List.countP_eq_length.mpr fun ex hex => decide_eq_true fun heq => h (heq ▸ hex)
    rw [if_neg h,hall]
    simp [h]

end

/-- `enumerate_files` calls `f` exactly once, in the order of the directory, for each entry that
is not excluded and never for another, if and only if there is one exclusion, or every entry is
all that is excluded. -/
theorem enumerateFiles_wanted_iff (dirPath : Name) (exclude listing : List Name) :
    enumerateFiles dirPath exclude listing record [] = wanted dirPath exclude listing ↔
      exclude.length = 1 ∨ ∀ entry ∈ listing, entry ∈ exclude ∧ ∀ ex ∈ exclude, ex = entry := by
  rw [enumerateFiles_eq,foldl_record,List.nil_append,made,wanted_eq,
    repeated_eq_iff (call_injective dirPath)]
  simp only [countP_eq_iff]
  constructor
  · intro h
    by_cases hone : exclude.length = 1
    · exact .inl hone
    · exact .inr fun entry hentry => (h entry hentry).resolve_left hone
  · rintro (hone | hall) entry hentry
    · exact .inl hone
    · exact .inr (hall entry hentry)

/-- One entry and two other names to leave out: `f` is called twice. -/
theorem enumerateFiles_twice : ¬∀ (dirPath : Name) (exclude listing : List Name),
    enumerateFiles dirPath exclude listing record [] = wanted dirPath exclude listing := by
  intro h
  exact absurd (h ⟨[46],by decide⟩ [⟨[98],by decide⟩,⟨[99],by decide⟩] [⟨[97],by decide⟩])
    (by decide)

end FileListing
end SdkCp
