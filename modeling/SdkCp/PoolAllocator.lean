import Mathlib.Tactic
import Mathlib.Data.Finmap

/-! `pool_allocator` of tools/pool_allocator.hpp. Values live in slots of chunks
that are never moved, so a slot's address is the chunk's address and an item
index. An active slot holds a value, an inactive one none. -/
namespace SdkCp
namespace PoolAllocator

/-- The chunk memory of all pools. `next` is the address of the next block. -/
structure Memory (V : Type*) where
  cells : ℕ × ℕ → Option V
  next : ℕ

/-- Where a call that grows the pool or the key map can throw. -/
inductive Fault
  | appendChunk | chunkMemory | reserve | construct | keyInsert
  deriving DecidableEq

/-- `_data`, by the address of each chunk's memory, and `_empty_objs`, whose back
is the end of the list. -/
structure Pool where
  chunks : List (Option ℕ)
  emptyObjs : List ℕ

variable {V : Type*}

def Memory.write (mem : Memory V) (slot : ℕ × ℕ) (v : Option V) : Memory V :=
  { mem with cells := Function.update mem.cells slot v }

/-- The walk of `pool_chunk::foreach` over consecutive items: what was visited,
and whether the visitor always agreed to go on. -/
def visit (f : V → Bool) : List (Option V) → List V × Bool
  | [] => ([],true)
  | none::items => visit f items
  | some v::items => if f v then ((v::(visit f items).1),(visit f items).2) else ([v],false)

namespace Pool

variable (B : ℕ)

def capacity (p : Pool) : ℕ := p.chunks.length*B
def size (p : Pool) : ℕ := p.capacity B-p.emptyObjs.length

/-- The address of a position; `none` outside the chunks. -/
def slot (p : Pool) (position : ℕ) : Option (ℕ × ℕ) :=
  match p.chunks[position/B]? with
  | some (some a) => some (a,position % B)
  | _ => none

/-- `chunk_pool < _data.size() && item_ix < __chunk_size`. -/
def inRange (p : Pool) (position : ℕ) : Bool := position/B < p.chunks.length ∧ position % B < B

/-- The part of `allocate` that adds a chunk, and whether it got through. -/
def grow (p : Pool) (mem : Memory V) (fault : Option Fault) : Pool × Memory V × Bool :=
  if fault = some .appendChunk then (p,mem,false)
  else if fault = some .chunkMemory then ({ p with chunks := p.chunks ++ [none] },mem,false)
  else
    let p := { p with chunks := p.chunks ++ [some mem.next] }
    let mem : Memory V := ⟨fun s => if s.1 = mem.next then none else mem.cells s,mem.next+1⟩
    if fault = some .reserve then (p,mem,false)
    else
      let begin := (p.chunks.length-1)*B
      let last := begin+B-1
      ({ p with emptyObjs := p.emptyObjs ++ (List.range B).map fun i => last-(begin+i)+begin },
        mem,true)

/-- `allocate()` of a default-constructed value. -/
def allocate [Inhabited V] (p : Pool) (mem : Memory V) (fault : Option Fault) :
    Pool × Memory V × Option ℕ :=
  let (p,mem,ok) := if p.emptyObjs = [] then p.grow B mem fault else (p,mem,true)
  if ok = false ∨ fault = some .construct then (p,mem,none)
  else
    match p.emptyObjs.getLast? with
    | none => (p,mem,none)
    | some target =>
      match p.slot B target with
      | none => (p,mem,none)
      | some s => ({ p with emptyObjs := p.emptyObjs.dropLast },mem.write s (some default),some target)

def deallocate (p : Pool) (mem : Memory V) (position : ℕ) : Pool × Memory V :=
  match p.slot B position with
  | none => (p,mem)
  | some s => ({ p with emptyObjs := p.emptyObjs ++ [position] },mem.write s none)

/-- `find`: the value the returned pointer leads to. -/
def read (p : Pool) (mem : Memory V) (position : ℕ) : Option V :=
  (p.slot B position).bind mem.cells

/-- The items of a chunk in order, by the address of its memory. -/
def items (mem : Memory V) (a : ℕ) : List (Option V) := (List.range B).map fun i => mem.cells (a,i)

/-- `foreach`: the values visited, in order. Where it comes to a chunk without memory it reads
through a null pointer. -/
def foreach (f : V → Bool) (mem : Memory V) : List (Option ℕ) → Option (List V)
  | [] => some []
  | none::_ => none
  | some a::cs =>
    let (vs,go) := visit f (items B mem a)
    if go then (foreach f mem cs).map (vs ++ ·) else some vs

end Pool

theorem visit_append (f : V → Bool) (l₁ l₂ : List (Option V)) :
    visit f (l₁++l₂) = if (visit f l₁).2 then ((visit f l₁).1++(visit f l₂).1,(visit f l₂).2)
      else visit f l₁ := by
  induction l₁ with
  | nil => simp [visit]
  | cons x l₁ ih =>
    cases x with
    | none => exact ih
    | some v =>
      cases hf : f v <;> simp [visit,hf,ih]
      split <;> simp_all

/-- The visited values are a prefix of the active ones, and all of them unless the
visitor stops. -/
theorem visit_prefix (f : V → Bool) (l : List (Option V)) :
    (visit f l).1 <+: l.filterMap id ∧
    ((∀ v ∈ (visit f l).1, f v = true) → (visit f l).1 = l.filterMap id) := by
  induction l with
  | nil => simp [visit]
  | cons x l ih =>
    cases x with
    | none => simpa [visit] using ih
    | some v =>
      cases hf : f v with
      | true => simp only [visit,hf,if_true]; simpa [hf] using ih
      | false => simp [visit,hf]

theorem foreach_eq_visit (B : ℕ) (f : V → Bool) (mem : Memory V) (as : List ℕ) :
    Pool.foreach B f mem (as.map some) = some (visit f (as.flatMap (Pool.items B mem))).1 := by
  induction as with
  | nil => simp [Pool.foreach,visit]
  | cons a as ih =>
    simp only [List.map_cons,Pool.foreach,List.flatMap_cons,visit_append,ih,Option.map_some]
    split <;> rfl

/-- The pool's free list is exactly its inactive slots, and the positions in use are
those of the keys, one each. -/
structure PoolOk {K : Type*} [DecidableEq K] (B : ℕ) (mem : Memory V) (p : Pool)
    (keys : Finmap fun _ : K => ℕ) : Prop where
  chunks : ∀ c ∈ p.chunks, ∃ a < mem.next, c = some a
  nodup : p.chunks.Nodup
  bound : ∀ pos ∈ p.emptyObjs, pos < p.capacity B
  distinct : p.emptyObjs.Nodup
  free : ∀ pos ∈ p.emptyObjs, p.read B mem pos = none
  keyed : ∀ k pos, keys.lookup k = some pos → pos < p.capacity B ∧ (p.read B mem pos).isSome
  injective : ∀ k k' pos, keys.lookup k = some pos → keys.lookup k' = some pos → k = k'
  covered : ∀ pos < p.capacity B, pos ∉ p.emptyObjs → ∃ k, keys.lookup k = some pos
  count : keys.keys.card+p.emptyObjs.length = p.capacity B

theorem slot_of_lt {B pos : ℕ} {mem : Memory V} {p : Pool}
    (hc : ∀ c ∈ p.chunks, ∃ a < mem.next, c = some a) (hlt : pos < p.capacity B) :
    ∃ a < mem.next, p.chunks[pos/B]? = some (some a) ∧ p.slot B pos = some (a,pos % B) := by
  have hdiv : pos/B < p.chunks.length :=
    Nat.div_lt_of_lt_mul (by rw [Nat.mul_comm]; exact hlt)
  obtain ⟨a,ha,hca⟩ := hc _ (List.getElem_mem hdiv)
  have hget : p.chunks[pos/B]? = some (some a) := by rw [List.getElem?_eq_getElem hdiv,hca]
  exact ⟨a,ha,hget,by rw [Pool.slot,hget]⟩

theorem slot_eq_some {B pos : ℕ} {p : Pool} {s : ℕ × ℕ} (h : p.slot B pos = some s) :
    p.chunks[pos/B]? = some (some s.1) ∧ s.2 = pos % B := by
  unfold Pool.slot at h
  split at h
  · rename_i a ha
    obtain rfl := Option.some.inj h
    exact ⟨ha,rfl⟩
  · simp at h

theorem slot_injective {B x y : ℕ} {p : Pool} {s : ℕ × ℕ} (hnodup : p.chunks.Nodup)
    (hx : p.slot B x = some s) (hy : p.slot B y = some s) : x = y := by
  obtain ⟨hx₁,hx₂⟩ := slot_eq_some hx
  obtain ⟨hy₁,hy₂⟩ := slot_eq_some hy
  have hdiv : x/B = y/B :=
    (List.getElem?_inj (List.getElem?_eq_some_iff.mp hx₁).1 hnodup).mp (hx₁.trans hy₁.symm)
  have h₁ := Nat.div_add_mod x B
  have h₂ := Nat.div_add_mod y B
  rw [← h₁,← h₂,hdiv,← hx₂,← hy₂]

theorem read_congr {B pos : ℕ} {mem mem' : Memory V} {p : Pool}
    (h : ∀ s, p.slot B pos = some s → mem'.cells s = mem.cells s) :
    p.read B mem' pos = p.read B mem pos := by
  unfold Pool.read
  cases hs : p.slot B pos with
  | none => rfl
  | some s => exact h s hs

theorem read_write_self {B pos : ℕ} {mem : Memory V} {p : Pool} {s : ℕ × ℕ}
    (h : p.slot B pos = some s) (v : Option V) : p.read B (mem.write s v) pos = v := by
  simp [Pool.read,h,Memory.write]

theorem read_write_of_ne {B pos : ℕ} {mem : Memory V} {p : Pool} {s : ℕ × ℕ}
    (h : p.slot B pos ≠ some s) (v : Option V) :
    p.read B (mem.write s v) pos = p.read B mem pos :=
  read_congr fun s' hs' => by
    have hne : s' ≠ s := fun heq => h (heq ▸ hs')
    simp [Memory.write,Function.update_of_ne hne]

theorem slot_append {B pos : ℕ} {p p' : Pool} {s : ℕ × ℕ} {l : List (Option ℕ)}
    (h : p.slot B pos = some s) (hp : p'.chunks = p.chunks ++ l) : p'.slot B pos = some s := by
  obtain ⟨h₁,h₂⟩ := slot_eq_some h
  have hlt := (List.getElem?_eq_some_iff.mp h₁).1
  have hget : p'.chunks[pos/B]? = some (some s.1) := by rw [hp,List.getElem?_append_left hlt,h₁]
  rw [Pool.slot,hget,← h₂]

theorem inRange_of_slot {B pos : ℕ} {p : Pool} {s : ℕ × ℕ} (hB : 0 < B)
    (h : p.slot B pos = some s) : p.inRange B pos = true := by
  obtain ⟨h₁,-⟩ := slot_eq_some h
  simp [Pool.inRange,(List.getElem?_eq_some_iff.mp h₁).1,Nat.mod_lt pos hB]

theorem items_eq_reads {B : ℕ} (hB : 0 < B) (mem : Memory V) (as : List ℕ) (empties : List ℕ) :
    as.flatMap (Pool.items B mem) =
      (List.range (as.length*B)).map (Pool.read B ⟨as.map some,empties⟩ mem) := by
  induction as using List.reverseRecOn with
  | nil => simp
  | append_singleton as a ih =>
    rw [List.flatMap_append,ih,List.length_append,List.length_singleton,Nat.add_mul,Nat.one_mul,
      List.range_add,List.map_append]
    congr 1
    · refine List.map_congr_left fun pos hpos => ?_
      have hlt : pos/B < as.length :=
        Nat.div_lt_of_lt_mul (by rw [Nat.mul_comm]; exact List.mem_range.mp hpos)
      have hget : (as.map some ++ [a].map some)[pos/B]? = (as.map some)[pos/B]? :=
        List.getElem?_append_left (by simpa using hlt)
      simp only [Pool.read,Pool.slot,List.map_append,hget]
    · simp only [List.flatMap_singleton,Pool.items,List.map_map]
      refine List.map_congr_left fun i hi => ?_
      have hi := List.mem_range.mp hi
      have hdiv : (as.length*B+i)/B = as.length := by
        rw [Nat.mul_comm,Nat.mul_add_div hB,Nat.div_eq_of_lt hi,Nat.add_zero]
      have hmod : (as.length*B+i) % B = i := by
        rw [Nat.mul_comm,Nat.mul_add_mod,Nat.mod_eq_of_lt hi]
      simp [Pool.read,Pool.slot,hdiv,hmod]

section Operations

variable {K : Type*} [DecidableEq K] {B : ℕ} {mem : Memory V} {p : Pool} {keys : Finmap fun _ : K => ℕ}

theorem PoolOk.not_mem_empty (h : PoolOk B mem p keys) {k : K} {pos : ℕ}
    (hk : keys.lookup k = some pos) : pos ∉ p.emptyObjs := fun hmem => by
  have := (h.keyed k pos hk).2
  simp [h.free pos hmem] at this

theorem PoolOk.read_write_of_ne (h : PoolOk B mem p keys) {pos pos' : ℕ} {s : ℕ × ℕ}
    (hs : p.slot B pos = some s) (hne : pos' ≠ pos) (v : Option V) :
    p.read B (mem.write s v) pos' = p.read B mem pos' :=
  PoolAllocator.read_write_of_ne (fun heq => hne (slot_injective h.nodup heq hs)) v

theorem lookup_insert_eq_some {k k' : K} {target pos : ℕ}
    (h : (keys.insert k target).lookup k' = some pos) :
    (k' = k ∧ pos = target) ∨ (k' ≠ k ∧ keys.lookup k' = some pos) := by
  by_cases heq : k' = k
  · rw [heq,Finmap.lookup_insert] at h
    exact .inl ⟨heq,(Option.some.inj h).symm⟩
  · rw [Finmap.lookup_insert_of_ne _ heq] at h
    exact .inr ⟨heq,h⟩

theorem lookup_erase_eq_some {k k' : K} {pos : ℕ} (h : (keys.erase k).lookup k' = some pos) :
    k' ≠ k ∧ keys.lookup k' = some pos := by
  by_cases heq : k' = k
  · rw [heq,Finmap.lookup_erase] at h
    exact absurd h (by simp)
  · exact ⟨heq,by rwa [Finmap.lookup_erase_ne heq] at h⟩

theorem mem_dropLast_iff {l : List ℕ} (hl : l.Nodup) (hne : l ≠ []) (x : ℕ) :
    x ∈ l.dropLast ↔ x ∈ l ∧ x ≠ l.getLast hne := by
  constructor
  · intro hx
    rw [← List.dropLast_append_getLast hne] at hl
    obtain ⟨-,-,hdis⟩ := List.nodup_append'.mp hl
    exact ⟨List.mem_of_mem_dropLast hx,fun heq => hdis hx (by simp [heq])⟩
  · rintro ⟨hx,hlast⟩
    exact List.mem_dropLast_of_mem_of_ne_getLast hx hlast

theorem PoolOk.size_eq (h : PoolOk B mem p keys) : p.size B = keys.keys.card := by
  have := h.count
  rw [Pool.size]
  omega

theorem poolOk_empty (B : ℕ) (mem : Memory V) : PoolOk (K:=K) B mem ⟨[],[]⟩ ∅ := by
  constructor <;> simp [Pool.capacity]

/-- The pool does not see writes outside its slots, nor chunks allocated by others. -/
theorem PoolOk.congr (h : PoolOk B mem p keys) {mem' : Memory V} (hnext : mem.next ≤ mem'.next)
    (hread : ∀ pos, p.read B mem' pos = p.read B mem pos) : PoolOk B mem' p keys where
  chunks c hc := by
    obtain ⟨a,ha,rfl⟩ := h.chunks c hc
    exact ⟨a,by omega,rfl⟩
  nodup := h.nodup
  bound := h.bound
  distinct := h.distinct
  free pos hpos := by rw [hread,h.free pos hpos]
  keyed k pos hk := by rw [hread]; exact h.keyed k pos hk
  injective := h.injective
  covered := h.covered
  count := h.count

theorem fill_eq (b : ℕ) : (List.range B).map (fun i => b+B-1-(b+i)+b) =
    ((List.range B).map (b+·)).reverse := by
  apply List.ext_getElem (by simp)
  intro i h₁ h₂
  simp only [List.length_map,List.length_range] at h₁
  simp only [List.getElem_map,List.getElem_range,List.getElem_reverse,List.length_map,
    List.length_range]
  omega

theorem PoolOk.grow (hB : 0 < B) (h : PoolOk B mem p keys) (hempty : p.emptyObjs = []) :
    ∃ p' mem', p.grow B mem none = (p',mem',true) ∧ PoolOk B mem' p' keys ∧ p'.emptyObjs ≠ [] ∧
      p'.chunks = p.chunks ++ [some mem.next] ∧ mem'.next = mem.next+1 ∧
      (∀ s, s.1 < mem.next → mem'.cells s = mem.cells s) := by
  have hcount := h.count
  rw [hempty,List.length_nil,Nat.add_zero] at hcount
  set n := p.chunks.length with hn
  have hcap : ∀ l, (Pool.mk (p.chunks ++ [some mem.next]) l).capacity B = p.capacity B+B := by
    intro l
    simp [Pool.capacity,Nat.add_mul]
  set mem' : Memory V := ⟨fun s => if s.1 = mem.next then none else mem.cells s,mem.next+1⟩
  have hold : ∀ s, s.1 < mem.next → mem'.cells s = mem.cells s := fun s hs =>
    if_neg (by omega)
  set e := ((List.range B).map (n*B+·)).reverse with he
  have hmem : ∀ pos, pos ∈ e ↔ n*B ≤ pos ∧ pos < n*B+B := by
    intro pos
    simp only [he,List.mem_reverse,List.mem_map,List.mem_range]
    constructor
    · rintro ⟨i,hi,rfl⟩; omega
    · intro hp; exact ⟨pos-n*B,by omega,by omega⟩
  have hgrow : p.grow B mem none = (⟨p.chunks ++ [some mem.next],e⟩,mem',true) := by
    simp only [Pool.grow,reduceCtorEq,if_false,List.length_append,List.length_singleton,
      Nat.add_sub_cancel,fill_eq,hempty,List.nil_append]
    rfl
  have hslot : ∀ l pos, pos < p.capacity B →
      (Pool.mk (p.chunks ++ [some mem.next]) l).read B mem' pos = p.read B mem pos := by
    intro l pos hpos
    obtain ⟨a,ha,hget,hs⟩ := slot_of_lt h.chunks hpos
    have hget' : (p.chunks ++ [some mem.next])[pos/B]? = some (some a) := by
      rw [List.getElem?_append_left (List.getElem?_eq_some_iff.mp hget).1,hget]
    rw [Pool.read,Pool.read,hs,Pool.slot]
    simp only [hget']
    exact hold (a,_) ha
  refine ⟨_,_,hgrow,?_,?_,rfl,rfl,hold⟩
  · constructor
    case chunks =>
      intro c hc
      rcases List.mem_append.mp hc with hc | hc
      · obtain ⟨a,ha,rfl⟩ := h.chunks c hc
        exact ⟨a,Nat.lt_succ_of_lt ha,rfl⟩
      · exact ⟨mem.next,Nat.lt_succ_self _,List.mem_singleton.mp hc⟩
    case nodup =>
      refine List.nodup_append'.mpr ⟨h.nodup,List.nodup_singleton _,?_⟩
      rw [List.disjoint_singleton]
      intro hc
      obtain ⟨a,ha,heq⟩ := h.chunks _ hc
      obtain rfl := Option.some.inj heq
      omega
    case bound =>
      intro pos hpos
      rw [hcap]
      exact ((hmem pos).mp hpos).2
    case distinct =>
      rw [List.nodup_reverse]
      exact (List.nodup_range).map fun a b hab => by simpa using hab
    case free =>
      intro pos hpos
      obtain ⟨h₁,h₂⟩ := (hmem pos).mp hpos
      have hdiv : pos/B = n := by
        rw [Nat.div_eq_iff hB]
        omega
      simp [Pool.read,Pool.slot,hdiv,hn,mem']
    case keyed =>
      intro k pos hk
      obtain ⟨hlt,hs⟩ := h.keyed k pos hk
      rw [hcap,hslot _ _ hlt]
      exact ⟨by omega,hs⟩
    case injective => exact h.injective
    case covered =>
      intro pos hpos hnot
      rw [hcap] at hpos
      refine h.covered pos ?_ (by rw [hempty]; exact List.not_mem_nil)
      by_contra hge
      exact hnot ((hmem pos).mpr ⟨by simpa [Pool.capacity] using hge,hpos⟩)
    case count =>
      rw [hcap,hcount]
      simp [he]
  · intro hnil
    have := congrArg List.length hnil
    simp [he] at this
    omega

theorem PoolOk.take [Inhabited V] (h : PoolOk B mem p keys) (hne : p.emptyObjs ≠ []) :
    ∃ target s, p.emptyObjs.getLast? = some target ∧ p.slot B target = some s ∧
      (∀ k, keys.lookup k ≠ some target) ∧
      ∀ k, keys.lookup k = none → PoolOk B (mem.write s (some default))
        { p with emptyObjs := p.emptyObjs.dropLast } (keys.insert k target) := by
  have hlast := List.getLast?_eq_some_getLast hne
  set target := p.emptyObjs.getLast hne
  have hmem : target ∈ p.emptyObjs := List.getLast_mem hne
  have hdrop : ∀ pos, pos ∈ p.emptyObjs.dropLast ↔ pos ∈ p.emptyObjs ∧ pos ≠ target :=
    mem_dropLast_iff h.distinct hne
  obtain ⟨a,ha,-,hs⟩ := slot_of_lt h.chunks (h.bound target hmem)
  have hfresh : ∀ k, keys.lookup k ≠ some target := fun k hk => h.not_mem_empty hk hmem
  have hread := fun pos (hp : pos ≠ target) => h.read_write_of_ne hs hp (some default)
  refine ⟨target,_,hlast,hs,hfresh,fun k hk => ?_⟩
  constructor
  case chunks => exact h.chunks
  case nodup => exact h.nodup
  case bound => exact fun pos hp => h.bound pos (List.mem_of_mem_dropLast hp)
  case distinct => exact h.distinct.sublist (List.dropLast_sublist _)
  case free =>
    intro pos hp
    obtain ⟨hp,hneq⟩ := (hdrop pos).mp hp
    exact (hread pos hneq).trans (h.free pos hp)
  case keyed =>
    intro k' pos hk'
    rcases lookup_insert_eq_some hk' with ⟨-,rfl⟩ | ⟨-,hk'⟩
    · exact ⟨h.bound _ hmem,congrArg Option.isSome (read_write_self hs (some default))⟩
    · obtain ⟨hlt,hsome⟩ := h.keyed k' pos hk'
      have hneq : pos ≠ target := fun heq => hfresh k' (heq ▸ hk')
      exact ⟨hlt,(congrArg Option.isSome (hread pos hneq)).trans hsome⟩
  case injective =>
    intro k₁ k₂ pos h₁ h₂
    rcases lookup_insert_eq_some h₁ with ⟨rfl,rfl⟩ | ⟨-,h₁⟩ <;>
      rcases lookup_insert_eq_some h₂ with ⟨heq,hpos⟩ | ⟨-,h₂⟩
    · exact heq.symm
    · exact absurd h₂ (hfresh k₂)
    · exact absurd (hpos ▸ h₁) (hfresh k₁)
    · exact h.injective k₁ k₂ pos h₁ h₂
  case covered =>
    intro pos hlt hnot
    by_cases hpos : pos = target
    · exact ⟨k,by rw [Finmap.lookup_insert,hpos]⟩
    · obtain ⟨k',hk'⟩ := h.covered pos hlt fun hp => hnot ((hdrop pos).mpr ⟨hp,hpos⟩)
      have hneq : k' ≠ k := by
        rintro rfl
        simp [hk] at hk'
      exact ⟨k',by rw [Finmap.lookup_insert_of_ne _ hneq,hk']⟩
  case count =>
    have hcount := h.count
    have hkeys : (keys.insert k target).keys = insert k keys.keys := by
      ext k'
      simp [Finmap.mem_keys]
    have hnotin : k ∉ keys.keys := by
      rw [Finmap.mem_keys,← Finmap.lookup_eq_none]
      exact hk
    have hpos := List.length_pos_of_mem hmem
    rw [hkeys,Finset.card_insert_of_notMem hnotin,List.length_dropLast]
    simp only [Pool.capacity] at hcount ⊢
    omega

/-- What `allocate` does when nothing throws: one slot, free before, holds a fresh
value, and no other slot changes. -/
theorem PoolOk.allocate [Inhabited V] (hB : 0 < B) (h : PoolOk B mem p keys) :
    ∃ p' mem' target s, p.allocate B mem none = (p',mem',some target) ∧
      p'.slot B target = some s ∧ mem'.cells s = some default ∧
      (∀ s', s' ≠ s → s'.1 < mem.next → mem'.cells s' = mem.cells s') ∧
      ((p'.chunks = p.chunks ∧ mem'.next = mem.next) ∨
        (p'.chunks = p.chunks ++ [some mem.next] ∧ mem'.next = mem.next+1)) ∧
      (∀ k, keys.lookup k ≠ some target) ∧
      ∀ k, keys.lookup k = none → PoolOk B mem' p' (keys.insert k target) := by
  have hwrite : ∀ (m : Memory V) s, (m.write s (some default)).cells s = some default := by
    simp [Memory.write]
  have hkeep : ∀ (m : Memory V) s s', s' ≠ s →
      (m.write s (some default)).cells s' = m.cells s' := fun m s s' hs => by
    simp [Memory.write,Function.update_of_ne hs]
  by_cases hempty : p.emptyObjs = []
  · obtain ⟨p₁,mem₁,hgrow,h₁,hne,hchunks,hnext,hold⟩ := h.grow hB hempty
    obtain ⟨target,s,hlast,hs,hfresh,hok⟩ := h₁.take hne
    refine ⟨{ p₁ with emptyObjs := p₁.emptyObjs.dropLast },mem₁.write s (some default),target,s,?_,hs,
      hwrite mem₁ s,fun s' hne hlt => ?_,.inr ⟨hchunks,hnext⟩,hfresh,hok⟩
    · simp [Pool.allocate,hempty,hgrow,hlast,hs]
    · rw [hkeep mem₁ s s' hne,hold s' hlt]
  · obtain ⟨target,s,hlast,hs,hfresh,hok⟩ := h.take hempty
    refine ⟨{ p with emptyObjs := p.emptyObjs.dropLast },mem.write s (some default),target,s,?_,hs,
      hwrite mem s,fun s' hne _ => hkeep mem s s' hne,.inl ⟨rfl,rfl⟩,hfresh,hok⟩
    simp [Pool.allocate,hempty,hlast,hs]

theorem PoolOk.deallocate (h : PoolOk B mem p keys) {k : K} {pos : ℕ}
    (hk : keys.lookup k = some pos) :
    ∃ s, p.slot B pos = some s ∧
      p.deallocate B mem pos = ({ p with emptyObjs := p.emptyObjs ++ [pos] },mem.write s none) ∧
      PoolOk B (mem.write s none) { p with emptyObjs := p.emptyObjs ++ [pos] } (keys.erase k) := by
  obtain ⟨hlt,-⟩ := h.keyed k pos hk
  obtain ⟨a,-,-,hs⟩ := slot_of_lt h.chunks hlt
  have hread := fun pos' (hp : pos' ≠ pos) => h.read_write_of_ne hs hp none
  refine ⟨_,hs,by simp [Pool.deallocate,hs],?_⟩
  constructor
  case chunks => exact h.chunks
  case nodup => exact h.nodup
  case bound =>
    intro pos' hp
    rcases List.mem_append.mp hp with hp | hp
    · exact h.bound pos' hp
    · rw [List.mem_singleton.mp hp]
      exact hlt
  case distinct =>
    refine List.nodup_append'.mpr ⟨h.distinct,List.nodup_singleton _,?_⟩
    rw [List.disjoint_singleton]
    exact h.not_mem_empty hk
  case free =>
    intro pos' hp
    by_cases heq : pos' = pos
    · subst heq
      exact read_write_self hs _
    · rcases List.mem_append.mp hp with hp | hp
      · exact (hread pos' heq).trans (h.free pos' hp)
      · exact absurd (List.mem_singleton.mp hp) heq
  case keyed =>
    intro k' pos' hk'
    obtain ⟨hne,hk'⟩ := lookup_erase_eq_some hk'
    obtain ⟨hlt',hsome⟩ := h.keyed k' pos' hk'
    have hneq : pos' ≠ pos := by
      rintro rfl
      exact hne (h.injective k' k _ hk' hk)
    exact ⟨hlt',(congrArg Option.isSome (hread pos' hneq)).trans hsome⟩
  case injective =>
    exact fun k₁ k₂ pos' h₁ h₂ =>
      h.injective k₁ k₂ pos' (lookup_erase_eq_some h₁).2 (lookup_erase_eq_some h₂).2
  case covered =>
    intro pos' hlt' hnot
    simp only [List.mem_append,List.mem_singleton,not_or] at hnot
    obtain ⟨k',hk'⟩ := h.covered pos' hlt' hnot.1
    have hneq : k' ≠ k := by
      rintro rfl
      exact hnot.2 (Option.some.inj (hk'.symm.trans hk))
    exact ⟨k',by rw [Finmap.lookup_erase_ne hneq,hk']⟩
  case count =>
    have hcount := h.count
    have hmem : k ∈ keys.keys := Finmap.mem_keys.mpr (Finmap.mem_of_lookup_eq_some hk)
    have hcard := Finset.card_pos.mpr ⟨k,hmem⟩
    rw [Finmap.keys_erase,Finset.card_erase_of_mem hmem,List.length_append,List.length_singleton]
    simp only [Pool.capacity] at hcount ⊢
    omega

theorem exists_keys (ps : List ℕ) (h : ∀ pos ∈ ps, ∃ k, keys.lookup k = some pos) :
    ∃ ks : List K, ks.map keys.lookup = ps.map some := by
  induction ps with
  | nil => exact ⟨[],rfl⟩
  | cons pos ps ih =>
    obtain ⟨k,hk⟩ := h pos (by simp)
    obtain ⟨ks,hks⟩ := ih fun pos hp => h pos (by simp [hp])
    exact ⟨k::ks,by simp [hk,hks]⟩

theorem PoolOk.addresses (h : PoolOk B mem p keys) : ∃ as : List ℕ, p.chunks = as.map some := by
  have hall := h.chunks
  generalize p.chunks = cs at hall
  induction cs with
  | nil => exact ⟨[],rfl⟩
  | cons c cs ih =>
    obtain ⟨a,-,rfl⟩ := hall c List.mem_cons_self
    obtain ⟨as,rfl⟩ := ih fun d hd => hall d (List.mem_cons_of_mem _ hd)
    exact ⟨a::as,rfl⟩

theorem PoolOk.foreach_eq (hB : 0 < B) (h : PoolOk B mem p keys) (f : V → Bool) :
    Pool.foreach B f mem p.chunks = some (visit f ((List.range (p.capacity B)).map (p.read B mem))).1 := by
  obtain ⟨as,has⟩ := h.addresses
  have hp : (⟨as.map some,p.emptyObjs⟩ : Pool) = p := by rw [← has]
  rw [Pool.capacity,has,List.length_map,foreach_eq_visit,items_eq_reads hB mem as p.emptyObjs,hp]

/-- Each key's value is visited at most once, and every value is visited if the
visitor always agrees to go on. -/
theorem PoolOk.foreach (hB : 0 < B) (h : PoolOk B mem p keys) (f : V → Bool) :
    ∃ vs, Pool.foreach B f mem p.chunks = some vs ∧ ∃ ks : List K, ks.Nodup ∧ (∀ k, k ∈ ks ↔ k ∈ keys) ∧
      vs.map some <+: ks.map (fun k => (keys.lookup k).bind (p.read B mem)) ∧
      ((∀ v ∈ vs, f v = true) → vs.length = ks.length) := by
  refine ⟨_,h.foreach_eq hB f,?_⟩
  obtain ⟨hpre,hall⟩ := visit_prefix f ((List.range (p.capacity B)).map (p.read B mem))
  set ps := (List.range (p.capacity B)).filter fun pos => (p.read B mem pos).isSome with hps
  have hvals : (((List.range (p.capacity B)).map (p.read B mem)).filterMap id).map some =
      ps.map (p.read B mem) := by
    rw [List.map_filterMap_some_eq_filter_map_isSome,List.map_id,List.filter_map]
    rfl
  have hmem : ∀ pos, pos ∈ ps ↔ ∃ k, keys.lookup k = some pos := by
    intro pos
    simp only [hps,List.mem_filter,List.mem_range]
    constructor
    · rintro ⟨hlt,hsome⟩
      refine h.covered pos hlt fun hfree => ?_
      simp [h.free pos hfree] at hsome
    · rintro ⟨k,hk⟩
      exact h.keyed k pos hk
  obtain ⟨ks,hks⟩ := exists_keys ps fun pos hp => (hmem pos).mp hp
  have hreads : ks.map (fun k => (keys.lookup k).bind (p.read B mem)) = ps.map (p.read B mem) := by
    have := congrArg (List.map (Option.bind · (p.read B mem))) hks
    simpa [List.map_map,Function.comp_def] using this
  refine ⟨ks,?_,fun k => ⟨fun hk => ?_,fun hk => ?_⟩,?_,fun hf => ?_⟩
  · refine List.Nodup.of_map keys.lookup ?_
    rw [hks]
    exact (List.nodup_range.filter _).map (Option.some_injective _)
  · have hin := List.mem_map_of_mem (f:=keys.lookup) hk
    rw [hks] at hin
    obtain ⟨pos,-,heq⟩ := List.mem_map.mp hin
    exact Finmap.mem_of_lookup_eq_some heq.symm
  · obtain ⟨pos,hpos⟩ := Finmap.mem_iff.mp hk
    have hin := List.mem_map_of_mem (f:=some) ((hmem pos).mpr ⟨k,hpos⟩)
    rw [← hks] at hin
    obtain ⟨k',hk',heq⟩ := List.mem_map.mp hin
    rwa [h.injective k k' pos hpos heq]
  · rw [hreads,← hvals]
    exact hpre.map some
  · have hlen := congrArg List.length hks
    have hlen' := congrArg List.length hvals
    simp only [List.length_map] at hlen hlen'
    rw [hall hf,hlen',hlen]

end Operations

end PoolAllocator
end SdkCp
