import SdkCp.NodeList

/-! tools/list.hpp: the heap of a history against its rings, as lists of nodes, and the nodes
that have been taken out of theirs. -/
namespace SdkCp
namespace NodeList

open LinkedRing

/-- The rings, each from some node on, and the nodes that are in none. -/
structure Rings (A : Type) where
  rings : List (List A)
  removed : List A

section

variable {A α : Type} [DecidableEq A]

/-- `t` behind `a`. -/
def behind (a t : A) (l : List A) : List A := l.flatMap fun x => if x = a then [a,t] else [x]

namespace Rings

/-- A new node is a ring. -/
def create (s : Rings A) (alloc : Option A) : Rings A :=
  { s with rings := (alloc.toList.map fun ptr => [ptr]) ++ s.rings }

/-- The node comes from those that were removed, or it was a ring of its own. -/
def insertAfter (s : Rings A) (after target : A) : Rings A :=
  if after = target then s
  else
    { rings := (s.rings.filter fun r => r ≠ [target]).map (behind after target)
      removed := s.removed.filter fun x => x ≠ target }

def remove (s : Rings A) (ptr : A) : Rings A :=
  { rings := s.rings.map fun r => r.erase ptr
    removed := ptr::s.removed }

def destroy (s : Rings A) (ptr : A) : Rings A :=
  { rings := s.rings.map fun r => r.erase ptr
    removed := s.removed.filter fun x => x ≠ ptr }

def destroyAll (s : Rings A) (ptr : A) : Rings A :=
  { s with rings := s.rings.filter fun r => ptr ∉ r }

def apply (s : Rings A) : Op A α → Rings A
  | .create alloc _ => s.create alloc
  | .insertAfter after target => s.insertAfter after target
  | .remove ptr => s.remove ptr
  | .destroy ptr => s.destroy ptr
  | .destroyAll _ ptr => s.destroyAll ptr

def Linked (s : Rings A) (a : A) : Prop := ∃ r ∈ s.rings, a ∈ r

/-- Not linked with another node. -/
def Detached (s : Rings A) (a : A) : Prop := a ∈ s.removed ∨ [a] ∈ s.rings

/-- A node that is not the head of its ring: the ring has that one, too. -/
def Follows (s : Rings A) (a : A) : Prop := ∃ r ∈ s.rings, a ∈ r ∧ r ≠ [a]

end Rings

/-- The heap beside its rings. -/
def histories (A α : Type) [DecidableEq A] : TransitionSystem (Heap A α × Rings A) (Op A α) where
  init p := (∀ a, p.1 a = none) ∧ p.2.rings = [] ∧ p.2.removed = []
  step p op := (p.1.apply op).map fun h => (h,p.2.apply op)

/-- The allocator gives memory that is not in use, a node is inserted when it is detached, no
head is removed or destroyed alone, and `destroy_all` is given its time. -/
def Valid (p : Heap A α × Rings A) : Op A α → Prop
  | .create alloc _ => ∀ ptr ∈ alloc, p.1 ptr = none
  | .insertAfter after target => p.2.Linked after ∧ p.2.Detached target
  | .remove ptr => p.2.Follows ptr
  | .destroy ptr => p.2.Follows ptr
  | .destroyAll fuel ptr => ∃ r ∈ p.2.rings, ptr ∈ r ∧ r.length ≤ fuel

instance (s : Rings A) (a : A) : Decidable (s.Linked a) :=
  inferInstanceAs (Decidable (∃ r ∈ s.rings, a ∈ r))

instance (s : Rings A) (a : A) : Decidable (s.Detached a) :=
  inferInstanceAs (Decidable (a ∈ s.removed ∨ [a] ∈ s.rings))

instance (s : Rings A) (a : A) : Decidable (s.Follows a) :=
  inferInstanceAs (Decidable (∃ r ∈ s.rings, a ∈ r ∧ r ≠ [a]))

instance (p : Heap A α × Rings A) : ∀ op, Decidable (Valid p op)
  | .create alloc _ => inferInstanceAs (Decidable (∀ ptr ∈ alloc, p.1 ptr = none))
  | .insertAfter after target => inferInstanceAs (Decidable (p.2.Linked after ∧ p.2.Detached target))
  | .remove ptr => inferInstanceAs (Decidable (p.2.Follows ptr))
  | .destroy ptr => inferInstanceAs (Decidable (p.2.Follows ptr))
  | .destroyAll fuel ptr =>
    inferInstanceAs (Decidable (∃ r ∈ p.2.rings, ptr ∈ r ∧ r.length ≤ fuel))

theorem behind_of_notMem {a t : A} {l : List A} (h : a ∉ l) : behind a t l = l := by
  rw [behind]
  induction l with
  | nil => rfl
  | cons b l ih =>
    have hb : b ≠ a := fun hb => h (hb ▸ List.mem_cons_self)
    rw [List.flatMap_cons,if_neg hb,ih fun hl => h (List.mem_cons_of_mem b hl)]
    rfl

theorem behind_append {a t : A} {before after : List A} (hbefore : a ∉ before)
    (hafter : a ∉ after) : behind a t (before ++ a::after) = before ++ a::t::after := by
  have h₁ := behind_of_notMem (t:=t) hbefore
  have h₂ := behind_of_notMem (t:=t) hafter
  rw [behind] at h₁ h₂ ⊢
  rw [List.flatMap_append,List.flatMap_cons,if_pos rfl,h₁,h₂]
  rfl

theorem mem_behind {a t x : A} {l : List A} : x ∈ behind a t l ↔ x ∈ l ∨ x = t ∧ a ∈ l := by
  rw [behind,List.mem_flatMap]
  constructor
  · rintro ⟨b,hb,hx⟩
    split at hx
    · rename_i hba
      rcases List.mem_pair.mp hx with rfl | rfl
      · exact .inl (hba ▸ hb)
      · exact .inr ⟨rfl,hba ▸ hb⟩
    · exact .inl (List.mem_singleton.mp hx ▸ hb)
  · rintro (hx | ⟨rfl,ha⟩)
    · refine ⟨x,hx,?_⟩
      split
      · rename_i hxa
        exact hxa ▸ List.mem_cons_self
      · exact List.mem_singleton_self x
    · exact ⟨a,ha,by simp⟩

omit [DecidableEq A] in
theorem exists_split {a : A} {l : List A} (h : a ∈ l) (hnodup : l.Nodup) :
    ∃ before after, l = before ++ a::after ∧ a ∉ before ∧ a ∉ after := by
  obtain ⟨before,after,rfl⟩ := List.append_of_mem h
  have hmid := (List.nodup_middle.mp hnodup)
  have hnot := (List.nodup_cons.mp hmid).1
  rw [List.mem_append,not_or] at hnot
  exact ⟨before,after,rfl,hnot⟩

theorem nodup_behind {a t : A} {l : List A} (hnodup : l.Nodup) (ht : t ∉ l) :
    (behind a t l).Nodup := by
  by_cases ha : a ∈ l
  · obtain ⟨before,after,rfl,hbefore,hafter⟩ := exists_split ha hnodup
    rw [behind_append hbefore hafter,List.append_cons,List.nodup_middle,← List.append_cons]
    exact List.nodup_cons.mpr ⟨ht,hnodup⟩
  · rwa [behind_of_notMem ha]

/-- The nodes of each ring are linked in its order, and a node is in one place. -/
structure Kept (h : Heap A α) (s : Rings A) : Prop where
  ring : ∀ r ∈ s.rings, Ring h.nextOf h.prevOf r
  nodup : ∀ r ∈ s.rings, r.Nodup
  disjoint : ∀ r ∈ s.rings, ∀ r' ∈ s.rings, ∀ x ∈ r, x ∈ r' → r = r'
  apart : ∀ x ∈ s.removed, ∀ r ∈ s.rings, x ∉ r
  nodes : ∀ x, (h x).isSome ↔ s.Linked x ∨ x ∈ s.removed

namespace Kept

variable {h h' : Heap A α} {s : Rings A} {a t : A}

omit [DecidableEq A] in
theorem isSome (hk : Kept h s) {r : List A} (hr : r ∈ s.rings) (ha : a ∈ r) : (h a).isSome :=
  (hk.nodes a).mpr (.inl ⟨r,hr,ha⟩)

omit [DecidableEq A] in
theorem ring_eq (hk : Kept h s) {r r' : List A} (hr : r ∈ s.rings) (hr' : r' ∈ s.rings) {x : A}
    (hx : x ∈ r) (hx' : x ∈ r') : r = r' :=
  hk.disjoint r hr r' hr' x hx hx'

theorem create (hk : Kept h s) {alloc : Option A} {data : α}
    (hfresh : ∀ ptr ∈ alloc, h ptr = none) :
    Kept (h.create alloc data).1 (s.create alloc) := by
  cases alloc with
  | none => exact hk
  | some ptr =>
    have hnone := hfresh ptr rfl
    have hnode : ¬(s.Linked ptr ∨ ptr ∈ s.removed) := by
      rw [← hk.nodes ptr]
      simp [hnone]
    have hnew : ∀ r ∈ s.rings, ∀ x ∈ r, x ≠ ptr := fun r hr x hx hxp =>
      hnode (.inl ⟨r,hr,hxp ▸ hx⟩)
    simp only [Heap.create]
    refine ⟨fun r hr => ?_,fun r hr => ?_,fun r hr r' hr' x hx hx' => ?_,fun x hx r hr hxr => ?_,
      fun x => ?_⟩
    · simp only [Heap.nextOf_update,Heap.prevOf_update]
      rcases List.mem_cons.mp hr with rfl | hr
      · exact ring_singleton.mpr ⟨Function.update_self ..,Function.update_self ..⟩
      · exact (hk.ring r hr).congr (fun x hx => Function.update_of_ne (hnew r hr x hx) _ _)
          fun x hx => Function.update_of_ne (hnew r hr x hx) _ _
    · rcases List.mem_cons.mp hr with rfl | hr
      · exact List.nodup_singleton ptr
      · exact hk.nodup r hr
    · rcases List.mem_cons.mp hr with rfl | hr <;> rcases List.mem_cons.mp hr' with rfl | hr'
      · rfl
      · exact absurd (List.mem_singleton.mp hx) (hnew r' hr' x hx')
      · exact absurd (List.mem_singleton.mp hx') (hnew r hr x hx)
      · exact hk.ring_eq hr hr' hx hx'
    · rcases List.mem_cons.mp hr with rfl | hr
      · exact hnode (.inr (List.mem_singleton.mp hxr ▸ hx))
      · exact hk.apart x hx r hr hxr
    · have hlinked : (s.create (some ptr)).Linked x ↔ x = ptr ∨ s.Linked x := by
        simp [Rings.create,Rings.Linked]
      rw [hlinked,or_assoc]
      by_cases hx : x = ptr
      · simp [hx]
      · rw [Function.update_of_ne hx,hk.nodes x]
        simp [hx,Rings.create]

theorem free (hk : Kept h s) (ht : t ∈ s.removed) :
    Kept (Function.update h t none) { s with removed := s.removed.filter fun x => x ≠ t } := by
  have hne : ∀ r ∈ s.rings, ∀ x ∈ r, x ≠ t := fun r hr x hx hxt => hk.apart t ht r hr (hxt ▸ hx)
  refine ⟨fun r hr => ?_,hk.nodup,hk.disjoint,fun x hx => hk.apart x (List.mem_filter.mp hx).1,
    fun x => ?_⟩
  · simp only [Heap.nextOf_update,Heap.prevOf_update]
    exact (hk.ring r hr).congr (fun x hx => Function.update_of_ne (hne r hr x hx) _ _)
      fun x hx => Function.update_of_ne (hne r hr x hx) _ _
  · have hmem : x ∈ (s.removed.filter fun x => x ≠ t) ↔ x ∈ s.removed ∧ x ≠ t := by simp
    by_cases hx : x = t
    · have hlinked : ¬s.Linked t := fun ⟨r,hr,htr⟩ => hk.apart t ht r hr htr
      simpa [hx,Rings.Linked] using hlinked
    · simp only [Function.update_of_ne hx,hk.nodes x,hmem]
      simp [Rings.Linked,hx]

omit [DecidableEq A] in
theorem congr (hk : Kept h s) (hlinked : ∀ x, s.Linked x → h' x = h x)
    (hnodes : ∀ x, (h' x).isSome ↔ (h x).isSome) : Kept h' s := by
  refine ⟨fun r hr => ?_,hk.nodup,hk.disjoint,hk.apart,fun x => (hnodes x).trans (hk.nodes x)⟩
  have hsame : ∀ x ∈ r, h' x = h x := fun x hx => hlinked x ⟨r,hr,hx⟩
  exact (hk.ring r hr).congr (fun x hx => congrArg (Option.map Node.next) (hsame x hx))
    fun x hx => congrArg (Option.map Node.prev) (hsame x hx)

theorem linked_remove (hk : Kept h s) {x : A} : (s.remove t).Linked x ↔ s.Linked x ∧ x ≠ t := by
  constructor
  · rintro ⟨r',hr',hx⟩
    obtain ⟨r,hr,rfl⟩ := List.mem_map.mp hr'
    exact ⟨⟨r,hr,List.mem_of_mem_erase hx⟩,fun hxt => (hk.nodup r hr).not_mem_erase (hxt ▸ hx)⟩
  · rintro ⟨⟨r,hr,hx⟩,hne⟩
    exact ⟨_,List.mem_map_of_mem hr,(List.mem_erase_of_ne hne).mpr hx⟩

theorem remove (hk : Kept h s) (ht : s.Follows t) :
    ∃ h', h.remove t = some h' ∧ Kept h' (s.remove t) := by
  obtain ⟨rt,hrt,htr,hmore⟩ := ht
  obtain ⟨before,after,rfl,hbefore,hafter⟩ := exists_split htr (hk.nodup rt hrt)
  have hrot : (before ++ t::after).IsRotated (t::(after ++ before)) := List.isRotated_append
  have hring := (hk.ring _ hrt).rotated hrot
  have hnodup := hrot.nodup_iff.mp (hk.nodup _ hrt)
  obtain ⟨r,hr,-,hnext⟩ := hring.next_cons
  obtain ⟨p,hp,-,hprev⟩ := hring.prev_cons
  rw [← hrot.mem_iff] at hr hp
  obtain ⟨h',hs,hn',hp',hd'⟩ := Heap.remove_some hprev.2 hnext.1 (hk.isSome hrt hp) (hk.isSome hrt hr)
  refine ⟨h',hs,?_⟩
  have herase : (before ++ t::after).erase t = before ++ after := by
    rw [List.erase_append_right _ hbefore,List.erase_cons_head]
  have hother : ∀ r₀ ∈ s.rings, t ∉ r₀ → r₀.erase t = r₀ ∧ ∀ x ∈ r₀, x ≠ p ∧ x ≠ r := by
    intro r₀ hr₀ htr₀
    refine ⟨List.erase_of_not_mem htr₀,fun x hx => ⟨?_,?_⟩⟩ <;> rintro rfl <;> refine htr₀ ?_
    · exact hk.ring_eq hr₀ hrt hx hp ▸ htr
    · exact hk.ring_eq hr₀ hrt hx hr ▸ htr
  refine ⟨?_,?_,?_,?_,fun x => ?_⟩
  · simp only [Rings.remove,List.forall_mem_map]
    intro r₀ hr₀
    rw [hn',hp']
    by_cases htr₀ : t ∈ r₀
    · obtain rfl := hk.ring_eq hr₀ hrt htr₀ htr
      rw [herase]
      refine Ring.rotated (hring.remove hnodup ?_ hnext.1 hprev.2 ?_ ?_ ?_) List.isRotated_append
      · intro hnil
        obtain ⟨rfl,rfl⟩ := List.append_eq_nil_iff.mp hnil
        exact hmore rfl
      · exact ⟨Function.update_self ..,Function.update_self ..⟩
      · exact fun x _ hx => Function.update_of_ne hx _ _
      · exact fun x _ hx => Function.update_of_ne hx _ _
    · obtain ⟨hsame,hne⟩ := hother r₀ hr₀ htr₀
      rw [hsame]
      exact (hk.ring r₀ hr₀).congr (fun x hx => Function.update_of_ne (hne x hx).1 _ _)
        fun x hx => Function.update_of_ne (hne x hx).2 _ _
  · simp only [Rings.remove,List.forall_mem_map]
    exact fun r₀ hr₀ => (hk.nodup r₀ hr₀).erase t
  · simp only [Rings.remove,List.forall_mem_map]
    intro r₁ hr₁ r₂ hr₂ x hx hx'
    rw [hk.ring_eq hr₁ hr₂ (List.mem_of_mem_erase hx) (List.mem_of_mem_erase hx')]
  · simp only [Rings.remove,List.forall_mem_map]
    intro x hx r₀ hr₀ hxr
    rcases List.mem_cons.mp hx with rfl | hx
    · exact (hk.nodup r₀ hr₀).not_mem_erase hxr
    · exact hk.apart x hx r₀ hr₀ (List.mem_of_mem_erase hxr)
  · rw [hk.linked_remove,← Heap.isSome_dataOf,hd',Heap.isSome_dataOf,hk.nodes]
    have htl : s.Linked t := ⟨_,hrt,htr⟩
    by_cases hx : x = t <;> simp [Rings.remove,hx,htl]

theorem destroy (hk : Kept h s) (ht : s.Follows t) :
    ∃ h', h.destroy t = some h' ∧ Kept h' (s.destroy t) := by
  obtain ⟨h₁,hremove,hk₁⟩ := hk.remove ht
  have hmem : t ∈ (s.remove t).removed := List.mem_cons_self
  have hsome : (h₁ t).isSome := (hk₁.nodes t).mpr (.inr hmem)
  obtain ⟨n,hn⟩ := Option.isSome_iff_exists.mp hsome
  refine ⟨Function.update h₁ t none,?_,?_⟩
  · rw [Heap.destroy,hremove,Option.bind_some,Heap.free,hn]
    rfl
  · have hfilter : (t::s.removed).filter (fun x => x ≠ t) = s.removed.filter fun x => x ≠ t := by
      simp
    have hfree := hk₁.free hmem
    simp only [Rings.remove,hfilter] at hfree
    exact hfree

omit [DecidableEq A] in
theorem notMem_of_detached (hk : Kept h s) (ht : s.Detached t) {r : List A} (hr : r ∈ s.rings)
    (hne : r ≠ [t]) : t ∉ r := by
  rcases ht with ht | ht
  · exact hk.apart t ht r hr
  · exact fun htr => hne (hk.ring_eq hr ht htr (List.mem_singleton_self t))

omit [DecidableEq A] in
theorem isSome_of_detached (hk : Kept h s) (ht : s.Detached t) : (h t).isSome := by
  rcases ht with ht | ht
  · exact (hk.nodes t).mpr (.inr ht)
  · exact hk.isSome ht (List.mem_singleton_self t)

theorem insertAfter_self (hk : Kept h s) (hlinked : s.Linked t) (ht : s.Detached t) :
    ∃ h', h.insertAfter t t = some h' ∧ Kept h' s := by
  have hring : [t] ∈ s.rings := by
    rcases ht with ht | ht
    · obtain ⟨r,hr,htr⟩ := hlinked
      exact absurd htr (hk.apart t ht r hr)
    · exact ht
  obtain ⟨hnext,hprev⟩ := ring_singleton.mp (hk.ring _ hring)
  have hsome := Heap.isSome_of_nextOf hnext
  obtain ⟨h',hs,hn',hp',hd'⟩ := Heap.insertAfter_some hnext hsome hsome
  have hsame : h' = h := by
    refine funext fun x => Heap.ext_of (congrFun hd' x) ?_ ?_
    · rw [hp']
      by_cases hx : x = t <;> simp [hx,hprev]
    · rw [hn']
      by_cases hx : x = t <;> simp [hx,hnext]
  exact ⟨h',hs,hsame ▸ hk⟩

theorem linked_insertAfter (hne : a ≠ t) {ra : List A} (hra : ra ∈ s.rings) (har : a ∈ ra)
    {x : A} : (s.insertAfter a t).Linked x ↔
      x = t ∨ ∃ r ∈ s.rings, r ≠ [t] ∧ x ∈ r := by
  have hrat : ra ≠ [t] := fun heq => hne (by simpa [heq] using har)
  rw [Rings.insertAfter,if_neg hne]
  constructor
  · rintro ⟨r',hr',hx⟩
    obtain ⟨r,hr,rfl⟩ := List.mem_map.mp hr'
    obtain ⟨hr,hrt⟩ := List.mem_filter.mp hr
    rcases mem_behind.mp hx with hx | ⟨hx,-⟩
    · exact .inr ⟨r,hr,by simpa using hrt,hx⟩
    · exact .inl hx
  · rintro (rfl | ⟨r,hr,hrt,hx⟩)
    · refine ⟨behind a x ra,List.mem_map_of_mem (List.mem_filter.mpr ⟨hra,by simpa using hrat⟩),?_⟩
      exact mem_behind.mpr (.inr ⟨rfl,har⟩)
    · refine ⟨behind a t r,List.mem_map_of_mem (List.mem_filter.mpr ⟨hr,by simpa using hrt⟩),?_⟩
      exact mem_behind.mpr (.inl hx)

theorem nodes_insertAfter (hk : Kept h s) (hne : a ≠ t) (ha : s.Linked a) (ht : s.Detached t)
    {x : A} : (h x).isSome ↔ (s.insertAfter a t).Linked x ∨ x ∈ (s.insertAfter a t).removed := by
  obtain ⟨ra,hra,har⟩ := ha
  rw [hk.nodes,linked_insertAfter hne hra har,Rings.insertAfter,if_neg hne]
  by_cases hxt : x = t
  · rw [hxt]
    simp only [true_or,iff_true]
    rcases ht with ht | ht
    · exact .inr ht
    · exact .inl ⟨_,ht,List.mem_singleton_self t⟩
  · have hsingle : ∀ r, x ∈ r → r ≠ [t] := fun r hx hr => hxt (by simpa [hr] using hx)
    simp only [hxt,false_or,List.mem_filter,ne_eq,not_false_eq_true,decide_true,and_true]
    refine or_congr_left ⟨?_,?_⟩
    · rintro ⟨r,hr,hx⟩
      exact ⟨r,hr,hsingle r hx,hx⟩
    · rintro ⟨r,hr,-,hx⟩
      exact ⟨r,hr,hx⟩

/-- The rings after `insert_after`: that of `a` is longer, the others have their links. -/
theorem ring_insertAfter (hk : Kept h s) (hne : a ≠ t) {ra : List A} (hra : ra ∈ s.rings)
    (har : a ∈ ra) (htra : t ∉ ra) : ∃ r ∈ ra, h.nextOf a = some r ∧ ∀ r₀ ∈ s.rings, t ∉ r₀ →
      Ring (Function.update (Function.update h.nextOf a (some t)) t (some r))
        (Function.update (Function.update h.prevOf t (some a)) r (some t)) (behind a t r₀) := by
  obtain ⟨before,after,rfl,hbefore,hafter⟩ := exists_split har (hk.nodup ra hra)
  have hrot : (before ++ a::after).IsRotated (a::(after ++ before)) := List.isRotated_append
  have hring := (hk.ring _ hra).rotated hrot
  obtain ⟨r,hr,-,hnext⟩ := hring.next_cons
  rw [← hrot.mem_iff] at hr
  have hrt : r ≠ t := fun hrt => htra (hrt ▸ hr)
  refine ⟨r,hr,hnext.1,fun r₀ hr₀ htr₀ => ?_⟩
  have hxt : ∀ x ∈ r₀, x ≠ t := fun x hx hxt => htr₀ (hxt ▸ hx)
  by_cases har₀ : a ∈ r₀
  · obtain rfl := hk.ring_eq hr₀ hra har₀ har
    rw [behind_append hbefore hafter]
    have hnodup : (t::a::(after ++ before)).Nodup :=
      List.nodup_cons.mpr ⟨fun hmem => htra (hrot.mem_iff.mpr hmem),
        hrot.nodup_iff.mp (hk.nodup _ hra)⟩
    refine Ring.rotated (hring.insert hnodup hnext.1 ⟨by simp [hne],by simp [hrt.symm]⟩
      ⟨by simp,by simp⟩ (fun x hxa hxt => by simp [hxa,hxt]) fun x hxr hxt => by simp [hxr,hxt]) ?_
    exact List.isRotated_append (l:=a::t::after)
  · rw [behind_of_notMem har₀]
    have hxa : ∀ x ∈ r₀, x ≠ a := fun x hx hxa => har₀ (hxa ▸ hx)
    have hxr : ∀ x ∈ r₀, x ≠ r := fun x hx hxr =>
      har₀ (hk.ring_eq hr₀ hra (hxr ▸ hx) hr ▸ har)
    exact (hk.ring r₀ hr₀).congr (fun x hx => by simp [hxa x hx,hxt x hx])
      fun x hx => by simp [hxr x hx,hxt x hx]

theorem insertAfter (hk : Kept h s) (ha : s.Linked a) (ht : s.Detached t) :
    ∃ h', h.insertAfter a t = some h' ∧ Kept h' (s.insertAfter a t) := by
  by_cases hne : a = t
  · subst hne
    rw [Rings.insertAfter,if_pos rfl]
    exact hk.insertAfter_self ha ht
  have hnodes := fun x => hk.nodes_insertAfter hne ha ht (x:=x)
  obtain ⟨ra,hra,har⟩ := ha
  have htra := hk.notMem_of_detached ht hra fun heq => hne (by simpa [heq] using har)
  obtain ⟨r,hr,hnext,hring⟩ := hk.ring_insertAfter hne hra har htra
  obtain ⟨h',hs,hn',hp',hd'⟩ :=
    Heap.insertAfter_some hnext (hk.isSome_of_detached ht) (hk.isSome hra hr)
  have hother : ∀ r₀, r₀ ∈ s.rings.filter (fun r => r ≠ [t]) → r₀ ∈ s.rings ∧ t ∉ r₀ := by
    intro r₀ hr₀
    obtain ⟨hr₀,hr₀t⟩ := List.mem_filter.mp hr₀
    exact ⟨hr₀,hk.notMem_of_detached ht hr₀ (by simpa using hr₀t)⟩
  refine ⟨h',hs,?_⟩
  rw [Rings.insertAfter,if_neg hne] at hnodes ⊢
  refine ⟨?_,?_,?_,?_,fun x => ?_⟩
  · rw [hn',hp',List.forall_mem_map]
    exact fun r₀ hr₀ => hring r₀ (hother r₀ hr₀).1 (hother r₀ hr₀).2
  · rw [List.forall_mem_map]
    exact fun r₀ hr₀ => nodup_behind (hk.nodup r₀ (hother r₀ hr₀).1) (hother r₀ hr₀).2
  · simp only [List.forall_mem_map]
    intro r₁ hr₁ r₂ hr₂ x hx hx'
    obtain ⟨hr₁,htr₁⟩ := hother r₁ hr₁
    obtain ⟨hr₂,htr₂⟩ := hother r₂ hr₂
    rcases mem_behind.mp hx with hx | ⟨hxt,ha₁⟩ <;> rcases mem_behind.mp hx' with hx' | ⟨hxt',ha₂⟩
    · rw [hk.ring_eq hr₁ hr₂ hx hx']
    · exact absurd (hxt' ▸ hx) htr₁
    · exact absurd (hxt ▸ hx') htr₂
    · rw [hk.ring_eq hr₁ hr₂ ha₁ ha₂]
  · simp only [List.forall_mem_map]
    intro x hx r₀ hr₀ hxr
    obtain ⟨hx,hxt⟩ := List.mem_filter.mp hx
    rcases mem_behind.mp hxr with hxr | ⟨rfl,-⟩
    · exact hk.apart x hx r₀ (hother r₀ hr₀).1 hxr
    · simp at hxt
  · rw [← Heap.isSome_dataOf,hd',Heap.isSome_dataOf]
    exact hnodes x

end Kept

/-- `foreach` with a visitor that is content comes to every node up to the one it began with. -/
theorem foreachLoop_some {h : Heap A α} {t n : A} {l : List A} {fuel : ℕ}
    (hchain : List.IsChain (Joined h.nextOf h.prevOf) (n::(l ++ [t]))) (ht : t ∉ l)
    (hfuel : l.length < fuel) : h.foreachLoop (fun _ => true) t fuel n = some (n::l) := by
  induction l generalizing n fuel with
  | nil =>
    obtain ⟨fuel,rfl⟩ := Nat.exists_eq_succ_of_ne_zero (by omega : fuel ≠ 0)
    obtain ⟨node,hnode,hnext⟩ := Option.map_eq_some_iff.mp (List.isChain_cons_cons.mp hchain).1.1
    simp only [Heap.foreachLoop,hnode,Option.bind_some,if_true]
    rw [if_pos hnext.symm]
  | cons b l ih =>
    obtain ⟨fuel,rfl⟩ := Nat.exists_eq_succ_of_ne_zero (by omega : fuel ≠ 0)
    obtain ⟨hjoin,hrest⟩ := List.isChain_cons_cons.mp hchain
    obtain ⟨node,hnode,hnext⟩ := Option.map_eq_some_iff.mp hjoin.1
    rw [List.mem_cons,not_or] at ht
    simp only [Heap.foreachLoop,hnode,Option.bind_some,if_true]
    rw [if_neg (hnext ▸ ht.1),hnext,ih hrest ht.2 (by simpa using hfuel),Option.map_some]

/-- `destroy_all` frees the nodes in their order and reads none that is free. -/
theorem destroyAllLoop_some {h : Heap A α} {t n : A} {l : List A} {fuel : ℕ}
    (hchain : List.IsChain (Joined h.nextOf h.prevOf) (n::l)) (hnodup : (n::l).Nodup)
    (hlast : (n::l).getLast? = some t) (ht : (h t).isSome) (hfuel : l.length < fuel) :
    Heap.destroyAllLoop t fuel h n = some (fun x => if x ∈ n::l then none else h x,n::l) := by
  induction l generalizing h n fuel with
  | nil =>
    obtain ⟨fuel,rfl⟩ := Nat.exists_eq_succ_of_ne_zero (by omega : fuel ≠ 0)
    obtain rfl : n = t := Option.some.inj hlast
    obtain ⟨node,hnode⟩ := Option.isSome_iff_exists.mp ht
    simp only [Heap.destroyAllLoop,if_true,Heap.free,hnode,Option.map_some]
    congr 2
    funext x
    simp [Function.update_apply]
  | cons b l ih =>
    obtain ⟨fuel,rfl⟩ := Nat.exists_eq_succ_of_ne_zero (by omega : fuel ≠ 0)
    obtain ⟨hjoin,hrest⟩ := List.isChain_cons_cons.mp hchain
    obtain ⟨hnb,hnodup'⟩ := List.nodup_cons.mp hnodup
    rw [List.getLast?_cons_cons] at hlast
    have hnt : t ≠ n := fun htn => hnb (htn ▸ List.mem_of_getLast? hlast)
    have hne : ∀ x ∈ b::l, x ≠ n := fun x hx hxn => hnb (hxn ▸ hx)
    have hsome := Heap.isSome_of_nextOf hjoin.1
    obtain ⟨node,hnode⟩ := Option.isSome_iff_exists.mp hsome
    have hchain' : List.IsChain (Joined (Heap.nextOf (Function.update h n none))
        (Heap.prevOf (Function.update h n none))) (b::l) := by
      rw [Heap.nextOf_update,Heap.prevOf_update]
      refine hrest.imp_of_mem_imp fun x y hx hy hxy => ?_
      exact ⟨(Function.update_of_ne (hne x hx) _ _).trans hxy.1,
        (Function.update_of_ne (hne y hy) _ _).trans hxy.2⟩
    have hloop := ih hchain' hnodup' hlast (by rwa [Function.update_of_ne hnt]) (by simpa using hfuel)
    simp only [Heap.destroyAllLoop,hnt,if_false,hjoin.1,hjoin.2,Heap.free,hnode,Option.map_some,
      Option.bind_eq_bind,Option.bind_some,hloop]
    congr 2
    funext x
    by_cases hx : x = n <;> simp [hx]

namespace Kept

variable {h h' : Heap A α} {s : Rings A} {a t : A}

theorem idxOf_rotate {before after : List A} (hbefore : a ∉ before) :
    (before ++ a::after).rotate ((before ++ a::after).idxOf a) = a::(after ++ before) := by
  rw [List.idxOf_append_of_notMem hbefore,List.idxOf_cons_self,Nat.add_zero,
    List.rotate_append_length_eq]
  rfl

theorem foreach (hk : Kept h s) {r : List A} (hr : r ∈ s.rings) (ha : a ∈ r) {fuel : ℕ}
    (hfuel : r.length ≤ fuel) :
    h.foreach fuel a (fun _ => true) = some (r.rotate (r.idxOf a)) := by
  obtain ⟨before,after,rfl,hbefore,hafter⟩ := exists_split ha (hk.nodup r hr)
  have hrot : (before ++ a::after).IsRotated (a::(after ++ before)) := List.isRotated_append
  have hring := (hk.ring _ hr).rotated hrot
  rw [idxOf_rotate hbefore]
  refine foreachLoop_some (ring_cons.mp hring) (by simp [hbefore,hafter]) ?_
  simp only [List.length_append,List.length_cons] at hfuel ⊢
  omega

theorem destroyAll (hk : Kept h s) {r : List A} (hr : r ∈ s.rings) (ha : a ∈ r) {fuel : ℕ}
    (hfuel : r.length ≤ fuel) : ∃ freed, freed.Perm r ∧
      h.destroyAll fuel a = some (fun x => if x ∈ r then none else h x,freed) := by
  obtain ⟨before,after,rfl,hbefore,hafter⟩ := exists_split ha (hk.nodup r hr)
  have hrot : (before ++ a::after).IsRotated (a::(after ++ before)) := List.isRotated_append
  have hring := (hk.ring _ hr).rotated hrot
  have hnodup := hrot.nodup_iff.mp (hk.nodup _ hr)
  obtain ⟨n,-,hhead,hjoin⟩ := hring.next_cons
  obtain ⟨l,hl⟩ := List.head?_eq_some_iff.mp hhead
  have hchain := ring_cons.mp hring
  rw [hl] at hchain
  have hperm : (n::l).Perm (before ++ a::after) :=
    (hl ▸ List.perm_append_singleton a (after ++ before)).trans hrot.perm.symm
  have hlen := hperm.length_eq
  rw [List.length_cons] at hlen
  have hroom : l.length < fuel := by omega
  have hloop := destroyAllLoop_some (t:=a) (List.isChain_cons_cons.mp hchain).2
    (hperm.nodup_iff.mpr (hk.nodup _ hr)) (by rw [← hl]; simp) (hk.isSome hr ha) hroom
  refine ⟨n::l,hperm,?_⟩
  rw [Heap.destroyAll,hjoin.1,Option.bind_some,hloop]
  simp only [hperm.mem_iff]

theorem kept_destroyAll (hk : Kept h s) {r : List A} (hr : r ∈ s.rings) (ha : a ∈ r) :
    Kept (fun x => if x ∈ r then none else h x) (s.destroyAll a) := by
  have hother : ∀ r', r' ∈ s.rings.filter (fun r => a ∉ r) → r' ∈ s.rings ∧ ∀ x ∈ r', x ∉ r := by
    intro r' hr'
    obtain ⟨hr',har'⟩ := List.mem_filter.mp hr'
    refine ⟨hr',fun x hx hxr => ?_⟩
    rw [hk.ring_eq hr' hr hx hxr] at har'
    simp [ha] at har'
  refine ⟨fun r' hr' => ?_,fun r' hr' => hk.nodup r' (hother r' hr').1,?_,?_,fun x => ?_⟩
  · obtain ⟨hmem,hout⟩ := hother r' hr'
    exact (hk.ring r' hmem).congr (fun x hx => by simp [Heap.nextOf,hout x hx])
      fun x hx => by simp [Heap.prevOf,hout x hx]
  · intro r₁ hr₁ r₂ hr₂ x hx hx'
    exact hk.ring_eq (hother r₁ hr₁).1 (hother r₂ hr₂).1 hx hx'
  · exact fun x hx r' hr' => hk.apart x hx r' (hother r' hr').1
  · have hlinked : (s.destroyAll a).Linked x ↔ s.Linked x ∧ x ∉ r := by
      constructor
      · rintro ⟨r',hr',hx⟩
        exact ⟨⟨r',(hother r' hr').1,hx⟩,(hother r' hr').2 x hx⟩
      · rintro ⟨⟨r',hr',hx⟩,hxr⟩
        have har' : a ∉ r' := fun har' => hxr (hk.ring_eq hr' hr har' ha ▸ hx)
        exact ⟨r',List.mem_filter.mpr ⟨hr',by simpa using har'⟩,hx⟩
    rw [hlinked]
    by_cases hx : x ∈ r
    · have hremoved : x ∉ s.removed := fun hxs => hk.apart x hxs r hr hx
      simpa [hx,Rings.destroyAll] using hremoved
    · simpa [hx,Rings.destroyAll] using hk.nodes x

end Kept

/-- A valid step is taken, and the rings are those of the lists after it. -/
theorem kept_apply {p : Heap A α × Rings A} (op : Op A α) (hk : Kept p.1 p.2) (hop : Valid p op) :
    ∃ h', p.1.apply op = some h' ∧ Kept h' (p.2.apply op) := by
  cases op with
  | create alloc data => exact ⟨_,rfl,hk.create hop⟩
  | insertAfter after target => exact hk.insertAfter hop.1 hop.2
  | remove ptr => exact hk.remove hop
  | destroy ptr => exact hk.destroy hop
  | destroyAll fuel ptr =>
    obtain ⟨r,hr,ha,hfuel⟩ := hop
    obtain ⟨freed,-,hfreed⟩ := hk.destroyAll hr ha hfuel
    exact ⟨_,by rw [Heap.apply,hfreed]; rfl,hk.kept_destroyAll hr ha⟩

theorem kept_init {p : Heap A α × Rings A} (hp : (histories A α).init p) : Kept p.1 p.2 := by
  obtain ⟨hnone,hrings,hremoved⟩ := hp
  refine ⟨?_,?_,?_,?_,fun x => ?_⟩
  · simp [hrings]
  · simp [hrings]
  · simp [hrings]
  · simp [hrings]
  · simp [hnone,hrings,hremoved,Rings.Linked]

theorem kept_of_step {p q : Heap A α × Rings A} {op : Op A α}
    (happly : ∃ h', p.1.apply op = some h' ∧ Kept h' (p.2.apply op))
    (hq : (histories A α).step p op = some q) : Kept q.1 q.2 := by
  obtain ⟨h',hsome,hk⟩ := happly
  obtain ⟨h'',hsome',rfl⟩ := Option.map_eq_some_iff.mp hq
  obtain rfl : h' = h'' := Option.some.inj (hsome.symm.trans hsome')
  exact hk

theorem kept_of_reachable {p : Heap A α × Rings A}
    (hp : (histories A α).ReachableBy Valid p) : Kept p.1 p.2 :=
  hp.invariant (P:=fun p => Kept p.1 p.2) (fun _ => kept_init) fun _ _ _ hk hop hq =>
    kept_of_step (kept_apply _ hk hop) hq

/-- A linked node is the predecessor of its successor and the successor of its predecessor. -/
def Inverse (h : Heap A α) (a : A) : Prop :=
  ∃ l r, h.nextOf a = some r ∧ h.prevOf r = some a ∧ h.prevOf a = some l ∧ h.nextOf l = some a

/-- The links go round the list. -/
def Cyclic (h : Heap A α) (r : List A) : Prop :=
  ∀ (i : ℕ) (a b : A), r[i]? = some a → r[(i+1) % r.length]? = some b →
    h.nextOf a = some b ∧ h.prevOf b = some a

/-- `foreach` from `a` comes to each node of the ring once, in its order. -/
def Visits (h : Heap A α) (r : List A) (a : A) : Prop :=
  ∀ fuel, r.length ≤ fuel → h.foreach fuel a (fun _ => true) = some (r.rotate (r.idxOf a))

/-- `destroy_all` from `a` frees each node of the ring once, and nothing else. -/
def Clears (h : Heap A α) (r : List A) (a : A) : Prop :=
  ∀ fuel, r.length ≤ fuel → ∃ freed, freed.Perm r ∧
    h.destroyAll fuel a = some (fun x => if x ∈ r then none else h x,freed)

/-- In every history with valid steps the rings in the heap are the lists, without a node in
two places, the loops go round them, and every valid step stays in memory that is in use. -/
theorem rings_kept {p : Heap A α × Rings A} (hp : (histories A α).ReachableBy Valid p) :
    (∀ a, p.2.Linked a → Inverse p.1 a) ∧
      (∀ r ∈ p.2.rings, r.Nodup ∧ Cyclic p.1 r ∧ ∀ a ∈ r, Visits p.1 r a ∧ Clears p.1 r a) ∧
      ∀ op, Valid p op → (p.1.apply op).isSome := by
  have hk := kept_of_reachable hp
  refine ⟨?_,fun r hr => ⟨hk.nodup r hr,?_,fun a ha => ⟨?_,?_⟩⟩,fun op hop => ?_⟩
  · rintro a ⟨r,hr,ha⟩
    obtain ⟨⟨b,-,hnext⟩,c,-,hprev⟩ := (hk.ring r hr).joined ha
    exact ⟨c,b,hnext.1,hnext.2,hprev.2,hprev.1⟩
  · exact fun i a b ha hb => (hk.ring r hr).joined_getElem? ha hb
  · exact fun fuel hfuel => hk.foreach hr ha hfuel
  · exact fun fuel hfuel => hk.destroyAll hr ha hfuel
  · obtain ⟨h',hsome,-⟩ := kept_apply op hk hop
    rw [hsome]
    rfl

end

/-- No node yet. -/
def start : Heap ℕ Char × Rings ℕ := (fun _ => none,⟨[],[]⟩)

/-- Two nodes behind the first one, of which one is taken out and put behind the other. -/
def shuffle : List (Op ℕ Char) := [.create (some 1) 'a',.create (some 2) 'b',.create (some 3) 'c',
  .insertAfter 1 2,.insertAfter 1 3,.remove 3,.insertAfter 2 3]

def shuffled : Heap ℕ Char × Rings ℕ := ((histories ℕ Char).exec start shuffle).getD start

theorem reachable_shuffled : (histories ℕ Char).ReachableBy Valid shuffled := by
  have hstart : (histories ℕ Char).ReachableBy Valid start := .init ⟨fun _ => rfl,rfl,rfl⟩
  have hallowed : (histories ℕ Char).Allowed Valid start shuffle := by decide
  exact hstart.exec_allowed hallowed rfl

theorem rings_kept_shuffled : (∀ a, shuffled.2.Linked a → Inverse shuffled.1 a) ∧
    (∀ r ∈ shuffled.2.rings, r.Nodup ∧ Cyclic shuffled.1 r ∧
      ∀ a ∈ r, Visits shuffled.1 r a ∧ Clears shuffled.1 r a) ∧
    ∀ op, Valid shuffled op → (shuffled.1.apply op).isSome :=
  rings_kept reachable_shuffled

end NodeList
end SdkCp
