import SdkCp.NodeListRings

/-! tools/list.hpp: `destroy` for a node that `remove` has taken out. It links the neighbours
that the node had then. -/
namespace SdkCp
namespace NodeList

section

variable {A α : Type} [DecidableEq A]

/-- `destroy` frees the node and leaves every linked node as it is. -/
def Disposed (h : Heap A α) (s : Rings A) (t : A) : Prop :=
  ∃ h', h.destroy t = some h' ∧ h' t = none ∧ ∀ a, s.Linked a → h' a = h a

/-- The nodes recorded in `t` are in use, and each of them that is linked has the other one
beside it. -/
def Undisturbed (h : Heap A α) (s : Rings A) (t : A) : Prop :=
  ∃ l ∈ h.prevOf t, ∃ r ∈ h.nextOf t, (h l).isSome ∧ (h r).isSome ∧
    (s.Linked l → h.nextOf l = some r) ∧ (s.Linked r → h.prevOf r = some l)

instance (h : Heap A α) (s : Rings A) (t : A) : Decidable (Undisturbed h s t) :=
  inferInstanceAs (Decidable (∃ l ∈ h.prevOf t, ∃ r ∈ h.nextOf t, _))

/-- A removed node is destroyed where its old neighbours are undisturbed. -/
def Harmless (p : Heap A α × Rings A) : Op A α → Prop
  | .destroy ptr => p.2.Follows ptr ∨ ptr ∈ p.2.removed ∧ Undisturbed p.1 p.2 ptr
  | op => Valid p op

instance (p : Heap A α × Rings A) : ∀ op, Decidable (Harmless p op)
  | .destroy ptr =>
    inferInstanceAs (Decidable (p.2.Follows ptr ∨ ptr ∈ p.2.removed ∧ Undisturbed p.1 p.2 ptr))
  | .create alloc data => inferInstanceAs (Decidable (Valid p (.create alloc data)))
  | .insertAfter after target => inferInstanceAs (Decidable (Valid p (.insertAfter after target)))
  | .remove ptr => inferInstanceAs (Decidable (Valid p (.remove ptr)))
  | .destroyAll fuel ptr => inferInstanceAs (Decidable (Valid p (.destroyAll fuel ptr)))

variable {h h' : Heap A α} {s : Rings A} {t : A}

namespace Heap

theorem isSome_of_remove (hs : h.remove t = some h') :
    ∃ l r, h.prevOf t = some l ∧ h.nextOf t = some r ∧ (h l).isSome ∧ (h r).isSome := by
  obtain ⟨l,hl,hs⟩ := Option.bind_eq_some_iff.mp hs
  obtain ⟨r,hr,hs⟩ := Option.bind_eq_some_iff.mp hs
  obtain ⟨h₁,hs₁,hs⟩ := Option.bind_eq_some_iff.mp hs
  obtain ⟨n,hn,-⟩ := Option.map_eq_some_iff.mp hs₁
  obtain ⟨m,hm,-⟩ := Option.map_eq_some_iff.mp hs
  have hls : (h l).isSome := by rw [hn]; rfl
  obtain ⟨h₁',hs₁',-,-,hd₁⟩ := setNext_some hls r
  obtain rfl : h₁' = h₁ := Option.some.inj (hs₁'.symm.trans hs₁)
  refine ⟨l,r,hl,hr,hls,?_⟩
  rw [← isSome_dataOf,← hd₁,isSome_dataOf,hm]
  rfl

end Heap

theorem remove_undisturbed (hun : Undisturbed h s t) :
    ∃ h', h.remove t = some h' ∧ h'.dataOf = h.dataOf ∧ ∀ a, s.Linked a → h' a = h a := by
  obtain ⟨l,hl,r,hr,hls,hrs,hll,hlr⟩ := hun
  obtain ⟨h',hs,hn',hp',hd'⟩ := Heap.remove_some hl hr hls hrs
  refine ⟨h',hs,hd',fun a ha => Heap.ext_of (congrFun hd' a) ?_ ?_⟩
  · rw [hp']
    by_cases har : a = r
    · rw [har,Function.update_self,hlr (har ▸ ha)]
    · rw [Function.update_of_ne har]
  · rw [hn']
    by_cases hal : a = l
    · rw [hal,Function.update_self,hll (hal ▸ ha)]
    · rw [Function.update_of_ne hal]

namespace Kept

omit [DecidableEq A] in
theorem ne_of_removed (hk : Kept h s) (ht : t ∈ s.removed) {a : A} (ha : s.Linked a) : a ≠ t := by
  obtain ⟨r,hr,har⟩ := ha
  exact fun hat => hk.apart t ht r hr (hat ▸ har)

theorem dispose (hk : Kept h s) (ht : t ∈ s.removed) (hun : Undisturbed h s t) :
    ∃ h', h.destroy t = some h' ∧ h' t = none ∧ (∀ a, s.Linked a → h' a = h a) ∧
      Kept h' (s.destroy t) := by
  obtain ⟨h₁,hs₁,hd₁,hsame⟩ := remove_undisturbed hun
  have hnodes : ∀ x, (h₁ x).isSome ↔ (h x).isSome := fun x => by
    rw [← Heap.isSome_dataOf,hd₁,Heap.isSome_dataOf]
  have hk₁ := hk.congr hsame hnodes
  obtain ⟨n,hn⟩ := Option.isSome_iff_exists.mp ((hk₁.nodes t).mpr (.inr ht))
  have herase : (s.rings.map fun r => r.erase t) = s.rings :=
    (List.map_congr_left (g:=id) fun r hr => List.erase_of_not_mem (hk.apart t ht r hr)).trans
      (List.map_id _)
  refine ⟨Function.update h₁ t none,?_,Function.update_self ..,fun a ha => ?_,?_⟩
  · rw [Heap.destroy,hs₁,Option.bind_some,Heap.free,hn]
    rfl
  · rw [Function.update_of_ne (hk.ne_of_removed ht ha),hsame a ha]
  · rw [Rings.destroy,herase]
    exact hk₁.free ht

theorem disposed_iff (hk : Kept h s) (ht : t ∈ s.removed) :
    Disposed h s t ↔ Undisturbed h s t := by
  constructor
  · rintro ⟨h',hs,-,hsame⟩
    obtain ⟨h₁,hs₁,hs⟩ := Option.bind_eq_some_iff.mp hs
    obtain ⟨n,-,rfl⟩ := Option.map_eq_some_iff.mp hs
    obtain ⟨l,r,hl,hr,hls,hrs⟩ := Heap.isSome_of_remove hs₁
    obtain ⟨h₁',hs₁',hn',hp',-⟩ := Heap.remove_some hl hr hls hrs
    obtain rfl : h₁' = h₁ := Option.some.inj (hs₁'.symm.trans hs₁)
    have hkeep : ∀ a, s.Linked a → h₁' a = h a := fun a ha => by
      rw [← hsame a ha,Function.update_of_ne (hk.ne_of_removed ht ha)]
    refine ⟨l,hl,r,hr,hls,hrs,fun hlink => ?_,fun hlink => ?_⟩
    · have hnext : h₁'.nextOf l = h.nextOf l := congrArg (Option.map Node.next) (hkeep l hlink)
      rw [← hnext,hn',Function.update_self]
    · have hprev : h₁'.prevOf r = h.prevOf r := congrArg (Option.map Node.prev) (hkeep r hlink)
      rw [← hprev,hp',Function.update_self]
  · intro hun
    obtain ⟨h',hs,hfree,hsame,-⟩ := hk.dispose ht hun
    exact ⟨h',hs,hfree,hsame⟩

end Kept

theorem kept_apply_harmless {p : Heap A α × Rings A} {op : Op A α} (hk : Kept p.1 p.2)
    (hop : Harmless p op) : ∃ h', p.1.apply op = some h' ∧ Kept h' (p.2.apply op) := by
  cases op with
  | destroy ptr =>
    rcases hop with hfollows | ⟨hremoved,hun⟩
    · exact hk.destroy hfollows
    · obtain ⟨h',hs,-,-,hk'⟩ := hk.dispose hremoved hun
      exact ⟨h',hs,hk'⟩
  | create alloc data => exact kept_apply (.create alloc data) hk hop
  | insertAfter after target => exact kept_apply (.insertAfter after target) hk hop
  | remove ptr => exact kept_apply (.remove ptr) hk hop
  | destroyAll fuel ptr => exact kept_apply (.destroyAll fuel ptr) hk hop

/-- In every history that destroys removed nodes only where their neighbours are undisturbed,
the links go round the lists, and `destroy` leaves the rings alone for exactly such a node. -/
theorem disposed_iff_undisturbed {p : Heap A α × Rings A}
    (hp : (histories A α).ReachableBy Harmless p) : (∀ r ∈ p.2.rings, Cyclic p.1 r) ∧
      ∀ t ∈ p.2.removed, Disposed p.1 p.2 t ↔ Undisturbed p.1 p.2 t := by
  have hk : Kept p.1 p.2 := hp.invariant (P:=fun p => Kept p.1 p.2) (fun _ => kept_init)
    fun _ _ _ hk hop hq => kept_of_step (kept_apply_harmless hk hop) hq
  exact ⟨fun r hr i a b ha hb => (hk.ring r hr).joined_getElem? ha hb,fun t ht => hk.disposed_iff ht⟩

end

/-- A node that is taken out and destroyed, and another one that is taken out. -/
def tidy : List (Op ℕ Char) := [.create (some 1) 'a',.create (some 2) 'b',.create (some 3) 'c',
  .insertAfter 1 2,.remove 2,.destroy 2,.insertAfter 1 3,.remove 3]

def tidied : Heap ℕ Char × Rings ℕ := ((histories ℕ Char).exec start tidy).getD start

theorem reachable_tidied : (histories ℕ Char).ReachableBy Harmless tidied := by
  have hstart : (histories ℕ Char).ReachableBy Harmless start := .init ⟨fun _ => rfl,rfl,rfl⟩
  have hallowed : (histories ℕ Char).Allowed Harmless start tidy := by decide
  exact hstart.exec_allowed hallowed rfl

theorem disposed_iff_undisturbed_tidied : (∀ r ∈ tidied.2.rings, Cyclic tidied.1 r) ∧
    ∀ t ∈ tidied.2.removed, Disposed tidied.1 tidied.2 t ↔ Undisturbed tidied.1 tidied.2 t :=
  disposed_iff_undisturbed reachable_tidied

/-- A node is put where another one was taken out. -/
def refill : List (Op ℕ Char) := [.create (some 1) 'a',.create (some 2) 'b',.create (some 3) 'c',
  .insertAfter 1 2,.remove 2,.insertAfter 1 3]

def refilled : Heap ℕ Char × Rings ℕ := ((histories ℕ Char).exec start refill).getD start

theorem reachable_refilled : (histories ℕ Char).ReachableBy Valid refilled := by
  have hstart : (histories ℕ Char).ReachableBy Valid start := .init ⟨fun _ => rfl,rfl,rfl⟩
  have hallowed : (histories ℕ Char).Allowed Valid start refill := by decide
  exact hstart.exec_allowed hallowed rfl

/-- The node that is linked is dropped. -/
theorem not_disposed : ¬∀ p : Heap ℕ Char × Rings ℕ, (histories ℕ Char).ReachableBy Valid p →
    ∀ t ∈ p.2.removed, Disposed p.1 p.2 t := by
  intro h
  obtain ⟨h',hs,-,hsame⟩ := h refilled reachable_refilled 2 (by decide)
  have hhead := hsame 1 (by decide)
  have hdropped : (refilled.1.destroy 2).map (fun h => h 1) = some (some ⟨'a',1,1⟩) := rfl
  rw [hs,Option.map_some,hhead] at hdropped
  exact absurd hdropped (by decide)

end NodeList
end SdkCp
