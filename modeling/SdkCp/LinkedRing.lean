import Mathlib.Data.List.Cycle

/-! Circular doubly linked lists over two partial link functions: a ring is a cycle of nodes
that point at each other. One node can be linked in or taken out by its own links and those of
its neighbours. -/
namespace SdkCp
namespace LinkedRing

variable {A : Type} {next prev next' prev' : A → Option A}

/-- `a` is directly followed by `b`. -/
def Joined (next prev : A → Option A) (a b : A) : Prop := next a = some b ∧ prev b = some a

/-- The nodes of the list are linked in its order, the last one with the first one. -/
def Ring (next prev : A → Option A) (l : List A) : Prop := Cycle.Chain (Joined next prev) l

theorem ring_cons {a : A} {l : List A} :
    Ring next prev (a::l) ↔ List.IsChain (Joined next prev) (a::(l ++ [a])) :=
  Cycle.chain_coe_cons _ _ _

theorem ring_singleton {a : A} : Ring next prev [a] ↔ Joined next prev a a :=
  Cycle.chain_singleton _ _

theorem Ring.rotated {l l' : List A} (h : Ring next prev l) (hl : l.IsRotated l') :
    Ring next prev l' := by
  rw [Ring,← (Cycle.coe_eq_coe.mpr hl : (l : Cycle A) = l')]
  exact h

theorem exists_rotated {a : A} {l : List A} (h : a ∈ l) : ∃ rest, l.IsRotated (a::rest) := by
  obtain ⟨before,after,rfl⟩ := List.append_of_mem h
  exact ⟨after ++ before,List.isRotated_append⟩

theorem Ring.congr {l : List A} (h : Ring next prev l) (hnext : ∀ x ∈ l, next' x = next x)
    (hprev : ∀ x ∈ l, prev' x = prev x) : Ring next' prev' l := by
  cases l with
  | nil => trivial
  | cons a l =>
    rw [ring_cons] at h ⊢
    have hmem : ∀ x ∈ a::(l ++ [a]), x ∈ a::l := fun x hx => by simpa [or_comm] using hx
    refine h.imp_of_mem_imp fun x y hx hy hxy => ?_
    exact ⟨(hnext x (hmem x hx)).trans hxy.1,(hprev y (hmem y hy)).trans hxy.2⟩

theorem Ring.next_cons {a : A} {l : List A} (h : Ring next prev (a::l)) :
    ∃ r ∈ a::l, (l ++ [a]).head? = some r ∧ Joined next prev a r := by
  rw [ring_cons] at h
  cases l with
  | nil => exact ⟨a,by simp,rfl,(List.isChain_cons_cons.mp h).1⟩
  | cons b l => exact ⟨b,by simp,rfl,(List.isChain_cons_cons.mp h).1⟩

theorem Ring.prev_cons {a : A} {l : List A} (h : Ring next prev (a::l)) :
    ∃ p ∈ a::l, (a::l).getLast? = some p ∧ Joined next prev p a := by
  rw [ring_cons,← List.cons_append,List.isChain_append] at h
  have hlast := List.getLast?_eq_some_getLast (List.cons_ne_nil a l)
  exact ⟨_,List.getLast_mem _,hlast,h.2.2 _ hlast a (by simp)⟩

theorem Ring.joined {l : List A} (h : Ring next prev l) {a : A} (ha : a ∈ l) :
    (∃ r ∈ l, Joined next prev a r) ∧ ∃ p ∈ l, Joined next prev p a := by
  obtain ⟨rest,hrot⟩ := exists_rotated ha
  have hring := h.rotated hrot
  obtain ⟨r,hr,-,hnext⟩ := hring.next_cons
  obtain ⟨p,hp,-,hprev⟩ := hring.prev_cons
  exact ⟨⟨r,hrot.mem_iff.mpr hr,hnext⟩,p,hrot.mem_iff.mpr hp,hprev⟩

theorem Ring.insert {a t r : A} {l : List A} (h : Ring next prev (a::l))
    (hnodup : (t::a::l).Nodup) (hr : next a = some r) (hat : Joined next' prev' a t)
    (htr : Joined next' prev' t r) (hnext : ∀ x, x ≠ a → x ≠ t → next' x = next x)
    (hprev : ∀ x, x ≠ r → x ≠ t → prev' x = prev x) : Ring next' prev' (a::t::l) := by
  obtain ⟨r',-,hhead,hjoin⟩ := h.next_cons
  obtain rfl : r' = r := Option.some.inj (hjoin.1.symm.trans hr)
  obtain ⟨tl,htl⟩ := List.head?_eq_some_iff.mp hhead
  rw [ring_cons,htl] at h
  rw [ring_cons,List.cons_append,htl]
  have hperm : (r'::tl).Perm (a::l) := htl ▸ List.perm_append_singleton a l
  have hnodup' : (r'::tl).Nodup := hperm.nodup_iff.mpr (List.nodup_cons.mp hnodup).2
  have hnew : ∀ x ∈ r'::tl, x ≠ t := fun x hx hxt =>
    (List.nodup_cons.mp hnodup).1 (hxt ▸ hperm.mem_iff.mp hx)
  refine List.isChain_cons_cons.mpr ⟨hat,List.isChain_cons_cons.mpr ⟨htr,?_⟩⟩
  refine (List.isChain_cons_cons.mp h).2.imp_of_mem_tail_imp fun x y hx hy hxy => ?_
  have hyr : y ≠ r' := fun hyr => (List.nodup_cons.mp hnodup').1 (hyr ▸ hy)
  have hxa : x ≠ a := fun hxa => hyr (Option.some.inj (hxy.1.symm.trans (hxa ▸ hr)))
  exact ⟨(hnext x hxa (hnew x hx)).trans hxy.1,
    (hprev y hyr (hnew y (List.mem_of_mem_tail hy))).trans hxy.2⟩

theorem Ring.remove {t p r : A} {l : List A} (h : Ring next prev (t::l)) (hnodup : (t::l).Nodup)
    (hl : l ≠ []) (hr : next t = some r) (hp : prev t = some p) (hpr : Joined next' prev' p r)
    (hnext : ∀ x ∈ l, x ≠ p → next' x = next x) (hprev : ∀ x ∈ l, x ≠ r → prev' x = prev x) :
    Ring next' prev' l := by
  cases l with
  | nil => exact absurd rfl hl
  | cons y m =>
    obtain ⟨r',-,hhead,hjoin⟩ := h.next_cons
    obtain rfl : y = r' := Option.some.inj hhead
    obtain rfl : y = r := Option.some.inj (hjoin.1.symm.trans hr)
    obtain ⟨p',-,hlast,hback⟩ := h.prev_cons
    obtain rfl : p' = p := Option.some.inj (hback.2.symm.trans hp)
    rw [List.getLast?_cons_cons] at hlast
    have hchain : List.IsChain (Joined next prev) ((y::m) ++ [t]) :=
      (List.isChain_cons_cons.mp (ring_cons.mp h)).2
    have hleft := hchain.left_of_append
    have htail := List.nodup_cons.mp hnodup
    rw [ring_cons,← List.cons_append]
    refine List.isChain_append.mpr ⟨?_,List.isChain_singleton y,fun x hx z hz => ?_⟩
    · refine hleft.imp_of_mem_tail_imp fun u v hu hv huv => ?_
      have hvt : v ≠ t := fun hvt => htail.1 (hvt ▸ List.mem_of_mem_tail hv)
      have hup : u ≠ p' := fun hup => hvt (Option.some.inj (huv.1.symm.trans (hup ▸ hback.1)))
      have hvy : v ≠ y := fun hvy => (List.nodup_cons.mp htail.2).1 (hvy ▸ hv)
      exact ⟨(hnext u hu hup).trans huv.1,(hprev v (List.mem_of_mem_tail hv) hvy).trans huv.2⟩
    · obtain rfl : p' = x := Option.some.inj (hlast.symm.trans hx)
      obtain rfl : y = z := Option.some.inj hz
      exact hpr

/-- The nodes by their positions; the first one comes after the last one. -/
theorem Ring.joined_getElem? {l : List A} (h : Ring next prev l) {i : ℕ} {a b : A}
    (ha : l[i]? = some a) (hb : l[(i+1) % l.length]? = some b) : Joined next prev a b := by
  obtain ⟨hi,-⟩ := List.getElem?_eq_some_iff.mp ha
  cases l with
  | nil => exact absurd hi (Nat.not_lt_zero i)
  | cons first rest =>
    rw [ring_cons,← List.cons_append] at h
    have hfull : i+1 < ((first::rest) ++ [first]).length := by simpa using hi
    have hjoin := List.isChain_iff_getElem.mp h i hfull
    have hnext : ((first::rest) ++ [first])[i+1]? = some b := by
      rcases Nat.lt_or_ge (i+1) (first::rest).length with hlt | hge
      · rwa [List.getElem?_append_left hlt,← Nat.mod_eq_of_lt hlt]
      · have hlen : i+1 = (first::rest).length := by omega
        rw [hlen,Nat.mod_self] at hb
        rw [hlen,List.getElem?_append_right le_rfl,Nat.sub_self]
        exact hb
    rw [List.getElem?_eq_getElem hfull] at hnext
    rw [List.getElem?_eq_getElem hi] at ha
    rw [Option.some.inj hnext,List.getElem_append_left hi,Option.some.inj ha] at hjoin
    exact hjoin

end LinkedRing
end SdkCp
