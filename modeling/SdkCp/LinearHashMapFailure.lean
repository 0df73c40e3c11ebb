import SdkCp.LinearHashMapRefinement

/-! `operator[]` of `linear_hash_map` when it throws. The size of the pool is what its chunks and its
free list say together, so a call that stops between the two leaves a size of its own. -/
namespace SdkCp
namespace LinearHashMap

open PoolAllocator TransitionSystem

variable {ι K V : Type*} [DecidableEq K] {B : ℕ}

/-- What a call that throws must leave as it was. -/
structure Kept (B : ℕ) (s t : State ι K V) (n : ι) : Prop where
  keys : (t.maps n).keys = (s.maps n).keys
  value : ∀ key, t.value B n key = s.value B n key
  size : (t.maps n).data.size B = (s.maps n).data.size B
  foreach : ∀ f, Pool.foreach B f t.mem (t.maps n).data.chunks =
    Pool.foreach B f s.mem (s.maps n).data.chunks
  sizesAgree : (t.maps n).sizesAgree B = true

/-- If `operator[]` throws, everything is as before. -/
def FailureAtomic [DecidableEq ι] [Inhabited V] (B : ℕ) (s : State ι K V) (m : ι) (key : K)
    (fault : Option Fault) : Prop :=
  ∀ t, call B s (.access m key fault) = some (t,.raised) → ∀ n, Kept B s t n

/-- The key is there; or its insertion does not fail, and where the free list is empty neither
does the memory of the new chunk nor the reservation. -/
def Harmless (h : HashMap K) (key : K) (fault : Option Fault) : Prop :=
  key ∈ h.keys ∨ fault ≠ some .keyInsert ∧
    (h.data.emptyObjs ≠ [] ∨ fault ≠ some .chunkMemory ∧ fault ≠ some .reserve)

/-- The calls of `operator[]` in a run are harmless in the states they are made in. -/
def AllHarmless (s : State ι K V) : Op ι K V → Prop
  | .access m key fault => Harmless (s.maps m) key fault
  | _ => True

section Pools

variable {mem mem' : Memory V} {p p' : Pool} {keys : Finmap fun _ : K => ℕ}

theorem visit_none (f : V → Bool) (n : ℕ) : visit f (List.replicate n (none : Option V)) = ([],true) := by
  induction n with
  | zero => rfl
  | succ n ih => exact ih

theorem PoolOk.read_unkeyed (h : PoolOk B mem p keys) {pos : ℕ} (hlt : pos < p.capacity B)
    (hno : ∀ k, keys.lookup k ≠ some pos) : p.read B mem pos = none := by
  by_contra hsome
  obtain ⟨k,hk⟩ := h.covered pos hlt fun hmem => hsome (h.free pos hmem)
  exact hno k hk

theorem PoolOk.foreach_same (hB : 0 < B) (h : PoolOk B mem p keys) (h' : PoolOk B mem' p' keys)
    (hcap : p.capacity B ≤ p'.capacity B)
    (hread : ∀ k pos, keys.lookup k = some pos → p'.read B mem' pos = p.read B mem pos) (f : V → Bool) :
    Pool.foreach B f mem' p'.chunks = Pool.foreach B f mem p.chunks := by
  obtain ⟨n,hn⟩ := Nat.exists_eq_add_of_le hcap
  have hold : (List.range (p.capacity B)).map (p'.read B mem') =
      (List.range (p.capacity B)).map (p.read B mem) := by
    refine List.map_congr_left fun pos hpos => ?_
    have hlt := List.mem_range.mp hpos
    by_cases hkey : ∃ k, keys.lookup k = some pos
    · obtain ⟨k,hk⟩ := hkey
      exact hread k pos hk
    · have hno := not_exists.mp hkey
      rw [read_unkeyed h hlt hno,read_unkeyed h' (hlt.trans_le hcap) hno]
  have hnew : (List.range n).map (fun i => p'.read B mem' (p.capacity B+i)) = List.replicate n none := by
    refine List.eq_replicate_iff.mpr ⟨by simp,fun v hv => ?_⟩
    obtain ⟨i,hi,rfl⟩ := List.mem_map.mp hv
    have hlt := List.mem_range.mp hi
    refine read_unkeyed h' (by omega) fun k hk => ?_
    have := (h.keyed k _ hk).1
    omega
  rw [h.foreach_eq hB,h'.foreach_eq hB,hn,List.range_add,List.map_append,List.map_map,hold]
  rw [visit_append,show (p'.read B mem' ∘ (p.capacity B+·)) = fun i => p'.read B mem' (p.capacity B+i) from rfl,
    hnew,visit_none,List.append_nil]
  split <;> rfl

theorem grow_eq {fault : Option Fault} (ha : fault ≠ some .appendChunk) (hc : fault ≠ some .chunkMemory)
    (hr : fault ≠ some .reserve) : p.grow B mem fault = p.grow B mem none := by
  simp only [Pool.grow,ha,hc,hr,if_false,reduceCtorEq]

end Pools

section Calls

variable [DecidableEq ι] {s t : State ι K V} {m : ι} {key : K} {fault : Option Fault}

/-- One map gets another pool for the same keys, with at most a new chunk. -/
theorem Inv.regrow (hB : 0 < B) (h : Inv B s) {p : Pool} {mem : Memory V} {l : List (Option ℕ)}
    (hp : PoolOk B mem p (s.maps m).keys) (hchunks : p.chunks = (s.maps m).data.chunks ++ l)
    (hl : ∀ c ∈ l, c = some s.mem.next) (hnext : s.mem.next ≤ mem.next)
    (hcells : ∀ c, c.1 < s.mem.next → mem.cells c = s.mem.cells c) (ok : Bool) (hok : ok = true) :
    let t := { s with mem, maps := Function.update s.maps m ⟨p,(s.maps m).keys⟩, asserts := s.asserts && ok }
    Inv B t ∧ ∀ n, Kept B s t n := by
  intro t
  have hself : t.maps m = ⟨p,(s.maps m).keys⟩ := Function.update_self ..
  have hother : ∀ n, n ≠ m → t.maps n = s.maps n := fun n hn => Function.update_of_ne hn ..
  have hkeys : ∀ n, (t.maps n).keys = (s.maps n).keys := by
    intro n
    by_cases hn : n = m
    · subst hn
      rw [hself]
    · rw [hother n hn]
  have hslot : ∀ n x c, (s.maps n).data.slot B x = some c → (t.maps n).data.slot B x = some c := by
    intro n x c hx
    by_cases hn : n = m
    · subst hn
      rw [hself]
      exact slot_append hx hchunks
    · rwa [hother n hn]
  have hread : ∀ n k x, (s.maps n).keys.lookup k = some x →
      (t.maps n).data.read B t.mem x = (s.maps n).data.read B s.mem x := by
    intro n k x hk
    obtain ⟨c,v,hs,-,hlt⟩ := h.slot_of_key hk
    rw [Pool.read,Pool.read,hslot n x c hs,hs]
    exact hcells c hlt
  have hpool : ∀ n, PoolOk B t.mem (t.maps n).data (t.maps n).keys :=
    h.pool_update hnext hp fun n _ x => read_congr fun c hc => hcells c (slot_next (h.pool n) hc)
  have hcap : ∀ n, (s.maps n).data.capacity B ≤ (t.maps n).data.capacity B := by
    intro n
    by_cases hn : n = m
    · subst hn
      rw [hself,Pool.capacity,Pool.capacity,hchunks,List.length_append]
      exact Nat.mul_le_mul_right _ (Nat.le_add_right _ _)
    · rw [hother n hn]
  refine ⟨⟨hpool,h.disjoint_update fun n => h.not_mem_grown hchunks hl,?_,?_⟩,
    fun n => ⟨hkeys n,fun k => ?_,?_,?_,?_⟩⟩
  · intro r hr
    obtain ⟨pos,hk,hs⟩ := h.refs r hr
    exact ⟨pos,by rw [hkeys]; exact hk,hslot _ _ _ hs⟩
  · simp [t,h.asserts,hok]
  · rw [State.value,State.value,hkeys]
    exact Option.bind_congr (hread n k)
  · rw [(hpool n).size_eq,(h.pool n).size_eq,hkeys]
  · intro f
    have hp' := hpool n
    rw [hkeys] at hp'
    exact PoolOk.foreach_same hB (h.pool n) hp' (hcap n) (hread n) f
  · simp [HashMap.sizesAgree,(hpool n).size_eq]

variable [Inhabited V]

theorem access_eq_none {h : HashMap K} {mem : Memory V} (hkey : key ∈ h.keys ∨
    fault ≠ some .construct ∧ fault ≠ some .keyInsert ∧ h.data.emptyObjs ≠ []) :
    h.access B mem key fault = h.access B mem key none := by
  cases hk : h.keys.lookup key with
  | some pos => simp only [HashMap.access,hk]
  | none =>
    obtain ⟨hc,hi,hne⟩ := hkey.resolve_left fun hmem => by
      rw [← Finmap.lookup_isSome,hk] at hmem
      cases hmem
    simp only [HashMap.access,hk,Pool.allocate,hne,if_false,hc,hi,reduceCtorEq,or_false]

/-- A throwing constructor leaves at most a new chunk whose items are all on the free list. -/
theorem access_construct (hB : 0 < B) (h : Inv B s) (hk : (s.maps m).keys.lookup key = none) :
    ∃ t, call B s (.access m key (some .construct)) = some (t,.raised) ∧ Inv B t ∧ t.refs = s.refs ∧
      ∀ n, Kept B s t n := by
  by_cases hempty : (s.maps m).data.emptyObjs = []
  · obtain ⟨p,mem,hgrow,hp,-,hchunks,hnext,hcells⟩ := (h.pool m).grow hB hempty
    have hgrow' : (s.maps m).data.grow B s.mem (some .construct) = (p,mem,true) := by
      rw [grow_eq (by decide) (by decide) (by decide),hgrow]
    obtain ⟨hinv,hkept⟩ := h.regrow hB hp hchunks (by simp) (by omega) hcells _ (h.sizesAgree m)
    refine ⟨_,?_,hinv,rfl,hkept⟩
    simp only [call,HashMap.access,hk,Pool.allocate,hempty,hgrow',if_true,or_true]
  · obtain ⟨hinv,hkept⟩ := h.regrow hB (h.pool m) (List.append_nil _).symm (by simp) le_rfl
      (fun _ _ => rfl) _ (h.sizesAgree m)
    refine ⟨_,?_,hinv,rfl,hkept⟩
    simp only [call,HashMap.access,hk,Pool.allocate,hempty,if_false,or_true,if_true]

theorem access_appendChunk (hB : 0 < B) (h : Inv B s) (hk : (s.maps m).keys.lookup key = none)
    (hempty : (s.maps m).data.emptyObjs = []) :
    ∃ t, call B s (.access m key (some .appendChunk)) = some (t,.raised) ∧ Inv B t ∧ t.refs = s.refs ∧
      ∀ n, Kept B s t n := by
  obtain ⟨hinv,hkept⟩ := h.regrow hB (h.pool m) (List.append_nil _).symm (by simp) le_rfl
    (fun _ _ => rfl) _ (h.sizesAgree m)
  refine ⟨_,?_,hinv,rfl,hkept⟩
  simp only [call,HashMap.access,hk,Pool.allocate,hempty,Pool.grow,if_true,true_or]

theorem size_keyInsert (hB : 0 < B) (h : Inv B s) (hk : (s.maps m).keys.lookup key = none) :
    ∃ t, call B s (.access m key (some .keyInsert)) = some (t,.raised) ∧
      (t.maps m).data.size B = (s.maps m).data.size B+1 := by
  obtain ⟨p,mem,target,c,halloc,-,-,-,-,-,hok⟩ := (h.pool m).allocate hB
  have halloc' : (s.maps m).data.allocate B s.mem (some .keyInsert) = (p,mem,some target) := by
    rw [← halloc]
    simp only [Pool.allocate,@grow_eq _ B s.mem (s.maps m).data (some .keyInsert) (by decide) (by decide)
      (by decide),Option.some.injEq,reduceCtorEq]
  have hcard : ((s.maps m).keys.insert key target).keys.card = (s.maps m).keys.keys.card+1 := by
    have hkeys : ((s.maps m).keys.insert key target).keys = insert key (s.maps m).keys.keys := by
      ext k
      simp [Finmap.mem_keys]
    rw [hkeys,Finset.card_insert_of_notMem]
    rw [Finmap.mem_keys,← Finmap.lookup_eq_none]
    exact hk
  simp only [call,HashMap.access,hk,halloc',if_true]
  refine ⟨_,rfl,?_⟩
  dsimp only
  rw [Function.update_self]
  exact (hok key hk).size_eq.trans (hcard.trans (by rw [(h.pool m).size_eq]))

theorem size_grow (hk : (s.maps m).keys.lookup key = none) (hempty : (s.maps m).data.emptyObjs = [])
    (hf : fault = some .chunkMemory ∨ fault = some .reserve) :
    ∃ t, call B s (.access m key fault) = some (t,.raised) ∧
      (t.maps m).data.size B = (s.maps m).data.size B+B := by
  rcases hf with rfl | rfl <;>
  · simp only [call,HashMap.access,hk,Pool.allocate,hempty,Pool.grow,if_true,if_false,Option.some.injEq,
      reduceCtorEq,true_or]
    refine ⟨_,rfl,?_⟩
    dsimp only
    rw [Function.update_self]
    simp [Pool.size,Pool.capacity,hempty,Nat.add_mul]

/-- A harmless call is one without a fault, or it throws and leaves everything as it was. -/
theorem access_harmless (hB : 0 < B) (h : Inv B s) (hharm : Harmless (s.maps m) key fault) :
    call B s (.access m key fault) = call B s (.access m key none) ∨
    ∃ t, call B s (.access m key fault) = some (t,.raised) ∧ Inv B t ∧ t.refs = s.refs ∧ ∀ n, Kept B s t n := by
  have heq : key ∈ (s.maps m).keys ∨
      fault ≠ some .construct ∧ fault ≠ some .keyInsert ∧ (s.maps m).data.emptyObjs ≠ [] →
      call B s (.access m key fault) = call B s (.access m key none) := fun hkey => by
    simp only [call,access_eq_none hkey]
  rcases hharm with hmem | ⟨hinsert,hroom⟩
  · exact .inl (heq (.inl hmem))
  cases hk : (s.maps m).keys.lookup key with
  | some pos => exact .inl (heq (.inl (Finmap.mem_of_lookup_eq_some hk)))
  | none =>
    by_cases hc : fault = some .construct
    · subst hc
      exact .inr (access_construct hB h hk)
    · by_cases hempty : (s.maps m).data.emptyObjs = []
      · obtain ⟨hchunk,hreserve⟩ := hroom.resolve_left (not_not_intro hempty)
        cases fault with
        | none => exact .inl rfl
        | some f =>
          cases f with
          | appendChunk => exact .inr (access_appendChunk hB h hk hempty)
          | chunkMemory => exact absurd rfl hchunk
          | reserve => exact absurd rfl hreserve
          | construct => exact absurd rfl hc
          | keyInsert => exact absurd rfl hinsert
      · exact .inl (heq (.inr ⟨hc,hinsert,hempty⟩))

theorem not_failureAtomic (hB : 0 < B) (h : Inv B s) (hharm : ¬Harmless (s.maps m) key fault) :
    ¬FailureAtomic B s m key fault := by
  intro hatomic
  rw [Harmless,not_or] at hharm
  obtain ⟨hmem,hfault⟩ := hharm
  have hk : (s.maps m).keys.lookup key = none := Finmap.lookup_eq_none.mpr hmem
  by_cases hinsert : fault = some .keyInsert
  · subst hinsert
    obtain ⟨t,hcall,hsize⟩ := size_keyInsert hB h hk
    have := (hatomic t hcall m).size
    omega
  · rw [not_and] at hfault
    have hrest := hfault hinsert
    rw [not_or,not_not] at hrest
    obtain ⟨t,hcall,hsize⟩ := @size_grow _ _ _ _ B _ s m key fault _ hk hrest.1 (by tauto)
    have := (hatomic t hcall m).size
    omega

end Calls

section Runs

variable [DecidableEq ι] [Inhabited V] {s : State ι K V}

theorem inv_of_reachable (hB : 0 < B) (h : (system B).ReachableBy AllHarmless s) :
    Inv B s ∧ ∃ a, Refines B s a := by
  refine h.invariant (P:=fun s => Inv B s ∧ ∃ a, Refines B s a) ?_ ?_
  · rintro _ rfl
    exact ⟨inv_initial,_,refines_initial⟩
  · rintro s op t ⟨hinv,a,href⟩ hok hs
    obtain ⟨⟨t,res⟩,hc,rfl⟩ := Option.map_eq_some_iff.mp hs
    have hnone : ∀ op', op'.fault = none → call B s op' = some (t,res) → Inv B t ∧ ∃ a, Refines B t a := by
      intro op' hop hc'
      obtain ⟨hinv',a',-,href'⟩ := refines_call hB hinv href hop hc'
      exact ⟨hinv',a',href'⟩
    have hstep : Inv B t ∧ ∃ a, Refines B t a := by
      cases op with
      | access m key fault =>
        rcases access_harmless hB hinv hok with heq | ⟨t',hcall,hinv',hrefs,hkept⟩
        · exact hnone (.access m key none) rfl (heq ▸ hc)
        · obtain ⟨rfl,-⟩ := Prod.mk.inj (Option.some.inj (hcall.symm.trans hc))
          exact ⟨hinv',a,fun n k => (href.maps n k).trans ((hkept n).value k).symm,by rw [hrefs,href.refs]⟩
      | assign r v => exact hnone _ rfl hc
      | erase m key => exact hnone _ rfl hc
      | find m key => exact hnone _ rfl hc
      | foreach m f => exact hnone _ rfl hc
      | size m => exact hnone _ rfl hc
      | empty m => exact hnone _ rfl hc
      | swap m n => exact hnone _ rfl hc
    obtain ⟨hinv',a',href'⟩ := hstep
    exact ⟨hinv'.trace _,a',href'.trace _⟩

/-- In a run of harmless calls the sizes agree in every state and no assertion fails, and there a call
that throws leaves everything as it was if and only if it is harmless. -/
theorem failureAtomic_iff (hB : 0 < B) (h : (system B).ReachableBy AllHarmless s) :
    (∀ m, (s.maps m).sizesAgree B = true) ∧ s.asserts = true ∧
    ∀ m key fault, FailureAtomic B s m key fault ↔ Harmless (s.maps m) key fault := by
  obtain ⟨hinv,a,href⟩ := inv_of_reachable hB h
  refine ⟨hinv.sizesAgree,hinv.asserts,fun m key fault => ⟨fun hatomic => ?_,fun hharm t hcall => ?_⟩⟩
  · by_contra hno
    exact not_failureAtomic hB hinv hno hatomic
  · rcases access_harmless hB hinv hharm with heq | ⟨t',hcall',-,-,hkept⟩
    · rw [heq] at hcall
      obtain ⟨-,a',hstep,-⟩ := refines_access hB hinv href hcall
      cases hstep
    · obtain ⟨rfl,-⟩ := Prod.mk.inj (Option.some.inj (hcall'.symm.trans hcall))
      exact hkept

/-- No memory for a chunk, while the object of an erased key is free beside the one of another. -/
theorem failureAtomic_iff_erased : ∃ s : State Unit ℕ ℕ, (s.maps ()).keys.lookup 7 = some 0 ∧
    s.value 2 () 7 = some 5 ∧ FailureAtomic 2 s () 9 (some .chunkMemory) := by
  have hrun : ((system 2).exec initial [.access () 7 none,.assign 0 5,.access () 8 none,.erase () 8]).map
      (fun s : State Unit ℕ ℕ => ((s.maps ()).keys.lookup 7,s.value 2 () 7,(s.maps ()).data.emptyObjs)) =
      some (some 0,some 5,[1]) := by decide +kernel
  obtain ⟨s,hs,hfacts⟩ := Option.map_eq_some_iff.mp hrun
  simp only [Prod.mk.injEq] at hfacts
  obtain ⟨hkey,hvalue,hempty⟩ := hfacts
  have hreach : (system 2).ReachableBy AllHarmless s := by
    refine ReachableBy.exec (fun t e he => ?_) (.init rfl) hs
    simp only [List.mem_cons,List.not_mem_nil,or_false] at he
    rcases he with rfl | rfl | rfl | rfl
    · exact .inr ⟨by decide,.inr ⟨by decide,by decide⟩⟩
    · trivial
    · exact .inr ⟨by decide,.inr ⟨by decide,by decide⟩⟩
    · trivial
  refine ⟨s,hkey,hvalue,((failureAtomic_iff (B:=2) (by decide) hreach).2.2 () 9 (some .chunkMemory)).mpr ?_⟩
  exact .inr ⟨by decide,.inl (by simp [hempty])⟩

/-- No memory for the first chunk: the map without keys has size 1. -/
theorem not_failureAtomic_chunkMemory : ¬∀ B, 0 < B → ∀ s : State Unit ℕ ℕ, (system B).Reachable s →
    ∀ m key fault, FailureAtomic B s m key fault := by
  intro hall
  have hno : ¬Harmless ((initial : State Unit ℕ ℕ).maps ()) 7 (some .chunkMemory) := by
    rintro (hmem | ⟨-,hne | ⟨hne,-⟩⟩)
    · exact absurd hmem (Finmap.notMem_empty)
    · exact hne rfl
    · exact hne rfl
  exact not_failureAtomic (by decide) inv_initial hno
    (hall 1 (by decide) initial (.init rfl) () 7 (some .chunkMemory))

end Runs

end LinearHashMap
end SdkCp
