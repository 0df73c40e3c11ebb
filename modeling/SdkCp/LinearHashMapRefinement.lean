import SdkCp.LinearHashMap

/-! `linear_hash_map` refines a finite map: positions are injective within a map,
slots are injective across maps, and every call that does not throw acts on the
values as it would on a family of finite maps. -/
namespace SdkCp
namespace LinearHashMap

open PoolAllocator TransitionSystem

variable {ι K V : Type*} [DecidableEq K] {B : ℕ}

/-- The value a key's position leads to. -/
def State.value (B : ℕ) (s : State ι K V) (m : ι) (key : K) : Option V :=
  ((s.maps m).keys.lookup key).bind ((s.maps m).data.read B s.mem)

structure Inv (B : ℕ) (s : State ι K V) : Prop where
  pool : ∀ m, PoolOk B s.mem (s.maps m).data (s.maps m).keys
  disjoint : ∀ m n c, c ∈ (s.maps m).data.chunks → c ∈ (s.maps n).data.chunks → m = n
  refs : ∀ r, some r ∈ s.refs → ∃ pos, (s.maps r.owner).keys.lookup r.key = some pos ∧
    (s.maps r.owner).data.slot B pos = some r.slot
  asserts : s.asserts = true

/-- The abstract maps hold the values the concrete ones lead to. -/
structure Refines (B : ℕ) (s : State ι K V) (a : Spec ι K V) : Prop where
  maps : ∀ m key, (a.maps m).lookup key = s.value B m key
  refs : a.refs = s.refs.map (·.map fun r => (r.owner,r.key))

theorem inv_initial : Inv B (initial : State ι K V) := by
  refine ⟨fun m => poolOk_empty B _,?_,?_,rfl⟩ <;> simp [initial]

theorem refines_initial : Refines B (initial : State ι K V) Spec.initial := by
  refine ⟨fun m key => ?_,rfl⟩
  simp [initial,Spec.initial,State.value]

theorem Inv.slot_injective {s : State ι K V} (h : Inv B s) {m n : ι} {x y : ℕ} {c : ℕ × ℕ}
    (hx : (s.maps m).data.slot B x = some c) (hy : (s.maps n).data.slot B y = some c) :
    m = n ∧ x = y := by
  have hm := List.mem_of_getElem? (slot_eq_some hx).1
  have hn := List.mem_of_getElem? (slot_eq_some hy).1
  obtain rfl := h.disjoint m n _ hm hn
  exact ⟨rfl,PoolAllocator.slot_injective (h.pool m).nodup hx hy⟩

theorem Inv.slot_of_key {s : State ι K V} (h : Inv B s) {m : ι} {key : K} {pos : ℕ}
    (hk : (s.maps m).keys.lookup key = some pos) :
    ∃ c v, (s.maps m).data.slot B pos = some c ∧ s.mem.cells c = some v ∧ c.1 < s.mem.next := by
  obtain ⟨hlt,hsome⟩ := (h.pool m).keyed key pos hk
  obtain ⟨a,ha,-,hs⟩ := slot_of_lt (h.pool m).chunks hlt
  rw [Pool.read,hs] at hsome
  obtain ⟨v,hv⟩ := Option.isSome_iff_exists.mp hsome
  exact ⟨_,v,hs,hv,ha⟩

theorem slot_next {p : Pool} {mem : Memory V} {keys : Finmap fun _ : K => ℕ}
    (h : PoolOk B mem p keys) {pos : ℕ} {c : ℕ × ℕ} (hs : p.slot B pos = some c) :
    c.1 < mem.next := by
  obtain ⟨a,ha,heq⟩ := h.chunks _ (List.mem_of_getElem? (slot_eq_some hs).1)
  exact Option.some.inj heq ▸ ha

theorem Inv.sizesAgree {s : State ι K V} (h : Inv B s) (m : ι) :
    (s.maps m).sizesAgree B = true := by
  simp [HashMap.sizesAgree,(h.pool m).size_eq]

theorem Refines.mem_iff {s : State ι K V} {a : Spec ι K V} (hr : Refines B s a) (h : Inv B s)
    (m : ι) (key : K) : key ∈ a.maps m ↔ key ∈ (s.maps m).keys := by
  rw [← Finmap.lookup_isSome,← Finmap.lookup_isSome,hr.maps]
  unfold State.value
  cases hk : (s.maps m).keys.lookup key with
  | none => simp
  | some pos => simpa using ((h.pool m).keyed key pos hk).2

theorem Refines.keys_eq {s : State ι K V} {a : Spec ι K V} (hr : Refines B s a) (h : Inv B s)
    (m : ι) : (a.maps m).keys = (s.maps m).keys.keys := by
  ext key
  rw [Finmap.mem_keys,Finmap.mem_keys,hr.mem_iff h]

variable {s : State ι K V} {a : Spec ι K V}

/-- A write through the slot of one key changes the value of that key alone. -/
theorem Inv.value_write [DecidableEq ι] {s : State ι K V} (h : Inv B s) {m : ι} {key : K} {pos : ℕ} {c : ℕ × ℕ}
    (hk : (s.maps m).keys.lookup key = some pos) (hs : (s.maps m).data.slot B pos = some c) (v : V) :
    Inv B { s with mem := s.mem.write c (some v) } ∧
    ∀ n k, State.value B { s with mem := s.mem.write c (some v) } n k =
      if n = m ∧ k = key then some v else s.value B n k := by
  have hother : ∀ n x, ¬(n = m ∧ x = pos) →
      (s.maps n).data.read B (s.mem.write c (some v)) x = (s.maps n).data.read B s.mem x :=
    fun n x hne => read_write_of_ne (fun hx => hne (h.slot_injective hx hs)) _
  have hself : (s.maps m).data.read B (s.mem.write c (some v)) pos = some v := read_write_self hs _
  refine ⟨⟨fun n => ?_,h.disjoint,h.refs,h.asserts⟩,fun n k => ?_⟩
  · have hp := h.pool n
    refine { hp with free := fun x hx => ?_, keyed := fun k x hkx => ?_ }
    · rw [hother n x fun ⟨hn,hx'⟩ => (hp.not_mem_empty (hn ▸ hk)) (hx' ▸ hx)]
      exact hp.free x hx
    · refine ⟨(hp.keyed k x hkx).1,?_⟩
      by_cases heq : n = m ∧ x = pos
      · obtain ⟨rfl,rfl⟩ := heq
        rw [hself]
        rfl
      · rw [hother n x heq]
        exact (hp.keyed k x hkx).2
  · unfold State.value
    cases hkn : (s.maps n).keys.lookup k with
    | none =>
      have hne : ¬(n = m ∧ k = key) := by
        rintro ⟨rfl,rfl⟩
        simp [hk] at hkn
      simp [hne]
    | some x =>
      by_cases heq : n = m ∧ x = pos
      · obtain ⟨rfl,rfl⟩ := heq
        obtain rfl := (h.pool n).injective k key x hkn hk
        simpa using hself
      · have hne : ¬(n = m ∧ k = key) := by
          rintro ⟨rfl,rfl⟩
          exact heq ⟨rfl,Option.some.inj (hkn.symm.trans hk)⟩
        rw [if_neg hne]
        exact hother n x heq

theorem refines_assign [DecidableEq ι] [Inhabited V] (h : Inv B s) (hr : Refines B s a) {r : ℕ} {ref : Ref ι K}
    {v : V} (href : s.refs[r]? = some (some ref)) :
    Inv B { s with mem := s.mem.write ref.slot (some v) } ∧ ∃ a', Spec.Step a (.assign r v) .done a' ∧
      Refines B { s with mem := s.mem.write ref.slot (some v) } a' := by
  obtain ⟨pos,hk,hs⟩ := h.refs ref (List.mem_of_getElem? href)
  obtain ⟨hinv,hval⟩ := h.value_write hk hs v
  have hstep : Spec.Step a (.assign r v) .done _ :=
    .assign (show a.refs[r]? = some (some (ref.owner,ref.key)) by
      rw [hr.refs,List.getElem?_map,href]; rfl)
  refine ⟨hinv,_,hstep,fun n k => ?_,hr.refs⟩
  rw [hval]
  by_cases hn : n = ref.owner
  · subst hn
    simp only [Function.update_self,true_and]
    by_cases hk : k = ref.key
    · subst hk
      simp
    · rw [Finmap.lookup_insert_of_ne _ hk,if_neg hk]
      exact hr.maps _ k
  · simp only [Function.update_of_ne hn,hn,false_and,if_false]
    exact hr.maps n k

/-- Chunks of other maps were allocated before, and are not those of a pool that has grown. -/
theorem Inv.not_mem_grown (h : Inv B s) {m n : ι} {p : Pool} {l : List (Option ℕ)}
    (hchunks : p.chunks = (s.maps m).data.chunks ++ l) (hl : ∀ c ∈ l, c = some s.mem.next)
    (hn : n ≠ m) : ∀ d ∈ (s.maps n).data.chunks, d ∉ p.chunks := by
  intro d hd hdp
  rw [hchunks] at hdp
  rcases List.mem_append.mp hdp with hdp | hdp
  · exact hn (h.disjoint n m d hd hdp)
  · obtain ⟨x,hx,rfl⟩ := (h.pool n).chunks d hd
    have := Option.some.inj (hl _ hdp)
    omega

/-- Maps stay apart when one of them gets a pool that is apart from the others. -/
theorem Inv.disjoint_update [DecidableEq ι] (h : Inv B s) {m : ι} {g : HashMap K}
    (hg : ∀ n, n ≠ m → ∀ d ∈ (s.maps n).data.chunks, d ∉ g.data.chunks) (n n' : ι) (d : Option ℕ)
    (hd : d ∈ (Function.update s.maps m g n).data.chunks)
    (hd' : d ∈ (Function.update s.maps m g n').data.chunks) : n = n' := by
  by_cases hn : n = m <;> by_cases hn' : n' = m
  · exact hn.trans hn'.symm
  · rw [hn,Function.update_self] at hd
    rw [Function.update_of_ne hn'] at hd'
    exact absurd hd (hg n' hn' d hd')
  · rw [Function.update_of_ne hn] at hd
    rw [hn',Function.update_self] at hd'
    exact absurd hd' (hg n hn d hd)
  · rw [Function.update_of_ne hn] at hd
    rw [Function.update_of_ne hn'] at hd'
    exact h.disjoint n n' d hd hd'

section Update

variable [DecidableEq ι] {m : ι} {g : HashMap K} {mem : Memory V}

theorem Inv.pool_update (h : Inv B s) (hnext : s.mem.next ≤ mem.next) (hg : PoolOk B mem g.data g.keys)
    (hother : ∀ n, n ≠ m → ∀ x, (s.maps n).data.read B mem x = (s.maps n).data.read B s.mem x) (n : ι) :
    PoolOk B mem (Function.update s.maps m g n).data (Function.update s.maps m g n).keys := by
  by_cases hn : n = m
  · subst hn
    rw [Function.update_self]
    exact hg
  · rw [Function.update_of_ne hn]
    exact (h.pool n).congr hnext (hother n hn)

theorem Refines.maps_update (hr : Refines B s a) {f : Finmap fun _ : K => V}
    (hf : ∀ k, f.lookup k = (g.keys.lookup k).bind (g.data.read B mem))
    (hother : ∀ n, n ≠ m → ∀ x, (s.maps n).data.read B mem x = (s.maps n).data.read B s.mem x)
    (n : ι) (k : K) : (Function.update a.maps m f n).lookup k =
      ((Function.update s.maps m g n).keys.lookup k).bind ((Function.update s.maps m g n).data.read B mem) := by
  by_cases hn : n = m
  · subst hn
    rw [Function.update_self,Function.update_self]
    exact hf k
  · rw [Function.update_of_ne hn,Function.update_of_ne hn,hr.maps,State.value]
    exact Option.bind_congr fun x _ => (hother n hn x).symm

end Update

theorem refines_erase [DecidableEq ι] [Inhabited V] (hB : 0 < B) (h : Inv B s)
    (hr : Refines B s a) {m : ι} {key : K} {t : State ι K V} {res : Result V}
    (hc : call B s (.erase m key) = some (t,res)) :
    Inv B t ∧ ∃ a', Spec.Step a (.erase m key) res a' ∧ Refines B t a' := by
  have hrefs : (s.refs.map fun r => r.filter (Ref.survives m key)).map
      (·.map fun r => (r.owner,r.key)) = a.refs.map fun r => r.filter (· ≠ (m,key)) := by
    rw [hr.refs,List.map_map,List.map_map]
    refine List.map_congr_left fun r _ => ?_
    cases r with
    | none => rfl
    | some r => by_cases hm : r.owner = m ∧ r.key = key <;>
        simp [Option.filter,Ref.survives,Prod.ext_iff,hm]
  have hsurvive : ∀ r, some r ∈ (s.refs.map fun r => r.filter (Ref.survives m key)) →
      some r ∈ s.refs ∧ ¬(r.owner = m ∧ r.key = key) := by
    intro r hmem
    obtain ⟨r',hr',heq⟩ := List.mem_map.mp hmem
    obtain ⟨rfl,hs⟩ := Option.filter_eq_some_iff.mp heq
    exact ⟨hr',of_decide_eq_true hs⟩
  cases hk : (s.maps m).keys.lookup key with
  | none =>
    simp only [call,HashMap.erase,hk,Function.update_eq_self,h.sizesAgree,Bool.and_true,
      Option.some.injEq,Prod.mk.injEq] at hc
    obtain ⟨rfl,rfl⟩ := hc
    refine ⟨⟨h.pool,h.disjoint,fun r hmem => h.refs r (hsurvive r hmem).1,h.asserts⟩,_,.erase,
      fun n k => ?_,hrefs.symm⟩
    have hmaps := hr.maps_update (m:=m) (g:=s.maps m) (f:=(a.maps m).erase key) (fun k => ?_)
      (fun n _ x => rfl) n k
    · rwa [Function.update_eq_self] at hmaps
    · by_cases heq : k = key
      · rw [heq,Finmap.lookup_erase,hk,Option.bind_none]
      · rw [Finmap.lookup_erase_ne heq]
        exact hr.maps m k
  | some pos =>
    obtain ⟨c,hs,hdealloc,hok⟩ := (h.pool m).deallocate hk
    simp only [call,HashMap.erase,hk,hdealloc,h.sizesAgree,inRange_of_slot hB hs,Bool.and_true,
      Option.some.injEq,Prod.mk.injEq] at hc
    obtain ⟨rfl,rfl⟩ := hc
    have hread : ∀ n x, ¬(n = m ∧ x = pos) →
        (s.maps n).data.read B (s.mem.write c none) x = (s.maps n).data.read B s.mem x :=
      fun n x hne => read_write_of_ne (fun hx => hne (h.slot_injective hx hs)) _
    have hchunks : ∀ n, (Function.update s.maps m
        ⟨{ (s.maps m).data with emptyObjs := (s.maps m).data.emptyObjs ++ [pos] },
          (s.maps m).keys.erase key⟩ n).data.chunks = (s.maps n).data.chunks := by
      intro n
      by_cases hn : n = m
      · subst hn; rw [Function.update_self]
      · rw [Function.update_of_ne hn]
    have hother := fun n (hn : n ≠ m) x => hread n x fun hx => hn hx.1
    refine ⟨⟨h.pool_update le_rfl hok hother,?_,?_,h.asserts⟩,_,.erase,
      hr.maps_update (fun k => ?_) hother,hrefs.symm⟩
    · intro n n' c
      rw [hchunks,hchunks]
      exact h.disjoint n n' c
    · intro r hmem
      obtain ⟨hmem,hne⟩ := hsurvive r hmem
      obtain ⟨x,hx,hslot⟩ := h.refs r hmem
      refine ⟨x,?_,?_⟩
      · by_cases hn : r.owner = m
        · have hkey : r.key ≠ key := fun heq => hne ⟨hn,heq⟩
          rw [hn] at hx ⊢
          simp only [Function.update_self,Finmap.lookup_erase_ne hkey]
          exact hx
        · simp only [Function.update_of_ne hn]
          exact hx
      · rw [← hslot]
        simp only [Pool.slot,hchunks]
    · by_cases heq : k = key
      · rw [heq,Finmap.lookup_erase,Finmap.lookup_erase,Option.bind_none]
      · rw [Finmap.lookup_erase_ne heq,Finmap.lookup_erase_ne heq,hr.maps,State.value]
        refine Option.bind_congr fun x hkx => (hread m x fun hx => heq ?_).symm
        exact (h.pool m).injective k key x hkx (hx.2 ▸ hk)

theorem refines_access [DecidableEq ι] [Inhabited V] (hB : 0 < B) (h : Inv B s)
    (hr : Refines B s a) {m : ι} {key : K} {t : State ι K V} {res : Result V}
    (hc : call B s (.access m key none) = some (t,res)) :
    Inv B t ∧ ∃ a', Spec.Step a (.access m key none) res a' ∧ Refines B t a' := by
  cases hk : (s.maps m).keys.lookup key with
  | some pos =>
    obtain ⟨c,v,hs,hv,-⟩ := h.slot_of_key hk
    have hread : (s.maps m).data.read B s.mem pos = some v := by rw [Pool.read,hs]; exact hv
    simp only [call,HashMap.access,hk,Function.update_eq_self,h.sizesAgree,hs,hread,
      inRange_of_slot hB hs,Option.isSome_some,Bool.and_true,Option.some.injEq,Prod.mk.injEq,hv] at hc
    obtain ⟨rfl,rfl⟩ := hc
    have hval : (a.maps m).lookup key = some v := by
      rw [hr.maps,State.value,hk]
      exact hread
    refine ⟨⟨h.pool,h.disjoint,fun r hmem => ?_,h.asserts⟩,_,.accessFound hval,hr.maps,
      by simp [hr.refs]⟩
    rcases List.mem_append.mp hmem with hmem | hmem
    · exact h.refs r hmem
    · obtain rfl := Option.some.inj (List.mem_singleton.mp hmem)
      exact ⟨pos,hk,hs⟩
  | none =>
    obtain ⟨p,mem,target,c,halloc,hs,hcell,hkeep,hgrown,hfresh,hok⟩ := (h.pool m).allocate hB
    have hread : p.read B mem target = some default := by rw [Pool.read,hs]; exact hcell
    simp only [call,HashMap.access,hk,halloc,reduceCtorEq,if_false,h.sizesAgree,hs,hread,
      inRange_of_slot hB hs,Option.isSome_some,Bool.and_true,Option.some.injEq,Prod.mk.injEq,hcell] at hc
    obtain ⟨rfl,rfl⟩ := hc
    have hpok := hok key hk
    obtain ⟨l,hl,hnew⟩ : ∃ l, p.chunks = (s.maps m).data.chunks ++ l ∧ ∀ c ∈ l, c = some s.mem.next := by
      rcases hgrown with ⟨heq,-⟩ | ⟨heq,-⟩
      · exact ⟨[],by rw [heq,List.append_nil],by simp⟩
      · exact ⟨_,heq,fun _ => List.mem_singleton.mp⟩
    have hnext : s.mem.next ≤ mem.next := by rcases hgrown with ⟨-,h⟩ | ⟨-,h⟩ <;> omega
    have hchunk := fun n (hn : n ≠ m) => h.not_mem_grown hl hnew hn
    have hother : ∀ n, n ≠ m → ∀ x,
        (s.maps n).data.read B mem x = (s.maps n).data.read B s.mem x := fun n hn x =>
      read_congr fun d hd => hkeep d
        (fun heq => hchunk n hn _ (List.mem_of_getElem? (slot_eq_some hd).1)
          (heq ▸ List.mem_of_getElem? (slot_eq_some hs).1))
        (slot_next (h.pool n) hd)
    have hslot : ∀ x d, (s.maps m).data.slot B x = some d → p.slot B x = some d :=
      fun x d hd => slot_append hd hl
    have hold : ∀ k x, (s.maps m).keys.lookup k = some x →
        p.read B mem x = (s.maps m).data.read B s.mem x := by
      intro k x hkx
      obtain ⟨d,v,hd,-,hlt⟩ := h.slot_of_key hkx
      rw [Pool.read,hslot x d hd,Pool.read,hd]
      refine hkeep d (fun heq => hfresh k ?_) hlt
      rw [hkx,PoolAllocator.slot_injective hpok.nodup (hslot x d hd) (heq ▸ hs)]
    have hval : (a.maps m).lookup key = none := by rw [hr.maps,State.value,hk,Option.bind_none]
    refine ⟨⟨h.pool_update hnext hpok hother,h.disjoint_update hchunk,fun r hmem => ?_,h.asserts⟩,_,
      .accessFresh hval,hr.maps_update (fun k => ?_) hother,by simp [hr.refs]⟩
    · rcases List.mem_append.mp hmem with hmem | hmem
      · obtain ⟨x,hx,hd⟩ := h.refs r hmem
        refine ⟨x,?_⟩
        by_cases hn : r.owner = m
        · rw [hn] at hx hd ⊢
          have hkey : r.key ≠ key := by
            rintro rfl
            simp [hk] at hx
          simp only [Function.update_self,Finmap.lookup_insert_of_ne _ hkey]
          exact ⟨hx,hslot x _ hd⟩
        · simp only [Function.update_of_ne hn]
          exact ⟨hx,hd⟩
      · obtain rfl := Option.some.inj (List.mem_singleton.mp hmem)
        exact ⟨target,by simp,by simpa using hs⟩
    · by_cases hkey : k = key
      · rw [hkey,Finmap.lookup_insert,Finmap.lookup_insert]
        exact hread.symm
      · rw [Finmap.lookup_insert_of_ne _ hkey,Finmap.lookup_insert_of_ne _ hkey,hr.maps,State.value]
        exact Option.bind_congr fun x hkx => (hold k x hkx).symm

theorem refines_swap [DecidableEq ι] [Inhabited V] (h : Inv B s) (hr : Refines B s a) {m n : ι}
    {t : State ι K V} {res : Result V} (hc : call B s (.swap m n) = some (t,res)) :
    Inv B t ∧ ∃ a', Spec.Step a (.swap m n) res a' ∧ Refines B t a' := by
  simp only [call,h.sizesAgree,Bool.and_true,Option.some.injEq,Prod.mk.injEq] at hc
  obtain ⟨rfl,rfl⟩ := hc
  refine ⟨⟨fun i => h.pool _,fun i j c hi hj => ?_,fun r hmem => ?_,h.asserts⟩,_,.swap,
    fun i k => hr.maps _ k,?_⟩
  · exact (Equiv.swap m n).injective (h.disjoint _ _ c hi hj)
  · obtain ⟨r',hr',heq⟩ := List.mem_map.mp hmem
    obtain ⟨r₀,rfl,rfl⟩ := Option.map_eq_some_iff.mp heq
    obtain ⟨pos,hpos⟩ := h.refs r₀ hr'
    exact ⟨pos,by simpa [Ref.swapped] using hpos⟩
  · rw [hr.refs,List.map_map,List.map_map]
    refine List.map_congr_left fun r _ => ?_
    cases r <;> rfl

/-- Every call that does not throw has the result it would have on finite maps. -/
theorem refines_call [DecidableEq ι] [Inhabited V] (hB : 0 < B) (h : Inv B s) (hr : Refines B s a)
    {op : Op ι K V} (hop : op.fault = none) {t : State ι K V} {res : Result V}
    (hc : call B s op = some (t,res)) :
    Inv B t ∧ ∃ a', Spec.Step a op res a' ∧ Refines B t a' := by
  cases op with
  | access m key fault =>
    obtain rfl : fault = none := hop
    exact refines_access hB h hr hc
  | assign r v =>
    simp only [call] at hc
    split at hc
    · rename_i href
      simp only [Option.some.injEq,Prod.mk.injEq] at hc
      obtain ⟨rfl,rfl⟩ := hc
      exact refines_assign h hr href
    · simp at hc
  | erase m key => exact refines_erase hB h hr hc
  | find m key =>
    have hfind : (s.maps m).find B s.mem key = (s.value B m key,true) := by
      unfold HashMap.find State.value
      cases hk : (s.maps m).keys.lookup key with
      | none => simp [h.sizesAgree]
      | some pos =>
        obtain ⟨c,v,hs,hv,-⟩ := h.slot_of_key hk
        have hread : (s.maps m).data.read B s.mem pos = some v := by rw [Pool.read,hs]; exact hv
        simp [h.sizesAgree,inRange_of_slot hB hs,hread]
    simp only [call,hfind,Bool.and_true,Option.some.injEq,Prod.mk.injEq] at hc
    obtain ⟨rfl,rfl⟩ := hc
    refine ⟨h,a,?_,hr⟩
    rw [← hr.maps]
    exact .find
  | foreach m f =>
    obtain ⟨vs,hvs,ks,hnodup,hmem,hpre,hall⟩ := (h.pool m).foreach hB f
    simp only [call,hvs,Option.map_some,h.sizesAgree,Bool.and_true,Option.some.injEq,Prod.mk.injEq] at hc
    obtain ⟨rfl,rfl⟩ := hc
    refine ⟨h,a,.foreach ks hnodup (fun k => (hmem k).trans (hr.mem_iff h m k).symm) ?_ hall,hr⟩
    convert hpre using 2
    exact funext fun k => hr.maps m k
  | size m =>
    simp only [call,h.sizesAgree,Bool.and_true,Option.some.injEq,Prod.mk.injEq,
      (h.pool m).size_eq,← hr.keys_eq h] at hc
    obtain ⟨rfl,rfl⟩ := hc
    exact ⟨h,a,.size,hr⟩
  | empty m =>
    simp only [call,h.sizesAgree,Bool.and_true,Option.some.injEq,Prod.mk.injEq,
      (h.pool m).size_eq,← hr.keys_eq h] at hc
    obtain ⟨rfl,rfl⟩ := hc
    exact ⟨h,a,.empty,hr⟩
  | swap m n => exact refines_swap h hr hc

theorem Inv.trace {s : State ι K V} (h : Inv B s) (tr : List (Op ι K V × Result V)) :
    Inv B { s with trace := tr } := { h with }

theorem Refines.trace {s : State ι K V} {a : Spec ι K V} (hr : Refines B s a)
    (tr : List (Op ι K V × Result V)) : Refines B { s with trace := tr } a := { hr with }

/-- The refinement. Every trace of the maps, in which no call throws, is a trace of
finite maps; the values the maps hold are those of the finite maps it ends in, and
no assertion failed. -/
theorem trace_refines_finmap [DecidableEq ι] [Inhabited V] (hB : 0 < B) {s : State ι K V}
    (h : (system B).ReachableBy (fun _ op => op.fault = none) s) :
    ∃ a, Spec.Run s.trace a ∧ (∀ m key, (a.maps m).lookup key = s.value B m key) ∧
      s.asserts = true := by
  have hrun : Inv B s ∧ ∃ a, Spec.Run s.trace a ∧ Refines B s a := by
    refine h.invariant (P:=fun s => Inv B s ∧ ∃ a, Spec.Run s.trace a ∧ Refines B s a) ?_ ?_
    · rintro _ rfl
      exact ⟨inv_initial,_,.nil,refines_initial⟩
    · rintro s op t ⟨hinv,a,hrun,href⟩ hop hs
      obtain ⟨⟨t,res⟩,hc,rfl⟩ := Option.map_eq_some_iff.mp hs
      obtain ⟨hinv',a',hstep,href'⟩ := refines_call hB hinv href hop hc
      exact ⟨hinv'.trace _,a',hrun.snoc hstep,href'.trace _⟩
  obtain ⟨hinv,a,hrun,href⟩ := hrun
  exact ⟨a,hrun,href.maps,hinv.asserts⟩

/-- Chunks of two items: the third key grows the pool, and a slot is reused after an erase. -/
theorem trace_refines_finmap_three :
    let run := (system (ι:=Unit) (K:=ℕ) (V:=ℕ) 2).exec initial [.access () 1 none,.assign 0 10,
      .access () 2 none,.access () 3 none,.erase () 1,.access () 4 none,.assign 2 30]
    run.map (fun s => [1,2,3,4].map (s.value 2 ())) = some [none,some 0,some 30,some 0] ∧
    ∀ s, run = some s → ∃ a, Spec.Run s.trace a ∧
      ∀ m key, (a.maps m).lookup key = s.value 2 m key := by
  intro run
  refine ⟨by decide,fun s hs => ?_⟩
  obtain ⟨a,hrun,hmaps,-⟩ := trace_refines_finmap (ι:=Unit) (K:=ℕ) (V:=ℕ) (B:=2) (by decide)
    (ReachableBy.exec (by simp [Op.fault]) (.init rfl) hs)
  exact ⟨a,hrun,hmaps⟩

end LinearHashMap
end SdkCp
