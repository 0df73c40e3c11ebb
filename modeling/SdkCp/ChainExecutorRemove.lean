import SdkCp.ChainExecutorInvariant

/-! `task_syncronizer` with `remove_chain`: the key forgets its chain, the workers do
not. What is left of the order of jobs is per chain, and per key as long as a key gets a
new chain only when nobody owns the old one. -/
namespace SdkCp
namespace ChainExecutor

open Threads TransitionSystem

variable {K T : Type*}

theorem alive_iff {s : State K T} {c : ℕ} : s.alive c = true ↔ (∃ key, (key,c) ∈ s.chainsList) ∨
    (∃ (a : ℕ) (p : Adder K T), s.adders[a]? = some p ∧ p.owns c = true) ∨
    ∃ (w : ℕ) (p : Worker T), s.workers[w]? = some p ∧ p.holds c = true := by
  rw [State.alive,Bool.or_eq_true,Bool.or_eq_true,any_iff (l:=s.adders),any_iff (l:=s.workers),
    List.any_eq_true,or_assoc]
  simp

theorem Worker.holds_of_owns {p : Worker T} {c : ℕ} (h : p.owns c = true) : p.holds c = true := by
  cases p <;> simp_all [Worker.owns,Worker.holds]

/-- A step revives no chain when every owner after it points to a live chain. -/
theorem alive_of {s t : State K T} (hlist : ∀ x ∈ t.chainsList, x ∈ s.chainsList)
    (hadders : ∀ (a : ℕ) (p : Adder K T) d, t.adders[a]? = some p → p.owns d = true →
      s.alive d = true)
    (hworkers : ∀ (w : ℕ) (p : Worker T) d, t.workers[w]? = some p → p.holds d = true →
      s.alive d = true) (d : ℕ) (hd : t.alive d = true) : s.alive d = true := by
  rcases alive_iff.mp hd with ⟨key,hk⟩ | ⟨a,p,ha,hp⟩ | ⟨w,p,hw,hp⟩
  · exact alive_iff.mpr (.inl ⟨key,hlist _ hk⟩)
  · exact hadders a p d ha hp
  · exact hworkers w p d hw hp

theorem adders_alive {s : State K T} {a : ℕ} {p' : Adder K T}
    (hp' : ∀ d, p'.owns d = true → s.alive d = true) (b : ℕ) (p : Adder K T) (d : ℕ)
    (hb : (s.adders.set a p')[b]? = some p) (hp : p.owns d = true) : s.alive d = true := by
  rcases getElem?_set_cases hb with ⟨-,rfl⟩ | ⟨-,hb⟩
  · exact hp' d hp
  · exact alive_iff.mpr (.inr (.inl ⟨b,p,hb,hp⟩))

theorem workers_alive {s : State K T} {w : ℕ} {p' : Worker T}
    (hp' : ∀ d, p'.holds d = true → s.alive d = true) (v : ℕ) (p : Worker T) (d : ℕ)
    (hv : (s.workers.set w p')[v]? = some p) (hp : p.holds d = true) : s.alive d = true := by
  rcases getElem?_set_cases hv with ⟨-,rfl⟩ | ⟨-,hv⟩
  · exact hp' d hp
  · exact alive_iff.mpr (.inr (.inr ⟨v,p,hv,hp⟩))

/-- The loop of `pop_chain` drops expired entries up to the first live one. -/
theorem popChain_spec (s : State K T) (l : List ℕ) :
    (∀ c cs, popChain s l = (some c,cs) → s.alive c = true ∧ ∃ pre, l = pre++c::cs) ∧
    ∀ cs, popChain s l = (none,cs) → cs = [] := by
  induction l with
  | nil => simp [popChain]
  | cons x l ih =>
    rw [popChain]
    split
    · rename_i hx
      refine ⟨fun c cs h => ?_,fun cs h => by simp at h⟩
      obtain ⟨rfl,rfl⟩ : x = c ∧ l = cs := by simpa using h
      exact ⟨hx,[],rfl⟩
    · refine ⟨fun c cs h => ?_,ih.2⟩
      obtain ⟨hc,pre,rfl⟩ := ih.1 c cs h
      exact ⟨hc,x::pre,rfl⟩

variable [DecidableEq K]

/-- Where a chain that somebody owns stands in the logs: behind what was appended to its
key before it, all executed jobs of the key being among that and its own. -/
def Ordered (s : State K T) (c : ℕ) (chain : TaskChain K T) : Prop :=
  ∃ past running, Running s.workers c running ∧
    jobsOf chain.key s.appended = past++(running++chain.tasks) ∧
    (jobsOf chain.key s.executed).Sublist past

/-- What `remove_chain` leaves of the invariant. -/
structure Kept (s : State K T) : Prop where
  listed : ∀ key c, (key,c) ∈ s.chainsList →
    ∃ chain, s.chains[c]? = some chain ∧ chain.key = key
  located : ∀ (a : ℕ) key value c, s.adders[a]? = some (.located key value c) →
    ∃ chain, s.chains[c]? = some chain ∧ chain.key = key
  unborn : ∀ c, s.chains.length ≤ c → s.tokens c = 0 ∧ s.alive c = false
  one : ∀ (c d : ℕ) chain chain', s.chains[c]? = some chain → s.chains[d]? = some chain' →
    chain.key = chain'.key → s.alive c = true → s.alive d = true → c = d
  token : ∀ (c : ℕ) chain, s.chains[c]? = some chain → s.tokens c ≤ chain.isPending.toNat
  order : ∀ (c : ℕ) chain, s.chains[c]? = some chain → s.alive c = true → Ordered s c chain
  sublist : ∀ key, (jobsOf key s.executed).Sublist (jobsOf key s.appended)

theorem kept_initial (n m : ℕ) : Kept (initial n m : State K T) := by
  constructor <;> intros <;> simp_all [initial,State.tokens,jobsOf,List.getElem?_replicate,
    List.countP_replicate,Worker.owns,Adder.pushes,State.alive,List.any_replicate,Adder.owns,
    Worker.holds]

theorem Kept.owner {s : State K T} (h : Kept s) {w c : ℕ} {p : Worker T}
    (hp : s.workers[w]? = some p) (hown : p.owns c = true) :
    ∃ chain, s.chains[c]? = some chain ∧ chain.isPending = true ∧ s.alive c = true ∧
      s.tokens c = 1 ∧ s.workers.countP (·.owns c) = 1 := by
  have hpos := countP_pos (p:=(·.owns c)) hp hown
  have halive := alive_iff.mpr (.inr (.inr ⟨w,p,hp,Worker.holds_of_owns hown⟩))
  cases hc : s.chains[c]? with
  | none =>
    have h0 := (h.unborn c (List.getElem?_eq_none_iff.mp hc)).2
    simp [h0] at halive
  | some chain =>
    have htok := h.token c chain hc
    have htokens : s.workers.countP (·.owns c) ≤ s.tokens c := by
      simp only [State.tokens]
      omega
    cases hpend : chain.isPending with
    | true =>
      rw [hpend,Bool.toNat_true] at htok
      exact ⟨chain,rfl,hpend,halive,by omega,by omega⟩
    | false =>
      rw [hpend,Bool.toNat_false] at htok
      omega

theorem Kept.frame {s t : State K T} (h : Kept s) (hchains : t.chains = s.chains)
    (hlist : ∀ x ∈ t.chainsList, x ∈ s.chainsList)
    (hlocated : ∀ (a : ℕ) key value c, t.adders[a]? = some (.located key value c) →
      s.adders[a]? = some (.located key value c) ∨ (key,c) ∈ s.chainsList)
    (htokens : ∀ d, t.tokens d ≤ s.tokens d)
    (halive : ∀ d, t.alive d = true → s.alive d = true)
    (hrunning : ∀ d running, Running s.workers d running → Running t.workers d running)
    (happended : t.appended = s.appended) (hexecuted : t.executed = s.executed) : Kept t where
  listed key c hc := by
    rw [hchains]
    exact h.listed key c (hlist _ hc)
  located a key value c ha := by
    rw [hchains]
    rcases hlocated a key value c ha with ha | hc
    · exact h.located a key value c ha
    · exact h.listed key c hc
  unborn c hc := by
    rw [hchains] at hc
    obtain ⟨h0,hdead⟩ := h.unborn c hc
    refine ⟨by have := htokens c; omega,?_⟩
    cases hal : t.alive c with
    | false => rfl
    | true => simp [halive c hal] at hdead
  one c d chain chain' hc hd hkey hca hda := by
    rw [hchains] at hc hd
    exact h.one c d chain chain' hc hd hkey (halive c hca) (halive d hda)
  token c chain hc := by
    rw [hchains] at hc
    exact (htokens c).trans (h.token c chain hc)
  order c chain hc hca := by
    rw [hchains] at hc
    obtain ⟨past,running,hrun,happ,hex⟩ := h.order c chain hc (halive c hca)
    exact ⟨past,running,hrunning c running hrun,by rw [happended,happ],by rw [hexecuted]; exact hex⟩
  sublist key := by
    rw [happended,hexecuted]
    exact h.sublist key

/-- A step about a chain `c` that somebody owns: only `c` has to be looked at. -/
theorem Kept.update {s t : State K T} {c : ℕ} {chain : TaskChain K T} (h : Kept s)
    (hc : s.chains[c]? = some chain) (hca : s.alive c = true) (chain' : TaskChain K T)
    (hkey : chain'.key = chain.key) (hchains : t.chains = s.chains.set c chain')
    (hlist : t.chainsList = s.chainsList)
    (hlocated : ∀ (a : ℕ) key value d, t.adders[a]? = some (.located key value d) →
      s.adders[a]? = some (.located key value d))
    (htokens : ∀ d, d ≠ c → t.tokens d ≤ s.tokens d)
    (halive : ∀ d, t.alive d = true → s.alive d = true)
    (hrunning : ∀ d, d ≠ c → ∀ running, Running s.workers d running → Running t.workers d running)
    (happended : ∀ key, key ≠ chain.key → jobsOf key t.appended = jobsOf key s.appended)
    (hexecuted : ∀ key, key ≠ chain.key → jobsOf key t.executed = jobsOf key s.executed)
    (htoken : t.tokens c ≤ chain'.isPending.toNat) (hok : Ordered t c chain') : Kept t := by
  have hlt := (List.getElem?_eq_some_iff.mp hc).1
  have hat : ∀ (d : ℕ) dchain, t.chains[d]? = some dchain →
      (d = c ∧ dchain = chain') ∨ (d ≠ c ∧ s.chains[d]? = some dchain) := fun d dchain hd =>
    getElem?_set_cases (hchains ▸ hd)
  have hback : ∀ (d : ℕ) dchain, t.chains[d]? = some dchain →
      ∃ x, s.chains[d]? = some x ∧ x.key = dchain.key := by
    intro d dchain hd
    rcases hat d dchain hd with ⟨rfl,rfl⟩ | ⟨-,hd⟩
    · exact ⟨chain,hc,hkey.symm⟩
    · exact ⟨dchain,hd,rfl⟩
  have hfwd : ∀ (d : ℕ) x, s.chains[d]? = some x →
      ∃ dchain, t.chains[d]? = some dchain ∧ dchain.key = x.key := by
    intro d x hx
    by_cases hdc : d = c
    · subst hdc
      obtain rfl := Option.some.inj (hc.symm.trans hx)
      exact ⟨chain',by rw [hchains,List.getElem?_set_self hlt],hkey⟩
    · exact ⟨x,by rw [hchains,List.getElem?_set_ne (Ne.symm hdc),hx],rfl⟩
  constructor
  case listed =>
    intro key d hd
    rw [hlist] at hd
    obtain ⟨x,hx,rfl⟩ := h.listed key d hd
    exact hfwd d x hx
  case located =>
    intro a key value d ha
    obtain ⟨x,hx,rfl⟩ := h.located a key value d (hlocated a key value d ha)
    exact hfwd d x hx
  case unborn =>
    intro d hd
    rw [hchains,List.length_set] at hd
    obtain ⟨h0,hdead⟩ := h.unborn d hd
    have := htokens d (by omega)
    refine ⟨by omega,?_⟩
    cases hal : t.alive d with
    | false => rfl
    | true => simp [halive d hal] at hdead
  case one =>
    intro d e dchain echain hd he heq hda hea
    obtain ⟨x,hx,hxk⟩ := hback d dchain hd
    obtain ⟨y,hy,hyk⟩ := hback e echain he
    exact h.one d e x y hx hy (by rw [hxk,hyk,heq]) (halive d hda) (halive e hea)
  case token =>
    intro d dchain hd
    rcases hat d dchain hd with ⟨rfl,rfl⟩ | ⟨hne,hd⟩
    · exact htoken
    · exact (htokens d hne).trans (h.token d dchain hd)
  case order =>
    intro d dchain hd hda
    rcases hat d dchain hd with ⟨rfl,rfl⟩ | ⟨hne,hd⟩
    · exact hok
    · have hkne : dchain.key ≠ chain.key := fun heq =>
        hne (h.one d c dchain chain hd hc heq (halive d hda) hca)
      obtain ⟨past,running,hrun,happ,hex⟩ := h.order d dchain hd (halive d hda)
      exact ⟨past,running,hrunning d hne running hrun,by rw [happended _ hkne,happ],
        by rw [hexecuted _ hkne]; exact hex⟩
  case sublist =>
    intro key
    by_cases hk : key = chain.key
    · obtain ⟨past,running,-,happ,hex⟩ := hok
      rw [hk,← hkey,happ]
      exact hex.trans (List.sublist_append_left _ _)
    · rw [happended key hk,hexecuted key hk]
      exact h.sublist key

theorem Kept.adder_frame {s : State K T} (h : Kept s) {a : ℕ} {p q : Adder K T}
    (ha : s.adders[a]? = some p) {r : List ℕ}
    (hlocated : ∀ key value c, q = .located key value c → (key,c) ∈ s.chainsList)
    (hq : ∀ d, q.owns d = true → s.alive d = true)
    (htokens : ∀ d, r.count d+(q.pushes d).toNat ≤ s.ready2workList.count d+(p.pushes d).toNat) :
    Kept { s with ready2workList := r, adders := s.adders.set a q } := by
  refine h.frame rfl (fun _ => id) ?_ (fun d => ?_) ?_ (fun _ _ => id) rfl rfl
  · intro b key value c hb
    rcases getElem?_set_cases hb with ⟨-,heq⟩ | ⟨-,hb⟩
    · exact .inr (hlocated key value c heq.symm)
    · exact .inl hb
  · have h₁ := countP_set_add (b:=q) ha (·.pushes d)
    have h₂ := htokens d
    simp only [State.tokens]
    omega
  · exact alive_of (fun _ => id) (adders_alive hq)
      fun w q d hw hq => alive_iff.mpr (.inr (.inr ⟨w,q,hw,hq⟩))

/-- A key gets a new chain only when nobody owns an earlier one of its chains. -/
def Renews (s : State K T) : Event K T → Prop
  | .lookup _ key _ => s.chainsList.lookup key = none →
      ∀ c < s.chains.length, s.chains[c]?.map (·.key) = some key → s.alive c = false
  | _ => True

instance (s : State K T) : ∀ e, Decidable (Renews s e)
  | .lookup _ key _ => inferInstanceAs (Decidable (s.chainsList.lookup key = none →
      ∀ c < s.chains.length, s.chains[c]?.map (·.key) = some key → s.alive c = false))
  | .addTask _ | .push _ | .release _ | .pop _ | .getTask _ | .executed _ | .leave _
  | .removeChain _ => .isTrue trivial

theorem mem_of_lookup {l : List (K × ℕ)} {key : K} {c : ℕ} (h : l.lookup key = some c) :
    (key,c) ∈ l := by
  obtain ⟨l₁,l₂,rfl,-⟩ := List.lookup_eq_some_iff.mp h
  simp

theorem Kept.lt_of_alive {s : State K T} (h : Kept s) {d : ℕ} (hd : s.alive d = true) :
    d < s.chains.length := by
  by_contra hge
  simp [(h.unborn d (not_lt.mp hge)).2] at hd

omit [DecidableEq K] in
theorem alive_addChain {s : State K T} {a d : ℕ} {key : K} {value : T}
    (hd : (s.addChain a key value).alive d = true) : d = s.chains.length ∨ s.alive d = true := by
  rcases alive_iff.mp hd with ⟨k,hk⟩ | ⟨b,p,hb,hp⟩ | ⟨w,p,hw,hp⟩
  · rcases List.mem_cons.mp hk with heq | hk
    · exact .inl (Prod.mk.inj heq).2
    · exact .inr (alive_iff.mpr (.inl ⟨k,hk⟩))
  · rcases getElem?_set_cases hb with ⟨-,rfl⟩ | ⟨-,hb⟩
    · exact .inl (eq_of_beq hp).symm
    · exact .inr (alive_iff.mpr (.inr (.inl ⟨b,p,hb,hp⟩)))
  · exact .inr (alive_iff.mpr (.inr (.inr ⟨w,p,hw,hp⟩)))

omit [DecidableEq K] in
theorem alive_old {s : State K T} {a d : ℕ} {key : K} {value : T} {chain : TaskChain K T}
    (hd : (s.addChain a key value).alive d = true) (hc : s.chains[d]? = some chain) :
    s.alive d = true :=
  (alive_addChain hd).resolve_left (List.getElem?_eq_some_iff.mp hc).1.ne

theorem Kept.addChain {s : State K T} {a : ℕ} {key : K} {value : T} (h : Kept s)
    (ha : s.adders[a]? = some .idle) (hnew : ∀ c < s.chains.length,
      s.chains[c]?.map (·.key) = some key → s.alive c = false) : Kept (s.addChain a key value) := by
  have hlast : (s.addChain a key value).chains[s.chains.length]? = some ⟨key,[],false⟩ :=
    List.getElem?_concat_length
  constructor
  case listed =>
    intro k d hd
    rcases List.mem_cons.mp hd with heq | hd
    · obtain ⟨rfl,rfl⟩ := Prod.mk.inj heq
      exact ⟨_,hlast,rfl⟩
    · obtain ⟨chain,hc,hk⟩ := h.listed k d hd
      exact ⟨chain,addChain_getElem? hc,hk⟩
  case located =>
    intro b k v d hb
    rcases getElem?_set_cases hb with ⟨-,heq⟩ | ⟨-,hb⟩
    · cases heq
      exact ⟨_,hlast,rfl⟩
    · obtain ⟨chain,hc,hk⟩ := h.located b k v d hb
      exact ⟨chain,addChain_getElem? hc,hk⟩
  case unborn =>
    intro d hd
    rw [State.addChain,List.length_append,List.length_singleton] at hd
    obtain ⟨h0,hdead⟩ := h.unborn d (by omega)
    refine ⟨(tokens_addChain ha d).trans h0,Bool.eq_false_iff.mpr fun hal => ?_⟩
    rcases alive_addChain hal with rfl | hal
    · omega
    · simp [hdead] at hal
  case one =>
    -- the chains of other keys are unchanged, and those of this key have no owner
    have hdead : ∀ c chain, s.chains[c]? = some chain → chain.key = key → s.alive c = false :=
      fun c chain hc heq => hnew c (List.getElem?_eq_some_iff.mp hc).1 (by rw [hc,← heq]; rfl)
    intro c d chain chain' hc hd heq hca hda
    rcases getElem?_concat_cases hc with hc | ⟨rfl,rfl⟩ <;>
      rcases getElem?_concat_cases hd with hd | ⟨rfl,rfl⟩
    · exact h.one c d chain chain' hc hd heq (alive_old hca hc) (alive_old hda hd)
    · exact absurd ((hdead c chain hc heq).symm.trans (alive_old hca hc)) Bool.false_ne_true
    · exact absurd ((hdead d chain' hd heq.symm).symm.trans (alive_old hda hd)) Bool.false_ne_true
    · rfl
  case token =>
    intro d chain hd
    rw [tokens_addChain ha]
    rcases getElem?_concat_cases hd with hd | ⟨rfl,rfl⟩
    · exact h.token d chain hd
    · rw [(h.unborn _ le_rfl).1]
      exact Nat.zero_le _
  case order =>
    intro d chain hd hda
    rcases getElem?_concat_cases hd with hd | ⟨rfl,rfl⟩
    · exact h.order d chain hd (alive_old hda hd)
    · refine ⟨jobsOf key s.appended,[],.inl ⟨rfl,?_⟩,by simp [State.addChain],h.sublist key⟩
      intro w j (hw : s.workers[w]? = _)
      have hal := alive_iff.mpr (.inr (.inr ⟨w,_,hw,beq_self_eq_true _⟩))
      exact absurd (h.lt_of_alive hal) (lt_irrefl _)
  case sublist => exact h.sublist

theorem kept_lookup {s t : State K T} {a : ℕ} {key : K} {value : T} (h : Kept s)
    (hok : Renews s (.lookup a key value)) (hs : stepLookup s a key value = some t) : Kept t := by
  obtain ⟨ha,⟨c,hc,rfl⟩ | ⟨hnone,rfl⟩⟩ := stepLookup_cases hs
  · have hmem := mem_of_lookup hc
    refine h.adder_frame ha (q:=.located key value c) ?_ ?_ (fun d => le_rfl)
    · rintro _ _ _ ⟨⟩
      exact hmem
    · intro d hd
      obtain rfl : c = d := by simpa [Adder.owns] using hd
      exact alive_iff.mpr (.inl ⟨key,hmem⟩)
  · exact h.addChain ha (hok hnone)

theorem kept_addTask {s t : State K T} {a : ℕ} (h : Kept s) (hs : stepAddTask s a = some t) :
    Kept t := by
  unfold stepAddTask at hs
  split at hs
  case h_2 => simp at hs
  rename_i key value c ha
  have hca : s.alive c = true := alive_iff.mpr (.inr (.inl ⟨a,_,ha,by simp [Adder.owns]⟩))
  obtain ⟨chain,hc,rfl⟩ := h.located a _ value c ha
  obtain ⟨past,running,hrun,happ,hex⟩ := h.order c chain hc hca
  have htoken := h.token c chain hc
  simp only [hc,Option.some.injEq] at hs
  subst hs
  have halive : ∀ p : Adder K T, (∀ d, p.owns d = true → d = c) → ∀ (b : ℕ) (q : Adder K T) d,
      (s.adders.set a p)[b]? = some q → q.owns d = true → s.alive d = true := fun p hp =>
    adders_alive fun d hd => by rw [hp d hd]; exact hca
  have hwork : ∀ (w : ℕ) (p : Worker T) d, s.workers[w]? = some p → p.holds d = true →
      s.alive d = true := fun w p d hw hp => alive_iff.mpr (.inr (.inr ⟨w,p,hw,hp⟩))
  cases hpend : chain.isPending with
  | true =>
    simp only [TaskChain.addTask,hpend,if_true]
    refine h.update hc hca { chain with tasks := chain.tasks ++ [value] } rfl (by rw [← hpend]) rfl
      (located_of_set (by simp)) (fun d _ => ?_)
      (alive_of (fun _ => id) (halive (.returning c) fun d hd => (eq_of_beq hd).symm) hwork)
      (fun d _ _ => id) (fun _ hk => jobsOf_append_of_ne hk _ _) (fun _ _ => rfl) ?_
      ⟨past,running,hrun,by simp [happ],hex⟩
    · exact (tokens_located ha (.returning c) d).trans (by simp [Adder.pushes]) |>.le
    · exact (tokens_located ha (.returning c) c).le.trans htoken
  | false =>
    simp only [TaskChain.addTask,hpend,Bool.false_eq_true,if_false,if_true]
    refine h.update hc hca { chain with tasks := chain.tasks ++ [value], isPending := true }
      rfl rfl rfl (located_of_set (by simp)) (fun d hd => ?_)
      (alive_of (fun _ => id) (halive (.pushing c) fun d hd => (eq_of_beq hd).symm) hwork)
      (fun d _ _ => id) (fun _ hk => jobsOf_append_of_ne hk _ _) (fun _ _ => rfl) ?_
      ⟨past,running,hrun,by simp [happ],hex⟩
    · exact ((tokens_located ha (.pushing c) d).trans (by simp [Adder.pushes,Ne.symm hd])).le
    · rw [hpend,Bool.toNat_false] at htoken
      refine ((tokens_located ha (.pushing c) c).trans ?_).le
      simp only [Adder.pushes,beq_self_eq_true,Bool.toNat_true]
      omega

theorem kept_push {s t : State K T} {a : ℕ} (h : Kept s) (hs : stepPush s a = some t) :
    Kept t := by
  unfold stepPush at hs
  split at hs
  case h_2 => simp at hs
  rename_i c ha
  obtain rfl := Option.some.inj hs
  refine h.adder_frame ha (q:=.returning c) (by simp) ?_ fun d => ?_
  · intro d hd
    exact alive_iff.mpr (.inr (.inl ⟨a,_,ha,hd⟩))
  · rw [List.count_append,List.count_singleton]
    cases hcd : c == d <;> simp [Adder.pushes,hcd]

theorem kept_release {s t : State K T} {a : ℕ} (h : Kept s) (hs : stepRelease s a = some t) :
    Kept t := by
  unfold stepRelease at hs
  split at hs
  case h_2 => simp at hs
  rename_i c ha
  obtain rfl := Option.some.inj hs
  exact h.adder_frame ha (q:=.idle) (by simp) (by simp [Adder.owns]) fun d => le_rfl

theorem kept_removeChain {s : State K T} (h : Kept s) (key : K) :
    Kept { s with chainsList := s.chainsList.filter (·.1 ≠ key) } :=
  h.frame rfl (fun _ hx => (List.mem_filter.mp hx).1) (fun _ _ _ _ => .inl) (fun _ => le_rfl)
    (alive_of (fun _ hx => (List.mem_filter.mp hx).1)
      (fun a p _ ha hp => alive_iff.mpr (.inr (.inl ⟨a,p,ha,hp⟩)))
      fun w p _ hw hp => alive_iff.mpr (.inr (.inr ⟨w,p,hw,hp⟩)))
    (fun _ _ => id) rfl rfl

theorem Kept.worker_frame {s : State K T} (h : Kept s) {w : ℕ} {p q : Worker T}
    (hw : s.workers[w]? = some p) {r : List ℕ}
    (hq : ∀ d, q.holds d = true → s.alive d = true)
    (hrunning : ∀ d j, p ≠ .executing d j ∧ q ≠ .executing d j)
    (htokens : ∀ d, r.count d+(q.owns d).toNat ≤ s.ready2workList.count d+(p.owns d).toNat) :
    Kept { s with ready2workList := r, workers := s.workers.set w q } := by
  refine h.frame rfl (fun _ => id) (fun _ _ _ _ => .inl) (fun d => ?_) ?_ ?_ rfl rfl
  · have h₁ := countP_set_add (b:=q) hw (·.owns d)
    have h₂ := htokens d
    simp only [State.tokens]
    omega
  · exact alive_of (fun _ => id) (fun a q d ha hq => alive_iff.mpr (.inr (.inl ⟨a,q,ha,hq⟩)))
      (workers_alive hq)
  · intro d running hrun
    refine hrun.congr fun v j => ?_
    constructor <;> intro hv
    · rcases getElem?_set_cases hv with ⟨-,heq⟩ | ⟨-,hv⟩
      · exact absurd heq.symm (hrunning d j).2
      · exact hv
    · rw [List.getElem?_set_ne,hv]
      rintro rfl
      exact (hrunning d j).1 (Option.some.inj (hw.symm.trans hv))

theorem kept_pop {s t : State K T} {w : ℕ} (h : Kept s) (hs : stepPop s w = some t) : Kept t := by
  unfold stepPop at hs
  split at hs
  case h_2 => simp at hs
  rename_i hw
  obtain ⟨hsome,hnone⟩ := popChain_spec s s.ready2workList
  split at hs
  · rename_i cs hcs
    obtain rfl := Option.some.inj hs
    obtain rfl := hnone cs hcs
    have hframe := h.worker_frame hw (q:=.idle) (r:=[]) (by simp [Worker.holds,Worker.owns])
      (by simp) (by simp)
    rwa [set_self hw] at hframe
  · rename_i c cs hcs
    obtain rfl := Option.some.inj hs
    obtain ⟨hca,pre,hready⟩ := hsome c cs hcs
    refine h.worker_frame hw (q:=.draining c) ?_ (by simp) fun d => ?_
    · intro d hd
      obtain rfl : c = d := by simpa [Worker.holds,Worker.owns] using hd
      exact hca
    · rw [hready,List.count_append,List.count_cons]
      cases hcd : c == d <;> simp [Worker.owns,hcd]

theorem kept_leave {s t : State K T} {w : ℕ} (h : Kept s) (hs : stepLeave s w = some t) :
    Kept t := by
  unfold stepLeave at hs
  split at hs
  case h_2 => simp at hs
  rename_i c hw
  obtain rfl := Option.some.inj hs
  exact h.worker_frame hw (q:=.idle) (by simp [Worker.holds,Worker.owns]) (by simp)
    fun d => le_rfl

theorem kept_getTask {s t : State K T} {w : ℕ} (h : Kept s) (hs : stepGetTask s w = some t) :
    Kept t := by
  unfold stepGetTask at hs
  split at hs
  case h_2 => simp at hs
  rename_i c hw
  have hown : (Worker.draining c : Worker T).owns c = true := by simp [Worker.owns]
  obtain ⟨chain,hc,hpend,hca,htok,hone⟩ := h.owner hw hown
  obtain ⟨past,running,hrun,happ,hex⟩ := h.order c chain hc hca
  obtain ⟨-,hnil,hother⟩ := hrun.of_owner hone.le hw hown
  obtain rfl := hnil (by simp)
  have halive : ∀ p' : Worker T, (∀ d, p'.holds d = true → c = d) → ∀ (v : ℕ) (q : Worker T) d,
      (s.workers.set w p')[v]? = some q → q.holds d = true → s.alive d = true := fun p' hp' =>
    workers_alive fun d hd => by rw [← hp' d hd]; exact hca
  have hadders : ∀ (a : ℕ) (p : Adder K T) d, s.adders[a]? = some p → p.owns d = true →
      s.alive d = true := fun a p d ha hp => alive_iff.mpr (.inr (.inl ⟨a,p,ha,hp⟩))
  simp only [hc,TaskChain.getTask] at hs
  cases htl : chain.tasks with
  | nil =>
    simp only [htl] at hs
    obtain rfl := Option.some.inj hs
    have hleave := fun d (hd : d ≠ c) => worker_elsewhere hw (.leaving c) d
      (by simp [Worker.owns,Ne.symm hd]) rfl
    refine h.update hc hca { chain with isPending := false, tasks := [] } rfl (by simp) rfl
      (fun _ _ _ _ => id) (fun d hd => (hleave d hd).1.le)
      (alive_of (fun _ => id) hadders (halive _ fun d => eq_of_beq)) (fun d hd => (hleave d hd).2)
      (fun _ _ => rfl) (fun _ _ => rfl) ?_ ⟨past,[],running_set_nil hother (by simp),?_,hex⟩
    · have h₁ := tokens_worker hw (.leaving c) c
      rw [htok,hown] at h₁
      exact (Nat.add_right_cancel (h₁.trans (Nat.add_comm 1 0))).le
    · simpa [htl] using happ
  | cons j ts =>
    simp only [htl,hpend] at hs
    obtain rfl := Option.some.inj hs
    have hexec := fun d (hd : d ≠ c) => worker_elsewhere hw (.executing c j) d
      (by simp [Worker.owns,Ne.symm hd]) (by simp [Worker.owns,Ne.symm hd])
    refine h.update hc hca { chain with tasks := ts } rfl (by simp [hpend]) rfl
      (fun _ _ _ _ => id) (fun d hd => (hexec d hd).1.le)
      (alive_of (fun _ => id) hadders (halive _ fun d => eq_of_beq)) (fun d hd => (hexec d hd).2)
      (fun _ _ => rfl) (fun _ _ => rfl) ?_ ⟨past,[j],running_set_executing hw,?_,hex⟩
    · have h₁ := tokens_worker hw (.executing c j) c
      rw [htok,hown,show (Worker.executing c j).owns c = true by simp [Worker.owns]] at h₁
      rw [hpend]
      exact (Nat.add_right_cancel h₁).le
    · simpa [htl] using happ

theorem kept_executed {s t : State K T} {w : ℕ} (h : Kept s) (hs : stepExecuted s w = some t) :
    Kept t := by
  unfold stepExecuted at hs
  split at hs
  case h_2 => simp at hs
  rename_i c j hw
  have hown : (Worker.executing c j).owns c = true := by simp [Worker.owns]
  obtain ⟨chain,hc,hpend,hca,htok,hone⟩ := h.owner hw hown
  obtain ⟨past,running,hrun,happ,hex⟩ := h.order c chain hc hca
  obtain ⟨hj,-,hother⟩ := hrun.of_owner hone.le hw hown
  obtain rfl := hj j rfl
  simp only [hc] at hs
  obtain rfl := Option.some.inj hs
  have htokens : ∀ d, State.tokens { s with workers := s.workers.set w (.draining c) } d =
      s.tokens d := by
    intro d
    have h₁ := tokens_worker hw (.draining c) d
    simpa [Worker.owns] using h₁
  refine h.update hc hca chain rfl (set_self hc).symm rfl (fun _ _ _ _ => id)
    (fun d _ => (htokens d).le) (alive_of (fun _ => id)
      (fun a p d ha hp => alive_iff.mpr (.inr (.inl ⟨a,p,ha,hp⟩)))
      (workers_alive fun d hd => by rw [← show c = d from eq_of_beq hd]; exact hca))
    (fun d hd running hr => ?_) (fun _ _ => rfl) (fun k hk => ?_)
    ((htokens c).le.trans (h.token c chain hc))
    ⟨past++[j],[],running_set_nil hother (by simp),by simp [happ],?_⟩
  · exact hr.set_of_not_owns hw (by simp [Worker.owns,Ne.symm hd]) (by simp [Worker.owns,Ne.symm hd])
  · exact jobsOf_append_of_ne hk _ _
  · rw [jobsOf_append,jobsOf_self]
    exact hex.append (List.Sublist.refl _)

theorem kept_step {s t : State K T} {e : Event K T} (h : Kept s) (hok : Renews s e)
    (hs : step s e = some t) : Kept t := by
  cases e with
  | lookup a key value => exact kept_lookup h hok hs
  | addTask a => exact kept_addTask h hs
  | push a => exact kept_push h hs
  | release a => exact kept_release h hs
  | pop w => exact kept_pop h hs
  | getTask w => exact kept_getTask h hs
  | executed w => exact kept_executed h hs
  | leave w => exact kept_leave h hs
  | removeChain key =>
    obtain rfl := Option.some.inj hs
    exact kept_removeChain h key

theorem kept_reachable {s : State K T} (h : (system (K:=K) (T:=T)).ReachableBy Renews s) :
    Kept s := by
  refine h.invariant (P:=Kept) ?_ fun _ _ _ hinv he hs => kept_step hinv he hs
  rintro _ ⟨n,m,rfl⟩
  exact kept_initial n m

/-- A worker is taking tasks from a chain of `key`. -/
def Drains (s : State K T) (w : ℕ) (key : K) : Prop :=
  ∃ (c : ℕ) (p : Worker T) (chain : TaskChain K T), s.workers[w]? = some p ∧ p.owns c = true ∧
    s.chains[c]? = some chain ∧ chain.key = key

/-- One worker at a time drains the chains of a key, and what has been executed for the
key, with the job in execution, are jobs added for it in the order they were added. -/
structure Serial (s : State K T) : Prop where
  alone : ∀ key v w, Drains s v key → Drains s w key → v = w
  ordered : ∀ key, ∃ running,
    ((running = [] ∧ ∀ w j, ¬Executes s w key j) ∨ ∃ w j, Executes s w key j ∧ running = [j]) ∧
    (jobsOf key s.executed++running).Sublist (jobsOf key s.appended)

theorem Kept.serial {s : State K T} (h : Kept s) : Serial s := by
  have halone : ∀ key v w, Drains s v key → Drains s w key → v = w := by
    rintro key v w ⟨c,p,chain,hv,hp,hc,rfl⟩ ⟨d,q,chain',hw,hq,hd,heq⟩
    obtain ⟨_,-,-,hca,-,hone⟩ := h.owner hv hp
    obtain ⟨_,-,-,hda,-,-⟩ := h.owner hw hq
    obtain rfl := h.one d c chain' chain hd hc heq hda hca
    exact eq_of_countP_le_one hone.le hv hw hp hq
  refine ⟨halone,fun key => ?_⟩
  by_cases hex : ∃ w j, Executes s w key j
  · obtain ⟨w,j,c,chain,hw,hc,rfl⟩ := hex
    have hown : (Worker.executing c j).owns c = true := by simp [Worker.owns]
    obtain ⟨_,-,-,hca,-,hone⟩ := h.owner hw hown
    obtain ⟨past,running,hrun,happ,hsub⟩ := h.order c chain hc hca
    obtain rfl := (hrun.of_owner hone.le hw hown).1 j rfl
    refine ⟨[j],.inr ⟨w,j,⟨c,chain,hw,hc,rfl⟩,rfl⟩,?_⟩
    rw [happ,← List.append_assoc]
    exact (hsub.append (List.Sublist.refl _)).trans (List.sublist_append_left _ _)
  · refine ⟨[],.inl ⟨rfl,fun w j hw => hex ⟨w,j,hw⟩⟩,?_⟩
    rw [List.append_nil]
    exact h.sublist key

/-- With `remove_chain`, the jobs of a key run one at a time and in order as long as no
chain is made for a key while somebody owns an earlier one. -/
theorem serial_of_renews {s : State K T} (h : (system (K:=K) (T:=T)).ReachableBy Renews s) :
    Serial s := (kept_reachable h).serial

/-- Key 3 is removed and added again between two executed jobs. -/
theorem serial_of_renews_two :
    let run := (system (K:=ℕ) (T:=ℕ)).exec (initial 1 2) [.lookup 0 3 10,.addTask 0,.push 0,
      .pop 0,.release 0,.getTask 0,.executed 0,.getTask 0,.removeChain 3,.leave 0,.lookup 0 3 11,
      .addTask 0,.push 0,.pop 1,.getTask 1]
    run.map (fun s => (s.appended,s.executed)) = some ([(3,10),(3,11)],[(3,10)]) ∧
    ∀ s, run = some s → Serial s := by
  intro run
  exact ⟨by decide,fun s hs => serial_of_renews
    (ReachableBy.exec_allowed (.init ⟨1,2,rfl⟩) (by decide) hs)⟩

/-- Key 3 is removed and added again while its first job runs: two workers execute jobs
of the key. -/
theorem not_serial_renewed :
    ¬∀ s : State ℕ ℕ, (system (K:=ℕ) (T:=ℕ)).Reachable s → Serial s := by
  intro hall
  let run := (system (K:=ℕ) (T:=ℕ)).exec (initial 1 2) [.lookup 0 3 10,.addTask 0,.push 0,
    .pop 0,.release 0,.getTask 0,.removeChain 3,.lookup 0 3 11,.addTask 0,.push 0,.pop 1]
  have hrun : run.map (fun s => (s.workers.map fun p => (p.owns 0,p.owns 1),s.chains.map (·.key))) =
      some ([(true,false),(false,true)],[3,3]) := by decide
  obtain ⟨s,hs,hval⟩ := Option.map_eq_some_iff.mp hrun
  obtain ⟨hworkers,hchains⟩ := Prod.mk.inj hval
  have hdrains : ∀ (w c : ℕ) (x : Bool × Bool), (s.workers.map fun p => (p.owns 0,p.owns 1))[w]? =
      some x → (c = 0 ∧ x.1 = true ∨ c = 1 ∧ x.2 = true) → Drains s w 3 := by
    intro w c x hx hc
    rw [List.getElem?_map] at hx
    obtain ⟨p,hp,rfl⟩ := Option.map_eq_some_iff.mp hx
    have hkey : (s.chains.map (·.key))[c]? = some 3 := by
      rw [hchains]
      rcases hc with ⟨rfl,-⟩ | ⟨rfl,-⟩ <;> rfl
    rw [List.getElem?_map] at hkey
    obtain ⟨chain,hchain,hk⟩ := Option.map_eq_some_iff.mp hkey
    refine ⟨c,p,chain,hp,?_,hchain,hk⟩
    rcases hc with ⟨rfl,h⟩ | ⟨rfl,h⟩ <;> exact h
  have hreach : (system (K:=ℕ) (T:=ℕ)).Reachable s :=
    ReachableBy.exec (fun _ _ _ => trivial) (.init ⟨1,2,rfl⟩) hs
  have := (hall s hreach).alone 3 0 1 (hdrains 0 0 (true,false) (by rw [hworkers]; rfl) (by simp))
    (hdrains 1 1 (false,true) (by rw [hworkers]; rfl) (by simp))
  simp at this

end ChainExecutor
end SdkCp
