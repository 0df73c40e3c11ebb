import SdkCp.ChainExecutor

/-! Without `remove_chain` every chain with an unexecuted job has exactly one
token, so one worker at a time drains it and the jobs of a key run in order. -/
namespace SdkCp
namespace ChainExecutor

open Threads TransitionSystem

variable {K T : Type*}

/-- The job of chain `c` that a worker is executing, if there is one. -/
def Running (workers : List (Worker T)) (c : ℕ) (running : List T) : Prop :=
  (running = [] ∧ ∀ (w : ℕ) j, workers[w]? ≠ some (.executing c j)) ∨
  ∃ (w : ℕ) (j : T), workers[w]? = some (.executing c j) ∧ running = [j]

theorem Running.congr {workers workers' : List (Worker T)} {c : ℕ} {running : List T}
    (h : Running workers c running)
    (hw : ∀ (w : ℕ) j, workers'[w]? = some (.executing c j) ↔ workers[w]? = some (.executing c j)) :
    Running workers' c running := by
  rcases h with ⟨rfl,hno⟩ | ⟨w,j,hj,rfl⟩
  · exact .inl ⟨rfl,fun w j hj => hno w j ((hw w j).mp hj)⟩
  · exact .inr ⟨w,j,(hw w j).mpr hj,rfl⟩

theorem Running.set_of_not_owns {workers : List (Worker T)} {c w : ℕ} {p p' : Worker T}
    {running : List T} (h : Running workers c running) (hp : workers[w]? = some p)
    (hn : p.owns c = false) (hn' : p'.owns c = false) :
    Running (workers.set w p') c running := by
  have hlt : w < workers.length := (List.getElem?_eq_some_iff.mp hp).1
  refine h.congr fun v j => ?_
  rw [List.getElem?_set]
  by_cases hvw : w = v
  · subst hvw
    rw [if_pos rfl,if_pos hlt,hp]
    constructor <;> intro heq <;> obtain rfl := Option.some.inj heq
    · simp [Worker.owns] at hn'
    · simp [Worker.owns] at hn
  · rw [if_neg hvw]

theorem Running.of_owner {workers : List (Worker T)} {c w : ℕ} {p : Worker T} {running : List T}
    (h : Running workers c running) (hle : workers.countP (·.owns c) ≤ 1)
    (hp : workers[w]? = some p) (hown : p.owns c = true) :
    (∀ j, p = .executing c j → running = [j]) ∧
    ((∀ j, p ≠ .executing c j) → running = []) ∧
    ∀ v, v ≠ w → ∀ j, workers[v]? ≠ some (.executing c j) := by
  have huniq : ∀ v j, workers[v]? = some (.executing c j) → v = w := fun v j hv =>
    eq_of_countP_le_one hle hv hp (by simp [Worker.owns]) hown
  refine ⟨?_,?_,fun v hv j hj => hv (huniq v j hj)⟩
  · rintro j rfl
    rcases h with ⟨-,hno⟩ | ⟨v,j',hj',rfl⟩
    · exact absurd hp (hno w j)
    · obtain rfl := huniq v j' hj'
      rw [hp] at hj'
      cases hj'
      rfl
  · intro hne
    rcases h with ⟨rfl,-⟩ | ⟨v,j,hj,-⟩
    · rfl
    · obtain rfl := huniq v j hj
      rw [hp] at hj
      exact absurd (Option.some.inj hj) (hne j)

theorem running_set_nil {workers : List (Worker T)} {c w : ℕ} {p' : Worker T}
    (hother : ∀ v, v ≠ w → ∀ j, workers[v]? ≠ some (.executing c j))
    (hp' : ∀ j, p' ≠ .executing c j) : Running (workers.set w p') c [] := by
  refine .inl ⟨rfl,fun v j hv => ?_⟩
  rcases getElem?_set_cases hv with ⟨-,heq⟩ | ⟨hne,hv⟩
  · exact hp' j heq.symm
  · exact hother v hne j hv

theorem running_set_executing {workers : List (Worker T)} {c w : ℕ} {p : Worker T} {j : T}
    (hp : workers[w]? = some p) : Running (workers.set w (.executing c j)) c [j] :=
  .inr ⟨w,j,by rw [List.getElem?_set_self (List.getElem?_eq_some_iff.mp hp).1],rfl⟩

theorem tokens_worker {s : State K T} {w : ℕ} {p : Worker T} (hp : s.workers[w]? = some p)
    (p' : Worker T) (c : ℕ) : { s with workers := s.workers.set w p' : State K T }.tokens c+(p.owns c).toNat =
      s.tokens c+(p'.owns c).toNat := by
  have h := countP_set_add (b:=p') hp (·.owns c)
  simp only [State.tokens]
  omega

theorem tokens_adder {s : State K T} {a : ℕ} {p : Adder K T} (hp : s.adders[a]? = some p)
    (p' : Adder K T) (c : ℕ) : { s with adders := s.adders.set a p' : State K T }.tokens c+(p.pushes c).toNat =
      s.tokens c+(p'.pushes c).toNat := by
  have h := countP_set_add (b:=p') hp (·.pushes c)
  simp only [State.tokens]
  omega

theorem tokens_located {s : State K T} {a c : ℕ} {key : K} {value : T}
    (ha : s.adders[a]? = some (.located key value c)) (p : Adder K T) (d : ℕ) :
    { s with adders := s.adders.set a p : State K T }.tokens d = s.tokens d+(p.pushes d).toNat := by
  have h := tokens_adder ha p d
  simpa [Adder.pushes] using h

theorem located_of_set {adders : List (Adder K T)} {a : ℕ} {p : Adder K T}
    (hp : ∀ key value c, p ≠ .located key value c) (b : ℕ) (key : K) (value : T) (c : ℕ)
    (hb : (adders.set a p)[b]? = some (.located key value c)) :
    adders[b]? = some (.located key value c) := by
  rcases getElem?_set_cases hb with ⟨-,heq⟩ | ⟨-,hb⟩
  · exact absurd heq.symm (hp key value c)
  · exact hb

theorem worker_elsewhere {s : State K T} {w : ℕ} {p : Worker T} (hw : s.workers[w]? = some p)
    (p' : Worker T) (d : ℕ) (hn : p.owns d = false) (hn' : p'.owns d = false) :
    State.tokens { s with workers := s.workers.set w p' } d = s.tokens d ∧
    ∀ running, Running s.workers d running → Running (s.workers.set w p') d running := by
  have h := tokens_worker hw p' d
  rw [hn,hn'] at h
  exact ⟨h,fun _ hr => hr.set_of_not_owns hw hn hn'⟩

variable [DecidableEq K]

@[simp] theorem jobsOf_append (key : K) (l₁ l₂ : List (K × T)) :
    jobsOf key (l₁++l₂) = jobsOf key l₁++jobsOf key l₂ := by simp [jobsOf]

@[simp] theorem jobsOf_self (key : K) (t : T) : jobsOf key [(key,t)] = [t] := by simp [jobsOf]

theorem jobsOf_append_of_ne {key key' : K} (h : key ≠ key') (l : List (K × T)) (t : T) :
    jobsOf key (l++[(key',t)]) = jobsOf key l := by
  simp [jobsOf,Ne.symm h]

/-- What holds of chain number `c` between any two steps. -/
structure ChainOk (s : State K T) (c : ℕ) (chain : TaskChain K T) : Prop where
  token : s.tokens c = chain.isPending.toNat
  tasks : chain.isPending = false → chain.tasks = []
  order : ∃ running, Running s.workers c running ∧
    jobsOf chain.key s.appended = jobsOf chain.key s.executed++running++chain.tasks

/-- The invariant of a pool on which no chain is removed. -/
structure Inv (s : State K T) : Prop where
  keyed : ∀ (c : ℕ) chain, s.chains[c]? = some chain → s.chainsList.lookup chain.key = some c
  listed : ∀ key c, s.chainsList.lookup key = some c → ∃ chain, s.chains[c]? = some chain ∧
    chain.key = key
  located : ∀ (a : ℕ) key value c, s.adders[a]? = some (.located key value c) →
    s.chainsList.lookup key = some c
  unborn : ∀ c, s.chains.length ≤ c → s.tokens c = 0
  fresh : ∀ key, s.chainsList.lookup key = none →
    jobsOf key s.appended = [] ∧ jobsOf key s.executed = []
  chain : ∀ (c : ℕ) chain, s.chains[c]? = some chain → ChainOk s c chain
  asserts : s.asserts = true

theorem inv_initial (n m : ℕ) : Inv (initial n m : State K T) := by
  constructor <;> intros <;> simp_all [initial,State.tokens,jobsOf,List.getElem?_replicate,
    List.countP_replicate,Worker.owns,Adder.pushes]

theorem Inv.owner {s : State K T} (h : Inv s) {w c : ℕ} {p : Worker T}
    (hp : s.workers[w]? = some p) (hown : p.owns c = true) :
    ∃ chain, s.chains[c]? = some chain ∧ chain.isPending = true ∧
      s.workers.countP (·.owns c) = 1 := by
  have hpos := countP_pos (p:=(·.owns c)) hp hown
  cases hc : s.chains[c]? with
  | none =>
    have h0 := h.unborn c (List.getElem?_eq_none_iff.mp hc)
    simp only [State.tokens] at h0
    omega
  | some chain =>
    have htok := (h.chain c chain hc).token
    have hb := Bool.toNat_le chain.isPending
    simp only [State.tokens] at htok
    refine ⟨chain,rfl,?_,by omega⟩
    cases hpend : chain.isPending with
    | true => rfl
    | false => rw [hpend,Bool.toNat_false] at htok; omega

/-- A step about chain `c` alone, which keeps its key: only `c` has to be looked at. -/
theorem Inv.update {s t : State K T} {c : ℕ} {chain : TaskChain K T} (h : Inv s)
    (hc : s.chains[c]? = some chain) (chain' : TaskChain K T) (hkey : chain'.key = chain.key)
    (hlist : t.chainsList = s.chainsList) (hchains : t.chains = s.chains.set c chain')
    (hlocated : ∀ (a : ℕ) key value d, t.adders[a]? = some (.located key value d) →
      s.adders[a]? = some (.located key value d))
    (htokens : ∀ d, d ≠ c → t.tokens d = s.tokens d)
    (hrunning : ∀ d, d ≠ c → ∀ running, Running s.workers d running → Running t.workers d running)
    (happended : ∀ key, key ≠ chain.key → jobsOf key t.appended = jobsOf key s.appended)
    (hexecuted : ∀ key, key ≠ chain.key → jobsOf key t.executed = jobsOf key s.executed)
    (hasserts : t.asserts = s.asserts) (hok : ChainOk t c chain') : Inv t := by
  have hlt := (List.getElem?_eq_some_iff.mp hc).1
  have hat : ∀ (d : ℕ) dchain, t.chains[d]? = some dchain →
      (d = c ∧ dchain = chain') ∨ (d ≠ c ∧ s.chains[d]? = some dchain) := fun d dchain hd =>
    getElem?_set_cases (hchains ▸ hd)
  constructor
  case keyed =>
    intro d dchain hd
    rw [hlist]
    rcases hat d dchain hd with ⟨rfl,rfl⟩ | ⟨-,hd⟩
    · rw [hkey]
      exact h.keyed d chain hc
    · exact h.keyed d dchain hd
  case listed =>
    intro key d hd
    rw [hlist] at hd
    obtain ⟨dchain,hdc,hk⟩ := h.listed key d hd
    by_cases hdc' : d = c
    · subst hdc'
      obtain rfl := Option.some.inj (hc.symm.trans hdc)
      exact ⟨chain',by rw [hchains,List.getElem?_set_self hlt],hkey.trans hk⟩
    · exact ⟨dchain,by rw [hchains,List.getElem?_set_ne (Ne.symm hdc'),hdc],hk⟩
  case located =>
    intro a key value d ha
    rw [hlist]
    exact h.located a key value d (hlocated a key value d ha)
  case unborn =>
    intro d hd
    rw [hchains,List.length_set] at hd
    rw [htokens d (by omega)]
    exact h.unborn d hd
  case fresh =>
    intro key hk
    rw [hlist] at hk
    have hne : key ≠ chain.key := by
      rintro rfl
      simp [h.keyed c chain hc] at hk
    rw [happended key hne,hexecuted key hne]
    exact h.fresh key hk
  case chain =>
    intro d dchain hd
    rcases hat d dchain hd with ⟨rfl,rfl⟩ | ⟨hne,hd⟩
    · exact hok
    · have hkne : dchain.key ≠ chain.key := by
        intro heq
        have h₁ := h.keyed d dchain hd
        rw [heq,h.keyed c chain hc] at h₁
        exact hne (Option.some.inj h₁).symm
      obtain ⟨htok,htasks,running,hrun,hord⟩ := h.chain d dchain hd
      refine ⟨by rw [htokens d hne,htok],htasks,running,hrunning d hne running hrun,?_⟩
      rw [happended _ hkne,hexecuted _ hkne,hord]
  case asserts => rw [hasserts,h.asserts]

/-- What `stepLookup` makes of a key that the list does not have. -/
def State.addChain (s : State K T) (a : ℕ) (key : K) (value : T) : State K T :=
  { s with
    chainsList := (key,s.chains.length)::s.chainsList
    chains := s.chains ++ [⟨key,[],false⟩]
    adders := s.adders.set a (.located key value s.chains.length) }

theorem stepLookup_cases {s t : State K T} {a : ℕ} {key : K} {value : T}
    (hs : stepLookup s a key value = some t) : s.adders[a]? = some .idle ∧
      ((∃ c, s.chainsList.lookup key = some c ∧
        t = { s with adders := s.adders.set a (.located key value c) }) ∨
      s.chainsList.lookup key = none ∧ t = s.addChain a key value) := by
  unfold stepLookup at hs
  split at hs
  case h_2 => simp at hs
  rename_i ha
  refine ⟨ha,?_⟩
  split at hs
  · rename_i c hc
    exact .inl ⟨c,hc,(Option.some.inj hs).symm⟩
  · rename_i hnone
    exact .inr ⟨hnone,(Option.some.inj hs).symm⟩

omit [DecidableEq K] in
theorem tokens_lookup {s : State K T} {a c : ℕ} {key : K} {value : T}
    (ha : s.adders[a]? = some .idle) (d : ℕ) :
    { s with adders := s.adders.set a (.located key value c) : State K T }.tokens d = s.tokens d :=
  tokens_adder ha (.located key value c) d

omit [DecidableEq K] in
theorem tokens_addChain {s : State K T} {a : ℕ} {key : K} {value : T}
    (ha : s.adders[a]? = some .idle) (d : ℕ) : (s.addChain a key value).tokens d = s.tokens d :=
  tokens_adder ha (.located key value s.chains.length) d

omit [DecidableEq K] in
theorem addChain_getElem? {s : State K T} {a d : ℕ} {key : K} {value : T} {chain : TaskChain K T}
    (hd : s.chains[d]? = some chain) : (s.addChain a key value).chains[d]? = some chain := by
  have hlt := (List.getElem?_eq_some_iff.mp hd).1
  rw [State.addChain,List.getElem?_append_left hlt,hd]

omit [DecidableEq K] in
theorem running_unborn {s : State K T} {c : ℕ} (h : s.tokens c = 0) : Running s.workers c [] := by
  refine .inl ⟨rfl,fun w j hw => ?_⟩
  have hpos := countP_pos (p:=(·.owns c)) hw (by simp [Worker.owns])
  simp only [State.tokens] at h
  omega

theorem Inv.addChain {s : State K T} {a : ℕ} {key : K} {value : T} (h : Inv s)
    (ha : s.adders[a]? = some .idle) (hnone : s.chainsList.lookup key = none) :
    Inv (s.addChain a key value) := by
  have hfresh := h.fresh key hnone
  have hkeep : ∀ k c, s.chainsList.lookup k = some c →
      (s.addChain a key value).chainsList.lookup k = some c := by
    intro k c hk
    have hne : k ≠ key := by
      rintro rfl
      simp [hnone] at hk
    rw [State.addChain,List.lookup_cons,show (k == key) = false by simpa using hne]
    exact hk
  constructor
  case keyed =>
    intro d chain hd
    rcases getElem?_concat_cases hd with hd | ⟨rfl,rfl⟩
    · exact hkeep _ _ (h.keyed d chain hd)
    · exact List.lookup_cons_self
  case listed =>
    intro k d hd
    rw [State.addChain,List.lookup_cons] at hd
    split at hd
    · rename_i heq
      obtain rfl := Option.some.inj hd
      exact ⟨_,List.getElem?_concat_length,(eq_of_beq heq).symm⟩
    · obtain ⟨chain,hc,hk⟩ := h.listed k d hd
      exact ⟨chain,addChain_getElem? hc,hk⟩
  case located =>
    intro b k v d hb
    rcases getElem?_set_cases hb with ⟨-,heq⟩ | ⟨-,hb⟩
    · cases heq
      exact List.lookup_cons_self
    · exact hkeep k d (h.located b k v d hb)
  case unborn =>
    intro d hd
    rw [State.addChain,List.length_append] at hd
    rw [tokens_addChain ha]
    exact h.unborn d (by omega)
  case fresh =>
    intro k hk
    rw [State.addChain,List.lookup_cons] at hk
    split at hk
    · simp at hk
    · exact h.fresh k hk
  case chain =>
    intro d chain hd
    rcases getElem?_concat_cases hd with hd | ⟨rfl,rfl⟩
    · obtain ⟨htoken,htasks,hord⟩ := h.chain d chain hd
      exact ⟨(tokens_addChain ha d).trans htoken,htasks,hord⟩
    · have h0 : (s.addChain a key value).tokens s.chains.length = 0 :=
        (tokens_addChain ha _).trans (h.unborn _ le_rfl)
      refine ⟨h0,fun _ => rfl,[],running_unborn h0,?_⟩
      simp [State.addChain,hfresh.1,hfresh.2]
  case asserts => exact h.asserts

theorem inv_lookup {s t : State K T} {a : ℕ} {key : K} {value : T} (h : Inv s)
    (hs : stepLookup s a key value = some t) : Inv t := by
  obtain ⟨ha,⟨c,hc,rfl⟩ | ⟨hnone,rfl⟩⟩ := stepLookup_cases hs
  · refine { h with located := ?_, unborn := ?_, chain := ?_ }
    · intro b k v d hb
      rcases getElem?_set_cases hb with ⟨-,heq⟩ | ⟨-,hb⟩
      · cases heq
        exact hc
      · exact h.located b k v d hb
    · intro d hd
      rw [tokens_lookup ha]
      exact h.unborn d hd
    · intro d chain hd
      obtain ⟨htoken,htasks,hord⟩ := h.chain d chain hd
      exact ⟨(tokens_lookup ha d).trans htoken,htasks,hord⟩
  · exact h.addChain ha hnone

theorem inv_addTask {s t : State K T} {a : ℕ} (h : Inv s) (hs : stepAddTask s a = some t) :
    Inv t := by
  unfold stepAddTask at hs
  split at hs
  case h_2 => simp at hs
  rename_i key value c ha
  obtain ⟨chain,hc,rfl⟩ := h.listed _ _ (h.located a _ value c ha)
  obtain ⟨htoken,htasks,running,hrun,hord⟩ := h.chain c chain hc
  simp only [hc,Option.some.injEq] at hs
  subst hs
  cases hpend : chain.isPending with
  | true =>
    simp only [TaskChain.addTask,hpend,if_true]
    refine h.update hc { chain with tasks := chain.tasks ++ [value] } rfl rfl
      (by rw [← hpend]) (located_of_set (by simp)) (fun d _ => ?_) (fun d _ _ => id)
      (fun _ hk => jobsOf_append_of_ne hk _ _) (fun _ _ => rfl) rfl ⟨?_,?_,running,hrun,?_⟩
    · exact (tokens_located ha (.returning c) d).trans (by simp [Adder.pushes])
    · exact (tokens_located ha (.returning c) c).trans (by simp [Adder.pushes,htoken])
    · simp [hpend]
    · simp [hord]
  | false =>
    simp only [TaskChain.addTask,hpend,Bool.false_eq_true,if_false,if_true]
    refine h.update hc { chain with tasks := chain.tasks ++ [value], isPending := true }
      rfl rfl rfl (located_of_set (by simp)) (fun d hd => ?_) (fun d _ _ => id)
      (fun _ hk => jobsOf_append_of_ne hk _ _) (fun _ _ => rfl) rfl ⟨?_,?_,running,hrun,?_⟩
    · exact (tokens_located ha (.pushing c) d).trans (by simp [Adder.pushes,Ne.symm hd])
    · exact (tokens_located ha (.pushing c) c).trans (by simp [Adder.pushes,htoken,hpend])
    · simp
    · simp [hord]

theorem Inv.adder_moved {s : State K T} (h : Inv s) {a : ℕ} {p : Adder K T} {ready : List ℕ}
    (hp : ∀ key value c, p ≠ .located key value c)
    (htok : ∀ d, State.tokens { s with ready2workList := ready,adders := s.adders.set a p } d =
      s.tokens d) : Inv { s with ready2workList := ready,adders := s.adders.set a p } := by
  refine { h with
    located := fun b k v d hb => h.located b k v d (located_of_set hp b k v d hb)
    unborn := fun d hd => (htok d).trans (h.unborn d hd)
    chain := fun d chain hd => ?_ }
  obtain ⟨htoken,htasks,hord⟩ := h.chain d chain hd
  exact ⟨(htok d).trans htoken,htasks,hord⟩

theorem inv_push {s t : State K T} {a : ℕ} (h : Inv s) (hs : stepPush s a = some t) : Inv t := by
  unfold stepPush at hs
  split at hs
  case h_2 => simp at hs
  rename_i c ha
  obtain rfl := Option.some.inj hs
  have htok : ∀ d, State.tokens { s with ready2workList := s.ready2workList ++ [c]
                                         adders := s.adders.set a (.returning c) } d =
      s.tokens d := by
    intro d
    have h₁ := tokens_adder ha (.returning c) d
    simp only [State.tokens,Adder.pushes,List.count_append,List.count_singleton] at h₁ ⊢
    cases hcd : c == d <;> simp only [hcd,Bool.toNat_true,Bool.toNat_false] at h₁ ⊢ <;> simp at h₁ ⊢ <;> omega
  exact h.adder_moved (by simp) htok

theorem inv_release {s t : State K T} {a : ℕ} (h : Inv s) (hs : stepRelease s a = some t) :
    Inv t := by
  unfold stepRelease at hs
  split at hs
  case h_2 => simp at hs
  rename_i c ha
  obtain rfl := Option.some.inj hs
  have htok : ∀ d, State.tokens { s with adders := s.adders.set a .idle } d = s.tokens d :=
    tokens_adder ha .idle
  exact h.adder_moved (by simp) htok

/-- On a pool that removes no chain no entry of the ready list has expired. -/
theorem Inv.alive {s : State K T} (h : Inv s) {c : ℕ} (hc : c ∈ s.ready2workList) :
    s.alive c = true := by
  have hpos := List.count_pos_iff.mpr hc
  cases hchain : s.chains[c]? with
  | none =>
    have h0 := h.unborn c (List.getElem?_eq_none_iff.mp hchain)
    simp only [State.tokens] at h0
    omega
  | some chain =>
    obtain ⟨l₁,l₂,heq,-⟩ := List.lookup_eq_some_iff.mp (h.keyed c chain hchain)
    simp [State.alive,heq]

theorem inv_pop {s t : State K T} {w : ℕ} (h : Inv s) (hs : stepPop s w = some t) : Inv t := by
  unfold stepPop at hs
  split at hs
  case h_2 => simp at hs
  rename_i hw
  cases hready : s.ready2workList with
  | nil =>
    simp only [hready,popChain] at hs
    obtain rfl := Option.some.inj hs
    rw [← hready]
    exact h
  | cons c cs =>
    simp only [hready,popChain,h.alive (hready ▸ List.mem_cons_self),if_true] at hs
    obtain rfl := Option.some.inj hs
    have htok : ∀ d, State.tokens { s with ready2workList := cs
                                           workers := s.workers.set w (.draining c) } d =
        s.tokens d := by
      intro d
      have h₁ := tokens_worker hw (.draining c) d
      simp only [State.tokens,Worker.owns,hready,List.count_cons] at h₁ ⊢
      cases hcd : c == d <;> simp [hcd] at h₁ ⊢ <;> omega
    refine { h with
      unborn := fun d hd => (htok d).trans (h.unborn d hd)
      chain := fun d chain hd => ?_ }
    obtain ⟨htoken,htasks,running,hrun,hord⟩ := h.chain d chain hd
    refine ⟨(htok d).trans htoken,htasks,running,hrun.congr fun v j => ?_,hord⟩
    constructor <;> intro hv
    · rcases getElem?_set_cases hv with ⟨-,heq⟩ | ⟨-,hv⟩
      · cases heq
      · exact hv
    · rw [List.getElem?_set_ne (by rintro rfl; simp [hw] at hv),hv]

theorem inv_getTask {s t : State K T} {w : ℕ} (h : Inv s) (hs : stepGetTask s w = some t) :
    Inv t := by
  unfold stepGetTask at hs
  split at hs
  case h_2 => simp at hs
  rename_i c hw
  have hown : (Worker.draining c : Worker T).owns c = true := by simp [Worker.owns]
  obtain ⟨chain,hc,hpend,hone⟩ := h.owner hw hown
  obtain ⟨htoken,htasks,running,hrun,hord⟩ := h.chain c chain hc
  obtain ⟨-,hnil,hother⟩ := hrun.of_owner hone.le hw hown
  obtain rfl := hnil (by simp)
  simp only [hc,TaskChain.getTask] at hs
  cases htl : chain.tasks with
  | nil =>
    simp only [htl] at hs
    obtain rfl := Option.some.inj hs
    have hidle := fun d (hd : d ≠ c) => worker_elsewhere hw (.leaving c) d
      (by simp [Worker.owns,Ne.symm hd]) rfl
    refine h.update hc { chain with isPending := false, tasks := [] } rfl rfl
      (by simp) (fun _ _ _ _ => id) (fun d hd => (hidle d hd).1)
      (fun d hd => (hidle d hd).2) (fun _ _ => rfl) (fun _ _ => rfl) (by simp)
      ⟨?_,fun _ => rfl,[],running_set_nil hother (by simp),?_⟩
    · have h₁ := tokens_worker hw (.leaving c) c
      simp only [htoken,hpend,Worker.owns,beq_self_eq_true,Bool.toNat_false] at h₁
      exact Nat.add_right_cancel (h₁.trans (Nat.add_comm true.toNat 0))
    · simpa [htl] using hord
  | cons j ts =>
    simp only [htl,hpend] at hs
    obtain rfl := Option.some.inj hs
    have hexec := fun d (hd : d ≠ c) => worker_elsewhere hw (.executing c j) d
      (by simp [Worker.owns,Ne.symm hd]) (by simp [Worker.owns,Ne.symm hd])
    refine h.update hc { chain with tasks := ts } rfl rfl (by simp [hpend])
      (fun _ _ _ _ => id) (fun d hd => (hexec d hd).1) (fun d hd => (hexec d hd).2)
      (fun _ _ => rfl) (fun _ _ => rfl) (by simp) ⟨?_,by simp [hpend],[j],running_set_executing hw,?_⟩
    · have h₁ := tokens_worker hw (.executing c j) c
      simp only [htoken,Worker.owns] at h₁
      exact Nat.add_right_cancel h₁
    · simpa [htl] using hord

theorem inv_executed {s t : State K T} {w : ℕ} (h : Inv s) (hs : stepExecuted s w = some t) :
    Inv t := by
  unfold stepExecuted at hs
  split at hs
  case h_2 => simp at hs
  rename_i c j hw
  have hown : (Worker.executing c j).owns c = true := by simp [Worker.owns]
  obtain ⟨chain,hc,hpend,hone⟩ := h.owner hw hown
  obtain ⟨htoken,htasks,running,hrun,hord⟩ := h.chain c chain hc
  obtain ⟨hj,-,hother⟩ := hrun.of_owner hone.le hw hown
  obtain rfl := hj j rfl
  simp only [hc] at hs
  obtain rfl := Option.some.inj hs
  have htok : ∀ d, State.tokens { s with workers := s.workers.set w (.draining c) } d =
      s.tokens d := by
    intro d
    have h₁ := tokens_worker hw (.draining c) d
    simpa [Worker.owns] using h₁
  refine h.update hc chain rfl rfl (set_self hc).symm (fun _ _ _ _ => id)
    (fun d _ => htok d) (fun d hd running hr => ?_) (fun _ _ => rfl) (fun k hk => ?_) rfl
    ⟨(htok c).trans htoken,htasks,[],running_set_nil hother (by simp),?_⟩
  · exact hr.set_of_not_owns hw (by simp [Worker.owns,Ne.symm hd]) (by simp [Worker.owns,Ne.symm hd])
  · exact jobsOf_append_of_ne hk _ _
  · simp [hord]

theorem inv_leave {s t : State K T} {w : ℕ} (h : Inv s) (hs : stepLeave s w = some t) : Inv t := by
  unfold stepLeave at hs
  split at hs
  case h_2 => simp at hs
  rename_i c hw
  obtain rfl := Option.some.inj hs
  have htok : ∀ d, State.tokens { s with workers := s.workers.set w .idle } d = s.tokens d :=
    tokens_worker hw .idle
  refine { h with
    unborn := fun d hd => (htok d).trans (h.unborn d hd)
    chain := fun d chain hd => ?_ }
  obtain ⟨htoken,htasks,running,hrun,hord⟩ := h.chain d chain hd
  exact ⟨(htok d).trans htoken,htasks,running,hrun.set_of_not_owns hw rfl rfl,hord⟩

theorem inv_step {s t : State K T} {e : Event K T} (h : Inv s) (he : e.removes = false)
    (hs : step s e = some t) : Inv t := by
  cases e with
  | lookup a key value => exact inv_lookup h hs
  | addTask a => exact inv_addTask h hs
  | push a => exact inv_push h hs
  | release a => exact inv_release h hs
  | pop w => exact inv_pop h hs
  | getTask w => exact inv_getTask h hs
  | executed w => exact inv_executed h hs
  | leave w => exact inv_leave h hs
  | removeChain key => simp [Event.removes] at he

theorem inv_reachable {s : State K T}
    (h : (system (K:=K) (T:=T)).ReachableBy (fun _ e => e.removes = false) s) : Inv s := by
  refine h.invariant (P:=Inv) ?_ fun _ _ _ hinv he hs => inv_step hinv he hs
  rintro _ ⟨n,m,rfl⟩
  exact inv_initial n m

/-- The jobs of a key that wait on its chain. -/
def waiting (s : State K T) (key : K) : List T :=
  match s.chainsList.lookup key with
  | none => []
  | some c => (s.chains[c]?.map (·.tasks)).getD []

/-- A worker is executing job `j` of `key`. -/
def Executes (s : State K T) (w : ℕ) (key : K) (j : T) : Prop :=
  ∃ (c : ℕ) (chain : TaskChain K T), s.workers[w]? = some (.executing c j) ∧
    s.chains[c]? = some chain ∧ chain.key = key

/-- Jobs of one key run in the order they were appended, one at a time and each at
most once, and a chain with an unexecuted job has exactly one token. -/
theorem chain_jobs_run_in_order {s : State K T}
    (h : (system (K:=K) (T:=T)).ReachableBy (fun _ e => e.removes = false) s) :
    (∀ key, ∃ running,
      ((running = [] ∧ ∀ w j, ¬Executes s w key j) ∨ ∃ w j, Executes s w key j ∧ running = [j]) ∧
      jobsOf key s.appended = jobsOf key s.executed++running++waiting s key) ∧
    (∀ key v w i j, Executes s v key i → Executes s w key j → v = w) ∧
    (∀ (c : ℕ) chain, s.chains[c]? = some chain →
      (chain.tasks ≠ [] ∨ ∃ w j, Executes s w chain.key j) → s.tokens c = 1) ∧
    s.asserts = true := by
  have hinv := inv_reachable h
  have hown : ∀ c j, (Worker.executing c j : Worker T).owns c = true := by simp [Worker.owns]
  have hsame : ∀ (c d : ℕ) (cc cd : TaskChain K T), s.chains[c]? = some cc →
      s.chains[d]? = some cd → cc.key = cd.key → c = d := by
    intro c d cc cd hc hd heq
    have h₁ := hinv.keyed c cc hc
    rw [heq,hinv.keyed d cd hd] at h₁
    exact (Option.some.inj h₁).symm
  refine ⟨fun key => ?_,?_,?_,hinv.asserts⟩
  · cases hk : s.chainsList.lookup key with
    | none =>
      obtain ⟨happ,hex⟩ := hinv.fresh key hk
      refine ⟨[],.inl ⟨rfl,?_⟩,by simp [happ,hex,waiting,hk]⟩
      rintro w j ⟨c,chain,-,hc,rfl⟩
      simp [hinv.keyed c chain hc] at hk
    | some c =>
      obtain ⟨chain,hc,rfl⟩ := hinv.listed key c hk
      obtain ⟨-,-,running,hrun,hord⟩ := hinv.chain c chain hc
      refine ⟨running,?_,by simpa [waiting,hk,hc] using hord⟩
      rcases hrun with ⟨rfl,hno⟩ | ⟨w,j,hj,rfl⟩
      · refine .inl ⟨rfl,?_⟩
        rintro w j ⟨d,dchain,hw,hd,heq⟩
        obtain rfl := hsame d c dchain chain hd hc heq
        exact hno w j hw
      · exact .inr ⟨w,j,⟨c,chain,hj,hc,rfl⟩,rfl⟩
  · rintro key v w i j ⟨c,cc,hv,hc,rfl⟩ ⟨d,cd,hw,hd,heq⟩
    obtain rfl := hsame d c cd cc hd hc heq
    obtain ⟨-,-,-,hone⟩ := hinv.owner hv (hown d i)
    exact eq_of_countP_le_one hone.le hv hw (hown d i) (hown d j)
  · intro c chain hc hwork
    have hok := hinv.chain c chain hc
    have hpend : chain.isPending = true := by
      rcases hwork with hne | ⟨w,j,d,cd,hw,hd,heq⟩
      · by_contra hfalse
        exact hne (hok.tasks (by simpa using hfalse))
      · obtain rfl := hsame d c cd chain hd hc heq
        obtain ⟨chain',hc',hpend,-⟩ := hinv.owner hw (hown d j)
        obtain rfl := Option.some.inj (hc.symm.trans hc')
        exact hpend
    rw [hok.token,hpend,Bool.toNat_true]

/-- Two clients and a worker: the second job of key 3 is added while the first runs. -/
theorem chain_jobs_run_in_order_two :
    let run := (system (K:=ℕ) (T:=ℕ)).exec (initial 2 1) [.lookup 0 3 10,.addTask 0,.push 0,
      .pop 0,.getTask 0,.lookup 1 3 11,.addTask 1,.executed 0,.getTask 0]
    run.map (fun s => (s.appended,s.executed,s.tokens 0)) = some ([(3,10),(3,11)],[(3,10)],1) ∧
    ∀ s, run = some s → ∀ v w i j, Executes s v 3 i → Executes s w 3 j → v = w := by
  intro run
  refine ⟨by decide,fun s hs => ?_⟩
  exact (chain_jobs_run_in_order
    (ReachableBy.exec (by simp [Event.removes]) (.init ⟨2,1,rfl⟩) hs)).2.1 3

end ChainExecutor
end SdkCp
