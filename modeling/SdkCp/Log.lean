import SdkCp.ObjectsCache
import SdkCp.JsonWriter

/-! `log_out` of tools/log.hpp on several threads. The strings in which lines are put
together come from one `objects_cache` and still hold the text of an earlier line. A
`str_conv` appends the text of its argument; what it appends is given. -/
namespace SdkCp
namespace Log

open TransitionSystem

def kLogCacheSize : ℕ := 16

inductive Level
  | trace | info | warning | error
  deriving DecidableEq

/-- `LOG_ENABLE_TRACE` and its siblings. -/
def Level.bit : Level → UInt32
  | .trace => 0x01
  | .info => 0x02
  | .warning => 0x04
  | .error => 0x08

inductive Stream
  | cout | cerr
  deriving DecidableEq

def Level.stream : Level → Stream
  | .trace | .info => .cout
  | .warning | .error => .cerr

def Level.label : Level → List UInt8
  | .trace => JsonWriter.ascii "\x1b[1;36mTRACE\x1b[0m "
  | .info => JsonWriter.ascii "\x1b[1;32mINFO\x1b[0m "
  | .warning => JsonWriter.ascii "\x1b[1;33mWARNING\x1b[0m "
  | .error => JsonWriter.ascii "\x1b[1;31mERROR\x1b[0m "

/-- One call of `log_out`: the stream and the texts of `args..., "\n"`. -/
structure Line where
  stream : Stream
  texts : List (List UInt8)
  deriving DecidableEq

/-- What `trace`, `info`, `warning` or `error` passes on. -/
def Level.line (level : Level) (now threadId : List UInt8) (args : List (List UInt8)) : Line :=
  ⟨level.stream,[level.label,now,JsonWriter.ascii " [",threadId,JsonWriter.ascii "] "] ++ args ++
    [JsonWriter.ascii "\n"]⟩

/-- The characters that `c_str()` shows. -/
def cStr (buffer : List UInt8) : List UInt8 := buffer.takeWhile (· ≠ 0)

/-- The line as a string of its own would give it. -/
def Line.plain (line : Line) : Stream × List UInt8 := (line.stream,cStr line.texts.flatten)

/-- Where a thread is in `log_out`: before the buffer is taken, before it is cleared, before
text `n` is appended (or, behind the last, the buffer is shown), before it is given back.
`crashed` has used a buffer that there was no memory for. -/
inductive Place
  | idle
  | waiting (line : Line)
  | clearing (line : Line) (ptr : Option ℕ)
  | formatting (line : Line) (n ptr : ℕ)
  | returning (ptr : ℕ)
  | crashed (line : Line)
  deriving DecidableEq

/-- `mem` holds the text of each string object. `asked` are the calls so far that the
level let through. -/
structure State where
  level : UInt32
  pool : ObjectsCache.State
  mem : ℕ → List UInt8
  threads : List Place
  asked : List (ℕ × Line)
  out : List (ℕ × Stream × List UInt8)

inductive Event
  | setLogLvl (level : UInt32)
  | log (i : ℕ) (level : Level) (now threadId : List UInt8) (args : List (List UInt8))
  | step (i : ℕ) (fresh : Option ℕ)

def Place.isCrashed : Place → Bool
  | .crashed _ => true
  | _ => false

/-- A new string is empty, one from the cache is as it was left. -/
def State.taken (s : State) (fresh : Option ℕ) : ℕ → List UInt8 :=
  if s.pool.cache = [] then (s.pool.getRawPtr fresh).1.elim s.mem (Function.update s.mem · [])
  else s.mem

/-- The next step of thread `i`. -/
def State.advance (s : State) (i : ℕ) (fresh : Option ℕ) : Place → Option State
  | .idle | .crashed _ => none
  | .waiting line => (ObjectsCache.step kLogCacheSize s.pool (.get fresh)).map fun pool =>
      { s with pool := pool, mem := s.taken fresh,
               threads := s.threads.set i (.clearing line (s.pool.getRawPtr fresh).1) }
  | .clearing line none => some { s with threads := s.threads.set i (.crashed line) }
  | .clearing line (some ptr) => some
      { s with mem := Function.update s.mem ptr [], threads := s.threads.set i (.formatting line 0 ptr) }
  | .formatting line n ptr =>
    match line.texts[n]? with
    | some text => some
        { s with mem := Function.update s.mem ptr (s.mem ptr ++ text),
                 threads := s.threads.set i (.formatting line (n+1) ptr) }
    | none => some
        { s with out := s.out ++ [(i,line.stream,cStr (s.mem ptr))],
                 threads := s.threads.set i (.returning ptr) }
  | .returning ptr => (ObjectsCache.step kLogCacheSize s.pool (.set (some ptr))).map fun pool =>
      { s with pool := pool, threads := s.threads.set i .idle }

def step (s : State) (e : Event) : Option State :=
  if s.threads.any Place.isCrashed then none
  else
    match e with
    | .setLogLvl level => some { s with level := level }
    | .log i level now threadId args =>
      if s.threads[i]? = some .idle then
        if s.level &&& level.bit = 0 then some s
        else
          let line := level.line now threadId args
          some { s with threads := s.threads.set i (.waiting line), asked := s.asked ++ [(i,line)] }
      else none
    | .step i fresh => (s.threads[i]?).bind (s.advance i fresh)

def empty : ObjectsCache.State := ⟨[],[],[],[],false,false,0,0⟩

/-- Any number of threads. -/
def system : TransitionSystem State Event where
  init s := ∃ n level mem, s = ⟨level,empty,mem,List.replicate n .idle,[],[]⟩
  step := step

def Place.holder : Place → Option ℕ
  | .clearing _ ptr => ptr
  | .formatting _ _ ptr | .returning ptr => some ptr
  | _ => none

/-- The call that has not been written yet. -/
def Place.pending : Place → List Line
  | .waiting line | .clearing line _ | .formatting line _ _ | .crashed line => [line]
  | _ => []

/-- The entries of thread `i`. -/
def mine {α : Type} (entries : List (ℕ × α)) (i : ℕ) : List α := (entries.filter (·.1 = i)).map (·.2)

structure Inv (s : State) : Prop where
  pool : ObjectsCache.Sound kLogCacheSize s.pool
  alive : s.pool.destroyed = false
  holds : ∀ (i : ℕ) place ptr, s.threads[i]? = some place → place.holder = some ptr → ptr ∈ s.pool.raw
  apart : ∀ (i j : ℕ) p q ptr, s.threads[i]? = some p → s.threads[j]? = some q → p.holder = some ptr →
    q.holder = some ptr → i = j
  filled : ∀ (i : ℕ) line n ptr, s.threads[i]? = some (.formatting line n ptr) →
    s.mem ptr = (line.texts.take n).flatten
  said : ∀ (i : ℕ) place, s.threads[i]? = some place →
    mine s.out i ++ place.pending.map Line.plain = (mine s.asked i).map Line.plain

variable {s t : State}

/-- What one thread's step owes to the invariant: its own place, and that the buffers and
the lines of the others stay as they are. -/
theorem Inv.moved {i : ℕ} {new : Place} (h : Inv s) (hthreads : t.threads = s.threads.set i new)
    (hpool : ObjectsCache.Sound kLogCacheSize t.pool) (halive : t.pool.destroyed = false)
    (hkeep : ∀ j place ptr, j ≠ i → s.threads[j]? = some place → place.holder = some ptr →
      ptr ∈ t.pool.raw ∧ t.mem ptr = s.mem ptr ∧ new.holder ≠ some ptr)
    (hnew : ∀ ptr, new.holder = some ptr → ptr ∈ t.pool.raw)
    (hfill : ∀ line n ptr, new = .formatting line n ptr → t.mem ptr = (line.texts.take n).flatten)
    (hout : ∀ j, j ≠ i → mine t.out j = mine s.out j ∧ mine t.asked j = mine s.asked j)
    (hsaid : mine t.out i ++ new.pending.map Line.plain = (mine t.asked i).map Line.plain) : Inv t := by
  constructor
  · exact hpool
  · exact halive
  · intro j place ptr hj hptr
    rw [hthreads] at hj
    rcases Threads.getElem?_set_cases hj with ⟨rfl,rfl⟩ | ⟨hne,hj⟩
    · exact hnew ptr hptr
    · exact (hkeep j place ptr hne hj hptr).1
  · intro j l p q ptr hj hl hp hq
    rw [hthreads] at hj hl
    rcases Threads.getElem?_set_cases hj with ⟨rfl,rfl⟩ | ⟨hnej,hj'⟩ <;>
      rcases Threads.getElem?_set_cases hl with ⟨rfl,rfl⟩ | ⟨hnel,hl'⟩
    · rfl
    · exact absurd hp (hkeep l q ptr hnel hl' hq).2.2
    · exact absurd hq (hkeep j p ptr hnej hj' hp).2.2
    · exact h.apart j l p q ptr hj' hl' hp hq
  · intro j line n ptr hj
    rw [hthreads] at hj
    rcases Threads.getElem?_set_cases hj with ⟨rfl,hnew⟩ | ⟨hne,hj⟩
    · exact hfill line n ptr hnew.symm
    · rw [(hkeep j _ ptr hne hj rfl).2.1]
      exact h.filled j line n ptr hj
  · intro j place hj
    rw [hthreads] at hj
    rcases Threads.getElem?_set_cases hj with ⟨rfl,rfl⟩ | ⟨hne,hj⟩
    · exact hsaid
    · rw [(hout j hne).1,(hout j hne).2]
      exact h.said j place hj

/-- What the others keep when the step of thread `i` leaves the cache and the texts alone and
`new` holds what `old` held. -/
theorem Inv.others {i : ℕ} {old : Place} (new : Place) (h : Inv s) (hi : s.threads[i]? = some old)
    (hsame : ∀ ptr, new.holder = some ptr → old.holder = some ptr) {j : ℕ} {place : Place} {ptr : ℕ}
    (hne : j ≠ i) (hj : s.threads[j]? = some place) (hptr : place.holder = some ptr) :
    ptr ∈ s.pool.raw ∧ new.holder ≠ some ptr :=
  ⟨h.holds j place ptr hj hptr,fun hnew => hne (h.apart j i place old ptr hj hi hptr (hsame ptr hnew))⟩

theorem mine_append {α : Type} (entries : List (ℕ × α)) (i j : ℕ) (entry : α) :
    mine (entries ++ [(i,entry)]) j = mine entries j ++ if i = j then [entry] else [] := by
  unfold mine
  by_cases hij : i = j <;> simp [hij]

theorem Inv.got {pool : ObjectsCache.State} {fresh : Option ℕ} {ptr : ℕ} (h : Inv s)
    (hpool : ObjectsCache.step kLogCacheSize s.pool (.get fresh) = some pool)
    (hptr : (s.pool.getRawPtr fresh).1 = some ptr) : ptr ∉ s.pool.raw := by
  have hsound := ObjectsCache.step_sound (e:=.get fresh) h.pool trivial hpool
  have hraw := (ObjectsCache.get_raw hpool).1
  have hnodup := hsound.owned.owners.nodup_iff.mp hsound.owned.nodup
  rw [hraw,hptr] at hnodup
  have hheld : (ptr::(s.pool.raw ++ ObjectsCache.handed pool.controls)).Nodup :=
    (List.nodup_append.mp (List.nodup_append.mp hnodup).2.1).2.1
  exact fun hmem => (List.nodup_cons.mp hheld).1 (List.mem_append_left _ hmem)

theorem Inv.wait {pool : ObjectsCache.State} {fresh : Option ℕ} {i : ℕ} {line : Line} (h : Inv s)
    (hi : s.threads[i]? = some (.waiting line))
    (hpool : ObjectsCache.step kLogCacheSize s.pool (.get fresh) = some pool) :
    Inv { s with pool := pool, mem := s.taken fresh,
                 threads := s.threads.set i (.clearing line (s.pool.getRawPtr fresh).1) } := by
  obtain ⟨hraw,halive⟩ := ObjectsCache.get_raw hpool
  refine h.moved rfl (ObjectsCache.step_sound (e:=.get fresh) h.pool trivial hpool) halive ?_ ?_ (by simp)
    (fun j _ => ⟨rfl,rfl⟩) (h.said i (.waiting line) hi)
  · intro j place ptr hne hj hptr
    have hmem := h.holds j place ptr hj hptr
    have hother : (s.pool.getRawPtr fresh).1 ≠ some ptr := fun hgot => h.got hpool hgot hmem
    refine ⟨hraw ▸ List.mem_append_right _ hmem,?_,hother⟩
    unfold State.taken
    split
    · cases hgot : (s.pool.getRawPtr fresh).1 with
      | none => rfl
      | some p => exact Function.update_of_ne (by rintro rfl; exact hother hgot) ..
    · rfl
  · intro ptr hptr
    change (s.pool.getRawPtr fresh).1 = some ptr at hptr
    simp [hraw,hptr]

theorem advance_append {i n ptr : ℕ} {fresh : Option ℕ} {line : Line} {text : List UInt8}
    (htext : line.texts[n]? = some text) : s.advance i fresh (.formatting line n ptr) = some
      { s with mem := Function.update s.mem ptr (s.mem ptr ++ text),
               threads := s.threads.set i (.formatting line (n+1) ptr) } := by
  rw [State.advance,htext]

theorem advance_show {i n ptr : ℕ} {fresh : Option ℕ} {line : Line} (htext : line.texts[n]? = none) :
    s.advance i fresh (.formatting line n ptr) = some
      { s with out := s.out ++ [(i,line.stream,cStr (s.mem ptr))],
               threads := s.threads.set i (.returning ptr) } := by
  rw [State.advance,htext]

theorem advance_inv {fresh : Option ℕ} {i : ℕ} {place : Place} (h : Inv s)
    (hi : s.threads[i]? = some place) (ht : s.advance i fresh place = some t) : Inv t := by
  have hsaid := h.said i place hi
  cases place with
  | idle => cases ht
  | crashed line => cases ht
  | waiting line =>
    obtain ⟨pool,hpool,rfl⟩ := Option.map_eq_some_iff.mp ht
    exact h.wait hi hpool
  | clearing line ptr =>
    cases ptr with
    | none =>
      obtain rfl := Option.some.inj ht
      refine h.moved rfl h.pool h.alive ?_ (by simp [Place.holder]) (by simp) (fun j _ => ⟨rfl,rfl⟩) hsaid
      intro j place ptr hne hj hptr
      obtain ⟨hmem,hnew⟩ := h.others (.crashed line) hi (by simp [Place.holder]) hne hj hptr
      exact ⟨hmem,rfl,hnew⟩
    | some p =>
      obtain rfl := Option.some.inj ht
      refine h.moved rfl h.pool h.alive ?_ ?_ ?_ (fun j _ => ⟨rfl,rfl⟩) hsaid
      · intro j place ptr hne hj hptr
        obtain ⟨hmem,hnew⟩ := h.others (.formatting line 0 p) hi (fun _ hp => hp) hne hj hptr
        refine ⟨hmem,Function.update_of_ne ?_ ..,hnew⟩
        rintro rfl
        exact hnew rfl
      · exact fun ptr hptr => h.holds i _ ptr hi hptr
      · rintro line' n ptr hplace
        obtain ⟨rfl,rfl,rfl⟩ := by simpa using hplace
        simp
  | formatting line n p =>
    have hfilled := h.filled i line n p hi
    cases htext : line.texts[n]? with
    | some text =>
      obtain rfl := Option.some.inj ((advance_append htext).symm.trans ht)
      refine h.moved rfl h.pool h.alive ?_ ?_ ?_ (fun j _ => ⟨rfl,rfl⟩) hsaid
      · intro j place ptr hne hj hptr
        obtain ⟨hmem,hnew⟩ := h.others (.formatting line (n+1) p) hi (fun _ hp => hp) hne hj hptr
        refine ⟨hmem,Function.update_of_ne ?_ ..,hnew⟩
        rintro rfl
        exact hnew rfl
      · exact fun ptr hptr => h.holds i _ ptr hi hptr
      · rintro line' m ptr hplace
        obtain ⟨rfl,rfl,rfl⟩ := by simpa using hplace
        change Function.update s.mem p (s.mem p ++ text) p = _
        rw [Function.update_self,hfilled,List.take_add_one,htext]
        simp
    | none =>
      obtain rfl := Option.some.inj ((advance_show htext).symm.trans ht)
      have hall : line.texts.take n = line.texts := List.take_of_length_le (List.getElem?_eq_none_iff.mp htext)
      refine h.moved rfl h.pool h.alive ?_ ?_ (by simp) ?_ ?_
      · intro j place ptr hne hj hptr
        obtain ⟨hmem,hnew⟩ := h.others (.returning p) hi (fun _ hp => hp) hne hj hptr
        exact ⟨hmem,rfl,hnew⟩
      · exact fun ptr hptr => h.holds i _ ptr hi hptr
      · intro j hne
        refine ⟨(mine_append ..).trans ?_,rfl⟩
        rw [if_neg hne.symm,List.append_nil]
      · change mine (s.out ++ [_]) i ++ [] = (mine s.asked i).map Line.plain
        rw [mine_append,if_pos rfl,List.append_nil,hfilled,hall]
        exact hsaid
  | returning p =>
    obtain ⟨pool,hpool,rfl⟩ := Option.map_eq_some_iff.mp ht
    have hp := h.holds i _ p hi rfl
    obtain ⟨hraw,halive⟩ := ObjectsCache.set_raw hpool
    refine h.moved rfl (ObjectsCache.step_sound (e:=.set (some p)) h.pool hp hpool) halive ?_
      (by simp [Place.holder]) (by simp) (fun j _ => ⟨rfl,rfl⟩) hsaid
    intro j place ptr hne hj hptr
    have hother : ptr ≠ p := by
      rintro rfl
      exact hne (h.apart j i place _ ptr hj hi hptr rfl)
    refine ⟨?_,rfl,by simp [Place.holder]⟩
    rw [hraw]
    exact (List.mem_erase_of_ne hother).mpr (h.holds j place ptr hj hptr)

theorem step_inv {e : Event} (h : Inv s) (ht : step s e = some t) : Inv t := by
  unfold step at ht
  split at ht
  · cases ht
  · cases e with
    | setLogLvl level =>
      obtain rfl := Option.some.inj ht
      exact ⟨h.pool,h.alive,h.holds,h.apart,h.filled,h.said⟩
    | log i level now threadId args =>
      simp only [Option.ite_none_right_eq_some] at ht
      obtain ⟨hi,ht⟩ := ht
      split at ht
      · obtain rfl := Option.some.inj ht
        exact h
      · obtain rfl := Option.some.inj ht
        have hidle := h.said i _ hi
        refine h.moved rfl h.pool h.alive ?_ (by simp [Place.holder]) (by simp) ?_ ?_
        · intro j place ptr hne hj hptr
          exact ⟨h.holds j place ptr hj hptr,rfl,by simp [Place.holder]⟩
        · intro j hne
          refine ⟨rfl,(mine_append ..).trans ?_⟩
          rw [if_neg hne.symm,List.append_nil]
        · change mine s.out i ++ [_] = (mine (s.asked ++ [_]) i).map Line.plain
          rw [mine_append,if_pos rfl,List.map_append,← hidle]
          simp [Place.pending]
    | step i fresh =>
      obtain ⟨place,hi,hplace⟩ := Option.bind_eq_some_iff.mp ht
      exact advance_inv h hi hplace

theorem inv_init (h : system.init s) : Inv s := by
  obtain ⟨n,level,mem,rfl⟩ := h
  have hidle : ∀ (i : ℕ) place, (List.replicate n Place.idle)[i]? = some place → place = .idle :=
    fun i place hi => List.eq_of_mem_replicate (List.mem_of_getElem? hi)
  refine ⟨ObjectsCache.Sound.init rfl,rfl,?_,?_,?_,?_⟩
  · intro i place ptr hi hptr
    cases hidle i place hi
    cases hptr
  · intro i j p q ptr hi _ hp
    cases hidle i p hi
    cases hp
  · intro i line m ptr hi
    cases hidle i _ hi
  · intro i place hi
    cases hidle i place hi
    rfl

theorem inv_of_reachable (h : system.Reachable s) : Inv s :=
  h.invariant (fun _ => inv_init) fun _ _ _ hinv _ => step_inv hinv

/-- The thread has a null buffer or has used one. -/
def Place.lacks : Place → Bool
  | .clearing _ none | .crashed _ => true
  | _ => false

/-- The steps that are left of a call. -/
def Place.rank : Place → ℕ
  | .idle | .crashed _ | .clearing _ none => 0
  | .returning _ => 1
  | .formatting line n _ => line.texts.length-n+2
  | .clearing line (some _) => line.texts.length+3
  | .waiting line => line.texts.length+4

theorem exists_unused (pool : ObjectsCache.State) : ∃ ptr, pool.Unused (some ptr) := by
  obtain ⟨ptr,hptr⟩ := Infinite.exists_notMem_finset pool.live.toFinset
  refine ⟨ptr,fun a ha => ?_⟩
  obtain rfl := Option.some.inj ha
  simpa using hptr

theorem getRawPtr_some (pool : ObjectsCache.State) (ptr : ℕ) : ∃ p, (pool.getRawPtr (some ptr)).1 = some p := by
  unfold ObjectsCache.State.getRawPtr
  split <;> exact ⟨_,rfl⟩

/-- With memory for a new string, a thread in a call takes a step towards its end. -/
theorem advance_some {i : ℕ} {place : Place} (h : Inv s) (hi : s.threads[i]? = some place)
    (hplace : place ≠ .idle) (hlacks : place.lacks = false) : ∃ fresh t next,
    s.advance i fresh place = some t ∧ t.threads = s.threads.set i next ∧ t.asked = s.asked ∧
    next.lacks = false ∧ next.rank < place.rank := by
  cases place with
  | idle => exact absurd rfl hplace
  | crashed line => cases hlacks
  | waiting line =>
    obtain ⟨ptr,hunused⟩ := exists_unused s.pool
    obtain ⟨p,hp⟩ := getRawPtr_some s.pool ptr
    obtain ⟨pool,hpool⟩ := ObjectsCache.get_enabled h.alive hunused
    refine ⟨some ptr,_,.clearing line (some p),congrArg (Option.map _) hpool,?_,rfl,rfl,?_⟩
    · exact hp ▸ rfl
    · simp only [Place.rank]
      omega
  | clearing line ptr =>
    cases ptr with
    | none => cases hlacks
    | some p =>
      refine ⟨none,_,.formatting line 0 p,rfl,rfl,rfl,rfl,?_⟩
      simp only [Place.rank]
      omega
  | formatting line n p =>
    cases htext : line.texts[n]? with
    | some text =>
      have hlt := (List.getElem?_eq_some_iff.mp htext).1
      refine ⟨none,_,.formatting line (n+1) p,advance_append htext,rfl,rfl,rfl,?_⟩
      simp only [Place.rank]
      omega
    | none =>
      refine ⟨none,_,.returning p,advance_show htext,rfl,rfl,rfl,?_⟩
      simp only [Place.rank]
      omega
  | returning p =>
    obtain ⟨pool,hpool⟩ := ObjectsCache.set_enabled (some p) h.alive
    exact ⟨none,_,.idle,congrArg (Option.map _) hpool,rfl,rfl,rfl,Nat.one_pos⟩

theorem step_advance {i : ℕ} {place : Place} {fresh : Option ℕ} (hi : s.threads[i]? = some place)
    (hcrashed : s.threads.any Place.isCrashed = false) (ht : s.advance i fresh place = some t) :
    step s (.step i fresh) = some t := by
  rw [step,if_neg (by simp [hcrashed])]
  simpa [hi] using ht

theorem isCrashed_set {i : ℕ} {next : Place} (hcrashed : s.threads.any Place.isCrashed = false)
    (hnext : next.lacks = false) : (s.threads.set i next).any Place.isCrashed = false := by
  rw [List.any_eq_false] at hcrashed ⊢
  intro p hp
  rcases List.mem_or_eq_of_mem_set hp with hp | rfl
  · exact hcrashed p hp
  · cases p with
    | crashed line => cases hnext
    | idle | waiting | clearing | formatting | returning => exact Bool.false_ne_true

theorem call_ends (n : ℕ) {i : ℕ} {place : Place} (h : Inv s) (hi : s.threads[i]? = some place)
    (hlacks : place.lacks = false) (hcrashed : s.threads.any Place.isCrashed = false)
    (hn : place.rank < n) : ∃ es t,
    (∀ e ∈ es, ∃ fresh, e = .step i fresh) ∧ system.exec s es = some t ∧
    t.threads = s.threads.set i .idle ∧ t.asked = s.asked := by
  induction n generalizing s place with
  | zero => exact absurd hn (Nat.not_lt_zero _)
  | succ n ih =>
    by_cases hplace : place = .idle
    · subst hplace
      exact ⟨[],s,by simp,rfl,(Threads.set_self hi).symm,rfl⟩
    · obtain ⟨fresh,u,next,hu,hthreads,hasked,hnext,hrank⟩ := advance_some h hi hplace hlacks
      have hlt := (List.getElem?_eq_some_iff.mp hi).1
      have hui : u.threads[i]? = some next := by rw [hthreads,List.getElem?_set_self hlt]
      have hucrashed : u.threads.any Place.isCrashed = false := hthreads ▸ isCrashed_set hcrashed hnext
      obtain ⟨es,t,hes,ht,hend,hasked'⟩ := ih (advance_inv h hi hu) hui hnext hucrashed (by omega)
      refine ⟨.step i fresh::es,t,?_,?_,?_,hasked'.trans hasked⟩
      · intro e he
        rcases List.mem_cons.mp he with rfl | he
        · exact ⟨fresh,rfl⟩
        · exact hes e he
      · exact Option.bind_eq_some_iff.mpr ⟨u,step_advance hi hcrashed hu,ht⟩
      · rw [hend,hthreads,List.set_set]

/-- What thread `i` can count on: its lines are its calls in their order, each as a string
of its own would give it, but for the call it is in; nobody else has its buffer; and unless
there was no memory for its string, or a thread has crashed, it can finish by itself. -/
structure Whole (s : State) (i : ℕ) (place : Place) : Prop where
  lines : mine s.out i ++ place.pending.map Line.plain = (mine s.asked i).map Line.plain
  alone : ∀ (j : ℕ) other ptr, s.threads[j]? = some other → place.holder = some ptr →
    other.holder = some ptr → j = i
  ends : place.lacks = false → s.threads.any Place.isCrashed = false → ∃ es t,
    (∀ e ∈ es, ∃ fresh, e = .step i fresh) ∧ system.exec s es = some t ∧
    t.threads = s.threads.set i .idle ∧ mine t.out i = (mine s.asked i).map Line.plain

/-- A warning, an error that takes the warning's buffer, and a second warning on its way. -/
def sampleRun : List Event :=
  .log 0 .trace [] [] []::.log 0 .warning [49] [48] [[97]]::List.replicate 11 (.step 0 (some 7)) ++
    .log 1 .error [50] [49] [[98],[99]]::.step 1 none::.log 0 .warning [51] [48] []::.step 0 (some 8)::
      List.replicate 9 (.step 1 none)

def sampleStart : State := ⟨0x0E,empty,fun _ => [],[.idle,.idle],[],[]⟩

def sampleEnd : State := (system.exec sampleStart sampleRun).get (by decide)

end Log
end SdkCp
