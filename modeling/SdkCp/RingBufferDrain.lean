import SdkCp.RingBufferProgress
import SdkCp.Termination

/-! A consumer drains a `ring_buffer` by itself. After a bounded number of looks `peek` and
`free` come to an empty buffer or to a block that is still being filled. In an empty buffer
all committed payloads have been delivered, and the `allocate` that waited finds room. -/
namespace SdkCp
namespace RingBuffer

open TransitionSystem

variable {cfg : Config}

/-- The bytes from an index of the consumer to the write index. -/
def State.ahead (cfg : Config) (s : State) (ix : ℕ) : ℕ := cfg.sub s.buf.ixWrite ix

/-- The looks that are left, by the bytes that are left. Between two `peek`s the consumer may
step over the same blocks twice. -/
def State.work (cfg : Config) (s : State) : ℕ :=
  let held := s.ahead cfg s.buf.ixRead
  let round := 2*cfg.size+8
  match s.reader with
  | .idle => held*round
  | .peeking ix => (held-1)*round+cfg.size+5+s.ahead cfg ix
  | .peeked _ _ => (held-1)*round+cfg.size+3
  | .freeing ix _ => (held-1)*round+1+s.ahead cfg ix

/-- `peek` stands at a block that is still being filled. -/
def Spins (cfg : Config) (s : State) : Prop := ∃ ix, s.reader = .peeking ix ∧ s.buf.ixWrite ≠ ix ∧
  (getFirstBlock cfg s.buf.mem ix).1 = .busy

/-- The consumer frees what it peeks, and looks again unless it has caught up or spins. -/
def Consumes (cfg : Config) (s : State) : Event → Prop
  | .peek => s.reader = .idle ∧ ¬CaughtUp s
  | .peekStep => ¬Spins cfg s
  | .free | .freeStep => True
  | _ => False

def Settled (s : State) : Prop := ∀ e ∈ s.log, e.state ≠ .busy

instance (s : State) : Decidable (CaughtUp s) := inferInstanceAs (Decidable (_ = _))

section Looks

variable {s t : State} {R W k : ℕ} {pre post : List Seg}

theorem InvAt.ahead_eq (h : InvAt cfg s R W (pre++post) k) :
    s.ahead cfg ((R+segsLen cfg pre) % 2^cfg.wordBits) = segsLen cfg post := by
  have htot := h.total
  have hroom := h.room
  have hsz := cfg.size_le
  have hword := cfg.word_ge
  rw [segsLen_append] at htot
  rw [State.ahead,h.write,cfg.sub_mod_word (by omega) (by omega)]
  omega

theorem InvAt.held_eq {ss : List Seg} (h : InvAt cfg s R W ss k) :
    s.ahead cfg s.buf.ixRead = segsLen cfg ss := by
  have hread := h.read
  rw [hread]
  exact (show InvAt cfg s R W ([] ++ ss) k from h).ahead_eq

theorem Inv.not_spins (h : Inv cfg s) (hsettled : Settled s) : ¬Spins cfg s := by
  rintro ⟨ix,hreader,hne,hbusy⟩
  obtain ⟨R,W,ss,k,h⟩ := h
  have hr := h.reader
  rw [hreader] at hr
  obtain ⟨pre,post,rfl,-,rfl⟩ := hr
  cases post with
  | nil => exact hne (h.write_eq_iff.mpr rfl)
  | cons sg rest =>
    rw [getFirstBlock_at (chain_append.mp h.chain).2.1] at hbusy
    cases sg with
    | filler n => cases hbusy
    | block e =>
      have hmem : e ∈ s.log.drop k := by
        rw [← h.entries]
        simp
      have hst := hsettled e (List.mem_of_mem_drop hmem)
      cases hstate : e.state <;> simp [Seg.found,hstate] at hbusy hst

theorem InvAt.peek_look (h : InvAt cfg s R W (pre++post) k)
    (hr : s.reader = .peeking ((R+segsLen cfg pre) % 2^cfg.wordBits)) (hlook : ¬Spins cfg s)
    (hs : stepPeek cfg s = some t) : t.log = s.log ∧ t.buf.ixWrite = s.buf.ixWrite ∧
      ((post = [] ∧ t.reader = .idle ∧ t.buf.ixRead = s.buf.ixWrite) ∨ t.buf.ixRead = s.buf.ixRead ∧
        ∃ sg rest, post = sg::rest ∧ (t.reader = .peeking ((R+segsLen cfg (pre++[sg])) % 2^cfg.wordBits) ∨
          ∃ ptr n, t.reader = .peeked ptr n)) := by
  simp only [stepPeek,hr] at hs
  split at hs
  · rename_i heq
    obtain rfl := h.write_eq_iff.mp heq
    obtain rfl := Option.some.inj hs
    refine ⟨rfl,rfl,.inl ⟨rfl,rfl,?_⟩⟩
    have htot := h.total
    have hroom := h.room
    have hsz := cfg.size_le
    have hword := cfg.word_ge
    rw [List.append_nil] at htot
    simp only [advanceRead,h.read,h.write]
    rw [cfg.sub_mod_word (by omega) (by omega),cfg.add_mod_word]
    congr 1
    omega
  · rename_i hne
    cases post with
    | nil => exact absurd (h.write_eq_iff.mpr rfl) hne
    | cons sg rest =>
      have hat := (chain_append.mp h.chain).2.1
      have hbusy : sg.found cfg (R+segsLen cfg pre) ≠ .busy := fun hbusy =>
        hlook ⟨_,hr,hne,by rw [getFirstBlock_at hat]; exact hbusy⟩
      rw [getFirstBlock_at hat] at hs
      by_cases hp : sg.Passed
      · simp only [Seg.found_of_passed hp,Bool.and_true] at hs
        obtain rfl := Option.some.inj hs
        refine ⟨rfl,rfl,.inr ⟨rfl,sg,rest,rfl,.inl ?_⟩⟩
        simp [Nat.add_assoc]
      · cases sg with
        | filler n => exact absurd trivial hp
        | block e =>
          cases hst : e.state <;> simp only [Seg.found,hst,Bool.and_true] at hs
          case busy => exact absurd (by simp only [Seg.found,hst]) hbusy
          case fake => exact absurd hst hat.2.2.2.2.2.1
          case commited =>
            obtain rfl := Option.some.inj hs
            exact ⟨rfl,rfl,.inr ⟨rfl,_,rest,rfl,.inr ⟨_,_,rfl⟩⟩⟩
          case skipped => exact absurd hst hp

theorem peek_work (h : Inv cfg s) (hlook : ¬Spins cfg s) (hs : stepPeek cfg s = some t) :
    t.work cfg < s.work cfg ∧ t.log = s.log := by
  obtain ⟨R,W,ss,k,h⟩ := h
  have hr := h.reader
  cases hreader : s.reader with
  | idle => simp [stepPeek,hreader] at hs
  | peeked ptr n => simp [stepPeek,hreader] at hs
  | freeing ix payload => simp [stepPeek,hreader] at hs
  | peeking ix =>
    rw [hreader] at hr
    obtain ⟨pre,post,rfl,-,rfl⟩ := hr
    have hahead := h.ahead_eq
    obtain ⟨hlog,hwrite,⟨rfl,hidle,hread⟩ | ⟨hread,sg,rest,rfl,hnext⟩⟩ := h.peek_look hreader hlook hs
    · refine ⟨?_,hlog⟩
      have hzero : t.ahead cfg t.buf.ixRead = 0 := by
        rw [State.ahead,hread,hwrite,h.write,cfg.sub_mod_word le_rfl (by simp),Nat.sub_self]
      simp only [State.work,hidle,hreader,hzero]
      omega
    · refine ⟨?_,hlog⟩
      have hpos := (chain_append.mp h.chain).2.2.2.1
      have h₁ : InvAt cfg s R W ((pre++[sg])++rest) k := by simpa using h
      have hahead₁ := h₁.ahead_eq
      rw [segsLen_cons] at hahead
      rcases hnext with hnext | ⟨ptr,n,hnext⟩
      · simp only [State.work,hnext,hreader,State.ahead,hwrite,hread] at hahead hahead₁ ⊢
        omega
      · simp only [State.work,hnext,hreader,State.ahead,hwrite,hread]
        omega

theorem free_work (h : Inv cfg s) (hs : stepFree cfg s = some t) :
    t.work cfg < s.work cfg ∧ t.log = s.log := by
  obtain ⟨R,W,ss,k,h⟩ := h
  have hr := h.reader
  cases hreader : s.reader with
  | idle => simp [stepFree,hreader] at hs
  | peeked ptr n => simp [stepFree,hreader] at hs
  | peeking ix => simp [stepFree,hreader] at hs
  | freeing ix payload =>
    rw [hreader] at hr
    obtain ⟨pre,mid,c,post,rfl,-,hmid,hc,-,rfl⟩ := hr
    have hheld := h.held_eq
    have hne : s.buf.ixWrite ≠ (R+segsLen cfg pre) % 2^cfg.wordBits := fun heq => by
      have hnil := h.write_eq_iff.mp heq
      simp at hnil
    simp only [stepFree,hreader,if_neg hne] at hs
    cases mid with
    | cons sg mid =>
      have hat := (chain_append.mp h.chain).2.1
      have hpos := (chain_append.mp h.chain).2.2.2.1
      have hp : sg.Passed := hmid sg (by simp)
      rw [getFirstBlock_at hat] at hs
      simp only [Seg.found_of_passed hp,Bool.and_true] at hs
      obtain rfl := Option.some.inj hs
      refine ⟨?_,rfl⟩
      have hahead := h.ahead_eq
      have h₁ : InvAt cfg s R W ((pre++[sg])++(mid++.block c::post)) k := by simpa using h
      have hahead₁ := h₁.ahead_eq
      simp only [List.cons_append,segsLen_cons] at hahead
      rw [segsLen_append,segsLen_cons,segsLen_nil,Nat.add_zero,← Nat.add_assoc] at hahead₁
      simp only [State.work,hreader,State.ahead] at hahead hahead₁ ⊢
      omega
    | nil =>
      have hat := (chain_append.mp h.chain).2.1
      rw [List.nil_append] at h hheld
      rw [getFirstBlock_at hat] at hs
      simp only [Seg.found,hc,Bool.and_true] at hs
      obtain rfl := Option.some.inj hs
      have htot := h.total
      have hroom := h.room
      have hsz := cfg.size_le
      have hword := cfg.word_ge
      have hpos := (chain_append.mp h.chain).2.2.2.1
      simp only [Seg.len] at hpos
      simp only [segsLen_append,segsLen_cons,Seg.len] at htot hheld
      have hadvance : (advanceRead cfg s.buf ((R+segsLen cfg pre+(cfg.kOverhead+c.size)) % 2^cfg.wordBits)).ixRead =
          (R+segsLen cfg pre+(cfg.kOverhead+c.size)) % 2^cfg.wordBits := by
        simp only [advanceRead,h.read]
        rw [cfg.sub_mod_word (by omega) (by omega),cfg.add_mod_word]
        congr 1
        omega
      have hahead : cfg.sub s.buf.ixWrite ((R+segsLen cfg pre+(cfg.kOverhead+c.size)) % 2^cfg.wordBits) =
          segsLen cfg post := by
        rw [h.write,cfg.sub_mod_word (by omega) (by omega)]
        omega
      have hround : segsLen cfg post*(2*cfg.size+8) ≤ (s.ahead cfg s.buf.ixRead-1)*(2*cfg.size+8) :=
        Nat.mul_le_mul_right _ (by omega)
      refine ⟨?_,rfl⟩
      simp only [State.work,hreader]
      rw [State.ahead,hadvance]
      change cfg.sub s.buf.ixWrite _*_ < _
      rw [hahead]
      omega

theorem consumes_lowers : (system cfg).Lowers (Consumes cfg) (Inv cfg) (State.work cfg) := by
  rintro s e t ⟨R,W,ss,k,h⟩ hon hs
  have hheld := h.held_eq
  have hle : segsLen cfg ss ≤ cfg.size := by
    have htot := h.total
    have hroom := h.room
    omega
  cases e with
  | peek =>
    obtain ⟨hidle,hcaught⟩ := hon
    simp only [system,step,hidle,Option.some.injEq] at hs
    subst hs
    refine ⟨inv_peek_begin ⟨R,W,ss,k,h⟩,?_⟩
    have hne : ss ≠ [] := by
      rintro rfl
      have htot := h.total
      rw [segsLen_nil,Nat.add_zero] at htot
      exact hcaught (h.read.trans (htot ▸ h.write.symm))
    obtain ⟨d,hd⟩ := Nat.exists_eq_succ_of_ne_zero (h.chain.segsLen_pos hne).ne'
    simp only [State.work,hidle]
    change (s.ahead cfg s.buf.ixRead-1)*_+_+_+s.ahead cfg s.buf.ixRead < _
    have hround : (d+1)*(2*cfg.size+8) = d*(2*cfg.size+8)+(2*cfg.size+8) := Nat.succ_mul ..
    rw [hheld,hd,Nat.succ_sub_one,Nat.succ_eq_add_one]
    omega
  | peekStep => exact ⟨inv_peek ⟨R,W,ss,k,h⟩ hs,(peek_work ⟨R,W,ss,k,h⟩ hon hs).1⟩
  | free =>
    simp only [system,step] at hs
    split at hs
    · rename_i ptr n hr
      obtain rfl := Option.some.inj hs
      refine ⟨inv_free_begin ⟨R,W,ss,k,h⟩ hr,?_⟩
      simp only [State.work,hr]
      change (s.ahead cfg s.buf.ixRead-1)*_+_+s.ahead cfg s.buf.ixRead < _
      rw [hheld]
      omega
    · cases hs
  | freeStep => exact ⟨inv_free ⟨R,W,ss,k,h⟩ hs,(free_work ⟨R,W,ss,k,h⟩ hs).1⟩
  | _ => exact absurd hon id

/-- The consumer has come to an empty buffer: every committed payload was delivered, in
order, and an `allocate` under way finds room. -/
structure Emptied (cfg : Config) (s : State) : Prop where
  reader : s.reader = .idle
  caught : CaughtUp s
  delivered : List.Forall₂ Delivers (committed s.log) s.delivered
  room : FindsRoom cfg s

theorem emptied_of_caughtUp (h16 : cfg.kSlotBound = 4) (h : (system cfg).Reachable s)
    (hreader : s.reader = .idle) (hcaught : CaughtUp s) : Emptied cfg s := by
  obtain ⟨⟨R,W,ss,k,hinv⟩,hoff⟩ := inv_endOffset h16 h
  refine ⟨hreader,hcaught,?_,hinv.findsRoom h16 hoff hcaught⟩
  -- nothing is left in the chain, so the whole log is behind the consumer
  have hdrop := hinv.entries
  rw [hinv.segs_nil hcaught] at hdrop
  have hall : s.log.take k = s.log :=
    List.take_of_length_le (List.drop_eq_nil_iff.mp hdrop.symm)
  exact hall ▸ hinv.delivered

theorem stepPeek_ne_none {ix : ℕ} (hr : s.reader = .peeking ix) : stepPeek cfg s ≠ none := by
  simp only [stepPeek,hr]
  split
  · exact Option.some_ne_none _
  · split <;> exact Option.some_ne_none _

theorem stepFree_ne_none {ix : ℕ} {payload : List UInt8} (hr : s.reader = .freeing ix payload) :
    stepFree cfg s ≠ none := by
  simp only [stepFree,hr]
  split
  · exact Option.some_ne_none _
  · split <;> exact Option.some_ne_none _

theorem emptied_of_rest (h16 : cfg.kSlotBound = 4) (h : (system cfg).Reachable s)
    (hrest : (system cfg).AtRest (Consumes cfg) s) : Emptied cfg s ∨ Spins cfg s := by
  cases hr : s.reader with
  | idle =>
    refine .inl (emptied_of_caughtUp h16 h hr ?_)
    by_contra hcaught
    have hstep := hrest .peek ⟨hr,hcaught⟩
    simp [system,step,hr] at hstep
  | peeking ix =>
    by_contra hno
    exact stepPeek_ne_none hr (hrest .peekStep fun hspins => hno (.inr hspins))
  | peeked ptr n =>
    have hstep := hrest .free trivial
    simp [system,step,hr] at hstep
  | freeing ix payload => exact absurd (hrest .freeStep trivial) (stepFree_ne_none hr)

theorem consumes_log {es : List Event} (hes : (system cfg).Allowed (Consumes cfg) s es)
    (ht : (system cfg).exec s es = some t) : t.log = s.log := by
  induction es generalizing s with
  | nil =>
    obtain rfl := Option.some.inj ht
    rfl
  | cons e es ih =>
    obtain ⟨u,hu,ht⟩ := Option.bind_eq_some_iff.mp ht
    refine (ih (hes.2 u hu) ht).trans ?_
    have hon := hes.1
    have hcons : e.isConsumer = true := by
      cases e <;> first | rfl | exact absurd hon id
    cases step_changes hu with
    | consumer hev => rfl
    | writer hev => cases e <;> simp [Event.isAllocate,Event.isConsumer] at hev hcons
    | publish he => cases hcons
    | block hi hbusy hev => rcases hev with ⟨⟨off,b,rfl⟩,-⟩ | ⟨rfl,-⟩ | ⟨rfl,-⟩ <;> cases hcons

/-- From every reachable state the consumer alone comes to rest after a number of looks that
`work` bounds, at an empty buffer or at a busy block; where no block is busy it can empty it. -/
theorem consumer_drains (h16 : cfg.kSlotBound = 4) (h : (system cfg).Reachable s) :
    (∀ es t, (system cfg).Allowed (Consumes cfg) s es → (system cfg).exec s es = some t →
      es.length ≤ s.work cfg ∧
      ((system cfg).AtRest (Consumes cfg) t → Emptied cfg t ∨ Spins cfg t ∧ ¬Settled s)) ∧
    ∃ es t, (system cfg).Allowed (Consumes cfg) s es ∧ (system cfg).exec s es = some t ∧
      (Emptied cfg t ∨ Spins cfg t ∧ ¬Settled s) := by
  have hinv : Inv cfg s := inv_reachable (Config.prefixSize_eq h16.ge) h
  have hends {es : List Event} {t : State} (hes : (system cfg).Allowed (Consumes cfg) s es)
      (ht : (system cfg).exec s es = some t) (hrest : (system cfg).AtRest (Consumes cfg) t) :
      Emptied cfg t ∨ Spins cfg t ∧ ¬Settled s := by
    have hreach : (system cfg).Reachable t := h.exec (fun _ _ _ => trivial) ht
    refine (emptied_of_rest h16 hreach hrest).imp_right fun hspins => ⟨hspins,fun hsettled => ?_⟩
    have hinv : Inv cfg t := inv_reachable (Config.prefixSize_eq h16.ge) hreach
    exact hinv.not_spins (by rwa [Settled,consumes_log hes ht]) hspins
  refine ⟨fun es t hes ht => ⟨?_,hends hes ht⟩,?_⟩
  · obtain ⟨-,hle⟩ := consumes_lowers.exec hinv hes ht
    omega
  · obtain ⟨es,t,hes,ht,-,hrest⟩ := consumes_lowers.exists_rest hinv
    exact ⟨es,t,hes,ht,hends hes ht hrest⟩

/-- The running `allocate` looks again later. -/
def Waits (cfg : Config) (s : State) : Prop :=
  (∃ f, s.writer = .border f ∧ f.noWait = false ∧ borderTaken cfg s.buf f = true) ∨
  ∃ f, s.writer = .finish f ∧ f.noWait = false ∧ endTaken cfg s.buf f = true

theorem FindsRoom.not_waits (h : FindsRoom cfg s) : ¬Waits cfg s := by
  rintro (⟨f,hw,-,htaken⟩ | ⟨f,hw,-,htaken⟩)
  · rw [h.border f hw] at htaken
    cases htaken
  · rw [h.finish f hw] at htaken
    cases htaken

/-- A look of `allocate` that does not wait wraps, gives up or publishes. -/
theorem stepAllocate_cases (hs : stepAllocate cfg s = some t) (hlook : ¬Waits cfg s) :
    (∃ f g, s.writer = .border f ∧ t.writer = .finish g ∧ t.log = s.log) ∨
    s.writer ≠ .idle ∧ t.writer = .idle ∧
      (t.log = s.log ∨ ∃ e, e.state = .busy ∧ t.log = s.log ++ [e]) := by
  simp only [stepAllocate] at hs
  split at hs
  · cases hs
  · rename_i f hw
    split at hs
    · rename_i htaken
      split at hs
      · obtain rfl := Option.some.inj hs
        exact .inr ⟨by simp [hw],rfl,.inl rfl⟩
      · rename_i hwait
        exact absurd (.inl ⟨f,hw,by simpa using hwait,htaken⟩) hlook
    · obtain rfl := Option.some.inj hs
      exact .inl ⟨f,_,hw,rfl,rfl⟩
  · rename_i f hw
    split at hs
    · rename_i htaken
      split at hs
      · obtain rfl := Option.some.inj hs
        exact .inr ⟨by simp [hw],rfl,.inl rfl⟩
      · rename_i hwait
        exact absurd (.inr ⟨f,hw,by simpa using hwait,htaken⟩) hlook
    · obtain rfl := Option.some.inj hs
      exact .inr ⟨by simp [hw],rfl,.inr ⟨_,rfl,rfl⟩⟩

theorem stepAllocate_waits (hs : stepAllocate cfg s = some t) (hlook : Waits cfg s) :
    t = s ∧ s.writer ≠ .idle := by
  simp only [stepAllocate] at hs
  rcases hlook with ⟨f,hw,hwait,htaken⟩ | ⟨f,hw,hwait,htaken⟩
  · simp only [hw,htaken,hwait,if_true,Bool.false_eq_true,if_false] at hs
    exact ⟨(Option.some.inj hs).symm,by simp [hw]⟩
  · simp only [hw,htaken,hwait,if_true,Bool.false_eq_true,if_false] at hs
    exact ⟨(Option.some.inj hs).symm,by simp [hw]⟩

theorem stepAllocate_ne_none (hw : s.writer ≠ .idle) : stepAllocate cfg s ≠ none := by
  unfold stepAllocate
  split
  · rename_i hidle
    exact absurd hidle hw
  · split
    · split <;> exact Option.some_ne_none _
    · exact Option.some_ne_none _
  · split
    · split <;> exact Option.some_ne_none _
    · exact Option.some_ne_none _

theorem peek_caughtUp (h : Inv cfg s) (hcaught : CaughtUp s) :
    State.work cfg { s with reader := .peeking s.buf.ixRead } = cfg.size+5 := by
  obtain ⟨R,W,ss,k,h⟩ := h
  have hzero : s.ahead cfg s.buf.ixRead = 0 := by
    rw [h.held_eq,h.segs_nil hcaught]
    rfl
  change (s.ahead cfg s.buf.ixRead-1)*_+_+_+s.ahead cfg s.buf.ixRead = _
  rw [hzero]
  omega

theorem peek_ends (h : Inv cfg s) (hlook : ¬Spins cfg s) (hs : stepPeek cfg s = some t) :
    t.reader = .idle ∧ CaughtUp t ∨ t.reader ≠ .idle ∧ ¬CaughtUp s ∧ ¬CaughtUp t := by
  obtain ⟨R,W,ss,k,h⟩ := h
  have hr := h.reader
  cases hreader : s.reader with
  | idle => simp [stepPeek,hreader] at hs
  | peeked ptr n => simp [stepPeek,hreader] at hs
  | freeing ix payload => simp [stepPeek,hreader] at hs
  | peeking ix =>
    rw [hreader] at hr
    obtain ⟨pre,post,rfl,-,rfl⟩ := hr
    obtain ⟨-,hwrite,⟨-,hidle,hread⟩ | ⟨hread,sg,rest,rfl,hnext⟩⟩ := h.peek_look hreader hlook hs
    · exact .inl ⟨hidle,hread.trans hwrite.symm⟩
    · have hbehind : ¬CaughtUp s := fun hcaught => by
        have hnil := h.segs_nil hcaught
        simp at hnil
      refine .inr ⟨?_,hbehind,fun hcaught => hbehind (hread.symm.trans (hcaught.trans hwrite))⟩
      rcases hnext with hnext | ⟨ptr,n,hnext⟩ <;> simp [hnext]

theorem work_le (h : Inv cfg s) : s.work cfg ≤ cfg.size*(2*cfg.size+8)+2*cfg.size+5 := by
  obtain ⟨R,W,ss,k,h⟩ := h
  have hheld := h.held_eq
  have hle : segsLen cfg ss ≤ cfg.size := by
    have htot := h.total
    have hroom := h.room
    omega
  have hround : (segsLen cfg ss-1)*(2*cfg.size+8) ≤ cfg.size*(2*cfg.size+8) :=
    Nat.mul_le_mul_right _ (by omega)
  have hahead {pre post : List Seg} (hss : ss = pre++post) :
      s.ahead cfg ((R+segsLen cfg pre) % 2^cfg.wordBits) ≤ cfg.size := by
    subst hss
    rw [h.ahead_eq]
    rw [segsLen_append] at hle
    omega
  have hr := h.reader
  cases hreader : s.reader with
  | idle =>
    simp only [State.work,hreader,hheld]
    have := Nat.mul_le_mul_right (2*cfg.size+8) hle
    omega
  | peeked ptr n =>
    simp only [State.work,hreader,hheld]
    omega
  | peeking ix =>
    rw [hreader] at hr
    obtain ⟨pre,post,hss,-,rfl⟩ := hr
    have := hahead hss
    simp only [State.work,hreader,hheld]
    omega
  | freeing ix payload =>
    rw [hreader] at hr
    obtain ⟨pre,mid,c,post,hss,-,-,-,-,rfl⟩ := hr
    have := hahead hss
    simp only [State.work,hreader,hheld]
    omega

end Looks

/-- A committed block fills the smallest guarded buffer up to a waiting `allocate`. -/
theorem consumer_drains_waiting : ∃ s, (system guarded64).exec initial [.allocate 16 true,.allocateStep,.commit 0,
      .allocate 16 false,.allocateStep] = some s ∧ s.writer.isIdle = false ∧
    ∃ es t, (system guarded64).Allowed (Consumes guarded64) s es ∧ (system guarded64).exec s es = some t ∧
      Emptied guarded64 t := by
  have hrun : ((system guarded64).exec initial [.allocate 16 true,.allocateStep,.commit 0,.allocate 16 false,
      .allocateStep]).map (fun s => (s.log.map (·.state),s.writer.isIdle)) = some ([.commited],false) := by decide
  obtain ⟨s,hs,hfacts⟩ := Option.map_eq_some_iff.mp hrun
  obtain ⟨hstates,hwaits⟩ := Prod.mk.inj hfacts
  have hsettled : Settled s := by
    intro e he hbusy
    have hmem : e.state ∈ s.log.map (·.state) := List.mem_map_of_mem he
    rw [hstates,List.mem_singleton,hbusy] at hmem
    cases hmem
  have hreach : (system guarded64).Reachable s := .exec (fun _ _ _ => trivial) (.init rfl) hs
  obtain ⟨-,es,t,hes,ht,hends⟩ := consumer_drains (show guarded64.kSlotBound = 4 from rfl) hreach
  exact ⟨s,hs,hwaits,es,t,hes,ht,hends.resolve_right fun hno => hno.2 hsettled⟩

end RingBuffer
end SdkCp
