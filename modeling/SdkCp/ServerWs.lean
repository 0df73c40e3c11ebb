import SdkCp.TransitionSystem
import SdkCp.Threads

/-! The connection registry of `server_ws` (web_server/server_ws_win.hpp): users enter
`pending_list` when they are accepted and are erased by `on_disconnect`, which only the
peer's close reaches; `user_t::disconnect` frees the `bufferevent` and erases nothing. -/
namespace SdkCp
namespace ServerWs

open Threads TransitionSystem

/-- The connection of a user: its live `bufferevent`, none (`disconnect` freed it, or
`ws_conn_new` made no connection to attach it to), or gone with its peer, which destroys the user
if no handler keeps it. -/
inductive Connection
  | live | null | destroyed
  deriving DecidableEq

/-- How `on_request` ends. -/
inductive Result
  | returned (result : Bool)
  | threw
  deriving DecidableEq

/-- What becomes of a complete message in `on_frame_recv`: the parser refuses it or raises, or the
handler disconnects users it was given, leaves a scalar in the response of its worker or not, and
ends. -/
inductive Outcome
  | parseFailed
  | parsed (result : Result) (disconnects : List ℕ) (scalar : Bool)
  deriving DecidableEq

/-- The users in the order of their creation, and the keys of `pending_list`, which owns them. -/
structure Registry where
  users : List Connection
  pendingList : List ℕ

/-- `ixs` are the workers that accepted the users, `scalar` the workers whose response is a scalar. -/
structure State (n : ℕ) where
  registry : Registry
  ixs : List (Fin n)
  scalar : Fin n → Bool

/-- `accept` tells whether `ws_conn_new` returned a connection; `disconnect` is a handler's, outside
of its calls. -/
inductive Event (n : ℕ)
  | accept (ix : Fin n) (wscon : Bool)
  | message (u : ℕ) (outcome : Outcome)
  | disconnect (u : ℕ)
  | peerClose (u : ℕ)
  deriving DecidableEq

/-- `_listencb`: insert the user, attach the `bufferevent`, start handling. -/
def listencb (r : Registry) (wscon : Bool) : Registry where
  users := r.users ++ [if wscon then .live else .null]
  pendingList := r.pendingList ++ [r.users.length]

def disconnect (r : Registry) (u : ℕ) : Registry :=
  if r.users[u]? = some .live then { r with users := r.users.set u .null } else r

/-- `_on_user_disconnect`: the callback bound to `on_disconnect` erases the user, whose
last owner was the list; `~user_t` frees the connection. -/
def onUserDisconnect (r : Registry) (u : ℕ) : Registry where
  users := r.users.set u .destroyed
  pendingList := r.pendingList.filter (· ≠ u)

variable {n : ℕ}

/-- The callback bound to `on_frame_recv` of a user of worker `ix`. -/
def onFrameRecv (s : State n) (u : ℕ) (ix : Fin n) : Outcome → State n
  | .parseFailed => { s with registry := disconnect s.registry u }
  | .parsed result disconnects scalar =>
    -- `response.clear()` raises on a scalar, behind the catch the user is disconnected
    if s.scalar ix then { s with registry := disconnect s.registry u }
    else
      let registry := disconnects.foldl disconnect s.registry
      { s with
        registry := match result with
          | .returned _ => registry
          | .threw => disconnect registry u
        scalar := Function.update s.scalar ix scalar }

/-- A freed `bufferevent` has no events. -/
def step (s : State n) : Event n → Option (State n)
  | .accept ix wscon =>
    some { s with registry := listencb s.registry wscon, ixs := s.ixs ++ [ix] }
  | .message u outcome =>
    if s.registry.users[u]? = some .live then
      (s.ixs[u]?).map fun ix => onFrameRecv s u ix outcome
    else none
  | .disconnect u => some { s with registry := disconnect s.registry u }
  | .peerClose u =>
    if s.registry.users[u]? = some .live then
      some { s with registry := onUserDisconnect s.registry u }
    else none

def initial : State n := ⟨⟨[],[]⟩,[],fun _ => false⟩

def system : TransitionSystem (State n) (Event n) where
  init s := s = initial
  step := step

/-- `pending_list` holds exactly the users with a live `bufferevent`, each once. -/
structure Registered (r : Registry) : Prop where
  mem_iff : ∀ u, u ∈ r.pendingList ↔ r.users[u]? = some .live
  nodup : r.pendingList.Nodup

/-- The server does not free a connection itself, and has one to attach. -/
def keeps (s : State n) : Event n → Bool
  | .accept _ wscon => wscon
  | .message _ .parseFailed | .message _ (.parsed .threw _ _) => false
  | .message u (.parsed (.returned _) disconnects _) =>
    (s.ixs[u]?).all (fun ix => !s.scalar ix) &&
      disconnects.all fun v => decide (s.registry.users[v]? ≠ some .live)
  | .disconnect u => decide (s.registry.users[u]? ≠ some .live)
  | .peerClose _ => true

theorem getElem?_set_of_live {l : List Connection} {u v : ℕ} {c : Connection}
    (h : l[u]? = some .live) :
    (l.set u c)[v]? = if u = v then some c else l[v]? := by
  rw [List.getElem?_set]
  split
  · rw [if_pos (List.getElem?_eq_some_iff.mp h).1]
  · rfl

/-- The list owns the users: it holds those that are not destroyed. -/
structure Owned (r : Registry) : Prop where
  mem_iff : ∀ u, u ∈ r.pendingList ↔ ∃ c, r.users[u]? = some c ∧ c ≠ .destroyed
  nodup : r.pendingList.Nodup

theorem owned_initial : Owned ⟨[],[]⟩ := ⟨by simp,by simp⟩

theorem Owned.listencb {r : Registry} (h : Owned r) (wscon : Bool) : Owned (listencb r wscon) where
  mem_iff u := by
    simp only [ServerWs.listencb,List.mem_append,List.mem_singleton,getElem?_concat]
    by_cases hu : u = r.users.length
    · cases wscon <;> simp [hu]
    · simp [hu,h.mem_iff]
  nodup := by
    refine List.nodup_append.mpr ⟨h.nodup,by simp,fun u hu v hv => ?_⟩
    obtain rfl := List.mem_singleton.mp hv
    obtain ⟨c,hc,-⟩ := (h.mem_iff u).mp hu
    exact (List.getElem?_eq_some_iff.mp hc).1.ne

theorem Owned.disconnect {r : Registry} (h : Owned r) (u : ℕ) : Owned (disconnect r u) := by
  unfold ServerWs.disconnect
  split
  · rename_i hu
    refine ⟨fun v => ?_,h.nodup⟩
    simp only [h.mem_iff,getElem?_set_of_live hu]
    by_cases huv : u = v
    · subst huv
      simp [hu]
    · simp [huv]
  · exact h

theorem Owned.disconnects {r : Registry} (h : Owned r) (vs : List ℕ) :
    Owned (vs.foldl ServerWs.disconnect r) := by
  induction vs generalizing r with
  | nil => exact h
  | cons v vs ih => exact ih (h.disconnect v)

theorem Owned.onUserDisconnect {r : Registry} {u : ℕ} (h : Owned r)
    (hu : r.users[u]? = some .live) : Owned (onUserDisconnect r u) where
  mem_iff v := by
    simp only [ServerWs.onUserDisconnect,List.mem_filter,h.mem_iff,getElem?_set_of_live hu]
    by_cases huv : u = v
    · simp [huv]
    · simp [huv,Ne.symm huv]
  nodup := h.nodup.filter _

/-- A user in the list without a `bufferevent`. -/
def Leaked (r : Registry) : Prop := ∃ u : ℕ, r.users[u]? = some .null

theorem Owned.registered_iff_not_leaked {r : Registry} (h : Owned r) :
    Registered r ↔ ¬Leaked r := by
  constructor
  · rintro hreg ⟨u,hu⟩
    have := (hreg.mem_iff u).mp ((h.mem_iff u).mpr ⟨.null,hu,by decide⟩)
    simp [hu] at this
  · intro hleak
    refine ⟨fun u => ?_,h.nodup⟩
    rw [h.mem_iff]
    constructor
    · rintro ⟨c,hc,hne⟩
      cases c with
      | live => exact hc
      | null => exact absurd ⟨u,hc⟩ hleak
      | destroyed => exact absurd rfl hne
    · exact fun hu => ⟨.live,hu,by decide⟩

theorem leaked_set {l : List Connection} {p : List ℕ} {u : ℕ} {c : Connection}
    (hu : l[u]? = some .live) : Leaked ⟨l.set u c,p⟩ ↔ Leaked ⟨l,p⟩ ∨ c = .null := by
  simp only [Leaked,getElem?_set_of_live hu]
  constructor
  · rintro ⟨v,hv⟩
    split at hv
    · exact .inr (Option.some.inj hv)
    · exact .inl ⟨v,hv⟩
  · rintro (⟨v,hv⟩ | rfl)
    · refine ⟨v,?_⟩
      rw [if_neg,hv]
      rintro rfl
      simp [hu] at hv
    · exact ⟨u,by simp⟩

theorem leaked_listencb (r : Registry) (wscon : Bool) :
    Leaked (listencb r wscon) ↔ Leaked r ∨ wscon = false := by
  simp only [Leaked,listencb,getElem?_concat]
  constructor
  · rintro ⟨v,hv⟩
    split at hv
    · cases wscon <;> simp_all
    · exact .inl ⟨v,hv⟩
  · rintro (⟨v,hv⟩ | rfl)
    · have hlt := (List.getElem?_eq_some_iff.mp hv).1
      exact ⟨v,by rw [if_neg (by omega),hv]⟩
    · exact ⟨r.users.length,by simp⟩

theorem leaked_disconnect (r : Registry) (u : ℕ) :
    Leaked (disconnect r u) ↔ Leaked r ∨ r.users[u]? = some .live := by
  unfold disconnect
  split
  · rename_i hu
    simpa [hu] using (leaked_set hu).mpr (.inr rfl)
  · rename_i hu
    simp [hu]

theorem leaked_disconnects (vs : List ℕ) (r : Registry) :
    Leaked (vs.foldl disconnect r) ↔ Leaked r ∨ ∃ v ∈ vs, r.users[v]? = some .live := by
  induction vs generalizing r with
  | nil => simp
  | cons v vs ih =>
    rw [List.foldl_cons,ih,leaked_disconnect,List.exists_mem_cons_iff]
    by_cases hv : r.users[v]? = some .live
    · simp [hv]
    · simp [hv,disconnect]

/-- The registry leaks a user in the steps that do not keep the connections. -/
theorem leaked_onFrameRecv {s : State n} {u : ℕ} {ix : Fin n} (hix : s.ixs[u]? = some ix)
    (hu : s.registry.users[u]? = some .live) (outcome : Outcome) :
    Leaked (onFrameRecv s u ix outcome).registry ↔
      Leaked s.registry ∨ keeps s (.message u outcome) = false := by
  have hlost : Leaked (disconnect s.registry u) := (leaked_disconnect s.registry u).mpr (.inr hu)
  cases outcome with
  | parseFailed => exact iff_of_true hlost (.inr rfl)
  | parsed result disconnects scalar =>
    cases hscalar : s.scalar ix with
    | true => cases result <;> simp [onFrameRecv,keeps,hscalar,hix,hlost]
    | false =>
      cases result with
      | returned b => simp [onFrameRecv,keeps,hscalar,hix,leaked_disconnects]
      | threw =>
        -- the user itself is disconnected behind the others
        have hthrew := leaked_disconnects (disconnects ++ [u]) s.registry
        rw [List.foldl_append] at hthrew
        simp only [onFrameRecv,hscalar]
        exact iff_of_true (hthrew.mpr (.inr ⟨u,by simp,hu⟩)) (.inr rfl)

theorem owned_onFrameRecv {s : State n} (h : Owned s.registry) (u : ℕ) (ix : Fin n)
    (outcome : Outcome) : Owned (onFrameRecv s u ix outcome).registry := by
  cases outcome with
  | parseFailed => exact h.disconnect u
  | parsed result disconnects scalar =>
    cases hscalar : s.scalar ix with
    | true =>
      rw [onFrameRecv,if_pos hscalar]
      exact h.disconnect u
    | false =>
      simp only [onFrameRecv,hscalar]
      cases result with
      | returned b => exact h.disconnects disconnects
      | threw => exact (h.disconnects disconnects).disconnect u

/-- One event: the list goes on to own the users, and a user is leaked if and only if the event
does not keep the connections. -/
theorem step_spec {s t : State n} {e : Event n} (h : Owned s.registry) (hs : step s e = some t) :
    Owned t.registry ∧ (Leaked t.registry ↔ Leaked s.registry ∨ keeps s e = false) := by
  cases e with
  | accept ix wscon =>
    obtain rfl := Option.some.inj hs
    exact ⟨h.listencb wscon,leaked_listencb s.registry wscon⟩
  | message u outcome =>
    simp only [step] at hs
    split at hs
    · rename_i hu
      obtain ⟨ix,hix,rfl⟩ := Option.map_eq_some_iff.mp hs
      exact ⟨owned_onFrameRecv h u ix outcome,leaked_onFrameRecv hix hu outcome⟩
    · simp at hs
  | disconnect u =>
    obtain rfl := Option.some.inj hs
    refine ⟨h.disconnect u,(leaked_disconnect s.registry u).trans (or_congr Iff.rfl ?_)⟩
    simp [keeps]
  | peerClose u =>
    simp only [step] at hs
    split at hs
    · rename_i hu
      obtain rfl := Option.some.inj hs
      exact ⟨h.onUserDisconnect hu,(leaked_set hu).trans (or_congr Iff.rfl (by simp [keeps]))⟩
    · simp at hs

/-- After every event `pending_list` holds exactly the users with a live `bufferevent`,
if and only if no event lets the server free a connection itself or leaves it none to attach. -/
theorem registered_iff {es : List (Event n)} {t : State n} (h : system.exec initial es = some t) :
    (∀ k s, system.exec initial (es.take k) = some s → Registered s.registry) ↔
      system.Allowed (fun s e => keeps s e = true) initial es := by
  have hleaked : ¬Leaked (initial (n:=n)).registry := by simp [Leaked,initial]
  refine allowed_iff (I:=fun s => Owned s.registry) (P:=fun s => Registered s.registry) ?_
    owned_initial (owned_initial.registered_iff_not_leaked.mpr hleaked) h
  intro s e t howned hreg hs
  obtain ⟨howned',hleak⟩ := step_spec howned hs
  rw [howned.registered_iff_not_leaked] at hreg
  refine ⟨howned',?_⟩
  rw [howned'.registered_iff_not_leaked,hleak]
  simp [hreg]

/-- Two users of two workers, messages that are handled either way, a scalar left in a response that
no message follows, and a close by the peer. -/
theorem registered_iff_two :
    let es : List (Event 2) := [.accept 0 true,.accept 1 true,
      .message 0 (.parsed (.returned true) [] true),.message 1 (.parsed (.returned false) [2] false),
      .peerClose 0,.disconnect 0,.message 1 (.parsed (.returned true) [0] false)]
    (system.exec initial es).map (fun s => (s.registry.users,s.registry.pendingList)) =
      some ([.destroyed,.live],[1]) ∧
    ∀ t, system.exec initial es = some t → Registered t.registry := by
  intro es
  refine ⟨by decide,fun t ht => ?_⟩
  exact (registered_iff ht).mpr (by decide) es.length t (by rw [List.take_length]; exact ht)

/-- A message that is not JSON: the server frees the connection and keeps the user. -/
theorem not_registered_parseFailed :
    ¬∀ (es : List (Event 1)) s, system.exec initial es = some s → Registered s.registry := by
  intro hall
  have hreg := (hall [.accept 0 true,.message 0 .parseFailed] ⟨⟨[.null],[0]⟩,[0],fun _ => false⟩ rfl).mem_iff 0
  simp at hreg

end ServerWs
end SdkCp
