import SdkCp.TransitionSystem
import SdkCp.PoolAllocator
import Mathlib.Logic.Equiv.Basic

/-! `linear_hash_map` of tools/linear_hash_map.hpp: a finite map from keys to
positions over a `pool_allocator`. A family of maps shares one memory, so that
`swap` and references that outlive it can be followed. -/
namespace SdkCp
namespace LinearHashMap

open PoolAllocator TransitionSystem

/-- `_data` and `_keys`. -/
structure HashMap (K : Type*) where
  data : Pool
  keys : Finmap fun _ : K => ℕ

/-- What a call hands back. A reference is recorded with the value it leads to. -/
inductive Result (V : Type*)
  | done
  | raised
  | value (v : Option V)
  | visited (vs : List V)
  | count (n : ℕ)
  | flag (b : Bool)

/-- The calls of the clients. `assign` stores through the `r`-th reference obtained
from `operator[]`. -/
inductive Op (ι K V : Type*)
  | access (m : ι) (key : K) (fault : Option Fault)
  | assign (r : ℕ) (v : V)
  | erase (m : ι) (key : K)
  | find (m : ι) (key : K)
  | foreach (m : ι) (f : V → Bool)
  | size (m : ι)
  | empty (m : ι)
  | swap (m n : ι)

def Op.fault {ι K V : Type*} : Op ι K V → Option Fault
  | .access _ _ fault => fault
  | _ => none

/-- A reference a client holds: the slot it points to, and the map and key it stands
for. -/
structure Ref (ι K : Type*) where
  owner : ι
  key : K
  slot : ℕ × ℕ

/-- The maps and what their clients hold. A reference is dropped when its element is
destroyed, as storing through it is then undefined. `asserts` tells whether every
`SDK_CP_ASSERT` evaluated so far held. -/
structure State (ι K V : Type*) where
  mem : Memory V
  maps : ι → HashMap K
  refs : List (Option (Ref ι K))
  trace : List (Op ι K V × Result V)
  asserts : Bool

variable {ι K V : Type*} [DecidableEq ι] [DecidableEq K] [Inhabited V] (B : ℕ)

namespace HashMap

/-- `_data.size() == _keys.size()`. -/
def sizesAgree (h : HashMap K) : Bool := h.data.size B = h.keys.keys.card

/-- `operator[]`: the slot the reference points to, unless the call throws. -/
def access (h : HashMap K) (mem : Memory V) (key : K) (fault : Option Fault) :
    HashMap K × Memory V × Option (ℕ × ℕ) × Bool :=
  match h.keys.lookup key with
  | some position =>
    (h,mem,h.data.slot B position,
      h.sizesAgree B && h.data.inRange B position && (h.data.read B mem position).isSome)
  | none =>
    match h.data.allocate B mem fault with
    | (data,mem,none) => ({ h with data },mem,none,h.sizesAgree B)
    | (data,mem,some position) =>
      if fault = some .keyInsert then ({ h with data },mem,none,h.sizesAgree B)
      else
        ({ data, keys := h.keys.insert key position },mem,data.slot B position,
          h.sizesAgree B && data.inRange B position && (data.read B mem position).isSome)

def erase (h : HashMap K) (mem : Memory V) (key : K) : HashMap K × Memory V × Bool :=
  match h.keys.lookup key with
  | none => (h,mem,h.sizesAgree B)
  | some position =>
    let (data,mem) := h.data.deallocate B mem position
    ({ data, keys := h.keys.erase key },mem,h.sizesAgree B && h.data.inRange B position)

def find (h : HashMap K) (mem : Memory V) (key : K) : Option V × Bool :=
  match h.keys.lookup key with
  | none => (none,h.sizesAgree B)
  | some position =>
    (h.data.read B mem position,
      h.sizesAgree B && h.data.inRange B position && (h.data.read B mem position).isSome)

end HashMap

/-- The references that survive `erase m key`. -/
def Ref.survives (m : ι) (key : K) (r : Ref ι K) : Bool := ¬(r.owner = m ∧ r.key = key)

/-- References follow their elements through `swap m n`. -/
def Ref.swapped (m n : ι) (r : Ref ι K) : Ref ι K := { r with owner := Equiv.swap m n r.owner }

/-- One call, and its result. -/
def call (s : State ι K V) : Op ι K V → Option (State ι K V × Result V)
  | .access m key fault =>
    let (h,mem,slot,ok) := (s.maps m).access B s.mem key fault
    let t := { s with mem, maps := Function.update s.maps m h, asserts := s.asserts && ok }
    match slot with
    | none => some (t,.raised)
    | some slot => some ({ t with refs := s.refs ++ [some ⟨m,key,slot⟩] },.value (mem.cells slot))
  | .assign r v =>
    match s.refs[r]? with
    | some (some ref) => some ({ s with mem := s.mem.write ref.slot (some v) },.done)
    | _ => none
  | .erase m key =>
    let (h,mem,ok) := (s.maps m).erase B s.mem key
    some ({ s with mem, maps := Function.update s.maps m h, asserts := s.asserts && ok
                   refs := s.refs.map fun r => r.filter (Ref.survives m key) },.done)
  | .find m key =>
    let (v,ok) := (s.maps m).find B s.mem key
    some ({ s with asserts := s.asserts && ok },.value v)
  | .foreach m f =>
    (Pool.foreach B f s.mem (s.maps m).data.chunks).map fun vs =>
      ({ s with asserts := s.asserts && (s.maps m).sizesAgree B },.visited vs)
  | .size m =>
    some ({ s with asserts := s.asserts && (s.maps m).sizesAgree B },.count ((s.maps m).data.size B))
  | .empty m =>
    some ({ s with asserts := s.asserts && (s.maps m).sizesAgree B },
      .flag ((s.maps m).data.size B == 0))
  | .swap m n =>
    some ({ s with maps := s.maps ∘ Equiv.swap m n, refs := s.refs.map (·.map (Ref.swapped m n))
                   asserts := s.asserts && (s.maps m).sizesAgree B && (s.maps n).sizesAgree B },
      .done)

def step (s : State ι K V) (op : Op ι K V) : Option (State ι K V) :=
  (call B s op).map fun (t,res) => { t with trace := s.trace ++ [(op,res)] }

def initial : State ι K V where
  mem := ⟨fun _ => none,0⟩
  maps _ := ⟨⟨[],[]⟩,∅⟩
  refs := []
  trace := []
  asserts := true

def system : TransitionSystem (State ι K V) (Op ι K V) where
  init s := s = initial
  step := step B

/-- A family of finite maps, and the elements its clients hold references to. -/
structure Spec (ι K V : Type*) where
  maps : ι → Finmap fun _ : K => V
  refs : List (Option (ι × K))

namespace Spec

def initial : Spec ι K V := ⟨fun _ => ∅,[]⟩

/-- What the calls mean on finite maps. -/
inductive Step : Spec ι K V → Op ι K V → Result V → Spec ι K V → Prop
  | accessFound {a m key v} : (a.maps m).lookup key = some v →
    Step a (.access m key none) (.value (some v)) { a with refs := a.refs ++ [some (m,key)] }
  | accessFresh {a m key} : (a.maps m).lookup key = none →
    Step a (.access m key none) (.value (some default))
      { maps := Function.update a.maps m ((a.maps m).insert key default)
        refs := a.refs ++ [some (m,key)] }
  | assign {a r v m key} : a.refs[r]? = some (some (m,key)) →
    Step a (.assign r v) .done
      { a with maps := Function.update a.maps m ((a.maps m).insert key v) }
  | erase {a m key} :
    Step a (.erase m key) .done
      { maps := Function.update a.maps m ((a.maps m).erase key)
        refs := a.refs.map fun r => r.filter (· ≠ (m,key)) }
  | find {a m key} : Step a (.find m key) (.value ((a.maps m).lookup key)) a
  | foreach {a m f vs} (ks : List K) : ks.Nodup → (∀ k, k ∈ ks ↔ k ∈ a.maps m) →
    vs.map some <+: ks.map (a.maps m).lookup →
    ((∀ v ∈ vs, f v = true) → vs.length = ks.length) →
    Step a (.foreach m f) (.visited vs) a
  | size {a m} : Step a (.size m) (.count (a.maps m).keys.card) a
  | empty {a m} : Step a (.empty m) (.flag ((a.maps m).keys.card == 0)) a
  | swap {a m n} :
    Step a (.swap m n) .done
      { maps := a.maps ∘ Equiv.swap m n
        refs := a.refs.map (·.map fun (i,k) => (Equiv.swap m n i,k)) }

/-- The traces of the abstract maps. -/
inductive Run : List (Op ι K V × Result V) → Spec ι K V → Prop
  | nil : Run [] initial
  | snoc {tr a op res a'} : Run tr a → Step a op res a' → Run (tr ++ [(op,res)]) a'

end Spec

end LinearHashMap
end SdkCp
