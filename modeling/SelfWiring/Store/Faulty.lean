import SelfWiring.Store.Call
import SelfWiring.Text.Pieces

/-! # Faults

A layer above a store that makes chosen calls fail, or lets another writer act just before them. A
fault watches the calls of one method whose subject contains a given part; it counts them all,
whatever becomes of them, and acts on a stretch of them. A call that a fault makes fail never
reaches the store below.
-/

namespace SelfWiring

inductive Mishap where
  /-- The call fails. -/
  | failure (e : StoreError)
  /-- Another writer creates the set with these members first. -/
  | race (members : List String)

structure Fault where
  method : Method
  part : String
  /-- The number of the first call it acts on, counted from 1. -/
  first : Nat
  times : Nat
  mishap : Mishap
  /-- The calls watched so far. -/
  seen : Nat := 0

namespace Fault

def watches (f : Fault) (c : StoreCall) : Bool :=
  f.method == c.method && Text.occursIn f.part.toList c.subject.toList

/-- Count a call if the fault watches it. -/
def observe (c : StoreCall) (f : Fault) : Fault :=
  if f.watches c then { f with seen := f.seen + 1 } else f

/-- Whether a fault acts on the call that it has just counted. -/
def acts (f : Fault) : Bool := f.first ≤ f.seen && f.seen < f.first + f.times

end Fault

structure Faulty (σ : Type) where
  below : σ
  faults : List Fault := []
  /-- The calls that arrived, by method. -/
  calls : List (Method × Nat) := []

namespace Faulty

def count (m : Method) : List (Method × Nat) → List (Method × Nat)
  | [] => [(m, 1)]
  | (m', n) :: rest => if m' = m then (m, n + 1) :: rest else (m', n) :: count m rest

/-- The sets that other writers create before a call. -/
def races (fs : List Fault) : List (List String) :=
  fs.filterMap fun f => match f.mishap with
    | .race members => some members
    | .failure _ => none

/-- The failure of the first fault that has one. -/
def failure? (fs : List Fault) : Option StoreError :=
  fs.findSome? fun f => match f.mishap with
    | .failure e => some e
    | .race _ => none

def perform [Store σ] (c : StoreCall) (s : Faulty σ) : Except StoreError c.Answer × Faulty σ :=
  let faults := s.faults.map (Fault.observe c)
  let acting := faults.filter fun f => f.watches c && f.acts
  let calls := count c.method s.calls
  let below := (races acting).foldl
    (fun b members => (Store.perform (.setInit c.subject members) b).2) s.below
  match failure? acting with
  | some e => (.error e, { below, faults, calls })
  | none =>
    let (answer, below) := Store.perform c below
    (answer, { below, faults, calls })

end Faulty

instance [Store σ] : Store (Faulty σ) where
  perform := Faulty.perform
  elsewhere c s := { s with below := Store.elsewhere c s.below }

end SelfWiring
