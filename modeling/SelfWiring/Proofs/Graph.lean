import SelfWiring.Graph
import SelfWiring.Proofs.Ensures

/-!
# The learned graph as a network

What each operation on the learned graph answers, and how it changes the network. An operation that
makes something new does so under an identifier that was never used before; where the thing is there
already, it changes nothing.
-/

namespace SelfWiring

namespace Net

/-- The record of a text, and the network that has it. -/
def record (n : Net) (text : String) : String × Net :=
  match n.text (.informationId text) with
  | some id => (id, n)
  | none =>
    (n.fresh, (n.mint.write (.information n.fresh) text).write (.informationId text) n.fresh)

/-- The entry behaviour of a record for a cell, and the network that has it. -/
def enter (n : Net) (information cell : String) : String × Net :=
  match n.text (.entry information cell) with
  | some id => (id, n)
  | none =>
    (n.fresh, (n.mint.write (.binding n.fresh) cell).write (.entry information cell) n.fresh)

/-- Behaviours bound to their cells, one after the other. -/
def bindAll (n : Net) : List (String × String) → Net
  | [] => n
  | (behaviour, cell) :: rest => (n.write (.binding behaviour) cell).bindAll rest

/-- Count one more under a key. -/
def count (n : Net) (k : Key) : Net := n.write k (countText (nextCount (n.text k)))

theorem bindAll_next (n : Net) (bound : List (String × String)) :
    (n.bindAll bound).next = n.next := by
  induction bound generalizing n with
  | nil => rfl
  | cons e bound ih => exact ih _

end Net

namespace Graph

open SelfWiring.Action

variable {σ : Type} [Store σ] [FaultFree σ] {n : Net}

/-! ## Connections -/

theorem connections_of_some {producer : String} {successors : List String}
    (h : n.next producer = some successors) :
    Reaches σ (connections producer) n (.ok (some successors)) n := by
  have hmembers := reaches_setMembers (σ := σ) producer n
  rw [h] at hmembers
  exact reaches_orAbsent_ok hmembers

theorem connections_of_none {producer : String} (h : n.next producer = none) :
    Reaches σ (connections producer) n (.ok none) n := by
  have hmembers := reaches_setMembers (σ := σ) producer n
  rw [h] at hmembers
  exact reaches_orAbsent_notFound hmembers

theorem bind_reaches (behaviour cell : String) (n : Net) :
    Reaches σ (bind behaviour cell) n (.ok ()) (n.write (.binding behaviour) cell) :=
  reaches_set (.binding behaviour) trivial cell n

theorem binding_of_some {behaviour cell : String} (h : n.text (.binding behaviour) = some cell) :
    Reaches σ (binding behaviour) n (.ok cell) n :=
  reaches_get_some (.binding behaviour) trivial h

theorem bindAll_reaches (bound : List (String × String)) :
    ∀ n, Reaches σ (bindAll bound) n (.ok ()) (n.bindAll bound) := by
  induction bound with
  | nil => exact reaches_pure ()
  | cons e bound ih =>
    intro n
    exact (bind_reaches e.1 e.2 n).andThen (ih _)

theorem initConnections_of_none {producer : String} (h : n.next producer = none)
    (successors : List String) :
    Reaches σ (initConnections producer successors) n (.ok (addMembers [] successors))
      (n.wire producer (addMembers [] successors)) := by
  refine (reaches_setInit h successors).andThen ?_
  have hmembers := reaches_setMembers (σ := σ) producer (n.wire producer (addMembers [] successors))
  rw [Net.wire_next, Function.update_self] at hmembers
  exact hmembers

theorem connect_of_none {producer : String} (h : n.next producer = none)
    (bound : List (String × String)) :
    Reaches σ (connect producer bound) n (.ok (addMembers [] (bound.map (·.1))))
      ((n.bindAll bound).wire producer (addMembers [] (bound.map (·.1)))) := by
  refine (bindAll_reaches bound n).andThen (initConnections_of_none ?_ _)
  rw [Net.bindAll_next]
  exact h

/-! ## Trees -/

theorem anchorTree_reaches (tree behaviour : String) (n : Net) :
    Reaches σ (anchorTree tree behaviour) n (.ok ()) (n.write (.firstBehaviour tree) behaviour) :=
  reaches_set (.firstBehaviour tree) trivial behaviour n

theorem firstBehaviour_of_some {tree behaviour : String}
    (h : n.text (.firstBehaviour tree) = some behaviour) :
    Reaches σ (firstBehaviour tree) n (.ok behaviour) n :=
  reaches_get_some (.firstBehaviour tree) trivial h

/-- The first claim of the answer of a tree succeeds. -/
theorem completeTree_of_none {tree : String} (h : n.text (.done tree) = none) :
    Reaches σ (completeTree tree) n (.ok true) (n.count (.done tree)) := by
  have hfirst : (nextCount (n.text (.done tree)) == 1) = true := by
    rw [h]
    decide
  unfold completeTree
  refine (reaches_incr (.done tree) trivial n).andThen ?_
  rw [hfirst]
  exact reaches_pure true _

theorem isComplete_reaches (tree : String) (n : Net) :
    Reaches σ (isComplete tree) n (.ok (n.text (.done tree)).isSome) n := by
  cases h : n.text (.done tree) with
  | some t =>
    have hget := reaches_get_some (σ := σ) (.done tree) trivial h
    exact (reaches_orAbsent_ok hget).andThen (reaches_pure true n)
  | none =>
    have hget := reaches_get_none (σ := σ) (.done tree) trivial h
    exact (reaches_orAbsent_notFound hget).andThen (reaches_pure false n)

theorem recordMiss_reaches (tree : String) (pass : Int64) (n : Net) :
    Reaches σ (recordMiss tree pass) n (.ok (nextCount (n.text (.misses tree pass))))
      (n.count (.misses tree pass)) := reaches_incr (.misses tree pass) trivial n

theorem recordRetraversal_reaches (tree : String) (n : Net) :
    Reaches σ (recordRetraversal tree) n (.ok (nextCount (n.text (.retraversals tree))))
      (n.count (.retraversals tree)) := reaches_incr (.retraversals tree) trivial n

theorem track_ensures (p : Payload) (n : Net) : Ensures σ (track p) n fun _ m => m = n := by
  unfold track
  split
  · exact (reaches_pure () n).ensures rfl
  · refine (ensures_lift (Program.ensures_clock n)).bind ?_ ?_
    · rintro now m ⟨_, _, rfl⟩
      exact ensures_zadd _ _ _ m
    · rintro e m ⟨_, he, _⟩
      exact absurd he (by simp)

/-! ## Information -/

theorem informationIdFor_reaches (text : String) (n : Net) :
    Reaches σ (informationIdFor text) n (.ok (n.record text).1) (n.record text).2 := by
  unfold Net.record
  cases h : n.text (.informationId text) with
  | some id =>
    have hget := reaches_get_some (σ := σ) (.informationId text) trivial h
    exact (reaches_orAbsent_ok hget).andThen (reaches_pure id n)
  | none =>
    have hget := reaches_get_none (σ := σ) (.informationId text) trivial h
    refine (reaches_orAbsent_notFound hget).andThen ?_
    refine (reaches_lift (Program.reaches_mint n)).andThen ?_
    refine (reaches_set (.information n.fresh) trivial text _).andThen ?_
    refine (reaches_set (.informationId text) trivial n.fresh _).andThen ?_
    exact reaches_pure n.fresh _

theorem information_of_some {id text : String} (h : n.text (.information id) = some text) :
    Reaches σ (information id) n (.ok text) n :=
  reaches_get_some (.information id) trivial h

theorem entryBehaviour_reaches {cell : String}
    (hcell : cell = Cell.inputName ∨ cell = Cell.outputName) (information : String) (n : Net) :
    Reaches σ (entryBehaviour information cell) n (.ok (n.enter information cell).1)
      (n.enter information cell).2 := by
  unfold Net.enter
  cases h : n.text (.entry information cell) with
  | some id =>
    have hget := reaches_get_some (σ := σ) (.entry information cell) hcell h
    exact (reaches_orAbsent_ok hget).andThen (reaches_pure id n)
  | none =>
    have hget := reaches_get_none (σ := σ) (.entry information cell) hcell h
    refine (reaches_orAbsent_notFound hget).andThen ?_
    refine (reaches_lift (Program.reaches_mint n)).andThen ?_
    refine (bind_reaches n.fresh cell _).andThen ?_
    refine (reaches_set (.entry information cell) hcell n.fresh _).andThen ?_
    exact reaches_pure n.fresh _

end Graph

end SelfWiring
