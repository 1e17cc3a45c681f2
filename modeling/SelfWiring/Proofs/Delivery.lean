import SelfWiring.Cell.Delivery
import SelfWiring.Proofs.Graph

/-!
# What the output cell does

A result that reaches the output cell meets one of five fates. It is passed over because its tree
was answered, or because its walk has missed before; it is delivered; it restarts its tree; or it
uses up the budget of restarts.
-/

namespace SelfWiring.Cell

open SelfWiring.Action

/-- What becomes of a result of a tree at the output cell that allows `limit` restarts. -/
inductive Concluded (limit : UInt32) (n : Net) (ctx : Context) (tree session output : String) :
    Except CellError (List Value) → Net → Prop
  | answered (hdone : (n.text (.done tree)).isSome = true) :
    Concluded limit n ctx tree session output (.ok []) n
  | delivered (hdone : n.text (.done tree) = none)
    (hexpectation : ∀ e, ctx.expectation = some e → output = e) :
    Concluded limit n ctx tree session output (.ok [])
      (((n.count (.done tree)).deliver session output).announce (.emitted session tree output))
  | passedOver (hdone : n.text (.done tree) = none)
    (hmissed : ∃ e, ctx.expectation = some e ∧ output ≠ e)
    (hmisses : 1 < nextCount (n.text (.misses tree ctx.pass))) :
    Concluded limit n ctx tree session output (.ok []) (n.count (.misses tree ctx.pass))
  | exhausted (hdone : n.text (.done tree) = none)
    (hmissed : ∃ e, ctx.expectation = some e ∧ output ≠ e)
    (hmisses : ¬ 1 < nextCount (n.text (.misses tree ctx.pass)))
    (hlimit : limit ≠ 0 ∧ Int64.ofNat limit.toNat < nextCount (n.text (.retraversals tree))) :
    Concluded limit n ctx tree session output
      (.error (.budgetExhausted tree (nextCount (n.text (.retraversals tree)) - 1)))
      ((n.count (.misses tree ctx.pass)).count (.retraversals tree))
  | restarted (hdone : n.text (.done tree) = none)
    (hmissed : ∃ e, ctx.expectation = some e ∧ output ≠ e)
    (hmisses : ¬ 1 < nextCount (n.text (.misses tree ctx.pass)))
    (hlimit : ¬ (limit ≠ 0 ∧ Int64.ofNat limit.toNat < nextCount (n.text (.retraversals tree))))
    {information text first cell : String} (hinformation : ctx.information = some information)
    (htext : n.text (.information information) = some text)
    (hfirst : n.text (.firstBehaviour tree) = some first)
    (hcell : n.text (.binding first) = some cell) :
    Concluded limit n ctx tree session output
      (.error (.expectationNotMet tree (nextCount (n.text (.retraversals tree)))))
      (((n.count (.misses tree ctx.pass)).count (.retraversals tree)).mint.enqueue
        (restartPayload ctx n.fresh text first cell))

/-- The texts that a restart is made from. -/
structure Restartable (n : Net) (ctx : Context) (tree : String) : Prop where
  recorded : ∃ information text, ctx.information = some information ∧
    n.text (.information information) = some text
  anchored : ∃ first cell, n.text (.firstBehaviour tree) = some first ∧
    n.text (.binding first) = some cell

variable {σ : Type} [Store σ] [FaultFree σ] {n : Net} {ctx : Context} {tree session output : String}

theorem queueRestart_reaches {information text first cell : String}
    (hinformation : ctx.information = some information)
    (htext : n.text (.information information) = some text)
    (hfirst : n.text (.firstBehaviour tree) = some first)
    (hcell : n.text (.binding first) = some cell) :
    Reaches σ (queueRestart ctx tree) n (.ok ())
      (n.mint.enqueue (restartPayload ctx n.fresh text first cell)) := by
  unfold queueRestart
  rw [hinformation]
  refine (reaches_adapt (Graph.information_of_some htext)).andThen ?_
  refine (reaches_adapt (Graph.firstBehaviour_of_some hfirst)).andThen ?_
  refine (reaches_adapt (Graph.binding_of_some hcell)).andThen ?_
  refine (reaches_lift (Program.reaches_mint n)).andThen ?_
  exact reaches_adapt (reaches_push_payload _ n.mint)

theorem deliver_reaches (hsession : ctx.session = some session) (htree : ctx.tree = some tree)
    (hne : tree ≠ "") (hdone : n.text (.done tree) = none) (output : String) :
    Reaches σ (deliver ctx output) n (.ok ())
      (((n.count (.done tree)).deliver session output).announce
        (.emitted session tree output)) := by
  unfold deliver claimAnswer
  rw [hsession, htree]
  simp only [Option.getD_some, if_neg hne]
  refine (reaches_adapt (Graph.completeTree_of_none hdone)).andThen ?_
  refine (reaches_adapt (reaches_push_outputs session output _)).andThen ?_
  exact reaches_lift (Program.reaches_publish _ _)

theorem retraverse_of_later_miss (limit : UInt32)
    (hmisses : 1 < nextCount (n.text (.misses tree ctx.pass))) :
    Reaches σ (retraverse limit ctx tree) n (.ok none) (n.count (.misses tree ctx.pass)) := by
  unfold retraverse
  refine (reaches_adapt (Graph.recordMiss_reaches tree ctx.pass n)).andThen ?_
  simp only [if_pos hmisses]
  exact reaches_pure none _

/-- Misses and restarts are counted apart. -/
theorem recordRetraversal_after_miss (tree : String) (pass : Int64) (n : Net) :
    Reaches σ (Graph.recordRetraversal tree) (n.count (.misses tree pass))
      (.ok (nextCount (n.text (.retraversals tree))))
      ((n.count (.misses tree pass)).count (.retraversals tree)) := by
  have hkeep : (n.count (.misses tree pass)).text (.retraversals tree) =
      n.text (.retraversals tree) := by
    simp [Net.count]
  have hcount := Graph.recordRetraversal_reaches (σ := σ) tree (n.count (.misses tree pass))
  rw [hkeep] at hcount
  exact hcount

theorem retraverse_of_exhausted {limit : UInt32}
    (hmisses : ¬ 1 < nextCount (n.text (.misses tree ctx.pass)))
    (hlimit : limit ≠ 0 ∧ Int64.ofNat limit.toNat < nextCount (n.text (.retraversals tree))) :
    Reaches σ (retraverse limit ctx tree) n
      (.error (.budgetExhausted tree (nextCount (n.text (.retraversals tree)) - 1)))
      ((n.count (.misses tree ctx.pass)).count (.retraversals tree)) := by
  unfold retraverse
  refine (reaches_adapt (Graph.recordMiss_reaches tree ctx.pass n)).andThen ?_
  simp only [if_neg hmisses]
  refine (reaches_adapt (recordRetraversal_after_miss tree ctx.pass n)).andThen ?_
  simp only [if_pos hlimit]
  exact reaches_throw _ _

theorem retraverse_of_restarted {limit : UInt32} {information text first cell : String}
    (hmisses : ¬ 1 < nextCount (n.text (.misses tree ctx.pass)))
    (hlimit : ¬ (limit ≠ 0 ∧ Int64.ofNat limit.toNat < nextCount (n.text (.retraversals tree))))
    (hinformation : ctx.information = some information)
    (htext : n.text (.information information) = some text)
    (hfirst : n.text (.firstBehaviour tree) = some first)
    (hcell : n.text (.binding first) = some cell) :
    Reaches σ (retraverse limit ctx tree) n (.ok (some (nextCount (n.text (.retraversals tree)))))
      (((n.count (.misses tree ctx.pass)).count (.retraversals tree)).mint.enqueue
        (restartPayload ctx n.fresh text first cell)) := by
  unfold retraverse
  refine (reaches_adapt (Graph.recordMiss_reaches tree ctx.pass n)).andThen ?_
  simp only [if_neg hmisses]
  refine (reaches_adapt (recordRetraversal_after_miss tree ctx.pass n)).andThen ?_
  simp only [if_neg hlimit]
  refine (queueRestart_reaches hinformation ?_ ?_ ?_).andThen (reaches_pure _ _)
  · simpa [Net.count] using htext
  · simpa [Net.count] using hfirst
  · simpa [Net.count] using hcell

theorem isAnswered_reaches (htree : ctx.tree = some tree) (n : Net) :
    Reaches σ (isAnswered ctx) n (.ok (n.text (.done tree)).isSome) n := by
  unfold isAnswered
  rw [htree]
  exact Graph.isComplete_reaches tree n

theorem output_of_answered (limit : UInt32) (htree : ctx.tree = some tree)
    (hdone : (n.text (.done tree)).isSome = true) (v : Value) (vs : List Value) :
    Reaches σ ((Cell.output limit).call ctx (v :: vs)) n (.ok []) n := by
  have hanswered := isAnswered_reaches (σ := σ) htree n
  rw [hdone] at hanswered
  exact (reaches_adapt hanswered).andThen (reaches_pure [] n)

/-- The first result that its session accepts is delivered. -/
theorem output_of_fitting (limit : UInt32) (htree : ctx.tree = some tree) (hne : tree ≠ "")
    (hsession : ctx.session = some session) (hdone : n.text (.done tree) = none) {v : Value}
    (hfits : ctx.expectation.all (· == v.display) = true) (vs : List Value) :
    Reaches σ ((Cell.output limit).call ctx (v :: vs)) n (.ok [])
      (((n.count (.done tree)).deliver session v.display).announce
        (.emitted session tree v.display)) := by
  have hanswered := isAnswered_reaches (σ := σ) htree n
  rw [hdone] at hanswered
  refine (reaches_adapt hanswered).andThen ?_
  show Reaches σ (conclude limit ctx v.display) n _ _
  unfold conclude
  rw [if_pos hfits]
  exact (deliver_reaches hsession htree hne hdone _).andThen (reaches_pure [] _)

theorem output_ensures (limit : UInt32) (htree : ctx.tree = some tree) (hne : tree ≠ "")
    (hsession : ctx.session = some session) (hrestart : Restartable n ctx tree) (v : Value)
    (vs : List Value) :
    Ensures σ ((Cell.output limit).call ctx (v :: vs)) n
      (Concluded limit n ctx tree session v.display) := by
  obtain ⟨⟨information, text, hinformation, htext⟩, first, cell, hfirst, hcell⟩ := hrestart
  cases hdone : n.text (.done tree) with
  | some t =>
    have hanswered : (n.text (.done tree)).isSome = true := by rw [hdone]; rfl
    exact (output_of_answered limit htree hanswered v vs).ensures (.answered hanswered)
  | none =>
    -- the expectation is looked at first, then the misses of the walk, then the budget
    by_cases hfits : ctx.expectation.all (· == v.display) = true
    · refine (output_of_fitting limit htree hne hsession hdone hfits vs).ensures
        (.delivered hdone ?_)
      intro e he
      rw [he] at hfits
      exact (beq_iff_eq.mp hfits).symm
    · have hanswered := isAnswered_reaches (σ := σ) htree n
      rw [hdone] at hanswered
      refine (reaches_adapt hanswered).bind ?_
      show Ensures σ (conclude limit ctx v.display) n _
      unfold conclude
      rw [if_neg hfits]
      have hmissed : ∃ e, ctx.expectation = some e ∧ v.display ≠ e := by
        cases hexpectation : ctx.expectation with
        | none => exact absurd (by rw [hexpectation]; rfl) hfits
        | some e =>
          refine ⟨e, rfl, fun heq => hfits ?_⟩
          rw [hexpectation, heq]
          exact beq_self_eq_true e
      rw [htree]
      by_cases hmisses : 1 < nextCount (n.text (.misses tree ctx.pass))
      · refine (retraverse_of_later_miss limit hmisses).bind ?_
        exact (reaches_pure [] _).ensures (.passedOver hdone hmissed hmisses)
      · by_cases hlimit :
          limit ≠ 0 ∧ Int64.ofNat limit.toNat < nextCount (n.text (.retraversals tree))
        · refine (retraverse_of_exhausted hmisses hlimit).bind_error.ensures ?_
          exact .exhausted hdone hmissed hmisses hlimit
        · refine (retraverse_of_restarted hmisses hlimit hinformation htext hfirst hcell).bind ?_
          refine (reaches_throw _ _).ensures ?_
          exact .restarted hdone hmissed hmisses hlimit hinformation htext hfirst hcell

end SelfWiring.Cell
