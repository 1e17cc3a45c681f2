import SelfWiring.Cell.Delivery
import SelfWiring.Proofs.Runs
import SelfWiring.Proofs.Store.Sorted
import SelfWiring.Proofs.Views

/-!
# What a failure of the output cell leaves behind

A result without arguments, one that fits but has no session to go to, and one that does not fit but
has no tree are refused before anything is written. A result that does not fit is counted as a miss
of its walk, and as a restart of its tree, before what the restart is made from is looked up. Where
the context names no record, or one of the three lookups finds nothing, the two counts stand all the
same, though nothing was queued: the walk will not be restarted any more.
-/

namespace SelfWiring

/-- All that a world shows of its store, with the supply of identifiers and the events. -/
structure Estate where
  contents : Contents
  ranking : String → List (String × Score)
  minted : Nat
  events : List Event

namespace Estate

/-- Count one more under a key. -/
def count (v : Estate) (k : Key) : Estate :=
  { v with
    contents := v.contents.putText k.render (countText (nextCount (v.contents.text k.render))) }

def mint (v : Estate) : Estate := { v with minted := v.minted + 1 }

def append (v : Estate) (list item : String) : Estate :=
  { v with contents := v.contents.putList list (v.contents.list list ++ [item]) }

/-- A miss is counted in a walk, and a restart for its tree. -/
def missed (v : Estate) (tree : String) (pass : Int64) : Estate :=
  (v.count (.misses tree pass)).count (.retraversals tree)

end Estate

variable {σ : Type} [Store σ] [FaultFree σ]

def World.estate (w : World σ) : Estate := ⟨w.contents, ranking w.store, w.minted, w.events⟩

/-! ## Effects -/

namespace Action

variable [Sorting σ] {v : Estate}

/-- A call that writes no score is known by its answer and by what is held after it. -/
theorem brings_call {c : StoreCall} (hc : c.Ageless) {answer : Except StoreError c.Answer}
    {after : Contents} (h : ∀ s : σ, FaultFree.contents s = v.contents →
      Performs FaultFree.contents c s answer after) :
    Brings (World.estate (σ := σ)) (call c) v fun r v' =>
      r = answer ∧ v' = { v with contents := after } := by
  rintro w rfl
  obtain ⟨hanswer, hafter⟩ := h w.store rfl
  refine ⟨hanswer, ?_⟩
  show (⟨FaultFree.contents (Store.perform c w.store).2, ranking (Store.perform c w.store).2,
    w.minted, w.events⟩ : Estate) = _
  rw [hafter, Sorting.kept hc]
  rfl

theorem brings_get (key : String) (v : Estate) :
    Brings (World.estate (σ := σ)) (call (.get key)) v fun r v' =>
      r = answerFor key (v.contents.text key) ∧ v' = v :=
  brings_call (c := .get key) trivial fun s hs => hs ▸ FaultFree.get key s

/-- What may be absent is looked up without fail. -/
theorem brings_orAbsent_get (key : String) (v : Estate) :
    Brings (World.estate (σ := σ)) (orAbsent (call (.get key))) v fun r v' =>
      ∃ found, r = .ok found ∧ v' = v := by
  refine Brings.andThen (brings_lift ((brings_get key v).imp fun r _ h => ⟨r, rfl, h⟩)) ?_
  rintro _ v' ⟨rfl, rfl⟩
  cases v'.contents.text key with
  | some value => exact brings_pure ⟨_, rfl, rfl⟩
  | none => exact brings_pure ⟨_, rfl, rfl⟩

theorem brings_incr (k : Key) (v : Estate) :
    Brings (World.estate (σ := σ)) (call (.incr k.render)) v fun r v' =>
      ∃ n, r = .ok n ∧ v' = v.count k :=
  (brings_call (c := .incr k.render) trivial fun s hs => hs ▸ FaultFree.incr k.render s).imp
    fun _ _ h => ⟨_, h⟩

theorem brings_push (list item : String) (v : Estate) :
    Brings (World.estate (σ := σ)) (call (.push list item)) v fun r v' =>
      ∃ u, r = .ok u ∧ v' = v.append list item :=
  (brings_call (c := .push list item) trivial fun s hs => hs ▸ FaultFree.push list item s).imp
    fun _ _ h => ⟨(), h⟩

theorem brings_queue_push (list item : String) (v : Estate) :
    Brings (World.estate (σ := σ)) (Queue.push list item) v fun r v' =>
      ∃ u, r = .ok u ∧ v' = v.append list item := by
  refine (brings_push list item v).andThen ?_
  rintro _ _ rfl
  exact brings_lift fun w hw => ⟨(), rfl, hw⟩

end Action

/-! ## The output cell -/

namespace Cell

/-- How the output cell fails in a context, and what is there afterwards. -/
inductive Fails (ctx : Context) (v : Estate) : CellError → Estate → Prop
  | nothing : Fails ctx v (.domain outputName .nothingToOutput) v
  | noSession (hsession : ctx.session = none) : Fails ctx v (.missingContext .session) v
  | noTree (htree : ctx.tree = none) : Fails ctx v (.missingContext .tree) v
  | exhausted {tree : String} (htree : ctx.tree = some tree) (attempts : Int64) :
    Fails ctx v (.budgetExhausted tree attempts) (v.missed tree ctx.pass)
  | noInformation {tree : String} (htree : ctx.tree = some tree)
    (hinformation : ctx.information = none) :
    Fails ctx v (.missingContext .information) (v.missed tree ctx.pass)
  | notFound {tree : String} {k : Key} (htree : ctx.tree = some tree)
    (hkey : (∃ i, ctx.information = some i ∧ k = .information i) ∨ k = .firstBehaviour tree ∨
      ∃ first,
        (v.missed tree ctx.pass).contents.text (Key.firstBehaviour tree).render = some first ∧
          k = .binding first)
    (habsent : (v.missed tree ctx.pass).contents.text k.render = none) :
    Fails ctx v (.store (.notFound k.render)) (v.missed tree ctx.pass)
  | restarted {tree : String} (htree : ctx.tree = some tree) (text first cell : String)
    (attempt : Int64) :
    Fails ctx v (.expectationNotMet tree attempt)
      ((v.missed tree ctx.pass).mint.append Key.eventQueue.render
        (restartPayload ctx (Identifier.render v.minted) text first cell).encode)

open SelfWiring.Action

variable [Sorting σ] {ctx : Context} {v : Estate} {tree : String}

/-- Looking whether a tree was answered writes nothing and does not fail. -/
theorem isAnswered_brings (ctx : Context) (v : Estate) :
    Brings (World.estate (σ := σ)) (isAnswered ctx) v fun r v' => ∃ b, r = .ok b ∧ v' = v := by
  unfold isAnswered
  split
  · exact brings_pure ⟨_, rfl, rfl⟩
  · refine (brings_orAbsent_get _ v).andThen ?_
    rintro _ _ rfl
    exact brings_pure ⟨_, rfl, rfl⟩

theorem claimAnswer_brings (tree : String) (v : Estate) :
    Brings (World.estate (σ := σ)) (claimAnswer tree) v fun r _ => ∃ b, r = .ok b ∧ True := by
  unfold claimAnswer
  split
  · exact brings_pure ⟨_, rfl, trivial⟩
  · exact (brings_incr (.done tree) v).andThen fun _ _ _ => brings_pure ⟨_, rfl, trivial⟩

/-- The session is looked at first, and nothing fails after that. -/
theorem deliver_brings (ctx : Context) (output : String) (v : Estate) :
    Brings (World.estate (σ := σ)) (deliver ctx output) v fun r v' =>
      ∀ e, r = .error e → Fails ctx v e v' := by
  unfold deliver
  split
  · rename_i hsession
    refine brings_throw ?_
    rintro _ ⟨⟩
    exact .noSession hsession
  · refine (claimAnswer_brings _ v).adapt_andThen fun claimed v' _ => ?_
    split
    · refine (brings_push _ _ v').adapt_andThen fun _ _ _ => ?_
      exact brings_lift fun w _ e h => nomatch h
    · exact brings_pure fun e h => nomatch h

/-- One of the lookups of a restart. -/
theorem lookup_brings {α : Type} {k : Key} {f : String → Action CellError α}
    {Q : Except CellError α → Estate → Prop}
    (habsent : v.contents.text k.render = none → Q (.error (.store (.notFound k.render))) v)
    (hf : ∀ value, v.contents.text k.render = some value →
      Brings (World.estate (σ := σ)) (f value) v Q) :
    Brings (World.estate (σ := σ)) (ExceptT.adapt .store (Action.call (.get k.render)) >>= f) v
      Q := by
  refine (brings_get k.render v).bind_adapt ?_ ?_
  · rintro value _ ⟨hvalue, rfl⟩
    exact hf value (answerFor_eq_ok.mp hvalue.symm)
  · rintro failure v' ⟨hfailure, rfl⟩
    cases htext : v'.contents.text k.render with
    | some value => rw [htext] at hfailure; exact nomatch hfailure
    | none => rw [htext] at hfailure; exact Except.error.inj hfailure ▸ habsent htext

/-- A restart that is queued, or that fails for want of what it is made from. -/
theorem queueRestart_brings (htree : ctx.tree = some tree) :
    Brings (World.estate (σ := σ)) (queueRestart ctx tree) (v.missed tree ctx.pass) fun r v' =>
      match r with
      | .ok _ => ∃ text first cell, v' =
        (v.missed tree ctx.pass).mint.append Key.eventQueue.render
          (restartPayload ctx (Identifier.render v.minted) text first cell).encode
      | .error e => Fails ctx v e v' := by
  unfold queueRestart
  split
  · rename_i hinformation
    exact brings_throw (.noInformation htree hinformation)
  · rename_i information hinformation
    refine lookup_brings (k := .information information)
      (.notFound htree (.inl ⟨information, hinformation, rfl⟩)) fun text _ => ?_
    refine lookup_brings (k := .firstBehaviour tree)
      (.notFound htree (.inr (.inl rfl))) fun first hfirst => ?_
    refine lookup_brings (k := .binding first)
      (.notFound htree (.inr (.inr ⟨first, hfirst, rfl⟩))) fun cell _ => ?_
    refine Brings.andThen (Q := fun id v' => id = Identifier.render v.minted ∧
      v' = (v.missed tree ctx.pass).mint) (brings_lift fun w hw => ?_) ?_
    · refine ⟨_, rfl, congrArg (fun u : Estate => Identifier.render u.minted) hw, ?_⟩
      rw [← hw]
      rfl
    · rintro _ _ ⟨rfl, rfl⟩
      refine brings_adapt ((brings_queue_push _ _ _).imp ?_)
      rintro _ _ ⟨u, rfl, rfl⟩
      exact ⟨text, first, cell, rfl⟩

/-- A miss is counted before anything is looked up. -/
theorem retraverse_brings (limit : UInt32) (htree : ctx.tree = some tree) :
    Brings (World.estate (σ := σ)) (retraverse limit ctx tree) v fun r v' =>
      match r with
      | .ok (some attempt) => Fails ctx v (.expectationNotMet tree attempt) v'
      | .ok none => True
      | .error e => Fails ctx v e v' := by
  unfold retraverse
  refine (brings_incr (.misses tree ctx.pass) v).adapt_andThen ?_
  rintro misses _ rfl
  split
  · exact brings_pure trivial
  · refine (brings_incr (.retraversals tree) _).adapt_andThen ?_
    rintro attempt _ rfl
    split
    · exact brings_throw (.exhausted htree _)
    · refine (queueRestart_brings htree).bind ?_ fun e v' h => h
      rintro _ v' ⟨text, first, cell, rfl⟩
      exact brings_pure (.restarted htree text first cell attempt)

theorem conclude_brings (limit : UInt32) (ctx : Context) (output : String) (v : Estate) :
    Brings (World.estate (σ := σ)) (conclude limit ctx output) v fun r v' =>
      ∀ e, r = .error e → Fails ctx v e v' := by
  unfold conclude
  split
  · refine (deliver_brings ctx output v).bind ?_ ?_
    · exact fun _ _ _ => brings_pure fun e h => nomatch h
    · rintro e v' h _ ⟨⟩
      exact h e rfl
  · split
    · rename_i htree
      refine brings_throw ?_
      rintro _ ⟨⟩
      exact .noTree htree
    · rename_i tree htree
      refine (retraverse_brings limit htree).bind ?_ ?_
      · rintro (_ | attempt) v' h
        · exact brings_pure fun e h => nomatch h
        · refine brings_throw ?_
          rintro _ ⟨⟩
          exact h
      · rintro e v' h _ ⟨⟩
        exact h

end Cell

/-- Whatever the context, the arguments and the store: a failure of the output cell either finds
nothing written, or it comes after a miss and a restart were counted. The restart itself is queued
only if the expectation is reported as not met. -/
theorem output_failure_leaves {σ : Type} [Store σ] [FaultFree σ] [Sorting σ] {limit : UInt32}
    {ctx : Context} {args : List Value} {w w' : World σ} {failure : CellError}
    (hrun : w.run ((Cell.output limit).call ctx args).run = (.error failure, w')) :
    Cell.Fails ctx w.estate failure w'.estate := by
  have hbrings : Action.Brings (World.estate (σ := σ)) ((Cell.output limit).call ctx args) w.estate
      fun r v' => ∀ e, r = .error e → Cell.Fails ctx w.estate e v' := by
    cases args with
    | nil =>
      refine Action.brings_throw ?_
      rintro _ ⟨⟩
      exact .nothing
    | cons value rest =>
      refine (Cell.isAnswered_brings ctx w.estate).adapt_andThen ?_
      rintro answered _ rfl
      split
      · exact Action.brings_pure fun e h => nomatch h
      · exact Cell.conclude_brings limit ctx value.display _
  have hfails := hbrings w rfl failure
  rw [hrun] at hfails
  exact hfails rfl

/-- A result that misses the expectation of its session, in a context without a record. -/
def unrecordedMiss : Context :=
  { id := "c", tree := some "t", session := some "s", expectation := some "b" }

theorem output_failure_leaves_of_unrecorded_miss :
    let w := World.inMemory 0
    let call := ((Cell.output 0).call unrecordedMiss [.text "a"]).run
    (w.run call).1 = .error (.missingContext .information) ∧
      Cell.Fails unrecordedMiss w.estate (.missingContext .information) (w.run call).2.estate := by
  intro w call
  have hrun : (w.run call).1 = .error (.missingContext .information) := rfl
  exact ⟨hrun, output_failure_leaves (Prod.ext hrun rfl)⟩

/-- The miss fails because the record is missing, and both counts have moved. -/
theorem counts_moved_by_unrecorded_miss :
    let w := World.inMemory 0
    let call := ((Cell.output 0).call unrecordedMiss [.text "a"]).run
    (w.run call).1 = .error (.missingContext .information) ∧
      w.store.texts.get? (Key.misses "t" 0).render = none ∧
      (w.run call).2.store.texts.get? (Key.misses "t" 0).render = some "1" ∧
      (w.run call).2.store.texts.get? (Key.retraversals "t").render = some "1" := by
  exact ⟨rfl, rfl, rfl, rfl⟩

end SelfWiring
