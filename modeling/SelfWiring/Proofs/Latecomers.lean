import SelfWiring.Proofs.Refusals

/-!
# Producers that have their behaviours already

The behaviours that follow a producer are stored once: whoever comes later gets the stored set back.
What comes later still binds the behaviours that it lists, since bindings are written first and
without looking. So no set ever changes again, and of the bindings those of the listed behaviours
do, also where such a behaviour is in a stored set. Behaviours that were minted for the occasion are
in none.
-/

namespace SelfWiring

/-- The texts after behaviours were bound to their cells, one after the other. -/
def boundTexts (text : String → Option String) :
    List (String × String) → String → Option String
  | [] => text
  | (behaviour, cell) :: rest =>
    boundTexts (Function.update text (Key.binding behaviour).render (some cell)) rest

/-- The last of the cells that are listed for a behaviour is the one that it runs. -/
theorem boundTexts_binding (behaviour : String) (bound : List (String × String)) :
    ∀ text, boundTexts text bound (Key.binding behaviour).render =
      (bound.reverse.lookup behaviour).or (text (Key.binding behaviour).render) := by
  induction bound with
  | nil => exact fun _ => rfl
  | cons e bound ih =>
    obtain ⟨other, cell⟩ := e
    intro text
    rw [boundTexts, ih, List.reverse_cons, List.lookup_append, Option.or_assoc]
    by_cases hsame : behaviour = other
    · subst hsame
      simp
    · have hinj : (Key.binding behaviour).render = (Key.binding other).render ↔
          Key.binding behaviour = Key.binding other := Key.render_inj trivial trivial
      have hkey : (Key.binding behaviour).render ≠ (Key.binding other).render := fun h =>
        hsame (Key.binding.inj (hinj.mp h))
      have hmissing : (behaviour == other) = false := beq_false_of_ne hsame
      simp [Function.update_of_ne hkey, List.lookup_cons, hmissing]

theorem boundTexts_of_forall_ne {key : String} (bound : List (String × String))
    (hkey : ∀ behaviour ∈ bound.map (·.1), key ≠ (Key.binding behaviour).render) :
    ∀ text, boundTexts text bound key = text key := by
  induction bound with
  | nil => exact fun _ => rfl
  | cons e bound ih =>
    intro text
    obtain ⟨hfirst, hrest⟩ := List.forall_mem_cons.mp hkey
    rw [boundTexts, ih hrest, Function.update_of_ne hfirst]

namespace Graph

open SelfWiring.Action

variable {σ : Type} [Store σ] [FaultFree σ] [Sorting σ] {v : Estate} {producer : String}
  {stored : List String}

theorem bindAll_brings (bound : List (String × String)) :
    ∀ v : Estate, Brings (World.estate (σ := σ)) (bindAll bound) v fun r v' =>
      ∃ u, r = .ok u ∧
        v' = { v with
          contents := { v.contents with text := boundTexts v.contents.text bound } } := by
  induction bound with
  | nil => exact fun v => brings_pure ⟨(), rfl, rfl⟩
  | cons e bound ih =>
    intro v
    have hbind : Brings (World.estate (σ := σ)) (bind e.1 e.2) v fun r v' => ∃ u, r = .ok u ∧
        v' = { v with contents := v.contents.putText (Key.binding e.1).render e.2 } :=
      (brings_call (c := .set (Key.binding e.1).render e.2) trivial fun s hs =>
        hs ▸ FaultFree.set _ e.2 s).imp fun _ _ h => ⟨(), h⟩
    refine hbind.andThen ?_
    rintro _ _ rfl
    exact ih _

theorem initConnections_of_stored
    (hstored : v.contents.set (Key.connections producer).render = some stored)
    (successors : List String) :
    Brings (World.estate (σ := σ)) (initConnections producer successors) v fun r v' =>
      r = .ok stored ∧ v' = v := by
  have hinit : Brings (World.estate (σ := σ))
      (call (.setInit (Key.connections producer).render successors)) v fun r v' =>
        ∃ b, r = .ok b ∧ v' = v :=
    (brings_call (c := .setInit _ successors) trivial fun s hs =>
      hs ▸ FaultFree.setInit_some _ successors s stored (hs ▸ hstored)).imp fun _ _ h => ⟨_, h⟩
  refine hinit.andThen ?_
  rintro _ _ rfl
  refine (brings_call (c := .setMembers _) trivial fun s hs =>
    hs ▸ FaultFree.setMembers _ s).imp fun r v' h => ?_
  rw [answerFor_eq_ok.mpr hstored] at h
  exact h

/-- **A producer keeps the behaviours that it has.** Whoever connects it again, to whatever
behaviours, gets the stored set back, and all that changes is that the listed behaviours are bound,
each to the last of the cells listed for it. Every set stays as it is, and so does the binding of
every behaviour that is not listed. -/
theorem connect_of_stored (w : World σ) (hstored : w.connections producer = some stored)
    (successors : List (String × String)) :
    (w.run (connect producer successors).run).1 = .ok stored ∧
      (∀ other, (w.run (connect producer successors).run).2.connections other =
        w.connections other) ∧
      (∀ behaviour, (w.run (connect producer successors).run).2.text (.binding behaviour) =
        (successors.reverse.lookup behaviour).or (w.text (.binding behaviour))) ∧
      (∀ key, (∀ behaviour ∈ successors.map (·.1), key ≠ (Key.binding behaviour).render) →
        (w.run (connect producer successors).run).2.contents.text key = w.contents.text key) ∧
      (w.run (connect producer successors).run).2.contents.set = w.contents.set ∧
      (w.run (connect producer successors).run).2.contents.list = w.contents.list ∧
      ranking (w.run (connect producer successors).run).2.store = ranking w.store ∧
      (w.run (connect producer successors).run).2.minted = w.minted ∧
      (w.run (connect producer successors).run).2.events = w.events := by
  have hconnect : Brings (World.estate (σ := σ)) (connect producer successors) w.estate
      fun r v' => r = .ok stored ∧ v' = { w.estate with
        contents := { w.contents with text := boundTexts w.contents.text successors } } := by
    refine (bindAll_brings successors w.estate).andThen ?_
    rintro _ _ rfl
    exact initConnections_of_stored hstored _
  obtain ⟨hanswer, hafter⟩ := hconnect w rfl
  generalize w.run (connect producer successors).run = done at hanswer hafter ⊢
  have hcontents : done.2.contents =
      { w.contents with text := boundTexts w.contents.text successors } :=
    congrArg Estate.contents hafter
  have htext : done.2.contents.text = boundTexts w.contents.text successors := by rw [hcontents]
  have hset : done.2.contents.set = w.contents.set := by rw [hcontents]
  refine ⟨hanswer, fun other => congrFun hset _, fun behaviour => ?_, fun key hkey => ?_, hset,
    by rw [hcontents], congrArg Estate.ranking hafter, congrArg Estate.minted hafter,
    congrArg Estate.events hafter⟩
  · exact (congrFun htext _).trans (boundTexts_binding behaviour successors _)
  · rw [htext]
    exact boundTexts_of_forall_ne successors hkey _

/-- A world in which the one behaviour after a producer was stored. -/
def connectedOnce : World Memory :=
  ((World.inMemory 0).run (connect "p" [("a", "sum")]).run).2

theorem connections_connectedOnce : connectedOnce.connections "p" = some ["a"] := by decide

/-- A latecomer lists the stored behaviour twice, with another one. -/
theorem connect_of_stored_of_overlap :
    (connectedOnce.run (connect "p" [("a", "divide"), ("b", "sum"), ("a", "mean")]).run).1 =
        .ok ["a"] ∧
      connectedOnce.text (.binding "a") = some "sum" ∧
      (connectedOnce.run (connect "p" [("a", "divide"), ("b", "sum"), ("a", "mean")]).run).2.text
        (.binding "a") = some "mean" := by
  obtain ⟨hanswer, -, hbinding, -⟩ := connect_of_stored connectedOnce connections_connectedOnce
    [("a", "divide"), ("b", "sum"), ("a", "mean")]
  exact ⟨hanswer, by decide, hbinding "a"⟩

/-- A latecomer binds a behaviour of the stored set to another cell. -/
theorem binding_moved_by_latecomer :
    ∃ stored, connectedOnce.connections "p" = some stored ∧ "a" ∈ stored ∧
      (connectedOnce.run (connect "p" [("a", "divide")]).run).2.text (.binding "a") ≠
        connectedOnce.text (.binding "a") :=
  ⟨["a"], connections_connectedOnce, by decide, by decide⟩

end Graph

end SelfWiring
