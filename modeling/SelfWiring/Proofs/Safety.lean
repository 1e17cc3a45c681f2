import Mathlib.Data.List.Forall2
import SelfWiring.Proofs.Echoes

/-!
# Runs do not get stuck

An engine that is assembled from the standard cells, and from guests that keep to their signatures
and leave the store alone, never fails to find a cell, never hands a cell arguments that it does not
take, never misses a part of a context and never meets a failure of the store. What can fail is a
cell that objects to its arguments, an expectation that is not met, and a budget of restarts that is
used up.
-/

namespace SelfWiring

/-! ## Guests -/

/-- A program that calls no store, whatever the answers to its other effects. -/
def Program.StoreFree {α : Type} : Program α → Prop
  | .done _ => True
  | .perform (.store _) _ => False
  | .perform (.elsewhere _) _ => False
  | .perform _ next => ∀ answer, (next answer).StoreFree

variable {σ : Type} [Store σ]

/-- A cell that calls no store, and comes to an objection or to as many results as it declares, each
of the declared kind. No declared kind stands for all kinds at once. -/
structure Cell.Guest (σ : Type) [Store σ] (c : Cell) : Prop where
  storeFree : ∀ ctx args, (c.call ctx args).run.StoreFree
  honest : ∀ (w : World σ) ctx args, c.signature.accepts args = true →
    (∃ name objection, (w.run (c.call ctx args).run).1 = .error (.domain name objection)) ∨
      ∃ results, (w.run (c.call ctx args).run).1 = .ok results ∧
        List.Forall₂ (fun (k : Kind) v => k.takes v = true) c.signature.outputs results
  concrete : Kind.any ∉ c.signature.outputs

/-- A cell that computes results of the declared kinds from its arguments alone. -/
theorem Cell.guest_pure {name : String} {signature : Signature} {metadata : List (String × String)}
    {f : List Value → Except Objection (List Value)}
    (hkinds : ∀ args results, signature.accepts args = true → f args = .ok results →
      List.Forall₂ (fun (k : Kind) v => k.takes v = true) signature.outputs results)
    (hconcrete : Kind.any ∉ signature.outputs) : (Cell.pure name signature metadata f).Guest σ where
  storeFree ctx args := by
    unfold Cell.pure
    dsimp only
    cases f args <;> trivial
  honest w ctx args haccepts := by
    unfold Cell.pure
    dsimp only
    cases hf : f args with
    | ok results => exact Or.inr ⟨results, rfl, hkinds args results haccepts hf⟩
    | error objection => exact Or.inl ⟨name, objection, rfl⟩
  concrete := hconcrete

/-- A guest that shows its argument as a text. -/
def Cell.display : Cell :=
  .pure "display" ⟨[.any], [.text], false⟩ [] fun args =>
    .ok [.text ((args.map Value.display).headD "")]

theorem Cell.guest_display : Cell.display.Guest σ := by
  refine guest_pure (fun args results _ h => ?_) (by decide)
  rw [← Except.ok.inj h]
  exact .cons rfl .nil

variable [FaultFree σ]

namespace Net

theorem Quiet.refl (n : Net) : n.Quiet n := ⟨0, [], by simp⟩

theorem Quiet.trans {n m k : Net} (h : n.Quiet m) (h' : m.Quiet k) : n.Quiet k := by
  obtain ⟨i, es, rfl⟩ := h
  obtain ⟨j, es', rfl⟩ := h'
  refine ⟨i + j, es ++ es', ?_⟩
  simp only [List.append_assoc, Nat.add_assoc]

end Net

theorem World.quiet_run {α : Type} {p : Program α} (hp : p.StoreFree) :
    ∀ w : World σ, w.net.Quiet (w.run p).2.net := by
  induction p with
  | done a => intro w; exact .refl w.net
  | perform e next ih =>
    intro w
    cases e
    case store c => exact hp.elim
    case elsewhere c => exact hp.elim
    case mint =>
      exact Net.Quiet.trans ⟨1, [], by simp [net, contents, Net.ofContents]⟩ (ih _ (hp _) _)
    case publish event =>
      exact Net.Quiet.trans ⟨0, [event], rfl⟩ (ih _ (hp _) { w with events := w.events ++ [event] })
    all_goals exact ih _ (hp _) _

theorem kinds_of_takes {ks : List Kind} {vs : List Value} (hany : Kind.any ∉ ks)
    (h : List.Forall₂ (fun (k : Kind) v => k.takes v = true) ks vs) : vs.map Value.kind = ks := by
  induction h with
  | nil => rfl
  | cons htakes _ ih =>
    rename_i k v ks vs _
    have hk : k ≠ .any := fun heq => hany (heq ▸ List.mem_cons_self)
    have hkind : v.kind = k := by
      simp only [Kind.takes, Bool.or_eq_true, beq_iff_eq] at htakes
      exact (htakes.resolve_left hk).symm
    rw [List.map_cons, hkind, ih fun hmem => hany (List.mem_cons_of_mem _ hmem)]

theorem Cell.Guest.computing {c : Cell} (hc : c.Guest σ) : c.Computing σ Net.Quiet := by
  rintro ctx args _ hserved w rfl
  refine ⟨World.quiet_run (hc.storeFree ctx args) w, ?_⟩
  rcases hc.honest w ctx args hserved.accepted with ⟨name, objection, h⟩ | ⟨results, h, htakes⟩
  · rw [h]
    exact .objection name objection
  · rw [h]
    exact .results results (kinds_of_takes hc.concrete htakes)

/-! ## Engines of standard cells and guests -/

namespace Engine

variable {config : Config} {e : Engine} {extras : List Cell}

theorem get?_of_assembled {cells : List Cell}
    (he : assemble { config, cells := some cells } = .ok e) {c : Cell} (hc : c ∈ cells) :
    e.registry.get? c.name = some c :=
  Registry.get?_of_mem (((assemble_eq_ok he).2 c).mpr hc)

theorem serves_of_guests (hextras : ∀ c ∈ extras, c.Guest σ)
    (he : assemble { config, cells := some (Cell.standard config ++ extras) } = .ok e) :
    e.Serves σ Net.Quiet := by
  obtain ⟨hconfig, hmem⟩ := assemble_eq_ok he
  have hinput : Cell.input ∈ Cell.standard config ++ extras := by simp [Cell.standard]
  have houtput : Cell.output config.maxRetraversals ∈ Cell.standard config ++ extras := by
    simp [Cell.standard]
  refine ⟨get?_of_assembled he hinput, ?_, fun name c hc hname => ?_, fun _ _ h => h⟩
  · rw [hconfig]
    exact get?_of_assembled he houtput
  · rcases List.mem_append.mp ((hmem c).mp (Registry.mem_of_get? hc)) with hstandard | hextra
    · rcases Cell.eq_output_or_mem_of_mem_standard hstandard with rfl | hcell
      · exact absurd (Registry.name_of_get? hc).symm hname
      · intro ctx args n hserved
        refine (Cell.standard_computing hcell ctx args n hserved).imp ?_
        rintro r m ⟨rfl, hproper⟩
        exact ⟨.refl m, hproper⟩
    · exact (hextras c hextra).computing

theorem serves_of_standard
    (he : assemble { config, cells := some (Cell.standard config) } = .ok e) :
    e.Serves σ fun n m => m = n := by
  obtain ⟨hconfig, hmem⟩ := assemble_eq_ok he
  have hinput : Cell.input ∈ Cell.standard config := by simp [Cell.standard]
  have houtput : Cell.output config.maxRetraversals ∈ Cell.standard config := by
    simp [Cell.standard]
  refine ⟨get?_of_assembled he hinput, ?_, fun name c hc hname => ?_, fun n m h => h ▸ .refl n⟩
  · rw [hconfig]
    exact get?_of_assembled he houtput
  · have hmem := (hmem c).mp (Registry.mem_of_get? hc)
    rcases Cell.eq_output_or_mem_of_mem_standard hmem with rfl | hcell
    · exact absurd (Registry.name_of_get? hc).symm hname
    · exact Cell.standard_computing hcell

theorem exists_standard (config : Config) (hvalid : config.fault? = none) :
    ∃ e, assemble { config, cells := some (Cell.standard config) } = .ok e := by
  have hnames : (Cell.standard config).map (·.name) = ["input", "split-features", "sum", "subtract",
      "multiply", "divide", "greater", "equal", "output"] := rfl
  refine exists_assemble hvalid ?_ ?_ ?_ <;> rw [hnames] <;> decide

/-! ## Failures -/

/-- What processing may come to: an outcome, an objection of a cell, an expectation that is not met
or a budget that is used up. -/
inductive Expected : Except EngineError Outcome → Prop
  | outcome (o : Outcome) : Expected (.ok o)
  | objection (name : String) (objection : Objection) :
    Expected (.error (.cell (.domain name objection)))
  | expectationNotMet (tree : String) (attempt : Int64) :
    Expected (.error (.cell (.expectationNotMet tree attempt)))
  | budgetExhausted (tree : String) (attempts : Int64) :
    Expected (.error (.cell (.budgetExhausted tree attempts)))

theorem Processed.expected {heard : Net → Net → Prop} {n m : Net} {p : Payload} {cell : Cell}
    {tree session : String} {result : Except EngineError Outcome}
    (h : Processed σ e heard n p cell tree session result m) : Expected result := by
  cases h with
  | objected _ _ name objection => exact .objection name objection
  | ended => exact .outcome _
  | passedOn => exact .outcome _
  | concluded _ _ hconcluded =>
    cases hconcluded with
    | answered | delivered | passedOver => exact .outcome _
    | exhausted => exact .budgetExhausted _ _
    | restarted => exact .expectationNotMet _ _

end Engine

/-- No step of a run from an empty store fails for a reason of structure, and whatever is queued can
be read. -/
theorem no_structural_failure {config : Config} {e : Engine} {extras : List Cell}
    (he : Engine.assemble { config, cells := some (Cell.standard config ++ extras) } = .ok e)
    (hextras : ∀ c ∈ extras, c.Guest σ) {w₀ w : World σ} {ds : List Label} (h₀ : w₀.Empty)
    (hrun : Run e w₀ ds w) :
    (∀ p result queued, .processed p result queued ∈ ds → Engine.Expected result) ∧
      ∀ item ∈ w.queue, ∃ p, Payload.decode? item = some p := by
  have hs := Engine.serves_of_guests hextras he
  have hinv := Inv.empty h₀ e.registry
  obtain ⟨hqueue, hlabels⟩ := hrun.induct hs (P := fun ds _ => ∀ p result queued,
    .processed p result queued ∈ ds → Engine.Expected result) hinv (by simp) (by
      intro ds n d m _ hds hmoves p result queued hmem
      rcases List.mem_append.mp hmem with hmem | hmem
      · exact hds p result queued hmem
      · rw [List.mem_singleton] at hmem
        subst hmem
        cases hmoves with
        | process _ _ _ _ _ hprocessed => exact hprocessed.expected)
  refine ⟨hlabels, fun item hitem => ?_⟩
  obtain ⟨p, _, _, rfl, _, _⟩ := hqueue.queued item hitem
  exact ⟨p, Payload.decode?_encode p⟩

/-- A run of an engine with a guest, in which a tree is restarted. -/
theorem no_structural_failure_of_restart : ∃ (e : Engine) (ds : List Label) (w : World Memory),
    Engine.assemble { cells := some (Cell.standard {} ++ [.display]) } = .ok e ∧
    Run e (.inMemory 0) ds w ∧ ds.length = 2 ∧
    (∀ p result queued, .processed p result queued ∈ ds → Engine.Expected result) ∧
    ∃ item ∈ w.queue, ∃ p, Payload.decode? item = some p := by
  obtain ⟨e, he⟩ :
      ∃ e, Engine.assemble { cells := some (Cell.standard {} ++ [.display]) } = .ok e := ⟨_, rfl⟩
  have hextras : ∀ c ∈ [Cell.display], c.Guest Memory := by
    intro c hc
    rw [List.mem_singleton.mp hc]
    exact Cell.guest_display
  have h₀ := World.empty_inMemory 0
  obtain ⟨p, q, w, hrun, _, hqueue⟩ := exists_run_restarted (Engine.serves_of_guests hextras he) h₀
    (s := { input := "4", echo := true, session := "a", expectation := some "5" }) rfl rfl
    (by decide)
  obtain ⟨hexpected, hread⟩ := no_structural_failure he hextras h₀ hrun
  have hmem : q.encode ∈ w.queue := by
    rw [hqueue]
    exact List.mem_cons_self
  exact ⟨e, _, w, he, hrun, rfl, hexpected, q.encode, hmem, hread _ hmem⟩

end SelfWiring
