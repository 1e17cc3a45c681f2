import SelfWiring.Proofs.Forest
import SelfWiring.Proofs.Replay

/-!
# Where texts enter

A text is recorded under one identifier, whatever it consists of, and a record has one entry
behaviour for each of the two cells at which a text can enter. Records and entry behaviours are made
once and kept, and no two of them share an identifier. So the payloads with which two trees begin
carry the same record if and only if the trees are of the same text, and are for the same behaviour
if and only if in addition both texts are echoed or neither is.
-/

namespace SelfWiring

namespace Engine

theorem entryCell_inj {s s' : Submission} : entryCell s = entryCell s' ↔ s.echo = s'.echo := by
  unfold entryCell
  cases s.echo <;> cases s'.echo <;> decide

end Engine

/-! ## Networks -/

namespace Net

/-- A tree of a submission whose text is on record and enters where the tree begins. -/
structure Enters (n : Net) (s : Submission) (tree information behaviour : String) : Prop where
  identified : n.text (.informationId s.input) = some information
  entered : n.text (.entry information (Engine.entryCell s)) = some behaviour
  anchored : n.text (.firstBehaviour tree) = some behaviour

variable {r : Registry} {limit : UInt64} {n m : Net} {s s' : Submission}
  {tree tree' i i' b b' : String}

theorem Enters.mono (h : n.Enters s tree i b) (hgrows : n.Grows m) : m.Enters s tree i b where
  identified := hgrows.text (.informationId s.input) trivial i h.identified
  entered := hgrows.text (.entry i (Engine.entryCell s)) trivial b h.entered
  anchored := hgrows.firstBehaviour h.anchored

/-- Records are of the same text if they are the same. -/
theorem Enters.information_eq_iff (hn : n.WellFormed r limit) (h : n.Enters s tree i b)
    (h' : n.Enters s' tree' i' b') : i = i' ↔ s.input = s'.input := by
  constructor
  · rintro rfl
    have hrecord := hn.recorded s.input i h.identified
    exact Option.some.inj (hrecord.symm.trans (hn.recorded s'.input i h'.identified))
  · intro hinput
    exact Option.some.inj (h.identified.symm.trans (hinput ▸ h'.identified))

/-- An entry behaviour tells its record, and the cell that it is bound to. -/
theorem Enters.behaviour_eq_iff (hn : n.WellFormed r limit) (h : n.Enters s tree i b)
    (h' : n.Enters s' tree' i' b') : b = b' ↔ s.input = s'.input ∧ s.echo = s'.echo := by
  rw [← h.information_eq_iff hn h', ← Engine.entryCell_inj]
  constructor
  · rintro rfl
    have hbinding := hn.grown.entered i _ b h.entered
    exact ⟨hn.grown.unshared i i' _ _ b h.entered h'.entered,
      Option.some.inj (hbinding.symm.trans (hn.grown.entered i' _ b h'.entered))⟩
  · rintro ⟨rfl, hcell⟩
    exact Option.some.inj (h.entered.symm.trans (hcell ▸ h'.entered))

/-- A tree that is there already is not the one that begins next. -/
theorem Enters.ne_fresh (hn : n.WellFormed r limit) (h : n.Enters s tree i b) : tree ≠ n.fresh := by
  rintro rfl
  have hfree : n.text (.firstBehaviour n.fresh) = none := hn.unanchored n.minted (Nat.le_refl _)
  exact absurd (hfree.symm.trans h.anchored) (by simp)

end Net

/-! ## Runs -/

variable {σ : Type} [Store σ] [FaultFree σ] {e : Engine}

theorem Run.growsWellFormed (ht : e.PreservesWellFormed σ) {w w' : World σ} {ds : List Label}
    (h : w.net.WellFormed e.registry e.config.maxSignals) (hrun : Run e w ds w') :
    w.net.GrowsWellFormed e.registry e.config.maxSignals w'.net := by
  induction hrun with
  | nil => exact h.refl
  | snoc _ hstep ih => exact ih.trans (step_growsWellFormed ht ih.wellFormed hstep)

/-- The payload with which a tree begins: what it carries is on record, and it is for the first
behaviour of the tree, which is bound to the cell at which the text enters. -/
structure World.Admits (w : World σ) (s : Submission) (tree : String) (p : Payload) : Prop where
  record : ∃ i, p.context.information = some i ∧ w.text (.informationId s.input) = some i ∧
    w.text (.information i) = some s.input
  anchored : w.text (.firstBehaviour tree) = some p.destination
  bound : w.text (.binding p.destination) =
    some (if s.echo then Cell.outputName else Cell.inputName)

theorem World.admits_of_enters {r : Registry} {limit : UInt64} {w : World σ} {s : Submission}
    {id tree i b : String} (hw : w.net.WellFormed r limit) (h : w.net.Enters s tree i b) :
    w.Admits s tree (Engine.firstPayload s id tree i b) where
  record := by
    refine ⟨i, rfl, ?_, ?_⟩
    · exact (w.net_text (.informationId s.input) trivial).symm.trans h.identified
    · exact (w.net_text (.information i) trivial).symm.trans (hw.recorded s.input i h.identified)
  anchored := (w.net_text (.firstBehaviour tree) trivial).symm.trans h.anchored
  bound := (w.net_binding b).symm.trans (hw.grown.entered i _ b h.entered)

/-- What accepting a submission comes to. -/
theorem Step.enters {w w' : World σ} {s : Submission} {result : Except EngineError String}
    (hstep : Step e w (.accepted s result) w') : result = .ok w.net.fresh ∧ ∃ id i b,
      w'.queue = w.queue ++ [(Engine.firstPayload s id w.net.fresh i b).encode] ∧
      w'.net.Enters s w.net.fresh i b := by
  obtain ⟨hresult, hnet⟩ := hstep.of_accepted
  obtain ⟨id, i, b, hqueue, hi, hb, hfirst⟩ := w.net.accept_enters s
  rw [← hnet] at hqueue hi hb hfirst
  exact ⟨hresult, id, i, b, hqueue, hi, hb, hfirst⟩

/-- Of any two submissions that are accepted in a run, whatever is done before, between and after
them, the records are the same if and only if the texts are, and the first payloads are for the same
behaviour if and only if the texts are the same and both of them are echoed or neither is. The trees
are different, and each begins at the behaviour that its first payload is for. -/
theorem entry_points_stable {config : Config} {extras : List Cell}
    (he : Engine.assemble { config, cells := some (Cell.standard config ++ extras) } = .ok e)
    (hextras : ∀ c ∈ extras, ∀ ctx args, (c.call ctx args).run.StoreFree)
    {w₀ w₁ w₁' w₂ w₂' : World σ} {ds₁ ds₂ : List Label} {s₁ s₂ : Submission}
    {r₁ r₂ : Except EngineError String} (h₀ : w₀.Empty)
    (hrun₁ : Run e w₀ ds₁ w₁) (hstep₁ : Step e w₁ (.accepted s₁ r₁) w₁')
    (hrun₂ : Run e w₁' ds₂ w₂) (hstep₂ : Step e w₂ (.accepted s₂ r₂) w₂') :
    ∃ tree₁ tree₂ p₁ p₂, r₁ = .ok tree₁ ∧ r₂ = .ok tree₂ ∧
      w₁'.queue = w₁.queue ++ [p₁.encode] ∧ w₂'.queue = w₂.queue ++ [p₂.encode] ∧
      (p₁.context.information = p₂.context.information ↔ s₁.input = s₂.input) ∧
      (p₁.destination = p₂.destination ↔ s₁.input = s₂.input ∧ s₁.echo = s₂.echo) ∧
      tree₁ ≠ tree₂ ∧
      (∀ ds w, Run e w₁' ds w → w.Admits s₁ tree₁ p₁) ∧
      ∀ ds w, Run e w₂' ds w → w.Admits s₂ tree₂ p₂ := by
  have ht := Engine.preservesWellFormed_of_storeFree (σ := σ) he hextras
  have hformed₁' := (hrun₁.snoc hstep₁).wellFormed ht h₀
  have hbetween := hrun₂.growsWellFormed ht hformed₁'
  have hsecond := step_growsWellFormed ht hbetween.wellFormed hstep₂
  obtain ⟨rfl, id₁, i₁, b₁, hqueue₁, henters₁⟩ := hstep₁.enters
  obtain ⟨rfl, id₂, i₂, b₂, hqueue₂, henters₂⟩ := hstep₂.enters
  -- both trees are looked at where the second has begun
  have henters := henters₁.mono (hbetween.trans hsecond).grows
  refine ⟨_, _, _, _, rfl, rfl, hqueue₁, hqueue₂, ?_, ?_, ?_, ?_, ?_⟩
  · have hrecords := henters.information_eq_iff hsecond.wellFormed henters₂
    exact (Option.some.injEq i₁ i₂).to_iff.trans hrecords
  · exact henters.behaviour_eq_iff hsecond.wellFormed henters₂
  · exact (henters₁.mono hbetween.grows).ne_fresh hbetween.wellFormed
  · intro ds w hrun
    have hlater := hrun.growsWellFormed ht hformed₁'
    exact World.admits_of_enters hlater.wellFormed (henters₁.mono hlater.grows)
  · intro ds w hrun
    have hlater := hrun.growsWellFormed ht hsecond.wellFormed
    exact World.admits_of_enters hlater.wellFormed (henters₂.mono hlater.grows)

/-- A text that looks like a key and like a pattern is accepted, and right after that accepted again
as an echo. -/
theorem entry_points_stable_of_key_like_text : ∃ (e : Engine) (w w' : World Memory)
    (tree tree' : String) (p p' : Payload),
    Step e (.inMemory 0) (.accepted { input := "*:[id", session := "a" } (.ok tree)) w ∧
    w.queue = [p.encode] ∧ w'.queue = w.queue ++ [p'.encode] ∧
    p.context.information = p'.context.information ∧ p.destination ≠ p'.destination ∧
    tree ≠ tree' ∧ w.Admits { input := "*:[id", session := "a" } tree p := by
  obtain ⟨e, he⟩ := Engine.exists_standard {} rfl
  have hextras : ∀ c ∈ ([] : List Cell), ∀ ctx args, (c.call ctx args).run.StoreFree := by simp
  have hfirst := Step.accept (e := e) { input := "*:[id", session := "a" } (World.inMemory 0)
  generalize (World.run _ (World.inMemory 0)).2 = w at hfirst
  have hecho := Step.accept (e := e) { input := "*:[id", echo := true, session := "b" } w
  obtain ⟨tree, tree', p, p', htree, -, hqueue, hqueue', hinformation, hdestination, hne,
      hadmits, -⟩ :=
    entry_points_stable he hextras (World.empty_inMemory 0) (.nil _) hfirst (.nil _) hecho
  rw [htree] at hfirst
  refine ⟨e, _, _, tree, tree', p, p', hfirst, hqueue, hqueue', hinformation.mpr rfl, ?_, hne,
    hadmits _ _ (.nil _)⟩
  intro hsame
  exact absurd (hdestination.mp hsame).2 (by simp)

end SelfWiring
