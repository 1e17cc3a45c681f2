import SelfWiring.Proofs.References
import SelfWiring.Proofs.Routine
import SelfWiring.Proofs.Safety

/-!
# Interrupted operations

No operation of the graph, of a cell or of an engine is undone when a call in the middle of it
fails. References stay whole all the same, because every operation writes things before it writes a
reference to them: a behaviour is bound before it is an entry or in a set, a text is on record
before anything leads to the record, and a tree has its first behaviour before a payload travels for
it. What was written for nothing stays, and nothing refers to it.
-/

namespace SelfWiring

open Holding

/-! ## The graph -/

namespace Graph

open SelfWiring.Action

variable {r : Registry} {s : Holding} (h : Referential r s)

include h

theorem informationIdFor_endures (text : String) :
    Endures (Intact r) (informationIdFor text)
      (fun i t => ':' ∉ i.toList ∧ t.text (.information i) = some text) s := by
  refine (endures_lookup h (.informationId text)).bind ?_
  rintro found t - ⟨rfl, hfound⟩
  cases found with
  | some i => exact endures_pure h.intact (h.recorded text i (hfound i rfl))
  | none =>
    refine (endures_mint h).bind fun i t ht hfresh => ?_
    -- the record comes before what leads to it
    have hinformation := Admits.information hfresh text
    refine (endures_set ht.1 hinformation).bind ?_
    rintro _ _ hu rfl
    have hid := Admits.informationId hfresh.colon_not_mem hinformation.write_self
    refine (endures_set hu.1 hid).bind ?_
    rintro _ _ hv rfl
    exact endures_pure hv.1.intact
      ⟨hfresh.colon_not_mem, hv.2.information _ _ hinformation.write_self⟩

theorem entryBehaviour_endures {i c : String} (hcolon : ':' ∉ i.toList)
    (hc : c = Cell.inputName ∨ c = Cell.outputName) :
    Endures (Intact r) (entryBehaviour i c) (fun b t => t.text (.binding b) = some c) s := by
  refine (endures_lookup h (.entry i c)).bind ?_
  rintro found t - ⟨rfl, hfound⟩
  cases found with
  | some b => exact endures_pure h.intact (h.entered i c b (hfound b rfl))
  | none =>
    refine (endures_mint h).bind fun b t ht hfresh => ?_
    have hbinding := Admits.binding hfresh c
    refine (endures_set ht.1 hbinding).bind ?_
    rintro _ _ hu rfl
    refine (endures_set hu.1 (.entry hcolon hc hbinding.write_self)).bind ?_
    rintro _ _ hv rfl
    exact endures_pure hv.1.intact (hv.2.binding _ _ hbinding.write_self)

theorem anchorTree_endures (tree : String) {b c : String} (hbinding : s.text (.binding b) = some c)
    (hc : c = Cell.inputName ∨ c = Cell.outputName) :
    Endures (Intact r) (anchorTree tree b)
      (fun _ t => (t.text (.firstBehaviour tree)).isSome = true) s := by
  have hfirst := Admits.firstBehaviour tree hbinding hc
  refine (endures_set h hfirst).imp ?_
  rintro _ _ _ rfl
  rw [hfirst.write_self]
  rfl

omit h in
/-- Behaviours that are new and different are bound one after the other. -/
theorem bindAll_endures : ∀ {bound : List (String × String)} {s : Holding}, Referential r s →
    (bound.map (·.1)).Nodup → (∀ q ∈ bound, s.Fresh q.1) →
    Endures (Intact r) (bindAll bound) (fun _ t => ∀ q ∈ bound, t.text (.binding q.1) = some q.2) s
  | [], s, h, _, _ => endures_pure h.intact (by simp)
  | (b, c) :: rest, s, h, hnodup, hfresh => by
    obtain ⟨hb, hnodup⟩ := List.nodup_cons.mp hnodup
    have hbinding := Admits.binding (hfresh _ List.mem_cons_self) c
    refine (endures_set h hbinding).bind ?_
    rintro _ _ ht rfl
    refine (bindAll_endures ht.1 hnodup fun q hq => ?_).imp fun _ u hu hrest q hq => ?_
    · have hne : b ≠ q.1 := by
        rintro rfl
        exact hb (List.mem_map_of_mem (f := (·.1)) hq)
      exact (hfresh q (List.mem_cons_of_mem _ hq)).write hbinding (by simpa using hne) (by simp)
    · rcases List.mem_cons.mp hq with rfl | hq
      · exact hu.2.binding _ _ hbinding.write_self
      · exact hrest q hq

theorem connect_endures (producer : String) {bound : List (String × String)}
    (hnodup : (bound.map (·.1)).Nodup) (hfresh : ∀ q ∈ bound, s.Fresh q.1)
    (hcell : ∀ q ∈ bound, ∃ cell, r.get? q.2 = some cell ∧ cell.entry = false) :
    Endures (Intact r) (connect producer bound) (fun _ _ => True) s := by
  refine (bindAll_endures h hnodup hfresh).bind fun _ t ht hbound => ?_
  refine (endures_setInit ht.1 producer fun b hb => ?_).bind fun _ u hu _ => ?_
  · obtain ⟨q, hq, rfl⟩ := List.mem_map.mp hb
    obtain ⟨cell, hcell, hentry⟩ := hcell q hq
    exact ⟨q.2, cell, hbound q hq, hcell, hentry⟩
  · exact (endures_setMembers hu.1 _).imp fun _ _ _ _ => trivial

theorem track_endures (p : Payload) : Endures (Intact r) (track p) (fun _ _ => True) s := by
  unfold track
  split
  · exact endures_pure h.intact trivial
  · refine (endures_still (e := .clock) h fun _ _ heq => heq).bind ?_
    rintro now t ht -
    exact endures_zadd ht.1 _ _ _

end Graph

/-! ## Cells -/

namespace Cell

open SelfWiring.Action

variable {r : Registry}

/-- A cell that leaves references whole, whatever calls fail. -/
def KeepsReferences (r : Registry) (cell : Cell) : Prop :=
  ∀ ctx args s, Referential r s → Endures (Intact r) (cell.call ctx args) (fun _ _ => True) s

theorem KeepsReferences.calculate_endures {cell : Cell} (hcell : cell.KeepsReferences r)
    {s : Holding} (h : Referential r s) (p : Payload) :
    Endures (Intact r) (cell.calculate p)
      (fun results _ => ∃ args, results = { p with args }) s := by
  refine ((hcell p.context p.args s h).adapt _).bind fun results t ht _ => ?_
  split
  · exact endures_pure ht.1.intact ⟨results, rfl⟩
  · exact endures_throw ht.1.intact _

theorem pure_keepsReferences (name : String) (signature : Signature)
    (metadata : List (String × String)) (f : List Value → Except Objection (List Value)) :
    (Cell.pure name signature metadata f).KeepsReferences r := by
  intro ctx args s h
  unfold Cell.pure
  dsimp only
  cases f args with
  | ok results => exact endures_pure h.intact trivial
  | error objection => exact endures_throw h.intact _

theorem input_keepsReferences : input.KeepsReferences r := by
  intro ctx args s h
  refine (endures_ofExcept h.intact (textOf inputName args)).bind fun text t ht _ => ?_
  refine ((Graph.informationIdFor_endures ht.1 text).adapt _).bind fun _ u hu _ => ?_
  exact endures_pure hu.1.intact trivial

theorem splitFeatures_keepsReferences (default : String) :
    (splitFeatures default).KeepsReferences r := by
  intro ctx args s h
  refine (endures_ofExcept h.intact (textOf splitFeaturesName args)).bind fun text t ht _ => ?_
  have hstored : Endures (Intact r) (storedSeparator default) (fun _ _ => True) t := by
    refine (endures_lookup ht.1 .separator).bind ?_
    rintro found u hu -
    cases found with
    | some stored => exact endures_pure hu.1.intact trivial
    | none => exact endures_pure hu.1.intact trivial
  refine (hstored.adapt _).bind fun separator u hu _ => ?_
  split
  · exact endures_pure hu.1.intact trivial
  · exact endures_throw hu.1.intact _

/-- A restart is addressed to the first behaviour of its tree, and names the cell that this is bound
to. -/
theorem queueRestart_endures {s : Holding} (h : Referential r s) {ctx : Context} {tree : String}
    (htree : ctx.tree = some tree) :
    Endures (Intact r) (queueRestart ctx tree) (fun _ _ => True) s := by
  unfold queueRestart
  split
  · exact endures_throw h.intact _
  · refine ((endures_get h (.information _)).adapt _).bind ?_
    rintro text t - ⟨rfl, _⟩
    refine ((endures_get h (.firstBehaviour tree)).adapt _).bind ?_
    rintro first t - ⟨rfl, hfirst⟩
    refine ((endures_get h (.binding first)).adapt _).bind ?_
    rintro cell t - ⟨rfl, hcell⟩
    refine (endures_mint h).bind fun id t ht _ => ?_
    have hanchored := ht.2.anchored tree (by rw [hfirst]; rfl)
    have hp : t.Addressed (restartPayload ctx id text first cell) :=
      ⟨rfl, ⟨cell, rfl, ht.2.binding _ _ hcell⟩, ⟨tree, htree, hanchored⟩⟩
    exact (endures_push ht.1 hp).adapt _

theorem retraverse_endures {s : Holding} (h : Referential r s) (limit : UInt32) {ctx : Context}
    {tree : String} (htree : ctx.tree = some tree) :
    Endures (Intact r) (retraverse limit ctx tree) (fun _ _ => True) s := by
  refine ((endures_incr h (show ¬ Key.Lasting (.misses tree ctx.pass) from id)).adapt _).bind
    fun misses t ht _ => ?_
  split
  · exact endures_pure ht.1.intact trivial
  · refine ((endures_incr ht.1 (show ¬ Key.Lasting (.retraversals tree) from id)).adapt _).bind
      fun attempt u hu _ => ?_
    split
    · exact endures_throw hu.1.intact _
    · refine (queueRestart_endures hu.1 htree).bind fun _ v hv _ => ?_
      exact endures_pure hv.1.intact trivial

theorem deliver_endures {s : Holding} (h : Referential r s) (ctx : Context) (output : String) :
    Endures (Intact r) (deliver ctx output) (fun _ _ => True) s := by
  unfold deliver
  split
  · exact endures_throw h.intact _
  · have hclaim : Endures (Intact r) (claimAnswer (ctx.tree.getD "")) (fun _ _ => True) s := by
      unfold claimAnswer
      split
      · exact endures_pure h.intact trivial
      · refine (endures_incr h (show ¬ Key.Lasting (.done _) from id)).bind fun _ t ht _ => ?_
        exact endures_pure ht.1.intact trivial
    refine (hclaim.adapt _).bind fun claimed t ht _ => ?_
    split
    · refine ((endures_push_output ht.1 _ output).adapt _).bind fun _ u hu _ => ?_
      exact (endures_still (e := .publish _) hu.1 fun _ _ heq => heq).imp fun _ _ _ _ => trivial
    · exact endures_pure ht.1.intact trivial

theorem output_keepsReferences (limit : UInt32) : (output limit).KeepsReferences r := by
  intro ctx args s h
  cases args with
  | nil => exact endures_throw h.intact _
  | cons v vs =>
    have hanswered : Endures (Intact r) (isAnswered ctx) (fun _ _ => True) s := by
      unfold isAnswered
      split
      · exact endures_pure h.intact trivial
      · rename_i tree _
        refine (endures_lookup h (.done tree)).bind fun _ t ht _ => ?_
        exact endures_pure ht.1.intact trivial
    refine (hanswered.adapt _).bind fun answered t ht _ => ?_
    split
    · exact endures_pure ht.1.intact trivial
    · unfold conclude
      split
      · refine (deliver_endures ht.1 ctx _).bind fun _ u hu _ => ?_
        exact endures_pure hu.1.intact trivial
      · split
        · exact endures_throw ht.1.intact _
        · rename_i tree htree
          refine (retraverse_endures ht.1 limit htree).bind fun attempt u hu _ => ?_
          cases attempt with
          | some attempt => exact endures_throw hu.1.intact _
          | none => exact endures_pure hu.1.intact trivial

theorem standard_keepsReferences {config : Config} {cell : Cell} (hcell : cell ∈ standard config) :
    cell.KeepsReferences r := by
  rcases eq_output_or_mem_of_mem_standard hcell with rfl | hcell
  · exact output_keepsReferences _
  rcases List.mem_append.mp hcell with hcell | hcell
  · simp only [List.mem_cons, List.not_mem_nil, or_false] at hcell
    rcases hcell with rfl | rfl
    · exact input_keepsReferences
    · exact splitFeatures_keepsReferences _
  · simp only [arithmetic, List.mem_cons, List.not_mem_nil, or_false] at hcell
    rcases hcell with rfl | rfl | rfl | rfl | rfl | rfl <;> exact pure_keepsReferences _ _ _ _

end Cell

/-! ## The engine -/

namespace Engine

open SelfWiring.Action

/-- Cells with identifiers that were minted for them on the way from `s` to `t`. -/
structure MintedFor (s t : Holding) (cells : List String) (bound : List (String × String)) :
    Prop where
  text : t.text = s.text
  grown : s.minted ≤ t.minted
  cell : ∀ q ∈ bound, q.2 ∈ cells
  minted : ∀ q ∈ bound, ∃ j, s.minted ≤ j ∧ j < t.minted ∧ q.1 = Identifier.render j
  nodup : (bound.map (·.1)).Nodup

variable {r : Registry} {s t : Holding}

theorem MintedFor.fresh {cells : List String} {bound : List (String × String)}
    (hminted : MintedFor s t cells bound) (h : Referential r s) : ∀ q ∈ bound, t.Fresh q.1 := by
  intro q hq
  obtain ⟨j, hj, hj', hid⟩ := hminted.minted q hq
  obtain ⟨hbinding, hinformation⟩ := h.unused j hj
  refine ⟨⟨j, hj', hid⟩, ?_, ?_⟩ <;> rw [hminted.text, hid]
  · exact hbinding
  · exact hinformation

theorem mintAll_endures : ∀ (cells : List String) {s : Holding}, Referential r s →
    Program.Endures (Intact r s) (mintAll cells) (fun bound t => MintedFor s t cells bound) s
  | [], s, h => ⟨h.intact, rfl, Nat.le_refl _, by simp, by simp, by simp⟩
  | cell :: rest, s, h => by
    refine Program.Endures.bind (Program.endures_mint h) ?_
    rintro _ _ hmint ⟨rfl, rfl⟩
    refine Program.Endures.bind ((mintAll_endures rest hmint.1).weaken fun _ =>
      IsTrans.trans _ _ _ hmint) fun bound t ht hminted => ?_
    have hgrown : s.minted < t.minted := hminted.grown
    refine ⟨ht, hminted.text, hgrown.le, fun q hq => ?_, fun q hq => ?_, ?_⟩
    · rcases List.mem_cons.mp hq with rfl | hq
      · exact List.mem_cons_self
      · exact List.mem_cons_of_mem _ (hminted.cell q hq)
    · rcases List.mem_cons.mp hq with rfl | hq
      · exact ⟨s.minted, Nat.le_refl _, hgrown, rfl⟩
      · obtain ⟨j, hj, hid⟩ := hminted.minted q hq
        exact ⟨j, Nat.le_of_succ_le hj, hid⟩
    · refine List.nodup_cons.mpr ⟨fun hmem => ?_, hminted.nodup⟩
      obtain ⟨q, hq, hid⟩ := List.mem_map.mp hmem
      obtain ⟨j, hj, _, hid'⟩ := hminted.minted q hq
      have hsame := Identifier.render_inj.mp (hid.symm.trans hid')
      exact Nat.not_succ_le_self _ (hsame ▸ hj)

/-- All behaviours are bound before any of them is in a set, and are bound for nothing where a set
was stored meanwhile. -/
theorem explore_endures (h : Referential r s) (limit : UInt64) (producer : String)
    (args : List Value) :
    Endures (Intact r) (explore r limit producer args) (fun _ _ => True) s := by
  have hdraw : Endures (Intact r) (ExceptT.lift (Program.draw limit (r.candidates args)) :
      Action StoreError (List String)) (fun drawn t => t = s ∧ ∀ c ∈ drawn, c ∈ r.candidates args)
      s := by
    refine endures_lift (Program.endures_effect h.intact ?_)
    rintro drawn _ ⟨hdrawn, rfl⟩
    exact ⟨h.intact, rfl, hdrawn⟩
  refine hdraw.bind ?_
  rintro drawn _ - ⟨rfl, hdrawn⟩
  refine (endures_lift (mintAll_endures drawn h)).bind fun bound t ht hminted => ?_
  refine Graph.connect_endures ht.1 producer hminted.nodup (hminted.fresh h) fun q hq => ?_
  obtain ⟨cell, hcell, hentry, _⟩ := Registry.get?_of_mem_candidates (hdrawn _ (hminted.cell q hq))
  exact ⟨cell, hcell, hentry⟩

theorem successors_endures (h : Referential r s) (limit : UInt64) (producer : String)
    (args : List Value) :
    Endures (Intact r) (successors r limit producer args) (fun _ _ => True) s := by
  have hstored : Endures (Intact r) (Graph.connections producer) (fun _ _ => True) s := by
    refine endures_orAbsent trivial h.intact trivial ?_
    rintro _ _ ⟨_, rfl⟩
    exact ⟨h.intact, trivial⟩
  refine hstored.bind fun found t ht _ => ?_
  cases found with
  | some stored => exact endures_pure ht.1.intact trivial
  | none => exact explore_endures ht.1 limit producer args

theorem queueAll_endures {p : Payload} (producer : String) : ∀ (behaviours : List String)
    {s : Holding}, Referential r s → s.Addressed p →
    Endures (Intact r) (queueAll p producer behaviours) (fun _ _ => True) s
  | [], s, h, _ => endures_pure h.intact trivial
  | behaviour :: rest, s, h, hp => by
    refine (endures_get h (.binding behaviour)).bind ?_
    rintro cell _ - ⟨rfl, hcell⟩
    refine (endures_mint h).bind fun id t ht _ => ?_
    have hnext : t.Addressed (successorPayload p producer id behaviour cell) :=
      ⟨rfl, ⟨cell, rfl, ht.2.binding _ _ hcell⟩, (hp.mono ht.2).tree⟩
    refine (endures_push ht.1 hnext).bind fun _ u hu _ => ?_
    exact queueAll_endures producer rest hu.1 ((hp.mono ht.2).mono hu.2)

theorem forward_endures (h : Referential r s) (limit : UInt64) {p : Payload} (hp : s.Addressed p) :
    Endures (Intact r) (forward r limit p) (fun _ _ => True) s := by
  unfold forward
  split
  · exact endures_throw h.intact _
  · refine ((successors_endures h limit _ p.args).adapt _).bind fun behaviours t ht _ => ?_
    refine ((queueAll_endures _ behaviours ht.1 (hp.mono ht.2)).adapt _).bind fun _ u hu _ => ?_
    exact endures_pure hu.1.intact trivial

theorem accept_endures (h : Referential r s) (submission : Submission) :
    Endures (Intact r) (accept submission) (fun _ _ => True) s := by
  have hentry := entryCell_regular submission
  -- what each of the writes refers to is kept by those that come between
  refine (endures_mint h).bind fun tree t₁ h₁ _ => ?_
  refine ((Graph.informationIdFor_endures h₁.1 submission.input).adapt _).bind ?_
  rintro information t₂ h₂ ⟨hcolon, _⟩
  refine ((Graph.entryBehaviour_endures h₂.1 hcolon hentry).adapt _).bind ?_
  intro behaviour t₃ h₃ hbinding
  refine ((Graph.anchorTree_endures h₃.1 tree hbinding hentry).adapt _).bind ?_
  intro _ t₄ h₄ hfirst
  refine (endures_mint h₄.1).bind fun id t₅ h₅ _ => ?_
  have hp : t₅.Addressed (firstPayload submission id tree information behaviour) :=
    ⟨rfl, ⟨_, rfl, (h₄.2.trans h₅.2).binding _ _ hbinding⟩, ⟨tree, rfl, h₅.2.anchored tree hfirst⟩⟩
  refine ((endures_push h₅.1 hp).adapt _).bind fun _ t₆ h₆ _ => ?_
  refine (endures_still (e := .publish _) h₆.1 fun _ _ heq => heq).bind fun _ t₇ h₇ _ => ?_
  exact endures_pure h₇.1.intact trivial

variable {e : Engine} {p : Payload}

theorem passOn_endures (h : Referential e.registry s) (hp : s.Addressed p) (cell : Cell)
    (behaviour : String) :
    Endures (Intact e.registry) (e.passOn cell behaviour p) (fun _ _ => True) s := by
  unfold passOn
  split
  · exact endures_pure h.intact trivial
  · refine (forward_endures h _ hp).bind fun n t ht _ => ?_
    split
    · refine (endures_still (e := .publish _) ht.1 fun _ _ heq => heq).bind fun _ u hu _ => ?_
      exact endures_pure hu.1.intact trivial
    · exact endures_pure ht.1.intact trivial

variable (hkeeps : ∀ cell ∈ e.registry.cells, cell.KeepsReferences e.registry)

include hkeeps

theorem process_endures (h : Referential e.registry s) (hp : s.Addressed p) :
    Endures (Intact e.registry) (e.process p) (fun _ _ => True) s := by
  refine (endures_ofExcept h.intact (e.cellFor p)).bind ?_
  rintro cell t ht ⟨-, hcell⟩
  refine (endures_ofExcept ht.1.intact (cell.activate p)).bind ?_
  rintro q u hu ⟨-, hactivated⟩
  obtain rfl := eq_of_activate hactivated
  refine ((hkeeps cell (mem_of_cellFor hcell)).calculate_endures hu.1 q).bind ?_
  rintro _ v hv ⟨args, rfl⟩
  have hq := ((hp.mono ht.2).mono hu.2).mono hv.2
  have hresults : v.Addressed { q with args } := ⟨hq.behaviour, hq.cell, hq.tree⟩
  refine (passOn_endures hv.1 hresults cell _).bind fun outcome x hx _ => ?_
  refine (Graph.track_endures hx.1 _).observe.bind fun _ y hy _ => ?_
  exact endures_pure hy.1.intact trivial

theorem handle_endures (h : Referential e.registry s) (hp : s.Addressed p) :
    Program.Endures (Intact e.registry s) (e.handle p) (fun _ _ => True) s := by
  have hprocess := (process_endures hkeeps h hp).withRetries e.config.retryPolicy
  refine Program.Endures.bind hprocess fun result t ht _ => ?_
  cases result with
  | ok _ => exact ⟨ht, trivial⟩
  | error failure =>
    show Program.Endures _ (announce p failure) _ t
    unfold announce
    split <;> exact Program.endures_effect ht fun _ _ heq => ⟨heq ▸ ht, trivial⟩

end Engine

/-! ## What is reached -/

variable {σ : Type} [Store σ] [FaultFree σ]

/-- The worlds that are reached by accepting submissions and by taking payloads out of the queue and
processing them, whichever calls fail. An operation may be left at any step, and another begun
there, under another schedule where a payload was taken. -/
inductive Reached (e : Engine) (w₀ : World (Flaky σ)) : World (Flaky σ) → Prop
  | start : Reached e w₀ w₀
  | accept {w v : World (Flaky σ)} (hreached : Reached e w₀ w) (s : Submission)
    (hv : v ∈ w.stages (e.retrying (Engine.accept s)).run) : Reached e w₀ v
  | process {w v : World (Flaky σ)} (hreached : Reached e w₀ w) {store : Flaky σ}
    {before after : List String} {item : String} {p : Payload}
    (hqueue : w.below.queue = before ++ item :: after)
    (hstore : FaultFree.contents store.below =
      w.below.contents.putList Key.eventQueue.render (before ++ after))
    (hread : Payload.decode? item = some p)
    (hv : v ∈ World.stages (e.handle p) { w with store }) : Reached e w₀ v

theorem Referential.empty {w : World (Flaky σ)} (hw : w.below.contents = Contents.empty)
    (r : Registry) : Referential r w.holding := by
  have htext : ∀ k, w.holding.text k = none := fun k => congrFun (congrArg Contents.text hw) _
  have hnext : ∀ b, w.holding.next b = none := fun b => congrFun (congrArg Contents.set hw) _
  have hqueue : w.holding.queue = [] := congrFun (congrArg Contents.list hw) _
  refine ⟨fun j _ => ⟨htext _, htext _⟩, fun b _ hb => ?_, fun _ _ hi => ?_, fun _ _ _ hb => ?_,
    fun _ _ hb => ?_, fun item hitem => ?_⟩
  · exact absurd ((hnext b).symm.trans hb) (by simp)
  · exact absurd ((htext _).symm.trans hi) (by simp)
  · exact absurd ((htext _).symm.trans hb) (by simp)
  · exact absurd ((htext _).symm.trans hb) (by simp)
  · rw [hqueue] at hitem
    exact absurd hitem (by simp)

theorem Reached.referential {e : Engine}
    (hkeeps : ∀ cell ∈ e.registry.cells, cell.KeepsReferences e.registry)
    {w₀ w : World (Flaky σ)} (hw : w₀.below.contents = Contents.empty) (h : Reached e w₀ w) :
    Referential e.registry w.holding := by
  induction h with
  | start => exact .empty hw e.registry
  | accept _ s hv ih =>
    exact (((Engine.accept_endures ih s).withRetries e.config.retryPolicy).stages _ hv).1
  | @process w v _ store before after item p hqueue hstore hread hv ih =>
    have hqueue : w.holding.queue = before ++ item :: after := hqueue
    obtain ⟨q, rfl, hq⟩ := ih.queued item (hqueue ▸ List.mem_append_right _ List.mem_cons_self)
    obtain rfl := Option.mem_unique (Payload.decode?_encode q) hread
    have htaken : Intact e.registry w.holding (World.holding { w with store }) := by
      rw [show World.holding { w with store } = _ from congrArg (Holding.mk · w.minted) hstore]
      exact ih.take hqueue
    exact ((Engine.handle_endures hkeeps htaken.1 (hq.mono htaken.2)).stages _ hv).1

/-- In every world that an engine of standard cells reaches from an empty store, whichever calls
fail on the way, what is stored and what is queued refers to what is there. -/
theorem referential_integrity {config : Config} {e : Engine}
    (he : Engine.assemble { config, cells := some (Cell.standard config) } = .ok e)
    {w₀ w : World (Flaky σ)} (h₀ : w₀.below.contents = Contents.empty) (hreached : Reached e w₀ w) :
    (∀ b behaviours, w.below.contents.set (Key.connections b).render = some behaviours →
      ∀ b' ∈ behaviours, ∃ c cell, w.below.text (.binding b') = some c ∧
        e.registry.get? c = some cell ∧ cell.entry = false) ∧
    (∀ t i, w.below.text (.informationId t) = some i → w.below.text (.information i) = some t) ∧
    (∀ i c b, w.below.text (.entry i c) = some b → w.below.text (.binding b) = some c) ∧
    (∀ tree b, w.below.text (.firstBehaviour tree) = some b →
      ∃ c, w.below.text (.binding b) = some c ∧ (c = Cell.inputName ∨ c = Cell.outputName)) ∧
    ∀ item ∈ w.below.queue, ∃ p c tree, Payload.decode? item = some p ∧
      p.context.behaviour = some p.destination ∧
      p.context.cell = some c ∧ w.below.text (.binding p.destination) = some c ∧
      p.context.tree = some tree ∧ (w.below.text (.firstBehaviour tree)).isSome = true := by
  have hkeeps : ∀ cell ∈ e.registry.cells, cell.KeepsReferences e.registry := fun cell hcell =>
    Cell.standard_keepsReferences (((Engine.assemble_eq_ok he).2 cell).mp hcell)
  have h := hreached.referential hkeeps h₀
  refine ⟨h.linked, fun t i hi => (h.recorded t i hi).2, h.entered, h.anchored, ?_⟩
  intro item hitem
  obtain ⟨p, rfl, hp⟩ := h.queued item hitem
  obtain ⟨c, hc, hbinding⟩ := hp.cell
  obtain ⟨tree, htree, hfirst⟩ := hp.tree
  exact ⟨p, c, tree, Payload.decode?_encode p, hp.behaviour, hc, hbinding, htree, hfirst⟩

/-- A submission that fails when its text is on record but nothing leads to the record yet, and is
accepted when it is handed in again. -/
theorem referential_integrity_of_failure : ∃ (e : Engine) (w₀ w₁ w : World (Flaky Memory))
    (tree : String), Engine.assemble { cells := some (Cell.standard {}) } = .ok e ∧
    w₀.below.contents = Contents.empty ∧
    w₀.run (e.retrying (Engine.accept { input := "4 5", session := "a" })).run =
      (.error (.store (.backend "full")), w₁) ∧
    w₁.run (e.retrying (Engine.accept { input := "4 5", session := "a" })).run = (.ok tree, w) ∧
    Reached e w₀ w ∧ ∃ item ∈ w.below.queue, ∃ p c tree, Payload.decode? item = some p ∧
      p.context.behaviour = some p.destination ∧
      p.context.cell = some c ∧ w.below.text (.binding p.destination) = some c ∧
      p.context.tree = some tree ∧ (w.below.text (.firstBehaviour tree)).isSome = true := by
  obtain ⟨e, he⟩ := Engine.exists_standard {} rfl
  have hconfig := (Engine.assemble_eq_ok he).1
  let s : Submission := { input := "4 5", session := "a" }
  let w₀ : World (Flaky Memory) :=
    { store := { below := {}, failures := fun k => if k = 2 then some (.backend "full") else none }
      generator := .ofSeed 0 }
  obtain ⟨w₁, hfailed, hreliable⟩ : ∃ w₁, w₀.run (e.retrying (Engine.accept s)).run =
      (.error (.store (.backend "full")), w₁) ∧ w₁.store.Reliable := by
    unfold Engine.retrying
    rw [hconfig]
    refine ⟨_, rfl, fun k hk => ?_⟩
    have hlater : 3 ≤ k := hk
    exact if_neg (by omega)
  have hreached : Reached e w₀ (w₁.run (e.retrying (Engine.accept s)).run).2 := by
    have hfirst := Reached.start.accept s (w₀.run_mem_stages (e.retrying (Engine.accept s)).run)
    rw [hfailed] at hfirst
    exact hfirst.accept s (w₁.run_mem_stages _)
  -- from here on nothing fails
  obtain ⟨hresult, hbelow⟩ := w₁.run_of_reliable (e.retrying (Engine.accept s)).run hreliable
  obtain ⟨haccepted, hnet⟩ := Action.ensures_withRetries e.config.retryPolicy
    (Engine.accept_reaches (σ := Memory) s w₁.below.net) w₁.below rfl
  have hresult := hresult.trans haccepted
  have hnet := (congrArg World.net hbelow).trans hnet
  obtain ⟨_, _, id, i, b, hqueue⟩ := w₁.below.net.accept_announced s
  generalize hw : w₁.run (e.retrying (Engine.accept s)).run = run at hresult hnet hreached
  have hitem : (Engine.firstPayload s id w₁.below.net.fresh i b).encode ∈ run.2.below.queue := by
    show _ ∈ run.2.below.net.queue
    rw [hnet, hqueue]
    exact List.mem_append_right _ (List.mem_singleton_self _)
  obtain ⟨_, _, _, _, hqueued⟩ := referential_integrity he rfl hreached
  exact ⟨e, w₀, w₁, run.2, w₁.below.net.fresh, he, rfl, hfailed, hw.trans (Prod.ext hresult rfl),
    hreached, _, hitem, hqueued _ hitem⟩

end SelfWiring
