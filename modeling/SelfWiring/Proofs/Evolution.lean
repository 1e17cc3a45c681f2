import Mathlib.Data.List.Nodup
import SelfWiring.Proofs.Identifiers
import SelfWiring.Proofs.Invariant
import SelfWiring.Proofs.Json.Records

/-!
# Every step keeps the invariant

Accepting a submission, making connections, queueing results and restarting a tree are taken apart
into single changes of the network, each of which keeps the invariant. From this follows what a step
of a run can do at all, `Moves`, and that the invariant holds after every run.
-/

namespace SelfWiring

variable {σ : Type} [Store σ] [FaultFree σ] {r : Registry}
  {born : String → Submission → Prop} {n : Net}

namespace Net

theorem fresh_ne (n : Net) {j : Nat} (h : n.mint.minted ≤ j) : n.fresh ≠ Identifier.render j := by
  intro heq
  have hminted : n.minted = j := Identifier.render_inj.mp heq
  rw [mint_minted] at h
  omega

theorem record_text (n : Net) (t : String) {k : Key} (hinformation : ∀ i, k ≠ .information i)
    (hid : k ≠ .informationId t) : (n.record t).2.text k = n.text k := by
  unfold record
  cases n.text (.informationId t) with
  | some i => rfl
  | none =>
    show ((n.mint.write _ t).write _ n.fresh).text k = n.text k
    rw [write_text, Function.update_of_ne hid, write_text, Function.update_of_ne (hinformation _)]
    rfl

theorem enter_text (n : Net) (i c : String) {k : Key} (hbinding : ∀ b, k ≠ .binding b)
    (hentry : k ≠ .entry i c) : (n.enter i c).2.text k = n.text k := by
  unfold enter
  cases n.text (.entry i c) with
  | some b => rfl
  | none =>
    show ((n.mint.write _ c).write _ n.fresh).text k = n.text k
    rw [write_text, Function.update_of_ne hentry, write_text, Function.update_of_ne (hbinding _)]
    rfl

theorem sprout_next (cells : List String) : ∀ n : Net, (n.sprout cells).2.next = n.next := by
  induction cells with
  | nil => intro n; rfl
  | cons c cells ih => intro n; exact ih _

theorem sprout_queue (cells : List String) : ∀ n : Net, (n.sprout cells).2.queue = n.queue := by
  induction cells with
  | nil => intro n; rfl
  | cons c cells ih => intro n; exact ih _

/-- New behaviours go by the numbers that come next. -/
theorem sprout_names (cells : List String) : ∀ n : Net,
    (n.sprout cells).1 = (List.range' n.minted cells.length).map Identifier.render := by
  induction cells with
  | nil => intro n; rfl
  | cons c cells ih =>
    intro n
    show n.fresh :: ((n.mint.write _ c).sprout cells).1 = _
    rw [ih, List.length_cons, List.range'_succ, List.map_cons]
    rfl

theorem length_sprout (n : Net) (cells : List String) :
    (n.sprout cells).1.length = cells.length := by
  rw [sprout_names, List.length_map, List.length_range']

theorem nodup_sprout (n : Net) (cells : List String) : (n.sprout cells).1.Nodup := by
  rw [sprout_names]
  exact List.Nodup.map (fun _ _ => Identifier.render_inj.mp) (List.nodup_range' 1)

theorem mem_sprout {n : Net} {cells : List String} {b : String} :
    b ∈ (n.sprout cells).1 ↔
      ∃ k, n.minted ≤ k ∧ k < n.minted + cells.length ∧ b = Identifier.render k := by
  simp only [sprout_names, List.mem_map, List.mem_range'_1, and_assoc, eq_comm]

theorem sprout_minted (cells : List String) :
    ∀ n : Net, (n.sprout cells).2.minted = n.minted + cells.length := by
  induction cells with
  | nil => intro n; rfl
  | cons c cells ih =>
    intro n
    refine (ih (n.mint.write (.binding n.fresh) c)).trans ?_
    rw [List.length_cons, write_minted, mint_minted]
    omega

/-- Nothing is written but the bindings of the new behaviours. -/
theorem sprout_text {k : Key} (cells : List String) : ∀ n : Net,
    (∀ b ∈ (n.sprout cells).1, k ≠ .binding b) → (n.sprout cells).2.text k = n.text k := by
  induction cells with
  | nil => intro n _; rfl
  | cons c cells ih =>
    intro n hk
    have hrest := ih (n.mint.write (.binding n.fresh) c) fun b hb =>
      hk b (List.mem_cons_of_mem _ hb)
    refine hrest.trans ?_
    exact Function.update_of_ne (hk n.fresh List.mem_cons_self) _ _

/-- New behaviours are bound to the cells given, in their order. -/
theorem sprout_cells (cells : List String) : ∀ n : Net,
    (n.sprout cells).1.map (fun b => (n.sprout cells).2.text (.binding b)) = cells.map some := by
  induction cells with
  | nil => intro n; rfl
  | cons c cells ih =>
    intro n
    -- the later behaviours go by other identifiers
    have hnew := (List.nodup_cons.mp (n.nodup_sprout (c :: cells))).1
    have hfirst : (n.sprout (c :: cells)).2.text (.binding n.fresh) = some c := by
      refine (sprout_text cells _ fun b hb heq => ?_).trans ?_
      · obtain rfl := Key.binding.inj heq
        exact hnew hb
      · rw [write_text, Function.update_self]
    exact congrArg₂ List.cons hfirst (ih _)

theorem sprout_binding (cells : List String) (n : Net) {b : String} (hb : b ∈ (n.sprout cells).1) :
    ∃ c ∈ cells, (n.sprout cells).2.text (.binding b) = some c := by
  have hmem : (n.sprout cells).2.text (.binding b) ∈ cells.map some := by
    rw [← sprout_cells cells n]
    exact List.mem_map_of_mem hb
  obtain ⟨c, hc, hbinding⟩ := List.mem_map.mp hmem
  exact ⟨c, hc, hbinding.symm⟩

end Net

namespace Inv

theorem record (h : Inv σ r born n) (t : String) :
    Inv σ r born (n.record t).2 ∧ n.Grows (n.record t).2 ∧
      (n.record t).2.text (.informationId t) = some (n.record t).1 := by
  unfold Net.record
  cases hid : n.text (.informationId t) with
  | some i => exact ⟨h, .refl n, hid⟩
  | none =>
    have hfirst : Ready r n.mint (.information n.fresh) t := by
      refine ⟨trivial, (h.unused n.minted (Nat.le_refl _)).information, fun j hj => ?_,
        by simp, by simp, by simp⟩
      refine ⟨by simp, fun heq => ?_, by simp⟩
      exact n.fresh_ne hj (Key.information.inj heq)
    have hsecond : Ready r (n.mint.write (.information n.fresh) t) (.informationId t) n.fresh := by
      refine ⟨trivial, ?_, by simp, fun t' ht' => ?_, by simp, by simp⟩
      · rw [Net.write_text, Function.update_of_ne (by simp)]
        exact hid
      · obtain rfl := Key.informationId.inj ht'
        rw [Net.write_text, Function.update_self]
    refine ⟨((h.alike n.alike_mint).write hfirst).write hsecond, ?_, ?_⟩
    · exact (n.alike_mint.grows.trans hfirst.grows).trans hsecond.grows
    · rw [Net.write_text, Function.update_self]

/-- A behaviour under a fresh identifier. -/
theorem ready_binding (h : Inv σ r born n) {cell : String} (hcell : (r.get? cell).isSome = true) :
    Ready r n.mint (.binding n.fresh) cell := by
  refine ⟨trivial, (h.unused n.minted (Nat.le_refl _)).binding, fun j hj => ?_, by simp, by simp,
    fun _ _ => hcell⟩
  refine ⟨fun heq => ?_, by simp, by simp⟩
  exact n.fresh_ne hj (Key.binding.inj heq)

theorem enter (h : Inv σ r born n) (i : String) {cell : String}
    (hcell : (r.get? cell).isSome = true) :
    Inv σ r born (n.enter i cell).2 ∧ n.Grows (n.enter i cell).2 ∧
      (n.enter i cell).2.text (.binding (n.enter i cell).1) = some cell := by
  unfold Net.enter
  cases hentry : n.text (.entry i cell) with
  | some b => exact ⟨h, .refl n, h.entered i cell b hentry⟩
  | none =>
    have hfirst := h.ready_binding hcell
    have hsecond : Ready r (n.mint.write (.binding n.fresh) cell) (.entry i cell) n.fresh := by
      refine ⟨trivial, ?_, by simp, by simp, fun i' c' heq => ?_, by simp⟩
      · rw [Net.write_text, Function.update_of_ne (by simp)]
        exact hentry
      · obtain ⟨rfl, rfl⟩ := Key.entry.inj heq
        rw [Net.write_text, Function.update_self]
    refine ⟨((h.alike n.alike_mint).write hfirst).write hsecond, ?_, ?_⟩
    · exact (n.alike_mint.grows.trans hfirst.grows).trans hsecond.grows
    · rw [Net.write_text, Function.update_of_ne (by simp), Net.write_text, Function.update_self]

theorem sprout {cells : List String} (hcells : ∀ c ∈ cells, (r.get? c).isSome = true) :
    ∀ {n : Net}, Inv σ r born n →
      Inv σ r born (n.sprout cells).2 ∧ n.Grows (n.sprout cells).2 := by
  induction cells with
  | nil => intro n h; exact ⟨h, .refl n⟩
  | cons c cells ih =>
    intro n h
    have hready := h.ready_binding (hcells c List.mem_cons_self)
    obtain ⟨hinv, hgrows⟩ := ih (fun c' hc' => hcells c' (List.mem_cons_of_mem _ hc'))
      ((h.alike n.alike_mint).write hready)
    exact ⟨hinv, (n.alike_mint.grows.trans hready.grows).trans hgrows⟩

/-- Queueing leaves everything but the queue as it is. -/
theorem queueAll {tree : String} {s : Submission} (hborn : born tree s) {p : Payload}
    {producer : String} {behaviours : List String} :
    ∀ {n : Net}, Inv σ r born n →
      (∀ b ∈ behaviours, ∀ id, Sound σ r n tree s
        (Engine.successorPayload p producer id b ((n.text (.binding b)).getD ""))) →
      Inv σ r born (n.queueAll p producer behaviours) ∧
        n.Grows (n.queueAll p producer behaviours) := by
  induction behaviours with
  | nil => intro n h _; exact ⟨h, .refl n⟩
  | cons b behaviours ih =>
    intro n h hsound
    have hgrows : n.Grows (n.mint.enqueue (Engine.successorPayload p producer n.fresh b
        ((n.text (.binding b)).getD ""))) :=
      ⟨fun _ _ _ hv => hv, fun _ _ hb => hb, Nat.le_succ _⟩
    have hfirst := (hsound b List.mem_cons_self n.fresh).mono n.alike_mint.grows
    obtain ⟨hinv, hrest⟩ := ih ((h.alike n.alike_mint).enqueue hborn hfirst)
      fun b' hb' id => (hsound b' (List.mem_cons_of_mem _ hb') id).mono hgrows
    exact ⟨hinv, hgrows.trans hrest⟩

/-- A tree begins: its text is on record, its first behaviour is there, and its first payload is on
its way. -/
theorem accept (h : Inv σ r born n) {s : Submission}
    (hcell : (r.get? (Engine.entryCell s)).isSome = true) {born' : String → Submission → Prop}
    (hborn : ∀ t s', born' t s' ↔ born t s' ∨ (t = n.fresh ∧ s' = s)) :
    Inv σ r born' (n.accept s) ∧ n.Grows (n.accept s) := by
  have hfree : ((n.mint.record s.input).2.enter (n.mint.record s.input).1
      (Engine.entryCell s)).2.text (.firstBehaviour n.fresh) = none := by
    rw [Net.enter_text _ _ _ (by simp) (by simp), Net.record_text _ _ (by simp) (by simp)]
    exact (h.unused n.minted (Nat.le_refl _)).firstBehaviour
  obtain ⟨hrecord, hgrows₁, hid⟩ := (h.alike n.alike_mint).record s.input
  obtain ⟨henter, hgrows₂, hbinding⟩ := hrecord.enter (n.mint.record s.input).1 hcell
  unfold Net.accept
  dsimp only
  generalize n.mint.record s.input = information at *
  generalize information.2.enter information.1 (Engine.entryCell s) = entry at *
  have hminted : ∀ j, entry.2.minted ≤ j → n.fresh ≠ Identifier.render j := fun j hj =>
    n.fresh_ne (Nat.le_trans (Nat.le_trans hgrows₁.minted hgrows₂.minted) hj)
  have hready : Ready r entry.2 (.firstBehaviour n.fresh) entry.1 := by
    refine ⟨trivial, hfree, fun j hj => ?_, by simp, by simp, by simp⟩
    exact ⟨by simp, by simp, fun heq => hminted j hj (Key.firstBehaviour.inj heq)⟩
  -- the tree comes into being once its first behaviour is stored
  have hgrows := hgrows₂.trans hready.grows
  have hfirst : (entry.2.write (.firstBehaviour n.fresh) entry.1).text (.firstBehaviour n.fresh) =
      some entry.1 := by
    rw [Net.write_text, Function.update_self]
  have hinformation := hgrows.information (hrecord.recorded _ _ hid)
  have hentry := hready.grows.binding hbinding
  have hanchored := (henter.write hready).bear hborn (Identifier.render_ne_empty _)
    (fun j hj heq => hminted j hj heq.symm)
    (by rw [hgrows.text (.informationId s.input) trivial _ hid]; rfl) hfirst hentry
  have hsound : ∀ id, Sound σ r (entry.2.write (.firstBehaviour n.fresh) entry.1) n.fresh s
      (Engine.firstPayload s id n.fresh information.1 entry.1) := by
    intro id
    exact ⟨rfl, rfl, rfl, ⟨_, rfl, hinformation⟩, rfl, ⟨_, rfl, hentry⟩, .first hfirst⟩
  have hqueued := (hanchored.alike (Net.alike_mint _)).enqueue ((hborn _ _).mpr (Or.inr ⟨rfl, rfl⟩))
    ((hsound (entry.2.write (.firstBehaviour n.fresh) entry.1).fresh).mono (Net.alike_mint _).grows)
  refine ⟨hqueued.alike (Net.alike_announce _ _), ?_⟩
  refine ((n.alike_mint.grows.trans hgrows₁).trans hgrows).trans ?_
  exact ⟨fun _ _ _ hv => hv, fun _ _ hb => hb, Nat.le_succ _⟩

end Inv

theorem mem_addMembers {members : List String} {b : String} :
    ∀ {present : List String}, b ∈ addMembers present members ↔ b ∈ present ∨ b ∈ members := by
  induction members with
  | nil => intro present; simp [addMembers]
  | cons m members ih =>
    intro present
    show b ∈ addMembers (if present.contains m then present else present ++ [m]) members ↔ _
    rw [ih]
    by_cases hm : present.contains m = true
    · rw [if_pos hm]
      have hmem : m ∈ present := List.contains_iff_mem.mp hm
      constructor
      · rintro (h | h)
        · exact Or.inl h
        · exact Or.inr (List.mem_cons_of_mem _ h)
      · rintro (h | h)
        · exact Or.inl h
        · rcases List.mem_cons.mp h with rfl | h
          · exact Or.inl hmem
          · exact Or.inr h
    · rw [if_neg hm]
      simp [or_assoc]

/-- Connections that are made lead to cells that take the results, and are kept. -/
theorem Inv.connected (h : Inv σ r born n) {producer name : String} {cell : Cell}
    {results : List Value} {behaviours : List String} {m : Net} {limit : UInt64}
    (hbinding : n.text (.binding producer) = some name) (hcell : r.get? name = some cell)
    (hterminal : cell.terminal = false) (hkinds : results.map Value.kind = cell.signature.outputs)
    (hconnected : Engine.Connected r limit n producer results behaviours m) :
    Inv σ r born m ∧ n.Grows m ∧ m.next producer = some behaviours := by
  cases hconnected with
  | known hnext => exact ⟨h, .refl n, hnext⟩
  | explored hnone cells hcells =>
    -- the behaviours are bound to cells that take the results before they are connected
    have hregistered : ∀ c ∈ cells, (r.get? c).isSome = true := by
      intro c hc
      obtain ⟨cell', hcell', _⟩ := Registry.get?_of_mem_candidates (hcells c hc)
      rw [hcell']
      rfl
    obtain ⟨hinv, hgrows⟩ := h.sprout hregistered
    have hfree : (n.sprout cells).2.next producer = none := by
      rw [Net.sprout_next]
      exact hnone
    have hwired : (n.sprout cells).2.Wired r producer (addMembers [] (n.sprout cells).1) := by
      refine ⟨name, cell, hgrows.binding hbinding, hcell, hterminal, fun b hb => ?_⟩
      have hmem : b ∈ (n.sprout cells).1 := by
        rcases mem_addMembers.mp hb with hb | hb
        · exact absurd hb (by simp)
        · exact hb
      obtain ⟨c, hc, hbinding'⟩ := Net.sprout_binding cells n hmem
      obtain ⟨cell', hcell', hentry, haccepts⟩ := Registry.get?_of_mem_candidates (hcells c hc)
      refine ⟨c, cell', hbinding', hcell', hentry, fun vs hvs => ?_⟩
      rw [Signature.accepts_congr (hvs.trans hkinds.symm)]
      exact haccepts
    refine ⟨hinv.wire hfree hwired, hgrows.trans (Net.grows_wire hfree _), ?_⟩
    rw [Net.wire_next, Function.update_self]

/-! ## Steps -/

/-- The cells of an engine that the invariant is about: the input and the output cell under their
names, and other cells that compute. -/
structure Engine.Serves (σ : Type) [Store σ] [FaultFree σ] (e : Engine) (heard : Net → Net → Prop) :
    Prop where
  input : e.registry.get? Cell.inputName = some Cell.input
  output : e.registry.get? Cell.outputName = some (Cell.output e.config.maxRetraversals)
  computing : ∀ name cell, e.registry.get? name = some cell → name ≠ Cell.outputName →
    cell.Computing σ heard
  quiet : ∀ n m, heard n m → n.Quiet m

variable {e : Engine} {heard : Net → Net → Prop}

theorem Engine.Serves.entry (hs : e.Serves σ heard) (s : Submission) :
    ∃ cell, e.registry.get? (Engine.entryCell s) = some cell ∧
      cell.signature.accepts [.text s.input] = true := by
  rcases Engine.entryCell_regular s with h | h
  · exact ⟨Cell.input, h ▸ hs.input, rfl⟩
  · exact ⟨_, h ▸ hs.output, rfl⟩

/-- Arguments fit the cell of the behaviour that they have reached, and what reaches the input cell
is the text of the submission. -/
theorem Route.fits (hs : e.Serves σ heard) (h : Inv σ e.registry born n) {tree : String}
    {s : Submission} (hborn : born tree s) {b name : String} {cell : Cell} {args : List Value}
    (hroute : Route (Cell.Yields σ) e.registry n tree s b args)
    (hbinding : n.text (.binding b) = some name) (hcell : e.registry.get? name = some cell) :
    cell.signature.accepts args = true ∧ (name = Cell.inputName → args = [.text s.input]) := by
  cases hroute with
  | first hfirst =>
    obtain ⟨_, _, b', hfirst', hbinding'⟩ := h.planted tree s hborn
    obtain rfl := Option.mem_unique hfirst hfirst'
    obtain rfl := Option.mem_unique hbinding hbinding'
    obtain ⟨cell', hcell', haccepts⟩ := hs.entry s
    obtain rfl := Option.mem_unique hcell hcell'
    exact ⟨haccepts, fun _ => rfl⟩
  | hop _ hbinding₀ hcell₀ hyields hnext hmem =>
    obtain ⟨name₀, cell₀, hbinding₀', hcell₀', _, htakes⟩ := h.wired _ _ hnext
    obtain rfl := Option.mem_unique hbinding₀ hbinding₀'
    obtain rfl := Option.mem_unique hcell₀ hcell₀'
    obtain ⟨name', cell', hbinding', hcell', hentry, haccepts⟩ := htakes b hmem
    obtain rfl := Option.mem_unique hbinding hbinding'
    obtain rfl := Option.mem_unique hcell hcell'
    refine ⟨haccepts args hyields.kinds, fun hname => ?_⟩
    subst hname
    obtain rfl := Option.mem_unique hcell hs.input
    exact absurd hentry (by decide)

/-- Everything that a step can do to the network. -/
inductive Moves (σ : Type) [Store σ] [FaultFree σ] (e : Engine) (heard : Net → Net → Prop)
    (born : String → Submission → Prop) (n : Net) : Label → Net → Prop
  | accept (s : Submission) : Moves σ e heard born n (.accepted s (.ok n.fresh)) (n.accept s)
  | process {before after : List String} {p : Payload} {tree name : String} {s : Submission}
    {cell : Cell} {result : Except EngineError Outcome} {m : Net}
    (hqueue : n.queue = before ++ p.encode :: after) (hborn : born tree s)
    (hsound : Sound σ e.registry (n.requeue (before ++ after)) tree s p)
    (hbinding : n.text (.binding p.destination) = some name)
    (hcell : e.registry.get? name = some cell)
    (hprocessed : Engine.Processed σ e heard (n.requeue (before ++ after)) p cell tree s.session
      result m) :
    Moves σ e heard born n
      (.processed p result ((m.report p result).queue.drop (before ++ after).length))
      (m.report p result)

theorem handle_net (e : Engine) (p : Payload) (w : World σ) :
    (w.run (e.handle p)).2.net = (w.run (e.retrying (e.process p)).run).2.net.report p
      (w.run (e.retrying (e.process p)).run).1 := by
  show (w.run (Program.bind (e.retrying (e.process p)).run _)).2.net = _
  rw [World.run_bind]
  generalize w.run (e.retrying (e.process p)).run = outcome
  obtain ⟨_ | _, w'⟩ := outcome
  · rename_i failure
    have hannounce : ∀ event, (w'.run (Program.publish event)).2.net = w'.net.announce event :=
      fun event => (Program.reaches_publish event w'.net w' rfl).2
    show (w'.run (Engine.announce p failure)).2.net = w'.net.report p (.error failure)
    unfold Engine.announce Net.report
    split <;> simp_all
  · rfl

theorem Inv.restartable (h : Inv σ r born n) {p : Payload} {tree : String} {s : Submission}
    (hborn : born tree s) (hsound : Sound σ r n tree s p) :
    Cell.Restartable n p.context tree := by
  obtain ⟨i, hi, htext⟩ := hsound.information
  obtain ⟨_, _, b, hfirst, hbinding⟩ := h.planted tree s hborn
  exact ⟨⟨i, _, hi, htext⟩, b, _, hfirst, hbinding⟩

theorem exists_cons_of_accepts_any {s : Signature} (hs : s.inputs = [.any]) {args : List Value}
    (h : s.accepts args = true) : ∃ v vs, args = v :: vs := by
  have hcheck := Signature.check_of_accepts h
  unfold Signature.check at hcheck
  rw [hs] at hcheck
  cases args with
  | cons v vs => exact ⟨v, vs, rfl⟩
  | nil => exact absurd hcheck (by simp)

/-- A sound payload finds its cell. -/
theorem Sound.cellFor {p : Payload} {tree name : String} {s : Submission} {cell : Cell}
    (hsound : Sound σ e.registry n tree s p)
    (hbinding : n.text (.binding p.destination) = some name)
    (hcell : e.registry.get? name = some cell) : e.cellFor p = .ok cell := by
  obtain ⟨name', hname', hbinding'⟩ := hsound.cell
  obtain rfl := Option.mem_unique hbinding hbinding'
  unfold Engine.cellFor
  rw [hname']
  simp only [hcell]

/-- The arguments of a sound payload fit its cell. -/
theorem Sound.served (hs : e.Serves σ heard) (h : Inv σ e.registry born n) {p : Payload}
    {tree name : String} {s : Submission} {cell : Cell} (hborn : born tree s)
    (hsound : Sound σ e.registry n tree s p)
    (hbinding : n.text (.binding p.destination) = some name)
    (hcell : e.registry.get? name = some cell) : cell.Served p.args n := by
  obtain ⟨haccepts, hinput⟩ := hsound.route.fits hs h hborn hbinding hcell
  obtain ⟨_, hrecord, _⟩ := h.planted tree s hborn
  refine ⟨haccepts, h.separator, fun hentry text htext => ?_⟩
  have hargs := hinput ((Registry.name_of_get? hcell).symm.trans hentry)
  obtain rfl : s.input = text := by simpa using hargs.symm.trans htext
  exact hrecord

/-- A sound payload is processed by its cell. -/
theorem process_ensures_of_sound (hs : e.Serves σ heard) (h : Inv σ e.registry born n) {p : Payload}
    {tree name : String} {s : Submission} {cell : Cell} (hborn : born tree s)
    (hsound : Sound σ e.registry n tree s p)
    (hbinding : n.text (.binding p.destination) = some name)
    (hcell : e.registry.get? name = some cell) : Action.Ensures σ (e.process p) n
      (Engine.Processed σ e heard n p cell tree s.session) := by
  have hserved := hsound.served hs h hborn hbinding hcell
  have hfound := hsound.cellFor hbinding hcell
  obtain ⟨hne, _, _⟩ := h.planted tree s hborn
  -- the output cell alone writes counters and queues payloads
  by_cases hname : name = Cell.outputName
  · subst hname
    obtain rfl := Option.mem_unique hcell hs.output
    obtain ⟨v, vs, hargs⟩ := exists_cons_of_accepts_any rfl hserved.accepted
    exact Engine.process_output_ensures hfound hargs hserved.accepted hsound.tree hne
      hsound.session (h.restartable hborn hsound)
  · have hother : cell.name ≠ Cell.outputName := Registry.name_of_get? hcell ▸ hname
    refine Engine.process_ensures hfound hother (hs.computing name cell hcell hname) hserved
      hsound.behaviour ?_
    intro m results hm hyields hterminal behaviours m' hconnected b hb
    have halike := (hs.quiet n m hm).alike
    obtain ⟨hinv, _, hnext⟩ := (h.alike halike).connected (halike.grows.binding hbinding) hcell
      hterminal hyields.kinds hconnected
    obtain ⟨_, _, _, _, _, htakes⟩ := hinv.wired _ _ hnext
    obtain ⟨name', _, hbinding', _⟩ := htakes b hb
    rw [hbinding']
    rfl

/-- The network of a world with another queue. -/
theorem World.net_of_requeued {w : World σ} {store : σ} {items : List String}
    (hstore : FaultFree.contents store = w.contents.putList Key.eventQueue.render items) :
    World.net { w with store } = w.net.requeue items := by
  unfold World.net World.contents
  rw [hstore]
  exact Net.ofContents_requeue items

theorem Step.of_accepted {w w' : World σ} {s : Submission} {result : Except EngineError String}
    (h : Step e w (.accepted s result) w') :
    result = .ok w.net.fresh ∧ w'.net = w.net.accept s := by
  cases h
  exact Action.ensures_withRetries e.config.retryPolicy (Engine.accept_reaches s w.net) w rfl

theorem Step.exists_accepted (e : Engine) (w : World σ) (s : Submission) :
    ∃ w', Step e w (.accepted s (.ok w.net.fresh)) w' ∧ w'.net = w.net.accept s := by
  have hstep := Step.accept (e := e) s w
  obtain ⟨hresult, hnet⟩ := hstep.of_accepted
  rw [hresult] at hstep
  exact ⟨_, hstep, hnet⟩

/-- Whatever is taken out of the queue was put there for a tree. -/
theorem Inv.exists_sound (h : Inv σ r born n) {before after : List String} {item : String}
    {p : Payload} (hqueue : n.queue = before ++ item :: after)
    (hread : Payload.decode? item = some p) :
    item = p.encode ∧ ∃ tree s, born tree s ∧ Sound σ r n tree s p := by
  have hitem : item ∈ n.queue := hqueue ▸ List.mem_append_right _ List.mem_cons_self
  obtain ⟨q, tree, s, rfl, hborn, hsound⟩ := h.queued item hitem
  obtain rfl := Option.mem_unique (Payload.decode?_encode q) hread
  exact ⟨rfl, tree, s, hborn, hsound⟩

/-- A step does nothing but what `Moves` says. -/
theorem step_moves (hs : e.Serves σ heard) {w w' : World σ} {d : Label}
    (h : Inv σ e.registry born w.net) (hstep : Step e w d w') :
    Moves σ e heard born w.net d w'.net := by
  cases hstep with
  | accept s =>
    obtain ⟨hresult, hnet⟩ := (Step.accept (e := e) s w).of_accepted
    rw [hresult, hnet]
    exact .accept s
  | process hqueue hstore hread =>
    rename_i store before after item p
    obtain ⟨rfl, tree, s, hborn, hsound⟩ := h.exists_sound hqueue hread
    have hnet := World.net_of_requeued hstore
    obtain ⟨name, _, hbinding⟩ := hsound.cell
    obtain ⟨cell, hcell⟩ := Option.isSome_iff_exists.mp (h.bound _ _ hbinding)
    have hsound' : Sound σ e.registry (w.net.requeue (before ++ after)) tree s p :=
      hsound.mono (Net.alike_requeue hqueue).grows
    have hprocess := process_ensures_of_sound hs (h.alike (Net.alike_requeue hqueue)) hborn hsound'
      hbinding hcell
    have hprocessed := Action.ensures_withRetries e.config.retryPolicy hprocess
      { w with store } hnet
    have hmoves := Moves.process hqueue hborn hsound' hbinding hcell hprocessed
    have hhandle := handle_net e p { w with store }
    unfold Engine.retrying at hhandle
    rw [← hhandle] at hmoves
    exact hmoves

theorem Inv.count (h : Inv σ r born n) {k : Key} (hk : ¬ (k.Lasting ∨ k = .separator)) :
    Inv σ r born (n.count k) ∧ n.Grows (n.count k) :=
  ⟨h.alike (n.alike_count hk), (n.alike_count hk).grows⟩

/-- The invariant holds of what each fate of a result leaves. -/
theorem Inv.concluded (h : Inv σ r born n) {p : Payload} {tree : String} {s : Submission}
    (hborn : born tree s) (hsound : Sound σ r n tree s p) {limit : UInt32} {session output : String}
    {result : Except CellError (List Value)} {m : Net}
    (hconcluded : Cell.Concluded limit n p.context tree session output result m) :
    Inv σ r born m ∧ n.Grows m := by
  obtain ⟨hmiss, hgrows⟩ := h.count (show ¬ (Key.Lasting (.misses tree p.context.pass) ∨ _) by
    simp [Key.Lasting])
  obtain ⟨hrestart, hgrows'⟩ := hmiss.count (show ¬ (Key.Lasting (.retraversals tree) ∨ _) by
    simp [Key.Lasting])
  cases hconcluded with
  | answered => exact ⟨h, .refl n⟩
  | delivered =>
    obtain ⟨hdone, hgrows⟩ := h.count (show ¬ (Key.Lasting (.done tree) ∨ _) by simp [Key.Lasting])
    have halike := (Net.alike_deliver (n.count (.done tree)) session output).trans
      (Net.alike_announce _ (.emitted session tree output))
    exact ⟨hdone.alike halike, hgrows.trans halike.grows⟩
  | passedOver => exact ⟨hmiss, hgrows⟩
  | exhausted => exact ⟨hrestart, hgrows.trans hgrows'⟩
  | restarted _ _ _ _ hinformation htext hfirst hcell =>
    rename_i text first cell
    obtain ⟨i, hi, hinput⟩ := hsound.information
    obtain rfl := Option.mem_unique hi hinformation
    obtain rfl : s.input = text := Option.mem_unique hinput htext
    have hgrown := hgrows.trans hgrows'
    have hpayload : ∀ id, Sound σ r ((n.count (.misses tree p.context.pass)).count
        (.retraversals tree)) tree s (Cell.restartPayload p.context id s.input first cell) := by
      intro id
      exact ⟨hsound.tree, hsound.session, hsound.expectation, ⟨i, hi, hgrown.information hinput⟩,
        rfl, ⟨cell, rfl, hgrown.binding hcell⟩, .first (hgrown.firstBehaviour hfirst)⟩
    have halike :=
      Net.alike_mint ((n.count (.misses tree p.context.pass)).count (.retraversals tree))
    refine ⟨(hrestart.alike halike).enqueue hborn ((hpayload n.fresh).mono halike.grows), ?_⟩
    exact hgrown.trans ⟨fun _ _ _ hv => hv, fun _ _ hb => hb, Nat.le_succ _⟩

/-- The queue loses what was taken, and the invariant holds of what each fate of the payload
leaves. -/
theorem Inv.processed (hs : e.Serves σ heard) (h : Inv σ e.registry born n) {p : Payload}
    {tree name : String} {s : Submission} {cell : Cell} {result : Except EngineError Outcome}
    {m : Net} (hborn : born tree s) (hsound : Sound σ e.registry n tree s p)
    (hbinding : n.text (.binding p.destination) = some name)
    (hcell : e.registry.get? name = some cell)
    (hprocessed : Engine.Processed σ e heard n p cell tree s.session result m) :
    Inv σ e.registry born m ∧ n.Grows m := by
  cases hprocessed with
  | objected hother hm | ended hother hm =>
    have halike := (hs.quiet _ _ hm).alike
    exact ⟨h.alike halike, halike.grows⟩
  | passedOn hother hm hterminal hyields hconnected =>
    rename_i m₀ m₁ results behaviours
    have halike := (hs.quiet _ _ hm).alike
    obtain ⟨hinv, hgrows, hnext⟩ := (h.alike halike).connected (halike.grows.binding hbinding) hcell
      hterminal hyields.kinds hconnected
    have hgrows := halike.grows.trans hgrows
    have hsuccessor : ∀ b ∈ behaviours, ∀ id, Sound σ e.registry m₁ tree s
        (Engine.successorPayload { p with args := results } p.destination id b
          ((m₁.text (.binding b)).getD "")) := by
      intro b hb id
      obtain ⟨_, _, _, _, _, htakes⟩ := hinv.wired _ _ hnext
      obtain ⟨name', _, hbinding', _⟩ := htakes b hb
      obtain ⟨i, hi, htext⟩ := hsound.information
      have hroute := hsound.route.imp hgrows fun _ _ _ _ _ _ _ _ hyields => hyields
      refine ⟨hsound.tree, hsound.session, hsound.expectation, ⟨i, hi, hgrows.information htext⟩,
        rfl, ⟨name', ?_, hbinding'⟩, .hop hroute (hgrows.binding hbinding) hcell hyields hnext hb⟩
      show some ((m₁.text (.binding b)).getD "") = some name'
      rw [hbinding']
      rfl
    obtain ⟨hqueued, hgrows'⟩ := hinv.queueAll hborn hsuccessor
    have hclose := Net.alike_close (m₁.queueAll { p with args := results } p.destination behaviours)
      p.destination behaviours
    exact ⟨hqueued.alike hclose, (hgrows.trans hgrows').trans hclose.grows⟩
  | concluded _ _ hconcluded => exact h.concluded hborn hsound hconcluded

/-! ## Runs -/

theorem Inv.congr {born' : String → Submission → Prop} (h : Inv σ r born n)
    (hborn : ∀ t s, born' t s ↔ born t s) : Inv σ r born' n := by
  refine ⟨h.separator, fun k hk => ?_, h.recorded, h.entered, h.bound, h.wired,
    fun t s hs => h.planted t s ((hborn t s).mp hs), fun item hitem => ?_⟩
  · have hunused := h.unused k hk
    exact ⟨hunused.binding, hunused.information, hunused.firstBehaviour, hunused.next,
      fun s hs => hunused.born s ((hborn _ s).mp hs)⟩
  · obtain ⟨p, t, s, rfl, hs, hsound⟩ := h.queued item hitem
    exact ⟨p, t, s, rfl, (hborn t s).mpr hs, hsound⟩

theorem born_accepted {ds : List Label} {tree : String} {s : Submission} (t : String)
    (s' : Submission) :
    Born (ds ++ [.accepted s (.ok tree)]) t s' ↔ Born ds t s' ∨ (t = tree ∧ s' = s) := by
  simp only [Born, List.mem_append, List.mem_singleton, Label.accepted.injEq, Except.ok.injEq]
  constructor
  · rintro (h | ⟨rfl, rfl⟩)
    · exact Or.inl h
    · exact Or.inr ⟨rfl, rfl⟩
  · rintro (h | ⟨rfl, rfl⟩)
    · exact Or.inl h
    · exact Or.inr ⟨rfl, rfl⟩

theorem born_processed {ds : List Label} {p : Payload} {result : Except EngineError Outcome}
    {queued : List String} (t : String) (s : Submission) :
    Born (ds ++ [.processed p result queued]) t s ↔ Born ds t s := by
  simp [Born]

theorem Inv.moves (hs : e.Serves σ heard) {ds : List Label} {d : Label} {m : Net}
    (h : Inv σ e.registry (Born ds) n) (hmoves : Moves σ e heard (Born ds) n d m) :
    Inv σ e.registry (Born (ds ++ [d])) m ∧ n.Grows m := by
  cases hmoves with
  | accept s =>
    obtain ⟨cell, hcell, _⟩ := hs.entry s
    exact h.accept (by rw [hcell]; rfl) born_accepted
  | process hqueue hborn hsound hbinding hcell hprocessed =>
    have halike := Net.alike_requeue hqueue
    obtain ⟨hinv, hgrows⟩ := (h.alike halike).processed hs hborn hsound
      (halike.grows.binding hbinding) hcell hprocessed
    have hreport := Net.alike_report
    exact ⟨(hinv.alike (hreport _ _ _)).congr born_processed,
      (halike.grows.trans hgrows).trans (hreport _ _ _).grows⟩

namespace World.Empty

variable {w : World σ} (hw : w.Empty)

include hw

theorem net_text (k : Key) : w.net.text k = none := by
  show (if k.Regular then w.contents.text k.render else none) = none
  rw [hw.contents]
  exact ite_self none

theorem net_next (b : String) : w.net.next b = none :=
  congrFun (congrArg Contents.set hw.contents) _

theorem net_queue : w.net.queue = [] := congrFun (congrArg Contents.list hw.contents) _

end World.Empty

theorem Inv.empty {w : World σ} (hw : w.Empty) (r : Registry) : Inv σ r (Born []) w.net := by
  refine ⟨hw.net_text _, fun k _ => ⟨hw.net_text _, hw.net_text _, hw.net_text _, hw.net_next _,
    fun s hs => ?_⟩, fun t i hi => ?_, fun i c b hb => ?_, fun b c hc => ?_, fun b behaviours hb =>
      ?_,
    fun t s hs => ?_, fun item hitem => ?_⟩
  · exact absurd hs (by simp [Born])
  · exact absurd ((hw.net_text _).symm.trans hi) (by simp)
  · exact absurd ((hw.net_text _).symm.trans hb) (by simp)
  · exact absurd ((hw.net_text _).symm.trans hc) (by simp)
  · exact absurd ((hw.net_next b).symm.trans hb) (by simp)
  · exact absurd hs (by simp [Born])
  · rw [hw.net_queue] at hitem
    exact absurd hitem (by simp)

/-- What holds of a network in which the invariant holds, and is kept by every step, holds after
every run from there. -/
theorem Run.induct (hs : e.Serves σ heard) {w w' : World σ} {ds₀ ds : List Label}
    (h : Inv σ e.registry (Born ds₀) w.net) {P : List Label → Net → Prop} (hnil : P [] w.net)
    (hsnoc : ∀ ds n d m, Inv σ e.registry (Born (ds₀ ++ ds)) n → P ds n →
      Moves σ e heard (Born (ds₀ ++ ds)) n d m → P (ds ++ [d]) m)
    (hrun : Run e w ds w') : Inv σ e.registry (Born (ds₀ ++ ds)) w'.net ∧ P ds w'.net := by
  induction hrun with
  | nil =>
    rw [List.append_nil]
    exact ⟨h, hnil⟩
  | snoc _ hstep ih =>
    obtain ⟨hinv, hP⟩ := ih
    have hmoves := step_moves hs hinv hstep
    refine ⟨?_, hsnoc _ _ _ _ hinv hP hmoves⟩
    rw [← List.append_assoc]
    exact (hinv.moves hs hmoves).1

theorem run_inv (hs : e.Serves σ heard) {w w' : World σ} {ds : List Label} (hw : w.Empty)
    (hrun : Run e w ds w') : Inv σ e.registry (Born ds) w'.net :=
  (hrun.induct hs (P := fun _ _ => True) (Inv.empty hw e.registry) trivial fun _ _ _ _ _ _ _ =>
    trivial).1

/-- A tree has one submission. -/
theorem born_unique (hs : e.Serves σ heard) {w w' : World σ} {ds : List Label} (hw : w.Empty)
    (hrun : Run e w ds w') {tree : String} {s s' : Submission} (hborn : Born ds tree s)
    (hborn' : Born ds tree s') : s = s' := by
  have honce := (hrun.induct hs (P := fun ds _ => ∀ t s s', Born ds t s → Born ds t s' → s = s')
    (Inv.empty hw e.registry) (by simp [Born]) (by
      intro ds n d m hinv ih hmoves t s s' h h'
      cases hmoves with
      | accept s₀ =>
        have hfresh : ∀ s, ¬ Born ds n.fresh s := (hinv.unused n.minted (Nat.le_refl _)).born
        rcases (born_accepted t s).mp h with h | ⟨rfl, rfl⟩
        · rcases (born_accepted t s').mp h' with h' | ⟨rfl, _⟩
          · exact ih t s s' h h'
          · exact absurd h (hfresh s)
        · rcases (born_accepted _ s').mp h' with h' | ⟨_, rfl⟩
          · exact absurd h' (hfresh s')
          · rfl
      | process => exact ih t s s' ((born_processed t s).mp h) ((born_processed t s').mp h'))).2
  exact honce tree s s' hborn hborn'

/-- What is processed belongs to a tree that was accepted. -/
theorem Run.born_of_processed (hs : e.Serves σ heard) {w₀ w : World σ} {ds : List Label}
    (h₀ : w₀.Empty) (hrun : Run e w₀ ds w) {p : Payload} {result : Except EngineError Outcome}
    {queued : List String} (hmem : .processed p result queued ∈ ds) :
    ∃ tree s, p.context.tree = some tree ∧ Born ds tree s := by
  have hinduct := hrun.induct hs (P := fun ds _ => ∀ p result queued,
    .processed p result queued ∈ ds → ∃ tree s, p.context.tree = some tree ∧ Born ds tree s)
    (Inv.empty h₀ e.registry) (by simp)
  refine (hinduct ?_).2 p result queued hmem
  intro ds n d m _ ih hmoves p result queued hmem
  rcases List.mem_append.mp hmem with hmem | hmem
  · obtain ⟨tree, s, htree, hborn⟩ := ih p result queued hmem
    exact ⟨tree, s, htree, List.mem_append_left _ hborn⟩
  · rw [List.mem_singleton] at hmem
    subst hmem
    cases hmoves with
    | process _ hborn hsound => exact ⟨_, _, hsound.tree, List.mem_append_left _ hborn⟩

end SelfWiring
