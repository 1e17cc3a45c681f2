import SelfWiring.Engine.Pools
import SelfWiring.Proofs.Cells
import SelfWiring.Proofs.Delivery
import SelfWiring.Proofs.Draws

/-!
# What accepting and processing do

Everything that one submission or one payload can do to the network. Accepting always comes out the
same way. A payload meets its cell: the cell objects, or ends its walk, or its results are passed on
along the connections of the behaviour, which are made first where there are none.
-/

namespace SelfWiring

namespace Net

/-- The network after a submission was accepted. -/
def accept (n : Net) (s : Submission) : Net :=
  let information := n.mint.record s.input
  let entry := information.2.enter information.1 (Engine.entryCell s)
  let anchored := entry.2.write (.firstBehaviour n.fresh) entry.1
  (anchored.mint.enqueue
    (Engine.firstPayload s anchored.fresh n.fresh information.1 entry.1)).announce
      (.accepted s.session n.fresh)

/-- Identifiers for cells, with the network in which they are minted. -/
def mintAll (n : Net) : List String → List (String × String) × Net
  | [] => ([], n)
  | cell :: rest => ((n.fresh, cell) :: (n.mint.mintAll rest).1, (n.mint.mintAll rest).2)

/-- New behaviours bound to cells, with the network that has them. -/
def sprout (n : Net) : List String → List String × Net
  | [] => ([], n)
  | cell :: rest =>
    (n.fresh :: ((n.mint.write (.binding n.fresh) cell).sprout rest).1,
      ((n.mint.write (.binding n.fresh) cell).sprout rest).2)

/-- The network after results were queued for behaviours. -/
def queueAll (n : Net) (p : Payload) (producer : String) : List String → Net
  | [] => n
  | behaviour :: rest =>
    (n.mint.enqueue (Engine.successorPayload p producer n.fresh behaviour
      ((n.text (.binding behaviour)).getD ""))).queueAll p producer rest

/-- Announce a dead end where nothing follows. -/
def close (n : Net) (behaviour : String) (successors : List String) : Net :=
  if successors.length = 0 then n.announce (.deadEnd behaviour) else n

/-- The network after the failure of a payload, if it failed, was announced. -/
def report (n : Net) (p : Payload) : Except EngineError Outcome → Net
  | .ok _ => n
  | .error (.cell (.expectationNotMet tree attempt)) => n.announce (.expectationNotMet tree attempt)
  | .error (.cell (.budgetExhausted tree attempts)) => n.announce (.budgetExhausted tree attempts)
  | .error e => n.announce (.dropped p.destination (p.context.cell.getD "?") e.message)

theorem mintAll_next (cells : List String) : ∀ n : Net, (n.mintAll cells).2.next = n.next := by
  induction cells with
  | nil => intro n; rfl
  | cons cell cells ih => intro n; exact ih n.mint

theorem mintAll_write (cells : List String) (k : Key) (value : String) :
    ∀ n : Net, (n.write k value).mintAll cells =
      ((n.mintAll cells).1, (n.mintAll cells).2.write k value) := by
  induction cells with
  | nil => intro n; rfl
  | cons cell cells ih =>
    intro n
    have htail := ih n.mint
    show ((n.fresh, cell) :: ((n.mint.write k value).mintAll cells).1,
      ((n.mint.write k value).mintAll cells).2) = _
    rw [htail]
    rfl

/-- Minting all identifiers first makes no difference. -/
theorem bindAll_mintAll (cells : List String) :
    ∀ n : Net, (n.mintAll cells).2.bindAll (n.mintAll cells).1 = (n.sprout cells).2 ∧
      (n.mintAll cells).1.map (·.1) = (n.sprout cells).1 := by
  induction cells with
  | nil => intro n; exact ⟨rfl, rfl⟩
  | cons cell cells ih =>
    intro n
    obtain ⟨hnet, hnames⟩ := ih (n.mint.write (.binding n.fresh) cell)
    rw [mintAll_write] at hnet hnames
    exact ⟨hnet, congrArg (n.fresh :: ·) hnames⟩

end Net

namespace Engine

open SelfWiring.Action

variable {σ : Type} [Store σ] [FaultFree σ] {n : Net}

/-! ## Accepting -/

theorem entryCell_regular (s : Submission) :
    entryCell s = Cell.inputName ∨ entryCell s = Cell.outputName := by
  unfold entryCell
  split
  · exact Or.inr rfl
  · exact Or.inl rfl

theorem accept_reaches (s : Submission) (n : Net) :
    Reaches σ (accept s) n (.ok n.fresh) (n.accept s) := by
  refine (reaches_lift (Program.reaches_mint n)).andThen ?_
  refine (reaches_adapt (Graph.informationIdFor_reaches s.input n.mint)).andThen ?_
  refine (reaches_adapt (Graph.entryBehaviour_reaches (entryCell_regular s) _ _)).andThen ?_
  refine (reaches_adapt (Graph.anchorTree_reaches n.fresh _ _)).andThen ?_
  refine (reaches_lift (Program.reaches_mint _)).andThen ?_
  refine (reaches_adapt (reaches_push_payload _ _)).andThen ?_
  refine (reaches_lift (Program.reaches_publish _ _)).andThen ?_
  exact reaches_pure n.fresh _

/-! ## Forwarding -/

theorem draw_ensures (limit : UInt64) (candidates : List String) (n : Net) :
    Program.Ensures σ (Program.draw limit candidates) n fun drawn m =>
      m = n ∧ (∀ c ∈ drawn, c ∈ candidates) ∧ drawn.length ≤ limit.toNat := by
  rintro w rfl
  exact ⟨rfl, fun c hc => Random.Generator.mem_cells hc,
    Random.Generator.length_cells_le limit candidates w.generator⟩

theorem mintAll_reaches (cells : List String) :
    ∀ n : Net, Program.Reaches σ (mintAll cells) n (n.mintAll cells).1 (n.mintAll cells).2 := by
  induction cells with
  | nil => intro n; exact Program.reaches_pure [] n
  | cons cell cells ih =>
    intro n
    refine (Program.reaches_mint n).bind ?_
    exact (ih n.mint).bind (Program.reaches_pure _ _)

/-- Where the results of a behaviour go: along its connections, made now if there are none, for no
more cells than the limit. -/
inductive Connected (r : Registry) (limit : UInt64) (n : Net) (producer : String)
    (args : List Value) : List String → Net → Prop
  | known {behaviours : List String} (h : n.next producer = some behaviours) :
    Connected r limit n producer args behaviours n
  | explored (h : n.next producer = none) (cells : List String)
    (hcells : ∀ c ∈ cells, c ∈ r.candidates args) (hlimit : cells.length ≤ limit.toNat) :
    Connected r limit n producer args (addMembers [] (n.sprout cells).1)
      ((n.sprout cells).2.wire producer (addMembers [] (n.sprout cells).1))

/-- Behaviours for cells that were drawn are made and connected. -/
def settle (producer : String) (cells : List String) : Action StoreError (List String) := do
  let minted ← mintAll cells
  Graph.connect producer minted

theorem settle_reaches {producer : String} (h : n.next producer = none) (cells : List String) :
    Reaches σ (settle producer cells) n (.ok (addMembers [] (n.sprout cells).1))
      ((n.sprout cells).2.wire producer (addMembers [] (n.sprout cells).1)) := by
  have hnext : (n.mintAll cells).2.next producer = none := by
    rw [Net.mintAll_next]
    exact h
  obtain ⟨hnet, hnames⟩ := Net.bindAll_mintAll cells n
  have hconnect := Graph.connect_of_none (σ := σ) hnext (n.mintAll cells).1
  rw [hnet, hnames] at hconnect
  exact (reaches_lift (mintAll_reaches cells n)).andThen hconnect

theorem explore_ensures {producer : String} (h : n.next producer = none) (r : Registry)
    (limit : UInt64) (args : List Value) :
    Ensures σ (explore r limit producer args) n fun result m =>
      ∃ behaviours, result = .ok behaviours ∧ Connected r limit n producer args behaviours m := by
  refine (ensures_lift (draw_ensures limit (r.candidates args) n)).bind ?_ ?_
  · rintro drawn m ⟨_, hdrawn, rfl, hcells, hlimit⟩
    obtain rfl := Except.ok.inj hdrawn
    exact (settle_reaches h drawn).ensures ⟨_, rfl, .explored h drawn hcells hlimit⟩
  · rintro e m ⟨_, he, _⟩
    exact absurd he (by simp)

theorem successors_ensures (r : Registry) (limit : UInt64) (producer : String) (args : List Value)
    (n : Net) :
    Ensures σ (successors r limit producer args) n fun result m =>
      ∃ behaviours, result = .ok behaviours ∧ Connected r limit n producer args behaviours m := by
  cases h : n.next producer with
  | some behaviours =>
    refine (Graph.connections_of_some h).bind ?_
    exact (reaches_pure behaviours n).ensures ⟨behaviours, rfl, .known h⟩
  | none => exact (Graph.connections_of_none h).bind (explore_ensures h r limit args)

theorem queueAll_reaches (p : Payload) (producer : String) (behaviours : List String) :
    ∀ n : Net, (∀ b ∈ behaviours, (n.text (.binding b)).isSome = true) →
      Reaches σ (queueAll p producer behaviours) n (.ok ()) (n.queueAll p producer behaviours) := by
  induction behaviours with
  | nil => intro n _; exact reaches_pure () n
  | cons b behaviours ih =>
    intro n hbound
    obtain ⟨cell, hcell⟩ := Option.isSome_iff_exists.mp (hbound b List.mem_cons_self)
    refine (Graph.binding_of_some hcell).andThen ?_
    refine (reaches_lift (Program.reaches_mint n)).andThen ?_
    refine (reaches_push_payload _ _).andThen ?_
    have htail := ih (n.mint.enqueue (successorPayload p producer n.fresh b cell))
      fun b' hb' => hbound b' (List.mem_cons_of_mem _ hb')
    rw [Net.queueAll, hcell]
    exact htail

theorem forward_ensures {r : Registry} {limit : UInt64} {p : Payload} {producer : String}
    (hproducer : p.context.behaviour = some producer)
    (hbound : ∀ behaviours m, Connected r limit n producer p.args behaviours m →
      ∀ b ∈ behaviours, (m.text (.binding b)).isSome = true) :
    Ensures σ (forward r limit p) n fun result m =>
      ∃ behaviours m₁, Connected r limit n producer p.args behaviours m₁ ∧
        result = .ok behaviours.length ∧ m = m₁.queueAll p producer behaviours := by
  unfold forward
  rw [hproducer]
  refine (ensures_adapt (successors_ensures r limit producer p.args n)).bind ?_ ?_
  · rintro behaviours m ⟨result, hresult, behaviours', rfl, hconnected⟩
    obtain rfl := Except.ok.inj hresult
    have hqueue := queueAll_reaches (σ := σ) p producer behaviours m
      (hbound behaviours m hconnected)
    refine (reaches_adapt hqueue).bind ?_
    exact (reaches_pure behaviours.length _).ensures ⟨behaviours, m, hconnected, rfl, rfl⟩
  · rintro e m ⟨result, hresult, behaviours', rfl, _⟩
    exact nomatch hresult

/-! ## Processing -/

/-- What a payload comes to that is for a cell of the engine, apart from the announcement of its
failure. The output cell concludes results, those of the tree and the session given, and all other
cells do not. -/
inductive Processed (σ : Type) [Store σ] [FaultFree σ] (e : Engine) (heard : Net → Net → Prop)
    (n : Net) (p : Payload) (cell : Cell) (tree session : String) :
    Except EngineError Outcome → Net → Prop
  | objected {m : Net} (hother : cell.name ≠ Cell.outputName) (hm : heard n m) (name : String)
    (objection : Objection) (hobjects : cell.Objects σ p.args) :
    Processed σ e heard n p cell tree session (.error (.cell (.domain name objection))) m
  | ended {m : Net} (hother : cell.name ≠ Cell.outputName) (hm : heard n m)
    (hterminal : cell.terminal = true) :
    Processed σ e heard n p cell tree session (.ok .terminated) m
  | passedOn {m m' : Net} {results : List Value} {behaviours : List String}
    (hother : cell.name ≠ Cell.outputName) (hm : heard n m) (hterminal : cell.terminal = false)
    (hyields : cell.Yields σ p.args results)
    (hconnected : Connected e.registry e.config.maxSignals m p.destination results behaviours m') :
    Processed σ e heard n p cell tree session (.ok (.forwarded behaviours.length))
      ((m'.queueAll { p with args := results } p.destination behaviours).close p.destination
        behaviours)
  | concluded {m : Net} {v : Value} {vs : List Value} {r : Except CellError (List Value)}
    (hcell : cell = Cell.output e.config.maxRetraversals) (hargs : p.args = v :: vs)
    (h : Cell.Concluded e.config.maxRetraversals n p.context tree session v.display r m) :
    Processed σ e heard n p cell tree session
      ((r.mapError EngineError.cell).map fun _ => .terminated) m

variable {e : Engine} {heard : Net → Net → Prop} {p : Payload} {cell : Cell}

theorem ensures_run {ε α : Type} {a : Action ε α} {Q : Except ε α → Net → Prop}
    (h : Ensures σ a n Q) :
    Ensures σ a n fun r m => Q r m ∧ ∃ w : World σ, w.net = n ∧ (w.run a.run).1 = r :=
  fun w hw => ⟨h w hw, w, hw, rfl⟩

theorem calculate_ensures (hcomputing : cell.Computing σ heard) (hserved : cell.Served p.args n) :
    Ensures σ (cell.calculate p) n fun r m => heard n m ∧
      ((∃ name objection, r = .error (.cell (.domain name objection)) ∧ cell.Objects σ p.args) ∨
        ∃ results, r = .ok { p with args := results } ∧ cell.Yields σ p.args results) := by
  have hcall := ensures_run (hcomputing p.context p.args n hserved)
  have hunseparated : ∀ w : World σ, w.net = n → w.net.text .separator = none := by
    rintro w rfl
    exact hserved.separator
  refine (ensures_adapt (g := EngineError.cell) hcall).bind ?_ ?_
  · rintro results m ⟨r, hr, ⟨hheard, hproper⟩, w, hw, hrun⟩
    cases hproper with
    | objection name objection => exact nomatch hr
    | results vs hkinds =>
      obtain rfl := Except.ok.inj hr
      have hlength : results.length = cell.signature.outputs.length := by
        rw [← hkinds, List.length_map]
      simp only [if_pos hlength]
      have hyields : cell.Yields σ p.args results :=
        ⟨⟨w, p.context, hunseparated w hw, hrun⟩, hkinds⟩
      exact (reaches_pure _ m).ensures ⟨hheard, Or.inr ⟨results, rfl, hyields⟩⟩
  · rintro failure m ⟨r, hr, ⟨hheard, hproper⟩, w, hw, hrun⟩
    cases hproper with
    | objection name objection =>
      obtain rfl := Except.error.inj hr
      have hobjects : cell.Objects σ p.args := ⟨w, p.context, _, hunseparated w hw, hrun⟩
      exact ⟨hheard, Or.inl ⟨name, objection, rfl, hobjects⟩⟩
    | results vs hkinds => exact nomatch hr

theorem exists_name_of_cellFor (h : e.cellFor p = .ok cell) :
    ∃ name, p.context.cell = some name ∧ e.registry.get? name = some cell := by
  unfold cellFor at h
  split at h
  · exact nomatch h
  · rename_i name hname
    split at h
    · exact nomatch h
    · rename_i hcell
      exact ⟨name, hname, Except.ok.inj h ▸ hcell⟩

theorem activate_of_accepts (h : cell.signature.accepts p.args = true) :
    cell.activate p = .ok p := by
  unfold Cell.activate
  rw [Signature.check_of_accepts h]

theorem activate_of_not_accepts (h : ¬ cell.signature.accepts p.args = true) :
    ∃ failure, cell.activate p = .error failure := by
  unfold Cell.activate
  unfold Signature.accepts at h
  cases hcheck : cell.signature.check p.args with
  | ok _ => exact absurd (by rw [hcheck]; rfl) h
  | error mismatch => exact ⟨_, rfl⟩

/-- Processing is running the cell and passing its results on: the checks before are passed, and the
trace after leaves the network as it is. -/
theorem process_ensures_of {Q : Except EngineError Outcome → Net → Prop}
    {R : Except EngineError Payload → Net → Prop} (hcell : e.cellFor p = .ok cell)
    (haccepted : cell.signature.accepts p.args = true)
    (hcalculate : Ensures σ (cell.calculate p) n R)
    (hfailed : ∀ failure m, R (.error failure) m → Q (.error failure) m)
    (hpassed : ∀ results m, R (.ok results) m →
      Ensures σ (e.passOn cell p.destination results) m Q) :
    Ensures σ (e.process p) n Q := by
  refine (reaches_ofExcept hcell n).bind ?_
  refine (reaches_ofExcept (activate_of_accepts haccepted) n).bind ?_
  refine hcalculate.bind ?_ hfailed
  intro results m hresults
  refine (hpassed results m hresults).bind ?_ fun _ _ h => h
  intro outcome k houtcome
  refine (ensures_lift (Graph.track_ensures results k)).bind ?_ ?_
  · rintro _ _ ⟨_, _, rfl⟩
    exact (reaches_pure outcome _).ensures houtcome
  · rintro _ _ ⟨_, h, _⟩
    exact absurd h (by simp)

theorem passOn_ensures (results : Payload) {producer : String} (hterminal : cell.terminal = false)
    (hproducer : results.context.behaviour = some producer)
    (hbound : ∀ behaviours m,
      Connected e.registry e.config.maxSignals n producer results.args behaviours m →
        ∀ b ∈ behaviours, (m.text (.binding b)).isSome = true) :
    Ensures σ (e.passOn cell producer results) n fun r m =>
      ∃ behaviours m₁,
        Connected e.registry e.config.maxSignals n producer results.args behaviours m₁ ∧
          r = .ok (.forwarded behaviours.length) ∧
          m = (m₁.queueAll results producer behaviours).close producer behaviours := by
  have hforward : e.passOn cell producer results = (do
      let n ← forward e.registry e.config.maxSignals results
      if n = 0 then Program.publish (.deadEnd producer)
      return .forwarded n) := if_neg (by simp [hterminal])
  rw [hforward]
  refine (forward_ensures hproducer hbound).bind ?_ ?_
  · rintro k m ⟨behaviours, m₁, hconnected, hk, rfl⟩
    obtain rfl := Except.ok.inj hk
    by_cases hnone : behaviours.length = 0
    · have hclose : (m₁.queueAll results producer behaviours).close producer behaviours =
          (m₁.queueAll results producer behaviours).announce (.deadEnd producer) := if_pos hnone
      simp only [if_pos hnone]
      refine (reaches_lift (Program.reaches_publish (.deadEnd producer) _)).bind ?_
      exact (reaches_pure _ _).ensures ⟨behaviours, m₁, hconnected, rfl, hclose.symm⟩
    · have hclose : (m₁.queueAll results producer behaviours).close producer behaviours =
          m₁.queueAll results producer behaviours := if_neg hnone
      simp only [if_neg hnone]
      exact (reaches_pure _ _).ensures ⟨behaviours, m₁, hconnected, rfl, hclose.symm⟩
  · rintro failure m ⟨_, _, _, h, _⟩
    exact absurd h (by simp)

variable {tree session : String}

theorem process_ensures (hcell : e.cellFor p = .ok cell) (hother : cell.name ≠ Cell.outputName)
    (hcomputing : cell.Computing σ heard) (hserved : cell.Served p.args n)
    (hproducer : p.context.behaviour = some p.destination)
    (hbound : ∀ m results, heard n m → cell.Yields σ p.args results → cell.terminal = false →
      ∀ behaviours m',
        Connected e.registry e.config.maxSignals m p.destination results behaviours m' →
          ∀ b ∈ behaviours, (m'.text (.binding b)).isSome = true) :
    Ensures σ (e.process p) n (Processed σ e heard n p cell tree session) := by
  refine process_ensures_of hcell hserved.accepted (calculate_ensures hcomputing hserved) ?_ ?_
  · rintro failure m ⟨hm, ⟨name, objection, h, hobjects⟩ | ⟨_, h, _⟩⟩
    · obtain rfl := Except.error.inj h
      exact .objected hother hm name objection hobjects
    · exact absurd h (by simp)
  · rintro results m ⟨hm, ⟨_, _, h, _⟩ | ⟨vs, h, hyields⟩⟩
    · exact absurd h (by simp)
    · obtain rfl := Except.ok.inj h
      cases hterminal : cell.terminal with
      | true =>
        unfold passOn
        rw [if_pos hterminal]
        exact (reaches_pure Outcome.terminated m).ensures (.ended hother hm hterminal)
      | false =>
        have hpassOn := passOn_ensures (σ := σ) { p with args := vs } hterminal hproducer
          (hbound m vs hm hyields hterminal)
        refine hpassOn.imp ?_
        rintro _ _ ⟨behaviours, m₁, hconnected, rfl, rfl⟩
        exact .passedOn hother hm hterminal hyields hconnected

theorem process_output_ensures {v : Value} {vs : List Value}
    (hcell : e.cellFor p = .ok (Cell.output e.config.maxRetraversals)) (hargs : p.args = v :: vs)
    (haccepted : (Cell.output e.config.maxRetraversals).signature.accepts p.args = true)
    (htree : p.context.tree = some tree) (hne : tree ≠ "")
    (hsession : p.context.session = some session) (hrestart : Cell.Restartable n p.context tree) :
    Ensures σ (e.process p) n
      (Processed σ e heard n p (Cell.output e.config.maxRetraversals) tree session) := by
  have hcall := Cell.output_ensures (σ := σ) e.config.maxRetraversals htree hne hsession
    hrestart v vs
  rw [← hargs] at hcall
  have hcalculate : Ensures σ ((Cell.output e.config.maxRetraversals).calculate p) n fun r m =>
      ∃ r', r = (r'.mapError EngineError.cell).map (fun vs => { p with args := vs }) ∧
        Cell.Concluded e.config.maxRetraversals n p.context tree session v.display r' m := by
    refine (ensures_adapt (g := EngineError.cell) hcall).bind ?_ ?_
    · rintro results m ⟨r, hr, hconcluded⟩
      have hnil : results = [] := by
        cases hconcluded <;> first | exact Except.ok.inj hr | exact nomatch hr
      subst hnil
      refine (reaches_pure _ m).ensures ⟨r, ?_, hconcluded⟩
      rw [← hr]
      rfl
    · rintro failure m ⟨r, hr, hconcluded⟩
      refine ⟨r, ?_, hconcluded⟩
      rw [← hr]
      rfl
  refine process_ensures_of hcell haccepted hcalculate ?_ ?_
  · rintro failure m ⟨r, hr, hconcluded⟩
    have hprocessed : Processed σ e heard n p _ tree session _ m := .concluded rfl hargs hconcluded
    cases r with
    | error f =>
      obtain rfl := Except.error.inj hr
      exact hprocessed
    | ok vs => exact nomatch hr
  · rintro results m ⟨r, hr, hconcluded⟩
    have hprocessed : Processed σ e heard n p _ tree session _ m := .concluded rfl hargs hconcluded
    cases r with
    | error f => exact nomatch hr
    | ok vs => exact (reaches_pure Outcome.terminated m).ensures hprocessed

end Engine

end SelfWiring
