import Mathlib.Logic.Relation
import SelfWiring.Proofs.Growth
import SelfWiring.Proofs.Traces
import SelfWiring.Proofs.Walks

/-!
# Known ground

A walk is on known ground when every behaviour that it can come to runs a registered cell and,
unless that is the output cell, has its connections, and when the texts that it carries are on
record. Such a walk learns nothing and draws nothing. What becomes of each of its hops, its fate, is
settled by the ground: all that the rest of the world decides is whether a result at the output cell
is the first of its tree.
-/

namespace SelfWiring

/-! ## Grounds -/

/-- The keys that say where a walk goes. -/
def Key.Ground : Key → Prop
  | .binding _ | .informationId _ | .entry _ _ | .separator => True
  | _ => False

theorem Key.Ground.lasting {k : Key} (h : k.Ground) : k.Lasting ∨ k = .separator := by
  cases k <;> first | exact Or.inl trivial | exact Or.inr rfl | exact h.elim

/-- Networks in which all walks go the same ways. -/
structure Net.SameGround (n m : Net) : Prop where
  next : m.next = n.next
  text : ∀ k, k.Ground → m.text k = n.text k

/-- A behaviour from which a cell can go on: the cell is registered, and the behaviour has its
connections, unless the cell is the output cell. -/
structure Net.Open (n : Net) (r : Registry) (b cell : String) : Prop where
  registered : (r.get? cell).isSome = true
  connected : cell ≠ Cell.outputName → (n.next b).isSome = true

/-- A behaviour at which a cell runs, where the cell can go on and so can, at every behaviour that
is reached from there, the cell to which it is bound. -/
structure Net.Mapped (n : Net) (r : Registry) (b cell : String) : Prop where
  here : n.Open r b cell
  beyond : ∀ b', Relation.TransGen n.Leads b b' →
    ∃ cell', n.text (.binding b') = some cell' ∧ n.Open r b' cell'

/-- All texts among the arguments are on record. -/
def Net.Records (n : Net) (args : List Value) : Prop :=
  ∀ t, .text t ∈ args → (n.text (.informationId t)).isSome = true

/-- A payload on known ground, without an expectation. -/
structure Underway (r : Registry) (n : Net) (p : Payload) : Prop where
  tree : ∃ tree, p.context.tree = some tree ∧ tree ≠ ""
  session : ∃ session, p.context.session = some session
  unexpecting : p.context.expectation = none
  behaviour : p.context.behaviour = some p.destination
  mapped : ∃ cell, p.context.cell = some cell ∧ n.Mapped r p.destination cell
  recorded : n.Records p.args

namespace Net

variable {n m k : Net} {r : Registry} {b b' cell : String}

namespace SameGround

theorem refl (n : Net) : n.SameGround n := ⟨rfl, fun _ _ => rfl⟩

theorem symm (h : n.SameGround m) : m.SameGround n :=
  ⟨h.next.symm, fun key hkey => (h.text key hkey).symm⟩

theorem trans (h : n.SameGround m) (h' : m.SameGround k) : n.SameGround k :=
  ⟨h'.next.trans h.next, fun key hkey => (h'.text key hkey).trans (h.text key hkey)⟩

variable (h : n.SameGround m)

include h

theorem leads : m.Leads = n.Leads := by
  unfold Leads
  rw [h.next]

theorem mapped (hmapped : n.Mapped r b cell) : m.Mapped r b cell := by
  have hopen : ∀ {b cell}, n.Open r b cell → m.Open r b cell := fun ho =>
    ⟨ho.registered, fun hcell => by rw [h.next]; exact ho.connected hcell⟩
  refine ⟨hopen hmapped.here, fun b' hreach => ?_⟩
  rw [h.leads] at hreach
  obtain ⟨cell', hbinding, ho⟩ := hmapped.beyond b' hreach
  exact ⟨cell', (h.text (.binding b') trivial).trans hbinding, hopen ho⟩

theorem records {args : List Value} (hrecords : n.Records args) : m.Records args := by
  intro t ht
  rw [h.text (.informationId t) trivial]
  exact hrecords t ht

end SameGround

theorem Alike.sameGround (h : n.Alike m) : n.SameGround m :=
  ⟨h.next, fun key hkey => h.text key hkey.lasting⟩

theorem sameGround_write (n : Net) (key : Key) (hkey : ¬ key.Ground) (value : String) :
    n.SameGround (n.write key value) := by
  refine ⟨rfl, fun key' hkey' => ?_⟩
  have hne : key' ≠ key := fun heq => hkey (heq ▸ hkey')
  exact Function.update_of_ne hne _ _

theorem sameGround_queueAll (p : Payload) (producer : String) (behaviours : List String)
    (n : Net) : n.SameGround (n.queueAll p producer behaviours) := by
  obtain ⟨htext, hnext, -⟩ := n.queueAll_payloads p producer behaviours
  exact ⟨hnext, fun key _ => congrFun htext key⟩

/-- The way from mapped ground stays on mapped ground. -/
theorem Mapped.follow (h : n.Mapped r b cell) (hleads : n.Leads b b') :
    ∃ cell', n.text (.binding b') = some cell' ∧ n.Mapped r b' cell' := by
  obtain ⟨cell', hbinding, hopen⟩ := h.beyond b' (.single hleads)
  exact ⟨cell', hbinding, hopen, fun b'' hreach => h.beyond b'' (.head hleads hreach)⟩

end Net

/-! ## Cells on known ground -/

open SelfWiring.Action

variable {σ : Type} [Store σ] [FaultFree σ]

namespace Cell

/-- What a cell comes to depends on its arguments and on the separator. It leaves a network alone
that has the texts among its arguments on record, and makes no new texts. -/
def Grounded (σ : Type) [Store σ] [FaultFree σ] (c : Cell) : Prop :=
  ∀ args separator, ∃ r : Except CellError (List Value),
    (∀ vs, r = .ok vs → ∀ t, .text t ∈ vs → .text t ∈ args) ∧
      ∀ ctx n, n.text .separator = separator → n.Records args → Reaches σ (c.call ctx args) n r n

theorem text_notMem_of_kinds {vs : List Value} {kinds : List Kind} (h : vs.map Value.kind = kinds)
    (hkinds : .text ∉ kinds) (t : String) : .text t ∉ vs := by
  intro ht
  have hkind : Value.kind (.text t) ∈ vs.map Value.kind := List.mem_map_of_mem ht
  rw [h] at hkind
  exact hkinds hkind

theorem pure_grounded {name : String} {signature : Signature} {metadata : List (String × String)}
    {f : List Value → Except Objection (List Value)}
    (hf : ∀ args vs, f args = .ok vs → ∀ t, .text t ∉ vs) :
    (Cell.pure name signature metadata f).Grounded σ := by
  intro args separator
  refine ⟨(f args).mapError (.domain name), fun vs hvs t ht => ?_, fun ctx n _ _ =>
    pure_reaches name signature metadata f ctx args n⟩
  cases hargs : f args with
  | error objection =>
    rw [hargs] at hvs
    exact nomatch hvs
  | ok results =>
    rw [hargs] at hvs
    obtain rfl := Except.ok.inj hvs
    exact absurd ht (hf args results hargs t)

theorem binary_grounded {name : String} {output : Kind} {fallible : Bool}
    {f : Int → Int → Except Objection Value} (houtput : output ≠ .text)
    (hf : ∀ a b v, f a b = .ok v → v.kind = output) : (binary name output fallible f).Grounded σ :=
  pure_grounded fun _ _ h => text_notMem_of_kinds (onPair_kind hf h) (by simp [houtput.symm])

theorem arithmetic_grounded {c : Cell} (hc : c ∈ arithmetic) : c.Grounded σ := by
  simp only [arithmetic, List.mem_cons, List.not_mem_nil, or_false] at hc
  rcases hc with rfl | rfl | rfl | rfl | rfl | rfl
  · exact binary_grounded (by decide) fun _ _ _ h => bounded_kind h
  · exact binary_grounded (by decide) fun _ _ _ h => bounded_kind h
  · exact binary_grounded (by decide) fun _ _ _ h => bounded_kind h
  · exact binary_grounded (by decide) fun _ _ _ h => divideInts_kind h
  · exact binary_grounded (by decide) fun _ _ _ h => by rw [← Except.ok.inj h]; rfl
  · exact binary_grounded (by decide) fun _ _ _ h => by rw [← Except.ok.inj h]; rfl

theorem mem_of_textOf {name text : String} {args : List Value} (h : textOf name args = .ok text) :
    .text text ∈ args := by
  unfold textOf at h
  split at h
  · rename_i text' htext
    obtain rfl := Except.ok.inj h
    obtain ⟨v, hv, hasText⟩ := Option.bind_eq_some_iff.mp htext
    cases v with
    | text t =>
      obtain rfl := Option.some.inj hasText
      exact List.mem_of_mem_head? hv
    | int _ | bool _ => exact nomatch hasText
  · exact nomatch h

/-- A text that is on record leaves the network as it is at the input cell. -/
theorem input_grounded : input.Grounded σ := by
  intro args separator
  cases h : textOf inputName args with
  | error e =>
    exact ⟨.error e, fun _ hvs => (nomatch hvs), fun ctx n _ _ => input_reaches_error h ctx n⟩
  | ok text =>
    refine ⟨.ok args, fun vs hvs t ht => Except.ok.inj hvs ▸ ht, fun ctx n _ hrecords => ?_⟩
    obtain ⟨id, hid⟩ := Option.isSome_iff_exists.mp (hrecords text (mem_of_textOf h))
    have hreaches := input_reaches (σ := σ) h ctx n
    unfold Net.record at hreaches
    rw [hid] at hreaches
    exact hreaches

theorem splitFeatures_grounded (default : String) : (splitFeatures default).Grounded σ := by
  intro args separator
  refine ⟨splitArgs (separatorFrom default separator) args, fun vs hvs t ht => ?_,
    fun ctx n hseparator _ => hseparator ▸ splitFeatures_reads default ctx args n⟩
  unfold splitArgs at hvs
  split at hvs
  · exact nomatch hvs
  · rename_i text _
    cases hsplit : splitText (separatorFrom default separator) text with
    | error objection =>
      rw [hsplit] at hvs
      exact nomatch hvs
    | ok results =>
      rw [hsplit] at hvs
      obtain rfl := Except.ok.inj hvs
      exact absurd ht (text_notMem_of_kinds (splitText_kinds hsplit) (by decide) t)

/-- All standard cells but the output cell are grounded, and only the output cell is terminal. -/
theorem standard_grounded {config : Config} {c : Cell} (hc : c ∈ standard config) :
    c = output config.maxRetraversals ∨ c.Grounded σ ∧ c.terminal = false := by
  rcases eq_output_or_mem_of_mem_standard hc with rfl | hc
  · exact Or.inl rfl
  refine Or.inr ?_
  rcases List.mem_append.mp hc with h | h
  · rcases List.mem_cons.mp h with rfl | h
    · exact ⟨input_grounded, rfl⟩
    · rw [List.mem_singleton.mp h]
      exact ⟨splitFeatures_grounded config.separator, rfl⟩
  · refine ⟨arithmetic_grounded h, ?_⟩
    simp only [arithmetic, List.mem_cons, List.not_mem_nil, or_false] at h
    rcases h with rfl | rfl | rfl | rfl | rfl | rfl <;> rfl

/-- The number of results is compared with the signature, and so what is calculated depends on the
arguments and the separator as well. -/
theorem Grounded.calculate {c : Cell} (h : c.Grounded σ) (args : List Value)
    (separator : Option String) : ∃ r : Except EngineError (List Value),
    (∀ vs, r = .ok vs → ∀ t, .text t ∈ vs → .text t ∈ args) ∧
      ∀ (p : Payload) (n : Net), p.args = args → n.text .separator = separator → n.Records args →
        Reaches σ (c.calculate p) n (r.map fun vs => { p with args := vs }) n := by
  obtain ⟨r, htexts, hreaches⟩ := h args separator
  cases r with
  | error failure =>
    refine ⟨.error (.cell failure), fun _ hvs => (nomatch hvs), ?_⟩
    rintro p n rfl hseparator hrecords
    exact (reaches_adapt (hreaches p.context n hseparator hrecords)).bind_error
  | ok results =>
    by_cases hlength : results.length = c.signature.outputs.length
    · refine ⟨.ok results, fun vs hvs => htexts vs (congrArg _ (Except.ok.inj hvs)), ?_⟩
      rintro p n rfl hseparator hrecords
      refine (reaches_adapt (hreaches p.context n hseparator hrecords)).andThen ?_
      simp only [if_pos hlength]
      exact reaches_pure _ n
    · refine ⟨.error (.cell (.arity c.name c.signature.outputs.length results.length)),
        fun _ hvs => (nomatch hvs), ?_⟩
      rintro p n rfl hseparator hrecords
      refine (reaches_adapt (hreaches p.context n hseparator hrecords)).andThen ?_
      simp only [if_neg hlength]
      exact reaches_throw _ n

end Cell

/-! ## Fates -/

/-- What becomes of a hop on known ground. -/
inductive Fate where
  | failed (failure : EngineError)
  | passed (results : List Value)
  /-- The output cell concludes it. -/
  | concluded

/-- A payload that makes a hop. -/
def Hop.arrival (h : Hop) : Payload where
  args := h.args
  context := { id := "", behaviour := some h.destination, cell := h.cell }
  destination := h.destination
  sources := h.sources

namespace Engine

/-- The fate of a hop on the ground of a world. -/
def fate {σ : Type} [Store σ] (e : Engine) (g : World σ) (h : Hop) : Fate :=
  match e.cellFor h.arrival with
  | .error failure => .failed failure
  | .ok cell =>
    match cell.activate h.arrival with
    | .error failure => .failed failure
    | .ok p =>
      if cell.terminal then .concluded
      else
        match (g.run (cell.calculate p).run).1 with
        | .error failure => .failed failure
        | .ok results => .passed results.args

/-- What processing a payload with a fate comes to. Results that are passed on have their texts on
record, and one that is concluded is delivered unless its tree was answered. -/
inductive Fated (n : Net) (p : Payload) : Fate → Except EngineError Outcome → Net → Prop
  | failed (failure : EngineError) : Fated n p (.failed failure) (.error failure) n
  | passed {results : List Value} {behaviours : List String} (hrecorded : n.Records results)
    (hnext : n.next p.destination = some behaviours) :
    Fated n p (.passed results) (.ok (.forwarded behaviours.length))
      ((n.queueAll { p with args := results } p.destination behaviours).close p.destination
        behaviours)
  | answered {tree : String} (htree : p.context.tree = some tree)
    (hdone : (n.text (.done tree)).isSome = true) : Fated n p .concluded (.ok .terminated) n
  | delivered {tree session output : String} (htree : p.context.tree = some tree)
    (hdone : n.text (.done tree) = none) :
    Fated n p .concluded (.ok .terminated)
      (((n.count (.done tree)).deliver session output).announce (.emitted session tree output))

variable {e : Engine} {g : World σ} {n : Net} {p : Payload} {cell : Cell} {name : String}

theorem cellFor_of_get? (hname : p.context.cell = some name)
    (hcell : e.registry.get? name = some cell) : e.cellFor p = .ok cell := by
  unfold cellFor
  rw [hname]
  simp only [hcell]

/-- Arguments that do not fit are refused on every ground. -/
theorem process_of_refused (hname : p.context.cell = some name)
    (hcell : e.registry.get? name = some cell)
    (hrefused : ¬ cell.signature.accepts p.args = true) :
    Ensures σ (e.process p) n (Fated n p (e.fate g p.hop)) := by
  obtain ⟨failure, hfailure⟩ := activate_of_not_accepts hrefused
  have hfate : e.fate g p.hop = .failed failure := by
    have harrival : cell.activate p.hop.arrival = .error failure := by
      unfold Cell.activate at hfailure ⊢
      split at hfailure
      · exact nomatch hfailure
      · rename_i reason hcheck
        rw [show cell.signature.check p.hop.arrival.args = .error reason from hcheck]
        exact hfailure
    unfold fate
    rw [cellFor_of_get? (p := p.hop.arrival) hname hcell]
    simp only [harrival]
  rw [hfate]
  refine (reaches_ofExcept (cellFor_of_get? hname hcell) n).bind ?_
  exact (reaches_ofExcept hfailure n).bind_error.ensures (.failed failure)

omit [FaultFree σ] in
theorem fate_of_accepted (hname : p.context.cell = some name)
    (hcell : e.registry.get? name = some cell)
    (haccepted : cell.signature.accepts p.args = true) :
    e.fate g p.hop = if cell.terminal then .concluded else
      match (g.run (cell.calculate p.hop.arrival).run).1 with
      | .error failure => .failed failure
      | .ok results => .passed results.args := by
  unfold fate
  rw [cellFor_of_get? (p := p.hop.arrival) hname hcell]
  simp only [activate_of_accepts (p := p.hop.arrival) haccepted]

/-- A result that nobody expects otherwise is delivered or comes too late. -/
theorem process_of_terminal (hp : Underway e.registry g.net p)
    (hname : p.context.cell = some Cell.outputName)
    (hcell : e.registry.get? Cell.outputName = some (Cell.output e.config.maxRetraversals))
    (haccepted : (Cell.output e.config.maxRetraversals).signature.accepts p.args = true) :
    Ensures σ (e.process p) n (Fated n p (e.fate g p.hop)) := by
  obtain ⟨tree, htree, hne⟩ := hp.tree
  obtain ⟨session, hsession⟩ := hp.session
  obtain ⟨v, vs, hargs⟩ := exists_cons_of_accepts_any rfl haccepted
  have hfate : e.fate g p.hop = .concluded :=
    (fate_of_accepted hname hcell haccepted).trans (if_pos rfl)
  rw [hfate]
  have hcall : Ensures σ ((Cell.output e.config.maxRetraversals).call p.context p.args) n
      fun r m => r = .ok [] ∧ Fated n p .concluded (.ok .terminated) m := by
    rw [hargs]
    cases hdone : n.text (.done tree) with
    | some text =>
      have hanswered : (n.text (.done tree)).isSome = true := by rw [hdone]; rfl
      exact (Cell.output_of_answered _ htree hanswered v vs).ensures
        ⟨rfl, .answered htree hanswered⟩
    | none =>
      have hfits : p.context.expectation.all (· == v.display) = true := by
        rw [hp.unexpecting]
        rfl
      exact (Cell.output_of_fitting _ htree hne hsession hdone hfits vs).ensures
        ⟨rfl, .delivered htree hdone⟩
  have hcalculate : Ensures σ ((Cell.output e.config.maxRetraversals).calculate p) n
      fun r m => r = .ok { p with args := [] } ∧ Fated n p .concluded (.ok .terminated) m := by
    refine (ensures_adapt (g := EngineError.cell) hcall).bind ?_ ?_
    · rintro results m ⟨r, hr, rfl, hm⟩
      obtain rfl := Except.ok.inj hr
      exact (reaches_pure _ m).ensures ⟨rfl, hm⟩
    · rintro failure m ⟨r, hr, rfl, hm⟩
      exact nomatch hr
  refine process_ensures_of (cellFor_of_get? hname hcell) haccepted hcalculate ?_ ?_
  · rintro failure m ⟨hr, _⟩
    exact nomatch hr
  · rintro results m ⟨hr, hm⟩
    exact (reaches_pure Outcome.terminated m).ensures hm

/-- A grounded cell comes to the same as on the ground, and its results go along the connections
there. -/
theorem process_of_grounded (hg : g.net.SameGround n) (hp : Underway e.registry g.net p)
    (hname : p.context.cell = some name) (hcell : e.registry.get? name = some cell)
    (hgrounded : cell.Grounded σ) (hterminal : cell.terminal = false)
    (hother : name ≠ Cell.outputName)
    (haccepted : cell.signature.accepts p.args = true) :
    Ensures σ (e.process p) n (Fated n p (e.fate g p.hop)) := by
  obtain ⟨r, htexts, hreaches⟩ := hgrounded.calculate p.args (g.net.text .separator)
  have hfate := fate_of_accepted (g := g) hname hcell haccepted
  rw [hterminal, if_neg Bool.false_ne_true,
    (hreaches p.hop.arrival g.net rfl rfl hp.recorded g rfl).1] at hfate
  have hcalculate := hreaches p n rfl (hg.text .separator trivial) (hg.records hp.recorded)
  refine process_ensures_of (cellFor_of_get? hname hcell) haccepted hcalculate ?_ ?_
  · rintro failure m ⟨hr, rfl⟩
    cases r with
    | error failure' =>
      obtain rfl := Except.error.inj hr
      rw [hfate]
      exact .failed failure
    | ok results => exact nomatch hr
  · rintro results m ⟨hr, rfl⟩
    cases r with
    | error failure => exact nomatch hr
    | ok vs =>
      obtain rfl := Except.ok.inj hr
      obtain ⟨name', hname', hmapped⟩ := hp.mapped
      obtain rfl := Option.mem_unique hname hname'
      have hmapped := hg.mapped hmapped
      obtain ⟨behaviours, hnext⟩ := Option.isSome_iff_exists.mp (hmapped.here.connected hother)
      rw [hfate]
      refine (passOn_ensures { p with args := vs } hterminal hp.behaviour ?_).imp ?_
      · rintro behaviours' m' hconnected b hb
        cases hconnected with
        | known hknown =>
          obtain ⟨cell', hbinding, -⟩ := hmapped.follow ⟨behaviours', hknown, hb⟩
          rw [hbinding]
          rfl
        | explored hnone => exact absurd (hnone.symm.trans hnext) (by simp)
      · rintro _ _ ⟨behaviours', m₁, hconnected, rfl, rfl⟩
        cases hconnected with
        | known hknown =>
          have hrecorded := hg.records hp.recorded
          exact .passed (fun t ht => hrecorded t (htexts vs rfl t ht)) hknown
        | explored hnone => exact absurd (hnone.symm.trans hnext) (by simp)

variable {config : Config}

/-- On known ground a payload meets the fate of its hop. -/
theorem process_fated (he : assemble { config, cells := some (Cell.standard config) } = .ok e)
    (hg : g.net.SameGround n) (hp : Underway e.registry g.net p) :
    Ensures σ (e.process p) n (Fated n p (e.fate g p.hop)) := by
  obtain ⟨name, hname, hmapped⟩ := hp.mapped
  obtain ⟨cell, hcell⟩ := Option.isSome_iff_exists.mp hmapped.here.registered
  have hs := (orderly_of_standard (σ := σ) he).serves
  by_cases haccepted : cell.signature.accepts p.args = true
  case neg => exact process_of_refused hname hcell haccepted
  by_cases hother : name = Cell.outputName
  · subst hother
    obtain rfl := Option.mem_unique hcell hs.output
    exact process_of_terminal hp hname hcell haccepted
  · have hstandard : cell ∈ Cell.standard config :=
      ((assemble_eq_ok he).2 cell).mp (Registry.mem_of_get? hcell)
    rcases Cell.standard_grounded (σ := σ) hstandard with rfl | ⟨hgrounded, hterminal⟩
    · exact absurd (Registry.name_of_get? hcell).symm hother
    · exact process_of_grounded hg hp hname hcell hgrounded hterminal hother haccepted

end Engine

/-! ## What a fate leaves behind -/

/-- The tree that an event answers. -/
def Event.answered? : Event → Option String
  | .emitted _ tree _ => some tree
  | _ => none

/-- The announcement of the failure of a hop. -/
def Hop.failure (h : Hop) : EngineError → Event
  | .cell (.expectationNotMet tree attempt) => .expectationNotMet tree attempt
  | .cell (.budgetExhausted tree attempts) => .budgetExhausted tree attempts
  | e => .dropped h.destination (h.cell.getD "?") e.message

theorem Hop.answered?_failure (h : Hop) (failure : EngineError) :
    (h.failure failure).answered? = none := by
  unfold Hop.failure
  split <;> rfl

theorem Net.report_error (n : Net) (p : Payload) (failure : EngineError) :
    n.report p (.error failure) = n.announce (p.hop.failure failure) := by
  unfold report Hop.failure
  split <;> first | rfl | simp_all [Payload.hop]

namespace Engine

variable (e : Engine) (g : World σ)

/-- The hops that follow a hop on the ground of a world. -/
def follows (h : Hop) : List Hop :=
  match e.fate g h with
  | .passed results => ((g.net.next h.destination).getD []).map fun b =>
    ⟨b, some ((g.net.text (.binding b)).getD ""), results, [h.destination]⟩
  | _ => []

/-- What is announced of a hop on the ground of a world, apart from a delivery. -/
def notices (h : Hop) : List Event :=
  match e.fate g h with
  | .failed failure => [h.failure failure]
  | .passed _ =>
    if ((g.net.next h.destination).getD []).length = 0 then [.deadEnd h.destination] else []
  | .concluded => []

variable {e g} {n m : Net} {p : Payload} {r : Except EngineError Outcome}

namespace Fated

theorem sameGround {fate : Fate} (h : Fated n p fate r m) : n.SameGround (m.report p r) := by
  refine Net.SameGround.trans ?_ (m.alike_report p r).sameGround
  cases h with
  | failed | answered => exact .refl n
  | passed => exact (n.sameGround_queueAll _ _ _).trans (Net.alike_close _ _ _).sameGround
  | @delivered tree =>
    have hcount := n.sameGround_write (.done tree) (fun h => h)
      (countText (nextCount (n.text (.done tree))))
    exact ⟨hcount.next, hcount.text⟩

/-- What is queued are the hops that follow, of the same tree and on known ground. -/
theorem queued (hg : g.net.SameGround n) (hp : Underway e.registry g.net p)
    (h : Fated n p (e.fate g p.hop) r m) : ∃ qs : List Payload,
    (m.report p r).queue = n.queue ++ qs.map Payload.encode ∧
      qs.map Payload.hop = e.follows g p.hop ∧
      ∀ q ∈ qs, Underway e.registry g.net q ∧ q.context.tree = p.context.tree := by
  have hnothing : (∀ results, e.fate g p.hop ≠ .passed results) → m.queue = n.queue →
      ∃ qs : List Payload, (m.report p r).queue = n.queue ++ qs.map Payload.encode ∧
        qs.map Payload.hop = e.follows g p.hop ∧
        ∀ q ∈ qs, Underway e.registry g.net q ∧ q.context.tree = p.context.tree := by
    intro hfate hqueue
    refine ⟨[], by simp [Net.report_queue, hqueue], ?_, by simp⟩
    unfold follows
    split
    · exact absurd (by assumption) (hfate _)
    · rfl
  generalize hfate : e.fate g p.hop = fate at h hnothing
  cases h with
  | failed | answered | delivered => exact hnothing (by simp) rfl
  | @passed results behaviours hrecorded hnext =>
    obtain ⟨-, -, -, qs, hqueue, hqs, hhops⟩ :=
      n.queueAll_payloads { p with args := results } p.destination behaviours
    have hnext : g.net.next p.destination = some behaviours := hg.next ▸ hnext
    refine ⟨qs, ?_, ?_, fun q hq => ?_⟩
    · rw [Net.report_queue, Net.close_queue, hqueue]
    · unfold follows
      rw [hfate, hhops]
      simp only [show p.hop.destination = p.destination from rfl, hnext, Option.getD_some,
        hg.text (.binding _) trivial]
    · obtain ⟨b, hb, id, rfl⟩ := hqs q hq
      obtain ⟨name, hname, hmapped⟩ := hp.mapped
      obtain ⟨cell, hbinding, hbeyond⟩ := hmapped.follow ⟨behaviours, hnext, hb⟩
      rw [hg.text (.binding b) trivial, hbinding]
      exact ⟨⟨hp.tree, hp.session, hp.unexpecting, rfl, ⟨cell, rfl, hbeyond⟩,
        hg.symm.records hrecorded⟩, rfl⟩

/-- A tree is answered when a result of it is concluded. -/
theorem done {fate : Fate} (h : Fated n p fate r m) (t : String) :
    ((m.report p r).text (.done t)).isSome = true ↔
      (n.text (.done t)).isSome = true ∨ fate = .concluded ∧ p.context.tree = some t := by
  rw [Net.report_text]
  cases h with
  | failed => simp
  | @passed results behaviours =>
    obtain ⟨htext, -⟩ := n.queueAll_payloads { p with args := results } p.destination behaviours
    have hclose := (n.queueAll { p with args := results } p.destination behaviours).neutral_close
      p.destination behaviours
    rw [hclose.counters (.done t) trivial, htext]
    simp
  | answered htree hdone =>
    simp only [htree, Option.some.injEq, true_and, iff_self_or]
    rintro rfl
    exact hdone
  | @delivered tree session output htree hdone =>
    simp only [Net.announce_text, Net.deliver_text, htree, Option.some.injEq, true_and]
    by_cases ht : t = tree
    · subst ht
      simp [Net.count]
    · rw [count_text_of_ne (by simpa using ht)]
      simp [Ne.symm ht]

/-- What is announced, and the tree that is answered if any is. -/
theorem events (hg : g.net.SameGround n) (h : Fated n p (e.fate g p.hop) r m) :
    ∃ es, (m.report p r).events = n.events ++ es ∧
      es.filter (fun event => event.answered?.isNone) = e.notices g p.hop ∧
      (es.filterMap Event.answered?).Nodup ∧ ∀ t, t ∈ es.filterMap Event.answered? ↔
        n.text (.done t) = none ∧ e.fate g p.hop = .concluded ∧ p.context.tree = some t := by
  unfold notices
  generalize e.fate g p.hop = fate at h
  cases h with
  | failed failure =>
    refine ⟨[p.hop.failure failure], ?_, ?_, ?_, ?_⟩
    · rw [Net.report_error]
      rfl
    all_goals simp [p.hop.answered?_failure failure]
  | @passed results behaviours hrecorded hnext =>
    obtain ⟨-, -, hevents, -⟩ :=
      n.queueAll_payloads { p with args := results } p.destination behaviours
    have hnext : g.net.next p.hop.destination = some behaviours := hg.next ▸ hnext
    rw [hnext]
    by_cases hnone : behaviours.length = 0
    · refine ⟨[.deadEnd p.destination], ?_, by simp [hnone, Event.answered?, Payload.hop],
        List.nodup_nil, by simp [Event.answered?]⟩
      rw [← hevents, Net.close, if_pos hnone]
      rfl
    · refine ⟨[], ?_, by simp [hnone], List.nodup_nil, by simp⟩
      rw [← hevents, Net.close, if_neg hnone, List.append_nil]
      rfl
  | answered htree hdone =>
    refine ⟨[], by simp [Net.report], rfl, by simp, fun t => ?_⟩
    simp only [htree, Option.some.injEq, List.filterMap_nil, List.not_mem_nil, true_and, false_iff]
    rintro ⟨hnone, rfl⟩
    rw [hnone] at hdone
    exact absurd hdone (by simp)
  | @delivered tree session output htree hdone =>
    refine ⟨[.emitted session tree output], rfl, rfl, by simp [Event.answered?], fun t => ?_⟩
    simp only [htree, Option.some.injEq, true_and, List.filterMap_cons, List.filterMap_nil,
      Event.answered?, List.mem_singleton]
    constructor
    · rintro rfl
      exact ⟨hdone, rfl⟩
    · rintro ⟨-, rfl⟩
      rfl

/-- A hop that fails is a payload that fails. -/
theorem isOk {fate : Fate} (h : Fated n p fate r m) :
    r.isOk = true ↔ ∀ failure, fate ≠ .failed failure := by
  cases h with
  | failed failure => simp [Except.isOk, Except.toBool]
  | passed | answered | delivered => simp [Except.isOk, Except.toBool]

end Fated

end Engine

end SelfWiring
