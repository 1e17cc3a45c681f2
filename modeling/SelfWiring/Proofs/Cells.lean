import SelfWiring.Cell.Standard
import SelfWiring.Proofs.Graph
import SelfWiring.Proofs.Registry

/-!
# What cells compute

A cell computes when it takes arguments of its kinds to results of its kinds, or objects to them,
and leaves the network as it was. All standard cells but the output cell do so, as long as the store
names no separator and the texts that reach the input cell are on record. What they compute depends
on their arguments alone.
-/

namespace SelfWiring

variable {σ : Type} [Store σ] [FaultFree σ]

namespace Cell

open SelfWiring.Action

/-- An objection to the arguments, or as many results as declared, each of the declared kind. -/
inductive Proper (c : Cell) : Except CellError (List Value) → Prop
  | objection (name : String) (objection : Objection) : Proper c (.error (.domain name objection))
  | results (vs : List Value) (h : vs.map Value.kind = c.signature.outputs) : Proper c (.ok vs)

/-- Arguments as they reach a cell in a network: what enters at the input cell is on record. -/
structure Served (c : Cell) (args : List Value) (n : Net) : Prop where
  accepted : c.signature.accepts args = true
  separator : n.text .separator = none
  recorded : c.name = inputName → ∀ text, args = [.text text] →
    (n.text (.informationId text)).isSome = true

/-- A cell that computes, with nothing left in the network but what `heard` allows. -/
def Computing (σ : Type) [Store σ] [FaultFree σ] (heard : Net → Net → Prop) (c : Cell) : Prop :=
  ∀ ctx args n, c.Served args n →
    Ensures σ (c.call ctx args) n fun r m => heard n m ∧ c.Proper r

/-- Some run of a cell takes the arguments to the results, which are of the declared kinds. -/
structure Yields (σ : Type) [Store σ] [FaultFree σ] (c : Cell) (args results : List Value) :
    Prop where
  run : ∃ (w : World σ) (ctx : Context), w.net.text .separator = none ∧
    (w.run (c.call ctx args).run).1 = .ok results
  kinds : results.map Value.kind = c.signature.outputs

/-- Some run of a cell fails on the arguments. -/
def Objects (σ : Type) [Store σ] [FaultFree σ] (c : Cell) (args : List Value) : Prop :=
  ∃ (w : World σ) (ctx : Context) (failure : CellError), w.net.text .separator = none ∧
    (w.run (c.call ctx args).run).1 = .error failure

/-- Every run of a cell takes the arguments to the results, in whatever context, as long as the
store names no separator. -/
def Computes (σ : Type) [Store σ] [FaultFree σ] (c : Cell) (args results : List Value) : Prop :=
  ∀ (w : World σ) (ctx : Context), w.contents.text Key.separator.render = none →
    (w.run (c.call ctx args).run).1 = .ok results

/-- What a cell comes to depends on its arguments alone. -/
def Steady (σ : Type) [Store σ] [FaultFree σ] (c : Cell) : Prop :=
  ∀ args, ∃ r, ∀ ctx n, n.text .separator = none →
    Ensures σ (c.call ctx args) n fun r' _ => r' = r

theorem Steady.computes {c : Cell} (hc : c.Steady σ) {args results : List Value}
    (h : c.Yields σ args results) : c.Computes σ args results := by
  obtain ⟨r, hr⟩ := hc args
  obtain ⟨w, ctx, hseparator, hrun⟩ := h.run
  have hresults : Except.ok results = r := hrun ▸ hr ctx w.net hseparator w rfl
  intro w' ctx' hseparator'
  rw [hresults]
  exact hr ctx' w'.net (by rw [World.net_text w' .separator trivial, hseparator']) w' rfl

/-- What a cell yields is determined by the arguments. -/
theorem Steady.yields_unique {c : Cell} (hc : c.Steady σ) {args results results' : List Value}
    (h : c.Yields σ args results) (h' : c.Yields σ args results') : results = results' := by
  obtain ⟨r, hr⟩ := hc args
  obtain ⟨w, ctx, hseparator, hrun⟩ := h.run
  obtain ⟨w', ctx', hseparator', hrun'⟩ := h'.run
  have hresults : Except.ok results = r := hrun ▸ hr ctx w.net hseparator w rfl
  have hresults' : Except.ok results' = r := hrun' ▸ hr ctx' w'.net hseparator' w' rfl
  exact Except.ok.inj (hresults.trans hresults'.symm)

/-- A cell that fails on arguments once yields nothing for them ever. -/
theorem Steady.not_yields {c : Cell} (hc : c.Steady σ) {args results : List Value}
    (h : c.Objects σ args) : ¬ c.Yields σ args results := by
  intro hyields
  obtain ⟨r, hr⟩ := hc args
  obtain ⟨w, ctx, failure, hseparator, hrun⟩ := h
  obtain ⟨w', ctx', hseparator', hrun'⟩ := hyields.run
  have hfailure : Except.error failure = r := hrun ▸ hr ctx w.net hseparator w rfl
  have hresults : Except.ok results = r := hrun' ▸ hr ctx' w'.net hseparator' w' rfl
  exact nomatch hfailure.trans hresults.symm

/-! ## Pure cells -/

theorem pure_reaches (name : String) (signature : Signature) (metadata : List (String × String))
    (f : List Value → Except Objection (List Value)) (ctx : Context) (args : List Value) (n : Net) :
    Reaches σ ((Cell.pure name signature metadata f).call ctx args) n
      ((f args).mapError (.domain name)) n := by
  unfold Cell.pure
  dsimp only
  cases f args with
  | ok results => exact reaches_pure results n
  | error objection => exact reaches_throw _ n

theorem pure_steady (name : String) (signature : Signature) (metadata : List (String × String))
    (f : List Value → Except Objection (List Value)) :
    (Cell.pure name signature metadata f).Steady σ := by
  intro args
  refine ⟨(f args).mapError (.domain name), fun ctx n _ => ?_⟩
  exact (pure_reaches name signature metadata f ctx args n).ensures rfl

theorem pure_computing {name : String} {signature : Signature} {metadata : List (String × String)}
    {f : List Value → Except Objection (List Value)}
    (h : ∀ args vs, f args = .ok vs → vs.map Value.kind = signature.outputs) :
    (Cell.pure name signature metadata f).Computing σ fun n m => m = n := by
  intro ctx args n _
  refine (pure_reaches name signature metadata f ctx args n).ensures ⟨rfl, ?_⟩
  cases hf : f args with
  | ok vs => exact .results vs (h args vs hf)
  | error objection => exact .objection name objection

/-! ## Arithmetic -/

theorem bounded_kind {n : Int} {v : Value} (h : bounded n = .ok v) : v.kind = .int := by
  unfold bounded at h
  split at h
  · rw [← Except.ok.inj h]
    rfl
  · exact absurd h (by simp)

theorem divideInts_kind {a b : Int} {v : Value} (h : divideInts a b = .ok v) : v.kind = .int := by
  unfold divideInts at h
  split at h
  · exact absurd h (by simp)
  · exact bounded_kind h

theorem onPair_kind {f : Int → Int → Except Objection Value} {output : Kind}
    (hf : ∀ a b v, f a b = .ok v → v.kind = output) {args vs : List Value}
    (h : onPair f args = .ok vs) : vs.map Value.kind = [output] := by
  unfold onPair at h
  split at h
  · rename_i a b
    cases hab : f a.toInt b.toInt with
    | error objection =>
      rw [hab] at h
      exact absurd h (by simp [Except.map])
    | ok v =>
      rw [hab] at h
      rw [← Except.ok.inj h, List.map_singleton, hf _ _ v hab]
  · exact absurd h (by simp)

theorem binary_computing {name : String} {output : Kind} {fallible : Bool}
    {f : Int → Int → Except Objection Value} (hf : ∀ a b v, f a b = .ok v → v.kind = output) :
    (binary name output fallible f).Computing σ fun n m => m = n :=
  pure_computing fun _ _ h => onPair_kind hf h

theorem arithmetic_computing {c : Cell} (hc : c ∈ arithmetic) :
    c.Computing σ fun n m => m = n := by
  simp only [arithmetic, List.mem_cons, List.not_mem_nil, or_false] at hc
  rcases hc with rfl | rfl | rfl | rfl | rfl | rfl
  · exact binary_computing fun _ _ _ h => bounded_kind h
  · exact binary_computing fun _ _ _ h => bounded_kind h
  · exact binary_computing fun _ _ _ h => bounded_kind h
  · exact binary_computing fun _ _ _ h => divideInts_kind h
  · exact binary_computing fun _ _ _ h => by rw [← Except.ok.inj h]; rfl
  · exact binary_computing fun _ _ _ h => by rw [← Except.ok.inj h]; rfl

theorem arithmetic_steady {c : Cell} (hc : c ∈ arithmetic) : c.Steady σ := by
  simp only [arithmetic, List.mem_cons, List.not_mem_nil, or_false] at hc
  rcases hc with rfl | rfl | rfl | rfl | rfl | rfl <;> exact pure_steady _ _ _ _

/-! ## Cells over texts -/

theorem eq_text_of_accepts {s : Signature} (hs : s.inputs = [.text]) {args : List Value}
    (h : s.accepts args = true) : ∃ text, args = [.text text] := by
  have hcheck := Signature.check_of_accepts h
  unfold Signature.check at hcheck
  rw [hs] at hcheck
  split at hcheck
  · rename_i hlength
    obtain ⟨v, rfl⟩ := List.length_eq_one_iff.mp hlength
    cases v with
    | text t => exact ⟨t, rfl⟩
    | int _ | bool _ => exact absurd hcheck (by simp [Signature.misfit?, Kind.takes, Value.kind])
  · exact absurd hcheck (by simp)

theorem input_reaches {args : List Value} {text : String} (h : textOf inputName args = .ok text)
    (ctx : Context) (n : Net) :
    Reaches σ (input.call ctx args) n (.ok args) (n.record text).2 := by
  refine (reaches_ofExcept h n).andThen ?_
  have hrecord :=
    reaches_adapt (g := CellError.store) (Graph.informationIdFor_reaches (σ := σ) text n)
  exact hrecord.andThen (reaches_pure args _)

theorem input_reaches_error {args : List Value} {e : CellError}
    (h : textOf inputName args = .error e) (ctx : Context) (n : Net) :
    Reaches σ (input.call ctx args) n (.error e) n :=
  (reaches_ofExcept h n).bind_error

theorem input_computing : input.Computing σ fun n m => m = n := by
  intro ctx args n h
  obtain ⟨text, rfl⟩ := eq_text_of_accepts rfl h.accepted
  refine (input_reaches rfl ctx n).ensures ⟨?_, .results _ rfl⟩
  obtain ⟨id, hid⟩ := Option.isSome_iff_exists.mp (h.recorded rfl text rfl)
  unfold Net.record
  rw [hid]

theorem input_steady : input.Steady σ := by
  intro args
  cases h : textOf inputName args with
  | ok text => exact ⟨.ok args, fun ctx n _ => (input_reaches h ctx n).ensures rfl⟩
  | error e => exact ⟨.error e, fun ctx n _ => (input_reaches_error h ctx n).ensures rfl⟩

/-- The separator that a stored one stands for: the default where there is none or an empty one. -/
def separatorFrom (default : String) : Option String → String
  | some s => if s = "" then default else s
  | none => default

theorem storedSeparator_reads (default : String) (n : Net) :
    Reaches σ (storedSeparator default) n (.ok (separatorFrom default (n.text .separator))) n := by
  have hget := reaches_get (σ := σ) .separator trivial n
  cases h : n.text .separator with
  | some s =>
    rw [h] at hget
    exact (reaches_orAbsent_ok hget).andThen (reaches_pure _ n)
  | none =>
    rw [h] at hget
    exact (reaches_orAbsent_notFound hget).andThen (reaches_pure default n)

theorem storedSeparator_reaches (default : String) {n : Net} (h : n.text .separator = none) :
    Reaches σ (storedSeparator default) n (.ok default) n := by
  have hreads := storedSeparator_reads (σ := σ) default n
  rw [h] at hreads
  exact hreads

/-- The features of arguments around a separator. -/
def splitArgs (separator : String) (args : List Value) : Except CellError (List Value) :=
  match textOf splitFeaturesName args with
  | .error e => .error e
  | .ok text => (splitText separator text).mapError (.domain splitFeaturesName)

theorem splitFeatures_reads (default : String) (ctx : Context) (args : List Value) (n : Net) :
    Reaches σ ((splitFeatures default).call ctx args) n
      (splitArgs (separatorFrom default (n.text .separator)) args) n := by
  unfold splitArgs
  cases htext : textOf splitFeaturesName args with
  | error e => exact (reaches_ofExcept htext n).bind_error
  | ok text =>
    refine (reaches_ofExcept htext n).andThen ?_
    have hseparator :=
      reaches_adapt (g := CellError.store) (storedSeparator_reads (σ := σ) default n)
    refine hseparator.andThen ?_
    dsimp only
    cases splitText (separatorFrom default (n.text .separator)) text with
    | ok values => exact reaches_pure values n
    | error objection => exact reaches_throw _ n

theorem splitFeatures_reaches (default : String) (ctx : Context) (args : List Value) {n : Net}
    (h : n.text .separator = none) :
    Reaches σ ((splitFeatures default).call ctx args) n (splitArgs default args) n := by
  have hreads := splitFeatures_reads (σ := σ) default ctx args n
  rw [h] at hreads
  exact hreads

theorem readFeature_kind {feature : List Char} {v : Value} (h : readFeature feature = .ok v) :
    v.kind = .int := by
  unfold readFeature at h
  split at h
  · rw [← Except.ok.inj h]
    rfl
  · exact absurd h (by simp)

theorem splitText_kinds {separator text : String} {vs : List Value}
    (h : splitText separator text = .ok vs) : vs.map Value.kind = [.int, .int] := by
  unfold splitText at h
  split at h
  · obtain ⟨x, hx, h⟩ := Engine.of_bind_eq_ok h
    obtain ⟨y, hy, h⟩ := Engine.of_bind_eq_ok h
    rw [← Except.ok.inj h, List.map_cons, List.map_singleton, readFeature_kind hx,
      readFeature_kind hy]
  · exact absurd h (by simp)

theorem splitFeatures_computing (default : String) :
    (splitFeatures default).Computing σ fun n m => m = n := by
  intro ctx args n h
  obtain ⟨text, rfl⟩ := eq_text_of_accepts rfl h.accepted
  refine (splitFeatures_reaches default ctx _ h.separator).ensures ⟨rfl, ?_⟩
  show Proper _ ((splitText default text).mapError (.domain splitFeaturesName))
  cases hsplit : splitText default text with
  | ok vs => exact .results vs (splitText_kinds hsplit)
  | error objection => exact .objection splitFeaturesName objection

theorem splitFeatures_steady (default : String) : (splitFeatures default).Steady σ := by
  intro args
  exact ⟨_, fun ctx n h => (splitFeatures_reaches default ctx args h).ensures rfl⟩

/-! ## The standard cells -/

theorem eq_output_or_mem_of_mem_standard {config : Config} {c : Cell} (hc : c ∈ standard config) :
    c = output config.maxRetraversals ∨
      c ∈ [input, splitFeatures config.separator] ++ arithmetic := by
  rcases List.mem_append.mp hc with h | h
  · exact Or.inr h
  · exact Or.inl (List.mem_singleton.mp h)

theorem standard_computing {config : Config} {c : Cell}
    (hc : c ∈ [input, splitFeatures config.separator] ++ arithmetic) :
    c.Computing σ fun n m => m = n := by
  rcases List.mem_append.mp hc with h | h
  · rcases List.mem_cons.mp h with rfl | h
    · exact input_computing
    · rw [List.mem_singleton.mp h]
      exact splitFeatures_computing config.separator
  · exact arithmetic_computing h

theorem standard_steady {config : Config} {c : Cell}
    (hc : c ∈ [input, splitFeatures config.separator] ++ arithmetic) : c.Steady σ := by
  rcases List.mem_append.mp hc with h | h
  · rcases List.mem_cons.mp h with rfl | h
    · exact input_steady
    · rw [List.mem_singleton.mp h]
      exact splitFeatures_steady config.separator
  · exact arithmetic_steady h

end Cell

end SelfWiring
