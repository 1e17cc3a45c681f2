import SelfWiring.Proofs.Json.Content
import SelfWiring.Proofs.Json.Layout
import SelfWiring.Proofs.Json.Records

/-!
# Decoding depends on content

Values, contexts, payloads and submissions are records: a context may leave out everything but its
identity, and null is the same; a submission knows its session by two names; a payload has a context
and values inside, whose content counts in turn. All but a value may be given as the array of their
fields.

So what a text is decoded to is the same for all texts with the same content, whatever their layout.
-/

namespace SelfWiring

namespace Json

/-! ## Values of fields -/

variable {α : Type} {s : Slot} {v w : Option Json}

/-- A field that must be there. -/
theorem Slot.Same.bind_eq {read : Json → Option α} (hoptional : s.optional = false)
    (hread : ∀ j j', s.same j j' → read j = read j') (h : s.Same v w) :
    v.bind read = w.bind read := by
  cases h with
  | refl => rfl
  | inside h => exact hread _ _ h
  | null h => exact absurd (hoptional.symm.trans h) Bool.false_ne_true

/-- A record with no records inside. -/
def Record.Flat (r : Record) : Prop := ∀ s ∈ r.slots, s.same = Eq ∧ ∀ j, ¬ s.repeats j

namespace Record.Flat

variable {r : Record} (hr : r.Flat)

include hr

theorem eq_of_same (hs : s ∈ r.slots) (hoptional : s.optional = false) (h : s.Same v w) :
    v = w := by
  cases h with
  | refl => rfl
  | inside h =>
    rw [(hr s hs).1] at h
    rw [h]
  | null h => exact absurd (hoptional.symm.trans h) Bool.false_ne_true

/-- Whether null is given or nothing makes no difference to a part. -/
theorem part?_eq_of_same (hs : s ∈ r.slots) (h : s.Same v w) :
    Context.part? v = Context.part? w := by
  cases h with
  | refl => rfl
  | inside h =>
    rw [(hr s hs).1] at h
    rw [h]
  | null => rfl

end Record.Flat

theorem asList?_eq_of_eachSame {read : Json → Option α} {same : Json → Json → Prop}
    (hread : ∀ j j', same j j' → read j = read j') {j j' : Json} (h : EachSame same j j') :
    j.asList? read = j'.asList? read := by
  obtain ⟨hitems⟩ := h
  show List.mapM read _ = List.mapM read _
  induction hitems with
  | nil => rfl
  | cons hhead _ ih => rw [List.mapM_cons, List.mapM_cons, hread _ _ hhead, ih]

theorem asList?_eq_none_of_someRepeats {read : Json → Option α} {repeats : Json → Prop}
    (hread : ∀ j, repeats j → read j = none) {j : Json} (h : SomeRepeats repeats j) :
    j.asList? read = none := by
  cases h with
  | @item js k hmem hrepeats =>
    show List.mapM read js = none
    induction js with
    | nil => exact absurd hmem List.not_mem_nil
    | cons i js ih =>
      rw [List.mapM_cons]
      rcases List.mem_cons.mp hmem with rfl | hmem
      · rw [hread _ hrepeats]
        rfl
      · rw [ih hmem]
        cases read i <;> rfl

end Json

/-! ## Values -/

namespace Value

def record : Json.Record where
  slots := [{ field := ⟨["kind"], false⟩ }, { field := ⟨["value"], false⟩ }]
  listed := false
  named := by decide
  apart := by decide

def ofFields? : List (Option Json) → Option Value
  | [some kind, some content] => kind.asName?.bind (ofParts? · content)
  | _ => none

theorem flat_record : record.Flat := by
  simp [Json.Record.Flat, record]

theorem reads : Json.Reads record ofJson? ofFields? where
  object ms := by
    show _ = (Json.fields? [⟨["kind"], false⟩, ⟨["value"], false⟩] (.object ms)).bind ofFields?
    unfold ofJson?
    cases Json.fields? [⟨["kind"], false⟩, ⟨["value"], false⟩] (.object ms) with
    | none => rfl
    | some vs =>
      rw [Option.bind_some]
      unfold ofFields?
      split <;> simp_all
  array h := nomatch h
  respects v w h := by
    have hneeded : ∀ s ∈ record.slots, s.optional = false := by decide
    apply congrArg ofFields?
    exact List.map_congr_left fun s hs => flat_record.eq_of_same hs (hneeded s hs) (h s hs)
  rejects _ s hs j _ hrepeats := absurd hrepeats ((flat_record s hs).2 j)

end Value

/-! ## Contexts -/

namespace Context

def record : Json.Record where
  slots := fields.map fun f => { field := f, optional := !(f.names.any ["id", "pass"].contains) }
  listed := true
  named := by decide
  apart := by decide

def ofFields? : List (Option Json) → Option Context
  | [id, behaviour, cell, tree, session, information, expectation, pass] => do
    let id ← id.bind Json.asText?
    let behaviour ← part? behaviour
    let cell ← part? cell
    let tree ← part? tree
    let session ← part? session
    let information ← part? information
    let expectation ← part? expectation
    let pass ← pass? pass
    return { id, behaviour, cell, tree, session, information, expectation, pass }
  | _ => none

theorem flat_record : record.Flat := by
  simp [Json.Record.Flat, record]

theorem ofJson?_eq (j : Json) : ofJson? j = (Json.fields? fields j).bind ofFields? := by
  unfold ofJson?
  cases Json.fields? fields j with
  | none => rfl
  | some vs =>
    rw [Option.bind_some]
    unfold ofFields?
    split
    · rename_i heq
      obtain rfl := Option.some.inj heq
      rfl
    · rename_i hother
      split
      · rename_i id _ _ _ _ _ _ _
        cases id with
        | none => rfl
        | some id => exact absurd rfl (hother _ _ _ _ _ _ _ _)
      · rfl

theorem reads : Json.Reads record ofJson? ofFields? where
  object ms := ofJson?_eq _
  array _ js := ofJson?_eq _
  respects v w h := by
    have hneeded : ∀ s ∈ record.slots, s.optional = false → v s = w s := fun s hs hoptional =>
      flat_record.eq_of_same hs hoptional (h s hs)
    have hpart : ∀ s ∈ record.slots, part? (v s) = part? (w s) := fun s hs =>
      flat_record.part?_eq_of_same hs (h s hs)
    simp only [record, fields, List.map_cons, List.map_nil, List.forall_mem_cons] at hneeded hpart ⊢
    obtain ⟨hid, -, -, -, -, -, -, hpass, -⟩ := hneeded
    obtain ⟨-, hbehaviour, hcell, htree, hsession, hinformation, hexpectation, -⟩ := hpart
    simp only [ofFields?, hid (by decide), hbehaviour, hcell, htree, hsession, hinformation,
      hexpectation, hpass (by decide)]
  rejects _ s hs j _ hrepeats := absurd hrepeats ((flat_record s hs).2 j)

end Context

/-! ## Submissions -/

namespace Submission

def record : Json.Record where
  slots := fields.map fun f => { field := f, optional := f.names.contains "expectation" }
  listed := true
  named := by decide
  apart := by decide

def ofFields? : List (Option Json) → Option Submission
  | [input, echo, session, expectation] => do
    let input ← input.bind Json.asText?
    let echo ← echo? echo
    let session ← session.bind Json.asText?
    let expectation ← Context.part? expectation
    return { input, echo, session, expectation }
  | _ => none

theorem flat_record : record.Flat := by
  simp [Json.Record.Flat, record]

theorem ofJson?_eq (j : Json) : ofJson? j = (Json.fields? fields j).bind ofFields? := by
  unfold ofJson?
  cases Json.fields? fields j with
  | none => rfl
  | some vs =>
    rw [Option.bind_some]
    unfold ofFields?
    split
    · rename_i heq
      obtain rfl := Option.some.inj heq
      rfl
    · rename_i hother
      split
      · rename_i input echo session _
        rcases input with _ | input
        · rfl
        rcases session with _ | session
        · simp
        exact absurd rfl (hother _ _ _ _)
      · rfl

theorem reads : Json.Reads record ofJson? ofFields? where
  object ms := ofJson?_eq _
  array _ js := ofJson?_eq _
  respects v w h := by
    have hneeded : ∀ s ∈ record.slots, s.optional = false → v s = w s := fun s hs hoptional =>
      flat_record.eq_of_same hs hoptional (h s hs)
    have hpart : ∀ s ∈ record.slots, Context.part? (v s) = Context.part? (w s) := fun s hs =>
      flat_record.part?_eq_of_same hs (h s hs)
    simp only [record, fields, List.map_cons, List.map_nil, List.forall_mem_cons] at hneeded hpart ⊢
    obtain ⟨hinput, hecho, hsession, -, -⟩ := hneeded
    obtain ⟨-, -, -, hexpectation, -⟩ := hpart
    simp only [ofFields?, hinput (by decide), hecho (by decide), hsession (by decide),
      hexpectation]
  rejects _ s hs j _ hrepeats := absurd hrepeats ((flat_record s hs).2 j)

end Submission

/-! ## Payloads -/

namespace Payload

def record : Json.Record where
  slots :=
    [{ field := ⟨["args"], false⟩
       same := Json.EachSame Value.record.SameContent
       repeats := Json.SomeRepeats Value.record.Repeats },
     { field := ⟨["context"], false⟩
       same := Context.record.SameContent
       repeats := Context.record.Repeats },
     { field := ⟨["destination"], false⟩ },
     { field := ⟨["sources"], false⟩ }]
  listed := true
  named := by decide
  apart := by decide

def ofFields? : List (Option Json) → Option Payload
  | [args, context, destination, sources] => do
    let args ← args.bind (Json.asList? Value.ofJson?)
    let context ← context.bind Context.ofJson?
    let destination ← destination.bind Json.asText?
    let sources ← sources.bind (Json.asList? Json.asText?)
    return { args, context, destination, sources }
  | _ => none

theorem ofJson?_eq (j : Json) : ofJson? j = (Json.fields? fields j).bind ofFields? := by
  unfold ofJson?
  cases Json.fields? fields j with
  | none => rfl
  | some vs =>
    rw [Option.bind_some]
    unfold ofFields?
    split
    · rename_i heq
      obtain rfl := Option.some.inj heq
      rfl
    · rename_i hother
      split
      · rename_i args context destination sources
        rcases args with _ | args
        · rfl
        rcases context with _ | context
        · simp
        rcases destination with _ | destination
        · simp
        rcases sources with _ | sources
        · simp
        exact absurd rfl (hother _ _ _ _)
      · rfl

theorem reads : Json.Reads record ofJson? ofFields? where
  object ms := ofJson?_eq _
  array _ js := ofJson?_eq _
  respects v w h := by
    simp only [record, List.map_cons, List.map_nil, List.forall_mem_cons] at h ⊢
    obtain ⟨hargs, hcontext, hdestination, hsources, -⟩ := h
    have hitems : ∀ j j', Json.EachSame Value.record.SameContent j j' →
        j.asList? Value.ofJson? = j'.asList? Value.ofJson? := fun _ _ =>
      Json.asList?_eq_of_eachSame fun _ _ h => Value.reads.eq_of_sameContent h
    have hvalues := hargs.bind_eq rfl hitems
    have hparts := hcontext.bind_eq rfl fun _ _ h => Context.reads.eq_of_sameContent h
    have hname := hdestination.bind_eq rfl fun _ _ => congrArg Json.asText?
    have hnames := hsources.bind_eq rfl fun _ _ => congrArg (Json.asList? Json.asText?)
    simp only [ofFields?, hvalues, hparts, hname, hnames]
  rejects v s hs j hv hrepeats := by
    simp only [record, List.mem_cons, List.not_mem_nil, or_false] at hs
    rcases hs with rfl | rfl | rfl | rfl
    · have hargs := Json.asList?_eq_none_of_someRepeats
        (fun _ => Value.reads.eq_none_of_repeats) hrepeats
      simp [record, ofFields?, hv, hargs]
    · have hcontext := Context.reads.eq_none_of_repeats hrepeats
      simp [record, ofFields?, hv, hcontext]
    · exact hrepeats.elim
    · exact hrepeats.elim

end Payload

/-! ## Texts -/

/-- What a text is decoded to depends on the content of the document that is written there. -/
structure ContentDecides {α : Type} (r : Json.Record) (decode? : String → Option α) : Prop where
  decodes : ∀ a, ∃ text, decode? text = some a
  written : ∀ text a, decode? text = some a → ∃ j : Json, j.Written text
  same : ∀ (j j' : Json) (text text' : String), j.Written text → j'.Written text' →
    r.SameContent j j' → decode? text = decode? text'
  repeated : ∀ (j : Json) (text : String), j.Written text → r.Repeats j → decode? text = none
  /-- A name that is a half of a surrogate pair is none. -/
  unnamed : ∀ (ms : List Json.Member) (j : Json) (text : String), (Json.object ms).Written text →
    (none, j) ∈ ms → decode? text = none

theorem Json.Reads.contentDecides {α : Type} {r : Json.Record} {ofJson? : Json → Option α}
    {ofFields? : List (Option Json) → Option α} (h : Json.Reads r ofJson? ofFields?)
    {decode? : String → Option α} (hdecode : ∀ text, decode? text = (Json.read? text).bind ofJson?)
    {encode : α → String} (hencode : ∀ a, decode? (encode a) = some a) :
    ContentDecides r decode? := by
  have hwritten : ∀ {j : Json} {text : String}, j.Written text → decode? text = ofJson? j := by
    intro j text hj
    rw [hdecode, Json.read?_eq_some_iff.mpr hj, Option.bind_some]
  constructor
  case decodes => exact fun a => ⟨encode a, hencode a⟩
  case written =>
    intro text a ha
    rw [hdecode] at ha
    obtain ⟨j, hj, -⟩ := Option.bind_eq_some_iff.mp ha
    exact ⟨j, Json.read?_eq_some_iff.mp hj⟩
  case same =>
    intro j j' text text' hj hj' hsame
    rw [hwritten hj, hwritten hj', h.eq_of_sameContent hsame]
  case repeated =>
    intro j text hj hrepeats
    rw [hwritten hj, h.eq_none_of_repeats hrepeats]
  case unnamed =>
    intro ms j text hms hmem
    rw [hwritten hms, h.eq_none_of_unnamed hmem]

/-- Values, contexts, payloads and submissions are decoded to what a text says, whichever way it is
said. -/
theorem decoding_depends_on_content : ContentDecides Value.record Value.decode? ∧
    ContentDecides Context.record Context.decode? ∧
    ContentDecides Payload.record Payload.decode? ∧
    ContentDecides Submission.record Submission.decode? :=
  ⟨Value.reads.contentDecides (fun _ => rfl) Value.decode?_encode,
    Context.reads.contentDecides (fun _ => rfl) Context.decode?_encode,
    Payload.reads.contentDecides (fun _ => rfl) Payload.decode?_encode,
    Submission.reads.contentDecides (fun _ => rfl) Submission.decode?_encode⟩

/-- Another order and layout, an unknown member, a null, escapes, and the other name of the session
do not matter. -/
theorem decoding_depends_on_content_of_submission : ∃ j j' : Json,
    j.Written "\x7b\"session_id\":\"s\",\"input\":\"hi\"\x7d" ∧
    j'.Written
      "\x7b\"x\":1, \"\\u0069nput\":\"h\\u0069\",\"expectation\":null,\"sessionID\":\"s\"\x7d" ∧
    Submission.record.SameContent j j' ∧
    Submission.decode?
      "\x7b\"x\":1, \"\\u0069nput\":\"h\\u0069\",\"expectation\":null,\"sessionID\":\"s\"\x7d" =
        some { input := "hi", session := "s" } := by
  let input : Json.Member := (some "input", .text "hi")
  let unknown : Json.Member := (some "x", .integer 1)
  let expectation : Json.Member := (some "expectation", .null)
  have hwritten : (Json.object [(some "session_id", .text "s"), input]).Written
      "\x7b\"session_id\":\"s\",\"input\":\"hi\"\x7d" := Json.read?_eq_some_iff.mp rfl
  have hwritten' :
      (Json.object [unknown, input, expectation, (some "sessionID", .text "s")]).Written
      "\x7b\"x\":1, \"\\u0069nput\":\"h\\u0069\",\"expectation\":null,\"sessionID\":\"s\"\x7d" :=
    Json.read?_eq_some_iff.mp rfl
  have hrename : Submission.record.SameContent (.object [(some "session_id", .text "s"), input])
      (.object [(some "sessionID", .text "s"), input]) := by
    refine .rename (s := { field := ⟨["session_id", "sessionID"], false⟩ }) ?_ ?_ ?_
    all_goals simp [Submission.record, Submission.fields]
  have hnull : Submission.record.SameContent
      (.object [expectation, (some "sessionID", .text "s"), input])
      (.object [(some "sessionID", .text "s"), input]) := by
    refine .null (s := { field := ⟨["expectation"], true⟩, optional := true }) ?_ ?_ rfl ?_
    all_goals simp [Submission.record, Submission.fields, input]
  have horder : [expectation, (some "sessionID", .text "s"), input].Perm
      [input, expectation, (some "sessionID", .text "s")] := by
    show ([expectation, (some "sessionID", .text "s")] ++ [input]).Perm ([input] ++ _)
    exact List.perm_append_comm
  have hunknown : Submission.record.SameContent
      (.object [unknown, input, expectation, (some "sessionID", .text "s")])
      (.object [input, expectation, (some "sessionID", .text "s")]) := by
    refine .unknown ?_
    simp [Submission.record, Submission.fields]
  have hsame := hrename.trans (hnull.symm.trans ((Json.Record.SameContent.permute horder).trans
    hunknown.symm))
  refine ⟨_, _, hwritten, hwritten', hsame, ?_⟩
  rw [← decoding_depends_on_content.2.2.2.same _ _ _ _ hwritten hwritten' hsame]
  rfl

/-- A member whose name is a half of a surrogate pair belongs to no field, and still it keeps the
object from being decoded. So does a null beside another member of its field, and a null for a field
that has a default and is not optional. -/
theorem members_that_prevent_decoding :
    Value.decode? "\x7b\"kind\":\"int\",\"value\":3\x7d" = some (.int 3) ∧
      Value.decode? "\x7b\"kind\":\"int\",\"value\":3,\"\\ud800\":null\x7d" = none ∧
      Context.decode? "\x7b\"id\":\"c\",\"tree_id\":\"t\"\x7d" =
        some { id := "c", tree := some "t" } ∧
      Context.decode? "\x7b\"id\":\"c\",\"tree_id\":null,\"tree_id\":\"t\"\x7d" = none ∧
      Context.decode? "\x7b\"id\":\"c\",\"tree_id\":\"t\",\"pass\":null\x7d" = none := by
  decide

end SelfWiring
