import SelfWiring.Json.Form
import SelfWiring.Proofs.Json.Documents

/-!
# Written records are read back

A payload that was queued is taken from the queue unchanged: whatever texts its arguments and its
context hold, reading its written form gives the payload back, and so it is with submissions and
with values. Hence different payloads have different written forms, and the written form of what was
read from a text is the same for every layout of the text.
-/

namespace SelfWiring

namespace Json

theorem integral_optional (s : Option String) : (optional s).Integral := by
  cases s <;> trivial

theorem asOptional?_optional (s : Option String) : (optional s).asOptional? = some s := by
  cases s <;> rfl

theorem asInt64?_integer (n : Int64) : (integer n.toInt).asInt64? = some n := by
  have hlow := Int64.le_toInt n
  have hhigh := Int64.toInt_lt n
  rw [integer, asInt64?, if_pos ⟨hlow, hhigh⟩, Int64.ofInt_toInt]

theorem asList?_array_map {α : Type} {item : Json → Option α} {write : α → Json}
    (h : ∀ a, item (write a) = some a) (as : List α) :
    asList? item (.array (as.map write)) = some as := by
  show (as.map write).mapM item = some as
  induction as with
  | nil => rfl
  | cons a as ih => simp [h, ih]

theorem integralItems_map {α : Type} {write : α → Json} (h : ∀ a, (write a).Integral)
    (as : List α) : IntegralItems (as.map write) := by
  induction as with
  | nil => trivial
  | cons a as ih => exact ⟨h a, ih⟩

end Json

namespace Value

theorem integral_write (v : Value) : v.write.Integral := by
  cases v <;> simp [write, Json.record, Json.Integral, Json.IntegralMembers, Json.text,
    Json.integer]

theorem ofJson?_write (v : Value) : ofJson? v.write = some v := by
  cases v with
  | int n =>
    show ((Json.integer n.toInt).asInt64?.map int) = _
    rw [Json.asInt64?_integer]
    rfl
  | bool b => rfl
  | text s => rfl

theorem decode?_encode (v : Value) : decode? v.encode = some v := by
  rw [decode?, encode, Json.read?_print v.integral_write, Option.bind_some, ofJson?_write]

end Value

namespace Context

theorem integral_write (c : Context) : c.write.Integral := by
  simp [write, Json.record, Json.Integral, Json.IntegralMembers, Json.text, Json.integer,
    Json.integral_optional]

theorem ofJson?_write (c : Context) : ofJson? c.write = some c := by
  have hfields : Json.fields? fields c.write =
      some [some (.text c.id), some (.optional c.behaviour), some (.optional c.cell),
        some (.optional c.tree), some (.optional c.session), some (.optional c.information),
        some (.optional c.expectation), some (.integer c.pass.toInt)] := rfl
  rw [ofJson?, hfields]
  simp only [part?, pass?, Json.asOptional?_optional, Json.asInt64?_integer]
  rfl

theorem decode?_encode (c : Context) : decode? c.encode = some c := by
  rw [decode?, encode, Json.read?_print c.integral_write, Option.bind_some, ofJson?_write]

end Context

namespace Payload

theorem integral_write (p : Payload) : p.write.Integral := by
  have hargs := Json.integralItems_map Value.integral_write p.args
  have hsources := Json.integralItems_map (fun s : String =>
    show (Json.text s).Integral from trivial) p.sources
  exact ⟨hargs, p.context.integral_write, trivial, hsources, trivial⟩

theorem ofJson?_write (p : Payload) : ofJson? p.write = some p := by
  have hfields : Json.fields? fields p.write =
      some [some (.array (p.args.map Value.write)), some p.context.write,
        some (.text p.destination), some (.array (p.sources.map .text))] := rfl
  have hsources := Json.asList?_array_map (fun s => show Json.asText? (.text s) = some s from rfl)
    p.sources
  rw [ofJson?, hfields]
  simp only [Json.asList?_array_map Value.ofJson?_write, Context.ofJson?_write, hsources]
  rfl

theorem decode?_encode (p : Payload) : decode? p.encode = some p := by
  rw [decode?, encode, Json.read?_print p.integral_write, Option.bind_some, ofJson?_write]

theorem encode_inj {p q : Payload} : p.encode = q.encode ↔ p = q := by
  constructor
  · intro h
    have hdecode := decode?_encode p
    rw [h, decode?_encode] at hdecode
    exact (Option.some.inj hdecode).symm
  · exact congrArg encode

end Payload

namespace Submission

theorem integral_write (s : Submission) : s.write.Integral := by
  obtain ⟨input, echo, session, expectation⟩ := s
  cases expectation <;>
    simp [write, Json.record, Json.Integral, Json.IntegralMembers, Json.text]

theorem ofJson?_write (s : Submission) : ofJson? s.write = some s := by
  obtain ⟨input, echo, session, expectation⟩ := s
  -- an expectation that is absent is not written, and not missed
  cases expectation with
  | none => rfl
  | some e => rfl

theorem decode?_encode (s : Submission) : decode? s.encode = some s := by
  rw [decode?, encode, Json.read?_print s.integral_write, Option.bind_some, ofJson?_write]

end Submission

/-- What is written is read back as it was. What was read from any text has a written form from
which it is read again, and reading and writing leave that form as it is. -/
structure RoundTrips {α : Type} (encode : α → String) (decode? : String → Option α) : Prop where
  decode_encode : ∀ a, decode? (encode a) = some a
  decode_canonical : ∀ text a, decode? text = some a → decode? (encode a) = some a
  encode_canonical : ∀ text a, decode? text = some a →
    (decode? (encode a)).map encode = some (encode a)

theorem RoundTrips.of_decode_encode {α : Type} {encode : α → String} {decode? : String → Option α}
    (h : ∀ a, decode? (encode a) = some a) : RoundTrips encode decode? where
  decode_encode := h
  decode_canonical _ a _ := h a
  encode_canonical _ a _ := by rw [h a, Option.map_some]

/-- Payloads, submissions and values survive being written and read, whatever they hold. -/
theorem written_forms_round_trip : RoundTrips Payload.encode Payload.decode? ∧
    RoundTrips Submission.encode Submission.decode? ∧ RoundTrips Value.encode Value.decode? :=
  ⟨.of_decode_encode Payload.decode?_encode, .of_decode_encode Submission.decode?_encode,
    .of_decode_encode Value.decode?_encode⟩

end SelfWiring
