import SelfWiring.Proofs.Evolution
import SelfWiring.Proofs.Flaky

/-!
# References

Whatever is stored or queued refers to what is there: the behaviours in a set and the entry
behaviours are bound, what leads to a record leads to the text it was made for, a tree enters at an
entry cell, and a payload is on its way to a behaviour that is bound, for a tree that has begun.
`Referential` says so, `Holding.Admits` says which texts may be written, and every call that an
engine makes keeps references whole by itself. Nothing is said about several calls together, so it
makes no difference which of them fail.
-/

namespace SelfWiring

namespace Holding

/-- The text under a key. -/
def text (s : Holding) (k : Key) : Option String := s.contents.text k.render

/-- The behaviours that follow a behaviour. -/
def next (s : Holding) (b : String) : Option (List String) :=
  s.contents.set (Key.connections b).render

def queue (s : Holding) : List String := s.contents.list Key.eventQueue.render

def write (s : Holding) (k : Key) (value : String) : Holding :=
  { s with contents := s.contents.putText k.render value }

def mint (s : Holding) : Holding := { s with minted := s.minted + 1 }

/-- A behaviour runs a cell that is registered and takes no submissions. -/
def Linked (r : Registry) (s : Holding) (b : String) : Prop :=
  ∃ c cell, s.text (.binding b) = some c ∧ r.get? c = some cell ∧ cell.entry = false

/-- A payload is on its way to the behaviour of its context, whose cell it names, for a tree that
has a first behaviour. -/
structure Addressed (s : Holding) (p : Payload) : Prop where
  behaviour : p.context.behaviour = some p.destination
  cell : ∃ c, p.context.cell = some c ∧ s.text (.binding p.destination) = some c
  tree : ∃ tree, p.context.tree = some tree ∧ (s.text (.firstBehaviour tree)).isSome = true

/-- What is referred to stays. -/
structure Retains (s t : Holding) : Prop where
  binding : ∀ b c, s.text (.binding b) = some c → t.text (.binding b) = some c
  information : ∀ i x, s.text (.information i) = some x → t.text (.information i) = some x
  anchored : ∀ tree, (s.text (.firstBehaviour tree)).isSome = true →
    (t.text (.firstBehaviour tree)).isSome = true
  minted : s.minted ≤ t.minted

/-- An identifier that was minted, and about which nothing is stored. -/
structure Fresh (s : Holding) (id : String) : Prop where
  minted : ∃ j < s.minted, id = Identifier.render j
  binding : s.text (.binding id) = none
  information : s.text (.information id) = none

/-- A key may be written with a value: nothing refers to it yet, or the value refers to what is
there. -/
inductive Admits (s : Holding) : Key → String → Prop
  | binding {b : String} (hfresh : s.Fresh b) (c : String) : Admits s (.binding b) c
  | information {i : String} (hfresh : s.Fresh i) (t : String) : Admits s (.information i) t
  | informationId {i t : String} (hcolon : ':' ∉ i.toList)
    (hrecord : s.text (.information i) = some t) : Admits s (.informationId t) i
  | entry {i c b : String} (hcolon : ':' ∉ i.toList)
    (hentry : c = Cell.inputName ∨ c = Cell.outputName) (hbinding : s.text (.binding b) = some c) :
    Admits s (.entry i c) b
  | firstBehaviour {c b : String} (tree : String) (hbinding : s.text (.binding b) = some c)
    (hentry : c = Cell.inputName ∨ c = Cell.outputName) : Admits s (.firstBehaviour tree) b
  | count {k : Key} (hcounter : ¬ k.Lasting) (value : String) : Admits s k value

end Holding

open Holding

/-- Whatever refers to something refers to what is there. Nothing is stored yet about identifiers
that are still to be minted, and no identifier of a record holds a colon, so that the keys of a
record are told apart from all others. -/
structure Referential (r : Registry) (s : Holding) : Prop where
  unused : ∀ j, s.minted ≤ j → s.text (.binding (Identifier.render j)) = none ∧
    s.text (.information (Identifier.render j)) = none
  linked : ∀ b behaviours, s.next b = some behaviours → ∀ b' ∈ behaviours, s.Linked r b'
  recorded : ∀ t i, s.text (.informationId t) = some i →
    ':' ∉ i.toList ∧ s.text (.information i) = some t
  entered : ∀ i c b, s.text (.entry i c) = some b → s.text (.binding b) = some c
  anchored : ∀ tree b, s.text (.firstBehaviour tree) = some b →
    ∃ c, s.text (.binding b) = some c ∧ (c = Cell.inputName ∨ c = Cell.outputName)
  queued : ∀ item ∈ s.queue, ∃ p, item = p.encode ∧ s.Addressed p

/-! ## Writes -/

namespace Holding

variable {r : Registry} {s t u : Holding}

theorem Retains.refl (s : Holding) : s.Retains s :=
  ⟨fun _ _ h => h, fun _ _ h => h, fun _ h => h, Nat.le_refl _⟩

theorem Retains.trans (h : s.Retains t) (h' : t.Retains u) : s.Retains u where
  binding b c hb := h'.binding b c (h.binding b c hb)
  information i x hi := h'.information i x (h.information i x hi)
  anchored tree htree := h'.anchored tree (h.anchored tree htree)
  minted := Nat.le_trans h.minted h'.minted

theorem Linked.mono (h : s.Retains t) {b : String} (hb : s.Linked r b) : t.Linked r b := by
  obtain ⟨c, cell, hbinding, hcell⟩ := hb
  exact ⟨c, cell, h.binding b c hbinding, hcell⟩

theorem Addressed.mono (h : s.Retains t) {p : Payload} (hp : s.Addressed p) : t.Addressed p where
  behaviour := hp.behaviour
  cell := by
    obtain ⟨c, hc, hbinding⟩ := hp.cell
    exact ⟨c, hc, h.binding _ c hbinding⟩
  tree := by
    obtain ⟨tree, htree, hfirst⟩ := hp.tree
    exact ⟨tree, htree, h.anchored tree hfirst⟩

theorem write_text {k : Key} (hk : k.Kept) (value : String) :
    (s.write k value).text = Function.update s.text k (some value) := by
  funext k'
  have hkey : k'.render = k.render ↔ k' = k := by
    rw [eq_comm, Key.render_eq_iff_of_kept hk, eq_comm]
  simp only [text, write, Contents.putText, Function.update_apply, hkey]

theorem Fresh.colon_not_mem {id : String} (h : s.Fresh id) : ':' ∉ id.toList := by
  obtain ⟨j, _, rfl⟩ := h.minted
  exact Identifier.colon_not_mem_render j

theorem Admits.kept {k : Key} {value : String} (h : s.Admits k value) : k.Kept := by
  cases h with
  | binding | informationId | firstBehaviour => exact trivial
  | information hfresh => exact hfresh.colon_not_mem
  | entry hcolon hentry => exact ⟨hcolon, hentry⟩
  | count hcounter =>
    cases k
    case information | entry => exact absurd trivial hcounter
    all_goals exact trivial

theorem write_text_of_ne {k k' : Key} {value : String} (h : s.Admits k value) (hne : k' ≠ k) :
    (s.write k value).text k' = s.text k' := by
  rw [write_text h.kept, Function.update_of_ne hne]

/-- Identifiers that are written about were minted. -/
theorem Admits.minted {k : Key} {value : String} (h : s.Admits k value) {j : Nat}
    (hk : k = .binding (Identifier.render j) ∨ k = .information (Identifier.render j)) :
    j < s.minted := by
  cases h with
  | binding hfresh | information hfresh =>
    obtain ⟨j', hminted, rfl⟩ := hfresh.minted
    obtain rfl : j' = j := by simpa [Identifier.render_inj] using hk
    exact hminted
  | informationId | entry | firstBehaviour => simp at hk
  | count hcounter => rcases hk with rfl | rfl <;> exact absurd trivial hcounter

theorem Admits.retains {k : Key} {value : String} (h : s.Admits k value) :
    s.Retains (s.write k value) where
  binding b c hb := by
    refine (write_text_of_ne h ?_).trans hb
    rintro rfl
    cases h with
    | binding hfresh => exact absurd (hfresh.binding.symm.trans hb) (by simp)
    | count hcounter => exact hcounter trivial
  information i x hi := by
    refine (write_text_of_ne h ?_).trans hi
    rintro rfl
    cases h with
    | information hfresh => exact absurd (hfresh.information.symm.trans hi) (by simp)
    | count hcounter => exact hcounter trivial
  anchored tree htree := by
    by_cases hk : Key.firstBehaviour tree = k
    · rw [write_text h.kept, hk, Function.update_self]
      rfl
    · rw [write_text_of_ne h hk]
      exact htree
  minted := Nat.le_refl _

theorem Admits.write_self {k : Key} {value : String} (h : s.Admits k value) :
    (s.write k value).text k = some value := by
  rw [write_text h.kept, Function.update_self]

theorem Fresh.write {id : String} (h : s.Fresh id) {k : Key} {value : String}
    (hk : s.Admits k value) (hbinding : k ≠ .binding id) (hinformation : k ≠ .information id) :
    (s.write k value).Fresh id where
  minted := h.minted
  binding := (write_text_of_ne hk hbinding.symm).trans h.binding
  information := (write_text_of_ne hk hinformation.symm).trans h.information

end Holding

/-- References are whole, and what was referred to stayed. -/
def Intact (r : Registry) (s t : Holding) : Prop := Referential r t ∧ s.Retains t

instance (r : Registry) : IsTrans Holding (Intact r) := ⟨fun _ _ _ h h' => ⟨h'.1, h.2.trans h'.2⟩⟩

theorem Referential.intact {r : Registry} {s : Holding} (h : Referential r s) : Intact r s s :=
  ⟨h, .refl s⟩

namespace Referential

variable {r : Registry} {s t : Holding}

/-- What is written refers to what is there, and what refers to it still finds it. -/
theorem write (h : Referential r s) {k : Key} {value : String} (hk : s.Admits k value) :
    Referential r (s.write k value) where
  unused j hj := by
    obtain ⟨hbinding, hinformation⟩ := h.unused j hj
    have hminted : ∀ k', k' = .binding (Identifier.render j) ∨
        k' = .information (Identifier.render j) → k' ≠ k := by
      rintro k' hk' rfl
      exact Nat.not_lt.mpr hj (hk.minted hk')
    exact ⟨(write_text_of_ne hk (hminted _ (Or.inl rfl))).trans hbinding,
      (write_text_of_ne hk (hminted _ (Or.inr rfl))).trans hinformation⟩
  linked b behaviours hb b' hb' := (h.linked b behaviours hb b' hb').mono hk.retains
  recorded t i hi := by
    have hretains := hk.retains
    by_cases hkey : Key.informationId t = k
    · subst hkey
      rw [hk.write_self] at hi
      obtain rfl := Option.some.inj hi
      cases hk with
      | informationId hcolon hrecord => exact ⟨hcolon, hretains.information _ _ hrecord⟩
      | count hcounter => exact absurd trivial hcounter
    · rw [write_text_of_ne hk hkey] at hi
      obtain ⟨hcolon, hrecord⟩ := h.recorded t i hi
      exact ⟨hcolon, hretains.information _ _ hrecord⟩
  entered i c b hb := by
    have hretains := hk.retains
    by_cases hkey : Key.entry i c = k
    · subst hkey
      rw [hk.write_self] at hb
      obtain rfl := Option.some.inj hb
      cases hk with
      | entry _ _ hbinding => exact hretains.binding _ _ hbinding
      | count hcounter => exact absurd trivial hcounter
    · rw [write_text_of_ne hk hkey] at hb
      exact hretains.binding _ _ (h.entered i c b hb)
  anchored tree b hb := by
    have hretains := hk.retains
    by_cases hkey : Key.firstBehaviour tree = k
    · subst hkey
      rw [hk.write_self] at hb
      obtain rfl := Option.some.inj hb
      cases hk with
      | firstBehaviour _ hbinding hentry => exact ⟨_, hretains.binding _ _ hbinding, hentry⟩
      | count hcounter => exact absurd trivial hcounter
    · rw [write_text_of_ne hk hkey] at hb
      obtain ⟨c, hbinding, hentry⟩ := h.anchored tree b hb
      exact ⟨c, hretains.binding _ _ hbinding, hentry⟩
  queued item hitem := by
    obtain ⟨p, rfl, hp⟩ := h.queued item hitem
    exact ⟨p, rfl, hp.mono hk.retains⟩

/-- Nothing else that is done writes a text. -/
theorem of_text (h : Referential r s) (htext : t.text = s.text) (hminted : s.minted ≤ t.minted)
    (hnext : ∀ b behaviours, t.next b = some behaviours → ∀ b' ∈ behaviours, s.Linked r b')
    (hqueue : ∀ item ∈ t.queue, ∃ p, item = p.encode ∧ s.Addressed p) :
    Intact r s t := by
  have hretains : s.Retains t := by
    refine ⟨?_, ?_, ?_, hminted⟩ <;> rw [htext]
    · exact fun _ _ hb => hb
    · exact fun _ _ hi => hi
    · exact fun _ htree => htree
  refine ⟨⟨fun j hj => ?_, fun b behaviours hb b' hb' => ?_, ?_, ?_, ?_, fun item hitem => ?_⟩,
    hretains⟩
  · rw [htext]
    exact h.unused j (Nat.le_trans hminted hj)
  · exact (hnext b behaviours hb b' hb').mono hretains
  · rw [htext]
    exact h.recorded
  · rw [htext]
    exact h.entered
  · rw [htext]
    exact h.anchored
  · obtain ⟨p, rfl, hp⟩ := hqueue item hitem
    exact ⟨p, rfl, hp.mono hretains⟩

/-- What is taken out of the queue is not missed. -/
theorem take (h : Referential r s) {before after : List String} {item : String}
    (hqueue : s.queue = before ++ item :: after) :
    Intact r s
      { s with contents := s.contents.putList Key.eventQueue.render (before ++ after) } := by
  refine h.of_text rfl (Nat.le_refl _) h.linked fun i hi => h.queued i ?_
  have hmem : i ∈ before ++ after := by
    simpa [Holding.queue, Contents.putList] using hi
  rw [hqueue]
  rcases List.mem_append.mp hmem with hmem | hmem
  · exact List.mem_append_left _ hmem
  · exact List.mem_append_right _ (List.mem_cons_of_mem _ hmem)

end Referential

/-! ## Effects -/

theorem Program.endures_mint {r : Registry} {s : Holding} (h : Referential r s) :
    Program.Endures (Intact r s) mint (fun id t => id = Identifier.render s.minted ∧ t = s.mint)
      s := by
  refine endures_effect h.intact ?_
  rintro _ _ ⟨rfl, rfl⟩
  exact ⟨h.of_text rfl (Nat.le_succ _) h.linked h.queued, rfl, rfl⟩

namespace Action

variable {ε : Type} {r : Registry} {s : Holding} (h : Referential r s)

include h

theorem endures_get (k : Key) : Endures (Intact r) (call (.get k.render))
    (fun value t => t = s ∧ s.text k = some value) s := by
  refine endures_call trivial h.intact ?_
  rintro value _ ⟨hvalue, rfl⟩
  exact ⟨h.intact, rfl, hvalue⟩

theorem endures_lookup (k : Key) : Endures (Intact r) (orAbsent (call (.get k.render)))
    (fun found t => t = s ∧ ∀ value, found = some value → s.text k = some value) s := by
  refine endures_orAbsent trivial h.intact ⟨rfl, by simp⟩ ?_
  rintro value _ ⟨hvalue, rfl⟩
  refine ⟨h.intact, rfl, fun value' heq => ?_⟩
  rw [← Option.some.inj heq]
  exact hvalue

theorem endures_set {k : Key} {value : String} (hk : s.Admits k value) :
    Endures (Intact r) (call (.set k.render value)) (fun _ t => t = s.write k value) s := by
  refine endures_call trivial h.intact ?_
  rintro _ _ rfl
  exact ⟨⟨h.write hk, hk.retains⟩, rfl⟩

theorem endures_incr {k : Key} (hk : ¬ k.Lasting) :
    Endures (Intact r) (call (.incr k.render)) (fun _ _ => True) s := by
  refine endures_call trivial h.intact ?_
  rintro _ _ ⟨_, rfl⟩
  have hcount := Admits.count (s := s) hk (countText (nextCount (s.text k)))
  exact ⟨⟨h.write hcount, hcount.retains⟩, trivial⟩

theorem endures_mint : Endures (Intact r) (ExceptT.lift Program.mint : Action ε String)
    (fun id t => t.Fresh id) s := by
  refine endures_lift ((Program.endures_mint h).imp ?_)
  rintro _ _ _ ⟨rfl, rfl⟩
  obtain ⟨hbinding, hinformation⟩ := h.unused s.minted (Nat.le_refl _)
  exact ⟨⟨s.minted, Nat.lt_succ_self _, rfl⟩, hbinding, hinformation⟩

/-- An effect that leaves everything as it was. -/
theorem endures_still {e : Effect} (he : ∀ answer t, e.ComesTo s answer t → t = s) :
    Endures (Intact r) (ExceptT.lift (Program.effect e) : Action ε e.Answer)
      (fun _ t => t = s) s := by
  refine endures_lift (Program.endures_effect h.intact ?_)
  intro answer t hcomes
  obtain rfl := he answer t hcomes
  exact ⟨h.intact, rfl⟩

theorem endures_push {p : Payload} (hp : s.Addressed p) :
    Endures (Intact r) (Queue.push Key.eventQueue.render p.encode) (fun _ _ => True) s := by
  have hpush : Endures (Intact r) (call (.push Key.eventQueue.render p.encode))
      (fun _ _ => True) s := by
    refine endures_call trivial h.intact ?_
    rintro _ _ rfl
    refine ⟨h.of_text rfl (Nat.le_refl _) h.linked fun item hitem => ?_, trivial⟩
    have hmem : item ∈ s.queue ++ [p.encode] := by
      simpa [Holding.queue, Contents.putList] using hitem
    rcases List.mem_append.mp hmem with hmem | hmem
    · exact h.queued item hmem
    · exact ⟨p, List.mem_singleton.mp hmem, hp⟩
  refine hpush.bind fun _ t ht _ => ?_
  exact (endures_still (e := .signal _) ht.1 fun _ _ heq => heq).imp fun _ _ _ _ => trivial

theorem endures_push_output (session output : String) :
    Endures (Intact r) (call (.push (Key.outputs session).render output)) (fun _ _ => True) s := by
  refine endures_call trivial h.intact ?_
  rintro _ _ rfl
  refine ⟨h.of_text rfl (Nat.le_refl _) h.linked fun item hitem => h.queued item ?_, trivial⟩
  have hne : Key.eventQueue.render ≠ (Key.outputs session).render := by
    intro heq
    exact absurd ((Key.render_eq_iff_of_kept (k := .eventQueue) trivial).mp heq) (by simp)
  simpa [Holding.queue, Contents.putList, hne] using hitem

/-- A set that is stored already is left as it is. -/
theorem endures_setInit (producer : String) {members : List String}
    (hmembers : ∀ b ∈ members, s.Linked r b) :
    Endures (Intact r) (call (.setInit (Key.connections producer).render members))
      (fun _ _ => True) s := by
  refine endures_call trivial h.intact ?_
  rintro _ _ (⟨_, _, rfl⟩ | ⟨_, _, rfl⟩)
  · refine ⟨h.of_text rfl (Nat.le_refl _) (fun b behaviours hb b' hb' => ?_) h.queued, trivial⟩
    have hkey : (Key.connections b).render = (Key.connections producer).render ↔ b = producer := by
      rw [Key.render_eq_iff_of_kept (k := .connections b) trivial, Key.connections.injEq]
    simp only [Holding.next, Contents.putSet, Function.update_apply, hkey] at hb
    split at hb
    · rw [← Option.some.inj hb] at hb'
      rcases mem_addMembers.mp hb' with hmem | hmem
      · exact absurd hmem (by simp)
      · exact hmembers b' hmem
    · exact h.linked b behaviours hb b' hb'
  · exact ⟨h.intact, trivial⟩

theorem endures_setMembers (key : String) :
    Endures (Intact r) (call (.setMembers key)) (fun _ t => t = s) s := by
  refine endures_call trivial h.intact ?_
  rintro _ _ ⟨_, rfl⟩
  exact ⟨h.intact, rfl⟩

theorem endures_zadd (key member : String) (score : Score) :
    Endures (Intact r) (call (.zadd key member score)) (fun _ _ => True) s := by
  refine endures_call trivial h.intact ?_
  rintro _ _ rfl
  exact ⟨h.intact, trivial⟩

end Action

end SelfWiring
