import SelfWiring.Proofs.Runs

/-!
# The invariant of a run

What holds of the network after any run. Identifiers that are still to be minted are unused, what
was learned once is kept, every behaviour is bound to a cell that takes the results of those before
it, and every queued payload can be traced back along the connections to the submission of its tree.
-/

namespace SelfWiring

/-! ## Routes -/

/-- A stored path from the first behaviour of a tree, and the arguments that travel along it: the
text of the submission at first, and after each hop the results of the cell before. -/
inductive Route (applies : Cell → List Value → List Value → Prop) (r : Registry) (n : Net)
    (tree : String) (s : Submission) : String → List Value → Prop
  | first {b : String} (hfirst : n.text (.firstBehaviour tree) = some b) :
    Route applies r n tree s b [.text s.input]
  | hop {b b' name : String} {cell : Cell} {args results : List Value} {behaviours : List String}
    (hroute : Route applies r n tree s b args) (hbinding : n.text (.binding b) = some name)
    (hcell : r.get? name = some cell) (happlies : applies cell args results)
    (hnext : n.next b = some behaviours) (hmem : b' ∈ behaviours) :
    Route applies r n tree s b' results

/-- A queued payload of a tree and its submission. -/
structure Sound (σ : Type) [Store σ] [FaultFree σ] (r : Registry) (n : Net) (t : String)
    (s : Submission) (p : Payload) : Prop where
  tree : p.context.tree = some t
  session : p.context.session = some s.session
  expectation : p.context.expectation = s.expectation
  information : ∃ i, p.context.information = some i ∧ n.text (.information i) = some s.input
  behaviour : p.context.behaviour = some p.destination
  cell : ∃ name, p.context.cell = some name ∧ n.text (.binding p.destination) = some name
  route : Route (Cell.Yields σ) r n t s p.destination p.args

/-! ## Growth -/

/-- Keys that are written once. -/
def Key.Lasting : Key → Prop
  | .binding _ | .firstBehaviour _ | .information _ | .informationId _ | .entry _ _ => True
  | _ => False

/-- What was learned is kept. -/
structure Net.Grows (n m : Net) : Prop where
  text : ∀ k, k.Lasting → ∀ v, n.text k = some v → m.text k = some v
  next : ∀ b behaviours, n.next b = some behaviours → m.next b = some behaviours
  minted : n.minted ≤ m.minted

/-- Nothing was learned, and nothing was queued. -/
structure Net.Alike (n m : Net) : Prop where
  text : ∀ k, k.Lasting ∨ k = .separator → m.text k = n.text k
  next : m.next = n.next
  queue : ∀ item ∈ m.queue, item ∈ n.queue
  minted : n.minted ≤ m.minted

namespace Net

theorem Grows.refl (n : Net) : n.Grows n := ⟨fun _ _ _ h => h, fun _ _ h => h, Nat.le_refl _⟩

theorem Grows.trans {n m k : Net} (h : n.Grows m) (h' : m.Grows k) : n.Grows k where
  text key hkey v hv := h'.text key hkey v (h.text key hkey v hv)
  next b behaviours hb := h'.next b behaviours (h.next b behaviours hb)
  minted := Nat.le_trans h.minted h'.minted

section

variable {n m : Net} (h : n.Grows m)

include h

theorem Grows.binding {b name : String} (hb : n.text (.binding b) = some name) :
    m.text (.binding b) = some name := h.text (.binding b) trivial name hb

theorem Grows.firstBehaviour {tree b : String} (hb : n.text (.firstBehaviour tree) = some b) :
    m.text (.firstBehaviour tree) = some b := h.text (.firstBehaviour tree) trivial b hb

theorem Grows.information {i text : String} (hi : n.text (.information i) = some text) :
    m.text (.information i) = some text := h.text (.information i) trivial text hi

end

theorem Alike.grows {n m : Net} (h : n.Alike m) : n.Grows m where
  text k hk _ hv := (h.text k (Or.inl hk)).trans hv
  next b _ hb := (congrFun h.next b).trans hb
  minted := h.minted

theorem Alike.trans {n m k : Net} (h : n.Alike m) (h' : m.Alike k) : n.Alike k where
  text key hkey := (h'.text key hkey).trans (h.text key hkey)
  next := h'.next.trans h.next
  queue item hitem := h.queue item (h'.queue item hitem)
  minted := Nat.le_trans h.minted h'.minted

theorem Alike.lasting {n m : Net} (h : n.Alike m) (k : Key) (hk : k.Lasting) :
    m.text k = n.text k :=
  h.text k (Or.inl hk)

theorem alike_mint (n : Net) : n.Alike n.mint :=
  ⟨fun _ _ => rfl, rfl, fun _ h => h, Nat.le_succ _⟩

theorem alike_announce (n : Net) (e : Event) : n.Alike (n.announce e) :=
  ⟨fun _ _ => rfl, rfl, fun _ h => h, Nat.le_refl _⟩

theorem alike_deliver (n : Net) (session output : String) : n.Alike (n.deliver session output) :=
  ⟨fun _ _ => rfl, rfl, fun _ h => h, Nat.le_refl _⟩

theorem alike_count (n : Net) {k : Key} (hk : ¬ (k.Lasting ∨ k = .separator)) :
    n.Alike (n.count k) := by
  refine ⟨fun k' hk' => ?_, rfl, fun _ h => h, Nat.le_refl _⟩
  have hne : k' ≠ k := fun h => hk (h ▸ hk')
  exact Function.update_of_ne hne _ _

theorem alike_close (n : Net) (b : String) (behaviours : List String) :
    n.Alike (n.close b behaviours) := by
  unfold close
  split
  · exact n.alike_announce _
  · exact ⟨fun _ _ => rfl, rfl, fun _ h => h, Nat.le_refl _⟩

theorem alike_report (n : Net) (p : Payload) (r : Except EngineError Outcome) :
    n.Alike (n.report p r) := by
  unfold report
  split
  · exact ⟨fun _ _ => rfl, rfl, fun _ h => h, Nat.le_refl _⟩
  all_goals exact n.alike_announce _

/-- What is written under a free key takes nothing away. -/
theorem grows_write {n : Net} {k : Key} (hfree : n.text k = none) (value : String) :
    n.Grows (n.write k value) where
  text k' _ v hv := by
    have hne : k' ≠ k := by
      rintro rfl
      exact absurd (hfree.symm.trans hv) (by simp)
    rw [write_text, Function.update_of_ne hne]
    exact hv
  next _ _ hb := hb
  minted := Nat.le_refl _

theorem grows_wire {n : Net} {producer : String} (hfree : n.next producer = none)
    (behaviours : List String) : n.Grows (n.wire producer behaviours) := by
  refine ⟨fun _ _ _ hv => hv, fun b bs hb => ?_, Nat.le_refl _⟩
  have hne : b ≠ producer := by
    rintro rfl
    exact absurd (hfree.symm.trans hb) (by simp)
  rw [wire_next, Function.update_of_ne hne]
  exact hb

theorem alike_requeue {n : Net} {before after : List String} {item : String}
    (hqueue : n.queue = before ++ item :: after) : n.Alike (n.requeue (before ++ after)) := by
  refine ⟨fun _ _ => rfl, rfl, fun i hi => ?_, Nat.le_refl _⟩
  rw [hqueue]
  rcases List.mem_append.mp hi with hi | hi
  · exact List.mem_append_left _ hi
  · exact List.mem_append_right _ (List.mem_cons_of_mem _ hi)

/-- What a cell from outside may do on its own: mint identifiers and announce events. -/
def Quiet (n m : Net) : Prop :=
  ∃ k es, m = { n with minted := n.minted + k, events := n.events ++ es }

theorem Quiet.alike {n m : Net} (h : n.Quiet m) : n.Alike m := by
  obtain ⟨k, es, rfl⟩ := h
  exact ⟨fun _ _ => rfl, rfl, fun _ h => h, Nat.le_add_right _ _⟩

end Net

variable {σ : Type} [Store σ] [FaultFree σ]

theorem Route.imp {R R' : Cell → List Value → List Value → Prop} {r : Registry} {n m : Net}
    {tree : String} {s : Submission} (hgrows : n.Grows m)
    (himp : ∀ b name cell args results, n.text (.binding b) = some name → r.get? name = some cell →
      (n.next b).isSome = true → R cell args results → R' cell args results)
    {b : String} {args : List Value} (h : Route R r n tree s b args) :
    Route R' r m tree s b args := by
  induction h with
  | first hfirst => exact .first (hgrows.firstBehaviour hfirst)
  | hop _ hbinding hcell happlies hnext hmem ih =>
    refine .hop ih (hgrows.binding hbinding) hcell ?_ (hgrows.next _ _ hnext) hmem
    exact himp _ _ _ _ _ hbinding hcell (by rw [hnext]; rfl) happlies

theorem Sound.mono {r : Registry} {n m : Net} {tree : String} {s : Submission} {p : Payload}
    (hgrows : n.Grows m) (h : Sound σ r n tree s p) : Sound σ r m tree s p where
  tree := h.tree
  session := h.session
  expectation := h.expectation
  information := by
    obtain ⟨i, hi, htext⟩ := h.information
    exact ⟨i, hi, hgrows.information htext⟩
  behaviour := h.behaviour
  cell := by
    obtain ⟨name, hname, hbinding⟩ := h.cell
    exact ⟨name, hname, hgrows.binding hbinding⟩
  route := h.route.imp hgrows fun _ _ _ _ _ _ _ _ hyields => hyields

/-! ## The invariant -/

/-- Nothing is stored about an identifier, and no tree goes by it. -/
structure Net.Unused (n : Net) (born : String → Submission → Prop) (id : String) : Prop where
  binding : n.text (.binding id) = none
  information : n.text (.information id) = none
  firstBehaviour : n.text (.firstBehaviour id) = none
  next : n.next id = none
  born : ∀ s, ¬ born id s

/-- A behaviour whose cell takes results of the given kinds. -/
def Net.Takes (n : Net) (r : Registry) (b : String) (kinds : List Kind) : Prop :=
  ∃ name cell, n.text (.binding b) = some name ∧ r.get? name = some cell ∧ cell.entry = false ∧
    ∀ vs : List Value, vs.map Value.kind = kinds → cell.signature.accepts vs = true

/-- A behaviour that forwards is bound to a cell that is not terminal, and those that follow take
its results. -/
def Net.Wired (n : Net) (r : Registry) (b : String) (behaviours : List String) : Prop :=
  ∃ name cell, n.text (.binding b) = some name ∧ r.get? name = some cell ∧ cell.terminal = false ∧
    ∀ b' ∈ behaviours, n.Takes r b' cell.signature.outputs

structure Inv (σ : Type) [Store σ] [FaultFree σ] (r : Registry) (born : String → Submission → Prop)
    (n : Net) : Prop where
  separator : n.text .separator = none
  unused : ∀ k, n.minted ≤ k → n.Unused born (Identifier.render k)
  recorded : ∀ t i, n.text (.informationId t) = some i → n.text (.information i) = some t
  entered : ∀ i c b, n.text (.entry i c) = some b → n.text (.binding b) = some c
  bound : ∀ b c, n.text (.binding b) = some c → (r.get? c).isSome = true
  wired : ∀ b behaviours, n.next b = some behaviours → n.Wired r b behaviours
  planted : ∀ tree s, born tree s → tree ≠ "" ∧ (n.text (.informationId s.input)).isSome = true ∧
    ∃ b, n.text (.firstBehaviour tree) = some b ∧ n.text (.binding b) = some (Engine.entryCell s)
  queued : ∀ item ∈ n.queue, ∃ p tree s, item = p.encode ∧ born tree s ∧ Sound σ r n tree s p

variable {r : Registry} {born : String → Submission → Prop} {n m : Net}

theorem Net.Takes.mono (hgrows : n.Grows m) {b : String} {kinds : List Kind}
    (h : n.Takes r b kinds) : m.Takes r b kinds := by
  obtain ⟨name, cell, hbinding, hrest⟩ := h
  exact ⟨name, cell, hgrows.binding hbinding, hrest⟩

theorem Net.Wired.mono (hgrows : n.Grows m) {b : String} {behaviours : List String}
    (h : n.Wired r b behaviours) : m.Wired r b behaviours := by
  obtain ⟨name, cell, hbinding, hcell, hterminal, htakes⟩ := h
  exact ⟨name, cell, hgrows.binding hbinding, hcell, hterminal, fun b' hb' =>
    (htakes b' hb').mono hgrows⟩

namespace Inv

/-- The invariant does not look at counters, outputs and events. -/
theorem alike (h : Inv σ r born n) (hm : n.Alike m) : Inv σ r born m where
  separator := (hm.text _ (Or.inr rfl)).trans h.separator
  unused k hk := by
    have hunused := h.unused k (Nat.le_trans hm.minted hk)
    constructor
    · exact (hm.lasting (.binding _) trivial).trans hunused.binding
    · exact (hm.lasting (.information _) trivial).trans hunused.information
    · exact (hm.lasting (.firstBehaviour _) trivial).trans hunused.firstBehaviour
    · exact (congrFun hm.next _).trans hunused.next
    · exact hunused.born
  recorded t i hi := by
    rw [hm.lasting (.informationId t) trivial] at hi
    exact hm.grows.information (h.recorded t i hi)
  entered i c b hb := by
    rw [hm.lasting (.entry i c) trivial] at hb
    exact hm.grows.binding (h.entered i c b hb)
  bound b c hc := by
    rw [hm.lasting (.binding b) trivial] at hc
    exact h.bound b c hc
  wired b behaviours hb := by
    rw [hm.next] at hb
    exact (h.wired b behaviours hb).mono hm.grows
  planted tree s hs := by
    obtain ⟨hne, hrecord, b, hfirst, hbinding⟩ := h.planted tree s hs
    rw [hm.lasting (.informationId s.input) trivial]
    exact ⟨hne, hrecord, b, hm.grows.firstBehaviour hfirst, hm.grows.binding hbinding⟩
  queued item hitem := by
    obtain ⟨p, tree, s, rfl, hborn, hsound⟩ := h.queued item (hm.queue item hitem)
    exact ⟨p, tree, s, rfl, hborn, hsound.mono hm.grows⟩

/-- A key that may be written: it is free, it belongs to no identifier still to be minted, and what
it leads to is there. -/
structure Ready (r : Registry) (n : Net) (k : Key) (value : String) : Prop where
  lasting : k.Lasting
  free : n.text k = none
  minted : ∀ j, n.minted ≤ j → k ≠ .binding (Identifier.render j) ∧
    k ≠ .information (Identifier.render j) ∧ k ≠ .firstBehaviour (Identifier.render j)
  recorded : ∀ t, k = .informationId t → n.text (.information value) = some t
  entered : ∀ i c, k = .entry i c → n.text (.binding value) = some c
  bound : ∀ b, k = .binding b → (r.get? value).isSome = true

theorem Ready.grows {k : Key} {value : String} (h : Ready r n k value) :
    n.Grows (n.write k value) := Net.grows_write h.free value

theorem write {k : Key} {value : String} (h : Inv σ r born n) (hk : Ready r n k value) :
    Inv σ r born (n.write k value) where
  separator := by
    have hne : Key.separator ≠ k := fun heq => (heq ▸ hk.lasting : Key.Lasting .separator)
    rw [Net.write_text, Function.update_of_ne hne]
    exact h.separator
  unused j hj := by
    have hunused := h.unused j hj
    obtain ⟨hbinding, hinformation, hfirst⟩ := hk.minted j hj
    constructor
    · rw [Net.write_text, Function.update_of_ne hbinding.symm]
      exact hunused.binding
    · rw [Net.write_text, Function.update_of_ne hinformation.symm]
      exact hunused.information
    · rw [Net.write_text, Function.update_of_ne hfirst.symm]
      exact hunused.firstBehaviour
    · exact hunused.next
    · exact hunused.born
  recorded t i hi := by
    apply hk.grows.information
    by_cases hkey : Key.informationId t = k
    · subst hkey
      rw [Net.write_text, Function.update_self] at hi
      exact Option.some.inj hi ▸ hk.recorded t rfl
    · rw [Net.write_text, Function.update_of_ne hkey] at hi
      exact h.recorded t i hi
  entered i c b hb := by
    apply hk.grows.binding
    by_cases hkey : Key.entry i c = k
    · subst hkey
      rw [Net.write_text, Function.update_self] at hb
      exact Option.some.inj hb ▸ hk.entered i c rfl
    · rw [Net.write_text, Function.update_of_ne hkey] at hb
      exact h.entered i c b hb
  bound b c hc := by
    by_cases hkey : Key.binding b = k
    · subst hkey
      rw [Net.write_text, Function.update_self] at hc
      exact Option.some.inj hc ▸ hk.bound b rfl
    · rw [Net.write_text, Function.update_of_ne hkey] at hc
      exact h.bound b c hc
  wired b behaviours hb := (h.wired b behaviours hb).mono hk.grows
  planted tree s hs := by
    obtain ⟨hne, hrecord, b, hfirst, hbinding⟩ := h.planted tree s hs
    obtain ⟨i, hi⟩ := Option.isSome_iff_exists.mp hrecord
    refine ⟨hne, ?_, b, hk.grows.firstBehaviour hfirst, hk.grows.binding hbinding⟩
    rw [hk.grows.text (.informationId s.input) trivial i hi]
    rfl
  queued item hitem := by
    obtain ⟨p, tree, s, rfl, hborn, hsound⟩ := h.queued item hitem
    exact ⟨p, tree, s, rfl, hborn, hsound.mono hk.grows⟩

theorem wire (h : Inv σ r born n) {producer : String} {behaviours : List String}
    (hfree : n.next producer = none) (hwired : n.Wired r producer behaviours) :
    Inv σ r born (n.wire producer behaviours) := by
  have hgrows := Net.grows_wire hfree behaviours
  refine ⟨h.separator, fun k hk => ?_, h.recorded, h.entered, h.bound, fun b bs hb => ?_, h.planted,
    fun item hitem => ?_⟩
  · have hunused := h.unused k hk
    refine ⟨hunused.binding, hunused.information, hunused.firstBehaviour, ?_, hunused.born⟩
    have hne : Identifier.render k ≠ producer := by
      rintro rfl
      obtain ⟨name, _, hbinding, _⟩ := hwired
      exact absurd (hunused.binding.symm.trans hbinding) (by simp)
    rw [Net.wire_next, Function.update_of_ne hne]
    exact hunused.next
  · by_cases hb' : b = producer
    · subst hb'
      rw [Net.wire_next, Function.update_self] at hb
      exact Option.some.inj hb ▸ hwired.mono hgrows
    · rw [Net.wire_next, Function.update_of_ne hb'] at hb
      exact (h.wired b bs hb).mono hgrows
  · obtain ⟨p, tree, s, rfl, hborn, hsound⟩ := h.queued item hitem
    exact ⟨p, tree, s, rfl, hborn, hsound.mono hgrows⟩

theorem enqueue (h : Inv σ r born n) {p : Payload} {tree : String} {s : Submission}
    (hborn : born tree s) (hp : Sound σ r n tree s p) : Inv σ r born (n.enqueue p) := by
  have hgrows : n.Grows (n.enqueue p) :=
    ⟨fun _ _ _ hv => hv, fun _ _ hb => hb, Nat.le_refl _⟩
  refine ⟨h.separator, fun k hk => ?_, h.recorded, h.entered, h.bound, h.wired, h.planted,
    fun item hitem => ?_⟩
  · have hunused := h.unused k hk
    exact ⟨hunused.binding, hunused.information, hunused.firstBehaviour, hunused.next, hunused.born⟩
  · rw [Net.enqueue_queue, List.mem_append, List.mem_singleton] at hitem
    rcases hitem with hitem | rfl
    · obtain ⟨q, tree', s', rfl, hborn', hsound⟩ := h.queued item hitem
      exact ⟨q, tree', s', rfl, hborn', hsound.mono hgrows⟩
    · exact ⟨p, tree, s, rfl, hborn, hp.mono hgrows⟩

/-- A tree comes into being under an identifier that was minted, with its text on record and its
first behaviour in place. -/
theorem bear (h : Inv σ r born n) {born' : String → Submission → Prop} {tree : String}
    {s : Submission} (hborn : ∀ t s', born' t s' ↔ born t s' ∨ (t = tree ∧ s' = s))
    (hne : tree ≠ "") (hminted : ∀ k, n.minted ≤ k → Identifier.render k ≠ tree)
    (hrecord : (n.text (.informationId s.input)).isSome = true) {b : String}
    (hfirst : n.text (.firstBehaviour tree) = some b)
    (hbinding : n.text (.binding b) = some (Engine.entryCell s)) : Inv σ r born' n := by
  refine ⟨h.separator, fun k hk => ?_, h.recorded, h.entered, h.bound, h.wired, fun t s' hs' => ?_,
    fun item hitem => ?_⟩
  · have hunused := h.unused k hk
    refine ⟨hunused.binding, hunused.information, hunused.firstBehaviour, hunused.next,
      fun s' hs' => ?_⟩
    rcases (hborn _ _).mp hs' with hs' | ⟨heq, _⟩
    · exact hunused.born s' hs'
    · exact hminted k hk heq
  · rcases (hborn _ _).mp hs' with hs' | ⟨rfl, rfl⟩
    · exact h.planted t s' hs'
    · exact ⟨hne, hrecord, b, hfirst, hbinding⟩
  · obtain ⟨p, t, s', rfl, hs', hsound⟩ := h.queued item hitem
    exact ⟨p, t, s', rfl, (hborn _ _).mpr (Or.inl hs'), hsound⟩

end Inv

end SelfWiring
