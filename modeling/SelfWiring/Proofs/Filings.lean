import SelfWiring.Proofs.Entrances

/-!
# What is on file

Every text that an engine keeps is kept under a key whose identifier was minted, and each record can
be found by its text. Accepting a submission puts its text on file, and anchors its tree. Processing
puts nothing on file: whatever reaches the input cell is a text that is on file already, since no
connection leads to the input cell and restarts go by the records. So the anchors are those of the
trees that were accepted, the records those of the texts, and behaviours are connected where results
were forwarded.
-/

namespace SelfWiring

/-- Keys of the texts that an engine keeps. Identifiers in them were minted. -/
def Key.Filed : Key → Prop
  | .binding id | .firstBehaviour id | .retraversals id | .misses id _ | .done id
  | .information id | .entry id _ => ∃ j, id = Identifier.render j
  | .informationId _ => True
  | _ => False

namespace Net

/-- A payload for the input cell carries a text that is on file. -/
def InputOnFile (n : Net) (p : Payload) : Prop :=
  p.context.cell = some Cell.inputName →
    ∃ t, p.args = [.text t] ∧ (n.text (.informationId t)).isSome = true

structure Filed (n : Net) : Prop where
  keys : ∀ k, (n.text k).isSome = true → k.Filed
  indexed : ∀ i t, n.text (.information i) = some t → n.text (.informationId t) = some i
  inputOnFile : ∀ item ∈ n.queue, ∃ p, item = p.encode ∧ n.InputOnFile p

/-- Records, entry behaviours and anchors are the same. -/
def SameFiles (n m : Net) : Prop :=
  ∀ k : Key, k.Lasting → (∀ b, k ≠ .binding b) → m.text k = n.text k

variable {r : Registry} {limit : UInt64} {n m : Net}

theorem Grows.isSome (h : n.Grows m) {k : Key} (hk : k.Lasting) (hn : (n.text k).isSome = true) :
    (m.text k).isSome = true := by
  obtain ⟨v, hv⟩ := Option.isSome_iff_exists.mp hn
  rw [h.text k hk v hv]
  rfl

theorem InputOnFile.mono {p : Payload} (h : n.InputOnFile p) (hgrows : n.Grows m) :
    m.InputOnFile p := by
  intro hcell
  obtain ⟨t, hargs, ht⟩ := h hcell
  exact ⟨t, hargs, hgrows.isSome trivial ht⟩

/-- What is added to a network on file is on file if its keys are, if new records can be found, and
if texts that are queued for the input cell are on file. -/
theorem Filed.grow (h : n.Filed) (hgrows : n.Grows m)
    (hkeys : ∀ k, (m.text k).isSome = true → (n.text k).isSome = true ∨ k.Filed)
    (hindexed : ∀ i t, m.text (.information i) = some t → m.text (.informationId t) = some i)
    (hqueue : ∀ item ∈ m.queue, item ∈ n.queue ∨ ∃ p, item = p.encode ∧ m.InputOnFile p) :
    m.Filed where
  keys k hk := (hkeys k hk).elim (h.keys k) id
  indexed := hindexed
  inputOnFile item hitem := by
    rcases hqueue item hitem with hold | hnew
    · obtain ⟨p, rfl, hp⟩ := h.inputOnFile item hold
      exact ⟨p, rfl, hp.mono hgrows⟩
    · exact hnew

/-! ## Processing -/

/-- What processing may do to a network on file: what was learned is kept, and nothing is put on
file. -/
structure Works (r : Registry) (limit : UInt64) (n m : Net) : Prop where
  growsWellFormed : n.GrowsWellFormed r limit m
  filed : m.Filed
  same : n.SameFiles m

theorem Works.refl (ht : n.WellFormed r limit) (hf : n.Filed) : n.Works r limit n :=
  ⟨ht.refl, hf, fun _ _ _ => rfl⟩

theorem Works.trans {k : Net} (h : n.Works r limit m) (h' : m.Works r limit k) :
    n.Works r limit k :=
  ⟨h.growsWellFormed.trans h'.growsWellFormed, h'.filed, fun key hkey hb =>
    (h'.same key hkey hb).trans (h.same key hkey hb)⟩

theorem Filed.works (hf : n.Filed) (hgrowth : n.GrowsWellFormed r limit m) (hsame : n.SameFiles m)
    (hkeys : ∀ k, (m.text k).isSome = true → (n.text k).isSome = true ∨ k.Filed)
    (hqueue : ∀ item ∈ m.queue, item ∈ n.queue ∨ ∃ p, item = p.encode ∧ n.InputOnFile p) :
    n.Works r limit m := by
  refine ⟨hgrowth, hf.grow hgrowth.grows hkeys ?_ ?_, hsame⟩
  · intro i t hi
    rw [hsame (.information i) trivial (by simp)] at hi
    rw [hsame (.informationId t) trivial (by simp)]
    exact hf.indexed i t hi
  · intro item hitem
    refine (hqueue item hitem).imp_right ?_
    rintro ⟨p, rfl, hp⟩
    exact ⟨p, rfl, hp.mono hgrowth.grows⟩

/-- A network with the same texts. -/
theorem Filed.works_of_text_eq (hf : n.Filed) (ht : n.WellFormed r limit) (hm : n.Alike m)
    (htext : m.text = n.text) : n.Works r limit m := by
  refine hf.works (ht.alike hm) (fun k _ _ => congrFun htext k) (fun k hk => ?_) fun item hitem =>
    Or.inl (hm.queue item hitem)
  exact Or.inl (htext ▸ hk)

/-- Behaviours that are made are on file under new identifiers. -/
theorem Filed.connected (hf : n.Filed) (ht : n.WellFormed r limit) {producer : String}
    (hbound : ∃ c, n.text (.binding producer) = some c) {args : List Value}
    {behaviours : List String}
    (hconnected : Engine.Connected r limit n producer args behaviours m) :
    n.Works r limit m := by
  have hgrowth := (ht.connected hbound hconnected).1
  cases hconnected with
  | known => exact .refl ht hf
  | explored hfree cells =>
    have hold : ∀ {k : Key}, (∀ b ∈ (n.sprout cells).1, k ≠ .binding b) →
        (n.sprout cells).2.text k = n.text k := fun hk => sprout_text cells n hk
    refine hf.works hgrowth (fun k _ hk => hold fun b _ => hk b) (fun k hk => ?_) fun item hitem =>
      Or.inl ?_
    · by_cases hnew : ∃ b ∈ (n.sprout cells).1, k = .binding b
      · obtain ⟨b, hb, rfl⟩ := hnew
        obtain ⟨j, -, -, rfl⟩ := mem_sprout.mp hb
        exact Or.inr ⟨j, rfl⟩
      · have hsame := hold fun b hb heq => hnew ⟨b, hb, heq⟩
        exact Or.inl (hsame ▸ hk)
    · rwa [wire_queue, sprout_queue] at hitem

/-- Nothing that follows a behaviour is for the input cell. -/
theorem Filed.queueAll (hf : n.Filed) (ht : n.WellFormed r limit) {p : Payload} {producer : String}
    {behaviours : List String}
    (hgrowth : n.GrowsWellFormed r limit (n.queueAll p producer behaviours))
    (hinput : r.get? Cell.inputName = some Cell.input)
    (hnext : n.next producer = some behaviours) :
    n.Works r limit (n.queueAll p producer behaviours) := by
  have hmember : ∀ b ∈ behaviours, ∃ name cell, n.text (.binding b) = some name ∧
      r.get? name = some cell ∧ cell.entry = false := fun b hb =>
    ht.grown.member producer b ⟨behaviours, hnext, hb⟩
  obtain ⟨htext, -, qs, hqueue, -, hhops⟩ := n.queueAll_hops p producer behaviours fun b hb => by
    obtain ⟨name, _, hname, _⟩ := hmember b hb
    rw [hname]
    rfl
  refine hf.works hgrowth (fun k _ _ => congrFun htext k) (fun k hk => Or.inl (htext ▸ hk)) ?_
  intro item hitem
  rw [hqueue, List.mem_append, List.mem_map] at hitem
  refine hitem.imp_right ?_
  rintro ⟨q, hq, rfl⟩
  refine ⟨q, rfl, fun hcell => ?_⟩
  obtain ⟨b, hb, hhop⟩ := List.mem_map.mp (hhops ▸ List.mem_map_of_mem hq : q.hop ∈ _)
  obtain ⟨name, cell, hname, hget, hentry⟩ := hmember b hb
  -- the cell of a successor is the one that it is bound to
  have hbound : n.text (.binding b) = some Cell.inputName := (congrArg Hop.cell hhop).trans hcell
  obtain rfl := Option.mem_unique hname hbound
  obtain rfl := Option.mem_unique hget hinput
  exact absurd hentry (by decide)

/-- A restart goes by the record of its text. -/
theorem Filed.concluded (hf : n.Filed) (ht : n.WellFormed r limit) {p : Payload} (hp : n.Posted p)
    {budget : UInt32} {tree session output : String} {result : Except CellError (List Value)}
    (htree : p.context.tree = some tree)
    (hconcluded : Cell.Concluded budget n p.context tree session output result m) :
    n.Works r limit m ∧ m.next = n.next := by
  have hgrowth := ht.concluded hp htree hconcluded
  obtain ⟨t, ht', -, hrestart⟩ := hp.tree
  obtain rfl := Option.mem_unique ht' htree
  obtain ⟨first, _, hfirst, _⟩ := hrestart.anchored
  obtain ⟨j, rfl⟩ := hf.keys (.firstBehaviour t) (by rw [hfirst]; rfl)
  -- only counters of the tree are written
  have htext : ∀ k, k ≠ .done (Identifier.render j) → k ≠ .retraversals (Identifier.render j) →
      k ≠ .misses (Identifier.render j) p.context.pass → m.text k = n.text k := by
    intro k hdone hretraversals hmisses
    cases hconcluded <;> simp [count, hdone, hretraversals, hmisses]
  have hnext : m.next = n.next := by cases hconcluded <;> rfl
  refine ⟨hf.works hgrowth ?_ ?_ ?_, hnext⟩
  · intro k hk _
    refine htext k ?_ ?_ ?_ <;> rintro rfl <;> exact hk.elim
  · intro k hk
    by_cases hcounter : k = .done (Identifier.render j) ∨ k = .retraversals (Identifier.render j) ∨
        k = .misses (Identifier.render j) p.context.pass
    · right
      rcases hcounter with rfl | rfl | rfl <;> exact ⟨j, rfl⟩
    · rw [not_or, not_or] at hcounter
      rw [htext k hcounter.1 hcounter.2.1 hcounter.2.2] at hk
      exact Or.inl hk
  · intro item hitem
    cases hconcluded with
    | answered | delivered | passedOver | exhausted => exact Or.inl hitem
    | @restarted _ _ _ _ i text first cell hi hrecord =>
      refine (List.mem_append.mp hitem).imp_right fun hnew => ?_
      refine ⟨_, List.mem_singleton.mp hnew, fun _ => ⟨text, rfl, ?_⟩⟩
      rw [hf.indexed i text hrecord]
      rfl

/-! ## Accepting -/

theorem isSome_informationId_record (n : Net) (t t' : String) :
    ((n.record t).2.text (.informationId t')).isSome = true ↔
      (n.text (.informationId t')).isSome = true ∨ t' = t := by
  by_cases ht : t' = t
  · subst ht
    rw [record_informationId]
    simp
  · rw [record_text _ _ (by simp) (by simpa using ht)]
    simp [ht]

/-- The texts of a network after accepting, but for the anchor of the new tree. -/
theorem accept_text_of_ne (n : Net) (s : Submission) {k : Key} (hk : k ≠ .firstBehaviour n.fresh) :
    (n.accept s).text k = ((n.mint.record s.input).2.enter (n.mint.record s.input).1
      (Engine.entryCell s)).2.text k := by
  unfold accept
  simp only [announce_text, enqueue_text, mint_text, write_text]
  rw [Function.update_of_ne hk]

theorem isSome_informationId_accept (n : Net) (s : Submission) (t : String) :
    ((n.accept s).text (.informationId t)).isSome = true ↔
      (n.text (.informationId t)).isSome = true ∨ t = s.input := by
  rw [n.accept_text_of_ne s (by simp), enter_text _ _ _ (by simp) (by simp)]
  exact n.mint.isSome_informationId_record s.input t

theorem isSome_firstBehaviour_accept (n : Net) (s : Submission) (t : String) :
    ((n.accept s).text (.firstBehaviour t)).isSome = true ↔
      (n.text (.firstBehaviour t)).isSome = true ∨ t = n.fresh := by
  by_cases ht : t = n.fresh
  · subst ht
    have hanchored : ((n.accept s).text (.firstBehaviour n.fresh)).isSome = true := by
      rw [show (n.accept s).text (.firstBehaviour n.fresh) = some _ from Function.update_self ..]
      rfl
    simp [hanchored]
  · rw [n.accept_text_of_ne s (by simpa using ht), enter_text _ _ _ (by simp) (by simp),
      record_text _ _ (by simp) (by simp)]
    simp [ht]

theorem Filed.record (hf : n.Filed) (ht : n.WellFormed r limit) (t : String) :
    (n.record t).2.Filed ∧ ∃ j, (n.record t).1 = Identifier.render j := by
  obtain ⟨⟨_, hgrows⟩, hrecorded⟩ := ht.record t
  have hindex := n.record_informationId t
  unfold Net.record at hgrows hrecorded hindex ⊢
  cases hid : n.text (.informationId t) with
  | some i =>
    have hfiled := hf.keys (.information i) (by rw [ht.recorded t i hid]; rfl)
    exact ⟨hf, hfiled⟩
  | none =>
    simp only [hid] at hgrows hrecorded hindex ⊢
    refine ⟨hf.grow hgrows ?_ ?_ fun item hitem => Or.inl hitem, n.minted, rfl⟩
    · intro k hk
      by_cases hinformation : k = .information n.fresh
      · exact Or.inr (hinformation ▸ ⟨n.minted, rfl⟩)
      · by_cases hinformationId : k = .informationId t
        · exact Or.inr (hinformationId ▸ trivial)
        · left
          simpa [hinformation, hinformationId] using hk
    · intro i t' hi
      by_cases hnew : i = n.fresh
      · subst hnew
        obtain rfl := Option.some.inj (hrecorded.symm.trans hi)
        exact hindex
      · have hold : n.text (.information i) = some t' := by simpa [hnew] using hi
        exact hgrows.text (.informationId t') trivial i (hf.indexed i t' hold)

theorem Filed.enter (hf : n.Filed) (ht : n.WellFormed r limit) (j : Nat) (c : String) :
    (n.enter (Identifier.render j) c).2.Filed := by
  obtain ⟨⟨_, hgrows⟩, -⟩ := ht.enter (Identifier.render j) c
  have hkept := fun {k} => enter_text n (Identifier.render j) c (k := k)
  unfold Net.enter at hgrows hkept ⊢
  cases hentry : n.text (.entry (Identifier.render j) c) with
  | some b => exact hf
  | none =>
    simp only [hentry] at hgrows hkept ⊢
    refine hf.grow hgrows ?_ ?_ fun item hitem => Or.inl hitem
    · intro k hk
      by_cases hbinding : k = .binding n.fresh
      · exact Or.inr (hbinding ▸ ⟨n.minted, rfl⟩)
      · by_cases hentered : k = .entry (Identifier.render j) c
        · exact Or.inr (hentered ▸ ⟨j, rfl⟩)
        · left
          simpa [hbinding, hentered] using hk
    · intro i t hi
      rw [hkept (by simp) (by simp)] at hi ⊢
      exact hf.indexed i t hi

theorem Filed.accept (hf : n.Filed) (ht : n.WellFormed r limit) (s : Submission) :
    (n.accept s).Filed := by
  have hminted := hf.works_of_text_eq ht n.alike_mint rfl
  obtain ⟨hrecord, j, hj⟩ := hminted.filed.record hminted.growsWellFormed.wellFormed s.input
  have hformed := (hminted.growsWellFormed.wellFormed.record s.input).1.wellFormed
  have hentered := hrecord.enter hformed j (Engine.entryCell s)
  rw [← hj] at hentered
  constructor
  · intro k hk
    by_cases hanchor : k = .firstBehaviour n.fresh
    · exact hanchor ▸ ⟨n.minted, rfl⟩
    · rw [n.accept_text_of_ne s hanchor] at hk
      exact hentered.keys k hk
  · intro i t hi
    rw [n.accept_text_of_ne s (by simp)] at hi ⊢
    exact hentered.indexed i t hi
  · obtain ⟨id, i, b, hqueue, -⟩ := n.accept_enters s
    intro item hitem
    rw [hqueue, List.mem_append, List.mem_singleton] at hitem
    rcases hitem with hold | rfl
    · obtain ⟨p, rfl, hp⟩ := hf.inputOnFile item hold
      exact ⟨p, rfl, hp.mono (ht.accept s).grows⟩
    · refine ⟨_, rfl, fun _ => ⟨s.input, rfl, ?_⟩⟩
      exact (n.isSome_informationId_accept s s.input).mpr (Or.inr rfl)

end Net

/-! ## Steps -/

variable {σ : Type} [Store σ] [FaultFree σ] {e : Engine}

/-- The cells of an engine put nothing on file but texts that reach the input cell. -/
structure Engine.Filing (σ : Type) [Store σ] [FaultFree σ] (e : Engine) : Prop where
  input : e.registry.get? Cell.inputName = some Cell.input
  works : ∀ name cell, e.registry.get? name = some cell → ∀ (p : Payload) (n : Net),
    n.WellFormed e.registry e.config.maxSignals → n.Filed → n.Posted p → n.InputOnFile p →
      p.context.cell = some name → cell.signature.accepts p.args = true →
        Action.Ensures σ (cell.call p.context p.args) n fun _ m =>
          n.Works e.registry e.config.maxSignals m ∧ m.next = n.next

/-- Behaviours are connected where there were connections before, and where results were
forwarded. -/
def Net.Explores (n : Net) (p : Payload) (result : Except EngineError Outcome) (m : Net) : Prop :=
  ∀ b, (m.next b).isSome = true ↔ (n.next b).isSome = true ∨
    (b = p.destination ∧ ∃ k, result = .ok (.forwarded k))

namespace Engine

open SelfWiring.Action

variable {n m : Net} {p : Payload} {cell : Cell}

theorem isSome_next_connected {r : Registry} {limit : UInt64} {producer : String}
    {args : List Value} {behaviours : List String}
    (h : Connected r limit n producer args behaviours m) (b : String) :
    (m.next b).isSome = true ↔ (n.next b).isSome = true ∨ b = producer := by
  cases h with
  | known hnext =>
    refine (or_iff_left_of_imp ?_).symm
    rintro rfl
    rw [hnext]
    rfl
  | explored hfree cells =>
    rw [Net.wire_next, Function.update_apply, Net.sprout_next]
    by_cases hb : b = producer <;> simp [hb]

/-- Results that are passed on put nothing on file. -/
theorem passOn_works (hinput : e.registry.get? Cell.inputName = some Cell.input)
    (ht : n.WellFormed e.registry e.config.maxSignals) (hf : n.Filed) {results : Payload}
    (hposted : n.Posted results) : Ensures σ (e.passOn cell results.destination results) n
      fun r m => n.Works e.registry e.config.maxSignals m ∧ n.Explores results r m := by
  cases hterminal : cell.terminal with
  | true =>
    unfold passOn
    rw [if_pos hterminal]
    refine (reaches_pure Outcome.terminated n).ensures ⟨.refl ht hf, fun b => ?_⟩
    simp
  | false =>
    have hbound : ∀ behaviours m, Connected e.registry e.config.maxSignals n results.destination
        results.args behaviours m → ∀ b ∈ behaviours, (m.text (.binding b)).isSome = true := by
      intro behaviours m hconnected b hb
      obtain ⟨c, hc⟩ := (ht.connected hposted.bound hconnected).2.2 b hb
      rw [hc]
      rfl
    refine (passOn_ensures results hterminal hposted.behaviour hbound).imp ?_
    rintro _ _ ⟨behaviours, m, hconnected, rfl, rfl⟩
    obtain ⟨hgrowth, hnext, hmembers⟩ := ht.connected hposted.bound hconnected
    have hworks := hf.connected ht hposted.bound hconnected
    have hlater := hposted.mono hgrowth.grows
    have hqueued := hworks.filed.queueAll hgrowth.wellFormed
      (hgrowth.wellFormed.queueAll hlater.session hlater.tree hmembers) hinput hnext
    have hclose : ∀ k : Net, (k.close results.destination behaviours).text = k.text ∧
        (k.close results.destination behaviours).next = k.next := by
      intro k
      unfold Net.close
      split <;> exact ⟨rfl, rfl⟩
    have hclosed := hqueued.filed.works_of_text_eq hqueued.growsWellFormed.wellFormed
      (Net.alike_close _ results.destination behaviours) (hclose _).1
    refine ⟨(hworks.trans hqueued).trans hclosed, fun b => ?_⟩
    have hkept := (m.queueAll_hops results results.destination behaviours fun b hb => ?_).2.1
    · rw [(hclose _).2, hkept, isSome_next_connected hconnected b]
      simp
    · obtain ⟨c, hc⟩ := hmembers b hb
      rw [hc]
      rfl

theorem explores_error {failure : EngineError} (hnext : m.next = n.next) :
    n.Explores p (.error failure) m := by
  intro b
  rw [hnext]
  simp

theorem calculate_works (hs : e.Filing σ) (ht : n.WellFormed e.registry e.config.maxSignals)
    (hf : n.Filed) {name : String} (hcell : e.registry.get? name = some cell)
    (hposted : n.Posted p) (honFile : n.InputOnFile p) (hname : p.context.cell = some name)
    (haccepts : cell.signature.accepts p.args = true) :
    Ensures σ (cell.calculate p) n fun r m =>
      (n.Works e.registry e.config.maxSignals m ∧ m.next = n.next) ∧
        ∀ results, r = .ok results → ∃ vs, results = { p with args := vs } := by
  have hworks := hs.works name cell hcell p n ht hf hposted honFile hname haccepts
  refine (ensures_adapt hworks).bind ?_ ?_
  · rintro vs m ⟨_, -, hm⟩
    split
    · exact (reaches_pure _ m).ensures ⟨hm, fun _ hr => ⟨vs, (Except.ok.inj hr).symm⟩⟩
    · exact (reaches_throw _ m).ensures ⟨hm, fun _ hr => nomatch hr⟩
  · rintro failure m ⟨_, -, hm⟩
    exact ⟨hm, fun _ hr => nomatch hr⟩

theorem process_works (hs : e.Filing σ) (ht : n.WellFormed e.registry e.config.maxSignals)
    (hf : n.Filed) (hposted : n.Posted p) (honFile : n.InputOnFile p) :
    Ensures σ (e.process p) n fun r m =>
      n.Works e.registry e.config.maxSignals m ∧ n.Explores p r m := by
  have hrefl := Net.Works.refl ht hf
  cases hfound : e.cellFor p with
  | error failure =>
    exact (reaches_ofExcept hfound n).bind_error.ensures ⟨hrefl, explores_error rfl⟩
  | ok cell =>
    obtain ⟨name, hname, hcell⟩ := exists_name_of_cellFor hfound
    by_cases haccepts : cell.signature.accepts p.args = true
    · refine process_ensures_of hfound haccepts
        (calculate_works hs ht hf hcell hposted honFile hname haccepts)
        (fun _ _ hr => ⟨hr.1.1, explores_error hr.1.2⟩) ?_
      rintro results m ⟨⟨hworks, hnext⟩, hresults⟩
      obtain ⟨vs, rfl⟩ := hresults results rfl
      have hlater := hposted.mono hworks.growsWellFormed.grows
      have hforwarded : m.Posted { p with args := vs } :=
        ⟨hlater.behaviour, hlater.bound, hlater.session, hlater.tree⟩
      have hformed := hworks.growsWellFormed.wellFormed
      refine (passOn_works hs.input hformed hworks.filed hforwarded).imp ?_
      rintro r k ⟨hk, hexplores⟩
      exact ⟨hworks.trans hk, fun b => hnext ▸ hexplores b⟩
    · obtain ⟨failure, hfailure⟩ := activate_of_not_accepts haccepts
      refine (reaches_ofExcept hfound n).bind ?_
      exact (reaches_ofExcept hfailure n).bind_error.ensures ⟨hrefl, explores_error rfl⟩

/-! ### Standard cells and cells that leave the store alone -/

theorem filing_of_storeFree {config : Config} {extras : List Cell}
    (he : assemble { config, cells := some (Cell.standard config ++ extras) } = .ok e)
    (hextras : ∀ c ∈ extras, ∀ ctx args, (c.call ctx args).run.StoreFree) : e.Filing σ := by
  have hinput : e.registry.get? Cell.inputName = some Cell.input :=
    get?_of_assembled he (c := Cell.input) (by simp [Cell.standard])
  obtain ⟨rfl, hmem⟩ := assemble_eq_ok he
  refine ⟨hinput, fun name cell hcell p n ht hf hposted honFile hname haccepts => ?_⟩
  have hrefl := Net.Works.refl ht hf
  rcases List.mem_append.mp ((hmem cell).mp (Registry.mem_of_get? hcell)) with hstandard | hextra
  · rcases Cell.eq_output_or_mem_of_mem_standard hstandard with rfl | hother
    · obtain ⟨v, vs, hargs⟩ := exists_cons_of_accepts_any rfl haccepts
      obtain ⟨t, htree, hne, hrestart⟩ := hposted.tree
      obtain ⟨session, hsession⟩ := hposted.session
      rw [hargs]
      exact (Cell.output_ensures _ htree hne hsession hrestart v vs).imp fun _ _ hconcluded =>
        hf.concluded ht hposted htree hconcluded
    · by_cases hcellName : cell.name = Cell.inputName
      · -- the text is on file already
        obtain rfl := (Registry.name_of_get? hcell).symm.trans hcellName
        obtain rfl := Option.mem_unique hcell hinput
        obtain ⟨text, hargs, hrecorded⟩ := honFile hname
        have htext : Cell.textOf Cell.inputName p.args = .ok text := by
          rw [hargs]
          rfl
        have hsame : (n.record text).2 = n := by
          obtain ⟨i, hi⟩ := Option.isSome_iff_exists.mp hrecorded
          unfold Net.record
          rw [hi]
        have hreaches := Cell.input_reaches (σ := σ) htext p.context n
        rw [hsame] at hreaches
        exact hreaches.ensures ⟨hrefl, rfl⟩
      · have hserved : cell.Served p.args n :=
          ⟨haccepts, ht.separator, fun hinput => absurd hinput hcellName⟩
        refine (Cell.standard_computing hother p.context p.args n hserved).imp ?_
        rintro _ _ ⟨rfl, -⟩
        exact ⟨hrefl, rfl⟩
  · rintro w rfl
    obtain ⟨k, es, hquiet⟩ := World.quiet_run (hextras cell hextra p.context p.args) w
    rw [hquiet]
    refine ⟨hf.works_of_text_eq ht ?_ rfl, rfl⟩
    exact ⟨fun _ _ => rfl, rfl, fun _ h => h, Nat.le_add_right _ _⟩

end Engine

/-- Processing puts nothing on file, and connects a behaviour where it forwards results. -/
theorem Step.works (hs : e.Filing σ) {w w' : World σ} {p : Payload}
    {result : Except EngineError Outcome} {queued : List String}
    (ht : w.net.WellFormed e.registry e.config.maxSignals) (hf : w.net.Filed)
    (hstep : Step e w (.processed p result queued) w') :
    w.net.Works e.registry e.config.maxSignals w'.net ∧ w.net.Explores p result w'.net := by
  cases hstep with
  | process hqueue hstore hread =>
    rename_i store before after item
    have hitem : item ∈ w.net.queue := by
      show item ∈ w.queue
      rw [hqueue]
      exact List.mem_append_right _ List.mem_cons_self
    obtain ⟨q, rfl, hposted⟩ := ht.posted item hitem
    obtain rfl := Option.mem_unique (Payload.decode?_encode q) hread
    obtain ⟨q', hq', honFile⟩ := hf.inputOnFile _ hitem
    obtain rfl := Payload.encode_inj.mp hq'
    have htaken := hf.works_of_text_eq ht (Net.alike_requeue hqueue) rfl
    have hgrows := htaken.growsWellFormed.grows
    have hprocess := Action.ensures_withRetries e.config.retryPolicy
      (Engine.process_works hs htaken.growsWellFormed.wellFormed htaken.filed (hposted.mono hgrows)
        (honFile.mono hgrows)) { w with store } (World.net_of_requeued hstore)
    obtain ⟨hworks, hexplores⟩ := hprocess
    have hhandled := htaken.trans hworks
    rw [handle_net]
    have hreport := fun (n : Net) (r : Except EngineError Outcome) =>
      show (n.report q r).text = n.text ∧ (n.report q r).next = n.next by
        unfold Net.report
        split <;> exact ⟨rfl, rfl⟩
    refine ⟨hhandled.trans (hhandled.filed.works_of_text_eq hhandled.growsWellFormed.wellFormed
      (Net.alike_report _ _ _) (hreport _ _).1), fun b => ?_⟩
    rw [(hreport _ _).2]
    exact hexplores b

end SelfWiring
