import Mathlib.Data.List.Forall2
import SelfWiring.Engine.Forward
import SelfWiring.Proofs.Crowds
import SelfWiring.Proofs.Identifiers
import SelfWiring.Proofs.Runs

/-!
# Explorers of one behaviour

Payloads of a behaviour that was never explored may be forwarded at the same time. Each call that
finds no connections makes behaviours of its own, binds them, and offers them as the connections.
The first offer is stored and all later ones are ignored, so each call reads back the same set
whatever it offered itself. Since nobody binds a behaviour that somebody else has made, or binds one
after the offer, the members of the stored set keep the cells that they had from the beginning.
-/

namespace SelfWiring

open SelfWiring.Act (own pushes)

variable {producer : String} {past acts : List Act}

/-! ## What a call has done -/

/-- The call has made the identifier. -/
def Minted (past : List Act) (id : String) : Prop := (⟨.mint, id⟩ : Act) ∈ past

/-- The call has bound the behaviour. -/
def Bound (past : List Act) (behaviour : String) : Prop :=
  ∃ cell, (⟨.store (.set (Key.binding behaviour).render cell), .ok ()⟩ : Act) ∈ past

/-- The call has read that the connections of the producer are `behaviours`. -/
def Adopted (producer : String) (past : List Act) (behaviours : List String) : Prop :=
  (⟨.store (.setMembers (Key.connections producer).render), .ok behaviours⟩ : Act) ∈ past

/-- The call has looked up the cell of a behaviour. -/
def Resolved (past : List Act) (behaviour cell : String) : Prop :=
  (⟨.store (.get (Key.binding behaviour).render), .ok cell⟩ : Act) ∈ past

/-- The call has offered the behaviours as connections. -/
def Offered (producer : String) (past : List Act) (behaviours : List String) : Prop :=
  ∃ answer, (⟨.store (.setInit (Key.connections producer).render behaviours), answer⟩ : Act) ∈ past

/-! ## The rules -/

/-- A call binds the behaviours that it has made, until it offers them. It looks up the cells of
behaviours that it has read are connections. It may count on finding what it looks up, and on
finding connections once it has offered some. -/
def exploreRules (producer : String) : Rules where
  permits past
    | .store (.get key) => ∃ b behaviours, key = (Key.binding b).render ∧
        Adopted producer past behaviours ∧ b ∈ behaviours
    | .store (.set key _) => ∃ b, key = (Key.binding b).render ∧ Minted past b ∧
        ∀ behaviours, ¬ Offered producer past behaviours
    | .store (.setInit key behaviours) => key = (Key.connections producer).render ∧
        behaviours.Nodup ∧ ∀ b ∈ behaviours, Minted past b ∧ Bound past b
    | .store (.setMembers key) => key = (Key.connections producer).render
    | .store (.push _ _) | .mint | .draw _ _ | .signal _ => True
    | _ => False
  credits past
    | .store (.get _), answer => ∃ cell, answer = .ok cell
    | .store (.set _ _), answer => answer = .ok ()
    | .store (.push _ _), answer => answer = .ok ()
    | .store (.setInit _ _), answer => ∃ created, answer = .ok created
    | .store (.setMembers key), answer => (∃ behaviours, answer = .ok behaviours) ∨
        answer = .error (.notFound key) ∧ ∀ behaviours, ¬ Offered producer past behaviours
    | .mint, id => ¬ Minted past id
    | _, _ => True

/-! ## One call -/

/-- Nothing was offered or appended yet. -/
structure Exploring (producer : String) (past : List Act) : Prop where
  unoffered : ∀ behaviours, ¬ Offered producer past behaviours
  unpushed : pushes past = []

theorem exploring_nil : Exploring producer [] :=
  ⟨fun _ ⟨_, h⟩ => absurd h List.not_mem_nil, rfl⟩

/-- Effects that offer and append nothing. -/
def Effect.Discreet : Effect → Prop
  | .store (.setInit _ _) | .store (.push _ _) => False
  | _ => True

theorem Exploring.append (h : Exploring producer past) {e : Effect} (he : e.Discreet)
    (answer : e.Answer) : Exploring producer (past ++ [⟨e, answer⟩]) := by
  constructor
  · rintro behaviours ⟨answer', hmem⟩
    rcases List.mem_append.mp hmem with hmem | hmem
    · exact h.unoffered behaviours ⟨answer', hmem⟩
    · obtain ⟨rfl, -⟩ := Act.mk.inj (List.mem_singleton.mp hmem)
      exact he.elim
  · rw [Act.pushes_append, h.unpushed, Act.pushes_singleton]
    cases e with
    | store c => cases c <;> first | rfl | exact he.elim
    | _ => rfl

namespace Engine

open SelfWiring.Action

/-- All that is made is new. -/
theorem mintAll_abides (cells : List String) : ∀ past, Exploring producer past →
    Program.Abides (exploreRules producer) (mintAll cells) past fun minted past' =>
      Exploring producer past' ∧ past ⊆ past' ∧ (minted.map (·.1)).Nodup ∧
        ∀ id ∈ minted.map (·.1), Minted past' id ∧ ¬ Minted past id := by
  induction cells with
  | nil => exact fun past h => Program.abides_pure ⟨h, List.Subset.refl _, .nil, by simp⟩
  | cons cell cells ih =>
    intro past h
    refine ⟨trivial, fun id hid => ?_⟩
    refine (ih _ (h.append (e := .mint) trivial id)).bind ?_
    rintro minted past' ⟨hexploring, hsubset, hnodup, hminted⟩
    have hold : past ⊆ past' := List.Subset.trans (List.subset_append_left _ _) hsubset
    have hid' : Minted past' id := hsubset (List.mem_append_right _ (List.mem_singleton_self _))
    refine Program.abides_pure ⟨hexploring, hold, ?_, ?_⟩
    · refine List.nodup_cons.mpr ⟨fun hmem => ?_, hnodup⟩
      exact (hminted id hmem).2 (List.mem_append_right _ (List.mem_singleton_self _))
    · intro id' hmem
      rcases List.mem_cons.mp hmem with rfl | hmem
      · exact ⟨hid', hid⟩
      · exact ⟨(hminted id' hmem).1, fun h => (hminted id' hmem).2 (List.mem_append_left _ h)⟩

/-- All that was made is bound. -/
theorem bindAll_abides (bound : List (String × String)) : ∀ past, Exploring producer past →
    (∀ id ∈ bound.map (·.1), Minted past id) →
      Abides (exploreRules producer) (Graph.bindAll bound) past fun r past' => r = .ok () ∧
        Exploring producer past' ∧ past ⊆ past' ∧ ∀ id ∈ bound.map (·.1), Bound past' id := by
  induction bound with
  | nil => exact fun past h _ => abides_pure ⟨rfl, h, List.Subset.refl _, by simp⟩
  | cons entry bound ih =>
    intro past h hminted
    refine ⟨⟨entry.1, rfl, hminted _ (by simp), h.unoffered⟩, fun answer hanswer => ?_⟩
    obtain rfl : answer = .ok () := hanswer
    refine Abides.imp (ih _ (h.append (e := .store (.set _ _)) trivial _) fun id hid => ?_) ?_
    · exact List.mem_append_left _ (hminted id (List.mem_cons_of_mem _ hid))
    rintro _ past' ⟨rfl, hexploring, hsubset, hbound⟩
    have hold : past ⊆ past' := List.Subset.trans (List.subset_append_left _ _) hsubset
    refine ⟨rfl, hexploring, hold, fun id hid => ?_⟩
    rcases List.mem_cons.mp hid with rfl | hid
    · exact ⟨entry.2, hsubset (List.mem_append_right _ (List.mem_singleton_self _))⟩
    · exact hbound id hid

/-- Whether or not its own behaviours are stored, a call reads connections back. -/
theorem connect_abides (bound : List (String × String)) (h : Exploring producer past)
    (hnodup : (bound.map (·.1)).Nodup) (hminted : ∀ id ∈ bound.map (·.1), Minted past id) :
    Abides (exploreRules producer) (Graph.connect producer bound) past fun r past' =>
      ∃ behaviours, r = .ok behaviours ∧ Adopted producer past' behaviours ∧ pushes past' = [] := by
  refine (bindAll_abides bound past h hminted).bind ?_ fun _ _ ⟨he, _⟩ => nomatch he
  rintro _ past' ⟨-, hexploring, hsubset, hbound⟩
  refine ⟨⟨rfl, hnodup, fun id hid => ⟨hsubset (hminted id hid), hbound id hid⟩⟩, ?_⟩
  rintro _ ⟨created, rfl⟩
  refine ⟨rfl, ?_⟩
  have hoffered : Offered producer (past' ++ [⟨.store (.setInit (Key.connections producer).render
      (bound.map (·.1))), .ok created⟩]) (bound.map (·.1)) :=
    ⟨_, List.mem_append_right _ (List.mem_singleton_self _)⟩
  rintro _ (⟨behaviours, rfl⟩ | ⟨_, hunoffered⟩)
  · refine ⟨behaviours, rfl, List.mem_append_right _ (List.mem_singleton_self _), ?_⟩
    rw [Act.pushes_append, Act.pushes_append, hexploring.unpushed]
    rfl
  · exact absurd hoffered (hunoffered _)

theorem explore_abides (r : Registry) (limit : UInt64) (args : List Value)
    (h : Exploring producer past) :
    Abides (exploreRules producer) (explore r limit producer args) past fun r past' =>
      ∃ behaviours, r = .ok behaviours ∧ Adopted producer past' behaviours ∧ pushes past' = [] := by
  refine ⟨trivial, fun drawn _ => ?_⟩
  have hdrawn := h.append (e := .draw limit (r.candidates args)) trivial drawn
  refine abides_bind_lift (mintAll_abides drawn _ hdrawn) ?_
  rintro minted past' ⟨hexploring, -, hnodup, hminted⟩
  exact connect_abides minted hexploring hnodup fun id hid => (hminted id hid).1

/-- Explored or known, the connections that a call goes on with are those that it has read. -/
theorem successors_abides (r : Registry) (limit : UInt64) (args : List Value) :
    Abides (exploreRules producer) (successors r limit producer args) [] fun r past' =>
      ∃ behaviours, r = .ok behaviours ∧ Adopted producer past' behaviours ∧ pushes past' = [] := by
  refine ⟨rfl, ?_⟩
  rintro _ (⟨behaviours, rfl⟩ | ⟨rfl, -⟩)
  · exact ⟨behaviours, rfl, List.mem_singleton_self _, rfl⟩
  · exact explore_abides r limit args (exploring_nil.append (e := .store (.setMembers _)) trivial _)

/-- What a call appends for a behaviour: the payload for it, with the cell that was looked up. -/
def Forwards (p : Payload) (producer : String) (past : List Act) (behaviour item : String) : Prop :=
  ∃ id cell, Minted past id ∧ Resolved past behaviour cell ∧
    item = (successorPayload p producer id behaviour cell).encode

theorem Forwards.mono {p : Payload} {behaviour item : String} {past' : List Act}
    (h : Forwards p producer past behaviour item) (hsubset : past ⊆ past') :
    Forwards p producer past' behaviour item := by
  obtain ⟨id, cell, hid, hcell, hitem⟩ := h
  exact ⟨id, cell, hsubset hid, hsubset hcell, hitem⟩

/-- One payload is appended for each of the connections, in their order. -/
theorem queueAll_abides (p : Payload) {behaviours : List String} (rest : List String) :
    ∀ past, Adopted producer past behaviours → rest ⊆ behaviours →
      Abides (exploreRules producer) (queueAll p producer rest) past fun r past' => r = .ok () ∧
        past ⊆ past' ∧ ∃ items,
          pushes past' = pushes past ++ items.map (fun item => (Key.eventQueue.render, item)) ∧
          List.Forall₂ (Forwards p producer past') rest items := by
  induction rest with
  | nil => 
    exact fun past _ _ => abides_pure ⟨rfl, List.Subset.refl _, [], (List.append_nil _).symm, .nil⟩
  | cons behaviour rest ih =>
    intro past hadopted hrest
    refine ⟨⟨behaviour, behaviours, rfl, hadopted, hrest (List.mem_cons_self)⟩, ?_⟩
    rintro _ ⟨cell, rfl⟩
    refine ⟨trivial, fun id _ => ?_⟩
    refine ⟨trivial, ?_⟩
    rintro _ rfl
    refine ⟨trivial, fun _ _ => ?_⟩
    -- what was done for this behaviour, and then what is done for the others
    generalize hpast₁ : past ++ _ ++ _ ++ _ ++ _ = past₁
    have hsubset₁ : past ⊆ past₁ := by
      rw [← hpast₁]
      intro a ha
      simp [ha]
    have hforwards : Forwards p producer past₁ behaviour
        (successorPayload p producer id behaviour cell).encode := by
      refine ⟨id, cell, ?_, ?_, rfl⟩ <;> rw [← hpast₁]
      · simp [Minted]
      · simp [Resolved]
    have hpushes₁ : pushes past₁ = pushes past ++
        [(Key.eventQueue.render, (successorPayload p producer id behaviour cell).encode)] := by
      rw [← hpast₁]
      simp only [Act.pushes_append, List.append_assoc]
      rfl
    refine Abides.imp (ih past₁ (hsubset₁ hadopted) fun b hb => hrest (.tail _ hb)) ?_
    rintro _ past' ⟨rfl, hsubset, items, hpushes, hitems⟩
    refine ⟨rfl, List.Subset.trans hsubset₁ hsubset, _ :: items, ?_,
      .cons (hforwards.mono hsubset) hitems⟩
    rw [hpushes, hpushes₁, List.append_assoc]
    rfl

/-- What a call that forwards a payload comes to: the number of the connections that it has read,
for each of which it has appended a payload. -/
def Forwarded (producer : String) (p : Payload) (r : Except EngineError Nat) (past : List Act) :
    Prop :=
  ∃ behaviours items, r = .ok behaviours.length ∧ Adopted producer past behaviours ∧
    pushes past = items.map (fun item => (Key.eventQueue.render, item)) ∧
    List.Forall₂ (Forwards p producer past) behaviours items

theorem forward_abides (r : Registry) (limit : UInt64) {p : Payload}
    (hproducer : p.context.behaviour = some producer) :
    Abides (exploreRules producer) (forward r limit p) [] (Forwarded producer p) := by
  unfold forward
  rw [hproducer]
  refine (successors_abides r limit p.args).bind_adapt ?_ fun _ _ ⟨_, he, _⟩ => nomatch he
  rintro behaviours past₁ ⟨_, hr, hadopted, hpushes₁⟩
  obtain rfl := Except.ok.inj hr
  refine (queueAll_abides p behaviours past₁ hadopted (List.Subset.refl _)).bind_adapt ?_
    fun _ _ ⟨he, _⟩ => nomatch he
  rintro _ past₂ ⟨-, hsubset, items, hpushes₂, hitems⟩
  refine abides_pure ⟨behaviours, items, rfl, hsubset hadopted, ?_, hitems⟩
  rw [hpushes₂, hpushes₁, List.nil_append]

end Engine

/-! ## What the rules entail -/

/-- What was offered was made and bound before. -/
theorem Rules.Lawful.offered (h : (exploreRules producer).Lawful past) {behaviours : List String}
    (hoffered : Offered producer past behaviours) :
    behaviours.Nodup ∧ ∀ b ∈ behaviours, Minted past b ∧ Bound past b := by
  obtain ⟨answer, hmem⟩ := hoffered
  induction h with
  | nil => exact absurd hmem List.not_mem_nil
  | @snoc past e answer' hpast hpermitted _ ih =>
    have hlater : (∀ b ∈ behaviours, Minted past b ∧ Bound past b) →
        ∀ b ∈ behaviours, Minted (past ++ [⟨e, answer'⟩]) b ∧ Bound (past ++ [⟨e, answer'⟩]) b := by
      intro h b hb
      obtain ⟨hminted, cell, hbound⟩ := h b hb
      exact ⟨List.mem_append_left _ hminted, cell, List.mem_append_left _ hbound⟩
    rcases List.mem_append.mp hmem with hmem | hmem
    · exact ⟨(ih hmem).1, hlater (ih hmem).2⟩
    · obtain ⟨rfl, -⟩ := Act.mk.inj (List.mem_singleton.mp hmem)
      exact ⟨hpermitted.2.1, hlater hpermitted.2.2⟩

/-- The cell of a behaviour is looked up where the behaviour was read as a connection. -/
theorem Rules.Lawful.resolved (h : (exploreRules producer).Lawful past) {behaviour cell : String}
    (hresolved : Resolved past behaviour cell) :
    ∃ behaviours, Adopted producer past behaviours ∧ behaviour ∈ behaviours := by
  induction h with
  | nil => exact absurd hresolved List.not_mem_nil
  | @snoc past e answer' hpast hpermitted _ ih =>
    rcases List.mem_append.mp hresolved with hmem | hmem
    · obtain ⟨behaviours, hadopted, hb⟩ := ih hmem
      exact ⟨behaviours, List.mem_append_left _ hadopted, hb⟩
    · obtain ⟨rfl, -⟩ := Act.mk.inj (List.mem_singleton.mp hmem)
      obtain ⟨b, behaviours, hkey, hadopted, hb⟩ := hpermitted
      obtain rfl : behaviour = b := by
        simpa using (Key.render_eq_iff_of_kept (k := .binding behaviour) trivial).mp hkey
      exact ⟨behaviours, List.mem_append_left _ hadopted, hb⟩

/-! ## The connections that are stored -/

/-- The behaviours that an act offers as the connections of a producer. -/
def Act.offer? (producer : String) : Act → Option (List String)
  | ⟨.store (.setInit key behaviours), _⟩ =>
    if key = (Key.connections producer).render then some behaviours else none
  | _ => none

theorem Act.eq_of_offer? {a : Act} {behaviours : List String}
    (h : a.offer? producer = some behaviours) : ∃ answer,
      a = ⟨.store (.setInit (Key.connections producer).render behaviours), answer⟩ := by
  unfold offer? at h
  split at h
  · split at h
    · rename_i answer hkey
      subst hkey
      obtain rfl := Option.some.inj h
      exact ⟨answer, rfl⟩
    · exact nomatch h
  · exact nomatch h

/-- The behaviours that were offered first. -/
def firstOffer (producer : String) (acts : List (Nat × Act)) : Option (List String) :=
  acts.findSome? fun a => a.2.offer? producer

variable {σ : Type} [Store σ] [FaultFree σ]

section

variable {e : Effect} {w : World σ}

/-- Only an offer changes the connections, and only where there are none. -/
theorem World.answer_connections (he : (exploreRules producer).permits past e) :
    (w.answer e).2.connections producer =
      (w.connections producer).or (Act.offer? producer ⟨e, (w.answer e).1⟩) := by
  have hkept : w.connections producer = (w.connections producer).or none := Option.or_none.symm
  cases e with
  | store c =>
    have hsame : ∀ {answer : Except StoreError c.Answer} {after : Contents},
        Performs FaultFree.contents c w.store answer after → after.set = w.contents.set →
          (w.answer (.store c)).2.connections producer = w.connections producer := by
      rintro answer after ⟨-, hafter⟩ hset
      show (FaultFree.contents (Store.perform c w.store).2).set _ = w.contents.set _
      rw [hafter, hset]
    cases c
    case setInit key behaviours =>
      obtain ⟨rfl, hnodup, -⟩ := he
      rw [show ∀ answer, Act.offer? producer ⟨.store (.setInit _ behaviours), answer⟩ =
        some behaviours from fun _ => if_pos rfl]
      show (FaultFree.contents (Store.perform _ w.store).2).set _ = _
      cases hset : w.connections producer with
      | none =>
        rw [(FaultFree.setInit_none _ behaviours w.store hset).2,
          show addMembers [] behaviours = behaviours from addMembers_of_nodup hnodup]
        exact Function.update_self ..
      | some present =>
        rw [(FaultFree.setInit_some _ behaviours w.store present hset).2]
        exact hset
    case get key => exact (hsame (FaultFree.get key w.store) rfl).trans hkept
    case set key value => exact (hsame (FaultFree.set key value w.store) rfl).trans hkept
    case push list item => exact (hsame (FaultFree.push list item w.store) rfl).trans hkept
    case setMembers key => exact (hsame (FaultFree.setMembers key w.store) rfl).trans hkept
    all_goals exact he.elim
  | _ => first | exact hkept | exact he.elim

/-- Only binding a behaviour changes a text, and it changes the text of the behaviour alone. -/
theorem World.answer_text (he : (exploreRules producer).permits past e) (key : String) :
    (w.answer e).2.contents.text key = w.contents.text key ∨
      ∃ value, e = .store (.set key value) ∧
        (w.answer e).2.contents.text key = some value := by
  cases e with
  | store c =>
    have hsame : ∀ {answer : Except StoreError c.Answer} {after : Contents},
        Performs FaultFree.contents c w.store answer after → after.text = w.contents.text →
          (w.answer (.store c)).2.contents.text key = w.contents.text key := by
      rintro answer after ⟨-, hafter⟩ htext
      show (FaultFree.contents (Store.perform c w.store).2).text _ = w.contents.text _
      rw [hafter, htext]
    cases c
    case set k value =>
      have hafter : (w.answer (.store (.set k value))).2.contents = w.contents.putText k value :=
        (FaultFree.set k value w.store).2
      rw [hafter]
      by_cases hk : key = k
      · subst hk
        exact Or.inr ⟨value, rfl, Function.update_self ..⟩
      · exact Or.inl (Function.update_of_ne hk _ _)
    case setInit k behaviours =>
      cases hset : (FaultFree.contents w.store).set k with
      | none => exact Or.inl (hsame (FaultFree.setInit_none k behaviours w.store hset) rfl)
      | some present =>
        exact Or.inl (hsame (FaultFree.setInit_some k behaviours w.store present hset) rfl)
    case get k => exact Or.inl (hsame (FaultFree.get k w.store) rfl)
    case push list item => exact Or.inl (hsame (FaultFree.push list item w.store) rfl)
    case setMembers k => exact Or.inl (hsame (FaultFree.setMembers k w.store) rfl)
    all_goals exact he.elim
  | _ => first | exact Or.inl rfl | exact he.elim

end

/-- What holds while a behaviour is explored: no identifier was made by two calls, the first offer
is stored, all that was bound is bound, and whatever was read is still so. -/
structure Exploration (producer : String) (w₀ w : World σ) (acts : List (Nat × Act)) : Prop where
  lists : Appended w₀ w acts
  minted : ∀ i id, Minted (own i acts) id → ∃ m, m < w.minted ∧ id = Identifier.render m
  sole : ∀ i j id, Minted (own i acts) id → Minted (own j acts) id → i = j
  stored : w.connections producer = firstOffer producer acts
  bound : ∀ i b, Bound (own i acts) b → (w.text (.binding b)).isSome = true
  adopted : ∀ i behaviours, Adopted producer (own i acts) behaviours →
    w.connections producer = some behaviours
  resolved : ∀ i b cell, Resolved (own i acts) b cell → w.text (.binding b) = some cell

namespace Exploration

variable {w₀ w : World σ} {acts : List (Nat × Act)} {behaviours : List String}
  (h : Exploration producer w₀ w acts) (hlawful : ∀ i, (exploreRules producer).Lawful (own i acts))
include h

theorem unminted (i : Nat) : ¬ Minted (own i acts) (Identifier.render w.minted) := by
  intro hminted
  obtain ⟨m, hm, heq⟩ := h.minted i _ hminted
  exact absurd (Identifier.render_inj.mp heq) (Nat.ne_of_gt hm)

/-- What is bound stays bound. -/
theorem bound_answered {i j : Nat} {b : String} {e : Effect}
    (hpermitted : (exploreRules producer).permits (own j acts) e)
    (hbound : Bound (own i (acts ++ [(j, ⟨e, (w.answer e).1⟩)])) b) :
    ((w.answer e).2.text (.binding b)).isSome = true := by
  obtain ⟨cell, hmem⟩ := hbound
  rcases Act.mem_own_append.mp hmem with hmem | ⟨-, heq⟩
  · rcases World.answer_text (w := w) hpermitted (Key.binding b).render with htext | ⟨v, -, htext⟩
    · rw [World.text, htext]
      exact h.bound i b ⟨cell, hmem⟩
    · rw [World.text, htext]
      rfl
  · obtain ⟨rfl, -⟩ := Act.mk.inj heq
    have hafter : (w.answer (.store (.set (Key.binding b).render cell))).2.contents =
      w.contents.putText (Key.binding b).render cell := (FaultFree.set _ cell w.store).2
    have htext : (w.contents.putText (Key.binding b).render cell).text (Key.binding b).render =
      some cell := Function.update_self ..
    rw [World.text, hafter, htext]
    rfl

include hlawful

/-- The stored connections were offered by some call, which has made and bound them before. -/
theorem exists_offered (hstored : w.connections producer = some behaviours) : ∃ i,
    Offered producer (own i acts) behaviours ∧
      ∀ b ∈ behaviours, Minted (own i acts) b ∧ Bound (own i acts) b := by
  rw [h.stored] at hstored
  obtain ⟨⟨i, a⟩, hmem, hoffer⟩ := List.exists_of_findSome?_eq_some hstored
  obtain ⟨answer, rfl⟩ := Act.eq_of_offer? hoffer
  have hoffered : Offered producer (own i acts) behaviours := ⟨answer, Act.mem_own.mpr hmem⟩
  exact ⟨i, hoffered, ((hlawful i).offered hoffered).2⟩

/-- Whoever may bind a behaviour has made it and not offered it, so it is not among those stored. -/
theorem not_mem_of_permits (hstored : w.connections producer = some behaviours) {j : Nat}
    {b value : String} (hpermitted : (exploreRules producer).permits (own j acts)
      (.store (.set (Key.binding b).render value))) : b ∉ behaviours := by
  intro hb
  obtain ⟨i, hoffered, hmade⟩ := h.exists_offered hlawful hstored
  obtain ⟨b', hkey, hminted, hunoffered⟩ := hpermitted
  obtain rfl : b = b' := by
    simpa using (Key.render_eq_iff_of_kept (k := .binding b) trivial).mp hkey
  obtain rfl := h.sole i j b (hmade b hb).1 hminted
  exact hunoffered _ hoffered

variable {j : Nat} {e : Effect} (hpermitted : (exploreRules producer).permits (own j acts) e)
include hpermitted

/-- Stored connections stay as they are, and so do the cells of their members. -/
theorem answer_kept (hstored : w.connections producer = some behaviours) :
    (w.answer e).2.connections producer = some behaviours ∧
      ∀ b ∈ behaviours, (w.answer e).2.text (.binding b) = w.text (.binding b) := by
  constructor
  · rw [World.answer_connections hpermitted, hstored]
    rfl
  · intro b hb
    rcases World.answer_text (w := w) hpermitted (Key.binding b).render with htext | ⟨v, rfl, -⟩
    · exact htext
    · exact absurd hb (h.not_mem_of_permits hlawful hstored hpermitted)

theorem credited : (exploreRules producer).credits (own j acts) e (w.answer e).1 := by
  cases e with
  | store c =>
    cases c with
    | get key =>
      obtain ⟨b, behaviours, rfl, hadopted, hb⟩ := hpermitted
      have hstored := h.adopted j behaviours hadopted
      obtain ⟨i, -, hmade⟩ := h.exists_offered hlawful hstored
      obtain ⟨cell, hcell⟩ := Option.isSome_iff_exists.mp (h.bound i b (hmade b hb).2)
      refine ⟨cell, (FaultFree.get _ w.store).1.trans ?_⟩
      rw [show (FaultFree.contents w.store).text _ = some cell from hcell]
      rfl
    | setMembers key =>
      obtain rfl := hpermitted
      have hanswer : (w.answer (.store (.setMembers (Key.connections producer).render))).1 =
          answerFor _ (w.connections producer) := (FaultFree.setMembers _ w.store).1
      rw [hanswer]
      cases hstored : w.connections producer with
      | some behaviours => exact Or.inl ⟨behaviours, rfl⟩
      | none =>
        refine Or.inr ⟨rfl, ?_⟩
        rintro behaviours ⟨answer, hmem⟩
        rw [h.stored, firstOffer, List.findSome?_eq_none_iff] at hstored
        have hnone := hstored _ (Act.mem_own.mp hmem)
        rw [Act.offer?, if_pos rfl] at hnone
        exact nomatch hnone
    | setInit key behaviours =>
      cases hset : (FaultFree.contents w.store).set key with
      | none => exact ⟨true, (FaultFree.setInit_none key behaviours w.store hset).1⟩
      | some present =>
        exact ⟨false, (FaultFree.setInit_some key behaviours w.store present hset).1⟩
    | set key value => exact (FaultFree.set key value w.store).1
    | push list item => exact (FaultFree.push list item w.store).1
    | _ => exact hpermitted.elim
  | mint => exact h.unminted j
  | _ => exact trivial

theorem answered : Exploration producer w₀ (w.answer e).2 (acts ++ [(j, ⟨e, (w.answer e).1⟩)]) := by
  have hkept : ∀ behaviours, w.connections producer = some behaviours →
      (w.answer e).2.connections producer = some behaviours ∧
        ∀ b ∈ behaviours, (w.answer e).2.text (.binding b) = w.text (.binding b) :=
    fun _ => h.answer_kept hlawful hpermitted
  have hmade : ∀ {i id}, Minted (own i (acts ++ [(j, ⟨e, (w.answer e).1⟩)])) id →
      Minted (own i acts) id ∨ i = j ∧ e = .mint ∧ id = Identifier.render w.minted := by
    intro i id hminted
    refine (Act.mem_own_append.mp hminted).imp_right ?_
    rintro ⟨hi, heq⟩
    obtain ⟨rfl, hid⟩ := Act.mk.inj heq
    exact ⟨hi, rfl, eq_of_heq hid⟩
  constructor
  case lists =>
    apply h.lists.answer
    cases e with
    | store c => cases c <;> first | exact trivial | exact hpermitted.elim
    | _ => first | exact trivial | exact hpermitted.elim
  case minted =>
    intro i id hminted
    rcases hmade hminted with hold | ⟨-, rfl, rfl⟩
    · obtain ⟨m, hm, rfl⟩ := h.minted i id hold
      exact ⟨m, Nat.lt_of_lt_of_le hm (World.minted_le_answer e w), rfl⟩
    · exact ⟨w.minted, Nat.lt_succ_self _, rfl⟩
  case sole =>
    intro i i' id hi hi'
    rcases hmade hi with hold | ⟨rfl, -, rfl⟩ <;> rcases hmade hi' with hold' | ⟨rfl, -, hid⟩
    · exact h.sole i i' id hold hold'
    · exact absurd (hid ▸ hold) (h.unminted i)
    · exact absurd hold' (h.unminted i')
    · rfl
  case stored =>
    rw [World.answer_connections hpermitted, h.stored, firstOffer, firstOffer,
      List.findSome?_append, List.findSome?_singleton]
  case bound => exact fun i b hbound => h.bound_answered hpermitted hbound
  case adopted =>
    intro i behaviours hadopted
    rcases Act.mem_own_append.mp hadopted with hold | ⟨-, heq⟩
    · exact (hkept behaviours (h.adopted i behaviours hold)).1
    · obtain ⟨rfl, hanswer⟩ := Act.mk.inj heq
      have hread := (eq_of_heq hanswer).trans (FaultFree.setMembers _ w.store).1
      exact (hkept behaviours (answerFor_eq_ok.mp hread.symm)).1
  case resolved =>
    intro i b cell hresolved
    rcases Act.mem_own_append.mp hresolved with hold | ⟨-, heq⟩
    · obtain ⟨behaviours, hadopted, hb⟩ := (hlawful i).resolved hold
      rw [(hkept behaviours (h.adopted i behaviours hadopted)).2 b hb]
      exact h.resolved i b cell hold
    · obtain ⟨rfl, hanswer⟩ := Act.mk.inj heq
      have hread := (eq_of_heq hanswer).trans (FaultFree.get _ w.store).1
      have hafter := (FaultFree.get (Key.binding b).render w.store).2
      exact (congrFun (congrArg Contents.text hafter) _).trans (answerFor_eq_ok.mp hread.symm)

end Exploration

theorem exploration_governed (producer : String) (w₀ : World σ) :
    (exploreRules producer).Govern (Exploration producer w₀) where
  credits h hlawful hpermitted := h.credited hlawful hpermitted
  keeps h hlawful hpermitted := h.answered hlawful hpermitted

/-! ## Explorers -/

/-- The calls that forward some payloads, none of which has done anything yet. -/
def Crowd.forwarding (r : Registry) (limit : UInt64) (payloads : List Payload) (w : World σ) :
    Crowd σ (Except EngineError Nat) :=
  .start w (payloads.map fun p => (Engine.forward r limit p).run)

theorem orderly_forwarding {r : Registry} {limit : UInt64} {payloads : List Payload}
    (hproducer : ∀ p ∈ payloads, p.context.behaviour = some producer) {w : World σ}
    (hunexplored : w.connections producer = none) :
    (Crowd.forwarding r limit payloads w).Orderly (exploreRules producer) (Exploration producer w)
      fun i r past => ∃ p, payloads[i]? = some p ∧ Engine.Forwarded producer p r past := by
  apply Crowd.orderly_start
  · constructor
    case lists => exact appended_refl w
    case stored => exact hunexplored
    case minted | adopted => exact fun _ _ h => absurd h List.not_mem_nil
    case sole => exact fun _ _ _ h => absurd h List.not_mem_nil
    case bound => exact fun _ _ ⟨_, h⟩ => absurd h List.not_mem_nil
    case resolved => exact fun _ _ _ h => absurd h List.not_mem_nil
  · intro i p hp
    rw [List.getElem?_map] at hp
    obtain ⟨p, hpayload, rfl⟩ := Option.map_eq_some_iff.mp hp
    have hforward := Engine.forward_abides r limit (hproducer p (List.mem_of_getElem? hpayload))
    exact Program.Abides.imp hforward fun r past h => ⟨p, hpayload, h⟩

/-- However many payloads of a behaviour that was never explored are forwarded at the same time, and
in whatever order their calls are interleaved: the connections stored are those that were offered
first, each of them is bound from the moment they are stored, and neither they nor their cells ever
change. A call that has ended returns how many they are, and has appended one payload for each, in
their order, with the cell that is bound to it. -/
theorem concurrent_explores_converge {r : Registry} {limit : UInt64} {producer : String}
    {payloads : List Payload} (hproducer : ∀ p ∈ payloads, p.context.behaviour = some producer)
    {w : World σ} (hunexplored : w.connections producer = none)
    {c : Crowd σ (Except EngineError Nat)}
    (hreaches : (Crowd.forwarding r limit payloads w).Reaches c) :
    c.world.connections producer = firstOffer producer c.acts ∧
    (∀ behaviours, c.world.connections producer = some behaviours →
      (∀ b ∈ behaviours, (c.world.text (.binding b)).isSome = true) ∧
      ∀ c', c.Reaches c' → c'.world.connections producer = some behaviours ∧
        ∀ b ∈ behaviours, c'.world.text (.binding b) = c.world.text (.binding b)) ∧
    (∀ (i : Nat) (p : Payload) (result : Except EngineError Nat),
      payloads[i]? = some p → c.programs[i]? = some (.done result) →
        ∃ behaviours items, c.world.connections producer = some behaviours ∧
          result = .ok behaviours.length ∧
          pushes (own i c.acts) = items.map (fun item => (Key.eventQueue.render, item)) ∧
          List.Forall₂ (fun b item => ∃ id cell, Minted (own i c.acts) id ∧
            c.world.text (.binding b) = some cell ∧
            item = (Engine.successorPayload p producer id b cell).encode) behaviours items) ∧
    Appended w c.world c.acts := by
  have hgoverned := exploration_governed producer w
  have horderly := hreaches.orderly hgoverned (orderly_forwarding hproducer hunexplored)
  have hinv := horderly.inv
  refine ⟨hinv.stored, ?_, ?_, hinv.lists⟩
  · intro behaviours hstored
    obtain ⟨i, -, hmade⟩ := hinv.exists_offered horderly.lawful hstored
    refine ⟨fun b hb => hinv.bound i b (hmade b hb).2, fun c' hlater => ?_⟩
    refine hlater.keeps (P := fun v => v.connections producer = some behaviours ∧
      ∀ b ∈ behaviours, v.text (.binding b) = c.world.text (.binding b)) hgoverned horderly ?_
      ⟨hstored, fun _ _ => rfl⟩
    rintro v acts j e hv hlawful hpermitted ⟨hkept, hcells⟩
    obtain ⟨hkept', hcells'⟩ := hv.answer_kept hlawful hpermitted hkept
    exact ⟨hkept', fun b hb => (hcells' b hb).trans (hcells b hb)⟩
  · intro i p result hpayload hdone
    obtain ⟨p', hpayload', behaviours, items, hresult, hadopted, hpushes, hitems⟩ :=
      horderly.abides i _ hdone
    obtain rfl := Option.some.inj (hpayload.symm.trans hpayload')
    refine ⟨behaviours, items, hinv.adopted i _ hadopted, hresult, hpushes, hitems.imp ?_⟩
    rintro b item ⟨id, cell, hid, hcell, hitem⟩
    exact ⟨id, cell, hid, hinv.resolved i b cell hcell, hitem⟩

/-- Two payloads of a behaviour. -/
def twoPayloads : List Payload :=
  [{ args := [.int 2, .int 3], context := { id := "x", behaviour := some "p" },
     destination := "p", sources := [] },
    { args := [.int 4, .int 5], context := { id := "y", behaviour := some "p" },
      destination := "p", sources := [] }]

def twoExplorers : Crowd Memory (Except EngineError Nat) :=
  .forwarding ⟨[Cell.sum], List.pairwise_singleton _ _⟩ 3 twoPayloads (.inMemory 0)

/-- Both calls find no connections. Whatever they make, and in whatever order they go on, they come
to the same connections and queue as many payloads. -/
theorem concurrent_explores_converge_of_two :
    ∃ (c : Crowd Memory (Except EngineError Nat)) (behaviours : List String),
      twoExplorers.Reaches c ∧
      c.acts.take 2 = [(0, ⟨.store (.setMembers "behaviour:p:connections"),
          .error (.notFound "behaviour:p:connections")⟩),
        (1, ⟨.store (.setMembers "behaviour:p:connections"),
          .error (.notFound "behaviour:p:connections")⟩)] ∧
      c.programs = [.done (.ok behaviours.length), .done (.ok behaviours.length)] ∧
      c.world.connections "p" = some behaviours ∧
      (pushes (own 0 c.acts)).length = behaviours.length ∧
      (pushes (own 1 c.acts)).length = behaviours.length := by
  obtain ⟨c, hfinish, hfinished⟩ := ([0, 1].foldl Crowd.turn twoExplorers).exists_finished
  have hreaches : twoExplorers.Reaches c := (Crowd.reaches_turns [0, 1] twoExplorers).trans hfinish
  have hacts := List.prefix_iff_eq_take.mp (Crowd.Reaches.prefix_acts hfinish)
  have hlength : c.programs.length = 2 := Crowd.Reaches.length_programs hreaches
  obtain ⟨p, q, hprograms⟩ := List.length_eq_two.mp hlength
  obtain ⟨r, rfl⟩ := hfinished p (by simp [hprograms])
  obtain ⟨r', rfl⟩ := hfinished q (by simp [hprograms])
  have hproducer : ∀ p ∈ twoPayloads, p.context.behaviour = some "p" := by simp [twoPayloads]
  obtain ⟨-, -, hcalls, -⟩ := concurrent_explores_converge hproducer rfl hreaches
  obtain ⟨behaviours, items, hstored, rfl, hpushes, hitems⟩ :=
    hcalls 0 _ r rfl (by simp [hprograms])
  obtain ⟨behaviours', items', hstored', rfl, hpushes', hitems'⟩ :=
    hcalls 1 _ r' rfl (by simp [hprograms])
  obtain rfl := Option.some.inj (hstored.symm.trans hstored')
  refine ⟨c, behaviours, hreaches, hacts.symm, hprograms, hstored, ?_, ?_⟩
  · rw [hpushes, List.length_map, hitems.length_eq]
  · rw [hpushes', List.length_map, hitems'.length_eq]

end SelfWiring
