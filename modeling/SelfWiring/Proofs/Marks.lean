import SelfWiring.Proofs.Safety
import SelfWiring.Proofs.Scenes

/-!
# Marks

A tree is marked as done before its answer is delivered, and a walk is marked as missed before the
restart of the tree is queued. Where no call fails in between, a mark stands for what was done after
it. A call that fails in between leaves the mark alone behind, and the mark is never taken back:
the tree is not answered any more, the walk not restarted.
-/

namespace SelfWiring

/-- The keys of the two marks. -/
def Key.Mark : Key → Prop
  | .done _ | .misses _ _ => True
  | _ => False

theorem Key.Mark.kept {k : Key} (hk : k.Mark) : k.Kept := by
  cases k <;> first | exact trivial | exact hk.elim

theorem Key.Learned.not_mark {k : Key} (hk : k.Learned) : ¬ k.Mark := by
  cases k <;> first | exact hk.elim | exact not_false

/-! ## What only grows -/

namespace Scene

variable {Queued : Payload → Prop} {s t u : Scene}

/-- Deliveries and events stay in their order, and the queue gets payloads of a kind behind those
that are in it. -/
structure Grows (Queued : Payload → Prop) (s t : Scene) : Prop where
  outputs : ∀ session, s.outputs session <+: t.outputs session
  events : s.events <+: t.events
  queue : ∃ items, t.queue = s.queue ++ items ∧ ∀ item ∈ items, ∃ p, item = p.encode ∧ Queued p

/-- A scene that grows and gets no mark. -/
structure Quiet (Queued : Payload → Prop) (s t : Scene) : Prop where
  grows : s.Grows Queued t
  marks : ∀ k : Key, k.Mark → t.text k = s.text k

theorem Grows.refl (s : Scene) : s.Grows Queued s :=
  ⟨fun _ => List.prefix_refl _, List.prefix_refl _, [], (List.append_nil _).symm, by simp⟩

theorem Grows.trans (h : s.Grows Queued t) (h' : t.Grows Queued u) : s.Grows Queued u where
  outputs session := (h.outputs session).trans (h'.outputs session)
  events := h.events.trans h'.events
  queue := by
    obtain ⟨items, hqueue, hitems⟩ := h.queue
    obtain ⟨items', hqueue', hitems'⟩ := h'.queue
    refine ⟨items ++ items', by rw [hqueue', hqueue, List.append_assoc], fun item hitem => ?_⟩
    exact (List.mem_append.mp hitem).elim (hitems item) (hitems' item)

theorem Quiet.refl (s : Scene) : s.Quiet Queued s := ⟨.refl s, fun _ _ => rfl⟩

theorem Quiet.trans (h : s.Quiet Queued t) (h' : t.Quiet Queued u) : s.Quiet Queued u :=
  ⟨h.grows.trans h'.grows, fun k hk => (h'.marks k hk).trans (h.marks k hk)⟩

/-- A scene in which no list is another one. -/
theorem Grows.of_lists (h : t.contents.list = s.contents.list) (hevents : s.events <+: t.events) :
    s.Grows Queued t where
  outputs session := by
    have houtputs : t.outputs session = s.outputs session := congrFun h _
    exact houtputs ▸ List.prefix_refl _
  events := hevents
  queue := ⟨[], by rw [List.append_nil]; exact congrFun h _, by simp⟩

theorem Quiet.of_contents (h : t.contents = s.contents) (hevents : s.events <+: t.events) :
    s.Quiet Queued t :=
  ⟨.of_lists (congrArg Contents.list h) hevents, fun k _ =>
    congrFun (congrArg Contents.text h) k.render⟩

/-- Where all items of the queue are payloads of a kind, they stay so. -/
theorem Grows.queued (h : s.Grows Queued t)
    (hs : ∀ item ∈ s.queue, ∃ p, item = p.encode ∧ Queued p) :
    ∀ item ∈ t.queue, ∃ p, item = p.encode ∧ Queued p := by
  obtain ⟨items, hqueue, hitems⟩ := h.queue
  intro item hitem
  rw [hqueue] at hitem
  exact (List.mem_append.mp hitem).elim (hs item) (hitems item)

theorem write_quiet {k : Key} (hk : ¬ k.Mark) (s : Scene) (value : String) :
    s.Quiet Queued (s.write k value) := by
  refine ⟨.of_lists rfl (List.prefix_refl _), fun k' hk' => ?_⟩
  have hne : k' ≠ k := fun h => hk (h ▸ hk')
  exact Function.update_of_ne (fun h => hne ((Key.render_eq_iff_of_kept hk'.kept).mp h)) _ _

theorem write_grows (s : Scene) (k : Key) (value : String) : s.Grows Queued (s.write k value) :=
  .of_lists rfl (List.prefix_refl _)

theorem announce_quiet (s : Scene) (e : Event) : s.Quiet Queued (s.announce e) :=
  .of_contents rfl (List.prefix_append _ _)

theorem outputs_ne_eventQueue (session : String) :
    (Key.outputs session).render ≠ Key.eventQueue.render := fun h =>
  nomatch (Key.render_eq_iff_of_kept (k := .outputs session) trivial).mp h

theorem append_quiet_of_queued {p : Payload} (hp : Queued p) (s : Scene) :
    s.Quiet Queued (s.append Key.eventQueue.render p.encode) := by
  refine ⟨⟨fun session => ?_, List.prefix_refl _, [p.encode], ?_, ?_⟩, fun _ _ => rfl⟩
  · have houtputs : (s.append Key.eventQueue.render p.encode).outputs session = s.outputs session :=
      (append_list s _ _ _).trans (if_neg (outputs_ne_eventQueue session))
    exact houtputs ▸ List.prefix_refl _
  · exact (append_list s _ _ _).trans (if_pos rfl)
  · intro item hitem
    exact ⟨p, List.mem_singleton.mp hitem, hp⟩

theorem mem_append (s : Scene) (list item : String) :
    item ∈ (s.append list item).contents.list list := by
  rw [append_list, if_pos rfl]
  exact List.mem_append_right _ (List.mem_singleton_self _)

theorem append_quiet_of_outputs (session output : String) (s : Scene) :
    s.Quiet Queued (s.append (Key.outputs session).render output) := by
  refine ⟨⟨fun session' => ?_, List.prefix_refl _, [], ?_, by simp⟩, fun _ _ => rfl⟩
  · rw [outputs, outputs, append_list]
    split
    case isTrue h =>
      rw [h]
      exact List.prefix_append _ _
    case isFalse => exact List.prefix_refl _
  · rw [List.append_nil]
    exact (append_list s _ _ _).trans (if_neg (outputs_ne_eventQueue session).symm)

end Scene

/-! ## Routine -/

theorem Effect.Routine.quiet {Queued : Payload → Prop} {e : Effect} (he : e.Routine Queued)
    {s t : Scene} {answer : e.Answer} (h : e.Passes s answer t) : s.Quiet Queued t := by
  cases e with
  | store c =>
    cases c with
    | get key =>
      rcases h.of_store trivial with ⟨_, _, rfl⟩ | ⟨_, _, _, ⟨_, rfl⟩, rfl⟩ <;> exact .refl _
    | setMembers key =>
      rcases h.of_store trivial with ⟨_, _, rfl⟩ | ⟨_, _, _, ⟨_, rfl⟩, rfl⟩ <;> exact .refl _
    | setInit key members =>
      rcases h.of_store trivial with ⟨_, _, rfl⟩ | ⟨_, _, _, ⟨_, _, rfl⟩ | ⟨_, _, rfl⟩, rfl⟩
      · exact .refl _
      · exact ⟨.of_lists rfl (List.prefix_refl _), fun _ _ => rfl⟩
      · exact .refl _
    | set key value =>
      obtain ⟨k, hk, rfl⟩ := he
      rcases h.of_store trivial with ⟨_, _, rfl⟩ | ⟨_, _, _, rfl, rfl⟩
      · exact .refl _
      · exact s.write_quiet hk.not_mark value
    | push list item =>
      obtain ⟨rfl, p, hp, rfl⟩ := he
      rcases h.of_store trivial with ⟨_, _, rfl⟩ | ⟨_, _, _, rfl, rfl⟩
      · exact .refl _
      · exact s.append_quiet_of_queued hp
    | incr _ | pop _ | len _ | setAdd _ _ | zadd _ _ _ | zrange _ | randomKey _ | countKeys _ =>
      exact he.elim
  | mint =>
    obtain ⟨⟨_, hheld⟩, hevents⟩ := h
    exact .of_contents (congrArg (·.contents) hheld) (hevents ▸ List.prefix_append _ _)
  | draw limit candidates => rw [h.eq h.comesTo.2 rfl]; exact .refl _
  | publish event =>
    obtain ⟨hheld, hevents⟩ := h
    exact .of_contents (congrArg Holding.contents hheld) (hevents ▸ List.prefix_append _ _)
  | signal queue => rw [h.eq h.comesTo rfl]; exact .refl _
  | elsewhere _ | clock | sleep _ | await _ _ | stop _ | stopping | join => exact he.elim

theorem Action.Only.quiet {ε α : Type} {Queued : Payload → Prop} {a : Action ε α}
    (h : Only (Effect.Routine Queued) a) {s t : Scene} {r : Except ε α} (hr : a.Yields s r t) :
    s.Quiet Queued t :=
  Program.Only.relates Scene.Quiet.refl Scene.Quiet.trans (fun he hpasses => he.quiet hpasses) h hr

/-! ## What a mark stands for -/

/-- Payloads that know the record of the text that their tree began with. -/
def Payload.Recorded (p : Payload) : Prop := p.context.information.isSome = true

/-- What stands behind a mark that is made in a context, where the scene in the end and the items
that were queued are given. The tree was answered, or the walk was restarted, or no restart was
left, or else a call failed. -/
def Key.Honoured (ctx : Context) (failed : CellError → Prop) (queued : List String) (t : Scene) :
    Key → Prop
  | .done tree => ctx.tree = some tree ∧
      ((∃ session output, ctx.session = some session ∧
          Event.emitted session tree output ∈ t.events ∧ output ∈ t.outputs session) ∨
        ∃ failure, failed (.store failure))
  | .misses tree pass => ctx.tree = some tree ∧ ctx.pass = pass ∧
      ((∃ attempt, failed (.expectationNotMet tree attempt) ∧ ∃ q : Payload, q.encode ∈ queued ∧
          q.context.tree = some tree ∧ q.context.pass = pass + 1) ∨
        (∃ attempts, failed (.budgetExhausted tree attempts)) ∨ ∃ failure, failed (.store failure))
  | _ => False

/-- A scene that grows, and in which there is something behind every mark that is new. -/
structure Marked (ctx : Context) (failed : CellError → Prop) (s t : Scene) : Prop where
  grows : s.Grows Payload.Recorded t
  marks : ∀ k : Key, k.Mark → (t.text k).isSome = true →
    (s.text k).isSome = true ∨ k.Honoured ctx failed (t.queue.drop s.queue.length) t

section

variable {ctx : Context} {failed failed' : CellError → Prop} {queued queued' : List String}
  {s m t : Scene} {k : Key}

theorem Scene.Quiet.marked (h : s.Quiet Payload.Recorded t) : Marked ctx failed s t where
  grows := h.grows
  marks k hk hsome := Or.inl (h.marks k hk ▸ hsome)

theorem Key.Honoured.imp (h : k.Honoured ctx failed queued t)
    (himp : ∀ e, failed e → failed' e) : k.Honoured ctx failed' queued t := by
  cases k with
  | done tree =>
    obtain ⟨htree, hanswered | ⟨failure, hfailure⟩⟩ := h
    · exact ⟨htree, Or.inl hanswered⟩
    · exact ⟨htree, Or.inr ⟨failure, himp _ hfailure⟩⟩
  | misses tree pass =>
    obtain ⟨htree, hpass, ⟨attempt, hmiss, hq⟩ | ⟨attempts, hmiss⟩ | ⟨failure, hfailure⟩⟩ := h
    · exact ⟨htree, hpass, Or.inl ⟨attempt, himp _ hmiss, hq⟩⟩
    · exact ⟨htree, hpass, Or.inr (Or.inl ⟨attempts, himp _ hmiss⟩)⟩
    · exact ⟨htree, hpass, Or.inr (Or.inr ⟨failure, himp _ hfailure⟩)⟩
  | _ => exact h.elim

/-- What was done stays done. -/
theorem Key.Honoured.grow (h : k.Honoured ctx failed queued s)
    (houtputs : ∀ session, s.outputs session <+: t.outputs session)
    (hevents : s.events <+: t.events) :
    k.Honoured ctx failed queued t := by
  cases k with
  | done tree =>
    obtain ⟨htree, ⟨session, output, hsession, hevent, houtput⟩ | hfailed⟩ := h
    · exact ⟨htree, Or.inl ⟨session, output, hsession, hevents.subset hevent,
        (houtputs session).subset houtput⟩⟩
    · exact ⟨htree, Or.inr hfailed⟩
  | misses tree pass => exact h
  | _ => exact h.elim

theorem Key.Honoured.queue (h : k.Honoured ctx failed queued t) (hqueued : queued ⊆ queued') :
    k.Honoured ctx failed queued' t := by
  cases k with
  | done tree => exact h
  | misses tree pass =>
    obtain ⟨htree, hpass, ⟨attempt, hattempt, q, hq, hrestart⟩ | hfailed⟩ := h
    · exact ⟨htree, hpass, Or.inl ⟨attempt, hattempt, q, hqueued hq, hrestart⟩⟩
    · exact ⟨htree, hpass, Or.inr hfailed⟩
  | _ => exact h.elim

theorem Marked.imp (h : Marked ctx failed s t) (himp : ∀ e, failed e → failed' e) :
    Marked ctx failed' s t :=
  ⟨h.grows, fun k hk hsome => (h.marks k hk hsome).imp_right (·.imp himp)⟩

theorem Marked.trans_quiet (h : Marked ctx failed s m) (hquiet : m.Quiet Payload.Recorded t) :
    Marked ctx failed s t where
  grows := h.grows.trans hquiet.grows
  marks k hk hsome := by
    refine (h.marks k hk (hquiet.marks k hk ▸ hsome)).imp_right fun hhonoured => ?_
    obtain ⟨items, hqueue, -⟩ := hquiet.grows.queue
    refine (hhonoured.grow hquiet.grows.outputs hquiet.grows.events).queue ?_
    rw [hqueue, List.drop_append]
    exact List.subset_append_left _ _

/-- A mark is made and nothing but quiet things are done after it. -/
theorem Marked.of_write {value : String} (hk : k.Mark)
    (hquiet : (s.write k value).Quiet Payload.Recorded t) (h : (s.text k).isSome = true ∨
      k.Honoured ctx failed (t.queue.drop s.queue.length) t) : Marked ctx failed s t where
  grows := (s.write_grows k value).trans hquiet.grows
  marks k' hk' hsome := by
    rw [hquiet.marks k' hk', Scene.write_text hk.kept] at hsome
    split at hsome
    case isTrue heq => exact heq ▸ h
    case isFalse => exact Or.inl hsome

end

/-- The first count under a key is one. -/
theorem isSome_of_nextCount_ne_one {stored : Option String} (h : nextCount stored ≠ 1) :
    stored.isSome = true := by
  cases stored with
  | none => exact absurd rfl h
  | some value => rfl

/-! ## The output cell -/

namespace Cell

variable {ctx : Context} {s t : Scene} {tree : String}

theorem claimAnswer_yields {r : Except StoreError Bool}
    (h : Action.Yields (claimAnswer tree) s r t) :
    (t = s ∧ (r = .ok true → tree = "")) ∨ tree ≠ "" ∧
      ∃ value, t = s.write (.done tree) value ∧
        (r = .ok true ∨ r = .ok false ∧ (s.text (.done tree)).isSome = true) := by
  unfold claimAnswer at h
  split at h
  case isTrue htree => exact Or.inl ⟨h.of_pure.2, fun _ => htree⟩
  case isFalse htree =>
    rcases h.of_bind with ⟨e, hcount, rfl⟩ | ⟨count, m, hcount, hrest⟩
    · rcases hcount.of_incr with ⟨_, _, rfl⟩ | ⟨hr, _⟩
      · exact Or.inl ⟨rfl, fun h => nomatch h⟩
      · exact nomatch hr
    · rcases hcount.of_incr with ⟨_, hr, _⟩ | ⟨hr, rfl⟩
      · exact nomatch hr
      · obtain ⟨rfl, rfl⟩ := hrest.of_pure
        refine Or.inr ⟨htree, _, rfl, ?_⟩
        by_cases hone : count = 1
        · exact Or.inl (by rw [hone]; rfl)
        · refine Or.inr ⟨congrArg _ (beq_eq_false_iff_ne.mpr hone), ?_⟩
          exact isSome_of_nextCount_ne_one (Except.ok.inj hr ▸ hone)

theorem deliver_yields {output : String} {r : Except CellError Unit}
    (h : Action.Yields (deliver ctx output) s r t) : Marked ctx (fun e => r = .error e) s t := by
  unfold deliver at h
  split at h
  case h_1 =>
    obtain ⟨-, rfl⟩ := h.of_throw
    exact (Scene.Quiet.refl _).marked
  case h_2 session hsession =>
    rcases h.of_bind_adapt with ⟨e, hclaim, rfl⟩ | ⟨claimed, m, hclaim, hrest⟩
    · rcases claimAnswer_yields hclaim with ⟨rfl, -⟩ | ⟨_, _, _, hr | ⟨hr, _⟩⟩
      · exact (Scene.Quiet.refl _).marked
      · exact nomatch hr
      · exact nomatch hr
    · split at hrest
      case isFalse hfalse =>
        obtain ⟨rfl, rfl⟩ := hrest.of_pure
        rcases claimAnswer_yields hclaim with ⟨rfl, -⟩ | ⟨_, _, rfl, hr | ⟨_, hsome⟩⟩
        · exact (Scene.Quiet.refl _).marked
        · exact absurd (Except.ok.inj hr) hfalse
        · exact .of_write (k := .done _) trivial (.refl _) (Or.inl hsome)
      case isTrue =>
        obtain ⟨hquiet, hanswered⟩ : m.Quiet Payload.Recorded t ∧
            ((∃ failure, r = .error (.store failure)) ∨
              Event.emitted session (ctx.tree.getD "") output ∈ t.events ∧
                output ∈ t.outputs session) := by
          rcases hrest.of_bind_adapt with ⟨failure, hpush, rfl⟩ | ⟨_, _, hpush, hpublish⟩
          · rcases hpush.of_push with ⟨_, _, rfl⟩ | ⟨hr, _⟩
            · exact ⟨.refl _, Or.inl ⟨failure, rfl⟩⟩
            · exact nomatch hr
          · rcases hpush.of_push with ⟨_, hr, _⟩ | ⟨_, rfl⟩
            · exact nomatch hr
            obtain ⟨rfl, rfl⟩ := hpublish.of_publish
            refine ⟨(m.append_quiet_of_outputs session output).trans (Scene.announce_quiet _ _),
              Or.inr ⟨List.mem_append_right _ (List.mem_singleton_self _), ?_⟩⟩
            exact m.mem_append _ output
        rcases claimAnswer_yields hclaim with ⟨rfl, -⟩ | ⟨htree, _, rfl, -⟩
        · exact hquiet.marked
        · refine .of_write (k := .done _) trivial hquiet (Or.inr ⟨?_, ?_⟩)
          · cases hctx : ctx.tree with
            | none => exact absurd (by rw [hctx]; rfl) htree
            | some tree => rfl
          · exact hanswered.symm.imp_left fun ⟨hevent, houtput⟩ =>
              ⟨session, output, hsession, hevent, houtput⟩

/-- A restart is queued, or a call failed. -/
theorem queueRestart_yields {r : Except CellError Unit} (hrecorded : ctx.information.isSome = true)
    (h : Action.Yields (queueRestart ctx tree) s r t) : s.Quiet Payload.Recorded t ∧
      ((∃ failure, r = .error (.store failure)) ∨ r = .ok () ∧ ∃ q : Payload,
        t.queue = s.queue ++ [q.encode] ∧ q.context.tree = ctx.tree ∧
        q.context.pass = ctx.pass + 1) := by
  unfold queueRestart at h
  split at h
  case h_1 hnone => exact absurd hrecorded (by rw [hnone]; simp)
  case h_2 information hinformation =>
    rcases h.of_bind_get with ⟨failure, rfl, rfl⟩ | ⟨text, htext⟩
    · exact ⟨.refl _, Or.inl ⟨failure, rfl⟩⟩
    rcases htext.of_bind_get with ⟨failure, rfl, rfl⟩ | ⟨first, hfirst⟩
    · exact ⟨.refl _, Or.inl ⟨failure, rfl⟩⟩
    rcases hfirst.of_bind_get with ⟨failure, rfl, rfl⟩ | ⟨cell, hcell⟩
    · exact ⟨.refl _, Or.inl ⟨failure, rfl⟩⟩
    rcases hcell.of_bind with ⟨_, hmint, _⟩ | ⟨id, m, hmint, hid⟩
    · obtain ⟨_, hr, _⟩ := hmint.of_mint
      exact nomatch hr
    obtain ⟨_, _, rfl⟩ := hmint.of_mint
    have hminted : s.Quiet Payload.Recorded { s with minted := s.minted + 1 } :=
      .of_contents rfl (List.prefix_refl _)
    obtain ⟨r', hpush, rfl⟩ := hid.of_adapt
    rcases Action.Yields.of_queue_push hpush with ⟨failure, rfl, rfl⟩ | ⟨rfl, rfl⟩
    · exact ⟨hminted, Or.inl ⟨failure, rfl⟩⟩
    · refine ⟨hminted.trans (Scene.append_quiet_of_queued ?_ _),
        Or.inr ⟨rfl, restartPayload ctx id text first cell, ?_, rfl, rfl⟩⟩
      · exact hrecorded
      · exact (Scene.append_list _ _ _ _).trans (if_pos rfl)

theorem retraverse_yields {limit : UInt32} {r : Except CellError (Option Int64)}
    (hrecorded : ctx.information.isSome = true) (htree : ctx.tree = some tree)
    (h : Action.Yields (retraverse limit ctx tree) s r t) :
    Marked ctx (fun e => r = .error e ∨
      ∃ attempt, r = .ok (some attempt) ∧ e = .expectationNotMet tree attempt) s t := by
  rcases h.of_bind_incr (k := .misses tree ctx.pass) with ⟨_, rfl, rfl⟩ | hrest
  · exact (Scene.Quiet.refl _).marked
  split at hrest
  case isTrue hlater =>
    obtain ⟨-, rfl⟩ := hrest.of_pure
    refine .of_write (k := .misses _ _) trivial (.refl _) (Or.inl ?_)
    refine isSome_of_nextCount_ne_one fun hone => absurd hlater ?_
    rw [hone]
    decide
  case isFalse =>
    generalize countText (nextCount (s.text (.misses tree ctx.pass))) = count at hrest
    obtain ⟨hquiet, hrestarted⟩ :
        (s.write (.misses tree ctx.pass) count).Quiet Payload.Recorded t ∧
          ((∃ failure, r = .error (.store failure)) ∨
            (∃ attempts, r = .error (.budgetExhausted tree attempts)) ∨
            ∃ attempt, r = .ok (some attempt) ∧ ∃ q : Payload, t.queue = s.queue ++ [q.encode] ∧
              q.context.tree = ctx.tree ∧ q.context.pass = ctx.pass + 1) := by
      rcases hrest.of_bind_incr (k := .retraversals tree) with ⟨failure, rfl, rfl⟩ | hattempt
      · exact ⟨.refl _, Or.inl ⟨failure, rfl⟩⟩
      have hcounted (v : Scene) (value : String) :
          v.Quiet Payload.Recorded (v.write (.retraversals tree) value) :=
        v.write_quiet (k := .retraversals tree) not_false value
      split at hattempt
      case isTrue =>
        obtain ⟨rfl, rfl⟩ := hattempt.of_throw
        exact ⟨hcounted _ _, Or.inr (Or.inl ⟨_, rfl⟩)⟩
      case isFalse =>
        rcases hattempt.of_bind with ⟨e, hqueued, rfl⟩ | ⟨_, u, hqueued, hdone⟩
        · obtain ⟨hquiet, ⟨failure, hr⟩ | ⟨hr, _⟩⟩ := queueRestart_yields hrecorded hqueued
          · exact ⟨(hcounted _ _).trans hquiet, Or.inl ⟨failure, congrArg _ (Except.error.inj hr)⟩⟩
          · exact nomatch hr
        · obtain ⟨rfl, rfl⟩ := hdone.of_pure
          obtain ⟨hquiet, ⟨_, hr⟩ | ⟨_, hq⟩⟩ := queueRestart_yields hrecorded hqueued
          · exact nomatch hr
          · exact ⟨(hcounted _ _).trans hquiet, Or.inr (Or.inr ⟨_, rfl, hq⟩)⟩
    refine .of_write (k := .misses _ _) trivial hquiet (Or.inr ⟨htree, rfl, ?_⟩)
    rcases hrestarted with ⟨failure, rfl⟩ | ⟨attempts, rfl⟩ | ⟨attempt, rfl, q, hqueue, hq, hpass⟩
    · exact Or.inr (Or.inr ⟨failure, Or.inl rfl⟩)
    · exact Or.inr (Or.inl ⟨attempts, Or.inl rfl⟩)
    · refine Or.inl ⟨attempt, Or.inr ⟨attempt, rfl, rfl⟩, q, ?_, hq.trans htree, hpass⟩
      rw [hqueue, List.drop_left]
      exact List.mem_singleton_self _

theorem conclude_yields {limit : UInt32} {output : String} {r : Except CellError (List Value)}
    (hrecorded : ctx.information.isSome = true)
    (h : Action.Yields (conclude limit ctx output) s r t) :
    Marked ctx (fun e => r = .error e) s t := by
  unfold conclude at h
  split at h
  case isTrue =>
    rcases h.of_bind with ⟨e, hdeliver, rfl⟩ | ⟨_, m, hdeliver, hdone⟩
    · exact (deliver_yields hdeliver).imp fun _ he => congrArg _ (Except.error.inj he)
    · obtain ⟨rfl, rfl⟩ := hdone.of_pure
      exact (deliver_yields hdeliver).imp fun _ he => nomatch he
  case isFalse =>
    split at h
    case h_1 =>
      obtain ⟨-, rfl⟩ := h.of_throw
      exact (Scene.Quiet.refl _).marked
    case h_2 tree htree =>
      rcases h.of_bind with ⟨e, hretraverse, rfl⟩ | ⟨attempt?, m, hretraverse, hdone⟩
      · refine (retraverse_yields hrecorded htree hretraverse).imp ?_
        rintro e' (he | ⟨_, hr, _⟩)
        · exact congrArg _ (Except.error.inj he)
        · exact nomatch hr
      · have hmarked := retraverse_yields hrecorded htree hretraverse
        cases attempt? with
        | some attempt =>
          obtain ⟨rfl, rfl⟩ := hdone.of_throw
          refine hmarked.imp ?_
          rintro e' (he | ⟨_, hr, rfl⟩)
          · exact nomatch he
          · rw [Option.some.inj (Except.ok.inj hr)]
        | none =>
          obtain ⟨rfl, rfl⟩ := hdone.of_pure
          refine hmarked.imp ?_
          rintro e' (he | ⟨_, hr, _⟩)
          · exact nomatch he
          · exact nomatch hr

/-- Looking whether there is an answer changes nothing. -/
theorem isAnswered_yields {r : Except StoreError Bool}
    (h : Action.Yields (isAnswered ctx) s r t) : t = s := by
  have honly : Action.Only (fun e => ∃ key, e = .store (.get key)) (isAnswered ctx) := by
    unfold isAnswered
    split
    · exact Action.only_pure false
    · exact (Action.only_call ⟨_, rfl⟩).orAbsent.bind fun _ => Action.only_pure _
  refine Program.Only.relates (R := fun s t => t = s) (fun _ => rfl) (fun h h' => h'.trans h) ?_
    honly h
  rintro _ s t _ ⟨key, rfl⟩ hget
  exact Action.Yields.of_get (Program.Yields.perform hget (.done _ t))

/-- Whatever calls fail, the output cell makes no mark without doing what the mark stands for,
unless it fails itself. -/
theorem output_yields {limit : UInt32} {args : List Value} {r : Except CellError (List Value)}
    (hrecorded : ctx.information.isSome = true)
    (h : Action.Yields ((output limit).call ctx args) s r t) :
    Marked ctx (fun e => r = .error e) s t := by
  cases args with
  | nil =>
    obtain ⟨-, rfl⟩ := h.of_throw
    exact (Scene.Quiet.refl _).marked
  | cons v vs =>
    rcases h.of_bind_adapt with ⟨e, hanswered, rfl⟩ | ⟨answered, m, hanswered, hrest⟩
    · obtain rfl := isAnswered_yields hanswered
      exact (Scene.Quiet.refl _).marked
    · obtain rfl := isAnswered_yields hanswered
      split at hrest
      case isTrue =>
        obtain ⟨-, rfl⟩ := hrest.of_pure
        exact (Scene.Quiet.refl _).marked
      case isFalse => exact conclude_yields hrecorded hrest

end Cell

end SelfWiring
