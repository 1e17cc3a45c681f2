import SelfWiring.Proofs.Routine
import SelfWiring.Proofs.Safety

/-!
# The keys that an engine writes

An engine of standard cells, and of cells that leave the store alone, keeps texts under regular keys
and sets under the keys of connections. So whatever text is handed in, what it is stored under can
be read as one key only.
-/

namespace SelfWiring

open SelfWiring.Action

/-- Texts are kept under regular keys, and sets under the keys of connections. -/
structure Contents.Keyed (s : Contents) : Prop where
  texts : ∀ key, (s.text key).isSome = true → ∃ k : Key, k.Regular ∧ key = k.render
  sets : ∀ key, (s.set key).isSome = true → ∃ b, key = (Key.connections b).render

namespace Contents.Keyed

variable {s : Contents}

theorem putText (h : s.Keyed) {k : Key} (hk : k.Regular) (value : String) :
    (s.putText k.render value).Keyed := by
  refine ⟨fun key hkey => ?_, h.sets⟩
  by_cases heq : key = k.render
  · exact ⟨k, hk, heq⟩
  · have hkey : (Function.update s.text k.render (some value) key).isSome = true := hkey
    rw [Function.update_of_ne heq] at hkey
    exact h.texts key hkey

theorem putSet (h : s.Keyed) (b : String) (members : List String) :
    (s.putSet (Key.connections b).render members).Keyed := by
  refine ⟨h.texts, fun key hkey => ?_⟩
  by_cases heq : key = (Key.connections b).render
  · exact ⟨b, heq⟩
  · have hkey : (Function.update s.set (Key.connections b).render (some members) key).isSome =
        true := hkey
    rw [Function.update_of_ne heq] at hkey
    exact h.sets key hkey

end Contents.Keyed

/-! ## Effects -/

/-- Effects that write regular keys and connections only. -/
def Effect.Keying : Effect → Prop
  | .store (.set key _) | .store (.incr key) => ∃ k : Key, k.Regular ∧ key = k.render
  | .store (.setInit key _) => ∃ b, key = (Key.connections b).render
  | .store (.get _) | .store (.push _ _) | .store (.pop _) | .store (.setMembers _)
  | .store (.zadd _ _ _) => True
  | .store _ | .elsewhere _ => False
  | _ => True

theorem Effect.Routine.keying {Queued : Payload → Prop} {e : Effect} (h : e.Routine Queued) :
    e.Keying := by
  cases e with
  | store c =>
    cases c
    case set key value =>
      obtain ⟨k, hk, rfl⟩ := h
      exact ⟨k, hk.regular, rfl⟩
    all_goals first | exact trivial | exact h | exact h.elim
  | elsewhere _ => exact h
  | _ => exact trivial

theorem Effect.Concluding.keying {e : Effect} (h : e.Concluding) : e.Keying := by
  cases e with
  | store c => cases c <;> first | exact trivial | exact h | exact h.elim
  | elsewhere _ => exact h
  | _ => exact trivial

theorem Program.StoreFree.only_keying {α : Type} {p : Program α} (h : p.StoreFree) :
    p.Only Effect.Keying := by
  induction p with
  | done _ => exact trivial
  | perform e next ih =>
    cases e
    case store | elsewhere => exact h.elim
    all_goals exact ⟨trivial, fun answer => ih answer (h answer)⟩

variable {σ : Type} [Store σ] [FaultFree σ]

theorem Effect.Keying.answer {e : Effect} (he : e.Keying) {w : World σ} (h : w.contents.Keyed) :
    (w.answer e).2.contents.Keyed := by
  have hstore : ∀ {c : StoreCall} {answer : Except StoreError c.Answer} {after : Contents},
      Performs FaultFree.contents c w.store answer after → after.Keyed →
        (w.answer (.store c)).2.contents.Keyed := fun hperforms hafter => by
    show (FaultFree.contents (Store.perform _ w.store).2).Keyed
    rw [hperforms.2]
    exact hafter
  cases e with
  | store c =>
    cases c with
    | get key => exact hstore (FaultFree.get key w.store) h
    | set key value =>
      obtain ⟨k, hk, rfl⟩ := he
      exact hstore (FaultFree.set k.render value w.store) (h.putText hk value)
    | incr key =>
      obtain ⟨k, hk, rfl⟩ := he
      exact hstore (FaultFree.incr k.render w.store) (h.putText hk _)
    | push list value => exact hstore (FaultFree.push list value w.store) ⟨h.texts, h.sets⟩
    | pop list =>
      cases hlist : w.contents.list list with
      | nil => exact hstore (FaultFree.pop_nil list w.store hlist) h
      | cons head rest =>
        exact hstore (FaultFree.pop_cons list w.store head rest hlist) ⟨h.texts, h.sets⟩
    | setInit key members =>
      obtain ⟨b, rfl⟩ := he
      cases hset : w.contents.set (Key.connections b).render with
      | none => exact hstore (FaultFree.setInit_none _ members w.store hset) (h.putSet b _)
      | some present => exact hstore (FaultFree.setInit_some _ members w.store present hset) h
    | setMembers key => exact hstore (FaultFree.setMembers key w.store) h
    | zadd key member score =>
      show (FaultFree.contents (Store.perform _ w.store).2).Keyed
      rw [FaultFree.zadd]
      exact h
    | len _ | setAdd _ _ | zrange _ | randomKey _ | countKeys _ => exact he.elim
  | elsewhere _ => exact he.elim
  | _ => exact h

theorem Program.Only.keyed {α : Type} {p : Program α} (hp : p.Only Effect.Keying) :
    ∀ {w : World σ}, w.contents.Keyed → (w.run p).2.contents.Keyed := by
  induction p with
  | done _ => exact id
  | perform e next ih => exact fun h => ih _ (hp.2 _) (hp.1.answer h)

/-! ## Processing -/

namespace Engine

variable {e : Engine} {p : Payload}

/-- The cells write regular keys and connections only. -/
def Keying (e : Engine) : Prop :=
  ∀ cell ∈ e.registry.cells, ∀ ctx args, Only Effect.Keying (cell.call ctx args)

theorem accept_keying (s : Submission) : Only Effect.Keying (accept s) := by
  have honly : Only (Effect.Routine fun _ => True) (accept s) :=
    accept_only fun _ _ _ _ => trivial
  exact honly.imp fun _ => Effect.Routine.keying

theorem track_keying (p : Payload) : Only Effect.Keying (Graph.track p) := by
  unfold Graph.track
  split
  · exact only_pure ()
  · exact (only_lift (Program.only_effect trivial)).bind fun _ => only_call trivial

theorem process_keying (h : e.Keying) (p : Payload) : Only Effect.Keying (e.process p) := by
  unfold process
  rcases hcell : e.cellFor p with failure | cell
  · exact only_throw failure
  refine (only_ofExcept (cell.activate p)).bind fun q => ?_
  refine Only.bind ?_ fun results => Only.bind ?_ fun outcome => ?_
  · refine ((h cell (mem_of_cellFor hcell) q.context q.args).adapt _).bind fun vs => ?_
    split
    · exact only_pure _
    · exact only_throw _
  · have honly : Only (Effect.Routine fun _ => True) (e.passOn cell q.destination results) :=
      passOn_only e cell q.destination fun _ _ _ _ => trivial
    exact honly.imp fun _ => Effect.Routine.keying
  · exact (only_lift (track_keying results)).bind fun _ => only_pure outcome

theorem keying_of_storeFree {config : Config} {extras : List Cell}
    (he : assemble { config, cells := some (Cell.standard config ++ extras) } = .ok e)
    (hextras : ∀ c ∈ extras, ∀ ctx args, (c.call ctx args).run.StoreFree) : e.Keying := by
  obtain ⟨-, hmem⟩ := assemble_eq_ok he
  intro cell hcell ctx args
  rcases List.mem_append.mp ((hmem cell).mp hcell) with hstandard | hextra
  · have honly : cell = Cell.output config.maxRetraversals ∨
        Only (Effect.Routine fun _ => True) (cell.call ctx args) :=
      Cell.standard_only ctx args hstandard
    rcases honly with rfl | honly
    · exact (Cell.output_only _ ctx args).imp fun _ => Effect.Concluding.keying
    · exact honly.imp fun _ => Effect.Routine.keying
  · exact Program.StoreFree.only_keying (hextras cell hextra ctx args)

theorem keying_of_standard {config : Config}
    (he : assemble { config, cells := some (Cell.standard config) } = .ok e) : e.Keying := by
  rw [← List.append_nil (Cell.standard config)] at he
  exact keying_of_storeFree he nofun

end Engine

/-! ## Runs -/

variable {e : Engine}

theorem World.keyed_retrying {ε α : Type} {a : Action ε α} (ha : Only Effect.Keying a)
    {w : World σ} (h : w.contents.Keyed) :
    (w.run (e.retrying a).run).2.contents.Keyed := by
  show (w.run (Program.withRetries e.config.retryPolicy a.run)).2.contents.Keyed
  rw [World.run_withRetries]
  exact Program.Only.keyed ha h

theorem Step.keyed (he : e.Keying) {w w' : World σ} {d : Label} (h : w.contents.Keyed)
    (hstep : Step e w d w') : w'.contents.Keyed := by
  cases hstep with
  | accept s => exact World.keyed_retrying (Engine.accept_keying s) h
  | process hqueue hstore hread =>
    rename_i store before after item p
    have htaken : World.contents { w with store } |>.Keyed := by
      show (FaultFree.contents store).Keyed
      rw [hstore]
      exact ⟨h.texts, h.sets⟩
    have hprocessed := World.keyed_retrying (e := e) (Engine.process_keying he p) htaken
    show (World.run (Program.bind (e.retrying (e.process p)).run _) _).2.contents.Keyed
    rw [World.run_bind]
    generalize World.run (e.retrying (e.process p)).run { w with store } = outcome at hprocessed ⊢
    obtain ⟨failure | _, w'⟩ := outcome
    · have honly : Program.Only (Effect.Routine fun _ => True) (Engine.announce p failure) :=
        Engine.announce_only p failure
      exact (honly.imp fun _ => Effect.Routine.keying).keyed hprocessed
    · exact hprocessed

theorem Run.keyed (he : e.Keying) {w w' : World σ} {ds : List Label} (h : w.Empty)
    (hrun : Run e w ds w') : w'.contents.Keyed := by
  induction hrun with
  | nil =>
    rw [h.contents]
    exact ⟨fun _ hkey => absurd hkey (by simp [Contents.empty]),
      fun _ hkey => absurd hkey (by simp [Contents.empty])⟩
  | snoc _ hstep ih => exact hstep.keyed he ih

end SelfWiring
