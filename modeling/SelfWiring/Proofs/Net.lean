import Mathlib.Tactic.Simps.Basic
import SelfWiring.Json.Form
import SelfWiring.Proofs.Contents
import SelfWiring.Proofs.Keys

/-!
# Networks

A network is what has been learned and what is under way, told apart by keys and not by their texts:
the counters and the single texts, the connections, the queue of events, the outputs of the
sessions, how many identifiers were minted, and the events announced so far. Every world whose store
is without faults has a network, `World.net`. Since the texts of regular keys are different, a
change under one key is a change of one part of the network and leaves all other parts alone.
-/

namespace SelfWiring

instance : DecidablePred Key.Regular := fun k =>
  match k with
  | .entry _ cell => inferInstanceAs (Decidable (cell = Cell.inputName ∨ cell = Cell.outputName))
  | .inputQueue | .eventQueue | .separator | .connections _ | .binding _ | .firstBehaviour _
  | .retraversals _ | .misses _ _ | .done _ | .trace _ | .information _ | .informationId _
  | .outputs _ => .isTrue trivial

@[ext] structure Net where
  /-- The texts under the regular keys. -/
  text : Key → Option String
  /-- The behaviours that follow a behaviour. -/
  next : String → Option (List String)
  /-- The event queue, the head first. -/
  queue : List String
  outputs : String → List String
  minted : Nat
  events : List Event

namespace Net

/-! ## Changes -/

@[simps] def write (n : Net) (k : Key) (value : String) : Net :=
  { n with text := Function.update n.text k (some value) }

@[simps] def wire (n : Net) (producer : String) (successors : List String) : Net :=
  { n with next := Function.update n.next producer (some successors) }

/-- The network with another queue. -/
@[simps] def requeue (n : Net) (queue : List String) : Net := { n with queue }

@[simps] def enqueue (n : Net) (p : Payload) : Net := { n with queue := n.queue ++ [p.encode] }

@[simps] def deliver (n : Net) (session output : String) : Net :=
  { n with outputs := Function.update n.outputs session (n.outputs session ++ [output]) }

@[simps] def announce (n : Net) (e : Event) : Net := { n with events := n.events ++ [e] }

@[simps] def mint (n : Net) : Net := { n with minted := n.minted + 1 }

/-- The identifier that is minted next. -/
def fresh (n : Net) : String := Identifier.render n.minted

/-- The network of what is held, with the identifiers minted and the events announced so far. -/
def ofContents (s : Contents) (minted : Nat) (events : List Event) : Net where
  text k := if k.Regular then s.text k.render else none
  next b := s.set (Key.connections b).render
  queue := s.list Key.eventQueue.render
  outputs session := s.list (Key.outputs session).render
  minted
  events

variable {s : Contents} {minted : Nat} {events : List Event}

theorem ofContents_text {k : Key} (hk : k.Regular) :
    (ofContents s minted events).text k = s.text k.render := if_pos hk

theorem ofContents_putText {k : Key} (hk : k.Regular) (value : String) :
    ofContents (s.putText k.render value) minted events =
      (ofContents s minted events).write k value := by
  ext1
  · funext k'
    simp only [ofContents, Contents.putText, write_text, Function.update_apply]
    by_cases hk' : k'.Regular
    · simp only [if_pos hk', Key.render_inj hk' hk]
    · have hne : k' ≠ k := fun h => hk' (h ▸ hk)
      rw [if_neg hk', if_neg hne, if_neg hk']
  all_goals rfl

theorem ofContents_putSet (producer : String) (successors : List String) :
    ofContents (s.putSet (Key.connections producer).render successors) minted events =
      (ofContents s minted events).wire producer successors := by
  ext1
  case next =>
    funext b
    have hkey : (Key.connections b).render = (Key.connections producer).render ↔
        Key.connections b = Key.connections producer := Key.render_inj trivial trivial
    simp only [ofContents, Contents.putSet, wire_next, Function.update_apply, hkey,
      Key.connections.injEq]
  all_goals rfl

theorem ofContents_requeue (queue : List String) :
    ofContents (s.putList Key.eventQueue.render queue) minted events =
      (ofContents s minted events).requeue queue := by
  have hne : ∀ session, (Key.outputs session).render ≠ Key.eventQueue.render := by
    intro session h
    have hkey : (Key.outputs session).render = Key.eventQueue.render ↔
        Key.outputs session = Key.eventQueue := Key.render_inj trivial trivial
    exact absurd (hkey.mp h) (by simp)
  ext1
  case queue => simp [ofContents, Contents.putList]
  case outputs =>
    funext session
    simp [ofContents, Contents.putList, hne]
  all_goals rfl

theorem ofContents_enqueue (p : Payload) :
    ofContents (s.putList Key.eventQueue.render (s.list Key.eventQueue.render ++ [p.encode]))
      minted events = (ofContents s minted events).enqueue p := ofContents_requeue _

theorem ofContents_deliver (session output : String) :
    ofContents (s.putList (Key.outputs session).render
      (s.list (Key.outputs session).render ++ [output])) minted events =
        (ofContents s minted events).deliver session output := by
  have hne : Key.eventQueue.render ≠ (Key.outputs session).render := by
    intro h
    have hkey : Key.eventQueue.render = (Key.outputs session).render ↔
        Key.eventQueue = Key.outputs session := Key.render_inj trivial trivial
    exact absurd (hkey.mp h) (by simp)
  ext1
  case queue => simp [ofContents, Contents.putList, hne]
  case outputs =>
    funext other
    have hkey : (Key.outputs other).render = (Key.outputs session).render ↔
        Key.outputs other = Key.outputs session := Key.render_inj trivial trivial
    simp only [ofContents, Contents.putList, deliver_outputs, Function.update_apply, hkey,
      Key.outputs.injEq]
  all_goals rfl

end Net

namespace World

variable {σ : Type} [Store σ] [FaultFree σ]

/-- What the store of a world holds. -/
def contents (w : World σ) : Contents := FaultFree.contents w.store

/-- The network of a world. -/
def net (w : World σ) : Net := Net.ofContents w.contents w.minted w.events

theorem net_text (w : World σ) (k : Key) (hk : k.Regular) :
    w.net.text k = w.contents.text k.render := Net.ofContents_text hk

end World

end SelfWiring
