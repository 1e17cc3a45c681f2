import SelfWiring.Proofs.Processing

/-!
# Runs of an engine

A run starts where nothing is stored and nothing was announced. It accepts submissions and processes
queued payloads, in any order, and takes any payload that is in the queue, not only the one at its
head. A run leaves the list of what was done, with the results and with what each payload queued.
-/

namespace SelfWiring

/-- What one step did and what came of it. -/
inductive Label where
  | accepted (s : Submission) (result : Except EngineError String)
  | processed (p : Payload) (result : Except EngineError Outcome) (queued : List String)

variable {σ : Type} [Store σ] [FaultFree σ]

namespace World

/-- Nothing is held and nothing was announced. Any number of identifiers may have been minted, and
the random generator may stand anywhere. -/
structure Empty (w : World σ) : Prop where
  contents : w.contents = Contents.empty
  events : w.events = []

/-- A world whose memory store holds nothing. -/
def inMemory (seed : UInt64) : World Memory where
  store := {}
  generator := .ofSeed seed

theorem empty_inMemory (seed : UInt64) : (inMemory seed).Empty := ⟨rfl, rfl⟩

def queue (w : World σ) : List String := w.contents.list Key.eventQueue.render

/-- The text under a key. -/
def text (w : World σ) (k : Key) : Option String := w.contents.text k.render

/-- The connections of a behaviour, if any are stored. -/
def connections (w : World σ) (behaviour : String) : Option (List String) :=
  w.contents.set (Key.connections behaviour).render

/-- The results delivered to a session. -/
def outputs (w : World σ) (session : String) : List String :=
  w.contents.list (Key.outputs session).render

end World

/-- Accept a submission, or take some payload out of the queue and process it. -/
inductive Step (e : Engine) : World σ → Label → World σ → Prop
  | accept (s : Submission) (w : World σ) :
    Step e w (.accepted s (w.run (e.retrying (Engine.accept s)).run).1)
      (w.run (e.retrying (Engine.accept s)).run).2
  | process {w : World σ} {store : σ} {before after : List String} {item : String} {p : Payload}
    (hqueue : w.queue = before ++ item :: after)
    (hstore : FaultFree.contents store = w.contents.putList Key.eventQueue.render (before ++ after))
    (hread : Payload.decode? item = some p) :
    Step e w
      (.processed p (World.run (e.retrying (e.process p)).run { w with store }).1
        ((World.run (e.handle p) { w with store }).2.queue.drop (before ++ after).length))
      (World.run (e.handle p) { w with store }).2

/-- Steps one after the other. -/
inductive Run (e : Engine) : World σ → List Label → World σ → Prop
  | nil (w : World σ) : Run e w [] w
  | snoc {w w' w'' : World σ} {ds : List Label} {d : Label} (hrun : Run e w ds w')
    (hstep : Step e w' d w'') : Run e w (ds ++ [d]) w''

/-- The head of the queue is taken like any other payload. -/
theorem exists_popped {w : World σ} {item : String} {after : List String}
    (hqueue : w.queue = item :: after) :
    (Store.perform (.pop Key.eventQueue.render) w.store).1 = .ok (some item) ∧
      FaultFree.contents (Store.perform (.pop Key.eventQueue.render) w.store).2 =
        w.contents.putList Key.eventQueue.render ([] ++ after) :=
  FaultFree.pop_cons _ w.store item after hqueue

/-- The submission that a tree was made from. -/
def Born (ds : List Label) (tree : String) (s : Submission) : Prop :=
  Label.accepted s (.ok tree) ∈ ds

end SelfWiring
