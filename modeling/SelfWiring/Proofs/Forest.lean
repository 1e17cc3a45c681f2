import Mathlib.Logic.Relation
import SelfWiring.Proofs.Growth
import SelfWiring.Proofs.Safety

/-!
# The learned graph is a forest

Every step of an engine, whatever its cells compute as long as they leave the store alone, lets the
graph grow as it should: it keeps what was learned, and queues payloads for behaviours that are
there. So after every run each behaviour is reached from an entry behaviour in exactly one way.
-/

namespace SelfWiring

/-! ## What is queued -/

theorem Cell.Restartable.mono {n m : Net} {ctx : Context} {tree : String}
    (h : Cell.Restartable n ctx tree) (hgrows : n.Grows m) : Cell.Restartable m ctx tree := by
  obtain ⟨⟨i, text, hi, htext⟩, first, c, hfirst, hc⟩ := h
  exact ⟨⟨i, text, hi, hgrows.information htext⟩, first, c, hgrows.firstBehaviour hfirst,
    hgrows.binding hc⟩

namespace Net

variable {r : Registry} {limit : UInt64} {n m : Net}

/-- A payload as the engine queues it: for a behaviour that is bound, of a session, and of a tree
that can be restarted. -/
structure Posted (n : Net) (p : Payload) : Prop where
  behaviour : p.context.behaviour = some p.destination
  bound : ∃ c, n.text (.binding p.destination) = some c
  session : ∃ s, p.context.session = some s
  tree : ∃ t, p.context.tree = some t ∧ t ≠ "" ∧ Cell.Restartable n p.context t

/-- The graph was grown as it should be, and the records and the queued payloads belong to it. -/
structure WellFormed (r : Registry) (limit : UInt64) (n : Net) : Prop where
  grown : n.Grown r limit
  separator : n.text .separator = none
  recorded : ∀ t i, n.text (.informationId t) = some i → n.text (.information i) = some t
  unrecorded : ∀ k, n.minted ≤ k → n.text (.information (Identifier.render k)) = none
  unanchored : ∀ k, n.minted ≤ k → n.text (.firstBehaviour (Identifier.render k)) = none
  posted : ∀ item ∈ n.queue, ∃ p, item = p.encode ∧ n.Posted p

/-- What was learned is kept, and the network that comes of it is well formed. -/
structure GrowsWellFormed (r : Registry) (limit : UInt64) (n m : Net) : Prop where
  wellFormed : m.WellFormed r limit
  grows : n.Grows m

theorem Posted.mono {p : Payload} (h : n.Posted p) (hgrows : n.Grows m) : m.Posted p where
  behaviour := h.behaviour
  bound := h.bound.imp fun _ => hgrows.binding
  session := h.session
  tree := by
    obtain ⟨t, ht, hne, hrestart⟩ := h.tree
    exact ⟨t, ht, hne, hrestart.mono hgrows⟩

theorem GrowsWellFormed.trans {k : Net} (h : n.GrowsWellFormed r limit m)
    (h' : m.GrowsWellFormed r limit k) : n.GrowsWellFormed r limit k :=
  ⟨h'.wellFormed, h.grows.trans h'.grows⟩

namespace WellFormed

theorem refl (h : n.WellFormed r limit) : n.GrowsWellFormed r limit n := ⟨h, .refl n⟩

theorem alike (h : n.WellFormed r limit) (hm : n.Alike m) : n.GrowsWellFormed r limit m := by
  refine ⟨⟨h.grown.alike hm, ?_, ?_, ?_, ?_, ?_⟩, hm.grows⟩
  · exact (hm.text _ (Or.inr rfl)).trans h.separator
  · intro t i hi
    rw [hm.lasting (.informationId t) trivial] at hi
    exact hm.grows.information (h.recorded t i hi)
  · intro k hk
    exact (hm.lasting (.information _) trivial).trans
      (h.unrecorded k (Nat.le_trans hm.minted hk))
  · intro k hk
    exact (hm.lasting (.firstBehaviour _) trivial).trans
      (h.unanchored k (Nat.le_trans hm.minted hk))
  · intro item hitem
    obtain ⟨p, rfl, hp⟩ := h.posted item (hm.queue item hitem)
    exact ⟨p, rfl, hp.mono hm.grows⟩

theorem count (h : n.WellFormed r limit) {k : Key} (hk : ¬ (k.Lasting ∨ k = .separator)) :
    n.GrowsWellFormed r limit (n.count k) := h.alike (n.alike_count hk)

theorem enqueue (h : n.WellFormed r limit) {p : Payload} (hp : n.Posted p) :
    n.GrowsWellFormed r limit (n.enqueue p) := by
  have hgrows : n.Grows (n.enqueue p) :=
    ⟨fun _ _ _ hv => hv, fun _ _ hb => hb, Nat.le_refl _⟩
  have hgrown : (n.enqueue p).Grown r limit :=
    h.grown.congr (fun _ => rfl) (fun _ _ => rfl) rfl (Nat.le_refl _)
  refine ⟨⟨hgrown, h.separator, h.recorded, h.unrecorded, h.unanchored, ?_⟩, hgrows⟩
  intro item hitem
  rw [enqueue_queue, List.mem_append, List.mem_singleton] at hitem
  rcases hitem with hitem | rfl
  · obtain ⟨q, rfl, hq⟩ := h.posted item hitem
    exact ⟨q, rfl, hq.mono hgrows⟩
  · exact ⟨p, rfl, hp.mono hgrows⟩

/-- The record of a text is there when it is needed. -/
theorem record (h : n.WellFormed r limit) (t : String) : n.GrowsWellFormed r limit (n.record t).2 ∧
    (n.record t).2.text (.information (n.record t).1) = some t := by
  unfold Net.record
  cases hid : n.text (.informationId t) with
  | some i => exact ⟨h.refl, h.recorded t i hid⟩
  | none =>
    have hinformation : ∀ i,
        ((n.mint.write (.information n.fresh) t).write (.informationId t) n.fresh).text
          (.information i) = if i = n.fresh then some t else n.text (.information i) := by
      intro i
      simp [Function.update_apply]
    have hidentified : ∀ t',
        ((n.mint.write (.information n.fresh) t).write (.informationId t) n.fresh).text
          (.informationId t') = if t' = t then some n.fresh else n.text (.informationId t') := by
      intro t'
      simp [Function.update_apply]
    have hunrecorded : n.mint.text (.information n.fresh) = none :=
      h.unrecorded n.minted (Nat.le_refl _)
    have hgrows : n.Grows
        ((n.mint.write (.information n.fresh) t).write (.informationId t) n.fresh) := by
      refine (n.alike_mint.grows.trans (grows_write hunrecorded t)).trans (grows_write ?_ n.fresh)
      rw [write_text, Function.update_of_ne (by simp)]
      exact hid
    refine ⟨⟨⟨h.grown.congr ?_ ?_ rfl hgrows.minted, ?_, ?_, ?_, ?_, ?_⟩, hgrows⟩, ?_⟩
    · intro b
      simp
    · intro i c
      simp
    · simpa using h.separator
    · intro t' i hi
      rw [hidentified] at hi
      split at hi
      · rename_i ht
        rw [hinformation, if_pos (Option.some.inj hi).symm, ht]
      · exact hgrows.information (h.recorded t' i hi)
    · intro k hk
      rw [hinformation, if_neg (n.fresh_ne hk).symm]
      exact h.unrecorded k (Nat.le_of_succ_le hk)
    · intro k hk
      simpa using h.unanchored k (Nat.le_of_succ_le hk)
    · intro item hitem
      obtain ⟨p, rfl, hp⟩ := h.posted item hitem
      exact ⟨p, rfl, hp.mono hgrows⟩
    · rw [hinformation, if_pos rfl]

/-- The entry behaviour of a record is there when it is needed. -/
theorem enter (h : n.WellFormed r limit) (i c : String) :
    n.GrowsWellFormed r limit (n.enter i c).2 ∧
    (n.enter i c).2.text (.binding (n.enter i c).1) = some c := by
  obtain ⟨hgrown, hgrows, hentry⟩ := h.grown.enter i c
  refine ⟨⟨⟨hgrown, ?_, ?_, ?_, ?_, ?_⟩, hgrows⟩, hgrown.entered i c _ hentry⟩
  · rw [enter_text _ _ _ (by simp) (by simp)]
    exact h.separator
  · intro t i'
    rw [enter_text _ _ _ (by simp) (by simp), enter_text _ _ _ (by simp) (by simp)]
    exact h.recorded t i'
  · intro k hk
    rw [enter_text _ _ _ (by simp) (by simp)]
    exact h.unrecorded k (Nat.le_trans hgrows.minted hk)
  · intro k hk
    rw [enter_text _ _ _ (by simp) (by simp)]
    exact h.unanchored k (Nat.le_trans hgrows.minted hk)
  · have hqueue : (n.enter i c).2.queue = n.queue := by
      unfold Net.enter
      split <;> rfl
    intro item hitem
    obtain ⟨p, rfl, hp⟩ := h.posted item (hqueue ▸ hitem)
    exact ⟨p, rfl, hp.mono hgrows⟩

/-- A tree is anchored under an identifier that was minted. -/
theorem anchor (h : n.WellFormed r limit) {j : Nat} (hj : j < n.minted)
    (hfree : n.text (.firstBehaviour (Identifier.render j)) = none) (b : String) :
    n.GrowsWellFormed r limit (n.write (.firstBehaviour (Identifier.render j)) b) := by
  have hgrows := grows_write hfree b
  refine ⟨⟨h.grown.congr ?_ ?_ rfl (Nat.le_refl _), ?_, ?_, ?_, ?_, ?_⟩, hgrows⟩
  · intro b'
    simp
  · intro i c
    simp
  · simpa using h.separator
  · intro t i
    simpa using h.recorded t i
  · intro k hk
    simpa using h.unrecorded k hk
  · intro k hk
    rw [write_text, Function.update_of_ne]
    · exact h.unanchored k hk
    · intro heq
      have hkj := Identifier.render_inj.mp (Key.firstBehaviour.inj heq)
      exact absurd hj (by rw [← hkj]; exact Nat.not_lt.mpr hk)
  · intro item hitem
    obtain ⟨p, rfl, hp⟩ := h.posted item hitem
    exact ⟨p, rfl, hp.mono hgrows⟩

/-- Connections are there once they are needed, and all that follow are bound. -/
theorem connected (h : n.WellFormed r limit) {producer : String}
    (hbound : ∃ c, n.text (.binding producer) = some c) {args : List Value}
    {behaviours : List String}
    (hconnected : Engine.Connected r limit n producer args behaviours m) :
    n.GrowsWellFormed r limit m ∧ m.next producer = some behaviours ∧
      ∀ b ∈ behaviours, ∃ c, m.text (.binding b) = some c := by
  cases hconnected with
  | known hnext =>
    refine ⟨h.refl, hnext, fun b hb => ?_⟩
    obtain ⟨name, _, hname, _⟩ := h.grown.member producer b ⟨behaviours, hnext, hb⟩
    exact ⟨name, hname⟩
  | explored hfree cells hcells hlimit =>
    have hmembers : addMembers [] (n.sprout cells).1 = (n.sprout cells).1 :=
      addMembers_of_nodup (n.nodup_sprout cells)
    rw [hmembers]
    have hregistered : ∀ c ∈ cells, ∃ cell, r.get? c = some cell ∧ cell.entry = false := by
      intro c hc
      obtain ⟨cell, hcell, hentry, _⟩ := Registry.get?_of_mem_candidates (hcells c hc)
      exact ⟨cell, hcell, hentry⟩
    obtain ⟨hgrown, hgrows⟩ := h.grown.sprout hbound hfree hregistered hlimit
    have hkept : ∀ k : Key, (∀ b, k ≠ .binding b) → (n.sprout cells).2.text k = n.text k :=
      fun k hk => sprout_text cells n fun b _ => hk b
    refine ⟨⟨⟨hgrown, ?_, ?_, ?_, ?_, ?_⟩, hgrows⟩, Function.update_self .., ?_⟩
    · exact (hkept _ (by simp)).trans h.separator
    · intro t i hi
      refine (hkept _ (by simp)).trans (h.recorded t i ?_)
      exact (hkept (.informationId t) (by simp)).symm.trans hi
    · intro k hk
      exact (hkept _ (by simp)).trans (h.unrecorded k (Nat.le_trans hgrows.minted hk))
    · intro k hk
      exact (hkept _ (by simp)).trans (h.unanchored k (Nat.le_trans hgrows.minted hk))
    · intro item hitem
      have hitem : item ∈ (n.sprout cells).2.queue := hitem
      rw [sprout_queue] at hitem
      obtain ⟨p, rfl, hp⟩ := h.posted item hitem
      exact ⟨p, rfl, hp.mono hgrows⟩
    · intro b hb
      obtain ⟨c, -, hc⟩ := sprout_binding cells n hb
      exact ⟨c, hc⟩

theorem queueAll {p : Payload} {producer : String} {behaviours : List String}
    (hsession : ∃ s, p.context.session = some s) :
    ∀ {n : Net}, n.WellFormed r limit →
      (∃ t, p.context.tree = some t ∧ t ≠ "" ∧ Cell.Restartable n p.context t) →
      (∀ b ∈ behaviours, ∃ c, n.text (.binding b) = some c) →
        n.GrowsWellFormed r limit (n.queueAll p producer behaviours) := by
  induction behaviours with
  | nil => intro n h _ _; exact h.refl
  | cons b behaviours ih =>
    intro n h htree hbound
    have hminted := h.alike n.alike_mint
    obtain ⟨t, ht, hne, hrestart⟩ := htree
    have hposted : n.mint.Posted (Engine.successorPayload p producer n.fresh b
        ((n.text (.binding b)).getD "")) :=
      ⟨rfl, hbound b List.mem_cons_self, hsession, t, ht, hne, hrestart.recorded,
        hrestart.anchored⟩
    have hqueued := hminted.trans (hminted.wellFormed.enqueue hposted)
    refine hqueued.trans (ih hqueued.wellFormed ?_ ?_)
    · exact ⟨t, ht, hne, hrestart.mono hqueued.grows⟩
    · intro b' hb'
      exact (hbound b' (List.mem_cons_of_mem _ hb')).imp fun _ => hqueued.grows.binding

/-- What was accepted can be found again: its record, its entry behaviour and the anchor of its
tree. -/
theorem accept (h : n.WellFormed r limit) (s : Submission) :
    n.GrowsWellFormed r limit (n.accept s) := by
  have hminted := h.alike n.alike_mint
  obtain ⟨hrecord, hinformation⟩ := hminted.wellFormed.record s.input
  obtain ⟨henter, hbinding⟩ :=
    hrecord.wellFormed.enter (n.mint.record s.input).1 (Engine.entryCell s)
  have hfree : ((n.mint.record s.input).2.enter (n.mint.record s.input).1
      (Engine.entryCell s)).2.text (.firstBehaviour n.fresh) = none := by
    rw [enter_text _ _ _ (by simp) (by simp), record_text _ _ (by simp) (by simp)]
    exact h.unanchored n.minted (Nat.le_refl _)
  have hstart := (hminted.trans hrecord).trans henter
  have htree : n.minted < ((n.mint.record s.input).2.enter (n.mint.record s.input).1
      (Engine.entryCell s)).2.minted := (hrecord.trans henter).grows.minted
  have hanchor := henter.wellFormed.anchor htree hfree
    ((n.mint.record s.input).2.enter (n.mint.record s.input).1 (Engine.entryCell s)).1
  unfold Net.accept
  dsimp only
  generalize n.mint.record s.input = information at *
  generalize information.2.enter information.1 (Engine.entryCell s) = entry at *
  have hlast := hanchor.wellFormed.alike (alike_mint _)
  have hkept := hanchor.trans hlast
  have hposted : ∀ id, (entry.2.write (.firstBehaviour n.fresh) entry.1).mint.Posted
      (Engine.firstPayload s id n.fresh information.1 entry.1) := by
    intro id
    have hfirst : (entry.2.write (.firstBehaviour n.fresh) entry.1).mint.text
        (.firstBehaviour n.fresh) = some entry.1 := Function.update_self ..
    have hbound := hkept.grows.binding hbinding
    have hrecorded := (henter.trans hkept).grows.information hinformation
    exact ⟨rfl, ⟨_, hbound⟩, ⟨_, rfl⟩, n.fresh, rfl, Identifier.render_ne_empty _,
      ⟨_, _, rfl, hrecorded⟩, _, _, hfirst, hbound⟩
  have hqueued := hlast.wellFormed.enqueue
    (hposted (entry.2.write (.firstBehaviour n.fresh) entry.1).fresh)
  exact ((hstart.trans hkept).trans hqueued).trans
    (hqueued.wellFormed.alike (alike_announce _ (.accepted s.session n.fresh)))

/-- Whatever the fate of a result, nothing is learned from it. -/
theorem concluded (h : n.WellFormed r limit) {p : Payload} (hp : n.Posted p) {budget : UInt32}
    {tree session output : String} {result : Except CellError (List Value)}
    (htree : p.context.tree = some tree)
    (hconcluded : Cell.Concluded budget n p.context tree session output result m) :
    n.GrowsWellFormed r limit m := by
  have hmiss : n.GrowsWellFormed r limit (n.count (.misses tree p.context.pass)) :=
    h.count (by simp [Key.Lasting])
  have hrestart := hmiss.trans
    (hmiss.wellFormed.count (k := .retraversals tree) (by simp [Key.Lasting]))
  cases hconcluded with
  | answered => exact h.refl
  | delivered =>
    have hdone : n.GrowsWellFormed r limit (n.count (.done tree)) := h.count (by simp [Key.Lasting])
    have halike := (alike_deliver (n.count (.done tree)) session output).trans
      (alike_announce _ (.emitted session tree output))
    exact hdone.trans (hdone.wellFormed.alike halike)
  | passedOver => exact hmiss
  | exhausted => exact hrestart
  | @restarted _ _ _ _ i text first cell hi htext hfirst hcell =>
    have hkept := hrestart.trans (hrestart.wellFormed.alike (alike_mint _))
    obtain ⟨t, ht, hne, -⟩ := hp.tree
    obtain rfl := Option.mem_unique ht htree
    have hposted : ∀ id, (((n.count (.misses t p.context.pass)).count
        (.retraversals t)).mint).Posted (Cell.restartPayload p.context id text first cell) := by
      intro id
      have hbound := hkept.grows.binding hcell
      exact ⟨rfl, ⟨_, hbound⟩, hp.session, t, ht, hne,
        ⟨i, text, hi, hkept.grows.information htext⟩, first, cell,
        hkept.grows.firstBehaviour hfirst, hbound⟩
    exact hkept.trans (hkept.wellFormed.enqueue (hposted n.fresh))

end WellFormed

end Net

/-! ## Steps -/

variable {σ : Type} [Store σ] [FaultFree σ] {e : Engine}

/-- The cells of an engine keep what was learned and leave the network well formed, whatever they
compute. -/
def Engine.PreservesWellFormed (σ : Type) [Store σ] [FaultFree σ] (e : Engine) : Prop :=
  ∀ name cell, e.registry.get? name = some cell → ∀ (p : Payload) (n : Net),
    n.WellFormed e.registry e.config.maxSignals → n.Posted p →
      cell.signature.accepts p.args = true →
      Action.Ensures σ (cell.call p.context p.args) n fun _ m =>
        n.GrowsWellFormed e.registry e.config.maxSignals m

namespace Engine

open SelfWiring.Action

variable {n : Net} {p : Payload} {cell : Cell}

/-- Results that are passed on leave their behaviour connected. -/
theorem passOn_growsWellFormed (h : n.WellFormed e.registry e.config.maxSignals) {results : Payload}
    (hposted : n.Posted results) : Ensures σ (e.passOn cell results.destination results) n
      fun _ m => n.GrowsWellFormed e.registry e.config.maxSignals m ∧
        (cell.terminal = false → (m.next results.destination).isSome = true) := by
  cases hterminal : cell.terminal with
  | true =>
    unfold passOn
    rw [if_pos hterminal]
    exact (reaches_pure Outcome.terminated n).ensures ⟨h.refl, fun hopen => nomatch hopen⟩
  | false =>
    have hbound : ∀ behaviours m, Connected e.registry e.config.maxSignals n results.destination
        results.args behaviours m → ∀ b ∈ behaviours, (m.text (.binding b)).isSome = true := by
      intro behaviours m hconnected b hb
      obtain ⟨c, hc⟩ := (h.connected hposted.bound hconnected).2.2 b hb
      rw [hc]
      rfl
    refine (passOn_ensures results hterminal hposted.behaviour hbound).imp ?_
    rintro _ _ ⟨behaviours, m, hconnected, -, rfl⟩
    obtain ⟨hgrowth, hnext, hmembers⟩ := h.connected hposted.bound hconnected
    have hlater := hposted.mono hgrowth.grows
    have hqueued : m.GrowsWellFormed e.registry e.config.maxSignals
        (m.queueAll results results.destination behaviours) :=
      hgrowth.wellFormed.queueAll hlater.session hlater.tree hmembers
    have hclosed := hqueued.trans
      (hqueued.wellFormed.alike (Net.alike_close _ results.destination behaviours))
    refine ⟨hgrowth.trans hclosed, fun _ => ?_⟩
    rw [hclosed.grows.next _ _ hnext]
    rfl

theorem calculate_growsWellFormed (ht : e.PreservesWellFormed σ)
    (h : n.WellFormed e.registry e.config.maxSignals)
    {name : String} (hcell : e.registry.get? name = some cell) (hposted : n.Posted p)
    (haccepts : cell.signature.accepts p.args = true) :
    Ensures σ (cell.calculate p) n fun r m => n.GrowsWellFormed e.registry e.config.maxSignals m ∧
      ∀ results, r = .ok results → ∃ vs, results = { p with args := vs } := by
  refine (ensures_adapt (ht name cell hcell p n h hposted haccepts)).bind ?_ ?_
  · rintro vs m ⟨_, -, hgrowth⟩
    split
    · exact (reaches_pure _ m).ensures ⟨hgrowth, fun _ hr => ⟨vs, (Except.ok.inj hr).symm⟩⟩
    · exact (reaches_throw _ m).ensures ⟨hgrowth, fun _ hr => nomatch hr⟩
  · rintro failure m ⟨_, -, hgrowth⟩
    exact ⟨hgrowth, fun _ hr => nomatch hr⟩

theorem process_growsWellFormed (ht : e.PreservesWellFormed σ)
    (h : n.WellFormed e.registry e.config.maxSignals)
    (hposted : n.Posted p) : Ensures σ (e.process p) n fun _ m =>
      n.GrowsWellFormed e.registry e.config.maxSignals m := by
  cases hfound : e.cellFor p with
  | error failure => exact (reaches_ofExcept hfound n).bind_error.ensures h.refl
  | ok cell =>
    obtain ⟨name, _, hcell⟩ := exists_name_of_cellFor hfound
    by_cases haccepts : cell.signature.accepts p.args = true
    · refine process_ensures_of hfound haccepts
        (calculate_growsWellFormed ht h hcell hposted haccepts)
        (fun _ _ hr => hr.1) ?_
      rintro results m ⟨hgrowth, hresults⟩
      obtain ⟨vs, rfl⟩ := hresults results rfl
      have hlater := hposted.mono hgrowth.grows
      have hforwarded : m.Posted { p with args := vs } :=
        ⟨hlater.behaviour, hlater.bound, hlater.session, hlater.tree⟩
      exact (passOn_growsWellFormed hgrowth.wellFormed hforwarded).imp fun _ _ hm =>
        hgrowth.trans hm.1
    · obtain ⟨failure, hfailure⟩ := activate_of_not_accepts haccepts
      refine (reaches_ofExcept hfound n).bind ?_
      exact (reaches_ofExcept hfailure n).bind_error.ensures h.refl

end Engine

/-- A step keeps what was learned, and what it adds belongs to it. -/
theorem step_growsWellFormed (ht : e.PreservesWellFormed σ) {w w' : World σ} {d : Label}
    (h : w.net.WellFormed e.registry e.config.maxSignals) (hstep : Step e w d w') :
    w.net.GrowsWellFormed e.registry e.config.maxSignals w'.net := by
  cases hstep with
  | accept s =>
    rw [(Step.accept (e := e) s w).of_accepted.2]
    exact h.accept s
  | process hqueue hstore hread =>
    rename_i store before after item p
    have hitem : item ∈ w.net.queue := by
      show item ∈ w.queue
      rw [hqueue]
      exact List.mem_append_right _ List.mem_cons_self
    obtain ⟨q, rfl, hposted⟩ := h.posted item hitem
    obtain rfl := Option.mem_unique (Payload.decode?_encode q) hread
    have htaken := h.alike (Net.alike_requeue hqueue)
    have hprocess := Action.ensures_withRetries e.config.retryPolicy
      (Engine.process_growsWellFormed ht htaken.wellFormed (hposted.mono htaken.grows))
      { w with store } (World.net_of_requeued hstore)
    have hhandled := htaken.trans hprocess
    rw [handle_net]
    exact hhandled.trans (hhandled.wellFormed.alike (Net.alike_report _ _ _))

theorem World.Empty.wellFormed {w : World σ} (h : w.Empty) (r : Registry) (limit : UInt64) :
    w.net.WellFormed r limit := by
  have htext : ∀ {k v}, ¬ w.net.text k = some v := by
    intro k v hv
    exact absurd ((h.net_text k).symm.trans hv) (by simp)
  have hnext : ∀ {b behaviours}, ¬ w.net.next b = some behaviours := by
    intro b behaviours hb
    exact absurd ((h.net_next b).symm.trans hb) (by simp)
  have hleads : ∀ {producer b}, ¬ w.net.Leads producer b := fun ⟨_, hb, _⟩ => hnext hb
  constructor
  case grown =>
    constructor
    case minted | origin => exact fun _ _ hc => absurd hc htext
    case entered => exact fun _ _ _ hb => absurd hb htext
    case stored => exact fun _ _ hb => absurd hb hnext
    case member | later | rootless => exact fun _ _ hb => absurd hb hleads
    case sole => exact fun _ _ _ hb => absurd hb hleads
    case unshared => exact fun _ _ _ _ _ hb => absurd hb htext
  case separator => exact h.net_text _
  case recorded => exact fun _ _ hi => absurd hi htext
  case unrecorded | unanchored => exact fun _ _ => h.net_text _
  case posted =>
    intro item hitem
    rw [h.net_queue] at hitem
    exact absurd hitem List.not_mem_nil

theorem Run.wellFormed (ht : e.PreservesWellFormed σ) {w w' : World σ} {ds : List Label}
    (h : w.Empty) (hrun : Run e w ds w') : w'.net.WellFormed e.registry e.config.maxSignals := by
  induction hrun with
  | nil => exact h.wellFormed _ _
  | snoc _ hstep ih => exact (step_growsWellFormed ht ih hstep).wellFormed

/-! ## Engines of standard cells and cells that leave the store alone -/

theorem Engine.preservesWellFormed_of_storeFree {config : Config} {extras : List Cell}
    (he : assemble { config, cells := some (Cell.standard config ++ extras) } = .ok e)
    (hextras : ∀ c ∈ extras, ∀ ctx args, (c.call ctx args).run.StoreFree) :
    e.PreservesWellFormed σ := by
  obtain ⟨rfl, hmem⟩ := assemble_eq_ok he
  intro name cell hcell p n h hposted haccepts
  rcases List.mem_append.mp ((hmem cell).mp (Registry.mem_of_get? hcell)) with hstandard | hextra
  · rcases Cell.eq_output_or_mem_of_mem_standard hstandard with rfl | hother
    · obtain ⟨v, vs, hargs⟩ := exists_cons_of_accepts_any rfl haccepts
      obtain ⟨t, htree, hne, hrestart⟩ := hposted.tree
      obtain ⟨session, hsession⟩ := hposted.session
      rw [hargs]
      exact (Cell.output_ensures _ htree hne hsession hrestart v vs).imp fun _ _ hconcluded =>
        h.concluded hposted htree hconcluded
    · by_cases hname : cell.name = Cell.inputName
      · have hinput : Cell.input ∈ Cell.standard e.config ++ extras := by simp [Cell.standard]
        rw [← Registry.name_of_get? hcell, hname] at hcell
        obtain rfl := Option.mem_unique hcell (get?_of_assembled he hinput)
        cases htext : Cell.textOf Cell.inputName p.args with
        | ok text => exact (Cell.input_reaches htext p.context n).ensures (h.record text).1
        | error failure => exact (Cell.input_reaches_error htext p.context n).ensures h.refl
      · have hserved : cell.Served p.args n :=
          ⟨haccepts, h.separator, fun hinput => absurd hinput hname⟩
        refine (Cell.standard_computing hother p.context p.args n hserved).imp ?_
        rintro _ _ ⟨rfl, -⟩
        exact h.refl
  · rintro w rfl
    exact h.alike (World.quiet_run (hextras cell hextra p.context p.args) w).alike

/-! ## The forest -/

namespace World

/-- A behaviour is among the connections of another. -/
def Leads (w : World σ) (producer b : String) : Prop :=
  ∃ behaviours, w.connections producer = some behaviours ∧ b ∈ behaviours

/-- A behaviour at which a text enters the input cell or the output cell. -/
def IsEntry (w : World σ) (b : String) : Prop :=
  ∃ i c, (Key.entry i c).Regular ∧ w.text (.entry i c) = some b

/-- Behaviours and connections are trees with entry behaviours at their roots, and lead to cells of
a registry. -/
structure Forest (r : Registry) (limit : UInt64) (w : World σ) : Prop where
  once : ∀ producer behaviours, w.connections producer = some behaviours → behaviours.Nodup
  sole : ∀ producer producer' b, w.Leads producer b → w.Leads producer' b → producer = producer'
  rootless : ∀ b, w.IsEntry b → ∀ producer, ¬ w.Leads producer b
  rooted : ∀ b c, w.text (.binding b) = some c →
    ∃ root, w.IsEntry root ∧ Relation.ReflTransGen w.Leads root b
  acyclic : ∀ b, ¬ Relation.TransGen w.Leads b b
  narrow : ∀ producer behaviours, w.connections producer = some behaviours →
    behaviours.length ≤ limit.toNat
  member : ∀ producer b, w.Leads producer b → ∃ name cell,
    w.text (.binding b) = some name ∧ r.get? name = some cell ∧ cell.entry = false

/-- Connections, bindings, anchors, entry behaviours and records stay exactly as they are. -/
structure Keeps (w w' : World σ) : Prop where
  text : ∀ k, k.Regular → k.Lasting → ∀ v, w.text k = some v → w'.text k = some v
  connections : ∀ producer behaviours, w.connections producer = some behaviours →
    w'.connections producer = some behaviours

variable {w w' : World σ}

theorem keeps_of_grows (h : w.net.Grows w'.net) : w.Keeps w' where
  text k hk hlasting v hv :=
    (w'.net_text k hk).symm.trans (h.text k hlasting v ((w.net_text k hk).trans hv))
  connections := h.next

theorem net_binding (w : World σ) (b : String) : w.net.text (.binding b) = w.text (.binding b) :=
  w.net_text (.binding b) trivial

theorem isEntry_iff {b : String} : w.IsEntry b ↔ w.net.IsEntry b := by
  constructor
  · rintro ⟨i, c, hk, hentry⟩
    exact ⟨i, c, (w.net_text _ hk).trans hentry⟩
  · rintro ⟨i, c, hentry⟩
    by_cases hk : (Key.entry i c).Regular
    · exact ⟨i, c, hk, (w.net_text _ hk).symm.trans hentry⟩
    · exact absurd ((if_neg hk).symm.trans hentry) (by simp)

section

variable {r : Registry} {limit : UInt64} (h : w.net.Grown r limit)

include h

/-- A behaviour is bound under a number that was minted. -/
theorem number_of_leads {producer b : String} (hleads : w.Leads producer b) :
    ∃ j k, producer = Identifier.render j ∧ b = Identifier.render k ∧ j < k := by
  obtain ⟨behaviours, hnext, hb⟩ := hleads
  obtain ⟨⟨c, hc⟩, -⟩ := h.stored producer behaviours hnext
  obtain ⟨name, -, hname, -⟩ := h.member producer b ⟨behaviours, hnext, hb⟩
  obtain ⟨j, -, rfl⟩ := h.minted producer c hc
  obtain ⟨k, -, rfl⟩ := h.minted b name hname
  exact ⟨j, k, rfl, rfl, h.later j k ⟨behaviours, hnext, hb⟩⟩

theorem number_of_path {a b : String} (hpath : Relation.TransGen w.Leads a b) :
    ∃ j k, a = Identifier.render j ∧ b = Identifier.render k ∧ j < k := by
  induction hpath with
  | single hleads => exact number_of_leads h hleads
  | tail _ hleads ih =>
    obtain ⟨j, k, rfl, hb, hjk⟩ := ih
    obtain ⟨k', l, hb', rfl, hkl⟩ := number_of_leads h hleads
    obtain rfl := Identifier.render_inj.mp (hb.symm.trans hb')
    exact ⟨j, l, rfl, rfl, Nat.lt_trans hjk hkl⟩

/-- The way back from a behaviour ends at an entry behaviour, since the numbers go down. -/
theorem exists_root (k : Nat) : ∀ c, w.text (.binding (Identifier.render k)) = some c →
    ∃ root, w.IsEntry root ∧ Relation.ReflTransGen w.Leads root (Identifier.render k) := by
  induction k using Nat.strongRecOn with
  | ind k ih =>
    intro c hc
    rcases h.origin _ c ((w.net_binding _).trans hc) with hentry | ⟨producer, hleads⟩
    · exact ⟨_, isEntry_iff.mpr hentry, .refl⟩
    · obtain ⟨j, k', rfl, hk, hjk⟩ := number_of_leads h hleads
      obtain rfl := Identifier.render_inj.mp hk
      obtain ⟨behaviours, hnext, hb⟩ := hleads
      obtain ⟨⟨c', hc'⟩, -⟩ := h.stored _ behaviours hnext
      obtain ⟨root, hroot, hpath⟩ := ih j hjk c' ((w.net_binding _).symm.trans hc')
      exact ⟨root, hroot, hpath.tail ⟨behaviours, hnext, hb⟩⟩

theorem forest_of_grown : w.Forest r limit where
  once producer behaviours hnext := (h.stored producer behaviours hnext).2.1
  sole := h.sole
  rootless b hentry producer hleads := h.rootless producer b hleads (isEntry_iff.mp hentry)
  rooted b c hc := by
    obtain ⟨k, -, rfl⟩ := h.minted b c ((w.net_binding b).trans hc)
    exact exists_root h k c hc
  acyclic b hcycle := by
    obtain ⟨j, k, rfl, hb, hjk⟩ := number_of_path h hcycle
    exact absurd hjk (by rw [Identifier.render_inj.mp hb]; exact Nat.lt_irrefl k)
  narrow producer behaviours hnext := (h.stored producer behaviours hnext).2.2
  member producer b hleads := by
    obtain ⟨name, cell, hname, hcell⟩ := h.member producer b hleads
    exact ⟨name, cell, (w.net_binding b).symm.trans hname, hcell⟩

end

end World

/-- Whatever was accepted and processed, in whatever order, what was learned is a forest: each
behaviour is led to once at most, entry behaviours are not led to, and all others are led to from an
entry behaviour, a limited number from each. Whatever is done next keeps all of it. -/
theorem learned_graph_is_forest_and_grows {config : Config} {extras : List Cell}
    (he : Engine.assemble { config, cells := some (Cell.standard config ++ extras) } = .ok e)
    (hextras : ∀ c ∈ extras, ∀ ctx args, (c.call ctx args).run.StoreFree) {w₀ w : World σ}
    {ds : List Label} (h₀ : w₀.Empty) (hrun : Run e w₀ ds w) :
    w.Forest e.registry config.maxSignals ∧ ∀ d w', Step e w d w' → w.Keeps w' := by
  have hpreserves := Engine.preservesWellFormed_of_storeFree (σ := σ) he hextras
  have hformed := hrun.wellFormed hpreserves h₀
  obtain ⟨rfl, -⟩ := Engine.assemble_eq_ok he
  refine ⟨World.forest_of_grown hformed.grown, fun d w' hstep => ?_⟩
  exact World.keeps_of_grows (step_growsWellFormed hpreserves hformed hstep).grows

/-- A text that is processed by the input cell leaves its behaviour connected. -/
theorem Engine.process_connects {n : Net} (h : n.WellFormed e.registry e.config.maxSignals)
    {p : Payload} (hposted : n.Posted p) (hfound : e.cellFor p = .ok Cell.input) {text : String}
    (hargs : p.args = [.text text]) :
    Action.Ensures σ (e.process p) n fun _ m => (m.next p.destination).isSome = true := by
  have htext : Cell.textOf Cell.inputName p.args = .ok text := by
    rw [hargs]
    rfl
  have haccepts : Cell.input.signature.accepts p.args = true := by
    rw [hargs]
    rfl
  have hcalculate : Action.Reaches σ (Cell.input.calculate p) n (.ok p) (n.record text).2 := by
    refine (Action.reaches_adapt (Cell.input_reaches htext p.context n)).andThen ?_
    have hlength : p.args.length = Cell.input.signature.outputs.length := by
      rw [hargs]
      rfl
    simp only [if_pos hlength]
    exact Action.reaches_pure p _
  refine process_ensures_of hfound haccepts hcalculate (fun _ _ hr => nomatch hr.1) ?_
  rintro results m ⟨hresults, rfl⟩
  obtain rfl := Except.ok.inj hresults
  have hgrowth := (h.record text).1
  exact (passOn_growsWellFormed hgrowth.wellFormed (hposted.mono hgrowth.grows)).imp fun _ _ hm =>
    hm.2 rfl

/-- The first text that is accepted and processed is connected. -/
theorem exists_connected (ht : e.PreservesWellFormed σ)
    (hinput : e.registry.get? Cell.inputName = some Cell.input) {w₀ : World σ} (h₀ : w₀.Empty) :
    ∃ result p outcome queued w b behaviours,
      Run e w₀ [.accepted { input := "4", session := "a" } result, .processed p outcome queued] w ∧
      w.connections b = some behaviours := by
  obtain ⟨w₁, hstep₁, hnet⟩ := Step.exists_accepted e w₀ { input := "4", session := "a" }
  have hformed₁ := (step_growsWellFormed ht (h₀.wellFormed _ _) hstep₁).wellFormed
  obtain ⟨_, _, id, i, b, hqueue⟩ := w₀.net.accept_announced { input := "4", session := "a" }
  rw [h₀.net_queue, List.nil_append, ← hnet] at hqueue
  obtain ⟨q, hq, hposted⟩ := hformed₁.posted _ (hqueue ▸ List.mem_cons_self)
  obtain rfl := Payload.encode_inj.mp hq
  -- the payload that was queued is taken
  obtain ⟨-, hstore⟩ := exists_popped hqueue
  have hsplit : w₁.net.queue = [] ++ [Payload.encode _] := hqueue
  have htaken := hformed₁.alike (Net.alike_requeue hsplit)
  have hfound : e.cellFor
      (Engine.firstPayload { input := "4", session := "a" } id w₀.net.fresh i b) =
        .ok Cell.input := by
    unfold Engine.cellFor Engine.firstPayload Engine.entryCell
    simp [hinput]
  have hconnects := Action.ensures_withRetries e.config.retryPolicy
    (Engine.process_connects htaken.wellFormed (hposted.mono htaken.grows) hfound rfl) _
    (World.net_of_requeued hstore)
  obtain ⟨behaviours, hnext⟩ := Option.isSome_iff_exists.mp hconnects
  refine ⟨_, _, _, _, _, b, behaviours,
    ((Run.nil w₀).snoc hstep₁).snoc (.process hsplit hstore (Payload.decode?_encode _)), ?_⟩
  show (World.net _).next b = some behaviours
  rw [handle_net, (Net.alike_report _ _ _).next]
  exact hnext

theorem exists_run_connected (ht : e.PreservesWellFormed σ)
    (hinput : e.registry.get? Cell.inputName = some Cell.input) {w₀ : World σ} (h₀ : w₀.Empty) :
    ∃ ds w b behaviours, Run e w₀ ds w ∧ ds.length = 2 ∧ w.connections b = some behaviours := by
  obtain ⟨_, _, _, _, w, b, behaviours, hrun, hconnected⟩ := exists_connected ht hinput h₀
  exact ⟨_, w, b, behaviours, hrun, rfl, hconnected⟩

/-- A cell that shows its argument where it declares a number. -/
def Cell.mislabelled : Cell := .pure "mislabelled" ⟨[.text], [.int], false⟩ [] .ok

/-- With a cell that does not keep to its signature, a text is accepted, its behaviour is connected,
and another text is accepted. -/
theorem learned_graph_is_forest_and_grows_of_text : ∃ (e : Engine) (ds : List Label)
    (w : World Memory) (b : String) (behaviours : List String),
    Engine.assemble { cells := some (Cell.standard {} ++ [.mislabelled]) } = .ok e ∧
    Run e (.inMemory 0) ds w ∧ ds.length = 2 ∧ w.connections b = some behaviours ∧
    w.Forest e.registry 5 ∧ ∃ d w', Step e w d w' ∧ w'.connections b = some behaviours := by
  obtain ⟨e, he⟩ : ∃ e,
      Engine.assemble { cells := some (Cell.standard {} ++ [.mislabelled]) } = .ok e := ⟨_, rfl⟩
  have hextras : ∀ c ∈ [Cell.mislabelled], ∀ ctx args, (c.call ctx args).run.StoreFree := by
    intro c hc ctx args
    rw [List.mem_singleton.mp hc]
    exact trivial
  have h₀ := World.empty_inMemory 0
  have hinput := Engine.get?_of_assembled he (c := Cell.input) (by simp [Cell.standard])
  obtain ⟨ds, w, b, behaviours, hrun, hlength, hconnected⟩ :=
    exists_run_connected (Engine.preservesWellFormed_of_storeFree he hextras) hinput h₀
  obtain ⟨hforest, hkeeps⟩ := learned_graph_is_forest_and_grows he hextras h₀ hrun
  have hstep := Step.accept (e := e) { input := "5", session := "a" } w
  exact ⟨e, ds, w, b, behaviours, he, hrun, hlength, hconnected, hforest, _, _, hstep,
    (hkeeps _ _ hstep).connections b behaviours hconnected⟩

end SelfWiring
