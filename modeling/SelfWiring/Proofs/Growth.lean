import SelfWiring.Proofs.Evolution

/-!
# How the learned graph grows

A set of connections is made once, for a behaviour that is there, and leads to behaviours that are
new. So the numbers of identifiers go up along the connections, and no behaviour but an entry
behaviour is without one that leads to it. Nothing of this depends on what cells compute.
-/

namespace SelfWiring

namespace Net

/-- A behaviour is among the connections of another. -/
def Leads (n : Net) (producer b : String) : Prop :=
  ∃ behaviours, n.next producer = some behaviours ∧ b ∈ behaviours

/-- A behaviour at which texts enter. -/
def IsEntry (n : Net) (b : String) : Prop := ∃ i c, n.text (.entry i c) = some b

/-- Behaviours are bound to cells of the registry, and were connected one set after the other, no
more than `limit` of them at a time. -/
structure Grown (r : Registry) (limit : UInt64) (n : Net) : Prop where
  minted : ∀ b c, n.text (.binding b) = some c → ∃ k < n.minted, b = Identifier.render k
  origin : ∀ b c, n.text (.binding b) = some c → n.IsEntry b ∨ ∃ producer, n.Leads producer b
  entered : ∀ i c b, n.text (.entry i c) = some b → n.text (.binding b) = some c
  stored : ∀ producer behaviours, n.next producer = some behaviours →
    (∃ c, n.text (.binding producer) = some c) ∧ behaviours.Nodup ∧
      behaviours.length ≤ limit.toNat
  member : ∀ producer b, n.Leads producer b → ∃ name cell,
    n.text (.binding b) = some name ∧ r.get? name = some cell ∧ cell.entry = false
  /-- What follows was minted later. -/
  later : ∀ j k, n.Leads (Identifier.render j) (Identifier.render k) → j < k
  sole : ∀ producer producer' b, n.Leads producer b → n.Leads producer' b → producer = producer'
  rootless : ∀ producer b, n.Leads producer b → ¬ n.IsEntry b
  /-- An entry behaviour belongs to one record. -/
  unshared : ∀ i i' c c' b, n.text (.entry i c) = some b → n.text (.entry i' c') = some b → i = i'

variable {r : Registry} {limit : UInt64} {n m : Net}

theorem Grows.leads (h : n.Grows m) {producer b : String} (hleads : n.Leads producer b) :
    m.Leads producer b := by
  obtain ⟨behaviours, hnext, hb⟩ := hleads
  exact ⟨behaviours, h.next _ _ hnext, hb⟩

/-- What a set of connections adds. -/
theorem leads_of_update {producer : String} {behaviours : List String}
    (hfree : n.next producer = none)
    (hnext : m.next = Function.update n.next producer (some behaviours)) {p b : String} :
    m.Leads p b ↔ (p = producer ∧ b ∈ behaviours) ∨ n.Leads p b := by
  unfold Leads
  rw [hnext]
  by_cases heq : p = producer
  · subst heq
    simp [hfree]
  · simp [heq]

namespace Grown

/-- Nothing is bound, connected or led to under an identifier that is still to be minted. -/
theorem unbound (h : Grown r limit n) {j : Nat} (hj : n.minted ≤ j) :
    n.text (.binding (Identifier.render j)) = none := by
  refine Option.eq_none_iff_forall_ne_some.mpr fun c hc => ?_
  obtain ⟨k, hk, heq⟩ := h.minted _ c hc
  rw [Identifier.render_inj] at heq
  omega

theorem not_leads (h : Grown r limit n) {j : Nat} (hj : n.minted ≤ j) (producer : String) :
    ¬ n.Leads producer (Identifier.render j) := by
  intro hleads
  obtain ⟨name, _, hbinding, _⟩ := h.member _ _ hleads
  exact absurd ((h.unbound hj).symm.trans hbinding) (by simp)

/-- A network in which the same behaviours are bound, entered and connected. -/
theorem congr (h : Grown r limit n) (hbinding : ∀ b, m.text (.binding b) = n.text (.binding b))
    (hentry : ∀ i c, m.text (.entry i c) = n.text (.entry i c)) (hnext : m.next = n.next)
    (hminted : n.minted ≤ m.minted) : Grown r limit m := by
  have hleads : m.Leads = n.Leads := by
    unfold Leads
    rw [hnext]
  have hisEntry : m.IsEntry = n.IsEntry := by
    unfold IsEntry
    simp only [hentry]
  constructor
  case minted =>
    intro b c hc
    obtain ⟨k, hk, rfl⟩ := h.minted b c (hbinding b ▸ hc)
    exact ⟨k, Nat.lt_of_lt_of_le hk hminted, rfl⟩
  all_goals simp only [hbinding, hentry, hnext, hleads, hisEntry]
  · exact h.origin
  · exact h.entered
  · exact h.stored
  · exact h.member
  · exact h.later
  · exact h.sole
  · exact h.rootless
  · exact h.unshared

theorem alike (h : Grown r limit n) (hm : n.Alike m) : Grown r limit m :=
  h.congr (fun _ => hm.lasting _ trivial) (fun _ _ => hm.lasting _ trivial) hm.next hm.minted

/-- A new entry behaviour, under the identifier that is minted next. -/
theorem entry {i c : String} (h : Grown r limit n) (hgrows : n.Grows m)
    (hbinding : ∀ b, m.text (.binding b) = if b = n.fresh then some c else n.text (.binding b))
    (hentry : ∀ i' c', m.text (.entry i' c') =
      if i' = i ∧ c' = c then some n.fresh else n.text (.entry i' c'))
    (hnext : m.next = n.next) (hminted : m.minted = n.minted + 1) : Grown r limit m := by
  have hleads : m.Leads = n.Leads := by
    unfold Leads
    rw [hnext]
  have hnew : ∀ producer, ¬ n.Leads producer n.fresh := h.not_leads (Nat.le_refl _)
  constructor
  case minted =>
    intro b c' hc'
    rw [hbinding] at hc'
    split at hc'
    · rename_i hb
      exact ⟨n.minted, by omega, hb⟩
    · obtain ⟨k, hk, rfl⟩ := h.minted b c' hc'
      exact ⟨k, by omega, rfl⟩
  case origin =>
    intro b c' hc'
    rw [hbinding] at hc'
    split at hc'
    · rename_i hb
      exact Or.inl ⟨i, c, by rw [hentry, if_pos ⟨rfl, rfl⟩, hb]⟩
    · rw [hleads]
      refine (h.origin b c' hc').imp_left ?_
      rintro ⟨i', c'', hb⟩
      exact ⟨i', c'', hgrows.text (.entry i' c'') trivial b hb⟩
  case entered =>
    intro i' c' b hb
    rw [hentry] at hb
    split at hb
    · rename_i heq
      rw [hbinding, if_pos (Option.some.inj hb).symm, heq.2]
    · exact hgrows.binding (h.entered i' c' b hb)
  case stored =>
    intro producer behaviours hbehaviours
    rw [hnext] at hbehaviours
    obtain ⟨⟨c', hc'⟩, hrest⟩ := h.stored producer behaviours hbehaviours
    exact ⟨⟨c', hgrows.binding hc'⟩, hrest⟩
  case member =>
    rw [hleads]
    intro producer b hb
    obtain ⟨name, cell, hname, hcell⟩ := h.member producer b hb
    exact ⟨name, cell, hgrows.binding hname, hcell⟩
  case later => exact hleads ▸ h.later
  case sole => exact hleads ▸ h.sole
  case rootless =>
    rw [hleads]
    rintro producer b hb ⟨i', c', hb'⟩
    rw [hentry] at hb'
    split at hb'
    · exact hnew producer (Option.some.inj hb' ▸ hb)
    · exact h.rootless producer b hb ⟨i', c', hb'⟩
  case unshared =>
    -- nothing enters at the new behaviour yet
    have hunentered : ∀ i' c', n.text (.entry i' c') ≠ some n.fresh := fun i' c' hb =>
      absurd ((h.unbound (Nat.le_refl n.minted)).symm.trans (h.entered i' c' _ hb)) (by simp)
    intro i₁ i₂ c₁ c₂ b h₁ h₂
    rw [hentry] at h₁ h₂
    split at h₁ <;> split at h₂
    · rename_i heq₁ heq₂
      exact heq₁.1.trans heq₂.1.symm
    · exact absurd (h₂.trans h₁.symm) (hunentered i₂ c₂)
    · exact absurd (h₁.trans h₂.symm) (hunentered i₁ c₁)
    · exact h.unshared i₁ i₂ c₁ c₂ b h₁ h₂

/-- An entry behaviour is there when it is needed. -/
theorem enter (h : Grown r limit n) (i c : String) : Grown r limit (n.enter i c).2 ∧
    n.Grows (n.enter i c).2 ∧ (n.enter i c).2.text (.entry i c) = some (n.enter i c).1 := by
  unfold Net.enter
  cases hentry : n.text (.entry i c) with
  | some b => exact ⟨h, .refl n, hentry⟩
  | none =>
    have hunbound : n.mint.text (.binding n.fresh) = none := h.unbound (Nat.le_refl n.minted)
    have hbound := n.alike_mint.grows.trans (grows_write hunbound c)
    have hgrows : n.Grows ((n.mint.write (.binding n.fresh) c).write (.entry i c) n.fresh) := by
      refine hbound.trans (grows_write ?_ n.fresh)
      rw [write_text, Function.update_of_ne (by simp)]
      exact hentry
    refine ⟨h.entry (i := i) (c := c) hgrows ?_ ?_ rfl rfl, hgrows, ?_⟩
    · intro b
      simp [Function.update_apply]
    · intro i' c'
      simp [Function.update_apply]
    · rw [write_text, Function.update_self]

/-- New behaviours as the connections of a behaviour that had none. -/
theorem branch {producer : String} {behaviours : List String} (h : Grown r limit n)
    (hgrows : n.Grows m) (hbound : ∃ c, n.text (.binding producer) = some c)
    (hfree : n.next producer = none)
    (hnew : ∀ b ∈ behaviours, ∃ k, n.minted ≤ k ∧ k < m.minted ∧ b = Identifier.render k)
    (hmember : ∀ b ∈ behaviours, ∃ name cell, m.text (.binding b) = some name ∧
      r.get? name = some cell ∧ cell.entry = false)
    (hsized : behaviours.Nodup ∧ behaviours.length ≤ limit.toNat)
    (hbinding : ∀ b, b ∉ behaviours → m.text (.binding b) = n.text (.binding b))
    (hentry : ∀ i c, m.text (.entry i c) = n.text (.entry i c))
    (hnext : m.next = Function.update n.next producer (some behaviours)) : Grown r limit m := by
  have hleads : ∀ p b, m.Leads p b ↔ (p = producer ∧ b ∈ behaviours) ∨ n.Leads p b :=
    fun _ _ => leads_of_update hfree hnext
  have hisEntry : m.IsEntry = n.IsEntry := by
    unfold IsEntry
    simp only [hentry]
  have hnot : ∀ p b, b ∈ behaviours → ¬ n.Leads p b := by
    intro p b hb
    obtain ⟨k, hk, -, rfl⟩ := hnew b hb
    exact h.not_leads hk p
  constructor
  case minted =>
    intro b c hc
    by_cases hb : b ∈ behaviours
    · obtain ⟨k, -, hk, rfl⟩ := hnew b hb
      exact ⟨k, hk, rfl⟩
    · obtain ⟨k, hk, rfl⟩ := h.minted b c ((hbinding b hb).symm.trans hc)
      exact ⟨k, Nat.lt_of_lt_of_le hk hgrows.minted, rfl⟩
  case origin =>
    intro b c hc
    rw [hisEntry]
    by_cases hb : b ∈ behaviours
    · exact Or.inr ⟨producer, (hleads _ _).mpr (Or.inl ⟨rfl, hb⟩)⟩
    · refine (h.origin b c ((hbinding b hb).symm.trans hc)).imp_right ?_
      rintro ⟨p, hp⟩
      exact ⟨p, hgrows.leads hp⟩
  case entered =>
    intro i c b hb
    exact hgrows.binding (h.entered i c b (hentry i c ▸ hb))
  case stored =>
    intro p bs hbs
    by_cases hp : p = producer
    · subst hp
      rw [hnext, Function.update_self] at hbs
      obtain rfl := Option.some.inj hbs
      exact ⟨hbound.imp fun _ => hgrows.binding, hsized⟩
    · rw [hnext, Function.update_of_ne hp] at hbs
      exact (h.stored p bs hbs).imp_left fun hp => hp.imp fun _ => hgrows.binding
  case member =>
    intro p b hb
    rcases (hleads p b).mp hb with ⟨-, hb⟩ | hb
    · exact hmember b hb
    · obtain ⟨name, cell, hname, hcell⟩ := h.member p b hb
      exact ⟨name, cell, hgrows.binding hname, hcell⟩
  case later =>
    intro j k hjk
    rcases (hleads _ _).mp hjk with ⟨hj, hk⟩ | hjk
    · -- the producer was bound before the new identifiers were minted
      obtain ⟨c, hc⟩ := hbound
      obtain ⟨j', hj', hproducer⟩ := h.minted producer c hc
      obtain ⟨k', hk', -, hb⟩ := hnew _ hk
      rw [hproducer, Identifier.render_inj] at hj
      rw [Identifier.render_inj] at hb
      omega
    · exact h.later j k hjk
  case sole =>
    intro p p' b hb hb'
    rcases (hleads p b).mp hb with ⟨rfl, hmem⟩ | hold
    · rcases (hleads p' b).mp hb' with ⟨rfl, -⟩ | hold'
      · rfl
      · exact absurd hold' (hnot p' b hmem)
    · rcases (hleads p' b).mp hb' with ⟨-, hmem⟩ | hold'
      · exact absurd hold (hnot p b hmem)
      · exact h.sole p p' b hold hold'
  case rootless =>
    rw [hisEntry]
    intro p b hb
    rcases (hleads p b).mp hb with ⟨-, hmem⟩ | hb
    · rintro ⟨i, c, hentered⟩
      obtain ⟨k, hk, -, rfl⟩ := hnew b hmem
      exact absurd ((h.unbound hk).symm.trans (h.entered i c _ hentered)) (by simp)
    · exact h.rootless p b hb
  case unshared =>
    simp only [hentry]
    exact h.unshared

theorem grows_sprout (h : Grown r limit n) (cells : List String) :
    n.Grows (n.sprout cells).2 := by
  constructor
  case text =>
    intro k _ v hv
    refine (sprout_text cells n fun b hb hk => ?_).trans hv
    obtain ⟨j, hj, -, rfl⟩ := mem_sprout.mp hb
    exact absurd ((h.unbound hj).symm.trans (hk ▸ hv)) (by simp)
  case next =>
    rw [sprout_next]
    exact fun _ _ hb => hb
  case minted =>
    rw [sprout_minted]
    exact Nat.le_add_right _ _

/-- Cells of the registry that are no entry cells, as the connections of a behaviour that had
none. -/
theorem sprout (h : Grown r limit n) {producer : String} {cells : List String}
    (hbound : ∃ c, n.text (.binding producer) = some c) (hfree : n.next producer = none)
    (hcells : ∀ c ∈ cells, ∃ cell, r.get? c = some cell ∧ cell.entry = false)
    (hlimit : cells.length ≤ limit.toNat) :
    Grown r limit ((n.sprout cells).2.wire producer (n.sprout cells).1) ∧
      n.Grows ((n.sprout cells).2.wire producer (n.sprout cells).1) := by
  have hfree' : (n.sprout cells).2.next producer = none := by
    rw [sprout_next]
    exact hfree
  have hgrows := (h.grows_sprout cells).trans (grows_wire hfree' (n.sprout cells).1)
  have hnew : ∀ b ∈ (n.sprout cells).1,
      ∃ k, n.minted ≤ k ∧ k < (n.sprout cells).2.minted ∧ b = Identifier.render k := by
    intro b hb
    rw [sprout_minted]
    exact mem_sprout.mp hb
  refine ⟨h.branch hgrows hbound hfree hnew ?_ ?_ ?_ ?_ ?_, hgrows⟩
  · intro b hb
    obtain ⟨c, hc, hbinding⟩ := sprout_binding cells n hb
    obtain ⟨cell, hcell⟩ := hcells c hc
    exact ⟨c, cell, hbinding, hcell⟩
  · exact ⟨n.nodup_sprout cells, by rw [length_sprout]; exact hlimit⟩
  · intro b hb
    refine sprout_text cells n fun b' hb' heq => hb ?_
    exact Key.binding.inj heq ▸ hb'
  · intro i c
    exact sprout_text cells n fun _ _ => by simp
  · show Function.update (n.sprout cells).2.next producer _ = _
    rw [sprout_next]

end Grown

end Net

end SelfWiring
