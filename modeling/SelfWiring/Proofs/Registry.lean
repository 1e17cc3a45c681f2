import SelfWiring.Cell.Registry
import SelfWiring.Engine.Basic

/-!
# Cells by name

A registry made from cells holds exactly these cells, each under its name. Whether a cell takes
arguments depends on their kinds alone, so a cell that takes the results of another once takes them
always.
-/

namespace SelfWiring

/-! ## Signatures -/

namespace Signature

theorem misfit?_congr {args args' : List Value} (h : args.map Value.kind = args'.map Value.kind)
    (ks : List Kind) : ∀ position, misfit? position ks args = misfit? position ks args' := by
  induction ks generalizing args args' with
  | nil =>
    intro position
    simp [misfit?]
  | cons k ks ih =>
    intro position
    cases args with
    | nil =>
      have hnil : args' = [] := List.map_eq_nil_iff.mp h.symm
      rw [hnil]
    | cons v vs =>
      cases args' with
      | nil => exact absurd h (by simp)
      | cons v' vs' =>
        obtain ⟨hv, hvs⟩ := List.cons.inj h
        have htakes : k.takes v = k.takes v' := by
          unfold Kind.takes
          rw [show v.kind = v'.kind from hv]
        simp only [misfit?]
        rw [htakes, ih hvs, show v.kind = v'.kind from hv]

theorem accepts_congr {args args' : List Value} (h : args.map Value.kind = args'.map Value.kind)
    (s : Signature) : s.accepts args = s.accepts args' := by
  have hlength : args.length = args'.length := by simpa using congrArg List.length h
  unfold accepts check
  rw [hlength, misfit?_congr h]

theorem check_of_accepts {s : Signature} {args : List Value} (h : s.accepts args = true) :
    s.check args = .ok () := by
  unfold accepts at h
  cases hcheck : s.check args with
  | ok u => rfl
  | error e =>
    rw [hcheck] at h
    exact absurd h (by simp [Except.isOk, Except.toBool])

end Signature

/-! ## Registries -/

namespace Registry

theorem mem_place?_iff {cell : Cell} {l l' : List Cell} (h : place? cell l = some l') (c : Cell) :
    c ∈ l' ↔ c = cell ∨ c ∈ l := by
  constructor
  · exact mem_of_place? h
  · intro hc
    induction l generalizing l' with
    | nil =>
      simp only [place?, Option.some.injEq] at h
      subst h
      simpa using hc
    | cons a rest ih =>
      unfold place? at h
      split at h
      · simp only [Option.some.injEq] at h
        subst h
        simpa using hc
      · split at h
        · obtain ⟨m, hm, rfl⟩ := Option.map_eq_some_iff.mp h
          rcases hc with rfl | hc
          · exact List.mem_cons_of_mem _ (ih hm (Or.inl rfl))
          · rcases List.mem_cons.mp hc with rfl | hc
            · exact List.mem_cons_self
            · exact List.mem_cons_of_mem _ (ih hm (Or.inr hc))
        · exact absurd h (by simp)

theorem mem_register_iff {r r' : Registry} {cell : Cell} (h : r.register cell = .ok r') (c : Cell) :
    c ∈ r'.cells ↔ c = cell ∨ c ∈ r.cells := by
  unfold register at h
  split at h
  · rename_i cells hplace
    rw [← Except.ok.inj h]
    exact mem_place?_iff hplace c
  · exact absurd h (by simp)

theorem mem_registerAll_iff {cells : List Cell} :
    ∀ {r r' : Registry}, registerAll r cells = .ok r' →
      ∀ c, c ∈ r'.cells ↔ c ∈ r.cells ∨ c ∈ cells := by
  induction cells with
  | nil =>
    intro r r' h c
    rw [← Except.ok.inj h]
    simp
  | cons cell cells ih =>
    intro r r' h c
    rw [registerAll, List.foldlM_cons] at h
    cases hfirst : r.register cell with
    | error e =>
      rw [hfirst] at h
      exact absurd h (by simp [bind, Except.bind])
    | ok r₁ =>
      rw [hfirst] at h
      rw [ih h c, mem_register_iff hfirst c, List.mem_cons]
      constructor
      · rintro ((h | h) | h)
        · exact Or.inr (Or.inl h)
        · exact Or.inl h
        · exact Or.inr (Or.inr h)
      · rintro (h | h | h)
        · exact Or.inl (Or.inr h)
        · exact Or.inl (Or.inl h)
        · exact Or.inr h

theorem exists_place? {cell : Cell} {l : List Cell} (hfree : ∀ c ∈ l, c.name ≠ cell.name) :
    ∃ l', place? cell l = some l' := by
  induction l with
  | nil => exact ⟨_, rfl⟩
  | cons a rest ih =>
    obtain ⟨l', hl'⟩ := ih fun c hc => hfree c (List.mem_cons_of_mem _ hc)
    by_cases hbefore : cell.name < a.name
    · exact ⟨_, by rw [place?, if_pos hbefore]⟩
    · by_cases hafter : a.name < cell.name
      · exact ⟨a :: l', by rw [place?, if_neg hbefore, if_pos hafter, hl']; rfl⟩
      · -- names of which neither comes first are the same
        exact absurd (String.le_antisymm hbefore hafter) (hfree a List.mem_cons_self)

/-- Cells of different names make a registry. -/
theorem exists_registerAll {cells : List Cell} : ∀ {r : Registry}, (cells.map (·.name)).Nodup →
    (∀ c ∈ cells, ∀ c' ∈ r.cells, c'.name ≠ c.name) → ∃ r', registerAll r cells = .ok r' := by
  induction cells with
  | nil => intro r _ _; exact ⟨r, rfl⟩
  | cons cell cells ih =>
    intro r hnodup hfree
    rw [List.map_cons, List.nodup_cons] at hnodup
    obtain ⟨hnew, hnodup⟩ := hnodup
    obtain ⟨l, hl⟩ := exists_place? (hfree cell List.mem_cons_self)
    obtain ⟨r₁, hr₁⟩ : ∃ r₁, r.register cell = .ok r₁ := by
      unfold register
      split
      · exact ⟨_, rfl⟩
      · rename_i hnone
        exact absurd (hl.symm.trans hnone) (by simp)
    obtain ⟨r', hr'⟩ := ih (r := r₁) hnodup fun c hc c' hc' => by
      rcases (mem_register_iff hr₁ c').mp hc' with rfl | hc'
      · intro heq
        exact hnew (List.mem_map.mpr ⟨c, hc, heq.symm⟩)
      · exact hfree c (List.mem_cons_of_mem _ hc) c' hc'
    refine ⟨r', ?_⟩
    rw [registerAll, List.foldlM_cons, hr₁]
    exact hr'

/-- Registries that hold the same cells are the same. -/
theorem eq_of_mem_iff {r r' : Registry} (h : ∀ c, c ∈ r.cells ↔ c ∈ r'.cells) : r = r' := by
  have hnodup : ∀ r : Registry, r.cells.Nodup := by
    intro r
    refine r.ordered.imp ?_
    rintro a b hlt rfl
    exact String.lt_irrefl _ hlt
  have hperm : r.cells.Perm r'.cells :=
    (List.perm_ext_iff_of_nodup (hnodup r) (hnodup r')).mpr h
  have hcells : r.cells = r'.cells :=
    hperm.eq_of_pairwise (fun _ _ _ _ hlt hgt => absurd (String.lt_trans hlt hgt)
      (String.lt_irrefl _)) r.ordered r'.ordered
  cases r
  cases r'
  cases hcells
  rfl

/-- The order in which cells are registered makes no difference. -/
theorem exists_registerAll_of_perm {cells cells' : List Cell} (hperm : cells.Perm cells')
    (hnames : (cells.map (·.name)).Nodup) :
    ∃ r, registerAll {} cells = .ok r ∧ registerAll {} cells' = .ok r := by
  obtain ⟨r, hr⟩ := exists_registerAll (r := {}) hnames (by simp)
  obtain ⟨r', hr'⟩ := exists_registerAll (r := {}) ((hperm.map _).nodup_iff.mp hnames) (by simp)
  have hsame : r' = r := by
    refine eq_of_mem_iff fun c => ?_
    rw [mem_registerAll_iff hr c, mem_registerAll_iff hr' c, hperm.mem_iff]
  exact ⟨r, hr, hsame ▸ hr'⟩

theorem find?_of_pairwise {l : List Cell} (h : l.Pairwise (fun a b => a.name < b.name)) {c : Cell}
    (hc : c ∈ l) : l.find? (·.name == c.name) = some c := by
  induction l with
  | nil => exact absurd hc (by simp)
  | cons a rest ih =>
    obtain ⟨ha, hrest⟩ := List.pairwise_cons.mp h
    rcases List.mem_cons.mp hc with rfl | hc
    · simp
    · have hne : (a.name == c.name) = false := by
        rw [beq_eq_false_iff_ne]
        intro heq
        exact absurd (ha c hc) (heq ▸ String.lt_irrefl _)
      rw [List.find?_cons, hne]
      exact ih hrest hc

/-- Each cell of a registry is found under its name. -/
theorem get?_of_mem {r : Registry} {c : Cell} (hc : c ∈ r.cells) : r.get? c.name = some c :=
  find?_of_pairwise r.ordered hc

theorem get?_of_mem_candidates {r : Registry} {args : List Value} {name : String}
    (h : name ∈ r.candidates args) :
    ∃ c, r.get? name = some c ∧ c.entry = false ∧ c.signature.accepts args = true := by
  obtain ⟨c, hc, rfl⟩ := List.mem_map.mp h
  obtain ⟨hmem, hfit⟩ := List.mem_filter.mp hc
  simp only [Bool.and_eq_true, Bool.not_eq_true'] at hfit
  exact ⟨c, get?_of_mem hmem, hfit.1, hfit.2⟩

end Registry

/-! ## Engines -/

namespace Engine

theorem of_bind_eq_ok {ε α β : Type} {x : Except ε α} {f : α → Except ε β} {b : β}
    (h : x >>= f = .ok b) : ∃ a, x = .ok a ∧ f a = .ok b := by
  cases x with
  | error e => exact absurd h (by simp [bind, Except.bind])
  | ok a => exact ⟨a, rfl, h⟩

theorem assemble_eq_ok {config : Config} {cells : List Cell} {e : Engine}
    (h : assemble { config, cells := some cells } = .ok e) :
    e.config = config ∧ ∀ c, c ∈ e.registry.cells ↔ c ∈ cells := by
  obtain ⟨_, _, h⟩ := of_bind_eq_ok h
  obtain ⟨_, _, h⟩ := of_bind_eq_ok h
  obtain ⟨registry, hregistry, h⟩ := of_bind_eq_ok h
  obtain ⟨_, _, h⟩ := of_bind_eq_ok h
  obtain ⟨_, _, h⟩ := of_bind_eq_ok h
  rw [← Except.ok.inj h]
  refine ⟨rfl, fun c => ?_⟩
  rw [Registry.mem_registerAll_iff hregistry c]
  simp

/-- Valid settings and cells of different names, the input and the output cell among them, make an
engine. -/
theorem exists_assemble {config : Config} {cells : List Cell} (hvalid : config.fault? = none)
    (hnodup : (cells.map (·.name)).Nodup) (hinput : Cell.inputName ∈ cells.map (·.name))
    (houtput : Cell.outputName ∈ cells.map (·.name)) :
    ∃ e, assemble { config, cells := some cells } = .ok e := by
  obtain ⟨r, hr⟩ := Registry.exists_registerAll (r := {}) hnodup (by simp)
  have hpresent : ∀ name ∈ cells.map (·.name), (r.get? name).isSome = true := by
    intro name hname
    obtain ⟨c, hc, rfl⟩ := List.mem_map.mp hname
    rw [Registry.get?_of_mem ((Registry.mem_registerAll_iff hr c).mpr (Or.inr hc))]
    rfl
  refine ⟨⟨config, r⟩, ?_⟩
  unfold assemble Config.validate
  simp only [hvalid, hr, hpresent _ hinput, hpresent _ houtput, require, if_true, bind, Except.bind]
  rfl

end Engine

end SelfWiring
