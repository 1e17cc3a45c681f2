import SelfWiring.Cell.Basic

/-! # Registries

The cells of an engine, each under a name of its own and in the order of their names. The order is
part of the type, so the candidates for an exploration do not depend on the order in which cells
were registered.
-/

namespace SelfWiring

/-- Cells in strictly ascending order of their names. -/
structure Registry where
  cells : List Cell := []
  ordered : cells.Pairwise (fun a b => a.name < b.name) := by exact .nil

namespace Registry

/-- Put a cell in its place, unless its name is taken. -/
def place? (cell : Cell) : List Cell → Option (List Cell)
  | [] => some [cell]
  | c :: rest =>
    if cell.name < c.name then some (cell :: c :: rest)
    else if c.name < cell.name then (place? cell rest).map (c :: ·)
    else none

theorem mem_of_place? {cell : Cell} {l l' : List Cell} (h : place? cell l = some l') {c : Cell}
    (hc : c ∈ l') : c = cell ∨ c ∈ l := by
  induction l generalizing l' with
  | nil =>
    simp only [place?, Option.some.injEq] at h
    subst h
    exact Or.inl (by simpa using hc)
  | cons a rest ih =>
    unfold place? at h
    split at h
    · simp only [Option.some.injEq] at h
      subst h
      simpa using hc
    · split at h
      · obtain ⟨m, hm, rfl⟩ := Option.map_eq_some_iff.1 h
        rcases List.mem_cons.1 hc with rfl | hc
        · exact Or.inr (by simp)
        · rcases ih hm hc with h | h
          · exact Or.inl h
          · exact Or.inr (List.mem_cons_of_mem _ h)
      · exact absurd h (by simp)

theorem pairwise_of_place? {cell : Cell} {l l' : List Cell}
    (hl : l.Pairwise (fun a b => a.name < b.name)) (h : place? cell l = some l') :
    l'.Pairwise (fun a b => a.name < b.name) := by
  induction l generalizing l' with
  | nil =>
    simp only [place?, Option.some.injEq] at h
    subst h
    exact List.pairwise_singleton _ _
  | cons a rest ih =>
    obtain ⟨ha, hrest⟩ := List.pairwise_cons.1 hl
    unfold place? at h
    split at h
    · rename_i hlt
      simp only [Option.some.injEq] at h
      subst h
      refine List.pairwise_cons.2 ⟨fun b hb => ?_, hl⟩
      rcases List.mem_cons.1 hb with rfl | hb
      · exact hlt
      · exact String.lt_trans hlt (ha b hb)
    · split at h
      · rename_i hlt
        obtain ⟨m, hm, rfl⟩ := Option.map_eq_some_iff.1 h
        refine List.pairwise_cons.2 ⟨fun b hb => ?_, ih hrest hm⟩
        rcases mem_of_place? hm hb with rfl | hb
        · exact hlt
        · exact ha b hb
      · exact absurd h (by simp)

/-- Add a cell. A name that is taken is an error. -/
def register (r : Registry) (cell : Cell) : Except ConfigError Registry :=
  match h : place? cell r.cells with
  | some cells => .ok ⟨cells, pairwise_of_place? r.ordered h⟩
  | none => .error (.invalid (.duplicateCell cell.name))

/-- Add cells one after the other. -/
def registerAll (r : Registry) (cells : List Cell) : Except ConfigError Registry :=
  cells.foldlM register r

def get? (r : Registry) (name : String) : Option Cell := r.cells.find? (·.name == name)

def names (r : Registry) : List String := r.cells.map (·.name)

/-- The names of the cells that can follow with the given arguments. -/
def candidates (r : Registry) (args : List Value) : List String :=
  (r.cells.filter fun c => !c.entry && c.signature.accepts args).map (·.name)

theorem name_of_get? {r : Registry} {name : String} {c : Cell} (h : r.get? name = some c) :
    c.name = name := by
  simpa using List.find?_some h

theorem mem_of_get? {r : Registry} {name : String} {c : Cell} (h : r.get? name = some c) :
    c ∈ r.cells := List.mem_of_find?_eq_some h

end Registry

end SelfWiring
