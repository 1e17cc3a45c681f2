/-! # Dictionaries

Values under texts, in the order in which the texts were first used. The view of a dictionary is
`get?`: writing a key replaces its value and touches no other key.
-/

namespace SelfWiring

structure Dict (α : Type) where
  entries : List (String × α) := []

namespace Dict

def get? (d : Dict α) (key : String) : Option α := d.entries.lookup key

def contains (d : Dict α) (key : String) : Bool := (d.get? key).isSome

def put (key : String) (value : α) : List (String × α) → List (String × α)
  | [] => [(key, value)]
  | (k, v) :: rest => if k = key then (key, value) :: rest else (k, v) :: put key value rest

def insert (d : Dict α) (key : String) (value : α) : Dict α := ⟨put key value d.entries⟩

def keys (d : Dict α) : List String := d.entries.map (·.1)

theorem lookup_put (key : String) (value : α) (l : List (String × α)) (k : String) :
    (put key value l).lookup k = if k = key then some value else l.lookup k := by
  induction l with
  | nil =>
    by_cases h : k = key
    · simp [put, h]
    · simp [put, List.lookup_cons, h, beq_eq_false_iff_ne.2 h]
  | cons e rest ih =>
    obtain ⟨k', v'⟩ := e
    unfold put
    by_cases h : k' = key
    · subst h
      by_cases hk : k = k'
      · simp [hk]
      · simp [List.lookup_cons, hk, beq_eq_false_iff_ne.2 hk]
    · by_cases hk : k = k'
      · subst hk
        simp [h]
      · simp [List.lookup_cons, h, beq_eq_false_iff_ne.2 hk, ih]

theorem get?_insert (d : Dict α) (key : String) (value : α) (k : String) :
    (d.insert key value).get? k = if k = key then some value else d.get? k :=
  lookup_put key value d.entries k

@[simp] theorem get?_insert_self (d : Dict α) (key : String) (value : α) :
    (d.insert key value).get? key = some value := by simp [get?_insert]

theorem get?_insert_of_ne (d : Dict α) {key k : String} (value : α) (h : k ≠ key) :
    (d.insert key value).get? k = d.get? k := by simp [get?_insert, h]

@[simp] theorem get?_empty (k : String) : (({} : Dict α)).get? k = none := rfl

theorem lookup_map (f : String → α → β) (key : String) (l : List (String × α)) :
    (l.map fun e => (e.1, f e.1 e.2)).lookup key = (l.lookup key).map (f key) := by
  induction l with
  | nil => rfl
  | cons e rest ih =>
    rw [List.map_cons, List.lookup_cons, List.lookup_cons, ih]
    cases h : key == e.1
    · rfl
    · rw [beq_iff_eq.mp h]
      rfl

/-- Writing a value goes through a change of all values. -/
theorem put_map (f : String → α → β) (key : String) (value : α) (l : List (String × α)) :
    put key (f key value) (l.map fun e => (e.1, f e.1 e.2)) =
      (put key value l).map fun e => (e.1, f e.1 e.2) := by
  induction l with
  | nil => rfl
  | cons e rest ih =>
    rw [List.map_cons, put, put]
    split
    · rfl
    · rw [List.map_cons, ih]

/-! ## Keys -/

theorem mem_keys {d : Dict α} {key : String} : key ∈ d.keys ↔ (d.get? key).isSome = true := by
  rw [keys, get?]
  induction d.entries with
  | nil => simp
  | cons e rest ih =>
    rw [List.map_cons, List.mem_cons, List.lookup_cons, ih]
    by_cases he : key = e.1
    · simp [he]
    · simp [he, beq_eq_false_iff_ne.mpr he]

theorem contains_iff_mem_keys {d : Dict α} {key : String} :
    d.contains key = true ↔ key ∈ d.keys := mem_keys.symm

theorem mem_keys_put (key : String) (value : α) (k : String) : ∀ l : List (String × α),
    k ∈ (put key value l).map (·.1) ↔ k ∈ l.map (·.1) ∨ k = key
  | [] => by simp [put]
  | e :: rest => by
    rw [put]
    split
    case isTrue h => simp [h, or_comm]
    case isFalse => simp [mem_keys_put key value k rest, or_assoc]

/-- A key that is there already is not entered again. -/
theorem nodup_keys_put (key : String) (value : α) : ∀ {l : List (String × α)},
    (l.map (·.1)).Nodup → ((put key value l).map (·.1)).Nodup
  | [], _ => by simp [put]
  | (k, v) :: rest, h => by
    obtain ⟨hk, hrest⟩ := List.nodup_cons.mp h
    rw [put]
    split
    case isTrue heq => exact heq ▸ h
    case isFalse hne =>
      refine List.nodup_cons.mpr ⟨fun hmem => ?_, nodup_keys_put key value hrest⟩
      rcases (mem_keys_put key value k rest).mp hmem with hmem | heq
      · exact hk hmem
      · exact hne heq

theorem nodup_keys_insert {d : Dict α} (h : d.keys.Nodup) (key : String) (value : α) :
    (d.insert key value).keys.Nodup := nodup_keys_put key value h

/-- Writing the value of a key replaces the one that is there. -/
theorem put_perm (key : String) (value : α) : ∀ {l : List (String × α)}, (l.map (·.1)).Nodup →
    (put key value l).Perm ((key, value) :: l.filter (·.1 ≠ key))
  | [], _ => .refl _
  | (k, v) :: rest, hnodup => by
    rw [List.map_cons, List.nodup_cons] at hnodup
    rw [put]
    by_cases hk : k = key
    · have hall : rest.filter (·.1 ≠ key) = rest := by
        refine List.filter_eq_self.mpr fun e he => decide_eq_true fun heq => hnodup.1 ?_
        exact List.mem_map.mpr ⟨e, he, heq.trans hk.symm⟩
      rw [if_pos hk, List.filter_cons_of_neg (by simpa using hk), hall]
    · rw [if_neg hk, List.filter_cons_of_pos (by simpa using hk)]
      exact ((put_perm key value hnodup.2).cons (k, v)).trans (.swap _ _ _)

end Dict

end SelfWiring
