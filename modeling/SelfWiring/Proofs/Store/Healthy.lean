import Mathlib.Data.Finset.Card
import Mathlib.Tactic.Tauto
import SelfWiring.Proofs.Store.Blank
import SelfWiring.Proofs.Store.Patterns
import SelfWiring.Proofs.Store.Rows
import SelfWiring.Store.Backend

/-!
# Healthy stores

A store of either make is healthy while nothing gets in the way of a call and no key stands in it
twice: the dictionaries and the tables have one entry for each key, rows are numbered, nobody else
holds the write lock of the database, and its file may be written. Every call leaves a healthy store
healthy. Such stores are without faults, and they count each key that matches a pattern once,
whether it is the key of a text or of a set.
-/

namespace SelfWiring

theorem nodup_addMembers {members : List String} :
    ∀ {present : List String}, present.Nodup → (addMembers present members).Nodup := by
  induction members with
  | nil => exact id
  | cons m members ih =>
    intro present h
    refine ih ?_
    dsimp only
    split
    · exact h
    · rename_i habsent
      rw [← List.concat_eq_append]
      exact h.concat (by simpa using habsent)

/-! ## Keys of the memory store -/

namespace Memory

structure Healthy (m : Memory) : Prop where
  texts : m.texts.keys.Nodup
  sets : m.sets.keys.Nodup

theorem Healthy.perform {m : Memory} (h : m.Healthy) (c : StoreCall) :
    (Memory.perform c m).2.Healthy := by
  cases c
  case set | incr => exact ⟨Dict.nodup_keys_insert h.texts _ _, h.sets⟩
  case setAdd => exact ⟨h.texts, Dict.nodup_keys_insert h.sets _ _⟩
  case setInit key members =>
    simp only [Memory.perform]
    split
    · exact h
    · exact ⟨h.texts, Dict.nodup_keys_insert h.sets _ _⟩
  case pop list =>
    simp only [Memory.perform]
    split <;> exact ⟨h.texts, h.sets⟩
  all_goals exact ⟨h.texts, h.sets⟩

/-- The text keys, and the set keys that are no text keys. -/
def keys (m : Memory) : List String := m.texts.keys ++ m.sets.keys.filter (!m.texts.contains ·)

theorem matching_eq (m : Memory) (pattern : String) :
    m.matching pattern = m.keys.filter (globMatch pattern) := by
  rw [matching, keys, List.filter_append, List.filter_filter, List.filter_filter]
  refine congrArg _ (List.filter_congr fun _ _ => Bool.and_comm _ _)

end Memory

/-! ## Keys of the table store -/

namespace Tables

theorem keys_upsert (key value : String) (rows : List (String × String)) :
    (upsert key value rows).map (·.1) = addMembers (rows.map (·.1)) [key] := by
  have hpresent : rows.any (·.1 == key) = (rows.map (·.1)).contains key := by
    rw [Bool.eq_iff_iff, List.any_eq_true, List.contains_iff_mem, List.mem_map]
    simp
  show _ = if (rows.map (·.1)).contains key then rows.map (·.1) else rows.map (·.1) ++ [key]
  rw [upsert, hpresent]
  split
  · -- a row is replaced by one with the same key
    rw [List.map_map]
    refine List.map_congr_left fun r _ => ?_
    rw [Function.comp_apply]
    split
    case isTrue h => exact h.symm
    case isFalse => rfl
  · exact List.map_append

theorem mem_text_keys {t : Tables} {key : String} :
    key ∈ t.texts.map (·.1) ↔ (t.text? key).isSome = true := by
  rw [text?, Option.isSome_map, List.find?_isSome, List.mem_map]
  simp

structure Healthy (t : Tables) : Prop where
  orderly : t.Orderly
  texts : (t.texts.map (·.1)).Nodup
  headers : t.headers.Nodup

theorem nodup_withMembers {t : Tables} (h : t.headers.Nodup) (key : String)
    (members : List String) : (t.withMembers key members).headers.Nodup := by
  obtain ⟨rows, next, hfold⟩ := foldl_addMember_eq key (addHeader key t) members
  rw [withMembers, hfold]
  show (addHeader key t).headers.Nodup
  unfold addHeader
  split
  case isTrue => exact h
  case isFalse habsent =>
    show (t.headers ++ [key]).Nodup
    rw [← List.concat_eq_append]
    exact h.concat (by simpa using habsent)

theorem Healthy.withMembers {t : Tables} (h : t.Healthy) (key : String) (members : List String) :
    (t.withMembers key members).Healthy where
  orderly := h.orderly.withMembers key members
  texts := (t.texts_withMembers key members).symm ▸ h.texts
  headers := nodup_withMembers h.headers key members

theorem Healthy.perform {t : Tables} (h : t.Healthy) (c : StoreCall) :
    (Tables.perform c t).2.Healthy := by
  have horderly := h.orderly.perform c
  have hupsert : ∀ key value, ((upsert key value t.texts).map (·.1)).Nodup := by
    intro key value
    rw [keys_upsert]
    exact nodup_addMembers h.texts
  cases c
  case set | incr => exact ⟨horderly, hupsert _ _, h.headers⟩
  case setInit key members =>
    simp only [Tables.perform]
    split
    · exact h
    · exact h.withMembers key members
  case setAdd key members => exact h.withMembers key members
  case pop | zadd =>
    refine ⟨horderly, ?_, ?_⟩ <;> simp only [Tables.perform] <;> split
    all_goals first | exact h.texts | exact h.headers
  all_goals exact ⟨horderly, h.texts, h.headers⟩

end Tables

structure Database.Healthy (d : Database) : Prop where
  unlocked : d.locked = false
  writable : d.readOnly = false
  tables : d.tables.Healthy

theorem Database.perform_eq {d : Database} (h : d.Healthy) (c : StoreCall) :
    d.perform c = ((d.tables.perform c).1, { d with tables := (d.tables.perform c).2 }) := by
  simp only [perform, h.unlocked, h.writable, Bool.false_and, Bool.false_eq_true, if_false]

theorem Database.Healthy.perform {d : Database} (h : d.Healthy) (c : StoreCall) :
    (Database.perform c d).2.Healthy := by
  rw [Database.perform_eq h]
  exact ⟨h.unlocked, h.writable, h.tables.perform c⟩

/-! ## Stores of either make -/

def Backend.Healthy : Backend → Prop
  | .memory m => m.Healthy
  | .database d => d.Healthy

theorem Backend.Healthy.perform {b : Backend} (h : b.Healthy) (c : StoreCall) :
    (Backend.perform c b).2.Healthy := by
  cases b with
  | memory m => exact Memory.Healthy.perform h c
  | database d => exact Database.Healthy.perform h c

/-- A store in memory or in a database that is healthy. -/
abbrev HealthyStore := { b : Backend // b.Healthy }

instance : Store HealthyStore where
  perform c s := ((Backend.perform c s.1).1, ⟨(Backend.perform c s.1).2, s.2.perform c⟩)

namespace HealthyStore

/-- A store in memory that holds nothing. -/
def inMemory : HealthyStore := ⟨.memory {}, .nil, .nil⟩

/-- A database that has just been created. -/
def inDatabase : HealthyStore :=
  ⟨.database .fresh, rfl, rfl, Tables.realizes_empty.orderly, .nil, .nil⟩

def contents (s : HealthyStore) : Contents :=
  match s.1 with
  | .memory m => m.contents
  | .database d => d.tables.contents

theorem performs_memory {m : Memory} (h : m.Healthy) {c : StoreCall}
    {answer : Except StoreError c.Answer} {after : Contents}
    (hperforms : Performs Memory.contents c m answer after) :
    Performs contents c (⟨.memory m, h⟩ : HealthyStore) answer after := hperforms

theorem performs_database {d : Database} (h : d.Healthy) {c : StoreCall}
    {answer : Except StoreError c.Answer} {after : Contents}
    (hperforms : Performs Tables.contents c d.tables answer after) :
    Performs contents c (⟨.database d, h⟩ : HealthyStore) answer after := by
  have hperform := Database.perform_eq h c
  refine ⟨(congrArg Prod.fst hperform).trans hperforms.1, ?_⟩
  show (Database.perform c d).2.tables.contents = after
  rw [hperform]
  exact hperforms.2

end HealthyStore

open HealthyStore in
instance : FaultFree HealthyStore where
  contents := HealthyStore.contents
  steady c s reason := by
    obtain ⟨m | d, h⟩ := s
    · exact Memory.perform_ne_transient c m reason
    · show (Database.perform c d).1 ≠ _
      rw [Database.perform_eq h]
      exact Tables.perform_ne_transient c d.tables reason
  get key
    | ⟨.memory m, h⟩ => performs_memory h (FaultFree.get key m)
    | ⟨.database _, h⟩ => performs_database h ⟨rfl, rfl⟩
  set key value
    | ⟨.memory m, h⟩ => performs_memory h (FaultFree.set key value m)
    | ⟨.database _, h⟩ => performs_database h (Tables.performs_set key value)
  incr key
    | ⟨.memory m, h⟩ => performs_memory h (FaultFree.incr key m)
    | ⟨.database _, h⟩ => performs_database h (Tables.performs_incr key)
  push list value
    | ⟨.memory m, h⟩ => performs_memory h (FaultFree.push list value m)
    | ⟨.database _, h⟩ => performs_database h (Tables.performs_push list value)
  pop_nil list
    | ⟨.memory m, h⟩, hlist => performs_memory h (FaultFree.pop_nil list m hlist)
    | ⟨.database _, h⟩, hlist =>
      performs_database h (Tables.performs_pop_nil h.tables.orderly hlist)
  pop_cons list
    | ⟨.memory m, h⟩, head, rest, hlist =>
      performs_memory h (FaultFree.pop_cons list m head rest hlist)
    | ⟨.database _, h⟩, _, _, hlist =>
      performs_database h (Tables.performs_pop_cons h.tables.orderly hlist)
  setInit_none key members
    | ⟨.memory m, h⟩, hset => performs_memory h (FaultFree.setInit_none key members m hset)
    | ⟨.database _, h⟩, hset =>
      performs_database h (Tables.performs_setInit_none h.tables.orderly hset members)
  setInit_some key members
    | ⟨.memory m, h⟩, present, hset =>
      performs_memory h (FaultFree.setInit_some key members m present hset)
    | ⟨.database _, h⟩, _, hset =>
      performs_database h (Tables.performs_setInit_some hset members)
  setMembers key
    | ⟨.memory m, h⟩ => performs_memory h (FaultFree.setMembers key m)
    | ⟨.database _, h⟩ => performs_database h (Tables.performs_setMembers h.tables.orderly key)
  zadd key member score s := by
    obtain ⟨m | d, h⟩ := s
    · exact FaultFree.zadd key member score m
    · show (Database.perform (.zadd key member score) d).2.tables.contents = d.tables.contents
      rw [Database.perform_eq h]
      exact Tables.contents_zadd key member score

/-! ## Counting keys -/

/-- A key stands in a store, for a text or for a set. -/
def Contents.Holds (s : Contents) (key : String) : Prop :=
  (s.text key).isSome = true ∨ (s.set key).isSome = true

/-- Keys of two kinds, each once, without those of the second kind that are of the first, too. -/
theorem nodup_append_filter_not {texts sets : List String} (htexts : texts.Nodup)
    (hsets : sets.Nodup) {isText : String → Bool} (hisText : ∀ k, isText k = true ↔ k ∈ texts) :
    (texts ++ sets.filter (!isText ·)).Nodup := by
  refine List.nodup_append.mpr ⟨htexts, hsets.filter _, ?_⟩
  rintro k hk _ hset rfl
  have habsent := (List.mem_filter.mp hset).2
  rw [(hisText k).mpr hk] at habsent
  exact absurd habsent (by simp)

theorem mem_append_filter_not {texts sets : List String} {isText : String → Bool}
    (hisText : ∀ k, isText k = true ↔ k ∈ texts) (key : String) :
    key ∈ texts ++ sets.filter (!isText ·) ↔ key ∈ texts ∨ key ∈ sets := by
  rw [List.mem_append, List.mem_filter, Bool.not_eq_true', ← Bool.not_eq_true, hisText]
  tauto

namespace HealthyStore

/-- The keys of texts and of sets. -/
def keys (s : HealthyStore) : List String :=
  match s.1 with
  | .memory m => m.keys
  | .database d => d.tables.keys

def matcher (s : HealthyStore) : String → String → Bool :=
  match s.1 with
  | .memory _ => globMatch
  | .database _ => classGlobMatch

theorem readsStar_matcher (s : HealthyStore) : Glob.ReadsStar s.matcher := by
  obtain ⟨_ | _, _⟩ := s
  · exact Glob.readsStar_globMatch
  · exact Glob.readsStar_classGlobMatch

theorem nodup_keys (s : HealthyStore) : s.keys.Nodup := by
  obtain ⟨m | d, h⟩ := s
  · exact nodup_append_filter_not h.texts h.sets fun _ => Dict.contains_iff_mem_keys
  · exact nodup_append_filter_not h.tables.texts h.tables.headers fun _ => List.contains_iff_mem

theorem mem_keys {s : HealthyStore} {key : String} : key ∈ s.keys ↔ s.contents.Holds key := by
  obtain ⟨m | d, h⟩ := s
  · refine (mem_append_filter_not (fun _ => Dict.contains_iff_mem_keys) key).trans ?_
    exact or_congr Dict.mem_keys Dict.mem_keys
  · refine (mem_append_filter_not (fun _ => List.contains_iff_mem) key).trans ?_
    refine or_congr Tables.mem_text_keys ?_
    show _ ↔ (d.tables.set? key).isSome = true
    rw [Tables.set?, ← List.contains_iff_mem]
    split <;> simp_all

theorem countKeys_eq (s : HealthyStore) {pattern : String}
    (hshort : ClassGlob.isTooLong pattern = false) :
    (Store.perform (.countKeys pattern) s).1 =
      .ok (s.keys.filter (s.matcher pattern)).length := by
  obtain ⟨m | d, h⟩ := s
  · show Except.ok (m.matching pattern).length = _
    rw [Memory.matching_eq]
    rfl
  · show (Database.perform (.countKeys pattern) d).1 = _
    rw [Database.perform_eq h]
    show (d.tables.matching pattern).map List.length = _
    rw [Tables.matching, hshort, Bool.false_and, if_neg Bool.false_ne_true]
    rfl

/-- How many keys match a pattern with one star: those that stand in the store under the start, any
text and the ending, as long as all keys that begin with the start are of ordinary characters. -/
theorem countKeys_star (s : HealthyStore) {start ending : String} (hstart : Glob.Ordinary start)
    (hending : Glob.Ordinary ending)
    (hshort : ClassGlob.isTooLong (start ++ "*" ++ ending) = false)
    (hkeys : ∀ key, s.contents.Holds key → start.toList <+: key.toList → Glob.Ordinary key)
    {fillings : Finset String}
    (hfillings : ∀ x, x ∈ fillings ↔ s.contents.Holds (start ++ x ++ ending)) :
    (Store.perform (.countKeys (start ++ "*" ++ ending)) s).1 = .ok fillings.card := by
  have hmatch : ∀ key, key ∈ s.keys.filter (s.matcher (start ++ "*" ++ ending)) ↔
      key ∈ fillings.image fun x => start ++ x ++ ending := by
    intro key
    rw [List.mem_filter, mem_keys, Finset.mem_image]
    constructor
    · rintro ⟨hheld, hmatches⟩
      have hordinary := hkeys key hheld (s.readsStar_matcher.begins hstart hmatches)
      obtain ⟨x, rfl⟩ := (s.readsStar_matcher.fills hstart hending hordinary).mp hmatches
      exact ⟨x, (hfillings x).mpr hheld, rfl⟩
    · rintro ⟨x, hx, rfl⟩
      have hheld := (hfillings x).mp hx
      have hbegins : start.toList <+: (start ++ x ++ ending).toList := by
        rw [String.toList_append, String.toList_append, List.append_assoc]
        exact List.prefix_append _ _
      have hordinary := hkeys _ hheld hbegins
      exact ⟨hheld, (s.readsStar_matcher.fills hstart hending hordinary).mpr ⟨x, rfl⟩⟩
  have hinjective : Function.Injective fun x => start ++ x ++ ending := by
    intro x y hxy
    have htexts := congrArg String.toList hxy
    simp only [String.toList_append, List.append_cancel_right_eq, List.append_cancel_left_eq]
      at htexts
    exact String.toList_injective htexts
  have himage : (s.keys.filter (s.matcher (start ++ "*" ++ ending))).toFinset =
      fillings.image fun x => start ++ x ++ ending := by
    ext key
    rw [List.mem_toFinset, hmatch]
  rw [countKeys_eq s hshort, ← Finset.card_image_of_injective fillings hinjective, ← himage,
    List.toFinset_card_of_nodup (s.nodup_keys.filter _)]

end HealthyStore

end SelfWiring
