import SelfWiring.Store.Database

/-!
# Opening files of every version

Only the first version row decides whether a file is opened, and it is read as an unsigned 32-bit
integer: what is no such integer counts as no version at all. So a file is refused if its version is
greater than the supported one and fits 32 bits, and it is left as it is then. A file whose version
does not fit is taken for one that was never set up. It gets a second version row and is opened,
however new it is. The tables of a file are never touched by opening it.
-/

namespace SelfWiring.Database

theorem migrate_tables (d : Database) : d.migrate.2.tables = d.tables := by
  unfold migrate
  dsimp only
  split
  · rfl
  · split <;> rfl

/-- Refusing a file changes nothing in it. -/
theorem migrate_of_error {d : Database} {e : StoreError} (h : d.migrate.1 = .error e) :
    d.migrate.2 = d := by
  unfold migrate at h ⊢
  dsimp only at h ⊢
  split at h
  · exact nomatch h
  · rw [if_neg ‹_›]
    split <;> rfl

theorem migrate_eq_error_iff {d : Database} {e : StoreError} : d.migrate.1 = .error e ↔
    supportedVersion < layoutVersion d.versions ∧ e = newer (layoutVersion d.versions) := by
  unfold migrate
  dsimp only
  split
  case isTrue hzero => simp [hzero]
  case isFalse =>
    split
    case isTrue hnewer => simp [hnewer, eq_comm]
    case isFalse hold => simp [hold]

theorem migrate_versions (d : Database) : d.migrate.2.versions =
    if layoutVersion d.versions = 0 then d.versions ++ [.integer supportedVersion]
    else d.versions := by
  unfold migrate
  dsimp only
  split
  · rfl
  · split <;> rfl

/-- A file that is opened for writing is opened as it is after its migration, and stays so. -/
theorem opening_eq (d : Database) : (Site.database d).opening .create =
    (d.migrate.1.map fun () => d.migrate.2, .database d.migrate.2) := by
  have hwritable : (Access.create == .read) = false := rfl
  simp only [Site.opening, reduceCtorEq, false_and, if_false, hwritable, Bool.or_false]

theorem layoutVersion_integer (n : Int) (rest : List VersionCell) :
    layoutVersion (.integer n :: rest) = if 0 ≤ n ∧ n < 0x100000000 then n.toNat else 0 := rfl

/-- A file with any tables and any 64-bit integer for a version is refused if that is greater than
the supported version and less than `2 ^ 32`, with a message that names it, and stays as it is.
Every other file is opened with its tables as they are, and with a second version row where its
version is none. -/
theorem opening_of_version (tables : Tables) (version : Int64) :
    let d : Database := { versions := [.integer version.toInt], tables }
    let opened := (Site.database d).opening .create
    (∀ e, opened.1 = .error e ↔
      (supportedVersion < version.toInt ∧ version.toInt < 0x100000000) ∧
        e = newer version.toInt.toNat) ∧
    (∀ e, opened.1 = .error e → opened.2 = .database d) ∧
    (∀ d', opened.1 = .ok d' → opened.2 = .database d' ∧ d'.tables = tables ∧
      d'.versions = if 0 < version.toInt ∧ version.toInt < 0x100000000 then d.versions
        else d.versions ++ [.integer supportedVersion]) := by
  intro d opened
  have hopened : opened = (d.migrate.1.map fun () => d.migrate.2, .database d.migrate.2) :=
    opening_eq d
  rw [hopened]
  dsimp only
  have hversion : layoutVersion d.versions =
      if 0 ≤ version.toInt ∧ version.toInt < 0x100000000 then version.toInt.toNat else 0 :=
    layoutVersion_integer _ _
  refine ⟨fun e => ?_, fun e h => ?_, fun d' h => ?_⟩
  · have herror : (d.migrate.1.map fun () => d.migrate.2) = .error e ↔ d.migrate.1 = .error e := by
      cases d.migrate.1 <;> simp [Except.map]
    have hnewer : supportedVersion < layoutVersion d.versions ↔
        supportedVersion < version.toInt ∧ version.toInt < 0x100000000 := by
      rw [hversion, supportedVersion]
      split <;> omega
    rw [herror, migrate_eq_error_iff, hnewer]
    refine and_congr_right fun hrange => ?_
    rw [hversion, if_pos ⟨by omega, hrange.2⟩]
  · cases hfailed : d.migrate.1 with
    | ok _ => rw [hfailed] at h; exact nomatch h
    | error e' => rw [migrate_of_error hfailed]
  · cases hdone : d.migrate.1 with
    | error e => rw [hdone] at h; exact nomatch h
    | ok _ =>
      rw [hdone] at h
      obtain rfl := Except.ok.inj h
      refine ⟨rfl, d.migrate_tables, d.migrate_versions.trans ?_⟩
      have hunset : layoutVersion d.versions = 0 ↔
          ¬ (0 < version.toInt ∧ version.toInt < 0x100000000) := by
        rw [hversion]
        split <;> omega
      by_cases hset : 0 < version.toInt ∧ version.toInt < 0x100000000
      · rw [if_neg fun h => hunset.mp h hset, if_pos hset]
      · rw [if_pos (hunset.mpr hset), if_neg hset]

/-- A file whose version is `2 ^ 32` is opened, though the supported version is one. -/
theorem opened_of_newer_version :
    supportedVersion < (4294967296 : Int64).toInt ∧
      (openAt (.database { versions := [.integer (4294967296 : Int64).toInt] })).isOk = true := by
  decide

end SelfWiring.Database
