import SelfWiring.Config.File
import SelfWiring.Proofs.Toml.Documents

/-!
# Saved settings are loaded again

Settings whose integers are in the signed 64-bit range can be saved, whatever their texts consist
of, and loading the file gives back these settings, or the fault for which they are refused. Where
an integer is out of that range nothing is saved, and a file that is there stays as it is.
-/

namespace SelfWiring

/-- What is entered once in an association list is found. -/
theorem lookup_of_mem {α β : Type} [BEq α] [LawfulBEq α] {l : List (α × β)}
    (hnodup : (l.map (·.1)).Nodup) {key : α} {value : β} (h : (key, value) ∈ l) :
    l.lookup key = some value := by
  obtain ⟨before, after, rfl⟩ := List.append_of_mem h
  rw [List.map_append, List.map_cons, List.nodup_append] at hnodup
  rw [List.lookup_eq_some_iff]
  refine ⟨before, after, rfl, fun e he => ?_⟩
  have hne := hnodup.2.2 e.1 (List.mem_map_of_mem he) key List.mem_cons_self
  exact bne_iff_ne.mpr hne.symm

namespace Config

open Toml (Written)

/-- The integers among the settings. -/
def integers (c : Config) : List Nat :=
  [c.eventWorkers.toNat, c.inputWorkers.toNat, c.maxSignals.toNat] ++
  (c.rngSeed.map UInt64.toNat).toList ++
  [c.pollInterval.toNat, c.retryMaxAttempts.toNat, c.retryBaseDelay.toNat, c.retryMaxDelay.toNat,
    c.maxRetraversals.toNat, c.eventCapacity.toNat]

/-! ## Settings -/

namespace Setting

/-- The value that a setting has in the file. -/
def value : Setting → Toml.Value
  | text s => .text s
  | number n => .integer n

/-- How a setting stands in the file. -/
def written : Setting → List Char
  | text s => Toml.render s.toList
  | number n => Nat.toDigits 10 n

/-- Whether there is a place for a setting in the file. -/
def fits : Setting → Bool
  | text _ => true
  | number n => n < 2 ^ 63

theorem write?_eq (s : Setting) : s.write? = if s.fits then some s.written else none := by
  cases s <;> simp [write?, fits, written]

theorem written_value {s : Setting} (h : s.fits = true) : Written s.value s.written := by
  cases s with
  | text s =>
    have hread := Toml.written_text s.toList
    rw [String.ofList_toList] at hread
    exact hread
  | number n => exact Toml.written_integer (of_decide_eq_true h)

theorem not_mem_written (s : Setting) : '\r' ∉ s.written := by
  cases s with
  | text s => exact Toml.not_mem_render s.toList
  | number n => exact fun h => absurd (Text.Integer.isDigit_of_mem_toDigits h) (by decide)

end Setting

/-! ## Files -/

/-- The lines of a file: each setting by name, with its value and how it is written. -/
def lines (c : Config) : List (String × Toml.Value × List Char) :=
  c.settings.map fun e => (e.1, e.2.value, e.2.written)

theorem mapM_line? {es : List (String × Setting)} (h : ∀ e ∈ es, e.2.fits = true) :
    es.mapM line? = some (es.map fun e => Toml.entryLine e.1 e.2.written) := by
  induction es with
  | nil => rfl
  | cons e es ih =>
    have hline : line? e = some (Toml.entryLine e.1 e.2.written) := by
      rw [line?, Setting.write?_eq, if_pos (h e List.mem_cons_self)]
      rfl
    rw [List.mapM_cons, hline, ih fun e' he' => h e' (List.mem_cons_of_mem _ he')]
    rfl

theorem mapM_line?_eq_none {es : List (String × Setting)} (h : ∃ e ∈ es, e.2.fits = false) :
    es.mapM line? = none := by
  obtain ⟨e, he, hfits⟩ := h
  induction es with
  | nil => exact absurd he List.not_mem_nil
  | cons e' es ih =>
    rw [List.mapM_cons]
    rcases List.mem_cons.mp he with rfl | he
    · rw [line?, Setting.write?_eq, hfits]
      rfl
    · rw [ih he]
      cases line? e' <;> rfl

theorem write?_of_fits {c : Config} (h : ∀ e ∈ c.settings, e.2.fits = true) :
    c.write? = some (String.ofList (Toml.document c.lines)) := by
  rw [write?, mapM_line? h, Option.map_some, Toml.document, lines, List.flatMap_map, List.flatMap]

theorem nodup_names (c : Config) : (c.settings.map (·.1)).Nodup := by
  cases hseed : c.rngSeed <;> simp [settings, hseed]

theorem valueAt?_lines (c : Config) (name : String) :
    Toml.valueAt? (Toml.entriesOf c.lines) name =
      (c.settings.lookup name).map fun s => .value s.value := by
  unfold Toml.valueAt? Toml.entriesOf lines
  rw [List.map_map]
  induction c.settings with
  | nil => rfl
  | cons e es ih =>
    rw [List.map_cons, List.lookup_cons, List.lookup_cons]
    simp only [Function.comp_apply]
    cases name == e.1
    · exact ih
    · rfl

section

variable {c : Config}

theorem textAt_of_mem (name : String) {s : String} (h : (name, .text s) ∈ c.settings)
    (default : String) :
    textAt (Toml.entriesOf c.lines) name default = some s := by
  rw [textAt, valueAt?_lines, lookup_of_mem c.nodup_names h]
  rfl

theorem numberAt?_of_mem {name : String} {n bound : Nat} (h : (name, .number n) ∈ c.settings)
    (hbound : n < bound) : numberAt? (Toml.entriesOf c.lines) bound name = some (some n) := by
  have hvalue : Toml.valueAt? (Toml.entriesOf c.lines) name = some (.value (.integer n)) := by
    rw [valueAt?_lines, lookup_of_mem c.nodup_names h]
    rfl
  simp only [numberAt?, hvalue]
  rw [if_pos (by omega), Int.toNat_natCast]

theorem word64At_of_mem (name : String) {n : UInt64} (h : (name, .number n.toNat) ∈ c.settings)
    (default : UInt64) : word64At (Toml.entriesOf c.lines) name default = some n := by
  rw [word64At, numberAt?_of_mem h n.toNat_lt]
  simp

theorem word32At_of_mem (name : String) {n : UInt32} (h : (name, .number n.toNat) ∈ c.settings)
    (default : UInt32) : word32At (Toml.entriesOf c.lines) name default = some n := by
  rw [word32At, numberAt?_of_mem h n.toNat_lt]
  simp

end

/-- A seed that is not set is not in the file. -/
theorem numberAt?_seed (c : Config) :
    numberAt? (Toml.entriesOf c.lines) 0x10000000000000000 "rng_seed" =
      some (c.rngSeed.map UInt64.toNat) := by
  cases hseed : c.rngSeed with
  | none =>
    have hlookup : c.settings.lookup "rng_seed" = none := by
      simp [settings, hseed, List.lookup_cons]
    rw [numberAt?, valueAt?_lines, hlookup]
    rfl
  | some n => exact numberAt?_of_mem (by simp [settings, hseed]) n.toNat_lt

theorem ofEntries?_lines (c : Config) : ofEntries? (Toml.entriesOf c.lines) = some c := by
  have hseed : (c.rngSeed.map UInt64.toNat).map UInt64.ofNat = c.rngSeed := by
    cases c.rngSeed <;> simp
  unfold ofEntries?
  dsimp only
  rw [textAt_of_mem "db_path" (s := c.dbPath) (by simp [settings])]
  rw [textAt_of_mem "log_level" (s := c.logLevel) (by simp [settings])]
  rw [word64At_of_mem "event_workers" (n := c.eventWorkers) (by simp [settings])]
  rw [word64At_of_mem "input_workers" (n := c.inputWorkers) (by simp [settings])]
  rw [word64At_of_mem "max_signals" (n := c.maxSignals) (by simp [settings])]
  rw [numberAt?_seed]
  rw [word64At_of_mem "poll_interval_ms" (n := c.pollInterval) (by simp [settings])]
  rw [word32At_of_mem "retry_max_attempts" (n := c.retryMaxAttempts) (by simp [settings])]
  rw [word64At_of_mem "retry_base_delay_ms" (n := c.retryBaseDelay) (by simp [settings])]
  rw [word64At_of_mem "retry_max_delay_ms" (n := c.retryMaxDelay) (by simp [settings])]
  rw [word32At_of_mem "max_retraversals" (n := c.maxRetraversals) (by simp [settings])]
  rw [word64At_of_mem "event_capacity" (n := c.eventCapacity) (by simp [settings])]
  rw [textAt_of_mem "separator" (s := c.separator) (by simp [settings])]
  simp only [Option.bind_eq_bind, Option.bind_some, hseed]
  rfl

/-- All settings fit if the integers do. -/
theorem fits_iff {c : Config} :
    (∀ e ∈ c.settings, e.2.fits = true) ↔ ∀ n ∈ c.integers, n < 2 ^ 63 := by
  cases hseed : c.rngSeed <;>
    simp only [settings, integers, hseed, List.forall_mem_append, List.forall_mem_cons,
      Option.map_none, Option.map_some, Option.toList_none, Option.toList_some, Setting.fits,
      decide_eq_true_eq, List.not_mem_nil, false_implies, implies_true, true_and, and_true]

/-! ## Saving and loading -/

theorem isBareKey_names (c : Config) : ∀ e ∈ c.settings, Toml.IsBareKey e.1 := by
  cases hseed : c.rngSeed <;> simp [settings, hseed, Toml.IsBareKey, Toml.isKeyChar]

/-- The file is read as the settings that were written. -/
theorem read?_lines {c : Config} (h : ∀ e ∈ c.settings, e.2.fits = true) :
    (Toml.read? (String.ofList (Toml.document c.lines))).bind ofEntries? = some c := by
  have hmem : ∀ l ∈ c.lines, ∃ e ∈ c.settings, (e.1, e.2.value, e.2.written) = l :=
    fun l hl => List.mem_map.mp hl
  rw [Toml.read?_document]
  · rw [Option.bind_some, ofEntries?_lines]
  · intro l hl
    obtain ⟨e, he, rfl⟩ := hmem l hl
    exact c.isBareKey_names e he
  · intro l hl
    obtain ⟨e, he, rfl⟩ := hmem l hl
    exact Setting.written_value (h e he)
  · intro l hl
    obtain ⟨e, he, rfl⟩ := hmem l hl
    exact e.2.not_mem_written
  · rw [lines, List.map_map]
    exact c.nodup_names

/-- Settings are loaded as they were saved. Where the integers are in the signed 64-bit range saving
works, and loading the file then gives back the settings, or the fault for which they are refused.
Otherwise saving fails, and what was there before is there still. -/
theorem load_save (c : Config) (present : Option String) :
    ((∀ n ∈ c.integers, n < 2 ^ 63) → (c.save present).1 = .ok () ∧
      (c.validate = .ok () → load (c.save present).2 = .ok c) ∧
      ∀ e, c.validate = .error e →
        (∃ fault, e = .invalid fault) ∧ load (c.save present).2 = .error (.config e)) ∧
    ((∃ n ∈ c.integers, 2 ^ 63 ≤ n) → c.save present = (.error .unwritable, present)) := by
  constructor
  · intro hsmall
    have hfits := fits_iff.mpr hsmall
    have hsave : c.save present = (.ok (), some (String.ofList (Toml.document c.lines))) := by
      rw [save, write, write?_of_fits hfits]
    rw [hsave]
    refine ⟨rfl, fun hvalid => ?_, fun e he => ⟨?_, ?_⟩⟩
    · simp only [load, read, read?_lines hfits, hvalid]
    · unfold validate at he
      split at he
      · exact ⟨_, (Except.error.inj he).symm⟩
      · exact nomatch he
    · simp only [load, read, read?_lines hfits, he]
  · rintro ⟨n, hn, hlarge⟩
    have hfits : ∃ e ∈ c.settings, e.2.fits = false := by
      by_contra hall
      have hsmall := fits_iff.mp (by simpa using hall) n hn
      omega
    rw [save, write, write?, mapM_line?_eq_none hfits]
    rfl

/-- Texts of quotes, breaks and control characters with the largest seed there is a place for, and a
seed that is one too large. -/
theorem load_save_of_awkward_texts :
    load (save { dbPath := "\"\"\" '''\r\n\\", logLevel := "''", separator := ""
                 rngSeed := some 0x7FFFFFFFFFFFFFFF } none).2 =
      .ok { dbPath := "\"\"\" '''\r\n\\", logLevel := "''", separator := ""
            rngSeed := some 0x7FFFFFFFFFFFFFFF } ∧
    load (save { inputWorkers := 0, separator := "\t" } none).2 =
      .error (.config (.invalid .inputWorkers)) ∧
    save { rngSeed := some 0x8000000000000000 } (some "max_signals = 2") =
      (.error .unwritable, some "max_signals = 2") := by
  refine ⟨?_, ?_, ?_⟩
  · exact ((load_save _ none).1 (by decide)).2.1 rfl
  · exact (((load_save _ none).1 (by decide)).2.2 _ rfl).2
  · exact (load_save _ _).2 ⟨0x8000000000000000, by decide, by decide⟩

end Config

end SelfWiring
