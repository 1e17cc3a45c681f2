import Mathlib.Data.List.Nodup
import Mathlib.Data.List.Pairwise
import SelfWiring.Json.Form

/-!
# What a record depends on

Two documents have the same content for a record when one can be turned into the other: by putting
the members of the object in another order, by adding and leaving out members that the record does
not know, by leaving out a null that says nothing, by using another name of the same field, by doing
all this to the records inside, and by listing all fields in an array instead.

Reading gives the same result for two documents with the same content, and so does decoding any two
texts that these can be written as. A null says nothing only if its field is optional and has no
other member: a field that is given twice makes reading fail, whichever names and values it is given
with. A member whose name stands for no text makes it fail, too, even though it belongs to no field.
-/

namespace SelfWiring

namespace Json

/-! ## Content -/

/-- A field of a record, with what its values are. -/
structure Slot where
  field : Field
  /-- Whether null is the same as nothing. -/
  optional : Bool := false
  /-- Which values have the same content. -/
  same : Json → Json → Prop := Eq
  /-- Which values have a field given twice inside. -/
  repeats : Json → Prop := fun _ => False

structure Record where
  slots : List Slot
  /-- Whether an array of all fields in order may stand for the record. -/
  listed : Bool
  named : ∀ s ∈ slots, s.field.names ≠ []
  apart : (slots.flatMap (·.field.names)).Nodup

/-- The members for the values of fields in order, under the first name of each field. -/
def membersOf (slots : List Slot) (js : List Json) : List Member :=
  (slots.zip js).map fun (s, j) => (s.field.names.head?, j)

namespace Record

variable (r : Record)

def fields : List Field := r.slots.map (·.field)

/-- Documents with the same content for a record. -/
inductive SameContent : Json → Json → Prop
  | refl (j : Json) : SameContent j j
  | symm {j k : Json} (h : SameContent j k) : SameContent k j
  | trans {j k l : Json} (h : SameContent j k) (h' : SameContent k l) : SameContent j l
  | permute {ms ms' : List Member} (h : ms.Perm ms') : SameContent (.object ms) (.object ms')
  | unknown {name : String} {j : Json} {ms : List Member}
    (h : ∀ s ∈ r.slots, name ∉ s.field.names) :
    SameContent (.object ((some name, j) :: ms)) (.object ms)
  | null {s : Slot} {name : String} {ms : List Member} (hs : s ∈ r.slots)
    (hname : name ∈ s.field.names) (hoptional : s.optional = true)
    (honly : ∀ m ∈ ms, ∀ name ∈ s.field.names, m.1 ≠ some name) :
    SameContent (.object ((some name, .null) :: ms)) (.object ms)
  | rename {s : Slot} {name name' : String} {j : Json} {ms : List Member} (hs : s ∈ r.slots)
    (hname : name ∈ s.field.names) (hname' : name' ∈ s.field.names) :
    SameContent (.object ((some name, j) :: ms)) (.object ((some name', j) :: ms))
  | inside {s : Slot} {name : String} {j j' : Json} {ms : List Member} (hs : s ∈ r.slots)
    (hname : name ∈ s.field.names) (h : s.same j j') :
    SameContent (.object ((some name, j) :: ms)) (.object ((some name, j') :: ms))
  | list {js : List Json} (hlisted : r.listed = true) (hlength : js.length = r.slots.length) :
    SameContent (.array js) (.object (membersOf r.slots js))

/-- Documents that give a field of a record twice, or of a record inside. -/
inductive Repeats : Json → Prop
  | twice {s : Slot} {name name' : String} {j j' : Json} {ms : List Member} (hs : s ∈ r.slots)
    (hname : name ∈ s.field.names) (hname' : name' ∈ s.field.names)
    (h : [(some name, j), (some name', j')].Sublist ms) : Repeats (.object ms)
  | inside {s : Slot} {name : String} {j : Json} {ms : List Member} (hs : s ∈ r.slots)
    (hname : name ∈ s.field.names) (hmem : (some name, j) ∈ ms) (h : s.repeats j) :
    Repeats (.object ms)

end Record

/-- Arrays with the same content item by item. -/
inductive EachSame (same : Json → Json → Prop) : Json → Json → Prop
  | items {js ks : List Json} (h : List.Forall₂ same js ks) : EachSame same (.array js) (.array ks)

inductive SomeRepeats (repeats : Json → Prop) : Json → Prop
  | item {js : List Json} {j : Json} (hj : j ∈ js) (h : repeats j) : SomeRepeats repeats (.array js)

/-! ## The values of fields -/

namespace Field

theorem among_cons (f : Field) (name : String) (j : Json) (ms : List Member) :
    f.among ((some name, j) :: ms) = if name ∈ f.names then j :: f.among ms else f.among ms := by
  by_cases h : name ∈ f.names <;> simp [among, h]

theorem among_eq_nil (f : Field) {ms : List Member}
    (h : ∀ m ∈ ms, ∀ name ∈ f.names, m.1 ≠ some name) : f.among ms = [] := by
  refine List.filterMap_eq_nil_iff.mpr ?_
  rintro ⟨name, j⟩ hm
  cases name with
  | none => rfl
  | some name =>
    have hname : name ∉ f.names := fun hname => h _ hm name hname rfl
    simp [hname]

theorem inObject?_eq (f : Field) (ms : List Member) :
    f.inObject? ms = if (f.among ms).length ≤ 1 then some (f.among ms).head? else none := by
  unfold inObject?
  split
  · rename_i heq
    simp [heq]
  · rename_i heq
    simp [heq]
  · rename_i hnil hone
    rw [if_neg]
    intro hlength
    match h : f.among ms with
    | [] => exact hnil h
    | [j] => exact hone j h
    | _ :: _ :: _ => simp [h] at hlength

end Field

theorem mapM_if {α β : Type} (p : α → Prop) [DecidablePred p] (g : α → β) (as : List α) :
    as.mapM (fun a => if p a then some (g a) else none) =
      if ∀ a ∈ as, p a then some (as.map g) else none := by
  induction as with
  | nil => simp
  | cons a as ih =>
    rw [List.mapM_cons, ih]
    simp only [List.forall_mem_cons]
    by_cases ha : p a
    · by_cases has : ∀ b ∈ as, p b
      · rw [if_pos ha, if_pos has, if_pos ⟨ha, has⟩]
        rfl
      · rw [if_pos ha, if_neg has, if_neg fun h : p a ∧ ∀ b ∈ as, p b => has h.2]
        rfl
    · rw [if_neg ha, if_neg fun h : p a ∧ ∀ b ∈ as, p b => ha h.1]
      rfl

/-- An object has values for the fields if all its names are texts and none of the fields is given
twice. -/
theorem fields?_object (fs : List Field) (ms : List Member) :
    fields? fs (.object ms) =
      if ms.all (·.1.isSome) = true ∧ ∀ f ∈ fs, (f.among ms).length ≤ 1 then
        some (fs.map fun f => (f.among ms).head?)
      else none := by
  have hmapM : fs.mapM (Field.inObject? ms) = if ∀ f ∈ fs, (f.among ms).length ≤ 1 then
      some (fs.map fun f => (f.among ms).head?) else none := by
    rw [← mapM_if]
    congr 1
    funext f
    exact f.inObject?_eq ms
  rw [fields?, hmapM]
  by_cases h : ms.all (·.1.isSome) = true <;> simp [h]

theorem inArray?_of_length : ∀ {fs : List Field} {js : List Json}, js.length = fs.length →
    inArray? fs js = some (js.map some) := by
  intro fs
  induction fs with
  | nil =>
    intro js h
    rw [List.eq_nil_of_length_eq_zero h]
    rfl
  | cons f fs ih =>
    intro js h
    obtain ⟨j, js, rfl⟩ := List.exists_cons_of_length_eq_add_one h
    rw [inArray?, ih (Nat.succ.inj h)]
    rfl

/-! ## Objects with the same values -/

/-- Values of a field that come to the same. -/
inductive Slot.Same (s : Slot) : Option Json → Option Json → Prop
  | refl (v : Option Json) : s.Same v v
  | inside {j j' : Json} (h : s.same j j') : s.Same (some j) (some j')
  | null (h : s.optional = true) : s.Same (some .null) none

/-- Values that are given to a field, as often as it may be, and that come to the same. -/
structure Slot.Alike (s : Slot) (vs ws : List Json) : Prop where
  once : vs.length ≤ 1 ↔ ws.length ≤ 1
  same : vs.length ≤ 1 → s.Same vs.head? ws.head?

theorem Slot.alike_of_eq {s : Slot} {vs ws : List Json} (h : vs = ws) : s.Alike vs ws := by
  subst h
  exact ⟨Iff.rfl, fun _ => .refl _⟩

theorem Slot.alike_of_perm {s : Slot} {vs ws : List Json} (h : vs.Perm ws) : s.Alike vs ws := by
  refine ⟨by rw [h.length_eq], fun hlength => ?_⟩
  match vs with
  | [] =>
    rw [h.nil_eq]
    exact .refl _
  | [v] =>
    rw [List.perm_singleton.mp h.symm]
    exact .refl _
  | _ :: _ :: _ => simp at hlength

namespace Record

variable {r : Record}

theorem slot_eq {s t : Slot} {name : String} (hs : s ∈ r.slots) (ht : t ∈ r.slots)
    (hname : name ∈ s.field.names) (hname' : name ∈ t.field.names) : s = t := by
  by_contra hne
  have hsymm : Std.Symm (Function.onFun List.Disjoint fun s : Slot => s.field.names) :=
    ⟨fun _ _ h _ hmem hmem' => h hmem' hmem⟩
  have hdisjoint := (List.nodup_flatMap.mp r.apart).2
  exact hdisjoint.forall hs ht hne hname hname'

/-- Objects that say the same about every field. -/
structure Alike (r : Record) (ms ms' : List Member) : Prop where
  named : ms.all (·.1.isSome) = ms'.all (·.1.isSome)
  slots : ∀ s ∈ r.slots, s.Alike (s.field.among ms) (s.field.among ms')

theorem alike_of_perm {ms ms' : List Member} (h : ms.Perm ms') : r.Alike ms ms' where
  named := h.all_eq
  slots _ _ := Slot.alike_of_perm (h.filterMap _)

theorem alike_of_unknown {name : String} {j : Json} {ms : List Member}
    (h : ∀ s ∈ r.slots, name ∉ s.field.names) : r.Alike ((some name, j) :: ms) ms where
  named := by simp
  slots s hs := by
    apply Slot.alike_of_eq
    rw [Field.among_cons, if_neg (h s hs)]

theorem alike_of_null {s : Slot} {name : String} {ms : List Member} (hs : s ∈ r.slots)
    (hname : name ∈ s.field.names) (hoptional : s.optional = true)
    (honly : ∀ m ∈ ms, ∀ name ∈ s.field.names, m.1 ≠ some name) :
    r.Alike ((some name, .null) :: ms) ms where
  named := by simp
  slots t ht := by
    rw [Field.among_cons]
    by_cases hmem : name ∈ t.field.names
    · obtain rfl := slot_eq hs ht hname hmem
      rw [if_pos hmem, s.field.among_eq_nil honly]
      exact ⟨by simp, fun _ => .null hoptional⟩
    · rw [if_neg hmem]
      exact Slot.alike_of_eq rfl

theorem alike_of_rename {s : Slot} {name name' : String} {j : Json} {ms : List Member}
    (hs : s ∈ r.slots) (hname : name ∈ s.field.names) (hname' : name' ∈ s.field.names) :
    r.Alike ((some name, j) :: ms) ((some name', j) :: ms) where
  named := by simp
  slots t ht := by
    apply Slot.alike_of_eq
    have hboth : name ∈ t.field.names ↔ name' ∈ t.field.names := by
      constructor
      · intro hmem
        rwa [← slot_eq hs ht hname hmem]
      · intro hmem
        rwa [← slot_eq hs ht hname' hmem]
    simp only [Field.among_cons, hboth]

theorem alike_of_inside {s : Slot} {name : String} {j j' : Json} {ms : List Member}
    (hs : s ∈ r.slots) (hname : name ∈ s.field.names) (h : s.same j j') :
    r.Alike ((some name, j) :: ms) ((some name, j') :: ms) where
  named := by simp
  slots t ht := by
    rw [Field.among_cons, Field.among_cons]
    by_cases hmem : name ∈ t.field.names
    · obtain rfl := slot_eq hs ht hname hmem
      rw [if_pos hmem, if_pos hmem]
      exact ⟨by simp, fun _ => .inside h⟩
    · rw [if_neg hmem, if_neg hmem]
      exact Slot.alike_of_eq rfl

theorem fields?_object (r : Record) (ms : List Member) :
    fields? r.fields (.object ms) =
      if ms.all (·.1.isSome) = true ∧ ∀ s ∈ r.slots, (s.field.among ms).length ≤ 1 then
        some (r.slots.map fun s => (s.field.among ms).head?)
      else none := by
  rw [Json.fields?_object, fields]
  simp only [List.forall_mem_map, List.map_map, Function.comp_def]

end Record

/-! ## Listed fields -/

theorem name_mem_of_mem_membersOf {slots : List Slot} {js : List Json} {m : Member}
    {name : String} (hm : m ∈ membersOf slots js) (hname : m.1 = some name) :
    name ∈ slots.flatMap (·.field.names) := by
  obtain ⟨⟨s, j⟩, hzip, rfl⟩ := List.mem_map.mp hm
  exact List.mem_flatMap.mpr ⟨s, (List.of_mem_zip hzip).1, List.mem_of_head? hname⟩

theorem all_isSome_membersOf {slots : List Slot} {js : List Json}
    (hnamed : ∀ s ∈ slots, s.field.names ≠ []) :
    (membersOf slots js).all (·.1.isSome) = true := by
  refine List.all_eq_true.mpr fun m hm => ?_
  obtain ⟨⟨s, j⟩, hzip, rfl⟩ := List.mem_map.mp hm
  exact List.isSome_head?.mpr (hnamed s (List.of_mem_zip hzip).1)

/-- Each field gets its own value. -/
theorem map_among_membersOf {slots : List Slot} : ∀ {js : List Json},
    (∀ s ∈ slots, s.field.names ≠ []) → (slots.flatMap (·.field.names)).Nodup →
      js.length = slots.length →
      slots.map (fun s => s.field.among (membersOf slots js)) = js.map ([·]) := by
  induction slots with
  | nil =>
    intro js _ _ hlength
    rw [List.eq_nil_of_length_eq_zero hlength]
    rfl
  | cons s slots ih =>
    intro js hnamed hapart hlength
    obtain ⟨j, js, rfl⟩ := List.exists_cons_of_length_eq_add_one hlength
    rw [List.flatMap_cons, List.nodup_append'] at hapart
    obtain ⟨-, hrest, hdisjoint⟩ := hapart
    have hown : s.field.names ≠ [] := hnamed s List.mem_cons_self
    obtain ⟨name, names, hnames⟩ := List.exists_cons_of_ne_nil hown
    have hname : name ∈ s.field.names := hnames ▸ List.mem_cons_self
    have hcons : membersOf (s :: slots) (j :: js) = (some name, j) :: membersOf slots js := by
      simp [membersOf, hnames]
    have hnone : s.field.among (membersOf slots js) = [] := by
      apply s.field.among_eq_nil
      intro m hm other hother heq
      exact hdisjoint hother (name_mem_of_mem_membersOf hm heq)
    have hothers : ∀ t ∈ slots, t.field.among ((some name, j) :: membersOf slots js) =
        t.field.among (membersOf slots js) := by
      intro t ht
      rw [Field.among_cons, if_neg]
      intro hmem
      exact hdisjoint hname (List.mem_flatMap.mpr ⟨t, ht, hmem⟩)
    rw [hcons, List.map_cons, Field.among_cons, if_pos hname, hnone, List.map_congr_left hothers,
      ih (fun t ht => hnamed t (List.mem_cons_of_mem _ ht)) hrest (Nat.succ.inj hlength)]
    rfl

/-! ## Reading -/

/-- How a record is read: the values of its fields decide. -/
structure Reads {α : Type} (r : Record) (ofJson? : Json → Option α)
    (ofFields? : List (Option Json) → Option α) : Prop where
  object : ∀ ms, ofJson? (.object ms) = (fields? r.fields (.object ms)).bind ofFields?
  array : r.listed = true →
    ∀ js, ofJson? (.array js) = (fields? r.fields (.array js)).bind ofFields?
  respects : ∀ v w : Slot → Option Json, (∀ s ∈ r.slots, s.Same (v s) (w s)) →
    ofFields? (r.slots.map v) = ofFields? (r.slots.map w)
  rejects : ∀ (v : Slot → Option Json), ∀ s ∈ r.slots, ∀ j, v s = some j → s.repeats j →
    ofFields? (r.slots.map v) = none

namespace Reads

variable {α : Type} {r : Record} {ofJson? : Json → Option α}
  {ofFields? : List (Option Json) → Option α} (h : Reads r ofJson? ofFields?)

include h

theorem eq_of_alike {ms ms' : List Member} (halike : r.Alike ms ms') :
    ofJson? (.object ms) = ofJson? (.object ms') := by
  have honce : (∀ s ∈ r.slots, (s.field.among ms).length ≤ 1) ↔
      ∀ s ∈ r.slots, (s.field.among ms').length ≤ 1 :=
    forall₂_congr fun s hs => (halike.slots s hs).once
  rw [h.object, h.object, r.fields?_object, r.fields?_object, halike.named]
  by_cases hread : ms'.all (·.1.isSome) = true ∧ ∀ s ∈ r.slots, (s.field.among ms').length ≤ 1
  · rw [if_pos hread, if_pos ⟨hread.1, honce.mpr hread.2⟩]
    exact h.respects _ _ fun s hs => (halike.slots s hs).same (honce.mpr hread.2 s hs)
  · rw [if_neg hread, if_neg fun hms => hread ⟨hms.1, honce.mp hms.2⟩]

theorem eq_of_list {js : List Json} (hlisted : r.listed = true)
    (hlength : js.length = r.slots.length) :
    ofJson? (.array js) = ofJson? (.object (membersOf r.slots js)) := by
  have hvalues := map_among_membersOf r.named r.apart hlength
  have hheads : r.slots.map (fun s => (s.field.among (membersOf r.slots js)).head?) =
      js.map some := by
    have heads := congrArg (List.map List.head?) hvalues
    rw [List.map_map, List.map_map] at heads
    exact heads
  have honce : ∀ s ∈ r.slots, (s.field.among (membersOf r.slots js)).length ≤ 1 := by
    intro s hs
    have hmem : s.field.among (membersOf r.slots js) ∈ js.map ([·]) :=
      hvalues ▸ List.mem_map_of_mem hs
    obtain ⟨j, -, hj⟩ := List.mem_map.mp hmem
    rw [← hj]
    exact Nat.le_refl 1
  have harray : fields? r.fields (.array js) = some (js.map some) :=
    inArray?_of_length (by rw [hlength, Record.fields, List.length_map])
  rw [h.array hlisted, harray, h.object, r.fields?_object,
    if_pos ⟨all_isSome_membersOf r.named, honce⟩, hheads]

/-- Documents with the same content are read alike. -/
theorem eq_of_sameContent {j j' : Json} (hsame : r.SameContent j j') : ofJson? j = ofJson? j' := by
  induction hsame with
  | refl => rfl
  | symm _ ih => exact ih.symm
  | trans _ _ ih ih' => exact ih.trans ih'
  | permute hperm => exact h.eq_of_alike (Record.alike_of_perm hperm)
  | unknown hname => exact h.eq_of_alike (Record.alike_of_unknown hname)
  | null hs hname hoptional honly =>
    exact h.eq_of_alike (Record.alike_of_null hs hname hoptional honly)
  | rename hs hname hname' => exact h.eq_of_alike (Record.alike_of_rename hs hname hname')
  | inside hs hname hinside => exact h.eq_of_alike (Record.alike_of_inside hs hname hinside)
  | list hlisted hlength => exact h.eq_of_list hlisted hlength

/-- A document that gives a field twice is not read. -/
theorem eq_none_of_repeats {j : Json} (hrepeats : r.Repeats j) : ofJson? j = none := by
  cases hrepeats with
  | @twice s name name' j j' ms hs hname hname' hsub =>
    have hvalues : [j, j'].Sublist (s.field.among ms) := by
      have hamong : s.field.among [(some name, j), (some name', j')] = [j, j'] := by
        rw [Field.among_cons, Field.among_cons, if_pos hname, if_pos hname']
        rfl
      rw [← hamong]
      exact hsub.filterMap _
    have htwo := hvalues.length_le
    rw [h.object, r.fields?_object, if_neg]
    · rfl
    · intro hread
      have hone := hread.2 s hs
      simp only [List.length_cons, List.length_nil] at htwo
      omega
  | @inside s name j ms hs hname hmem hj =>
    rw [h.object, r.fields?_object]
    split_ifs with hread
    · have hvalue : (s.field.among ms).head? = some j := by
        have hin : j ∈ s.field.among ms := by
          refine List.mem_filterMap.mpr ⟨_, hmem, ?_⟩
          simp [hname]
        have hone := hread.2 s hs
        match hvalues : s.field.among ms with
        | [] => simp [hvalues] at hin
        | [k] => simp_all
        | _ :: _ :: _ => simp [hvalues] at hone
      exact h.rejects _ s hs j hvalue hj
    · rfl

/-- An object with a name that stands for no text is not read. -/
theorem eq_none_of_unnamed {ms : List Member} {j : Json} (hmem : (none, j) ∈ ms) :
    ofJson? (.object ms) = none := by
  rw [h.object, r.fields?_object, if_neg]
  · rfl
  · intro hread
    exact absurd (List.all_eq_true.mp hread.1 _ hmem) Bool.false_ne_true

end Reads

end Json

end SelfWiring
