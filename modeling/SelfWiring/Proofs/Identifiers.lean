import SelfWiring.Identifier

/-!
# Minted identifiers are pairwise different

The last base-32 digit of a number and the digits before it give the number back, so two numbers
never share an identifier. No identifier is shorter than 26 digits, and none holds anything but
digits, least of all a colon.
-/

namespace SelfWiring.Identifier

theorem digit_inj {m n : Nat} (hm : m < 32) (hn : n < 32) (h : digit m = digit n) : m = n := by
  have distinct : ∀ a : Fin 32, ∀ b : Fin 32, digit a = digit b → a = b := by decide +kernel
  exact congrArg Fin.val (distinct ⟨m, hm⟩ ⟨n, hn⟩ h)

theorem digits_inj (width : Nat) : ∀ {m n : Nat}, digits width m = digits width n → m = n := by
  -- both cases strip the last digit; without a width left it is the number that gets smaller
  induction width with
  | zero =>
    intro m
    induction m using Nat.strongRecOn with
    | ind m ih =>
      intro n h
      cases m with
      | zero =>
        cases n with
        | zero => rfl
        | succ n => simp [digits] at h
      | succ m =>
        cases n with
        | zero => simp [digits] at h
        | succ n =>
          rw [digits, digits] at h
          obtain ⟨hrest, hlast⟩ := List.append_inj' h rfl
          have hquotient := ih ((m + 1) / 32) (by omega) hrest
          have hdigit := digit_inj (Nat.mod_lt _ (by omega)) (Nat.mod_lt _ (by omega))
            (List.singleton_inj.mp hlast)
          omega
  | succ width ih =>
    intro m n h
    rw [digits, digits] at h
    obtain ⟨hrest, hlast⟩ := List.append_inj' h rfl
    have hquotient := ih hrest
    have hdigit := digit_inj (Nat.mod_lt _ (by omega)) (Nat.mod_lt _ (by omega))
      (List.singleton_inj.mp hlast)
    omega

theorem render_inj {m n : Nat} : render m = render n ↔ m = n := by
  constructor
  · intro h
    exact digits_inj 26 (String.ofList_injective h)
  · exact congrArg render

theorem render_ne_empty (n : Nat) : render n ≠ "" := by
  intro h
  have hnil : digits 26 n = [] := String.ofList_injective (h.trans String.ofList_nil.symm)
  simp [digits] at hnil

/-- No identifier is shorter than 26 digits. -/
theorem length_render_ge (n : Nat) : 26 ≤ (render n).length := by
  have hdigits : ∀ width n, width ≤ (digits width n).length := by
    intro width n
    induction width, n using digits.induct with
    | case1 | case2 => exact Nat.zero_le _
    | case3 width n ih =>
      rw [digits, List.length_append]
      exact Nat.succ_le_succ ih
  rw [render, String.length_ofList]
  exact hdigits 26 n

theorem digit_mem_alphabet (n : Nat) : digit n ∈ alphabet := by
  unfold digit
  rw [List.getD_eq_getElem?_getD]
  cases h : alphabet[n]? with
  | none => decide
  | some c => exact List.mem_of_getElem? h

/-- Identifiers are written in digits. -/
theorem mem_alphabet_of_mem_render {n : Nat} {c : Char} (hc : c ∈ (render n).toList) :
    c ∈ alphabet := by
  have hdigits : ∀ width n, c ∈ digits width n → c ∈ alphabet := by
    intro width n
    induction width, n using digits.induct with
    | case1 => simp [digits]
    | case2 n ih | case3 width n ih =>
      rw [digits, List.mem_append, List.mem_singleton]
      rintro (hc | rfl)
      · exact ih hc
      · exact digit_mem_alphabet _
  rw [render, String.toList_ofList] at hc
  exact hdigits 26 n hc

theorem colon_not_mem_render (n : Nat) : ':' ∉ (render n).toList := fun h =>
  absurd (mem_alphabet_of_mem_render h) (by decide)

end SelfWiring.Identifier
