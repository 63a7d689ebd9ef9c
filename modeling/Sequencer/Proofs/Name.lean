import Sequencer.Name

set_option autoImplicit false

/-!
# Endings of names

Signals of different roles have different names, because their names end differently.
-/

namespace Sequencer

namespace Name

/-- The last character of a name. -/
def ending (name : String) : Option Char := name.toList.getLast?

theorem ending_append {a x : String} {c : Char} (h : ending x = some c) : ending (a ++ x) = some c := by
  rw [ending] at h ⊢
  rw [String.toList_append, List.getLast?_append, h, Option.some_or]

theorem ne_of_ending {a b : String} (h : ending a ≠ ending b) : a ≠ b := fun hab => h (congrArg ending hab)

@[simp]
theorem ending_valid (p : String) : ending (valid p) = some 'd' := ending_append rfl

@[simp]
theorem ending_data (p : String) : ending (data p) = some 's' := ending_append rfl

@[simp]
theorem ending_ready (p : String) : ending (ready p) = some 'y' := ending_append rfl

@[simp]
theorem ending_held (r : String) : ending (held r) = some 'g' := ending_append rfl

@[simp]
theorem ending_nextValue (r : String) : ending (nextValue r) = some 't' := ending_append rfl

@[simp]
theorem ending_latched (x : String) : ending (latched x) = some 'v' := ending_append rfl

@[simp]
theorem ending_enable (r : String) : ending (enable r) = some 'n' := ending_append rfl

theorem ending_toString (n : Nat) : ∃ c, ending (toString n) = some c ∧ c.isDigit = true := by
  rw [ending, Nat.toString_eq_repr, Nat.toList_repr]
  cases h : (Nat.toDigits 10 n).getLast? with
  | none =>
    rw [List.getLast?_eq_none_iff] at h
    exact absurd h Nat.toDigits_ne_nil
  | some c => exact ⟨c, rfl, Nat.isDigit_of_mem_toDigits (by decide) (by decide) (List.mem_of_getLast? h)⟩

theorem ending_cycleCond (n : Nat) : ∃ c, ending (cycleCond n) = some c ∧ c.isDigit = true := by
  obtain ⟨c, hc, hdigit⟩ := ending_toString n
  exact ⟨c, ending_append hc, hdigit⟩

theorem ending_exitCond (n : Nat) : ∃ c, ending (exitCond n) = some c ∧ c.isDigit = true := by
  obtain ⟨c, hc, hdigit⟩ := ending_toString n
  exact ⟨c, ending_append hc, hdigit⟩

/-- The name of a condition. -/
def IsCondition (name : String) : Prop := (∃ n, name = cycleCond n ∨ name = exitCond n) ∨ name = resetCond

theorem IsCondition.ending {name : String} (h : IsCondition name) :
    ∃ c, ending name = some c ∧ (c.isDigit = true ∨ c = 'd') := by
  rcases h with ⟨n, rfl | rfl⟩ | rfl
  · obtain ⟨c, hc, hdigit⟩ := ending_cycleCond n
    exact ⟨c, hc, .inl hdigit⟩
  · obtain ⟨c, hc, hdigit⟩ := ending_exitCond n
    exact ⟨c, hc, .inl hdigit⟩
  · exact ⟨'d', rfl, .inr rfl⟩

theorem not_isCondition_of_ending {name : String} {c : Char} (h : ending name = some c) (hc : c.isDigit = false)
    (hd : c ≠ 'd') : ¬ IsCondition name := by
  intro hname
  obtain ⟨c', hc', hcases⟩ := hname.ending
  rw [h] at hc'
  cases hc'
  rcases hcases with hdigit | hd'
  · rw [hc] at hdigit
    cases hdigit
  · exact hd hd'

theorem IsCondition.ne_enable {name : String} (h : IsCondition name) (r : String) : name ≠ enable r := by
  obtain ⟨c, hc, hchar⟩ := h.ending
  refine ne_of_ending ?_
  rw [hc, ending_enable]
  rintro ⟨⟩
  exact absurd hchar (by decide)

theorem IsCondition.ne_nextValue {name : String} (h : IsCondition name) (r : String) : name ≠ nextValue r := by
  obtain ⟨c, hc, hchar⟩ := h.ending
  refine ne_of_ending ?_
  rw [hc, ending_nextValue]
  rintro ⟨⟩
  exact absurd hchar (by decide)

theorem toString_inj {m n : Nat} : toString m = toString n ↔ m = n := by
  refine ⟨fun h => ?_, fun h => congrArg toString h⟩
  have hdigits := congrArg String.toList h
  rw [Nat.toString_eq_repr, Nat.toString_eq_repr, Nat.toList_repr, Nat.toList_repr] at hdigits
  have hvalues := congrArg (Nat.ofDigitChars 10 · 0) hdigits
  simpa using hvalues

theorem cycleCond_inj {m n : Nat} : cycleCond m = cycleCond n ↔ m = n :=
  (String.append_right_inj "cycle_cond_block_").trans toString_inj

theorem exitCond_inj {m n : Nat} : exitCond m = exitCond n ↔ m = n :=
  (String.append_right_inj "exit_cond_block_").trans toString_inj

theorem head_append {a x : String} {c : Char} (h : a.toList.head? = some c) : (a ++ x).toList.head? = some c := by
  rw [String.toList_append, List.head?_append, h, Option.some_or]

theorem cycleCond_ne_exitCond (m n : Nat) : cycleCond m ≠ exitCond n := by
  intro h
  have hcycle : (cycleCond m).toList.head? = some 'c' := head_append rfl
  have hexit : (exitCond n).toList.head? = some 'e' := head_append rfl
  rw [h, hexit] at hcycle
  cases hcycle

theorem valid_inj {p q : String} : valid p = valid q ↔ p = q := String.append_left_inj ".valid"

theorem data_inj {p q : String} : data p = data q ↔ p = q := String.append_left_inj "_s"

theorem ready_inj {p q : String} : ready p = ready q ↔ p = q := String.append_left_inj ".ready"

theorem enable_inj {r q : String} : enable r = enable q ↔ r = q := String.append_left_inj "_en"

theorem nextValue_inj {r q : String} : nextValue r = nextValue q ↔ r = q := String.append_left_inj "_next"

theorem latched_inj {x y : String} : latched x = latched y ↔ x = y := String.append_left_inj "_v"

theorem endsIn_append (a x : String) : endsIn (a ++ x) x = true := by
  rw [endsIn, String.toList_append]
  exact List.isSuffixOf_iff_suffix.2 (List.suffix_append _ _)

theorem isControl_valid (p : String) : isControl (valid p) = true := by
  rw [isControl, show endsIn (valid p) ".valid" = true from endsIn_append p ".valid", Bool.or_true, Bool.true_or]

theorem isControl_ready (p : String) : isControl (ready p) = true := by
  rw [isControl, show endsIn (ready p) ".ready" = true from endsIn_append p ".ready", Bool.or_true]

end Name

end Sequencer
