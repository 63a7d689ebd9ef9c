import Sequencer.Condition.StateSpace
import Sequencer.Proofs.Expr.Leaves
import Mathlib.Data.List.Perm.Subperm

set_option autoImplicit false

/-!
# Tests of the state

A test of the state says whether the current state is in the list, given that it is in the list around it.
-/

namespace Sequencer

theorem Expr.holds_any {V : Type} (I : Interpretation V) (ρ : Valuation V) {es : List Expr} {e : Expr}
    (h : Expr.any es = .ok e) : e.holds I ρ = es.any (·.holds I ρ) := by
  cases es with
  | nil =>
    cases h
    rw [holds_bool, List.any_nil]
  | cons a es =>
    change es.foldlM Expr.or a = .ok e at h
    rw [List.any_cons]
    induction es generalizing a with
    | nil =>
      cases h
      rw [List.any_nil, Bool.or_false]
    | cons b es ih =>
      rw [List.foldlM_cons, Checked.bind_eq_ok] at h
      obtain ⟨c, hc, h⟩ := h
      rw [ih c h, holds_or I ρ hc, List.any_cons, Bool.or_assoc]

theorem Expr.LeavesSatisfy.any {P : Expr → Prop} (hP : ∀ b, P (Expr.bool b)) {es : List Expr} {e : Expr}
    (hes : ∀ a ∈ es, a.LeavesSatisfy P) (h : Expr.any es = .ok e) : e.LeavesSatisfy P := by
  cases es with
  | nil =>
    cases h
    exact .bool hP false
  | cons a es =>
    change es.foldlM Expr.or a = .ok e at h
    induction es generalizing a with
    | nil =>
      cases h
      exact hes _ List.mem_cons_self
    | cons b es ih =>
      obtain ⟨ha, hbs⟩ := List.forall_mem_cons.1 hes
      obtain ⟨hb, hes'⟩ := List.forall_mem_cons.1 hbs
      rw [List.foldlM_cons, Checked.bind_eq_ok] at h
      obtain ⟨c, hc, h⟩ := h
      exact ih c (List.forall_mem_cons.2 ⟨.or hP ha hb hc, hes'⟩) h

theorem Expr.or_undecided {a b : Expr} (ha : a.asBool = .ok none) (hb : b.asBool = .ok none) :
    ∃ c, a.or b = .ok c ∧ c.asBool = .ok none := by
  rw [Expr.or, ha, hb, Checked.ok_bind, Checked.ok_bind, if_neg (by simp), if_neg (by simp), if_neg (by simp)]
  split
  · exact ⟨a, rfl, ha⟩
  · exact ⟨_, rfl, rfl⟩

theorem Expr.any_undecided {es : List Expr} (hne : es ≠ []) (hes : ∀ e ∈ es, e.asBool = .ok none) :
    ∃ c, Expr.any es = .ok c ∧ c.asBool = .ok none := by
  obtain ⟨e, es, rfl⟩ := List.exists_cons_of_ne_nil hne
  change ∃ c, es.foldlM Expr.or e = .ok c ∧ _
  clear hne
  induction es generalizing e with
  | nil => exact ⟨e, rfl, hes e List.mem_cons_self⟩
  | cons b es ih =>
    obtain ⟨he, hbs⟩ := List.forall_mem_cons.1 hes
    obtain ⟨hb, hes'⟩ := List.forall_mem_cons.1 hbs
    obtain ⟨c, hc, hundecided⟩ := or_undecided he hb
    rw [List.foldlM_cons, hc, Checked.ok_bind]
    exact ih c (List.forall_mem_cons.2 ⟨hundecided, hes'⟩)

theorem Segment.mem_of_sameStates {ids parent : List Nat} (hnodup : ids.Nodup) (h : sameStates ids parent = true)
    {k : Nat} (hk : k ∈ parent) : k ∈ ids := by
  rw [sameStates, Bool.and_eq_true, beq_iff_eq, List.all_eq_true] at h
  have hsub : ids ⊆ parent := fun x hx => by simpa using h.2 x hx
  have hperm := (List.subperm_of_subset hnodup hsub).perm_of_length_le (Nat.le_of_eq h.1.symm)
  exact hperm.mem_iff.2 hk

theorem Segment.sameStates_of_subset {ids parent : List Nat} (hids : ids.Nodup) (hparent : parent.Nodup)
    (hsub : ids ⊆ parent) (hsub' : parent ⊆ ids) : sameStates ids parent = true := by
  rw [sameStates, Bool.and_eq_true, beq_iff_eq, List.all_eq_true]
  refine ⟨?_, fun x hx => by simpa using hsub hx⟩
  exact Nat.le_antisymm (List.subperm_of_subset hids hsub).length_le (List.subperm_of_subset hparent hsub').length_le

namespace StateSpace

variable {V : Type} (I : Interpretation V) (ρ : Valuation V) (sp : StateSpace)

/-- The state register holds `k`: of the tests for a single state, that for `k` holds. -/
structure Holds (k : Nat) : Prop where
  le_max : k ≤ sp.maxState
  test : ∀ s ≤ sp.maxState, (Expr.bin .eq sp.register (sp.literal s)).holds I ρ = decide (s = k)

variable {I ρ sp}

theorem Holds.isIn {k : Nat} (hk : sp.Holds I ρ k) {ids : List Nat} (hne : ids ≠ []) (hle : ∀ x ∈ ids, x ≤ sp.maxState)
    {c : Cond} (h : sp.isIn ids = .ok c) : Cond.holds I ρ c = decide (k ∈ ids) := by
  rw [StateSpace.isIn] at h
  split at h
  · rename_i hall
    cases h
    rw [Cond.holds_none, eq_comm, decide_eq_true_eq]
    rcases hall with hzero | hempty | hcovered
    · obtain ⟨x, hx⟩ := List.exists_mem_of_ne_nil ids hne
      have hx0 : x = k := by
        have := hle x hx
        have := hk.le_max
        omega
      exact hx0 ▸ hx
    · exact absurd (List.isEmpty_iff.1 hempty) hne
    · rw [coveredBy, Bool.and_eq_true, List.all_eq_true] at hcovered
      have := hk.le_max
      simpa using hcovered.2 k (List.mem_range.2 (by omega))
  · rw [Checked.bind_eq_ok] at h
    obtain ⟨e, he, h⟩ := h
    cases h
    rw [Cond.holds_some, Expr.holds_any I ρ he, Bool.eq_iff_iff, List.any_map, List.any_eq_true, decide_eq_true_eq]
    constructor
    · rintro ⟨x, hx, hholds⟩
      rw [Function.comp_apply, hk.test x (hle x hx), decide_eq_true_eq] at hholds
      exact hholds ▸ hx
    · intro hmem
      refine ⟨k, hmem, ?_⟩
      rw [Function.comp_apply, hk.test k hk.le_max, decide_eq_true_eq]

theorem Holds.narrow {k : Nat} (hk : sp.Holds I ρ k) {ids parent : List Nat} (hne : ids ≠ []) (hnodup : ids.Nodup)
    (hle : ∀ x ∈ ids, x ≤ sp.maxState) (hparent : k ∈ parent) {c : Cond} (h : sp.narrow ids parent = .ok c) :
    Cond.holds I ρ c = decide (k ∈ ids) := by
  rw [StateSpace.narrow] at h
  split at h
  · rename_i hsame
    cases h
    rw [Cond.holds_none, eq_comm, decide_eq_true_eq]
    exact Segment.mem_of_sameStates hnodup hsame hparent
  · exact hk.isIn hne hle h

theorem leaves_narrow {ids parent : List Nat} {e : Expr} (h : sp.narrow ids parent = .ok (some e)) :
    e.LeavesSatisfy fun x => x = sp.register ∨ ∃ l, x = .lit l := by
  rw [StateSpace.narrow] at h
  split at h
  · cases h
  · rw [StateSpace.isIn] at h
    split at h
    · cases h
    · rw [Checked.bind_eq_ok] at h
      obtain ⟨e', he, h⟩ := h
      cases h
      refine .any (fun b => .inr ⟨_, rfl⟩) ?_ he
      intro a ha
      obtain ⟨s, _, rfl⟩ := List.mem_map.1 ha
      intro x hx
      have hx : x = sp.register ∨ x = sp.literal s := by
        simpa [Expr.leaves, register, literal, Expr.literal] using hx
      exact hx.imp_right fun hx => ⟨_, hx⟩

/-- A test of the state is always made, and has no truth value of its own. -/
theorem exists_isIn (sp : StateSpace) (ids : List Nat) :
    ∃ c, sp.isIn ids = .ok c ∧ ∀ e ∈ c, e.asBool = .ok none := by
  rw [isIn]
  split
  · exact ⟨none, rfl, by simp⟩
  · rename_i htest
    have hne : ids ≠ [] := fun hnil => htest (.inr (.inl (List.isEmpty_iff.2 hnil)))
    have htests : ∀ e ∈ ids.map fun s => Expr.bin .eq sp.register (sp.literal s), e.asBool = .ok none := by
      intro e he
      obtain ⟨s, _, rfl⟩ := List.mem_map.1 he
      rfl
    obtain ⟨e, he, hundecided⟩ := Expr.any_undecided (by simpa using hne) htests
    rw [he]
    refine ⟨some e, rfl, ?_⟩
    rintro _ ⟨⟩
    exact hundecided

theorem exists_narrow (sp : StateSpace) (ids parent : List Nat) :
    ∃ c, sp.narrow ids parent = .ok c ∧ ∀ e ∈ c, e.asBool = .ok none := by
  rw [narrow]
  split
  · exact ⟨none, rfl, by simp⟩
  · exact sp.exists_isIn ids

/-- There is something to test if and only if the list around has further states. -/
theorem narrow_eq_none_iff {ids parent : List Nat} (hne : ids ≠ []) (hids : ids.Nodup) (hparent : parent.Nodup)
    (hsub : ids ⊆ parent) (hle : ∀ x ∈ parent, x ≤ sp.maxState) : sp.narrow ids parent = .ok none ↔ parent ⊆ ids := by
  constructor
  · intro h x hx
    rw [narrow] at h
    split at h
    · rename_i hsame
      exact Segment.mem_of_sameStates hids hsame hx
    · rw [isIn] at h
      split at h
      · rename_i hall
        rcases hall with hzero | hempty | hcovered
        · obtain ⟨y, hy⟩ := List.exists_mem_of_ne_nil ids hne
          have hxy : x = y := by
            have := hle x hx
            have := hle y (hsub hy)
            omega
          exact hxy ▸ hy
        · exact absurd (List.isEmpty_iff.1 hempty) hne
        · rw [coveredBy, Bool.and_eq_true, List.all_eq_true] at hcovered
          have := hle x hx
          simpa using hcovered.2 x (List.mem_range.2 (by omega))
      · obtain ⟨e, _, h⟩ := Checked.bind_eq_ok.1 h
        cases h
  · intro hsub'
    rw [narrow, if_pos (Segment.sameStates_of_subset hids hparent hsub hsub')]
    rfl

end StateSpace

end Sequencer
