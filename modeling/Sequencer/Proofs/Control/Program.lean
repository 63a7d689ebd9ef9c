import Mathlib.Logic.Function.Basic
import Sequencer.Proofs.Control.Tree
import Sequencer.Proofs.Expr.Leaves

set_option autoImplicit false

/-!
# Program order

Statements that share a cycle, run as they stand: one after the other, and what is written is seen by all later reads.
-/

namespace Sequencer

open Control

/-- What has been written so far in a cycle, by kind and name. -/
abbrev Written (V : Type) := Storage × String → Option V

/-- Reads see what has been written so far. -/
def Valuation.during {V : Type} (ρ : Valuation V) (σ : Written V) : Valuation V where
  operand o := (σ (o.storage, o.name)).getD (ρ.operand o)
  wire := ρ.wire

/-- What a statement writes to, and the value that it writes. -/
def Control.Stmt.write? : Stmt → Option ((Storage × String) × Expr)
  | update r v => some ((.register, r), v)
  | assign x v => some ((.latch, x), v)
  | _ => none

/-- The value that a statement writes to `p`. -/
def Control.Stmt.valueFor (p : Storage × String) (s : Stmt) : Option Expr :=
  s.write?.bind fun w => if w.1 = p then some w.2 else none

theorem Control.Stmt.valueFor_of_write {s : Stmt} {p q : Storage × String} {v : Expr} (h : s.write? = some (q, v)) :
    s.valueFor p = if q = p then some v else none := by
  rw [valueFor, h, Option.bind_some]

theorem Control.Stmt.write?_setId (n : Nat) (s : Stmt) : (s.setId n).write? = s.write? := by
  cases s <;> rfl

namespace Module

section Run

variable (m : Module) {V : Type} (I : Interpretation V) (ρ : Valuation V)

mutual
/-- Runs a statement with all that is nested in it. -/
def perform : Outline → Written V → Written V
  | .node i os, σ =>
    match m.stmt i with
    | .ok (.block b) => if Cond.holds I (ρ.during σ) b.guard then performAll os σ else σ
    | .ok s => s.write?.elim σ fun w => Function.update σ w.1 (some (w.2.eval I (ρ.during σ)))
    | .error _ => σ
def performAll : List Outline → Written V → Written V
  | [], σ => σ
  | o :: os, σ => performAll os (perform o σ)
end

/-- What a list of statements writes in one cycle. -/
def written (stmts : List Nat) : Written V := m.performAll I ρ (stmts.map m.outline) fun _ => none

variable {m I ρ} {i : Nat} {os : List Outline}

theorem perform_block {b : Block} (hb : m.stmt i = .ok (.block b)) (σ : Written V) :
    m.perform I ρ (.node i os) σ = if Cond.holds I (ρ.during σ) b.guard then m.performAll I ρ os σ else σ := by
  rw [perform, hb]

theorem perform_write {s : Stmt} (hs : m.stmt i = .ok s) {k : Storage × String} {v : Expr} (hw : s.write? = some (k, v))
    (σ : Written V) : m.perform I ρ (.node i os) σ = Function.update σ k (some (v.eval I (ρ.during σ))) := by
  rw [perform, hs]
  cases s with
  | block b => cases hw
  | yield y => cases hw
  | update r v => cases hw; rfl
  | assign x v => cases hw; rfl

end Run

variable (m : Module)

/-- The statements at and below `stmts`, in program order. -/
def below (stmts : List Nat) : List Nat := (stmts.map m.outline).flatMap Outline.preorder

/-- The values that the statements at `ns` write to `p`, in this order. -/
def values (p : Storage × String) (ns : List Nat) : List Expr :=
  ns.filterMap fun n => (m.stmt n).toOption.bind (Stmt.valueFor p)

/-- A write to an operand of the kind `k`, or a conditional. -/
def Plain (k : Storage) (i : Nat) : Prop :=
  ∃ s, m.stmt i = .ok s ∧ ((∃ x v, s.write? = some ((k, x), v)) ∨ ∃ b, s = .block b ∧ b.kind = .conditional)

/-- The module runs the statements `body`, which write to operands of the kind `k` and may be nested in conditionals, and
ends its cycle with the yield at `j`. -/
structure Straight (k : Storage) (body : List Nat) (j : Nat) : Prop where
  root : ∃ b, m.stmt m.root = .ok (.block b) ∧ b.stmts = body ++ [j]
  yield : ∃ y, m.stmt j = .ok (.yield y)
  plain : ∀ n ∈ m.below body, m.Plain k n

variable {m} {m' : Module} {k : Storage}

theorem Plain.alike (h : m.Alike m') {i : Nat} (hi : m.Plain k i) : m'.Plain k i := by
  obtain ⟨s, hs, hplain⟩ := hi
  obtain ⟨s', hs', hbare⟩ := h.stmt hs
  refine ⟨s', hs', ?_⟩
  rcases hplain with ⟨x, v, hw⟩ | ⟨b, rfl, hkind⟩
  · left
    cases s with
    | block b | yield y => cases hw
    | update r v =>
      cases s' with
      | block b | yield y | assign x' v' => cases hbare
      | update r' v' =>
        cases hw
        exact ⟨r', v', rfl⟩
    | assign x v =>
      cases s' with
      | block b | yield y | update r' v' => cases hbare
      | assign x' v' =>
        cases hw
        exact ⟨x', v', rfl⟩
  · obtain ⟨b', rfl, hbare⟩ := Stmt.bare_eq_block hbare
    refine .inr ⟨b', rfl, ?_⟩
    rw [← BlockKind.bare_eq_conditional, (Stmt.bare_block_inj hbare).1, hkind]
    rfl

theorem Straight.alike (h : m.Alike m') {body : List Nat} {j : Nat} (hs : m.Straight k body j) : m'.Straight k body j where
  root := by
    obtain ⟨b, hb, hstmts⟩ := hs.root
    obtain ⟨b', hb', hbare⟩ := h.block hb
    exact ⟨b', h.root ▸ hb', (Stmt.bare_block_inj hbare).2.2.trans hstmts⟩
  yield := by
    obtain ⟨y, hy⟩ := hs.yield
    obtain ⟨s', hs', hbare⟩ := h.stmt hy
    cases s' with
    | yield y' => exact ⟨y', hs'⟩
    | block b | update r v | assign x v => cases hbare
  plain := by
    intro n hn
    rw [below, List.map_congr_left fun i _ => h.outline i] at hn
    exact (hs.plain n hn).alike h

theorem mem_values {p : Storage × String} {i : Nat} {s : Stmt} (hs : m.stmt i = .ok s) {v : Expr} (hv : s.valueFor p = some v)
    {ns : List Nat} (hi : i ∈ ns) : v ∈ m.values p ns :=
  List.mem_filterMap.2 ⟨i, hi, by rw [hs]; exact hv⟩

theorem values_of_stmts (p : Storage × String) {ns : List Nat} {ss : List Stmt}
    (h : List.Forall₂ (fun n s => m.stmt n = .ok s) ns ss) : m.values p ns = ss.filterMap (Stmt.valueFor p) := by
  induction h with
  | nil => rfl
  | cons hn _ ih =>
    rw [values] at ih ⊢
    rw [List.filterMap_cons, List.filterMap_cons, hn, ih]
    rfl

theorem values_append (p : Storage × String) (ns ns' : List Nat) : m.values p (ns ++ ns') = m.values p ns ++ m.values p ns' :=
  List.filterMap_append

theorem values_cons_block (p : Storage × String) {i : Nat} {b : Block} (hb : m.stmt i = .ok (.block b)) (ns : List Nat) :
    m.values p (i :: ns) = m.values p ns := by
  rw [values, List.filterMap_cons, hb]
  rfl

section Values

variable (m) {V : Type} (I : Interpretation V) (ρ : Valuation V) (p : Storage × String)

mutual
/-- The value that a statement, with all that is nested in it, leaves in `p` if reads see nothing of what is written. -/
def lastValue : Outline → Option V
  | .node i os =>
    match m.stmt i with
    | .ok (.block b) => if Cond.holds I ρ b.guard then lastValues os else none
    | .ok s => (s.valueFor p).map (Expr.eval I ρ)
    | .error _ => none
def lastValues : List Outline → Option V
  | [] => none
  | o :: os => (lastValues os).or (lastValue o)
end

variable {m I ρ p} {i : Nat} {os : List Outline}

theorem lastValue_block {b : Block} (hb : m.stmt i = .ok (.block b)) :
    m.lastValue I ρ p (.node i os) = if Cond.holds I ρ b.guard then m.lastValues I ρ p os else none := by
  rw [lastValue, hb]

theorem lastValue_write {s : Stmt} (hs : m.stmt i = .ok s) {w : (Storage × String) × Expr} (hw : s.write? = some w) :
    m.lastValue I ρ p (.node i os) = (s.valueFor p).map (Expr.eval I ρ) := by
  rw [lastValue, hs]
  cases s with
  | block b => cases hw
  | yield y | update r v | assign x v => rfl

mutual
/-- What is left is one of the values that are written. -/
theorem exists_of_lastValue {u : V} : (o : Outline) → m.lastValue I ρ p o = some u → ∃ v ∈ m.values p o.preorder, u = v.eval I ρ
  | .node i os, h => by
    rw [Outline.preorder_eq]
    cases hs : m.stmt i with
    | error e =>
      rw [lastValue, hs] at h
      cases h
    | ok s =>
      cases hblock : s.block? with
      | some b =>
        cases s with
        | yield y | update r v | assign x v => cases hblock
        | block b =>
          rw [lastValue_block hs] at h
          rw [values_cons_block p hs]
          split at h
          · exact exists_of_lastValues os h
          · cases h
      | none =>
        have hvalue : (s.valueFor p).map (Expr.eval I ρ) = some u := by
          rw [lastValue, hs] at h
          cases s with
          | block b => cases hblock
          | yield y | update r v | assign x v => exact h
        obtain ⟨v, hv, rfl⟩ := Option.map_eq_some_iff.1 hvalue
        exact ⟨v, mem_values hs hv List.mem_cons_self, rfl⟩
theorem exists_of_lastValues {u : V} : (os : List Outline) → m.lastValues I ρ p os = some u →
    ∃ v ∈ m.values p (os.flatMap Outline.preorder), u = v.eval I ρ
  | [], h => by cases h
  | o :: os, h => by
    rw [List.flatMap_cons, values_append]
    rcases Option.or_eq_some_iff.1 h with h | ⟨_, h⟩
    · obtain ⟨v, hv, hu⟩ := exists_of_lastValues os h
      exact ⟨v, List.mem_append_right _ hv, hu⟩
    · obtain ⟨v, hv, hu⟩ := exists_of_lastValue o h
      exact ⟨v, List.mem_append_left _ hv, hu⟩
end

/-- A statement of the kind `k` that does not read operands of that kind. -/
def Blind (m : Module) (k : Storage) (i : Nat) : Prop :=
  m.Plain k i ∧ ∀ s, m.stmt i = .ok s → ∀ e ∈ s.exprs, ∀ o, .operand o ∈ e.leaves → o.storage ≠ k

/-- Only operands of the kind `k` have been written. -/
def Written.OfKind (k : Storage) (σ : Written V) : Prop := ∀ p : Storage × String, p.1 ≠ k → σ p = none

theorem Written.OfKind.eval {σ : Written V} (hσ : Written.OfKind k σ) {e : Expr}
    (he : ∀ o, .operand o ∈ e.leaves → o.storage ≠ k) : e.eval I (ρ.during σ) = e.eval I ρ := by
  refine e.eval_congr I (fun o ho => ?_) fun _ _ => rfl
  have hnone : σ (o.storage, o.name) = none := hσ _ (he o ho)
  change (σ (o.storage, o.name)).getD _ = _
  rw [hnone, Option.getD_none]

mutual
theorem perform_blind : (o : Outline) → (∀ n ∈ o.preorder, m.Blind k n) → ∀ {σ : Written V}, Written.OfKind k σ →
    m.perform I ρ o σ p = (m.lastValue I ρ p o).or (σ p) ∧ Written.OfKind k (m.perform I ρ o σ)
  | .node i os, hblind, σ, hσ => by
    rw [Outline.preorder_eq, List.forall_mem_cons] at hblind
    obtain ⟨⟨⟨s, hs, hplain⟩, hexprs⟩, hos⟩ := hblind
    rcases hplain with ⟨x, v, hw⟩ | ⟨b, rfl, hkind⟩
    · have hv : v ∈ s.exprs := by
        cases s with
        | block b | yield y => cases hw
        | update r v' | assign x v' =>
          cases hw
          exact List.mem_singleton.2 rfl
      rw [perform_write hs hw, lastValue_write hs hw, Stmt.valueFor_of_write hw, hσ.eval (hexprs s hs v hv)]
      constructor
      · by_cases hp : (k, x) = p
        · subst hp
          simp
        · rw [Function.update_of_ne fun h => hp h.symm]
          simp [hp]
      · intro q hq
        have hne : q ≠ (k, x) := fun h => hq (congrArg Prod.fst h)
        rw [Function.update_of_ne hne]
        exact hσ q hq
    · have hguard : Cond.holds I (ρ.during σ) b.guard = Cond.holds I ρ b.guard := by
        cases hg : b.guard with
        | none => rfl
        | some e =>
          have he : e ∈ (Stmt.block b).exprs := by simp [Stmt.exprs, hkind, hg]
          exact congrArg I.truth (hσ.eval (hexprs _ hs e he))
      rw [perform_block hs, lastValue_block hs, hguard]
      split
      · exact performAll_blind os hos hσ
      · exact ⟨rfl, hσ⟩
theorem performAll_blind : (os : List Outline) → (∀ n ∈ os.flatMap Outline.preorder, m.Blind k n) →
    ∀ {σ : Written V}, Written.OfKind k σ →
    m.performAll I ρ os σ p = (m.lastValues I ρ p os).or (σ p) ∧ Written.OfKind k (m.performAll I ρ os σ)
  | [], _, _, hσ => ⟨rfl, hσ⟩
  | o :: os, hblind, σ, hσ => by
    rw [List.flatMap_cons, List.forall_mem_append] at hblind
    obtain ⟨hhead, hσ'⟩ := perform_blind o hblind.1 hσ
    obtain ⟨htail, hσ''⟩ := performAll_blind os hblind.2 hσ'
    rw [performAll, htail, hhead, lastValues, Option.or_assoc]
    exact ⟨rfl, hσ''⟩
end

/-- Statements that do not read what they write leave the value that is written last. -/
theorem written_blind {stmts : List Nat} (h : ∀ n ∈ m.below stmts, m.Blind k n) :
    m.written I ρ stmts p = m.lastValues I ρ p (stmts.map m.outline) :=
  ((performAll_blind _ h fun _ _ => rfl).1).trans Option.or_none

end Values

end Module

end Sequencer
