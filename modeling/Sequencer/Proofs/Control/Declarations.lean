import Mathlib.Data.List.Pairwise
import Sequencer.Proofs.Control.Tree

set_option autoImplicit false

/-!
# Names declared twice

Registers and variables are kept under their names, so declaring one again replaces it and leaves no trace. Ports are
kept in lists. A draft is rejected whatever its body is exactly if some other pair of its declarations shares a name.
-/

namespace Sequencer

open Control

/-- What a name is declared as. -/
inductive Role where
  | register
  | var
  | input
  | output
deriving DecidableEq, Repr

/-- Whether declarations are kept under their names. -/
def Role.keyed : Role → Bool
  | register | var => true
  | input | output => false

def Role.all : List Role := [.register, .var, .input, .output]

theorem Role.mem_all (r : Role) : r ∈ all := by
  cases r <;> decide

inductive Declaration where
  | register (name : String) (type : DataType) (init : Int)
  | var (name : String) (type : DataType)
  | input (name : String) (type : DataType)
  | output (name : String) (type : DataType)
deriving DecidableEq, Repr

namespace Declaration

def name : Declaration → String
  | register n _ _ | var n _ | input n _ | output n _ => n

def role : Declaration → Role
  | register .. => .register
  | var .. => .var
  | input .. => .input
  | output .. => .output

/-- Declarations of one name, unless the later one replaces the earlier one. -/
def Clashes (a b : Declaration) : Prop := a.name = b.name ∧ ¬ (a.role = b.role ∧ a.role.keyed = true)

instance (a b : Declaration) : Decidable (a.Clashes b) := inferInstanceAs (Decidable (_ ∧ ¬ _))

end Declaration

namespace Draft

def declare (d : Draft) : Declaration → Draft
  | .register n t v => d.addRegister n t v
  | .var n t => d.addVariable n t
  | .input n t => d.addInput n t
  | .output n t => d.addOutput n t

/-- A draft made by declarations, with any body. -/
def declared (name : String) (ds : List Declaration) (body : Arena Stmt) : Draft :=
  { ds.foldl declare (start name) with stmts := body }

/-- The names declared in a role. -/
def names (d : Draft) : Role → List String
  | .register => d.registers.keys
  | .var => d.vars.keys
  | .input => d.inputs.map Port.name
  | .output => d.outputs.map Port.name

variable {d : Draft} {a : Declaration}

theorem names_declare (d : Draft) (a : Declaration) (r : Role) : (d.declare a).names r =
    if r = a.role then (if r.keyed then (d.names r).filter (· != a.name) else d.names r) ++ [a.name]
    else d.names r := by
  cases a <;> cases r <;>
    simp [declare, names, addRegister, addVariable, addInput, addOutput, Declaration.role, Declaration.name, Role.keyed]

theorem mem_names_declare {n : String} {r : Role} :
    n ∈ (d.declare a).names r ↔ n ∈ d.names r ∨ a.role = r ∧ a.name = n := by
  rw [names_declare]
  by_cases hr : r = a.role
  · subst hr
    rw [if_pos rfl]
    by_cases hn : a.name = n
    · simp [hn]
    · split <;> simp [hn, Ne.symm hn]
  · rw [if_neg hr]
    simp [Ne.symm hr]

theorem nodup_names_of_keyed (d : Draft) {r : Role} (h : r.keyed = true) : (d.names r).Nodup := by
  cases r with
  | register => exact d.registers.nodup
  | var => exact d.vars.nodup
  | input | output => cases h

theorem nodup_names_declare {r : Role} : ((d.declare a).names r).Nodup ↔
    (d.names r).Nodup ∧ (r = a.role → r.keyed = false → a.name ∉ d.names r) := by
  cases hkeyed : r.keyed with
  | true => simp [nodup_names_of_keyed _ hkeyed]
  | false =>
    rw [names_declare, hkeyed]
    split
    · rename_i hr
      rw [if_neg Bool.false_ne_true, ← List.concat_eq_append, List.nodup_concat, and_comm]
      simp [hr]
    · rename_i hr
      simp [hr]

/-- No name occurs twice, in one role or in two. -/
structure Separate (names : Role → List String) : Prop where
  nodup : ∀ r, (names r).Nodup
  disjoint : ∀ r r', r ≠ r' → (names r).Disjoint (names r')

theorem separate_iff (d : Draft) (top : List Nat) : (d.enclose top).declaredNames.Nodup ↔ Separate d.names := by
  have hnames : (d.enclose top).declaredNames = Role.all.flatMap d.names := by
    simp [Module.declaredNames, enclose, Role.all, names]
  rw [hnames, List.nodup_flatMap]
  constructor
  · rintro ⟨hnodup, hdisjoint⟩
    have hsymm : Std.Symm (Function.onFun List.Disjoint d.names) := ⟨fun _ _ h => h.symm⟩
    exact ⟨fun r => hnodup r r.mem_all, fun r r' hne => hdisjoint.forall r.mem_all r'.mem_all hne⟩
  · rintro ⟨hnodup, hdisjoint⟩
    have hall : Role.all.Nodup := by decide
    exact ⟨fun r _ => hnodup r, hall.pairwise_of_forall_ne fun r _ r' _ hne => hdisjoint r r' hne⟩

/-- A declaration keeps the names apart unless its name is declared already, other than by one that it replaces. -/
theorem separate_declare : Separate (d.declare a).names ↔
    Separate d.names ∧ ∀ r, a.name ∈ d.names r → r = a.role ∧ r.keyed = true := by
  constructor
  · rintro ⟨hnodup, hdisjoint⟩
    have hself : a.name ∈ (d.declare a).names a.role := mem_names_declare.2 (.inr ⟨rfl, rfl⟩)
    refine ⟨⟨fun r => (nodup_names_declare.1 (hnodup r)).1, fun r r' hne n hn hn' => ?_⟩, fun r hr => ?_⟩
    · exact hdisjoint r r' hne (mem_names_declare.2 (.inl hn)) (mem_names_declare.2 (.inl hn'))
    · have hrole : r = a.role := by
        by_contra hne
        exact hdisjoint r a.role hne (mem_names_declare.2 (.inl hr)) hself
      refine ⟨hrole, ?_⟩
      by_contra hkeyed
      exact (nodup_names_declare.1 (hnodup r)).2 hrole (by simpa using hkeyed) hr
  · rintro ⟨⟨hnodup, hdisjoint⟩, hnew⟩
    refine ⟨fun r => nodup_names_declare.2 ⟨hnodup r, fun _ hkeyed hmem => ?_⟩, fun r r' hne n hn hn' => ?_⟩
    · rw [(hnew r hmem).2] at hkeyed
      cases hkeyed
    · rcases mem_names_declare.1 hn with hn | ⟨rfl, rfl⟩
      · rcases mem_names_declare.1 hn' with hn' | ⟨rfl, rfl⟩
        · exact hdisjoint r r' hne hn hn'
        · exact hne (hnew r hn).1
      · rcases mem_names_declare.1 hn' with hn' | ⟨hrole, _⟩
        · exact hne (hnew r' hn').1.symm
        · exact hne hrole

theorem mem_names_foldl {ds : List Declaration} {name n : String} {r : Role} :
    n ∈ (ds.foldl declare (start name)).names r ↔ ∃ a ∈ ds, a.role = r ∧ a.name = n := by
  induction ds using List.reverseRecOn with
  | nil => cases r <;> simp [names, start, Listing.keys, Listing.empty]
  | append_singleton ds a ih =>
    rw [List.foldl_concat, mem_names_declare, ih]
    simp [or_and_right, exists_or]

/-- The names are kept apart by declarations that do not clash. -/
theorem separate_foldl {ds : List Declaration} {name : String} :
    Separate (ds.foldl declare (start name)).names ↔ ds.Pairwise fun a b => ¬ a.Clashes b := by
  induction ds using List.reverseRecOn with
  | nil =>
    have hnone : ∀ r, (start name).names r = [] := by
      intro r
      cases r <;> rfl
    exact ⟨fun _ => .nil, fun _ => ⟨fun r => by simp [hnone], fun r r' _ => by simp [hnone]⟩⟩
  | append_singleton ds a ih =>
    have hnew : (∀ r, a.name ∈ (ds.foldl declare (start name)).names r → r = a.role ∧ r.keyed = true) ↔
        ∀ b ∈ ds, ¬ b.Clashes a := by
      simp only [mem_names_foldl, Declaration.Clashes, not_and_not_right]
      constructor
      · intro h b hb hname
        exact h b.role ⟨b, hb, rfl, hname⟩
      · rintro h r ⟨b, hb, rfl, hname⟩
        exact h b hb hname
    rw [List.foldl_concat, separate_declare, ih, hnew, List.pairwise_append]
    simp

theorem separate_declared {name : String} {ds : List Declaration} {body : Arena Stmt} :
    Separate (declared name ds body).names ↔ ds.Pairwise fun a b => ¬ a.Clashes b := by
  have hnames : (declared name ds body).names = (ds.foldl declare (start name)).names := by
    funext r
    cases r <;> rfl
  rw [hnames, separate_foldl]

theorem finish_of_not_separate {d : Draft} (h : ¬ Separate d.names) (top : List Nat) :
    ∃ n, d.finish top = .error (.rejected (.declaredTwice n)) := by
  rw [← d.separate_iff top] at h
  rw [finish, Module.check]
  cases hrepeat : firstRepeat [] (d.enclose top).declaredNames with
  | none => exact absurd (Module.firstRepeat_eq_none_iff.1 hrepeat).1 h
  | some n => exact ⟨n, rfl⟩

theorem finish_of_separate {d : Draft} (h : Separate d.names) (hbody : d.stmts = .empty) :
    d.finish [] = .ok (d.enclose []) := by
  have hrepeat : firstRepeat [] (d.enclose []).declaredNames = none :=
    Module.firstRepeat_eq_none_iff.2 ⟨(d.separate_iff []).2 h, by simp⟩
  obtain ⟨name, registers, vars, inputs, outputs, stmts⟩ := d
  obtain rfl : stmts = .empty := hbody
  rw [finish, Module.check, hrepeat]
  rfl

end Draft

/-- Declarations that clash are rejected whatever the body is, and all others are accepted. -/
theorem clashing_declarations_rejected (name : String) (ds : List Declaration) :
    ((ds.Pairwise fun a b => ¬ a.Clashes b) →
      (Draft.declared name ds .empty).finish [] = .ok ((Draft.declared name ds .empty).enclose [])) ∧
    ((¬ ds.Pairwise fun a b => ¬ a.Clashes b) →
      ∀ body top, ∃ n, (Draft.declared name ds body).finish top = .error (.rejected (.declaredTwice n))) := by
  refine ⟨fun h => Draft.finish_of_separate (Draft.separate_declared.2 h) rfl, fun h body top => ?_⟩
  exact Draft.finish_of_not_separate (fun hsep => h (Draft.separate_declared.1 hsep)) top

/-- A register and an input of one name, beside two registers of another. -/
def overlapping : List Declaration :=
  [.register "x" (.uint 8) 0, .register "y" (.uint 8) 0, .input "x" (.uint 8), .register "y" (.uint 4) 1]

/-- The declarations are rejected, and without the input they are accepted. -/
theorem overlapping_rejected : (¬ overlapping.Pairwise fun a b => ¬ a.Clashes b) ∧
    (∀ body top, ∃ n, (Draft.declared "top" overlapping body).finish top = .error (.rejected (.declaredTwice n))) ∧
    (overlapping.eraseIdx 2).Pairwise (fun a b => ¬ a.Clashes b) ∧
    (Draft.declared "top" (overlapping.eraseIdx 2) .empty).finish [] =
      .ok ((Draft.declared "top" (overlapping.eraseIdx 2) .empty).enclose []) := by
  have hclash : ¬ overlapping.Pairwise fun a b => ¬ a.Clashes b := by decide
  have hnone : (overlapping.eraseIdx 2).Pairwise fun a b => ¬ a.Clashes b := by decide
  exact ⟨hclash, (clashing_declarations_rejected "top" _).2 hclash, hnone,
    (clashing_declarations_rejected "top" _).1 hnone⟩

/-- The second of two registers of one name replaces the first one, and the draft is finished. -/
theorem register_declared_again : ∃ m, (Draft.declared "top" [.register "x" (.uint 8) 0, .register "x" (.uint 4) 3]
    .empty).finish [] = .ok m ∧ m.registers = .ofList [("x", ⟨.uint 4, 3⟩)] :=
  ⟨_, rfl, rfl⟩

end Sequencer
