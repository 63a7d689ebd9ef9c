import Sequencer.Control.Draft
import Sequencer.Proofs.Expr.Leaves
import Sequencer.Proofs.Outline

set_option autoImplicit false

/-!
# The statements of a finished module

The statements at and below the root of a finished module form a tree, and each of them fits its place in it. What
makes a module fit does not depend on the ids of its statements and on the times at which its operands are read.
-/

namespace Sequencer

open Control

/-- An expression with all marks of read times taken off. -/
def Expr.unmarked (e : Expr) : Expr := e.mapOperands fun o => { o with time := .held }

/-- A kind of block with the marks of its exit condition taken off. -/
def Control.BlockKind.bare : BlockKind → BlockKind
  | .loop exit => .loop (exit.map Expr.unmarked)
  | k => k

theorem Control.BlockKind.bare_eq_conditional {k : BlockKind} : k.bare = .conditional ↔ k = .conditional := by
  cases k <;> simp [bare]

theorem Control.BlockKind.bare_eq_container {k : BlockKind} : k.bare = .container ↔ k = .container := by
  cases k <;> simp [bare]

theorem Control.BlockKind.bare_eq_module {k : BlockKind} : k.bare = .module ↔ k = .module := by
  cases k <;> simp [bare]

/-- A signal that carries neither the held nor the next value of a register is read whatever the marks are. -/
def Unmarkable (T : List String) : Prop := ∀ r, Name.held r ∉ T ∧ Name.nextValue r ∉ T

theorem Unmarkable.signal {T : List String} (hT : Unmarkable T) (o : Operand) :
    Operand.signal { o with time := .held } ∉ T ↔ o.signal ∉ T := by
  obtain ⟨name, storage, time, type⟩ := o
  obtain ⟨hheld, hnext⟩ := hT name
  cases storage with
  | register => cases time <;> simp [Operand.signal, hheld, hnext]
  | latch => rfl
  | port => rfl

mutual
theorem Expr.avoids_unmarked {T : List String} (hT : Unmarkable T) : (e : Expr) → (e.unmarked.Avoids T ↔ e.Avoids T)
  | .lit _ => Iff.rfl
  | .wire _ => Iff.rfl
  | .operand o => by simpa [Avoids, unmarked, mapOperands, substitute, reads] using hT.signal o
  | .bin _ l r => by
    have hl := avoids_unmarked hT l
    have hr := avoids_unmarked hT r
    simp only [Avoids, unmarked, mapOperands, substitute, reads, List.forall_mem_append] at hl hr ⊢
    rw [hl, hr]
  | .un _ a => avoids_unmarked hT a
  | .concat as => avoidsAll_unmarked hT as
theorem Expr.avoidsAll_unmarked {T : List String} (hT : Unmarkable T) : (as : List Expr) →
    ((∀ n ∈ readsAll (substituteAll (fun o => .operand { o with time := .held }) .wire as), n ∉ T) ↔
      ∀ n ∈ readsAll as, n ∉ T)
  | [] => Iff.rfl
  | a :: as => by
    have ha := avoids_unmarked hT a
    have has := avoidsAll_unmarked hT as
    simp only [Avoids, unmarked, mapOperands] at ha
    simp only [substituteAll, readsAll, List.forall_mem_append]
    rw [ha, has]
end

namespace Control.Stmt

/-- The expressions that a statement itself holds. -/
def exprs : Stmt → List Expr
  | block b =>
    match b.kind with
    | .loop exit => exit.toList ++ b.guard.toList
    | _ => b.guard.toList
  | yield y => y.vals.filterMap id
  | update _ v => [v]
  | assign _ v => [v]

/-- A statement without id and marks. -/
def bare (s : Stmt) : Stmt :=
  match s.mapExprs Expr.unmarked with
  | block b => block { b with id := none }
  | yield y => yield { y with id := none }
  | s => s

theorem bare_setId (n : Nat) (s : Stmt) : (s.setId n).bare = s.bare := by
  cases s <;> rfl

theorem nested_bare (s : Stmt) : s.bare.nested = s.nested := by
  cases s <;> rfl

theorem bare_eq_block {s : Stmt} {b : Block} (h : s.bare = (block b).bare) :
    ∃ c, s = block c ∧ (block c).bare = (block b).bare := by
  cases s with
  | block c => exact ⟨c, rfl, h⟩
  | yield y => cases h
  | update r v => cases h
  | assign x v => cases h

theorem exprs_bare (s : Stmt) : s.bare.exprs = s.exprs.map Expr.unmarked := by
  cases s with
  | block b =>
    obtain ⟨k, g, ss, id⟩ := b
    cases k with
    | loop exit => cases g <;> cases exit <;> rfl
    | _ => cases g <;> rfl
  | yield y => simp [bare, mapExprs, exprs, List.filterMap_map, List.map_filterMap]
  | update r v => rfl
  | assign x v => rfl

theorem bare_block (b : Block) :
    (block b).bare = block ⟨b.kind.bare, b.guard.map Expr.unmarked, b.stmts, none⟩ := by
  obtain ⟨k, g, ss, id⟩ := b
  cases k <;> rfl

theorem bare_block_inj {b b' : Block} (h : (block b').bare = (block b).bare) :
    b'.kind.bare = b.kind.bare ∧ b'.guard.map Expr.unmarked = b.guard.map Expr.unmarked ∧ b'.stmts = b.stmts := by
  rw [bare_block, bare_block] at h
  simpa using h

end Control.Stmt

namespace Module

/-- What a statement has to satisfy at its place in the tree. -/
def Fits (m : Module) (i : Nat) : Stmt → Prop
  | .block b =>
    match b.kind with
    | .module => i = m.root
    | .interface p | .interfaceLoop p => (m.input? p).isSome
    | .container => ∀ j ∈ b.stmts, ∃ c, m.stmt j = .ok (.block c) ∧ c.kind = .conditional
    | .conditional | .loop _ => True
  | .yield y => y.vals.length = m.outputs.length
  | .update r _ => m.registers.contains r
  | .assign x _ => m.vars.contains x

theorem fits_bare (m : Module) (i : Nat) (s : Stmt) : m.Fits i s.bare ↔ m.Fits i s := by
  cases s with
  | block b =>
    obtain ⟨k, g, ss, id⟩ := b
    cases k <;> exact Iff.rfl
  | yield y => simp [Fits, Stmt.bare, Stmt.mapExprs]
  | update r v => exact Iff.rfl
  | assign x v => exact Iff.rfl

structure WellFormed (m : Module) : Prop where
  names_nodup : m.declaredNames.Nodup
  nodup : (m.outline m.root).preorder.Nodup
  fits : ∀ i ∈ (m.outline m.root).preorder, ∃ s, m.stmt i = .ok s ∧ m.Fits i s
  root_block : ∃ b, m.stmt m.root = .ok (.block b) ∧ b.kind = .module ∧ b.guard = none

theorem kind?_eq_ok {m : Module} {i : Nat} {k : Option BlockKind} (h : m.kind? i = .ok k) :
    ∃ s, m.stmt i = .ok s ∧ s.block?.map Block.kind = k := by
  obtain ⟨b, hb, hk⟩ := Checked.map_eq_ok.1 h
  obtain ⟨s, hs, hb⟩ := Checked.map_eq_ok.1 hb
  exact ⟨s, hs, by rw [hb, hk]⟩

theorem conditional_of_filterM {m : Module} {js : List Nat}
    (h : (js.filterM fun j => do return (← m.kind? j) != some BlockKind.conditional) = .ok []) :
    ∀ j ∈ js, ∃ c, m.stmt j = .ok (.block c) ∧ c.kind = .conditional := by
  obtain ⟨hall, hnil⟩ := Checked.filterM_eq_ok h
  intro j hj
  obtain ⟨k, hk, hpass⟩ := Checked.bind_eq_ok.1 (hall j hj)
  have hfalse := List.filter_eq_nil_iff.1 hnil.symm j hj
  rw [← Except.ok.inj hpass] at hfalse
  obtain ⟨s, hs, hkind⟩ := kind?_eq_ok hk
  have hcond : s.block?.map Block.kind = some .conditional := by
    rw [hkind]
    simpa using hfalse
  cases s with
  | block c => exact ⟨c, hs, by simpa [Stmt.block?] using hcond⟩
  | yield y => cases hcond
  | update r v => cases hcond
  | assign x v => cases hcond

theorem fits_of_checkStmt {m : Module} {i : Nat} (h : m.checkStmt i = .ok ()) :
    ∃ s, m.stmt i = .ok s ∧ m.Fits i s := by
  rw [checkStmt, Checked.bind_eq_ok] at h
  obtain ⟨s, hs, h⟩ := h
  refine ⟨s, hs, ?_⟩
  cases s with
  | block b =>
    obtain ⟨k, g, ss, id⟩ := b
    have hport : ∀ p, (if (m.input? p).isNone then m.describe i >>= fun t => .reject (.undeclaredInterface t p)
        else pure ()) = (.ok () : Checked Unit) → (m.input? p).isSome := by
      intro p hp
      split at hp
      · rw [Checked.bind_eq_ok] at hp
        obtain ⟨t, _, hp⟩ := hp
        simp at hp
      · rename_i hnone
        exact Option.isSome_iff_ne_none.2 (by simpa using hnone)
    cases k with
    | module =>
      dsimp only at h
      split at h
      · simp at h
      · rename_i hroot
        exact not_not.1 hroot
    | interface p => exact hport p h
    | interfaceLoop p => exact hport p h
    | conditional => trivial
    | loop exit => trivial
    | container =>
      dsimp only at h
      rw [Checked.bind_eq_ok] at h
      obtain ⟨others, hothers, h⟩ := h
      cases others with
      | cons j others =>
        rw [Checked.bind_eq_ok] at h
        obtain ⟨t, _, h⟩ := h
        simp at h
      | nil => exact conditional_of_filterM hothers
  | yield y =>
    dsimp only at h
    split at h
    · assumption
    · simp at h
  | update r v =>
    dsimp only at h
    split at h
    · assumption
    · simp at h
  | assign x v =>
    dsimp only at h
    split at h
    · assumption
    · simp at h

theorem firstRepeat_eq_none_iff {α : Type} [DecidableEq α] {seen as : List α} :
    firstRepeat seen as = none ↔ as.Nodup ∧ ∀ a ∈ as, a ∉ seen := by
  induction as generalizing seen with
  | nil => simp [firstRepeat]
  | cons a as ih =>
    rw [firstRepeat, List.nodup_cons, List.forall_mem_cons]
    split
    · rename_i ha
      simp [ha]
    · rename_i ha
      rw [ih]
      constructor
      · rintro ⟨hnodup, hseen⟩
        exact ⟨⟨fun hmem => hseen a hmem List.mem_cons_self, hnodup⟩, ha,
          fun x hx hxs => hseen x hx (List.mem_cons_of_mem _ hxs)⟩
      · rintro ⟨⟨hnot, hnodup⟩, _, hseen⟩
        refine ⟨hnodup, fun x hx hmem => ?_⟩
        rcases List.mem_cons.1 hmem with rfl | hmem
        · exact hnot hx
        · exact hseen x hx hmem

theorem nodup_of_checkStmts {m : Module} {seen is : List Nat} (h : m.checkStmts seen is = .ok ()) :
    is.Nodup ∧ (∀ i ∈ is, i ∉ seen) ∧ ∀ i ∈ is, m.checkStmt i = .ok () := by
  induction is generalizing seen with
  | nil => exact ⟨List.nodup_nil, by simp, by simp⟩
  | cons i is ih =>
    rw [checkStmts] at h
    split at h
    · rw [Checked.bind_eq_ok] at h
      obtain ⟨_, _, h⟩ := h
      simp at h
    · rename_i hi
      rw [Checked.bind_eq_ok] at h
      obtain ⟨⟨⟩, hcheck, h⟩ := h
      obtain ⟨hnodup, hseen, hall⟩ := ih h
      refine ⟨List.nodup_cons.2 ⟨fun hmem => hseen i hmem List.mem_cons_self, hnodup⟩, ?_, ?_⟩
      · exact List.forall_mem_cons.2 ⟨hi, fun x hx hxs => hseen x hx (List.mem_cons_of_mem _ hxs)⟩
      · exact List.forall_mem_cons.2 ⟨hcheck, hall⟩

theorem descendants_eq_ok {m : Module} {i : Nat} {is : List Nat} (h : m.descendants i = .ok is) :
    is = (m.outline i).preorder := by
  refine (List.forall₂_eq_eq_eq ▸ (Checked.mapM_eq_ok h).imp ?_).symm
  intro a b hab
  obtain ⟨_, _, hab⟩ := Checked.map_eq_ok.1 hab
  exact hab

theorem wellFormed_of_finish {d : Draft} {top : List Nat} {m : Module} (h : d.finish top = .ok m) :
    m.WellFormed := by
  rw [Draft.finish, Checked.bind_eq_ok] at h
  obtain ⟨⟨⟩, hcheck, h⟩ := h
  cases h
  rw [check] at hcheck
  split at hcheck
  · simp at hcheck
  · rename_i hnames
    rw [Checked.bind_eq_ok] at hcheck
    obtain ⟨is, his, hcheck⟩ := hcheck
    obtain ⟨hnodup, _, hall⟩ := nodup_of_checkStmts hcheck
    rw [descendants_eq_ok his] at hnodup hall
    refine ⟨(firstRepeat_eq_none_iff.1 hnames).1, hnodup, fun i hi => fits_of_checkStmt (hall i hi), ?_⟩
    refine ⟨⟨.module, none, top, none⟩, ?_, rfl, rfl⟩
    rw [stmt, Arena.get_eq_ok_iff]
    exact (Arena.get?_push _ _ _).trans (if_pos rfl)

/-- Modules that differ in the ids and marks of their statements only. -/
structure Alike (m m' : Module) : Prop where
  root : m'.root = m.root
  registers : m'.registers = m.registers
  vars : m'.vars = m.vars
  inputs : m'.inputs = m.inputs
  outputs : m'.outputs = m.outputs
  size : m'.stmts.size = m.stmts.size
  bare : ∀ i, (m'.stmts.get? i).map Stmt.bare = (m.stmts.get? i).map Stmt.bare

namespace Alike

variable {m m' m'' : Module}

theorem refl (m : Module) : Alike m m := ⟨rfl, rfl, rfl, rfl, rfl, rfl, fun _ => rfl⟩

theorem symm (h : Alike m m') : Alike m' m :=
  ⟨h.root.symm, h.registers.symm, h.vars.symm, h.inputs.symm, h.outputs.symm, h.size.symm, fun i => (h.bare i).symm⟩

theorem trans (h : Alike m m') (h' : Alike m' m'') : Alike m m'' :=
  ⟨h'.root.trans h.root, h'.registers.trans h.registers, h'.vars.trans h.vars, h'.inputs.trans h.inputs,
    h'.outputs.trans h.outputs, h'.size.trans h.size, fun i => (h'.bare i).trans (h.bare i)⟩

theorem set {i : Nat} {s s' : Stmt} {stmts : Arena Stmt} (hs : m.stmt i = .ok s) (hbare : s'.bare = s.bare)
    (h : m.stmts.set i s' = .ok stmts) : Alike m { m with stmts := stmts } := by
  obtain ⟨hsize, hget⟩ := Arena.set_eq_ok h
  refine ⟨rfl, rfl, rfl, rfl, rfl, hsize, ?_⟩
  intro j
  change (stmts.get? j).map Stmt.bare = _
  rw [hget j]
  split
  · rename_i hj
    rw [stmt, Arena.get_eq_ok_iff] at hs
    rw [hj, hs, Option.map_some, Option.map_some, hbare]
  · rfl

theorem stmt (h : Alike m m') {i : Nat} {s : Stmt} (hs : m.stmt i = .ok s) :
    ∃ s', m'.stmt i = .ok s' ∧ s'.bare = s.bare := by
  rw [Module.stmt, Arena.get_eq_ok_iff] at hs
  have hbare := h.bare i
  rw [hs, Option.map_some] at hbare
  obtain ⟨s', hs', hb⟩ := Option.map_eq_some_iff.1 hbare
  exact ⟨s', (Arena.get_eq_ok_iff _ _ _).2 hs', hb⟩

theorem block (h : Alike m m') {i : Nat} {b : Block} (hb : m.stmt i = .ok (.block b)) :
    ∃ b', m'.stmt i = .ok (.block b') ∧ (Stmt.block b').bare = (Stmt.block b).bare := by
  obtain ⟨s', hs', hbare⟩ := h.stmt hb
  obtain ⟨b', rfl, hbare⟩ := Stmt.bare_eq_block hbare
  exact ⟨b', hs', hbare⟩

theorem outline (h : Alike m m') (i : Nat) : m'.outline i = m.outline i := by
  refine Arena.outline_congr h.size ?_ i
  intro j
  have hnested : ∀ x : Option Stmt, x.elim [] Stmt.nested = (x.map Stmt.bare).elim [] Stmt.nested := by
    intro x
    cases x with
    | none => rfl
    | some s => exact (Stmt.nested_bare s).symm
  unfold Arena.linksAt
  rw [hnested (m'.stmts.get? j), h.bare j, ← hnested]

theorem stmt_map (h : Alike m m') (i : Nat) : (m'.stmt i).map Stmt.bare = (m.stmt i).map Stmt.bare := by
  have hget : ∀ a : Arena Stmt, (a.get i).map Stmt.bare =
      match (a.get? i).map Stmt.bare with
      | some s => .ok s
      | none => Checked.abort (.outOfBounds a.size i) := by
    intro a
    unfold Arena.get Arena.get?
    cases a.items[i]? <;> rfl
  rw [Module.stmt, Module.stmt, hget, hget, h.bare i, h.size]

mutual
theorem blocking (h : Alike m m') : (o : Outline) → m'.blocking o = m.blocking o
  | .node i os => by
    have hbare : ∀ n : Module, n.blocking (.node i os) = ((n.stmt i).map Stmt.bare >>= fun s =>
        match s with
        | .yield _ => pure true
        | .update _ _ | .assign _ _ => pure false
        | .block b => if b.kind.suspends then pure true else n.anyBlocking os) := by
      intro n
      rw [Module.blocking]
      cases n.stmt i with
      | error e => rfl
      | ok s =>
        cases s with
        | block b =>
          obtain ⟨k, g, ss, id⟩ := b
          cases k <;> rfl
        | yield y => rfl
        | update r v => rfl
        | assign x v => rfl
    rw [hbare, hbare, h.stmt_map, anyBlocking h os]
theorem anyBlocking (h : Alike m m') : (os : List Outline) → m'.anyBlocking os = m.anyBlocking os
  | [] => rfl
  | o :: os => by rw [Module.anyBlocking, Module.anyBlocking, blocking h o, anyBlocking h os]
end

theorem isBlocking (h : Alike m m') (j : Nat) : m'.isBlocking j = m.isBlocking j := by
  rw [Module.isBlocking, Module.isBlocking, h.outline, h.blocking]

theorem fits (h : Alike m m') {i : Nat} {s s' : Stmt} (hbare : s'.bare = s.bare) (hfits : m.Fits i s) :
    m'.Fits i s' := by
  have hport : ∀ p, (m.input? p).isSome → (m'.input? p).isSome := by
    intro p hp
    rw [input?, h.inputs]
    exact hp
  have hsame : ∀ s, m.Fits i s → m'.Fits i s := by
    intro s hs
    cases s with
    | block b =>
      obtain ⟨k, g, ss, id⟩ := b
      cases k with
      | module => exact hs.trans h.root.symm
      | interface p => exact hport p hs
      | interfaceLoop p => exact hport p hs
      | conditional => trivial
      | loop exit => trivial
      | container =>
        intro j hj
        obtain ⟨c, hc, hck⟩ := hs j hj
        obtain ⟨c', hc', hbare⟩ := h.block hc
        refine ⟨c', hc', ?_⟩
        rw [← BlockKind.bare_eq_conditional, (Stmt.bare_block_inj hbare).1, hck]
        rfl
    | yield y =>
      change y.vals.length = m'.outputs.length
      rw [h.outputs]
      exact hs
    | update r v =>
      change m'.registers.contains r = true
      rw [h.registers]
      exact hs
    | assign x v =>
      change m'.vars.contains x = true
      rw [h.vars]
      exact hs
  refine hsame s' ?_
  rw [← fits_bare, hbare, fits_bare]
  exact hfits

theorem wellFormed (h : Alike m m') (hm : m.WellFormed) : m'.WellFormed where
  names_nodup := by
    rw [declaredNames, h.registers, h.vars, h.inputs, h.outputs]
    exact hm.names_nodup
  nodup := by
    rw [h.root, h.outline]
    exact hm.nodup
  fits := by
    intro i hi
    rw [h.root, h.outline] at hi
    obtain ⟨s, hs, hfits⟩ := hm.fits i hi
    obtain ⟨s', hs', hbare⟩ := h.stmt hs
    exact ⟨s', hs', h.fits hbare hfits⟩
  root_block := by
    obtain ⟨b, hb, hkind, hguard⟩ := hm.root_block
    obtain ⟨b', hb', hbare⟩ := h.block hb
    obtain ⟨hkind', hguard', _⟩ := Stmt.bare_block_inj hbare
    rw [hkind] at hkind'
    rw [hguard] at hguard'
    obtain ⟨k, g, ss, id⟩ := b'
    exact ⟨⟨k, g, ss, id⟩, by rw [h.root, hb'], BlockKind.bare_eq_module.1 hkind', Option.map_eq_none_iff.1 hguard'⟩

end Alike

end Module

end Sequencer
