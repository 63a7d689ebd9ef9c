import Sequencer.Proofs.Comb.Defaults

set_option autoImplicit false

/-!
# Control signals keep their values

No drive of a control signal leaves a guard. Propagation through all blocks of a tree therefore leaves each control signal
with the value that the tree gave it, or without one alike, as long as the tree reads nothing that it drives.
-/

namespace Sequencer

namespace Comb

section Parts

variable {P : Assign → Prop} {Q : Expr → Prop}

mutual
theorem Stmt.satisfies_of_mem : (s : Stmt) → (∀ a ∈ s.assigns, (∀ e, a.val = some e → Q e) → P a) →
    (∀ e ∈ s.exprs, Q e) → s.Satisfies P Q
  | .assign a, hP, hQ => hP a (List.mem_singleton.2 rfl) fun e he => hQ e (by simp [exprs, he])
  | .block g ds ss, hP, hQ => by
    rw [assigns, List.forall_mem_append] at hP
    rw [exprs, List.forall_mem_append, List.forall_mem_append] at hQ
    refine ⟨fun e he => hQ.1.1 e (by simp [he]), fun x hx => ?_, satisfiesAll_of_mem ss hP.2 hQ.2⟩
    refine hP.1 _ (List.mem_map_of_mem hx) fun e he => hQ.1.2 e ?_
    exact List.mem_flatMap.2 ⟨x.2, List.mem_map_of_mem hx, Option.mem_toList.2 he⟩
theorem Stmt.satisfiesAll_of_mem : (ss : List Stmt) →
    (∀ a ∈ Stmt.assignsAll ss, (∀ e, a.val = some e → Q e) → P a) → (∀ e ∈ Stmt.exprsAll ss, Q e) →
    Stmt.SatisfiesAll P Q ss
  | [], _, _ => trivial
  | s :: ss, hP, hQ => by
    rw [assignsAll, List.forall_mem_append] at hP
    rw [exprsAll, List.forall_mem_append] at hQ
    exact ⟨satisfies_of_mem s hP.1 hQ.1, satisfiesAll_of_mem ss hP.2 hQ.2⟩
end

end Parts

section Runs

variable {V : Type} (I : Interpretation V) (ρ : Valuation V) {T : List String}

theorem Block.run_cleanup (view : Store V → Valuation V) (b : Block) : (cleanup b).run I view = b.run I view := by
  change (if _ then Stmt.execAll I view (Stmt.cleanupAll b.stmts)
    (execAssigns I view (Defaults.cleanup b.dflts).assigns _) else _) = _
  rw [Stmt.execAll_cleanupAll, execAssigns_cleanup]
  rfl

/-- An assignment with a value drives a signal of `T` and reads none of them. -/
def Assign.Shielded (T : List String) (a : Assign) : Prop := ∀ e, a.val = some e → a.target ∈ T ∧ e.Avoids T

/-- A tree that reads nothing that it drives runs alike whether reads see what it drives or not. -/
theorem Block.run_overlay_of_shielded {b : Block} (h : b.Satisfies (Assign.Shielded T) (Expr.Avoids T)) :
    b.run I ρ.overlay = b.run I fun _ => ρ := by
  have hclean : (cleanup b).Satisfies (Assign.Apart T) (Expr.Avoids T) := by
    refine (satisfies_cleanup h).mono (fun a ha => ?_) fun _ he => he
    obtain ⟨hshield, hsome⟩ := ha
    obtain ⟨e, he⟩ := Option.isSome_iff_exists.1 hsome
    exact ⟨(hshield e he).1, fun e' he' => (hshield e' he').2⟩
  rw [← run_cleanup, Block.run_overlay I ρ hclean, run_cleanup]

/-- The signals driven with a value. -/
def Block.written (b : Block) : List String := (b.assigns.filter fun a => a.val.isSome).map Assign.target

theorem Block.shielded {b : Block} (h : ∀ e ∈ b.exprs, e.Avoids b.written) :
    b.Satisfies (Assign.Shielded b.written) (Expr.Avoids b.written) := by
  refine Stmt.satisfies_of_mem b.toStmt (fun a ha havoid e he => ⟨?_, havoid e he⟩) h
  exact List.mem_map_of_mem (List.mem_filter.2 ⟨ha, by simp [he]⟩)

end Runs

section Trees

variable (isControl : Assign → Bool) {P : Assign → Prop} {Q : Expr → Prop}

mutual
theorem Stmt.satisfies_updateDefaults : (s : Stmt) → s.Satisfies P Q → (s.updateDefaults isControl).Satisfies P Q
  | .assign _, h => h
  | .block _ _ ss, ⟨hg, hds, hss⟩ =>
    updateDefaults_satisfies isControl _ ⟨hg, hds, satisfiesAll_updateDefaultsAll ss hss⟩
theorem Stmt.satisfiesAll_updateDefaultsAll : (ss : List Stmt) → Stmt.SatisfiesAll P Q ss →
    Stmt.SatisfiesAll P Q (Stmt.updateDefaultsAll isControl ss)
  | [], h => h
  | s :: ss, ⟨hs, hss⟩ => ⟨satisfies_updateDefaults s hs, satisfiesAll_updateDefaultsAll ss hss⟩
end

variable {V : Type} (I : Interpretation V) (ρ : Valuation V) {t : String}

mutual
theorem Stmt.final_updateDefaults (hc : Controlled isControl t) : (s : Stmt) →
    (s.updateDefaults isControl).final I ρ t = s.final I ρ t
  | .assign _ => rfl
  | .block g ds ss => by
    rw [updateDefaults, Block.final_toStmt, updateDefaults_guard, updateDefaults_body isControl _ I ρ t hc, final,
      Block.body, finalAll_updateDefaultsAll hc ss]
theorem Stmt.finalAll_updateDefaultsAll (hc : Controlled isControl t) : (ss : List Stmt) →
    Stmt.finalAll I ρ t (Stmt.updateDefaultsAll isControl ss) = Stmt.finalAll I ρ t ss
  | [] => rfl
  | s :: ss => by rw [updateDefaultsAll, finalAll, finalAll, final_updateDefaults hc s, finalAll_updateDefaultsAll hc ss]
end

variable (b : Block)

theorem updateDefaultsTree_satisfies (h : b.Satisfies P Q) : (updateDefaultsTree isControl b).Satisfies P Q :=
  settle_induction (R := fun b b' : Block => b.Satisfies P Q → b'.Satisfies P Q) (fun _ h => h)
    (fun _ _ _ h h' hb => h' (h hb)) (fun b => Stmt.satisfies_updateDefaults isControl b.toStmt) b.weight b h

theorem updateDefaultsTree_final (hc : Controlled isControl t) :
    (updateDefaultsTree isControl b).toStmt.final I ρ t = b.toStmt.final I ρ t :=
  settle_induction (R := fun b b' : Block => b'.toStmt.final I ρ t = b.toStmt.final I ρ t) (fun _ => rfl)
    (fun _ _ _ h h' => h'.trans h) (fun b => Stmt.final_updateDefaults isControl I ρ hc b.toStmt) b.weight b

/-- Two trees over the same signals that read none of them and give a signal one value run alike on it. -/
theorem Block.run_eq_of_final {b b' : Block} {T : List String} (hb : b.Satisfies (Assign.Shielded T) (Expr.Avoids T))
    (hb' : b'.Satisfies (Assign.Shielded T) (Expr.Avoids T)) (h : b'.toStmt.final I ρ t = b.toStmt.final I ρ t) :
    b'.run I ρ.overlay t = b.run I ρ.overlay t := by
  rw [run_overlay_of_shielded I ρ hb, run_overlay_of_shielded I ρ hb', run, run, Stmt.exec_fixed, Stmt.exec_fixed, h]

end Trees

/-- Propagation through a tree, or through its outermost block alone, gives every control signal the value that it had,
or leaves it undriven alike. -/
theorem updateDefaultsTree_keeps_control (control : String → Bool) (b : Block)
    (hreads : ∀ e ∈ b.exprs, e.Avoids b.written) {V : Type} (I : Interpretation V) (ρ : Valuation V) (t : String)
    (ht : control t = true) :
    (updateDefaultsTree (fun a => control a.target) b).run I ρ.overlay t = b.run I ρ.overlay t ∧
      (updateDefaults (fun a => control a.target) b).run I ρ.overlay t = b.run I ρ.overlay t := by
  have hc : Controlled (fun a => control a.target) t := fun _ => ht
  have hb := Block.shielded hreads
  constructor
  · exact Block.run_eq_of_final I ρ hb (updateDefaultsTree_satisfies _ b hb) (updateDefaultsTree_final _ I ρ b hc)
  · refine Block.run_eq_of_final I ρ hb (updateDefaults_satisfies _ b hb) ?_
    rw [Block.final_toStmt, Block.final_toStmt, updateDefaults_guard, updateDefaults_body _ b I ρ t hc]

/-- A request with a value, a refusal, and an exception to the refusal. -/
def arbiter : Block :=
  .of none
    [.block (some (.flag "a")) .empty [.assign (.flag "en" (.bool true)), .assign (.of "val" (.literal 3 (.uint 8)) 8)],
      .block (some (.flag "b")) .empty
        [.assign (.flag "en" (.bool false)), .block (some (.flag "c")) .empty [.assign (.flag "en" (.bool true))]]]

/-- Propagation takes the value out of its guard, and the refusal still stands without the exception. -/
theorem arbiter_refuses : (∀ e ∈ arbiter.exprs, e.Avoids arbiter.written) ∧
    (updateDefaultsTree (fun a => a.target == "en") arbiter).dflts.keys = ["val"] ∧
    (updateDefaultsTree (fun a => a.target == "en") arbiter).run .integers (Valuation.allBut ["c"]).overlay "en" = some 0 ∧
    (updateDefaults (fun a => a.target == "en") arbiter).run .integers (Valuation.allBut ["c"]).overlay "en" = some 0 := by
  have hreads : ∀ e ∈ arbiter.exprs, e.Avoids arbiter.written := by decide
  have hrun : arbiter.run .integers (Valuation.allBut ["c"]).overlay "en" = some 0 := by decide +kernel
  obtain ⟨htree, hblock⟩ := updateDefaultsTree_keeps_control (· == "en") arbiter hreads .integers (.allBut ["c"]) "en" rfl
  exact ⟨hreads, by decide +kernel, htree.trans hrun, hblock.trans hrun⟩

end Comb

end Sequencer
