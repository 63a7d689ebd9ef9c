import Sequencer.Proofs.Comb.Control
import Sequencer.Proofs.Comb.Propagation
import Sequencer.Proofs.Lowering.Registers

set_option autoImplicit false

/-!
# Registers in program order

The updates and conditionals of a cycle, lowered as they stand, leave in every register what the program leaves in it: the
next value of a register that has not been updated is the old one. Then defaults are propagated. An update may move ahead
of a statement that reads the register, and one that repeats a value may be dropped though the value means something else
by then. Where neither happens the tree of the registers computes what the program computes.
-/

namespace Sequencer

open Control

namespace Module

variable (m : Module)

mutual
/-- The registers that have been updated after an outline, if `written` have been before. -/
def updated (written : List String) : Outline → List String
  | .node i os =>
    match m.stmt i with
    | .ok (.update r _) => r :: written
    | .ok (.block _) => updatedAll written os
    | _ => written
def updatedAll (written : List String) : List Outline → List String
  | [] => written
  | o :: os => updatedAll (updated written o) os
end

mutual
/-- Updates and conditionals as they stand, in a cycle that completes under `enable`. Reads see the updates before them. -/
def direct (enable : Expr) (written : List String) : Outline → List Comb.Stmt
  | .node i os =>
    match m.stmt i with
    | .ok (.update r v) => Lowering.assigns
      (Lowering.Aspect.registers.writes enable r (v.mapOperands (Operand.afterWrites written)) (m.width r))
    | .ok (.block b) =>
      [.block (b.guard.map (Expr.mapOperands (Operand.afterWrites written))) .empty (directAll enable written os)]
    | _ => []
def directAll (enable : Expr) (written : List String) : List Outline → List Comb.Stmt
  | [] => []
  | o :: os => direct enable written o ++ directAll enable (m.updated written o) os
end

/-- Propagation of defaults keeps the order of the statements, after every register has been disabled. -/
def InOrder (enable : Expr) (body : List Nat) : Prop :=
  Comb.Stmt.InOrderAll (.start (Comb.Ahead.empty.setAll (m.entryAssigns.map Comb.Assign.setting)) [])
    (m.directAll enable [] (body.map m.outline))

instance (enable : Expr) (body : List Nat) : Decidable (m.InOrder enable body) :=
  inferInstanceAs (Decidable (Comb.Stmt.InOrderAll _ _))

/-- The signals for the next values of the registers. -/
def registerSignals : List String := m.registers.keys.flatMap fun r => [Name.enable r, Name.nextValue r]

/-- A leaf that is a literal, a declared register or a wire other than `names`. -/
def isRead (names : List String) : Expr → Bool
  | .operand o => o.storage == .register && o.time == .held && (m.registers.get? o.name).map Register.type == some o.type
  | .wire w => !names.contains w.name
  | _ => true

/-- The statements at and below `stmts` read registers, literals and wires other than `names`. -/
def ReadsRegisters (names : List String) (stmts : List Nat) : Prop :=
  ∀ n ∈ m.below stmts, ∀ s ∈ (m.stmt n).toOption, ∀ e ∈ s.exprs, ∀ x ∈ e.leaves, m.isRead names x = true

instance (names : List String) (stmts : List Nat) : Decidable (m.ReadsRegisters names stmts) :=
  inferInstanceAs (Decidable (∀ n ∈ m.below stmts, ∀ s ∈ (m.stmt n).toOption, ∀ e ∈ s.exprs, ∀ x ∈ e.leaves,
    m.isRead names x = true))

theorem target_entryAssigns : m.entryAssigns.map Comb.Assign.target = m.registerSignals := by
  rw [entryAssigns, registerSignals, List.map_flatMap, Listing.keys, List.flatMap_map]
  rfl

mutual
theorem subset_updated : (o : Outline) → ∀ written, written ⊆ m.updated written o
  | .node i os, written => by
    rw [updated]
    split
    · exact List.subset_cons_self _ _
    · exact subset_updatedAll os written
    · exact List.Subset.refl _
theorem subset_updatedAll : (os : List Outline) → ∀ written, written ⊆ m.updatedAll written os
  | [], _ => List.Subset.refl _
  | o :: os, written => List.Subset.trans (subset_updated o written) (subset_updatedAll os _)
end

variable {m}

theorem mem_registerSignals {n : String} :
    n ∈ m.registerSignals ↔ ∃ r ∈ m.registers.keys, n = Name.enable r ∨ n = Name.nextValue r := by
  simp [registerSignals]

theorem nodup_registerSignals : m.registerSignals.Nodup := by
  rw [registerSignals, List.nodup_flatMap]
  refine ⟨fun r _ => ?_, m.registers.nodup.imp fun {r r'} hne => ?_⟩
  · simpa using Name.ne_of_ending (by simp)
  · simp only [Function.onFun, List.disjoint_cons_left, List.mem_cons, List.not_mem_nil, or_false, not_or,
      List.disjoint_nil_left, and_true]
    refine ⟨⟨fun h => hne (Name.enable_inj.1 h), Name.ne_of_ending (by simp)⟩, Name.ne_of_ending (by simp),
      fun h => hne (Name.nextValue_inj.1 h)⟩

theorem not_isCondition_of_registerSignals {n : String} (h : n ∈ m.registerSignals) : ¬ Name.IsCondition n := by
  obtain ⟨r, _, rfl | rfl⟩ := mem_registerSignals.1 h
  · exact fun hn => hn.ne_enable r rfl
  · exact fun hn => hn.ne_nextValue r rfl

end Module

namespace Lowering

open Lower Comb

section Propagation

variable {V : Type} (I : Interpretation V) (ρ : Valuation V) {isControl : Assign → Bool} {h : Ahead}

theorem inlined_of_guard_none {b : Comb.Block} (hb : b.guard = none) : inlined b = b.dflts.assigns.map .assign ++ b.stmts := by
  unfold inlined
  split
  · rename_i hempty
    obtain ⟨hstmts, hdflts⟩ := Bool.and_eq_true_iff.1 hempty
    have hentries : b.dflts.entries = [] := List.isEmpty_iff.1 hdflts
    rw [List.isEmpty_iff.1 hstmts, Defaults.assigns, hentries]
    rfl
  · rw [hb]
    rfl

/-- A steady block without a guard, propagated and written out, does the same and is steady. -/
theorem steady_inlined {b b' : Comb.Block} (hb' : b'.Steady isControl h) (halike : b.Alike I ρ b') (hguard : b.guard = none) :
    (Comb.Block.of none (inlined b')).Steady isControl h ∧
      (∀ t, t ∈ Comb.Stmt.targetsAll (inlined b') ↔ t ∈ b.toStmt.targets) ∧
      ∀ σ : Store V, Comb.Stmt.execAll I ρ.overlay (inlined b') σ = b.effect I ρ σ := by
  have hinlined := inlined_of_guard_none (halike.guard.trans hguard)
  refine ⟨hinlined ▸ hb'.flat, fun t => ?_, fun σ => ?_⟩
  · have hsettings : Comb.Stmt.settingsAll (inlined b') = b'.toStmt.settings := by
      rw [hinlined, Comb.Stmt.settingsAll_append, Comb.Block.settings_toStmt, ← Defaults.settings_assigns]
      exact congrArg (·.map Assign.setting ++ _) (Comb.Stmt.assignsAll_assigns b'.dflts.assigns)
    rw [Comb.Stmt.targetsAll_eq, Comb.Stmt.targets_eq, hsettings]
    simp only [List.mem_map, halike.settings]
  · rw [hinlined, Comb.Stmt.execAll_append, Comb.Stmt.execAll_assigns, ← halike.effect]
    rfl

/-- The tree of statements that propagation keeps in order does what they do after what is assigned on entry. -/
theorem run_straightTree_steady (a : Aspect) {as : List Assign} {lowered : List Comb.Stmt}
    (hnodup : (as.map Assign.target).Nodup)
    (hunread : ∀ x ∈ as.map Assign.setting, ∀ y ∈ as.map Assign.setting, x.1 ∉ valueReads y.2)
    (hplain : ∀ b ∈ as, Assign.Plain a.isControl b) (hset : Comb.Stmt.targetsAll lowered ⊆ as.map Assign.target)
    (hsteady : (Comb.Block.of none lowered).Steady a.isControl (Ahead.empty.setAll (as.map Assign.setting))) :
    (a.straightTree (assigns as) lowered).run I ρ.overlay =
      Comb.Stmt.execAll I ρ.overlay (assigns as ++ lowered) fun _ => none := by
  obtain ⟨hsteady₁, halike₁⟩ := hsteady.updateDefaults (I := I) (ρ := ρ)
  obtain ⟨hsteady₂, halike₂⟩ := hsteady₁.updateDefaults (I := I) (ρ := ρ)
  obtain ⟨hbody, htargets, hexec⟩ := steady_inlined I ρ hsteady₂ (halike₁.trans halike₂) rfl
  have hbehind := Comb.Block.Steady.behind hnodup hunread hplain (fun t ht => hset ((htargets t).1 ht)) hbody
  obtain ⟨hsteady₃, halike₃⟩ := hbehind.updateDefaults (I := I) (ρ := ρ)
  obtain ⟨htop, _, hexec'⟩ := steady_inlined I ρ hsteady₃ halike₃ rfl
  obtain ⟨_, halike₄⟩ := htop.updateDefaults (I := I) (ρ := ρ)
  refine (halike₄.exec_eq _).trans ((hexec' _).trans ?_)
  rw [Comb.Stmt.execAll_append]
  refine Eq.trans ?_ (hexec _)
  exact Comb.Stmt.execAll_append I ρ.overlay _ _ _

end Propagation

section Direct

variable {m m' : Module} {enable : Expr}

theorem updateDefaultsAll_append (isControl : Assign → Bool) (ss ts : List Comb.Stmt) :
    Comb.Stmt.updateDefaultsAll isControl (ss ++ ts) =
      Comb.Stmt.updateDefaultsAll isControl ss ++ Comb.Stmt.updateDefaultsAll isControl ts := by
  induction ss with
  | nil => rfl
  | cons s ss ih => exact congrArg (s.updateDefaults isControl :: ·) ih

theorem updateDefaultsAll_assigns (isControl : Assign → Bool) (as : List Assign) :
    Comb.Stmt.updateDefaultsAll isControl (assigns as) = assigns as := by
  induction as with
  | nil => rfl
  | cons a as ih => exact congrArg (.assign a :: ·) ih

mutual
/-- The statements are lowered as they stand, with defaults propagated through each conditional. -/
theorem renders_direct (hwidth : ∀ x, m'.width x = m.width x) : (o : Outline) →
    (∀ n ∈ o.preorder, m.Plain .register n) → ∀ {written out : List String} {ss : List Comb.Stmt},
    m.Marked m' written o out → Renders m' .registers enable o ss →
    ss = Comb.Stmt.updateDefaultsAll Aspect.registers.isControl (m.direct enable written o) ∧ out = m.updated written o
  | .node i os, hplain, written, out, ss, hmarked, h => by
    rw [Outline.preorder_eq, List.forall_mem_cons] at hplain
    obtain ⟨⟨s, hs, hcases⟩, hos⟩ := hplain
    obtain ⟨s₁, s', hs₁, hs', heq, hout⟩ := hmarked
    cases hs.symm.trans hs₁
    obtain ⟨s₂, hs₂, h⟩ := h
    cases hs'.symm.trans hs₂
    rw [Module.direct, Module.updated, hs]
    rcases hcases with ⟨x, v, hw⟩ | ⟨b, rfl, _⟩
    · cases s with
      | block b | yield y | assign x v => cases hw
      | update r v =>
        cases s' with
        | block b' | yield y' | assign x' v' => cases heq
        | update r' v' =>
          cases heq
          obtain ⟨k, v', hw', rfl⟩ := h
          cases hw'
          exact ⟨by rw [updateDefaultsAll_assigns, hwidth], hout⟩
    · cases s' with
      | yield y' | update r' v' | assign x' v' => cases heq
      | block b' =>
        obtain ⟨inner, hinner, rfl⟩ := h
        obtain ⟨rfl, rfl⟩ := rendersAll_direct hwidth os hos hout hinner
        injection heq with heq
        injection heq with _ hguard
        exact ⟨by rw [hguard]; rfl, rfl⟩
theorem rendersAll_direct (hwidth : ∀ x, m'.width x = m.width x) : (os : List Outline) →
    (∀ n ∈ os.flatMap Outline.preorder, m.Plain .register n) → ∀ {written out : List String} {ss : List Comb.Stmt},
    m.MarkedAll m' written os out → RendersAll m' .registers enable os ss →
    ss = Comb.Stmt.updateDefaultsAll Aspect.registers.isControl (m.directAll enable written os) ∧
      out = m.updatedAll written os
  | [], _, _, _, _, hmarked, h => ⟨h, hmarked⟩
  | o :: os, hplain, written, out, ss, hmarked, h => by
    rw [List.flatMap_cons, List.forall_mem_append] at hplain
    obtain ⟨mid, hmid, hrest⟩ := hmarked
    obtain ⟨ts, us, hts, hus, rfl⟩ := h
    obtain ⟨rfl, rfl⟩ := renders_direct hwidth o hplain.1 hmid hts
    obtain ⟨rfl, rfl⟩ := rendersAll_direct hwidth os hplain.2 hrest hus
    exact ⟨(updateDefaultsAll_append _ _ _).symm, rfl⟩
end

/-- Updates of registers have a value and never leave a guard. -/
theorem plain_writes (r : String) (v : Expr) (w : Nat) :
    ∀ a ∈ Aspect.registers.writes enable r v w, Assign.Plain Aspect.registers.isControl a := by
  simp only [Aspect.writes, List.forall_mem_cons, List.not_mem_nil, false_imp_iff, implies_true, and_true]
  exact ⟨⟨isControl_enable r _, rfl⟩, isControl_nextValue r _, rfl⟩

theorem target_writes {r : String} (v : Expr) (w : Nat) (hr : r ∈ m.registers.keys) :
    ∀ a ∈ Aspect.registers.writes enable r v w, a.target ∈ m.registerSignals := by
  simp only [Aspect.writes, List.forall_mem_cons, List.not_mem_nil, false_imp_iff, implies_true, and_true]
  exact ⟨Module.mem_registerSignals.2 ⟨r, hr, .inl rfl⟩, Module.mem_registerSignals.2 ⟨r, hr, .inr rfl⟩⟩

/-- The assignments of a straight module. -/
def Updating (m : Module) (a : Assign) : Prop :=
  Assign.Plain Aspect.registers.isControl a ∧ a.target ∈ m.registerSignals

mutual
theorem updating_direct : (o : Outline) → (∀ n ∈ o.preorder, ∀ r v, m.stmt n = .ok (.update r v) → r ∈ m.registers.keys) →
    ∀ written, Comb.Stmt.SatisfiesAll (Updating m) (fun _ => True) (m.direct enable written o)
  | .node i os, hdeclared, written => by
    rw [Outline.preorder_eq, List.forall_mem_cons] at hdeclared
    rw [Module.direct]
    split
    · rename_i r v hs
      refine Comb.Stmt.satisfiesAll_assigns.2 fun a ha => ?_
      exact ⟨plain_writes r _ _ a ha, target_writes _ _ (hdeclared.1 r v hs) a ha⟩
    · exact ⟨⟨fun _ _ => trivial, fun e he => absurd he List.not_mem_nil, updating_directAll os hdeclared.2 written⟩,
        trivial⟩
    · trivial
theorem updating_directAll : (os : List Outline) →
    (∀ n ∈ os.flatMap Outline.preorder, ∀ r v, m.stmt n = .ok (.update r v) → r ∈ m.registers.keys) →
    ∀ written, Comb.Stmt.SatisfiesAll (Updating m) (fun _ => True) (m.directAll enable written os)
  | [], _, _ => trivial
  | o :: os, hdeclared, written => by
    rw [List.flatMap_cons, List.forall_mem_append] at hdeclared
    rw [Module.directAll, Comb.Stmt.satisfiesAll_append]
    exact ⟨updating_direct o hdeclared.1 written, updating_directAll os hdeclared.2 _⟩
end

end Direct

/-- A statement of a straight module that updates declared registers and reads none of `names`. -/
structure Sequential (m : Module) (names : List String) (n : Nat) : Prop where
  plain : m.Plain .register n
  exprs : ∀ s, m.stmt n = .ok s → ∀ e ∈ s.exprs, e.LeavesSatisfy (m.isRead names · = true)
  target : ∀ r v, m.stmt n = .ok (.update r v) → r ∈ m.registers.keys

section Mirror

variable {V : Type} (I : Interpretation V) (ρ τ : Valuation V) (m : Module)

/-- The valuation `τ` differs from `ρ` in `names` only, among them the signals of the registers, and the cycle completes. -/
structure Extends (names : List String) (enable : Expr) : Prop where
  operand : τ.operand = ρ.operand
  wire : ∀ x : Wire, x.name ∉ names → τ.wire x = ρ.wire x
  signals : m.registerSignals ⊆ names
  enable : ∀ σ : Store V, σ.Within m.registerSignals → I.truth (enable.eval I (τ.overlay σ)) = true

/-- The next values of the registers are what has been written, `w`, or else what the registers hold. -/
structure Follows (written : List String) (σ : Store V) (w : Written V) : Prop where
  next : ∀ r reg, m.registers.get? r = some reg →
    σ (Name.nextValue r) = some ((w (.register, r)).getD (ρ.operand ⟨r, .register, .held, reg.type⟩))
  within : σ.Within m.registerSignals
  fresh : ∀ r, r ∉ written → w (.register, r) = none

/-- Besides, those registers are enabled that have been written. -/
structure Mirrors (written : List String) (σ : Store V) (w : Written V) : Prop extends Follows ρ m written σ w where
  enable : ∀ r reg, m.registers.get? r = some reg → (σ (Name.enable r)).map I.truth = some (w (.register, r)).isSome

variable {I ρ τ m} {names written : List String} {enable : Expr} {σ : Store V} {w : Written V}

theorem held_not_mem_registerSignals (r : String) : Name.held r ∉ m.registerSignals := by
  intro h
  obtain ⟨q, _, h | h⟩ := Module.mem_registerSignals.1 h
  · exact Name.ne_of_ending (by simp) h
  · exact Name.ne_of_ending (by simp) h

/-- Marked reads of the signals see what the program reads. -/
theorem Follows.eval (h : Follows ρ m written σ w) (hτ : Extends I ρ τ m names enable) {e : Expr}
    (he : e.LeavesSatisfy (m.isRead names · = true)) :
    (e.mapOperands (Operand.afterWrites written)).eval I (τ.overlay σ) = e.eval I (ρ.during w) := by
  rw [Expr.mapOperands, Expr.eval_substitute]
  refine e.eval_congr I (fun o ho => ?_) fun x hx => ?_
  · have hread := he _ ho
    simp only [Module.isRead, Bool.and_eq_true, beq_iff_eq, Option.map_eq_some_iff] at hread
    obtain ⟨⟨hstorage, htime⟩, reg, hreg, htype⟩ := hread
    obtain ⟨name, storage, time, type⟩ := o
    subst hstorage htime htype
    change (σ (Operand.afterWrites written _).signal).getD _ = (w (.register, name)).getD (ρ.operand _)
    by_cases hmem : name ∈ written
    · rw [Operand.afterWrites, if_pos ⟨rfl, rfl, List.contains_iff_mem.2 hmem⟩]
      change (σ (Name.nextValue name)).getD _ = _
      rw [h.next name reg hreg, Option.getD_some]
    · rw [Operand.afterWrites, if_neg fun hcond => hmem (List.contains_iff_mem.1 hcond.2.2), h.fresh name hmem]
      change (σ (Name.held name)).getD (τ.operand _) = _
      rw [h.within _ (held_not_mem_registerSignals name), hτ.operand]
  · have hx : x.name ∉ names := by simpa [Module.isRead] using he _ hx
    change (σ x.name).getD (τ.wire x) = ρ.wire x
    rw [h.within _ fun hmem => hx (hτ.signals hmem), Option.getD_none, hτ.wire x hx]

theorem Follows.holds (h : Follows ρ m written σ w) (hτ : Extends I ρ τ m names enable) {g : Cond}
    (hg : ∀ e, g = some e → e.LeavesSatisfy (m.isRead names · = true)) :
    Cond.holds I (τ.overlay σ) (g.map (Expr.mapOperands (Operand.afterWrites written))) = Cond.holds I (ρ.during w) g := by
  cases g with
  | none => rfl
  | some e => exact congrArg I.truth (h.eval hτ (hg e rfl))

/-- An update writes to a register, and is enabled with the cycle. -/
theorem Mirrors.update (h : Mirrors I ρ m written σ w) (hτ : Extends I ρ τ m names enable) {r : String}
    (hr : r ∈ m.registers.keys) {v : Expr} (hv : v.LeavesSatisfy (m.isRead names · = true)) (width : Nat) :
    Mirrors I ρ m (r :: written) (Comb.Stmt.execAll I τ.overlay
      (assigns (Aspect.registers.writes enable r (v.mapOperands (Operand.afterWrites written)) width)) σ)
      (Function.update w (.register, r) (some (v.eval I (ρ.during w)))) := by
  have hne : ∀ p q, Name.nextValue p ≠ Name.enable q := fun p q => Name.ne_of_ending (by simp)
  have henable_mem : Name.enable r ∈ m.registerSignals := Module.mem_registerSignals.2 ⟨r, hr, .inl rfl⟩
  have hnext_mem : Name.nextValue r ∈ m.registerSignals := Module.mem_registerSignals.2 ⟨r, hr, .inr rfl⟩
  have hσ₁ : Follows ρ m written (Function.update σ (Name.enable r) (some (enable.eval I (τ.overlay σ)))) w := by
    refine ⟨fun q reg hq => ?_, fun n hn => ?_, h.fresh⟩
    · rw [Function.update_of_ne (hne q r)]
      exact h.next q reg hq
    · rw [Function.update_of_ne (ne_of_mem_of_not_mem henable_mem hn).symm]
      exact h.within n hn
  have hexec : Comb.Stmt.execAll I τ.overlay
      (assigns (Aspect.registers.writes enable r (v.mapOperands (Operand.afterWrites written)) width)) σ =
      Function.update (Function.update σ (Name.enable r) (some (enable.eval I (τ.overlay σ)))) (Name.nextValue r)
        (some (v.eval I (ρ.during w))) := by
    rw [← hσ₁.eval hτ hv]
    rfl
  rw [hexec]
  refine ⟨⟨fun q reg hq => ?_, fun n hn => ?_, fun q hq => ?_⟩, fun q reg hq => ?_⟩
  · by_cases hqr : q = r
    · subst hqr
      rw [Function.update_self, Function.update_self, Option.getD_some]
    · rw [Function.update_of_ne fun heq => hqr (Name.nextValue_inj.1 heq),
        Function.update_of_ne fun heq => hqr (congrArg Prod.snd heq)]
      exact hσ₁.next q reg hq
  · rw [Function.update_of_ne (ne_of_mem_of_not_mem hnext_mem hn).symm]
    exact hσ₁.within n hn
  · obtain ⟨hqr, hq⟩ := not_or.1 fun hmem => hq (List.mem_cons.2 hmem)
    rw [Function.update_of_ne fun heq => hqr (congrArg Prod.snd heq)]
    exact h.fresh q hq
  · rw [Function.update_of_ne (hne r q).symm]
    by_cases hqr : q = r
    · subst hqr
      rw [Function.update_self, Function.update_self, Option.map_some, hτ.enable σ h.within]
      rfl
    · rw [Function.update_of_ne fun heq => hqr (Name.enable_inj.1 heq),
        Function.update_of_ne fun heq => hqr (congrArg Prod.snd heq)]
      exact h.enable q reg hq

mutual
/-- The statements, run as they stand, keep up with the program. -/
theorem mirrors_direct (hτ : Extends I ρ τ m names enable) : (o : Outline) → (∀ n ∈ o.preorder, Sequential m names n) →
    ∀ {written : List String} {σ : Store V} {w : Written V}, Mirrors I ρ m written σ w →
    Mirrors I ρ m (m.updated written o) (Comb.Stmt.execAll I τ.overlay (m.direct enable written o) σ) (m.perform I ρ o w)
  | .node i os, hseq, written, σ, w, h => by
    rw [Outline.preorder_eq, List.forall_mem_cons] at hseq
    obtain ⟨⟨⟨s, hs, hcases⟩, hexprs, htarget⟩, hos⟩ := hseq
    rcases hcases with ⟨x, v, hw⟩ | ⟨b, rfl, hkind⟩
    · cases s with
      | block b | yield y | assign x v => cases hw
      | update r v =>
        rw [Module.updated, Module.direct, hs, Module.perform_write hs rfl]
        exact h.update hτ (htarget r v hs) (hexprs _ hs v (List.mem_singleton.2 rfl)) _
    · have hguard := h.holds hτ (g := b.guard) fun e he =>
        hexprs _ hs e (by simp [Control.Stmt.exprs, hkind, he])
      rw [Module.updated, Module.direct, hs, Module.perform_block hs]
      change Mirrors I ρ m (m.updatedAll written os) (if Cond.holds I (τ.overlay σ) _ then _ else σ) _
      rw [hguard]
      by_cases hopen : Cond.holds I (ρ.during w) b.guard
      · rw [if_pos hopen, if_pos hopen]
        exact mirrors_directAll hτ os hos h
      · rw [if_neg hopen, if_neg hopen]
        exact ⟨⟨h.next, h.within, fun r hr => h.fresh r fun hmem => hr (m.subset_updatedAll os written hmem)⟩, h.enable⟩
theorem mirrors_directAll (hτ : Extends I ρ τ m names enable) : (os : List Outline) →
    (∀ n ∈ os.flatMap Outline.preorder, Sequential m names n) →
    ∀ {written : List String} {σ : Store V} {w : Written V}, Mirrors I ρ m written σ w →
    Mirrors I ρ m (m.updatedAll written os) (Comb.Stmt.execAll I τ.overlay (m.directAll enable written os) σ)
      (m.performAll I ρ os w)
  | [], _, _, _, _, h => h
  | o :: os, hseq, written, σ, w, h => by
    rw [List.flatMap_cons, List.forall_mem_append] at hseq
    rw [Module.directAll, Comb.Stmt.execAll_append]
    exact mirrors_directAll hτ os hseq.2 (mirrors_direct hτ o hseq.1 h)
end

theorem targetsAll_assigns (as : List Assign) : Comb.Stmt.targetsAll (assigns as) = as.map Assign.target := by
  rw [Comb.Stmt.targetsAll_eq, Comb.Stmt.settingsAll, Comb.Stmt.assignsAll_assigns, List.map_map]
  rfl

theorem apart_entryAssigns : ∀ a ∈ m.entryAssigns, a.Apart m.registerSignals := by
  intro a ha
  refine ⟨m.target_entryAssigns ▸ List.mem_map_of_mem ha, fun e he => ?_⟩
  obtain ⟨entry, _, ha⟩ := List.mem_flatMap.1 ha
  rcases List.mem_cons.1 ha with rfl | ha
  · cases he
    exact fun n hn => absurd hn List.not_mem_nil
  · cases List.mem_singleton.1 ha
    cases he
    intro n hn
    cases List.mem_singleton.1 hn
    exact held_not_mem_registerSignals entry.1

theorem plain_entryAssigns : ∀ a ∈ m.entryAssigns, Assign.Plain Aspect.registers.isControl a := by
  intro a ha
  obtain ⟨entry, _, ha⟩ := List.mem_flatMap.1 ha
  rcases List.mem_cons.1 ha with rfl | ha
  · exact ⟨isControl_enable _ _, rfl⟩
  · cases List.mem_singleton.1 ha
    exact ⟨isControl_nextValue _ _, rfl⟩

theorem unread_entryAssigns : ∀ x ∈ m.entryAssigns.map Assign.setting, ∀ y ∈ m.entryAssigns.map Assign.setting,
    x.1 ∉ valueReads y.2 := by
  intro x hx y hy hmem
  obtain ⟨a, ha, rfl⟩ := List.mem_map.1 hx
  obtain ⟨b, hb, rfl⟩ := List.mem_map.1 hy
  cases hval : b.val with
  | none => simp [Assign.setting, valueReads, hval] at hmem
  | some e =>
    rw [Assign.setting, Assign.setting, hval] at hmem
    exact (apart_entryAssigns b hb).2 e hval _ hmem (apart_entryAssigns a ha).1

/-- On entry nothing has been written. -/
theorem mirrors_entry (hoperand : τ.operand = ρ.operand) : Mirrors I ρ m []
    (Comb.Stmt.execAll I τ.overlay (assigns m.entryAssigns) fun _ => none) fun _ => none := by
  have hfinal : ∀ n, Comb.Stmt.execAll I τ.overlay (assigns m.entryAssigns) (fun _ => none) n =
      Comb.Stmt.finalAll I τ n (assigns m.entryAssigns) := by
    intro n
    have hrun := Comb.Block.run_overlay I τ (b := .of none (assigns m.entryAssigns)) (Comb.Block.satisfies_of
      (fun _ he => by cases he) (Comb.Stmt.satisfiesAll_assigns.2 apart_entryAssigns))
    refine (congrFun hrun n).trans ((Comb.Block.run_fixed I τ n _ rfl).trans ?_)
    rw [Comb.Block.body_of]
  refine ⟨⟨fun r reg hr => ?_, fun n hn => ?_, fun _ _ => rfl⟩, fun r reg hr => ?_⟩
  · have hnext := (updates_entry (I := I) (ρ := τ) r m).next
    rw [hr] at hnext
    rw [hfinal, hnext, ← hoperand]
    rfl
  · refine Comb.Stmt.execAll_of_notMem I τ.overlay _ (fun hmem => hn ?_) _
    rw [targetsAll_assigns, Module.target_entryAssigns] at hmem
    exact hmem
  · have henable := (updates_entry (I := I) (ρ := τ) r m).enable
    rw [hr] at henable
    rw [hfinal, henable]
    rfl

end Mirror

section Straight

variable {m : Module} {body : List Nat} {j : Nat} (hwf : m.WellFormed) (hbody : m.Straight .register body j)

include hwf hbody

theorem declared_straight : ∀ n ∈ m.below body, ∀ r v, m.stmt n = .ok (.update r v) → r ∈ m.registers.keys := by
  intro n hn r v hs
  have hroot : n ∈ (m.outline m.root).preorder := by
    rw [hbody.preorder_root hwf]
    exact List.mem_cons_of_mem _ (List.mem_append_left _ hn)
  obtain ⟨s', hs', hfits⟩ := hwf.fits n hroot
  cases hs.symm.trans hs'
  exact (Listing.contains_iff_mem_keys _ _).1 hfits

theorem sequential_straight {names : List String} (hreads : m.ReadsRegisters names body) :
    ∀ n ∈ m.below body, Sequential m names n := fun n hn =>
  ⟨hbody.plain n hn, fun s hs e he => hreads n hn s (by rw [hs]; rfl) e he, declared_straight hwf hbody n hn⟩

theorem updating_straight (enable : Expr) :
    Comb.Stmt.SatisfiesAll (Updating m) (fun _ => True) (m.directAll enable [] (body.map m.outline)) :=
  updating_directAll _ (declared_straight hwf hbody) []

omit hwf in
/-- The tree is made of the statements as they stand in the source. -/
theorem StraightRun.registers {ctx : Context} {id : Nat} (hrun : StraightRun m ctx .register body j id) {s s' : Session}
    {tree : Comb.Block} (h : runAspect ctx s .registers = (.ok tree, s')) :
    tree = Aspect.registers.straightTree (assigns m.entryAssigns) (Comb.Stmt.updateDefaultsAll Aspect.registers.isControl
      (m.directAll (.flag (Name.cycleCond id)) [] (body.map m.outline))) := by
  obtain ⟨out, hmarked⟩ := hrun.marked
  obtain ⟨entry, lowered, s₁, hentry, hrenders, htree⟩ := hrun.trees .registers h
  have hs₁ : s₁.aspect = .registers := registers_of_frame rfl (Framed.enterBlock _ _ _ _ _ rfl hentry)
  obtain ⟨b, hb, hkind, _⟩ := hrun.wellFormed.root_block
  have hentry := runs_enterBlock_module rfl hb hkind hentry
  rw [Module.entryAssigns, hrun.alike.registers, ← Module.entryAssigns] at hentry
  rw [hs₁] at hrenders htree
  obtain ⟨rfl, _⟩ := rendersAll_direct hrun.alike.width _ hbody.plain hmarked hrenders
  rw [htree, hentry]

/-- The tree drives signals of registers only. -/
theorem StraightRun.satisfies_registers {ctx : Context} {id : Nat} (hrun : StraightRun m ctx .register body j id)
    {s s' : Session} {tree : Comb.Block} (h : runAspect ctx s .registers = (.ok tree, s')) :
    tree.Satisfies (fun a => a.target ∈ m.registerSignals) fun _ => True := by
  rw [hrun.registers hbody h]
  refine Aspect.satisfies_straightTree _ (Comb.Stmt.satisfiesAll_assigns.2 fun a ha => (apart_entryAssigns a ha).1) ?_
  exact Comb.Stmt.satisfiesAll_updateDefaultsAll _ _ (Comb.Stmt.SatisfiesAll.mono (fun _ ha => ha.2) (fun _ he => he) _
    (updating_straight hwf hbody _))

/-- The tree of the registers keeps up with the program if propagation keeps the order. -/
theorem mirrors_tree {ctx : Context} {id : Nat} (hrun : StraightRun m ctx .register body j id) {s s' : Session}
    {tree : Comb.Block} (h : runAspect ctx s .registers = (.ok tree, s')) {names : List String}
    (hreads : m.ReadsRegisters names body) (horder : m.InOrder (.flag (Name.cycleCond id)) body) {V : Type}
    {I : Interpretation V} {ρ τ : Valuation V} (hτ : Extends I ρ τ m names (.flag (Name.cycleCond id))) :
    Mirrors I ρ m (m.updatedAll [] (body.map m.outline)) (tree.run I τ.overlay) (m.written I ρ body) := by
  have hupdating := updating_straight hwf hbody (.flag (Name.cycleCond id))
  have hplain := Comb.Stmt.SatisfiesAll.mono (fun _ ha => ha.1) (fun _ he => he) _ hupdating
  obtain ⟨horderly, hsettles⟩ := Comb.Stmt.InOrderAll.updateDefaultsAll (I := I) (ρ := τ) _ hplain (.refl _) horder
  have htargets : Comb.Stmt.targetsAll (Comb.Stmt.updateDefaultsAll Aspect.registers.isControl
      (m.directAll (.flag (Name.cycleCond id)) [] (body.map m.outline))) ⊆ m.entryAssigns.map Assign.target := by
    intro t ht
    obtain ⟨a, ha, rfl⟩ := Comb.Stmt.exists_of_mem_targetsAll _
      (Comb.Stmt.satisfiesAll_updateDefaultsAll _ _ hupdating) ht
    rw [m.target_entryAssigns]
    exact ha.2
  rw [hrun.registers hbody h, run_straightTree_steady I τ _ (m.target_entryAssigns ▸ Module.nodup_registerSignals)
    unread_entryAssigns plain_entryAssigns htargets
    ⟨trivial, horderly, Comb.Block.satisfies_of (fun _ _ => trivial) hsettles.plain⟩,
    Comb.Stmt.execAll_append, hsettles.exec]
  exact mirrors_directAll hτ _ (sequential_straight hwf hbody hreads) (mirrors_entry hτ.operand)

end Straight

/-- A tree that drives no conditions may have them renamed. -/
theorem run_renamed {T : List String} {V : Type} (I : Interpretation V) (τ : Valuation V) {r : String → String}
    (hr : ∀ n, r n ≠ n → n ∉ T ∧ r n ∉ T) {b : Comb.Block} (hb : b.Satisfies (fun a => a.target ∈ T) fun _ => True) :
    (b.mapExprs (Expr.rename r)).run I τ.overlay = b.run I (τ.renamed r).overlay := by
  have hagree : ∀ e : Expr, ViewsAgree I (τ.renamed r).overlay (fun σ => (τ.overlay σ).renamed r) T e := by
    intro e σ hσ
    refine e.eval_congr I (fun o _ => rfl) fun x _ => ?_
    change (σ (r x.name)).getD (τ.wire ⟨r x.name, x.width⟩) = (σ x.name).getD (τ.wire ⟨r x.name, x.width⟩)
    by_cases hx : r x.name = x.name
    · rw [hx]
    · rw [hσ _ (hr x.name hx).1, hσ _ (hr x.name hx).2]
  rw [Comb.Block.run_mapExprs fun σ e => Expr.eval_rename I (τ.overlay σ) r e]
  exact Comb.Block.run_congr (hb.mono (fun a ha => ⟨ha, fun e _ => hagree e⟩) fun e _ => hagree e)

section Conditions

variable {m : Module} {c : Compiled} (run : CompileRun m c) {V : Type} {I : Interpretation V} {ρ : Valuation V}
  {free β : String → Bool} (hβ : Network.Solves I ρ free c.lowered.conditions β)

include hβ

/-- A condition is renamed to one that has the same truth value in every solution. -/
theorem rename_solved {n : String} (hn : run.rename n ≠ n) : n ∈ Network.names c.lowered.conditions ∧
    run.rename n ∈ Network.names c.lowered.conditions ∧ β (run.rename n) = β n := by
  obtain ⟨d, hd, w, rfl, hval⟩ := run.stands n hn
  refine ⟨Network.target_mem_names hd, run.mem _ hn, ?_⟩
  rw [hβ d hd, Network.demand, hval]
  change _ = I.truth (if run.rename d.target ∈ _ then I.bit (β (run.rename d.target)) else _)
  rw [if_pos (run.mem _ hn), I.truth_bit]

theorem truth_renamed (x : Wire) :
    I.truth (((Network.reading I ρ (Network.names c.lowered.conditions) β).renamed run.rename).wire x) =
      I.truth ((Network.reading I ρ (Network.names c.lowered.conditions) β).wire x) := by
  change I.truth (if run.rename x.name ∈ _ then I.bit (β (run.rename x.name)) else ρ.wire ⟨run.rename x.name, x.width⟩) =
    I.truth (if x.name ∈ _ then I.bit (β x.name) else ρ.wire x)
  by_cases hx : run.rename x.name = x.name
  · rw [hx]
  · obtain ⟨hmem, hmem', heq⟩ := rename_solved run hβ hx
    rw [if_pos hmem, if_pos hmem', heq]

theorem wire_renamed {x : Wire} (hx : x.name ∉ Network.names c.lowered.conditions) :
    ((Network.reading I ρ (Network.names c.lowered.conditions) β).renamed run.rename).wire x = ρ.wire x := by
  have hsame : run.rename x.name = x.name := by
    by_contra hne
    exact hx (rename_solved run hβ hne).1
  change (if run.rename x.name ∈ _ then _ else ρ.wire ⟨run.rename x.name, x.width⟩) = _
  rw [hsame, if_neg hx]

/-- The trees see the conditions by their new names, and no register drives a condition. -/
theorem extends_renamed {id : Nat} (hcycle : (Expr.flag (Name.cycleCond id)).holds I
      (Network.reading I ρ (Network.names c.lowered.conditions) β) = true) :
    Extends I ρ ((Network.reading I ρ (Network.names c.lowered.conditions) β).renamed run.rename) m
      (m.registerSignals ++ Network.names c.lowered.conditions) (.flag (Name.cycleCond id)) where
  operand := rfl
  wire x hx := wire_renamed run hβ fun hmem => hx (List.mem_append_right _ hmem)
  signals := List.subset_append_left _ _
  enable σ hσ := by
    have hcond : Name.cycleCond id ∉ m.registerSignals := fun hmem =>
      Module.not_isCondition_of_registerSignals hmem (.inl ⟨id, .inl rfl⟩)
    change I.truth ((σ (Name.cycleCond id)).getD _) = true
    rw [hσ _ hcond, Option.getD_none, truth_renamed run hβ]
    exact hcycle

end Conditions

/-- Let propagation keep the order of the statements. Where the conditions have the truth values that their definitions
demand, and the cycle completes, the tree of the registers leaves in each register what the program does, and enables
those registers that the program writes to. -/
theorem registers_in_program_order {d : Draft} {top : List Nat} {m : Module} (hm : d.finish top = .ok m)
    {arguments : List String} {c : Compiled} (hc : compile m arguments = .ok c) {body : List Nat} {j : Nat}
    (hbody : m.Straight .register body j)
    (hreads : m.ReadsRegisters (m.registerSignals ++ Network.names c.lowered.conditions) body) {y : Yield} {id : Nat}
    (hy : c.lowered.module.stmt j = .ok (.yield y)) (hid : y.id = some id)
    (horder : m.InOrder (.flag (Name.cycleCond id)) body) {V : Type} (I : Interpretation V) (ρ : Valuation V)
    {free β : String → Bool} (hβ : Network.Solves I ρ free c.lowered.conditions β)
    (hcycle : (Expr.flag (Name.cycleCond id)).holds I
      (Network.reading I ρ (Network.names c.lowered.conditions) β) = true) :
    ∃ tree, c.lowered.aspects.get? "register_next_state" = some tree ∧
      ∀ r reg, m.registers.get? r = some reg → ∃ u,
        tree.run I (Network.reading I ρ (Network.names c.lowered.conditions) β).overlay (Name.nextValue r) =
          some ((m.written I ρ body (.register, r)).getD (ρ.operand ⟨r, .register, .held, reg.type⟩)) ∧
        tree.run I (Network.reading I ρ (Network.names c.lowered.conditions) β).overlay (Name.enable r) = some u ∧
        (I.truth u = true ↔ (m.written I ρ body (.register, r)).isSome = true) := by
  have hwf := Module.wellFormed_of_finish hm
  obtain ⟨run⟩ := compile_run hc
  obtain ⟨id', hrun⟩ := straight_run hm run hbody
  obtain ⟨y', hy', hid'⟩ := hrun.yield
  rw [run.module_eq] at hy
  cases hy.symm.trans hy'
  cases hid.symm.trans hid'
  have happart : ∀ n ∈ Network.names c.lowered.conditions, n ∉ m.registerSignals := fun n hn hmem =>
    Module.not_isCondition_of_registerSignals hmem (run.named n hn)
  have hmirrors := mirrors_tree hwf hbody hrun run.signals.registers_run hreads horder (extends_renamed run hβ hcycle)
  rw [← run_renamed I _ (fun n hn => ⟨happart _ (rename_solved run hβ hn).1, happart _ (rename_solved run hβ hn).2.1⟩)
    (hrun.satisfies_registers hwf hbody run.signals.registers_run)] at hmirrors
  refine ⟨_, run.trees ("register_next_state", run.signals.registers) ?_, fun r reg hr => ?_⟩
  · rw [run.signals.trees]
    exact List.mem_cons_self
  · obtain ⟨u, hu, htruth⟩ := Option.map_eq_some_iff.1 (hmirrors.enable r reg hr)
    exact ⟨u, hmirrors.next r reg hr, hu, by rw [htruth]⟩

/-- The register `r` gets a value, and if `a` then two statements run in the given order: a copy of `r` to `s` if `r` is
`k`, and another value for `r`. -/
def ladder (k : Int) (order : List Nat) : Draft where
  name := "ladder"
  registers := .ofList [("r", ⟨.uint 8, 0⟩), ("s", ⟨.uint 8, 0⟩)]
  vars := .empty
  inputs := []
  outputs := [⟨"dout", .uint 8⟩]
  stmts := .ofList [.update "r" (.literal 1 (.uint 8)), .update "s" (.operand ⟨"r", .register, .held, .uint 8⟩),
    Draft.conditional (.bin .eq (.operand ⟨"r", .register, .held, .uint 8⟩) (.literal k (.uint 8))) [1],
    .update "r" (.literal 2 (.uint 8)), Draft.conditional (.flag "a") order, Draft.emit [some (.literal 0 (.uint 8))]]

theorem ladder_straight (k : Int) {order : List Nat} (h : order = [2, 3] ∨ order = [3, 2]) :
    ((ladder k order).enclose [0, 4, 5]).Straight .register [0, 4] 5 where
  root := ⟨_, rfl, rfl⟩
  yield := ⟨_, rfl⟩
  plain := by
    have hbelow : ∀ n ∈ ((ladder k order).enclose [0, 4, 5]).below [0, 4], n ∈ [0, 1, 2, 3, 4] := by
      rcases h with rfl | rfl
      · exact (by decide : ∀ n ∈ [0, 4, 2, 1, 3], n ∈ [0, 1, 2, 3, 4])
      · exact (by decide : ∀ n ∈ [0, 4, 3, 2, 1], n ∈ [0, 1, 2, 3, 4])
    refine fun n hn => List.forall_mem_cons.2 ⟨?_, ?_⟩ n (hbelow n hn)
    · exact ⟨_, rfl, .inl ⟨_, _, rfl⟩⟩
    · simp only [List.forall_mem_cons]
      exact ⟨⟨_, rfl, .inl ⟨_, _, rfl⟩⟩, ⟨_, rfl, .inr ⟨_, rfl, rfl⟩⟩, ⟨_, rfl, .inl ⟨_, _, rfl⟩⟩,
        ⟨_, rfl, .inr ⟨_, rfl, rfl⟩⟩, fun n hn => absurd hn List.not_mem_nil⟩

/-- All flags and conditions are high and all registers hold zero. -/
def high (c : Compiled) : Valuation Int :=
  Network.reading .integers (.allBut []) (Network.names c.lowered.conditions) fun _ => true

/-- The second value comes before the copy. -/
def climbing : Module := (ladder 2 [3, 2]).enclose [0, 4, 5]

/-- The copy has the second value of `r`. -/
theorem climbing_copies_second : ∃ c tree, compile climbing ["simplify:rounds=0"] = .ok c ∧
    c.lowered.aspects.get? "register_next_state" = some tree ∧
    climbing.written .integers (.allBut []) [0, 4] (.register, "s") = some 2 ∧
    tree.run .integers (high c).overlay "s_next" = some 2 ∧
    ∃ u, tree.run .integers (high c).overlay "s_en" = some u ∧ Interpretation.integers.truth u = true := by
  have hm : (ladder 2 [3, 2]).finish [0, 4, 5] = .ok climbing := rfl
  have hfacts : ((compile climbing ["simplify:rounds=0"]).toOption.any fun c =>
      decide (climbing.ReadsRegisters (climbing.registerSignals ++ Network.names c.lowered.conditions) [0, 4] ∧
        c.lowered.module.stmt 5 = .ok (.yield ⟨[some (.literal 0 (.uint 8))], some 2⟩) ∧
        Network.Solves .integers (.allBut []) (fun _ => true) c.lowered.conditions (fun _ => true) ∧
        (Expr.flag (Name.cycleCond 2)).holds .integers (high c) = true)) = true := by
    decide +kernel
  have horder : climbing.InOrder (.flag (Name.cycleCond 2)) [0, 4] := by decide +kernel
  have hs : climbing.written .integers (.allBut []) [0, 4] (.register, "s") = some 2 := by decide +kernel
  obtain ⟨c, hc, hfacts⟩ := Checked.exists_of_any hfacts
  obtain ⟨hreads, hy, hβ, hcycle⟩ := of_decide_eq_true hfacts
  obtain ⟨tree, hget, hregs⟩ := registers_in_program_order hm hc (ladder_straight 2 (.inr rfl)) hreads hy rfl horder
    .integers (.allBut []) hβ hcycle
  obtain ⟨u, hnext, hen, htruth⟩ := hregs "s" ⟨.uint 8, 0⟩ rfl
  rw [hs] at hnext htruth
  exact ⟨c, tree, hc, hget, hs, hnext, u, hen, htruth.2 rfl⟩

/-- The second value comes after the copy. -/
def falling : Module := (ladder 1 [2, 3]).enclose [0, 4, 5]

/-- The second value moves above the test for the first one, and no copy is made. -/
theorem falling_moves_up : ∃ c tree, (ladder 1 [2, 3]).finish [0, 4, 5] = .ok falling ∧
    falling.Straight .register [0, 4] 5 ∧ compile falling ["simplify:rounds=0"] = .ok c ∧
    falling.ReadsRegisters (falling.registerSignals ++ Network.names c.lowered.conditions) [0, 4] ∧
    c.lowered.module.stmt 5 = .ok (.yield ⟨[some (.literal 0 (.uint 8))], some 2⟩) ∧
    Network.Solves .integers (.allBut []) (fun _ => true) c.lowered.conditions (fun _ => true) ∧
    (Expr.flag (Name.cycleCond 2)).holds .integers (high c) = true ∧
    c.lowered.aspects.get? "register_next_state" = some tree ∧
    falling.written .integers (.allBut []) [0, 4] (.register, "s") = some 1 ∧
    tree.run .integers (high c).overlay "s_next" = some 0 ∧ tree.run .integers (high c).overlay "s_en" = some 0 := by
  have hfacts : ((compile falling ["simplify:rounds=0"]).toOption.any fun c =>
      decide (falling.ReadsRegisters (falling.registerSignals ++ Network.names c.lowered.conditions) [0, 4] ∧
        c.lowered.module.stmt 5 = .ok (.yield ⟨[some (.literal 0 (.uint 8))], some 2⟩) ∧
        Network.Solves .integers (.allBut []) (fun _ => true) c.lowered.conditions (fun _ => true) ∧
        (Expr.flag (Name.cycleCond 2)).holds .integers (high c) = true) &&
      (c.lowered.aspects.get? "register_next_state").any fun tree =>
        decide (tree.run .integers (high c).overlay "s_next" = some 0 ∧
          tree.run .integers (high c).overlay "s_en" = some 0)) = true := by
    decide +kernel
  have hs : falling.written .integers (.allBut []) [0, 4] (.register, "s") = some 1 := by decide +kernel
  obtain ⟨c, hc, hfacts⟩ := Checked.exists_of_any hfacts
  obtain ⟨hhyps, htree⟩ := Bool.and_eq_true_iff.1 hfacts
  obtain ⟨hreads, hy, hβ, hcycle⟩ := of_decide_eq_true hhyps
  obtain ⟨tree, hget, hruns⟩ := (Option.any_eq_true _ _).1 htree
  obtain ⟨hnext, hen⟩ := of_decide_eq_true hruns
  exact ⟨c, tree, rfl, ladder_straight 1 (.inl rfl), hc, hreads, hy, hβ, hcycle, hget, hs, hnext, hen⟩

end Lowering

end Sequencer
