import Sequencer.Proofs.Lowering.Straight

set_option autoImplicit false

/-!
# Variables

The tree of the variables leaves on the signal of a variable what the statements, run in program order, assign to it last.
A default may leave its guard if it is the first value of its variable. Where the first value comes again after another
one, it may therefore override the latter without its guard.
-/

namespace Sequencer

open Control

/-- Whether the first value of a list comes again after another one. -/
def reverts {α : Type} [DecidableEq α] : List α → Bool
  | [] => false
  | v :: vs => (vs.dropWhile (· == v)).contains v

theorem reverts_of_sublist {α : Type} [DecidableEq α] {v w : α} {vs : List α} (hw : [w, v].Sublist (v :: vs)) (hne : w ≠ v) :
    reverts (v :: vs) = true := by
  have htail : [w, v].Sublist vs := by
    cases hw with
    | cons _ h => exact h
    | cons_cons _ h => exact absurd rfl hne
  have hdrop : [w, v].Sublist (vs.dropWhile (· == v)) := by
    clear hw
    induction vs with
    | nil => exact htail
    | cons u us ih =>
      rw [List.dropWhile_cons]
      split
      · rename_i hu
        have huv : u = v := eq_of_beq hu
        cases htail with
        | cons _ h => exact ih h
        | cons_cons _ h => exact absurd huv hne
      · exact htail
  have hmem : v ∈ vs.dropWhile (· == v) := hdrop.subset (by simp)
  rw [reverts, List.contains_eq_mem, decide_eq_true_iff]
  exact hmem

/-- A leaf of an expression that is no register and no variable, and none of the given wires. -/
def Expr.isExternal (names : List String) : Expr → Bool
  | .operand o => o.storage == .port
  | .wire w => !names.contains w.name
  | _ => true

/-- Reads ports, literals and wires other than `names` only. -/
def Expr.External (names : List String) (e : Expr) : Prop := e.LeavesSatisfy (isExternal names · = true)

namespace Module

/-- The signals of the variables. -/
def latchSignals (m : Module) : List String := m.vars.keys.map Name.latched

/-- The statements at and below `stmts` read ports, literals and wires other than `names`. -/
def ReadsExternal (m : Module) (names : List String) (stmts : List Nat) : Prop :=
  ∀ n ∈ m.below stmts, ∀ s ∈ (m.stmt n).toOption, ∀ e ∈ s.exprs, ∀ x ∈ e.leaves, x.isExternal names = true

instance (m : Module) (names : List String) (stmts : List Nat) : Decidable (m.ReadsExternal names stmts) :=
  inferInstanceAs (Decidable (∀ n ∈ m.below stmts, ∀ s ∈ (m.stmt n).toOption, ∀ e ∈ s.exprs, ∀ x ∈ e.leaves,
    x.isExternal names = true))

end Module

namespace Lowering

open Lower Comb

namespace Latches

variable {x : String}

/-- Notes one statement. -/
def noteStmt (l : Latches) (s : Control.Stmt) : Latches :=
  match s with
  | .assign y v => l.note (Name.latched y) v
  | _ => l

/-- What the notes have to do with the values of a variable, given in order: the first is kept, and another one is noted as
differing. -/
structure Sums (l l' : Latches) (x : String) (vals : List Expr) : Prop where
  first : l'.first.get? (Name.latched x) = (l.first.get? (Name.latched x)).or vals.head?
  keeps : Name.latched x ∈ l.differing → Name.latched x ∈ l'.differing
  differing : Name.latched x ∈ l'.differing ∨ ∀ v ∈ vals, l'.first.get? (Name.latched x) = some v

theorem sums_note (l : Latches) (v : Expr) : Sums l (l.note (Name.latched x) v) x [v] := by
  unfold note
  split
  · rename_i u hu
    split
    · rename_i huv
      subst huv
      exact ⟨by rw [hu]; rfl, id, .inr fun w hw => by rw [List.mem_singleton.1 hw, hu]⟩
    · exact ⟨by simp [hu], fun h => List.mem_insert_of_mem h, .inl List.mem_insert_self⟩
  · rename_i hnone
    have hget := Listing.get?_insert_self l.first (Name.latched x) v
    exact ⟨by rw [hnone]; exact hget, id, .inr fun w hw => by rw [List.mem_singleton.1 hw]; exact hget⟩

theorem get?_note_of_ne (l : Latches) {y : String} (h : y ≠ x) (v : Expr) :
    (l.note (Name.latched y) v).first.get? (Name.latched x) = l.first.get? (Name.latched x) ∧
      (Name.latched x ∈ l.differing → Name.latched x ∈ (l.note (Name.latched y) v).differing) := by
  have hne : Name.latched x ≠ Name.latched y := fun heq => h (Name.latched_inj.1 heq).symm
  unfold note
  split
  · split
    · exact ⟨rfl, id⟩
    · exact ⟨rfl, fun h => List.mem_insert_of_mem h⟩
  · exact ⟨Listing.get?_insert_of_ne _ _ hne, id⟩

theorem sums_noteStmt (l : Latches) (s : Control.Stmt) :
    Sums l (l.noteStmt s) x (s.valueFor (.latch, x)).toList := by
  cases s with
  | block b | yield y | update r v =>
    refine ⟨Option.or_none.symm, id, .inr fun v hv => ?_⟩
    simp [Control.Stmt.valueFor, Control.Stmt.write?] at hv
  | assign y v =>
    by_cases h : y = x
    · subst h
      rw [Control.Stmt.valueFor_of_write rfl, if_pos rfl]
      exact l.sums_note v
    · rw [Control.Stmt.valueFor_of_write rfl, if_neg fun heq => h (congrArg Prod.snd heq)]
      obtain ⟨hfirst, hkeeps⟩ := l.get?_note_of_ne h v
      exact ⟨hfirst.trans Option.or_none.symm, hkeeps, .inr fun w hw => absurd hw List.not_mem_nil⟩

theorem Sums.append {l l' l'' : Latches} {us vs : List Expr} (h : Sums l l' x us) (h' : Sums l' l'' x vs) :
    Sums l l'' x (us ++ vs) := by
  refine ⟨?_, fun hl => h'.keeps (h.keeps hl), ?_⟩
  · rw [h'.first, h.first, List.head?_append, Option.or_assoc]
  · rcases h.differing with hl | hl
    · exact .inl (h'.keeps hl)
    · rcases h'.differing with hl' | hl'
      · exact .inl hl'
      · refine .inr (List.forall_mem_append.2 ⟨fun v hv => ?_, hl'⟩)
        rw [h'.first, hl v hv, Option.some_or]

theorem sums_foldl (ss : List Control.Stmt) (l : Latches) :
    Sums l (ss.foldl noteStmt l) x (ss.filterMap (Control.Stmt.valueFor (.latch, x))) := by
  induction ss generalizing l with
  | nil => exact ⟨Option.or_none.symm, id, .inr fun v hv => absurd hv List.not_mem_nil⟩
  | cons s ss ih =>
    have hcons : (s :: ss).filterMap (Control.Stmt.valueFor (.latch, x)) =
        (s.valueFor (.latch, x)).toList ++ ss.filterMap (Control.Stmt.valueFor (.latch, x)) := by
      rw [List.filterMap_cons]
      cases s.valueFor (.latch, x) <;> rfl
    rw [hcons]
    exact (l.sums_noteStmt s).append (ih _)

/-- The notes of a module. -/
theorem sums_ofModule {m : Module} {l : Latches} (h : Latches.ofModule m = .ok l) (x : String) :
    Sums ⟨.empty, []⟩ l x (m.values (.latch, x) (m.outline m.root).preorder) := by
  obtain ⟨is, his, h⟩ := Checked.bind_eq_ok.1 h
  obtain ⟨ss, hss, h⟩ := Checked.bind_eq_ok.1 h
  cases h
  rw [Module.descendants_eq_ok his] at hss
  rw [Module.values_of_stmts _ (Checked.mapM_eq_ok hss)]
  exact sums_foldl ss _

end Latches

theorem runs_enterBlock_latches {ctx : Context} {s s' : Session} (hs : s.aspect = .freshLatches) {ss : List Comb.Stmt}
    (h : Runs ctx (enterBlock ctx.module.root) s ss s') :
    ss = [] ∧ ∃ l, Latches.ofModule ctx.module = .ok l ∧ s'.aspect = .latches l := by
  have h₁ := runs_aspect_bind.1 h
  rw [hs] at h₁
  have h₂ := runs_read_bind.1 h₁
  dsimp only at h₂
  rw [if_pos ⟨rfl, rfl⟩] at h₂
  obtain ⟨l, s₂, hcheck, h₃⟩ := runs_bind.1 h₂
  obtain ⟨hl, rfl⟩ := runs_check.1 hcheck
  obtain ⟨_, s₃, hset, h₄⟩ := runs_bind.1 h₃
  obtain ⟨rfl, rfl⟩ := runs_pure.1 h₄
  exact ⟨rfl, l, hl, by rw [runs_setAspect.1 hset]⟩

mutual
theorem Renders.congr {m m' : Module} (hwidth : ∀ x, m'.width x = m.width x) {a : Aspect} {enable : Expr} : (o : Outline) →
    (∀ n ∈ o.preorder, m.SameAt m' n) → ∀ {ss : List Comb.Stmt}, Renders m' a enable o ss → Renders m a enable o ss
  | .node i os, hsame, ss, h => by
    rw [Outline.preorder_eq, List.forall_mem_cons] at hsame
    obtain ⟨s', hs', h⟩ := h
    obtain ⟨s, hs, heq⟩ := hsame.1 s' hs'
    have hwrite : s.write? = s'.write? := by
      rw [← Control.Stmt.write?_setId 0 s, ← heq, Control.Stmt.write?_setId]
    refine ⟨s, hs, ?_⟩
    cases s' with
    | block b' =>
      cases s with
      | yield y | update r v | assign x v => cases heq
      | block b =>
        obtain ⟨inner, hinner, rfl⟩ := h
        injection heq with heq
        injection heq with _ hguard
        exact ⟨inner, RendersAll.congr hwidth os hsame.2 hinner, by rw [hguard]⟩
    | yield y' | update r' v' | assign x' v' =>
      cases s with
      | block b => cases heq
      | yield y | update r v | assign x v =>
        obtain ⟨k, v, hw, hss⟩ := h
        exact ⟨k, v, hwrite.trans hw, hwidth k.2 ▸ hss⟩
theorem RendersAll.congr {m m' : Module} (hwidth : ∀ x, m'.width x = m.width x) {a : Aspect} {enable : Expr} :
    (os : List Outline) → (∀ n ∈ os.flatMap Outline.preorder, m.SameAt m' n) →
    ∀ {ss : List Comb.Stmt}, RendersAll m' a enable os ss → RendersAll m a enable os ss
  | [], _, _, h => h
  | o :: os, hsame, ss, h => by
    rw [List.flatMap_cons, List.forall_mem_append] at hsame
    obtain ⟨ts, us, hts, hus, rfl⟩ := h
    exact ⟨ts, us, Renders.congr hwidth o hsame.1 hts, RendersAll.congr hwidth os hsame.2 hus, rfl⟩
end

section Values

variable (x : String) (T names : List String) {V : Type} (I : Interpretation V) (ρ : Valuation V)

/-- An assignment to a signal of `T` that reads none of `names`, and has one of the values `vals` if it is to `x`. -/
def Assigns (vals : List Expr) (a : Assign) : Prop :=
  a.target ∈ T ∧ (∀ e, a.val = some e → e.External names) ∧ (a.target = Name.latched x → ∃ v ∈ vals, a.val = some v)

/-- The statements `ss` leave the value `r` in `x`, or the value `first` where this is none or may be `stale`. -/
def Leaves (first : Expr) (stale : Prop) (vals : List Expr) (r : Option V) (ss : List Comb.Stmt) : Prop :=
  Comb.Stmt.SatisfiesAll (Assigns x T names vals) (Expr.External names) ss ∧
    (Comb.Stmt.finalAll I ρ (Name.latched x) ss = r ∨ first ∈ vals ∧ (r = none ∨ stale) ∧
      Comb.Stmt.finalAll I ρ (Name.latched x) ss = some (first.eval I ρ))

variable {x T names I ρ} {first : Expr} {stale : Prop} {vals vals' : List Expr} {r r' : Option V} {ss ss' : List Comb.Stmt}

theorem Assigns.mono (h : vals ⊆ vals') (a : Assign) (ha : Assigns x T names vals a) : Assigns x T names vals' a :=
  ⟨ha.1, ha.2.1, fun hx => (ha.2.2 hx).imp fun _ hv => ⟨h hv.1, hv.2⟩⟩

/-- The first value overrides nothing but itself, unless it is written after another one. -/
theorem Leaves.append (h : Leaves x T names I ρ first stale vals r ss)
    (h' : Leaves x T names I ρ first stale vals' r' ss') (hr : ∀ u, r = some u → ∃ v ∈ vals, u = v.eval I ρ)
    (hstale : ∀ v, [v, first].Sublist (vals ++ vals') → v = first ∨ stale) :
    Leaves x T names I ρ first stale (vals ++ vals') (r'.or r) (ss ++ ss') := by
  refine ⟨Comb.Stmt.satisfiesAll_append.2 ⟨Comb.Stmt.SatisfiesAll.mono (Assigns.mono (List.subset_append_left _ _))
    (fun _ he => he) ss h.1, Comb.Stmt.SatisfiesAll.mono (Assigns.mono (List.subset_append_right _ _))
    (fun _ he => he) ss' h'.1⟩, ?_⟩
  rw [Comb.Stmt.finalAll_append]
  rcases h'.2 with heq' | ⟨hmem', hnone', heq'⟩
  · rw [heq']
    cases r' with
    | some u => exact .inl rfl
    | none => exact h.2.imp_right fun ⟨hmem, hrest⟩ => ⟨List.mem_append_left _ hmem, hrest⟩
  · rw [heq', Option.some_or]
    have hmem := List.mem_append_right vals hmem'
    rcases hnone' with rfl | hnone'
    · rw [Option.none_or]
      cases hu : r with
      | none => exact .inr ⟨hmem, .inl rfl, rfl⟩
      | some u =>
        obtain ⟨v, hv, rfl⟩ := hr u hu
        have hsub : [v, first].Sublist (vals ++ vals') :=
          (List.singleton_sublist.2 hv).append (List.singleton_sublist.2 hmem')
        rcases hstale v hsub with rfl | hstale
        · exact .inl rfl
        · exact .inr ⟨hmem, .inr hstale, rfl⟩
    · exact .inr ⟨hmem, .inr hnone', rfl⟩

/-- Only the first value leaves its guard. -/
theorem Leaves.block {l : Latches} (h : Leaves x T names I ρ first stale vals r ss)
    (hfirst : ∀ v ∈ vals, ∀ w, (Aspect.latches l).isControl (.of (Name.latched x) v w) = false → v = first) {g : Cond}
    (hg : ∀ e, g = some e → e.External names) :
    Leaves x T names I ρ first stale vals (if Cond.holds I ρ g then r else none)
      [(updateDefaults (Aspect.latches l).isControl (.of g ss)).toStmt] := by
  have hsat : (Comb.Block.of g ss).Satisfies (Assigns x T names vals) (Expr.External names) :=
    Comb.Block.satisfies_of hg h.1
  refine ⟨⟨updateDefaults_satisfies _ _ hsat, trivial⟩, ?_⟩
  rw [Comb.Stmt.finalAll_singleton, Comb.Block.final_toStmt, updateDefaults_guard]
  change (if Cond.holds I ρ g then _ else none) = _ ∨ first ∈ vals ∧ _ ∧ (if Cond.holds I ρ g then _ else none) = _
  split
  · have hextends := updateDefaults_extends (Aspect.latches l).isControl _ I ρ (Name.latched x) hsat
    rw [Comb.Block.body_of] at hextends
    rcases hextends with heq | ⟨hnone, ⟨val, w⟩, hassigns, hcontrol, hfinal⟩
    · rw [heq]
      exact h.2
    · obtain ⟨v, hv, hval⟩ := hassigns.2.2 rfl
      cases hval
      obtain rfl := hfirst v hv w hcontrol
      rcases h.2 with heq | ⟨_, _, heq⟩
      · exact .inr ⟨hv, .inl (heq.symm.trans hnone), hfinal⟩
      · cases hnone.symm.trans heq
  · exact .inl rfl

variable {m : Module} {l : Latches} {enable : Expr}

/-- A statement of a module that assigns signals of `T` and reads none of `names`. -/
structure Clean (m : Module) (T names : List String) (n : Nat) : Prop where
  plain : m.Plain .latch n
  exprs : ∀ s, m.stmt n = .ok s → ∀ e ∈ s.exprs, e.External names
  target : ∀ y v, m.stmt n = .ok (.assign y v) → Name.latched y ∈ T

mutual
theorem leaves_renders : (o : Outline) → (∀ n ∈ o.preorder, Clean m T names n) →
    (∀ v ∈ m.values (.latch, x) o.preorder, ∀ w, (Aspect.latches l).isControl (.of (Name.latched x) v w) = false →
      v = first) →
    (∀ v, [v, first].Sublist (m.values (.latch, x) o.preorder) → v = first ∨ stale) →
    ∀ {ss : List Comb.Stmt}, Renders m (.latches l) enable o ss →
    Leaves x T names I ρ first stale (m.values (.latch, x) o.preorder) (m.lastValue I ρ (.latch, x) o) ss
  | .node i os, hclean, hcontrol, hfirst, ss, h => by
    rw [Outline.preorder_eq] at hclean hcontrol hfirst ⊢
    rw [List.forall_mem_cons] at hclean
    obtain ⟨⟨⟨s, hs, hplain⟩, hexprs, htarget⟩, hos⟩ := hclean
    obtain ⟨s', hs', h⟩ := h
    cases hs.symm.trans hs'
    rcases hplain with ⟨y, v, hw⟩ | ⟨b, rfl, hkind⟩
    · cases s with
      | block b | yield y | update r v => cases hw
      | assign y v =>
        cases hw
        obtain ⟨k, v', hw, rfl⟩ := h
        cases hw
        rw [Module.lastValue_write hs rfl]
        refine ⟨⟨⟨htarget y v hs, ?_, ?_⟩, trivial⟩, .inl ?_⟩
        · intro e he
          cases he
          exact hexprs _ hs v (List.mem_singleton.2 rfl)
        · intro hyx
          obtain rfl : y = x := Name.latched_inj.1 hyx
          exact ⟨v, Module.mem_values hs (if_pos rfl) List.mem_cons_self, rfl⟩
        · change (if Name.latched y = Name.latched x then some (v.eval I ρ) else none) = _
          rw [Control.Stmt.valueFor_of_write rfl]
          by_cases hyx : y = x
          · subst hyx
            rw [if_pos rfl, if_pos rfl, Option.map_some]
          · rw [if_neg fun heq => hyx (Name.latched_inj.1 heq), if_neg fun heq => hyx (congrArg Prod.snd heq), Option.map_none]
    · obtain ⟨inner, hinner, rfl⟩ := h
      rw [Module.values_cons_block _ hs] at hcontrol hfirst ⊢
      rw [Module.lastValue_block hs]
      refine (leaves_rendersAll os hos hcontrol hfirst hinner).block hcontrol fun e he => hexprs _ hs e ?_
      simp [Control.Stmt.exprs, hkind, he]
theorem leaves_rendersAll : (os : List Outline) → (∀ n ∈ os.flatMap Outline.preorder, Clean m T names n) →
    (∀ v ∈ m.values (.latch, x) (os.flatMap Outline.preorder), ∀ w,
      (Aspect.latches l).isControl (.of (Name.latched x) v w) = false → v = first) →
    (∀ v, [v, first].Sublist (m.values (.latch, x) (os.flatMap Outline.preorder)) → v = first ∨ stale) →
    ∀ {ss : List Comb.Stmt}, RendersAll m (.latches l) enable os ss →
    Leaves x T names I ρ first stale (m.values (.latch, x) (os.flatMap Outline.preorder))
      (m.lastValues I ρ (.latch, x) os) ss
  | [], _, _, _, ss, h => by
    obtain rfl : ss = [] := h
    exact ⟨trivial, .inl rfl⟩
  | o :: os, hclean, hcontrol, hfirst, ss, h => by
    obtain ⟨ts, us, hts, hus, rfl⟩ := h
    rw [List.flatMap_cons] at hclean
    rw [List.flatMap_cons, Module.values_append] at hcontrol hfirst ⊢
    rw [List.forall_mem_append] at hclean hcontrol
    refine (leaves_renders o hclean.1 hcontrol.1 (fun v hv => ?_) hts).append
      (leaves_rendersAll os hclean.2 hcontrol.2 (fun v hv => ?_) hus) (fun u hu => Module.exists_of_lastValue o hu) hfirst
    · exact hfirst v (hv.trans (List.sublist_append_left _ _))
    · exact hfirst v (hv.trans (List.sublist_append_right _ _))
end

end Values

section Tree

variable {V : Type} {I : Interpretation V} {ρ : Valuation V} {t : String} {v : V}

theorem finalAll_settled_of_some (isControl : Assign → Bool) {b : Comb.Block} (hguard : b.guard = none)
    (h : b.body I ρ t = some v) : Comb.Stmt.finalAll I ρ t (inlined (updateDefaults isControl b)) = some v := by
  rw [finalAll_settled, hguard, Cond.holds_none, if_pos rfl]
  exact body_of_some I ρ isControl h

/-- What the statements leave stays. -/
theorem Aspect.run_straightTree (a : Aspect) (entry : List Comb.Stmt) {lowered : List Comb.Stmt}
    (h : Comb.Stmt.finalAll I ρ t lowered = some v) : (a.straightTree entry lowered).run I (fun _ => ρ) t = some v := by
  have hlowered := body_of_some I ρ a.isControl ((Comb.Block.body_of I ρ t none lowered).trans h)
  have hbody : Comb.Stmt.finalAll I ρ t (entry ++
      inlined (updateDefaults a.isControl (updateDefaults a.isControl (.of none lowered)))) = some v := by
    rw [Comb.Stmt.finalAll_append, finalAll_settled_of_some a.isControl (updateDefaults_guard _ _) hlowered, Option.some_or]
  have htop := finalAll_settled_of_some a.isControl rfl ((Comb.Block.body_of I ρ t none _).trans hbody)
  rw [straightTree, Comb.Block.run_fixed I ρ t _ (updateDefaults_guard _ _)]
  exact body_of_some I ρ a.isControl ((Comb.Block.body_of I ρ t none _).trans htop)

/-- A tree that reads neither its own signals nor the conditions may have the conditions renamed. -/
theorem run_external {T names : List String} (hT : ∀ n ∈ T, n ∈ names) (hports : ∀ p, Name.data p ∉ T)
    {r : String → String} (hr : ∀ n, n ∉ names → r n = n) {b : Comb.Block}
    (h : b.Satisfies (fun a => a.target ∈ T ∧ ∀ e, a.val = some e → e.External names) (Expr.External names)) :
    (b.mapExprs (Expr.rename r)).run I ρ.overlay = b.run I fun _ => ρ := by
  have hagree : ∀ e : Expr, e.External names →
      ViewsAgree I (fun _ => ρ) (fun σ => (ρ.overlay σ).renamed r) T e := by
    intro e he σ hσ
    refine e.eval_congr I (fun o ho => ?_) fun w hw => ?_
    · have hport : o.storage = .port := eq_of_beq (he _ ho)
      have hsignal : o.signal = Name.data o.name := by rw [Operand.signal, hport]
      change (σ o.signal).getD _ = _
      rw [hσ o.signal (hsignal ▸ hports o.name), Option.getD_none]
    · have hwire : w.name ∉ names := by simpa [Expr.isExternal] using he _ hw
      change (σ (r w.name)).getD (ρ.wire ⟨r w.name, w.width⟩) = _
      rw [hr w.name hwire, hσ w.name fun hmem => hwire (hT _ hmem), Option.getD_none]
  rw [Comb.Block.run_mapExprs fun σ e => Expr.eval_rename I (ρ.overlay σ) r e]
  exact Comb.Block.run_congr (h.mono (fun a ha => ⟨ha.1, fun e he => hagree e (ha.2 e he)⟩) hagree)

end Tree

theorem Latches.eq_first {l : Latches} {x : String} {first : Expr} {rest : List Expr}
    (h : Latches.Sums ⟨.empty, []⟩ l x (first :: rest)) {v : Expr} (hv : v ∈ first :: rest) {w : Nat}
    (hcontrol : (Aspect.latches l).isControl (.of (Name.latched x) v w) = false) : v = first := by
  have hfirst : l.first.get? (Name.latched x) = some first := h.first
  rcases h.differing with hdiffers | hsame
  · have hval : (l.differing.contains (Name.latched x) && l.first.get? (Name.latched x) != some v) = false :=
      (Bool.or_eq_false_iff.1 hcontrol).2
    rw [hfirst, List.contains_eq_mem, decide_eq_true hdiffers, Bool.true_and, bne_eq_false_iff_eq] at hval
    exact (Option.some.inj hval).symm
  · exact Option.some.inj ((hsame v hv).symm.trans hfirst)

section Straight

variable {m : Module} {body : List Nat} {j : Nat} (hwf : m.WellFormed) (hbody : m.Straight .latch body j)

include hwf hbody

/-- The tree is made of the statements as they stand in the source, and the notes are about their values. -/
theorem StraightRun.latches {ctx : Context} {id : Nat} (hrun : StraightRun m ctx .latch body j id) {s s' : Session}
    {tree : Comb.Block} (h : runAspect ctx s .freshLatches = (.ok tree, s')) :
    ∃ l enable lowered, (∀ x, Latches.Sums ⟨.empty, []⟩ l x (m.values (.latch, x) (m.below body))) ∧
      RendersAll m (.latches l) enable (body.map m.outline) lowered ∧
      tree = (Aspect.latches l).straightTree [] lowered := by
  obtain ⟨out, hmarked⟩ := hrun.marked
  have hsame : ∀ n ∈ m.below body, m.SameAt ctx.module n := (hmarked.same _ (hbody.closed hwf) hbody.plain).2
  obtain ⟨entry, lowered, s₁, hentry, hrenders, htree⟩ := hrun.trees (.latches _) h
  obtain ⟨rfl, l, hl, hs₁⟩ := runs_enterBlock_latches rfl hentry
  rw [hs₁] at hrenders htree
  refine ⟨l, _, lowered, fun x => ?_, RendersAll.congr hrun.alike.width _ hsame hrenders, htree⟩
  have hstraight := hbody.alike hrun.alike
  have hbelow : ctx.module.below body = m.below body := by
    rw [Module.below, List.map_congr_left fun i _ => hrun.alike.outline i, Module.below]
  have hsums := Latches.sums_ofModule hl x
  rw [hstraight.values_root hrun.wellFormed, hbelow,
    Module.values_same _ hsame fun n hn => hstraight.plain n (hbelow ▸ hn)] at hsums
  exact hsums

theorem clean_straight {names : List String} (hreads : m.ReadsExternal names body) :
    ∀ n ∈ m.below body, Clean m m.latchSignals names n := by
  intro n hn
  refine ⟨hbody.plain n hn, fun s hs e he => hreads n hn s (by rw [hs]; rfl) e he, fun y v hs => ?_⟩
  have hroot : n ∈ (m.outline m.root).preorder := by
    rw [hbody.preorder_root hwf]
    exact List.mem_cons_of_mem _ (List.mem_append_left _ hn)
  obtain ⟨s', hs', hfits⟩ := hwf.fits n hroot
  cases hs.symm.trans hs'
  exact List.mem_map_of_mem ((Listing.contains_iff_mem_keys _ _).1 hfits)

end Straight

theorem Clean.blind {m : Module} {T names : List String} {n : Nat} (h : Clean m T names n) : m.Blind .latch n := by
  refine ⟨h.plain, fun s hs e he o ho => ?_⟩
  have hport : o.storage = .port := eq_of_beq (h.exprs s hs e he _ ho)
  rw [hport]
  decide

/-- The tree of the variables leaves what the statements assign to `x` last in program order, or else the first of all
values of `x`, which can only be if it is assigned again after another one. -/
theorem variables_in_program_order {d : Draft} {top : List Nat} {m : Module} (hm : d.finish top = .ok m)
    {arguments : List String} {c : Compiled} (hc : compile m arguments = .ok c) {body : List Nat} {j : Nat}
    (hbody : m.Straight .latch body j)
    (hreads : m.ReadsExternal (m.latchSignals ++ Network.names c.lowered.conditions) body) {V : Type}
    (I : Interpretation V) (ρ : Valuation V) {x : String} {v : V} (hv : m.written I ρ body (.latch, x) = some v) :
    ∃ tree u, c.lowered.aspects.get? "variables" = some tree ∧ tree.run I ρ.overlay (Name.latched x) = some u ∧
      (u = v ∨ reverts (m.values (.latch, x) (m.below body)) = true ∧
        ∃ first ∈ (m.values (.latch, x) (m.below body)).head?, u = first.eval I ρ) := by
  have hwf := Module.wellFormed_of_finish hm
  obtain ⟨run⟩ := compile_run hc
  obtain ⟨id, hrun⟩ := straight_run hm run hbody
  obtain ⟨l, enable, lowered, hsums, hrenders, htree⟩ := hrun.latches hwf hbody run.signals.latches_run
  have hclean := clean_straight hwf hbody hreads
  rw [Module.written_blind fun n hn => (hclean n hn).blind] at hv
  obtain ⟨v₀, hv₀, _⟩ := Module.exists_of_lastValues _ hv
  obtain ⟨first, rest, hcons⟩ : ∃ first rest, m.values (.latch, x) (m.below body) = first :: rest :=
    List.exists_cons_of_ne_nil (List.ne_nil_of_mem hv₀)
  have hsums := hcons ▸ hsums x
  have hleaves : Leaves x m.latchSignals (m.latchSignals ++ Network.names c.lowered.conditions) I ρ first
      (reverts (first :: rest) = true) (m.values (.latch, x) (m.below body))
      (m.lastValues I ρ (.latch, x) (body.map m.outline)) lowered :=
    leaves_rendersAll _ hclean (fun u hu w hw => Latches.eq_first hsums (hcons ▸ hu) hw)
      (fun u hu => or_iff_not_imp_left.2 fun hne => reverts_of_sublist (hcons ▸ hu) hne) hrenders
  have hvalue : ∃ u, Comb.Stmt.finalAll I ρ (Name.latched x) lowered = some u ∧
      (u = v ∨ reverts (first :: rest) = true ∧ u = first.eval I ρ) := by
    rw [hv] at hleaves
    rcases hleaves.2 with heq | ⟨_, hstale, heq⟩
    · exact ⟨v, heq, .inl rfl⟩
    · exact ⟨_, heq, .inr ⟨hstale.resolve_left (by simp), rfl⟩⟩
  obtain ⟨u, hu, hcases⟩ := hvalue
  have hget := run.trees ("variables", run.signals.latches) (by rw [run.signals.trees]; simp [Aspect.label,
    Aspect.freshLatches])
  refine ⟨_, u, hget, ?_, hcons ▸ hcases.imp_right fun h => ⟨h.1, first, rfl, h.2⟩⟩
  have hsat : ((Aspect.latches l).straightTree [] lowered).Satisfies _ _ :=
    Aspect.satisfies_straightTree _ trivial hleaves.1
  rw [htree, run_external (T := m.latchSignals) (fun n hn => List.mem_append_left _ hn) (fun p hp => ?_) (fun n hn => ?_)
    (hsat.mono (fun a ha => ⟨ha.1, ha.2.1⟩) fun _ he => he)]
  · exact Aspect.run_straightTree _ [] hu
  · obtain ⟨y, _, hy⟩ := List.mem_map.1 hp
    exact Name.ne_of_ending (by simp) hy
  · by_contra hne
    obtain ⟨d', hd', _, htarget, _⟩ := run.stands n hne
    exact hn (List.mem_append_right _ (htarget ▸ Network.target_mem_names hd'))

/-- One value, a second one if `b`, and a third one if both `c` and `d`. -/
def choice (first third : Expr) : Draft where
  name := "choice"
  registers := .empty
  vars := .ofList [("x", .uint 8)]
  inputs := [⟨"din", .uint 8⟩]
  outputs := [⟨"dout", .uint 8⟩]
  stmts := .ofList [.assign "x" first, .assign "x" (.literal 2 (.uint 8)), Draft.conditional (.flag "b") [1],
    .assign "x" third, Draft.conditional (.flag "d") [3], Draft.conditional (.flag "c") [4],
    Draft.emit [some (.literal 0 (.uint 8))]]

theorem choice_straight (first third : Expr) :
    ((choice first third).enclose [0, 2, 5, 6]).Straight .latch [0, 2, 5] 6 where
  root := ⟨_, rfl, rfl⟩
  yield := ⟨_, rfl⟩
  plain := by
    have hbelow : ((choice first third).enclose [0, 2, 5, 6]).below [0, 2, 5] = [0, 2, 1, 5, 4, 3] := rfl
    rw [hbelow]
    simp only [List.forall_mem_cons]
    exact ⟨⟨_, rfl, .inl ⟨_, _, rfl⟩⟩, ⟨_, rfl, .inr ⟨_, rfl, rfl⟩⟩, ⟨_, rfl, .inl ⟨_, _, rfl⟩⟩,
      ⟨_, rfl, .inr ⟨_, rfl, rfl⟩⟩, ⟨_, rfl, .inr ⟨_, rfl, rfl⟩⟩, ⟨_, rfl, .inl ⟨_, _, rfl⟩⟩,
      fun n hn => absurd hn List.not_mem_nil⟩

/-- A choice of three values. -/
def distinct : Module := (choice (.operand ⟨"din", .port, .held, .uint 8⟩) (.literal 3 (.uint 8))).enclose [0, 2, 5, 6]

/-- With `b` and `c` but not `d`, the second value is left. -/
theorem distinct_leaves_second : ∃ c tree, compile distinct [] = .ok c ∧
    c.lowered.aspects.get? "variables" = some tree ∧
    distinct.written .integers (.allBut ["d"]) [0, 2, 5] (.latch, "x") = some 2 ∧
    tree.run .integers (Valuation.allBut ["d"]).overlay "x_v" = some 2 := by
  have hm : Draft.finish (choice (.operand ⟨"din", .port, .held, .uint 8⟩) (.literal 3 (.uint 8))) [0, 2, 5, 6] =
      .ok distinct := rfl
  have hfacts : ((compile distinct []).toOption.any fun c => decide (distinct.ReadsExternal
      (distinct.latchSignals ++ Network.names c.lowered.conditions) [0, 2, 5])) = true := by
    decide +kernel
  have hv : distinct.written .integers (.allBut ["d"]) [0, 2, 5] (.latch, "x") = some 2 := by decide +kernel
  have hreverts : reverts (distinct.values (.latch, "x") (distinct.below [0, 2, 5])) = false := by decide +kernel
  obtain ⟨c, hc, hreads⟩ := Checked.exists_of_any hfacts
  obtain ⟨tree, u, hget, hu, hcases⟩ := variables_in_program_order hm hc (choice_straight _ _)
    (of_decide_eq_true hreads) .integers (.allBut ["d"]) hv
  rw [hreverts] at hcases
  exact ⟨c, tree, hc, hget, hv, hu.trans (congrArg some (hcases.resolve_right (by simp)))⟩

/-- The third value is the first one again. -/
def recurring : Module := (choice (.literal 1 (.uint 8)) (.literal 1 (.uint 8))).enclose [0, 2, 5, 6]

/-- With `b` and `c` but not `d`, the first value overrides the second one, which is assigned last. -/
theorem recurring_reverts : ∃ c tree,
    (choice (.literal 1 (.uint 8)) (.literal 1 (.uint 8))).finish [0, 2, 5, 6] = .ok recurring ∧
    recurring.Straight .latch [0, 2, 5] 6 ∧ compile recurring [] = .ok c ∧
    recurring.ReadsExternal (recurring.latchSignals ++ Network.names c.lowered.conditions) [0, 2, 5] ∧
    c.lowered.aspects.get? "variables" = some tree ∧
    recurring.written .integers (.allBut ["d"]) [0, 2, 5] (.latch, "x") = some 2 ∧
    tree.run .integers (Valuation.allBut ["d"]).overlay "x_v" = some 1 := by
  have hfacts : ((compile recurring []).toOption.any fun c =>
      decide (recurring.ReadsExternal (recurring.latchSignals ++ Network.names c.lowered.conditions) [0, 2, 5]) &&
      (c.lowered.aspects.get? "variables").any fun tree =>
        tree.run .integers (Valuation.allBut ["d"]).overlay "x_v" == some 1) = true := by
    decide +kernel
  obtain ⟨c, hc, hfacts⟩ := Checked.exists_of_any hfacts
  obtain ⟨hreads, htree⟩ := Bool.and_eq_true_iff.1 hfacts
  obtain ⟨tree, hget, hrun⟩ := (Option.any_eq_true _ _).1 htree
  exact ⟨c, tree, rfl, choice_straight _ _, hc, of_decide_eq_true hreads, hget, by decide +kernel, eq_of_beq hrun⟩

end Lowering

end Sequencer
