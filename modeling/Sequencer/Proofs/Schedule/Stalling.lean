import Sequencer.Proofs.Control.Acceptance
import Sequencer.Proofs.Schedule.Plan

set_option autoImplicit false

/-!
# Loops that cannot be scheduled

A loop stalls if nothing below it suspends: it would have to run all its rounds within one cycle. Planning looks for
such loops in two places, at a block that is planned and within a statement that is free. Together they go over the
whole tree in its order, so that a finished module is scheduled unless a loop stalls, and the first such loop is
reported.
-/

namespace Sequencer

open Control

namespace Module

variable {m : Module}

/-- The statement itself waits for another cycle: it is a yield or reads an interface. -/
def SuspendsAt (m : Module) (i : Nat) : Prop :=
  (∃ y, m.stmt i = .ok (.yield y)) ∨
    ∃ b p, m.stmt i = .ok (.block b) ∧ (b.kind = .interface p ∨ b.kind = .interfaceLoop p)

/-- A loop with nothing below it that suspends. -/
def Stalls (m : Module) (i : Nat) : Prop :=
  (∃ b exit, m.stmt i = .ok (.block b) ∧ b.kind = .loop exit) ∧
    ∀ j, Relation.TransGen m.Lists i j → ¬ m.SuspendsAt j

theorem suspendsAt_block {i : Nat} {b : Block} (hb : m.stmt i = .ok (.block b)) (hkind : b.kind ≠ .module) :
    m.SuspendsAt i ↔ b.kind.suspends = true := by
  obtain ⟨k, g, ss, id⟩ := b
  cases k with
  | module => exact absurd rfl hkind
  | interface p | conditional | container | loop exit | interfaceLoop p => simp [SuspendsAt, hb, BlockKind.suspends]

theorem not_stalls_of_kind {i : Nat} {b : Block} (hb : m.stmt i = .ok (.block b)) (hkind : b.kind.isLoop = false) :
    ¬ m.Stalls i := by
  rintro ⟨⟨c, exit, hc, hloop⟩, _⟩
  cases hb.symm.trans hc
  rw [hloop] at hkind
  cases hkind

/-- An outline of the tree that does not hold the root. -/
structure Below (m : Module) (o : Outline) : Prop where
  unfolds : o.Unfolds (m.stmts.linksAt Stmt.nested)
  closed : m.Closed o
  fits : ∀ i ∈ o.preorder, i ≠ m.root ∧ ∃ s, m.stmt i = .ok s ∧ m.Fits i s

theorem Below.nested {i : Nat} {os : List Outline} (h : m.Below (.node i os)) : ∀ o ∈ os, m.Below o := by
  intro o ho
  exact ⟨h.unfolds.nested ho, h.closed.nested ho, fun j hj => h.fits j (Outline.mem_preorder_of_mem_nested ho hj)⟩

theorem WellFormed.below (h : m.WellFormed) {os : List Outline} (hroot : m.outline m.root = .node m.root os) :
    ∀ o ∈ os, m.Below o := by
  intro o ho
  have hpart : o.Part (m.outline m.root) := hroot ▸ .nested ho (.refl o)
  refine ⟨h.unfolds.part hpart, fun o' ho' => h.closed o' (ho'.trans hpart), fun j hj => ?_⟩
  refine ⟨?_, h.fits j (hpart.sublist.subset hj)⟩
  have hnodup := h.nodup
  rw [hroot, Outline.preorder_eq, List.nodup_cons] at hnodup
  exact fun heq => hnodup.1 (List.mem_flatMap.2 ⟨o, ho, heq ▸ hj⟩)

/-- The answer to whether one of the statements `is` suspends. -/
def Answers (m : Module) (is : List Nat) (x : Checked Bool) : Prop :=
  ∃ r, x = .ok r ∧ (r = true ↔ ∃ j ∈ is, m.SuspendsAt j)

theorem Answers.anyBlocking {os : List Outline} (h : ∀ o ∈ os, m.Answers o.preorder (m.blocking o)) :
    m.Answers (os.flatMap Outline.preorder) (m.anyBlocking os) := by
  induction os with
  | nil => exact ⟨false, rfl, by simp⟩
  | cons o os ih =>
    obtain ⟨⟨r, hr, hiff⟩, hos⟩ := List.forall_mem_cons.1 h
    obtain ⟨r', hr', hiff'⟩ := ih hos
    rw [Module.anyBlocking, hr, Checked.ok_bind, List.flatMap_cons]
    cases r with
    | true =>
      obtain ⟨j, hj, hsuspends⟩ := hiff.1 rfl
      exact ⟨true, rfl, by simpa using ⟨j, .inl hj, hsuspends⟩⟩
    | false =>
      refine ⟨r', hr', hiff'.trans ?_⟩
      have hnone : ¬ ∃ j ∈ o.preorder, m.SuspendsAt j := fun hin => Bool.noConfusion (hiff.2 hin)
      simp only [List.mem_append, or_and_right, exists_or, hnone, false_or]

theorem Below.answers {o : Outline} (h : m.Below o) : m.Answers o.preorder (m.blocking o) := by
  induction o using Outline.ind with
  | node i os ih =>
    have hos : m.Answers (os.flatMap Outline.preorder) (m.anyBlocking os) :=
      .anyBlocking fun o ho => ih o ho (h.nested o ho)
    obtain ⟨hroot, s, hs, hfits⟩ := h.fits i List.mem_cons_self
    have hlinks := h.unfolds.links_eq
    rw [linksAt_of_stmt hs] at hlinks
    rw [blocking, hs, Checked.ok_bind, Outline.preorder_eq]
    cases s with
    | yield y => exact ⟨true, rfl, by simp [SuspendsAt, hs]⟩
    | update r v =>
      obtain rfl := List.map_eq_nil_iff.1 hlinks.symm
      exact ⟨false, rfl, by simp [SuspendsAt, hs]⟩
    | assign x v =>
      obtain rfl := List.map_eq_nil_iff.1 hlinks.symm
      exact ⟨false, rfl, by simp [SuspendsAt, hs]⟩
    | block b =>
      have hkind : b.kind ≠ .module := by
        intro hkind
        simp only [Fits, hkind] at hfits
        exact hroot hfits
      have hsuspends := suspendsAt_block hs hkind
      dsimp only
      split
      · rename_i hk
        exact ⟨true, rfl, by simp [hsuspends, hk]⟩
      · rename_i hk
        obtain ⟨r, hr, hiff⟩ := hos
        exact ⟨r, hr, by simp [hiff, hsuspends, hk]⟩

/-- A walk over the statements `is` in order that stops at the first loop that stalls. -/
inductive Reports (m : Module) {α : Type} (is : List Nat) : Checked α → Prop
  | clear {a : α} (h : ∀ i ∈ is, ¬ m.Stalls i) : Reports m is (.ok a)
  | stalled {before after : List Nat} {i : Nat} {text : String} (his : is = before ++ i :: after)
    (hbefore : ∀ j ∈ before, ¬ m.Stalls j) (hi : m.Stalls i) (htext : m.describe i = .ok text) :
    Reports m is (.reject (.loopNeverSuspends text))

namespace Reports

variable {α β : Type} {is js : List Nat} {x : Checked α} {f : α → Checked β}

theorem prepend (h : ∀ i ∈ is, ¬ m.Stalls i) (hx : m.Reports js x) : m.Reports (is ++ js) x := by
  cases hx with
  | clear hjs => exact .clear (List.forall_mem_append.2 ⟨h, hjs⟩)
  | @stalled before after i text his hbefore hi htext =>
    have hsplit : is ++ js = (is ++ before) ++ i :: after := by rw [his, List.append_assoc]
    exact .stalled hsplit (List.forall_mem_append.2 ⟨h, hbefore⟩) hi htext

theorem bind (hx : m.Reports is x) (hf : ∀ a, x = .ok a → m.Reports js (f a)) : m.Reports (is ++ js) (x >>= f) := by
  cases hx with
  | @clear a h => exact (hf a rfl).prepend h
  | @stalled before after i text his hbefore hi htext =>
    have hsplit : is ++ js = before ++ i :: (after ++ js) := by rw [his, List.append_assoc, List.cons_append]
    exact .stalled hsplit hbefore hi htext

theorem map (hx : m.Reports is x) (g : α → β) : m.Reports is (x >>= fun a => pure (g a)) := by
  cases hx with
  | clear h => exact .clear h
  | stalled his hbefore hi htext => exact .stalled his hbefore hi htext

end Reports

theorem loopNeverSuspends_eq {i : Nat} (h : m.Stalls i) :
    ∃ text, m.describe i = .ok text ∧ m.loopNeverSuspends i = .reject (.loopNeverSuspends text) := by
  obtain ⟨⟨b, _, hb, _⟩, _⟩ := h
  refine ⟨_, describe_of_stmt hb, ?_⟩
  rw [loopNeverSuspends, describe_of_stmt hb]
  rfl

theorem stalls_iff_of_loop {i : Nat} {os : List Outline} {b : Block}
    (h : (Outline.node i os).Unfolds (m.stmts.linksAt Stmt.nested)) (hb : m.stmt i = .ok (.block b))
    (hloop : b.kind.isLoop = true) : m.Stalls i ↔ ¬ ∃ j ∈ os.flatMap Outline.preorder, m.SuspendsAt j := by
  have hkind : ∃ b exit, m.stmt i = .ok (.block b) ∧ b.kind = .loop exit := by
    obtain ⟨k, g, ss, id⟩ := b
    cases k with
    | loop exit => exact ⟨_, exit, hb, rfl⟩
    | module | interface p | conditional | container | interfaceLoop p => cases hloop
  rw [Stalls, and_iff_right hkind, lists_eq]
  simp only [h.mem_nested_iff, not_exists, not_and]

/-- Within a statement that is free, all loops stall. -/
theorem Below.stalls_iff {o : Outline} (h : m.Below o) (hfree : ∀ j ∈ o.preorder, ¬ m.SuspendsAt j) {i : Nat} {s : Stmt}
    (hi : i ∈ o.preorder) (hs : m.stmt i = .ok s) : m.Stalls i ↔ s.block?.any (·.kind.isLoop) = true := by
  have hbelow : ∀ j, Relation.TransGen m.Lists i j → ¬ m.SuspendsAt j := by
    intro j hj
    rw [lists_eq] at hj
    refine hfree j (h.unfolds.mem_preorder_iff.2 ?_)
    exact (h.unfolds.mem_preorder_iff.1 hi).trans hj.to_reflTransGen
  rw [Stalls, and_iff_left hbelow, hs]
  cases s with
  | block b =>
    obtain ⟨k, g, ss, id⟩ := b
    cases k <;> simp [Stmt.block?, BlockKind.isLoop]
  | yield y | update r v | assign x v => simp [Stmt.block?]

theorem Below.descendants_eq {o : Outline} (h : m.Below o) : m.descendants o.index = .ok o.preorder := by
  have hself : m.stmts.outline Stmt.nested o.index = o := h.closed o (.refl o)
  have hbound : ∀ j ∈ (m.stmts.outline Stmt.nested o.index).preorder, j < m.stmts.size := by
    rw [hself]
    intro j hj
    obtain ⟨_, s, hs, _⟩ := h.fits j hj
    exact Arena.lt_size_of_get? ((Arena.get_eq_ok_iff _ _ _).1 hs)
  rw [descendants, Arena.reachable_eq_ok hbound, hself]

theorem Below.checkFree_reports {o : Outline} (h : m.Below o) (hfree : ∀ j ∈ o.preorder, ¬ m.SuspendsAt j) :
    m.Reports o.preorder (m.checkFree o.index) := by
  classical
  have htest : ∀ j ∈ o.preorder,
      (do return (← m.kind? j).any BlockKind.isLoop : Checked Bool) = .ok (decide (m.Stalls j)) := by
    intro j hj
    obtain ⟨_, s, hs, _⟩ := h.fits j hj
    have hstalls : decide (m.Stalls j) = s.block?.any (·.kind.isLoop) :=
      Bool.eq_iff_iff.2 (decide_eq_true_iff.trans (h.stalls_iff hfree hj hs))
    rw [hstalls, kind?, block?, hs]
    cases s <;> rfl
  rw [checkFree, h.descendants_eq, Checked.ok_bind, Checked.filterM_of_forall htest, Checked.ok_bind]
  cases hloops : o.preorder.filter fun j => decide (m.Stalls j) with
  | nil => exact .clear fun j hj => by simpa using List.filter_eq_nil_iff.1 hloops j hj
  | cons i loops =>
    obtain ⟨before, after, hsplit, hbefore, hi, _⟩ := List.filter_eq_cons_iff.1 hloops
    obtain ⟨text, htext, hreject⟩ := loopNeverSuspends_eq (of_decide_eq_true hi)
    dsimp only
    rw [hreject]
    exact .stalled hsplit (fun j hj => by simpa using hbefore j hj) (of_decide_eq_true hi) htext

theorem exists_segmentKind {os : List Outline} (hos : ∀ o ∈ os, m.Below o) (b : Block) :
    ∃ k, m.segmentKind b os = .ok k := by
  have hblocking : ∀ o ∈ os, m.blocking o = .ok (Checked.passes m.blocking o) := by
    intro o ho
    obtain ⟨r, hr, _⟩ := (hos o ho).answers
    rw [Checked.passes, hr]
  obtain ⟨k, g, ss, id⟩ := b
  cases k with
  | conditional =>
    rw [segmentKind, countBlocking, Checked.filterM_of_forall hblocking]
    exact ⟨_, rfl⟩
  | module | interface p | container | loop exit | interfaceLoop p => exact ⟨_, rfl⟩

/-- A block is checked before the statements nested in it. -/
theorem planBlock_reports {i : Nat} {os : List Outline} {b : Block}
    (hunfolds : (Outline.node i os).Unfolds (m.stmts.linksAt Stmt.nested)) (hos : ∀ o ∈ os, m.Below o)
    (hb : m.stmt i = .ok (.block b))
    (hbranches : b.kind = .container → m.Reports (os.flatMap Outline.preorder) (m.planBranches i ⟨[], []⟩ os))
    (hstmts : b.kind ≠ .container → m.Reports (os.flatMap Outline.preorder) (m.planStmts ⟨[], []⟩ os)) :
    m.Reports (Outline.node i os).preorder (m.planBlock (.node i os)) := by
  obtain ⟨k, hk⟩ := exists_segmentKind hos b
  obtain ⟨r, hr, hiff⟩ := Answers.anyBlocking fun o ho => (hos o ho).answers
  rw [planBlock, hb, Checked.ok_bind, Outline.preorder_eq]
  dsimp only
  rw [hk, Checked.ok_bind]
  have hrest (hi : ¬ m.Stalls i) : m.Reports (i :: os.flatMap Outline.preorder) (if b.kind = .container then do
        return Plan.part k (some i) [] [] [] (← m.planBranches i ⟨[], []⟩ os)
      else do
        return Plan.part k (some i) [] [] [] (← m.planStmts ⟨[], []⟩ os)) := by
    have hclear : ∀ j ∈ [i], ¬ m.Stalls j := by simpa using hi
    split
    · exact ((hbranches ‹_›).map _).prepend hclear
    · exact ((hstmts ‹_›).map _).prepend hclear
  split
  · rename_i hloop
    rw [hr, Checked.ok_bind]
    have hstalls := (stalls_iff_of_loop hunfolds hb hloop).trans (not_congr hiff.symm)
    cases r with
    | true => exact hrest fun hi => hstalls.1 hi rfl
    | false =>
      have hi := hstalls.2 Bool.false_ne_true
      obtain ⟨text, htext, hreject⟩ := loopNeverSuspends_eq hi
      rw [hreject]
      exact .stalled (List.nil_append _).symm (by simp) hi htext
  · rename_i hloop
    exact hrest (not_stalls_of_kind hb (by simpa using hloop))

/-- A container blocks because one of its branches does. -/
theorem exists_blocking_of_anyBlocking : (os : List Outline) → m.anyBlocking os = .ok true →
    ∃ o ∈ os, m.blocking o = .ok true
  | [], h => by cases h
  | o :: os, h => by
    rw [anyBlocking, Checked.bind_eq_ok] at h
    obtain ⟨r, hr, h⟩ := h
    cases r with
    | true => exact ⟨o, List.mem_cons_self, hr⟩
    | false =>
      obtain ⟨o', ho', hblocks⟩ := exists_blocking_of_anyBlocking os h
      exact ⟨o', List.mem_cons_of_mem _ ho', hblocks⟩

theorem Below.not_suspendsAt {o : Outline} (h : m.Below o) (hfree : m.blocking o = .ok false) :
    ∀ j ∈ o.preorder, ¬ m.SuspendsAt j := by
  obtain ⟨r, hr, hiff⟩ := h.answers
  obtain rfl := Except.ok.inj (hfree.symm.trans hr)
  intro j hj hsuspends
  exact Bool.noConfusion (hiff.2 ⟨j, hj, hsuspends⟩)

theorem Below.not_stalls_of_yield {o : Outline} (h : m.Below o) {y : Yield} (hy : m.stmt o.index = .ok (.yield y)) :
    ∀ j ∈ o.preorder, ¬ m.Stalls j := by
  obtain ⟨i, os⟩ := o
  obtain rfl := List.map_eq_nil_iff.1 (h.closed.links hy)
  intro j hj
  obtain rfl := List.mem_singleton.1 hj
  rintro ⟨⟨b, _, hb, _⟩, _⟩
  cases hy.symm.trans hb

mutual
theorem planBlock_walks : (o : Outline) → m.Below o → m.blocking o = .ok true → ∀ b, m.stmt o.index = .ok (.block b) →
    m.Reports o.preorder (m.planBlock o)
  | .node i os, h, hblocks, b, hb => by
    refine planBlock_reports h.unfolds h.nested hb ?_ ?_
    · intro hkind
      obtain ⟨_, s, hs, hfits⟩ := h.fits i List.mem_cons_self
      obtain rfl := Except.ok.inj (hb.symm.trans hs)
      simp only [Fits, hkind] at hfits
      have hlinks : os.map Outline.index = b.stmts := h.closed.links hb
      refine planBranches_walks i os h.nested ?_ _ (.inr ?_)
      · intro o ho
        obtain ⟨c, hc, _⟩ := hfits o.index (hlinks ▸ List.mem_map_of_mem ho)
        exact ⟨c, hc⟩
      · change m.stmt i = _ at hb
        rw [blocking, hb, Checked.ok_bind] at hblocks
        dsimp only at hblocks
        rw [hkind, if_neg (by decide)] at hblocks
        exact exists_blocking_of_anyBlocking os hblocks
    · exact fun _ => planStmts_walks os h.nested _
theorem planStmts_walks : (os : List Outline) → (∀ o ∈ os, m.Below o) → ∀ ps,
    m.Reports (os.flatMap Outline.preorder) (m.planStmts ps os)
  | [], _, _ => .clear (by simp)
  | o :: os, h, ps => by
    obtain ⟨ho, hos⟩ := List.forall_mem_cons.1 h
    obtain ⟨r, hr, _⟩ := ho.answers
    rw [planStmts, hr, Checked.ok_bind, List.flatMap_cons]
    cases r with
    | true =>
      obtain ⟨s, hs, hcases⟩ := blocking_stmt hr
      rw [if_pos rfl, hs, Checked.ok_bind]
      rcases hcases with ⟨b, rfl⟩ | ⟨y, rfl⟩
      · exact (planBlock_walks o ho hr b hs).bind fun p _ => planStmts_walks os hos _
      · exact (planStmts_walks os hos _).prepend (ho.not_stalls_of_yield hs)
    | false => exact (ho.checkFree_reports (ho.not_suspendsAt hr)).bind fun _ _ => planStmts_walks os hos _
theorem planBranches_walks (i : Nat) : (os : List Outline) → (∀ o ∈ os, m.Below o) →
    (∀ o ∈ os, ∃ b, m.stmt o.index = .ok (.block b)) → ∀ ps, ps.done ≠ [] ∨ (∃ o ∈ os, m.blocking o = .ok true) →
    m.Reports (os.flatMap Outline.preorder) (m.planBranches i ps os)
  -- Some branch blocks, so at the end there is a part that the free branches join.
  | [], _, _, ps, hsome => by
    have hdone : ps.done.isEmpty = false := by simpa using hsome
    rw [planBranches]
    split
    · exact .clear (by simp)
    · rw [hdone]
      exact .clear (by simp)
  | o :: os, h, hblock, ps, hsome => by
    obtain ⟨ho, hos⟩ := List.forall_mem_cons.1 h
    obtain ⟨⟨b, hb⟩, hblock⟩ := List.forall_mem_cons.1 hblock
    obtain ⟨r, hr, _⟩ := ho.answers
    rw [planBranches, hr, Checked.ok_bind, List.flatMap_cons]
    cases r with
    | true =>
      refine (planBlock_walks o ho hr b hb).bind fun p _ => planBranches_walks i os hos hblock _ (.inl ?_)
      simp [Parts.push]
    | false =>
      refine (ho.checkFree_reports (ho.not_suspendsAt hr)).bind fun _ _ => planBranches_walks i os hos hblock _ ?_
      refine hsome.imp_right ?_
      rintro ⟨o', ho', hblocks⟩
      rcases List.mem_cons.1 ho' with rfl | ho'
      · cases hr.symm.trans hblocks
      · exact ⟨o', ho', hblocks⟩
end

theorem WellFormed.schedule_reports (h : m.WellFormed) : m.Reports (m.outline m.root).preorder m.schedule := by
  obtain ⟨b, hb, hkind, _⟩ := h.root_block
  have hroot := h.outline_eq (m.mem_outline m.root) hb
  have hunfolds := h.unfolds
  have hbelow := h.below hroot
  rw [schedule, plan]
  rw [hroot] at hunfolds ⊢
  refine (planBlock_reports hunfolds hbelow hb ?_ fun _ => planStmts_walks _ hbelow _).map Plan.flatten
  intro hcontainer
  cases hkind.symm.trans hcontainer

theorem WellFormed.descendants_root (h : m.WellFormed) : m.descendants m.root = .ok (m.outline m.root).preorder :=
  Arena.reachable_eq_ok h.bound

end Module

/-- A finished module is scheduled unless a loop in its tree stalls, and the first such loop is reported. -/
theorem schedule_fails_iff_stalls {d : Draft} {top : List Nat} {m : Module} (h : d.finish top = .ok m) :
    ((∃ f, m.schedule = .error f) ↔ ∃ i, m.InTree i ∧ m.Stalls i) ∧
      ∀ f, m.schedule = .error f → ∃ before i after text cause, m.descendants m.root = .ok (before ++ i :: after) ∧
        m.Stalls i ∧ (∀ j ∈ before, ¬ m.Stalls j) ∧ m.describe i = .ok text ∧ f = .rejected cause ∧
        cause.diagnostic = ⟨.malformedControl, text ++ " has no blocking statement and cannot be scheduled"⟩ := by
  have hwf := Module.wellFormed_of_finish h
  have hreports := hwf.schedule_reports
  have hdescendants := hwf.descendants_root
  simp only [← Module.mem_preorder_iff_inTree hwf.unfolds]
  generalize m.schedule = x at hreports ⊢
  cases hreports with
  | clear hclear =>
    refine ⟨⟨?_, ?_⟩, fun f hf => by cases hf⟩
    · rintro ⟨f, hf⟩
      cases hf
    · rintro ⟨i, hi, hstalls⟩
      exact absurd hstalls (hclear i hi)
  | @stalled before after i text hsplit hbefore hi htext =>
    refine ⟨⟨fun _ => ⟨i, by simp [hsplit], hi⟩, fun _ => ⟨_, rfl⟩⟩, ?_⟩
    intro f hf
    cases hf
    exact ⟨before, i, after, text, _, by rw [hdescendants, hsplit], hi, hbefore, htext, rfl, rfl⟩

/-- A loop that suspends, one that stalls in a free branch beside it, and another that stalls after both. -/
def spinning : Draft where
  name := "spinning"
  registers := .ofList [("r", ⟨.uint 8, 0⟩)]
  vars := .empty
  inputs := []
  outputs := [⟨"dout", .uint 8⟩]
  stmts := .ofList [Draft.emit [none], Draft.loop (.flag "a") [0], .update "r" (.literal 1 (.uint 8)),
    Draft.loop (.flag "b") [2], Draft.conditional (.flag "c") [3], Draft.conditional (.flag "d") [1],
    Draft.container [5, 4], .update "r" (.literal 2 (.uint 8)), Draft.loop (.flag "e") [7]]

/-- The loop in the free branch is reported. Without the free branch and the last loop, nothing stalls. -/
theorem spinning_reported : ∃ m m', spinning.finish [6, 8] = .ok m ∧ spinning.finish [5] = .ok m' ∧
    m.schedule = .error (.rejected (.loopNeverSuspends "Loop #3 (exit when `b')")) ∧
    (∃ before i after text cause, m.descendants m.root = .ok (before ++ i :: after) ∧ m.Stalls i ∧
      (∀ j ∈ before, ¬ m.Stalls j) ∧ m.describe i = .ok text ∧
      Fault.rejected (.loopNeverSuspends "Loop #3 (exit when `b')") = .rejected cause ∧
      cause.diagnostic = ⟨.malformedControl, text ++ " has no blocking statement and cannot be scheduled"⟩) ∧
    ¬ ∃ i, m'.InTree i ∧ m'.Stalls i := by
  have hm : spinning.finish [6, 8] = .ok (spinning.enclose [6, 8]) := by decide +kernel
  have hm' : spinning.finish [5] = .ok (spinning.enclose [5]) := by decide +kernel
  have hfails : (spinning.enclose [6, 8]).schedule =
      .error (.rejected (.loopNeverSuspends "Loop #3 (exit when `b')")) := by decide +kernel
  have hok : (spinning.enclose [5]).schedule.toOption.isSome = true := by decide +kernel
  obtain ⟨s, hs⟩ := Checked.exists_ok hok
  refine ⟨_, _, hm, hm', hfails, (schedule_fails_iff_stalls hm).2 _ hfails, ?_⟩
  intro hstalls
  obtain ⟨f, hf⟩ := (schedule_fails_iff_stalls hm').1.2 hstalls
  cases hs.symm.trans hf

end Sequencer
