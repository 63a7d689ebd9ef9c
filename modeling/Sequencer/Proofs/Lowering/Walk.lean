import Sequencer.Proofs.Graph.Search
import Sequencer.Proofs.Lowering.Session
import Sequencer.Proofs.Outline

set_option autoImplicit false

/-!
# The walk over a schedule

What lowering a segment consists of, and that it keeps the frame of the session.
-/

namespace Sequencer

namespace Lowering

open Control Lower

namespace Capture

variable {t : ConditionTable} {c : Capture}

/-- Capturing a name captures it with all that it refers to, as the search is as deep as there are names that the table
knows. -/
theorem explore_mentioned {name : String} (hname : t.Knows name) : name ∈ (c.add t name).captured ∧
    Closes (mentioned t) c.captured (c.add t name).captured := by
  have hall : ∀ a ∈ Name.resetCond :: t.conds.keys, mentioned t a ⊆ Name.resetCond :: t.conds.keys := fun a _ b hb =>
    List.mem_cons_of_mem _ ((Listing.contains_iff_mem_keys _ _).1 (List.mem_filter.1 hb).2)
  have hmem : name ∈ Name.resetCond :: t.conds.keys := by
    rcases hname with hname | rfl
    · exact List.mem_cons_of_mem _ ((Listing.contains_iff_mem_keys _ _).1 hname)
    · exact List.mem_cons_self
  have hdepth : (unseen (Name.resetCond :: t.conds.keys) c.captured).length ≤ t.conds.entries.length + 1 := by
    refine (List.length_filter_le _ _).trans ?_
    simp [Listing.keys]
  exact explore_complete hall hmem hdepth

theorem Sound.add (hc : c.Sound t) {name : String} (hname : t.Knows name) : (c.add t name).Sound t where
  known := by
    have hknown := hc.known
    rw [List.forall_mem_append] at hknown ⊢
    refine ⟨hknown.1, forall_mem_explore (fun a _ b hb => ?_) _ hknown.2 hname⟩
    exact .inl (List.mem_filter.1 hb).2
  nodup := nodup_explore _ _ _ hc.nodup
  closed n hn := by
    by_cases hseen : n ∈ c.captured
    · exact List.Subset.trans (hc.closed n hseen) (subset_explore _ _ _ _)
    · exact (explore_mentioned hname).2 n hn hseen

/-- More is captured, but nothing outside of `S` as long as that is not asked for. -/
structure Grows (t : ConditionTable) (S : String → Prop) (c c' : Capture) : Prop where
  wanted : c'.wanted = c.wanted
  captured : c.captured ⊆ c'.captured
  sound : c.Sound t → c'.Sound t
  inside : (∀ n ∈ c.wanted, S n) → (∀ n ∈ c.captured, S n) → ∀ n ∈ c'.captured, S n

section Grows

variable {S : String → Prop} {c' c'' : Capture}

theorem Grows.refl (c : Capture) : c.Grows t S c := ⟨rfl, List.Subset.refl _, id, fun _ h => h⟩

theorem Grows.trans (h : c.Grows t S c') (h' : c'.Grows t S c'') : c.Grows t S c'' :=
  ⟨h'.wanted.trans h.wanted, List.Subset.trans h.captured h'.captured, fun hc => h'.sound (h.sound hc),
    fun hwanted hcaptured => h'.inside (h.wanted ▸ hwanted) (h.inside hwanted hcaptured)⟩

variable (hS : ∀ n, S n → ∀ r ∈ mentioned t n, S r)

include hS

theorem grows_add {name : String} (hknown : c.Sound t → t.Knows name) (hname : (∀ n ∈ c.wanted, S n) → S name) :
    c.Grows t S (c.add t name) :=
  ⟨rfl, subset_explore _ _ _ _, fun hc => hc.add (hknown hc),
    fun hwanted hcaptured => forall_mem_explore hS _ hcaptured (hname hwanted)⟩

theorem grows_add_wanted {name : String} (hname : name ∈ c.wanted) : c.Grows t S (c.add t name) :=
  grows_add hS (fun hc => hc.known name (List.mem_append_left _ hname)) fun h => h name hname

theorem grows_addBlock (id : Option Nat) : c.Grows t S (c.addBlock t id) := by
  have hwanted : ∀ (c : Capture) name, c.Grows t S (if c.wanted.contains name then c.add t name else c) := by
    intro c name
    split
    · rename_i hname
      exact grows_add_wanted hS (List.contains_iff_mem.1 hname)
    · exact .refl c
  cases id with
  | none => exact .refl c
  | some k => exact (hwanted c _).trans (hwanted _ _)

theorem grows_foldl_add {ns : List String} (hns : ns ⊆ c.wanted) : c.Grows t S (ns.foldl (fun c n => c.add t n) c) := by
  induction ns generalizing c with
  | nil => exact .refl c
  | cons n ns ih =>
    obtain ⟨hn, hns⟩ := List.cons_subset.1 hns
    exact (grows_add_wanted hS hn).trans (ih hns)

end Grows

theorem Sound.subset_foldl_add (hc : c.Sound t) {ns : List String} (hns : ns ⊆ c.wanted) :
    ns ⊆ (ns.foldl (fun c n => c.add t n) c).captured := by
  induction ns generalizing c with
  | nil => exact List.nil_subset _
  | cons n ns ih =>
    obtain ⟨hn, hns⟩ := List.cons_subset.1 hns
    have hknown := hc.known n (List.mem_append_left _ hn)
    have hlater : (c.add t n).Grows t (fun _ => True) (ns.foldl (fun c n => c.add t n) (c.add t n)) :=
      grows_foldl_add (fun _ _ _ _ => trivial) hns
    exact List.cons_subset.2 ⟨hlater.captured (explore_mentioned hknown).1, ih (hc.add hknown) hns⟩

/-- In the end all that is wanted has been captured, with all that it refers to. -/
theorem Sound.finish (hc : c.Sound t) : ∃ c' : Capture, c'.Sound t ∧ c.wanted ⊆ c'.captured ∧
    (∀ S : String → Prop, (∀ n, S n → ∀ r ∈ mentioned t n, S r) → c.Grows t S c') ∧
    c.finish t = c'.captured.map fun n => .flag n ((value t n).getD (.bool true)) := by
  have hmem : ∀ n, n ∈ Name.sort (c.wanted.filter fun n => !c.captured.contains n) ↔ n ∈ c.wanted ∧ n ∉ c.captured := by
    intro n
    rw [Name.sort, (List.mergeSort_perm _ _).mem_iff, List.mem_filter]
    simp
  have hrest : Name.sort (c.wanted.filter fun n => !c.captured.contains n) ⊆ c.wanted := fun n hn => ((hmem n).1 hn).1
  have hall : c.Grows t (fun _ => True) _ := grows_foldl_add (fun _ _ _ _ => trivial) hrest
  refine ⟨_, hall.sound hc, fun n hn => ?_, fun S hS => grows_foldl_add hS hrest, rfl⟩
  by_cases hseen : n ∈ c.captured
  · exact hall.captured hseen
  · exact hc.subset_foldl_add hrest ((hmem n).2 ⟨hn, hseen⟩)

/-- What is captured on entry to the module and on entry to any other block. -/
theorem grows_enter {m : Module} {S : String → Prop} (hreset : m.registers.isEmpty = false → S Name.resetCond)
    (hS : ∀ n, S n → ∀ r ∈ mentioned t n, S r) (b : Block) :
    c.Grows t S ((if b.kind = .module ∧ !m.registers.isEmpty then c.add t Name.resetCond else c).addBlock t b.id) := by
  refine .trans ?_ (grows_addBlock hS b.id)
  split
  · rename_i hmodule
    exact grows_add hS (fun _ => .inr rfl) fun _ => hreset (by simpa using hmodule.2)
  · exact .refl c

end Capture

section Conditions

variable {ctx : Context} {s s' : Session} {c : Capture}

/-- Entering a block captures the condition for a reset, if the block is the module and there are registers, and the
conditions of the block that are wanted. -/
theorem runs_enterBlock_conditions (hs : s.aspect = .conditions c) {i : Nat} {ss : List Comb.Stmt}
    (h : Runs ctx (enterBlock i) s ss s') : ∃ blk, ctx.module.block? i = .ok blk ∧
      s' = { s with aspect := .conditions (blk.elim c fun b =>
        (if b.kind = .module ∧ !ctx.module.registers.isEmpty then c.add ctx.table Name.resetCond else c).addBlock
          ctx.table b.id) } := by
  replace h := runs_aspect_bind.1 h
  rw [hs] at h
  obtain ⟨blk, s₂, hblock, h⟩ := runs_bind.1 h
  obtain ⟨hblk, rfl⟩ := runs_block?.1 hblock
  refine ⟨blk, hblk, ?_⟩
  cases blk with
  | none =>
    rw [(runs_pure.1 h).2, Option.elim_none, ← hs]
  | some b =>
    obtain ⟨_, s₃, hset, h⟩ := runs_bind.1 (runs_read_bind.1 h)
    rw [(runs_pure.1 h).2, runs_setAspect.1 hset]
    rfl

theorem runs_visitYield_conditions (hs : s.aspect = .conditions c) {y : Yield} {ss : List Comb.Stmt}
    (h : Runs ctx (visitYield y) s ss s') : s' = { s with aspect := .conditions (c.addBlock ctx.table y.id) } := by
  replace h := runs_aspect_bind.1 h
  rw [hs] at h
  obtain ⟨_, s₂, hset, h⟩ := runs_bind.1 (runs_read_bind.1 h)
  rw [(runs_pure.1 h).2, runs_setAspect.1 hset]

end Conditions

namespace Framed

variable {l : String}

/-- More conditions are captured. -/
theorem capture {ctx : Context} {s s' : Session} {c : Capture} (hs : s.aspect = .conditions c) {c' : Capture}
    (hc : c.Grows ctx.table (fun _ => True) c') (hs' : s' = { s with aspect := .conditions c' }) :
    Session.Frame ctx.table s s' := by
  subst hs'
  refine ⟨rfl, by rw [hs]; rfl, ?_, List.Subset.refl _, fun g hg => absurd (hs.symm.trans hg) (by simp),
    fun h => ⟨h.used, ?_⟩⟩
  · rw [hs]
    exact congrArg some hc.wanted
  rintro _ ⟨⟩
  exact hc.sound (h.captured c hs)

theorem enterBlock (i : Nat) : Framed l (enterBlock i) := by
  refine aspect_cases (fun a ha hnone => ?_) fun c ctx s ss s' hs h => ?_
  · cases a with
    | registers => exact bind (kind? i) fun k => bind (sequenced.enterRegisters k) fun _ => pure _
    | latches notes =>
      refine read_bind fun ctx => ?_
      dsimp only
      split
      · exact bind (check _) fun notes' => bind (setAspect ha rfl fun g hg => absurd (hg.trans ha.symm) (by simp [Aspect.label])) fun _ => pure _
      · exact pure _
    | outputs =>
      refine bind (kind? i) fun k => ?_
      split
      · exact pure _
      · exact read_bind fun _ => pure _
    | inputs => exact bind (block? i) fun b => bind (sequenced.enterInputs b) fun _ => pure _
    | transitions g =>
      refine bind (kind? i) fun k => bind sequenced.maxState fun n => ?_
      split
      · exact pure _
      · exact pure _
    | conditions c => cases hnone
  · obtain ⟨blk, _, hs'⟩ := runs_enterBlock_conditions hs h
    refine capture hs ?_ hs'
    cases blk with
    | none => exact .refl c
    | some b => exact Capture.grows_enter (fun _ => trivial) (fun _ _ _ _ => trivial) b

theorem visitYield (y : Yield) : Framed l (visitYield y) := by
  refine aspect_cases (fun a ha hnone => ?_) fun c ctx s ss s' hs h => ?_
  · cases a with
    | outputs =>
      exact read_bind fun ctx => bind (sequenced.mapM (fun e => bind (check _) fun _ => pure _) _) fun _ => pure _
    | conditions c => cases hnone
    | registers | latches | inputs | transitions => exact pure _
  · exact capture hs (Capture.grows_addBlock (fun _ _ _ _ => trivial) y.id) (runs_visitYield_conditions hs h)

/-- A step between the push and the pop of a cycle condition. -/
theorem cycle {α β : Type} {x : Lower α} {f : α → Lower β} (c : Cond) (hx : Framed l x) (hf : ∀ a, Framed l (f a)) :
    Framed l (do pushCycle c; let a ← x; popCycle; f a) := by
  intro ctx s b s' hl h
  obtain ⟨_, s₁, h₁, h⟩ := runs_bind.1 h
  obtain ⟨a, s₂, h₂, h⟩ := runs_bind.1 h
  obtain ⟨_, s₃, h₃, h⟩ := runs_bind.1 h
  have hs₁ := runs_modify.1 h₁
  subst hs₁
  have hframe := hx _ { s with cycles := c :: s.cycles } _ _ hl h₂
  have hs₃ := runs_modify.1 h₃
  subst hs₃
  have hrest := hf a _ { s₂ with cycles := s₂.cycles.tail } _ _ (hframe.label.trans hl) h
  refine ⟨hrest.cycles.trans (congrArg List.tail hframe.cycles), hrest.label.trans hframe.label,
    hrest.wanted.trans hframe.wanted, List.Subset.trans hframe.used hrest.used, ?_, fun hs =>
    hrest.known ⟨(hframe.known ⟨hs.used, hs.captured⟩).used, (hframe.known ⟨hs.used, hs.captured⟩).captured⟩⟩
  intro g hg
  obtain ⟨g', hg', hwithin⟩ := hframe.graph g hg
  obtain ⟨g'', hg'', hwithin'⟩ := hrest.graph g' hg'
  exact ⟨g'', hg'', hwithin.trans hwithin'⟩

theorem assignState (b : Comb.Block) (tr : Transition) : Framed l (assignState b tr) := by
  intro ctx s b' s' hl h
  obtain ⟨a, s₁, haspect, h₁⟩ := runs_bind.1 h
  obtain ⟨ha, rfl⟩ := runs_aspect.1 haspect
  cases a with
  | transitions g =>
    have h₂ := runs_read_bind.1 h₁
    dsimp only at h₂
    split at h₂
    · exact pure _ _ _ _ _ hl h₂
    · obtain ⟨_, s₂, hset, h₃⟩ := runs_bind.1 h₂
      obtain ⟨_, rfl⟩ := runs_pure.1 h₃
      have hs' := runs_setAspect.1 hset
      subst hs'
      refine ⟨rfl, by rw [← ha]; rfl, by rw [← ha]; rfl, List.Subset.refl _, ?_,
        fun hs => ⟨hs.used, fun c hc => by cases hc⟩⟩
      intro g' hg'
      cases ha.trans hg'
      exact ⟨_, rfl, g.within_add _ _⟩
  | registers | latches | outputs | inputs | conditions => exact pure _ _ _ _ _ hl h₁

theorem stepwise : Stepwise (Framed l) where
  toSequenced := sequenced
  aspect_bind hf := aspect_bind fun a _ => hf a
  currentCycle := currentCycle
  mark := mark
  markTree := markTree
  cycle := cycle
  enterBlock := enterBlock
  visitYield := visitYield
  assignState := assignState

theorem visitBlock (i : Nat) : Framed l (visitBlock i) := stepwise.visitBlock i

theorem lowerOutline (o : Outline) : Framed l (lowerOutline o) := stepwise.lowerOutline o

theorem lowerOutlines (os : List Outline) : Framed l (lowerOutlines os) := stepwise.lowerOutlines os

theorem freeStmts (stmts : List Nat) (guard c : Cond) : Framed l (freeStmts stmts guard c) := stepwise.freeStmts stmts guard c

theorem stateCopy (node : Option Nat) (tr : Transition) : Framed l (stateCopy node tr) := stepwise.stateCopy node tr

theorem copiesFor (node : Option Nat) (trs : List Transition) : Framed l (copiesFor node trs) := stepwise.copiesFor node trs

theorem changesState (seg : Segment) (parent : List Nat) : Framed l (changesState seg parent) :=
  stepwise.changesState seg parent

theorem transitions (i : Nat) : Framed l (transitions i) := stepwise.transitions i

theorem stateCopies (i : Nat) (seg : Segment) (parent : Option (List Nat)) : Framed l (stateCopies i seg parent) :=
  stepwise.stateCopies i seg parent

theorem lowerProlog (i : Nat) (seg : Segment) (parent : Option (List Nat)) : Framed l (lowerProlog i seg parent) :=
  stepwise.lowerProlog i seg parent

theorem lowerEpilog (i : Nat) (seg : Segment) (parent : Option (List Nat)) : Framed l (lowerEpilog i seg parent) :=
  stepwise.lowerEpilog i seg parent

theorem withCopies (seg : Segment) (parent : Option (List Nat)) (body : Comb.Block) (copies : List Comb.Block) :
    Framed l (withCopies seg parent body copies) :=
  stepwise.withCopies seg parent body copies

theorem lowerSegment (parent : Option (List Nat)) (o : Outline) : Framed l (lowerSegment parent o) :=
  stepwise.lowerSegment parent o

theorem lowerSegments (parent : List Nat) (os : List Outline) : Framed l (lowerSegments parent os) :=
  stepwise.lowerSegments parent os

theorem lowerModule : Framed l lowerModule := stepwise.lowerModule

end Framed

variable {ctx : Context} {s s' : Session}

theorem runs_freeStmts {stmts : List Nat} {guard cycle : Cond} {b : Comb.Block}
    (h : Runs ctx (freeStmts stmts guard cycle) s b s') :
    ∃ lowered s₁, Runs ctx (lowerOutlines (stmts.map ctx.module.outline)) { s with cycles := cycle :: s.cycles } lowered s₁ ∧
      b = Comb.updateDefaults s₁.aspect.isControl (.of guard lowered) ∧ s' = { s₁ with cycles := s₁.cycles.tail } := by
  obtain ⟨_, s₁, hpush, h⟩ := runs_bind.1 h
  obtain ⟨lowered, s₂, hlower, h⟩ := runs_bind.1 h
  obtain ⟨_, s₃, hpop, h⟩ := runs_bind.1 h
  have hs₁ := runs_modify.1 hpush
  subst hs₁
  have hs₃ := runs_modify.1 hpop
  subst hs₃
  obtain ⟨hb, hs'⟩ := runs_settled.1 h
  exact ⟨lowered, s₂, hlower, hb, hs'⟩

theorem runs_visitBlock {i : Nat} {b : Comb.Block} (h : Runs ctx (visitBlock i) s b s') :
    ∃ blk stmts, ctx.module.block? i = .ok blk ∧ Runs ctx (enterBlock i) s stmts s' ∧
      b = .of (blk.bind Block.guard) stmts := by
  obtain ⟨blk, s₁, hblock, h₁⟩ := runs_bind.1 h
  obtain ⟨stmts, s₂, henter, hpure⟩ := runs_bind.1 h₁
  obtain ⟨hblk, rfl⟩ := runs_block?.1 hblock
  obtain ⟨rfl, rfl⟩ := runs_pure.1 hpure
  exact ⟨blk, stmts, hblk, henter, rfl⟩

theorem mem_copiesFor {node : Option Nat} {trs : List Transition} {copies : List Comb.Block}
    (h : Runs ctx (copiesFor node trs) s copies s') : ∀ c ∈ copies, c.isEmpty = false ∧
      ∃ tr s₁ s₂, Session.Frame ctx.table s s₁ ∧ Runs ctx (stateCopy node tr) s₁ c s₂ := by
  induction trs generalizing s s' copies with
  | nil =>
    rw [(runs_pure.1 h).1]
    simp
  | cons tr trs ih =>
    obtain ⟨copy, s₁, hcopy, h₁⟩ := runs_bind.1 h
    obtain ⟨rest, s₂, hrest, h₂⟩ := runs_bind.1 h₁
    intro c hc
    rw [(runs_pure.1 h₂).1] at hc
    by_cases hmem : c ∈ rest
    · obtain ⟨hne, tr', s₃, s₄, hframe, hrun⟩ := ih hrest c hmem
      exact ⟨hne, tr', s₃, s₄, (Framed.stateCopy node tr _ _ _ _ rfl hcopy).trans hframe, hrun⟩
    · split at hc
      · exact absurd hc hmem
      · rename_i hempty
        cases (List.mem_cons.1 hc).resolve_right hmem
        exact ⟨by simpa using hempty, tr, s, s₁, .refl _ s, hcopy⟩

/-- A copy of the entry of a segment is one of its block, and is not empty. -/
theorem mem_stateCopies {i : Nat} {seg : Segment} {parent : Option (List Nat)} {copies : List Comb.Block}
    (h : Runs ctx (stateCopies i seg parent) s copies s') : ∀ c ∈ copies, parent ≠ none ∧ c.isEmpty = false ∧
      ∃ tr s₁ s₂, Session.Frame ctx.table s s₁ ∧ Runs ctx (stateCopy seg.block tr) s₁ c s₂ := by
  intro c hc
  cases parent with
  | none =>
    rw [(runs_pure.1 h).1] at hc
    cases hc
  | some p =>
    obtain ⟨changes, s₁, hchanges, h₁⟩ := runs_bind.1 h
    have hframe := Framed.changesState seg p _ _ _ _ rfl hchanges
    split at h₁
    · obtain ⟨trs, s₂, htrs, h₂⟩ := runs_bind.1 h₁
      obtain ⟨hne, tr, s₃, s₄, hcopies, hrun⟩ := mem_copiesFor h₂ c hc
      exact ⟨by simp, hne, tr, s₃, s₄, (hframe.trans (Framed.transitions i _ _ _ _ rfl htrs)).trans hcopies, hrun⟩
    · rw [(runs_pure.1 h₁).1] at hc
      cases hc

theorem runs_lowerSegments_cons {parent : List Nat} {o : Outline} {os : List Outline} {ss : List Comb.Stmt}
    (h : Runs ctx (lowerSegments parent (o :: os)) s ss s') :
    ∃ ts us s₁, Runs ctx (lowerSegment (some parent) o) s ts s₁ ∧ Runs ctx (lowerSegments parent os) s₁ us s' ∧
      ss = ts ++ us := by
  obtain ⟨ts, s₁, hhead, h₁⟩ := runs_bind.1 h
  obtain ⟨us, s₂, htail, hpure⟩ := runs_bind.1 h₁
  obtain ⟨rfl, rfl⟩ := runs_pure.1 hpure
  exact ⟨ts, us, s₁, hhead, htail, rfl⟩

theorem runs_of_mem_lowerSegments {parent : List Nat} {o : Outline} {os : List Outline} (ho : o ∈ os) {ss : List Comb.Stmt}
    (h : Runs ctx (lowerSegments parent os) s ss s') :
    ∃ s₁ ts s₂, Session.Frame ctx.table s s₁ ∧ Runs ctx (lowerSegment (some parent) o) s₁ ts s₂ ∧
      Session.Frame ctx.table s₂ s' := by
  induction os generalizing s ss with
  | nil => cases ho
  | cons a os ih =>
    obtain ⟨ts, us, s₁, hts, hus, _⟩ := runs_lowerSegments_cons h
    rcases List.mem_cons.1 ho with rfl | ho
    · exact ⟨s, ts, s₁, .refl _ s, hts, Framed.lowerSegments _ _ _ _ _ _ rfl hus⟩
    · obtain ⟨s₂, ts', s₃, hbefore, hts', hafter⟩ := ih ho hus
      exact ⟨s₂, ts', s₃, (Framed.lowerSegment _ _ _ _ _ _ rfl hts).trans hbefore, hts', hafter⟩

theorem runs_lowerOutlines_cons {o : Outline} {os : List Outline} {ss : List Comb.Stmt}
    (h : Runs ctx (lowerOutlines (o :: os)) s ss s') :
    ∃ ts us s₁, Runs ctx (lowerOutline o) s ts s₁ ∧ Runs ctx (lowerOutlines os) s₁ us s' ∧ ss = ts ++ us := by
  obtain ⟨ts, s₁, hhead, h₁⟩ := runs_bind.1 h
  obtain ⟨us, s₂, htail, hpure⟩ := runs_bind.1 h₁
  obtain ⟨rfl, rfl⟩ := runs_pure.1 hpure
  exact ⟨ts, us, s₁, hhead, htail, rfl⟩

theorem runs_lowerOutline_block {i : Nat} {os : List Outline} {b : Block} (hb : ctx.module.stmt i = .ok (.block b))
    {ss : List Comb.Stmt} (h : Runs ctx (lowerOutline (.node i os)) s ss s') :
    ∃ stmts inner s₁, Runs ctx (enterBlock i) s stmts s₁ ∧ Runs ctx (lowerOutlines os) s₁ inner s' ∧
      ss = [(Comb.updateDefaults s'.aspect.isControl (.of b.guard (stmts ++ inner))).toStmt] := by
  obtain ⟨c, s₁, hstmt, h₁⟩ := runs_bind.1 h
  obtain ⟨hc, rfl⟩ := runs_stmt.1 hstmt
  cases hb.symm.trans hc
  obtain ⟨head, s₂, hhead, h₂⟩ := runs_bind.1 h₁
  obtain ⟨inner, s₃, hinner, h₃⟩ := runs_bind.1 h₂
  obtain ⟨settled, s₄, hsettled, hpure⟩ := runs_bind.1 h₃
  obtain ⟨blk, stmts, hblk, henter, rfl⟩ := runs_visitBlock hhead
  obtain ⟨rfl, rfl⟩ := runs_settled.1 hsettled
  obtain ⟨rfl, rfl⟩ := runs_pure.1 hpure
  rw [Module.block?, hb] at hblk
  cases hblk
  exact ⟨stmts, inner, s₂, henter, hinner, rfl⟩

theorem runs_lowerOutline_visit {i : Nat} {os : List Outline} {st : Stmt} (hst : ctx.module.stmt i = .ok st)
    (hblock : st.block? = none) {ss : List Comb.Stmt} (h : Runs ctx (lowerOutline (.node i os)) s ss s') :
    Runs ctx (visit i) s ss s' := by
  obtain ⟨c, s₁, hstmt, h₁⟩ := runs_bind.1 h
  obtain ⟨hc, rfl⟩ := runs_stmt.1 hstmt
  cases hst.symm.trans hc
  cases st with
  | block b => cases hblock
  | yield y => exact h₁
  | update r v => exact h₁
  | assign x v => exact h₁

theorem runs_lowerOutlines_append {os os' : List Outline} {ss : List Comb.Stmt}
    (h : Runs ctx (lowerOutlines (os ++ os')) s ss s') :
    ∃ ts us s₁, Runs ctx (lowerOutlines os) s ts s₁ ∧ Runs ctx (lowerOutlines os') s₁ us s' ∧ ss = ts ++ us := by
  induction os generalizing s ss with
  | nil => exact ⟨[], ss, s, runs_pure.2 ⟨rfl, rfl⟩, h, rfl⟩
  | cons o os ih =>
    obtain ⟨ts, us, s₁, hts, hus, rfl⟩ := runs_lowerOutlines_cons h
    obtain ⟨ts', us', s₂, hts', hus', rfl⟩ := ih hus
    refine ⟨ts ++ ts', us', s₂, ?_, hus', (List.append_assoc _ _ _).symm⟩
    exact runs_bind.2 ⟨ts, s₁, hts, runs_bind.2 ⟨ts', s₂, hts', runs_pure.2 ⟨rfl, rfl⟩⟩⟩

theorem runs_lowerOutlines_yield {j : Nat} {y : Yield} (hy : ctx.module.stmt j = .ok (.yield y)) {ss : List Comb.Stmt}
    (h : Runs ctx (lowerOutlines [ctx.module.outline j]) s ss s') : Runs ctx (visitYield y) s ss s' := by
  obtain ⟨ts, us, s₁, hts, hus, rfl⟩ := runs_lowerOutlines_cons h
  obtain ⟨rfl, rfl⟩ := runs_pure.1 hus
  rw [List.append_nil]
  have hindex : (ctx.module.outline j).index = j := Arena.index_outlineTo _ _ _ _
  generalize ctx.module.outline j = o at hts hindex
  obtain ⟨i, os⟩ := o
  cases hindex
  obtain ⟨y', s₂, hstmt, hvisit⟩ := runs_bind.1 (runs_lowerOutline_visit hy rfl hts)
  obtain ⟨hy', rfl⟩ := runs_stmt.1 hstmt
  cases hy.symm.trans hy'
  exact hvisit

theorem runs_narrow_session {parent : Option (List Nat)} {states : List Nat} {c : Cond}
    (h : Runs ctx (narrow parent states) s c s') : s' = s := by
  cases parent with
  | none => exact (runs_pure.1 h).2
  | some p => exact (runs_narrow.1 h).2

theorem runs_lowerSegment_leaf {parent : Option (List Nat)} {i : Nat} {os : List Outline} {seg : Segment}
    (hseg : ctx.schedule.segment i = .ok seg) (hkind : seg.kind = .leaf) (hprolog : seg.prolog = [])
    (hepilog : seg.epilog = []) {ss : List Comb.Stmt} (h : Runs ctx (lowerSegment parent (.node i os)) s ss s') :
    ∃ guard t body copies s₁ s₂, Runs ctx (narrow parent seg.states) s guard s ∧ ctx.table.timing i = .ok t ∧
      Runs ctx (freeStmts seg.stmts guard (Option.or t.cycle s.cycles.head?.join)) s body s₁ ∧
      Runs ctx (stateCopies i seg parent) s₁ copies s₂ ∧ Runs ctx (withCopies seg parent body copies) s₂ ss s' := by
  obtain ⟨seg', s₁, hsegment, h₁⟩ := runs_bind.1 h
  obtain ⟨hseg', hs₁⟩ := runs_segment.1 hsegment
  cases hseg.symm.trans hseg'
  obtain ⟨guard, s₂, hguard, h₂⟩ := runs_bind.1 h₁
  have hs₂ := runs_narrow_session hguard
  obtain ⟨before, s₃, hbefore, h₃⟩ := runs_bind.1 h₂
  rw [lowerProlog, hprolog] at hbefore
  obtain ⟨rfl, hs₃⟩ := runs_pure.1 hbefore
  subst hs₁ hs₂ hs₃
  rw [hkind] at h₃
  obtain ⟨t, s₄, htiming, h₄⟩ := runs_bind.1 h₃
  obtain ⟨ht, rfl⟩ := runs_timing.1 htiming
  have hrest : ∃ body s₅, Runs ctx (freeStmts seg.stmts guard (Option.or t.cycle s₄.cycles.head?.join)) s₄ body s₅ ∧
      Runs ctx (do
        let copies ← stateCopies i seg parent
        let main ← withCopies seg parent body copies
        let after ← lowerEpilog i seg parent
        return [] ++ main ++ after) s₅ ss s' := by
    dsimp only at h₄
    cases hcycle : t.cycle with
    | some c =>
      rw [hcycle] at h₄
      obtain ⟨c', s₅, hc, h₅⟩ := runs_bind.1 h₄
      obtain ⟨rfl, rfl⟩ := runs_pure.1 hc
      exact runs_bind.1 h₅
    | none =>
      rw [hcycle] at h₄
      obtain ⟨c', s₅, hc, h₅⟩ := runs_bind.1 h₄
      obtain ⟨rfl, rfl⟩ := runs_currentCycle.1 hc
      exact runs_bind.1 h₅
  obtain ⟨body, s₅, hbody, h₅⟩ := hrest
  obtain ⟨copies, s₆, hcopies, h₆⟩ := runs_bind.1 h₅
  obtain ⟨main, s₇, hmain, h₇⟩ := runs_bind.1 h₆
  obtain ⟨after, s₈, hafter, h₈⟩ := runs_bind.1 h₇
  rw [lowerEpilog, hepilog] at hafter
  obtain ⟨rfl, rfl⟩ := runs_pure.1 hafter
  obtain ⟨rfl, rfl⟩ := runs_pure.1 h₈
  refine ⟨guard, t, body, copies, s₅, s₆, hguard, ht, hbody, hcopies, ?_⟩
  rw [List.nil_append, List.append_nil]
  exact hmain

/-- What lowering a segment with a block has done. -/
structure BlockRuns (ctx : Context) (parent : Option (List Nat)) (i n : Nat) (os : List Outline) (seg : Segment)
    (s : Session) (ss : List Comb.Stmt) (s' : Session) where
  guard : Cond
  before : List Comb.Stmt
  blk : Option Block
  entry : List Comb.Stmt
  full : Cond
  timing : Timing
  inner : List Comb.Stmt
  copies : List Comb.Block
  main : List Comb.Stmt
  after : List Comb.Stmt
  s₁ : Session
  s₂ : Session
  s₃ : Session
  s₄ : Session
  s₅ : Session
  guard_runs : Runs ctx (narrow parent seg.states) s guard s
  before_runs : Runs ctx (lowerProlog i seg parent) s before s₁
  block : ctx.module.block? n = .ok blk
  entry_runs : Runs ctx (enterBlock n) s₁ entry s₂
  full_eq : Cond.and guard (blk.bind Block.guard) = .ok full
  timing_eq : ctx.table.timing i = .ok timing
  inner_runs : Runs ctx (lowerSegments seg.states os) { s₂ with cycles := timing.cycle :: s₂.cycles } inner s₃
  copies_runs : Runs ctx (stateCopies i seg parent) { s₃ with cycles := s₃.cycles.tail } copies s₄
  main_runs : Runs ctx (withCopies seg parent ⟨full, .empty, entry ++ inner⟩ copies) s₄ main s₅
  after_runs : Runs ctx (lowerEpilog i seg parent) s₅ after s'
  eq : ss = before ++ main ++ after

theorem runs_lowerSegment_block {parent : Option (List Nat)} {i n : Nat} {os : List Outline} {seg : Segment}
    (hseg : ctx.schedule.segment i = .ok seg) (hkind : seg.kind ≠ .leaf) (hblock : seg.block = some n)
    {ss : List Comb.Stmt} (h : Runs ctx (lowerSegment parent (.node i os)) s ss s') :
    Nonempty (BlockRuns ctx parent i n os seg s ss s') := by
  obtain ⟨seg', s₁, hsegment, h₁⟩ := runs_bind.1 h
  obtain ⟨hseg', hs₁⟩ := runs_segment.1 hsegment
  cases hseg.symm.trans hseg'
  obtain ⟨guard, s₂, hguard, h₂⟩ := runs_bind.1 h₁
  have hs₂ := runs_narrow_session hguard
  subst hs₁ hs₂
  obtain ⟨before, s₃, hbefore, h₃⟩ := runs_bind.1 h₂
  have hrest : ∃ head s₄, Runs ctx (visitBlock n) s₃ head s₄ ∧ Runs ctx (do
      let guard ← check (Cond.and guard head.guard)
      pushCycle (← timing i).cycle
      let inner ← lowerSegments seg.states os
      popCycle
      let body ← pure { head.append inner with guard := guard }
      let copies ← stateCopies i seg parent
      let main ← withCopies seg parent body copies
      let after ← lowerEpilog i seg parent
      return before ++ main ++ after) s₄ ss s' := by
    dsimp only at h₃
    rw [hblock] at h₃
    cases hk : seg.kind with
    | leaf => exact absurd hk hkind
    | seq =>
      rw [hk] at h₃
      exact runs_bind.1 h₃
    | mutex =>
      rw [hk] at h₃
      exact runs_bind.1 h₃
  obtain ⟨head, s₄, hhead, h₄⟩ := hrest
  obtain ⟨blk, entry, hblk, hentry, rfl⟩ := runs_visitBlock hhead
  obtain ⟨full, s₅, hfull, h₅⟩ := runs_bind.1 h₄
  obtain ⟨hand, hs₅⟩ := runs_check.1 hfull
  obtain ⟨t, s₆, htiming, h₆⟩ := runs_bind.1 h₅
  obtain ⟨ht, hs₆⟩ := runs_timing.1 htiming
  obtain ⟨_, s₇, hpush, h₇⟩ := runs_bind.1 h₆
  have hs₇ := runs_modify.1 hpush
  subst hs₅ hs₆ hs₇
  obtain ⟨inner, s₈, hinner, h₈⟩ := runs_bind.1 h₇
  obtain ⟨_, s₉, hpop, h₉⟩ := runs_bind.1 h₈
  have hs₉ := runs_modify.1 hpop
  subst hs₉
  obtain ⟨body, s₁₀, hbody, h₁₀⟩ := runs_bind.1 h₉
  obtain ⟨rfl, hs₁₀⟩ := runs_pure.1 hbody
  subst hs₁₀
  obtain ⟨copies, s₁₁, hcopies, h₁₁⟩ := runs_bind.1 h₁₀
  obtain ⟨main, s₁₂, hmain, h₁₂⟩ := runs_bind.1 h₁₁
  obtain ⟨after, s₁₃, hafter, h₁₃⟩ := runs_bind.1 h₁₂
  obtain ⟨rfl, rfl⟩ := runs_pure.1 h₁₃
  exact ⟨⟨guard, before, blk, entry, full, t, inner, copies, main, after, _, _, _, _, _, hguard, hbefore, hblk, hentry,
    hand, ht, hinner, hcopies, hmain, hafter, rfl⟩⟩

theorem lowerModule_cases {tree : Comb.Block} (h : Runs ctx lowerModule s tree s') :
    ∃ ss s₁, Runs ctx (lowerSegment none (ctx.schedule.outline ctx.schedule.root)) s ss s₁ ∧ Session.Frame ctx.table s₁ s' ∧
      tree = Comb.updateDefaults s₁.aspect.isControl (.of none ss) := by
  obtain ⟨ss, s₁, hss, h₁⟩ := runs_bind.1 (runs_read_bind.1 h)
  obtain ⟨b, s₂, hsettled, h₂⟩ := runs_bind.1 h₁
  obtain ⟨_, s₃, hmark, hpure⟩ := runs_bind.1 h₂
  obtain ⟨rfl, rfl⟩ := runs_pure.1 hpure
  obtain ⟨rfl, rfl⟩ := runs_settled.1 hsettled
  exact ⟨ss, _, hss, Framed.markTree _ _ _ _ _ rfl hmark, rfl⟩

theorem runs_lowerModule {tree : Comb.Block} (h : Runs ctx lowerModule s tree s') :
    ∃ ss s₁, Runs ctx (lowerSegment none (ctx.schedule.outline ctx.schedule.root)) s ss s₁ ∧
      tree = Comb.updateDefaults s₁.aspect.isControl (.of none ss) := by
  obtain ⟨ss, s₁, hss, _, htree⟩ := lowerModule_cases h
  exact ⟨ss, s₁, hss, htree⟩

end Lowering

end Sequencer
