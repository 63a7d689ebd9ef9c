import Sequencer.Proofs.Condition.Exit
import Sequencer.Proofs.Lowering.Free

set_option autoImplicit false

/-!
# Segments

How the statements of a segment run for a class of signals that free statements do not drive: its body runs in the
states of the segment and under the guard of its block, and the statements before and after it do nothing.
-/

namespace Sequencer

namespace Lowering

open Control Lower Comb

section Values

variable {V : Type} (I : Interpretation V) (ρ : Valuation V)

theorem final_of_isEmpty {b : Comb.Block} (h : b.isEmpty = true) (t : String) : b.toStmt.final I ρ t = none := by
  rw [Block.isEmpty, Bool.and_eq_true, List.isEmpty_iff, Listing.isEmpty, List.isEmpty_iff] at h
  have hdflts : b.dflts.final I ρ t = none := by
    refine Defaults.final_eq_none I ρ t ?_
    rw [Listing.keys, h.2]
    exact List.not_mem_nil
  rw [Block.final_toStmt, Block.body, h.1, hdflts]
  exact ite_self none

theorem finalAll_inlined (b : Comb.Block) (t : String) :
    Comb.Stmt.finalAll I ρ t (inlined b) = b.toStmt.final I ρ t := by
  unfold inlined
  split
  · rename_i hempty
    exact (final_of_isEmpty I ρ hempty t).symm
  · split
    · rfl
    · rename_i hguard
      have hnone : b.guard = none := by simpa using hguard
      rw [Block.final_toStmt, hnone, Cond.holds_none, if_pos rfl, Comb.Stmt.finalAll_append, assigns, Comb.Stmt.finalAll_assigns, Block.body]

theorem finalAll_settled (isControl : Assign → Bool) (b : Comb.Block) (t : String) :
    Comb.Stmt.finalAll I ρ t (inlined (updateDefaults isControl b)) =
      if Cond.holds I ρ b.guard then (updateDefaults isControl b).body I ρ t else none := by
  rw [finalAll_inlined, Block.final_toStmt, updateDefaults_guard]

theorem finalAll_map_toStmt (t : String) (bs : List Comb.Block) :
    Comb.Stmt.finalAll I ρ t (bs.map Comb.Block.toStmt) = Comb.Stmt.finalAll I ρ t (bs.flatMap inlined) := by
  induction bs with
  | nil => rfl
  | cons b bs ih =>
    rw [List.map_cons, List.flatMap_cons, Comb.Stmt.finalAll, Comb.Stmt.finalAll_append, ih, finalAll_inlined]

variable {ctx : Context} {s s' : Session} {k : Nat}

theorem narrow_holds (hk : ctx.table.space.Holds I ρ k) {seg : Segment} {segs : List Segment}
    (hstates : Schedule.StatesFit ctx.table.maxState seg segs) {states : Option (List Nat)}
    (hP : ∀ P, states = some P → k ∈ P) (hroot : states = none → k ∈ seg.states) {guard : Cond}
    (h : Runs ctx (narrow states seg.states) s guard s') : Cond.holds I ρ guard = decide (k ∈ seg.states) := by
  cases states with
  | none =>
    rw [(runs_pure.1 h).1, Cond.holds_none, eq_comm, decide_eq_true_eq]
    exact hroot rfl
  | some P => exact hk.narrow hstates.ne_nil hstates.nodup hstates.le_max (hP P rfl) (runs_narrow.1 h).1

theorem mem_states_iff {seg : Segment} (h : seg.states.length = 1) {k : Nat} :
    k ∈ seg.states ↔ seg.firstState? = some k := by
  obtain ⟨x, hx⟩ := List.length_eq_one_iff.1 h
  rw [Segment.firstState?, hx]
  simp [eq_comm]

theorem blockOf_eq_some {seg : Segment} {blk : Option Control.Block} (h : Runs ctx (blockOf seg) s blk s')
    {b : Control.Block} : blk = some b ↔ ∃ n, seg.block = some n ∧ ctx.module.stmt n = .ok (.block b) := by
  cases hblock : seg.block with
  | none =>
    rw [blockOf, hblock] at h
    rw [(runs_pure.1 h).1]
    simp
  | some n =>
    obtain ⟨st, hst, hblk⟩ := Checked.map_eq_ok.1 ((runs_blockOf hblock).1 h).1
    rw [← hblk]
    constructor
    · intro hb
      refine ⟨n, rfl, ?_⟩
      cases st with
      | block b' =>
        cases hb
        exact hst
      | yield y => cases hb
      | update r v => cases hb
      | assign x v => cases hb
    · rintro ⟨n', hn, hb⟩
      cases hn
      cases hst.symm.trans hb
      rfl

/-- Copies run in the state in which the segment is entered, after what its body does. -/
theorem finalAll_withCopies {I : Interpretation V} {ρ : Valuation V} {t : String}
    (hcontrol : ∀ a : Aspect, a.label = s.aspect.label → Controlled a.isControl t) (hk : ctx.table.space.Holds I ρ k)
    {seg : Segment} {segs : List Segment} (hstates : Schedule.StatesFit ctx.table.maxState seg segs) {P : List Nat}
    (hP : k ∈ P) {body : Comb.Block} {copies : List Comb.Block}
    (hsingle : seg.states.length = 1 →
      (∀ n b, seg.block = some n → ctx.module.stmt n = .ok (.block b) → b.guard = none) →
      (Cond.holds I ρ body.guard = true ↔ seg.firstState? = some k)) {ss : List Comb.Stmt}
    (h : Runs ctx (withCopies seg (some P) body copies) s ss s') :
    Comb.Stmt.finalAll I ρ t ss =
      (if seg.firstState? = some k then Comb.Stmt.finalAll I ρ t (copies.flatMap inlined) else none).or
        (if Cond.holds I ρ body.guard then body.body I ρ t else none) := by
  obtain ⟨blk, s₁, hblk, h₁⟩ := runs_bind.1 h
  have hlabel := (Framed.blockOf seg _ _ _ _ rfl hblk).label
  have hexact : ∀ b : Comb.Block, (updateDefaults s₁.aspect.isControl b).body I ρ t = b.body I ρ t :=
    fun b => updateDefaults_body _ b I ρ t (hcontrol _ hlabel)
  dsimp only at h₁
  split at h₁
  · rename_i hcond
    have hguard := hsingle hcond.1 fun n b hn hb => by
      have hnone : (blk.any fun b => b.guard.isSome) = false := by simpa using hcond.2
      rw [(blockOf_eq_some hblk).2 ⟨n, hn, hb⟩] at hnone
      simpa using hnone
    obtain ⟨body', s₂, hsettled, hpure⟩ := runs_bind.1 h₁
    rw [(runs_pure.1 hpure).1, (runs_settled.1 hsettled).1, finalAll_settled, hexact, Comb.Block.append,
      Comb.Block.body, Comb.Stmt.finalAll_append, Option.or_assoc]
    by_cases hholds : Cond.holds I ρ body.guard = true
    · rw [if_pos hholds, if_pos hholds, if_pos (hguard.1 hholds), Comb.Block.body]
    · rw [if_neg hholds, if_neg hholds, if_neg fun hfirst => hholds (hguard.2 hfirst), Option.none_or]
  · obtain ⟨body', s₂, hsettled, hrest⟩ := runs_bind.1 h₁
    obtain ⟨hbody', rfl⟩ := runs_settled.1 hsettled
    have hinlined : Comb.Stmt.finalAll I ρ t (inlined body') =
        if Cond.holds I ρ body.guard then body.body I ρ t else none := by
      rw [hbody', finalAll_settled, hexact]
    split at hrest
    · rename_i hempty
      rw [List.isEmpty_iff] at hempty
      subst hempty
      rw [(runs_pure.1 hrest).1, hinlined, List.flatMap_nil, Comb.Stmt.finalAll, ite_self, Option.none_or]
    · obtain ⟨test, s₃, htest, hpure⟩ := runs_bind.1 hrest
      have hholds : Cond.holds I ρ test = true ↔ seg.firstState? = some k := by
        obtain ⟨x, xs, hx⟩ := List.exists_cons_of_ne_nil hstates.ne_nil
        have hfirst : seg.firstState? = some x := by rw [Segment.firstState?, hx, List.head?_cons]
        rw [hfirst] at htest ⊢
        rw [hk.narrow (List.cons_ne_nil x []) (List.nodup_singleton x) ?_ hP (runs_narrow.1 htest).1]
        · simp [eq_comm]
        · intro y hy
          rw [List.mem_singleton.1 hy]
          exact hstates.le_max x (by simp [hx])
      have hcopy : Comb.Stmt.finalAll I ρ t [(Comb.Block.of test (copies.map Comb.Block.toStmt)).toStmt] =
          if seg.firstState? = some k then Comb.Stmt.finalAll I ρ t (copies.flatMap inlined) else none := by
        rw [Comb.Stmt.finalAll_singleton, Block.final_toStmt, Comb.Block.body_of, finalAll_map_toStmt, Comb.Block.of]
        simp only [hholds]
      rw [(runs_pure.1 hpure).1, Comb.Stmt.finalAll_append, hinlined, hcopy]

end Values

theorem runs_blockOf_session {ctx : Context} {s s' : Session} {seg : Segment} {b : Option Control.Block}
    (h : Runs ctx (blockOf seg) s b s') : s' = s := by
  rw [blockOf] at h
  split at h
  · exact (runs_pure.1 h).2
  · exact (runs_block?.1 h).2

theorem runs_withCopies_nil {ctx : Context} {s s' : Session} {seg : Segment} {parent : Option (List Nat)}
    {body : Comb.Block} {ss : List Comb.Stmt} (h : Runs ctx (withCopies seg parent body []) s ss s') :
    ss = inlined (updateDefaults s.aspect.isControl body) ∧ s' = s := by
  obtain ⟨b, s₁, hb, h₁⟩ := runs_bind.1 h
  obtain rfl := runs_blockOf_session hb
  dsimp only at h₁
  split at h₁
  · obtain ⟨body', s₂, hsettled, hpure⟩ := runs_bind.1 h₁
    obtain ⟨rfl, rfl⟩ := runs_settled.1 hsettled
    obtain ⟨rfl, rfl⟩ := runs_pure.1 hpure
    rw [List.flatMap_nil, Comb.Block.append, List.append_nil]
    exact ⟨rfl, rfl⟩
  · obtain ⟨body', s₂, hsettled, hpure⟩ := runs_bind.1 h₁
    rw [List.isEmpty_nil, if_pos rfl] at hpure
    obtain ⟨rfl, rfl⟩ := runs_settled.1 hsettled
    exact runs_pure.1 hpure

theorem satisfies_withCopies {ctx : Context} {s s' : Session} {seg : Segment} {parent : Option (List Nat)} {body : Comb.Block}
    {copies : List Comb.Block} {P : Assign → Prop} {Q : Expr → Prop} (hbody : body.Satisfies P Q)
    (hcopies : ∀ c ∈ copies, c.Satisfies P Q)
    (htest : ∀ t test t', Runs ctx (narrow parent seg.firstState?.toList) t test t' → ∀ e, test = some e → Q e)
    {ss : List Comb.Stmt} (h : Runs ctx (withCopies seg parent body copies) s ss s') : Comb.Stmt.SatisfiesAll P Q ss := by
  obtain ⟨b, s₁, _, h₁⟩ := runs_bind.1 h
  dsimp only at h₁
  split at h₁
  · obtain ⟨body', s₂, hsettled, hpure⟩ := runs_bind.1 h₁
    rw [(runs_pure.1 hpure).1, (runs_settled.1 hsettled).1]
    refine satisfies_inlined (updateDefaults_satisfies _ _ ⟨hbody.1, hbody.2.1, ?_⟩)
    refine Comb.Stmt.satisfiesAll_append.2 ⟨hbody.2.2, Comb.Stmt.satisfiesAll_iff.2 ?_⟩
    intro x hx
    obtain ⟨c, hc, hx⟩ := List.mem_flatMap.1 hx
    exact Comb.Stmt.satisfiesAll_iff.1 (satisfies_inlined (hcopies c hc)) x hx
  · obtain ⟨body', s₂, hsettled, hrest⟩ := runs_bind.1 h₁
    have hinlined : Comb.Stmt.SatisfiesAll P Q (inlined body') := by
      rw [(runs_settled.1 hsettled).1]
      exact satisfies_inlined (updateDefaults_satisfies _ _ hbody)
    split at hrest
    · rw [(runs_pure.1 hrest).1]
      exact hinlined
    · obtain ⟨test, s₃, hnarrow, hpure⟩ := runs_bind.1 hrest
      rw [(runs_pure.1 hpure).1]
      refine Comb.Stmt.satisfiesAll_append.2 ⟨hinlined, Comb.Block.satisfies_of (htest _ _ _ hnarrow) ?_, trivial⟩
      refine Comb.Stmt.satisfiesAll_iff.2 fun x hx => ?_
      obtain ⟨c, hc, rfl⟩ := List.mem_map.1 hx
      exact hcopies c hc

/-- If nothing is assigned on entry to a block inside the module, only the change of state is left of a copy. -/
theorem runs_stateCopy_bare {ctx : Context} {s s' : Session}
    (hbare : ∀ {n b ss s'}, ctx.module.stmt n = .ok (.block b) → b.kind ≠ .module → Runs ctx (enterBlock n) s ss s' →
      ss = []) {node : Option Nat}
    (hnode : ∀ n, node = some n → ∃ b, ctx.module.stmt n = .ok (.block b) ∧ b.kind ≠ .module) {tr : Transition}
    {copy : Comb.Block} (h : Runs ctx (stateCopy node tr) s copy s') :
    ∃ s₁ : Session, Session.Frame ctx.table s s₁ ∧ Runs ctx (assignState (.of none []) tr >>= settled) s₁ copy s' := by
  cases node with
  | none =>
    obtain ⟨entry, s₁, hentry, h₁⟩ := runs_bind.1 h
    obtain ⟨rfl, rfl⟩ := runs_pure.1 hentry
    exact ⟨s₁, .refl _ s₁, h₁⟩
  | some n =>
    obtain ⟨b, hb, hkind⟩ := hnode n rfl
    obtain ⟨head, s₁, hhead, h₁⟩ := runs_bind.1 h
    obtain ⟨head', s₂, hsettled, h₂⟩ := runs_bind.1 h₁
    obtain ⟨entry, s₃, hentry, h₃⟩ := runs_bind.1 h₂
    have hframe := Framed.visitBlock n _ _ _ _ rfl hhead
    obtain ⟨blk, stmts, hblk, henter, rfl⟩ := runs_visitBlock hhead
    rw [hbare hb hkind henter] at hsettled
    obtain ⟨rfl, rfl⟩ := runs_settled.1 hsettled
    obtain ⟨rfl, rfl⟩ := runs_pure.1 hentry
    exact ⟨_, hframe, h₃⟩

theorem ConditionTable.avoids_exit {m : Module} {s : Schedule} {maxState : Nat} {table : ConditionTable}
    (htable : ConditionTable.build m s maxState = .ok table) {T : List String}
    (hdigit : ∀ n ∈ T, ∀ c, Name.ending n = some c → c.isDigit = false) {i : Nat} {seg : Segment} {t : Timing}
    (hseg : s.segment i = .ok seg) (hkind : seg.kind ≠ .leaf) (ht : table.timing i = .ok t) {e : Expr}
    (he : t.exit = some e) : e.Avoids T := by
  rcases (ConditionTable.named_build htable).2 i seg t hseg hkind ht with rfl | ⟨id, rfl⟩
  · cases he
  · cases he
    intro n hn hmem
    rw [List.mem_singleton.1 hn] at hmem
    obtain ⟨c, hc, hd⟩ := Name.ending_exitCond id
    exact absurd hd (by rw [hdigit _ hmem c hc]; decide)

/-- If no expression of the source reads a signal of `T`, none that lowering takes over does. -/
theorem quiet_of_reads {m : Module} {st : Staged} (halike : m.Alike st.module) {table : ConditionTable}
    (htable : ConditionTable.build st.module st.schedule st.maxState = .ok table) {T : List String} (hT : Unmarkable T)
    (hdigit : ∀ n ∈ T, ∀ c, Name.ending n = some c → c.isDigit = false)
    (hreads : ∀ n ∈ (m.outline m.root).preorder, ∀ stmt, m.stmt n = .ok stmt → ∀ e ∈ stmt.exprs, e.Avoids T) :
    Quiet ⟨st.module, st.schedule, table⟩ T := by
  refine ⟨?_, (hT Name.state).1, fun i seg t hseg hkind ht e he => ?_⟩
  · intro n hn stmt hstmt e he
    have hn' : n ∈ (m.outline m.root).preorder := by
      rw [← halike.root, ← halike.outline]
      exact hn
    obtain ⟨stmt', hstmt', hbare⟩ := halike.symm.stmt hstmt
    have hexprs := congrArg Control.Stmt.exprs hbare
    rw [Stmt.exprs_bare, Stmt.exprs_bare] at hexprs
    have he' : e.unmarked ∈ stmt'.exprs.map Expr.unmarked := hexprs ▸ List.mem_map_of_mem he
    obtain ⟨e₀, he₀, hunmarked⟩ := List.mem_map.1 he'
    have havoids := (Expr.avoids_unmarked hT e₀).2 (hreads n hn' stmt' hstmt' e₀ he₀)
    rw [hunmarked] at havoids
    exact (Expr.avoids_unmarked hT e).1 havoids
  · exact ConditionTable.avoids_exit htable hdigit hseg hkind ht he

/-- For the inputs and the transitions, the statements of a leaf do nothing either. -/
theorem idle_leaf {ctx : Context} {T : List String} (hq : Quiet ctx T) (hwf : ctx.module.WellFormed) {stmts : List Nat}
    (hleaf : ctx.module.SingleCycle stmts) (hin : ∀ j ∈ stmts, j ∈ (ctx.module.outline ctx.module.root).preorder)
    {s s' : Session} (hs : (∃ g, s.aspect = .transitions g) ∨ s.aspect = .inputs) {ss : List Comb.Stmt}
    (h : Runs ctx (lowerOutlines (stmts.map ctx.module.outline)) s ss s') : Idle T ss := by
  obtain ⟨pre, mid, post, rfl, hpre, hpost, hmid⟩ := hleaf
  rw [List.map_append, List.map_append] at h
  obtain ⟨ts, us, s₁, hts, hus, rfl⟩ := runs_lowerOutlines_append h
  obtain ⟨ts₁, ts₂, s₂, hts₁, hts₂, rfl⟩ := runs_lowerOutlines_append hts
  have hidles : s.aspect.Idles := hs.imp_left .inr
  have hidle₁ := idle_lowerStmts hq hwf hpre (fun j hj => hin j (by simp [hj])) hidles hts₁
  have hidle₂ := idle_lowerStmts hq hwf hpost (fun j hj => hin j (by simp [hj]))
    (hidles.of_frame (Framed.lowerOutlines _ _ _ _ _ rfl hts)) hus
  have hmiddle : ts₂ = [] := by
    rcases hmid with rfl | ⟨j, y, rfl, hy⟩
    · exact (runs_pure.1 hts₂).1
    · obtain ⟨a, s₃, haspect, hyield⟩ := runs_bind.1 (runs_lowerOutlines_yield hy hts₂)
      have hlabel := (Framed.lowerOutlines _ _ _ _ _ rfl hts₁).label
      rw [(runs_aspect.1 haspect).1] at hyield
      rcases hs with ⟨g, hg⟩ | hg
      · rw [hg] at hlabel
        obtain ⟨g', hg'⟩ := Aspect.eq_transitions_of_label hlabel
        rw [hg'] at hyield
        exact (runs_pure.1 hyield).1
      · rw [hg] at hlabel
        rw [Aspect.eq_inputs_of_label hlabel] at hyield
        exact (runs_pure.1 hyield).1
  rw [hmiddle, List.append_nil]
  exact Comb.Stmt.satisfiesAll_append.2 ⟨hidle₁, hidle₂⟩

section Block

variable {ctx : Context} {T : List String} {i n : Nat} {os : List Outline} {b : Control.Block} {seg : Segment}
  {segs : List Segment} (h : Schedule.BlockFits ctx.module ctx.schedule ctx.table.maxState i os n b seg segs)
  {states : Option (List Nat)} {s s' : Session} {ss : List Comb.Stmt} (r : BlockRuns ctx states i n os seg s ss s')

namespace BlockRuns

include h in
theorem blk_eq : r.blk = some b := by
  have hrun := r.block
  rw [Module.block?, h.stmt] at hrun
  exact (Except.ok.inj hrun).symm

include h in
theorem full_eq' : Cond.and r.guard b.guard = .ok r.full := by
  have hfull := r.full_eq
  rwa [r.blk_eq h, Option.bind_some] at hfull

include h in
theorem full_iff {V : Type} {I : Interpretation V} {ρ : Valuation V} {k : Nat} (hk : ctx.table.space.Holds I ρ k)
    (hP : ∀ P, states = some P → k ∈ P) (hroot : states = none → k ∈ seg.states) :
    Cond.holds I ρ r.full = true ↔ ctx.schedule.Taken I ρ ctx.module k i := by
  rw [Cond.holds_and I ρ (r.full_eq' h), narrow_holds I ρ hk h.states hP hroot r.guard_runs, Bool.and_eq_true,
    decide_eq_true_eq, h.taken_iff, h.entered_iff]

/-- The class of signals stays the same throughout. -/
theorem labels : r.s₁.aspect.label = s.aspect.label ∧ r.s₂.aspect.label = s.aspect.label ∧
    r.s₃.aspect.label = s.aspect.label ∧ r.s₄.aspect.label = s.aspect.label ∧ r.s₅.aspect.label = s.aspect.label := by
  have h₁ := (Framed.lowerProlog _ _ _ _ _ _ _ rfl r.before_runs).label
  have h₂ := (Framed.enterBlock _ _ _ _ _ rfl r.entry_runs).label.trans h₁
  have h₃ := (Framed.lowerSegments _ _ _ _ _ _ rfl r.inner_runs).label.trans h₂
  have h₄ := (Framed.stateCopies _ _ _ _ _ _ _ rfl r.copies_runs).label.trans h₃
  have h₅ := (Framed.withCopies _ _ _ _ _ _ _ _ rfl r.main_runs).label.trans h₄
  exact ⟨h₁, h₂, h₃, h₄, h₅⟩

section Idle

variable (hwf : ctx.module.WellFormed) (hq : Quiet ctx T) (hs : s.aspect.Idles)

include h hwf hq hs

theorem idle_before : Idle T r.before :=
  idle_lowerProlog hq hwf h.prolog (fun _ hj => h.inside_prolog hj) hs r.before_runs

theorem idle_after : Idle T r.after :=
  idle_lowerEpilog hq hwf h.segment h.not_leaf h.epilog (fun _ hj => h.inside_epilog hj) (hs.of_label r.labels.2.2.2.2)
    r.after_runs

theorem finalAll_eq {V : Type} (I : Interpretation V) (ρ : Valuation V) (t : String) :
    Comb.Stmt.finalAll I ρ t ss = Comb.Stmt.finalAll I ρ t r.main := by
  refine (congrArg (Comb.Stmt.finalAll I ρ t) r.eq).trans ?_
  rw [Comb.Stmt.finalAll_append, Comb.Stmt.finalAll_append, (r.idle_before h hwf hq hs).finalAll_eq_none I ρ t,
    (r.idle_after h hwf hq hs).finalAll_eq_none I ρ t, Option.none_or, Option.or_none]

end Idle

end BlockRuns

include h in
/-- What a block inside another segment leaves on a signal that may not leave a guard: what the segments below it do, over
what is assigned on entry, and over both, in its first state, what its copies do. -/
theorem BlockRuns.finalAll_parts {P : List Nat} (r : BlockRuns ctx (some P) i n os seg s ss s')
    (hwf : ctx.module.WellFormed) {V : Type} {I : Interpretation V} {ρ : Valuation V} {k : Nat}
    (hk : ctx.table.space.Holds I ρ k) (hP : k ∈ P) (hq : Quiet ctx T) (hs : s.aspect.Idles) {t : String}
    (hcontrol : ∀ a : Aspect, a.label = s.aspect.label → Controlled a.isControl t) :
    Comb.Stmt.finalAll I ρ t ss =
      (if seg.firstState? = some k then Comb.Stmt.finalAll I ρ t (r.copies.flatMap inlined) else none).or
        (if Cond.holds I ρ r.full then (Comb.Stmt.finalAll I ρ t r.inner).or (Comb.Stmt.finalAll I ρ t r.entry)
          else none) := by
  have hbody : (⟨r.full, .empty, r.entry ++ r.inner⟩ : Comb.Block).body I ρ t =
      (Comb.Stmt.finalAll I ρ t r.inner).or (Comb.Stmt.finalAll I ρ t r.entry) := by
    rw [← Comb.Stmt.finalAll_append]
    exact Comb.Block.body_of I ρ t r.full _
  rw [r.finalAll_eq h hwf hq hs, ← hbody]
  refine finalAll_withCopies (fun a ha => hcontrol a (ha.trans r.labels.2.2.2.1)) hk h.states hP ?_ r.main_runs
  intro hsingle hguard
  change Cond.holds I ρ r.full = true ↔ _
  rw [r.full_iff h hk (fun _ hP' => Option.some.inj hP' ▸ hP) (by simp), h.taken_iff, h.entered_iff,
    hguard n b h.block h.stmt, ← mem_states_iff hsingle]
  simp

include h in
/-- What the tree leaves on a signal that may not leave a guard: what the segments below the root do, over what is assigned
on entry to the module. -/
theorem BlockRuns.run_root (r : BlockRuns ctx none i n os seg s ss s') (hwf : ctx.module.WellFormed) {V : Type}
    {I : Interpretation V} {ρ : Valuation V} {k : Nat} (hk : ctx.table.space.Holds I ρ k)
    (htaken : ctx.schedule.Taken I ρ ctx.module k i) (hq : Quiet ctx T) (hs : s.aspect.Idles) {t : String}
    (hcontrol : ∀ a : Aspect, a.label = s.aspect.label → Controlled a.isControl t) :
    (updateDefaults s'.aspect.isControl (.of none ss)).run I (fun _ => ρ) t =
      (Comb.Stmt.finalAll I ρ t r.inner).or (Comb.Stmt.finalAll I ρ t r.entry) := by
  obtain ⟨_, _, _, hs₄, hs₅⟩ := r.labels
  have hcopies : r.copies = [] := (runs_pure.1 r.copies_runs).1
  have hmain := r.main_runs
  rw [hcopies] at hmain
  obtain ⟨hmain, _⟩ := runs_withCopies_nil hmain
  have hlabel := (Framed.lowerEpilog _ _ _ _ _ _ _ rfl r.after_runs).label.trans hs₅
  have hfull : Cond.holds I ρ r.full = true :=
    (r.full_iff h hk (fun P hP => by cases hP) fun _ => (h.taken_iff.1 htaken).1).2 htaken
  rw [Comb.Block.run_fixed I ρ t _ (updateDefaults_guard _ _),
    updateDefaults_body _ _ I ρ t (hcontrol _ hlabel), Comb.Block.body_of, r.finalAll_eq h hwf hq hs,
    hmain, finalAll_settled, if_pos hfull,
    updateDefaults_body _ _ I ρ t (hcontrol _ hs₄), ← Comb.Stmt.finalAll_append]
  exact Comb.Block.body_of I ρ t r.full _

end Block

/-- A scheduled module with the table of its conditions. -/
structure Scheduled (ctx : Context) : Prop where
  wellFormed : ctx.module.WellFormed
  consistent : ctx.schedule.Consistent ctx.module ctx.table.maxState (ctx.schedule.outline ctx.schedule.root)
  preorder : (ctx.schedule.outline ctx.schedule.root).preorder = List.range ctx.schedule.segments.size
  defines : ctx.table.Defines ctx.module ctx.schedule
  root : ∃ seg, RootFits ⟨ctx.module, ctx.schedule, ctx.table.maxState⟩ seg

/-- The schedule and the table that are made for a module that is accepted. -/
theorem scheduled_of_build {d : Draft} {top : List Nat} {m : Module} (hm : d.finish top = .ok m) {schedule : Schedule}
    (hschedule : m.schedule = .ok schedule) {st : Staged} (hst : m.stage schedule = .ok st) {table : ConditionTable}
    (htable : ConditionTable.build st.module st.schedule st.maxState = .ok table) :
    Scheduled ⟨st.module, st.schedule, table⟩ ∧ m.Alike st.module ∧ table.space = ⟨st.maxState⟩ := by
  have hwf := Module.wellFormed_of_finish hm
  obtain ⟨halike, hconsistent, hpreorder, root, hroot⟩ := Module.stage_consistent hwf hschedule hst
  have hspace := (ConditionTable.named_build htable).1
  have hmax : table.maxState = st.maxState := by rw [ConditionTable.maxState, hspace]
  have hdefines := ConditionTable.defines_build htable hconsistent hpreorder (Module.stage_blocks_nodup hwf hschedule hst)
    (Module.stage_distinctIds hwf hschedule hst)
  refine ⟨⟨halike.wellFormed hwf, ?_, hpreorder, hdefines, root, ?_⟩, halike, hspace⟩
  · exact hmax.symm ▸ hconsistent
  · exact hmax.symm ▸ hroot

namespace Scheduled

variable {ctx : Context} (h : Scheduled ctx)

include h

theorem mem_preorder {j : Nat} {seg : Segment} (hseg : ctx.schedule.segment j = .ok seg) :
    j ∈ (ctx.schedule.outline ctx.schedule.root).preorder :=
  Schedule.mem_preorder_of_segment h.preorder hseg

theorem pairwise_lt {o : Outline} (ho : o.Part (ctx.schedule.outline ctx.schedule.root)) :
    o.preorder.Pairwise (· < ·) :=
  List.Pairwise.sublist ho.sublist (h.preorder ▸ List.pairwise_lt_range)

/-- A segment that is not a leaf stands for a block. -/
theorem fits {i : Nat} {seg : Segment} (hseg : ctx.schedule.segment i = .ok seg) (hkind : seg.kind ≠ .leaf) :
    ∃ os n b segs, ctx.schedule.BlockFits ctx.module ctx.table.maxState i os n b seg segs ∧
      (Outline.node i os).Part (ctx.schedule.outline ctx.schedule.root) := by
  obtain ⟨o, rfl, hpart, hconsistent⟩ := h.consistent.exists_part (h.mem_preorder hseg)
  cases hconsistent with
  | leaf hleaf =>
    cases hleaf.segment.symm.trans hseg
    exact absurd hleaf.kind hkind
  | block hfits _ =>
    cases hfits.segment.symm.trans hseg
    exact ⟨_, _, _, _, hfits, hpart⟩

/-- A segment inside another stands in the sequence or among the branches of a block. -/
theorem parent {j p : Nat} {seg : Segment} (hseg : ctx.schedule.segment j = .ok seg) (hparent : seg.parent = some p) :
    ∃ os n b P segs, ctx.schedule.BlockFits ctx.module ctx.table.maxState p os n b P segs ∧
      (∀ o ∈ os, ctx.schedule.Consistent ctx.module ctx.table.maxState o) ∧ p < j ∧
      (Outline.node p os).Part (ctx.schedule.outline ctx.schedule.root) ∧ ∃ o ∈ os, o.index = j := by
  have hindex := ctx.schedule.index_outline ctx.schedule.root
  have hne : j ≠ (ctx.schedule.outline ctx.schedule.root).index := by
    rintro rfl
    obtain ⟨root, hroot⟩ := h.root
    rw [hindex] at hseg
    cases hseg.symm.trans hroot.segment
    rw [hroot.parent] at hparent
    cases hparent
  obtain ⟨i, os, n, b, P, segs, hfits, hos, hpart, o, ho, rfl⟩ := h.consistent.exists_parent (h.mem_preorder hseg) hne
  obtain ⟨c, hc, hoc⟩ := hfits.child ho
  cases hseg.symm.trans hoc
  cases hparent.symm.trans (hfits.parents seg hc)
  refine ⟨os, n, b, P, segs, hfits, hos, ?_, hpart, o, ho, rfl⟩
  have hsorted := h.pairwise_lt hpart
  rw [Outline.preorder_eq, List.pairwise_cons] at hsorted
  exact hsorted.1 o.index (List.mem_flatMap.2 ⟨o, ho, o.index_mem_preorder⟩)

/-- A state of a segment is a state of the one around it. -/
theorem mem_states_parent {j p k : Nat} {seg P : Segment} (hseg : ctx.schedule.segment j = .ok seg)
    (hparent : seg.parent = some p) (hk : k ∈ seg.states) (hP : ctx.schedule.segment p = .ok P) : k ∈ P.states := by
  obtain ⟨os, n, b, P', segs, hfits, _, _, _, o, ho, rfl⟩ := h.parent hseg hparent
  cases hP.symm.trans hfits.segment
  obtain ⟨c, hc, hoc⟩ := hfits.child ho
  cases hseg.symm.trans hoc
  exact hfits.states.sub seg hc k hk

/-- The segment at the root stands for the module. -/
theorem root_fits : ∃ os n b seg segs, ctx.schedule.outline ctx.schedule.root = .node ctx.schedule.root os ∧
    ctx.schedule.BlockFits ctx.module ctx.table.maxState ctx.schedule.root os n b seg segs ∧
    (∀ o ∈ os, ctx.schedule.Consistent ctx.module ctx.table.maxState o) ∧ b.kind = .module ∧
    ∀ {V : Type} (I : Interpretation V) (ρ : Valuation V) k, k ≤ ctx.table.maxState →
      ctx.schedule.Taken I ρ ctx.module k ctx.schedule.root := by
  obtain ⟨root, hroot⟩ := h.root
  have hindex := ctx.schedule.index_outline ctx.schedule.root
  have hconsistent := h.consistent
  generalize ctx.schedule.outline ctx.schedule.root = o at hindex hconsistent
  cases hconsistent with
  | leaf hleaf =>
    cases hindex
    cases hleaf.segment.symm.trans hroot.segment
    cases hleaf.block.symm.trans hroot.block
  | block hfits hos =>
    cases hindex
    refine ⟨_, _, _, _, _, rfl, hfits, hos, hfits.module.2 ?_, fun I ρ k hk => (hroot.taken I ρ h.wellFormed hk).2⟩
    cases hfits.segment.symm.trans hroot.segment
    exact hroot.parent

/-- Nothing stands before or after the segment at the root. -/
theorem root_bare {seg : Segment} (hseg : ctx.schedule.segment ctx.schedule.root = .ok seg) :
    seg.prolog = [] ∧ seg.epilog = [] := by
  obtain ⟨root, hroot⟩ := h.root
  obtain ⟨os, n, b, seg', segs, _, hfits, _⟩ := h.root_fits
  cases hseg.symm.trans hroot.segment
  cases hfits.segment.symm.trans hseg
  have hspelled : seg.spelled = [ctx.module.root] := hroot.spelled
  have hblock : n = ctx.module.root := Option.some.inj (hfits.block.symm.trans hroot.block)
  rw [hfits.spelled_eq, hblock] at hspelled
  simpa [List.append_eq_singleton_iff] using hspelled

end Scheduled

end Lowering

end Sequencer
