import Mathlib.Data.List.Chain
import Sequencer.Proofs.Compile
import Sequencer.Proofs.Graph.Search
import Sequencer.Proofs.Lowering.Transitions

set_option autoImplicit false

/-!
# Reachable states

Lowering the changes of state notes a move out of every segment that has a successor in its sequence. So every state of a
segment can be reached from the one in which the segment is entered, and every state of the module from the first one.
-/

namespace Sequencer

open Control

namespace Schedule

variable {m : Module} {s : Schedule} {maxState : Nat}

theorem StatesFit.max_ne_zero {seg : Segment} {segs : List Segment} (h : StatesFit maxState seg segs)
    (hlen : 1 < seg.states.length) : maxState ≠ 0 := by
  rintro rfl
  obtain ⟨x, y, rest, hx⟩ : ∃ x y rest, seg.states = x :: y :: rest := by
    match hstates : seg.states, hlen with
    | x :: y :: rest, _ => exact ⟨x, y, rest, rfl⟩
  have hne := h.nodup
  rw [hx, List.nodup_cons] at hne
  have hxle := h.le_max x (by simp [hx])
  have hyle := h.le_max y (by simp [hx])
  exact hne.1 (by simp [Nat.le_zero.1 hxle, Nat.le_zero.1 hyle])

theorem StatesFit.one_lt_length {seg : Segment} {segs : List Segment} (h : StatesFit maxState seg segs)
    (hlen : seg.states.length ≠ 1) : 1 < seg.states.length := by
  have hpos := List.length_pos_iff.2 h.ne_nil
  omega

theorem BlockFits.nodup_children {i n : Nat} {os : List Outline} {b : Block} {seg : Segment} {segs : List Segment}
    (h : BlockFits m s maxState i os n b seg segs) (hpre : (Outline.node i os).preorder.Pairwise (· < ·)) :
    seg.children.Nodup := by
  rw [Outline.preorder_eq, List.pairwise_cons] at hpre
  rw [h.children]
  exact (hpre.2.sublist (Outline.map_index_sublist os)).imp Nat.ne_of_lt

end Schedule

namespace Lowering

open Lower Comb

variable {ctx : Context} {s s' : Session}

theorem Changes.of_single {seg : Segment} {P : List Nat} (hmax : ctx.table.maxState ≠ 0)
    (hsingle : seg.states.length = 1) (hP : 1 < P.length) : Changes ctx seg P := by
  refine ⟨hmax, ?_, .inl hsingle⟩
  have hne : seg.states.length ≠ P.length := by omega
  simp [Segment.sameStates, hne]

theorem notes_stateCopies (hs : ∃ g, s.aspect = .transitions g) {i : Nat} {seg : Segment}
    (hseg : ctx.schedule.segment i = .ok seg) (hne : seg.states ≠ [])
    (hnode : ∀ n, seg.block = some n → ∃ b, ctx.module.stmt n = .ok (.block b) ∧ b.kind ≠ .module) {P : List Nat}
    (hchange : Changes ctx seg P) {x : Nat} {cond : Cond} (hleaves : LeavesTo ctx i x cond) {copies : List Comb.Block}
    (h : Runs ctx (stateCopies i seg (some P)) s copies s') : ∃ y ∈ seg.states, s'.Notes (y, x) := by
  obtain ⟨y, ys, hy⟩ := List.exists_cons_of_ne_nil hne
  have hfirst : seg.firstState? = some y := by rw [Segment.firstState?, hy, List.head?_cons]
  rcases shifts_stateCopies hs hseg hfirst hnode h with ⟨hstay, _⟩ | ⟨_, trs, s₁, s₂, htrs, hnotes, _⟩
  · exact absurd hchange hstay
  · obtain ⟨earlier, rfl⟩ := hleaves y _ (Schedule.lt_size_of_segment hseg) trs s₁ s₂ htrs
    exact ⟨y, by simp [hy], hnotes ⟨y, x, cond⟩ (by simp)⟩

theorem exists_run_of_mem {P : List Nat} {os : List Outline} {o : Outline} (ho : o ∈ os)
    {s s' : Session} (hs : ∃ g, s.aspect = .transitions g) {ss : List Comb.Stmt}
    (h : Runs ctx (lowerSegments P os) s ss s') :
    ∃ s₁ ts s₂, (∃ g, s₁.aspect = .transitions g) ∧ Runs ctx (lowerSegment (some P) o) s₁ ts s₂ ∧
      ∀ e, s₂.Notes e → s'.Notes e := by
  obtain ⟨s₁, ts, s₂, hbefore, hts, hafter⟩ := runs_of_mem_lowerSegments ho h
  exact ⟨s₁, ts, s₂, transitions_of_frame hs hbefore, hts, fun e he => he.of_frame hafter⟩

/-- In a segment of several states there is a segment that leads to where it does. -/
theorem exists_leavesTo {i n : Nat} {os : List Outline} {b : Control.Block} {seg : Segment} {segs : List Segment}
    (h : Schedule.BlockFits ctx.module ctx.schedule ctx.table.maxState i os n b seg segs)
    (hpre : (Outline.node i os).preorder.Pairwise (· < ·)) (hlen : seg.states.length ≠ 1) {x : Nat} {cond : Cond}
    (hleaves : LeavesTo ctx i x cond) : ∃ o ∈ os, LeavesTo ctx o.index x cond := by
  have hne : os ≠ [] := by
    rintro rfl
    exact hlen (h.states.single (List.forall₂_nil_left_iff.1 h.segments))
  have hmem := List.getLast_mem hne
  obtain ⟨c, hc, hlast⟩ := h.child hmem
  refine ⟨os.getLast hne, hmem, hleaves.child hlast (h.parents c hc) ?_ h.segment (.inr ?_)⟩
  · rw [Outline.preorder_eq, List.pairwise_cons] at hpre
    exact hpre.1 _ (List.mem_flatMap.2 ⟨_, hmem, Outline.index_mem_preorder _⟩)
  · have hnodup := h.nodup_children hpre
    have hsplit : seg.children = os.dropLast.map Outline.index ++ [(os.getLast hne).index] := by
      rw [h.children, ← List.map_singleton, ← List.map_append, List.dropLast_append_getLast hne]
    rw [hsplit] at hnodup ⊢
    have hnot : (os.getLast hne).index ∉ os.dropLast.map Outline.index := fun hin =>
      List.disjoint_of_nodup_append hnodup hin (List.mem_singleton_self _)
    rw [idxOf?_getD_eq hnot]
    simp

/-- A segment inside one of several states notes a move from one of its states to where it leads to. -/
theorem notes_of_leavesTo {o : Outline} (h : ctx.schedule.Consistent ctx.module ctx.table.maxState o)
    (hmax : ctx.table.maxState ≠ 0) (hpre : o.preorder.Pairwise (· < ·)) {seg : Segment}
    (hseg : ctx.schedule.segment o.index = .ok seg) (hparent : seg.parent ≠ none) {x : Nat} {cond : Cond}
    (hleaves : LeavesTo ctx o.index x cond) {P : List Nat} (hP : 1 < P.length) {s s' : Session}
    (hs : ∃ g, s.aspect = .transitions g) {ss : List Comb.Stmt} (hss : Runs ctx (lowerSegment (some P) o) s ss s') :
    ∃ y ∈ seg.states, s'.Notes (y, x) := by
  induction h generalizing seg P s ss s' with
  | leaf h =>
    cases h.segment.symm.trans hseg
    obtain ⟨guard, t, body, copies, s₁, s₂, _, _, hbody, hcopies, hmain⟩ :=
      runs_lowerSegment_leaf h.segment h.kind h.prolog h.epilog hss
    have hs₁ := transitions_of_frame hs (Framed.freeStmts _ _ _ _ _ _ _ rfl hbody)
    obtain ⟨y, hy, hnotes⟩ := notes_stateCopies hs₁ h.segment h.states.ne_nil
      (fun n hn => by rw [h.block] at hn; cases hn) (.of_single hmax (h.states.single rfl) hP) hleaves hcopies
    exact ⟨y, hy, hnotes.of_frame (Framed.withCopies _ _ _ _ _ _ _ _ rfl hmain)⟩
  | @block i n b seg os segs h hos ih =>
    cases h.segment.symm.trans hseg
    obtain ⟨r⟩ := runs_lowerSegment_block h.segment h.not_leaf h.block hss
    obtain ⟨hs₂, hs₃⟩ := r.transitions_inner hs
    by_cases hlen : seg.states.length = 1
    · have hnode : ∀ n', seg.block = some n' → ∃ b, ctx.module.stmt n' = .ok (.block b) ∧ b.kind ≠ .module := by
        intro n' hn
        cases h.block.symm.trans hn
        exact ⟨b, h.stmt, fun hm => hparent (h.module.1 hm)⟩
      obtain ⟨y, hy, hnotes⟩ := notes_stateCopies hs₃ h.segment h.states.ne_nil hnode (.of_single hmax hlen hP) hleaves
        r.copies_runs
      exact ⟨y, hy, r.notes_of_copies hnotes⟩
    · obtain ⟨o, ho, hleaves'⟩ := exists_leavesTo h hpre hlen hleaves
      obtain ⟨c, hc, hoc⟩ := h.child ho
      obtain ⟨s₁, ts, s₂, hs₁, hts, hlater⟩ := exists_run_of_mem ho hs₂ r.inner_runs
      obtain ⟨y, hy, hnotes⟩ := ih o ho (hpre.sublist (Outline.Part.nested ho (.refl o)).sublist) hoc (by simp [h.parents c hc]) hleaves'
        (h.states.one_lt_length hlen) hs₁ hts
      exact ⟨y, h.states.sub c hc y hy, r.notes_of_inner (hlater _ hnotes)⟩

theorem exists_timing {o : Outline} (h : ctx.schedule.Consistent ctx.module ctx.table.maxState o)
    {states : Option (List Nat)} {ss : List Comb.Stmt} (hss : Runs ctx (lowerSegment states o) s ss s') :
    ∃ u, ctx.table.timing o.index = .ok u := by
  cases h with
  | leaf h =>
    obtain ⟨_, t, _, _, _, _, _, ht, _⟩ := runs_lowerSegment_leaf h.segment h.kind h.prolog h.epilog hss
    exact ⟨t, ht⟩
  | block h hos =>
    obtain ⟨r⟩ := runs_lowerSegment_block h.segment h.not_leaf h.block hss
    exact ⟨r.timing, r.timing_eq⟩

section Leads

variable {E : Nat → Nat → Prop}

/-- The first state of each segment of a sequence can be reached from the first state of the sequence, if the states of
each segment can be reached from the first one of that segment. -/
theorem leads_sequence {i n : Nat} {os : List Outline} {b : Control.Block} {seg : Segment} {segs : List Segment}
    (h : Schedule.BlockFits ctx.module ctx.schedule ctx.table.maxState i os n b seg segs)
    (hos : ∀ o ∈ os, ctx.schedule.Consistent ctx.module ctx.table.maxState o)
    (hpre : (Outline.node i os).preorder.Pairwise (· < ·)) (hseq : seg.kind = .seq) (hs : ∃ g, s.aspect = .transitions g)
    {ss : List Comb.Stmt} (hss : Runs ctx (lowerSegments seg.states os) s ss s')
    (hE : ∀ a b, s'.Notes (a, b) → E a b)
    (hinside : ∀ o ∈ os, ∀ c z, ctx.schedule.segment o.index = .ok c → c.firstState? = some z →
      ∀ y ∈ c.states, Relation.ReflTransGen E z y)
    {x : Nat} (hfirst : seg.firstState? = some x) :
    ∀ o ∈ os, ∀ c z, ctx.schedule.segment o.index = .ok c → c.firstState? = some z → Relation.ReflTransGen E x z := by
  have hnodup := h.nodup_children hpre
  have hchain : os.IsChain fun o o' => ∃ c z, ctx.schedule.segment o.index = .ok c ∧ c.firstState? = some z ∧
      ∀ c' z', ctx.schedule.segment o'.index = .ok c' → c'.firstState? = some z' → Relation.ReflTransGen E z z' := by
    rw [List.isChain_iff_forall_rel_of_append_cons_cons]
    intro o o' before behind hsplit
    have ho : o ∈ os := by simp [hsplit]
    have ho' : o' ∈ os := by simp [hsplit]
    obtain ⟨c, hc, hoc⟩ := h.child ho
    obtain ⟨z, zs, hz⟩ := List.exists_cons_of_ne_nil ((hos o ho).states hoc).1
    have hzfirst : c.firstState? = some z := by rw [Segment.firstState?, hz, List.head?_cons]
    refine ⟨c, z, hoc, hzfirst, ?_⟩
    intro c' z' hoc' hz'
    obtain ⟨c₁, hc', hoc₁⟩ := h.child ho'
    cases hoc'.symm.trans hoc₁
    obtain ⟨s₁, ts, s₂, hs₁, hts, hlater⟩ := exists_run_of_mem ho hs hss
    obtain ⟨u, hu⟩ := exists_timing (hos o ho) hts
    have hchildren : seg.children = before.map Outline.index ++ o.index :: o'.index :: behind.map Outline.index := by
      rw [h.children, hsplit, List.map_append, List.map_cons, List.map_cons]
    have hne : o ≠ o' := by
      rintro rfl
      rw [hchildren] at hnodup
      exact (List.nodup_cons.1 (List.nodup_append.1 hnodup).2.1).1 List.mem_cons_self
    -- Both segments have states of their own, so there are several.
    have hlen : seg.states.length ≠ 1 := by
      intro hone
      obtain ⟨w, hw⟩ := List.length_eq_one_iff.1 hone
      have hzw := h.states.sub c hc z (List.mem_of_head? hzfirst)
      have hzw' := h.states.sub c' hc' z' (List.mem_of_head? hz')
      rw [hw, List.mem_singleton] at hzw hzw'
      subst hzw
      exact hne (h.eq_of_state hseq ho ho' hoc hoc' (List.mem_of_head? hzfirst) (hzw' ▸ List.mem_of_head? hz'))
    have hlen' := h.states.one_lt_length hlen
    obtain ⟨y, hy, hnotes⟩ := notes_of_leavesTo (hos o ho) (h.states.max_ne_zero hlen')
      (hpre.sublist (Outline.Part.nested ho (.refl o)).sublist) hoc (by simp [h.parents c hc])
      (.of_successor h.segment hseq hoc hoc' hchildren hnodup (h.parents c hc) hz' hu) hlen' hs₁ hts
    exact (hinside o ho c z hoc hzfirst y hy).tail (hE y z' (hlater _ hnotes))
  refine hchain.induction _ os ?_ ?_
  · rintro o o' ⟨c, z, hoc, hz, hnext⟩ hx c' z' hoc' hz'
    exact (hx c z hoc hz).trans (hnext c' z' hoc' hz')
  · intro hne c z hoc hz
    obtain ⟨o, rest, rfl⟩ := List.exists_cons_of_ne_nil hne
    obtain ⟨c', cs, hoc', _, rfl⟩ := List.forall₂_cons_left_iff.1 h.segments
    cases hoc.symm.trans hoc'
    have hhead := h.states.head_eq c rfl
    rw [hz, hfirst] at hhead
    cases hhead
    exact .refl

/-- Each state of a segment can be reached from the one in which it is entered. -/
theorem leads_of_runs {o : Outline} (h : ctx.schedule.Consistent ctx.module ctx.table.maxState o)
    (hpre : o.preorder.Pairwise (· < ·)) {seg : Segment} (hseg : ctx.schedule.segment o.index = .ok seg) {x : Nat}
    (hfirst : seg.firstState? = some x) {states : Option (List Nat)} {s s' : Session}
    (hs : ∃ g, s.aspect = .transitions g) {ss : List Comb.Stmt} (hss : Runs ctx (lowerSegment states o) s ss s')
    (hE : ∀ a b, s'.Notes (a, b) → E a b) : ∀ y ∈ seg.states, Relation.ReflTransGen E x y := by
  induction h generalizing seg x states s ss s' with
  | leaf h =>
    cases h.segment.symm.trans hseg
    intro y hy
    rw [mem_states_iff (h.states.single rfl), hfirst] at hy
    cases hy
    exact .refl
  | @block i n b seg os segs h hos ih =>
    cases h.segment.symm.trans hseg
    obtain ⟨r⟩ := runs_lowerSegment_block h.segment h.not_leaf h.block hss
    have hs₂ := (r.transitions_inner hs).1
    have hE' : ∀ a b, r.s₃.Notes (a, b) → E a b := fun a b he => hE a b (r.notes_of_inner he)
    have hinside : ∀ o ∈ os, ∀ c z, ctx.schedule.segment o.index = .ok c → c.firstState? = some z →
        ∀ y ∈ c.states, Relation.ReflTransGen E z y := by
      intro o ho c z hoc hz
      obtain ⟨s₁, ts, s₂, hs₁, hts, hlater⟩ := exists_run_of_mem ho hs₂ r.inner_runs
      exact ih o ho (hpre.sublist (Outline.Part.nested ho (.refl o)).sublist) hoc hz hs₁ hts fun a b he => hE' a b (hlater _ he)
    intro y hy
    by_cases hsegs : segs = []
    · rw [mem_states_iff (h.states.single hsegs), hfirst] at hy
      cases hy
      exact .refl
    · obtain ⟨c, hc, hyc⟩ := h.states.cover hsegs y hy
      obtain ⟨o, ho, hoc⟩ := exists_of_mem_forall₂ h.segments hc
      obtain ⟨z, zs, hz⟩ := List.exists_cons_of_ne_nil (List.ne_nil_of_mem hyc)
      have hzfirst : c.firstState? = some z := by rw [Segment.firstState?, hz, List.head?_cons]
      refine Relation.ReflTransGen.trans ?_ (hinside o ho c z hoc hzfirst y hyc)
      rcases h.kind with ⟨hseq, _⟩ | ⟨hmutex, _⟩
      · exact leads_sequence h hos hpre hseq hs₂ r.inner_runs hE' hinside hfirst o ho c z hoc hzfirst
      · have hcommon := h.states.first_eq hmutex c hc
        rw [hzfirst, hfirst] at hcommon
        cases hcommon
        exact .refl

end Leads

/-- Every state of a scheduled module can be reached over the moves noted for it. -/
theorem Scheduled.unreachable_eq_nil (h : Scheduled ctx) {tree : Comb.Block}
    (htree : runAspect ctx s (.freshTransitions ctx.table.maxState) = (.ok tree, s')) :
    ∃ g, s'.aspect = .transitions g ∧ g.maxState = ctx.table.maxState ∧ g.unreachable = [] := by
  obtain ⟨ss, s₁, hss, hframe, _⟩ := lowerModule_cases htree
  have hstart : ∃ g, ({ s with aspect := .freshTransitions ctx.table.maxState } : Session).aspect = .transitions g := ⟨_, rfl⟩
  obtain ⟨g, hg, hwithin⟩ :=
    ((Framed.lowerSegment _ _ _ _ _ _ rfl hss).trans hframe).graph (.start ctx.table.maxState) rfl
  refine ⟨g, hg, hwithin.maxState, TransitionGraph.unreachable_eq_nil ?_⟩
  intro x hx
  obtain ⟨root, hroot⟩ := h.root
  have hindex := ctx.schedule.index_outline ctx.schedule.root
  have hfirst : root.firstState? = some 0 := by
    rw [Segment.firstState?, hroot.states, Numbering.span, List.head?_cons]
  refine leads_of_runs h.consistent (h.pairwise_lt (.refl _)) (hindex.symm ▸ hroot.segment) hfirst hstart hss ?_ x ?_
  · intro a b hnotes
    obtain ⟨g', hg', he⟩ := hnotes.of_frame hframe
    cases hg.symm.trans hg'
    exact he
  · rw [hroot.states, Numbering.mem_span]
    rw [hwithin.maxState] at hx
    change x ≤ ctx.table.maxState at hx
    change x = 0 ∨ 0 < x ∧ x ≤ ctx.table.maxState
    omega

/-- The moves noted for a module reach all of its states, so it makes no difference whether they are validated. -/
theorem lowered_states_reachable {d : Draft} {top : List Nat} {m : Module} (hm : d.finish top = .ok m)
    {schedule : Schedule} (hschedule : m.schedule = .ok schedule) {st : Staged} (hst : m.stage schedule = .ok st) :
    (∀ table s tree s', ConditionTable.build st.module st.schedule st.maxState = .ok table →
      runAspect ⟨st.module, st.schedule, table⟩ s (.freshTransitions st.maxState) = (.ok tree, s') →
      ∃ g, s'.aspect = .transitions g ∧ g.maxState = st.maxState ∧ g.unreachable = []) ∧
    ∀ settings : Settings, st.lower { settings with validate := true } = st.lower { settings with validate := false } := by
  have hreach : ∀ table s tree s', ConditionTable.build st.module st.schedule st.maxState = .ok table →
      runAspect ⟨st.module, st.schedule, table⟩ s (.freshTransitions st.maxState) = (.ok tree, s') →
      ∃ g, s'.aspect = .transitions g ∧ g.maxState = st.maxState ∧ g.unreachable = [] := by
    intro table s tree s' htable htree
    obtain ⟨hscheduled, _, hspace⟩ := scheduled_of_build hm hschedule hst htable
    have hmax : table.maxState = st.maxState := by rw [ConditionTable.maxState, hspace]
    rw [← hmax] at htree ⊢
    exact hscheduled.unreachable_eq_nil htree
  refine ⟨hreach, ?_⟩
  intro settings
  refine Checked.bind_congr fun table htable => ?_
  have hmax : table.maxState = st.maxState := by
    rw [ConditionTable.maxState, (ConditionTable.named_build htable).1]
  have hvalidate : Context.signals ⟨st.module, st.schedule, table⟩ true =
      Context.signals ⟨st.module, st.schedule, table⟩ false := by
    refine signals_validate ?_ true
    intro s tree s' htree
    obtain ⟨g, hg, _, hnil⟩ := hreach table s tree s' htable (hmax ▸ htree)
    exact ⟨g, hg, hnil⟩
  dsimp only
  rw [hvalidate]

/-- A loop over two values that may be skipped and one of an interface, and a value after it. -/
def poll : Draft where
  name := "poll"
  registers := .empty
  vars := .empty
  inputs := [⟨"din", .bool⟩]
  outputs := [⟨"dout", .bool⟩]
  stmts := .ofList [Draft.emit [some (.flag "a")], Draft.emit [some (.flag "b")], Draft.conditional (.flag "g") [0, 1],
    Draft.emit [some (.flag "c")], Draft.interface "din" [3], Draft.loop (.flag "done") [2, 4],
    Draft.emit [some (.flag "d")]]

theorem poll_states_reachable : ∃ schedule st table tree s' g, poll.finish [5, 6] = .ok (poll.enclose [5, 6]) ∧
    (poll.enclose [5, 6]).schedule = .ok schedule ∧ (poll.enclose [5, 6]).stage schedule = .ok st ∧
    ConditionTable.build st.module st.schedule st.maxState = .ok table ∧
    runAspect ⟨st.module, st.schedule, table⟩ (.start .outputs) (.freshTransitions st.maxState) = (.ok tree, s') ∧
    st.maxState = 3 ∧ s'.aspect = .transitions g ∧ g.maxState = 3 ∧ g.unreachable = [] ∧
    ∀ settings : Settings, st.lower { settings with validate := true } = st.lower { settings with validate := false } := by
  have hfacts : ((poll.enclose [5, 6]).schedule.toOption.any fun schedule =>
      ((poll.enclose [5, 6]).stage schedule).toOption.any fun st => st.maxState == 3 &&
        (ConditionTable.build st.module st.schedule st.maxState).toOption.any fun table =>
          (runAspect ⟨st.module, st.schedule, table⟩ (.start .outputs)
            (.freshTransitions st.maxState)).1.toOption.isSome) = true := by
    decide +kernel
  obtain ⟨schedule, hschedule, hfacts⟩ := Checked.exists_of_any hfacts
  obtain ⟨st, hst, hfacts⟩ := Checked.exists_of_any hfacts
  obtain ⟨hmax, hfacts⟩ := Bool.and_eq_true_iff.1 hfacts
  obtain ⟨table, htable, hfacts⟩ := Checked.exists_of_any hfacts
  obtain ⟨tree, htree⟩ := Checked.exists_ok hfacts
  have hm : poll.finish [5, 6] = .ok (poll.enclose [5, 6]) := rfl
  obtain ⟨hreach, hsame⟩ := lowered_states_reachable hm hschedule hst
  obtain ⟨g, hg, hgmax, hnil⟩ := hreach table _ tree _ htable (Prod.ext htree rfl)
  have hthree : st.maxState = 3 := eq_of_beq hmax
  exact ⟨schedule, st, table, tree, _, g, hm, hschedule, hst, htable, Prod.ext htree rfl, hthree, hg,
    hgmax.trans hthree, hnil, hsame⟩

end Lowering

end Sequencer
