import Sequencer.Proofs.Condition.Cycle
import Sequencer.Proofs.Condition.Descent
import Sequencer.Proofs.Lowering.Machine

set_option autoImplicit false

/-!
# Conditions of segments

The conditions of a sequence are those of the one segment in it that has the current state, and it is left from its last
segment only. With values for which all definitions of the table hold, nothing is left without completing its cycle: no
segment, no block and no yield.
-/

namespace Sequencer

open Control

/-- The segment at `c` has the state `k`. -/
def Schedule.InState (s : Schedule) (k c : Nat) : Prop := ∃ seg, s.segment c = .ok seg ∧ k ∈ seg.states

/-- In a sequence that is not empty, each state belongs to one segment. -/
theorem Schedule.BlockFits.exists_inState {m : Module} {s : Schedule} {maxState i n k : Nat} {os : List Outline} {b : Block}
    {seg : Segment} {segs : List Segment} (h : s.BlockFits m maxState i os n b seg segs) (hkind : seg.kind = .seq)
    (hne : seg.children ≠ []) (hmem : k ∈ seg.states) :
    ∃ o ∈ os, s.InState k o.index ∧ ∀ o' ∈ os, s.InState k o'.index → o' = o := by
  have hsegs : segs ≠ [] := by
    rintro rfl
    rw [h.children, List.forall₂_nil_right_iff.1 h.segments] at hne
    exact hne rfl
  obtain ⟨c, hc, hkc⟩ := h.states.cover hsegs k hmem
  obtain ⟨o, ho, hoc⟩ := exists_of_mem_forall₂ h.segments hc
  refine ⟨o, ho, ⟨c, hoc, hkc⟩, ?_⟩
  rintro o' ho' ⟨c', hoc', hkc'⟩
  exact h.eq_of_state hkind ho' ho hoc' hoc hkc' hkc

namespace ConditionTable

/-- The conditions of what is inside the block of the segment at `i`. The kind of the block makes from them those that the
table defines for it. -/
def Body (t : ConditionTable) (m : Module) (s : Schedule) (i : Nat) (body : Timing) : Prop :=
  ∃ d seg n b id u, d.refs = t.refs ∧ Defined ⟨m, s, t.space⟩ d i seg n b id body u ∧
    t.get? (Name.cycleCond id) = some u.cycle ∧ t.get? (Name.exitCond id) = some u.exit

end ConditionTable

/-- Of the segments in a sequence one has the current state. The body of the sequence completes its cycle when that segment
does, and is left when that segment is the last one and is left. -/
theorem sequence_follows_live_segment {d : Draft} {top : List Nat} {m : Module} (hm : d.finish top = .ok m)
    {schedule : Schedule} (hschedule : m.schedule = .ok schedule) {st : Staged} (hst : m.stage schedule = .ok st)
    {table : ConditionTable} (htable : ConditionTable.build st.module st.schedule st.maxState = .ok table) {V : Type}
    (I : Interpretation V) (ρ : Valuation V) {i : Nat} {seg : Segment} (hseg : st.schedule.segment i = .ok seg)
    (hkind : seg.kind = .seq) (hne : seg.children ≠ []) {k : Nat} (hk : StateSpace.Holds I ρ ⟨st.maxState⟩ k)
    (hmem : k ∈ seg.states) :
    seg.children.Nodup ∧ ∃ c ∈ seg.children, st.schedule.InState k c ∧
      (∀ c' ∈ seg.children, st.schedule.InState k c' → c' = c) ∧
      ∃ body, table.Body st.module st.schedule i body ∧
        (Cond.holds I ρ body.cycle = true ↔ table.Cycles I ρ c) ∧
        (Cond.holds I ρ body.exit = true ↔ seg.children.getLast? = some c ∧ table.Exits I ρ c) := by
  obtain ⟨hsched, _, hspace⟩ := Lowering.scheduled_of_build hm hschedule hst htable
  obtain ⟨o, rfl, hpart, hconsistent⟩ := hsched.consistent.exists_part (hsched.mem_preorder hseg)
  cases hconsistent with
  | leaf h =>
    cases h.segment.symm.trans hseg
    rw [h.kind] at hkind
    cases hkind
  | @block i n b seg' os segs h hos =>
    cases h.segment.symm.trans hseg
    have hnodup := h.nodup_children (hsched.pairwise_lt hpart)
    have hstates : ∀ c ∈ segs, c.states ≠ [] ∧ c.states.Nodup ∧ ∀ x ∈ c.states, x ≤ table.maxState := by
      intro c hc
      obtain ⟨o, ho, hoc⟩ := exists_of_mem_forall₂ h.segments hc
      exact (hos o ho).states hoc
    rw [← hspace] at hk
    obtain ⟨o, ho, ⟨c, hoc, hkc⟩, hunique⟩ := h.exists_inState hkind hne hmem
    obtain ⟨d, n', b', id, body, u, hrefs, hdef, hcycle, hexit⟩ := hsched.defines i seg h.segment h.not_leaf
    have hbody := hdef.body
    rw [ConditionTable.bodyTiming, if_pos hkind] at hbody
    -- The tests of the state leave of the conditions of the segments only those of the live one.
    refine ⟨hnodup, o.index, h.children ▸ List.mem_map_of_mem ho, ⟨c, hoc, hkc⟩, ?_, body,
      ⟨d, seg, n', b', id, u, hrefs, hdef, hcycle, hexit⟩,
      ConditionTable.cycle_seqTiming_iff h hkind hstates hk hmem ho hoc hkc hrefs hbody,
      ConditionTable.exit_seqTiming_iff h hkind hstates hk hmem ho hoc hkc hrefs hbody⟩
    rw [h.children]
    intro c' hc' hstate
    obtain ⟨o', ho', rfl⟩ := List.mem_map.1 hc'
    rw [hunique o' ho' hstate]

/-- Pairs of values until a flag is set, and one more value. -/
def burst : Draft where
  name := "burst"
  registers := .empty
  vars := .empty
  inputs := []
  outputs := [⟨"dout", .bool⟩]
  stmts := .ofList [Draft.emit [some (.flag "a")], Draft.emit [some (.flag "b")], Draft.loop (.flag "done") [0, 1],
    Draft.emit [some (.flag "c")]]

def burstStaged : Staged where
  module := { burst.enclose [2, 3] with
    stmts := .ofList [.yield ⟨[some (.flag "a")], some 2⟩, .yield ⟨[some (.flag "b")], some 3⟩,
      .block ⟨.loop (some (.flag "done")), none, [0, 1], some 1⟩, .yield ⟨[some (.flag "c")], some 4⟩,
      .block ⟨.module, none, [2, 3], some 0⟩] }
  schedule := ⟨.ofList [⟨.seq, some 4, none, [1, 4], [0, 1, 2], [], [], []⟩,
    ⟨.seq, some 2, some 0, [2, 3], [0, 1], [], [], []⟩,
    ⟨.leaf, none, some 1, [], [0], [0], [], []⟩, ⟨.leaf, none, some 1, [], [1], [1], [], []⟩,
    ⟨.leaf, none, some 0, [], [2], [3], [], []⟩], 0⟩
  maxState := 2

theorem burst_stage : ((burst.enclose [2, 3]).schedule >>= (burst.enclose [2, 3]).stage) = .ok burstStaged := by
  decide +kernel

/-- The second value of a pair is taken and the flag is set. -/
def burstEnding : Valuation Int := StateSpace.load ⟨2⟩ (.allBut ["exit_cond_block_0"]) 1

/-- In the state of the second value, the loop follows the segment of that value, which is its last one. -/
theorem burst_follows_second : ∃ schedule table, (burst.enclose [2, 3]).schedule = .ok schedule ∧
    (burst.enclose [2, 3]).stage schedule = .ok burstStaged ∧
    ConditionTable.build burstStaged.module burstStaged.schedule 2 = .ok table ∧
    StateSpace.Holds .integers burstEnding ⟨2⟩ 1 ∧
    ∃ body, table.Body burstStaged.module burstStaged.schedule 1 body ∧
      (Cond.holds .integers burstEnding body.cycle = true ↔ table.Cycles .integers burstEnding 3) ∧
      (Cond.holds .integers burstEnding body.exit = true ↔ table.Exits .integers burstEnding 3) := by
  have hm : burst.finish [2, 3] = .ok (burst.enclose [2, 3]) := rfl
  obtain ⟨schedule, hschedule, hst⟩ := Checked.bind_eq_ok.1 burst_stage
  obtain ⟨table, htable⟩ := Checked.exists_ok (x := ConditionTable.build burstStaged.module burstStaged.schedule 2)
    (by decide +kernel)
  have hstate : StateSpace.Holds .integers burstEnding ⟨2⟩ 1 :=
    (StateSpace.distinguished_integers ⟨2⟩).holds (by decide) rfl
  obtain ⟨_, c, _, _, hunique, body, hbody, hcycle, hexit⟩ := sequence_follows_live_segment hm hschedule hst htable .integers
    burstEnding (i := 1) rfl rfl (by decide) hstate (by decide)
  cases hunique 3 (by decide) ⟨_, rfl, by decide⟩
  exact ⟨schedule, table, hschedule, hst, htable, hstate, body, hbody, hcycle, hexit.trans (and_iff_right rfl)⟩

section Satisfied

variable {d : Draft} {top : List Nat} {m : Module} (hm : d.finish top = .ok m) {schedule : Schedule}
  (hschedule : m.schedule = .ok schedule) {st : Staged} (hst : m.stage schedule = .ok st) {table : ConditionTable}
  (htable : ConditionTable.build st.module st.schedule st.maxState = .ok table) {V : Type} {I : Interpretation V}
  {ρ : Valuation V} (hsat : table.Satisfied I ρ)

include hm hschedule hst htable hsat

/-- Each segment has conditions, and is not left without completing its cycle. -/
theorem exists_timing {i : Nat} {seg : Segment} (hseg : st.schedule.segment i = .ok seg) :
    ∃ u, table.timing i = .ok u ∧ (Cond.holds I ρ u.exit = true → Cond.holds I ρ u.cycle = true) := by
  obtain ⟨hsched, _⟩ := Lowering.scheduled_of_build hm hschedule hst htable
  have hpairs := ConditionTable.pairs_build htable hsched.preorder
    (Module.stage_distinctIds (Module.wellFormed_of_finish hm) hschedule hst)
  obtain ⟨u, hu⟩ := hsched.defines.exists_timing hpairs hseg
  refine ⟨u, hu, fun hexit => ?_⟩
  obtain ⟨o, rfl, _, hconsistent⟩ := hsched.consistent.exists_part (hsched.mem_preorder hseg)
  exact (ConditionTable.cycles_iff hu).1 (ConditionTable.cycles_of_exits hsat hsched.defines hpairs hconsistent
    ((ConditionTable.exits_iff hu).2 hexit))

/-- A block with a segment is not left without completing its cycle. -/
theorem cycle_of_exit_block {i n id : Nat} {seg : Segment} (hseg : st.schedule.segment i = .ok seg)
    (hblock : seg.block = some n) (hid : st.module.idAt n = some id)
    (hexit : (Expr.flag (Name.exitCond id)).holds I ρ = true) : (Expr.flag (Name.cycleCond id)).holds I ρ = true := by
  obtain ⟨hsched, _⟩ := Lowering.scheduled_of_build hm hschedule hst htable
  obtain ⟨o, rfl, _, hconsistent⟩ := hsched.consistent.exists_part (hsched.mem_preorder hseg)
  have hkind := hconsistent.not_leaf_of_block hseg hblock
  obtain ⟨d, n', b, id', body, u, hrefs, hdef, _⟩ := hsched.defines o.index seg hseg hkind
  cases hblock.symm.trans hdef.block
  rw [Module.idAt_of_stmt hdef.stmt] at hid
  cases hdef.id_eq.symm.trans hid
  obtain ⟨v, hv, hcompletes⟩ := exists_timing hm hschedule hst htable hsat hseg
  cases (ConditionTable.timing_of_refs hrefs hdef.refs).symm.trans hv
  exact hcompletes hexit

end Satisfied

/-- With values for which all definitions hold, a segment that is left completes its cycle, and so do the blocks and yields
for which the table has conditions. -/
theorem leaving_completes_cycle {d : Draft} {top : List Nat} {m : Module} (hm : d.finish top = .ok m)
    {schedule : Schedule} (hschedule : m.schedule = .ok schedule) {st : Staged} (hst : m.stage schedule = .ok st)
    {table : ConditionTable} (htable : ConditionTable.build st.module st.schedule st.maxState = .ok table) {V : Type}
    (I : Interpretation V) (ρ : Valuation V) (hsat : table.Satisfied I ρ) :
    (∀ i seg, st.schedule.segment i = .ok seg → ∃ u, table.timing i = .ok u ∧
      (Cond.holds I ρ u.exit = true → Cond.holds I ρ u.cycle = true)) ∧
    ∀ id name, Name.OfBlock id name → table.contains name = true →
      (Expr.flag (Name.exitCond id)).holds I ρ = true → (Expr.flag (Name.cycleCond id)).holds I ρ = true := by
  refine ⟨fun i seg hseg => exists_timing hm hschedule hst htable hsat hseg, ?_⟩
  intro id name hname hcontains hexit
  have hwf := Module.wellFormed_of_finish hm
  obtain ⟨hfits, _⟩ := (Module.meets_table hwf hschedule hst (fun _ h => absurd h not_false)
    (fun _ h => absurd h not_false)).result table htable
  obtain ⟨ids, _, hlists, hids⟩ := hfits.listed
  obtain ⟨id', hmem, hname'⟩ := hlists.contains_iff.1 hcontains
  cases hname'.inj hname
  obtain ⟨n, htimed, hn⟩ := (hids id).1 hmem
  rcases htimed with ⟨i, seg, hseg, hblock⟩ | ⟨hin, y, hy⟩
  · exact cycle_of_exit_block hm hschedule hst htable hsat hseg hblock hn hexit
  · -- The two conditions of a yield have one definition.
    obtain ⟨_, hconsistent, _⟩ := Module.stage_consistent hwf hschedule hst
    have hnumbers := (hconsistent.takesId ((Staged.timed_iff hwf hschedule hst n).2 (.inr ⟨hin, y, hy⟩))).1
    obtain ⟨c, hc⟩ := Listing.exists_of_contains (hlists.contains_iff.2 ⟨id, hmem, .inr rfl⟩)
    rw [Module.idAt_of_stmt hy] at hn
    have hcycle := ConditionTable.paired_build htable (Module.stage_distinctIds hwf hschedule hst)
      (Schedule.mem_numbering.1 hnumbers) hy hn hc
    rw [hsat _ c hcycle, ← hsat _ c hc]
    exact hexit

/-- When the loop is left, its cycle and that of the value that ends it complete. -/
theorem burst_left_completes : ∃ schedule table, (burst.enclose [2, 3]).schedule = .ok schedule ∧
    (burst.enclose [2, 3]).stage schedule = .ok burstStaged ∧
    ConditionTable.build burstStaged.module burstStaged.schedule 2 = .ok table ∧
    table.Satisfied .integers burstEnding ∧ table.Exits .integers burstEnding 1 ∧ table.Cycles .integers burstEnding 1 ∧
    (Expr.flag (Name.cycleCond 3)).holds .integers burstEnding = true := by
  have hm : burst.finish [2, 3] = .ok (burst.enclose [2, 3]) := rfl
  have hchecks : ((ConditionTable.build burstStaged.module burstStaged.schedule 2).toOption.any fun table =>
      decide (table.Satisfied .integers burstEnding) && table.contains (Name.exitCond 3) &&
        (table.timing 1).toOption.any fun u => Cond.holds .integers burstEnding u.exit) = true := by
    decide +kernel
  obtain ⟨schedule, hschedule, hst⟩ := Checked.bind_eq_ok.1 burst_stage
  obtain ⟨table, htable, hchecks⟩ := Checked.exists_of_any hchecks
  simp only [Bool.and_eq_true, decide_eq_true_eq] at hchecks
  obtain ⟨⟨hsat, hcontains⟩, hexit⟩ := hchecks
  obtain ⟨u, hu, hexit⟩ := Checked.exists_of_any hexit
  obtain ⟨hsegments, hnames⟩ := leaving_completes_cycle hm hschedule hst htable .integers burstEnding hsat
  obtain ⟨v, hv, hcompletes⟩ := hsegments 1 _ rfl
  cases hu.symm.trans hv
  exact ⟨schedule, table, hschedule, hst, htable, hsat, ⟨u, hu, hexit⟩, ⟨u, hu, hcompletes hexit⟩,
    hnames 3 _ (.inr rfl) hcontains (by decide +kernel)⟩

end Sequencer
