import Sequencer.Proofs.Lowering.Machine
import Sequencer.Proofs.Lowering.Registers
import Sequencer.Proofs.Schedule.Followers

set_option autoImplicit false

/-!
# Leaving a segment

The state changes to the one in which a segment of a sequence is entered only if the segment before it is left. What stands
after a segment runs if it is left in its last state. A segment that is left in another state, such as a conditional of
several states that is skipped, leaves out what stands after it.
-/

namespace Sequencer

open Control

theorem Module.executed_subset {V : Type} {I : Interpretation V} {ρ : Valuation V} (m : Module) (o : Outline) :
    m.executed I ρ o ⊆ o.preorder := by
  induction o using Outline.ind with
  | node i os ih =>
    intro x hx
    rw [Module.executed] at hx
    split at hx
    · split at hx
      · rw [executedAll_eq] at hx
        obtain ⟨o, ho, hx⟩ := List.mem_flatMap.1 hx
        exact Outline.mem_preorder_of_mem_nested ho (ih o ho hx)
      · cases hx
    · rw [List.mem_singleton.1 hx]
      exact Outline.index_mem_preorder _

theorem Module.performed_subset {V : Type} {I : Interpretation V} {ρ : Valuation V} (m : Module) (js : List Nat) :
    m.performed I ρ js ⊆ js.flatMap fun j => (m.outline j).preorder := by
  intro x hx
  obtain ⟨j, hj, hx⟩ := mem_performed.1 hx
  exact List.mem_flatMap.2 ⟨j, hj, m.executed_subset _ hx⟩

theorem Module.values_register_ne_nil {m : Module} {r : String} {js : List Nat} :
    m.values (.register, r) js ≠ [] ↔ ∃ j ∈ js, ∃ v, m.stmt j = .ok (.update r v) := by
  constructor
  · intro hne
    obtain ⟨v, hv⟩ := List.exists_mem_of_ne_nil _ hne
    obtain ⟨j, hj, hv⟩ := List.mem_filterMap.1 hv
    refine ⟨j, hj, ?_⟩
    cases hst : m.stmt j with
    | error e =>
      rw [hst] at hv
      cases hv
    | ok st =>
      rw [hst] at hv
      change st.valueFor (.register, r) = some v at hv
      cases st with
      | block b | yield y => cases hv
      | update r' v' =>
        rw [Stmt.valueFor_of_write rfl] at hv
        split at hv
        · rename_i heq
          cases heq
          exact ⟨v', rfl⟩
        · cases hv
      | assign x v' =>
        rw [Stmt.valueFor_of_write rfl, if_neg (by simp)] at hv
        cases hv
  · rintro ⟨j, hj, v, hst⟩
    refine List.ne_nil_of_mem (mem_values (v := v) hst ?_ hj)
    rw [Stmt.valueFor_of_write rfl, if_pos rfl]

namespace Lowering

open Lower Comb

variable {ctx : Context} {V : Type} {I : Interpretation V} {ρ : Valuation V} {k : Nat}

theorem mem_executed_block {i n : Nat} {os : List Outline} {b : Control.Block} {seg : Segment} {segs : List Segment}
    (h : ctx.schedule.BlockFits ctx.module ctx.table.maxState i os n b seg segs) {x : Nat} :
    x ∈ ctx.executed I ρ k (.node i os) ↔
      (seg.firstState? = some k ∧ x ∈ ctx.module.performed I ρ seg.prolog ∨
        ctx.schedule.Taken I ρ ctx.module k i ∧ ∃ o ∈ os, x ∈ ctx.executed I ρ k o) ∨
      (seg.lastState? = some k ∧ ctx.table.Exits I ρ i) ∧ x ∈ ctx.module.performed I ρ seg.epilog := by
  have hif : ∀ {c : Prop} [Decidable c] {l : List Nat}, x ∈ (if c then l else []) ↔ c ∧ x ∈ l := by
    intro c _ l
    split <;> simp [*]
  rw [executed_block h.segment h.not_leaf, List.mem_append, List.mem_append, hif, hif, hif, Context.executedAll_eq,
    List.mem_flatMap]

section Places

variable (hwf : ctx.module.WellFormed) {o : Outline} (h : ctx.schedule.Consistent ctx.module ctx.table.maxState o)
  {seg : Segment} (hseg : ctx.schedule.segment o.index = .ok seg)

include hwf h hseg

/-- What runs in a segment stands in it. -/
theorem executed_subset_reach : ctx.executed I ρ k o ⊆ Schedule.reach ctx.module seg := by
  induction h generalizing seg with
  | @leaf i leaf h =>
    cases h.segment.symm.trans hseg
    intro x hx
    have hspelled : leaf.spelled = leaf.stmts := by simp [Segment.spelled, h.kind, h.prolog, h.epilog]
    rw [executed_leaf [] h] at hx
    rw [Schedule.reach, hspelled]
    split at hx
    · exact ctx.module.performed_subset _ hx
    · cases hx
  | block h hos ih =>
    cases h.segment.symm.trans hseg
    intro x hx
    refine (h.reach_sublist hwf).subset ?_
    rw [List.mem_append, List.mem_append]
    rcases (mem_executed_block h).1 hx with (⟨_, hx⟩ | ⟨_, o, ho, hx⟩) | ⟨_, hx⟩
    · exact .inl (.inl (ctx.module.performed_subset _ hx))
    · obtain ⟨c, hc, hoc⟩ := h.child ho
      exact .inl (.inr (List.mem_cons_of_mem _ (List.mem_flatMap.2 ⟨c, hc, ih o ho hoc hx⟩)))
    · exact .inr (ctx.module.performed_subset _ hx)

/-- A segment reaches the statements of all segments below it. -/
theorem spelled_subset_reach {c : Nat} (hc : c ∈ o.preorder) {C : Segment} (hC : ctx.schedule.segment c = .ok C) :
    C.spelled ⊆ Schedule.reach ctx.module seg := by
  have hself : ∀ S : Segment, S.spelled ⊆ Schedule.reach ctx.module S := fun S y hy =>
    List.mem_flatMap.2 ⟨y, hy, ctx.module.mem_outline y⟩
  induction h generalizing seg with
  | leaf h =>
    rw [Outline.preorder_eq, List.flatMap_nil, List.mem_singleton] at hc
    subst hc
    cases hC.symm.trans hseg
    exact hself _
  | block h hos ih =>
    cases h.segment.symm.trans hseg
    rw [Outline.preorder_eq] at hc
    rcases List.mem_cons.1 hc with rfl | hc
    · cases hC.symm.trans hseg
      exact hself _
    · obtain ⟨o, ho, hc⟩ := List.mem_flatMap.1 hc
      obtain ⟨e, he, hoe⟩ := h.child ho
      intro y hy
      refine (h.reach_sublist hwf).subset (List.mem_append_left _ (List.mem_append_right _ (List.mem_cons_of_mem _ ?_)))
      exact List.mem_flatMap.2 ⟨e, he, ih o ho hoe hc hy⟩

omit hwf h hseg in
/-- Segments of one block reach different statements. -/
theorem eq_of_reach {i n : Nat} {os : List Outline} {b : Control.Block} {segs : List Segment}
    (h : ctx.schedule.BlockFits ctx.module ctx.table.maxState i os n b seg segs)
    (hnodup : (segs.flatMap (Schedule.reach ctx.module)).Nodup) {o o' : Outline} (ho : o ∈ os) (ho' : o' ∈ os)
    {e e' : Segment} (hoe : ctx.schedule.segment o.index = .ok e) (hoe' : ctx.schedule.segment o'.index = .ok e') {y : Nat}
    (hy : y ∈ Schedule.reach ctx.module e) (hy' : y ∈ Schedule.reach ctx.module e') : o = o' := by
  have hpair : os.Pairwise fun o o' =>
      ¬((∃ c, ctx.schedule.segment o.index = .ok c ∧ y ∈ Schedule.reach ctx.module c) ∧
        ∃ c, ctx.schedule.segment o'.index = .ok c ∧ y ∈ Schedule.reach ctx.module c) := by
    refine Schedule.pairwise_of_forall₂ h.segments (List.nodup_flatMap.1 hnodup).2 ?_
    rintro o₁ o₂ c₁ c₂ _ _ _ _ hoc₁ hoc₂ hdisjoint ⟨⟨d₁, hd₁, hy₁⟩, d₂, hd₂, hy₂⟩
    cases hoc₁.symm.trans hd₁
    cases hoc₂.symm.trans hd₂
    exact hdisjoint hy₁ hy₂
  exact Schedule.eq_of_pairwise_not hpair ho ho' ⟨e, hoe, hy⟩ ⟨e', hoe', hy'⟩

/-- A statement after a segment runs in the last state of the segment only. -/
theorem lastState_of_executed (hnodup : (Schedule.reach ctx.module seg).Nodup) {c : Nat} (hc : c ∈ o.preorder)
    {C : Segment} (hC : ctx.schedule.segment c = .ok C) {y : Nat} (hy : y ∈ C.epilog) (hrun : y ∈ ctx.executed I ρ k o) :
    C.lastState? = some k := by
  induction h generalizing seg with
  | leaf h =>
    rw [Outline.preorder_eq, List.flatMap_nil, List.mem_singleton] at hc
    subst hc
    cases h.segment.symm.trans hC
    rw [h.epilog] at hy
    cases hy
  | @block i n b seg os segs h hos ih =>
    cases h.segment.symm.trans hseg
    -- What stands before the block, in it and after it are different statements.
    obtain ⟨hfront, _, hafter⟩ := List.nodup_append.1 (hnodup.sublist (h.reach_sublist hwf))
    obtain ⟨_, hbody, hbefore⟩ := List.nodup_append.1 hfront
    have hsegs := (List.nodup_cons.1 hbody).2
    have hbelow : ∀ {o : Outline}, o ∈ os → y ∈ ctx.executed I ρ k o →
        y ∈ n :: segs.flatMap (Schedule.reach ctx.module) := by
      intro o ho hrun
      obtain ⟨e, he, hoe⟩ := h.child ho
      exact List.mem_cons_of_mem _ (List.mem_flatMap.2 ⟨e, he, executed_subset_reach hwf (hos o ho) hoe hrun⟩)
    rw [Outline.preorder_eq] at hc
    rcases List.mem_cons.1 hc with rfl | hc
    · cases h.segment.symm.trans hC
      have hyafter : y ∈ C.epilog.flatMap fun j => (ctx.module.outline j).preorder :=
        List.mem_flatMap.2 ⟨y, hy, ctx.module.mem_outline y⟩
      rcases (mem_executed_block h).1 hrun with (⟨_, hrun⟩ | ⟨_, o, ho, hrun⟩) | ⟨hlast, _⟩
      · exact absurd rfl (hafter y (List.mem_append_left _ (ctx.module.performed_subset _ hrun)) y hyafter)
      · exact absurd rfl (hafter y (List.mem_append_right _ (hbelow ho hrun)) y hyafter)
      · exact hlast.1
    · obtain ⟨o, ho, hc⟩ := List.mem_flatMap.1 hc
      obtain ⟨e, he, hoe⟩ := h.child ho
      have hspelled : y ∈ C.spelled := by
        unfold Segment.spelled
        split <;> simp [hy]
      have hye : y ∈ Schedule.reach ctx.module e := spelled_subset_reach hwf (hos o ho) hoe hc hC hspelled
      have hybody : y ∈ n :: segs.flatMap (Schedule.reach ctx.module) :=
        List.mem_cons_of_mem _ (List.mem_flatMap.2 ⟨e, he, hye⟩)
      rcases (mem_executed_block h).1 hrun with (⟨_, hrun⟩ | ⟨_, o', ho', hrun⟩) | ⟨_, hrun⟩
      · exact absurd rfl (hbefore y (ctx.module.performed_subset _ hrun) y hybody)
      · obtain ⟨e', he', hoe'⟩ := h.child ho'
        have hsame := eq_of_reach h hsegs ho' ho hoe' hoe (executed_subset_reach hwf (hos o' ho') hoe' hrun) hye
        subst hsame
        exact ih o' ho' hoe ((List.nodup_flatMap.1 hsegs).1 e he) hc hrun
      · exact absurd rfl (hafter y (List.mem_append_right _ hybody) y (ctx.module.performed_subset _ hrun))

end Places

section Targets

/-- The transition is taken when the segment at `j`, in the sequence at `p`, is left, and leads to the next segment of the
sequence or to the first state of the sequence. -/
structure Departs (ctx : Context) (tr : Transition) (j p : Nat) (seg P : Segment) : Prop where
  segment : ctx.schedule.segment j = .ok seg
  parent : seg.parent = some p
  outer : ctx.schedule.segment p = .ok P
  kind : P.kind ≠ .mutex
  cond : ∃ u, ctx.table.timing j = .ok u ∧ tr.cond = u.exit
  target : (∃ next N, P.children[(P.children.idxOf? j).getD 0 + 1]? = some next ∧ ctx.schedule.segment next = .ok N ∧
    N.firstState? = some tr.target) ∨ P.firstState? = some tr.target

/-- Every transition of a segment is taken when it or a segment around it is left. -/
theorem exists_departs {source steps i : Nat} {trs : List Transition} {s s' : Session}
    (h : Runs ctx (transitionsFrom source steps i) s trs s') {tr : Transition} (htr : tr ∈ trs) :
    ∃ j p seg P, (j = i ∨ ctx.schedule.Around j i) ∧ Departs ctx tr j p seg P := by
  induction steps generalizing i trs s s' with
  | zero =>
    rw [(runs_pure.1 h).1] at htr
    cases htr
  | succ steps ih =>
    obtain ⟨seg, s₁, hsegment, _⟩ := runs_bind.1 h
    have hseg := (runs_segment.1 hsegment).1
    rcases transitionsFrom_cases hseg h with ⟨_, rfl⟩ | ⟨p, P, hparent, hP, hrest⟩
    · cases htr
    · have haround : ctx.schedule.Around p i := .single ⟨seg, hseg, hparent⟩
      have hup : ∀ {trs : List Transition} {s s' : Session}, Runs ctx (transitionsFrom source steps p) s trs s' →
          tr ∈ trs → ∃ j p seg P, (j = i ∨ ctx.schedule.Around j i) ∧ Departs ctx tr j p seg P := by
        intro trs s s' hrun htr
        obtain ⟨j, p', S, P', hj, hdeparts⟩ := ih hrun htr
        refine ⟨j, p', S, P', .inr ?_, hdeparts⟩
        rcases hj with rfl | hj
        · exact haround
        · exact hj.trans haround
      rcases hrest with ⟨_, hrest⟩ | ⟨hkind, u, hu, ⟨next, N, hnext, hN, rfl⟩ | ⟨_, again, rest, s₂, s₃, hagain, hrest, rfl⟩⟩
      · exact hup hrest htr
      · obtain ⟨x, hx, rfl⟩ := List.mem_map.1 htr
        exact ⟨i, p, seg, P, .inl rfl, hseg, hparent, hP, hkind, ⟨u, hu, rfl⟩, .inl ⟨next, N, hnext, hN, by simpa using hx⟩⟩
      · rcases List.mem_append.1 htr with htr | htr
        · obtain ⟨x, hx, rfl⟩ := hagain tr htr
          exact ⟨i, p, seg, P, .inl rfl, hseg, hparent, hP, hkind, ⟨u, hu, rfl⟩, .inr hx⟩
        · exact hup hrest htr

/-- The segment that changes the state, with all blocks around it entered. -/
theorem Caused.exists_around {s : Session} {x : Nat} {o : Outline}
    (h : ctx.schedule.Consistent ctx.module ctx.table.maxState o) (hcaused : Caused ctx I ρ s k x o)
    (haround : ∀ a, ctx.schedule.Around a o.index → ctx.schedule.Entered I ρ ctx.module a) :
    ∃ i seg trs s₁ s₂, ctx.schedule.segment i = .ok seg ∧ seg.firstState? = some k ∧
      (∀ a, ctx.schedule.Around a i → ctx.schedule.Entered I ρ ctx.module a) ∧
      Runs ctx (transitionsFrom k ctx.schedule.segments.size i) s₁ trs s₂ ∧ moved I ρ trs = some x := by
  induction hcaused with
  | itself hseg hfirst hruns _ hmoved => exact ⟨_, _, _, _, _, hseg, hfirst, haround, hruns, hmoved⟩
  | inside hentered ho _ ih =>
    cases h with
    | leaf => cases ho
    | block h hos =>
      obtain ⟨c, hc, hoc⟩ := h.child ho
      exact ih (hos _ ho) ((Schedule.around_iff hoc (h.parents c hc)).2 ⟨hentered, haround⟩)

variable (hsched : Scheduled ctx)

include hsched

theorem Scheduled.root_around {c p : Nat} {C : Segment} (hC : ctx.schedule.segment c = .ok C) (hparent : C.parent = some p) :
    ctx.schedule.Around ctx.schedule.root c := by
  have hindex := ctx.schedule.index_outline ctx.schedule.root
  have haround := hsched.consistent.around (hsched.mem_preorder hC)
  rw [hindex] at haround
  refine haround ?_
  rintro rfl
  obtain ⟨root, hroot⟩ := hsched.root
  cases hC.symm.trans hroot.segment
  rw [hroot.parent] at hparent
  cases hparent

/-- A state of a segment is a state of all segments around it. -/
theorem mem_states_around {j a : Nat} (ha : ctx.schedule.Around a j) {seg A : Segment}
    (hseg : ctx.schedule.segment j = .ok seg) (hk : k ∈ seg.states) (hA : ctx.schedule.segment a = .ok A) : k ∈ A.states := by
  induction ha using Relation.TransGen.head_induction_on generalizing A with
  | single hlink =>
    obtain ⟨seg', hseg', hparent⟩ := hlink
    cases hseg.symm.trans hseg'
    exact hsched.mem_states_parent hseg hparent hk hA
  | head hlink _ ih =>
    obtain ⟨S, hS, hparent⟩ := hlink
    exact hsched.mem_states_parent hS hparent (ih hS) hA

/-- The segment after another one of a sequence. -/
theorem Scheduled.follower {p c next : Nat} {P C N : Segment} (hf : ctx.schedule.Follows p P c C next N) :
    next ∈ ctx.schedule.followers (ctx.schedule.outline ctx.schedule.root) ∧ N.parent = some p := by
  obtain ⟨os, n, b, segs, hfits, hpart⟩ := hsched.fits hf.outer (by simp [hf.kind])
  obtain ⟨_, _, ⟨pre, post, hchildren⟩, _⟩ := hsched.follows hf
  have htail : next ∈ os.tail.map Outline.index := by
    rw [List.map_tail, ← hfits.children, hchildren]
    cases pre <;> simp
  obtain ⟨o, ho, rfl⟩ := List.mem_map.1 htail
  obtain ⟨e, he, hoe⟩ := hfits.child (List.mem_of_mem_tail ho)
  cases hoe.symm.trans hf.successor
  refine ⟨Schedule.mem_followers_of_part hsched.consistent hpart ?_, hfits.parents N he⟩
  rw [Schedule.followers, hfits.segment]
  dsimp only
  rw [if_neg hfits.not_leaf, hf.kind]
  exact Schedule.mem_followersAll_of_tail ho

variable (hwalk : ctx.schedule.Stated 0 0 ctx.table.maxState (ctx.schedule.outline ctx.schedule.root))

include hwalk

/-- The state in which the segment after it is entered tells a segment of a sequence. -/
theorem Scheduled.follows_inj {p c next p' c' next' : Nat} {P C N P' C' N' : Segment}
    (hf : ctx.schedule.Follows p P c C next N) (hf' : ctx.schedule.Follows p' P' c' C' next' N')
    (hfirst : N.firstState? = N'.firstState?) : c = c' := by
  obtain ⟨hmem, hparent⟩ := hsched.follower hf
  obtain ⟨hmem', hparent'⟩ := hsched.follower hf'
  have hnext : next = next' := by
    refine Schedule.eq_of_entryOf hwalk hmem hmem' ?_
    rw [Schedule.entryOf_eq hf.successor, Schedule.entryOf_eq hf'.successor, hfirst]
  subst hnext
  cases hf.successor.symm.trans hf'.successor
  cases hparent.symm.trans hparent'
  cases hf.outer.symm.trans hf'.outer
  obtain ⟨_, hnodup, ⟨pre, post, hchildren⟩, _⟩ := hsched.follows hf
  obtain ⟨_, _, ⟨pre', post', hchildren'⟩, _⟩ := hsched.follows hf'
  have hsplit : P.children = (pre ++ [c]) ++ next :: post := by rw [hchildren]; simp
  have hsplit' : P.children = (pre' ++ [c']) ++ next :: post' := by rw [hchildren']; simp
  have hnotin : ∀ {l l' : List Nat}, P.children = l ++ next :: l' → next ∉ l ∧ next ∉ l' := by
    intro l l' hl
    rw [hl, List.nodup_append] at hnodup
    exact ⟨fun hin => hnodup.2.2 next hin next List.mem_cons_self rfl, (List.nodup_cons.1 hnodup.2.1).1⟩
  have heq := (List.append_cons_inj_of_notMem (hnotin hsplit).1 (hnotin hsplit).2).1 (hsplit.symm.trans hsplit')
  exact List.singleton_inj.1 (List.append_inj_right' heq.1 rfl)

/-- A segment of a sequence has its states before the one in which the segment after it is entered. -/
theorem Scheduled.states_lt {p c next : Nat} {P C N : Segment} (hf : ctx.schedule.Follows p P c C next N)
    (hk : k ∈ C.states) {x : Nat} (hx : N.firstState? = some x) : k < x := by
  obtain ⟨os, n, b, segs, hfits, hpart⟩ := hsched.fits hf.outer (by simp [hf.kind])
  obtain ⟨_, e, l, hi, P', hP', hentry, _, _, hstated⟩ := hwalk.part hsched.consistent hpart
  obtain ⟨_, _, ⟨pre, post, hchildren⟩, _⟩ := hsched.follows hf
  cases hf.outer.symm.trans hP'
  rw [if_neg hfits.not_leaf, hf.kind] at hstated
  have hpair : (os.map Outline.index).Pairwise fun c d => ∀ C D, ctx.schedule.segment c = .ok C →
      ctx.schedule.segment d = .ok D → ∀ y ∈ C.states, ∀ x, D.firstState? = some x → y < x := by
    rw [List.pairwise_map]
    refine Schedule.pairwise_of_forall₂ hfits.segments (hstated.before hfits.segments hentry) ?_
    intro o o' C' D' _ _ _ _ hoC hoD hlt C D hC hD
    cases hoC.symm.trans hC
    cases hoD.symm.trans hD
    exact hlt
  rw [← hfits.children, hchildren] at hpair
  have hrest := (List.pairwise_append.1 hpair).2.1
  exact (List.pairwise_cons.1 hrest).1 next List.mem_cons_self C N hf.segment hf.successor k hk x hx

end Targets

section Cause

variable (hr : Running I ρ ctx k)
  (hwalk : ctx.schedule.Stated 0 0 ctx.table.maxState (ctx.schedule.outline ctx.schedule.root)) {p c next x : Nat}
  {P C N : Segment} (hf : ctx.schedule.Follows p P c C next N) (hk : k ∈ C.states) (hx : N.firstState? = some x)

include hr hwalk hf hk hx

/-- The state in which the segment after it is entered is reached only if a segment is left, and all blocks around it are
entered. -/
theorem exits_of_caused {s : Session} (hcaused : Caused ctx I ρ s k x (ctx.schedule.outline ctx.schedule.root)) :
    ctx.table.Exits I ρ c ∧ ∀ a, ctx.schedule.Around a c → ctx.schedule.Entered I ρ ctx.module a := by
  obtain ⟨root, hroot⟩ := hr.root
  have hindex := ctx.schedule.index_outline ctx.schedule.root
  obtain ⟨i, S, trs, s₁, s₂, hS, hfirst, hentered, hruns, hmoved⟩ := hcaused.exists_around hr.consistent
    fun a ha => absurd ha (Schedule.not_around_root (hindex.symm ▸ hroot.segment) hroot.parent a)
  obtain ⟨tr, htr, rfl, hcond⟩ := exists_of_moved hmoved
  obtain ⟨j, q, J, Q, hj, hdeparts⟩ := exists_departs hruns htr
  have hkS : k ∈ S.states := List.mem_of_head? hfirst
  obtain ⟨u, hu, hexit⟩ := hdeparts.cond
  obtain ⟨os, n, b, Q', segs, hfits, _, _, hpart, o, ho, rfl⟩ := hr.parent hdeparts.segment hdeparts.parent
  cases hdeparts.outer.symm.trans hfits.segment
  rcases hdeparts.target with ⟨next', N', hnext', hN', htarget⟩ | htarget
  · -- The segment that is left is followed by one with the same first state, so it is the segment at `c`.
    have hfollows : ctx.schedule.Follows q Q o.index J next' N' := by
      refine ⟨hdeparts.outer, ?_, hdeparts.segment, hN', ?_⟩
      · rcases hfits.kind with ⟨hseq, _⟩ | ⟨hmutex, _⟩
        · exact hseq
        · exact absurd hmutex hdeparts.kind
      · have hmem : o.index ∈ Q.children := hfits.children ▸ List.mem_map_of_mem ho
        obtain ⟨pre, post, hchildren, hpre⟩ := List.eq_append_cons_of_mem hmem
        rw [hchildren, idxOf?_getD_eq hpre, List.getElem?_append_right (Nat.le_add_right _ _), Nat.add_sub_cancel_left,
          List.getElem?_cons_succ] at hnext'
        cases post with
        | nil => cases hnext'
        | cons a post =>
          cases hnext'
          exact ⟨pre, post, by rw [hchildren]; simp⟩
    have hjc := hr.toScheduled.follows_inj hwalk hfollows hf (htarget.trans hx.symm)
    subst hjc
    refine ⟨⟨u, hu, hexit ▸ hcond⟩, ?_⟩
    rcases hj with rfl | hj
    · exact hentered
    · exact fun a ha => hentered a (ha.trans hj)
  · -- A sequence starts in the least of its states, and the current state is one of them.
    have haround : ctx.schedule.Around q i := by
      have hlink : ctx.schedule.Around q o.index := .single ⟨J, hdeparts.segment, hdeparts.parent⟩
      rcases hj with rfl | hj
      · exact hlink
      · exact hlink.trans hj
    have hkQ := mem_states_around hr.toScheduled haround hS hkS hdeparts.outer
    obtain ⟨_, e, l, hi, hstated⟩ := hwalk.part hr.consistent hpart
    have hle := hstated.entry_le hdeparts.outer htarget hkQ
    have hlt := hr.toScheduled.states_lt hwalk hf hk hx
    omega

end Cause

section Upwards

variable (hr : Running I ρ ctx k) {c : Nat} (hentered : ∀ a, ctx.schedule.Around a c → ctx.schedule.Entered I ρ ctx.module a)
  {C : Segment} (hC : ctx.schedule.segment c = .ok C) (hk : k ∈ C.states)

include hr hentered hC hk

/-- With a segment of a sequence that is reached, all segments around it complete their cycle. -/
theorem cycles_around {p : Nat} {P : Segment} (hparent : C.parent = some p) (hP : ctx.schedule.segment p = .ok P)
    (hkind : P.kind = .seq) (hcycles : ctx.table.Cycles I ρ c) : ∀ a, ctx.schedule.Around a c → ctx.table.Cycles I ρ a := by
  intro a ha
  induction ha using Relation.TransGen.head_induction_on with
  | single hlink =>
    obtain ⟨C', hC', hparent'⟩ := hlink
    cases hC.symm.trans hC'
    cases hparent.symm.trans hparent'
    obtain ⟨os, n, b, P', segs, hfits, hos, _, _, o, ho, rfl⟩ := hr.parent hC hparent
    cases hP.symm.trans hfits.segment
    refine (cycles_below hr hfits hos (hentered p (.single ⟨C, hC, hparent⟩)) (hr.mem_states_parent hC hparent hk hP) ho hC hk
      ?_).2 hcycles
    intro hcontainer
    rcases hfits.kind with ⟨_, hne⟩ | ⟨hmutex, _⟩
    · exact absurd hcontainer hne
    · rw [hkind] at hmutex
      cases hmutex
  | @head a j hlink hbetween ih =>
    obtain ⟨S, hS, hparent'⟩ := hlink
    obtain ⟨os, n, b, A, segs, hfits, hos, _, _, o, ho, rfl⟩ := hr.parent hS hparent'
    have hkS := mem_states_around hr.toScheduled hbetween hC hk hS
    refine (cycles_below hr hfits hos (hentered a (.head ⟨S, hS, hparent'⟩ hbetween))
      (hr.mem_states_parent hS hparent' hkS hfits.segment) ho hS hkS ?_).2 ih
    intro _ hleaf
    obtain ⟨x, hx, hspelled⟩ := (hos o ho).exists_block hS hleaf
    exact ⟨x, hspelled, hentered o.index hbetween S x hS hx⟩

/-- What runs in a segment that is reached runs in the cycle. -/
theorem executed_subset_cycle {o : Outline} (hpart : o.Part (ctx.schedule.outline ctx.schedule.root)) (hindex : o.index = c) :
    ctx.executed I ρ k o ⊆ ctx.cycle I ρ k := by
  rw [Context.cycle]
  have hconsistent := hr.consistent
  have hsorted := hr.pairwise_lt (.refl _)
  generalize ctx.schedule.outline ctx.schedule.root = top at hpart hconsistent hsorted
  induction hpart with
  | refl => exact fun _ hx => hx
  | @nested o' o i os ho' hpart' ih =>
    cases hconsistent with
    | leaf => cases ho'
    | block h hos =>
      rw [Outline.preorder_eq, List.pairwise_cons] at hsorted
      have hmem : c ∈ os.flatMap Outline.preorder :=
        List.mem_flatMap.2 ⟨o', ho', hpart'.sublist.subset (hindex ▸ o.index_mem_preorder)⟩
      have haround : ctx.schedule.Around i c :=
        (Schedule.Consistent.block h hos).around (by rw [Outline.preorder_eq]; exact List.mem_cons_of_mem _ hmem)
          (Nat.ne_of_gt (hsorted.1 c hmem))
      have hsub := ih hindex (hos o' ho') (hsorted.2.sublist (Outline.preorder_sublist_of_mem ho'))
      intro x hx
      refine (mem_executed_block h).2 (.inl (.inr ⟨?_, o', ho', hsub hx⟩))
      exact h.taken_iff.2 ⟨mem_states_around hr.toScheduled haround hC hk h.segment, hentered i haround⟩

/-- A statement after a segment that is left runs if the segment is in its last state. -/
theorem mem_cycle_iff (hexit : ctx.table.Exits I ρ c) {y : Nat} (hy : y ∈ C.epilog) {st : Control.Stmt}
    (hst : ctx.module.stmt y = .ok st) (hblock : st.block? = none) : y ∈ ctx.cycle I ρ k ↔ C.lastState? = some k := by
  constructor
  · intro hrun
    obtain ⟨root, hroot⟩ := hr.root
    have hindex := ctx.schedule.index_outline ctx.schedule.root
    refine lastState_of_executed hr.wellFormed hr.consistent (hindex.symm ▸ hroot.segment) ?_ (hr.mem_preorder hC) hC hy hrun
    have hspelled : root.spelled = [ctx.module.root] := hroot.spelled
    rw [Schedule.reach, hspelled, List.flatMap_singleton]
    exact hr.wellFormed.nodup
  · intro hlast
    obtain ⟨o, hindex, hpart, hconsistent⟩ := hr.consistent.exists_part (hr.mem_preorder hC)
    refine executed_subset_cycle hr hentered hC hk hpart hindex ?_
    cases hconsistent with
    | leaf h =>
      cases hindex
      cases hC.symm.trans h.segment
      rw [h.epilog] at hy
      cases hy
    | block h hos =>
      cases hindex
      cases hC.symm.trans h.segment
      refine (mem_executed_block h).2 (.inr ⟨⟨hlast, hexit⟩, Module.mem_performed.2 ⟨y, hy, ?_⟩⟩)
      rw [Module.executed_outline hst hblock]
      exact List.mem_singleton_self y

end Upwards

/-- The tree enables the state register, and drives the state `x` as the next one. -/
structure MovesTo (I : Interpretation V) (ρ : Valuation V) (sp : StateSpace) (tree : Comb.Block) (x : Nat) : Prop where
  enable : tree.run I (fun _ => ρ) (Name.enable Name.state) = some (I.bit true)
  next : tree.run I (fun _ => ρ) (Name.nextValue Name.state) = some (sp.value I x)

/-- When the state changes to the first one of the segment after a segment, a register that is updated after the segment
is enabled if the segment is in its last state, and otherwise only by some other update. -/
theorem left_segment_runs_epilog {V : Type} (I : Interpretation V) (ρ : Valuation V) {d : Draft} {top : List Nat}
    {m : Module} (hm : d.finish top = .ok m) {schedule : Schedule} (hschedule : m.schedule = .ok schedule) {st : Staged}
    (hst : m.stage schedule = .ok st) {table : ConditionTable}
    (htable : ConditionTable.build st.module st.schedule st.maxState = .ok table) {s s' s₁ s₁' : Session}
    {tree regs : Comb.Block}
    (htree : runAspect ⟨st.module, st.schedule, table⟩ s (.freshTransitions st.maxState) = (.ok tree, s'))
    (hregs : runAspect ⟨st.module, st.schedule, table⟩ s₁ .registers = (.ok regs, s₁'))
    {p c next : Nat} {P C N : Segment} (hfollows : st.schedule.Follows p P c C next N) {j : Nat} (hj : j ∈ C.epilog)
    {r : String} {v : Expr} (hupdate : st.module.stmt j = .ok (.update r v)) {k x : Nat} (hk : k ∈ C.states)
    (hx : N.firstState? = some x) (hstate : StateSpace.Holds I ρ ⟨st.maxState⟩ k)
    (hI : StateSpace.Distinguished I ⟨st.maxState⟩) (hsat : table.Satisfied I ρ) (hex : st.module.Exclusive I ρ)
    (hmoves : MovesTo I ρ ⟨st.maxState⟩ tree x) :
    (regs.run I (fun _ => ρ) (Name.enable r)).any I.truth = true ↔
      C.lastState? = some k ∨ ∃ j' ∈ Context.cycle I ρ ⟨st.module, st.schedule, table⟩ k, j' ∉ C.epilog ∧
        ∃ w, st.module.stmt j' = .ok (.update r w) := by
  have hwf := Module.wellFormed_of_finish hm
  obtain ⟨hsched, _, hspace⟩ := scheduled_of_build hm hschedule hst htable
  have hmax : table.maxState = st.maxState := by rw [ConditionTable.maxState, hspace]
  have hr : Running I ρ ⟨st.module, st.schedule, table⟩ k := ⟨hsched, hsat, hspace ▸ hstate, hex⟩
  have hpairs := ConditionTable.pairs_build htable hsched.preorder (Module.stage_distinctIds hwf hschedule hst)
  have hwalk : st.schedule.Stated 0 0 table.maxState (st.schedule.outline st.schedule.root) :=
    hmax.symm ▸ Module.stage_stated hwf hschedule hst
  have hlt := hsched.states_lt hwalk hfollows hk hx
  have hxmax : x ≤ table.maxState := hsched.firstState_le hfollows.successor hx
  have hne : table.maxState ≠ 0 := by omega
  obtain ⟨q, _, hnext, hcaused⟩ := run_caused hsched hr.state hne (hmax.symm ▸ htree)
  have hq : q = some x := by
    rw [hmoves.next] at hnext
    obtain ⟨y, rfl, hy⟩ := Option.map_eq_some_iff.1 hnext.symm
    have hle := ((hcaused y rfl).noted hsched).1
    have hyx : y = x := hI.value_inj (hmax ▸ hle) (hmax ▸ hxmax) (hspace ▸ hy)
    rw [hyx]
  obtain ⟨hexit, hentered⟩ := exits_of_caused hr hwalk hfollows hk hx (hcaused x hq)
  obtain ⟨hparent, _⟩ := hsched.follows hfollows
  obtain ⟨o, hindex, _, hconsistent⟩ := hsched.consistent.exists_part (hsched.mem_preorder hfollows.segment)
  have hcycles : table.Cycles I ρ c := by
    subst hindex
    exact ConditionTable.cycles_of_exits hsat hsched.defines hpairs hconsistent hexit
  have hroot := cycles_around hr hentered hfollows.segment hk hparent hfollows.outer hfollows.kind hcycles _
    (hsched.root_around hfollows.segment hparent)
  rw [(run_registers r hr hpairs hregs).1, and_iff_right hroot, Module.values_register_ne_nil]
  have hepilog : ∀ {y : Nat} {w : Expr}, y ∈ C.epilog → st.module.stmt y = .ok (.update r w) →
      (y ∈ Context.cycle I ρ ⟨st.module, st.schedule, table⟩ k ↔ C.lastState? = some k) := fun hy hst =>
    mem_cycle_iff hr hentered hfollows.segment hk hexit hy hst rfl
  constructor
  · rintro ⟨j', hj', w, hw⟩
    by_cases hmem : j' ∈ C.epilog
    · exact .inl ((hepilog hmem hw).1 hj')
    · exact .inr ⟨j', hj', hmem, w, hw⟩
  · rintro (hlast | ⟨j', hj', _, w, hw⟩)
    · exact ⟨j, (hepilog hj hupdate).2 hlast, v, hupdate⟩
    · exact ⟨j', hj', w, hw⟩

/-- A conditional that emits two values or none, an update after it, and one more value. -/
def interlude : Draft where
  name := "interlude"
  registers := .ofList [("r", ⟨.uint 8, 0⟩)]
  vars := .empty
  inputs := []
  outputs := [⟨"dout", .bool⟩]
  stmts := .ofList [Draft.emit [some (.flag "a")], Draft.emit [some (.flag "b")], Draft.conditional (.flag "g") [0, 1],
    .update "r" (.flag "c"), Draft.emit [some (.flag "d")]]

def interludeStaged : Staged where
  module := { interlude.enclose [2, 3, 4] with
    stmts := .ofList [.yield ⟨[some (.flag "a")], some 2⟩, .yield ⟨[some (.flag "b")], some 3⟩,
      .block ⟨.conditional, some (.flag "g"), [0, 1], some 1⟩, .update "r" (.flag "c"), .yield ⟨[some (.flag "d")], some 4⟩,
      .block ⟨.module, none, [2, 3, 4], some 0⟩] }
  schedule := ⟨.ofList [⟨.seq, some 5, none, [1, 4], [0, 1, 2], [], [], []⟩, ⟨.seq, some 2, some 0, [2, 3], [0, 1], [], [], [3]⟩,
    ⟨.leaf, none, some 1, [], [0], [0], [], []⟩, ⟨.leaf, none, some 1, [], [1], [1], [], []⟩,
    ⟨.leaf, none, some 0, [], [2], [4], [], []⟩], 0⟩
  maxState := 2

theorem interlude_stage :
    ((interlude.enclose [2, 3, 4]).schedule >>= (interlude.enclose [2, 3, 4]).stage) = .ok interludeStaged := by
  decide +kernel

theorem interlude_follows : interludeStaged.schedule.Follows 0 ⟨.seq, some 5, none, [1, 4], [0, 1, 2], [], [], []⟩ 1
    ⟨.seq, some 2, some 0, [2, 3], [0, 1], [], [], [3]⟩ 4 ⟨.leaf, none, some 0, [], [2], [4], [], []⟩ :=
  ⟨rfl, rfl, rfl, rfl, List.infix_refl _⟩

theorem interlude_exclusive (ρ : Valuation Int) : interludeStaged.module.Exclusive .integers ρ :=
  Module.exclusive_of_no_container _ ρ (by decide)

/-- In the state `k`, with all flags set but those named. -/
def interludeIn (k : Int) (names : List String) : Valuation Int := StateSpace.load ⟨2⟩ (.allBut names) k

/-- Whether the conditions agree with the table, the state changes to 2 and the register is enabled as given. -/
def interludeChecks (ρ : Valuation Int) (enabled : Bool) (table : ConditionTable) : Bool :=
  let ctx : Context := ⟨interludeStaged.module, interludeStaged.schedule, table⟩
  decide (table.Satisfied .integers ρ) &&
    ((runAspect ctx (.start .outputs) (.freshTransitions 2)).1.toOption.any fun tree =>
      tree.run .integers (fun _ => ρ) "state_en" == some 1 && tree.run .integers (fun _ => ρ) "state_next" == some 2) &&
    (runAspect ctx (.start .outputs) .registers).1.toOption.any fun regs =>
      (regs.run .integers (fun _ => ρ) "r_en").any (Interpretation.truth .integers) == enabled

theorem interlude_moves (ρ : Valuation Int) (enabled : Bool) (h : (ConditionTable.build interludeStaged.module
      interludeStaged.schedule 2).toOption.any (interludeChecks ρ enabled) = true) :
    ∃ schedule table tree regs s' s₁', (interlude.enclose [2, 3, 4]).schedule = .ok schedule ∧
      (interlude.enclose [2, 3, 4]).stage schedule = .ok interludeStaged ∧
      ConditionTable.build interludeStaged.module interludeStaged.schedule 2 = .ok table ∧
      runAspect ⟨interludeStaged.module, interludeStaged.schedule, table⟩ (.start .outputs) (.freshTransitions 2) =
        (.ok tree, s') ∧
      runAspect ⟨interludeStaged.module, interludeStaged.schedule, table⟩ (.start .outputs) .registers = (.ok regs, s₁') ∧
      table.Satisfied .integers ρ ∧ MovesTo .integers ρ ⟨2⟩ tree 2 ∧
      (regs.run .integers (fun _ => ρ) "r_en").any (Interpretation.truth .integers) = enabled := by
  obtain ⟨schedule, hschedule, hst⟩ := Checked.bind_eq_ok.1 interlude_stage
  obtain ⟨table, htable, hchecks⟩ := Checked.exists_of_any h
  simp only [interludeChecks, Bool.and_eq_true, decide_eq_true_eq] at hchecks
  obtain ⟨⟨hsat, htree⟩, hregs⟩ := hchecks
  obtain ⟨tree, htree, hmoves⟩ := Checked.exists_of_any htree
  obtain ⟨regs, hregs, henabled⟩ := Checked.exists_of_any hregs
  obtain ⟨hen, hnext⟩ := Bool.and_eq_true_iff.1 hmoves
  exact ⟨schedule, table, tree, regs, _, _, hschedule, hst, htable, Prod.ext htree rfl, Prod.ext hregs rfl, hsat,
    ⟨eq_of_beq hen, eq_of_beq hnext⟩, eq_of_beq henabled⟩

/-- The register is updated after the second value. -/
theorem interlude_left_last : ∃ schedule table tree regs s' s₁', (interlude.enclose [2, 3, 4]).schedule = .ok schedule ∧
    (interlude.enclose [2, 3, 4]).stage schedule = .ok interludeStaged ∧
    ConditionTable.build interludeStaged.module interludeStaged.schedule 2 = .ok table ∧
    runAspect ⟨interludeStaged.module, interludeStaged.schedule, table⟩ (.start .outputs) (.freshTransitions 2) =
      (.ok tree, s') ∧
    runAspect ⟨interludeStaged.module, interludeStaged.schedule, table⟩ (.start .outputs) .registers = (.ok regs, s₁') ∧
    MovesTo .integers (interludeIn 1 ["exit_cond_block_0"]) ⟨2⟩ tree 2 ∧
    (regs.run .integers (fun _ => interludeIn 1 ["exit_cond_block_0"]) "r_en").any (Interpretation.truth .integers) = true := by
  have hm : interlude.finish [2, 3, 4] = .ok (interlude.enclose [2, 3, 4]) := rfl
  obtain ⟨schedule, table, tree, regs, s', s₁', hschedule, hst, htable, htree, hregs, hsat, hmoves, _⟩ :=
    interlude_moves (interludeIn 1 ["exit_cond_block_0"]) true (by decide +kernel)
  have hI := StateSpace.distinguished_integers ⟨2⟩
  have hstate : StateSpace.Holds .integers (interludeIn 1 ["exit_cond_block_0"]) ⟨2⟩ 1 := hI.holds (by decide) rfl
  refine ⟨schedule, table, tree, regs, s', s₁', hschedule, hst, htable, htree, hregs, hmoves, ?_⟩
  exact (left_segment_runs_epilog .integers (interludeIn 1 ["exit_cond_block_0"]) hm hschedule hst htable htree hregs
    interlude_follows (j := 3) (by decide) (r := "r") rfl (by decide) rfl hstate hI hsat (interlude_exclusive _) hmoves).2
    (.inl rfl)

/-- The conditional is skipped, the state changes to that after it, and the register is not updated. -/
theorem interlude_skipped_omits : ∃ schedule table tree regs s' s₁',
    interlude.finish [2, 3, 4] = .ok (interlude.enclose [2, 3, 4]) ∧
    (interlude.enclose [2, 3, 4]).schedule = .ok schedule ∧
    (interlude.enclose [2, 3, 4]).stage schedule = .ok interludeStaged ∧
    ConditionTable.build interludeStaged.module interludeStaged.schedule 2 = .ok table ∧
    runAspect ⟨interludeStaged.module, interludeStaged.schedule, table⟩ (.start .outputs) (.freshTransitions 2) =
      (.ok tree, s') ∧
    runAspect ⟨interludeStaged.module, interludeStaged.schedule, table⟩ (.start .outputs) .registers = (.ok regs, s₁') ∧
    (∃ P C N, interludeStaged.schedule.Follows 0 P 1 C 4 N ∧ 3 ∈ C.epilog ∧ 0 ∈ C.states ∧ N.firstState? = some 2) ∧
    (∃ v, interludeStaged.module.stmt 3 = .ok (.update "r" v)) ∧
    StateSpace.Holds .integers (interludeIn 0 ["g", "exit_cond_block_0"]) ⟨2⟩ 0 ∧
    table.Satisfied .integers (interludeIn 0 ["g", "exit_cond_block_0"]) ∧
    interludeStaged.module.Exclusive .integers (interludeIn 0 ["g", "exit_cond_block_0"]) ∧
    MovesTo .integers (interludeIn 0 ["g", "exit_cond_block_0"]) ⟨2⟩ tree 2 ∧
    (regs.run .integers (fun _ => interludeIn 0 ["g", "exit_cond_block_0"]) "r_en").any (Interpretation.truth .integers) =
      false := by
  obtain ⟨schedule, table, tree, regs, s', s₁', hschedule, hst, htable, htree, hregs, hsat, hmoves, hen⟩ :=
    interlude_moves (interludeIn 0 ["g", "exit_cond_block_0"]) false (by decide +kernel)
  exact ⟨schedule, table, tree, regs, s', s₁', rfl, hschedule, hst, htable, htree, hregs,
    ⟨_, _, _, interlude_follows, by decide, by decide, rfl⟩, ⟨_, rfl⟩,
    (StateSpace.distinguished_integers ⟨2⟩).holds (by decide) rfl, hsat, interlude_exclusive _, hmoves, hen⟩

end Lowering

end Sequencer
