import Mathlib.Data.List.Flatten
import Sequencer.Proofs.Schedule.Staged

set_option autoImplicit false

/-!
# Ids of blocks and yields

The blocks of segments and the statements of leaves that have an id have different ones.
-/

namespace Sequencer

open Control

/-- Ids tell the statements in `S` apart. -/
def Module.DistinctIds (m : Module) (S : Nat → Prop) : Prop :=
  ∀ i j s t id, S i → S j → m.stmt i = .ok s → m.stmt j = .ok t → s.id? = some id → t.id? = some id → i = j

/-- The statements that a segment gives ids to. -/
def Segment.numbered (seg : Segment) : List Nat := seg.block.toList ++ if seg.kind = .leaf then seg.stmts else []

/-- The segments at and below the outline give an id to the statement at `j`. -/
def Schedule.Numbers (s : Schedule) (o : Outline) (j : Nat) : Prop :=
  ∃ i ∈ o.preorder, ∃ seg, s.segment i = .ok seg ∧ j ∈ seg.numbered

theorem Schedule.numbers_node {s : Schedule} {i : Nat} {os : List Outline} {seg : Segment} (hseg : s.segment i = .ok seg)
    {j : Nat} : s.Numbers (.node i os) j ↔ j ∈ seg.numbered ∨ ∃ o ∈ os, s.Numbers o j := by
  constructor
  · rintro ⟨i', hi', seg', hseg', hj⟩
    rw [Outline.preorder_eq] at hi'
    rcases List.mem_cons.1 hi' with rfl | hi'
    · cases hseg.symm.trans hseg'
      exact .inl hj
    · obtain ⟨o, ho, hi'⟩ := List.mem_flatMap.1 hi'
      exact .inr ⟨o, ho, i', hi', seg', hseg', hj⟩
  · rw [Numbers, Outline.preorder_eq]
    rintro (hj | ⟨o, ho, i', hi', seg', hseg', hj⟩)
    · exact ⟨i, List.mem_cons_self, _, hseg, hj⟩
    · exact ⟨i', List.mem_cons_of_mem _ (List.mem_flatMap.2 ⟨o, ho, hi'⟩), seg', hseg', hj⟩

namespace Numbering

open Checked

/-- All ids of statements in `S` are different and below the next one. -/
structure Fresh (s₀ : Schedule) (n : Numbering) (S : Nat → Prop) : Prop where
  alike : s₀.Alike n.schedule
  below : ∀ i s id, S i → n.module.stmt i = .ok s → s.id? = some id → id < n.nextId
  distinct : n.module.DistinctIds S

variable {s₀ : Schedule} {n n' : Numbering} {S S' : Nat → Prop}

theorem Fresh.mono (h : Fresh s₀ n S) (hS : ∀ j, S' j → S j) : Fresh s₀ n S' :=
  ⟨h.alike, fun i s id hi => h.below i s id (hS i hi),
    fun i j s t id hi hj => h.distinct i j s t id (hS i hi) (hS j hj)⟩

theorem Fresh.set (h : Fresh s₀ n S) {i : Nat} {s : Stmt} (hs : (s.setId n.nextId).id? = some n.nextId)
    {stmts : Arena Stmt} (hset : n.module.stmts.set i (s.setId n.nextId) = .ok stmts) :
    Fresh s₀ { n with module := { n.module with stmts := stmts }, nextId := n.nextId + 1 } fun j => S j ∨ j = i := by
  obtain ⟨_, hget⟩ := Arena.set_eq_ok hset
  -- Either the statement is the one that got the next id, or it is as before.
  have hcases : ∀ j t id, S j ∨ j = i → stmts.get j = .ok t → t.id? = some id →
      j = i ∧ id = n.nextId ∨ j ≠ i ∧ S j ∧ n.module.stmt j = .ok t ∧ id < n.nextId := by
    intro j t id hj ht hid
    rw [Arena.get_eq_ok_iff, hget j] at ht
    by_cases hji : j = i
    · rw [if_pos hji] at ht
      cases ht
      exact .inl ⟨hji, Option.some.inj (hid.symm.trans hs)⟩
    · rw [if_neg hji, ← Arena.get_eq_ok_iff] at ht
      have hSj := hj.resolve_right hji
      exact .inr ⟨hji, hSj, ht, h.below j t id hSj ht hid⟩
  refine ⟨h.alike, ?_, ?_⟩
  · intro j t id hj ht hid
    show id < n.nextId + 1
    rcases hcases j t id hj ht hid with ⟨_, rfl⟩ | ⟨_, _, _, hlt⟩
    · omega
    · omega
  · intro j j' t t' id hj hj' ht ht' hid hid'
    rcases hcases j t id hj ht hid with ⟨rfl, rfl⟩ | ⟨_, hSj, htj, hlt⟩
    · rcases hcases j' t' _ hj' ht' hid' with ⟨rfl, _⟩ | ⟨_, _, _, hlt'⟩
      · rfl
      · omega
    · rcases hcases j' t' id hj' ht' hid' with ⟨rfl, rfl⟩ | ⟨_, hSj', htj', _⟩
      · omega
      · exact h.distinct j j' t t' id hSj hSj' htj htj' hid hid'

theorem Fresh.of_id_none (h : Fresh s₀ n S) {i : Nat} {s : Stmt} (hs : n.module.stmt i = .ok s) (hid : s.id? = none) :
    Fresh s₀ n fun j => S j ∨ j = i := by
  have hcases : ∀ j t id, S j ∨ j = i → n.module.stmt j = .ok t → t.id? = some id → S j := by
    intro j t id hj ht hidt
    rcases hj with hj | rfl
    · exact hj
    · cases hs.symm.trans ht
      rw [hid] at hidt
      cases hidt
  refine ⟨h.alike, fun j t id hj ht hidt => h.below j t id (hcases j t id hj ht hidt) ht hidt, ?_⟩
  intro j j' t t' id hj hj' ht ht' hidt hidt'
  exact h.distinct j j' t t' id (hcases j t id hj ht hidt) (hcases j' t' id hj' ht' hidt') ht ht' hidt hidt'

theorem Fresh.number (h : Fresh s₀ n S) {i : Nat} (hi : number i n = .ok ((), n')) :
    Fresh s₀ n' fun j => S j ∨ j = i := by
  rw [Numbering.number, bind_eq_ok] at hi
  obtain ⟨s, hs, hi⟩ := hi
  cases s with
  | block b =>
    obtain ⟨stmts, hstmts, hi⟩ := bind_eq_ok.1 hi
    cases hi
    exact h.set rfl hstmts
  | yield y =>
    obtain ⟨stmts, hstmts, hi⟩ := bind_eq_ok.1 hi
    cases hi
    exact h.set rfl hstmts
  | update r v =>
    cases hi
    exact h.of_id_none hs rfl
  | assign x v =>
    cases hi
    exact h.of_id_none hs rfl

theorem Fresh.numberAll {is : List Nat} (h : Fresh s₀ n S) (his : numberAll is n = .ok ((), n')) :
    Fresh s₀ n' fun j => S j ∨ j ∈ is := by
  induction is generalizing n S with
  | nil =>
    cases his
    exact h.mono (by simp)
  | cons i is ih =>
    obtain ⟨⟨⟩, n₁, hi, his⟩ := stateT_bind_eq_ok.1 his
    exact (ih (h.number hi) his).mono (by simp [or_assoc])

theorem Fresh.setStates (h : Fresh s₀ n S) {i : Nat} {states : List Nat}
    (hset : setStates i states n = .ok ((), n')) : Fresh s₀ n' S := by
  obtain ⟨s, hs, hset⟩ := bind_eq_ok.1 hset
  cases hset
  exact ⟨h.alike.trans (Schedule.alike_setStates hs), h.below, h.distinct⟩

theorem Fresh.mergeStates (h : Fresh s₀ n S) {i child : Nat} (hmerge : mergeStates i child n = .ok ((), n')) :
    Fresh s₀ n' S := by
  obtain ⟨c, n₁, hc, h₁⟩ := stateT_bind_eq_ok.1 hmerge
  obtain ⟨_, rfl⟩ := segment_eq_ok hc
  obtain ⟨seg, n₂, hseg, h₂⟩ := stateT_bind_eq_ok.1 h₁
  obtain ⟨_, rfl⟩ := segment_eq_ok hseg
  exact h.setStates h₂

mutual
theorem Fresh.visit {m : Module} : (o : Outline) → ∀ {parent : Option Nat}, Schedule.Laid m s₀ parent o →
    ∀ {entry : Nat} {n n' : Numbering} {S : Nat → Prop}, Fresh s₀ n S → visit entry o n = .ok ((), n') →
      Fresh s₀ n' fun j => S j ∨ s₀.Numbers o j
  | .node i os, parent, hlaid, entry, n, n', S, h, hvisit => by
    obtain ⟨⟨⟩, n₁, h₁, hrest₁⟩ := stateT_bind_eq_ok.1 hvisit
    obtain ⟨seg, n₂, h₂, hrest₂⟩ := stateT_bind_eq_ok.1 hrest₁
    obtain ⟨hseg, rfl⟩ := segment_eq_ok h₂
    obtain ⟨⟨⟩, n₃, h₃, hrest₃⟩ := stateT_bind_eq_ok.1 hrest₂
    have hfresh := (h.setStates h₁).numberAll h₃
    obtain ⟨states, hseg₀⟩ := (h.setStates h₁).alike.symm.segment hseg
    have hchildren : seg.kind ≠ .leaf → Numbering.visitChildren i seg.kind entry os n₃ = .ok ((), n') →
        Fresh s₀ n' fun j => S j ∨ s₀.Numbers (.node i os) j := by
      intro hkind h₄
      refine (Fresh.visitChildren os hlaid.nested hfresh h₄).mono ?_
      simp [Schedule.numbers_node hseg₀, Segment.numbered, hkind, or_assoc]
    cases hkind : seg.kind with
    | leaf =>
      rw [hkind] at hrest₃
      have hos : os = [] := hlaid.eq_nil_of_leaf hseg₀ hkind
      refine (hfresh.numberAll hrest₃).mono ?_
      simp [Schedule.numbers_node hseg₀, Segment.numbered, hkind, or_assoc, hos]
    | seq =>
      rw [hkind] at hrest₃ hchildren
      exact hchildren (by simp) hrest₃
    | mutex =>
      rw [hkind] at hrest₃ hchildren
      exact hchildren (by simp) hrest₃
theorem Fresh.visitChildren {m : Module} : (os : List Outline) → ∀ {p : Nat},
    (∀ o ∈ os, Schedule.Laid m s₀ (some p) o) → ∀ {i : Nat} {kind : SegmentKind} {entry : Nat} {n n' : Numbering}
    {S : Nat → Prop}, Fresh s₀ n S → visitChildren i kind entry os n = .ok ((), n') →
      Fresh s₀ n' fun j => S j ∨ ∃ o ∈ os, s₀.Numbers o j
  | [], _, _, i, kind, entry, n, n', S, h, hvisit => by
    cases hvisit
    exact h.mono (by simp)
  | o :: os, _, hlaid, i, kind, entry, n, n', S, h, hvisit => by
    obtain ⟨ho, hos⟩ := List.forall_mem_cons.1 hlaid
    obtain ⟨⟨⟩, n₁, h₁, hrest₁⟩ := stateT_bind_eq_ok.1 hvisit
    obtain ⟨⟨⟩, n₂, h₂, hrest₂⟩ := stateT_bind_eq_ok.1 hrest₁
    have hfresh := (Fresh.visit o ho h h₁).mergeStates h₂
    split at hrest₂
    · obtain ⟨entry', n₃, h₃, hrest₃⟩ := stateT_bind_eq_ok.1 hrest₂
      cases h₃
      have hfresh' : Fresh s₀ { n₂ with maxState := n₂.maxState + 1 } _ :=
        ⟨hfresh.alike, hfresh.below, hfresh.distinct⟩
      exact (Fresh.visitChildren os hos hfresh' hrest₃).mono (by simp [or_assoc])
    · obtain ⟨entry', n₃, h₃, hrest₃⟩ := stateT_bind_eq_ok.1 hrest₂
      cases h₃
      exact (Fresh.visitChildren os hos hfresh hrest₃).mono (by simp [or_assoc])
end

end Numbering

namespace Schedule

/-- The blocks of the segments at and below an outline. -/
def blocks (s : Schedule) (o : Outline) : List Nat :=
  o.preorder.filterMap fun i => (s.segment i).toOption.bind Segment.block

theorem blocks_node {s : Schedule} {i : Nat} {os : List Outline} {seg : Segment} (hseg : s.segment i = .ok seg) :
    s.blocks (.node i os) = seg.block.toList ++ os.flatMap s.blocks := by
  have hnested : (os.flatMap Outline.preorder).filterMap (fun i => (s.segment i).toOption.bind Segment.block) =
      os.flatMap s.blocks := List.filterMap_flatMap
  rw [blocks, Outline.preorder_eq, List.filterMap_cons, hseg, hnested]
  cases hblock : seg.block with
  | none => simp [Except.toOption, hblock]
  | some n => simp [Except.toOption, hblock]

theorem flatMap_sublist_of_forall₂ {α β γ : Type} {R : α → β → Prop} {f : α → List γ} {g : β → List γ} {as : List α}
    {bs : List β} (h : List.Forall₂ R as bs) (hfg : ∀ a ∈ as, ∀ b, R a b → (f a).Sublist (g b)) :
    (as.flatMap f).Sublist (bs.flatMap g) := by
  induction h with
  | nil => exact List.nil_sublist _
  | @cons a b as bs hab _ ih =>
    rw [List.flatMap_cons, List.flatMap_cons]
    exact (hfg a List.mem_cons_self b hab).append (ih fun a' ha' => hfg a' (List.mem_cons_of_mem _ ha'))

/-- The statements of a segment with all that is nested in them. -/
def reach (m : Module) (seg : Segment) : List Nat := seg.spelled.flatMap fun j => (m.outline j).preorder

/-- A segment with a block reaches what stands before it, the block with all that the segments below reach, and what
stands after it. -/
theorem BlockFits.reach_sublist {m : Module} (hwf : m.WellFormed) {s : Schedule} {maxState i n : Nat} {os : List Outline}
    {b : Block} {seg : Segment} {segs : List Segment} (h : BlockFits m s maxState i os n b seg segs) :
    ((seg.prolog.flatMap fun j => (m.outline j).preorder) ++ n :: segs.flatMap (reach m) ++
      seg.epilog.flatMap fun j => (m.outline j).preorder).Sublist (reach m seg) := by
  have hnested : (segs.flatMap (reach m)).Sublist (b.stmts.flatMap fun j => (m.outline j).preorder) := by
    rw [show segs.flatMap (reach m) = (segs.flatMap Segment.spelled).flatMap fun j => (m.outline j).preorder from
      List.flatMap_assoc.symm]
    exact h.spelled.flatMap _
  have hpre : (m.outline n).preorder = n :: b.stmts.flatMap fun j => (m.outline j).preorder :=
    hwf.preorder_eq h.inside_block h.stmt
  rw [reach, h.spelled_eq, List.flatMap_append, List.flatMap_append, List.flatMap_singleton, hpre]
  exact ((List.Sublist.refl _).append (hnested.cons_cons n)).append (.refl _)

theorem Consistent.blocks_sublist {m : Module} (hwf : m.WellFormed) {s : Schedule} {maxState : Nat} {o : Outline}
    (h : Consistent m s maxState o) {seg : Segment} (hseg : s.segment o.index = .ok seg) :
    (s.blocks o).Sublist (reach m seg) := by
  induction h generalizing seg with
  | leaf h =>
    cases h.segment.symm.trans hseg
    rw [blocks_node h.segment, h.block]
    exact List.nil_sublist _
  | @block i n b _ os segs h hos ih =>
    cases h.segment.symm.trans hseg
    have hnested := flatMap_sublist_of_forall₂ h.segments fun o ho c hoc => ih o ho hoc
    rw [blocks_node h.segment, h.block]
    exact (((hnested.cons_cons n).trans (List.sublist_append_right _ _)).trans (List.sublist_append_left _ _)).trans
      (h.reach_sublist hwf)

theorem Consistent.child_mem {m : Module} {s : Schedule} {maxState : Nat} {o : Outline} (h : Consistent m s maxState o)
    {i c : Nat} {seg : Segment} (hi : i ∈ o.preorder) (hseg : s.segment i = .ok seg) (hkind : seg.kind ≠ .leaf)
    (hc : c ∈ seg.children) : c ∈ o.preorder := by
  induction h with
  | leaf h =>
    rw [Outline.preorder_eq, List.flatMap_nil, List.mem_singleton] at hi
    subst hi
    cases h.segment.symm.trans hseg
    exact absurd h.kind hkind
  | block h hos ih =>
    rw [Outline.preorder_eq] at hi ⊢
    refine List.mem_cons_of_mem _ (List.mem_flatMap.2 ?_)
    rcases List.mem_cons.1 hi with rfl | hi
    · cases h.segment.symm.trans hseg
      rw [h.children] at hc
      obtain ⟨o, ho, rfl⟩ := List.mem_map.1 hc
      exact ⟨o, ho, o.index_mem_preorder⟩
    · obtain ⟨o, ho, hi⟩ := List.mem_flatMap.1 hi
      exact ⟨o, ho, ih o ho hi⟩

end Schedule

theorem Schedule.Alike.numbers {s s' : Schedule} (h : s.Alike s') {o : Outline} {j : Nat} (hj : s'.Numbers o j) :
    s.Numbers o j := by
  obtain ⟨i, hi, seg, hseg, hj⟩ := hj
  obtain ⟨states, hseg'⟩ := h.symm.segment hseg
  exact ⟨i, hi, _, hseg', hj⟩

theorem Control.Stmt.id?_mapExprs (f : Expr → Expr) (s : Stmt) : (s.mapExprs f).id? = s.id? := by
  cases s <;> rfl

namespace Module

/-- The same statements have the same ids. -/
def SameIds (m m' : Module) : Prop :=
  ∀ i s', m'.stmt i = .ok s' → ∃ s, m.stmt i = .ok s ∧ s'.id? = s.id?

theorem kept_sameIds : Marking.Kept SameIds where
  refl _ i s hs := ⟨s, hs, rfl⟩
  trans _ _ _ h h' i s hs := by
    obtain ⟨s', hs', hid'⟩ := h' i s hs
    obtain ⟨s'', hs'', hid''⟩ := h i s' hs'
    exact ⟨s'', hs'', hid'.trans hid''⟩
  mark written i m _ m' h := by
    rcases Marking.mark_eq_ok h with rfl | ⟨s, stmts, hs, hstmts, rfl⟩
    · exact fun j t ht => ⟨t, ht, rfl⟩
    · intro j t ht
      have ht : stmts.get j = .ok t := ht
      rw [Arena.get_eq_ok_iff, (Arena.set_eq_ok hstmts).2 j] at ht
      split at ht
      · rename_i hji
        cases ht
        exact ⟨s, hji ▸ hs, Stmt.id?_mapExprs _ s⟩
      · exact ⟨t, (Arena.get_eq_ok_iff _ _ _).2 ht, rfl⟩

theorem stage_distinctIds {m : Module} (hm : m.WellFormed) {s : Schedule} (hs : m.schedule = .ok s) {st : Staged}
    (hst : m.stage s = .ok st) :
    st.module.DistinctIds (st.schedule.Numbers (st.schedule.outline st.schedule.root)) := by
  have hlaid := (schedule_laid hm hs).1
  obtain ⟨n, hn, hst⟩ := Checked.bind_eq_ok.1 hst
  obtain ⟨m', hm', hst⟩ := Checked.bind_eq_ok.1 hst
  cases hst
  obtain ⟨⟨⟨⟩, n'⟩, hvisit, hn⟩ := Checked.bind_eq_ok.1 hn
  cases hn
  have hstart : Numbering.Fresh s ⟨m, s, 0, 0⟩ fun _ => False := ⟨.refl _, by simp, fun _ _ _ _ _ h => h.elim⟩
  have hfresh := hstart.visit _ hlaid hvisit
  have hsame := Marking.kept_markReads kept_sameIds hm'
  intro i j t t' id hi hj ht ht' hid hid'
  dsimp only at hi hj ht ht'
  rw [hfresh.alike.root, hfresh.alike.outline] at hi hj
  obtain ⟨u, hu, hidu⟩ := hsame i t ht
  obtain ⟨u', hu', hidu'⟩ := hsame j t' ht'
  exact hfresh.distinct i j u u' id (.inr (hfresh.alike.numbers hi)) (.inr (hfresh.alike.numbers hj)) hu hu'
    (hidu.symm.trans hid) (hidu'.symm.trans hid')

/-- Different segments have different blocks. -/
theorem stage_blocks_nodup {m : Module} (hm : m.WellFormed) {s : Schedule} (hs : m.schedule = .ok s) {st : Staged}
    (hst : m.stage s = .ok st) : (st.schedule.blocks (st.schedule.outline st.schedule.root)).Nodup := by
  obtain ⟨halike, hconsistent, _, root, hroot⟩ := stage_consistent hm hs hst
  have hwf := halike.wellFormed hm
  have hindex := st.schedule.index_outline st.schedule.root
  have hsub := hconsistent.blocks_sublist hwf (hindex.symm ▸ hroot.segment)
  rw [Schedule.reach, hroot.spelled, List.flatMap_singleton] at hsub
  exact hwf.nodup.sublist hsub

end Module

end Sequencer
