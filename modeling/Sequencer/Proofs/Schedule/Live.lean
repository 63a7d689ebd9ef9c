import Mathlib.Data.List.Pairwise
import Mathlib.Logic.Relation
import Sequencer.Proofs.Schedule.Staged

set_option autoImplicit false

/-!
# Live segments

In a given state, and with given values of all guards, at most one segment below another is taken, so that at most one
leaf is live: the one in the current state whose enclosing blocks are all entered.
-/

namespace Sequencer

open Control

variable {V : Type} (I : Interpretation V) (ρ : Valuation V)

/-- The statement at `j` is a block whose guard holds. -/
def Module.Opens (m : Module) (j : Nat) : Prop := ∃ b, m.stmt j = .ok (.block b) ∧ Cond.holds I ρ b.guard = true

/-- At most one branch of each container has a condition that holds. -/
def Module.Exclusive (m : Module) : Prop :=
  ∀ n ∈ (m.outline m.root).preorder, ∀ b, m.stmt n = .ok (.block b) → b.kind = .container →
    b.stmts.Pairwise fun j j' => ¬(m.Opens I ρ j ∧ m.Opens I ρ j')

/-- Without a container there is nothing to exclude. -/
theorem Module.exclusive_of_no_container {m : Module}
    (h : ∀ s ∈ m.stmts.toList, ∀ b ∈ s.block?, b.kind ≠ .container) : m.Exclusive I ρ := by
  intro n _ b hb hkind
  exact absurd hkind (h _ (Arena.mem_toList_of_get hb) b rfl)

namespace Schedule

variable (m : Module) (s : Schedule)

/-- The segment `a` encloses the segment `j`. -/
def Around : Nat → Nat → Prop := Relation.TransGen fun a j => ∃ seg, s.segment j = .ok seg ∧ seg.parent = some a

/-- The guard of the block of segment `i` holds, if it has one. -/
def Entered (i : Nat) : Prop := ∀ seg n, s.segment i = .ok seg → seg.block = some n → m.Opens I ρ n

/-- The leaf segment at `j` runs in state `k`: all blocks around it are entered. -/
structure Live (k j : Nat) (leaf : Segment) : Prop where
  segment : s.segment j = .ok leaf
  kind : leaf.kind = .leaf
  state : k ∈ leaf.states
  entered : ∀ a, s.Around a j → s.Entered I ρ m a

/-- The segment at `i` has the state `k` and its guard holds. -/
def Taken (k i : Nat) : Prop := (∃ seg, s.segment i = .ok seg ∧ k ∈ seg.states) ∧ s.Entered I ρ m i

/-- The leaf is below the outline, in state `k`, and all blocks around it from there on are entered. -/
inductive LiveIn (k : Nat) : Outline → Segment → Prop
  | leaf {i : Nat} {seg : Segment} (hseg : s.segment i = .ok seg) (hkind : seg.kind = .leaf) (hk : k ∈ seg.states) :
    LiveIn k (.node i []) seg
  | block {i : Nat} {o : Outline} {os : List Outline} {seg : Segment} (hopen : s.Entered I ρ m i) (ho : o ∈ os)
    (h : LiveIn k o seg) : LiveIn k (.node i os) seg

variable {m s} {I ρ} {k maxState : Nat} {o : Outline} {leaf : Segment}

theorem LeafFits.entered {i : Nat} {seg : Segment} (h : LeafFits m s maxState i seg) : s.Entered I ρ m i := by
  intro seg' n hseg hn
  cases h.segment.symm.trans hseg
  rw [h.block] at hn
  cases hn

section Block

variable {i n : Nat} {os : List Outline} {b : Block} {seg : Segment} {segs : List Segment}
  (h : BlockFits m s maxState i os n b seg segs)

include h

theorem BlockFits.entered_iff : s.Entered I ρ m i ↔ Cond.holds I ρ b.guard = true := by
  constructor
  · intro hentered
    obtain ⟨b', hb', hopen⟩ := hentered seg n h.segment h.block
    cases h.stmt.symm.trans hb'
    exact hopen
  · intro hopen seg' n' hseg hn
    cases h.segment.symm.trans hseg
    cases h.block.symm.trans hn
    exact ⟨b, h.stmt, hopen⟩

theorem BlockFits.taken_iff : s.Taken I ρ m k i ↔ k ∈ seg.states ∧ s.Entered I ρ m i := by
  constructor
  · rintro ⟨⟨seg', hseg, hk⟩, hentered⟩
    cases h.segment.symm.trans hseg
    exact ⟨hk, hentered⟩
  · rintro ⟨hk, hentered⟩
    exact ⟨⟨seg, h.segment, hk⟩, hentered⟩

theorem BlockFits.liveIn_iff : LiveIn I ρ m s k (.node i os) leaf ↔
    s.Entered I ρ m i ∧ ∃ o ∈ os, LiveIn I ρ m s k o leaf := by
  constructor
  · intro hlive
    cases hlive with
    | leaf hseg hkind =>
      cases h.segment.symm.trans hseg
      exact absurd hkind h.not_leaf
    | block hopen ho hlive => exact ⟨hopen, _, ho, hlive⟩
  · rintro ⟨hopen, o, ho, hlive⟩
    exact .block hopen ho hlive

end Block

theorem Consistent.exists_block (h : Consistent m s maxState o) {seg : Segment}
    (hseg : s.segment o.index = .ok seg) (hkind : seg.kind ≠ .leaf) : ∃ n, seg.block = some n ∧ n ∈ seg.spelled := by
  cases h with
  | leaf h =>
    cases hseg.symm.trans h.segment
    exact absurd h.kind hkind
  | block h =>
    cases hseg.symm.trans h.segment
    exact ⟨_, h.block, by simp [h.spelled_eq]⟩

theorem Consistent.not_leaf_of_block (h : Consistent m s maxState o) {seg : Segment}
    (hseg : s.segment o.index = .ok seg) {n : Nat} (hblock : seg.block = some n) : seg.kind ≠ .leaf := by
  cases h with
  | leaf h =>
    cases hseg.symm.trans h.segment
    rw [h.block] at hblock
    cases hblock
  | block h =>
    cases hseg.symm.trans h.segment
    exact h.not_leaf

theorem Consistent.states (h : Consistent m s maxState o) {seg : Segment} (hseg : s.segment o.index = .ok seg) :
    seg.states ≠ [] ∧ seg.states.Nodup ∧ ∀ x ∈ seg.states, x ≤ maxState := by
  cases h with
  | leaf h =>
    cases hseg.symm.trans h.segment
    exact ⟨h.states.ne_nil, h.states.nodup, h.states.le_max⟩
  | block h =>
    cases hseg.symm.trans h.segment
    exact ⟨h.states.ne_nil, h.states.nodup, h.states.le_max⟩

theorem LiveIn.taken (h : Consistent m s maxState o) (hlive : LiveIn I ρ m s k o leaf) :
    s.Taken I ρ m k o.index := by
  induction h with
  | leaf h =>
    cases hlive with
    | leaf hseg _ hk => exact ⟨⟨_, hseg, hk⟩, h.entered⟩
    | block _ ho => cases ho
  | block h hos ih =>
    obtain ⟨hopen, o, ho, hlive⟩ := h.liveIn_iff.1 hlive
    obtain ⟨⟨c, hc, hk⟩, _⟩ := ih o ho hlive
    obtain ⟨c', hc', hoc⟩ := h.child ho
    cases hc.symm.trans hoc
    exact h.taken_iff.2 ⟨h.states.sub c hc' k hk, hopen⟩

theorem pairwise_of_forall₂ {α β : Type} {R : α → β → Prop} {P : β → β → Prop} {Q : α → α → Prop} {as : List α}
    {bs : List β} (h : List.Forall₂ R as bs) (hbs : bs.Pairwise P)
    (hQ : ∀ a a' b b', a ∈ as → a' ∈ as → b ∈ bs → b' ∈ bs → R a b → R a' b' → P b b' → Q a a') : as.Pairwise Q := by
  induction h with
  | nil => exact .nil
  | @cons a b as bs hab h ih =>
    rw [List.pairwise_cons] at hbs ⊢
    refine ⟨?_, ih hbs.2 ?_⟩
    · intro a' ha'
      obtain ⟨b', hb', hab'⟩ := exists_of_mem_forall₂ h.flip ha'
      exact hQ a a' b b' List.mem_cons_self (List.mem_cons_of_mem _ ha') List.mem_cons_self (List.mem_cons_of_mem _ hb')
        hab hab' (hbs.1 b' hb')
    · intro a a' b b' ha ha' hb hb'
      exact hQ a a' b b' (List.mem_cons_of_mem _ ha) (List.mem_cons_of_mem _ ha') (List.mem_cons_of_mem _ hb)
        (List.mem_cons_of_mem _ hb')

theorem BlockFits.pairwise_states {i n : Nat} {os : List Outline} {b : Block} {seg : Segment} {segs : List Segment}
    (h : BlockFits m s maxState i os n b seg segs) (hseq : seg.kind = .seq) :
    os.Pairwise fun o o' => ¬((∃ c, s.segment o.index = .ok c ∧ k ∈ c.states) ∧
      ∃ c, s.segment o'.index = .ok c ∧ k ∈ c.states) := by
  refine pairwise_of_forall₂ h.segments (h.states.disjoint hseq) ?_
  rintro o o' c c' _ _ _ _ hoc hoc' hdisj ⟨⟨d, hd, hk⟩, d', hd', hk'⟩
  cases hoc.symm.trans hd
  cases hoc'.symm.trans hd'
  exact hdisj k hk hk'

theorem eq_of_pairwise_not {α : Type} {p : α → Prop} {as : List α} (h : as.Pairwise fun a a' => ¬(p a ∧ p a')) {a a' : α}
    (ha : a ∈ as) (ha' : a' ∈ as) (hp : p a) (hp' : p a') : a = a' := by
  by_contra hne
  have hsymm : Std.Symm fun a a' => ¬(p a ∧ p a') := ⟨fun _ _ h h' => h h'.symm⟩
  exact h.forall ha ha' hne ⟨hp, hp'⟩

/-- A state belongs to one segment of a sequence. -/
theorem BlockFits.eq_of_state {i n : Nat} {os : List Outline} {b : Block} {seg : Segment} {segs : List Segment}
    (h : BlockFits m s maxState i os n b seg segs) (hseq : seg.kind = .seq) {o o' : Outline} (ho : o ∈ os) (ho' : o' ∈ os)
    {c c' : Segment} (hc : s.segment o.index = .ok c) (hc' : s.segment o'.index = .ok c') (hk : k ∈ c.states)
    (hk' : k ∈ c'.states) : o = o' :=
  eq_of_pairwise_not (h.pairwise_states hseq) ho ho' ⟨c, hc, hk⟩ ⟨c', hc', hk'⟩

/-- Of the segments below another, at most one is taken. -/
theorem BlockFits.pairwise_taken (hex : m.Exclusive I ρ) {i n : Nat} {os : List Outline} {b : Block} {seg : Segment}
    {segs : List Segment} (h : BlockFits m s maxState i os n b seg segs) (hos : ∀ o ∈ os, Consistent m s maxState o) :
    os.Pairwise fun o o' => ¬(s.Taken I ρ m k o.index ∧ s.Taken I ρ m k o'.index) := by
  rcases h.kind with ⟨hseq, _⟩ | ⟨hmutex, ⟨hcontainer, hnleaf⟩ | ⟨_, hle⟩⟩
  · refine (h.pairwise_states (k := k) hseq).imp ?_
    rintro o o' hnot ⟨⟨hk, _⟩, hk', _⟩
    exact hnot ⟨hk, hk'⟩
  · have hpair := (hex n h.inside_block b h.stmt hcontainer).sublist h.spelled
    rw [List.pairwise_flatMap] at hpair
    refine pairwise_of_forall₂ h.segments hpair.2 ?_
    rintro o o' c c' ho ho' hc hc' hoc hoc' hnot ⟨⟨_, hopen⟩, _, hopen'⟩
    obtain ⟨x, hx, hxs⟩ := (hos o ho).exists_block hoc (hnleaf c hc)
    obtain ⟨y, hy, hys⟩ := (hos o' ho').exists_block hoc' (hnleaf c' hc')
    exact hnot x hxs y hys ⟨hopen c x hoc hx, hopen' c' y hoc' hy⟩
  · rw [← h.segments.length_eq] at hle
    match os, hle with
    | [], _ => exact .nil
    | [o], _ => exact List.pairwise_singleton _ _
    | _ :: _ :: _, hle => simp at hle

theorem around_iff {i j : Nat} {seg : Segment} (hseg : s.segment j = .ok seg) (hparent : seg.parent = some i) :
    (∀ a, s.Around a j → s.Entered I ρ m a) ↔ s.Entered I ρ m i ∧ ∀ a, s.Around a i → s.Entered I ρ m a := by
  constructor
  · intro h
    exact ⟨h i (.single ⟨seg, hseg, hparent⟩), fun a ha => h a (ha.tail ⟨seg, hseg, hparent⟩)⟩
  · rintro ⟨hi, h⟩ a ha
    cases ha with
    | single hstep =>
      obtain ⟨seg', hseg', hparent'⟩ := hstep
      cases hseg.symm.trans hseg'
      cases hparent.symm.trans hparent'
      exact hi
    | tail hab hstep =>
      obtain ⟨seg', hseg', hparent'⟩ := hstep
      cases hseg.symm.trans hseg'
      cases hparent.symm.trans hparent'
      exact h a hab

theorem not_around_root {j : Nat} {seg : Segment} (hseg : s.segment j = .ok seg) (hparent : seg.parent = none) (a : Nat) :
    ¬s.Around a j := by
  intro h
  obtain ⟨b, _, seg', hseg', hparent'⟩ := Relation.TransGen.tail'_iff.1 h
  cases hseg.symm.trans hseg'
  rw [hparent] at hparent'
  cases hparent'

theorem LiveIn.live (h : Consistent m s maxState o) (hlive : LiveIn I ρ m s k o leaf)
    (haround : ∀ a, s.Around a o.index → s.Entered I ρ m a) : ∃ j, s.Live I ρ m k j leaf := by
  induction h with
  | leaf h =>
    cases hlive with
    | leaf hseg hkind hk => exact ⟨_, hseg, hkind, hk, haround⟩
    | block _ ho => cases ho
  | block h hos ih =>
    obtain ⟨hopen, o, ho, hlive⟩ := h.liveIn_iff.1 hlive
    obtain ⟨c, hc, hoc⟩ := h.child ho
    exact ih o ho hlive ((around_iff hoc (h.parents c hc)).2 ⟨hopen, haround⟩)

theorem Live.liveIn (h : Consistent m s maxState o) {j : Nat} (hj : j ∈ o.preorder)
    (hlive : s.Live I ρ m k j leaf) :
    LiveIn I ρ m s k o leaf ∧ ∀ a, s.Around a o.index → s.Entered I ρ m a := by
  induction h with
  | leaf h =>
    rw [Outline.preorder_eq, List.flatMap_nil, List.mem_singleton] at hj
    subst hj
    exact ⟨.leaf hlive.segment hlive.kind hlive.state, hlive.entered⟩
  | block h hos ih =>
    rw [Outline.preorder_eq] at hj
    rcases List.mem_cons.1 hj with rfl | hj
    · cases h.segment.symm.trans hlive.segment
      exact absurd hlive.kind h.not_leaf
    · obtain ⟨o, ho, hj⟩ := List.mem_flatMap.1 hj
      obtain ⟨hin, haround⟩ := ih o ho hj
      obtain ⟨c, hc, hoc⟩ := h.child ho
      obtain ⟨hentered, haround'⟩ := (around_iff hoc (h.parents c hc)).1 haround
      exact ⟨.block hentered ho hin, haround'⟩

/-- Below the top, every segment has a parent, which is the segment of a block. -/
theorem Consistent.exists_parent (h : Consistent m s maxState o) {j : Nat} (hj : j ∈ o.preorder) (hne : j ≠ o.index) :
    ∃ i os n b seg segs, BlockFits m s maxState i os n b seg segs ∧ (∀ o' ∈ os, Consistent m s maxState o') ∧
      (Outline.node i os).Part o ∧ ∃ o' ∈ os, o'.index = j := by
  induction h with
  | leaf h =>
    rw [Outline.preorder_eq, List.flatMap_nil, List.mem_singleton] at hj
    exact absurd hj hne
  | block h hos ih =>
    rw [Outline.preorder_eq] at hj
    obtain ⟨o, ho, hj⟩ := List.mem_flatMap.1 ((List.mem_cons.1 hj).resolve_left hne)
    by_cases hjo : j = o.index
    · exact ⟨_, _, _, _, _, _, h, hos, .refl _, o, ho, hjo.symm⟩
    · obtain ⟨i, os, n, b, seg, segs, hfits, hcons, hpart, hmem⟩ := ih o ho hj hjo
      exact ⟨i, os, n, b, seg, segs, hfits, hcons, .nested ho hpart, hmem⟩

theorem Consistent.exists_part (h : Consistent m s maxState o) {j : Nat} (hj : j ∈ o.preorder) :
    ∃ o', o'.index = j ∧ o'.Part o ∧ Consistent m s maxState o' := by
  by_cases hne : j = o.index
  · exact ⟨o, hne.symm, .refl o, h⟩
  · obtain ⟨i, os, n, b, seg, segs, _, hos, hpart, o', ho', rfl⟩ := h.exists_parent hj hne
    exact ⟨o', rfl, (Outline.Part.nested ho' (.refl o')).trans hpart, hos o' ho'⟩

theorem Consistent.around (h : Consistent m s maxState o) {j : Nat} (hj : j ∈ o.preorder) (hne : j ≠ o.index) :
    s.Around o.index j := by
  induction h with
  | leaf h =>
    rw [Outline.preorder_eq, List.flatMap_nil, List.mem_singleton] at hj
    exact absurd hj hne
  | block h hos ih =>
    rw [Outline.preorder_eq] at hj
    obtain ⟨o, ho, hj⟩ := List.mem_flatMap.1 ((List.mem_cons.1 hj).resolve_left hne)
    obtain ⟨c, hc, hoc⟩ := h.child ho
    have hlink : ∃ seg, s.segment o.index = .ok seg ∧ seg.parent = some _ := ⟨c, hoc, h.parents c hc⟩
    by_cases hjo : j = o.index
    · rw [hjo]
      exact .single hlink
    · exact .head hlink (ih o ho hj hjo)

/-- The live leaves are those that all blocks around them from the root on let be reached. -/
theorem live_iff (h : Consistent m s maxState o) {root : Segment} (hroot : s.segment o.index = .ok root)
    (hparent : root.parent = none) (hin : ∀ j seg, s.segment j = .ok seg → j ∈ o.preorder) :
    (∃ j, s.Live I ρ m k j leaf) ↔ LiveIn I ρ m s k o leaf := by
  constructor
  · rintro ⟨j, hj⟩
    exact (hj.liveIn h (hin j leaf hj.segment)).1
  · intro hlive
    exact hlive.live h fun a ha => absurd ha (not_around_root hroot hparent a)

end Schedule

theorem RootFits.taken {st : Staged} {seg : Segment} (h : RootFits st seg) (hwf : st.module.WellFormed) {k : Nat}
    (hk : k ≤ st.maxState) : k ∈ seg.states ∧ st.schedule.Taken I ρ st.module k st.schedule.root := by
  have hmem : k ∈ seg.states := by
    rw [h.states, Numbering.mem_span]
    omega
  refine ⟨hmem, ⟨seg, h.segment, hmem⟩, ?_⟩
  intro seg' n hseg hn
  cases h.segment.symm.trans hseg
  cases h.block.symm.trans hn
  obtain ⟨b, hb, _, hguard⟩ := hwf.root_block
  exact ⟨b, hb, by rw [hguard, Cond.holds_none]⟩

end Sequencer
