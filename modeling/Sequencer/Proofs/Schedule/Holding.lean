import Sequencer.Proofs.Control.Program
import Sequencer.Proofs.Schedule.Faithful

set_option autoImplicit false

/-!
# Where statements are held

Every statement of a module is held by exactly one segment of its schedule: it is the block of the segment, or one of
the statements around the block or nested in them.
-/

namespace Sequencer

open Control

namespace Module

variable {m : Module}

theorem below_eq (stmts : List Nat) : m.below stmts = stmts.flatMap fun i => (m.outline i).preorder := List.flatMap_map ..

theorem below_append (stmts stmts' : List Nat) : m.below (stmts ++ stmts') = m.below stmts ++ m.below stmts' := by
  rw [below_eq, below_eq, below_eq, List.flatMap_append]

theorem sublist_below (stmts : List Nat) : stmts.Sublist (m.below stmts) := by
  have hsub := Outline.map_index_sublist (stmts.map m.outline)
  rwa [map_index_outline] at hsub

namespace WellFormed

variable (hm : m.WellFormed)

include hm

theorem closed_outline {i : Nat} (hi : i ∈ (m.outline m.root).preorder) : m.Closed (m.outline i) := by
  obtain ⟨o, hpart, rfl⟩ := Outline.exists_part_of_mem hi
  rw [hm.closed o hpart]
  exact fun o' ho' => hm.closed o' (ho'.trans hpart)

/-- A statement of the tree stands in it with what is nested in the statement. -/
theorem part_outline {i : Nat} (hi : i ∈ (m.outline m.root).preorder) {t : Stmt} (ht : m.stmt i = .ok t) :
    Outline.Part (.node i (t.nested.map m.outline)) (m.outline m.root) := by
  obtain ⟨o, hpart, rfl⟩ := Outline.exists_part_of_mem hi
  have ho := hm.closed o hpart
  rw [hm.outline_eq hi ht] at ho
  rw [ho]
  exact hpart

theorem parent_unique {i i' j : Nat} (hi : i ∈ (m.outline m.root).preorder) (hi' : i' ∈ (m.outline m.root).preorder)
    {t t' : Stmt} (ht : m.stmt i = .ok t) (ht' : m.stmt i' = .ok t') (hj : j ∈ t.nested) (hj' : j ∈ t'.nested) :
    i = i' :=
  (hm.part_outline hi ht).parent_unique hm.nodup (hm.part_outline hi' ht') (List.mem_map_of_mem hj)
    (List.mem_map_of_mem hj') rfl

/-- What is nested in a statement at or below a list is below the list. -/
theorem mem_below_of_nested {stmts : List Nat} (hin : ∀ i ∈ stmts, i ∈ (m.outline m.root).preorder) {i j : Nat}
    (hi : i ∈ m.below stmts) {t : Stmt} (ht : m.stmt i = .ok t) (hj : j ∈ t.nested) : j ∈ m.below stmts := by
  rw [below_eq, List.mem_flatMap] at hi ⊢
  obtain ⟨k, hk, hi⟩ := hi
  refine ⟨k, hk, ?_⟩
  obtain ⟨o, hpart, rfl⟩ := Outline.exists_part_of_mem hi
  have ho := hm.closed_outline (hin k hk) o hpart
  rw [hm.outline_eq (hm.preorder_subset (hin k hk) _ hi) ht] at ho
  rw [← ho] at hpart
  have hmem := hpart.index_mem (List.mem_map_of_mem hj)
  rwa [m.index_outline] at hmem

end WellFormed

end Module

namespace Segment

/-- The statements of a segment apart from its block, in the order in which they run. -/
def loose (seg : Segment) : List Nat := seg.prolog ++ seg.stmts ++ seg.epilog

/-- The block of a segment, and all other statements of the segment with what is nested in them. -/
def held (m : Module) (seg : Segment) : List Nat := seg.block.toList ++ m.below seg.loose

theorem block_mem_held {m : Module} {seg : Segment} {n : Nat} (h : seg.block = some n) : n ∈ seg.held m := by
  simp [held, h]

theorem below_mem_held {m : Module} {seg : Segment} {j : Nat} (h : j ∈ m.below seg.loose) : j ∈ seg.held m :=
  List.mem_append_right _ h

theorem loose_mem_held {m : Module} {seg : Segment} {i : Nat} (h : i ∈ seg.loose) : i ∈ seg.held m :=
  below_mem_held ((Module.sublist_below _).subset h)

end Segment

namespace Schedule

variable {m : Module} {s : Schedule}

/-- The statements that the segments at and below an outline hold. -/
def holding (m : Module) (s : Schedule) (o : Outline) : List Nat :=
  o.preorder.flatMap fun i => (s.segment i).toOption.elim [] (Segment.held m)

theorem holding_node {i : Nat} {os : List Outline} {seg : Segment} (hseg : s.segment i = .ok seg) :
    s.holding m (.node i os) = seg.held m ++ os.flatMap (s.holding m) := by
  rw [holding, Outline.preorder_eq, List.flatMap_cons, hseg, List.flatMap_assoc]
  rfl

/-- What a segment holds, in the order in which it runs. -/
theorem run_order_perm (m : Module) {i : Nat} {seg : Segment} (hseg : s.segment i = .ok seg) (os : List Outline) :
    (m.below seg.prolog ++ (seg.block.toList ++ (m.below seg.stmts ++ os.flatMap (s.holding m) ++
      m.below seg.epilog))).Perm (s.holding m (.node i os)) := by
  rw [holding_node hseg, Segment.held, Segment.loose, Module.below_append, Module.below_append, List.perm_iff_count]
  intro j
  simp only [List.count_append]
  omega

theorem perm_flatMap_of_forall₂ {α β γ : Type} {R : α → β → Prop} {f : α → List γ} {g : β → List γ} {as : List α}
    {bs : List β} (h : List.Forall₂ R as bs) (hfg : ∀ a ∈ as, ∀ b, R a b → (f a).Perm (g b)) :
    (as.flatMap f).Perm (bs.flatMap g) := by
  induction h with
  | nil => exact .refl _
  | @cons a b as bs hab _ ih =>
    rw [List.flatMap_cons, List.flatMap_cons]
    exact (hfg a List.mem_cons_self b hab).append (ih fun a' ha' => hfg a' (List.mem_cons_of_mem _ ha'))

/-- The segments at and below an outline hold what the top one stands for, with all that is nested in it. -/
theorem Laid.holding_perm (hm : m.WellFormed) {parent : Option Nat} {o : Outline} (h : Laid m s parent o) {top : Segment}
    (htop : s.segment o.index = .ok top) (hin : ∀ j ∈ top.spelled, j ∈ (m.outline m.root).preorder) :
    (s.holding m o).Perm (m.below top.spelled) := by
  induction h generalizing top with
  | @leaf parent i seg hseg _ hkind hblock _ hprolog hepilog _ =>
    cases hseg.symm.trans htop
    rw [holding_node hseg, Segment.held, hblock, Segment.spelled, hkind]
    simp [Segment.loose]
  | @block parent i n b seg os segs hseg _ hblock hstmt _ hstmts _ _ hsegs hkind hspelled _ ih =>
    cases hseg.symm.trans htop
    have hown : seg.spelled = seg.prolog ++ [n] ++ seg.epilog := Segment.spelled_of_block (ne_leaf hkind) hblock
    have hn : n ∈ (m.outline m.root).preorder := hin n (by simp [hown])
    have hnested : (os.flatMap (s.holding m)).Perm (m.below b.stmts) := by
      rw [← hspelled, Module.below_eq, List.flatMap_assoc]
      refine perm_flatMap_of_forall₂ hsegs fun o ho c hoc => ?_
      rw [← Module.below_eq]
      refine ih o ho hoc fun j hj => (hm.nested hn hstmt ?_).1
      obtain ⟨c', hc', hoc'⟩ := exists_of_mem_forall₂ hsegs.flip ho
      cases hoc.symm.trans hoc'
      rw [Stmt.nested, ← hspelled]
      exact List.mem_flatMap.2 ⟨c, hc', hj⟩
    have hbelow : m.below [n] = n :: m.below b.stmts := by
      rw [Module.below_eq, List.flatMap_singleton, hm.preorder_eq hn hstmt, Module.below_eq]
      rfl
    have hheld : seg.held m = n :: (m.below seg.prolog ++ m.below seg.epilog) := by
      rw [Segment.held, Segment.loose, hblock, hstmts, List.append_nil, Module.below_append]
      rfl
    rw [hown, Module.below_append, Module.below_append, hbelow]
    calc s.holding m (.node i os)
      _ = n :: (m.below seg.prolog ++ m.below seg.epilog ++ os.flatMap (s.holding m)) := by
        rw [holding_node hseg, hheld, List.cons_append]
      List.Perm _ (n :: (m.below seg.prolog ++ (m.below seg.epilog ++ m.below b.stmts))) := by
        rw [List.append_assoc]
        exact ((hnested.append_left _).append_left _).cons n
      List.Perm _ (n :: (m.below seg.prolog ++ (m.below b.stmts ++ m.below seg.epilog))) :=
        (List.perm_append_comm.append_left _).cons n
      List.Perm _ (m.below seg.prolog ++ n :: (m.below b.stmts ++ m.below seg.epilog)) := List.perm_middle.symm
      _ = m.below seg.prolog ++ n :: m.below b.stmts ++ m.below seg.epilog := by simp

section Scheduled

variable (hm : m.WellFormed) (hs : m.schedule = .ok s)

include hm hs

theorem holding_root_perm : (s.holding m (s.outline s.root)).Perm (m.outline m.root).preorder := by
  obtain ⟨hlaid, _, seg, hseg, hspelled, _⟩ := Module.schedule_laid hm hs
  have hindex := s.index_outline s.root
  have hperm := hlaid.holding_perm hm (hindex.symm ▸ hseg) fun j hj => by
    rw [hspelled, List.mem_singleton] at hj
    exact hj ▸ m.mem_outline m.root
  rwa [hspelled, Module.below_eq, List.flatMap_singleton] at hperm

theorem holding_root_nodup : (s.holding m (s.outline s.root)).Nodup :=
  (holding_root_perm hm hs).nodup_iff.2 hm.nodup

theorem segment_mem_outline {u : Nat} {seg : Segment} (hseg : s.segment u = .ok seg) :
    u ∈ (s.outline s.root).preorder :=
  mem_preorder_of_segment (Module.schedule_laid hm hs).2.1 hseg

theorem held_sublist {u : Nat} {seg : Segment} (hseg : s.segment u = .ok seg) :
    (seg.held m).Sublist (s.holding m (s.outline s.root)) := by
  have hmem : seg.held m ∈ (s.outline s.root).preorder.map fun i => (s.segment i).toOption.elim [] (Segment.held m) :=
    List.mem_map.2 ⟨u, segment_mem_outline hm hs hseg, by rw [hseg]; rfl⟩
  rw [holding, List.flatMap_def]
  exact List.sublist_flatten_of_mem hmem

theorem held_nodup {u : Nat} {seg : Segment} (hseg : s.segment u = .ok seg) : (seg.held m).Nodup :=
  (holding_root_nodup hm hs).sublist (held_sublist hm hs hseg)

theorem loose_nodup {u : Nat} {seg : Segment} (hseg : s.segment u = .ok seg) : seg.loose.Nodup :=
  (List.nodup_append.1 (held_nodup hm hs hseg)).2.1.sublist (Module.sublist_below _)

theorem block_not_below {u n : Nat} {seg : Segment} (hseg : s.segment u = .ok seg) (hn : seg.block = some n) :
    n ∉ m.below seg.loose := by
  have hnodup := held_nodup hm hs hseg
  rw [Segment.held, hn, Option.toList_some, List.singleton_append, List.nodup_cons] at hnodup
  exact hnodup.1

theorem mem_tree_of_held {u j : Nat} {seg : Segment} (hseg : s.segment u = .ok seg) (hj : j ∈ seg.held m) :
    j ∈ (m.outline m.root).preorder :=
  (holding_root_perm hm hs).subset ((held_sublist hm hs hseg).subset hj)

/-- No statement is held by two segments. -/
theorem held_unique {u u' j : Nat} {seg seg' : Segment} (hseg : s.segment u = .ok seg) (hseg' : s.segment u' = .ok seg')
    (hj : j ∈ seg.held m) (hj' : j ∈ seg'.held m) : u = u' := by
  refine eq_of_mem_of_nodup_flatMap (holding_root_nodup hm hs) (segment_mem_outline hm hs hseg)
    (segment_mem_outline hm hs hseg') (b := j) ?_ ?_
  · rw [hseg]
    exact hj
  · rw [hseg']
    exact hj'

theorem loose_subset_spelled {u : Nat} {seg : Segment} (hseg : s.segment u = .ok seg) : seg.loose ⊆ seg.spelled := by
  obtain ⟨hlaid, hpre, _⟩ := Module.schedule_laid hm hs
  obtain ⟨os, parent, _, hl, _⟩ := exists_laid hlaid hpre hseg
  cases hl with
  | leaf hseg' _ hkind =>
    cases hseg.symm.trans hseg'
    rw [Segment.spelled, hkind]
    exact List.Subset.refl _
  | block hseg' _ hblock _ _ hstmts _ _ _ hkind =>
    cases hseg.symm.trans hseg'
    intro i hi
    rw [Segment.spelled_of_block (ne_leaf hkind) hblock]
    rw [Segment.loose, hstmts] at hi
    simp only [List.append_nil, List.mem_append] at hi ⊢
    exact hi.imp_left .inl

/-- What a segment runs besides its block is nested directly in the block of another segment. -/
theorem exists_block_around {u i : Nat} {seg : Segment} (hseg : s.segment u = .ok seg) (hi : i ∈ seg.loose) :
    ∃ p above n b, s.segment p = .ok above ∧ above.block = some n ∧ m.stmt n = .ok (.block b) ∧ i ∈ b.stmts := by
  obtain ⟨hlaid, hpre, root, hroot, hspelled, hblock⟩ := Module.schedule_laid hm hs
  have hspells := loose_subset_spelled hm hs hseg hi
  have hne : u ≠ s.root := by
    rintro rfl
    cases hseg.symm.trans hroot
    rw [hspelled, List.mem_singleton] at hspells
    exact block_not_below hm hs hseg hblock (hspells ▸ (Module.sublist_below _).subset hi)
  obtain ⟨p, above, _, habove, hu⟩ := parent_lists hlaid hpre hseg hne
  have hkind : above.kind ≠ .leaf := by
    intro hleaf
    rw [(leaf_facts hlaid hpre habove hleaf).2.1] at hu
    exact List.not_mem_nil hu
  obtain ⟨n, b, segs, hn, hb, hsegs, hstmts⟩ := children_spell_block hlaid hpre habove hkind
  obtain ⟨seg', hmem, hseg'⟩ := exists_of_mem_forall₂ (Checked.mapM_eq_ok hsegs).flip hu
  cases hseg.symm.trans hseg'
  exact ⟨p, above, n, b, habove, hn, hb, hstmts ▸ List.mem_flatMap.2 ⟨seg, hmem, hspells⟩⟩

end Scheduled

end Schedule

end Sequencer
