import Sequencer.Proofs.Control.Tree
import Sequencer.Schedule.Plan

set_option autoImplicit false

/-!
# Plans keep all statements

The parts below a part spell out the statements of its block in order. A leaf holds at most one statement that blocks,
which is a yield, and all statements that run with another part are free.
-/

namespace Sequencer

open Control

namespace Module

/-- A statement that does not block. -/
def Free (m : Module) (j : Nat) : Prop := m.isBlocking j = .ok false

/-- Statements of one cycle: free ones and at most one yield. -/
def SingleCycle (m : Module) (ss : List Nat) : Prop :=
  ∃ pre mid post, ss = pre ++ mid ++ post ∧ (∀ j ∈ pre, m.Free j) ∧ (∀ j ∈ post, m.Free j) ∧
    (mid = [] ∨ ∃ j y, mid = [j] ∧ m.stmt j = .ok (.yield y))

theorem SingleCycle.prepend {m : Module} {ss js : List Nat} (h : m.SingleCycle ss) (hjs : ∀ j ∈ js, m.Free j) :
    m.SingleCycle (js ++ ss) := by
  obtain ⟨pre, mid, post, rfl, hpre, hpost, hmid⟩ := h
  refine ⟨js ++ pre, mid, post, by simp, ?_, hpost, hmid⟩
  intro j hj
  exact (List.mem_append.1 hj).elim (hjs j) (hpre j)

theorem SingleCycle.append {m : Module} {ss : List Nat} {j : Nat} (h : m.SingleCycle ss) (hj : m.Free j) :
    m.SingleCycle (ss ++ [j]) := by
  obtain ⟨pre, mid, post, rfl, hpre, hpost, hmid⟩ := h
  refine ⟨pre, mid, post ++ [j], by simp, hpre, ?_, hmid⟩
  intro x hx
  rcases List.mem_append.1 hx with hx | hx
  · exact hpost x hx
  · exact List.mem_singleton.1 hx ▸ hj

theorem SingleCycle.of_free {m : Module} {ss : List Nat} (h : ∀ j ∈ ss, m.Free j) : m.SingleCycle ss :=
  ⟨ss, [], [], by simp, h, by simp, .inl rfl⟩

theorem SingleCycle.of_yield {m : Module} {j : Nat} {y : Yield} (h : m.stmt j = .ok (.yield y)) : m.SingleCycle [j] :=
  ⟨[], [j], [], by simp, by simp, by simp, .inr ⟨j, y, rfl, h⟩⟩

end Module

namespace Plan

def isLeaf : Plan → Bool
  | part k _ _ _ _ _ => k = .leaf

/-- The statements of the block around a part that the part holds. -/
def spelled : Plan → List Nat
  | part .leaf _ p ss e _ => p ++ ss ++ e
  | part _ b p _ e _ => p ++ b.toList ++ e

inductive Sound (m : Module) : Plan → Prop
  | leaf {ss : List Nat} (hss : m.SingleCycle ss) : Sound m (.leaf ss)
  | block {k : SegmentKind} {n : Nat} {b : Block} {p e : List Nat} {cs : List Plan} (hstmt : m.stmt n = .ok (.block b))
    (hkind : k = .seq ∧ b.kind ≠ .container ∨
      k = .mutex ∧ (b.kind = .container ∧ (∀ c ∈ cs, c.isLeaf = false) ∨ b.kind = .conditional ∧ cs.length ≤ 1))
    (hp : ∀ j ∈ p, m.Free j) (he : ∀ j ∈ e, m.Free j) (hspelled : cs.flatMap spelled = b.stmts)
    (hcs : ∀ c ∈ cs, Sound m c) : Sound m (.part k (some n) p [] e cs)

namespace Sound

variable {m : Module} {p : Plan}

theorem prepend (h : p.Sound m) {js : List Nat} (hjs : ∀ j ∈ js, m.Free j) :
    (p.prepend js).Sound m ∧ (p.prepend js).spelled = js ++ p.spelled ∧ (p.prepend js).isLeaf = p.isLeaf := by
  cases h with
  | leaf hss => exact ⟨.leaf (hss.prepend hjs), by simp [Plan.leaf, Plan.prepend, spelled], rfl⟩
  | @block k n b q e cs hstmt hkind hp he hspelled hcs =>
    have hjp : ∀ j ∈ js ++ q, m.Free j := fun j hj => (List.mem_append.1 hj).elim (hjs j) (hp j)
    rcases hkind with ⟨rfl, hk⟩ | ⟨rfl, hk⟩
    · exact ⟨.block hstmt (.inl ⟨rfl, hk⟩) hjp he hspelled hcs, by simp [Plan.prepend, spelled], rfl⟩
    · exact ⟨.block hstmt (.inr ⟨rfl, hk⟩) hjp he hspelled hcs, by simp [Plan.prepend, spelled], rfl⟩

theorem append (h : p.Sound m) {j : Nat} (hj : m.Free j) :
    (p.append j).Sound m ∧ (p.append j).spelled = p.spelled ++ [j] ∧ (p.append j).isLeaf = p.isLeaf := by
  cases h with
  | leaf hss => exact ⟨.leaf (hss.append hj), by simp [Plan.leaf, Plan.append, spelled], rfl⟩
  | @block k n b q e cs hstmt hkind hp he hspelled hcs =>
    have hej : ∀ x ∈ e ++ [j], m.Free x := by
      intro x hx
      rcases List.mem_append.1 hx with hx | hx
      · exact he x hx
      · exact List.mem_singleton.1 hx ▸ hj
    rcases hkind with ⟨rfl, hk⟩ | ⟨rfl, hk⟩
    · exact ⟨.block hstmt (.inl ⟨rfl, hk⟩) hp hej hspelled hcs, by simp [Plan.append, spelled], rfl⟩
    · exact ⟨.block hstmt (.inr ⟨rfl, hk⟩) hp hej hspelled hcs, by simp [Plan.append, spelled], rfl⟩

theorem appendEpilog (h : p.Sound m) (hleaf : p.isLeaf = false) {js : List Nat} (hjs : ∀ j ∈ js, m.Free j) :
    (p.appendEpilog js).Sound m ∧ (p.appendEpilog js).spelled = p.spelled ++ js ∧
      (p.appendEpilog js).isLeaf = p.isLeaf := by
  cases h with
  | leaf hss => simp [Plan.leaf, isLeaf] at hleaf
  | @block k n b q e cs hstmt hkind hp he hspelled hcs =>
    have hejs : ∀ j ∈ e ++ js, m.Free j := fun j hj => (List.mem_append.1 hj).elim (he j) (hjs j)
    rcases hkind with ⟨rfl, hk⟩ | ⟨rfl, hk⟩
    · exact ⟨.block hstmt (.inl ⟨rfl, hk⟩) hp hejs hspelled hcs, by simp [Plan.appendEpilog, spelled], rfl⟩
    · exact ⟨.block hstmt (.inr ⟨rfl, hk⟩) hp hejs hspelled hcs, by simp [Plan.appendEpilog, spelled], rfl⟩

end Sound

end Plan

namespace Module

namespace Parts

/-- The statements that the parts hold, those that wait included. -/
def spelled (ps : Parts) : List Nat := ps.done.flatMap Plan.spelled ++ ps.free

structure Sound (m : Module) (ps : Parts) : Prop where
  done : ∀ p ∈ ps.done, p.Sound m
  free : ∀ j ∈ ps.free, m.Free j

variable {m : Module} {ps : Parts}

theorem Sound.push (h : ps.Sound m) {p : Plan} (hp : p.Sound m) :
    (ps.push p).Sound m ∧ (ps.push p).spelled = ps.spelled ++ p.spelled := by
  obtain ⟨hsound, hspelled, _⟩ := hp.prepend h.free
  refine ⟨⟨?_, by simp [Parts.push]⟩, by simp [Parts.push, spelled, hspelled]⟩
  intro q hq
  rcases List.mem_append.1 hq with hq | hq
  · exact h.done q hq
  · exact List.mem_singleton.1 hq ▸ hsound

theorem modifyLast_concat (done : List Plan) (p : Plan) (free : List Nat) (f : Plan → Plan) :
    Parts.modifyLast ⟨done ++ [p], free⟩ f = ⟨done ++ [f p], free⟩ := by
  have hmodify : (done ++ [p]).modify done.length f = done ++ [f p] := by
    induction done with
    | nil => rfl
    | cons q done ih => exact congrArg (q :: ·) ih
  unfold modifyLast
  dsimp only
  rw [List.length_append, List.length_singleton, Nat.add_sub_cancel, hmodify]

theorem Sound.addFree (h : ps.Sound m) (hwait : ps.free ≠ [] → ps.done = []) {j : Nat} (hj : m.Free j) :
    (ps.addFree j).Sound m ∧ (ps.addFree j).spelled = ps.spelled ++ [j] ∧
      ((ps.addFree j).free ≠ [] → (ps.addFree j).done = []) ∧ (ps.addFree j).done.length = ps.done.length := by
  obtain ⟨done, free⟩ := ps
  rcases List.eq_nil_or_concat done with rfl | ⟨init, p, rfl⟩
  · refine ⟨⟨by simp [Parts.addFree], ?_⟩, by simp [Parts.addFree, spelled], by simp [Parts.addFree], rfl⟩
    intro x hx
    rcases List.mem_append.1 hx with hx | hx
    · exact h.free x hx
    · exact List.mem_singleton.1 hx ▸ hj
  · have hfree : free = [] := by
      by_contra hne
      simpa using hwait hne
    subst hfree
    obtain ⟨hsound, hspelled, _⟩ := (h.done p (by simp)).append hj
    have hadd : Parts.addFree ⟨init ++ [p], []⟩ j = ⟨init ++ [p.append j], []⟩ := by
      rw [Parts.addFree, if_neg (by simp), modifyLast_concat]
    rw [List.concat_eq_append, hadd]
    refine ⟨⟨?_, by simp⟩, by simp [spelled, hspelled], by simp, by simp⟩
    intro q hq
    rcases List.mem_append.1 hq with hq | hq
    · exact h.done q (by simp [hq])
    · exact List.mem_singleton.1 hq ▸ hsound

end Parts

theorem index_outline (m : Module) (i : Nat) : (m.outline i).index = i := Arena.index_outlineTo _ _ _ _

theorem mem_outline (m : Module) (i : Nat) : i ∈ (m.outline i).preorder := by
  have hmem := (m.outline i).index_mem_preorder
  rwa [m.index_outline] at hmem

theorem map_index_outline (m : Module) (stmts : List Nat) : (stmts.map m.outline).map Outline.index = stmts := by
  rw [List.map_map]
  exact (List.map_congr_left fun i _ => m.index_outline i).trans (List.map_id stmts)

/-- Every part of an outline is the outline below its index. -/
def Closed (m : Module) (o : Outline) : Prop := ∀ o', o'.Part o → m.outline o'.index = o'

theorem Closed.nested {m : Module} {i : Nat} {os : List Outline} (h : m.Closed (.node i os)) {o : Outline}
    (ho : o ∈ os) : m.Closed o := fun o' ho' => h o' (.nested ho ho')

theorem Closed.links {m : Module} {i : Nat} {os : List Outline} (h : m.Closed (.node i os)) {s : Stmt}
    (hs : m.stmt i = .ok s) : os.map Outline.index = s.nested := by
  rw [stmt, Arena.get_eq_ok_iff] at hs
  obtain ⟨n, hn⟩ : ∃ n, m.stmts.size = n + 1 := Nat.exists_eq_add_of_lt (Nat.zero_lt_of_lt (Arena.lt_size_of_get? hs))
    |>.imp fun n hn => by omega
  have ho : m.outline i = .node i os := h _ (.refl _)
  rw [outline, Arena.outline, hn, Arena.outlineTo_succ, Arena.linksAt, hs] at ho
  have hos : s.nested.map (m.stmts.outlineTo Stmt.nested n) = os := congrArg Outline.nested ho
  rw [← hos, List.map_map]
  exact (List.map_congr_left fun j _ => m.stmts.index_outlineTo Stmt.nested n j).trans (List.map_id _)

theorem WellFormed.bound {m : Module} (h : m.WellFormed) : ∀ j ∈ (m.outline m.root).preorder, j < m.stmts.size := by
  intro j hj
  obtain ⟨s, hs, _⟩ := h.fits j hj
  rw [stmt, Arena.get_eq_ok_iff] at hs
  exact Arena.lt_size_of_get? hs

theorem WellFormed.unfolds {m : Module} (h : m.WellFormed) :
    (m.outline m.root).Unfolds (m.stmts.linksAt Stmt.nested) :=
  m.stmts.unfolds_outline Stmt.nested h.bound h.nodup

theorem WellFormed.closed {m : Module} (h : m.WellFormed) : m.Closed (m.outline m.root) := by
  intro o ho
  exact Arena.outline_eq (h.unfolds.part ho) (fun j hj => h.bound j (ho.sublist.subset hj)) (h.nodup.sublist ho.sublist)

/-- What is nested in a statement of the tree is in the tree, below the root. -/
theorem WellFormed.nested {m : Module} (h : m.WellFormed) {n j : Nat} (hn : n ∈ (m.outline m.root).preorder) {s : Stmt}
    (hs : m.stmt n = .ok s) (hj : j ∈ s.nested) : j ∈ (m.outline m.root).preorder ∧ j ≠ m.root := by
  obtain ⟨⟨i, os⟩, hpart, rfl⟩ := Outline.exists_part_of_mem hn
  have hclosed : m.Closed (.node i os) := fun o ho => h.closed o (ho.trans hpart)
  rw [← hclosed.links hs] at hj
  obtain ⟨o, ho, rfl⟩ := List.mem_map.1 hj
  have hmem := hpart.mem_nested ho
  have hroot : m.outline m.root = .node m.root (m.outline m.root).nested := by
    rw [outline, Arena.outline]
    cases m.stmts.size <;> rfl
  have hnodup := h.nodup
  rw [hroot, Outline.preorder_eq, List.nodup_cons] at hnodup
  rw [hroot, Outline.preorder_eq]
  exact ⟨List.mem_cons_of_mem _ hmem, fun heq => hnodup.1 (heq ▸ hmem)⟩

theorem WellFormed.preorder_subset {m : Module} (h : m.WellFormed) {j : Nat} (hj : j ∈ (m.outline m.root).preorder) :
    ∀ x ∈ (m.outline j).preorder, x ∈ (m.outline m.root).preorder := by
  obtain ⟨o, hpart, rfl⟩ := Outline.exists_part_of_mem hj
  rw [h.closed o hpart]
  exact hpart.sublist.subset

theorem WellFormed.outline_eq {m : Module} (h : m.WellFormed) {n : Nat} (hn : n ∈ (m.outline m.root).preorder) {s : Stmt}
    (hs : m.stmt n = .ok s) : m.outline n = .node n (s.nested.map m.outline) := by
  obtain ⟨⟨i, os⟩, hpart, rfl⟩ := Outline.exists_part_of_mem hn
  have hclosed : m.Closed (.node i os) := fun o ho => h.closed o (ho.trans hpart)
  have hos : (os.map Outline.index).map m.outline = os := by
    rw [List.map_map]
    exact (List.map_congr_left fun o ho => hclosed.nested ho o (.refl o)).trans (List.map_id os)
  rw [← hclosed.links hs, hos]
  exact h.closed _ hpart

theorem WellFormed.preorder_eq {m : Module} (h : m.WellFormed) {n : Nat} (hn : n ∈ (m.outline m.root).preorder) {s : Stmt}
    (hs : m.stmt n = .ok s) : (m.outline n).preorder = n :: s.nested.flatMap fun j => (m.outline j).preorder := by
  rw [h.outline_eq hn hs, Outline.preorder_eq, List.flatMap_map]

theorem free_of_blocking {m : Module} {o : Outline} (ho : m.Closed o) (h : m.blocking o = .ok false) :
    m.Free o.index := by
  rw [Free, isBlocking, ho o (.refl o)]
  exact h

theorem blocking_stmt {m : Module} {o : Outline} (h : m.blocking o = .ok true) :
    ∃ s, m.stmt o.index = .ok s ∧ ((∃ b, s = .block b) ∨ ∃ y, s = .yield y) := by
  obtain ⟨i, os⟩ := o
  rw [blocking, Checked.bind_eq_ok] at h
  obtain ⟨s, hs, h⟩ := h
  refine ⟨s, hs, ?_⟩
  cases s with
  | block b => exact .inl ⟨b, rfl⟩
  | yield y => exact .inr ⟨y, rfl⟩
  | update r v => cases h
  | assign x v => cases h

theorem segmentKind_eq_ok {m : Module} {b : Block} {os : List Outline} {k : SegmentKind}
    (h : m.segmentKind b os = .ok k) :
    k = .seq ∧ b.kind ≠ .container ∨ k = .mutex ∧ (b.kind = .container ∨ b.kind = .conditional ∧
      (∀ o ∈ os, m.blocking o = .ok (Checked.passes m.blocking o)) ∧
        (os.filter (Checked.passes m.blocking)).length ≤ 1) := by
  obtain ⟨kind, g, ss, id⟩ := b
  unfold segmentKind at h
  cases kind with
  | conditional =>
    dsimp only at h
    rw [Checked.bind_eq_ok] at h
    obtain ⟨n, hn, h⟩ := h
    rw [countBlocking, Checked.bind_eq_ok] at hn
    obtain ⟨bs, hbs, hn⟩ := hn
    obtain ⟨hall, rfl⟩ := Checked.filterM_eq_ok hbs
    cases hn
    split at h
    · cases h
      exact .inl ⟨rfl, by simp⟩
    · rename_i hle
      cases h
      exact .inr ⟨rfl, .inr ⟨rfl, hall, Nat.not_lt.1 hle⟩⟩
  | container =>
    cases h
    exact .inr ⟨rfl, .inl rfl⟩
  | module | interface p | interfaceLoop p | loop e =>
    cases h
    exact .inl ⟨rfl, by simp⟩

theorem planBlock_eq_ok {m : Module} {i : Nat} {os : List Outline} {p : Plan} (h : m.planBlock (.node i os) = .ok p) :
    ∃ b k cs, m.stmt i = .ok (.block b) ∧ m.segmentKind b os = .ok k ∧ p = .part k (some i) [] [] [] cs ∧
      (if b.kind = .container then m.planBranches i ⟨[], []⟩ os else m.planStmts ⟨[], []⟩ os) = .ok cs := by
  rw [planBlock, Checked.bind_eq_ok] at h
  obtain ⟨s, hs, h⟩ := h
  cases s with
  | yield y => simp at h
  | update r v => simp at h
  | assign x v => simp at h
  | block b =>
    dsimp only at h
    rw [Checked.bind_eq_ok] at h
    obtain ⟨k, hk, h⟩ := h
    refine ⟨b, k, ?_⟩
    have hrest : (if b.kind = .container then do
          let cs ← m.planBranches i ⟨[], []⟩ os
          pure (Plan.part k (some i) [] [] [] cs)
        else do
          let cs ← m.planStmts ⟨[], []⟩ os
          pure (Plan.part k (some i) [] [] [] cs)) = .ok p := by
      split at h
      · rw [Checked.bind_eq_ok] at h
        obtain ⟨any, _, h⟩ := h
        split at h
        · rw [loopNeverSuspends, Checked.bind_eq_ok] at h
          obtain ⟨_, h, _⟩ := h
          rw [Checked.bind_eq_ok] at h
          obtain ⟨_, _, h⟩ := h
          simp at h
        · exact h
      · exact h
    split at hrest
    · rename_i hkind
      rw [Checked.bind_eq_ok] at hrest
      obtain ⟨cs, hcs, hrest⟩ := hrest
      cases hrest
      exact ⟨cs, hs, hk, rfl, by rw [if_pos hkind, hcs]⟩
    · rename_i hkind
      rw [Checked.bind_eq_ok] at hrest
      obtain ⟨cs, hcs, hrest⟩ := hrest
      cases hrest
      exact ⟨cs, hs, hk, rfl, by rw [if_neg hkind, hcs]⟩

/-- Adding one blocking statement to the parts adds one part. -/
theorem Parts.Sound.pushed {m : Module} {ps : Parts} (hps : ps.Sound m) {p : Plan} (hp : p.Sound m) {j : Nat}
    (hspelled : p.spelled = [j]) : (ps.push p).Sound m ∧ (ps.push p).spelled = ps.spelled ++ [j] ∧
      ((ps.push p).free ≠ [] → (ps.push p).done = []) ∧ (ps.push p).done.length = ps.done.length + 1 := by
  obtain ⟨hsound, hpush⟩ := hps.push hp
  exact ⟨hsound, by rw [hpush, hspelled], by simp [Parts.push], by simp [Parts.push]⟩

mutual
theorem planBlock_sound (m : Module) : (o : Outline) → m.Closed o → ∀ p, m.planBlock o = .ok p →
    p.Sound m ∧ p.isLeaf = false ∧ p.spelled = [o.index]
  | .node i os, hclosed, p, h => by
    have hnested : ∀ o ∈ os, m.Closed o := fun o ho => hclosed.nested ho
    have hstart : Parts.Sound m ⟨[], []⟩ := ⟨by simp, by simp⟩
    obtain ⟨b, k, cs, hs, hk, rfl, hcs⟩ := planBlock_eq_ok h
    have hlinks : os.map Outline.index = b.stmts := hclosed.links hs
    by_cases hcontainer : b.kind = .container
    · rw [if_pos hcontainer] at hcs
      obtain ⟨hsound, hspelled, hleaf⟩ := planBranches_sound m i os hnested _ cs hstart (by simp) hcs
      have hkind : k = .mutex := by
        rcases segmentKind_eq_ok hk with ⟨_, hne⟩ | ⟨hk, _⟩
        · exact absurd hcontainer hne
        · exact hk
      subst hkind
      refine ⟨.block hs (.inr ⟨rfl, .inl ⟨hcontainer, hleaf⟩⟩) (by simp) (by simp) ?_ hsound, rfl, rfl⟩
      rw [hspelled, hlinks]
      rfl
    · rw [if_neg hcontainer] at hcs
      obtain ⟨hsound, hspelled, hlen⟩ := planStmts_sound m os hnested _ cs hstart (by simp) hcs
      have hstmts : cs.flatMap Plan.spelled = b.stmts := by
        rw [hspelled, hlinks]
        rfl
      rcases segmentKind_eq_ok hk with ⟨rfl, hne⟩ | ⟨rfl, hkind⟩
      · exact ⟨.block hs (.inl ⟨rfl, hne⟩) (by simp) (by simp) hstmts hsound, rfl, rfl⟩
      · obtain ⟨hcond, _, hcount⟩ := hkind.resolve_left hcontainer
        have hle : cs.length ≤ 1 := by
          rw [List.length_nil, Nat.zero_add] at hlen
          omega
        exact ⟨.block hs (.inr ⟨rfl, .inr ⟨hcond, hle⟩⟩) (by simp) (by simp) hstmts hsound, rfl, rfl⟩
theorem planStmts_sound (m : Module) : (os : List Outline) → (∀ o ∈ os, m.Closed o) → ∀ ps cs, ps.Sound m →
    (ps.free ≠ [] → ps.done = []) → m.planStmts ps os = .ok cs →
    (∀ c ∈ cs, c.Sound m) ∧ cs.flatMap Plan.spelled = ps.spelled ++ os.map Outline.index ∧
      cs.length ≤ max 1 (ps.done.length + (os.filter (Checked.passes m.blocking)).length)
  | [], _, ps, cs, hps, hwait, h => by
    cases h
    unfold Parts.finish
    split
    · rename_i hfree
      rw [List.isEmpty_iff] at hfree
      refine ⟨hps.done, by simp [Parts.spelled, hfree], ?_⟩
      simp only [List.filter_nil, List.length_nil]
      omega
    · rename_i hfree
      have hdone := hwait (by simpa using hfree)
      rw [hdone, List.nil_append]
      refine ⟨?_, by simp [Parts.spelled, hdone, Plan.leaf, Plan.spelled], by simp⟩
      intro c hc
      rw [List.mem_singleton.1 hc]
      exact .leaf (.of_free hps.free)
  | o :: os, hclosed, ps, cs, hps, hwait, h => by
    have ho : m.Closed o := hclosed o List.mem_cons_self
    have hos : ∀ o ∈ os, m.Closed o := fun o ho => hclosed o (List.mem_cons_of_mem _ ho)
    rw [planStmts, Checked.bind_eq_ok] at h
    obtain ⟨blocks, hblocks, h⟩ := h
    have hpasses : Checked.passes m.blocking o = blocks := by rw [Checked.passes, hblocks]
    rw [List.map_cons, List.filter_cons, hpasses]
    cases blocks with
    | true =>
      obtain ⟨s, hs, hcases⟩ := blocking_stmt hblocks
      rw [if_pos rfl, hs, Checked.ok_bind] at h
      rcases hcases with ⟨b, rfl⟩ | ⟨y, rfl⟩
      · dsimp only at h
        rw [Checked.bind_eq_ok] at h
        obtain ⟨p, hp, h⟩ := h
        obtain ⟨hpsound, _, hpspelled⟩ := planBlock_sound m o ho p hp
        obtain ⟨hsound, hspelled, hwait', hlen⟩ := hps.pushed hpsound hpspelled
        obtain ⟨hcs, hcspelled, hcount⟩ := planStmts_sound m os hos _ cs hsound hwait' h
        refine ⟨hcs, by rw [hcspelled, hspelled, List.append_assoc, List.singleton_append], ?_⟩
        rw [if_pos rfl, List.length_cons]
        omega
      · obtain ⟨hsound, hspelled, hwait', hlen⟩ := hps.pushed (.leaf (.of_yield hs)) rfl
        obtain ⟨hcs, hcspelled, hcount⟩ := planStmts_sound m os hos _ cs hsound hwait' h
        refine ⟨hcs, by rw [hcspelled, hspelled, List.append_assoc, List.singleton_append], ?_⟩
        rw [if_pos rfl, List.length_cons]
        omega
    | false =>
      rw [if_neg (by simp), Checked.bind_eq_ok] at h
      obtain ⟨_, _, h⟩ := h
      obtain ⟨hsound, hspelled, hwait', hlen⟩ := hps.addFree hwait (free_of_blocking ho hblocks)
      obtain ⟨hcs, hcspelled, hcount⟩ := planStmts_sound m os hos _ cs hsound hwait' h
      refine ⟨hcs, by rw [hcspelled, hspelled, List.append_assoc, List.singleton_append], ?_⟩
      rw [if_neg (by simp)]
      omega
theorem planBranches_sound (m : Module) (i : Nat) : (os : List Outline) → (∀ o ∈ os, m.Closed o) → ∀ ps cs,
    ps.Sound m → (∀ p ∈ ps.done, p.isLeaf = false) → m.planBranches i ps os = .ok cs →
    (∀ c ∈ cs, c.Sound m) ∧ cs.flatMap Plan.spelled = ps.spelled ++ os.map Outline.index ∧
      ∀ c ∈ cs, c.isLeaf = false
  | [], _, ps, cs, hps, hleaf, h => by
    rw [planBranches] at h
    split at h
    · rename_i hfree
      cases h
      rw [List.isEmpty_iff] at hfree
      exact ⟨hps.done, by simp [Parts.spelled, hfree], hleaf⟩
    · split at h
      · rw [Checked.bind_eq_ok] at h
        obtain ⟨_, _, h⟩ := h
        rw [Checked.reject_bind] at h
        simp at h
      · rename_i hdone
        obtain ⟨done, free⟩ := ps
        rcases List.eq_nil_or_concat done with rfl | ⟨init, p, rfl⟩
        · simp at hdone
        · rw [List.concat_eq_append, Parts.modifyLast_concat] at h
          cases h
          obtain ⟨hsound, hspelled, hl⟩ :=
            (hps.done p (by simp)).appendEpilog (hleaf p (by simp)) hps.free
          refine ⟨?_, by simp [Parts.spelled, hspelled], ?_⟩
          · intro c hc
            rcases List.mem_append.1 hc with hc | hc
            · exact hps.done c (by simp [hc])
            · exact List.mem_singleton.1 hc ▸ hsound
          · intro c hc
            rcases List.mem_append.1 hc with hc | hc
            · exact hleaf c (by simp [hc])
            · rw [List.mem_singleton.1 hc, hl]
              exact hleaf p (by simp)
  | o :: os, hclosed, ps, cs, hps, hleaf, h => by
    have ho : m.Closed o := hclosed o List.mem_cons_self
    have hos : ∀ o ∈ os, m.Closed o := fun o ho => hclosed o (List.mem_cons_of_mem _ ho)
    rw [planBranches, Checked.bind_eq_ok] at h
    obtain ⟨blocks, hblocks, h⟩ := h
    rw [List.map_cons]
    cases blocks with
    | true =>
      rw [if_pos rfl, Checked.bind_eq_ok] at h
      obtain ⟨p, hp, h⟩ := h
      obtain ⟨hpsound, hpleaf, hpspelled⟩ := planBlock_sound m o ho p hp
      obtain ⟨hsound, hspelled, _⟩ := hps.pushed hpsound hpspelled
      have hleaf' : ∀ q ∈ (ps.push p).done, q.isLeaf = false := by
        intro q hq
        rcases List.mem_append.1 hq with hq | hq
        · exact hleaf q hq
        · rw [List.mem_singleton.1 hq, (hpsound.prepend hps.free).2.2, hpleaf]
      obtain ⟨hcs, hcspelled, hcleaf⟩ := planBranches_sound m i os hos _ cs hsound hleaf' h
      exact ⟨hcs, by rw [hcspelled, hspelled, List.append_assoc, List.singleton_append], hcleaf⟩
    | false =>
      rw [if_neg (by simp), Checked.bind_eq_ok] at h
      obtain ⟨_, _, h⟩ := h
      have hsound : Parts.Sound m { ps with free := ps.free ++ [o.index] } := by
        refine ⟨hps.done, ?_⟩
        intro j hj
        rcases List.mem_append.1 hj with hj | hj
        · exact hps.free j hj
        · exact List.mem_singleton.1 hj ▸ free_of_blocking ho hblocks
      obtain ⟨hcs, hcspelled, hcleaf⟩ := planBranches_sound m i os hos _ cs hsound hleaf h
      exact ⟨hcs, by rw [hcspelled]; simp [Parts.spelled], hcleaf⟩
end

theorem plan_sound {m : Module} (hm : m.WellFormed) {p : Plan} (h : m.plan = .ok p) :
    p.Sound m ∧ p.isLeaf = false ∧ p.spelled = [m.root] := by
  rw [← m.index_outline m.root]
  exact planBlock_sound m _ hm.closed p h

end Module

end Sequencer
