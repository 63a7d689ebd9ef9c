import Sequencer.Proofs.Control.Program
import Sequencer.Proofs.Schedule.Marks

set_option autoImplicit false

/-!
# Schedules of straight modules

A module that never waits before the yield at its end has one state. Its schedule is a leaf with all its statements, and
their reads are marked in program order.
-/

namespace Sequencer

open Control Checked

/-- A leaf with the statements `stmts` in the block at `root`. -/
def Schedule.straight (root : Nat) (stmts : List Nat) : Schedule :=
  ⟨.ofList [⟨.seq, some root, none, [1], [], [], [], []⟩, ⟨.leaf, none, some 0, [], [], stmts, [], []⟩], 0⟩

theorem Schedule.outline_straight (root : Nat) (stmts : List Nat) :
    (straight root stmts).outline 0 = .node 0 [.node 1 []] := rfl

theorem Schedule.segment_straight (root : Nat) (stmts : List Nat) :
    (straight root stmts).segment 0 = .ok ⟨.seq, some root, none, [1], [], [], [], []⟩ ∧
      (straight root stmts).segment 1 = .ok ⟨.leaf, none, some 0, [], [], stmts, [], []⟩ := ⟨rfl, rfl⟩

namespace Module

variable {m : Module}

mutual
theorem blocking_of_plain {k : Storage} : (o : Outline) → (∀ n ∈ o.preorder, m.Plain k n) →
    m.blocking o = .ok false
  | .node i os, h => by
    rw [Outline.preorder_eq, List.forall_mem_cons] at h
    obtain ⟨⟨s, hs, hplain⟩, hos⟩ := h
    rw [blocking, hs]
    rcases hplain with ⟨x, v, hw⟩ | ⟨b, rfl, hkind⟩
    · cases s with
      | block b | yield y => cases hw
      | update r v | assign x v => rfl
    · rw [ok_bind]
      dsimp only
      rw [hkind, if_neg (by decide)]
      exact anyBlocking_of_plain os hos
theorem anyBlocking_of_plain {k : Storage} : (os : List Outline) → (∀ n ∈ os.flatMap Outline.preorder, m.Plain k n) →
    m.anyBlocking os = .ok false
  | [], _ => rfl
  | o :: os, h => by
    rw [List.flatMap_cons, List.forall_mem_append] at h
    rw [anyBlocking, blocking_of_plain o h.1]
    exact anyBlocking_of_plain os h.2
end

/-- Free statements wait for the yield after them, and form one part with it. -/
theorem planStmts_straight {os : List Outline} (hfree : ∀ o ∈ os, m.blocking o = .ok false) {o : Outline} {y : Yield}
    (ho : m.stmt o.index = .ok (.yield y)) {free : List Nat} {ps : List Plan}
    (h : m.planStmts ⟨[], free⟩ (os ++ [o]) = .ok ps) : ps = [.leaf (free ++ os.map Outline.index ++ [o.index])] := by
  induction os generalizing free with
  | nil =>
    have hblocking : m.blocking o = .ok true := by
      obtain ⟨i, os⟩ := o
      rw [blocking, show m.stmt i = _ from ho]
      rfl
    rw [List.nil_append, planStmts, hblocking, ok_bind, if_pos rfl, ho, ok_bind] at h
    cases h
    simp [Plan.leaf, Plan.prepend, Parts.push, Parts.finish]
  | cons o' os ih =>
    obtain ⟨ho', hos⟩ := List.forall_mem_cons.1 hfree
    rw [List.cons_append, planStmts, ho', ok_bind, if_neg (by decide), bind_eq_ok] at h
    obtain ⟨_, _, h⟩ := h
    have hadd : (⟨[], free⟩ : Parts).addFree o'.index = ⟨[], free ++ [o'.index]⟩ := rfl
    rw [hadd] at h
    rw [ih hos h]
    simp

namespace Straight

variable {k : Storage} {body : List Nat} {j : Nat} (hm : m.WellFormed) (h : m.Straight k body j)

include hm h

theorem outline_root : m.outline m.root = .node m.root (body.map m.outline ++ [m.outline j]) := by
  obtain ⟨b, hb, hstmts⟩ := h.root
  have hmem := (m.outline m.root).index_mem_preorder
  rw [m.index_outline] at hmem
  rw [hm.outline_eq hmem hb, Stmt.nested, hstmts, List.map_append, List.map_singleton]

theorem closed : ∀ o ∈ body.map m.outline, m.Closed o := by
  intro o ho
  have hclosed := hm.closed
  rw [h.outline_root hm] at hclosed
  exact hclosed.nested (List.mem_append_left _ ho)

theorem preorder_root : (m.outline m.root).preorder = m.root :: (m.below body ++ [j]) := by
  obtain ⟨y, hy⟩ := h.yield
  have hj : j ∈ (m.outline m.root).preorder := by
    have hindex := (m.outline j).index_mem_preorder
    rw [m.index_outline] at hindex
    rw [h.outline_root hm, Outline.preorder_eq, List.flatMap_append]
    exact List.mem_cons_of_mem _ (List.mem_append_right _ (by simpa using hindex))
  rw [h.outline_root hm, Outline.preorder_eq, List.flatMap_append, List.flatMap_singleton, hm.preorder_eq hj hy, below]
  rfl

/-- All that a straight module writes is written in its body. -/
theorem values_root (p : Storage × String) : m.values p (m.outline m.root).preorder = m.values p (m.below body) := by
  obtain ⟨b, hb, _⟩ := h.root
  obtain ⟨y, hy⟩ := h.yield
  have hyield : m.values p [j] = [] := by
    rw [values, List.filterMap_cons, hy]
    rfl
  rw [h.preorder_root hm, values_cons_block p hb, values_append, hyield, List.append_nil]

theorem plan_eq {p : Plan} (hp : m.plan = .ok p) :
    p = .part .seq (some m.root) [] [] [] [.leaf (body ++ [j])] := by
  obtain ⟨y, hy⟩ := h.yield
  rw [plan, h.outline_root hm] at hp
  obtain ⟨b, kind, cs, hb, hkind, rfl, hcs⟩ := planBlock_eq_ok hp
  obtain ⟨b', hb', hmodule, _⟩ := hm.root_block
  cases hb.symm.trans hb'
  rw [hmodule, if_neg (by decide)] at hcs
  rw [segmentKind, hmodule] at hkind
  cases hkind
  have hfree : ∀ o ∈ body.map m.outline, m.blocking o = .ok false := by
    intro o ho
    exact blocking_of_plain o fun n hn => h.plain n (List.mem_flatMap.2 ⟨o, ho, hn⟩)
  rw [planStmts_straight hfree (by rw [m.index_outline]; exact hy) hcs, List.nil_append, m.map_index_outline,
    m.index_outline]

theorem schedule_eq {s : Schedule} (hs : m.schedule = .ok s) : s = .straight m.root (body ++ [j]) := by
  obtain ⟨p, hp, hs⟩ := bind_eq_ok.1 hs
  cases hs
  rw [h.plan_eq hm hp]
  rfl

end Straight

namespace Marking

theorem markAll_append {os os' : List Outline} {written out : List String} {m m' : Module}
    (h : markAll written (os ++ os') m = .ok (out, m')) :
    ∃ mid m₁, markAll written os m = .ok (mid, m₁) ∧ markAll mid os' m₁ = .ok (out, m') := by
  induction os generalizing written m with
  | nil => exact ⟨written, m, rfl, h⟩
  | cons o os ih =>
    obtain ⟨w, m₁, hhead, htail⟩ := stateT_bind_eq_ok.1 h
    obtain ⟨mid, m₂, hos, hos'⟩ := ih htail
    exact ⟨mid, m₂, stateT_bind_eq_ok.2 ⟨w, m₁, hhead, hos⟩, hos'⟩

/-- Over a sequence of one leaf, the statements of the leaf are marked and nothing else. -/
theorem visit_straight {s : Schedule} {states states' : List Nat} {r : Nat} {stmts : List Nat}
    (htop : s.segment 0 = .ok ⟨.seq, some r, none, [1], states, [], [], []⟩)
    (hleaf : s.segment 1 = .ok ⟨.leaf, none, some 0, [], states', stmts, [], []⟩) {w : List String} {m' : Module}
    (h : visit s [] (.node 0 [.node 1 []]) m = .ok (w, m')) :
    ∃ out, markAll [] (stmts.map m.outline) m = .ok (out, m') := by
  obtain ⟨top, m₁, hlift, h⟩ := stateT_bind_eq_ok.1 h
  obtain ⟨hseg, rfl⟩ := lift_eq_ok hlift
  cases htop.symm.trans hseg
  obtain ⟨_, m₂, hprolog, h⟩ := stateT_bind_eq_ok.1 h
  cases hprolog
  obtain ⟨_, m₃, hmark, h⟩ := stateT_bind_eq_ok.1 h
  cases hmark
  obtain ⟨out, m₄, hseq, hepilog⟩ := stateT_bind_eq_ok.1 h
  cases hepilog
  obtain ⟨out, m₅, hvisit, hpure⟩ := stateT_bind_eq_ok.1 hseq
  cases hpure
  obtain ⟨leaf, m₆, hlift', hvisit⟩ := stateT_bind_eq_ok.1 hvisit
  obtain ⟨hseg', rfl⟩ := lift_eq_ok hlift'
  cases hleaf.symm.trans hseg'
  obtain ⟨_, m₇, hprolog, hvisit⟩ := stateT_bind_eq_ok.1 hvisit
  cases hprolog
  obtain ⟨out', m₈, hstmts, hepilog⟩ := stateT_bind_eq_ok.1 hvisit
  cases hepilog
  exact ⟨_, hstmts⟩

end Marking

mutual
/-- If no register is updated, no read is marked. -/
theorem Marked.same {m m' : Module} : (o : Outline) → m.Closed o → (∀ n ∈ o.preorder, m.Plain .latch n) →
    ∀ {out : List String}, m.Marked m' [] o out → out = [] ∧ ∀ n ∈ o.preorder, m.SameAt m' n
  | .node i os, hclosed, hplain, out, h => by
    rw [Outline.preorder_eq, List.forall_mem_cons] at hplain
    obtain ⟨⟨s, hs, hcases⟩, hos⟩ := hplain
    obtain ⟨s₀, s', hs₀, hs', heq, hout⟩ := h
    cases hs.symm.trans hs₀
    rw [Stmt.after_nil] at heq
    have hsame : m.SameAt m' i := fun s'' hs'' => by
      cases hs'.symm.trans hs''
      exact ⟨s, hs, heq⟩
    rw [Outline.preorder_eq, List.forall_mem_cons]
    rcases hcases with ⟨x, v, hw⟩ | ⟨b, rfl, _⟩
    · cases s with
      | block b | yield y | update r v => cases hw
      | assign x v =>
        have hnil : os = [] := List.map_eq_nil_iff.1 (hclosed.links hs)
        subst hnil
        exact ⟨hout, hsame, fun n hn => absurd hn List.not_mem_nil⟩
    · obtain ⟨hnil, hrest⟩ := MarkedAll.same os (fun o ho => hclosed.nested ho) hos hout
      exact ⟨hnil, hsame, hrest⟩
theorem MarkedAll.same {m m' : Module} : (os : List Outline) → (∀ o ∈ os, m.Closed o) →
    (∀ n ∈ os.flatMap Outline.preorder, m.Plain .latch n) → ∀ {out : List String}, m.MarkedAll m' [] os out →
    out = [] ∧ ∀ n ∈ os.flatMap Outline.preorder, m.SameAt m' n
  | [], _, _, _, h => ⟨h, fun n hn => absurd hn List.not_mem_nil⟩
  | o :: os, hclosed, hplain, out, h => by
    rw [List.flatMap_cons, List.forall_mem_append] at hplain ⊢
    obtain ⟨ho, hos⟩ := List.forall_mem_cons.1 hclosed
    obtain ⟨mid, hhead, htail⟩ := h
    obtain ⟨rfl, hsame⟩ := Marked.same o ho hplain.1 hhead
    obtain ⟨hnil, hsame'⟩ := MarkedAll.same os hos hplain.2 htail
    exact ⟨hnil, hsame, hsame'⟩
end

theorem values_same {m m' : Module} {k : Storage} (p : Storage × String) {ns : List Nat} (hsame : ∀ n ∈ ns, m.SameAt m' n)
    (hplain : ∀ n ∈ ns, m'.Plain k n) : m'.values p ns = m.values p ns := by
  refine List.filterMap_congr fun n hn => ?_
  obtain ⟨s', hs', _⟩ := hplain n hn
  obtain ⟨s, hs, heq⟩ := hsame n hn s' hs'
  have hwrite : s'.write? = s.write? := by rw [← Stmt.write?_setId 0 s', heq, Stmt.write?_setId]
  rw [hs, hs']
  change s'.valueFor p = s.valueFor p
  rw [Stmt.valueFor, Stmt.valueFor, hwrite]

/-- What the schedule of a straight module looks like, and how its statements are marked. -/
structure StraightStage (m : Module) (body : List Nat) (j : Nat) (st : Staged) : Prop where
  root : st.schedule.root = 0
  outline : st.schedule.outline 0 = .node 0 [.node 1 []]
  top : st.schedule.segment 0 = .ok ⟨.seq, some m.root, none, [1], [0], [], [], []⟩
  leaf : st.schedule.segment 1 = .ok ⟨.leaf, none, some 0, [], [0], body ++ [j], [], []⟩
  maxState : st.maxState = 0
  marked : ∃ out, m.MarkedAll st.module [] (body.map m.outline) out

theorem Straight.stage {k : Storage} {body : List Nat} {j : Nat} (h : m.Straight k body j) (hm : m.WellFormed) {s : Schedule}
    (hs : m.schedule = .ok s) {st : Staged} (hst : m.stage s = .ok st) : m.StraightStage body j st := by
  have hroot := h.outline_root hm
  have hs' := h.schedule_eq hm hs
  subst hs'
  have houtline := Schedule.outline_straight m.root (body ++ [j])
  obtain ⟨htop₀, hleaf₀⟩ := Schedule.segment_straight m.root (body ++ [j])
  obtain ⟨n, hn, hst⟩ := bind_eq_ok.1 hst
  obtain ⟨m', hm', hst⟩ := bind_eq_ok.1 hst
  cases hst
  obtain ⟨halike, hschedule, hstated⟩ := Numbering.run_stated (houtline ▸ by decide) hn
  obtain ⟨states, htop⟩ := hschedule.segment htop₀
  obtain ⟨states', hleaf⟩ := hschedule.segment hleaf₀
  obtain ⟨top, htop', _, _, hstates, hrest⟩ := hstated
  cases htop.symm.trans htop'
  obtain ⟨mid, ⟨leaf, hleaf', _, _, hstates', hmid⟩, hmax⟩ := hrest
  cases hleaf.symm.trans hleaf'
  cases hmid
  have hmax : 0 = n.maxState := hmax
  rw [← hmax] at hstates
  cases hstates
  cases hstates'
  have hout : n.schedule.outline n.schedule.root = .node 0 [.node 1 []] := by
    rw [hschedule.root, hschedule.outline]
    exact houtline
  obtain ⟨⟨w, m''⟩, hvisit, hm'⟩ := bind_eq_ok.1 hm'
  cases hm'
  rw [hout] at hvisit
  obtain ⟨out, hmark⟩ := Marking.visit_straight htop hleaf hvisit
  rw [List.map_append] at hmark
  obtain ⟨mid, m₁, hbody, hyield⟩ := Marking.markAll_append hmark
  have hnodup := hm.nodup
  rw [hroot, Outline.preorder_eq, List.nodup_cons, List.flatMap_append, List.nodup_append] at hnodup
  obtain ⟨_, hnodup, hnodup', hdisj⟩ := hnodup
  have hmap : ∀ js : List Nat, js.map n.module.outline = js.map m.outline :=
    fun js => List.map_congr_left fun i _ => halike.outline i
  rw [hmap] at hbody hyield
  obtain ⟨hmarked, hframe⟩ := Marking.markAll_marked _ hnodup (fun i _ => Numbering.run_same hn i) hbody
  obtain ⟨_, hframe'⟩ := Marking.markAll_marked (m := m₁) _ hnodup' (fun i _ => .of_eq rfl) hyield
  refine ⟨hschedule.root, (hschedule.outline 0).trans houtline, htop, hleaf, hmax.symm, mid, ?_⟩
  exact hmarked.congr _ fun i hi => hframe' i fun hi' => hdisj i hi i hi' rfl

end Module

end Sequencer
