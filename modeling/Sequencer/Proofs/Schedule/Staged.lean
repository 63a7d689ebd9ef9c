import Sequencer.Proofs.Schedule.States
import Sequencer.Schedule.Reads

set_option autoImplicit false

/-!
# Staged schedules

A staged module differs from the one it was made from in ids and marks only. Its schedule is still laid out for it, and
the states of a segment are those of the segments below it: disjoint ones in a sequence, and with a common first one
where only one of the segments below runs.
-/

namespace Sequencer

open Control

theorem Expr.unmarked_afterWrites (written : List String) (e : Expr) :
    (e.mapOperands (Operand.afterWrites written)).unmarked = e.unmarked := by
  rw [unmarked, mapOperands_mapOperands, unmarked]
  congr 1
  funext o
  unfold Operand.afterWrites
  rw [Function.comp_apply]
  split <;> rfl

theorem Control.Stmt.bare_afterWrites (written : List String) (s : Stmt) :
    (s.mapExprs (Expr.mapOperands (Operand.afterWrites written))).bare = s.bare := by
  have hfun : Expr.unmarked ∘ Expr.mapOperands (Operand.afterWrites written) = Expr.unmarked :=
    funext (Expr.unmarked_afterWrites written)
  cases s with
  | block b =>
    obtain ⟨k, g, ss, id⟩ := b
    cases k <;> simp [bare, mapExprs, hfun]
  | yield y => simp [bare, mapExprs, hfun]
  | update r v => simp [bare, mapExprs, Expr.unmarked_afterWrites]
  | assign x v => simp [bare, mapExprs, Expr.unmarked_afterWrites]

namespace Module

namespace Marking

open Checked

/-- A relation that marking the reads of one statement keeps. -/
structure Kept (R : Module → Module → Prop) : Prop where
  refl : ∀ m, R m m
  trans : ∀ m m' m'', R m m' → R m' m'' → R m m''
  mark : ∀ written i, Keeps R (Marking.mark written i)

section

variable {R : Module → Module → Prop} (hR : Kept R)

include hR

theorem keeps_pure {α : Type} (a : α) : Keeps R (pure a : Marking α) := .pure hR.refl a

theorem keeps_bind {α β : Type} {x : Marking α} {f : α → Marking β} (hx : Keeps R x) (hf : ∀ a, Keeps R (f a)) :
    Keeps R (x >>= f) :=
  .bind hR.trans hx hf

theorem keeps_stmt (i : Nat) : Keeps R (stmt i) := by
  intro m a m' h
  obtain ⟨s, _, h⟩ := bind_eq_ok.1 h
  cases h
  exact hR.refl _

theorem keeps_get : Keeps R (get : Marking Module) := by
  intro m a m' h
  cases h
  exact hR.refl _

theorem keeps_lift {α : Type} (x : Checked α) : Keeps R (liftM x : Marking α) := by
  intro m a m' h
  cases x with
  | ok b =>
    cases h
    exact hR.refl _
  | error e => cases h

mutual
theorem keeps_markOutline : (o : Outline) → ∀ written, Keeps R (markOutline written o)
  | .node i os, written => by
    refine keeps_bind hR (hR.mark written i) fun _ => keeps_bind hR (keeps_stmt hR i) fun s => ?_
    cases s with
    | block b => exact keeps_markAll os written
    | yield y => exact keeps_pure hR _
    | update r v => exact keeps_pure hR _
    | assign x v => exact keeps_pure hR _
theorem keeps_markAll : (os : List Outline) → ∀ written, Keeps R (markAll written os)
  | [], _ => keeps_pure hR _
  | o :: os, written => keeps_bind hR (keeps_markOutline o written) fun w => keeps_markAll os w
end

theorem keeps_markStmts (written : List String) (stmts : List Nat) : Keeps R (markStmts written stmts) :=
  keeps_bind hR (keeps_get hR) fun m => keeps_markAll hR (stmts.map m.outline) written

mutual
theorem keeps_visit (s : Schedule) : (o : Outline) → ∀ written, Keeps R (visit s written o)
  | .node i os, written => by
    refine keeps_bind hR (keeps_lift hR _) fun seg => keeps_bind hR (keeps_markStmts hR written _) fun w => ?_
    have hbody : ∀ {x : Marking (List String)}, Keeps R x → Keeps R (x >>= fun out => markStmts out seg.epilog) :=
      fun hx => keeps_bind hR hx fun out => keeps_markStmts hR out seg.epilog
    have hmark : ∀ {f : PUnit → Marking (List String)}, Keeps R (f ⟨⟩) → ∀ b : Option Nat,
        Keeps R (match b with
          | some b => mark w b >>= f
          | none => pure ⟨⟩ >>= f) := by
      intro f hf b
      cases b with
      | none => exact keeps_bind hR (keeps_pure hR _) fun _ => hf
      | some b => exact keeps_bind hR (hR.mark w b) fun _ => hf
    refine hmark ?_ seg.block
    cases seg.kind with
    | leaf => exact hbody (keeps_markStmts hR w seg.stmts)
    | seq => exact hbody (keeps_visitSeq s os w)
    | mutex =>
      dsimp only
      split
      · exact hbody (keeps_pure hR _)
      · exact hbody (keeps_visitMutex s os w)
theorem keeps_visitSeq (s : Schedule) : (os : List Outline) → ∀ written, Keeps R (visitSeq s written os)
  | [], _ => keeps_pure hR _
  | o :: os, written => by
    refine keeps_bind hR (keeps_visit s o written) fun out => ?_
    split
    · exact keeps_pure hR _
    · exact keeps_visitSeq s os []
theorem keeps_visitMutex (s : Schedule) : (os : List Outline) → ∀ written, Keeps R (visitMutex s written os)
  | [], _ => keeps_pure hR _
  | o :: os, written =>
    keeps_bind hR (keeps_visit s o written) fun _ => keeps_bind hR (keeps_visitMutex s os written) fun _ =>
      keeps_pure hR _
end

theorem kept_markReads {m m' : Module} {s : Schedule} (h : m.markReads s = .ok m') : R m m' := by
  obtain ⟨⟨w, m''⟩, hvisit, h⟩ := Checked.bind_eq_ok.1 h
  cases h
  exact keeps_visit hR s _ [] _ _ _ hvisit

end

theorem mark_eq_ok {written : List String} {i : Nat} {m m' : Module} (h : mark written i m = .ok ((), m')) :
    m' = m ∨ ∃ s stmts, m.stmt i = .ok s ∧
      m.stmts.set i (s.mapExprs (Expr.mapOperands (Operand.afterWrites written))) = .ok stmts ∧
      m' = { m with stmts := stmts } := by
  unfold mark at h
  split at h
  · cases h
    exact .inl rfl
  · obtain ⟨s, hs, h⟩ := bind_eq_ok.1 h
    obtain ⟨stmts, hstmts, h⟩ := bind_eq_ok.1 h
    cases h
    exact .inr ⟨s, stmts, hs, hstmts, rfl⟩

theorem kept_alike : Kept Alike where
  refl := .refl
  trans _ _ _ := .trans
  mark written i m _ m' h := by
    rcases mark_eq_ok h with rfl | ⟨s, stmts, hs, hstmts, rfl⟩
    · exact .refl _
    · exact .set hs (Stmt.bare_afterWrites written s) hstmts

end Marking

theorem Free.alike {m m' : Module} (h : m.Alike m') {j : Nat} (hj : m.Free j) : m'.Free j := by
  rw [Free, h.isBlocking]
  exact hj

theorem SingleCycle.alike {m m' : Module} (h : m.Alike m') {ss : List Nat} (hss : m.SingleCycle ss) :
    m'.SingleCycle ss := by
  obtain ⟨pre, mid, post, rfl, hpre, hpost, hmid⟩ := hss
  refine ⟨pre, mid, post, rfl, fun j hj => (hpre j hj).alike h, fun j hj => (hpost j hj).alike h, ?_⟩
  rcases hmid with rfl | ⟨j, y, rfl, hy⟩
  · exact .inl rfl
  · obtain ⟨s', hs', hbare⟩ := h.stmt hy
    cases s' with
    | yield y' => exact .inr ⟨j, y', rfl, hs'⟩
    | block b => cases hbare
    | update r v => cases hbare
    | assign x v => cases hbare

end Module

namespace Schedule

open Numbering

/-- How the states of a segment consist of those of the segments below it. -/
structure StatesFit (maxState : Nat) (seg : Segment) (segs : List Segment) : Prop where
  ne_nil : seg.states ≠ []
  nodup : seg.states.Nodup
  le_max : ∀ x ∈ seg.states, x ≤ maxState
  single : segs = [] → seg.states.length = 1
  sub : ∀ c ∈ segs, ∀ x ∈ c.states, x ∈ seg.states
  cover : segs ≠ [] → ∀ x ∈ seg.states, ∃ c ∈ segs, x ∈ c.states
  disjoint : seg.kind = .seq → segs.Pairwise fun c d => ∀ x ∈ c.states, x ∉ d.states
  first_eq : seg.kind = .mutex → ∀ c ∈ segs, c.firstState? = seg.firstState?
  head_eq : ∀ c, segs.head? = some c → c.firstState? = seg.firstState?

/-- The segment at `i` is a leaf that takes one cycle of the module. -/
structure LeafFits (m : Module) (s : Schedule) (maxState i : Nat) (seg : Segment) : Prop where
  segment : s.segment i = .ok seg
  kind : seg.kind = .leaf
  block : seg.block = none
  children : seg.children = []
  prolog : seg.prolog = []
  epilog : seg.epilog = []
  stmts : m.SingleCycle seg.stmts
  inside : ∀ j ∈ seg.stmts, j ∈ (m.outline m.root).preorder
  states : StatesFit maxState seg []

/-- The segment at `i` stands for the block `b` at `n`, and the segments below it for the statements of the block. -/
structure BlockFits (m : Module) (s : Schedule) (maxState i : Nat) (os : List Outline) (n : Nat) (b : Block)
    (seg : Segment) (segs : List Segment) : Prop where
  segment : s.segment i = .ok seg
  block : seg.block = some n
  stmt : m.stmt n = .ok (.block b)
  children : seg.children = os.map Outline.index
  prolog : ∀ j ∈ seg.prolog, m.Free j
  epilog : ∀ j ∈ seg.epilog, m.Free j
  segments : List.Forall₂ (fun o c => s.segment o.index = .ok c) os segs
  parents : ∀ c ∈ segs, c.parent = some i
  kind : seg.kind = .seq ∧ b.kind ≠ .container ∨ seg.kind = .mutex ∧
    (b.kind = .container ∧ (∀ c ∈ segs, c.kind ≠ .leaf) ∨ b.kind = .conditional ∧ segs.length ≤ 1)
  spelled : (segs.flatMap Segment.spelled).Sublist b.stmts
  inside : ∀ j ∈ seg.spelled, j ∈ (m.outline m.root).preorder
  module : b.kind = .module ↔ seg.parent = none
  states : StatesFit maxState seg segs

/-- The segments at and below an outline are laid out for the module and have states that fit. -/
inductive Consistent (m : Module) (s : Schedule) (maxState : Nat) : Outline → Prop
  | leaf {i : Nat} {seg : Segment} (h : LeafFits m s maxState i seg) : Consistent m s maxState (.node i [])
  | block {i n : Nat} {b : Block} {seg : Segment} {os : List Outline} {segs : List Segment}
    (h : BlockFits m s maxState i os n b seg segs) (hos : ∀ o ∈ os, Consistent m s maxState o) :
    Consistent m s maxState (.node i os)

namespace BlockFits

variable {m : Module} {s : Schedule} {maxState i n : Nat} {os : List Outline} {b : Block} {seg : Segment}
  {segs : List Segment} (h : BlockFits m s maxState i os n b seg segs)

include h

theorem not_leaf : seg.kind ≠ .leaf := ne_leaf h.kind

theorem spelled_eq : seg.spelled = seg.prolog ++ [n] ++ seg.epilog := Segment.spelled_of_block h.not_leaf h.block

theorem mem_stmts {c : Segment} (hc : c ∈ segs) {j : Nat} (hj : j ∈ c.spelled) : j ∈ b.stmts :=
  h.spelled.subset (List.mem_flatMap.2 ⟨c, hc, hj⟩)

theorem inside_block : n ∈ (m.outline m.root).preorder := h.inside n (by simp [h.spelled_eq])

theorem inside_prolog {j : Nat} (hj : j ∈ seg.prolog) : j ∈ (m.outline m.root).preorder :=
  h.inside j (by simp [h.spelled_eq, hj])

theorem inside_epilog {j : Nat} (hj : j ∈ seg.epilog) : j ∈ (m.outline m.root).preorder :=
  h.inside j (by simp [h.spelled_eq, hj])

theorem child {o : Outline} (ho : o ∈ os) : ∃ c ∈ segs, s.segment o.index = .ok c :=
  exists_of_mem_forall₂ h.segments.flip ho

end BlockFits

theorem Stated.segment {s : Schedule} {entry lo hi : Nat} {o : Outline} (h : s.Stated entry lo hi o) :
    ∃ seg, s.segment o.index = .ok seg ∧ entry ≤ lo ∧ lo ≤ hi ∧ seg.states = span entry lo hi := by
  obtain ⟨i, os⟩ := o
  obtain ⟨seg, hseg, hentry, hlo, hstates, _⟩ := h
  exact ⟨seg, hseg, hentry, hlo, hstates⟩

theorem StatedAll.facts {s : Schedule} {kind : SegmentKind} {entry lo hi : Nat} {os : List Outline}
    {segs : List Segment} (hsegs : List.Forall₂ (fun o c => s.segment o.index = .ok c) os segs) (hentry : entry ≤ lo)
    (h : s.StatedAll kind entry lo hi os) :
    lo ≤ hi ∧ (∀ o ∈ os, ∃ e l k, s.Stated e l k o ∧ k ≤ hi) ∧
      (∀ c ∈ segs, ∀ x ∈ c.states, x ∈ span entry lo hi) ∧
      (segs = [] → lo = hi) ∧ (segs ≠ [] → ∀ x ∈ span entry lo hi, ∃ c ∈ segs, x ∈ c.states) ∧
      (kind = .seq → segs.Pairwise fun c d => ∀ x ∈ c.states, x ∉ d.states) ∧
      (kind ≠ .seq → ∀ c ∈ segs, c.firstState? = some entry) ∧
      ∀ c, segs.head? = some c → c.firstState? = some entry := by
  induction hsegs generalizing entry lo with
  | nil =>
    have hlo : lo = hi := h
    refine ⟨Nat.le_of_eq hlo, ?_, ?_, fun _ => hlo, ?_, ?_, ?_, ?_⟩
    all_goals simp
  | @cons o c os segs hc hsegs ih =>
    obtain ⟨mid, hstated, h⟩ := h
    obtain ⟨c', hc', _, hlo, hstates⟩ := hstated.segment
    cases hc.symm.trans hc'
    have hfirst : c.firstState? = some entry := by rw [Segment.firstState?, hstates, span, List.head?_cons]
    -- The rest of a sequence starts after the last state of `c`, and other segments start where `c` does.
    obtain ⟨e, l, hel, hnext, hgoes, hstays, h⟩ : ∃ e l, e ≤ l ∧ (e = mid + 1 ∧ l = mid + 1 ∨ e = entry ∧ l = mid) ∧
        (kind = .seq → os ≠ [] → e = mid + 1) ∧ ((kind = .seq → os = []) → e = entry) ∧ s.StatedAll kind e l hi os := by
      split at h
      · exact ⟨mid + 1, mid + 1, Nat.le_refl _, .inl ⟨rfl, rfl⟩, by simp, by simp_all, h⟩
      · exact ⟨entry, mid, Nat.le_trans hentry hlo, .inr ⟨rfl, rfl⟩, by simp_all, by simp, h⟩
    obtain ⟨hle, hall, hsub, hnil, hcover, hdisj, hfirsts, _⟩ := ih hel h
    refine ⟨by omega, List.forall_mem_cons.2 ⟨⟨entry, lo, mid, hstated, by omega⟩, hall⟩,
      List.forall_mem_cons.2 ⟨?_, ?_⟩, by simp, ?_, ?_, ?_, ?_⟩
    · intro x hx
      rw [hstates, mem_span] at hx
      rw [mem_span]
      omega
    · intro d hd x hx
      have := hsub d hd x hx
      rw [mem_span] at this ⊢
      omega
    · intro _ x hx
      rw [mem_span] at hx
      by_cases hmid : x = entry ∨ x ≤ mid
      · refine ⟨c, List.mem_cons_self, ?_⟩
        rw [hstates, mem_span]
        omega
      · have hsne : segs ≠ [] := by
          rintro rfl
          cases hsegs
          have := hnil rfl
          have := hstays fun _ => rfl
          omega
        obtain ⟨d, hd, hxd⟩ := hcover hsne x (by rw [mem_span]; omega)
        exact ⟨d, List.mem_cons_of_mem _ hd, hxd⟩
    · intro hk
      refine List.pairwise_cons.2 ⟨?_, hdisj hk⟩
      intro d hd x hx hxd
      have hos : os ≠ [] := by
        rintro rfl
        cases hsegs
        cases hd
      have := hgoes hk hos
      have := hsub d hd x hxd
      rw [mem_span] at this
      rw [hstates, mem_span] at hx
      omega
    · intro hk
      have he := hstays fun hseq => absurd hseq hk
      exact List.forall_mem_cons.2 ⟨hfirst, he ▸ hfirsts hk⟩
    · intro d hd
      cases hd
      exact hfirst

theorem spelled_of_unstated {segs segs' : List Segment}
    (h : List.Forall₂ (fun c c' : Segment => c'.unstated = c.unstated) segs segs') :
    segs.flatMap Segment.spelled = segs'.flatMap Segment.spelled := by
  induction h with
  | nil => rfl
  | @cons c c' _ _ hc _ ih =>
    have hspelled : c'.unstated.spelled = c.unstated.spelled := congrArg Segment.spelled hc
    have hspelled' : c'.spelled = c.spelled := hspelled
    rw [List.flatMap_cons, List.flatMap_cons, ih, hspelled']

/-- The segments that a schedule has at the outlines `os`, before and after states are given out. -/
theorem Alike.segments {s s' : Schedule} (hs : s.Alike s') {os : List Outline} {segs : List Segment}
    (h : List.Forall₂ (fun o c => s.segment o.index = .ok c) os segs) :
    ∃ segs', List.Forall₂ (fun o c => s'.segment o.index = .ok c) os segs' ∧
      List.Forall₂ (fun c c' : Segment => c'.unstated = c.unstated) segs segs' := by
  induction h with
  | nil => exact ⟨[], .nil, .nil⟩
  | cons hc _ ih =>
    obtain ⟨states, hc'⟩ := hs.segment hc
    obtain ⟨segs', hsegs', hunstated⟩ := ih
    exact ⟨_ :: segs', .cons hc' hsegs', .cons rfl hunstated⟩

theorem leafFits {m m' : Module} {s s' : Schedule} (hm : m.Alike m') (hs : s.Alike s') {i : Nat} {seg : Segment}
    (hseg : s.segment i = .ok seg) (hkind : seg.kind = .leaf) (hblock : seg.block = none)
    (hchildren : seg.children = []) (hprolog : seg.prolog = []) (hepilog : seg.epilog = [])
    (hstmts : m.SingleCycle seg.stmts)
    (hin : ∀ j ∈ seg.spelled, j ∈ (m'.outline m'.root).preorder) {os : List Outline} {entry lo hi maxState : Nat}
    (hst : s'.Stated entry lo hi (.node i os)) (hmax : hi ≤ maxState) :
    ∃ seg', LeafFits m' s' maxState i seg' := by
  obtain ⟨states, hseg'⟩ := hs.segment hseg
  obtain ⟨seg', hseg'', hentry, hlo, hstates, hst⟩ := hst
  cases hseg'.symm.trans hseg''
  rw [if_pos hkind] at hst
  subst hst
  have hstates : states = [entry] := by simpa [span] using hstates
  subst hstates
  have hspelled : seg.spelled = seg.stmts := by rw [Segment.spelled, hkind, hprolog, hepilog]; simp
  refine ⟨_, hseg', hkind, hblock, hchildren, hprolog, hepilog, hstmts.alike hm, fun j hj => hin j (hspelled ▸ hj), ?_⟩
  refine ⟨by simp, by simp, ?_, by simp, by simp, by simp, by simp, by simp, by simp⟩
  intro x hx
  have hx : x = entry := by simpa using hx
  omega

/-- States given out over a sequence or over branches fit. -/
theorem StatedAll.statesFit {s : Schedule} {entry lo hi maxState : Nat} {os : List Outline} {seg : Segment}
    {segs : List Segment} (hsegs : List.Forall₂ (fun o c => s.segment o.index = .ok c) os segs) (hentry : entry ≤ lo)
    (hmax : hi ≤ maxState) (hstates : seg.states = span entry lo hi) (h : s.StatedAll seg.kind entry lo hi os) :
    StatesFit maxState seg segs := by
  obtain ⟨_, _, hsub, hnil, hcover, hdisj, hfirsts, hhead⟩ := h.facts hsegs hentry
  have hfirst : seg.firstState? = some entry := by rw [Segment.firstState?, hstates, span, List.head?_cons]
  refine ⟨?_, ?_, ?_, ?_, ?_, ?_, hdisj, ?_, ?_⟩
  · simp [hstates, span]
  · rw [hstates]
    exact nodup_span hentry
  · intro x hx
    rw [hstates, mem_span] at hx
    omega
  · intro hs
    rw [hstates, hnil hs]
    simp [span]
  · intro c hc x hx
    rw [hstates]
    exact hsub c hc x hx
  · intro hs x hx
    rw [hstates] at hx
    exact hcover hs x hx
  · intro hk c hc
    rw [hfirst]
    exact hfirsts (by rw [hk]; simp) c hc
  · intro c hc
    rw [hfirst]
    exact hhead c hc

theorem kind_of_laid {b b' : Block} (hbkind : b'.kind.bare = b.kind.bare) {kind : SegmentKind} {segs segs' : List Segment}
    (hunstated : List.Forall₂ (fun c c' : Segment => c'.unstated = c.unstated) segs segs')
    (h : kind = .seq ∧ b.kind ≠ .container ∨ kind = .mutex ∧
      (b.kind = .container ∧ (∀ c ∈ segs, c.kind ≠ .leaf) ∨ b.kind = .conditional ∧ segs.length ≤ 1)) :
    kind = .seq ∧ b'.kind ≠ .container ∨ kind = .mutex ∧
      (b'.kind = .container ∧ (∀ c ∈ segs', c.kind ≠ .leaf) ∨ b'.kind = .conditional ∧ segs'.length ≤ 1) := by
  rcases h with ⟨hk, hne⟩ | ⟨hk, ⟨hcontainer, hleaves⟩ | ⟨hcond, hle⟩⟩
  · refine .inl ⟨hk, fun hc => hne ?_⟩
    rw [← BlockKind.bare_eq_container, ← hbkind, hc]
    rfl
  · refine .inr ⟨hk, .inl ⟨?_, ?_⟩⟩
    · rw [← BlockKind.bare_eq_container, hbkind, hcontainer]
      rfl
    · intro c' hc'
      obtain ⟨c, hc, hcc⟩ := exists_of_mem_forall₂ hunstated hc'
      have hckind : c'.unstated.kind = c.unstated.kind := congrArg Segment.kind hcc
      exact fun hk => hleaves c hc (hckind.symm.trans hk)
  · refine .inr ⟨hk, .inr ⟨?_, ?_⟩⟩
    · rw [← BlockKind.bare_eq_conditional, hbkind, hcond]
      rfl
    · rw [← hunstated.length_eq]
      exact hle

theorem consistent_of_laid {m m' : Module} {s s' : Schedule} {parent : Option Nat} {o : Outline} (h : Laid m s parent o)
    (hwf : m'.WellFormed) (hm : m.Alike m') (hs : s.Alike s') {entry lo hi maxState : Nat}
    (hst : s'.Stated entry lo hi o) (hmax : hi ≤ maxState)
    (hin : ∀ seg, s.segment o.index = .ok seg → ∀ j ∈ seg.spelled, j ∈ (m'.outline m'.root).preorder ∧
      (j = m'.root ↔ parent = none)) :
    Consistent m' s' maxState o := by
  induction h generalizing entry lo hi with
  | @leaf parent i seg hseg hparent hkind hblock hchildren hprolog hepilog hstmts =>
    obtain ⟨_, hfits⟩ := leafFits hm hs hseg hkind hblock hchildren hprolog hepilog hstmts
      (fun j hj => (hin seg hseg j hj).1) hst hmax
    exact .leaf hfits
  | @block parent i n b seg os segs hseg hparent hblock hstmt hchildren hstmts hprolog hepilog hsegs hkind hspelled hos
      ih =>
    obtain ⟨states, hseg'⟩ := hs.segment hseg
    obtain ⟨seg', hseg'', hentry, hlo, hstates, hst⟩ := hst
    cases hseg'.symm.trans hseg''
    dsimp only at hstates hst
    rw [if_neg (ne_leaf hkind)] at hst
    obtain ⟨segs', hsegs', hunstated⟩ := hs.segments hsegs
    obtain ⟨b', hb', hbare⟩ := hm.block hstmt
    obtain ⟨hbkind, _, hbstmts⟩ := Stmt.bare_block_inj hbare
    have hn : n ∈ seg.spelled := by simp [Segment.spelled_of_block (ne_leaf hkind) hblock]
    obtain ⟨hnin, hnroot⟩ := hin seg hseg n hn
    refine .block ⟨hseg', hblock, hb', hchildren, fun j hj => (hprolog j hj).alike hm,
      fun j hj => (hepilog j hj).alike hm, hsegs', ?_, kind_of_laid hbkind hunstated (hsegs.length_eq ▸ hkind), ?_,
      fun j hj => (hin seg hseg j hj).1, ?_, hst.statesFit hsegs' hentry hmax hstates⟩ ?_
    · intro c' hc'
      obtain ⟨c, hc, hcc⟩ := exists_of_mem_forall₂ hunstated hc'
      obtain ⟨o, ho, hoc⟩ := exists_of_mem_forall₂ hsegs hc
      obtain ⟨c₀, hc₀, hparent'⟩ := (hos o ho).parent
      cases hoc.symm.trans hc₀
      have hcparent : c'.unstated.parent = c.unstated.parent := congrArg Segment.parent hcc
      exact hcparent.trans hparent'
    · rw [hbstmts, ← hspelled, spelled_of_unstated hunstated]
    · have hparent' : seg.parent = none ↔ n = m'.root := by rw [hparent, hnroot]
      refine Iff.trans ?_ hparent'.symm
      constructor
      · intro hk
        obtain ⟨s₀, hs₀, hfits⟩ := hwf.fits n hnin
        cases hb'.symm.trans hs₀
        rw [Module.Fits, hk] at hfits
        exact hfits
      · intro hroot
        obtain ⟨b₀, hb₀, hk, _⟩ := hwf.root_block
        rw [hroot, hb₀] at hb'
        cases hb'
        exact hk
    · intro o ho
      obtain ⟨e, l, k, hst', hk⟩ := (hst.facts hsegs' hentry).2.1 o ho
      refine ih o ho hst' (hk.trans hmax) ?_
      intro c hc j hj
      have hmem : j ∈ b'.stmts := by
        obtain ⟨c₀, hc₀, hoc⟩ := exists_of_mem_forall₂ hsegs.flip ho
        cases hc.symm.trans hoc
        rw [hbstmts, ← hspelled]
        exact List.mem_flatMap.2 ⟨c, hc₀, hj⟩
      obtain ⟨hjin, hjroot⟩ := hwf.nested hnin hb' hmem
      exact ⟨hjin, by simp [hjroot]⟩

end Schedule

deriving instance DecidableEq for Staged

/-- The root segment of a staged schedule stands for the root block alone, and has all states. -/
structure RootFits (st : Staged) (seg : Segment) : Prop where
  segment : st.schedule.segment st.schedule.root = .ok seg
  block : seg.block = some st.module.root
  parent : seg.parent = none
  spelled : seg.spelled = [st.module.root]
  states : seg.states = Numbering.span 0 0 st.maxState

/-- A staged module is like the one it was made from, and its schedule fits. -/
theorem Module.stage_consistent {m : Module} (hm : m.WellFormed) {s : Schedule} (hs : m.schedule = .ok s) {st : Staged}
    (hst : m.stage s = .ok st) :
    m.Alike st.module ∧ Schedule.Consistent st.module st.schedule st.maxState (st.schedule.outline st.schedule.root) ∧
      (st.schedule.outline st.schedule.root).preorder = List.range st.schedule.segments.size ∧
      ∃ seg, RootFits st seg := by
  obtain ⟨hlaid, hpre, root, hroot, hspelled, hblock⟩ := schedule_laid hm hs
  rw [stage, Checked.bind_eq_ok] at hst
  obtain ⟨n, hn, hst⟩ := hst
  rw [Checked.bind_eq_ok] at hst
  obtain ⟨m', hm', hst⟩ := hst
  cases hst
  have hnodup : (s.outline s.root).preorder.Nodup := hpre ▸ List.nodup_range
  obtain ⟨halike, hschedule, hstated⟩ := Numbering.run_stated hnodup hn
  have halike' : m.Alike m' := halike.trans (Marking.kept_markReads Marking.kept_alike hm')
  have houtline : n.schedule.outline n.schedule.root = s.outline s.root := by rw [hschedule.root, hschedule.outline]
  obtain ⟨states, hseg⟩ := hschedule.segment hroot
  have hindex := s.index_outline s.root
  obtain ⟨seg', hseg', _, _, hstates⟩ := hstated.segment
  rw [hindex, hseg] at hseg'
  cases hseg'
  obtain ⟨root', hroot', hparent⟩ := hlaid.parent
  rw [hindex, hroot] at hroot'
  cases hroot'
  have hin : ∀ seg, s.segment (s.outline s.root).index = .ok seg → ∀ j ∈ seg.spelled,
      j ∈ (m'.outline m'.root).preorder ∧ (j = m'.root ↔ (none : Option Nat) = none) := by
    intro seg' hseg' j hj
    rw [hindex, hroot] at hseg'
    cases hseg'
    have hj : j = m'.root := by
      rw [halike'.root]
      simpa [hspelled] using hj
    exact ⟨hj ▸ m'.mem_outline m'.root, by simp [hj]⟩
  dsimp only
  rw [houtline]
  refine ⟨halike', Schedule.consistent_of_laid hlaid (halike'.wellFormed hm) halike' hschedule hstated (Nat.le_refl _)
    hin, ?_, { root with states := states }, ?_⟩
  · rw [hschedule.size]
    exact hpre
  · exact ⟨by rw [hschedule.root]; exact hseg, by rw [halike'.root]; exact hblock, hparent,
      by rw [halike'.root]; exact hspelled, hstates⟩

end Sequencer
