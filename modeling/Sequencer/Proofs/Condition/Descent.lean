import Sequencer.Proofs.Condition.Exit
import Sequencer.Proofs.Condition.Leaves
import Sequencer.Proofs.Schedule.Numbers

set_option autoImplicit false

/-!
# References between conditions

The table defines the conditions of every block with a segment and of every yield, and no others. The conditions of a
block refer to those of blocks with larger ids, so that no condition depends on itself.
-/

namespace Sequencer

open Control Checked

namespace Name

/-- One of the two conditions of the block with that id. -/
def OfBlock (id : Nat) (name : String) : Prop := name = cycleCond id ∨ name = exitCond id

theorem OfBlock.inj {i j : Nat} {name : String} (hi : OfBlock i name) (hj : OfBlock j name) : i = j := by
  rcases hi with rfl | rfl
  · rcases hj with hj | hj
    · exact cycleCond_inj.1 hj
    · exact absurd hj (cycleCond_ne_exitCond i j)
  · rcases hj with hj | hj
    · exact absurd hj.symm (cycleCond_ne_exitCond j i)
    · exact exitCond_inj.1 hj

theorem OfBlock.ending {i : Nat} {name : String} (h : OfBlock i name) :
    ∃ c, Name.ending name = some c ∧ c.isDigit = true := by
  rcases h with rfl | rfl
  · exact ending_cycleCond i
  · exact ending_exitCond i

theorem resetCond_not_ofBlock (i : Nat) : ¬ OfBlock i resetCond := by
  intro h
  obtain ⟨c, hc, hdigit⟩ := h.ending
  have hlast : Name.ending resetCond = some 'd' := by decide
  rw [hlast] at hc
  cases hc
  exact absurd hdigit (by decide)

theorem ready_not_isCondition (port : String) : ¬ IsCondition (ready port) :=
  not_isCondition_of_ending (ending_ready port) (by decide) (by decide)

theorem last_not_isCondition (port : String) : ¬ IsCondition (last port) :=
  not_isCondition_of_ending (c := 't') (ending_append (by decide)) (by decide) (by decide)

end Name

/-- The segment takes its conditions from the statement at `n`: its block, or a yield in it. -/
def Segment.Times (m : Module) (seg : Segment) (n : Nat) : Prop :=
  seg.block = some n ∨ seg.kind = .leaf ∧ n ∈ seg.stmts ∧ ∃ y, m.stmt n = .ok (.yield y)

/-- A segment at or below the outline takes its conditions from the statement at `n`. -/
def Schedule.Times (m : Module) (s : Schedule) (o : Outline) (n : Nat) : Prop :=
  ∃ i ∈ o.preorder, ∃ seg, s.segment i = .ok seg ∧ seg.Times m n

theorem Schedule.times_node {m : Module} {s : Schedule} {i : Nat} {os : List Outline} {seg : Segment}
    (hseg : s.segment i = .ok seg) {n : Nat} :
    s.Times m (.node i os) n ↔ seg.Times m n ∨ ∃ o ∈ os, s.Times m o n := by
  constructor
  · rintro ⟨i', hi', seg', hseg', hn⟩
    rw [Outline.preorder_eq] at hi'
    rcases List.mem_cons.1 hi' with rfl | hi'
    · cases hseg.symm.trans hseg'
      exact .inl hn
    · obtain ⟨o, ho, hi'⟩ := List.mem_flatMap.1 hi'
      exact .inr ⟨o, ho, i', hi', seg', hseg', hn⟩
  · rw [Times, Outline.preorder_eq]
    rintro (hn | ⟨o, ho, i', hi', seg', hseg', hn⟩)
    · exact ⟨i, List.mem_cons_self, _, hseg, hn⟩
    · exact ⟨i', List.mem_cons_of_mem _ (List.mem_flatMap.2 ⟨o, ho, hi'⟩), seg', hseg', hn⟩

theorem Schedule.Consistent.takesId {m : Module} {s : Schedule} {maxState : Nat} {o : Outline}
    (h : Consistent m s maxState o) {n : Nat} (hn : s.Times m o n) : n ∈ s.numbering o ∧ m.TakesId n := by
  obtain ⟨i, hi, seg, hseg, hn⟩ := hn
  rcases hn with hblock | ⟨hkind, hn, y, hy⟩
  · refine ⟨mem_numbering.2 ⟨i, hi, seg, hseg, by simp [Segment.numbered, hblock]⟩, ?_⟩
    obtain ⟨o', rfl, _, hpart⟩ := h.exists_part hi
    cases hpart with
    | leaf hleaf =>
      cases hleaf.segment.symm.trans hseg
      rw [hleaf.block] at hblock
      cases hblock
    | block hfits _ =>
      cases hfits.segment.symm.trans hseg
      cases hfits.block.symm.trans hblock
      exact ⟨_, hfits.stmt, rfl⟩
  · exact ⟨mem_numbering.2 ⟨i, hi, seg, hseg, by simp [Segment.numbered, hkind, hn]⟩, _, hy, rfl⟩

/-- Blocks and yields that the segments at and below an outline number have ids, which increase. -/
structure Schedule.Increasing (m : Module) (s : Schedule) (o : Outline) : Prop where
  given : ∀ n ∈ s.numbering o, m.TakesId n → ∃ id, m.idAt n = some id
  ids : ((s.numbering o).filterMap m.idAt).Pairwise (· < ·)

theorem Schedule.Increasing.nested {m : Module} {s : Schedule} {i : Nat} {os : List Outline} {seg : Segment}
    (h : s.Increasing m (.node i os)) (hseg : s.segment i = .ok seg) {o : Outline} (ho : o ∈ os) : s.Increasing m o := by
  have hsub : (s.numbering o).Sublist (s.numbering (.node i os)) := by
    rw [numbering_node hseg]
    exact (List.sublist_flatten_of_mem (List.mem_map_of_mem ho)).trans (List.sublist_append_right _ _)
  exact ⟨fun n hn => h.given n (hsub.subset hn), h.ids.sublist (hsub.filterMap _)⟩

/-- The ids of a segment are smaller than those of the segments below it. -/
theorem Schedule.Increasing.lt {m : Module} {s : Schedule} {i : Nat} {os : List Outline} {seg : Segment}
    (h : s.Increasing m (.node i os)) (hseg : s.segment i = .ok seg) {n id : Nat} (hn : n ∈ seg.numbered)
    (hid : m.idAt n = some id) {o : Outline} (ho : o ∈ os) {n' id' : Nat} (hn' : n' ∈ s.numbering o)
    (hid' : m.idAt n' = some id') : id < id' := by
  have hids := h.ids
  rw [numbering_node hseg, List.filterMap_append, List.pairwise_append] at hids
  exact hids.2.2 id (List.mem_filterMap.2 ⟨n, hn, hid⟩) id'
    (List.mem_filterMap.2 ⟨n', List.mem_flatMap.2 ⟨o, ho, hn'⟩, hid'⟩)

namespace ConditionTable

/-- The conditions of the block with that id are defined. -/
def Has (d : Defs) (id : Nat) : Prop := ∃ t, (id, t) ∈ d

theorem has_define {id j : Nat} {t : Timing} {d : Defs} : Has (define id t d) j ↔ Has d j ∨ j = id := by
  constructor
  · rintro ⟨u, hu⟩
    rcases mem_of_mem_define hu with heq | hu
    · exact .inr (congrArg Prod.fst heq)
    · exact .inl ⟨u, hu⟩
  · intro h
    by_cases hj : j = id
    · exact ⟨t, hj ▸ mem_define_self id t d⟩
    · obtain ⟨u, hu⟩ := h.resolve_right hj
      exact ⟨u, mem_define_of_ne hu hj⟩

theorem mem_yields {m : Module} {stmts : List Nat} {ys : List Yield} (h : yields m stmts = .ok ys) {y : Yield} :
    y ∈ ys ↔ ∃ j ∈ stmts, m.stmt j = .ok (.yield y) := by
  refine ⟨exists_of_mem_yields h, ?_⟩
  rintro ⟨j, hj, hy⟩
  obtain ⟨ss, hss, h⟩ := bind_eq_ok.1 h
  cases h
  obtain ⟨s, hs, hjs⟩ := exists_of_mem_forall₂ (mapM_eq_ok hss).flip hj
  cases hy.symm.trans hjs
  exact List.mem_filterMap.2 ⟨_, hs, rfl⟩

theorem meets_yields (measured : Prop) {m : Module} {stmts : List Nat} (h : ∀ n ∈ stmts, ∃ s, m.stmt n = .ok s) :
    Meets measured (yields m stmts) fun ys => ∀ y, y ∈ ys ↔ ∃ n ∈ stmts, m.stmt n = .ok (.yield y) := by
  refine ⟨fun ys hys y => mem_yields hys, fun hm => ?_⟩
  have hstmts : Meets measured (stmts.mapM m.stmt) fun _ => True := by
    refine (Meets.mapM (S := fun _ => True) fun n hn => ?_).mono fun _ _ => trivial
    obtain ⟨s, hs⟩ := h n hn
    exact .ok hs trivial
  exact (hstmts.bind (S := fun _ => True) fun ss _ => .ok rfl trivial).succeeds hm

section Build

variable (heeded : String → Prop) (measured : Prop)

/-- What the conditions of the block `id` may have as a leaf. Of the names that are heeded only those of conditions of
blocks with larger ids may be used, which are defined, and if `measured` then literals have a width. -/
structure Admits (d : Defs) (id : Nat) (x : Expr) : Prop where
  later : ∀ w, x = .wire w → heeded w.name → ∃ j, Name.OfBlock j w.name ∧ id < j ∧ Has d j
  measurable : measured → x.Measurable

variable {heeded measured}

theorem Admits.mono {d d' : Defs} {id : Nat} {x : Expr} (h : Admits heeded measured d id x)
    (hd : ∀ j, Has d j → Has d' j) : Admits heeded measured d' id x := by
  refine ⟨fun w hx hw => ?_, h.measurable⟩
  obtain ⟨j, hj, hlt, hhas⟩ := h.later w hx hw
  exact ⟨j, hj, hlt, hd j hhas⟩

theorem admits_bool (d : Defs) (id : Nat) (b : Bool) : Admits heeded measured d id (.bool b) :=
  ⟨fun _ hx => (by cases hx), fun _ => Expr.measurable_bool b⟩

theorem leafRule_admits (d : Defs) (id : Nat) : Expr.LeafRule measured (Admits heeded measured d id) :=
  ⟨admits_bool d id, fun hm _ hx => hx.measurable hm⟩

theorem admits_flag (d : Defs) (id : Nat) {name : String} (h : ¬ heeded name) :
    Admits heeded measured d id (.flag name) := by
  refine ⟨fun w hx hw => ?_, fun _ => ⟨none, rfl⟩⟩
  cases hx
  exact absurd hw h

variable (heeded measured) in
/-- The definitions stand in the order of their ids and refer to later ones. -/
structure Ordered (d : Defs) : Prop where
  sorted : Sorted d
  leaves : ∀ id t, (id, t) ∈ d → t.LeavesSatisfy (Admits heeded measured d id)

theorem Ordered.define {d : Defs} (h : Ordered heeded measured d) {id : Nat} {t : Timing}
    (ht : t.LeavesSatisfy (Admits heeded measured d id)) : Ordered heeded measured (define id t d) where
  sorted := h.sorted.define id t
  leaves j u hu := by
    have hmono : ∀ x, Has d x → Has (ConditionTable.define id t d) x := fun x hx => has_define.2 (.inl hx)
    rcases mem_of_mem_define hu with heq | hu
    · cases heq
      exact ht.mono fun x hx => hx.mono hmono
    · exact (h.leaves j u hu).mono fun x hx => hx.mono hmono

theorem meets_yieldTiming (hheeded : ∀ n, heeded n → Name.IsCondition n) (m : Module) (y : Yield) (d : Defs) (id : Nat) :
    Meets measured (yieldTiming m y) (Timing.LeavesSatisfy (Admits heeded measured d id)) := by
  refine (Cond.meets_all (leafRule_admits d id) ?_).bind fun c hc => .ok rfl ⟨hc, hc⟩
  intro c hc
  obtain ⟨e, _, rfl⟩ := List.mem_map.1 hc
  refine Cond.leavesSatisfy_some fun x hx => List.mem_singleton.1 hx ▸ ?_
  exact admits_flag d id fun hn => Name.ready_not_isCondition _ (hheeded _ hn)

theorem meets_defineYields (hheeded : ∀ n, heeded n → Name.IsCondition n) (m : Module) {ys : List Yield}
    (hys : ∀ y ∈ ys, ∃ id, y.id = some id) {d : Defs}
    (hd : Ordered heeded measured d) : Meets measured (defineYields m d ys) fun r => Ordered heeded measured r.1 ∧
      (∀ j, Has r.1 j ↔ Has d j ∨ ∃ y ∈ ys, y.id = some j) ∧ ∀ t ∈ r.2, ∃ y ∈ ys, ∃ id, y.id = some id ∧ t = .ofBlock id := by
  induction ys generalizing d with
  | nil => exact .ok rfl ⟨hd, by simp, by simp⟩
  | cons y ys ih =>
    obtain ⟨⟨id, hid⟩, hys⟩ := List.forall_mem_cons.1 hys
    rw [defineYields, hid]
    refine (meets_yieldTiming hheeded m y d id).bind fun t ht => (ih hys (hd.define ht)).bind fun r hr => .ok rfl ?_
    obtain ⟨hordered, hhas, hts⟩ := hr
    refine ⟨hordered, ?_, ?_⟩
    · intro j
      simp [hhas j, has_define, hid, or_assoc, eq_comm]
    · rintro u hu
      rcases List.mem_cons.1 hu with rfl | hu
      · exact ⟨y, List.mem_cons_self, id, hid, rfl⟩
      · obtain ⟨y', hy', hrest⟩ := hts u hu
        exact ⟨y', List.mem_cons_of_mem _ hy', hrest⟩

/-- What the reference to a segment may have as a leaf: the name of a condition of one of its statements, which is
defined, or a truth value. -/
def Cites (m : Module) (d : Defs) (seg : Segment) (x : Expr) : Prop :=
  (∃ b, x = .bool b) ∨
    ∃ n ∈ seg.numbered, ∃ j name, m.idAt n = some j ∧ Has d j ∧ Name.OfBlock j name ∧ x = .flag name

theorem Cites.mono {m : Module} {d d' : Defs} {seg : Segment} {x : Expr} (h : Cites m d seg x)
    (hd : ∀ j, Has d j → Has d' j) : Cites m d' seg x := by
  refine h.imp_right ?_
  rintro ⟨n, hn, j, name, hid, hhas, hrest⟩
  exact ⟨n, hn, j, name, hid, hd j hhas, hrest⟩

theorem Cites.admits {m : Module} {d : Defs} {seg : Segment} {x : Expr} (h : Cites m d seg x) {id : Nat}
    (hlt : ∀ n ∈ seg.numbered, ∀ j, m.idAt n = some j → id < j) : Admits heeded measured d id x := by
  rcases h with ⟨b, rfl⟩ | ⟨n, hn, j, name, hid, hhas, hname, rfl⟩
  · exact admits_bool d id b
  · refine ⟨fun w hx _ => ?_, fun _ => ⟨none, rfl⟩⟩
    cases hx
    exact ⟨j, hname, hlt n hn j hid, hhas⟩

/-- References to blocks are measured by the names of their conditions. -/
theorem leafRule_cites (p : Prop) (m : Module) (d : Defs) (seg : Segment) : Expr.LeafRule p (Cites m d seg) where
  bool b := .inl ⟨b, rfl⟩
  measurable _ x hx := by
    rcases hx with ⟨b, rfl⟩ | ⟨_, _, _, name, _, _, _, rfl⟩
    · exact Expr.measurable_bool b
    · exact ⟨none, rfl⟩

theorem cites_ofBlock {m : Module} {d : Defs} {seg : Segment} {n id : Nat} (hn : n ∈ seg.numbered)
    (hid : m.idAt n = some id) (hhas : Has d id) : (Timing.ofBlock id).LeavesSatisfy (Cites m d seg) := by
  have hflag : ∀ name, Name.OfBlock id name → Cond.LeavesSatisfy (Cites m d seg) (some (.flag name)) := fun name hname =>
    Cond.leavesSatisfy_some fun x hx => List.mem_singleton.1 hx ▸ .inr ⟨n, hn, id, name, hid, hhas, hname, rfl⟩
  exact ⟨hflag _ (.inl rfl), hflag _ (.inr rfl)⟩

variable (heeded measured) in
/-- A draft in which definitions and references to segments are in order. -/
structure Draft.Ordered (inp : Input) (d : Draft) : Prop where
  defs : ConditionTable.Ordered heeded measured d.defs
  size : d.refs.size = inp.schedule.segments.size
  refs : ∀ i seg t, inp.schedule.segment i = .ok seg → d.refs.get i = .ok t →
    t.LeavesSatisfy (Cites inp.module d.defs seg)

variable {inp : Input}

theorem Draft.Ordered.get {d : Draft} (h : d.Ordered heeded measured inp) {i : Nat} {seg : Segment}
    (hseg : inp.schedule.segment i = .ok seg) : ∃ t, d.refs.get i = .ok t := by
  have hlt : i < d.refs.size := h.size ▸ Schedule.lt_size_of_segment hseg
  obtain ⟨t, ht⟩ := Arena.exists_get?_of_lt hlt
  exact ⟨t, (Arena.get_eq_ok_iff _ _ _).2 ht⟩

/-- More definitions, and a reference to a segment that cites what is defined. -/
theorem Draft.Ordered.set {d : Draft} (h : d.Ordered heeded measured inp) {defs : Defs}
    (hdefs : ConditionTable.Ordered heeded measured defs) (hhas : ∀ j, Has d.defs j → Has defs j) {i : Nat} {seg : Segment}
    (hseg : inp.schedule.segment i = .ok seg) {t : Timing} (ht : t.LeavesSatisfy (Cites inp.module defs seg)) :
    Meets measured (d.refs.set i t) fun refs => Draft.Ordered heeded measured inp ⟨defs, refs⟩ where
  result refs hset := by
    obtain ⟨hsize, hget⟩ := Arena.set_eq_ok hset
    refine ⟨hdefs, hsize.trans h.size, ?_⟩
    intro j seg' u hseg' hu
    rw [Arena.get_eq_ok_iff, hget j] at hu
    split at hu
    · rename_i hji
      subst hji
      cases hu
      cases hseg.symm.trans hseg'
      exact ht
    · exact (h.refs j seg' u hseg' ((Arena.get_eq_ok_iff _ _ _).2 hu)).mono fun x hx => hx.mono hhas
  succeeds _ := by
    obtain ⟨u, hu⟩ := h.get hseg
    exact Arena.set_succeeds hu t

/-- Between the drafts the definitions for the statements in `S` have been added. -/
def Adds (inp : Input) (S : Nat → Prop) (d d' : Draft) : Prop :=
  ∀ j, Has d'.defs j ↔ Has d.defs j ∨ ∃ n, S n ∧ inp.module.idAt n = some j

theorem Adds.trans {S T U : Nat → Prop} {d d' d'' : Draft} (h : Adds inp S d d') (h' : Adds inp T d' d'')
    (hU : ∀ n, U n ↔ S n ∨ T n) : Adds inp U d d'' := by
  intro j
  rw [h' j, h j, or_assoc, ← exists_or]
  simp only [hU, or_and_right]

variable {i : Nat} {seg : Segment}

/-- A leaf adds the definitions of its yields. -/
theorem meets_defineSegment_leaf (hheeded : ∀ n, heeded n → Name.IsCondition n) {maxState : Nat}
    (hleaf : Schedule.LeafFits inp.module inp.schedule maxState i seg)
    (hwf : inp.module.WellFormed) (hgiven : ∀ n ∈ seg.numbered, inp.module.TakesId n → ∃ id, inp.module.idAt n = some id)
    {d : Draft} (hd : d.Ordered heeded measured inp) :
    Meets measured (defineSegment inp d i seg) fun d' =>
      d'.Ordered heeded measured inp ∧ Adds inp (seg.Times inp.module) d d' := by
  have hnumbered : ∀ n ∈ seg.stmts, n ∈ seg.numbered := fun n hn => by simp [Segment.numbered, hleaf.kind, hn]
  have hstmts : ∀ n ∈ seg.stmts, ∃ s, inp.module.stmt n = .ok s := fun n hn =>
    (hwf.fits n (hleaf.inside n hn)).imp fun _ h => h.1
  rw [defineSegment, hleaf.kind]
  refine (meets_yields measured hstmts).bind fun ys hys => ?_
  have hsome : ∀ y ∈ ys, ∃ n ∈ seg.stmts, inp.module.stmt n = .ok (.yield y) ∧ inp.module.idAt n = y.id ∧
      ∃ id, y.id = some id := by
    intro y hy
    obtain ⟨n, hn, hstmt⟩ := (hys y).1 hy
    have hidAt : inp.module.idAt n = y.id := Module.idAt_of_stmt hstmt
    obtain ⟨id, hid⟩ := hgiven n (hnumbered n hn) ⟨_, hstmt, rfl⟩
    exact ⟨n, hn, hstmt, hidAt, id, hidAt.symm.trans hid⟩
  have hids : ∀ y ∈ ys, ∃ id, y.id = some id := by
    intro y hy
    obtain ⟨_, _, _, _, hid⟩ := hsome y hy
    exact hid
  refine (meets_defineYields hheeded inp.module hids hd.defs).bind ?_
  rintro ⟨defs, ts⟩ ⟨hordered, hhas, hts⟩
  have hall : Meets measured (Timing.all ts) (Timing.LeavesSatisfy (Cites inp.module defs seg)) := by
    refine Timing.meets_all (leafRule_cites measured _ _ _) fun t ht => ?_
    obtain ⟨y, hy, id, hid, rfl⟩ := hts t ht
    obtain ⟨n, hn, _, hidAt, _⟩ := hsome y hy
    exact cites_ofBlock (hnumbered n hn) (hidAt.trans hid) ((hhas id).2 (.inr ⟨y, hy, hid⟩))
  refine hall.bind fun t ht => (hd.set hordered (fun j hj => (hhas j).2 (.inl hj)) hleaf.segment ht).bind fun refs hrefs =>
    .ok rfl ⟨hrefs, fun j => (hhas j).trans (or_congr_right ?_)⟩
  constructor
  · rintro ⟨y, hy, hid⟩
    obtain ⟨n, hn, hstmt, hidAt, _⟩ := hsome y hy
    exact ⟨n, .inr ⟨hleaf.kind, hn, y, hstmt⟩, hidAt.trans hid⟩
  · rintro ⟨n, htimes, hid⟩
    rcases htimes with hblock | ⟨_, hn, y, hstmt⟩
    · rw [hleaf.block] at hblock
      cases hblock
    · exact ⟨y, (hys y).2 ⟨n, hn, hstmt⟩, (Module.idAt_of_stmt hstmt).symm.trans hid⟩

variable (heeded measured) in
/-- The guards and exit conditions of a module use no name that is heeded, and if `measured` then their literals have a
width. -/
def Sourced (m : Module) : Prop :=
  ∀ n ∈ (m.outline m.root).preorder, ∀ b, m.stmt n = .ok (.block b) → ∀ e ∈ (Stmt.block b).exprs,
    e.LeavesSatisfy fun x => (∀ w, x = .wire w → ¬ heeded w.name) ∧ (measured → x.Measurable)

theorem measurable_literal (sp : StateSpace) (k : Nat) : (sp.literal k).Measurable := by
  have hwidth : sp.type.width.accepted? = .ok (some (UInt64.ofNat sp.width).toNat) := rfl
  rw [Expr.Measurable, StateSpace.literal, Expr.literal, Expr.asBool, hwidth, ok_bind]
  split
  · exact ⟨_, rfl⟩
  · exact ⟨_, rfl⟩

theorem defineSegment_of_block (hkind : seg.kind ≠ .leaf) {n id : Nat} {b : Block} (hn : seg.block = some n)
    (hb : inp.module.block? n = .ok (some b)) (hid : b.id = some id) (d : Draft) :
    defineSegment inp d i seg = (do
      let t ← Timing.wrap b (← bodyTiming inp d seg)
      return ⟨define id t d.defs, ← d.refs.set i (.ofBlock id)⟩) := by
  cases hk : seg.kind with
  | leaf => exact absurd hk hkind
  | seq => simp only [defineSegment, bodyTiming, hk, hn, hb, hid, ok_bind, if_true]
  | mutex => simp only [defineSegment, bodyTiming, hk, hn, hb, hid, ok_bind, reduceCtorEq, if_false]

/-- A block with a segment adds its own definitions, from those of the segments below it. -/
theorem meets_defineSegment_block (hheeded : ∀ n, heeded n → Name.IsCondition n) {maxState n : Nat}
    {os : List Outline} {b : Block} {segs : List Segment}
    (hfits : Schedule.BlockFits inp.module inp.schedule maxState i os n b seg segs)
    (hsrc : Sourced heeded measured inp.module) {id : Nat} (hid : inp.module.idAt n = some id)
    (hlt : ∀ c ∈ segs, ∀ n' ∈ c.numbered, ∀ j, inp.module.idAt n' = some j → id < j)
    {d : Draft} (hd : d.Ordered heeded measured inp) :
    Meets measured (defineSegment inp d i seg) fun d' =>
      d'.Ordered heeded measured inp ∧ Adds inp (seg.Times inp.module) d d' := by
  have hbid : b.id = some id := (Module.idAt_of_stmt hfits.stmt).symm.trans hid
  have hrule : Expr.LeafRule measured (Admits heeded measured d.defs id) := leafRule_admits d.defs id
  have hchild : ∀ c ∈ seg.children, ∃ child ∈ segs, inp.schedule.segment c = .ok child := by
    intro c hc
    rw [hfits.children] at hc
    obtain ⟨o, ho, rfl⟩ := List.mem_map.1 hc
    exact hfits.child ho
  have hrefs : ∀ c ∈ seg.children, ∃ t, d.refs.get c = .ok t ∧ t.LeavesSatisfy (Admits heeded measured d.defs id) := by
    intro c hc
    obtain ⟨child, hmem, hsegc⟩ := hchild c hc
    obtain ⟨t, ht⟩ := hd.get hsegc
    exact ⟨t, ht, (hd.refs c child t hsegc ht).mono fun x hx => hx.admits (hlt child hmem)⟩
  have hbody : Meets measured (bodyTiming inp d seg) (Timing.LeavesSatisfy (Admits heeded measured d.defs id)) := by
    rw [bodyTiming]
    split
    · refine meets_seqTiming hrule ?_ ?_ (fun c hc => (hchild c hc).imp fun _ h => h.2) hrefs
      · exact ⟨fun _ hx => (by cases hx), fun _ => ⟨none, rfl⟩⟩
      · exact fun k => ⟨fun _ hx => (by cases hx), fun _ => measurable_literal _ k⟩
    · exact meets_mutexTiming hrule hrefs
  have hwrap : ∀ body : Timing, body.LeavesSatisfy (Admits heeded measured d.defs id) →
      Meets measured (Timing.wrap b body) (Timing.LeavesSatisfy (Admits heeded measured d.defs id)) := by
    intro body hbody
    refine Timing.meets_wrap hrule ?_ (fun q => admits_flag _ _ fun hn => Name.last_not_isCondition q (hheeded _ hn)) hbody
    intro e he x hx
    obtain ⟨hunused, hmeasured⟩ := hsrc n hfits.inside_block b hfits.stmt e he x hx
    exact ⟨fun w hw hheed => absurd hheed (hunused w hw), hmeasured⟩
  have hblock : inp.module.block? n = .ok (some b) := by
    rw [Module.block?, hfits.stmt]
    rfl
  have hmem : n ∈ seg.numbered := by simp [Segment.numbered, hfits.block]
  rw [defineSegment_of_block hfits.not_leaf hfits.block hblock hbid]
  refine hbody.bind fun body hbody => (hwrap body hbody).bind fun t ht => ?_
  have hhas : ∀ j, Has (define id t d.defs) j ↔ Has d.defs j ∨ j = id := fun j => has_define
  refine (hd.set (hd.defs.define ht) (fun j hj => (hhas j).2 (.inl hj)) hfits.segment
    (cites_ofBlock hmem hid ((hhas id).2 (.inr rfl)))).bind fun refs hrefs =>
      .ok rfl ⟨hrefs, fun j => (hhas j).trans (or_congr_right ?_)⟩
  constructor
  · rintro rfl
    exact ⟨n, .inl hfits.block, hid⟩
  · rintro ⟨n', htimes, hid'⟩
    rcases htimes with hblock' | ⟨hleaf, _⟩
    · cases hfits.block.symm.trans hblock'
      exact Option.some.inj (hid'.symm.trans hid)
    · exact absurd hleaf hfits.not_leaf

theorem meets_buildAll {os : List Outline}
    (hos : ∀ o ∈ os, ∀ d : Draft, d.Ordered heeded measured inp → Meets measured (buildAt inp d o) fun d' =>
      d'.Ordered heeded measured inp ∧ Adds inp (inp.schedule.Times inp.module o) d d')
    {d : Draft} (hd : d.Ordered heeded measured inp) :
    Meets measured (buildAll inp d os) fun d' =>
      d'.Ordered heeded measured inp ∧ Adds inp (fun n => ∃ o ∈ os, inp.schedule.Times inp.module o n) d d' := by
  induction os generalizing d with
  | nil => exact .ok rfl ⟨hd, fun j => by simp⟩
  | cons o os ih =>
    obtain ⟨ho, hos⟩ := List.forall_mem_cons.1 hos
    exact (ho d hd).bind fun d₁ h₁ => (ih hos h₁.1).mono fun d' h' => ⟨h'.1, h₁.2.trans h'.2 fun n => by simp⟩

theorem meets_buildAt (hheeded : ∀ n, heeded n → Name.IsCondition n) (hwf : inp.module.WellFormed)
    (hsrc : Sourced heeded measured inp.module) {maxState : Nat}
    {o : Outline} (hcons : Schedule.Consistent inp.module inp.schedule maxState o)
    (hinc : inp.schedule.Increasing inp.module o) {d : Draft} (hd : d.Ordered heeded measured inp) :
    Meets measured (buildAt inp d o) fun d' =>
      d'.Ordered heeded measured inp ∧ Adds inp (inp.schedule.Times inp.module o) d d' := by
  induction hcons generalizing d with
  | @leaf i seg hleaf =>
    have hnumbering : inp.schedule.numbering (.node i []) = seg.numbered := by
      rw [Schedule.numbering_node hleaf.segment, List.flatMap_nil, List.append_nil]
    rw [buildAt, hleaf.segment, ok_bind]
    refine (meets_defineSegment_leaf hheeded hleaf hwf (fun n hn => hinc.given n (hnumbering ▸ hn)) hd).mono fun d' h => ?_
    have htimes : ∀ n, inp.schedule.Times inp.module (.node i []) n ↔ seg.Times inp.module n := fun n => by
      simp [Schedule.times_node hleaf.segment]
    exact ⟨h.1, fun j => by simp only [h.2 j, htimes]⟩
  | @block i n b seg os segs hfits hos ih =>
    have hn : n ∈ seg.numbered := by simp [Segment.numbered, hfits.block]
    have hnumbering : n ∈ inp.schedule.numbering (.node i os) := by
      rw [Schedule.numbering_node hfits.segment]
      exact List.mem_append_left _ hn
    obtain ⟨id, hid⟩ := hinc.given n hnumbering ⟨_, hfits.stmt, rfl⟩
    have hlt : ∀ c ∈ segs, ∀ n' ∈ c.numbered, ∀ j, inp.module.idAt n' = some j → id < j := by
      intro c hc n' hn' j hj
      obtain ⟨⟨k, os'⟩, ho, hoc⟩ := exists_of_mem_forall₂ hfits.segments hc
      refine hinc.lt hfits.segment hn hid ho ?_ hj
      have hsegc : inp.schedule.segment k = .ok c := hoc
      rw [Schedule.numbering_node hsegc]
      exact List.mem_append_left _ hn'
    rw [buildAt, hfits.segment, ok_bind]
    refine (meets_buildAll (fun o ho d hd => ih o ho (hinc.nested hfits.segment ho) hd) hd).bind fun d₁ h₁ => ?_
    refine (meets_defineSegment_block hheeded hfits hsrc hid hlt h₁.1).mono fun d' h' => ⟨h'.1, h₁.2.trans h'.2 fun n => ?_⟩
    rw [Schedule.times_node hfits.segment, or_comm]

/-- The table comes from definitions in order, for the statements that segments take their conditions from. -/
theorem meets_build (hheeded : ∀ n, heeded n → Name.IsCondition n) {m : Module} {s : Schedule} {maxState : Nat}
    (hwf : m.WellFormed) (hsrc : Sourced heeded measured m)
    (hcons : Schedule.Consistent m s maxState (s.outline s.root)) (hinc : s.Increasing m (s.outline s.root)) {root : Segment}
    (hroot : s.segment s.root = .ok root) : Meets measured (build m s maxState) fun t => ∃ d : Defs,
      Ordered heeded measured d ∧ (∀ j, Has d j ↔ ∃ n, s.Times m (s.outline s.root) n ∧ m.idAt n = some j) ∧
        t.conds = .ofList (d.flatMap fun e => [(Name.cycleCond e.1, e.2.cycle), (Name.exitCond e.1, e.2.exit)]) ∧
          Cond.LeavesSatisfy (Cites m d root) t.reset := by
  have hstart : Draft.Ordered heeded measured ⟨m, s, ⟨maxState⟩⟩ ⟨[], ⟨Array.replicate s.segments.size .always⟩⟩ := by
    refine ⟨⟨.nil, fun _ _ h => absurd h List.not_mem_nil⟩, Array.size_replicate, ?_⟩
    intro i seg t _ ht
    rw [Arena.get_eq_ok_iff] at ht
    have ht : (Array.replicate s.segments.size Timing.always)[i]? = some t := ht
    rw [Array.getElem?_replicate] at ht
    split at ht
    · cases ht
      exact Timing.leavesSatisfy_always
    · cases ht
  refine (meets_buildAt hheeded hwf hsrc hcons hinc hstart).bind fun d hd => ?_
  obtain ⟨hordered, hadds⟩ := hd
  obtain ⟨t, ht⟩ := hordered.get hroot
  have ht : d.refs.get s.root = .ok t := ht
  rw [ht]
  refine .ok rfl ⟨d.defs, hordered.defs, fun j => ?_, rfl, (hordered.refs _ root t hroot ht).exit⟩
  rw [hadds j]
  simp [Has]

end Build


/-- The definition of the condition `a` has the condition `b` in it. -/
def Refers (t : ConditionTable) (a b : String) : Prop :=
  ∃ e, t.get? a = some (some e) ∧ b ∈ e.wireNames ∧ t.contains b = true

/-- No condition of the table depends on itself. -/
def Acyclic (t : ConditionTable) : Prop := ∀ a, ¬ Relation.TransGen t.Refers a a

/-- Of the names that are heeded, the definition of a condition of a block has only those of conditions of blocks with
larger ids in it, which are defined. -/
def Descends (t : ConditionTable) (heeded : String → Prop) : Prop :=
  ∀ a e, t.get? a = some (some e) → ∀ b ∈ e.wireNames, heeded b →
    ∃ i j, Name.OfBlock i a ∧ Name.OfBlock j b ∧ i < j ∧ t.contains b = true

/-- The table has the two conditions of each block in the list, in this order, and no others. -/
def Lists (t : ConditionTable) (ids : List Nat) : Prop :=
  t.conds.keys = ids.flatMap fun id => [Name.cycleCond id, Name.exitCond id]

theorem Lists.contains_iff {t : ConditionTable} {ids : List Nat} (h : t.Lists ids) {name : String} :
    t.contains name = true ↔ ∃ id ∈ ids, Name.OfBlock id name := by
  rw [contains, Listing.contains_iff_mem_keys, h, List.mem_flatMap]
  simp [Name.OfBlock]

theorem Descends.acyclic {t : ConditionTable} (h : t.Descends fun n => t.contains n = true) : t.Acyclic := by
  have hpath : ∀ a b, Relation.TransGen t.Refers a b → ∃ i j, Name.OfBlock i a ∧ Name.OfBlock j b ∧ i < j := by
    intro a b hab
    induction hab with
    | single hab =>
      obtain ⟨e, ha, hb, hcontains⟩ := hab
      obtain ⟨i, j, hi, hj, hij, _⟩ := h _ e ha _ hb hcontains
      exact ⟨i, j, hi, hj, hij⟩
    | tail _ hbc ih =>
      obtain ⟨i, j, hi, hj, hij⟩ := ih
      obtain ⟨e, hb, hc, hcontains⟩ := hbc
      obtain ⟨j', k, hj', hk, hjk, _⟩ := h _ e hb _ hc hcontains
      rw [← hj.inj hj'] at hjk
      exact ⟨i, k, hi, hk, by omega⟩
  intro a ha
  obtain ⟨i, j, hi, hj, hij⟩ := hpath a a ha
  rw [hi.inj hj] at hij
  exact Nat.lt_irrefl j hij

section Listed

variable {heeded : String → Prop} {measured : Prop} {t : ConditionTable} {d : Defs} (hd : Ordered heeded measured d)
  (ht : t.conds = .ofList (d.flatMap fun e => [(Name.cycleCond e.1, e.2.cycle), (Name.exitCond e.1, e.2.exit)]))

include hd ht

theorem lists_of_defs : (d.map Prod.fst).Pairwise (· < ·) ∧ t.Lists (d.map Prod.fst) := by
  refine ⟨List.pairwise_map.2 hd.sorted, ?_⟩
  have hconds : t.conds = ⟨_, nodup_names hd.sorted⟩ := ht.trans (Listing.ofList_entries ⟨_, nodup_names hd.sorted⟩)
  rw [Lists, hconds, Listing.keys, List.map_flatMap, List.flatMap_map]
  rfl

theorem descends_of_defs : t.Descends heeded := by
  have hlists := (lists_of_defs hd ht).2
  intro a e ha b hb hheed
  rw [get?, ht, Listing.get?_ofList (nodup_names hd.sorted)] at ha
  obtain ⟨⟨id, u⟩, hu, hmem⟩ := List.mem_flatMap.1 ha
  have hleaves := hd.leaves id u hu
  obtain ⟨w, hw, rfl⟩ := List.mem_map.1 hb
  rw [Expr.mem_wires_iff] at hw
  have hfound : Name.OfBlock id a ∧ ∃ j, Name.OfBlock j w.name ∧ id < j ∧ Has d j := by
    rcases List.mem_cons.1 hmem with heq | hmem
    · exact ⟨.inl (congrArg Prod.fst heq), (hleaves.cycle e (congrArg Prod.snd heq).symm _ hw).later w rfl hheed⟩
    · have heq := List.mem_singleton.1 hmem
      exact ⟨.inr (congrArg Prod.fst heq), (hleaves.exit e (congrArg Prod.snd heq).symm _ hw).later w rfl hheed⟩
  obtain ⟨hid, j, hj, hlt, v, hv⟩ := hfound
  exact ⟨id, j, hid, hj, hlt, hlists.contains_iff.2 ⟨j, List.mem_map_of_mem hv, hj⟩⟩

end Listed

end ConditionTable

/-- What holds for all operands holds for the leaves of an expression whatever its marks are. -/
theorem Expr.LeavesSatisfy.of_unmarked {P : Expr → Prop} (hP : ∀ o, P (.operand o)) {e e' : Expr}
    (h : e'.unmarked = e.unmarked) (he : e.LeavesSatisfy P) : e'.LeavesSatisfy P := by
  intro x hx
  have hmarked : ∀ y ∈ (x.mapOperands fun o => { o with time := .held }).leaves, y ∈ e.unmarked.leaves := by
    intro y hy
    rw [← h, unmarked, mapOperands, leaves_substitute]
    exact List.mem_flatMap.2 ⟨x, hx, hy⟩
  have hback : ∀ y ∈ e.unmarked.leaves, P y := by
    intro y hy
    rcases mem_leaves_substitute _ _ y e hy with ⟨_, _, hy⟩ | ⟨o, _, hy⟩ | ⟨w, hw, hy⟩
    · exact he y hy
    · exact List.mem_singleton.1 hy ▸ hP _
    · exact List.mem_singleton.1 hy ▸ he _ hw
  rcases mem_leaves_cases hx with ⟨l, rfl⟩ | ⟨o, rfl⟩ | ⟨w, rfl⟩
  · exact hback _ (hmarked _ List.mem_cons_self)
  · exact hP o
  · exact hback _ (hmarked _ List.mem_cons_self)

namespace Module

/-- A statement of the program uses the name in one of its expressions. -/
def Mentions (m : Module) (name : String) : Prop :=
  ∃ n ∈ (m.outline m.root).preorder, ∃ s, m.stmt n = .ok s ∧ ∃ e ∈ s.exprs, name ∈ e.wireNames

/-- The literals in guards and exit conditions have a width that can be read or is refused. -/
def Measured (m : Module) : Prop :=
  ∀ n ∈ (m.outline m.root).preorder, ∀ b, m.stmt n = .ok (.block b) → ∀ e ∈ (Stmt.block b).exprs,
    e.LeavesSatisfy Expr.Measurable

/-- No statement of the program uses a condition of a block. -/
def Clean (m : Module) : Prop := ∀ id name, Name.OfBlock id name → ¬ m.Mentions name

theorem sourced {m : Module} {heeded : String → Prop} (h : ∀ n, heeded n → ¬ m.Mentions n) :
    ConditionTable.Sourced heeded m.Measured m := by
  intro n hn b hb e he x hx
  refine ⟨fun w hw hheed => h w.name hheed ?_, fun hm => hm n hn b hb e he x hx⟩
  exact ⟨n, hn, _, hb, e, he, List.mem_map_of_mem ((Expr.mem_wires_iff w e).2 (hw ▸ hx))⟩

theorem Alike.sourced {m m' : Module} (h : m.Alike m') {heeded : String → Prop} {measured : Prop}
    (hm : ConditionTable.Sourced heeded measured m) : ConditionTable.Sourced heeded measured m' := by
  intro n hn b' hb' e' he'
  rw [h.root, h.outline] at hn
  obtain ⟨b, hb, hbare⟩ := h.symm.block hb'
  have hexprs : (Stmt.block b).exprs.map Expr.unmarked = (Stmt.block b').exprs.map Expr.unmarked := by
    rw [← Stmt.exprs_bare, ← Stmt.exprs_bare, hbare]
  have hmem : e'.unmarked ∈ (Stmt.block b).exprs.map Expr.unmarked := hexprs ▸ List.mem_map_of_mem he'
  obtain ⟨e, he, heq⟩ := List.mem_map.1 hmem
  refine (hm n hn b hb e he).of_unmarked (fun o => ?_) heq.symm
  exact ⟨fun _ hw => (by cases hw), fun _ => ⟨none, rfl⟩⟩

variable {m : Module} {s : Schedule} {st : Staged}

theorem stage_increasing (hm : m.WellFormed) (hs : m.schedule = .ok s) (hst : m.stage s = .ok st) :
    st.schedule.Increasing st.module (st.schedule.outline st.schedule.root) := by
  obtain ⟨_, _, hgiven, ⟨k, hids⟩, _⟩ := stage_numbering hm hs hst
  have halike := (stage_consistent hm hs hst).1
  refine ⟨fun n hn htakes => hgiven n hn (htakes.alike halike.symm), ?_⟩
  rw [hids]
  exact List.pairwise_lt_range

end Module

/-- The statement at `n` is the block of a segment, or a yield of the program. -/
def Staged.Timed (st : Staged) (n : Nat) : Prop :=
  (∃ i seg, st.schedule.segment i = .ok seg ∧ seg.block = some n) ∨
    n ∈ (st.module.outline st.module.root).preorder ∧ ∃ y, st.module.stmt n = .ok (.yield y)

theorem Staged.timed_iff {m : Module} {s : Schedule} {st : Staged} (hm : m.WellFormed) (hs : m.schedule = .ok s)
    (hst : m.stage s = .ok st) (n : Nat) :
    st.schedule.Times st.module (st.schedule.outline st.schedule.root) n ↔ st.Timed n := by
  obtain ⟨_, hblocks, _⟩ := Module.stage_numbering hm hs hst
  obtain ⟨halike, hcons, hpre, _⟩ := Module.stage_consistent hm hs hst
  constructor
  · rintro ⟨i, hi, seg, hseg, hblock | ⟨hkind, hn, y, hy⟩⟩
    · exact .inl ⟨i, seg, hseg, hblock⟩
    · obtain ⟨o, rfl, _, hpart⟩ := hcons.exists_part hi
      refine .inr ⟨?_, y, hy⟩
      cases hpart with
      | leaf hleaf =>
        cases hleaf.segment.symm.trans hseg
        exact hleaf.inside n hn
      | block hfits _ =>
        cases hfits.segment.symm.trans hseg
        exact absurd hkind hfits.not_leaf
  · rintro (⟨i, seg, hseg, hblock⟩ | ⟨hn, y, hy⟩)
    · exact ⟨i, Schedule.mem_preorder_of_segment hpre hseg, seg, hseg, .inl hblock⟩
    · have hblocking : st.module.isBlocking n = .ok true := by
        rw [Module.isBlocking, (halike.wellFormed hm).outline_eq hn hy, Module.blocking, hy]
        rfl
      rw [halike.root, halike.outline] at hn
      rw [halike.isBlocking] at hblocking
      obtain ⟨i, hi, seg, hseg, hnum⟩ := Schedule.mem_numbering.1 (hblocks n hn hblocking)
      refine ⟨i, hi, seg, hseg, ?_⟩
      rcases List.mem_append.1 hnum with hnum | hnum
      · exact .inl (Option.mem_toList.1 hnum)
      · split at hnum
        · rename_i hkind
          exact .inr ⟨hkind, hnum, y, hy⟩
        · exact absurd hnum List.not_mem_nil

/-- The table defines two conditions for each block with a segment and each yield, in the order of their ids. -/
structure ConditionTable.Fits (t : ConditionTable) (st : Staged) : Prop where
  numbered : ∀ n, st.Timed n → ∃ id, st.module.idAt n = some id
  listed : ∃ ids : List Nat, ids.Pairwise (· < ·) ∧ t.Lists ids ∧
    ∀ id, id ∈ ids ↔ ∃ n, st.Timed n ∧ st.module.idAt n = some id

/-- Building the table of a staged module succeeds if literals can be measured, and the definitions refer to blocks with
larger ids as far as names are heeded that the program does not use. -/
theorem Module.meets_table {m : Module} {s : Schedule} {st : Staged} (hm : m.WellFormed) (hs : m.schedule = .ok s)
    (hst : m.stage s = .ok st) {heeded : String → Prop} (hheeded : ∀ n, heeded n → Name.IsCondition n)
    (hunused : ∀ n, heeded n → ¬ m.Mentions n) :
    Meets m.Measured (ConditionTable.build st.module st.schedule st.maxState) fun t =>
      t.Fits st ∧ t.Descends heeded ∧ ∀ e ∈ t.reset, ∀ n ∈ e.wireNames, ∃ j, Name.OfBlock j n := by
  obtain ⟨halike, hcons, _, root, hroot⟩ := stage_consistent hm hs hst
  have hinc := stage_increasing hm hs hst
  refine (ConditionTable.meets_build hheeded (halike.wellFormed hm) (halike.sourced (sourced hunused)) hcons hinc
    hroot.segment).mono ?_
  rintro t ⟨defs, hordered, hhas, hconds, hreset⟩
  obtain ⟨hsorted, hlists⟩ := ConditionTable.lists_of_defs hordered hconds
  refine ⟨⟨?_, defs.map Prod.fst, hsorted, hlists, ?_⟩, ConditionTable.descends_of_defs hordered hconds, ?_⟩
  · intro n hn
    obtain ⟨hmem, htakes⟩ := hcons.takesId ((Staged.timed_iff hm hs hst n).2 hn)
    exact hinc.given n hmem htakes
  · intro id
    have hkeys : id ∈ defs.map Prod.fst ↔ ConditionTable.Has defs id := by simp [ConditionTable.Has]
    rw [hkeys, hhas id]
    simp only [Staged.timed_iff hm hs hst]
  · intro e he n hn
    obtain ⟨w, hw, rfl⟩ := List.mem_map.1 hn
    rcases hreset e he _ ((Expr.mem_wires_iff w e).1 hw) with ⟨b, hb⟩ | ⟨_, _, j, name, _, _, hname, hflag⟩
    · cases hb
    · cases hflag
      exact ⟨j, hname⟩

/-- A module that is scheduled can be numbered, and then the ids in use are consecutive and follow the program. Its table
is built unless the width of a literal in a guard or exit condition cannot be counted. The table defines two conditions
for each block with a segment and each yield. If the program uses no condition then definitions refer to conditions of
larger ids only. -/
theorem Module.table_follows_ids {d : Draft} {top : List Nat} {m : Module} (hm : d.finish top = .ok m)
    (hnew : m.Unnumbered) {s : Schedule} (hs : m.schedule = .ok s) :
    ∃ st, m.stage s = .ok st ∧ (∃ k, st.module.NumberedTo k) ∧
      (m.Measured → ∃ t, ConditionTable.build st.module st.schedule st.maxState = .ok t) ∧
      ∀ t, ConditionTable.build st.module st.schedule st.maxState = .ok t → t.Fits st ∧
        (m.Clean → t.Descends (fun n => ∃ id, Name.OfBlock id n) ∧ t.Acyclic) := by
  have hwf := wellFormed_of_finish hm
  obtain ⟨st, hst⟩ := stage_succeeds hwf hs
  have hnone := meets_table hwf hs hst (fun _ h => absurd h not_false) (fun _ h => absurd h not_false)
  refine ⟨st, hst, stage_numberedTo hwf hs hst hnew, hnone.succeeds, fun t ht => ⟨(hnone.result t ht).1, fun hclean => ?_⟩⟩
  have hunused : ∀ n, (∃ id, Name.OfBlock id n) → ¬ m.Mentions n := fun n ⟨id, hn⟩ => hclean id n hn
  obtain ⟨hfits, hdescends, _⟩ := (meets_table hwf hs hst (fun _ hn => .inl hn) hunused).result t ht
  obtain ⟨ids, _, hlists, _⟩ := hfits.listed
  refine ⟨hdescends, ConditionTable.Descends.acyclic fun a e ha b hb hcontains => hdescends a e ha b hb ?_⟩
  obtain ⟨id, _, hid⟩ := hlists.contains_iff.1 hcontains
  exact ⟨id, hid⟩

theorem Module.Mentions.exists_stmt {m : Module} {name : String} (h : m.Mentions name) :
    ∃ s ∈ m.stmts.toList, ∃ e ∈ s.exprs, name ∈ e.wireNames := by
  obtain ⟨n, _, s, hs, e, he, hmem⟩ := h
  exact ⟨s, Arena.mem_toList_of_get hs, e, he, hmem⟩

/-- Names that do not end in a digit are no conditions of blocks. -/
theorem Module.clean_of_endings {m : Module} (h : ∀ s ∈ m.stmts.toList, ∀ e ∈ s.exprs, ∀ name ∈ e.wireNames,
    (Name.ending name).any Char.isDigit = false) : m.Clean := by
  intro id name hname hmentions
  obtain ⟨s, hs, e, he, hmem⟩ := hmentions.exists_stmt
  have hnone := h s hs e he name hmem
  obtain ⟨c, hc, hdigit⟩ := hname.ending
  rw [hc, Option.any_some, hdigit] at hnone
  cases hnone

theorem Module.measured_of_leaves {m : Module} (h : ∀ s ∈ m.stmts.toList, ∀ e ∈ s.exprs, ∀ x ∈ e.leaves,
    x.asBool.toOption.isSome = true) : m.Measured := by
  intro n _ b hb e he x hx
  exact Checked.exists_ok (h _ (Arena.mem_toList_of_get hb) e he x hx)

/-- A free branch, yields, an interface and a loop that may be skipped. -/
def relay : Draft where
  name := "relay"
  registers := .ofList [("r", ⟨.bool, 0⟩)]
  vars := .empty
  inputs := [⟨"din", .bool⟩]
  outputs := [⟨"dout", .bool⟩]
  stmts := .ofList [.update "r" (.bool true), Draft.conditional (.flag "a") [0], Draft.emit [some (.flag "b")],
    Draft.emit [none], Draft.interface "din" [3], Draft.emit [some (.bool false)], Draft.loop (.flag "c") [5],
    Draft.conditional (.flag "f") [6]]

theorem relay_table : ∃ m s st t, relay.finish [1, 2, 4, 7] = .ok m ∧ m.Unnumbered ∧ m.Measured ∧ m.Clean ∧
    m.schedule = .ok s ∧ m.stage s = .ok st ∧ ConditionTable.build st.module st.schedule st.maxState = .ok t ∧
    (∃ k, st.module.NumberedTo k) ∧ t.Fits st ∧ t.Descends (fun n => ∃ id, Name.OfBlock id n) ∧ t.Acyclic := by
  have hm : relay.finish [1, 2, 4, 7] = .ok (relay.enclose [1, 2, 4, 7]) := rfl
  have hnew : (relay.enclose [1, 2, 4, 7]).Unnumbered := by decide +kernel
  have hmeasured := Module.measured_of_leaves (m := relay.enclose [1, 2, 4, 7]) (by decide +kernel)
  have hclean := Module.clean_of_endings (m := relay.enclose [1, 2, 4, 7]) (by decide +kernel)
  obtain ⟨s, hs⟩ := Checked.exists_ok (x := (relay.enclose [1, 2, 4, 7]).schedule) (by decide +kernel)
  obtain ⟨st, hst, hnumbered, hbuild, hfits⟩ := Module.table_follows_ids hm hnew hs
  obtain ⟨t, ht⟩ := hbuild hmeasured
  obtain ⟨hfit, hdescends, hacyclic⟩ := (hfits t ht).imp_right fun h => h hclean
  exact ⟨_, s, st, t, hm, hnew, hmeasured, hclean, hs, hst, ht, hnumbered, hfit, hdescends, hacyclic⟩

/-- A branch under a constant of a type that is wider than can be counted. -/
def wide : Draft where
  name := "wide"
  registers := .empty
  vars := .empty
  inputs := []
  outputs := [⟨"dout", .uint 8⟩]
  stmts := .ofList [Draft.emit [some (.literal 1 (.uint 8))],
    Draft.conditional (.literal 1 ⟨.tuple, [(DataType.uint 9223372036854775808).toArg,
      (DataType.uint 9223372036854775808).toArg]⟩) [0]]

/-- The table of the module is not built, though the module is scheduled and uses no condition. -/
theorem wide_aborts : ∃ m s st, wide.finish [1] = .ok m ∧ m.Unnumbered ∧ m.Clean ∧ m.schedule = .ok s ∧
    m.stage s = .ok st ∧ ConditionTable.build st.module st.schedule st.maxState = .abort .addOverflow := by
  have hm : wide.finish [1] = .ok (wide.enclose [1]) := rfl
  have hclean := Module.clean_of_endings (m := wide.enclose [1]) (by decide +kernel)
  have habort : ((wide.enclose [1]).schedule.toOption.any fun s => ((wide.enclose [1]).stage s).toOption.any fun st =>
      ConditionTable.build st.module st.schedule st.maxState == .abort .addOverflow) = true := by
    decide +kernel
  obtain ⟨s, hs, hstage⟩ := Checked.exists_of_any habort
  obtain ⟨st, hst, hbuild⟩ := Checked.exists_of_any hstage
  exact ⟨_, s, st, hm, by decide +kernel, hclean, hs, hst, eq_of_beq hbuild⟩

end Sequencer
