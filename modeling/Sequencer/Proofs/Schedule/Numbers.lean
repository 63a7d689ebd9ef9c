import Sequencer.Proofs.Schedule.Faithful
import Sequencer.Proofs.Schedule.Ids
import Sequencer.Proofs.Schedule.Progress

set_option autoImplicit false

/-!
# Order of ids

Ids follow the program: read in program order, those given out are `0, 1, …`, each once. Every blocking statement gets
one.
-/

namespace Sequencer

open Control

/-- Blocks and yields have ids. -/
def Control.Stmt.takesId : Stmt → Bool
  | block _ | yield _ => true
  | update _ _ | assign _ _ => false

theorem Control.Stmt.takesId_bare (s : Stmt) : s.bare.takesId = s.takesId := by
  cases s <;> rfl

namespace Module

/-- The id of the statement at `i`, if it has one. -/
def idAt (m : Module) (i : Nat) : Option Nat := (m.stmt i).toOption.bind Stmt.id?

theorem idAt_of_stmt {m : Module} {i : Nat} {s : Stmt} (h : m.stmt i = .ok s) : m.idAt i = s.id? := by
  rw [idAt, h]
  rfl

theorem idAt_eq_some {m : Module} {i id : Nat} : m.idAt i = some id ↔ ∃ s, m.stmt i = .ok s ∧ s.id? = some id := by
  rw [idAt]
  cases m.stmt i with
  | ok s => simp [Except.toOption]
  | error e => simp [Except.toOption]

/-- No statement has an id. -/
def Unnumbered (m : Module) : Prop := ∀ s ∈ m.stmts.toList, s.id? = none

instance (m : Module) : Decidable m.Unnumbered := inferInstanceAs (Decidable (∀ s ∈ m.stmts.toList, s.id? = none))

theorem Unnumbered.idAt {m : Module} (h : m.Unnumbered) (i : Nat) : m.idAt i = none := by
  cases hid : m.idAt i with
  | none => rfl
  | some id =>
    obtain ⟨s, hs, hid⟩ := idAt_eq_some.1 hid
    rw [h s (Arena.mem_toList_of_get hs)] at hid
    cases hid

/-- The statement at `i` is one that has an id, once it is numbered. -/
def TakesId (m : Module) (i : Nat) : Prop := ∃ s, m.stmt i = .ok s ∧ s.takesId = true

theorem TakesId.alike {m m' : Module} (h : m.Alike m') {i : Nat} (hi : m.TakesId i) : m'.TakesId i := by
  obtain ⟨s, hs, htakes⟩ := hi
  obtain ⟨s', hs', hbare⟩ := h.stmt hs
  refine ⟨s', hs', ?_⟩
  rw [← s'.takesId_bare, hbare, s.takesId_bare, htakes]

theorem takesId_of_blocking {m : Module} {i : Nat} (h : m.isBlocking i = .ok true) : m.TakesId i := by
  obtain ⟨s, hs, hcases⟩ := blocking_stmt h
  rw [outline, Arena.outline, Arena.index_outlineTo] at hs
  refine ⟨s, hs, ?_⟩
  rcases hcases with ⟨b, rfl⟩ | ⟨y, rfl⟩
  · rfl
  · rfl

theorem blocking_of_anyBlocking {m : Module} : (os : List Outline) → m.anyBlocking os = .ok false →
    ∀ o ∈ os, m.blocking o = .ok false
  | [], _, _, ho => absurd ho List.not_mem_nil
  | o :: os, h, o', ho' => by
    rw [anyBlocking, Checked.bind_eq_ok] at h
    obtain ⟨b, hb, h⟩ := h
    cases b with
    | true => cases h
    | false =>
      rcases List.mem_cons.1 ho' with rfl | ho'
      · exact hb
      · exact blocking_of_anyBlocking os h o' ho'

theorem free_of_mem_preorder {m : Module} (o : Outline) (hclosed : m.Closed o) (h : m.blocking o = .ok false) :
    ∀ j ∈ o.preorder, m.Free j := by
  induction o using Outline.ind with
  | node i os ih =>
    intro j hj
    rw [Outline.preorder_eq] at hj
    rcases List.mem_cons.1 hj with rfl | hj
    · exact free_of_blocking hclosed h
    · obtain ⟨o, ho, hj⟩ := List.mem_flatMap.1 hj
      refine ih o ho (hclosed.nested ho) ?_ j hj
      rw [blocking, Checked.bind_eq_ok] at h
      obtain ⟨s, hs, h⟩ := h
      have hlinks := hclosed.links hs
      cases s with
      | block b =>
        dsimp only at h
        split at h
        · cases h
        · exact blocking_of_anyBlocking os h o ho
      | yield y => cases h
      | update r v => simp_all [Stmt.nested]
      | assign x v => simp_all [Stmt.nested]

/-- What is nested in a statement that does not block does not block. -/
theorem Free.nested {m : Module} (hm : m.WellFormed) {i j : Nat} (hi : i ∈ (m.outline m.root).preorder) (h : m.Free i)
    (hj : j ∈ (m.outline i).preorder) : m.Free j := by
  obtain ⟨o, hpart, rfl⟩ := Outline.exists_part_of_mem hi
  have hclosed : m.Closed o := fun o' ho' => hm.closed o' (ho'.trans hpart)
  rw [hclosed o (.refl o)] at hj
  rw [Free, isBlocking, hclosed o (.refl o)] at h
  exact free_of_mem_preorder o hclosed h j hj

theorem free_of_mem_flatMap {m : Module} (hm : m.WellFormed) (ks : List Nat)
    (hks : ∀ k ∈ ks, m.Free k ∧ k ∈ (m.outline m.root).preorder) :
    ∀ j ∈ ks.flatMap fun k => (m.outline k).preorder, m.Free j := by
  intro j hj
  obtain ⟨k, hk, hj⟩ := List.mem_flatMap.1 hj
  exact (hks k hk).1.nested hm (hks k hk).2 hj

end Module

namespace Schedule

/-- The statements that the segments at and below an outline number, in the order in which they do so. -/
def numbering (s : Schedule) (o : Outline) : List Nat :=
  o.preorder.flatMap fun i => (s.segment i).toOption.elim [] Segment.numbered

theorem numbering_node {s : Schedule} {i : Nat} {os : List Outline} {seg : Segment} (hseg : s.segment i = .ok seg) :
    s.numbering (.node i os) = seg.numbered ++ os.flatMap s.numbering := by
  rw [numbering, Outline.preorder_eq, List.flatMap_cons, hseg, List.flatMap_assoc]
  rfl

theorem mem_numbering {s : Schedule} {o : Outline} {j : Nat} : j ∈ s.numbering o ↔ s.Numbers o j := by
  rw [numbering, List.mem_flatMap]
  refine exists_congr fun i => and_congr_right fun _ => ?_
  cases s.segment i with
  | ok seg => simp [Except.toOption]
  | error e => simp [Except.toOption]

theorem Alike.numbering {s s' : Schedule} (h : s.Alike s') (o : Outline) : s'.numbering o = s.numbering o := by
  refine List.flatMap_congr fun i _ => ?_
  cases hseg : s.segment i with
  | ok seg =>
    obtain ⟨states, hseg'⟩ := h.segment hseg
    rw [hseg']
    rfl
  | error e =>
    cases hseg' : s'.segment i with
    | ok seg' =>
      obtain ⟨states, hseg''⟩ := h.symm.segment hseg'
      rw [hseg] at hseg''
      cases hseg''
    | error e' => rfl

variable {m : Module} {s : Schedule}

/-- The segments at and below an outline number statements that the top one reaches, in program order, and among them
all that block. -/
theorem Laid.numbering_spec (hm : m.WellFormed) {parent : Option Nat} {o : Outline} (h : Laid m s parent o)
    {top : Segment} (htop : s.segment o.index = .ok top) (hin : ∀ j ∈ top.spelled, j ∈ (m.outline m.root).preorder) :
    (s.numbering o).Sublist (reach m top) ∧ ∀ j ∈ reach m top, ¬ m.Free j → j ∈ s.numbering o := by
  induction h generalizing top with
  | @leaf parent i seg hseg _ hkind hblock _ hprolog hepilog hstmts =>
    cases hseg.symm.trans htop
    have hspelled : seg.spelled = seg.stmts := by simp [Segment.spelled, hkind, hprolog, hepilog]
    have hnumbered : s.numbering (.node i []) = seg.stmts := by
      simp [numbering_node hseg, Segment.numbered, hblock, hkind]
    rw [hnumbered, reach, hspelled]
    constructor
    · have hsub := Outline.map_index_sublist (seg.stmts.map m.outline)
      rwa [m.map_index_outline, List.flatMap_map] at hsub
    · intro j hj hblocks
      obtain ⟨x, hx, hj⟩ := List.mem_flatMap.1 hj
      have hxin := hin x (hspelled ▸ hx)
      rcases hstmts.free_or_yield hx with hfree | ⟨y, hy⟩
      · exact absurd (hfree.nested hm hxin hj) hblocks
      · rw [hm.preorder_eq hxin hy] at hj
        exact List.mem_singleton.1 hj ▸ hx
  | @block parent i n b seg os segs hseg _ hblock hstmt _ hstmts hprolog hepilog hsegs hkind hspelled hos ih =>
    cases hseg.symm.trans htop
    have hown : seg.spelled = seg.prolog ++ [n] ++ seg.epilog := Segment.spelled_of_block (ne_leaf hkind) hblock
    have hn : n ∈ (m.outline m.root).preorder := hin n (by simp [hown])
    have hnumbered : s.numbering (.node i os) = n :: os.flatMap s.numbering := by
      simp [numbering_node hseg, Segment.numbered, hblock, ne_leaf hkind]
    have hpre : (m.outline n).preorder = n :: segs.flatMap (reach m) := by
      rw [hm.preorder_eq hn hstmt]
      show n :: b.stmts.flatMap _ = _
      rw [← hspelled, List.flatMap_assoc]
      rfl
    have hchild : ∀ o ∈ os, ∀ c, s.segment o.index = .ok c → ∀ j ∈ c.spelled, j ∈ (m.outline m.root).preorder := by
      intro o ho c hc j hj
      obtain ⟨c', hc', hoc⟩ := exists_of_mem_forall₂ hsegs.flip ho
      cases hc.symm.trans hoc
      have hmem : j ∈ b.stmts := hspelled ▸ List.mem_flatMap.2 ⟨c, hc', hj⟩
      exact (hm.nested hn hstmt hmem).1
    rw [hnumbered, reach, hown, List.flatMap_append, List.flatMap_append, List.flatMap_singleton, hpre]
    constructor
    · have hnested := flatMap_sublist_of_forall₂ hsegs fun o ho c hoc => (ih o ho hoc (hchild o ho c hoc)).1
      exact ((hnested.cons_cons n).trans (List.sublist_append_right _ _)).trans (List.sublist_append_left _ _)
    · -- What stands around the block is free, so a statement that blocks is the block or is nested in it.
      have hbefore := Module.free_of_mem_flatMap hm seg.prolog fun k hk => ⟨hprolog k hk, hin k (by simp [hown, hk])⟩
      have hafter := Module.free_of_mem_flatMap hm seg.epilog fun k hk => ⟨hepilog k hk, hin k (by simp [hown, hk])⟩
      intro j hj hblocks
      rcases List.mem_append.1 hj with hj | hj
      · rcases List.mem_append.1 hj with hj | hj
        · exact absurd (hbefore j hj) hblocks
        · rcases List.mem_cons.1 hj with rfl | hj
          · exact List.mem_cons_self
          · obtain ⟨c, hc, hj⟩ := List.mem_flatMap.1 hj
            obtain ⟨o, ho, hoc⟩ := exists_of_mem_forall₂ hsegs hc
            exact List.mem_cons_of_mem _ (List.mem_flatMap.2 ⟨o, ho, (ih o ho hoc (hchild o ho c hoc)).2 j hj hblocks⟩)
      · exact absurd (hafter j hj) hblocks

end Schedule

namespace Numbering

open Checked

/-- The statements `js` that take an id have been given the next ones, in this order. -/
structure Assigns (js : List Nat) (n n' : Numbering) : Prop where
  module : n.module.Alike n'.module
  schedule : n.schedule.Alike n'.schedule
  le : n.nextId ≤ n'.nextId
  ids : js.filterMap n'.module.idAt = List.range' n.nextId (n'.nextId - n.nextId)
  given : ∀ j ∈ js, n.module.TakesId j → ∃ id, n'.module.idAt j = some id
  other : ∀ j, j ∉ js → n'.module.idAt j = n.module.idAt j

variable {n n' n'' : Numbering} {js ks : List Nat}

theorem Assigns.refl (n : Numbering) : Assigns [] n n :=
  ⟨.refl _, .refl _, le_rfl, by simp, fun _ hj => absurd hj List.not_mem_nil, fun _ _ => rfl⟩

theorem Assigns.trans (h : Assigns js n n') (h' : Assigns ks n' n'') (hdisj : ∀ j ∈ js, j ∉ ks) :
    Assigns (js ++ ks) n n'' where
  module := h.module.trans h'.module
  schedule := h.schedule.trans h'.schedule
  le := h.le.trans h'.le
  ids := by
    have hkeep : js.filterMap n''.module.idAt = js.filterMap n'.module.idAt :=
      List.filterMap_congr fun j hj => h'.other j (hdisj j hj)
    have hle := h.le
    have hle' := h'.le
    have hlen : n''.nextId - n.nextId = (n'.nextId - n.nextId) + (n''.nextId - n'.nextId) := by omega
    have hstart : n.nextId + 1 * (n'.nextId - n.nextId) = n'.nextId := by omega
    rw [List.filterMap_append, hkeep, h.ids, h'.ids, hlen, ← List.range'_append, hstart]
  given j hj htakes := by
    by_cases hks : j ∈ ks
    · exact h'.given j hks (htakes.alike h.module)
    · obtain ⟨id, hid⟩ := h.given j ((List.mem_append.1 hj).resolve_right hks) htakes
      exact ⟨id, (h'.other j hks).trans hid⟩
  other j hj := by
    rw [List.mem_append, not_or] at hj
    rw [h'.other j hj.2, h.other j hj.1]

theorem assigns_set {i : Nat} {s : Stmt} (hs : n.module.stmt i = .ok s)
    (hid : (s.setId n.nextId).id? = some n.nextId) {stmts : Arena Stmt}
    (hset : n.module.stmts.set i (s.setId n.nextId) = .ok stmts) :
    Assigns [i] n { n with module := { n.module with stmts := stmts }, nextId := n.nextId + 1 } := by
  obtain ⟨hsize, hget⟩ := Arena.set_eq_ok hset
  have hstmt : Module.stmt { n.module with stmts := stmts } i = .ok (s.setId n.nextId) := by
    rw [Module.stmt, Arena.get_eq_ok_iff, hget i, if_pos rfl]
  have hnew := (Module.idAt_of_stmt hstmt).trans hid
  refine ⟨.set hs (s.bare_setId _) hset, .refl _, Nat.le_succ _, ?_, ?_, ?_⟩
  · rw [List.filterMap_cons_some hnew, List.filterMap_nil]
    simp
  · intro j hj _
    exact ⟨n.nextId, List.mem_singleton.1 hj ▸ hnew⟩
  · intro j hj
    have hji : j ≠ i := by simpa using hj
    have hstmt : Module.stmt { n.module with stmts := stmts } j = n.module.stmt j :=
      Arena.get_congr hsize (by rw [hget j, if_neg hji])
    rw [Module.idAt, hstmt, Module.idAt]

theorem assigns_of_id_none {i : Nat} {s : Stmt} (hs : n.module.stmt i = .ok s) (hid : s.id? = none)
    (htakes : s.takesId = false) : Assigns [i] n n := by
  refine ⟨.refl _, .refl _, le_rfl, ?_, ?_, fun _ _ => rfl⟩
  · rw [List.filterMap_cons_none ((Module.idAt_of_stmt hs).trans hid)]
    simp
  · rintro j hj ⟨s', hs', htakes'⟩
    rw [List.mem_singleton.1 hj, hs] at hs'
    cases hs'
    rw [htakes] at htakes'
    cases htakes'

theorem assigns_number {i : Nat} (h : number i n = .ok ((), n')) : Assigns [i] n n' := by
  rw [number, bind_eq_ok] at h
  obtain ⟨s, hs, h⟩ := h
  cases s with
  | block b =>
    obtain ⟨stmts, hstmts, h⟩ := bind_eq_ok.1 h
    cases h
    exact assigns_set hs rfl hstmts
  | yield y =>
    obtain ⟨stmts, hstmts, h⟩ := bind_eq_ok.1 h
    cases h
    exact assigns_set hs rfl hstmts
  | update r v =>
    cases h
    exact assigns_of_id_none hs rfl rfl
  | assign x v =>
    cases h
    exact assigns_of_id_none hs rfl rfl

theorem assigns_numberAll (hjs : js.Nodup) (h : numberAll js n = .ok ((), n')) : Assigns js n n' := by
  induction js generalizing n with
  | nil =>
    cases h
    exact .refl _
  | cons j js ih =>
    obtain ⟨⟨⟩, n₁, hj, hrest⟩ := stateT_bind_eq_ok.1 h
    obtain ⟨hnot, hjs⟩ := List.nodup_cons.1 hjs
    exact (assigns_number hj).trans (ih hjs hrest) fun x hx => List.mem_singleton.1 hx ▸ hnot

theorem assigns_setStates {i : Nat} {states : List Nat} (h : setStates i states n = .ok ((), n')) :
    Assigns [] n n' := by
  obtain ⟨s, hs, h⟩ := bind_eq_ok.1 h
  cases h
  exact ⟨.refl _, Schedule.alike_setStates hs, le_rfl, by simp, fun _ hj => absurd hj List.not_mem_nil, fun _ _ => rfl⟩

theorem assigns_mergeStates {i child : Nat} (h : mergeStates i child n = .ok ((), n')) : Assigns [] n n' := by
  obtain ⟨c, n₁, hc, h₁⟩ := stateT_bind_eq_ok.1 h
  obtain ⟨_, rfl⟩ := segment_eq_ok hc
  obtain ⟨seg, n₂, hseg, h₂⟩ := stateT_bind_eq_ok.1 h₁
  obtain ⟨_, rfl⟩ := segment_eq_ok hseg
  exact assigns_setStates h₂

mutual
theorem assigns_visit {m : Module} {s₀ : Schedule} : (o : Outline) → ∀ {parent : Option Nat},
    Schedule.Laid m s₀ parent o → (s₀.numbering o).Nodup → ∀ {entry : Nat} {n n' : Numbering},
      s₀.Alike n.schedule → visit entry o n = .ok ((), n') → Assigns (s₀.numbering o) n n'
  | .node i os, parent, hlaid, hnodup, entry, n, n', halike, h => by
    obtain ⟨⟨⟩, n₁, h₁, hrest₁⟩ := stateT_bind_eq_ok.1 h
    have hstates := assigns_setStates h₁
    obtain ⟨seg, n₂, h₂, hrest₂⟩ := stateT_bind_eq_ok.1 hrest₁
    obtain ⟨hseg, rfl⟩ := segment_eq_ok h₂
    obtain ⟨⟨⟩, n₃, h₃, hrest₃⟩ := stateT_bind_eq_ok.1 hrest₂
    obtain ⟨states, hseg₀⟩ := (halike.trans hstates.schedule).symm.segment hseg
    rw [Schedule.numbering_node hseg₀] at hnodup ⊢
    have hnumbered : Segment.numbered { seg with states := states } =
      seg.block.toList ++ if seg.kind = .leaf then seg.stmts else [] := rfl
    rw [hnumbered] at hnodup ⊢
    obtain ⟨hown, hnested, hdisj⟩ := List.nodup_append.1 hnodup
    have hblock := hstates.trans (assigns_numberAll (List.nodup_append.1 hown).1 h₃) (by simp)
    have hchildren : seg.kind ≠ .leaf → visitChildren i seg.kind entry os n₃ = .ok ((), n') →
        Assigns ((seg.block.toList ++ if seg.kind = .leaf then seg.stmts else []) ++ os.flatMap s₀.numbering) n n' := by
      intro hkind h₄
      rw [if_neg hkind, List.append_nil] at hdisj ⊢
      exact hblock.trans (assigns_visitChildren os hlaid.nested hnested (halike.trans hblock.schedule) h₄)
        fun j hj hj' => hdisj j hj j hj' rfl
    cases hkind : seg.kind with
    | leaf =>
      rw [hkind] at hrest₃
      rw [if_pos hkind] at hown
      have hos : os = [] := hlaid.eq_nil_of_leaf hseg₀ hkind
      obtain ⟨_, hstmts, hapart⟩ := List.nodup_append.1 hown
      rw [hos, List.flatMap_nil, List.append_nil, if_pos rfl]
      exact hblock.trans (assigns_numberAll hstmts hrest₃) fun j hj hj' => hapart j hj j hj' rfl
    | seq =>
      rw [hkind] at hrest₃ hchildren
      exact hchildren (by simp) hrest₃
    | mutex =>
      rw [hkind] at hrest₃ hchildren
      exact hchildren (by simp) hrest₃
theorem assigns_visitChildren {m : Module} {s₀ : Schedule} : (os : List Outline) → ∀ {p : Nat},
    (∀ o ∈ os, Schedule.Laid m s₀ (some p) o) → (os.flatMap s₀.numbering).Nodup → ∀ {i : Nat} {kind : SegmentKind}
      {entry : Nat} {n n' : Numbering}, s₀.Alike n.schedule → visitChildren i kind entry os n = .ok ((), n') →
        Assigns (os.flatMap s₀.numbering) n n'
  | [], _, _, _, i, kind, entry, n, n', _, h => by
    cases h
    exact .refl n
  | o :: os, _, hlaid, hnodup, i, kind, entry, n, n', halike, h => by
    obtain ⟨ho, hos⟩ := List.forall_mem_cons.1 hlaid
    rw [List.flatMap_cons] at hnodup ⊢
    obtain ⟨hfirst, hrest, hdisj⟩ := List.nodup_append.1 hnodup
    obtain ⟨⟨⟩, n₁, h₁, hrest₁⟩ := stateT_bind_eq_ok.1 h
    obtain ⟨⟨⟩, n₂, h₂, hrest₂⟩ := stateT_bind_eq_ok.1 hrest₁
    have hvisit := (assigns_visit o ho hfirst halike h₁).trans (assigns_mergeStates h₂) (by simp)
    rw [List.append_nil] at hvisit
    -- A new state changes neither the ids nor the next one.
    have hnext : ∃ entry' n₃, Assigns [] n₂ n₃ ∧ visitChildren i kind entry' os n₃ = .ok ((), n') := by
      split at hrest₂
      · obtain ⟨entry', n₃, h₃, hrest₃⟩ := stateT_bind_eq_ok.1 hrest₂
        cases h₃
        refine ⟨_, { n₂ with maxState := n₂.maxState + 1 }, ?_, hrest₃⟩
        exact ⟨.refl _, .refl _, le_rfl, by simp, fun _ hj => absurd hj List.not_mem_nil, fun _ _ => rfl⟩
      · obtain ⟨entry', n₃, h₃, hrest₃⟩ := stateT_bind_eq_ok.1 hrest₂
        cases h₃
        exact ⟨_, _, .refl _, hrest₃⟩
    obtain ⟨entry', n₃, hstate, hrest₃⟩ := hnext
    have hstart := hvisit.trans hstate (by simp)
    rw [List.append_nil] at hstart
    exact hstart.trans (assigns_visitChildren os hos hrest (halike.trans hstart.schedule) hrest₃)
      fun j hj hj' => hdisj j hj j hj' rfl
end

end Numbering

namespace Module

/-- Read in program order, the ids in use are `0, …, k - 1`, and every blocking statement has one. -/
structure NumberedTo (m : Module) (k : Nat) : Prop where
  ids : (m.outline m.root).preorder.filterMap m.idAt = List.range k
  inside : ∀ i id, m.idAt i = some id → i ∈ (m.outline m.root).preorder
  blocking : ∀ i ∈ (m.outline m.root).preorder, m.isBlocking i = .ok true → ∃ id, m.idAt i = some id

theorem SameIds.idAt {m m' : Module} (h : m.SameIds m') (halike : m.Alike m') (i : Nat) : m'.idAt i = m.idAt i := by
  cases hs : m'.stmt i with
  | ok s' =>
    obtain ⟨s, hs', hid⟩ := h i s' hs
    rw [idAt_of_stmt hs, idAt_of_stmt hs', hid]
  | error e =>
    cases hs' : m.stmt i with
    | ok s =>
      obtain ⟨s', hs'', _⟩ := halike.stmt hs'
      rw [hs] at hs''
      cases hs''
    | error e' =>
      rw [Module.idAt, Module.idAt, hs, hs']
      rfl

theorem filterMap_of_sublist {α β : Type} {f : α → Option β} {l l' : List α} (h : l.Sublist l') (hnodup : l'.Nodup)
    (hf : ∀ a ∈ l', a ∉ l → f a = none) : l'.filterMap f = l.filterMap f := by
  induction h with
  | slnil => rfl
  | @cons l l' a h ih =>
    obtain ⟨hnot, hnodup⟩ := List.nodup_cons.1 hnodup
    rw [List.filterMap_cons_none (hf a List.mem_cons_self fun ha => hnot (h.subset ha))]
    exact ih hnodup fun b hb => hf b (List.mem_cons_of_mem _ hb)
  | @cons_cons l l' a h ih =>
    obtain ⟨hnot, hnodup⟩ := List.nodup_cons.1 hnodup
    have hrest := ih hnodup fun b hb hbl =>
      hf b (List.mem_cons_of_mem _ hb) fun hmem => hbl ((List.mem_cons.1 hmem).resolve_left fun hba => hnot (hba ▸ hb))
    rw [List.filterMap_cons, List.filterMap_cons, hrest]

variable {m : Module} {s : Schedule} {st : Staged}

/-- The statements that are numbered follow each other as in the program, blocking ones are among them, and their ids
are consecutive. All other statements keep the id that they have. -/
theorem stage_numbering (hm : m.WellFormed) (hs : m.schedule = .ok s) (hst : m.stage s = .ok st) :
    (st.schedule.numbering (st.schedule.outline st.schedule.root)).Sublist (m.outline m.root).preorder ∧
      (∀ i ∈ (m.outline m.root).preorder, m.isBlocking i = .ok true →
        i ∈ st.schedule.numbering (st.schedule.outline st.schedule.root)) ∧
      (∀ i ∈ st.schedule.numbering (st.schedule.outline st.schedule.root), m.TakesId i →
        ∃ id, st.module.idAt i = some id) ∧
      (∃ k, (st.schedule.numbering (st.schedule.outline st.schedule.root)).filterMap st.module.idAt = List.range k) ∧
      ∀ i, i ∉ st.schedule.numbering (st.schedule.outline st.schedule.root) → st.module.idAt i = m.idAt i := by
  obtain ⟨hlaid, _, root, hroot, hspelled, _⟩ := schedule_laid hm hs
  obtain ⟨n, hn, hst⟩ := Checked.bind_eq_ok.1 hst
  obtain ⟨m', hm', hst⟩ := Checked.bind_eq_ok.1 hst
  cases hst
  obtain ⟨⟨⟨⟩, n'⟩, hvisit, hn⟩ := Checked.bind_eq_ok.1 hn
  obtain rfl : n' = n := Except.ok.inj hn
  have hindex := s.index_outline s.root
  have hreach : Schedule.reach m root = (m.outline m.root).preorder := by
    rw [Schedule.reach, hspelled, List.flatMap_singleton]
  have hspec := hlaid.numbering_spec hm (hindex.symm ▸ hroot) fun j hj => by
    rw [hspelled, List.mem_singleton] at hj
    exact hj ▸ m.mem_outline m.root
  rw [hreach] at hspec
  have hassigns := Numbering.assigns_visit _ hlaid (hm.nodup.sublist hspec.1) (.refl s) hvisit
  have hids := SameIds.idAt (Marking.kept_markReads kept_sameIds hm') (Marking.kept_markReads Marking.kept_alike hm')
  have hnumbering : n'.schedule.numbering (n'.schedule.outline n'.schedule.root) = s.numbering (s.outline s.root) := by
    rw [hassigns.schedule.root, hassigns.schedule.outline, hassigns.schedule.numbering]
  dsimp only
  rw [hnumbering]
  refine ⟨hspec.1, ?_, ?_, ⟨n'.nextId, ?_⟩, ?_⟩
  · intro i hi hblocking
    refine hspec.2 i hi fun hfree => ?_
    rw [Free, hblocking] at hfree
    cases hfree
  · intro i hi htakes
    obtain ⟨id, hid⟩ := hassigns.given i hi htakes
    exact ⟨id, (hids i).trans hid⟩
  · rw [List.filterMap_congr fun i _ => hids i, hassigns.ids, List.range_eq_range']
    rfl
  · intro i hi
    rw [hids i, hassigns.other i hi]

theorem stage_numberedTo (hm : m.WellFormed) (hs : m.schedule = .ok s) (hst : m.stage s = .ok st)
    (hnew : m.Unnumbered) : ∃ k, st.module.NumberedTo k := by
  obtain ⟨hsub, hblocks, hgiven, ⟨k, hids⟩, hother⟩ := stage_numbering hm hs hst
  have halike := (stage_consistent hm hs hst).1
  have hnone : ∀ i, i ∉ st.schedule.numbering (st.schedule.outline st.schedule.root) → st.module.idAt i = none :=
    fun i hi => (hother i hi).trans (hnew.idAt i)
  refine ⟨k, ?_, ?_, ?_⟩
  · rw [halike.root, halike.outline, filterMap_of_sublist hsub hm.nodup fun i _ => hnone i, hids]
  · intro i id hid
    rw [halike.root, halike.outline]
    refine hsub.subset (by_contra fun hi => ?_)
    rw [hnone i hi] at hid
    cases hid
  · intro i hi hblocking
    rw [halike.root, halike.outline] at hi
    rw [halike.isBlocking] at hblocking
    exact hgiven i (hblocks i hi hblocking) (takesId_of_blocking hblocking)

end Module

end Sequencer
