import Sequencer.Proofs.Condition.Exit

set_option autoImplicit false

/-!
# Completing a cycle

With values for which all definitions of the table hold, a segment that is left completes its cycle. A segment that is
entered completes its cycle when the segment below it that has the current state does, if they run one after the other,
and when all of them do otherwise.
-/

namespace Sequencer

open Control

section Timing

variable {V : Type} (I : Interpretation V) (ρ : Valuation V)

theorem Cond.holds_foldlM_or {cs : List Cond} {a c : Cond} (h : cs.foldlM Cond.or a = .ok c) :
    Cond.holds I ρ c = (a :: cs).any (Cond.holds I ρ) := by
  induction cs generalizing a with
  | nil =>
    cases h
    simp
  | cons b cs ih =>
    rw [List.foldlM_cons, Checked.bind_eq_ok] at h
    obtain ⟨ab, hab, h⟩ := h
    rw [ih h, List.any_cons, Cond.holds_or I ρ hab, List.any_cons, List.any_cons, Bool.or_assoc]

/-- A block that is entered completes its cycle when its body does. -/
theorem Timing.cycle_of_wrap {b : Block} {body t : Timing} (h : wrap b body = .ok t)
    (hguard : Cond.holds I ρ b.guard = true) : Cond.holds I ρ t.cycle = Cond.holds I ρ body.cycle := by
  rcases holds_wrap I ρ h with rfl | ⟨_, ⟨hc, _⟩ | ⟨hc, _⟩⟩
  · rfl
  · rw [hc, hguard, Bool.not_true, Bool.false_or]
  · rw [hc, hguard, Bool.true_and]

/-- A block that is left completes its cycle, if its body does so. -/
theorem Timing.cycle_of_exit_wrap {b : Block} {body t : Timing} (h : wrap b body = .ok t)
    (hbody : Cond.holds I ρ body.exit = true → Cond.holds I ρ body.cycle = true)
    (hexit : Cond.holds I ρ t.exit = true) : Cond.holds I ρ t.cycle = true := by
  rcases holds_wrap I ρ h with rfl | ⟨more, ⟨hc, he⟩ | ⟨hc, he⟩⟩
  · exact hbody hexit
  · rw [he, Bool.or_eq_true, Bool.and_eq_true] at hexit
    rw [hc, Bool.or_eq_true]
    exact hexit.imp_right fun hboth => hbody hboth.1
  · rw [he, Bool.and_eq_true, Bool.and_eq_true] at hexit
    rw [hc, hexit.1, hbody hexit.2.1, Bool.and_true]

/-- A conditional that is skipped completes its cycle. -/
theorem Timing.cycle_of_skipped {b : Block} {body t : Timing} (h : wrap b body = .ok t) (hkind : b.kind = .conditional)
    (hguard : Cond.holds I ρ b.guard = false) : Cond.holds I ρ t.cycle = true := by
  rw [wrap, hkind] at h
  obtain ⟨cycle, hc, h⟩ := Checked.bind_eq_ok.1 h
  obtain ⟨exit, _, h⟩ := Checked.bind_eq_ok.1 h
  cases h
  simp [Timing.holds_skipUnless I ρ hc, hguard]

end Timing

namespace ConditionTable

/-- The cycle of a sequence and its exit are put together from those of its segments, each under a test of the state. -/
theorem cycle_of_seqTiming {inp : Input} {d : Draft} {seg : Segment} {inner : Timing} (h : seqTiming inp d seg = .ok inner) :
    seg.children = [] ∧ inner = .always ∨ ∃ cycles, List.Forall₂ (fun c cycle => ∃ child test t,
      inp.schedule.segment c = .ok child ∧ inp.space.narrow child.states seg.states = .ok test ∧ d.refs.get c = .ok t ∧
        Cond.and test t.cycle = .ok cycle) seg.children cycles ∧ cycles ≠ [] ∧
      ∀ {V : Type} (I : Interpretation V) (ρ : Valuation V),
        Cond.holds I ρ inner.cycle = cycles.any (Cond.holds I ρ) := by
  unfold seqTiming at h
  cases hlast : seg.children.getLast? with
  | none =>
    rw [hlast] at h
    cases h
    exact .inl ⟨List.getLast?_eq_none_iff.1 hlast, rfl⟩
  | some last =>
    rw [hlast] at h
    obtain ⟨cycles, hcycles, h⟩ := Checked.bind_eq_ok.1 h
    have hforall := Checked.mapM_eq_ok hcycles
    refine .inr ⟨cycles, hforall.imp ?_, ?_, ?_⟩
    · intro c cycle hc
      obtain ⟨child, hchild, hc⟩ := Checked.bind_eq_ok.1 hc
      obtain ⟨test, htest, hc⟩ := Checked.bind_eq_ok.1 hc
      obtain ⟨t, ht, hc⟩ := Checked.bind_eq_ok.1 hc
      exact ⟨child, test, t, hchild, htest, ht, hc⟩
    · rintro rfl
      rw [List.forall₂_nil_right_iff.1 hforall] at hlast
      cases hlast
    · intro V I ρ
      cases cycles with
      | nil =>
        rw [List.forall₂_nil_right_iff.1 hforall] at hlast
        cases hlast
      | cons c cs =>
        obtain ⟨cycle, hcycle, h⟩ := Checked.bind_eq_ok.1 h
        obtain ⟨exit, _, h⟩ := Checked.bind_eq_ok.1 h
        cases h
        exact Cond.holds_foldlM_or I ρ hcycle

theorem cycle_of_mutexTiming {d : Draft} {seg : Segment} {inner : Timing} (h : mutexTiming d seg = .ok inner) :
    ∃ ts, List.Forall₂ (fun c t => d.refs.get c = .ok t) seg.children ts ∧
      Cond.all (ts.map Timing.cycle) = .ok inner.cycle := by
  obtain ⟨ts, hts, h⟩ := Checked.bind_eq_ok.1 h
  obtain ⟨cycle, hcycle, h⟩ := Checked.bind_eq_ok.1 h
  obtain ⟨exit, _, h⟩ := Checked.bind_eq_ok.1 h
  cases h
  exact ⟨ts, Checked.mapM_eq_ok hts, hcycle⟩

section Yields

variable {inp : Input} {S : Nat → Prop}

variable (inp S) in
/-- A yield completes its cycle when it is left. -/
def Paired (d : Defs) : Prop :=
  ∀ j y id t, S j → inp.module.stmt j = .ok (.yield y) → y.id = some id → (id, t) ∈ d → t.cycle = t.exit

variable (inp S) in
/-- Between the definitions none has been lost, and those of yields are still paired. -/
structure Extends (d d' : Defs) : Prop where
  defined : ∀ id t, (id, t) ∈ d → ∃ t', (id, t') ∈ d'
  paired : Paired inp S d → Paired inp S d'

theorem Extends.refl (d : Defs) : Extends inp S d d := ⟨fun _ t h => ⟨t, h⟩, id⟩

theorem Extends.trans {d d' d'' : Defs} (h : Extends inp S d d') (h' : Extends inp S d' d'') : Extends inp S d d'' := by
  refine ⟨?_, fun hd => h'.paired (h.paired hd)⟩
  intro id t ht
  obtain ⟨t', ht'⟩ := h.defined id t ht
  exact h'.defined id t' ht'

theorem Extends.define (d : Defs) {id : Nat} {t : Timing}
    (ht : ∀ j y, S j → inp.module.stmt j = .ok (.yield y) → y.id = some id → t.cycle = t.exit) :
    Extends inp S d (define id t d) := by
  constructor
  · intro id' t' ht'
    by_cases hid : id' = id
    · exact ⟨t, hid ▸ mem_define_self id t d⟩
    · exact ⟨t', mem_define_of_ne ht' hid⟩
  · intro hd j y id' t' hj hy hid hmem
    rcases mem_of_mem_define hmem with heq | hmem
    · cases heq
      exact ht j y hj hy hid
    · exact hd j y id' t' hj hy hid hmem

theorem extends_defineYields {ys : List Yield} {d d' : Defs} {ts : List Timing}
    (h : defineYields inp.module d ys = .ok (d', ts)) :
    Extends inp S d d' ∧ ∃ ids : List Nat, ts = ids.map .ofBlock ∧
      ∀ id ∈ ids, (∃ y ∈ ys, y.id = some id) ∧ ∃ t, (id, t) ∈ d' := by
  induction ys generalizing d ts with
  | nil =>
    cases h
    exact ⟨.refl _, [], rfl, fun id hid => absurd hid List.not_mem_nil⟩
  | cons y ys ih =>
    rw [defineYields] at h
    cases hid : y.id with
    | none =>
      rw [hid] at h
      exact absurd h (Checked.reject_ne_ok _ _)
    | some n =>
      rw [hid] at h
      obtain ⟨t, ht, h⟩ := Checked.bind_eq_ok.1 h
      obtain ⟨⟨d₁, ts₁⟩, hrest, h⟩ := Checked.bind_eq_ok.1 h
      cases h
      obtain ⟨ready, _, ht⟩ := Checked.bind_eq_ok.1 ht
      cases ht
      obtain ⟨hext, ids, rfl, hids⟩ := ih hrest
      refine ⟨(Extends.define d fun _ _ _ _ _ => rfl).trans hext, n :: ids, rfl, List.forall_mem_cons.2 ⟨?_, ?_⟩⟩
      · exact ⟨⟨y, List.mem_cons_self, hid⟩, hext.defined n _ (mem_define_self n _ d)⟩
      · intro id hmem
        obtain ⟨⟨y', hy', hid'⟩, ht⟩ := hids id hmem
        exact ⟨⟨y', List.mem_cons_of_mem _ hy', hid'⟩, ht⟩

variable (inp S) in
/-- The leaf at `i` waits for yields that are defined. -/
def Waits (d : Draft) (i : Nat) : Prop :=
  ∃ (ids : List Nat) (t : Timing), d.refs.get i = .ok t ∧ Timing.all (ids.map .ofBlock) = .ok t ∧
    ∀ id ∈ ids, (∃ j y, S j ∧ inp.module.stmt j = .ok (.yield y) ∧ y.id = some id) ∧ ∃ u, (id, u) ∈ d.defs

theorem Waits.frame {d d' : Draft} {i : Nat} (h : Waits inp S d i) (hrefs : d'.refs.get i = d.refs.get i)
    (hext : Extends inp S d.defs d'.defs) : Waits inp S d' i := by
  obtain ⟨ids, t, ht, hall, hids⟩ := h
  refine ⟨ids, t, hrefs.trans ht, hall, fun id hid => ?_⟩
  obtain ⟨hyield, u, hu⟩ := hids id hid
  exact ⟨hyield, hext.defined id u hu⟩

theorem extends_defineSegment (hids : inp.module.DistinctIds S) {d d' : Draft} {i : Nat} {seg : Segment}
    (hS : ∀ j ∈ seg.numbered, S j) (h : defineSegment inp d i seg = .ok d') :
    Extends inp S d.defs d'.defs ∧ (seg.kind = .leaf → Waits inp S d' i) := by
  by_cases hkind : seg.kind = .leaf
  · obtain ⟨ys, ts, t, hys, hdefs, hall, hset⟩ := defineSegment_leaf hkind h
    obtain ⟨hext, ids, rfl, hyields⟩ := extends_defineYields (S := S) hdefs
    refine ⟨hext, fun _ => ⟨ids, t, get_set_self hset, hall, fun id hid => ?_⟩⟩
    obtain ⟨⟨y, hy, hyid⟩, hdefined⟩ := hyields id hid
    obtain ⟨j, hj, hstmt⟩ := exists_of_mem_yields hys hy
    exact ⟨⟨j, y, hS j (by simp [Segment.numbered, hkind, hj]), hstmt, hyid⟩, hdefined⟩
  · obtain ⟨n, b, id, body, t, hblock, hb, hid, _, _, hdefs, _⟩ := defineSegment_block hkind h
    obtain ⟨st, hst, hstb⟩ := Checked.map_eq_ok.1 hb
    refine ⟨?_, fun hleaf => absurd hleaf hkind⟩
    rw [hdefs]
    refine .define d.defs ?_
    intro j y hj hy hyid
    cases st with
    | block b' =>
      cases hstb
      have hjn : j = n := hids j n _ _ id hj (hS n (by simp [Segment.numbered, hblock])) hy hst hyid hid
      rw [hjn, hst] at hy
      cases hy
    | yield y' => cases hstb
    | update r v => cases hstb
    | assign x v => cases hstb

mutual
theorem extends_buildAt (hids : inp.module.DistinctIds S) : (o : Outline) → ∀ {d d' : Draft},
    (∀ j, inp.schedule.Numbers o j → S j) → buildAt inp d o = .ok d' → Extends inp S d.defs d'.defs
  | .node i os, d, d', hS, h => by
    rw [buildAt, Checked.bind_eq_ok] at h
    obtain ⟨seg, hseg, h⟩ := h
    obtain ⟨d₁, hos, h⟩ := Checked.bind_eq_ok.1 h
    have hnumbers : ∀ j, inp.schedule.Numbers (.node i os) j ↔ _ := fun j => Schedule.numbers_node hseg
    exact (extends_buildAll hids os (fun o ho j hj => hS j ((hnumbers j).2 (.inr ⟨o, ho, hj⟩))) hos).trans
      (extends_defineSegment hids (fun j hj => hS j ((hnumbers j).2 (.inl hj))) h).1
theorem extends_buildAll (hids : inp.module.DistinctIds S) : (os : List Outline) → ∀ {d d' : Draft},
    (∀ o ∈ os, ∀ j, inp.schedule.Numbers o j → S j) → buildAll inp d os = .ok d' → Extends inp S d.defs d'.defs
  | [], d, d', _, h => by
    cases h
    exact .refl d.defs
  | o :: os, d, d', hS, h => by
    rw [buildAll, Checked.bind_eq_ok] at h
    obtain ⟨d₁, ho, h⟩ := h
    obtain ⟨hSo, hSos⟩ := List.forall_mem_cons.1 hS
    exact (extends_buildAt hids o hSo ho).trans (extends_buildAll hids os hSos h)
end

mutual
theorem waits_buildAt (hids : inp.module.DistinctIds S) : (o : Outline) → ∀ {d d' : Draft}, o.preorder.Nodup →
    (∀ j, inp.schedule.Numbers o j → S j) → buildAt inp d o = .ok d' →
    ∀ i ∈ o.preorder, ∀ seg, inp.schedule.segment i = .ok seg → seg.kind = .leaf → Waits inp S d' i
  | .node i os, d, d', hnodup, hS, h => by
    rw [buildAt, Checked.bind_eq_ok] at h
    obtain ⟨seg, hseg, h⟩ := h
    obtain ⟨d₁, hos, h⟩ := Checked.bind_eq_ok.1 h
    have hnumbers : ∀ j, inp.schedule.Numbers (.node i os) j ↔ _ := fun j => Schedule.numbers_node hseg
    have hSi : ∀ j ∈ seg.numbered, S j := fun j hj => hS j ((hnumbers j).2 (.inl hj))
    obtain ⟨hext, hwaits⟩ := extends_defineSegment hids hSi h
    rw [Outline.preorder_eq, List.nodup_cons] at hnodup
    intro j hj seg' hseg' hkind
    rw [Outline.preorder_eq] at hj
    rcases List.mem_cons.1 hj with rfl | hj
    · cases hseg.symm.trans hseg'
      exact hwaits hkind
    · have hrefs := (frames_defineSegment hids hSi h).refs j fun hji => hnodup.1 (List.mem_singleton.1 hji ▸ hj)
      exact (waits_buildAll hids os hnodup.2 (fun o ho j hj => hS j ((hnumbers j).2 (.inr ⟨o, ho, hj⟩))) hos j hj seg' hseg'
        hkind).frame hrefs hext
theorem waits_buildAll (hids : inp.module.DistinctIds S) : (os : List Outline) → ∀ {d d' : Draft},
    (os.flatMap Outline.preorder).Nodup → (∀ o ∈ os, ∀ j, inp.schedule.Numbers o j → S j) → buildAll inp d os = .ok d' →
    ∀ i ∈ os.flatMap Outline.preorder, ∀ seg, inp.schedule.segment i = .ok seg → seg.kind = .leaf → Waits inp S d' i
  | [], d, d', _, _, h => by
    intro i hi
    cases hi
  | o :: os, d, d', hnodup, hS, h => by
    rw [buildAll, Checked.bind_eq_ok] at h
    obtain ⟨d₁, ho, h⟩ := h
    obtain ⟨hSo, hSos⟩ := List.forall_mem_cons.1 hS
    rw [List.flatMap_cons, List.nodup_append] at hnodup
    intro i hi seg hseg hkind
    rcases List.mem_append.1 hi with hi | hi
    · have hrefs := (frames_buildAll hids os hSos h).refs i fun hi' => hnodup.2.2 i hi i hi' rfl
      exact (waits_buildAt hids o hnodup.1 hSo ho i hi seg hseg hkind).frame hrefs (extends_buildAll hids os hSos h)
    · exact waits_buildAll hids os hnodup.2.1 hSos h i hi seg hseg hkind
end

end Yields

/-- Each leaf waits for yields whose two conditions are defined alike. -/
def Pairs (t : ConditionTable) (s : Schedule) : Prop :=
  ∀ i seg, s.segment i = .ok seg → seg.kind = .leaf → ∃ (ids : List Nat) (u : Timing), t.timing i = .ok u ∧
    Timing.all (ids.map .ofBlock) = .ok u ∧
      ∀ id ∈ ids, ∃ c, t.get? (Name.cycleCond id) = some c ∧ t.get? (Name.exitCond id) = some c

/-- The two conditions of a yield are defined alike. -/
theorem paired_build {m : Module} {s : Schedule} {maxState : Nat} {t : ConditionTable} (h : build m s maxState = .ok t)
    (hids : m.DistinctIds (s.Numbers (s.outline s.root))) {j : Nat} (hj : s.Numbers (s.outline s.root) j) {y : Yield}
    (hy : m.stmt j = .ok (.yield y)) {id : Nat} (hid : y.id = some id) {c : Cond}
    (hc : t.get? (Name.exitCond id) = some c) : t.get? (Name.cycleCond id) = some c := by
  obtain ⟨d, hd, h⟩ := Checked.bind_eq_ok.1 h
  obtain ⟨root, _, h⟩ := Checked.bind_eq_ok.1 h
  cases h
  have hsorted : Sorted d.defs := (frames_buildAt hids (s.outline s.root) (fun _ hj => hj) hd).sorted List.Pairwise.nil
  have hpaired := (extends_buildAt hids (s.outline s.root) (fun _ hj => hj) hd).paired
    fun _ _ _ _ _ _ _ hmem => absurd hmem List.not_mem_nil
  rw [get?, Listing.get?_ofList (nodup_names hsorted)] at hc
  obtain ⟨⟨id', u⟩, hu, hmem⟩ := List.mem_flatMap.1 hc
  rcases List.mem_cons.1 hmem with heq | hmem
  · exact absurd (congrArg Prod.fst heq).symm (Name.cycleCond_ne_exitCond _ _)
  · have heq := List.mem_singleton.1 hmem
    have hid' : id = id' := Name.exitCond_inj.1 (congrArg Prod.fst heq)
    subst hid'
    rw [show c = u.exit from congrArg Prod.snd heq, ← hpaired j y id u hj hy hid hu]
    exact (get?_conds hsorted hu).1

theorem pairs_build {m : Module} {s : Schedule} {maxState : Nat} {t : ConditionTable} (h : build m s maxState = .ok t)
    (hpreorder : (s.outline s.root).preorder = List.range s.segments.size)
    (hids : m.DistinctIds (s.Numbers (s.outline s.root))) : t.Pairs s := by
  have hbuild := h
  obtain ⟨d, hd, h⟩ := Checked.bind_eq_ok.1 h
  obtain ⟨root, _, h⟩ := Checked.bind_eq_ok.1 h
  cases h
  have hnodup : (s.outline s.root).preorder.Nodup := hpreorder ▸ List.nodup_range
  have hsorted : Sorted d.defs := (frames_buildAt hids (s.outline s.root) (fun _ hj => hj) hd).sorted List.Pairwise.nil
  intro i seg hseg hkind
  have hi := Schedule.mem_preorder_of_segment hpreorder hseg
  obtain ⟨ids, u, hu, hall, hyields⟩ := waits_buildAt hids _ hnodup (fun _ hj => hj) hd i hi seg hseg hkind
  refine ⟨ids, u, hu, hall, fun id hid => ?_⟩
  obtain ⟨⟨j, y, hj, hy, hyid⟩, v, hv⟩ := hyields id hid
  have hexit := (get?_conds hsorted hv).2
  exact ⟨v.exit, paired_build hbuild hids hj hy hyid hexit, hexit⟩

/-- Each segment has conditions. -/
theorem Defines.exists_timing {t : ConditionTable} {m : Module} {s : Schedule} (hdefines : t.Defines m s)
    (hpairs : t.Pairs s) {i : Nat} {seg : Segment} (hseg : s.segment i = .ok seg) : ∃ u, t.timing i = .ok u := by
  by_cases hkind : seg.kind = .leaf
  · obtain ⟨_, u, hu, _⟩ := hpairs i seg hseg hkind
    exact ⟨u, hu⟩
  · obtain ⟨_, _, _, id, _, _, hrefs, hdef, _⟩ := hdefines i seg hseg hkind
    exact ⟨.ofBlock id, timing_of_refs hrefs hdef.refs⟩

section Cycles

variable {V : Type} (I : Interpretation V) (ρ : Valuation V) (t : ConditionTable)

/-- The condition under which the cycle of the segment at `i` completes holds. -/
def Cycles (i : Nat) : Prop := ∃ u, t.timing i = .ok u ∧ Cond.holds I ρ u.cycle = true

variable {I ρ t} {m : Module} {s : Schedule} {i n k : Nat} {os : List Outline} {b : Block} {seg : Segment}
  {segs : List Segment}

theorem cycles_iff {u : Timing} (hu : t.timing i = .ok u) : t.Cycles I ρ i ↔ Cond.holds I ρ u.cycle = true := by
  constructor
  · rintro ⟨v, hv, hholds⟩
    cases hu.symm.trans hv
    exact hholds
  · exact fun hholds => ⟨u, hu, hholds⟩

section Sequence

variable (h : Schedule.BlockFits m s t.maxState i os n b seg segs) (hkind : seg.kind = .seq)
  (hstates : ∀ c ∈ segs, c.states ≠ [] ∧ c.states.Nodup ∧ ∀ x ∈ c.states, x ≤ t.maxState) (hk : t.space.Holds I ρ k)
  (hmem : k ∈ seg.states) {o : Outline} (ho : o ∈ os) {c : Segment} (hoc : s.segment o.index = .ok c) (hkc : k ∈ c.states)

include h hkind hstates hk hmem ho hoc hkc

/-- Of the segments in a sequence, the test of the state under which one counts holds for the one alone that has the
current state. -/
theorem holds_narrow_iff {o' : Outline} (ho' : o' ∈ os) {c' : Segment} (hoc' : s.segment o'.index = .ok c') {test : Cond}
    (htest : t.space.narrow c'.states seg.states = .ok test) : Cond.holds I ρ test = true ↔ o' = o := by
  obtain ⟨c'', hc'', hoc''⟩ := h.child ho'
  cases hoc'.symm.trans hoc''
  obtain ⟨hne, hnodup, hle⟩ := hstates c' hc''
  rw [hk.narrow hne hnodup hle hmem htest, decide_eq_true_eq]
  constructor
  · intro hkc'
    exact h.eq_of_state hkind ho' ho hoc' hoc hkc' hkc
  · rintro rfl
    cases hoc.symm.trans hoc'
    exact hkc

variable {d : Draft} {inner : Timing} (hrefs : d.refs = t.refs) (hbody : seqTiming ⟨m, s, t.space⟩ d seg = .ok inner)

include hrefs hbody

/-- The body of a sequence completes its cycle when the segment does that has the current state. -/
theorem cycle_seqTiming_iff : Cond.holds I ρ inner.cycle = true ↔ t.Cycles I ρ o.index := by
  rcases cycle_of_seqTiming hbody with ⟨hnil, _⟩ | ⟨cycles, hforall, _, hany⟩
  · rw [h.children, List.map_eq_nil_iff] at hnil
    rw [hnil] at ho
    cases ho
  rw [h.children, List.forall₂_map_left_iff] at hforall
  rw [hany I ρ, List.any_eq_true]
  have hvalue : ∀ o' ∈ os, ∀ cycle, (∃ child test v, s.segment o'.index = .ok child ∧
      t.space.narrow child.states seg.states = .ok test ∧ d.refs.get o'.index = .ok v ∧
        Cond.and test v.cycle = .ok cycle) → (Cond.holds I ρ cycle = true ↔ o' = o ∧ t.Cycles I ρ o'.index) := by
    rintro o' ho' cycle ⟨child, test, v, hchild, htest, hv, hand⟩
    rw [Cond.holds_and I ρ hand, Bool.and_eq_true, cycles_iff (timing_of_refs hrefs hv),
      holds_narrow_iff h hkind hstates hk hmem ho hoc hkc ho' hchild htest]
  constructor
  · rintro ⟨cycle, hcycle, hholds⟩
    obtain ⟨o', ho', hcond⟩ := exists_of_mem_forall₂ hforall hcycle
    obtain ⟨rfl, hcycles⟩ := (hvalue o' ho' cycle hcond).1 hholds
    exact hcycles
  · intro hcycles
    obtain ⟨cycle, hcycle, hcond⟩ := exists_of_mem_forall₂ hforall.flip ho
    exact ⟨cycle, hcycle, (hvalue o ho cycle hcond).2 ⟨rfl, hcycles⟩⟩

/-- The body of a sequence is left when the segment that has the current state is the last one and is left. -/
theorem exit_seqTiming_iff :
    Cond.holds I ρ inner.exit = true ↔ seg.children.getLast? = some o.index ∧ t.Exits I ρ o.index := by
  obtain ⟨last, hlast⟩ : ∃ last, os.getLast? = some last :=
    Option.isSome_iff_exists.1 (List.getLast?_isSome.2 (List.ne_nil_of_mem ho))
  have hmemlast := List.mem_of_getLast? hlast
  have hchildren : seg.children.getLast? = some last.index := by rw [h.children, List.getLast?_map, hlast, Option.map_some]
  obtain ⟨child, test, v, hchild, htest, hv, hand⟩ := exit_of_seqTiming hbody hchildren
  rw [Cond.holds_and I ρ hand, Bool.and_eq_true, ← exits_iff (timing_of_refs hrefs hv), hchildren, Option.some.injEq,
    holds_narrow_iff h hkind hstates hk hmem ho hoc hkc hmemlast hchild htest]
  constructor
  · rintro ⟨rfl, hexits⟩
    exact ⟨rfl, hexits⟩
  · rintro ⟨hindex, hexits⟩
    cases h.eq_of_state hkind hmemlast ho (hindex ▸ hoc) hoc hkc hkc
    exact ⟨rfl, hexits⟩

end Sequence

section Bodies

variable {d : Draft} {inner : Timing} (hrefs : d.refs = t.refs)
  (hcompletes : ∀ c ∈ seg.children, t.Exits I ρ c → t.Cycles I ρ c)

include hrefs hcompletes

/-- The last segment of a sequence is left under the same test of the state under which its cycle counts. -/
theorem cycle_of_exit_seqTiming (hbody : seqTiming ⟨m, s, t.space⟩ d seg = .ok inner)
    (hexit : Cond.holds I ρ inner.exit = true) : Cond.holds I ρ inner.cycle = true := by
  rcases cycle_of_seqTiming hbody with ⟨_, halways⟩ | ⟨cycles, hforall, hne, hany⟩
  · rw [halways]
    rfl
  · have hchildren : seg.children ≠ [] := by
      intro hnil
      rw [hnil, List.forall₂_nil_left_iff] at hforall
      exact hne hforall
    have hlast := List.getLast?_eq_some_getLast hchildren
    obtain ⟨child, test, v, hchild, htest, hv, hand⟩ := exit_of_seqTiming hbody hlast
    have hmem := List.getLast_mem hchildren
    obtain ⟨cycle, hcycle, child', test', v', hchild', htest', hv', hand'⟩ := exists_of_mem_forall₂ hforall.flip hmem
    cases hchild.symm.trans hchild'
    cases htest.symm.trans htest'
    cases hv.symm.trans hv'
    have htiming := timing_of_refs hrefs hv
    rw [Cond.holds_and I ρ hand, Bool.and_eq_true, ← exits_iff htiming] at hexit
    have hcycles := (cycles_iff htiming).1 (hcompletes _ hmem hexit.2)
    rw [hany I ρ, List.any_eq_true]
    exact ⟨cycle, hcycle, by rw [Cond.holds_and I ρ hand', hexit.1, hcycles, Bool.and_self]⟩

theorem cycle_of_exit_mutexTiming (hbody : mutexTiming d seg = .ok inner) (hexit : Cond.holds I ρ inner.exit = true) :
    Cond.holds I ρ inner.cycle = true := by
  obtain ⟨ts, hts, hall⟩ := cycle_of_mutexTiming hbody
  obtain ⟨ts', hts', hall'⟩ := exit_of_mutexTiming hbody
  rw [Cond.holds_all I ρ hall', List.all_eq_true] at hexit
  rw [Cond.holds_all I ρ hall, List.all_eq_true]
  simp only [List.forall_mem_map] at hexit ⊢
  intro v hv
  obtain ⟨c, hc, hget⟩ := exists_of_mem_forall₂ hts hv
  obtain ⟨v', hv', hget'⟩ := exists_of_mem_forall₂ hts'.flip hc
  cases hget.symm.trans hget'
  have htiming := timing_of_refs hrefs hget
  exact (cycles_iff htiming).1 (hcompletes c hc ((exits_iff htiming).2 (hexit v hv')))

end Bodies

variable (hsat : t.Satisfied I ρ)

include hsat

/-- A leaf is left when its cycle completes. -/
theorem cycles_leaf_iff (hpairs : t.Pairs s) (hseg : s.segment i = .ok seg) (hkind : seg.kind = .leaf) :
    t.Cycles I ρ i ↔ t.Exits I ρ i := by
  obtain ⟨ids, u, hu, hall, hids⟩ := hpairs i seg hseg hkind
  obtain ⟨cycle, hcycle, hall⟩ := Checked.bind_eq_ok.1 hall
  obtain ⟨exit, hexit, hall⟩ := Checked.bind_eq_ok.1 hall
  cases hall
  rw [cycles_iff hu, exits_iff hu, Cond.holds_all I ρ hcycle, Cond.holds_all I ρ hexit, List.all_eq_true,
    List.all_eq_true]
  simp only [List.map_map, List.forall_mem_map]
  refine forall₂_congr fun id hid => ?_
  obtain ⟨c, hc, he⟩ := hids id hid
  have hcycle := hsat _ c hc
  have hexit := hsat _ c he
  simp only [Function.comp_apply, Timing.ofBlock, Cond.holds_some, hcycle, hexit]

variable (hdefines : t.Defines m s) (h : Schedule.BlockFits m s t.maxState i os n b seg segs)

include hdefines h

/-- How the conditions of a block relate to those of its body. -/
theorem exists_body : ∃ d inner u, d.refs = t.refs ∧ bodyTiming ⟨m, s, t.space⟩ d seg = .ok inner ∧
    Timing.wrap b inner = .ok u ∧ (t.Cycles I ρ i ↔ Cond.holds I ρ u.cycle = true) ∧
      (t.Exits I ρ i ↔ Cond.holds I ρ u.exit = true) := by
  obtain ⟨d, n', b', id, inner, u, hrefs, hdef, hcycle, hexit⟩ := hdefines i seg h.segment h.not_leaf
  cases h.block.symm.trans hdef.block
  cases h.stmt.symm.trans hdef.stmt
  have htiming := timing_of_refs hrefs hdef.refs
  refine ⟨d, inner, u, hrefs, hdef.body, hdef.wrap, ?_, ?_⟩
  · rw [cycles_iff htiming, ← hsat _ _ hcycle]
    rfl
  · rw [exits_iff htiming, ← hsat _ _ hexit]
    rfl

/-- A conditional that is skipped completes its cycle. -/
theorem cycles_of_skipped (hkind : b.kind = .conditional) (hskip : ¬s.Entered I ρ m i) : t.Cycles I ρ i := by
  obtain ⟨d, inner, u, _, _, hwrap, hcycles, _⟩ := exists_body hsat hdefines h
  rw [h.entered_iff, Bool.not_eq_true] at hskip
  exact hcycles.2 (Timing.cycle_of_skipped I ρ hwrap hkind hskip)

/-- A sequence completes its cycle when the segment does that has the current state. -/
theorem cycles_seq (hentered : s.Entered I ρ m i) (hk : t.space.Holds I ρ k) (hmem : k ∈ seg.states)
    (hkind : seg.kind = .seq) (hstates : ∀ c ∈ segs, c.states ≠ [] ∧ c.states.Nodup ∧ ∀ x ∈ c.states, x ≤ t.maxState)
    {o : Outline} (ho : o ∈ os) {c : Segment} (hoc : s.segment o.index = .ok c) (hkc : k ∈ c.states) :
    t.Cycles I ρ i ↔ t.Cycles I ρ o.index := by
  obtain ⟨d, inner, u, hrefs, hbody, hwrap, hcycles, _⟩ := exists_body hsat hdefines h
  rw [bodyTiming, if_pos hkind] at hbody
  rw [hcycles, Timing.cycle_of_wrap I ρ hwrap (h.entered_iff.1 hentered)]
  exact cycle_seqTiming_iff h hkind hstates hk hmem ho hoc hkc hrefs hbody

/-- Branches complete their cycles together. -/
theorem cycles_mutex (hentered : s.Entered I ρ m i) (hkind : seg.kind = .mutex) :
    t.Cycles I ρ i ↔ ∀ o ∈ os, t.Cycles I ρ o.index := by
  obtain ⟨d, inner, u, hrefs, hbody, hwrap, hcycles, _⟩ := exists_body hsat hdefines h
  rw [bodyTiming, if_neg (by simp [hkind])] at hbody
  obtain ⟨ts, hts, hall⟩ := cycle_of_mutexTiming hbody
  rw [hcycles, Timing.cycle_of_wrap I ρ hwrap (h.entered_iff.1 hentered), Cond.holds_all I ρ hall, List.all_eq_true]
  simp only [List.forall_mem_map]
  rw [h.children, List.forall₂_map_left_iff] at hts
  constructor
  · intro hholds o ho
    obtain ⟨v, hv, hget⟩ := exists_of_mem_forall₂ hts.flip ho
    exact (cycles_iff (timing_of_refs hrefs hget)).2 (hholds v hv)
  · intro hall' v hv
    obtain ⟨o, ho, hget⟩ := exists_of_mem_forall₂ hts hv
    exact (cycles_iff (timing_of_refs hrefs hget)).1 (hall' o ho)

omit h in
/-- What is left completes its cycle. -/
theorem cycles_of_exits (hpairs : t.Pairs s) {o : Outline} (h : Schedule.Consistent m s t.maxState o)
    (hexit : t.Exits I ρ o.index) : t.Cycles I ρ o.index := by
  induction h with
  | leaf h => exact (cycles_leaf_iff hsat hpairs h.segment h.kind).2 hexit
  | @block i n b seg os segs h hos ih =>
    obtain ⟨d, inner, u, hrefs, hbody, hwrap, hcycles, hexits⟩ := exists_body hsat hdefines h
    refine hcycles.2 (Timing.cycle_of_exit_wrap I ρ hwrap ?_ (hexits.1 hexit))
    have hcompletes : ∀ c ∈ seg.children, t.Exits I ρ c → t.Cycles I ρ c := by
      rw [h.children, List.forall_mem_map]
      exact ih
    rw [bodyTiming] at hbody
    split at hbody
    · exact cycle_of_exit_seqTiming hrefs hcompletes hbody
    · exact cycle_of_exit_mutexTiming hrefs hcompletes hbody

end Cycles

end ConditionTable

end Sequencer
