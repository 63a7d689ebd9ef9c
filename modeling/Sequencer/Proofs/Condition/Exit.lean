import Sequencer.Proofs.Condition.StateSpace
import Sequencer.Proofs.Condition.Table
import Sequencer.Proofs.Schedule.Live

set_option autoImplicit false

/-!
# Leaving a segment

With values for which all definitions of the table hold, a segment that is entered is left only if the segments below it
are: the last one, if they run one after the other, and all of them otherwise.
-/

namespace Sequencer

open Control

section Timing

variable {V : Type} (I : Interpretation V) (ρ : Valuation V)

theorem Cond.holds_all {cs : List Cond} {c : Cond} (h : Cond.all cs = .ok c) :
    Cond.holds I ρ c = cs.all (Cond.holds I ρ) := by
  have hfold : ∀ (cs : List Cond) (a : Cond), cs.foldlM Cond.and a = .ok c →
      Cond.holds I ρ c = (Cond.holds I ρ a && cs.all (Cond.holds I ρ)) := by
    intro cs
    induction cs with
    | nil =>
      intro a h
      cases h
      simp
    | cons b cs ih =>
      intro a h
      rw [List.foldlM_cons, Checked.bind_eq_ok] at h
      obtain ⟨ab, hab, h⟩ := h
      rw [ih ab h, Cond.holds_and I ρ hab, List.all_cons, Bool.and_assoc]
  rw [hfold cs none h, Cond.holds_none, Bool.true_and]

theorem Timing.holds_skipUnless {guard cond c : Cond} (h : skipUnless guard cond = .ok c) :
    Cond.holds I ρ c = (!Cond.holds I ρ guard || Cond.holds I ρ cond) := by
  cases cond with
  | none =>
    cases guard with
    | none =>
      cases h
      rfl
    | some g =>
      cases h
      simp
  | some e =>
    cases guard with
    | none =>
      cases h
      simp
    | some g =>
      obtain ⟨g', hg', h⟩ := Checked.bind_eq_ok.1 h
      obtain ⟨e', he', h⟩ := Checked.bind_eq_ok.1 h
      cases h
      rw [Cond.holds_some, Expr.holds_or I ρ he', Expr.holds_negate I ρ hg', Cond.holds_some, Cond.holds_some]

/-- What the conditions of a block say: those of its body, or that it is skipped or its body does so, or that it is entered
and its body does so. For the exit there may be `more` to wait for. -/
theorem Timing.holds_wrap {b : Block} {body t : Timing} (h : wrap b body = .ok t) : t = body ∨ ∃ more : Bool,
    Cond.holds I ρ t.cycle = (!Cond.holds I ρ b.guard || Cond.holds I ρ body.cycle) ∧
      Cond.holds I ρ t.exit = (!Cond.holds I ρ b.guard || (Cond.holds I ρ body.exit && more)) ∨
    Cond.holds I ρ t.cycle = (Cond.holds I ρ b.guard && Cond.holds I ρ body.cycle) ∧
      Cond.holds I ρ t.exit = (Cond.holds I ρ b.guard && (Cond.holds I ρ body.exit && more)) := by
  unfold wrap at h
  split at h
  · cases h
    exact .inl rfl
  · cases h
    exact .inl rfl
  · obtain ⟨cycle, hc, h⟩ := Checked.bind_eq_ok.1 h
    obtain ⟨exit, he, h⟩ := Checked.bind_eq_ok.1 h
    cases h
    exact .inr ⟨true, .inl ⟨holds_skipUnless I ρ hc, by rw [holds_skipUnless I ρ he, Bool.and_true]⟩⟩
  · obtain ⟨cycle, hc, h⟩ := Checked.bind_eq_ok.1 h
    obtain ⟨both, hboth, h⟩ := Checked.bind_eq_ok.1 h
    obtain ⟨exit, he, h⟩ := Checked.bind_eq_ok.1 h
    cases h
    exact .inr ⟨_, .inl ⟨holds_skipUnless I ρ hc, by rw [holds_skipUnless I ρ he, Cond.holds_and I ρ hboth]⟩⟩
  · obtain ⟨cycle, hc, h⟩ := Checked.bind_eq_ok.1 h
    obtain ⟨exit, he, h⟩ := Checked.bind_eq_ok.1 h
    cases h
    exact .inr ⟨true, .inr ⟨Cond.holds_and I ρ hc, by rw [Cond.holds_and I ρ he, Bool.and_true]⟩⟩
  · obtain ⟨cycle, hc, h⟩ := Checked.bind_eq_ok.1 h
    obtain ⟨both, hboth, h⟩ := Checked.bind_eq_ok.1 h
    obtain ⟨exit, he, h⟩ := Checked.bind_eq_ok.1 h
    cases h
    exact .inr ⟨_, .inr ⟨Cond.holds_and I ρ hc, by rw [Cond.holds_and I ρ he, Cond.holds_and I ρ hboth]⟩⟩

/-- A block that is entered is not left before its body is. -/
theorem Timing.exit_of_wrap {b : Block} {body t : Timing} (h : wrap b body = .ok t)
    (hguard : Cond.holds I ρ b.guard = true) (hexit : Cond.holds I ρ t.exit = true) :
    Cond.holds I ρ body.exit = true := by
  rcases holds_wrap I ρ h with rfl | ⟨more, ⟨_, he⟩ | ⟨_, he⟩⟩
  · exact hexit
  · rw [he, hguard, Bool.not_true, Bool.false_or, Bool.and_eq_true] at hexit
    exact hexit.1
  · rw [he, hguard, Bool.true_and, Bool.and_eq_true] at hexit
    exact hexit.1

end Timing

namespace ConditionTable

theorem exit_of_seqTiming {inp : Input} {d : Draft} {seg : Segment} {inner : Timing} (h : seqTiming inp d seg = .ok inner)
    {last : Nat} (hlast : seg.children.getLast? = some last) :
    ∃ child test t, inp.schedule.segment last = .ok child ∧ inp.space.narrow child.states seg.states = .ok test ∧
      d.refs.get last = .ok t ∧ Cond.and test t.exit = .ok inner.exit := by
  unfold seqTiming at h
  rw [hlast] at h
  obtain ⟨cycles, _, h⟩ := Checked.bind_eq_ok.1 h
  have hrest : ∀ cycle : Cond, ((do
      let child ← inp.schedule.segment last
      Cond.and (← inp.space.narrow child.states seg.states) (← d.refs.get last).exit) >>= fun exit =>
        (pure ⟨cycle, exit⟩ : Checked Timing)) = .ok inner →
      ∃ child test t, inp.schedule.segment last = .ok child ∧ inp.space.narrow child.states seg.states = .ok test ∧
        d.refs.get last = .ok t ∧ Cond.and test t.exit = .ok inner.exit := by
    intro cycle h
    obtain ⟨exit, hexit, h⟩ := Checked.bind_eq_ok.1 h
    cases h
    obtain ⟨child, hchild, hexit⟩ := Checked.bind_eq_ok.1 hexit
    obtain ⟨test, htest, hexit⟩ := Checked.bind_eq_ok.1 hexit
    obtain ⟨t, ht, hexit⟩ := Checked.bind_eq_ok.1 hexit
    exact ⟨child, test, t, hchild, htest, ht, hexit⟩
  cases cycles with
  | nil => exact hrest none h
  | cons c cs =>
    obtain ⟨cycle, _, h⟩ := Checked.bind_eq_ok.1 h
    exact hrest cycle h

theorem exit_of_mutexTiming {d : Draft} {seg : Segment} {inner : Timing} (h : mutexTiming d seg = .ok inner) :
    ∃ ts, List.Forall₂ (fun c t => d.refs.get c = .ok t) seg.children ts ∧
      Cond.all (ts.map Timing.exit) = .ok inner.exit := by
  obtain ⟨ts, hts, h⟩ := Checked.bind_eq_ok.1 h
  obtain ⟨cycle, _, h⟩ := Checked.bind_eq_ok.1 h
  obtain ⟨exit, hexit, h⟩ := Checked.bind_eq_ok.1 h
  cases h
  exact ⟨ts, Checked.mapM_eq_ok hts, hexit⟩

/-- The conditions of each block with a segment are those that the table defines for it. -/
def Defines (t : ConditionTable) (m : Module) (s : Schedule) : Prop :=
  ∀ i seg, s.segment i = .ok seg → seg.kind ≠ .leaf → ∃ d n b id inner u, d.refs = t.refs ∧
    Defined ⟨m, s, t.space⟩ d i seg n b id inner u ∧ t.get? (Name.cycleCond id) = some u.cycle ∧
      t.get? (Name.exitCond id) = some u.exit

theorem nodup_names {d : Defs} (h : Sorted d) :
    ((d.flatMap fun e => [(Name.cycleCond e.1, e.2.cycle), (Name.exitCond e.1, e.2.exit)]).map Prod.fst).Nodup := by
  rw [List.map_flatMap, List.Nodup, List.pairwise_flatMap]
  constructor
  · intro e _
    simp [Name.cycleCond_ne_exitCond]
  · refine h.imp ?_
    intro e e' hlt x hx y hy
    simp only [List.map_cons, List.map_nil, List.mem_cons, List.not_mem_nil, or_false] at hx hy
    rcases hx with rfl | rfl
    · rcases hy with rfl | rfl
      · rw [ne_eq, Name.cycleCond_inj]
        omega
      · exact Name.cycleCond_ne_exitCond _ _
    · rcases hy with rfl | rfl
      · exact (Name.cycleCond_ne_exitCond _ _).symm
      · rw [ne_eq, Name.exitCond_inj]
        omega

/-- The conditions of a block that is defined are found by their names. -/
theorem get?_conds {d : Defs} (h : Sorted d) {id : Nat} {t : Timing} (hmem : (id, t) ∈ d) :
    let conds := Listing.ofList (d.flatMap fun e => [(Name.cycleCond e.1, e.2.cycle), (Name.exitCond e.1, e.2.exit)])
    conds.get? (Name.cycleCond id) = some t.cycle ∧ conds.get? (Name.exitCond id) = some t.exit := by
  constructor
  all_goals
    rw [Listing.get?_ofList (nodup_names h)]
    exact List.mem_flatMap.2 ⟨_, hmem, by simp⟩

theorem defines_build {m : Module} {s : Schedule} {maxState : Nat} {t : ConditionTable} (h : build m s maxState = .ok t)
    (hconsistent : Schedule.Consistent m s maxState (s.outline s.root))
    (hpreorder : (s.outline s.root).preorder = List.range s.segments.size) (hblocks : (s.blocks (s.outline s.root)).Nodup)
    (hids : m.DistinctIds (s.Numbers (s.outline s.root))) : t.Defines m s := by
  obtain ⟨d, hd, h⟩ := Checked.bind_eq_ok.1 h
  obtain ⟨root, _, h⟩ := Checked.bind_eq_ok.1 h
  cases h
  have hnodup : (s.outline s.root).preorder.Nodup := hpreorder ▸ List.nodup_range
  have hframes := frames_buildAt hids (s.outline s.root) (fun _ hj => hj) hd
  have hsorted : Sorted d.defs := hframes.sorted List.Pairwise.nil
  have hbuilt := built_buildAt hids hconsistent hnodup hblocks (fun _ hj => hj) hd
  intro i seg hseg hkind
  have hi := Schedule.mem_preorder_of_segment hpreorder hseg
  obtain ⟨n, b, id, inner, u, hdef⟩ := hbuilt i hi seg hseg hkind
  exact ⟨d, n, b, id, inner, u, rfl, hdef, get?_conds hsorted hdef.mem⟩

section Exits

variable {V : Type} (I : Interpretation V) (ρ : Valuation V) (t : ConditionTable)

/-- Every name that the table defines has the value of its definition. -/
def Satisfied : Prop := ∀ name c, t.get? name = some c → (Expr.flag name).holds I ρ = Cond.holds I ρ c

theorem satisfied_of_entries (h : ∀ e ∈ t.conds.entries, (Expr.flag e.1).holds I ρ = Cond.holds I ρ e.2) :
    t.Satisfied I ρ :=
  fun name c hget => h (name, c) ((t.conds.get?_eq_some_iff name c).1 hget)

instance : Decidable (t.Satisfied I ρ) :=
  decidable_of_iff (∀ e ∈ t.conds.entries, (Expr.flag e.1).holds I ρ = Cond.holds I ρ e.2)
    ⟨t.satisfied_of_entries I ρ, fun h e he => h e.1 e.2 ((t.conds.get?_eq_some_iff e.1 e.2).2 he)⟩

/-- The condition under which the segment at `i` is left holds. -/
def Exits (i : Nat) : Prop := ∃ u, t.timing i = .ok u ∧ Cond.holds I ρ u.exit = true

variable {I ρ t} {m : Module} {s : Schedule} {i n k : Nat} {os : List Outline} {b : Block} {seg : Segment}
  {segs : List Segment}

theorem timing_of_refs {d : Draft} (hrefs : d.refs = t.refs) {u : Timing} (hu : d.refs.get i = .ok u) :
    t.timing i = .ok u := by
  rw [timing, ← hrefs]
  exact hu

theorem exits_iff {u : Timing} (hu : t.timing i = .ok u) : t.Exits I ρ i ↔ Cond.holds I ρ u.exit = true := by
  constructor
  · rintro ⟨v, hv, hholds⟩
    cases hu.symm.trans hv
    exact hholds
  · exact fun hholds => ⟨u, hu, hholds⟩

variable (hdefines : t.Defines m s) (hsat : t.Satisfied I ρ) (h : Schedule.BlockFits m s t.maxState i os n b seg segs)
  (hentered : s.Entered I ρ m i) (hexit : t.Exits I ρ i)

include hdefines hsat h hentered hexit

/-- A block that is entered and left has a body that is left. -/
theorem exit_body : ∃ d inner, d.refs = t.refs ∧ bodyTiming ⟨m, s, t.space⟩ d seg = .ok inner ∧
    Cond.holds I ρ inner.exit = true := by
  obtain ⟨d, n', b', id, inner, u, hrefs, hdef, _, hget⟩ := hdefines i seg h.segment h.not_leaf
  cases h.block.symm.trans hdef.block
  cases h.stmt.symm.trans hdef.stmt
  refine ⟨d, inner, hrefs, hdef.body, Timing.exit_of_wrap I ρ hdef.wrap (h.entered_iff.1 hentered) ?_⟩
  rw [← hsat _ _ hget]
  exact (exits_iff (timing_of_refs hrefs hdef.refs)).1 hexit

theorem exits_last (hk : t.space.Holds I ρ k) (hmem : k ∈ seg.states) (hkind : seg.kind = .seq) {o : Outline}
    (ho : os.getLast? = some o) {c : Segment} (hc : s.segment o.index = .ok c)
    (hstates : c.states ≠ [] ∧ c.states.Nodup ∧ ∀ x ∈ c.states, x ≤ t.maxState) :
    k ∈ c.states ∧ t.Exits I ρ o.index := by
  obtain ⟨d, inner, hrefs, hbody, hinner⟩ := exit_body hdefines hsat h hentered hexit
  rw [bodyTiming, if_pos hkind] at hbody
  have hlast : seg.children.getLast? = some o.index := by rw [h.children, List.getLast?_map, ho, Option.map_some]
  obtain ⟨c', test, u, hc', htest, hu, hand⟩ := exit_of_seqTiming hbody hlast
  cases hc.symm.trans hc'
  rw [Cond.holds_and I ρ hand, hk.narrow hstates.1 hstates.2.1 hstates.2.2 hmem htest, Bool.and_eq_true,
    decide_eq_true_eq] at hinner
  exact ⟨hinner.1, u, timing_of_refs hrefs hu, hinner.2⟩

theorem exits_branch (hkind : seg.kind = .mutex) {o : Outline} (ho : o ∈ os) : t.Exits I ρ o.index := by
  obtain ⟨d, inner, hrefs, hbody, hinner⟩ := exit_body hdefines hsat h hentered hexit
  rw [bodyTiming, if_neg (by simp [hkind])] at hbody
  obtain ⟨ts, hts, hall⟩ := exit_of_mutexTiming hbody
  rw [Cond.holds_all I ρ hall, List.all_eq_true] at hinner
  have hmem : o.index ∈ seg.children := by
    rw [h.children]
    exact List.mem_map_of_mem ho
  obtain ⟨u, hu, hget⟩ := exists_of_mem_forall₂ hts.flip hmem
  exact ⟨u, timing_of_refs hrefs hget, hinner _ (List.mem_map_of_mem hu)⟩

end Exits

end ConditionTable

end Sequencer
