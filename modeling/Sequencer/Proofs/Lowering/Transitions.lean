import Sequencer.Compile
import Sequencer.Proofs.Condition.Exit
import Sequencer.Proofs.Lowering.Segment

set_option autoImplicit false

/-!
# Changes of state

What the tree of state transitions leaves on the enable and on the next value of the state register.
-/

namespace Sequencer

namespace Lowering

open Control Lower Comb

section Shift

variable {V : Type} (I : Interpretation V) (ρ : Valuation V)

/-- The target of the last transition whose condition holds. -/
def moved : List Transition → Option Nat
  | [] => none
  | tr :: trs => (moved trs).or (if Cond.holds I ρ tr.cond then some tr.target else none)

theorem moved_append (trs trs' : List Transition) :
    moved I ρ (trs ++ trs') = (moved I ρ trs').or (moved I ρ trs) := by
  induction trs with
  | nil => exact Option.or_none.symm
  | cons tr trs ih => rw [List.cons_append, moved, ih, moved, Option.or_assoc]

theorem moved_eq_none {trs : List Transition} (h : ∀ tr ∈ trs, Cond.holds I ρ tr.cond = false) :
    moved I ρ trs = none := by
  induction trs with
  | nil => rfl
  | cons tr trs ih =>
    obtain ⟨htr, htrs⟩ := List.forall_mem_cons.1 h
    rw [moved, ih htrs, htr, if_neg (by simp), Option.none_or]

variable (sp : StateSpace)

/-- The signals that a change of state drives, with what it drives on them. -/
def stateSignals : List (String × (Nat → V)) :=
  [(Name.enable Name.state, fun _ => I.bit true), (Name.nextValue Name.state, fun k => (sp.literal k).eval I ρ)]

/-- The statements change the state to `r`, or do not change it if `r` is `none`. -/
def Shifts (ss : List Comb.Stmt) (r : Option Nat) : Prop :=
  ∀ e ∈ stateSignals I ρ sp, Comb.Stmt.finalAll I ρ e.1 ss = r.map e.2

variable {I ρ sp}

theorem Shifts.nil : Shifts I ρ sp [] none := fun _ _ => rfl

theorem Shifts.append {ss ts : List Comb.Stmt} {r r' : Option Nat} (h : Shifts I ρ sp ss r) (h' : Shifts I ρ sp ts r') :
    Shifts I ρ sp (ss ++ ts) (r'.or r) := by
  intro e he
  rw [Comb.Stmt.finalAll_append, h e he, h' e he, Option.map_or]

theorem controlled_stateSignals {g : TransitionGraph} :
    ∀ e ∈ stateSignals I ρ sp, Controlled (Aspect.transitions g).isControl e.1 := by
  simp only [stateSignals, List.mem_cons, List.not_mem_nil, or_false, forall_eq_or_imp, forall_eq]
  constructor
  · intro d
    have hcontrol : Name.isControl (Name.enable Name.state) = true := by decide
    rw [Aspect.isControl, hcontrol, Bool.true_or]
  · intro d
    simp [Aspect.isControl]

end Shift

variable {ctx : Context} {s s' : Session}

/-- The session has noted the move. -/
def Session.Notes (s : Session) (e : Nat × Nat) : Prop := ∃ g, s.aspect = .transitions g ∧ e ∈ g.edges

theorem Session.Notes.of_frame {e : Nat × Nat} (h : s.Notes e) {t : ConditionTable} (hframe : Session.Frame t s s') : s'.Notes e := by
  obtain ⟨g, hg, he⟩ := h
  obtain ⟨g', hg', hwithin⟩ := hframe.graph g hg
  exact ⟨g', hg', hwithin.edges he⟩

section Copies

variable {V : Type} {I : Interpretation V} {ρ : Valuation V}

theorem runs_assignState {g : TransitionGraph} (hs : s.aspect = .transitions g) (hmax : ctx.table.maxState ≠ 0)
    {b b' : Comb.Block} {tr : Transition} (h : Runs ctx (assignState b tr) s b' s') :
    s'.aspect = .transitions (g.add tr.source tr.target) ∧ b' = b.push (.block tr.cond
      (Listing.empty.insert (Name.nextValue Name.state) ⟨some (ctx.table.space.literal tr.target), ctx.table.space.width⟩)
      (assigns [.flag (Name.enable Name.state) (.bool true)])) := by
  have h₁ := runs_aspect_bind.1 h
  rw [hs] at h₁
  have h₂ := runs_read_bind.1 h₁
  dsimp only at h₂
  rw [if_neg (show ctx.table.space.maxState ≠ 0 from hmax)] at h₂
  obtain ⟨_, s₂, hset, h₃⟩ := runs_bind.1 h₂
  obtain ⟨rfl, rfl⟩ := runs_pure.1 h₃
  rw [runs_setAspect.1 hset]
  exact ⟨rfl, rfl⟩

/-- The block that a transition adds. -/
theorem shifts_change (sp : StateSpace) (tr : Transition) (w : Nat) :
    Shifts I ρ sp [.block tr.cond (Listing.empty.insert (Name.nextValue Name.state) ⟨some (sp.literal tr.target), w⟩)
      (assigns [.flag (Name.enable Name.state) (.bool true)])] (moved I ρ [tr]) := by
  have hne : Name.enable Name.state ≠ Name.nextValue Name.state := by decide
  simp only [Shifts, stateSignals, List.mem_cons, List.not_mem_nil, or_false, forall_eq_or_imp, forall_eq]
  constructor
  · have hstmts : Comb.Stmt.finalAll I ρ (Name.enable Name.state)
        (assigns [.flag (Name.enable Name.state) (.bool true)]) = some (I.bit true) := by
      simp [assigns, Comb.Stmt.finalAll, Comb.Stmt.final, Assign.final, Assign.flag, Assign.of, Drive.final]
    rw [Comb.Stmt.finalAll, Comb.Stmt.finalAll, Option.none_or, Comb.Stmt.final, hstmts, Option.some_or, moved, moved,
      Option.none_or]
    split <;> rfl
  · have hstmts : Comb.Stmt.finalAll I ρ (Name.nextValue Name.state)
        (assigns [.flag (Name.enable Name.state) (.bool true)]) = none := by
      simp [assigns, Comb.Stmt.finalAll, Comb.Stmt.final, Assign.final, Assign.flag, Assign.of, hne]
    have hdflts : Defaults.final I ρ (Name.nextValue Name.state) (Listing.empty.insert (Name.nextValue Name.state)
        ⟨some (sp.literal tr.target), w⟩) = some ((sp.literal tr.target).eval I ρ) := by
      rw [Defaults.final, Listing.get?_insert_self]
      rfl
    rw [Comb.Stmt.finalAll, Comb.Stmt.finalAll, Option.none_or, Comb.Stmt.final, hstmts, hdflts, Option.none_or, moved,
      moved, Option.none_or]
    split <;> rfl

theorem transitions_of_frame (hs : ∃ g, s.aspect = .transitions g) {t : ConditionTable} (h : Session.Frame t s s') : ∃ g, s'.aspect = .transitions g := by
  obtain ⟨g, hg⟩ := hs
  exact Aspect.eq_transitions_of_label (hg ▸ h.label)

/-- A copy notes the move of its transition, and changes the state to its target if the condition of the transition
holds. -/
theorem shifts_stateCopy (hs : ∃ g, s.aspect = .transitions g) (hmax : ctx.table.maxState ≠ 0) {node : Option Nat}
    (hnode : ∀ n, node = some n → ∃ b, ctx.module.stmt n = .ok (.block b) ∧ b.kind ≠ .module) {tr : Transition}
    {copy : Comb.Block} (h : Runs ctx (stateCopy node tr) s copy s') :
    s'.Notes (tr.source, tr.target) ∧ ∀ {V : Type} (I : Interpretation V) (ρ : Valuation V),
      Shifts I ρ ctx.table.space (inlined copy) (moved I ρ [tr]) := by
  obtain ⟨s₁, hframe, h₁⟩ := runs_stateCopy_bare (fun hb hkind => runs_enterBlock_silent (.inr hs) hb hkind) hnode h
  obtain ⟨b, s₂, hassign, hsettled⟩ := runs_bind.1 h₁
  obtain ⟨g, hg⟩ := transitions_of_frame hs hframe
  obtain ⟨hg', rfl⟩ := runs_assignState hg hmax hassign
  obtain ⟨rfl, rfl⟩ := runs_settled.1 hsettled
  rw [hg']
  refine ⟨⟨_, hg', g.mem_edges_add _ _⟩, ?_⟩
  intro V I ρ e he
  rw [finalAll_settled, updateDefaults_body _ _ I ρ e.1 (controlled_stateSignals e he)]
  exact (if_pos rfl).trans ((Comb.Block.body_of I ρ e.1 none _).trans
    (shifts_change ctx.table.space tr ctx.table.space.width e he))

theorem shifts_copiesFor (hmax : ctx.table.maxState ≠ 0) {node : Option Nat}
    (hnode : ∀ n, node = some n → ∃ b, ctx.module.stmt n = .ok (.block b) ∧ b.kind ≠ .module) {trs : List Transition}
    {s s' : Session} (hs : ∃ g, s.aspect = .transitions g) {copies : List Comb.Block}
    (h : Runs ctx (copiesFor node trs) s copies s') :
    (∀ tr ∈ trs, s'.Notes (tr.source, tr.target)) ∧ ∀ {V : Type} (I : Interpretation V) (ρ : Valuation V),
      Shifts I ρ ctx.table.space (copies.flatMap inlined) (moved I ρ trs) := by
  induction trs generalizing s s' copies with
  | nil =>
    rw [(runs_pure.1 h).1]
    exact ⟨by simp, fun _ _ => .nil⟩
  | cons tr trs ih =>
    obtain ⟨copy, s₁, hcopy, h₁⟩ := runs_bind.1 h
    obtain ⟨rest, s₂, hrest, h₂⟩ := runs_bind.1 h₁
    have hs₁ := transitions_of_frame hs (Framed.stateCopy node tr _ _ _ _ rfl hcopy)
    obtain ⟨hnotes, hshift⟩ := shifts_stateCopy hs hmax hnode hcopy
    obtain ⟨hnotes', hshift'⟩ := ih hs₁ hrest
    obtain ⟨rfl, rfl⟩ := runs_pure.1 h₂
    refine ⟨List.forall_mem_cons.2 ⟨hnotes.of_frame (Framed.copiesFor node trs _ _ _ _ rfl hrest), hnotes'⟩, ?_⟩
    intro V I ρ
    have hshifts : Shifts I ρ ctx.table.space (inlined copy ++ rest.flatMap inlined) (moved I ρ (tr :: trs)) := by
      have happend := (hshift I ρ).append (hshift' I ρ)
      rwa [← moved_append, List.singleton_append] at happend
    split
    · rename_i hempty
      rwa [inlined, if_pos hempty, List.nil_append] at hshifts
    · exact hshifts

/-- Leaving the segment inside one with the states `P` changes the state by itself. -/
def Changes (ctx : Context) (seg : Segment) (P : List Nat) : Prop :=
  ctx.table.maxState ≠ 0 ∧ Segment.sameStates seg.states P = false ∧
    (seg.states.length = 1 ∨ ∃ n b, seg.block = some n ∧ ctx.module.stmt n = .ok (.block b) ∧ b.kind = .conditional)

theorem runs_changesState {seg : Segment} {P : List Nat} {c : Bool} (h : Runs ctx (changesState seg P) s c s') :
    c = true ↔ Changes ctx seg P := by
  obtain ⟨max, s₁, hmax, h₁⟩ := runs_bind.1 h
  obtain ⟨rfl, rfl⟩ := runs_maxState.1 hmax
  unfold Changes
  split at h₁
  · rename_i hzero
    rw [(runs_pure.1 h₁).1]
    simp [hzero]
  · rename_i hzero
    split at h₁
    · rename_i hsame
      rw [(runs_pure.1 h₁).1]
      simp [hsame]
    · rename_i hsame
      obtain ⟨b, s₂, hb, h₂⟩ := runs_bind.1 h₁
      rw [(runs_pure.1 h₂).1]
      have hkind : (b.any fun b => decide (b.kind = .conditional)) = true ↔
          ∃ n b, seg.block = some n ∧ ctx.module.stmt n = .ok (.block b) ∧ b.kind = .conditional := by
        rw [Option.any_eq_true]
        constructor
        · rintro ⟨b', hb', hkind⟩
          obtain ⟨n, hn, hstmt⟩ := (blockOf_eq_some hb).1 hb'
          exact ⟨n, b', hn, hstmt, of_decide_eq_true hkind⟩
        · rintro ⟨n, b', hn, hstmt, hkind⟩
          exact ⟨b', (blockOf_eq_some hb).2 ⟨n, hn, hstmt⟩, decide_eq_true hkind⟩
      rw [Bool.or_eq_true, hkind]
      simp [hzero, hsame]

theorem controlled_of_label (hs : ∃ g, s.aspect = .transitions g) {sp : StateSpace} {e : String × (Nat → V)}
    (he : e ∈ stateSignals I ρ sp) (a : Aspect) (ha : a.label = s.aspect.label) : Controlled a.isControl e.1 := by
  obtain ⟨g, hg⟩ := hs
  obtain ⟨g', rfl⟩ := Aspect.eq_transitions_of_label (hg ▸ ha)
  exact controlled_stateSignals e he

/-- Copies change the state in the state in which the segment is entered, after what its body does. -/
theorem shifts_withCopies (hs : ∃ g, s.aspect = .transitions g) {k : Nat} (hk : ctx.table.space.Holds I ρ k)
    {seg : Segment} {segs : List Segment} (hstates : Schedule.StatesFit ctx.table.maxState seg segs) {P : List Nat}
    (hP : k ∈ P) {body : Comb.Block} {copies : List Comb.Block} {c q : Option Nat}
    (hcopies : Shifts I ρ ctx.table.space (copies.flatMap inlined) c)
    (hbody : ∀ e ∈ stateSignals I ρ ctx.table.space,
      (if Cond.holds I ρ body.guard then body.body I ρ e.1 else none) = q.map e.2)
    (hsingle : seg.states.length = 1 →
      (∀ n b, seg.block = some n → ctx.module.stmt n = .ok (.block b) → b.guard = none) →
      (Cond.holds I ρ body.guard = true ↔ seg.firstState? = some k)) {ss : List Comb.Stmt}
    (h : Runs ctx (withCopies seg (some P) body copies) s ss s') :
    Shifts I ρ ctx.table.space ss ((if seg.firstState? = some k then c else none).or q) := by
  intro e he
  rw [finalAll_withCopies (controlled_of_label hs he) hk hstates hP hsingle h, hbody e he, hcopies e he, Option.map_or]
  split <;> rfl

/-- The copies of a segment that is entered in the state `x` note the moves of its transitions, and change the state as
these say. -/
theorem shifts_stateCopies (hs : ∃ g, s.aspect = .transitions g) {i x : Nat} {seg : Segment}
    (hseg : ctx.schedule.segment i = .ok seg) (hfirst : seg.firstState? = some x)
    (hnode : ∀ n, seg.block = some n → ∃ b, ctx.module.stmt n = .ok (.block b) ∧ b.kind ≠ .module) {P : List Nat}
    {copies : List Comb.Block} (h : Runs ctx (stateCopies i seg (some P)) s copies s') :
    ¬Changes ctx seg P ∧ copies = [] ∨ Changes ctx seg P ∧ ∃ trs s₁ s₂,
      Runs ctx (transitionsFrom x ctx.schedule.segments.size i) s₁ trs s₂ ∧
      (∀ tr ∈ trs, s'.Notes (tr.source, tr.target)) ∧ ∀ {V : Type} (I : Interpretation V) (ρ : Valuation V),
        Shifts I ρ ctx.table.space (copies.flatMap inlined) (moved I ρ trs) := by
  obtain ⟨changes, s₁, hchanges, h₁⟩ := runs_bind.1 h
  have hframe := Framed.changesState seg P _ _ _ _ rfl hchanges
  have hiff := runs_changesState hchanges
  split at h₁
  · rename_i hc
    obtain ⟨trs, s₂, htrs, h₂⟩ := runs_bind.1 h₁
    have hs₂ := transitions_of_frame hs (hframe.trans (Framed.transitions i _ _ _ _ rfl htrs))
    obtain ⟨seg', s₃, hsegment, h₃⟩ := runs_bind.1 htrs
    obtain ⟨hseg', rfl⟩ := runs_segment.1 hsegment
    cases hseg.symm.trans hseg'
    rw [hfirst] at h₃
    have hchange := hiff.1 hc
    exact .inr ⟨hchange, trs, _, s₂, runs_read_bind.1 h₃, shifts_copiesFor hchange.1 hnode hs₂ h₂⟩
  · rename_i hc
    exact .inl ⟨fun hchange => hc (hiff.2 hchange), (runs_pure.1 h₁).1⟩

end Copies

theorem quiet_nil : Quiet ctx [] :=
  ⟨fun _ _ _ _ _ _ _ _ h => absurd h List.not_mem_nil, List.not_mem_nil,
    fun _ _ _ _ _ _ _ _ _ _ h => absurd h List.not_mem_nil⟩

namespace BlockRuns

variable {i n : Nat} {os : List Outline} {seg : Segment} {states : Option (List Nat)} {ss : List Comb.Stmt}
  (r : BlockRuns ctx states i n os seg s ss s') {e : Nat × Nat}

theorem notes_of_copies (h : r.s₄.Notes e) : s'.Notes e :=
  (h.of_frame (Framed.withCopies _ _ _ _ _ _ _ _ rfl r.main_runs)).of_frame
    (Framed.lowerEpilog _ _ _ _ _ _ _ rfl r.after_runs)

theorem notes_of_inner (h : r.s₃.Notes e) : s'.Notes e := by
  have hpop : Session.Notes { r.s₃ with cycles := r.s₃.cycles.tail } e := h
  exact r.notes_of_copies (hpop.of_frame (Framed.stateCopies _ _ _ _ _ _ _ rfl r.copies_runs))

/-- What is lowered below and as copies has the transitions as its class of signals, too. -/
theorem transitions_inner (hs : ∃ g, s.aspect = .transitions g) :
    (∃ g, ({ r.s₂ with cycles := r.timing.cycle :: r.s₂.cycles } : Session).aspect = .transitions g) ∧
      ∃ g, ({ r.s₃ with cycles := r.s₃.cycles.tail } : Session).aspect = .transitions g := by
  obtain ⟨g, hg⟩ := hs
  obtain ⟨_, hs₂, hs₃, _, _⟩ := r.labels
  rw [hg] at hs₂ hs₃
  exact ⟨Aspect.eq_transitions_of_label hs₂, Aspect.eq_transitions_of_label hs₃⟩

end BlockRuns

section Segments

variable {V : Type} {I : Interpretation V} {ρ : Valuation V} (hwf : ctx.module.WellFormed) {k : Nat}
  (hk : ctx.table.space.Holds I ρ k) {P : List Nat} (hP : k ∈ P) (hs : ∃ g, s.aspect = .transitions g)
  {ss : List Comb.Stmt}

include hwf hk hP hs

/-- Only its copies change the state in a leaf. -/
theorem shifts_leaf {i : Nat} {seg : Segment} (h : Schedule.LeafFits ctx.module ctx.schedule ctx.table.maxState i seg)
    (hss : Runs ctx (lowerSegment (some P) (.node i [])) s ss s') :
    ∃ copies s₁ s₂, (∃ g, s₁.aspect = .transitions g) ∧ Runs ctx (stateCopies i seg (some P)) s₁ copies s₂ ∧
      (∀ e, s₂.Notes e → s'.Notes e) ∧ ∀ c, Shifts I ρ ctx.table.space (copies.flatMap inlined) c →
        Shifts I ρ ctx.table.space ss (if seg.firstState? = some k then c else none) := by
  obtain ⟨guard, t, body, copies, s₁, s₂, hguard, _, hbody, hcopies, hmain⟩ :=
    runs_lowerSegment_leaf h.segment h.kind h.prolog h.epilog hss
  have hs₁ := transitions_of_frame hs (Framed.freeStmts _ _ _ _ _ _ _ rfl hbody)
  have hs₂ := transitions_of_frame hs₁ (Framed.stateCopies _ _ _ _ _ _ _ rfl hcopies)
  refine ⟨copies, s₁, s₂, hs₁, hcopies, fun e he => he.of_frame (Framed.withCopies _ _ _ _ _ _ _ _ rfl hmain), ?_⟩
  intro c hc
  obtain ⟨lowered, s₄, hlower, rfl, _⟩ := runs_freeStmts hbody
  have hs₀ : ∃ g, ({ s with cycles := Option.or t.cycle s.cycles.head?.join :: s.cycles } : Session).aspect =
      .transitions g := hs
  obtain ⟨g, hg⟩ := transitions_of_frame hs₀ (Framed.lowerOutlines _ _ _ _ _ rfl hlower)
  have hidle := idle_leaf quiet_nil hwf h.stmts h.inside (.inl hs₀) hlower
  have hholds := narrow_holds I ρ hk h.states (fun _ hP' => Option.some.inj hP' ▸ hP) (by simp) hguard
  have hwith := shifts_withCopies (q := none) hs₂ hk h.states hP hc ?_ ?_ hmain
  · rwa [Option.or_none] at hwith
  · intro e he
    rw [hg, updateDefaults_body _ _ I ρ e.1 (controlled_stateSignals e he), Comb.Block.body_of,
      hidle.finalAll_eq_none I ρ e.1, ite_self]
    rfl
  · intro hsingle _
    rw [updateDefaults_guard, Comb.Block.of, hholds, decide_eq_true_eq, mem_states_iff hsingle]

/-- In the segment of a block the segments below it change the state, if it is taken, and then its copies. -/
theorem shifts_block {i n : Nat} {os : List Outline} {b : Control.Block} {seg : Segment} {segs : List Segment}
    (h : Schedule.BlockFits ctx.module ctx.schedule ctx.table.maxState i os n b seg segs) (hmodule : b.kind ≠ .module)
    (r : BlockRuns ctx (some P) i n os seg s ss s') {c q : Option Nat}
    (hc : Shifts I ρ ctx.table.space (r.copies.flatMap inlined) c)
    (hinner : ctx.schedule.Taken I ρ ctx.module k i → Shifts I ρ ctx.table.space r.inner q)
    (houter : ¬ctx.schedule.Taken I ρ ctx.module k i → q = none) :
    Shifts I ρ ctx.table.space ss ((if seg.firstState? = some k then c else none).or q) := by
  have hs₁ := transitions_of_frame hs (Framed.lowerProlog _ _ _ _ _ _ _ rfl r.before_runs)
  have hentry : r.entry = [] := runs_enterBlock_silent (.inr hs₁) h.stmt hmodule r.entry_runs
  have htaken := r.full_iff h hk (fun _ hP' => Option.some.inj hP' ▸ hP) (by simp)
  intro e he
  rw [r.finalAll_parts h hwf hk hP quiet_nil (.inl (.inr hs)) (controlled_of_label hs he), hc e he, hentry,
    Comb.Stmt.finalAll, Option.or_none, Option.map_or]
  by_cases ht : ctx.schedule.Taken I ρ ctx.module k i
  · rw [if_pos (htaken.2 ht), hinner ht e he]
    split <;> rfl
  · rw [if_neg fun hfull => ht (htaken.1 hfull), houter ht]
    split <;> rfl

end Segments

theorem runs_enterBlock_transitions {g : TransitionGraph} (hs : s.aspect = .transitions g)
    (hmax : ctx.table.maxState ≠ 0) {i : Nat} {b : Control.Block} (hb : ctx.module.stmt i = .ok (.block b))
    (hkind : b.kind = .module) {ss : List Comb.Stmt} (h : Runs ctx (enterBlock i) s ss s') :
    ss = assigns [.flag (Name.enable Name.state) (.bool false)] := by
  have h₁ := runs_aspect_bind.1 h
  rw [hs] at h₁
  obtain ⟨n, s₃, hn, h₃⟩ := runs_bind.1 (runs_kind?_bind hb h₁)
  rw [(runs_maxState.1 hn).1, if_neg (by simp [hkind, hmax])] at h₃
  exact (runs_pure.1 h₃).1

/-- What the tree leaves on the enable of the state register and on its next value, if the segments below the root change
the state to `q`. -/
theorem run_of_shifts {V : Type} {I : Interpretation V} {ρ : Valuation V} (hwf : ctx.module.WellFormed) {k : Nat}
    (hk : ctx.table.space.Holds I ρ k) (hmax : ctx.table.maxState ≠ 0) {i n : Nat} {os : List Outline}
    {b : Control.Block} {seg : Segment} {segs : List Segment}
    (h : Schedule.BlockFits ctx.module ctx.schedule ctx.table.maxState i os n b seg segs) (hmodule : b.kind = .module)
    (htaken : ctx.schedule.Taken I ρ ctx.module k i) {g : TransitionGraph} (hs : s.aspect = .transitions g)
    {ss : List Comb.Stmt} (r : BlockRuns ctx none i n os seg s ss s') {q : Option Nat}
    (hq : Shifts I ρ ctx.table.space r.inner q) :
    (updateDefaults s'.aspect.isControl (.of none ss)).run I (fun _ => ρ) (Name.enable Name.state) =
        some (I.bit q.isSome) ∧
      (updateDefaults s'.aspect.isControl (.of none ss)).run I (fun _ => ρ) (Name.nextValue Name.state) =
        q.map fun x => (ctx.table.space.literal x).eval I ρ := by
  have hne : Name.enable Name.state ≠ Name.nextValue Name.state := by decide
  obtain ⟨g₁, hg₁⟩ := transitions_of_frame ⟨g, hs⟩ (Framed.lowerProlog _ _ _ _ _ _ _ rfl r.before_runs)
  have hentry := runs_enterBlock_transitions hg₁ hmax h.stmt hmodule r.entry_runs
  have hvals : ∀ e ∈ stateSignals I ρ ctx.table.space,
      (updateDefaults s'.aspect.isControl (.of none ss)).run I (fun _ => ρ) e.1 =
        (q.map e.2).or (Comb.Stmt.finalAll I ρ e.1 (assigns [.flag (Name.enable Name.state) (.bool false)])) := by
    intro e he
    rw [r.run_root h hwf hk htaken quiet_nil (.inl (.inr ⟨g, hs⟩)) (controlled_of_label ⟨g, hs⟩ he), hq e he, hentry]
  constructor
  · rw [hvals _ List.mem_cons_self]
    cases q with
    | none => simp [assigns, Comb.Stmt.finalAll, Comb.Stmt.final, Assign.final, Assign.flag, Assign.of, Drive.final]
    | some x => rfl
  · rw [hvals (Name.nextValue Name.state, _) (List.mem_cons_of_mem _ List.mem_cons_self)]
    cases q with
    | none => simp [assigns, Comb.Stmt.finalAll, Comb.Stmt.final, Assign.final, Assign.flag, Assign.of, hne]
    | some x => rfl

section Paths

/-- One step of the way from a segment that is left to the next segment of a sequence around it. -/
theorem transitionsFrom_cases {source steps i : Nat} {seg : Segment} (hseg : ctx.schedule.segment i = .ok seg)
    {trs : List Transition} {s s' : Session} (h : Runs ctx (transitionsFrom source (steps + 1) i) s trs s') :
    seg.parent = none ∧ trs = [] ∨ ∃ p P, seg.parent = some p ∧ ctx.schedule.segment p = .ok P ∧
      (P.kind = .mutex ∧ Runs ctx (transitionsFrom source steps p) s trs s' ∨
        P.kind ≠ .mutex ∧ ∃ u, ctx.table.timing i = .ok u ∧
          ((∃ next N, P.children[(P.children.idxOf? i).getD 0 + 1]? = some next ∧ ctx.schedule.segment next = .ok N ∧
            trs = N.firstState?.toList.map fun x => ⟨source, x, u.exit⟩) ∨
          (P.children[(P.children.idxOf? i).getD 0 + 1]? = none ∧ ∃ again rest s₁ s₂,
            (∀ tr ∈ again, ∃ x, P.firstState? = some x ∧ tr = ⟨source, x, u.exit⟩) ∧
            Runs ctx (transitionsFrom source steps p) s₁ rest s₂ ∧ trs = again ++ rest))) := by
  obtain ⟨seg', s₁, hsegment, h₁⟩ := runs_bind.1 h
  obtain ⟨hseg', rfl⟩ := runs_segment.1 hsegment
  cases hseg.symm.trans hseg'
  cases hparent : seg.parent with
  | none =>
    rw [hparent] at h₁
    exact .inl ⟨rfl, (runs_pure.1 h₁).1⟩
  | some p =>
    rw [hparent] at h₁
    obtain ⟨P, s₂, hsegment', h₂⟩ := runs_bind.1 h₁
    obtain ⟨hP, rfl⟩ := runs_segment.1 hsegment'
    refine .inr ⟨p, P, rfl, hP, ?_⟩
    split at h₂
    · rename_i hkind
      exact .inl ⟨hkind, h₂⟩
    · rename_i hkind
      obtain ⟨u, s₃, htiming, h₃⟩ := runs_bind.1 h₂
      obtain ⟨hu, rfl⟩ := runs_timing.1 htiming
      refine .inr ⟨hkind, u, hu, ?_⟩
      dsimp only at h₃
      split at h₃
      · rename_i next hnext
        obtain ⟨N, s₄, hN, h₄⟩ := runs_bind.1 h₃
        exact .inl ⟨next, N, hnext, (runs_segment.1 hN).1, (runs_pure.1 h₄).1⟩
      · rename_i hnext
        refine .inr ⟨hnext, ?_⟩
        obtain ⟨b, s₄, hb, h₄⟩ := runs_bind.1 h₃
        obtain ⟨rest, s₅, hrest, h₅⟩ := runs_bind.1 h₄
        refine ⟨_, rest, _, _, ?_, hrest, (runs_pure.1 h₅).1⟩
        intro tr htr
        split at htr
        · obtain ⟨x, hx, rfl⟩ := List.mem_map.1 htr
          exact ⟨x, by simpa using hx, rfl⟩
        · cases htr

/-- The last transition out of the segment at `i` leads to the state `x` under the condition `cond`. -/
def LeavesTo (ctx : Context) (i x : Nat) (cond : Cond) : Prop :=
  ∀ source steps, i < steps → ∀ trs s s', Runs ctx (transitionsFrom source steps i) s trs s' →
    ∃ earlier, trs = earlier ++ [⟨source, x, cond⟩]

/-- The last segment of a sequence leads to where the sequence does, and so does each branch. -/
theorem LeavesTo.child {p j x : Nat} {seg P : Segment} {cond : Cond} (hseg : ctx.schedule.segment j = .ok seg)
    (hparent : seg.parent = some p) (hlt : p < j) (hP : ctx.schedule.segment p = .ok P)
    (hlast : P.kind = .mutex ∨ P.children[(P.children.idxOf? j).getD 0 + 1]? = none) (h : LeavesTo ctx p x cond) :
    LeavesTo ctx j x cond := by
  intro source steps hj trs s s' hrun
  obtain ⟨steps, rfl⟩ := Nat.exists_eq_add_one_of_ne_zero (Nat.ne_zero_of_lt hj)
  rcases transitionsFrom_cases hseg hrun with ⟨hnone, _⟩ | ⟨p', P', hparent', hP', hrest⟩
  · rw [hparent] at hnone
    cases hnone
  · cases hparent.symm.trans hparent'
    cases hP.symm.trans hP'
    rcases hrest with ⟨_, hrest⟩ | ⟨hkind, u, hu, hrest⟩
    · exact h source steps (by omega) trs s s' hrest
    · rcases hrest with ⟨next, N, hnext, _⟩ | ⟨_, again, rest, s₁, s₂, _, hrest, rfl⟩
      · rw [hlast.resolve_left hkind] at hnext
        cases hnext
      · obtain ⟨earlier, rfl⟩ := h source steps (by omega) rest s₁ s₂ hrest
        exact ⟨again ++ earlier, (List.append_assoc _ _ _).symm⟩

theorem idxOf?_getD_eq {pre post : List Nat} {c : Nat} (h : c ∉ pre) :
    ((pre ++ c :: post).idxOf? c).getD 0 = pre.length := by
  induction pre with
  | nil => simp [List.idxOf?_cons]
  | cons a pre ih =>
    rw [List.mem_cons, not_or] at h
    have hsome : ((pre ++ c :: post).idxOf? c).isSome := by simp
    obtain ⟨j, hj⟩ := Option.isSome_iff_exists.1 hsome
    have hpos := ih h.2
    rw [hj] at hpos
    rw [List.cons_append, List.idxOf?_cons, hj]
    simpa [Ne.symm h.1] using hpos

/-- A segment with a successor in its sequence leads there when it is left. -/
theorem LeavesTo.of_successor {p c next x : Nat} {P C N : Segment} {u : Timing} (hP : ctx.schedule.segment p = .ok P)
    (hkind : P.kind = .seq) (hC : ctx.schedule.segment c = .ok C) (hN : ctx.schedule.segment next = .ok N)
    {pre post : List Nat} (hchildren : P.children = pre ++ c :: next :: post) (hnodup : P.children.Nodup)
    (hparent : C.parent = some p) (hx : N.firstState? = some x) (hu : ctx.table.timing c = .ok u) :
    LeavesTo ctx c x u.exit := by
  intro source steps hj trs s s' hrun
  obtain ⟨steps, rfl⟩ := Nat.exists_eq_add_one_of_ne_zero (Nat.ne_zero_of_lt hj)
  have hnext : P.children[(P.children.idxOf? c).getD 0 + 1]? = some next := by
    rw [hchildren] at hnodup ⊢
    have hpre : c ∉ pre := fun hc => (List.nodup_cons.1 (List.nodup_middle.1 hnodup)).1 (List.mem_append_left _ hc)
    rw [idxOf?_getD_eq hpre]
    simp
  rcases transitionsFrom_cases hC hrun with ⟨hnone, _⟩ | ⟨p', P', hparent', hP', hrest⟩
  · rw [hparent] at hnone
    cases hnone
  · cases hparent.symm.trans hparent'
    cases hP.symm.trans hP'
    rcases hrest with ⟨hmutex, _⟩ | ⟨_, u', hu', hrest⟩
    · rw [hkind] at hmutex
      cases hmutex
    · cases hu.symm.trans hu'
      rcases hrest with ⟨next', N', hnext', hN', rfl⟩ | ⟨hnone, _⟩
      · cases hnext.symm.trans hnext'
        cases hN.symm.trans hN'
        exact ⟨[], by rw [hx]; rfl⟩
      · rw [hnext] at hnone
        cases hnone

end Paths

end Lowering

end Sequencer
