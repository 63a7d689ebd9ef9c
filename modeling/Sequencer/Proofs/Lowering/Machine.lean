import Sequencer.Proofs.Lowering.Reachability

set_option autoImplicit false

/-!
# The state machine

Whatever the signals are, one cycle either leaves the state as it is or loads a state of the module, over a move that is
noted. So a run of any length that starts in state 0 stays in the states of the module and takes noted moves only.
-/

namespace Sequencer

open Control

namespace StateSpace

variable {V : Type} (I : Interpretation V) (sp : StateSpace)

/-- What the register holds in a state. -/
def value (k : Nat) : V := I.lit ⟨k, sp.type⟩

/-- Tests tell the states of the module apart. -/
def Distinguished : Prop := ∀ k s, k ≤ sp.maxState → s ≤ sp.maxState →
  I.truth (I.bin .eq (sp.value I k) (sp.value I s)) = decide (s = k)

/-- The register holds `v`, and all else is as given. -/
def load (ρ : Valuation V) (v : V) : Valuation V where
  operand o := if o = ⟨Name.state, .register, .held, sp.type⟩ then v else ρ.operand o
  wire := ρ.wire

/-- The register after a cycle in which it holds `v` and all else is as given. If it is enabled, it takes the next value,
and it is undefined if no next value is driven. -/
def cycle (tree : Comb.Block) (v : V) (ρ : Valuation V) : Option V :=
  let σ := tree.run I fun _ => sp.load ρ v
  if (σ (Name.enable Name.state)).any I.truth then σ (Name.nextValue Name.state) else some v

/-- In the state `k`, whatever all else is, the state register is not enabled, or its next value is that of a state to
which there is an edge. -/
def FollowsIn (tree : Comb.Block) (edges : List (Nat × Nat)) (k : Nat) : Prop := ∀ ρ : Valuation V,
  tree.run I (fun _ => sp.load ρ (sp.value I k)) (Name.enable Name.state) = some (I.bit false) ∨
  ∃ x ≤ sp.maxState, (k, x) ∈ edges ∧
    tree.run I (fun _ => sp.load ρ (sp.value I k)) (Name.enable Name.state) = some (I.bit true) ∧
    tree.run I (fun _ => sp.load ρ (sp.value I k)) (Name.nextValue Name.state) = some (sp.value I x)

variable {I sp}

theorem Distinguished.holds (h : sp.Distinguished I) {k : Nat} (hk : k ≤ sp.maxState) {ρ : Valuation V}
    (hρ : ρ.operand ⟨Name.state, .register, .held, sp.type⟩ = sp.value I k) : sp.Holds I ρ k := by
  refine ⟨hk, ?_⟩
  intro s hs
  change I.truth (I.bin .eq (ρ.operand ⟨Name.state, .register, .held, sp.type⟩) (sp.value I s)) = decide (s = k)
  rw [hρ]
  exact h k s hk hs

theorem Distinguished.value_inj (h : sp.Distinguished I) {x y : Nat} (hx : x ≤ sp.maxState) (hy : y ≤ sp.maxState)
    (heq : sp.value I x = sp.value I y) : x = y := by
  have hxy := h x y hx hy
  rw [heq, h y y hy hy, decide_eq_true rfl] at hxy
  exact (of_decide_eq_true hxy.symm).symm

theorem distinguished_integers (sp : StateSpace) : sp.Distinguished .integers := by
  intro k s _ _
  change ((if (k : Int) = s then (1 : Int) else 0) != 0) = decide (s = k)
  by_cases h : s = k
  · simp [h]
  · have hne : (k : Int) ≠ s := by omega
    simp [h, hne]

theorem FollowsIn.cycle {tree : Comb.Block} {edges : List (Nat × Nat)} {k : Nat} (h : sp.FollowsIn I tree edges k)
    (hk : k ≤ sp.maxState) (ρ : Valuation V) :
    ∃ x ≤ sp.maxState, sp.cycle I tree (sp.value I k) ρ = some (sp.value I x) := by
  rcases h ρ with hen | ⟨x, hx, _, hen, hnext⟩
  · exact ⟨k, hk, by simp [StateSpace.cycle, hen]⟩
  · exact ⟨x, hx, by simp [StateSpace.cycle, hen, hnext]⟩

/-- What holds of each cycle holds of a run. -/
theorem FollowsIn.run {tree : Comb.Block} {edges : List (Nat × Nat)}
    (h : ∀ k ≤ sp.maxState, sp.FollowsIn I tree edges k) (ρs : List (Valuation V)) {k : Nat} (hk : k ≤ sp.maxState) :
    ∃ x ≤ sp.maxState, ρs.foldlM (sp.cycle I tree) (sp.value I k) = some (sp.value I x) := by
  induction ρs generalizing k with
  | nil => exact ⟨k, hk, rfl⟩
  | cons ρ ρs ih =>
    obtain ⟨x, hx, hcycle⟩ := (h k hk).cycle hk ρ
    obtain ⟨y, hy, hrest⟩ := ih hx
    exact ⟨y, hy, by rw [List.foldlM_cons, hcycle]; exact hrest⟩

end StateSpace

namespace Lowering

open Lower Comb

variable {ctx : Context} {V : Type} {I : Interpretation V} {ρ : Valuation V}

theorem exists_of_moved {trs : List Transition} {x : Nat} (h : moved I ρ trs = some x) :
    ∃ tr ∈ trs, tr.target = x ∧ Cond.holds I ρ tr.cond = true := by
  induction trs with
  | nil => cases h
  | cons tr trs ih =>
    rw [moved, Option.or_eq_some_iff] at h
    rcases h with h | ⟨_, h⟩
    · obtain ⟨tr', htr', hx⟩ := ih h
      exact ⟨tr', List.mem_cons_of_mem _ htr', hx⟩
    · split at h
      · exact ⟨tr, List.mem_cons_self, Option.some.inj h, ‹_›⟩
      · cases h

theorem Scheduled.firstState_le (h : Scheduled ctx) {j x : Nat} {seg : Segment}
    (hseg : ctx.schedule.segment j = .ok seg) (hx : seg.firstState? = some x) : x ≤ ctx.table.maxState := by
  obtain ⟨o, rfl, _, ho⟩ := h.consistent.exists_part (h.mem_preorder hseg)
  exact (ho.states hseg).2.2 x (List.mem_of_head? hx)

/-- All transitions of a segment start where it is entered and lead to states of the module. -/
theorem Scheduled.transitionsFrom_within (h : Scheduled ctx) {source steps i : Nat} {trs : List Transition}
    {s s' : Session} (hrun : Runs ctx (transitionsFrom source steps i) s trs s') :
    ∀ tr ∈ trs, tr.source = source ∧ tr.target ≤ ctx.table.maxState := by
  induction steps generalizing i trs s s' with
  | zero =>
    rw [(runs_pure.1 hrun).1]
    exact fun tr htr => absurd htr List.not_mem_nil
  | succ steps ih =>
    obtain ⟨seg, s₁, hsegment, _⟩ := runs_bind.1 hrun
    rcases transitionsFrom_cases (runs_segment.1 hsegment).1 hrun with ⟨_, rfl⟩ | ⟨p, P, _, hP, hrest⟩
    · exact fun tr htr => absurd htr List.not_mem_nil
    · rcases hrest with ⟨_, hrest⟩ | ⟨_, u, _, ⟨next, N, _, hN, rfl⟩ | ⟨_, again, rest, s₂, s₃, hagain, hrest, rfl⟩⟩
      · exact ih hrest
      · intro tr htr
        obtain ⟨x, hx, rfl⟩ := List.mem_map.1 htr
        exact ⟨rfl, h.firstState_le hN (by simpa using hx)⟩
      · intro tr htr
        rcases List.mem_append.1 htr with htr | htr
        · obtain ⟨x, hx, rfl⟩ := hagain tr htr
          exact ⟨rfl, h.firstState_le hP hx⟩
        · exact ih hrest tr htr

section Caused

variable (ctx I ρ)

/-- A segment at or below the outline is entered in the state `k` and leads to `x`: its transitions are noted, and the
blocks around it from the outline on are entered. -/
inductive Caused (s : Session) (k x : Nat) : Outline → Prop
  | itself {o : Outline} {seg : Segment} {trs : List Transition} {s₁ s₂ : Session}
    (hseg : ctx.schedule.segment o.index = .ok seg) (hfirst : seg.firstState? = some k)
    (hruns : Runs ctx (transitionsFrom k ctx.schedule.segments.size o.index) s₁ trs s₂)
    (hnotes : ∀ tr ∈ trs, s.Notes (tr.source, tr.target)) (hmoved : moved I ρ trs = some x) : Caused s k x o
  | inside {i : Nat} {o : Outline} {os : List Outline} (hentered : ctx.schedule.Entered I ρ ctx.module i) (ho : o ∈ os)
    (h : Caused s k x o) : Caused s k x (.node i os)

variable {ctx I ρ} {k x : Nat} {s s' : Session}

theorem Caused.mono {o : Outline} (h : Caused ctx I ρ s k x o) (hnotes : ∀ e, s.Notes e → s'.Notes e) :
    Caused ctx I ρ s' k x o := by
  induction h with
  | itself hseg hfirst hruns hnoted hmoved => exact .itself hseg hfirst hruns (fun tr htr => hnotes _ (hnoted tr htr)) hmoved
  | inside hentered ho _ ih => exact .inside hentered ho ih

theorem Caused.noted (hsched : Scheduled ctx) {o : Outline} (h : Caused ctx I ρ s k x o) :
    x ≤ ctx.table.maxState ∧ s.Notes (k, x) := by
  induction h with
  | itself _ _ hruns hnotes hmoved =>
    obtain ⟨tr, htr, rfl, _⟩ := exists_of_moved hmoved
    obtain ⟨hsource, hle⟩ := hsched.transitionsFrom_within hruns tr htr
    exact ⟨hle, hsource ▸ hnotes tr htr⟩
  | inside _ _ _ ih => exact ih

theorem caused_stateCopies (hs : ∃ g, s.aspect = .transitions g) {o : Outline} {seg : Segment}
    (hseg : ctx.schedule.segment o.index = .ok seg) (hne : seg.states ≠ [])
    (hnode : ∀ n, seg.block = some n → ∃ b, ctx.module.stmt n = .ok (.block b) ∧ b.kind ≠ .module) {P : List Nat}
    {copies : List Comb.Block} (h : Runs ctx (stateCopies o.index seg (some P)) s copies s') :
    ∃ c, Shifts I ρ ctx.table.space (copies.flatMap inlined) c ∧
      ∀ x, (if seg.firstState? = some k then c else none) = some x → Caused ctx I ρ s' k x o := by
  obtain ⟨y, ys, hy⟩ := List.exists_cons_of_ne_nil hne
  have hfirst : seg.firstState? = some y := by rw [Segment.firstState?, hy, List.head?_cons]
  rcases shifts_stateCopies hs hseg hfirst hnode h with ⟨_, rfl⟩ | ⟨_, trs, s₁, s₂, htrs, hnotes, hshifts⟩
  · refine ⟨none, .nil, ?_⟩
    intro x hx
    rw [ite_self] at hx
    cases hx
  · refine ⟨moved I ρ trs, hshifts I ρ, ?_⟩
    intro x hx
    split at hx
    · rename_i hk
      cases hfirst.symm.trans hk
      exact .itself hseg hfirst htrs hnotes hx
    · cases hx

theorem caused_lowerSegments {P : List Nat} {os : List Outline}
    (h : ∀ o ∈ os, ∀ s ss s', (∃ g, s.aspect = .transitions g) → Runs ctx (lowerSegment (some P) o) s ss s' →
      ∃ r, Shifts I ρ ctx.table.space ss r ∧ ∀ x, r = some x → Caused ctx I ρ s' k x o)
    {s s' : Session} (hs : ∃ g, s.aspect = .transitions g) {ss : List Comb.Stmt}
    (hss : Runs ctx (lowerSegments P os) s ss s') :
    ∃ r, Shifts I ρ ctx.table.space ss r ∧ ∀ x, r = some x → ∃ o ∈ os, Caused ctx I ρ s' k x o := by
  induction os generalizing s ss with
  | nil =>
    rw [(runs_pure.1 hss).1]
    exact ⟨none, .nil, fun x hx => by cases hx⟩
  | cons o os ih =>
    obtain ⟨ts, us, s₁, hts, hus, rfl⟩ := runs_lowerSegments_cons hss
    obtain ⟨r, hshifts, hcaused⟩ := h o List.mem_cons_self s ts s₁ hs hts
    have hs₁ := transitions_of_frame hs (Framed.lowerSegment _ _ _ _ _ _ rfl hts)
    obtain ⟨r', hshifts', hcaused'⟩ := ih (fun o' ho' => h o' (List.mem_cons_of_mem _ ho')) hs₁ hus
    have hlater := Framed.lowerSegments _ _ _ _ _ _ rfl hus
    refine ⟨r'.or r, hshifts.append hshifts', ?_⟩
    intro x hx
    rcases Option.or_eq_some_iff.1 hx with hx | ⟨_, hx⟩
    · obtain ⟨o', ho', h'⟩ := hcaused' x hx
      exact ⟨o', List.mem_cons_of_mem _ ho', h'⟩
    · exact ⟨o, List.mem_cons_self, (hcaused x hx).mono fun e he => he.of_frame hlater⟩

/-- In every state, a segment changes the state through itself or through a segment below it that is reached, or not at
all. -/
theorem caused_segment (hwf : ctx.module.WellFormed) (hk : ctx.table.space.Holds I ρ k) {o : Outline}
    (h : ctx.schedule.Consistent ctx.module ctx.table.maxState o) {seg : Segment}
    (hseg : ctx.schedule.segment o.index = .ok seg) (hparent : seg.parent ≠ none) {P : List Nat} (hP : k ∈ P)
    {s s' : Session} (hs : ∃ g, s.aspect = .transitions g) {ss : List Comb.Stmt}
    (hss : Runs ctx (lowerSegment (some P) o) s ss s') :
    ∃ r, Shifts I ρ ctx.table.space ss r ∧ ∀ x, r = some x → Caused ctx I ρ s' k x o := by
  induction h generalizing seg P s ss s' with
  | @leaf i seg h =>
    cases h.segment.symm.trans hseg
    obtain ⟨copies, s₁, s₂, hs₁, hcopies, hlater, hleaf⟩ := shifts_leaf hwf hk hP hs h hss
    obtain ⟨c, hshifts, hcaused⟩ := caused_stateCopies (k := k) (o := .node i []) hs₁ h.segment h.states.ne_nil
      (fun n hn => by rw [h.block] at hn; cases hn) hcopies
    exact ⟨_, hleaf c hshifts, fun x hx => (hcaused x hx).mono hlater⟩
  | @block i n b seg os segs h hos ih =>
    cases h.segment.symm.trans hseg
    obtain ⟨r⟩ := runs_lowerSegment_block h.segment h.not_leaf h.block hss
    obtain ⟨hs₂, hs₃⟩ := r.transitions_inner hs
    have hmodule : b.kind ≠ .module := fun hm => hparent (h.module.1 hm)
    have hnode : ∀ n', seg.block = some n' → ∃ b, ctx.module.stmt n' = .ok (.block b) ∧ b.kind ≠ .module := by
      intro n' hn
      cases h.block.symm.trans hn
      exact ⟨b, h.stmt, hmodule⟩
    obtain ⟨c, hshifts, hcaused⟩ := caused_stateCopies (k := k) (o := .node i os) hs₃ h.segment h.states.ne_nil hnode
      r.copies_runs
    have hinner : ∃ q, (ctx.schedule.Taken I ρ ctx.module k i → Shifts I ρ ctx.table.space r.inner q) ∧
        (¬ctx.schedule.Taken I ρ ctx.module k i → q = none) ∧
        ∀ x, q = some x → Caused ctx I ρ r.s₃ k x (.node i os) := by
      by_cases htaken : ctx.schedule.Taken I ρ ctx.module k i
      · have hmem := (h.taken_iff.1 htaken).1
        obtain ⟨q, hq, hqcaused⟩ := caused_lowerSegments (fun o ho s ss s' hs hss => by
          obtain ⟨e, he, hoe⟩ := h.child ho
          exact ih o ho hoe (by simp [h.parents e he]) hmem hs hss) hs₂ r.inner_runs
        refine ⟨q, fun _ => hq, fun hnot => absurd htaken hnot, ?_⟩
        intro x hx
        obtain ⟨o, ho, hin⟩ := hqcaused x hx
        exact .inside htaken.2 ho hin
      · exact ⟨none, fun ht => absurd ht htaken, fun _ => rfl, fun x hx => by cases hx⟩
    obtain ⟨q, hq, hqnone, hqcaused⟩ := hinner
    refine ⟨_, shifts_block hwf hk hP hs h hmodule r hshifts hq hqnone, ?_⟩
    intro x hx
    rcases Option.or_eq_some_iff.1 hx with hx | ⟨_, hx⟩
    · exact (hcaused x hx).mono fun _ => r.notes_of_copies
    · exact (hqcaused x hx).mono fun _ => r.notes_of_inner

variable (ctx) in
/-- A change from `k` goes to a state of the module, and is noted. -/
def Noted (s : Session) (k : Nat) (r : Option Nat) : Prop := ∀ x, r = some x → x ≤ ctx.table.maxState ∧ s.Notes (k, x)

variable (hsched : Scheduled ctx)

include hsched

/-- What the tree of the changes of state leaves in a state. -/
theorem run_caused (hk : ctx.table.space.Holds I ρ k) (hmax : ctx.table.maxState ≠ 0) {tree : Comb.Block}
    (htree : runAspect ctx s (.freshTransitions ctx.table.maxState) = (.ok tree, s')) :
    ∃ q : Option Nat, tree.run I (fun _ => ρ) (Name.enable Name.state) = some (I.bit q.isSome) ∧
      tree.run I (fun _ => ρ) (Name.nextValue Name.state) = q.map (ctx.table.space.value I) ∧
      ∀ x, q = some x → Caused ctx I ρ s' k x (ctx.schedule.outline ctx.schedule.root) := by
  obtain ⟨os, n, b, seg, segs, houtline, hfits, hos, hmodule, htaken⟩ := hsched.root_fits
  obtain ⟨ss, s₁, hss, hframe, rfl⟩ := lowerModule_cases htree
  rw [houtline] at hss ⊢
  obtain ⟨r⟩ := runs_lowerSegment_block hfits.segment hfits.not_leaf hfits.block hss
  have htaken' := htaken I ρ k hk.le_max
  have hmem := (hfits.taken_iff.1 htaken').1
  obtain ⟨q, hq, hcaused⟩ := caused_lowerSegments (fun o ho s ss s' hs hss => by
    obtain ⟨e, he, hoe⟩ := hfits.child ho
    exact caused_segment hsched.wellFormed hk (hos o ho) hoe (by simp [hfits.parents e he]) hmem hs hss)
    (r.transitions_inner ⟨_, rfl⟩).1 r.inner_runs
  obtain ⟨hen, hnext⟩ := run_of_shifts hsched.wellFormed hk hmax hfits hmodule htaken' rfl r hq
  refine ⟨q, hen, hnext, ?_⟩
  intro x hx
  obtain ⟨o, ho, hin⟩ := hcaused x hx
  exact .inside htaken'.2 ho (hin.mono fun _ he => (r.notes_of_inner he).of_frame hframe)

theorem run_noted (hk : ctx.table.space.Holds I ρ k) (hmax : ctx.table.maxState ≠ 0) {tree : Comb.Block}
    (htree : runAspect ctx s (.freshTransitions ctx.table.maxState) = (.ok tree, s')) :
    ∃ q : Option Nat, tree.run I (fun _ => ρ) (Name.enable Name.state) = some (I.bit q.isSome) ∧
      tree.run I (fun _ => ρ) (Name.nextValue Name.state) = q.map (ctx.table.space.value I) ∧ Noted ctx s' k q := by
  obtain ⟨q, hen, hnext, hcaused⟩ := run_caused hsched hk hmax htree
  exact ⟨q, hen, hnext, fun x hx => (hcaused x hx).noted hsched⟩

end Caused

/-- After any number of cycles from state 0 on, the compiled state machine is in a state of the module, and in the next
cycle it stays there or takes an edge of the graph to the state that is driven as the next one. -/
theorem machine_follows_graph {d : Draft} {top : List Nat} {m : Module} (hm : d.finish top = .ok m)
    {arguments : List String} {c : Compiled} (hc : compile m arguments = .ok c) (hmax : 0 < c.lowered.maxState)
    {V : Type} (I : Interpretation V) (hI : StateSpace.Distinguished I ⟨c.lowered.maxState⟩) :
    ∃ tree, c.lowered.aspects.get? "state_transition" = some tree ∧ ∀ ρs : List (Valuation V),
      ∃ k ≤ c.lowered.maxState,
        ρs.foldlM (StateSpace.cycle I ⟨c.lowered.maxState⟩ tree) (StateSpace.value I ⟨c.lowered.maxState⟩ 0) =
          some (StateSpace.value I ⟨c.lowered.maxState⟩ k) ∧
        StateSpace.FollowsIn I ⟨c.lowered.maxState⟩ tree c.lowered.transitions.edges k := by
  obtain ⟨run⟩ := compile_run hc
  obtain ⟨hsched, _, hspace⟩ := scheduled_of_build hm run.schedule_eq run.stage_eq run.table_eq
  rw [run.maxState_eq] at hmax hI ⊢
  have htable : run.table.maxState = run.st.maxState := by rw [ConditionTable.maxState, hspace]
  have htree := run.trees ("state_transition", run.signals.transitions) (by rw [run.signals.trees]; simp [Aspect.label,
    Aspect.freshTransitions])
  have hfollows : ∀ k ≤ (⟨run.st.maxState⟩ : StateSpace).maxState, StateSpace.FollowsIn I ⟨run.st.maxState⟩
      (run.signals.transitions.mapExprs (Expr.rename run.rename)) c.lowered.transitions.edges k := by
    intro k hk ρ
    have hholds : run.table.space.Holds I ((StateSpace.load ⟨run.st.maxState⟩ ρ
        (StateSpace.value I ⟨run.st.maxState⟩ k)).renamed run.rename) k := by
      rw [hspace]
      exact hI.holds hk (if_pos rfl)
    obtain ⟨q, hen, hnext, hnoted⟩ := run_noted hsched hholds (by rw [htable]; omega) run.signals.transitions_run
    rw [← Comb.Block.run_mapExprs (fun _ => Expr.eval_rename I _ run.rename)] at hen hnext
    cases q with
    | none => exact .inl hen
    | some x =>
      obtain ⟨hx, g, hg, hedge⟩ := hnoted x rfl
      refine .inr ⟨x, htable ▸ hx, ?_, hen, ?_⟩
      · rw [run.graph_eq, run.signals.graph, hg]
        exact hedge
      · rw [hnext, hspace]
        rfl
  refine ⟨_, htree, ?_⟩
  intro ρs
  obtain ⟨k, hk, hruns⟩ := StateSpace.FollowsIn.run hfollows ρs (Nat.zero_le _)
  exact ⟨k, hk, hruns, hfollows k hk⟩

theorem poll_follows_graph : ∃ c, compile (poll.enclose [5, 6]) ["simplify:rounds=0"] = .ok c ∧ c.lowered.maxState = 3 ∧
    ∃ tree, c.lowered.aspects.get? "state_transition" = some tree ∧ ∀ ρs : List (Valuation Int),
      ∃ k ≤ c.lowered.maxState,
        ρs.foldlM (StateSpace.cycle .integers ⟨c.lowered.maxState⟩ tree)
          (StateSpace.value .integers ⟨c.lowered.maxState⟩ 0) =
          some (StateSpace.value .integers ⟨c.lowered.maxState⟩ k) ∧
        StateSpace.FollowsIn .integers ⟨c.lowered.maxState⟩ tree c.lowered.transitions.edges k := by
  have hm : poll.finish [5, 6] = .ok (poll.enclose [5, 6]) := rfl
  have hfacts : ((compile (poll.enclose [5, 6]) ["simplify:rounds=0"]).toOption.any fun c =>
      c.lowered.maxState == 3) = true := by
    decide +kernel
  obtain ⟨c, hc, hmax⟩ := Checked.exists_of_any hfacts
  have hmax : c.lowered.maxState = 3 := eq_of_beq hmax
  exact ⟨c, hc, hmax, machine_follows_graph hm hc (by omega) .integers (StateSpace.distinguished_integers _)⟩

end Lowering

end Sequencer
