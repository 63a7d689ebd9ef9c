import Sequencer.Proofs.Checked
import Sequencer.Proofs.Lowering.Stepwise

set_option autoImplicit false

/-!
# Steps of lowering

What each step of lowering has done if it succeeds. No step changes the class of signals or forgets a move of the state
machine, and each leaves the stack of cycle conditions as it was.
-/

namespace Sequencer

/-- The other graph has all moves of this one. -/
structure TransitionGraph.Within (g g' : TransitionGraph) : Prop where
  maxState : g'.maxState = g.maxState
  edges : g.edges ⊆ g'.edges

theorem TransitionGraph.Within.refl (g : TransitionGraph) : g.Within g := ⟨rfl, List.Subset.refl _⟩

theorem TransitionGraph.Within.trans {g g' g'' : TransitionGraph} (h : g.Within g') (h' : g'.Within g'') : g.Within g'' :=
  ⟨h'.maxState.trans h.maxState, List.Subset.trans h.edges h'.edges⟩

theorem TransitionGraph.mem_edges_add (g : TransitionGraph) (source target : Nat) :
    (source, target) ∈ (g.add source target).edges := by
  unfold add
  split
  · rename_i h
    simpa using h
  · simp

theorem TransitionGraph.within_add (g : TransitionGraph) (source target : Nat) : g.Within (g.add source target) := by
  unfold add
  split
  · exact .refl g
  · exact ⟨rfl, fun e he => List.mem_append_left _ he⟩

/-- A condition of the table, or the reset condition. -/
def ConditionTable.Knows (t : ConditionTable) (n : String) : Prop := t.contains n = true ∨ n = Name.resetCond

namespace Lowering

open Control

/-- The step succeeds with `a` and leaves the session `s'`. -/
def Lower.Runs {α : Type} (ctx : Context) (x : Lower α) (s : Session) (a : α) (s' : Session) : Prop :=
  x.perform ctx s = (.ok a, s')

open Lower

variable {α β : Type} {ctx : Context} {s s' s'' : Session}

theorem runs_pure {a b : α} : Runs ctx (pure a) s b s' ↔ b = a ∧ s' = s := by
  change ((Except.ok a : Checked α), s) = (.ok b, s') ↔ _
  simp [eq_comm]

theorem perform_bind (ctx : Context) (s : Session) (x : Lower α) (f : α → Lower β) :
    (x >>= f).perform ctx s = match x.perform ctx s with
      | (.ok a, s') => (f a).perform ctx s'
      | (.error e, s') => (.error e, s') := by
  change (ExceptT.bindCont (fun a => f a ctx) ((x ctx) s).1 : StateM Session (Checked β)) ((x ctx) s).2 = _
  rw [perform]
  obtain ⟨r, s'⟩ := (x ctx) s
  cases r <;> rfl

theorem runs_bind {x : Lower α} {f : α → Lower β} {b : β} :
    Runs ctx (x >>= f) s b s'' ↔ ∃ a s', Runs ctx x s a s' ∧ Runs ctx (f a) s' b s'' := by
  rw [Runs, perform_bind]
  cases hx : x.perform ctx s with
  | mk r s₁ =>
    cases r with
    | error e => simp [Runs, hx]
    | ok a => simp [Runs, hx]

theorem runs_check {x : Checked α} {a : α} : Runs ctx (check x) s a s' ↔ x = .ok a ∧ s' = s := by
  change (x, s) = (.ok a, s') ↔ _
  rw [Prod.mk.injEq, eq_comm (a := s)]

theorem runs_read_bind {f : Context → Lower β} {b : β} : Runs ctx (read >>= f) s b s' ↔ Runs ctx (f ctx) s b s' := Iff.rfl

theorem runs_get_bind {f : Session → Lower β} {b : β} : Runs ctx (get >>= f) s b s' ↔ Runs ctx (f s) s b s' := Iff.rfl

theorem runs_modify {f : Session → Session} {u : PUnit} : Runs ctx (modify f) s u s' ↔ s' = f s := by
  change ((Except.ok PUnit.unit : Checked PUnit), f s) = (.ok u, s') ↔ _
  simp [eq_comm]

theorem runs_mapM {f : α → Lower β} {R : α → β → Prop}
    (hf : ∀ a s b s', Runs ctx (f a) s b s' → R a b) {as : List α} {bs : List β}
    (h : Runs ctx (as.mapM f) s bs s') : List.Forall₂ R as bs := by
  induction as generalizing s bs s' with
  | nil =>
    rw [List.mapM_nil] at h
    rw [(runs_pure.1 h).1]
    exact .nil
  | cons a as ih =>
    rw [List.mapM_cons] at h
    obtain ⟨b, s₁, hb, h₁⟩ := runs_bind.1 h
    obtain ⟨bs', s₂, hbs, h₂⟩ := runs_bind.1 h₁
    rw [(runs_pure.1 h₂).1]
    exact .cons (hf a s b s₁ hb) (ih hbs)

theorem runs_aspect {a : Aspect} : Runs ctx aspect s a s' ↔ a = s.aspect ∧ s' = s :=
  runs_get_bind.trans runs_pure

theorem runs_aspect_bind {f : Aspect → Lower β} {b : β} : Runs ctx (aspect >>= f) s b s' ↔ Runs ctx (f s.aspect) s b s' :=
  Iff.rfl

theorem runs_setAspect {a : Aspect} {u : Unit} : Runs ctx (setAspect a) s u s' ↔ s' = { s with aspect := a } := runs_modify

theorem runs_stmt {i : Nat} {a : Stmt} : Runs ctx (stmt i) s a s' ↔ ctx.module.stmt i = .ok a ∧ s' = s :=
  runs_read_bind.trans runs_check

theorem runs_block? {i : Nat} {a : Option Block} :
    Runs ctx (block? i) s a s' ↔ ctx.module.block? i = .ok a ∧ s' = s :=
  runs_read_bind.trans runs_check

theorem runs_kind?_bind {i : Nat} {b : Control.Block} (hb : ctx.module.stmt i = .ok (.block b))
    {f : Option BlockKind → Lower β} {x : β} (h : Runs ctx (kind? i >>= f) s x s') : Runs ctx (f (some b.kind)) s x s' := by
  obtain ⟨k, s₁, hk, h₁⟩ := runs_bind.1 h
  obtain ⟨hkind, rfl⟩ := runs_check.1 (runs_read_bind.1 hk)
  rw [Module.kind?, Module.block?, hb] at hkind
  cases hkind
  exact h₁

theorem runs_segment {i : Nat} {a : Segment} :
    Runs ctx (segment i) s a s' ↔ ctx.schedule.segment i = .ok a ∧ s' = s :=
  runs_read_bind.trans runs_check

theorem runs_timing {i : Nat} {a : Timing} : Runs ctx (timing i) s a s' ↔ ctx.table.timing i = .ok a ∧ s' = s :=
  runs_read_bind.trans runs_check

theorem runs_maxState {a : Nat} : Runs ctx maxState s a s' ↔ a = ctx.table.maxState ∧ s' = s :=
  runs_read_bind.trans runs_pure

theorem runs_currentCycle {c : Cond} : Runs ctx currentCycle s c s' ↔ c = s.cycles.head?.join ∧ s' = s :=
  runs_get_bind.trans runs_pure

theorem runs_settled {b b' : Comb.Block} :
    Runs ctx (settled b) s b' s' ↔ b' = Comb.updateDefaults s.aspect.isControl b ∧ s' = s :=
  runs_get_bind.trans runs_pure

theorem runs_narrow {parent : List Nat} {states : List Nat} {c : Cond} :
    Runs ctx (narrow (some parent) states) s c s' ↔ ctx.table.space.narrow states parent = .ok c ∧ s' = s :=
  runs_read_bind.trans runs_check

theorem runs_blockOf {seg : Segment} {n : Nat} (h : seg.block = some n) {b : Option Block} :
    Runs ctx (blockOf seg) s b s' ↔ ctx.module.block? n = .ok b ∧ s' = s := by
  rw [blockOf, h]
  exact runs_block?

/-- The table knows the conditions, and each is captured once, with all that it refers to. -/
structure Capture.Sound (t : ConditionTable) (c : Capture) : Prop where
  known : ∀ n ∈ c.wanted ++ c.captured, t.Knows n
  nodup : c.captured.Nodup
  closed : ∀ n ∈ c.captured, mentioned t n ⊆ c.captured

/-- The conditions noted so far are known to the table. -/
structure Session.Known (t : ConditionTable) (s : Session) : Prop where
  used : ∀ n ∈ s.used, t.Knows n
  captured : ∀ c, s.aspect = .conditions c → c.Sound t

theorem Aspect.capture?_eq_none_iff (a : Aspect) : a.capture? = none ↔ a.label ≠ conditionsLabel := by
  cases a <;> simp [capture?, label, conditionsLabel]

/-- The conditions to be defined, for the class of signals that defines them. -/
def Aspect.wanted? (a : Aspect) : Option (List String) := a.capture?.map Capture.wanted

/-- The session has the same stack of cycle conditions, class of signals and conditions to be defined, at least the moves
and conditions noted so far, and no conditions unknown to the table. -/
structure Session.Frame (t : ConditionTable) (s s' : Session) : Prop where
  cycles : s'.cycles = s.cycles
  label : s'.aspect.label = s.aspect.label
  wanted : s'.aspect.wanted? = s.aspect.wanted?
  used : s.used ⊆ s'.used
  graph : ∀ g, s.aspect = .transitions g → ∃ g', s'.aspect = .transitions g' ∧ g.Within g'
  known : s.Known t → s'.Known t

variable {t : ConditionTable}

theorem Session.Frame.of_aspect (hcycles : s'.cycles = s.cycles) (haspect : s'.aspect = s.aspect) (hsub : s.used ⊆ s'.used)
    (hused : ∀ n ∈ s'.used, n ∈ s.used ∨ t.Knows n) : Session.Frame t s s' :=
  ⟨hcycles, haspect ▸ rfl, haspect ▸ rfl, hsub, fun g hg => ⟨g, haspect.trans hg, .refl g⟩,
    fun h => ⟨fun n hn => (hused n hn).elim (h.used n) id, fun c hc => h.captured c (haspect ▸ hc)⟩⟩

theorem Session.Frame.refl (t : ConditionTable) (s : Session) : Frame t s s :=
  .of_aspect rfl rfl (List.Subset.refl _) fun _ => .inl

theorem Session.Frame.trans (h : Session.Frame t s s') (h' : Session.Frame t s' s'') : Session.Frame t s s'' := by
  refine ⟨h'.cycles.trans h.cycles, h'.label.trans h.label, h'.wanted.trans h.wanted, List.Subset.trans h.used h'.used, ?_,
    fun hs => h'.known (h.known hs)⟩
  intro g hg
  obtain ⟨g', hg', hwithin⟩ := h.graph g hg
  obtain ⟨g'', hg'', hwithin'⟩ := h'.graph g' hg'
  exact ⟨g'', hg'', hwithin.trans hwithin'⟩

theorem Session.mem_use {s : Session} {names : List String} {n : String} : n ∈ (s.use names).used ↔ n ∈ s.used ∨ n ∈ names := by
  have hmem : ∀ (names used : List String), n ∈ names.foldl (fun u n => u.insert n) used ↔ n ∈ used ∨ n ∈ names := by
    intro names
    induction names with
    | nil => simp
    | cons m names ih =>
      intro used
      rw [List.foldl_cons, ih, List.mem_insert_iff, List.mem_cons, or_assoc, or_left_comm]
  exact hmem names s.used

theorem Session.frame_use (s : Session) {names : List String} (h : ∀ n ∈ names, t.Knows n) : Frame t s (s.use names) :=
  .of_aspect rfl rfl (fun _ hn => mem_use.2 (.inl hn)) fun n hn => (mem_use.1 hn).imp_right (h n)

open Session (Frame)

/-- A step that leaves the frame of a session whose class of signals has the label `l`. -/
def Lower.Framed (l : String) (x : Lower α) : Prop := ∀ ctx s a s', s.aspect.label = l → Runs ctx x s a s' → Frame ctx.table s s'

namespace Framed

variable {l : String}

theorem pure (a : α) : Framed l (Pure.pure a : Lower α) := by
  intro ctx s b s' _ h
  rw [(runs_pure.1 h).2]
  exact .refl _ s

theorem bind {x : Lower α} {f : α → Lower β} (hx : Framed l x) (hf : ∀ a, Framed l (f a)) : Framed l (x >>= f) := by
  intro ctx s b s'' hl h
  obtain ⟨a, s', h, h'⟩ := runs_bind.1 h
  have hframe := hx _ _ _ _ hl h
  exact hframe.trans (hf a _ _ _ _ (hframe.label.trans hl) h')

theorem check (x : Checked α) : Framed l (Lowering.check x) := by
  intro ctx s a s' _ h
  rw [(runs_check.1 h).2]
  exact .refl _ s

theorem read_bind {f : Context → Lower β} (hf : ∀ ctx, Framed l (f ctx)) : Framed l (read >>= f) :=
  fun ctx s b s' hl h => hf ctx ctx s b s' hl (runs_read_bind.1 h)

theorem get_bind {f : Session → Lower β} (hf : ∀ s, Framed l (f s)) : Framed l (get >>= f) :=
  fun ctx s b s' hl h => hf s ctx s b s' hl (runs_get_bind.1 h)

/-- What is done with the class of signals may depend on it, and also on the conditions captured so far. -/
theorem aspect_cases {f : Aspect → Lower β} (hf : ∀ a : Aspect, a.label = l → a.capture? = none → Framed l (f a))
    (hc : ∀ c ctx s b s', s.aspect = .conditions c → Runs ctx (aspect >>= f) s b s' → Frame ctx.table s s') :
    Framed l (aspect >>= f) := by
  intro ctx s b s' hl hrun
  cases haspect : s.aspect with
  | conditions c => exact hc c ctx s b s' haspect hrun
  | registers | latches | outputs | inputs | transitions =>
    exact hf _ hl (by rw [haspect]; rfl) _ _ _ _ hl (runs_aspect_bind.1 hrun)

theorem aspect_bind {f : Aspect → Lower β} (hf : ∀ a : Aspect, a.label = l → Framed l (f a)) :
    Framed l (aspect >>= f) := by
  intro ctx s b s' hl h
  exact hf _ hl _ _ _ _ hl (runs_aspect_bind.1 h)

theorem setAspect {a : Aspect} (ha : a.label = l) (hnone : a.capture? = none) (hne : ∀ g, (Aspect.transitions g).label ≠ l) :
    Framed l (setAspect a) := by
  intro ctx s u s' hl h
  rw [runs_setAspect.1 h]
  refine ⟨rfl, ha.trans hl.symm, ?_, List.Subset.refl _, ?_, fun hs => ⟨hs.used, fun c hc => ?_⟩⟩
  · have hs : s.aspect.capture? = none := by
      rw [Aspect.capture?_eq_none_iff, hl, ← ha]
      exact (Aspect.capture?_eq_none_iff a).1 hnone
    rw [Aspect.wanted?, Aspect.wanted?, hs, hnone]
  · intro g hg
    rw [hg] at hl
    exact absurd hl (hne g)
  · have hc : a = .conditions c := hc
    rw [hc] at hnone
    cases hnone

theorem mark (c : Cond) : Framed l (mark c) := by
  intro ctx s u s' _ h
  rw [runs_modify.1 (runs_read_bind.1 h)]
  exact s.frame_use fun n hn => .inl (List.mem_filter.1 hn).2

theorem markTree (b : Comb.Block) : Framed l (markTree b) := by
  intro ctx s u s' _ h
  rw [runs_modify.1 (runs_read_bind.1 h)]
  exact s.frame_use fun n hn => .inl (List.mem_filter.1 hn).2

theorem currentCycle : Framed l currentCycle := get_bind fun _ => pure _

theorem named (name : String) : Framed l (named name) := by
  intro ctx s c s' hl h
  have h := runs_read_bind.1 h
  split at h
  · rename_i hname
    obtain ⟨_, s₁, huse, h⟩ := runs_bind.1 h
    obtain ⟨_, rfl⟩ := runs_pure.1 h
    rw [runs_modify.1 huse]
    exact s.frame_use fun n hn => .inl (List.mem_singleton.1 hn ▸ hname)
  · exact pure _ _ _ _ _ hl h

theorem sequenced : Sequenced (Framed l) := ⟨pure, bind, check, read_bind, named⟩

theorem block? (i : Nat) : Framed l (block? i) := sequenced.block? i

theorem kind? (i : Nat) : Framed l (kind? i) := sequenced.kind? i

theorem timing (i : Nat) : Framed l (timing i) := sequenced.timing i

theorem blockOf (seg : Segment) : Framed l (blockOf seg) := sequenced.blockOf seg

theorem narrow (parent : Option (List Nat)) (states : List Nat) : Framed l (narrow parent states) :=
  sequenced.narrow parent states

end Framed

end Lowering

end Sequencer
