import Sequencer.Compile
import Sequencer.Proofs.Lowering.Segment
import Sequencer.Proofs.Name

set_option autoImplicit false

/-!
# Inputs

The tree of the inputs acknowledges a port in the cycles in which the live block that reads from it takes a value.
-/

namespace Sequencer

open Control

/-- The port that a block reads from. -/
def Control.BlockKind.port? : BlockKind → Option String
  | .interface p | .interfaceLoop p => some p
  | _ => none

/-- The port that a block reads from and the name of the condition under which it takes a value: an interface does so
when it is left, an interface loop in every cycle that it completes. -/
def Control.Block.reading? (b : Block) : Option (String × String) :=
  match b.kind, b.id with
  | .interface p, some id => some (p, Name.exitCond id)
  | .interfaceLoop p, some id => some (p, Name.cycleCond id)
  | _, _ => none

theorem Control.Block.port_of_reading {b : Block} {r : String × String} (h : b.reading? = some r) :
    b.kind.port? = some r.1 := by
  obtain ⟨k, g, ss, id⟩ := b
  cases k with
  | interface p | interfaceLoop p =>
    cases id with
    | none => cases h
    | some id =>
      cases h
      rfl
  | module | conditional | container | loop exit => cases h

theorem Control.Block.condition_of_reading {b : Block} {r : String × String} (h : b.reading? = some r) :
    ∃ id, b.id = some id ∧ (r.2 = Name.exitCond id ∨ r.2 = Name.cycleCond id) := by
  obtain ⟨k, g, ss, id⟩ := b
  cases k with
  | interface p | interfaceLoop p =>
    cases id with
    | none => cases h
    | some id =>
      cases h
      exact ⟨id, rfl, by simp⟩
  | module | conditional | container | loop exit => cases h

/-- The port that the statement at `n` reads from. -/
def Module.port? (m : Module) (n : Nat) : Option String :=
  (m.stmt n).toOption.bind fun st => st.block?.bind fun b => b.kind.port?

theorem Module.port?_eq {m : Module} {n : Nat} {b : Block} (h : m.stmt n = .ok (.block b)) : m.port? n = b.kind.port? := by
  rw [Module.port?, h]
  rfl

/-- No block that reads from a port is nested in another one that does. -/
def Module.PortsApart (m : Module) : Prop :=
  ∀ n ∈ (m.outline m.root).preorder, ∀ j ∈ (m.outline n).preorder.tail, m.port? n ≠ none → m.port? j ≠ m.port? n

instance (m : Module) : Decidable m.PortsApart :=
  inferInstanceAs (Decidable (∀ n ∈ (m.outline m.root).preorder, ∀ j ∈ (m.outline n).preorder.tail,
    m.port? n ≠ none → m.port? j ≠ m.port? n))

theorem Module.Alike.portsApart {m m' : Module} (h : m.Alike m') (hm : m.PortsApart) : m'.PortsApart := by
  have hbare : ∀ x : Checked Stmt, ((x.map Stmt.bare).toOption.bind fun st => st.block?.bind fun b => b.kind.port?) =
      x.toOption.bind fun st => st.block?.bind fun b => b.kind.port? := by
    intro x
    cases x with
    | error e => rfl
    | ok st =>
      cases st with
      | block b =>
        obtain ⟨k, g, ss, id⟩ := b
        cases k <;> rfl
      | yield y | update r v | assign x v => rfl
  have hport : ∀ n, m'.port? n = m.port? n := by
    intro n
    rw [Module.port?, ← hbare, h.stmt_map, hbare, Module.port?]
  intro n hn j hj
  rw [h.outline] at hj hn
  rw [h.root] at hn
  rw [hport, hport]
  exact hm n hn j hj

/-- The signals that acknowledge inputs. -/
def Module.readySignals (m : Module) : List String := m.inputs.map fun p => Name.ready p.name

/-- The condition that the table defines by the name holds. -/
def ConditionTable.Fulfilled {V : Type} (I : Interpretation V) (ρ : Valuation V) (t : ConditionTable) (name : String) :
    Prop :=
  ∃ c, t.get? name = some c ∧ Cond.holds I ρ c = true

namespace Schedule

variable {V : Type} (I : Interpretation V) (ρ : Valuation V) (m : Module) (s : Schedule)

/-- The port that the block of a segment reads from and the name of the condition under which it takes a value. -/
def reading? (j : Nat) : Option (String × String) :=
  match s.segment j with
  | .ok seg => seg.block.bind fun n =>
    match m.stmt n with
    | .ok (.block b) => b.reading?
    | _ => none
  | .error _ => none

/-- The segment at `j` is in state `k`, and its block and all blocks around it are entered. -/
structure Open (k j : Nat) : Prop where
  taken : s.Taken I ρ m k j
  around : ∀ a, s.Around a j → s.Entered I ρ m a

/-- The segment at `j` is below the outline, and it and all segments around it from there on are open in state `k`. -/
inductive OpenIn (k : Nat) : Outline → Nat → Prop
  | here {i : Nat} {os : List Outline} (h : s.Taken I ρ m k i) : OpenIn k (.node i os) i
  | inside {i j : Nat} {o : Outline} {os : List Outline} (hopen : s.Entered I ρ m i) (ho : o ∈ os) (h : OpenIn k o j) :
    OpenIn k (.node i os) j

variable {I ρ m s} {k maxState : Nat} {o : Outline}

theorem LeafFits.reading?_eq {i : Nat} {seg : Segment} (h : LeafFits m s maxState i seg) : s.reading? m i = none := by
  rw [reading?, h.segment]
  exact congrArg (Option.bind · _) h.block

theorem BlockFits.reading?_eq {i n : Nat} {os : List Outline} {b : Block} {seg : Segment} {segs : List Segment}
    (h : BlockFits m s maxState i os n b seg segs) : s.reading? m i = b.reading? := by
  rw [reading?, h.segment]
  dsimp only
  rw [h.block, Option.bind_some, h.stmt]

theorem OpenIn.taken (h : Consistent m s maxState o) {j : Nat} (hopen : OpenIn I ρ m s k o j) :
    s.Taken I ρ m k o.index := by
  induction h with
  | leaf h =>
    cases hopen with
    | here htaken => exact htaken
    | inside _ ho => cases ho
  | block h hos ih =>
    cases hopen with
    | here htaken => exact htaken
    | inside hentered ho hopen =>
      obtain ⟨⟨c, hc, hk⟩, _⟩ := ih _ ho hopen
      obtain ⟨c', hc', hoc⟩ := h.child ho
      cases hc.symm.trans hoc
      exact h.taken_iff.2 ⟨h.states.sub c hc' k hk, hentered⟩

theorem OpenIn.mem_preorder {j : Nat} (hopen : OpenIn I ρ m s k o j) : j ∈ o.preorder := by
  induction hopen with
  | here => exact Outline.index_mem_preorder _
  | inside _ ho _ ih =>
    rw [Outline.preorder_eq]
    exact List.mem_cons_of_mem _ (List.mem_flatMap.2 ⟨_, ho, ih⟩)

theorem OpenIn.open (h : Consistent m s maxState o) {j : Nat} (hopen : OpenIn I ρ m s k o j)
    (haround : ∀ a, s.Around a o.index → s.Entered I ρ m a) : s.Open I ρ m k j := by
  induction h with
  | leaf h =>
    cases hopen with
    | here htaken => exact ⟨htaken, haround⟩
    | inside _ ho => cases ho
  | block h hos ih =>
    cases hopen with
    | here htaken => exact ⟨htaken, haround⟩
    | inside hentered ho hopen =>
      obtain ⟨c, hc, hoc⟩ := h.child ho
      exact ih _ ho hopen ((around_iff hoc (h.parents c hc)).2 ⟨hentered, haround⟩)

theorem Open.openIn (h : Consistent m s maxState o) {j : Nat} (hj : j ∈ o.preorder) (hopen : s.Open I ρ m k j) :
    OpenIn I ρ m s k o j ∧ ∀ a, s.Around a o.index → s.Entered I ρ m a := by
  induction h with
  | leaf h =>
    rw [Outline.preorder_eq, List.flatMap_nil, List.mem_singleton] at hj
    subst hj
    exact ⟨.here hopen.taken, hopen.around⟩
  | block h hos ih =>
    rw [Outline.preorder_eq] at hj
    rcases List.mem_cons.1 hj with rfl | hj
    · exact ⟨.here hopen.taken, hopen.around⟩
    · obtain ⟨o, ho, hj⟩ := List.mem_flatMap.1 hj
      obtain ⟨hin, haround⟩ := ih o ho hj
      obtain ⟨c, hc, hoc⟩ := h.child ho
      obtain ⟨hentered, haround'⟩ := (around_iff hoc (h.parents c hc)).1 haround
      exact ⟨.inside hentered ho hin, haround'⟩

theorem exists_of_reading? {j : Nat} {r : String × String} (h : s.reading? m j = some r) :
    ∃ seg n b, s.segment j = .ok seg ∧ seg.block = some n ∧ m.stmt n = .ok (.block b) ∧ b.reading? = some r := by
  unfold reading? at h
  split at h
  · rename_i seg hseg
    obtain ⟨n, hn, h⟩ := Option.bind_eq_some_iff.1 h
    split at h
    · rename_i b hb
      exact ⟨seg, n, b, hseg, hn, hb, h⟩
    · cases h
  · cases h

theorem BlockFits.block_mem {i n : Nat} {os : List Outline} {b : Block} {seg : Segment} {segs : List Segment}
    (h : BlockFits m s maxState i os n b seg segs) (hos : ∀ o ∈ os, Consistent m s maxState o) {o : Outline} (ho : o ∈ os)
    {c : Segment} {x : Nat} (hc : s.segment o.index = .ok c) (hx : c.block = some x) : x ∈ b.stmts := by
  obtain ⟨c', hc', hoc⟩ := h.child ho
  cases hc.symm.trans hoc
  obtain ⟨y, hy, hspelled⟩ := (hos o ho).exists_block hc ((hos o ho).not_leaf_of_block hc hx)
  cases hx.symm.trans hy
  exact h.mem_stmts hc' hspelled

/-- The blocks of the segments at and below an outline are nested in the block of its segment. -/
theorem Consistent.block_nested (hwf : m.WellFormed) (h : Consistent m s maxState o) {j n : Nat} {seg : Segment}
    (hj : j ∈ o.preorder) (hseg : s.segment j = .ok seg) (hn : seg.block = some n) :
    ∃ top x, s.segment o.index = .ok top ∧ top.block = some x ∧ n ∈ (m.outline x).preorder := by
  induction h with
  | leaf h =>
    rw [Outline.preorder_eq, List.flatMap_nil, List.mem_singleton] at hj
    subst hj
    cases h.segment.symm.trans hseg
    cases h.block.symm.trans hn
  | block h hos ih =>
    refine ⟨_, _, h.segment, h.block, ?_⟩
    rw [hwf.preorder_eq h.inside_block h.stmt]
    rw [Outline.preorder_eq] at hj
    rcases List.mem_cons.1 hj with rfl | hj
    · cases h.segment.symm.trans hseg
      cases h.block.symm.trans hn
      exact List.mem_cons_self
    · obtain ⟨o, ho, hj⟩ := List.mem_flatMap.1 hj
      obtain ⟨c, x, hc, hx, hmem⟩ := ih o ho hj
      exact List.mem_cons_of_mem _ (List.mem_flatMap.2 ⟨x, h.block_mem hos ho hc hx, hmem⟩)

/-- No segment below that of a block that reads from a port belongs to another one that does. -/
theorem BlockFits.reading_apart (hwf : m.WellFormed) (hapart : m.PortsApart) {i n : Nat} {os : List Outline} {b : Block}
    {seg : Segment} {segs : List Segment} (h : BlockFits m s maxState i os n b seg segs)
    (hos : ∀ o ∈ os, Consistent m s maxState o) {p c c' : String} (hb : b.reading? = some (p, c)) {o : Outline}
    (ho : o ∈ os) {j : Nat} (hj : j ∈ o.preorder) : s.reading? m j ≠ some (p, c') := by
  intro hreading
  obtain ⟨seg', n', b', hseg', hn', hb', hr⟩ := exists_of_reading? hreading
  obtain ⟨top, x, htop, hx, hmem⟩ := (hos o ho).block_nested hwf hj hseg' hn'
  have hnested : n' ∈ (m.outline n).preorder.tail := by
    rw [hwf.preorder_eq h.inside_block h.stmt]
    exact List.mem_flatMap.2 ⟨x, h.block_mem hos ho htop hx, hmem⟩
  have hport : m.port? n = some p := (Module.port?_eq h.stmt).trans (Control.Block.port_of_reading hb)
  have hport' : m.port? n' = some p := (Module.port?_eq hb').trans (Control.Block.port_of_reading hr)
  exact hapart n h.inside_block n' hnested (by simp [hport]) (hport'.trans hport.symm)

end Schedule

namespace Lowering

open Lower Comb

variable {ctx : Context} {s s' : Session}

theorem inputs_of_frame (hs : s.aspect = .inputs) {t : ConditionTable} (h : Session.Frame t s s') : s'.aspect = .inputs :=
  Aspect.eq_inputs_of_label (hs ▸ h.label)

theorem controlled_ready (a : Aspect) (p : String) : Controlled a.isControl (Name.ready p) := by
  intro d
  unfold Aspect.isControl
  rw [Name.isControl_ready, Bool.true_or]

/-- What a block inside the module assigns on entry. -/
def acknowledgements (b : Control.Block) : List Assign :=
  b.reading?.toList.map fun r => .flag (Name.ready r.1) (.flag r.2)

/-- The condition under which the block takes a value is defined, if it reads from a port. -/
def Acknowledged (ctx : Context) (b : Control.Block) : Prop := ∀ r, b.reading? = some r → ∃ c, ctx.table.get? r.2 = some c

theorem runs_named {name : String} (hname : ∃ c, ctx.table.get? name = some c) {c : Cond}
    (h : Runs ctx (named name) s c s') : c = some (.flag name) := by
  have hcontains : ctx.table.contains name = true := by
    obtain ⟨c, hc⟩ := hname
    refine (Listing.contains_iff_mem_keys _ _).2 ?_
    exact List.mem_map.2 ⟨_, (ctx.table.conds.get?_eq_some_iff _ c).1 hc, rfl⟩
  have h₁ := runs_read_bind.1 h
  rw [if_pos hcontains] at h₁
  obtain ⟨_, s₁, _, h₂⟩ := runs_bind.1 h₁
  exact (runs_pure.1 h₂).1

theorem runs_enterBlock_inputs (hs : s.aspect = .inputs) {i : Nat} {b : Control.Block}
    (hb : ctx.module.stmt i = .ok (.block b)) {ss : List Comb.Stmt} (h : Runs ctx (enterBlock i) s ss s') :
    ∃ as s₁, Runs ctx (enterInputs (some b)) s as s₁ ∧ ss = assigns as := by
  have h₁ := runs_aspect_bind.1 h
  rw [hs] at h₁
  obtain ⟨blk, s₂, hblk, h₂⟩ := runs_bind.1 h₁
  obtain ⟨hblk', rfl⟩ := runs_block?.1 hblk
  rw [Module.block?, hb] at hblk'
  cases hblk'
  obtain ⟨as, s₃, has, h₃⟩ := runs_bind.1 h₂
  exact ⟨as, s₃, has, (runs_pure.1 h₃).1⟩

theorem runs_enterInputs {b : Control.Block} (hkind : b.kind ≠ .module) (hack : Acknowledged ctx b) {as : List Assign}
    (h : Runs ctx (enterInputs (some b)) s as s') : as = acknowledgements b := by
  obtain ⟨k, g, ss, id⟩ := b
  cases k with
  | module => exact absurd rfl hkind
  | conditional | container | loop exit => exact (runs_pure.1 h).1
  | interface p | interfaceLoop p =>
    cases id with
    | none => exact (runs_pure.1 h).1
    | some id =>
      obtain ⟨c, s₁, hc, h₁⟩ := runs_bind.1 h
      rw [(runs_pure.1 h₁).1, runs_named (hack _ rfl) hc]
      rfl

/-- What is copied of a block with each change of state. -/
def entryCopy (b : Control.Block) : Comb.Block :=
  let head := updateDefaults Aspect.inputs.isControl (.of b.guard (assigns (acknowledgements b)))
  updateDefaults Aspect.inputs.isControl (.of none (if head.isEmpty then [] else [head.toStmt]))

theorem runs_stateCopy_inputs (hs : s.aspect = .inputs) {n : Nat} {b : Control.Block}
    (hb : ctx.module.stmt n = .ok (.block b)) (hkind : b.kind ≠ .module) (hack : Acknowledged ctx b) {tr : Transition}
    {copy : Comb.Block} (h : Runs ctx (stateCopy (some n) tr) s copy s') : copy = entryCopy b := by
  obtain ⟨head, s₁, hhead, h₁⟩ := runs_bind.1 h
  have hs₁ := inputs_of_frame hs (Framed.visitBlock n _ _ _ _ rfl hhead)
  obtain ⟨blk, stmts, hblk, henter, rfl⟩ := runs_visitBlock hhead
  rw [Module.block?, hb] at hblk
  cases hblk
  obtain ⟨as, s₂, has, rfl⟩ := runs_enterBlock_inputs hs hb henter
  cases runs_enterInputs hkind hack has
  obtain ⟨head', s₃, hsettled, h₃⟩ := runs_bind.1 h₁
  obtain ⟨rfl, rfl⟩ := runs_settled.1 hsettled
  obtain ⟨entry, s₄, hentry, h₄⟩ := runs_bind.1 h₃
  obtain ⟨rfl, rfl⟩ := runs_pure.1 hentry
  obtain ⟨c, s₅, hassign, h₅⟩ := runs_bind.1 h₄
  have h₆ := runs_aspect_bind.1 hassign
  rw [hs₁] at h₆
  obtain ⟨rfl, rfl⟩ := runs_pure.1 h₆
  rw [(runs_settled.1 h₅).1, hs₁]
  rfl

theorem runs_stateCopies_inputs {copy : Comb.Block} {seg : Segment}
    (hcopy : ∀ s tr c s', s.aspect = .inputs → Runs ctx (stateCopy seg.block tr) s c s' → c = copy) {i : Nat} {P : List Nat}
    (hs : s.aspect = .inputs) {copies : List Comb.Block} (h : Runs ctx (stateCopies i seg (some P)) s copies s') :
    ∀ c ∈ copies, c = copy ∧ c.isEmpty = false := by
  intro c hc
  obtain ⟨_, hne, tr, s₁, s₂, hframe, hrun⟩ := mem_stateCopies h c hc
  exact ⟨hcopy s₁ tr c s₂ (inputs_of_frame hs hframe) hrun, hne⟩

/-- A segment without a block leaves no copies. -/
theorem runs_stateCopies_leaf (hs : s.aspect = .inputs) {i : Nat} {seg : Segment} (hblock : seg.block = none) {P : List Nat}
    {copies : List Comb.Block} (h : Runs ctx (stateCopies i seg (some P)) s copies s') : copies = [] := by
  have hcopy : ∀ s tr c s', s.aspect = .inputs → Runs ctx (stateCopy seg.block tr) s c s' →
      c = updateDefaults Aspect.inputs.isControl (.of none []) := by
    intro s tr c s' hs h
    rw [hblock] at h
    obtain ⟨entry, s₁, hentry, h₁⟩ := runs_bind.1 h
    obtain ⟨rfl, rfl⟩ := runs_pure.1 hentry
    obtain ⟨b, s₂, hassign, h₂⟩ := runs_bind.1 h₁
    have h₃ := runs_aspect_bind.1 hassign
    rw [hs] at h₃
    obtain ⟨rfl, rfl⟩ := runs_pure.1 h₃
    rw [(runs_settled.1 h₂).1, hs]
  refine List.eq_nil_iff_forall_not_mem.2 fun c hc => ?_
  obtain ⟨rfl, hempty⟩ := runs_stateCopies_inputs hcopy hs h c hc
  cases hempty

section Values

variable {V : Type} (I : Interpretation V) (ρ : Valuation V)

/-- The value that a segment whose block reads from `p` acknowledges it with. -/
def reading (ctx : Context) (p : String) (j : Nat) : Option V :=
  ((ctx.schedule.reading? ctx.module j).filter fun r => r.1 == p).map fun r => (Expr.flag r.2).eval I ρ

theorem reading_eq_some {p : String} {j : Nat} {v : V} : reading I ρ ctx p j = some v ↔
    ∃ c, ctx.schedule.reading? ctx.module j = some (p, c) ∧ (Expr.flag c).eval I ρ = v := by
  rw [reading, Option.map_eq_some_iff]
  constructor
  · rintro ⟨⟨q, c⟩, hfilter, hv⟩
    obtain ⟨hr, hq⟩ := Option.filter_eq_some_iff.1 hfilter
    exact ⟨c, eq_of_beq hq ▸ hr, hv⟩
  · rintro ⟨c, hr, hv⟩
    exact ⟨(p, c), Option.filter_eq_some_iff.2 ⟨hr, beq_self_eq_true p⟩, hv⟩

open Classical in
mutual
/-- The value that the segments at and below an outline that are taken in state `k` leave as the acknowledgement of `p`. -/
noncomputable def acknowledged (ctx : Context) (k : Nat) (p : String) : Outline → Option V
  | .node i os =>
    if ctx.schedule.Taken I ρ ctx.module k i then (acknowledgedAll ctx k p os).or (reading I ρ ctx p i) else none
noncomputable def acknowledgedAll (ctx : Context) (k : Nat) (p : String) : List Outline → Option V
  | [] => none
  | o :: os => (acknowledgedAll ctx k p os).or (acknowledged ctx k p o)
end

theorem finalAll_acknowledgements (b : Control.Block) (p : String) :
    Comb.Stmt.finalAll I ρ (Name.ready p) (assigns (acknowledgements b)) =
      (b.reading?.filter fun r => r.1 == p).map fun r => (Expr.flag r.2).eval I ρ := by
  unfold acknowledgements
  cases b.reading? with
  | none => rfl
  | some r =>
    obtain ⟨q, c⟩ := r
    by_cases hq : q = p
    · subst hq
      simp [assigns, Comb.Stmt.finalAll, Comb.Stmt.final, Assign.final, Assign.flag, Assign.of, Drive.final]
    · have hne : Name.ready q ≠ Name.ready p := fun h => hq (Name.ready_inj.1 h)
      simp [assigns, Comb.Stmt.finalAll, Comb.Stmt.final, Assign.final, Assign.flag, Assign.of, hq, hne]

theorem finalAll_entryCopy (b : Control.Block) (p : String) :
    Comb.Stmt.finalAll I ρ (Name.ready p) (inlined (entryCopy b)) =
      if Cond.holds I ρ b.guard then Comb.Stmt.finalAll I ρ (Name.ready p) (assigns (acknowledgements b)) else none := by
  have hexact : ∀ c : Comb.Block, (updateDefaults Aspect.inputs.isControl c).body I ρ (Name.ready p) =
      c.body I ρ (Name.ready p) :=
    fun c => updateDefaults_body _ c I ρ _ (controlled_ready _ p)
  have hhead : (updateDefaults Aspect.inputs.isControl (.of b.guard (assigns (acknowledgements b)))).toStmt.final I ρ
      (Name.ready p) =
      if Cond.holds I ρ b.guard then Comb.Stmt.finalAll I ρ (Name.ready p) (assigns (acknowledgements b)) else none := by
    rw [Comb.Block.final_toStmt, updateDefaults_guard, hexact, Comb.Block.body_of]
    rfl
  rw [entryCopy, finalAll_settled, hexact, Comb.Block.body_of, ← hhead]
  refine (if_pos rfl).trans ?_
  split
  · rename_i hempty
    exact (final_of_isEmpty I ρ hempty _).symm
  · rfl

theorem finalAll_copies {b : Control.Block} {copies : List Comb.Block} (h : ∀ c ∈ copies, c = entryCopy b) (p : String) :
    Comb.Stmt.finalAll I ρ (Name.ready p) (copies.flatMap inlined) = none ∨
      Comb.Stmt.finalAll I ρ (Name.ready p) (copies.flatMap inlined) =
        if Cond.holds I ρ b.guard then Comb.Stmt.finalAll I ρ (Name.ready p) (assigns (acknowledgements b)) else none := by
  induction copies with
  | nil => exact .inl rfl
  | cons c copies ih =>
    obtain ⟨rfl, hcopies⟩ := List.forall_mem_cons.1 h
    rw [List.flatMap_cons, Comb.Stmt.finalAll_append, finalAll_entryCopy]
    rcases ih hcopies with hnone | heq
    · rw [hnone, Option.none_or]
      exact .inr rfl
    · rw [heq, Option.or_self]
      exact .inr rfl

theorem acknowledgedAll_eq_none {k : Nat} {p : String} {os : List Outline}
    (h : ∀ o ∈ os, acknowledged I ρ ctx k p o = none) : acknowledgedAll I ρ ctx k p os = none := by
  induction os with
  | nil => rfl
  | cons o os ih =>
    obtain ⟨ho, hos⟩ := List.forall_mem_cons.1 h
    rw [acknowledgedAll, ih hos, ho, Option.none_or]

theorem exists_of_acknowledgedAll {k : Nat} {p : String} {os : List Outline} {v : V}
    (h : acknowledgedAll I ρ ctx k p os = some v) : ∃ o ∈ os, acknowledged I ρ ctx k p o = some v := by
  induction os with
  | nil => cases h
  | cons o os ih =>
    rw [acknowledgedAll, Option.or_eq_some_iff] at h
    rcases h with h | ⟨_, h⟩
    · obtain ⟨o', ho', h⟩ := ih h
      exact ⟨o', List.mem_cons_of_mem _ ho', h⟩
    · exact ⟨o, List.mem_cons_self, h⟩

theorem acknowledged_of_not_taken {k : Nat} {o : Outline} (h : ¬ctx.schedule.Taken I ρ ctx.module k o.index) (p : String) :
    acknowledged I ρ ctx k p o = none := by
  obtain ⟨i, os⟩ := o
  rw [acknowledged]
  exact if_neg h

/-- Of several segments at most one of which is taken, the one that is decides. -/
theorem acknowledgedAll_of_taken {k : Nat} {p : String} {os : List Outline}
    (hpair : os.Pairwise fun o o' =>
      ¬(ctx.schedule.Taken I ρ ctx.module k o.index ∧ ctx.schedule.Taken I ρ ctx.module k o'.index)) {o : Outline}
    (ho : o ∈ os) (htaken : ctx.schedule.Taken I ρ ctx.module k o.index) :
    acknowledgedAll I ρ ctx k p os = acknowledged I ρ ctx k p o := by
  induction os with
  | nil => cases ho
  | cons o' os ih =>
    obtain ⟨hother, hpair⟩ := List.pairwise_cons.1 hpair
    rw [acknowledgedAll]
    rcases List.mem_cons.1 ho with rfl | ho
    · rw [acknowledgedAll_eq_none I ρ fun o' ho' => acknowledged_of_not_taken I ρ (fun ht => hother o' ho' ⟨htaken, ht⟩) p,
        Option.none_or]
    · rw [ih hpair ho, acknowledged_of_not_taken I ρ (fun ht => hother o ho ⟨ht, htaken⟩) p, Option.or_none]

/-- A value is left by the open segment of a block that reads from the port. -/
theorem open_of_acknowledged {k : Nat} {p : String} (o : Outline) : ∀ {v : V}, acknowledged I ρ ctx k p o = some v →
    ∃ j, ctx.schedule.OpenIn I ρ ctx.module k o j ∧ reading I ρ ctx p j = some v := by
  induction o using Outline.ind with
  | node i os ih =>
    intro v h
    rw [acknowledged] at h
    split at h
    · rename_i htaken
      rcases Option.or_eq_some_iff.1 h with h | ⟨_, h⟩
      · obtain ⟨o, ho, h⟩ := exists_of_acknowledgedAll I ρ h
        obtain ⟨j, hopen, hj⟩ := ih o ho h
        exact ⟨j, .inside htaken.2 ho hopen, hj⟩
      · exact ⟨i, .here htaken, h⟩
    · cases h

section Walk

variable (hwf : ctx.module.WellFormed) (hapart : ctx.module.PortsApart)

include hwf hapart

theorem acknowledgedAll_of_reading {i n k : Nat} {os : List Outline} {b : Control.Block} {seg : Segment}
    {segs : List Segment} (h : Schedule.BlockFits ctx.module ctx.schedule ctx.table.maxState i os n b seg segs)
    (hos : ∀ o ∈ os, Schedule.Consistent ctx.module ctx.schedule ctx.table.maxState o) {p : String} {v : V}
    (hreading : reading I ρ ctx p i = some v) : acknowledgedAll I ρ ctx k p os = none := by
  obtain ⟨c, hc, _⟩ := (reading_eq_some I ρ).1 hreading
  rw [h.reading?_eq] at hc
  refine acknowledgedAll_eq_none I ρ fun o ho => Option.eq_none_iff_forall_ne_some.2 fun w hw => ?_
  obtain ⟨j, hopen, hj⟩ := open_of_acknowledged I ρ o hw
  obtain ⟨c', hc', _⟩ := (reading_eq_some I ρ).1 hj
  exact h.reading_apart hwf hapart hos hc ho hopen.mem_preorder hc'

/-- The open segment of a block that reads from the port leaves its value: no other one is open. -/
theorem acknowledged_of_open (hex : ctx.module.Exclusive I ρ) {k : Nat} {o : Outline}
    (h : Schedule.Consistent ctx.module ctx.schedule ctx.table.maxState o) {p : String} {j : Nat} {v : V}
    (hopen : ctx.schedule.OpenIn I ρ ctx.module k o j) (hj : reading I ρ ctx p j = some v) :
    acknowledged I ρ ctx k p o = some v := by
  induction h with
  | leaf h =>
    cases hopen with
    | here htaken => rw [acknowledged, if_pos htaken, acknowledgedAll, Option.none_or, hj]
    | inside _ ho => cases ho
  | @block i n b seg os segs h hos ih =>
    have htaken : ctx.schedule.Taken I ρ ctx.module k i := hopen.taken (.block h hos)
    rw [acknowledged, if_pos htaken]
    cases hopen with
    | here => rw [acknowledgedAll_of_reading I ρ hwf hapart h hos hj, Option.none_or, hj]
    | @inside _ _ o _ _ ho hopen =>
      rw [acknowledgedAll_of_taken I ρ (h.pairwise_taken hex hos) ho (hopen.taken (hos o ho)), ih o ho hopen,
        Option.some_or]

end Walk

section Lowered

variable (hsched : Scheduled ctx) (hapart : ctx.module.PortsApart) (hq : Quiet ctx ctx.module.readySignals) {k : Nat}
  (hk : ctx.table.space.Holds I ρ k)

/-- Lowering the segment below the outline, inside one with the states `P`, leaves the acknowledgements of the segments
that are taken. -/
def Acknowledges (ctx : Context) (k : Nat) (o : Outline) (P : List Nat) : Prop :=
  ∀ s ss s', s.aspect = .inputs → Runs ctx (lowerSegment (some P) o) s ss s' →
    Comb.Stmt.SatisfiesAll (Assign.Apart ctx.module.readySignals) (Expr.Avoids ctx.module.readySignals) ss ∧
      (k ∈ P → ∀ p, Comb.Stmt.finalAll I ρ (Name.ready p) ss = acknowledged I ρ ctx k p o)

theorem lowerSegments_acknowledges {P : List Nat} {os : List Outline} (hos : ∀ o ∈ os, Acknowledges I ρ ctx k o P)
    {s s' : Session} (hs : s.aspect = .inputs) {ss : List Comb.Stmt} (h : Runs ctx (lowerSegments P os) s ss s') :
    Comb.Stmt.SatisfiesAll (Assign.Apart ctx.module.readySignals) (Expr.Avoids ctx.module.readySignals) ss ∧
      (k ∈ P → ∀ p, Comb.Stmt.finalAll I ρ (Name.ready p) ss = acknowledgedAll I ρ ctx k p os) := by
  induction os generalizing s ss with
  | nil =>
    rw [(runs_pure.1 h).1]
    exact ⟨trivial, fun _ _ => rfl⟩
  | cons o os ih =>
    obtain ⟨ho, hos⟩ := List.forall_mem_cons.1 hos
    obtain ⟨ts, us, s₁, hts, hus, rfl⟩ := runs_lowerSegments_cons h
    obtain ⟨hsat, hvalue⟩ := ho _ _ _ hs hts
    obtain ⟨hsat', hvalue'⟩ := ih hos (inputs_of_frame hs (Framed.lowerSegment _ o _ _ _ _ rfl hts)) hus
    refine ⟨Comb.Stmt.satisfiesAll_append.2 ⟨hsat, hsat'⟩, fun hP p => ?_⟩
    rw [Comb.Stmt.finalAll_append, hvalue hP p, hvalue' hP p, acknowledgedAll]

include hsched

theorem apart_acknowledgements {n : Nat} (hn : n ∈ (ctx.module.outline ctx.module.root).preorder) {b : Control.Block}
    (hb : ctx.module.stmt n = .ok (.block b)) : ∀ a ∈ acknowledgements b, a.Apart ctx.module.readySignals := by
  intro a ha
  obtain ⟨r, hr, rfl⟩ := List.mem_map.1 ha
  have hr := Option.mem_toList.1 hr
  constructor
  · obtain ⟨st, hst, hfits⟩ := hsched.wellFormed.fits n hn
    cases hb.symm.trans hst
    have hinput : (ctx.module.input? r.1).isSome := by
      have hport := Control.Block.port_of_reading hr
      obtain ⟨kind, g, ss, id⟩ := b
      cases kind with
      | interface p | interfaceLoop p =>
        cases hport
        exact hfits
      | module | conditional | container | loop exit => cases hport
    obtain ⟨q, hq⟩ := Option.isSome_iff_exists.1 hinput
    have hname := List.find?_some hq
    exact List.mem_map.2 ⟨q, List.mem_of_find?_eq_some hq, congrArg Name.ready (eq_of_beq hname)⟩
  · rintro _ ⟨⟩
    intro x hx hmem
    rw [List.mem_singleton.1 hx] at hmem
    obtain ⟨q, _, hq⟩ := List.mem_map.1 hmem
    have hq : Name.ready q.name = r.2 := hq
    have hending : ∃ c, Name.ending r.2 = some c ∧ c.isDigit = true := by
      obtain ⟨id, _, hid | hid⟩ := Control.Block.condition_of_reading hr
      · exact hid ▸ Name.ending_exitCond id
      · exact hid ▸ Name.ending_cycleCond id
    obtain ⟨c, hc, hdigit⟩ := hending
    rw [← hq, Name.ending_ready] at hc
    cases hc
    cases hdigit

theorem acknowledged_of_fits {i n : Nat} {os : List Outline} {b : Control.Block} {seg : Segment} {segs : List Segment}
    (h : Schedule.BlockFits ctx.module ctx.schedule ctx.table.maxState i os n b seg segs) : Acknowledged ctx b := by
  intro r hr
  obtain ⟨d, n', b', id, inner, u, _, hdef, hcycle, hexit⟩ := hsched.defines i seg h.segment h.not_leaf
  cases h.block.symm.trans hdef.block
  cases h.stmt.symm.trans hdef.stmt
  obtain ⟨id', hid, hname⟩ := Control.Block.condition_of_reading hr
  cases hid.symm.trans hdef.id_eq
  rcases hname with hname | hname
  · exact ⟨_, hname ▸ hexit⟩
  · exact ⟨_, hname ▸ hcycle⟩

include hq

theorem lowerSegment_leaf_acknowledges {i : Nat} {seg : Segment}
    (h : Schedule.LeafFits ctx.module ctx.schedule ctx.table.maxState i seg) {P : List Nat} :
    Acknowledges I ρ ctx k (.node i []) P := by
  intro s ss s' hs hss
  obtain ⟨guard, t, body, copies, s₁, s₂, hguard, _, hbody, hcopies, hmain⟩ :=
    runs_lowerSegment_leaf h.segment h.kind h.prolog h.epilog hss
  have hs₁ := inputs_of_frame hs (Framed.freeStmts _ _ _ _ _ _ _ rfl hbody)
  have hnil := runs_stateCopies_leaf hs₁ h.block hcopies
  subst hnil
  obtain ⟨rfl, _⟩ := runs_withCopies_nil hmain
  obtain ⟨lowered, s₄, hlower, rfl, _⟩ := runs_freeStmts hbody
  have hs₀ : ({ s with cycles := Option.or t.cycle s.cycles.head?.join :: s.cycles } : Session).aspect = .inputs := hs
  have hidle := idle_leaf hq hsched.wellFormed h.stmts h.inside (.inr hs₀) hlower
  have hidle' : Idle ctx.module.readySignals (inlined (updateDefaults s₂.aspect.isControl
      (updateDefaults s₄.aspect.isControl (.of guard lowered)))) :=
    satisfies_inlined (updateDefaults_satisfies _ _ (updateDefaults_satisfies _ _
      (Comb.Block.satisfies_of (hq.narrow (runs_narrow.1 hguard).1) hidle)))
  refine ⟨hidle'.satisfies, fun _ p => ?_⟩
  rw [hidle'.finalAll_eq_none I ρ, acknowledged, acknowledgedAll, reading, h.reading?_eq]
  exact (ite_self none).symm

include hapart hk

/-- The acknowledgements of a block inside the module, from those of the segments below it. Its copies repeat what is
assigned on entry, and no block below it assigns that. -/
theorem lowerSegment_block_acknowledges {i n : Nat} {os : List Outline} {b : Control.Block} {seg : Segment}
    {segs : List Segment} (h : Schedule.BlockFits ctx.module ctx.schedule ctx.table.maxState i os n b seg segs)
    (hos : ∀ o ∈ os, Schedule.Consistent ctx.module ctx.schedule ctx.table.maxState o) (hkind : b.kind ≠ .module)
    (hinner : ∀ o ∈ os, Acknowledges I ρ ctx k o seg.states) {P : List Nat} : Acknowledges I ρ ctx k (.node i os) P := by
  intro s ss s' hs hss
  obtain ⟨r⟩ := runs_lowerSegment_block h.segment h.not_leaf h.block hss
  obtain ⟨hs₁, hs₂, hs₃, _, _⟩ := r.labels
  rw [hs] at hs₁ hs₂ hs₃
  have hs₂' : ({ r.s₂ with cycles := r.timing.cycle :: r.s₂.cycles } : Session).aspect = .inputs :=
    Aspect.eq_inputs_of_label hs₂
  have hs₃' : ({ r.s₃ with cycles := r.s₃.cycles.tail } : Session).aspect = .inputs := Aspect.eq_inputs_of_label hs₃
  have hack := acknowledged_of_fits hsched h
  obtain ⟨as, s₆, has, hentry⟩ := runs_enterBlock_inputs (Aspect.eq_inputs_of_label hs₁) h.stmt r.entry_runs
  cases runs_enterInputs hkind hack has
  have hcopies : ∀ c ∈ r.copies, c = entryCopy b := by
    have hcopy : ∀ t tr c t', t.aspect = .inputs → Runs ctx (stateCopy seg.block tr) t c t' → c = entryCopy b := by
      intro t tr c t' ht hc
      rw [h.block] at hc
      exact runs_stateCopy_inputs ht h.stmt hkind hack hc
    exact fun c hc => (runs_stateCopies_inputs hcopy hs₃' r.copies_runs c hc).1
  obtain ⟨hsat, hvalue⟩ := lowerSegments_acknowledges I ρ hinner hs₂' r.inner_runs
  have hguard := hq.guard h.inside_block h.stmt
  have hassigns : Comb.Stmt.SatisfiesAll (Assign.Apart ctx.module.readySignals) (Expr.Avoids ctx.module.readySignals)
      (assigns (acknowledgements b)) :=
    Comb.Stmt.satisfiesAll_assigns.2 (apart_acknowledgements hsched h.inside_block h.stmt)
  refine ⟨?_, fun hP p => ?_⟩
  · have hmain := satisfies_withCopies (Comb.Block.satisfies_of
      (Quiet.and (hq.runs_narrow r.guard_runs) hguard (r.full_eq' h))
      (Comb.Stmt.satisfiesAll_append.2 ⟨hentry.symm ▸ hassigns, hsat⟩)) ?_ (fun _ _ _ ht => hq.runs_narrow ht) r.main_runs
    · rw [r.eq, Comb.Stmt.satisfiesAll_append, Comb.Stmt.satisfiesAll_append]
      exact ⟨⟨(r.idle_before h hsched.wellFormed hq (.inr hs)).satisfies, hmain⟩,
        (r.idle_after h hsched.wellFormed hq (.inr hs)).satisfies⟩
    · intro c hc
      rw [hcopies c hc]
      refine updateDefaults_satisfies _ _ (Comb.Block.satisfies_of (fun _ he => by cases he) ?_)
      split
      · trivial
      · exact ⟨updateDefaults_satisfies _ _ (Comb.Block.satisfies_of hguard hassigns), trivial⟩
  · have htaken := r.full_iff h hk (fun _ hP' => Option.some.inj hP' ▸ hP) (by simp)
    have hreading : Comb.Stmt.finalAll I ρ (Name.ready p) (assigns (acknowledgements b)) = reading I ρ ctx p i := by
      rw [finalAll_acknowledgements, reading, h.reading?_eq]
    have hcopied := finalAll_copies I ρ hcopies p
    rw [r.finalAll_parts h hsched.wellFormed hk hP hq (.inr hs) fun a _ => controlled_ready a p, acknowledged, hentry,
      hreading]
    rw [hreading] at hcopied
    by_cases ht : ctx.schedule.Taken I ρ ctx.module k i
    · rw [if_pos ht, if_pos (htaken.2 ht), hvalue (h.taken_iff.1 ht).1 p]
      rcases hcopied with hnone | hcopied
      · rw [hnone, ite_self, Option.none_or]
      · rw [hcopied, if_pos (h.entered_iff.1 ht.2)]
        cases hr : reading I ρ ctx p i with
        | none => rw [ite_self, Option.none_or]
        | some v =>
          rw [acknowledgedAll_of_reading I ρ hsched.wellFormed hapart h hos hr, Option.none_or]
          split <;> rfl
    · rw [if_neg ht, if_neg fun hfull => ht (htaken.1 hfull), Option.or_none]
      split
      · rename_i hfirst
        rcases hcopied with hnone | hcopied
        · exact hnone
        · rw [hcopied]
          refine if_neg fun hopen => ht (h.taken_iff.2 ⟨?_, h.entered_iff.2 hopen⟩)
          exact List.mem_of_head? hfirst
      · rfl

/-- The segments below the root are lowered to what those that are taken acknowledge. -/
theorem lowerSegment_acknowledges {o : Outline}
    (h : Schedule.Consistent ctx.module ctx.schedule ctx.table.maxState o) {seg : Segment}
    (hseg : ctx.schedule.segment o.index = .ok seg) (hparent : seg.parent ≠ none) (P : List Nat) :
    Acknowledges I ρ ctx k o P := by
  induction h generalizing seg P with
  | leaf h => exact lowerSegment_leaf_acknowledges I ρ hsched hq h
  | block h hos ih =>
    cases h.segment.symm.trans hseg
    refine lowerSegment_block_acknowledges I ρ hsched hapart hq hk h hos (fun hm => hparent (h.module.1 hm)) ?_
    intro o ho
    obtain ⟨c, hc, hoc⟩ := h.child ho
    exact ih o ho hoc (by simp [h.parents c hc]) _

end Lowered

/-- On entry to the module no input is acknowledged. -/
theorem entry_inputs (hs : s.aspect = .inputs) {i : Nat} {b : Control.Block}
    (hb : ctx.module.stmt i = .ok (.block b)) (hkind : b.kind = .module) {ss : List Comb.Stmt}
    (h : Runs ctx (enterBlock i) s ss s') :
    Comb.Stmt.SatisfiesAll (Assign.Apart ctx.module.readySignals) (Expr.Avoids ctx.module.readySignals) ss ∧
      ∀ p ∈ ctx.module.inputs, Comb.Stmt.finalAll I ρ (Name.ready p.name) ss = some (I.bit false) := by
  obtain ⟨as, s₁, has, rfl⟩ := runs_enterBlock_inputs hs hb h
  have heq : as = ctx.module.inputs.map fun p => .flag (Name.ready p.name) (.bool false) := by
    obtain ⟨kind, g, ss, id⟩ := b
    cases hkind
    have has : Runs ctx (read >>= fun c : Context =>
        pure (c.module.inputs.map fun p => Assign.flag (Name.ready p.name) (.bool false))) s as s₁ := has
    have has := runs_read_bind.1 has
    exact (runs_pure.1 has).1
  subst heq
  constructor
  · refine Comb.Stmt.satisfiesAll_assigns.2 fun a ha => ?_
    obtain ⟨p, hp, rfl⟩ := List.mem_map.1 ha
    refine ⟨List.mem_map_of_mem hp, ?_⟩
    rintro _ ⟨⟩
    exact Expr.avoids_lit _ _
  · intro p hp
    refine Comb.Stmt.finalAll_assigns_const I ρ _ ?_ ⟨_, List.mem_map_of_mem hp, rfl⟩
    intro a ha
    obtain ⟨q, _, rfl⟩ := List.mem_map.1 ha
    rfl

/-- What the tree of the inputs leaves as the acknowledgement of a port. -/
theorem run_inputs (hsched : Scheduled ctx) (hapart : ctx.module.PortsApart) (hq : Quiet ctx ctx.module.readySignals)
    {k : Nat} (hk : ctx.table.space.Holds I ρ k) {ss : List Comb.Stmt} (hs : s.aspect = .inputs)
    (hss : Runs ctx (lowerSegment none (ctx.schedule.outline ctx.schedule.root)) s ss s') {p : Port}
    (hp : p ∈ ctx.module.inputs) :
    (updateDefaults s'.aspect.isControl (.of none ss)).run I ρ.overlay (Name.ready p.name) =
      (acknowledged I ρ ctx k p.name (ctx.schedule.outline ctx.schedule.root)).or (some (I.bit false)) := by
  obtain ⟨os, n, b, seg, segs, houtline, hfits, hos, hkind, htaken⟩ := hsched.root_fits
  have htaken := htaken I ρ k hk.le_max
  rw [houtline] at hss ⊢
  obtain ⟨r⟩ := runs_lowerSegment_block hfits.segment hfits.not_leaf hfits.block hss
  obtain ⟨hs₁, hs₂, _, _, _⟩ := r.labels
  rw [hs] at hs₁ hs₂
  have hs₂' : ({ r.s₂ with cycles := r.timing.cycle :: r.s₂.cycles } : Session).aspect = .inputs :=
    Aspect.eq_inputs_of_label hs₂
  obtain ⟨hentrysat, hentry⟩ := entry_inputs I ρ (Aspect.eq_inputs_of_label hs₁) hfits.stmt hkind r.entry_runs
  have hinner : ∀ o ∈ os, Acknowledges I ρ ctx k o seg.states := by
    intro o ho
    obtain ⟨c, hc, hoc⟩ := hfits.child ho
    exact lowerSegment_acknowledges I ρ hsched hapart hq hk (hos o ho) hoc (by simp [hfits.parents c hc]) _
  obtain ⟨hsat, hvalue⟩ := lowerSegments_acknowledges I ρ hinner hs₂' r.inner_runs
  have hreading : b.reading? = none := by rw [Control.Block.reading?, hkind]
  have hcopies : r.copies = [] := (runs_pure.1 r.copies_runs).1
  have hmain := satisfies_withCopies (Comb.Block.satisfies_of
    (Quiet.and (hq.runs_narrow r.guard_runs) (hq.guard hfits.inside_block hfits.stmt) (r.full_eq' hfits))
    (Comb.Stmt.satisfiesAll_append.2 ⟨hentrysat, hsat⟩)) (by simp [hcopies]) (fun _ _ _ ht => hq.runs_narrow ht) r.main_runs
  have hall : Comb.Stmt.SatisfiesAll (Assign.Apart ctx.module.readySignals) (Expr.Avoids ctx.module.readySignals) ss := by
    rw [r.eq, Comb.Stmt.satisfiesAll_append, Comb.Stmt.satisfiesAll_append]
    exact ⟨⟨(r.idle_before hfits hsched.wellFormed hq (.inr hs)).satisfies, hmain⟩,
      (r.idle_after hfits hsched.wellFormed hq (.inr hs)).satisfies⟩
  rw [Comb.Block.run_overlay I ρ (updateDefaults_satisfies _ _ (Comb.Block.satisfies_of (fun _ he => by cases he) hall)),
    r.run_root hfits hsched.wellFormed hk htaken hq (.inr hs) fun a _ => controlled_ready a p.name,
    hvalue (hfits.taken_iff.1 htaken).1, hentry p hp, acknowledged, if_pos htaken, reading, hfits.reading?_eq, hreading]
  exact congrArg (Option.or · _) (Option.or_none).symm

end Values

namespace Scheduled

variable (hsched : Scheduled ctx)

include hsched

theorem mem_preorder_of_reading {j : Nat} {r : String × String} (h : ctx.schedule.reading? ctx.module j = some r) :
    j ∈ (ctx.schedule.outline ctx.schedule.root).preorder := by
  obtain ⟨seg, _, _, hseg, _⟩ := Schedule.exists_of_reading? h
  exact hsched.mem_preorder hseg

theorem condition_of_reading {j : Nat} {r : String × String} (h : ctx.schedule.reading? ctx.module j = some r) :
    ∃ c, ctx.table.get? r.2 = some c := by
  obtain ⟨o, rfl, _, hconsistent⟩ := hsched.consistent.exists_part (hsched.mem_preorder_of_reading h)
  cases hconsistent with
  | leaf hleaf => exact absurd (hleaf.reading?_eq.symm.trans h) (by simp)
  | block hfits => exact acknowledged_of_fits hsched hfits r (hfits.reading?_eq ▸ h)

theorem open_iff {V : Type} {I : Interpretation V} {ρ : Valuation V} {j k : Nat}
    (hj : j ∈ (ctx.schedule.outline ctx.schedule.root).preorder) : ctx.schedule.Open I ρ ctx.module k j ↔
      ctx.schedule.OpenIn I ρ ctx.module k (ctx.schedule.outline ctx.schedule.root) j := by
  obtain ⟨root, hroot⟩ := hsched.root
  have hindex := ctx.schedule.index_outline ctx.schedule.root
  refine ⟨fun h => (h.openIn hsched.consistent hj).1, fun h => h.open hsched.consistent ?_⟩
  rw [hindex]
  exact fun a ha => absurd ha (Schedule.not_around_root hroot.segment hroot.parent a)

end Scheduled

theorem quiet_inputs {m : Module} {st : Staged} (halike : m.Alike st.module) {table : ConditionTable}
    (htable : ConditionTable.build st.module st.schedule st.maxState = .ok table)
    (hreads : ∀ n ∈ (m.outline m.root).preorder, ∀ stmt, m.stmt n = .ok stmt →
      ∀ e ∈ stmt.exprs, e.Avoids m.readySignals) :
    Quiet ⟨st.module, st.schedule, table⟩ st.module.readySignals := by
  have hsignals : st.module.readySignals = m.readySignals := by
    rw [Module.readySignals, halike.inputs, Module.readySignals]
  have hending : ∀ n ∈ m.readySignals, Name.ending n = some 'y' := by
    intro n hn
    obtain ⟨p, _, rfl⟩ := List.mem_map.1 hn
    exact Name.ending_ready p.name
  rw [hsignals]
  refine quiet_of_reads halike htable ?_ ?_ hreads
  · refine fun r => ⟨fun hr => ?_, fun hr => ?_⟩
    · simpa using hending _ hr
    · simpa using hending _ hr
  · intro n hn c hc
    cases hc.symm.trans (hending n hn)
    rfl

/-- The tree of the inputs acknowledges exactly the live block: in state `k` it leaves a value on the acknowledgement of a
port that is true if and only if an open segment belongs to a block that reads from the port, and the condition under
which this block takes a value holds. -/
theorem inputs_acknowledge_live_block {V : Type} (I : Interpretation V) (ρ : Valuation V) {d : Draft} {top : List Nat}
    {m : Module} (hm : d.finish top = .ok m) {schedule : Schedule} (hschedule : m.schedule = .ok schedule) {st : Staged}
    (hst : m.stage schedule = .ok st) {table : ConditionTable}
    (htable : ConditionTable.build st.module st.schedule st.maxState = .ok table) {s s' : Session} {tree : Comb.Block}
    (htree : runAspect ⟨st.module, st.schedule, table⟩ s .inputs = (.ok tree, s')) (hapart : m.PortsApart)
    (hreads : ∀ n ∈ (m.outline m.root).preorder, ∀ stmt, m.stmt n = .ok stmt →
      ∀ e ∈ stmt.exprs, e.Avoids m.readySignals)
    (hsat : table.Satisfied I ρ) {k : Nat} (hk : StateSpace.Holds I ρ ⟨st.maxState⟩ k) (hex : st.module.Exclusive I ρ)
    {p : Port} (hp : p ∈ m.inputs) :
    ∃ v, tree.run I ρ.overlay (Name.ready p.name) = some v ∧
      (I.truth v = true ↔ ∃ j c, st.schedule.Open I ρ st.module k j ∧
        st.schedule.reading? st.module j = some (p.name, c) ∧ table.Fulfilled I ρ c) := by
  obtain ⟨hsched, halike, hspace⟩ := scheduled_of_build hm hschedule hst htable
  have hapart := halike.portsApart hapart
  rw [← hspace] at hk
  obtain ⟨ss, s₁, hss, rfl⟩ := runs_lowerModule htree
  have hrun := run_inputs I ρ hsched hapart (quiet_inputs halike htable hreads) hk rfl hss (halike.inputs ▸ hp)
  have hfulfilled : ∀ j c, st.schedule.reading? st.module j = some (p.name, c) →
      ((Expr.flag c).holds I ρ = true ↔ table.Fulfilled I ρ c) := by
    intro j c hj
    obtain ⟨e, he⟩ := hsched.condition_of_reading hj
    rw [hsat c e he, ConditionTable.Fulfilled]
    simp [he]
  refine ⟨_, hrun.trans (Option.or_some ..), ?_⟩
  constructor
  · intro htruth
    cases hvalue : acknowledged I ρ ⟨st.module, st.schedule, table⟩ k p.name (st.schedule.outline st.schedule.root) with
    | none =>
      rw [hvalue, Option.getD_none, I.truth_bit] at htruth
      cases htruth
    | some v =>
      rw [hvalue, Option.getD_some] at htruth
      obtain ⟨j, hopen, hj⟩ := open_of_acknowledged I ρ _ hvalue
      obtain ⟨c, hc, rfl⟩ := (reading_eq_some I ρ).1 hj
      exact ⟨j, c, (hsched.open_iff hopen.mem_preorder).2 hopen, hc, (hfulfilled j c hc).1 htruth⟩
  · rintro ⟨j, c, hopen, hc, hholds⟩
    have hin := (hsched.open_iff (hsched.mem_preorder_of_reading hc)).1 hopen
    rw [acknowledged_of_open I ρ hsched.wellFormed hapart hex hsched.consistent hin
      ((reading_eq_some I ρ).2 ⟨c, hc, rfl⟩), Option.getD_some]
    exact (hfulfilled j c hc).2 hholds

/-- While a command is held, values are passed on one by one. -/
def sampler : Draft where
  name := "sampler"
  registers := .empty
  vars := .empty
  inputs := [⟨"ctl", .bool⟩, ⟨"din", .bool⟩]
  outputs := [⟨"dout", .bool⟩]
  stmts := .ofList [Draft.emit [some (.flag "a")], Draft.interfaceLoop "din" [0], Draft.interface "ctl" [1],
    Draft.emit [some (.flag "b")]]

def samplerStaged : Staged where
  module := { sampler.enclose [2, 3] with
    stmts := .ofList [.yield ⟨[some (.flag "a")], some 3⟩,
      .block ⟨.interfaceLoop "din", some (.flag "din.valid"), [0], some 2⟩,
      .block ⟨.interface "ctl", some (.flag "ctl.valid"), [1], some 1⟩, .yield ⟨[some (.flag "b")], some 4⟩,
      .block ⟨.module, none, [2, 3], some 0⟩] }
  schedule := ⟨.ofList [⟨.seq, some 4, none, [1, 4], [0, 1], [], [], []⟩, ⟨.seq, some 2, some 0, [2], [0], [], [], []⟩,
    ⟨.seq, some 1, some 1, [3], [0], [], [], []⟩, ⟨.leaf, none, some 2, [], [0], [0], [], []⟩,
    ⟨.leaf, none, some 0, [], [1], [3], [], []⟩], 0⟩
  maxState := 1

theorem sampler_stage : ((sampler.enclose [2, 3]).schedule >>= (sampler.enclose [2, 3]).stage) = .ok samplerStaged := by
  decide +kernel

/-- State zero, in the middle of a transaction. -/
def midway : Valuation Bool where
  operand _ := false
  wire w := !(["din.eot", "exit_cond_block_0", "exit_cond_block_1", "exit_cond_block_2"].contains w.name)

theorem sampler_reads : ∀ n ∈ ((sampler.enclose [2, 3]).outline 4).preorder, ∀ stmt,
    (sampler.enclose [2, 3]).stmt n = .ok stmt →
      ∀ e ∈ stmt.exprs, e.Avoids (sampler.enclose [2, 3]).readySignals := by
  have hreads : ∀ stmt ∈ (sampler.enclose [2, 3]).stmts.toList,
      ∀ e ∈ stmt.exprs, e.Avoids (sampler.enclose [2, 3]).readySignals := by
    decide
  exact fun _ _ stmt hstmt => hreads stmt (Arena.mem_toList_of_get hstmt)

theorem sampler_exclusive : samplerStaged.module.Exclusive .oneBit midway :=
  Module.exclusive_of_no_container _ midway (by decide)

theorem sampler_open : samplerStaged.schedule.Open .oneBit midway samplerStaged.module 0 2 := by
  have hentered : ∀ i ∈ [0, 1, 2], samplerStaged.schedule.Entered .oneBit midway samplerStaged.module i := by
    intro i hi seg n hseg hn
    simp only [List.mem_cons, List.not_mem_nil, or_false] at hi
    rcases hi with rfl | rfl | rfl
    all_goals
      cases hseg
      cases hn
      exact ⟨_, rfl, rfl⟩
  refine ⟨⟨⟨_, rfl, by decide⟩, hentered 2 (by simp)⟩, ?_⟩
  refine (Schedule.around_iff rfl rfl).2 ⟨hentered 1 (by simp), ?_⟩
  refine (Schedule.around_iff rfl rfl).2 ⟨hentered 0 (by simp), ?_⟩
  exact fun a ha => absurd ha (Schedule.not_around_root rfl rfl a)

/-- A value is taken while the command is held. -/
theorem sampler_takes_value : ∃ schedule table tree s', sampler.finish [2, 3] = .ok (sampler.enclose [2, 3]) ∧
    (sampler.enclose [2, 3]).schedule = .ok schedule ∧ (sampler.enclose [2, 3]).stage schedule = .ok samplerStaged ∧
    ConditionTable.build samplerStaged.module samplerStaged.schedule 1 = .ok table ∧
    runAspect ⟨samplerStaged.module, samplerStaged.schedule, table⟩ (.start .outputs) .inputs = (.ok tree, s') ∧
    (sampler.enclose [2, 3]).PortsApart ∧ table.Satisfied .oneBit midway ∧
    tree.run .oneBit midway.overlay "din.ready" = some true := by
  obtain ⟨schedule, hschedule, hst⟩ := Checked.bind_eq_ok.1 sampler_stage
  have hfacts : ((ConditionTable.build samplerStaged.module samplerStaged.schedule 1).toOption.any fun table =>
      (table.conds.entries.all fun e => (Expr.flag e.1).holds .oneBit midway == Cond.holds .oneBit midway e.2) &&
        (table.get? "cycle_cond_block_2").any (Cond.holds .oneBit midway) &&
        (runAspect ⟨samplerStaged.module, samplerStaged.schedule, table⟩ (.start .outputs) .inputs).1.toOption.isSome) =
      true := by
    decide +kernel
  obtain ⟨table, htable, hfacts⟩ := Checked.exists_of_any hfacts
  obtain ⟨hfacts, hok⟩ := Bool.and_eq_true_iff.1 hfacts
  obtain ⟨hall, hcycle⟩ := Bool.and_eq_true_iff.1 hfacts
  have hsat : table.Satisfied .oneBit midway :=
    ConditionTable.satisfied_of_entries _ _ _ fun e he => eq_of_beq (List.all_eq_true.1 hall e he)
  have hfulfilled : table.Fulfilled .oneBit midway "cycle_cond_block_2" := Option.any_eq_true _ _ |>.1 hcycle
  obtain ⟨tree, htree⟩ := Checked.exists_ok hok
  have htree : runAspect ⟨samplerStaged.module, samplerStaged.schedule, table⟩ (.start .outputs) .inputs = (.ok tree, _) :=
    Prod.ext htree rfl
  have hk : StateSpace.Holds .oneBit midway ⟨samplerStaged.maxState⟩ 0 := by
    refine ⟨by decide, ?_⟩
    intro s hs
    match s, hs with
    | 0, _ => rfl
    | 1, _ => rfl
  have hm : sampler.finish [2, 3] = .ok (sampler.enclose [2, 3]) := rfl
  have hapart : (sampler.enclose [2, 3]).PortsApart := by decide +kernel
  have hp : (⟨"din", .bool⟩ : Port) ∈ (sampler.enclose [2, 3]).inputs := by decide
  obtain ⟨v, hv, htruth⟩ := inputs_acknowledge_live_block .oneBit midway hm hschedule hst htable htree hapart sampler_reads
    hsat hk sampler_exclusive hp
  have hv' : v = true := htruth.2 ⟨2, _, sampler_open, rfl, hfulfilled⟩
  exact ⟨schedule, table, tree, _, hm, hschedule, hst, htable, htree, hapart, hsat, hv' ▸ hv⟩

end Lowering

end Sequencer
