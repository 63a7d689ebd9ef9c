import Sequencer.Proofs.Compile
import Sequencer.Proofs.Lowering.Segment
import Sequencer.Proofs.Schedule.Straight

set_option autoImplicit false

/-!
# Lowering a straight module

For the classes of signals that keep what statements write, a module of one cycle is lowered to what is assigned on entry,
followed by its statements one after the other. Defaults are propagated through each conditional and through the whole.
-/

namespace Sequencer

namespace Module

/-- The declared width of a register or variable. -/
def width (m : Module) (x : String) : Nat := ((m.declaredWidth x).toOption.join).getD 0

theorem width_of_declared {m : Module} {x : String} {w : Nat} (h : m.declaredWidth x = .ok (some w)) : m.width x = w := by
  rw [width, h]
  rfl

theorem Alike.width {m m' : Module} (h : m.Alike m') (x : String) : m'.width x = m.width x := by
  rw [Module.width, declaredWidth, h.registers, h.vars, Module.width, declaredWidth]

end Module

namespace Lowering

open Control Lower Comb

/-- The class of signals for what is written to operands of a kind. -/
inductive Aspect.Stores : Aspect → Storage → Prop
  | registers : Stores .registers .register
  | latches (l : Latches) : Stores (.latches l) .latch

/-- What a write of `v` to `x` is lowered to, in a cycle that completes under `enable`. -/
def Aspect.writes (enable : Expr) (x : String) (v : Expr) (w : Nat) : Aspect → List Assign
  | registers => [.flag (Name.enable x) enable, .of (Name.nextValue x) v w]
  | latches _ => [.of (Name.latched x) v w]
  | _ => []

mutual
/-- An outline of writes and conditionals is lowered to `ss`. -/
def Renders (m : Module) (a : Aspect) (enable : Expr) : Outline → List Comb.Stmt → Prop
  | .node i os, ss => ∃ s, m.stmt i = .ok s ∧
    match s with
    | .block b => ∃ inner, RendersAll m a enable os inner ∧
      ss = [(updateDefaults a.isControl (.of b.guard inner)).toStmt]
    | s => ∃ k v, s.write? = some (k, v) ∧ ss = assigns (a.writes enable k.2 v (m.width k.2))
def RendersAll (m : Module) (a : Aspect) (enable : Expr) : List Outline → List Comb.Stmt → Prop
  | [], ss => ss = []
  | o :: os, ss => ∃ ts us, Renders m a enable o ts ∧ RendersAll m a enable os us ∧ ss = ts ++ us
end

variable {ctx : Context} {s s' : Session} {k : Storage}

/-- The current cycle completes under this expression. -/
def Session.enable (s : Session) : Expr := s.cycles.head?.join.getD (.bool true)

/-- Sessions with the same class of signals and notes, and the same stack of cycle conditions. -/
def Session.Same (s s' : Session) : Prop := s'.aspect = s.aspect ∧ s'.cycles = s.cycles

theorem runs_enterBlock_conditional (hs : s.aspect.Stores k) {i : Nat} {b : Control.Block}
    (hb : ctx.module.stmt i = .ok (.block b)) (hkind : b.kind = .conditional) (hi : i ≠ ctx.module.root)
    {ss : List Comb.Stmt} (h : Runs ctx (enterBlock i) s ss s') : ss = [] ∧ s' = s := by
  obtain ⟨a, s₁, haspect, h₁⟩ := runs_bind.1 h
  obtain ⟨ha, rfl⟩ := runs_aspect.1 haspect
  rw [← ha] at hs
  cases hs with
  | registers =>
    obtain ⟨as, s₃, has, h₃⟩ := runs_bind.1 (runs_kind?_bind hb h₁)
    rw [enterRegisters, if_pos (by simp [hkind])] at has
    obtain ⟨rfl, rfl⟩ := runs_pure.1 has
    exact runs_pure.1 h₃
  | latches l =>
    have h₂ := runs_read_bind.1 h₁
    dsimp only at h₂
    rw [if_neg fun hroot => hi hroot.1] at h₂
    exact runs_pure.1 h₂

theorem runs_mark {c : Cond} {u : PUnit} (h : Runs ctx (mark c) s u s') : s.Same s' := by
  rw [runs_modify.1 (runs_read_bind.1 h)]
  exact ⟨rfl, rfl⟩

theorem runs_visit_write (hs : s.aspect.Stores k) {i : Nat} {st : Control.Stmt} (hst : ctx.module.stmt i = .ok st)
    {x : String} {v : Expr} (hw : st.write? = some ((k, x), v)) {ss : List Comb.Stmt} (h : Runs ctx (visit i) s ss s') :
    ss = assigns (s.aspect.writes s.enable x v (ctx.module.width x)) ∧ s.Same s' := by
  obtain ⟨st', s₁, hstmt, h₁⟩ := runs_bind.1 h
  obtain ⟨hst', rfl⟩ := runs_stmt.1 hstmt
  cases hst.symm.trans hst'
  generalize ha : s₁.aspect = a at hs
  cases hs with
  | registers =>
    cases st with
    | block b | yield y | assign x v => cases hw
    | update r v =>
      cases hw
      have h₂ := runs_aspect_bind.1 h₁
      rw [ha] at h₂
      obtain ⟨w, s₃, hwidth, h₃⟩ := runs_bind.1 (runs_read_bind.1 h₂)
      obtain ⟨hdeclared, rfl⟩ := runs_check.1 hwidth
      cases w with
      | none => exact absurd (runs_check.1 h₃).1 (Checked.reject_ne_ok _ _)
      | some w =>
        obtain ⟨c, s₄, hcycle, h₄⟩ := runs_bind.1 h₃
        obtain ⟨rfl, rfl⟩ := runs_pure.1 h₄
        obtain ⟨c', s₅, hcurrent, h₅⟩ := runs_bind.1 hcycle
        obtain ⟨rfl, rfl⟩ := runs_currentCycle.1 hcurrent
        obtain ⟨_, s₆, hmark, h₆⟩ := runs_bind.1 h₅
        obtain ⟨rfl, rfl⟩ := runs_pure.1 h₆
        rw [Module.width_of_declared hdeclared]
        exact ⟨rfl, runs_mark hmark⟩
  | latches l =>
    cases st with
    | block b | yield y | update r v => cases hw
    | assign x v =>
      cases hw
      have h₂ := runs_aspect_bind.1 h₁
      rw [ha] at h₂
      obtain ⟨w, s₃, hwidth, h₃⟩ := runs_bind.1 (runs_read_bind.1 h₂)
      obtain ⟨hdeclared, rfl⟩ := runs_check.1 hwidth
      cases w with
      | none => exact absurd (runs_check.1 h₃).1 (Checked.reject_ne_ok _ _)
      | some w =>
        obtain ⟨rfl, rfl⟩ := runs_pure.1 h₃
        rw [Module.width_of_declared hdeclared]
        exact ⟨rfl, rfl, rfl⟩

theorem runs_visitYield_stores (hs : s.aspect.Stores k) {y : Yield} {ss : List Comb.Stmt}
    (h : Runs ctx (visitYield y) s ss s') : ss = [] ∧ s' = s := by
  obtain ⟨a, s₁, haspect, h₁⟩ := runs_bind.1 h
  obtain ⟨rfl, rfl⟩ := runs_aspect.1 haspect
  generalize s₁.aspect = a at hs h₁
  cases hs with
  | registers => exact runs_pure.1 h₁
  | latches l => exact runs_pure.1 h₁

mutual
theorem renders_lowerOutline : (o : Outline) → (∀ i ∈ o.preorder, i ≠ ctx.module.root ∧ ctx.module.Plain k i) →
    ∀ {s s' : Session} {ss : List Comb.Stmt}, s.aspect.Stores k → Runs ctx (lowerOutline o) s ss s' →
    Renders ctx.module s.aspect s.enable o ss ∧ s.Same s'
  | .node i os, hplain, s, s', ss, hs, h => by
    rw [Outline.preorder_eq, List.forall_mem_cons] at hplain
    obtain ⟨⟨hi, st, hst, hst'⟩, hos⟩ := hplain
    rcases hst' with ⟨x, v, hw⟩ | ⟨b, rfl, hkind⟩
    · have hblock : st.block? = none := by
        cases st with
        | block b => cases hw
        | yield y | update r v | assign x v => rfl
      obtain ⟨hss, hsame⟩ := runs_visit_write hs hst hw (runs_lowerOutline_visit hst hblock h)
      refine ⟨⟨st, hst, ?_⟩, hsame⟩
      cases st with
      | block b => cases hw
      | yield y | update r v | assign x v => exact ⟨_, _, hw, hss⟩
    · obtain ⟨stmts, inner, s₁, henter, hinner, rfl⟩ := runs_lowerOutline_block hst h
      obtain ⟨rfl, rfl⟩ := runs_enterBlock_conditional hs hst hkind hi henter
      obtain ⟨hrenders, hsame⟩ := renders_lowerOutlines os hos hs hinner
      exact ⟨⟨_, hst, inner, hrenders, by rw [hsame.1, List.nil_append]⟩, hsame⟩
theorem renders_lowerOutlines : (os : List Outline) →
    (∀ i ∈ os.flatMap Outline.preorder, i ≠ ctx.module.root ∧ ctx.module.Plain k i) →
    ∀ {s s' : Session} {ss : List Comb.Stmt}, s.aspect.Stores k → Runs ctx (lowerOutlines os) s ss s' →
    RendersAll ctx.module s.aspect s.enable os ss ∧ s.Same s'
  | [], _, s, s', ss, _, h => by
    obtain ⟨rfl, rfl⟩ := runs_pure.1 h
    exact ⟨rfl, rfl, rfl⟩
  | o :: os, hplain, s, s', ss, hs, h => by
    rw [List.flatMap_cons, List.forall_mem_append] at hplain
    obtain ⟨ts, us, s₁, hts, hus, rfl⟩ := runs_lowerOutlines_cons h
    obtain ⟨hhead, hsame⟩ := renders_lowerOutline o hplain.1 hs hts
    obtain ⟨htail, hsame'⟩ := renders_lowerOutlines os hplain.2 (hsame.1 ▸ hs) hus
    rw [hsame.1, Session.enable, hsame.2] at htail
    exact ⟨⟨ts, us, hhead, htail, rfl⟩, hsame'.1.trans hsame.1, hsame'.2.trans hsame.2⟩
end

theorem Aspect.Stores.of_label {a a' : Aspect} (h : a.Stores k) (hlabel : a'.label = a.label) : a'.Stores k := by
  revert hlabel
  cases h with
  | registers =>
    cases a' with
    | registers => exact fun _ => .registers
    | latches | inputs | outputs | transitions | conditions => exact fun h => absurd h (by simp only [label]; decide)
  | latches l =>
    cases a' with
    | latches l' => exact fun _ => .latches l'
    | registers | inputs | outputs | transitions | conditions => exact fun h => absurd h (by simp only [label]; decide)

/-- The tree of a straight module, from what is assigned on entry and what its statements are lowered to. -/
def Aspect.straightTree (a : Aspect) (entry lowered : List Comb.Stmt) : Comb.Block :=
  updateDefaults a.isControl (.of none (inlined (updateDefaults a.isControl (.of none
    (entry ++ inlined (updateDefaults a.isControl (updateDefaults a.isControl (.of none lowered))))))))

theorem yields_straight {m : Module} {body : List Nat} {j : Nat} (h : m.Straight k body j) {y : Yield}
    (hy : m.stmt j = .ok (.yield y)) {ys : List Yield} (hys : ConditionTable.yields m (body ++ [j]) = .ok ys) : ys = [y] := by
  obtain ⟨ss, hss, hys⟩ := Checked.bind_eq_ok.1 hys
  cases hys
  rw [List.mapM_append] at hss
  obtain ⟨ss₁, hss₁, hss⟩ := Checked.bind_eq_ok.1 hss
  obtain ⟨ss₂, hss₂, hss⟩ := Checked.bind_eq_ok.1 hss
  cases hss
  rw [List.mapM_cons, hy] at hss₂
  cases hss₂
  rw [List.filterMap_append, List.filterMap_eq_nil_iff.2]
  · rfl
  · intro s hs
    obtain ⟨i, hi, his⟩ := exists_of_mem_forall₂ (Checked.mapM_eq_ok hss₁) hs
    have hmem := (m.outline i).index_mem_preorder
    rw [show (m.outline i).index = i from Arena.index_outlineTo _ _ _ _] at hmem
    obtain ⟨s', hs', hplain⟩ := h.plain i (List.mem_flatMap.2 ⟨m.outline i, List.mem_map_of_mem hi, hmem⟩)
    cases his.symm.trans hs'
    rcases hplain with ⟨x, v, hw⟩ | ⟨b, rfl, _⟩
    · cases s with
      | block b | yield y => cases hw
      | update r v | assign x v => rfl
    · rfl

theorem Aspect.satisfies_straightTree {P : Assign → Prop} {Q : Expr → Prop} (a : Aspect) {entry lowered : List Comb.Stmt}
    (hentry : Comb.Stmt.SatisfiesAll P Q entry) (hlowered : Comb.Stmt.SatisfiesAll P Q lowered) :
    (a.straightTree entry lowered).Satisfies P Q := by
  have hsettled : ∀ {ss}, Comb.Stmt.SatisfiesAll P Q ss → (updateDefaults a.isControl (.of none ss)).Satisfies P Q :=
    fun hss => updateDefaults_satisfies _ _ (Comb.Block.satisfies_of (fun e he => by cases he) hss)
  have hinner := satisfies_inlined (updateDefaults_satisfies a.isControl _ (hsettled hlowered))
  exact hsettled (satisfies_inlined (hsettled (Comb.Stmt.satisfiesAll_append.2 ⟨hentry, hinner⟩)))

/-- The only leaf completes with the yield. -/
theorem timing_straight {m : Module} {body : List Nat} {j : Nat} (hstraight : m.Straight k body j) {s : Schedule}
    (hroot : s.root = 0) (houtline : s.outline 0 = .node 0 [.node 1 []]) {seg : Segment} (htop : s.segment 0 = .ok seg)
    (hkind : seg.kind ≠ .leaf)
    (hleaf : s.segment 1 = .ok ⟨.leaf, none, some 0, [], [0], body ++ [j], [], []⟩) {maxState : Nat}
    {table : ConditionTable} (h : ConditionTable.build m s maxState = .ok table) :
    ∃ y id t, m.stmt j = .ok (.yield y) ∧ y.id = some id ∧ table.timing 1 = .ok t ∧
      t.cycle = some (.flag (Name.cycleCond id)) := by
  obtain ⟨y, hy⟩ := hstraight.yield
  obtain ⟨d, hd, h⟩ := Checked.bind_eq_ok.1 h
  obtain ⟨root, _, h⟩ := Checked.bind_eq_ok.1 h
  cases h
  rw [hroot, houtline] at hd
  obtain ⟨seg', hseg', hd⟩ := Checked.bind_eq_ok.1 hd
  cases htop.symm.trans hseg'
  obtain ⟨d₁, hd₁, hd⟩ := Checked.bind_eq_ok.1 hd
  obtain ⟨d₂, hd₂, hd₁⟩ := Checked.bind_eq_ok.1 hd₁
  cases hd₁
  obtain ⟨leaf, hleaf', hd₂⟩ := Checked.bind_eq_ok.1 hd₂
  cases hleaf.symm.trans hleaf'
  obtain ⟨d₃, hd₃, hd₂⟩ := Checked.bind_eq_ok.1 hd₂
  cases hd₃
  obtain ⟨ys, ts, t, hys, hts, ht, hset⟩ := ConditionTable.defineSegment_leaf rfl hd₂
  cases yields_straight hstraight hy hys
  rw [ConditionTable.defineYields] at hts
  cases hid : y.id with
  | none =>
    rw [hid] at hts
    exact absurd hts (Checked.reject_ne_ok _ _)
  | some id =>
    rw [hid] at hts
    obtain ⟨_, _, hts⟩ := Checked.bind_eq_ok.1 hts
    obtain rfl : [Timing.ofBlock id] = ts := congrArg Prod.snd (Except.ok.inj hts)
    obtain rfl : Timing.ofBlock id = t := Except.ok.inj ht
    obtain ⟨_, _, id', _, _, _, _, _, _, _, _, hset'⟩ := ConditionTable.defineSegment_block hkind hd
    refine ⟨y, id, .ofBlock id, hy, hid, ?_, rfl⟩
    exact (ConditionTable.get_set_of_ne hset' (by decide)).trans (ConditionTable.get_set_self hset)

theorem stateCopies_single {i : Nat} {seg : Segment} {parent : Option (List Nat)} (hmax : ctx.table.maxState = 0)
    {copies : List Comb.Block} (h : Runs ctx (stateCopies i seg parent) s copies s') : copies = [] ∧ s' = s := by
  cases parent with
  | none => exact runs_pure.1 h
  | some p =>
    obtain ⟨changes, s₁, hchanges, h₁⟩ := runs_bind.1 h
    obtain ⟨n, s₂, hn, h₂⟩ := runs_bind.1 hchanges
    obtain ⟨rfl, rfl⟩ := runs_maxState.1 hn
    rw [if_pos hmax] at h₂
    obtain ⟨rfl, rfl⟩ := runs_pure.1 h₂
    exact runs_pure.1 h₁

section Straight

variable {m : Module} {body : List Nat} {j : Nat} (hstraight : ctx.module.Straight k body j)
  (hwf : ctx.module.WellFormed) (hmax : ctx.table.maxState = 0)

include hstraight hwf hmax

theorem renders_leaf (hleaf : ctx.schedule.segment 1 = .ok ⟨.leaf, none, some 0, [], [0], body ++ [j], [], []⟩) {t : Timing}
    (ht : ctx.table.timing 1 = .ok t) {c : Expr} (hc : t.cycle = some c) (hs : s.aspect.Stores k) {ss : List Comb.Stmt}
    (h : Runs ctx (lowerSegment (some [0]) (.node 1 [])) s ss s') :
    ∃ lowered, RendersAll ctx.module s.aspect c (body.map ctx.module.outline) lowered ∧
      ss = inlined (updateDefaults s.aspect.isControl (updateDefaults s.aspect.isControl (.of none lowered))) ∧
      s.Same s' := by
  obtain ⟨guard, t', b, copies, s₁, s₂, hguard, ht', hb, hcopies, hmain⟩ := runs_lowerSegment_leaf hleaf rfl rfl rfl h
  cases ht.symm.trans ht'
  rw [hc] at hb
  have hnone : guard = none := by
    have hnarrow := (runs_narrow.1 hguard).1
    cases hnarrow
    rfl
  subst hnone
  obtain ⟨rfl, rfl⟩ := stateCopies_single hmax hcopies
  obtain ⟨rfl, rfl⟩ := runs_withCopies_nil hmain
  obtain ⟨all, s₃, hall, rfl, rfl⟩ := runs_freeStmts hb
  dsimp only at hall
  rw [List.map_append] at hall
  obtain ⟨lowered, us, s₄, hlowered, hus, rfl⟩ := runs_lowerOutlines_append hall
  have hplain : ∀ i ∈ (body.map ctx.module.outline).flatMap Outline.preorder,
      i ≠ ctx.module.root ∧ ctx.module.Plain k i := by
    refine fun i hi => ⟨?_, hstraight.plain i hi⟩
    rintro rfl
    have hnodup := hwf.nodup
    rw [hstraight.outline_root hwf, Outline.preorder_eq, List.nodup_cons, List.flatMap_append] at hnodup
    exact hnodup.1 (List.mem_append_left _ hi)
  have hs₀ : ({ s with cycles := (some c).or s.cycles.head?.join :: s.cycles } : Session).aspect.Stores k := hs
  obtain ⟨hrenders, hsame⟩ := renders_lowerOutlines _ hplain hs₀ hlowered
  obtain ⟨y, hy⟩ := hstraight.yield
  have hyield := runs_lowerOutlines_yield hy hus
  obtain ⟨rfl, rfl⟩ := runs_visitYield_stores (hsame.1 ▸ hs₀) hyield
  refine ⟨lowered, hrenders, ?_, hsame.1, congrArg List.tail hsame.2⟩
  rw [List.append_nil, hsame.1]

/-- The tree is made of what is assigned on entry to the module and of its statements. -/
theorem renders_module (hroot : ctx.schedule.root = 0) (houtline : ctx.schedule.outline 0 = .node 0 [.node 1 []])
    (htop : ctx.schedule.segment 0 = .ok ⟨.seq, some ctx.module.root, none, [1], [0], [], [], []⟩)
    (hleaf : ctx.schedule.segment 1 = .ok ⟨.leaf, none, some 0, [], [0], body ++ [j], [], []⟩) {t : Timing}
    (ht : ctx.table.timing 1 = .ok t) {c : Expr} (hc : t.cycle = some c) (hs : s.aspect.Stores k) {tree : Comb.Block}
    (h : Runs ctx lowerModule s tree s') :
    ∃ entry lowered s₁, Runs ctx (enterBlock ctx.module.root) s entry s₁ ∧
      RendersAll ctx.module s₁.aspect c (body.map ctx.module.outline) lowered ∧
      tree = s₁.aspect.straightTree entry lowered := by
  obtain ⟨ss, s₁, hss, rfl⟩ := runs_lowerModule h
  rw [hroot, houtline] at hss
  obtain ⟨r⟩ := runs_lowerSegment_block htop (by simp) rfl hss
  obtain ⟨hbefore, hs₁⟩ := runs_pure.1 r.before_runs
  have hentry := r.entry_runs
  rw [hs₁] at hentry
  have hs₂ : ({ r.s₂ with cycles := r.timing.cycle :: r.s₂.cycles } : Session).aspect.Stores k := hs.of_label (Framed.enterBlock _ _ _ _ _ rfl hentry).label
  obtain ⟨ts, us, s₃, hts, hus, hinner⟩ := runs_lowerSegments_cons r.inner_runs
  obtain ⟨rfl, hs₃⟩ := runs_pure.1 hus
  obtain ⟨lowered, hrenders, rfl, hsame⟩ := renders_leaf hstraight hwf hmax hleaf ht hc hs₂ hts
  refine ⟨r.entry, lowered, r.s₂, hentry, hrenders, ?_⟩
  have hfull : r.full = none := by
    obtain ⟨b, hb, _, hguard⟩ := hwf.root_block
    have hblk := r.block
    rw [Module.block?, hb] at hblk
    have hfull := r.full_eq
    rw [← Except.ok.inj hblk, (runs_pure.1 r.guard_runs).1] at hfull
    exact (Except.ok.inj hfull).symm.trans hguard
  obtain ⟨hcopies, hs₄⟩ := runs_pure.1 r.copies_runs
  have hmain := r.main_runs
  rw [hcopies] at hmain
  obtain ⟨hmain, hs₅⟩ := runs_withCopies_nil hmain
  obtain ⟨hafter, hs'⟩ := runs_pure.1 r.after_runs
  have haspect : r.s₄.aspect = r.s₂.aspect := by
    rw [hs₄]
    change r.s₃.aspect = _
    rw [hs₃]
    exact hsame.1
  have hmain' : r.before ++ r.main ++ r.after = inlined (updateDefaults r.s₂.aspect.isControl (.of none (r.entry ++
      inlined (updateDefaults r.s₂.aspect.isControl (updateDefaults r.s₂.aspect.isControl (.of none lowered)))))) := by
    rw [hbefore, hafter, hmain, hfull, hinner, haspect, List.nil_append, List.append_nil, List.append_nil]
    rfl
  exact congrArg₂ (fun a ss => updateDefaults (Aspect.isControl a) (.of none ss))
    ((congrArg Session.aspect (hs'.trans hs₅)).trans haspect) (r.eq.trans hmain')

end Straight

/-- How the statements of a straight module are lowered: the reads are marked in program order, the yield has the id `id`,
and the tree of a class of signals is made of what is assigned on entry and of the statements. -/
structure StraightRun (m : Module) (ctx : Context) (k : Storage) (body : List Nat) (j id : Nat) : Prop where
  wellFormed : ctx.module.WellFormed
  alike : m.Alike ctx.module
  marked : ∃ out, m.MarkedAll ctx.module [] (body.map m.outline) out
  yield : ∃ y, ctx.module.stmt j = .ok (.yield y) ∧ y.id = some id
  trees : ∀ {s a tree s'}, a.Stores k → runAspect ctx s a = (.ok tree, s') →
    ∃ entry lowered s₁, Runs ctx (enterBlock ctx.module.root) { s with aspect := a } entry s₁ ∧
      RendersAll ctx.module s₁.aspect (.flag (Name.cycleCond id)) (body.map m.outline) lowered ∧
      tree = s₁.aspect.straightTree entry lowered

theorem straight_run {d : Draft} {top : List Nat} {m : Module} (hm : d.finish top = .ok m) {c : Compiled}
    (run : CompileRun m c) {body : List Nat} {j : Nat} (h : m.Straight k body j) :
    ∃ id, StraightRun m ⟨run.st.module, run.st.schedule, run.table⟩ k body j id := by
  obtain ⟨hsched, halike, hspace⟩ := scheduled_of_build hm run.schedule_eq run.stage_eq run.table_eq
  have hstage := h.stage (Module.wellFormed_of_finish hm) run.schedule_eq run.stage_eq
  have hstraight := h.alike halike
  obtain ⟨y, id, t, hy, hid, ht, hcycle⟩ := timing_straight hstraight hstage.root hstage.outline hstage.top (by simp)
    hstage.leaf run.table_eq
  have hmax : run.table.maxState = 0 := by rw [ConditionTable.maxState, hspace, hstage.maxState]
  have htop := hstage.top
  rw [← halike.root] at htop
  refine ⟨id, hsched.wellFormed, halike, hstage.marked, ⟨y, hy, hid⟩, fun ha htree => ?_⟩
  obtain ⟨entry, lowered, s₁, hentry, hrenders, rfl⟩ := renders_module hstraight hsched.wellFormed hmax hstage.root
    hstage.outline htop hstage.leaf ht hcycle ha htree
  rw [List.map_congr_left fun i _ => halike.outline i] at hrenders
  exact ⟨entry, lowered, s₁, hentry, hrenders, rfl⟩

end Lowering

end Sequencer
