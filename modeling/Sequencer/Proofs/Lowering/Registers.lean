import Sequencer.Proofs.Condition.Cycle
import Sequencer.Proofs.Lowering.Handover
import Sequencer.Proofs.Lowering.Outputs
import Sequencer.Proofs.Lowering.Straight
import Sequencer.Proofs.Schedule.Faithful

set_option autoImplicit false

/-!
# Registers

In a given state, and with given values of all guards, a cycle executes some statements of the module, in the order of the
schedule. The tree of the registers enables those that these statements update, if the cycle completes, with the value of
the last update.
-/

namespace Sequencer

open Control

section Executed

variable {V : Type} (I : Interpretation V) (ρ : Valuation V)

instance (m : Module) (j : Nat) : Decidable (m.Opens I ρ j) :=
  match hj : m.stmt j with
  | .ok (.block b) => decidable_of_iff (Cond.holds I ρ b.guard = true)
    ⟨fun h => ⟨b, hj, h⟩, fun ⟨b', hb', h⟩ => by cases hj.symm.trans hb'; exact h⟩
  | .ok (.yield _) | .ok (.update _ _) | .ok (.assign _ _) | .error _ =>
    isFalse fun ⟨b', hb', _⟩ => by cases hj.symm.trans hb'

instance (m : Module) (s : Schedule) (i : Nat) : Decidable (s.Entered I ρ m i) :=
  match hi : s.segment i with
  | .error _ => isTrue fun seg n hseg => by cases hi.symm.trans hseg
  | .ok seg =>
    match hb : seg.block with
    | none => isTrue fun seg' n hseg hn => by cases hi.symm.trans hseg; rw [hb] at hn; cases hn
    | some n => decidable_of_iff (m.Opens I ρ n)
      ⟨fun h seg' n' hseg hn => by cases hi.symm.trans hseg; cases hb.symm.trans hn; exact h, fun h => h seg n hi hb⟩

instance (m : Module) (s : Schedule) (k i : Nat) : Decidable (s.Taken I ρ m k i) :=
  match hi : s.segment i with
  | .error _ => isFalse fun ⟨⟨seg, hseg, _⟩, _⟩ => by cases hi.symm.trans hseg
  | .ok seg => decidable_of_iff (k ∈ seg.states ∧ s.Entered I ρ m i)
    ⟨fun h => ⟨⟨seg, hi, h.1⟩, h.2⟩, fun ⟨⟨seg', hseg, hk⟩, h⟩ => by cases hi.symm.trans hseg; exact ⟨hk, h⟩⟩

instance (t : ConditionTable) (i : Nat) : Decidable (t.Exits I ρ i) :=
  match hi : t.timing i with
  | .error _ => isFalse fun ⟨u, hu, _⟩ => by cases hi.symm.trans hu
  | .ok _ => decidable_of_iff _ (ConditionTable.exits_iff hi).symm

instance (t : ConditionTable) (i : Nat) : Decidable (t.Cycles I ρ i) :=
  match hi : t.timing i with
  | .error _ => isFalse fun ⟨u, hu, _⟩ => by cases hi.symm.trans hu
  | .ok _ => decidable_of_iff _ (ConditionTable.cycles_iff hi).symm

mutual
/-- The statements that run with the statement of an outline: itself, or what is in it if it is a block whose guard
holds. -/
def Module.executed (m : Module) : Outline → List Nat
  | .node i os =>
    match m.stmt i with
    | .ok (.block b) => if Cond.holds I ρ b.guard then m.executedAll os else []
    | _ => [i]
def Module.executedAll (m : Module) : List Outline → List Nat
  | [] => []
  | o :: os => m.executed o ++ m.executedAll os
end

/-- The statements that run with a list of statements. -/
def Module.performed (m : Module) (js : List Nat) : List Nat := m.executedAll I ρ (js.map m.outline)

/-- What is assigned on entry to the module: every register is disabled and keeps its value. -/
def Module.entryAssigns (m : Module) : List Comb.Assign :=
  m.registers.entries.flatMap fun e => [.flag (Name.enable e.1) (.bool false),
    .of (Name.nextValue e.1) (.operand ⟨e.1, .register, .held, e.2.type⟩) (e.2.type.width.toOption.getD 0)]

namespace Lowering

variable (ctx : Context) (k : Nat)

mutual
/-- The statements that a cycle in the state `k` runs in the segments at and below an outline: those before a segment in
its first state, those after it when it is left in its last state. -/
def Context.executed : Outline → List Nat
  | .node i os =>
    match ctx.schedule.segment i with
    | .error _ => []
    | .ok seg =>
      (if seg.firstState? = some k then ctx.module.performed I ρ seg.prolog else []) ++
      (if ctx.schedule.Taken I ρ ctx.module k i then
        if seg.kind = .leaf then ctx.module.performed I ρ seg.stmts else Context.executedAll os
      else []) ++
      (if seg.lastState? = some k ∧ ctx.table.Exits I ρ i then ctx.module.performed I ρ seg.epilog else [])
def Context.executedAll : List Outline → List Nat
  | [] => []
  | o :: os => Context.executed o ++ Context.executedAll os
end

/-- The statements that a cycle in the state `k` runs. -/
def Context.cycle : List Nat := ctx.executed I ρ k (ctx.schedule.outline ctx.schedule.root)

end Lowering

variable {I ρ}

theorem Module.executedAll_eq (m : Module) (os : List Outline) : m.executedAll I ρ os = os.flatMap (m.executed I ρ) := by
  induction os with
  | nil => rfl
  | cons o os ih => rw [executedAll, ih, List.flatMap_cons]

/-- A statement that is no block runs by itself. -/
theorem Module.executed_outline {m : Module} {j : Nat} {st : Stmt} (hst : m.stmt j = .ok st) (hblock : st.block? = none) :
    m.executed I ρ (m.outline j) = [j] := by
  have hindex := m.index_outline j
  generalize m.outline j = o at hindex
  obtain ⟨i, os⟩ := o
  cases hindex
  change m.stmt i = .ok st at hst
  rw [executed, hst]
  cases st with
  | block b => cases hblock
  | yield y | update r v | assign x v => rfl

theorem Module.mem_performed {m : Module} {js : List Nat} {x : Nat} :
    x ∈ m.performed I ρ js ↔ ∃ j ∈ js, x ∈ m.executed I ρ (m.outline j) := by
  rw [performed, executedAll_eq, List.mem_flatMap]
  simp

theorem Lowering.Context.executedAll_eq (ctx : Context) (k : Nat) (os : List Outline) :
    ctx.executedAll I ρ k os = os.flatMap (ctx.executed I ρ k) := by
  induction os with
  | nil => rfl
  | cons o os ih => rw [executedAll, ih, List.flatMap_cons]

end Executed

namespace Lowering

open Lower Comb

section Updates

variable {V : Type} (I : Interpretation V) (ρ : Valuation V) (r : String)

/-- What the statements leave on the enable and on the next value of `r` is that of the last of the values `vs`, with an
enable that is as true as `c`. -/
structure Updates (c : Bool) (vs : List Expr) (ss : List Comb.Stmt) : Prop where
  enable : (Comb.Stmt.finalAll I ρ (Name.enable r) ss).map I.truth = if vs = [] then none else some c
  next : Comb.Stmt.finalAll I ρ (Name.nextValue r) ss = vs.getLast?.map (Expr.eval I ρ)

variable {I ρ r} {c : Bool} {vs ws : List Expr} {ss ts : List Comb.Stmt}

theorem Updates.nil : Updates I ρ r c [] [] := ⟨rfl, rfl⟩

theorem Updates.append (h : Updates I ρ r c vs ss) (h' : Updates I ρ r c ws ts) : Updates I ρ r c (vs ++ ws) (ss ++ ts) := by
  constructor
  · rw [Comb.Stmt.finalAll_append, Option.map_or, h.enable, h'.enable]
    by_cases hws : ws = []
    · simp [hws]
    · simp [hws]
  · rw [Comb.Stmt.finalAll_append, h.next, h'.next, List.getLast?_append, Option.map_or]

theorem Updates.congr {c' : Bool} (h : Updates I ρ r c vs ss) (hc : vs ≠ [] → c = c') : Updates I ρ r c' vs ss := by
  refine ⟨h.enable.trans ?_, h.next⟩
  split
  · rfl
  · rename_i hvs
    rw [hc hvs]

theorem isControl_enable (r : String) (d : Drive) : Aspect.registers.isControl ⟨Name.enable r, d⟩ = true := by
  rw [Aspect.isControl, Name.isControl, show Name.endsIn (Name.enable r) "_en" = true from Name.endsIn_append r "_en"]
  rfl

theorem isControl_nextValue (r : String) (d : Drive) : Aspect.registers.isControl ⟨Name.nextValue r, d⟩ = true := by
  rw [Aspect.isControl, show Name.endsIn (Name.nextValue r) "_next" = true from Name.endsIn_append r "_next", Bool.or_true]

theorem Updates.settled (h : Updates I ρ r c vs ss) (guard : Cond) :
    Updates I ρ r c (if Cond.holds I ρ guard then vs else [])
      (inlined (updateDefaults Aspect.registers.isControl (.of guard ss))) := by
  constructor
  · rw [finalAll_settled, updateDefaults_body _ _ I ρ _ (isControl_enable r), Comb.Block.body_of, Comb.Block.of]
    by_cases hguard : Cond.holds I ρ guard = true
    · rw [if_pos hguard, if_pos hguard]
      exact h.enable
    · rw [if_neg hguard, if_neg hguard]
      rfl
  · rw [finalAll_settled, updateDefaults_body _ _ I ρ _ (isControl_nextValue r), Comb.Block.body_of, Comb.Block.of]
    by_cases hguard : Cond.holds I ρ guard = true
    · rw [if_pos hguard, if_pos hguard]
      exact h.next
    · rw [if_neg hguard, if_neg hguard]
      rfl

theorem Updates.toStmt (h : Updates I ρ r c vs ss) (guard : Cond) :
    Updates I ρ r c (if Cond.holds I ρ guard then vs else [])
      [(updateDefaults Aspect.registers.isControl (.of guard ss)).toStmt] := by
  have hsettled := h.settled guard
  constructor
  · rw [Comb.Stmt.finalAll_singleton, ← finalAll_inlined]
    exact hsettled.enable
  · rw [Comb.Stmt.finalAll_singleton, ← finalAll_inlined]
    exact hsettled.next

/-- Defaults may be propagated again. -/
theorem Updates.resettled {b : Comb.Block} (h : Updates I ρ r c vs (inlined b)) :
    Updates I ρ r c vs (inlined (updateDefaults Aspect.registers.isControl b)) := by
  constructor
  · rw [finalAll_settled, updateDefaults_body _ _ I ρ _ (isControl_enable r), ← Comb.Block.final_toStmt, ← finalAll_inlined]
    exact h.enable
  · rw [finalAll_settled, updateDefaults_body _ _ I ρ _ (isControl_nextValue r), ← Comb.Block.final_toStmt,
      ← finalAll_inlined]
    exact h.next

theorem enable_ne_nextValue (r r' : String) : Name.enable r ≠ Name.nextValue r' :=
  Name.ne_of_ending (by
    rw [Name.ending_nextValue, show Name.ending (Name.enable r) = some 'n' from Name.ending_append rfl]
    decide)

/-- An update drives its own register only. -/
theorem updates_update (x : String) (v : Expr) (w : Nat) (e : Expr) :
    Updates I ρ r (e.holds I ρ) (if x = r then [v] else [])
      (assigns [.flag (Name.enable x) e, .of (Name.nextValue x) v w]) := by
  have henable : Name.enable x = Name.enable r ↔ x = r := String.append_left_inj "_en"
  have hnext : Name.nextValue x = Name.nextValue r ↔ x = r := String.append_left_inj "_next"
  have hne := enable_ne_nextValue r x
  have hne' := enable_ne_nextValue x r
  constructor
  · simp only [assigns, List.map_cons, List.map_nil, Comb.Stmt.finalAll, Comb.Stmt.final, Assign.final, Assign.flag,
      Assign.of, if_neg hne.symm, Option.none_or, henable]
    by_cases hx : x = r
    · simp [hx, Drive.final, Expr.holds]
    · simp [hx]
  · simp only [assigns, List.map_cons, List.map_nil, Comb.Stmt.finalAll, Comb.Stmt.final, Assign.final, Assign.flag,
      Assign.of, if_neg hne', Option.none_or, Option.or_none, hnext]
    by_cases hx : x = r
    · simp [hx, Drive.final]
    · simp [hx]

end Updates

variable {ctx : Context} {s s' : Session} {V : Type} {I : Interpretation V} {ρ : Valuation V} {k : Nat} (r : String)

theorem registers_of_label {a : Aspect} (h : a.label = Aspect.registers.label) : a = .registers := by
  cases Aspect.Stores.registers.of_label h with
  | registers => rfl

theorem registers_of_frame (hs : s.aspect = .registers) {t : ConditionTable} (h : Session.Frame t s s') : s'.aspect = .registers :=
  registers_of_label (hs ▸ h.label)

/-- The condition under which the current cycle completes. -/
def Session.current (s : Session) : Cond := s.cycles.head?.join

theorem current_of_frame {t : ConditionTable} (h : Session.Frame t s s') : s'.current = s.current := by
  rw [Session.current, h.cycles, Session.current]

theorem holds_getD_true (c : Cond) : (c.getD (.bool true)).holds I ρ = Cond.holds I ρ c := by
  cases c with
  | none => exact Expr.holds_bool I ρ true
  | some e => rfl

theorem runs_enterBlock_registers (hs : s.aspect = .registers) {i : Nat} {b : Control.Block}
    (hb : ctx.module.stmt i = .ok (.block b)) (hkind : b.kind ≠ .module) {ss : List Comb.Stmt}
    (h : Runs ctx (enterBlock i) s ss s') : ss = [] := by
  have h₁ := runs_aspect_bind.1 h
  rw [hs] at h₁
  obtain ⟨as, s₃, has, h₃⟩ := runs_bind.1 (runs_kind?_bind hb h₁)
  rw [enterRegisters, if_pos (by simpa using hkind)] at has
  rw [(runs_pure.1 h₃).1, (runs_pure.1 has).1]
  rfl

section Statements

theorem updates_visitUpdate (hs : s.aspect = .registers) {i : Nat} {x : String} {v : Expr}
    (hst : ctx.module.stmt i = .ok (.update x v)) {ss : List Comb.Stmt} (h : Runs ctx (visit i) s ss s') :
    Updates I ρ r (Cond.holds I ρ s.current) (ctx.module.values (.register, r) [i]) ss := by
  obtain ⟨rfl, _⟩ := runs_visit_write (hs ▸ .registers) hst rfl h
  have hvalues : ctx.module.values (.register, r) [i] = if x = r then [v] else [] := by
    rw [Module.values, List.filterMap_cons, hst, List.filterMap_nil]
    by_cases hx : x = r
    · simp [Except.toOption, Control.Stmt.valueFor, Control.Stmt.write?, hx]
    · simp [Except.toOption, Control.Stmt.valueFor, Control.Stmt.write?, hx]
  rw [hvalues, hs, ← holds_getD_true]
  exact updates_update x v _ _

theorem runs_visitAssign_registers (hs : s.aspect = .registers) {x : String} {v : Expr} {ss : List Comb.Stmt}
    (h : Runs ctx (visitAssign x v) s ss s') : ss = [] := by
  have h₁ := runs_aspect_bind.1 h
  rw [hs] at h₁
  exact (runs_pure.1 h₁).1

mutual
theorem updates_lowerOutline : (o : Outline) → ctx.module.blocking o = .ok false →
    ∀ {s s' : Session} {ss : List Comb.Stmt}, s.aspect = .registers → Runs ctx (lowerOutline o) s ss s' →
    Updates I ρ r (Cond.holds I ρ s.current) (ctx.module.values (.register, r) (ctx.module.executed I ρ o)) ss
  | .node i os, hfree, s, s', ss, hs, h => by
    rw [Module.blocking, Checked.bind_eq_ok] at hfree
    obtain ⟨st, hst, hfree⟩ := hfree
    rw [Module.executed, hst]
    cases st with
    | yield y => cases hfree
    | update x v => exact updates_visitUpdate r hs hst (runs_lowerOutline_visit hst rfl h)
    | assign x v =>
      obtain ⟨st', s₁, hstmt, h₁⟩ := runs_bind.1 (runs_lowerOutline_visit hst rfl h)
      obtain ⟨hst', hs₁⟩ := runs_stmt.1 hstmt
      cases hst.symm.trans hst'
      rw [runs_visitAssign_registers (hs₁ ▸ hs) h₁]
      have hnil : ctx.module.values (.register, r) [i] = [] := by
        simp [Module.values, hst, Except.toOption, Control.Stmt.valueFor, Control.Stmt.write?]
      change Updates I ρ r _ (ctx.module.values (.register, r) [i]) []
      rw [hnil]
      exact .nil
    | block b =>
      dsimp only at hfree
      split at hfree
      · cases hfree
      · rename_i hsuspends
        have hkind : b.kind ≠ .module := fun hk => by rw [hk] at hsuspends; exact hsuspends rfl
        obtain ⟨stmts, inner, s₁, henter, hinner, rfl⟩ := runs_lowerOutline_block hst h
        have hframe := Framed.enterBlock i _ _ _ _ rfl henter
        have hs₁ := registers_of_frame hs hframe
        rw [runs_enterBlock_registers hs hst hkind henter, List.nil_append,
          registers_of_frame hs₁ (Framed.lowerOutlines os _ _ _ _ rfl hinner)]
        have hupdates := updates_lowerOutlines os hfree hs₁ hinner
        rw [current_of_frame hframe] at hupdates
        have hblock := hupdates.toStmt b.guard
        by_cases hguard : Cond.holds I ρ b.guard = true
        · rw [if_pos hguard] at hblock
          simpa only [if_pos hguard] using hblock
        · rw [if_neg hguard] at hblock
          simpa only [if_neg hguard, Module.values, List.filterMap_nil] using hblock
theorem updates_lowerOutlines : (os : List Outline) → ctx.module.anyBlocking os = .ok false →
    ∀ {s s' : Session} {ss : List Comb.Stmt}, s.aspect = .registers → Runs ctx (lowerOutlines os) s ss s' →
    Updates I ρ r (Cond.holds I ρ s.current) (ctx.module.values (.register, r) (ctx.module.executedAll I ρ os)) ss
  | [], _, s, s', ss, _, h => by
    rw [(runs_pure.1 h).1]
    exact .nil
  | o :: os, hfree, s, s', ss, hs, h => by
    obtain ⟨blocks, hblocks, hfree⟩ := Checked.bind_eq_ok.1 hfree
    cases blocks with
    | true => cases hfree
    | false =>
      obtain ⟨ts, us, s₁, hts, hus, rfl⟩ := runs_lowerOutlines_cons h
      have hframe := Framed.lowerOutline o _ _ _ _ rfl hts
      have htail := updates_lowerOutlines os hfree (registers_of_frame hs hframe) hus
      rw [current_of_frame hframe] at htail
      rw [Module.executedAll, Module.values_append]
      exact (updates_lowerOutline o hblocks hs hts).append htail
end

/-- Statements of one cycle, a yield among them, drive what they update. -/
theorem updates_lowerStmts {js : List Nat} (hjs : ∀ j ∈ js, ctx.module.Free j ∨ ∃ y, ctx.module.stmt j = .ok (.yield y))
    {s s' : Session} {ss : List Comb.Stmt} (hs : s.aspect = .registers)
    (h : Runs ctx (lowerOutlines (js.map ctx.module.outline)) s ss s') :
    Updates I ρ r (Cond.holds I ρ s.current) (ctx.module.values (.register, r) (ctx.module.performed I ρ js)) ss := by
  induction js generalizing s ss with
  | nil =>
    rw [(runs_pure.1 h).1]
    exact .nil
  | cons j js ih =>
    obtain ⟨hj, hrest⟩ := List.forall_mem_cons.1 hjs
    obtain ⟨ts, us, s₁, hts, hus, rfl⟩ := runs_lowerOutlines_cons h
    have hframe := Framed.lowerOutline _ _ _ _ _ rfl hts
    have htail := ih hrest (registers_of_frame hs hframe) hus
    rw [current_of_frame hframe] at htail
    have hhead : Updates I ρ r (Cond.holds I ρ s.current)
        (ctx.module.values (.register, r) (ctx.module.executed I ρ (ctx.module.outline j))) ts := by
      rcases hj with hfree | ⟨y, hy⟩
      · exact updates_lowerOutline r _ hfree hs hts
      · have hsingle : Runs ctx (lowerOutlines [ctx.module.outline j]) s ts s₁ :=
          runs_bind.2 ⟨ts, s₁, hts, runs_bind.2 ⟨[], s₁, runs_pure.2 ⟨rfl, rfl⟩, runs_pure.2 ⟨by simp, rfl⟩⟩⟩
        have hyield := runs_lowerOutlines_yield hy hsingle
        rw [(runs_visitYield_stores (hs.symm ▸ Aspect.Stores.registers) hyield).1]
        have hnil : ctx.module.values (.register, r) [j] = [] := by
          simp [Module.values, hy, Except.toOption, Control.Stmt.valueFor, Control.Stmt.write?]
        rw [Module.executed_outline hy rfl, hnil]
        exact .nil
    rw [Module.performed, List.map_cons, Module.executedAll, Module.values_append]
    exact hhead.append htail

theorem updates_freeStmts {js : List Nat} (hjs : ∀ j ∈ js, ctx.module.Free j ∨ ∃ y, ctx.module.stmt j = .ok (.yield y))
    (hs : s.aspect = .registers) {guard cycle : Cond} {b : Comb.Block} (h : Runs ctx (freeStmts js guard cycle) s b s') :
    Updates I ρ r (Cond.holds I ρ cycle)
      (ctx.module.values (.register, r) (if Cond.holds I ρ guard then ctx.module.performed I ρ js else [])) (inlined b) := by
  obtain ⟨lowered, s₁, hlower, rfl, _⟩ := runs_freeStmts h
  have hs₀ : ({ s with cycles := cycle :: s.cycles } : Session).aspect = .registers := hs
  have hupdates := updates_lowerStmts (I := I) (ρ := ρ) r hjs hs₀ hlower
  rw [registers_of_frame hs₀ (Framed.lowerOutlines _ _ _ _ _ rfl hlower)]
  have hsettled := hupdates.settled guard
  by_cases hguard : Cond.holds I ρ guard = true
  · rw [if_pos hguard] at hsettled ⊢
    exact hsettled
  · rw [if_neg hguard] at hsettled ⊢
    exact hsettled

end Statements

section Copies

theorem runs_stateCopy_registers (hs : s.aspect = .registers) {node : Option Nat}
    (hnode : ∀ n, node = some n → ∃ b, ctx.module.stmt n = .ok (.block b) ∧ b.kind ≠ .module) {tr : Transition}
    {copy : Comb.Block} (h : Runs ctx (stateCopy node tr) s copy s') : copy.isEmpty = true := by
  obtain ⟨s₁, hframe, h₁⟩ := runs_stateCopy_bare (fun hb hkind => runs_enterBlock_registers hs hb hkind) hnode h
  obtain ⟨b, s₂, hassign, hsettled⟩ := runs_bind.1 h₁
  replace hassign := runs_aspect_bind.1 hassign
  rw [registers_of_frame hs hframe] at hassign
  rw [(runs_settled.1 hsettled).1, (runs_pure.1 hassign).1]
  rfl

/-- No change of state has an effect on the registers. -/
theorem runs_stateCopies_registers (hs : s.aspect = .registers) {i : Nat} {seg : Segment} {parent : Option (List Nat)}
    (hnode : ∀ n, parent ≠ none → seg.block = some n → ∃ b, ctx.module.stmt n = .ok (.block b) ∧ b.kind ≠ .module)
    {copies : List Comb.Block} (h : Runs ctx (stateCopies i seg parent) s copies s') : copies = [] := by
  refine List.eq_nil_iff_forall_not_mem.2 fun c hc => ?_
  obtain ⟨hparent, hne, tr, s₁, s₂, hframe, hcopy⟩ := mem_stateCopies h c hc
  rw [runs_stateCopy_registers (registers_of_frame hs hframe) (fun n hn => hnode n hparent hn) hcopy] at hne
  cases hne

end Copies

section Nodes

variable {i : Nat} {os : List Outline} {seg : Segment}

theorem executed_block (hseg : ctx.schedule.segment i = .ok seg) (hkind : seg.kind ≠ .leaf) :
    ctx.executed I ρ k (.node i os) =
      (if seg.firstState? = some k then ctx.module.performed I ρ seg.prolog else []) ++
      (if ctx.schedule.Taken I ρ ctx.module k i then ctx.executedAll I ρ k os else []) ++
      (if seg.lastState? = some k ∧ ctx.table.Exits I ρ i then ctx.module.performed I ρ seg.epilog else []) := by
  rw [Context.executed, hseg]
  dsimp only
  rw [if_neg hkind]

theorem executed_leaf (os : List Outline) (h : Schedule.LeafFits ctx.module ctx.schedule ctx.table.maxState i seg) :
    ctx.executed I ρ k (.node i os) = if k ∈ seg.states then ctx.module.performed I ρ seg.stmts else [] := by
  have htaken : ctx.schedule.Taken I ρ ctx.module k i ↔ k ∈ seg.states := by
    constructor
    · rintro ⟨⟨seg', hseg', hk⟩, _⟩
      cases h.segment.symm.trans hseg'
      exact hk
    · exact fun hk => ⟨⟨seg, h.segment, hk⟩, h.entered⟩
  have hnil : ctx.module.performed I ρ [] = [] := rfl
  rw [Context.executed, h.segment]
  dsimp only
  rw [h.prolog, h.epilog, hnil, ite_self, ite_self, List.nil_append, List.append_nil, if_pos h.kind]
  simp only [htaken]

/-- A segment in which something runs has the current state. -/
theorem mem_states_of_executed (hseg : ctx.schedule.segment i = .ok seg)
    (h : ctx.executed I ρ k (.node i os) ≠ []) : k ∈ seg.states := by
  by_contra hk
  have hfirst : seg.firstState? ≠ some k := fun hx => hk (List.mem_of_head? hx)
  have hlast : ¬(seg.lastState? = some k ∧ ctx.table.Exits I ρ i) := fun hx => hk (List.mem_of_getLast? hx.1)
  have htaken : ¬ctx.schedule.Taken I ρ ctx.module k i := by
    rintro ⟨⟨seg', hseg', hk'⟩, _⟩
    cases hseg.symm.trans hseg'
    exact hk hk'
  rw [Context.executed, hseg] at h
  dsimp only at h
  rw [if_neg hfirst, if_neg hlast, if_neg htaken] at h
  exact h rfl

end Nodes

section Segments

theorem narrow_single (hk : ctx.table.space.Holds I ρ k) {P : List Nat} (hP : k ∈ P) {x : Nat}
    (hx : x ≤ ctx.table.maxState) {guard : Cond} (h : Runs ctx (narrow (some P) [x]) s guard s') :
    Cond.holds I ρ guard = true ↔ x = k := by
  rw [hk.narrow (List.cons_ne_nil x []) (List.nodup_singleton x) ?_ hP (runs_narrow.1 h).1]
  · simp [eq_comm]
  · intro y hy
    rw [List.mem_singleton.1 hy]
    exact hx

variable {i n : Nat} {os : List Outline} {b : Control.Block} {seg : Segment} {segs : List Segment}
  (hr : Running I ρ ctx k) (h : Schedule.BlockFits ctx.module ctx.schedule ctx.table.maxState i os n b seg segs)
  {P : List Nat} (hP : k ∈ P) (hs : s.aspect = .registers) {ss : List Comb.Stmt}

include hr h hP hs

/-- The statements before a segment run in its first state. -/
theorem updates_lowerProlog (hss : Runs ctx (lowerProlog i seg (some P)) s ss s') :
    Updates I ρ r (decide (ctx.table.Cycles I ρ i)) (ctx.module.values (.register, r)
      (if seg.firstState? = some k then ctx.module.performed I ρ seg.prolog else [])) ss := by
  unfold lowerProlog at hss
  split at hss
  · rename_i hempty
    rw [(runs_pure.1 hss).1, List.isEmpty_iff.1 hempty, show ctx.module.performed I ρ [] = [] from rfl, ite_self]
    exact .nil
  · obtain ⟨guard, s₁, hguard, h₁⟩ := runs_bind.1 hss
    obtain ⟨t, s₂, htiming, h₂⟩ := runs_bind.1 h₁
    obtain ⟨blk, s₃, hb, h₃⟩ := runs_bind.1 h₂
    rw [(runs_pure.1 h₃).1]
    obtain ⟨ht, rfl⟩ := runs_timing.1 htiming
    have hs₁ := runs_narrow_session hguard
    obtain ⟨x, xs, hx⟩ := List.exists_cons_of_ne_nil h.states.ne_nil
    have hfirst : seg.firstState? = some x := by rw [Segment.firstState?, hx, List.head?_cons]
    rw [hfirst] at hguard ⊢
    have hholds := narrow_single hr.state hP (h.states.le_max x (by simp [hx])) hguard
    have hupdates := updates_freeStmts (I := I) (ρ := ρ) r (fun j hj => .inl (h.prolog j hj)) (hs₁ ▸ hs) hb
    simp only [hholds] at hupdates
    have hcycle : Cond.holds I ρ t.cycle = decide (ctx.table.Cycles I ρ i) := by
      rw [Bool.eq_iff_iff, decide_eq_true_eq, ConditionTable.cycles_iff ht]
    rw [hcycle] at hupdates
    simpa only [Option.some.injEq] using hupdates

/-- The statements after a segment run when it is left in its last state. -/
theorem updates_lowerEpilog (hexits : ctx.table.Exits I ρ i → ctx.table.Cycles I ρ i)
    (hss : Runs ctx (lowerEpilog i seg (some P)) s ss s') :
    Updates I ρ r (decide (ctx.table.Cycles I ρ i)) (ctx.module.values (.register, r)
      (if seg.lastState? = some k ∧ ctx.table.Exits I ρ i then ctx.module.performed I ρ seg.epilog else [])) ss := by
  unfold lowerEpilog at hss
  split at hss
  · rename_i hempty
    rw [(runs_pure.1 hss).1, List.isEmpty_iff.1 hempty, show ctx.module.performed I ρ [] = [] from rfl, ite_self]
    exact .nil
  · obtain ⟨t, s₁, htiming, h₁⟩ := runs_bind.1 hss
    obtain ⟨test, s₂, htest, h₂⟩ := runs_bind.1 h₁
    obtain ⟨guard, s₃, hguard, h₃⟩ := runs_bind.1 h₂
    obtain ⟨blk, s₄, hb, h₄⟩ := runs_bind.1 h₃
    rw [(runs_pure.1 h₄).1]
    obtain ⟨ht, rfl⟩ := runs_timing.1 htiming
    have hs₂ := runs_narrow_session htest
    obtain ⟨hand, rfl⟩ := runs_check.1 hguard
    have hlast := List.getLast?_eq_some_getLast h.states.ne_nil
    rw [Segment.lastState?, hlast] at htest ⊢
    have hholds := narrow_single hr.state hP (h.states.le_max _ (List.getLast_mem h.states.ne_nil)) htest
    have hupdates := updates_freeStmts (I := I) (ρ := ρ) r (fun j hj => .inl (h.epilog j hj)) (hs₂ ▸ hs) hb
    simp only [Cond.holds_and I ρ hand, Bool.and_eq_true, hholds, ← ConditionTable.exits_iff ht] at hupdates
    simp only [Option.some.injEq]
    refine hupdates.congr ?_
    intro hne
    rw [Bool.eq_iff_iff, decide_eq_true_eq, ← ConditionTable.exits_iff ht]
    have hexit : ctx.table.Exits I ρ i := by
      by_contra hnot
      rw [if_neg fun hand => hnot hand.2] at hne
      exact hne rfl
    exact iff_of_true hexit (hexits hexit)

end Segments

section Agreement

theorem opens_of_executed_outline {m : Module} {j : Nat} {b : Control.Block} (hj : m.stmt j = .ok (.block b))
    (h : m.executed I ρ (m.outline j) ≠ []) : m.Opens I ρ j := by
  have hindex := m.index_outline j
  generalize m.outline j = o at hindex h
  obtain ⟨i, os⟩ := o
  cases hindex
  refine ⟨b, hj, ?_⟩
  by_contra hguard
  rw [Module.executed, show m.stmt i = .ok (.block b) from hj] at h
  exact h (if_neg hguard)

variable {i n : Nat} {os : List Outline} {b : Control.Block} {seg : Segment} {segs : List Segment}
  (hr : Running I ρ ctx k) (h : Schedule.BlockFits ctx.module ctx.schedule ctx.table.maxState i os n b seg segs)
  (hos : ∀ o ∈ os, ctx.schedule.Consistent ctx.module ctx.table.maxState o)

include hr h

theorem branches_conditional (hcontainer : b.kind = .container) :
    ∀ j ∈ b.stmts, ∃ c, ctx.module.stmt j = .ok (.block c) ∧ c.kind = .conditional := by
  obtain ⟨st, hst, hfits⟩ := hr.wellFormed.fits n h.inside_block
  cases h.stmt.symm.trans hst
  simpa only [Module.Fits, hcontainer] using hfits

include hos

/-- A branch in which something runs has a statement whose guard holds. -/
theorem opens_of_executed (hcontainer : b.kind = .container) {o : Outline} (ho : o ∈ os) {c : Segment} (hc : c ∈ segs)
    (hoc : ctx.schedule.segment o.index = .ok c) (hleaf : c.kind ≠ .leaf) (hne : ctx.executed I ρ k o ≠ []) :
    ∃ x ∈ c.spelled, ctx.module.Opens I ρ x := by
  obtain ⟨n', hn', hspelled⟩ := (hos o ho).exists_block hoc hleaf
  have hcond := branches_conditional hr h hcontainer
  have hfree : ∀ js, (∀ j ∈ js, j ∈ c.spelled) → ctx.module.performed I ρ js ≠ [] →
      ∃ x ∈ c.spelled, ctx.module.Opens I ρ x := by
    intro js hjs hperformed
    obtain ⟨x, hx⟩ := List.exists_mem_of_ne_nil _ hperformed
    obtain ⟨j, hj, hxj⟩ := Module.mem_performed.1 hx
    obtain ⟨cb, hcb, _⟩ := hcond j (h.mem_stmts hc (hjs j hj))
    exact ⟨j, hjs j hj, opens_of_executed_outline hcb (List.ne_nil_of_mem hxj)⟩
  have hparts : c.spelled = c.prolog ++ [n'] ++ c.epilog := by
    unfold Segment.spelled
    split
    · exact absurd ‹_› hleaf
    · simp [hn']
  by_cases htaken : ctx.schedule.Taken I ρ ctx.module k o.index
  · exact ⟨n', hspelled, htaken.2 c n' hoc hn'⟩
  · obtain ⟨i', os'⟩ := o
    change ctx.schedule.segment i' = .ok c at hoc
    change ¬ctx.schedule.Taken I ρ ctx.module k i' at htaken
    rw [executed_block hoc hleaf, if_neg htaken, List.append_nil] at hne
    by_cases hfirst : (if c.firstState? = some k then ctx.module.performed I ρ c.prolog else []) = []
    · rw [hfirst, List.nil_append] at hne
      split at hne
      · exact hfree c.epilog (fun j hj => by simp [hparts, hj]) hne
      · exact absurd rfl hne
    · split at hfirst
      · exact hfree c.prolog (fun j hj => by simp [hparts, hj]) hfirst
      · exact absurd rfl hfirst

/-- The branch with a statement whose guard holds decides whether the cycle of the container completes. -/
theorem cycles_container (hentered : ctx.schedule.Entered I ρ ctx.module i) (hmutex : seg.kind = .mutex)
    (hcontainer : b.kind = .container) (hleaf : ∀ c ∈ segs, c.kind ≠ .leaf) {o : Outline} (ho : o ∈ os)
    {c : Segment} (hoc : ctx.schedule.segment o.index = .ok c) {x : Nat} (hx : x ∈ c.spelled)
    (hopen : ctx.module.Opens I ρ x) : ctx.table.Cycles I ρ i ↔ ctx.table.Cycles I ρ o.index := by
  rw [ConditionTable.cycles_mutex hr.satisfied hr.defines h hentered hmutex]
  refine ⟨fun hall => hall o ho, fun hcycles o' ho' => ?_⟩
  by_cases heq : o' = o
  · rw [heq]
    exact hcycles
  -- No other branch is entered, and a branch that is skipped completes its cycle.
  have hpair := (hr.exclusive n h.inside_block b h.stmt hcontainer).sublist h.spelled
  rw [List.pairwise_flatMap] at hpair
  have hbranches : os.Pairwise fun o o' =>
      ¬((∃ c, ctx.schedule.segment o.index = .ok c ∧ ∃ x ∈ c.spelled, ctx.module.Opens I ρ x) ∧
        ∃ c, ctx.schedule.segment o'.index = .ok c ∧ ∃ x ∈ c.spelled, ctx.module.Opens I ρ x) := by
    refine Schedule.pairwise_of_forall₂ h.segments hpair.2 ?_
    rintro o₁ o₂ c₁ c₂ _ _ _ _ hoc₁ hoc₂ hnot ⟨⟨d₁, hd₁, x₁, hx₁, hopen₁⟩, d₂, hd₂, x₂, hx₂, hopen₂⟩
    cases hoc₁.symm.trans hd₁
    cases hoc₂.symm.trans hd₂
    exact hnot x₁ hx₁ x₂ hx₂ ⟨hopen₁, hopen₂⟩
  obtain ⟨c', hc', hoc'⟩ := h.child ho'
  obtain ⟨n', hn', hspelled⟩ := (hos o' ho').exists_block hoc' (hleaf c' hc')
  have hskip : ¬ctx.schedule.Entered I ρ ctx.module o'.index := fun hentered' =>
    heq (Schedule.eq_of_pairwise_not hbranches ho' ho ⟨c', hoc', n', hspelled, hentered' c' n' hoc' hn'⟩
      ⟨c, hoc, x, hx, hopen⟩)
  obtain ⟨b', hb', hkind⟩ := branches_conditional hr h hcontainer n' (h.mem_stmts hc' hspelled)
  cases hos o' ho' with
  | leaf hfits =>
    cases hoc'.symm.trans hfits.segment
    exact absurd hfits.kind (hleaf c' hc')
  | block hfits _ =>
    cases hoc'.symm.trans hfits.segment
    cases hn'.symm.trans hfits.block
    cases hb'.symm.trans hfits.stmt
    exact ConditionTable.cycles_of_skipped hr.satisfied hr.defines hfits hkind hskip

/-- A segment that is entered completes its cycle with the segment below it that has the current state. Of the branches of
a container this is one with a statement whose guard holds. -/
theorem cycles_below (hentered : ctx.schedule.Entered I ρ ctx.module i) (hmem : k ∈ seg.states) {o : Outline} (ho : o ∈ os)
    {c : Segment} (hoc : ctx.schedule.segment o.index = .ok c) (hkc : k ∈ c.states)
    (hopen : b.kind = .container → c.kind ≠ .leaf → ∃ x ∈ c.spelled, ctx.module.Opens I ρ x) :
    ctx.table.Cycles I ρ i ↔ ctx.table.Cycles I ρ o.index := by
  rcases h.kind with ⟨hseq, _⟩ | ⟨hmutex, ⟨hcontainer, hleaf⟩ | ⟨_, hle⟩⟩
  · refine ConditionTable.cycles_seq hr.satisfied hr.defines h hentered hr.state hmem hseq ?_ ho hoc hkc
    intro d hd
    obtain ⟨o', ho', hod⟩ := exists_of_mem_forall₂ h.segments hd
    exact (hos o' ho').states hod
  · obtain ⟨c', hc', hoc'⟩ := h.child ho
    cases hoc.symm.trans hoc'
    obtain ⟨x, hx, hopens⟩ := hopen hcontainer (hleaf c hc')
    exact cycles_container hr h hos hentered hmutex hcontainer hleaf ho hoc hx hopens
  · rw [ConditionTable.cycles_mutex hr.satisfied hr.defines h hentered hmutex]
    rw [← h.segments.length_eq] at hle
    match os, hle, ho with
    | [o'], _, ho =>
      rw [List.mem_singleton.1 ho]
      simp
    | _ :: _ :: _, hle, _ => simp at hle

/-- A segment that is entered completes its cycle with the segment below it in which something runs. -/
theorem cycles_agree (hentered : ctx.schedule.Entered I ρ ctx.module i) (hmem : k ∈ seg.states) {o : Outline} (ho : o ∈ os)
    (hne : ctx.executed I ρ k o ≠ []) : ctx.table.Cycles I ρ i ↔ ctx.table.Cycles I ρ o.index := by
  obtain ⟨c, hc, hoc⟩ := h.child ho
  have hkc : k ∈ c.states := by
    obtain ⟨i', os'⟩ := o
    exact mem_states_of_executed hoc hne
  exact cycles_below hr h hos hentered hmem ho hoc hkc fun hcontainer hleaf =>
    opens_of_executed hr h hos hcontainer ho hc hoc hleaf hne

end Agreement

section Walk

theorem updates_lowerSegments {c : Bool} {cur : Cond} {P : List Nat} {os : List Outline}
    (h : ∀ o ∈ os, ∀ s ss s', s.aspect = .registers → s.current = cur → Runs ctx (lowerSegment (some P) o) s ss s' →
      Updates I ρ r c (ctx.module.values (.register, r) (ctx.executed I ρ k o)) ss)
    {s s' : Session} (hs : s.aspect = .registers) (hcur : s.current = cur) {ss : List Comb.Stmt}
    (hss : Runs ctx (lowerSegments P os) s ss s') :
    Updates I ρ r c (ctx.module.values (.register, r) (ctx.executedAll I ρ k os)) ss := by
  induction os generalizing s ss with
  | nil =>
    rw [(runs_pure.1 hss).1]
    exact .nil
  | cons o os ih =>
    obtain ⟨ts, us, s₁, hts, hus, rfl⟩ := runs_lowerSegments_cons hss
    have hframe := Framed.lowerSegment _ _ _ _ _ _ rfl hts
    rw [Context.executedAll, Module.values_append]
    exact (h o List.mem_cons_self s ts s₁ hs hcur hts).append (ih (fun o' ho' => h o' (List.mem_cons_of_mem _ ho'))
      (registers_of_frame hs hframe) ((current_of_frame hframe).trans hcur) hus)

variable (hr : Running I ρ ctx k)

include hr

/-- What the segments below one that is taken drive, with the enable of that one. -/
theorem updates_inner {i n : Nat} {os : List Outline} {b : Control.Block} {seg : Segment} {segs : List Segment}
    (h : Schedule.BlockFits ctx.module ctx.schedule ctx.table.maxState i os n b seg segs)
    (hos : ∀ o ∈ os, ctx.schedule.Consistent ctx.module ctx.table.maxState o)
    (ih : ∀ o ∈ os, ∀ {e : Segment}, ctx.schedule.segment o.index = .ok e → e.parent ≠ none → ∀ {P : List Nat}, k ∈ P →
      ∀ {s s' : Session} {ss : List Comb.Stmt}, s.aspect = .registers →
      (ctx.executed I ρ k o ≠ [] → (Cond.holds I ρ s.current = true ↔ ctx.table.Cycles I ρ o.index)) →
      Runs ctx (lowerSegment (some P) o) s ss s' →
      Updates I ρ r (decide (ctx.table.Cycles I ρ o.index)) (ctx.module.values (.register, r) (ctx.executed I ρ k o)) ss)
    (htaken : ctx.schedule.Taken I ρ ctx.module k i) {t : Timing} (ht : ctx.table.timing i = .ok t)
    (hs : s.aspect = .registers) (hcur : s.current = t.cycle) {ss : List Comb.Stmt}
    (hss : Runs ctx (lowerSegments seg.states os) s ss s') :
    Updates I ρ r (decide (ctx.table.Cycles I ρ i)) (ctx.module.values (.register, r) (ctx.executedAll I ρ k os)) ss := by
  obtain ⟨hmem, hentered⟩ := h.taken_iff.1 htaken
  refine updates_lowerSegments r ?_ hs hcur hss
  intro o ho s₁ ss₁ s₁' hs₁ hcur₁ hss₁
  obtain ⟨e, he, hoe⟩ := h.child ho
  refine (ih o ho hoe (by simp [h.parents e he]) hmem hs₁ ?_ hss₁).congr ?_
  · intro hne
    rw [hcur₁, ← ConditionTable.cycles_iff ht, cycles_agree hr h hos hentered hmem ho hne]
  · intro hne
    have hexecuted : ctx.executed I ρ k o ≠ [] := fun hnil => hne (by rw [hnil]; rfl)
    rw [Bool.eq_iff_iff, decide_eq_true_eq, decide_eq_true_eq, cycles_agree hr h hos hentered hmem ho hexecuted]

/-- A segment updates what runs in it, enabled if its cycle completes. -/
theorem updates_segment (hpairs : ctx.table.Pairs ctx.schedule) {o : Outline} (h : ctx.schedule.Consistent ctx.module ctx.table.maxState o) {seg : Segment}
    (hseg : ctx.schedule.segment o.index = .ok seg) (hparent : seg.parent ≠ none) {P : List Nat} (hP : k ∈ P)
    {s s' : Session} {ss : List Comb.Stmt} (hs : s.aspect = .registers)
    (hcur : ctx.executed I ρ k o ≠ [] → (Cond.holds I ρ s.current = true ↔ ctx.table.Cycles I ρ o.index))
    (hss : Runs ctx (lowerSegment (some P) o) s ss s') :
    Updates I ρ r (decide (ctx.table.Cycles I ρ o.index))
      (ctx.module.values (.register, r) (ctx.executed I ρ k o)) ss := by
  induction h generalizing seg P s ss s' with
  | @leaf i leaf h =>
    cases h.segment.symm.trans hseg
    obtain ⟨guard, t, body, copies, s₁, s₂, hguard, ht, hbody, hcopies, hmain⟩ :=
      runs_lowerSegment_leaf h.segment h.kind h.prolog h.epilog hss
    have hs₁ := registers_of_frame hs (Framed.freeStmts _ _ _ _ _ _ _ rfl hbody)
    have hnil := runs_stateCopies_registers hs₁ (fun n _ hn => by rw [h.block] at hn; cases hn) hcopies
    subst hnil
    have hs₂ := registers_of_frame hs₁ (Framed.stateCopies _ _ _ _ _ _ _ rfl hcopies)
    obtain ⟨rfl, _⟩ := runs_withCopies_nil hmain
    rw [hs₂]
    have hholds := narrow_holds I ρ hr.state h.states (fun _ hP' => Option.some.inj hP' ▸ hP) (by simp) hguard
    have hupdates := (updates_freeStmts (I := I) (ρ := ρ) r (fun j hj => h.stmts.free_or_yield hj) hs hbody).resettled
    simp only [hholds, decide_eq_true_eq] at hupdates
    rw [← executed_leaf [] h] at hupdates
    refine hupdates.congr ?_
    intro hne
    have hexecuted : ctx.executed I ρ k (.node i []) ≠ [] := fun hnil => hne (by rw [hnil]; rfl)
    rw [Bool.eq_iff_iff, decide_eq_true_eq]
    cases hcycle : t.cycle with
    | none => exact hcur hexecuted
    | some c =>
      rw [Option.some_or, ← hcycle]
      exact (ConditionTable.cycles_iff ht).symm
  | @block i n b seg os segs h hos ih =>
    cases h.segment.symm.trans hseg
    have hmodule : b.kind ≠ .module := fun hm => hparent (h.module.1 hm)
    obtain ⟨u⟩ := runs_lowerSegment_block h.segment h.not_leaf h.block hss
    obtain ⟨hl₁, hl₂, hl₃, hl₄, hl₅⟩ := u.labels
    rw [hs] at hl₁ hl₂ hl₃ hl₄ hl₅
    have hs₃ : ({ u.s₃ with cycles := u.s₃.cycles.tail } : Session).aspect = .registers := registers_of_label hl₃
    have hnil : u.copies = [] := runs_stateCopies_registers hs₃ (fun n' _ hn => by
      cases h.block.symm.trans hn
      exact ⟨b, h.stmt, hmodule⟩) u.copies_runs
    have hmain := u.main_runs
    rw [hnil, runs_enterBlock_registers (registers_of_label hl₁) h.stmt hmodule u.entry_runs] at hmain
    obtain ⟨hmain, _⟩ := runs_withCopies_nil hmain
    rw [registers_of_label hl₄] at hmain
    have htaken := u.full_iff h hr.state (fun _ hP' => Option.some.inj hP' ▸ hP) (by simp)
    have hbody : Updates I ρ r (decide (ctx.table.Cycles I ρ i)) (ctx.module.values (.register, r)
        (if ctx.schedule.Taken I ρ ctx.module k i then ctx.executedAll I ρ k os else [])) u.main := by
      rw [hmain]
      by_cases ht : ctx.schedule.Taken I ρ ctx.module k i
      · have hinner := updates_inner r hr h hos (fun o ho => ih o ho) ht u.timing_eq
          (s := { u.s₂ with cycles := u.timing.cycle :: u.s₂.cycles }) (registers_of_label hl₂) rfl u.inner_runs
        have hsettled := hinner.settled u.full
        rw [if_pos (htaken.2 ht)] at hsettled
        rw [if_pos ht]
        exact hsettled
      · rw [if_neg ht]
        constructor
        · rw [finalAll_settled, if_neg fun hfull => ht (htaken.1 hfull)]
          rfl
        · rw [finalAll_settled, if_neg fun hfull => ht (htaken.1 hfull)]
          rfl
    have hexits : ctx.table.Exits I ρ i → ctx.table.Cycles I ρ i :=
      ConditionTable.cycles_of_exits hr.satisfied hr.defines hpairs (.block h hos)
    have hbefore := updates_lowerProlog r hr h hP hs u.before_runs
    have hafter := updates_lowerEpilog r hr h hP (registers_of_label hl₅) hexits u.after_runs
    change Updates I ρ r (decide (ctx.table.Cycles I ρ i)) _ ss
    rw [u.eq, executed_block h.segment h.not_leaf, Module.values_append, Module.values_append]
    exact (hbefore.append hbody).append hafter

end Walk

section Module

/-- What a register holds, if it is declared. -/
def heldValue (ρ : Valuation V) (m : Module) (r : String) : Option V :=
  (m.registers.get? r).map fun reg => ρ.operand ⟨r, .register, .held, reg.type⟩

/-- The entry for a name, if there is one, among all entries. -/
theorem flatMap_entries {α β : Type} (l : Listing α) (f : String × α → β) :
    (l.entries.flatMap fun e => if e.1 = r then [f e] else []) = ((l.get? r).map fun a => f (r, a)).toList := by
  obtain ⟨es, hes⟩ := l
  change _ = (((es.find? (·.1 == r)).map Prod.snd).map fun a => f (r, a)).toList
  change (es.flatMap fun e => if e.1 = r then [f e] else []) = _
  induction es with
  | nil => rfl
  | cons e es ih =>
    obtain ⟨hne, hes⟩ := List.nodup_cons.1 hes
    rw [List.flatMap_cons]
    by_cases hr : e.1 = r
    · have hrest : (es.flatMap fun e => if e.1 = r then [f e] else []) = [] := by
        refine List.flatMap_eq_nil_iff.2 fun x hx => if_neg ?_
        rintro hxr
        exact hne (hr.trans hxr.symm ▸ List.mem_map_of_mem hx)
      rw [hrest, List.append_nil, if_pos hr, List.find?_cons_of_pos (by simpa using hr), ← hr]
      rfl
    · rw [if_neg hr, List.nil_append, ih hes, List.find?_cons_of_neg (by simpa using hr)]

theorem runs_enterBlock_module (hs : s.aspect = .registers) {i : Nat} {b : Control.Block}
    (hb : ctx.module.stmt i = .ok (.block b)) (hkind : b.kind = .module) {ss : List Comb.Stmt}
    (h : Runs ctx (enterBlock i) s ss s') : ss = assigns ctx.module.entryAssigns := by
  have h₁ := runs_aspect_bind.1 h
  rw [hs] at h₁
  obtain ⟨as, s₃, has, h₃⟩ := runs_bind.1 (runs_kind?_bind hb h₁)
  rw [enterRegisters, if_neg (by simp [hkind])] at has
  obtain ⟨entries, s₄, hentries, h₄⟩ := runs_bind.1 (runs_read_bind.1 has)
  rw [(runs_pure.1 h₃).1, (runs_pure.1 h₄).1, Module.entryAssigns, List.flatMap_def]
  congr 2
  have hforall : List.Forall₂ (fun e as => as = [Assign.flag (Name.enable e.1) (.bool false),
      .of (Name.nextValue e.1) (.operand ⟨e.1, .register, .held, e.2.type⟩) (e.2.type.width.toOption.getD 0)])
      ctx.module.registers.entries entries := by
    refine runs_mapM ?_ hentries
    intro e t as t' hrun
    obtain ⟨w, t₁, hcheck, hpure⟩ := runs_bind.1 hrun
    rw [(runs_pure.1 hpure).1, (runs_check.1 hcheck).1]
    rfl
  clear hentries h₄ has
  generalize ctx.module.registers.entries = es at hforall
  induction hforall with
  | nil => rfl
  | cons he _ ih => rw [List.map_cons, he, ih]

/-- Every declared register is disabled and keeps its value on entry to the module. -/
theorem updates_entry (m : Module) :
    Updates I ρ r false ((m.registers.get? r).map fun reg =>
      Expr.operand ⟨r, .register, .held, reg.type⟩).toList (assigns m.entryAssigns) := by
  rw [← flatMap_entries r m.registers fun e => Expr.operand ⟨e.1, .register, .held, e.2.type⟩, Module.entryAssigns]
  induction m.registers.entries with
  | nil => exact .nil
  | cons e es ih =>
    have hhead := updates_update (I := I) (ρ := ρ) (r := r) e.1 (.operand ⟨e.1, .register, .held, e.2.type⟩)
      (e.2.type.width.toOption.getD 0) (.bool false)
    rw [Expr.holds_bool] at hhead
    rw [List.flatMap_cons, List.flatMap_cons, assigns, List.map_append]
    exact hhead.append ih

/-- What the tree of the registers leaves: a register is enabled if a statement that updates it runs and the cycle of the
module completes, and its next value is that of the last update, or else what it holds. -/
theorem run_registers (hr : Running I ρ ctx k) (hpairs : ctx.table.Pairs ctx.schedule) {tree : Comb.Block}
    (h : runAspect ctx s .registers = (.ok tree, s')) :
    ((tree.run I (fun _ => ρ) (Name.enable r)).any I.truth = true ↔
      ctx.table.Cycles I ρ ctx.schedule.root ∧ ctx.module.values (.register, r) (ctx.cycle I ρ k) ≠ []) ∧
    tree.run I (fun _ => ρ) (Name.nextValue r) =
      ((ctx.module.values (.register, r) (ctx.cycle I ρ k)).getLast?.map (Expr.eval I ρ)).or
        (heldValue ρ ctx.module r) := by
  obtain ⟨os, n, b, seg, segs, houtline, hfits, hos, hkind, htaken⟩ := hr.root_fits
  obtain ⟨ss, s₁, hss, rfl⟩ := runs_lowerModule h
  rw [houtline] at hss
  obtain ⟨u⟩ := runs_lowerSegment_block hfits.segment hfits.not_leaf hfits.block hss
  obtain ⟨hl₁, hl₂, hl₃, hl₄, hl₅⟩ := u.labels
  have hs₁ := registers_of_label ((Framed.lowerEpilog _ _ _ _ _ _ _ rfl u.after_runs).label.trans hl₅)
  have htaken := htaken I ρ k hr.state.le_max
  have hempty := hr.root_bare hfits.segment
  have hbefore : u.before = [] := by
    have hrun := u.before_runs
    rw [lowerProlog, hempty.1] at hrun
    exact (runs_pure.1 hrun).1
  have hafter : u.after = [] := by
    have hrun := u.after_runs
    rw [lowerEpilog, hempty.2] at hrun
    exact (runs_pure.1 hrun).1
  have hmain := u.main_runs
  rw [(runs_pure.1 u.copies_runs).1] at hmain
  obtain ⟨hmain, _⟩ := runs_withCopies_nil hmain
  rw [registers_of_label hl₄] at hmain
  have hfull : Cond.holds I ρ u.full = true :=
    (u.full_iff hfits hr.state (fun P hP => by cases hP) fun _ => (hfits.taken_iff.1 htaken).1).2 htaken
  have hrun : ∀ t, (∀ d, Aspect.registers.isControl ⟨t, d⟩ = true) →
      (updateDefaults s₁.aspect.isControl (.of none ss)).run I (fun _ => ρ) t =
        (Comb.Stmt.finalAll I ρ t u.inner).or (Comb.Stmt.finalAll I ρ t u.entry) := by
    intro t ht
    rw [hs₁, Comb.Block.run_fixed I ρ t _ (updateDefaults_guard _ _), updateDefaults_body _ _ I ρ t ht,
      Comb.Block.body_of]
    refine (congrArg (Comb.Stmt.finalAll I ρ t) u.eq).trans ?_
    rw [hbefore, hafter, hmain, List.nil_append, List.append_nil, finalAll_settled, if_pos hfull,
      updateDefaults_body _ _ I ρ t ht, ← Comb.Stmt.finalAll_append]
    exact Comb.Block.body_of I ρ t u.full _
  have hinner := updates_inner r hr hfits hos (fun o ho e he hparent P hP s s' ss hs hcur hss =>
    updates_segment r hr hpairs (hos o ho) he hparent hP hs hcur hss) htaken u.timing_eq
    (s := { u.s₂ with cycles := u.timing.cycle :: u.s₂.cycles }) (registers_of_label hl₂) rfl u.inner_runs
  have hentry := updates_entry (I := I) (ρ := ρ) r ctx.module
  rw [← runs_enterBlock_module (registers_of_label hl₁) hfits.stmt hkind u.entry_runs] at hentry
  have hcycle : ctx.cycle I ρ k = ctx.executedAll I ρ k os := by
    rw [Context.cycle, houtline, executed_block hfits.segment hfits.not_leaf, hempty.1, hempty.2,
      show ctx.module.performed I ρ [] = [] from rfl, ite_self, ite_self, if_pos htaken, List.nil_append, List.append_nil]
  rw [hrun _ (isControl_enable r), hrun _ (isControl_nextValue r), hinner.next, hentry.next, hcycle]
  constructor
  · generalize ctx.module.values (.register, r) (ctx.executedAll I ρ k os) = vs at hinner
    have henable := hinner.enable
    by_cases hvs : vs = []
    · rw [if_pos hvs, Option.map_eq_none_iff] at henable
      rw [henable, Option.none_or]
      have hdisabled := hentry.enable
      refine iff_of_false ?_ fun hand => hand.2 hvs
      intro hany
      obtain ⟨v, hv, htruth⟩ := (Option.any_eq_true _ _).1 hany
      rw [hv, Option.map_some, htruth] at hdisabled
      split at hdisabled
      · cases hdisabled
      · cases hdisabled
    · rw [if_neg hvs, Option.map_eq_some_iff] at henable
      obtain ⟨v, hv, htruth⟩ := henable
      rw [hv, Option.some_or, Option.any_some, htruth, decide_eq_true_eq]
      exact ⟨fun hcycles => ⟨hcycles, hvs⟩, fun hand => hand.1⟩
  · congr 1
    rw [heldValue]
    cases ctx.module.registers.get? r with
    | none => rfl
    | some reg => rfl

end Module

end Lowering

end Sequencer
