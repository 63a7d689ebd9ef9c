import Sequencer.Compile
import Sequencer.Proofs.Condition.Network
import Sequencer.Proofs.Lowering.Walk
import Sequencer.Proofs.Name

set_option autoImplicit false

/-!
# Compilation

What has been done when a module is compiled: one run for each class of signals, and then the conditions are simplified.
-/

namespace Sequencer

open Comb

/-- Reads each wire under its new name. -/
def Valuation.renamed {V : Type} (ρ : Valuation V) (r : String → String) : Valuation V where
  operand := ρ.operand
  wire w := ρ.wire ⟨r w.name, w.width⟩

theorem Expr.eval_rename {V : Type} (I : Interpretation V) (ρ : Valuation V) (r : String → String) (e : Expr) :
    (e.rename r).eval I ρ = e.eval I (ρ.renamed r) :=
  eval_substitute I ρ _ _ e

namespace Lowering

variable {ctx : Context} {s s' : Session}

theorem runAspects_nil {trees : List (String × Block)} :
    runAspects ctx s [] = .ok (trees, s') ↔ trees = [] ∧ s' = s := by
  change (Except.ok ([], s) : Checked (List (String × Block) × Session)) = .ok (trees, s') ↔ _
  simp [eq_comm]

theorem runAspects_cons {a : Aspect} {as : List Aspect} {trees : List (String × Block)} :
    runAspects ctx s (a :: as) = .ok (trees, s') ↔ ∃ tree s₁ rest, runAspect ctx s a = (.ok tree, s₁) ∧
      runAspects ctx s₁ as = .ok (rest, s') ∧ trees = (a.label, tree) :: rest := by
  rw [runAspects]
  obtain ⟨x, s₁⟩ := runAspect ctx s a
  cases x with
  | error e => simp
  | ok tree =>
    change ((runAspects ctx s₁ as) >>= fun p => pure ((a.label, tree) :: p.1, p.2)) = _ ↔ _
    rw [Checked.bind_eq_ok]
    constructor
    · rintro ⟨⟨rest, s₂⟩, hrest, hp⟩
      cases hp
      exact ⟨tree, s₁, rest, rfl, hrest, rfl⟩
    · rintro ⟨tree', s₁', rest, htree, hrest, rfl⟩
      cases htree
      exact ⟨(rest, s'), hrest, rfl⟩

/-- The last run leaves the session. -/
theorem runAspects_append (as : List Aspect) {a : Aspect} {trees : List (String × Block)}
    (h : runAspects ctx s (as ++ [a]) = .ok (trees, s')) : ∃ tree s₁, runAspect ctx s₁ a = (.ok tree, s') := by
  induction as generalizing s trees with
  | nil =>
    obtain ⟨tree, s₁, rest, htree, hrest, _⟩ := runAspects_cons.1 h
    obtain ⟨_, rfl⟩ := runAspects_nil.1 hrest
    exact ⟨tree, s, htree⟩
  | cons b as ih =>
    obtain ⟨_, s₁, rest, _, hrest, _⟩ := runAspects_cons.1 h
    exact ih hrest

/-- Validation makes no difference if no run of the changes of state leaves an unreachable state. -/
theorem signals_validate (h : ∀ s tree s', runAspect ctx s (.freshTransitions ctx.table.maxState) = (.ok tree, s') →
      ∃ g, s'.aspect = .transitions g ∧ g.unreachable = []) (validate : Bool) :
    ctx.signals validate = ctx.signals false := by
  cases validate with
  | false => rfl
  | true =>
    refine Checked.bind_congr fun p hp => ?_
    obtain ⟨trees, s⟩ := p
    obtain ⟨tree, s₁, htree⟩ := runAspects_append [.registers, .freshLatches, .outputs, .inputs] hp
    obtain ⟨g, hg, hnil⟩ := h s₁ tree s htree
    have hvalid : (s.aspect.graph?.getD (.start ctx.table.maxState)).validate = .ok () := by
      rw [hg, Aspect.graph?, Option.getD_some, TransitionGraph.validate, hnil]
      rfl
    dsimp only
    rw [hvalid]
    rfl

/-- What the signals of a module are made from: a run for each class, in order. -/
structure SignalsRun (ctx : Context) (sig : Signals) where
  registers : Block
  latches : Block
  outputs : Block
  inputs : Block
  transitions : Block
  s₁ : Session
  s₂ : Session
  s₃ : Session
  s₄ : Session
  s₅ : Session
  s₆ : Session
  capture : Capture
  registers_run : runAspect ctx (.start .registers) .registers = (.ok registers, s₁)
  latches_run : runAspect ctx s₁ .freshLatches = (.ok latches, s₂)
  outputs_run : runAspect ctx s₂ .outputs = (.ok outputs, s₃)
  inputs_run : runAspect ctx s₃ .inputs = (.ok inputs, s₄)
  transitions_run : runAspect ctx s₄ (.freshTransitions ctx.table.maxState) = (.ok transitions, s₅)
  trees : sig.trees = [(Aspect.registers.label, registers), (Aspect.freshLatches.label, latches),
    (Aspect.outputs.label, outputs), (Aspect.inputs.label, inputs),
    ((Aspect.freshTransitions ctx.table.maxState).label, transitions)]
  graph : sig.graph = s₅.aspect.graph?.getD (.start ctx.table.maxState)
  conditions_run : ∃ tree, runAspect ctx s₅ (.freshConditions s₅.used) = (.ok tree, s₆)
  capture_eq : s₆.aspect = .conditions capture
  wanted_eq : capture.wanted = s₅.used
  sound : capture.Sound ctx.table
  conds_eq : sig.conds = capture.finish ctx.table

theorem SignalsRun.known {sig : Signals} (h : SignalsRun ctx sig) : ∀ d ∈ sig.conds, ctx.table.Knows d.target := by
  obtain ⟨c, hsound, _, _, heq⟩ := h.sound.finish
  intro d hd
  rw [h.conds_eq, heq] at hd
  obtain ⟨n, hn, rfl⟩ := List.mem_map.1 hd
  exact hsound.known n (List.mem_append_right _ hn)

theorem known_runAspect {a : Aspect} {tree : Block} (h : runAspect ctx s a = (.ok tree, s'))
    (hused : ∀ n ∈ s.used, ctx.table.Knows n)
    (ha : ∀ c, a = .conditions c → c.Sound ctx.table) : s'.Known ctx.table :=
  (Framed.lowerModule _ _ _ _ rfl h).known ⟨hused, ha⟩

theorem used_runAspect {a : Aspect} {tree : Block} (h : runAspect ctx s a = (.ok tree, s')) : s.used ⊆ s'.used :=
  (Framed.lowerModule _ _ _ _ rfl h).used

/-- The run for the conditions leaves a sound capture of what has been used. -/
theorem runAspects_conditions (hused : ∀ n ∈ s.used, ctx.table.Knows n) {trees : List (String × Block)}
    (h : runAspects ctx s [.freshConditions s.used] = .ok (trees, s')) :
    (∃ tree, runAspect ctx s (.freshConditions s.used) = (.ok tree, s')) ∧ ∃ c, s'.aspect = .conditions c ∧
      c.wanted = s.used ∧ c.Sound ctx.table := by
  obtain ⟨tree, s₁, rest, htree, hrest, _⟩ := runAspects_cons.1 h
  obtain ⟨_, rfl⟩ := runAspects_nil.1 hrest
  have hknown := known_runAspect htree hused (by
    rintro _ ⟨⟩
    exact ⟨by simpa using hused, List.nodup_nil, fun n hn => absurd hn List.not_mem_nil⟩)
  have hwanted : s'.aspect.wanted? = some s.used := (Framed.lowerModule _ _ _ _ rfl htree).wanted
  obtain ⟨c, hc, hcw⟩ := Option.map_eq_some_iff.1 hwanted
  have haspect : s'.aspect = .conditions c := by
    cases hs : s'.aspect with
    | conditions c' =>
      rw [hs] at hc
      exact congrArg _ (Option.some.inj hc)
    | registers | latches | outputs | inputs | transitions =>
      rw [hs] at hc
      cases hc
  exact ⟨⟨tree, htree⟩, c, haspect, hcw, hknown.captured c haspect⟩

theorem signals_run {validate : Bool} {sig : Signals} (h : ctx.signals validate = .ok sig) :
    Nonempty (SignalsRun ctx sig) := by
  obtain ⟨⟨trees, s⟩, hruns, h⟩ := Checked.bind_eq_ok.1 h
  obtain ⟨t₁, s₁, rest₁, h₁, hrest₁, htrees⟩ := runAspects_cons.1 hruns
  obtain ⟨t₂, s₂, rest₂, h₂, hrest₂, rfl⟩ := runAspects_cons.1 hrest₁
  obtain ⟨t₃, s₃, rest₃, h₃, hrest₃, rfl⟩ := runAspects_cons.1 hrest₂
  obtain ⟨t₄, s₄, rest₄, h₄, hrest₄, rfl⟩ := runAspects_cons.1 hrest₃
  obtain ⟨t₅, s₅, rest₅, h₅, hrest₅, rfl⟩ := runAspects_cons.1 hrest₄
  obtain ⟨rfl, rfl⟩ := runAspects_nil.1 hrest₅
  have hused : ∀ n ∈ s.used, ctx.table.Knows n := by
    have hnone : ∀ {a : Aspect}, a.capture? = none → ∀ c, a = .conditions c → c.Sound ctx.table := by
      rintro _ hnone c rfl
      cases hnone
    have hs₁ := known_runAspect h₁ (fun n hn => absurd hn List.not_mem_nil) (hnone rfl)
    have hs₂ := known_runAspect h₂ hs₁.used (hnone rfl)
    have hs₃ := known_runAspect h₃ hs₂.used (hnone rfl)
    have hs₄ := known_runAspect h₄ hs₃.used (hnone rfl)
    exact (known_runAspect h₅ hs₄.used (hnone rfl)).used
  have hrest : ∃ trees' s', runAspects ctx s [.freshConditions s.used] = .ok (trees', s') ∧
      sig = ⟨trees, s'.aspect.capture?.elim [] (Capture.finish · ctx.table), s.aspect.graph?.getD (.start ctx.table.maxState)⟩ := by
    dsimp only at h
    split at h
    · obtain ⟨_, _, h⟩ := Checked.bind_eq_ok.1 h
      obtain ⟨⟨trees', s'⟩, hconds, h⟩ := Checked.bind_eq_ok.1 h
      cases h
      exact ⟨trees', s', hconds, rfl⟩
    · obtain ⟨⟨trees', s'⟩, hconds, h⟩ := Checked.bind_eq_ok.1 h
      cases h
      exact ⟨trees', s', hconds, rfl⟩
  obtain ⟨trees', s', hconds, rfl⟩ := hrest
  obtain ⟨hrun, c, hc, hwanted, hsound⟩ := runAspects_conditions hused hconds
  have hfinish : s'.aspect.capture?.elim [] (Capture.finish · ctx.table) = c.finish ctx.table := by rw [hc]; rfl
  exact ⟨⟨t₁, t₂, t₃, t₄, t₅, s₁, s₂, s₃, s₄, s, s', c, h₁, h₂, h₃, h₄, h₅, htrees, rfl, hrun, hc, hwanted,
    hsound, hfinish⟩⟩

end Lowering

open Lowering

theorem ConditionTable.ofBlock_of_contains {m : Module} {s : Schedule} {maxState : Nat} {t : ConditionTable}
    (h : build m s maxState = .ok t) {n : String} (hn : t.contains n = true) :
    ∃ id, n = Name.cycleCond id ∨ n = Name.exitCond id := by
  obtain ⟨d, _, h⟩ := Checked.bind_eq_ok.1 h
  obtain ⟨root, _, h⟩ := Checked.bind_eq_ok.1 h
  cases h
  obtain ⟨e, he, rfl⟩ := List.mem_map.1 ((Listing.contains_iff_mem_keys _ _).1 hn)
  obtain ⟨u, _, hu⟩ := List.mem_flatMap.1 (Listing.mem_entries_ofList he)
  refine ⟨u.1, ?_⟩
  rcases List.mem_cons.1 hu with rfl | hu
  · exact .inl rfl
  · rw [List.mem_singleton.1 hu]
    exact .inr rfl

theorem ConditionTable.isCondition_of_knows {m : Module} {s : Schedule} {maxState : Nat} {t : ConditionTable}
    (h : build m s maxState = .ok t) {n : String} (hn : t.Knows n) : Name.IsCondition n :=
  hn.imp_left (ofBlock_of_contains h)

theorem Comb.Stmt.assignsAll_assigns (as : List Assign) : Stmt.assignsAll (Lowering.assigns as) = as := by
  induction as with
  | nil => rfl
  | cons a as ih => exact congrArg (a :: ·) ih

/-- What compiling a module has done. The names of conditions may differ between the trees that are lowered and those
that are given back. -/
structure CompileRun (m : Module) (c : Compiled) where
  schedule : Schedule
  st : Staged
  table : ConditionTable
  sig : Signals
  rename : String → String
  schedule_eq : m.schedule = .ok schedule
  stage_eq : m.stage schedule = .ok st
  table_eq : ConditionTable.build st.module st.schedule st.maxState = .ok table
  signals : SignalsRun ⟨st.module, st.schedule, table⟩ sig
  module_eq : c.lowered.module = st.module
  maxState_eq : c.lowered.maxState = st.maxState
  graph_eq : c.lowered.transitions = sig.graph
  registers_eq : c.lowered.registers = st.module.loweredRegisters table.space
  simplified : ∃ maxAtoms rounds trees,
    Network.simplify maxAtoms rounds ⟨sig.conds, sig.trees.map Prod.snd⟩ = .ok ⟨c.lowered.conditions, trees⟩
  entries_eq : c.lowered.aspects.entries = sig.trees.map (fun e => (e.1, e.2.mapExprs (Expr.rename rename))) ++
    [(Aspect.conditionsLabel, .of none (assigns c.lowered.conditions))]
  trees : ∀ e ∈ sig.trees, c.lowered.aspects.get? e.1 = some (e.2.mapExprs (Expr.rename rename))
  mem : ∀ a, rename a ≠ a → rename a ∈ Network.names c.lowered.conditions
  stands : ∀ a, rename a ≠ a → ∃ d ∈ c.lowered.conditions, ∃ w, d.target = a ∧ d.val = some (.wire ⟨rename a, w⟩)
  named : ∀ n ∈ Network.names c.lowered.conditions, Name.IsCondition n

theorem compile_run {m : Module} {arguments : List String} {c : Compiled} (h : compile m arguments = .ok c) :
    Nonempty (CompileRun m c) := by
  obtain ⟨schedule, hschedule, h⟩ := Checked.bind_eq_ok.1 h
  obtain ⟨st, hst, h⟩ := Checked.bind_eq_ok.1 h
  obtain ⟨dump, _, h⟩ := Checked.bind_eq_ok.1 h
  obtain ⟨lowered, hlowered, h⟩ := Checked.bind_eq_ok.1 h
  cases h
  obtain ⟨table, htable, h⟩ := Checked.bind_eq_ok.1 hlowered
  obtain ⟨sig, hsig, h⟩ := Checked.bind_eq_ok.1 h
  obtain ⟨sig', hsig', h⟩ := Checked.bind_eq_ok.1 h
  cases h
  obtain ⟨n, hn, h⟩ := Checked.bind_eq_ok.1 hsig'
  cases h
  obtain ⟨r, hr⟩ := Network.run_renames hn
  obtain ⟨run⟩ := signals_run hsig
  have hlabels : sig.trees.map Prod.fst =
      ["register_next_state", "variables", "outputs", "inputs", "state_transition"] := by
    rw [run.trees]
    rfl
  have htrees : (sig.trees.map Prod.fst).zip n.trees =
      sig.trees.map fun e => (e.1, e.2.mapExprs (Expr.rename r)) := by
    rw [hr.trees, List.map_map, List.zip_map']
    rfl
  have hconds : ({ sig with trees := (sig.trees.map Prod.fst).zip n.trees, conds := n.conds } : Signals).aspects.get?
      Aspect.conditionsLabel = some (.of none (assigns n.conds)) := Listing.get?_insert_self _ _ _
  have hconditions : Lowered.conditions ⟨st.module, st.maxState, st.module.loweredRegisters table.space,
      ({ sig with trees := (sig.trees.map Prod.fst).zip n.trees, conds := n.conds } : Signals).aspects, sig.graph⟩ =
      n.conds := by
    rw [Lowered.conditions, hconds]
    exact Comb.Stmt.assignsAll_assigns n.conds
  have hnodup : ((sig.trees.map fun e => (e.1, e.2.mapExprs (Expr.rename r))).map Prod.fst).Nodup := by
    rw [List.map_map, show Prod.fst ∘ (fun e : String × Block => (e.1, e.2.mapExprs (Expr.rename r))) = Prod.fst from rfl,
      hlabels]
    decide
  have hentries : (Listing.ofList ((sig.trees.map Prod.fst).zip n.trees)).entries =
      sig.trees.map fun e => (e.1, e.2.mapExprs (Expr.rename r)) := by
    rw [htrees]
    exact congrArg Listing.entries (Listing.ofList_entries ⟨_, hnodup⟩)
  have hnot : Aspect.conditionsLabel ∉ (Listing.ofList ((sig.trees.map Prod.fst).zip n.trees)).keys := by
    rw [Listing.keys, hentries, List.map_map,
      show Prod.fst ∘ (fun e : String × Block => (e.1, e.2.mapExprs (Expr.rename r))) = Prod.fst from rfl, hlabels]
    decide
  refine ⟨⟨schedule, st, table, sig, r, hschedule, hst, htable, run, rfl, rfl, rfl, rfl,
    ⟨_, _, n.trees, hn.trans ?_⟩, ?_, ?_, ?_, ?_, ?_⟩⟩
  · rw [hconditions]
  · rw [hconditions]
    exact (Listing.entries_insert_of_notMem hnot _).trans (by rw [hentries])
  · intro e he
    have hne : e.1 ≠ Aspect.conditionsLabel := by
      rintro heq
      have hkey : e.1 ∈ sig.trees.map Prod.fst := List.mem_map_of_mem he
      rw [hlabels, heq] at hkey
      revert hkey
      decide
    refine (Listing.get?_insert_of_ne _ _ hne).trans ((Listing.get?_ofList ?_).2 ?_)
    · exact htrees ▸ hnodup
    · rw [htrees]
      exact List.mem_map_of_mem he
  · intro a ha
    rw [hconditions, hr.names_eq]
    exact hr.mem a ha
  · intro a ha
    rw [hconditions]
    exact hr.stands a ha
  · intro a ha
    rw [hconditions, hr.names_eq] at ha
    obtain ⟨d, hd, rfl⟩ := List.mem_map.1 ha
    exact ConditionTable.isCondition_of_knows htable (run.known d hd)

end Sequencer
