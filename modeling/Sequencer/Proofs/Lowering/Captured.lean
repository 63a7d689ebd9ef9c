import Sequencer.Proofs.Compile
import Sequencer.Proofs.Condition.Descent

set_option autoImplicit false

/-!
# The output is self-contained

A condition that a tree uses has been marked when the tree was made. All that is marked is captured in the end, with all
that it refers to, and simplification replaces conditions by captured ones only.
-/

namespace Sequencer

open Comb

theorem Operand.signal_not_isCondition (o : Operand) : ¬ Name.IsCondition o.signal := by
  obtain ⟨name, storage, time, type⟩ := o
  cases storage with
  | register =>
    cases time with
    | held => exact Name.not_isCondition_of_ending (Name.ending_held name) (by decide) (by decide)
    | next => exact Name.not_isCondition_of_ending (Name.ending_nextValue name) (by decide) (by decide)
  | latch => exact Name.not_isCondition_of_ending (Name.ending_latched name) (by decide) (by decide)
  | port => exact Name.not_isCondition_of_ending (Name.ending_data name) (by decide) (by decide)

/-- Conditions are read as wires. -/
theorem Expr.mem_wireNames_of_mem_reads {e : Expr} {n : String} (h : n ∈ e.reads) (hn : Name.IsCondition n) :
    n ∈ e.wireNames := by
  rw [reads_eq] at h
  obtain ⟨x, hx, hread⟩ := List.mem_flatMap.1 h
  rcases mem_leaves_cases hx with ⟨l, rfl⟩ | ⟨o, rfl⟩ | ⟨w, rfl⟩
  · cases hread
  · cases List.mem_singleton.1 hread
    exact absurd hn o.signal_not_isCondition
  · cases List.mem_singleton.1 hread
    exact List.mem_map_of_mem ((mem_wires_iff w e).2 hx)

namespace Comb

theorem Block.exprs_of_assigns (as : List Assign) :
    (Block.of none (Lowering.assigns as)).exprs = as.flatMap fun a => a.val.toList := by
  change Stmt.exprsAll (Lowering.assigns as) = _
  induction as with
  | nil => rfl
  | cons a as ih => exact congrArg (a.val.toList ++ ·) ih

end Comb

/-- A leaf that is a condition of the table has one of the given names. -/
def ConditionTable.Supplies (t : ConditionTable) (ns : List String) (x : Expr) : Prop :=
  ∀ w, x = .wire w → t.contains w.name = true → w.name ∈ ns

namespace ConditionTable

variable {t : ConditionTable} {ns : List String}

theorem supplies_iff {e : Expr} :
    e.LeavesSatisfy (t.Supplies ns) ↔ ∀ n ∈ e.wireNames, t.contains n = true → n ∈ ns := by
  constructor
  · intro h n hn hcontains
    obtain ⟨w, hw, rfl⟩ := List.mem_map.1 hn
    exact h _ ((Expr.mem_wires_iff w e).1 hw) w rfl hcontains
  · rintro h x hx w rfl hcontains
    exact h w.name (List.mem_map_of_mem ((Expr.mem_wires_iff w e).2 hx)) hcontains

theorem supplies_bool (b : Bool) : t.Supplies ns (.bool b) := fun _ hw => (by cases hw)

theorem supplies_of_mem {n : String} (hn : n ∈ ns) (k : Nat) : t.Supplies ns (.wire ⟨n, k⟩) := by
  rintro _ ⟨⟩ _
  exact hn

end ConditionTable

namespace Lowering

open Lower

variable {ctx : Context} {s s' : Session}

/-- The conditions in a tree are marked when it is done. -/
theorem marked_runAspect {a : Aspect} {tree : Block} (h : runAspect ctx s a = (.ok tree, s')) :
    ∀ e ∈ tree.exprs, ∀ n ∈ e.wireNames, ctx.table.contains n = true → n ∈ s'.used := by
  have hrun : Lower.Runs ctx lowerModule { s with aspect := a } tree s' := h
  rw [lowerModule, runs_read_bind, runs_bind] at hrun
  obtain ⟨ss, s₁, _, hrun⟩ := hrun
  obtain ⟨b, s₂, _, hrun⟩ := runs_bind.1 hrun
  obtain ⟨_, s₃, hmark, hrun⟩ := runs_bind.1 hrun
  obtain ⟨rfl, rfl⟩ := runs_pure.1 hrun
  rw [markTree, runs_read_bind, runs_modify] at hmark
  intro e he n hn hcontains
  rw [hmark, Session.mem_use]
  exact .inr (List.mem_filter.2 ⟨List.mem_flatMap.2 ⟨e, he, hn⟩, hcontains⟩)

variable {sig : Signals}

theorem SignalsRun.marked (h : SignalsRun ctx sig) : ∀ tree ∈ sig.trees, ∀ e ∈ tree.2.exprs, ∀ n ∈ e.wireNames,
    ctx.table.contains n = true → n ∈ h.s₅.used := by
  have h₅ := used_runAspect h.transitions_run
  have h₄ := List.Subset.trans (used_runAspect h.inputs_run) h₅
  have h₃ := List.Subset.trans (used_runAspect h.outputs_run) h₄
  have h₂ := List.Subset.trans (used_runAspect h.latches_run) h₃
  intro tree htree e he n hn hcontains
  rw [h.trees] at htree
  simp only [List.mem_cons, List.not_mem_nil, or_false] at htree
  rcases htree with rfl | rfl | rfl | rfl | rfl
  · exact h₂ (marked_runAspect h.registers_run e he n hn hcontains)
  · exact h₃ (marked_runAspect h.latches_run e he n hn hcontains)
  · exact h₄ (marked_runAspect h.outputs_run e he n hn hcontains)
  · exact h₅ (marked_runAspect h.inputs_run e he n hn hcontains)
  · exact marked_runAspect h.transitions_run e he n hn hcontains

/-- The definitions before they are simplified: those that are used, each once, with the values that the table gives. -/
structure SignalsRun.Captured (h : SignalsRun ctx sig) : Prop where
  nodup : (Network.names sig.conds).Nodup
  used : h.s₅.used ⊆ Network.names sig.conds
  value : ∀ d ∈ sig.conds, d.val = some ((Capture.value ctx.table d.target).getD (.bool true))
  supplied : Network.LeavesSatisfy (ctx.table.Supplies (Network.names sig.conds)) sig.conds

theorem SignalsRun.captured (h : SignalsRun ctx sig) : h.Captured := by
  obtain ⟨c, hsound, hwanted, _, hfinish⟩ := h.sound.finish
  have hconds := h.conds_eq.trans hfinish
  have hnames : Network.names sig.conds = c.captured := by
    rw [hconds, Network.names, List.map_map]
    exact List.map_id _
  have hvalue : ∀ d ∈ sig.conds, d.val = some ((Capture.value ctx.table d.target).getD (.bool true)) := by
    intro d hd
    rw [hconds] at hd
    obtain ⟨n, _, rfl⟩ := List.mem_map.1 hd
    rfl
  refine ⟨hnames ▸ hsound.nodup, hnames ▸ h.wanted_eq ▸ hwanted, hvalue, fun d hd v hv => ?_⟩
  rw [ConditionTable.supplies_iff, hnames]
  intro n hn hcontains
  cases hval : Capture.value ctx.table d.target with
  | none =>
    rw [hvalue d hd, hval] at hv
    cases hv
    cases hn
  | some e =>
    rw [hvalue d hd, hval] at hv
    cases hv
    refine hsound.closed d.target (hnames ▸ Network.target_mem_names hd) ?_
    rw [Capture.mentioned, hval]
    exact List.mem_filter.2 ⟨hn, hcontains⟩

/-- The definitions refer to blocks with larger ids, and nothing refers to the condition for a reset. -/
theorem SignalsRun.acyclic (h : SignalsRun ctx sig) (hdescends : ctx.table.Descends ctx.table.Knows)
    (hreset : ∀ e ∈ ctx.table.reset, ∀ n ∈ e.wireNames, ∃ j, Name.OfBlock j n) : Network.Acyclic sig.conds := by
  have hstep : ∀ a b, Network.Refers sig.conds a b →
      ∃ j, Name.OfBlock j b ∧ (a = Name.resetCond ∨ ∃ i, Name.OfBlock i a ∧ i < j) := by
    rintro a b ⟨d, hd, v, rfl, hv, hb, w, hw, rfl⟩
    have hmem : w.name ∈ v.wireNames := List.mem_map_of_mem hw
    rw [h.captured.value d hd] at hv
    cases hval : Capture.value ctx.table d.target with
    | none =>
      rw [hval] at hv
      cases hv
      cases hw
    | some e =>
      rw [hval] at hv
      cases hv
      rw [Capture.value] at hval
      split at hval
      · rename_i htarget
        obtain ⟨j, hj⟩ := hreset e hval w.name hmem
        exact ⟨j, hj, .inl htarget⟩
      · obtain ⟨d', hd', hname⟩ := List.mem_map.1 hb
        obtain ⟨i, j, hi, hj, hij, _⟩ := hdescends _ e (Option.join_eq_some_iff.1 hval) w.name hmem (hname ▸ h.known d' hd')
        exact ⟨j, hj, .inr ⟨i, hi, hij⟩⟩
  have hpath : ∀ a b, Relation.TransGen (Network.Refers sig.conds) a b →
      ∃ j, Name.OfBlock j b ∧ (a = Name.resetCond ∨ ∃ i, Name.OfBlock i a ∧ i < j) := by
    intro a b hab
    induction hab with
    | single hab => exact hstep _ _ hab
    | tail _ hbc ih =>
      obtain ⟨j, hj, ha⟩ := ih
      obtain ⟨k, hk, hb⟩ := hstep _ _ hbc
      rcases hb with rfl | ⟨j', hj', hlt⟩
      · exact absurd hj (Name.resetCond_not_ofBlock j)
      · rw [← hj.inj hj'] at hlt
        exact ⟨k, hk, ha.imp_right fun ⟨i, hi, hij⟩ => ⟨i, hi, hij.trans hlt⟩⟩
  intro a ha
  obtain ⟨j, hj, rfl | ⟨i, hi, hij⟩⟩ := hpath a a ha
  · exact Name.resetCond_not_ofBlock j hj
  · rw [hi.inj hj] at hij
    exact Nat.lt_irrefl j hij

end Lowering

open Lowering

section Output

variable {m : Module} {c : Compiled}

theorem CompileRun.preserves (run : CompileRun m c) : Network.names c.lowered.conditions = Network.names run.sig.conds ∧
    (Network.Acyclic run.sig.conds → Network.Acyclic c.lowered.conditions) ∧
    Network.LeavesSatisfy (run.table.Supplies (Network.names run.sig.conds)) c.lowered.conditions := by
  obtain ⟨_, _, _, hsimplify⟩ := run.simplified
  have hcaptured := run.signals.captured
  have hpres := Network.run_preserves hcaptured.nodup hsimplify
  exact ⟨hpres.names_eq, hpres.acyclic, Network.run_leaves ConditionTable.supplies_bool
    (fun _ hn k => ConditionTable.supplies_of_mem hn k) hcaptured.nodup hsimplify hcaptured.supplied⟩

/-- Every condition that a tree uses is defined. -/
theorem CompileRun.supplied (run : CompileRun m c) : ∀ tree ∈ c.lowered.aspects.values, ∀ e ∈ tree.exprs,
    e.LeavesSatisfy (run.table.Supplies (Network.names c.lowered.conditions)) := by
  obtain ⟨hnames, _, hleaves⟩ := run.preserves
  intro tree htree e he
  obtain ⟨entry, hentry, rfl⟩ := List.mem_map.1 htree
  rw [run.entries_eq] at hentry
  rcases List.mem_append.1 hentry with hentry | hentry
  · obtain ⟨old, hold, rfl⟩ := List.mem_map.1 hentry
    rw [Block.exprs_mapExprs] at he
    obtain ⟨x, hx, rfl⟩ := List.mem_map.1 he
    have hused : x.LeavesSatisfy (run.table.Supplies (Network.names c.lowered.conditions)) := by
      rw [ConditionTable.supplies_iff, hnames]
      exact fun n hn hcontains => run.signals.captured.used (run.signals.marked old hold x hx n hn hcontains)
    refine hused.rename fun w hw => ?_
    by_cases hsame : run.rename w.name = w.name
    · rw [hsame]
      exact hw
    · exact ConditionTable.supplies_of_mem (run.mem _ hsame) _
  · cases List.mem_singleton.1 hentry
    rw [Block.exprs_of_assigns] at he
    obtain ⟨d, hd, hval⟩ := List.mem_flatMap.1 he
    exact hnames ▸ hleaves d hd e (Option.mem_toList.1 hval)

/-- Each condition of the module's table that a tree reads is defined, and once. If the program uses neither a condition
of the table nor the one for a reset, then no definition depends on itself. -/
theorem output_self_contained {d : Draft} {top : List Nat} (hm : d.finish top = .ok m) {arguments : List String}
    (hc : compile m arguments = .ok c) :
    ∃ s st t, m.schedule = .ok s ∧ m.stage s = .ok st ∧
      ConditionTable.build st.module st.schedule st.maxState = .ok t ∧
      (∀ tree ∈ c.lowered.aspects.values, ∀ e ∈ tree.exprs, ∀ n ∈ e.reads, t.contains n = true →
        (Network.names c.lowered.conditions).count n = 1) ∧
      ((∀ n, t.Knows n → ¬ m.Mentions n) → Network.Acyclic c.lowered.conditions) := by
  obtain ⟨run⟩ := compile_run hc
  obtain ⟨hnames, hacyclic, _⟩ := run.preserves
  have hcond : ∀ n, run.table.Knows n → Name.IsCondition n := fun n hn =>
    ConditionTable.isCondition_of_knows run.table_eq hn
  refine ⟨_, _, _, run.schedule_eq, run.stage_eq, run.table_eq, ?_, ?_⟩
  · intro tree htree e he n hn hcontains
    have hwire := Expr.mem_wireNames_of_mem_reads hn (hcond n (.inl hcontains))
    have hmem := ConditionTable.supplies_iff.1 (run.supplied tree htree e he) n hwire hcontains
    exact List.count_eq_one_of_mem (hnames ▸ run.signals.captured.nodup) hmem
  · intro hunused
    have htable := Module.meets_table (Module.wellFormed_of_finish hm) run.schedule_eq run.stage_eq hcond hunused
    obtain ⟨_, hdescends, hreset⟩ := htable.result _ run.table_eq
    exact hacyclic (run.signals.acyclic hdescends hreset)

end Output

/-- A yield under a flag, and a register that is kept. -/
def gated (flag : String) : Draft where
  name := "gated"
  registers := .ofList [("r", ⟨.uint 8, 0⟩)]
  vars := .empty
  inputs := []
  outputs := [⟨"dout", .uint 8⟩]
  stmts := .ofList [Draft.emit [some (.literal 1 (.uint 8))], Draft.conditional (.flag flag) [0]]

/-- The definitions of the module under a flag that is no condition. -/
theorem gated_self_contained : ∃ m c s st t, (gated "go").finish [1] = .ok m ∧ compile m ["simplify:rounds=0"] = .ok c ∧
    m.schedule = .ok s ∧ m.stage s = .ok st ∧ ConditionTable.build st.module st.schedule st.maxState = .ok t ∧
    (∀ n, t.Knows n → ¬ m.Mentions n) ∧ (Network.names c.lowered.conditions).count (Name.exitCond 2) = 1 ∧
    Network.Acyclic c.lowered.conditions := by
  have hm : (gated "go").finish [1] = .ok ((gated "go").enclose [1]) := rfl
  have hread : ((compile ((gated "go").enclose [1]) ["simplify:rounds=0"]).toOption.any fun c =>
      c.lowered.aspects.values.any fun tree => tree.exprs.any fun e => e.reads.contains (Name.exitCond 2)) = true := by
    decide +kernel
  have htable : ((gated "go").enclose [1]).schedule.toOption.any (fun s =>
      (((gated "go").enclose [1]).stage s).toOption.any fun st =>
        (ConditionTable.build st.module st.schedule st.maxState).toOption.any fun t => t.contains (Name.exitCond 2)) = true := by
    decide +kernel
  have hflags : ∀ s ∈ ((gated "go").enclose [1]).stmts.toList, ∀ e ∈ s.exprs, ∀ name ∈ e.wireNames,
      Name.ending name = some 'o' := by
    decide +kernel
  obtain ⟨c, hc, hread⟩ := Checked.exists_of_any hread
  obtain ⟨s, hs, htable⟩ := Checked.exists_of_any htable
  obtain ⟨st, hst, htable⟩ := Checked.exists_of_any htable
  obtain ⟨t, ht, hcontains⟩ := Checked.exists_of_any htable
  obtain ⟨_, _, _, hs', hst', ht', hdefined, hacyclic⟩ := output_self_contained hm hc
  cases hs.symm.trans hs'
  cases hst.symm.trans hst'
  cases ht.symm.trans ht'
  have hunused : ∀ n, t.Knows n → ¬ ((gated "go").enclose [1]).Mentions n := by
    intro n hn hmentions
    obtain ⟨stmt, hstmt, e, he, hname⟩ := hmentions.exists_stmt
    exact Name.not_isCondition_of_ending (hflags stmt hstmt e he n hname) (by decide) (by decide)
      (ConditionTable.isCondition_of_knows ht hn)
  obtain ⟨tree, htree, hread⟩ := List.any_eq_true.1 hread
  obtain ⟨e, he, hread⟩ := List.any_eq_true.1 hread
  exact ⟨_, c, s, st, t, hm, hc, hs, hst, ht, hunused,
    hdefined tree htree e he _ (List.contains_iff_mem.1 hread) hcontains, hacyclic hunused⟩

/-- Under the condition for a reset the definitions depend on themselves, though the program uses no condition of the
table. -/
theorem gated_cyclic : ∃ m c s st t, (gated Name.resetCond).finish [1] = .ok m ∧
    compile m ["simplify:rounds=0"] = .ok c ∧ m.schedule = .ok s ∧ m.stage s = .ok st ∧
    ConditionTable.build st.module st.schedule st.maxState = .ok t ∧ (∀ n, t.contains n = true → ¬ m.Mentions n) ∧
    ¬ Network.Acyclic c.lowered.conditions := by
  have hm : (gated Name.resetCond).finish [1] = .ok ((gated Name.resetCond).enclose [1]) := rfl
  have hconds : ((compile ((gated Name.resetCond).enclose [1]) ["simplify:rounds=0"]).toOption.any fun c =>
      decide (c.lowered.conditions = [.flag Name.resetCond (.flag (Name.exitCond 0)),
        .flag (Name.exitCond 0) (.flag (Name.exitCond 1)),
        .flag (Name.exitCond 1) (.bin .or (.un .not (.flag Name.resetCond)) (.flag (Name.exitCond 2))),
        .flag (Name.exitCond 2) (.flag (Name.ready "dout"))])) = true := by
    decide +kernel
  have hclean := Module.clean_of_endings (m := (gated Name.resetCond).enclose [1]) (by decide +kernel)
  obtain ⟨c, hc, hconds⟩ := Checked.exists_of_any hconds
  have hconds := of_decide_eq_true hconds
  obtain ⟨run⟩ := compile_run hc
  refine ⟨_, c, _, _, _, hm, hc, run.schedule_eq, run.stage_eq, run.table_eq, fun n hn => ?_, fun hacyclic => ?_⟩
  · obtain ⟨id, hid⟩ := ConditionTable.ofBlock_of_contains run.table_eq hn
    exact hclean id n hid
  · refine hacyclic Name.resetCond (.head (b := Name.exitCond 0) ?_ (.head (b := Name.exitCond 1) ?_ (.single ?_)))
    · exact hconds ▸ ⟨_, .head _, _, rfl, rfl, by decide, ⟨Name.exitCond 0, 1⟩, by decide, rfl⟩
    · exact hconds ▸ ⟨_, .tail _ (.head _), _, rfl, rfl, by decide, ⟨Name.exitCond 1, 1⟩, by decide, rfl⟩
    · exact hconds ▸ ⟨_, .tail _ (.tail _ (.head _)), _, rfl, rfl, by decide, ⟨Name.resetCond, 1⟩, by decide, rfl⟩

end Sequencer
