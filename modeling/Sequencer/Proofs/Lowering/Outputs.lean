import Sequencer.Compile
import Sequencer.Proofs.Condition.Table
import Sequencer.Proofs.Lowering.Segment
import Sequencer.Proofs.Name

set_option autoImplicit false

/-!
# Outputs

The tree of the outputs drives what the live leaf emits, and nothing else is valid.
-/

namespace Sequencer

open Control

/-- The leaf holds a yield that emits `v` on the port `p`. -/
def Module.Emits (m : Module) (leaf : Segment) (p : Port) (v : Expr) : Prop :=
  ∃ n y, n ∈ leaf.stmts ∧ m.stmt n = .ok (.yield y) ∧ (some v, p) ∈ y.vals.zip m.outputs

/-- The signals that outputs are driven on. -/
def Module.outputSignals (m : Module) : List String := m.outputs.flatMap fun p => [Name.valid p.name, Name.data p.name]

namespace Lowering

open Lower Comb

variable {ctx : Context} {s s' : Session}

/-- The assignments for one emitted value. -/
def Emission (e : Expr × Port) (as : List Assign) : Prop :=
  ∃ w, as = [.flag (Name.valid e.2.name) (.bool true), .of (Name.data e.2.name) e.1 w]

theorem runs_visitYield_outputs (hs : s.aspect = .outputs) {y : Yield} {ss : List Comb.Stmt}
    (h : Runs ctx (visitYield y) s ss s') :
    ∃ entries, List.Forall₂ Emission
        ((y.vals.zip ctx.module.outputs).filterMap fun e => e.1.map fun v => (v, e.2)) entries ∧
      ss = assigns entries.flatten := by
  have h₁ := runs_aspect_bind.1 h
  rw [hs] at h₁
  obtain ⟨entries, s₂, hentries, h₂⟩ := runs_bind.1 (runs_read_bind.1 h₁)
  refine ⟨entries, runs_mapM ?_ hentries, (runs_pure.1 h₂).1⟩
  intro e t as t' hrun
  obtain ⟨w, t₁, _, hpure⟩ := runs_bind.1 hrun
  exact ⟨w, (runs_pure.1 hpure).1⟩

theorem satisfies_emissions {T : List String} {es : List (Expr × Port)} {entries : List (List Assign)}
    (h : List.Forall₂ Emission es entries) (hes : ∀ e ∈ es, e.1.Avoids T)
    (hT : ∀ e ∈ es, Name.valid e.2.name ∈ T ∧ Name.data e.2.name ∈ T) :
    Comb.Stmt.SatisfiesAll (Assign.Apart T) (Expr.Avoids T) (assigns entries.flatten) := by
  refine Comb.Stmt.satisfiesAll_assigns.2 fun a ha => ?_
  obtain ⟨as, has, ha⟩ := List.mem_flatten.1 ha
  obtain ⟨e, he, w, rfl⟩ := exists_of_mem_forall₂ h has
  rcases List.mem_cons.1 ha with rfl | ha
  · refine ⟨(hT e he).1, ?_⟩
    rintro _ ⟨⟩
    exact Expr.avoids_lit T _
  · rw [List.mem_singleton.1 ha]
    refine ⟨(hT e he).2, ?_⟩
    rintro _ ⟨⟩
    exact hes e he

theorem aspect_of_frame (hs : s.aspect = .outputs) {t : ConditionTable} (h : Session.Frame t s s') : s'.aspect = .outputs :=
  Aspect.eq_outputs_of_label (hs ▸ h.label)

theorem runs_stateCopy_outputs (hs : s.aspect = .outputs) {node : Option Nat}
    (hnode : ∀ n, node = some n → ∃ b, ctx.module.stmt n = .ok (.block b) ∧ b.kind ≠ .module) {tr : Transition}
    {copy : Comb.Block} (h : Runs ctx (stateCopy node tr) s copy s') : copy.isEmpty = true := by
  obtain ⟨s₁, hframe, h₁⟩ := runs_stateCopy_bare (fun hb hkind => runs_enterBlock_silent (.inl hs) hb hkind) hnode h
  obtain ⟨b, s₂, hassign, hsettled⟩ := runs_bind.1 h₁
  replace hassign := runs_aspect_bind.1 hassign
  rw [aspect_of_frame hs hframe] at hassign
  rw [(runs_settled.1 hsettled).1, (runs_pure.1 hassign).1]
  rfl

/-- No change of state has an effect on the outputs. -/
theorem runs_stateCopies_outputs (hs : s.aspect = .outputs) {i : Nat} {seg : Segment} {parent : Option (List Nat)}
    (hnode : ∀ n, parent ≠ none → seg.block = some n → ∃ b, ctx.module.stmt n = .ok (.block b) ∧ b.kind ≠ .module)
    {copies : List Comb.Block} (h : Runs ctx (stateCopies i seg parent) s copies s') : copies = [] := by
  refine List.eq_nil_iff_forall_not_mem.2 fun c hc => ?_
  obtain ⟨hparent, hne, tr, s₁, s₂, hframe, hcopy⟩ := mem_stateCopies h c hc
  rw [runs_stateCopy_outputs (aspect_of_frame hs hframe) (fun n hn => hnode n hparent hn) hcopy] at hne
  cases hne

theorem runs_enterBlock_outputs (hs : s.aspect = .outputs) {i : Nat} {b : Control.Block}
    (hb : ctx.module.stmt i = .ok (.block b)) (hkind : b.kind = .module) {ss : List Comb.Stmt}
    (h : Runs ctx (enterBlock i) s ss s') :
    ss = assigns (ctx.module.outputs.map fun p => .flag (Name.valid p.name) (.bool false)) := by
  have h₁ := runs_aspect_bind.1 h
  rw [hs] at h₁
  have h₂ := runs_kind?_bind hb h₁
  rw [if_neg (by simp [hkind])] at h₂
  have h₃ := runs_read_bind.1 h₂
  exact (runs_pure.1 h₃).1

section Values

variable {V : Type} (I : Interpretation V) (ρ : Valuation V)

theorem final_emission {e : Expr × Port} {as : List Assign} (h : Emission e as) (p : String) :
    Comb.Stmt.finalAll I ρ (Name.valid p) (assigns as) = (if e.2.name = p then some (I.bit true) else none) ∧
      Comb.Stmt.finalAll I ρ (Name.data p) (assigns as) = if e.2.name = p then some (e.1.eval I ρ) else none := by
  obtain ⟨w, rfl⟩ := h
  have hvalid : Name.data e.2.name ≠ Name.valid p := Name.ne_of_ending (by simp)
  have hdata : Name.valid e.2.name ≠ Name.data p := Name.ne_of_ending (by simp)
  constructor
  · simp only [assigns, List.map_cons, List.map_nil, Comb.Stmt.finalAll, Comb.Stmt.final, Assign.final, Assign.flag,
      Assign.of, if_neg hvalid, Option.none_or, Name.valid_inj]
    rfl
  · simp only [assigns, List.map_cons, List.map_nil, Comb.Stmt.finalAll, Comb.Stmt.final, Assign.final, Assign.flag,
      Assign.of, if_neg hdata, Option.or_none, Option.none_or, Name.data_inj]
    rfl

theorem final_emissions {es : List (Expr × Port)} {entries : List (List Assign)} (h : List.Forall₂ Emission es entries)
    (hnodup : (es.map fun e => e.2.name).Nodup) (p : String) :
    (∀ e ∈ es, e.2.name = p → Comb.Stmt.finalAll I ρ (Name.valid p) (assigns entries.flatten) = some (I.bit true) ∧
      Comb.Stmt.finalAll I ρ (Name.data p) (assigns entries.flatten) = some (e.1.eval I ρ)) ∧
    ((∀ e ∈ es, e.2.name ≠ p) → Comb.Stmt.finalAll I ρ (Name.valid p) (assigns entries.flatten) = none ∧
      Comb.Stmt.finalAll I ρ (Name.data p) (assigns entries.flatten) = none) := by
  induction h with
  | nil => exact ⟨by simp, fun _ => ⟨rfl, rfl⟩⟩
  | @cons e as es entries hd _ ih =>
    obtain ⟨hne, hnodup⟩ := List.nodup_cons.1 hnodup
    obtain ⟨hmem, hnone⟩ := ih hnodup
    obtain ⟨hvalid, hdata⟩ := final_emission I ρ hd p
    have happend : assigns ((as :: entries).flatten) = assigns as ++ assigns entries.flatten := by
      simp [assigns]
    rw [happend, Comb.Stmt.finalAll_append, Comb.Stmt.finalAll_append, hvalid, hdata]
    constructor
    · intro e' he' hp
      rcases List.mem_cons.1 he' with rfl | he'
      · have hrest : ∀ x ∈ es, x.2.name ≠ p := by
          intro x hx hxp
          exact hne (List.mem_map.2 ⟨x, hx, hxp.trans hp.symm⟩)
        rw [(hnone hrest).1, (hnone hrest).2, if_pos hp, if_pos hp]
        exact ⟨rfl, rfl⟩
      · rw [(hmem e' he' hp).1, (hmem e' he' hp).2]
        exact ⟨rfl, rfl⟩
    · intro hall
      obtain ⟨he, hes⟩ := List.forall_mem_cons.1 hall
      rw [(hnone hes).1, (hnone hes).2, if_neg he, if_neg he]
      exact ⟨rfl, rfl⟩

/-- The statements `ss` leave the outputs as the live leaf below the outline has them. -/
structure Drives (ctx : Context) (k : Nat) (o : Outline) (base : Option V) (ss : List Comb.Stmt) (p : Port) : Prop where
  emitted : ∀ leaf v, ctx.schedule.LiveIn I ρ ctx.module k o leaf → ctx.module.Emits leaf p v →
    Comb.Stmt.finalAll I ρ (Name.valid p.name) ss = some (I.bit true) ∧
      Comb.Stmt.finalAll I ρ (Name.data p.name) ss = some (v.eval I ρ)
  quiet : (∀ leaf v, ctx.schedule.LiveIn I ρ ctx.module k o leaf → ¬ctx.module.Emits leaf p v) →
    ctx.schedule.Taken I ρ ctx.module k o.index → Comb.Stmt.finalAll I ρ (Name.valid p.name) ss = base
  untaken : ¬ctx.schedule.Taken I ρ ctx.module k o.index →
    Comb.Stmt.finalAll I ρ (Name.valid p.name) ss = none ∧ Comb.Stmt.finalAll I ρ (Name.data p.name) ss = none

theorem mem_outputSignals {m : Module} {p : Port} (hp : p ∈ m.outputs) :
    Name.valid p.name ∈ m.outputSignals ∧ Name.data p.name ∈ m.outputSignals :=
  ⟨List.mem_flatMap.2 ⟨p, hp, by simp⟩, List.mem_flatMap.2 ⟨p, hp, by simp⟩⟩

theorem not_yield_of_free {m : Module} {j : Nat} (h : m.Free j) {y : Yield} : m.stmt j ≠ .ok (.yield y) := by
  intro hy
  have hindex := m.index_outline j
  rw [Module.Free, Module.isBlocking] at h
  generalize m.outline j = o at h hindex
  obtain ⟨i, os⟩ := o
  cases hindex
  have hy : m.stmt i = .ok (.yield y) := hy
  rw [Module.blocking, hy] at h
  cases h

theorem names_sublist (vals : List (Option Expr)) (ports : List Port) :
    (((vals.zip ports).filterMap fun e => e.1.map fun v => (v, e.2)).map fun e => e.2.name).Sublist
      (ports.map Port.name) := by
  induction vals generalizing ports with
  | nil => simp
  | cons v vals ih =>
    cases ports with
    | nil => simp
    | cons p ports =>
      cases v with
      | none => exact (ih ports).cons _
      | some v => exact (ih ports).cons_cons _

section Leaf

variable (hwf : ctx.module.WellFormed) (hq : Quiet ctx ctx.module.outputSignals)

include hwf hq

/-- What the statements of a leaf drive. -/
theorem lowerOutlines_leaf {leaf : Segment} (hleaf : ctx.module.SingleCycle leaf.stmts)
    (hin : ∀ j ∈ leaf.stmts, j ∈ (ctx.module.outline ctx.module.root).preorder) (hs : s.aspect = .outputs)
    {ss : List Comb.Stmt} (h : Runs ctx (lowerOutlines (leaf.stmts.map ctx.module.outline)) s ss s') :
    Comb.Stmt.SatisfiesAll (Assign.Apart ctx.module.outputSignals) (Expr.Avoids ctx.module.outputSignals) ss ∧
      ∀ p ∈ ctx.module.outputs,
        (∀ v, ctx.module.Emits leaf p v → Comb.Stmt.finalAll I ρ (Name.valid p.name) ss = some (I.bit true) ∧
          Comb.Stmt.finalAll I ρ (Name.data p.name) ss = some (v.eval I ρ)) ∧
        ((∀ v, ¬ctx.module.Emits leaf p v) → Comb.Stmt.finalAll I ρ (Name.valid p.name) ss = none) := by
  obtain ⟨pre, mid, post, hstmts, hpre, hpost, hmid⟩ := hleaf
  rw [hstmts] at hin h
  rw [List.map_append, List.map_append] at h
  obtain ⟨ts, us, s₁, hts, hus, rfl⟩ := runs_lowerOutlines_append h
  obtain ⟨ts₁, ts₂, s₂, hts₁, hts₂, rfl⟩ := runs_lowerOutlines_append hts
  have hs₂ := aspect_of_frame hs (Framed.lowerOutlines _ _ _ _ _ rfl hts₁)
  have hs₁ := aspect_of_frame hs (Framed.lowerOutlines _ _ _ _ _ rfl hts)
  have hidle₁ := idle_lowerStmts hq hwf hpre (fun j hj => hin j (by simp [hj])) (.inl (.inl hs)) hts₁
  have hidle₂ := idle_lowerStmts hq hwf hpost (fun j hj => hin j (by simp [hj])) (.inl (.inl hs₁)) hus
  have hfinal : ∀ t, Comb.Stmt.finalAll I ρ t (ts₁ ++ ts₂ ++ us) = Comb.Stmt.finalAll I ρ t ts₂ := by
    intro t
    rw [Comb.Stmt.finalAll_append, Comb.Stmt.finalAll_append, hidle₁.finalAll_eq_none I ρ t,
      hidle₂.finalAll_eq_none I ρ t, Option.none_or, Option.or_none]
  simp only [hfinal, Comb.Stmt.satisfiesAll_append]
  have hyield : ∀ {n : Nat} {y : Yield}, n ∈ leaf.stmts → ctx.module.stmt n = .ok (.yield y) → n ∈ mid := by
    intro n y hn hy
    rw [hstmts, List.mem_append, List.mem_append] at hn
    rcases hn with (hn | hn) | hn
    · exact absurd hy (not_yield_of_free (hpre n hn))
    · exact hn
    · exact absurd hy (not_yield_of_free (hpost n hn))
  rcases hmid with rfl | ⟨j, y, rfl, hy⟩
  · obtain ⟨rfl, _⟩ := runs_pure.1 hts₂
    refine ⟨⟨⟨hidle₁.satisfies, trivial⟩, hidle₂.satisfies⟩, fun p _ => ⟨?_, fun _ => rfl⟩⟩
    rintro v ⟨n, y, hn, hy, _⟩
    exact absurd (hyield hn hy) List.not_mem_nil
  · obtain ⟨entries, hentries, rfl⟩ := runs_visitYield_outputs hs₂ (runs_lowerOutlines_yield hy hts₂)
    generalize hes : (y.vals.zip ctx.module.outputs).filterMap (fun e => e.1.map fun v => (v, e.2)) = es at hentries
    have hmem : ∀ v p, (v, p) ∈ es ↔ (some v, p) ∈ y.vals.zip ctx.module.outputs := by
      intro v p
      rw [← hes, List.mem_filterMap]
      constructor
      · rintro ⟨⟨v', p'⟩, hz, he⟩
        obtain ⟨w, rfl, hw⟩ := Option.map_eq_some_iff.1 he
        cases hw
        exact hz
      · intro hz
        exact ⟨_, hz, rfl⟩
    have hnames : (ctx.module.outputs.map Port.name).Nodup := by
      have hnodup := hwf.names_nodup
      rw [Module.declaredNames, List.nodup_append] at hnodup
      exact hnodup.2.1
    have hnodup : (es.map fun e => e.2.name).Nodup := hes ▸ hnames.sublist (names_sublist _ _)
    have hj : j ∈ leaf.stmts := by simp [hstmts]
    have hemits : ∀ p v, ctx.module.Emits leaf p v ↔ (v, p) ∈ es := by
      intro p v
      rw [hmem]
      constructor
      · rintro ⟨n, y', hn, hy', hz⟩
        rw [List.mem_singleton.1 (hyield hn hy'), hy] at hy'
        cases hy'
        exact hz
      · exact fun hz => ⟨j, y, hj, hy, hz⟩
    refine ⟨⟨⟨hidle₁.satisfies, satisfies_emissions hentries ?_ ?_⟩, hidle₂.satisfies⟩, fun p hp => ⟨?_, ?_⟩⟩
    · rintro ⟨v, p⟩ he
      have hv := (List.of_mem_zip ((hmem v p).1 he)).1
      exact hq.exprs j (hin j (by simp)) _ hy v (List.mem_filterMap.2 ⟨_, hv, rfl⟩)
    · rintro ⟨v, p⟩ he
      exact mem_outputSignals (List.of_mem_zip ((hmem v p).1 he)).2
    · intro v hv
      exact (final_emissions I ρ hentries hnodup p.name).1 (v, p) ((hemits p v).1 hv) rfl
    · intro hnone
      refine ((final_emissions I ρ hentries hnodup p.name).2 ?_).1
      rintro ⟨v, p'⟩ he hp'
      have hpp : p' = p := List.inj_on_of_nodup_map hnames (List.of_mem_zip ((hmem v p').1 he)).2 hp hp'
      exact hnone v ((hemits p v).2 (hpp ▸ he))

end Leaf

theorem controlled_valid (p : String) : Controlled Aspect.outputs.isControl (Name.valid p) := by
  intro d
  unfold Aspect.isControl
  rw [Name.isControl_valid, Bool.true_or]

theorem body_valid (b : Comb.Block) (p : String) :
    (updateDefaults Aspect.outputs.isControl b).body I ρ (Name.valid p) = b.body I ρ (Name.valid p) :=
  updateDefaults_body _ b I ρ _ (controlled_valid p)

/-- On entry to the module no output is valid. -/
theorem entry_outputs (hs : s.aspect = .outputs) {i : Nat} {b : Control.Block}
    (hb : ctx.module.stmt i = .ok (.block b)) {ss : List Comb.Stmt} (h : Runs ctx (enterBlock i) s ss s') :
    Comb.Stmt.SatisfiesAll (Assign.Apart ctx.module.outputSignals) (Expr.Avoids ctx.module.outputSignals) ss ∧
      ∀ p ∈ ctx.module.outputs, Comb.Stmt.finalAll I ρ (Name.valid p.name) ss =
        if b.kind = .module then some (I.bit false) else none := by
  by_cases hkind : b.kind = .module
  · rw [runs_enterBlock_outputs hs hb hkind h]
    constructor
    · refine Comb.Stmt.satisfiesAll_assigns.2 fun a ha => ?_
      obtain ⟨p, hp, rfl⟩ := List.mem_map.1 ha
      refine ⟨(mem_outputSignals hp).1, ?_⟩
      rintro _ ⟨⟩
      exact Expr.avoids_lit _ _
    · intro p hp
      rw [if_pos hkind]
      refine Comb.Stmt.finalAll_assigns_const I ρ _ ?_ ⟨_, List.mem_map_of_mem hp, rfl⟩
      intro a ha
      obtain ⟨q, _, rfl⟩ := List.mem_map.1 ha
      rfl
  · rw [runs_enterBlock_silent (.inl hs) hb hkind h]
    exact ⟨trivial, fun p _ => by rw [if_neg hkind]; rfl⟩

/-- Lowering the segment below the outline drives the outputs. `states` are those of the segment around it. -/
def Lowers (ctx : Context) (k : Nat) (o : Outline) (states : Option (List Nat)) (base : Option V) : Prop :=
  ∀ s ss s', s.aspect = .outputs → Runs ctx (lowerSegment states o) s ss s' →
    Comb.Stmt.SatisfiesAll (Assign.Apart ctx.module.outputSignals) (Expr.Avoids ctx.module.outputSignals) ss ∧
      ((∀ P, states = some P → k ∈ P) → ∀ p ∈ ctx.module.outputs, Drives I ρ ctx k o base ss p)

theorem lowerSegments_drives {k : Nat} {P : List Nat} {os : List Outline}
    (hos : ∀ o ∈ os, Lowers I ρ ctx k o (some P) none)
    (htaken : ∀ o ∈ os, ∀ leaf, ctx.schedule.LiveIn I ρ ctx.module k o leaf → ctx.schedule.Taken I ρ ctx.module k o.index)
    (hpair : os.Pairwise fun o o' =>
      ¬(ctx.schedule.Taken I ρ ctx.module k o.index ∧ ctx.schedule.Taken I ρ ctx.module k o'.index))
    {s s' : Session} {ss : List Comb.Stmt} (hs : s.aspect = .outputs) (h : Runs ctx (lowerSegments P os) s ss s') :
    Comb.Stmt.SatisfiesAll (Assign.Apart ctx.module.outputSignals) (Expr.Avoids ctx.module.outputSignals) ss ∧
      (k ∈ P → ∀ p ∈ ctx.module.outputs,
        (∀ o ∈ os, ∀ leaf v, ctx.schedule.LiveIn I ρ ctx.module k o leaf → ctx.module.Emits leaf p v →
          Comb.Stmt.finalAll I ρ (Name.valid p.name) ss = some (I.bit true) ∧
            Comb.Stmt.finalAll I ρ (Name.data p.name) ss = some (v.eval I ρ)) ∧
        ((∀ o ∈ os, ∀ leaf v, ctx.schedule.LiveIn I ρ ctx.module k o leaf → ¬ctx.module.Emits leaf p v) →
          Comb.Stmt.finalAll I ρ (Name.valid p.name) ss = none) ∧
        ((∀ o ∈ os, ¬ctx.schedule.Taken I ρ ctx.module k o.index) →
          Comb.Stmt.finalAll I ρ (Name.valid p.name) ss = none ∧
            Comb.Stmt.finalAll I ρ (Name.data p.name) ss = none)) := by
  induction os generalizing s ss with
  | nil =>
    rw [(runs_pure.1 h).1]
    exact ⟨trivial, fun _ p _ => ⟨by simp, fun _ => rfl, fun _ => ⟨rfl, rfl⟩⟩⟩
  | cons o os ih =>
    obtain ⟨ho, hos⟩ := List.forall_mem_cons.1 hos
    obtain ⟨htakeno, htakenos⟩ := List.forall_mem_cons.1 htaken
    obtain ⟨hother, hpair⟩ := List.pairwise_cons.1 hpair
    obtain ⟨ts, us, s₁, hts, hus, rfl⟩ := runs_lowerSegments_cons h
    obtain ⟨hsat, hdrives⟩ := ho _ _ _ hs hts
    obtain ⟨hsat', hrest⟩ := ih hos htakenos hpair (aspect_of_frame hs (Framed.lowerSegment _ o _ _ _ _ rfl hts)) hus
    refine ⟨Comb.Stmt.satisfiesAll_append.2 ⟨hsat, hsat'⟩, fun hP p hp => ?_⟩
    obtain ⟨hemit, hquiet, huntaken⟩ := hrest hP p hp
    have hd := hdrives (by rintro _ ⟨⟩; exact hP) p hp
    rw [Comb.Stmt.finalAll_append, Comb.Stmt.finalAll_append]
    refine ⟨List.forall_mem_cons.2 ⟨?_, ?_⟩, ?_, ?_⟩
    · intro leaf v hlive hv
      have hnone := huntaken fun o' ho' ht => hother o' ho' ⟨htakeno leaf hlive, ht⟩
      rw [hnone.1, hnone.2]
      exact hd.emitted leaf v hlive hv
    · intro o' ho' leaf v hlive hv
      rw [(hemit o' ho' leaf v hlive hv).1, (hemit o' ho' leaf v hlive hv).2]
      exact ⟨rfl, rfl⟩
    · intro hall
      obtain ⟨hall, hall'⟩ := List.forall_mem_cons.1 hall
      rw [hquiet hall', Option.none_or]
      by_cases ht : ctx.schedule.Taken I ρ ctx.module k o.index
      · exact hd.quiet hall ht
      · exact (hd.untaken ht).1
    · intro hall
      obtain ⟨ht, hall'⟩ := List.forall_mem_cons.1 hall
      rw [(huntaken hall').1, (huntaken hall').2]
      exact hd.untaken ht

section Walk

variable (hwf : ctx.module.WellFormed) (hq : Quiet ctx ctx.module.outputSignals) {k : Nat}
  (hk : ctx.table.space.Holds I ρ k) (hex : ctx.module.Exclusive I ρ)

include hwf hq hk hex

omit hex in
theorem lowerSegment_leaf_drives {i : Nat} {seg : Segment}
    (h : Schedule.LeafFits ctx.module ctx.schedule ctx.table.maxState i seg) {P : List Nat} :
    Lowers I ρ ctx k (.node i []) (some P) none := by
  intro s ss s' hs hss
  obtain ⟨guard, t, body, copies, s₁, s₂, hguard, _, hbody, hcopies, hmain⟩ :=
    runs_lowerSegment_leaf h.segment h.kind h.prolog h.epilog hss
  have hs₁ := aspect_of_frame hs (Framed.freeStmts _ _ _ _ _ _ _ rfl hbody)
  have hnil := runs_stateCopies_outputs hs₁ (fun n _ hn => by rw [h.block] at hn; cases hn) hcopies
  subst hnil
  have hs₂ := aspect_of_frame hs₁ (Framed.stateCopies _ _ _ _ _ _ _ rfl hcopies)
  obtain ⟨rfl, _⟩ := runs_withCopies_nil hmain
  rw [hs₂]
  obtain ⟨lowered, s₄, hlower, rfl, _⟩ := runs_freeStmts hbody
  have hs₀ : ({ s with cycles := Option.or t.cycle s.cycles.head?.join :: s.cycles } : Session).aspect = .outputs := hs
  rw [aspect_of_frame hs₀ (Framed.lowerOutlines _ _ _ _ _ rfl hlower)]
  obtain ⟨hsat, hvals⟩ := lowerOutlines_leaf I ρ hwf hq h.stmts h.inside hs₀ hlower
  refine ⟨satisfies_inlined (updateDefaults_satisfies _ _ (updateDefaults_satisfies _ _
    (Comb.Block.satisfies_of (hq.narrow (runs_narrow.1 hguard).1) hsat))), fun hP p hp => ?_⟩
  have hholds := narrow_holds I ρ hk h.states hP (by simp) hguard
  obtain ⟨hemit, hquiet⟩ := hvals p hp
  have hvalid : Comb.Stmt.finalAll I ρ (Name.valid p.name) (inlined (updateDefaults Aspect.outputs.isControl
      (updateDefaults Aspect.outputs.isControl (.of guard lowered)))) =
        if k ∈ seg.states then Comb.Stmt.finalAll I ρ (Name.valid p.name) lowered else none := by
    rw [finalAll_settled, updateDefaults_guard, body_valid, body_valid, Comb.Block.body_of]
    simp [Comb.Block.of, hholds]
  constructor
  · intro leaf v hlive hv
    cases hlive with
    | block _ ho => cases ho
    | leaf hseg _ hmem =>
      cases h.segment.symm.trans hseg
      rw [hvalid, if_pos hmem, finalAll_settled, updateDefaults_guard, if_pos (by simpa [Comb.Block.of, hholds] using hmem)]
      refine ⟨(hemit v hv).1, body_of_some I ρ _ (body_of_some I ρ _ ?_)⟩
      rw [Comb.Block.body_of]
      exact (hemit v hv).2
  · rintro hnone ⟨⟨seg', hseg, hmem⟩, _⟩
    cases h.segment.symm.trans hseg
    rw [hvalid, if_pos hmem]
    exact hquiet fun v hv => hnone seg v (.leaf h.segment h.kind hmem) hv
  · intro huntaken
    have hmem : k ∉ seg.states := fun hmem => huntaken ⟨⟨seg, h.segment, hmem⟩, h.entered⟩
    rw [hvalid, if_neg hmem, finalAll_settled, updateDefaults_guard, if_neg (by simp [Comb.Block.of, hholds, hmem])]
    exact ⟨rfl, rfl⟩

/-- What a block leaves on the outputs, from what it leaves on entry and through the segments below it. -/
theorem lowerSegment_block_drives {i n : Nat} {os : List Outline} {b : Control.Block} {seg : Segment}
    {segs : List Segment} (h : Schedule.BlockFits ctx.module ctx.schedule ctx.table.maxState i os n b seg segs)
    (hos : ∀ o ∈ os, Schedule.Consistent ctx.module ctx.schedule ctx.table.maxState o)
    {states : Option (List Nat)} (hmodule : b.kind = .module ↔ states = none) (hroot : states = none → k ∈ seg.states)
    (hlowers : ∀ o ∈ os, Lowers I ρ ctx k o (some seg.states) none) :
    Lowers I ρ ctx k (.node i os) states (if states = none then some (I.bit false) else none) := by
  intro s ss s' hs hss
  obtain ⟨r⟩ := runs_lowerSegment_block h.segment h.not_leaf h.block hss
  obtain ⟨hs₁, hs₂, hs₃, hs₄, _⟩ := r.labels
  rw [hs] at hs₁ hs₂ hs₃ hs₄
  have hs₂' : ({ r.s₂ with cycles := r.timing.cycle :: r.s₂.cycles } : Session).aspect = .outputs :=
    Aspect.eq_outputs_of_label hs₂
  have hs₃' : ({ r.s₃ with cycles := r.s₃.cycles.tail } : Session).aspect = .outputs := Aspect.eq_outputs_of_label hs₃
  have hcopies : r.copies = [] := by
    refine runs_stateCopies_outputs hs₃' ?_ r.copies_runs
    intro n' hne hn
    cases h.block.symm.trans hn
    exact ⟨b, h.stmt, fun hk => hne (hmodule.1 hk)⟩
  have hmain := r.main_runs
  rw [hcopies] at hmain
  obtain ⟨hmain, _⟩ := runs_withCopies_nil hmain
  rw [Aspect.eq_outputs_of_label hs₄] at hmain
  obtain ⟨hsat, hvals⟩ := lowerSegments_drives I ρ hlowers (fun o ho leaf hlive => hlive.taken (hos o ho))
    (h.pairwise_taken hex hos) hs₂' r.inner_runs
  obtain ⟨hentrysat, hentry⟩ := entry_outputs I ρ (Aspect.eq_outputs_of_label hs₁) h.stmt r.entry_runs
  have hbody : ∀ t, (⟨r.full, .empty, r.entry ++ r.inner⟩ : Comb.Block).body I ρ t =
      (Comb.Stmt.finalAll I ρ t r.inner).or (Comb.Stmt.finalAll I ρ t r.entry) := by
    intro t
    rw [← Comb.Stmt.finalAll_append]
    exact Comb.Block.body_of I ρ t r.full _
  constructor
  · rw [r.eq, Comb.Stmt.satisfiesAll_append, Comb.Stmt.satisfiesAll_append, hmain]
    have havoids := Quiet.and (hq.runs_narrow r.guard_runs) (hq.guard h.inside_block h.stmt) (r.full_eq' h)
    exact ⟨⟨(r.idle_before h hwf hq (.inl (.inl hs))).satisfies, satisfies_inlined (updateDefaults_satisfies _ _
      (Comb.Block.satisfies_of havoids (Comb.Stmt.satisfiesAll_append.2 ⟨hentrysat, hsat⟩)))⟩,
      (r.idle_after h hwf hq (.inl (.inl hs))).satisfies⟩
  intro hP p hp
  have htaken := r.full_iff h hk hP hroot
  have hfinal : ∀ t, Comb.Stmt.finalAll I ρ t ss =
      if Cond.holds I ρ r.full then
        (updateDefaults Aspect.outputs.isControl ⟨r.full, .empty, r.entry ++ r.inner⟩).body I ρ t else none := by
    intro t
    rw [r.finalAll_eq h hwf hq (.inl (.inl hs)), hmain, finalAll_settled]
  have hvalid : Comb.Stmt.finalAll I ρ (Name.valid p.name) ss =
      if Cond.holds I ρ r.full then (Comb.Stmt.finalAll I ρ (Name.valid p.name) r.inner).or
        (if states = none then some (I.bit false) else none) else none := by
    rw [hfinal, body_valid, hbody, hentry p hp]
    simp only [hmodule]
  constructor
  · intro leaf v hlive hv
    have ht := hlive.taken (.block h hos)
    obtain ⟨_, o, ho, hlive⟩ := h.liveIn_iff.1 hlive
    obtain ⟨hv₁, hv₂⟩ := (hvals (h.taken_iff.1 ht).1 p hp).1 o ho leaf v hlive hv
    rw [hvalid, if_pos (htaken.2 ht), hv₁, hfinal, if_pos (htaken.2 ht)]
    refine ⟨rfl, body_of_some I ρ _ ?_⟩
    rw [hbody, hv₂, Option.some_or]
  · intro hnone ht
    obtain ⟨hmem, hopen⟩ := h.taken_iff.1 ht
    rw [hvalid, if_pos (htaken.2 ht),
      (hvals hmem p hp).2.1 fun o ho leaf v hlive hv => hnone leaf v (.block hopen ho hlive) hv, Option.none_or]
  · intro huntaken
    have hnot : ¬Cond.holds I ρ r.full = true := fun h => huntaken (htaken.1 h)
    rw [hvalid, if_neg hnot, hfinal, if_neg hnot]
    exact ⟨rfl, rfl⟩

theorem lowerSegment_drives {o : Outline} (h : Schedule.Consistent ctx.module ctx.schedule ctx.table.maxState o)
    {seg : Segment} (hseg : ctx.schedule.segment o.index = .ok seg) {states : Option (List Nat)}
    (hparent : seg.parent = none ↔ states = none) (hroot : states = none → seg.kind ≠ .leaf ∧ k ∈ seg.states) :
    Lowers I ρ ctx k o states (if states = none then some (I.bit false) else none) := by
  induction h generalizing states seg with
  | leaf h =>
    cases h.segment.symm.trans hseg
    cases states with
    | none => exact absurd h.kind (hroot rfl).1
    | some P => exact lowerSegment_leaf_drives I ρ hwf hq hk h
  | block h hos ih =>
    cases h.segment.symm.trans hseg
    refine lowerSegment_block_drives I ρ hwf hq hk hex h hos (h.module.trans hparent) (fun hnone => (hroot hnone).2) ?_
    intro o ho
    obtain ⟨c, hc, hoc⟩ := h.child ho
    exact ih o ho hoc (by simp [h.parents c hc]) (by simp)

end Walk

end Values

theorem ending_outputSignals {m : Module} {n : String} (h : n ∈ m.outputSignals) :
    Name.ending n = some 'd' ∨ Name.ending n = some 's' := by
  obtain ⟨p, _, hn⟩ := List.mem_flatMap.1 h
  rcases List.mem_cons.1 hn with rfl | hn
  · exact .inl (Name.ending_valid _)
  · rw [List.mem_singleton.1 hn]
    exact .inr (Name.ending_data _)

theorem unmarkable_outputSignals (m : Module) : Unmarkable m.outputSignals := by
  intro r
  constructor
  · intro hr
    simpa using ending_outputSignals hr
  · intro hr
    simpa using ending_outputSignals hr

/-- If no expression of the source reads an output signal, none that lowering takes over does. -/
theorem quiet_outputs {m : Module} {st : Staged} (halike : m.Alike st.module) {table : ConditionTable}
    (htable : ConditionTable.build st.module st.schedule st.maxState = .ok table)
    (hreads : ∀ n ∈ (m.outline m.root).preorder, ∀ stmt, m.stmt n = .ok stmt →
      ∀ e ∈ stmt.exprs, e.Avoids m.outputSignals) :
    Quiet ⟨st.module, st.schedule, table⟩ st.module.outputSignals := by
  have hsignals : st.module.outputSignals = m.outputSignals := by
    rw [Module.outputSignals, halike.outputs, Module.outputSignals]
  rw [hsignals]
  refine quiet_of_reads halike htable (unmarkable_outputSignals m) ?_ hreads
  intro n hn c hc
  rcases ending_outputSignals hn with h | h
  · cases hc.symm.trans h
    rfl
  · cases hc.symm.trans h
    rfl

/-- The tree of the outputs drives what the live leaf emits: in state `k` a port is valid if and only if a live leaf
holds a yield that emits on it, and its data is then the value emitted. -/
theorem outputs_follow_live_leaf {V : Type} (I : Interpretation V) (ρ : Valuation V) {d : Draft} {top : List Nat}
    {m : Module} (hm : d.finish top = .ok m) {schedule : Schedule} (hschedule : m.schedule = .ok schedule) {st : Staged}
    (hst : m.stage schedule = .ok st) {table : ConditionTable}
    (htable : ConditionTable.build st.module st.schedule st.maxState = .ok table) {s s' : Session} {tree : Comb.Block}
    (htree : runAspect ⟨st.module, st.schedule, table⟩ s .outputs = (.ok tree, s'))
    (hreads : ∀ n ∈ (m.outline m.root).preorder, ∀ stmt, m.stmt n = .ok stmt →
      ∀ e ∈ stmt.exprs, e.Avoids m.outputSignals)
    {k : Nat} (hk : StateSpace.Holds I ρ ⟨st.maxState⟩ k) (hex : st.module.Exclusive I ρ) {p : Port}
    (hp : p ∈ m.outputs) :
    ((∃ j leaf v, st.schedule.Live I ρ st.module k j leaf ∧ st.module.Emits leaf p v) →
      tree.run I ρ.overlay (Name.valid p.name) = some (I.bit true)) ∧
    ((¬∃ j leaf v, st.schedule.Live I ρ st.module k j leaf ∧ st.module.Emits leaf p v) →
      tree.run I ρ.overlay (Name.valid p.name) = some (I.bit false)) ∧
    ∀ j leaf v, st.schedule.Live I ρ st.module k j leaf → st.module.Emits leaf p v →
      tree.run I ρ.overlay (Name.data p.name) = some (v.eval I ρ) := by
  have hwf := Module.wellFormed_of_finish hm
  obtain ⟨halike, hconsistent, hpreorder, root, hroot⟩ := Module.stage_consistent hwf hschedule hst
  have hwf' := halike.wellFormed hwf
  have hspace := (ConditionTable.named_build htable).1
  have hindex : (st.schedule.outline st.schedule.root).index = st.schedule.root := Arena.index_outlineTo _ _ _ _
  have hq := quiet_outputs halike htable hreads
  obtain ⟨hmem, htaken⟩ := hroot.taken I ρ hwf' hk.le_max
  have hseg := hroot.segment
  rw [← hindex] at hseg htaken
  have hlive : ∀ leaf, (∃ j, st.schedule.Live I ρ st.module k j leaf) ↔
      st.schedule.LiveIn I ρ st.module k (st.schedule.outline st.schedule.root) leaf := by
    refine fun leaf => Schedule.live_iff hconsistent hseg hroot.parent ?_
    intro j seg hseg
    rw [hpreorder, List.mem_range]
    exact Arena.lt_size_of_get? ((Arena.get_eq_ok_iff _ _ _).1 hseg)
  obtain ⟨ss, s₁, hss, rfl⟩ := runs_lowerModule htree
  have hs₁ := aspect_of_frame rfl (Framed.lowerSegment _ _ _ _ _ _ rfl hss)
  rw [hs₁]
  rw [show st.maxState = table.maxState by rw [ConditionTable.maxState, hspace]] at hconsistent
  rw [← hspace] at hk
  have hlowers : Lowers I ρ ⟨st.module, st.schedule, table⟩ k (st.schedule.outline st.schedule.root) none
      (some (I.bit false)) :=
    lowerSegment_drives I ρ hwf' hq hk hex hconsistent hseg (by simp [hroot.parent])
      fun _ => ⟨hconsistent.not_leaf_of_block hseg hroot.block, hmem⟩
  obtain ⟨hsatisfies, hdrives⟩ := hlowers _ _ _ rfl hss
  have hdrive := hdrives (fun P hP => by cases hP) p (halike.outputs ▸ hp)
  rw [Comb.Block.run_overlay I ρ (updateDefaults_satisfies _ _ (Comb.Block.satisfies_of (fun _ h => by cases h) hsatisfies))]
  have hrun : ∀ t, (updateDefaults Aspect.outputs.isControl (.of none ss)).run I (fun _ => ρ) t =
      (updateDefaults Aspect.outputs.isControl (.of none ss)).body I ρ t :=
    fun t => Comb.Block.run_fixed I ρ t _ (updateDefaults_guard _ _)
  simp only [hrun, body_valid, Comb.Block.body_of]
  refine ⟨?_, ?_, ?_⟩
  · rintro ⟨j, leaf, v, hj, hv⟩
    exact (hdrive.emitted leaf v ((hlive leaf).1 ⟨j, hj⟩) hv).1
  · intro hnone
    refine hdrive.quiet ?_ htaken
    intro leaf v hleaf hv
    obtain ⟨j, hj⟩ := (hlive leaf).2 hleaf
    exact hnone ⟨j, leaf, v, hj, hv⟩
  · intro j leaf v hj hv
    exact body_of_some I ρ _ ((Comb.Block.body_of I ρ _ _ _).trans (hdrive.emitted leaf v ((hlive leaf).1 ⟨j, hj⟩) hv).2)

/-- Two exclusive branches, each of which emits a value, and one more value after them. -/
def selector : Draft where
  name := "selector"
  registers := .empty
  vars := .empty
  inputs := []
  outputs := [⟨"dout", .bool⟩]
  stmts := .ofList [Draft.emit [some (.flag "a")], Draft.conditional (.flag "f") [0], Draft.emit [some (.flag "b")],
    Draft.conditional (.flag "g") [2], Draft.container [1, 3], Draft.emit [some (.flag "c")]]

def selectorStaged : Staged where
  module := { selector.enclose [4, 5] with
    stmts := .ofList [.yield ⟨[some (.flag "a")], some 3⟩, .block ⟨.conditional, some (.flag "f"), [0], some 2⟩,
      .yield ⟨[some (.flag "b")], some 5⟩, .block ⟨.conditional, some (.flag "g"), [2], some 4⟩,
      .block ⟨.container, none, [1, 3], some 1⟩, .yield ⟨[some (.flag "c")], some 6⟩,
      .block ⟨.module, none, [4, 5], some 0⟩] }
  schedule := ⟨.ofList [⟨.seq, some 6, none, [1, 6], [0, 1], [], [], []⟩, ⟨.mutex, some 4, some 0, [2, 4], [0], [], [], []⟩,
    ⟨.mutex, some 1, some 1, [3], [0], [], [], []⟩, ⟨.leaf, none, some 2, [], [0], [0], [], []⟩,
    ⟨.mutex, some 3, some 1, [5], [0], [], [], []⟩, ⟨.leaf, none, some 4, [], [0], [2], [], []⟩,
    ⟨.leaf, none, some 0, [], [1], [5], [], []⟩], 0⟩
  maxState := 1

/-- State zero, with the conditions of the first branch and its value true. -/
def firstBranch : Valuation Bool where
  operand _ := false
  wire w := w.name == "f" || w.name == "a"

theorem selector_exclusive : selectorStaged.module.Exclusive .oneBit firstBranch := by
  intro n hn b hb hkind
  have hpre : (selectorStaged.module.outline selectorStaged.module.root).preorder = [6, 4, 1, 0, 3, 2, 5] := rfl
  rw [hpre] at hn
  have hclosed : ¬selectorStaged.module.Opens .oneBit firstBranch 3 := by
    rintro ⟨b, hb, hopen⟩
    cases hb
    cases hopen
  simp only [List.mem_cons, List.not_mem_nil, or_false] at hn
  rcases hn with rfl | rfl | rfl | rfl | rfl | rfl | rfl
  all_goals
    cases hb
    try cases hkind
  simp [hclosed]

theorem selector_live : selectorStaged.schedule.Live .oneBit firstBranch selectorStaged.module 0 3
    ⟨.leaf, none, some 2, [], [0], [0], [], []⟩ := by
  refine ⟨rfl, rfl, by simp, ?_⟩
  have hentered : ∀ i ∈ [0, 1, 2], selectorStaged.schedule.Entered .oneBit firstBranch selectorStaged.module i := by
    intro i hi seg n hseg hn
    simp only [List.mem_cons, List.not_mem_nil, or_false] at hi
    rcases hi with rfl | rfl | rfl
    all_goals
      cases hseg
      cases hn
      exact ⟨_, rfl, rfl⟩
  refine (Schedule.around_iff rfl rfl).2 ⟨hentered 2 (by simp), ?_⟩
  refine (Schedule.around_iff rfl rfl).2 ⟨hentered 1 (by simp), ?_⟩
  refine (Schedule.around_iff rfl rfl).2 ⟨hentered 0 (by simp), ?_⟩
  exact fun a ha => absurd ha (Schedule.not_around_root rfl rfl a)

theorem selector_reads : ∀ n ∈ ((selector.enclose [4, 5]).outline 6).preorder, ∀ stmt,
    (selector.enclose [4, 5]).stmt n = .ok stmt →
      ∀ e ∈ stmt.exprs, e.Avoids (selector.enclose [4, 5]).outputSignals := by
  have hreads : ∀ stmt ∈ (selector.enclose [4, 5]).stmts.toList,
      ∀ e ∈ stmt.exprs, e.Avoids (selector.enclose [4, 5]).outputSignals := by
    decide
  exact fun _ _ stmt hstmt => hreads stmt (Arena.mem_toList_of_get hstmt)

theorem selector_stage : ((selector.enclose [4, 5]).schedule >>= (selector.enclose [4, 5]).stage) = .ok selectorStaged := by
  decide +kernel

theorem selector_emits_first : ∃ schedule table tree s', (selector.enclose [4, 5]).schedule = .ok schedule ∧
    (selector.enclose [4, 5]).stage schedule = .ok selectorStaged ∧
    ConditionTable.build selectorStaged.module selectorStaged.schedule 1 = .ok table ∧
    runAspect ⟨selectorStaged.module, selectorStaged.schedule, table⟩ (.start .outputs) .outputs = (.ok tree, s') ∧
    tree.run .oneBit firstBranch.overlay "dout.valid" = some true ∧
    tree.run .oneBit firstBranch.overlay "dout_s" = some true := by
  obtain ⟨schedule, hschedule, hst⟩ := Checked.bind_eq_ok.1 selector_stage
  obtain ⟨table, htable⟩ : ∃ table, ConditionTable.build selectorStaged.module selectorStaged.schedule 1 = .ok table :=
    Checked.exists_ok (by decide +kernel)
  have hok : ((ConditionTable.build selectorStaged.module selectorStaged.schedule 1) >>= fun table =>
      (runAspect ⟨selectorStaged.module, selectorStaged.schedule, table⟩ (.start .outputs) .outputs).1).toOption.isSome := by
    decide +kernel
  rw [htable] at hok
  obtain ⟨tree, htree⟩ := Checked.exists_ok hok
  have htree : runAspect ⟨selectorStaged.module, selectorStaged.schedule, table⟩ (.start .outputs) .outputs = (.ok tree, _) :=
    Prod.ext htree rfl
  have hk : StateSpace.Holds .oneBit firstBranch ⟨selectorStaged.maxState⟩ 0 := by
    refine ⟨by decide, ?_⟩
    intro s hs
    match s, hs with
    | 0, _ => rfl
    | 1, _ => rfl
  have hm : selector.finish [4, 5] = .ok (selector.enclose [4, 5]) := rfl
  have hp : (⟨"dout", .bool⟩ : Port) ∈ (selector.enclose [4, 5]).outputs := List.mem_singleton.2 rfl
  obtain ⟨hvalid, _, hdata⟩ := outputs_follow_live_leaf .oneBit firstBranch hm hschedule hst htable htree selector_reads
    hk selector_exclusive hp
  have hemits : selectorStaged.module.Emits ⟨.leaf, none, some 2, [], [0], [0], [], []⟩ ⟨"dout", .bool⟩ (.flag "a") :=
    ⟨0, _, by simp, rfl, by decide⟩
  exact ⟨schedule, table, tree, _, hschedule, hst, htable, htree, hvalid ⟨3, _, _, selector_live, hemits⟩,
    hdata 3 _ _ selector_live hemits⟩

end Lowering

end Sequencer
