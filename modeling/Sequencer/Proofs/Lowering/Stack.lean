import Sequencer.Control.Draft
import Sequencer.Proofs.Compile
import Sequencer.Proofs.Lowering.Registers

set_option autoImplicit false

/-!
# The stack of cycle conditions

A step puts conditions on top of those that it finds and takes them off again in the end, but not if it fails in
between. So a rejected run leaves conditions behind, unless it is rejected at the entry of the module. A segment puts its
own condition on the stack before anything looks at it, and so later runs do not depend on what is left there, unless the
outermost segment has neither segments inside nor a condition.
-/

namespace Sequencer

namespace Checked

variable {α β : Type}

/-- The computation may abort, but its input is not rejected. -/
def Unrejected (x : Checked α) : Prop := ∀ cause, x ≠ .error (.rejected cause)

namespace Unrejected

theorem ok (a : α) : Unrejected (.ok a) := fun _ h => by cases h

theorem abort (cause : Abort) : Unrejected (.abort cause : Checked α) := fun _ h => by cases h

theorem bind {x : Checked α} {f : α → Checked β} (hx : Unrejected x) (hf : ∀ a, Unrejected (f a)) :
    Unrejected (x >>= f) := by
  cases x with
  | ok a => exact hf a
  | error e =>
    intro cause h
    cases h
    exact hx cause rfl

theorem map {x : Checked α} (hx : Unrejected x) (f : α → β) : Unrejected (x.map f) := by
  intro cause h
  cases x with
  | ok a => cases h
  | error e =>
    cases h
    exact hx cause rfl

theorem mapM {f : α → Checked β} (hf : ∀ a, Unrejected (f a)) (as : List α) : Unrejected (as.mapM f) := by
  induction as with
  | nil => exact ok _
  | cons a as ih =>
    rw [List.mapM_cons]
    exact bind (hf a) fun _ => bind ih fun _ => ok _

theorem accepted? (x : Checked α) : Unrejected x.accepted? := by
  intro cause h
  rcases x with (_ | _) | _ <;> cases h

end Unrejected

end Checked

open Checked

theorem Arena.unrejected_get {α : Type} (a : Arena α) (i : Nat) : Unrejected (a.get i) := by
  rw [Arena.get]
  split
  · exact .ok _
  · exact .abort _

theorem Expr.unrejected_asBool (e : Expr) : Unrejected e.asBool := by
  cases e with
  | lit l =>
    refine (Unrejected.accepted? _).bind fun w => ?_
    split
    · exact .ok _
    · exact .ok _
  | operand | wire | bin | un | concat => exact .ok _

theorem Expr.unrejected_and (a b : Expr) : Unrejected (a.and b) := by
  refine a.unrejected_asBool.bind fun p => ?_
  split
  · exact .ok _
  · refine b.unrejected_asBool.bind fun q => ?_
    split
    · exact .ok _
    · split
      · exact .ok _
      · split
        · exact .ok _
        · exact .ok _

theorem Cond.unrejected_and (a b : Cond) : Unrejected (Cond.and a b) := by
  cases a with
  | none => exact .ok _
  | some a =>
    cases b with
    | none => exact .ok _
    | some b => exact (a.unrejected_and b).bind fun _ => .ok _

namespace Module

variable (m : Module) (i : Nat)

theorem unrejected_stmt : Unrejected (m.stmt i) := m.stmts.unrejected_get i

theorem unrejected_block? : Unrejected (m.block? i) := (m.unrejected_stmt i).map _

theorem unrejected_kind? : Unrejected (m.kind? i) := (m.unrejected_block? i).map _

theorem unrejected_descendants : Unrejected (m.descendants i) := .mapM (fun j => (m.unrejected_stmt j).map _) _

end Module

theorem Schedule.exists_outline_root (s : Schedule) : ∃ os, s.outline s.root = .node s.root os := by
  have hindex := s.index_outline s.root
  cases ho : s.outline s.root with
  | node i os =>
    rw [ho] at hindex
    exact ⟨os, by rw [← hindex, Outline.index]⟩

namespace Lowering

open Control Lower

theorem Latches.unrejected_ofModule (m : Module) : Unrejected (ofModule m) :=
  (m.unrejected_descendants m.root).bind fun _ => (Unrejected.mapM m.unrejected_stmt _).bind fun _ => .ok _

section Failing

variable {α β : Type} {ctx : Context} {s s' s'' : Session} {e : Fault}

/-- The step fails and leaves the session `s'`. -/
def Lower.Fails (ctx : Context) (x : Lower α) (s : Session) (e : Fault) (s' : Session) : Prop :=
  x.perform ctx s = (.error e, s')

theorem not_fails_pure {a : α} : ¬ Fails ctx (pure a) s e s' := by
  intro h
  cases h

theorem fails_check {x : Checked α} : Fails ctx (check x) s e s' ↔ x = .error e ∧ s' = s := by
  change (x, s) = (.error e, s') ↔ _
  rw [Prod.mk.injEq, eq_comm (a := s)]

theorem fails_bind {x : Lower α} {f : α → Lower β} :
    Fails ctx (x >>= f) s e s'' ↔ Fails ctx x s e s'' ∨ ∃ a s', Runs ctx x s a s' ∧ Fails ctx (f a) s' e s'' := by
  rw [Fails, perform_bind]
  cases hx : x.perform ctx s with
  | mk r s₁ =>
    cases r with
    | error e => simp [Runs, Fails, hx]
    | ok a => simp [Runs, Fails, hx]

theorem fails_read_bind {f : Context → Lower β} : Fails ctx (read >>= f) s e s' ↔ Fails ctx (f ctx) s e s' := Iff.rfl

theorem fails_aspect_bind {f : Aspect → Lower β} :
    Fails ctx (aspect >>= f) s e s' ↔ Fails ctx (f s.aspect) s e s' := Iff.rfl

theorem fails_mapM {f : α → Lower β} {as : List α} (h : Fails ctx (as.mapM f) s e s') :
    ∃ a ∈ as, ∃ s₁, Fails ctx (f a) s₁ e s' := by
  induction as generalizing s with
  | nil =>
    rw [List.mapM_nil] at h
    exact absurd h not_fails_pure
  | cons a as ih =>
    rw [List.mapM_cons] at h
    rcases fails_bind.1 h with h | ⟨b, s₁, _, h⟩
    · exact ⟨a, List.mem_cons_self, s, h⟩
    · rcases fails_bind.1 h with h | ⟨bs, s₂, _, h⟩
      · obtain ⟨a', ha', s₂, h⟩ := ih h
        exact ⟨a', List.mem_cons_of_mem _ ha', s₂, h⟩
      · exact absurd h not_fails_pure

end Failing

/-- The outermost segment does not look at the stack: it has segments inside, or a cycle condition of its own. -/
def Context.SetsCycle (ctx : Context) : Prop := ∀ seg t, ctx.schedule.segment ctx.schedule.root = .ok seg →
  seg.kind = .leaf → ctx.table.timing ctx.schedule.root = .ok t → t.cycle.isSome

section Local

variable {α β : Type}

/-- What the step does depends only on the `k` conditions on top of the stack. If it succeeds it leaves the stack as it
is, and if it fails the conditions that it leaves on top satisfy `R`. -/
def Lower.Local (ctx : Context) (k : Nat) (R : Fault → List Cond → Prop) (x : Lower α) : Prop :=
  ∀ s : Session, ∃ r opened used aspect, (∀ a, r = .ok a → opened = []) ∧ (∀ e, r = .error e → R e opened) ∧
    ∀ l, l.take k = s.cycles.take k → x.perform ctx { s with cycles := l } = (r, ⟨opened ++ l, used, aspect⟩)

/-- Some condition is left if the input is rejected. -/
def Opening (e : Fault) (opened : List Cond) : Prop := ∀ cause, e = .rejected cause → opened ≠ []

def Closed (_ : Fault) (opened : List Cond) : Prop := opened = []

def Anything (_ : Fault) (_ : List Cond) : Prop := True

namespace Lower.Local

variable {ctx : Context} {k : Nat} {R : Fault → List Cond → Prop}

theorem runs {x : Lower α} (hx : Local ctx k R x) {s s' : Session} {a : α} (h : Runs ctx x s a s') :
    s'.cycles = s.cycles := by
  obtain ⟨r, opened, used, aspect, hok, -, hrun⟩ := hx s
  cases h.symm.trans (hrun s.cycles rfl)
  rw [hok a rfl, List.nil_append]

theorem fails {x : Lower α} (hx : Local ctx k R x) {s s' : Session} {e : Fault} (h : Fails ctx x s e s') :
    ∃ opened, s'.cycles = opened ++ s.cycles ∧ R e opened := by
  obtain ⟨r, opened, used, aspect, -, herr, hrun⟩ := hx s
  cases h.symm.trans (hrun s.cycles rfl)
  exact ⟨opened, rfl, herr e rfl⟩

theorem mono {x : Lower α} (hx : Local ctx k R x) {R' : Fault → List Cond → Prop}
    (hR : ∀ e opened, R e opened → R' e opened) : Local ctx k R' x := by
  intro s
  obtain ⟨r, opened, used, aspect, hok, herr, hrun⟩ := hx s
  exact ⟨r, opened, used, aspect, hok, fun e he => hR e opened (herr e he), hrun⟩

theorem pure (a : α) : Local ctx k R (Pure.pure a : Lower α) := fun s =>
  ⟨.ok a, [], s.used, s.aspect, fun _ _ => rfl, nofun, fun _ _ => rfl⟩

theorem bind_runs {x : Lower α} {f : α → Lower β} (hx : Local ctx k R x)
    (hf : ∀ a s s', Runs ctx x s a s' → Local ctx k R (f a)) : Local ctx k R (x >>= f) := by
  intro s
  obtain ⟨r, opened, used, aspect, hok, herr, hrun⟩ := hx s
  cases r with
  | error e =>
    refine ⟨.error e, opened, used, aspect, nofun, fun e' he => herr e' (by cases he; rfl), ?_⟩
    intro l hl
    rw [perform_bind, hrun l hl]
  | ok a =>
    cases hok a rfl
    obtain ⟨r', opened', used', aspect', hok', herr', hrun'⟩ := hf a s _ (hrun s.cycles rfl) ⟨s.cycles, used, aspect⟩
    refine ⟨r', opened', used', aspect', hok', herr', fun l hl => ?_⟩
    rw [perform_bind, hrun l hl]
    exact hrun' l hl

theorem bind {x : Lower α} {f : α → Lower β} (hx : Local ctx k R x) (hf : ∀ a, Local ctx k R (f a)) :
    Local ctx k R (x >>= f) := bind_runs hx fun a _ _ _ => hf a

theorem check {x : Checked α} (hx : ∀ e, x = .error e → R e []) : Local ctx k R (Lowering.check x) := fun s =>
  ⟨x, [], s.used, s.aspect, fun _ _ => rfl, hx, fun _ _ => rfl⟩

theorem read_bind {f : Context → Lower β} (hf : Local ctx k R (f ctx)) : Local ctx k R (read >>= f) := hf

theorem aspect_bind {f : Aspect → Lower β} (hf : ∀ a, Local ctx k R (f a)) : Local ctx k R (aspect >>= f) := fun s =>
  hf s.aspect s

/-- A change to the notes of a session. -/
theorem modify {f : Session → Session} (hf : ∀ s l, f { s with cycles := l } = { f s with cycles := l }) :
    Local ctx k R (modify f : Lower PUnit) := by
  intro s
  refine ⟨.ok ⟨⟩, [], (f s).used, (f s).aspect, fun _ _ => rfl, nofun, fun l _ => ?_⟩
  exact congrArg (Prod.mk _) (hf s l)

theorem currentCycle : Local ctx 1 R currentCycle := by
  intro s
  refine ⟨.ok s.cycles.head?.join, [], s.used, s.aspect, fun _ _ => rfl, nofun, fun l hl => ?_⟩
  have hhead : l.head? = s.cycles.head? := by
    simpa [List.head?_take] using congrArg List.head? hl
  rw [← hhead]
  rfl

/-- What fails between a push and a pop leaves the condition on the stack. -/
theorem cycle {R' : Fault → List Cond → Prop} {x : Lower α} {f : α → Lower β} (c : Cond) (hx : Local ctx 1 R' x)
    (hR : ∀ e opened, R' e opened → R e (opened ++ [c])) (hf : ∀ a, Local ctx k R (f a)) :
    Local ctx k R (do pushCycle c; let a ← x; popCycle; f a) := by
  intro s
  obtain ⟨r, opened, used, aspect, hok, herr, hrun⟩ := hx { s with cycles := c :: s.cycles }
  have hpush : ∀ l, Lower.perform (do pushCycle c; let a ← x; popCycle; f a) ctx { s with cycles := l } =
      Lower.perform (do let a ← x; popCycle; f a) ctx { s with cycles := c :: l } := fun _ => rfl
  cases r with
  | error e =>
    refine ⟨.error e, opened ++ [c], used, aspect, nofun, ?_, fun l _ => ?_⟩
    · intro e' he
      cases he
      exact hR e opened (herr e rfl)
    · rw [hpush, perform_bind, hrun (c :: l) rfl, List.append_assoc, List.singleton_append]
  | ok a =>
    cases hok a rfl
    obtain ⟨r', opened', used', aspect', hok', herr', hrun'⟩ := hf a ⟨s.cycles, used, aspect⟩
    refine ⟨r', opened', used', aspect', hok', herr', fun l hl => ?_⟩
    rw [hpush, perform_bind, hrun (c :: l) rfl]
    exact hrun' l hl

theorem named (name : String) : Local ctx k R (named name) := by
  refine read_bind ?_
  split
  · exact bind (modify fun _ _ => rfl) fun _ => pure _
  · exact pure _

/-- A property that no failure at the current stack contradicts. -/
theorem noted (hR : ∀ e, R e []) : Noted (Local ctx k R) where
  pure := pure
  bind := bind
  check _ := check fun e _ => hR e
  read_bind hf := read_bind (hf ctx)
  named := named
  aspect_bind := aspect_bind
  setAspect _ := modify fun _ _ => rfl

theorem visitBlock (hR : ∀ e, R e []) (i : Nat) : Local ctx k R (visitBlock i) :=
  bind ((noted hR).block? i) fun _ => bind ((noted hR).enterBlock i) fun _ => pure _

theorem stepwise : Stepwise (Local ctx 1 Anything) where
  toSequenced := (noted fun _ => trivial).toSequenced
  aspect_bind := aspect_bind
  currentCycle := currentCycle
  mark _ := read_bind (modify fun _ _ => rfl)
  markTree _ := read_bind (modify fun _ _ => rfl)
  cycle c hx hf := cycle c hx (fun _ _ _ => trivial) hf
  enterBlock := (noted fun _ => trivial).enterBlock
  visitYield := (noted fun _ => trivial).visitYield
  assignState := (noted fun _ => trivial).assignState

theorem leaves {x : Lower α} (hx : Local ctx k Opening x) {s s' : Session} {cause : Rejection}
    (h : Fails ctx x s (.rejected cause) s') : s'.cycles ≠ s.cycles := by
  obtain ⟨opened, hopened, hne⟩ := hx.fails h
  intro hs
  rw [hs, List.self_eq_append_left] at hopened
  exact hne cause rfl hopened

theorem check_unrejected {x : Checked α} (hx : Unrejected x) : Local ctx k Opening (Lowering.check x) :=
  check fun _ he cause hcause => absurd (hcause ▸ he) (hx cause)

theorem block? (i : Nat) : Local ctx k Opening (block? i) :=
  read_bind (check_unrejected (ctx.module.unrejected_block? i))

theorem kind? (i : Nat) : Local ctx k Opening (kind? i) :=
  read_bind (check_unrejected (ctx.module.unrejected_kind? i))

theorem segment (i : Nat) : Local ctx k Opening (segment i) :=
  read_bind (check_unrejected (ctx.schedule.segments.unrejected_get i))

theorem timing (i : Nat) : Local ctx k Opening (timing i) :=
  read_bind (check_unrejected (ctx.table.refs.unrejected_get i))

theorem settled (b : Comb.Block) : Local ctx k Opening (settled b) := aspect_bind fun _ => pure _

theorem blockOf (seg : Segment) : Local ctx k Opening (blockOf seg) := by
  rw [Lowering.blockOf]
  split
  · exact pure _
  · exact block? _

theorem cycle_opening {x : Lower α} {f : α → Lower β} (c : Cond) (hx : Local ctx 1 Anything x)
    (hf : ∀ a, Local ctx k Opening (f a)) : Local ctx k Opening (do pushCycle c; let a ← x; popCycle; f a) :=
  cycle c hx (fun _ opened _ _ _ => List.append_ne_nil_of_right_ne_nil opened (List.cons_ne_nil c [])) hf

theorem freeStmts (stmts : List Nat) (guard c : Cond) : Local ctx k Opening (freeStmts stmts guard c) :=
  cycle_opening c (read_bind (stepwise.lowerOutlines _)) fun _ => settled _

theorem enterInputs (b : Option Block) : Local ctx k Opening (enterInputs b) := by
  unfold Lowering.enterInputs
  dsimp only
  split
  · exact pure _
  · split
    · exact read_bind (pure _)
    · exact bind (named _) fun _ => pure _
    · exact bind (named _) fun _ => pure _
    · exact pure _

/-- The segments inside another one, with what comes after them. -/
theorem inner {i : Nat} {guard : Checked Cond} (hguard : Unrejected guard) {states : List Nat} {os : List Outline}
    {f : Cond → List Comb.Stmt → Lower β} (hf : ∀ guard ss, Local ctx k Opening (f guard ss)) : Local ctx k Opening (do
      let guard ← Lowering.check guard
      pushCycle (← Lowering.timing i).cycle
      let ss ← lowerSegments states os
      popCycle
      f guard ss) :=
  bind (check_unrejected hguard) fun guard => bind (timing i) fun t =>
    cycle_opening t.cycle (stepwise.lowerSegments _ os) (hf guard)

section Root

variable (i : Nat) (seg : Segment)

theorem lowerProlog : Local ctx k Opening (lowerProlog i seg none) := by
  unfold Lowering.lowerProlog
  split
  · exact pure _
  · exact bind (pure _) fun _ => bind (timing i) fun _ => bind (freeStmts _ _ _) fun _ => pure _

theorem lowerEpilog : Local ctx k Opening (lowerEpilog i seg none) := by
  unfold Lowering.lowerEpilog
  split
  · exact pure _
  · exact bind (timing i) fun _ => bind (pure _) fun _ => bind (check_unrejected (Cond.unrejected_and _ _)) fun _ =>
      bind (freeStmts _ _ _) fun _ => pure _

theorem withCopies (body : Comb.Block) (copies : List Comb.Block) :
    Local ctx k Opening (withCopies seg none body copies) := by
  refine bind (blockOf seg) fun b => ?_
  dsimp only
  split
  · exact bind (settled _) fun _ => pure _
  · refine bind (settled _) fun _ => ?_
    split
    · exact pure _
    · exact bind (pure _) fun _ => pure _

/-- What comes after the body of the outermost segment. -/
theorem rest (before : List Comb.Stmt) (body : Comb.Block) : Local ctx k Opening (do
    let copies ← stateCopies i seg none
    let main ← Lowering.withCopies seg none body copies
    let after ← Lowering.lowerEpilog i seg none
    return before ++ main ++ after) :=
  bind (pure _) fun _ => bind (withCopies seg _ _) fun _ => bind (lowerEpilog i seg) fun _ => pure _

end Root

/-- Unless the outermost segment looks at the stack, nothing does. -/
theorem lowerSegment (hsets : ctx.SetsCycle) (os : List Outline) :
    Local ctx 0 Anything (lowerSegment none (.node ctx.schedule.root os)) := by
  have hany : ∀ {γ : Type} {x : Lower γ}, Local ctx 0 Opening x → Local ctx 0 Anything x :=
    fun hx => hx.mono fun _ _ _ => trivial
  rw [Lowering.lowerSegment]
  refine bind_runs (hany (segment _)) fun seg s s' hseg => bind (pure _) fun guard =>
    bind (hany (lowerProlog _ seg)) fun before => ?_
  cases hkind : seg.kind with
  | leaf =>
    refine hany (bind_runs (timing _) fun t s₁ s₂ ht => ?_)
    obtain ⟨c, hc⟩ := Option.isSome_iff_exists.1 (hsets seg t (runs_segment.1 hseg).1 hkind (runs_timing.1 ht).1)
    dsimp only
    rw [hc]
    exact bind (pure _) fun _ => bind (freeStmts _ _ _) (rest _ seg before)
  | seq | mutex =>
    dsimp only
    cases seg.block with
    | some n =>
      exact bind (visitBlock (fun _ => trivial) n) fun _ =>
        hany (inner (Cond.unrejected_and _ _) fun _ _ => bind (pure _) (rest _ seg before))
    | none =>
      exact hany (bind (pure _) fun _ => inner (Cond.unrejected_and _ _) fun _ _ => bind (pure _) (rest _ seg before))

end Lower.Local

end Local

variable {ctx : Context} {s s' : Session} {cause : Rejection}

theorem fails_enterRegisters {kind : Option BlockKind} (h : Fails ctx (enterRegisters kind) s (.rejected cause) s') :
    ∃ e ∈ ctx.module.registers.entries, e.2.type.width = .error (.rejected cause) := by
  rw [enterRegisters] at h
  split at h
  · exact absurd h not_fails_pure
  · rcases fails_bind.1 (fails_read_bind.1 h) with h | ⟨_, _, _, h⟩
    · obtain ⟨e, he, s₁, h⟩ := fails_mapM h
      rcases fails_bind.1 h with h | ⟨_, _, _, h⟩
      · exact ⟨e, he, (fails_check.1 h).1⟩
      · exact absurd h not_fails_pure
    · exact absurd h not_fails_pure

/-- The entry of a block is rejected only for the width of a register, which is read at the entry of the module. -/
theorem fails_enterBlock {i : Nat} (h : Fails ctx (enterBlock i) s (.rejected cause) s') : s.aspect = .registers ∧
    ∃ e ∈ ctx.module.registers.entries, e.2.type.width = .error (.rejected cause) := by
  have hs : s'.cycles = s.cycles := by
    obtain ⟨opened, hopened, hnil⟩ := ((Local.noted (k := 0) (R := Closed) fun _ => rfl).enterBlock i).fails h
    rw [hopened, hnil, List.nil_append]
  have h := fails_aspect_bind.1 h
  generalize s.aspect = a at h
  cases a
  case registers =>
    rcases fails_bind.1 h with hkind | ⟨kind, s₁, _, h⟩
    · exact absurd hs ((Local.kind? (k := 0) i).leaves hkind)
    rcases fails_bind.1 h with hregisters | ⟨_, _, _, hpure⟩
    · exact ⟨rfl, fails_enterRegisters hregisters⟩
    · exact absurd hpure not_fails_pure
  -- What the other classes check on entry may abort only.
  all_goals refine absurd hs (Local.leaves (k := 0) ?_ h)
  case latches =>
    refine .read_bind ?_
    dsimp only
    split
    · exact .bind (.check_unrejected (Latches.unrejected_ofModule _)) fun _ =>
        .bind (.modify fun _ _ => rfl) fun _ => .pure _
    · exact .pure _
  case outputs =>
    refine .bind (.kind? i) fun k => ?_
    split
    · exact .pure _
    · exact .read_bind (.pure _)
  case inputs => exact .bind (.block? i) fun b => .bind (.enterInputs b) fun _ => .pure _
  case transitions =>
    refine .bind (.kind? i) fun k => .bind (.read_bind (.pure _)) fun n => ?_
    split
    · exact .pure _
    · exact .pure _
  case conditions =>
    refine .bind (.block? i) fun b => ?_
    cases b with
    | none => exact .pure _
    | some b => exact .read_bind (.bind (.modify fun _ _ => rfl) fun _ => .pure _)

theorem fails_visitBlock {i : Nat} (h : Fails ctx (visitBlock i) s (.rejected cause) s') : s.aspect = .registers ∧
    ∃ e ∈ ctx.module.registers.entries, e.2.type.width = .error (.rejected cause) := by
  rcases fails_bind.1 h with hblock | ⟨b, s₁, hb, hrest⟩
  · exact absurd (fails_check.1 (fails_read_bind.1 hblock)).1 (ctx.module.unrejected_block? i cause)
  obtain ⟨-, rfl⟩ := runs_block?.1 hb
  rcases fails_bind.1 hrest with henter | ⟨_, _, _, hpure⟩
  · exact fails_enterBlock henter
  · exact absurd hpure not_fails_pure

/-- A walk that is rejected leaves a condition on the stack, unless it is rejected at the entry of the outermost block. -/
theorem fails_lowerSegment {i : Nat} {os : List Outline}
    (h : Fails ctx (lowerSegment none (.node i os)) s (.rejected cause) s') (hs : s'.cycles = s.cycles) :
    ∃ seg n before s₁, Runs ctx (lowerProlog i seg none) s before s₁ ∧ Fails ctx (visitBlock n) s₁ (.rejected cause) s' := by
  rw [lowerSegment] at h
  rcases fails_bind.1 h with hread | ⟨seg, s₀, hread, h₀⟩
  · exact absurd hs ((Local.segment (k := 0) i).leaves hread)
  obtain ⟨-, rfl⟩ := runs_segment.1 hread
  rcases fails_bind.1 h₀ with hguard | ⟨guard, s₀, hguard, h₁⟩
  · exact absurd hguard not_fails_pure
  obtain ⟨rfl, rfl⟩ := runs_pure.1 hguard
  rcases fails_bind.1 h₁ with hbefore | ⟨before, s₁, hbefore, h₂⟩
  · exact absurd hs ((Local.lowerProlog (k := 0) i seg).leaves hbefore)
  have hs₁ : s'.cycles = s₁.cycles := hs.trans ((Local.lowerProlog (k := 0) i seg).runs hbefore).symm
  have hrest := @Local.rest ctx 1 i seg before
  -- After the prolog, whatever is rejected lies between a push and a pop, except for the entry of a block.
  cases hkind : seg.kind with
  | leaf =>
    rw [hkind] at h₂
    refine absurd hs₁ (Local.leaves (k := 1) (.bind (.timing i) fun t => ?_) h₂)
    dsimp only
    cases t.cycle with
    | some c => exact .bind (.pure _) fun _ => .bind (.freeStmts _ _ _) hrest
    | none => exact .bind .currentCycle fun _ => .bind (.freeStmts _ _ _) hrest
  | seq | mutex =>
    rw [hkind] at h₂
    dsimp only at h₂
    cases hblock : seg.block with
    | none =>
      rw [hblock] at h₂
      exact absurd hs₁ (Local.leaves (k := 1) (.bind (.pure _) fun _ =>
        .inner (Cond.unrejected_and _ _) fun _ _ => .bind (.pure _) hrest) h₂)
    | some n =>
      rw [hblock] at h₂
      rcases fails_bind.1 h₂ with hvisit | ⟨head, s₂, hhead, hinner⟩
      · exact ⟨seg, n, before, s₁, hbefore, hvisit⟩
      · have hs₂ : s₂.cycles = s₁.cycles := (Local.stepwise.visitBlock n).runs hhead
        exact absurd (hs₁.trans hs₂.symm) (Local.leaves (k := 1)
          (.inner (Cond.unrejected_and _ _) fun _ _ => .bind (.pure _) hrest) hinner)

theorem fails_lowerModule (h : Fails ctx lowerModule s (.rejected cause) s') (hs : s'.cycles = s.cycles) :
    s.aspect = .registers ∧ ∃ e ∈ ctx.module.registers.entries, e.2.type.width = .error (.rejected cause) := by
  obtain ⟨os, hos⟩ := ctx.schedule.exists_outline_root
  rcases fails_bind.1 (fails_read_bind.1 h) with hwalk | ⟨_, _, _, hrest⟩
  · rw [hos] at hwalk
    obtain ⟨seg, n, before, s₁, hbefore, hvisit⟩ := fails_lowerSegment hwalk hs
    obtain ⟨haspect, hregister⟩ := fails_visitBlock hvisit
    have hlabel : s.aspect.label = Aspect.registers.label := by
      rw [← (Framed.lowerProlog _ seg none _ _ _ _ rfl hbefore).label, haspect]
    exact ⟨registers_of_label hlabel, hregister⟩
  · cases hrest

theorem Lower.Local.lowerModule (hsets : ctx.SetsCycle) : Local ctx 0 Anything lowerModule := by
  obtain ⟨os, hos⟩ := ctx.schedule.exists_outline_root
  refine read_bind (bind ?_ fun _ => bind (aspect_bind fun _ => pure _) fun _ =>
    bind (read_bind (modify fun _ _ => rfl)) fun _ => pure _)
  rw [hos]
  exact Local.lowerSegment hsets os

/-- Without a look at the stack, a run is the same on every stack. -/
theorem runAspect_cycles (hsets : ctx.SetsCycle) (s : Session) (a : Aspect) (cycles : List Cond) :
    (runAspect ctx { s with cycles := cycles } a).1 = (runAspect ctx s a).1 ∧
      (runAspect ctx { s with cycles := cycles } a).2.used = (runAspect ctx s a).2.used := by
  obtain ⟨r, opened, used, aspect, -, -, hrun⟩ := Local.lowerModule hsets { s with aspect := a }
  have hany : runAspect ctx { s with cycles := cycles } a = (r, ⟨opened ++ cycles, used, aspect⟩) := hrun cycles rfl
  have hsame : runAspect ctx s a = (r, ⟨opened ++ s.cycles, used, aspect⟩) := hrun s.cycles rfl
  rw [hany, hsame]
  exact ⟨rfl, rfl⟩

/-- A run puts conditions on top of the stack at most. It leaves none there if it succeeds. If its input is rejected it
leaves some, except where the width of a register is not known at the entry of the module. Later runs do not see them
unless the outermost segment looks at the stack. -/
theorem stack_after_run {ctx : Context} {s s' : Session} {a : Aspect} {r : Checked Comb.Block}
    (hrun : runAspect ctx s a = (r, s')) : ∃ opened, s'.cycles = opened ++ s.cycles ∧
      (∀ tree, r = .ok tree → opened = []) ∧
      (∀ cause, r = .error (.rejected cause) → opened = [] →
        a = .registers ∧ ∃ e ∈ ctx.module.registers.entries, e.2.type.width = .error (.rejected cause)) ∧
      (ctx.SetsCycle → ∀ b, (runAspect ctx s' b).1 = (runAspect ctx { s' with cycles := s.cycles } b).1 ∧
        (runAspect ctx s' b).2.used = (runAspect ctx { s' with cycles := s.cycles } b).2.used) := by
  have hlater := fun (hsets : ctx.SetsCycle) b => (runAspect_cycles hsets s' b s.cycles).imp Eq.symm Eq.symm
  cases r with
  | ok tree =>
    have hs' : s'.cycles = s.cycles := Local.stepwise.lowerModule.runs (s := { s with aspect := a }) hrun
    exact ⟨[], hs', fun _ _ => rfl, nofun, hlater⟩
  | error e =>
    obtain ⟨opened, hopened, -⟩ := Local.stepwise.lowerModule.fails hrun
    refine ⟨opened, hopened, nofun, fun cause h hnil => ?_, hlater⟩
    cases h
    rw [hnil, List.nil_append] at hopened
    exact fails_lowerModule hrun hopened

/-- Emits on a port of open width and updates a register. -/
def unsized : Draft where
  name := "unsized"
  registers := .ofList [("acc", ⟨.uint 8, 0⟩)]
  vars := .empty
  inputs := []
  outputs := [⟨"dout", ⟨.uint, [.param "W"]⟩⟩]
  stmts := .ofList [Draft.emit [some (.flag "a")], .update "acc" (.flag "b")]

def unsizedContext : Checked Context := do
  let m := unsized.enclose [0, 1]
  let st ← m.stage (← m.schedule)
  return ⟨st.module, st.schedule, ← ConditionTable.build st.module st.schedule st.maxState⟩

/-- The same statements in a single segment, which takes the condition of its cycle from the stack. -/
def unsizedLeaf : Schedule := ⟨.ofList [⟨.leaf, none, none, [], [0], [1], [0], []⟩], 0⟩

def unsizedLeafContext : Checked Context := do
  let m := unsized.enclose [0, 1]
  return ⟨m, unsizedLeaf, ← ConditionTable.build m unsizedLeaf 0⟩

/-- The width of the port is not known. -/
def unsizedCause : Rejection := .unresolvedWidth "Uint[W]" "W"

/-- Inside a cycle that completes under `c`. -/
def withinCycle : Session := ⟨[some (.flag "c")], [], .outputs⟩

/-- The conditions of the statements of `unsized` and of the module around them. -/
def unsizedCycles : List Cond := [some (.flag (Name.cycleCond 1)), some (.flag (Name.cycleCond 0))]

/-- A rejected run leaves its conditions on the stack, and a later one may take them for its own. -/
theorem rejected_run_leaves_cycles :
    (∃ ctx, unsizedContext = .ok ctx ∧
      runAspect ctx (.start .outputs) .outputs = (.error (.rejected unsizedCause), ⟨unsizedCycles, [], .outputs⟩)) ∧
    ∃ ctx s', unsizedLeafContext = .ok ctx ∧ runAspect ctx withinCycle .outputs = (.error (.rejected unsizedCause), s') ∧
      (runAspect ctx s' .registers).1 ≠ (runAspect ctx { s' with cycles := withinCycle.cycles } .registers).1 := by
  have hleft : (unsizedContext.toOption.any fun ctx => decide (runAspect ctx (.start .outputs) .outputs =
      (.error (.rejected unsizedCause), ⟨unsizedCycles, [], .outputs⟩))) = true := by
    decide +kernel
  have hseen : (unsizedLeafContext.toOption.any fun ctx =>
      let run := runAspect ctx withinCycle .outputs
      decide (run.1 = .error (.rejected unsizedCause)) && decide ((runAspect ctx run.2 .registers).1 ≠
        (runAspect ctx { run.2 with cycles := withinCycle.cycles } .registers).1)) = true := by
    decide +kernel
  obtain ⟨ctx, hctx, hrun⟩ := Checked.exists_of_any hleft
  obtain ⟨leaf, hleaf, hseen⟩ := Checked.exists_of_any hseen
  rw [Bool.and_eq_true, decide_eq_true_eq, decide_eq_true_eq] at hseen
  exact ⟨⟨ctx, hctx, of_decide_eq_true hrun⟩, leaf, _, hleaf, Prod.ext hseen.1 rfl, hseen.2⟩

theorem unsized_stack : ∃ ctx s', unsizedContext = .ok ctx ∧
    runAspect ctx (.start .outputs) .outputs = (.error (.rejected unsizedCause), s') ∧ ctx.SetsCycle ∧ s'.cycles ≠ [] ∧
      (runAspect ctx s' .registers).1 = (runAspect ctx { s' with cycles := [] } .registers).1 := by
  have hknown : (unsizedContext.toOption.any fun ctx =>
      decide ((runAspect ctx (.start .outputs) .outputs).1 = .error (.rejected unsizedCause)) &&
        decide ((ctx.schedule.segment ctx.schedule.root).toOption.map Segment.kind = some .seq)) = true := by
    decide +kernel
  obtain ⟨ctx, hctx, hknown⟩ := Checked.exists_of_any hknown
  rw [Bool.and_eq_true, decide_eq_true_eq, decide_eq_true_eq] at hknown
  have hsets : ctx.SetsCycle := by
    intro seg t hseg hkind _
    rw [hseg, Except.toOption, Option.map_some, hkind] at hknown
    cases hknown.2
  obtain ⟨opened, hopened, -, hrejected, hlater⟩ := stack_after_run (Prod.ext hknown.1 rfl)
  have hne : opened ≠ [] := by
    intro hnil
    cases (hrejected unsizedCause rfl hnil).1
  refine ⟨ctx, _, hctx, Prod.ext hknown.1 rfl, hsets, ?_, (hlater hsets .registers).1⟩
  rw [hopened]
  exact List.append_ne_nil_of_left_ne_nil hne _

end Lowering

end Sequencer
