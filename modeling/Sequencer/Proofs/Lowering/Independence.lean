import Sequencer.Control.Draft
import Sequencer.Proofs.Compile

set_option autoImplicit false

/-!
# Independence of the runs

The classes of signals are lowered one after the other in one session. A run only adds to the conditions noted so far
and does not look at them, so its tree and the conditions that it notes are those of a run on its own.
-/

namespace Sequencer.Lowering

open Control Lower

/-- What the step does does not depend on the conditions noted before it, and it notes the same ones each time. -/
def Lower.Oblivious {α : Type} (x : Lower α) : Prop := ∀ ctx cycles aspect, ∃ r cycles' aspect' names, ∀ used,
  x.perform ctx ⟨cycles, used, aspect⟩ = (r, Session.use ⟨cycles', used, aspect'⟩ names)

namespace Oblivious

variable {α β : Type}

theorem pure (a : α) : Oblivious (Pure.pure a : Lower α) := fun _ cycles aspect => ⟨.ok a, cycles, aspect, [], fun _ => rfl⟩

theorem bind {x : Lower α} {f : α → Lower β} (hx : Oblivious x) (hf : ∀ a, Oblivious (f a)) : Oblivious (x >>= f) := by
  intro ctx cycles aspect
  obtain ⟨r, cycles₁, aspect₁, names, hrun⟩ := hx ctx cycles aspect
  cases r with
  | error e =>
    refine ⟨.error e, cycles₁, aspect₁, names, fun used => ?_⟩
    rw [perform_bind, hrun]
  | ok a =>
    obtain ⟨r', cycles₂, aspect₂, names', hrun'⟩ := hf a ctx cycles₁ aspect₁
    refine ⟨r', cycles₂, aspect₂, names ++ names', fun used => ?_⟩
    rw [perform_bind, hrun]
    refine (hrun' _).trans ?_
    simp only [Session.use, List.foldl_append]

theorem check (x : Checked α) : Oblivious (Lowering.check x) := fun _ cycles aspect => ⟨x, cycles, aspect, [], fun _ => rfl⟩

theorem read_bind {f : Context → Lower β} (hf : ∀ ctx, Oblivious (f ctx)) : Oblivious (read >>= f) := fun ctx => hf ctx ctx

theorem aspect_bind {f : Aspect → Lower β} (hf : ∀ a, Oblivious (f a)) : Oblivious (aspect >>= f) :=
  fun ctx cycles aspect => hf aspect ctx cycles aspect

theorem setAspect (a : Aspect) : Oblivious (setAspect a) :=
  fun _ cycles _ => ⟨.ok (), cycles, a, [], fun _ => rfl⟩

theorem pushCycle (c : Cond) : Oblivious (pushCycle c) :=
  fun _ cycles aspect => ⟨.ok (), c :: cycles, aspect, [], fun _ => rfl⟩

theorem popCycle : Oblivious popCycle := fun _ cycles aspect => ⟨.ok (), cycles.tail, aspect, [], fun _ => rfl⟩

theorem currentCycle : Oblivious currentCycle :=
  fun _ cycles aspect => ⟨.ok cycles.head?.join, cycles, aspect, [], fun _ => rfl⟩

theorem mark (c : Cond) : Oblivious (mark c) := fun _ cycles aspect => ⟨.ok (), cycles, aspect, _, fun _ => rfl⟩

theorem markTree (b : Comb.Block) : Oblivious (markTree b) := fun _ cycles aspect => ⟨.ok (), cycles, aspect, _, fun _ => rfl⟩

theorem named (name : String) : Oblivious (named name) := by
  refine read_bind fun ctx => ?_
  split
  · exact bind (fun _ cycles aspect => ⟨.ok (), cycles, aspect, [name], fun _ => rfl⟩) fun _ => pure _
  · exact pure _

theorem sequenced : Sequenced Oblivious := ⟨pure, bind, check, read_bind, named⟩

theorem noted : Noted Oblivious := ⟨sequenced, aspect_bind, setAspect⟩

theorem stepwise : Stepwise Oblivious where
  toSequenced := sequenced
  aspect_bind := aspect_bind
  currentCycle := currentCycle
  mark := mark
  markTree := markTree
  cycle c hx hf := bind (pushCycle c) fun _ => bind hx fun a => bind popCycle fun _ => hf a
  enterBlock := noted.enterBlock
  visitYield := noted.visitYield
  assignState := noted.assignState

end Oblivious

/-- Lowers one class of signals on its own. -/
def runAlone (ctx : Context) (a : Aspect) : Checked Comb.Block × Session := runAspect ctx (.start a) a

variable {ctx : Context} {s s' : Session}

/-- Between two runs no cycle condition is on the stack. What follows then is the run on its own, and its conditions come
on top of those noted before. -/
theorem runAspect_alone (hs : s.cycles = []) (a : Aspect) : (runAspect ctx s a).1 = (runAlone ctx a).1 ∧
    ∀ n, n ∈ (runAspect ctx s a).2.used ↔ n ∈ s.used ∨ n ∈ (runAlone ctx a).2.used := by
  obtain ⟨r, cycles', aspect', names, hrun⟩ := Oblivious.stepwise.lowerModule ctx [] a
  have hshared : runAspect ctx s a = (r, Session.use ⟨cycles', s.used, aspect'⟩ names) := by
    have hstart : { s with aspect := a } = (⟨[], s.used, a⟩ : Session) := by rw [← hs]
    rw [runAspect, hstart]
    exact hrun s.used
  have halone : runAlone ctx a = (r, Session.use ⟨cycles', [], aspect'⟩ names) := hrun []
  refine ⟨by rw [hshared, halone], fun n => ?_⟩
  rw [hshared, halone, Session.mem_use, Session.mem_use]
  simp

theorem runAspects_alone (hs : s.cycles = []) (as : List Aspect) {trees : List (String × Comb.Block)}
    (h : runAspects ctx s as = .ok (trees, s')) :
    trees.map (fun t => (t.1, .ok t.2)) = as.map (fun a => (a.label, (runAlone ctx a).1)) ∧
      ∀ n, n ∈ s'.used ↔ n ∈ s.used ∨ ∃ a ∈ as, n ∈ (runAlone ctx a).2.used := by
  induction as generalizing s trees with
  | nil =>
    obtain ⟨rfl, rfl⟩ := runAspects_nil.1 h
    simp
  | cons a as ih =>
    obtain ⟨tree, s₁, rest, htree, hrest, rfl⟩ := runAspects_cons.1 h
    obtain ⟨hsame, hused⟩ := @runAspect_alone ctx s hs a
    have hs₁ : s₁.cycles = [] := (Framed.lowerModule _ _ _ _ rfl htree).cycles.trans hs
    obtain ⟨htrees, hrestUsed⟩ := ih hs₁ hrest
    rw [htree] at hsame hused
    refine ⟨by rw [List.map_cons, List.map_cons, htrees, ← hsame], fun n => ?_⟩
    rw [hrestUsed, hused]
    simp [or_assoc]

theorem runAspects_succeeds (hs : s.cycles = []) (as : List Aspect)
    (h : ∀ a ∈ as, ∃ tree, (runAlone ctx a).1 = .ok tree) : ∃ r, runAspects ctx s as = .ok r := by
  induction as generalizing s with
  | nil => exact ⟨_, rfl⟩
  | cons a as ih =>
    obtain ⟨⟨tree, htree⟩, has⟩ := List.forall_mem_cons.1 h
    obtain ⟨s₁, hrun⟩ : ∃ s₁, runAspect ctx s a = (.ok tree, s₁) :=
      ⟨_, Prod.ext ((runAspect_alone hs a).1.trans htree) rfl⟩
    have hs₁ : s₁.cycles = [] := (Framed.lowerModule _ _ _ _ rfl hrun).cycles.trans hs
    obtain ⟨⟨rest, s'⟩, hrest⟩ := ih hs₁ has
    exact ⟨_, runAspects_cons.2 ⟨tree, s₁, rest, hrun, hrest, rfl⟩⟩

/-- Runs in one session, in any order and as often as one likes, give the trees that each of them gives on its own and
note the conditions that these note together. They all succeed if each does so on its own. -/
theorem runs_independent (ctx : Context) (first : Aspect) (as : List Aspect) :
    (∀ trees s', runAspects ctx (.start first) as = .ok (trees, s') →
      trees.map (fun t => (t.1, .ok t.2)) = as.map (fun a => (a.label, (runAlone ctx a).1)) ∧
        ∀ n, n ∈ s'.used ↔ ∃ a ∈ as, n ∈ (runAlone ctx a).2.used) ∧
      ((∀ a ∈ as, ∃ tree, (runAlone ctx a).1 = .ok tree) → ∃ r, runAspects ctx (.start first) as = .ok r) := by
  refine ⟨fun trees s' h => ?_, runAspects_succeeds rfl as⟩
  obtain ⟨htrees, hused⟩ := runAspects_alone rfl as h
  exact ⟨htrees, fun n => (hused n).trans (by simp [Session.start])⟩

/-- An accumulator of what comes in, which also passes a flag on. -/
def gather : Draft where
  name := "gather"
  registers := .ofList [("acc", ⟨.uint 8, 0⟩)]
  vars := .empty
  inputs := [⟨"din", .bool⟩]
  outputs := [⟨"dout", .bool⟩]
  stmts := .ofList [Draft.emit [some (.flag "a")], .update "acc" (.flag "b"), Draft.interface "din" [0, 1]]

def gatherContext : Checked Context := do
  let m := gather.enclose [2]
  let st ← m.stage (← m.schedule)
  return ⟨st.module, st.schedule, ← ConditionTable.build st.module st.schedule st.maxState⟩

def gatherRuns : List Aspect := [.registers, .inputs, .outputs, .registers, .freshTransitions 0, .freshLatches]

theorem gather_runs : ∃ ctx trees s', gatherContext = .ok ctx ∧
    runAspects ctx (.start .outputs) gatherRuns = .ok (trees, s') ∧
    trees.map (fun t => (t.1, .ok t.2)) = gatherRuns.map (fun a => (a.label, (runAlone ctx a).1)) ∧
    Name.cycleCond 2 ∈ s'.used ∧ Name.exitCond 1 ∈ s'.used := by
  have hknown : (gatherContext.toOption.any fun ctx =>
      gatherRuns.all (fun a => (runAlone ctx a).1.toOption.isSome) &&
        (runAlone ctx .registers).2.used.contains (Name.cycleCond 2) &&
        (runAlone ctx .inputs).2.used.contains (Name.exitCond 1)) = true := by
    decide +kernel
  obtain ⟨ctx, hctx, hknown⟩ := Checked.exists_of_any hknown
  simp only [Bool.and_eq_true, List.all_eq_true, List.contains_iff_mem] at hknown
  obtain ⟨⟨halone, hcycle⟩, hexit⟩ := hknown
  obtain ⟨hsame, hsucceeds⟩ := runs_independent ctx .outputs gatherRuns
  obtain ⟨⟨trees, s'⟩, hruns⟩ := hsucceeds fun a ha => Checked.exists_ok (halone a ha)
  obtain ⟨htrees, hused⟩ := hsame trees s' hruns
  exact ⟨ctx, trees, s', hctx, hruns, htrees, (hused _).2 ⟨.registers, by simp [gatherRuns], hcycle⟩,
    (hused _).2 ⟨.inputs, by simp [gatherRuns], hexit⟩⟩

end Sequencer.Lowering
