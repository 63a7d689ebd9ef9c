import Sequencer.Proofs.Compile
import Sequencer.Proofs.Lowering.Segment

set_option autoImplicit false

/-!
# Drivers

Each class of signals drives signals of its own, which the endings of their names tell apart. Only the state register can
meet a register of the module: one that is declared under its name.
-/

namespace Sequencer

namespace Comb

mutual
theorem Stmt.targets_mapExprs (f : Expr → Expr) : (s : Stmt) → (s.mapExprs f).targets = s.targets
  | .assign _ => rfl
  | .block _ ds ss => by
    rw [mapExprs, targets, targets, targetsAll_mapExprsAll f ss, Listing.keys, Listing.entries_map, List.map_map]
    rfl
theorem Stmt.targetsAll_mapExprsAll (f : Expr → Expr) : (ss : List Stmt) →
    Stmt.targetsAll (Stmt.mapExprsAll f ss) = Stmt.targetsAll ss
  | [] => rfl
  | s :: ss => by rw [mapExprsAll, targetsAll, targetsAll, targets_mapExprs f s, targetsAll_mapExprsAll f ss]
end

theorem Stmt.targetsAll_assigns (as : List Assign) : Stmt.targetsAll (Lowering.assigns as) = as.map Assign.target := by
  induction as with
  | nil => rfl
  | cons a as ih => exact congrArg (a.target :: ·) ih

end Comb

namespace Lowering

open Control Lower Comb

/-- The classes of signals, one for each tree. -/
inductive SignalClass where
  | registers
  | latches
  | outputs
  | inputs
  | transitions
  | conditions
deriving DecidableEq

namespace SignalClass

def label : SignalClass → String
  | registers => "register_next_state"
  | latches => "variables"
  | outputs => "outputs"
  | inputs => "inputs"
  | transitions => "state_transition"
  | conditions => "block_conditions"

/-- The signals that a class may drive, for a module with the states `0, …, maxState`. -/
def Owns (m : Module) (maxState : Nat) (signal : String) : SignalClass → Prop
  | registers => ∃ r ∈ m.registers.keys, signal = Name.enable r ∨ signal = Name.nextValue r
  | latches => ∃ x ∈ m.vars.keys, signal = Name.latched x
  | outputs => ∃ p ∈ m.outputs, signal = Name.valid p.name ∨ signal = Name.data p.name
  | inputs => ∃ p ∈ m.inputs, signal = Name.ready p.name
  | transitions => 0 < maxState ∧ (signal = Name.enable Name.state ∨ signal = Name.nextValue Name.state)
  | conditions => Name.IsCondition signal

/-- The last character of a signal, where all digits count as one. -/
def tag (signal : String) : Option Char := (Name.ending signal).map fun c => if c.isDigit then '0' else c

theorem tag_of_ending {signal : String} {c : Char} (h : Name.ending signal = some c) (hc : c.isDigit = false) :
    tag signal = some c := by simp [tag, h, hc]

/-- The tags of the signals of a class. -/
def tags : SignalClass → List Char
  | registers | transitions => ['n', 't']
  | latches => ['v']
  | outputs => ['d', 's']
  | inputs => ['y']
  | conditions => ['d', '0']

variable {m : Module} {maxState : Nat} {signal : String} {k k' : SignalClass}

theorem Owns.tag (h : k.Owns m maxState signal) : ∃ c ∈ k.tags, tag signal = some c := by
  cases k with
  | registers =>
    obtain ⟨r, _, rfl | rfl⟩ := h
    · exact ⟨'n', by decide, tag_of_ending (Name.ending_enable r) rfl⟩
    · exact ⟨'t', by decide, tag_of_ending (Name.ending_nextValue r) rfl⟩
  | latches =>
    obtain ⟨x, _, rfl⟩ := h
    exact ⟨'v', by decide, tag_of_ending (Name.ending_latched x) rfl⟩
  | outputs =>
    obtain ⟨p, _, rfl | rfl⟩ := h
    · exact ⟨'d', by decide, tag_of_ending (Name.ending_valid _) rfl⟩
    · exact ⟨'s', by decide, tag_of_ending (Name.ending_data _) rfl⟩
  | inputs =>
    obtain ⟨p, _, rfl⟩ := h
    exact ⟨'y', by decide, tag_of_ending (Name.ending_ready _) rfl⟩
  | transitions =>
    obtain ⟨_, rfl | rfl⟩ := h
    · exact ⟨'n', by decide, rfl⟩
    · exact ⟨'t', by decide, rfl⟩
  | conditions =>
    obtain ⟨c, hc, hdigit | rfl⟩ := Name.IsCondition.ending h
    · exact ⟨'0', by decide, by simp [SignalClass.tag, hc, hdigit]⟩
    · exact ⟨'d', by decide, tag_of_ending hc rfl⟩

/-- Two classes share a tag only if they are the registers and the transitions, or the outputs and the conditions. -/
theorem eq_of_tags {c : Char} (h : c ∈ k.tags) (h' : c ∈ k'.tags) : k = k' ∨
    k = registers ∧ k' = transitions ∨ k = transitions ∧ k' = registers ∨
    k = outputs ∧ k' = conditions ∨ k = conditions ∧ k' = outputs := by
  have htags : ∀ k k' : SignalClass, (k.tags.any fun c => k'.tags.contains c) = true → k = k' ∨
      k = registers ∧ k' = transitions ∨ k = transitions ∧ k' = registers ∨
      k = outputs ∧ k' = conditions ∨ k = conditions ∧ k' = outputs := by
    intro k k'
    cases k <;> cases k' <;> decide
  exact htags k k' (List.any_eq_true.2 ⟨c, h, List.contains_iff_mem.2 h'⟩)

/-- No output is called like a condition. -/
theorem not_owns_outputs (h : Name.IsCondition signal) : ¬outputs.Owns m maxState signal := by
  rintro ⟨p, _, rfl | rfl⟩
  · rcases h with ⟨n, hn | hn⟩ | hreset
    · obtain ⟨c, hc, hdigit⟩ := Name.ending_cycleCond n
      rw [← hn, Name.ending_valid] at hc
      cases hc
      cases hdigit
    · obtain ⟨c, hc, hdigit⟩ := Name.ending_exitCond n
      rw [← hn, Name.ending_valid] at hc
      cases hc
      cases hdigit
    · have hends : Name.endsIn Name.resetCond ".valid" = true := hreset ▸ Name.endsIn_append p.name ".valid"
      revert hends
      decide
  · obtain ⟨c, hc, hchar⟩ := h.ending
    rw [Name.ending_data] at hc
    cases hc
    revert hchar
    decide

theorem Owns.of_alike {m' : Module} (halike : m.Alike m') (h : k.Owns m' maxState signal) : k.Owns m maxState signal := by
  cases k <;> simpa only [Owns, halike.registers, halike.vars, halike.outputs, halike.inputs] using h

theorem Owns.state_of_registers (h : registers.Owns m maxState signal) (h' : transitions.Owns m maxState signal) :
    Name.state ∈ m.registers.keys := by
  obtain ⟨r, hr, hsignal⟩ := h
  obtain ⟨_, hstate⟩ := h'
  have heq : r = Name.state := by
    rcases hsignal with rfl | rfl
    · rcases hstate with h | h
      · exact (String.append_left_inj "_en").1 h
      · exact absurd h (Name.ne_of_ending (by simp))
    · rcases hstate with h | h
      · exact absurd h (Name.ne_of_ending (by simp))
      · exact (String.append_left_inj "_next").1 h
  exact heq ▸ hr

/-- Different classes meet only on the state register. -/
theorem Owns.clash (h : k.Owns m maxState signal) (h' : k'.Owns m maxState signal) (hne : k ≠ k') :
    0 < maxState ∧ Name.state ∈ m.registers.keys := by
  obtain ⟨c, hc, htag⟩ := h.tag
  obtain ⟨c', hc', htag'⟩ := h'.tag
  cases htag.symm.trans htag'
  rcases eq_of_tags hc hc' with heq | ⟨rfl, rfl⟩ | ⟨rfl, rfl⟩ | ⟨rfl, rfl⟩ | ⟨rfl, rfl⟩
  · exact absurd heq hne
  · exact ⟨h'.1, h.state_of_registers h'⟩
  · exact ⟨h.1, h'.state_of_registers h⟩
  · exact absurd h (not_owns_outputs h')
  · exact absurd h' (not_owns_outputs h)

end SignalClass

def Aspect.signalClass : Aspect → SignalClass
  | registers => .registers
  | latches _ => .latches
  | outputs => .outputs
  | inputs => .inputs
  | transitions _ => .transitions
  | conditions _ => .conditions

theorem Aspect.label_signalClass (a : Aspect) : a.signalClass.label = a.label := by
  cases a <;> rfl

theorem SignalClass.label_inj {k k' : SignalClass} (h : k.label = k'.label) : k = k' := by
  cases k <;> cases k' <;> first | rfl | exact absurd h (by decide)

/-- In a session for the class `k` all results of the step satisfy `P`, and the session stays one for the class. -/
def Lower.Gives {α : Type} (ctx : Context) (k : SignalClass) (x : Lower α) (P : α → Prop) : Prop :=
  ∀ s a s', s.aspect.signalClass = k → Runs ctx x s a s' → P a ∧ s'.aspect.signalClass = k

namespace Lower.Gives

variable {α β : Type} {ctx : Context} {k : SignalClass} {P : α → Prop} {Q : β → Prop} {x : Lower α} {f : α → Lower β}

theorem pure {a : α} (h : P a) : Gives ctx k (Pure.pure a) P := by
  intro s b s' hs hrun
  obtain ⟨rfl, rfl⟩ := runs_pure.1 hrun
  exact ⟨h, hs⟩

theorem bind (hx : Gives ctx k x P) (hf : ∀ a, P a → Gives ctx k (f a) Q) : Gives ctx k (x >>= f) Q := by
  intro s b s'' hs hrun
  obtain ⟨a, s', ha, hb⟩ := runs_bind.1 hrun
  obtain ⟨hP, hs'⟩ := hx s a s' hs ha
  exact hf a hP s' b s'' hs' hb

theorem framed (h : ∀ l, Framed l x) : Gives ctx k x fun _ => True := by
  intro s a s' hs hrun
  have hlabel := (h _ ctx s a s' rfl hrun).label
  rw [← Aspect.label_signalClass, ← Aspect.label_signalClass] at hlabel
  exact ⟨trivial, (SignalClass.label_inj hlabel).trans hs⟩

theorem of_framed (h : ∀ l, Framed l x) (hP : ∀ s a s', s.aspect.signalClass = k → Runs ctx x s a s' → P a) :
    Gives ctx k x P :=
  fun s a s' hs hrun => ⟨hP s a s' hs hrun, (framed h s a s' hs hrun).2⟩

/-- Steps of which only the frame matters. -/
theorem skip (h : ∀ l, Framed l x) (hf : ∀ a, Gives ctx k (f a) Q) : Gives ctx k (x >>= f) Q :=
  bind (framed h) fun a _ => hf a

theorem read_bind {f : Context → Lower β} (hf : Gives ctx k (f ctx) Q) : Gives ctx k (read >>= f) Q :=
  fun s b s' hs hrun => hf s b s' hs (runs_read_bind.1 hrun)

theorem aspect_bind {f : Aspect → Lower β} (hf : ∀ a : Aspect, a.signalClass = k → Gives ctx k (f a) Q) :
    Gives ctx k (aspect >>= f) Q := by
  intro s b s' hs hrun
  exact hf _ hs _ _ _ hs (runs_aspect_bind.1 hrun)

theorem setAspect_bind {a : Aspect} (ha : a.signalClass = k) {f : Unit → Lower β} (hf : ∀ u, Gives ctx k (f u) Q) :
    Gives ctx k (setAspect a >>= f) Q := by
  intro s b s' hs hrun
  obtain ⟨_, s₁, hset, hb⟩ := runs_bind.1 hrun
  have hs₁ := runs_setAspect.1 hset
  subst hs₁
  exact hf _ _ _ _ ha hb

theorem stmt_bind {i : Nat} {st : Control.Stmt} (hst : ctx.module.stmt i = .ok st) {f : Control.Stmt → Lower β}
    (hf : Gives ctx k (f st) Q) : Gives ctx k (stmt i >>= f) Q := by
  intro s b s' hs hrun
  obtain ⟨st', s₁, hstmt, hb⟩ := runs_bind.1 hrun
  obtain ⟨hst', rfl⟩ := runs_stmt.1 hstmt
  cases hst.symm.trans hst'
  exact hf _ _ _ hs hb

theorem block?_bind {i : Nat} {blk : Control.Block} (hblk : ctx.module.stmt i = .ok (.block blk))
    {f : Option Control.Block → Lower β} (hf : Gives ctx k (f (some blk)) Q) : Gives ctx k (block? i >>= f) Q := by
  intro s b s' hs hrun
  obtain ⟨blk', s₁, hblock, hb⟩ := runs_bind.1 hrun
  obtain ⟨hblk', rfl⟩ := runs_block?.1 hblock
  rw [Module.block?, hblk] at hblk'
  cases hblk'
  exact hf _ _ _ hs hb

theorem maxState_bind {f : Nat → Lower β} (hf : Gives ctx k (f ctx.table.maxState) Q) :
    Gives ctx k (maxState >>= f) Q := by
  intro s b s' hs hrun
  obtain ⟨max, s₁, hmax, hb⟩ := runs_bind.1 hrun
  obtain ⟨rfl, rfl⟩ := runs_maxState.1 hmax
  exact hf _ _ _ hs hb

theorem mapM {as : List α} {f : α → Lower β} (hf : ∀ a ∈ as, Gives ctx k (f a) Q) :
    Gives ctx k (as.mapM f) fun bs => ∀ b ∈ bs, Q b := by
  induction as with
  | nil =>
    rw [List.mapM_nil]
    exact pure fun b hb => absurd hb List.not_mem_nil
  | cons a as ih =>
    obtain ⟨ha, has⟩ := List.forall_mem_cons.1 hf
    rw [List.mapM_cons]
    exact bind ha fun b hb => bind (ih has) fun bs hbs => pure (List.forall_mem_cons.2 ⟨hb, hbs⟩)

end Lower.Gives

namespace SignalClass

variable (ctx : Context) (k : SignalClass)

/-- The assignment drives a signal of the class. -/
def Owned (a : Assign) : Prop := k.Owns ctx.module ctx.table.maxState a.target

/-- All assignments drive signals of the class. -/
def Within (ss : List Comb.Stmt) : Prop := Comb.Stmt.SatisfiesAll (k.Owned ctx) (fun _ => True) ss

variable {ctx k} {ss ts : List Comb.Stmt}

theorem within_nil : k.Within ctx [] := trivial

theorem within_assigns {as : List Assign} (h : ∀ a ∈ as, k.Owned ctx a) : k.Within ctx (assigns as) :=
  Comb.Stmt.satisfiesAll_assigns.2 h

theorem Within.append (h : k.Within ctx ss) (h' : k.Within ctx ts) : k.Within ctx (ss ++ ts) :=
  Comb.Stmt.satisfiesAll_append.2 ⟨h, h'⟩

/-- A block of such statements, also after propagation. -/
theorem Within.block (h : k.Within ctx ss) (g : Cond) : (Comb.Block.of g ss).Satisfies (k.Owned ctx) fun _ => True :=
  Comb.Block.satisfies_of (fun _ _ => trivial) h

theorem Within.of_block {b : Comb.Block} (h : b.Satisfies (k.Owned ctx) fun _ => True) : k.Within ctx [b.toStmt] :=
  ⟨h, trivial⟩

end SignalClass

section Steps

open SignalClass

variable {ctx : Context} {k : SignalClass}

theorem gives_settled {b : Comb.Block} (h : b.Satisfies (k.Owned ctx) fun _ => True) :
    Gives ctx k (settled b) fun b' => b'.Satisfies (k.Owned ctx) fun _ => True := by
  intro s b' s' hs hrun
  obtain ⟨rfl, rfl⟩ := runs_settled.1 hrun
  exact ⟨updateDefaults_satisfies _ b h, hs⟩

theorem gives_enterRegisters (kind : Option BlockKind) :
    Gives ctx .registers (enterRegisters kind) fun as => ∀ a ∈ as, registers.Owned ctx a := by
  unfold enterRegisters
  split
  · exact .pure fun a ha => absurd ha List.not_mem_nil
  · refine .read_bind (.bind (Gives.mapM (Q := fun as => ∀ a ∈ as, registers.Owned ctx a) fun e he => ?_)
      fun ass hass => .pure ?_)
    · refine .skip (fun _ => Framed.check _) fun w => .pure ?_
      have hr : e.1 ∈ ctx.module.registers.keys := List.mem_map_of_mem he
      intro a ha
      rcases List.mem_cons.1 ha with rfl | ha
      · exact ⟨e.1, hr, .inl rfl⟩
      · rw [List.mem_singleton.1 ha]
        exact ⟨e.1, hr, .inr rfl⟩
    · intro a ha
      obtain ⟨as, has, ha⟩ := List.mem_flatten.1 ha
      exact hass as has a ha

theorem gives_enterInputs {n : Nat} {b : Control.Block} (hfits : ctx.module.Fits n (.block b)) :
    Gives ctx .inputs (enterInputs (some b)) fun as => ∀ a ∈ as, inputs.Owned ctx a := by
  have hport : ∀ {p : String}, (ctx.module.input? p).isSome → ∀ c : Cond, ∀ a ∈ [Assign.flag (Name.ready p) (c.getD (.bool true))],
      inputs.Owned ctx a := by
    intro p hp c a ha
    obtain ⟨q, hq⟩ := Option.isSome_iff_exists.1 hp
    rw [List.mem_singleton.1 ha]
    have hname : q.name = p := eq_of_beq (List.find?_some (p := fun q : Port => q.name == p) hq)
    exact ⟨q, List.mem_of_find?_eq_some hq, by rw [hname]; rfl⟩
  obtain ⟨kind, g, ss, id⟩ := b
  cases kind with
  | module =>
    refine .read_bind (.pure fun a ha => ?_)
    obtain ⟨p, hp, rfl⟩ := List.mem_map.1 ha
    exact ⟨p, hp, rfl⟩
  | interface p | interfaceLoop p =>
    cases id with
    | none => exact .pure fun a ha => absurd ha List.not_mem_nil
    | some id => exact .skip (fun _ => Framed.named _) fun c => .pure (hport hfits c)
  | container | conditional | loop exit => exact .pure fun a ha => absurd ha List.not_mem_nil

theorem gives_enterBlock {n : Nat} {b : Control.Block} (hb : ctx.module.stmt n = .ok (.block b))
    (hfits : ctx.module.Fits n (.block b)) : Gives ctx k (enterBlock n) (k.Within ctx) := by
  refine .aspect_bind fun a ha => ?_
  subst ha
  cases a with
  | registers =>
    exact .skip (fun _ => Framed.kind? n) fun kind => .bind (gives_enterRegisters kind) fun as has => .pure (within_assigns has)
  | latches notes =>
    refine .read_bind ?_
    dsimp only
    split
    · exact .skip (fun _ => Framed.check _) fun notes' => .setAspect_bind (by rfl) fun _ => .pure within_nil
    · exact .pure within_nil
  | outputs =>
    refine .skip (fun _ => Framed.kind? n) fun kind => ?_
    split
    · exact .pure within_nil
    · refine .read_bind (.pure (within_assigns fun a ha => ?_))
      obtain ⟨p, hp, rfl⟩ := List.mem_map.1 ha
      exact ⟨p, hp, .inl rfl⟩
  | inputs =>
    exact .block?_bind hb (.bind (gives_enterInputs hfits) fun as has => .pure (within_assigns has))
  | transitions g =>
    refine .skip (fun _ => Framed.kind? n) fun kind => .maxState_bind ?_
    split
    · exact .pure within_nil
    · rename_i hmax
      rw [not_or] at hmax
      refine .pure (within_assigns fun a ha => ?_)
      rw [List.mem_singleton.1 ha]
      exact ⟨Nat.pos_of_ne_zero hmax.2, .inl rfl⟩
  | conditions c =>
    refine .skip (fun _ => Framed.block? n) fun blk => ?_
    cases blk with
    | none => exact .pure within_nil
    | some blk => exact .read_bind (.setAspect_bind (by rfl) fun _ => .pure within_nil)

theorem gives_visitUpdate {r : String} (hr : r ∈ ctx.module.registers.keys) (v : Expr) :
    Gives ctx k (visitUpdate r v) (k.Within ctx) := by
  refine .aspect_bind fun a ha => ?_
  subst ha
  cases a with
  | registers =>
    refine .read_bind (.skip (fun _ => Framed.check _) fun w => ?_)
    cases w with
    | none => exact fun s ss s' _ hrun => absurd (runs_check.1 hrun).1 (by simp)
    | some w =>
      refine .skip (fun _ => Framed.bind Framed.currentCycle fun c => Framed.bind (Framed.mark c) fun _ => Framed.pure c)
        fun c => .pure (within_assigns ?_)
      intro a ha
      rcases List.mem_cons.1 ha with rfl | ha
      · exact ⟨r, hr, .inl rfl⟩
      · rw [List.mem_singleton.1 ha]
        exact ⟨r, hr, .inr rfl⟩
  | latches | outputs | inputs | transitions | conditions => exact .pure within_nil

theorem gives_visitAssign {x : String} (hx : x ∈ ctx.module.vars.keys) (v : Expr) :
    Gives ctx k (visitAssign x v) (k.Within ctx) := by
  refine .aspect_bind fun a ha => ?_
  subst ha
  cases a with
  | latches notes =>
    refine .read_bind (.skip (fun _ => Framed.check _) fun w => ?_)
    cases w with
    | none => exact fun s ss s' _ hrun => absurd (runs_check.1 hrun).1 (by simp)
    | some w =>
      refine .pure (within_assigns fun a ha => ?_)
      rw [List.mem_singleton.1 ha]
      exact ⟨x, hx, rfl⟩
  | registers | outputs | inputs | transitions | conditions => exact .pure within_nil

theorem gives_visitYield (y : Yield) : Gives ctx k (visitYield y) (k.Within ctx) := by
  refine .aspect_bind fun a ha => ?_
  subst ha
  cases a with
  | outputs =>
    refine .read_bind (.bind (Lower.Gives.mapM (Q := fun as => ∀ a ∈ as, outputs.Owned ctx a) fun e he => ?_)
      fun ass hass => .pure (within_assigns ?_))
    · refine .skip (fun _ => Framed.check _) fun w => .pure ?_
      obtain ⟨⟨v, p⟩, hmem, hsome⟩ := List.mem_filterMap.1 he
      obtain ⟨v, rfl, rfl⟩ := Option.map_eq_some_iff.1 hsome
      have hp : p ∈ ctx.module.outputs := (List.of_mem_zip hmem).2
      intro a ha
      rcases List.mem_cons.1 ha with rfl | ha
      · exact ⟨p, hp, .inl rfl⟩
      · rw [List.mem_singleton.1 ha]
        exact ⟨p, hp, .inr rfl⟩
    · intro a ha
      obtain ⟨as, has, ha⟩ := List.mem_flatten.1 ha
      exact hass as has a ha
  | conditions c => exact .read_bind (.setAspect_bind (by rfl) fun _ => .pure within_nil)
  | registers | latches | inputs | transitions => exact .pure within_nil

theorem gives_assignState {b : Comb.Block} (hb : b.Satisfies (k.Owned ctx) fun _ => True) (tr : Transition) :
    Gives ctx k (assignState b tr) fun b' => b'.Satisfies (k.Owned ctx) fun _ => True := by
  refine .aspect_bind fun a ha => ?_
  subst ha
  cases a with
  | transitions g =>
    refine .read_bind ?_
    dsimp only
    split
    · exact .pure hb
    · rename_i hmax
      refine .setAspect_bind (by rfl) fun _ => .pure ?_
      have hpos : 0 < ctx.table.maxState := Nat.pos_of_ne_zero hmax
      refine ⟨hb.1, hb.2.1, Comb.Stmt.satisfiesAll_append.2 ⟨hb.2.2, ⟨fun _ _ => trivial, ?_, ?_⟩, trivial⟩⟩
      · intro e he
        rw [List.mem_singleton.1 he]
        exact ⟨hpos, .inr rfl⟩
      · exact within_assigns fun a ha => by rw [List.mem_singleton.1 ha]; exact ⟨hpos, .inl rfl⟩
  | registers | latches | outputs | inputs | conditions => exact .pure hb

theorem gives_visitBlock (hwf : ctx.module.WellFormed) {n : Nat} (hn : n ∈ (ctx.module.outline ctx.module.root).preorder) {b : Control.Block}
    (hb : ctx.module.stmt n = .ok (.block b)) :
    Gives ctx k (visitBlock n) fun blk => blk.Satisfies (k.Owned ctx) fun _ => True := by
  obtain ⟨st, hst, hfits⟩ := hwf.fits n hn
  cases hb.symm.trans hst
  exact .skip (fun _ => Framed.block? n) fun _ => .bind (gives_enterBlock hb hfits) fun ss hss => .pure (hss.block _)

theorem gives_visit (hwf : ctx.module.WellFormed) {n : Nat} (hn : n ∈ (ctx.module.outline ctx.module.root).preorder) :
    Gives ctx k (visit n) (k.Within ctx) := by
  obtain ⟨st, hst, hfits⟩ := hwf.fits n hn
  refine .stmt_bind hst ?_
  cases st with
  | block b => exact .bind (gives_visitBlock hwf hn hst) fun blk hblk => .pure (.of_block hblk)
  | yield y => exact gives_visitYield y
  | update r v => exact gives_visitUpdate ((Listing.contains_iff_mem_keys _ _).1 hfits) v
  | assign x v => exact gives_visitAssign ((Listing.contains_iff_mem_keys _ _).1 hfits) v

mutual
theorem gives_lowerOutline (hwf : ctx.module.WellFormed) : (o : Outline) →
    (∀ j ∈ o.preorder, j ∈ (ctx.module.outline ctx.module.root).preorder) →
    Gives ctx k (lowerOutline o) (k.Within ctx)
  | .node i os, hin => by
    rw [Outline.preorder_eq, List.forall_mem_cons] at hin
    obtain ⟨hi, hos⟩ := hin
    obtain ⟨st, hst, _⟩ := hwf.fits i hi
    refine .stmt_bind hst ?_
    cases st with
    | block b =>
      refine .bind (gives_visitBlock hwf hi hst) fun blk hblk => .bind (gives_lowerOutlines hwf os hos) fun inner hinner => ?_
      exact .bind (gives_settled ⟨hblk.1, hblk.2.1, Comb.Stmt.satisfiesAll_append.2 ⟨hblk.2.2, hinner⟩⟩)
        fun b' hb' => .pure (.of_block hb')
    | yield y | update r v | assign x v => exact gives_visit hwf hi
theorem gives_lowerOutlines (hwf : ctx.module.WellFormed) : (os : List Outline) →
    (∀ j ∈ os.flatMap Outline.preorder, j ∈ (ctx.module.outline ctx.module.root).preorder) →
    Gives ctx k (lowerOutlines os) (k.Within ctx)
  | [], _ => .pure within_nil
  | o :: os, hin => by
    rw [List.flatMap_cons, List.forall_mem_append] at hin
    exact .bind (gives_lowerOutline hwf o hin.1) fun ss hss => .bind (gives_lowerOutlines hwf os hin.2) fun ts hts =>
      .pure (hss.append hts)
end

theorem gives_lowerSegments {os : List Outline}
    (hos : ∀ o ∈ os, ∀ parent, Gives ctx k (lowerSegment parent o) (k.Within ctx)) (states : List Nat) :
    Gives ctx k (lowerSegments states os) (k.Within ctx) := by
  induction os with
  | nil => exact .pure within_nil
  | cons o os ih =>
    obtain ⟨ho, hos⟩ := List.forall_mem_cons.1 hos
    exact .bind (ho _) fun ss hss => .bind (ih hos) fun ts hts => .pure (hss.append hts)

section Walk

variable (hwf : ctx.module.WellFormed)

include hwf

theorem gives_freeStmts {js : List Nat} (hin : ∀ j ∈ js, j ∈ (ctx.module.outline ctx.module.root).preorder)
    (guard cycle : Cond) : Gives ctx k (freeStmts js guard cycle) fun b => b.Satisfies (k.Owned ctx) fun _ => True := by
  intro s b s' hs hrun
  obtain ⟨lowered, s₁, hlower, rfl, rfl⟩ := runs_freeStmts hrun
  have hin' : ∀ x ∈ (js.map ctx.module.outline).flatMap Outline.preorder, x ∈ (ctx.module.outline ctx.module.root).preorder := by
    intro x hx
    obtain ⟨o, ho, hx⟩ := List.mem_flatMap.1 hx
    obtain ⟨j, hj, rfl⟩ := List.mem_map.1 ho
    exact hwf.preorder_subset (hin j hj) x hx
  obtain ⟨hwithin, hs₁⟩ := gives_lowerOutlines hwf _ hin' { s with cycles := cycle :: s.cycles } lowered s₁ hs hlower
  exact ⟨updateDefaults_satisfies _ _ (hwithin.block guard), hs₁⟩

theorem gives_lowerProlog {seg : Segment} (hin : ∀ j ∈ seg.prolog, j ∈ (ctx.module.outline ctx.module.root).preorder)
    (i : Nat) (parent : Option (List Nat)) : Gives ctx k (lowerProlog i seg parent) (k.Within ctx) := by
  unfold lowerProlog
  split
  · exact .pure within_nil
  · exact .skip (fun _ => Framed.narrow _ _) fun guard => .skip (fun _ => Framed.timing i) fun t =>
      .bind (gives_freeStmts hwf hin _ _) fun b hb => .pure (satisfies_inlined hb)

theorem gives_lowerEpilog {seg : Segment} (hin : ∀ j ∈ seg.epilog, j ∈ (ctx.module.outline ctx.module.root).preorder)
    (i : Nat) (parent : Option (List Nat)) : Gives ctx k (lowerEpilog i seg parent) (k.Within ctx) := by
  unfold lowerEpilog
  split
  · exact .pure within_nil
  · exact .skip (fun _ => Framed.timing i) fun t => .skip (fun _ => Framed.narrow _ _) fun test =>
      .skip (fun _ => Framed.check _) fun guard =>
        .bind (gives_freeStmts hwf hin _ _) fun b hb => .pure (satisfies_inlined hb)

theorem gives_stateCopy {node : Option Nat}
    (hnode : ∀ n, node = some n → n ∈ (ctx.module.outline ctx.module.root).preorder ∧
      ∃ b, ctx.module.stmt n = .ok (.block b)) (tr : Transition) :
    Gives ctx k (stateCopy node tr) fun b => b.Satisfies (k.Owned ctx) fun _ => True := by
  have hentry : ∀ {entry : List Comb.Stmt}, k.Within ctx entry →
      Gives ctx k (assignState (.of none entry) tr >>= settled) fun b => b.Satisfies (k.Owned ctx) fun _ => True :=
    fun h => .bind (gives_assignState (h.block none) tr) fun _ hb => gives_settled hb
  cases node with
  | none => exact .bind (.pure (P := k.Within ctx) within_nil) fun _ => hentry
  | some n =>
    obtain ⟨hn, b, hb⟩ := hnode n rfl
    refine .bind (gives_visitBlock hwf hn hb) fun blk hblk => .bind (gives_settled hblk) fun b' hb' =>
      .bind (.pure (P := k.Within ctx) ?_) fun _ => hentry
    split
    · exact within_nil
    · exact .of_block hb'

theorem gives_copiesFor {node : Option Nat}
    (hnode : ∀ n, node = some n → n ∈ (ctx.module.outline ctx.module.root).preorder ∧
      ∃ b, ctx.module.stmt n = .ok (.block b)) : (trs : List Transition) →
    Gives ctx k (copiesFor node trs) fun bs => ∀ b ∈ bs, b.Satisfies (k.Owned ctx) fun _ => True
  | [] => .pure fun b hb => absurd hb List.not_mem_nil
  | tr :: trs => by
    refine .bind (gives_stateCopy hwf hnode tr) fun copy hcopy => .bind (gives_copiesFor hnode trs) fun rest hrest => .pure ?_
    split
    · exact hrest
    · exact List.forall_mem_cons.2 ⟨hcopy, hrest⟩

theorem gives_stateCopies (seg : Segment)
    (hnode : ∀ n, seg.block = some n → n ∈ (ctx.module.outline ctx.module.root).preorder ∧
      ∃ b, ctx.module.stmt n = .ok (.block b)) (i : Nat) (parent : Option (List Nat)) :
    Gives ctx k (stateCopies i seg parent) fun bs => ∀ b ∈ bs, b.Satisfies (k.Owned ctx) fun _ => True := by
  cases parent with
  | none => exact .pure fun b hb => absurd hb List.not_mem_nil
  | some p =>
    refine .skip (fun _ => Framed.changesState seg p) fun changes => ?_
    split
    · exact .skip (fun _ => Framed.transitions i) fun trs => gives_copiesFor hwf hnode trs
    · exact .pure fun b hb => absurd hb List.not_mem_nil

theorem gives_lowerSegment_leaf {i : Nat} {seg : Segment}
    (h : Schedule.LeafFits ctx.module ctx.schedule ctx.table.maxState i seg) (parent : Option (List Nat)) :
    Gives ctx k (lowerSegment parent (.node i [])) (k.Within ctx) := by
  refine .of_framed (fun _ => Framed.lowerSegment parent _) fun s ss s' hs hrun => ?_
  obtain ⟨guard, t, body, copies, s₁, s₂, _, _, hbody, hcopies, hmain⟩ :=
    runs_lowerSegment_leaf h.segment h.kind h.prolog h.epilog hrun
  obtain ⟨hbody, hs₁⟩ := gives_freeStmts hwf h.inside _ _ s body s₁ hs hbody
  obtain ⟨hcopies, _⟩ := gives_stateCopies hwf seg (fun n hn => by rw [h.block] at hn; cases hn) i parent
    s₁ copies s₂ hs₁ hcopies
  exact satisfies_withCopies hbody hcopies (fun _ _ _ _ _ _ => trivial) hmain

theorem gives_lowerSegment_block {i n : Nat} {os : List Outline} {b : Control.Block} {seg : Segment} {segs : List Segment}
    (h : Schedule.BlockFits ctx.module ctx.schedule ctx.table.maxState i os n b seg segs)
    (hos : ∀ o ∈ os, ∀ parent, Gives ctx k (lowerSegment parent o) (k.Within ctx)) (parent : Option (List Nat)) :
    Gives ctx k (lowerSegment parent (.node i os)) (k.Within ctx) := by
  refine .of_framed (fun _ => Framed.lowerSegment parent _) fun s ss s' hs hrun => ?_
  obtain ⟨r⟩ := runs_lowerSegment_block h.segment h.not_leaf h.block hrun
  obtain ⟨st, hst, hfits⟩ := hwf.fits n h.inside_block
  cases h.stmt.symm.trans hst
  obtain ⟨hbefore, hs₁⟩ := gives_lowerProlog hwf (fun j hj => h.inside_prolog hj) i parent s r.before r.s₁ hs r.before_runs
  obtain ⟨hentry, hs₂⟩ := gives_enterBlock h.stmt hfits r.s₁ r.entry r.s₂ hs₁ r.entry_runs
  obtain ⟨hinner, hs₃⟩ := gives_lowerSegments hos seg.states { r.s₂ with cycles := r.timing.cycle :: r.s₂.cycles } r.inner
    r.s₃ hs₂ r.inner_runs
  obtain ⟨hcopies, hs₄⟩ := gives_stateCopies hwf seg
    (fun n' hn' => by cases h.block.symm.trans hn'; exact ⟨h.inside_block, b, h.stmt⟩) i parent
    { r.s₃ with cycles := r.s₃.cycles.tail } r.copies r.s₄ hs₃ r.copies_runs
  have hmain : k.Within ctx r.main :=
    satisfies_withCopies ((hentry.append hinner).block r.full) hcopies (fun _ _ _ _ _ _ => trivial) r.main_runs
  have hs₅ := (Lower.Gives.framed (fun _ => Framed.withCopies _ _ _ _) r.s₄ r.main r.s₅ hs₄ r.main_runs).2
  obtain ⟨hafter, _⟩ := gives_lowerEpilog hwf (fun j hj => h.inside_epilog hj) i parent r.s₅ r.after s' hs₅ r.after_runs
  rw [r.eq]
  exact (hbefore.append hmain).append hafter

theorem gives_lowerSegment {o : Outline} (h : ctx.schedule.Consistent ctx.module ctx.table.maxState o)
    (parent : Option (List Nat)) : Gives ctx k (lowerSegment parent o) (k.Within ctx) := by
  induction h generalizing parent with
  | leaf h => exact gives_lowerSegment_leaf hwf h parent
  | block h _ ih => exact gives_lowerSegment_block hwf h ih parent

end Walk

/-- The tree of a class drives signals of that class only. -/
theorem owns_runAspect (h : Scheduled ctx) {s s' : Session} {a : Aspect} {tree : Comb.Block}
    (hrun : runAspect ctx s a = (.ok tree, s')) :
    ∀ t ∈ tree.targets, a.signalClass.Owns ctx.module ctx.table.maxState t := by
  obtain ⟨ss, s₁, hss, rfl⟩ := runs_lowerModule hrun
  obtain ⟨hwithin, _⟩ := gives_lowerSegment h.wellFormed h.consistent none { s with aspect := a } ss s₁ rfl hss
  intro t ht
  obtain ⟨as, has, rfl⟩ := Comb.Stmt.exists_of_mem_targets _ (updateDefaults_satisfies _ _ (hwithin.block none)) ht
  exact has

end Steps

/-- The classes of signals in the order of their trees. -/
def SignalClass.all : List SignalClass := [.registers, .latches, .outputs, .inputs, .transitions, .conditions]

/-- A tree of a compiled module drives signals of its class only. -/
theorem owns_aspects {d : Draft} {top : List Nat} {m : Module} (hm : d.finish top = .ok m) {c : Compiled}
    (run : CompileRun m c) : ∀ e ∈ c.lowered.aspects.entries, ∃ k : SignalClass, e.1 = k.label ∧
      ∀ t ∈ e.2.targets, k.Owns m c.lowered.maxState t := by
  obtain ⟨hscheduled, halike, hspace⟩ := scheduled_of_build hm run.schedule_eq run.stage_eq run.table_eq
  have hmax : run.table.maxState = c.lowered.maxState := by rw [run.maxState_eq, ConditionTable.maxState, hspace]
  have htree : ∀ {s s' : Session} {a : Aspect} {tree : Comb.Block},
      runAspect ⟨run.st.module, run.st.schedule, run.table⟩ s a = (.ok tree, s') →
      ∃ k : SignalClass, a.label = k.label ∧
        ∀ t ∈ (tree.mapExprs (Expr.rename run.rename)).targets, k.Owns m c.lowered.maxState t := by
    intro s s' a tree hrun
    refine ⟨a.signalClass, a.label_signalClass.symm, fun t ht => ?_⟩
    have htarget : t ∈ tree.targets := Eq.mp (congrArg (t ∈ ·) (Comb.Stmt.targets_mapExprs _ tree.toStmt)) ht
    exact hmax ▸ (owns_runAspect hscheduled hrun t htarget).of_alike halike
  rw [run.entries_eq, run.signals.trees, List.forall_mem_append, List.forall_mem_singleton]
  refine ⟨?_, .conditions, rfl, fun t ht => ?_⟩
  · simp only [List.map_cons, List.map_nil, List.forall_mem_cons]
    exact ⟨htree run.signals.registers_run, htree run.signals.latches_run, htree run.signals.outputs_run,
      htree run.signals.inputs_run, htree run.signals.transitions_run, fun e he => absurd he List.not_mem_nil⟩
  · exact run.named t (Eq.mp (congrArg (t ∈ ·) (Comb.Stmt.targetsAll_assigns c.lowered.conditions)) ht)

/-- The register that holds the state, if there is more than one. -/
def stateRegister (maxState : Nat) : List (String × Register) :=
  if maxState = 0 then [] else [(Name.state, ⟨StateSpace.type ⟨maxState⟩, 0⟩)]

theorem loweredRegisters_entries (m : Module) (maxState : Nat) :
    (m.loweredRegisters ⟨maxState⟩).entries = m.registers.entries ++ stateRegister maxState ↔
      maxState = 0 ∨ Name.state ∉ m.registers.keys := by
  unfold Module.loweredRegisters stateRegister
  by_cases hmax : maxState = 0
  · simp [hmax]
  · rw [if_neg hmax, if_neg hmax]
    constructor
    · intro h
      have hnodup := (m.registers.insert Name.state ⟨StateSpace.type ⟨maxState⟩, 0⟩).nodup
      rw [h, List.map_append, List.nodup_append] at hnodup
      exact .inr fun hstate => hnodup.2.2 Name.state hstate Name.state (by simp) rfl
    · rintro (h | h)
      · exact absurd h hmax
      · exact Listing.entries_insert_of_notMem h _

/-- There are six trees, one for each class of signals. No signal has two drivers and the registers are those of the
module followed by the one for the state, exactly if there is one state only or no register has the name of the latter. -/
theorem drivers_separate_iff {d : Draft} {top : List Nat} {m : Module} (hm : d.finish top = .ok m)
    {arguments : List String} {c : Compiled} (hc : compile m arguments = .ok c) :
    c.lowered.aspects.keys = SignalClass.all.map SignalClass.label ∧
      ((c.lowered.aspects.values.Pairwise (fun tree tree' => tree.targets.Disjoint tree'.targets) ∧
          c.lowered.registers.entries = m.registers.entries ++ stateRegister c.lowered.maxState) ↔
        c.lowered.maxState = 0 ∨ Name.state ∉ m.registers.keys) := by
  obtain ⟨run⟩ := compile_run hc
  have hregisters : c.lowered.registers = m.loweredRegisters ⟨c.lowered.maxState⟩ := by
    obtain ⟨_, halike, hspace⟩ := scheduled_of_build hm run.schedule_eq run.stage_eq run.table_eq
    rw [run.registers_eq, hspace, run.maxState_eq, Module.loweredRegisters, halike.registers]
    rfl
  refine ⟨?_, ?_⟩
  · rw [Listing.keys, run.entries_eq, run.signals.trees]
    rfl
  · rw [hregisters, loweredRegisters_entries]
    refine ⟨fun h => h.2, fun h => ⟨List.pairwise_map.2 ?_, h⟩⟩
    refine (List.pairwise_map.1 c.lowered.aspects.nodup).imp_of_mem fun {e e'} he he' hne => ?_
    obtain ⟨k, hk, hk_owns⟩ := owns_aspects hm run e he
    obtain ⟨k', hk', hk'_owns⟩ := owns_aspects hm run e' he'
    intro t ht ht'
    obtain ⟨hpos, hstate⟩ := (hk_owns t ht).clash (hk'_owns t ht') fun heq => hne (by rw [hk, hk', heq])
    exact h.elim (fun hzero => absurd hzero hpos.ne') fun hfree => hfree hstate

/-- A register that is updated and emitted, and then a second state. -/
def keeper (register : String) : Draft where
  name := "keeper"
  registers := .ofList [(register, ⟨.uint 8, 5⟩)]
  vars := .empty
  inputs := []
  outputs := [⟨"dout", .uint 8⟩]
  stmts := .ofList [.update register (.literal 7 (.uint 8)),
    Draft.emit [some (.operand ⟨register, .register, .held, .uint 8⟩)], Draft.emit [some (.literal 1 (.uint 8))]]

/-- A register of another name than that of the state stands beside the latter. -/
theorem keeper_separate : ∃ m c, (keeper "count").finish [0, 1, 2] = .ok m ∧ compile m ["simplify:rounds=0"] = .ok c ∧
    c.lowered.maxState = 1 ∧ Name.state ∉ m.registers.keys ∧
    c.lowered.aspects.values.Pairwise (fun tree tree' => tree.targets.Disjoint tree'.targets) ∧
    c.lowered.registers.entries = [("count", ⟨.uint 8, 5⟩), ("state", ⟨.uint 1, 0⟩)] := by
  have hm : (keeper "count").finish [0, 1, 2] = .ok ((keeper "count").enclose [0, 1, 2]) := rfl
  have hfacts : ((compile ((keeper "count").enclose [0, 1, 2]) ["simplify:rounds=0"]).toOption.any fun c =>
      c.lowered.maxState == 1) = true := by
    decide +kernel
  obtain ⟨c, hc, hmax⟩ := Checked.exists_of_any hfacts
  have hfree : Name.state ∉ ((keeper "count").enclose [0, 1, 2]).registers.keys := by decide +kernel
  obtain ⟨hdisjoint, hregisters⟩ := (drivers_separate_iff hm hc).2.2 (.inr hfree)
  rw [eq_of_beq hmax] at hregisters
  exact ⟨_, c, hm, hc, eq_of_beq hmax, hfree, hdisjoint, hregisters.trans (by decide +kernel)⟩

/-- A register with the name of the state is lost, and its enable has two drivers. -/
theorem keeper_clash : ∃ m c tree tree', (keeper "state").finish [0, 1, 2] = .ok m ∧ compile m ["simplify:rounds=0"] = .ok c ∧
    m.registers.entries = [("state", ⟨.uint 8, 5⟩)] ∧ c.lowered.registers.entries = [("state", ⟨.uint 1, 0⟩)] ∧
    c.lowered.aspects.get? "register_next_state" = some tree ∧ c.lowered.aspects.get? "state_transition" = some tree' ∧
    "state_en" ∈ tree.targets ∧ "state_en" ∈ tree'.targets := by
  have hfacts : ((compile ((keeper "state").enclose [0, 1, 2]) ["simplify:rounds=0"]).toOption.any fun c =>
      decide (c.lowered.registers.entries = [("state", ⟨.uint 1, 0⟩)]) &&
      ((c.lowered.aspects.get? "register_next_state").any fun tree => tree.targets.contains "state_en") &&
      (c.lowered.aspects.get? "state_transition").any fun tree => tree.targets.contains "state_en") = true := by
    decide +kernel
  obtain ⟨c, hc, hfacts⟩ := Checked.exists_of_any hfacts
  obtain ⟨hfacts, hsecond⟩ := Bool.and_eq_true_iff.1 hfacts
  obtain ⟨hregisters, hfirst⟩ := Bool.and_eq_true_iff.1 hfacts
  obtain ⟨tree, htree, hmem⟩ := (Option.any_eq_true _ _).1 hfirst
  obtain ⟨tree', htree', hmem'⟩ := (Option.any_eq_true _ _).1 hsecond
  exact ⟨(keeper "state").enclose [0, 1, 2], c, tree, tree', rfl, hc, by decide +kernel, of_decide_eq_true hregisters, htree,
    htree', List.contains_iff_mem.1 hmem, List.contains_iff_mem.1 hmem'⟩

end Lowering

end Sequencer
