import Sequencer.Proofs.Compile
import Sequencer.Proofs.Condition.Descent
import Sequencer.Proofs.Lowering.Segment
import Mathlib.Order.Bounds.Defs

set_option autoImplicit false

/-!
# The conditions that are needed

The walk captures conditions when it comes to their block, and what is left over is captured at the end. However the walk
goes, the captured conditions are the least set with those in use, the one for a reset if there are registers, and all that
a condition in the set refers to.
-/

namespace Sequencer

namespace ConditionTable

/-- What a name stands for: the condition that the table defines, and for a reset the exit of the segment at `root`. -/
inductive Gives (t : ConditionTable) (root : Nat) : String → Cond → Prop
  | defined {n : String} {c : Cond} (h : t.get? n = some c) : Gives t root n c
  | reset {u : Timing} (h : t.timing root = .ok u) : Gives t root Name.resetCond u.exit

/-- A set of names with those in use, the condition for a reset if the module has registers, and with each name the
conditions of the table that occur in what it stands for. -/
structure Suffices (t : ConditionTable) (m : Module) (root : Nat) (used : List String) (S : Set String) : Prop where
  used : ∀ n ∈ used, n ∈ S
  reset : m.registers.isEmpty = false → Name.resetCond ∈ S
  refers : ∀ n ∈ S, ∀ e, t.Gives root n (some e) → ∀ r ∈ e.wireNames, t.contains r = true → r ∈ S

/-- The definitions of the conditions that are needed, each once. One that always holds is defined as true. -/
structure Materializes (t : ConditionTable) (m : Module) (root : Nat) (used : List String) (defs : List Comb.Assign) :
    Prop where
  nodup : (Network.names defs).Nodup
  least : IsLeast {S | t.Suffices m root used S} {n | n ∈ Network.names defs}
  value : ∀ d ∈ defs, ∃ c, t.Gives root d.target c ∧ d = .flag d.target (c.getD (.bool true))

theorem Materializes.alike {t : ConditionTable} {m m' : Module} (h : m.Alike m') {root : Nat} {used : List String}
    {defs : List Comb.Assign} (hdefs : t.Materializes m' root used defs) : t.Materializes m root used defs := by
  have hsuffices : ∀ S, t.Suffices m' root used S ↔ t.Suffices m root used S := fun S =>
    ⟨fun hS => ⟨hS.used, h.registers ▸ hS.reset, hS.refers⟩, fun hS => ⟨hS.used, h.registers ▸ hS.reset, hS.refers⟩⟩
  refine ⟨hdefs.nodup, ?_, hdefs.value⟩
  simpa only [hsuffices] using hdefs.least

/-- The names that a table knows stand for the values with which they are captured. -/
theorem gives_iff {m : Module} {s : Schedule} {maxState : Nat} {t : ConditionTable} (h : build m s maxState = .ok t)
    {n : String} (hn : t.Knows n) {c : Cond} : t.Gives s.root n c ↔ Lowering.Capture.value t n = c := by
  have hreset : ∃ u, t.timing s.root = .ok u ∧ t.reset = u.exit := by
    obtain ⟨d, _, h⟩ := Checked.bind_eq_ok.1 h
    obtain ⟨root, hroot, h⟩ := Checked.bind_eq_ok.1 h
    cases h
    exact ⟨root, hroot, rfl⟩
  obtain ⟨u, hu, hexit⟩ := hreset
  have hne : ∀ {n}, t.contains n = true → n ≠ Name.resetCond := by
    rintro _ hcontains rfl
    obtain ⟨id, hid⟩ := ofBlock_of_contains h hcontains
    exact Name.resetCond_not_ofBlock id hid
  rw [Lowering.Capture.value]
  constructor
  · rintro (hget | hroot)
    · have hcontains : t.contains n = true := (Listing.contains_iff_mem_keys _ _).2 (Listing.mem_keys_iff.2 ⟨c, hget⟩)
      rw [if_neg (hne hcontains), hget, Option.join_some]
    · cases hu.symm.trans hroot
      rw [if_pos rfl, hexit]
  · intro hvalue
    rcases hn with hcontains | rfl
    · obtain ⟨c', hget⟩ : ∃ c', t.get? n = some c' := Listing.exists_of_contains hcontains
      rw [if_neg (hne hcontains), hget, Option.join_some] at hvalue
      exact .defined (hvalue ▸ hget)
    · rw [if_pos rfl, hexit] at hvalue
      exact hvalue ▸ .reset hu

/-- A set that suffices has with each name all that is captured with it, as far as the table knows the name. -/
theorem Suffices.mentioned {m m' : Module} {s : Schedule} {maxState : Nat} {t : ConditionTable}
    (h : build m' s maxState = .ok t) {used : List String} {S : Set String} (hS : t.Suffices m s.root used S) {n : String}
    (hn : n ∈ S ∧ t.Knows n) {r : String} (hr : r ∈ Lowering.Capture.mentioned t n) : r ∈ S ∧ t.Knows r := by
  obtain ⟨hr, hcontains⟩ := List.mem_filter.1 hr
  cases hvalue : Lowering.Capture.value t n with
  | none =>
    rw [hvalue] at hr
    cases hr
  | some e =>
    rw [hvalue] at hr
    exact ⟨hS.refers n hn.1 e ((gives_iff h hn.2).2 hvalue) r hr hcontains, .inl hcontains⟩

end ConditionTable

namespace Lowering

open Control Lower

section Turns

variable {α β : Type} {ctx : Context} {R : Aspect → Aspect → Prop}

/-- A step that changes the class of signals and its notes as `R` allows. -/
def Lower.Turns (ctx : Context) (R : Aspect → Aspect → Prop) (x : Lower α) : Prop :=
  ∀ s a s', Runs ctx x s a s' → R s.aspect s'.aspect

namespace Turns

theorem modify (hrefl : ∀ a, R a a) (f : Session → Session) (hf : ∀ s, (f s).aspect = s.aspect) :
    Turns ctx R (modify f : Lower PUnit) := by
  intro s u s' h
  rw [runs_modify.1 h, hf]
  exact hrefl _

theorem bind (htrans : ∀ a b c, R a b → R b c → R a c) {x : Lower α} {f : α → Lower β} (hx : Turns ctx R x)
    (hf : ∀ a, Turns ctx R (f a)) : Turns ctx R (x >>= f) := by
  intro s b s'' h
  obtain ⟨a, s', h, h'⟩ := runs_bind.1 h
  exact htrans _ _ _ (hx s a s' h) (hf a s' b s'' h')

/-- Only the entry into a block, a yield and a change of state make notes. -/
theorem stepwise (hrefl : ∀ a, R a a) (htrans : ∀ a b c, R a b → R b c → R a c)
    (henter : ∀ i, Turns ctx R (enterBlock i)) (hyield : ∀ y, Turns ctx R (visitYield y))
    (hassign : ∀ b tr, Turns ctx R (assignState b tr)) : Stepwise (Turns ctx R) where
  pure a := by
    intro s b s' h
    rw [(runs_pure.1 h).2]
    exact hrefl _
  bind := bind htrans
  check x := by
    intro s a s' h
    rw [(runs_check.1 h).2]
    exact hrefl _
  read_bind hf := fun s b s' h => hf ctx s b s' (runs_read_bind.1 h)
  named name := by
    intro s c s' h
    have h := runs_read_bind.1 h
    split at h
    · obtain ⟨_, s₁, huse, h⟩ := runs_bind.1 h
      rw [(runs_pure.1 h).2, runs_modify.1 huse]
      exact hrefl _
    · rw [(runs_pure.1 h).2]
      exact hrefl _
  aspect_bind hf := by
    intro s b s' h
    exact hf _ _ _ _ (runs_aspect_bind.1 h)
  currentCycle := by
    intro s c s' h
    rw [(runs_currentCycle.1 h).2]
    exact hrefl _
  mark c := by
    intro s u s' h
    rw [runs_modify.1 (runs_read_bind.1 h)]
    exact hrefl _
  markTree b := by
    intro s u s' h
    rw [runs_modify.1 (runs_read_bind.1 h)]
    exact hrefl _
  cycle c hx hf := bind htrans (modify hrefl _ fun _ => rfl) fun _ => bind htrans hx fun a =>
    bind htrans (modify hrefl _ fun _ => rfl) fun _ => hf a
  enterBlock := henter
  visitYield := hyield
  assignState := hassign

end Turns

end Turns

section Walk

variable {ctx : Context} {s s' : Session} {S : String → Prop}

/-- The notes on captured conditions grow. -/
def Aspect.Grows (t : ConditionTable) (S : String → Prop) (a a' : Aspect) : Prop :=
  ∀ c, a = .conditions c → ∃ c', a' = .conditions c' ∧ c.Grows t S c'

theorem stepwise_grows (hreset : ctx.module.registers.isEmpty = false → S Name.resetCond)
    (hS : ∀ n, S n → ∀ r ∈ Capture.mentioned ctx.table n, S r) :
    Stepwise (Turns ctx (Aspect.Grows ctx.table S)) := by
  refine Turns.stepwise (fun _ c hc => ⟨c, hc, .refl c⟩) ?_ (fun i s ss s' h c hc => ?_) (fun y s ss s' h c hc => ?_)
    (fun b tr s b' s' h c hc => ?_)
  · intro a b d hab hbd c hc
    obtain ⟨c', hc', hgrows⟩ := hab c hc
    obtain ⟨c'', hc'', hgrows'⟩ := hbd c' hc'
    exact ⟨c'', hc'', hgrows.trans hgrows'⟩
  · obtain ⟨blk, _, hs'⟩ := runs_enterBlock_conditions hc h
    refine ⟨_, congrArg Session.aspect hs', ?_⟩
    cases blk with
    | none => exact .refl c
    | some b => exact Capture.grows_enter hreset hS b
  · exact ⟨_, congrArg Session.aspect (runs_visitYield_conditions hc h), Capture.grows_addBlock hS y.id⟩
  · replace h := runs_aspect_bind.1 h
    rw [hc] at h
    rw [(runs_pure.1 h).2]
    exact ⟨c, hc, .refl c⟩

/-- The walk starts with the module, so that the condition for a reset is captured if there are registers. -/
theorem Scheduled.reset_captured (hsched : Scheduled ctx) (hregisters : ctx.module.registers.isEmpty = false)
    {c : Capture} (hs : s.aspect = .conditions c) {tree : Comb.Block} (h : Runs ctx lowerModule s tree s') :
    ∃ c', s'.aspect = .conditions c' ∧ Name.resetCond ∈ c'.captured := by
  have hgrows : Stepwise (Turns ctx (Aspect.Grows ctx.table fun _ => True)) :=
    stepwise_grows (fun _ => trivial) fun _ _ _ _ => trivial
  obtain ⟨ss, s₁, hss, h⟩ := runs_bind.1 (runs_read_bind.1 h)
  have hlater := (hgrows.bind (hgrows.settled _) fun _ => hgrows.bind (hgrows.markTree _) fun _ => hgrows.pure _) _ _ _ h
  obtain ⟨os, n, b, seg, segs, houtline, hfits, _, hkind, _⟩ := hsched.root_fits
  rw [houtline] at hss
  obtain ⟨r⟩ := runs_lowerSegment_block hfits.segment hfits.not_leaf hfits.block hss
  obtain ⟨c₁, hc₁, _⟩ := hgrows.lowerProlog _ _ _ _ _ _ r.before_runs c hs
  obtain ⟨blk, hblk, hs₂⟩ := runs_enterBlock_conditions hc₁ r.entry_runs
  cases (r.block.symm.trans hblk).symm.trans (congrArg Except.ok (r.blk_eq hfits))
  have hc₂ := congrArg Session.aspect hs₂
  rw [Option.elim_some, hkind, hregisters, if_pos ⟨rfl, rfl⟩] at hc₂
  have hmem : Name.resetCond ∈ ((c₁.add ctx.table Name.resetCond).addBlock ctx.table b.id).captured :=
    (Capture.grows_addBlock (S := fun _ => True) (fun _ _ _ _ => trivial) b.id).captured
      (Capture.explore_mentioned (.inr rfl)).1
  obtain ⟨c₃, hc₃, hgrows₃⟩ := hgrows.lowerSegments _ _ _ _ _ r.inner_runs _ hc₂
  obtain ⟨c₄, hc₄, hgrows₄⟩ := hgrows.stateCopies _ _ _ _ _ _ r.copies_runs c₃ hc₃
  obtain ⟨c₅, hc₅, hgrows₅⟩ := hgrows.withCopies _ _ _ _ _ _ _ r.main_runs c₄ hc₄
  obtain ⟨c₆, hc₆, hgrows₆⟩ := hgrows.lowerEpilog _ _ _ _ _ _ r.after_runs c₅ hc₅
  obtain ⟨c', hc', hgrows'⟩ := hlater c₆ hc₆
  exact ⟨c', hc', ((((hgrows₃.trans hgrows₄).trans hgrows₅).trans hgrows₆).trans hgrows').captured hmem⟩

end Walk

/-- A run for the conditions, with the values of the table that the context has been built with. -/
theorem Scheduled.materializes {ctx : Context} (hsched : Scheduled ctx) {maxState : Nat}
    (htable : ConditionTable.build ctx.module ctx.schedule maxState = .ok ctx.table) {used : List String}
    (hused : ∀ n ∈ used, ctx.table.contains n = true) {s s' : Session} {tree : Comb.Block}
    (h : runAspect ctx s (.freshConditions used) = (.ok tree, s')) : ∃ c, s'.aspect = .conditions c ∧
      ctx.table.Materializes ctx.module ctx.schedule.root used (c.finish ctx.table) := by
  have hgrows : ∀ S : String → Prop, (ctx.module.registers.isEmpty = false → S Name.resetCond) →
      (∀ n, S n → ∀ r ∈ Capture.mentioned ctx.table n, S r) → ∃ c, s'.aspect = .conditions c ∧
        Capture.Grows ctx.table S ⟨used, []⟩ c :=
    fun S hreset hS => (stepwise_grows hreset hS).lowerModule _ _ _ h ⟨used, []⟩ rfl
  obtain ⟨c, hc, hall⟩ := hgrows (fun _ => True) (fun _ => trivial) fun _ _ _ _ => trivial
  have hsound : c.Sound ctx.table := hall.sound
    ⟨fun n hn => .inl (hused n (by simpa using hn)), List.nodup_nil, fun n hn => absurd hn List.not_mem_nil⟩
  obtain ⟨c', hsound', hwanted, hrest, hfinish⟩ := hsound.finish
  have hnames : Network.names (c.finish ctx.table) = c'.captured := by
    rw [hfinish, Network.names, List.map_map]
    exact List.map_id _
  have hgives : ∀ {n}, n ∈ c'.captured → ∀ {v}, ctx.table.Gives ctx.schedule.root n v ↔ Capture.value ctx.table n = v :=
    fun hn _ => ConditionTable.gives_iff htable (hsound'.known _ (List.mem_append_right _ hn))
  refine ⟨c, hc, hnames ▸ hsound'.nodup, ⟨⟨?_, ?_, ?_⟩, ?_⟩, ?_⟩
  · intro n hn
    rw [hnames]
    exact hwanted (hall.wanted ▸ hn)
  · intro hregisters
    obtain ⟨c₁, hc₁, hmem⟩ := hsched.reset_captured hregisters rfl h
    cases hc.symm.trans hc₁
    rw [hnames]
    exact (hrest (fun _ => True) fun _ _ _ _ => trivial).captured hmem
  · intro n hn e he r hr hcontains
    rw [hnames] at hn ⊢
    refine hsound'.closed n hn ?_
    rw [Capture.mentioned, (hgives hn).1 he]
    exact List.mem_filter.2 ⟨hr, hcontains⟩
  · intro S hS n hn
    rw [hnames] at hn
    have hclosed : ∀ n, n ∈ S ∧ ctx.table.Knows n → ∀ r ∈ Capture.mentioned ctx.table n, r ∈ S ∧ ctx.table.Knows r :=
      fun _ hn _ hr => hS.mentioned htable hn hr
    obtain ⟨c₁, hc₁, hinside⟩ := hgrows _ (fun hregisters => ⟨hS.reset hregisters, .inr rfl⟩) hclosed
    cases hc.symm.trans hc₁
    have hstart : ∀ n ∈ used, n ∈ S ∧ ctx.table.Knows n := fun n hn => ⟨hS.used n hn, .inl (hused n hn)⟩
    refine ((hrest _ hclosed).inside (hall.wanted ▸ hstart) ?_ n hn).1
    exact hinside.inside hstart fun n hn => absurd hn List.not_mem_nil
  · intro d hd
    have htarget := hnames ▸ Network.target_mem_names hd
    rw [hfinish] at hd
    obtain ⟨n, _, rfl⟩ := List.mem_map.1 hd
    exact ⟨_, (hgives htarget).2 rfl, rfl⟩

end Lowering

end Sequencer
