import Sequencer.Proofs.Comb.Overlay

set_option autoImplicit false

/-!
# Statements in order

Propagation moves assignments to the front of their block and drops those that repeat a value in effect. Statements are in
order if none of this can change what is read: no assignment moves above a statement that stays behind and reads its
target, and no value is repeated at the front after a signal that it reads has been set there.
-/

namespace Sequencer

namespace Comb

/-- What is set at the front of a block and of the blocks around it, and those of these values that may be out of date,
as a signal that they read has been set since. -/
structure Ahead where
  vals : List Setting
  stale : List Setting

namespace Ahead

def empty : Ahead := ⟨[], []⟩

def set (h : Ahead) (x : Setting) : Ahead where
  vals := x :: h.vals
  stale := h.stale ++ (x :: h.vals).filter fun y => (valueReads y.2).contains x.1

def setAll (h : Ahead) (xs : List Setting) : Ahead := xs.foldl set h

/-- Forgets what has to do with signals that are driven after the front. -/
def clear (h : Ahead) (driven : List String) : Ahead where
  vals := h.vals.filter fun x => !pinned driven x.1 x.2
  stale := h.stale.filter fun x => !pinned driven x.1 x.2

/-- None of the settings, made one after the other, repeats a value that is out of date. -/
def Takes : Ahead → List Setting → Prop
  | _, [] => True
  | h, x :: xs => x ∉ h.stale ∧ (h.set x).Takes xs

theorem mem_stale_set {h : Ahead} {x y : Setting} :
    y ∈ (h.set x).stale ↔ y ∈ h.stale ∨ (y = x ∨ y ∈ h.vals) ∧ x.1 ∈ valueReads y.2 := by
  simp [set, List.mem_filter]

theorem mem_clear {driven : List String} {xs : List Setting} {x : Setting} :
    x ∈ xs.filter (fun x => !pinned driven x.1 x.2) ↔ x ∈ xs ∧ pinned driven x.1 x.2 = false := by
  simp [List.mem_filter]

/-- Has at most what the other one has. -/
structure Within (h h' : Ahead) : Prop where
  vals : h.vals ⊆ h'.vals
  stale : h.stale ⊆ h'.stale

variable {h h' h'' : Ahead}

theorem Within.refl (h : Ahead) : h.Within h := ⟨List.Subset.refl _, List.Subset.refl _⟩

theorem Within.trans (hh : h.Within h') (hh' : h'.Within h'') : h.Within h'' :=
  ⟨List.Subset.trans hh.vals hh'.vals, List.Subset.trans hh.stale hh'.stale⟩

theorem within_set (h : Ahead) (x : Setting) : h.Within (h.set x) :=
  ⟨List.subset_cons_self _ _, List.subset_append_left _ _⟩

theorem Within.set (hh : h.Within h') (x : Setting) : (h.set x).Within (h'.set x) := by
  refine ⟨List.cons_subset_cons _ hh.vals, fun y hy => ?_⟩
  rw [mem_stale_set] at hy ⊢
  rcases hy with hy | ⟨hy, hx⟩
  · exact .inl (hh.stale hy)
  · exact .inr ⟨hy.imp_right fun hy => hh.vals hy, hx⟩

theorem within_setAll (h : Ahead) (xs : List Setting) : h.Within (h.setAll xs) := by
  induction xs generalizing h with
  | nil => exact .refl h
  | cons x xs ih => exact (h.within_set x).trans (ih _)

/-- The value set first does not read the signal set second, so it is as well set second. -/
theorem set_comm {x y : Setting} (hxy : y.1 ∉ valueReads x.2) : ((h.set x).set y).Within ((h.set y).set x) := by
  refine ⟨fun z hz => ?_, fun z hz => ?_⟩
  · simp only [set, List.mem_cons] at hz ⊢
    exact or_left_comm.1 hz
  · rw [mem_stale_set, mem_stale_set] at hz ⊢
    rcases hz with (hz | ⟨hz, hread⟩) | ⟨hz, hread⟩
    · exact .inl (.inl hz)
    · exact .inr ⟨hz.imp_right fun hz => List.mem_cons_of_mem _ hz, hread⟩
    · rcases hz with rfl | hz
      · exact .inl (.inr ⟨.inl rfl, hread⟩)
      · rcases List.mem_cons.1 hz with rfl | hz
        · exact absurd hread hxy
        · exact .inl (.inr ⟨.inr hz, hread⟩)

theorem Within.setAll (hh : h.Within h') {xs xs' : List Setting} (hxs : xs.Sublist xs') :
    (h.setAll xs).Within (h'.setAll xs') := by
  induction hxs generalizing h h' with
  | slnil => exact hh
  | cons x _ ih => exact ih (hh.trans (h'.within_set x))
  | cons_cons x _ ih => exact ih (hh.set x)

theorem setAll_append (h : Ahead) (xs ys : List Setting) : h.setAll (xs ++ ys) = (h.setAll xs).setAll ys :=
  List.foldl_append

theorem mem_vals_setAll {xs : List Setting} {x : Setting} (hx : x ∈ xs) (h : Ahead) : x ∈ (h.setAll xs).vals := by
  induction xs generalizing h with
  | nil => cases hx
  | cons y xs ih =>
    rcases List.mem_cons.1 hx with rfl | hx
    · exact (within_setAll _ xs).vals List.mem_cons_self
    · exact ih hx _

theorem Within.clear (hh : h.Within h') {ns ns' : List String} (hns : ns' ⊆ ns) : (h.clear ns).Within (h'.clear ns') := by
  have hpin : ∀ {x : Setting}, pinned ns x.1 x.2 = false → pinned ns' x.1 x.2 = false := fun {x} hx =>
    Bool.eq_false_iff.2 fun hx' => Bool.eq_false_iff.1 hx (pinned_mono hns hx')
  constructor
  · intro x hx
    obtain ⟨hx, hfree⟩ := mem_clear.1 hx
    exact mem_clear.2 ⟨hh.vals hx, hpin hfree⟩
  · intro x hx
    obtain ⟨hx, hfree⟩ := mem_clear.1 hx
    exact mem_clear.2 ⟨hh.stale hx, hpin hfree⟩

theorem takes_append {xs ys : List Setting} : h.Takes (xs ++ ys) ↔ h.Takes xs ∧ (h.setAll xs).Takes ys := by
  induction xs generalizing h with
  | nil => exact ⟨fun hys => ⟨trivial, hys⟩, And.right⟩
  | cons x xs ih =>
    change _ ∧ (h.set x).Takes (xs ++ ys) ↔ (_ ∧ (h.set x).Takes xs) ∧ ((h.set x).setAll xs).Takes ys
    rw [ih, and_assoc]

theorem Takes.mono (hh : h.Within h') {xs xs' : List Setting} (hxs : xs.Sublist xs') (ht : h'.Takes xs') : h.Takes xs := by
  induction hxs generalizing h h' with
  | slnil => trivial
  | cons x _ ih => exact ih (hh.trans (h'.within_set x)) ht.2
  | cons_cons x _ ih => exact ⟨fun hx => ht.1 (hh.stale hx), ih (hh.set x) ht.2⟩

/-- Has what the other one has and `X`, and of what is out of date only `Y` besides. -/
structure Besides (X : List Setting) (Y : Setting → Prop) (h h' : Ahead) : Prop where
  vals : ∀ y ∈ h'.vals, y ∈ h.vals ∨ y ∈ X
  stale : ∀ y ∈ h'.stale, y ∈ h.stale ∨ Y y

variable {X : List Setting} {Y : Setting → Prop}

theorem Besides.set (hh : Besides X Y h h') {x : Setting} (hX : ∀ y ∈ X, x.1 ∉ valueReads y.2) :
    Besides X Y (h.set x) (h'.set x) := by
  constructor
  · intro y hy
    rcases List.mem_cons.1 hy with rfl | hy
    · exact .inl List.mem_cons_self
    · exact (hh.vals y hy).imp_left fun hy => List.mem_cons_of_mem _ hy
  · intro y hy
    rw [mem_stale_set] at hy ⊢
    rcases hy with hy | ⟨rfl | hy, hx⟩
    · exact (hh.stale y hy).imp_left .inl
    · exact .inl (.inr ⟨.inl rfl, hx⟩)
    · rcases hh.vals y hy with hy | hy
      · exact .inl (.inr ⟨.inr hy, hx⟩)
      · exact absurd hx (hX y hy)

theorem Besides.setAll (hh : Besides X Y h h') {xs : List Setting} (hX : ∀ x ∈ xs, ∀ y ∈ X, x.1 ∉ valueReads y.2) :
    Besides X Y (h.setAll xs) (h'.setAll xs) := by
  induction xs generalizing h h' with
  | nil => exact hh
  | cons x xs ih =>
    obtain ⟨hx, hxs⟩ := List.forall_mem_cons.1 hX
    exact ih (hh.set hx) hxs

theorem Besides.clear (hh : Besides X Y h h') {ns ns' : List String} (hns : ns ⊆ ns') :
    Besides X Y (h.clear ns) (h'.clear ns') := by
  have hpin : ∀ {x : Setting}, pinned ns' x.1 x.2 = false → pinned ns x.1 x.2 = false := fun {x} hx =>
    Bool.eq_false_iff.2 fun hx' => Bool.eq_false_iff.1 hx (pinned_mono hns hx')
  constructor
  · intro y hy
    obtain ⟨hy, hfree⟩ := mem_clear.1 hy
    exact (hh.vals y hy).imp_left fun hy => mem_clear.2 ⟨hy, hpin hfree⟩
  · intro y hy
    obtain ⟨hy, hfree⟩ := mem_clear.1 hy
    exact (hh.stale y hy).imp_left fun hy => mem_clear.2 ⟨hy, hpin hfree⟩

theorem Takes.besides (hh : Besides X Y h h') {xs : List Setting} (hX : ∀ x ∈ xs, ∀ y ∈ X, x.1 ∉ valueReads y.2)
    (hY : ∀ x ∈ xs, ¬Y x) (ht : h.Takes xs) : h'.Takes xs := by
  induction xs generalizing h h' with
  | nil => trivial
  | cons x xs ih =>
    obtain ⟨hx, hxs⟩ := List.forall_mem_cons.1 hX
    obtain ⟨hy, hys⟩ := List.forall_mem_cons.1 hY
    exact ⟨fun hstale => (hh.stale x hstale).elim ht.1 hy, ih (hh.set hx) hxs hys ht.2⟩

end Ahead

/-- The signals that a statement drives for sure where the values `h` are set ahead: those of its defaults that repeat one
of them may be dropped. -/
def Stmt.pins (h : Ahead) : Stmt → List String
  | .assign a => [a.target]
  | .block g ds ss => ((Stmt.block g ds ss).settings.filter fun x => decide (x ∉ h.vals)).map Prod.fst

mutual
/-- No block in the statement repeats a value in its defaults that is out of date there. -/
def Stmt.Calm (h : Ahead) : Stmt → Prop
  | .assign _ => True
  | .block g ds ss => g.isSome = true ∧ h.Takes ds.settings ∧ Stmt.CalmAll (h.setAll ds.settings) [] ss
def Stmt.CalmAll (h : Ahead) : List String → List Stmt → Prop
  | _, [] => True
  | pins, s :: ss => s.Calm (h.clear pins) ∧ Stmt.CalmAll h (s.pins h ++ pins) ss
end

theorem Stmt.mem_pins_block {h : Ahead} {g : Cond} {ds : Defaults} {ss : List Stmt} {t : String} :
    t ∈ (Stmt.block g ds ss).pins h ↔ ∃ x ∈ (Stmt.block g ds ss).settings, x ∉ h.vals ∧ x.1 = t := by
  simp only [pins, List.mem_map, List.mem_filter, decide_eq_true_iff, and_assoc]

theorem Stmt.pins_subset_targets (h : Ahead) (s : Stmt) : s.pins h ⊆ s.targets := by
  cases s with
  | assign a => exact List.Subset.refl _
  | block g ds ss =>
    intro t ht
    obtain ⟨x, hx, _, rfl⟩ := mem_pins_block.1 ht
    exact mem_targets_of_setting hx

theorem Stmt.pins_subset {h h' : Ahead} {s : Stmt} (hh : ∀ x ∈ s.settings, x ∈ h'.vals → x ∈ h.vals) :
    s.pins h ⊆ s.pins h' := by
  cases s with
  | assign a => exact List.Subset.refl _
  | block g ds ss =>
    intro t ht
    obtain ⟨x, hx, hnew, rfl⟩ := mem_pins_block.1 ht
    exact mem_pins_block.2 ⟨x, hx, fun hmem => hnew (hh x hx hmem), rfl⟩

mutual
theorem Stmt.Calm.besides {X : List Setting} {Y : Setting → Prop} : (s : Stmt) → ∀ {h h' : Ahead},
    Ahead.Besides X Y h h' → (∀ x ∈ s.settings, x ∉ X ∧ ∀ y ∈ X, x.1 ∉ valueReads y.2) → (∀ x ∈ s.settings, ¬Y x) →
    s.Calm h → s.Calm h'
  | .assign _, _, _, _, _, _, _ => trivial
  | .block g ds ss, h, h', hh, hX, hY, ⟨hg, ht, hss⟩ => by
    rw [settings_block, List.forall_mem_append] at hX hY
    have hds : ∀ x ∈ ds.settings, ∀ y ∈ X, x.1 ∉ valueReads y.2 := fun x hx => (hX.1 x hx).2
    exact ⟨hg, ht.besides hh hds hY.1, CalmAll.besides ss (hh.setAll hds) (List.Subset.refl _) hX.2 hY.2 hss⟩
theorem Stmt.CalmAll.besides {X : List Setting} {Y : Setting → Prop} : (ss : List Stmt) → ∀ {h h' : Ahead}
    {pins pins' : List String}, Ahead.Besides X Y h h' → pins ⊆ pins' →
    (∀ x ∈ Stmt.settingsAll ss, x ∉ X ∧ ∀ y ∈ X, x.1 ∉ valueReads y.2) → (∀ x ∈ Stmt.settingsAll ss, ¬Y x) →
    Stmt.CalmAll h pins ss → Stmt.CalmAll h' pins' ss
  | [], _, _, _, _, _, _, _, _, _ => trivial
  | s :: ss, h, h', pins, pins', hh, hpins, hX, hY, ⟨hs, hss⟩ => by
    rw [settingsAll_cons, List.forall_mem_append] at hX hY
    have hmore : s.pins h ⊆ s.pins h' := pins_subset fun x hx hmem => (hh.vals x hmem).resolve_right (hX.1 x hx).1
    have hpins' : s.pins h ++ pins ⊆ s.pins h' ++ pins' :=
      List.append_subset.2 ⟨List.Subset.trans hmore (List.subset_append_left _ _),
        List.Subset.trans hpins (List.subset_append_right _ _)⟩
    exact ⟨Calm.besides s (hh.clear hpins) hX.1 hY.1 hs, CalmAll.besides ss hh hpins' hX.2 hY.2 hss⟩
end

theorem Ahead.Within.besides {h h' : Ahead} (hh : h'.Within h) : Ahead.Besides [] (fun _ => False) h h' :=
  ⟨fun _ hy => .inl (hh.vals hy), fun _ hy => .inl (hh.stale hy)⟩

theorem Stmt.Calm.mono {s : Stmt} {h h' : Ahead} (hh : h'.Within h) (hs : s.Calm h) : s.Calm h' :=
  Calm.besides s hh.besides (fun _ _ => ⟨List.not_mem_nil, fun _ hy => absurd hy List.not_mem_nil⟩) (fun _ _ hy => hy) hs

/-- How far propagation through a block has come: what is set ahead, the signals set in the block so far, those driven by
statements that stay in place and cannot be dropped, and those that statements drive and read that may stay. -/
structure Pass where
  ahead : Ahead
  set : List String
  pins : List String
  kept : List String
  read : List String

namespace Pass

/-- The first statement of a block comes after its defaults. -/
def start (h : Ahead) (xs : List Setting) : Pass := ⟨h.setAll xs, xs.map Prod.fst, [], [], []⟩

variable (p : Pass)

/-- The assignment stays in place, and is no repetition that may be dropped. -/
def Holds (a : Assign) : Prop :=
  pinned p.pins a.target a.val = true ∨ a.target ∈ p.set ∧ a.setting ∉ p.ahead.vals

/-- The assignment may stay in place. -/
def Stays (a : Assign) : Prop := a.target ∈ p.set ∨ pinned p.kept a.target a.val = true

instance (a : Assign) : Decidable (p.Holds a) := inferInstanceAs (Decidable (_ ∨ _))

instance (a : Assign) : Decidable (p.Stays a) := inferInstanceAs (Decidable (_ ∨ _))

def assign (a : Assign) : Pass where
  ahead := if a.target ∈ p.set ∨ p.Holds a then p.ahead else p.ahead.set a.setting
  set := a.target :: p.set
  pins := if p.Holds a then a.target :: p.pins else p.pins
  kept := if p.Stays a then a.target :: p.kept else p.kept
  read := if p.Stays a then valueReads a.val ++ p.read else p.read

def block (s : Stmt) : Pass where
  ahead := p.ahead
  set := s.targets ++ p.set
  pins := s.pins p.ahead ++ p.pins
  kept := s.targets ++ p.kept
  read := s.reads ++ p.read

def step : Stmt → Pass
  | .assign a => p.assign a
  | .block g ds ss => p.block (.block g ds ss)

/-- An assignment that may move is not read by a statement that may stay, unless it is not the first one, and does not
repeat a value that is out of date. -/
def Admits : Stmt → Prop
  | .assign a => p.Holds a ∨ (a.target ∈ p.read → a.target ∈ p.set) ∧ a.setting ∉ p.ahead.stale
  | .block _ _ _ => True

/-- Propagation through a block whose nested blocks are settled keeps the order. -/
def Orderly : Pass → List Stmt → Prop
  | _, [] => True
  | p, s :: ss => p.Admits s ∧ s.Calm (p.ahead.clear p.pins) ∧ Orderly (p.step s) ss

end Pass

mutual
/-- Propagation through the blocks of the statement, inner blocks first, keeps the order. -/
def Stmt.InOrder (h : Ahead) : Stmt → Prop
  | .assign _ => True
  | .block g ds ss => g.isSome = true ∧ h.Takes ds.settings ∧ Stmt.InOrderAll (.start h ds.settings) ss
def Stmt.InOrderAll (p : Pass) : List Stmt → Prop
  | [] => True
  | s :: ss => p.Admits s ∧ s.InOrder (p.ahead.clear p.pins) ∧ Stmt.InOrderAll (p.step s) ss
end

instance Ahead.decidableTakes : (xs : List Setting) → (h : Ahead) → Decidable (h.Takes xs)
  | [], _ => isTrue trivial
  | x :: xs, h =>
    have := Ahead.decidableTakes xs (h.set x)
    inferInstanceAs (Decidable (_ ∧ _))

instance (p : Pass) : (s : Stmt) → Decidable (p.Admits s)
  | .assign _ => inferInstanceAs (Decidable (_ ∨ _ ∧ _))
  | .block _ _ _ => isTrue trivial

mutual
def Stmt.decidableInOrder : (s : Stmt) → (h : Ahead) → Decidable (s.InOrder h)
  | .assign _, _ => isTrue trivial
  | .block _ ds ss, h =>
    have := Stmt.decidableInOrderAll ss (.start h ds.settings)
    inferInstanceAs (Decidable (_ ∧ _ ∧ _))
def Stmt.decidableInOrderAll : (ss : List Stmt) → (p : Pass) → Decidable (Stmt.InOrderAll p ss)
  | [], _ => isTrue trivial
  | s :: ss, p =>
    have := Stmt.decidableInOrder s (p.ahead.clear p.pins)
    have := Stmt.decidableInOrderAll ss (p.step s)
    inferInstanceAs (Decidable (_ ∧ _ ∧ _))
end

instance (p : Pass) (ss : List Stmt) : Decidable (Stmt.InOrderAll p ss) := Stmt.decidableInOrderAll ss p

namespace Pass

/-- The same signals are set, at least as many are driven for sure, and at most as many may be driven or are read. -/
structure Within (p p' : Pass) : Prop where
  ahead : p.ahead.Within p'.ahead
  set : ∀ t, t ∈ p.set ↔ t ∈ p'.set
  pins : p'.pins ⊆ p.pins
  kept : p.kept ⊆ p'.kept
  read : p.read ⊆ p'.read

variable {p p' p'' : Pass} {a : Assign}

theorem Within.refl (p : Pass) : p.Within p :=
  ⟨.refl _, fun _ => .rfl, List.Subset.refl _, List.Subset.refl _, List.Subset.refl _⟩

theorem Within.trans (h : p.Within p') (h' : p'.Within p'') : p.Within p'' :=
  ⟨h.ahead.trans h'.ahead, fun t => (h.set t).trans (h'.set t), List.Subset.trans h'.pins h.pins,
    List.Subset.trans h.kept h'.kept, List.Subset.trans h.read h'.read⟩

theorem Within.holds (h : p.Within p') (ha : p'.Holds a) : p.Holds a :=
  ha.imp (pinned_mono h.pins) fun ⟨hset, hnew⟩ => ⟨(h.set _).2 hset, fun hval => hnew (h.ahead.vals hval)⟩

theorem Within.stays (h : p.Within p') (ha : p.Stays a) : p'.Stays a :=
  ha.imp (h.set _).1 (pinned_mono h.kept)

theorem Within.admits (h : p.Within p') {s : Stmt} (hs : p'.Admits s) : p.Admits s := by
  cases s with
  | block g ds ss => trivial
  | assign a =>
    exact hs.imp h.holds fun ⟨hread, hstale⟩ =>
      ⟨fun hmem => (h.set _).2 (hread (h.read hmem)), fun hmem => hstale (h.ahead.stale hmem)⟩

theorem Within.assign (h : p.Within p') (a : Assign) : (p.assign a).Within (p'.assign a) := by
  refine ⟨?_, fun t => ?_, ?_, ?_, ?_⟩
  · have hfront : a.target ∈ p'.set ∨ p'.Holds a → a.target ∈ p.set ∨ p.Holds a := Or.imp (h.set _).2 h.holds
    simp only [Pass.assign]
    split
    · split
      · exact h.ahead
      · exact h.ahead.trans (Ahead.within_set _ _)
    · rename_i hp
      rw [if_neg fun hp' => hp (hfront hp')]
      exact h.ahead.set _
  · simp only [Pass.assign, List.mem_cons, h.set]
  · simp only [Pass.assign]
    split
    · rename_i hp'
      rw [if_pos (h.holds hp')]
      exact List.cons_subset_cons _ h.pins
    · split
      · exact List.Subset.trans h.pins (List.subset_cons_self _ _)
      · exact h.pins
  · simp only [Pass.assign]
    split
    · rename_i hp
      rw [if_pos (h.stays hp)]
      exact List.cons_subset_cons _ h.kept
    · split
      · exact List.Subset.trans h.kept (List.subset_cons_self _ _)
      · exact h.kept
  · simp only [Pass.assign]
    split
    · rename_i hp
      rw [if_pos (h.stays hp)]
      exact List.append_subset.2 ⟨List.subset_append_left _ _, List.Subset.trans h.read (List.subset_append_right _ _)⟩
    · split
      · exact List.Subset.trans h.read (List.subset_append_right _ _)
      · exact h.read

/-- The first statement sets part of what the second one does, and all but what repeats a value set ahead. -/
structure Replaces (p : Pass) (s s' : Stmt) : Prop where
  settings : s.settings ⊆ s'.settings
  reads : s.reads ⊆ s'.reads
  covers : ∀ x ∈ s'.settings, x ∈ s.settings ∨ x.1 ∈ p.set ∧ x ∈ p.ahead.vals

theorem Replaces.refl (p : Pass) (s : Stmt) : p.Replaces s s :=
  ⟨List.Subset.refl _, List.Subset.refl _, fun _ hx => .inl hx⟩

theorem Within.block (h : p.Within p') {g g' : Cond} {ds ds' : Defaults} {ss ss' : List Stmt}
    (hs : p'.Replaces (.block g ds ss) (.block g' ds' ss')) :
    (p.step (.block g ds ss)).Within (p'.step (.block g' ds' ss')) := by
  simp only [Pass.step]
  have htargets : (Stmt.block g ds ss).targets ⊆ (Stmt.block g' ds' ss').targets := by
    rw [Stmt.targets_eq, Stmt.targets_eq]
    exact List.map_subset _ hs.settings
  refine ⟨h.ahead, fun t => ?_, ?_, ?_, ?_⟩
  · simp only [Pass.block, List.mem_append, h.set t]
    constructor
    · exact Or.imp_left fun ht => htargets ht
    · rintro (ht | ht)
      · rw [Stmt.targets_eq] at ht ⊢
        obtain ⟨x, hx, rfl⟩ := List.mem_map.1 ht
        exact (hs.covers x hx).imp (fun hx => List.mem_map_of_mem hx) And.left
      · exact .inr ht
  · refine List.append_subset.2 ⟨fun t ht => ?_, List.Subset.trans h.pins (List.subset_append_right _ _)⟩
    obtain ⟨x, hx, hnew, rfl⟩ := Stmt.mem_pins_block.1 ht
    have hmem := (hs.covers x hx).resolve_right fun h => hnew h.2
    exact List.mem_append_left _ (Stmt.mem_pins_block.2 ⟨x, hmem, fun hval => hnew (h.ahead.vals hval), rfl⟩)
  · exact List.append_subset.2 ⟨List.Subset.trans htargets (List.subset_append_left _ _),
      List.Subset.trans h.kept (List.subset_append_right _ _)⟩
  · exact List.append_subset.2 ⟨List.Subset.trans hs.reads (List.subset_append_left _ _),
      List.Subset.trans h.read (List.subset_append_right _ _)⟩

theorem Within.step (h : p.Within p') (s : Stmt) : (p.step s).Within (p'.step s) := by
  cases s with
  | assign a => exact h.assign a
  | block g ds ss => exact h.block (.refl _ _)

theorem Orderly.mono {ss : List Stmt} (h : p.Within p') (hss : p'.Orderly ss) : p.Orderly ss := by
  induction ss generalizing p p' with
  | nil => trivial
  | cons s ss ih => exact ⟨h.admits hss.1, hss.2.1.mono (h.ahead.clear h.pins), ih (h.step s) hss.2.2⟩

/-- How far propagation has come after some statements. -/
def walk (p : Pass) (ss : List Stmt) : Pass := ss.foldl step p

theorem orderly_append {ss ts : List Stmt} : p.Orderly (ss ++ ts) ↔ p.Orderly ss ∧ (p.walk ss).Orderly ts := by
  induction ss generalizing p with
  | nil => exact ⟨fun h => ⟨trivial, h⟩, And.right⟩
  | cons s ss ih =>
    change _ ∧ _ ∧ (p.step s).Orderly (ss ++ ts) ↔ (_ ∧ _ ∧ (p.step s).Orderly ss) ∧ ((p.step s).walk ss).Orderly ts
    rw [ih, and_assoc, and_assoc]

theorem mem_set_step (p : Pass) (s : Stmt) {t : String} : t ∈ (p.step s).set ↔ t ∈ s.targets ∨ t ∈ p.set := by
  cases s with
  | assign a => simp [step, assign, Stmt.targets]
  | block g ds ss => exact List.mem_append

theorem mem_set_walk {ss : List Stmt} {t : String} : t ∈ (p.walk ss).set ↔ t ∈ Stmt.targetsAll ss ∨ t ∈ p.set := by
  induction ss generalizing p with
  | nil => simp [walk, Stmt.targetsAll]
  | cons s ss ih =>
    change t ∈ ((p.step s).walk ss).set ↔ _
    rw [ih, mem_set_step, Stmt.targetsAll, List.mem_append]
    exact ⟨fun h => h.elim (fun h => .inl (.inr h)) fun h => h.elim (fun h => .inl (.inl h)) .inr,
      fun h => h.elim (fun h => h.elim (fun h => .inr (.inl h)) .inl) fun h => .inr (.inr h)⟩

theorem ahead_step (p : Pass) (s : Stmt) : p.ahead.Within (p.step s).ahead := by
  cases s with
  | block g ds ss => exact .refl _
  | assign a =>
    simp only [step, assign]
    split
    · exact .refl _
    · exact Ahead.within_set _ _

theorem ahead_walk (p : Pass) (ss : List Stmt) : p.ahead.Within (p.walk ss).ahead := by
  induction ss generalizing p with
  | nil => exact .refl _
  | cons s ss ih => exact (p.ahead_step s).trans (ih (p.step s))

theorem driven_step (p : Pass) (s : Stmt) :
    (p.step s).pins ⊆ s.targets ++ p.pins ∧ (p.step s).kept ⊆ s.targets ++ p.kept := by
  cases s with
  | assign a =>
    simp only [step, assign, Stmt.targets]
    constructor
    · split
      · exact List.Subset.refl _
      · exact List.subset_cons_self _ _
    · split
      · exact List.Subset.refl _
      · exact List.subset_cons_self _ _
  | block g ds ss =>
    refine ⟨List.append_subset.2 ⟨?_, List.subset_append_right _ _⟩, List.Subset.refl _⟩
    exact List.Subset.trans (Stmt.pins_subset_targets _ _) (List.subset_append_left _ _)

theorem driven_walk (p : Pass) (ss : List Stmt) :
    (p.walk ss).pins ⊆ Stmt.targetsAll ss ++ p.pins ∧ (p.walk ss).kept ⊆ Stmt.targetsAll ss ++ p.kept := by
  induction ss generalizing p with
  | nil => exact ⟨List.Subset.refl _, List.Subset.refl _⟩
  | cons s ss ih =>
    have hsub : ∀ {xs ys zs : List String}, ys ⊆ s.targets ++ zs → xs ⊆ Stmt.targetsAll ss ++ ys →
        xs ⊆ Stmt.targetsAll (s :: ss) ++ zs := by
      intro xs ys zs hys hxs t ht
      rw [Stmt.targetsAll]
      rcases List.mem_append.1 (hxs ht) with ht | ht
      · exact List.mem_append_left _ (List.mem_append_right _ ht)
      · rcases List.mem_append.1 (hys ht) with ht | ht
        · exact List.mem_append_left _ (List.mem_append_left _ ht)
        · exact List.mem_append_right _ ht
    exact ⟨hsub (p.driven_step s).1 (ih _).1, hsub (p.driven_step s).2 (ih _).2⟩

/-- All assignments of the list may stay in place. -/
def Keeps : Pass → List Stmt → Prop
  | _, [] => True
  | p, s :: ss => (∀ a, s = .assign a → p.Stays a) ∧ Keeps (p.step s) ss

theorem keeps_append {ss ts : List Stmt} : p.Keeps (ss ++ ts) ↔ p.Keeps ss ∧ (p.walk ss).Keeps ts := by
  induction ss generalizing p with
  | nil => exact ⟨fun h => ⟨trivial, h⟩, And.right⟩
  | cons s ss ih =>
    change _ ∧ (p.step s).Keeps (ss ++ ts) ↔ (_ ∧ (p.step s).Keeps ss) ∧ ((p.step s).walk ss).Keeps ts
    rw [ih, and_assoc]

theorem Keeps.mono {ss : List Stmt} (hset : p.set ⊆ p'.set) (hkept : p.kept ⊆ p'.kept) (h : p.Keeps ss) :
    p'.Keeps ss := by
  induction ss generalizing p p' with
  | nil => trivial
  | cons s ss ih =>
    have hstays : ∀ a, p.Stays a → p'.Stays a := fun a ha => ha.imp (fun h => hset h) (pinned_mono hkept)
    refine ⟨fun a ha => hstays a (h.1 a ha), ih (fun t ht => ?_) ?_ h.2⟩
    · rw [mem_set_step] at ht ⊢
      exact ht.imp_right fun ht => hset ht
    · cases s with
      | block g ds ss =>
        exact List.append_subset.2 ⟨List.subset_append_left _ _, List.Subset.trans hkept (List.subset_append_right _ _)⟩
      | assign a =>
        have ha := h.1 a rfl
        simp only [step, assign]
        rw [if_pos ha, if_pos (hstays a ha)]
        exact List.cons_subset_cons _ hkept

/-- Statements that may all stay are noted as such. -/
theorem Keeps.noted {ss : List Stmt} (h : p.Keeps ss) :
    Stmt.targetsAll ss ++ p.kept ⊆ (p.walk ss).kept ∧ Stmt.readsAll ss ++ p.read ⊆ (p.walk ss).read := by
  induction ss generalizing p with
  | nil => exact ⟨List.Subset.refl _, List.Subset.refl _⟩
  | cons s ss ih =>
    have hstep : (p.step s).kept = s.targets ++ p.kept ∧ (p.step s).read = s.reads ++ p.read := by
      cases s with
      | block g ds ss => exact ⟨rfl, rfl⟩
      | assign a =>
        simp only [step, assign]
        rw [if_pos (h.1 a rfl), if_pos (h.1 a rfl)]
        exact ⟨rfl, rfl⟩
    obtain ⟨hkept, hread⟩ := ih h.2
    rw [hstep.1] at hkept
    rw [hstep.2] at hread
    have hsub : ∀ {xs ys zs ws : List String}, xs ++ (ys ++ zs) ⊆ ws → (ys ++ xs) ++ zs ⊆ ws := by
      intro xs ys zs ws hws t ht
      refine hws ?_
      simp only [List.mem_append] at ht ⊢
      exact ht.elim (fun ht => ht.elim (fun ht => .inr (.inl ht)) .inl) fun ht => .inr (.inr ht)
    exact ⟨hsub hkept, hsub hread⟩

/-- An assignment has moved to the front. -/
def front (p : Pass) (a : Assign) : Pass := { p with ahead := p.ahead.set a.setting, set := a.target :: p.set }

theorem assign_eq_front (hset : a.target ∉ p.set) (hpins : pinned p.pins a.target a.val = false)
    (hkept : pinned p.kept a.target a.val = false) : p.assign a = p.front a := by
  have hholds : ¬p.Holds a := fun h => h.elim (by simp [hpins]) fun h => hset h.1
  have hstays : ¬p.Stays a := fun h => h.elim hset (by simp [hkept])
  simp only [assign, front, if_neg hholds, if_neg hstays, if_neg fun h : a.target ∈ p.set ∨ p.Holds a => h.elim hset hholds]

theorem holds_front {b : Assign} (h : b.target ≠ a.target) : (p.front a).Holds b ↔ p.Holds b := by
  have hset : b.target ∈ (p.front a).set ↔ b.target ∈ p.set := by simp [front, h]
  have hval : b.setting ∈ (p.front a).ahead.vals ↔ b.setting ∈ p.ahead.vals := by
    simp only [front, Ahead.set, List.mem_cons, or_iff_right_iff_imp]
    exact fun heq => absurd (congrArg Prod.fst heq) h
  exact or_congr .rfl (and_congr hset (not_congr hval))

theorem stays_front {b : Assign} (h : b.target ≠ a.target) : (p.front a).Stays b ↔ p.Stays b := by
  have hset : b.target ∈ (p.front a).set ↔ b.target ∈ p.set := by simp [front, h]
  exact or_congr hset .rfl

/-- Moving an assignment to the front makes no difference to one that it stands apart from. -/
theorem front_assign {b : Assign} (h : a.Independent [b.target] (valueReads b.val)) :
    ((p.front a).assign b).Within ((p.assign b).front a) := by
  have hne : b.target ≠ a.target := fun heq => h.target (List.mem_singleton.2 heq.symm)
  have hset : b.target ∈ (p.front a).set ↔ b.target ∈ p.set := by simp [front, hne]
  refine ⟨?_, fun t => ?_, ?_, ?_, ?_⟩
  · simp only [assign, holds_front hne, hset]
    split
    · exact .refl _
    · exact Ahead.set_comm fun hread => h.reads _ hread (List.mem_singleton.2 rfl)
  · simp only [assign, front, List.mem_cons]
    exact or_left_comm
  · simp only [assign, holds_front hne]
    exact List.Subset.refl _
  · simp only [assign, stays_front hne]
    exact List.Subset.refl _
  · simp only [assign, stays_front hne]
    exact List.Subset.refl _

theorem front_step {s : Stmt} (h : a.Independent s.targets s.reads) :
    ((p.front a).step s).Within ((p.step s).front a) := by
  cases s with
  | assign b => exact front_assign h
  | block g ds ss =>
    refine ⟨.refl _, fun t => ?_, ?_, List.Subset.refl _, List.Subset.refl _⟩
    · simp only [step, block, front, List.mem_append, List.mem_cons]
      exact or_left_comm
    · refine List.append_subset.2 ⟨?_, List.subset_append_right _ _⟩
      refine List.Subset.trans (Stmt.pins_subset fun x hx hmem => ?_) (List.subset_append_left _ _)
      refine (List.mem_cons.1 hmem).resolve_left fun heq => h.target ?_
      rw [show a.target = x.1 from congrArg Prod.fst heq.symm]
      exact Stmt.mem_targets_of_setting hx

theorem front_admits {s : Stmt} (h : a.Independent s.targets s.reads) (hs : p.Admits s) : (p.front a).Admits s := by
  cases s with
  | block g ds ss => trivial
  | assign b =>
    have hne : b.target ≠ a.target := fun heq => h.target (List.mem_singleton.2 heq.symm)
    refine hs.imp (holds_front hne).2 fun ⟨hread, hstale⟩ => ⟨fun hmem => List.mem_cons_of_mem _ (hread hmem), ?_⟩
    intro hmem
    rcases Ahead.mem_stale_set.1 hmem with hmem | ⟨_, hmem⟩
    · exact hstale hmem
    · exact h.unread hmem

theorem front_calm {s : Stmt} {ns : List String} (h : a.Independent s.targets s.reads) (hs : s.Calm (p.ahead.clear ns)) :
    s.Calm ((p.front a).ahead.clear ns) := by
  have hX : ∀ x ∈ s.settings, x ∉ [a.setting] ∧ ∀ y ∈ [a.setting], x.1 ∉ valueReads y.2 := by
    intro x hx
    have htarget := Stmt.mem_targets_of_setting hx
    refine ⟨fun hmem => h.target ?_, fun y hy hread => ?_⟩
    · rw [show a.target = x.1 from congrArg Prod.fst (List.mem_singleton.1 hmem).symm]
      exact htarget
    · rw [List.mem_singleton.1 hy] at hread
      exact h.reads _ hread htarget
  have hY : ∀ x ∈ s.settings, a.target ∉ valueReads x.2 := fun x hx hread => h.unread (s.mem_reads_of_setting hread hx)
  refine Stmt.Calm.besides (Y := fun y => a.target ∈ valueReads y.2) s (Ahead.Besides.clear ⟨?_, ?_⟩ (List.Subset.refl ns))
    hX hY hs
  · exact fun y hy => (List.mem_cons.1 hy).symm.imp_right List.mem_singleton.2
  · exact fun y hy => (Ahead.mem_stale_set.1 hy).imp_right And.right

theorem pinned_step {s : Stmt} {ns ns' : List String} (h : a.Independent s.targets s.reads) (hns : ns' ⊆ s.targets ++ ns)
    (ha : pinned ns a.target a.val = false) : pinned ns' a.target a.val = false := by
  rw [pinned_eq_false_iff] at ha ⊢
  exact ⟨fun hmem => (List.mem_append.1 (hns hmem)).elim h.target ha.1,
    fun n hn hmem => (List.mem_append.1 (hns hmem)).elim (h.reads n hn) (ha.2 n hn)⟩

/-- Moving an assignment to the front of statements that it stands apart from keeps them in order. -/
theorem Orderly.move {K rest : List Stmt} (hw : p'.Within (p.front a))
    (hK : a.Independent (Stmt.targetsAll K) (Stmt.readsAll K)) (hset : a.target ∉ p.set)
    (hpins : pinned p.pins a.target a.val = false) (hkept : pinned p.kept a.target a.val = false)
    (h : p.Orderly (K ++ .assign a :: rest)) : p'.Orderly (K ++ rest) := by
  induction K generalizing p p' with
  | nil =>
    have hrest : (p.assign a).Orderly rest := h.2.2
    rw [assign_eq_front hset hpins hkept] at hrest
    exact hrest.mono hw
  | cons s K ih =>
    obtain ⟨hadmits, hcalm, hrest⟩ := h
    obtain ⟨htarget, hunread, hreads⟩ := hK
    rw [Stmt.targetsAll, List.mem_append, not_or] at htarget
    rw [Stmt.readsAll, List.mem_append, not_or] at hunread
    have hs : a.Independent s.targets s.reads :=
      ⟨htarget.1, hunread.1, fun n hn hmem => hreads n hn (List.mem_append_left _ hmem)⟩
    have hK : a.Independent (Stmt.targetsAll K) (Stmt.readsAll K) :=
      ⟨htarget.2, hunread.2, fun n hn hmem => hreads n hn (List.mem_append_right _ hmem)⟩
    refine ⟨hw.admits (front_admits hs hadmits), (front_calm hs hcalm).mono (hw.ahead.clear hw.pins), ?_⟩
    refine ih ((hw.step s).trans (front_step hs)) hK ?_ ?_ ?_ hrest
    · rw [mem_set_step]
      exact fun hmem => hmem.elim hs.target hset
    · exact pinned_step hs (p.driven_step s).1 hpins
    · exact pinned_step hs (p.driven_step s).2 hkept

/-- An assignment that may be dropped leaves all as it is. -/
theorem within_assign (hset : a.target ∈ p.set) (hholds : ¬p.Holds a) : p.Within (p.assign a) := by
  have hstays : p.Stays a := .inl hset
  simp only [assign, if_neg hholds, if_pos hstays, if_pos (Or.inl hset : a.target ∈ p.set ∨ p.Holds a)]
  refine ⟨.refl _, fun t => ?_, List.Subset.refl _, List.subset_cons_self _ _, List.subset_append_right _ _⟩
  rw [List.mem_cons]
  exact ⟨.inr, fun ht => ht.elim (fun ht => ht ▸ hset) id⟩

/-- Dropping an assignment that repeats a value set ahead keeps the order. -/
theorem Orderly.drop {K rest : List Stmt} (hset : a.target ∈ p.set) (hval : a.setting ∈ p.ahead.vals)
    (hK : pinned (Stmt.targetsAll K ++ p.pins) a.target a.val = false) (h : p.Orderly (K ++ .assign a :: rest)) :
    p.Orderly (K ++ rest) := by
  rw [orderly_append] at h ⊢
  refine ⟨h.1, h.2.2.2.mono (within_assign (mem_set_walk.2 (.inr hset)) ?_)⟩
  rintro (hpin | ⟨_, hnew⟩)
  · rw [pinned_mono (p.driven_walk K).1 hpin] at hK
    cases hK
  · exact hnew ((p.ahead_walk K).vals hval)

end Pass

end Comb

end Sequencer
