import Mathlib.Data.List.Basic
import Mathlib.Logic.Relation
import Sequencer.Proofs.Schedule.Holding

set_option autoImplicit false

/-!
# Flow within a cycle

A cycle passes through the statements of a list in their order, through what is nested in a block and then on behind the
block, and from a segment to those below it and back where they share the cycle. Every place of the flow has a known set
of places right before it, since every statement stands in one list only.
-/

namespace Sequencer

open Control

namespace Schedule

/-- A place that a cycle may pass. -/
inductive Place where
  /-- The expressions that the statement itself holds are read. -/
  | read (stmt : Nat)
  /-- The statement has run, with all that is nested in it. -/
  | done (stmt : Nat)
  | enter (seg : Nat)
  /-- The prolog of the segment has run, and the conditions of its block are due. -/
  | test (seg : Nat)
  /-- The segment has run but for its epilog. -/
  | close (seg : Nat)
  | leave (seg : Nat)
deriving DecidableEq, Repr

/-- The place after the statements `stmts`, run from `p` on. -/
def Place.past (p : Place) (stmts : List Nat) : Place := stmts.getLast?.elim p .done

@[simp]
theorem Place.past_append_singleton (p : Place) (stmts : List Nat) (i : Nat) : p.past (stmts ++ [i]) = .done i := by
  rw [past, List.getLast?_append]
  rfl

/-- The place from which a segment runs the list that the statement at `i` is in. -/
def Place.startOf (u : Nat) (seg : Segment) (i : Nat) : Place :=
  if i ∈ seg.prolog then .enter u else if i ∈ seg.stmts then .test u else .close u

/-- The lists of statements that run from one place to another. -/
inductive Runs (m : Module) (s : Schedule) : Place → List Nat → Place → Prop
  | prolog {u : Nat} {seg : Segment} (hseg : s.segment u = .ok seg) : Runs m s (.enter u) seg.prolog (.test u)
  | leaf {u : Nat} {seg : Segment} (hseg : s.segment u = .ok seg) (hkind : seg.kind = .leaf) :
    Runs m s (.test u) seg.stmts (.close u)
  | epilog {u : Nat} {seg : Segment} (hseg : s.segment u = .ok seg) : Runs m s (.close u) seg.epilog (.leave u)
  | nested {p q : Place} {stmts : List Nat} {i : Nat} {b : Block} (h : Runs m s p stmts q) (hi : i ∈ stmts)
    (hb : m.stmt i = .ok (.block b)) : Runs m s (.read i) b.stmts (.done i)

/-- A place comes right after another one in a cycle. -/
inductive Flow (m : Module) (s : Schedule) : Place → Place → Prop
  /-- A statement follows the one before it in its list. -/
  | before {p q : Place} {stmts rest : List Nat} {i : Nat} (h : Runs m s p (stmts ++ i :: rest) q) :
    Flow m s (p.past stmts) (.read i)
  | after {p q : Place} {stmts : List Nat} (h : Runs m s p stmts q) : Flow m s (p.past stmts) q
  | simple {i : Nat} {t : Stmt} (ht : m.stmt i = .ok t) (hblock : t.block? = none) : Flow m s (.read i) (.done i)
  | conditions {u n : Nat} {seg : Segment} (hseg : s.segment u = .ok seg) (hblock : seg.block = some n) :
    Flow m s (.test u) (.read n)
  /-- Of a sequence, only the first segment is entered in the cycle in which the sequence is entered. -/
  | first {u c : Nat} {cs : List Nat} {seg : Segment} (hseg : s.segment u = .ok seg) (hkind : seg.kind = .seq)
    (hchildren : seg.children = c :: cs) : Flow m s (.test u) (.enter c)
  /-- Of a sequence, only the last segment is left in the cycle in which the sequence is left. -/
  | last {u c : Nat} {cs : List Nat} {seg : Segment} (hseg : s.segment u = .ok seg) (hkind : seg.kind = .seq)
    (hchildren : seg.children = cs ++ [c]) : Flow m s (.leave c) (.close u)
  | branch {u c : Nat} {seg : Segment} (hseg : s.segment u = .ok seg) (hkind : seg.kind = .mutex)
    (hc : c ∈ seg.children) : Flow m s (.test u) (.enter c)
  | join {u c : Nat} {seg : Segment} (hseg : s.segment u = .ok seg) (hkind : seg.kind = .mutex)
    (hc : c ∈ seg.children) : Flow m s (.leave c) (.close u)
  | skip {u : Nat} {seg : Segment} (hseg : s.segment u = .ok seg) (hkind : seg.kind ≠ .leaf)
    (hchildren : seg.children = []) : Flow m s (.test u) (.close u)

/-- There is a way within a cycle from an update of the register to the place. -/
def Updated (m : Module) (s : Schedule) (r : String) (p : Place) : Prop :=
  ∃ j v, m.stmt j = .ok (.update r v) ∧ Relation.ReflTransGen (Flow m s) (.done j) p

variable {m : Module} {s : Schedule} {r : String} {p p' q q' : Place}

theorem updated_iff : Updated m s r p ↔
    (∃ j v, p = .done j ∧ m.stmt j = .ok (.update r v)) ∨ ∃ p', Flow m s p' p ∧ Updated m s r p' := by
  constructor
  · rintro ⟨j, v, hj, hpath⟩
    rcases hpath.cases_tail with heq | ⟨p', hpath, hflow⟩
    · exact .inl ⟨j, v, heq, hj⟩
    · exact .inr ⟨p', hflow, j, v, hj, hpath⟩
  · rintro (⟨j, v, rfl, hj⟩ | ⟨p', hflow, j, v, hj, hpath⟩)
    · exact ⟨j, v, hj, .refl⟩
    · exact ⟨j, v, hj, hpath.tail hflow⟩

/-- What holds right before a place with one way to it holds there, unless the place comes after an update. -/
theorem updated_congr (hflow : ∀ p', Flow m s p' p ↔ p' = q) (hp : ∀ j v, p = .done j → m.stmt j ≠ .ok (.update r v)) :
    Updated m s r p ↔ Updated m s r q := by
  rw [updated_iff]
  constructor
  · rintro (⟨j, v, hpj, hj⟩ | ⟨p', hflow', h⟩)
    · exact absurd hj (hp j v hpj)
    · rwa [(hflow p').1 hflow'] at h
  · exact fun h => .inr ⟨q, (hflow q).2 rfl, h⟩

namespace Runs

theorem eq_of_start {stmts stmts' : List Nat} (h : Runs m s p stmts q) (h' : Runs m s p stmts' q') :
    stmts = stmts' ∧ q = q' := by
  cases h with
  | prolog hseg =>
    cases h' with
    | prolog hseg' =>
      cases hseg.symm.trans hseg'
      exact ⟨rfl, rfl⟩
  | leaf hseg hkind =>
    cases h' with
    | leaf hseg' =>
      cases hseg.symm.trans hseg'
      exact ⟨rfl, rfl⟩
  | epilog hseg =>
    cases h' with
    | epilog hseg' =>
      cases hseg.symm.trans hseg'
      exact ⟨rfl, rfl⟩
  | nested _ _ hb =>
    cases h' with
    | nested _ _ hb' =>
      cases hb.symm.trans hb'
      exact ⟨rfl, rfl⟩

/-- A place to which statements run is reached in no other way. -/
theorem flow_iff {stmts : List Nat} (h : Runs m s p stmts q) : Flow m s p' q ↔ p' = p.past stmts := by
  constructor
  · intro hflow
    cases h with
    | prolog hseg =>
      cases hflow with
      | after h' =>
        cases h' with
        | prolog hseg' =>
          cases hseg.symm.trans hseg'
          rfl
    | leaf hseg hkind =>
      cases hflow with
      | after h' =>
        cases h' with
        | leaf hseg' =>
          cases hseg.symm.trans hseg'
          rfl
      | last hseg' hkind' | join hseg' hkind' =>
        cases hseg.symm.trans hseg'
        cases hkind.symm.trans hkind'
      | skip hseg' hkind' =>
        cases hseg.symm.trans hseg'
        exact absurd hkind hkind'
    | epilog hseg =>
      cases hflow with
      | after h' =>
        cases h' with
        | epilog hseg' =>
          cases hseg.symm.trans hseg'
          rfl
    | nested _ _ hb =>
      cases hflow with
      | after h' =>
        cases h' with
        | nested _ _ hb' =>
          cases hb.symm.trans hb'
          rfl
      | simple ht hblock =>
        cases hb.symm.trans ht
        cases hblock
  · rintro rfl
    exact .after h

section Scheduled

variable (hm : m.WellFormed) (hs : m.schedule = .ok s)

include hm hs

/-- The statements of a list are held by one segment and are not its block. -/
theorem exists_segment {stmts : List Nat} (h : Runs m s p stmts q) :
    ∃ u seg, s.segment u = .ok seg ∧ ∀ i ∈ stmts, i ∈ m.below seg.loose := by
  induction h with
  | prolog hseg | leaf hseg | epilog hseg =>
    refine ⟨_, _, hseg, fun i hi => (Module.sublist_below _).subset ?_⟩
    simp [Segment.loose, hi]
  | nested _ hi hb ih =>
    obtain ⟨u, seg, hseg, hmem⟩ := ih
    refine ⟨u, seg, hseg, fun j hj => hm.mem_below_of_nested (fun k hk => ?_) (hmem _ hi) hb hj⟩
    exact mem_tree_of_held hm hs hseg (Segment.loose_mem_held hk)

theorem mem_tree {stmts : List Nat} (h : Runs m s p stmts q) {i : Nat} (hi : i ∈ stmts) :
    i ∈ (m.outline m.root).preorder := by
  obtain ⟨u, seg, hseg, hmem⟩ := h.exists_segment hm hs
  exact mem_tree_of_held hm hs hseg (Segment.below_mem_held (hmem i hi))

/-- No list holds the block of a segment. -/
theorem ne_block {stmts : List Nat} (h : Runs m s p stmts q) {i : Nat} (hi : i ∈ stmts) {u : Nat} {seg : Segment}
    (hseg : s.segment u = .ok seg) : seg.block ≠ some i := by
  intro hblock
  obtain ⟨u', seg', hseg', hmem⟩ := h.exists_segment hm hs
  obtain rfl := held_unique hm hs hseg hseg' (Segment.block_mem_held hblock) (Segment.below_mem_held (hmem i hi))
  cases hseg.symm.trans hseg'
  exact block_not_below hm hs hseg hblock (hmem i hi)

/-- A statement that a segment runs itself is not nested in a statement of a list. -/
theorem not_nested {stmts : List Nat} (h : Runs m s p stmts q) {i j : Nat} {b : Block} (hi : i ∈ stmts)
    (hb : m.stmt i = .ok (.block b)) (hj : j ∈ b.stmts) {u : Nat} {seg : Segment} (hseg : s.segment u = .ok seg) :
    j ∉ seg.loose := by
  intro hloose
  obtain ⟨u', above, n, b', habove, hn, hb', hj'⟩ := exists_block_around hm hs hseg hloose
  have htree := mem_tree_of_held hm hs habove (Segment.block_mem_held hn)
  obtain rfl := hm.parent_unique (h.mem_tree hm hs hi) htree hb hb' hj hj'
  exact h.ne_block hm hs hi habove hn

theorem eq_start {stmts : List Nat} (h : Runs m s p stmts q) {i u : Nat} (hi : i ∈ stmts) {seg : Segment}
    (hseg : s.segment u = .ok seg) (hloose : i ∈ seg.loose) : p = .startOf u seg i := by
  have hheld : ∀ {u' : Nat} {seg' : Segment}, s.segment u' = .ok seg' → i ∈ seg'.loose → u = u' := fun hseg' hloose' =>
    held_unique hm hs hseg hseg' (Segment.loose_mem_held hloose) (Segment.loose_mem_held hloose')
  have hnodup := loose_nodup hm hs hseg
  rw [Segment.loose, List.nodup_append, List.nodup_append] at hnodup
  obtain ⟨⟨_, _, hstmts⟩, _, hepilog⟩ := hnodup
  cases h with
  | prolog hseg' =>
    obtain rfl := hheld hseg' (by simp [Segment.loose, hi])
    cases hseg.symm.trans hseg'
    rw [Place.startOf, if_pos hi]
  | leaf hseg' =>
    obtain rfl := hheld hseg' (by simp [Segment.loose, hi])
    cases hseg.symm.trans hseg'
    rw [Place.startOf, if_neg fun hmem => hstmts i hmem i hi rfl, if_pos hi]
  | epilog hseg' =>
    obtain rfl := hheld hseg' (by simp [Segment.loose, hi])
    cases hseg.symm.trans hseg'
    rw [Place.startOf, if_neg fun hmem => hepilog i (List.mem_append_left _ hmem) i hi rfl,
      if_neg fun hmem => hepilog i (List.mem_append_right _ hmem) i hi rfl]
  | nested h hj hb => exact absurd hloose (h.not_nested hm hs hj hb hi hseg)

theorem loose_or_nested {stmts : List Nat} (h : Runs m s p stmts q) {i : Nat} (hi : i ∈ stmts) :
    (∃ u seg, s.segment u = .ok seg ∧ i ∈ seg.loose) ∨
      ∃ j b, p = .read j ∧ j ∈ (m.outline m.root).preorder ∧ m.stmt j = .ok (.block b) ∧ i ∈ b.stmts := by
  cases h with
  | prolog hseg | leaf hseg | epilog hseg => exact .inl ⟨_, _, hseg, by simp [Segment.loose, hi]⟩
  | nested h hj hb => exact .inr ⟨_, _, rfl, h.mem_tree hm hs hj, hb, hi⟩

/-- No statement is in two lists. -/
theorem start_unique {stmts stmts' : List Nat} (h : Runs m s p stmts q) (h' : Runs m s p' stmts' q') {i : Nat}
    (hi : i ∈ stmts) (hi' : i ∈ stmts') : p = p' := by
  rcases h.loose_or_nested hm hs hi with ⟨u, seg, hseg, hloose⟩ | ⟨j, b, rfl, hj, hb, hmem⟩
  · rw [h.eq_start hm hs hi hseg hloose, h'.eq_start hm hs hi' hseg hloose]
  · rcases h'.loose_or_nested hm hs hi' with ⟨u, seg, hseg, hloose⟩ | ⟨j', b', rfl, hj', hb', hmem'⟩
    · rw [h.eq_start hm hs hi hseg hloose, h'.eq_start hm hs hi' hseg hloose]
    · rw [hm.parent_unique hj hj' hb hb' hmem hmem']

theorem nodup {stmts : List Nat} (h : Runs m s p stmts q) : stmts.Nodup := by
  cases h with
  | prolog hseg => exact (loose_nodup hm hs hseg).of_append_left.of_append_left
  | leaf hseg => exact (loose_nodup hm hs hseg).of_append_left.of_append_right
  | epilog hseg => exact (loose_nodup hm hs hseg).of_append_right
  | @nested _ _ _ i b h hi hb =>
    have htree := h.mem_tree hm hs hi
    have hnodup := hm.nodup.sublist (hm.part_outline htree hb).sublist
    rw [Outline.preorder_eq, List.nodup_cons] at hnodup
    exact hnodup.2.sublist (Module.sublist_below _)

/-- A statement of a list is reached from the one before it and in no other way. -/
theorem flow_read_iff {stmts rest : List Nat} {i : Nat} (h : Runs m s p (stmts ++ i :: rest) q) :
    Flow m s p' (.read i) ↔ p' = p.past stmts := by
  have hi : i ∈ stmts ++ i :: rest := by simp
  constructor
  · intro hflow
    cases hflow with
    | @before p₁ q₁ stmts₁ rest₁ _ h₁ =>
      obtain rfl := h.start_unique hm hs h₁ hi (by simp)
      have hnodup := h.nodup hm hs
      rw [List.nodup_middle, List.nodup_cons, List.mem_append, not_or] at hnodup
      have hlist := (List.append_cons_inj_of_notMem hnodup.1.1 hnodup.1.2).1 (h.eq_of_start h₁).1
      rw [hlist.1]
    | after h₁ => cases h₁
    | conditions hseg hblock => exact absurd hblock (h.ne_block hm hs hi hseg)
  · rintro rfl
    exact .before h

theorem updated_read {stmts rest : List Nat} {i : Nat} (h : Runs m s p (stmts ++ i :: rest) q) :
    Updated m s r (.read i) ↔ Updated m s r (p.past stmts) :=
  updated_congr (fun _ => h.flow_read_iff hm hs) nofun

omit hm hs in
theorem updated_end {stmts : List Nat} (h : Runs m s p stmts q) :
    Updated m s r q ↔ Updated m s r (p.past stmts) := by
  refine updated_congr (fun _ => h.flow_iff) ?_
  intro j v hq hj
  cases h with
  | prolog | leaf | epilog => cases hq
  | nested _ _ hb =>
    cases hq
    cases hb.symm.trans hj

end Scheduled

end Runs

/-- After a statement with nothing nested in it, its register is updated and what was updated before it. -/
theorem updated_done {i : Nat} {t : Stmt} (ht : m.stmt i = .ok t) (hblock : t.block? = none) :
    Updated m s r (.done i) ↔ (∃ v, t = .update r v) ∨ Updated m s r (.read i) := by
  rw [updated_iff]
  constructor
  · rintro (⟨j, v, hj, hv⟩ | ⟨p', hflow, h⟩)
    · cases hj
      cases ht.symm.trans hv
      exact .inl ⟨v, rfl⟩
    · cases hflow with
      | after h' =>
        cases h' with
        | nested _ _ hb =>
          cases ht.symm.trans hb
          cases hblock
      | simple => exact .inr h
  · rintro (⟨v, rfl⟩ | h)
    · exact .inl ⟨i, v, rfl, ht⟩
    · exact .inr ⟨_, .simple ht hblock, h⟩

/-- A sequence is closed after its last segment, branches are closed after any of them, and a segment with nothing below
it right after its conditions. -/
theorem flow_close_iff {u : Nat} {seg : Segment} (hseg : s.segment u = .ok seg) (hkind : seg.kind ≠ .leaf) :
    Flow m s p (.close u) ↔ seg.children = [] ∧ p = .test u ∨ ∃ c, p = .leave c ∧
      (seg.kind = .seq ∧ seg.children.getLast? = some c ∨ seg.kind = .mutex ∧ c ∈ seg.children) := by
  constructor
  · intro hflow
    cases hflow with
    | after h =>
      cases h with
      | leaf hseg' hleaf =>
        cases hseg.symm.trans hseg'
        exact absurd hleaf hkind
    | last hseg' hseq hchildren =>
      cases hseg.symm.trans hseg'
      exact .inr ⟨_, rfl, .inl ⟨hseq, by simp [hchildren]⟩⟩
    | join hseg' hmutex hc =>
      cases hseg.symm.trans hseg'
      exact .inr ⟨_, rfl, .inr ⟨hmutex, hc⟩⟩
    | skip hseg' _ hchildren =>
      cases hseg.symm.trans hseg'
      exact .inl ⟨hchildren, rfl⟩
  · rintro (⟨hchildren, rfl⟩ | ⟨c, rfl, ⟨hseq, hlast⟩ | ⟨hmutex, hc⟩⟩)
    · exact .skip hseg hkind hchildren
    · obtain ⟨cs, hcs⟩ := List.getLast?_eq_some_iff.1 hlast
      exact .last hseg hseq hcs
    · exact .join hseg hmutex hc

theorem updated_close {u : Nat} {seg : Segment} (hseg : s.segment u = .ok seg) (hkind : seg.kind ≠ .leaf) :
    Updated m s r (.close u) ↔ seg.children = [] ∧ Updated m s r (.test u) ∨ ∃ c, Updated m s r (.leave c) ∧
      (seg.kind = .seq ∧ seg.children.getLast? = some c ∨ seg.kind = .mutex ∧ c ∈ seg.children) := by
  rw [updated_iff]
  constructor
  · rintro (⟨j, v, hj, _⟩ | ⟨p', hflow, h⟩)
    · cases hj
    · rcases (flow_close_iff hseg hkind).1 hflow with ⟨hchildren, rfl⟩ | ⟨c, rfl, hc⟩
      · exact .inl ⟨hchildren, h⟩
      · exact .inr ⟨c, h, hc⟩
  · rintro (⟨hchildren, h⟩ | ⟨c, h, hc⟩)
    · exact .inr ⟨_, (flow_close_iff hseg hkind).2 (.inl ⟨hchildren, rfl⟩), h⟩
    · exact .inr ⟨_, (flow_close_iff hseg hkind).2 (.inr ⟨c, rfl, hc⟩), h⟩

section Segments

variable (hm : m.WellFormed) (hs : m.schedule = .ok s) {u c : Nat} {seg : Segment} (hseg : s.segment u = .ok seg)

include hm hs hseg

theorem updated_block {n : Nat} (hblock : seg.block = some n) : Updated m s r (.read n) ↔ Updated m s r (.test u) := by
  refine updated_congr (fun p' => ⟨fun hflow => ?_, ?_⟩) nofun
  · cases hflow with
    | before h => exact absurd hblock (h.ne_block hm hs (by simp) hseg)
    | after h => cases h
    | conditions hseg' hblock' =>
      rw [held_unique hm hs hseg hseg' (Segment.block_mem_held hblock) (Segment.block_mem_held hblock')]
  · rintro rfl
    exact .conditions hseg hblock

theorem parent_eq (hc : c ∈ seg.children) {u' : Nat} {seg' : Segment} (hseg' : s.segment u' = .ok seg')
    (hc' : c ∈ seg'.children) : u' = u := by
  obtain ⟨hlaid, hpre, _⟩ := Module.schedule_laid hm hs
  obtain ⟨child, hchild, hparent⟩ := (children_link_back hlaid hpre hseg).2 c hc
  obtain ⟨child', hchild', hparent'⟩ := (children_link_back hlaid hpre hseg').2 c hc'
  cases hchild.symm.trans hchild'
  exact Option.some.inj (hparent'.symm.trans hparent)

/-- A segment is entered from the one above it, and in a sequence only if it is the first. -/
theorem flow_enter_iff (hc : c ∈ seg.children) : Flow m s p (.enter c) ↔
    p = .test u ∧ (seg.kind = .mutex ∨ seg.kind = .seq ∧ seg.children.head? = some c) := by
  constructor
  · intro hflow
    cases hflow with
    | after h => cases h
    | first hseg' hkind hchildren =>
      obtain rfl := parent_eq hm hs hseg hc hseg' (by simp [hchildren])
      cases hseg.symm.trans hseg'
      exact ⟨rfl, .inr ⟨hkind, by rw [hchildren]; rfl⟩⟩
    | branch hseg' hkind hc' =>
      obtain rfl := parent_eq hm hs hseg hc hseg' hc'
      cases hseg.symm.trans hseg'
      exact ⟨rfl, .inl hkind⟩
  · rintro ⟨rfl, hkind | ⟨hkind, hhead⟩⟩
    · exact .branch hseg hkind hc
    · obtain ⟨cs, hcs⟩ := List.head?_eq_some_iff.1 hhead
      exact .first hseg hkind hcs

theorem updated_enter (hc : c ∈ seg.children) : Updated m s r (.enter c) ↔
    Updated m s r (.test u) ∧ (seg.kind = .mutex ∨ seg.kind = .seq ∧ seg.children.head? = some c) := by
  rw [updated_iff]
  constructor
  · rintro (⟨j, v, hj, _⟩ | ⟨p', hflow, h⟩)
    · cases hj
    · obtain ⟨rfl, hkind⟩ := (flow_enter_iff hm hs hseg hc).1 hflow
      exact ⟨h, hkind⟩
  · rintro ⟨h, hkind⟩
    exact .inr ⟨_, (flow_enter_iff hm hs hseg hc).2 ⟨rfl, hkind⟩, h⟩

omit hseg in
theorem not_updated_root : ¬ Updated m s r (.enter s.root) := by
  obtain ⟨hlaid, hpre, _⟩ := Module.schedule_laid hm hs
  have hindex := s.index_outline s.root
  obtain ⟨root, hroot, hparent⟩ := hlaid.parent
  rw [hindex] at hroot
  have hnone : ∀ {u : Nat} {seg : Segment}, s.segment u = .ok seg → s.root ∉ seg.children := by
    intro u seg hseg hmem
    obtain ⟨child, hchild, hparent'⟩ := (children_link_back hlaid hpre hseg).2 _ hmem
    cases hroot.symm.trans hchild
    cases hparent.symm.trans hparent'
  rw [updated_iff]
  rintro (⟨j, v, hj, _⟩ | ⟨p', hflow, _⟩)
  · cases hj
  · cases hflow with
    | after h => cases h
    | first hseg _ hchildren => exact hnone hseg (by simp [hchildren])
    | branch hseg _ hc => exact hnone hseg hc

omit hseg in
/-- A statement that is not in the tree is never reached. -/
theorem mem_tree_of_updated {i : Nat} (h : Updated m s r (.read i)) : i ∈ (m.outline m.root).preorder := by
  rw [updated_iff] at h
  rcases h with ⟨j, v, hj, _⟩ | ⟨p', hflow, _⟩
  · cases hj
  · cases hflow with
    | before h => exact h.mem_tree hm hs (by simp)
    | after h => cases h
    | conditions hseg hblock => exact mem_tree_of_held hm hs hseg (Segment.block_mem_held hblock)

end Segments

end Schedule

end Sequencer
