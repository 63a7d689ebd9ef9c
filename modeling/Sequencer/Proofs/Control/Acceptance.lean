import Sequencer.Proofs.Control.Tree

set_option autoImplicit false

/-!
# Which drafts are finished

The statements of a draft are linked by the blocks that list them. If no link leaves the arena or closes a circle, a
draft is finished exactly when its names are declared once, no statement is listed twice and every statement in the
tree is legal at its place. All other drafts are rejected as malformed structure.
-/

namespace Sequencer

open Control

namespace Module

variable {m : Module}

/-- The block at `i` lists the statement at `j`. -/
def Lists (m : Module) (i j : Nat) : Prop := ∃ b, m.stmt i = .ok (.block b) ∧ j ∈ b.stmts

/-- The statements that blocks list, from the root on. -/
def InTree (m : Module) : Nat → Prop := Relation.ReflTransGen m.Lists m.root

/-- No link of the tree leaves the arena or closes a circle. -/
structure Rooted (m : Module) : Prop where
  bound : ∀ i, m.InTree i → i < m.stmts.size
  acyclic : ∀ i, m.InTree i → ¬ Relation.TransGen m.Lists i i

/-- What a module has to satisfy, said of the statements in its tree. -/
structure Legal (m : Module) : Prop where
  names : m.declaredNames.Nodup
  listed_once : ∀ i b, m.InTree i → m.stmt i = .ok (.block b) → b.stmts.Nodup
  one_parent : ∀ i i' j, m.InTree i → m.InTree i' → m.Lists i j → m.Lists i' j → i = i'
  module : ∀ i b, m.InTree i → m.stmt i = .ok (.block b) → b.kind = .module → i = m.root
  interface : ∀ i b p, m.InTree i → m.stmt i = .ok (.block b) → b.kind = .interface p ∨ b.kind = .interfaceLoop p →
    ∃ port ∈ m.inputs, port.name = p
  container : ∀ i b j, m.InTree i → m.stmt i = .ok (.block b) → b.kind = .container → j ∈ b.stmts →
    ∃ c, m.stmt j = .ok (.block c) ∧ c.kind = .conditional
  yield : ∀ i y, m.InTree i → m.stmt i = .ok (.yield y) → y.vals.length = m.outputs.length
  update : ∀ i r v, m.InTree i → m.stmt i = .ok (.update r v) → r ∈ m.registers.keys
  assign : ∀ i x v, m.InTree i → m.stmt i = .ok (.assign x v) → x ∈ m.vars.keys

theorem lists_iff {i j : Nat} : m.Lists i j ↔ j ∈ m.stmts.linksAt Stmt.nested i := by
  unfold Lists stmt Arena.linksAt
  simp only [Arena.get_eq_ok_iff]
  cases m.stmts.get? i with
  | none => simp
  | some s => cases s <;> simp [Stmt.nested]

theorem lists_eq (m : Module) : m.Lists = fun i j => j ∈ m.stmts.linksAt Stmt.nested i :=
  funext fun _ => funext fun _ => propext lists_iff

theorem exists_stmt_of_lt {i : Nat} (h : i < m.stmts.size) : ∃ s, m.stmt i = .ok s := by
  obtain ⟨s, hs⟩ := Arena.exists_get?_of_lt h
  exact ⟨s, (Arena.get_eq_ok_iff _ _ _).2 hs⟩

theorem linksAt_of_stmt {i : Nat} {s : Stmt} (hs : m.stmt i = .ok s) : m.stmts.linksAt Stmt.nested i = s.nested := by
  rw [stmt, Arena.get_eq_ok_iff] at hs
  rw [Arena.linksAt, hs]
  rfl

theorem describe_of_stmt {i : Nat} {s : Stmt} (hs : m.stmt i = .ok s) : m.describe i = .ok (s.describe i) := by
  rw [describe, hs]
  rfl

/-- Statements listed only by statements added after them close no circle. -/
theorem Rooted.of_descending (hroot : m.root < m.stmts.size)
    (h : ∀ i < m.stmts.size, ∀ j ∈ m.stmts.linksAt Stmt.nested i, j < i) : m.Rooted := by
  have hstep : ∀ i j, m.Lists i j → j < i := by
    rintro i j ⟨b, hb, hj⟩
    rw [stmt, Arena.get_eq_ok_iff] at hb
    refine h i (Arena.lt_size_of_get? hb) j ?_
    rw [Arena.linksAt, hb]
    exact hj
  refine ⟨fun i hi => ?_, fun i _ hcircle => ?_⟩
  · induction hi with
    | refl => exact hroot
    | tail _ hlink ih => exact (hstep _ _ hlink).trans ih
  · have hpath : ∀ j, Relation.TransGen m.Lists i j → j < i := by
      intro j hj
      induction hj with
      | single hlink => exact hstep _ _ hlink
      | tail _ hlink ih => exact (hstep _ _ hlink).trans ih
    exact lt_irrefl i (hpath i hcircle)

end Module

namespace Checked

/-- The outcomes of a check of structure: it is passed if `P` holds, and else it rejects. -/
inductive Decides (P : Prop) : Checked Unit → Prop
  | passed (h : P) : Decides P (.ok ())
  | failed {cause : Rejection} (h : ¬ P) (hcause : cause.diagnostic.category = .malformedStructure) :
    Decides P (.reject cause)

namespace Decides

variable {P Q : Prop} {x y : Checked Unit}

theorem congr (h : Decides P x) (hiff : P ↔ Q) : Decides Q x := by
  cases h with
  | passed h => exact .passed (hiff.1 h)
  | failed h hcause => exact .failed (fun hq => h (hiff.2 hq)) hcause

theorem bind (hx : Decides P x) (hy : P → Decides Q y) : Decides (P ∧ Q) (x >>= fun _ => y) := by
  cases hx with
  | passed h => exact (hy h).congr (by simp [h])
  | failed h hcause => exact .failed (fun hboth => h hboth.1) hcause

theorem ite [Decidable P] {cause : Rejection} (hcause : cause.diagnostic.category = .malformedStructure) :
    Decides P (if P then pure () else .reject cause) := by
  split
  · exact .passed ‹P›
  · exact .failed ‹¬ P› hcause

end Decides

end Checked

namespace Module

variable {m : Module}

/-- The branches of a container that are not conditional are found, and there are none if the container fits. -/
theorem filterM_kind? {js : List Nat} (hjs : ∀ j ∈ js, j < m.stmts.size) :
    ∃ others, (js.filterM fun j => do return (← m.kind? j) != some BlockKind.conditional) = .ok others ∧
      others ⊆ js ∧ (others = [] ↔ ∀ j ∈ js, ∃ c, m.stmt j = .ok (.block c) ∧ c.kind = .conditional) := by
  have hkind : ∀ j ∈ js, ∃ s, m.stmt j = .ok s ∧ m.kind? j = .ok (s.block?.map Block.kind) := by
    intro j hj
    obtain ⟨s, hs⟩ := exists_stmt_of_lt (hjs j hj)
    refine ⟨s, hs, ?_⟩
    rw [kind?, block?, hs]
    rfl
  refine ⟨_, Checked.filterM_of_forall (q := Checked.passes fun j => do
    return (← m.kind? j) != some BlockKind.conditional) ?_, List.filter_subset_self _, ?_⟩
  · intro j hj
    obtain ⟨s, _, hk⟩ := hkind j hj
    rw [Checked.passes, hk]
    rfl
  · rw [List.filter_eq_nil_iff]
    refine forall₂_congr fun j hj => ?_
    obtain ⟨s, hs, hk⟩ := hkind j hj
    rw [Checked.passes, hk, hs]
    cases s with
    | block c => simp [Stmt.block?]
    | yield y => simp [Stmt.block?]
    | update r v => simp [Stmt.block?]
    | assign x v => simp [Stmt.block?]

theorem checkStmt_decides {i : Nat} {s : Stmt} (hs : m.stmt i = .ok s) (hnested : ∀ j ∈ s.nested, j < m.stmts.size) :
    Checked.Decides (m.Fits i s) (m.checkStmt i) := by
  rw [checkStmt, hs, Checked.ok_bind]
  cases s with
  | block b =>
    obtain ⟨k, g, ss, id⟩ := b
    have hport : ∀ p, Checked.Decides ((m.input? p).isSome) (if (m.input? p).isNone then
        m.describe i >>= fun t => .reject (.undeclaredInterface t p) else pure ()) := by
      intro p
      rw [describe_of_stmt hs, Checked.ok_bind]
      cases m.input? p with
      | some port => exact .passed rfl
      | none => exact .failed (by simp) rfl
    cases k with
    | module =>
      have hroot : Checked.Decides (i = m.root) (if i = m.root then pure () else .reject .nestedModule) := .ite rfl
      rw [← ite_not] at hroot
      exact hroot
    | interface p => exact hport p
    | interfaceLoop p => exact hport p
    | conditional => exact .passed trivial
    | loop exit => exact .passed trivial
    | container =>
      have hbranches : ∀ j ∈ ss, j < m.stmts.size := hnested
      obtain ⟨others, hothers, hsub, hiff⟩ := filterM_kind? hbranches
      dsimp only
      rw [hothers, Checked.ok_bind]
      cases others with
      | nil => exact .passed (hiff.1 rfl)
      | cons j others =>
        obtain ⟨s, hj⟩ := exists_stmt_of_lt (hbranches j (hsub List.mem_cons_self))
        dsimp only
        rw [describe_of_stmt hj, Checked.ok_bind]
        exact .failed (fun hfits => List.cons_ne_nil _ _ (hiff.2 hfits)) rfl
  | yield y => exact Checked.Decides.ite (P := y.vals.length = m.outputs.length) rfl
  | update r v => exact Checked.Decides.ite (P := m.registers.contains r = true) rfl
  | assign x v => exact Checked.Decides.ite (P := m.vars.contains x = true) rfl

theorem checkStmts_decides {is : List Nat} (his : ∀ i ∈ is, ∃ s, m.stmt i = .ok s ∧ ∀ j ∈ s.nested, j < m.stmts.size)
    (seen : List Nat) : Checked.Decides (is.Nodup ∧ (∀ i ∈ is, i ∉ seen) ∧ ∀ i ∈ is, ∃ s, m.stmt i = .ok s ∧ m.Fits i s)
      (m.checkStmts seen is) := by
  induction is generalizing seen with
  | nil => exact .passed ⟨List.nodup_nil, by simp, by simp⟩
  | cons i is ih =>
    obtain ⟨⟨s, hs, hnested⟩, his⟩ := List.forall_mem_cons.1 his
    rw [checkStmts]
    split
    · rename_i hseen
      rw [describe_of_stmt hs]
      exact .failed (fun h => (List.forall_mem_cons.1 h.2.1).1 hseen) rfl
    · rename_i hseen
      refine ((checkStmt_decides hs hnested).bind fun _ => ih his (i :: seen)).congr ?_
      have hfits : (∃ s', m.stmt i = .ok s' ∧ m.Fits i s') ↔ m.Fits i s := by simp [hs]
      rw [List.nodup_cons, List.forall_mem_cons, List.forall_mem_cons, hfits]
      simp only [List.mem_cons, not_or]
      constructor
      · rintro ⟨hi, hnodup, hfresh, hall⟩
        exact ⟨⟨fun hmem => (hfresh i hmem).1 rfl, hnodup⟩, ⟨hseen, fun j hj => (hfresh j hj).2⟩, hi, hall⟩
      · rintro ⟨⟨hnot, hnodup⟩, ⟨_, hfresh⟩, hi, hall⟩
        exact ⟨hi, hnodup, fun j hj => ⟨fun heq => hnot (heq ▸ hj), hfresh j hj⟩, hall⟩

theorem mem_preorder_iff_inTree (h : (m.outline m.root).Unfolds (m.stmts.linksAt Stmt.nested)) {i : Nat} :
    i ∈ (m.outline m.root).preorder ↔ m.InTree i := by
  rw [h.mem_preorder_iff, InTree, lists_eq, outline, Arena.outline, Arena.index_outlineTo]

namespace Rooted

theorem unfolds (h : m.Rooted) : (m.outline m.root).Unfolds (m.stmts.linksAt Stmt.nested) := by
  obtain ⟨hbound, hacyclic⟩ := h
  unfold InTree at hbound hacyclic
  rw [lists_eq] at hbound hacyclic
  exact m.stmts.unfolds_outline_of_acyclic Stmt.nested hbound hacyclic

theorem mem_preorder_iff (h : m.Rooted) {i : Nat} : i ∈ (m.outline m.root).preorder ↔ m.InTree i :=
  mem_preorder_iff_inTree h.unfolds

theorem check_decides (h : m.Rooted) : Checked.Decides (m.declaredNames.Nodup ∧ (m.outline m.root).preorder.Nodup ∧
    ∀ i, m.InTree i → ∃ s, m.stmt i = .ok s ∧ m.Fits i s) m.check := by
  have hbound : ∀ i ∈ (m.outline m.root).preorder, i < m.stmts.size := fun i hi => h.bound i (h.mem_preorder_iff.1 hi)
  have hstmts : ∀ i ∈ (m.outline m.root).preorder, ∃ s, m.stmt i = .ok s ∧ ∀ j ∈ s.nested, j < m.stmts.size := by
    intro i hi
    obtain ⟨s, hs⟩ := exists_stmt_of_lt (hbound i hi)
    refine ⟨s, hs, fun j hj => h.bound j ((h.mem_preorder_iff.1 hi).tail ?_)⟩
    rw [lists_iff, linksAt_of_stmt hs]
    exact hj
  have hnames : firstRepeat [] m.declaredNames = none ↔ m.declaredNames.Nodup := by simp [firstRepeat_eq_none_iff]
  rw [check]
  split
  · rename_i n hn
    refine .failed (fun hall => ?_) rfl
    rw [hnames.2 hall.1] at hn
    cases hn
  · rename_i hn
    rw [descendants, Arena.reachable_eq_ok hbound, Checked.ok_bind]
    refine (checkStmts_decides hstmts []).congr ?_
    simp only [h.mem_preorder_iff]
    simp [hnames.1 hn, outline]

theorem branching (h : m.Rooted) (hlegal : m.Legal) :
    Outline.Branching (m.stmts.linksAt Stmt.nested) m.InTree where
  closed i j hi hj := hi.tail (lists_iff.2 hj)
  acyclic := by
    rw [← lists_eq]
    exact h.acyclic
  nodup i hi := by
    obtain ⟨s, hs⟩ := exists_stmt_of_lt (h.bound i hi)
    rw [linksAt_of_stmt hs]
    cases s with
    | block b => exact hlegal.listed_once i b hi hs
    | yield y => exact List.nodup_nil
    | update r v => exact List.nodup_nil
    | assign x v => exact List.nodup_nil
  parent i i' j hi hi' hj hj' := hlegal.one_parent i i' j hi hi' (lists_iff.2 hj) (lists_iff.2 hj')

end Rooted

theorem isSome_input? {p : String} : (m.input? p).isSome ↔ ∃ port ∈ m.inputs, port.name = p := by
  simp [input?, List.find?_isSome]

theorem Legal.fits (h : m.Legal) {i : Nat} (hi : m.InTree i) {s : Stmt} (hs : m.stmt i = .ok s) : m.Fits i s := by
  cases s with
  | block b =>
    have hmodule := h.module i b hi hs
    have hinterface := h.interface i b
    have hcontainer := h.container i b
    obtain ⟨k, g, ss, id⟩ := b
    cases k with
    | module => exact hmodule rfl
    | interface p => exact isSome_input?.2 (hinterface p hi hs (.inl rfl))
    | interfaceLoop p => exact isSome_input?.2 (hinterface p hi hs (.inr rfl))
    | container => exact fun j hj => hcontainer j hi hs rfl hj
    | conditional => trivial
    | loop exit => trivial
  | yield y => exact h.yield i y hi hs
  | update r v => exact (Listing.contains_iff_mem_keys _ _).2 (h.update i r v hi hs)
  | assign x v => exact (Listing.contains_iff_mem_keys _ _).2 (h.assign i x v hi hs)

theorem Rooted.legal_iff (h : m.Rooted) : m.Legal ↔ m.declaredNames.Nodup ∧ (m.outline m.root).preorder.Nodup ∧
    ∀ i, m.InTree i → ∃ s, m.stmt i = .ok s ∧ m.Fits i s := by
  constructor
  · intro hlegal
    have hroot : m.InTree (m.outline m.root).index := h.mem_preorder_iff.1 (Outline.index_mem_preorder _)
    refine ⟨hlegal.names, (h.branching hlegal).nodup_preorder h.unfolds hroot, ?_⟩
    intro i hi
    obtain ⟨s, hs⟩ := exists_stmt_of_lt (h.bound i hi)
    exact ⟨s, hs, hlegal.fits hi hs⟩
  · rintro ⟨hnames, hnodup, hall⟩
    have hbranching := h.unfolds.branching hnodup
    have hfits : ∀ i s, m.InTree i → m.stmt i = .ok s → m.Fits i s := by
      intro i s hi hs
      obtain ⟨s', hs', hfits⟩ := hall i hi
      obtain rfl := Except.ok.inj (hs.symm.trans hs')
      exact hfits
    refine ⟨hnames, ?_, ?_, ?_, ?_, ?_, ?_, ?_, ?_⟩
    · intro i b hi hb
      have hlinks := hbranching.nodup i (h.mem_preorder_iff.2 hi)
      rwa [linksAt_of_stmt hb] at hlinks
    · intro i i' j hi hi' hj hj'
      exact hbranching.parent i i' j (h.mem_preorder_iff.2 hi) (h.mem_preorder_iff.2 hi') (lists_iff.1 hj)
        (lists_iff.1 hj')
    · intro i b hi hb hkind
      have hplace := hfits i _ hi hb
      simp only [Fits, hkind] at hplace
      exact hplace
    · intro i b p hi hb hkind
      have hplace := hfits i _ hi hb
      rcases hkind with hkind | hkind
      · simp only [Fits, hkind] at hplace
        exact isSome_input?.1 hplace
      · simp only [Fits, hkind] at hplace
        exact isSome_input?.1 hplace
    · intro i b j hi hb hkind hj
      have hplace := hfits i _ hi hb
      simp only [Fits, hkind] at hplace
      exact hplace j hj
    · intro i y hi hy
      exact hfits i _ hi hy
    · intro i r v hi hs
      exact (Listing.contains_iff_mem_keys _ _).1 (hfits i _ hi hs)
    · intro i x v hi hs
      exact (Listing.contains_iff_mem_keys _ _).1 (hfits i _ hi hs)

end Module

/-- A draft without circles is finished if it is legal, and else rejected for its structure. -/
theorem finish_iff_legal {d : Draft} {top : List Nat} (h : (d.enclose top).Rooted) :
    (d.finish top = .ok (d.enclose top) ↔ (d.enclose top).Legal) ∧
      (¬ (d.enclose top).Legal → ∃ cause, d.finish top = .error (.rejected cause) ∧
        cause.diagnostic.category = .malformedStructure) := by
  have hdecides := h.check_decides.congr h.legal_iff.symm
  rw [Draft.finish]
  generalize (d.enclose top).check = x at hdecides
  cases hdecides with
  | passed hlegal => exact ⟨⟨fun _ => hlegal, fun _ => rfl⟩, fun hnot => absurd hlegal hnot⟩
  | failed hnot hcause =>
    exact ⟨⟨fun hok => absurd hok (by simp), fun hlegal => absurd hlegal hnot⟩, fun _ => ⟨_, rfl, hcause⟩⟩

/-- An interface whose data are counted in one branch and passed on in another. -/
def forked : Draft where
  name := "forked"
  registers := .ofList [("count", ⟨.uint 8, 0⟩)]
  vars := .ofList [("seen", .uint 1)]
  inputs := [⟨"din", .uint 8⟩]
  outputs := [⟨"dout", .uint 8⟩]
  stmts := .ofList [.update "count" (.literal 1 (.uint 8)), .assign "seen" (.literal 1 (.uint 1)),
    Draft.conditional (.flag "c") [0, 1], Draft.emit [some (.operand ⟨"din", .port, .held, .uint 8⟩)],
    Draft.conditional (.flag "d") [3], Draft.container [2, 4], Draft.interface "din" [5]]

/-- The draft is finished, unless the container is listed a second time. -/
theorem forked_finished : (forked.enclose [6]).Rooted ∧ forked.finish [6] = .ok (forked.enclose [6]) ∧
    (forked.enclose [6]).Legal ∧ (forked.enclose [6, 5]).Rooted ∧ ¬ (forked.enclose [6, 5]).Legal ∧
    forked.finish [6, 5] = .error (.rejected (.sharedStatement "ContainerBlock #5")) ∧
    ∃ cause, forked.finish [6, 5] = .error (.rejected cause) ∧ cause.diagnostic.category = .malformedStructure := by
  have hrooted : (forked.enclose [6]).Rooted := .of_descending (by decide) (by decide)
  have hrooted' : (forked.enclose [6, 5]).Rooted := .of_descending (by decide) (by decide)
  have hok : forked.finish [6] = .ok (forked.enclose [6]) := by decide +kernel
  have hshared : forked.finish [6, 5] = .error (.rejected (.sharedStatement "ContainerBlock #5")) := by decide +kernel
  have hillegal : ¬ (forked.enclose [6, 5]).Legal := by
    intro hlegal
    have hok' := (finish_iff_legal hrooted').1.2 hlegal
    rw [hshared] at hok'
    cases hok'
  exact ⟨hrooted, hok, (finish_iff_legal hrooted).1.1 hok, hrooted', hillegal, hshared,
    (finish_iff_legal hrooted').2 hillegal⟩

end Sequencer
