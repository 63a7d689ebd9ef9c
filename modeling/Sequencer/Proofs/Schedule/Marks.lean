import Sequencer.Proofs.Schedule.Staged

set_option autoImplicit false

/-!
# Marked reads

Numbering changes ids and nothing else. Marking makes the reads of a statement see the registers that are updated before
it, also if the update stands in a conditional that may be skipped.
-/

namespace Sequencer

open Control Checked

theorem Expr.afterWrites_nil (e : Expr) : e.mapOperands (Operand.afterWrites []) = e := by
  have hid : Operand.afterWrites [] = id := by
    funext o
    simp [Operand.afterWrites]
  rw [hid]
  exact e.substitute_self

namespace Control.Stmt

/-- The statement as it reads after updates of the registers in `written`. -/
def after (written : List String) (s : Stmt) : Stmt := s.mapExprs (Expr.mapOperands (Operand.afterWrites written))

theorem after_nil (s : Stmt) : s.after [] = s := by
  have hid : Expr.mapOperands (Operand.afterWrites []) = id := funext Expr.afterWrites_nil
  rw [after, hid]
  cases s with
  | block b =>
    obtain ⟨k, g, ss, id⟩ := b
    cases k <;> simp [mapExprs]
  | yield y => simp [mapExprs]
  | update r v => rfl
  | assign x v => rfl

theorem setId_after (n : Nat) (written : List String) (s : Stmt) : (s.after written).setId n = (s.setId n).after written := by
  cases s <;> rfl

theorem setId_setId (n k : Nat) (s : Stmt) : (s.setId k).setId n = s.setId n := by
  cases s <;> rfl

end Control.Stmt

namespace Module

/-- The statement of `m'` at `i` is that of `m`, ids apart. -/
def SameAt (m m' : Module) (i : Nat) : Prop :=
  ∀ s', m'.stmt i = .ok s' → ∃ s, m.stmt i = .ok s ∧ s'.setId 0 = s.setId 0

theorem SameAt.of_eq {m m' : Module} {i : Nat} (h : m'.stmt i = m.stmt i) : SameAt m m' i :=
  fun s hs => ⟨s, h ▸ hs, rfl⟩

theorem SameAt.trans {m m' m'' : Module} {i : Nat} (h : SameAt m m' i) (h' : SameAt m' m'' i) : SameAt m m'' i := by
  intro s'' hs''
  obtain ⟨s', hs', heq'⟩ := h' s'' hs''
  obtain ⟨s, hs, heq⟩ := h s' hs'
  exact ⟨s, hs, heq'.trans heq⟩

end Module

namespace Numbering

/-- A relation that the steps of numbering keep. -/
structure Kept (R : Numbering → Numbering → Prop) : Prop where
  refl : ∀ n, R n n
  trans : ∀ n n' n'', R n n' → R n' n'' → R n n''
  number : ∀ i, Keeps R (Numbering.number i)
  setStates : ∀ i states, Keeps R (Numbering.setStates i states)
  newState : Keeps R Numbering.newState

section

variable {R : Numbering → Numbering → Prop} (hR : Kept R)

include hR

theorem keeps_numberAll (is : List Nat) : Keeps R (numberAll is) := by
  induction is with
  | nil => exact .pure hR.refl _
  | cons i is ih => exact .bind hR.trans (hR.number i) fun _ => ih

theorem keeps_segment (i : Nat) : Keeps R (segment i) := by
  intro n seg n' h
  rw [(segment_eq_ok h).2]
  exact hR.refl n

mutual
theorem keeps_visit : (o : Outline) → ∀ entry, Keeps R (visit entry o)
  | .node i os, entry => by
    refine .bind hR.trans (hR.setStates i _) fun _ => .bind hR.trans (keeps_segment hR i) fun seg =>
      .bind hR.trans (keeps_numberAll hR _) fun _ => ?_
    cases seg.kind with
    | leaf => exact keeps_numberAll hR _
    | seq | mutex => exact keeps_visitChildren os i _ entry
theorem keeps_visitChildren : (os : List Outline) → ∀ i kind entry, Keeps R (visitChildren i kind entry os)
  | [], _, _, _ => .pure hR.refl _
  | o :: os, i, kind, entry => by
    have hmerge : Keeps R (mergeStates i o.index) := .bind hR.trans (keeps_segment hR _) fun _ =>
      .bind hR.trans (keeps_segment hR _) fun _ => hR.setStates _ _
    refine .bind hR.trans (keeps_visit o entry) fun _ => .bind hR.trans hmerge fun _ => ?_
    split
    · exact .bind hR.trans hR.newState fun e => keeps_visitChildren os i kind e
    · exact .bind hR.trans (.pure hR.refl _) fun e => keeps_visitChildren os i kind e
end

theorem kept_run {m : Module} {s : Schedule} {n : Numbering} (h : run m s = .ok n) : R ⟨m, s, 0, 0⟩ n := by
  obtain ⟨⟨⟨⟩, n'⟩, hvisit, hn⟩ := bind_eq_ok.1 h
  cases hn
  exact keeps_visit hR _ _ _ _ _ hvisit

end

/-- The same statements, ids apart. -/
def Same (n n' : Numbering) : Prop := ∀ i, n.module.SameAt n'.module i

theorem Same.refl (n : Numbering) : Same n n := fun _ => .of_eq rfl

theorem keeps_same_number (i : Nat) : Keeps Same (number i) := by
  intro n _ n' h
  rw [number, bind_eq_ok] at h
  obtain ⟨s, hs, h⟩ := h
  have hset : ∀ {stmts : Arena Stmt}, n.module.stmts.set i (s.setId n.nextId) = .ok stmts →
      ∀ j, n.module.SameAt { n.module with stmts := stmts } j := by
    intro stmts hstmts j t ht
    have ht : stmts.get j = .ok t := ht
    rw [Arena.get_eq_ok_iff, (Arena.set_eq_ok hstmts).2 j] at ht
    split at ht
    · rename_i hji
      cases ht
      exact ⟨s, hji ▸ hs, Stmt.setId_setId 0 _ s⟩
    · exact ⟨t, (Arena.get_eq_ok_iff _ _ _).2 ht, rfl⟩
  cases s with
  | block b | yield y =>
    obtain ⟨stmts, hstmts, h⟩ := bind_eq_ok.1 h
    cases h
    exact hset hstmts
  | update r v | assign x v =>
    cases h
    exact .refl n

theorem kept_same : Kept Same where
  refl := .refl
  trans _ _ _ h h' i := (h i).trans (h' i)
  number := keeps_same_number
  setStates i states := by
    intro n _ n' h
    obtain ⟨s, _, h⟩ := bind_eq_ok.1 h
    cases h
    exact fun _ => .of_eq rfl
  newState := by
    intro n _ n' h
    cases h
    exact fun _ => .of_eq rfl

theorem run_same {m : Module} {s : Schedule} {n : Numbering} (h : run m s = .ok n) (i : Nat) : m.SameAt n.module i :=
  kept_run kept_same h i

end Numbering

namespace Module

mutual
/-- The statement of `m'` at the top of an outline is that of `m` after updates of `written`, ids apart, and so on for
those below it. All of them together leave `out` updated. -/
def Marked (m m' : Module) (written : List String) : Outline → List String → Prop
  | .node i os, out => ∃ s s', m.stmt i = .ok s ∧ m'.stmt i = .ok s' ∧ s'.setId 0 = (s.after written).setId 0 ∧
    match s with
    | .update r _ => out = r :: written
    | .block _ => MarkedAll m m' written os out
    | _ => out = written
def MarkedAll (m m' : Module) (written : List String) : List Outline → List String → Prop
  | [], out => out = written
  | o :: os, out => ∃ mid, Marked m m' written o mid ∧ MarkedAll m m' mid os out
end

mutual
theorem Marked.congr {m m' m'' : Module} : (o : Outline) → (∀ i ∈ o.preorder, m''.stmt i = m'.stmt i) →
    ∀ {written out}, Marked m m' written o out → Marked m m'' written o out
  | .node i os, hsame, written, out, h => by
    rw [Outline.preorder_eq] at hsame
    obtain ⟨s, s', hs, hs', heq, hout⟩ := h
    refine ⟨s, s', hs, (hsame i List.mem_cons_self).trans hs', heq, ?_⟩
    cases s with
    | block b => exact MarkedAll.congr os (fun j hj => hsame j (List.mem_cons_of_mem _ hj)) hout
    | yield y | update r v | assign x v => exact hout
theorem MarkedAll.congr {m m' m'' : Module} : (os : List Outline) →
    (∀ i ∈ os.flatMap Outline.preorder, m''.stmt i = m'.stmt i) →
    ∀ {written out}, MarkedAll m m' written os out → MarkedAll m m'' written os out
  | [], _, _, _, h => h
  | o :: os, hsame, written, out, h => by
    rw [List.flatMap_cons, List.forall_mem_append] at hsame
    obtain ⟨mid, ho, hos⟩ := h
    exact ⟨mid, Marked.congr o hsame.1 ho, MarkedAll.congr os hsame.2 hos⟩
end

namespace Marking

theorem mark_self {written : List String} {i : Nat} {m m' : Module} (h : mark written i m = .ok ((), m')) {s' : Stmt}
    (hs' : m'.stmt i = .ok s') : ∃ s, m.stmt i = .ok s ∧ s' = s.after written := by
  unfold mark at h
  split at h
  · rename_i hempty
    cases h
    rw [List.isEmpty_iff] at hempty
    exact ⟨s', hs', by rw [hempty, Stmt.after_nil]⟩
  · obtain ⟨s, hs, h⟩ := bind_eq_ok.1 h
    obtain ⟨stmts, hstmts, h⟩ := bind_eq_ok.1 h
    cases h
    have hs' : stmts.get i = .ok s' := hs'
    rw [Arena.get_eq_ok_iff, (Arena.set_eq_ok hstmts).2 i, if_pos rfl] at hs'
    cases hs'
    exact ⟨s, hs, rfl⟩

theorem mark_other {written : List String} {i j : Nat} {m m' : Module} (h : mark written i m = .ok ((), m'))
    (hj : j ≠ i) : m'.stmt j = m.stmt j := by
  rcases mark_eq_ok h with rfl | ⟨s, stmts, _, hstmts, rfl⟩
  · rfl
  · obtain ⟨hsize, hget⟩ := Arena.set_eq_ok hstmts
    exact Arena.get_congr hsize (by rw [hget j, if_neg hj])

theorem stmt_eq_ok {i : Nat} {m m' : Module} {s : Stmt} (h : stmt i m = .ok (s, m')) : m.stmt i = .ok s ∧ m' = m := by
  obtain ⟨s', hs', h⟩ := bind_eq_ok.1 h
  cases h
  exact ⟨hs', rfl⟩

theorem lift_eq_ok {α : Type} {x : Checked α} {m m' : Module} {a : α} (h : (liftM x : Marking α) m = .ok (a, m')) :
    x = .ok a ∧ m' = m := by
  cases x with
  | ok b =>
    cases h
    exact ⟨rfl, rfl⟩
  | error e => cases h

mutual
theorem markOutline_marked {m : Module} : (o : Outline) → o.preorder.Nodup → ∀ {written out : List String}
    {m₁ m₂ : Module}, (∀ i ∈ o.preorder, m.SameAt m₁ i) → markOutline written o m₁ = .ok (out, m₂) →
    m.Marked m₂ written o out ∧ ∀ j, j ∉ o.preorder → m₂.stmt j = m₁.stmt j
  | .node i os, hnodup, written, out, m₁, m₂, hsame, h => by
    rw [Outline.preorder_eq] at hnodup hsame ⊢
    obtain ⟨hi, hnodup⟩ := List.nodup_cons.1 hnodup
    obtain ⟨⟨⟩, m', hmark, h₁⟩ := stateT_bind_eq_ok.1 h
    obtain ⟨s', m'', hstmt, h₂⟩ := stateT_bind_eq_ok.1 h₁
    obtain ⟨hs', rfl⟩ := stmt_eq_ok hstmt
    obtain ⟨s₁, hs₁, rfl⟩ := mark_self hmark hs'
    obtain ⟨s, hs, heq⟩ := hsame i List.mem_cons_self s₁ hs₁
    have hother : ∀ j, j ≠ i → m''.stmt j = m₁.stmt j := fun j hj => mark_other hmark hj
    have hids : (s₁.after written).setId 0 = (s.after written).setId 0 := by
      rw [Stmt.setId_after, Stmt.setId_after, heq]
    have hleaf : out = (match s with | .update r _ => r :: written | _ => written) → m₂ = m'' → s.block? = none →
        m.Marked m₂ written (.node i os) out ∧
          ∀ j, j ∉ i :: os.flatMap Outline.preorder → m₂.stmt j = m₁.stmt j := by
      rintro hout rfl hnone
      refine ⟨⟨s, s₁.after written, hs, hs', hids, ?_⟩, fun j hj => hother j (List.ne_of_not_mem_cons hj)⟩
      cases s with
      | block b => cases hnone
      | yield y | update r v | assign x v => exact hout
    cases s₁ with
    | block b₁ =>
      cases s with
      | yield y | update r v | assign x v => cases heq
      | block b =>
        obtain ⟨hmarked, hframe⟩ := markAll_marked os hnodup (fun j hj =>
          (hsame j (List.mem_cons_of_mem _ hj)).trans (.of_eq (hother j fun hji => hi (hji ▸ hj)))) h₂
        refine ⟨⟨.block b, _, hs, (hframe i hi).trans hs', hids, hmarked⟩, fun j hj => ?_⟩
        exact (hframe j fun hmem => hj (List.mem_cons_of_mem _ hmem)).trans (hother j (List.ne_of_not_mem_cons hj))
    | yield y₁ =>
      cases s with
      | block b | update r v | assign x v => cases heq
      | yield y =>
        obtain ⟨hout, hm⟩ := stateT_pure_eq_ok.1 h₂
        exact hleaf hout hm rfl
    | update r₁ v₁ =>
      cases s with
      | block b | yield y | assign x v => cases heq
      | update r v =>
        cases heq
        obtain ⟨hout, hm⟩ := stateT_pure_eq_ok.1 h₂
        exact hleaf hout hm rfl
    | assign x₁ v₁ =>
      cases s with
      | block b | yield y | update r v => cases heq
      | assign x v =>
        obtain ⟨hout, hm⟩ := stateT_pure_eq_ok.1 h₂
        exact hleaf hout hm rfl
theorem markAll_marked {m : Module} : (os : List Outline) → (os.flatMap Outline.preorder).Nodup →
    ∀ {written out : List String} {m₁ m₂ : Module}, (∀ i ∈ os.flatMap Outline.preorder, m.SameAt m₁ i) →
    markAll written os m₁ = .ok (out, m₂) →
    m.MarkedAll m₂ written os out ∧ ∀ j, j ∉ os.flatMap Outline.preorder → m₂.stmt j = m₁.stmt j
  | [], _, written, out, m₁, m₂, _, h => by
    obtain ⟨rfl, rfl⟩ := stateT_pure_eq_ok.1 h
    exact ⟨rfl, fun _ _ => rfl⟩
  | o :: os, hnodup, written, out, m₁, m₂, hsame, h => by
    rw [List.flatMap_cons] at hnodup hsame ⊢
    obtain ⟨ho, hos, hdisj⟩ := List.nodup_append.1 hnodup
    rw [List.forall_mem_append] at hsame
    obtain ⟨mid, m', hhead, htail⟩ := stateT_bind_eq_ok.1 h
    obtain ⟨hmarked, hframe⟩ := markOutline_marked o ho hsame.1 hhead
    obtain ⟨hmarked', hframe'⟩ := markAll_marked os hos (fun i hi =>
      (hsame.2 i hi).trans (.of_eq (hframe i fun hio => hdisj i hio i hi rfl))) htail
    refine ⟨⟨mid, hmarked.congr o fun i hi => hframe' i fun hios => hdisj i hi i hios rfl, hmarked'⟩, fun j hj => ?_⟩
    rw [List.mem_append, not_or] at hj
    exact (hframe' j hj.2).trans (hframe j hj.1)
end

end Marking

end Module

end Sequencer
