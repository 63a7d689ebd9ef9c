import Mathlib.Logic.Function.Basic
import Sequencer.Comb.Basic
import Sequencer.Proofs.Expr.Leaves
import Sequencer.Proofs.Listing

set_option autoImplicit false

/-!
# Execution of combinational logic

A tree runs from top to bottom: a block whose guard holds drives its defaults in order and then runs its statements, and
the last drive of a signal wins. A view says what expressions read after what has been driven so far. If they all read
one valuation, the value left on a signal is that of the last drive that is reached.
-/

namespace Sequencer

namespace Comb

/-- What has been driven so far, by signal. -/
abbrev Store (V : Type) := String → Option V

section Execution

variable {V : Type} (I : Interpretation V) (view : Store V → Valuation V)

def Assign.exec (a : Assign) (σ : Store V) : Store V :=
  match a.val with
  | none => σ
  | some e => Function.update σ a.target (some (e.eval I (view σ)))

def execAssigns (as : List Assign) (σ : Store V) : Store V := as.foldl (fun σ a => a.exec I view σ) σ

mutual
def Stmt.exec : Stmt → Store V → Store V
  | .assign a, σ => a.exec I view σ
  | .block g ds ss, σ => if Cond.holds I (view σ) g then Stmt.execAll ss (execAssigns I view ds.assigns σ) else σ
def Stmt.execAll : List Stmt → Store V → Store V
  | [], σ => σ
  | s :: ss, σ => Stmt.execAll ss (s.exec σ)
end

/-- What a tree leaves on each signal. -/
def Block.run (b : Block) : Store V := b.toStmt.exec I view fun _ => none

theorem Stmt.execAll_append (ss ts : List Stmt) (σ : Store V) :
    Stmt.execAll I view (ss ++ ts) σ = Stmt.execAll I view ts (Stmt.execAll I view ss σ) := by
  induction ss generalizing σ with
  | nil => rfl
  | cons s ss ih => exact ih _

theorem Stmt.execAll_assigns (as : List Assign) (σ : Store V) :
    Stmt.execAll I view (as.map .assign) σ = execAssigns I view as σ := by
  induction as generalizing σ with
  | nil => rfl
  | cons a as ih => exact ih _

section Map

variable {I view} {view' : Store V → Valuation V} {f : Expr → Expr}

theorem Assign.exec_map (h : ∀ σ e, (f e).eval I (view' σ) = e.eval I (view σ)) (a : Assign) (σ : Store V) :
    Assign.exec I view' ⟨a.target, a.drive.map f⟩ σ = a.exec I view σ := by
  obtain ⟨target, val, width⟩ := a
  cases val with
  | none => rfl
  | some e => exact congrArg (fun v => Function.update σ target (some v)) (h σ e)

theorem execAssigns_map (h : ∀ σ e, (f e).eval I (view' σ) = e.eval I (view σ)) (ds : Defaults) (σ : Store V) :
    execAssigns I view' (Defaults.assigns (ds.map (Drive.map f))) σ = execAssigns I view ds.assigns σ := by
  rw [Defaults.assigns, Defaults.assigns, Listing.entries_map]
  induction ds.entries generalizing σ with
  | nil => rfl
  | cons e es ih =>
    have hhead := Assign.exec_map h ⟨e.1, e.2⟩ σ
    rw [List.map_cons, List.map_cons, List.map_cons, execAssigns, execAssigns, List.foldl_cons, List.foldl_cons]
    exact hhead ▸ ih _

mutual
theorem Stmt.exec_mapExprs (h : ∀ σ e, (f e).eval I (view' σ) = e.eval I (view σ)) : (s : Stmt) →
    ∀ σ : Store V, (s.mapExprs f).exec I view' σ = s.exec I view σ
  | .assign a, σ => a.exec_map h σ
  | .block g ds ss, σ => by
    have hguard : Cond.holds I (view' σ) (g.map f) = Cond.holds I (view σ) g := by
      cases g with
      | none => rfl
      | some e => exact congrArg I.truth (h σ e)
    rw [mapExprs, exec, exec, hguard, execAssigns_map h, execAll_mapExprsAll h ss]
theorem Stmt.execAll_mapExprsAll (h : ∀ σ e, (f e).eval I (view' σ) = e.eval I (view σ)) : (ss : List Stmt) →
    ∀ σ : Store V, Stmt.execAll I view' (Stmt.mapExprsAll f ss) σ = Stmt.execAll I view ss σ
  | [], _ => rfl
  | s :: ss, σ => by rw [mapExprsAll, execAll, execAll, exec_mapExprs h s, execAll_mapExprsAll h ss]
end

/-- A change of the expressions that keeps their values keeps what a tree leaves on each signal. -/
theorem Block.run_mapExprs (h : ∀ σ e, (f e).eval I (view' σ) = e.eval I (view σ)) (b : Block) :
    (b.mapExprs f).run I view' = b.run I view :=
  Stmt.exec_mapExprs h b.toStmt _

end Map

end Execution

section Final

variable {V : Type} (I : Interpretation V) (ρ : Valuation V) (t : String)

def Drive.final (d : Drive) : Option V := d.val.map (Expr.eval I ρ)

def Assign.final (a : Assign) : Option V := if a.target = t then a.drive.final I ρ else none

def Defaults.final (ds : Defaults) : Option V := (ds.get? t).bind (Drive.final I ρ)

mutual
/-- The value that a statement leaves on `t`, if it drives it. -/
def Stmt.final : Stmt → Option V
  | .assign a => a.final I ρ t
  | .block g ds ss => if Cond.holds I ρ g then (Stmt.finalAll ss).or (ds.final I ρ t) else none
def Stmt.finalAll : List Stmt → Option V
  | [] => none
  | s :: ss => (Stmt.finalAll ss).or s.final
end

/-- The value that a block whose guard holds leaves on `t`. -/
def Block.body (b : Block) : Option V := (Stmt.finalAll I ρ t b.stmts).or (b.dflts.final I ρ t)

@[simp] theorem Block.body_of (g : Cond) (ss : List Stmt) : (Block.of g ss).body I ρ t = Stmt.finalAll I ρ t ss :=
  Option.or_none

theorem Block.final_toStmt (b : Block) :
    b.toStmt.final I ρ t = if Cond.holds I ρ b.guard then b.body I ρ t else none := rfl

theorem Stmt.finalAll_append (ss ts : List Stmt) :
    Stmt.finalAll I ρ t (ss ++ ts) = (Stmt.finalAll I ρ t ts).or (Stmt.finalAll I ρ t ss) := by
  induction ss with
  | nil => simp [finalAll]
  | cons s ss ih => rw [List.cons_append, finalAll, finalAll, ih, Option.or_assoc]

theorem Stmt.finalAll_singleton (s : Stmt) : Stmt.finalAll I ρ t [s] = s.final I ρ t := rfl

theorem Assign.exec_fixed (a : Assign) (σ : Store V) : a.exec I (fun _ => ρ) σ t = (a.final I ρ t).or (σ t) := by
  obtain ⟨target, val, width⟩ := a
  cases val with
  | none => simp [exec, Assign.val, Assign.final, Drive.final]
  | some e =>
    by_cases ht : target = t
    · subst ht
      simp [exec, Assign.val, Assign.final, Drive.final]
    · have hne : t ≠ target := fun h => ht h.symm
      simp [exec, Assign.val, Assign.final, ht, Function.update_of_ne hne]

theorem Stmt.finalAll_assigns_eq_none (as : List Assign) (h : ∀ a ∈ as, a.target ≠ t) :
    Stmt.finalAll I ρ t (as.map .assign) = none := by
  induction as with
  | nil => rfl
  | cons a as ih =>
    obtain ⟨ha, has⟩ := List.forall_mem_cons.1 h
    rw [List.map_cons, finalAll, ih has, final, Assign.final, if_neg ha, Option.none_or]

/-- Assignments of one value leave that value. -/
theorem Stmt.finalAll_assigns_const {as : List Assign} {v : V} (h : ∀ a ∈ as, a.drive.final I ρ = some v)
    (ht : ∃ a ∈ as, a.target = t) : Stmt.finalAll I ρ t (as.map .assign) = some v := by
  induction as with
  | nil =>
    obtain ⟨a, ha, _⟩ := ht
    cases ha
  | cons a as ih =>
    obtain ⟨ha, has⟩ := List.forall_mem_cons.1 h
    rw [List.map_cons, finalAll]
    by_cases hrest : ∃ x ∈ as, x.target = t
    · rw [ih has hrest, Option.some_or]
    · obtain ⟨x, hx, hxt⟩ := ht
      have hax : a.target = t := by
        rcases List.mem_cons.1 hx with rfl | hx
        · exact hxt
        · exact absurd ⟨x, hx, hxt⟩ hrest
      rw [finalAll_assigns_eq_none I ρ t as fun y hy hyt => hrest ⟨y, hy, hyt⟩, Option.none_or, final, Assign.final,
        if_pos hax, ha]

/-- The defaults of a block have the same effect as assignments at its top. -/
theorem Stmt.finalAll_assigns (ds : Defaults) :
    Stmt.finalAll I ρ t (ds.assigns.map .assign) = ds.final I ρ t := by
  cases hget : ds.get? t with
  | none =>
    rw [Defaults.final, hget]
    refine finalAll_assigns_eq_none I ρ t _ ?_
    intro a ha hat
    obtain ⟨e, he, rfl⟩ := List.mem_map.1 ha
    exact Listing.get?_eq_none_iff.1 hget (hat ▸ List.mem_map_of_mem he)
  | some d =>
    obtain ⟨pre, post, hes⟩ := List.append_of_mem ((ds.get?_eq_some_iff t d).1 hget)
    have hnodup := ds.nodup
    rw [hes, List.map_append, List.map_cons] at hnodup
    have hpost : Stmt.finalAll I ρ t ((post.map fun e => (⟨e.1, e.2⟩ : Assign)).map .assign) = none := by
      refine finalAll_assigns_eq_none I ρ t _ ?_
      intro a ha hat
      obtain ⟨e, he, rfl⟩ := List.mem_map.1 ha
      have hmem : t ∈ post.map Prod.fst := hat ▸ List.mem_map_of_mem he
      exact (List.nodup_cons.1 (List.nodup_append.1 hnodup).2.1).1 hmem
    have hpre : Stmt.finalAll I ρ t ((pre.map fun e => (⟨e.1, e.2⟩ : Assign)).map .assign) = none := by
      refine finalAll_assigns_eq_none I ρ t _ ?_
      intro a ha hat
      obtain ⟨e, he, rfl⟩ := List.mem_map.1 ha
      have hmem : t ∈ pre.map Prod.fst := hat ▸ List.mem_map_of_mem he
      exact (List.nodup_append.1 hnodup).2.2 t hmem t List.mem_cons_self rfl
    rw [Defaults.assigns, hes, List.map_append, List.map_append, finalAll_append, hpre, Option.or_none, List.map_cons,
      List.map_cons, finalAll, hpost, Option.none_or, Defaults.final, hget]
    exact if_pos rfl

theorem execAssigns_fixed (as : List Assign) (σ : Store V) :
    execAssigns I (fun _ => ρ) as σ t = (Stmt.finalAll I ρ t (as.map .assign)).or (σ t) := by
  induction as generalizing σ with
  | nil => rfl
  | cons a as ih =>
    rw [List.map_cons, Stmt.finalAll, Option.or_assoc, Stmt.final, ← Assign.exec_fixed]
    exact ih _

mutual
theorem Stmt.exec_fixed : (s : Stmt) → ∀ σ : Store V, s.exec I (fun _ => ρ) σ t = (s.final I ρ t).or (σ t)
  | .assign a, σ => a.exec_fixed I ρ t σ
  | .block g ds ss, σ => by
    rw [exec, final]
    split
    · rw [execAll_fixed ss, execAssigns_fixed, finalAll_assigns, Option.or_assoc]
    · rfl
theorem Stmt.execAll_fixed : (ss : List Stmt) → ∀ σ : Store V,
    Stmt.execAll I (fun _ => ρ) ss σ t = (Stmt.finalAll I ρ t ss).or (σ t)
  | [], _ => rfl
  | s :: ss, σ => by rw [execAll, execAll_fixed ss, exec_fixed s, finalAll, Option.or_assoc]
end

theorem Block.run_fixed (b : Block) (h : b.guard = none) : b.run I (fun _ => ρ) t = b.body I ρ t := by
  rw [run, Stmt.exec_fixed, final_toStmt, h, Cond.holds_none, if_pos rfl, Option.or_none]

theorem Defaults.final_eq_none {ds : Defaults} (h : t ∉ ds.keys) : ds.final I ρ t = none := by
  rw [final, Listing.get?_eq_none_iff.2 h, Option.bind_none]

mutual
theorem Stmt.final_eq_none : (s : Stmt) → t ∉ s.targets → s.final I ρ t = none
  | .assign a, h => if_neg fun ha => h (by simp [targets, ha])
  | .block g ds ss, h => by
    rw [targets, List.mem_append, not_or] at h
    rw [final, finalAll_eq_none ss h.2, Defaults.final_eq_none I ρ t h.1, Option.none_or, ite_self]
theorem Stmt.finalAll_eq_none : (ss : List Stmt) → t ∉ Stmt.targetsAll ss → Stmt.finalAll I ρ t ss = none
  | [], _ => rfl
  | s :: ss, h => by
    rw [targetsAll, List.mem_append, not_or] at h
    rw [finalAll, finalAll_eq_none ss h.2, final_eq_none s h.1, Option.none_or]
end

end Final

section Parts

variable (P : Assign → Prop) (Q : Expr → Prop)

def Defaults.Satisfies (ds : Defaults) : Prop := ∀ e ∈ ds.entries, P ⟨e.1, e.2⟩

mutual
/-- All assignments satisfy `P` and all guards satisfy `Q`. -/
def Stmt.Satisfies : Stmt → Prop
  | .assign a => P a
  | .block g ds ss => (∀ e, g = some e → Q e) ∧ ds.Satisfies P ∧ Stmt.SatisfiesAll ss
def Stmt.SatisfiesAll : List Stmt → Prop
  | [] => True
  | s :: ss => s.Satisfies ∧ Stmt.SatisfiesAll ss
end

def Block.Satisfies (b : Block) : Prop := b.toStmt.Satisfies P Q

variable {P Q}

theorem Block.satisfies_of {g : Cond} {ss : List Stmt} (hguard : ∀ e, g = some e → Q e)
    (hss : Stmt.SatisfiesAll P Q ss) : (Block.of g ss).Satisfies P Q :=
  ⟨hguard, fun _ he => absurd he List.not_mem_nil, hss⟩

theorem Stmt.satisfiesAll_iff {ss : List Stmt} : Stmt.SatisfiesAll P Q ss ↔ ∀ s ∈ ss, s.Satisfies P Q := by
  induction ss with
  | nil => simp [SatisfiesAll]
  | cons s ss ih => simp [SatisfiesAll, ih]

theorem Stmt.satisfiesAll_append {ss ts : List Stmt} :
    Stmt.SatisfiesAll P Q (ss ++ ts) ↔ Stmt.SatisfiesAll P Q ss ∧ Stmt.SatisfiesAll P Q ts := by
  simp only [satisfiesAll_iff, List.forall_mem_append]

mutual
theorem Stmt.Satisfies.mono {P' : Assign → Prop} {Q' : Expr → Prop} (hP : ∀ a, P a → P' a) (hQ : ∀ e, Q e → Q' e) :
    (s : Stmt) → s.Satisfies P Q → s.Satisfies P' Q'
  | .assign a, h => hP a h
  | .block _ _ ss, ⟨hg, hds, hss⟩ =>
    ⟨fun e he => hQ e (hg e he), fun e he => hP _ (hds e he), SatisfiesAll.mono hP hQ ss hss⟩
theorem Stmt.SatisfiesAll.mono {P' : Assign → Prop} {Q' : Expr → Prop} (hP : ∀ a, P a → P' a) (hQ : ∀ e, Q e → Q' e) :
    (ss : List Stmt) → Stmt.SatisfiesAll P Q ss → Stmt.SatisfiesAll P' Q' ss
  | [], h => h
  | s :: ss, ⟨hs, hss⟩ => ⟨Satisfies.mono hP hQ s hs, SatisfiesAll.mono hP hQ ss hss⟩
end

theorem Block.Satisfies.mono {P' : Assign → Prop} {Q' : Expr → Prop} (hP : ∀ a, P a → P' a) (hQ : ∀ e, Q e → Q' e)
    {b : Block} (h : b.Satisfies P Q) : b.Satisfies P' Q' := Stmt.Satisfies.mono hP hQ b.toStmt h

mutual
theorem Stmt.exists_of_mem_targets {t : String} : (s : Stmt) → s.Satisfies P Q → t ∈ s.targets → ∃ a, P a ∧ a.target = t
  | .assign a, h, ht => ⟨a, h, (List.mem_singleton.1 ht).symm⟩
  | .block _ ds ss, ⟨_, hds, hss⟩, ht => by
    rw [targets, List.mem_append] at ht
    rcases ht with ht | ht
    · obtain ⟨e, he, rfl⟩ := List.mem_map.1 ht
      exact ⟨_, hds e he, rfl⟩
    · exact exists_of_mem_targetsAll ss hss ht
theorem Stmt.exists_of_mem_targetsAll {t : String} : (ss : List Stmt) → Stmt.SatisfiesAll P Q ss →
    t ∈ Stmt.targetsAll ss → ∃ a, P a ∧ a.target = t
  | [], _, ht => absurd ht List.not_mem_nil
  | s :: ss, ⟨hs, hss⟩, ht => by
    rw [targetsAll, List.mem_append] at ht
    rcases ht with ht | ht
    · exact exists_of_mem_targets s hs ht
    · exact exists_of_mem_targetsAll ss hss ht
end

mutual
theorem Stmt.satisfies_true : (s : Stmt) → s.Satisfies (fun _ => True) (fun _ => True)
  | .assign _ => trivial
  | .block _ _ ss => ⟨fun _ _ => trivial, fun _ _ => trivial, satisfiesAll_true ss⟩
theorem Stmt.satisfiesAll_true : (ss : List Stmt) → Stmt.SatisfiesAll (fun _ => True) (fun _ => True) ss
  | [] => trivial
  | s :: ss => ⟨satisfies_true s, satisfiesAll_true ss⟩
end

theorem Block.satisfies_true (b : Block) : b.Satisfies (fun _ => True) (fun _ => True) := b.toStmt.satisfies_true

/-- Statements leave a signal alone that none of their assignments drives. -/
theorem Stmt.SatisfiesAll.finalAll_eq_none {V : Type} (I : Interpretation V) (ρ : Valuation V) {t : String} {ss : List Stmt}
    (h : Stmt.SatisfiesAll P Q ss) (hP : ∀ a, P a → a.target ≠ t) : Stmt.finalAll I ρ t ss = none := by
  refine Stmt.finalAll_eq_none I ρ t ss fun ht => ?_
  obtain ⟨a, ha, hat⟩ := exists_of_mem_targetsAll ss h ht
  exact hP a ha hat

theorem Stmt.satisfiesAll_assigns {as : List Assign} :
    Stmt.SatisfiesAll P Q (as.map .assign) ↔ ∀ a ∈ as, P a := by
  simp [satisfiesAll_iff, Satisfies]

end Parts

end Comb

namespace Valuation

open Comb

variable {V : Type} (I : Interpretation V) (ρ : Valuation V)

/-- Reads see what has been driven so far. -/
def overlay (σ : Store V) : Valuation V where
  operand o := (σ o.signal).getD (ρ.operand o)
  wire w := (σ w.name).getD (ρ.wire w)

theorem eval_overlay {σ : Store V} {e : Expr} (h : ∀ n ∈ e.reads, σ n = none) :
    e.eval I (ρ.overlay σ) = e.eval I ρ := by
  rw [e.reads_eq] at h
  refine e.eval_congr I ?_ ?_
  · intro o ho
    have hσ : σ o.signal = none := h _ (List.mem_flatMap.2 ⟨_, ho, by simp [Expr.reads]⟩)
    simp [overlay, hσ]
  · intro w hw
    have hσ : σ w.name = none := h _ (List.mem_flatMap.2 ⟨_, hw, by simp [Expr.reads]⟩)
    simp [overlay, hσ]

end Valuation

namespace Comb

section Views

variable {V : Type} (I : Interpretation V) (view view' : Store V → Valuation V) (T : List String)

/-- Only signals of `T` are driven. -/
def Store.Within (σ : Store V) : Prop := ∀ n, n ∉ T → σ n = none

/-- Both views give an expression the same value while only signals of `T` are driven. -/
def ViewsAgree (e : Expr) : Prop := ∀ σ : Store V, σ.Within T → e.eval I (view' σ) = e.eval I (view σ)

/-- Drives signals of `T` only, with values that are the same in both views. -/
def Assign.ViewsAgree (a : Assign) : Prop := a.target ∈ T ∧ ∀ e, a.val = some e → Comb.ViewsAgree I view view' T e

variable {I view view' T}

theorem Assign.exec_congr {a : Assign} (ha : a.ViewsAgree I view view' T) {σ : Store V} (hσ : σ.Within T) :
    a.exec I view' σ = a.exec I view σ ∧ (a.exec I view σ).Within T := by
  obtain ⟨hmem, hval⟩ := ha
  unfold exec
  cases h : a.val with
  | none => exact ⟨rfl, hσ⟩
  | some e =>
    refine ⟨congrArg (fun v => Function.update σ a.target (some v)) (hval e h σ hσ), ?_⟩
    intro n hn
    have hne : n ≠ a.target := fun hna => hn (hna ▸ hmem)
    dsimp only
    rw [Function.update_of_ne hne, hσ n hn]

theorem execAssigns_congr {as : List Assign} (has : ∀ a ∈ as, a.ViewsAgree I view view' T) {σ : Store V} (hσ : σ.Within T) :
    execAssigns I view' as σ = execAssigns I view as σ ∧ (execAssigns I view as σ).Within T := by
  induction as generalizing σ with
  | nil => exact ⟨rfl, hσ⟩
  | cons a as ih =>
    obtain ⟨ha, has⟩ := List.forall_mem_cons.1 has
    obtain ⟨heq, hwithin⟩ := Assign.exec_congr ha hσ
    obtain ⟨heq', hwithin'⟩ := ih has hwithin
    refine ⟨?_, hwithin'⟩
    calc execAssigns I view' (a :: as) σ = execAssigns I view' as (a.exec I view σ) := by rw [← heq]; rfl
      _ = execAssigns I view (a :: as) σ := heq'

mutual
theorem Stmt.exec_congr : (s : Stmt) → s.Satisfies (Assign.ViewsAgree I view view' T) (ViewsAgree I view view' T) →
    ∀ σ : Store V, σ.Within T → s.exec I view' σ = s.exec I view σ ∧ (s.exec I view σ).Within T
  | .assign a, hs, σ, hσ => Assign.exec_congr hs hσ
  | .block g ds ss, ⟨hg, hds, hss⟩, σ, hσ => by
    have hguard : Cond.holds I (view' σ) g = Cond.holds I (view σ) g := by
      cases g with
      | none => rfl
      | some e => exact congrArg I.truth (hg e rfl σ hσ)
    rw [exec, exec, hguard]
    split
    · have hassigns : ∀ a ∈ ds.assigns, a.ViewsAgree I view view' T := by
        intro a ha
        obtain ⟨e, he, rfl⟩ := List.mem_map.1 ha
        exact hds e he
      obtain ⟨heq, hwithin⟩ := execAssigns_congr hassigns hσ
      rw [heq]
      exact execAll_congr ss hss _ hwithin
    · exact ⟨rfl, hσ⟩
theorem Stmt.execAll_congr : (ss : List Stmt) →
    Stmt.SatisfiesAll (Assign.ViewsAgree I view view' T) (ViewsAgree I view view' T) ss →
    ∀ σ : Store V, σ.Within T →
      Stmt.execAll I view' ss σ = Stmt.execAll I view ss σ ∧ (Stmt.execAll I view ss σ).Within T
  | [], _, _, hσ => ⟨rfl, hσ⟩
  | s :: ss, ⟨hs, hss⟩, σ, hσ => by
    obtain ⟨heq, hwithin⟩ := exec_congr s hs σ hσ
    rw [execAll, execAll, heq]
    exact execAll_congr ss hss _ hwithin
end

/-- A tree runs alike under views that agree on its expressions. -/
theorem Block.run_congr {b : Block} (h : b.Satisfies (Assign.ViewsAgree I view view' T) (ViewsAgree I view view' T)) :
    b.run I view' = b.run I view :=
  (Stmt.exec_congr b.toStmt h _ fun _ _ => rfl).1

end Views

variable {V : Type} (I : Interpretation V) (ρ : Valuation V) {T : List String}

/-- Drives signals of `T` only, with values that read none of them. -/
def Assign.Apart (T : List String) (a : Assign) : Prop :=
  a.target ∈ T ∧ ∀ e, a.val = some e → e.Avoids T

/-- A tree that reads none of its targets runs alike whether reads see what it drives or not. -/
theorem Block.run_overlay {b : Block} (h : b.Satisfies (Assign.Apart T) (Expr.Avoids T)) :
    b.run I ρ.overlay = b.run I fun _ => ρ := by
  have hagree : ∀ e : Expr, e.Avoids T → ViewsAgree I (fun _ => ρ) ρ.overlay T e :=
    fun e he σ hσ => ρ.eval_overlay I fun n hn => hσ n (he n hn)
  exact Block.run_congr (h.mono (fun a ha => ⟨ha.1, fun e he => hagree e (ha.2 e he)⟩) hagree)

end Comb

end Sequencer
