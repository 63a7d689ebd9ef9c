import Sequencer.Proofs.Comb.Defaults

set_option autoImplicit false

/-!
# Control signals keep their guards

Propagation moves an assignment of a control signal between statements, defaults and blocks without a guard, but never
out of a guard or into one. So what drives a control signal in the end did so under the same guards before.
-/

namespace Sequencer

theorem Listing.mem_entries_insert {α : Type} {l : Listing α} {k : String} {v : α} {e : String × α}
    (h : e ∈ (l.insert k v).entries) : e ∈ l.entries ∨ e = (k, v) := by
  rw [entries_insert, List.mem_append, List.mem_singleton] at h
  exact h.imp_left fun h => (List.mem_filter.1 h).1

namespace Comb

/-- An assignment and the guards that it is nested in, outermost first. -/
structure Placed where
  guards : List Expr
  assign : Assign
deriving DecidableEq, Repr

/-- One more block around the assignment. A block without a guard adds nothing. -/
def Placed.under (g : Cond) (p : Placed) : Placed := { p with guards := g.toList ++ p.guards }

def Defaults.placed (ds : Defaults) : List Placed := ds.assigns.map fun a => ⟨[], a⟩

mutual
/-- All assignments, defaults before statements, each with the guards around it. -/
def Stmt.placed : Stmt → List Placed
  | .assign a => [⟨[], a⟩]
  | .block g ds ss => (ds.placed ++ Stmt.placedAll ss).map (.under g)
def Stmt.placedAll : List Stmt → List Placed
  | [] => []
  | s :: ss => s.placed ++ Stmt.placedAll ss
end

def Block.placed (b : Block) : List Placed := b.toStmt.placed

theorem Defaults.mem_placed {ds : Defaults} {p : Placed} :
    p ∈ ds.placed ↔ p.guards = [] ∧ (p.assign.target, p.assign.drive) ∈ ds.entries := by
  obtain ⟨guards, target, drive⟩ := p
  simp only [placed, assigns, List.map_map, List.mem_map, Function.comp_apply, Placed.mk.injEq, Assign.mk.injEq]
  constructor
  · rintro ⟨e, he, rfl, rfl, rfl⟩
    exact ⟨rfl, he⟩
  · rintro ⟨rfl, he⟩
    exact ⟨_, he, rfl, rfl, rfl⟩

/-- The assignments of control signals among `after` are among `before`. -/
def KeepsPlaces (control : String → Bool) (before after : List Placed) : Prop :=
  ∀ p ∈ after, control p.assign.target = true → p ∈ before

namespace KeepsPlaces

variable {control : String → Bool} {xs ys zs xs' ys' : List Placed}

theorem of_subset (h : ∀ p ∈ ys, p ∈ xs) : KeepsPlaces control xs ys := fun p hp _ => h p hp

theorem refl (xs : List Placed) : KeepsPlaces control xs xs := of_subset fun _ hp => hp

theorem trans (h : KeepsPlaces control xs ys) (h' : KeepsPlaces control ys zs) : KeepsPlaces control xs zs :=
  fun p hp hc => h p (h' p hp hc) hc

theorem append (h : KeepsPlaces control xs ys) (h' : KeepsPlaces control xs' ys') :
    KeepsPlaces control (xs ++ xs') (ys ++ ys') := by
  intro p hp hc
  rcases List.mem_append.1 hp with hp | hp
  · exact List.mem_append_left _ (h p hp hc)
  · exact List.mem_append_right _ (h' p hp hc)

theorem insert (h : KeepsPlaces control (xs ++ xs') (ys ++ ys')) (zs : List Placed) :
    KeepsPlaces control (xs ++ (zs ++ xs')) (ys ++ (zs ++ ys')) := by
  intro p hp hc
  rw [List.mem_append, List.mem_append] at hp ⊢
  rcases hp with hp | hp | hp
  · exact (List.mem_append.1 (h p (List.mem_append_left _ hp) hc)).imp_right .inr
  · exact .inr (.inl hp)
  · exact (List.mem_append.1 (h p (List.mem_append_right _ hp) hc)).imp_right .inr

theorem under (h : KeepsPlaces control xs ys) (g : Cond) :
    KeepsPlaces control (xs.map (.under g)) (ys.map (.under g)) := by
  intro p hp hc
  obtain ⟨q, hq, rfl⟩ := List.mem_map.1 hp
  exact List.mem_map_of_mem (h q hq hc)

end KeepsPlaces

section Hoist

variable {control : String → Bool}

theorem Exchange.mem_outer_run {stays : String → Drive → Bool} {x : Exchange} {es : List (String × Drive)}
    {e : String × Drive} (h : e ∈ (run stays x es).outer.entries) :
    e ∈ x.outer.entries ∨ e ∈ es ∧ stays e.1 e.2 = false := by
  induction es generalizing x with
  | nil => exact .inl h
  | cons e' es ih =>
    rw [run_cons] at h
    rcases ih h with h | ⟨hmem, hstays⟩
    · rcases step_cases stays x e'.1 e'.2 with hkeep | ⟨hstays, outer, htake, hmove⟩
      · rw [hkeep] at h
        exact .inl h
      · rw [hmove] at h
        rcases take?_eq_some htake with ⟨_, _, _, rfl⟩ | ⟨_, rfl⟩
        · exact .inl h
        · rcases Listing.mem_entries_insert h with h | rfl
          · exact .inl h
          · exact .inr ⟨List.mem_cons_self, hstays⟩
    · exact .inr ⟨List.mem_cons_of_mem _ hmem, hstays⟩

theorem Exchange.mem_inner_run {stays : String → Drive → Bool} {x : Exchange} {es : List (String × Drive)}
    {e : String × Drive} (h : e ∈ (run stays x es).inner.entries) : e ∈ x.inner.entries ∨ e ∈ es := by
  induction es generalizing x with
  | nil => exact .inl h
  | cons e' es ih =>
    rw [run_cons] at h
    rcases ih h with h | h
    · rcases step_cases stays x e'.1 e'.2 with hkeep | ⟨_, outer, _, hmove⟩
      · rw [hkeep] at h
        rcases Listing.mem_entries_insert h with h | rfl
        · exact .inl h
        · exact .inr List.mem_cons_self
      · rw [hmove] at h
        exact .inl h
    · exact .inr (List.mem_cons_of_mem _ h)

variable (control) in
/-- Only a block without a guard gives away defaults of control signals. -/
theorem keepsPlaces_exchange (driven : List String) (g : Cond) (ds inner : Defaults) (ss : List Stmt) :
    let x := Exchange.run (stays (fun a => control a.target) driven g) ⟨ds, .empty⟩ inner.entries
    KeepsPlaces control (ds.placed ++ (Stmt.block g inner ss).placed) (x.outer.placed ++ (Stmt.block g x.inner ss).placed) := by
  intro x p hp hc
  rcases List.mem_append.1 hp with hp | hp
  · obtain ⟨hguards, hmem⟩ := Defaults.mem_placed.1 hp
    rcases Exchange.mem_outer_run hmem with houter | ⟨hinner, hstays⟩
    · exact List.mem_append_left _ (Defaults.mem_placed.2 ⟨hguards, houter⟩)
    · -- What has left the block is no control signal unless the block has no guard.
      cases g with
      | none =>
        refine List.mem_append_right _ (List.mem_map.2 ⟨p, ?_, rfl⟩)
        exact List.mem_append_left _ (Defaults.mem_placed.2 ⟨hguards, hinner⟩)
      | some g => simp [stays, hc] at hstays
  · refine List.mem_append_right _ (KeepsPlaces.under (.append (.of_subset ?_) (.refl _)) g p hp hc)
    intro q hq
    obtain ⟨hguards, hmem⟩ := Defaults.mem_placed.1 hq
    exact Defaults.mem_placed.2 ⟨hguards, (Exchange.mem_inner_run hmem).resolve_left List.not_mem_nil⟩

theorem keepsPlaces_take {ds ds' : Defaults} {a : Assign} (h : ds.take? a.target a.drive = some ds') :
    KeepsPlaces control (ds.placed ++ [⟨[], a⟩]) ds'.placed := by
  refine .of_subset fun p hp => ?_
  obtain ⟨hguards, hmem⟩ := Defaults.mem_placed.1 hp
  have hold : (p.assign.target, p.assign.drive) ∈ ds.entries → p ∈ ds.placed ++ [⟨[], a⟩] :=
    fun hmem => List.mem_append_left _ (Defaults.mem_placed.2 ⟨hguards, hmem⟩)
  rcases Exchange.take?_eq_some h with ⟨_, _, _, rfl⟩ | ⟨_, rfl⟩
  · exact hold hmem
  · rcases Listing.mem_entries_insert hmem with hmem | hnew
    · exact hold hmem
    · obtain ⟨guards, target, drive⟩ := p
      cases hguards
      cases hnew
      exact List.mem_append_right _ List.mem_cons_self

theorem keepsPlaces_hoistStmts : (ss : List Stmt) → ∀ (ds : Defaults) (driven : List String),
    KeepsPlaces control (ds.placed ++ Stmt.placedAll ss)
      ((hoistStmts (fun a => control a.target) ds driven ss).1.placed ++
        Stmt.placedAll (hoistStmts (fun a => control a.target) ds driven ss).2)
  | [], _, _ => .refl _
  | .assign a :: rest, ds, driven => by
    rcases hoistStmts_assign (fun a => control a.target) ds driven a rest with ⟨ds', _, htake, hrun⟩ | ⟨_, hrun⟩
    · rw [hrun, Stmt.placedAll, ← List.append_assoc]
      exact ((keepsPlaces_take htake).append (.refl _)).trans (keepsPlaces_hoistStmts rest ds' driven)
    · rw [hrun]
      exact (keepsPlaces_hoistStmts rest ds (a.target :: driven)).insert _
  | .block g inner ss :: rest, ds, driven => by
    have hexchange := keepsPlaces_exchange control driven g ds inner ss
    rw [hoistStmts_block]
    dsimp only at hexchange ⊢
    generalize Exchange.run (stays (fun a => control a.target) driven g) ⟨ds, .empty⟩ inner.entries = x at hexchange ⊢
    rw [Stmt.placedAll, ← List.append_assoc]
    refine (hexchange.append (.refl _)).trans ?_
    rw [List.append_assoc]
    exact (keepsPlaces_hoistStmts rest x.outer _).insert _

end Hoist

section Rounds

variable {control : String → Bool}

theorem Defaults.keepsPlaces_filter (ds : Defaults) (p : String → Drive → Bool) :
    KeepsPlaces control ds.placed (Defaults.placed (ds.filter p)) := by
  refine .of_subset fun q hq => ?_
  obtain ⟨hguards, hmem⟩ := mem_placed.1 hq
  exact mem_placed.2 ⟨hguards, (List.mem_filter.1 hmem).1⟩

mutual
theorem Stmt.keepsPlaces_pushDown : (s : Stmt) → ∀ (env : Env) (driven : List String),
    KeepsPlaces control s.placed (s.pushDown env driven).placed
  | .assign _, _, _ => .refl _
  | .block g ds ss, _, _ => .under (.append (ds.keepsPlaces_filter _) (keepsPlaces_pushDownAll ss _ _)) g
theorem Stmt.keepsPlaces_pushDownAll : (ss : List Stmt) → ∀ (env : Env) (driven : List String),
    KeepsPlaces control (Stmt.placedAll ss) (Stmt.placedAll (Stmt.pushDownAll env driven ss))
  | [], _, _ => .refl _
  | s :: ss, env, driven => .append (keepsPlaces_pushDown s env driven) (keepsPlaces_pushDownAll ss _ _)
end

theorem Stmt.placedAll_append (ss ts : List Stmt) :
    Stmt.placedAll (ss ++ ts) = Stmt.placedAll ss ++ Stmt.placedAll ts := by
  induction ss with
  | nil => rfl
  | cons s ss ih => rw [List.cons_append, placedAll, placedAll, ih, List.append_assoc]

mutual
theorem Stmt.keepsPlaces_cleanup? : (s : Stmt) → KeepsPlaces control s.placed (Stmt.placedAll s.cleanup?.toList)
  | .assign a => by
    rw [cleanup?]
    split
    · exact .refl _
    · exact .of_subset fun _ hp => absurd hp List.not_mem_nil
  | .block g ds ss => by
    have hblock : KeepsPlaces control (Stmt.block g ds ss).placed
        (Stmt.block g (Defaults.cleanup ds) (Stmt.cleanupAll ss)).placed :=
      .under (.append (ds.keepsPlaces_filter _) (keepsPlaces_cleanupAll ss)) g
    rw [cleanup?]
    split
    · exact .of_subset fun _ hp => absurd hp List.not_mem_nil
    · rw [Option.toList_some, placedAll, placedAll, List.append_nil]
      exact hblock
theorem Stmt.keepsPlaces_cleanupAll : (ss : List Stmt) →
    KeepsPlaces control (Stmt.placedAll ss) (Stmt.placedAll (Stmt.cleanupAll ss))
  | [] => .refl _
  | s :: ss => by
    rw [cleanupAll, placedAll_append]
    exact .append (keepsPlaces_cleanup? s) (keepsPlaces_cleanupAll ss)
end

theorem keepsPlaces_cleanup (b : Block) : KeepsPlaces control b.placed (cleanup b).placed :=
  .under (.append (b.dflts.keepsPlaces_filter _) (Stmt.keepsPlaces_cleanupAll b.stmts)) b.guard

theorem keepsPlaces_pushDown (b : Block) : KeepsPlaces control b.placed (pushDown b).placed :=
  .under (.append (.refl _) (Stmt.keepsPlaces_pushDownAll b.stmts _ _)) b.guard

theorem keepsPlaces_hoist (b : Block) : KeepsPlaces control b.placed (hoist (fun a => control a.target) b).placed :=
  .under (keepsPlaces_hoistStmts b.stmts b.dflts []) b.guard

theorem keepsPlaces_propagate (b : Block) :
    KeepsPlaces control b.placed (propagate (fun a => control a.target) b).placed :=
  (keepsPlaces_hoist b).trans ((keepsPlaces_cleanup _).trans ((keepsPlaces_pushDown _).trans (keepsPlaces_cleanup _)))

theorem keepsPlaces_updateDefaults (b : Block) :
    KeepsPlaces control b.placed (updateDefaults (fun a => control a.target) b).placed :=
  settle_induction (R := fun b b' : Block => KeepsPlaces control b.placed b'.placed) (fun _ => .refl _)
    (fun _ _ _ => .trans) keepsPlaces_propagate b.weight b

mutual
theorem Stmt.keepsPlaces_updateDefaults : (s : Stmt) →
    KeepsPlaces control s.placed (s.updateDefaults fun a => control a.target).placed
  | .assign _ => .refl _
  | .block g _ ss =>
    .trans (.under (.append (.refl _) (keepsPlaces_updateDefaultsAll ss)) g) (Comb.keepsPlaces_updateDefaults _)
theorem Stmt.keepsPlaces_updateDefaultsAll : (ss : List Stmt) →
    KeepsPlaces control (Stmt.placedAll ss) (Stmt.placedAll (Stmt.updateDefaultsAll (fun a => control a.target) ss))
  | [] => .refl _
  | s :: ss => .append (keepsPlaces_updateDefaults s) (keepsPlaces_updateDefaultsAll ss)
end

end Rounds

/-- What drives a control signal after propagation through a tree does so in the tree itself, with the same value and under
the same guards. -/
theorem control_keeps_guards (control : String → Bool) (b : Block) {p : Placed}
    (hp : p ∈ (updateDefaultsTree (fun a => control a.target) b).placed) (hc : control p.assign.target = true) :
    p ∈ b.placed := by
  have hkeeps : KeepsPlaces control b.placed (updateDefaultsTree (fun a => control a.target) b).placed :=
    settle_induction (R := fun b b' : Block => KeepsPlaces control b.placed b'.placed) (fun _ => .refl _)
      (fun _ _ _ => .trans) (fun b => Stmt.keepsPlaces_updateDefaults b.toStmt) b.weight b
  exact hkeeps p hp hc

/-- A control signal and a value, driven in a block without a guard that is nested in two guards. -/
def nestled : Block :=
  .of none
    [.block (some (.flag "a")) .empty
      [.block (some (.flag "b")) .empty
        [.block none .empty [.assign (.flag "en" (.bool true)), .assign (.of "val" (.literal 3 (.uint 8)) 8)]]]]

/-- The value leaves both guards, and the control signal leaves the inner block but neither guard. -/
theorem nestled_keeps_guards :
    updateDefaultsTree (fun a => a.target == "en") nestled =
      ⟨none, .ofList [("val", ⟨some (.literal 3 (.uint 8)), 8⟩)],
        [.block (some (.flag "a")) .empty [.block (some (.flag "b")) (.ofList [("en", ⟨some (.bool true), 1⟩)]) []]]⟩ ∧
    (⟨[.flag "a", .flag "b"], .flag "en" (.bool true)⟩ : Placed) ∈
      (updateDefaultsTree (fun a => a.target == "en") nestled).placed ∧
    (⟨[.flag "a", .flag "b"], .flag "en" (.bool true)⟩ : Placed) ∈ nestled.placed := by
  have hresult : (⟨[.flag "a", .flag "b"], .flag "en" (.bool true)⟩ : Placed) ∈
      (updateDefaultsTree (fun a => a.target == "en") nestled).placed := by
    decide +kernel
  exact ⟨by decide +kernel, hresult, control_keeps_guards (· == "en") nestled hresult rfl⟩

end Comb

end Sequencer
