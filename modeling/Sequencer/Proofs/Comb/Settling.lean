import Mathlib.Logic.Function.Iterate
import Sequencer.Proofs.Comb.Defaults

set_option autoImplicit false

/-!
# Default propagation settles

A step of propagation moves an assignment from the statements of a block into its defaults, or from there into the
defaults of the block around it, or it drops something. Deeper assignments weigh more, so a round that changes a tree
makes it lighter. Propagation therefore comes to a tree that it leaves as it is.
-/

namespace Sequencer

/-- `b` is `a`, or it weighs less. -/
def Lightens {α : Type} (weight : α → Nat) (a b : α) : Prop := b = a ∨ weight b < weight a

namespace Lightens

variable {α : Type} {weight : α → Nat} {a b c : α}

theorem refl (a : α) : Lightens weight a a := .inl rfl

theorem le (h : Lightens weight a b) : weight b ≤ weight a := by
  rcases h with rfl | h
  · exact Nat.le_refl _
  · exact Nat.le_of_lt h

theorem trans (h : Lightens weight a b) (h' : Lightens weight b c) : Lightens weight a c := by
  rcases h with rfl | h
  · exact h'
  · exact .inr (Nat.lt_of_le_of_lt h'.le h)

theorem antisymm (h : Lightens weight a b) (h' : Lightens weight b a) : b = a :=
  h.resolve_right (Nat.not_lt.2 h'.le)

end Lightens

/-- Repeating `f` changes something in each of the first `n` rounds and nothing after them, which leaves `b`. -/
structure SettlesIn {α : Type} (f : α → α) (a : α) (n : Nat) (b : α) : Prop where
  changes : ∀ k < n, f^[k + 1] a ≠ f^[k] a
  result : f^[n] a = b
  fixed : f b = b

namespace Comb

section Settle

variable {α : Type} [DecidableEq α] {f : α → α} {weight : α → Nat}

theorem settle_of_fixed {a : α} (h : f a = a) (rounds : Nat) : settle f rounds a = a := by
  cases rounds with
  | zero => rfl
  | succ n =>
    rw [settle]
    exact if_pos h

/-- With a round for each unit of weight there are enough. -/
theorem settlesIn_settle (hf : ∀ a, Lightens weight a (f a)) {rounds : Nat} {a : α} (h : weight a ≤ rounds) :
    ∃ n ≤ weight a, SettlesIn f a n (settle f rounds a) := by
  induction rounds generalizing a with
  | zero =>
    refine ⟨0, Nat.zero_le _, fun k hk => absurd hk (Nat.not_lt_zero k), rfl, (hf a).resolve_right ?_⟩
    omega
  | succ rounds ih =>
    rw [settle]
    split
    · rename_i hfixed
      exact ⟨0, Nat.zero_le _, fun k hk => absurd hk (Nat.not_lt_zero k), rfl, hfixed⟩
    · rename_i hchange
      have hlt : weight (f a) < weight a := (hf a).resolve_left hchange
      obtain ⟨n, hn, hsettles⟩ := ih (a := f a) (by omega)
      refine ⟨n + 1, by omega, ?_, hsettles.result, hsettles.fixed⟩
      intro k hk
      cases k with
      | zero => exact hchange
      | succ k => exact hsettles.changes k (by omega)

end Settle

section Weights

variable {depth : Nat}

def Defaults.size (ds : Defaults) : Nat := ds.entries.length

/-- The weight of a block whose statements are at some depth. -/
def Block.weightAt (depth : Nat) (b : Block) : Nat := (2 * depth + 1) * b.dflts.size + Stmt.weights depth b.stmts

theorem Block.weightAt_mk (depth : Nat) (g : Cond) (ds : Defaults) (ss : List Stmt) :
    Block.weightAt depth ⟨g, ds, ss⟩ = (2 * depth + 1) * ds.size + Stmt.weights depth ss := rfl

theorem Block.weight_eq_weightAt (b : Block) : b.weight = b.weightAt 0 := by
  rw [weight, weightAt, Nat.mul_zero, Nat.zero_add, Nat.one_mul, Defaults.size]

theorem Block.weight_toStmt (depth : Nat) (b : Block) : b.toStmt.weight depth = 1 + b.weightAt (depth + 1) := by
  rw [toStmt, Stmt.weight, weightAt, Nat.add_assoc]
  rfl

theorem Stmt.weights_append (ss ts : List Stmt) :
    Stmt.weights depth (ss ++ ts) = Stmt.weights depth ss + Stmt.weights depth ts := by
  induction ss with
  | nil => simp [weights]
  | cons s ss ih =>
    rw [List.cons_append, weights, weights, ih]
    omega

theorem Stmt.lightens_append {ss ss' ts ts' : List Stmt} (hs : Lightens (Stmt.weights depth) ss ss')
    (ht : Lightens (Stmt.weights depth) ts ts') : Lightens (Stmt.weights depth) (ss ++ ts) (ss' ++ ts') := by
  have hle := ht.le
  rcases hs with rfl | hs
  · rcases ht with rfl | ht
    · exact .refl _
    · refine .inr ?_
      rw [weights_append, weights_append]
      omega
  · refine .inr ?_
    rw [weights_append, weights_append]
    omega

theorem Stmt.lightens_singleton {s s' : Stmt} (h : Lightens (Stmt.weight depth) s s') :
    Lightens (Stmt.weights depth) [s] [s'] := by
  rcases h with rfl | h
  · exact .refl _
  · exact .inr (Nat.add_lt_add_right h 0)

theorem Block.lightens_mk {g : Cond} {ds ds' : Defaults} {ss ss' : List Stmt} (hds : Lightens Defaults.size ds ds')
    (hss : Lightens (Stmt.weights depth) ss ss') : Lightens (Block.weightAt depth) ⟨g, ds, ss⟩ ⟨g, ds', ss'⟩ := by
  have hle := hss.le
  rcases hds with rfl | hds
  · rcases hss with rfl | hss
    · exact .refl _
    · exact .inr (Nat.add_lt_add_left hss _)
  · have hmul : (2 * depth + 1) * ds'.size < (2 * depth + 1) * ds.size := Nat.mul_lt_mul_of_pos_left hds (by omega)
    exact .inr (Nat.add_lt_add_of_lt_of_le hmul hle)

theorem Block.lightens_toStmt {b b' : Block} (h : Lightens (Block.weightAt (depth + 1)) b b') :
    Lightens (Stmt.weight depth) b.toStmt b'.toStmt := by
  rcases h with rfl | h
  · exact .refl _
  · refine .inr ?_
    rw [weight_toStmt, weight_toStmt]
    omega

theorem Stmt.lightens_block {g : Cond} {ds ds' : Defaults} {ss ss' : List Stmt} (hds : Lightens Defaults.size ds ds')
    (hss : Lightens (Stmt.weights (depth + 1)) ss ss') :
    Lightens (Stmt.weight depth) (.block g ds ss) (.block g ds' ss') :=
  Block.lightens_toStmt (Block.lightens_mk hds hss)

theorem Defaults.lightens_filter (p : String → Drive → Bool) (ds : Defaults) :
    Lightens Defaults.size ds (ds.filter p) := by
  by_cases h : ∀ e ∈ ds.entries, p e.1 e.2 = true
  · exact .inl (Listing.ext (List.filter_eq_self.2 h))
  · refine .inr (List.length_filter_lt_length_iff_exists.2 ?_)
    push Not at h
    exact h

theorem Defaults.lightens_cleanup (ds : Defaults) : Lightens Defaults.size ds ds.cleanup := ds.lightens_filter _

end Weights

section Hoist

variable (isControl : Assign → Bool) (depth : Nat)

theorem Defaults.size_insert_le (ds : Defaults) (t : String) (d : Drive) : Defaults.size (ds.insert t d) ≤ ds.size + 1 := by
  rw [size, Listing.entries_insert, List.length_append]
  exact Nat.add_le_add_right (List.length_filter_le _ _) 1

theorem Defaults.size_take?_le {ds ds' : Defaults} {t : String} {d : Drive} (h : ds.take? t d = some ds') :
    ds'.size ≤ ds.size + 1 := by
  rcases Exchange.take?_eq_some h with ⟨_, _, _, rfl⟩ | ⟨_, rfl⟩
  · exact Nat.le_succ _
  · exact ds.size_insert_le t d

theorem Defaults.size_insertAll_le (ds : Defaults) (es : List (String × Drive)) :
    Defaults.size (ds.insertAll es) ≤ ds.size + es.length := by
  induction es generalizing ds with
  | nil => exact Nat.le_refl _
  | cons e es ih =>
    have hrest := ih (ds.insert e.1 e.2)
    have hinsert := ds.size_insert_le e.1 e.2
    change Defaults.size ((ds.insert e.1 e.2).insertAll es) ≤ _
    rw [List.length_cons]
    omega

/-- The weight of the defaults of a block and of a block nested in it. -/
def Exchange.weight (depth : Nat) (x : Exchange) : Nat :=
  (2 * depth + 1) * x.outer.size + (2 * depth + 3) * x.inner.size

theorem Exchange.weight_keep_le (x : Exchange) (es : List (String × Drive)) :
    Exchange.weight depth { x with inner := x.inner.insertAll es } ≤ x.weight depth + (2 * depth + 3) * es.length := by
  have hinner := Nat.mul_le_mul_left (2 * depth + 3) (x.inner.size_insertAll_le es)
  rw [Nat.mul_add] at hinner
  unfold weight
  dsimp only
  omega

theorem Exchange.weight_take_le (x : Exchange) {t : String} {d : Drive} {outer : Defaults}
    (h : x.outer.take? t d = some outer) :
    Exchange.weight depth { x with outer := outer } ≤ x.weight depth + (2 * depth + 1) := by
  have houter := Nat.mul_le_mul_left (2 * depth + 1) (Defaults.size_take?_le h)
  rw [Nat.mul_succ] at houter
  unfold weight
  dsimp only
  omega

/-- Either all defaults stay inside, in their order, or the two blocks get lighter. -/
theorem Exchange.lightens_run (stays : String → Drive → Bool) (x : Exchange) (es : List (String × Drive)) :
    run stays x es = { x with inner := x.inner.insertAll es } ∨
      (run stays x es).weight depth < x.weight depth + (2 * depth + 3) * es.length := by
  induction es generalizing x with
  | nil => exact .inl rfl
  | cons e es ih =>
    obtain ⟨t, d⟩ := e
    rw [run_cons, List.length_cons, Nat.mul_succ]
    rcases step_cases stays x t d with hkeep | ⟨_, outer, htake, hmove⟩
    · have hstep : (step stays x (t, d)).weight depth ≤ x.weight depth + (2 * depth + 3) := by
        have hle := x.weight_keep_le depth [(t, d)]
        rw [List.length_singleton, Nat.mul_one] at hle
        rw [hkeep]
        exact hle
      rcases ih (step stays x (t, d)) with hrun | hrun
      · refine .inl ?_
        rw [hrun, hkeep]
        rfl
      · omega
    · -- A default that moves out saves two, so that the rest may all stay.
      have hstep := x.weight_take_le depth htake
      rw [← hmove] at hstep
      have hrest := (step stays x (t, d)).weight_keep_le depth es
      rcases ih (step stays x (t, d)) with hrun | hrun
      · rw [← hrun] at hrest
        omega
      · omega

theorem Exchange.lightens_inner (stays : String → Drive → Bool) (ds inner : Defaults) :
    Lightens (Exchange.weight depth) ⟨ds, inner⟩ (run stays ⟨ds, .empty⟩ inner.entries) := by
  rcases lightens_run depth stays ⟨ds, .empty⟩ inner.entries with hrun | hrun
  · refine .inl ?_
    rw [hrun]
    exact congrArg (Exchange.mk ds) inner.ofList_entries
  · exact .inr hrun

theorem lightens_hoistStmts (g : Cond) : (ss : List Stmt) → ∀ (ds : Defaults) (driven : List String),
    Lightens (Block.weightAt depth) ⟨g, ds, ss⟩
      ⟨g, (hoistStmts isControl ds driven ss).1, (hoistStmts isControl ds driven ss).2⟩
  | [], _, _ => .refl _
  | .assign a :: rest, ds, driven => by
    rcases hoistStmts_assign isControl ds driven a rest with ⟨ds', _, htake, hrun⟩ | ⟨_, hrun⟩
    · have hrest := (lightens_hoistStmts g rest ds' driven).le
      have hsize := Nat.mul_le_mul_left (2 * depth + 1) (Defaults.size_take?_le htake)
      refine .inr ?_
      rw [hrun]
      simp only [Block.weightAt_mk, Stmt.weights, Stmt.weight, Nat.mul_succ] at hrest hsize ⊢
      omega
    · rw [hrun]
      rcases lightens_hoistStmts g rest ds (a.target :: driven) with hrest | hrest
      · injection hrest with _ hds hkept
        rw [hds, hkept]
        exact .refl _
      · refine .inr ?_
        simp only [Block.weightAt_mk, Stmt.weights] at hrest ⊢
        omega
  | .block g' inner ss :: rest, ds, driven => by
    have hexchange := Exchange.lightens_inner depth (stays isControl driven g') ds inner
    rw [hoistStmts_block]
    dsimp only at hexchange ⊢
    generalize Exchange.run (stays isControl driven g') ⟨ds, .empty⟩ inner.entries = x at hexchange ⊢
    have hrest := lightens_hoistStmts g rest x.outer ((Stmt.block g' x.inner ss).targets ++ driven)
    rcases hexchange with rfl | hexchange
    · rcases hrest with hrest | hrest
      · injection hrest with _ hds hkept
        rw [hds, hkept]
        exact .refl _
      · refine .inr ?_
        simp only [Block.weightAt_mk, Stmt.weights] at hrest ⊢
        omega
    · have hle := hrest.le
      refine .inr ?_
      simp only [Block.weightAt_mk, Stmt.weights, Stmt.weight, Exchange.weight, Defaults.size] at hle hexchange ⊢
      omega

theorem lightens_hoist (b : Block) : Lightens (Block.weightAt depth) b (hoist isControl b) :=
  lightens_hoistStmts isControl depth b.guard b.stmts b.dflts []

end Hoist

section Rounds

mutual
theorem Stmt.lightens_pushDown : (s : Stmt) → ∀ (env : Env) (driven : List String) (depth : Nat),
    Lightens (Stmt.weight depth) s (s.pushDown env driven)
  | .assign _, _, _, _ => .refl _
  | .block g ds ss, env, driven, depth => by
    rw [pushDown]
    exact lightens_block (ds.lightens_filter _) (lightens_pushDownAll ss _ _ (depth + 1))
theorem Stmt.lightens_pushDownAll : (ss : List Stmt) → ∀ (env : Env) (driven : List String) (depth : Nat),
    Lightens (Stmt.weights depth) ss (Stmt.pushDownAll env driven ss)
  | [], _, _, _ => .refl _
  | s :: ss, env, driven, depth =>
    lightens_append (lightens_singleton (lightens_pushDown s env driven depth)) (lightens_pushDownAll ss _ _ depth)
end

mutual
theorem Stmt.lightens_cleanup? : (s : Stmt) → ∀ depth : Nat, Lightens (Stmt.weights depth) [s] s.cleanup?.toList
  | .assign a, depth => by
    rw [cleanup?]
    split
    · exact .refl _
    · refine .inr ?_
      simp only [Option.toList_none, weights, weight]
      omega
  | .block g ds ss, depth => by
    rw [cleanup?]
    split
    · refine .inr ?_
      simp only [Option.toList_none, weights, weight]
      omega
    · exact lightens_singleton (lightens_block ds.lightens_cleanup (lightens_cleanupAll ss (depth + 1)))
theorem Stmt.lightens_cleanupAll : (ss : List Stmt) → ∀ depth : Nat, Lightens (Stmt.weights depth) ss (Stmt.cleanupAll ss)
  | [], _ => .refl _
  | s :: ss, depth => lightens_append (lightens_cleanup? s depth) (lightens_cleanupAll ss depth)
end

variable (isControl : Assign → Bool) (depth : Nat) (b : Block)

theorem lightens_pushDown : Lightens (Block.weightAt depth) b (pushDown b) :=
  Block.lightens_mk (.refl _) (Stmt.lightens_pushDownAll b.stmts _ _ depth)

theorem lightens_cleanup : Lightens (Block.weightAt depth) b (cleanup b) :=
  Block.lightens_mk b.dflts.lightens_cleanup (Stmt.lightens_cleanupAll b.stmts depth)

theorem lightens_propagate : Lightens (Block.weightAt depth) b (propagate isControl b) :=
  (lightens_hoist isControl depth b).trans ((lightens_cleanup depth _).trans ((lightens_pushDown depth _).trans
    (lightens_cleanup depth _)))

theorem lightens_updateDefaults : Lightens (Block.weightAt depth) b (updateDefaults isControl b) :=
  settle_induction .refl (fun _ _ _ => .trans) (lightens_propagate isControl depth) b.weight b

mutual
theorem Stmt.lightens_updateDefaults : (s : Stmt) → ∀ depth : Nat,
    Lightens (Stmt.weight depth) s (s.updateDefaults isControl)
  | .assign _, _ => .refl _
  | .block g ds ss, depth => by
    have hnested : Lightens (Block.weightAt (depth + 1)) ⟨g, ds, ss⟩ ⟨g, ds, Stmt.updateDefaultsAll isControl ss⟩ :=
      Block.lightens_mk (.refl ds) (lightens_updateDefaultsAll ss (depth + 1))
    rw [updateDefaults]
    exact Block.lightens_toStmt (hnested.trans (Comb.lightens_updateDefaults isControl (depth + 1) _))
theorem Stmt.lightens_updateDefaultsAll : (ss : List Stmt) → ∀ depth : Nat,
    Lightens (Stmt.weights depth) ss (Stmt.updateDefaultsAll isControl ss)
  | [], _ => .refl _
  | s :: ss, depth =>
    lightens_append (lightens_singleton (lightens_updateDefaults s depth)) (lightens_updateDefaultsAll ss depth)
end

theorem lightens_updateEach : Lightens (Block.weightAt depth) b (updateEach isControl b) :=
  (Block.lightens_mk (.refl b.dflts) (Stmt.lightens_updateDefaultsAll isControl b.stmts depth)).trans
    (lightens_updateDefaults isControl depth _)

end Rounds

section Settled

mutual
/-- Every block in the statement, however deep, is one that `f` leaves as it is. -/
def Stmt.Settled (f : Block → Block) : Stmt → Prop
  | .assign _ => True
  | .block g ds ss => f ⟨g, ds, ss⟩ = ⟨g, ds, ss⟩ ∧ Stmt.SettledAll f ss
def Stmt.SettledAll (f : Block → Block) : List Stmt → Prop
  | [] => True
  | s :: ss => s.Settled f ∧ Stmt.SettledAll f ss
end

variable (isControl : Assign → Bool)

theorem updateDefaults_settles (b : Block) :
    ∃ n ≤ b.weight, SettlesIn (propagate isControl) b n (updateDefaults isControl b) := by
  rw [b.weight_eq_weightAt, updateDefaults]
  exact settlesIn_settle (lightens_propagate isControl 0) (Nat.le_of_eq b.weight_eq_weightAt.symm)

theorem updateDefaultsTree_settles (b : Block) :
    ∃ n ≤ b.weight, SettlesIn (updateEach isControl) b n (updateDefaultsTree isControl b) := by
  rw [b.weight_eq_weightAt, updateDefaultsTree]
  exact settlesIn_settle (lightens_updateEach isControl 0) (Nat.le_of_eq b.weight_eq_weightAt.symm)

theorem propagate_updateDefaults (b : Block) :
    propagate isControl (updateDefaults isControl b) = updateDefaults isControl b := by
  obtain ⟨_, _, hsettles⟩ := updateDefaults_settles isControl b
  exact hsettles.fixed

theorem Block.eq_of_toStmt {b : Block} {g : Cond} {ds : Defaults} {ss : List Stmt} (h : b.toStmt = .block g ds ss) :
    b = ⟨g, ds, ss⟩ := by
  cases b
  cases h
  rfl

mutual
/-- What propagation through all blocks leaves as it is, it leaves as it is in each block: what gets lighter in one of
them does not get heavier again in the others. -/
theorem Stmt.settled_of_updateDefaults : (s : Stmt) → s.updateDefaults isControl = s → s.Settled (propagate isControl)
  | .assign _, _ => trivial
  | .block g ds ss, h => by
    have hblock : Comb.updateDefaults isControl ⟨g, ds, Stmt.updateDefaultsAll isControl ss⟩ = ⟨g, ds, ss⟩ :=
      Block.eq_of_toStmt h
    have hnested : Lightens (Block.weightAt 0) ⟨g, ds, ss⟩ ⟨g, ds, Stmt.updateDefaultsAll isControl ss⟩ :=
      Block.lightens_mk (.refl ds) (lightens_updateDefaultsAll isControl ss 0)
    have hsame := hnested.antisymm (hblock ▸ Comb.lightens_updateDefaults isControl 0 _)
    refine ⟨?_, settledAll_of_updateDefaultsAll ss (congrArg Block.stmts hsame)⟩
    rw [← hblock]
    exact propagate_updateDefaults isControl _
theorem Stmt.settledAll_of_updateDefaultsAll : (ss : List Stmt) → Stmt.updateDefaultsAll isControl ss = ss →
    Stmt.SettledAll (propagate isControl) ss
  | [], _ => trivial
  | s :: ss, h => by
    rw [updateDefaultsAll] at h
    injection h with hs hss
    exact ⟨settled_of_updateDefaults s hs, settledAll_of_updateDefaultsAll ss hss⟩
end

end Settled

/-- Propagation through a block and through a tree comes to an end: after at most as many changing rounds as the tree
weighs, a further one changes nothing. A tree that has been propagated through is settled in each of its blocks, and
propagating through it again leaves it as it is. -/
theorem propagation_settles (isControl : Assign → Bool) (b : Block) :
    (∃ n ≤ b.weight, SettlesIn (propagate isControl) b n (updateDefaults isControl b)) ∧
      (∃ n ≤ b.weight, SettlesIn (updateEach isControl) b n (updateDefaultsTree isControl b)) ∧
      (updateDefaultsTree isControl b).toStmt.Settled (propagate isControl) ∧
      updateDefaultsTree isControl (updateDefaultsTree isControl b) = updateDefaultsTree isControl b := by
  obtain ⟨n, hn, hsettles⟩ := updateDefaultsTree_settles isControl b
  refine ⟨updateDefaults_settles isControl b, ⟨n, hn, hsettles⟩, ?_, settle_of_fixed hsettles.fixed _⟩
  exact Stmt.settled_of_updateDefaults isControl _ (congrArg Block.toStmt hsettles.fixed)

end Comb

end Sequencer
