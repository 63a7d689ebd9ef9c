import Mathlib.Data.List.Basic
import Mathlib.Logic.Relation
import Sequencer.Graph.Transition

set_option autoImplicit false

/-!
# Search

A search that is deep enough misses nothing: what it adds is closed under successors. So the unreachable states of a graph
are just those to which there is no path of moves.
-/

namespace Sequencer

section Explore

variable {α : Type} [DecidableEq α] (next : α → List α)

theorem subset_explore (depth : Nat) (seen : List α) (a : α) : seen ⊆ explore next depth seen a := by
  induction depth generalizing seen a with
  | zero => exact List.Subset.refl seen
  | succ depth ih =>
    have hfold : ∀ as seen : List α, seen ⊆ as.foldl (explore next depth) seen := by
      intro as
      induction as with
      | nil => exact List.Subset.refl
      | cons b bs hbs => exact fun seen => List.Subset.trans (ih seen b) (hbs _)
    rw [explore]
    split
    · exact List.Subset.refl seen
    · exact List.Subset.trans (List.subset_append_left seen [a]) (hfold _ _)

theorem subset_foldl_explore (depth : Nat) (seen as : List α) : seen ⊆ as.foldl (explore next depth) seen := by
  induction as generalizing seen with
  | nil => exact List.Subset.refl seen
  | cons a as ih => exact List.Subset.trans (subset_explore next depth seen a) (ih _)

variable {next} in
/-- What holds of its start and is passed on to successors holds of all that a search adds. -/
theorem forall_mem_explore {P : α → Prop} (hnext : ∀ a, P a → ∀ b ∈ next a, P b) (depth : Nat) {seen : List α} {a : α}
    (hseen : ∀ x ∈ seen, P x) (ha : P a) : ∀ x ∈ explore next depth seen a, P x := by
  induction depth generalizing seen a with
  | zero => exact hseen
  | succ depth ih =>
    have hfold : ∀ (as : List α) {seen : List α}, (∀ x ∈ seen, P x) → (∀ x ∈ as, P x) →
        ∀ x ∈ as.foldl (explore next depth) seen, P x := by
      intro as
      induction as with
      | nil => exact fun hseen _ => hseen
      | cons b bs hbs =>
        intro seen hseen has
        obtain ⟨hb, has⟩ := List.forall_mem_cons.1 has
        exact hbs (ih hseen hb) has
    rw [explore]
    split
    · exact hseen
    · exact hfold _ (List.forall_mem_append.2 ⟨hseen, fun x hx => List.mem_singleton.1 hx ▸ ha⟩) (hnext a ha)

/-- A search lists nothing twice. -/
theorem nodup_explore (depth : Nat) {seen : List α} (a : α) (hseen : seen.Nodup) : (explore next depth seen a).Nodup := by
  induction depth generalizing seen a with
  | zero => exact hseen
  | succ depth ih =>
    have hfold : ∀ (as : List α) {seen : List α}, seen.Nodup → (as.foldl (explore next depth) seen).Nodup := by
      intro as
      induction as with
      | nil => exact fun hseen => hseen
      | cons b bs hbs => exact fun hseen => hbs (ih b hseen)
    rw [explore]
    split
    · exact hseen
    · rename_i ha
      exact hfold _ (List.nodup_append.2 ⟨hseen, by simp, fun x hx y hy hxy =>
        ha (List.mem_singleton.1 hy ▸ hxy ▸ hx)⟩)

/-- What of `all` is not seen yet. -/
def unseen (all seen : List α) : List α := all.filter fun a => a ∉ seen

theorem unseen_sublist {seen seen' : List α} (all : List α) (h : seen ⊆ seen') :
    (unseen all seen').Sublist (unseen all seen) := by
  refine List.monotone_filter_right all fun a ha => ?_
  simp only [decide_eq_true_eq] at ha ⊢
  exact fun hseen => ha (h hseen)

theorem length_unseen_lt {all seen : List α} {a : α} (ha : a ∈ all) (hseen : a ∉ seen) :
    (unseen all (seen ++ [a])).length < (unseen all seen).length := by
  have hsub := unseen_sublist all (List.subset_append_left seen [a])
  refine Nat.lt_of_le_of_ne hsub.length_le fun heq => ?_
  have hmem : a ∈ unseen all seen := by simp [unseen, ha, hseen]
  rw [← hsub.eq_of_length heq] at hmem
  simp [unseen] at hmem

/-- All successors of what the search from `seen` to `seen'` has added are in `seen'`. -/
def Closes (seen seen' : List α) : Prop := ∀ x ∈ seen', x ∉ seen → next x ⊆ seen'

variable {next}

theorem Closes.trans {s t u : List α} (hst : Closes next s t) (htu : Closes next t u) (hsub : t ⊆ u) :
    Closes next s u := by
  intro x hx hs
  by_cases ht : x ∈ t
  · exact List.Subset.trans (hst x ht hs) hsub
  · exact htu x hx ht

/-- A search as deep as there are elements not seen yet finds its start and is closed under successors. -/
theorem explore_complete {all : List α} (hall : ∀ a ∈ all, next a ⊆ all) {depth : Nat} {seen : List α} {a : α}
    (ha : a ∈ all) (hdepth : (unseen all seen).length ≤ depth) :
    a ∈ explore next depth seen a ∧ Closes next seen (explore next depth seen a) := by
  induction depth generalizing seen a with
  | zero =>
    have hseen : a ∈ seen := by
      by_contra hseen
      have hmem : a ∈ unseen all seen := by simp [unseen, ha, hseen]
      rw [List.length_eq_zero_iff.1 (Nat.le_zero.1 hdepth)] at hmem
      exact absurd hmem List.not_mem_nil
    exact ⟨hseen, fun x hx hs => absurd hx hs⟩
  | succ depth ih =>
    -- The successors are searched one after the other, each with what was found before as seen.
    have hfold : ∀ (as seen : List α), as ⊆ all → (unseen all seen).length ≤ depth →
        as ⊆ as.foldl (explore next depth) seen ∧ Closes next seen (as.foldl (explore next depth) seen) := by
      intro as
      induction as with
      | nil => exact fun seen _ _ => ⟨List.nil_subset _, fun x hx hs => absurd hx hs⟩
      | cons b bs hbs =>
        intro seen hsub hseen
        obtain ⟨hb, hsub⟩ := List.cons_subset.1 hsub
        obtain ⟨hmem, hcloses⟩ := ih hb hseen
        obtain ⟨hrest, hcloses'⟩ := hbs _ hsub 
          (Nat.le_trans (unseen_sublist all (subset_explore next depth seen b)).length_le hseen)
        have hlater := subset_foldl_explore next depth (explore next depth seen b) bs
        exact ⟨List.cons_subset.2 ⟨hlater hmem, hrest⟩, hcloses.trans hcloses' hlater⟩
    rw [explore]
    split
    · rename_i hseen
      exact ⟨hseen, fun x hx hs => absurd hx hs⟩
    · rename_i hseen
      have hlt := length_unseen_lt ha hseen
      obtain ⟨hnext, hcloses⟩ := hfold (next a) (seen ++ [a]) (hall a ha) (by omega)
      have hsub := subset_foldl_explore next depth (seen ++ [a]) (next a)
      refine ⟨hsub (by simp), fun x hx hs => ?_⟩
      by_cases hxa : x = a
      · exact hxa ▸ hnext
      · exact hcloses x hx (by simp [hs, hxa])

end Explore

namespace TransitionGraph

/-- There is a path of moves from one state to the other. -/
def Leads (g : TransitionGraph) : Nat → Nat → Prop := Relation.ReflTransGen fun s t => (s, t) ∈ g.edges

theorem mem_successors {g : TransitionGraph} {s t : Nat} : t ∈ g.successors s ↔ (s, t) ∈ g.edges := by
  simp [successors]

theorem mem_reached {g : TransitionGraph} {s : Nat} (h : g.Leads 0 s) : s ∈ g.reached := by
  have hall : ∀ a ∈ 0 :: g.edges.map Prod.snd, g.successors a ⊆ 0 :: g.edges.map Prod.snd := by
    intro a _ t ht
    exact List.mem_cons_of_mem _ (List.mem_map.2 ⟨(a, t), mem_successors.1 ht, rfl⟩)
  have hdepth : (unseen (0 :: g.edges.map Prod.snd) []).length ≤ g.edges.length + 1 :=
    Nat.le_trans (List.length_filter_le _ _) (by simp)
  obtain ⟨hzero, hcloses⟩ := explore_complete hall List.mem_cons_self hdepth
  induction h with
  | refl => exact hzero
  | tail _ hedge ih => exact hcloses _ ih List.not_mem_nil (mem_successors.2 hedge)

/-- The search finds just the states to which there is a path. -/
theorem mem_reached_iff {g : TransitionGraph} {s : Nat} : s ∈ g.reached ↔ g.Leads 0 s := by
  refine ⟨fun hs => ?_, mem_reached⟩
  refine forall_mem_explore (P := g.Leads 0) ?_ _ (fun x hx => absurd hx List.not_mem_nil) .refl s hs
  exact fun a ha b hb => ha.tail (mem_successors.1 hb)

theorem mem_unreachable_iff {g : TransitionGraph} {s : Nat} : s ∈ g.unreachable ↔ s ≤ g.maxState ∧ ¬ g.Leads 0 s := by
  have hmem : s ∈ g.unreachable ↔ s ≤ g.maxState ∧ s ∉ g.reached := by
    rw [unreachable, List.mem_filter, List.mem_range, Nat.lt_succ_iff]
    simp
  rw [hmem, mem_reached_iff]

theorem unreachable_eq_nil {g : TransitionGraph} (h : ∀ s ≤ g.maxState, g.Leads 0 s) : g.unreachable = [] := by
  rw [List.eq_nil_iff_forall_not_mem]
  intro s hs
  obtain ⟨hle, hnot⟩ := mem_unreachable_iff.1 hs
  exact hnot (h s hle)

theorem pairwise_lt_unreachable (g : TransitionGraph) : g.unreachable.Pairwise (· < ·) :=
  List.pairwise_lt_range.filter _

theorem validate_eq_ok_iff {g : TransitionGraph} : g.validate = .ok () ↔ g.unreachable = [] := by
  unfold validate
  cases g.unreachable with
  | nil => exact iff_of_true rfl rfl
  | cons s ss => exact iff_of_false (fun h => by cases h) (List.cons_ne_nil s ss)

theorem mem_edges_add_iff {g : TransitionGraph} {source target : Nat} {e : Nat × Nat} :
    e ∈ (g.add source target).edges ↔ e ∈ g.edges ∨ e = (source, target) := by
  unfold add
  split
  · rename_i hmem
    rw [List.contains_iff_mem] at hmem
    exact ⟨.inl, fun h => h.elim id fun he => he ▸ hmem⟩
  · simp

theorem maxState_add (g : TransitionGraph) (source target : Nat) : (g.add source target).maxState = g.maxState := by
  unfold add
  split
  · rfl
  · rfl

/-- The graph to which the moves are added one after the other. -/
def addAll (g : TransitionGraph) (moves : List (Nat × Nat)) : TransitionGraph := moves.foldl (fun g e => g.add e.1 e.2) g

theorem mem_edges_addAll_iff {g : TransitionGraph} {moves : List (Nat × Nat)} {e : Nat × Nat} :
    e ∈ (g.addAll moves).edges ↔ e ∈ g.edges ∨ e ∈ moves := by
  induction moves generalizing g with
  | nil => simp [addAll]
  | cons move moves ih =>
    change e ∈ ((g.add move.1 move.2).addAll moves).edges ↔ _
    rw [ih, mem_edges_add_iff, List.mem_cons, or_assoc]

theorem maxState_addAll (g : TransitionGraph) (moves : List (Nat × Nat)) : (g.addAll moves).maxState = g.maxState := by
  induction moves generalizing g with
  | nil => rfl
  | cons move moves ih => exact (ih _).trans (maxState_add g _ _)

/-- Whatever moves are added, in whatever order and also between states above the largest one, the states listed as
unreachable are in increasing order those to which no path of moves leads from state 0. The graph is valid if there are
none. -/
theorem unreachable_exact (maxState : Nat) (moves : List (Nat × Nat)) :
    ((start maxState).addAll moves).unreachable.Pairwise (· < ·) ∧
      (∀ s, s ∈ ((start maxState).addAll moves).unreachable ↔
        s ≤ maxState ∧ ¬ Relation.ReflTransGen (fun a b => (a, b) ∈ moves) 0 s) ∧
      (((start maxState).addAll moves).validate = .ok () ↔ ((start maxState).addAll moves).unreachable = []) := by
  refine ⟨pairwise_lt_unreachable _, fun s => ?_, validate_eq_ok_iff⟩
  have hedges : (fun a b => (a, b) ∈ ((start maxState).addAll moves).edges) = fun a b => (a, b) ∈ moves := by
    funext a b
    simp [mem_edges_addAll_iff, start]
  rw [mem_unreachable_iff, maxState_addAll, Leads, hedges]
  rfl

/-- The way to state 1 leads through a state above the largest one. -/
example : ((start 3).addAll [(0, 7), (7, 1), (2, 3), (3, 2), (2, 1)]).unreachable = [2, 3] := by decide

end TransitionGraph

end Sequencer
