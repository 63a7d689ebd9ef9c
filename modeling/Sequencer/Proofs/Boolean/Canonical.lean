import Mathlib.Data.List.Basic
import Mathlib.Data.List.InsertIdx
import Sequencer.Proofs.Boolean.Cover

set_option autoImplicit false

/-!
# Minimal formulas are canonical

The minimal formula over the atoms `0, …, n - 1` depends only on the function that a formula denotes. It does not change
either when an atom is put between the others on which the function does not depend.
-/

namespace Sequencer

namespace Formula

variable {α β : Type}

theorem eval_restrict_eq [DecidableEq α] (ρ : α → Bool) (a : α) (b : Bool) (f : Formula α) :
    (f.restrict a b).eval ρ = f.eval (Function.update ρ a b) := by
  have hfixed : (f.restrict a b).eval ρ = (f.restrict a b).eval (Function.update ρ a b) := by
    refine eval_congr _ fun x hx => ?_
    rw [Function.update_of_ne (atoms_restrict f a b hx).2]
  rw [hfixed, ← eval_restrict (Function.update ρ a b) a f, Function.update_self]

end Formula

namespace Diagram

theorem ofFormulaFrom_zero (next : Nat) (f : Formula Nat) : ofFormulaFrom 0 next f = leaf (f.eval fun _ => false) := by
  cases f <;> rfl

theorem ofFormulaFrom_succ (count next : Nat) (f : Formula Nat) :
    ofFormulaFrom (count + 1) next f = choose next (ofFormulaFrom count (next + 1) (f.restrict next false))
      (ofFormulaFrom count (next + 1) (f.restrict next true)) := by
  cases f with
  | const b =>
    rw [Formula.restrict, Formula.restrict, choose, if_pos rfl]
    cases count <;> rfl
  | atom | not | and | or => rfl

/-- The diagram depends only on the function denoted. -/
theorem ofFormulaFrom_congr (count next : Nat) {f g : Formula Nat} (h : ∀ ρ, f.eval ρ = g.eval ρ) :
    ofFormulaFrom count next f = ofFormulaFrom count next g := by
  induction count generalizing next f g with
  | zero => rw [ofFormulaFrom_zero, ofFormulaFrom_zero, h]
  | succ count ih =>
    have hrestrict : ∀ b ρ, (f.restrict next b).eval ρ = (g.restrict next b).eval ρ := by
      intro b ρ
      rw [Formula.eval_restrict_eq, Formula.eval_restrict_eq, h]
    rw [ofFormulaFrom_succ, ofFormulaFrom_succ, ih (next + 1) (hrestrict false), ih (next + 1) (hrestrict true)]

/-- Renames the atoms of a diagram. -/
def map (σ : Nat → Nat) : Diagram → Diagram
  | leaf b => leaf b
  | branch a low high => branch (σ a) (low.map σ) (high.map σ)

theorem map_inj {σ : Nat → Nat} (hσ : Function.Injective σ) {d e : Diagram} (h : d.map σ = e.map σ) : d = e := by
  induction d generalizing e with
  | leaf b =>
    cases e with
    | leaf c => exact h
    | branch => cases h
  | branch a low high ihl ihh =>
    cases e with
    | leaf => cases h
    | branch a' low' high' =>
      rw [map, map, branch.injEq] at h
      rw [hσ h.1, ihl h.2.1, ihh h.2.2]

theorem map_choose {σ : Nat → Nat} (hσ : Function.Injective σ) (a : Nat) (low high : Diagram) :
    (choose a low high).map σ = choose (σ a) (low.map σ) (high.map σ) := by
  by_cases h : low = high
  · rw [choose, choose, if_pos h, if_pos (congrArg (map σ) h)]
  · rw [choose, choose, if_neg h, if_neg fun hmap => h (map_inj hσ hmap), map]

end Diagram

/-- Makes room for an atom at `k`. -/
def skip (k i : Nat) : Nat := if i < k then i else i + 1

theorem skip_injective (k : Nat) : Function.Injective (skip k) := by
  intro i j h
  unfold skip at h
  split at h <;> split at h <;> omega

theorem skip_of_lt {k i : Nat} (h : i < k) : skip k i = i := if_pos h

theorem skip_of_le {k i : Nat} (h : k ≤ i) : skip k i = i + 1 := if_neg (Nat.not_lt.2 h)

theorem skip_ne (k i : Nat) : skip k i ≠ k := by
  unfold skip
  split <;> omega

theorem Formula.eval_restrict_map (k a : Nat) (b : Bool) (f : Formula Nat) (ρ : Nat → Bool) :
    ((f.map (skip k)).restrict (skip k a) b).eval ρ = ((f.restrict a b).map (skip k)).eval ρ := by
  rw [eval_restrict_eq, eval_map, eval_map, eval_restrict_eq,
    Function.update_comp_eq_of_injective _ (skip_injective k)]

namespace Diagram

/-- Above the new atom all atoms move up by one. -/
theorem ofFormulaFrom_shift {k : Nat} (count : Nat) {next : Nat} (hk : k ≤ next) (f : Formula Nat) :
    ofFormulaFrom count (next + 1) (f.map (skip k)) = (ofFormulaFrom count next f).map (skip k) := by
  induction count generalizing next f with
  | zero =>
    rw [ofFormulaFrom_zero, ofFormulaFrom_zero, Formula.eval_map]
    rfl
  | succ count ih =>
    have hrestrict : ∀ b, ofFormulaFrom count (next + 1 + 1) ((f.map (skip k)).restrict (next + 1) b) =
        (ofFormulaFrom count (next + 1) (f.restrict next b)).map (skip k) := by
      intro b
      rw [← ih (by omega), ← skip_of_le hk]
      exact ofFormulaFrom_congr _ _ (Formula.eval_restrict_map k next b f)
    rw [ofFormulaFrom_succ, ofFormulaFrom_succ, hrestrict, hrestrict, map_choose (skip_injective k), skip_of_le hk]

/-- The new atom decides nothing. -/
theorem ofFormulaFrom_skip_self (count k : Nat) (f : Formula Nat) :
    ofFormulaFrom (count + 1) k (f.map (skip k)) = (ofFormulaFrom count k f).map (skip k) := by
  have hrestrict : ∀ b, ofFormulaFrom count (k + 1) ((f.map (skip k)).restrict k b) =
      (ofFormulaFrom count k f).map (skip k) := by
    intro b
    rw [← ofFormulaFrom_shift count (Nat.le_refl k)]
    refine ofFormulaFrom_congr _ _ fun ρ => ?_
    rw [Formula.eval_restrict_eq, Formula.eval_map, Formula.eval_map]
    refine Formula.eval_congr f fun a _ => ?_
    exact Function.update_of_ne (skip_ne k a) _ _
  rw [ofFormulaFrom_succ, hrestrict, hrestrict, choose, if_pos rfl]

theorem ofFormulaFrom_skip {k : Nat} (count : Nat) {next : Nat} (hnext : next ≤ k) (hk : k ≤ next + count)
    (f : Formula Nat) :
    ofFormulaFrom (count + 1) next (f.map (skip k)) = (ofFormulaFrom count next f).map (skip k) := by
  rcases Nat.eq_or_lt_of_le hnext with rfl | hlt
  · exact ofFormulaFrom_skip_self count next f
  induction count generalizing next f with
  | zero => omega
  | succ count ih =>
    have hrestrict : ∀ b, ofFormulaFrom (count + 1) (next + 1) ((f.map (skip k)).restrict next b) =
        (ofFormulaFrom count (next + 1) (f.restrict next b)).map (skip k) := by
      intro b
      have hcongr : ofFormulaFrom (count + 1) (next + 1) ((f.map (skip k)).restrict next b) =
          ofFormulaFrom (count + 1) (next + 1) ((f.restrict next b).map (skip k)) := by
        refine ofFormulaFrom_congr _ _ fun ρ => ?_
        have hmap := Formula.eval_restrict_map k next b f ρ
        rwa [skip_of_lt hlt] at hmap
      rw [hcongr]
      rcases Nat.eq_or_lt_of_le hlt with rfl | hlt'
      · exact ofFormulaFrom_skip_self count _ _
      · exact ih hlt (by omega) _ hlt'
    rw [ofFormulaFrom_succ (count + 1), hrestrict, hrestrict, ofFormulaFrom_succ count, map_choose (skip_injective k),
      skip_of_lt hlt]

end Diagram

namespace Cube

variable (k : Nat)

theorem clashes_insertIdx (l r : Cube) : clashes (l.insertIdx k none) (r.insertIdx k none) = clashes l r := by
  induction k generalizing l r with
  | zero => rfl
  | succ k ih =>
    cases l with
    | nil => rfl
    | cons x l =>
      cases r with
      | nil => rfl
      | cons y r => rw [List.insertIdx_succ_cons, List.insertIdx_succ_cons, clashes_cons, clashes_cons, ih]

theorem excess_insertIdx (l r : Cube) : excess (l.insertIdx k none) (r.insertIdx k none) = excess l r := by
  induction k generalizing l r with
  | zero => rfl
  | succ k ih =>
    cases l with
    | nil => rfl
    | cons x l =>
      cases r with
      | nil => rfl
      | cons y r => rw [List.insertIdx_succ_cons, List.insertIdx_succ_cons, excess_cons, excess_cons, ih]

theorem widen_insertIdx (l r : Cube) :
    widen (l.insertIdx k none) (r.insertIdx k none) = (widen l r).insertIdx k none := by
  induction k generalizing l r with
  | zero => rfl
  | succ k ih =>
    cases l with
    | nil => rfl
    | cons x l =>
      cases r with
      | nil => rfl
      | cons y r => exact congrArg (_ :: ·) (ih l r)

theorem weight_insertIdx (c : Cube) : weight (c.insertIdx k none) = weight c := by
  induction k generalizing c with
  | zero => rfl
  | succ k ih =>
    cases c with
    | nil => rfl
    | cons x c =>
      have := ih c
      simp only [weight, List.insertIdx_succ_cons, List.countP_cons] at this ⊢
      rw [this]

theorem set_insertIdx (a : Nat) (v : Option Bool) (c : Cube) :
    (c.insertIdx k none).set (skip k a) v = (c.set a v).insertIdx k none := by
  induction k generalizing a c with
  | zero => rfl
  | succ k ih =>
    cases c with
    | nil => rfl
    | cons x c =>
      cases a with
      | zero => rfl
      | succ a =>
        have hskip : skip (k + 1) (a + 1) = skip k a + 1 := by
          unfold skip
          split <;> split <;> omega
        rw [hskip, List.insertIdx_succ_cons, List.set_cons_succ, List.set_cons_succ, List.insertIdx_succ_cons, ih]

theorem top_insertIdx {n : Nat} (h : k ≤ n) : (top n).insertIdx k none = top (n + 1) := by
  induction k generalizing n with
  | zero => rfl
  | succ k ih =>
    cases n with
    | zero => omega
    | succ n => exact congrArg (none :: ·) (ih (by omega))

/-- The requirements of a cube whose first atom is `i`. -/
def literalsFrom : Nat → Cube → List (Formula Nat)
  | _, [] => []
  | i, none :: c => literalsFrom (i + 1) c
  | i, some true :: c => .atom i :: literalsFrom (i + 1) c
  | i, some false :: c => .not (.atom i) :: literalsFrom (i + 1) c

theorem literals_eq (c : Cube) : c.literals = literalsFrom 0 c := by
  unfold literals
  generalize 0 = start
  induction c generalizing start with
  | nil => rfl
  | cons x c ih =>
    rcases x with _ | _ | _
    · simp [literalsFrom, ih]
    · simp [literalsFrom, ih]
    · simp [literalsFrom, ih]

theorem literalsFrom_shift {start : Nat} (h : k ≤ start) (c : Cube) :
    literalsFrom (start + 1) c = (literalsFrom start c).map (Formula.map (skip k)) := by
  induction c generalizing start with
  | nil => rfl
  | cons x c ih =>
    rcases x with _ | _ | _
    · exact ih (by omega)
    · simp [literalsFrom, Formula.map, skip_of_le h, ih (Nat.le_succ_of_le h)]
    · simp [literalsFrom, Formula.map, skip_of_le h, ih (Nat.le_succ_of_le h)]

theorem literalsFrom_insertIdx (start : Nat) (c : Cube) :
    literalsFrom start (c.insertIdx k none) = (literalsFrom start c).map (Formula.map (skip (start + k))) := by
  induction k generalizing start c with
  | zero => exact literalsFrom_shift _ (Nat.le_refl start) c
  | succ k ih =>
    cases c with
    | nil => rfl
    | cons x c =>
      have hrest := ih (start + 1) c
      rw [Nat.add_assoc, Nat.add_comm 1 k] at hrest
      have hskip : skip (start + (k + 1)) start = start := skip_of_lt (by omega)
      rcases x with _ | _ | _
      · exact hrest
      · simp [literalsFrom, Formula.map, hskip, hrest]
      · simp [literalsFrom, Formula.map, hskip, hrest]

theorem literals_insertIdx (c : Cube) : literals (c.insertIdx k none) = c.literals.map (Formula.map (skip k)) := by
  rw [literals_eq, literals_eq, literalsFrom_insertIdx, Nat.zero_add]

/-- Applies a map to the cubes of a verdict. -/
def Verdict.map (φ : Cube → Cube) : Verdict → Verdict
  | keep => keep
  | dropLeft => dropLeft
  | dropRight => dropRight
  | fuse c => fuse (φ c)
  | widenLeft c => widenLeft (φ c)
  | widenRight c => widenRight (φ c)

theorem compare_insertIdx (l r : Cube) :
    compare (l.insertIdx k none) (r.insertIdx k none) = (compare l r).map (·.insertIdx k none) := by
  have heq : l.insertIdx k none = r.insertIdx k none ↔ l = r := (List.insertIdx_injective k none).eq_iff
  unfold compare
  rw [clashes_insertIdx, excess_insertIdx, excess_insertIdx, widen_insertIdx, widen_insertIdx]
  by_cases hlr : l = r
  · rw [if_pos (heq.2 hlr), if_pos hlr]
    rfl
  · rw [if_neg (heq.not.2 hlr), if_neg hlr]
    split <;> rfl

end Cube

namespace Cover

namespace Reduction

/-- Applies a map to all cubes. -/
def map (φ : Cube → Cube) (s : Reduction) : Reduction := ⟨s.slots.map (Option.map φ), s.pending⟩

variable {φ : Cube → Cube}

theorem cube?_map (s : Reduction) (i : Nat) : (s.map φ).cube? i = (s.cube? i).map φ := by
  rw [cube?, map, Array.getElem?_map, cube?]
  cases s.slots[i]? with
  | none => rfl
  | some c => rfl

theorem map_put (s : Reduction) (i : Nat) (c : Option Cube) : (s.put i c).map φ = (s.map φ).put i (c.map φ) := by
  rw [put, put, map, map, Array.map_setIfInBounds]

theorem map_enqueue (s : Reduction) (i : Nat) : (s.enqueue i).map φ = (s.map φ).enqueue i := rfl

variable (hφ : ∀ l r, (φ l).compare (φ r) = (l.compare r).map φ)

include hφ

/-- Reduction looks at cubes by comparing them only. -/
theorem scan_map (i : Nat) (js : List Nat) (s : Reduction) : scan i js (s.map φ) = (scan i js s).map φ := by
  induction js generalizing s with
  | nil => rfl
  | cons j js ih =>
    rw [scan, scan, cube?_map, cube?_map]
    cases hi : s.cube? i with
    | none => rfl
    | some l =>
      cases hj : s.cube? j with
      | none => exact ih s
      | some r =>
        simp only [Option.map_some]
        by_cases hji : j = i
        · rw [if_pos hji, if_pos hji]
          exact ih s
        · rw [if_neg hji, if_neg hji, hφ]
          cases l.compare r with
          | keep => exact ih s
          | dropLeft => exact (map_put s i none).symm
          | dropRight =>
            simp only [Cube.Verdict.map, ← ih, map_put, Option.map_none]
          | fuse c => simp only [Cube.Verdict.map, ← ih, map_put, map_enqueue, Option.map_none, Option.map_some]
          | widenLeft c => simp only [Cube.Verdict.map, ← ih, map_put, map_enqueue, Option.map_some]
          | widenRight c => simp only [Cube.Verdict.map, ← ih, map_put, map_enqueue, Option.map_some]

theorem run_map (steps : Nat) (s : Reduction) : run steps (s.map φ) = (run steps s).map φ := by
  induction steps generalizing s with
  | zero => rfl
  | succ steps ih =>
    obtain ⟨slots, pending⟩ := s
    cases pending with
    | nil => rfl
    | cons i rest =>
      rw [map, run, run, Array.size_map]
      exact (congrArg (run steps) (scan_map hφ i _ ⟨slots, rest⟩)).trans (ih _)

end Reduction

theorem reduce_map {φ : Cube → Cube} (hφ : ∀ l r, (φ l).compare (φ r) = (l.compare r).map φ)
    (hweight : ∀ c, (φ c).weight = c.weight) (cubes : List Cube) : reduce (cubes.map φ) = (reduce cubes).map φ := by
  have hstart : (⟨((cubes.map φ).map some).toArray, List.range (cubes.map φ).length⟩ : Reduction) =
      Reduction.map φ ⟨(cubes.map some).toArray, List.range cubes.length⟩ := by
    simp [Reduction.map, Function.comp_def]
  have hsteps : (cubes.map φ).foldr (fun c n => c.weight + n) 0 = cubes.foldr (fun c n => c.weight + n) 0 := by
    simp [List.foldr_map, hweight]
  unfold reduce
  dsimp only
  rw [hstart, hsteps, List.length_map, Reduction.run_map hφ, List.map_filterMap, Reduction.map, Array.toList_map,
    List.filterMap_map]
  rfl

/-- The cover of a diagram leaves the new atom open. -/
theorem ofDiagram_skip {k n : Nat} (hk : k ≤ n) (d : Diagram) :
    ofDiagram (n + 1) (d.map (skip k)) = (ofDiagram n d).map (·.insertIdx k none) := by
  induction d with
  | leaf b =>
    cases b with
    | false => rfl
    | true => rw [Diagram.map, ofDiagram, ofDiagram, List.map_singleton, Cube.top_insertIdx k hk]
  | branch a low high ihl ihh =>
    rw [Diagram.map, ofDiagram, ofDiagram, ihl, ihh, ← reduce_map (Cube.compare_insertIdx k) (Cube.weight_insertIdx k)]
    simp only [List.map_append, List.map_map, Function.comp_def, Cube.set_insertIdx]

end Cover

namespace Formula

variable {α β : Type} {h : α → β}

theorem map_injective (hinj : Function.Injective h) : Function.Injective (map h) := by
  intro f g hfg
  induction f generalizing g with
  | const b =>
    cases g with
    | const c => exact congrArg const (const.inj hfg)
    | _ => cases hfg
  | atom a =>
    cases g with
    | atom b => exact congrArg atom (hinj (atom.inj hfg))
    | _ => cases hfg
  | not f ih =>
    cases g with
    | not g => exact congrArg not (ih (not.inj hfg))
    | _ => cases hfg
  | and f f' ih ih' =>
    cases g with
    | and g g' => exact congrArg₂ and (ih (and.inj hfg).1) (ih' (and.inj hfg).2)
    | _ => cases hfg
  | or f f' ih ih' =>
    cases g with
    | or g g' => exact congrArg₂ or (ih (or.inj hfg).1) (ih' (or.inj hfg).2)
    | _ => cases hfg

theorem map_all (fs : List (Formula α)) : (all fs).map h = all (fs.map (map h)) := by
  cases fs with
  | nil => rfl
  | cons f fs =>
    rw [all, List.map_cons, all, List.foldl_map]
    exact (List.foldl_hom (map h) fun _ _ => rfl).symm

theorem map_any (fs : List (Formula α)) : (any fs).map h = any (fs.map (map h)) := by
  cases fs with
  | nil => rfl
  | cons f fs =>
    rw [any, List.map_cons, any, List.foldl_map]
    exact (List.foldl_hom (map h) fun _ _ => rfl).symm

section Factor

variable {σ : Nat → Nat} (hσ : Function.Injective σ)

include hσ

theorem contains_map (p : List (Formula Nat)) (x : Formula Nat) : (p.map (map σ)).contains (x.map σ) = p.contains x := by
  rw [Bool.eq_iff_iff, List.contains_iff_mem, List.contains_iff_mem, List.mem_map_of_injective (map_injective hσ)]

/-- The factors shared by all products are renamed with them. -/
theorem shared_map (ps : List (List (Formula Nat))) :
    ((ps.map (·.map (map σ))).headD []).filter (fun x => (ps.map (·.map (map σ))).all (·.contains x)) =
      ((ps.headD []).filter fun x => ps.all (·.contains x)).map (map σ) := by
  have hhead : (ps.map (·.map (map σ))).headD [] = (ps.headD []).map (map σ) := by
    cases ps with
    | nil => rfl
    | cons p ps => rfl
  rw [hhead, List.filter_map]
  simp only [List.all_map, Function.comp_def, contains_map hσ]

theorem rest_map (shared : List (Formula Nat)) (ps : List (List (Formula Nat))) :
    (any (ps.map fun p => all (p.filter fun x => !shared.contains x))).map σ =
      any ((ps.map (·.map (map σ))).map fun p => all (p.filter fun x => !(shared.map (map σ)).contains x)) := by
  rw [map_any, List.map_map, List.map_map]
  congr 1
  refine List.map_congr_left fun p _ => ?_
  simp only [Function.comp_def, map_all, List.filter_map, contains_map hσ]

theorem map_factor (products : List (List (Formula Nat))) :
    (factor products).map σ = factor (products.map (·.map (map σ))) := by
  cases products with
  | nil => rfl
  | cons p ps =>
    cases ps with
    | nil => exact map_all p
    | cons q ps =>
      have hmany : (p :: q :: ps).map (·.map (map σ)) = p.map (map σ) :: q.map (map σ) :: ps.map (·.map (map σ)) := rfl
      -- `factor` takes the branch for several products once both lists show two of them
      unfold factor
      simp only [hmany]
      simp only [← hmany, shared_map hσ, List.isEmpty_map, ← rest_map hσ]
      generalize ((p :: q :: ps).headD []).filter (fun x => (p :: q :: ps).all (·.contains x)) = shared
      split
      · rw [map_any, List.map_map, List.map_map]
        congr 1
        exact List.map_congr_left fun p _ => map_all p
      · generalize any ((p :: q :: ps).map fun p => all (p.filter fun x => !shared.contains x)) = rest
        rcases rest with (_ | _) | _ | _ | _ | _
        · exact congrArg (and · _) (map_all shared)
        · exact map_all shared
        all_goals exact congrArg (and · _) (map_all shared)

end Factor

/-- An atom at `k` on which nothing depends makes no difference. -/
theorem minimize_skip {k n : Nat} (hk : k ≤ n) (f : Formula Nat) :
    (f.map (skip k)).minimize (n + 1) = (f.minimize n).map (skip k) := by
  rw [minimize, minimize, Diagram.ofFormula, Diagram.ofFormula, Diagram.ofFormulaFrom_skip n (Nat.zero_le k) (by omega),
    Cover.ofDiagram_skip hk, map_factor (skip_injective k), List.map_map, List.map_map]
  congr 1
  exact List.map_congr_left fun c _ => Cube.literals_insertIdx k c

theorem minimize_congr (n : Nat) {f g : Formula Nat} (h : ∀ ρ, f.eval ρ = g.eval ρ) : f.minimize n = g.minimize n := by
  rw [minimize, minimize, Diagram.ofFormula, Diagram.ofFormula, Diagram.ofFormulaFrom_congr n 0 h]

theorem mem_atoms_foldl {op : Formula α → Formula α → Formula α} (hop : ∀ f g, (op f g).atoms = f.atoms ++ g.atoms)
    {fs : List (Formula α)} {f : Formula α} {a : α} (ha : a ∈ (fs.foldl op f).atoms) : ∃ g ∈ f :: fs, a ∈ g.atoms := by
  induction fs generalizing f with
  | nil => exact ⟨f, List.mem_cons_self, ha⟩
  | cons g fs ih =>
    obtain ⟨x, hx, hax⟩ := ih ha
    rcases List.mem_cons.1 hx with rfl | hx
    · rw [hop, List.mem_append] at hax
      rcases hax with hax | hax
      · exact ⟨f, by simp, hax⟩
      · exact ⟨g, by simp, hax⟩
    · exact ⟨x, by simp [hx], hax⟩

theorem mem_atoms_all {fs : List (Formula α)} {a : α} (ha : a ∈ (all fs).atoms) : ∃ f ∈ fs, a ∈ f.atoms := by
  cases fs with
  | nil => cases ha
  | cons f fs => exact mem_atoms_foldl (fun _ _ => rfl) ha

theorem mem_atoms_any {fs : List (Formula α)} {a : α} (ha : a ∈ (any fs).atoms) : ∃ f ∈ fs, a ∈ f.atoms := by
  cases fs with
  | nil => cases ha
  | cons f fs => exact mem_atoms_foldl (fun _ _ => rfl) ha

theorem mem_atoms_factor {products : List (List (Formula Nat))} {a : Nat} (ha : a ∈ (factor products).atoms) :
    ∃ p ∈ products, ∃ x ∈ p, a ∈ x.atoms := by
  unfold factor at ha
  split at ha
  · rename_i p
    exact ⟨p, List.mem_singleton_self p, mem_atoms_all ha⟩
  · dsimp only at ha
    have hshared : a ∈ (all ((products.headD []).filter fun x => products.all (·.contains x))).atoms →
        ∃ p ∈ products, ∃ x ∈ p, a ∈ x.atoms := by
      intro ha
      obtain ⟨x, hx, hax⟩ := mem_atoms_all ha
      cases products with
      | nil => cases hx
      | cons p ps => exact ⟨p, List.mem_cons_self, x, (List.mem_filter.1 hx).1, hax⟩
    generalize (products.headD []).filter (fun x => products.all (·.contains x)) = shared at ha hshared
    split at ha
    · obtain ⟨f, hf, ha⟩ := mem_atoms_any ha
      obtain ⟨p, hp, rfl⟩ := List.mem_map.1 hf
      exact ⟨p, hp, mem_atoms_all ha⟩
    · split at ha
      · exact hshared ha
      · rcases List.mem_append.1 ha with ha | ha
        · exact hshared ha
        · obtain ⟨f, hf, ha⟩ := mem_atoms_any ha
          obtain ⟨p, hp, rfl⟩ := List.mem_map.1 hf
          obtain ⟨x, hx, ha⟩ := mem_atoms_all ha
          exact ⟨p, hp, x, (List.mem_filter.1 hx).1, ha⟩

end Formula

theorem Cube.lt_of_mem_literals {c : Cube} {x : Formula Nat} (hx : x ∈ c.literals) {a : Nat} (ha : a ∈ x.atoms) :
    a < c.length := by
  have hfrom : ∀ (c : Cube) (start : Nat), x ∈ literalsFrom start c → a < start + c.length := by
    intro c
    induction c with
    | nil => exact fun _ hx => absurd hx List.not_mem_nil
    | cons y c ih =>
      intro start hx
      have hrest : x ∈ literalsFrom (start + 1) c → a < start + (y :: c).length := by
        intro hx
        have := ih (start + 1) hx
        rw [List.length_cons]
        omega
      have hfirst : x.atoms = [start] → a < start + (y :: c).length := by
        intro hx
        rw [hx, List.mem_singleton] at ha
        rw [List.length_cons]
        omega
      rcases y with _ | _ | _
      · exact hrest hx
      · rcases List.mem_cons.1 hx with rfl | hx
        · exact hfirst rfl
        · exact hrest hx
      · rcases List.mem_cons.1 hx with rfl | hx
        · exact hfirst rfl
        · exact hrest hx
  rw [literals_eq] at hx
  simpa using hfrom c 0 hx

/-- Only the atoms that a formula is minimized over can occur. -/
theorem Formula.lt_of_mem_minimize {n : Nat} {f : Formula Nat} {a : Nat} (ha : a ∈ (f.minimize n).atoms) : a < n := by
  obtain ⟨p, hp, x, hx, ha⟩ := mem_atoms_factor ha
  obtain ⟨c, hc, rfl⟩ := List.mem_map.1 hp
  have hwithin := Diagram.within_ofFormulaFrom n 0 f
  rw [Nat.zero_add] at hwithin
  have hlength : c.length = n := ((Cover.ofDiagram_sound (fun _ => false) n 0 _ hwithin).1 c hc).1
  exact hlength ▸ Cube.lt_of_mem_literals hx ha

end Sequencer
