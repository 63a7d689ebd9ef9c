import Sequencer.DataType.Unify
import Sequencer.Proofs.Listing

set_option autoImplicit false

/-!
# Matching is exact

Matching solves the equation "the template filled in is the type" for the parameters of the template. Bindings are read
as what they ask of a solution, so that an argument matched first is not looked at again when later ones are bound.
-/

namespace Sequencer

mutual
/-- The parameters that occur in an argument. -/
def TypeArg.params : TypeArg → List String
  | .width _ => []
  | .type _ as => TypeArg.paramsAll as
  | .param p => [p]
def TypeArg.paramsAll : List TypeArg → List String
  | [] => []
  | a :: as => a.params ++ TypeArg.paramsAll as
end

def DataType.params (t : DataType) : List String := TypeArg.paramsAll t.args

namespace Bindings

/-- Each binding of `s` is one of `s'`. -/
def Within (s s' : Bindings) : Prop := ∀ p a, s.get? p = some a → s'.get? p = some a

/-- Filling in with `s'` replaces the parameters bound in `s` as `s` does. A parameter that `s` binds to itself need not
be bound in `s'`. -/
def Meets (s s' : Bindings) : Prop := ∀ p a, s.get? p = some a → (TypeArg.param p).substitute s' = a

theorem meets_of_within {s s' : Bindings} (h : s.Within s') : s.Meets s' := by
  intro p a hp
  rw [TypeArg.substitute, h p a hp, Option.getD_some]

theorem meets_self (s : Bindings) : s.Meets s := meets_of_within fun _ _ hp => hp

theorem meets_insert {s s' : Bindings} {p : String} (hp : s.get? p = none) (b : TypeArg) :
    Meets (s.insert p b) s' ↔ s.Meets s' ∧ (TypeArg.param p).substitute s' = b := by
  constructor
  · intro h
    refine ⟨fun q a hq => h q a ?_, h p b (Listing.get?_insert_self s p b)⟩
    have hqp : q ≠ p := by
      rintro rfl
      cases hp.symm.trans hq
    rw [Listing.get?_insert_of_ne s b hqp, hq]
  · rintro ⟨hs, hb⟩ q a hq
    by_cases hqp : q = p
    · subst hqp
      rw [Listing.get?_insert_self] at hq
      exact hb.trans (Option.some.inj hq)
    · rw [Listing.get?_insert_of_ne s b hqp] at hq
      exact hs q a hq

/-- The bindings of `s'` are those of `s` and then others, of parameters in `ps`. -/
def Adds (ps : List String) (s s' : Bindings) : Prop :=
  ∃ added, s'.entries = s.entries ++ added ∧ ∀ e ∈ added, e.1 ∈ ps

theorem Adds.refl (ps : List String) (s : Bindings) : Adds ps s s := ⟨[], by simp, by simp⟩

theorem Adds.trans {ps qs : List String} {s s' s'' : Bindings} (h : Adds ps s s') (h' : Adds qs s' s'') :
    Adds (ps ++ qs) s s'' := by
  obtain ⟨added, hs', hps⟩ := h
  obtain ⟨added', hs'', hqs⟩ := h'
  refine ⟨added ++ added', by rw [hs'', hs', List.append_assoc], ?_⟩
  intro e he
  rw [List.mem_append] at he ⊢
  exact he.imp (hps e) (hqs e)

theorem Adds.mono {ps qs : List String} {s s' : Bindings} (h : Adds ps s s') (hsub : ps ⊆ qs) : Adds qs s s' := by
  obtain ⟨added, hs', hps⟩ := h
  exact ⟨added, hs', fun e he => hsub (hps e he)⟩

theorem adds_insert {s : Bindings} {p : String} (hp : s.get? p = none) (b : TypeArg) : Adds [p] s (s.insert p b) := by
  refine ⟨[(p, b)], Listing.entries_insert_of_notMem ?_ b, by simp⟩
  rw [Listing.mem_keys_iff]
  rintro ⟨a, ha⟩
  cases hp.symm.trans ha

theorem Adds.within {ps : List String} {s s' : Bindings} (h : Adds ps s s') : s.Within s' := by
  obtain ⟨added, hs', _⟩ := h
  intro p a hp
  rw [Listing.get?_eq_some_iff] at hp ⊢
  rw [hs']
  exact List.mem_append_left _ hp

theorem Adds.mem_keys {ps : List String} {s s' : Bindings} (h : Adds ps s s') {p : String} (hp : p ∈ s'.keys) :
    p ∈ s.keys ∨ p ∈ ps := by
  obtain ⟨added, hs', hps⟩ := h
  rw [Listing.keys, hs', List.map_append, List.mem_append] at hp
  refine hp.imp_right fun hadded => ?_
  obtain ⟨e, he, rfl⟩ := List.mem_map.1 hadded
  exact hps e he

end Bindings

namespace TypeArg

open Bindings

theorem length_substituteAll (s : Bindings) (as : List TypeArg) : (substituteAll s as).length = as.length := by
  induction as with
  | nil => rfl
  | cons a as ih => rw [substituteAll, List.length_cons, List.length_cons, ih]

mutual
/-- What the bindings ask of a solution, with the equation between template and argument, is what the bindings after the
match ask, provided it succeeds. -/
theorem meets_unify (s' : Bindings) : (a b : TypeArg) → (s : Bindings) →
    (s.Meets s' ∧ a.substitute s' = b ↔ (a.unify b s).1 = true ∧ Meets (a.unify b s).2 s')
  | .param p, b, s => by
    rw [unify]
    cases hp : s.get? p with
    | none =>
      simp only [true_and]
      exact (meets_insert hp b).symm
    | some bound =>
      simp only [beq_iff_eq]
      rw [and_comm]
      refine and_congr_left fun hs => ?_
      rw [hs p bound hp]
  | .width m, b, s => by
    cases b with
    | width n => simp [unify, substitute, and_comm]
    | type l bs => simp [unify, substitute]
    | param q => simp [unify, substitute]
  | .type k as, b, s => by
    cases b with
    | width n => simp [unify, substitute]
    | param q => simp [unify, substitute]
    | type l bs =>
      rw [unify, substitute]
      split
      · rename_i hshape
        rw [← meets_unifyAll s' as bs s hshape.2, hshape.1, TypeArg.type.injEq]
        simp
      · rename_i hshape
        simp only [Bool.false_eq_true, false_and, iff_false, not_and, type.injEq]
        rintro _ rfl rfl
        exact hshape ⟨rfl, (length_substituteAll s' as).symm⟩
theorem meets_unifyAll (s' : Bindings) : (as bs : List TypeArg) → (s : Bindings) → as.length = bs.length →
    (s.Meets s' ∧ substituteAll s' as = bs ↔ (unifyAll as bs s).1 = true ∧ Meets (unifyAll as bs s).2 s')
  | [], [], s, _ => by simp [unifyAll, substituteAll]
  | a :: as, b :: bs, s, hlength => by
    have hhead := meets_unify s' a b s
    rw [unifyAll, substituteAll, List.cons.injEq, ← and_assoc, hhead]
    obtain ⟨success, s₁⟩ := a.unify b s
    cases success with
    | true =>
      simp only [true_and]
      exact meets_unifyAll s' as bs s₁ (Nat.succ.inj hlength)
    | false => simp
end

mutual
theorem adds_unify : (a b : TypeArg) → (s : Bindings) → Adds a.params s (a.unify b s).2
  | .param p, b, s => by
    rw [unify]
    cases hp : s.get? p with
    | none => exact adds_insert hp b
    | some bound => exact .refl _ s
  | .width m, b, s => by
    cases b with
    | width n => exact .refl _ s
    | type l bs => exact .refl _ s
    | param q => exact .refl _ s
  | .type k as, b, s => by
    cases b with
    | width n => exact .refl _ s
    | param q => exact .refl _ s
    | type l bs =>
      rw [unify, params]
      split
      · exact adds_unifyAll as bs s
      · exact .refl _ s
theorem adds_unifyAll : (as bs : List TypeArg) → (s : Bindings) → Adds (paramsAll as) s (unifyAll as bs s).2
  | [], [], s => .refl _ s
  | [], _ :: _, s => .refl _ s
  | _ :: _, [], s => .refl _ s
  | a :: as, b :: bs, s => by
    have hhead := adds_unify a b s
    rw [unifyAll, paramsAll]
    generalize a.unify b s = result at hhead ⊢
    obtain ⟨success, s₁⟩ := result
    cases success with
    | true => exact hhead.trans (adds_unifyAll as bs s₁)
    | false => exact hhead.mono (List.subset_append_left _ _)
end

end TypeArg

namespace DataType

open Bindings

theorem substitute_toArg (s : Bindings) (t : DataType) : t.toArg.substitute s = (t.substitute s).toArg := by
  rw [toArg, TypeArg.substitute]
  rfl

theorem toArg_inj {t c : DataType} : t.toArg = c.toArg ↔ t = c := by
  cases t
  cases c
  simp [toArg]

theorem meets_unify (t c : DataType) (s s' : Bindings) :
    s.Meets s' ∧ t.substitute s' = c ↔ (t.unify c s).1 = true ∧ Meets (t.unify c s).2 s' := by
  rw [← toArg_inj, ← substitute_toArg]
  exact TypeArg.meets_unify s' t.toArg c.toArg s

theorem adds_unify (t c : DataType) (s : Bindings) : Adds t.params s (t.unify c s).2 :=
  TypeArg.adds_unify t.toArg c.toArg s

/-- A template matches a type exactly if some bindings beyond the given ones fill it in to that type. The bindings after
a match do, and they are new for parameters of the template only. Whether or not the match succeeds, all bindings from
before are kept. -/
theorem unify_exact (t c : DataType) (s : Bindings) :
    ((t.unify c s).1 = true ↔ ∃ s', s.Within s' ∧ t.substitute s' = c) ∧
    ((t.unify c s).1 = true → t.substitute (t.unify c s).2 = c ∧ ∀ p ∈ (t.unify c s).2.keys, p ∈ s.keys ∨ p ∈ t.params) ∧
    s.Within (t.unify c s).2 := by
  have hadds := adds_unify t c s
  have hsolved : (t.unify c s).1 = true → t.substitute (t.unify c s).2 = c := fun h =>
    ((meets_unify t c s _).2 ⟨h, meets_self _⟩).2
  refine ⟨⟨fun h => ⟨_, hadds.within, hsolved h⟩, ?_⟩, fun h => ⟨hsolved h, fun p hp => hadds.mem_keys hp⟩, hadds.within⟩
  rintro ⟨s', hwithin, hc⟩
  exact ((meets_unify t c s s').1 ⟨meets_of_within hwithin, hc⟩).1

/-- The binding made before the match fails is kept. -/
example : let pair (a b : TypeArg) : DataType := ⟨.tuple, [a, b]⟩
    (pair (.param "T") (.param "T")).unify (pair (.width 1) (.width 2)) .empty =
      (false, Listing.empty.insert "T" (.width 1)) := by
  decide

end DataType

end Sequencer
