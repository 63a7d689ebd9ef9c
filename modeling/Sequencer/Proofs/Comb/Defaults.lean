import Sequencer.Comb.Defaults
import Sequencer.Proofs.Comb.Execution

set_option autoImplicit false

/-!
# Default propagation keeps values

Propagation leaves a control signal with the value that it had. Another signal may get a value where nothing drove it
before, since its defaults move out of guards, but never another value.
-/

namespace Sequencer

namespace Comb

/-- `y` is `x`, or such a value as `loose` describes where there was none. -/
def Extends {V : Type} (loose : Option V → Prop) (x y : Option V) : Prop := y = x ∨ x = none ∧ loose y

namespace Extends

variable {V : Type} {loose : Option V → Prop} {x y z : Option V}

theorem refl (x : Option V) : Extends loose x x := .inl rfl

theorem trans (h : Extends loose x y) (h' : Extends loose y z) : Extends loose x z := by
  rcases h with rfl | ⟨hx, hy⟩
  · exact h'
  · rcases h' with rfl | ⟨_, hz⟩
    · exact .inr ⟨hx, hy⟩
    · exact .inr ⟨hx, hz⟩

theorem or_left (c : Option V) (h : Extends loose x y) : Extends loose (c.or x) (c.or y) := by
  cases c with
  | some v => exact .inl rfl
  | none => simpa [Extends] using h

theorem eq_some {v : V} (h : Extends loose (some v) y) : y = some v := h.resolve_right (by simp)

end Extends

/-- No drive of the signal may leave a guard. -/
def Controlled (isControl : Assign → Bool) (t : String) : Prop := ∀ d, isControl ⟨t, d⟩ = true

/-- The value of a drive that may leave a guard, with which the signal is driven where all assignments satisfy `P`. -/
def Loose {V : Type} (I : Interpretation V) (ρ : Valuation V) (isControl : Assign → Bool) (P : Assign → Prop) (t : String)
    (y : Option V) : Prop :=
  ∃ d, P ⟨t, d⟩ ∧ isControl ⟨t, d⟩ = false ∧ y = d.final I ρ

namespace Exchange

variable (stays : String → Drive → Bool)

/-- Takes out one default. -/
def step (x : Exchange) (e : String × Drive) : Exchange :=
  if stays e.1 e.2 then { x with inner := x.inner.insert e.1 e.2 }
  else
    match x.outer.take? e.1 e.2 with
    | some outer => { x with outer := outer }
    | none => { x with inner := x.inner.insert e.1 e.2 }

theorem run_cons (x : Exchange) (e : String × Drive) (es : List (String × Drive)) :
    run stays x (e :: es) = run stays (step stays x e) es := rfl

theorem take?_eq_some {ds ds' : Defaults} {t : String} {d : Drive} (h : ds.take? t d = some ds') :
    (∃ d', ds.get? t = some d' ∧ d'.val = d.val ∧ ds' = ds) ∨ ds.get? t = none ∧ ds' = ds.insert t d := by
  rw [Defaults.take?] at h
  split at h
  · rename_i d' hd'
    split at h
    · rename_i hval
      cases h
      exact .inl ⟨d', hd', hval, rfl⟩
    · cases h
  · rename_i hnone
    cases h
    exact .inr ⟨hnone, rfl⟩

theorem step_cases (x : Exchange) (t : String) (d : Drive) :
    step stays x (t, d) = { x with inner := x.inner.insert t d } ∨
      stays t d = false ∧ ∃ outer, x.outer.take? t d = some outer ∧ step stays x (t, d) = { x with outer := outer } := by
  unfold step
  split
  · exact .inl rfl
  · rename_i hstays
    split
    · rename_i outer houter
      exact .inr ⟨by simpa using hstays, outer, houter, rfl⟩
    · exact .inl rfl

theorem step_of_ne (x : Exchange) {t : String} {e : String × Drive} (h : t ≠ e.1) :
    (step stays x e).outer.get? t = x.outer.get? t ∧ (step stays x e).inner.get? t = x.inner.get? t := by
  obtain ⟨k, d⟩ := e
  rcases step_cases stays x k d with hstep | ⟨_, outer, htake, hstep⟩
  · rw [hstep]
    exact ⟨rfl, x.inner.get?_insert_of_ne d h⟩
  · rw [hstep]
    refine ⟨?_, rfl⟩
    rcases take?_eq_some htake with ⟨_, _, _, rfl⟩ | ⟨_, rfl⟩
    · rfl
    · exact x.outer.get?_insert_of_ne d h

theorem run_of_notMem (x : Exchange) {t : String} {es : List (String × Drive)} (h : t ∉ es.map Prod.fst) :
    (run stays x es).outer.get? t = x.outer.get? t ∧ (run stays x es).inner.get? t = x.inner.get? t := by
  induction es generalizing x with
  | nil => exact ⟨rfl, rfl⟩
  | cons e es ih =>
    rw [List.map_cons, List.mem_cons, not_or] at h
    obtain ⟨houter, hinner⟩ := step_of_ne stays x h.1
    rw [run_cons, ← houter, ← hinner]
    exact ih _ h.2

/-- What becomes of a default: it stays inside, repeats one outside or becomes one. -/
theorem run_of_mem (x : Exchange) {t : String} {d : Drive} {es : List (String × Drive)}
    (hnodup : (es.map Prod.fst).Nodup) (h : (t, d) ∈ es) :
    (run stays x es).inner.get? t = some d ∧ (run stays x es).outer.get? t = x.outer.get? t ∨
      stays t d = false ∧ (run stays x es).inner.get? t = x.inner.get? t ∧
        ((∃ d', x.outer.get? t = some d' ∧ d'.val = d.val ∧ (run stays x es).outer.get? t = some d') ∨
          x.outer.get? t = none ∧ (run stays x es).outer.get? t = some d) := by
  induction es generalizing x with
  | nil => cases h
  | cons e es ih =>
    rw [List.map_cons, List.nodup_cons] at hnodup
    rw [run_cons]
    rcases List.mem_cons.1 h with rfl | h
    · obtain ⟨houter, hinner⟩ := run_of_notMem stays (step stays x (t, d)) hnodup.1
      rw [houter, hinner]
      rcases step_cases stays x t d with hstep | ⟨hstays, outer, htake, hstep⟩
      · rw [hstep]
        exact .inl ⟨x.inner.get?_insert_self t d, rfl⟩
      · rw [hstep]
        refine .inr ⟨hstays, rfl, ?_⟩
        rcases take?_eq_some htake with ⟨d', hget, hval, rfl⟩ | ⟨hget, rfl⟩
        · exact .inl ⟨d', hget, hval, hget⟩
        · exact .inr ⟨hget, x.outer.get?_insert_self t d⟩
    · have hne : t ≠ e.1 := fun hte => hnodup.1 (hte ▸ List.mem_map_of_mem h)
      obtain ⟨houter, hinner⟩ := step_of_ne stays x hne
      rw [← houter, ← hinner]
      exact ih _ hnodup.2 h

end Exchange

section Values

variable {V : Type} (I : Interpretation V) (ρ : Valuation V) (isControl : Assign → Bool) (t : String) {P : Assign → Prop}
  {Q : Expr → Prop}

theorem Defaults.final_congr {ds ds' : Defaults} (h : ds'.get? t = ds.get? t) : ds'.final I ρ t = ds.final I ρ t := by
  rw [final, final, h]

theorem Defaults.final_of_get? {ds : Defaults} {d : Drive} (h : ds.get? t = some d) : ds.final I ρ t = d.final I ρ := by
  rw [final, h, Option.bind_some]

theorem Defaults.final_of_get?_none {ds : Defaults} (h : ds.get? t = none) : ds.final I ρ t = none := by
  rw [final, h, Option.bind_none]

/-- The defaults of a nested block that `hoistStmts` takes out of it. -/
def stays (isControl : Assign → Bool) (driven : List String) (g : Cond) (t : String) (d : Drive) : Bool :=
  pinned driven t d.val || (g.isSome && isControl ⟨t, d⟩)

theorem exchange_of_driven {driven : List String} (ht : t ∈ driven) (g : Cond) (ds inner : Defaults) :
    let x := Exchange.run (stays isControl driven g) ⟨ds, .empty⟩ inner.entries
    x.outer.get? t = ds.get? t ∧ x.inner.get? t = inner.get? t := by
  intro x
  cases hget : inner.get? t with
  | none =>
    exact Exchange.run_of_notMem (stays isControl driven g) ⟨ds, .empty⟩ (Listing.get?_eq_none_iff.1 hget)
  | some d =>
    have hmem := (inner.get?_eq_some_iff t d).1 hget
    rcases Exchange.run_of_mem (stays isControl driven g) ⟨ds, .empty⟩ inner.nodup hmem with h | h
    · exact ⟨h.2, h.1⟩
    · have hpinned : stays isControl driven g t d = true := by simp [stays, pinned, ht]
      rw [hpinned] at h
      cases h.1

theorem exchange_extends (driven : List String) (g : Cond) (ds inner : Defaults) (ss : List Stmt)
    (hP : inner.Satisfies P) :
    let x := Exchange.run (stays isControl driven g) ⟨ds, .empty⟩ inner.entries
    Extends (Loose I ρ isControl P t) (((Stmt.block g inner ss).final I ρ t).or (ds.final I ρ t))
      (((Stmt.block g x.inner ss).final I ρ t).or (x.outer.final I ρ t)) := by
  intro x
  cases hget : inner.get? t with
  | none =>
    obtain ⟨houter, hinner⟩ := Exchange.run_of_notMem (stays isControl driven g) ⟨ds, .empty⟩
      (Listing.get?_eq_none_iff.1 hget)
    have hinner' : x.inner.get? t = inner.get? t := hinner.trans hget.symm
    refine .inl ?_
    rw [Stmt.final, Stmt.final, Defaults.final_congr I ρ t hinner', Defaults.final_congr I ρ t houter]
  | some d =>
    have hmem := (inner.get?_eq_some_iff t d).1 hget
    rcases Exchange.run_of_mem (stays isControl driven g) ⟨ds, .empty⟩ inner.nodup hmem with
      ⟨hinner, houter⟩ | ⟨hstays, hinner, h⟩
    · have hinner' : x.inner.get? t = inner.get? t := hinner.trans hget.symm
      refine .inl ?_
      rw [Stmt.final, Stmt.final, Defaults.final_congr I ρ t hinner', Defaults.final_congr I ρ t houter]
    · rw [Stmt.final, Stmt.final, Defaults.final_of_get? I ρ t hget, Defaults.final_of_get?_none I ρ t hinner,
        Option.or_none]
      rcases h with ⟨d', hds, hval, houter⟩ | ⟨hds, houter⟩
      · have hsame : d.final I ρ = d'.final I ρ := by rw [Drive.final, Drive.final, hval]
        rw [Defaults.final_of_get? I ρ t hds, Defaults.final_of_get? I ρ t houter, hsame]
        refine .inl ?_
        split
        · rw [Option.or_assoc, Option.or_self]
        · rfl
      · rw [Defaults.final_of_get?_none I ρ t hds, Defaults.final_of_get? I ρ t houter, Option.or_none]
        by_cases hg : Cond.holds I ρ g = true
        · rw [if_pos hg, if_pos hg]
          exact .refl _
        · rw [if_neg hg, if_neg hg]
          have hsome : g.isSome = true := by
            cases g with
            | none => exact absurd rfl hg
            | some e => rfl
          rw [stays, hsome, Bool.or_eq_false_iff, Bool.true_and] at hstays
          exact .inr ⟨rfl, d, hP _ hmem, hstays.2, Option.none_or⟩

theorem hoistStmts_assign (ds : Defaults) (driven : List String) (a : Assign) (rest : List Stmt) :
    (∃ ds', pinned driven a.target a.val = false ∧ ds.take? a.target a.drive = some ds' ∧
      hoistStmts isControl ds driven (.assign a :: rest) = hoistStmts isControl ds' driven rest) ∨
    (pinned driven a.target a.val = true ∨ ds.take? a.target a.drive = none) ∧
      hoistStmts isControl ds driven (.assign a :: rest) =
        ((hoistStmts isControl ds (a.target :: driven) rest).1,
          .assign a :: (hoistStmts isControl ds (a.target :: driven) rest).2) := by
  rw [hoistStmts]
  dsimp only
  split
  · rename_i ds' htaken
    split at htaken
    · cases htaken
    · rename_i hpin
      exact .inl ⟨ds', by simpa using hpin, htaken, rfl⟩
  · rename_i htaken
    refine .inr ⟨?_, rfl⟩
    split at htaken
    · exact .inl ‹_›
    · exact .inr htaken

theorem hoistStmts_block (ds : Defaults) (driven : List String) (g : Cond) (inner : Defaults) (ss rest : List Stmt) :
    let x := Exchange.run (stays isControl driven g) ⟨ds, .empty⟩ inner.entries
    let s := Stmt.block g x.inner ss
    hoistStmts isControl ds driven (.block g inner ss :: rest) =
      ((hoistStmts isControl x.outer (s.targets ++ driven) rest).1,
        s :: (hoistStmts isControl x.outer (s.targets ++ driven) rest).2) := rfl

theorem hoistStmts_of_driven : (ss : List Stmt) → ∀ (ds : Defaults) (driven : List String), t ∈ driven →
    (hoistStmts isControl ds driven ss).1.get? t = ds.get? t ∧
      Stmt.finalAll I ρ t (hoistStmts isControl ds driven ss).2 = Stmt.finalAll I ρ t ss
  | [], _, _, _ => ⟨rfl, rfl⟩
  | .assign a :: rest, ds, driven, ht => by
    rcases hoistStmts_assign isControl ds driven a rest with ⟨ds', hpin, htake, hrun⟩ | ⟨_, hrun⟩
    · have hne : t ≠ a.target := by
        rintro rfl
        simp [pinned, ht] at hpin
      have hget : ds'.get? t = ds.get? t := by
        rcases Exchange.take?_eq_some htake with ⟨_, _, _, rfl⟩ | ⟨_, rfl⟩
        · rfl
        · exact ds.get?_insert_of_ne _ hne
      obtain ⟨hds, hkept⟩ := hoistStmts_of_driven rest ds' driven ht
      rw [hrun]
      refine ⟨hds.trans hget, ?_⟩
      rw [hkept, Stmt.finalAll, Stmt.final, Assign.final, if_neg fun h => hne h.symm, Option.or_none]
    · obtain ⟨hds, hkept⟩ := hoistStmts_of_driven rest ds (a.target :: driven) (List.mem_cons_of_mem _ ht)
      rw [hrun]
      refine ⟨hds, ?_⟩
      rw [Stmt.finalAll, Stmt.finalAll, hkept]
  | .block g inner ss :: rest, ds, driven, ht => by
    obtain ⟨houter, hinner⟩ := exchange_of_driven isControl t ht g ds inner
    rw [hoistStmts_block]
    dsimp only at houter hinner ⊢
    obtain ⟨hds, hkept⟩ := hoistStmts_of_driven rest _ (_ ++ driven) (List.mem_append_right _ ht)
    refine ⟨hds.trans houter, ?_⟩
    rw [Stmt.finalAll, Stmt.finalAll, hkept, Stmt.final, Stmt.final, Defaults.final_congr I ρ t hinner]

theorem final_of_take? {ds ds' : Defaults} {a : Assign} (h : ds.take? a.target a.drive = some ds') :
    ds'.final I ρ t = (a.final I ρ t).or (ds.final I ρ t) := by
  by_cases hne : a.target = t
  · subst hne
    rw [Assign.final, if_pos rfl]
    rcases Exchange.take?_eq_some h with ⟨d', hget, hval, rfl⟩ | ⟨hget, rfl⟩
    · have hsame : a.drive.final I ρ = d'.final I ρ := by rw [Drive.final, Drive.final, hval]
      rw [Defaults.final_of_get? I ρ _ hget, hsame, Option.or_self]
    · rw [Defaults.final_of_get?_none I ρ _ hget, Option.or_none,
        Defaults.final_of_get? I ρ _ (ds.get?_insert_self a.target a.drive)]
  · rw [Assign.final, if_neg hne, Option.none_or]
    rcases Exchange.take?_eq_some h with ⟨_, _, _, rfl⟩ | ⟨_, rfl⟩
    · rfl
    · exact Defaults.final_congr I ρ t (ds.get?_insert_of_ne _ fun h => hne h.symm)

theorem hoistStmts_extends : (ss : List Stmt) → Stmt.SatisfiesAll P Q ss → ∀ (ds : Defaults) (driven : List String),
    t ∉ driven →
    Extends (Loose I ρ isControl P t) ((Stmt.finalAll I ρ t ss).or (ds.final I ρ t))
      ((Stmt.finalAll I ρ t (hoistStmts isControl ds driven ss).2).or
        ((hoistStmts isControl ds driven ss).1.final I ρ t))
  | [], _, _, _, _ => .refl _
  | .assign a :: rest, hP, ds, driven, ht => by
    rcases hoistStmts_assign isControl ds driven a rest with ⟨ds', hpin, htake, hrun⟩ | ⟨_, hrun⟩
    · rw [hrun, Stmt.finalAll, Option.or_assoc, Stmt.final, ← final_of_take? I ρ t htake]
      exact hoistStmts_extends rest hP.2 ds' driven ht
    · rw [hrun]
      by_cases hne : a.target = t
      · obtain ⟨hds, hkept⟩ := hoistStmts_of_driven I ρ isControl t rest ds (a.target :: driven) (by simp [hne])
        rw [Stmt.finalAll, Stmt.finalAll, hkept, Defaults.final_congr I ρ t hds]
        exact .refl _
      · have hnone : Stmt.final I ρ t (.assign a) = none := if_neg hne
        rw [Stmt.finalAll, Stmt.finalAll, hnone, Option.or_none, Option.or_none]
        exact hoistStmts_extends rest hP.2 ds (a.target :: driven) (by simpa [ht] using fun h => hne h.symm)
  | .block g inner ss :: rest, hP, ds, driven, ht => by
    have hexchange := exchange_extends I ρ isControl t driven g ds inner ss hP.1.2.1
    rw [hoistStmts_block]
    dsimp only at hexchange ⊢
    generalize Exchange.run (stays isControl driven g) ⟨ds, .empty⟩ inner.entries = x at hexchange ⊢
    have hbefore := hexchange.or_left (Stmt.finalAll I ρ t rest)
    rw [Stmt.finalAll, Stmt.finalAll, Option.or_assoc, Option.or_assoc]
    by_cases hmem : t ∈ (Stmt.block g x.inner ss).targets
    · obtain ⟨hds, hkept⟩ := hoistStmts_of_driven I ρ isControl t rest x.outer
        ((Stmt.block g x.inner ss).targets ++ driven) (List.mem_append_left _ hmem)
      rw [hkept, Defaults.final_congr I ρ t hds]
      exact hbefore
    · have hnone := Stmt.final_eq_none I ρ t _ hmem
      rw [hnone, Option.none_or] at hbefore
      rw [hnone, Option.none_or]
      exact hbefore.trans (hoistStmts_extends rest hP.2 x.outer _ (by simp [hmem, ht]))

theorem hoist_extends {b : Block} (h : b.Satisfies P Q) :
    Extends (Loose I ρ isControl P t) (b.body I ρ t) ((hoist isControl b).body I ρ t) :=
  hoistStmts_extends I ρ isControl t b.stmts h.2.2 b.dflts [] List.not_mem_nil

theorem Env.get?_enter (env : Env) (ds : Defaults) : (env.enter ds).get? t = ((ds.get? t).map Drive.val).or (env.get? t) := by
  have h := env.get?_insertAll (ds.map Drive.val) t
  have hmap : (ds.map Drive.val).get? t = (ds.get? t).map Drive.val := by
    simp only [Listing.get?, Listing.entries_map, List.find?_map, Option.map_map]
    rfl
  rw [hmap] at h
  exact h

/-- The values in effect are those of the environment, as far as nothing has been driven since. -/
def Env.Valid (env : Env) (driven : List String) (c : Option V) : Prop :=
  ∀ e, env.get? t = some (some e) → t ∉ driven → c = some (e.eval I ρ)

theorem Env.valid_enter {env : Env} {c : Option V} (h : env.Valid I ρ t [] c) (ds : Defaults) :
    (env.enter ds).Valid I ρ t [] ((ds.final I ρ t).or c) := by
  intro e he _
  rw [get?_enter] at he
  cases hget : ds.get? t with
  | none =>
    rw [hget, Option.map_none, Option.none_or] at he
    rw [Defaults.final_of_get?_none I ρ t hget, Option.none_or]
    exact h e he List.not_mem_nil
  | some d =>
    have hval : d.val = some e := by simpa [hget] using he
    rw [Defaults.final_of_get? I ρ t hget, Drive.final, hval]
    rfl

/-- Dropping defaults that repeat the value in effect changes nothing. -/
theorem Defaults.final_filter {env : Env} {c : Option V} (h : env.Valid I ρ t [] c) (ds : Defaults) :
    (Defaults.final I ρ t (ds.filter fun t d => env.get? t != some d.val)).or c = (ds.final I ρ t).or c := by
  cases hget : ds.get? t with
  | none =>
    have hget' : (ds.filter fun t d => env.get? t != some d.val).get? t = ds.get? t := by
      rw [Listing.get?_filter, hget]
      rfl
    rw [Defaults.final_congr I ρ t hget']
  | some d =>
    by_cases hsame : env.get? t = some d.val
    · have hget' : (ds.filter fun t d => env.get? t != some d.val).get? t = none := by
        rw [Listing.get?_filter, hget, Option.filter_some, hsame]
        simp
      rw [Defaults.final_of_get?_none I ρ t hget', Defaults.final_of_get? I ρ t hget, Option.none_or]
      cases hval : d.val with
      | none => rw [Drive.final, hval, Option.map_none, Option.none_or]
      | some e =>
        rw [hval] at hsame
        rw [Drive.final, hval, h e hsame List.not_mem_nil]
        rfl
    · have hget' : (ds.filter fun t d => env.get? t != some d.val).get? t = ds.get? t := by
        rw [Listing.get?_filter, hget, Option.filter_some]
        simp [hsame]
      rw [Defaults.final_congr I ρ t hget']

theorem Env.valid_filter {env : Env} {driven : List String} {c : Option V} (h : env.Valid I ρ t driven c) :
    Env.Valid I ρ t (env.filter fun t v => !pinned driven t v) [] c := by
  intro e he _
  rw [Listing.get?_filter, Option.filter_eq_some_iff] at he
  refine h e he.1 ?_
  intro ht
  simp [pinned, ht] at he

mutual
theorem Stmt.final_pushDown : (s : Stmt) → ∀ (env : Env) (driven : List String) (c : Option V),
    env.Valid I ρ t driven c → ((s.pushDown env driven).final I ρ t).or c = (s.final I ρ t).or c
  | .assign a, _, _, _, _ => rfl
  | .block g ds ss, env, driven, c, hc => by
    rw [pushDown, final, final]
    by_cases hg : Cond.holds I ρ g = true
    · rw [if_pos hg, if_pos hg]
      have hseen := Env.valid_filter I ρ t hc
      have hdflts := Defaults.final_filter I ρ t hseen ds
      have hinner := finalAll_pushDownAll ss _ [] _ (Env.valid_enter I ρ t hseen (ds.filter fun t d =>
        (env.filter fun t v => !pinned driven t v).get? t != some d.val))
      rw [Option.or_assoc, Option.or_assoc, hinner, hdflts]
    · rw [if_neg hg, if_neg hg]
theorem Stmt.finalAll_pushDownAll : (ss : List Stmt) → ∀ (env : Env) (driven : List String) (c : Option V),
    env.Valid I ρ t driven c →
      (Stmt.finalAll I ρ t (Stmt.pushDownAll env driven ss)).or c = (Stmt.finalAll I ρ t ss).or c
  | [], _, _, _, _ => rfl
  | s :: ss, env, driven, c, hc => by
    have hvalid : env.Valid I ρ t ((s.pushDown env driven).targets ++ driven)
        (((s.pushDown env driven).final I ρ t).or c) := by
      intro e he ht
      rw [List.mem_append, not_or] at ht
      rw [final_eq_none I ρ t _ ht.1, Option.none_or]
      exact hc e he ht.2
    rw [pushDownAll, finalAll, finalAll, Option.or_assoc, Option.or_assoc, finalAll_pushDownAll ss _ _ _ hvalid,
      final_pushDown s env driven c hc]
end

theorem body_pushDown (b : Block) : (pushDown b).body I ρ t = b.body I ρ t := by
  have hvalid : Env.Valid I ρ t (Env.enter .empty b.dflts) [] ((b.dflts.final I ρ t).or none) :=
    Env.valid_enter I ρ t (fun e he => by cases he) b.dflts
  rw [Option.or_none] at hvalid
  exact Stmt.finalAll_pushDownAll I ρ t b.stmts _ [] _ hvalid

end Values

section Cleanup

variable {V : Type} (I : Interpretation V) (view : Store V → Valuation V)

theorem execAssigns_cleanup (ds : Defaults) (σ : Store V) :
    execAssigns I view (Defaults.cleanup ds).assigns σ = execAssigns I view ds.assigns σ := by
  obtain ⟨es, hes⟩ := ds
  change execAssigns I view ((es.filter fun e => e.2.val.isSome).map fun e => ⟨e.1, e.2⟩) σ =
    execAssigns I view (es.map fun e => ⟨e.1, e.2⟩) σ
  clear hes
  induction es generalizing σ with
  | nil => rfl
  | cons e es ih =>
    cases hval : e.2.val with
    | none =>
      have hskip : Assign.exec I view ⟨e.1, e.2⟩ σ = σ := by simp [Assign.exec, Assign.val, hval]
      rw [List.filter_cons_of_neg (by simp [hval]), ih]
      exact congrArg (execAssigns I view _) hskip.symm
    | some v =>
      rw [List.filter_cons_of_pos (by simp [hval])]
      exact ih _

mutual
theorem Stmt.exec_cleanup? : (s : Stmt) → ∀ σ : Store V,
    Stmt.execAll I view s.cleanup?.toList σ = s.exec I view σ
  | .assign a, σ => by
    rw [cleanup?]
    split
    · rfl
    · rename_i hval
      have hnone : a.val = none := by simpa using hval
      simp [execAll, exec, Assign.exec, hnone]
  | .block g ds ss, σ => by
    have hbody : ∀ τ : Store V, Stmt.execAll I view (Stmt.cleanupAll ss) (execAssigns I view (Defaults.cleanup ds).assigns τ) =
        Stmt.execAll I view ss (execAssigns I view ds.assigns τ) := by
      intro τ
      rw [execAll_cleanupAll ss, execAssigns_cleanup]
    rw [cleanup?]
    split
    · rename_i hempty
      simp only [Block.isEmpty, Listing.isEmpty, Bool.and_eq_true, List.isEmpty_iff] at hempty
      have hskip := hbody σ
      rw [hempty.1, Defaults.assigns, hempty.2] at hskip
      rw [exec, ← hskip]
      exact (ite_self σ).symm
    · change (if Cond.holds I (view σ) g then
        Stmt.execAll I view (Stmt.cleanupAll ss) (execAssigns I view (Defaults.cleanup ds).assigns σ) else σ) = _
      rw [hbody, exec]
theorem Stmt.execAll_cleanupAll : (ss : List Stmt) → ∀ σ : Store V,
    Stmt.execAll I view (Stmt.cleanupAll ss) σ = Stmt.execAll I view ss σ
  | [], _ => rfl
  | s :: ss, σ => by rw [cleanupAll, execAll_append, exec_cleanup? s, execAll, execAll_cleanupAll ss]
end

theorem body_cleanup (ρ : Valuation V) (t : String) (b : Block) : (cleanup b).body I ρ t = b.body I ρ t := by
  have hstmts := congrFun (Stmt.execAll_cleanupAll I (fun _ => ρ) b.stmts fun _ => none) t
  rw [Stmt.execAll_fixed, Stmt.execAll_fixed, Option.or_none, Option.or_none] at hstmts
  have hdflts := congrFun (execAssigns_cleanup I (fun _ => ρ) b.dflts fun _ => none) t
  rw [execAssigns_fixed, execAssigns_fixed, Option.or_none, Option.or_none, Stmt.finalAll_assigns,
    Stmt.finalAll_assigns] at hdflts
  change (Stmt.finalAll I ρ t (Stmt.cleanupAll b.stmts)).or (Defaults.final I ρ t (Defaults.cleanup b.dflts)) = _
  rw [hstmts, hdflts, Block.body]

end Cleanup

section Parts

variable {P : Assign → Prop} {Q : Expr → Prop} (isControl : Assign → Bool)

theorem Defaults.Satisfies.filter {ds : Defaults} (h : ds.Satisfies P) (p : String → Drive → Bool) :
    Defaults.Satisfies P (ds.filter p) := fun e he => h e (List.mem_filter.1 he).1

theorem Defaults.Satisfies.cleanup {ds : Defaults} (h : ds.Satisfies P) :
    (Defaults.cleanup ds).Satisfies fun a => P a ∧ a.val.isSome :=
  fun e he => ⟨h e (List.mem_filter.1 he).1, (List.mem_filter.1 he).2⟩

theorem Defaults.Satisfies.insert {ds : Defaults} (h : ds.Satisfies P) {t : String} {d : Drive} (hd : P ⟨t, d⟩) :
    Defaults.Satisfies P (ds.insert t d) := by
  intro e he
  rw [Listing.entries_insert, List.mem_append] at he
  rcases he with he | he
  · exact h e (List.mem_filter.1 he).1
  · exact List.mem_singleton.1 he ▸ hd

theorem Defaults.Satisfies.take {ds ds' : Defaults} (h : ds.Satisfies P) {t : String} {d : Drive} (hd : P ⟨t, d⟩)
    (htake : ds.take? t d = some ds') : ds'.Satisfies P := by
  rcases Exchange.take?_eq_some htake with ⟨_, _, _, rfl⟩ | ⟨_, rfl⟩
  · exact h
  · exact h.insert hd

theorem Exchange.satisfies_run (stays : String → Drive → Bool) {x : Exchange} {es : List (String × Drive)}
    (houter : x.outer.Satisfies P) (hinner : x.inner.Satisfies P) (hes : ∀ e ∈ es, P ⟨e.1, e.2⟩) :
    (run stays x es).outer.Satisfies P ∧ (run stays x es).inner.Satisfies P := by
  induction es generalizing x with
  | nil => exact ⟨houter, hinner⟩
  | cons e es ih =>
    obtain ⟨he, hes⟩ := List.forall_mem_cons.1 hes
    rw [run_cons]
    rcases step_cases stays x e.1 e.2 with hstep | ⟨_, outer, htake, hstep⟩
    · rw [hstep]
      exact ih houter (hinner.insert he) hes
    · rw [hstep]
      exact ih (houter.take he htake) hinner hes

theorem hoistStmts_satisfies : (ss : List Stmt) → Stmt.SatisfiesAll P Q ss → ∀ (ds : Defaults) (driven : List String),
    ds.Satisfies P → (hoistStmts isControl ds driven ss).1.Satisfies P ∧
      Stmt.SatisfiesAll P Q (hoistStmts isControl ds driven ss).2
  | [], _, _, _, hds => ⟨hds, trivial⟩
  | .assign a :: rest, ⟨ha, hrest⟩, ds, driven, hds => by
    rcases hoistStmts_assign isControl ds driven a rest with ⟨ds', _, htake, hrun⟩ | ⟨_, hrun⟩
    · rw [hrun]
      exact hoistStmts_satisfies rest hrest ds' driven (hds.take ha htake)
    · obtain ⟨hds', hkept⟩ := hoistStmts_satisfies rest hrest ds (a.target :: driven) hds
      rw [hrun]
      exact ⟨hds', ha, hkept⟩
  | .block g inner ss :: rest, ⟨⟨hg, hinner, hss⟩, hrest⟩, ds, driven, hds => by
    obtain ⟨houter', hinner'⟩ := Exchange.satisfies_run (stays isControl driven g) (x := ⟨ds, .empty⟩) hds
      (fun e he => absurd he List.not_mem_nil) hinner
    rw [hoistStmts_block]
    obtain ⟨hds', hkept⟩ := hoistStmts_satisfies rest hrest _ (_ ++ driven) houter'
    exact ⟨hds', ⟨hg, hinner', hss⟩, hkept⟩

mutual
theorem Stmt.satisfies_pushDown : (s : Stmt) → s.Satisfies P Q → ∀ (env : Env) (driven : List String),
    (s.pushDown env driven).Satisfies P Q
  | .assign _, h, _, _ => h
  | .block _ _ ss, ⟨hg, hds, hss⟩, _, _ => ⟨hg, hds.filter _, satisfiesAll_pushDownAll ss hss _ _⟩
theorem Stmt.satisfiesAll_pushDownAll : (ss : List Stmt) → Stmt.SatisfiesAll P Q ss →
    ∀ (env : Env) (driven : List String), Stmt.SatisfiesAll P Q (Stmt.pushDownAll env driven ss)
  | [], h, _, _ => h
  | s :: ss, ⟨hs, hss⟩, _, _ => ⟨satisfies_pushDown s hs _ _, satisfiesAll_pushDownAll ss hss _ _⟩
end

mutual
/-- Only assignments with a value remain. -/
theorem Stmt.satisfies_cleanup? : (s : Stmt) → s.Satisfies P Q →
    Stmt.SatisfiesAll (fun a => P a ∧ a.val.isSome) Q s.cleanup?.toList
  | .assign a, h => by
    rw [cleanup?]
    split
    · exact ⟨⟨h, ‹_›⟩, trivial⟩
    · trivial
  | .block g ds ss, ⟨hg, hds, hss⟩ => by
    rw [cleanup?]
    split
    · trivial
    · exact ⟨⟨hg, hds.cleanup, satisfiesAll_cleanupAll ss hss⟩, trivial⟩
theorem Stmt.satisfiesAll_cleanupAll : (ss : List Stmt) → Stmt.SatisfiesAll P Q ss →
    Stmt.SatisfiesAll (fun a => P a ∧ a.val.isSome) Q (Stmt.cleanupAll ss)
  | [], h => h
  | s :: ss, ⟨hs, hss⟩ => by
    rw [cleanupAll, satisfiesAll_append]
    exact ⟨satisfies_cleanup? s hs, satisfiesAll_cleanupAll ss hss⟩
end

theorem satisfies_cleanup {b : Block} (h : b.Satisfies P Q) :
    (cleanup b).Satisfies (fun a => P a ∧ a.val.isSome) Q :=
  ⟨h.1, h.2.1.cleanup, Stmt.satisfiesAll_cleanupAll b.stmts h.2.2⟩

theorem propagate_satisfies {b : Block} (h : b.Satisfies P Q) : (propagate isControl b).Satisfies P Q := by
  have hcleanup : ∀ {c : Block}, c.Satisfies P Q → (cleanup c).Satisfies P Q :=
    fun hc => (satisfies_cleanup hc).mono (fun _ ha => ha.1) fun _ he => he
  have hpush : ∀ {c : Block}, c.Satisfies P Q → (pushDown c).Satisfies P Q :=
    fun {c} hc => ⟨hc.1, hc.2.1, Stmt.satisfiesAll_pushDownAll c.stmts hc.2.2 _ _⟩
  obtain ⟨hds, hkept⟩ := hoistStmts_satisfies isControl b.stmts h.2.2 b.dflts [] h.2.1
  have hhoist : (hoist isControl b).Satisfies P Q := ⟨h.1, hds, hkept⟩
  exact hcleanup (hpush (hcleanup hhoist))

end Parts

theorem settle_induction {α : Type} [DecidableEq α] {f : α → α} {R : α → α → Prop} (hrefl : ∀ a, R a a)
    (htrans : ∀ a b c, R a b → R b c → R a c) (hf : ∀ a, R a (f a)) (rounds : Nat) (a : α) :
    R a (settle f rounds a) := by
  induction rounds generalizing a with
  | zero => exact hrefl a
  | succ n ih =>
    rw [settle]
    split
    · exact hrefl a
    · exact htrans _ _ _ (hf a) (ih (f a))

section Propagation

variable (isControl : Assign → Bool) (b : Block)

theorem updateDefaults_guard : (updateDefaults isControl b).guard = b.guard :=
  settle_induction (f := propagate isControl) (R := fun b b' => b'.guard = b.guard) (fun _ => rfl) (fun _ _ _ h h' => h'.trans h)
    (fun _ => rfl) b.weight b

theorem updateDefaults_satisfies {P : Assign → Prop} {Q : Expr → Prop} (h : b.Satisfies P Q) :
    (updateDefaults isControl b).Satisfies P Q :=
  settle_induction (R := fun b b' : Block => b.Satisfies P Q → b'.Satisfies P Q) (fun _ h => h)
    (fun _ _ _ h h' hP => h' (h hP)) (fun _ => propagate_satisfies isControl) b.weight b h

variable {V : Type} (I : Interpretation V) (ρ : Valuation V) (t : String)

theorem updateDefaults_extends {P : Assign → Prop} {Q : Expr → Prop} (h : b.Satisfies P Q) :
    Extends (Loose I ρ isControl P t) (b.body I ρ t) ((updateDefaults isControl b).body I ρ t) := by
  refine (settle_induction (R := fun b b' : Block => b.Satisfies P Q →
    b'.Satisfies P Q ∧ Extends (Loose I ρ isControl P t) (b.body I ρ t) (b'.body I ρ t)) (fun _ h => ⟨h, .refl _⟩)
    ?_ ?_ b.weight b h).2
  · intro b b' b'' h h' hb
    obtain ⟨hb', hext⟩ := h hb
    obtain ⟨hb'', hext'⟩ := h' hb'
    exact ⟨hb'', hext.trans hext'⟩
  · intro b hb
    refine ⟨propagate_satisfies isControl hb, ?_⟩
    rw [propagate, body_cleanup, body_pushDown, body_cleanup]
    exact hoist_extends I ρ isControl t hb

/-- A signal of which no drive may leave a guard keeps its value. -/
theorem updateDefaults_body (hc : Controlled isControl t) : (updateDefaults isControl b).body I ρ t = b.body I ρ t := by
  refine (updateDefaults_extends isControl b I ρ t b.satisfies_true).resolve_right ?_
  rintro ⟨_, d, _, hd, _⟩
  rw [hc d] at hd
  cases hd

end Propagation

theorem body_of_some {V : Type} (I : Interpretation V) (ρ : Valuation V) (isControl : Assign → Bool) {b : Block} {t : String}
    {v : V} (h : b.body I ρ t = some v) : (updateDefaults isControl b).body I ρ t = some v :=
  (h ▸ updateDefaults_extends isControl b I ρ t b.satisfies_true).eq_some

end Comb

end Sequencer
