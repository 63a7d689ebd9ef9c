import Mathlib.Data.List.Forall2
import Sequencer.Fault

set_option autoImplicit false

/-!
# Computations that succeed

A computation made of steps succeeds exactly when each step does.
-/

namespace Sequencer

theorem exists_of_mem_forall₂ {α β : Type} {R : α → β → Prop} {as : List α} {bs : List β} (h : List.Forall₂ R as bs)
    {b : β} (hb : b ∈ bs) : ∃ a ∈ as, R a b := by
  induction h with
  | nil => exact absurd hb List.not_mem_nil
  | cons hab _ ih =>
    rcases List.mem_cons.1 hb with rfl | hb
    · exact ⟨_, List.mem_cons_self, hab⟩
    · obtain ⟨a, ha, hR⟩ := ih hb
      exact ⟨a, List.mem_cons_of_mem _ ha, hR⟩

namespace Checked

theorem exists_ok {α : Type} {x : Checked α} (h : x.toOption.isSome = true) : ∃ a, x = .ok a := by
  cases x with
  | ok a => exact ⟨a, rfl⟩
  | error e => cases h

theorem exists_of_any {α : Type} {x : Checked α} {p : α → Bool} (h : x.toOption.any p = true) :
    ∃ a, x = .ok a ∧ p a = true := by
  cases x with
  | ok a => exact ⟨a, rfl, h⟩
  | error e => cases h

variable {α β : Type}

@[simp]
theorem pure_eq_ok (a : α) : (pure a : Checked α) = .ok a := rfl

@[simp]
theorem ok_bind (a : α) (f : α → Checked β) : ((Except.ok a : Checked α) >>= f) = f a := rfl

@[simp]
theorem error_bind (e : Fault) (f : α → Checked β) : ((Except.error e : Checked α) >>= f) = .error e := rfl

@[simp]
theorem reject_ne_ok (cause : Rejection) (a : α) : ¬ (reject cause : Checked α) = .ok a := by
  simp [reject]

@[simp]
theorem abort_ne_ok (cause : Abort) (a : α) : ¬ (abort cause : Checked α) = .ok a := by
  simp [abort]

@[simp]
theorem reject_bind (cause : Rejection) (f : α → Checked β) : ((reject cause : Checked α) >>= f) = reject cause := rfl

@[simp]
theorem abort_bind (cause : Abort) (f : α → Checked β) : ((abort cause : Checked α) >>= f) = abort cause := rfl

theorem bind_eq_ok {x : Checked α} {f : α → Checked β} {b : β} :
    (x >>= f) = .ok b ↔ ∃ a, x = .ok a ∧ f a = .ok b := by
  cases x with
  | ok a => simp
  | error e => simp

theorem exists_ok_bind_bind_iff {γ : Type} {x : Checked α} {y : Checked β} (f : α → β → γ) :
    (∃ c, (do return f (← x) (← y) : Checked γ) = .ok c) ↔ (∃ a, x = .ok a) ∧ ∃ b, y = .ok b := by
  cases x with
  | error e => simp
  | ok a =>
    cases y with
    | error e => simp
    | ok b => simp

theorem bind_congr {x : Checked α} {f g : α → Checked β} (h : ∀ a, x = .ok a → f a = g a) : (x >>= f) = (x >>= g) := by
  cases x with
  | ok a => exact h a rfl
  | error e => rfl

theorem map_eq_ok {x : Checked α} {f : α → β} {b : β} : x.map f = .ok b ↔ ∃ a, x = .ok a ∧ f a = b := by
  cases x with
  | ok a => simp [Except.map]
  | error e => simp [Except.map]

theorem mapM_eq_ok {f : α → Checked β} {as : List α} {bs : List β} (h : as.mapM f = .ok bs) :
    List.Forall₂ (fun a b => f a = .ok b) as bs := by
  induction as generalizing bs with
  | nil =>
    cases h
    exact .nil
  | cons a as ih =>
    rw [List.mapM_cons, bind_eq_ok] at h
    obtain ⟨b, hb, h⟩ := h
    rw [bind_eq_ok] at h
    obtain ⟨bs', hbs, h⟩ := h
    cases h
    exact .cons hb (ih hbs)

theorem mapM_of_forall₂ {f : α → Checked β} {as : List α} {bs : List β}
    (h : List.Forall₂ (fun a b => f a = .ok b) as bs) : as.mapM f = .ok bs := by
  induction h with
  | nil => rfl
  | cons hab _ ih =>
    rw [List.mapM_cons, hab, ih]
    rfl

theorem mapM_congr {f g : α → Checked β} {as : List α} (h : ∀ a ∈ as, f a = g a) : as.mapM f = as.mapM g := by
  induction as with
  | nil => rfl
  | cons a as ih =>
    obtain ⟨ha, has⟩ := List.forall_mem_cons.1 h
    rw [List.mapM_cons, List.mapM_cons, ha, ih has]

/-- Whether a test is passed. A test that fails to give an answer is not. -/
def passes (p : α → Checked Bool) (a : α) : Bool :=
  match p a with
  | .ok b => b
  | .error _ => false

theorem filterAuxM_eq_ok {p : α → Checked Bool} {as acc bs : List α} (h : as.filterAuxM p acc = .ok bs) :
    (∀ a ∈ as, p a = .ok (passes p a)) ∧ bs = (as.filter (passes p)).reverse ++ acc := by
  induction as generalizing acc with
  | nil =>
    cases h
    exact ⟨by simp, by simp⟩
  | cons a as ih =>
    rw [List.filterAuxM, bind_eq_ok] at h
    obtain ⟨b, hb, h⟩ := h
    obtain ⟨hall, rfl⟩ := ih h
    have ha : passes p a = b := by rw [passes, hb]
    refine ⟨List.forall_mem_cons.2 ⟨by rw [hb, ha], hall⟩, ?_⟩
    rw [List.filter_cons, ha]
    cases b with
    | true => simp
    | false => simp

theorem filterM_eq_ok {p : α → Checked Bool} {as bs : List α} (h : as.filterM p = .ok bs) :
    (∀ a ∈ as, p a = .ok (passes p a)) ∧ bs = as.filter (passes p) := by
  rw [List.filterM, bind_eq_ok] at h
  obtain ⟨cs, hcs, h⟩ := h
  obtain ⟨hall, rfl⟩ := filterAuxM_eq_ok hcs
  cases h
  exact ⟨hall, by simp⟩

theorem filterAuxM_of_forall {p : α → Checked Bool} {q : α → Bool} {as : List α} (h : ∀ a ∈ as, p a = .ok (q a))
    (acc : List α) : as.filterAuxM p acc = .ok ((as.filter q).reverse ++ acc) := by
  induction as generalizing acc with
  | nil => rfl
  | cons a as ih =>
    obtain ⟨ha, has⟩ := List.forall_mem_cons.1 h
    rw [List.filterAuxM, ha, ok_bind, ih has, List.filter_cons]
    cases q a with
    | true => simp
    | false => simp

theorem filterM_of_forall {p : α → Checked Bool} {q : α → Bool} {as : List α} (h : ∀ a ∈ as, p a = .ok (q a)) :
    as.filterM p = .ok (as.filter q) := by
  rw [List.filterM, filterAuxM_of_forall h, ok_bind, List.append_nil, List.reverse_reverse]
  rfl

theorem accepted?_eq_some {x : Checked α} {a : α} : x.accepted? = .ok (some a) ↔ x = .ok a := by
  cases x with
  | ok b => simp [accepted?]
  | error e => cases e <;> simp [accepted?]

section State

variable {σ : Type}

theorem stateT_bind_eq_ok {x : StateT σ Checked α} {f : α → StateT σ Checked β} {s s'' : σ} {b : β} :
    (x >>= f) s = .ok (b, s'') ↔ ∃ a s', x s = .ok (a, s') ∧ f a s' = .ok (b, s'') := by
  change (x s >>= fun p => f p.1 p.2) = .ok (b, s'') ↔ _
  rw [bind_eq_ok]
  constructor
  · rintro ⟨⟨a, s'⟩, hx, hf⟩
    exact ⟨a, s', hx, hf⟩
  · rintro ⟨a, s', hx, hf⟩
    exact ⟨(a, s'), hx, hf⟩

theorem stateT_pure_eq_ok {a b : α} {s s' : σ} :
    (pure a : StateT σ Checked α) s = .ok (b, s') ↔ b = a ∧ s' = s := by
  change (Except.ok (a, s) : Checked (α × σ)) = .ok (b, s') ↔ _
  simp [eq_comm]

/-- A successful run takes a state to a related one. -/
def Keeps (R : σ → σ → Prop) (x : StateT σ Checked α) : Prop := ∀ s a s', x s = .ok (a, s') → R s s'

variable {R : σ → σ → Prop}

theorem Keeps.pure (hrefl : ∀ s, R s s) (a : α) : Keeps R (Pure.pure a : StateT σ Checked α) := by
  intro s b s' h
  obtain ⟨_, rfl⟩ := stateT_pure_eq_ok.1 h
  exact hrefl s'

theorem Keeps.bind (htrans : ∀ s s' s'', R s s' → R s' s'' → R s s'') {x : StateT σ Checked α}
    {f : α → StateT σ Checked β} (hx : Keeps R x) (hf : ∀ a, Keeps R (f a)) : Keeps R (x >>= f) := by
  intro s b s'' h
  obtain ⟨a, s', hxs, hfs⟩ := stateT_bind_eq_ok.1 h
  exact htrans s s' s'' (hx s a s' hxs) (hf a s' b s'' hfs)

/-- Every run from a state with `P` succeeds, with a result as in `Q`, and ends in a state with `P`. -/
def Succeeds (P : σ → Prop) (x : StateT σ Checked α) (Q : α → Prop) : Prop :=
  ∀ s, P s → ∃ a s', x s = .ok (a, s') ∧ P s' ∧ Q a

variable {P : σ → Prop} {Q : α → Prop} {Q' : β → Prop}

theorem Succeeds.pure {a : α} (h : Q a) : Succeeds P (Pure.pure a : StateT σ Checked α) Q :=
  fun s hs => ⟨a, s, rfl, hs, h⟩

theorem Succeeds.bind {x : StateT σ Checked α} {f : α → StateT σ Checked β} (hx : Succeeds P x Q)
    (hf : ∀ a, Q a → Succeeds P (f a) Q') : Succeeds P (x >>= f) Q' := by
  intro s hs
  obtain ⟨a, s', hxs, hs', ha⟩ := hx s hs
  obtain ⟨b, s'', hfs, hs'', hb⟩ := hf a ha s' hs'
  exact ⟨b, s'', stateT_bind_eq_ok.2 ⟨a, s', hxs, hfs⟩, hs'', hb⟩

end State

end Checked

end Sequencer
