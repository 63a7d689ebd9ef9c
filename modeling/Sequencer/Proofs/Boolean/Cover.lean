import Sequencer.Boolean.Cover
import Sequencer.Proofs.Boolean.Diagram

set_option autoImplicit false

/-!
# Meaning of covers

Reducing a cover keeps the assignments that it admits, so the cover of a diagram admits exactly those that the diagram
maps to true. Minimizing a formula keeps the function that it denotes.
-/

namespace Sequencer

namespace Cube

/-- Whether an assignment of the atoms from `start` on meets all requirements. -/
def admits (ρ : Nat → Bool) (start : Nat) : Cube → Bool
  | [] => true
  | none :: c => admits ρ (start + 1) c
  | some b :: c => (ρ start == b) && admits ρ (start + 1) c

theorem clashes_cons (x y : Option Bool) (l r : Cube) :
    clashes (x :: l) (y :: r) =
      clashes l r + if (match x, y with | some a, some b => a != b | _, _ => false) then 1 else 0 := by
  simp only [clashes, List.zip_cons_cons, List.countP_cons]
  rcases x with _ | a <;> rcases y with _ | b <;> rfl

theorem excess_cons (x y : Option Bool) (l r : Cube) :
    excess (x :: l) (y :: r) = excess l r + if x.isSome && y.isNone then 1 else 0 := by
  simp only [excess, List.zip_cons_cons, List.countP_cons]
  rcases x with _ | a <;> rcases y with _ | b <;> rfl

theorem clashes_comm (l r : Cube) : clashes l r = clashes r l := by
  induction l generalizing r with
  | nil => cases r <;> rfl
  | cons x l ih =>
    cases r with
    | nil => rfl
    | cons y r =>
      rw [clashes_cons, clashes_cons, ih r]
      rcases x with _ | a <;> rcases y with _ | b <;> simp [bne_comm]

theorem length_widen (l r : Cube) (h : l.length = r.length) : (widen l r).length = l.length := by
  simp [widen, h]

/-- A cube without clashes or excess over another one is met by fewer assignments. -/
theorem admits_of_contained (ρ : Nat → Bool) (start : Nat) (l r : Cube) (hlen : l.length = r.length)
    (hc : clashes l r = 0) (he : excess r l = 0) (h : l.admits ρ start = true) : r.admits ρ start = true := by
  induction l generalizing r start with
  | nil =>
    have hr : r = [] := List.length_eq_zero_iff.1 hlen.symm
    rw [hr]
    rfl
  | cons x l ih =>
    cases r with
    | nil => simp at hlen
    | cons y r =>
      rw [clashes_cons] at hc
      rw [excess_cons] at he
      have hrest := ih (start + 1) r (by simpa using hlen) (by omega) (by omega)
      rcases x with _ | a <;> rcases y with _ | b
      · exact hrest h
      · simp at he
      · simp only [admits, Bool.and_eq_true] at h
        exact hrest h.2
      · simp only [admits, Bool.and_eq_true] at h ⊢
        have hab : clashes l r = 0 ∧ a = b := by simpa using hc
        exact ⟨hab.2 ▸ h.1, hrest h.2⟩

theorem admits_widen_of_admits (ρ : Nat → Bool) (start : Nat) (l r : Cube) (hlen : l.length = r.length)
    (h : l.admits ρ start = true) : (widen l r).admits ρ start = true := by
  induction l generalizing r start with
  | nil => rfl
  | cons x l ih =>
    cases r with
    | nil => simp at hlen
    | cons y r =>
      have hrest := ih (start + 1) r (by simpa using hlen)
      rcases x with _ | a <;> rcases y with _ | b
      · exact hrest h
      · exact hrest h
      · simp only [admits, Bool.and_eq_true] at h
        simp only [widen, List.zipWith_cons_cons, admits, Bool.and_eq_true]
        exact ⟨h.1, hrest h.2⟩
      · simp only [admits, Bool.and_eq_true] at h
        by_cases hab : a = b
        · simp only [widen, List.zipWith_cons_cons, hab, if_true, admits, Bool.and_eq_true]
          exact ⟨hab ▸ h.1, hrest h.2⟩
        · simp only [widen, List.zipWith_cons_cons, hab, if_false, admits]
          exact hrest h.2

theorem widen_of_clashes_eq_zero (l r : Cube) (hlen : l.length = r.length) (hc : clashes l r = 0) :
    widen l r = l := by
  induction l generalizing r with
  | nil => rfl
  | cons x l ih =>
    cases r with
    | nil => simp at hlen
    | cons y r =>
      rw [clashes_cons] at hc
      have hrest := ih r (by simpa using hlen) (by omega)
      simp only [widen] at hrest
      simp only [widen, List.zipWith_cons_cons, hrest]
      rcases x with _ | a <;> rcases y with _ | b
      · rfl
      · rfl
      · rfl
      · have hab : clashes l r = 0 ∧ a = b := by simpa using hc
        simp [hab.2]

/-- If one atom only keeps `r` from containing `l`, then opening this atom in `l` adds nothing beyond `r`. -/
theorem admits_or_of_widen (ρ : Nat → Bool) (start : Nat) (l r : Cube) (hlen : l.length = r.length)
    (hc : clashes l r = 1) (he : excess r l = 0) (h : (widen l r).admits ρ start = true) :
    l.admits ρ start = true ∨ r.admits ρ start = true := by
  induction l generalizing r start with
  | nil => exact .inl rfl
  | cons x l ih =>
    cases r with
    | nil => simp at hlen
    | cons y r =>
      rw [clashes_cons] at hc
      rw [excess_cons] at he
      have hlen' : l.length = r.length := by simpa using hlen
      have hrest := ih (start + 1) r hlen'
      rcases x with _ | a <;> rcases y with _ | b
      · exact hrest (by simpa using hc) (by simpa using he) h
      · simp at he
      · simp only [widen, List.zipWith_cons_cons, admits, Bool.and_eq_true] at h
        rcases hrest (by simpa using hc) (by simpa using he) h.2 with hl | hr
        · exact .inl (by simp only [admits, Bool.and_eq_true]; exact ⟨h.1, hl⟩)
        · exact .inr hr
      · by_cases hab : a = b
        · subst hab
          simp only [widen, List.zipWith_cons_cons, if_true, admits, Bool.and_eq_true] at h
          rcases hrest (by simpa using hc) (by simpa using he) h.2 with hl | hr
          · exact .inl (by simp only [admits, Bool.and_eq_true]; exact ⟨h.1, hl⟩)
          · exact .inr (by simp only [admits, Bool.and_eq_true]; exact ⟨h.1, hr⟩)
        · have hc0 : clashes l r = 0 := by simpa [hab] using hc
          have he0 : excess r l = 0 := by simpa using he
          have hw : (widen l r).admits ρ (start + 1) = true := by
            simpa only [widen, List.zipWith_cons_cons, hab, if_false, admits] using h
          rw [widen_of_clashes_eq_zero l r hlen' hc0] at hw
          have hr := admits_of_contained ρ (start + 1) l r hlen' hc0 he0 hw
          simp only [admits, hw, hr, Bool.and_true, beq_iff_eq]
          cases ρ start <;> cases a <;> cases b <;> simp_all

theorem widen_comm (l r : Cube) (hlen : l.length = r.length) (hl : excess l r = 0) (hr : excess r l = 0) :
    widen l r = widen r l := by
  induction l generalizing r with
  | nil =>
    have hnil : r = [] := List.length_eq_zero_iff.1 hlen.symm
    rw [hnil]
  | cons x l ih =>
    cases r with
    | nil => simp at hlen
    | cons y r =>
      rw [excess_cons] at hl hr
      have hrest := ih r (by simpa using hlen) (by omega) (by omega)
      simp only [widen] at hrest
      simp only [widen, List.zipWith_cons_cons, hrest]
      rcases x with _ | a <;> rcases y with _ | b
      · rfl
      · simp at hr
      · simp at hl
      · by_cases hab : a = b
        · simp [hab]
        · simp [hab, Ne.symm hab]

/-- A cube over `n` atoms that leaves those below `lo` open. -/
def Shaped (n lo : Nat) (cube : Cube) : Prop := cube.length = n ∧ ∀ i < lo, i < n → cube[i]? = some none

theorem shaped_widen {n lo : Nat} {l r : Cube} (hlen : l.length = r.length) (h : Shaped n lo l) :
    Shaped n lo (widen l r) := by
  obtain ⟨hn, hopen⟩ := h
  refine ⟨(length_widen l r hlen).trans hn, ?_⟩
  intro i hi hlt
  have hl := hopen i hi hlt
  have hr : i < r.length := by omega
  rw [widen, List.getElem?_zipWith, hl, List.getElem?_eq_getElem hr]

/-- What a verdict says about the assignments that the two cubes admit together. -/
def Verdict.Sound (ρ : Nat → Bool) (l r : Cube) : Verdict → Prop
  | keep => True
  | dropLeft => l.admits ρ 0 = true → r.admits ρ 0 = true
  | dropRight => r.admits ρ 0 = true → l.admits ρ 0 = true
  | fuse c => (∀ n lo, Shaped n lo l → Shaped n lo c) ∧
      (c.admits ρ 0 = true ↔ l.admits ρ 0 = true ∨ r.admits ρ 0 = true)
  | widenLeft c => (∀ n lo, Shaped n lo l → Shaped n lo c) ∧
      (c.admits ρ 0 = true ∨ r.admits ρ 0 = true ↔ l.admits ρ 0 = true ∨ r.admits ρ 0 = true)
  | widenRight c => (∀ n lo, Shaped n lo r → Shaped n lo c) ∧
      (l.admits ρ 0 = true ∨ c.admits ρ 0 = true ↔ l.admits ρ 0 = true ∨ r.admits ρ 0 = true)

theorem compare_sound (ρ : Nat → Bool) (l r : Cube) (hlen : l.length = r.length) :
    (l.compare r).Sound ρ l r := by
  have hcomm := clashes_comm l r
  unfold compare
  split
  · rename_i heq
    exact fun h => heq ▸ h
  · split
    · rename_i hc _ he
      exact admits_of_contained ρ 0 l r hlen hc he
    · rename_i hc he _
      exact admits_of_contained ρ 0 r l hlen.symm (hcomm ▸ hc) he
    · rename_i hc hel her
      refine ⟨fun _ _ => shaped_widen hlen, ?_, ?_⟩
      · exact admits_or_of_widen ρ 0 l r hlen hc her
      · rintro (h | h)
        · exact admits_widen_of_admits ρ 0 l r hlen h
        · rw [widen_comm l r hlen hel her]
          exact admits_widen_of_admits ρ 0 r l hlen.symm h
    · rename_i hc hel _
      refine ⟨fun _ _ => shaped_widen hlen.symm, ?_, ?_⟩
      · rintro (h | h)
        · exact .inl h
        · exact (admits_or_of_widen ρ 0 r l hlen.symm (hcomm ▸ hc) hel h).symm
      · exact fun h => h.imp_right (admits_widen_of_admits ρ 0 r l hlen.symm)
    · rename_i hc _ her
      refine ⟨fun _ _ => shaped_widen hlen, ?_, ?_⟩
      · rintro (h | h)
        · exact admits_or_of_widen ρ 0 l r hlen hc her h
        · exact .inr h
      · exact fun h => h.imp_left (admits_widen_of_admits ρ 0 l r hlen)
    · trivial

theorem admits_top (ρ : Nat → Bool) (start atoms : Nat) : (top atoms).admits ρ start = true := by
  induction atoms generalizing start with
  | zero => rfl
  | succ atoms ih => exact ih (start + 1)

theorem admits_set (ρ : Nat → Bool) (start a : Nat) (b : Bool) (cube : Cube) (h : cube[a]? = some none) :
    admits ρ start (cube.set a (some b)) = ((ρ (start + a) == b) && admits ρ start cube) := by
  induction cube generalizing a start with
  | nil => simp at h
  | cons x c ih =>
    cases a with
    | zero =>
      have hx : x = none := by simpa using h
      subst hx
      rfl
    | succ a =>
      have hrest := ih (start + 1) a (by simpa using h)
      have hadd : start + 1 + a = start + (a + 1) := by omega
      rw [hadd] at hrest
      rcases x with _ | x
      · exact hrest
      · simp only [List.set_cons_succ, admits, hrest, Bool.and_left_comm]

end Cube

namespace Cover

/-- Whether some cube of a list admits the assignment. -/
def Admits (ρ : Nat → Bool) (cs : List Cube) : Prop := ∃ c ∈ cs, Cube.admits ρ 0 c = true

namespace Reduction

theorem cube?_eq_some {s : Reduction} {i : Nat} {c : Cube} : s.cube? i = some c ↔ s.slots[i]? = some (some c) := by
  simp [cube?, Option.join_eq_some_iff]

theorem cube?_put (s : Reduction) (i j : Nat) (c : Option Cube) (hi : i < s.slots.size) :
    (s.put i c).cube? j = if j = i then c else s.cube? j := by
  by_cases hj : j = i
  · subst hj
    simp [cube?, put, hi]
  · simp [cube?, put, Array.getElem?_setIfInBounds_ne (Ne.symm hj), hj]

@[simp]
theorem cube?_enqueue (s : Reduction) (i j : Nat) : (s.enqueue i).cube? j = s.cube? j := rfl

@[simp]
theorem size_put (s : Reduction) (i : Nat) (c : Option Cube) : (s.put i c).slots.size = s.slots.size := by
  simp [put]

theorem lt_size_of_cube? {s : Reduction} {i : Nat} {c : Cube} (h : s.cube? i = some c) : i < s.slots.size := by
  obtain ⟨hi, _⟩ := Array.getElem?_eq_some_iff.1 (cube?_eq_some.1 h)
  exact hi

/-- Whether the cube of some slot admits the assignment. -/
def Admits (ρ : Nat → Bool) (s : Reduction) : Prop := ∃ i c, s.cube? i = some c ∧ Cube.admits ρ 0 c = true

/-- Every cube has a property. -/
def All (P : Cube → Prop) (s : Reduction) : Prop := ∀ i c, s.cube? i = some c → P c

/-- Replacing the cubes of two slots changes nothing if the new ones admit together what the old ones did. -/
theorem admits_of_replace {ρ : Nat → Bool} {s t : Reduction} {i j : Nat} {l r : Cube}
    (hl : s.cube? i = some l) (hr : s.cube? j = some r)
    (hrest : ∀ k, k ≠ i → k ≠ j → t.cube? k = s.cube? k)
    (h : (∃ c, t.cube? i = some c ∧ c.admits ρ 0 = true) ∨ (∃ c, t.cube? j = some c ∧ c.admits ρ 0 = true) ↔
      l.admits ρ 0 = true ∨ r.admits ρ 0 = true) : t.Admits ρ ↔ s.Admits ρ := by
  constructor
  · rintro ⟨k, c, hk, hc⟩
    by_cases hki : k = i
    · rcases h.1 (.inl ⟨c, hki ▸ hk, hc⟩) with hx | hx
      · exact ⟨i, l, hl, hx⟩
      · exact ⟨j, r, hr, hx⟩
    · by_cases hkj : k = j
      · rcases h.1 (.inr ⟨c, hkj ▸ hk, hc⟩) with hx | hx
        · exact ⟨i, l, hl, hx⟩
        · exact ⟨j, r, hr, hx⟩
      · exact ⟨k, c, (hrest k hki hkj) ▸ hk, hc⟩
  · rintro ⟨k, c, hk, hc⟩
    by_cases hki : k = i
    · subst hki
      have hcl : l = c := Option.some.inj (hl.symm.trans hk)
      rcases h.2 (.inl (hcl ▸ hc)) with ⟨x, hx, ha⟩ | ⟨x, hx, ha⟩
      · exact ⟨_, x, hx, ha⟩
      · exact ⟨_, x, hx, ha⟩
    · by_cases hkj : k = j
      · subst hkj
        have hcr : r = c := Option.some.inj (hr.symm.trans hk)
        rcases h.2 (.inr (hcr ▸ hc)) with ⟨x, hx, ha⟩ | ⟨x, hx, ha⟩
        · exact ⟨_, x, hx, ha⟩
        · exact ⟨_, x, hx, ha⟩
      · exact ⟨k, c, (hrest k hki hkj).trans hk, hc⟩

/-- What one comparison does to the slots of the two cubes. -/
theorem compare_step (ρ : Nat → Bool) (n lo i j : Nat) (s : Reduction) (l r : Cube) (hs : s.All (Cube.Shaped n lo))
    (hl : s.cube? i = some l) (hr : s.cube? j = some r) (hji : j ≠ i) (left right : Option Cube) (t : Reduction)
    (ht : ∀ k, t.cube? k = if k = j then right else if k = i then left else s.cube? k)
    (hleft : ∀ c, left = some c → Cube.Shaped n lo c) (hright : ∀ c, right = some c → Cube.Shaped n lo c)
    (h : (∃ c, left = some c ∧ c.admits ρ 0 = true) ∨ (∃ c, right = some c ∧ c.admits ρ 0 = true) ↔
      l.admits ρ 0 = true ∨ r.admits ρ 0 = true) :
    t.All (Cube.Shaped n lo) ∧ (t.Admits ρ ↔ s.Admits ρ) := by
  have hti : t.cube? i = left := by simp [ht, Ne.symm hji]
  have htj : t.cube? j = right := by simp [ht]
  constructor
  · intro k c hk
    rw [ht k] at hk
    split at hk
    · exact hright c hk
    · split at hk
      · exact hleft c hk
      · exact hs k c hk
  · refine admits_of_replace hl hr ?_ ?_
    · intro k hki hkj
      simp [ht, hki, hkj]
    · rw [hti, htj]
      exact h

theorem scan_sound (ρ : Nat → Bool) (n lo i : Nat) (js : List Nat) (s : Reduction) (hs : s.All (Cube.Shaped n lo)) :
    (scan i js s).All (Cube.Shaped n lo) ∧ ((scan i js s).Admits ρ ↔ s.Admits ρ) := by
  induction js generalizing s with
  | nil => exact ⟨hs, Iff.rfl⟩
  | cons j js ih =>
    rw [scan]
    split
    · exact ⟨hs, Iff.rfl⟩
    · exact ih s hs
    · rename_i l r hl hr
      have hi := lt_size_of_cube? hl
      have hj := lt_size_of_cube? hr
      have hlen : l.length = r.length := (hs i l hl).1.trans (hs j r hr).1.symm
      have hv := Cube.compare_sound ρ l r hlen
      split
      · exact ih s hs
      · rename_i hji
        have step := compare_step ρ n lo i j s l r hs hl hr hji
        have shape : ∀ c, some l = some c → Cube.Shaped n lo c := fun c hc => Option.some.inj hc ▸ hs i l hl
        have shape' : ∀ c, some r = some c → Cube.Shaped n lo c := fun c hc => Option.some.inj hc ▸ hs j r hr
        have resume : ∀ {t : Reduction}, t.All (Cube.Shaped n lo) ∧ (t.Admits ρ ↔ s.Admits ρ) →
            (scan i js t).All (Cube.Shaped n lo) ∧ ((scan i js t).Admits ρ ↔ s.Admits ρ) :=
          fun ht => ⟨(ih _ ht.1).1, (ih _ ht.1).2.trans ht.2⟩
        cases hverdict : l.compare r with
        | keep => exact ih s hs
        | dropLeft =>
          rw [hverdict] at hv
          refine step none (some r) _ ?_ (by simp) shape' ?_
          · intro k
            rw [cube?_put s i k none hi]
            by_cases hk : k = j
            · simp [hk, hji, hr]
            · simp [hk]
          · simpa [Cube.Verdict.Sound] using hv
        | dropRight =>
          rw [hverdict] at hv
          refine resume (step (some l) none _ ?_ shape (by simp) ?_)
          · intro k
            rw [cube?_put s j k none hj]
            by_cases hk : k = i
            · simp [hk, Ne.symm hji, hl]
            · simp [hk]
          · simpa [Cube.Verdict.Sound] using hv
        | fuse c =>
          rw [hverdict] at hv
          refine resume (step (some c) none _ ?_ ?_ (by simp) (by simpa using hv.2))
          · intro k
            rw [cube?_put _ j k none (by simpa [enqueue] using hj), cube?_enqueue, cube?_put s i k _ hi]
          · rintro x ⟨⟩
            exact hv.1 n lo (hs i l hl)
        | widenLeft c =>
          rw [hverdict] at hv
          refine resume (step (some c) (some r) _ ?_ ?_ shape' (by simpa using hv.2))
          · intro k
            rw [cube?_enqueue, cube?_put s i k _ hi]
            by_cases hk : k = j
            · simp [hk, hji, hr]
            · simp [hk]
          · rintro x ⟨⟩
            exact hv.1 n lo (hs i l hl)
        | widenRight c =>
          rw [hverdict] at hv
          refine resume (step (some l) (some c) _ ?_ shape ?_ (by simpa using hv.2))
          · intro k
            rw [cube?_enqueue, cube?_put s j k _ hj]
            by_cases hk : k = i
            · simp [hk, Ne.symm hji, hl]
            · simp [hk]
          · rintro x ⟨⟩
            exact hv.1 n lo (hs j r hr)

theorem run_sound (ρ : Nat → Bool) (n lo steps : Nat) (s : Reduction) (hs : s.All (Cube.Shaped n lo)) :
    (run steps s).All (Cube.Shaped n lo) ∧ ((run steps s).Admits ρ ↔ s.Admits ρ) := by
  induction steps generalizing s with
  | zero => exact ⟨hs, Iff.rfl⟩
  | succ steps ih =>
    rw [run]
    split
    · exact ⟨hs, Iff.rfl⟩
    · rename_i i rest _
      obtain ⟨hall, hadm⟩ := scan_sound ρ n lo i (List.range s.slots.size) { s with pending := rest } hs
      obtain ⟨hall', hadm'⟩ := ih _ hall
      exact ⟨hall', hadm'.trans hadm⟩

end Reduction

theorem mem_filterMap_slots (s : Reduction) (c : Cube) :
    c ∈ s.slots.toList.filterMap id ↔ ∃ i, s.cube? i = some c := by
  simp only [List.mem_filterMap, id_eq, exists_eq_right, Array.mem_toList_iff, Array.mem_iff_getElem?,
    Reduction.cube?_eq_some]

theorem reduce_sound (ρ : Nat → Bool) (n lo : Nat) (cubes : List Cube) (hs : ∀ c ∈ cubes, Cube.Shaped n lo c) :
    (∀ c ∈ reduce cubes, Cube.Shaped n lo c) ∧ (Admits ρ (reduce cubes) ↔ Admits ρ cubes) := by
  let start : Reduction := ⟨(cubes.map some).toArray, List.range cubes.length⟩
  have hstart : ∀ i c, start.cube? i = some c ↔ cubes[i]? = some c := by
    intro i c
    simp [start, Reduction.cube?_eq_some]
  have hall : start.All (Cube.Shaped n lo) := fun i c hc => hs c (List.mem_of_getElem? ((hstart i c).1 hc))
  obtain ⟨hshape, hadm⟩ := Reduction.run_sound ρ n lo
    (cubes.length + cubes.foldr (fun c n => c.weight + n) 0) start hall
  constructor
  · intro c hc
    obtain ⟨i, hi⟩ := (mem_filterMap_slots _ c).1 hc
    exact hshape i c hi
  · have hleft : Admits ρ (reduce cubes) ↔
        (start.run (cubes.length + cubes.foldr (fun c n => c.weight + n) 0)).Admits ρ := by
      constructor
      · rintro ⟨c, hc, ha⟩
        obtain ⟨i, hi⟩ := (mem_filterMap_slots _ c).1 hc
        exact ⟨i, c, hi, ha⟩
      · rintro ⟨i, c, hi, ha⟩
        exact ⟨c, (mem_filterMap_slots _ c).2 ⟨i, hi⟩, ha⟩
    have hright : start.Admits ρ ↔ Admits ρ cubes := by
      constructor
      · rintro ⟨i, c, hi, ha⟩
        exact ⟨c, List.mem_of_getElem? ((hstart i c).1 hi), ha⟩
      · rintro ⟨c, hc, ha⟩
        obtain ⟨i, hi⟩ := List.getElem?_of_mem hc
        exact ⟨i, c, (hstart i c).2 hi, ha⟩
    exact hleft.trans (hadm.trans hright)

theorem shaped_top (n : Nat) : Cube.Shaped n n (Cube.top n) := by
  refine ⟨by simp [Cube.top], ?_⟩
  intro i _ hi
  simp [Cube.top, hi]

theorem shaped_set {n lo a : Nat} (b : Bool) {c : Cube} (h : Cube.Shaped n (a + 1) c) (hlo : lo ≤ a) :
    Cube.Shaped n lo (c.set a (some b)) := by
  obtain ⟨hlen, hopen⟩ := h
  refine ⟨by simp [hlen], ?_⟩
  intro i hi hn
  rw [List.getElem?_set_ne (by omega)]
  exact hopen i (by omega) hn

theorem admits_append (ρ : Nat → Bool) (cs ds : List Cube) : Admits ρ (cs ++ ds) ↔ Admits ρ cs ∨ Admits ρ ds := by
  simp only [Admits, List.mem_append, or_and_right, exists_or]

theorem admits_map_set (ρ : Nat → Bool) {n a : Nat} (b : Bool) (cs : List Cube) (ha : a < n)
    (hs : ∀ c ∈ cs, Cube.Shaped n (a + 1) c) :
    Admits ρ (cs.map (·.set a (some b))) ↔ ρ a = b ∧ Admits ρ cs := by
  have hone : ∀ c ∈ cs, Cube.admits ρ 0 (c.set a (some b)) = true ↔ ρ a = b ∧ Cube.admits ρ 0 c = true := by
    intro c hc
    have hopen := (hs c hc).2 a (by omega) ha
    rw [Cube.admits_set ρ 0 a b c hopen, Nat.zero_add, Bool.and_eq_true, beq_iff_eq]
  constructor
  · rintro ⟨x, hx, hadm⟩
    obtain ⟨c, hc, rfl⟩ := List.mem_map.1 hx
    obtain ⟨hb, hcadm⟩ := (hone c hc).1 hadm
    exact ⟨hb, c, hc, hcadm⟩
  · rintro ⟨hb, c, hc, hadm⟩
    exact ⟨_, List.mem_map_of_mem hc, (hone c hc).2 ⟨hb, hadm⟩⟩

/-- The cover of an ordered diagram admits what the diagram maps to true. -/
theorem ofDiagram_sound (ρ : Nat → Bool) (n lo : Nat) (d : Diagram) (hd : d.Within n lo) :
    (∀ c ∈ ofDiagram n d, Cube.Shaped n lo c) ∧ (Admits ρ (ofDiagram n d) ↔ d.eval ρ = true) := by
  induction d generalizing lo with
  | leaf b =>
    cases b with
    | false => simp [ofDiagram, Admits, Diagram.eval]
    | true =>
      refine ⟨?_, ?_⟩
      · intro c hc
        have htop : c = Cube.top n := by simpa [ofDiagram] using hc
        obtain ⟨hlen, hopen⟩ := shaped_top n
        exact htop ▸ ⟨hlen, fun i _ hi => hopen i hi hi⟩
      · simp [ofDiagram, Admits, Diagram.eval, Cube.admits_top]
  | branch a low high ihl ihh =>
    obtain ⟨hlo, ha, hwl, hwh⟩ := hd
    obtain ⟨hsl, hal⟩ := ihl _ hwl
    obtain ⟨hsh, hah⟩ := ihh _ hwh
    have hshape : ∀ c ∈ (ofDiagram n low).map (·.set a (some false)) ++
        (ofDiagram n high).map (·.set a (some true)), Cube.Shaped n lo c := by
      intro c hc
      rcases List.mem_append.1 hc with hc | hc
      · obtain ⟨x, hx, rfl⟩ := List.mem_map.1 hc
        exact shaped_set false (hsl x hx) hlo
      · obtain ⟨x, hx, rfl⟩ := List.mem_map.1 hc
        exact shaped_set true (hsh x hx) hlo
    obtain ⟨hr, hadm⟩ := reduce_sound ρ n lo _ hshape
    refine ⟨hr, hadm.trans ?_⟩
    rw [admits_append, admits_map_set ρ false _ ha hsl, admits_map_set ρ true _ ha hsh, hal, hah, Diagram.eval]
    cases ρ a <;> simp

end Cover

namespace Formula

theorem eval_foldl_and {α : Type} (ρ : α → Bool) (fs : List (Formula α)) (f : Formula α) :
    (fs.foldl and f).eval ρ = (f.eval ρ && fs.all (·.eval ρ)) := by
  induction fs generalizing f with
  | nil => simp
  | cons g fs ih => rw [List.foldl_cons, ih, eval, List.all_cons, Bool.and_assoc]

theorem eval_foldl_or {α : Type} (ρ : α → Bool) (fs : List (Formula α)) (f : Formula α) :
    (fs.foldl or f).eval ρ = (f.eval ρ || fs.any (·.eval ρ)) := by
  induction fs generalizing f with
  | nil => simp
  | cons g fs ih => rw [List.foldl_cons, ih, eval, List.any_cons, Bool.or_assoc]

@[simp]
theorem eval_all {α : Type} (ρ : α → Bool) (fs : List (Formula α)) : (all fs).eval ρ = fs.all (·.eval ρ) := by
  cases fs with
  | nil => rfl
  | cons f fs => exact eval_foldl_and ρ fs f

@[simp]
theorem eval_any {α : Type} (ρ : α → Bool) (fs : List (Formula α)) : (any fs).eval ρ = fs.any (·.eval ρ) := by
  cases fs with
  | nil => rfl
  | cons f fs => exact eval_foldl_or ρ fs f

theorem eval_literals (ρ : Nat → Bool) (start : Nat) (c : Cube) :
    ((c.zipIdx start).filterMap fun
      | (some true, i) => some (atom i)
      | (some false, i) => some (not (atom i))
      | (none, _) => none).all (·.eval ρ) = c.admits ρ start := by
  induction c generalizing start with
  | nil => rfl
  | cons x c ih =>
    have hrest := ih (start + 1)
    rcases x with _ | x
    · simpa [Cube.admits] using hrest
    · cases x with
      | false => simp [Cube.admits, eval, hrest]
      | true => simp [Cube.admits, eval, hrest]

/-- A product is its part in `shared` and the rest. -/
theorem all_eval_split (ρ : Nat → Bool) (shared p : List (Formula Nat)) (h : ∀ x ∈ shared, x ∈ p) :
    p.all (·.eval ρ) = (shared.all (·.eval ρ) && (p.filter fun x => !shared.contains x).all (·.eval ρ)) := by
  rw [Bool.eq_iff_iff]
  simp only [Bool.and_eq_true, List.all_eq_true, List.mem_filter, Bool.not_eq_true', and_imp]
  constructor
  · intro hp
    exact ⟨fun x hx => hp x (h x hx), fun x hx _ => hp x hx⟩
  · rintro ⟨hs, hr⟩ x hx
    cases hc : shared.contains x with
    | false => exact hr x hx hc
    | true => exact hs x (by simpa using hc)

theorem eval_factor (ρ : Nat → Bool) (products : List (List (Formula Nat))) :
    (factor products).eval ρ = products.any fun p => p.all (·.eval ρ) := by
  unfold factor
  split
  · simp
  · have hsub : ∀ p ∈ products, ∀ x ∈ (products.headD []).filter (fun x => products.all (·.contains x)), x ∈ p := by
      intro p hp x hx
      have := List.all_eq_true.1 (List.mem_filter.1 hx).2 p hp
      simpa using this
    dsimp only
    generalize (products.headD []).filter (fun x => products.all (·.contains x)) = shared at hsub ⊢
    have hsplit : products.any (fun p => p.all (·.eval ρ)) = (shared.all (·.eval ρ) &&
        products.any fun p => (p.filter fun x => !shared.contains x).all (·.eval ρ)) := by
      rw [List.and_any_distrib_left, Bool.eq_iff_iff]
      simp only [List.any_eq_true]
      exact exists_congr fun p => and_congr_right fun hp => by rw [all_eval_split ρ shared p (hsub p hp)]
    rw [hsplit]
    split
    · rename_i hempty
      have hnil : shared = [] := List.isEmpty_iff.1 hempty
      simp [hnil, Function.comp_def]
    · split
      · rename_i hrest
        have := congrArg (eval ρ) hrest
        rw [eval_any] at this
        simp only [List.any_map, Function.comp_def, eval_all] at this
        rw [this, eval_all, eval, Bool.and_true]
      · simp only [eval, eval_all, eval_any, List.any_map, Function.comp_def]

/-- Minimizing a formula over the atoms `0, …, atoms - 1` keeps the function that it denotes. -/
theorem eval_minimize (ρ : Nat → Bool) (atoms : Nat) (f : Formula Nat) (h : ∀ a ∈ f.atoms, a < atoms) :
    (minimize atoms f).eval ρ = f.eval ρ := by
  have hwithin := Diagram.within_ofFormulaFrom atoms 0 f
  rw [Nat.zero_add] at hwithin
  obtain ⟨_, hadm⟩ := Cover.ofDiagram_sound ρ atoms 0 (.ofFormula atoms f) hwithin
  have hdiagram : (Diagram.ofFormula atoms f).eval ρ = f.eval ρ :=
    Diagram.eval_ofFormulaFrom ρ atoms 0 f fun a ha => ⟨Nat.zero_le a, by have := h a ha; omega⟩
  have hcover : ((Cover.ofDiagram atoms (.ofFormula atoms f)).any fun c => c.literals.all (·.eval ρ)) = true ↔
      Cover.Admits ρ (Cover.ofDiagram atoms (.ofFormula atoms f)) := by
    have hone : ∀ c : Cube, c.literals.all (·.eval ρ) = c.admits ρ 0 := eval_literals ρ 0
    simp only [List.any_eq_true, Cover.Admits, hone]
  rw [minimize, eval_factor, List.any_map, ← hdiagram, Bool.eq_iff_iff]
  exact hcover.trans hadm

end Formula

end Sequencer
