import Mathlib.Data.Finset.Card
import Mathlib.Logic.Relation
import Sequencer.Arena
import Sequencer.Proofs.Checked

set_option autoImplicit false

/-!
# Outlines of arenas

The outline below an index is cut off after as many links as the arena has items. If no index occurs twice in it, or if
links run in no circle, nothing is cut off: every node has the links of its item. In the first case every part of the
outline is also the outline below its index, and each index is linked from one place only.
-/

namespace Sequencer

/-- Lists that share an element are one list, if no element occurs twice. -/
theorem eq_of_mem_of_nodup_flatMap {α β : Type} {f : α → List β} {as : List α} (h : (as.flatMap f).Nodup) {a a' : α}
    (ha : a ∈ as) (ha' : a' ∈ as) {b : β} (hb : b ∈ f a) (hb' : b ∈ f a') : a = a' := by
  induction as with
  | nil => exact absurd ha List.not_mem_nil
  | cons x as ih =>
    rw [List.flatMap_cons, List.nodup_append] at h
    obtain ⟨_, has, hdisj⟩ := h
    rcases List.mem_cons.1 ha with rfl | hmem
    · rcases List.mem_cons.1 ha' with rfl | hmem'
      · rfl
      · exact absurd rfl (hdisj b hb b (List.mem_flatMap.2 ⟨a', hmem', hb'⟩))
    · rcases List.mem_cons.1 ha' with rfl | hmem'
      · exact absurd rfl (hdisj b hb' b (List.mem_flatMap.2 ⟨a, hmem, hb⟩))
      · exact ih has hmem hmem'

namespace Outline

@[elab_as_elim]
theorem ind {P : Outline → Prop} (node : ∀ i os, (∀ o ∈ os, P o) → P (.node i os)) : ∀ o, P o
  | .node i os => node i os fun o _ => ind node o

theorem preorders_eq (os : List Outline) : preorders os = os.flatMap preorder := by
  induction os with
  | nil => rfl
  | cons o os ih => rw [preorders, ih, List.flatMap_cons]

theorem preorder_eq (i : Nat) (os : List Outline) : (node i os).preorder = i :: os.flatMap preorder := by
  rw [preorder, preorders_eq]

theorem index_mem_preorder (o : Outline) : o.index ∈ o.preorder := by
  obtain ⟨i, os⟩ := o
  exact List.mem_cons_self

theorem map_index_sublist (os : List Outline) : (os.map index).Sublist (os.flatMap preorder) := by
  induction os with
  | nil => exact .refl _
  | cons o os ih =>
    obtain ⟨i, os'⟩ := o
    rw [List.map_cons, List.flatMap_cons, preorder_eq, List.cons_append]
    exact (ih.trans (List.sublist_append_right _ _)).cons_cons i

theorem preorder_sublist_of_mem {o : Outline} {os : List Outline} (ho : o ∈ os) :
    o.preorder.Sublist (os.flatMap preorder) := by
  rw [List.flatMap_def]
  exact List.sublist_flatten_of_mem (List.mem_map_of_mem ho)

theorem mem_preorder_of_mem_nested {i j : Nat} {os : List Outline} {o : Outline} (ho : o ∈ os)
    (hj : j ∈ o.preorder) : j ∈ (node i os).preorder := by
  rw [preorder_eq]
  exact List.mem_cons_of_mem _ (List.mem_flatMap.2 ⟨o, ho, hj⟩)

/-- An outline lies in another one. -/
inductive Part : Outline → Outline → Prop
  | refl (o : Outline) : Part o o
  | nested {o o' : Outline} {i : Nat} {os : List Outline} (ho : o ∈ os) (h : Part o' o) : Part o' (.node i os)

theorem Part.trans {a b c : Outline} (hab : Part a b) (hbc : Part b c) : Part a c := by
  induction hbc with
  | refl => exact hab
  | nested ho _ ih => exact .nested ho (ih hab)

theorem Part.sublist {o o' : Outline} (h : Part o' o) : o'.preorder.Sublist o.preorder := by
  induction h with
  | refl => exact .refl _
  | nested ho _ ih =>
    rw [preorder_eq]
    exact (ih.trans (preorder_sublist_of_mem ho)).cons _

theorem Part.mem_nested {o : Outline} {i : Nat} {os : List Outline} (h : Part (.node i os) o) {c : Outline} (hc : c ∈ os) :
    c.index ∈ o.nested.flatMap preorder := by
  cases h with
  | refl => exact List.mem_flatMap.2 ⟨c, hc, index_mem_preorder c⟩
  | nested ho h =>
    have hpart : Part c (.node i os) := .nested hc (.refl c)
    exact List.mem_flatMap.2 ⟨_, ho, (hpart.trans h).sublist.subset (index_mem_preorder c)⟩

theorem Part.index_mem {o : Outline} {i : Nat} {os : List Outline} (h : Part (.node i os) o) {c : Outline} (hc : c ∈ os) :
    c.index ∈ o.preorder :=
  h.sublist.subset (mem_preorder_of_mem_nested hc c.index_mem_preorder)

theorem Part.index_ne {o : Outline} (hnodup : o.preorder.Nodup) {i : Nat} {os : List Outline} (h : Part (.node i os) o)
    {c : Outline} (hc : c ∈ os) : c.index ≠ o.index := by
  have hmem := h.mem_nested hc
  obtain ⟨j, qs⟩ := o
  rw [preorder_eq, List.nodup_cons] at hnodup
  intro heq
  rw [heq] at hmem
  exact hnodup.1 hmem

/-- No index stands below two others. -/
theorem Part.parent_unique {o : Outline} (hnodup : o.preorder.Nodup) {i i' : Nat} {os os' : List Outline}
    (h : Part (.node i os) o) (h' : Part (.node i' os') o) {c c' : Outline} (hc : c ∈ os) (hc' : c' ∈ os')
    (hindex : c.index = c'.index) : i = i' := by
  induction o using ind with
  | node j qs ih =>
    rw [preorder_eq, List.nodup_cons] at hnodup
    have hpart : ∀ q ∈ qs, q.preorder.Nodup := fun q hq => hnodup.2.sublist (preorder_sublist_of_mem hq)
    cases h with
    | refl =>
      cases h' with
      | refl => rfl
      | @nested q' _ _ _ hq' h' =>
        -- The index stands at the top of a part and also further down in it.
        obtain rfl := eq_of_mem_of_nodup_flatMap hnodup.2 hc hq' c.index_mem_preorder (hindex ▸ h'.index_mem hc')
        exact absurd hindex.symm (h'.index_ne (hpart c hq') hc')
    | @nested q _ _ _ hq h =>
      cases h' with
      | refl =>
        obtain rfl := eq_of_mem_of_nodup_flatMap hnodup.2 hc' hq c'.index_mem_preorder (hindex ▸ h.index_mem hc)
        exact absurd hindex (h.index_ne (hpart c' hq) hc)
      | @nested q' _ _ _ hq' h' =>
        obtain rfl := eq_of_mem_of_nodup_flatMap hnodup.2 hq hq' (h.index_mem hc) (hindex ▸ h'.index_mem hc')
        exact ih q hq (hpart q hq) h h'

theorem exists_part_of_mem {o : Outline} {j : Nat} (h : j ∈ o.preorder) : ∃ o', Part o' o ∧ o'.index = j := by
  induction o using ind with
  | node i os ih =>
    rw [preorder_eq] at h
    rcases List.mem_cons.1 h with rfl | h
    · exact ⟨_, .refl _, rfl⟩
    · obtain ⟨o, ho, hj⟩ := List.mem_flatMap.1 h
      obtain ⟨o', ho', hindex⟩ := ih o ho hj
      exact ⟨o', .nested ho ho', hindex⟩

/-- Every node has the links of its index. -/
inductive Unfolds (links : Nat → List Nat) : Outline → Prop
  | node {i : Nat} {os : List Outline} (h : links i = os.map index) (hos : ∀ o ∈ os, Unfolds links o) :
    Unfolds links (.node i os)

theorem Unfolds.links_eq {links : Nat → List Nat} {i : Nat} {os : List Outline} (h : Unfolds links (.node i os)) :
    links i = os.map index := by
  cases h with
  | node h _ => exact h

theorem Unfolds.nested {links : Nat → List Nat} {i : Nat} {os : List Outline} (h : Unfolds links (.node i os))
    {o : Outline} (ho : o ∈ os) : Unfolds links o := by
  cases h with
  | node _ hos => exact hos o ho

theorem Unfolds.part {links : Nat → List Nat} {o o' : Outline} (h : Unfolds links o) (hp : Part o' o) :
    Unfolds links o' := by
  induction hp with
  | refl => exact h
  | nested ho _ ih => exact ih (h.nested ho)

section Reach

variable {links : Nat → List Nat} {o : Outline}

/-- An outline with all links holds what its links lead to. -/
theorem Unfolds.mem_preorder_iff (h : o.Unfolds links) {j : Nat} :
    j ∈ o.preorder ↔ Relation.ReflTransGen (fun i j => j ∈ links i) o.index j := by
  constructor
  · intro hj
    induction o using ind with
    | node i os ih =>
      rw [preorder_eq] at hj
      rcases List.mem_cons.1 hj with rfl | hj
      · exact .refl
      · obtain ⟨o, ho, hj⟩ := List.mem_flatMap.1 hj
        refine .head ?_ (ih o ho (h.nested ho) hj)
        exact h.links_eq ▸ List.mem_map_of_mem ho
  · intro hreach
    induction hreach with
    | refl => exact index_mem_preorder o
    | tail _ hlink ih =>
      obtain ⟨⟨i, os⟩, hpart, rfl⟩ := exists_part_of_mem ih
      rw [index, (h.part hpart).links_eq] at hlink
      obtain ⟨c, hc, rfl⟩ := List.mem_map.1 hlink
      exact hpart.index_mem hc

theorem Unfolds.mem_nested_iff {i : Nat} {os : List Outline} (h : Unfolds links (.node i os)) {j : Nat} :
    j ∈ os.flatMap preorder ↔ Relation.TransGen (fun i j => j ∈ links i) i j := by
  rw [Relation.TransGen.head'_iff, List.mem_flatMap]
  constructor
  · rintro ⟨o, ho, hj⟩
    exact ⟨o.index, h.links_eq ▸ List.mem_map_of_mem ho, (h.nested ho).mem_preorder_iff.1 hj⟩
  · rintro ⟨k, hk, hj⟩
    rw [h.links_eq] at hk
    obtain ⟨o, ho, rfl⟩ := List.mem_map.1 hk
    exact ⟨o, ho, (h.nested ho).mem_preorder_iff.2 hj⟩

/-- The indices in `S`, which links do not leave, are linked from one place each, and links run in no circle there. -/
structure Branching (links : Nat → List Nat) (S : Nat → Prop) : Prop where
  closed : ∀ i j, S i → j ∈ links i → S j
  acyclic : ∀ i, S i → ¬ Relation.TransGen (fun i j => j ∈ links i) i i
  nodup : ∀ i, S i → (links i).Nodup
  parent : ∀ i i' j, S i → S i' → j ∈ links i → j ∈ links i' → i = i'

namespace Branching

variable {S : Nat → Prop}

theorem mem_of_reaches (h : Branching links S) {i j : Nat} (hi : S i)
    (hij : Relation.ReflTransGen (fun i j => j ∈ links i) i j) : S j := by
  induction hij with
  | refl => exact hi
  | tail _ hlink ih => exact h.closed _ _ ih hlink

/-- Two indices that lead to a third one lie on one path. -/
theorem reaches_or_reaches (h : Branching links S) {a b x : Nat} (ha : S a) (hb : S b)
    (hax : Relation.ReflTransGen (fun i j => j ∈ links i) a x)
    (hbx : Relation.ReflTransGen (fun i j => j ∈ links i) b x) :
    Relation.ReflTransGen (fun i j => j ∈ links i) a b ∨ Relation.ReflTransGen (fun i j => j ∈ links i) b a := by
  induction hax with
  | refl => exact .inr hbx
  | @tail y x hay hyx ih =>
    cases hbx with
    | refl => exact .inl (hay.tail hyx)
    | @tail y' _ hby' hy'x =>
      obtain rfl := h.parent y y' x (h.mem_of_reaches ha hay) (h.mem_of_reaches hb hby') hyx hy'x
      exact ih hby'

/-- What is linked from one place does not lead to something else linked from there. -/
theorem not_reaches_sibling (h : Branching links S) {i a b : Nat} (hi : S i) (ha : a ∈ links i) (hb : b ∈ links i)
    (hne : a ≠ b) : ¬ Relation.ReflTransGen (fun i j => j ∈ links i) a b := by
  intro hab
  cases hab with
  | refl => exact hne rfl
  | @tail p _ hap hpb =>
    obtain rfl := h.parent p i b (h.mem_of_reaches (h.closed i a hi ha) hap) hi hpb hb
    exact h.acyclic p hi (.head' ha hap)

theorem nodup_preorder (h : Branching links S) (ho : o.Unfolds links) (hindex : S o.index) : o.preorder.Nodup := by
  induction o using ind with
  | node i os ih =>
    have hlink : ∀ o ∈ os, o.index ∈ links i := fun o ho' => ho.links_eq ▸ List.mem_map_of_mem ho'
    rw [preorder_eq, List.nodup_cons, List.nodup_flatMap]
    refine ⟨fun hi => h.acyclic i hindex (ho.mem_nested_iff.1 hi), ?_, ?_⟩
    · intro o ho'
      exact ih o ho' (ho.nested ho') (h.closed i _ hindex (hlink o ho'))
    · have hne : os.Pairwise fun c c' => c.index ≠ c'.index := by
        have hnodup := h.nodup i hindex
        rw [ho.links_eq] at hnodup
        exact List.pairwise_map.1 hnodup
      refine hne.imp_of_mem fun {c c'} hc hc' hindices => ?_
      -- An index in both parts would put one part below the other.
      intro x hx hx'
      have hreach := (ho.nested hc).mem_preorder_iff.1 hx
      have hreach' := (ho.nested hc').mem_preorder_iff.1 hx'
      rcases h.reaches_or_reaches (h.closed i _ hindex (hlink c hc)) (h.closed i _ hindex (hlink c' hc')) hreach hreach'
        with hcc' | hc'c
      · exact h.not_reaches_sibling hindex (hlink c hc) (hlink c' hc') hindices hcc'
      · exact h.not_reaches_sibling hindex (hlink c' hc') (hlink c hc) hindices.symm hc'c

end Branching

/-- An outline without repeated indices branches. -/
theorem Unfolds.branching (h : o.Unfolds links) (hnodup : o.preorder.Nodup) : Branching links (· ∈ o.preorder) where
  closed i j hi hj := by
    rw [h.mem_preorder_iff] at hi ⊢
    exact hi.tail hj
  acyclic i hi hcircle := by
    obtain ⟨⟨i, os⟩, hpart, rfl⟩ := exists_part_of_mem hi
    have hpre := hnodup.sublist hpart.sublist
    rw [preorder_eq, List.nodup_cons] at hpre
    exact hpre.1 ((h.part hpart).mem_nested_iff.2 hcircle)
  nodup i hi := by
    obtain ⟨⟨i, os⟩, hpart, rfl⟩ := exists_part_of_mem hi
    have hpre := hnodup.sublist hpart.sublist
    rw [preorder_eq, List.nodup_cons] at hpre
    rw [index, (h.part hpart).links_eq]
    exact hpre.2.sublist (map_index_sublist os)
  parent i i' j hi hi' hj hj' := by
    obtain ⟨⟨i, os⟩, hpart, rfl⟩ := exists_part_of_mem hi
    obtain ⟨⟨i', os'⟩, hpart', rfl⟩ := exists_part_of_mem hi'
    rw [index, (h.part hpart).links_eq] at hj
    rw [index, (h.part hpart').links_eq] at hj'
    obtain ⟨c, hc, rfl⟩ := List.mem_map.1 hj
    obtain ⟨c', hc', hindex⟩ := List.mem_map.1 hj'
    exact hpart.parent_unique hnodup hpart' hc hc' hindex.symm

end Reach

end Outline

namespace Arena

variable {α : Type} (a : Arena α) (links : α → List Nat)

/-- The links of the item at an index. -/
def linksAt (i : Nat) : List Nat := (a.get? i).elim [] links

theorem index_outlineTo (n i : Nat) : (a.outlineTo links n i).index = i := by
  cases n <;> rfl

theorem outlineTo_succ (n i : Nat) :
    a.outlineTo links (n + 1) i = .node i ((a.linksAt links i).map (a.outlineTo links n)) := rfl

theorem length_le_size {is : List Nat} (hnodup : is.Nodup) (hlt : ∀ j ∈ is, j < a.size) : is.length ≤ a.size := by
  have hsub : is.toFinset ⊆ Finset.range a.size := by
    intro j hj
    exact Finset.mem_range.2 (hlt j (List.mem_toFinset.1 hj))
  have hcard := Finset.card_le_card hsub
  rwa [List.toFinset_card_of_nodup hnodup, Finset.card_range] at hcard

/-- A path of distinct indices down to a node leaves room for the links of the node. -/
theorem unfolds_outlineTo {n i : Nat} {path : List Nat} (hpath : path.Nodup) (hlt : ∀ j ∈ path, j < a.size)
    (hlen : path.length + n = a.size) (hdisj : ∀ j ∈ (a.outlineTo links n i).preorder, j ∉ path)
    (hbound : ∀ j ∈ (a.outlineTo links n i).preorder, j < a.size) (hnodup : (a.outlineTo links n i).preorder.Nodup) :
    (a.outlineTo links n i).Unfolds (a.linksAt links) := by
  induction n generalizing i path with
  | zero =>
    have hi : i ∈ (a.outlineTo links 0 i).preorder := by simp [outlineTo, Outline.preorder]
    have hroom := a.length_le_size (List.nodup_cons.2 ⟨hdisj i hi, hpath⟩) (List.forall_mem_cons.2 ⟨hbound i hi, hlt⟩)
    rw [List.length_cons] at hroom
    omega
  | succ n ih =>
    rw [outlineTo_succ] at hdisj hbound hnodup ⊢
    rw [Outline.preorder_eq, List.nodup_cons] at hnodup
    refine .node ?_ ?_
    · rw [List.map_map]
      exact ((List.map_congr_left fun j _ => a.index_outlineTo links n j).trans (List.map_id _)).symm
    · intro o ho
      obtain ⟨j, hj, rfl⟩ := List.mem_map.1 ho
      have hi : i ∉ path := hdisj i List.mem_cons_self
      refine ih (List.nodup_cons.2 ⟨hi, hpath⟩) ?_ ?_ ?_ ?_ ?_
      · intro x hx
        rcases List.mem_cons.1 hx with rfl | hx
        · exact hbound x List.mem_cons_self
        · exact hlt x hx
      · rw [List.length_cons]
        omega
      · intro x hx hmem
        rcases List.mem_cons.1 hmem with rfl | hmem
        · exact hnodup.1 (List.mem_flatMap.2 ⟨_, ho, hx⟩)
        · exact hdisj x (Outline.mem_preorder_of_mem_nested ho hx) hmem
      · intro x hx
        exact hbound x (Outline.mem_preorder_of_mem_nested ho hx)
      · exact hnodup.2.sublist (Outline.preorder_sublist_of_mem ho)

theorem unfolds_outline {i : Nat} (hbound : ∀ j ∈ (a.outline links i).preorder, j < a.size)
    (hnodup : (a.outline links i).preorder.Nodup) : (a.outline links i).Unfolds (a.linksAt links) :=
  a.unfolds_outlineTo links List.nodup_nil (by simp) (by simp) (by simp) hbound hnodup

/-- Where links run in no circle, the indices on a path are distinct, so the depth cuts off nothing. -/
theorem unfolds_outlineTo_of_acyclic {n i : Nat} {path : List Nat} (hpath : path.Nodup) (hlt : ∀ j ∈ path, j < a.size)
    (hlen : path.length + n = a.size)
    (habove : ∀ j ∈ path, Relation.TransGen (fun i j => j ∈ a.linksAt links i) j i)
    (hbound : ∀ j, Relation.ReflTransGen (fun i j => j ∈ a.linksAt links i) i j → j < a.size)
    (hacyclic : ∀ j, Relation.ReflTransGen (fun i j => j ∈ a.linksAt links i) i j →
      ¬ Relation.TransGen (fun i j => j ∈ a.linksAt links i) j j) :
    (a.outlineTo links n i).Unfolds (a.linksAt links) := by
  have hfresh : i ∉ path := fun hi => hacyclic i .refl (habove i hi)
  induction n generalizing i path with
  | zero =>
    have hroom := a.length_le_size (List.nodup_cons.2 ⟨hfresh, hpath⟩) (List.forall_mem_cons.2 ⟨hbound i .refl, hlt⟩)
    rw [List.length_cons] at hroom
    omega
  | succ n ih =>
    rw [outlineTo_succ]
    refine .node ?_ ?_
    · rw [List.map_map]
      exact ((List.map_congr_left fun j _ => a.index_outlineTo links n j).trans (List.map_id _)).symm
    · intro o ho
      obtain ⟨j, hj, rfl⟩ := List.mem_map.1 ho
      have habove' : ∀ k ∈ i :: path, Relation.TransGen (fun i j => j ∈ a.linksAt links i) k j := by
        intro k hk
        rcases List.mem_cons.1 hk with rfl | hk
        · exact .single hj
        · exact (habove k hk).tail hj
      have hacyclic' : ∀ k, Relation.ReflTransGen (fun i j => j ∈ a.linksAt links i) j k →
          ¬ Relation.TransGen (fun i j => j ∈ a.linksAt links i) k k := fun k hk => hacyclic k (.head hj hk)
      refine ih (List.nodup_cons.2 ⟨hfresh, hpath⟩) ?_ ?_ habove' (fun k hk => hbound k (.head hj hk)) hacyclic'
        fun hmem => hacyclic' j .refl (habove' j hmem)
      · exact List.forall_mem_cons.2 ⟨hbound i .refl, hlt⟩
      · rw [List.length_cons]
        omega

theorem unfolds_outline_of_acyclic {i : Nat}
    (hbound : ∀ j, Relation.ReflTransGen (fun i j => j ∈ a.linksAt links i) i j → j < a.size)
    (hacyclic : ∀ j, Relation.ReflTransGen (fun i j => j ∈ a.linksAt links i) i j →
      ¬ Relation.TransGen (fun i j => j ∈ a.linksAt links i) j j) :
    (a.outline links i).Unfolds (a.linksAt links) :=
  a.unfolds_outlineTo_of_acyclic links List.nodup_nil (by simp) (by simp) (by simp) hbound hacyclic

variable {a links} in
/-- An outline with all links is found by unfolding as deep as it has nodes. -/
theorem outlineTo_eq {o : Outline} (h : o.Unfolds (a.linksAt links)) {n : Nat} (hn : o.preorder.length ≤ n + 1) :
    a.outlineTo links n o.index = o := by
  induction o using Outline.ind generalizing n with
  | node i os ih =>
    rw [Outline.preorder_eq, List.length_cons] at hn
    cases n with
    | zero =>
      have hos : os = [] := by
        cases os with
        | nil => rfl
        | cons o os =>
          have := List.length_pos_of_mem o.index_mem_preorder
          rw [List.flatMap_cons, List.length_append] at hn
          omega
      subst hos
      rfl
    | succ n =>
      change Outline.node i ((a.linksAt links i).map (a.outlineTo links n)) = Outline.node i os
      rw [h.links_eq, List.map_map]
      congr 1
      refine (List.map_congr_left fun o ho => ?_).trans (List.map_id os)
      refine ih o ho (h.nested ho) ?_
      have hle := (Outline.preorder_sublist_of_mem ho).length_le
      omega

variable {a links} in
/-- The part of an outline at an index is the outline below that index. -/
theorem outline_eq {o : Outline} (h : o.Unfolds (a.linksAt links)) (hbound : ∀ j ∈ o.preorder, j < a.size)
    (hnodup : o.preorder.Nodup) : a.outline links o.index = o := by
  exact outlineTo_eq h (Nat.le_succ_of_le (a.length_le_size hnodup hbound))

theorem outline_congr {a a' : Arena α} {links : α → List Nat} (hsize : a'.size = a.size)
    (hlinks : ∀ i, a'.linksAt links i = a.linksAt links i) (i : Nat) : a'.outline links i = a.outline links i := by
  have hto : ∀ n i, a'.outlineTo links n i = a.outlineTo links n i := by
    intro n
    induction n with
    | zero =>
      intro i
      rfl
    | succ n ih =>
      intro i
      rw [outlineTo_succ, outlineTo_succ, hlinks, funext ih]
  rw [outline, outline, hsize]
  exact hto a.size i

theorem lt_size_of_get? {a : Arena α} {i : Nat} {x : α} (h : a.get? i = some x) : i < a.size :=
  (Array.getElem?_eq_some_iff.1 h).1

theorem mem_toList_of_get {a : Arena α} {i : Nat} {x : α} (h : a.get i = .ok x) : x ∈ a.toList :=
  Array.mem_toList_iff.2 (Array.mem_of_getElem? ((a.get_eq_ok_iff i x).1 h))

theorem exists_get?_of_lt {a : Arena α} {i : Nat} (h : i < a.size) : ∃ x, a.get? i = some x :=
  ⟨_, Array.getElem?_eq_getElem h⟩

theorem reachable_eq_ok {a : Arena α} {links : α → List Nat} {i : Nat}
    (hbound : ∀ j ∈ (a.outline links i).preorder, j < a.size) :
    a.reachable links i = .ok (a.outline links i).preorder := by
  refine Checked.mapM_of_forall₂ (List.forall₂_same.2 fun j hj => ?_)
  obtain ⟨x, hx⟩ := exists_get?_of_lt (hbound j hj)
  rw [(a.get_eq_ok_iff j x).2 hx]
  rfl

theorem get_congr {a a' : Arena α} {i : Nat} (hsize : a'.size = a.size) (h : a'.get? i = a.get? i) :
    a'.get i = a.get i := by
  unfold get
  unfold get? at h
  rw [h, hsize]

theorem set_eq_ok {a b : Arena α} {i : Nat} {x : α} (h : a.set i x = .ok b) :
    b.size = a.size ∧ ∀ j, b.get? j = if j = i then some x else a.get? j := by
  unfold set at h
  split at h
  · rename_i hi
    cases h
    refine ⟨Array.size_setIfInBounds, ?_⟩
    intro j
    change (a.items.setIfInBounds i x)[j]? = _
    rw [Array.getElem?_setIfInBounds]
    by_cases hij : i = j
    · subst hij
      rw [if_pos rfl, if_pos rfl]
      exact if_pos hi
    · rw [if_neg hij, if_neg (Ne.symm hij)]
      rfl
  · cases h

end Arena

end Sequencer
