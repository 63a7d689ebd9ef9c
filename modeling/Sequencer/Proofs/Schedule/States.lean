import Sequencer.Proofs.Schedule.Layout
import Sequencer.Schedule.States

set_option autoImplicit false

/-!
# States of segments

Numbering changes nothing but states and ids. A segment has the state in which it is entered and those that were new
while it was visited, without gaps.
-/

namespace Sequencer

open Control

namespace Segment

/-- A segment without its states. -/
def unstated (seg : Segment) : Segment := { seg with states := [] }

end Segment

namespace Schedule

/-- Schedules that differ in the states of their segments only. -/
structure Alike (s s' : Schedule) : Prop where
  root : s'.root = s.root
  size : s'.segments.size = s.segments.size
  same : ∀ j, (s'.segments.get? j).map Segment.unstated = (s.segments.get? j).map Segment.unstated

theorem Alike.refl (s : Schedule) : Alike s s := ⟨rfl, rfl, fun _ => rfl⟩

theorem Alike.symm {s s' : Schedule} (h : Alike s s') : Alike s' s :=
  ⟨h.root.symm, h.size.symm, fun j => (h.same j).symm⟩

theorem Alike.trans {s s' s'' : Schedule} (h : Alike s s') (h' : Alike s' s'') : Alike s s'' :=
  ⟨h'.root.trans h.root, h'.size.trans h.size, fun j => (h'.same j).trans (h.same j)⟩

theorem setStates_eq_ok {s s' : Schedule} {i : Nat} {states : List Nat} (h : s.setStates i states = .ok s') :
    ∃ seg, s.segment i = .ok seg ∧ s'.root = s.root ∧ s'.segments.size = s.segments.size ∧
      ∀ j, s'.segments.get? j = if j = i then some { seg with states := states } else s.segments.get? j := by
  rw [setStates, Checked.bind_eq_ok] at h
  obtain ⟨seg, hseg, h⟩ := h
  rw [Checked.bind_eq_ok] at h
  obtain ⟨segs, hsegs, h⟩ := h
  cases h
  obtain ⟨hsize, hget⟩ := Arena.set_eq_ok hsegs
  exact ⟨seg, hseg, rfl, hsize, hget⟩

theorem segment_setStates {s s' : Schedule} {i : Nat} {states : List Nat} {seg : Segment}
    (h : s.setStates i states = .ok s') (hseg : s.segment i = .ok seg) :
    s'.segment i = .ok { seg with states := states } := by
  obtain ⟨seg', hseg', _, _, hget⟩ := setStates_eq_ok h
  cases hseg.symm.trans hseg'
  rw [segment, Arena.get_eq_ok_iff, hget i, if_pos rfl]

theorem alike_setStates {s s' : Schedule} {i : Nat} {states : List Nat} (h : s.setStates i states = .ok s') :
    Alike s s' := by
  obtain ⟨seg, hseg, hroot, hsize, hget⟩ := setStates_eq_ok h
  refine ⟨hroot, hsize, ?_⟩
  intro j
  rw [hget j]
  split
  · rename_i hj
    rw [segment, Arena.get_eq_ok_iff] at hseg
    rw [hj, hseg]
    rfl
  · rfl

theorem Alike.segment {s s' : Schedule} (h : Alike s s') {i : Nat} {seg : Segment} (hseg : s.segment i = .ok seg) :
    ∃ states, s'.segment i = .ok { seg with states := states } := by
  rw [Schedule.segment, Arena.get_eq_ok_iff] at hseg
  have hsame := h.same i
  rw [hseg, Option.map_some] at hsame
  obtain ⟨seg', hseg', hunstated⟩ := Option.map_eq_some_iff.1 hsame
  refine ⟨seg'.states, ?_⟩
  rw [Schedule.segment, Arena.get_eq_ok_iff, hseg']
  obtain ⟨_, _, _, _, _, _, _, _⟩ := seg
  obtain ⟨_, _, _, _, _, _, _, _⟩ := seg'
  cases hunstated
  rfl

theorem Alike.outline {s s' : Schedule} (h : Alike s s') (i : Nat) : s'.outline i = s.outline i := by
  refine Arena.outline_congr h.size ?_ i
  intro j
  have hchildren : ∀ x : Option Segment, x.elim [] Segment.children = (x.map Segment.unstated).elim [] Segment.children := by
    intro x
    cases x with
    | none => rfl
    | some seg => rfl
  unfold Arena.linksAt
  rw [hchildren (s'.segments.get? j), h.same j, ← hchildren]

end Schedule

namespace Numbering

open Checked

theorem number_eq_ok {i : Nat} {n n' : Numbering} (h : number i n = .ok ((), n')) :
    n'.schedule = n.schedule ∧ n'.maxState = n.maxState ∧ n.module.Alike n'.module := by
  rw [number, bind_eq_ok] at h
  obtain ⟨s, hs, h⟩ := h
  have hset : ∀ {stmts : Arena Stmt}, n.module.stmts.set i (s.setId n.nextId) = .ok stmts →
      n.module.Alike { n.module with stmts := stmts } := fun h => .set hs (Stmt.bare_setId _ s) h
  cases s with
  | block b =>
    obtain ⟨stmts, hstmts, h⟩ := bind_eq_ok.1 h
    cases h
    exact ⟨rfl, rfl, hset hstmts⟩
  | yield y =>
    obtain ⟨stmts, hstmts, h⟩ := bind_eq_ok.1 h
    cases h
    exact ⟨rfl, rfl, hset hstmts⟩
  | update r v =>
    cases h
    exact ⟨rfl, rfl, .refl _⟩
  | assign x v =>
    cases h
    exact ⟨rfl, rfl, .refl _⟩

theorem numberAll_eq_ok {is : List Nat} {n n' : Numbering} (h : numberAll is n = .ok ((), n')) :
    n'.schedule = n.schedule ∧ n'.maxState = n.maxState ∧ n.module.Alike n'.module := by
  induction is generalizing n with
  | nil =>
    cases h
    exact ⟨rfl, rfl, .refl _⟩
  | cons i is ih =>
    obtain ⟨⟨⟩, n₁, hi, h⟩ := stateT_bind_eq_ok.1 h
    obtain ⟨hs₁, hm₁, ha₁⟩ := number_eq_ok hi
    obtain ⟨hs, hm, ha⟩ := ih h
    exact ⟨hs.trans hs₁, hm.trans hm₁, ha₁.trans ha⟩

theorem segment_eq_ok {i : Nat} {n n' : Numbering} {seg : Segment} (h : segment i n = .ok (seg, n')) :
    n.schedule.segment i = .ok seg ∧ n' = n := by
  obtain ⟨seg', hseg, h⟩ := bind_eq_ok.1 h
  cases h
  exact ⟨hseg, rfl⟩

theorem setStates_eq_ok {i : Nat} {states : List Nat} {n n' : Numbering}
    (h : setStates i states n = .ok ((), n')) :
    n.schedule.setStates i states = .ok n'.schedule ∧ n'.module = n.module ∧ n'.maxState = n.maxState := by
  obtain ⟨s, hs, h⟩ := bind_eq_ok.1 h
  cases h
  exact ⟨hs, rfl, rfl⟩

/-- Merges lists of states, each state once. -/
def merge (old new : List Nat) : List Nat := new.foldl (fun acc s => if acc.contains s then acc else acc ++ [s]) old

theorem mergeStates_eq_ok {i child : Nat} {n n' : Numbering} (h : mergeStates i child n = .ok ((), n')) :
    ∃ c seg, n.schedule.segment child = .ok c ∧ n.schedule.segment i = .ok seg ∧
      n.schedule.setStates i (merge seg.states c.states) = .ok n'.schedule ∧ n'.module = n.module ∧
      n'.maxState = n.maxState := by
  obtain ⟨c, n₁, hc, h₁⟩ := stateT_bind_eq_ok.1 h
  obtain ⟨hc, rfl⟩ := segment_eq_ok hc
  obtain ⟨seg, n₂, hseg, h₂⟩ := stateT_bind_eq_ok.1 h₁
  obtain ⟨hseg, rfl⟩ := segment_eq_ok hseg
  obtain ⟨hs, hm, hmax⟩ := setStates_eq_ok h₂
  exact ⟨c, seg, hc, hseg, hs, hm, hmax⟩

theorem merge_fresh {old new : List Nat} (hnodup : new.Nodup) (hdisj : ∀ s ∈ new, s ∉ old) :
    merge old new = old ++ new := by
  induction new generalizing old with
  | nil => simp [merge]
  | cons s new ih =>
    obtain ⟨hs, hnew⟩ := List.nodup_cons.1 hnodup
    have hstep : merge old (s :: new) = merge (old ++ [s]) new := by
      rw [merge, List.foldl_cons, if_neg (by simpa using hdisj s List.mem_cons_self), merge]
    rw [hstep, ih hnew, List.append_assoc, List.singleton_append]
    intro x hx hmem
    rcases List.mem_append.1 hmem with hmem | hmem
    · exact hdisj x (List.mem_cons_of_mem _ hx) hmem
    · exact hs (List.mem_singleton.1 hmem ▸ hx)

theorem merge_cons_of_mem {old new : List Nat} {s : Nat} (h : s ∈ old) : merge old (s :: new) = merge old new := by
  rw [merge, List.foldl_cons, if_pos (by simpa using h), merge]

/-- The states of a segment entered in `entry` while the largest state grows from `lo` to `hi`. -/
def span (entry lo hi : Nat) : List Nat := entry :: List.range' (lo + 1) (hi - lo)

theorem mem_span {entry lo hi x : Nat} : x ∈ span entry lo hi ↔ x = entry ∨ lo < x ∧ x ≤ hi := by
  rw [span, List.mem_cons, List.mem_range'_1]
  omega

theorem nodup_span {entry lo hi : Nat} (h : entry ≤ lo) : (span entry lo hi).Nodup := by
  rw [span, List.nodup_cons, List.mem_range'_1]
  exact ⟨by omega, List.nodup_range'⟩

theorem span_append {entry lo mid hi : Nat} (hlo : lo ≤ mid) (hhi : mid ≤ hi) :
    span entry lo mid ++ List.range' (mid + 1) (hi - mid) = span entry lo hi := by
  have hmid : mid + 1 = lo + 1 + (mid - lo) := by omega
  have hlen : mid - lo + (hi - mid) = hi - lo := by omega
  rw [span, span, List.cons_append, hmid, List.range'_append_1, hlen]

/-- The states of a child join those of the segment, whether the child is entered in a state of the segment or in a
new one. -/
theorem merge_span {entry entry' lo lo' mid hi : Nat} (hentry : entry ≤ lo) (hlo : lo ≤ mid)
    (h : mid = lo' ∧ entry' ∈ span entry lo mid ∨ entry' = lo' ∧ mid + 1 = lo') (hhi : lo' ≤ hi) :
    merge (span entry lo mid) (span entry' lo' hi) = span entry lo hi := by
  rcases h with ⟨rfl, hmem⟩ | ⟨rfl, rfl⟩
  · rw [span.eq_1 entry' mid hi, merge_cons_of_mem hmem, merge_fresh List.nodup_range']
    · exact span_append hlo (by omega)
    · intro x hx hmem
      rw [List.mem_range'_1] at hx
      rw [mem_span] at hmem
      omega
  · have hspan : span (mid + 1) (mid + 1) hi = List.range' (mid + 1) (hi - mid) := by
      have hlen : hi - mid = hi - (mid + 1) + 1 := by omega
      rw [span, hlen, List.range'_succ]
    rw [hspan, merge_fresh List.nodup_range']
    · exact span_append hlo (by omega)
    · intro x hx hmem
      rw [List.mem_range'_1] at hx
      rw [mem_span] at hmem
      omega

end Numbering

namespace Schedule

open Numbering

mutual
/-- The segments of an outline that is entered in `entry` have the states that are new while the largest state grows
from `lo` to `hi`. -/
def Stated (s : Schedule) (entry lo hi : Nat) : Outline → Prop
  | .node i os => ∃ seg, s.segment i = .ok seg ∧ entry ≤ lo ∧ lo ≤ hi ∧ seg.states = span entry lo hi ∧
    if seg.kind = .leaf then lo = hi else s.StatedAll seg.kind entry lo hi os
def StatedAll (s : Schedule) (kind : SegmentKind) (entry lo hi : Nat) : List Outline → Prop
  | [] => lo = hi
  | o :: os => ∃ mid, s.Stated entry lo mid o ∧
    if kind = .seq ∧ !os.isEmpty then s.StatedAll kind (mid + 1) (mid + 1) hi os else s.StatedAll kind entry mid hi os
end

mutual
theorem Stated.congr {s s' : Schedule} : (o : Outline) → (∀ j ∈ o.preorder, s'.segment j = s.segment j) →
    ∀ {entry lo hi}, s.Stated entry lo hi o → s'.Stated entry lo hi o
  | .node i os, hseg, entry, lo, hi, h => by
    obtain ⟨seg, hs, hentry, hlo, hstates, h⟩ := h
    refine ⟨seg, (hseg i List.mem_cons_self).trans hs, hentry, hlo, hstates, ?_⟩
    split at h
    · rename_i hkind
      rw [if_pos hkind]
      exact h
    · rename_i hkind
      rw [if_neg hkind]
      refine StatedAll.congr os (fun j hj => hseg j ?_) h
      rw [Outline.preorder_eq]
      exact List.mem_cons_of_mem _ hj
theorem StatedAll.congr {s s' : Schedule} : (os : List Outline) →
    (∀ j ∈ os.flatMap Outline.preorder, s'.segment j = s.segment j) →
    ∀ {kind entry lo hi}, s.StatedAll kind entry lo hi os → s'.StatedAll kind entry lo hi os
  | [], _, _, _, _, _, h => h
  | o :: os, hseg, kind, entry, lo, hi, h => by
    have ho : ∀ j ∈ o.preorder, s'.segment j = s.segment j := fun j hj => hseg j (by simp [hj])
    have hos : ∀ j ∈ os.flatMap Outline.preorder, s'.segment j = s.segment j := by
      intro j hj
      rw [List.flatMap_cons] at hseg
      exact hseg j (List.mem_append_right _ hj)
    obtain ⟨mid, hstated, h⟩ := h
    refine ⟨mid, hstated.congr o ho, ?_⟩
    split at h
    · rename_i hseq
      rw [if_pos hseq]
      exact h.congr os hos
    · rename_i hseq
      rw [if_neg hseq]
      exact h.congr os hos
end

end Schedule

namespace Numbering

open Checked Schedule

/-- What numbering may change: the states of the segments `js`, and ids. -/
structure Changes (js : List Nat) (n n' : Numbering) : Prop where
  max_le : n.maxState ≤ n'.maxState
  module : n.module.Alike n'.module
  schedule : n.schedule.Alike n'.schedule
  other : ∀ j, j ∉ js → n'.schedule.segment j = n.schedule.segment j

theorem Changes.trans {js js' ks : List Nat} {n n' n'' : Numbering} (h : Changes js n n') (h' : Changes js' n' n'')
    (hjs : ∀ j ∈ js, j ∈ ks) (hjs' : ∀ j ∈ js', j ∈ ks) : Changes ks n n'' where
  max_le := h.max_le.trans h'.max_le
  module := h.module.trans h'.module
  schedule := h.schedule.trans h'.schedule
  other := fun j hj => (h'.other j fun hmem => hj (hjs' j hmem)).trans (h.other j fun hmem => hj (hjs j hmem))

theorem Changes.weaken {js ks : List Nat} {n n' : Numbering} (h : Changes js n n') (hjs : ∀ j ∈ js, j ∈ ks) :
    Changes ks n n' :=
  ⟨h.max_le, h.module, h.schedule, fun j hj => h.other j fun hmem => hj (hjs j hmem)⟩

theorem changes_of_setStates {i : Nat} {states : List Nat} {n n' : Numbering}
    (h : n.schedule.setStates i states = .ok n'.schedule) (hmodule : n'.module = n.module)
    (hmax : n'.maxState = n.maxState) : Changes [i] n n' where
  max_le := Nat.le_of_eq hmax.symm
  module := hmodule ▸ .refl _
  schedule := alike_setStates h
  other := by
    intro j hj
    obtain ⟨seg, _, _, hsize, hget⟩ := Schedule.setStates_eq_ok h
    have hj' : j ≠ i := by simpa using hj
    exact Arena.get_congr hsize ((hget j).trans (if_neg hj'))

theorem changes_of_numberAll {is : List Nat} {n n' : Numbering} (h : numberAll is n = .ok ((), n')) :
    Changes [] n n' := by
  obtain ⟨hs, hm, ha⟩ := numberAll_eq_ok h
  exact ⟨Nat.le_of_eq hm.symm, ha, hs ▸ .refl _, fun j _ => by rw [hs]⟩

/-- Once a child has been numbered, its states join those of the segment at `i`, and nothing else changes. -/
theorem mergeStates_stated {o : Outline} {i entry entry' lo mid : Nat} {n n₁ n₂ : Numbering} {seg : Segment}
    (hi : i ∉ o.preorder) (hseg : n.schedule.segment i = .ok seg) (hstates : seg.states = span entry lo mid)
    (hentry : entry ≤ lo) (hlo : lo ≤ mid)
    (hmid : mid = n.maxState ∧ entry' ∈ span entry lo mid ∨ entry' = n.maxState ∧ mid + 1 = n.maxState)
    (hchange₁ : Changes o.preorder n n₁) (hstated : n₁.schedule.Stated entry' n.maxState n₁.maxState o)
    (h : mergeStates i o.index n₁ = .ok ((), n₂)) :
    Changes (i :: o.preorder) n n₂ ∧ n₂.maxState = n₁.maxState ∧
      n₂.schedule.segment i = .ok { seg with states := span entry lo n₁.maxState } ∧
      n₂.schedule.Stated entry' n.maxState n₁.maxState o := by
  obtain ⟨c, seg₁, hc, hseg₁, hset, hmodule₂, hmax₂⟩ := mergeStates_eq_ok h
  have hchange₂ := changes_of_setStates hset hmodule₂ hmax₂
  cases hseg₁.symm.trans ((hchange₁.other i hi).trans hseg)
  have hcstates : c.states = span entry' n.maxState n₁.maxState := by
    obtain ⟨j, js⟩ := o
    obtain ⟨c', hc', _, _, hcs, _⟩ := hstated
    cases hc.symm.trans hc'
    exact hcs
  have hmerge : merge seg.states c.states = span entry lo n₁.maxState := by
    rw [hstates, hcstates]
    exact merge_span hentry hlo hmid hchange₁.max_le
  refine ⟨hchange₁.trans hchange₂ (fun j hj => List.mem_cons_of_mem _ hj) (by simp), hmax₂, ?_, ?_⟩
  · rw [← hmerge]
    exact Schedule.segment_setStates hset hseg₁
  · refine hstated.congr o ?_
    intro j hj
    refine hchange₂.other j ?_
    rw [List.mem_singleton]
    rintro rfl
    exact hi hj

mutual
theorem visit_stated : (o : Outline) → o.preorder.Nodup → ∀ {entry : Nat} {n n' : Numbering}, entry ≤ n.maxState →
    visit entry o n = .ok ((), n') →
    Changes o.preorder n n' ∧ n'.schedule.Stated entry n.maxState n'.maxState o
  | .node i os, hnodup, entry, n, n', hentry, h => by
    rw [Outline.preorder_eq] at hnodup ⊢
    obtain ⟨hi, hos⟩ := List.nodup_cons.1 hnodup
    obtain ⟨⟨⟩, n₁, h₁, hrest₁⟩ := stateT_bind_eq_ok.1 h
    obtain ⟨hset, hmodule₁, hmax₁⟩ := Numbering.setStates_eq_ok h₁
    obtain ⟨seg, n₂, h₂, hrest₂⟩ := stateT_bind_eq_ok.1 hrest₁
    obtain ⟨hseg, rfl⟩ := Numbering.segment_eq_ok h₂
    obtain ⟨⟨⟩, n₃, h₃, hrest₃⟩ := stateT_bind_eq_ok.1 hrest₂
    have hchange₂ := changes_of_setStates hset hmodule₁ hmax₁
    have hchange₃ := changes_of_numberAll h₃
    have hmax₃ : n₃.maxState = n.maxState := (numberAll_eq_ok h₃).2.1.trans hmax₁
    have hseg₃ : n₃.schedule.segment i = .ok seg := (hchange₃.other i List.not_mem_nil).trans hseg
    have hstates : seg.states = span entry n.maxState n.maxState := by
      obtain ⟨seg₀, hseg₀, _⟩ := Schedule.setStates_eq_ok hset
      cases hseg.symm.trans (Schedule.segment_setStates hset hseg₀)
      simp [span]
    have hchange : Changes [i] n n₃ := hchange₂.trans hchange₃ (fun _ hj => hj) (by simp)
    have hleaf : seg.kind = .leaf → numberAll seg.stmts n₃ = .ok ((), n') → Changes [i] n n' ∧
        n'.schedule.Stated entry n.maxState n'.maxState (.node i os) := by
      intro hkind h₄
      have hchange₄ := changes_of_numberAll h₄
      have hmax₄ : n'.maxState = n.maxState := (numberAll_eq_ok h₄).2.1.trans hmax₃
      refine ⟨hchange.trans hchange₄ (fun _ hj => hj) (by simp), seg,
        (hchange₄.other i List.not_mem_nil).trans hseg₃, hentry, Nat.le_of_eq hmax₄.symm, by rw [hstates, hmax₄], ?_⟩
      rw [if_pos hkind, hmax₄]
    have hchildren : seg.kind ≠ .leaf → visitChildren i seg.kind entry os n₃ = .ok ((), n') →
        Changes (i :: os.flatMap Outline.preorder) n n' ∧
          n'.schedule.Stated entry n.maxState n'.maxState (.node i os) := by
      intro hkind h₄
      have hmem : entry ∈ span entry n.maxState n.maxState := by simp [span]
      obtain ⟨hchange₄, hall, hseg₄⟩ := visitChildren_stated os hos hi hseg₃ hstates hentry (Nat.le_refl _)
        (by rw [hmax₃]; exact hentry) (.inl ⟨hmax₃.symm, hmem⟩) h₄
      rw [hmax₃] at hall
      have hle : n.maxState ≤ n'.maxState := hmax₃ ▸ hchange₄.max_le
      refine ⟨hchange.trans hchange₄ (by simp) (fun _ hj => hj), _, hseg₄, hentry, hle, rfl, ?_⟩
      rw [if_neg hkind]
      exact hall
    cases hkind : seg.kind with
    | leaf =>
      rw [hkind] at hrest₃
      obtain ⟨hchange₄, hstated⟩ := hleaf hkind hrest₃
      exact ⟨hchange₄.weaken (by simp), hstated⟩
    | seq =>
      rw [hkind] at hrest₃ hchildren
      exact hchildren (by simp) hrest₃
    | mutex =>
      rw [hkind] at hrest₃ hchildren
      exact hchildren (by simp) hrest₃
theorem visitChildren_stated : (os : List Outline) → (os.flatMap Outline.preorder).Nodup →
    ∀ {i : Nat} {kind : SegmentKind} {entry entry' lo mid : Nat} {n n' : Numbering} {seg : Segment},
    i ∉ os.flatMap Outline.preorder → n.schedule.segment i = .ok seg → seg.states = span entry lo mid →
    entry ≤ lo → lo ≤ mid → entry' ≤ n.maxState →
    (mid = n.maxState ∧ entry' ∈ span entry lo mid ∨ os ≠ [] ∧ entry' = n.maxState ∧ mid + 1 = n.maxState) →
    visitChildren i kind entry' os n = .ok ((), n') →
    Changes (i :: os.flatMap Outline.preorder) n n' ∧
      n'.schedule.StatedAll kind entry' n.maxState n'.maxState os ∧
      n'.schedule.segment i = .ok { seg with states := span entry lo n'.maxState }
  | [], _, i, kind, entry, entry', lo, mid, n, n', seg, _, hseg, hstates, _, _, _, hmid, h => by
    cases h
    obtain ⟨rfl, _⟩ := hmid.resolve_right (by simp)
    refine ⟨⟨Nat.le_refl _, .refl _, .refl _, fun _ _ => rfl⟩, rfl, ?_⟩
    rw [hseg, ← hstates]
  | o :: os, hnodup, i, kind, entry, entry', lo, mid, n, n', seg, hi, hseg, hstates, hentry, hlo, hentry', hmid, h => by
    rw [List.flatMap_cons] at hnodup hi ⊢
    obtain ⟨hnodupo, hnodupos, hdisj⟩ := List.nodup_append.1 hnodup
    have hio : i ∉ o.preorder := fun hmem => hi (List.mem_append_left _ hmem)
    have hios : i ∉ os.flatMap Outline.preorder := fun hmem => hi (List.mem_append_right _ hmem)
    obtain ⟨⟨⟩, n₁, h₁, hrest₁⟩ := stateT_bind_eq_ok.1 h
    obtain ⟨hchange₁, hstated⟩ := visit_stated o hnodupo hentry' h₁
    obtain ⟨⟨⟩, n₂, h₂, hrest₂⟩ := stateT_bind_eq_ok.1 hrest₁
    obtain ⟨hchange, hmax₂, hseg₂, hstated₂⟩ :=
      mergeStates_stated hio hseg hstates hentry hlo (hmid.imp_right And.right) hchange₁ hstated h₂
    have hle : lo ≤ n₁.maxState := by
      have := hchange₁.max_le
      rcases hmid with ⟨hm, _⟩ | ⟨_, _, hm⟩ <;> omega
    -- The rest of the children, entered in `e` with the largest state `k`.
    have hrest : ∀ {e : Nat} {n₃ : Numbering}, visitChildren i kind e os n₃ = .ok ((), n') →
        n₃.schedule = n₂.schedule → n₃.module = n₂.module → n₂.maxState ≤ n₃.maxState → e ≤ n₃.maxState →
        (n₁.maxState = n₃.maxState ∧ e ∈ span entry lo n₁.maxState ∨
          os ≠ [] ∧ e = n₃.maxState ∧ n₁.maxState + 1 = n₃.maxState) →
        Changes (i :: (o.preorder ++ os.flatMap Outline.preorder)) n n' ∧
          n'.schedule.StatedAll kind e n₃.maxState n'.maxState os ∧ n'.schedule.Stated entry' n.maxState n₁.maxState o ∧
          n'.schedule.segment i = .ok { seg with states := span entry lo n'.maxState } := by
      intro e n₃ h₄ hschedule hmodule hmax he hcase
      have hchange₃ : Changes [] n₂ n₃ := ⟨hmax, hmodule ▸ .refl _, hschedule ▸ .refl _, fun j _ => by rw [hschedule]⟩
      rw [← hschedule] at hseg₂ hstated₂
      obtain ⟨hchange₄, hall, hseg₄⟩ := visitChildren_stated os hnodupos hios hseg₂ rfl hentry hle he hcase h₄
      have hkeep : n'.schedule.Stated entry' n.maxState n₁.maxState o := by
        refine hstated₂.congr o ?_
        intro j hj
        refine hchange₄.other j ?_
        intro hmem
        rcases List.mem_cons.1 hmem with rfl | hmem
        · exact hio hj
        · exact hdisj j hj j hmem rfl
      refine ⟨(hchange.trans hchange₃ (fun _ hj => hj) (by simp)).trans hchange₄ ?_ ?_, hall, hkeep, hseg₄⟩
      · intro j hj
        rcases List.mem_cons.1 hj with rfl | hj
        · exact List.mem_cons_self
        · exact List.mem_cons_of_mem _ (List.mem_append_left _ hj)
      · intro j hj
        rcases List.mem_cons.1 hj with rfl | hj
        · exact List.mem_cons_self
        · exact List.mem_cons_of_mem _ (List.mem_append_right _ hj)
    split at hrest₂
    · rename_i hseq
      obtain ⟨e, n₃, h₃, hrest₃⟩ := stateT_bind_eq_ok.1 hrest₂
      cases h₃
      have hne : os ≠ [] := by simpa using hseq.2
      obtain ⟨hch, hall, hkeep, hsegi⟩ := hrest hrest₃ rfl rfl (Nat.le_succ _) (Nat.le_refl _)
        (.inr ⟨hne, rfl, by rw [hmax₂]⟩)
      refine ⟨hch, ⟨n₁.maxState, hkeep, ?_⟩, hsegi⟩
      rw [if_pos hseq, ← hmax₂]
      exact hall
    · rename_i hseq
      obtain ⟨e, n₃, h₃, hrest₃⟩ := stateT_bind_eq_ok.1 hrest₂
      cases h₃
      have hmax₁ := hchange₁.max_le
      have hmem : entry' ∈ span entry lo n₁.maxState := by
        rw [mem_span]
        rcases hmid with ⟨hm, hmem⟩ | ⟨_, he, hm⟩
        · rw [mem_span] at hmem
          omega
        · omega
      obtain ⟨hch, hall, hkeep, hsegi⟩ := hrest hrest₃ rfl rfl (Nat.le_refl _) (by omega) (.inl ⟨hmax₂.symm, hmem⟩)
      refine ⟨hch, ⟨n₁.maxState, hkeep, ?_⟩, hsegi⟩
      rw [if_neg hseq, ← hmax₂]
      exact hall
end

theorem run_stated {m : Module} {s : Schedule} (hnodup : (s.outline s.root).preorder.Nodup) {n : Numbering}
    (h : run m s = .ok n) :
    m.Alike n.module ∧ s.Alike n.schedule ∧ n.schedule.Stated 0 0 n.maxState (s.outline s.root) := by
  obtain ⟨⟨⟨⟩, n'⟩, hvisit, hn⟩ := bind_eq_ok.1 h
  cases hn
  obtain ⟨hchange, hstated⟩ := visit_stated _ hnodup (Nat.le_refl 0) hvisit
  exact ⟨hchange.module, hchange.schedule, hstated⟩

end Numbering

end Sequencer
