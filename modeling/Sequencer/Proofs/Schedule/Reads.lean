import Sequencer.Proofs.Schedule.Flow
import Sequencer.Proofs.Schedule.Marks
import Sequencer.Proofs.Schedule.Progress

set_option autoImplicit false

/-!
# Reads along the flow

Marking goes through the schedule once, with the list of registers updated so far. The list is right at every place: it
has exactly the registers with an update on some way within the cycle to that place. So a read is marked if and only if
an update of its register flows into it.
-/

namespace Sequencer

open Control Checked Schedule

namespace Module

/-- The registers in `written` are those that have been updated in the cycle when the place is reached. -/
def Tracks (m : Module) (s : Schedule) (written : List String) (p : Place) : Prop :=
  ∀ r, r ∈ written ↔ Updated m s r p

/-- The statement of `m'` at `i` is that of `m`, ids apart, after the updates that flow into it. -/
def Resolved (m : Module) (s : Schedule) (m' : Module) (i : Nat) : Prop :=
  ∃ t t' written, m.stmt i = .ok t ∧ m'.stmt i = .ok t' ∧ t'.setId 0 = (t.after written).setId 0 ∧
    m.Tracks s written (.read i)

variable {m : Module} {s : Schedule}

theorem Tracks.congr {written : List String} {p q : Place} (h : m.Tracks s written p)
    (hpq : ∀ r, Updated m s r q ↔ Updated m s r p) : m.Tracks s written q :=
  fun r => (h r).trans (hpq r).symm

theorem Tracks.update {written : List String} {i : Nat} {r : String} {v : Expr} (h : m.Tracks s written (.read i))
    (hi : m.stmt i = .ok (.update r v)) : m.Tracks s (r :: written) (.done i) := by
  intro r'
  rw [updated_done hi rfl, List.mem_cons, h r']
  refine or_congr_left ⟨?_, ?_⟩
  · rintro rfl
    exact ⟨v, rfl⟩
  · rintro ⟨v', heq⟩
    cases heq
    rfl

/-- A statement other than an update changes nothing. -/
theorem Tracks.skip {written : List String} {i : Nat} {t : Stmt} (h : m.Tracks s written (.read i))
    (hi : m.stmt i = .ok t) (hblock : t.block? = none) (hupdate : ∀ r v, t ≠ .update r v) :
    m.Tracks s written (.done i) := by
  intro r
  rw [updated_done hi hblock, h r]
  exact (or_iff_right fun ⟨v, hv⟩ => hupdate r v hv).symm

section Segments

variable {u : Nat} {seg : Segment} (hseg : s.segment u = .ok seg) {written : List String}

include hseg

theorem Tracks.childless (hkind : seg.kind ≠ .leaf) (hchildren : seg.children = []) (h : m.Tracks s written (.test u)) :
    m.Tracks s written (.close u) := by
  refine h.congr fun r => ?_
  rw [updated_close hseg hkind, hchildren]
  simp

theorem Tracks.last (hkind : seg.kind = .seq) {c : Nat} (hc : seg.children.getLast? = some c)
    (h : m.Tracks s written (.leave c)) : m.Tracks s written (.close u) := by
  have hne : seg.children ≠ [] := by
    rintro hnil
    rw [hnil] at hc
    cases hc
  refine h.congr fun r => ?_
  rw [updated_close hseg (by simp [hkind])]
  simp [hkind, hne, hc]

theorem Tracks.join (hkind : seg.kind = .mutex) (hne : seg.children ≠ [])
    (h : ∀ r, r ∈ written ↔ ∃ c ∈ seg.children, Updated m s r (.leave c)) : m.Tracks s written (.close u) := by
  intro r
  rw [h r, updated_close hseg (by simp [hkind])]
  simp [hkind, hne, and_comm]

theorem Tracks.enter (hm : m.WellFormed) (hs : m.schedule = .ok s) {c : Nat} (hc : c ∈ seg.children)
    (hkind : seg.kind = .mutex ∨ seg.kind = .seq ∧ seg.children.head? = some c) (h : m.Tracks s written (.test u)) :
    m.Tracks s written (.enter c) :=
  h.congr fun _ => (updated_enter hm hs hseg hc).trans (and_iff_left hkind)

/-- Nothing has been updated yet when a segment of a sequence other than the first is entered. -/
theorem Tracks.enter_later (hm : m.WellFormed) (hs : m.schedule = .ok s) (hkind : seg.kind = .seq) {c : Nat}
    (hc : c ∈ seg.children.tail) : m.Tracks s [] (.enter c) := by
  obtain ⟨hlaid, hpre, _⟩ := schedule_laid hm hs
  have hnodup := (children_link_back hlaid hpre hseg).1
  intro r
  rw [updated_enter hm hs hseg (List.mem_of_mem_tail hc), hkind]
  refine iff_of_false List.not_mem_nil ?_
  rintro ⟨_, hmutex | ⟨_, hhead⟩⟩
  · cases hmutex
  · obtain ⟨cs, hcs⟩ := List.head?_eq_some_iff.1 hhead
    rw [hcs] at hc hnodup
    exact (List.nodup_cons.1 hnodup).1 hc

end Segments

mutual
theorem Marked.tracks {m' : Module} (hm : m.WellFormed) (hs : m.schedule = .ok s) : (o : Outline) → m.Closed o →
    ∀ {p q : Place} {stmts : List Nat} {written out : List String}, Runs m s p stmts q → o.index ∈ stmts →
    m.Tracks s written (.read o.index) → m.Marked m' written o out →
    m.Tracks s out (.done o.index) ∧ ∀ j ∈ o.preorder, m.Resolved s m' j
  | .node i os, hclosed, p, q, stmts, written, out, hruns, hi, htracks, h => by
    obtain ⟨t, t', ht, ht', heq, hout⟩ := h
    have hlinks := hclosed.links ht
    have hresolved : m.Resolved s m' i := ⟨t, t', written, ht, ht', heq, htracks⟩
    have hleaf : t.block? = none → ∀ j ∈ (Outline.node i os).preorder, m.Resolved s m' j := by
      intro hblock j hj
      have hos : os = [] := by
        cases t with
        | block b => cases hblock
        | yield y | update r v | assign x v => exact List.map_eq_nil_iff.1 hlinks
      rw [hos, Outline.preorder_eq, List.flatMap_nil, List.mem_singleton] at hj
      exact hj ▸ hresolved
    cases t with
    | block b =>
      have hnested : Runs m s (.read i) ([] ++ os.map Outline.index) (.done i) := by
        rw [hlinks]
        exact .nested hruns hi ht
      obtain ⟨hend, hall⟩ := MarkedAll.tracks hm hs os (fun o ho => hclosed.nested ho) hnested htracks hout
      rw [Outline.preorder_eq, List.forall_mem_cons]
      exact ⟨hend.congr fun r => hnested.updated_end, hresolved, hall⟩
    | update r v =>
      subst hout
      exact ⟨htracks.update ht, hleaf rfl⟩
    | yield y | assign x v =>
      subst hout
      exact ⟨htracks.skip ht rfl nofun, hleaf rfl⟩
theorem MarkedAll.tracks {m' : Module} (hm : m.WellFormed) (hs : m.schedule = .ok s) : (os : List Outline) →
    (∀ o ∈ os, m.Closed o) → ∀ {p q : Place} {stmts : List Nat} {written out : List String},
    Runs m s p (stmts ++ os.map Outline.index) q → m.Tracks s written (p.past stmts) → m.MarkedAll m' written os out →
    m.Tracks s out (p.past (stmts ++ os.map Outline.index)) ∧ ∀ j ∈ os.flatMap Outline.preorder, m.Resolved s m' j
  | [], _, p, q, stmts, written, out, _, htracks, h => by
    rw [List.map_nil, List.append_nil]
    exact ⟨h ▸ htracks, fun j hj => absurd hj List.not_mem_nil⟩
  | o :: os, hclosed, p, q, stmts, written, out, hruns, htracks, h => by
    obtain ⟨ho, hos⟩ := List.forall_mem_cons.1 hclosed
    obtain ⟨mid, hhead, htail⟩ := h
    have hread : m.Tracks s written (.read o.index) := htracks.congr fun r => hruns.updated_read hm hs
    obtain ⟨hmid, hresolved⟩ := Marked.tracks hm hs o ho hruns (by simp) hread hhead
    have hlist : stmts ++ (o :: os).map Outline.index = (stmts ++ [o.index]) ++ os.map Outline.index := by simp
    rw [hlist] at hruns ⊢
    obtain ⟨hend, hall⟩ := MarkedAll.tracks hm hs os hos hruns (by rw [Place.past_append_singleton]; exact hmid) htail
    rw [List.flatMap_cons, List.forall_mem_append]
    exact ⟨hend, hresolved, hall⟩
end

namespace Marking

/-- Statements marked along the flow: those in `js` are resolved, and all others stay as they are. -/
structure Follows (m : Module) (s : Schedule) (js : List Nat) (m₁ m₂ : Module) : Prop where
  alike : m.Alike m₂
  resolved : ∀ j ∈ js, m.Resolved s m₂ j
  other : ∀ j, j ∉ js → m₂.stmt j = m₁.stmt j

/-- A run from a module in which the statements in `js` are not yet marked resolves them, and gives a result as in `Q`. -/
def Resolves {α : Type} (m : Module) (s : Schedule) (js : List Nat) (Q : α → Prop) (x : Marking α) : Prop :=
  ∀ m₁ a m₂, m.Alike m₁ → (∀ j ∈ js, m.SameAt m₁ j) → x m₁ = .ok (a, m₂) → Q a ∧ Follows m s js m₁ m₂

namespace Resolves

variable {α β : Type} {js ks : List Nat} {Q : α → Prop} {Q' : β → Prop}

theorem pure {a : α} (ha : Q a) : Resolves m s [] Q (Pure.pure a) := by
  intro m₁ a' m₂ halike _ h
  obtain ⟨rfl, rfl⟩ := stateT_pure_eq_ok.1 h
  exact ⟨ha, halike, fun j hj => absurd hj List.not_mem_nil, fun _ _ => rfl⟩

theorem bind {x : Marking α} {f : α → Marking β} (hnodup : (js ++ ks).Nodup) (hx : Resolves m s js Q x)
    (hf : ∀ a, Q a → Resolves m s ks Q' (f a)) : Resolves m s (js ++ ks) Q' (x >>= f) := by
  have hdisj : ∀ j ∈ js, j ∉ ks := fun j hj hk => (List.nodup_append.1 hnodup).2.2 j hj j hk rfl
  intro m₁ b m₃ halike hsame h
  obtain ⟨a, m₂, hxs, hfs⟩ := stateT_bind_eq_ok.1 h
  obtain ⟨ha, hfirst⟩ := hx m₁ a m₂ halike (fun j hj => hsame j (List.mem_append_left _ hj)) hxs
  have hsame₂ : ∀ j ∈ ks, m.SameAt m₂ j := fun j hj =>
    (hsame j (List.mem_append_right _ hj)).trans (.of_eq (hfirst.other j fun hjs => hdisj j hjs hj))
  obtain ⟨hb, hsecond⟩ := hf a ha m₂ b m₃ hfirst.alike hsame₂ hfs
  refine ⟨hb, hsecond.alike, ?_, ?_⟩
  · intro j hj
    rcases List.mem_append.1 hj with hj | hj
    · obtain ⟨t, t', written, ht, ht', heq, htracks⟩ := hfirst.resolved j hj
      exact ⟨t, t', written, ht, (hsecond.other j (hdisj j hj)).trans ht', heq, htracks⟩
    · exact hsecond.resolved j hj
  · intro j hj
    rw [List.mem_append, not_or] at hj
    exact (hsecond.other j hj.2).trans (hfirst.other j hj.1)

theorem lift_bind {x : Checked α} {a : α} (hx : x = .ok a) {f : α → Marking β} (hf : Resolves m s ks Q' (f a)) :
    Resolves m s ks Q' ((liftM x : Marking α) >>= f) := by
  intro m₁ b m₂ halike hsame h
  obtain ⟨a', m', hlift, hfs⟩ := stateT_bind_eq_ok.1 h
  obtain ⟨hx', rfl⟩ := lift_eq_ok hlift
  cases hx.symm.trans hx'
  exact hf m' b m₂ halike hsame hfs

theorem perm {x : Marking α} (h : Resolves m s js Q x) (hperm : js.Perm ks) : Resolves m s ks Q x := by
  intro m₁ a m₂ halike hsame hx
  obtain ⟨ha, hfollows⟩ := h m₁ a m₂ halike (fun j hj => hsame j (hperm.subset hj)) hx
  exact ⟨ha, hfollows.alike, fun j hj => hfollows.resolved j (hperm.symm.subset hj),
    fun j hj => hfollows.other j fun hjs => hj (hperm.subset hjs)⟩

theorem imp {x : Marking α} {P : α → Prop} (h : Resolves m s js Q x) (hQ : ∀ a, Q a → P a) : Resolves m s js P x :=
  fun m₁ a m₂ halike hsame hx => (h m₁ a m₂ halike hsame hx).imp_left (hQ a)

end Resolves

/-- The expressions of one statement are marked as the flow has it. -/
theorem resolves_mark {written : List String} {i : Nat} {t : Stmt} (ht : m.stmt i = .ok t)
    (htracks : m.Tracks s written (.read i)) : Resolves m s [i] (fun _ => True) (mark written i) := by
  intro m₁ _ m₂ halike hsame h
  have halike₂ := halike.trans (kept_alike.mark written i m₁ _ m₂ h)
  refine ⟨trivial, halike₂, ?_, fun j hj => mark_other h (by simpa using hj)⟩
  intro j hj
  obtain rfl := List.mem_singleton.1 hj
  obtain ⟨t₂, ht₂, _⟩ := halike₂.stmt ht
  obtain ⟨t₁, ht₁, rfl⟩ := mark_self h ht₂
  obtain ⟨t₀, ht₀, hids⟩ := hsame j hj t₁ ht₁
  exact ⟨t₀, _, written, ht₀, ht₂, by rw [Stmt.setId_after, Stmt.setId_after, hids], htracks⟩

theorem resolves_markStmts (hm : m.WellFormed) (hs : m.schedule = .ok s) {p q : Place} {stmts : List Nat}
    (hruns : Runs m s p stmts q) (hnodup : (m.below stmts).Nodup) {written : List String}
    (htracks : m.Tracks s written p) :
    Resolves m s (m.below stmts) (fun out => m.Tracks s out q) (markStmts written stmts) := by
  intro m₁ out m₂ halike hsame h
  have halike₂ := halike.trans (keeps_markStmts kept_alike written stmts m₁ out m₂ h)
  obtain ⟨_, _, hget, hmark⟩ := stateT_bind_eq_ok.1 h
  cases hget
  rw [funext halike.outline] at hmark
  obtain ⟨hmarked, hother⟩ := markAll_marked (stmts.map m.outline) hnodup hsame hmark
  have hclosed : ∀ o ∈ stmts.map m.outline, m.Closed o := by
    intro o ho
    obtain ⟨i, hi, rfl⟩ := List.mem_map.1 ho
    exact hm.closed_outline (hruns.mem_tree hm hs hi)
  have hlist : Runs m s p ([] ++ (stmts.map m.outline).map Outline.index) q := by
    rw [map_index_outline]
    exact hruns
  obtain ⟨hend, hresolved⟩ := MarkedAll.tracks hm hs (stmts.map m.outline) hclosed hlist htracks hmarked
  rw [map_index_outline] at hend
  exact ⟨hend.congr fun r => hruns.updated_end, halike₂, hresolved, hother⟩

/-- The block of a segment is marked, if there is one. -/
theorem Resolves.block {α : Type} {ks : List Nat} {Q : α → Prop} {written : List String} {f : PUnit → Marking α}
    (hf : Resolves m s ks Q (f ⟨⟩)) : ∀ b : Option Nat, (b.toList ++ ks).Nodup →
    (∀ n, b = some n → (∃ t, m.stmt n = .ok t) ∧ m.Tracks s written (.read n)) →
    Resolves m s (b.toList ++ ks) Q (match b with
      | some n => mark written n >>= f
      | none => f ⟨⟩)
  | none, _, _ => hf
  | some n, hnodup, hb => by
    obtain ⟨⟨t, ht⟩, htracks⟩ := hb n rfl
    exact .bind hnodup (resolves_mark ht htracks) fun _ _ => hf

mutual
theorem resolves_visit (hm : m.WellFormed) (hs : m.schedule = .ok s) {s' : Schedule} (hs' : s.Alike s') :
    (o : Outline) → ∀ {parent : Option Nat}, Laid m s parent o → (s.holding m o).Nodup → ∀ {written : List String},
    m.Tracks s written (.enter o.index) →
    Resolves m s (s.holding m o) (fun out => m.Tracks s out (.leave o.index)) (visit s' written o)
  | .node u os, parent, hlaid, hnodup, written, htracks => by
    obtain ⟨seg, hseg, _, hchildren⟩ := hlaid.exists_segment
    obtain ⟨states, hseg'⟩ := hs'.segment hseg
    have hperm := run_order_perm m hseg os
    have hwhole := hperm.nodup_iff.2 hnodup
    have hblock := hwhole.of_append_right
    have hbody := hblock.of_append_right
    refine Resolves.perm (.lift_bind hseg' ?_) hperm
    refine .bind hwhole (resolves_markStmts hm hs (.prolog hseg) hwhole.of_append_left htracks) fun w hw => ?_
    have hconditions : ∀ n, seg.block = some n → (∃ t, m.stmt n = .ok t) ∧ m.Tracks s w (.read n) := by
      intro n hn
      obtain ⟨t, ht, _⟩ := hm.fits n (mem_tree_of_held hm hs hseg (Segment.block_mem_held hn))
      exact ⟨⟨t, ht⟩, hw.congr fun r => updated_block hm hs hseg hn⟩
    have hclose : ∀ {x : Marking (List String)},
        Resolves m s (m.below seg.stmts ++ os.flatMap (s.holding m)) (fun out => m.Tracks s out (.close u)) x →
        Resolves m s (m.below seg.stmts ++ os.flatMap (s.holding m) ++ m.below seg.epilog)
          (fun out => m.Tracks s out (.leave u)) (x >>= fun out => markStmts out seg.epilog) := fun hx =>
      .bind hbody hx fun out hout => resolves_markStmts hm hs (.epilog hseg) hbody.of_append_right hout
    have hnested : seg.kind ≠ .leaf → m.below seg.stmts = [] := by
      intro hkind
      rw [hlaid.stmts_eq_nil hseg hkind]
      rfl
    refine .block ?_ seg.block hblock hconditions
    cases hkind : seg.kind with
    | leaf =>
      have hos : os = [] := hlaid.eq_nil_of_leaf hseg hkind
      refine hclose ?_
      rw [hos, List.flatMap_nil, List.append_nil]
      exact resolves_markStmts hm hs (.leaf hseg hkind) hbody.of_append_left.of_append_left hw
    | seq =>
      refine hclose ?_
      rw [hnested (by simp [hkind]), List.nil_append]
      by_cases hos : os = []
      · subst hos
        exact .pure (hw.childless hseg (by simp [hkind]) hchildren)
      · have hsplit : seg.children = [] ++ os.map Outline.index := hchildren
        refine resolves_visitSeq hm hs hs' hseg hkind os hlaid.nested hbody.of_append_left.of_append_right hsplit hos
          fun o ho => ?_
        have hhead : seg.children.head? = some o.index := by simp [hchildren, ho]
        exact hw.enter hseg hm hs (List.mem_of_mem_head? hhead) (.inr ⟨hkind, hhead⟩)
    | mutex =>
      dsimp only
      split
      · rename_i hempty
        have hos : os = [] := List.isEmpty_iff.1 hempty
        refine hclose ?_
        rw [hnested (by simp [hkind]), List.nil_append]
        subst hos
        exact .pure (hw.childless hseg (by simp [hkind]) hchildren)
      · rename_i hempty
        refine hclose ?_
        rw [hnested (by simp [hkind]), List.nil_append]
        have hbranches := resolves_visitMutex hm hs hs' os hlaid.nested hbody.of_append_left.of_append_right fun o ho =>
          hw.enter hseg hm hs (c := o.index) (by rw [hchildren]; exact List.mem_map_of_mem ho) (.inl hkind)
        refine hbranches.imp fun out hout => ?_
        refine Tracks.join hseg hkind (by rw [hchildren]; simpa using hempty) fun r => ?_
        rw [hout r, hchildren]
        simp
theorem resolves_visitSeq (hm : m.WellFormed) (hs : m.schedule = .ok s) {s' : Schedule} (hs' : s.Alike s') {u : Nat}
    {seg : Segment} (hseg : s.segment u = .ok seg) (hkind : seg.kind = .seq) : (os : List Outline) →
    (∀ o ∈ os, Laid m s (some u) o) → (os.flatMap (s.holding m)).Nodup → ∀ {pre : List Nat},
    seg.children = pre ++ os.map Outline.index → os ≠ [] → ∀ {written : List String},
    (∀ o, os.head? = some o → m.Tracks s written (.enter o.index)) →
    Resolves m s (os.flatMap (s.holding m)) (fun out => m.Tracks s out (.close u)) (visitSeq s' written os)
  | [], _, _, _, _, hne, _, _ => absurd rfl hne
  | o :: os, hlaid, hnodup, pre, hchildren, _, written, htracks => by
    obtain ⟨ho, hos⟩ := List.forall_mem_cons.1 hlaid
    rw [List.flatMap_cons] at hnodup ⊢
    refine .bind hnodup (resolves_visit hm hs hs' o ho hnodup.of_append_left (htracks o rfl)) fun out hout => ?_
    split
    · rename_i hempty
      have hnil : os = [] := List.isEmpty_iff.1 hempty
      subst hnil
      exact .pure (hout.last hseg hkind (by simp [hchildren]))
    · rename_i hempty
      have hsplit : seg.children = (pre ++ [o.index]) ++ os.map Outline.index := by simp [hchildren]
      refine resolves_visitSeq hm hs hs' hseg hkind os hos hnodup.of_append_right hsplit (by simpa using hempty)
        fun o' ho' => ?_
      -- The segments after the first one are entered in a cycle of their own.
      refine Tracks.enter_later hseg hm hs hkind ?_
      have hmem : o'.index ∈ os.map Outline.index := List.mem_map_of_mem (List.mem_of_mem_head? ho')
      rw [hchildren]
      cases pre with
      | nil => exact hmem
      | cons c cs => exact List.mem_append_right _ (List.mem_cons_of_mem _ hmem)
theorem resolves_visitMutex (hm : m.WellFormed) (hs : m.schedule = .ok s) {s' : Schedule} (hs' : s.Alike s') :
    (os : List Outline) → ∀ {u : Nat}, (∀ o ∈ os, Laid m s (some u) o) → (os.flatMap (s.holding m)).Nodup →
    ∀ {written : List String}, (∀ o ∈ os, m.Tracks s written (.enter o.index)) →
    Resolves m s (os.flatMap (s.holding m)) (fun out => ∀ r, r ∈ out ↔ ∃ o ∈ os, Updated m s r (.leave o.index))
      (visitMutex s' written os)
  | [], _, _, _, _, _ => .pure (by simp)
  | o :: os, u, hlaid, hnodup, written, htracks => by
    obtain ⟨ho, hos⟩ := List.forall_mem_cons.1 hlaid
    obtain ⟨htop, hrest⟩ := List.forall_mem_cons.1 htracks
    rw [List.flatMap_cons] at hnodup ⊢
    refine .bind hnodup (resolves_visit hm hs hs' o ho hnodup.of_append_left htop) fun out hout => ?_
    rw [← List.append_nil (os.flatMap _)]
    refine .bind (by simpa using hnodup.of_append_right)
      (resolves_visitMutex hm hs hs' os hos hnodup.of_append_right hrest) fun rest hall => .pure fun r => ?_
    rw [List.mem_append, hout r, hall r]
    simp
end

end Marking

end Module

/-- The operand `o'` is `o`, but reads the new value if it is a register with an update. -/
structure Operand.Retimed (updated : String → Prop) (o o' : Operand) : Prop where
  name : o'.name = o.name
  storage : o'.storage = o.storage
  type : o'.type = o.type
  time : o'.time = .next ↔ o.time = .next ∨ o.storage = .register ∧ updated o.name

theorem Operand.retimed_afterWrites {updated : String → Prop} {written : List String}
    (h : ∀ r, r ∈ written ↔ updated r) (o : Operand) : Retimed updated o (o.afterWrites written) := by
  unfold afterWrites
  split
  · rename_i hcond
    exact ⟨rfl, rfl, rfl, iff_of_true rfl (.inr ⟨hcond.1, (h _).1 (by simpa using hcond.2.2)⟩)⟩
  · rename_i hcond
    refine ⟨rfl, rfl, rfl, (or_iff_left_of_imp ?_).symm⟩
    rintro ⟨hregister, hupdated⟩
    cases htime : o.time with
    | next => rfl
    | held => exact absurd ⟨hregister, htime, by simpa using (h _).2 hupdated⟩ hcond

namespace Module

theorem Resolved.retimed {m m' : Module} {s : Schedule} {i : Nat} (h : m.Resolved s m' i) {t : Stmt}
    (ht : m.stmt i = .ok t) : ∃ t' f, m'.stmt i = .ok t' ∧ t'.setId 0 = (t.mapExprs (Expr.mapOperands f)).setId 0 ∧
      ∀ o, Operand.Retimed (fun r => Updated m s r (.read i)) o (f o) := by
  obtain ⟨t₀, t', written, ht₀, ht', heq, htracks⟩ := h
  cases ht.symm.trans ht₀
  exact ⟨t', Operand.afterWrites written, ht', heq, Operand.retimed_afterWrites htracks⟩

theorem stage_eq_ok {m : Module} {s : Schedule} {st : Staged} (h : m.stage s = .ok st) :
    ∃ n, Numbering.run m s = .ok n ∧ n.module.markReads n.schedule = .ok st.module ∧ st.schedule = n.schedule := by
  obtain ⟨n, hn, h⟩ := bind_eq_ok.1 h
  obtain ⟨m', hm', h⟩ := bind_eq_ok.1 h
  cases h
  exact ⟨n, hn, hm', rfl⟩

/-- Staging changes nothing but statements. -/
theorem stage_stmts {m : Module} {s : Schedule} {st : Staged} (h : m.stage s = .ok st) :
    ∃ stmts, st.module = { m with stmts := stmts } := by
  have hnumber : Numbering.Kept fun n n' => ∃ stmts, n'.module = { n.module with stmts := stmts } := by
    refine ⟨fun n => ⟨_, rfl⟩, ?_, ?_, ?_, ?_⟩
    · rintro n n' n'' ⟨stmts, h⟩ ⟨stmts', h'⟩
      exact ⟨stmts', by rw [h', h]⟩
    · intro i n _ n' h
      obtain ⟨t, _, h⟩ := bind_eq_ok.1 h
      cases t with
      | block b | yield y =>
        obtain ⟨stmts, _, h⟩ := bind_eq_ok.1 h
        cases h
        exact ⟨stmts, rfl⟩
      | update r v | assign x v =>
        cases h
        exact ⟨_, rfl⟩
    · intro i states n _ n' h
      exact ⟨_, (Numbering.setStates_eq_ok h).2.1⟩
    · intro n _ n' h
      cases h
      exact ⟨_, rfl⟩
  have hmark : Marking.Kept fun m m' => ∃ stmts, m' = { m with stmts := stmts } := by
    refine ⟨fun m => ⟨_, rfl⟩, ?_, ?_⟩
    · rintro m m' m'' ⟨stmts, rfl⟩ ⟨stmts', rfl⟩
      exact ⟨stmts', rfl⟩
    · intro written i m _ m' h
      rcases Marking.mark_eq_ok h with rfl | ⟨_, stmts, _, _, rfl⟩
      · exact ⟨_, rfl⟩
      · exact ⟨stmts, rfl⟩
  obtain ⟨n, hn, hm', _⟩ := stage_eq_ok h
  obtain ⟨stmts, hmodule⟩ := Numbering.kept_run hnumber hn
  obtain ⟨stmts', hmodule'⟩ := Marking.kept_markReads hmark hm'
  exact ⟨stmts', by rw [hmodule', hmodule]⟩

/-- Staging resolves all statements of the tree, and leaves the others as they are. -/
theorem stage_resolved {m : Module} (hm : m.WellFormed) {s : Schedule} (hs : m.schedule = .ok s) {st : Staged}
    (h : m.stage s = .ok st) {i : Nat} {t : Stmt} (ht : m.stmt i = .ok t) : m.Resolved s st.module i := by
  have halike := (stage_consistent hm hs h).1
  obtain ⟨hlaid, hpre, _⟩ := schedule_laid hm hs
  obtain ⟨n, hn, hmark, _⟩ := stage_eq_ok h
  obtain ⟨hmodule, hschedule, _⟩ := Numbering.run_stated (hpre ▸ List.nodup_range) hn
  obtain ⟨⟨out, m'⟩, hvisit, hmark⟩ := bind_eq_ok.1 hmark
  obtain rfl : m' = st.module := Except.ok.inj hmark
  rw [hschedule.root, hschedule.outline] at hvisit
  have hindex := s.index_outline s.root
  have hstart : m.Tracks s [] (.enter (s.outline s.root).index) := by
    intro r
    rw [hindex]
    exact iff_of_false List.not_mem_nil (not_updated_root hm hs)
  have hfollows := (Marking.resolves_visit hm hs hschedule _ hlaid (holding_root_nodup hm hs) hstart n.module out _ hmodule
    (fun j _ => Numbering.run_same hn j) hvisit).2
  by_cases hi : i ∈ (m.outline m.root).preorder
  · exact hfollows.resolved i ((holding_root_perm hm hs).symm.subset hi)
  · have hother := hfollows.other i fun hmem => hi ((holding_root_perm hm hs).subset hmem)
    obtain ⟨t', ht', _⟩ := halike.stmt ht
    obtain ⟨t₀, ht₀, hids⟩ := Numbering.run_same hn i t' (hother ▸ ht')
    refine ⟨t₀, t', [], ht₀, ht', by rw [Stmt.after_nil, hids], fun r => ?_⟩
    exact iff_of_false List.not_mem_nil fun hupdated => hi (mem_tree_of_updated hm hs hupdated)

/-- A read sees the new value of a register if and only if it did so before or an update of the register flows into it.
Nothing else changes but ids and states. -/
theorem reads_marked_along_flow {d : Draft} {top : List Nat} {m : Module} (hm : d.finish top = .ok m) {s : Schedule}
    (hs : m.schedule = .ok s) : ∃ st, m.stage s = .ok st ∧ s.Alike st.schedule ∧
      st.module = { m with stmts := st.module.stmts } ∧ st.module.stmts.size = m.stmts.size ∧
      ∀ i t, m.stmt i = .ok t → ∃ t' f, st.module.stmt i = .ok t' ∧
        t'.setId 0 = (t.mapExprs (Expr.mapOperands f)).setId 0 ∧
        ∀ o, Operand.Retimed (fun r => Updated m s r (.read i)) o (f o) := by
  have hwf := wellFormed_of_finish hm
  obtain ⟨hlaid, hpre, _⟩ := schedule_laid hwf hs
  obtain ⟨st, hst⟩ := stage_succeeds hwf hs
  obtain ⟨n, hn, _, hschedule⟩ := stage_eq_ok hst
  obtain ⟨_, halike, _⟩ := Numbering.run_stated (hpre ▸ List.nodup_range) hn
  obtain ⟨stmts, hstmts⟩ := stage_stmts hst
  refine ⟨st, hst, hschedule ▸ halike, by rw [hstmts], (stage_consistent hwf hs hst).1.size, fun i t ht => ?_⟩
  exact (stage_resolved hwf hs hst ht).retimed ht

end Module

/-- The register `r` is updated before a conditional that reads it and emits it. After the conditional it is copied to
`q`, which is emitted in the next state. -/
def tally : Draft where
  name := "tally"
  registers := .ofList [("r", ⟨.uint 8, 0⟩), ("q", ⟨.uint 8, 0⟩)]
  vars := .empty
  inputs := []
  outputs := [⟨"dout", .uint 8⟩]
  stmts := .ofList [.update "r" (.literal 1 (.uint 8)), Draft.emit [some (.operand ⟨"r", .register, .held, .uint 8⟩)],
    Draft.conditional (.operand ⟨"r", .register, .held, .uint 8⟩) [1],
    .update "q" (.operand ⟨"r", .register, .held, .uint 8⟩),
    Draft.emit [some (.operand ⟨"q", .register, .held, .uint 8⟩)]]

/-- The copy reads the new value of `r`. The new value of `q` is not seen before the next state. -/
theorem tally_reads : tally.finish [0, 2, 3, 4] = .ok (tally.enclose [0, 2, 3, 4]) ∧
    ∃ s st, (tally.enclose [0, 2, 3, 4]).schedule = .ok s ∧ (tally.enclose [0, 2, 3, 4]).stage s = .ok st ∧
      st.module.stmt 3 = .ok (.update "q" (.operand ⟨"r", .register, .next, .uint 8⟩)) ∧
      Updated (tally.enclose [0, 2, 3, 4]) s "r" (.read 3) ∧
      ¬ Updated (tally.enclose [0, 2, 3, 4]) s "q" (.read 4) := by
  have hm : tally.finish [0, 2, 3, 4] = .ok (tally.enclose [0, 2, 3, 4]) := rfl
  have hfacts : ((tally.enclose [0, 2, 3, 4]).schedule.toOption.any fun s =>
      ((tally.enclose [0, 2, 3, 4]).stage s).toOption.any fun st => decide (
        st.module.stmt 3 = .ok (.update "q" (.operand ⟨"r", .register, .next, .uint 8⟩)) ∧
        st.module.stmt 4 = .ok (.yield ⟨[some (.operand ⟨"q", .register, .held, .uint 8⟩)], some 3⟩))) = true := by
    decide +kernel
  obtain ⟨s, hs, hfacts⟩ := Checked.exists_of_any hfacts
  obtain ⟨st, hst, _, _, _, hreads⟩ := Module.reads_marked_along_flow hm hs
  rw [hst] at hfacts
  obtain ⟨hcopy, hemit⟩ := of_decide_eq_true hfacts
  refine ⟨hm, s, st, hs, hst, hcopy, ?_, ?_⟩
  · obtain ⟨t', f, ht', heq, hf⟩ := hreads 3 (.update "q" (.operand ⟨"r", .register, .held, .uint 8⟩)) rfl
    cases hcopy.symm.trans ht'
    have hread : (⟨"r", .register, .next, .uint 8⟩ : Operand) = f ⟨"r", .register, .held, .uint 8⟩ := by
      simpa [Stmt.setId, Stmt.mapExprs, Expr.mapOperands, Expr.substitute] using heq
    have htime := (hf ⟨"r", .register, .held, .uint 8⟩).time
    rw [← hread] at htime
    simpa using htime
  · obtain ⟨t', f, ht', heq, hf⟩ := hreads 4 (Draft.emit [some (.operand ⟨"q", .register, .held, .uint 8⟩)]) rfl
    cases hemit.symm.trans ht'
    have hread : (⟨"q", .register, .held, .uint 8⟩ : Operand) = f ⟨"q", .register, .held, .uint 8⟩ := by
      simpa [Draft.emit, Stmt.setId, Stmt.mapExprs, Expr.mapOperands, Expr.substitute] using heq
    have htime := (hf ⟨"q", .register, .held, .uint 8⟩).time
    rw [← hread] at htime
    simpa using htime

end Sequencer
