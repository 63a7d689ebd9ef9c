import Sequencer.Proofs.Lowering.Transitions

set_option autoImplicit false

/-!
# Handing over

When a segment of a sequence is left in the state in which it was entered, the state changes to the first one of its
successor if and only if there is a segment that makes the change: itself, or one below it that is reached. A loop or an
interface of several states whose body is skipped as a whole has no such segment, and stays where it is.
-/

namespace Sequencer

open Control

/-- In the sequence at `p` the segment at `c` is followed by the one at `next`. -/
structure Schedule.Follows (s : Schedule) (p : Nat) (P : Segment) (c : Nat) (C : Segment) (next : Nat) (N : Segment) :
    Prop where
  outer : s.segment p = .ok P
  kind : P.kind = .seq
  segment : s.segment c = .ok C
  successor : s.segment next = .ok N
  adjacent : [c, next] <:+: P.children

namespace Lowering

open Lower Comb

variable {V : Type} (I : Interpretation V) (ρ : Valuation V)

/-- In the state `k`, with values for which all definitions of the table hold. -/
structure Running (ctx : Context) (k : Nat) : Prop extends Scheduled ctx where
  satisfied : ctx.table.Satisfied I ρ
  state : ctx.table.space.Holds I ρ k
  exclusive : ctx.module.Exclusive I ρ

/-- Inside a segment with the states `P`, leaving the segment at `i` changes the state: by itself, or through a segment
below it that is reached. -/
inductive Advances (ctx : Context) : List Nat → Nat → Prop
  | itself {P : List Nat} {i : Nat} {seg : Segment} (hseg : ctx.schedule.segment i = .ok seg) (h : Changes ctx seg P) :
    Advances ctx P i
  | inside {P : List Nat} {i c : Nat} {seg : Segment} (hseg : ctx.schedule.segment i = .ok seg)
    (hentered : ctx.schedule.Entered I ρ ctx.module i) (hc : c ∈ seg.children) (h : Advances ctx seg.states c) :
    Advances ctx P i

variable {I ρ} {ctx : Context} {k : Nat}

theorem advances_leaf_iff {i : Nat} {seg : Segment} {P : List Nat}
    (h : Schedule.LeafFits ctx.module ctx.schedule ctx.table.maxState i seg) :
    Advances I ρ ctx P i ↔ Changes ctx seg P := by
  constructor
  · intro hadv
    cases hadv with
    | itself hseg hchange =>
      cases h.segment.symm.trans hseg
      exact hchange
    | inside hseg _ hc =>
      cases h.segment.symm.trans hseg
      rw [h.children] at hc
      cases hc
  · exact .itself h.segment

theorem advances_block_iff {i n : Nat} {os : List Outline} {b : Control.Block} {seg : Segment} {segs : List Segment}
    {P : List Nat} (h : Schedule.BlockFits ctx.module ctx.schedule ctx.table.maxState i os n b seg segs) :
    Advances I ρ ctx P i ↔ Changes ctx seg P ∨
      ctx.schedule.Entered I ρ ctx.module i ∧ ∃ o ∈ os, Advances I ρ ctx seg.states o.index := by
  constructor
  · intro hadv
    cases hadv with
    | itself hseg hchange =>
      cases h.segment.symm.trans hseg
      exact .inl hchange
    | inside hseg hentered hc hadv =>
      cases h.segment.symm.trans hseg
      rw [h.children] at hc
      obtain ⟨o, ho, rfl⟩ := List.mem_map.1 hc
      exact .inr ⟨hentered, o, ho, hadv⟩
  · rintro (hchange | ⟨hentered, o, ho, hadv⟩)
    · exact .itself h.segment hchange
    · exact .inside h.segment hentered (h.children ▸ List.mem_map_of_mem ho) hadv

theorem Running.not_holds_exit {i : Nat} (hexit : ¬ctx.table.Exits I ρ i) {u : Timing} (hu : ctx.table.timing i = .ok u) :
    Cond.holds I ρ u.exit = false :=
  Bool.eq_false_iff.2 fun h => hexit ⟨u, hu, h⟩

/-- No transition out of a segment around `c` has a condition that holds. -/
theorem moved_around {c : Nat} (hexits : ∀ a, ctx.schedule.Around a c → ¬ctx.table.Exits I ρ a) {a : Nat}
    (ha : ctx.schedule.Around a c) {source steps : Nat} {trs : List Transition} {s s' : Session}
    (h : Runs ctx (transitionsFrom source steps a) s trs s') : moved I ρ trs = none := by
  induction steps generalizing a trs s s' with
  | zero =>
    rw [(runs_pure.1 h).1]
    rfl
  | succ steps ih =>
    obtain ⟨A, hA⟩ : ∃ A, ctx.schedule.segment a = .ok A := by
      obtain ⟨A, s₁, hsegment, _⟩ := runs_bind.1 h
      exact ⟨A, (runs_segment.1 hsegment).1⟩
    rcases transitionsFrom_cases hA h with ⟨_, rfl⟩ | ⟨p, P, hparent, hP, hrest⟩
    · rfl
    · have hp : ctx.schedule.Around p c := .head ⟨A, hA, hparent⟩ ha
      rcases hrest with ⟨_, hrest⟩ | ⟨_, u, hu, hrest⟩
      · exact ih hp hrest
      · have hfalse := Running.not_holds_exit (hexits a ha) hu
        rcases hrest with ⟨next, N, _, _, rfl⟩ | ⟨_, again, rest, s₁, s₂, hagain, hrest, rfl⟩
        · refine moved_eq_none I ρ fun tr htr => ?_
          obtain ⟨x, _, rfl⟩ := List.mem_map.1 htr
          exact hfalse
        · rw [moved_append, ih hp hrest, Option.none_or]
          refine moved_eq_none I ρ fun tr htr => ?_
          obtain ⟨x, _, rfl⟩ := hagain tr htr
          exact hfalse

section Chain

variable (hr : Running I ρ ctx k)

include hr

/-- A segment that is entered is not left in the current state if the segment inside it that is taken is not, or is not
the last one of its sequence. -/
theorem not_exits_parent {j p : Nat} {seg P : Segment} (hseg : ctx.schedule.segment j = .ok seg)
    (hparent : seg.parent = some p) (hk : k ∈ seg.states) (hP : ctx.schedule.segment p = .ok P)
    (hentered : ctx.schedule.Entered I ρ ctx.module p)
    (h : ¬ctx.table.Exits I ρ j ∨ P.kind = .seq ∧ P.children.getLast? ≠ some j) : ¬ctx.table.Exits I ρ p := by
  intro hexit
  obtain ⟨os, n, b, P', segs, hfits, hos, _, _, o, ho, rfl⟩ := hr.parent hseg hparent
  cases hP.symm.trans hfits.segment
  obtain ⟨c, hc, hoc⟩ := hfits.child ho
  cases hseg.symm.trans hoc
  have hmem : k ∈ P.states := hfits.states.sub seg hc k hk
  rcases hfits.kind with ⟨hseq, _⟩ | ⟨hmutex, _⟩
  · -- The last segment of the sequence is left too, and no other one has its states.
    obtain ⟨l, hl⟩ : ∃ l, os.getLast? = some l := by
      cases hlast : os.getLast? with
      | none =>
        rw [List.getLast?_eq_none_iff.1 hlast] at ho
        cases ho
      | some l => exact ⟨l, rfl⟩
    have hlmem := List.mem_of_getLast? hl
    obtain ⟨cl, hcl, hlc⟩ := hfits.child hlmem
    obtain ⟨hkl, hexitl⟩ := ConditionTable.exits_last hr.defines hr.satisfied hfits hentered hexit hr.state hmem hseq hl
      hlc ((hos l hlmem).states hlc)
    have hol := hfits.eq_of_state hseq ho hlmem hoc hlc hk hkl
    subst hol
    rcases h with h | ⟨_, hne⟩
    · exact h hexitl
    · exact hne (by rw [hfits.children, List.getLast?_map, hl, Option.map_some])
  · rcases h with h | ⟨hseq, _⟩
    · exact h (ConditionTable.exits_branch hr.defines hr.satisfied hfits hentered hexit hmutex ho)
    · rw [hmutex] at hseq
      cases hseq

/-- No segment around one that is not the last of its sequence is left. -/
theorem not_exits_around {j : Nat} {seg : Segment} (hseg : ctx.schedule.segment j = .ok seg) (hk : k ∈ seg.states)
    (hentered : ∀ a, ctx.schedule.Around a j → ctx.schedule.Entered I ρ ctx.module a) {p : Nat} {P : Segment}
    (hparent : seg.parent = some p) (hP : ctx.schedule.segment p = .ok P) (hkind : P.kind = .seq)
    (hlast : P.children.getLast? ≠ some j) :
    ∀ a, ctx.schedule.Around a j → (∃ A, ctx.schedule.segment a = .ok A ∧ k ∈ A.states) ∧ ¬ctx.table.Exits I ρ a := by
  intro a ha
  induction ha using Relation.TransGen.head_induction_on with
  | single hlink =>
    obtain ⟨seg', hseg', hparent'⟩ := hlink
    cases hseg.symm.trans hseg'
    cases hparent.symm.trans hparent'
    exact ⟨⟨P, hP, hr.mem_states_parent hseg hparent hk hP⟩,
      not_exits_parent hr hseg hparent hk hP (hentered p (.single ⟨seg, hseg, hparent⟩)) (.inr ⟨hkind, hlast⟩)⟩
  | head hlink hbetween ih =>
    obtain ⟨S, hS, ha⟩ := hlink
    obtain ⟨⟨S', hS', hkS⟩, hnot⟩ := ih
    cases hS.symm.trans hS'
    obtain ⟨os, n, b, A, segs, hfits, _⟩ := hr.parent hS ha
    exact ⟨⟨A, hfits.segment, hr.mem_states_parent hS ha hkS hfits.segment⟩,
      not_exits_parent hr hS ha hkS hfits.segment (hentered _ (.head ⟨S, hS, ha⟩ hbetween)) (.inl hnot)⟩

end Chain

section Moves

variable (I ρ ctx)

/-- The segments at and below the outline, inside a segment with the states `P`, change the state to `r`. -/
def Moves (P : List Nat) (o : Outline) (r : Option Nat) : Prop :=
  ∀ s ss s', (∃ g, s.aspect = .transitions g) → Runs ctx (lowerSegment (some P) o) s ss s' →
    Shifts I ρ ctx.table.space ss r

/-- In the state `k` the copies of the segment at `i`, inside a segment with the states `P`, change it to `c`. -/
structure Copied (k : Nat) (P : List Nat) (i : Nat) (seg : Segment) (c : Option Nat) : Prop where
  change : Changes ctx seg P → seg.firstState? = some k → ∀ trs s₁ s₂,
    Runs ctx (transitionsFrom k ctx.schedule.segments.size i) s₁ trs s₂ → moved I ρ trs = c
  stay : ¬Changes ctx seg P → c = none

variable {I ρ ctx}

theorem Copied.shifts {P : List Nat} {i : Nat} {seg : Segment} {c : Option Nat} (hc : Copied I ρ ctx k P i seg c)
    (hseg : ctx.schedule.segment i = .ok seg) (hne : seg.states ≠ [])
    (hnode : ∀ n, seg.block = some n → ∃ b, ctx.module.stmt n = .ok (.block b) ∧ b.kind ≠ .module) {s s' : Session}
    (hs : ∃ g, s.aspect = .transitions g) {copies : List Comb.Block}
    (h : Runs ctx (stateCopies i seg (some P)) s copies s') :
    ∃ c', Shifts I ρ ctx.table.space (copies.flatMap inlined) c' ∧ (seg.firstState? = some k → c' = c) := by
  obtain ⟨x, xs, hx⟩ := List.exists_cons_of_ne_nil hne
  have hfirst : seg.firstState? = some x := by rw [Segment.firstState?, hx, List.head?_cons]
  rcases shifts_stateCopies hs hseg hfirst hnode h with ⟨hstay, rfl⟩ | ⟨hchange, trs, s₁, s₂, htrs, _, hshifts⟩
  · exact ⟨none, .nil, fun _ => (hc.stay hstay).symm⟩
  · refine ⟨moved I ρ trs, hshifts I ρ, ?_⟩
    intro hk
    cases hfirst.symm.trans hk
    exact hc.change hchange hk trs s₁ s₂ htrs

variable (hwf : ctx.module.WellFormed) (hk : ctx.table.space.Holds I ρ k) {P : List Nat} (hP : k ∈ P)

include hwf hk hP

theorem moves_leaf {i : Nat} {seg : Segment} (h : Schedule.LeafFits ctx.module ctx.schedule ctx.table.maxState i seg)
    {c : Option Nat} (hc : Copied I ρ ctx k P i seg c) :
    Moves I ρ ctx P (.node i []) (if seg.firstState? = some k then c else none) := by
  intro s ss s' hs hss
  obtain ⟨copies, s₁, s₂, hs₁, hcopies, _, hleaf⟩ := shifts_leaf hwf hk hP hs h hss
  obtain ⟨c', hshifts, hc'⟩ := hc.shifts h.segment h.states.ne_nil (fun n hn => by rw [h.block] at hn; cases hn) hs₁ hcopies
  have hss' := hleaf c' hshifts
  by_cases hfirst : seg.firstState? = some k
  · rw [if_pos hfirst] at hss' ⊢
    rwa [hc' hfirst] at hss'
  · rw [if_neg hfirst] at hss' ⊢
    exact hss'

theorem moves_block {i n : Nat} {os : List Outline} {b : Control.Block} {seg : Segment} {segs : List Segment}
    (h : Schedule.BlockFits ctx.module ctx.schedule ctx.table.maxState i os n b seg segs) (hmodule : b.kind ≠ .module)
    {c q : Option Nat} (hc : Copied I ρ ctx k P i seg c)
    (hinner : ctx.schedule.Taken I ρ ctx.module k i → ∀ s ss s', (∃ g, s.aspect = .transitions g) →
      Runs ctx (lowerSegments seg.states os) s ss s' → Shifts I ρ ctx.table.space ss q)
    (houter : ¬ctx.schedule.Taken I ρ ctx.module k i → q = none) :
    Moves I ρ ctx P (.node i os) ((if seg.firstState? = some k then c else none).or q) := by
  intro s ss s' hs hss
  obtain ⟨r⟩ := runs_lowerSegment_block h.segment h.not_leaf h.block hss
  obtain ⟨hs₂, hs₃⟩ := r.transitions_inner hs
  have hnode : ∀ n', seg.block = some n' → ∃ b, ctx.module.stmt n' = .ok (.block b) ∧ b.kind ≠ .module := by
    intro n' hn
    cases h.block.symm.trans hn
    exact ⟨b, h.stmt, hmodule⟩
  obtain ⟨c', hshifts, hc'⟩ := hc.shifts h.segment h.states.ne_nil hnode hs₃ r.copies_runs
  have hss' := shifts_block hwf hk hP hs h hmodule r hshifts (fun ht => hinner ht _ _ _ hs₂ r.inner_runs) houter
  by_cases hfirst : seg.firstState? = some k
  · rw [if_pos hfirst] at hss' ⊢
    rwa [hc' hfirst] at hss'
  · rw [if_neg hfirst] at hss' ⊢
    exact hss'

/-- A segment that is not taken and whose copies do not change the state leaves it as it is. -/
theorem moves_aside {o : Outline} (h : ctx.schedule.Consistent ctx.module ctx.table.maxState o)
    (hparent : ∀ seg, ctx.schedule.segment o.index = .ok seg → seg.parent ≠ none ∧ Copied I ρ ctx k P o.index seg none)
    (huntaken : ¬ctx.schedule.Taken I ρ ctx.module k o.index) : Moves I ρ ctx P o none := by
  cases h with
  | leaf h =>
    have hmoves := moves_leaf hwf hk hP h (hparent _ h.segment).2
    rwa [ite_self] at hmoves
  | block h hos =>
    obtain ⟨hne, hcopied⟩ := hparent _ h.segment
    have hmoves := moves_block hwf hk hP h (fun hm => hne (h.module.1 hm)) hcopied (q := none)
      (fun ht => absurd ht huntaken) fun _ => rfl
    rwa [ite_self, Option.or_none] at hmoves

omit hwf hk hP in
/-- Segments that each change the state to `x` or not at all change it to `x` if one of them does. -/
theorem shifts_lowerSegments {x : Nat} {A : Outline → Prop} [DecidablePred A] {os : List Outline}
    (h : ∀ o ∈ os, Moves I ρ ctx P o (if A o then some x else none)) {s s' : Session}
    (hs : ∃ g, s.aspect = .transitions g) {ss : List Comb.Stmt} (hss : Runs ctx (lowerSegments P os) s ss s') :
    Shifts I ρ ctx.table.space ss (if ∃ o ∈ os, A o then some x else none) := by
  induction os generalizing s ss with
  | nil =>
    rw [(runs_pure.1 hss).1, if_neg (by simp)]
    exact .nil
  | cons o os ih =>
    obtain ⟨ts, us, s₁, hts, hus, rfl⟩ := runs_lowerSegments_cons hss
    have hs₁ := transitions_of_frame hs (Framed.lowerSegment _ _ _ _ _ _ rfl hts)
    have hhead := h o List.mem_cons_self s ts s₁ hs hts
    have htail := ih (fun o' ho' => h o' (List.mem_cons_of_mem _ ho')) hs₁ hus
    have happend := hhead.append htail
    simp only [List.mem_cons, exists_eq_or_imp]
    by_cases hrest : ∃ o' ∈ os, A o'
    · rw [if_pos hrest] at happend
      rwa [if_pos (.inr hrest)]
    · rw [if_neg hrest, Option.none_or] at happend
      simpa only [hrest, or_false] using happend

end Moves

section Below

variable (hr : Running I ρ ctx k)

include hr

/-- The only segment of a sequence that is entered and left in its first state. -/
theorem single_of_exits {i n : Nat} {os : List Outline} {b : Control.Block} {seg : Segment} {segs : List Segment}
    (h : Schedule.BlockFits ctx.module ctx.schedule ctx.table.maxState i os n b seg segs)
    (hos : ∀ o ∈ os, ctx.schedule.Consistent ctx.module ctx.table.maxState o) (hseq : seg.kind = .seq)
    (hfirst : seg.firstState? = some k) (hentered : ctx.schedule.Entered I ρ ctx.module i)
    (hexit : ctx.table.Exits I ρ i) : os = [] ∨ ∃ o, os = [o] ∧ ctx.table.Exits I ρ o.index := by
  cases os with
  | nil => exact .inl rfl
  | cons o rest =>
    have hmem : k ∈ seg.states := List.mem_of_head? hfirst
    have hlast : (o :: rest).getLast? = some ((o :: rest).getLast (List.cons_ne_nil o rest)) :=
      List.getLast?_eq_some_getLast _
    have hlmem := List.getLast_mem (List.cons_ne_nil o rest)
    obtain ⟨cl, hcl, hlc⟩ := h.child hlmem
    obtain ⟨hkl, hexitl⟩ := ConditionTable.exits_last hr.defines hr.satisfied h hentered hexit hr.state hmem hseq hlast
      hlc ((hos _ hlmem).states hlc)
    obtain ⟨c, hoc, hhead⟩ : ∃ c, ctx.schedule.segment o.index = .ok c ∧ segs.head? = some c := by
      obtain ⟨c, cs, hoc, _, rfl⟩ := List.forall₂_cons_left_iff.1 h.segments
      exact ⟨c, hoc, rfl⟩
    have hkc : k ∈ c.states := List.mem_of_head? ((h.states.head_eq c hhead).trans hfirst)
    cases hrest : rest with
    | nil =>
      subst hrest
      exact .inr ⟨o, rfl, hexitl⟩
    | cons o' rest' =>
      -- The first segment and the last one both have the state, which is that of one segment only.
      have hpair := h.pairwise_states (k := k) hseq
      rw [List.pairwise_cons] at hpair
      have hlrest : (o :: rest).getLast (List.cons_ne_nil o rest) ∈ rest := by
        rw [List.getLast_cons (by rw [hrest]; exact List.cons_ne_nil o' rest')]
        exact List.getLast_mem _
      exact absurd ⟨⟨c, hoc, hkc⟩, cl, hlc, hkl⟩ (hpair.1 _ hlrest)

omit hr in
open Classical in
theorem copied_of_leavesTo {i x : Nat} {cond : Cond} (hi : i < ctx.schedule.segments.size)
    (hleaves : LeavesTo ctx i x cond) (hcond : Cond.holds I ρ cond = true) (P : List Nat) (seg : Segment) :
    Copied I ρ ctx k P i seg (if Changes ctx seg P then some x else none) := by
  constructor
  · intro hchange _ trs s₁ s₂ htrs
    obtain ⟨earlier, rfl⟩ := hleaves k _ hi trs s₁ s₂ htrs
    rw [moved_append, moved, moved, Option.none_or, if_pos hcond, Option.some_or, if_pos hchange]
  · exact fun hstay => if_neg hstay

open Classical in
/-- A segment that is left in its first state changes it to where it leads to, if there is a segment that does. -/
theorem moves_below {o : Outline} (h : ctx.schedule.Consistent ctx.module ctx.table.maxState o)
    (hin : ∀ j ∈ o.preorder, j < ctx.schedule.segments.size) (hpre : o.preorder.Pairwise (· < ·)) {seg : Segment}
    (hseg : ctx.schedule.segment o.index = .ok seg) (hparent : seg.parent ≠ none) (hfirst : seg.firstState? = some k)
    (hexit : ctx.table.Exits I ρ o.index) {x : Nat} {cond : Cond} (hleaves : LeavesTo ctx o.index x cond)
    (hcond : Cond.holds I ρ cond = true) {P : List Nat} (hP : k ∈ P) :
    Moves I ρ ctx P o (if Advances I ρ ctx P o.index then some x else none) := by
  induction h generalizing seg P with
  | leaf h =>
    cases h.segment.symm.trans hseg
    have hmoves := moves_leaf hr.wellFormed hr.state hP h
      (copied_of_leavesTo (hin _ (Outline.index_mem_preorder _)) hleaves hcond P _)
    rw [if_pos hfirst] at hmoves
    simpa only [Outline.index, advances_leaf_iff h] using hmoves
  | @block i n b seg os segs h hos ih =>
    cases h.segment.symm.trans hseg
    have hmem : k ∈ seg.states := List.mem_of_head? hfirst
    have hchild : ∀ o ∈ os, ctx.schedule.Entered I ρ ctx.module i →
        Moves I ρ ctx seg.states o (if Advances I ρ ctx seg.states o.index then some x else none) := by
      intro o ho hentered
      obtain ⟨c, hc, hoc⟩ := h.child ho
      have hsub : o.preorder.Sublist (Outline.node i os).preorder := by
        rw [Outline.preorder_eq]
        exact (Outline.preorder_sublist_of_mem ho).trans (List.sublist_cons_self _ _)
      have hlt : i < o.index := by
        rw [Outline.preorder_eq, List.pairwise_cons] at hpre
        exact hpre.1 _ (List.mem_flatMap.2 ⟨o, ho, o.index_mem_preorder⟩)
      have hbelow : c.firstState? = some k ∧ ctx.table.Exits I ρ o.index ∧ LeavesTo ctx o.index x cond := by
        rcases h.kind with ⟨hseq, _⟩ | ⟨hmutex, _⟩
        · rcases single_of_exits hr h hos hseq hfirst hentered hexit with rfl | ⟨o', rfl, hexit'⟩
          · cases ho
          · cases List.mem_singleton.1 ho
            have hhead : segs.head? = some c := by
              obtain ⟨c', cs, hoc', hcs, rfl⟩ := List.forall₂_cons_left_iff.1 h.segments
              cases hoc.symm.trans hoc'
              rfl
            refine ⟨(h.states.head_eq c hhead).trans hfirst, hexit', ?_⟩
            refine hleaves.child hoc (h.parents c hc) hlt h.segment (.inr ?_)
            rw [h.children]
            simp [List.idxOf?_cons]
        · exact ⟨(h.states.first_eq hmutex c hc).trans hfirst,
            ConditionTable.exits_branch hr.defines hr.satisfied h hentered hexit hmutex ho,
            hleaves.child hoc (h.parents c hc) hlt h.segment (.inl hmutex)⟩
      exact ih o ho (fun j hj => hin j (hsub.subset hj)) (hpre.sublist hsub) hoc (by simp [h.parents c hc]) hbelow.1
        hbelow.2.1 hbelow.2.2 hmem
    have hmoves := moves_block hr.wellFormed hr.state hP h (fun hm => hparent (h.module.1 hm))
      (copied_of_leavesTo (hin _ (Outline.index_mem_preorder _)) hleaves hcond P seg)
      (q := if ctx.schedule.Entered I ρ ctx.module i ∧ ∃ o ∈ os, Advances I ρ ctx seg.states o.index then some x else none)
      ?_ ?_
    · rw [if_pos hfirst] at hmoves
      change Moves I ρ ctx P (.node i os) (if Advances I ρ ctx P i then some x else none)
      by_cases hchange : Changes ctx seg P
      · simpa [advances_block_iff h, hchange] using hmoves
      · simpa [advances_block_iff h, hchange] using hmoves
    · intro htaken s ss s' hs hss
      have hentered := (h.taken_iff.1 htaken).2
      simpa [hentered] using shifts_lowerSegments (fun o ho => hchild o ho hentered) hs hss
    · intro huntaken
      exact if_neg fun hq => huntaken (h.taken_iff.2 ⟨hmem, hq.1⟩)

end Below

section Around

variable {c : Nat}

variable (I ρ ctx k c) in
/-- The segments around the one at `c` are entered in the state `k` and not left. -/
def Held : Prop := ∀ a, ctx.schedule.Around a c → ctx.schedule.Entered I ρ ctx.module a ∧
  (∃ A, ctx.schedule.segment a = .ok A ∧ k ∈ A.states) ∧ ¬ctx.table.Exits I ρ a

variable (hr : Running I ρ ctx k) (hheld : Held I ρ ctx k c) {C : Segment} (hC : ctx.schedule.segment c = .ok C)
  (hk : k ∈ C.states) {p : Nat} {P : Segment} (hparent : C.parent = some p) (hP : ctx.schedule.segment p = .ok P)
  (hkind : P.kind = .seq) {r : Option Nat} {i n : Nat} {os : List Outline} {b : Control.Block} {seg : Segment}
  {segs : List Segment} (h : Schedule.BlockFits ctx.module ctx.schedule ctx.table.maxState i os n b seg segs)
  (hos : ∀ o ∈ os, ctx.schedule.Consistent ctx.module ctx.table.maxState o) {o : Outline} (ho : o ∈ os)
  (hc : c ∈ o.preorder) (hi : ctx.schedule.Around i c)

include hr hheld hC hk hparent hP hkind h hos ho hc hi

/-- Next to the segment that holds the one at `c`, no segment changes the state. -/
theorem moves_beside {o' : Outline} (ho' : o' ∈ os) (hne : o' ≠ o) : Moves I ρ ctx seg.states o' none := by
  obtain ⟨e, he, hoe⟩ := h.child ho
  obtain ⟨e', he', hoe'⟩ := h.child ho'
  obtain ⟨_, ⟨seg', hseg', hmem⟩, hexit⟩ := hheld i hi
  cases h.segment.symm.trans hseg'
  have hke : k ∈ e.states := by
    by_cases hoc : c = o.index
    · cases hC.symm.trans (hoc ▸ hoe)
      exact hk
    · obtain ⟨_, ⟨e₀, he₀, hke⟩, _⟩ := hheld o.index ((hos o ho).around hc hoc)
      cases hoe.symm.trans he₀
      exact hke
  refine moves_aside hr.wellFormed hr.state hmem (hos o' ho') ?_ ?_
  · intro S hS
    cases hoe'.symm.trans hS
    refine ⟨by simp [h.parents e' he'], ⟨?_, fun _ => rfl⟩⟩
    intro _ hfirst trs s₁ s₂ htrs
    rcases h.kind with ⟨hseq, _⟩ | ⟨hmutex, _⟩
    · exact absurd (h.eq_of_state hseq ho' ho hoe' hoe (List.mem_of_head? hfirst) hke) hne
    · obtain ⟨steps, hsteps⟩ : ∃ n, ctx.schedule.segments.size = n + 1 :=
        Nat.exists_eq_add_one_of_ne_zero (Nat.ne_zero_of_lt (Schedule.lt_size_of_segment hoe'))
      rw [hsteps] at htrs
      rcases transitionsFrom_cases hoe' htrs with ⟨hnone, _⟩ | ⟨i', seg', hi', hseg', hrest⟩
      · rw [h.parents e' he'] at hnone
        cases hnone
      · cases (h.parents e' he').symm.trans hi'
        cases h.segment.symm.trans hseg'
        rcases hrest with ⟨_, hrest⟩ | ⟨hnot, _⟩
        · exact moved_around (fun a ha => (hheld a ha).2.2) hi hrest
        · exact absurd hmutex hnot
  · intro htaken
    rcases h.kind with ⟨hseq, _⟩ | ⟨hmutex, _⟩
    · obtain ⟨⟨S, hS, hkS⟩, _⟩ := htaken
      exact hne (h.eq_of_state hseq ho' ho hS hoe hkS hke)
    · -- The branch around `c` is taken, so no other branch is.
      have hoc : c ≠ o.index := by
        intro hoc
        cases hC.symm.trans (hoc ▸ hoe)
        cases hparent.symm.trans (h.parents C he)
        cases hP.symm.trans h.segment
        rw [hkind] at hmutex
        cases hmutex
      have htaken' : ctx.schedule.Taken I ρ ctx.module k o.index :=
        ⟨⟨e, hoe, hke⟩, (hheld o.index ((hos o ho).around hc hoc)).1⟩
      exact hne (Schedule.eq_of_pairwise_not (h.pairwise_taken hr.exclusive hos) ho' ho htaken htaken')

open Classical in
theorem shifts_around (hmoves : Moves I ρ ctx seg.states o r) {s s' : Session}
    (hs : ∃ g, s.aspect = .transitions g) {ss : List Comb.Stmt} (hss : Runs ctx (lowerSegments seg.states os) s ss s') :
    Shifts I ρ ctx.table.space ss r := by
  have hbeside : ∀ o' ∈ os, o' ≠ o → Moves I ρ ctx seg.states o' none := fun o' ho' hne =>
    moves_beside hr hheld hC hk hparent hP hkind h hos ho hc hi ho' hne
  cases r with
  | none =>
    have hall : ∀ o' ∈ os, Moves I ρ ctx seg.states o' (if False then some 0 else none) := by
      intro o' ho'
      by_cases hne : o' = o
      · exact hne ▸ hmoves
      · exact hbeside o' ho' hne
    simpa using shifts_lowerSegments hall hs hss
  | some x =>
    have hall : ∀ o' ∈ os, Moves I ρ ctx seg.states o' (if o' = o then some x else none) := by
      intro o' ho'
      by_cases hne : o' = o
      · rw [if_pos hne, hne]
        exact hmoves
      · rw [if_neg hne]
        exact hbeside o' ho' hne
    simpa [ho] using shifts_lowerSegments hall hs hss

omit h hos ho hi hc in
/-- A segment around the one at `c` changes the state as that one does. -/
theorem moves_around (hbase : ∀ o, o.index = c → o.Part (ctx.schedule.outline ctx.schedule.root) →
      ctx.schedule.Consistent ctx.module ctx.table.maxState o → Moves I ρ ctx P.states o r)
    {o : Outline} (h : ctx.schedule.Consistent ctx.module ctx.table.maxState o) (hc : c ∈ o.preorder)
    (hpart : o.Part (ctx.schedule.outline ctx.schedule.root)) {seg : Segment}
    (hseg : ctx.schedule.segment o.index = .ok seg) (htop : seg.parent ≠ none) {Q : List Nat} (hQ : k ∈ Q)
    (hQc : o.index = c → Q = P.states) : Moves I ρ ctx Q o r := by
  induction h generalizing Q seg with
  | leaf h =>
    rw [Outline.preorder_eq, List.flatMap_nil, List.mem_singleton] at hc
    rw [hQc hc.symm]
    exact hbase _ hc.symm hpart (.leaf h)
  | @block i n b seg os segs h hos ih =>
    cases h.segment.symm.trans hseg
    by_cases hic : i = c
    · rw [hQc hic]
      exact hbase _ hic hpart (.block h hos)
    · have hi : ctx.schedule.Around i c := (Schedule.Consistent.block h hos).around hc fun hci => hic hci.symm
      rw [Outline.preorder_eq] at hc
      obtain ⟨o, ho, hc⟩ := List.mem_flatMap.1 ((List.mem_cons.1 hc).resolve_left fun hci => hic hci.symm)
      obtain ⟨e, he, hoe⟩ := h.child ho
      obtain ⟨hentered, ⟨seg', hseg', hmem⟩, _⟩ := hheld i hi
      cases h.segment.symm.trans hseg'
      have hmoves : Moves I ρ ctx seg.states o r := by
        refine ih o ho hc ((Outline.Part.nested ho (.refl o)).trans hpart) hoe (by simp [h.parents e he]) hmem ?_
        intro hoc
        cases hC.symm.trans (hoc ▸ hoe)
        cases hparent.symm.trans (h.parents C he)
        cases hP.symm.trans h.segment
        rfl
      have hcopied : Copied I ρ ctx k Q i seg none :=
        ⟨fun _ _ trs s₁ s₂ htrs => moved_around (fun a ha => (hheld a ha).2.2) hi htrs, fun _ => rfl⟩
      have hblock := moves_block hr.wellFormed hr.state hQ h (fun hm => htop (h.module.1 hm)) hcopied (q := r)
        (fun _ s ss s' hs hss =>
          shifts_around hr hheld hC hk hparent hP hkind h hos ho hc hi hmoves hs hss)
        fun hnot => absurd (h.taken_iff.2 ⟨hmem, hentered⟩) hnot
      rwa [ite_self, Option.none_or] at hblock

end Around

/-- Where a segment with a successor stands. -/
theorem Scheduled.follows (h : Scheduled ctx) {p c next : Nat} {P C N : Segment}
    (hf : ctx.schedule.Follows p P c C next N) :
    C.parent = some p ∧ P.children.Nodup ∧ (∃ pre post, P.children = pre ++ c :: next :: post) ∧
      P.children.getLast? ≠ some c ∧ ∀ x ∈ C.states, x ∈ P.states ∧ x ∉ N.states := by
  obtain ⟨os, n, b, segs, hfits, hpart⟩ := h.fits hf.outer (by simp [hf.kind])
  obtain ⟨pre, post, hchildren⟩ := hf.adjacent
  have hchildren' : P.children = pre ++ c :: next :: post := by rw [← hchildren]; simp
  have hsorted := h.pairwise_lt hpart
  have hnodup : P.children.Nodup := by
    rw [Outline.preorder_eq, List.pairwise_cons] at hsorted
    rw [hfits.children]
    exact (hsorted.2.sublist (Outline.map_index_sublist os)).imp Nat.ne_of_lt
  have hdistinct : c ∉ next :: post := by
    rw [hchildren'] at hnodup
    exact (List.nodup_cons.1 (List.nodup_append.1 hnodup).2.1).1
  have hmem : ∀ j ∈ [c, next], ∃ o ∈ os, o.index = j := by
    intro j hj
    have hj' : j ∈ P.children := hf.adjacent.subset hj
    rw [hfits.children] at hj'
    exact List.mem_map.1 hj'
  obtain ⟨o, ho, rfl⟩ := hmem c List.mem_cons_self
  obtain ⟨o', ho', rfl⟩ := hmem next (List.mem_cons_of_mem _ List.mem_cons_self)
  obtain ⟨e, he, hoe⟩ := hfits.child ho
  cases hoe.symm.trans hf.segment
  refine ⟨hfits.parents C he, hnodup, ⟨pre, post, hchildren'⟩, ?_, ?_⟩
  · intro hlast
    have hsplit : P.children = (pre ++ [o.index]) ++ (o'.index :: post) := by rw [hchildren']; simp
    rw [hsplit, List.getLast?_append, List.getLast?_eq_some_getLast (List.cons_ne_nil _ _), Option.some_or] at hlast
    exact hdistinct (Option.some.inj hlast ▸ List.getLast_mem _)
  · intro x hx
    refine ⟨hfits.states.sub C he x hx, ?_⟩
    intro hx'
    have hoo := hfits.eq_of_state hf.kind ho ho' hf.segment hf.successor hx hx'
    exact hdistinct (hoo ▸ List.mem_cons_self)

open Classical in
/-- What lowering the module does to the state when the segment at `c` is left in its first state. -/
theorem run_of_left (hr : Running I ρ ctx k) (hmax : ctx.table.maxState ≠ 0) {p c next x : Nat} {P C N : Segment}
    (hfollows : ctx.schedule.Follows p P c C next N) (hfirst : C.firstState? = some k) (hx : N.firstState? = some x)
    (hheld : Held I ρ ctx k c) (hexit : ctx.table.Exits I ρ c) {s s' : Session} {g : TransitionGraph}
    (hs : s.aspect = .transitions g) {tree : Comb.Block} (htree : Runs ctx lowerModule s tree s') :
    tree.run I (fun _ => ρ) (Name.enable Name.state) = some (I.bit (decide (Advances I ρ ctx P.states c))) ∧
      tree.run I (fun _ => ρ) (Name.nextValue Name.state) =
        if Advances I ρ ctx P.states c then some ((ctx.table.space.literal x).eval I ρ) else none := by
  obtain ⟨hparent, hnodup, ⟨pre, post, hchildren⟩, _, hstates⟩ := hr.follows hfollows
  have hkC : k ∈ C.states := List.mem_of_head? hfirst
  obtain ⟨u, hu, hholds⟩ := hexit
  have hleaves : LeavesTo ctx c x u.exit :=
    .of_successor hfollows.outer hfollows.kind hfollows.segment hfollows.successor hchildren hnodup hparent hx hu
  obtain ⟨os, n, b, seg, segs, houtline, hfits, hos, hmodule, htaken⟩ := hr.root_fits
  obtain ⟨ss, s₁, hss, _, rfl⟩ := lowerModule_cases htree
  rw [houtline] at hss
  obtain ⟨r⟩ := runs_lowerSegment_block hfits.segment hfits.not_leaf hfits.block hss
  have hpart : ∀ o ∈ os, o.Part (ctx.schedule.outline ctx.schedule.root) := by
    intro o ho
    rw [houtline]
    exact .nested ho (.refl o)
  have hroot : c ≠ ctx.schedule.root := by
    rintro rfl
    cases hfits.segment.symm.trans hfollows.segment
    rw [hfits.module.1 hmodule] at hparent
    cases hparent
  have hc : c ∈ (Outline.node ctx.schedule.root os).preorder := houtline ▸ hr.mem_preorder hfollows.segment
  have haround : ctx.schedule.Around ctx.schedule.root c := (Schedule.Consistent.block hfits hos).around hc hroot
  rw [Outline.preorder_eq] at hc
  obtain ⟨o, ho, hc⟩ := List.mem_flatMap.1 ((List.mem_cons.1 hc).resolve_left hroot)
  obtain ⟨e, he, hoe⟩ := hfits.child ho
  have hmoves : Moves I ρ ctx seg.states o (if Advances I ρ ctx P.states c then some x else none) := by
    refine moves_around hr hheld hfollows.segment hkC hparent hfollows.outer hfollows.kind ?_ (hos o ho) hc (hpart o ho) hoe
      (by simp [hfits.parents e he]) (hfits.taken_iff.1 (htaken I ρ k hr.state.le_max)).1 ?_
    · rintro o rfl hpart hconsistent
      have hlt : ∀ j ∈ o.preorder, j < ctx.schedule.segments.size := by
        intro j hj
        have hmem := hpart.sublist.subset hj
        rwa [hr.preorder, List.mem_range] at hmem
      exact moves_below hr hconsistent hlt (hr.pairwise_lt hpart) hfollows.segment (by simp [hparent]) hfirst ⟨u, hu, hholds⟩
        hleaves hholds (hstates k hkC).1
    · rintro rfl
      cases hoe.symm.trans hfollows.segment
      cases hparent.symm.trans (hfits.parents C he)
      cases hfits.segment.symm.trans hfollows.outer
      rfl
  have hshifts := shifts_around hr hheld hfollows.segment hkC hparent hfollows.outer hfollows.kind hfits hos ho hc haround
    hmoves (r.transitions_inner ⟨g, hs⟩).1 r.inner_runs
  obtain ⟨hen, hnext⟩ := run_of_shifts hr.wellFormed hr.state hmax hfits hmodule (htaken I ρ k hr.state.le_max) hs r hshifts
  refine ⟨hen.trans ?_, hnext.trans ?_⟩
  · split <;> simp [*]
  · split <;> rfl

/-- When a segment with a successor is left in the state in which it was entered, the state changes to the first one of
the successor if there is a segment that makes the change, and does not change otherwise. -/
theorem left_segment_hands_over {V : Type} (I : Interpretation V) (ρ : Valuation V) {d : Draft} {top : List Nat}
    {m : Module} (hm : d.finish top = .ok m) {schedule : Schedule} (hschedule : m.schedule = .ok schedule) {st : Staged}
    (hst : m.stage schedule = .ok st) {table : ConditionTable}
    (htable : ConditionTable.build st.module st.schedule st.maxState = .ok table) {s s' : Session} {tree : Comb.Block}
    (htree : runAspect ⟨st.module, st.schedule, table⟩ s (.freshTransitions st.maxState) = (.ok tree, s'))
    {p c next : Nat} {P C N : Segment} (hfollows : st.schedule.Follows p P c C next N) {k x : Nat}
    (hfirst : C.firstState? = some k) (hx : N.firstState? = some x) (hk : StateSpace.Holds I ρ ⟨st.maxState⟩ k)
    (hsat : table.Satisfied I ρ) (hentered : ∀ a, st.schedule.Around a c → st.schedule.Entered I ρ st.module a)
    (hex : st.module.Exclusive I ρ) (hexit : table.Exits I ρ c) :
    (Advances I ρ ⟨st.module, st.schedule, table⟩ P.states c →
      tree.run I (fun _ => ρ) (Name.enable Name.state) = some (I.bit true) ∧
        tree.run I (fun _ => ρ) (Name.nextValue Name.state) = some ((table.space.literal x).eval I ρ)) ∧
    (¬Advances I ρ ⟨st.module, st.schedule, table⟩ P.states c →
      tree.run I (fun _ => ρ) (Name.enable Name.state) = some (I.bit false) ∧
        tree.run I (fun _ => ρ) (Name.nextValue Name.state) = none) := by
  obtain ⟨hscheduled, _, hspace⟩ := scheduled_of_build hm hschedule hst htable
  have hr : Running I ρ ⟨st.module, st.schedule, table⟩ k := ⟨hscheduled, hsat, hspace ▸ hk, hex⟩
  obtain ⟨hparent, _, _, hlast, hstates⟩ := hscheduled.follows hfollows
  have hkC : k ∈ C.states := List.mem_of_head? hfirst
  have hmax : table.maxState ≠ 0 := by
    intro hzero
    obtain ⟨oN, hindex, _, hN⟩ := hscheduled.consistent.exists_part (hscheduled.mem_preorder hfollows.successor)
    have hxle := (hN.states (hindex ▸ hfollows.successor)).2.2 x (List.mem_of_head? hx)
    have hkle := hr.state.le_max
    have hxk : x = k := by
      change x ≤ table.maxState at hxle
      change k ≤ table.maxState at hkle
      omega
    exact (hstates k hkC).2 (hxk ▸ List.mem_of_head? hx)
  have hheld : Held I ρ ⟨st.module, st.schedule, table⟩ k c := fun a ha =>
    ⟨hentered a ha, not_exits_around hr hfollows.segment hkC hentered hparent hfollows.outer hfollows.kind hlast a ha⟩
  obtain ⟨hen, hnext⟩ := run_of_left hr hmax hfollows hfirst hx hheld hexit rfl htree
  constructor
  · intro hadv
    simp [hen, hnext, hadv]
  · intro hnot
    simp [hen, hnext, hnot]

/-- An interface that emits two values or none, and one more value after it. -/
def relay : Draft where
  name := "relay"
  registers := .empty
  vars := .empty
  inputs := [⟨"din", .bool⟩]
  outputs := [⟨"dout", .bool⟩]
  stmts := .ofList [Draft.emit [some (.flag "a")], Draft.emit [some (.flag "b")], Draft.conditional (.flag "g") [0, 1],
    Draft.interface "din" [2], Draft.emit [some (.flag "c")]]

def relayStaged : Staged where
  module := { relay.enclose [3, 4] with
    stmts := .ofList [.yield ⟨[some (.flag "a")], some 3⟩, .yield ⟨[some (.flag "b")], some 4⟩,
      .block ⟨.conditional, some (.flag "g"), [0, 1], some 2⟩,
      .block ⟨.interface "din", some (.flag "din.valid"), [2], some 1⟩, .yield ⟨[some (.flag "c")], some 5⟩,
      .block ⟨.module, none, [3, 4], some 0⟩] }
  schedule := ⟨.ofList [⟨.seq, some 5, none, [1, 5], [0, 1, 2], [], [], []⟩, ⟨.seq, some 3, some 0, [2], [0, 1], [], [], []⟩,
    ⟨.seq, some 2, some 1, [3, 4], [0, 1], [], [], []⟩, ⟨.leaf, none, some 2, [], [0], [0], [], []⟩,
    ⟨.leaf, none, some 2, [], [1], [1], [], []⟩, ⟨.leaf, none, some 0, [], [2], [4], [], []⟩], 0⟩
  maxState := 2

theorem relay_stage : ((relay.enclose [3, 4]).schedule >>= (relay.enclose [3, 4]).stage) = .ok relayStaged := by
  decide +kernel

open Valuation (allBut)

theorem relay_holds (names : List String) : StateSpace.Holds .integers (allBut names) ⟨relayStaged.maxState⟩ 0 := by
  refine ⟨by decide, ?_⟩
  intro s hs
  match s, hs with
  | 0, _ => rfl
  | 1, _ => rfl
  | 2, _ => rfl

theorem relay_exclusive (ρ : Valuation Int) : relayStaged.module.Exclusive .integers ρ :=
  Module.exclusive_of_no_container _ ρ (by decide)

/-- Whether the flags of the table agree with their definitions and the segment at `c` is left. -/
def relayLeft (ρ : Valuation Int) (c : Nat) (table : ConditionTable) : Bool :=
  (table.conds.entries.all fun e => (Expr.flag e.1).holds .integers ρ == Cond.holds .integers ρ e.2) &&
    (table.timing c).toOption.any fun u => Cond.holds .integers ρ u.exit

theorem relay_left {ρ : Valuation Int} {c : Nat} {table : ConditionTable} (h : relayLeft ρ c table = true) :
    table.Satisfied .integers ρ ∧ table.Exits .integers ρ c := by
  rw [relayLeft, Bool.and_eq_true, List.all_eq_true] at h
  obtain ⟨u, hu, hexit⟩ := Checked.exists_of_any h.2
  exact ⟨ConditionTable.satisfied_of_entries _ _ _ fun e he => eq_of_beq (h.1 e he), u, hu, hexit⟩

theorem relay_entered {ρ : Valuation Int} (hvalid : ρ.wire ⟨"din.valid", 1⟩ = 1) {i : Nat} (hi : i ∈ [0, 1]) :
    relayStaged.schedule.Entered .integers ρ relayStaged.module i := by
  intro seg n hseg hn
  simp only [List.mem_cons, List.not_mem_nil, or_false] at hi
  rcases hi with rfl | rfl
  · cases hseg
    cases hn
    exact ⟨_, rfl, rfl⟩
  · cases hseg
    cases hn
    refine ⟨_, rfl, ?_⟩
    simp [Cond.holds, Expr.holds, hvalid, Interpretation.integers]

/-- The first value is followed by the second one. -/
theorem relay_emits_both : ∃ schedule table tree s', (relay.enclose [3, 4]).schedule = .ok schedule ∧
    (relay.enclose [3, 4]).stage schedule = .ok relayStaged ∧
    ConditionTable.build relayStaged.module relayStaged.schedule 2 = .ok table ∧
    runAspect ⟨relayStaged.module, relayStaged.schedule, table⟩ (.start .outputs) (.freshTransitions 2) = (.ok tree, s') ∧
    tree.run .integers (fun _ => allBut ["exit_cond_block_0", "exit_cond_block_1", "exit_cond_block_2"]) "state_en" =
      some 1 ∧
    tree.run .integers (fun _ => allBut ["exit_cond_block_0", "exit_cond_block_1", "exit_cond_block_2"]) "state_next" =
      some 1 := by
  obtain ⟨schedule, hschedule, hst⟩ := Checked.bind_eq_ok.1 relay_stage
  have hfacts : ((ConditionTable.build relayStaged.module relayStaged.schedule 2).toOption.any fun table =>
      relayLeft (allBut ["exit_cond_block_0", "exit_cond_block_1", "exit_cond_block_2"]) 3 table &&
        (runAspect ⟨relayStaged.module, relayStaged.schedule, table⟩ (.start .outputs) (.freshTransitions 2)).1.toOption.isSome) =
      true := by
    decide +kernel
  obtain ⟨table, htable, hfacts⟩ := Checked.exists_of_any hfacts
  obtain ⟨hleft, hok⟩ := Bool.and_eq_true_iff.1 hfacts
  obtain ⟨hsat, hexit⟩ := relay_left hleft
  obtain ⟨tree, htree⟩ := Checked.exists_ok hok
  have htree : runAspect ⟨relayStaged.module, relayStaged.schedule, table⟩ (.start .outputs) (.freshTransitions 2) =
      (.ok tree, _) := Prod.ext htree rfl
  have hspace : table.space = ⟨2⟩ := (ConditionTable.named_build htable).1
  have hm : relay.finish [3, 4] = .ok (relay.enclose [3, 4]) := rfl
  have hfollows : relayStaged.schedule.Follows 2 ⟨.seq, some 2, some 1, [3, 4], [0, 1], [], [], []⟩ 3
      ⟨.leaf, none, some 2, [], [0], [0], [], []⟩ 4 ⟨.leaf, none, some 2, [], [1], [1], [], []⟩ :=
    ⟨rfl, rfl, rfl, rfl, List.infix_refl _⟩
  have haround : ∀ a, relayStaged.schedule.Around a 3 → relayStaged.schedule.Entered .integers
      (allBut ["exit_cond_block_0", "exit_cond_block_1", "exit_cond_block_2"]) relayStaged.module a := by
    refine (Schedule.around_iff rfl rfl).2 ⟨?_, (Schedule.around_iff rfl rfl).2 ⟨relay_entered rfl (by simp),
      (Schedule.around_iff rfl rfl).2 ⟨relay_entered rfl (by simp), ?_⟩⟩⟩
    · intro seg n hseg hn
      cases hseg
      cases hn
      exact ⟨_, rfl, rfl⟩
    · exact fun a ha => absurd ha (Schedule.not_around_root rfl rfl a)
  have hchanges : Changes ⟨relayStaged.module, relayStaged.schedule, table⟩ ⟨.leaf, none, some 2, [], [0], [0], [], []⟩
      [0, 1] := by
    refine ⟨?_, rfl, .inl rfl⟩
    simp [ConditionTable.maxState, hspace]
  obtain ⟨hen, hnext⟩ := (left_segment_hands_over .integers
    (allBut ["exit_cond_block_0", "exit_cond_block_1", "exit_cond_block_2"]) hm hschedule hst htable htree hfollows rfl rfl
    (relay_holds _) hsat haround (relay_exclusive _) hexit).1 (.itself rfl hchanges)
  exact ⟨schedule, table, tree, _, hschedule, hst, htable, htree, hen, hnext⟩

/-- The interface is left in the state in which it was entered, and the state does not change. -/
theorem relay_skipped_stays : ∃ schedule table tree s', relay.finish [3, 4] = .ok (relay.enclose [3, 4]) ∧
    (relay.enclose [3, 4]).schedule = .ok schedule ∧ (relay.enclose [3, 4]).stage schedule = .ok relayStaged ∧
    ConditionTable.build relayStaged.module relayStaged.schedule 2 = .ok table ∧
    runAspect ⟨relayStaged.module, relayStaged.schedule, table⟩ (.start .outputs) (.freshTransitions 2) = (.ok tree, s') ∧
    (∃ P C N, relayStaged.schedule.Follows 0 P 1 C 5 N ∧ C.firstState? = some 0) ∧
    StateSpace.Holds .integers (allBut ["exit_cond_block_0", "g"]) ⟨2⟩ 0 ∧
    table.Satisfied .integers (allBut ["exit_cond_block_0", "g"]) ∧
    (∀ a, relayStaged.schedule.Around a 1 →
      relayStaged.schedule.Entered .integers (allBut ["exit_cond_block_0", "g"]) relayStaged.module a) ∧
    relayStaged.module.Exclusive .integers (allBut ["exit_cond_block_0", "g"]) ∧
    table.Exits .integers (allBut ["exit_cond_block_0", "g"]) 1 ∧
    tree.run .integers (fun _ => allBut ["exit_cond_block_0", "g"]) "state_en" = some 0 := by
  obtain ⟨schedule, hschedule, hst⟩ := Checked.bind_eq_ok.1 relay_stage
  have hfacts : ((ConditionTable.build relayStaged.module relayStaged.schedule 2).toOption.any fun table =>
      relayLeft (allBut ["exit_cond_block_0", "g"]) 1 table &&
        (runAspect ⟨relayStaged.module, relayStaged.schedule, table⟩ (.start .outputs)
          (.freshTransitions 2)).1.toOption.any fun tree =>
            tree.run .integers (fun _ => allBut ["exit_cond_block_0", "g"]) "state_en" == some 0) = true := by
    decide +kernel
  obtain ⟨table, htable, hfacts⟩ := Checked.exists_of_any hfacts
  obtain ⟨hleft, hok⟩ := Bool.and_eq_true_iff.1 hfacts
  obtain ⟨hsat, hexit⟩ := relay_left hleft
  obtain ⟨tree, htree, hen⟩ := Checked.exists_of_any hok
  refine ⟨schedule, table, tree, _, rfl, hschedule, hst, htable, Prod.ext htree rfl, ?_, relay_holds _, hsat, ?_,
    relay_exclusive _, hexit, eq_of_beq hen⟩
  · exact ⟨⟨.seq, some 5, none, [1, 5], [0, 1, 2], [], [], []⟩, ⟨.seq, some 3, some 0, [2], [0, 1], [], [], []⟩,
      ⟨.leaf, none, some 0, [], [2], [4], [], []⟩, ⟨rfl, rfl, rfl, rfl, List.infix_refl _⟩, rfl⟩
  · exact (Schedule.around_iff rfl rfl).2 ⟨relay_entered rfl (by simp),
      fun a ha => absurd ha (Schedule.not_around_root rfl rfl a)⟩

end Lowering

end Sequencer
