import Sequencer.Proofs.Schedule.Plan

set_option autoImplicit false

/-!
# Layout of plans

A plan laid out as a schedule has its parts as segments, each before the parts below it, with links in both directions.
-/

namespace Sequencer

open Control

namespace Segment

/-- The statements of the block around a segment that the segment holds. -/
def spelled (seg : Segment) : List Nat :=
  match seg.kind with
  | .leaf => seg.prolog ++ seg.stmts ++ seg.epilog
  | _ => seg.prolog ++ seg.block.toList ++ seg.epilog

theorem spelled_of_block {seg : Segment} (hkind : seg.kind ≠ .leaf) {n : Nat} (hblock : seg.block = some n) :
    seg.spelled = seg.prolog ++ [n] ++ seg.epilog := by
  unfold spelled
  split
  · contradiction
  · rw [hblock, Option.toList_some]

end Segment

namespace Schedule

theorem index_outline (s : Schedule) (i : Nat) : (s.outline i).index = i := Arena.index_outlineTo _ _ _ _

theorem lt_size_of_segment {s : Schedule} {i : Nat} {seg : Segment} (h : s.segment i = .ok seg) : i < s.segments.size :=
  Arena.lt_size_of_get? ((Arena.get_eq_ok_iff _ _ _).1 h)

theorem mem_preorder_of_segment {s : Schedule} (hpre : (s.outline s.root).preorder = List.range s.segments.size) {i : Nat}
    {seg : Segment} (h : s.segment i = .ok seg) : i ∈ (s.outline s.root).preorder := by
  rw [hpre, List.mem_range]
  exact lt_size_of_segment h

theorem ne_leaf {k : SegmentKind} {p q : Prop} (h : k = .seq ∧ p ∨ k = .mutex ∧ q) : k ≠ .leaf := by
  rcases h with ⟨rfl, _⟩ | ⟨rfl, _⟩
  · simp
  · simp

/-- The segments below and at an outline are laid out for the module, and the top one has the given parent. -/
inductive Laid (m : Module) (s : Schedule) : Option Nat → Outline → Prop
  | leaf {parent : Option Nat} {i : Nat} {seg : Segment} (hseg : s.segment i = .ok seg) (hparent : seg.parent = parent)
    (hkind : seg.kind = .leaf) (hblock : seg.block = none) (hchildren : seg.children = []) (hprolog : seg.prolog = [])
    (hepilog : seg.epilog = []) (hstmts : m.SingleCycle seg.stmts) : Laid m s parent (.node i [])
  | block {parent : Option Nat} {i n : Nat} {b : Block} {seg : Segment} {os : List Outline} {segs : List Segment}
    (hseg : s.segment i = .ok seg) (hparent : seg.parent = parent) (hblock : seg.block = some n)
    (hstmt : m.stmt n = .ok (.block b)) (hchildren : seg.children = os.map Outline.index) (hstmts : seg.stmts = [])
    (hprolog : ∀ j ∈ seg.prolog, m.Free j) (hepilog : ∀ j ∈ seg.epilog, m.Free j)
    (hsegs : List.Forall₂ (fun o c => s.segment o.index = .ok c) os segs)
    (hkind : seg.kind = .seq ∧ b.kind ≠ .container ∨ seg.kind = .mutex ∧
      (b.kind = .container ∧ (∀ c ∈ segs, c.kind ≠ .leaf) ∨ b.kind = .conditional ∧ os.length ≤ 1))
    (hspelled : segs.flatMap Segment.spelled = b.stmts) (hos : ∀ o ∈ os, Laid m s (some i) o) :
    Laid m s parent (.node i os)

theorem Laid.parent {m : Module} {s : Schedule} {parent : Option Nat} {o : Outline} (h : Laid m s parent o) :
    ∃ seg, s.segment o.index = .ok seg ∧ seg.parent = parent := by
  cases h with
  | leaf hseg hparent => exact ⟨_, hseg, hparent⟩
  | block hseg hparent => exact ⟨_, hseg, hparent⟩

theorem Laid.nested {m : Module} {s : Schedule} {parent : Option Nat} {i : Nat} {os : List Outline}
    (h : Laid m s parent (.node i os)) : ∀ o ∈ os, Laid m s (some i) o := by
  cases h with
  | leaf => exact fun o ho => absurd ho List.not_mem_nil
  | block _ _ _ _ _ _ _ _ _ _ _ hos => exact hos

theorem Laid.eq_nil_of_leaf {m : Module} {s : Schedule} {parent : Option Nat} {i : Nat} {os : List Outline}
    (h : Laid m s parent (.node i os)) {seg : Segment} (hseg : s.segment i = .ok seg) (hkind : seg.kind = .leaf) :
    os = [] := by
  cases h with
  | leaf => rfl
  | block hseg' _ _ _ _ _ _ _ _ hkinds =>
    cases hseg.symm.trans hseg'
    exact absurd hkind (ne_leaf hkinds)

theorem Laid.stmts_eq_nil {m : Module} {s : Schedule} {parent : Option Nat} {o : Outline} (h : Laid m s parent o)
    {seg : Segment} (hseg : s.segment o.index = .ok seg) (hkind : seg.kind ≠ .leaf) : seg.stmts = [] := by
  cases h with
  | leaf hseg' _ hleaf =>
    cases hseg.symm.trans hseg'
    exact absurd hleaf hkind
  | block hseg' _ _ _ _ hstmts =>
    cases hseg.symm.trans hseg'
    exact hstmts

theorem Laid.unfolds {m : Module} {s : Schedule} {parent : Option Nat} {o : Outline} (h : Laid m s parent o) :
    o.Unfolds (s.segments.linksAt Segment.children) := by
  induction h with
  | leaf hseg _ _ _ hchildren =>
    refine .node ?_ (by simp)
    rw [segment, Arena.get_eq_ok_iff] at hseg
    rw [Arena.linksAt, hseg]
    exact hchildren
  | block hseg _ _ _ hchildren _ _ _ _ _ _ _ ih =>
    refine .node ?_ ih
    rw [segment, Arena.get_eq_ok_iff] at hseg
    rw [Arena.linksAt, hseg]
    exact hchildren

end Schedule

namespace Plan

mutual
/-- The outline of a plan whose top gets the index `start`. -/
def outlineFrom (start : Nat) : Plan → Outline
  | part _ _ _ _ _ cs => .node start (outlinesFrom (start + 1) cs)
def outlinesFrom (start : Nat) : List Plan → List Outline
  | [] => []
  | p :: ps => p.outlineFrom start :: outlinesFrom (start + p.size) ps
end

theorem index_outlineFrom (start : Nat) (p : Plan) : (p.outlineFrom start).index = start := by
  cases p
  rfl

theorem starts_eq (start : Nat) (ps : List Plan) : starts start ps = (outlinesFrom start ps).map Outline.index := by
  induction ps generalizing start with
  | nil => rfl
  | cons p ps ih => rw [starts, outlinesFrom, List.map_cons, index_outlineFrom, ih]

mutual
theorem preorder_outlineFrom : (p : Plan) → ∀ start, (p.outlineFrom start).preorder = List.range' start p.size
  | part _ _ _ _ _ cs, start => by
    rw [outlineFrom, Outline.preorder_eq, preorder_outlinesFrom cs, size, Nat.add_comm 1, List.range'_succ]
theorem preorder_outlinesFrom : (ps : List Plan) → ∀ start,
    (outlinesFrom start ps).flatMap Outline.preorder = List.range' start (sizes ps)
  | [], start => rfl
  | p :: ps, start => by
    rw [outlinesFrom, List.flatMap_cons, preorder_outlineFrom p, preorder_outlinesFrom ps, sizes,
      List.range'_append_1]
end

mutual
theorem length_segmentsFrom : (p : Plan) → ∀ parent start, (p.segmentsFrom parent start).length = p.size
  | part _ _ _ _ _ cs, parent, start => by
    rw [segmentsFrom, List.length_cons, length_segmentsAllFrom cs, size, Nat.add_comm]
theorem length_segmentsAllFrom : (ps : List Plan) → ∀ parent start,
    (segmentsAllFrom parent start ps).length = sizes ps
  | [], parent, start => rfl
  | p :: ps, parent, start => by
    rw [segmentsAllFrom, List.length_append, length_segmentsFrom p, length_segmentsAllFrom ps, sizes]
end

/-- What the segment at the top of a laid out plan says about the plan. -/
def Heads (seg : Segment) (p : Plan) : Prop := seg.spelled = p.spelled ∧ (seg.kind = .leaf ↔ p.isLeaf = true)

theorem spelled_of_heads {segs : List Segment} {ps : List Plan} (h : List.Forall₂ Heads segs ps) :
    segs.flatMap Segment.spelled = ps.flatMap spelled := by
  induction h with
  | nil => rfl
  | cons hhead _ ih => rw [List.flatMap_cons, List.flatMap_cons, hhead.1, ih]

theorem length_outlinesFrom (start : Nat) (ps : List Plan) : (outlinesFrom start ps).length = ps.length := by
  induction ps generalizing start with
  | nil => rfl
  | cons p ps ih => rw [outlinesFrom, List.length_cons, List.length_cons, ih]

theorem segment_at {pre post : List Segment} {seg : Segment} {root : Nat} :
    Schedule.segment ⟨.ofList (pre ++ seg :: post), root⟩ pre.length = .ok seg := by
  rw [Schedule.segment, Arena.get_eq_ok_iff]
  change (pre ++ seg :: post).toArray[pre.length]? = some seg
  simp

mutual
theorem laid_segmentsFrom {m : Module} : (p : Plan) → p.Sound m → ∀ (parent : Option Nat) (pre post : List Segment)
    (root : Nat), Schedule.Laid m ⟨.ofList (pre ++ p.segmentsFrom parent pre.length ++ post), root⟩ parent
      (p.outlineFrom pre.length) ∧
    ∃ seg, Schedule.segment ⟨.ofList (pre ++ p.segmentsFrom parent pre.length ++ post), root⟩ pre.length = .ok seg ∧
      Heads seg p
  | part k b q ss e cs, hsound, parent, pre, post, root => by
    cases hsound with
    | leaf hss =>
      rw [segmentsFrom, List.append_assoc, List.cons_append]
      exact ⟨.leaf segment_at rfl rfl rfl rfl rfl rfl hss, _, segment_at, rfl, by simp [isLeaf]⟩
    | @block _ n blk _ _ _ hstmt hkind hp he hspelled hcs =>
      obtain ⟨top, htop⟩ : ∃ top, top = Segment.mk k (some n) parent (starts (pre.length + 1) cs) [] [] q e := ⟨_, rfl⟩
      have hlist : pre ++ (part k (some n) q [] e cs).segmentsFrom parent pre.length ++ post =
          (pre ++ [top]) ++ segmentsAllFrom (some pre.length) (pre ++ [top]).length cs ++ post := by
        rw [segmentsFrom, htop]
        simp
      have hat : Schedule.segment ⟨.ofList ((pre ++ [top]) ++
          segmentsAllFrom (some pre.length) (pre ++ [top]).length cs ++ post), root⟩ pre.length = .ok top := by
        rw [List.append_assoc, List.append_assoc, List.singleton_append]
        exact segment_at
      obtain ⟨hlaid, segs, hsegs, hheads⟩ := laid_segmentsAllFrom cs hcs (some pre.length) (pre ++ [top]) post root
      rw [hlist]
      have houtline : outlinesFrom (pre ++ [top]).length cs = outlinesFrom (pre.length + 1) cs := by simp
      rw [houtline] at hlaid hsegs
      refine ⟨.block hat (by rw [htop]) (by rw [htop]) hstmt (by rw [htop]; exact starts_eq _ cs) (by rw [htop])
        (by rw [htop]; exact hp) (by rw [htop]; exact he) hsegs ?_ ((spelled_of_heads hheads).trans hspelled) hlaid,
        top, hat, ?_⟩
      · rw [htop]
        rcases hkind with ⟨hk, hne⟩ | ⟨hk, ⟨hcontainer, hleaf⟩ | ⟨hcond, hle⟩⟩
        · exact .inl ⟨hk, hne⟩
        · refine .inr ⟨hk, .inl ⟨hcontainer, ?_⟩⟩
          intro c hc hckind
          obtain ⟨p, hp, hhead⟩ := exists_of_mem_forall₂ hheads.flip hc
          exact absurd (hhead.2.1 hckind) (by simp [hleaf p hp])
        · exact .inr ⟨hk, .inr ⟨hcond, by rw [length_outlinesFrom]; exact hle⟩⟩
      · rw [htop]
        rcases hkind with ⟨rfl, _⟩ | ⟨rfl, _⟩
        · exact ⟨rfl, by simp [isLeaf]⟩
        · exact ⟨rfl, by simp [isLeaf]⟩
theorem laid_segmentsAllFrom {m : Module} : (ps : List Plan) → (∀ p ∈ ps, p.Sound m) → ∀ (parent : Option Nat)
    (pre post : List Segment) (root : Nat),
    (∀ o ∈ outlinesFrom pre.length ps,
      Schedule.Laid m ⟨.ofList (pre ++ segmentsAllFrom parent pre.length ps ++ post), root⟩ parent o) ∧
    ∃ segs, List.Forall₂ (fun o c => Schedule.segment
        ⟨.ofList (pre ++ segmentsAllFrom parent pre.length ps ++ post), root⟩ o.index = .ok c)
        (outlinesFrom pre.length ps) segs ∧ List.Forall₂ Heads segs ps
  | [], hsound, parent, pre, post, root => ⟨by simp [outlinesFrom], [], .nil, .nil⟩
  | p :: ps, hsound, parent, pre, post, root => by
    have hlist : pre ++ segmentsAllFrom parent pre.length (p :: ps) ++ post =
        pre ++ p.segmentsFrom parent pre.length ++ (segmentsAllFrom parent (pre.length + p.size) ps ++ post) := by
      rw [segmentsAllFrom]
      simp
    have hlist' : pre ++ segmentsAllFrom parent pre.length (p :: ps) ++ post =
        (pre ++ p.segmentsFrom parent pre.length) ++
          segmentsAllFrom parent (pre ++ p.segmentsFrom parent pre.length).length ps ++ post := by
      rw [segmentsAllFrom, List.length_append, length_segmentsFrom]
      simp
    have hlen : (pre ++ p.segmentsFrom parent pre.length).length = pre.length + p.size := by
      rw [List.length_append, length_segmentsFrom]
    obtain ⟨hlaid, seg, hseg, hhead⟩ := laid_segmentsFrom p (hsound p List.mem_cons_self) parent pre
      (segmentsAllFrom parent (pre.length + p.size) ps ++ post) root
    obtain ⟨hlaids, segs, hsegs, hheads⟩ := laid_segmentsAllFrom ps
      (fun q hq => hsound q (List.mem_cons_of_mem _ hq)) parent (pre ++ p.segmentsFrom parent pre.length) post root
    rw [← hlist] at hlaid hseg
    rw [← hlist', hlen] at hlaids hsegs
    refine ⟨?_, seg :: segs, .cons ?_ hsegs, .cons hhead hheads⟩
    · intro o ho
      rcases List.mem_cons.1 ho with rfl | ho
      · exact hlaid
      · exact hlaids o ho
    · rw [index_outlineFrom]
      exact hseg
end

theorem laid_flatten {m : Module} {p : Plan} (h : p.Sound m) :
    Schedule.Laid m p.flatten none (p.flatten.outline p.flatten.root) ∧
      (p.flatten.outline p.flatten.root).preorder = List.range p.size ∧ p.flatten.segments.size = p.size ∧
      ∃ seg, p.flatten.segment p.flatten.root = .ok seg ∧ Heads seg p := by
  have hlist : [] ++ p.segmentsFrom none 0 ++ [] = p.segmentsFrom none 0 := by simp
  obtain ⟨hlaid, seg, hseg, hhead⟩ := laid_segmentsFrom p h none [] [] 0
  rw [List.length_nil, hlist] at hlaid hseg
  have hsize : p.flatten.segments.size = p.size := by
    change (p.segmentsFrom none 0).toArray.size = p.size
    rw [List.size_toArray, length_segmentsFrom]
  have hpre : (p.outlineFrom 0).preorder = List.range p.size := by
    rw [preorder_outlineFrom, List.range_eq_range']
  have houtline : p.flatten.outline p.flatten.root = p.outlineFrom 0 := by
    have hindex : p.flatten.root = (p.outlineFrom 0).index := (index_outlineFrom 0 p).symm
    rw [hindex]
    refine Arena.outline_eq hlaid.unfolds ?_ ?_
    · intro j hj
      rw [hpre, List.mem_range] at hj
      omega
    · rw [hpre]
      exact List.nodup_range
  rw [houtline]
  exact ⟨hlaid, hpre, hsize, seg, hseg, hhead⟩

end Plan

namespace Module

/-- The schedule of a well-formed module is laid out for it, and its root segment stands for the root block alone. -/
theorem schedule_laid {m : Module} (hm : m.WellFormed) {s : Schedule} (h : m.schedule = .ok s) :
    Schedule.Laid m s none (s.outline s.root) ∧ (s.outline s.root).preorder = List.range s.segments.size ∧
      ∃ seg, s.segment s.root = .ok seg ∧ seg.spelled = [m.root] ∧ seg.block = some m.root := by
  rw [schedule, Checked.bind_eq_ok] at h
  obtain ⟨p, hp, h⟩ := h
  cases h
  obtain ⟨hsound, hleaf, hspelled⟩ := plan_sound hm hp
  obtain ⟨hlaid, hpre, hsize, seg, hseg, hhead⟩ := p.laid_flatten hsound
  refine ⟨hlaid, by rw [hsize]; exact hpre, seg, hseg, hhead.1.trans hspelled, ?_⟩
  have hindex := p.flatten.index_outline p.flatten.root
  have hkind : seg.kind ≠ .leaf := fun hk => absurd (hhead.2.1 hk) (by simp [hleaf])
  have hblock : ∃ n, seg.block = some n := by
    rw [← hindex] at hseg
    generalize p.flatten.outline p.flatten.root = o at hlaid hseg
    cases hlaid with
    | leaf hseg₀ _ hk =>
      cases hseg.symm.trans hseg₀
      exact absurd hk hkind
    | block hseg₀ _ hb =>
      cases hseg.symm.trans hseg₀
      exact ⟨_, hb⟩
  obtain ⟨n, hn⟩ := hblock
  have hroot := (Segment.spelled_of_block hkind hn).symm.trans (hhead.1.trans hspelled)
  cases hpro : seg.prolog with
  | nil =>
    rw [hpro, List.nil_append, List.singleton_append] at hroot
    rw [hn, (List.cons.inj hroot).1]
  | cons j js =>
    have hlen := congrArg List.length hroot
    rw [hpro] at hlen
    simp only [List.length_append, List.length_cons, List.length_nil] at hlen
    omega

end Module

end Sequencer
