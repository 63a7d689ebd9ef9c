import Sequencer.Condition.Table
import Sequencer.Proofs.Listing
import Sequencer.Proofs.Name
import Sequencer.Proofs.Schedule.Ids

set_option autoImplicit false

/-!
# The table of conditions

The conditions of every block that has a segment are defined once, from the final references to the segments below it.
-/

namespace Sequencer

open Control

namespace ConditionTable

theorem defineSegment_leaf {inp : Input} {d d' : Draft} {i : Nat} {seg : Segment} (hkind : seg.kind = .leaf)
    (h : defineSegment inp d i seg = .ok d') :
    ∃ ys ts t, yields inp.module seg.stmts = .ok ys ∧ defineYields inp.module d.defs ys = .ok (d'.defs, ts) ∧
      Timing.all ts = .ok t ∧ d.refs.set i t = .ok d'.refs := by
  rw [defineSegment, hkind] at h
  obtain ⟨ys, hys, h⟩ := Checked.bind_eq_ok.1 h
  obtain ⟨⟨defs, ts⟩, hdefs, h⟩ := Checked.bind_eq_ok.1 h
  obtain ⟨t, ht, h⟩ := Checked.bind_eq_ok.1 h
  obtain ⟨refs, hrefs, h⟩ := Checked.bind_eq_ok.1 h
  cases h
  exact ⟨ys, ts, t, hys, hdefs, ht, hrefs⟩

theorem defineSegment_block {inp : Input} {d d' : Draft} {i : Nat} {seg : Segment} (hkind : seg.kind ≠ .leaf)
    (h : defineSegment inp d i seg = .ok d') :
    ∃ n b id body t, seg.block = some n ∧ inp.module.block? n = .ok (some b) ∧ b.id = some id ∧
      (if seg.kind = .seq then seqTiming inp d seg else mutexTiming d seg) = .ok body ∧ Timing.wrap b body = .ok t ∧
      d'.defs = define id t d.defs ∧ d.refs.set i (.ofBlock id) = .ok d'.refs := by
  rw [defineSegment] at h
  split at h
  · rename_i hleaf
    exact absurd hleaf hkind
  · cases hn : seg.block with
    | none =>
      rw [hn] at h
      exact absurd h (Checked.reject_ne_ok _ _)
    | some n =>
      rw [hn] at h
      obtain ⟨blk, hblk, h⟩ := Checked.bind_eq_ok.1 h
      cases blk with
      | none =>
        obtain ⟨_, _, h⟩ := Checked.bind_eq_ok.1 h
        exact absurd h (Checked.reject_ne_ok _ _)
      | some b =>
        dsimp only at h
        cases hid : b.id with
        | none =>
          rw [hid] at h
          exact absurd h (Checked.reject_ne_ok _ _)
        | some id =>
          rw [hid] at h
          dsimp only at h
          have hbody : ∃ body, (if seg.kind = .seq then seqTiming inp d seg else mutexTiming d seg) = .ok body ∧ (do
              let t ← Timing.wrap b body
              return ⟨define id t d.defs, ← d.refs.set i (.ofBlock id)⟩) = (.ok d' : Checked Draft) := by
            split at h
            · rename_i hseq
              rw [if_pos hseq]
              exact Checked.bind_eq_ok.1 h
            · rename_i hseq
              rw [if_neg hseq]
              exact Checked.bind_eq_ok.1 h
          obtain ⟨body, hbody, h⟩ := hbody
          obtain ⟨t, ht, h⟩ := Checked.bind_eq_ok.1 h
          obtain ⟨refs, hrefs, h⟩ := Checked.bind_eq_ok.1 h
          cases h
          exact ⟨n, b, id, body, t, rfl, hblk, hid, hbody, ht, rfl, hrefs⟩

/-- Segments with a block are referred to by the names of its conditions, once they are defined. -/
def Named (s : Schedule) (refs : Arena Timing) : Prop :=
  ∀ i seg t, s.segment i = .ok seg → seg.kind ≠ .leaf → refs.get i = .ok t → t = .always ∨ ∃ id, t = .ofBlock id

theorem Named.set {s : Schedule} {refs refs' : Arena Timing} (h : Named s refs) {i : Nat} {seg : Segment} {t : Timing}
    (hseg : s.segment i = .ok seg) (ht : seg.kind ≠ .leaf → ∃ id, t = .ofBlock id) (hset : refs.set i t = .ok refs') :
    Named s refs' := by
  intro j seg' t' hseg' hkind ht'
  obtain ⟨_, hget⟩ := Arena.set_eq_ok hset
  rw [Arena.get_eq_ok_iff, hget j] at ht'
  split at ht'
  · rename_i hji
    subst hji
    cases hseg.symm.trans hseg'
    cases ht'
    exact .inr (ht hkind)
  · exact h j seg' t' hseg' hkind ((Arena.get_eq_ok_iff _ _ _).2 ht')

theorem Named.defineSegment {inp : Input} {d d' : Draft} (hd : Named inp.schedule d.refs) {i : Nat} {seg : Segment}
    (hseg : inp.schedule.segment i = .ok seg) (h : defineSegment inp d i seg = .ok d') : Named inp.schedule d'.refs := by
  by_cases hkind : seg.kind = .leaf
  · obtain ⟨ys, ts, t, _, _, _, hset⟩ := defineSegment_leaf hkind h
    exact hd.set hseg (fun hne => absurd hkind hne) hset
  · obtain ⟨n, b, id, body, t, _, _, _, _, _, _, hset⟩ := defineSegment_block hkind h
    exact hd.set hseg (fun _ => ⟨id, rfl⟩) hset

mutual
theorem Named.buildAt {inp : Input} : (o : Outline) → ∀ {d d' : Draft}, Named inp.schedule d.refs →
    buildAt inp d o = .ok d' → Named inp.schedule d'.refs
  | .node i os, d, d', hd, h => by
    rw [ConditionTable.buildAt, Checked.bind_eq_ok] at h
    obtain ⟨seg, hseg, h⟩ := h
    obtain ⟨d₁, hos, h⟩ := Checked.bind_eq_ok.1 h
    exact (Named.buildAll os hd hos).defineSegment hseg h
theorem Named.buildAll {inp : Input} : (os : List Outline) → ∀ {d d' : Draft}, Named inp.schedule d.refs →
    buildAll inp d os = .ok d' → Named inp.schedule d'.refs
  | [], d, d', hd, h => by
    cases h
    exact hd
  | o :: os, d, d', hd, h => by
    rw [ConditionTable.buildAll, Checked.bind_eq_ok] at h
    obtain ⟨d₁, ho, h⟩ := h
    exact Named.buildAll os (Named.buildAt o hd ho) h
end

theorem named_build {m : Module} {s : Schedule} {maxState : Nat} {t : ConditionTable} (h : build m s maxState = .ok t) :
    t.space = ⟨maxState⟩ ∧ Named s t.refs := by
  obtain ⟨d, hd, h⟩ := Checked.bind_eq_ok.1 h
  obtain ⟨root, _, h⟩ := Checked.bind_eq_ok.1 h
  cases h
  have hstart : Named s ⟨Array.replicate s.segments.size .always⟩ := by
    intro i seg t _ _ ht
    rw [Arena.get_eq_ok_iff] at ht
    have ht : (Array.replicate s.segments.size Timing.always)[i]? = some t := ht
    rw [Array.getElem?_replicate] at ht
    split at ht
    · exact .inl (Option.some.inj ht).symm
    · cases ht
  exact ⟨rfl, Named.buildAt _ hstart hd⟩

theorem mem_define_self (id : Nat) (t : Timing) (d : Defs) : (id, t) ∈ define id t d := by
  induction d with
  | nil => exact List.mem_singleton.2 rfl
  | cons e d ih =>
    rw [define]
    split
    · exact List.mem_cons_self
    · split
      · exact List.mem_cons_self
      · exact List.mem_cons_of_mem _ ih

theorem mem_define_of_ne {id : Nat} {t : Timing} {d : Defs} {e : Nat × Timing} (he : e ∈ d) (hne : e.1 ≠ id) :
    e ∈ define id t d := by
  induction d with
  | nil => cases he
  | cons x d ih =>
    rw [define]
    split
    · rename_i hid
      rcases List.mem_cons.1 he with rfl | he
      · exact absurd hid.symm hne
      · exact List.mem_cons_of_mem _ he
    · split
      · exact List.mem_cons_of_mem _ he
      · rcases List.mem_cons.1 he with rfl | he
        · exact List.mem_cons_self
        · exact List.mem_cons_of_mem _ (ih he)

theorem mem_of_mem_define {id : Nat} {t : Timing} {d : Defs} {e : Nat × Timing} (h : e ∈ define id t d) :
    e = (id, t) ∨ e ∈ d := by
  induction d with
  | nil => exact .inl (List.mem_singleton.1 h)
  | cons x d ih =>
    rw [define] at h
    split at h
    · rcases List.mem_cons.1 h with rfl | h
      · exact .inl rfl
      · exact .inr (List.mem_cons_of_mem _ h)
    · split at h
      · exact List.mem_cons.1 h
      · rcases List.mem_cons.1 h with rfl | h
        · exact .inr List.mem_cons_self
        · rcases ih h with h | h
          · exact .inl h
          · exact .inr (List.mem_cons_of_mem _ h)

/-- Definitions stand in the order of their ids. -/
def Sorted (d : Defs) : Prop := d.Pairwise fun e e' => e.1 < e'.1

theorem Sorted.define {d : Defs} (h : Sorted d) (id : Nat) (t : Timing) : Sorted (define id t d) := by
  induction d with
  | nil => exact List.pairwise_singleton _ _
  | cons e d ih =>
    obtain ⟨hlt, hd⟩ := List.pairwise_cons.1 h
    rw [ConditionTable.define]
    split
    · rename_i hid
      exact List.pairwise_cons.2 ⟨fun x hx => hid ▸ hlt x hx, hd⟩
    · split
      · rename_i hid
        refine List.pairwise_cons.2 ⟨?_, h⟩
        exact List.forall_mem_cons.2 ⟨hid, fun x hx => Nat.lt_trans hid (hlt x hx)⟩
      · refine List.pairwise_cons.2 ⟨?_, ih hd⟩
        intro x hx
        rcases mem_of_mem_define hx with rfl | hx
        · show e.1 < id
          omega
        · exact hlt x hx

theorem defineYields_frame {m : Module} {ys : List Yield} {d d' : Defs} {ts : List Timing}
    (h : defineYields m d ys = .ok (d', ts)) :
    (Sorted d → Sorted d') ∧ ∀ e ∈ d, (∀ y ∈ ys, y.id ≠ some e.1) → e ∈ d' := by
  induction ys generalizing d ts with
  | nil =>
    cases h
    exact ⟨id, fun e he _ => he⟩
  | cons y ys ih =>
    rw [defineYields] at h
    cases hid : y.id with
    | none =>
      rw [hid] at h
      exact absurd h (Checked.reject_ne_ok _ _)
    | some n =>
      rw [hid] at h
      obtain ⟨t, _, h⟩ := Checked.bind_eq_ok.1 h
      obtain ⟨⟨d₁, ts₁⟩, hrest, h⟩ := Checked.bind_eq_ok.1 h
      cases h
      obtain ⟨hsorted, hmem⟩ := ih hrest
      refine ⟨fun hd => hsorted (hd.define n t), ?_⟩
      intro e he hne
      obtain ⟨hy, hys⟩ := List.forall_mem_cons.1 hne
      refine hmem e (mem_define_of_ne he ?_) hys
      intro hen
      exact hy (by rw [hid, hen])

theorem exists_of_mem_yields {m : Module} {stmts : List Nat} {ys : List Yield} (h : yields m stmts = .ok ys) {y : Yield}
    (hy : y ∈ ys) : ∃ j ∈ stmts, m.stmt j = .ok (.yield y) := by
  obtain ⟨ss, hss, h⟩ := Checked.bind_eq_ok.1 h
  cases h
  obtain ⟨s, hs, hsy⟩ := List.mem_filterMap.1 hy
  obtain ⟨j, hj, hjs⟩ := exists_of_mem_forall₂ (Checked.mapM_eq_ok hss) hs
  cases s with
  | yield y' =>
    cases hsy
    exact ⟨j, hj, hjs⟩
  | block b => cases hsy
  | update r v => cases hsy
  | assign x v => cases hsy

section Build

variable {inp : Input} {S : Nat → Prop}

/-- Between the drafts nothing has changed but the references to the segments `js` and the definitions for the blocks
`ns` and for yields. -/
structure Frames (inp : Input) (S : Nat → Prop) (js ns : List Nat) (d d' : Draft) : Prop where
  sorted : Sorted d.defs → Sorted d'.defs
  refs : ∀ j, j ∉ js → d'.refs.get j = d.refs.get j
  defs : ∀ n b id t, S n → inp.module.stmt n = .ok (.block b) → b.id = some id → n ∉ ns → (id, t) ∈ d.defs →
    (id, t) ∈ d'.defs

theorem Frames.refl (d : Draft) : Frames inp S [] [] d d := ⟨id, fun _ _ => rfl, fun _ _ _ _ _ _ _ _ h => h⟩

theorem Frames.trans {js js' ns ns' : List Nat} {d d' d'' : Draft} (h : Frames inp S js ns d d')
    (h' : Frames inp S js' ns' d' d'') : Frames inp S (js ++ js') (ns ++ ns') d d'' := by
  refine ⟨fun hd => h'.sorted (h.sorted hd), ?_, ?_⟩
  · intro j hj
    rw [List.mem_append, not_or] at hj
    exact (h'.refs j hj.2).trans (h.refs j hj.1)
  · intro n b id t hS hstmt hid hn hmem
    rw [List.mem_append, not_or] at hn
    exact h'.defs n b id t hS hstmt hid hn.2 (h.defs n b id t hS hstmt hid hn.1 hmem)

theorem Frames.weaken {js js' ns ns' : List Nat} {d d' : Draft} (h : Frames inp S js ns d d') (hjs : ∀ j ∈ js, j ∈ js')
    (hns : ∀ n ∈ ns, n ∈ ns') : Frames inp S js' ns' d d' :=
  ⟨h.sorted, fun j hj => h.refs j fun hmem => hj (hjs j hmem),
    fun n b id t hS hstmt hid hn => h.defs n b id t hS hstmt hid fun hmem => hn (hns n hmem)⟩

theorem get_set_of_ne {refs refs' : Arena Timing} {i : Nat} {t : Timing} (h : refs.set i t = .ok refs') {j : Nat}
    (hj : j ≠ i) : refs'.get j = refs.get j := by
  obtain ⟨hsize, hget⟩ := Arena.set_eq_ok h
  exact Arena.get_congr hsize (by rw [hget j, if_neg hj])

theorem get_set_self {refs refs' : Arena Timing} {i : Nat} {t : Timing} (h : refs.set i t = .ok refs') :
    refs'.get i = .ok t := by
  rw [Arena.get_eq_ok_iff, (Arena.set_eq_ok h).2 i, if_pos rfl]

variable (hids : inp.module.DistinctIds S)

include hids

theorem frames_defineSegment {d d' : Draft} {i : Nat} {seg : Segment} (hS : ∀ j ∈ seg.numbered, S j)
    (h : defineSegment inp d i seg = .ok d') : Frames inp S [i] seg.block.toList d d' := by
  by_cases hkind : seg.kind = .leaf
  · obtain ⟨ys, ts, t, hys, hdefs, _, hset⟩ := defineSegment_leaf hkind h
    obtain ⟨hsorted, hmem⟩ := defineYields_frame hdefs
    refine ⟨hsorted, fun j hj => get_set_of_ne hset (by simpa using hj), ?_⟩
    intro n b id u hn hstmt hid _ hu
    refine hmem _ hu ?_
    intro y hy hyid
    obtain ⟨j, hj, hstmt'⟩ := exists_of_mem_yields hys hy
    have hjn : j = n := hids j n _ _ id (hS j (by simp [Segment.numbered, hkind, hj])) hn hstmt' hstmt hyid hid
    rw [hjn, hstmt] at hstmt'
    cases hstmt'
  · obtain ⟨n, b, id, body, t, hblock, hb, hid, _, _, hdefs, hset⟩ := defineSegment_block hkind h
    obtain ⟨st, hst, hstb⟩ := Checked.map_eq_ok.1 hb
    cases st with
    | block b' =>
      cases hstb
      refine ⟨fun hd => hdefs ▸ hd.define id t, fun j hj => get_set_of_ne hset (by simpa using hj), ?_⟩
      intro n' b'' id' u hn' hstmt' hid' hnot hu
      rw [hdefs]
      refine mem_define_of_ne hu ?_
      rintro rfl
      refine hnot ?_
      rw [hids n' n _ _ _ hn' (hS n (by simp [Segment.numbered, hblock])) hstmt' hst hid' hid, hblock]
      simp
    | yield y => cases hstb
    | update r v => cases hstb
    | assign x v => cases hstb

mutual
theorem frames_buildAt : (o : Outline) → ∀ {d d' : Draft}, (∀ j, inp.schedule.Numbers o j → S j) →
    buildAt inp d o = .ok d' → Frames inp S o.preorder (inp.schedule.blocks o) d d'
  | .node i os, d, d', hS, h => by
    rw [buildAt, Checked.bind_eq_ok] at h
    obtain ⟨seg, hseg, h⟩ := h
    obtain ⟨d₁, hos, h⟩ := Checked.bind_eq_ok.1 h
    have hnumbers : ∀ j, inp.schedule.Numbers (.node i os) j ↔ _ := fun j => Schedule.numbers_node hseg
    have hall := frames_buildAll os (fun o ho j hj => hS j ((hnumbers j).2 (.inr ⟨o, ho, hj⟩))) hos
    refine (hall.trans (frames_defineSegment hids (fun j hj => hS j ((hnumbers j).2 (.inl hj))) h)).weaken ?_ ?_
    · rw [Outline.preorder_eq]
      intro j hj
      rcases List.mem_append.1 hj with hj | hj
      · exact List.mem_cons_of_mem _ hj
      · exact List.mem_singleton.1 hj ▸ List.mem_cons_self
    · rw [Schedule.blocks_node hseg]
      intro n hn
      exact List.mem_append.2 (List.mem_append.1 hn).symm
theorem frames_buildAll : (os : List Outline) → ∀ {d d' : Draft}, (∀ o ∈ os, ∀ j, inp.schedule.Numbers o j → S j) →
    buildAll inp d os = .ok d' → Frames inp S (os.flatMap Outline.preorder) (os.flatMap inp.schedule.blocks) d d'
  | [], d, d', _, h => by
    cases h
    exact .refl d
  | o :: os, d, d', hS, h => by
    rw [buildAll, Checked.bind_eq_ok] at h
    obtain ⟨d₁, ho, h⟩ := h
    obtain ⟨hSo, hSos⟩ := List.forall_mem_cons.1 hS
    exact (frames_buildAt o hSo ho).trans (frames_buildAll os hSos h)
end

omit hids in
theorem seqTiming_congr {d d' : Draft} {seg : Segment} (h : ∀ c ∈ seg.children, d'.refs.get c = d.refs.get c) :
    seqTiming inp d' seg = seqTiming inp d seg := by
  unfold seqTiming
  cases hlast : seg.children.getLast? with
  | none => rfl
  | some last =>
    dsimp only
    rw [h last (List.mem_of_getLast? hlast)]
    refine congrArg (· >>= _) (Checked.mapM_congr ?_)
    intro c hc
    rw [h c hc]

omit hids in
theorem mutexTiming_congr {d d' : Draft} {seg : Segment} (h : ∀ c ∈ seg.children, d'.refs.get c = d.refs.get c) :
    mutexTiming d' seg = mutexTiming d seg := by
  rw [mutexTiming, mutexTiming, Checked.mapM_congr h]

/-- The timing of a segment inside its block. -/
def bodyTiming (inp : Input) (d : Draft) (seg : Segment) : Checked Timing :=
  if seg.kind = .seq then seqTiming inp d seg else mutexTiming d seg

/-- The segment at `i` is referred to by the conditions of its block, which are defined from the references to the
segments below it. -/
structure Defined (inp : Input) (d : Draft) (i : Nat) (seg : Segment) (n : Nat) (b : Block) (id : Nat)
    (inner t : Timing) : Prop where
  segment : inp.schedule.segment i = .ok seg
  block : seg.block = some n
  stmt : inp.module.stmt n = .ok (.block b)
  id_eq : b.id = some id
  body : bodyTiming inp d seg = .ok inner
  wrap : Timing.wrap b inner = .ok t
  mem : (id, t) ∈ d.defs
  refs : d.refs.get i = .ok (.ofBlock id)

omit hids in
theorem Defined.frame {d d' : Draft} {i n id : Nat} {seg : Segment} {b : Block} {inner t : Timing} {js ns : List Nat}
    (h : Defined inp d i seg n b id inner t) (hf : Frames inp S js ns d d') (hS : S n) (hi : i ∉ js)
    (hchildren : ∀ c ∈ seg.children, c ∉ js) (hn : n ∉ ns) : Defined inp d' i seg n b id inner t where
  segment := h.segment
  block := h.block
  stmt := h.stmt
  id_eq := h.id_eq
  body := by
    have hrefs : ∀ c ∈ seg.children, d'.refs.get c = d.refs.get c := fun c hc => hf.refs c (hchildren c hc)
    rw [← h.body, bodyTiming, bodyTiming, seqTiming_congr hrefs, mutexTiming_congr hrefs]
  wrap := h.wrap
  mem := hf.defs n b id t hS h.stmt h.id_eq hn h.mem
  refs := (hf.refs i hi).trans h.refs

/-- The conditions of all blocks at and below the outline are defined. -/
def Built (inp : Input) (d : Draft) (o : Outline) : Prop :=
  ∀ i ∈ o.preorder, ∀ seg, inp.schedule.segment i = .ok seg → seg.kind ≠ .leaf →
    ∃ n b id inner t, Defined inp d i seg n b id inner t

omit hids in
theorem Built.frame {maxState : Nat} {o : Outline} (hcons : Schedule.Consistent inp.module inp.schedule maxState o)
    {d d' : Draft} {js ns : List Nat} (h : Built inp d o) (hf : Frames inp S js ns d d')
    (hS : ∀ j, inp.schedule.Numbers o j → S j) (hjs : ∀ j ∈ o.preorder, j ∉ js)
    (hns : ∀ n ∈ inp.schedule.blocks o, n ∉ ns) : Built inp d' o := by
  intro i hi seg hseg hkind
  obtain ⟨n, b, id, inner, t, hdef⟩ := h i hi seg hseg hkind
  have hn : n ∈ inp.schedule.blocks o :=
    List.mem_filterMap.2 ⟨i, hi, by rw [hseg]; exact hdef.block⟩
  refine ⟨n, b, id, inner, t, hdef.frame hf (hS n ⟨i, hi, seg, hseg, ?_⟩) (hjs i hi) ?_ (hns n hn)⟩
  · simp [Segment.numbered, hdef.block]
  · exact fun c hc => hjs c (hcons.child_mem hi hseg hkind hc)

/-- The conditions of a block are defined from those of what is nested in it, which stay defined. -/
theorem built_defineSegment {maxState i n : Nat} {os : List Outline} {b : Block} {seg : Segment} {segs : List Segment}
    (h : Schedule.BlockFits inp.module inp.schedule maxState i os n b seg segs)
    (hos : ∀ o ∈ os, Schedule.Consistent inp.module inp.schedule maxState o)
    (hnodup : (Outline.node i os).preorder.Nodup) (hblocks : (inp.schedule.blocks (.node i os)).Nodup)
    (hS : ∀ j, inp.schedule.Numbers (.node i os) j → S j) {d d' : Draft} (hbuilt : ∀ o ∈ os, Built inp d o)
    (hdef : defineSegment inp d i seg = .ok d') : Built inp d' (.node i os) := by
  have hnumbers : ∀ j, inp.schedule.Numbers (.node i os) j ↔ _ := fun j => Schedule.numbers_node h.segment
  have hframes := frames_defineSegment hids (fun j hj => hS j ((hnumbers j).2 (.inl hj))) hdef
  rw [Outline.preorder_eq, List.nodup_cons] at hnodup
  rw [Schedule.blocks_node h.segment, h.block, Option.toList_some, List.singleton_append, List.nodup_cons] at hblocks
  intro j hj seg' hseg' hkind
  rw [Outline.preorder_eq] at hj
  rcases List.mem_cons.1 hj with rfl | hj
  · cases h.segment.symm.trans hseg'
    obtain ⟨n', b', id, inner, t, hblock, hb, hid, hinner, hwrap, hdefs, hset⟩ := defineSegment_block hkind hdef
    cases h.block.symm.trans hblock
    rw [Module.block?, h.stmt] at hb
    cases hb
    refine ⟨n, b, id, inner, t, h.segment, h.block, h.stmt, hid, ?_, hwrap, hdefs ▸ mem_define_self id t _,
      get_set_self hset⟩
    have hrefs : ∀ c ∈ seg.children, d'.refs.get c = d.refs.get c := by
      intro c hc
      refine get_set_of_ne hset ?_
      rintro rfl
      rw [h.children] at hc
      obtain ⟨o, ho, rfl⟩ := List.mem_map.1 hc
      exact hnodup.1 (List.mem_flatMap.2 ⟨o, ho, o.index_mem_preorder⟩)
    rw [bodyTiming, seqTiming_congr hrefs, mutexTiming_congr hrefs]
    exact hinner
  · obtain ⟨o, ho, hj⟩ := List.mem_flatMap.1 hj
    refine (hbuilt o ho).frame (hos o ho) hframes (fun x hx => hS x ((hnumbers x).2 (.inr ⟨o, ho, hx⟩))) ?_ ?_ j hj seg'
      hseg' hkind
    · intro x hx hxi
      rw [List.mem_singleton.1 hxi] at hx
      exact hnodup.1 (List.mem_flatMap.2 ⟨o, ho, hx⟩)
    · intro x hx hxn
      rw [h.block, Option.toList_some, List.mem_singleton] at hxn
      exact hblocks.1 (List.mem_flatMap.2 ⟨o, ho, hxn ▸ hx⟩)

theorem built_buildAll {maxState : Nat} {os : List Outline}
    (hos : ∀ o ∈ os, Schedule.Consistent inp.module inp.schedule maxState o)
    (ih : ∀ o ∈ os, ∀ {d d' : Draft}, o.preorder.Nodup → (inp.schedule.blocks o).Nodup →
      (∀ j, inp.schedule.Numbers o j → S j) → buildAt inp d o = .ok d' → Built inp d' o)
    (hnodup : (os.flatMap Outline.preorder).Nodup) (hblocks : (os.flatMap inp.schedule.blocks).Nodup)
    (hS : ∀ o ∈ os, ∀ j, inp.schedule.Numbers o j → S j) {d d' : Draft} (h : buildAll inp d os = .ok d') :
    ∀ o ∈ os, Built inp d' o := by
  induction os generalizing d with
  | nil => exact fun o ho => absurd ho List.not_mem_nil
  | cons o os ihos =>
    rw [buildAll, Checked.bind_eq_ok] at h
    obtain ⟨d₁, ho, h⟩ := h
    rw [List.flatMap_cons, List.nodup_append] at hnodup hblocks
    obtain ⟨hcons, hconss⟩ := List.forall_mem_cons.1 hos
    obtain ⟨hSo, hSos⟩ := List.forall_mem_cons.1 hS
    have hbuilt := ih o List.mem_cons_self hnodup.1 hblocks.1 hSo ho
    refine List.forall_mem_cons.2 ⟨?_, ihos hconss (fun o' ho' => ih o' (List.mem_cons_of_mem _ ho')) hnodup.2.1
      hblocks.2.1 hSos h⟩
    exact hbuilt.frame hcons (frames_buildAll hids os hSos h) hSo (fun j hj hj' => hnodup.2.2 j hj j hj' rfl)
      fun n hn hn' => hblocks.2.2 n hn n hn' rfl

theorem built_buildAt {maxState : Nat} {o : Outline} (hcons : Schedule.Consistent inp.module inp.schedule maxState o)
    {d d' : Draft} (hnodup : o.preorder.Nodup) (hblocks : (inp.schedule.blocks o).Nodup)
    (hS : ∀ j, inp.schedule.Numbers o j → S j) (h : buildAt inp d o = .ok d') : Built inp d' o := by
  induction hcons generalizing d d' with
  | @leaf i seg hleaf =>
    intro j hj seg' hseg' hkind
    rw [Outline.preorder_eq, List.flatMap_nil, List.mem_singleton] at hj
    subst hj
    cases hleaf.segment.symm.trans hseg'
    exact absurd hleaf.kind hkind
  | @block i n b seg os segs hfits hos ih =>
    rw [buildAt, hfits.segment, Checked.ok_bind, Checked.bind_eq_ok] at h
    obtain ⟨d₁, hall, h⟩ := h
    have hsub := hnodup
    have hsubs := hblocks
    rw [Outline.preorder_eq, List.nodup_cons] at hsub
    rw [Schedule.blocks_node hfits.segment, List.nodup_append] at hsubs
    have hS' : ∀ o ∈ os, ∀ j, inp.schedule.Numbers o j → S j := fun o ho j hj =>
      hS j ((Schedule.numbers_node hfits.segment).2 (.inr ⟨o, ho, hj⟩))
    exact built_defineSegment hids hfits hos hnodup hblocks hS
      (built_buildAll hids hos (fun o ho => ih o ho) hsub.2 hsubs.2.1 hS' hall) h

end Build

end ConditionTable

end Sequencer
