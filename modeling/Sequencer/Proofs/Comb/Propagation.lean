import Sequencer.Proofs.Comb.Repetition

set_option autoImplicit false

/-!
# Propagation through statements in order

Where reads see what has been driven, propagation keeps the effect of guarded updates of control signals that are in order,
and what it makes of them is in order again.
-/

namespace Sequencer

namespace Comb

/-- Has a value, and never leaves a guard. -/
def Assign.Plain (isControl : Assign → Bool) (a : Assign) : Prop := isControl a = true ∧ a.val.isSome = true

section Hoist

variable {isControl : Assign → Bool} {h : Ahead}

theorem Exchange.run_of_stays {stays : String → Drive → Bool} {x : Exchange} {es : List (String × Drive)}
    (hes : ∀ e ∈ es, stays e.1 e.2 = true) : Exchange.run stays x es = { x with inner := x.inner.insertAll es } := by
  induction es generalizing x with
  | nil => rfl
  | cons e es ih =>
    obtain ⟨he, hes⟩ := List.forall_mem_cons.1 hes
    rw [run_cons, step, if_pos he, ih hes]
    rfl

/-- A guarded block keeps the defaults of control signals. -/
theorem hoistStmts_guarded {g : Cond} {inner : Defaults} (hg : g.isSome = true) (hinner : inner.Satisfies (Assign.Plain isControl))
    (ds : Defaults) (driven : List String) (ss rest : List Stmt) :
    hoistStmts isControl ds driven (.block g inner ss :: rest) =
      ((hoistStmts isControl ds ((Stmt.block g inner ss).targets ++ driven) rest).1,
        .block g inner ss :: (hoistStmts isControl ds ((Stmt.block g inner ss).targets ++ driven) rest).2) := by
  have hrun : Exchange.run (stays isControl driven g) ⟨ds, .empty⟩ inner.entries = ⟨ds, inner⟩ := by
    rw [Exchange.run_of_stays fun e he => by simp [stays, hg, (hinner e he).1]]
    exact congrArg (Exchange.mk ds) inner.ofList_entries
  rw [hoistStmts_block, hrun]

theorem Defaults.mem_settings_iff {ds : Defaults} {x : Setting} :
    x ∈ ds.settings ↔ ∃ d, ds.get? x.1 = some d ∧ d.val = x.2 := by
  constructor
  · intro hx
    obtain ⟨e, he, rfl⟩ := List.mem_map.1 hx
    exact ⟨e.2, (ds.get?_eq_some_iff _ _).2 he, rfl⟩
  · rintro ⟨d, hd, hval⟩
    exact List.mem_map.2 ⟨(x.1, d), (ds.get?_eq_some_iff _ _).1 hd, Prod.ext rfl hval⟩

variable (isControl) in
/-- What becomes of an assignment: it goes to the end of the defaults, repeats one of them, or stays. -/
theorem hoistStmts_cases (ds : Defaults) (driven : List String) (a : Assign) (rest : List Stmt) :
    (pinned driven a.target a.val = false ∧ ∃ ds' : Defaults, ds'.assigns = ds.assigns ++ [a] ∧ a.target ∉ ds.keys ∧
      hoistStmts isControl ds driven (.assign a :: rest) = hoistStmts isControl ds' driven rest) ∨
    (pinned driven a.target a.val = false ∧ a.setting ∈ ds.settings ∧
      hoistStmts isControl ds driven (.assign a :: rest) = hoistStmts isControl ds driven rest) ∨
    ((pinned driven a.target a.val = true ∨ a.target ∈ ds.keys) ∧
      hoistStmts isControl ds driven (.assign a :: rest) =
        ((hoistStmts isControl ds (a.target :: driven) rest).1,
          .assign a :: (hoistStmts isControl ds (a.target :: driven) rest).2)) := by
  rcases hoistStmts_assign isControl ds driven a rest with ⟨ds', hfree, htake, hrun⟩ | ⟨hkept, hrun⟩
  · rcases Exchange.take?_eq_some htake with ⟨d', hget, hval, rfl⟩ | ⟨hget, rfl⟩
    · exact .inr (.inl ⟨hfree, Defaults.mem_settings_iff.2 ⟨d', hget, hval⟩, hrun⟩)
    · have hfresh : a.target ∉ ds.keys := by
        intro hmem
        obtain ⟨e, he, htarget⟩ := List.mem_map.1 hmem
        rw [(ds.get?_eq_some_iff a.target e.2).2 (htarget ▸ he)] at hget
        cases hget
      refine .inl ⟨hfree, _, ?_, hfresh, hrun⟩
      rw [Defaults.assigns, Listing.entries_insert_of_notMem hfresh, List.map_append]
      rfl
  · refine .inr (.inr ⟨hkept.imp_right fun hnone => ?_, hrun⟩)
    cases hget : ds.get? a.target with
    | none => simp [Defaults.take?, hget] at hnone
    | some d => exact List.mem_map_of_mem ((ds.get?_eq_some_iff _ _).1 hget)

theorem Defaults.settings_of_assigns {ds ds' : Defaults} {a : Assign} (hds : ds'.assigns = ds.assigns ++ [a]) :
    ds'.settings = ds.settings ++ [a.setting] := by
  rw [← settings_assigns, hds, List.map_append, settings_assigns]
  rfl

theorem Pass.set_start (h : Ahead) (ds : Defaults) : (Pass.start h ds.settings).set = ds.keys := ds.keys_settings

theorem Pass.start_within_front {ds ds' : Defaults} {a : Assign} (hds : ds'.assigns = ds.assigns ++ [a]) :
    (Pass.start h ds'.settings).Within ((Pass.start h ds.settings).front a) := by
  rw [Defaults.settings_of_assigns hds]
  refine ⟨?_, fun t => ?_, List.Subset.refl _, List.Subset.refl _, List.Subset.refl _⟩
  · rw [start, Ahead.setAll_append]
    exact .refl _
  · simp only [start, front, List.map_append, List.mem_append, List.mem_cons, List.map_cons, List.map_nil,
      List.not_mem_nil, or_false]
    exact or_comm

/-- Defaults and kept statements of a block, in order, with statements behind them that are to come. -/
structure Hoisting (h : Ahead) (ds : Defaults) (kept rest : List Stmt) : Prop where
  takes : h.Takes ds.settings
  keeps : (Pass.start h ds.settings).Keeps kept
  orderly : (Pass.start h ds.settings).Orderly (kept ++ rest)

namespace Hoisting

variable {ds ds' : Defaults} {kept rest : List Stmt} {a : Assign}

theorem admits (hh : Hoisting h ds kept (.assign a :: rest)) : ((Pass.start h ds.settings).walk kept).Admits (.assign a) :=
  (Pass.orderly_append.1 hh.orderly).2.1

/-- An assignment that could move repeats no value that is out of date. -/
theorem fresh (hh : Hoisting h ds kept (.assign a :: rest)) (hfree : pinned (Stmt.targetsAll kept) a.target a.val = false)
    (hset : a.target ∈ ds.keys → a.setting ∈ ds.settings) :
    (a.target ∈ Stmt.readsAll kept → a.target ∈ ds.keys) ∧ a.setting ∉ (h.setAll ds.settings).stale := by
  have hwalk := (Pass.start h ds.settings).ahead_walk kept
  have htarget := (pinned_eq_false_iff.1 hfree).1
  rcases hh.admits with (hpin | ⟨hmem, hnew⟩) | ⟨hread, hstale⟩
  · have hpin := pinned_mono ((Pass.start h ds.settings).driven_walk kept).1 hpin
    rw [show Stmt.targetsAll kept ++ (Pass.start h ds.settings).pins = _ from List.append_nil _, hfree] at hpin
    cases hpin
  · rw [Pass.mem_set_walk, Pass.set_start] at hmem
    exact absurd (hwalk.vals (Ahead.mem_vals_setAll (hset (hmem.resolve_left htarget)) h)) hnew
  · refine ⟨fun hmem => ?_, fun hmem => hstale (hwalk.stale hmem)⟩
    have hset := hread (hh.keeps.noted.2 (List.mem_append_left _ hmem))
    rw [Pass.mem_set_walk, Pass.set_start] at hset
    exact hset.resolve_left htarget

theorem independent (hh : Hoisting h ds kept (.assign a :: rest))
    (hfree : pinned (Stmt.targetsAll kept) a.target a.val = false) (hset : a.target ∉ ds.keys) :
    a.Independent (Stmt.targetsAll kept) (Stmt.readsAll kept) := by
  obtain ⟨htarget, hreads⟩ := pinned_eq_false_iff.1 hfree
  exact ⟨htarget, fun hmem => hset ((hh.fresh hfree fun hmem => absurd hmem hset).1 hmem), hreads⟩

theorem insert (hh : Hoisting h ds kept (.assign a :: rest))
    (hfree : pinned (Stmt.targetsAll kept) a.target a.val = false) (hset : a.target ∉ ds.keys)
    (hds : ds'.assigns = ds.assigns ++ [a]) : Hoisting h ds' kept rest := by
  have hstale := (hh.fresh hfree fun hmem => absurd hmem hset).2
  have hwithin := Pass.start_within_front (h := h) hds
  refine ⟨?_, hh.keeps.mono (fun t ht => (hwithin.set t).2 (List.mem_cons_of_mem _ ht)) (List.Subset.refl _), ?_⟩
  · rw [Defaults.settings_of_assigns hds, Ahead.takes_append]
    exact ⟨hh.takes, hstale, trivial⟩
  · have hstart : a.target ∉ (Pass.start h ds.settings).set := fun hmem => hset (Pass.set_start h ds ▸ hmem)
    exact hh.orderly.move hwithin (hh.independent hfree hset) hstart (by simp [Pass.start, pinned])
      (by simp [Pass.start, pinned])

theorem drop (hh : Hoisting h ds kept (.assign a :: rest)) (hfree : pinned (Stmt.targetsAll kept) a.target a.val = false)
    (hset : a.setting ∈ ds.settings) : Hoisting h ds kept rest :=
  ⟨hh.takes, hh.keeps, hh.orderly.drop (List.mem_map_of_mem hset) (Ahead.mem_vals_setAll hset h)
    (by rw [show Stmt.targetsAll kept ++ (Pass.start h ds.settings).pins = _ from List.append_nil _, hfree])⟩

theorem keep {s : Stmt} (hh : Hoisting h ds kept (s :: rest))
    (hs : ∀ a, s = .assign a → pinned (Stmt.targetsAll kept) a.target a.val = true ∨ a.target ∈ ds.keys) :
    Hoisting h ds (kept ++ [s]) rest := by
  refine ⟨hh.takes, Pass.keeps_append.2 ⟨hh.keeps, fun a ha => ?_, trivial⟩, ?_⟩
  · rcases hs a ha with hpin | hmem
    · exact .inr (pinned_mono (List.Subset.trans (List.subset_append_left _ _) hh.keeps.noted.1) hpin)
    · exact .inl (Pass.mem_set_walk.2 (.inr (Pass.set_start h ds ▸ hmem)))
  · rw [List.append_assoc]
    exact hh.orderly

end Hoisting

section Effect

variable {V : Type} (I : Interpretation V) (ρ : Valuation V) {ds ds' : Defaults} {kept rest : List Stmt} {a : Assign}

theorem Hoisting.exec_insert (hh : Hoisting h ds kept (.assign a :: rest))
    (hfree : pinned (Stmt.targetsAll kept) a.target a.val = false) (hset : a.target ∉ ds.keys)
    (hds : ds'.assigns = ds.assigns ++ [a]) (σ : Store V) :
    Stmt.execAll I ρ.overlay (kept ++ rest) (execAssigns I ρ.overlay ds'.assigns σ) =
      Stmt.execAll I ρ.overlay (kept ++ .assign a :: rest) (execAssigns I ρ.overlay ds.assigns σ) := by
  have hassigns : execAssigns I ρ.overlay ds'.assigns σ = a.exec I ρ.overlay (execAssigns I ρ.overlay ds.assigns σ) := by
    rw [hds, execAssigns, List.foldl_append]
    rfl
  rw [hassigns, Stmt.execAll_append, ← Stmt.execAll_comm I ρ kept (hh.independent hfree hset), Stmt.execAll_append]
  rfl

theorem Hoisting.exec_drop (hh : Hoisting h ds kept (.assign a :: rest))
    (hfree : pinned (Stmt.targetsAll kept) a.target a.val = false) (hset : a.setting ∈ ds.settings) (σ : Store V) :
    Stmt.execAll I ρ.overlay (kept ++ rest) (execAssigns I ρ.overlay ds.assigns σ) =
      Stmt.execAll I ρ.overlay (kept ++ .assign a :: rest) (execAssigns I ρ.overlay ds.assigns σ) := by
  obtain ⟨htarget, hreads⟩ := pinned_eq_false_iff.1 hfree
  have hstale := (hh.fresh hfree fun _ => hset).2
  have hempty : Env.Within .empty [] h := fun x hx => by cases hx
  have hsound : Env.Sound I ρ .empty [] h σ := fun x hx => by cases hx
  obtain ⟨d, hget, hval⟩ := Defaults.mem_settings_iff.1 hset
  have henv : (Env.enter .empty ds).get? a.target = some a.val := by
    rw [Env.get?_enter, show ds.get? a.target = some d from hget, Option.map_some, hval]
    rfl
  have hcurrent := hsound.enter hempty ds a.setting henv (by simp [pinned]) hstale
  have hskip := Setting.Current.exec_eq (hcurrent.congr (Stmt.execAll_of_notMem I ρ.overlay kept htarget _)
    fun n hn => Stmt.execAll_of_notMem I ρ.overlay kept (hreads n hn) _)
  rw [Stmt.execAll_append, Stmt.execAll_append]
  exact congrArg (Stmt.execAll I ρ.overlay rest) hskip.symm

/-- Moving assignments into the defaults keeps the effect and the order. -/
theorem Hoisting.hoistStmts (rest : List Stmt) : ∀ {ds : Defaults} {kept : List Stmt} {driven : List String},
    Hoisting h ds kept rest → Stmt.SatisfiesAll (Assign.Plain isControl) (fun _ => True) rest →
    (∀ t, t ∈ driven ↔ t ∈ Stmt.targetsAll kept) →
    Hoisting h (hoistStmts isControl ds driven rest).1 (kept ++ (hoistStmts isControl ds driven rest).2) [] ∧
      ∀ σ : Store V, Stmt.execAll I ρ.overlay (kept ++ (Comb.hoistStmts isControl ds driven rest).2)
        (execAssigns I ρ.overlay (Comb.hoistStmts isControl ds driven rest).1.assigns σ) =
          Stmt.execAll I ρ.overlay (kept ++ rest) (execAssigns I ρ.overlay ds.assigns σ) := by
  induction rest with
  | nil =>
    intro ds kept driven hh _ _
    refine ⟨?_, fun σ => rfl⟩
    rw [show (Comb.hoistStmts isControl ds driven []).2 = [] from rfl, List.append_nil]
    exact hh
  | cons s rest ih =>
    intro ds kept driven hh hplain hdriven
    have hpinned : ∀ t v, pinned driven t v = pinned (Stmt.targetsAll kept) t v := fun t v =>
      Bool.eq_iff_iff.2 ⟨pinned_mono fun t ht => (hdriven t).1 ht, pinned_mono fun t ht => (hdriven t).2 ht⟩
    -- a statement that stays joins those kept before it
    have hstay : ∀ ns, (∀ t, t ∈ ns ↔ t ∈ s.targets ∨ t ∈ driven) →
        (∀ a, s = .assign a → pinned (Stmt.targetsAll kept) a.target a.val = true ∨ a.target ∈ ds.keys) →
        Comb.hoistStmts isControl ds driven (s :: rest) =
          ((Comb.hoistStmts isControl ds ns rest).1, s :: (Comb.hoistStmts isControl ds ns rest).2) →
        Hoisting h (Comb.hoistStmts isControl ds driven (s :: rest)).1
          (kept ++ (Comb.hoistStmts isControl ds driven (s :: rest)).2) [] ∧
        ∀ σ : Store V, Stmt.execAll I ρ.overlay (kept ++ (Comb.hoistStmts isControl ds driven (s :: rest)).2)
          (execAssigns I ρ.overlay (Comb.hoistStmts isControl ds driven (s :: rest)).1.assigns σ) =
            Stmt.execAll I ρ.overlay (kept ++ s :: rest) (execAssigns I ρ.overlay ds.assigns σ) := by
      intro ns hns hs hrun
      have hdriven' : ∀ t, t ∈ ns ↔ t ∈ Stmt.targetsAll (kept ++ [s]) := by
        intro t
        rw [hns, hdriven, Stmt.targetsAll_append, List.mem_append, Stmt.targetsAll, Stmt.targetsAll, List.append_nil]
        exact or_comm
      have hnext := ih (hh.keep hs) hplain.2 hdriven'
      rw [hrun]
      rw [List.append_assoc, List.append_assoc] at hnext
      exact hnext
    cases s with
    | assign a =>
      rcases hoistStmts_cases isControl ds driven a rest with
        ⟨hfree, ds', hds, hset, hrun⟩ | ⟨hfree, hset, hrun⟩ | ⟨hkept, hrun⟩
      · rw [hpinned] at hfree
        obtain ⟨hnext, hexec⟩ := ih (hh.insert hfree hset hds) hplain.2 hdriven
        rw [hrun]
        exact ⟨hnext, fun σ => (hexec σ).trans (hh.exec_insert I ρ hfree hset hds σ)⟩
      · rw [hpinned] at hfree
        obtain ⟨hnext, hexec⟩ := ih (hh.drop hfree hset) hplain.2 hdriven
        rw [hrun]
        exact ⟨hnext, fun σ => (hexec σ).trans (hh.exec_drop I ρ hfree hset σ)⟩
      · refine hstay (a.target :: driven) (fun t => by simp [Stmt.targets]) (fun b hb => ?_) hrun
        cases hb
        rw [← hpinned]
        exact hkept
    | block g inner ss =>
      have hcalm := (Pass.orderly_append.1 hh.orderly).2.2.1
      exact hstay _ (fun t => List.mem_append) (fun a ha => by cases ha)
        (hoistStmts_guarded hcalm.1 hplain.1.2.1 ds driven ss rest)

end Effect

/-- A block has a guard. -/
def Stmt.Guarded : Stmt → Prop
  | .assign _ => True
  | .block g _ _ => g.isSome = true

theorem Stmt.Calm.guarded {s : Stmt} (hs : s.Calm h) : s.Guarded := by
  cases s with
  | assign a => trivial
  | block g ds ss => exact hs.1

theorem Pass.Orderly.guarded {ss : List Stmt} {p : Pass} (hss : p.Orderly ss) : ∀ s ∈ ss, s.Guarded := by
  induction ss generalizing p with
  | nil => exact fun s hs => absurd hs List.not_mem_nil
  | cons s ss ih => exact List.forall_mem_cons.2 ⟨hss.2.1.guarded, ih hss.2.2⟩

theorem hoistStmts_settings (rest : List Stmt) : ∀ (ds : Defaults) (driven : List String), (∀ s ∈ rest, s.Guarded) →
    Stmt.SatisfiesAll (Assign.Plain isControl) (fun _ => True) rest →
    (∀ x, x ∈ (hoistStmts isControl ds driven rest).1.settings ∨
      x ∈ Stmt.settingsAll (hoistStmts isControl ds driven rest).2 ↔ x ∈ ds.settings ∨ x ∈ Stmt.settingsAll rest) ∧
      Stmt.readsAll (hoistStmts isControl ds driven rest).2 ⊆ Stmt.readsAll rest := by
  induction rest with
  | nil => exact fun ds driven _ _ => ⟨fun x => .rfl, List.Subset.refl _⟩
  | cons s rest ih =>
    intro ds driven hguarded hplain
    obtain ⟨hguard, hrest⟩ := List.forall_mem_cons.1 hguarded
    have hstay : ∀ ns, hoistStmts isControl ds driven (s :: rest) =
        ((hoistStmts isControl ds ns rest).1, s :: (hoistStmts isControl ds ns rest).2) →
        (∀ x, x ∈ (hoistStmts isControl ds driven (s :: rest)).1.settings ∨
          x ∈ Stmt.settingsAll (hoistStmts isControl ds driven (s :: rest)).2 ↔
            x ∈ ds.settings ∨ x ∈ Stmt.settingsAll (s :: rest)) ∧
          Stmt.readsAll (hoistStmts isControl ds driven (s :: rest)).2 ⊆ Stmt.readsAll (s :: rest) := by
      intro ns hrun
      obtain ⟨hsettings, hreads⟩ := ih ds ns hrest hplain.2
      rw [hrun]
      refine ⟨fun x => ?_, ?_⟩
      · rw [Stmt.settingsAll_cons, Stmt.settingsAll_cons, List.mem_append, List.mem_append, or_left_comm, hsettings,
          or_left_comm]
      · rw [Stmt.readsAll, Stmt.readsAll]
        exact List.append_subset.2 ⟨List.subset_append_left _ _, List.Subset.trans hreads (List.subset_append_right _ _)⟩
    cases s with
    | assign a =>
      have hsettings : ∀ x, x ∈ Stmt.settingsAll (.assign a :: rest) ↔ x = a.setting ∨ x ∈ Stmt.settingsAll rest :=
        fun x => by rw [Stmt.settingsAll_cons, List.mem_append]; exact or_congr_left List.mem_singleton
      rcases hoistStmts_cases isControl ds driven a rest with
        ⟨_, ds', hds, _, hrun⟩ | ⟨_, hset, hrun⟩ | ⟨_, hrun⟩
      · obtain ⟨hmoved, hreads⟩ := ih ds' driven hrest hplain.2
        rw [hrun]
        refine ⟨fun x => ?_, List.Subset.trans hreads (List.subset_append_right _ _)⟩
        rw [hmoved, hsettings, Defaults.settings_of_assigns hds, List.mem_append, List.mem_singleton, or_assoc]
      · obtain ⟨hmoved, hreads⟩ := ih ds driven hrest hplain.2
        rw [hrun]
        refine ⟨fun x => ?_, List.Subset.trans hreads (List.subset_append_right _ _)⟩
        rw [hmoved, hsettings, ← or_assoc]
        exact or_congr_left ⟨.inl, fun hx => hx.elim id fun hx => hx ▸ hset⟩
      · exact hstay _ hrun
    | block g inner ss => exact hstay _ (hoistStmts_guarded hguard hplain.1.2.1 ds driven ss rest)

end Hoist

section Cleanup

variable {isControl : Assign → Bool}

theorem Defaults.cleanup_eq {ds : Defaults} (h : ds.Satisfies (Assign.Plain isControl)) : Defaults.cleanup ds = ds :=
  Listing.ext (List.filter_eq_self.2 fun e he => (h e he).2)

mutual
/-- Where all assignments have a value, only blocks without contents go. -/
theorem Stmt.settings_cleanup? : (s : Stmt) → s.Satisfies (Assign.Plain isControl) (fun _ => True) →
    Stmt.settingsAll s.cleanup?.toList = s.settings ∧ Stmt.readsAll s.cleanup?.toList ⊆ s.reads
  | .assign a, h => by
    rw [cleanup?, if_pos h.2]
    exact ⟨rfl, List.append_subset.2 ⟨List.Subset.refl _, List.nil_subset _⟩⟩
  | .block g ds ss, ⟨_, hds, hss⟩ => by
    obtain ⟨hsettings, hreads⟩ := settingsAll_cleanupAll ss hss
    rw [cleanup?, Defaults.cleanup_eq hds, settings_block, reads]
    split
    · rename_i hempty
      simp only [Block.isEmpty, Listing.isEmpty, Bool.and_eq_true, List.isEmpty_iff] at hempty
      rw [hempty.1] at hsettings
      rw [← hsettings, Defaults.settings, hempty.2]
      exact ⟨rfl, List.nil_subset _⟩
    · simp only [Option.toList_some, settingsAll_cons, readsAll, Block.toStmt, settings_block, reads, hsettings]
      refine ⟨List.append_nil _, ?_⟩
      rw [List.append_nil]
      exact List.append_subset.2 ⟨List.subset_append_left _ _, List.Subset.trans hreads (List.subset_append_right _ _)⟩
theorem Stmt.settingsAll_cleanupAll : (ss : List Stmt) → Stmt.SatisfiesAll (Assign.Plain isControl) (fun _ => True) ss →
    Stmt.settingsAll (Stmt.cleanupAll ss) = Stmt.settingsAll ss ∧ Stmt.readsAll (Stmt.cleanupAll ss) ⊆ Stmt.readsAll ss
  | [], _ => ⟨rfl, List.Subset.refl _⟩
  | s :: ss, ⟨hs, hss⟩ => by
    obtain ⟨hhead, hhead'⟩ := settings_cleanup? s hs
    obtain ⟨htail, htail'⟩ := settingsAll_cleanupAll ss hss
    rw [cleanupAll, settingsAll_append, hhead, htail, settingsAll_cons, readsAll_append, readsAll]
    exact ⟨rfl, List.append_subset.2 ⟨List.Subset.trans hhead' (List.subset_append_left _ _),
      List.Subset.trans htail' (List.subset_append_right _ _)⟩⟩
end

/-- What becomes of a statement: it goes as a block that sets nothing, or a statement that sets the same replaces it. -/
theorem Stmt.cleanup?_cases (s : Stmt) (hs : s.Satisfies (Assign.Plain isControl) fun _ => True) :
    (∃ g ds ss, s = .block g ds ss ∧ s.cleanup? = none ∧ s.settings = []) ∨
      ∃ s', s.cleanup? = some s' ∧ s'.settings = s.settings ∧ s'.reads ⊆ s.reads ∧
        ((∃ a, s = .assign a ∧ s' = s) ∨
          ∃ g ds ss, s = .block g ds ss ∧ s' = .block g ds (Stmt.cleanupAll ss)) := by
  obtain ⟨hsettings, hreads⟩ := settings_cleanup? s hs
  cases hclean : s.cleanup? with
  | none =>
    rw [hclean] at hsettings
    cases s with
    | assign a => rw [cleanup?, if_pos hs.2] at hclean; cases hclean
    | block g ds ss => exact .inl ⟨g, ds, ss, rfl, rfl, hsettings.symm⟩
  | some s' =>
    simp only [hclean, Option.toList_some, settingsAll_cons, readsAll, List.append_nil] at hsettings hreads
    refine .inr ⟨s', rfl, (List.append_nil _).symm.trans hsettings, hreads, ?_⟩
    cases s with
    | assign a =>
      rw [cleanup?, if_pos hs.2] at hclean
      cases hclean
      exact .inl ⟨a, rfl, rfl⟩
    | block g ds ss =>
      rw [cleanup?, Defaults.cleanup_eq hs.2.1] at hclean
      split at hclean
      · cases hclean
      · cases hclean
        exact .inr ⟨g, ds, ss, rfl, rfl⟩

theorem Stmt.pins_congr {h : Ahead} {g g' : Cond} {ds ds' : Defaults} {ss ss' : List Stmt}
    (hsettings : (Stmt.block g ds ss).settings = (Stmt.block g' ds' ss').settings) :
    (Stmt.block g ds ss).pins h = (Stmt.block g' ds' ss').pins h := by
  rw [pins, pins, hsettings]

theorem Stmt.pins_of_settings_nil {h : Ahead} {g : Cond} {ds : Defaults} {ss : List Stmt}
    (hsettings : (Stmt.block g ds ss).settings = []) : (Stmt.block g ds ss).pins h = [] := by
  rw [pins, hsettings]
  rfl

mutual
theorem Stmt.Calm.cleanup? : (s : Stmt) → ∀ {h : Ahead} {s' : Stmt}, s.Satisfies (Assign.Plain isControl) (fun _ => True) →
    s.Calm h → s.cleanup? = some s' → s'.Calm h
  | .assign a, _, s', hs, _, hclean => by
    rw [Stmt.cleanup?, if_pos hs.2] at hclean
    cases hclean
    trivial
  | .block g ds ss, h, s', ⟨_, hds, hss⟩, ⟨hg, ht, hcalm⟩, hclean => by
    rw [Stmt.cleanup?, Defaults.cleanup_eq hds] at hclean
    split at hclean
    · cases hclean
    · cases hclean
      exact ⟨hg, ht, CalmAll.cleanupAll ss hss hcalm⟩
theorem Stmt.CalmAll.cleanupAll : (ss : List Stmt) → ∀ {h : Ahead} {pins : List String},
    Stmt.SatisfiesAll (Assign.Plain isControl) (fun _ => True) ss → Stmt.CalmAll h pins ss →
    Stmt.CalmAll h pins (Stmt.cleanupAll ss)
  | [], _, _, _, _ => trivial
  | s :: ss, h, pins, ⟨hs, hss⟩, ⟨hcalm, hrest⟩ => by
    have hnext := CalmAll.cleanupAll ss hss hrest
    rw [Stmt.cleanupAll]
    rcases cleanup?_cases s hs with ⟨g, ds, ts, rfl, hnone, hnil⟩ | ⟨s', hsome, hsettings, _, hkind⟩
    · rw [hnone]
      rw [pins_of_settings_nil hnil] at hnext
      exact hnext
    · rw [hsome]
      refine ⟨Calm.cleanup? s hs hcalm hsome, ?_⟩
      have hpins : s'.pins h = s.pins h := by
        rcases hkind with ⟨a, rfl, rfl⟩ | ⟨g, ds, ts, rfl, rfl⟩
        · rfl
        · exact pins_congr hsettings
      rw [hpins]
      exact hnext
end

theorem Pass.within_step_of_settings_nil {p : Pass} {g : Cond} {ds : Defaults} {ss : List Stmt}
    (h : (Stmt.block g ds ss).settings = []) : p.Within (p.step (.block g ds ss)) := by
  have htargets : (Stmt.block g ds ss).targets = [] := by rw [Stmt.targets_eq, h, List.map_nil]
  refine ⟨.refl _, fun t => ?_, ?_, List.subset_append_right _ _, List.subset_append_right _ _⟩
  · rw [mem_set_step, htargets]
    simp
  · rw [step, block, Stmt.pins_of_settings_nil h]
    exact List.Subset.refl _

theorem Pass.Orderly.cleanupAll {ss : List Stmt} {p p' : Pass} (hw : p'.Within p)
    (hplain : Stmt.SatisfiesAll (Assign.Plain isControl) (fun _ => True) ss) (h : p.Orderly ss) :
    p'.Orderly (Stmt.cleanupAll ss) := by
  induction ss generalizing p p' with
  | nil => trivial
  | cons s ss ih =>
    obtain ⟨hadmits, hcalm, hrest⟩ := h
    rw [Stmt.cleanupAll]
    rcases Stmt.cleanup?_cases s hplain.1 with ⟨g, ds, ts, rfl, hnone, hnil⟩ | ⟨s', hsome, hsettings, hreads, hkind⟩
    · rw [hnone]
      exact ih (hw.trans (within_step_of_settings_nil hnil)) hplain.2 hrest
    · rw [hsome]
      have hcalm' := ((Stmt.Calm.cleanup? s hplain.1 hcalm hsome).mono (hw.ahead.clear hw.pins))
      rcases hkind with ⟨a, rfl, rfl⟩ | ⟨g, ds, ts, rfl, rfl⟩
      · exact ⟨hw.admits hadmits, hcalm', ih (hw.step _) hplain.2 hrest⟩
      · refine ⟨trivial, hcalm', ih (hw.block ⟨?_, hreads, fun x hx => .inl (hsettings ▸ hx)⟩) hplain.2 hrest⟩
        rw [hsettings]
        exact List.Subset.refl _

end Cleanup

section Steady

variable (isControl : Assign → Bool) (h : Ahead)

/-- Sets control signals only, in order where the values `h` are set ahead. -/
structure Block.Steady (b : Block) : Prop where
  takes : h.Takes b.dflts.settings
  orderly : (Pass.start h b.dflts.settings).Orderly b.stmts
  plain : b.Satisfies (Assign.Plain isControl) fun _ => True

variable {V : Type} (I : Interpretation V) (ρ : Valuation V)

/-- What a block does where its guard holds. -/
def Block.effect (b : Block) (σ : Store V) : Store V :=
  Stmt.execAll I ρ.overlay b.stmts (execAssigns I ρ.overlay b.dflts.assigns σ)

/-- Does the same as the other block, with the same settings and no further reads. -/
structure Block.Alike (b b' : Block) : Prop where
  guard : b'.guard = b.guard
  settings : ∀ x, x ∈ b'.toStmt.settings ↔ x ∈ b.toStmt.settings
  reads : b'.toStmt.reads ⊆ b.toStmt.reads
  effect : ∀ σ : Store V, b'.effect I ρ σ = b.effect I ρ σ

variable {isControl h I ρ} {b b' b'' : Block}

theorem Block.Alike.refl (b : Block) : b.Alike I ρ b := ⟨rfl, fun _ => .rfl, List.Subset.refl _, fun _ => rfl⟩

theorem Block.Alike.trans (hb : b.Alike I ρ b') (hb' : b'.Alike I ρ b'') : b.Alike I ρ b'' :=
  ⟨hb'.guard.trans hb.guard, fun x => (hb'.settings x).trans (hb.settings x), List.Subset.trans hb'.reads hb.reads,
    fun σ => (hb'.effect σ).trans (hb.effect σ)⟩

theorem Block.Alike.exec_eq (hb : b.Alike I ρ b') (σ : Store V) :
    b'.toStmt.exec I ρ.overlay σ = b.toStmt.exec I ρ.overlay σ := by
  rw [toStmt, toStmt, Stmt.exec, Stmt.exec, hb.guard]
  exact congrArg (fun τ => if Cond.holds I (ρ.overlay σ) b.guard then τ else σ) (hb.effect σ)

theorem Block.settings_toStmt (b : Block) : b.toStmt.settings = b.dflts.settings ++ Stmt.settingsAll b.stmts :=
  Stmt.settings_block _ _ _

/-- The reads of a block that sets no more and has no more reads in its statements. -/
theorem Block.reads_subset (hguard : b'.guard = b.guard) (hsettings : ∀ x, x ∈ b'.toStmt.settings → x ∈ b.toStmt.settings)
    (hreads : Stmt.readsAll b'.stmts ⊆ Stmt.readsAll b.stmts) : b'.toStmt.reads ⊆ b.toStmt.reads := by
  rw [toStmt, Stmt.reads, hguard]
  refine List.append_subset.2 ⟨List.append_subset.2 ⟨fun n hn => ?_, fun n hn => ?_⟩, fun n hn => ?_⟩
  · exact List.mem_append_left _ (List.mem_append_left _ hn)
  · obtain ⟨x, hx, hn⟩ := List.mem_flatMap.1 hn
    exact b.toStmt.mem_reads_of_setting hn (hsettings x (b'.settings_toStmt ▸ List.mem_append_left _ hx))
  · exact List.mem_append_right _ (hreads hn)

theorem Block.Steady.hoist (hb : b.Steady isControl h) :
    (hoist isControl b).Steady isControl h ∧ b.Alike I ρ (hoist isControl b) := by
  have hstart : Hoisting h b.dflts [] b.stmts := ⟨hb.takes, trivial, hb.orderly⟩
  obtain ⟨hhoist, heffect⟩ := hstart.hoistStmts I ρ b.stmts hb.plain.2.2 fun t => (.rfl : t ∈ [] ↔ t ∈ [])
  obtain ⟨hds, hkept⟩ := hoistStmts_satisfies isControl b.stmts hb.plain.2.2 b.dflts [] hb.plain.2.1
  obtain ⟨hsettings, hreads⟩ := hoistStmts_settings b.stmts b.dflts [] hb.orderly.guarded hb.plain.2.2
  have hsettings' : ∀ x, x ∈ (Comb.hoist isControl b).toStmt.settings ↔ x ∈ b.toStmt.settings := by
    intro x
    rw [settings_toStmt, settings_toStmt, List.mem_append, List.mem_append]
    exact hsettings x
  have horderly := hhoist.orderly
  rw [List.append_nil, List.nil_append] at horderly
  exact ⟨⟨hhoist.takes, horderly, hb.plain.1, hds, hkept⟩,
    rfl, hsettings', reads_subset rfl (fun x hx => (hsettings' x).1 hx) hreads, heffect⟩

theorem Block.Steady.pushDown (hb : b.Steady isControl h) :
    (pushDown b).Steady isControl h ∧ b.Alike I ρ (pushDown b) := by
  have hempty : Env.Within .empty [] h := fun x hx => by cases hx
  have henv := hempty.enter b.dflts
  have hkeys : ∀ t v, (Env.enter .empty b.dflts).get? t = some v → (t, v) ∈ b.dflts.settings := fun t v ht =>
    (Env.get?_enter_eq_some (x := (t, v)) ht).resolve_right fun hget => by cases hget
  have horderly := hb.orderly.pushDownAll (.refl _) henv (fun t v ht => List.mem_map_of_mem (hkeys t v ht))
    (List.Subset.refl _)
  have hsettings : ∀ x, x ∈ (Comb.pushDown b).toStmt.settings ↔ x ∈ b.toStmt.settings := by
    intro x
    rw [settings_toStmt, settings_toStmt, List.mem_append, List.mem_append]
    constructor
    · exact Or.imp_right fun hx => (Stmt.pushDownAll_subset b.stmts _ []).1 hx
    · rintro (hx | hx)
      · exact .inl hx
      · exact (Stmt.mem_settingsAll_pushDownAll b.stmts _ [] hx).symm.imp_left fun hx => hkeys x.1 x.2 hx.1
  refine ⟨⟨hb.takes, horderly, hb.plain.1, hb.plain.2.1, Stmt.satisfiesAll_pushDownAll b.stmts hb.plain.2.2 _ _⟩, rfl, hsettings,
    reads_subset rfl (fun x hx => (hsettings x).1 hx) (Stmt.pushDownAll_subset b.stmts _ []).2, fun σ => ?_⟩
  have hsound : Env.Sound I ρ .empty [] h σ := fun x hx => by cases hx
  exact Stmt.execAll_pushDownAll b.stmts henv (hsound.enter hempty b.dflts) (List.Subset.refl _)
    (hb.orderly.calm (.refl _) (List.Subset.refl _))

theorem Block.Steady.cleanup (hb : b.Steady isControl h) :
    (cleanup b).Steady isControl h ∧ b.Alike I ρ (cleanup b) := by
  have hds := Defaults.cleanup_eq hb.plain.2.1
  obtain ⟨hsettings, hreads⟩ := Stmt.settingsAll_cleanupAll b.stmts hb.plain.2.2
  have hblock : Comb.cleanup b = { b with stmts := Stmt.cleanupAll b.stmts } := by rw [Comb.cleanup, hds]
  have hsettings' : ∀ x, x ∈ (Comb.cleanup b).toStmt.settings ↔ x ∈ b.toStmt.settings := by
    intro x
    rw [hblock, settings_toStmt, settings_toStmt, hsettings]
  rw [hblock] at hsettings' ⊢
  refine ⟨⟨hb.takes, hb.orderly.cleanupAll (.refl _) hb.plain.2.2, hb.plain.1, hb.plain.2.1,
    (Stmt.satisfiesAll_cleanupAll b.stmts hb.plain.2.2).mono (fun _ ha => ha.1) (fun _ he => he) _⟩, rfl, hsettings',
    reads_subset rfl (fun x hx => (hsettings' x).1 hx) hreads, fun σ => ?_⟩
  exact Stmt.execAll_cleanupAll I ρ.overlay b.stmts _

/-- Propagation through a steady block keeps its effect and leaves it steady. -/
theorem Block.Steady.updateDefaults (hb : b.Steady isControl h) :
    (updateDefaults isControl b).Steady isControl h ∧ b.Alike I ρ (updateDefaults isControl b) := by
  refine settle_induction (f := propagate isControl)
    (R := fun b b' : Block => b.Steady isControl h → b'.Steady isControl h ∧ b.Alike I ρ b')
    (fun b hb => ⟨hb, .refl b⟩) ?_ ?_ b.weight b hb
  · intro b b' b'' hb' hb'' hb
    obtain ⟨hsteady', halike'⟩ := hb' hb
    obtain ⟨hsteady'', halike''⟩ := hb'' hsteady'
    exact ⟨hsteady'', halike'.trans halike''⟩
  · intro b hb
    obtain ⟨h₁, a₁⟩ := hb.hoist (I := I) (ρ := ρ)
    obtain ⟨h₂, a₂⟩ := h₁.cleanup (I := I) (ρ := ρ)
    obtain ⟨h₃, a₃⟩ := h₂.pushDown (I := I) (ρ := ρ)
    obtain ⟨h₄, a₄⟩ := h₃.cleanup (I := I) (ρ := ρ)
    exact ⟨h₄, ((a₁.trans a₂).trans a₃).trans a₄⟩

theorem Block.Steady.calm (hb : b.Steady isControl h) (hg : b.guard.isSome = true) : b.toStmt.Calm h :=
  ⟨hg, hb.takes, hb.orderly.calm (.refl _) (List.Subset.refl _)⟩

variable (I ρ isControl) in
/-- What propagation makes of a statement: it sets and does the same, with no further reads. -/
structure Stmt.Settles (s s' : Stmt) : Prop where
  plain : s'.Satisfies (Assign.Plain isControl) fun _ => True
  settings : ∀ x, x ∈ s'.settings ↔ x ∈ s.settings
  reads : s'.reads ⊆ s.reads
  exec : ∀ σ : Store V, s'.exec I ρ.overlay σ = s.exec I ρ.overlay σ

variable (I ρ isControl) in
structure Stmt.SettlesAll (ss ss' : List Stmt) : Prop where
  plain : Stmt.SatisfiesAll (Assign.Plain isControl) (fun _ => True) ss'
  settings : ∀ x, x ∈ Stmt.settingsAll ss' ↔ x ∈ Stmt.settingsAll ss
  reads : Stmt.readsAll ss' ⊆ Stmt.readsAll ss
  exec : ∀ σ : Store V, Stmt.execAll I ρ.overlay ss' σ = Stmt.execAll I ρ.overlay ss σ

theorem Stmt.Settles.cons {s s' : Stmt} {ss ss' : List Stmt} (hs : s.Settles isControl I ρ s')
    (hss : Stmt.SettlesAll isControl I ρ ss ss') : Stmt.SettlesAll isControl I ρ (s :: ss) (s' :: ss') := by
  refine ⟨⟨hs.plain, hss.plain⟩, fun x => ?_, ?_, fun σ => ?_⟩
  · rw [settingsAll_cons, settingsAll_cons, List.mem_append, List.mem_append, hs.settings, hss.settings]
  · rw [readsAll, readsAll]
    exact List.append_subset.2 ⟨List.Subset.trans hs.reads (List.subset_append_left _ _),
      List.Subset.trans hss.reads (List.subset_append_right _ _)⟩
  · rw [execAll, execAll, hss.exec, hs.exec]

/-- A block whose statements settle, before propagation through the block itself. -/
theorem Stmt.SettlesAll.alike {g : Cond} {ds : Defaults} {ss ss' : List Stmt} (hss : Stmt.SettlesAll isControl I ρ ss ss') :
    Block.Alike I ρ ⟨g, ds, ss⟩ ⟨g, ds, ss'⟩ := by
  have hsettings : ∀ x, x ∈ (Block.mk g ds ss').toStmt.settings ↔ x ∈ (Block.mk g ds ss).toStmt.settings := by
    intro x
    rw [Block.settings_toStmt, Block.settings_toStmt, List.mem_append, List.mem_append, hss.settings]
  exact ⟨rfl, hsettings, Block.reads_subset rfl (fun x hx => (hsettings x).1 hx) hss.reads, fun σ => hss.exec _⟩

mutual
/-- Propagation through statements in order keeps their effect, and nothing is out of date in what it makes of them. -/
theorem Stmt.InOrder.updateDefaults : (s : Stmt) → ∀ {h : Ahead}, s.Satisfies (Assign.Plain isControl) (fun _ => True) →
    s.InOrder h → (s.updateDefaults isControl).Calm h ∧ s.Settles isControl I ρ (s.updateDefaults isControl)
  | .assign _, _, hplain, _ => ⟨trivial, hplain, fun _ => .rfl, List.Subset.refl _, fun _ => rfl⟩
  | .block g ds ss, h, ⟨hguards, hds, hplain⟩, ⟨hg, ht, horder⟩ => by
    obtain ⟨horderly, hsettles⟩ := InOrderAll.updateDefaultsAll ss hplain (.refl _) horder
    have hsteady : Block.Steady isControl h ⟨g, ds, Stmt.updateDefaultsAll isControl ss⟩ :=
      ⟨ht, horderly, hguards, hds, hsettles.plain⟩
    obtain ⟨hsteady', halike⟩ := hsteady.updateDefaults (I := I) (ρ := ρ)
    have halike := hsettles.alike.trans halike
    exact ⟨hsteady'.calm (halike.guard ▸ hg), hsteady'.plain, halike.settings, halike.reads, halike.exec_eq⟩
theorem Stmt.InOrderAll.updateDefaultsAll : (ss : List Stmt) → ∀ {p p' : Pass},
    Stmt.SatisfiesAll (Assign.Plain isControl) (fun _ => True) ss → p'.Within p → Stmt.InOrderAll p ss →
    p'.Orderly (Stmt.updateDefaultsAll isControl ss) ∧
      Stmt.SettlesAll isControl I ρ ss (Stmt.updateDefaultsAll isControl ss)
  | [], _, _, _, _, _ => ⟨trivial, trivial, fun _ => .rfl, List.Subset.refl _, fun _ => rfl⟩
  | s :: ss, p, p', ⟨hs, hss⟩, hw, ⟨hadmits, hinner, horder⟩ => by
    obtain ⟨hcalm, hsettles⟩ := InOrder.updateDefaults s hs hinner
    have hcalm' := hcalm.mono (hw.ahead.clear hw.pins)
    cases s with
    | assign a =>
      obtain ⟨horderly, hrest⟩ := InOrderAll.updateDefaultsAll ss hss (hw.assign a) horder
      exact ⟨⟨hw.admits hadmits, hcalm', horderly⟩, hsettles.cons hrest⟩
    | block g ds ts =>
      have hreplaces : p.Replaces ((Stmt.block g ds ts).updateDefaults isControl) (.block g ds ts) :=
        ⟨fun x hx => (hsettles.settings x).1 hx, hsettles.reads, fun x hx => .inl ((hsettles.settings x).2 hx)⟩
      obtain ⟨horderly, hrest⟩ := InOrderAll.updateDefaultsAll ss hss (hw.block hreplaces) horder
      exact ⟨⟨trivial, hcalm', horderly⟩, hsettles.cons hrest⟩
end

end Steady

section Flat

variable {isControl : Assign → Bool} {h : Ahead} {as : List Assign} {ss : List Stmt}

/-- Assignments to distinct signals come one after the other as defaults do. -/
theorem Pass.orderly_assigns (as : List Assign) : ∀ {h : Ahead} {set : List String}, (as.map Assign.target).Nodup →
    (∀ a ∈ as, a.target ∉ set) → h.Takes (as.map Assign.setting) →
    (Pass.mk h set [] [] []).Orderly (as.map .assign) ∧ ((Pass.mk h set [] [] []).walk (as.map .assign)).Within
      ⟨h.setAll (as.map Assign.setting), as.map Assign.target ++ set, [], [], []⟩ := by
  induction as with
  | nil => exact fun _ _ _ => ⟨trivial, .refl _⟩
  | cons a as ih =>
    intro h set hnodup hfresh ht
    obtain ⟨hne, hnodup⟩ := List.nodup_cons.1 hnodup
    obtain ⟨ha, hfresh⟩ := List.forall_mem_cons.1 hfresh
    have hstep : (Pass.mk h set [] [] []).step (.assign a) = ⟨h.set a.setting, a.target :: set, [], [], []⟩ :=
      assign_eq_front ha (by simp [pinned]) (by simp [pinned])
    have hfresh' : ∀ b ∈ as, b.target ∉ a.target :: set := by
      intro b hb hmem
      rcases List.mem_cons.1 hmem with heq | hmem
      · exact hne (heq ▸ List.mem_map_of_mem hb)
      · exact hfresh b hb hmem
    obtain ⟨horderly, hwithin⟩ := ih hnodup hfresh' ht.2
    rw [← hstep] at horderly hwithin
    refine ⟨⟨.inr ⟨fun hread => absurd hread List.not_mem_nil, ht.1⟩, trivial, horderly⟩, hwithin.trans ⟨.refl _, ?_,
      List.Subset.refl _, List.Subset.refl _, List.Subset.refl _⟩⟩
    intro t
    simp only [List.map_cons, List.mem_append, List.mem_cons]
    exact or_left_comm.trans or_assoc.symm

theorem Pass.orderly_flat (hnodup : (as.map Assign.target).Nodup) (ht : h.Takes (as.map Assign.setting))
    (hss : (Pass.start h (as.map Assign.setting)).Orderly ss) : (Pass.start h []).Orderly (as.map .assign ++ ss) := by
  obtain ⟨horderly, hwithin⟩ := @orderly_assigns as h [] hnodup (fun _ _ => List.not_mem_nil) ht
  have htargets : (as.map Assign.setting).map Prod.fst = as.map Assign.target := by
    rw [List.map_map]
    rfl
  have hstart : (Pass.mk (h.setAll (as.map Assign.setting)) (as.map Assign.target ++ []) [] [] []) =
      Pass.start h (as.map Assign.setting) := by
    rw [List.append_nil, start, htargets]
  rw [hstart] at hwithin
  exact orderly_append.2 ⟨horderly, hss.mono hwithin⟩

/-- A steady block without a guard, its defaults written as statements. -/
theorem Block.Steady.flat {b : Block} (hb : b.Steady isControl h) :
    (Block.of none (b.dflts.assigns.map .assign ++ b.stmts)).Steady isControl h := by
  have hsettings := b.dflts.settings_assigns
  refine ⟨trivial, Pass.orderly_flat ?_ (hsettings ▸ hb.takes) (hsettings ▸ hb.orderly),
    Block.satisfies_of (fun _ _ => trivial) (Stmt.satisfiesAll_append.2 ⟨Stmt.satisfiesAll_assigns.2 fun a ha => ?_,
      hb.plain.2.2⟩)⟩
  · rw [Defaults.target_assigns]
    exact b.dflts.nodup
  · obtain ⟨e, he, rfl⟩ := List.mem_map.1 ha
    exact hb.plain.2.1 e he

/-- Values that read none of the signals do not get out of date. -/
theorem Ahead.takes_of_unread {xs : List Setting} (hxs : ∀ x ∈ xs, ∀ y ∈ xs, x.1 ∉ valueReads y.2) :
    Ahead.empty.Takes xs ∧ (Ahead.empty.setAll xs).stale = [] := by
  have hrest : ∀ ys ⊆ xs, ∀ h : Ahead, h.vals ⊆ xs → h.stale = [] → h.Takes ys ∧ (h.setAll ys).stale = [] := by
    intro ys
    induction ys with
    | nil => exact fun _ h _ hstale => ⟨trivial, hstale⟩
    | cons y ys ih =>
      intro hys h hvals hstale
      obtain ⟨hy, hys⟩ := List.cons_subset.1 hys
      have hvals' : (h.set y).vals ⊆ xs := List.cons_subset.2 ⟨hy, hvals⟩
      have hstale' : (h.set y).stale = [] := by
        rw [set, hstale, List.nil_append, List.filter_eq_nil_iff]
        intro z hz
        simpa using hxs y hy z (hvals' hz)
      obtain ⟨htakes, hend⟩ := ih hys _ hvals' hstale'
      exact ⟨⟨hstale ▸ List.not_mem_nil, htakes⟩, hend⟩
  exact hrest xs (List.Subset.refl _) _ (List.nil_subset _) rfl

/-- Statements in order stay so if all that they set has been set before and nothing of this is out of date. -/
theorem Pass.Orderly.behind {p q : Pass} (hstale : q.ahead.stale = []) (hahead : q.ahead.Within p.ahead)
    (hpins : p.pins ⊆ q.pins) (hset : Stmt.targetsAll ss ⊆ q.set) (hss : p.Orderly ss) : q.Orderly ss := by
  induction ss generalizing p q with
  | nil => trivial
  | cons s ss ih =>
    obtain ⟨_, hcalm, hrest⟩ := hss
    rw [Stmt.targetsAll, List.append_subset] at hset
    have hset' : Stmt.targetsAll ss ⊆ (q.step s).set := fun t ht => (q.mem_set_step s).2 (.inr (hset.2 ht))
    have hcalm' := hcalm.mono (hahead.clear hpins)
    cases s with
    | assign a =>
      have hmem : a.target ∈ q.set := hset.1 (List.mem_singleton.2 rfl)
      have hahead' : (q.step (.assign a)).ahead = q.ahead := if_pos (.inl hmem)
      have hholds : p.Holds a → q.Holds a := Or.imp (pinned_mono hpins) fun ⟨_, hnew⟩ =>
        ⟨hmem, fun hval => hnew (hahead.vals hval)⟩
      refine ⟨.inr ⟨fun _ => hmem, hstale ▸ List.not_mem_nil⟩, trivial, ih (hahead' ▸ hstale)
        (hahead' ▸ hahead.trans (p.ahead_step _)) ?_ hset' hrest⟩
      simp only [step, assign]
      split
      · rename_i hp
        rw [if_pos (hholds hp)]
        exact List.cons_subset_cons _ hpins
      · split
        · exact List.Subset.trans hpins (List.subset_cons_self _ _)
        · exact hpins
    | block g ds ts =>
      refine ⟨trivial, hcalm', ih (p := p.step (.block g ds ts)) (q := q.step (.block g ds ts)) hstale hahead ?_ hset' hrest⟩
      exact List.append_subset.2 ⟨List.Subset.trans (Stmt.pins_subset fun x _ hx => hahead.vals hx)
        (List.subset_append_left _ _), List.Subset.trans hpins (List.subset_append_right _ _)⟩

/-- Statements that are steady where some values are set ahead are steady after assignments of these values. -/
theorem Block.Steady.behind (hnodup : (as.map Assign.target).Nodup)
    (hunread : ∀ x ∈ as.map Assign.setting, ∀ y ∈ as.map Assign.setting, x.1 ∉ valueReads y.2)
    (hplain : ∀ a ∈ as, Assign.Plain isControl a) (hset : Stmt.targetsAll ss ⊆ as.map Assign.target)
    (hss : (Block.of none ss).Steady isControl (Ahead.empty.setAll (as.map Assign.setting))) :
    (Block.of none (as.map .assign ++ ss)).Steady isControl .empty := by
  obtain ⟨htakes, hstale⟩ := Ahead.takes_of_unread hunread
  have hahead : (Pass.start .empty (as.map Assign.setting)).ahead.Within
      (Pass.start (Ahead.empty.setAll (as.map Assign.setting)) []).ahead := .refl _
  refine ⟨trivial, Pass.orderly_flat hnodup htakes (Pass.Orderly.behind hstale hahead (List.Subset.refl _) ?_ hss.orderly),
    Block.satisfies_of (fun _ _ => trivial)
      (Stmt.satisfiesAll_append.2 ⟨Stmt.satisfiesAll_assigns.2 hplain, hss.plain.2.2⟩)⟩
  intro t ht
  obtain ⟨a, ha, rfl⟩ := List.mem_map.1 (hset ht)
  exact List.mem_map.2 ⟨a.setting, List.mem_map_of_mem ha, rfl⟩

end Flat

end Comb

end Sequencer
