import Sequencer.Proofs.Comb.Defaults
import Sequencer.Proofs.Comb.Order

set_option autoImplicit false

/-!
# Dropping repeated values

Nested blocks lose the defaults that repeat a value in effect around them. This changes nothing as long as no dropped value
is out of date, and keeps statements in order.
-/

namespace Sequencer

namespace Comb

theorem Env.get?_enter_eq_some {env : Env} {ds : Defaults} {x : Setting} (h : (env.enter ds).get? x.1 = some x.2) :
    x ∈ ds.settings ∨ env.get? x.1 = some x.2 := by
  rw [get?_enter, Option.or_eq_some_iff] at h
  refine h.imp (fun h => ?_) And.right
  obtain ⟨d, hd, hval⟩ := Option.map_eq_some_iff.1 h
  exact List.mem_map.2 ⟨(x.1, d), (ds.get?_eq_some_iff _ _).1 hd, Prod.ext rfl hval⟩

theorem Env.get?_unpinned {env : Env} {driven : List String} {t : String} {v : Option Expr} :
    (env.filter fun t v => !pinned driven t v).get? t = some v ↔ env.get? t = some v ∧ pinned driven t v = false := by
  rw [Listing.get?_filter, Option.filter_eq_some_iff, Bool.not_eq_true']

theorem Defaults.settings_filter (ds : Defaults) (p : String → Drive → Bool) :
    (Defaults.settings (ds.filter p)).Sublist ds.settings := List.filter_sublist.map _

/-- What is not pinned of the values in effect is set ahead. -/
def Env.Within (env : Env) (driven : List String) (h : Ahead) : Prop :=
  ∀ x : Setting, env.get? x.1 = some x.2 → pinned driven x.1 x.2 = false → x ∈ h.vals

namespace Env.Within

variable {env : Env} {driven driven' pins : List String} {h h' : Ahead}

theorem mono (henv : env.Within driven h) (hd : driven ⊆ driven') (hh : h.vals ⊆ h'.vals) : env.Within driven' h' :=
  fun x hx hfree => hh (henv x hx (Bool.eq_false_iff.2 fun hpin => Bool.eq_false_iff.1 hfree (pinned_mono hd hpin)))

theorem clear (henv : env.Within driven h) (hpins : pins ⊆ driven) : env.Within driven (h.clear pins) := by
  intro x hx hfree
  refine Ahead.mem_clear.2 ⟨henv x hx hfree, Bool.eq_false_iff.2 fun hpin => ?_⟩
  rw [pinned_mono hpins hpin] at hfree
  cases hfree

theorem unpinned (henv : env.Within driven h) : Env.Within (env.filter fun t v => !pinned driven t v) [] h := by
  intro x hx _
  obtain ⟨hx, hfree⟩ := get?_unpinned.1 hx
  exact henv x hx hfree

theorem insert (henv : env.Within [] h) (x : Setting) : Env.Within (env.insert x.1 x.2) [] (h.set x) := by
  rintro ⟨t, v⟩ hx hfree
  by_cases ht : t = x.1
  · subst ht
    rw [Listing.get?_insert_self, Option.some.injEq] at hx
    subst hx
    exact List.mem_cons_self
  · rw [Listing.get?_insert_of_ne _ _ ht] at hx
    exact List.mem_cons_of_mem _ (henv _ hx hfree)

theorem enter (henv : env.Within [] h) (ds : Defaults) : (env.enter ds).Within [] (h.setAll ds.settings) := by
  intro x hx hfree
  rcases get?_enter_eq_some hx with hx | hx
  · exact Ahead.mem_vals_setAll hx h
  · exact (h.within_setAll _).vals (henv x hx hfree)

end Env.Within

mutual
/-- What a statement sets, it still sets afterwards or repeats. -/
theorem Stmt.mem_settings_pushDown {x : Setting} : (s : Stmt) → ∀ (env : Env) (driven : List String), x ∈ s.settings →
    x ∈ (s.pushDown env driven).settings ∨ env.get? x.1 = some x.2 ∧ pinned driven x.1 x.2 = false
  | .assign _, _, _, hx => .inl hx
  | .block g ds ss, env, driven, hx => by
    rw [pushDown, settings_block, List.mem_append]
    rw [settings_block, List.mem_append] at hx
    rcases hx with hx | hx
    · obtain ⟨e, he, rfl⟩ := List.mem_map.1 hx
      by_cases hget : (env.filter fun t v => !pinned driven t v).get? e.1 = some e.2.val
      · exact .inr (Env.get?_unpinned.1 hget)
      · exact .inl (.inl (List.mem_map.2 ⟨e, List.mem_filter.2 ⟨he, by simpa using hget⟩, rfl⟩))
    · rcases mem_settingsAll_pushDownAll ss _ [] hx with hx | ⟨hx, _⟩
      · exact .inl (.inr hx)
      · exact (Env.get?_enter_eq_some hx).imp .inl Env.get?_unpinned.1
theorem Stmt.mem_settingsAll_pushDownAll {x : Setting} : (ss : List Stmt) → ∀ (env : Env) (driven : List String),
    x ∈ Stmt.settingsAll ss → x ∈ Stmt.settingsAll (Stmt.pushDownAll env driven ss) ∨
      env.get? x.1 = some x.2 ∧ pinned driven x.1 x.2 = false
  | [], _, _, hx => .inl hx
  | s :: ss, env, driven, hx => by
    rw [pushDownAll, settingsAll_cons, List.mem_append]
    rw [settingsAll_cons, List.mem_append] at hx
    rcases hx with hx | hx
    · exact (mem_settings_pushDown s env driven hx).imp_left .inl
    · rcases mem_settingsAll_pushDownAll ss env _ hx with hx | ⟨hx, hfree⟩
      · exact .inl (.inr hx)
      · exact .inr ⟨hx, Bool.eq_false_iff.2 fun hpin =>
          Bool.eq_false_iff.1 hfree (pinned_mono (List.subset_append_right _ _) hpin)⟩
end

mutual
theorem Stmt.pushDown_subset : (s : Stmt) → ∀ (env : Env) (driven : List String),
    (s.pushDown env driven).settings ⊆ s.settings ∧ (s.pushDown env driven).reads ⊆ s.reads
  | .assign _, _, _ => ⟨List.Subset.refl _, List.Subset.refl _⟩
  | .block g ds ss, env, driven => by
    have hds := (ds.settings_filter fun t d => (env.filter fun t v => !pinned driven t v).get? t != some d.val).subset
    obtain ⟨hsettings, hreads⟩ := pushDownAll_subset ss (Env.enter (env.filter fun t v => !pinned driven t v)
      (ds.filter fun t d => (env.filter fun t v => !pinned driven t v).get? t != some d.val)) []
    constructor
    · rw [pushDown, settings_block, settings_block]
      exact List.append_subset.2 ⟨List.Subset.trans hds (List.subset_append_left _ _),
        List.Subset.trans hsettings (List.subset_append_right _ _)⟩
    · rw [pushDown, reads, reads]
      refine List.append_subset.2 ⟨List.append_subset.2 ⟨fun n hn => ?_, fun n hn => ?_⟩, fun n hn => ?_⟩
      · exact List.mem_append_left _ (List.mem_append_left _ hn)
      · obtain ⟨x, hx, hn⟩ := List.mem_flatMap.1 hn
        exact List.mem_append_left _ (List.mem_append_right _ (List.mem_flatMap.2 ⟨x, hds hx, hn⟩))
      · exact List.mem_append_right _ (hreads hn)
theorem Stmt.pushDownAll_subset : (ss : List Stmt) → ∀ (env : Env) (driven : List String),
    Stmt.settingsAll (Stmt.pushDownAll env driven ss) ⊆ Stmt.settingsAll ss ∧
      Stmt.readsAll (Stmt.pushDownAll env driven ss) ⊆ Stmt.readsAll ss
  | [], _, _ => ⟨List.Subset.refl _, List.Subset.refl _⟩
  | s :: ss, env, driven => by
    obtain ⟨hs, hr⟩ := pushDown_subset s env driven
    obtain ⟨hss, hrs⟩ := pushDownAll_subset ss env ((s.pushDown env driven).targets ++ driven)
    rw [pushDownAll, settingsAll_cons, settingsAll_cons, readsAll, readsAll]
    exact ⟨List.append_subset.2 ⟨List.Subset.trans hs (List.subset_append_left _ _),
        List.Subset.trans hss (List.subset_append_right _ _)⟩,
      List.append_subset.2 ⟨List.Subset.trans hr (List.subset_append_left _ _),
        List.Subset.trans hrs (List.subset_append_right _ _)⟩⟩
end

/-- What a statement drives for sure, it drives afterwards too. -/
theorem Stmt.pins_pushDown {env : Env} {driven : List String} {h : Ahead} (henv : env.Within driven h) (s : Stmt) :
    s.pins h ⊆ (s.pushDown env driven).pins h := by
  cases s with
  | assign a => exact List.Subset.refl _
  | block g ds ss =>
    intro t ht
    obtain ⟨x, hx, hnew, rfl⟩ := mem_pins_block.1 ht
    have hmem := (mem_settings_pushDown _ env driven hx).resolve_right fun ⟨hget, hfree⟩ => hnew (henv x hget hfree)
    exact mem_pins_block.2 ⟨x, hmem, hnew, rfl⟩

theorem Stmt.CalmAll.mono {ss : List Stmt} {h h' : Ahead} {pins pins' : List String} (hh : h'.Within h)
    (hpins : pins ⊆ pins') (hss : Stmt.CalmAll h pins ss) : Stmt.CalmAll h' pins' ss :=
  CalmAll.besides ss hh.besides hpins (fun _ _ => ⟨List.not_mem_nil, fun _ hy => absurd hy List.not_mem_nil⟩)
    (fun _ _ hy => hy) hss

mutual
theorem Stmt.Calm.pushDown : (s : Stmt) → ∀ {env : Env} {driven : List String} {h : Ahead}, env.Within driven h →
    s.Calm h → (s.pushDown env driven).Calm h
  | .assign _, _, _, _, _, _ => trivial
  | .block g ds ss, env, driven, h, henv, ⟨hg, ht, hss⟩ => by
    have hsub := ds.settings_filter fun t d => (env.filter fun t v => !pinned driven t v).get? t != some d.val
    refine ⟨hg, ht.mono (.refl h) hsub, ?_⟩
    refine CalmAll.pushDownAll ss (henv.unpinned.enter _) (List.Subset.refl _) ?_
    exact CalmAll.mono ((Ahead.Within.refl h).setAll hsub) (List.Subset.refl _) hss
theorem Stmt.CalmAll.pushDownAll : (ss : List Stmt) → ∀ {env : Env} {driven pins : List String} {h : Ahead},
    env.Within driven h → pins ⊆ driven → Stmt.CalmAll h pins ss → Stmt.CalmAll h pins (Stmt.pushDownAll env driven ss)
  | [], _, _, _, _, _, _, _ => trivial
  | s :: ss, env, driven, pins, h, henv, hpins, ⟨hs, hss⟩ => by
    have hkeeps := pins_pushDown henv s
    refine ⟨Calm.pushDown s (henv.clear hpins) hs, ?_⟩
    refine CalmAll.pushDownAll ss (henv.mono (List.subset_append_right _ _) (List.Subset.refl _)) ?_ ?_
    · exact List.append_subset.2 ⟨List.Subset.trans (pins_subset_targets _ _) (List.subset_append_left _ _),
        List.Subset.trans hpins (List.subset_append_right _ _)⟩
    · exact hss.mono (.refl h) (List.append_subset.2 ⟨List.Subset.trans hkeeps (List.subset_append_left _ _),
        List.subset_append_right _ _⟩)
end

namespace Pass

variable {p p' : Pass}

/-- Dropping repetitions below a block keeps its statements in order. -/
theorem Orderly.pushDownAll {ss : List Stmt} {env : Env} {driven : List String} (hw : p'.Within p)
    (henv : env.Within driven p.ahead) (hset : ∀ t v, env.get? t = some v → t ∈ p.set) (hpins : p.pins ⊆ driven)
    (h : p.Orderly ss) : p'.Orderly (Stmt.pushDownAll env driven ss) := by
  induction ss generalizing p p' driven with
  | nil => trivial
  | cons s ss ih =>
    obtain ⟨hadmits, hcalm, hrest⟩ := h
    have henv' : env.Within ((s.pushDown env driven).targets ++ driven) (p.step s).ahead :=
      henv.mono (List.subset_append_right _ _) (p.ahead_step s).vals
    have hset' : ∀ t v, env.get? t = some v → t ∈ (p.step s).set := fun t v ht => (p.mem_set_step s).2 (.inr (hset t v ht))
    cases s with
    | assign a =>
      refine ⟨hw.admits hadmits, trivial, ih (hw.assign a) henv' hset' ?_ hrest⟩
      exact List.Subset.trans (p.driven_step (.assign a)).1 (List.append_subset.2
        ⟨List.subset_append_left _ _, List.Subset.trans hpins (List.subset_append_right _ _)⟩)
    | block g ds ts =>
      have hreplaces : p.Replaces ((Stmt.block g ds ts).pushDown env driven) (.block g ds ts) := by
        obtain ⟨hsettings, hreads⟩ := Stmt.pushDown_subset (.block g ds ts) env driven
        refine ⟨hsettings, hreads, fun x hx => ?_⟩
        exact (Stmt.mem_settings_pushDown _ env driven hx).imp_right fun ⟨hget, hfree⟩ =>
          ⟨hset _ _ hget, henv x hget hfree⟩
      refine ⟨trivial, (hcalm.pushDown _ (henv.clear hpins)).mono (hw.ahead.clear hw.pins), ?_⟩
      refine ih (hw.block hreplaces) henv' hset' ?_ hrest
      have hkeeps := List.Subset.trans (Stmt.pins_pushDown henv (.block g ds ts)) (Stmt.pins_subset_targets _ _)
      exact List.append_subset.2 ⟨List.Subset.trans hkeeps (List.subset_append_left _ _),
        List.Subset.trans hpins (List.subset_append_right _ _)⟩

/-- Nothing is out of date below a block whose statements are in order. -/
theorem Orderly.calm {ss : List Stmt} {h : Ahead} {pins : List String} (hh : h.Within p.ahead) (hpins : p.pins ⊆ pins)
    (hss : p.Orderly ss) : Stmt.CalmAll h pins ss := by
  induction ss generalizing p pins with
  | nil => trivial
  | cons s ss ih =>
    refine ⟨hss.2.1.mono (hh.clear hpins), ih (hh.trans (p.ahead_step s)) ?_ hss.2.2⟩
    cases s with
    | assign a =>
      exact List.Subset.trans (p.driven_step (.assign a)).1 (List.append_subset.2
        ⟨List.subset_append_left _ _, List.Subset.trans hpins (List.subset_append_right _ _)⟩)
    | block g ds ts =>
      have hmore := Stmt.pins_subset (s := .block g ds ts) fun x _ hx => hh.vals hx
      exact List.append_subset.2 ⟨List.Subset.trans hmore (List.subset_append_left _ _),
        List.Subset.trans hpins (List.subset_append_right _ _)⟩

end Pass

section Values

variable {V : Type} (I : Interpretation V) (ρ : Valuation V)

/-- The signal has the value of the setting. -/
def Setting.Current (x : Setting) (σ : Store V) : Prop := ∀ e, x.2 = some e → σ x.1 = some (e.eval I (ρ.overlay σ))

/-- What is not pinned of the values in effect is so, unless it is out of date. -/
def Env.Sound (env : Env) (driven : List String) (h : Ahead) (σ : Store V) : Prop :=
  ∀ x : Setting, env.get? x.1 = some x.2 → pinned driven x.1 x.2 = false → x ∉ h.stale → Setting.Current I ρ x σ

variable {I ρ}

theorem Setting.Current.exec_eq {a : Assign} {σ : Store V} (h : Setting.Current I ρ a.setting σ) :
    a.exec I ρ.overlay σ = σ := by
  cases hval : a.val with
  | none => simp [Assign.exec, hval]
  | some e =>
    have hσ : some (e.eval I (ρ.overlay σ)) = σ a.target := (h e hval).symm
    rw [Assign.exec_of_val I _ hval, hσ, Function.update_eq_self]

/-- A value stays in effect where neither its signal nor what it reads changes. -/
theorem Setting.Current.congr {x : Setting} {σ σ' : Store V} (h : Setting.Current I ρ x σ) (hx : σ' x.1 = σ x.1)
    (hreads : ∀ n ∈ valueReads x.2, σ' n = σ n) : Setting.Current I ρ x σ' := by
  intro e he
  have heval : e.eval I (ρ.overlay σ') = e.eval I (ρ.overlay σ) :=
    eval_overlay_congr I ρ fun n hn => hreads n (by rw [he]; exact hn)
  rw [hx, h e he, heval]

theorem Setting.current_exec {a : Assign} (h : a.target ∉ valueReads a.val) (σ : Store V) :
    Setting.Current I ρ a.setting (a.exec I ρ.overlay σ) := by
  intro e he
  have hval : a.val = some e := he
  rw [hval] at h
  have heval : e.eval I (ρ.overlay (a.exec I ρ.overlay σ)) = e.eval I (ρ.overlay σ) :=
    eval_overlay_congr I ρ fun n hn => a.exec_of_ne I _ (fun heq => h (heq ▸ hn)) σ
  rw [heval, Assign.exec_of_val I _ hval]
  exact Function.update_self _ _ _

namespace Env.Sound

variable {env : Env} {driven pins : List String} {h : Ahead} {σ : Store V}

theorem clear (hs : env.Sound I ρ driven h σ) (hpins : pins ⊆ driven) : env.Sound I ρ driven (h.clear pins) σ := by
  refine fun x hx hfree hstale => hs x hx hfree fun hmem => hstale (Ahead.mem_clear.2 ⟨hmem, ?_⟩)
  refine Bool.eq_false_iff.2 fun hpin => ?_
  rw [pinned_mono hpins hpin] at hfree
  cases hfree

theorem unpinned (hs : env.Sound I ρ driven h σ) :
    Env.Sound I ρ (env.filter fun t v => !pinned driven t v) [] h σ := by
  intro x hx _
  obtain ⟨hx, hfree⟩ := get?_unpinned.1 hx
  exact hs x hx hfree

theorem insert (hw : env.Within [] h) (hs : env.Sound I ρ [] h σ) (a : Assign) :
    Env.Sound I ρ (env.insert a.target a.val) [] (h.set a.setting) (a.exec I ρ.overlay σ) := by
  rintro ⟨t, v⟩ hx _ hstale
  by_cases ht : t = a.target
  · subst ht
    rw [Listing.get?_insert_self, Option.some.injEq] at hx
    subst hx
    exact Setting.current_exec (fun hread => hstale (Ahead.mem_stale_set.2 (.inr ⟨.inl rfl, hread⟩))) σ
  · rw [Listing.get?_insert_of_ne _ _ ht] at hx
    have hval : (t, v) ∈ h.vals := hw _ hx (by simp [pinned])
    have hcurrent := hs (t, v) hx (by simp [pinned]) fun hmem => hstale ((h.within_set _).stale hmem)
    refine hcurrent.congr (a.exec_of_ne I _ ht σ) fun n hn => a.exec_of_ne I _ ?_ σ
    rintro rfl
    exact hstale (Ahead.mem_stale_set.2 (.inr ⟨.inr hval, hn⟩))

theorem insertAll (hw : env.Within [] h) (hs : env.Sound I ρ [] h σ) (es : List (String × Drive)) :
    Env.Sound I ρ (env.insertAll (es.map fun e => (e.1, e.2.val))) [] (h.setAll (es.map fun e => (e.1, e.2.val)))
      (execAssigns I ρ.overlay (es.map fun e => ⟨e.1, e.2⟩) σ) := by
  induction es generalizing env h σ with
  | nil => exact hs
  | cons e es ih => exact ih (hw.insert _) (insert hw hs ⟨e.1, e.2⟩)

theorem enter (hw : env.Within [] h) (hs : env.Sound I ρ [] h σ) (ds : Defaults) :
    Env.Sound I ρ (env.enter ds) [] (h.setAll ds.settings) (execAssigns I ρ.overlay ds.assigns σ) :=
  insertAll hw hs ds.entries

/-- Settings that repeat values in effect may be left out, if none of these values is out of date. -/
theorem execAssigns_filter (hw : env.Within [] h) (hs : env.Sound I ρ [] h σ) {es : List (String × Drive)}
    (hnodup : (es.map Prod.fst).Nodup) (ht : h.Takes (es.map fun e => (e.1, e.2.val))) :
    execAssigns I ρ.overlay ((es.filter fun e => env.get? e.1 != some e.2.val).map fun e => ⟨e.1, e.2⟩) σ =
      execAssigns I ρ.overlay (es.map fun e => ⟨e.1, e.2⟩) σ := by
  induction es generalizing env h σ with
  | nil => rfl
  | cons e es ih =>
    obtain ⟨hfresh, hnodup⟩ := List.nodup_cons.1 hnodup
    obtain ⟨hstale, ht⟩ := ht
    by_cases hget : env.get? e.1 = some e.2.val
    · have hskip : Assign.exec I ρ.overlay ⟨e.1, e.2⟩ σ = σ :=
        Setting.Current.exec_eq (hs (e.1, e.2.val) hget (by simp [pinned]) hstale)
      rw [List.filter_cons_of_neg (by simp [hget]), ih hw hs hnodup (ht.mono (h.within_set _) (List.Sublist.refl _))]
      exact congrArg (execAssigns I ρ.overlay _) hskip.symm
    · have hsame : (es.filter fun x => env.get? x.1 != some x.2.val) =
          es.filter fun x => (env.insert e.1 e.2.val).get? x.1 != some x.2.val := by
        refine List.filter_congr fun x hx => ?_
        have hne : x.1 ≠ e.1 := fun heq => hfresh (heq ▸ List.mem_map_of_mem hx)
        rw [Listing.get?_insert_of_ne _ _ hne]
      rw [List.filter_cons_of_pos (by simpa using hget), hsame]
      exact ih (hw.insert (e.1, e.2.val)) (insert hw hs ⟨e.1, e.2⟩) hnodup ht

/-- Values stay in effect as far as neither they nor what they read is driven. -/
theorem exec (hs : env.Sound I ρ driven h σ) (s : Stmt) : env.Sound I ρ (s.targets ++ driven) h (s.exec I ρ.overlay σ) := by
  intro x hx hfree hstale
  obtain ⟨htarget, hreads⟩ := pinned_eq_false_iff.1 hfree
  have hfree' : pinned driven x.1 x.2 = false := pinned_eq_false_iff.2
    ⟨fun hmem => htarget (List.mem_append_right _ hmem), fun n hn hmem => hreads n hn (List.mem_append_right _ hmem)⟩
  exact (hs x hx hfree' hstale).congr (s.exec_of_notMem I _ (fun hmem => htarget (List.mem_append_left _ hmem)) σ)
    fun n hn => s.exec_of_notMem I _ (fun hmem => hreads n hn (List.mem_append_left _ hmem)) σ

end Env.Sound

mutual
theorem Stmt.exec_pushDown : (s : Stmt) → ∀ {env : Env} {driven : List String} {h : Ahead} {σ : Store V},
    env.Within driven h → env.Sound I ρ driven h σ → s.Calm h →
    (s.pushDown env driven).exec I ρ.overlay σ = s.exec I ρ.overlay σ
  | .assign _, _, _, _, _, _, _, _ => rfl
  | .block g ds ss, env, driven, h, σ, hw, hs, ⟨_, ht, hss⟩ => by
    have hdflts := hs.unpinned.execAssigns_filter hw.unpinned ds.nodup ht
    have hsub := ds.settings_filter fun t d => (env.filter fun t v => !pinned driven t v).get? t != some d.val
    have hrest := execAll_pushDownAll ss (hw.unpinned.enter _) (hs.unpinned.enter hw.unpinned _) (List.Subset.refl _)
      (CalmAll.mono ((Ahead.Within.refl h).setAll hsub) (List.Subset.refl _) hss)
    rw [pushDown, Stmt.exec, Stmt.exec, hrest]
    exact congrArg (fun τ => if Cond.holds I (ρ.overlay σ) g then Stmt.execAll I ρ.overlay ss τ else σ) hdflts
theorem Stmt.execAll_pushDownAll : (ss : List Stmt) → ∀ {env : Env} {driven pins : List String} {h : Ahead} {σ : Store V},
    env.Within driven h → env.Sound I ρ driven h σ → pins ⊆ driven → Stmt.CalmAll h pins ss →
    Stmt.execAll I ρ.overlay (Stmt.pushDownAll env driven ss) σ = Stmt.execAll I ρ.overlay ss σ
  | [], _, _, _, _, _, _, _, _, _ => rfl
  | s :: ss, env, driven, pins, h, σ, hw, hs, hpins, ⟨hcalm, hss⟩ => by
    have hhead := exec_pushDown s (hw.clear hpins) (hs.clear hpins) hcalm
    have hpins' : s.pins h ++ pins ⊆ (s.pushDown env driven).targets ++ driven :=
      List.append_subset.2 ⟨List.Subset.trans (List.Subset.trans (pins_pushDown hw s) (pins_subset_targets _ _))
        (List.subset_append_left _ _), List.Subset.trans hpins (List.subset_append_right _ _)⟩
    have htail := execAll_pushDownAll ss (hw.mono (List.subset_append_right _ _) (List.Subset.refl _))
      (hs.exec (s.pushDown env driven)) hpins' hss
    rw [pushDownAll, execAll, execAll, htail, hhead]
end

end Values

end Comb

end Sequencer
