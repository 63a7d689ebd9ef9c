import Sequencer.Proofs.Comb.Control
import Sequencer.Proofs.Comb.Overlay
import Sequencer.Proofs.Comb.Settling

set_option autoImplicit false

/-!
# Signals with one value

A signal that gets the same value wherever it is driven needs to be driven once only. Propagation takes such a signal
out of every block, whatever the other signals do, until the defaults of the outermost block alone drive it.
-/

namespace Sequencer

namespace Comb

/-- What a round keeps, and what it does under that condition, holds of all rounds together. -/
theorem settle_invariant {α : Type} [DecidableEq α] {f : α → α} {I : α → Prop} {R : α → α → Prop} (hrefl : ∀ a, R a a)
    (htrans : ∀ a b c, R a b → R b c → R a c) (hf : ∀ a, I a → I (f a) ∧ R a (f a)) (rounds : Nat) {a : α} (ha : I a) :
    I (settle f rounds a) ∧ R a (settle f rounds a) := by
  refine settle_induction (R := fun a b => I a → I b ∧ R a b) (fun a ha => ⟨ha, hrefl a⟩) ?_ hf rounds a ha
  intro a b c hab hbc ha
  obtain ⟨hb, hR⟩ := hab ha
  obtain ⟨hc, hR'⟩ := hbc hb
  exact ⟨hc, htrans a b c hR hR'⟩

/-- An assignment of `t` gives it the value `v` and may leave a guard. No assignment drives a signal that `v` reads. -/
def Assign.Agrees (isControl : Assign → Bool) (t : String) (v : Expr) (a : Assign) : Prop :=
  (a.target = t → a.val = some v ∧ isControl a = false) ∧ a.target ∉ v.reads

/-- No statement of the list drives `t`. -/
def Stmt.Spare (t : String) (ss : List Stmt) : Prop := Stmt.SatisfiesAll (fun a => a.target ≠ t) (fun _ => True) ss

/-- A block drives `t` by a default if at all. -/
def Stmt.Lifted (t : String) : Stmt → Prop
  | .assign _ => True
  | .block _ _ ss => Stmt.Spare t ss

def Block.Lifted (t : String) (b : Block) : Prop := Stmt.Spare t b.stmts

section Spare

variable {t : String}

theorem Stmt.Spare.notMem_targets {ss : List Stmt} (h : Stmt.Spare t ss) : t ∉ Stmt.targetsAll ss := by
  intro ht
  obtain ⟨a, hne, heq⟩ := exists_of_mem_targetsAll ss h ht
  exact hne heq

theorem Stmt.Spare.lifted {ss : List Stmt} (h : Stmt.Spare t ss) : ∀ s ∈ ss, s.Lifted t := by
  intro s hs
  have hsat := satisfiesAll_iff.1 h s hs
  cases s with
  | assign a => trivial
  | block g ds ss => exact hsat.2.2

theorem Stmt.Spare.cleanup {ss : List Stmt} (h : Stmt.Spare t ss) : Stmt.Spare t (Stmt.cleanupAll ss) :=
  SatisfiesAll.mono (fun _ ha => ha.1) (fun _ he => he) _ (satisfiesAll_cleanupAll ss h)

theorem Stmt.Spare.pushDown {ss : List Stmt} (h : Stmt.Spare t ss) (env : Env) (driven : List String) :
    Stmt.Spare t (Stmt.pushDownAll env driven ss) := satisfiesAll_pushDownAll ss h env driven

end Spare

section Hoist

variable {isControl : Assign → Bool} {t : String} {v : Expr}

theorem Defaults.mem_keys_take {ds ds' : Defaults} {k : String} {d : Drive} (h : ds.take? k d = some ds') :
    t ∈ ds'.keys ↔ t ∈ ds.keys ∨ t = k := by
  rcases Exchange.take?_eq_some h with ⟨d', hget, _, rfl⟩ | ⟨_, rfl⟩
  · refine ⟨.inl, fun ht => ht.elim id fun htk => ?_⟩
    exact Listing.mem_keys_iff.2 ⟨d', htk ▸ hget⟩
  · rw [Listing.keys_insert, List.mem_append, List.mem_singleton, List.mem_filter]
    by_cases htk : t = k <;> simp [htk]

/-- Defaults that give `t` no other value take in an assignment of it. -/
theorem Defaults.exists_take {ds : Defaults} (hds : ds.Satisfies (Assign.Agrees isControl t v)) {d : Drive}
    (hd : d.val = some v) : ∃ ds', ds.take? t d = some ds' := by
  rw [take?]
  cases hget : ds.get? t with
  | none => exact ⟨_, rfl⟩
  | some d' =>
    have hval : d'.val = some v := ((hds (t, d') ((ds.get?_eq_some_iff t d').1 hget)).1 rfl).1
    exact ⟨ds, if_pos (hval.trans hd.symm)⟩

theorem Defaults.satisfies_of_notMem_keys {ds : Defaults} (h : t ∉ ds.keys) : ds.Satisfies fun a => a.target ≠ t :=
  fun _ he heq => h (heq ▸ List.mem_map_of_mem he)

theorem pinned_of_agrees {driven : List String} (ht : t ∉ driven) (hreads : v.Avoids driven) :
    pinned driven t (some v) = false := pinned_eq_false_iff.2 ⟨ht, hreads⟩

/-- Every default for `t` leaves the nested block. -/
theorem Exchange.lifts_run {stays : String → Drive → Bool} {x : Exchange} {es : List (String × Drive)}
    (houter : x.outer.Satisfies (Assign.Agrees isControl t v)) (hes : ∀ e ∈ es, Assign.Agrees isControl t v ⟨e.1, e.2⟩)
    (hstays : ∀ d, (t, d) ∈ es → stays t d = false) (hinner : t ∉ x.inner.keys) :
    t ∉ (run stays x es).inner.keys ∧
      (t ∈ x.outer.keys ∨ t ∈ es.map Prod.fst → t ∈ (run stays x es).outer.keys) := by
  induction es generalizing x with
  | nil => exact ⟨hinner, fun h => h.resolve_right List.not_mem_nil⟩
  | cons e es ih =>
    obtain ⟨k, d⟩ := e
    obtain ⟨he, hes⟩ := List.forall_mem_cons.1 hes
    have hrest : ∀ d, (t, d) ∈ es → stays t d = false := fun d hd => hstays d (List.mem_cons_of_mem _ hd)
    rw [run_cons, List.map_cons, List.mem_cons]
    by_cases hk : k = t
    · -- The default is taken out, so from here on the outer block drives the signal.
      subst hk
      obtain ⟨ds', htake⟩ := Defaults.exists_take houter (he.1 rfl).1
      have hstep : step stays x (k, d) = { x with outer := ds' } := by
        rw [step, hstays d List.mem_cons_self, htake]
        rfl
      rw [hstep]
      obtain ⟨hin, hout⟩ := ih (x := { x with outer := ds' }) (houter.take he htake) hes hrest hinner
      exact ⟨hin, fun _ => hout (.inl ((Defaults.mem_keys_take htake).2 (.inr rfl)))⟩
    · have hor : (t ∈ x.outer.keys ∨ t = k ∨ t ∈ es.map Prod.fst) → t ∈ x.outer.keys ∨ t ∈ es.map Prod.fst :=
        Or.imp_right fun h => h.resolve_left fun htk => hk htk.symm
      rcases step_cases stays x k d with hkeep | ⟨_, ds', htake, hmove⟩
      · have hinner' : t ∉ Listing.keys (x.inner.insert k d) := by
          rw [Listing.keys_insert, List.mem_append, List.mem_singleton, List.mem_filter]
          exact fun h => h.elim (fun h => hinner h.1) fun h => hk h.symm
        rw [hkeep]
        obtain ⟨hin, hout⟩ := ih (x := { x with inner := x.inner.insert k d }) houter hes hrest hinner'
        exact ⟨hin, fun h => hout (hor h)⟩
      · rw [hmove]
        obtain ⟨hin, hout⟩ := ih (x := { x with outer := ds' }) (houter.take he htake) hes hrest hinner
        exact ⟨hin, fun h => hout ((hor h).imp_left fun h => (Defaults.mem_keys_take htake).2 (.inl h))⟩

theorem Stmt.avoids_targets {s : Stmt} (h : s.Satisfies (Assign.Agrees isControl t v) fun _ => True) :
    v.Avoids s.targets := by
  intro n hn hmem
  obtain ⟨a, ha, rfl⟩ := exists_of_mem_targets s h hmem
  exact ha.2 hn

/-- Statements in whose blocks `t` is a default at most are left without it. Nothing that is kept on the way holds an
assignment of `t` back, as it drives neither `t` nor what its value reads. -/
theorem hoistStmts_lifts : (ss : List Stmt) → Stmt.SatisfiesAll (Assign.Agrees isControl t v) (fun _ => True) ss →
    (∀ s ∈ ss, s.Lifted t) → ∀ (ds : Defaults) (driven : List String), ds.Satisfies (Assign.Agrees isControl t v) →
    t ∉ driven → v.Avoids driven →
    Stmt.Spare t (hoistStmts isControl ds driven ss).2 ∧
      (t ∈ ds.keys ∨ t ∈ Stmt.targetsAll ss → t ∈ (hoistStmts isControl ds driven ss).1.keys)
  | [], _, _, _, _, _, _, _ => ⟨trivial, fun h => h.resolve_right List.not_mem_nil⟩
  | .assign a :: rest, ⟨ha, hrest⟩, hlifted, ds, driven, hds, ht, hreads => by
    have hlifted' : ∀ s ∈ rest, s.Lifted t := fun s hs => hlifted s (List.mem_cons_of_mem _ hs)
    rcases hoistStmts_assign isControl ds driven a rest with ⟨ds', _, htake, hrun⟩ | ⟨hkeep, hrun⟩
    · obtain ⟨hspare, hdrives⟩ := hoistStmts_lifts rest hrest hlifted' ds' driven (hds.take ha htake) ht hreads
      rw [hrun]
      refine ⟨hspare, fun h => hdrives ?_⟩
      rw [Stmt.targetsAll, Stmt.targets, List.singleton_append, List.mem_cons, ← or_assoc] at h
      exact h.imp_left (Defaults.mem_keys_take htake).2
    · have hne : a.target ≠ t := by
        intro heq
        obtain ⟨hval, _⟩ := ha.1 heq
        obtain ⟨ds', htake⟩ := Defaults.exists_take hds hval
        rcases hkeep with hpin | hnone
        · rw [heq, hval, pinned_of_agrees ht hreads] at hpin
          cases hpin
        · rw [heq, htake] at hnone
          cases hnone
      have ht' : t ∉ a.target :: driven := fun h => (List.mem_cons.1 h).elim (fun h => hne h.symm) ht
      have hreads' : v.Avoids (a.target :: driven) := fun n hn hmem =>
        (List.mem_cons.1 hmem).elim (fun h => ha.2 (h ▸ hn)) (hreads n hn)
      obtain ⟨hspare, hdrives⟩ := hoistStmts_lifts rest hrest hlifted' ds (a.target :: driven) hds ht' hreads'
      rw [hrun]
      refine ⟨⟨hne, hspare⟩, fun h => hdrives (h.imp_right fun h => ?_)⟩
      rw [Stmt.targetsAll, Stmt.targets, List.singleton_append, List.mem_cons] at h
      exact h.resolve_left fun h => hne h.symm
  | .block g inner ss :: rest, ⟨⟨_, hinner, hss⟩, hrest⟩, hlifted, ds, driven, hds, ht, hreads => by
    have hspare : Stmt.Spare t ss := hlifted _ List.mem_cons_self
    have hstays : ∀ d, (t, d) ∈ inner.entries → stays isControl driven g t d = false := by
      intro d hd
      obtain ⟨hval, hfree⟩ := (hinner _ hd).1 rfl
      have hpin : pinned driven t d.val = false := by
        rw [show d.val = some v from hval, pinned_of_agrees ht hreads]
      rw [stays, hpin, hfree, Bool.false_or, Bool.and_false]
    obtain ⟨hin, hout⟩ := Exchange.lifts_run (x := ⟨ds, .empty⟩) hds hinner hstays List.not_mem_nil
    obtain ⟨houter', hinner'⟩ := Exchange.satisfies_run (stays isControl driven g) (x := ⟨ds, .empty⟩) hds
      (fun e he => absurd he List.not_mem_nil) hinner
    rw [hoistStmts_block]
    dsimp only
    generalize Exchange.run (stays isControl driven g) ⟨ds, .empty⟩ inner.entries = x at hin hout houter' hinner' ⊢
    have hkept : (Stmt.block g x.inner ss).Satisfies (Assign.Agrees isControl t v) fun _ => True :=
      ⟨fun _ _ => trivial, hinner', hss⟩
    have hkeptSpare : Stmt.Spare t [.block g x.inner ss] :=
      ⟨⟨fun _ _ => trivial, Defaults.satisfies_of_notMem_keys hin, hspare⟩, trivial⟩
    have htargets : t ∉ (Stmt.block g x.inner ss).targets := by
      simpa [Stmt.targetsAll] using hkeptSpare.notMem_targets
    have ht' : t ∉ (Stmt.block g x.inner ss).targets ++ driven :=
      fun h => (List.mem_append.1 h).elim htargets ht
    have hreads' : v.Avoids ((Stmt.block g x.inner ss).targets ++ driven) := fun n hn hmem =>
      (List.mem_append.1 hmem).elim (Stmt.avoids_targets hkept n hn) (hreads n hn)
    have hlifted' : ∀ s ∈ rest, s.Lifted t := fun s hs => hlifted s (List.mem_cons_of_mem _ hs)
    obtain ⟨hspare', hdrives⟩ := hoistStmts_lifts rest hrest hlifted' x.outer _ houter' ht' hreads'
    refine ⟨⟨hkeptSpare.1, hspare'⟩, fun h => hdrives ?_⟩
    rw [Stmt.targetsAll, Stmt.targets, List.mem_append, List.mem_append] at h
    rcases h with h | (h | h) | h
    · exact .inl (hout (.inl h))
    · exact .inl (hout (.inr h))
    · exact absurd h hspare.notMem_targets
    · exact .inr h

end Hoist

section Rounds

variable (isControl : Assign → Bool) (t : String) (v : Expr)

/-- A block that agrees on `t` and whose nested blocks drive it by defaults at most. -/
structure Block.Ready (b : Block) : Prop where
  agrees : b.Satisfies (Assign.Agrees isControl t v) fun _ => True
  nested : ∀ s ∈ b.stmts, s.Lifted t

variable {isControl t v}

theorem Defaults.mem_keys_cleanup {ds : Defaults} (h : ds.Satisfies (Assign.Agrees isControl t v)) (ht : t ∈ ds.keys) :
    t ∈ (Defaults.cleanup ds).keys := by
  obtain ⟨d, hd⟩ := Listing.mem_keys_iff.1 ht
  have hval : d.val = some v := ((h (t, d) ((ds.get?_eq_some_iff t d).1 hd)).1 rfl).1
  refine Listing.mem_keys_iff.2 ⟨d, ?_⟩
  rw [cleanup, Listing.get?_filter, hd, Option.filter_some, hval]
  rfl

/-- One round takes `t` out of the statements of a block. -/
theorem propagate_lifts {b : Block} (h : b.Ready isControl t v) :
    (propagate isControl b).Lifted t ∧ (t ∈ b.targets → t ∈ (propagate isControl b).dflts.keys) := by
  obtain ⟨_, hds, hss⟩ := h.agrees
  obtain ⟨hspare, hdrives⟩ := hoistStmts_lifts b.stmts hss h.nested b.dflts [] hds List.not_mem_nil
    fun _ _ => List.not_mem_nil
  have hkept := (hoistStmts_satisfies isControl b.stmts hss b.dflts [] hds).1
  refine ⟨(hspare.cleanup.pushDown _ _).cleanup, fun ht => ?_⟩
  have hhoist := hdrives (List.mem_append.1 ht)
  exact Defaults.mem_keys_cleanup (hkept.filter _) (Defaults.mem_keys_cleanup hkept hhoist)

theorem Block.Ready.propagate {b : Block} (h : b.Ready isControl t v) :
    (Comb.propagate isControl b).Ready isControl t v :=
  ⟨propagate_satisfies isControl h.agrees, (propagate_lifts h).1.lifted⟩

theorem Block.mem_targets_of_dflts {b : Block} (h : t ∈ b.dflts.keys) : t ∈ b.targets := List.mem_append_left _ h

theorem updateDefaults_lifts {b : Block} (h : b.Ready isControl t v) :
    (updateDefaults isControl b).Lifted t ∧ (t ∈ b.targets → t ∈ (updateDefaults isControl b).dflts.keys) := by
  obtain ⟨hready, hkeep⟩ : (updateDefaults isControl b).Ready isControl t v ∧
      (t ∈ b.targets → t ∈ (updateDefaults isControl b).targets) :=
    settle_invariant (R := fun b b' : Block => t ∈ b.targets → t ∈ b'.targets) (fun _ => id)
      (fun _ _ _ h h' ht => h' (h ht))
      (fun _ hb => ⟨hb.propagate, fun ht => Block.mem_targets_of_dflts ((propagate_lifts hb).2 ht)⟩) b.weight h
  -- A further round changes nothing, and it lifts.
  have hlast := propagate_lifts hready
  rw [propagate_updateDefaults] at hlast
  exact ⟨hlast.1, fun ht => hlast.2 (hkeep ht)⟩

mutual
theorem Stmt.lifts_updateDefaults : (s : Stmt) → s.Satisfies (Assign.Agrees isControl t v) (fun _ => True) →
    (s.updateDefaults isControl).Lifted t ∧ (t ∈ s.targets → t ∈ (s.updateDefaults isControl).targets)
  | .assign _, _ => ⟨trivial, id⟩
  | .block g ds ss, ⟨hg, hds, hss⟩ => by
    obtain ⟨hnested, hkeep⟩ := lifts_updateDefaultsAll ss hss
    have hready : Block.Ready isControl t v ⟨g, ds, Stmt.updateDefaultsAll isControl ss⟩ :=
      ⟨⟨hg, hds, satisfiesAll_updateDefaultsAll isControl ss hss⟩, hnested⟩
    obtain ⟨hlifted, hdrives⟩ := updateDefaults_lifts hready
    refine ⟨hlifted, fun ht => Block.mem_targets_of_dflts (hdrives ?_)⟩
    exact List.mem_append.2 ((List.mem_append.1 ht).imp_right hkeep)
theorem Stmt.lifts_updateDefaultsAll : (ss : List Stmt) →
    Stmt.SatisfiesAll (Assign.Agrees isControl t v) (fun _ => True) ss →
    (∀ s ∈ Stmt.updateDefaultsAll isControl ss, s.Lifted t) ∧
      (t ∈ Stmt.targetsAll ss → t ∈ Stmt.targetsAll (Stmt.updateDefaultsAll isControl ss))
  | [], _ => ⟨by simp [updateDefaultsAll], id⟩
  | s :: ss, ⟨hs, hss⟩ => by
    obtain ⟨hlifted, hkeep⟩ := lifts_updateDefaults s hs
    obtain ⟨hlifteds, hkeeps⟩ := lifts_updateDefaultsAll ss hss
    refine ⟨List.forall_mem_cons.2 ⟨hlifted, hlifteds⟩, fun ht => ?_⟩
    exact List.mem_append.2 ((List.mem_append.1 ht).imp hkeep hkeeps)
end

theorem updateEach_lifts {b : Block} (h : b.Satisfies (Assign.Agrees isControl t v) fun _ => True) :
    (updateEach isControl b).Lifted t ∧ (t ∈ b.targets → t ∈ (updateEach isControl b).dflts.keys) := by
  obtain ⟨hg, hds, hss⟩ := h
  obtain ⟨hnested, hkeep⟩ := Stmt.lifts_updateDefaultsAll b.stmts hss
  have hready : Block.Ready isControl t v { b with stmts := Stmt.updateDefaultsAll isControl b.stmts } :=
    ⟨⟨hg, hds, Stmt.satisfiesAll_updateDefaultsAll isControl b.stmts hss⟩, hnested⟩
  obtain ⟨hlifted, hdrives⟩ := updateDefaults_lifts hready
  exact ⟨hlifted, fun ht => hdrives (List.mem_append.2 ((List.mem_append.1 ht).imp_right hkeep))⟩

theorem updateDefaultsTree_lifts {b : Block} (h : b.Satisfies (Assign.Agrees isControl t v) fun _ => True)
    (ht : t ∈ b.targets) :
    (updateDefaultsTree isControl b).Lifted t ∧ t ∈ (updateDefaultsTree isControl b).dflts.keys := by
  obtain ⟨hagrees, hkeep⟩ : (updateDefaultsTree isControl b).Satisfies (Assign.Agrees isControl t v) (fun _ => True) ∧
      (t ∈ b.targets → t ∈ (updateDefaultsTree isControl b).targets) :=
    settle_invariant (R := fun b b' : Block => t ∈ b.targets → t ∈ b'.targets) (fun _ => id)
      (fun _ _ _ h h' ht => h' (h ht)) (fun b hb => ⟨Stmt.satisfies_updateDefaults isControl b.toStmt hb,
        fun ht => Block.mem_targets_of_dflts ((updateEach_lifts hb).2 ht)⟩) b.weight h
  obtain ⟨_, _, hsettles⟩ := updateDefaultsTree_settles isControl b
  obtain ⟨hlifted, hdrives⟩ := updateEach_lifts hagrees
  rw [hsettles.fixed] at hlifted hdrives
  exact ⟨hlifted, hdrives (hkeep ht)⟩

end Rounds

theorem Defaults.filter_assigns {ds : Defaults} {t : String} {d : Drive} (h : ds.get? t = some d) :
    ds.assigns.filter (fun a => a.target = t) = [⟨t, d⟩] := by
  obtain ⟨pre, post, hsplit⟩ := List.append_of_mem ((ds.get?_eq_some_iff t d).1 h)
  have hnodup := ds.nodup
  rw [hsplit, List.map_append, List.map_cons, List.nodup_append, List.nodup_cons] at hnodup
  obtain ⟨_, ⟨hpost, _⟩, hpre⟩ := hnodup
  have hnone : ∀ es : List (String × Drive), t ∉ es.map Prod.fst →
      (es.map fun e => (⟨e.1, e.2⟩ : Assign)).filter (fun a => a.target = t) = [] := by
    intro es hes
    rw [List.filter_eq_nil_iff]
    intro a ha htarget
    obtain ⟨e, he, rfl⟩ := List.mem_map.1 ha
    exact hes (of_decide_eq_true htarget ▸ List.mem_map_of_mem he)
  rw [assigns, hsplit, List.map_append, List.map_cons, List.filter_append, List.filter_cons_of_pos (by simp),
    hnone pre fun ht => hpre t ht t List.mem_cons_self rfl, hnone post hpost, List.nil_append]

theorem Stmt.Spare.filter_assigns {t : String} {ss : List Stmt} (h : Stmt.Spare t ss) :
    (Stmt.assignsAll ss).filter (fun a => a.target = t) = [] := by
  rw [List.filter_eq_nil_iff]
  intro a ha htarget
  refine h.notMem_targets ?_
  rw [targetsAll_eq, settingsAll, List.map_map]
  exact List.mem_map.2 ⟨a, ha, of_decide_eq_true htarget⟩

/-- A signal that gets the same value `v` wherever a tree drives it is driven once after propagation, by a default of
the outermost block. None of its drives may be a control, and `v` may not read what the tree drives. -/
theorem uniform_target_driven_once (isControl : Assign → Bool) (b : Block) {t : String} {v : Expr}
    (hdriven : ∃ a ∈ b.assigns, a.target = t) (hval : ∀ a ∈ b.assigns, a.target = t → a.val = some v)
    (hfree : ∀ a ∈ b.assigns, a.target = t → isControl a = false) (hreads : v.Avoids b.targets) :
    ∃ a ∈ b.assigns, a.target = t ∧ a.val = some v ∧ (updateDefaultsTree isControl b).dflts.get? t = some a.drive ∧
      (updateDefaultsTree isControl b).assigns.filter (fun a => a.target = t) = [a] := by
  have htargets : ∀ a ∈ b.assigns, a.target ∈ b.targets := fun a ha =>
    Stmt.mem_targets_of_setting (s := b.toStmt) (x := a.setting) (List.mem_map_of_mem ha)
  -- The drives of the result are among those of the tree, so what holds of these holds of it.
  have hagrees : b.Satisfies (fun a => a.Agrees isControl t v ∧ a ∈ b.assigns) fun _ => True :=
    Stmt.satisfies_of_mem b.toStmt (fun a ha _ => ⟨⟨fun heq => ⟨hval a ha heq, hfree a ha heq⟩,
      fun hmem => hreads _ hmem (htargets a ha)⟩, ha⟩) fun _ _ => trivial
  have ht : t ∈ b.targets := by
    obtain ⟨a, ha, rfl⟩ := hdriven
    exact htargets a ha
  obtain ⟨hlifted, hkey⟩ := updateDefaultsTree_lifts (hagrees.mono (fun _ ha => ha.1) fun _ he => he) ht
  obtain ⟨d, hd⟩ := Listing.mem_keys_iff.1 hkey
  obtain ⟨hagree, hmem⟩ := (updateDefaultsTree_satisfies isControl b hagrees).2.1 (t, d)
    ((Listing.get?_eq_some_iff _ t d).1 hd)
  refine ⟨⟨t, d⟩, hmem, rfl, (hagree.1 rfl).1, hd, ?_⟩
  rw [Block.assigns, List.filter_append, Defaults.filter_assigns hd, hlifted.filter_assigns, List.append_nil]

/-- A level that two nested guards and a statement after them set to 3, amid a count that changes all the time. -/
def scattered : Block :=
  .of none
    [.assign (.of "count" (.literal 0 (.uint 8)) 8),
      .block (some (.flag "a")) .empty
        [.assign (.of "count" (.literal 1 (.uint 8)) 8),
          .block (some (.flag "b")) (.ofList [("level", ⟨some (.literal 3 (.uint 8)), 8⟩)])
            [.assign (.of "count" (.literal 0 (.uint 8)) 8)],
          .block none .empty [.assign (.flag "en" (.bool true)), .assign (.of "level" (.literal 3 (.uint 8)) 4)]],
      .assign (.of "level" (.literal 3 (.uint 8)) 8)]

/-- The level is driven once, and the changes of the count and the control signal stay in their guards. -/
theorem scattered_sets_level_once :
    updateDefaultsTree (fun a => a.target == "en") scattered =
      ⟨none, .ofList [("count", ⟨some (.literal 0 (.uint 8)), 8⟩), ("level", ⟨some (.literal 3 (.uint 8)), 8⟩)],
        [.block (some (.flag "a"))
          (.ofList [("count", ⟨some (.literal 1 (.uint 8)), 8⟩), ("en", ⟨some (.bool true), 1⟩)])
          [.block (some (.flag "b")) (.ofList [("count", ⟨some (.literal 0 (.uint 8)), 8⟩)]) []]]⟩ ∧
    ∃ a ∈ scattered.assigns, a.target = "level" ∧ a.val = some (.literal 3 (.uint 8)) ∧
      (updateDefaultsTree (fun a => a.target == "en") scattered).dflts.get? "level" = some a.drive ∧
      (updateDefaultsTree (fun a => a.target == "en") scattered).assigns.filter (fun a => a.target = "level") = [a] :=
  ⟨by decide +kernel,
    uniform_target_driven_once (fun a => a.target == "en") scattered (by decide) (by decide) (by decide) (by decide)⟩

end Comb

end Sequencer
