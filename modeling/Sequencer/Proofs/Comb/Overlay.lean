import Sequencer.Comb.Defaults
import Sequencer.Proofs.Comb.Execution

set_option autoImplicit false

/-!
# Reads of what is driven

A statement changes the signals that it drives and depends on those that it reads. Where reads see what has been driven
so far, two statements may change places if neither drives what the other one reads or drives.
-/

namespace Sequencer

namespace Comb

/-- The signals that a value reads. -/
def valueReads (v : Option Expr) : List String := v.elim [] Expr.reads

theorem pinned_eq_false_iff {ns : List String} {t : String} {v : Option Expr} :
    pinned ns t v = false ↔ t ∉ ns ∧ ∀ n ∈ valueReads v, n ∉ ns := by
  rw [pinned, Bool.or_eq_false_iff, valueReads]
  simp

theorem pinned_mono {ns ns' : List String} (h : ns ⊆ ns') {t : String} {v : Option Expr} (hp : pinned ns t v = true) :
    pinned ns' t v = true := by
  by_contra hn
  rw [Bool.not_eq_true, pinned_eq_false_iff] at hn
  rw [← Bool.not_eq_false, pinned_eq_false_iff] at hp
  exact hp ⟨fun ht => hn.1 (h ht), fun n hm hns => hn.2 n hm (h hns)⟩

/-- A signal and a value for it. -/
abbrev Setting := String × Option Expr

def Assign.setting (a : Assign) : Setting := (a.target, a.val)

def Defaults.settings (ds : Defaults) : List Setting := ds.entries.map fun e => (e.1, e.2.val)

def Stmt.settings (s : Stmt) : List Setting := s.assigns.map Assign.setting

def Stmt.settingsAll (ss : List Stmt) : List Setting := (Stmt.assignsAll ss).map Assign.setting

mutual
/-- The signals that a statement reads, in guards and values. -/
def Stmt.reads : Stmt → List String
  | .assign a => valueReads a.val
  | .block g ds ss => valueReads g ++ ds.settings.flatMap (fun x => valueReads x.2) ++ Stmt.readsAll ss
def Stmt.readsAll : List Stmt → List String
  | [] => []
  | s :: ss => s.reads ++ Stmt.readsAll ss
end

theorem Defaults.settings_assigns (ds : Defaults) : ds.assigns.map Assign.setting = ds.settings := by
  simp [assigns, settings, Assign.setting, Assign.val]

theorem Defaults.keys_settings (ds : Defaults) : ds.settings.map Prod.fst = ds.keys := by
  simp [settings, Listing.keys]

theorem Stmt.settings_block (g : Cond) (ds : Defaults) (ss : List Stmt) :
    (Stmt.block g ds ss).settings = ds.settings ++ Stmt.settingsAll ss := by
  rw [settings, assigns, List.map_append, Defaults.settings_assigns, settingsAll]

theorem Stmt.settingsAll_cons (s : Stmt) (ss : List Stmt) :
    Stmt.settingsAll (s :: ss) = s.settings ++ Stmt.settingsAll ss := by
  rw [settingsAll, assignsAll, List.map_append, settings, settingsAll]

theorem Stmt.settingsAll_append (ss ts : List Stmt) :
    Stmt.settingsAll (ss ++ ts) = Stmt.settingsAll ss ++ Stmt.settingsAll ts := by
  rw [settingsAll, assignsAll_append, List.map_append, settingsAll, settingsAll]

theorem Stmt.readsAll_append (ss ts : List Stmt) : Stmt.readsAll (ss ++ ts) = Stmt.readsAll ss ++ Stmt.readsAll ts := by
  induction ss with
  | nil => rfl
  | cons s ss ih => rw [List.cons_append, readsAll, readsAll, ih, List.append_assoc]

mutual
/-- What is driven are the signals of the settings. -/
theorem Stmt.targets_eq : (s : Stmt) → s.targets = s.settings.map Prod.fst
  | .assign _ => rfl
  | .block g ds ss => by
    rw [settings_block, targets, List.map_append, targetsAll_eq ss, Defaults.keys_settings]
theorem Stmt.targetsAll_eq : (ss : List Stmt) → Stmt.targetsAll ss = (Stmt.settingsAll ss).map Prod.fst
  | [] => rfl
  | s :: ss => by rw [settingsAll_cons, targetsAll, List.map_append, targets_eq s, targetsAll_eq ss]
end

theorem Stmt.mem_targets_of_setting {s : Stmt} {x : Setting} (h : x ∈ s.settings) : x.1 ∈ s.targets := by
  rw [targets_eq]
  exact List.mem_map_of_mem h

mutual
/-- The values of the settings are among what a statement reads. -/
theorem Stmt.mem_reads_of_setting {x : Setting} {n : String} (hn : n ∈ valueReads x.2) : (s : Stmt) → x ∈ s.settings →
    n ∈ s.reads
  | .assign a, h => by
    obtain rfl : x = a.setting := List.mem_singleton.1 h
    exact hn
  | .block g ds ss, h => by
    rw [settings_block, List.mem_append] at h
    rw [reads, List.mem_append, List.mem_append]
    rcases h with h | h
    · exact .inl (.inr (List.mem_flatMap.2 ⟨x, h, hn⟩))
    · exact .inr (mem_readsAll_of_setting hn ss h)
theorem Stmt.mem_readsAll_of_setting {x : Setting} {n : String} (hn : n ∈ valueReads x.2) : (ss : List Stmt) →
    x ∈ Stmt.settingsAll ss → n ∈ Stmt.readsAll ss
  | [], h => absurd h List.not_mem_nil
  | s :: ss, h => by
    rw [settingsAll_cons, List.mem_append] at h
    rw [readsAll, List.mem_append]
    exact h.imp (mem_reads_of_setting hn s) (mem_readsAll_of_setting hn ss)
end

section Frame

variable {V : Type} (I : Interpretation V) (view : Store V → Valuation V) {n : String}

theorem Assign.exec_of_val {a : Assign} {e : Expr} (h : a.val = some e) (σ : Store V) :
    a.exec I view σ = Function.update σ a.target (some (e.eval I (view σ))) := by
  rw [exec, h]

theorem Assign.exec_of_ne (a : Assign) (h : n ≠ a.target) (σ : Store V) : a.exec I view σ n = σ n := by
  unfold exec
  cases a.val with
  | none => rfl
  | some e => exact Function.update_of_ne h _ _

theorem execAssigns_of_notMem {as : List Assign} (h : n ∉ as.map Assign.target) (σ : Store V) :
    execAssigns I view as σ n = σ n := by
  induction as generalizing σ with
  | nil => rfl
  | cons a as ih =>
    rw [List.map_cons, List.mem_cons, not_or] at h
    exact (ih h.2 _).trans (a.exec_of_ne I view h.1 σ)

theorem Defaults.target_assigns (ds : Defaults) : ds.assigns.map Assign.target = ds.keys := by
  simp [assigns, Listing.keys]

mutual
/-- A statement leaves alone what it does not drive. -/
theorem Stmt.exec_of_notMem : (s : Stmt) → n ∉ s.targets → ∀ σ : Store V, s.exec I view σ n = σ n
  | .assign a, h, σ => a.exec_of_ne I view (fun hn => h (List.mem_singleton.2 hn)) σ
  | .block g ds ss, h, σ => by
    rw [targets, List.mem_append, not_or] at h
    rw [exec]
    split
    · rw [execAll_of_notMem ss h.2, execAssigns_of_notMem I view (ds.target_assigns ▸ h.1)]
    · rfl
theorem Stmt.execAll_of_notMem : (ss : List Stmt) → n ∉ Stmt.targetsAll ss → ∀ σ : Store V,
    Stmt.execAll I view ss σ n = σ n
  | [], _, _ => rfl
  | s :: ss, h, σ => by
    rw [targetsAll, List.mem_append, not_or] at h
    rw [execAll, execAll_of_notMem ss h.2, exec_of_notMem s h.1]
end

end Frame

section Overlay

variable {V : Type} (I : Interpretation V) (ρ : Valuation V)

theorem eval_overlay_congr {σ σ' : Store V} {e : Expr} (h : ∀ n ∈ e.reads, σ n = σ' n) :
    e.eval I (ρ.overlay σ) = e.eval I (ρ.overlay σ') := by
  rw [e.reads_eq] at h
  refine e.eval_congr I (fun o ho => ?_) fun w hw => ?_
  · have hσ : σ o.signal = σ' o.signal := h _ (List.mem_flatMap.2 ⟨_, ho, by simp [Expr.reads]⟩)
    exact congrArg (fun v => v.getD (ρ.operand o)) hσ
  · have hσ : σ w.name = σ' w.name := h _ (List.mem_flatMap.2 ⟨_, hw, by simp [Expr.reads]⟩)
    exact congrArg (fun v => v.getD (ρ.wire w)) hσ

theorem holds_overlay_congr {σ σ' : Store V} {g : Cond} (h : ∀ n ∈ valueReads g, σ n = σ' n) :
    Cond.holds I (ρ.overlay σ) g = Cond.holds I (ρ.overlay σ') g := by
  cases g with
  | none => rfl
  | some e => exact congrArg I.truth (eval_overlay_congr I ρ h)

/-- Drives nothing that the other part drives or reads, and reads nothing that it drives. -/
structure Assign.Independent (a : Assign) (targets reads : List String) : Prop where
  target : a.target ∉ targets
  unread : a.target ∉ reads
  reads : ∀ n ∈ valueReads a.val, n ∉ targets

theorem Assign.exec_comm {a b : Assign} (h : a.Independent [b.target] (valueReads b.val)) (σ : Store V) :
    a.exec I ρ.overlay (b.exec I ρ.overlay σ) = b.exec I ρ.overlay (a.exec I ρ.overlay σ) := by
  obtain ⟨hne, hunread, hreads⟩ := h
  have hne : b.target ≠ a.target := fun heq => hne (List.mem_singleton.2 heq.symm)
  cases ha : a.val with
  | none => simp [exec, ha]
  | some e =>
    cases hb : b.val with
    | none => simp [exec, hb]
    | some e' =>
      rw [ha] at hreads
      rw [hb] at hunread
      have heval : e.eval I (ρ.overlay (b.exec I ρ.overlay σ)) = e.eval I (ρ.overlay σ) :=
        eval_overlay_congr I ρ fun n hn => b.exec_of_ne I _ (fun heq => hreads n hn (List.mem_singleton.2 heq)) σ
      have heval' : e'.eval I (ρ.overlay (a.exec I ρ.overlay σ)) = e'.eval I (ρ.overlay σ) :=
        eval_overlay_congr I ρ fun n hn => a.exec_of_ne I _ (fun heq => hunread (heq ▸ hn)) σ
      rw [exec_of_val I _ ha, heval, exec_of_val I _ hb, exec_of_val I _ hb, heval', exec_of_val I _ ha,
        Function.update_comm hne]

theorem execAssigns_comm {a : Assign} {as : List Assign}
    (h : a.Independent (as.map Assign.target) (as.flatMap fun b => valueReads b.val)) (σ : Store V) :
    a.exec I ρ.overlay (execAssigns I ρ.overlay as σ) = execAssigns I ρ.overlay as (a.exec I ρ.overlay σ) := by
  induction as generalizing σ with
  | nil => rfl
  | cons b as ih =>
    obtain ⟨htarget, hunread, hreads⟩ := h
    rw [List.map_cons, List.mem_cons, not_or] at htarget
    rw [List.flatMap_cons, List.mem_append, not_or] at hunread
    have hhead : a.Independent [b.target] (valueReads b.val) :=
      ⟨fun hb => htarget.1 (List.mem_singleton.1 hb), hunread.1,
        fun n hn hb => hreads n hn (List.mem_singleton.1 hb ▸ List.mem_cons_self)⟩
    have htail := ih ⟨htarget.2, hunread.2, fun n hn hb => hreads n hn (List.mem_cons_of_mem _ hb)⟩ (b.exec I ρ.overlay σ)
    rw [Assign.exec_comm I ρ hhead] at htail
    exact htail

mutual
/-- An assignment may change places with a statement that it stands apart from. -/
theorem Stmt.exec_comm {a : Assign} : (s : Stmt) → a.Independent s.targets s.reads → ∀ σ : Store V,
    a.exec I ρ.overlay (s.exec I ρ.overlay σ) = s.exec I ρ.overlay (a.exec I ρ.overlay σ)
  | .assign b, h, σ => Assign.exec_comm I ρ h σ
  | .block g ds ss, ⟨htarget, hunread, hreads⟩, σ => by
    rw [targets, List.mem_append, not_or] at htarget
    rw [reads, List.mem_append, List.mem_append, not_or, not_or] at hunread
    have hguard : Cond.holds I (ρ.overlay (a.exec I ρ.overlay σ)) g = Cond.holds I (ρ.overlay σ) g :=
      holds_overlay_congr I ρ fun n hn => a.exec_of_ne I _ (fun heq => hunread.1.1 (heq ▸ hn)) σ
    have hds : a.Independent (ds.assigns.map Assign.target) (ds.assigns.flatMap fun b => valueReads b.val) := by
      rw [Defaults.target_assigns]
      refine ⟨htarget.1, fun hmem => hunread.1.2 ?_, fun n hn hb => hreads n hn (List.mem_append_left _ hb)⟩
      rw [← Defaults.settings_assigns, List.flatMap_map]
      exact hmem
    rw [exec, exec, hguard]
    split
    · rw [execAll_comm ss ⟨htarget.2, hunread.2, fun n hn hb => hreads n hn (List.mem_append_right _ hb)⟩,
        execAssigns_comm I ρ hds]
    · rfl
theorem Stmt.execAll_comm {a : Assign} : (ss : List Stmt) → a.Independent (Stmt.targetsAll ss) (Stmt.readsAll ss) →
    ∀ σ : Store V, a.exec I ρ.overlay (Stmt.execAll I ρ.overlay ss σ) =
      Stmt.execAll I ρ.overlay ss (a.exec I ρ.overlay σ)
  | [], _, _ => rfl
  | s :: ss, ⟨htarget, hunread, hreads⟩, σ => by
    rw [targetsAll, List.mem_append, not_or] at htarget
    rw [readsAll, List.mem_append, not_or] at hunread
    rw [execAll, execAll_comm ss ⟨htarget.2, hunread.2, fun n hn hb => hreads n hn (List.mem_append_right _ hb)⟩,
      exec_comm s ⟨htarget.1, hunread.1, fun n hn hb => hreads n hn (List.mem_append_left _ hb)⟩, execAll]
end

end Overlay

end Comb

end Sequencer
