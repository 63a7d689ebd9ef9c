import Sequencer.Proofs.Condition.Solution
import Sequencer.Proofs.Expr.Simplify
import Sequencer.Proofs.Listing

set_option autoImplicit false

/-!
# Simplification of condition networks keeps their meaning

Each of the three rewrites keeps the names of the conditions in their order, creates no circle of references, and has
the solution of the old network as its own. The trees change by a renaming of conditions under which the solution is
the same.
-/

namespace Sequencer

open Comb

namespace Expr

/-- Renames the wires. -/
def rename (r : String → String) (e : Expr) : Expr := e.substitute .operand fun w => .wire ⟨r w.name, w.width⟩

theorem rename_rename (r s : String → String) (e : Expr) : (e.rename r).rename s = e.rename (s ∘ r) :=
  substitute_substitute _ _ _ _ e

@[simp]
theorem rename_id (e : Expr) : e.rename id = e := substitute_self e

theorem LeavesSatisfy.rename {P : Expr → Prop} {r : String → String}
    (hr : ∀ w, P (.wire w) → P (.wire ⟨r w.name, w.width⟩)) {e : Expr} (he : e.LeavesSatisfy P) :
    (e.rename r).LeavesSatisfy P := by
  intro x hx
  rcases mem_leaves_substitute _ _ x e hx with ⟨_, _, hx⟩ | ⟨o, ho, hx⟩ | ⟨w, hw, hx⟩
  · exact he x hx
  · have : x = .operand o := by simpa [leaves] using hx
    exact this ▸ he _ ho
  · have : x = .wire ⟨r w.name, w.width⟩ := by simpa [leaves] using hx
    exact this ▸ hr w (he _ hw)

end Expr

namespace Comb

mutual
theorem Stmt.mapExprs_mapExprs (f g : Expr → Expr) : (s : Stmt) → (s.mapExprs f).mapExprs g = s.mapExprs (g ∘ f)
  | .assign a => by simp [Stmt.mapExprs, Drive.map]
  | .block h d ss => by
    simp [Stmt.mapExprs, Stmt.mapExprsAll_mapExprsAll f g ss, Listing.ext_iff, Drive.map, Function.comp_def]
theorem Stmt.mapExprsAll_mapExprsAll (f g : Expr → Expr) : (ss : List Stmt) →
    Stmt.mapExprsAll g (Stmt.mapExprsAll f ss) = Stmt.mapExprsAll (g ∘ f) ss
  | [] => rfl
  | s :: ss => by
    simp only [Stmt.mapExprsAll, Stmt.mapExprs_mapExprs f g s, Stmt.mapExprsAll_mapExprsAll f g ss]
end

theorem Block.mapExprs_mapExprs (f g : Expr → Expr) (b : Block) : (b.mapExprs f).mapExprs g = b.mapExprs (g ∘ f) := by
  simp [Block.mapExprs, Stmt.mapExprsAll_mapExprsAll, Listing.ext_iff, Drive.map, Function.comp_def]

mutual
theorem Stmt.mapExprs_id : (s : Stmt) → s.mapExprs id = s
  | .assign a => by simp [Stmt.mapExprs, Drive.map]
  | .block h d ss => by simp [Stmt.mapExprs, Stmt.mapExprsAll_id ss, Listing.ext_iff, Drive.map]
theorem Stmt.mapExprsAll_id : (ss : List Stmt) → Stmt.mapExprsAll id ss = ss
  | [] => rfl
  | s :: ss => by simp only [Stmt.mapExprsAll, Stmt.mapExprs_id s, Stmt.mapExprsAll_id ss]
end

theorem Block.mapExprs_id (b : Block) : b.mapExprs id = b := by
  have hd : b.dflts.map (Drive.map id) = b.dflts := by simp [Listing.ext_iff, Drive.map]
  rw [Block.mapExprs, Stmt.mapExprsAll_id, hd, Option.map_id_fun, id]

mutual
theorem Stmt.exprs_mapExprs (f : Expr → Expr) : (s : Stmt) → (s.mapExprs f).exprs = s.exprs.map f
  | .assign ⟨_, val, _⟩ => by cases val <;> rfl
  | .block g d ss => by
    have hdflts : (d.map (Drive.map f)).values.flatMap (fun x => x.val.toList) =
        (d.values.flatMap fun x => x.val.toList).map f := by
      have hvalues : (d.map (Drive.map f)).values = d.values.map (Drive.map f) := by simp [Listing.values, Listing.map]
      rw [hvalues, List.flatMap_map, List.map_flatMap]
      refine List.flatMap_congr fun x _ => ?_
      obtain ⟨val, _⟩ := x
      cases val <;> rfl
    have hguard : (g.map f).toList = g.toList.map f := by cases g <;> rfl
    simp only [Stmt.mapExprs, Stmt.exprs, Stmt.exprsAll_mapExprsAll f ss, hdflts, hguard, List.map_append]
theorem Stmt.exprsAll_mapExprsAll (f : Expr → Expr) : (ss : List Stmt) →
    Stmt.exprsAll (Stmt.mapExprsAll f ss) = (Stmt.exprsAll ss).map f
  | [] => rfl
  | s :: ss => by
    simp only [Stmt.mapExprsAll, Stmt.exprsAll, Stmt.exprs_mapExprs f s, Stmt.exprsAll_mapExprsAll f ss, List.map_append]
end

theorem Block.exprs_mapExprs (f : Expr → Expr) (b : Block) : (b.mapExprs f).exprs = b.exprs.map f :=
  b.toStmt.exprs_mapExprs f

end Comb

namespace Network

/-! ## Minimizing each condition -/

/-- The condition `c'` has the simplified value of `c`. -/
def Minimizes (maxAtoms : Nat) (c c' : Assign) : Prop :=
  c.val = none ∧ c' = c ∨ ∃ v v', c.val = some v ∧ v.simplify maxAtoms = .ok v' ∧ c' = withVal c v'

theorem Minimizes.target_eq {maxAtoms : Nat} {c c' : Assign} (h : Minimizes maxAtoms c c') :
    c'.target = c.target := by
  rcases h with ⟨_, rfl⟩ | ⟨_, _, _, _, rfl⟩
  · rfl
  · rfl

theorem simplifyEach_minimizes {maxAtoms : Nat} {cs cs' : List Assign} (h : simplifyEach maxAtoms cs = .ok cs') :
    List.Forall₂ (Minimizes maxAtoms) cs cs' := by
  induction cs generalizing cs' with
  | nil =>
    cases h
    exact .nil
  | cons c cs ih =>
    rw [simplifyEach] at h
    split at h
    · rename_i v hv
      rw [Checked.bind_eq_ok] at h
      obtain ⟨v', hv', h⟩ := h
      rw [Checked.pure_eq_ok, Checked.ok_bind, Checked.bind_eq_ok] at h
      obtain ⟨ds, hds, h⟩ := h
      cases h
      exact .cons (.inr ⟨v, v', hv, hv', rfl⟩) (ih hds)
    · rename_i hv
      rw [Checked.pure_eq_ok, Checked.ok_bind, Checked.bind_eq_ok] at h
      obtain ⟨ds, hds, h⟩ := h
      cases h
      exact .cons (.inl ⟨hv, rfl⟩) (ih hds)

theorem names_eq_of_forall₂ {R : Assign → Assign → Prop} (hR : ∀ c d, R c d → d.target = c.target)
    {cs ds : List Assign} (h : List.Forall₂ R cs ds) : names ds = names cs := by
  induction h with
  | nil => rfl
  | cons hcd _ ih => exact congrArg₂ List.cons (hR _ _ hcd) ih

theorem names_simplifyEach {maxAtoms : Nat} {cs ds : List Assign} (h : simplifyEach maxAtoms cs = .ok ds) :
    names ds = names cs :=
  names_eq_of_forall₂ (fun _ _ => Minimizes.target_eq) (simplifyEach_minimizes h)

theorem acyclic_of_minimizes {maxAtoms : Nat} {conds ds : List Assign} (hac : Acyclic conds)
    (h : List.Forall₂ (Minimizes maxAtoms) conds ds) : Acyclic ds := by
  refine hac.of_refers ?_
  rintro a b ⟨d, hd, v, rfl, hv, hb, w, hw, rfl⟩
  rw [names_eq_of_forall₂ (fun _ _ => Minimizes.target_eq) h] at hb
  obtain ⟨c, hc, hcd⟩ := exists_of_mem_forall₂ h hd
  rw [hcd.target_eq]
  rcases hcd with ⟨_, rfl⟩ | ⟨u, u', hu, hu', rfl⟩
  · exact .single ⟨d, hc, v, rfl, hv, hb, w, hw, rfl⟩
  · cases hv
    have hleaves : v.LeavesSatisfy fun x => ∀ w, x = .wire w → w ∈ u.wires := by
      refine Expr.LeavesSatisfy.simplify ?_ ?_ hu'
      · intro b w hw
        cases hw
      · rintro x hx w rfl
        exact (Expr.mem_wires_iff w u).2 hx
    exact .single ⟨c, hc, u, rfl, hu, hb, w, hleaves _ ((Expr.mem_wires_iff w v).1 hw) w rfl, rfl⟩

/-! ## Sharing equal definitions -/

/-- The condition `d` is `c`, or refers to an earlier condition of the same value instead. -/
def Shares (conds : List Assign) (c d : Assign) : Prop :=
  d = c ∨ ∃ v, ∃ p ∈ conds, c.val = some v ∧ p.val = some v ∧
    (names conds).idxOf p.target < (names conds).idxOf c.target ∧ d = withVal c (.flag p.target)

theorem Shares.target_eq {conds : List Assign} {c d : Assign} (h : Shares conds c d) : d.target = c.target := by
  rcases h with rfl | ⟨_, _, _, _, _, _, rfl⟩
  · rfl
  · rfl

theorem lookup_mem {seen : List (Expr × String)} {v : Expr} {first : String} (h : seen.lookup v = some first) :
    (v, first) ∈ seen := by
  obtain ⟨l₁, l₂, rfl, _⟩ := List.lookup_eq_some_iff.1 h
  simp

theorem shareEqual_shares {conds : List Assign} (hn : (names conds).Nodup) {pre cs : List Assign}
    (hconds : conds = pre ++ cs) {seen : List (Expr × String)}
    (hseen : ∀ x ∈ seen, ∃ p ∈ pre, p.val = some x.1 ∧ p.target = x.2) :
    List.Forall₂ (Shares conds) cs (shareEqual seen cs) := by
  induction cs generalizing pre seen with
  | nil => exact .nil
  | cons c cs ih =>
    have hsplit : conds = (pre ++ [c]) ++ cs := by rw [hconds, List.append_assoc, List.singleton_append]
    have hkeep : ∀ x ∈ seen, ∃ p ∈ pre ++ [c], p.val = some x.1 ∧ p.target = x.2 := by
      intro x hx
      obtain ⟨p, hp, h⟩ := hseen x hx
      exact ⟨p, List.mem_append_left _ hp, h⟩
    rw [shareEqual]
    split
    · rename_i v hv
      split
      · split
        · rename_i first hfirst
          refine .cons (.inr ?_) (ih hsplit hkeep)
          obtain ⟨p, hp, hpv, rfl⟩ := hseen _ (lookup_mem hfirst)
          refine ⟨v, p, by rw [hconds]; exact List.mem_append_left _ hp, hv, hpv, ?_, rfl⟩
          have hcn : c.target ∉ names pre := by
            rw [hconds, names, List.map_append, List.map_cons] at hn
            exact fun hc => (List.nodup_append.1 hn).2.2 _ hc _ List.mem_cons_self rfl
          have hpn : p.target ∈ names pre := target_mem_names hp
          have hlt := List.idxOf_lt_length_of_mem hpn
          have hnames : names conds = names pre ++ names (c :: cs) := by
            rw [hconds, names, List.map_append]
            rfl
          rw [hnames, List.idxOf_append_of_mem hpn, List.idxOf_append_of_notMem hcn]
          omega
        · refine .cons (.inl rfl) (ih hsplit ?_)
          intro x hx
          rcases List.mem_cons.1 hx with rfl | hx
          · exact ⟨c, by simp, hv, rfl⟩
          · exact hkeep x hx
      · exact .cons (.inl rfl) (ih hsplit hkeep)
    · exact .cons (.inl rfl) (ih hsplit hkeep)

theorem names_shareEqual (seen : List (Expr × String)) (cs : List Assign) : names (shareEqual seen cs) = names cs := by
  induction cs generalizing seen with
  | nil => rfl
  | cons c cs ih =>
    rw [shareEqual]
    split
    · split
      · split
        · exact congrArg (c.target :: ·) (ih _)
        · exact congrArg (c.target :: ·) (ih _)
      · exact congrArg (c.target :: ·) (ih _)
    · exact congrArg (c.target :: ·) (ih _)

theorem shares_shareEqual {conds : List Assign} (hn : (names conds).Nodup) :
    List.Forall₂ (Shares conds) conds (shareEqual [] conds) :=
  shareEqual_shares hn (List.nil_append conds).symm (by simp)

/-- Sharing refers to a condition that depends on the same conditions and stands earlier in the list. -/
theorem acyclic_of_shares {conds ds : List Assign} (hn : (names conds).Nodup) (hac : Acyclic conds)
    (h : List.Forall₂ (Shares conds) conds ds) : Acyclic ds := by
  have hnames : names ds = names conds := names_eq_of_forall₂ (fun _ _ => Shares.target_eq) h
  refine acyclic_of_rank (fun a => rank conds a * (conds.length + 1) + (names conds).idxOf a) ?_
  rintro a b ⟨d, hd, v, rfl, hv, hb, w, hw, rfl⟩
  rw [hnames] at hb
  have hidx : ∀ a ∈ names conds, (names conds).idxOf a < conds.length + 1 := by
    intro a ha
    have := List.idxOf_lt_length_of_mem ha
    rw [names, List.length_map, ← names] at this
    omega
  obtain ⟨c, hc, hcd⟩ := exists_of_mem_forall₂ h hd
  rcases hcd with rfl | ⟨u, p, hp, hcu, hpu, hlt, rfl⟩
  · have hrank := hac.rank_lt (a := d.target) (b := w.name) ⟨d, hc, v, rfl, hv, hb, w, hw, rfl⟩
    have hmul := Nat.mul_le_mul_right (conds.length + 1) hrank
    have hsucc := Nat.succ_mul (rank conds w.name) (conds.length + 1)
    have hlt := hidx _ hb
    omega
  · cases hv
    have hwp : w = ⟨p.target, 1⟩ := by simpa [Expr.flag, Expr.wires] using hw
    have hrank : rank conds p.target = rank conds c.target := rank_eq_of_val_eq hn hp hc (by rw [hpu, hcu])
    rw [hwp]
    change rank conds p.target * _ + (names conds).idxOf p.target < rank conds c.target * _ + (names conds).idxOf c.target
    rw [hrank]
    omega

/-! ## Redirecting aliases -/

/-- The value of the condition `a` is the condition `b`. -/
def AliasOf (conds : List Assign) (a b : String) : Prop :=
  ∃ c ∈ conds, ∃ w : Wire, c.target = a ∧ c.val = some (.wire w) ∧ b ∈ names conds ∧ w.name = b

theorem AliasOf.refers {conds : List Assign} {a b : String} (h : AliasOf conds a b) : Refers conds a b := by
  obtain ⟨c, hc, w, ha, hv, hb, hw⟩ := h
  exact ⟨c, hc, .wire w, ha, hv, hb, w, by simp [Expr.wires], hw⟩

theorem aliasOf_of_mem_directAliases {conds : List Assign} {e : String × String}
    (h : e ∈ (directAliases conds).entries) : AliasOf conds e.1 e.2 := by
  obtain ⟨c, hc, he⟩ := List.mem_filterMap.1 (Listing.mem_entries_ofList h)
  split at he
  · rename_i w hw
    split at he
    · rename_i hname
      cases he
      exact ⟨c, hc, w, rfl, hw, by simpa [names] using hname.1, rfl⟩
    · cases he
  · cases he

theorem chase_sound {conds : List Assign} {steps : Nat} {seen : List String} {name stop : String}
    (h : chase (directAliases conds) steps seen name = some stop) :
    Relation.ReflTransGen (AliasOf conds) name stop := by
  induction steps generalizing seen name with
  | zero => cases h
  | succ steps ih =>
    rw [chase] at h
    split at h
    · cases h
      exact .refl
    · rename_i next hnext
      split at h
      · cases h
      · exact .head (aliasOf_of_mem_directAliases ((Listing.get?_eq_some_iff _ _ _).1 hnext)) (ih h)

theorem aliases_sound {conds : List Assign} {a b : String} (h : (aliases conds).get? a = some b) :
    Relation.TransGen (AliasOf conds) a b := by
  rw [Listing.get?_eq_some_iff] at h
  obtain ⟨e, he, hb⟩ := List.mem_filterMap.1 (Listing.mem_entries_ofList h)
  obtain ⟨stop, hstop, hab⟩ := Option.map_eq_some_iff.1 hb
  cases hab
  exact Relation.TransGen.head' (aliasOf_of_mem_directAliases he) (chase_sound hstop)

/-- The condition that a name stands for in the end. -/
def standsFor (as : Listing String) (a : String) : String := (as.get? a).getD a

theorem redirect_eq_rename (as : Listing String) (e : Expr) : redirect as e = e.rename (standsFor as) := by
  unfold redirect Expr.replaceWires Expr.rename
  congr 1
  funext w
  simp only [standsFor]
  cases as.get? w.name with
  | none => rfl
  | some stop => rfl

theorem standsFor_cases (conds : List Assign) (a : String) :
    standsFor (aliases conds) a = a ∨ Relation.TransGen (AliasOf conds) a (standsFor (aliases conds) a) := by
  unfold standsFor
  cases h : (aliases conds).get? a with
  | none => exact .inl rfl
  | some b => exact .inr (aliases_sound h)

theorem aliasOf_mem_names {conds : List Assign} {a b : String} (h : Relation.TransGen (AliasOf conds) a b) :
    a ∈ names conds ∧ b ∈ names conds := by
  constructor
  · obtain ⟨_, ⟨c, hc, _, rfl, _⟩, _⟩ := Relation.TransGen.head'_iff.1 h
    exact target_mem_names hc
  · obtain ⟨_, _, ⟨_, _, _, _, _, hb, _⟩⟩ := Relation.TransGen.tail'_iff.1 h
    exact hb

def redirectConds (as : Listing String) (conds : List Assign) : List Assign :=
  conds.map fun c => ⟨c.target, c.drive.map (redirect as)⟩

theorem names_redirectConds (as : Listing String) (conds : List Assign) :
    names (redirectConds as conds) = names conds := by
  simp [names, redirectConds, Function.comp_def]

theorem mem_redirectConds {as : Listing String} {conds : List Assign} {d : Assign} (hd : d ∈ redirectConds as conds) :
    ∃ c ∈ conds, d.target = c.target ∧ d.val = c.val.map (Expr.rename (standsFor as)) := by
  obtain ⟨c, hc, rfl⟩ := List.mem_map.1 hd
  refine ⟨c, hc, rfl, ?_⟩
  have hfun : redirect as = Expr.rename (standsFor as) := funext (redirect_eq_rename as)
  rw [hfun]
  rfl

/-- A redirected reference goes along a path of old references. -/
theorem acyclic_redirectConds {conds : List Assign} (hac : Acyclic conds) :
    Acyclic (redirectConds (aliases conds) conds) := by
  refine hac.of_refers ?_
  rintro a b ⟨d, hd, v, rfl, hv, hb, w, hw, rfl⟩
  obtain ⟨c, hc, htarget, hval⟩ := mem_redirectConds hd
  rw [hv] at hval
  obtain ⟨u, hu, rfl⟩ := Option.map_eq_some_iff.1 hval.symm
  rw [names_redirectConds] at hb
  rw [htarget]
  have hwire : ∃ x ∈ u.wires, w = ⟨standsFor (aliases conds) x.name, x.width⟩ := by
    rcases Expr.mem_leaves_substitute _ _ _ u ((Expr.mem_wires_iff w _).1 hw) with ⟨_, h, _⟩ | ⟨o, _, h⟩ | ⟨x, hx, h⟩
    · cases h
    · simp [Expr.leaves] at h
    · exact ⟨x, (Expr.mem_wires_iff x u).2 hx, by simpa [Expr.leaves] using h⟩
  obtain ⟨x, hx, rfl⟩ := hwire
  rcases standsFor_cases conds x.name with hs | hs
  · rw [hs] at hb
    rw [hs]
    exact .single ⟨c, hc, u, rfl, hu, hb, x, hx, rfl⟩
  · refine .head ⟨c, hc, u, rfl, hu, (aliasOf_mem_names hs).1, x, hx, rfl⟩ ?_
    exact Relation.TransGen.mono (fun _ _ => AliasOf.refers) _ _ hs

/-! ## Meaning -/

section Meaning

variable {V : Type} {I : Interpretation V} {ρ : Valuation V} {free : String → Bool} {β : String → Bool}

theorem Solves.of_demand_eq {conds ds : List Assign} (hβ : Solves I ρ free conds β) (hnames : names ds = names conds)
    (h : ∀ d ∈ ds, ∃ c ∈ conds, d.target = c.target ∧
      demand I ρ free (names conds) β d = demand I ρ free (names conds) β c) : Solves I ρ free ds β := by
  intro d hd
  obtain ⟨c, hc, htarget, hdemand⟩ := h d hd
  rw [hnames, hdemand, htarget]
  exact hβ c hc

theorem Solves.minimizes {maxAtoms : Nat} {conds ds : List Assign} (hβ : Solves I ρ free conds β)
    (h : List.Forall₂ (Minimizes maxAtoms) conds ds) : Solves I ρ free ds β := by
  refine hβ.of_demand_eq (names_eq_of_forall₂ (fun _ _ => Minimizes.target_eq) h) ?_
  intro d hd
  obtain ⟨c, hc, hcd⟩ := exists_of_mem_forall₂ h hd
  refine ⟨c, hc, hcd.target_eq, ?_⟩
  rcases hcd with ⟨_, rfl⟩ | ⟨v, v', hv, hv', rfl⟩
  · rfl
  · rw [demand, demand, hv]
    exact Expr.holds_simplify I _ hv'

theorem Solves.shares {conds ds : List Assign} (hβ : Solves I ρ free conds β)
    (h : List.Forall₂ (Shares conds) conds ds) : Solves I ρ free ds β := by
  refine hβ.of_demand_eq (names_eq_of_forall₂ (fun _ _ => Shares.target_eq) h) ?_
  intro d hd
  obtain ⟨c, hc, hcd⟩ := exists_of_mem_forall₂ h hd
  refine ⟨c, hc, hcd.target_eq, ?_⟩
  rcases hcd with rfl | ⟨v, p, hp, hcv, hpv, _, rfl⟩
  · rfl
  · have hflag : demand I ρ free (names conds) β (withVal c (.flag p.target)) = β p.target := by
      change I.truth (if p.target ∈ names conds then I.bit (β p.target) else _) = β p.target
      rw [if_pos (target_mem_names hp), I.truth_bit]
    rw [hflag, hβ p hp, demand, demand, hpv, hcv]

/-- The renaming takes conditions to conditions of the same truth value and leaves all other names. -/
structure Respects (ns : List String) (β : String → Bool) (r : String → String) : Prop where
  mem : ∀ a ∈ ns, r a ∈ ns
  truth : ∀ a ∈ ns, β (r a) = β a
  fixed : ∀ a, a ∉ ns → r a = a

theorem Respects.id (ns : List String) (β : String → Bool) : Respects ns β id :=
  ⟨fun _ ha => ha, fun _ _ => rfl, fun _ _ => rfl⟩

theorem Respects.comp {ns : List String} {β : String → Bool} {r s : String → String} (hr : Respects ns β r)
    (hs : Respects ns β s) : Respects ns β (s ∘ r) where
  mem := fun a ha => hs.mem _ (hr.mem a ha)
  truth := fun a ha => (hs.truth _ (hr.mem a ha)).trans (hr.truth a ha)
  fixed := fun a ha => by rw [Function.comp_apply, hr.fixed a ha, hs.fixed a ha]

theorem Respects.eval_rename {ns : List String} {r : String → String} (hr : Respects ns β r) (e : Expr) :
    (e.rename r).eval I (reading I ρ ns β) = e.eval I (reading I ρ ns β) := by
  rw [Expr.rename, Expr.eval_substitute]
  refine Expr.eval_congr I e (fun _ _ => rfl) ?_
  intro w _
  change (if r w.name ∈ ns then I.bit (β (r w.name)) else ρ.wire ⟨r w.name, w.width⟩) =
    if w.name ∈ ns then I.bit (β w.name) else ρ.wire w
  by_cases hw : w.name ∈ ns
  · rw [if_pos hw, if_pos (hr.mem _ hw), hr.truth _ hw]
  · rw [hr.fixed _ hw, if_neg hw]

theorem Solves.aliasOf {conds : List Assign} (hβ : Solves I ρ free conds β) {a b : String}
    (h : Relation.TransGen (AliasOf conds) a b) : β b = β a := by
  have hstep : ∀ a b, AliasOf conds a b → β b = β a := by
    rintro a b ⟨c, hc, w, rfl, hv, hb, rfl⟩
    rw [hβ c hc, demand, hv]
    change β w.name = I.truth (if w.name ∈ names conds then I.bit (β w.name) else ρ.wire w)
    rw [if_pos hb, I.truth_bit]
  induction h with
  | single h => exact hstep _ _ h
  | tail _ h ih => exact (hstep _ _ h).trans ih

theorem Solves.respects {conds : List Assign} (hβ : Solves I ρ free conds β) :
    Respects (names conds) β (standsFor (aliases conds)) where
  mem := by
    intro a ha
    rcases standsFor_cases conds a with h | h
    · rw [h]
      exact ha
    · exact (aliasOf_mem_names h).2
  truth := by
    intro a _
    rcases standsFor_cases conds a with h | h
    · rw [h]
    · exact hβ.aliasOf h
  fixed := by
    intro a ha
    rcases standsFor_cases conds a with h | h
    · exact h
    · exact absurd (aliasOf_mem_names h).1 ha

theorem Solves.redirectConds {conds : List Assign} (hβ : Solves I ρ free conds β) :
    Solves I ρ free (redirectConds (aliases conds) conds) β := by
  refine hβ.of_demand_eq (names_redirectConds _ conds) ?_
  intro d hd
  obtain ⟨c, hc, htarget, hval⟩ := mem_redirectConds hd
  refine ⟨c, hc, htarget, ?_⟩
  unfold demand
  rw [hval, htarget]
  cases c.val with
  | none => rfl
  | some v => exact congrArg I.truth (hβ.respects.eval_rename v)

end Meaning

/-- What one round and a whole run of simplification keep. Solutions of the old network are solutions of the new one,
and the trees are renamed in step. -/
structure Preserves (n n' : Network) : Prop where
  names_eq : names n'.conds = names n.conds
  acyclic : Acyclic n.conds → Acyclic n'.conds
  meaning : ∃ r : String → String, n'.trees = n.trees.map (Block.mapExprs (Expr.rename r)) ∧
    ∀ {V : Type} (I : Interpretation V) (ρ : Valuation V) (free β : String → Bool), Solves I ρ free n.conds β →
      Solves I ρ free n'.conds β ∧ Respects (names n.conds) β r

theorem mapExprs_rename_id (ts : List Block) : ts.map (Block.mapExprs (Expr.rename id)) = ts := by
  have hid : Expr.rename id = id := funext Expr.rename_id
  rw [hid]
  exact (List.map_congr_left fun b _ => b.mapExprs_id).trans (List.map_id ts)

theorem Preserves.refl (n : Network) : Preserves n n where
  names_eq := rfl
  acyclic := fun h => h
  meaning := ⟨id, (mapExprs_rename_id n.trees).symm, fun _ _ _ β hβ => ⟨hβ, .id _ β⟩⟩

theorem Preserves.trans {n n' n'' : Network} (h : Preserves n n') (h' : Preserves n' n'') : Preserves n n'' where
  names_eq := h'.names_eq.trans h.names_eq
  acyclic := fun hac => h'.acyclic (h.acyclic hac)
  meaning := by
    obtain ⟨r, hr, hsol⟩ := h.meaning
    obtain ⟨s, hs, hsol'⟩ := h'.meaning
    refine ⟨s ∘ r, ?_, ?_⟩
    · rw [hs, hr, List.map_map]
      refine List.map_congr_left fun b _ => ?_
      have hcomp : Expr.rename s ∘ Expr.rename r = Expr.rename (s ∘ r) := funext (Expr.rename_rename r s)
      rw [Function.comp_apply, Block.mapExprs_mapExprs, hcomp]
    · intro V I ρ free β hβ
      obtain ⟨hβ', hres⟩ := hsol I ρ free β hβ
      obtain ⟨hβ'', hres'⟩ := hsol' I ρ free β hβ'
      rw [h.names_eq] at hres'
      exact ⟨hβ'', hres.comp hres'⟩

/-- A round minimizes the conditions and lets equal ones share a definition. It then replaces aliases, if there are
any. -/
theorem round_cases {maxAtoms : Nat} {n n' : Network} (h : n.round maxAtoms = .ok n') :
    ∃ ds, simplifyEach maxAtoms n.conds = .ok ds ∧
      ((aliases (shareEqual [] ds)).isEmpty = true ∧ n' = ⟨shareEqual [] ds, n.trees⟩ ∨
        n' = ⟨redirectConds (aliases (shareEqual [] ds)) (shareEqual [] ds),
          n.trees.map (Block.mapExprs (Expr.rename (standsFor (aliases (shareEqual [] ds)))))⟩) := by
  rw [round, Checked.bind_eq_ok] at h
  obtain ⟨ds, hds, h⟩ := h
  have hredirect : redirect (aliases (shareEqual [] ds)) = Expr.rename (standsFor (aliases (shareEqual [] ds))) :=
    funext (redirect_eq_rename _)
  refine ⟨ds, hds, ?_⟩
  dsimp only at h
  split at h
  · rename_i hempty
    cases h
    exact .inl ⟨hempty, rfl⟩
  · cases h
    rw [← hredirect]
    exact .inr rfl

theorem round_preserves {maxAtoms : Nat} {n n' : Network} (hn : (names n.conds).Nodup)
    (h : n.round maxAtoms = .ok n') : Preserves n n' := by
  obtain ⟨ds, hds, h⟩ := round_cases h
  have hmin := simplifyEach_minimizes hds
  have hdn : (names ds).Nodup := names_simplifyEach hds ▸ hn
  have hshare := shares_shareEqual hdn
  have hnames : names (shareEqual [] ds) = names n.conds := (names_shareEqual [] ds).trans (names_simplifyEach hds)
  have hac : Acyclic n.conds → Acyclic (shareEqual [] ds) := by
    intro hac
    exact acyclic_of_shares hdn (acyclic_of_minimizes hac hmin) hshare
  have hsol : ∀ {V : Type} (I : Interpretation V) (ρ : Valuation V) (free β : String → Bool),
      Solves I ρ free n.conds β → Solves I ρ free (shareEqual [] ds) β :=
    fun _ _ _ _ hβ => (hβ.minimizes hmin).shares hshare
  rcases h with ⟨_, rfl⟩ | rfl
  · refine ⟨hnames, hac, id, (mapExprs_rename_id n.trees).symm, ?_⟩
    intro V I ρ free β hβ
    exact ⟨hsol I ρ free β hβ, .id _ β⟩
  · refine ⟨(names_redirectConds _ _).trans hnames, fun h => acyclic_redirectConds (hac h),
      standsFor (aliases (shareEqual [] ds)), rfl, ?_⟩
    intro V I ρ free β hβ
    refine ⟨(hsol I ρ free β hβ).redirectConds, ?_⟩
    rw [← hnames]
    exact (hsol I ρ free β hβ).respects

theorem run_preserves {maxAtoms rounds : Nat} {n n' : Network} (hn : (names n.conds).Nodup)
    (h : n.simplify maxAtoms rounds = .ok n') : Preserves n n' := by
  induction rounds generalizing n with
  | zero =>
    cases h
    exact .refl _
  | succ rounds ih =>
    rw [simplify, Checked.bind_eq_ok] at h
    obtain ⟨m, hm, h⟩ := h
    have hround := round_preserves hn hm
    split at h
    · cases h
      exact hround
    · refine hround.trans (ih ?_ h)
      rw [hround.names_eq]
      exact hn

/-- The trees are renamed. For a name that does not stay there is a condition that has another condition, the one with
the new name, as its value. -/
structure Renames (n n' : Network) (r : String → String) : Prop where
  names_eq : names n'.conds = names n.conds
  trees : n'.trees = n.trees.map (Block.mapExprs (Expr.rename r))
  mem : ∀ a, r a ≠ a → r a ∈ names n.conds
  stands : ∀ a, r a ≠ a → ∃ c ∈ n'.conds, ∃ w, c.target = a ∧ c.val = some (.wire ⟨r a, w⟩)
  wires : ∀ c ∈ n.conds, ∀ b w, c.val = some (.wire ⟨b, w⟩) →
    ∃ c' ∈ n'.conds, c'.target = c.target ∧ c'.val = some (.wire ⟨r b, w⟩)

theorem Renames.refl (n : Network) : Renames n n id where
  names_eq := rfl
  trees := (mapExprs_rename_id n.trees).symm
  mem _ h := absurd rfl h
  stands _ h := absurd rfl h
  wires c hc _ _ hv := ⟨c, hc, rfl, hv⟩

theorem Renames.trans {n n' n'' : Network} {r r' : String → String} (h : Renames n n' r) (h' : Renames n' n'' r') :
    Renames n n'' (r' ∘ r) where
  names_eq := h'.names_eq.trans h.names_eq
  trees := by
    have hfun : Block.mapExprs (Expr.rename r') ∘ Block.mapExprs (Expr.rename r) =
        Block.mapExprs (Expr.rename (r' ∘ r)) := by
      funext b
      rw [Function.comp_apply, Block.mapExprs_mapExprs]
      exact congrArg (fun f => Block.mapExprs f b) (funext fun e => Expr.rename_rename r r' e)
    rw [h'.trees, h.trees, List.map_map, hfun]
  mem a ha := by
    by_cases hr : r' (r a) = r a
    · rw [Function.comp_apply, hr] at ha ⊢
      exact h.mem a ha
    · exact h.names_eq ▸ h'.mem (r a) hr
  stands a ha := by
    by_cases hr : r a = a
    · rw [Function.comp_apply, hr] at ha ⊢
      exact h'.stands a ha
    · obtain ⟨c, hc, w, hca, hv⟩ := h.stands a hr
      obtain ⟨c', hc', hcc, hv'⟩ := h'.wires c hc _ w hv
      exact ⟨c', hc', w, hcc.trans hca, hv'⟩
  wires c hc b w hv := by
    obtain ⟨c', hc', hcc, hv'⟩ := h.wires c hc b w hv
    obtain ⟨c'', hc'', hcc', hv''⟩ := h'.wires c' hc' _ w hv'
    exact ⟨c'', hc'', hcc'.trans hcc, hv''⟩

/-- A chain of aliases ends at the same condition if there are fewer names to avoid and more steps. -/
theorem chase_mono {direct : Listing String} {steps steps' : Nat} {seen seen' : List String} {name stop : String}
    (h : chase direct steps seen name = some stop) (hsteps : steps ≤ steps') (hseen : seen' ⊆ seen) :
    chase direct steps' seen' name = some stop := by
  induction steps generalizing steps' seen seen' name with
  | zero => cases h
  | succ steps ih =>
    obtain ⟨k, rfl⟩ := Nat.exists_eq_add_one_of_ne_zero (Nat.ne_zero_of_lt hsteps)
    rw [chase] at h ⊢
    cases hget : direct.get? name with
    | none =>
      rw [hget] at h
      exact h
    | some next =>
      rw [hget] at h
      dsimp only at h ⊢
      split at h
      · cases h
      · rename_i hnot
        have hnot' : ¬seen'.contains name = true := by
          simp only [List.contains_iff_mem] at hnot ⊢
          exact fun hin => hnot (hseen hin)
        rw [if_neg hnot']
        exact ih h (Nat.le_of_succ_le_succ hsteps) (List.cons_subset_cons name hseen)

theorem aliases_eq_some {conds : List Assign} {a stop : String} :
    (aliases conds).get? a = some stop ↔ ∃ b, (directAliases conds).get? a = some b ∧
      chase (directAliases conds) ((directAliases conds).entries.length + 1) [a] b = some stop := by
  have hkeys : (((directAliases conds).entries.filterMap fun e =>
      (chase (directAliases conds) ((directAliases conds).entries.length + 1) [e.1] e.2).map fun stop =>
        (e.1, stop)).map Prod.fst).Nodup := by
    refine (directAliases conds).nodup.sublist (Listing.keys_filterMap_sublist ?_ _)
    rintro e _ he
    obtain ⟨stop, _, rfl⟩ := Option.map_eq_some_iff.1 he
    rfl
  unfold aliases
  dsimp only
  rw [Listing.get?_ofList hkeys, List.mem_filterMap]
  constructor
  · rintro ⟨e, he, hstop⟩
    obtain ⟨stop', hchase, hpair⟩ := Option.map_eq_some_iff.1 hstop
    cases hpair
    exact ⟨e.2, (Listing.get?_eq_some_iff _ _ _).2 he, hchase⟩
  · rintro ⟨b, hb, hchase⟩
    exact ⟨(a, b), (Listing.get?_eq_some_iff _ _ _).1 hb, by rw [hchase, Option.map_some]⟩

/-- An alias stands for what its value stands for. -/
theorem standsFor_next {conds : List Assign} {a b stop : String} (hab : (directAliases conds).get? a = some b)
    (h : (aliases conds).get? a = some stop) : standsFor (aliases conds) b = stop := by
  obtain ⟨b', hb', hchase⟩ := aliases_eq_some.1 h
  cases hab.symm.trans hb'
  rw [chase] at hchase
  cases hget : (directAliases conds).get? b with
  | none =>
    rw [hget] at hchase
    cases hchase
    have hnone : (aliases conds).get? b = none := by
      rw [Option.eq_none_iff_forall_ne_some]
      intro stop hstop
      obtain ⟨c, hc, _⟩ := aliases_eq_some.1 hstop
      rw [hget] at hc
      cases hc
    rw [standsFor, hnone, Option.getD_none]
  | some next =>
    rw [hget] at hchase
    dsimp only at hchase
    split at hchase
    · cases hchase
    · have hnext := chase_mono hchase (Nat.le_succ _) (show [b] ⊆ _ by simp)
      rw [standsFor, aliases_eq_some.2 ⟨next, hget, hnext⟩, Option.getD_some]

theorem mem_shareEqual {cs : List Assign} {c : Assign} (hc : c ∈ cs) {v : Expr} (hv : c.val = some v)
    (hlogic : v.isLogic = false) (seen : List (Expr × String)) : c ∈ shareEqual seen cs := by
  induction cs generalizing seen with
  | nil => cases hc
  | cons d cs ih =>
    rcases List.mem_cons.1 hc with rfl | hc
    · rw [shareEqual, hv]
      simp [hlogic]
    · rw [shareEqual]
      split
      · split
        · split
          · exact List.mem_cons_of_mem _ (ih hc _)
          · exact List.mem_cons_of_mem _ (ih hc _)
        · exact List.mem_cons_of_mem _ (ih hc _)
      · exact List.mem_cons_of_mem _ (ih hc _)

/-- Neither minimizing nor sharing changes a condition whose value is a name. -/
theorem mem_shareEqual_of_wire {maxAtoms : Nat} {cs ds : List Assign} (h : simplifyEach maxAtoms cs = .ok ds)
    {c : Assign} (hc : c ∈ cs) {w : Wire} (hv : c.val = some (.wire w)) :
    ∃ d ∈ shareEqual [] ds, d.target = c.target ∧ d.val = some (.wire w) := by
  have hmin := simplifyEach_minimizes h
  obtain ⟨d, hd, hcd⟩ := exists_of_mem_forall₂ hmin.flip hc
  rcases hcd with ⟨hnone, _⟩ | ⟨v, v', hv', hsimplify, rfl⟩
  · rw [hv] at hnone
    cases hnone
  · cases hv.symm.trans hv'
    cases hsimplify
    exact ⟨_, mem_shareEqual hd rfl rfl _, rfl, rfl⟩

theorem mem_redirectConds_of_wire (as : Listing String) {conds : List Assign} {c : Assign} (hc : c ∈ conds) {w : Wire}
    (hv : c.val = some (.wire w)) :
    ∃ d ∈ redirectConds as conds, d.target = c.target ∧ d.val = some (.wire ⟨standsFor as w.name, w.width⟩) := by
  refine ⟨_, List.mem_map_of_mem hc, rfl, ?_⟩
  change c.val.map (redirect as) = _
  rw [hv, Option.map_some, redirect_eq_rename]
  rfl

theorem round_renames {maxAtoms : Nat} {n n' : Network} (h : n.round maxAtoms = .ok n') : ∃ r, Renames n n' r := by
  obtain ⟨ds, hds, h⟩ := round_cases h
  have hnames : names (shareEqual [] ds) = names n.conds := (names_shareEqual [] ds).trans (names_simplifyEach hds)
  rcases h with ⟨_, rfl⟩ | rfl
  · exact ⟨id, hnames, (mapExprs_rename_id n.trees).symm, fun _ hne => absurd rfl hne, fun _ hne => absurd rfl hne,
      fun c hc _ _ hv => mem_shareEqual_of_wire hds hc hv⟩
  · refine ⟨standsFor (aliases (shareEqual [] ds)), (names_redirectConds _ _).trans hnames, rfl, ?_, ?_, ?_⟩
    · intro a ha
      rcases standsFor_cases (shareEqual [] ds) a with hfixed | halias
      · exact absurd hfixed ha
      · exact hnames ▸ (aliasOf_mem_names halias).2
    · intro a ha
      cases hstop : (aliases (shareEqual [] ds)).get? a with
      | none =>
        rw [standsFor, hstop] at ha
        exact absurd rfl ha
      | some stop =>
        obtain ⟨b, hb, _⟩ := aliases_eq_some.1 hstop
        obtain ⟨c, hc, w, hca, hv, _, hw⟩ := aliasOf_of_mem_directAliases ((Listing.get?_eq_some_iff _ _ _).1 hb)
        obtain ⟨d, hd, hdc, hdv⟩ := mem_redirectConds_of_wire (aliases (shareEqual [] ds)) hc hv
        refine ⟨d, hd, w.width, hdc.trans hca, ?_⟩
        dsimp only at hw
        rw [hdv, hw, standsFor_next hb hstop]
        exact congrArg (fun name => some (Expr.wire ⟨name, w.width⟩)) (by rw [standsFor, hstop, Option.getD_some])
    · intro c hc b w hv
      obtain ⟨d, hd, hdc, hdv⟩ := mem_shareEqual_of_wire hds hc hv
      obtain ⟨d', hd', hdd, hdv'⟩ := mem_redirectConds_of_wire (aliases (shareEqual [] ds)) hd hdv
      exact ⟨d', hd', hdd.trans hdc, hdv'⟩

theorem run_renames {maxAtoms rounds : Nat} {n n' : Network} (h : n.simplify maxAtoms rounds = .ok n') :
    ∃ r, Renames n n' r := by
  induction rounds generalizing n with
  | zero =>
    cases h
    exact ⟨id, .refl _⟩
  | succ rounds ih =>
    rw [simplify, Checked.bind_eq_ok] at h
    obtain ⟨m, hm, h⟩ := h
    obtain ⟨r, hr⟩ := round_renames hm
    split at h
    · cases h
      exact ⟨r, hr⟩
    · obtain ⟨r', hr'⟩ := ih h
      exact ⟨r' ∘ r, hr.trans hr'⟩

/-- Every leaf of the values of the conditions satisfies `P`. -/
def LeavesSatisfy (P : Expr → Prop) (conds : List Assign) : Prop := ∀ c ∈ conds, ∀ v, c.val = some v → v.LeavesSatisfy P

section Leaves

variable {P : Expr → Prop} {conds ds : List Assign}

theorem LeavesSatisfy.minimizes {maxAtoms : Nat} (hbool : ∀ b, P (.bool b)) (hP : LeavesSatisfy P conds)
    (h : List.Forall₂ (Minimizes maxAtoms) conds ds) : LeavesSatisfy P ds := by
  intro d hd v hv
  obtain ⟨c, hc, hcd⟩ := exists_of_mem_forall₂ h hd
  rcases hcd with ⟨_, rfl⟩ | ⟨u, u', hu, hu', rfl⟩
  · exact hP d hc v hv
  · cases hv
    exact (hP c hc u hu).simplify hbool hu'

theorem LeavesSatisfy.shares (hname : ∀ a ∈ names conds, ∀ k, P (.wire ⟨a, k⟩)) (hP : LeavesSatisfy P conds)
    (h : List.Forall₂ (Shares conds) conds ds) : LeavesSatisfy P ds := by
  intro d hd v hv
  obtain ⟨c, hc, hcd⟩ := exists_of_mem_forall₂ h hd
  rcases hcd with rfl | ⟨u, p, hp, _, _, _, rfl⟩
  · exact hP d hc v hv
  · cases hv
    intro x hx
    have hxp : x = .flag p.target := by simpa [Expr.flag, Expr.leaves] using hx
    exact hxp ▸ hname _ (target_mem_names hp) _

theorem LeavesSatisfy.redirectConds (hname : ∀ a ∈ names conds, ∀ k, P (.wire ⟨a, k⟩)) (hP : LeavesSatisfy P conds) :
    LeavesSatisfy P (redirectConds (aliases conds) conds) := by
  intro d hd v hv
  obtain ⟨c, hc, _, hval⟩ := mem_redirectConds hd
  rw [hv] at hval
  obtain ⟨u, hu, rfl⟩ := Option.map_eq_some_iff.1 hval.symm
  refine (hP c hc u hu).rename fun w hw => ?_
  rcases standsFor_cases conds w.name with hs | hs
  · rw [hs]
    exact hw
  · exact hname _ (aliasOf_mem_names hs).2 _

end Leaves

/-- A round makes no leaves but constants and names of conditions. -/
theorem round_leaves {P : Expr → Prop} (hbool : ∀ b, P (.bool b)) {maxAtoms : Nat} {n n' : Network}
    (hname : ∀ a ∈ names n.conds, ∀ k, P (.wire ⟨a, k⟩)) (hn : (names n.conds).Nodup) (h : n.round maxAtoms = .ok n')
    (hP : LeavesSatisfy P n.conds) : LeavesSatisfy P n'.conds := by
  obtain ⟨ds, hds, h⟩ := round_cases h
  have hnames := names_simplifyEach hds
  have hshared : LeavesSatisfy P (shareEqual [] ds) :=
    (hP.minimizes hbool (simplifyEach_minimizes hds)).shares (hnames ▸ hname) (shares_shareEqual (hnames ▸ hn))
  rcases h with ⟨_, rfl⟩ | rfl
  · exact hshared
  · refine hshared.redirectConds ?_
    rw [names_shareEqual, hnames]
    exact hname

theorem run_leaves {P : Expr → Prop} (hbool : ∀ b, P (.bool b)) {maxAtoms rounds : Nat} {n n' : Network}
    (hname : ∀ a ∈ names n.conds, ∀ k, P (.wire ⟨a, k⟩)) (hn : (names n.conds).Nodup)
    (h : n.simplify maxAtoms rounds = .ok n') (hP : LeavesSatisfy P n.conds) : LeavesSatisfy P n'.conds := by
  induction rounds generalizing n with
  | zero =>
    cases h
    exact hP
  | succ rounds ih =>
    rw [simplify, Checked.bind_eq_ok] at h
    obtain ⟨m, hm, h⟩ := h
    have hleaves := round_leaves hbool hname hn hm hP
    split at h
    · cases h
      exact hleaves
    · have hnames := (round_preserves hn hm).names_eq
      exact ih (hnames ▸ hname) (hnames ▸ hn) h hleaves

/-- Every literal in the values of the conditions has a width that can be read or is refused. -/
def Measured (conds : List Assign) : Prop := ∀ c ∈ conds, ∀ v, c.val = some v → v.LeavesSatisfy Expr.Measurable

end Network

end Sequencer
