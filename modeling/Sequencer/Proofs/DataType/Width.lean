import Sequencer.DataType.Width
import Sequencer.Proofs.Checked

set_option autoImplicit false

/-!
# Widths are exact

The width of a type is computed with a check at each sum and product. It is the width in exact arithmetic if that of the
type and of each type inside it fits in 64 bits, and otherwise some check fails.
-/

namespace Sequencer

/-- A type made of the basic types, with all widths given. -/
inductive Shape where
  | unit
  | bool
  | uint (bits : UInt64)
  | int (bits : UInt64)
  | tuple (fields : List Shape)
  | array (element : Shape) (length : UInt64)
  | queue (data : Shape) (level : UInt64)

namespace Shape

mutual
def type : Shape → DataType
  | .unit => .unit
  | .bool => .bool
  | .uint n => .uint n
  | .int n => ⟨.int, [.width n]⟩
  | .tuple fs => ⟨.tuple, args fs⟩
  | .array e n => ⟨.array, [e.type.toArg, .width n]⟩
  | .queue d n => ⟨.queue, [d.type.toArg, .width n]⟩
def args : List Shape → List TypeArg
  | [] => []
  | s :: ss => s.type.toArg :: args ss
end

mutual
/-- The number of bits, in exact arithmetic. -/
def bits : Shape → Nat
  | .unit => 0
  | .bool => 1
  | .uint n | .int n => n.toNat
  | .tuple fs => bitsAll fs
  | .array e n => e.bits * n.toNat
  | .queue d n => d.bits + n.toNat
def bitsAll : List Shape → Nat
  | [] => 0
  | s :: ss => s.bits + bitsAll ss
end

mutual
/-- The shape itself and all shapes inside it. -/
def parts : Shape → List Shape
  | .tuple fs => .tuple fs :: partsAll fs
  | .array e n => .array e n :: e.parts
  | .queue d n => .queue d n :: d.parts
  | s => [s]
def partsAll : List Shape → List Shape
  | [] => []
  | s :: ss => s.parts ++ partsAll ss
end

/-- All widths that are computed on the way fit in 64 bits. -/
def Fits (s : Shape) : Prop := ∀ p ∈ s.parts, p.bits < widthLimit

theorem fits_tuple (fs : List Shape) :
    (tuple fs).Fits ↔ (∀ p ∈ partsAll fs, p.bits < widthLimit) ∧ bitsAll fs < widthLimit := by
  simp only [Fits, parts, List.forall_mem_cons, bits, and_comm]

theorem fits_array (e : Shape) (n : UInt64) : (array e n).Fits ↔ e.Fits ∧ e.bits * n.toNat < widthLimit := by
  simp only [Fits, parts, List.forall_mem_cons, bits, and_comm]

theorem fits_queue (d : Shape) (n : UInt64) : (queue d n).Fits ↔ d.Fits ∧ d.bits + n.toNat < widthLimit := by
  simp only [Fits, parts, List.forall_mem_cons, bits, and_comm]

end Shape

namespace TypeArg

/-- The arguments that the width of a type depends on are given, and are those of the shape. A tuple depends on all its
arguments, other types on their first ones only. -/
inductive Reads : TypeArg → Shape → Prop
  | unit (as : List TypeArg) : Reads (.type .unit as) .unit
  | bool (as : List TypeArg) : Reads (.type .bool as) .bool
  | uint (n : UInt64) (as : List TypeArg) : Reads (.type .uint (.width n :: as)) (.uint n)
  | int (n : UInt64) (as : List TypeArg) : Reads (.type .int (.width n :: as)) (.int n)
  | tuple {as : List TypeArg} {fs : List Shape} (h : List.Forall₂ Reads as fs) : Reads (.type .tuple as) (.tuple fs)
  | array {a : TypeArg} {e : Shape} (h : Reads a e) (n : UInt64) (as : List TypeArg) :
    Reads (.type .array (a :: .width n :: as)) (.array e n)
  | queue {a : TypeArg} {d : Shape} (h : Reads a d) (n : UInt64) (as : List TypeArg) :
    Reads (.type .queue (a :: .width n :: as)) (.queue d n)

theorem Reads.exists_type {a : TypeArg} {s : Shape} (h : a.Reads s) : ∃ k as, a = .type k as := by
  cases h <;> exact ⟨_, _, rfl⟩

mutual
/-- What holds of a type if it holds of its arguments holds of all arguments. -/
theorem inductionOn {P : TypeArg → Prop} (width : ∀ n, P (.width n)) (param : ∀ p, P (.param p))
    (type : ∀ k as, (∀ a ∈ as, P a) → P (.type k as)) : (a : TypeArg) → P a
  | .width n => width n
  | .param p => param p
  | .type k as => type k as (inductionOnAll width param type as)
theorem inductionOnAll {P : TypeArg → Prop} (width : ∀ n, P (.width n)) (param : ∀ p, P (.param p))
    (type : ∀ k as, (∀ a ∈ as, P a) → P (.type k as)) : (as : List TypeArg) → ∀ a ∈ as, P a
  | [] => fun _ ha => absurd ha List.not_mem_nil
  | a :: as => List.forall_mem_cons.2 ⟨inductionOn width param type a, inductionOnAll width param type as⟩
end

end TypeArg

mutual
theorem Shape.reads_type : (s : Shape) → s.type.toArg.Reads s
  | .unit => .unit []
  | .bool => .bool []
  | .uint n => .uint n []
  | .int n => .int n []
  | .tuple fs => .tuple (Shape.reads_args fs)
  | .array e n => .array e.reads_type n []
  | .queue d n => .queue d.reads_type n []
theorem Shape.reads_args : (fs : List Shape) → List.Forall₂ TypeArg.Reads (Shape.args fs) fs
  | [] => .nil
  | s :: ss => .cons s.reads_type (Shape.reads_args ss)
end

/-- A sum or a product has left its range. -/
def Overflows (x : Checked Nat) : Prop := x = .abort .addOverflow ∨ x = .abort .multiplyOverflow

/-- The computation gives `n` if all fits, and overflows otherwise. -/
structure Settles (fits : Prop) (n : Nat) (x : Checked Nat) : Prop where
  ok : fits → x = .ok n
  overflows : ¬fits → Overflows x

namespace Settles

variable {P Q : Prop} {m n : Nat} {x : Checked Nat}

theorem of_true (n : Nat) : Settles True n (.ok n) := ⟨fun _ => rfl, fun h => absurd trivial h⟩

theorem congr (h : Settles P n x) (hPQ : P ↔ Q) : Settles Q n x := ⟨fun hQ => h.ok (hPQ.2 hQ), fun hQ => h.overflows (hQ ∘ hPQ.1)⟩

/-- Of two computations one after the other the first that overflows decides. -/
theorem bind (hx : Settles P m x) {f : Nat → Checked Nat} (hf : P → Settles Q n (f m)) : Settles (P ∧ Q) n (x >>= f) := by
  by_cases hP : P
  · rw [hx.ok hP, Checked.ok_bind]
    exact (hf hP).congr (and_iff_right hP).symm
  · refine ⟨fun h => absurd h.1 hP, fun _ => ?_⟩
    rcases hx.overflows hP with rfl | rfl
    · exact .inl rfl
    · exact .inr rfl

theorem addWidths (m n : Nat) : Settles (m + n < widthLimit) (m + n) (addWidths m n) :=
  ⟨fun h => if_pos h, fun h => .inl (if_neg h)⟩

theorem mulWidths (m n : Nat) : Settles (m * n < widthLimit) (m * n) (mulWidths m n) :=
  ⟨fun h => if_pos h, fun h => .inr (if_neg h)⟩

theorem eq_ok_iff (h : Settles P n x) {w : Nat} : x = .ok w ↔ P ∧ w = n := by
  by_cases hP : P
  · rw [h.ok hP]
    simp [hP, eq_comm]
  · rcases h.overflows hP with rfl | rfl <;> simp [hP]

end Settles

/-- A sum from the left is right if each partial sum is, and these fit if the whole sum does. -/
theorem settles_sum {fs : List Shape} {xs : List (Checked Nat)}
    (h : List.Forall₂ (fun s x => Settles s.Fits s.bits x) fs xs) {n : Nat} (hn : n < widthLimit) :
    Settles ((∀ p ∈ Shape.partsAll fs, p.bits < widthLimit) ∧ n + Shape.bitsAll fs < widthLimit) (n + Shape.bitsAll fs)
      (xs.foldlM (fun sum x => do addWidths sum (← x)) n) := by
  induction h generalizing n with
  | nil => exact (Settles.of_true n).congr (by simp [Shape.partsAll, Shape.bitsAll, hn])
  | @cons s x fs xs hx _ ih =>
    rw [List.foldlM_cons, Shape.bitsAll, Shape.partsAll, List.forall_mem_append, ← Nat.add_assoc]
    have hstep := hx.bind fun _ => Settles.addWidths n s.bits
    refine (hstep.bind fun hfits => ih hfits.2).congr ?_
    constructor
    · rintro ⟨⟨hs, _⟩, hfs, hsum⟩
      exact ⟨⟨hs, hfs⟩, hsum⟩
    · rintro ⟨⟨hs, hfs⟩, hsum⟩
      exact ⟨⟨hs, by omega⟩, hfs, hsum⟩

namespace DataType

theorem innerWidths_eq (as : List TypeArg) : TypeArg.innerWidths as = as.map TypeArg.innerWidth := by
  induction as with
  | nil => rfl
  | cons a as ih => rw [TypeArg.innerWidths, ih, List.map_cons]

theorem typeArgWidth_type {t : DataType} {i : Nat} {k : TypeKind} {as : List TypeArg}
    (h : t.args[i]? = some (.type k as)) :
    t.typeArgWidth (TypeArg.innerWidths t.args) i = (DataType.mk k as).width := by
  rw [typeArgWidth, innerWidths_eq, List.getElem?_map, h]
  rfl

theorem typeArgWidth_eq_ok {t : DataType} {i w : Nat} (h : t.typeArgWidth (TypeArg.innerWidths t.args) i = .ok w) :
    ∃ k as, t.args[i]? = some (.type k as) ∧ (DataType.mk k as).width = .ok w := by
  cases harg : t.args[i]? with
  | none => simp [typeArgWidth, innerWidths_eq, harg] at h
  | some a =>
    cases a with
    | width n => simp [typeArgWidth, innerWidths_eq, harg, TypeArg.innerWidth] at h
    | param p => simp [typeArgWidth, innerWidths_eq, harg, TypeArg.innerWidth] at h
    | type k as =>
      rw [typeArgWidth_type harg] at h
      exact ⟨k, as, rfl, h⟩

theorem widthArg_eq_ok {t : DataType} {i w : Nat} (h : t.widthArg i = .ok w) :
    ∃ n : UInt64, t.args[i]? = some (.width n) ∧ n.toNat = w := by
  unfold widthArg at h
  split at h
  · rename_i n hn
    exact ⟨n, hn, Except.ok.inj h⟩
  · simp at h
  · simp at h

/-- A type that depends on the width of its first argument and on its second one has both. -/
theorem args_of_eq_ok {t : DataType} {m n : Nat} (hm : t.typeArgWidth (TypeArg.innerWidths t.args) 0 = .ok m)
    (hn : t.widthArg 1 = .ok n) :
    ∃ k bs len as, t.args = .type k bs :: .width len :: as ∧ (DataType.mk k bs).width = .ok m := by
  obtain ⟨k, bs, hfirst, hwidth⟩ := typeArgWidth_eq_ok hm
  obtain ⟨len, hsecond, _⟩ := widthArg_eq_ok hn
  obtain ⟨kind, args⟩ := t
  match args with
  | [] => cases hfirst
  | [_] => cases hsecond
  | _ :: _ :: as =>
    cases hfirst
    cases hsecond
    exact ⟨k, bs, len, as, rfl, hwidth⟩

/-- The fields of a tuple are measured one after the other. -/
theorem width_tuple (as : List TypeArg) : (DataType.mk .tuple as).width =
    ((List.range as.length).map ((DataType.mk .tuple as).typeArgWidth (TypeArg.innerWidths as))).foldlM
      (fun sum x => do addWidths sum (← x)) 0 := by
  rw [List.foldlM_map]
  rfl

theorem forall₂_typeArgWidth {R : Shape → Checked Nat → Prop} {as : List TypeArg} {fs : List Shape}
    (h : List.Forall₂ (fun a s => ∃ k bs, a = .type k bs ∧ R s (DataType.mk k bs).width) as fs) :
    List.Forall₂ R fs
      ((List.range as.length).map ((DataType.mk .tuple as).typeArgWidth (TypeArg.innerWidths as))) := by
  obtain ⟨hlength, hget⟩ := List.forall₂_iff_get.1 h
  refine List.forall₂_iff_get.2 ⟨by simp [hlength], fun i hi hi' => ?_⟩
  have hias : i < as.length := hlength ▸ hi
  obtain ⟨k, bs, harg, hR⟩ := hget i hias hi
  have hwidth := typeArgWidth_type (t := ⟨.tuple, as⟩) (i := i) ((List.getElem?_eq_getElem hias).trans (congrArg some harg))
  simp only [List.get_eq_getElem, List.getElem_map, List.getElem_range] at hR ⊢
  exact hwidth ▸ hR

end DataType

theorem foldlM_addWidths_eq_ok {xs : List (Checked Nat)} {m w : Nat}
    (h : xs.foldlM (fun sum x => do addWidths sum (← x)) m = .ok w) : ∀ x ∈ xs, ∃ n, x = .ok n := by
  induction xs generalizing m with
  | nil => exact fun x hx => absurd hx List.not_mem_nil
  | cons x xs ih =>
    obtain ⟨k, hk, h⟩ := Checked.bind_eq_ok.1 h
    obtain ⟨n, hn, _⟩ := Checked.bind_eq_ok.1 hk
    exact List.forall_mem_cons.2 ⟨⟨n, hn⟩, ih h⟩

namespace TypeArg

/-- A type that reads as a shape has the width of the shape. -/
theorem Reads.settles {k : TypeKind} {as : List TypeArg} {s : Shape} (h : (type k as).Reads s) :
    Settles s.Fits s.bits (DataType.mk k as).width := by
  have hall : ∀ a : TypeArg, ∀ k as s, a = .type k as → a.Reads s → Settles s.Fits s.bits (DataType.mk k as).width := by
    intro a
    induction a using inductionOn with
    | width n => rintro k as s ⟨⟩
    | param p => rintro k as s ⟨⟩
    | type k as ih =>
      rintro _ _ s ⟨⟩ h
      cases h with
      | unit => exact (Settles.of_true 0).congr (by simp [Shape.Fits, Shape.parts, Shape.bits, widthLimit])
      | bool => exact (Settles.of_true 1).congr (by simp [Shape.Fits, Shape.parts, Shape.bits, widthLimit])
      | uint n => exact (Settles.of_true n.toNat).congr (by simpa [Shape.Fits, Shape.parts, Shape.bits, widthLimit] using n.toNat_lt)
      | int n => exact (Settles.of_true n.toNat).congr (by simpa [Shape.Fits, Shape.parts, Shape.bits, widthLimit] using n.toNat_lt)
      | @tuple _ fs h =>
        have hfields : List.Forall₂ (fun a s => ∃ k bs, a = .type k bs ∧ Settles s.Fits s.bits (DataType.mk k bs).width)
            as fs := by
          refine ((List.forall₂_and_left as fs).2 ⟨ih, h⟩).imp ?_
          rintro a s ⟨ha, hs⟩
          obtain ⟨k, bs, rfl⟩ := hs.exists_type
          exact ⟨k, bs, rfl, ha k bs s rfl hs⟩
        rw [DataType.width_tuple]
        refine Settles.congr ?_ (Shape.fits_tuple fs).symm
        simpa only [Nat.zero_add, Shape.bits] using
          settles_sum (DataType.forall₂_typeArgWidth hfields) (show 0 < widthLimit by decide)
      | @array a e h n as =>
        obtain ⟨k, bs, rfl⟩ := h.exists_type
        have helement := ih _ List.mem_cons_self k bs e rfl h
        exact (helement.bind fun _ => Settles.mulWidths e.bits n.toNat).congr (Shape.fits_array e n).symm
      | @queue a d h n as =>
        obtain ⟨k, bs, rfl⟩ := h.exists_type
        have hdata := ih _ List.mem_cons_self k bs d rfl h
        exact (hdata.bind fun _ => Settles.addWidths d.bits n.toNat).congr (Shape.fits_queue d n).symm
  exact hall _ k as s rfl h

theorem reads_of_forall {as : List TypeArg} (h : ∀ a ∈ as, ∃ s, a.Reads s) : ∃ fs, List.Forall₂ Reads as fs := by
  induction as with
  | nil => exact ⟨[], .nil⟩
  | cons a as ih =>
    obtain ⟨⟨s, hs⟩, has⟩ := List.forall_mem_cons.1 h
    obtain ⟨fs, hfs⟩ := ih has
    exact ⟨s :: fs, .cons hs hfs⟩

/-- A width is computed only if the arguments that it depends on are given. -/
theorem exists_reads {k : TypeKind} {as : List TypeArg} {w : Nat} (h : (DataType.mk k as).width = .ok w) :
    ∃ s, (type k as).Reads s := by
  have hall : ∀ a : TypeArg, ∀ k as w, a = .type k as → (DataType.mk k as).width = .ok w → ∃ s, a.Reads s := by
    intro a
    induction a using inductionOn with
    | width n => rintro k as w ⟨⟩
    | param p => rintro k as w ⟨⟩
    | type k as ih =>
      rintro _ _ w ⟨⟩ h
      cases k with
      | unit => exact ⟨.unit, .unit as⟩
      | bool => exact ⟨.bool, .bool as⟩
      | uint =>
        obtain ⟨n, hn, _⟩ := DataType.widthArg_eq_ok h
        obtain ⟨bs, rfl⟩ := List.head?_eq_some_iff.1 (List.head?_eq_getElem?.trans hn)
        exact ⟨.uint n, .uint n bs⟩
      | int =>
        obtain ⟨n, hn, _⟩ := DataType.widthArg_eq_ok h
        obtain ⟨bs, rfl⟩ := List.head?_eq_some_iff.1 (List.head?_eq_getElem?.trans hn)
        exact ⟨.int n, .int n bs⟩
      | tuple =>
        rw [DataType.width_tuple] at h
        have hread : ∀ a ∈ as, ∃ s, a.Reads s := by
          intro a ha
          obtain ⟨i, hi, rfl⟩ := List.mem_iff_getElem.1 ha
          obtain ⟨n, hn⟩ := foldlM_addWidths_eq_ok h _ (List.mem_map_of_mem (List.mem_range.2 hi))
          obtain ⟨k, bs, harg, hwidth⟩ := DataType.typeArgWidth_eq_ok hn
          exact ih _ ha k bs n (Option.some.inj ((List.getElem?_eq_getElem hi).symm.trans harg)) hwidth
        obtain ⟨fs, hfs⟩ := reads_of_forall hread
        exact ⟨.tuple fs, .tuple hfs⟩
      | array =>
        obtain ⟨m, hm, h⟩ := Checked.bind_eq_ok.1 h
        obtain ⟨n, hn, _⟩ := Checked.bind_eq_ok.1 h
        obtain ⟨k, bs, len, as, rfl, hwidth⟩ := DataType.args_of_eq_ok hm hn
        obtain ⟨e, he⟩ := ih _ List.mem_cons_self k bs m rfl hwidth
        exact ⟨.array e len, .array he len as⟩
      | queue =>
        obtain ⟨m, hm, h⟩ := Checked.bind_eq_ok.1 h
        obtain ⟨n, hn, _⟩ := Checked.bind_eq_ok.1 h
        obtain ⟨k, bs, len, as, rfl, hwidth⟩ := DataType.args_of_eq_ok hm hn
        obtain ⟨d, hd⟩ := ih _ List.mem_cons_self k bs m rfl hwidth
        exact ⟨.queue d len, .queue hd len as⟩
  exact hall _ k as w rfl h

end TypeArg

namespace DataType

theorem width_eq_ok_iff {t : DataType} {w : Nat} :
    t.width = .ok w ↔ ∃ s, t.toArg.Reads s ∧ s.Fits ∧ w = s.bits := by
  constructor
  · intro h
    obtain ⟨s, hs⟩ := TypeArg.exists_reads h
    exact ⟨s, hs, hs.settles.eq_ok_iff.1 h⟩
  · rintro ⟨s, hs, hfits⟩
    exact hs.settles.eq_ok_iff.2 hfits

/-- A type made of the basic types has a width if its width in exact arithmetic and those of the types inside it are less
than 2^64, and then it is the exact one. If one of these is not, then a sum or a product overflows. Any other type has a
width only if it reads as such a type. -/
theorem width_exact :
    (∀ (s : Shape) (w : Nat), s.type.width = .ok w ↔ (∀ p ∈ s.parts, p.bits < UInt64.size) ∧ w = s.bits) ∧
    (∀ s : Shape, (∃ p ∈ s.parts, UInt64.size ≤ p.bits) →
      s.type.width = .abort .addOverflow ∨ s.type.width = .abort .multiplyOverflow) ∧
    ∀ (t : DataType) (w : Nat), t.width = .ok w ↔
      ∃ s, t.toArg.Reads s ∧ (∀ p ∈ s.parts, p.bits < UInt64.size) ∧ w = s.bits := by
  refine ⟨fun s w => s.reads_type.settles.eq_ok_iff, ?_, fun t w => width_eq_ok_iff⟩
  rintro s ⟨p, hp, hlarge⟩
  exact s.reads_type.settles.overflows fun hfits => Nat.not_lt.2 hlarge (hfits p hp)

/-- An array of length 0 has no bits, but those of its elements are counted first. -/
example : (Shape.array (.tuple [.uint 9223372036854775808, .uint 9223372036854775808]) 0).bits = 0 ∧
    (Shape.array (.tuple [.uint 9223372036854775808, .uint 9223372036854775808]) 0).type.width =
      .abort .addOverflow := by
  decide

end DataType

end Sequencer
