import Mathlib.Data.List.Destutter
import Mathlib.Data.List.Sort
import Sequencer.Expr.Spelling
import Sequencer.Proofs.Name

set_option autoImplicit false

/-!
# Spellings and the order of expressions

A spelling ends where the next one begins, so no two expressions share one. Hence the order by text and then by spelling
is total, and a set of expressions has only one list in this order.
-/

namespace Sequencer

namespace Spelling

/-- A character that ends a number or a label. -/
def isDelimiter (c : Char) : Bool := c == ',' || c == ')' || c == '['

/-- A text without delimiters. -/
def Plain (t : String) : Prop := ∀ c ∈ t.toList, isDelimiter c = false

instance (t : String) : Decidable (Plain t) := List.decidableBAll _ t.toList

/-- What stands before the first character of a kind is determined by the whole. -/
theorem append_cons_inj {p : Char → Bool} {xs ys r s : List Char} {c d : Char} (hxs : ∀ x ∈ xs, p x = false)
    (hys : ∀ y ∈ ys, p y = false) (hc : p c = true) (hd : p d = true) (h : xs ++ c :: r = ys ++ d :: s) :
    xs = ys ∧ c = d ∧ r = s := by
  induction xs generalizing ys with
  | nil =>
    cases ys with
    | nil => simpa using h
    | cons y ys =>
      obtain ⟨rfl, _⟩ := List.cons.inj h
      exact absurd (hys c List.mem_cons_self) (by simp [hc])
  | cons x xs ih =>
    cases ys with
    | nil =>
      obtain ⟨rfl, _⟩ := List.cons.inj h
      exact absurd (hxs x List.mem_cons_self) (by simp [hd])
    | cons y ys =>
      obtain ⟨rfl, htail⟩ := List.cons.inj h
      obtain ⟨rfl, hrest⟩ := ih (List.forall_mem_cons.1 hxs).2 (List.forall_mem_cons.1 hys).2 htail
      exact ⟨rfl, hrest⟩

/-- Texts without delimiters, different for different values. -/
structure Labels {α : Type} (label : α → String) : Prop where
  plain (a : α) : Plain (label a)
  inj {a b : α} : label a = label b → a = b

theorem Labels.append_inj {α : Type} {label : α → String} (hl : Labels label) {a b : α} {c d : Char} {r s : List Char}
    (hc : isDelimiter c = true) (hd : isDelimiter d = true) (h : (label a).toList ++ c :: r = (label b).toList ++ d :: s) :
    a = b ∧ r = s := by
  obtain ⟨hlabel, _, hrest⟩ := append_cons_inj (hl.plain a) (hl.plain b) hc hd h
  exact ⟨hl.inj (String.toList_inj.1 hlabel), hrest⟩

theorem ne_of_mem_repr {n : Nat} {c d : Char} (h : c ∈ n.repr.toList) (hd : d.isDigit = false) : c ≠ d := by
  rw [Nat.toList_repr] at h
  have hdigit := Nat.isDigit_of_mem_toDigits (by decide) (by decide) h
  rintro rfl
  rw [hd] at hdigit
  cases hdigit

theorem labels_nat : Labels (fun n : Nat => toString n) where
  plain n c hc := by
    have hne : ∀ d, d.isDigit = false → (c == d) = false := fun d hd => beq_eq_false_iff_ne.2 (ne_of_mem_repr hc hd)
    rw [isDelimiter, hne ',' rfl, hne ')' rfl, hne '[' rfl]
    rfl
  inj := Name.toString_inj.1

theorem int_repr_inj {m n : Int} (h : m.repr = n.repr) : m = n := by
  have hsign : ∀ {a b : Nat}, a.repr ≠ "-" ++ b.repr := by
    intro a b h
    have hmem : '-' ∈ a.repr.toList := by
      rw [h]
      simp
    exact ne_of_mem_repr hmem rfl rfl
  cases m with
  | ofNat a =>
    cases n with
    | ofNat b => exact congrArg Int.ofNat (Name.toString_inj.1 h)
    | negSucc b => exact absurd h hsign
  | negSucc a =>
    cases n with
    | ofNat b => exact absurd h.symm hsign
    | negSucc b => exact congrArg Int.negSucc (Nat.succ.inj (Name.toString_inj.1 ((String.append_right_inj "-").1 h)))

theorem labels_int : Labels (fun n : Int => toString n) where
  plain n := by
    cases n with
    | ofNat n => exact labels_nat.plain n
    | negSucc n =>
      intro c hc
      rw [Int.toString_eq_repr, Int.repr, String.toList_append, List.mem_append] at hc
      rcases hc with hc | hc
      · have hc : c = '-' := by simpa using hc
        rw [hc]
        rfl
      · exact labels_nat.plain _ c hc
  inj := int_repr_inj

/-- Labels of finitely many values can be looked up. -/
theorem labels_of_find {α : Type} {label : α → String} (values : List α)
    (h : ∀ a, Plain (label a) ∧ values.find? (label · == label a) = some a) : Labels label where
  plain a := (h a).1
  inj {a b} hab := by
    have ha := (h a).2
    rw [hab, (h b).2] at ha
    exact (Option.some.inj ha).symm

theorem labels_binOp : Labels BinOp.label :=
  labels_of_find [.and, .or, .xor, .add, .sub, .mul, .eq, .ne, .lt, .le, .gt, .ge, .shl, .shr, .bitAnd, .bitOr]
    fun op => by cases op <;> decide

theorem labels_unOp : Labels UnOp.label := labels_of_find [.not, .invert, .neg] fun op => by cases op <;> decide

theorem labels_storage : Labels Storage.label := labels_of_find [.register, .latch, .port] fun s => by cases s <;> decide

theorem labels_time : Labels ReadTime.label := labels_of_find [.held, .next] fun t => by cases t <;> decide

theorem labels_kind : Labels TypeKind.label :=
  labels_of_find [.unit, .bool, .uint, .int, .tuple, .array, .queue] fun k => by cases k <;> decide

theorem digitChar_inj : ∀ m < 16, ∀ n < 16, Nat.digitChar m = Nat.digitChar n → m = n := by decide

theorem toDigits_inj {m n : Nat} (h : Nat.toDigits 16 m = Nat.toDigits 16 n) : m = n := by
  have hlong : ∀ {d n : Nat}, 16 ≤ n → [Nat.digitChar d] ≠ Nat.toDigits 16 n := by
    intro d n hn h
    rw [Nat.toDigits_of_base_le (by decide) hn] at h
    exact Nat.toDigits_ne_nil (List.append_inj' (show [] ++ [Nat.digitChar d] = _ from h) rfl).1.symm
  induction m using Nat.strongRecOn generalizing n with
  | ind m ih =>
    rcases Nat.lt_or_ge m 16 with hm | hm
    · rw [Nat.toDigits_of_lt_base hm] at h
      rcases Nat.lt_or_ge n 16 with hn | hn
      · rw [Nat.toDigits_of_lt_base hn] at h
        exact digitChar_inj m hm n hn (by simpa using h)
      · exact absurd h (hlong hn)
    · rcases Nat.lt_or_ge n 16 with hn | hn
      · rw [Nat.toDigits_of_lt_base hn] at h
        exact absurd h.symm (hlong hm)
      · rw [Nat.toDigits_of_base_le (by decide) hm, Nat.toDigits_of_base_le (by decide) hn] at h
        obtain ⟨hfront, hlast⟩ := List.append_inj' h rfl
        have hdiv := ih (m / 16) (by omega) hfront
        have hmod := digitChar_inj (m % 16) (by omega) (n % 16) (by omega) (by simpa using hlast)
        omega

theorem ne_of_mem_toDigits {n : Nat} {c : Char} (h : c ∈ Nat.toDigits 16 n) : c ≠ '\x7d' := by
  induction n using Nat.strongRecOn with
  | ind n ih =>
    have hdigit : ∀ d < 16, Nat.digitChar d ≠ '\x7d' := by decide
    rw [Nat.toDigits_eq_if (by decide)] at h
    split at h
    · exact List.mem_singleton.1 h ▸ hdigit n ‹_›
    · rcases List.mem_append.1 h with h | h
      · exact ih (n / 16) (by omega) h
      · exact List.mem_singleton.1 h ▸ hdigit (n % 16) (by omega)

/-- The character that a letter after a backslash stands for. -/
def named : Char → Option Char
  | '"' => some '"'
  | '\\' => some '\\'
  | 'n' => some '\n'
  | 'r' => some '\r'
  | 't' => some '\t'
  | '0' => some (Char.ofNat 0)
  | _ => none

/-- A character is written as it is, or by name, or by number. -/
theorem escape_cases (c : Char) : (escape c = [c] ∧ c ≠ '"' ∧ c ≠ '\\') ∨ (∃ x, escape c = ['\\', x] ∧ named x = some c) ∨
    escape c = '\\' :: 'u' :: '\x7b' :: (Nat.toDigits 16 c.toNat ++ ['\x7d']) := by
  unfold escape
  split
  · rename_i h
    rcases h with rfl | rfl
    · exact .inr (.inl ⟨'"', rfl, rfl⟩)
    · exact .inr (.inl ⟨'\\', rfl, rfl⟩)
  · rename_i h
    rw [not_or] at h
    split
    · rename_i h
      exact .inr (.inl ⟨'n', rfl, h ▸ rfl⟩)
    · split
      · rename_i h
        exact .inr (.inl ⟨'r', rfl, h ▸ rfl⟩)
      · split
        · rename_i h
          exact .inr (.inl ⟨'t', rfl, h ▸ rfl⟩)
        · split
          · rename_i hzero
            have hc : c = Char.ofNat 0 := by rw [← hzero, Char.ofNat_toNat]
            exact .inr (.inl ⟨'0', rfl, hc ▸ rfl⟩)
          · split
            · exact .inr (.inr rfl)
            · exact .inl ⟨rfl, h⟩

theorem escape_append_inj {c d : Char} {r s : List Char} (h : escape c ++ r = escape d ++ s) : c = d ∧ r = s := by
  rcases escape_cases c with ⟨hc, _, hc'⟩ | ⟨x, hc, hx⟩ | hc
  · rcases escape_cases d with ⟨hd, _, _⟩ | ⟨y, hd, _⟩ | hd
    · rw [hc, hd] at h
      simpa using h
    · rw [hc, hd] at h
      exact absurd (List.cons.inj h).1 hc'
    · rw [hc, hd] at h
      exact absurd (List.cons.inj h).1 hc'
  · rcases escape_cases d with ⟨hd, _, hd'⟩ | ⟨y, hd, hy⟩ | hd
    · rw [hc, hd] at h
      exact absurd (List.cons.inj h).1.symm hd'
    · rw [hc, hd] at h
      obtain ⟨rfl, hrs⟩ : x = y ∧ r = s := by simpa using h
      rw [hx] at hy
      exact ⟨Option.some.inj hy, hrs⟩
    · rw [hc, hd] at h
      obtain ⟨rfl, _⟩ : x = 'u' ∧ _ := by simpa using h
      cases hx
  · rcases escape_cases d with ⟨hd, _, hd'⟩ | ⟨y, hd, hy⟩ | hd
    · rw [hc, hd] at h
      exact absurd (List.cons.inj h).1.symm hd'
    · rw [hc, hd] at h
      obtain ⟨rfl, _⟩ : 'u' = y ∧ _ := by simpa using h
      cases hy
    · rw [hc, hd] at h
      have hdigits : Nat.toDigits 16 c.toNat ++ '\x7d' :: r = Nat.toDigits 16 d.toNat ++ '\x7d' :: s := by simpa using h
      obtain ⟨hnum, _, hrs⟩ := append_cons_inj (fun x hx => beq_eq_false_iff_ne.2 (ne_of_mem_toDigits hx))
        (fun x hx => beq_eq_false_iff_ne.2 (ne_of_mem_toDigits hx)) (beq_self_eq_true _) (beq_self_eq_true _) hdigits
      exact ⟨Char.toNat_inj.1 (toDigits_inj hnum), hrs⟩

/-- Escaped characters up to a quote that is not escaped. -/
theorem escapes_append_inj {cs ds r s : List Char} (h : cs.flatMap escape ++ '"' :: r = ds.flatMap escape ++ '"' :: s) :
    cs = ds ∧ r = s := by
  have hquote : ∀ (c : Char) (r s : List Char), '"' :: r ≠ escape c ++ s := by
    intro c r s h
    rcases escape_cases c with ⟨hc, hne, _⟩ | ⟨x, hc, _⟩ | hc
    · rw [hc] at h
      exact hne (List.cons.inj h).1.symm
    · rw [hc] at h
      exact absurd (List.cons.inj h).1 (by decide)
    · rw [hc] at h
      exact absurd (List.cons.inj h).1 (by decide)
  induction cs generalizing ds with
  | nil =>
    cases ds with
    | nil => simpa using h
    | cons d ds =>
      rw [List.flatMap_cons, List.append_assoc] at h
      exact absurd h (hquote _ _ _)
  | cons c cs ih =>
    rw [List.flatMap_cons, List.append_assoc] at h
    cases ds with
    | nil => exact absurd h.symm (hquote _ _ _)
    | cons d ds =>
      rw [List.flatMap_cons, List.append_assoc] at h
      obtain ⟨rfl, htail⟩ := escape_append_inj h
      obtain ⟨rfl, hrs⟩ := ih htail
      exact ⟨rfl, hrs⟩

/-- The spelling of `a` determines where it ends, whatever follows. -/
def Delimits {α : Type} (code : α → String) (a : α) : Prop :=
  ∀ b r s, (code a).toList ++ r = (code b).toList ++ s → a = b ∧ r = s

theorem quote_delimits (t : String) : Delimits quote t := by
  intro u r s h
  have hchars : t.toList.flatMap escape ++ '"' :: r = u.toList.flatMap escape ++ '"' :: s := by simpa [quote] using h
  obtain ⟨htu, hrs⟩ := escapes_append_inj hchars
  exact ⟨String.toList_inj.1 htu, hrs⟩

theorem toList_list (items : List String) :
    (list items).toList = '[' :: ([','].intercalate (items.map String.toList) ++ [']']) := by
  simp [list, String.toList_intercalate]

theorem intercalate_comma (x : List Char) (xs : List (List Char)) :
    [','].intercalate (x :: xs) = x ++ xs.flatMap fun y => ',' :: y := by
  induction xs generalizing x with
  | nil => simp
  | cons y ys ih =>
    rw [List.intercalate_cons_cons, ih, List.flatMap_cons]
    simp

section Items

variable {α : Type} {code : α → String}

theorem toList_list_cons (x : α) (xs : List α) : (list ((x :: xs).map code)).toList =
    '[' :: ((code x).toList ++ ((xs.flatMap fun y => ',' :: (code y).toList) ++ [']'])) := by
  rw [toList_list, List.map_cons, List.map_cons, intercalate_comma, List.append_assoc]
  simp [List.flatMap_map]

/-- The items after the first one end with the closing bracket. -/
theorem items_append_inj {as bs : List α} (has : ∀ a ∈ as, Delimits code a) {r s : List Char}
    (h : (as.flatMap fun a => ',' :: (code a).toList) ++ ']' :: r =
      (bs.flatMap fun b => ',' :: (code b).toList) ++ ']' :: s) : as = bs ∧ r = s := by
  induction as generalizing bs with
  | nil =>
    cases bs with
    | nil => simpa using h
    | cons b bs => simp at h
  | cons a as ih =>
    cases bs with
    | nil => simp at h
    | cons b bs =>
      obtain ⟨ha, has⟩ := List.forall_mem_cons.1 has
      rw [List.flatMap_cons, List.flatMap_cons, List.append_assoc, List.append_assoc, List.cons_append,
        List.cons_append] at h
      obtain ⟨rfl, hrest⟩ := ha b _ _ (List.cons.inj h).2
      obtain ⟨rfl, hrs⟩ := ih has hrest
      exact ⟨rfl, hrs⟩

/-- Items of a list delimit themselves, and no item begins with the closing bracket. -/
theorem list_append_inj (hcode : ∀ a, ∃ c cs, (code a).toList = c :: cs ∧ c ≠ ']')
    {as bs : List α} (has : ∀ a ∈ as, Delimits code a) {r s : List Char}
    (h : (list (as.map code)).toList ++ r = (list (bs.map code)).toList ++ s) : as = bs ∧ r = s := by
  have hfirst : ∀ (x : α) (r s : List Char), ']' :: r ≠ (code x).toList ++ s := by
    intro x r s h
    obtain ⟨c, cs, hx, hne⟩ := hcode x
    rw [hx] at h
    exact hne (List.cons.inj h).1.symm
  cases as with
  | nil =>
    cases bs with
    | nil => simpa [toList_list] using h
    | cons b bs =>
      rw [toList_list_cons, toList_list] at h
      exact absurd (by simpa using h) (hfirst b r _)
  | cons a as =>
    cases bs with
    | nil =>
      rw [toList_list_cons, toList_list] at h
      exact absurd (by simpa using h.symm) (hfirst a s _)
    | cons b bs =>
      obtain ⟨ha, has⟩ := List.forall_mem_cons.1 has
      rw [toList_list_cons, toList_list_cons] at h
      obtain ⟨rfl, hrest⟩ := ha b _ _ (by simpa using h)
      obtain ⟨rfl, hrs⟩ := items_append_inj has hrest
      exact ⟨rfl, hrs⟩

end Items

end Spelling

open Spelling

theorem TypeArg.spellings_eq (as : List TypeArg) : TypeArg.spellings as = as.map TypeArg.spelling := by
  induction as with
  | nil => rfl
  | cons a as ih => rw [TypeArg.spellings, ih, List.map_cons]

theorem TypeArg.spelling_head (a : TypeArg) : ∃ c cs, a.spelling.toList = c :: cs ∧ c ≠ ']' := by
  cases a with
  | width n => exact ⟨'W', _, by simp [TypeArg.spelling]; rfl, by decide⟩
  | type k as => exact ⟨'T', _, by simp [TypeArg.spelling]; rfl, by decide⟩
  | param p => exact ⟨'P', _, by simp [TypeArg.spelling]; rfl, by decide⟩

/-- A kind with its arguments, each of which delimits itself. -/
theorem DataType.spellingOf_append_inj {k l : TypeKind} {as bs : List TypeArg}
    (has : ∀ a ∈ as, Delimits TypeArg.spelling a) {r s : List Char}
    (h : (spellingOf k (TypeArg.spellings as)).toList ++ r = (spellingOf l (TypeArg.spellings bs)).toList ++ s) :
    k = l ∧ as = bs ∧ r = s := by
  rw [spellingOf, spellingOf, TypeArg.spellings_eq, TypeArg.spellings_eq, String.toList_append, String.toList_append,
    List.append_assoc, List.append_assoc] at h
  have hkind := h
  rw [toList_list, toList_list] at hkind
  obtain ⟨rfl, _⟩ := labels_kind.append_inj rfl rfl hkind
  obtain ⟨rfl, hrs⟩ := list_append_inj TypeArg.spelling_head has (List.append_cancel_left h)
  exact ⟨rfl, rfl, hrs⟩

mutual
theorem TypeArg.spelling_delimits : (a : TypeArg) → Delimits TypeArg.spelling a
  | .width n => by
    intro b r s h
    cases b with
    | width m =>
      have hnum : (toString n.toNat).toList ++ ')' :: r = (toString m.toNat).toList ++ ')' :: s := by
        simpa [TypeArg.spelling] using h
      obtain ⟨hnm, hrs⟩ := labels_nat.append_inj rfl rfl hnum
      exact ⟨congrArg _ (UInt64.toNat_inj.1 hnm), hrs⟩
    | type l bs => simp [TypeArg.spelling] at h
    | param q => simp [TypeArg.spelling] at h
  | .type k as => by
    intro b r s h
    cases b with
    | width m => simp [TypeArg.spelling] at h
    | type l bs =>
      obtain ⟨rfl, rfl, hrs⟩ := DataType.spellingOf_append_inj (TypeArg.all_spelling_delimits as)
        (r := ')' :: r) (s := ')' :: s) (by simpa [TypeArg.spelling] using h)
      exact ⟨rfl, (List.cons.inj hrs).2⟩
    | param q => simp [TypeArg.spelling] at h
  | .param p => by
    intro b r s h
    cases b with
    | width m => simp [TypeArg.spelling] at h
    | type l bs => simp [TypeArg.spelling] at h
    | param q =>
      obtain ⟨rfl, hrs⟩ := quote_delimits p q (')' :: r) (')' :: s) (by simpa [TypeArg.spelling] using h)
      exact ⟨rfl, (List.cons.inj hrs).2⟩
theorem TypeArg.all_spelling_delimits : (as : List TypeArg) → ∀ a ∈ as, Delimits TypeArg.spelling a
  | [] => fun _ h => absurd h List.not_mem_nil
  | a :: as => List.forall_mem_cons.2 ⟨TypeArg.spelling_delimits a, TypeArg.all_spelling_delimits as⟩
end

theorem DataType.spelling_delimits (t : DataType) : Delimits DataType.spelling t := by
  intro u r s h
  obtain ⟨hkind, hargs, hrs⟩ := spellingOf_append_inj (TypeArg.all_spelling_delimits t.args) h
  cases t
  cases u
  cases hkind
  cases hargs
  exact ⟨rfl, hrs⟩

namespace Expr

theorem spellings_eq (as : List Expr) : spellings as = as.map spelling := by
  induction as with
  | nil => rfl
  | cons a as ih => rw [spellings, ih, List.map_cons]

-- The equations of the definition hold by unfolding; they are stated so that no proof has to derive them.
@[simp]
theorem spelling_lit (l : Literal) : (lit l).spelling = "Res(" ++ toString l.val ++ "," ++ l.type.spelling ++ ")" := rfl

@[simp]
theorem spelling_operand (o : Operand) : (operand o).spelling = "Operand(" ++ quote o.name ++ "," ++ o.storage.label ++
    "," ++ o.time.label ++ "," ++ o.type.spelling ++ ")" := rfl

@[simp]
theorem spelling_wire (w : Wire) : (wire w).spelling = "Signal(" ++ quote w.name ++ "," ++ toString w.width ++ ")" := rfl

@[simp]
theorem spelling_bin (op : BinOp) (l r : Expr) :
    (bin op l r).spelling = "BinOp(" ++ op.label ++ "," ++ l.spelling ++ "," ++ r.spelling ++ ")" := rfl

@[simp]
theorem spelling_un (op : UnOp) (a : Expr) : (un op a).spelling = "UnaryOp(" ++ op.label ++ "," ++ a.spelling ++ ")" := rfl

@[simp]
theorem spelling_concat (as : List Expr) : (concat as).spelling = "Concat(" ++ list (spellings as) ++ ")" := rfl

theorem spelling_head (e : Expr) : ∃ c cs, e.spelling.toList = c :: cs ∧ c ≠ ']' := by
  cases e with
  | lit l => exact ⟨'R', _, by simp; rfl, by decide⟩
  | operand o => exact ⟨'O', _, by simp; rfl, by decide⟩
  | wire w => exact ⟨'S', _, by simp; rfl, by decide⟩
  | bin op l r => exact ⟨'B', _, by simp; rfl, by decide⟩
  | un op a => exact ⟨'U', _, by simp; rfl, by decide⟩
  | concat as => exact ⟨'C', _, by simp; rfl, by decide⟩

mutual
theorem spelling_delimits : (e : Expr) → Delimits spelling e
  | .lit l => by
    intro e' r s h
    cases e' with
    | lit l' =>
      obtain ⟨v, t⟩ := l
      obtain ⟨v', t'⟩ := l'
      obtain ⟨rfl, htype⟩ := labels_int.append_inj (a := v) (b := v') (c := ',') (d := ',') rfl rfl (by simpa using h)
      obtain ⟨rfl, hrs⟩ := t.spelling_delimits t' _ _ htype
      exact ⟨rfl, (List.cons.inj hrs).2⟩
    | operand | wire | bin | un | concat => simp at h
  | .operand o => by
    intro e' r s h
    cases e' with
    | operand o' =>
      obtain ⟨n, k, t, ty⟩ := o
      obtain ⟨n', k', t', ty'⟩ := o'
      obtain ⟨rfl, hstorage⟩ := quote_delimits n n' (',' :: _) (',' :: _) (by simpa using h)
      obtain ⟨rfl, htime⟩ := labels_storage.append_inj rfl rfl (List.cons.inj hstorage).2
      obtain ⟨rfl, htype⟩ := labels_time.append_inj rfl rfl htime
      obtain ⟨rfl, hrs⟩ := ty.spelling_delimits ty' _ _ htype
      exact ⟨rfl, (List.cons.inj hrs).2⟩
    | lit | wire | bin | un | concat => simp at h
  | .wire w => by
    intro e' r s h
    cases e' with
    | wire w' =>
      obtain ⟨n, k⟩ := w
      obtain ⟨n', k'⟩ := w'
      obtain ⟨rfl, hwidth⟩ := quote_delimits n n' (',' :: ((toString k).toList ++ ')' :: r))
        (',' :: ((toString k').toList ++ ')' :: s)) (by simpa using h)
      obtain ⟨rfl, hrs⟩ := labels_nat.append_inj rfl rfl (List.cons.inj hwidth).2
      exact ⟨rfl, hrs⟩
    | lit | operand | bin | un | concat => simp at h
  | .bin op l r => by
    intro e' r' s h
    cases e' with
    | bin op' l' r₁ =>
      obtain ⟨rfl, hleft⟩ := labels_binOp.append_inj (a := op) (b := op') (c := ',') (d := ',') rfl rfl
        (by simpa using h)
      obtain ⟨rfl, hright⟩ := spelling_delimits l l' _ _ hleft
      obtain ⟨rfl, hrs⟩ := spelling_delimits r r₁ _ _ (List.cons.inj hright).2
      exact ⟨rfl, (List.cons.inj hrs).2⟩
    | lit | operand | wire | un | concat => simp at h
  | .un op a => by
    intro e' r s h
    cases e' with
    | un op' a' =>
      obtain ⟨rfl, harg⟩ := labels_unOp.append_inj (a := op) (b := op') (c := ',') (d := ',') rfl rfl
        (by simpa using h)
      obtain ⟨rfl, hrs⟩ := spelling_delimits a a' _ _ harg
      exact ⟨rfl, (List.cons.inj hrs).2⟩
    | lit | operand | wire | bin | concat => simp at h
  | .concat as => by
    intro e' r s h
    cases e' with
    | concat bs =>
      have hlist : (list (as.map spelling)).toList ++ ')' :: r = (list (bs.map spelling)).toList ++ ')' :: s := by
        simpa [spellings_eq] using h
      obtain ⟨rfl, hrs⟩ := list_append_inj spelling_head (all_spelling_delimits as) hlist
      exact ⟨rfl, (List.cons.inj hrs).2⟩
    | lit | operand | wire | bin | un => simp at h
theorem all_spelling_delimits : (as : List Expr) → ∀ a ∈ as, Delimits spelling a
  | [] => fun _ h => absurd h List.not_mem_nil
  | a :: as => List.forall_mem_cons.2 ⟨spelling_delimits a, all_spelling_delimits as⟩
end

theorem spelling_inj {a b : Expr} (h : a.spelling = b.spelling) : a = b :=
  (spelling_delimits a b [] [] (by rw [h])).1

end Expr

namespace Name

theorem leChars_total (cs ds : List Char) : leChars cs ds = true ∨ leChars ds cs = true := by
  fun_induction leChars cs ds with
  | case1 => exact .inl rfl
  | case2 => exact .inr rfl
  | case3 cs d ds ih =>
    rw [leChars, if_pos rfl]
    exact ih
  | case4 c cs d ds hne =>
    rw [leChars, if_neg (Ne.symm hne)]
    have := Char.toNat_inj.not.2 hne
    simp only [Nat.blt_eq]
    omega

theorem leChars_antisymm {cs ds : List Char} (h : leChars cs ds = true) (h' : leChars ds cs = true) : cs = ds := by
  fun_induction leChars cs ds with
  | case1 ds =>
    cases ds with
    | nil => rfl
    | cons d ds => cases h'
  | case2 => cases h
  | case3 cs d ds ih =>
    rw [leChars, if_pos rfl] at h'
    rw [ih h h']
  | case4 c cs d ds hne =>
    rw [leChars, if_neg (Ne.symm hne)] at h'
    simp only [Nat.blt_eq] at h h'
    omega

theorem leChars_trans {cs ds es : List Char} (h : leChars cs ds = true) (h' : leChars ds es = true) :
    leChars cs es = true := by
  fun_induction leChars cs ds generalizing es with
  | case1 => rfl
  | case2 => cases h
  | case3 cs d ds ih =>
    cases es with
    | nil => cases h'
    | cons e es =>
      rw [leChars] at h' ⊢
      split at h'
      · rw [if_pos ‹_›]
        exact ih h h'
      · rw [if_neg ‹_›]
        exact h'
  | case4 c cs d ds hne =>
    cases es with
    | nil => cases h'
    | cons e es =>
      rw [leChars] at h' ⊢
      simp only [Nat.blt_eq] at h h'
      split at h'
      · rename_i hde
        rw [if_neg (hde ▸ hne)]
        simpa [hde] using h
      · have hlt := Nat.lt_trans h (by simpa using h')
        rw [if_neg (by rintro rfl; omega)]
        simpa using hlt

end Name

namespace Expr

theorem keyLe_total (a b : String × String) : (keyLe a b || keyLe b a) = true := by
  rw [Bool.or_eq_true, keyLe, keyLe]
  by_cases h : a.1 = b.1
  · rw [if_pos h, if_pos h.symm]
    exact Name.leChars_total _ _
  · rw [if_neg h, if_neg (Ne.symm h)]
    exact Name.leChars_total _ _

theorem keyLe_trans (a b c : String × String) (h : keyLe a b = true) (h' : keyLe b c = true) : keyLe a c = true := by
  rw [keyLe] at h h' ⊢
  split at h
  · rename_i hab
    split at h'
    · rename_i hbc
      rw [if_pos (hab.trans hbc)]
      exact Name.leChars_trans h h'
    · rename_i hbc
      rw [if_neg (hab ▸ hbc), hab]
      exact h'
  · rename_i hab
    split at h'
    · rename_i hbc
      rw [if_neg (hbc ▸ hab), ← hbc]
      exact h
    · rename_i hbc
      have hac : a.1 ≠ c.1 := by
        intro hac
        rw [← hac] at h'
        exact hab (String.toList_inj.1 (Name.leChars_antisymm h h'))
      rw [if_neg hac]
      exact Name.leChars_trans h h'

theorem keyLe_antisymm {a b : String × String} (h : keyLe a b = true) (h' : keyLe b a = true) : a = b := by
  rw [keyLe] at h h'
  by_cases hab : a.1 = b.1
  · rw [if_pos hab] at h
    rw [if_pos hab.symm] at h'
    exact Prod.ext hab (String.toList_inj.1 (Name.leChars_antisymm h h'))
  · rw [if_neg hab] at h
    rw [if_neg (Ne.symm hab)] at h'
    exact absurd (String.toList_inj.1 (Name.leChars_antisymm h h')) hab

/-- Expressions are ordered by text and then by spelling. -/
def Before (a b : Expr) : Prop := keyLe a.sortKey b.sortKey = true

instance : Std.Antisymm Before where
  antisymm _ _ h h' := spelling_inj (congrArg Prod.snd (keyLe_antisymm h h'))

theorem eraseReps_eq_destutter (es : List Expr) : es.eraseReps = es.destutter (· ≠ ·) := by
  have hloop : ∀ (bs : List Expr) (b : Expr) (acc : List Expr),
      List.eraseRepsBy.loop (· == ·) b bs acc = acc.reverse ++ List.destutter' (· ≠ ·) b bs := by
    intro bs
    induction bs with
    | nil =>
      intro b acc
      simp [List.eraseRepsBy.loop]
    | cons c bs ih =>
      intro b acc
      rw [List.eraseRepsBy.loop, List.destutter']
      by_cases hbc : b = c
      · subst hbc
        simp [ih]
      · rw [beq_eq_false_iff_ne.2 hbc]
        simp [hbc, ih]
  cases es with
  | nil => rfl
  | cons e es => exact hloop es e []

theorem mem_eraseReps {e : Expr} {es : List Expr} : e ∈ es.eraseReps ↔ e ∈ es := by
  have hrest : ∀ (bs : List Expr) (b : Expr), e ∈ List.destutter' (· ≠ ·) b bs ↔ e = b ∨ e ∈ bs := by
    intro bs
    induction bs with
    | nil => simp
    | cons c bs ih =>
      intro b
      rw [List.destutter']
      by_cases hbc : b = c
      · subst hbc
        simp [ih]
      · simp [hbc, ih]
  rw [eraseReps_eq_destutter]
  cases es with
  | nil => rfl
  | cons b bs => exact (hrest bs b).trans List.mem_cons.symm

theorem mem_sortDistinct (e : Expr) (es : List Expr) : e ∈ sortDistinct es ↔ e ∈ es := by
  rw [sortDistinct, mem_eraseReps]
  simp only [List.mem_map, List.mem_mergeSort]
  constructor
  · rintro ⟨x, ⟨y, hy, rfl⟩, rfl⟩
    exact hy
  · intro he
    exact ⟨(e.sortKey, e), ⟨e, he, rfl⟩, rfl⟩

theorem sortDistinct_sorted (es : List Expr) : (sortDistinct es).Pairwise Before := by
  have hkeyed := List.pairwise_mergeSort (fun a b c : (String × String) × Expr => keyLe_trans a.1 b.1 c.1)
    (fun a b => keyLe_total a.1 b.1) (es.map fun e => (e.sortKey, e))
  have hkey : ∀ p ∈ (es.map fun e => (e.sortKey, e)).mergeSort (fun a b => keyLe a.1 b.1), p.1 = p.2.sortKey := by
    intro p hp
    obtain ⟨e, _, rfl⟩ := List.mem_map.1 (List.mem_mergeSort.1 hp)
    rfl
  rw [sortDistinct, eraseReps_eq_destutter]
  refine List.Pairwise.sublist (List.destutter_sublist _ _) ?_
  rw [List.pairwise_map]
  refine hkeyed.imp_of_mem fun ha hb h => ?_
  rw [hkey _ ha, hkey _ hb] at h
  exact h

theorem sortDistinct_nodup (es : List Expr) : (sortDistinct es).Nodup := by
  have hnodup : ∀ {l : List Expr}, l.Pairwise Before → l.IsChain (· ≠ ·) → l.Nodup := by
    intro l
    induction l with
    | nil => exact fun _ _ => List.nodup_nil
    | cons a l ih =>
      intro hsorted hchain
      obtain ⟨hfirst, hsorted⟩ := List.pairwise_cons.1 hsorted
      refine List.nodup_cons.2 ⟨fun hmem => ?_, ih hsorted hchain.tail⟩
      cases l with
      | nil => cases hmem
      | cons b l =>
        -- what comes between two copies of `a` is before and after `a`
        have hne : a ≠ b := List.IsChain.rel_head? hchain rfl
        rcases List.mem_cons.1 hmem with hab | hmem
        · exact hne hab
        · exact hne (antisymm (hfirst b List.mem_cons_self) ((List.pairwise_cons.1 hsorted).1 a hmem))
  refine hnodup (sortDistinct_sorted es) ?_
  rw [sortDistinct, eraseReps_eq_destutter]
  exact List.isChain_destutter _ _

/-- Of a larger set of expressions, the smaller one is listed in the same order. -/
theorem sortDistinct_sublist {es fs : List Expr} (h : es ⊆ fs) : (sortDistinct es).Sublist (sortDistinct fs) := by
  refine List.sublist_of_subperm_of_pairwise (List.subperm_of_subset (sortDistinct_nodup es) fun e he => ?_)
    (sortDistinct_sorted es) (sortDistinct_sorted fs)
  exact (mem_sortDistinct e fs).2 (h ((mem_sortDistinct e es).1 he))

end Expr

end Sequencer
