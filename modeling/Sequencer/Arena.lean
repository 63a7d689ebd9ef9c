import Sequencer.Fault

set_option autoImplicit false

/-!
# Arenas

Values kept under consecutive indices, which other values of the same arena may hold as links. Reading an index that
is not there aborts. `Arena.outline` unfolds the links below an index into a finite tree, on which all walks recurse.
-/

namespace Sequencer

structure Arena (α : Type) where
  items : Array α
deriving DecidableEq, Repr

namespace Arena

variable {α : Type}

def empty : Arena α := ⟨#[]⟩

instance : Inhabited (Arena α) := ⟨empty⟩

/-- An index is stored in 32 bits. -/
def index (n : Nat) : Nat := n % Nat.pow 2 32

def size (a : Arena α) : Nat := a.items.size

def isEmpty (a : Arena α) : Bool := a.items.isEmpty

/-- Adds a value at the end, under the index `a.size`. -/
def push (a : Arena α) (x : α) : Arena α := ⟨a.items.push x⟩

def get? (a : Arena α) (i : Nat) : Option α := a.items[i]?

def get (a : Arena α) (i : Nat) : Checked α :=
  match a.items[i]? with
  | some x => .ok x
  | none => .abort (.outOfBounds a.size i)

def set (a : Arena α) (i : Nat) (x : α) : Checked (Arena α) :=
  if i < a.size then .ok ⟨a.items.setIfInBounds i x⟩ else .abort (.outOfBounds a.size i)

def toList (a : Arena α) : List α := a.items.toList

def ofList (xs : List α) : Arena α := ⟨xs.toArray⟩

/-- The indices in use, in order. -/
def indices (a : Arena α) : List Nat := List.range a.size

@[simp]
theorem toList_push (a : Arena α) (x : α) : (a.push x).toList = a.toList ++ [x] := by
  simp [toList, push]

@[simp]
theorem toList_ofList (xs : List α) : (ofList xs).toList = xs := by
  simp [toList, ofList]

@[simp]
theorem size_push (a : Arena α) (x : α) : (a.push x).size = a.size + 1 := by
  simp [size, push]

theorem get_eq_ok_iff (a : Arena α) (i : Nat) (x : α) : a.get i = .ok x ↔ a.get? i = some x := by
  unfold get get?
  cases a.items[i]? <;> simp [Checked.abort]

theorem get?_push (a : Arena α) (x : α) (i : Nat) :
    (a.push x).get? i = if i = a.size then some x else a.get? i :=
  Array.getElem?_push

theorem toList_set (a b : Arena α) (i : Nat) (x : α) (h : a.set i x = .ok b) : b.toList = a.toList.set i x := by
  unfold set at h
  split at h
  · cases h
    simp [toList]
  · cases h

end Arena

/-- An index and what hangs below it. -/
inductive Outline where
  | node (index : Nat) (nested : List Outline)
deriving Repr

namespace Outline

def index : Outline → Nat
  | node i _ => i

def nested : Outline → List Outline
  | node _ os => os

mutual
/-- The indices of an outline, each before those below it. -/
def preorder : Outline → List Nat
  | node i os => i :: preorders os
def preorders : List Outline → List Nat
  | [] => []
  | o :: os => o.preorder ++ preorders os
end

end Outline

namespace Arena

variable {α : Type}

/-- Unfolds the links below `i`, at most `depth` links deep. -/
def outlineTo (a : Arena α) (links : α → List Nat) : Nat → Nat → Outline
  | 0, i => .node i []
  | depth + 1, i => .node i (((a.get? i).elim [] links).map (a.outlineTo links depth))

/-- Unfolds the links below `i`. A path without a repeated index has at most `a.size` links, so the depth cuts off
nothing unless links run in a circle. -/
def outline (a : Arena α) (links : α → List Nat) (i : Nat) : Outline := a.outlineTo links a.size i

/-- The indices at and below `i`, each before those below it. The first one that is not in the arena aborts. -/
def reachable (a : Arena α) (links : α → List Nat) (i : Nat) : Checked (List Nat) :=
  (a.outline links i).preorder.mapM fun j => (a.get j).map fun _ => j

end Arena

end Sequencer
