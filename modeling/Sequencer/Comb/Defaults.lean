import Sequencer.Comb.Basic

set_option autoImplicit false

/-!
# Default propagation

Assignments move into the defaults of their block, and defaults of nested blocks move out into the block around them,
as far as nothing before them drives what they write or read. Defaults that repeat the value already in effect are
dropped. A default of a control signal never leaves a guard.
-/

namespace Sequencer.Comb

/-- Repeats `f` until it changes nothing, at most `rounds` times. -/
def settle {α : Type} [DecidableEq α] (f : α → α) : Nat → α → α
  | 0, a => a
  | rounds + 1, a =>
    let b := f a
    if b = a then a else settle f rounds b

/-- An assignment cannot move above statements that drive its target or a signal that it reads. -/
def pinned (driven : List String) (target : String) (val : Option Expr) : Bool :=
  driven.contains target || (val.elim [] Expr.reads).any driven.contains

/-- Takes an assignment into a block's defaults, unless another value is the default already. -/
def Defaults.take? (ds : Defaults) (target : String) (d : Drive) : Option Defaults :=
  match ds.get? target with
  | some d' => if d'.val = d.val then some ds else none
  | none => some (ds.insert target d)

/-- Defaults of a block, those of a nested block that stay there, as the latter are taken out one by one. -/
structure Exchange where
  outer : Defaults
  inner : Defaults

/-- Takes the defaults `ds` of a nested block out of it, except those that `stays` holds back. -/
def Exchange.run (stays : String → Drive → Bool) (x : Exchange) (ds : List (String × Drive)) : Exchange :=
  ds.foldl (fun x e =>
    if stays e.1 e.2 then { x with inner := x.inner.insert e.1 e.2 }
    else
      match x.outer.take? e.1 e.2 with
      | some outer => { x with outer := outer }
      | none => { x with inner := x.inner.insert e.1 e.2 }) x

/-- Moves what is possible of a list of statements into the defaults of their block. `driven` holds the signals that
the statements kept so far drive. -/
def hoistStmts (isControl : Assign → Bool) : Defaults → List String → List Stmt → Defaults × List Stmt
  | ds, _, [] => (ds, [])
  | ds, driven, .assign a :: rest =>
    let taken := if pinned driven a.target a.val then none else ds.take? a.target a.drive
    match taken with
    | some ds => hoistStmts isControl ds driven rest
    | none =>
      let (ds, kept) := hoistStmts isControl ds (a.target :: driven) rest
      (ds, .assign a :: kept)
  | ds, driven, .block g inner ss :: rest =>
    let stays := fun t (d : Drive) => pinned driven t d.val || (g.isSome && isControl ⟨t, d⟩)
    let x := Exchange.run stays ⟨ds, .empty⟩ inner.entries
    let s := Stmt.block g x.inner ss
    let (ds, kept) := hoistStmts isControl x.outer (s.targets ++ driven) rest
    (ds, s :: kept)

def hoist (isControl : Assign → Bool) (b : Block) : Block :=
  let (ds, kept) := hoistStmts isControl b.dflts [] b.stmts
  { b with dflts := ds, stmts := kept }

/-- Values in effect, by signal. -/
abbrev Env := Listing (Option Expr)

def Env.enter (env : Env) (ds : Defaults) : Env := env.insertAll (ds.entries.map fun e => (e.1, e.2.val))

mutual
/-- Drops defaults inside a statement that repeat the value in effect there. `env` holds the values in effect before the
statements that drive `driven`. -/
def Stmt.pushDown (env : Env) (driven : List String) : Stmt → Stmt
  | .assign a => .assign a
  | .block g ds ss =>
    let seen := env.filter fun t v => !pinned driven t v
    let kept := ds.filter fun t d => seen.get? t != some d.val
    .block g kept (Stmt.pushDownAll (Env.enter seen kept) [] ss)
def Stmt.pushDownAll (env : Env) (driven : List String) : List Stmt → List Stmt
  | [] => []
  | s :: ss =>
    let s := s.pushDown env driven
    s :: Stmt.pushDownAll env (s.targets ++ driven) ss
end

def pushDown (b : Block) : Block := { b with stmts := Stmt.pushDownAll (Env.enter .empty b.dflts) [] b.stmts }

def Defaults.cleanup (ds : Defaults) : Defaults := ds.filter fun _ d => d.val.isSome

mutual
/-- Deletes assignments without a value and blocks without contents. -/
def Stmt.cleanup? : Stmt → Option Stmt
  | .assign a => if a.val.isSome then some (.assign a) else none
  | .block g ds ss =>
    let b : Block := ⟨g, Defaults.cleanup ds, Stmt.cleanupAll ss⟩
    if b.isEmpty then none else some b.toStmt
def Stmt.cleanupAll : List Stmt → List Stmt
  | [] => []
  | s :: ss => s.cleanup?.toList ++ Stmt.cleanupAll ss
end

def cleanup (b : Block) : Block := { b with dflts := Defaults.cleanup b.dflts, stmts := Stmt.cleanupAll b.stmts }

/-- One round of propagation through one block. -/
def propagate (isControl : Assign → Bool) (b : Block) : Block :=
  cleanup (pushDown (cleanup (hoist isControl b)))

mutual
/-- Counts assignments and blocks, deeper ones more. -/
def Stmt.weight (depth : Nat) : Stmt → Nat
  | .assign _ => 2 * depth + 2
  | .block _ ds ss => 1 + (2 * depth + 3) * ds.entries.length + Stmt.weights (depth + 1) ss
def Stmt.weights (depth : Nat) : List Stmt → Nat
  | [] => 0
  | s :: ss => s.weight depth + Stmt.weights depth ss
end

/-- A round that changes a block makes it lighter, so its weight bounds the number of such rounds. -/
def Block.weight (b : Block) : Nat := b.dflts.entries.length + Stmt.weights 0 b.stmts

/-- Propagates defaults through one block, whose nested blocks are expected to be settled. -/
def updateDefaults (isControl : Assign → Bool) (b : Block) : Block := settle (propagate isControl) b.weight b

mutual
/-- Propagates defaults through the blocks inside a statement, inner blocks first. -/
def Stmt.updateDefaults (isControl : Assign → Bool) : Stmt → Stmt
  | .assign a => .assign a
  | .block g ds ss => (Comb.updateDefaults isControl ⟨g, ds, Stmt.updateDefaultsAll isControl ss⟩).toStmt
def Stmt.updateDefaultsAll (isControl : Assign → Bool) : List Stmt → List Stmt
  | [] => []
  | s :: ss => s.updateDefaults isControl :: Stmt.updateDefaultsAll isControl ss
end

/-- Propagates defaults once through every block, inner blocks first. -/
def updateEach (isControl : Assign → Bool) (b : Block) : Block :=
  updateDefaults isControl { b with stmts := Stmt.updateDefaultsAll isControl b.stmts }

/-- Propagates defaults through all blocks until the whole tree is settled. -/
def updateDefaultsTree (isControl : Assign → Bool) (b : Block) : Block := settle (updateEach isControl) b.weight b

end Sequencer.Comb
