import Sequencer.Lowering.Aspect

set_option autoImplicit false

/-!
# Lowering a module

Statements are lowered one by one. The walk over the schedule adds tests of the state where a segment has fewer states
than the one around it, and a copy of a segment's entry for each change of state that ends it.
-/

namespace Sequencer.Lowering

open Control

/-- Propagates defaults through a block as the signal class asks. -/
def settled (b : Comb.Block) : Lower Comb.Block := do
  let asp ← aspect
  return Comb.updateDefaults asp.isControl b

/-- A block with its guard and what is assigned on entry. -/
def visitBlock (i : Nat) : Lower Comb.Block := do
  let b ← block? i
  let stmts ← enterBlock i
  return .of (b.bind Block.guard) stmts

/-- Lowers a statement without what is nested in it. -/
def visit (i : Nat) : Lower (List Comb.Stmt) := do
  match ← stmt i with
  | .block _ => return [(← visitBlock i).toStmt]
  | .yield y => visitYield y
  | .update r v => visitUpdate r v
  | .assign x v => visitAssign x v

mutual
def lowerOutline : Outline → Lower (List Comb.Stmt)
  | .node i os => do
    match ← stmt i with
    | .block _ =>
      let b ← visitBlock i
      let inner ← lowerOutlines os
      return [(← settled (b.append inner)).toStmt]
    | _ => visit i
def lowerOutlines : List Outline → Lower (List Comb.Stmt)
  | [] => return []
  | o :: os => do
    let ss ← lowerOutline o
    return ss ++ (← lowerOutlines os)
end

/-- Lowers a statement with all that is nested in it. -/
def lowerStmt (i : Nat) : Lower (List Comb.Stmt) := do lowerOutline ((← read).module.outline i)

/-- The entry of a block repeated together with a change of state. -/
def stateCopy (node : Option Nat) (tr : Transition) : Lower Comb.Block := do
  let entry ← match node with
    | none => pure []
    | some n => do
      let b ← settled (← visitBlock n)
      pure (if b.isEmpty then [] else [b.toStmt])
  settled (← assignState (.of none entry) tr)

/-- The statements of a block as part of another one. Only a guard needs a block. -/
def inlined (b : Comb.Block) : List Comb.Stmt :=
  if b.isEmpty then []
  else if b.guard.isSome then [b.toStmt]
  else assigns b.dflts.assigns ++ b.stmts

def lowerStmts (stmts : List Nat) : Lower (List Comb.Stmt) := do
  let m := (← read).module
  lowerOutlines (stmts.map m.outline)

/-- Statements that run in one cycle, which completes under `cycle`. -/
def freeStmts (stmts : List Nat) (guard cycle : Cond) : Lower Comb.Block := do
  pushCycle cycle
  let lowered ← lowerStmts stmts
  popCycle
  settled (.of guard lowered)

/-- The test for `states`, given the states of the segment around it. -/
def narrow (parent : Option (List Nat)) (states : List Nat) : Lower Cond := do
  match parent with
  | none => return none
  | some p => check ((← read).table.space.narrow states p)

/-- The block of a segment, if it has one. -/
def blockOf (seg : Segment) : Lower (Option Block) :=
  match seg.block with
  | none => return none
  | some n => block? n

/-- Whether the state changes when the segment is left. Segments of several states change it through their children,
but a conditional that is skipped jumps over them. -/
def changesState (seg : Segment) (parent : List Nat) : Lower Bool := do
  if (← maxState) = 0 then return false
  if Segment.sameStates seg.states parent then return false
  let b ← blockOf seg
  return seg.states.length == 1 || b.any fun b => b.kind = .conditional

/-- The changes of state when the segment `i`, left in the state `source`, completes. They end at the next segment of a
sequence, and those before start enclosing loops over. -/
def transitionsFrom (source : Nat) : Nat → Nat → Lower (List Transition)
  | 0, _ => return []
  | steps + 1, i => do
    match (← segment i).parent with
    | none => return []
    | some p =>
      let parent ← segment p
      if parent.kind = .mutex then transitionsFrom source steps p
      else
        let position := (parent.children.idxOf? i).getD 0
        let cond := (← timing i).exit
        match parent.children[position + 1]? with
        | some next => return (← segment next).firstState?.toList.map fun s => ⟨source, s, cond⟩
        | none =>
          let b ← blockOf parent
          let again := if b.any (fun b => b.kind.repeats) ∧ 1 < parent.states.length then
            parent.firstState?.toList.map fun s => ⟨source, s, cond⟩ else []
          return again ++ (← transitionsFrom source steps p)

/-- The changes of state when the segment `i` completes. Later ones override earlier ones. -/
def transitions (i : Nat) : Lower (List Transition) := do
  match (← segment i).firstState? with
  | none => return []
  | some source => transitionsFrom source (← read).schedule.segments.size i

def copiesFor (node : Option Nat) : List Transition → Lower (List Comb.Block)
  | [] => return []
  | tr :: trs => do
    let copy ← stateCopy node tr
    let rest ← copiesFor node trs
    return if copy.isEmpty then rest else copy :: rest

def stateCopies (i : Nat) (seg : Segment) (parent : Option (List Nat)) : Lower (List Comb.Block) := do
  match parent with
  | none => return []
  | some p => if ← changesState seg p then copiesFor seg.block (← transitions i) else return []

def lowerProlog (i : Nat) (seg : Segment) (parent : Option (List Nat)) : Lower (List Comb.Stmt) := do
  if seg.prolog.isEmpty then return []
  let guard ← narrow parent seg.firstState?.toList
  return inlined (← freeStmts seg.prolog guard (← timing i).cycle)

def lowerEpilog (i : Nat) (seg : Segment) (parent : Option (List Nat)) : Lower (List Comb.Stmt) := do
  if seg.epilog.isEmpty then return []
  let exit := (← timing i).exit
  let test ← narrow parent seg.lastState?.toList
  let guard ← check (Cond.and test exit)
  return inlined (← freeStmts seg.epilog guard exit)

/-- Adds the copies for changes of state to the body of a segment, inside it if it has one state and no guard, else
after it. -/
def withCopies (seg : Segment) (parent : Option (List Nat)) (body : Comb.Block) (copies : List Comb.Block) :
    Lower (List Comb.Stmt) := do
  let guarded := (← blockOf seg).any fun b => b.guard.isSome
  if seg.states.length = 1 ∧ !guarded then
    return inlined (← settled (body.append (copies.flatMap inlined)))
  let body ← settled body
  if copies.isEmpty then return inlined body
  let guard ← narrow parent seg.firstState?.toList
  return inlined body ++ [(Comb.Block.of guard (copies.map Comb.Block.toStmt)).toStmt]

mutual
/-- Lowers a segment inside one with the states `parent`. -/
def lowerSegment (parent : Option (List Nat)) : Outline → Lower (List Comb.Stmt)
  | .node i os => do
    let seg ← segment i
    let guard ← narrow parent seg.states
    let before ← lowerProlog i seg parent
    let body ← match seg.kind with
      | .leaf => do
        let cycle ← match (← timing i).cycle with
          | some c => pure (some c)
          | none => currentCycle
        freeStmts seg.stmts guard cycle
      | _ => do
        let head ← match seg.block with
          | some n => visitBlock n
          | none => pure (.of none [])
        let guard ← check (Cond.and guard head.guard)
        pushCycle (← timing i).cycle
        let inner ← lowerSegments seg.states os
        popCycle
        pure { head.append inner with guard := guard }
    let copies ← stateCopies i seg parent
    let main ← withCopies seg parent body copies
    let after ← lowerEpilog i seg parent
    return before ++ main ++ after
def lowerSegments (parent : List Nat) : List Outline → Lower (List Comb.Stmt)
  | [] => return []
  | o :: os => do
    let ss ← lowerSegment (some parent) o
    return ss ++ (← lowerSegments parent os)
end

/-- The tree of the session's signal class for the whole module. -/
def lowerModule : Lower Comb.Block := do
  let s := (← read).schedule
  let b ← settled (.of none (← lowerSegment none (s.outline s.root)))
  markTree b
  return b

end Sequencer.Lowering
