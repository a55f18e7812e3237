import Formals.Binding.Window

/-!
# Plans

The parameters of one level are not bound in the order of their declaration. Binding consumes the
list and the arguments from the same end, at first the left one. A rest parameter turns to the other
end. An optional parameter is put back, and the end changed, while a required or a keyword parameter
is left, and is bound from the left end only.

A `Plan` is the outcome: what is bound in which order and in which `LevelState`, the state after it,
and the parameter at which no order was found, if there is one. It depends only on the `Part` that
each item plays.
-/

namespace Formals

/-- What a parameter or a target asks of the order in which a level is bound. -/
inductive Part where
  /-- It takes a value from the end that binding faces. -/
  | positional
  /-- It waits for the positional and the keyword parameters, and takes a value if one is left. -/
  | optional
  /-- It stands for what the others leave, and turns binding to the other end. -/
  | rest
  /-- It takes a value from the keyword hash. -/
  | keyword
  /-- It stands for what the others leave of the keyword hash. -/
  | keywordRest
  deriving DecidableEq, Repr

namespace Part

/-- Whether an optional parameter waits for such a parameter. -/
def isAwaited : Part → Bool
  | positional | keyword | keywordRest => true
  | optional | rest => false

end Part

/-- How far the binding of one level is. -/
structure LevelState where
  /-- The end from which values are taken. -/
  side : Side := .left
  /-- The keyword hash lies on the stack above the sequence. -/
  keywordsStaged : Bool := false
  /-- A keyword rest has taken the hash, so that keys left in it are no error. -/
  keywordRestSeen : Bool := false
  deriving DecidableEq, Repr, Inhabited

namespace LevelState

/-- The state that faces the other end. -/
def flip (s : LevelState) : LevelState := { s with side := s.side.flip }

/-- The state with the keyword hash on the stack. -/
def stage (s : LevelState) : LevelState := { s with keywordsStaged := true }

/-- The state without the keyword hash on the stack. -/
def unstage (s : LevelState) : LevelState := { s with keywordsStaged := false }

/-- The state after a keyword rest. -/
def seeKeywordRest (s : LevelState) : LevelState := { s with keywordRestSeen := true }

/-- The state before any keyword rest. -/
def unseeKeywordRest (s : LevelState) : LevelState := { s with keywordRestSeen := false }

/-- The state after a part is bound. -/
def after (s : LevelState) : Part → LevelState
  | .positional | .optional => s.unstage
  | .rest => s.unstage.flip
  | .keyword => s.stage
  | .keywordRest => s.stage.seeKeywordRest

end LevelState

/-- The order in which the items of a level are bound. -/
structure Plan (α : Type) where
  /-- Every item that is bound, in the state in which it finds the level. -/
  steps : List (LevelState × α)
  /-- The state after the last step. -/
  final : LevelState
  /-- The item that can neither be bound nor be put back once more. -/
  stuck : Option α

namespace Plan

variable {α : Type}

/-- How many items in a row may be put back: an optional parameter sends binding to the right end at
first, and from there back to the left. -/
def maxDeferrals : Nat := 2

/-- The plan for what a window has left, in a state, after some items in a row were put back. -/
def ofWindow (part : α → Part) (deferrals : Nat) (s : LevelState) (w : Window α) : Plan α :=
  match h : w.take s.side with
  | none => ⟨[], s, none⟩
  | some (x, w') =>
    -- an optional item waits for the items that must have a value, and for its turn from the left
    if part x = .optional ∧ (w'.any (fun y => (part y).isAwaited) ∨ s.side = .right) then
      if deferrals < maxDeferrals then ofWindow part (deferrals + 1) s.flip (w'.restore s.side)
      else ⟨[], s, some x⟩
    else
      let later := ofWindow part 0 (s.after (part x)) w'
      { later with steps := (s, x) :: later.steps }
termination_by (w.length, maxDeferrals - deferrals)
decreasing_by
  · -- what is put back leaves the window as it was, so the deferrals in a row go on
    rw [Window.restore_take h]
    exact Prod.Lex.right _ (by omega)
  · exact Prod.Lex.left _ _ (by have := Window.length_of_take h; omega)

/-- The plan for the items of a level. -/
def ofList (part : α → Part) (items : List α) : Plan α :=
  ofWindow part 0 {} (Window.ofList items)

end Plan
end Formals
