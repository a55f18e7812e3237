import Formals.Code.Instruction
import Formals.Machine.Error

/-!
# Blocks

`Stream.jumps` matches the instructions `if`, `else` and `end` of a stream and gives the position to
which each of them leads: an `if` to its `else`, or to its `end` when there is none, and an `else`
to its `end`.
-/

namespace Formals

/-- An `if` whose `end` has not come yet, and its `else` if that has. -/
structure OpenBlock where
  ifAt : Nat
  elseAt : Option Nat
  deriving DecidableEq, Repr

/-- The positions to which the jumps of a stream lead. -/
abbrev Jumps := List (Nat × Nat)

/-- The jumps of a block that ends. -/
def OpenBlock.jumps (b : OpenBlock) (endAt : Nat) : Jumps :=
  match b.elseAt with
  | some elseAt => [(b.ifAt, elseAt), (elseAt, endAt)]
  | none => [(b.ifAt, endAt)]

/-- The jumps of the instructions from position `pc` on, inside some open blocks, innermost first,
added to those already found. -/
def Stream.jumpsFrom (pc : Nat) (opened : List OpenBlock) (found : Jumps) :
    Stream → Except RuntimeError Jumps
  | [] =>
    match opened with
    | [] => .ok found
    | b :: _ => .error (.malformedBlock .unclosedIf b.ifAt)
  | i :: rest =>
    match i.op with
    | .ifTrue => jumpsFrom (pc + 1) (⟨pc, none⟩ :: opened) found rest
    | .orElse =>
      match opened with
      | ⟨ifAt, none⟩ :: outer => jumpsFrom (pc + 1) (⟨ifAt, some pc⟩ :: outer) found rest
      | _ => .error (.malformedBlock .strayElse pc)
    | .endIf =>
      match opened with
      | b :: outer => jumpsFrom (pc + 1) outer (b.jumps pc ++ found) rest
      | [] => .error (.malformedBlock .strayEnd pc)
    | _ => jumpsFrom (pc + 1) opened found rest

/-- The jumps of a stream, or where its blocks are broken. -/
def Stream.jumps (code : Stream) : Except RuntimeError Jumps := Stream.jumpsFrom 0 [] [] code

end Formals
