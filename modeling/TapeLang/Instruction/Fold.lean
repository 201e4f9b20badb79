import TapeLang.Instruction

/-!
# Folding

Neighbours of one foldable kind merge into one instruction with the sum of their arguments, and
what sums to zero disappears. Code under construction is held newest first, so that `push` is the
whole of it and folding a list is one left fold.
-/

set_option autoImplicit false

namespace TapeLang

/-- A foldable instruction of argument zero does nothing. -/
def Instruction.isIdle (i : Instruction) : Bool := i.kind.isFoldable && i.arg == 0

/-- The code with one instruction in front, unless that one is idle. -/
def consUnlessIdle (i : Instruction) (code : List Instruction) : List Instruction :=
  if i.isIdle then code else i :: code

/-- Adds one instruction to folded code, which is held newest first. -/
def push : List Instruction → Instruction → List Instruction
  | [], i => consUnlessIdle i []
  | last :: older, i =>
    if i.kind.isFoldable && last.kind == i.kind then
      consUnlessIdle ⟨i.kind, last.arg + i.arg⟩ older
    else consUnlessIdle i (last :: older)

/-- The code with neighbours merged and idle instructions dropped. -/
def fold (code : List Instruction) : List Instruction := (code.foldl push []).reverse

/-- Folding goes on where it stopped. -/
theorem fold_append (x y : List Instruction) :
    fold (x ++ y) = (y.foldl push (fold x).reverse).reverse := by
  rw [fold, fold, List.foldl_append, List.reverse_reverse]

end TapeLang
