import TapeLang.Command
import TapeLang.Instruction.Fold
import TapeLang.Source.Fault

/-!
# Compilation

One pass over the characters of a source text. Commands are folded as they come; a bracket that
opens a loop puts the code around it on a stack, and the bracket that closes it puts the lowered
loop behind that code.
-/

set_option autoImplicit false

namespace TapeLang

/-! ## Loops -/

/-- A body between its two jumps, each over the same distance. -/
def wrapLoop (body : List Instruction) : List Instruction :=
  let jump : Int := body.length + 1
  ⟨.beginLoop, jump⟩ :: body ++ [⟨.endLoop, jump⟩]

theorem length_wrapLoop (body : List Instruction) :
    (wrapLoop body).length = body.length + 2 := by
  simp [wrapLoop]

/-- The transfer that a loop over these four arguments makes: go the distance, change the cell there
by one, come back and count down. -/
def transfer? (distance change back count : Int) : Option Instruction :=
  if count = -1 ∧ back = -distance then
    if change = 1 then some ⟨.add, distance⟩
    else if change = -1 then some ⟨.sub, distance⟩
    else none
  else none

/-- The instruction that does the work of a loop with this folded body: clearing the cell, or moving
it to another one, counting down after or before the move. -/
def fuse? : List Instruction → Option Instruction
  | [⟨.modify, _⟩] => some ⟨.clear, 0⟩
  | [⟨.shift, distance⟩, ⟨.modify, change⟩, ⟨.shift, back⟩, ⟨.modify, count⟩] =>
    transfer? distance change back count
  | [⟨.modify, count⟩, ⟨.shift, distance⟩, ⟨.modify, change⟩, ⟨.shift, back⟩] =>
    transfer? distance change back count
  | _ => none

/-- What becomes of a loop. -/
inductive Lowered where
  /-- The body does nothing. -/
  | empty
  /-- One instruction replaces the loop. -/
  | fused (instruction : Instruction)
  /-- The loop stays one. -/
  | kept (code : List Instruction)
deriving DecidableEq, Repr

/-- Lowers a loop. A body without jumps is folded first, and fused from level one on. -/
def lowerLoop (level : Int) (body : List Instruction) : Lowered :=
  if isFlat body then
    match fold body with
    | [] => .empty
    | folded =>
      match if 1 ≤ level then fuse? folded else none with
      | some i => .fused i
      | none => .kept (wrapLoop folded)
  else .kept (wrapLoop body)

/-! ## The pass over the text -/

/-- An open loop: the code before it, newest first, and the position of its bracket. -/
structure Frame where
  before : List Instruction
  bracket : Nat
deriving DecidableEq, Repr

/-- How many loops have been closed, and how many of them were fused. -/
structure LoopCount where
  loops : Nat := 0
  fused : Nat := 0
deriving DecidableEq, Repr

/-- How far the pass has come: the code of the innermost open loop, newest first, the open loops,
innermost first, the position of the next character, and the loops closed so far. -/
structure Progress where
  code : List Instruction := []
  frames : List Frame := []
  position : Nat := 0
  count : LoopCount := {}
deriving DecidableEq, Repr

/-- A rejected text: the error and the loops closed before it, that of an empty loop included. -/
structure Rejection where
  error : SourceError
  count : LoopCount
deriving DecidableEq, Repr

/-- A compiled text. -/
structure Compilation where
  program : Program
  count : LoopCount
deriving DecidableEq, Repr

namespace Progress

/-- Closes the innermost loop, whose code is `p.code`. -/
def close (level : Int) (p : Progress) : Except Rejection Progress :=
  match p.frames with
  | [] => .error ⟨⟨.unmatched "]", p.position⟩, p.count⟩
  | frame :: outer =>
    let count := { p.count with loops := p.count.loops + 1 }
    let next := p.position + 1
    match lowerLoop level p.code.reverse with
    | .empty => .error ⟨⟨.emptyLoop, frame.bracket⟩, count⟩
    | .fused i =>
      .ok ⟨i :: frame.before, outer, next, { count with fused := count.fused + 1 }⟩
    | .kept code => .ok ⟨code.reverse ++ frame.before, outer, next, count⟩

/-- Takes one character. -/
def step (level : Int) (p : Progress) (c : Char) : Except Rejection Progress :=
  match Command.ofChar? c with
  | none => .ok { p with position := p.position + 1 }
  | some (.plain i) => .ok { p with code := push p.code i, position := p.position + 1 }
  | some .openLoop => .ok ⟨[], ⟨p.code, p.position⟩ :: p.frames, p.position + 1, p.count⟩
  | some .closeLoop => p.close level

/-- The result at the end of the text, where no loop may be open. -/
def finish (p : Progress) : Except Rejection Compilation :=
  match p.frames with
  | [] => .ok ⟨p.code.reverse, p.count⟩
  | frame :: _ => .error ⟨⟨.unmatched "[", frame.bracket⟩, p.count⟩

end Progress

/-- Compiles a source text. At level zero and below no loop is fused. -/
def compile (level : Int) (text : List Char) : Except Rejection Compilation := do
  let p ← text.foldlM (Progress.step level) {}
  p.finish

/-- The level matters to a text: the first bracket that closes a loop finds something to lower. The
text up to that bracket is then compiled, or lacks closing brackets only. -/
def asksForLevel (text : List Char) : Bool :=
  text.contains ']' &&
    match compile 0 (text.takeWhile (· != ']') ++ [']']) with
    | .ok _ => true
    | .error rejection => rejection.error.fault == .unmatched "["

end TapeLang
