import TapeLang.Proofs.Parsing

/-!
# A reference interpreter

The interpreter knows nothing of instructions: it takes the command characters of a text one at a
time, on a tape without an end, and looks for the matching bracket by counting brackets. For a text
that has a block the brackets match as the block says (`closing?_eq`, `opening?_eq`).
-/

set_option autoImplicit false

namespace TapeLang

namespace Reference

/-- What a program can read and change. -/
structure State where
  cells : Nat → UInt8 := fun _ => 0
  pointer : Nat := 0
  input : List UInt8 := []
  consumed : Nat := 0
  output : Array UInt8 := #[]

/-- Why the interpreter stops. -/
inductive Stop where
  | completed
  /-- A byte is asked for where there is none. -/
  | exhausted
  /-- The pointer is moved left of the first cell. -/
  | underflow
  /-- A checked cell leaves its range. -/
  | overflow
  | unmatched
deriving DecidableEq, Repr

namespace State

def cell (s : State) : UInt8 := s.cells s.pointer

/-- Writes the current cell. -/
def write (value : UInt8) (s : State) : State :=
  { s with cells := Function.update s.cells s.pointer value }

end State

/-- The characters of a text that are no comments. -/
def codeOf (text : List Char) : List Char :=
  text.filter fun c => ['+', '-', '<', '>', '[', ']', '.', ','].contains c

/-- How many characters come before the bracket that ends the current depth. -/
def distance? (deeper back : Char) : Nat → List Char → Option Nat
  | _, [] => none
  | depth, c :: rest =>
    if c = deeper then (distance? deeper back (depth + 1) rest).map (· + 1)
    else if c = back then
      match depth with
      | 0 => some 0
      | depth + 1 => (distance? deeper back depth rest).map (· + 1)
    else (distance? deeper back depth rest).map (· + 1)

/-- The bracket that closes the one at a position. -/
def closing? (code : List Char) (position : Nat) : Option Nat :=
  (distance? '[' ']' 0 (code.drop (position + 1))).map (position + 1 + ·)

/-- The bracket that opens the one at a position. -/
def opening? (code : List Char) (position : Nat) : Option Nat :=
  (distance? ']' '[' 0 (code.take position).reverse).map (position - 1 - ·)

/-- What comes of one command. -/
inductive Outcome where
  /-- The run goes on at a position. -/
  | next (position : Nat) (state : State)
  | stop (reason : Stop) (state : State)

/-- Goes on behind a bracket. -/
def jump (bracket? : Option Nat) (s : State) : Outcome :=
  match bracket? with
  | some bracket => .next (bracket + 1) s
  | none => .stop .unmatched s

/-- One command. -/
def step (checked : Bool) (code : List Char) (position : Nat) (s : State) : Outcome :=
  match code[position]? with
  | none => .stop .completed s
  | some '+' =>
    if checked ∧ s.cell = 255 then .stop .overflow s
    else .next (position + 1) (s.write (s.cell + 1))
  | some '-' =>
    if checked ∧ s.cell = 0 then .stop .overflow s
    else .next (position + 1) (s.write (s.cell - 1))
  | some '>' => .next (position + 1) { s with pointer := s.pointer + 1 }
  | some '<' =>
    if s.pointer = 0 then .stop .underflow s
    else .next (position + 1) { s with pointer := s.pointer - 1 }
  | some '.' => .next (position + 1) { s with output := s.output.push s.cell }
  | some ',' =>
    match s.input with
    | [] => .stop .exhausted s
    | byte :: rest =>
      .next (position + 1) { s.write byte with input := rest, consumed := s.consumed + 1 }
  | some '[' => if s.cell = 0 then jump (closing? code position) s else .next (position + 1) s
  | some ']' => if s.cell = 0 then .next (position + 1) s else jump (opening? code position) s
  | some _ => .next (position + 1) s

/-- A run of less than `fuel` commands from a position on, if it stops by then. -/
def runFrom (checked : Bool) (code : List Char) : Nat → Nat → State → Option (Stop × State)
  | 0, _, _ => none
  | fuel + 1, position, s =>
    match step checked code position s with
    | .next position s => runFrom checked code fuel position s
    | .stop reason s => some (reason, s)

/-- Interpreting a text stops for a reason and leaves a state behind. -/
def Ends (checked : Bool) (text : List Char) (stdin : List UInt8) (reason : Stop) (s : State) :
    Prop :=
  ∃ fuel, runFrom checked (codeOf text) fuel 0 { input := stdin } = some (reason, s)

/-! ## Characters -/

theorem ofChar?_isSome_iff (c : Char) :
    (Command.ofChar? c).isSome ↔ ['+', '-', '<', '>', '[', ']', '.', ','].contains c := by
  unfold Command.ofChar?
  split <;> simp_all

theorem map_codeOf (text : List Char) :
    (codeOf text).map Command.ofChar? = (commandsOf text).map some := by
  induction text with
  | nil => rfl
  | cons c text ih =>
    have hc := ofChar?_isSome_iff c
    unfold codeOf commandsOf at ih ⊢
    cases hcommand : Command.ofChar? c with
    | none =>
      rw [hcommand] at hc
      rw [List.filter_cons_of_neg (by simpa using hc), List.filterMap_cons_none hcommand]
      exact ih
    | some command =>
      rw [hcommand] at hc
      rw [List.filter_cons_of_pos (by simpa using hc), List.filterMap_cons_some hcommand,
        List.map_cons, List.map_cons, hcommand, ih]

/-- The characters are the commands of the block. -/
inductive Spells : Block → List Char → Prop where
  | nil : Spells .nil []
  | step {b : Block} {i : Instruction} {c : Char} {cs : List Char} :
      Spells b cs → Command.ofChar? c = some (.plain i) → Spells (b.step i) (cs ++ [c])
  | loop {b body : Block} {cs ds : List Char} :
      Spells b cs → Spells body ds → Spells (b.loop body) (cs ++ ('[' :: ds ++ [']']))

theorem Spells.of_commands {b : Block} {cs : List Char}
    (h : cs.map Command.ofChar? = b.commands.map some) : Spells b cs := by
  induction b generalizing cs with
  | nil =>
    rw [Block.commands, List.map_nil, List.map_eq_nil_iff] at h
    subst h
    exact .nil
  | step b i ih =>
    rw [Block.commands, List.map_append, List.map_eq_append_iff] at h
    obtain ⟨cs, ds, rfl, hcs, hds⟩ := h
    obtain ⟨c, rfl, hc⟩ := List.map_eq_singleton_iff.1 hds
    exact .step (ih hcs) hc
  | loop b body ihb ih =>
    rw [Block.commands, List.append_assoc, List.map_append, List.map_eq_append_iff] at h
    obtain ⟨cs, ds, rfl, hcs, hds⟩ := h
    rw [List.cons_append, List.map_cons, List.map_eq_cons_iff] at hds
    obtain ⟨c, ds, rfl, hc, hds⟩ := hds
    rw [List.map_append, List.map_eq_append_iff] at hds
    obtain ⟨ds, es, rfl, hds, hes⟩ := hds
    obtain ⟨e, rfl, he⟩ := List.map_eq_singleton_iff.1 hes
    rw [Command.ofChar?_eq_openLoop hc, Command.ofChar?_eq_closeLoop he, ← List.cons_append]
    exact .loop (ihb hcs) (ih hds)

theorem spells_codeOf {text : List Char} {b : Block} (h : parse? text = some b) :
    Spells b (codeOf text) := by
  apply Spells.of_commands
  rw [map_codeOf, commands_of_parse? h]

/-! ## Brackets -/

/-- Brackets of the two kinds match. -/
inductive Balanced (deeper back : Char) : List Char → Prop where
  | nil : Balanced deeper back []
  | single {c : Char} : c ≠ deeper → c ≠ back → Balanced deeper back [c]
  | append {cs ds : List Char} :
      Balanced deeper back cs → Balanced deeper back ds → Balanced deeper back (cs ++ ds)
  | wrap {cs : List Char} : Balanced deeper back cs → Balanced deeper back (deeper :: cs ++ [back])

theorem Balanced.reverse {deeper back : Char} {cs : List Char} (h : Balanced deeper back cs) :
    Balanced back deeper cs.reverse := by
  induction h with
  | nil => exact .nil
  | single hd hb => exact .single hb hd
  | append _ _ ih₁ ih₂ =>
    rw [List.reverse_append]
    exact .append ih₂ ih₁
  | @wrap cs _ ih =>
    have hrev : (deeper :: cs ++ [back]).reverse = back :: cs.reverse ++ [deeper] := by simp
    rw [hrev]
    exact .wrap ih

theorem Spells.balanced {b : Block} {cs : List Char} (h : Spells b cs) : Balanced '[' ']' cs := by
  induction h with
  | nil => exact .nil
  | step _ hc ih =>
    refine .append ih (.single ?_ ?_)
    · rintro rfl
      cases hc
    · rintro rfl
      cases hc
  | loop _ _ ih₁ ih₂ => exact .append ih₁ (.wrap ih₂)

section
variable {deeper back c : Char} {depth : Nat} {rest : List Char}

theorem distance?_of_ne (hd : c ≠ deeper) (hb : c ≠ back) :
    distance? deeper back depth (c :: rest)
      = (distance? deeper back depth rest).map (· + 1) := by
  conv_lhs => unfold distance?
  rw [if_neg hd, if_neg hb]

theorem distance?_deeper :
    distance? deeper back depth (deeper :: rest)
      = (distance? deeper back (depth + 1) rest).map (· + 1) := by
  conv_lhs => unfold distance?
  rw [if_pos rfl]

theorem distance?_back_zero (hne : back ≠ deeper) :
    distance? deeper back 0 (back :: rest) = some 0 := by
  unfold distance?
  rw [if_neg hne, if_pos rfl]

theorem distance?_back_succ (hne : back ≠ deeper) :
    distance? deeper back (depth + 1) (back :: rest)
      = (distance? deeper back depth rest).map (· + 1) := by
  conv_lhs => unfold distance?
  rw [if_neg hne, if_pos rfl]

end

/-- Counting passes over code whose brackets match. -/
theorem Balanced.distance? {deeper back : Char} (hne : back ≠ deeper) {cs : List Char}
    (h : Balanced deeper back cs) (depth : Nat) (rest : List Char) :
    distance? deeper back depth (cs ++ rest)
      = (distance? deeper back depth rest).map (· + cs.length) := by
  induction h generalizing depth rest with
  | nil => simp
  | single hd hb =>
    rw [List.singleton_append, distance?_of_ne hd hb]
    rfl
  | append _ _ ih₁ ih₂ =>
    rw [List.append_assoc, ih₁, ih₂, Option.map_map, List.length_append]
    congr 1
    funext n
    simp only [Function.comp_apply]
    omega
  | wrap _ ih =>
    rw [List.append_assoc, List.cons_append, distance?_deeper, ih, List.singleton_append,
      distance?_back_succ hne, Option.map_map, Option.map_map]
    congr 1
    funext n
    simp only [Function.comp_apply, List.length_append, List.length_cons, List.length_nil]
    omega

theorem closing?_eq (before behind : List Char) {ds : List Char} (h : Balanced '[' ']' ds) :
    closing? (before ++ '[' :: (ds ++ ']' :: behind)) before.length
      = some (before.length + 1 + ds.length) := by
  have hdrop : (before ++ '[' :: (ds ++ ']' :: behind)).drop (before.length + 1)
      = ds ++ ']' :: behind := by simp
  rw [closing?, hdrop, h.distance? (by decide), distance?_back_zero (by decide)]
  simp

theorem opening?_eq (before behind : List Char) {ds : List Char} (h : Balanced '[' ']' ds) :
    opening? (before ++ '[' :: (ds ++ ']' :: behind)) (before.length + 1 + ds.length)
      = some before.length := by
  have htake : ((before ++ '[' :: (ds ++ ']' :: behind)).take
      (before.length + 1 + ds.length)).reverse = ds.reverse ++ '[' :: before.reverse := by
    have hsplit : before ++ '[' :: (ds ++ ']' :: behind)
        = (before ++ '[' :: ds) ++ ']' :: behind := by simp
    rw [hsplit, List.take_left' (by simp; omega)]
    simp
  rw [opening?, htake, h.reverse.distance? (by decide), distance?_back_zero (by decide)]
  simp

end Reference

end TapeLang
