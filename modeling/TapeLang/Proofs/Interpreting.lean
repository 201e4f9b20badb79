import TapeLang.Proofs.Platform
import TapeLang.Proofs.Reference

/-!
# The interpreter as a platform

For a text that has a block the interpreter is a platform for that block as it stands, neither
folded nor fused. So it comes to the results of the block (`Reference.ends_of_runs`), and to nothing
else (`Reference.runs_of_ends`).
-/

set_option autoImplicit false

namespace TapeLang

namespace Reference

/-! ## Commands -/

namespace State

def view (s : State) : View :=
  ⟨s.cells, s.pointer, { pending := s.input, consumed := s.consumed }, { written := s.output }⟩

theorem view_write (s : State) (value : UInt8) :
    (s.write value).view = s.view.put s.pointer value := rfl

end State

/-- Why an instruction that is a command fails. -/
def Stop.ofKind : Kind → Stop
  | .scan => .exhausted
  | .shift => .underflow
  | _ => .overflow

/-- The outcome shows the next view, or stops for a reason where there is none. -/
def Outcome.Agrees (position : Nat) (reason : Stop) (s : State) : Outcome → Option View → Prop
  | .next behind s', some v => behind = position + 1 ∧ s'.view = v
  | .stop reason' s', none => reason' = reason ∧ s' = s
  | _, _ => False

theorem byteOf_add_one (b : UInt8) : byteOf (b.toNat + 1) = b + 1 := by
  rw [byteOf_eq_iff, UInt8.toNat_add]
  have := b.toNat_lt
  simp only [UInt8.toNat_one]
  omega

theorem byteOf_sub_one (b : UInt8) : byteOf (b.toNat + -1) = b - 1 := by
  rw [byteOf_eq_iff, UInt8.toNat_sub]
  have := b.toNat_lt
  simp only [UInt8.toNat_one]
  omega

theorem act_increment (checked : Bool) (s : State) :
    s.view.act checked ⟨.modify, 1⟩
      = if checked ∧ s.cell = 255 then none else some (s.write (s.cell + 1)).view := by
  have hbyte : (checked && !isByte (s.cell.toNat + 1)) ↔ checked ∧ s.cell = 255 := by
    have hlt := s.cell.toNat_lt
    have heq : s.cell = 255 ↔ s.cell.toNat = 255 := UInt8.toNat_inj.symm
    simp only [Bool.and_eq_true, Bool.not_eq_true', ← Bool.not_eq_true, isByte_iff, heq]
    exact and_congr_right fun _ => by omega
  show View.write checked s.pointer (s.cell.toNat + 1) s.view = _
  rw [View.write, byteOf_add_one, State.view_write]
  simp only [hbyte]

theorem act_decrement (checked : Bool) (s : State) :
    s.view.act checked ⟨.modify, -1⟩
      = if checked ∧ s.cell = 0 then none else some (s.write (s.cell - 1)).view := by
  have hbyte : (checked && !isByte (s.cell.toNat + -1)) ↔ checked ∧ s.cell = 0 := by
    have hlt := s.cell.toNat_lt
    have heq : s.cell = 0 ↔ s.cell.toNat = 0 := UInt8.toNat_inj.symm
    simp only [Bool.and_eq_true, Bool.not_eq_true', ← Bool.not_eq_true, isByte_iff, heq]
    exact and_congr_right fun _ => by omega
  show View.write checked s.pointer (s.cell.toNat + -1) s.view = _
  rw [View.write, byteOf_sub_one, State.view_write]
  simp only [hbyte]

theorem act_right (checked : Bool) (s : State) :
    s.view.act checked ⟨.shift, 1⟩ = some { s with pointer := s.pointer + 1 : State }.view := by
  refine View.act_shift_eq_some.2 ⟨?_, rfl⟩
  show 0 ≤ (s.pointer : Int) + 1
  omega

theorem act_left (checked : Bool) (s : State) :
    s.view.act checked ⟨.shift, -1⟩
      = if s.pointer = 0 then none else some { s with pointer := s.pointer - 1 : State }.view := by
  by_cases h : s.pointer = 0
  · have hleft : (s.pointer : Int) + -1 < 0 := by omega
    rw [if_pos h]
    exact if_pos hleft
  · have hplace : (s.pointer : Int) + -1 = (s.pointer - 1 : Nat) := by omega
    rw [if_neg h]
    refine View.act_shift_eq_some.2 ⟨?_, ?_⟩
    · show 0 ≤ (s.pointer : Int) + -1
      omega
    · simp only [State.view, hplace, Int.toNat_natCast]

theorem act_scan (checked : Bool) (s : State) :
    s.view.act checked ⟨.scan, 1⟩ =
      match s.input with
      | [] => none
      | byte :: rest =>
        some { s.write byte with input := rest, consumed := s.consumed + 1 : State }.view := by
  show s.view.scan = _
  cases hinput : s.input with
  | nil => simp only [View.scan, State.view, Input.read?, Input.call?, hinput]
  | cons byte rest =>
    have hread : s.view.input.read?
        = some (some byte, { pending := rest, consumed := s.consumed + 1 }) := by
      simp only [State.view, Input.read?, Input.call?, hinput]
    exact View.scan_eq_some.2 ⟨byte, _, hread, rfl⟩

/-- One command does what the instruction of the command does to the view. -/
theorem agrees_step (checked : Bool) {code : List Char} {position : Nat} {c : Char}
    {i : Instruction} (hc : code[position]? = some c) (hi : Command.ofChar? c = some (.plain i))
    (s : State) :
    (step checked code position s).Agrees position (Stop.ofKind i.kind) s
      (s.view.act checked i) := by
  unfold Command.ofChar? at hi
  unfold step
  rw [hc]
  split at hi
  · cases hi
    rw [act_increment]
    simp only
    split <;> exact ⟨rfl, rfl⟩
  · cases hi
    rw [act_decrement]
    simp only
    split <;> exact ⟨rfl, rfl⟩
  · cases hi
    rw [act_right]
    exact ⟨rfl, rfl⟩
  · cases hi
    rw [act_left]
    simp only
    split <;> exact ⟨rfl, rfl⟩
  · cases hi
    exact ⟨rfl, rfl⟩
  · cases hi
    rw [act_scan]
    cases s.input with
    | nil => exact ⟨rfl, rfl⟩
    | cons byte rest => exact ⟨rfl, rfl⟩
  · cases hi
  · cases hi
  · cases hi

section
variable {checked : Bool} {code : List Char} {position : Nat} {c : Char} {i : Instruction}
  {s : State}

theorem step_of_act {w : View} (hc : code[position]? = some c)
    (hi : Command.ofChar? c = some (.plain i)) (h : s.view.act checked i = some w) :
    ∃ s', step checked code position s = .next (position + 1) s' ∧ s'.view = w := by
  have hagrees := agrees_step checked hc hi s
  rw [h] at hagrees
  cases hstep : step checked code position s with
  | next behind s' =>
    rw [hstep] at hagrees
    obtain ⟨rfl, hview⟩ := hagrees
    exact ⟨s', rfl, hview⟩
  | stop reason s' =>
    rw [hstep] at hagrees
    exact hagrees.elim

theorem step_of_act_eq_none (hc : code[position]? = some c)
    (hi : Command.ofChar? c = some (.plain i)) (h : s.view.act checked i = none) :
    step checked code position s = .stop (Stop.ofKind i.kind) s := by
  have hagrees := agrees_step checked hc hi s
  rw [h] at hagrees
  cases hstep : step checked code position s with
  | next behind s' =>
    rw [hstep] at hagrees
    exact hagrees.elim
  | stop reason s' =>
    rw [hstep] at hagrees
    obtain ⟨rfl, rfl⟩ := hagrees
    rfl

end

/-! ## The platform -/

section
variable (checked : Bool) (code : List Char)

/-- The next position and state of a run. -/
def next? (c : Nat × State) : Option (Nat × State) :=
  match step checked code c.1 c.2 with
  | .next position s => some (position, s)
  | .stop _ _ => none

/-- A loop begins at one position and ends at the other. -/
def Loops (j k : Nat) : Prop :=
  code[j]? = some '[' ∧ code[k]? = some ']' ∧ closing? code j = some k ∧ opening? code k = some j

theorem step_of_loops {j k position : Nat} (h : Loops code j k) (s : State)
    (hposition : position = j ∨ position = k) :
    step checked code position s = .next ((if s.cell = 0 then k else j) + 1) s := by
  obtain ⟨hj, hk, hclosing, hopening⟩ := h
  unfold step
  rcases hposition with rfl | rfl
  · rw [hj]
    by_cases hz : s.cell = 0
    · simp only [if_pos hz, hclosing, jump]
    · simp only [if_neg hz]
  · rw [hk]
    by_cases hz : s.cell = 0
    · simp only [if_pos hz]
    · simp only [if_neg hz, hopening, jump]

theorem next?_of_step {c : Nat × State} {position : Nat} {s : State}
    (h : step checked code c.1 c.2 = .next position s) :
    next? checked code c = some (position, s) := by
  rw [next?, h]

/-- The interpreter takes the commands of a block as instructions. -/
def platform : Platform (Nat × State) where
  next? := next? checked code
  checked := checked
  stands c j v := c.1 = j ∧ c.2.view = v
  holds j i := ∃ c, code[j]? = some c ∧ Command.ofChar? c = some (.plain i)
  loops := Loops code
  act := by
    intro d j i _ w hd hi hact
    obtain ⟨_, s⟩ := d
    obtain ⟨rfl, rfl⟩ := hd
    obtain ⟨c, hc, hi⟩ := hi
    obtain ⟨s', hstep, hview⟩ := step_of_act hc hi hact
    exact ⟨_, next?_of_step checked code hstep, rfl, hview⟩
  halt := by
    intro d j i _ hd hi hact
    obtain ⟨_, s⟩ := d
    obtain ⟨rfl, rfl⟩ := hd
    obtain ⟨c, hc, hi⟩ := hi
    rw [next?, step_of_act_eq_none hc hi hact]
  jump := by
    intro d j k place _ hd hloops hplace
    obtain ⟨_, s⟩ := d
    obtain ⟨rfl, rfl⟩ := hd
    exact ⟨_, next?_of_step checked code (step_of_loops checked code hloops s hplace), rfl, rfl⟩

@[simp] theorem platform_next? : (platform checked code).next? = next? checked code := rfl

end

theorem getElem?_before (before behind : List Char) (c : Char) :
    (before ++ c :: behind)[before.length]? = some c := by
  rw [List.getElem?_append_right (Nat.le_refl _), Nat.sub_self]
  rfl

theorem Spells.length_eq {b : Block} {cs : List Char} (h : Spells b cs) : cs.length = b.size := by
  induction h with
  | nil => rfl
  | step _ _ ih => rw [List.length_append, ih]; rfl
  | loop _ _ ih₁ ih₂ =>
    simp only [List.length_append, List.length_cons, List.length_nil, ih₁, ih₂, Block.size]
    omega

/-- A block lies where its characters stand. -/
theorem Spells.lies {b : Block} {cs : List Char} (h : Spells b cs) {checked : Bool}
    {code before behind : List Char} (hcode : code = before ++ (cs ++ behind)) :
    (platform checked code).Lies b before.length := by
  induction h generalizing before behind with
  | nil => trivial
  | @step b i c cs hb hc ih =>
    rw [List.append_assoc] at hcode
    refine ⟨ih hcode, c, ?_, hc⟩
    rw [hcode, ← List.append_assoc, ← hb.length_eq, ← List.length_append]
    exact getElem?_before (before ++ cs) behind c
  | @loop b body cs ds hb hbody ih₁ ih₂ =>
    have hbegin : code = (before ++ cs) ++ '[' :: (ds ++ ']' :: behind) := by
      simpa using hcode
    have hinner : code = (before ++ cs ++ ['[']) ++ (ds ++ ']' :: behind) := by
      simpa using hcode
    have hend : code = (before ++ cs ++ '[' :: ds) ++ ']' :: behind := by
      simpa using hcode
    have hfirst : code = before ++ (cs ++ ('[' :: ds ++ [']'] ++ behind)) := by
      simpa using hcode
    have hlies₁ := ih₁ hfirst
    have hlies₂ := ih₂ hinner
    have hj := getElem?_before (before ++ cs) (ds ++ ']' :: behind) '['
    have hk := getElem?_before (before ++ cs ++ '[' :: ds) behind ']'
    have hclosing := closing?_eq (before ++ cs) behind hbody.balanced
    have hopening := opening?_eq (before ++ cs) behind hbody.balanced
    rw [← hbegin] at hj hclosing hopening
    rw [← hend] at hk
    have hlength : (before ++ cs ++ '[' :: ds).length = before.length + b.size + 1 + body.size := by
      simp only [List.length_append, List.length_cons, hb.length_eq, hbody.length_eq]
      omega
    rw [hlength] at hk
    simp only [List.length_append, List.length_singleton, hb.length_eq,
      hbody.length_eq] at hj hclosing hopening hlies₂
    exact ⟨hlies₁, ⟨hj, hk, hclosing, hopening⟩, hlies₂⟩

/-! ## Runs -/

section
variable {checked : Bool} {code : List Char} {fuel n : Nat}

theorem runFrom_add {position : Nat} {s : State} {result : Stop × State}
    (h : runFrom checked code fuel position s = some result) (k : Nat) :
    runFrom checked code (fuel + k) position s = some result := by
  induction fuel generalizing position s with
  | zero => cases h
  | succ fuel ih =>
    rw [Nat.succ_add]
    unfold runFrom at h ⊢
    split
    · rename_i hstep
      rw [hstep] at h
      exact ih h
    · rename_i hstep
      rw [hstep] at h
      exact h

theorem runFrom_after {c d : Nat × State} (h : Walk.after (next? checked code) n c = some d)
    (fuel : Nat) :
    runFrom checked code (n + fuel) c.1 c.2 = runFrom checked code fuel d.1 d.2 := by
  induction n generalizing c with
  | zero =>
    cases h
    rw [Nat.zero_add]
  | succ n ih =>
    obtain ⟨c', hnext, h⟩ := Walk.exists_first h
    unfold next? at hnext
    split at hnext
    · rename_i hstep
      cases hnext
      rw [Nat.succ_add, runFrom, hstep]
      exact ih h
    · cases hnext

theorem runFrom_of_stop {c : Nat × State} {position : Nat} {s s' : State} {reason : Stop}
    (h : Walk.after (next? checked code) n c = some (position, s))
    (hstep : step checked code position s = .stop reason s') :
    runFrom checked code (n + 1) c.1 c.2 = some (reason, s') := by
  rw [runFrom_after h, runFrom, hstep]

theorem after_eq_none {position : Nat} {s : State} {result : Stop × State}
    (h : runFrom checked code fuel position s = some result) :
    Walk.after (next? checked code) fuel (position, s) = none := by
  cases hafter : Walk.after (next? checked code) fuel (position, s) with
  | none => rfl
  | some d =>
    have hzero := runFrom_after hafter 0
    rw [Nat.add_zero, h] at hzero
    cases hzero

end

end Reference

/-- Why the interpreter stops with a result. -/
def Result.stop : Result → Reference.Stop
  | .done _ => .completed
  | .stuck i _ => .ofKind i.kind
  | .spins _ _ => .unmatched

namespace Reference

variable {checked : Bool} {text : List Char} {b : Block} {stdin : List UInt8}

theorem Ends.unique {reason reason' : Stop} {s s' : State} (h : Ends checked text stdin reason s)
    (h' : Ends checked text stdin reason' s') : reason = reason' ∧ s = s' := by
  obtain ⟨fuel, h⟩ := h
  obtain ⟨fuel', h'⟩ := h'
  have hsum := runFrom_add h fuel'
  rw [Nat.add_comm, runFrom_add h' fuel, Option.some.injEq, Prod.mk.injEq] at hsum
  exact ⟨hsum.1.symm, hsum.2.symm⟩

theorem stands : (platform checked (codeOf text)).stands (0, { input := stdin }) 0
    (View.start stdin) := ⟨rfl, rfl⟩

section
variable (hb : parse? text = some b)
include hb

theorem lies : (platform checked (codeOf text)).Lies b 0 :=
  (spells_codeOf hb).lies (show codeOf text = [] ++ (codeOf text ++ []) by simp)

/-- **The interpreter comes to the result of the block.** -/
theorem ends_of_runs {n : Nat} {r : Result} (hr : b.runs checked (View.start stdin) n r)
    (hspins : ¬ r.Spins) : ∃ s, Ends checked text stdin r.stop s ∧ s.view = r.view := by
  obtain ⟨⟨position, s⟩, hafter, hshows⟩ := Platform.reaches (lies hb) stands hr
  cases r with
  | spins amount v => exact absurd ⟨amount, v, rfl⟩ hspins
  | done v =>
    obtain ⟨rfl, rfl⟩ := hshows
    have hend : (codeOf text)[0 + b.size]? = none := by
      rw [List.getElem?_eq_none_iff, (spells_codeOf hb).length_eq, Nat.zero_add]
    have hstep : step checked (codeOf text) (0 + b.size) s = .stop .completed s := by
      unfold step
      rw [hend]
    exact ⟨s, ⟨n + 1, runFrom_of_stop hafter hstep⟩, rfl⟩
  | stuck i v =>
    obtain ⟨j, ⟨rfl, rfl⟩, ⟨c, hc, hi⟩, hact⟩ := hshows
    exact ⟨s, ⟨n + 1, runFrom_of_stop hafter (step_of_act_eq_none hc hi hact)⟩, rfl⟩

/-- **Where the interpreter stops is a result of the block.** -/
theorem runs_of_ends {reason : Stop} {s : State} (h : Ends checked text stdin reason s) :
    ∃ n r, b.runs checked (View.start stdin) n r ∧ ¬ r.Spins ∧ r.stop = reason ∧
      r.view = s.view := by
  obtain ⟨fuel, hrun⟩ := id h
  rcases Platform.result_or_runs_on (lies hb) stands fuel with ⟨n, r, hr, hspins⟩ | hsome
  · obtain ⟨s', h', hview⟩ := ends_of_runs hb hr hspins
    obtain ⟨rfl, rfl⟩ := h.unique h'
    exact ⟨n, r, hr, hspins, rfl, hview.symm⟩
  · rw [platform_next?, after_eq_none hrun] at hsome
    cases hsome

end

end Reference

end TapeLang
