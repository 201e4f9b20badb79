import TapeLang.Proofs.Reaching

/-!
# Rounds of the batch loop

A round of the batch loop does what a step of the stepwise engine does, or the loop stops and acting
on the stop does it (`Batch.meets_step`). Only growing takes a stop that is no step: the same
instruction is met again, on a tape that is long enough. A single instruction needs words only for
this (`Batch.meets_execute`); from one round to the next, no number may come near their bounds.
-/

set_option autoImplicit false

namespace TapeLang

/-- Half the bound of words, so that sums of two smaller numbers are words. -/
def smallBound : Int := 0x4000000000000000

/-- The number is smaller than that, whatever its sign. -/
def IsSmall (n : Int) : Prop := -smallBound < n ∧ n < smallBound

/-- The instruction needs a longer tape. -/
def Instruction.Outgrows (i : Instruction) (s : State) : Prop :=
  i.kind.hasTarget ∧ (s.tape.size : Int) ≤ s.pointer + i.arg

theorem isWord_add {m n : Int} (hm : IsSmall m) (hn : IsSmall n) : isWord (m + n) := by
  obtain ⟨hm₁, hm₂⟩ := hm
  obtain ⟨hn₁, hn₂⟩ := hn
  rw [isWord_iff]
  unfold smallBound at *
  unfold wordBound
  omega

theorem IsSmall.isWord {n : Int} (hn : IsSmall n) : TapeLang.isWord n := by
  have h := isWord_add hn (n := 0) (by unfold IsSmall smallBound; omega)
  rwa [Int.add_zero] at h

/-! ## A longer tape -/

namespace Stepwise

/-- An instruction does the same on a tape that has its target, if there is room for that. -/
theorem execute_extend {checked : Bool} {i : Instruction} {index : Int} {s : State}
    (hi : i.Outgrows s) (hroom : i.refusal? s = none) :
    execute checked i index { s with tape := s.tape.extend (s.pointer + i.arg) }
      = execute checked i index s := by
  obtain ⟨hkind, hsize⟩ := hi
  rw [i.refusal?_of_hasTarget hkind] at hroom
  have h : ¬ s.pointer + i.arg < 0 := by omega
  have hreach : State.reach (s.pointer + i.arg)
      { s with tape := s.tape.extend (s.pointer + i.arg) } = s.reach (s.pointer + i.arg) := by
    rw [State.reach_of_lt (s.tape.lt_size_extend _), State.reach_eq_ok hroom]
  obtain ⟨kind, arg⟩ := i
  have hshift : State.shift arg index { s with tape := s.tape.extend (s.pointer + arg) }
      = s.shift arg index := by
    simp only [State.shift, if_neg h, hreach]
  have htransfer (sign : Int) :
      State.transfer checked sign arg index { s with tape := s.tape.extend (s.pointer + arg) }
        = s.transfer checked sign arg index := by
    simp only [State.transfer, if_neg h, hreach]
  cases kind with
  | shift => simp only [execute, hshift]
  | add => simp only [execute, htransfer]
  | sub => simp only [execute, htransfer]
  | _ => cases hkind

end Stepwise

namespace Batch

variable {program : Array Instruction} {options : Options} {o : State} {l : Loop} {i : Instruction}

/-! ## Instructions -/

/-- What acting on a stop comes to is what a step comes to. -/
def Answers : Resumption → Stepwise.Outcome → Prop
  | .resume index s, x => x = .next index s
  | .ended ending s, x => x.stop? = some (ending, s)

theorem withTarget_cases {distance : Int} {act : Nat → Loop → Outcome} (hp : isWord l.pointer)
    (htarget : isWord (l.pointer + distance)) :
    (l.pointer + distance < 0 ∧ withTarget distance l act = .stop .underflow l) ∨
    ((l.memory.size : Int) ≤ l.pointer + distance ∧ withTarget distance l act = .stop .grow l) ∨
    ∃ target : Nat, l.pointer + distance = target ∧ target < l.memory.size ∧
      withTarget distance l act = act target l := by
  unfold withTarget
  rw [if_pos hp, wrap_of_isWord htarget]
  by_cases h₀ : l.pointer + distance < 0
  · exact .inl ⟨h₀, if_pos h₀⟩
  · by_cases hsize : (l.memory.size : Int) ≤ l.pointer + distance
    · exact .inr (.inl ⟨hsize, by simp only [if_neg h₀, if_pos hsize]⟩)
    · obtain ⟨target, htarget⟩ := Int.eq_ofNat_of_zero_le (Int.not_lt.mp h₀)
      refine .inr (.inr ⟨target, htarget, by omega, ?_⟩)
      rw [htarget] at h₀ hsize ⊢
      simp only [if_neg h₀, if_neg hsize, Int.toNat_natCast]

/-! ## Cells -/

theorem exists_current (hs : (leave o l).Inside) :
    ∃ place, l.current? = some place ∧ resolve? l.memory.size (leave o l).pointer = some place :=
  ⟨_, resolve?_of_nonneg hs.1 hs.2, resolve?_of_nonneg hs.1 hs.2⟩

section
variable {index : Int} {place : Nat} (h : resolve? l.memory.size index = some place)
include h

theorem get?_leave : (leave o l).tape.get? index = some (l.memory.getD place 0) := by
  have hresolve : resolve? (leave o l).tape.size index = some place := h
  have hlt := resolve?_lt h
  have hcell : (leave o l).tape.cells[place]? = some l.memory[place] :=
    Array.getElem?_eq_getElem hlt
  rw [Tape.get?, hresolve]
  simp [hcell, hlt]

theorem set_leave (value : UInt8) :
    (leave o l).tape.set index value
      = (leave o { l with memory := l.memory.setIfInBounds place value }).tape := by
  have hresolve : resolve? (leave o l).tape.size index = some place := h
  rw [Tape.set, hresolve]
  rfl

end

/-! ## Instructions -/

/-- The argument that a stop at an instruction is acted on with. -/
def argumentOf : Option Instruction → Int
  | some i => i.arg
  | none => 0

/-- How the loop takes an instruction, and what the stepwise engine makes of it. -/
inductive Meets (options : Options) (o : State) (l : Loop) (i? : Option Instruction) :
    Outcome → Stepwise.Outcome → Prop
  | next {l' : Loop} : Meets options o l i? (.next l') (.next l'.index (leave o l'))
  | stop {reason : Stop} {x : Stepwise.Outcome} :
      Answers (act options reason l.index (argumentOf i?) (leave o l)) x →
      Meets options o l i? (.stop reason l) x
  | grow {i : Instruction} {x : Stepwise.Outcome} : i? = some i → i.Outgrows (leave o l) →
      Stepwise.limitReached? options (leave o l) = none → Meets options o l i? (.stop .grow l) x

theorem act_grow {index : Int} {s : State} (hi : i.Outgrows s) (hroom : i.refusal? s = none) :
    act options .grow index i.arg s
      = .resume index { s with tape := s.tape.extend (s.pointer + i.arg) } := by
  rw [i.refusal?_of_hasTarget hi.1] at hroom
  rw [act, State.reach_eq_ok hroom]

theorem act_grow_of_refusal? {index : Int} {s : State} {error : RoomError} (hi : i.Outgrows s)
    (hrefused : i.refusal? s = some error) :
    act options .grow index i.arg s = .ended (.failed (.noRoom error)) s := by
  rw [i.refusal?_of_hasTarget hi.1] at hrefused
  rw [act, State.reach_eq_error hrefused]

theorem answers_resumeAfter (index : Int) (effect : Except Failure State) :
    Answers (resumeAfter index effect) (Stepwise.goOn (index + 1) effect) := by
  cases effect <;> rfl

theorem meets_modify (hs : (leave o l).Inside) (amount : Int) :
    Meets options o l (some ⟨.modify, amount⟩) (modify amount l)
      (Stepwise.goOn (l.index + 1) ((leave o l).modify false amount l.index)) := by
  obtain ⟨place, hcurrent, hresolve⟩ := exists_current hs
  simp only [modify, hcurrent, State.modify, get?_leave hresolve, set_leave hresolve]
  exact .next

theorem meets_clear (hs : (leave o l).Inside) (arg : Int) :
    Meets options o l (some ⟨.clear, arg⟩) (clear l)
      (Stepwise.goOn (l.index + 1) ((leave o l).store 0)) := by
  obtain ⟨place, hcurrent, hresolve⟩ := exists_current hs
  simp only [clear, hcurrent, State.store, get?_leave hresolve, set_leave hresolve]
  exact .next

theorem meets_branch (hs : (leave o l).Inside) {onZero : Bool} {target : Int}
    (htarget : isWord (target + 1)) :
    Meets options o l (some i) (branch onZero target l)
      (Stepwise.branch onZero target l.index (leave o l)) := by
  obtain ⟨place, hcurrent, hresolve⟩ := exists_current hs
  have hbranch : branch onZero target l = .next (l.proceed
      ((if (l.memory.getD place 0 == 0) = onZero then target else l.index) + 1)) := by
    simp only [branch, hcurrent, wrap_of_isWord htarget]
    split <;> rfl
  rw [hbranch]
  simp only [Stepwise.branch, get?_leave hresolve]
  exact .next

section
variable (hlimit : Stepwise.limitReached? options (leave o l) = none) (hp : isWord l.pointer)
  {distance : Int} (hd : isWord (l.pointer + distance))
include hlimit hp hd

theorem meets_shift : Meets options o l (some ⟨.shift, distance⟩) (shift distance l)
    (Stepwise.goOn (l.index + 1) ((leave o l).shift distance l.index)) := by
  have hpointer : (leave o l).pointer = l.pointer := rfl
  unfold shift
  rcases withTarget_cases hp hd with ⟨h, hact⟩ | ⟨hsize, hact⟩ | ⟨target, htarget, hlt, hact⟩
  · rw [hact]
    refine .stop ?_
    simp only [State.shift, hpointer, if_pos h]
    rfl
  · rw [hact]
    exact .grow rfl ⟨rfl, hsize⟩ hlimit
  · rw [hact]
    have hreach : (leave o l).reach target = .ok (leave o l) :=
      State.reach_of_lt (Int.ofNat_lt.mpr hlt)
    have h : ¬ (target : Int) < 0 := by omega
    simp only [State.shift, hpointer, htarget, if_neg h, hreach]
    exact .next

theorem meets_transfer (hs : (leave o l).Inside) {kind : Kind} (hkind : kind.hasTarget)
    (sign : Int) : Meets options o l (some ⟨kind, distance⟩) (transfer sign distance l)
      (Stepwise.goOn (l.index + 1) ((leave o l).transfer false sign distance l.index)) := by
  obtain ⟨place, hcurrent, hresolve⟩ := exists_current hs
  have hpointer : (leave o l).pointer = l.pointer := rfl
  unfold transfer
  rcases withTarget_cases hp hd with ⟨h, hact⟩ | ⟨hsize, hact⟩ | ⟨target, htarget, ht, hact⟩
  · rw [hact]
    refine .stop ?_
    simp only [State.transfer, hpointer, if_pos h]
    rfl
  · rw [hact]
    exact .grow rfl ⟨hkind, hsize⟩ hlimit
  · rw [hact]
    have hreach : (leave o l).reach target = .ok (leave o l) :=
      State.reach_of_lt (Int.ofNat_lt.mpr ht)
    have h : ¬ (target : Int) < 0 := by omega
    have htarget' : resolve? l.memory.size target = some target :=
      resolve?_of_nonneg (Int.natCast_nonneg target) (Int.ofNat_lt.mpr ht)
    have hget : (leave o l).tape.get target = l.memory.getD target 0 := by
      rw [Tape.get, get?_leave htarget', Option.getD_some]
    have hresolve' (value : UInt8) :
        resolve? (l.memory.setIfInBounds target value).size (leave o l).pointer = some place := by
      rw [Array.size_setIfInBounds]
      exact hresolve
    rw [← hpointer] at htarget
    simp only [hcurrent, State.transfer, htarget, if_neg h, hreach, get?_leave hresolve, hget,
      set_leave htarget']
    rw [set_leave (l := { l with memory := l.memory.setIfInBounds target _ }) (hresolve' _)]
    exact .next

end

/-- **The loop takes an instruction as the stepwise engine does**, or stops for what the engine
does. -/
theorem meets_execute (hlimit : Stepwise.limitReached? options (leave o l) = none)
    (hs : (leave o l).Inside) (hp : isWord l.pointer)
    (htarget : i.kind.hasTarget → isWord (l.pointer + i.arg))
    (hjump : i.kind.isLoop → isWord (l.index + i.arg + 1) ∧ isWord (l.index - i.arg + 1)) :
    Meets options o l (some i) (execute i l) (Stepwise.execute false i l.index (leave o l)) := by
  obtain ⟨kind, arg⟩ := i
  cases kind with
  | modify => exact meets_modify hs arg
  | shift => exact meets_shift hlimit hp (htarget rfl)
  | print => exact .stop (answers_resumeAfter l.index _)
  | scan => exact .stop (answers_resumeAfter l.index _)
  | clear => exact meets_clear hs arg
  | add => exact meets_transfer hlimit hp (htarget rfl) hs rfl 1
  | sub => exact meets_transfer hlimit hp (htarget rfl) hs rfl (-1)
  | beginLoop => exact meets_branch hs (hjump rfl).1
  | endLoop => exact meets_branch hs (hjump rfl).2

/-! ## Rounds -/

/-- The numbers of a program are small. Its size always is: no memory holds more instructions. -/
structure SmallProgram (program : Array Instruction) : Prop where
  size : (program.size : Int) ≤ smallBound
  args : ∀ i ∈ program, IsSmall i.arg

/-- A configuration in which the loop can be. -/
structure Ready (program : Array Instruction) (options : Options) (c : Int × State) : Prop where
  inside : c.2.Inside
  index : -(program.size : Int) ≤ c.1
  pointer : IsSmall c.2.pointer
  steps : ∀ limit, options.maxSteps = some limit → c.2.steps ≤ limit

/-- The loop has used up its budget where the run has reached its limit. -/
theorem budget_le_iff {index : Int} (h : Ready program options (index, leave o l)) :
    (0 ≤ budget options o ∧ budget options o ≤ l.steps) ↔
      (Stepwise.limitReached? options (leave o l)).isSome := by
  have hsteps := h.steps
  have hleave : (leave o l).steps = o.steps + l.steps := rfl
  unfold budget Stepwise.limitReached?
  cases hmax : options.maxSteps with
  | none => simp
  | some limit =>
    have hle := hsteps limit hmax
    simp only [hleave] at hle ⊢
    by_cases hreached : limit ≤ (o.steps + l.steps : Nat)
    · rw [if_pos hreached]
      exact iff_of_true (by omega) rfl
    · rw [if_neg hreached]
      exact iff_of_false (by omega) (by simp)

theorem exists_fetch? {index : Int} (h₀ : -(program.size : Int) ≤ index)
    (hlt : index < program.size) : ∃ i, fetch? program index = some i ∧ i ∈ program := by
  obtain ⟨place, hplace⟩ := Option.isSome_iff_exists.1
    ((isSome_resolve?_iff program.size index).2 ⟨h₀, hlt⟩)
  have hlt' := resolve?_lt hplace
  refine ⟨program[place], ?_, Array.getElem_mem hlt'⟩
  simp only [fetch?, hplace, Array.getElem?_eq_getElem hlt']

theorem step_of_fetch? {index : Int} {s : State} (h : fetch? program index = some i)
    (hlimit : Stepwise.limitReached? options s = none) :
    Stepwise.step program options index s
      = Stepwise.execute (!options.allowOverflows) i index s := by
  unfold fetch? at h
  split at h
  · rename_i place hplace
    have hsome : (resolve? program.size index).isSome := by rw [hplace]; rfl
    have hlt := ((isSome_resolve?_iff program.size index).1 hsome).2
    unfold Stepwise.step
    rw [if_neg (by omega), hlimit]
    simp only [hplace, h]
  · cases h

/-- **A round of the loop meets a step of the stepwise engine.** -/
theorem meets_step (hprogram : SmallProgram program) (hwrap : options.allowOverflows = true)
    (h : Ready program options (l.index, leave o l)) :
    Meets options o l (fetch? program l.index) (step program (budget options o) l)
      (Stepwise.step program options l.index (leave o l)) := by
  unfold step
  by_cases hsize : (program.size : Int) ≤ l.index
  · rw [if_pos hsize, Stepwise.step, if_pos hsize]
    exact .stop rfl
  rw [if_neg hsize]
  by_cases hbudget : 0 ≤ budget options o ∧ budget options o ≤ l.steps
  · obtain ⟨limit, hlimit⟩ := Option.isSome_iff_exists.1 ((budget_le_iff h).1 hbudget)
    rw [if_pos hbudget, Stepwise.step, if_neg hsize, hlimit]
    refine .stop ?_
    simp only [act, Stepwise.maxSteps_of_limitReached? hlimit, Option.getD_some]
    rfl
  rw [if_neg hbudget]
  have hlimit : Stepwise.limitReached? options (leave o l) = none :=
    Option.not_isSome_iff_eq_none.1 (mt (budget_le_iff h).2 hbudget)
  obtain ⟨i, hfetch, hmem⟩ := exists_fetch? h.index (show l.index < program.size by omega)
  have hi := hprogram.args i hmem
  have hjump : isWord (l.index + i.arg + 1) ∧ isWord (l.index - i.arg + 1) := by
    have hindex := h.index
    have hbound := hprogram.size
    obtain ⟨hlow, hhigh⟩ := hi
    rw [isWord_iff, isWord_iff]
    unfold smallBound at *
    unfold wordBound
    omega
  simp only [step_of_fetch? hfetch hlimit, hfetch, hwrap]
  exact meets_execute hlimit h.inside h.pointer.isWord (fun _ => isWord_add h.pointer hi)
    fun _ => hjump

end Batch

end TapeLang
