import TapeLang.Proofs.Agreeing
import TapeLang.Proofs.Outcomes
import TapeLang.Proofs.Walks

/-!
# Turns of the batch engine

`Batch.advance` is a visit to the batch loop that is one round long, with what the machine does
about the stop. A turn completes one instruction: it joins the round in which the tape has grown
with the one behind it. `Batch.Turns` says all that a turn can come to. No number has to be small
for this; and as long as its target is a word, a turn does what a step of the stepwise engine does
(`Batch.turn_eq_execute`).
-/

set_option autoImplicit false

namespace TapeLang

namespace Batch

section
variable (code : Array Instruction) (options : Options) (c : Int × State)

/-- A round of the loop, and what the machine does if the loop stops. -/
def advance : Resumption :=
  if isWord c.2.pointer && isWord (budget options c.2) then
    match step code (budget options c.2) (enter c.1 c.2) with
    | .next l => .resume l.index (leave c.2 l)
    | .stop reason l => act options reason l.index (argumentOf (fetch? code l.index)) (leave c.2 l)
  else .ended (.failed .wordTooLarge) c.2

/-- What the batch engine makes of the instruction at an index. -/
def turn : Resumption := Walk.joined (advance code options) c

/-- The pointer is a word and on a cell, and the step limit has not been passed. -/
structure Held : Prop where
  inside : c.2.Inside
  pointer : isWord c.2.pointer
  steps : ∀ limit, options.maxSteps = some limit → c.2.steps ≤ limit

end

variable {code : Array Instruction} {options : Options} {i : Instruction} {c : Int × State}

/-! ## Turns -/

theorem Held.takes (h : Held options c) (i : Instruction) :
    Takes i (enter c.1 c.2) (execute i (enter c.1 c.2)) :=
  @takes_execute (enter c.1 c.2) h.inside.1 h.inside.2 h.pointer i

/-- All that a turn can come to. -/
inductive Turns (code : Array Instruction) (options : Options) (c : Int × State) : Resumption → Prop
  | wordTooLarge : ¬ isWord (budget options c.2) →
      Turns code options c (.ended (.failed .wordTooLarge) c.2)
  | completed : code.size ≤ c.1 → Turns code options c (.ended .completed c.2)
  | limit {limit : Int} : c.1 < code.size → Stepwise.limitReached? options c.2 = some limit →
      Turns code options c (.ended (.failed (.stepLimit limit ⟨c.2.pointer, c.1⟩)) c.2)
  | missing : Turns code options c (.ended (.failed (.missing c.1 code.size)) c.2)
  | underflow (target : Int) :
      Turns code options c (.ended (.failed (.tapeUnderflow target ⟨c.2.pointer, c.1⟩)) c.2)
  | print {i : Instruction} {f : Failure} : fetch? code c.1 = some i → i.kind = .print →
      c.2.print i.arg = .error f → Turns code options c (.ended (.failed f.error) f.state)
  | scan {i : Instruction} {f : Failure} : fetch? code c.1 = some i → i.kind = .scan →
      c.2.scan c.1 = .error f → Turns code options c (.ended (.failed f.error) f.state)
  | noRoom {i : Instruction} {error : RoomError} : fetch? code c.1 = some i →
      i.refusal? c.2 = some error → Turns code options c (.ended (.failed (.noRoom error)) c.2)
  | moves {index : Int} {s : State} : s.steps = c.2.steps + 1 → Held options (index, s) →
      Turns code options c (.resume index s)

theorem limitReached_iff (h : Held options c) :
    (0 ≤ budget options c.2 ∧ budget options c.2 ≤ (0 : Nat)) ↔
      (Stepwise.limitReached? options c.2).isSome := by
  have hsteps := h.steps
  unfold budget Stepwise.limitReached?
  cases hmax : options.maxSteps with
  | none => simp
  | some limit =>
    have hle := hsteps limit hmax
    by_cases hreached : limit ≤ c.2.steps
    · simp only [if_pos hreached, Option.isSome_some, iff_true]
      omega
    · simp only [if_neg hreached, Option.isSome_none, Bool.false_eq_true, iff_false]
      omega

theorem budget_open (h : Held options c) (hlimit : Stepwise.limitReached? options c.2 = none) :
    ¬ (0 ≤ budget options c.2 ∧ budget options c.2 ≤ (enter c.1 c.2).steps) := by
  intro hreached
  have hsome := (limitReached_iff h).1 hreached
  rw [hlimit] at hsome
  cases hsome

/-- One more instruction may be completed where the limit has not been reached. -/
theorem held_next {index : Int} {s : State} (hlimit : Stepwise.limitReached? options c.2 = none)
    (hs : s.Inside) (hpointer : isWord s.pointer) (hsteps : s.steps = c.2.steps + 1) :
    Held options (index, s) := by
  refine ⟨hs, hpointer, fun limit hmax => ?_⟩
  unfold Stepwise.limitReached? at hlimit
  rw [hmax] at hlimit
  by_cases hreached : limit ≤ c.2.steps
  · simp [hreached] at hlimit
  · simp only [hsteps]
    omega

/-- Printing leaves the pointer and the cells, and scanning the pointer and their number. -/
theorem place_of_print {s t : State} {count : Int} (h : s.print count = .ok t) :
    t.pointer = s.pointer ∧ t.tape.size = s.tape.size := by
  unfold State.print at h
  split at h
  · cases h
  · simp only at h
    split at h <;> cases h
    exact ⟨rfl, rfl⟩

theorem place_of_scan {s t : State} {index : Int} (h : s.scan index = .ok t) :
    t.pointer = s.pointer ∧ t.tape.size = s.tape.size := by
  unfold State.scan at h
  split at h
  · cases h
  · cases h
  · unfold State.store at h
    split at h <;> cases h
    exact ⟨rfl, Tape.size_set _ _ _⟩

/-- A sum of words that wraps to a target is the target. -/
theorem wrap_add_of_nonneg {m n : Int} (hm : isWord m) (h₀ : 0 ≤ m) (hn : isWord n)
    (h : 0 ≤ wrap (m + n)) : wrap (m + n) = m + n := by
  have hsize : Int64.size = 0x10000000000000000 := rfl
  rw [isWord_iff, wordBound] at hm hn
  rw [wrap_eq_bmod, hsize, Int.bmod_def] at h ⊢
  omega

theorem lt_size_of_fetch? {index : Int} (h : fetch? code index = some i) :
    index < code.size ∧ i ∈ code := by
  unfold fetch? at h
  split at h
  · rename_i place hplace
    have hsome : (resolve? code.size index).isSome := by rw [hplace]; rfl
    exact ⟨((isSome_resolve?_iff code.size index).1 hsome).2, Array.mem_of_getElem? h⟩
  · cases h

section
variable (h : Held options c) (hword : isWord (budget options c.2))
include h hword

theorem entry_of_held : isWord c.2.pointer && isWord (budget options c.2) := by
  simp [h.pointer, hword]

omit h hword in
theorem advance_of_size_le (hentry : isWord c.2.pointer && isWord (budget options c.2))
    (hsize : code.size ≤ c.1) : advance code options c = .ended .completed c.2 := by
  unfold advance step
  rw [if_pos hentry, if_pos (show (code.size : Int) ≤ (enter c.1 c.2).index from hsize)]
  rfl

theorem advance_of_limit {limit : Int} (hlt : c.1 < code.size)
    (hlimit : Stepwise.limitReached? options c.2 = some limit) :
    advance code options c = .ended (.failed (.stepLimit limit ⟨c.2.pointer, c.1⟩)) c.2 := by
  have hbudget := (limitReached_iff h).2 (by rw [hlimit]; rfl)
  unfold advance step
  rw [if_pos (entry_of_held h hword),
    if_neg (show ¬ (code.size : Int) ≤ (enter c.1 c.2).index from Int.not_le.mpr hlt),
    if_pos (show _ ∧ budget options c.2 ≤ (enter c.1 c.2).steps from hbudget)]
  simp only [act, Stepwise.maxSteps_of_limitReached? hlimit, Option.getD_some]
  rfl

theorem advance_of_missing (hlimit : Stepwise.limitReached? options c.2 = none)
    (hlt : c.1 < code.size) (hnone : fetch? code c.1 = none) :
    advance code options c = .ended (.failed (.missing c.1 code.size)) c.2 := by
  unfold advance step
  rw [if_pos (entry_of_held h hword),
    if_neg (show ¬ (code.size : Int) ≤ (enter c.1 c.2).index from Int.not_le.mpr hlt),
    if_neg (budget_open h hlimit), show (enter c.1 c.2).index = c.1 from rfl, hnone]
  rfl

end

section
variable (h : Held options c) (hword : isWord (budget options c.2))
  (hlimit : Stepwise.limitReached? options c.2 = none) (hi : fetch? code c.1 = some i)
include h hword hlimit hi

/-- A round that is not over before the instruction. -/
theorem advance_of_fetch? :
    advance code options c =
      match execute i (enter c.1 c.2) with
      | .next l => .resume l.index (leave c.2 l)
      | .stop reason l =>
        act options reason l.index (argumentOf (fetch? code l.index)) (leave c.2 l) := by
  have hlt := (lt_size_of_fetch? hi).1
  unfold advance step
  rw [if_pos (entry_of_held h hword),
    if_neg (show ¬ (code.size : Int) ≤ (enter c.1 c.2).index from Int.not_le.mpr hlt),
    if_neg (budget_open h hlimit), show (enter c.1 c.2).index = c.1 from rfl, hi]

omit h hword hi in
theorem moves_of_next {l l' : Loop} {s : State} (hs : s.steps = c.2.steps)
    (hl : l = enter c.1 s) (htakes : Takes i l (.next l')) :
    Turns code options c (.resume l'.index (leave s l')) := by
  subst hl
  cases htakes with
  | next hsteps hmemory h₀ hlt hword =>
    have hcount : (leave s l').steps = c.2.steps + 1 := by
      show s.steps + l'.steps = _
      rw [hsteps, hs]
      rfl
    refine .moves hcount (held_next hlimit ⟨h₀, ?_⟩ hword hcount)
    show l'.pointer < l'.memory.size
    rw [hmemory]
    exact hlt

omit hword hi in
theorem moves_of_effect {index : Int} {t : State} (hsteps : t.steps = c.2.steps)
    (hplace : t.pointer = c.2.pointer ∧ t.tape.size = c.2.tape.size) :
    Turns code options c (.resume index t.tick) := by
  obtain ⟨hpointer, hsize⟩ := hplace
  have hcount : t.tick.steps = c.2.steps + 1 := congrArg (· + 1) hsteps
  have hs : t.tick.Inside := by
    show 0 ≤ t.pointer ∧ t.pointer < t.tape.size
    rw [hpointer, hsize]
    exact h.inside
  have hword : isWord t.tick.pointer := by
    show isWord t.pointer
    rw [hpointer]
    exact h.pointer
  exact .moves hcount (held_next hlimit hs hword hcount)

/-- An instruction for which the tape has grown is executed in the next round. -/
theorem turns_grown (hcode : ∀ i ∈ code, isWord i.arg) (hkind : i.kind.hasTarget)
    (hnonneg : 0 ≤ wrap (c.2.pointer + i.arg)) :
    Turns code options c (advance code options
      (c.1, { c.2 with tape := c.2.tape.extend (c.2.pointer + i.arg) })) := by
  have htarget := wrap_add_of_nonneg h.pointer h.inside.1 (hcode i (lt_size_of_fetch? hi).2) hnonneg
  have hsize := c.2.tape.lt_size_extend (c.2.pointer + i.arg)
  have h' : Held options (c.1, { c.2 with tape := c.2.tape.extend (c.2.pointer + i.arg) }) :=
    ⟨h.inside.extend _, h.pointer, h.steps⟩
  rw [advance_of_fetch? h' hword hlimit hi]
  have htakes := h'.takes i
  generalize execute i (enter c.1 { c.2 with tape := c.2.tape.extend (c.2.pointer + i.arg) }) = x
    at htakes
  cases x with
  | next l => exact moves_of_next hlimit rfl rfl htakes
  | stop reason l =>
    cases htakes with
    | print hprint => simp [hprint, Kind.hasTarget] at hkind
    | scan hscan => simp [hscan, Kind.hasTarget] at hkind
    | underflow _ hneg => exact absurd hnonneg (Int.not_le.mpr hneg)
    | grow _ _ hle =>
      rw [show (enter c.1 { c.2 with tape := c.2.tape.extend (c.2.pointer + i.arg) }).pointer
        = c.2.pointer from rfl, htarget] at hle
      exact absurd hsize (Int.not_lt.mpr hle)

end

section
variable (hcode : ∀ i ∈ code, isWord i.arg) (h : Held options c)
include hcode h

/-- A round is a turn, or the tape grows in it and the next round is one. -/
theorem advance_cases :
    Turns code options c (advance code options c) ∨
    ∃ s, advance code options c = .resume c.1 s ∧ s.steps = c.2.steps ∧ Held options (c.1, s) ∧
      Turns code options c (advance code options (c.1, s)) := by
  by_cases hword : isWord (budget options c.2)
  swap
  · unfold advance
    rw [if_neg (by simp [hword])]
    exact .inl (.wordTooLarge hword)
  by_cases hsize : (code.size : Int) ≤ c.1
  · rw [advance_of_size_le (entry_of_held h hword) hsize]
    exact .inl (.completed hsize)
  cases hlimit : Stepwise.limitReached? options c.2 with
  | some limit =>
    rw [advance_of_limit h hword (Int.not_le.mp hsize) hlimit]
    exact .inl (.limit (Int.not_le.mp hsize) hlimit)
  | none =>
    cases hi : fetch? code c.1 with
    | none =>
      rw [advance_of_missing h hword hlimit (Int.not_le.mp hsize) hi]
      exact .inl .missing
    | some i =>
      have hgrown := turns_grown h hword hlimit hi hcode
      rw [advance_of_fetch? h hword hlimit hi]
      have htakes := h.takes i
      generalize execute i (enter c.1 c.2) = x at htakes
      cases x with
      | next l => exact .inl (moves_of_next hlimit rfl rfl htakes)
      | stop reason l =>
        obtain rfl := eq_of_takes_stop htakes
        simp only [show (enter c.1 c.2).index = c.1 from rfl, hi, argumentOf,
          show leave c.2 (enter c.1 c.2) = c.2 from rfl]
        cases htakes with
        | print hkind =>
          simp only [act]
          cases heffect : c.2.print i.arg with
          | error f => exact .inl (.print hi hkind heffect)
          | ok t =>
            exact .inl (moves_of_effect h hlimit (State.keeps_print heffect).steps
              (place_of_print heffect))
        | scan hkind =>
          simp only [act]
          cases heffect : c.2.scan c.1 with
          | error f => exact .inl (.scan hi hkind heffect)
          | ok t =>
            exact .inl (moves_of_effect h hlimit (State.keeps_scan heffect).steps
              (place_of_scan heffect))
        | underflow => exact .inl (.underflow _)
        | grow hkind hnonneg hsize =>
          replace hsize : (c.2.tape.size : Int) ≤ wrap (c.2.pointer + i.arg) := hsize
          rw [wrap_add_of_nonneg h.pointer h.inside.1 (hcode i (lt_size_of_fetch? hi).2)
            hnonneg] at hsize
          cases hroom : i.refusal? c.2 with
          | some error =>
            rw [act_grow_of_refusal? ⟨hkind, hsize⟩ hroom]
            exact .inl (.noRoom hi hroom)
          | none =>
            rw [act_grow ⟨hkind, hsize⟩ hroom]
            exact .inr ⟨_, rfl, rfl, ⟨h.inside.extend _, h.pointer, h.steps⟩,
              hgrown hkind hnonneg⟩

theorem turns_turn : Turns code options c (turn code options c) := by
  unfold turn Walk.joined
  rcases advance_cases hcode h with hturns | ⟨s, hadvance, hsteps, -, hturns⟩
  · generalize advance code options c = x at hturns
    cases x with
    | ended ending s => exact hturns
    | resume index s =>
      cases hturns with
      | moves hcount hs =>
        simp only
        rw [if_neg (by omega)]
        exact .moves hcount hs
  · simp only [hadvance]
    rw [if_pos hsteps]
    exact hturns

end

/-! ## Turns and steps -/

theorem Answers.eq_resumption {x : Resumption} {outcome : Stepwise.Outcome}
    (h : Answers x outcome) : x = outcome.resumption := by
  cases x with
  | resume index s =>
    rw [show outcome = .next index s from h]
    rfl
  | ended ending s =>
    replace h : outcome.stop? = some (ending, s) := h
    cases outcome <;> cases h
    all_goals rfl

section
variable (h : Held options c)
include h

/-- The run is over before the instruction at the index, or there is none. -/
theorem turn_of_rest (hrest : isWord (budget options c.2) →
      Stepwise.limitReached? options c.2 = none → fetch? code c.1 = none) :
    ∃ ending, turn code options c = .ended ending c.2 := by
  suffices hround : ∃ ending, advance code options c = .ended ending c.2 by
    obtain ⟨ending, hround⟩ := hround
    exact ⟨ending, Walk.joined_of_ended hround⟩
  by_cases hword : isWord (budget options c.2)
  swap
  · exact ⟨.failed .wordTooLarge, if_neg (by simp [hword])⟩
  by_cases hsize : (code.size : Int) ≤ c.1
  · exact ⟨_, advance_of_size_le (entry_of_held h hword) hsize⟩
  cases hlimit : Stepwise.limitReached? options c.2 with
  | some limit => exact ⟨_, advance_of_limit h hword (Int.not_le.mp hsize) hlimit⟩
  | none =>
    exact ⟨_, advance_of_missing h hword hlimit (Int.not_le.mp hsize) (hrest hword hlimit)⟩

variable (hword : isWord (budget options c.2))
  (hlimit : Stepwise.limitReached? options c.2 = none) (hi : fetch? code c.1 = some i)
include hword hlimit hi

/-- A round does what a step does, or makes the tape longer. There is room for that then. -/
theorem advance_meets (htarget : i.kind.hasTarget → isWord (c.2.pointer + i.arg))
    (hloop : ¬ i.kind.isLoop) :
    advance code options c = (Stepwise.execute false i c.1 c.2).resumption ∨
      i.Outgrows c.2 ∧ i.refusal? c.2 = none ∧ advance code options c
        = .resume c.1 { c.2 with tape := c.2.tape.extend (c.2.pointer + i.arg) } := by
  have hmeets : Meets options c.2 (enter c.1 c.2) (some i) (execute i (enter c.1 c.2))
      (Stepwise.execute false i c.1 c.2) :=
    meets_execute hlimit h.inside h.pointer htarget fun hkind => absurd hkind hloop
  have hrefused {error : RoomError} (hroom : i.refusal? c.2 = some error) :
      Stepwise.execute false i c.1 c.2 = .failed (.noRoom error) c.2 :=
    Stepwise.execute_of_refusal? hroom
  rw [advance_of_fetch? h hword hlimit hi]
  generalize execute i (enter c.1 c.2) = x at hmeets
  generalize Stepwise.execute false i c.1 c.2 = y at hmeets hrefused
  have hargument : argumentOf (fetch? code (enter c.1 c.2).index) = argumentOf (some i) :=
    congrArg argumentOf hi
  cases hmeets with
  | next => exact .inl rfl
  | stop hanswers =>
    left
    simp only [hargument]
    exact hanswers.eq_resumption
  | grow hsame houtgrows =>
    cases hsame
    simp only [hargument]
    cases hroom : i.refusal? c.2 with
    | some error =>
      left
      rw [hrefused hroom]
      exact act_grow_of_refusal? houtgrows hroom
    | none => exact .inr ⟨houtgrows, rfl, act_grow houtgrows hroom⟩

/-- **A turn does what a step does**, as long as its target is a word and it does not jump. -/
theorem turn_eq_execute (htarget : i.kind.hasTarget → isWord (c.2.pointer + i.arg))
    (hloop : ¬ i.kind.isLoop) :
    turn code options c = (Stepwise.execute false i c.1 c.2).resumption := by
  rcases advance_meets h hword hlimit hi htarget hloop with hsame | ⟨houtgrows, hroom, hgrown⟩
  · cases hexec : Stepwise.execute false i c.1 c.2 with
    | next index s =>
      rw [hexec] at hsame
      exact Walk.joined_of_resume hsame (Stepwise.steps_of_execute hexec)
    | done s =>
      rw [hexec] at hsame
      exact Walk.joined_of_ended hsame
    | failed error s =>
      rw [hexec] at hsame
      exact Walk.joined_of_ended hsame
  · have h' : Held options (c.1, { c.2 with tape := c.2.tape.extend (c.2.pointer + i.arg) }) :=
      ⟨h.inside.extend _, h.pointer, h.steps⟩
    unfold turn Walk.joined
    rw [hgrown]
    simp only [↓reduceIte]
    rcases advance_meets h' hword hlimit hi htarget hloop with hsame | ⟨⟨-, hsize⟩, -⟩
    · rw [hsame, Stepwise.execute_extend houtgrows hroom]
    · exact absurd (c.2.tape.lt_size_extend (c.2.pointer + i.arg)) (Int.not_lt.mpr hsize)

/-- The target of the turn is left of the first cell. -/
theorem turn_of_underflow (hkind : i.kind.hasTarget) (hneg : wrap (c.2.pointer + i.arg) < 0) :
    ∃ ending, turn code options c = .ended ending c.2 := by
  have htarget {distance : Int} {act : Nat → Loop → Outcome}
      (hneg : wrap (c.2.pointer + distance) < 0) :
      withTarget distance (enter c.1 c.2) act = .stop .underflow (enter c.1 c.2) := by
    unfold withTarget
    rw [if_pos (show isWord (enter c.1 c.2).pointer from h.pointer)]
    exact if_pos hneg
  have hstop : execute i (enter c.1 c.2) = .stop .underflow (enter c.1 c.2) := by
    obtain ⟨kind, arg⟩ := i
    cases kind with
    | shift =>
      simp only [execute, shift]
      exact htarget hneg
    | add =>
      simp only [execute, transfer]
      exact htarget hneg
    | sub =>
      simp only [execute, transfer]
      exact htarget hneg
    | _ => cases hkind
  have hround := advance_of_fetch? h hword hlimit hi
  rw [hstop] at hround
  exact ⟨_, Walk.joined_of_ended hround⟩

/-- A jump does nothing but count. -/
theorem turn_of_loop (hloop : i.kind.isLoop) :
    ∃ index, turn code options c = .resume index c.2.tick := by
  have hcurrent : (enter c.1 c.2).current? = some (enter c.1 c.2).pointer.toNat :=
    resolve?_of_nonneg h.inside.1 h.inside.2
  have hnext : ∃ index, execute i (enter c.1 c.2) = .next ((enter c.1 c.2).proceed index) := by
    obtain ⟨kind, arg⟩ := i
    cases kind with
    | beginLoop =>
      simp only [execute, branch, hcurrent]
      exact ⟨_, rfl⟩
    | endLoop =>
      simp only [execute, branch, hcurrent]
      exact ⟨_, rfl⟩
    | _ => cases hloop
  obtain ⟨index, hnext⟩ := hnext
  have hround := advance_of_fetch? h hword hlimit hi
  rw [hnext] at hround
  exact ⟨index, Walk.joined_of_resume hround rfl⟩

end

end Batch

end TapeLang
