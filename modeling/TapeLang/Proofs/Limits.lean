import TapeLang.Proofs.Failing
import TapeLang.Proofs.Lengths
import TapeLang.Proofs.Numbers

/-!
# Step limits

A machine with a step limit makes the same of every instruction as one without, until it has
completed as many as the limit allows. Then it accepts only the end of the program
(`Walk.Limits`), and stops where the other machine goes on or fails. So a limited run is a prefix of
the unlimited one (`limit_cuts_run`), and says so unless the limit or the index has too many digits
for that (`not_forall_limit_raises`). The batch engine gets its limit as a budget, which is computed
anew whenever the loop is entered and negative for no limit at all.
-/

set_option autoImplicit false

namespace TapeLang

open Batch (Resumption)

/-- Some text compiles to the program. Texts are shorter than two to the power of 63. -/
def Program.IsCompiled (program : Program) : Prop :=
  ∃ level text c, compile level text = .ok c ∧ (text.length : Int) < wordBound ∧
    c.program = program

/-- The end of a run after so many completed instructions comes before a step limit. -/
def Ending.Precedes (limit steps : Nat) : Ending → Prop
  | .completed => steps ≤ limit
  | .failed _ => steps < limit
  | .unfinished _ => False

/-- What is made of an instruction with a step limit and without. -/
structure Walk.Limits (k : Nat) (take take' : Int × State → Resumption) (p : Int × State → Prop) :
    Prop where
  below : ∀ {c}, p c → c.2.steps < k → take' c = take c
  completed : ∀ {c s}, p c → c.2.steps = k → take c = .ended .completed s →
    take' c = .ended .completed s
  stopped : ∀ {c}, p c → c.2.steps = k → (∀ s, take c ≠ .ended .completed s) →
    take' c = .ended (.failed (.stepLimit k ⟨c.2.pointer, c.1⟩)) c.2

/-! ## Walks -/

namespace Walk.Limits

variable {k n : Nat} {take take' : Int × State → Resumption} {p q : Int × State → Prop}
  {c d : Int × State} {ending : Ending} {s : State}

theorem of_imp (h : Limits k take take' p) (hq : ∀ c, q c → p c) : Limits k take take' q where
  below hc := h.below (hq _ hc)
  completed hc := h.completed (hq _ hc)
  stopped hc := h.stopped (hq _ hc)

variable (h : Limits k take take' p) (hcounts : Counts take p) (hc : p c)
include h hcounts hc

theorem after (hd : after (next? take) n c = some d) (hn : c.2.steps + n ≤ k) :
    Walk.after (Walk.next? take') n c = some d := by
  refine after_congr hcounts hc (fun hp hlt hmove => ?_) hd (k := k) ?_
  · rw [h.below hp hlt, hmove]
  · rw [steps_of_after hcounts hc hd]
    exact hn

/-- An end before the limit is one of the limited walk. -/
theorem ends (hend : Ends take n c ending s) (hbefore : ending.Precedes k (c.2.steps + n)) :
    Ends take' n c ending s := by
  obtain ⟨d, hd, hstop⟩ := hend
  have hp : p d := keeps_of_moves (fun hp hmove => (hcounts hp hmove).1) hc hd
  have hcount := steps_of_after hcounts hc hd
  cases ending with
  | completed =>
    have hle : c.2.steps + n ≤ k := hbefore
    refine ⟨d, h.after hcounts hc hd hle, ?_⟩
    rcases Nat.lt_or_eq_of_le hle with hlt | heq
    · rw [h.below hp (by omega), hstop]
    · exact h.completed hp (by omega) hstop
  | failed error =>
    have hlt : c.2.steps + n < k := hbefore
    exact ⟨d, h.after hcounts hc hd (Nat.le_of_lt hlt), by rw [h.below hp (by omega), hstop]⟩
  | unfinished index => exact hbefore.elim

/-- Where the limit is reached and the walk is not at its end, the limited walk stops. -/
theorem stops (hd : Walk.after (Walk.next? take) n c = some d) (hn : c.2.steps + n = k)
    (hopen : ∀ s, take d ≠ .ended .completed s) :
    Ends take' n c (.failed (.stepLimit k ⟨d.2.pointer, d.1⟩)) d.2 := by
  have hp : p d := keeps_of_moves (fun hp hmove => (hcounts hp hmove).1) hc hd
  have hcount := steps_of_after hcounts hc hd
  exact ⟨d, h.after hcounts hc hd (Nat.le_of_eq hn), h.stopped hp (by omega) hopen⟩

end Walk.Limits

/-! ## The stepwise engine -/

namespace Stepwise

variable {program : Array Instruction} {options : Options} {c : Int × State} {s : State}

theorem take_of_size_le (h : program.size ≤ c.1) :
    take program options c = .ended .completed c.2 := by
  unfold take step
  rw [if_pos h]
  rfl

theorem size_le_of_take (hc : c.2.Inside) (h : take program options c = .ended .completed s) :
    program.size ≤ c.1 ∧ s = c.2 := by
  have hmoves := moves_take program options hc
  rw [h] at hmoves
  cases hmoves with
  | completed hsize => exact ⟨hsize, rfl⟩

theorem take_of_limit {limit : Int} (hlt : c.1 < program.size)
    (hlimit : limitReached? options c.2 = some limit) :
    take program options c = .ended (.failed (.stepLimit limit ⟨c.2.pointer, c.1⟩)) c.2 := by
  unfold take
  rw [step_eq_of_fetch?, if_neg (Int.not_le.mpr hlt), hlimit]
  rfl

/-- The limit matters only where it is reached. -/
theorem take_of_open {options' : Options} (hlimit : limitReached? options c.2 = none)
    (hlimit' : limitReached? options' c.2 = none)
    (hchecked : options'.allowOverflows = options.allowOverflows) :
    take program options' c = take program options c := by
  simp only [take, step_eq_of_fetch?, hlimit, hlimit', hchecked]

theorem limits_take (program : Array Instruction) (hfree : options.maxSteps = none) (k : Nat) :
    Walk.Limits k (take program options) (take program { options with maxSteps := some (k : Int) })
      fun c => c.2.Inside where
  below := by
    intro c hc hlt
    exact take_of_open (by rw [limitReached?, hfree]) (if_neg (by omega)) rfl
  completed := by
    intro c s hc hk hend
    obtain ⟨hsize, rfl⟩ := size_le_of_take hc hend
    exact take_of_size_le hsize
  stopped := by
    intro c hc hk hopen
    have hlt : c.1 < program.size := by
      by_contra hsize
      exact hopen c.2 (take_of_size_le (Int.not_lt.mp hsize))
    exact take_of_limit hlt (if_pos (by omega))

end Stepwise

/-! ## The batch engine -/

namespace Batch

variable {code : Array Instruction} {options : Options} {c : Int × State} {s : State} {k : Nat}

/-- The options of a machine matter to it only where it has reached its limit. -/
theorem act_congr {options' : Options} {reason : Stop} (h : reason ≠ .limit) (index arg : Int) :
    act options' reason index arg s = act options reason index arg s := by
  cases reason with
  | limit => exact absurd rfl h
  | _ => rfl

theorem isWord_budget_of_free (hfree : options.maxSteps = none) : isWord (budget options s) := by
  rw [budget, hfree]
  rfl

section
variable (hk : k < wordBound)
include hk

theorem isWord_budget_of_le (hle : s.steps ≤ k) :
    isWord (budget { options with maxSteps := some (k : Int) } s) := by
  rw [isWord_iff]
  unfold budget
  unfold wordBound at *
  simp only
  omega

theorem advance_of_lt (hfree : options.maxSteps = none) (h : Held options c)
    (hlt : c.2.steps < k) :
    advance code { options with maxSteps := some (k : Int) } c = advance code options c := by
  have hentry := entry_of_held h (isWord_budget_of_free hfree)
  have hentry' : isWord c.2.pointer &&
      isWord (budget { options with maxSteps := some (k : Int) } c.2) := by
    rw [Bool.and_eq_true]
    exact ⟨h.pointer, isWord_budget_of_le hk (Nat.le_of_lt hlt)⟩
  have hopen : ¬ (0 ≤ budget options c.2 ∧ budget options c.2 ≤ (enter c.1 c.2).steps) := by
    simp [budget, hfree]
  have hopen' : ¬ (0 ≤ budget { options with maxSteps := some (k : Int) } c.2 ∧
      budget { options with maxSteps := some (k : Int) } c.2 ≤ (enter c.1 c.2).steps) := by
    simp only [budget, enter]
    omega
  have hround : step code (budget { options with maxSteps := some (k : Int) } c.2) (enter c.1 c.2)
      = step code (budget options c.2) (enter c.1 c.2) := by
    unfold step
    rw [if_neg hopen, if_neg hopen']
  unfold advance
  rw [if_pos hentry, if_pos hentry', hround]
  cases hstep : step code (budget options c.2) (enter c.1 c.2) with
  | next l => rfl
  | stop reason l =>
    apply act_congr
    rintro rfl
    exact step_ne_limit hopen hstep

theorem limits_turn (hcode : ∀ i ∈ code, isWord i.arg) (hfree : options.maxSteps = none) :
    Walk.Limits k (turn code options) (turn code { options with maxSteps := some (k : Int) })
      (Held options) := by
  have hheld {c : Int × State} (hc : Held options c) (hle : c.2.steps ≤ k) :
      Held { options with maxSteps := some (k : Int) } c := by
    refine ⟨hc.inside, hc.pointer, fun limit hlimit => ?_⟩
    cases hlimit
    exact Int.ofNat_le.mpr hle
  refine ⟨?below, ?completed, ?stopped⟩
  case below =>
    intro c hc hlt
    apply Walk.joined_congr
    · exact advance_of_lt hk hfree hc hlt
    · intro index s hmove hsteps
      exact advance_of_lt hk hfree (held_advance hcode hc hmove) (hsteps ▸ hlt)
  case completed =>
    intro c s hc hsteps hend
    have hturns := turns_turn hcode hc
    rw [hend] at hturns
    cases hturns with
    | completed hsize =>
      have hle := Nat.le_of_eq hsteps
      exact Walk.joined_of_ended
        (advance_of_size_le (entry_of_held (hheld hc hle) (isWord_budget_of_le hk hle)) hsize)
  case stopped =>
    intro c hc hsteps hopen
    have hle := Nat.le_of_eq hsteps
    have hlt : c.1 < code.size := by
      by_contra hsize
      exact hopen c.2 (Walk.joined_of_ended
        (advance_of_size_le (entry_of_held hc (isWord_budget_of_free hfree)) (Int.not_lt.mp hsize)))
    exact Walk.joined_of_ended (advance_of_limit (hheld hc hle) (isWord_budget_of_le hk hle) hlt
      (if_pos (by omega)))

end

end Batch

/-! ## Machines -/

namespace Machine

variable {m m' : Machine} {c : Int × State} {ending : Ending} {s : State} {k : Nat}

theorem ended_cases (h : m.Fits c) (hend : m.take c = .ended ending s) :
    (ending = .completed ∧ s = c.2) ∨ ∃ error, ending = .failed error := by
  cases m.mode with
  | stepwise _ htake =>
    have hmoves := Stepwise.moves_take m.program m.options h.inside
    rw [← htake, hend] at hmoves
    cases hmoves with
    | completed => exact .inl ⟨rfl, rfl⟩
    | _ => exact .inr ⟨_, rfl⟩
  | batch hengine hwords htake =>
    have hturns := Batch.turns_turn hwords (h.held hengine)
    rw [← htake, hend] at hturns
    cases hturns with
    | completed => exact .inl ⟨rfl, rfl⟩
    | _ => exact .inr ⟨_, rfl⟩
  | refused _ _ htake =>
    rw [htake] at hend
    cases hend
    exact .inr ⟨_, rfl⟩

/-- The end of a run changes nothing about the counter. -/
theorem steps_of_ended (h : m.Fits c) (hend : m.take c = .ended ending s) :
    s.steps = c.2.steps := by
  rcases ended_cases h hend with ⟨-, rfl⟩ | ⟨error, rfl⟩
  · rfl
  · exact (clean_of_take h hend).steps

section
variable {program : Program} {options : Options} {input : Input} {output : Output}
  {memory : Memory} {n : Nat}

/-- The counter says where in its walk a run has ended. -/
theorem steps_of_end (hm : Machine.new program options input output memory = .ok m)
    (h : m.after n = some c) (hend : m.take c = .ended ending s) : s.steps = n := by
  rw [steps_of_ended (fits_of_after hm h) hend]
  exact steps_of_after hm h

/-- On either engine, a limit does what limits do. -/
theorem limits_of_new
    (hm : Machine.new program { options with maxSteps := none } input output memory = .ok m)
    (hm' : Machine.new program { options with maxSteps := some (k : Int) } input output memory
      = .ok m')
    (hbatch : options.engine = .batch → k < wordBound ∧ program.IsCompiled) :
    Walk.Limits k m.take m'.take m.Fits := by
  cases hengine : options.engine with
  | stepwise =>
    rw [take_of_new hm hengine, take_of_new hm' hengine]
    exact (Stepwise.limits_take program.toArray rfl k).of_imp fun c hc => hc.inside
  | batch =>
    obtain ⟨hk, level, text, c, hc, htext, rfl⟩ := hbatch hengine
    have hwords : ∀ i ∈ c.program, isWord i.arg := fun i hi => isWord_arg_of_compile hc htext hi
    have hcode : ∀ i ∈ c.program.toArray, isWord i.arg := fun i hi =>
      hwords i (List.mem_toArray.1 hi)
    rw [take_of_new_words hm hengine hwords, take_of_new_words hm' hengine hwords]
    refine (Batch.limits_turn hk hcode rfl).of_imp fun c hc => ?_
    obtain ⟨-, hoptions, -⟩ := new_eq_ok hm
    rw [← hoptions]
    exact hc.held (by rw [hoptions]; exact hengine)

end

end Machine

/-- **A step limit takes a prefix of the unlimited run**, on either engine: the limited run ends as
the unlimited one does if that end comes before the limit. If not, it stops in the state that the
unlimited run has after as many instructions as the limit allows, at the instruction that would come
next, and raises the error that says so if both numbers can be written. -/
theorem limit_cuts_run {program : Program} {options : Options} {input : Input} {output : Output}
    {memory : Memory} {m m' : Machine} {k : Nat}
    (hm : Machine.new program { options with maxSteps := none } input output memory = .ok m)
    (hm' : Machine.new program { options with maxSteps := some (k : Int) } input output memory
      = .ok m')
    (hbatch : options.engine = .batch → k < wordBound ∧ program.IsCompiled) :
    (∀ ending s events, m.Ends ⟨ending, s, events⟩ → ending.Precedes k s.steps →
      ∃ events', m'.Ends ⟨ending, s, events'⟩) ∧
    ((¬ ∃ ending s events, m.Ends ⟨ending, s, events⟩ ∧ ending.Precedes k s.steps) →
      ∃ index s events', m.after k = some (index, s) ∧ s.steps = k ∧
        m'.Ends ⟨.failed (.stepLimit k ⟨s.pointer, index⟩), s, events'⟩ ∧
        m'.Raises (if Integer.isWritable k ∧ Integer.isWritable index
          then .error (.stepLimit k ⟨s.pointer, index⟩) else .notWritten) s) := by
  have hlimits := Machine.limits_of_new hm hm' hbatch
  have hfits := Machine.fits_of_new hm
  have hstate : m'.state = m.state := Machine.state_eq_of_new hm hm' rfl
  obtain ⟨-, -, -, hsteps, -⟩ := Machine.new_eq_ok hm
  have hends {n : Nat} {ending : Ending} {s : State}
      (h : Walk.Ends m'.take n (0, m.state) ending s) : ∃ events, m'.Ends ⟨ending, s, events⟩ := by
    rw [← hstate] at h
    exact (Machine.ends_iff_after hm').2 ⟨n, h⟩
  constructor
  · intro ending s events h hbefore
    obtain ⟨n, d, hd, hend⟩ := (Machine.ends_iff_after hm).1 ⟨events, h⟩
    rw [Machine.steps_of_end hm hd hend] at hbefore
    refine hends (hlimits.ends Machine.counts_take hfits ⟨d, hd, hend⟩ ?_)
    simpa [hsteps] using hbefore
  · intro hlate
    replace hlate {n : Nat} {ending : Ending} {s : State} {d : Int × State}
        (hd : m.after n = some d) (hend : m.take d = .ended ending s) :
        ¬ ending.Precedes k n := by
      intro hbefore
      obtain ⟨events, h⟩ := (Machine.ends_iff_after hm).2 ⟨n, d, hd, hend⟩
      rw [← Machine.steps_of_end hm hd hend] at hbefore
      exact hlate ⟨ending, s, events, h, hbefore⟩
    rcases Walk.ends_or_after m.take k (0, m.state) with
      ⟨n, ending, s, hn, d, hd, hend⟩ | ⟨⟨index, s⟩, hd⟩
    · -- an end with fewer completed instructions precedes the limit, whichever end it is
      rcases Machine.ended_cases (Machine.fits_of_after hm hd) hend with ⟨rfl, -⟩ | ⟨error, rfl⟩
      · exact absurd (Nat.le_of_lt hn) (hlate hd hend)
      · exact absurd hn (hlate hd hend)
    · have hopen (t : State) : m.take (index, s) ≠ .ended .completed t := fun hend =>
        hlate hd hend (Nat.le_refl k)
      obtain ⟨events', h⟩ := hends
        (hlimits.stops Machine.counts_take hfits hd (by simp [hsteps]) hopen)
      refine ⟨index, s, events', hd, Machine.steps_of_after hm hd, h, _, events', h, ?_⟩
      simp [RunError.raised, RunError.numbers]

/-- A limit that falls on a move for which the tape would have to grow, in a loop without an end, on
either engine. -/
theorem limit_cuts_run_growth :
    ∃ program, Program.IsCompiled program ∧ ∀ engine : Engine, ∃ m m' index s,
      Machine.new program { maxSteps := none, chunkSize := 2, engineName := engine.name } {} {}
        = .ok m ∧
      Machine.new program { maxSteps := some 5, chunkSize := 2, engineName := engine.name } {} {}
        = .ok m' ∧
      m.after 5 = some (index, s) ∧ s.steps = 5 ∧
      m'.Raises (.error (.stepLimit 5 ⟨s.pointer, index⟩)) s := by
  have hc : compile 1 ['+', '[', '>', '+', ']'] = .ok ⟨[⟨.modify, 1⟩, ⟨.beginLoop, 3⟩, ⟨.shift, 1⟩,
    ⟨.modify, 1⟩, ⟨.endLoop, 3⟩], ⟨1, 0⟩⟩ := rfl
  have hcompiled : Program.IsCompiled [⟨.modify, 1⟩, ⟨.beginLoop, 3⟩, ⟨.shift, 1⟩, ⟨.modify, 1⟩,
    ⟨.endLoop, 3⟩] := ⟨1, _, _, hc, by decide, rfl⟩
  refine ⟨_, hcompiled, fun engine => ?_⟩
  have hnew : ∃ m m' t events, Machine.new [⟨.modify, 1⟩, ⟨.beginLoop, 3⟩, ⟨.shift, 1⟩,
        ⟨.modify, 1⟩, ⟨.endLoop, 3⟩]
      { maxSteps := none, chunkSize := 2, engineName := engine.name } {} {} = .ok m ∧
    Machine.new [⟨.modify, 1⟩, ⟨.beginLoop, 3⟩, ⟨.shift, 1⟩, ⟨.modify, 1⟩, ⟨.endLoop, 3⟩]
      { maxSteps := some 5, chunkSize := 2, engineName := engine.name } {} {} = .ok m' ∧
    m'.runFor 7 = ⟨.failed (.stepLimit 5 ⟨1, 2⟩), t, events⟩ ∧ t.steps = 5 := by
    cases engine <;> exact ⟨_, _, _, _, rfl, rfl, rfl, rfl⟩
  obtain ⟨m, m', t, events, hm, hm', hrun, ht⟩ := hnew
  have hends : m'.Ends ⟨.failed (.stepLimit 5 ⟨1, 2⟩), t, events⟩ :=
    ⟨7, hrun, Ending.isFinal_failed _⟩
  obtain ⟨hbefore, hlate⟩ := @limit_cuts_run _
    { chunkSize := 2, engineName := engine.name } _ _ _ m m' 5 hm hm'
    fun _ => ⟨by decide, hcompiled⟩
  obtain ⟨index, s, events', hafter, hsteps, hends', hraises⟩ := hlate (by
    rintro ⟨ending, s, events', h, hprecedes⟩
    obtain ⟨events'', h'⟩ := hbefore ending s events' h hprecedes
    obtain ⟨rfl, rfl⟩ := Machine.ends_unique hm' h' hends
    exact absurd hprecedes (by rw [ht]; exact Nat.lt_irrefl 5))
  obtain ⟨hending, -⟩ := Machine.ends_unique hm' hends' hends
  simp only [Ending.failed.injEq, RunError.stepLimit.injEq, Place.mk.injEq] at hending
  obtain ⟨-, -, rfl⟩ := hending
  rw [if_pos ⟨by decide +kernel, by decide +kernel⟩] at hraises
  exact ⟨m, m', 2, s, hm, hm', hafter, hsteps, hraises⟩

/-- Not every limited run says that it has been stopped by its limit: a jump can lead so far that
the index has too many digits for the message. -/
theorem not_forall_limit_raises :
    ¬ ∀ (program : Program) (k : Nat) (m m' : Machine),
      Machine.new program { maxSteps := none, chunkSize := 2 } {} {} = .ok m →
      Machine.new program { maxSteps := some (k : Int), chunkSize := 2 } {} {} = .ok m' →
      (¬ ∃ ending s events, m.Ends ⟨ending, s, events⟩ ∧ ending.Precedes k s.steps) →
      ∃ index s, m.after k = some (index, s) ∧
        m'.Raises (.error (.stepLimit k ⟨s.pointer, index⟩)) s := by
  intro h
  have hm : ∃ m, Machine.new [⟨.beginLoop, -(Integer.tooLong + 1)⟩]
    { maxSteps := none, chunkSize := 2 } {} {} = .ok m := ⟨_, rfl⟩
  have hm' : ∃ m', Machine.new [⟨.beginLoop, -(Integer.tooLong + 1)⟩]
    { maxSteps := some (1 : Nat), chunkSize := 2 } {} {} = .ok m' := ⟨_, rfl⟩
  obtain ⟨m, hm⟩ := hm
  obtain ⟨m', hm'⟩ := hm'
  obtain ⟨-, -, hinside, -, hview⟩ := Machine.new_eq_ok hm
  have hafter : m.after 1 = some (-Integer.tooLong, m.state.tick) := by
    have hjump : Stepwise.execute false ⟨.beginLoop, -(Integer.tooLong + 1)⟩ (0 : Nat) m.state
        = .next (-Integer.tooLong) m.state.tick := by
      rw [Stepwise.execute_beginLoop hinside, hview]
      simp [View.cell]
    have hmove : m.take (0, m.state) = .resume (-Integer.tooLong) m.state.tick := by
      rw [Machine.take_of_new hm rfl, Stepwise.take_eq_resume_iff, ← hjump]
      exact Stepwise.step_eq_execute rfl (by rfl)
    exact Walk.after_of_resume hmove
  have hlate : ¬ ∃ ending s events, m.Ends ⟨ending, s, events⟩ ∧ ending.Precedes 1 s.steps := by
    rintro ⟨ending, s, events, hends, hprecedes⟩
    obtain ⟨n, d, hd, hend⟩ := (Machine.ends_iff_after hm).1 ⟨events, hends⟩
    have hle : 1 ≤ n := Walk.Ends.le_of_after ⟨d, hd, hend⟩ hafter
    have hsteps := Machine.steps_of_end hm hd hend
    have hfits := Machine.fits_of_after hm hd
    rcases Machine.ended_cases hfits hend with ⟨rfl, -⟩ | ⟨error, rfl⟩
    · replace hprecedes : s.steps ≤ 1 := hprecedes
      obtain rfl : n = 1 := by omega
      obtain rfl := Option.some_inj.1 (hafter.symm.trans hd)
      rw [Machine.take_of_new hm rfl] at hend
      have hsize := (Stepwise.size_le_of_take hfits.inside hend).1
      have hnonneg : 0 ≤ Integer.tooLong := Int.pow_nonneg (by decide)
      simp only [List.size_toArray, List.length_singleton] at hsize
      omega
    · replace hprecedes : s.steps < 1 := hprecedes
      omega
  obtain ⟨index, s, hafter', error, events, -, hraised⟩ := h _ 1 m m' hm hm' hlate
  obtain ⟨rfl, hnumbers⟩ := RunError.raised_eq_error_iff.1 hraised
  rw [hafter, Option.some.injEq, Prod.mk.injEq] at hafter'
  have hwritable := hnumbers index (by simp [RunError.numbers])
  rw [← hafter'.1, Integer.isWritable_neg, Integer.isWritable_tooLong] at hwritable
  cases hwritable

end TapeLang
