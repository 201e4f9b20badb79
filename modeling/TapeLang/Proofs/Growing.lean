import Mathlib.Logic.Relation
import TapeLang.Proofs.Histories
import TapeLang.Proofs.Recalling
import TapeLang.Proofs.Touching

/-!
# The length of the tape

The tape grows in several places and in steps of several sizes, but its length tells only how far it
has been addressed: it is the shortest one in whole chunks with a cell for the highest target so far
(`Tape.size_extend_eq`), without those that there was no room for. An instruction touches the
current cell and its target, on either engine (`Machine.touches_take`). With a record of what the
instructions address (`Trail`), that holds wherever a machine comes by in any number of runs
(`canonical_of_follows`).
-/

set_option autoImplicit false

namespace TapeLang

open Batch (Resumption)

/-! ## Moves -/

theorem Instruction.target?_of_isLoop {i : Instruction} (h : i.kind.isLoop) (s : State) :
    i.target? s = none := by
  obtain ⟨kind, arg⟩ := i
  cases kind with
  | beginLoop => rfl
  | endLoop => rfl
  | _ => cases h

namespace Batch

variable {code : Array Instruction} {options : Options} {c : Int × State} {i : Instruction}

/-- A sum of words that is no word wraps to a place left of the first cell. -/
theorem wrap_add_neg {p n : Int} (hp : isWord p) (h₀ : 0 ≤ p) (hn : isWord n)
    (hsum : ¬ isWord (p + n)) : wrap (p + n) < 0 := by
  by_contra hnonneg
  have hwrap := wrap_add_of_nonneg hp h₀ hn (Int.not_lt.mp hnonneg)
  rw [← hwrap] at hsum
  exact hsum (isWord_wrap _)

theorem touches_turn (hcode : ∀ i ∈ code, isWord i.arg) (h : Held options c)
    (hword : isWord (budget options c.2)) (hlimit : Stepwise.limitReached? options c.2 = none)
    (hi : fetch? code c.1 = some i) :
    c.2.tape.Touches c.2.pointer (((i.target? c.2).map wrap).filter c.2.admits)
      (turn code options c).state.tape := by
  by_cases hloop : i.kind.isLoop
  · obtain ⟨index, hnext⟩ := turn_of_loop h hword hlimit hi hloop
    rw [hnext, Instruction.target?_of_isLoop hloop]
    exact .refl _ _
  by_cases htarget : i.kind.hasTarget → isWord (c.2.pointer + i.arg)
  · have hwrap : (i.target? c.2).map wrap = i.target? c.2 := by
      unfold Instruction.target?
      split
      · rename_i hkind
        exact congrArg some (wrap_of_isWord (htarget hkind))
      · rfl
    rw [turn_eq_execute h hword hlimit hi htarget hloop, hwrap]
    exact Stepwise.touches_execute h.inside false i c.1
  · obtain ⟨hkind, hsum⟩ := Classical.not_imp.1 htarget
    have harg := hcode i (lt_size_of_fetch? hi).2
    have hneg := wrap_add_neg h.pointer h.inside.1 harg hsum
    have hroom := c.2.tape.refusal?_of_lt (wrap (c.2.pointer + i.arg)) c.2.memory (by omega)
    obtain ⟨ending, hend⟩ := turn_of_underflow h hword hlimit hi hkind hneg
    rw [hend, Instruction.target?, if_pos hkind, Option.map_some,
      Option.filter_some_pos (by rw [State.admits, hroom]; rfl)]
    exact .of_neg hneg _ _

end Batch

namespace Machine

instance (m : Machine) : Decidable m.Enters :=
  inferInstanceAs (Decidable (_ = _ → (∀ _ ∈ _, _) ∧ _ ∧ _))

/-- The instruction at an index, if the machine executes it: it can enter the engine in that state,
and no limit has been reached. -/
def executed? (m : Machine) (c : Int × State) : Option Instruction :=
  if Machine.Enters { m with state := c.2 } ∧ Stepwise.limitReached? m.options c.2 = none then
    Batch.fetch? m.program c.1
  else none

/-- The index that the machine computes for the target of an instruction. The batch engine computes
it on words. -/
def target? (m : Machine) (i : Instruction) (s : State) : Option Int :=
  match m.options.engine with
  | .stepwise => i.target? s
  | .batch => (i.target? s).map wrap

variable {m : Machine} {c : Int × State} {i : Instruction}

theorem executed?_eq_some_iff :
    m.executed? c = some i ↔ Machine.Enters { m with state := c.2 } ∧
      Stepwise.limitReached? m.options c.2 = none ∧ Batch.fetch? m.program c.1 = some i := by
  unfold executed?
  split
  · rename_i h
    simp [h]
  · rename_i h
    simp only [reduceCtorEq, false_iff]
    exact fun h' => h ⟨h'.1, h'.2.1⟩

/-- A move that executes nothing leaves the state. -/
theorem state_of_rest (h : m.Fits c) (hrest : m.executed? c = none) : (m.take c).state = c.2 := by
  have hnone {i : Instruction} (henters : Machine.Enters { m with state := c.2 })
      (hlimit : Stepwise.limitReached? m.options c.2 = none) :
      Batch.fetch? m.program c.1 ≠ some i := by
    intro hi
    rw [executed?_eq_some_iff.2 ⟨henters, hlimit, hi⟩] at hrest
    cases hrest
  cases m.mode with
  | stepwise hengine htake =>
    have henters : Machine.Enters { m with state := c.2 } := by
      intro hbatch
      rw [show m.options.engine = _ from hbatch] at hengine
      cases hengine
    have hmoves := Stepwise.moves_take m.program m.options h.inside
    rw [← htake] at hmoves
    generalize m.take c = x at hmoves
    cases hmoves with
    | fails hlimit hi => exact absurd hi (hnone henters hlimit)
    | next hlimit hi => exact absurd hi (hnone henters hlimit)
    | _ => rfl
  | batch hengine hwords htake =>
    have hheld := h.held hengine
    have hfetch (hword : isWord (Batch.budget m.options c.2))
        (hlimit : Stepwise.limitReached? m.options c.2 = none) :
        Batch.fetch? m.program c.1 = none :=
      Option.eq_none_iff_forall_ne_some.2 fun i =>
        hnone (fun _ => ⟨hwords, hheld.pointer, hword⟩) hlimit
    obtain ⟨ending, hend⟩ := Batch.turn_of_rest hheld hfetch
    rw [htake, hend]
    rfl
  | refused _ _ htake =>
    rw [htake]
    rfl

/-- **An instruction touches the current cell and its target**, on either engine, if there is room
for that. -/
theorem touches_take (h : m.Fits c) (hi : m.executed? c = some i) :
    c.2.tape.Touches c.2.pointer ((m.target? i c.2).filter c.2.admits)
      (m.take c).state.tape := by
  obtain ⟨henters, hlimit, hfetch⟩ := executed?_eq_some_iff.1 hi
  unfold target?
  cases m.mode with
  | stepwise hengine htake =>
    rw [htake, hengine, Stepwise.take, Batch.step_of_fetch? hfetch hlimit]
    exact Stepwise.touches_execute h.inside _ i c.1
  | refused hengine hargs => exact absurd (henters hengine).1 hargs
  | batch hengine hargs htake =>
    obtain ⟨-, -, hbudget⟩ := henters hengine
    rw [htake, hengine]
    exact Batch.touches_turn hargs (h.held hengine) hbudget hlimit hfetch

/-- What a machine keeps does not depend on the index. -/
theorem Fits.elsewhere {index : Int} {s : State} (h : m.Fits (index, s)) (index' : Int) :
    m.Fits (index', s) :=
  ⟨h.inside, fun hbatch =>
    have hheld := h.held hbatch
    ⟨hheld.inside, hheld.pointer, hheld.steps⟩⟩

/-- Whatever comes of a move, the next one or the next run can start there. -/
theorem Fits.take (h : m.Fits c) (index : Int) : m.Fits (index, (m.take c).state) := by
  cases htake : m.take c with
  | resume index' s => exact (counts_take h htake).1.elsewhere index
  | ended ending s =>
    rcases ended_cases h htake with ⟨-, rfl⟩ | ⟨error, rfl⟩
    · exact Fits.elsewhere h index
    · have hclean := clean_of_take h htake
      have hs : s.Inside := hclean.inside h.inside
      refine ⟨hs, fun hbatch => ⟨hs, ?_, fun limit hmax => ?_⟩⟩
      · show isWord s.pointer
        rw [hclean.pointer]
        exact (h.held hbatch).pointer
      · show (s.steps : Int) ≤ limit
        rw [hclean.steps]
        exact (h.held hbatch).steps limit hmax

end Machine

/-! ## What has been addressed -/

/-- The cells that instructions have addressed so far. -/
structure Trail where
  /-- The current cells, when the instructions were executed. -/
  current : List Int := []
  /-- Their targets, where there was room for the tape up to them. -/
  targets : List Int := []
  /-- The targets that there was no room for. -/
  refused : List Int := []

/-- The trail with one more instruction, which computes the index of a target or none. -/
def Trail.visit (s : State) (target? : Option Int) (trail : Trail) : Trail where
  current := s.pointer :: trail.current
  targets := (target?.filter s.admits).toList ++ trail.targets
  refused := (target?.filter fun target => !s.admits target).toList ++ trail.refused

/-- The capacity of the tape is canonical: it is told by the highest target alone, and what has not
been addressed is zero. -/
structure State.Canonical (s : State) (chunkSize : Int) (trail : Trail) : Prop where
  pointer_nonneg : 0 ≤ s.pointer
  pointer_lt : s.pointer < s.tape.size
  cells : ∀ cell ∈ s.tape.cells, cell.toNat ≤ 255
  size : (s.tape.size : Int) = chunkSize * (Tape.highest trail.targets / chunkSize + 1)
  blank : ∀ place : Nat, (place : Int) ∉ trail.current → (place : Int) ∉ trail.targets →
    s.tape.get place = 0

/-- Where a machine is, before the instruction at an index or between two runs, and what has been
addressed since it was new or reset. -/
structure Course where
  index? : Option Int
  state : State
  trail : Trail

namespace Machine

/-- The trail behind a move. -/
def visit (m : Machine) (c : Int × State) (trail : Trail) : Trail :=
  match m.executed? c with
  | some i => trail.visit c.2 (m.target? i c.2)
  | none => trail

/-- How a machine goes on: it starts a run, or makes a move of one. -/
inductive Goes (m : Machine) : Course → Course → Prop
  | start {s : State} {trail : Trail} : Goes m ⟨none, s, trail⟩ ⟨some 0, s, trail⟩
  | next {index index' : Int} {s s' : State} {trail : Trail} :
      m.take (index, s) = .resume index' s' →
      Goes m ⟨some index, s, trail⟩ ⟨some index', s', m.visit (index, s) trail⟩
  | stop {index : Int} {ending : Ending} {s s' : State} {trail : Trail} :
      m.take (index, s) = .ended ending s' →
      Goes m ⟨some index, s, trail⟩ ⟨none, s', m.visit (index, s) trail⟩

/-- Where a machine can be after any number of runs, the last of which need not have ended, and of
resets between them. -/
inductive Follows (m : Machine) : Course → Prop
  | new : Follows m ⟨none, m.state, {}⟩
  | goes {c d : Course} : Follows m c → m.Goes c d → Follows m d
  | reset {s : State} {trail : Trail} : Follows m ⟨none, s, trail⟩ →
      Follows m ⟨none, (Machine.reset { m with state := s }).state, {}⟩

/-- What a machine keeps through all its runs. -/
structure Keeps (m : Machine) (c : Course) : Prop where
  fits : ∀ index, m.Fits (index, c.state)
  chunkSize : (c.state.tape.chunkSize : Int) = m.options.chunkSize
  canonical : c.state.Canonical m.options.chunkSize c.trail

variable {m : Machine} {c d : Course}

theorem Keeps.move (h : m.Keeps c) (index : Int) (index? : Option Int) :
    m.Keeps ⟨index?, (m.take (index, c.state)).state, m.visit (index, c.state) c.trail⟩ := by
  have hfits := h.fits index
  have hinside := (hfits.take 0).inside
  unfold visit
  cases hi : m.executed? (index, c.state) with
  | none =>
    rw [state_of_rest hfits hi]
    exact ⟨h.fits, h.chunkSize, h.canonical⟩
  | some i =>
    have htouches := touches_take hfits hi
    refine ⟨hfits.take, by rw [htouches.chunkSize]; exact h.chunkSize,
      ⟨hinside.1, hinside.2, fun cell _ => Nat.le_of_lt_succ cell.toNat_lt, ?_, ?_⟩⟩
    · have hsize := h.canonical.size
      rw [← h.chunkSize] at hsize
      rw [htouches.size, ← h.chunkSize]
      simp only [Trail.visit]
      cases (m.target? i c.state).filter c.state.admits with
      | none => exact hsize
      | some target => exact Tape.size_extend_eq (Tape.highest_nonneg _) hsize
    · intro place hcurrent htargets
      simp only [Trail.visit, List.mem_cons, List.mem_append, Option.mem_toList, not_or]
        at hcurrent htargets
      rw [htouches.cells place hcurrent.1 htargets.1]
      exact h.canonical.blank place hcurrent.2 htargets.2

theorem Keeps.goes (h : m.Keeps c) (hgoes : m.Goes c d) : m.Keeps d := by
  cases hgoes with
  | start => exact ⟨h.fits, h.chunkSize, h.canonical⟩
  | @next index index' s s' trail htake =>
    have hmove := h.move index (some index')
    rwa [show (m.take (index, s)).state = s' by rw [htake]; rfl] at hmove
  | @stop index ending s s' trail htake =>
    have hmove := h.move index none
    rwa [show (m.take (index, s)).state = s' by rw [htake]; rfl] at hmove

/-- A machine that goes on has no shorter tape. -/
theorem Keeps.size_le (h : m.Keeps c) (hgoes : m.Goes c d) :
    c.state.tape.size ≤ d.state.tape.size := by
  have hmove (index : Int) : c.state.tape.size ≤ (m.take (index, c.state)).state.tape.size := by
    cases hi : m.executed? (index, c.state) with
    | none => exact Nat.le_of_eq (by rw [state_of_rest (h.fits index) hi])
    | some i => exact (touches_take (h.fits index) hi).size_le
  cases hgoes with
  | start => exact Nat.le_refl _
  | @next index index' s s' trail htake =>
    have hle := hmove index
    rwa [show (m.take (index, s)).state = s' by rw [htake]; rfl] at hle
  | @stop index ending s s' trail htake =>
    have hle := hmove index
    rwa [show (m.take (index, s)).state = s' by rw [htake]; rfl] at hle

section
variable {program : Program} {options : Options} {input : Input} {output : Output}
  {memory : Memory} (hm : Machine.new program options input output memory = .ok m)
include hm

/-- A blank tape of one chunk is canonical, as long as nothing has been addressed. -/
theorem keeps_of_blank {s : State} {n : Nat} {h : 0 < n} (htape : s.tape = .blank n h)
    (hn : (n : Int) = options.chunkSize) (hpointer : s.pointer = 0) (hsteps : s.steps = 0) :
    m.Keeps ⟨none, s, {}⟩ := by
  obtain ⟨-, rfl, -⟩ := new_eq_ok hm
  have hsize : s.tape.size = n := by rw [htape, Tape.size_blank]
  have hs : s.Inside := by
    unfold State.Inside
    omega
  refine ⟨fun index => ⟨hs, fun _ => ⟨hs, ?_, fun limit hmax => ?_⟩⟩, ?_, hs.1, hs.2,
    fun cell _ => Nat.le_of_lt_succ cell.toNat_lt, ?_, fun place _ _ => ?_⟩
  · show isWord s.pointer
    rw [hpointer]
    decide
  · show (s.steps : Int) ≤ limit
    rw [hsteps]
    exact Options.limit_nonneg (objection?_of_new hm) hmax
  · rw [htape]
    exact hn
  · rw [hsize, hn]
    simp [Tape.highest]
  · rw [htape, Tape.get_blank]

theorem Follows.keeps (h : m.Follows c) : m.Keeps c := by
  obtain ⟨hpos, hstate⟩ := state_of_new hm
  induction h with
  | new =>
    refine keeps_of_blank hm (n := options.chunkSize.toNat) (h := hpos) ?_ (by omega) ?_ ?_
    all_goals rw [hstate]
  | goes _ hgoes ih => exact ih.goes hgoes
  | reset h ih =>
    obtain ⟨-, rfl, -⟩ := new_eq_ok hm
    exact keeps_of_blank hm rfl ih.chunkSize rfl rfl

end

/-- The moves of a walk, one after the other. -/
theorem goes_of_after {n : Nat} {index index' : Int} {s s' : State} (trail : Trail)
    (h : Walk.after (Walk.next? m.take) n (index, s) = some (index', s')) :
    ∃ trail', Relation.ReflTransGen m.Goes ⟨some index, s, trail⟩ ⟨some index', s', trail'⟩ := by
  induction n generalizing index s trail with
  | zero =>
    cases h
    exact ⟨trail, .refl⟩
  | succ n ih =>
    obtain ⟨index₁, t, htake, h⟩ := Walk.exists_first_move h
    obtain ⟨trail', hrest⟩ := ih (m.visit (index, s) trail) h
    exact ⟨trail', .head (.next htake) hrest⟩

/-- The run of a machine is a way for it to go on. -/
theorem goes_of_ends {s : State} (hfits : m.Fits (0, s)) (trail : Trail) {rep : Report}
    (h : Machine.Ends { m with state := s } rep) :
    ∃ trail', Relation.ReflTransGen m.Goes ⟨none, s, trail⟩ ⟨none, rep.state, trail'⟩ := by
  have hfits' : Machine.Fits { m with state := s } (0, s) := ⟨hfits.inside, hfits.held⟩
  obtain ⟨n, ⟨index, t⟩, hd, hend⟩ := (ends_iff_walk hfits').1 ⟨rep.events, h⟩
  obtain ⟨trail', hway⟩ := goes_of_after (m := m) trail hd
  exact ⟨_, .head .start (.tail hway (.stop hend))⟩

end Machine

/-- **The capacity of the tape is canonical over whole histories**, on either engine. Wherever a
machine is, in the middle of any of its runs or behind one that has ended or failed, the length of
its tape is told by the highest target that there was room for since the machine was new or reset,
and cells that have not been addressed are zero. From there on the tape gets no shorter, and the
runs of the machine lead to such places only. -/
theorem canonical_of_follows {program : Program} {options : Options} {input : Input}
    {output : Output} {memory : Memory} {m : Machine} {c : Course}
    (hm : Machine.new program options input output memory = .ok m) (h : m.Follows c) :
    c.state.Canonical options.chunkSize c.trail ∧
      (∀ d, Relation.ReflTransGen m.Goes c d → c.state.tape.size ≤ d.state.tape.size) ∧
      ∀ rep, c.index? = none → Machine.Ends { m with state := c.state } rep →
        ∃ trail, Relation.ReflTransGen m.Goes c ⟨none, rep.state, trail⟩ ∧
          m.Follows ⟨none, rep.state, trail⟩ := by
  obtain ⟨-, rfl, -⟩ := Machine.new_eq_ok hm
  have hkeeps := h.keeps hm
  have hfollows {d : Course} (hway : Relation.ReflTransGen m.Goes c d) : m.Follows d := by
    induction hway with
    | refl => exact h
    | tail _ hgoes ih => exact ih.goes hgoes
  refine ⟨hkeeps.canonical, fun d hway => ?_, fun rep hrest hends => ?_⟩
  · induction hway with
    | refl => exact Nat.le_refl _
    | tail hway hgoes ih => exact ih.trans (((hfollows hway).keeps hm).size_le hgoes)
  · obtain ⟨index?, s, trail⟩ := c
    cases hrest
    obtain ⟨trail', hway⟩ := Machine.goes_of_ends (hkeeps.fits 0) trail hends
    exact ⟨trail', hway, hfollows hway⟩

/-- A target that there was no room for does not count: the tape is no longer for it. -/
theorem not_forall_refused_count :
    ¬ ∀ (program : Program) (options : Options) (memory : Memory) (m : Machine) (c : Course),
      Machine.new program options {} {} memory = .ok m → m.Follows c →
        (c.state.tape.size : Int) = options.chunkSize *
          (Tape.highest (c.trail.refused ++ c.trail.targets) / options.chunkSize + 1) := by
  intro h
  have hrun : ∃ m, Machine.new [⟨.shift, wordBound⟩] { chunkSize := 1 } {} {} ⟨some 1000⟩ = .ok m ∧
    m.take (0, m.state) = .ended (.failed (.noRoom ⟨.notAWord, 0x8000000000000000⟩)) m.state ∧
    m.visit (0, m.state) {} = ⟨[0], [], [wordBound]⟩ ∧ m.state.tape.size = 1 :=
    ⟨_, rfl, rfl, rfl, rfl⟩
  obtain ⟨m, hm, htake, hvisit, hsize⟩ := hrun
  have hlength := h _ _ _ m _ hm ((Machine.Follows.new.goes .start).goes (.stop htake))
  simp only [hvisit, hsize] at hlength
  exact absurd hlength (by decide)

/-- A checked difference fails, with the tape grown up to its target; then the machine runs
again. -/
theorem canonical_of_follows_sub :
    ∃ m rep rep' trail trail', Machine.new [⟨.modify, 1⟩, ⟨.sub, 5⟩]
        { allowOverflows := false, chunkSize := 2 } {} {} = .ok m ∧
      m.Ends rep ∧ rep.ending = .failed (.cellOverflow 5 (-1) ⟨0, 1⟩) ∧
      m.Follows ⟨none, rep.state, trail⟩ ∧ trail.targets = [5] ∧
      rep.state.Canonical 2 trail ∧ rep.state.tape.size = 6 ∧
      Machine.Ends { m with state := rep.state } rep' ∧ m.Follows ⟨none, rep'.state, trail'⟩ ∧
      rep'.state.Canonical 2 trail' ∧ rep.state.tape.size ≤ rep'.state.tape.size := by
  have hm : ∃ m rep rep' s s', Machine.new [⟨.modify, 1⟩, ⟨.sub, 5⟩]
      { allowOverflows := false, chunkSize := 2 } {} {} = .ok m ∧
    m.runFor 2 = rep ∧ rep.ending = .failed (.cellOverflow 5 (-1) ⟨0, 1⟩) ∧
    m.take (0, m.state) = .resume 1 s ∧ m.take (1, s) = .ended rep.ending s' ∧ s' = rep.state ∧
    (m.visit (1, s) (m.visit (0, m.state) {})).targets = [5] ∧ rep.state.tape.size = 6 ∧
    Machine.runFor 2 { m with state := rep.state } = rep' ∧
    rep'.ending = .failed (.cellOverflow 5 (-2) ⟨0, 1⟩) :=
    ⟨_, _, _, _, _, rfl, rfl, rfl, rfl, rfl, rfl, rfl, rfl, rfl, rfl⟩
  obtain ⟨m, rep, rep', s, s', hm, hrun, hending, hfirst, hsecond, rfl, htargets, hsize, hrun',
    hending'⟩ := hm
  have hends : m.Ends rep := ⟨2, hrun, by rw [hending]; exact Ending.isFinal_failed _⟩
  have hends' : Machine.Ends { m with state := rep.state } rep' :=
    ⟨2, hrun', by rw [hending']; exact Ending.isFinal_failed _⟩
  have hfollows := ((Machine.Follows.new.goes .start).goes (.next hfirst)).goes (.stop hsecond)
  obtain ⟨hcanonical, hgrows, hruns⟩ := canonical_of_follows hm hfollows
  obtain ⟨trail', hway, hfollows'⟩ := hruns rep' rfl hends'
  obtain ⟨hcanonical', -⟩ := canonical_of_follows hm hfollows'
  exact ⟨m, rep, rep', _, trail', hm, hends, hending, hfollows, htargets, hcanonical, hsize, hends',
    hfollows', hcanonical', hgrows _ hway⟩

end TapeLang
