import TapeLang.Proofs.Reaching

/-!
# Walks

An engine is told by what it makes of the instruction at an index: the run goes on, or it ends. A
walk takes one instruction after the other in that way (`Walk.next?`), for ever or up to its end
(`Walk.Ends`). It ends at most once. Moves that complete no instruction can be joined with the ones
behind them (`Walk.ends_joined_iff`).
-/

set_option autoImplicit false

namespace TapeLang

open Batch (Resumption)

/-- The state that an effect leaves, whether it succeeds or fails. -/
def State.leftBy : Except Failure State → State
  | .ok s => s
  | .error failure => failure.state

/-- The state that a move leaves. -/
def Batch.Resumption.state : Resumption → State
  | .resume _ s => s
  | .ended _ s => s

/-- Where a move leads on to, unless it ends the run. -/
def Batch.Resumption.next? : Resumption → Option (Int × State)
  | .resume index s => some (index, s)
  | .ended _ _ => none

namespace Walk

section
variable (take : Int × State → Resumption)

/-- Where the move from a configuration leads on to. -/
def next? (c : Int × State) : Option (Int × State) := (take c).next?

/-- The walk makes a number of moves, and ends with the next one. -/
def Ends (n : Nat) (c : Int × State) (ending : Ending) (s : State) : Prop :=
  ∃ d, after (next? take) n c = some d ∧ take d = .ended ending s

/-- Every move keeps a property, and completes one instruction. -/
def Counts (p : Int × State → Prop) : Prop :=
  ∀ {c : Int × State} {index : Int} {s : State}, p c → take c = .resume index s →
    p (index, s) ∧ s.steps = c.2.steps + 1

/-- A move, together with the next one if it completes nothing. -/
def joined (c : Int × State) : Resumption :=
  match take c with
  | .resume index s => if s.steps = c.2.steps then take (index, s) else .resume index s
  | .ended ending s => .ended ending s

end

variable {take : Int × State → Resumption} {c d : Int × State} {m n : Nat} {index : Int}
  {ending ending' : Ending} {s s' : State}

/-! ## Moves -/

theorem next?_eq_some_iff : next? take c = some d ↔ take c = .resume d.1 d.2 := by
  obtain ⟨index, s⟩ := d
  unfold next?
  cases take c <;> simp [Resumption.next?]

theorem after_of_resume (h : take c = .resume index s) :
    after (next? take) (n + 1) c = after (next? take) n (index, s) :=
  after_succ (next?_eq_some_iff.2 h)

theorem after_of_ended (h : take c = .ended ending s) : after (next? take) (n + 1) c = none :=
  after_succ_of_none (by rw [next?, h]; rfl)

/-- A walk that has made a move has made a first one. -/
theorem exists_first_move (h : after (next? take) (n + 1) c = some d) :
    ∃ index s, take c = .resume index s ∧ after (next? take) n (index, s) = some d := by
  obtain ⟨⟨index, s⟩, hnext, hrest⟩ := exists_first h
  exact ⟨index, s, next?_eq_some_iff.1 hnext, hrest⟩

theorem after_succ_of_resume (h : after (next? take) n c = some d)
    (hd : take d = .resume index s) : after (next? take) (n + 1) c = some (index, s) := by
  rw [after_succ_last h]
  exact next?_eq_some_iff.2 hd

/-- What every move keeps, a walk keeps. -/
theorem keeps_of_moves {p : Int × State → Prop}
    (hmove : ∀ {c index s}, p c → take c = .resume index s → p (index, s)) (hc : p c)
    (h : after (next? take) n c = some d) : p d :=
  keeps (fun hc hnext => hmove hc (next?_eq_some_iff.1 hnext)) hc h

section
variable {p : Int × State → Prop} (hcounts : Counts take p) (hc : p c)
include hcounts hc

/-- Where every move completes one instruction, a walk completes as many as it makes moves. -/
theorem steps_of_after (h : after (next? take) n c = some d) : d.2.steps = c.2.steps + n := by
  induction n generalizing c with
  | zero =>
    cases h
    rfl
  | succ n ih =>
    obtain ⟨index, s, htake, h⟩ := exists_first_move h
    obtain ⟨hp, hsteps⟩ := hcounts hc htake
    rw [ih hp h, hsteps]
    omega

/-- A walk goes where another one does, if it makes the same moves up to a number of completed
instructions. -/
theorem after_congr {take' : Int × State → Resumption} {k : Nat}
    (hsame : ∀ {c index s}, p c → c.2.steps < k → take c = .resume index s →
      take' c = .resume index s)
    (h : after (next? take) n c = some d) (hd : d.2.steps ≤ k) :
    after (next? take') n c = some d := by
  induction n generalizing c with
  | zero => exact h
  | succ n ih =>
    obtain ⟨index, s, htake, h⟩ := exists_first_move h
    obtain ⟨hp, hsteps⟩ := hcounts hc htake
    have hcount := steps_of_after hcounts hp h
    simp only at hcount
    rw [after_of_resume (hsame hc (by omega) htake)]
    exact ih hp h

end

/-! ## Ends -/

theorem Ends.of_after (h : after (next? take) m c = some d) (hd : Ends take n d ending s) :
    Ends take (m + n) c ending s := by
  obtain ⟨e, he, hend⟩ := hd
  exact ⟨e, by rw [after_trans h, he], hend⟩

/-- A walk that ends does not go on. -/
theorem Ends.le_of_after (h : Ends take n c ending s) (hd : after (next? take) m c = some d) :
    m ≤ n := by
  by_contra hlt
  obtain ⟨e, he, hend⟩ := h
  obtain ⟨k, rfl⟩ : ∃ k, m = n + (k + 1) := ⟨m - n - 1, by omega⟩
  rw [after_trans he, after_of_ended hend] at hd
  cases hd

/-- A walk ends where it does from everywhere that it comes by. -/
theorem Ends.of_trans (h : Ends take n c ending s) (hd : after (next? take) m c = some d) :
    ∃ k, Ends take k d ending s := by
  have hle := h.le_of_after hd
  obtain ⟨k, rfl⟩ : ∃ k, n = m + k := ⟨n - m, by omega⟩
  obtain ⟨e, he, hend⟩ := h
  exact ⟨k, e, by rw [← after_trans hd, he], hend⟩

/-- A walk ends once. -/
theorem Ends.unique (h : Ends take n c ending s) (h' : Ends take m c ending' s') :
    n = m ∧ ending = ending' ∧ s = s' := by
  obtain ⟨d, hd, hend⟩ := id h
  obtain ⟨d', hd', hend'⟩ := id h'
  obtain rfl : n = m := Nat.le_antisymm (h'.le_of_after hd) (h.le_of_after hd')
  obtain rfl : d = d' := Option.some_inj.1 (hd.symm.trans hd')
  rw [hend] at hend'
  cases hend'
  exact ⟨rfl, rfl, rfl⟩

variable (take) in
theorem ends_or_after (n : Nat) (c : Int × State) :
    (∃ k ending s, k < n ∧ Ends take k c ending s) ∨ ∃ d, after (next? take) n c = some d := by
  induction n generalizing c with
  | zero => exact .inr ⟨c, rfl⟩
  | succ n ih =>
    cases hc : take c with
    | ended ending s => exact .inl ⟨0, ending, s, by omega, c, rfl, hc⟩
    | resume index s =>
      have hone : after (next? take) 1 c = some (index, s) := after_of_resume hc
      rcases ih (index, s) with ⟨k, ending, t, hk, hend⟩ | ⟨d, hd⟩
      · exact .inl ⟨1 + k, ending, t, by omega, .of_after hone hend⟩
      · exact .inr ⟨d, by rw [after_of_resume hc, hd]⟩

/-! ## Joined moves -/

variable (take) in
theorem joined_cases (c : Int × State) :
    joined take c = take c ∨
      ∃ index s, take c = .resume index s ∧ joined take c = take (index, s) := by
  unfold joined
  cases take c with
  | ended ending s => exact .inl rfl
  | resume index s =>
    by_cases hsteps : s.steps = c.2.steps
    · exact .inr ⟨index, s, rfl, if_pos hsteps⟩
    · exact .inl (if_neg hsteps)

theorem joined_congr {take' : Int × State → Resumption} (hc : take' c = take c)
    (hnext : ∀ {index s}, take c = .resume index s → s.steps = c.2.steps →
      take' (index, s) = take (index, s)) : joined take' c = joined take c := by
  unfold joined
  rw [hc]
  cases hmove : take c with
  | ended ending s => rfl
  | resume index s =>
    by_cases hsteps : s.steps = c.2.steps
    · simp only [if_pos hsteps]
      exact hnext hmove hsteps
    · simp only [if_neg hsteps]

theorem joined_of_ended (h : take c = .ended ending s) : joined take c = .ended ending s := by
  unfold joined
  rw [h]

theorem joined_of_resume (h : take c = .resume index s) (hsteps : s.steps = c.2.steps + 1) :
    joined take c = .resume index s := by
  unfold joined
  simp only [h]
  exact if_neg (by omega)

theorem exists_after_of_joined (h : after (next? (joined take)) n c = some d) :
    ∃ k, n ≤ k ∧ after (next? take) k c = some d := by
  induction n generalizing c with
  | zero => exact ⟨0, Nat.le_refl 0, h⟩
  | succ n ih =>
    obtain ⟨index, s, hc, h⟩ := exists_first_move h
    obtain ⟨k, hk, hd⟩ := ih h
    rcases joined_cases take c with hsame | ⟨index', s', hmove, hsame⟩
    · rw [hsame] at hc
      exact ⟨k + 1, by omega, by rw [after_of_resume hc, hd]⟩
    · rw [hsame] at hc
      exact ⟨k + 2, by omega, by rw [after_of_resume hmove, after_of_resume hc, hd]⟩

theorem Ends.of_joined (h : Ends (joined take) n c ending s) : ∃ k, Ends take k c ending s := by
  obtain ⟨d, hd, hend⟩ := h
  obtain ⟨k, -, hk⟩ := exists_after_of_joined hd
  rcases joined_cases take d with hsame | ⟨index, t, hmove, hsame⟩
  · exact ⟨k, d, hk, by rw [← hsame, hend]⟩
  · exact ⟨k + 1, (index, t), after_succ_of_resume hk hmove, by rw [← hsame, hend]⟩

/-- **Joining moves changes nothing about the end.** A walk of joined moves that does not end is at
least as long. -/
theorem ends_joined_iff :
    (∃ n, Ends (joined take) n c ending s) ↔ ∃ n, Ends take n c ending s := by
  constructor
  · intro h
    obtain ⟨n, h⟩ := h
    exact h.of_joined
  · intro h
    obtain ⟨n, h⟩ := h
    rcases ends_or_after (joined take) (n + 1) c with ⟨k, ending', s', -, hend⟩ | ⟨d, hd⟩
    · obtain ⟨k', hend'⟩ := hend.of_joined
      obtain ⟨-, rfl, rfl⟩ := h.unique hend'
      exact ⟨k, hend⟩
    · obtain ⟨k, hk, hd⟩ := exists_after_of_joined hd
      have hle := h.le_of_after hd
      omega

/-! ## Two walks -/

section
variable {take' : Int × State → Resumption} {R : State → State → Prop} {t : State}

/-- A walk goes on with another one that does so move by move. -/
theorem after_simulates
    (hmove : ∀ {index s t index' s'}, R s t → take (index, s) = .resume index' s' →
      ∃ t', take' (index, t) = .resume index' t' ∧ R s' t')
    (h : R s t) (hafter : after (next? take) n (index, s) = some d) :
    ∃ t', after (next? take') n (index, t) = some (d.1, t') ∧ R d.2 t' := by
  induction n generalizing index s t with
  | zero =>
    cases hafter
    exact ⟨t, rfl, h⟩
  | succ n ih =>
    obtain ⟨index', s', htake, hafter⟩ := exists_first_move hafter
    obtain ⟨t', htake', ht⟩ := hmove h htake
    rw [after_of_resume htake']
    exact ih ht hafter

end

section
variable {take' : Int × State → Resumption}

/-- A walk ends, if another one does that goes on wherever it does. -/
theorem Ends.exists_of_after {c' : Int × State} (h : Ends take' n c' ending s)
    (hafter : ∀ {k d}, after (next? take) k c = some d → ∃ d', after (next? take') k c' = some d') :
    ∃ k ending s, Ends take k c ending s := by
  rcases ends_or_after take (n + 1) c with ⟨k, ending, s, -, hend⟩ | ⟨d, hd⟩
  · exact ⟨k, ending, s, hend⟩
  · obtain ⟨d', hd'⟩ := hafter hd
    have hle := h.le_of_after hd'
    omega

end

/-- Two moves lead to one index or to one ending, in states that are related. -/
inductive Relates (R : State → State → Prop) : Resumption → Resumption → Prop
  | resume {index : Int} {s t : State} : R s t → Relates R (.resume index s) (.resume index t)
  | ended {ending : Ending} {s t : State} : R s t → Relates R (.ended ending s) (.ended ending t)

/-- **Two walks whose moves are related end alike**, or they come by a place where one of them is
stuck. -/
theorem ends_relates {take' : Int × State → Resumption} {R : State → State → Prop} {t : State}
    {stuck stuck' : Int × State → Prop}
    (hmove : ∀ index s t, R s t → Relates R (take (index, s)) (take' (index, t)) ∨
      stuck (index, s) ∨ stuck' (index, t))
    (h : R s t) (hend : Ends take n (index, s) ending s') :
    (∃ t', Ends take' n (index, t) ending t' ∧ R s' t') ∨
      ∃ k d t', after (next? take) k (index, s) = some d ∧
        after (next? take') k (index, t) = some (d.1, t') ∧ R d.2 t' ∧
        (stuck d ∨ stuck' (d.1, t')) := by
  obtain ⟨e, hafter, hstop⟩ := hend
  induction n generalizing index s t with
  | zero =>
    cases hafter
    rcases hmove index s t h with hrelates | hstuck
    · rw [hstop] at hrelates
      generalize htake : take' (index, t) = x at hrelates
      cases hrelates with
      | ended hs => exact .inl ⟨_, ⟨_, rfl, htake⟩, hs⟩
    · exact .inr ⟨0, _, t, rfl, rfl, h, hstuck⟩
  | succ n ih =>
    obtain ⟨index₁, s₁, hfirst, hafter⟩ := exists_first_move hafter
    rcases hmove index s t h with hrelates | hstuck
    · rw [hfirst] at hrelates
      generalize hfirst' : take' (index, t) = x at hrelates
      cases hrelates with
      | @resume _ _ t₁ hs =>
        have hone : after (next? take') 1 (index, t) = some (index₁, t₁) :=
          after_of_resume hfirst'
        rcases ih hs hafter with ⟨t', hend, ht⟩ | ⟨k, d, t', hd, hd', hrest⟩
        · refine .inl ⟨t', ?_, ht⟩
          rw [Nat.add_comm]
          exact .of_after hone hend
        · exact .inr ⟨k + 1, d, t', by rw [after_of_resume hfirst, hd],
            by rw [after_of_resume hfirst', hd'], hrest⟩
    · exact .inr ⟨0, _, t, rfl, rfl, h, hstuck⟩

end Walk

/-! ## The stepwise engine -/

namespace Stepwise

/-- The outcome of a step as a move of a walk. -/
def Outcome.resumption : Outcome → Resumption
  | .next index s => .resume index s
  | .done s => .ended .completed s
  | .failed error s => .ended (.failed error) s

variable (program : Array Instruction) (options : Options)

/-- What the stepwise engine makes of the instruction at an index. -/
def take (c : Int × State) : Resumption := (step program options c.1 c.2).resumption

variable {program options} {c d : Int × State} {n : Nat} {index : Int} {ending : Ending} {s : State}

theorem take_eq_resume_iff :
    take program options c = .resume index s ↔
      step program options c.1 c.2 = .next index s := by
  unfold take
  cases step program options c.1 c.2 <;> simp [Outcome.resumption]

theorem take_eq_ended_iff :
    take program options c = .ended ending s ↔ stop? program options c = some (ending, s) := by
  unfold take stop?
  cases step program options c.1 c.2 <;> simp [Outcome.resumption, Outcome.stop?]

/-- The moves of the stepwise engine lead where its steps do. -/
theorem walk_next? : Walk.next? (take program options) = next? program options := by
  funext c
  unfold Walk.next? take next?
  cases step program options c.1 c.2 <;> rfl

/-- A walk of the stepwise engine ends where its run stops. -/
theorem walk_ends_iff :
    Walk.Ends (take program options) n c ending s ↔
      ∃ d, Walk.after (next? program options) n c = some d ∧
        stop? program options d = some (ending, s) := by
  simp only [Walk.Ends, walk_next?, take_eq_ended_iff]

end Stepwise

end TapeLang
