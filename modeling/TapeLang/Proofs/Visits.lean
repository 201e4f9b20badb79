import TapeLang.Proofs.Turns

/-!
# Visits to the batch loop

A visit comes by where single rounds lead, as the loop does not depend on its counter
(`Batch.advance_leave`); so the batch engine ends where the walk of single rounds does, and where
that of its turns does (`Batch.ends_iff_turns`).
-/

set_option autoImplicit false

namespace TapeLang.Batch

variable {code : Array Instruction} {options : Options} {o : State} {l : Loop} {c : Int × State}

theorem isWord_of_le {m n : Int} (hn : isWord n) (h₀ : 0 ≤ m) (h : m ≤ n) : isWord m := by
  rw [isWord_iff] at hn ⊢
  unfold wordBound at *
  omega

/-- **In the middle of a visit, the loop does what it does at the start of one.** -/
theorem advance_leave (h : Held options (l.index, leave o l)) (hword : isWord (budget options o)) :
    advance code options (l.index, leave o l) =
      match step code (budget options o) l with
      | .next l' => .resume l'.index (leave o l')
      | .stop reason l' =>
        act options reason l'.index (argumentOf (fetch? code l'.index)) (leave o l') := by
  have hsteps : (leave o l).steps = o.steps + l.steps := rfl
  have hheld := h.steps
  simp only [hsteps] at hheld
  have hentry : isWord (leave o l).pointer && isWord (budget options (leave o l)) := by
    rw [Bool.and_eq_true]
    refine ⟨h.pointer, ?_⟩
    unfold budget at hword ⊢
    cases hmax : options.maxSteps with
    | none => rfl
    | some limit =>
      rw [hmax] at hword
      have hle := hheld limit hmax
      simp only [hsteps] at hword ⊢
      exact isWord_of_le hword (by omega) (by omega)
  have hbudget : (0 ≤ budget options o ∧ budget options o ≤ (0 + l.steps : Nat)) ↔
      (0 ≤ budget options (leave o l) ∧ budget options (leave o l) ≤ (0 : Nat)) := by
    unfold budget
    cases hmax : options.maxSteps with
    | none => simp
    | some limit =>
      have hle := hheld limit hmax
      simp only [hsteps]
      omega
  have hlater : l = (enter l.index (leave o l)).later l.steps := by
    simp [Loop.later, enter, leave]
  have hleave (l' : Loop) : leave (leave o l) l' = leave o (l'.later l.steps) := by
    have hsum : o.steps + l.steps + l'.steps = o.steps + (l'.steps + l.steps) := by omega
    simp [leave, Loop.later, hsum]
  have hstep : step code (budget options o) l
      = (step code (budget options (leave o l)) (enter l.index (leave o l))).later l.steps := by
    conv_lhs => rw [hlater]
    exact step_later hbudget
  unfold advance
  rw [if_pos hentry, hstep]
  cases step code (budget options (leave o l)) (enter l.index (leave o l)) with
  | next l' =>
    simp only [hleave]
    rfl
  | stop reason l' =>
    simp only [hleave]
    rfl

section
variable (hcode : ∀ i ∈ code, isWord i.arg)
include hcode

theorem held_advance {index : Int} {s : State} (h : Held options c)
    (hmove : advance code options c = .resume index s) : Held options (index, s) := by
  rcases advance_cases hcode h with hturns | ⟨t, hgrown, -, ht, -⟩
  · rw [hmove] at hturns
    cases hturns with
    | moves _ hs => exact hs
  · rw [hmove] at hgrown
    cases hgrown
    exact ht

theorem held_turn {index : Int} {s : State} (h : Held options c)
    (hmove : turn code options c = .resume index s) :
    Held options (index, s) ∧ s.steps = c.2.steps + 1 := by
  have hturns := turns_turn hcode h
  rw [hmove] at hturns
  cases hturns with
  | moves hsteps hs => exact ⟨hs, hsteps⟩

theorem isFinal_of_advance {ending : Ending} {s : State} (h : Held options c)
    (hend : advance code options c = .ended ending s) : ending.IsFinal := by
  rcases advance_cases hcode h with hturns | ⟨t, hgrown, -⟩
  · rw [hend] at hturns
    cases hturns with
    | completed => exact Ending.isFinal_completed
    | _ => exact Ending.isFinal_failed _
  · rw [hend] at hgrown
    cases hgrown

/-- A visit walks round by round, up to where the loop stops. -/
theorem loop_walks (hword : isWord (budget options o)) (h : Held options (l.index, leave o l))
    (fuel : Nat) :
    (∃ l', loop code (budget options o) fuel l = (none, l') ∧
      Walk.after (Walk.next? (advance code options)) fuel (l.index, leave o l)
        = some (l'.index, leave o l')) ∨
    ∃ k l' reason, loop code (budget options o) fuel l = (some reason, l') ∧
      Walk.after (Walk.next? (advance code options)) k (l.index, leave o l)
        = some (l'.index, leave o l') ∧
      advance code options (l'.index, leave o l')
        = act options reason l'.index (argumentOf (fetch? code l'.index)) (leave o l') := by
  induction fuel generalizing l with
  | zero => exact .inl ⟨l, rfl, rfl⟩
  | succ fuel ih =>
    have hadvance := @advance_leave code options o l h hword
    rw [loop]
    cases hround : step code (budget options o) l with
    | stop reason l' =>
      rw [hround] at hadvance
      obtain rfl := eq_of_stop hround
      exact .inr ⟨0, l', reason, rfl, rfl, hadvance⟩
    | next l' =>
      rw [hround] at hadvance
      rcases ih (held_advance hcode h hadvance) with
        ⟨l'', hloop, hafter⟩ | ⟨k, l'', reason, hloop, hafter, hstop⟩
      · exact .inl ⟨l'', hloop, by rw [Walk.after_of_resume hadvance, hafter]⟩
      · exact .inr ⟨k + 1, l'', reason, hloop, by rw [Walk.after_of_resume hadvance, hafter],
          hstop⟩

/-- A run ends where the walk does, or the walk has come at least as far as there is fuel. -/
theorem runFrom_cases (h : Held options c) (fuel : Nat) (events : Array Event) :
    (∃ n ending s events', Walk.Ends (advance code options) n c ending s ∧
      runFrom code options fuel c.1 c.2 events = ⟨ending, s, events'⟩) ∨
    ((∃ index, (runFrom code options fuel c.1 c.2 events).ending = .unfinished index) ∧
      ∃ d, Walk.after (Walk.next? (advance code options)) fuel c = some d) := by
  induction fuel generalizing c events with
  | zero => exact .inr ⟨⟨c.1, rfl⟩, c, rfl⟩
  | succ fuel ih =>
    obtain ⟨index, s⟩ := c
    by_cases hword : isWord (budget options s)
    swap
    · refine .inl ⟨0, .failed .wordTooLarge, s, events, ⟨_, rfl, ?_⟩, ?_⟩
      · simp [advance, hword]
      · simp [runFrom, hword]
    have hentry : isWord s.pointer && isWord (budget options s) := by simp [hword, h.pointer]
    simp only [runFrom]
    rw [if_pos hentry]
    rcases loop_walks hcode (o := lend s) (l := enter index s) hword h (fuel + 1) with
      ⟨l, hloop, hafter⟩ | ⟨k, l, reason, hloop, hafter, hstop⟩
    · replace hloop : loop code (budget options s) (fuel + 1) (enter index s) = (none, l) := hloop
      simp only [hloop]
      exact .inr ⟨⟨_, rfl⟩, _, hafter⟩
    · replace hloop : loop code (budget options s) (fuel + 1) (enter index s)
        = (some reason, l) := hloop
      replace hafter : Walk.after (Walk.next? (advance code options)) k (index, s)
        = some (l.index, leave (lend s) l) := hafter
      have hheld : Held options (l.index, leave (lend s) l) :=
        Walk.keeps_of_moves (fun hc hmove => held_advance hcode hc hmove) h hafter
      simp only [hloop]
      split
      · rename_i index' s' hact
        replace hact : act options reason l.index (argumentOf (fetch? code l.index))
          (leave (lend s) l) = .resume index' s' := hact
        rw [hact] at hstop
        have hreached := Walk.after_succ_of_resume hafter hstop
        rcases ih (held_advance hcode hheld hstop) _ with
          ⟨n, ending, t, events', hend, hrun⟩ | ⟨hending, d, hd⟩
        · exact .inl ⟨k + 1 + n, ending, t, events', hend.of_after hreached, hrun⟩
        · refine .inr ⟨hending, ?_⟩
          rw [← Walk.after_trans hreached] at hd
          exact Walk.exists_after_of_le hd (by omega)
      · rename_i ending s' hact
        replace hact : act options reason l.index (argumentOf (fetch? code l.index))
          (leave (lend s) l) = .ended ending s' := hact
        rw [hact] at hstop
        exact .inl ⟨k, ending, s', _, ⟨_, hafter, hstop⟩, rfl⟩

/-- **The batch engine ends where its turns do.** -/
theorem ends_iff_turns (h : Held options c) {ending : Ending} {s : State} :
    (∃ fuel events, runFrom code options fuel c.1 c.2 #[] = ⟨ending, s, events⟩ ∧
      ending.IsFinal) ↔ ∃ n, Walk.Ends (turn code options) n c ending s := by
  rw [show turn code options = Walk.joined (advance code options) from rfl, Walk.ends_joined_iff]
  constructor
  · intro hends
    obtain ⟨fuel, events, hrun, hfinal⟩ := hends
    rcases runFrom_cases hcode h fuel #[] with
      ⟨n, _, _, _, hend, hrun'⟩ | ⟨⟨index, hending⟩, -⟩
    · rw [hrun] at hrun'
      cases hrun'
      exact ⟨n, hend⟩
    · rw [hrun] at hending
      exact absurd hending (hfinal index)
  · intro hends
    obtain ⟨n, hend⟩ := hends
    rcases runFrom_cases hcode h (n + 1) #[] with
      ⟨n', _, _, events, hend', hrun⟩ | ⟨-, d, hd⟩
    · obtain ⟨-, rfl, rfl⟩ := hend.unique hend'
      obtain ⟨d, hd, hstop⟩ := hend
      have hheld : Held options d :=
        Walk.keeps_of_moves (fun hc hmove => held_advance hcode hc hmove) h hd
      exact ⟨n + 1, events, hrun, isFinal_of_advance hcode hheld hstop⟩
    · exact absurd (hend.le_of_after hd) (Nat.not_succ_le_self n)

end

end TapeLang.Batch
