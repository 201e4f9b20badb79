import TapeLang.Proofs.Lowering
import TapeLang.Proofs.Targets

/-!
# Folding code without jumps

Whatever a machine has done before, code without jumps comes to the same when it is folded: the
folded code completes with the results of the code, in no more steps, and where the folded code
completes the code does so too, unless it leaves the tape or the range of a checked cell on the way
(`fold_preserves_straight`).
-/

set_option autoImplicit false

namespace TapeLang

/-! ## Blocks without loops -/

namespace Block

/-- Code without jumps as a block. -/
def straight (x : List Instruction) : Block := x.foldl step nil

variable {x : List Instruction}

theorem straight_concat (x : List Instruction) (i : Instruction) :
    straight (x ++ [i]) = (straight x).step i := by
  rw [straight, List.foldl_append]
  rfl

theorem code_straight (x : List Instruction) : (straight x).code = x := by
  induction x using List.reverseRecOn with
  | nil => rfl
  | append_singleton x i ih => rw [straight_concat, code, ih]

theorem everyLoop_straight (p : Block → Prop) (x : List Instruction) :
    (straight x).EveryLoop p := by
  induction x using List.reverseRecOn with
  | nil => trivial
  | append_singleton x i ih =>
    rw [straight_concat]
    exact ih

theorem every_straight {p : Instruction → Prop} (h : ∀ i ∈ x, p i) : (straight x).Every p := by
  induction x using List.reverseRecOn with
  | nil => trivial
  | append_singleton x i ih =>
    rw [straight_concat]
    exact ⟨ih fun j hj => h j (List.mem_append_left _ hj),
      h i (List.mem_append_right _ (List.mem_singleton_self i))⟩

theorem code_fold_straight (x : List Instruction) : (straight x).fold.code = TapeLang.fold x := by
  rw [code_fold_of_loopless (everyLoop_straight _ x), code_straight]

end Block

/-! ## Slips -/

/-- The run has moved left of the first cell, or has left the range of a checked cell. -/
def Ending.Slips (options : Options) (e : Ending) : Prop :=
  (∃ target place, e = .failed (.tapeUnderflow target place)) ∨
    options.allowOverflows = false ∧
      ∃ cell value place, e = .failed (.cellOverflow cell value place)

theorem Ending.Slips.exists_eq {options : Options} {e : Ending} (h : e.Slips options) :
    ∃ error, e = .failed error := by
  obtain ⟨target, place, rfl⟩ | ⟨-, cell, value, place, rfl⟩ := h
  · exact ⟨_, rfl⟩
  · exact ⟨_, rfl⟩

/-- A report of a slip names the error that it is. -/
theorem Machine.Tells.slips {m : Machine} {n : Nat} {r : Result} {rep : Report}
    (h : m.Tells n r rep) (hr : r.Slips (!m.options.allowOverflows)) :
    rep.ending.Slips m.options := by
  obtain ⟨i, v, rfl, hi⟩ := hr
  cases h with
  | @stuck _ j _ s error _ hs _ hending hexec =>
    have hfails := Stepwise.fails_of_execute hs.inside (f := ⟨error, rep.state⟩) hexec
    rw [hending]
    generalize hf : (⟨error, rep.state⟩ : Failure) = f at hfails
    obtain rfl : error = f.error := congrArg Failure.error hf
    cases hfails with
    | underflow _ _ => exact .inl ⟨_, _, rfl⟩
    | overflow _ hchecked _ _ _ => exact .inr ⟨by simpa using hchecked, _, _, _, rfl⟩
    | noRoom hrefused =>
      rw [hs.refusal?_eq_none] at hrefused
      cases hrefused
    | exhausted hkind _ => simp [hkind] at hi
    | unread hkind _ => simp [hkind] at hi
    | closed hkind _ => simp [hkind] at hi

/-! ## Runs without bounds -/

section
variable {m : Machine} {x : List Instruction} {rep : Report} (hflat : isFlat x)
  (hprints : ∀ i ∈ x, i.kind = .print → 0 ≤ i.arg) (hengine : m.options.engine = .stepwise)
  (hlimit : m.options.maxSteps = none) (hample : m.state.Ample)
include hflat hprints

theorem isPlain_straight : (Block.straight x).Every Instruction.IsPlain :=
  Block.every_straight fun i hi => ⟨by simpa using List.all_eq_true.1 hflat i hi, hprints i hi⟩

include hengine hlimit hample

theorem bears_straight : (m.load x).Bears (.straight x) where
  engine := hengine
  unlimited := hlimit
  program := (Block.code_straight x).symm
  plain := (isPlain_straight hflat hprints).mono fun _ hi => hi.1
  ample := hample

theorem bears_fold_straight : (m.load (fold x)).Bears (Block.straight x).fold where
  engine := hengine
  unlimited := hlimit
  program := (Block.code_fold_straight x).symm
  plain := (Block.isPlain_fold (isPlain_straight hflat hprints)).mono fun _ hi => hi.1
  ample := hample

/-- Where the code completes, its folded form does the same in no more steps. -/
theorem fold_completes (hrep : (m.load x).Ends rep) (hending : rep.ending = .completed) :
    ∃ rep', (m.load (fold x)).Ends rep' ∧ rep'.ending = .completed ∧
      rep'.state.SameResults rep.state ∧ rep'.state.steps ≤ rep.state.steps := by
  have hbears := bears_straight hflat hprints hengine hlimit hample
  have hbears' := bears_fold_straight hflat hprints hengine hlimit hample
  obtain ⟨n, r, hr, -, htells⟩ := hbears.runs_of_ends hrep
  cases htells with
  | stuck _ _ _ hfailed _ =>
    rw [hending] at hfailed
    cases hfailed
  | @done _ v _ hs hsteps hview =>
    obtain ⟨n', _, hr', hn, rfl | ⟨hnone, -⟩⟩ :=
      Block.fold_follows (isPlain_straight hflat hprints) hr (.inl trivial)
    · obtain ⟨rep', hrep', htells'⟩ := hbears'.ends_of_runs hr' (Result.not_spins_done v)
      cases htells' with
      | done hending' hs' hsteps' hview' =>
        refine ⟨rep', hrep', hending', .of_view hs' hs (hview'.trans hview.symm), ?_⟩
        have hle := hn trivial
        rw [hsteps, hsteps']
        exact Nat.add_le_add_left hle m.state.steps
    · exact hnone.elim

/-- Where the folded form completes, the code does the same, unless it slips. -/
theorem completes_of_fold (hrep : (m.load (fold x)).Ends rep) (hending : rep.ending = .completed) :
    ∃ rep', (m.load x).Ends rep' ∧
      (rep'.ending = .completed ∧ rep'.state.SameResults rep.state ∨
        rep'.ending.Slips m.options) := by
  have hbears := bears_straight hflat hprints hengine hlimit hample
  have hbears' := bears_fold_straight hflat hprints hengine hlimit hample
  obtain ⟨n, r, hr, -, htells⟩ := hbears'.runs_of_ends hrep
  cases htells with
  | stuck _ _ _ hfailed _ =>
    rw [hending] at hfailed
    cases hfailed
  | @done _ v _ hs _ hview =>
    obtain ⟨n', r', hr', -, rfl | ⟨hslips, -⟩⟩ :=
      Block.follows_fold (isPlain_straight hflat hprints) hr (.inl trivial)
    · obtain ⟨rep', hrep', htells'⟩ := hbears.ends_of_runs hr' (Result.not_spins_done v)
      cases htells' with
      | done hending' hs' _ hview' =>
        exact ⟨rep', hrep', .inl ⟨hending', .of_view hs' hs (hview'.trans hview.symm)⟩⟩
    · obtain ⟨rep', hrep', htells'⟩ := hbears.ends_of_runs hr' hslips.not_spins
      exact ⟨rep', hrep', .inr (htells'.slips hslips)⟩

end

/-! ## Runs in a memory -/

/-- The machine in a memory without bounds. -/
def Machine.unbounded (m : Machine) : Machine :=
  { m with state := { m.state with memory := .unlimited } }

namespace Machine

variable {m : Machine} {rep : Report} (hengine : m.options.engine = .stepwise)
  (hs : m.state.Inside)
include hengine hs

/-- Without bounds a run ends as it does in a memory, unless there is no room for a tape. -/
theorem ends_of_unbounded (h : m.unbounded.Ends rep) :
    (∃ rep', m.Ends rep' ∧ rep.ending = rep'.ending ∧ rep.state.Alike rep'.state) ∨
      ∃ n c, m.after n = some c ∧ Walk.WantsRoom m.take c := by
  have halike : m.unbounded.state.Alike m.state := ⟨hs, hs, rfl, rfl⟩
  rcases ends_of_alike (m := m.unbounded) hengine hengine rfl halike h with
    hends | ⟨n, index, s, t, hafter, hafter', -, hwants | hwants⟩
  · exact .inl hends
  · obtain ⟨error, -, hrefused, -⟩ := ends_of_wantsRoom (m := m.unbounded) hengine hs hafter hwants
    cases hrefused
  · exact .inr ⟨n, _, hafter', hwants⟩

/-- What completes in a memory does so without its bounds. -/
theorem unbounded_completes (h : m.Ends rep) (hending : rep.ending = .completed) :
    ∃ rep', m.unbounded.Ends rep' ∧ rep'.ending = .completed ∧ rep.state.Alike rep'.state := by
  have halike : m.state.Alike m.unbounded.state := ⟨hs, hs, rfl, rfl⟩
  have hengine' : m.unbounded.options.engine = .stepwise := hengine
  rcases ends_of_alike hengine hengine' rfl halike h with
    ⟨rep', hends, hsame, halike'⟩ | ⟨n, index, s, t, hafter, hafter', -, hwants | hwants⟩
  · exact ⟨rep', hends, hsame ▸ hending, halike'⟩
  · obtain ⟨error, events, -, hends⟩ := ends_of_wantsRoom hengine hs hafter hwants
    rw [unique_of_stepwise hengine h hends] at hending
    cases hending
  · obtain ⟨error, -, hrefused, -⟩ :=
      ends_of_wantsRoom (m := m.unbounded) hengine hs hafter' hwants
    cases hrefused

end Machine

/-- **Folding preserves the runs of code without jumps**, from any state of the machine: what
completes still does, with the same results and in no more steps; and what completes once it is
folded did so before, unless it slipped or there was no room for its tape. What such a run raises is
the error that says so, if the numbers in it can be written. -/
theorem fold_preserves_straight {m : Machine} {x : List Instruction} (hflat : isFlat x)
    (hprints : ∀ i ∈ x, i.kind = .print → 0 ≤ i.arg) (hengine : m.options.engine = .stepwise)
    (hlimit : m.options.maxSteps = none) (hinside : m.state.Inside) :
    (∀ rep, (m.load x).Ends rep → rep.ending = .completed →
      ∃ rep', (m.load (fold x)).Ends rep' ∧ rep'.ending = .completed ∧
        rep'.state.SameResults rep.state ∧ rep'.state.steps ≤ rep.state.steps) ∧
    ∀ rep, (m.load (fold x)).Ends rep → rep.ending = .completed →
      ∃ rep', (m.load x).Ends rep' ∧
        (rep'.ending = .completed ∧ rep'.state.SameResults rep.state ∨
          ∃ error, rep'.ending = .failed error ∧ (m.load x).Raises error.raised rep'.state ∧
            ((Ending.failed error).Slips m.options ∨ error.WantsRoom m.state.memory)) := by
  have hample : m.unbounded.state.Ample := ⟨hinside, rfl⟩
  constructor
  · intro rep hends hending
    obtain ⟨rep₁, hends₁, hending₁, halike₁⟩ :=
      Machine.unbounded_completes (m := m.load x) hengine hinside hends hending
    obtain ⟨rep₂, hends₂, hending₂, hsame, hsteps⟩ :=
      fold_completes (m := m.unbounded) hflat hprints hengine hlimit hample hends₁ hending₁
    rcases Machine.ends_of_unbounded (m := m.load (fold x)) hengine hinside hends₂ with
      ⟨rep', hends', hending', halike'⟩ | ⟨n, c, hafter, hwants⟩
    · refine ⟨rep', hends', hending' ▸ hending₂, ?_, ?_⟩
      · exact (halike'.sameResults.symm.trans hsame).trans halike₁.sameResults.symm
      · rw [← halike'.steps, halike₁.steps]
        exact hsteps
    · exact absurd hwants
        (Machine.not_wantsRoom_of_fold hengine hinside hflat hends hending hafter)
  · intro rep hends hending
    obtain ⟨rep₁, hends₁, hending₁, halike₁⟩ :=
      Machine.unbounded_completes (m := m.load (fold x)) hengine hinside hends hending
    obtain ⟨rep₂, hends₂, hcases⟩ :=
      completes_of_fold (m := m.unbounded) hflat hprints hengine hlimit hample hends₁ hending₁
    rcases Machine.ends_of_unbounded (m := m.load x) hengine hinside hends₂ with
      ⟨rep', hends', hending', halike'⟩ | ⟨n, c, hafter, hwants⟩
    · have hsame' := halike'.sameResults.symm
      refine ⟨rep', hends', ?_⟩
      rw [← hending']
      rcases hcases with ⟨hdone, hsame⟩ | hslips
      · exact .inl ⟨hdone, hsame'.trans (hsame.trans halike₁.sameResults.symm)⟩
      · obtain ⟨error, herror⟩ := hslips.exists_eq
        rw [herror] at hending' hslips
        exact .inr ⟨error, herror, ⟨error, rep'.events, hending' ▸ hends', rfl⟩, .inl hslips⟩
    · obtain ⟨reason, events, hrefused, hends'⟩ :=
        Machine.ends_of_wantsRoom (m := m.load x) hengine hinside hafter hwants
      exact ⟨_, hends', .inr ⟨_, rfl, ⟨_, _, hends', rfl⟩, .inr ⟨reason, rfl, hrefused⟩⟩⟩

/-- A detour that makes the tape grow to all that there is room for, and a checked cell smaller for
a while; and a change of that cell that only its folded form survives. -/
theorem fold_preserves_straight_detour :
    ∃ (m : Machine) (x y : List Instruction), isFlat x ∧ isFlat y ∧
      (∀ i ∈ x, i.kind = .print → 0 ≤ i.arg) ∧ (∀ i ∈ y, i.kind = .print → 0 ≤ i.arg) ∧
      m.options.engine = .stepwise ∧ m.options.maxSteps = none ∧ m.state.Inside ∧
      m.state.memory = ⟨some 4⟩ ∧ fold x = [⟨.scan, 1⟩, ⟨.print, 2⟩] ∧ fold y = [] ∧
      (∃ rep rep', (m.load x).Ends rep ∧ rep.ending = .completed ∧ rep.state.tape.size = 4 ∧
        (m.load (fold x)).Ends rep' ∧ rep'.ending = .completed ∧
        rep'.state.SameResults rep.state ∧ rep'.state.steps ≤ rep.state.steps) ∧
      ∃ rep rep', (m.load (fold y)).Ends rep ∧ rep.ending = .completed ∧ (m.load y).Ends rep' ∧
        ∃ error, rep'.ending = .failed error ∧ (m.load y).Raises error.raised rep'.state ∧
          (Ending.failed error).Slips m.options := by
  have hruns : ∃ (m : Machine) (x y : List Instruction), isFlat x ∧ isFlat y ∧
      (∀ i ∈ x, i.kind = .print → 0 ≤ i.arg) ∧ (∀ i ∈ y, i.kind = .print → 0 ≤ i.arg) ∧
      m.options.engine = .stepwise ∧ m.options.maxSteps = none ∧ m.state.Inside ∧
      m.state.memory = ⟨some 4⟩ ∧ fold x = [⟨.scan, 1⟩, ⟨.print, 2⟩] ∧ fold y = [] ∧
      (∃ rep, (m.load x).runFor 7 = rep ∧ rep.ending = .completed ∧ rep.state.tape.size = 4) ∧
      (∃ rep, (m.load (fold y)).runFor 1 = rep ∧ rep.ending = .completed) ∧
      ∃ rep, (m.load y).runFor 1 = rep ∧ rep.ending = .failed (.cellOverflow 1 256 ⟨1, 0⟩) :=
    ⟨⟨#[], { allowOverflows := false, chunkSize := 2 },
        { tape := ⟨2, #[0, 255], by decide⟩, pointer := 1, steps := 7, input := ⟨[9], 3, none⟩,
          output := {}, memory := ⟨some 4⟩ }⟩,
      [⟨.modify, -1⟩, ⟨.shift, 1⟩, ⟨.shift, -1⟩, ⟨.modify, 1⟩, ⟨.scan, 1⟩, ⟨.print, 2⟩],
      [⟨.modify, 1⟩, ⟨.modify, -1⟩], rfl, rfl, by decide, by decide, rfl, rfl,
      ⟨by decide, by decide⟩, rfl, rfl, rfl, ⟨_, rfl, by decide +kernel, by decide +kernel⟩,
      ⟨_, rfl, rfl⟩, ⟨_, rfl, by decide +kernel⟩⟩
  obtain ⟨m, x, y, hx, hy, hxprints, hyprints, hengine, hlimit, hinside, hmemory, hxfold, hyfold,
    ⟨rep, hrun, hending, hsize⟩, ⟨rep₁, hrun₁, hending₁⟩, ⟨rep₂, hrun₂, hending₂⟩⟩ := hruns
  have hends : (m.load x).Ends rep := ⟨7, hrun, hending ▸ Ending.isFinal_completed⟩
  have hends₁ : (m.load (fold y)).Ends rep₁ := ⟨1, hrun₁, hending₁ ▸ Ending.isFinal_completed⟩
  have hends₂ : (m.load y).Ends rep₂ := ⟨1, hrun₂, hending₂ ▸ Ending.isFinal_failed _⟩
  obtain ⟨rep', hrep', hsame⟩ :=
    (fold_preserves_straight hx hxprints hengine hlimit hinside).1 rep hends hending
  obtain ⟨rep₃, hrep₃, hcases⟩ :=
    (fold_preserves_straight hy hyprints hengine hlimit hinside).2 rep₁ hends₁ hending₁
  obtain rfl : rep₂ = rep₃ := Machine.unique_of_stepwise (m := m.load y) hengine hends₂ hrep₃
  refine ⟨m, x, y, hx, hy, hxprints, hyprints, hengine, hlimit, hinside, hmemory, hxfold, hyfold,
    ⟨rep, rep', hends, hending, hsize, hrep', hsame⟩, rep₁, rep₂, hends₁, hending₁, hends₂, ?_⟩
  rcases hcases with ⟨hdone, -⟩ | ⟨error, herror, hraises, hslips | ⟨reason, rfl, -⟩⟩
  · rw [hending₂] at hdone
    cases hdone
  · exact ⟨error, herror, hraises, hslips⟩
  · rw [hending₂] at herror
    cases herror

/-- A program whose first instruction fails ends there. -/
theorem Machine.ends_of_fails {m : Machine} {i : Instruction} {f : Failure}
    (hengine : m.options.engine = .stepwise) (hlimit : m.options.maxSteps = none)
    (hinside : m.state.Inside) (h : i.Fails (!m.options.allowOverflows) 0 m.state f)
    (x : List Instruction) :
    ∃ events, (m.load (i :: x)).Ends ⟨.failed f.error, f.state, events⟩ := by
  have hstep : Stepwise.step (i :: x).toArray m.options 0 m.state = .failed f.error f.state :=
    (Stepwise.step_of_getElem? (j := 0) hlimit rfl).trans (Stepwise.execute_of_fails hinside h)
  have hstop : Stepwise.stop? (i :: x).toArray m.options (0, m.state)
      = some (.failed f.error, f.state) := by
    rw [Stepwise.stop?, hstep]
    rfl
  exact (Machine.ends_iff (m := m.load (i :: x)) hengine).2 ⟨0, _, rfl, hstop⟩

/-- **Slips are not all that can come between**: a detour may be longer than any tape, and the error
of one that leaves the tape may have too many digits to say so. -/
theorem not_forall_fold_slips :
    (¬ ∀ (m : Machine) (x : List Instruction) (rep rep' : Report), isFlat x →
      (∀ i ∈ x, i.kind = .print → 0 ≤ i.arg) → m.options.engine = .stepwise →
      m.options.maxSteps = none → m.state.Inside →
      (m.load (fold x)).Ends rep → rep.ending = .completed → (m.load x).Ends rep' →
        rep'.ending = .completed ∨ rep'.ending.Slips m.options) ∧
    ¬ ∀ (m : Machine) (x : List Instruction) (rep rep' : Report), isFlat x →
      (∀ i ∈ x, i.kind = .print → 0 ≤ i.arg) → m.options.engine = .stepwise →
      m.options.maxSteps = none → m.state.Inside →
      (m.load (fold x)).Ends rep → rep.ending = .completed → (m.load x).Ends rep' →
        rep'.ending = .completed ∨ ∃ error, (m.load x).Raises (.error error) rep'.state := by
  constructor
  · intro h
    have hruns : ∃ (m : Machine) (x : List Instruction) (rep rep' : Report), isFlat x ∧
        (∀ i ∈ x, i.kind = .print → 0 ≤ i.arg) ∧ m.options.engine = .stepwise ∧
        m.options.maxSteps = none ∧ m.state.Inside ∧
        (m.load (fold x)).runFor 1 = rep ∧ rep.ending = .completed ∧
        (m.load x).runFor 1 = rep' ∧
        rep'.ending = .failed (.noRoom ⟨.notAWord, 0x8000000000000000⟩) :=
      ⟨⟨#[], { chunkSize := 1 },
          { tape := .blank 1 (by decide), input := {}, output := {}, memory := ⟨some 1000⟩ }⟩,
        [⟨.shift, wordBound⟩, ⟨.shift, -wordBound⟩], _, _, rfl, by decide, rfl, rfl,
        ⟨by decide, by decide⟩, rfl, rfl, rfl, rfl⟩
    obtain ⟨m, x, rep, rep', hx, hprints, hengine, hlimit, hinside, hrun, hending, hrun',
      hending'⟩ := hruns
    have hends : (m.load (fold x)).Ends rep := ⟨1, hrun, hending ▸ Ending.isFinal_completed⟩
    have hends' : (m.load x).Ends rep' := ⟨1, hrun', hending' ▸ Ending.isFinal_failed _⟩
    rcases h m x rep rep' hx hprints hengine hlimit hinside hends hending hends' with
      hdone | hslips
    · rw [hending'] at hdone
      cases hdone
    · rw [hending'] at hslips
      obtain ⟨_, _, hslip⟩ | ⟨-, _, _, _, hslip⟩ := hslips <;> cases hslip
  · intro h
    let m : Machine := ⟨#[], { chunkSize := 1 },
      { tape := .blank 1 (by decide), input := {}, output := {} }⟩
    let x : List Instruction := [⟨.shift, -Integer.tooLong⟩, ⟨.shift, Integer.tooLong⟩]
    have hinside : m.state.Inside := ⟨by decide, by decide⟩
    have hfold : fold x = [] := by
      rw [(Simplifies.merge [] (-Integer.tooLong) Integer.tooLong [] rfl).fold_eq (x := x),
        Int.add_left_neg]
      rfl
    have hends : (m.load (fold x)).Ends ⟨.completed, m.state, #[]⟩ := by
      rw [hfold]
      exact ⟨1, rfl, Ending.isFinal_completed⟩
    have hpos : 0 < Integer.tooLong := Int.pow_pos (by decide)
    have hfails : Instruction.Fails false ⟨.shift, -Integer.tooLong⟩ 0 m.state
        ⟨.tapeUnderflow (0 + -Integer.tooLong) ⟨0, 0⟩, m.state⟩ :=
      .underflow rfl (show (0 : Int) + -Integer.tooLong < 0 by omega)
    obtain ⟨events, hends'⟩ := Machine.ends_of_fails (m := m) rfl rfl hinside hfails
      [⟨.shift, Integer.tooLong⟩]
    rcases h m x _ _ rfl (by simp [x]) rfl rfl hinside hends rfl hends' with
      hdone | ⟨error, hraises⟩
    · cases hdone
    · obtain ⟨error', events', hends'', hraised⟩ := hraises
      obtain ⟨rfl, hnumbers⟩ := RunError.raised_eq_error_iff.1 hraised
      have hsame := Machine.unique_of_stepwise (m := m.load x) rfl hends' hends''
      simp only [Report.mk.injEq, Ending.failed.injEq] at hsame
      have hwritable := hnumbers (0 + -Integer.tooLong) (by rw [← hsame.1]; simp [RunError.numbers])
      rw [Int.zero_add, Integer.isWritable_neg, Integer.isWritable_tooLong] at hwritable
      cases hwritable

end TapeLang
