import Mathlib.Algebra.Ring.Int.Parity
import Mathlib.Data.Nat.Prime.Basic
import TapeLang.Proofs.Conformance

/-!
# The two levels

What fusing does to a program that is run: a run of unfused code that ends is followed by the run of
the fused code, unless that one meets an `add` or `sub` on a zero cell whose target is left of the
first cell. On cells that wrap around, a run of fused code that ends is followed by the run of the
unfused code, unless that one enters a loop that adds an amount to its cell and never makes it zero.
-/

set_option autoImplicit false

namespace TapeLang

/-- The run arrives at an `add` or `sub` on a zero cell whose target is left of the first cell. -/
def Machine.MeetsIdleMove (m : Machine) : Prop :=
  ∃ j s i, m.Visits j s ∧ m.program[j]? = some i ∧ (i.kind = .add ∨ i.kind = .sub) ∧
    s.tape.get s.pointer = 0 ∧ s.pointer + i.arg < 0

/-- The run arrives at a loop that adds an amount to its cell and never makes it zero. -/
def Machine.EntersTrap (m : Machine) : Prop :=
  ∃ j s amount, m.Visits j s ∧ m.program[j]? = some ⟨.beginLoop, 2⟩ ∧
    m.program[j + 1]? = some ⟨.modify, amount⟩ ∧ m.program[j + 2]? = some ⟨.endLoop, 2⟩ ∧
    Traps amount (s.tape.get s.pointer)

/-- Every loop whose body folds to a single change of the cell changes it by an odd amount. -/
def OddLoops (text : List Char) : Prop :=
  ∀ (before body behind : List Char) (amount : Int),
    text = before ++ '[' :: (body ++ ']' :: behind) → '[' ∉ body → ']' ∉ body →
      fold (instructionsOf body) = [⟨.modify, amount⟩] → Odd amount

/-! ## Blocks at the two levels -/

namespace Block

theorem lowered_one_follows (checked : Bool) (b : Block) :
    Follows Result.IsIdleMove True ((b.lowered 0).runs checked) ((b.lowered 1).runs checked) :=
  fuse_follows b.folded_fold.every

theorem lowered_zero_follows (b : Block) :
    Follows Result.Spins False ((b.lowered 1).runs false) ((b.lowered 0).runs false) :=
  follows_fuse b.folded_fold.every

end Block

/-! ## Loops of a text -/

/-- A loop of the block is one of the text. -/
theorem everyLoop_of_oddLoops {text : List Char} {b : Block} (hb : parse? text = some b)
    (h : OddLoops text) :
    b.EveryLoop fun body => ∀ amount, body.fold = .step .nil ⟨.modify, amount⟩ → Odd amount := by
  refine Block.everyLoop_of_commands fun before body behind hcommands amount hfold => ?_
  rw [commands_of_parse? hb] at hcommands
  obtain ⟨x, rest, rfl, -, hrest⟩ := commandsOf_eq_append hcommands
  obtain ⟨x', c, rest, rfl, -, hc, hrest⟩ := commandsOf_eq_cons hrest
  obtain ⟨y, rest, rfl, hy, hrest⟩ := commandsOf_eq_append hrest
  obtain ⟨y', d, z, rfl, hy', hd, -⟩ := commandsOf_eq_cons hrest
  obtain rfl := Command.ofChar?_eq_openLoop hc
  obtain rfl := Command.ofChar?_eq_closeLoop hd
  -- the body folds to one instruction, so it has no loops
  have hloopless : body.EveryLoop fun _ => False := by
    have hfolded : body.fold.EveryLoop fun _ => False := by
      rw [hfold]
      trivial
    exact Block.everyLoop_fold.1 hfolded
  have hbody : commandsOf (y ++ y') = body.commands := by
    rw [commandsOf_append, hy, hy', List.append_nil]
  have htext := (loopless_iff hbody).1 hloopless
  have hopen : '[' ∉ y ++ y' := fun hmem => (htext _ hmem).1 rfl
  have hclose : ']' ∉ y ++ y' := fun hmem => (htext _ hmem).2 rfl
  refine h (x ++ x') (y ++ y') z amount (by simp) hopen hclose ?_
  rw [instructionsOf_eq_code hbody hloopless, ← Block.code_fold_of_loopless hloopless, hfold]
  rfl

/-- An odd amount makes every cell zero. -/
theorem not_traps_of_odd {amount : Int} (h : Odd amount) (b : UInt8) : ¬ Traps amount b := by
  have hcoprime : Nat.Coprime amount.natAbs (2 ^ 8) :=
    (Nat.coprime_two_right.2 (Int.natAbs_odd.2 h)).pow_right 8
  have hgcd : Int.gcd amount 256 = 1 := hcoprime
  rw [Traps, not_not, hgcd]
  exact Nat.one_dvd _

theorem not_spins_of_oddLoops {text : List Char} {b : Block} (hb : parse? text = some b)
    (h : OddLoops text) {v : View} {n : Nat} {r : Result} (hr : (b.lowered 0).runs false v n r) :
    ¬ r.Spins := by
  have hloops : b.fold.EveryLoop fun body =>
      ∀ amount, body = .step .nil ⟨.modify, amount⟩ → Odd amount :=
    Block.everyLoop_fold.2 (everyLoop_of_oddLoops hb h)
  intro hspins
  rcases Block.fails b.folded_fold.every hloops hr hspins.isEarly
    with ⟨i, u, rfl, -⟩ | ⟨amount, u, rfl, ht, hodd⟩
  · obtain ⟨_, _, hspins⟩ := hspins
    cases hspins
  · exact not_traps_of_odd (hodd amount rfl) u.cell ht

/-! ## Runs at the two levels -/

section
variable {text : List Char} {options : Options} {stdin : List UInt8} {m₀ m₁ : Machine}
  {rep : Report} {f : Finish}

/-- What a run of unfused code comes to, the run of the fused code comes to, or else to an idle
move. -/
theorem fused_runs (h₀ : Machine.Starts 0 text options stdin m₀) {b : Block}
    (hb : parse? text = some b) (hrep : m₀.Ends rep) (hf : rep.ending.finish? = some f) :
    ∃ n r, (b.lowered 1).runs (!options.allowOverflows) (View.start stdin) n r ∧
      (r.finish? = some f ∧ n ≤ rep.state.steps ∧ rep.state.Inside ∧ rep.state.view = r.view ∨
        r.IsIdleMove ∧ r.view.printed <+: rep.state.output.written.toList) := by
  obtain ⟨n, r, hr, hrf, hs, hn, hview⟩ := h₀.runs_of_finish? hb hrep hf
  obtain ⟨n', x, hx, hcheap, rfl | ⟨hidle, hprinted⟩⟩ :=
    b.lowered_one_follows _ hr (.inl (Result.isSettled_of_finish? hrf))
  · exact ⟨n', x, hx, .inl ⟨hrf, hn ▸ hcheap trivial, hs, hview⟩⟩
  · rw [← hview] at hprinted
    exact ⟨n', x, hx, .inr ⟨hidle, hprinted⟩⟩

/-- What a run of fused code comes to, the run of the unfused code comes to, or else to a loop that
never ends. -/
theorem unfused_runs (h₁ : Machine.Starts 1 text options stdin m₁)
    (hwrap : options.allowOverflows = true) {b : Block} (hb : parse? text = some b)
    (hrep : m₁.Ends rep) (hf : rep.ending.finish? = some f) :
    ∃ n r, (b.lowered 0).runs (!options.allowOverflows) (View.start stdin) n r ∧
      (r.finish? = some f ∧ rep.state.Inside ∧ rep.state.view = r.view ∨ r.Spins) := by
  obtain ⟨n, r, hr, hrf, hs, -, hview⟩ := h₁.runs_of_finish? hb hrep hf
  simp only [hwrap, Bool.not_true] at hr ⊢
  obtain ⟨n', x, hx, -, rfl | ⟨hspins, -⟩⟩ :=
    b.lowered_zero_follows hr (.inl (Result.isSettled_of_finish? hrf))
  · exact ⟨n', x, hx, .inl ⟨hrf, hs, hview⟩⟩
  · exact ⟨n', x, hx, .inr hspins⟩

end

/-! ## Where the levels part -/

/-- The distance between the ends of a loop with a single instruction. -/
theorem jump_two (j : Nat) : ((j + 2 : Nat) : Int) - (j : Nat) = 2 := by
  omega

namespace Machine.Starts

variable {level : Int} {text : List Char} {options : Options} {stdin : List UInt8} {m : Machine}
  {b : Block} {rep : Report} {n : Nat} {r : Result}

section
variable (h : Machine.Starts level text options stdin m)
include h

theorem meetsIdleMove_of_runs (hb : parse? text = some b)
    (hr : (b.lowered level).runs (!options.allowOverflows) (View.start stdin) n r)
    (hidle : r.IsIdleMove) : m.MeetsIdleMove := by
  obtain ⟨i, v, rfl, hi, hcell, hp⟩ := hidle
  obtain ⟨j, s, hv, hprogram, hs, rfl⟩ := h.visits_of_runs hb hr
  refine ⟨j, s, i, hv, hprogram, hi, ?_, ?_⟩
  · rw [hs.pointer_eq]
    exact hcell
  · rw [hs.pointer_eq]
    exact hp

theorem not_completed_of_meetsIdleMove (hmeets : m.MeetsIdleMove) (hrep : m.Ends rep) :
    rep.ending ≠ .completed := by
  obtain ⟨j, s, ⟨kind, distance⟩, hv, hprogram, hi, -, hp⟩ := hmeets
  have hexec : ∃ error s', Stepwise.execute (!m.options.allowOverflows) ⟨kind, distance⟩ j s
      = .failed error s' := by
    rcases hi with rfl | rfl <;>
      simp only [Stepwise.execute, State.transfer, if_pos hp, Stepwise.goOn] <;>
      exact ⟨_, _, rfl⟩
  obtain ⟨error, s', hexec⟩ := hexec
  obtain ⟨rep', hrep', hending, -⟩ := h.ends_of_visits hv hprogram hexec
  rw [h.unique hrep hrep', hending]
  intro hcompleted
  cases hcompleted

theorem entersTrap_of_runs (hb : parse? text = some b)
    (hr : (b.lowered level).runs (!options.allowOverflows) (View.start stdin) n r)
    (hspins : r.Spins) : m.EntersTrap := by
  obtain ⟨amount, v, rfl⟩ := hspins
  rw [← h.options_eq] at hr
  obtain ⟨⟨_, s⟩, hafter, j, ⟨rfl, hs, rfl⟩, -, ⟨hbegin, hend⟩, ⟨hbody, -⟩, ht⟩ :=
    Platform.reaches (h.lies hb) h.stands hr
  rw [jump_two] at hbegin hend
  refine ⟨j, s, amount, h.visits_of_after hafter, hbegin, hbody, hend, ?_⟩
  rw [show s.pointer = _ from hs.inside.pointer_eq]
  exact ht

theorem not_ends_of_entersTrap (hwrap : options.allowOverflows = true) (htrap : m.EntersTrap) :
    ¬ m.Ends rep := by
  obtain ⟨j, s, amount, hv, hbegin, hbody, hend, ht⟩ := htrap
  obtain ⟨hs, n, hafter⟩ := h.after_of_visits hv
  rw [← jump_two j] at hbegin hend
  rw [hs.inside.pointer_eq] at ht
  have hchecked : (!m.options.allowOverflows) = false := by rw [h.options_eq, hwrap]; rfl
  exact h.not_ends_of_shows 0 hafter
    ⟨j, ⟨rfl, hs, rfl⟩, hchecked, ⟨hbegin, hend⟩, ⟨hbody, rfl⟩, ht⟩

end

end Machine.Starts

/-- **Fusing keeps a program working** exactly if the run of the fused code meets no idle move. -/
theorem fused_completes_iff {text : List Char} {stdin : List UInt8} {m₀ : Machine} {rep : Report}
    (h₀ : Machine.Starts 0 text {} stdin m₀) (hrep : m₀.Ends rep)
    (hending : rep.ending = .completed) :
    ∃ m₁, Machine.Starts 1 text {} stdin m₁ ∧
      ((∃ rep', m₁.Ends rep' ∧ rep'.ending = .completed ∧ rep'.state.SameResults rep.state) ↔
        ¬ m₁.MeetsIdleMove) := by
  obtain ⟨b, hb⟩ := h₀.parses
  obtain ⟨m₁, h₁⟩ := h₀.exists_of_level 1
  refine ⟨m₁, h₁, ?_⟩
  constructor
  · intro h hmeets
    obtain ⟨rep', hrep', hending', -⟩ := h
    exact h₁.not_completed_of_meetsIdleMove hmeets hrep' hending'
  · intro hmeets
    have hf : rep.ending.finish? = some .completed := by rw [hending]; rfl
    obtain ⟨n, r, hr, ⟨hrf, -, hs, hview⟩ | ⟨hidle, -⟩⟩ := fused_runs h₀ hb hrep hf
    · obtain ⟨rep', hrep', hf', hs', -, hview'⟩ := h₁.ends_of_finish? hb hr hrf
      exact ⟨rep', hrep', Ending.completed_of_finish? hf',
        .of_view hs' hs (hview'.trans hview.symm)⟩
    · exact absurd (h₁.meetsIdleMove_of_runs hb hr hidle) hmeets

/-- A loop that moves its cell to the right. -/
theorem fused_completes_iff_right :
    ∃ m₀ rep, Machine.Starts 0 ['+', '[', '-', '>', '+', '<', ']'] {} [] m₀ ∧ m₀.Ends rep ∧
      rep.ending = .completed ∧
      ∃ m₁, Machine.Starts 1 ['+', '[', '-', '>', '+', '<', ']'] {} [] m₁ ∧
        ((∃ rep', m₁.Ends rep' ∧ rep'.ending = .completed ∧ rep'.state.SameResults rep.state) ↔
          ¬ m₁.MeetsIdleMove) := by
  have hstart : ∃ m₀, Machine.Starts 0 ['+', '[', '-', '>', '+', '<', ']'] {} [] m₀ :=
    Machine.exists_starts rfl []
  have hreference : ∃ t, Reference.Ends false ['+', '[', '-', '>', '+', '<', ']'] []
      (Finish.stop .completed) t := ⟨_, ⟨20, rfl⟩⟩
  obtain ⟨m₀, h₀⟩ := hstart
  obtain ⟨t, ht⟩ := hreference
  obtain ⟨rep, hrep, hending, -⟩ := h₀.ends_of_reference ht
  have hcompleted := Ending.completed_of_finish? hending
  exact ⟨m₀, rep, h₀, hrep, hcompleted, fused_completes_iff h₀ hrep hcompleted⟩

/-- A loop over a zero cell does nothing, while the move in its place looks for the cell left of
the first one. -/
theorem not_forall_fused_completes :
    ¬ ∀ (text : List Char) (stdin : List UInt8) (m₀ m₁ : Machine) (rep : Report),
      Machine.Starts 0 text {} stdin m₀ → Machine.Starts 1 text {} stdin m₁ →
        m₀.Ends rep → rep.ending = .completed →
          ∃ rep', m₁.Ends rep' ∧ rep'.ending = .completed ∧
            rep'.state.SameResults rep.state := by
  intro hall
  have hstart : ∃ m₀, Machine.Starts 0 ['[', '-', '<', '+', '>', ']'] {} [] m₀ :=
    Machine.exists_starts rfl []
  have hreference : ∃ t, Reference.Ends false ['[', '-', '<', '+', '>', ']'] []
      (Finish.stop .completed) t := ⟨_, ⟨20, rfl⟩⟩
  obtain ⟨m₀, h₀⟩ := hstart
  obtain ⟨m₁, h₁⟩ := h₀.exists_of_level 1
  obtain ⟨t, ht⟩ := hreference
  obtain ⟨rep, hrep, hending, -⟩ := h₀.ends_of_reference ht
  obtain ⟨rep', hrep', hcompleted, -⟩ :=
    hall _ _ m₀ m₁ rep h₀ h₁ hrep (Ending.completed_of_finish? hending)
  -- the whole program is one move to the left
  have hmove : (View.start []).act false ⟨.add, -1⟩ = none := rfl
  have hstuck : ((Block.nil.step ⟨.add, -1⟩).runs false) (View.start []) 0
      (.stuck ⟨.add, -1⟩ (View.start [])) :=
    .both (m := 0) (n := 0) ⟨rfl, rfl⟩ (.stuck hmove)
  have hidle : (Result.stuck ⟨.add, -1⟩ (View.start [])).IsIdleMove :=
    ⟨_, _, rfl, .inl rfl, rfl, by decide⟩
  have hmeets := h₁.meetsIdleMove_of_runs (b := .loop .nil ((countFirst 1 (-1)).foldl .step .nil))
    rfl hstuck hidle
  exact h₁.not_completed_of_meetsIdleMove hmeets hrep' hcompleted

/-- **Fusing makes no other program** exactly if the run of the unfused code enters no loop that
never ends. -/
theorem unfused_completes_iff {text : List Char} {stdin : List UInt8} {m₁ : Machine} {rep : Report}
    (h₁ : Machine.Starts 1 text {} stdin m₁) (hrep : m₁.Ends rep)
    (hending : rep.ending = .completed) :
    ∃ m₀, Machine.Starts 0 text {} stdin m₀ ∧
      ((∃ rep', m₀.Ends rep' ∧ rep'.ending = .completed ∧ rep'.state.SameResults rep.state) ↔
        ¬ m₀.EntersTrap) := by
  obtain ⟨b, hb⟩ := h₁.parses
  obtain ⟨m₀, h₀⟩ := h₁.exists_of_level 0
  refine ⟨m₀, h₀, ?_⟩
  constructor
  · intro h htrap
    obtain ⟨rep', hrep', -⟩ := h
    exact h₀.not_ends_of_entersTrap rfl htrap hrep'
  · intro htrap
    have hf : rep.ending.finish? = some .completed := by rw [hending]; rfl
    obtain ⟨n, r, hr, ⟨hrf, hs, hview⟩ | hspins⟩ := unfused_runs h₁ rfl hb hrep hf
    · obtain ⟨rep', hrep', hf', hs', -, hview'⟩ := h₀.ends_of_finish? hb hr hrf
      exact ⟨rep', hrep', Ending.completed_of_finish? hf',
        .of_view hs' hs (hview'.trans hview.symm)⟩
    · exact absurd (h₀.entersTrap_of_runs hb hr hspins) htrap

/-- A loop that counts down by one. -/
theorem unfused_completes_iff_one :
    ∃ m₁ rep, Machine.Starts 1 ['[', '-', ']'] {} [] m₁ ∧ m₁.Ends rep ∧ rep.ending = .completed ∧
      ∃ m₀, Machine.Starts 0 ['[', '-', ']'] {} [] m₀ ∧
        ((∃ rep', m₀.Ends rep' ∧ rep'.ending = .completed ∧ rep'.state.SameResults rep.state) ↔
          ¬ m₀.EntersTrap) := by
  have hstart : ∃ m₁, Machine.Starts 1 ['[', '-', ']'] {} [] m₁ := Machine.exists_starts rfl []
  obtain ⟨m₁, h₁⟩ := hstart
  have hruns : (Block.nil.step ⟨.clear, 0⟩).runs false (View.start []) 1
      (.done ((View.start []).put 0 0)) :=
    Block.runs_step_done.2 ⟨0, _, rfl, Block.runs_nil_done.2 ⟨rfl, rfl⟩, rfl⟩
  obtain ⟨rep, hrep, hending, -⟩ := h₁.ends_of_finish?
    (b := .loop .nil (.step .nil ⟨.modify, -1⟩)) rfl hruns rfl
  have hcompleted := Ending.completed_of_finish? hending
  exact ⟨m₁, rep, h₁, hrep, hcompleted, unfused_completes_iff h₁ hrep hcompleted⟩

/-- Counting down by two from one never ends, while the cell is simply cleared in its place. -/
theorem not_forall_unfused_completes :
    ¬ ∀ (text : List Char) (stdin : List UInt8) (m₀ m₁ : Machine) (rep : Report),
      Machine.Starts 0 text {} stdin m₀ → Machine.Starts 1 text {} stdin m₁ →
        m₁.Ends rep → rep.ending = .completed →
          ∃ rep', m₀.Ends rep' ∧ rep'.ending = .completed ∧
            rep'.state.SameResults rep.state := by
  intro hall
  have hstart : ∃ m₁, Machine.Starts 1 ['+', '[', '-', '-', ']'] {} [] m₁ :=
    Machine.exists_starts rfl []
  obtain ⟨m₁, h₁⟩ := hstart
  obtain ⟨m₀, h₀⟩ := h₁.exists_of_level 0
  have hone : (Block.nil.step ⟨.modify, 1⟩).runs false (View.start []) 1
      (.done ((View.start []).put 0 1)) :=
    runs_modify_done.2 ⟨rfl, rfl⟩
  have hfused : ((Block.nil.step ⟨.modify, 1⟩).step ⟨.clear, 0⟩).runs false (View.start []) 2
      (.done (((View.start []).put 0 1).put 0 0)) :=
    Block.runs_step_done.2 ⟨1, _, rfl, hone, rfl⟩
  have htrap : Traps (-2) ((View.start []).put 0 1).cell := by
    unfold Traps
    decide
  have hspins : (Block.loop (.step .nil ⟨.modify, 1⟩) (.step .nil ⟨.modify, -2⟩)).runs false
      (View.start []) 1 (.spins (-2) ((View.start []).put 0 1)) :=
    .both (m := 1) (n := 0) hone (.spin rfl rfl htrap)
  have hparse : parse? ['+', '[', '-', '-', ']']
      = some (.loop (.step .nil ⟨.modify, 1⟩)
        (.step (.step .nil ⟨.modify, -1⟩) ⟨.modify, -1⟩)) := rfl
  obtain ⟨rep, hrep, hending, -⟩ := h₁.ends_of_finish? hparse hfused rfl
  obtain ⟨rep', hrep', -⟩ := hall _ _ m₀ m₁ rep h₀ h₁ hrep (Ending.completed_of_finish? hending)
  exact h₀.not_ends_of_entersTrap rfl (h₀.entersTrap_of_runs hparse hspins ⟨_, _, rfl⟩) hrep'

/-- **The two levels** come to the same, with these exceptions. -/
theorem levels_relate {text : List Char} {options : Options} {stdin : List UInt8} {m₀ : Machine}
    (h₀ : Machine.Starts 0 text options stdin m₀) :
    ∃ m₁, Machine.Starts 1 text options stdin m₁ ∧
      (∀ (f : Finish) (rep : Report), m₀.Ends rep → rep.ending.finish? = some f →
        ∃ rep', m₁.Ends rep' ∧
          (rep'.ending.finish? = some f ∧ rep'.state.SameResults rep.state ∧
              rep'.state.steps ≤ rep.state.steps ∨
            m₁.StopsAtIdleMove rep' ∧
              rep'.state.output.written.toList <+: rep.state.output.written.toList)) ∧
      (options.allowOverflows = true → OddLoops text →
        ∀ (f : Finish) (rep : Report), m₁.Ends rep → rep.ending.finish? = some f →
          ∃ rep', m₀.Ends rep' ∧ rep'.ending.finish? = some f ∧
            rep'.state.SameResults rep.state) := by
  obtain ⟨b, hb⟩ := h₀.parses
  obtain ⟨m₁, h₁⟩ := h₀.exists_of_level 1
  refine ⟨m₁, h₁, ?_, ?_⟩
  · intro f rep hrep hf
    obtain ⟨n, r, hr, ⟨hrf, hn, hs, hview⟩ | ⟨hidle, hprinted⟩⟩ := fused_runs h₀ hb hrep hf
    · obtain ⟨rep', hrep', hf', hs', hn', hview'⟩ := h₁.ends_of_finish? hb hr hrf
      refine ⟨rep', hrep', .inl ⟨hf', .of_view hs' hs (hview'.trans hview.symm), ?_⟩⟩
      rw [hn']
      exact hn
    · obtain ⟨rep', hrep', htells⟩ := h₁.ends_of_runs hb hr hidle.not_spins
      obtain ⟨hstops, hview⟩ := htells.of_isIdleMove hidle
      rw [← hview] at hprinted
      exact ⟨rep', hrep', .inr ⟨hstops, hprinted⟩⟩
  · intro hwrap hodd f rep hrep hf
    obtain ⟨n, r, hr, ⟨hrf, hs, hview⟩ | hspins⟩ := unfused_runs h₁ hwrap hb hrep hf
    · obtain ⟨rep', hrep', hf', hs', -, hview'⟩ := h₀.ends_of_finish? hb hr hrf
      exact ⟨rep', hrep', hf', .of_view hs' hs (hview'.trans hview.symm)⟩
    · simp only [hwrap, Bool.not_true] at hr
      exact absurd hspins (not_spins_of_oddLoops hb hodd hr)

/-- The only loop counts down by one. -/
theorem oddLoops_clear : OddLoops ['+', '[', '-', ']'] := by
  intro before body behind amount htext hopen hclose hfold
  -- the only opening bracket is the second character, and the first closing one comes next
  have hbody : body = ['-'] := by
    rcases before with _ | ⟨a, _ | ⟨b, _ | ⟨c, _ | ⟨d, before⟩⟩⟩⟩ <;> simp at htext
    rcases body with _ | ⟨c, _ | ⟨d, body⟩⟩
    · simp at htext
    · simp at htext
      rw [htext.2.1]
    · simp at htext
  subst hbody
  cases hfold
  decide

/-- A cell that is cleared by a loop and by an instruction; an input that runs out at both levels;
and a loop that is skipped where the move in its place stops, behind the byte that both write. -/
theorem levels_relate_clear :
    (∃ m₀ m₁ rep rep', Machine.Starts 0 ['+', '[', '-', ']'] {} [] m₀ ∧
      Machine.Starts 1 ['+', '[', '-', ']'] {} [] m₁ ∧ m₀.Ends rep ∧ m₁.Ends rep' ∧
      rep.ending = .completed ∧ rep'.ending = .completed ∧ OddLoops ['+', '[', '-', ']'] ∧
      (∃ rep', m₁.Ends rep' ∧
        (rep'.ending.finish? = some .completed ∧ rep'.state.SameResults rep.state ∧
            rep'.state.steps ≤ rep.state.steps ∨
          m₁.StopsAtIdleMove rep' ∧
            rep'.state.output.written.toList <+: rep.state.output.written.toList)) ∧
      ∃ rep, m₀.Ends rep ∧ rep.ending.finish? = some .completed ∧
        rep.state.SameResults rep'.state) ∧
    (∃ m₀ m₁ rep rep', Machine.Starts 0 [','] {} [] m₀ ∧ Machine.Starts 1 [','] {} [] m₁ ∧
      m₀.Ends rep ∧ m₁.Ends rep' ∧ rep.ending.finish? = some .exhausted ∧
      rep'.ending.finish? = some .exhausted ∧ rep'.state.SameResults rep.state ∧
      rep'.state.steps ≤ rep.state.steps) ∧
    ∃ m₀ m₁ rep rep', Machine.Starts 0 ['.', '[', '-', '<', '+', '>', ']'] {} [] m₀ ∧
      Machine.Starts 1 ['.', '[', '-', '<', '+', '>', ']'] {} [] m₁ ∧ m₀.Ends rep ∧
      m₁.Ends rep' ∧ rep.ending = .completed ∧ m₁.StopsAtIdleMove rep' ∧
      rep'.state.output.written.toList <+: rep.state.output.written.toList := by
  refine ⟨?_, ?_, ?_⟩
  · have hstart : ∃ m₀, Machine.Starts 0 ['+', '[', '-', ']'] {} [] m₀ :=
      Machine.exists_starts rfl []
    have hreference : ∃ t, Reference.Ends false ['+', '[', '-', ']'] []
        (Finish.stop .completed) t := ⟨_, ⟨20, rfl⟩⟩
    have hfused : ((Block.nil.step ⟨.modify, 1⟩).step ⟨.clear, 0⟩).runs false (View.start []) 2
        (.done (((View.start []).put 0 1).put 0 0)) :=
      Block.runs_step_done.2 ⟨1, _, rfl, runs_modify_done.2 ⟨rfl, rfl⟩, rfl⟩
    obtain ⟨m₀, h₀⟩ := hstart
    obtain ⟨m₁, h₁, hdown, hup⟩ := levels_relate h₀
    obtain ⟨t, ht⟩ := hreference
    obtain ⟨rep, hrep, hending, -⟩ := h₀.ends_of_reference ht
    obtain ⟨rep', hrep', hending', -⟩ := h₁.ends_of_finish?
      (b := .loop (.step .nil ⟨.modify, 1⟩) (.step .nil ⟨.modify, -1⟩)) rfl hfused rfl
    exact ⟨m₀, m₁, rep, rep', h₀, h₁, hrep, hrep', Ending.completed_of_finish? hending,
      Ending.completed_of_finish? hending', oddLoops_clear, hdown .completed rep hrep hending,
      hup rfl oddLoops_clear .completed rep' hrep' hending'⟩
  · have hstart : ∃ m₀, Machine.Starts 0 [','] {} [] m₀ := Machine.exists_starts rfl []
    have hreference : ∃ t, Reference.Ends false [','] [] (Finish.stop .exhausted) t :=
      ⟨_, ⟨20, rfl⟩⟩
    have hread : (Block.nil.step ⟨.scan, 1⟩).runs false (View.start []) 0
        (.stuck ⟨.scan, 1⟩ (View.start [])) :=
      .both (m := 0) (n := 0) ⟨rfl, rfl⟩ (.stuck rfl)
    obtain ⟨m₀, h₀⟩ := hstart
    obtain ⟨m₁, h₁, hdown, -⟩ := levels_relate h₀
    obtain ⟨t, ht⟩ := hreference
    obtain ⟨rep, hrep, hending, -⟩ := h₀.ends_of_reference ht
    obtain ⟨rep', hrep', hending', -⟩ :=
      h₁.ends_of_finish? (b := .step .nil ⟨.scan, 1⟩) rfl hread rfl
    obtain ⟨rep₁, hrep₁, hcases⟩ := hdown .exhausted rep hrep hending
    obtain rfl : rep' = rep₁ := Machine.unique_of_stepwise h₁.engine_eq hrep' hrep₁
    rcases hcases with ⟨-, hsame, hsteps⟩ | ⟨⟨j, i, -, -, -, -, hstop⟩, -⟩
    · exact ⟨m₀, m₁, rep, rep', h₀, h₁, hrep, hrep', hending, hending', hsame, hsteps⟩
    · rw [hstop] at hending'
      cases hending'
  · have hstart : ∃ m₀, Machine.Starts 0 ['.', '[', '-', '<', '+', '>', ']'] {} [] m₀ :=
      Machine.exists_starts rfl []
    have hreference : ∃ t, Reference.Ends false ['.', '[', '-', '<', '+', '>', ']'] []
        (Finish.stop .completed) t := ⟨_, ⟨20, rfl⟩⟩
    have hprinted : ∃ v, (Block.nil.step ⟨.print, 1⟩).runs false (View.start []) 1 (.done v) ∧
        v.act false ⟨.add, -1⟩ = none ∧ v.cell = 0 ∧ v.pointer = 0 :=
      ⟨_, Block.runs_step_done.2 ⟨0, _, rfl, Block.runs_nil_done.2 ⟨rfl, rfl⟩, rfl⟩, rfl, rfl, rfl⟩
    obtain ⟨v, hprinted, hmove, hcell, hpointer⟩ := hprinted
    have hidle : ((Block.nil.step ⟨.print, 1⟩).step ⟨.add, -1⟩).runs false (View.start []) 1
        (.stuck ⟨.add, -1⟩ v) :=
      .both (m := 1) (n := 0) hprinted (.stuck hmove)
    obtain ⟨m₀, h₀⟩ := hstart
    obtain ⟨m₁, h₁, hdown, -⟩ := levels_relate h₀
    obtain ⟨t, ht⟩ := hreference
    obtain ⟨rep, hrep, hending, -⟩ := h₀.ends_of_reference ht
    obtain ⟨rep', hrep', hcases⟩ := hdown .completed rep hrep hending
    have hmeets := h₁.meetsIdleMove_of_runs
      (b := .loop (.step .nil ⟨.print, 1⟩) ((countFirst 1 (-1)).foldl .step .nil)) rfl hidle
      ⟨_, _, rfl, .inl rfl, hcell, by rw [hpointer]; decide⟩
    rcases hcases with ⟨hdone, -⟩ | ⟨hstops, hprefix⟩
    · exact absurd (Ending.completed_of_finish? hdone)
        (h₁.not_completed_of_meetsIdleMove hmeets hrep')
    · exact ⟨m₀, m₁, rep, rep', h₀, h₁, hrep, hrep', Ending.completed_of_finish? hending, hstops,
        hprefix⟩

end TapeLang
