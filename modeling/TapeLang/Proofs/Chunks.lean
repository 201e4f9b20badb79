import TapeLang.Proofs.Failing

/-!
# The size of chunks does not show

Tapes that grow by different chunks have different lengths at almost every step of a run. As what a
tape does not have counts as zero, two states can show the same view all the same (`State.Alike`).
An instruction acts on views, and its errors name nothing but what they show, so that it keeps
states alike whether it succeeds or fails (`Stepwise.relates_execute`). Only where the memory has no
room for a longer tape (`Walk.WantsRoom`) do the lengths of the tapes matter, and how much memory
there is.
-/

set_option autoImplicit false

namespace TapeLang

/-- The walk ends here, as an instruction needs a longer tape than there is room for. -/
def Walk.WantsRoom (take : Int × State → Batch.Resumption) (c : Int × State) : Prop :=
  ∃ error, c.2.memory.refusal? error.cells = some error ∧
    take c = .ended (.failed (.noRoom error)) c.2

/-- Two states differ in the lengths of their tapes and in their memories only. -/
structure State.Alike (s t : State) : Prop where
  left : s.Inside
  right : t.Inside
  view : s.view = t.view
  steps : s.steps = t.steps

namespace State.Alike

variable {s t : State} (h : s.Alike t)
include h

theorem pointer : s.pointer = t.pointer := by
  rw [h.left.pointer_eq, h.right.pointer_eq, h.view]

theorem input : s.input = t.input := congrArg View.input h.view

theorem output : s.output = t.output := congrArg View.output h.view

theorem sameResults : s.SameResults t := .of_view h.left h.right h.view

theorem tick : s.tick.Alike t.tick := ⟨h.left, h.right, h.view, congrArg (· + 1) h.steps⟩

theorem extend (index : Int) :
    State.Alike { s with tape := s.tape.extend index } { t with tape := t.tape.extend index } where
  left := h.left.extend index
  right := h.right.extend index
  view := by rw [s.view_extend, t.view_extend, h.view]
  steps := h.steps

theorem withInput (input : Input) : State.Alike { s with input } { t with input } where
  left := h.left
  right := h.right
  view := congrArg (fun v : View => { v with input }) h.view
  steps := h.steps

theorem withOutput (output : Output) : State.Alike { s with output } { t with output } where
  left := h.left
  right := h.right
  view := congrArg (fun v : View => { v with output }) h.view
  steps := h.steps

end State.Alike

/-! ## Instructions -/

namespace Stepwise

variable {s t : State} {checked : Bool} {i : Instruction} {index : Int} {f : Failure}

/-- An instruction for which there is room fails alike in states that are alike. -/
theorem fails_of_alike (h : s.Alike t) (hs : i.refusal? s = none) (ht : i.refusal? t = none)
    (hfails : i.Fails checked index s f) :
    ∃ u, i.Fails checked index t ⟨f.error, u⟩ ∧ f.state.Alike u := by
  have hpointer := h.pointer
  have hinput := h.input
  have houtput := h.output
  have hview := h.view
  cases hfails with
  | underflow hkind hneg =>
    refine ⟨t, ?_, h⟩
    rw [hpointer] at hneg ⊢
    exact .underflow hkind hneg
  | noRoom hrefused =>
    rw [hs] at hrefused
    cases hrefused
  | @overflow cell value _ hchecked hresult h₀ hbyte =>
    refine ⟨{ t with tape := t.tape.extend cell }, ?_, h.extend cell⟩
    rw [hpointer]
    exact .overflow ht hchecked (hview ▸ hresult) h₀ hbyte
  | @exhausted input hkind hread =>
    refine ⟨{ t with input }, ?_, h.withInput input⟩
    rw [hpointer]
    exact .exhausted hkind (hinput ▸ hread)
  | unread hkind hread => exact ⟨t, .unread hkind (hinput ▸ hread), h⟩
  | closed hkind hclosed =>
    rw [houtput, hview] at hclosed ⊢
    exact ⟨_, .closed hkind hclosed, h.withOutput _⟩

/-- **An instruction keeps states alike**, and fails in both or in neither, if there is room for
it. -/
theorem relates_execute (h : s.Alike t) (hroom : i.refusal? s = none)
    (hroom' : i.refusal? t = none) :
    Walk.Relates State.Alike (execute checked i index s).resumption
      (execute checked i index t).resumption := by
  by_cases hloop : i.kind.isLoop = false
  · cases hact : s.view.act checked i with
    | some w =>
      obtain ⟨s', hs, hinside, hview⟩ := execute_of_act index hloop h.left hroom hact
      obtain ⟨t', ht, hinside', hview'⟩ := execute_of_act index hloop h.right hroom' (h.view ▸ hact)
      have hsteps : s'.steps = t'.steps := by
        rw [steps_of_execute hs, steps_of_execute ht, h.steps]
      rw [hs, ht]
      exact .resume ⟨hinside, hinside', hview.trans hview'.symm, hsteps⟩
    | none =>
      obtain ⟨error, s', hs⟩ := execute_of_act_eq_none index hloop h.left hact
      obtain ⟨t', hfails, halike⟩ :=
        fails_of_alike h hroom hroom' (fails_of_execute h.left (f := ⟨error, s'⟩) hs)
      rw [hs, execute_of_fails h.right hfails]
      exact .ended halike
  · obtain ⟨kind, arg⟩ := i
    cases kind with
    | beginLoop =>
      rw [execute_beginLoop h.left, execute_beginLoop h.right, h.view]
      exact .resume h.tick
    | endLoop =>
      rw [execute_endLoop h.left, execute_endLoop h.right, h.view]
      exact .resume h.tick
    | _ => exact absurd rfl hloop

theorem wantsRoom_of_refusal? {program : Array Instruction} {options : Options} {error : RoomError}
    (hsize : ¬ (program.size : Int) ≤ index) (hlimit : limitReached? options s = none)
    (hi : Batch.fetch? program index = some i) (h : i.refusal? s = some error) :
    Walk.WantsRoom (take program options) (index, s) := by
  refine ⟨error, ?_, ?_⟩
  · obtain ⟨target, -, hrefused⟩ := Option.bind_eq_some_iff.1 h
    exact Tape.refusal?_cells hrefused
  · unfold take
    rw [step_eq_of_fetch?, if_neg hsize, hlimit, hi]
    simp only [execute_of_refusal? h]
    rfl

/-- The engine makes the same of an instruction in states that are alike, or there is no room for it
in one of them. -/
theorem relates_take (program : Array Instruction) (options : Options) (h : s.Alike t) :
    Walk.Relates State.Alike (take program options (index, s)) (take program options (index, t)) ∨
      Walk.WantsRoom (take program options) (index, s) ∨
      Walk.WantsRoom (take program options) (index, t) := by
  have hlimit : limitReached? options s = limitReached? options t := by
    unfold limitReached?
    rw [h.steps]
  have htake (u : State) := congrArg Outcome.resumption (step_eq_of_fetch? program options index u)
  simp only [show ∀ u, take program options (index, u)
    = (step program options index u).resumption from fun _ => rfl, htake, hlimit]
  by_cases hsize : (program.size : Int) ≤ index
  · simp only [if_pos hsize]
    exact .inl (.ended h)
  · simp only [if_neg hsize]
    cases hreached : limitReached? options t with
    | some limit =>
      simp only [h.pointer]
      exact .inl (.ended h)
    | none =>
      cases hi : Batch.fetch? program index with
      | none => exact .inl (.ended h)
      | some i =>
        cases hroom : i.refusal? s with
        | some error => exact .inr (.inl (wantsRoom_of_refusal? hsize (hlimit ▸ hreached) hi hroom))
        | none =>
          cases hroom' : i.refusal? t with
          | some error => exact .inr (.inr (wantsRoom_of_refusal? hsize hreached hi hroom'))
          | none => exact .inl (relates_execute h hroom hroom')

end Stepwise

/-! ## Machines -/

/-- Two runs come by one index after as many steps and with the same results, and there one of them
ends, as its tape cannot be grown in the memory. -/
def Machine.Parts (memory : Memory) (m m' : Machine) : Prop :=
  ∃ error n index s t, memory.refusal? error.cells = some error ∧
    m.after n = some (index, s) ∧ m'.after n = some (index, t) ∧ s.steps = t.steps ∧
    s.SameResults t ∧
    ((∃ events, m.Ends ⟨.failed (.noRoom error), s, events⟩) ∨
      ∃ events, m'.Ends ⟨.failed (.noRoom error), t, events⟩)

namespace Machine

section
variable {m m' : Machine} (hengine : m.options.engine = .stepwise)
  (hengine' : m'.options.engine = .stepwise)
  (hsame : Stepwise.take m'.program m'.options = Stepwise.take m.program m.options)
  (h : m.state.Alike m'.state)
include hengine hengine' hsame h

/-- **Two machines whose states are alike end alike**, or one of them wants room where both have
come. -/
theorem ends_of_alike {rep : Report} (hends : m.Ends rep) :
    (∃ rep', m'.Ends rep' ∧ rep.ending = rep'.ending ∧ rep.state.Alike rep'.state) ∨
      ∃ n index s t, m.after n = some (index, s) ∧ m'.after n = some (index, t) ∧ s.Alike t ∧
        (Walk.WantsRoom m.take (index, s) ∨ Walk.WantsRoom m'.take (index, t)) := by
  have htake := take_of_stepwise hengine
  have htake' := (take_of_stepwise hengine').trans hsame
  have hfits := fits_of_stepwise hengine h.left
  have hfits' := fits_of_stepwise hengine' h.right
  obtain ⟨n, hend⟩ := (ends_iff_walk hfits).1 ⟨rep.events, hends⟩
  rw [htake] at hend
  unfold after
  rw [htake, htake']
  rcases Walk.ends_relates (fun _ _ _ halike => Stepwise.relates_take m.program m.options halike)
    h hend with ⟨t, hend', halike⟩ | ⟨k, ⟨index, s⟩, t, hs, ht, halike, hwants⟩
  · rw [← htake'] at hend'
    obtain ⟨events, hends'⟩ := (ends_iff_walk hfits').2 ⟨n, hend'⟩
    exact .inl ⟨_, hends', rfl, halike⟩
  · exact .inr ⟨k, index, s, t, hs, ht, halike, hwants⟩

end

theorem Parts.symm {memory : Memory} {m m' : Machine} (h : m.Parts memory m') :
    m'.Parts memory m := by
  obtain ⟨error, n, index, s, t, hrefused, hs, ht, hsteps, hsame, hends⟩ := h
  exact ⟨error, n, index, t, s, hrefused, ht, hs, hsteps.symm, hsame.symm, hends.symm⟩

/-- Where a machine wants room, its run ends. -/
theorem ends_of_wantsRoom {m : Machine} (hengine : m.options.engine = .stepwise)
    (hs : m.state.Inside) {n : Nat} {c : Int × State} (hafter : m.after n = some c)
    (hwants : Walk.WantsRoom m.take c) :
    ∃ error events, m.state.memory.refusal? error.cells = some error ∧
      m.Ends ⟨.failed (.noRoom error), c.2, events⟩ := by
  obtain ⟨error, hrefused, htake⟩ := hwants
  obtain ⟨events, hends⟩ :=
    (ends_iff_walk (fits_of_stepwise hengine hs)).2 ⟨n, c, hafter, htake⟩
  unfold after at hafter
  rw [take_of_stepwise hengine, Stepwise.walk_next?] at hafter
  rw [Stepwise.memory_of_after hafter] at hrefused
  exact ⟨error, events, hrefused, hends⟩

end Machine

section
variable {program : Program} {options : Options} {input : Input} {output : Output}
  {memory : Memory} {m m' : Machine} {size size' : Int}
  (hm : Machine.new program { options with chunkSize := size } input output memory = .ok m)
  (hm' : Machine.new program { options with chunkSize := size' } input output memory = .ok m')
  (hengine : options.engine = .stepwise)
include hm hm' hengine

theorem Machine.ends_of_chunkSize {rep : Report} (hends : m.Ends rep) :
    (∃ rep', m'.Ends rep' ∧ rep.ending = rep'.ending ∧ rep.state.Alike rep'.state) ∨
      m.Parts memory m' := by
  obtain ⟨hprogram, hoptions, hs, hsteps, hview⟩ := Machine.new_eq_ok hm
  obtain ⟨hprogram', hoptions', hs', hsteps', hview'⟩ := Machine.new_eq_ok hm'
  have hstepwise : m.options.engine = .stepwise := hoptions ▸ hengine
  have hstepwise' : m'.options.engine = .stepwise := hoptions' ▸ hengine
  -- the engine does not look at the size of chunks
  have hsame : Stepwise.take m'.program m'.options = Stepwise.take m.program m.options := by
    rw [hprogram, hprogram', hoptions, hoptions']
    rfl
  have hstart : m.state.Alike m'.state :=
    ⟨hs, hs', hview.trans hview'.symm, hsteps.trans hsteps'.symm⟩
  rcases ends_of_alike hstepwise hstepwise' hsame hstart hends with
    hends' | ⟨n, index, s, t, hafter, hafter', halike, hwants⟩
  · exact .inl hends'
  refine .inr ?_
  rcases hwants with hwants | hwants
  · obtain ⟨error, events, hrefused, h⟩ := ends_of_wantsRoom hstepwise hs hafter hwants
    rw [memory_of_new hm] at hrefused
    exact ⟨error, n, index, s, t, hrefused, hafter, hafter', halike.steps, halike.sameResults,
      .inl ⟨events, h⟩⟩
  · obtain ⟨error, events, hrefused, h⟩ := ends_of_wantsRoom hstepwise' hs' hafter' hwants
    rw [memory_of_new hm'] at hrefused
    exact ⟨error, n, index, s, t, hrefused, hafter, hafter', halike.steps, halike.sameResults,
      .inr ⟨events, h⟩⟩

end

/-- **The size of chunks does not show**: two runs that differ in it only go on for ever, or end for
the same reason, after as many steps and with the same results. But where the memory has no room for
the tape of one of them, that one ends there, when the other one has come as far with the same
results. -/
theorem chunkSize_invisible {program : Program} {options : Options} {input : Input}
    {output : Output} {memory : Memory} {m m' : Machine} {size size' : Int}
    (hm : Machine.new program { options with chunkSize := size } input output memory = .ok m)
    (hm' : Machine.new program { options with chunkSize := size' } input output memory = .ok m')
    (hengine : options.engine = .stepwise) :
    ((¬ ∃ rep, m.Ends rep) ∧ ¬ ∃ rep, m'.Ends rep) ∨
      (∃ rep rep', m.Ends rep ∧ m'.Ends rep' ∧ rep.ending = rep'.ending ∧
        rep.state.steps = rep'.state.steps ∧ rep.state.SameResults rep'.state) ∨
      m.Parts memory m' := by
  by_cases h : ∃ rep, m.Ends rep
  · obtain ⟨rep, hends⟩ := h
    rcases Machine.ends_of_chunkSize hm hm' hengine hends with
      ⟨rep', hends', hending, halike⟩ | hparts
    · exact .inr (.inl ⟨rep, rep', hends, hends', hending, halike.steps, halike.sameResults⟩)
    · exact .inr (.inr hparts)
  · by_cases h' : ∃ rep', m'.Ends rep'
    · obtain ⟨rep', hends'⟩ := h'
      rcases Machine.ends_of_chunkSize hm' hm hengine hends' with ⟨rep, hends, -⟩ | hparts
      · exact absurd ⟨rep, hends⟩ h
      · exact .inr (.inr hparts.symm)
    · exact .inl ⟨h, h'⟩

/-- A move to the right for which one tape grows by three chunks and the other by none, and one that
leaves the tape. There is room for both tapes. -/
theorem chunkSize_invisible_underflow :
    ∃ m m' rep rep', Machine.new [⟨.shift, 3⟩, ⟨.modify, 7⟩, ⟨.print, 1⟩, ⟨.shift, -4⟩]
        { chunkSize := 1 } {} {} ⟨some 9⟩ = .ok m ∧
      Machine.new [⟨.shift, 3⟩, ⟨.modify, 7⟩, ⟨.print, 1⟩, ⟨.shift, -4⟩] { chunkSize := 5 } {} {}
        ⟨some 9⟩ = .ok m' ∧
      m.Ends rep ∧ m'.Ends rep' ∧ rep.ending = .failed (.tapeUnderflow (-1) ⟨3, 3⟩) ∧
      rep.state.output.written = #[7] ∧ rep.ending = rep'.ending ∧
      rep.state.steps = rep'.state.steps ∧ rep.state.SameResults rep'.state := by
  have hruns : ∃ m m' rep rep',
    Machine.new [⟨.shift, 3⟩, ⟨.modify, 7⟩, ⟨.print, 1⟩, ⟨.shift, -4⟩]
      { chunkSize := 1 } {} {} ⟨some 9⟩ = .ok m ∧
    Machine.new [⟨.shift, 3⟩, ⟨.modify, 7⟩, ⟨.print, 1⟩, ⟨.shift, -4⟩]
      { chunkSize := 5 } {} {} ⟨some 9⟩ = .ok m' ∧
    m.runFor 4 = rep ∧ rep.ending = .failed (.tapeUnderflow (-1) ⟨3, 3⟩) ∧
    rep.state.output.written = #[7] ∧
    m'.runFor 4 = rep' ∧ rep'.ending = .failed (.tapeUnderflow (-1) ⟨3, 3⟩) :=
    ⟨_, _, _, _, rfl, rfl, rfl, rfl, rfl, rfl, rfl⟩
  obtain ⟨m, m', rep, rep', hm, hm', hrun, hending, hwritten, hrun', hending'⟩ := hruns
  have hends : m.Ends rep := ⟨4, hrun, hending ▸ Ending.isFinal_failed _⟩
  have hends' : m'.Ends rep' := ⟨4, hrun', hending' ▸ Ending.isFinal_failed _⟩
  rcases @chunkSize_invisible _ {} _ _ _ m m' 1 5 hm hm' rfl with
    ⟨hendless, -⟩ | ⟨rep₁, rep₂, hends₁, hends₂, hsame⟩ |
      ⟨error, n, index, s, t, -, -, -, -, -, ⟨events, hends₁⟩ | ⟨events, hends₂⟩⟩
  · exact absurd ⟨rep, hends⟩ hendless
  · obtain ⟨hsame₁, hstate₁⟩ := Machine.ends_unique hm hends hends₁
    obtain ⟨hsame₂, hstate₂⟩ := Machine.ends_unique hm' hends' hends₂
    rw [← hsame₁, ← hstate₁, ← hsame₂, ← hstate₂] at hsame
    exact ⟨m, m', rep, rep', hm, hm', hends, hends', hending, hwritten, hsame⟩
  · obtain ⟨hsame, -⟩ := Machine.ends_unique hm hends hends₁
    rw [hending] at hsame
    cases hsame
  · obtain ⟨hsame, -⟩ := Machine.ends_unique hm' hends' hends₂
    rw [hending'] at hsame
    cases hsame

/-- Where there is no room for a tape, the size of chunks can be seen: the shortest one with a cell
may be longer than any array in one size and just too long for the memory in another. -/
theorem not_forall_chunkSize_invisible :
    ¬ ∀ (program : Program) (memory : Memory) (size size' : Int) (m m' : Machine),
      Machine.new program { chunkSize := size } {} {} memory = .ok m →
      Machine.new program { chunkSize := size' } {} {} memory = .ok m' →
      ((¬ ∃ rep, m.Ends rep) ∧ ¬ ∃ rep, m'.Ends rep) ∨
        ∃ rep rep', m.Ends rep ∧ m'.Ends rep' ∧ rep.ending = rep'.ending := by
  intro h
  have hruns : ∃ m m' rep rep',
    Machine.new [⟨.shift, wordBound⟩] { chunkSize := 1 } {} {} ⟨some 1000⟩ = .ok m ∧
    Machine.new [⟨.shift, wordBound⟩] { chunkSize := 3 } {} {} ⟨some 1000⟩ = .ok m' ∧
    m.runFor 1 = rep ∧ rep.ending = .failed (.noRoom ⟨.notAWord, 0x8000000000000000⟩) ∧
    m'.runFor 1 = rep' ∧ rep'.ending = .failed (.noRoom ⟨.outOfMemory, 0x7ffffffffffffffe⟩) :=
    ⟨_, _, _, _, rfl, rfl, rfl, rfl, rfl, rfl⟩
  obtain ⟨m, m', rep, rep', hm, hm', hrun, hending, hrun', hending'⟩ := hruns
  have hends : m.Ends rep := ⟨1, hrun, hending ▸ Ending.isFinal_failed _⟩
  have hends' : m'.Ends rep' := ⟨1, hrun', hending' ▸ Ending.isFinal_failed _⟩
  rcases h _ _ _ _ m m' hm hm' with ⟨hendless, -⟩ | ⟨rep₁, rep₂, hends₁, hends₂, hsame⟩
  · exact hendless ⟨rep, hends⟩
  · obtain ⟨hsame₁, -⟩ := Machine.ends_unique hm hends hends₁
    obtain ⟨hsame₂, -⟩ := Machine.ends_unique hm' hends' hends₂
    rw [← hsame₁, ← hsame₂, hending, hending'] at hsame
    cases hsame

end TapeLang
