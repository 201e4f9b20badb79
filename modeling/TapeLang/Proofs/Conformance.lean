import TapeLang.Proofs.Interpreting
import TapeLang.Proofs.Reports

/-!
# Conformance of unfused code

Code that is folded and not fused does what the reference interpreter does. It may do more: where
folding has merged commands, the interpreter may move left of the first cell, or leave the range of
a checked cell, on a way that the code does not go.
-/

set_option autoImplicit false

namespace TapeLang

/-- The state has the output, pointer, cells and position in the input of the interpreter's. -/
structure State.Shows (s : State) (t : Reference.State) : Prop where
  output : s.output.written = t.output
  pointer : s.pointer = t.pointer
  nonzero : ∀ (place : Nat) (value : UInt8),
    (place, value) ∈ s.tape.nonzero ↔ value ≠ 0 ∧ t.cells place = value
  consumed : s.input.consumed = t.consumed

/-- The interpreter stops for the same reason. -/
def Finish.stop : Finish → Reference.Stop
  | .completed => .completed
  | .exhausted => .exhausted

theorem State.Shows.of_view {s : State} {t : Reference.State} (hs : s.Inside)
    (h : s.view = t.view) : s.Shows t where
  output := congrArg (·.output.written) h
  pointer := by rw [hs.pointer_eq, h]; rfl
  nonzero place value := by
    have hcell : s.tape.get place = t.cells place := congrFun (congrArg View.cells h) place
    rw [Tape.mem_nonzero_iff, hcell]
  consumed := congrArg (·.input.consumed) h

namespace Result

variable {r : Result} {f : Finish}

theorem stop_of_finish? (h : r.finish? = some f) : r.stop = f.stop := by
  cases r with
  | done v => cases h; rfl
  | stuck i v =>
    have hi : i.kind = .scan := isSettled_of_finish? h
    rw [finish?, if_pos hi, Option.some.injEq] at h
    subst h
    rw [stop, hi]
    rfl
  | spins amount v => cases h

theorem finish?_of_stop (h : r.stop = f.stop) : r.finish? = some f := by
  cases r with
  | done v =>
    cases f with
    | completed => rfl
    | exhausted => cases h
  | stuck i v =>
    obtain ⟨kind, arg⟩ := i
    cases f with
    | completed => cases kind <;> cases h
    | exhausted =>
      cases kind with
      | scan => rfl
      | _ => cases h
  | spins amount v => cases f <;> cases h

theorem Slips.stop_eq {checked : Bool} (h : r.Slips checked) :
    r.stop = .underflow ∨ checked ∧ r.stop = .overflow := by
  obtain ⟨i, v, rfl, hi | ⟨hchecked, hi⟩⟩ := h
  · exact .inl (by rw [stop, hi]; rfl)
  · exact .inr ⟨hchecked, by rw [stop, hi]; rfl⟩

end Result

section
variable {text : List Char} {options : Options} {stdin : List UInt8} {m : Machine} {f : Finish}

/-- What the interpreter comes to, unfused code comes to. -/
theorem Machine.Starts.ends_of_reference (h : Machine.Starts 0 text options stdin m)
    {t : Reference.State}
    (ht : Reference.Ends (!options.allowOverflows) text stdin f.stop t) :
    ∃ rep, m.Ends rep ∧ rep.ending.finish? = some f ∧ rep.state.Shows t := by
  obtain ⟨b, hb⟩ := h.parses
  obtain ⟨n, r, hr, -, hstop, hview⟩ := Reference.runs_of_ends hb ht
  have hf := Result.finish?_of_stop hstop
  have hfold := Block.fold_follows (isPlain_of_parse? hb) hr
    (.inl (Result.isSettled_of_finish? hf))
  obtain ⟨n', x, hx, -, rfl | ⟨hfalse, -⟩⟩ := hfold
  · obtain ⟨rep, hends, hending, hs, -, hstate⟩ := h.ends_of_finish? hb hx hf
    exact ⟨rep, hends, hending, .of_view hs (hstate.trans hview)⟩
  · exact hfalse.elim

/-- What unfused code comes to, the interpreter comes to, or it slips. -/
theorem Machine.Starts.reference_of_ends (h : Machine.Starts 0 text options stdin m)
    {rep : Report} (hrep : m.Ends rep) (hending : rep.ending.finish? = some f) :
    ∃ t stop, Reference.Ends (!options.allowOverflows) text stdin stop t ∧
      (stop = f.stop ∧ rep.state.Shows t ∨ stop = .underflow ∨
        options.allowOverflows = false ∧ stop = .overflow) := by
  obtain ⟨b, hb⟩ := h.parses
  obtain ⟨n, r, hr, hf, hs, -, hstate⟩ := h.runs_of_finish? hb hrep hending
  have hfold := Block.follows_fold (isPlain_of_parse? hb) hr
    (.inl (Result.isSettled_of_finish? hf))
  obtain ⟨n', x, hx, -, rfl | ⟨hslips, -⟩⟩ := hfold
  · obtain ⟨t, ht, hview⟩ := Reference.ends_of_runs hb hx (Result.not_spins_of_finish? hf)
    exact ⟨t, _, ht, .inl ⟨Result.stop_of_finish? hf, .of_view hs (hstate.trans hview.symm)⟩⟩
  · obtain ⟨t, ht, -⟩ := Reference.ends_of_runs hb hx hslips.not_spins
    rcases hslips.stop_eq with hstop | ⟨hchecked, hstop⟩
    · exact ⟨t, _, ht, .inr (.inl hstop)⟩
    · exact ⟨t, _, ht, .inr (.inr ⟨by simpa using hchecked, hstop⟩)⟩

end

/-- **Unfused code does what the interpreter does**, whether the run is completed or lacks input,
unless the interpreter slips on a way that merged commands do not go. -/
theorem unfused_conforms {text : List Char} {options : Options} {stdin : List UInt8} {m : Machine}
    (h : Machine.Starts 0 text options stdin m) :
    (∀ (f : Finish) (t : Reference.State),
      Reference.Ends (!options.allowOverflows) text stdin f.stop t →
        ∃ rep, m.Ends rep ∧ rep.ending.finish? = some f ∧ rep.state.Shows t) ∧
    ∀ (f : Finish) (rep : Report), m.Ends rep → rep.ending.finish? = some f →
      (∃ t, Reference.Ends (!options.allowOverflows) text stdin f.stop t ∧ rep.state.Shows t) ∨
      (∃ t, Reference.Ends (!options.allowOverflows) text stdin .underflow t) ∨
      options.allowOverflows = false ∧
        ∃ t, Reference.Ends (!options.allowOverflows) text stdin .overflow t := by
  refine ⟨fun f t ht => h.ends_of_reference ht, fun f rep hrep hending => ?_⟩
  obtain ⟨t, stop, ht, ⟨rfl, hshows⟩ | rfl | ⟨hchecked, rfl⟩⟩ := h.reference_of_ends hrep hending
  · exact .inl ⟨t, ht, hshows⟩
  · exact .inr (.inl ⟨t, ht⟩)
  · exact .inr (.inr ⟨hchecked, t, ht⟩)

/-- A loop that prints its cell and counts it down. -/
theorem unfused_conforms_countdown :
    ∃ m rep, Machine.Starts 0 ['+', '+', '[', '.', '-', ']'] {} [] m ∧ m.Ends rep ∧
      rep.ending = .completed ∧ rep.state.output.written = #[2, 1] := by
  have hcompile : ∃ c, compile 0 ['+', '+', '[', '.', '-', ']'] = .ok c := ⟨_, rfl⟩
  have hreference : ∃ t, Reference.Ends false ['+', '+', '[', '.', '-', ']'] [] .completed t ∧
      t.output = #[2, 1] := ⟨_, ⟨20, rfl⟩, rfl⟩
  obtain ⟨c, hc⟩ := hcompile
  obtain ⟨m, hm⟩ := Machine.exists_starts hc []
  obtain ⟨t, ht, houtput⟩ := hreference
  obtain ⟨rep, hrep, hending, hshows⟩ := (unfused_conforms hm).1 .completed t ht
  exact ⟨m, rep, hm, hrep, Ending.completed_of_finish? hending, hshows.output.trans houtput⟩

end TapeLang
