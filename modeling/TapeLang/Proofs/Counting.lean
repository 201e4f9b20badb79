import TapeLang.Proofs.Lengths

/-!
# Nothing lost, nothing twice

Compilation merges commands and replaces loops, but every loop of the text stays one loop or becomes
one instruction, every read stays one, and the prints of the program write as often as those of the
text (`compile_tallies`). What is counted is a weight that folding keeps (`Weight.total_fold`); what
one character adds to the code is `Progress.Adds`.
-/

set_option autoImplicit false

namespace TapeLang

/-- How many instructions of the code are of a kind. -/
def countOf (kind : Kind) (code : List Instruction) : Nat := code.countP (·.kind == kind)

/-- How often the prints of the code write. -/
def printCount (code : List Instruction) : Int :=
  ((code.filter (·.kind == .print)).map (·.arg)).sum

/-- The instruction stands for a loop. -/
def Instruction.IsFused (i : Instruction) : Prop :=
  i.kind = .clear ∨ i.kind = .add ∨ i.kind = .sub

/-! ## Weights -/

/-- A number for every instruction that merging adds up and that changes and moves do not have. -/
structure Weight where
  of : Instruction → Int
  merge : ∀ {kind : Kind} (a c : Int), kind.isFoldable →
    of ⟨kind, a + c⟩ = of ⟨kind, a⟩ + of ⟨kind, c⟩
  silent : ∀ {i : Instruction}, i.kind = .modify ∨ i.kind = .shift → of i = 0

namespace Weight

/-- One for each instruction of a kind that does not merge. -/
def ofKind (kind : Kind) (hk : kind.isFoldable = false) : Weight where
  of i := if i.kind = kind then 1 else 0
  merge := by
    intro kind' a c hk'
    have hne : kind' ≠ kind := by
      rintro rfl
      simp [hk] at hk'
    simp [hne]
  silent := by
    intro i hi
    have hne : i.kind ≠ kind := by
      rintro rfl
      rcases hi with hi | hi <;> simp [hi, Kind.isFoldable] at hk
    simp [hne]

/-- The argument of each print. -/
def ofPrints : Weight where
  of i := if i.kind = .print then i.arg else 0
  merge := by
    intro kind a c _
    by_cases hk : kind = .print <;> simp [hk]
  silent := by
    intro i hi
    rcases hi with hi | hi <;> simp [hi]

variable (w : Weight) {code : List Instruction} {i : Instruction}

/-- The weight of all the code. -/
def total (code : List Instruction) : Int := (code.map w.of).sum

@[simp] theorem total_nil : w.total [] = 0 := rfl

@[simp] theorem total_cons (i : Instruction) (code : List Instruction) :
    w.total (i :: code) = w.of i + w.total code := by
  simp [total]

@[simp] theorem total_append (x y : List Instruction) :
    w.total (x ++ y) = w.total x + w.total y := by
  simp [total]

@[simp] theorem total_reverse (code : List Instruction) :
    w.total code.reverse = w.total code := by
  simp [total]

theorem total_ofKind (kind : Kind) (hk : kind.isFoldable = false) (code : List Instruction) :
    (ofKind kind hk).total code = countOf kind code := by
  induction code with
  | nil => rfl
  | cons i code ih =>
    rw [total_cons, ih, countOf, countOf, List.countP_cons, ofKind]
    by_cases hi : i.kind = kind <;> simp [hi, Int.add_comm]

theorem total_ofPrints (code : List Instruction) : ofPrints.total code = printCount code := by
  induction code with
  | nil => rfl
  | cons i code ih =>
    rw [total_cons, ih, printCount, printCount, List.filter_cons, ofPrints]
    by_cases hi : i.kind = .print <;> simp [hi]

/-! ## Folding -/

theorem of_idle (hi : i.isIdle) : w.of i = 0 := by
  obtain ⟨kind, arg⟩ := i
  simp only [Instruction.isIdle, Bool.and_eq_true, beq_iff_eq] at hi
  obtain ⟨hk, rfl⟩ := hi
  have hmerge := w.merge 0 0 hk
  rw [Int.add_zero] at hmerge
  omega

theorem total_consUnlessIdle (i : Instruction) (code : List Instruction) :
    w.total (consUnlessIdle i code) = w.total code + w.of i := by
  unfold consUnlessIdle
  split
  · rename_i hi
    rw [w.of_idle hi, Int.add_zero]
  · rw [total_cons, Int.add_comm]

theorem total_push (code : List Instruction) (i : Instruction) :
    w.total (push code i) = w.total code + w.of i := by
  rcases push_cases code i with ⟨kind, a, c, older, rfl, rfl, hk, hpush⟩ | ⟨-, hpush⟩
  · rw [hpush, total_consUnlessIdle, w.merge a c hk, total_cons]
    omega
  · rw [hpush, total_consUnlessIdle]

/-- Folding keeps the weight. -/
theorem total_fold (code : List Instruction) : w.total (fold code) = w.total code := by
  have hpush : ∀ older, w.total (code.foldl push older) = w.total older + w.total code := by
    induction code with
    | nil => simp
    | cons i code ih =>
      intro older
      rw [List.foldl_cons, ih, total_push, total_cons, Int.add_assoc]
  rw [fold, total_reverse, hpush, total_nil, Int.zero_add]

/-! ## Loops -/

theorem total_silent (h : ∀ j ∈ code, j.kind = .modify ∨ j.kind = .shift) : w.total code = 0 := by
  induction code with
  | nil => rfl
  | cons i code ih =>
    rw [total_cons, w.silent (h i List.mem_cons_self),
      ih fun j hj => h j (List.mem_cons_of_mem i hj), Int.add_zero]

theorem total_wrapLoop (body : List Instruction) :
    w.total (wrapLoop body) = w.total body
      + w.total [⟨.beginLoop, body.length + 1⟩, ⟨.endLoop, body.length + 1⟩] := by
  simp only [wrapLoop, List.cons_append, total_cons, total_append, total_nil]
  omega

end Weight

/-- What replaces a loop stands for it. -/
theorem isFused_of_fuse? {code : List Instruction} {i : Instruction} (h : fuse? code = some i) :
    i.IsFused := by
  obtain ⟨_, -, rfl⟩ | ⟨_, _, hmove, -⟩ := fuse?_eq_some h
  · exact .inl rfl
  · exact .inr hmove.kind_eq

section
variable {level : Int} {body code : List Instruction} {i : Instruction}

theorem lowerLoop_eq_fused (h : lowerLoop level body = .fused i) :
    1 ≤ level ∧ i.IsFused ∧ ∀ w : Weight, w.total body = 0 := by
  unfold lowerLoop at h
  split at h
  · split at h
    · cases h
    · split at h
      · rename_i hfuse
        cases h
        by_cases hlevel : 1 ≤ level
        · rw [if_pos hlevel] at hfuse
          refine ⟨hlevel, isFused_of_fuse? hfuse, fun w => ?_⟩
          rw [← w.total_fold, w.total_silent (silent_of_fuse? hfuse)]
        · rw [if_neg hlevel] at hfuse
          cases hfuse
      · cases h
  · cases h

theorem lowerLoop_eq_kept (h : lowerLoop level body = .kept code) :
    ∃ jump, ∀ w : Weight, w.total code
      = w.total body + w.total [⟨.beginLoop, jump⟩, ⟨.endLoop, jump⟩] := by
  unfold lowerLoop at h
  split at h
  · split at h
    · cases h
    · split at h
      · cases h
      · cases h
        exact ⟨_, fun w => by rw [w.total_wrapLoop, w.total_fold]⟩
  · cases h
    exact ⟨_, fun w => w.total_wrapLoop body⟩

end

/-! ## Accounts -/

/-- Code and counters account for a text: for its loops, apart from so many that are still open, for
what it reads and for what it writes. -/
structure Accounts (level : Int) (text : List Char) (code : List Instruction) (count : LoopCount)
    (pending : Int) : Prop where
  opened : count.loops + pending = text.count '['
  kept : count.loops = countOf .beginLoop code + count.fused
  fused : count.fused = countOf .clear code + countOf .add code + countOf .sub code
  unfused : level ≤ 0 → count.fused = 0
  ends : countOf .endLoop code = countOf .beginLoop code
  scans : countOf .scan code = text.count ','
  prints : printCount code = text.count '.'

namespace Accounts

variable {level : Int} {c : Char} {i : Instruction}

theorem nil (level : Int) : Accounts level [] [] {} 0 :=
  ⟨rfl, rfl, rfl, fun _ => rfl, rfl, rfl, rfl⟩

/-- Accounts for two texts add up to one for both, in whichever order their code stands. -/
theorem add {text text' : List Char} {code code' all : List Instruction} {count count' : LoopCount}
    {pending pending' : Int} (h : Accounts level text code count pending)
    (h' : Accounts level text' code' count' pending')
    (hall : ∀ w : Weight, w.total all = w.total code + w.total code') :
    Accounts level (text ++ text') all
      ⟨count.loops + count'.loops, count.fused + count'.fused⟩ (pending + pending') := by
  have hkind (kind : Kind) (hk : kind.isFoldable = false) :
      countOf kind all = countOf kind code + countOf kind code' := by
    have htotal := hall (.ofKind kind hk)
    simp only [Weight.total_ofKind] at htotal
    omega
  have hprints := hall .ofPrints
  simp only [Weight.total_ofPrints] at hprints
  obtain ⟨hopened, hkept, hfused, hunfused, hends, hscans, hprints₁⟩ := h
  obtain ⟨hopened', hkept', hfused', hunfused', hends', hscans', hprints'⟩ := h'
  constructor
  · simp only [List.count_append]
    omega
  · simp only [hkind .beginLoop rfl]
    omega
  · simp only [hkind .clear rfl, hkind .add rfl, hkind .sub rfl]
    omega
  · intro hlevel
    simp only [hunfused hlevel, hunfused' hlevel]
  · rw [hkind .endLoop rfl, hkind .beginLoop rfl, hends, hends']
  · rw [hkind .scan rfl, List.count_append, hscans, hscans']
  · rw [hprints, List.count_append, hprints₁, hprints']
    exact (Int.natCast_add _ _).symm

/-! ### Single characters -/

theorem comment (hc : Command.ofChar? c = none) : Accounts level [c] [] {} 0 := by
  have hne {d : Char} {command : Command} (hd : Command.ofChar? d = some command) :
      [c].count d = 0 := by
    rw [List.count_singleton, if_neg]
    rw [beq_iff_eq]
    rintro rfl
    rw [hc] at hd
    cases hd
  have hopen := hne (d := '[') rfl
  have hscan := hne (d := ',') rfl
  have hprint := hne (d := '.') rfl
  exact ⟨by rw [hopen]; rfl, rfl, rfl, fun _ => rfl, rfl, hscan.symm, by rw [hprint]; rfl⟩

theorem plain (hc : Command.ofChar? c = some (.plain i)) : Accounts level [c] [i] {} 0 := by
  unfold Command.ofChar? at hc
  split at hc <;> cases hc <;> exact ⟨rfl, rfl, rfl, fun _ => rfl, rfl, rfl, rfl⟩

theorem openLoop : Accounts level ['['] [] {} 1 :=
  ⟨rfl, rfl, rfl, fun _ => rfl, rfl, rfl, rfl⟩

theorem fusedLoop (hlevel : 1 ≤ level) (hi : i.IsFused) :
    Accounts level [']'] [i] ⟨1, 1⟩ (-1) := by
  have hunfused : ¬ level ≤ 0 := by omega
  obtain ⟨kind, arg⟩ := i
  rcases hi with rfl | rfl | rfl <;>
    exact ⟨rfl, rfl, rfl, fun h => absurd h hunfused, rfl, rfl, rfl⟩

theorem keptLoop (jump : Int) :
    Accounts level [']'] [⟨.beginLoop, jump⟩, ⟨.endLoop, jump⟩] ⟨1, 0⟩ (-1) :=
  ⟨rfl, rfl, rfl, fun _ => rfl, rfl, rfl, rfl⟩

end Accounts

/-! ## The pass over the text -/

namespace Progress

variable {level : Int} {p q : Progress} {c : Char} {read text : List Char}

/-- All the code so far, newest first. -/
def held (p : Progress) : List Instruction := p.code ++ p.frames.flatMap (·.before)

/-- The code and the counters account for the text that has been read. -/
def Tallies (level : Int) (read : List Char) (p : Progress) : Prop :=
  Accounts level read p.held p.count p.frames.length

theorem tallies_start (level : Int) : Tallies level [] {} := .nil level

theorem Tallies.close (h : p.Tallies level read) (hq : p.close level = .ok q) :
    q.Tallies level (read ++ [']']) := by
  obtain ⟨code, frames, position, count⟩ := p
  unfold Progress.close at hq
  cases frames with
  | nil => cases hq
  | cons frame outer =>
    simp only at hq
    have hpending : ((outer.length : Nat) : Int) = (frame :: outer).length + -1 := by simp
    split at hq
    · cases hq
    · rename_i i hlower
      cases hq
      obtain ⟨hlevel, hi, hbody⟩ := lowerLoop_eq_fused hlower
      -- the body that goes weighs nothing, so only the new instruction counts
      unfold Tallies
      simp only [hpending]
      refine h.add (.fusedLoop hlevel hi) fun w => ?_
      have hcode := hbody w
      simp only [held, List.flatMap_cons, Weight.total_append, Weight.total_cons,
        Weight.total_nil, Weight.total_reverse] at hcode ⊢
      omega
    · rename_i kept hlower
      cases hq
      obtain ⟨jump, hkept⟩ := lowerLoop_eq_kept hlower
      unfold Tallies
      simp only [hpending]
      refine h.add (.keptLoop jump) fun w => ?_
      have hcode := hkept w
      simp only [held, List.flatMap_cons, Weight.total_append, Weight.total_cons,
        Weight.total_nil, Weight.total_reverse] at hcode ⊢
      omega

theorem Tallies.step (h : p.Tallies level read) (hq : p.step level c = .ok q) :
    q.Tallies level (read ++ [c]) := by
  unfold Progress.step at hq
  cases hc : Command.ofChar? c with
  | none =>
    rw [hc] at hq
    cases hq
    exact h.add (.comment hc) fun w => (Int.add_zero _).symm
  | some command =>
    rw [hc] at hq
    cases command with
    | plain i =>
      cases hq
      refine h.add (.plain hc) fun w => ?_
      simp only [held, Weight.total_append, Weight.total_push, Weight.total_cons, Weight.total_nil]
      omega
    | openLoop =>
      cases hq
      obtain rfl := Command.ofChar?_eq_openLoop hc
      exact h.add .openLoop fun w => (Int.add_zero _).symm
    | closeLoop =>
      obtain rfl := Command.ofChar?_eq_closeLoop hc
      exact h.close hq

theorem Tallies.foldlM (h : p.Tallies level read)
    (hq : text.foldlM (Progress.step level) p = .ok q) : q.Tallies level (read ++ text) := by
  induction text generalizing p read with
  | nil =>
    cases hq
    rwa [List.append_nil]
  | cons c text ih =>
    rw [List.foldlM_cons] at hq
    cases hstep : p.step level c with
    | error e =>
      rw [hstep] at hq
      cases hq
    | ok p' =>
      rw [hstep] at hq
      rw [List.append_cons]
      exact ih (h.step hstep) hq

end Progress

section
variable {level : Int} {text : List Char} {c : Compilation}

/-- What a text compiles to accounts for it. -/
theorem accounts_of_compile (h : compile level text = .ok c) :
    Accounts level text c.program c.count 0 := by
  unfold compile at h
  cases hfold : text.foldlM (Progress.step level) {} with
  | error e =>
    rw [hfold] at h
    cases h
  | ok q =>
    rw [hfold] at h
    have htally := (Progress.tallies_start level).foldlM hfold
    replace h : q.finish = .ok c := h
    unfold Progress.finish at h
    split at h
    · rename_i hq
      cases h
      unfold Progress.Tallies at htally
      rw [hq] at htally
      have hall (w : Weight) : w.total q.code.reverse = w.total q.held + w.total [] := by
        simp [Progress.held, hq]
      simpa using htally.add (.nil level) hall
    · cases h

end

/-- **No command is lost and none is counted twice.** -/
theorem compile_tallies {level : Int} {text : List Char} {c : Compilation}
    (h : compile level text = .ok c) :
    c.count.loops = text.count '[' ∧
      c.count.loops = countOf .beginLoop c.program + countOf .clear c.program
        + countOf .add c.program + countOf .sub c.program ∧
      c.count.fused = countOf .clear c.program + countOf .add c.program + countOf .sub c.program ∧
      (level ≤ 0 → c.count.fused = 0) ∧
      countOf .endLoop c.program = countOf .beginLoop c.program ∧
      countOf .scan c.program = text.count ',' ∧
      printCount c.program = text.count '.' ∧
      c.program.length ≤ commandCount text := by
  obtain ⟨hopened, hkept, hfused, hunfused, hends, hscans, hprints⟩ := accounts_of_compile h
  exact ⟨by omega, by omega, hfused, hunfused, hends, hscans, hprints, length_program_le h⟩

/-- Two loops that are replaced, within one that stays and that reads and writes. -/
theorem compile_tallies_nested :
    ∃ (text : List Char) (c : Compilation),
      text = [',', '[', '>', '[', '-', ']', '<', '[', '-', '>', '+', '<', ']', '.', '.', ',', ']'] ∧
      compile 1 text = .ok c ∧ c.count = ⟨3, 2⟩ ∧
      c.count.loops = text.count '[' ∧
      c.count.loops = countOf .beginLoop c.program + countOf .clear c.program
        + countOf .add c.program + countOf .sub c.program ∧
      c.count.fused = countOf .clear c.program + countOf .add c.program + countOf .sub c.program ∧
      ((1 : Int) ≤ 0 → c.count.fused = 0) ∧
      countOf .endLoop c.program = countOf .beginLoop c.program ∧
      countOf .scan c.program = text.count ',' ∧
      printCount c.program = text.count '.' ∧
      c.program.length ≤ commandCount text := by
  have h : compile 1
      [',', '[', '>', '[', '-', ']', '<', '[', '-', '>', '+', '<', ']', '.', '.', ',', ']']
      = .ok ⟨[⟨.scan, 1⟩, ⟨.beginLoop, 7⟩, ⟨.shift, 1⟩, ⟨.clear, 0⟩, ⟨.shift, -1⟩, ⟨.add, 1⟩,
        ⟨.print, 2⟩, ⟨.scan, 1⟩, ⟨.endLoop, 7⟩], ⟨3, 2⟩⟩ := rfl
  exact ⟨_, _, rfl, h, rfl, compile_tallies h⟩

end TapeLang
