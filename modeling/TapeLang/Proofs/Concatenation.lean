import TapeLang.Proofs.Emitting
import TapeLang.Proofs.Rejecting

/-!
# Texts one behind the other

A text that compiles leaves no bracket open, so that the text behind it is read as it is alone: its
block is laid behind the other (`parse?_append`), and what is to blame in it stays to blame, further
on (`Blames.behind`). Only the code at the seam may merge, and it does so as in folding the two
programs one behind the other (`Block.code_lowered_append`).
-/

set_option autoImplicit false

namespace TapeLang

namespace Block

/-- A block behind another one. -/
def append (b : Block) : Block → Block
  | nil => b
  | step b' i => (b.append b').step i
  | loop b' body => (b.append b').loop body

variable {level : Int} {b b' : Block}

theorem nil_append (b : Block) : nil.append b = b := by
  induction b with
  | nil => rfl
  | step b i ih => rw [append, ih]
  | loop b body ihb _ => rw [append, ihb]

theorem everyLoop_append {p : Block → Prop} :
    (b.append b').EveryLoop p ↔ b.EveryLoop p ∧ b'.EveryLoop p := by
  induction b' with
  | nil => exact (and_iff_left trivial).symm
  | step b' i ih => exact ih
  | loop b' body ihb _ => exact (and_congr_left fun _ => ihb).trans and_assoc

end Block

/-! ## Reading -/

/-- The commands of a block lead behind any block to the two together. -/
theorem Leads.of_block (b b' : Block) : Leads b'.commands b (b.append b') := by
  induction b' generalizing b with
  | nil => exact fun _ => rfl
  | step b' i ih => exact (ih b).append (.plain _ i)
  | loop b' body ihb ih =>
    have hbody : Leads body.commands .nil body := by simpa [Block.nil_append] using ih .nil
    simpa [Block.commands, Block.append] using (ihb b).append (hbody.loop _)

theorem parse?_append {x y : List Char} {b b' : Block} (hx : parse? x = some b)
    (hy : parse? y = some b') : parse? (x ++ y) = some (b.append b') := by
  have hleads : Leads (commandsOf (x ++ y)) .nil (b.append b') := by
    have hb : Leads b.commands .nil b := by simpa [Block.nil_append] using Leads.of_block .nil b
    rw [commandsOf_append, ← commands_of_parse? hx, ← commands_of_parse? hy]
    exact hb.append (.of_block b b')
  have hfold : (commandsOf (x ++ y)).foldlM Nest.take {} = some ⟨b.append b', []⟩ := hleads []
  rw [parse?, hfold]

/-! ## Lowering -/

namespace Block

variable {level : Int} {b b' : Block}

theorem isFolded_lowered (level : Int) (b : Block) : IsFolded (b.lowered level).code :=
  (b.folded_lowered level).isFolded

theorem code_lowered_step (level : Int) (b : Block) (i : Instruction) :
    ((b.step i).lowered level).code = TapeLang.fold ((b.lowered level).code ++ [i]) := by
  rw [lowered_step, fold_append, (b.isFolded_lowered level).fold_eq, List.foldl_cons,
    List.foldl_nil, ← code_push, List.reverse_reverse]

/-- A loop adds the same code to any block, which does not merge with what is before. -/
theorem exists_code_lowered_loop (level : Int) (body : Block) :
    ∃ z, IsFolded z ∧ (∀ first ∈ z.head?, first.kind.isFoldable = false) ∧
      ∀ b : Block, ((b.loop body).lowered level).code = (b.lowered level).code ++ z := by
  by_cases hfuse : 1 ≤ level ∧ ∃ i, fuse? (body.lowered level).code = some i
  · obtain ⟨hl, i, hi⟩ := hfuse
    have hk := isFoldable_of_fuse? hi
    refine ⟨[i], ⟨?_, .singleton i⟩, ?_, fun b => ?_⟩
    · simp [Instruction.isIdle, hk]
    · simpa using hk
    · rw [lowered_loop_fused hl hi, code]
  · have hnone : 1 ≤ level → fuse? (body.lowered level).code = none := by
      intro hl
      by_contra hne
      exact hfuse ⟨hl, Option.ne_none_iff_exists'.1 hne⟩
    have hloop : (nil.loop (body.lowered level)).Folded := ⟨trivial, body.folded_lowered level⟩
    refine ⟨wrapLoop (body.lowered level).code, hloop.isFolded, ?_, fun b => ?_⟩
    · simp [wrapLoop, Kind.isFoldable]
    · rw [lowered_loop_kept hnone, code]

/-- **Blocks one behind the other are lowered** one by one, and folded at the seam. -/
theorem code_lowered_append (level : Int) (b b' : Block) :
    ((b.append b').lowered level).code
      = TapeLang.fold ((b.lowered level).code ++ (b'.lowered level).code) := by
  induction b' with
  | nil =>
    rw [append, lowered_nil, code, List.append_nil, (b.isFolded_lowered level).fold_eq]
  | step b' i ih =>
    rw [append, code_lowered_step, ih, code_lowered_step, fold_append_fold, fold_fold_append,
      List.append_assoc]
  | loop b' body ihb _ =>
    obtain ⟨z, hz, hfirst, hcode⟩ := exists_code_lowered_loop level body
    rw [append, hcode, ihb, hcode, ← List.append_assoc, fold_append_of_apart hz hfirst]

end Block

/-! ## Blaming -/

theorem getElem?_behind (x y : List Char) (k : Nat) : (x ++ y)[x.length + k]? = y[k]? := by
  rw [List.getElem?_append_right (Nat.le_add_right ..), Nat.add_sub_cancel_left]

section
variable {x y : List Char} (hx : textBrackets.Nested x)
include hx

theorem pairs_behind_iff {j k : Nat} :
    textBrackets.Pairs (x ++ y) (x.length + j) (x.length + k) ↔ textBrackets.Pairs y j k := by
  refine ⟨fun h => ?_, fun h => h.prepend x⟩
  obtain ⟨j', hj, hpairs⟩ := hx.pairs_behind h
  rwa [Nat.add_left_cancel hj]

theorem Cancels.behind_iff {j k : Nat} :
    Cancels (x ++ y) (x.length + j) (x.length + k) ↔ Cancels y j k := by
  rw [Cancels, Cancels, Brackets.between_prepend, pairs_behind_iff hx]

theorem not_pairs_behind_iff {k : Nat} :
    (∀ j, ¬ textBrackets.Pairs (x ++ y) j (x.length + k)) ↔ ∀ j, ¬ textBrackets.Pairs y j k := by
  refine ⟨fun h j hp => h _ (hp.prepend x), fun h j hp => ?_⟩
  obtain ⟨j', -, hp⟩ := hx.pairs_behind hp
  exact h j' hp

theorem Culprit.behind_iff {k : Nat} : Culprit (x ++ y) (x.length + k) ↔ Culprit y k := by
  have hcancels : (∃ j, Cancels (x ++ y) j (x.length + k)) ↔ ∃ j, Cancels y j k := by
    refine ⟨fun ⟨j, h⟩ => ?_, fun ⟨j, h⟩ => ⟨_, (Cancels.behind_iff hx).2 h⟩⟩
    obtain ⟨j', rfl, -⟩ := hx.pairs_behind h.1
    exact ⟨j', (Cancels.behind_iff hx).1 h⟩
  rw [Culprit, Culprit, getElem?_behind, not_pairs_behind_iff hx, hcancels]

variable (hinnocent : ∀ k, ¬ Culprit x k)
include hinnocent

/-- Behind a text without a culprit, none comes before the first one of the other text. -/
theorem not_culprit_behind {n : Nat} (h : ∀ k < n, ¬ Culprit y k) :
    ∀ k < x.length + n, ¬ Culprit (x ++ y) k := by
  intro k hk hculprit
  rcases Nat.lt_or_ge k x.length with hlt | hge
  · exact hinnocent k (hculprit.of_append hlt)
  · obtain ⟨k, rfl⟩ := Nat.exists_eq_add_of_le hge
    exact h k (by omega) ((Culprit.behind_iff hx).1 hculprit)

/-- **What is to blame in a text stays to blame** behind a text that compiles. -/
theorem Blames.behind {e : SourceError} (h : Blames y e) :
    Blames (x ++ y) ⟨e.fault, e.position + x.length⟩ := by
  have hplace (k : Nat) : (k : Int) + x.length = (x.length + k : Nat) := by omega
  cases h with
  | @unopened k hk hopen hfirst =>
    rw [hplace]
    exact .unopened (by rw [getElem?_behind, hk]) ((not_pairs_behind_iff hx).2 hopen)
      (not_culprit_behind hx hinnocent hfirst)
  | @cancelling j k hcancels hfirst =>
    rw [hplace]
    exact .cancelling ((Cancels.behind_iff hx).2 hcancels) (not_culprit_behind hx hinnocent hfirst)
  | @unclosed j hj hclose hlast hnone =>
    rw [hplace]
    refine .unclosed (by rw [getElem?_behind, hj]) ?_ ?_ ?_
    · intro k hp
      have hjk := hp.lt
      obtain ⟨k, rfl⟩ : ∃ k', k = x.length + k' := Nat.exists_eq_add_of_le (by omega)
      exact hclose k ((pairs_behind_iff hx).1 hp)
    · intro j' hj' hget
      obtain ⟨j', rfl⟩ : ∃ i, j' = x.length + i := Nat.exists_eq_add_of_le (by omega)
      rw [getElem?_behind] at hget
      obtain ⟨k, hk⟩ := hlast j' (by omega) hget
      exact ⟨_, hk.prepend x⟩
    · intro k
      exact not_culprit_behind hx hinnocent (fun k _ => hnone k) k (Nat.le_add_left (k + 1) _)

end

/-! ## Compiling -/

/-- **Compiling two texts one behind the other**: if the first one compiles, the second one decides.
Either both programs are folded at the seam, or the blame is the same, that much further on. -/
theorem compile_append {level : Int} {x y : List Char} {c : Compilation}
    (hx : compile level x = .ok c) :
    (∀ d, compile level y = .ok d →
      ∃ e, compile level (x ++ y) = .ok e ∧ e.program = fold (c.program ++ d.program)) ∧
    ∀ r, compile level y = .error r →
      ∃ r', compile level (x ++ y) = .error r' ∧
        r'.error = ⟨r.error.fault, r.error.position + x.length⟩ := by
  constructor
  · intro d hy
    obtain ⟨b, hb, hbusy, hcode⟩ := compile_eq_ok hx
    obtain ⟨b', hb', hbusy', hcode'⟩ := compile_eq_ok hy
    have hparse := parse?_append hb hb'
    obtain ⟨e, he⟩ : ∃ e, compile level (x ++ y) = .ok e :=
      exists_compile_iff.2 ⟨_, hparse, Block.everyLoop_append.2 ⟨hbusy, hbusy'⟩⟩
    obtain ⟨b'', hb'', -, hcode''⟩ := compile_eq_ok he
    obtain rfl : b.append b' = b'' := Option.some_inj.1 (hparse.symm.trans hb'')
    refine ⟨e, he, ?_⟩
    rw [hcode'', Block.code_lowered_append, ← hcode, ← hcode']
  · intro r hy
    have hblames : Blames y r.error := compile_error_iff.1 ⟨r.count, hy⟩
    rcases compiles_or_blames level x with ⟨_, -, hnested, hinnocent⟩ | ⟨_, he, -⟩
    · obtain ⟨count, herror⟩ := compile_error_iff.2 (hblames.behind hnested hinnocent)
      exact ⟨_, herror, rfl⟩
    · rw [hx] at he
      cases he

/-- At this seam the last instructions of the first program disappear one after the other, up to a
loop; and a loop that is empty is found five characters later behind that text. -/
theorem compile_append_cancel :
    (∃ c d e, compile 1 ['[', '-', ']', '+', '>'] = .ok c ∧ compile 1 ['<', '-', '.'] = .ok d ∧
      compile 1 ['[', '-', ']', '+', '>', '<', '-', '.'] = .ok e ∧
      e.program = [⟨.clear, 0⟩, ⟨.print, 1⟩] ∧ e.program = fold (c.program ++ d.program)) ∧
    ∃ c r r', compile 1 ['[', '-', ']', '+', '>'] = .ok c ∧ compile 1 ['.', '[', ']'] = .error r ∧
      compile 1 ['[', '-', ']', '+', '>', '.', '[', ']'] = .error r' ∧
      r'.error = ⟨.emptyLoop, 6⟩ ∧ r'.error = ⟨r.error.fault, r.error.position + 5⟩ := by
  have hx : compile 1 ['[', '-', ']', '+', '>']
      = .ok ⟨[⟨.clear, 0⟩, ⟨.modify, 1⟩, ⟨.shift, 1⟩], ⟨1, 1⟩⟩ := rfl
  constructor
  · obtain ⟨e, he, hfold⟩ := (compile_append hx (y := ['<', '-', '.'])).1 _ rfl
    exact ⟨_, _, e, hx, rfl, he, hfold, hfold⟩
  · obtain ⟨r, hr, herror⟩ := (compile_append hx (y := ['.', '[', ']'])).2 _ rfl
    exact ⟨_, _, r, hx, rfl, hr, herror, herror⟩

end TapeLang
