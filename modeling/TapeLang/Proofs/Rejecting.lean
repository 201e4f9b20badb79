import TapeLang.Proofs.Brackets
import TapeLang.Proofs.Compiling
import TapeLang.Proofs.Reference

/-!
# Rejected texts

What is wrong with a text can be told from the text alone: `Blames text e` names the first closing
bracket that closes nothing, or closes a loop whose commands cancel out, and without one the last
bracket that is never closed. The compiler blames the same, whatever its level
(`compiles_or_blames`), and comments only move the position of the blame (`compile_codeOf`).
-/

set_option autoImplicit false

namespace TapeLang

/-- The two brackets of a text. -/
def textBrackets : Brackets Char where
  opens c := c == '['
  closes c := c == ']'
  closes_of_opens c h := by simp_all

open Brackets (between)

/-- A loop without brackets in it whose commands fold to nothing. -/
def Cancels (text : List Char) (j k : Nat) : Prop :=
  textBrackets.Pairs text j k ∧ (∀ c ∈ between text j k, c ≠ '[' ∧ c ≠ ']') ∧
    fold (instructionsOf (between text j k)) = []

/-- A closing bracket that closes nothing, or a loop that does nothing. -/
def Culprit (text : List Char) (k : Nat) : Prop :=
  text[k]? = some ']' ∧ ((∀ j, ¬ textBrackets.Pairs text j k) ∨ ∃ j, Cancels text j k)

/-- What is wrong with a text. -/
inductive Blames (text : List Char) : SourceError → Prop
  | unopened {k : Nat} : text[k]? = some ']' → (∀ j, ¬ textBrackets.Pairs text j k) →
      (∀ k' < k, ¬ Culprit text k') → Blames text ⟨.unmatched "]", k⟩
  | cancelling {j k : Nat} : Cancels text j k → (∀ k' < k, ¬ Culprit text k') →
      Blames text ⟨.emptyLoop, j⟩
  | unclosed {j : Nat} : text[j]? = some '[' → (∀ k, ¬ textBrackets.Pairs text j k) →
      (∀ j' > j, text[j']? = some '[' → ∃ k, textBrackets.Pairs text j' k) →
      (∀ k, ¬ Culprit text k) → Blames text ⟨.unmatched "[", j⟩

/-! ## One verdict -/

section
variable {text : List Char} {j k : Nat} {e e' : SourceError}

theorem Cancels.culprit (h : Cancels text j k) : Culprit text k := by
  obtain ⟨_, b, -, hk, -, hb, -⟩ := h.1
  obtain rfl : b = ']' := by simpa [textBrackets] using hb
  exact ⟨hk, .inr ⟨j, h⟩⟩

/-- The first culprit is one place. -/
theorem Culprit.unique {k' : Nat} (h : Culprit text k) (h' : Culprit text k')
    (hfirst : ∀ i < k, ¬ Culprit text i) (hfirst' : ∀ i < k', ¬ Culprit text i) : k = k' := by
  rcases Nat.lt_trichotomy k k' with hlt | heq | hlt
  · exact absurd h (hfirst' k hlt)
  · exact heq
  · exact absurd h' (hfirst k' hlt)

theorem Blames.unique (h : Blames text e) (h' : Blames text e') : e = e' := by
  cases h with
  | @unopened k hk hopen hfirst =>
    have hc : Culprit text k := ⟨hk, .inl hopen⟩
    cases h' with
    | unopened hk' hopen' hfirst' => rw [hc.unique ⟨hk', .inl hopen'⟩ hfirst hfirst']
    | cancelling hcancels hfirst' =>
      rw [hc.unique hcancels.culprit hfirst hfirst'] at hopen
      exact absurd hcancels.1 (hopen _)
    | unclosed _ _ _ hnone => exact absurd hc (hnone k)
  | @cancelling j k hcancels hfirst =>
    cases h' with
    | unopened hk' hopen' hfirst' =>
      rw [← hcancels.culprit.unique ⟨hk', .inl hopen'⟩ hfirst hfirst'] at hopen'
      exact absurd hcancels.1 (hopen' _)
    | cancelling hcancels' hfirst' =>
      have hk := hcancels.culprit.unique hcancels'.culprit hfirst hfirst'
      rw [hcancels.1.left_unique (hk ▸ hcancels'.1)]
    | unclosed _ _ _ hnone => exact absurd hcancels.culprit (hnone k)
  | @unclosed j hj hclose hlast hnone =>
    cases h' with
    | unopened hk' hopen' _ => exact absurd ⟨hk', .inl hopen'⟩ (hnone _)
    | cancelling hcancels' _ => exact absurd hcancels'.culprit (hnone _)
    | @unclosed j' hj' hclose' hlast' _ =>
      rcases Nat.lt_trichotomy j j' with hlt | rfl | hlt
      · obtain ⟨k, hk⟩ := hlast j' hlt hj'
        exact absurd hk (hclose' k)
      · rfl
      · obtain ⟨k, hk⟩ := hlast' j hlt hj
        exact absurd hk (hclose k)

/-- A text whose brackets match, without a loop that does nothing, is not to blame. -/
theorem Blames.not_nested (h : Blames text e) (hcancels : ∀ j k, ¬ Cancels text j k) :
    ¬ textBrackets.Nested text := by
  intro hn
  cases h with
  | unopened hk hopen _ =>
    obtain ⟨j, hj⟩ := hn.exists_open hk rfl
    exact hopen j hj
  | cancelling h _ => exact hcancels _ _ h
  | unclosed hj hclose _ _ =>
    obtain ⟨k, hk⟩ := hn.exists_close hj rfl
    exact hclose k hk

end

/-! ## Longer texts -/

section
variable {done rest : List Char} {j k : Nat}

theorem Culprit.of_append (h : Culprit (done ++ rest) k) (hk : k < done.length) :
    Culprit done k := by
  obtain ⟨hget, h⟩ := h
  rw [List.getElem?_append_left hk] at hget
  refine ⟨hget, h.imp (fun h j hj => h j (hj.append rest)) fun h => ?_⟩
  obtain ⟨j, hp, hcancels⟩ := h
  rw [Brackets.between_append (by omega)] at hcancels
  exact ⟨j, hp.of_append hk, hcancels⟩

/-- One more character is to blame itself, or nothing new is. -/
theorem Culprit.of_snoc {c : Char} (h : Culprit (done ++ [c]) k) (hdone : ¬ Culprit done k) :
    k = done.length ∧ c = ']' := by
  have hlt := (List.getElem?_eq_some_iff.1 h.1).1
  rw [List.length_append, List.length_singleton] at hlt
  rcases Nat.lt_or_ge k done.length with hk | hk
  · exact absurd (h.of_append hk) hdone
  · obtain rfl : k = done.length := by omega
    exact ⟨rfl, by simpa using h.1⟩

end

/-! ## Open loops -/

/-- The pieces of a text around the brackets that are open hold the blocks of a nest. -/
inductive Tracks : List Char → List Nat → Nest → Prop
  | whole {cs : List Char} {b : Block} : textBrackets.Nested cs → commandsOf cs = b.commands →
      Tracks cs [] ⟨b, []⟩
  | opened {done cs : List Char} {brackets : List Nat} {before b : Block} {outer : List Block} :
      Tracks done brackets ⟨before, outer⟩ → textBrackets.Nested cs →
      commandsOf cs = b.commands →
      Tracks (done ++ '[' :: cs) (done.length :: brackets) ⟨b, before :: outer⟩

/-- A block folds to nothing if and only if its text has no bracket and folds to nothing. -/
theorem fold_eq_nil_iff {cs : List Char} {b : Block} (h : commandsOf cs = b.commands) :
    b.fold = .nil ↔ (∀ c ∈ cs, c ≠ '[' ∧ c ≠ ']') ∧ fold (instructionsOf cs) = [] := by
  have hcode (hb : b.EveryLoop fun _ => False) : fold (instructionsOf cs) = b.fold.code := by
    rw [instructionsOf_eq_code h hb, Block.code_fold_of_loopless hb]
  constructor
  · intro hnil
    have hfolded : b.fold.EveryLoop fun _ => False := by
      rw [hnil]
      trivial
    have hb : b.EveryLoop fun _ => False := Block.everyLoop_fold.1 hfolded
    refine ⟨(loopless_iff h).1 hb, ?_⟩
    rw [hcode hb, hnil, Block.code]
  · rintro ⟨hplain, hnil⟩
    rwa [hcode ((loopless_iff h).2 hplain), Block.code_eq_nil_iff] at hnil

namespace Tracks

variable {done cs rest : List Char} {brackets : List Nat} {n k : Nat} {c : Char}
  {b b' before : Block} {outer : List Block}

theorem snoc (h : Tracks done brackets ⟨b, outer⟩) (hc : c ≠ '[' ∧ c ≠ ']')
    (hb : b'.commands = b.commands ++ (Command.ofChar? c).toList) :
    Tracks (done ++ [c]) brackets ⟨b', outer⟩ := by
  have hnested {cs : List Char} (hcs : textBrackets.Nested cs) :
      textBrackets.Nested (cs ++ [c]) :=
    hcs.snoc (by simp [textBrackets, hc.1]) (by simp [textBrackets, hc.2])
  have hcommands {cs : List Char} (hcs : commandsOf cs = b.commands) :
      commandsOf (cs ++ [c]) = b'.commands := by
    rw [commandsOf_append, hcs, hb, commandsOf_cons, commandsOf, List.filterMap_nil,
      List.append_nil]
  cases h with
  | whole hn hcs => exact .whole (hnested hn) (hcommands hcs)
  | opened h hn hcs =>
    rw [List.append_assoc, List.cons_append]
    exact .opened h (hnested hn) (hcommands hcs)

theorem close (h : Tracks done (n :: brackets) ⟨b, before :: outer⟩) :
    Tracks (done ++ [']']) brackets ⟨before.loop b, outer⟩ := by
  cases h with
  | @opened done cs _ _ _ _ h hn hcs =>
    have hnested {ds : List Char} (hds : textBrackets.Nested ds) :
        textBrackets.Nested (ds ++ '[' :: (cs ++ [']'])) := hds.wrap hn rfl rfl
    have hcommands {ds : List Char} (hds : commandsOf ds = before.commands) :
        commandsOf (ds ++ '[' :: (cs ++ [']'])) = (before.loop b).commands := by
      rw [commandsOf_append, hds, commandsOf_cons, commandsOf_append, hcs]
      simp [Block.commands, commandsOf, Command.ofChar?]
    rw [List.append_assoc, List.cons_append]
    cases h with
    | whole hn' hds => exact .whole (hnested hn') (hcommands hds)
    | opened h hn' hds =>
      rw [List.append_assoc, List.cons_append]
      exact .opened h (hnested hn') (hcommands hds)

/-- A closing bracket closes the innermost loop. -/
theorem pairs (h : Tracks done (n :: brackets) ⟨b, outer⟩) :
    textBrackets.Pairs (done ++ ']' :: rest) n done.length := by
  cases h with
  | @opened done cs _ _ _ _ h hn hcs =>
    have hp : textBrackets.Pairs (done ++ '[' :: (cs ++ ']' :: rest)) done.length
        (done.length + 1 + cs.length) := Brackets.Nested.pairs rfl hn rfl
    simpa [Nat.add_assoc, Nat.add_comm 1] using hp

theorem cancels_iff (h : Tracks done (n :: brackets) ⟨b, outer⟩) :
    Cancels (done ++ ']' :: rest) n done.length ↔ b.fold = .nil := by
  have hp : textBrackets.Pairs (done ++ ']' :: rest) n done.length := h.pairs
  cases h with
  | @opened done cs _ _ _ _ h hn hcs =>
    have hbetween : between (done ++ '[' :: cs ++ ']' :: rest) done.length
        (done ++ '[' :: cs).length = cs := by
      have hb : between (done ++ '[' :: (cs ++ ']' :: rest)) done.length
          (done.length + 1 + cs.length) = cs := Brackets.between_eq
      simpa [Nat.add_assoc, Nat.add_comm 1] using hb
    rw [fold_eq_nil_iff hcs, Cancels, hbetween]
    exact and_iff_right hp

theorem nested (h : Tracks done [] ⟨b, outer⟩) : textBrackets.Nested done := by
  cases h with
  | whole hn _ => exact hn

/-- The innermost bracket that is open is the last one without a partner. -/
theorem unclosed (h : Tracks done (n :: brackets) ⟨b, outer⟩) (hnone : ∀ k, ¬ Culprit done k) :
    Blames done ⟨.unmatched "[", n⟩ := by
  cases h with
  | @opened done cs _ _ _ _ h hn hcs =>
    refine .unclosed (by simp) (fun k => hn.not_pairs_right) (fun j hj hget => ?_) hnone
    obtain ⟨i, rfl⟩ := Nat.exists_eq_add_of_lt hj
    have hget' : cs[i]? = some '[' := by
      rw [List.getElem?_append_right (by omega),
        show done.length + i + 1 - done.length = i + 1 by omega] at hget
      exact hget
    obtain ⟨k, hk⟩ := hn.exists_close hget' rfl
    have hin := hk.inside done '[' []
    rw [List.append_nil, show done.length + 1 + i = done.length + i + 1 by omega] at hin
    exact ⟨_, hin⟩

end Tracks

/-! ## The pass over the text -/

/-- What the pass knows about the text that is done: its blocks, the brackets that are open, and
that nothing in it is to blame. -/
structure Progress.Covers (level : Int) (p : Progress) (done : List Char) (t : Nest) : Prop where
  reads : p.Reads level t
  tracks : Tracks done (p.frames.map (·.bracket)) t
  position : p.position = done.length
  innocent : ∀ k, ¬ Culprit done k

namespace Progress

variable {level : Int} {p q : Progress} {r : Rejection} {t : Nest} {c : Char}
  {done rest text : List Char}

theorem close_eq_ok (h : p.close level = .ok q) :
    ∃ frame, p.frames = frame :: q.frames ∧ q.position = p.position + 1 := by
  unfold close at h
  split at h
  · cases h
  · rename_i frame outer hframes
    refine ⟨frame, ?_⟩
    split at h
    · cases h
    · cases h
      exact ⟨hframes, rfl⟩
    · cases h
      exact ⟨hframes, rfl⟩

theorem close_eq_error (h : p.close level = .error r) :
    (p.frames = [] ∧ r.error = ⟨.unmatched "]", p.position⟩) ∨
    ∃ frame outer, p.frames = frame :: outer ∧ lowerLoop level p.code.reverse = .empty ∧
      r.error = ⟨.emptyLoop, frame.bracket⟩ := by
  unfold close at h
  split at h
  · rename_i hframes
    cases h
    exact .inl ⟨hframes, rfl⟩
  · rename_i frame outer hframes
    refine .inr ⟨frame, outer, hframes, ?_⟩
    split at h
    · rename_i hlower
      cases h
      exact ⟨hlower, rfl⟩
    · cases h
    · cases h

namespace Covers

theorem start (level : Int) : Covers level {} [] {} :=
  ⟨reads_start level, .whole .nil rfl, rfl, fun _ h => by cases h.1⟩

/-- Only a closing bracket can be to blame. -/
theorem innocent_snoc (h : p.Covers level done t) (hc : c ≠ ']') (k : Nat) :
    ¬ Culprit (done ++ [c]) k :=
  fun hk => hc (hk.of_snoc (h.innocent k)).2

theorem step_ok (h : p.Covers level done t) (hq : p.step level c = .ok q) :
    ∃ t', q.Covers level (done ++ [c]) t' := by
  obtain ⟨inner, outer⟩ := t
  obtain ⟨t', ht, hreads⟩ := h.reads.step hq
  have htracks := h.tracks
  unfold Progress.step at hq
  cases hc : Command.ofChar? c with
  | none =>
    rw [hc] at hq ht
    cases hq
    cases ht
    have hne : c ≠ '[' ∧ c ≠ ']' := by constructor <;> rintro rfl <;> cases hc
    exact ⟨_, hreads, htracks.snoc hne (by simp [hc]), by simp [h.position],
      h.innocent_snoc hne.2⟩
  | some command =>
    rw [hc] at hq ht
    simp only [Option.toList, List.foldlM_cons, List.foldlM_nil, bind_pure] at ht
    cases command with
    | plain i =>
      cases hq
      cases ht
      have hne : c ≠ '[' ∧ c ≠ ']' := by constructor <;> rintro rfl <;> cases hc
      exact ⟨_, hreads, htracks.snoc hne (by simp [hc, Block.commands]), by simp [h.position],
        h.innocent_snoc hne.2⟩
    | openLoop =>
      cases hq
      cases ht
      obtain rfl := Command.ofChar?_eq_openLoop hc
      refine ⟨_, hreads, ?_, by simp [h.position], h.innocent_snoc (by decide)⟩
      rw [List.map_cons, h.position]
      exact htracks.opened .nil rfl
    | closeLoop =>
      obtain rfl := Command.ofChar?_eq_closeLoop hc
      obtain ⟨frame, hframes, hposition⟩ := close_eq_ok hq
      rw [hframes, List.map_cons] at htracks
      cases outer with
      | nil => cases ht
      | cons before outer =>
        cases ht
        refine ⟨_, hreads, htracks.close, by simp [hposition, h.position], fun k hk => ?_⟩
        -- the loop that is closed has its bracket, and does something
        obtain ⟨rfl, -⟩ := hk.of_snoc (h.innocent k)
        obtain ⟨-, hopen | ⟨j, hcancels⟩⟩ := hk
        · exact hopen _ htracks.pairs
        · obtain rfl := hcancels.1.left_unique htracks.pairs
          exact hreads.busy.inner.2.2 (htracks.cancels_iff.1 hcancels)

/-- A text in which the pass stops is to blame where it stops. -/
theorem step_error (h : p.Covers level done t) (he : p.step level c = .error r) :
    Blames (done ++ c :: rest) r.error := by
  obtain ⟨inner, outer⟩ := t
  have htracks := h.tracks
  have hbefore : ∀ k < done.length, ¬ Culprit (done ++ c :: rest) k :=
    fun k hk hculprit => h.innocent k (hculprit.of_append hk)
  unfold Progress.step at he
  cases hc : Command.ofChar? c with
  | none =>
    rw [hc] at he
    cases he
  | some command =>
    rw [hc] at he
    cases command with
    | plain i => cases he
    | openLoop => cases he
    | closeLoop =>
      obtain rfl := Command.ofChar?_eq_closeLoop hc
      rcases close_eq_error he with ⟨hframes, hr⟩ | ⟨frame, frames, hframes, hlower, hr⟩
      · rw [hframes] at htracks
        rw [hr, h.position]
        exact .unopened (by simp) (fun j => htracks.nested.not_pairs_left) hbefore
      · rw [hframes, List.map_cons] at htracks
        rw [h.reads.code, List.reverse_reverse, lowerLoop_eq_empty_iff] at hlower
        rw [hr]
        exact .cancelling (htracks.cancels_iff.2 hlower) hbefore

theorem foldlM (h : p.Covers level done t) (rest : List Char) :
    (∃ q t', rest.foldlM (Progress.step level) p = .ok q ∧ q.Covers level (done ++ rest) t') ∨
    ∃ r, rest.foldlM (Progress.step level) p = .error r ∧ Blames (done ++ rest) r.error := by
  induction rest generalizing p done t with
  | nil => exact .inl ⟨p, t, rfl, by rwa [List.append_nil]⟩
  | cons c rest ih =>
    rw [List.foldlM_cons]
    cases hq : p.step level c with
    | error r => exact .inr ⟨r, rfl, h.step_error hq⟩
    | ok q =>
      obtain ⟨t', hcovers⟩ := h.step_ok hq
      have hrest := ih hcovers
      rw [List.append_assoc, List.singleton_append] at hrest
      exact hrest

theorem finish (h : p.Covers level text t) :
    (∃ c, p.finish = .ok c ∧ textBrackets.Nested text) ∨
    ∃ r, p.finish = .error r ∧ Blames text r.error := by
  obtain ⟨inner, outer⟩ := t
  have htracks := h.tracks
  unfold Progress.finish
  cases hframes : p.frames with
  | nil =>
    rw [hframes] at htracks
    exact .inl ⟨_, rfl, htracks.nested⟩
  | cons frame frames =>
    rw [hframes, List.map_cons] at htracks
    exact .inr ⟨_, rfl, htracks.unclosed h.innocent⟩

end Covers

end Progress

/-! ## Verdicts -/

section
variable {level : Int} {text : List Char}

theorem compiles_or_blames (level : Int) (text : List Char) :
    (∃ c, compile level text = .ok c ∧ textBrackets.Nested text ∧ ∀ k, ¬ Culprit text k) ∨
    ∃ r, compile level text = .error r ∧ Blames text r.error := by
  unfold compile
  rcases (Progress.Covers.start level).foldlM text with ⟨p, t, hp, h⟩ | ⟨r, hr, h⟩
  · rw [hp]
    rcases h.finish with ⟨c, hc, hn⟩ | ⟨r, hr, h⟩
    · exact .inl ⟨c, hc, hn, h.innocent⟩
    · exact .inr ⟨r, hr, h⟩
  · rw [hr]
    exact .inr ⟨r, rfl, h⟩

theorem exists_compile_iff_nested :
    (∃ c, compile level text = .ok c) ↔
      textBrackets.Nested text ∧ ∀ j k, ¬ Cancels text j k := by
  rcases compiles_or_blames level text with ⟨c, hc, hn, hnone⟩ | ⟨r, hr, h⟩
  · exact iff_of_true ⟨c, hc⟩ ⟨hn, fun j k hcancels => hnone k hcancels.culprit⟩
  · rw [hr]
    refine iff_of_false (by simp) ?_
    rintro ⟨hn, hcancels⟩
    exact h.not_nested hcancels hn

theorem compile_error_iff {e : SourceError} :
    (∃ count, compile level text = .error ⟨e, count⟩) ↔ Blames text e := by
  rcases compiles_or_blames level text with ⟨c, hc, hn, hnone⟩ | ⟨r, hr, h⟩
  · rw [hc]
    refine iff_of_false (by simp) fun h => ?_
    exact h.not_nested (fun j k hcancels => hnone k hcancels.culprit) hn
  · rw [hr]
    constructor
    · rintro ⟨count, he⟩
      cases he
      exact h
    · intro he
      rw [he.unique h]
      exact ⟨r.count, rfl⟩

end

/-! ## Comments -/

/-- How many characters before a position are no comments. -/
def rank (text : List Char) (position : Nat) : Nat :=
  (Reference.codeOf (text.take position)).length

/-- The pass with every position replaced. -/
def Progress.placed (place : Nat → Nat) (p : Progress) : Progress :=
  { p with
    frames := p.frames.map fun frame => { frame with bracket := place frame.bracket }
    position := place p.position }

/-- The rejection with its position replaced. -/
def Rejection.placed (place : Nat → Nat) (r : Rejection) : Rejection :=
  { r with error := { r.error with position := place r.error.position.toNat } }

theorem rank_succ (done rest : List Char) (c : Char) :
    rank (done ++ c :: rest) (done.length + 1)
      = rank (done ++ c :: rest) done.length + (Reference.codeOf [c]).length := by
  have htake : (done ++ c :: rest).take (done.length + 1) = done ++ [c] := by
    rw [List.take_append, List.take_of_length_le (by omega), Nat.add_sub_cancel_left]
    rfl
  simp [rank, htake, Reference.codeOf]

namespace Progress

variable {level : Int} {p q : Progress} {c : Char} {place : Nat → Nat}

theorem position_step (h : p.step level c = .ok q) : q.position = p.position + 1 := by
  unfold step at h
  split at h
  · cases h
    rfl
  · cases h
    rfl
  · cases h
    rfl
  · obtain ⟨-, -, hposition⟩ := close_eq_ok h
    exact hposition

theorem close_placed (hplace : place (p.position + 1) = place p.position + 1) :
    (p.placed place).close level
      = ((p.close level).map (placed place)).mapError (Rejection.placed place) := by
  unfold close
  cases hframes : p.frames with
  | nil => simp [placed, hframes, Except.map, Except.mapError, Rejection.placed]
  | cons frame outer =>
    simp only [placed, hframes, List.map_cons]
    cases lowerLoop level p.code.reverse with
    | empty => simp [Except.map, Except.mapError, Rejection.placed]
    | fused i => simp [Except.map, Except.mapError, placed, hplace]
    | kept code => simp [Except.map, Except.mapError, placed, hplace]

theorem step_placed (hc : (Command.ofChar? c).isSome)
    (hplace : place (p.position + 1) = place p.position + 1) :
    (p.placed place).step level c
      = ((p.step level c).map (placed place)).mapError (Rejection.placed place) := by
  obtain ⟨command, hcommand⟩ := Option.isSome_iff_exists.1 hc
  unfold step
  rw [hcommand]
  cases command with
  | plain i => simp [Except.map, Except.mapError, placed, hplace]
  | openLoop => simp [Except.map, Except.mapError, placed, hplace]
  | closeLoop => exact close_placed hplace

theorem finish_placed :
    (p.placed place).finish = p.finish.mapError (Rejection.placed place) := by
  unfold finish
  cases hframes : p.frames with
  | nil => simp [placed, hframes, Except.mapError]
  | cons frame outer => simp [placed, hframes, Except.mapError, Rejection.placed]

/-- The pass over a text goes as that over its code, up to the positions. -/
theorem foldlM_codeOf (level : Int) {done : List Char} (rest : List Char)
    (hp : p.position = done.length) :
    (Reference.codeOf rest).foldlM (step level) (p.placed (rank (done ++ rest)))
      = ((rest.foldlM (step level) p).map (placed (rank (done ++ rest)))).mapError
          (Rejection.placed (rank (done ++ rest))) := by
  induction rest generalizing p done with
  | nil => rfl
  | cons c rest ih =>
    have hrank := rank_succ done rest c
    have hstep (q : Progress) (hq : q.position = done.length + 1) :
        (Reference.codeOf rest).foldlM (step level) (q.placed (rank (done ++ c :: rest)))
          = ((rest.foldlM (step level) q).map (placed (rank (done ++ c :: rest)))).mapError
              (Rejection.placed (rank (done ++ c :: rest))) := by
      have hposition : q.position = (done ++ [c]).length := by simp [hq]
      simpa using ih hposition
    have hcode := Reference.ofChar?_isSome_iff c
    rw [List.foldlM_cons]
    cases hc : Command.ofChar? c with
    | none =>
      -- a comment only moves the position, and not the one among the code
      have hcodeOf : Reference.codeOf (c :: rest) = Reference.codeOf rest :=
        List.filter_cons_of_neg (by rw [← hcode, hc]; simp)
      have hone : Reference.codeOf [c] = [] :=
        List.filter_cons_of_neg (by rw [← hcode, hc]; simp)
      simp only [hone, List.length_nil, Nat.add_zero] at hrank
      have hplaced : p.placed (rank (done ++ c :: rest))
          = placed (rank (done ++ c :: rest)) { p with position := p.position + 1 } := by
        rw [placed, placed, hp, hrank]
      rw [hcodeOf, hplaced, hstep _ (by simp [hp])]
      simp [step, hc, bind, Except.bind]
    | some command =>
      have hcodeOf : Reference.codeOf (c :: rest) = c :: Reference.codeOf rest :=
        List.filter_cons_of_pos (by rw [← hcode, hc]; rfl)
      have hone : Reference.codeOf [c] = [c] :=
        List.filter_cons_of_pos (by rw [← hcode, hc]; rfl)
      rw [hone, List.length_singleton] at hrank
      rw [hcodeOf, List.foldlM_cons, step_placed (by rw [hc]; rfl) (by rw [hp, hrank])]
      cases hq : p.step level c with
      | error r => rfl
      | ok q => exact hstep q (by rw [position_step hq, hp])

end Progress

/-- Comments do not matter to the compiler, but for positions. -/
theorem compile_codeOf (level : Int) (text : List Char) :
    compile level (Reference.codeOf text)
      = (compile level text).mapError (Rejection.placed (rank text)) := by
  have hposition : ({} : Progress).position = ([] : List Char).length := rfl
  have hfold := Progress.foldlM_codeOf level text hposition
  have hstart : Progress.placed (rank text) {} = {} := rfl
  rw [List.nil_append, hstart] at hfold
  unfold compile
  rw [hfold]
  cases text.foldlM (Progress.step level) {} with
  | error r => rfl
  | ok p => exact Progress.finish_placed

/-- **Which texts compile, and what is wrong with the others**: whatever the level and the comments,
the text alone decides. -/
theorem compile_judges (level : Int) (text : List Char) :
    ((∃ c, compile level text = .ok c) ↔
      textBrackets.Nested text ∧ ∀ j k, ¬ Cancels text j k) ∧
    (∀ e, (∃ count, compile level text = .error ⟨e, count⟩) ↔ Blames text e) ∧
    compile level (Reference.codeOf text)
      = (compile level text).mapError (Rejection.placed (rank text)) :=
  ⟨exists_compile_iff_nested, fun _ => compile_error_iff, compile_codeOf level text⟩

end TapeLang
