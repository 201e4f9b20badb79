import Mathlib.Logic.Relation
import TapeLang.Proofs.NormalForm

/-!
# Simplifying in any order

Two rules make code simpler, wherever they are used: neighbours of one foldable kind merge, and an
idle instruction is dropped (`Simplifies`). Folding is one way to use them up
(`simplifies_fold`), and as no use changes what code folds to (`Simplifies.fold_eq`), every other
way leads to the same place. So two lists have one folded form if and only if the rules lead from
one to the other, forwards and backwards (`fold_eq_fold_iff`).
-/

set_option autoImplicit false

namespace TapeLang

open Relation (ReflTransGen EqvGen)

/-- One use of a rule that makes code simpler, anywhere in it. -/
inductive Simplifies : List Instruction → List Instruction → Prop
  /-- Two neighbours of one foldable kind become one, with the sum of their arguments. -/
  | merge (x : List Instruction) {kind : Kind} (a c : Int) (y : List Instruction) :
      kind.isFoldable → Simplifies (x ++ ⟨kind, a⟩ :: ⟨kind, c⟩ :: y) (x ++ ⟨kind, a + c⟩ :: y)
  /-- A foldable instruction of argument zero is dropped. -/
  | drop (x : List Instruction) {i : Instruction} (y : List Instruction) :
      i.isIdle → Simplifies (x ++ i :: y) (x ++ y)

variable {i : Instruction} {code x y z : List Instruction}

namespace Simplifies

theorem append_right (h : Simplifies x y) (z : List Instruction) :
    Simplifies (x ++ z) (y ++ z) := by
  cases h with
  | merge x a c y hk => simpa using merge x a c (y ++ z) hk
  | drop x y hi => simpa using drop x (y ++ z) hi

/-- Simpler code is shorter, so that simplifying comes to an end. -/
theorem length_lt (h : Simplifies x y) : y.length < x.length := by
  cases h <;> simp

/-- **Simplifying does not change what code folds to.** -/
theorem fold_eq (h : Simplifies x y) : fold x = fold y := by
  cases h with
  | merge x a c y hk =>
    have hx : IsFolded (x.foldl push []) := IsFolded.nil.foldl_push x
    simp only [fold, List.foldl_append, List.foldl_cons, hx.push_push hk]
  | drop x y hi =>
    have hx : IsFolded (x.foldl push []) := IsFolded.nil.foldl_push x
    simp only [fold, List.foldl_append, List.foldl_cons, hx.push_idle hi]

end Simplifies

/-! ## Folding simplifies -/

/-- What `push` does to code, which is held newest first, is done by the rules. -/
theorem simplifies_push (code : List Instruction) (i : Instruction) :
    ReflTransGen Simplifies (code.reverse ++ [i]) (push code i).reverse := by
  have hcons (code : List Instruction) (i : Instruction) :
      ReflTransGen Simplifies (code.reverse ++ [i]) (consUnlessIdle i code).reverse := by
    cases hidle : i.isIdle with
    | true =>
      rw [consUnlessIdle_of_idle hidle]
      simpa using ReflTransGen.single (Simplifies.drop code.reverse [] hidle)
    | false =>
      rw [consUnlessIdle_of_busy hidle, List.reverse_cons]
  rcases push_cases code i with ⟨kind, a, c, older, rfl, rfl, hk, hpush⟩ | ⟨-, hpush⟩
  · have hmerge : Simplifies ((⟨kind, a⟩ :: older).reverse ++ [⟨kind, c⟩])
        (older.reverse ++ [⟨kind, a + c⟩]) := by
      simpa using Simplifies.merge older.reverse a c [] hk
    rw [hpush]
    exact .head hmerge (hcons older _)
  · rw [hpush]
    exact hcons code i

/-- **Folding simplifies.** -/
theorem simplifies_fold (x : List Instruction) : ReflTransGen Simplifies x (fold x) := by
  induction x using List.reverseRecOn with
  | nil => exact .refl
  | append_singleton x i ih =>
    have hlast : ReflTransGen Simplifies (x ++ [i]) (fold x ++ [i]) :=
      ih.lift (· ++ [i]) fun _ _ h => h.append_right [i]
    have hpush : ReflTransGen Simplifies (fold x ++ [i]) (fold (x ++ [i])) := by
      have hfold := fold_append x [i]
      have hsteps := simplifies_push (fold x).reverse i
      rw [List.reverse_reverse] at hsteps
      rw [hfold]
      exact hsteps
    exact hlast.trans hpush

/-- What the rules keep, folding keeps. -/
theorem fold_of_simplifies {p : List Instruction → Prop}
    (hrule : ∀ {y z}, Simplifies y z → p y → p z) (h : p x) : p (fold x) := by
  have hrules := simplifies_fold x
  generalize fold x = y at hrules
  induction hrules with
  | refl => exact h
  | tail _ hstep ih => exact hrule hstep ih

/-! ## Normal forms -/

theorem fold_eq_of_eqvGen (h : EqvGen Simplifies x y) : fold x = fold y := by
  induction h with
  | rel x y h => exact h.fold_eq
  | refl x => rfl
  | symm x y _ ih => exact ih.symm
  | trans x y z _ _ ihx ihy => exact ihx.trans ihy

theorem eqvGen_fold (x : List Instruction) : EqvGen Simplifies x (fold x) :=
  EqvGen.reflTransGen_le_eqvGen Simplifies x (fold x) (simplifies_fold x)

/-- Nothing is left to fold where no rule can be used, and only there. -/
theorem isFolded_iff_forall_not_simplifies : IsFolded x ↔ ∀ y, ¬ Simplifies x y := by
  constructor
  · intro h y hxy
    -- a use would lead to shorter code, which still folds to `x`
    have hle : (fold y).length ≤ y.length :=
      fold_of_simplifies (p := fun z => z.length ≤ y.length)
        (fun hrule hz => (Nat.le_of_lt hrule.length_lt).trans hz) (Nat.le_refl _)
    rw [← hxy.fold_eq, h.fold_eq] at hle
    exact absurd hxy.length_lt (Nat.not_lt.mpr hle)
  · intro h
    rcases ReflTransGen.cases_head (simplifies_fold x) with hx | ⟨y, hxy, -⟩
    · rw [hx]
      exact isFolded_fold x
    · exact absurd hxy (h y)

/-- **Folding computes unique normal forms**: two lists have the same one if and only if the rules
lead from one to the other, in either direction; it is reached by the rules, nothing in it is left
to fold, which is so where no rule can be used, and a part may be folded before. -/
theorem fold_eq_fold_iff (x y : List Instruction) :
    (fold x = fold y ↔ EqvGen Simplifies x y) ∧
      ReflTransGen Simplifies x (fold x) ∧ IsFolded (fold x) ∧
      (∀ z, IsFolded z ↔ ∀ w, ¬ Simplifies z w) ∧
      (∀ z, IsFolded z → EqvGen Simplifies x z → z = fold x) ∧
      fold (fold x) = fold x ∧ fold (x ++ y) = fold (fold x ++ fold y) := by
  refine ⟨⟨fun h => ?_, fold_eq_of_eqvGen⟩, simplifies_fold x, isFolded_fold x,
    fun z => isFolded_iff_forall_not_simplifies, fun z hz h => ?_, (isFolded_fold x).fold_eq, ?_⟩
  · have hx : EqvGen Simplifies x (fold y) := h ▸ eqvGen_fold x
    exact hx.trans _ _ _ ((eqvGen_fold y).symm)
  · rw [fold_eq_of_eqvGen h, hz.fold_eq]
  · rw [fold_append_fold, fold_fold_append]

/-- Opposites cancel on both sides of what has cancelled between them. -/
example : fold [⟨.modify, 2⟩, ⟨.shift, 1⟩, ⟨.print, 0⟩, ⟨.shift, -1⟩, ⟨.modify, -2⟩, ⟨.clear, 0⟩]
    = [⟨.clear, 0⟩] := by decide

end TapeLang
