import Mathlib.Data.Int.GCD
import TapeLang.Proofs.Block
import TapeLang.Proofs.View

/-!
# What blocks do

The meaning of a block says from which view it comes to which result, and in how many instructions.
There are no indices in it and no jumps: a loop is its body, again and again. Code that never ends
has no result, except that `Result.spins` says of one kind of loop that it never will.
-/

set_option autoImplicit false

namespace TapeLang

/-- What code comes to. -/
inductive Result where
  /-- It runs to its end. -/
  | done (view : View)
  /-- An instruction fails. -/
  | stuck (instruction : Instruction) (view : View)
  /-- A loop is entered that does nothing but add to its cell, and never makes it zero. -/
  | spins (amount : Int) (view : View)

namespace Result

/-- The view at the end, or before the instruction that fails or never ends. -/
def view : Result → View
  | done v | stuck _ v | spins _ v => v

/-- The code has not run to its end. -/
def IsEarly (r : Result) : Prop := ∀ v, r ≠ done v

/-- The code runs to its end or lacks input. -/
def IsSettled : Result → Prop
  | done _ => True
  | stuck i _ => i.kind = .scan
  | spins _ _ => False

theorem isEarly_stuck (i : Instruction) (v : View) : (stuck i v).IsEarly := fun _ h => by cases h

theorem isEarly_spins (amount : Int) (v : View) : (spins amount v).IsEarly :=
  fun _ h => by cases h

theorem done_or_isEarly (r : Result) : (∃ v, r = done v) ∨ r.IsEarly := by
  cases r with
  | done v => exact .inl ⟨v, rfl⟩
  | stuck i v => exact .inr (isEarly_stuck i v)
  | spins amount v => exact .inr (isEarly_spins amount v)

end Result

/-- From a view, after a number of completed instructions, code comes to a result. -/
abbrev Meaning := View → Nat → Result → Prop

namespace Meaning

/-- Doing nothing. -/
def skip : Meaning := fun v n r => n = 0 ∧ r = .done v

/-- One instruction that is no jump. -/
inductive Single (checked : Bool) (i : Instruction) : Meaning
  | done {v w : View} : v.act checked i = some w → Single checked i v 1 (.done w)
  | stuck {v : View} : v.act checked i = none → Single checked i v 0 (.stuck i v)

/-- One after the other. -/
inductive AndThen (f g : Meaning) : Meaning
  | both {v w : View} {m n : Nat} {r : Result} :
      f v m (.done w) → g w n r → AndThen f g v (m + n) r
  | early {v : View} {n : Nat} {r : Result} : f v n r → r.IsEarly → AndThen f g v n r

/-- Again and again, as long as the current cell is not zero. Each look at the cell is one jump:
the first at the beginning of the loop, all others at its end. -/
inductive Loop (f : Meaning) : Meaning
  | exit {v : View} : v.cell = 0 → Loop f v 1 (.done v)
  | again {v w : View} {m n : Nat} {r : Result} :
      v.cell ≠ 0 → f v m (.done w) → Loop f w n r → Loop f v (m + n + 1) r
  | early {v : View} {n : Nat} {r : Result} :
      v.cell ≠ 0 → f v n r → r.IsEarly → Loop f v (n + 1) r

end Meaning

/-- Adding the amount again and again never makes a byte zero. -/
def Traps (amount : Int) (b : UInt8) : Prop := ¬ Int.gcd amount 256 ∣ b.toNat

/-- A loop, told from its body and what that does. -/
inductive Block.Turns (checked : Bool) (body : Block) (f : Meaning) : Meaning
  | loop {v : View} {n : Nat} {r : Result} : f.Loop v n r → Turns checked body f v n r
  | spin {v : View} {amount : Int} :
      checked = false → body = .step .nil ⟨.modify, amount⟩ → Traps amount v.cell →
        Turns checked body f v 0 (.spins amount v)

/-- What a block does. -/
def Block.runs (checked : Bool) : Block → Meaning
  | .nil => Meaning.skip
  | .step b i => (b.runs checked).AndThen (Meaning.Single checked i)
  | .loop b body => (b.runs checked).AndThen (body.Turns checked (body.runs checked))

/-! ## Sequences -/

namespace Meaning

variable {f g h : Meaning} {v : View} {n : Nat} {r : Result}

theorem andThen_assoc : ((f.AndThen g).AndThen h) v n r ↔ (f.AndThen (g.AndThen h)) v n r := by
  constructor
  · intro hr
    cases hr with
    | both h₁ h₂ =>
      cases h₁ with
      | both hf hg =>
        rw [Nat.add_assoc]
        exact .both hf (.both hg h₂)
      | early _ he => exact absurd rfl (he _)
    | early h₁ he =>
      cases h₁ with
      | both hf hg => exact .both hf (.early hg he)
      | early hf _ => exact .early hf he
  · intro hr
    cases hr with
    | both hf h₂ =>
      cases h₂ with
      | both hg hh =>
        rw [← Nat.add_assoc]
        exact .both (.both hf hg) hh
      | early hg he => exact .early (.both hf hg) he
    | early hf he => exact .early (.early hf he) he

theorem andThen_skip : (f.AndThen skip) v n r ↔ f v n r := by
  constructor
  · intro hr
    cases hr with
    | both hf hs =>
      obtain ⟨rfl, rfl⟩ := hs
      exact hf
    | early hf _ => exact hf
  · intro hf
    rcases r.done_or_isEarly with ⟨w, rfl⟩ | he
    · have hskip : skip w 0 (.done w) := ⟨rfl, rfl⟩
      exact .both hf hskip
    · exact .early hf he

end Meaning

/-! ## What a run keeps -/

/-- What holds of a view holds of the view of every result. -/
def Meaning.Keeps (p : View → Prop) (f : Meaning) : Prop :=
  ∀ ⦃v n r⦄, f v n r → p v → p r.view

namespace Meaning.Keeps

variable {p : View → Prop} {f g : Meaning}

theorem andThen (hf : f.Keeps p) (hg : g.Keeps p) : (f.AndThen g).Keeps p := by
  intro v n r h hv
  cases h with
  | both h₁ h₂ => exact hg h₂ (hf h₁ hv)
  | early h _ => exact hf h hv

theorem loop (hf : f.Keeps p) : f.Loop.Keeps p := by
  intro v n r h
  induction h with
  | exit _ => exact id
  | again _ hb _ ih => exact fun hv => ih (hf hb hv)
  | early _ hb _ => exact hf hb

theorem turns {checked : Bool} {body : Block} (hf : f.Keeps p) :
    (body.Turns checked f).Keeps p := by
  intro v n r h hv
  cases h with
  | loop h => exact hf.loop h hv
  | spin _ _ _ => exact hv

end Meaning.Keeps

/-- A block keeps what single instructions keep. -/
theorem Block.keeps {checked : Bool} {p : View → Prop}
    (hp : ∀ i v w, v.act checked i = some w → p v → p w) (b : Block) :
    (b.runs checked).Keeps p := by
  induction b with
  | nil =>
    intro v n r h hv
    obtain ⟨-, rfl⟩ := h
    exact hv
  | step b i ih =>
    refine ih.andThen fun v n r h hv => ?_
    cases h with
    | done h => exact hp i _ _ h hv
    | stuck _ => exact hv
  | loop b body ihb ih => exact ihb.andThen ih.turns

/-! ## Why code ends early -/

/-- Every early result has a property. -/
def Meaning.Fails (p : Result → Prop) (f : Meaning) : Prop :=
  ∀ ⦃v n r⦄, f v n r → r.IsEarly → p r

theorem Meaning.Fails.andThen {p : Result → Prop} {f g : Meaning} (hf : f.Fails p)
    (hg : g.Fails p) : (f.AndThen g).Fails p := by
  intro v n r h he
  cases h with
  | both _ h₂ => exact hg h₂ he
  | early h _ => exact hf h he

theorem Meaning.Fails.loop {p : Result → Prop} {f : Meaning} (hf : f.Fails p) :
    f.Loop.Fails p := by
  intro v n r h he
  induction h with
  | exit _ => exact absurd rfl (he _)
  | again _ _ _ ih => exact ih he
  | early _ hb _ => exact hf hb he

/-- What stops a block is one of its instructions or one of its loops. -/
theorem Block.fails {checked : Bool} {p : Instruction → Prop} {q : Block → Prop} {b : Block}
    (hp : b.Every p) (hq : b.EveryLoop q) :
    (b.runs checked).Fails fun r =>
      (∃ i v, r = .stuck i v ∧ p i) ∨
        ∃ amount v, r = .spins amount v ∧ Traps amount v.cell ∧
          q (.step .nil ⟨.modify, amount⟩) := by
  induction b with
  | nil =>
    intro v n r h he
    obtain ⟨-, rfl⟩ := h
    exact absurd rfl (he v)
  | step b i ih =>
    refine (ih hp.1 hq).andThen fun v n r h he => ?_
    cases h with
    | done _ => exact absurd rfl (he _)
    | stuck _ => exact .inl ⟨i, v, rfl, hp.2⟩
  | loop b body ihb ih =>
    refine (ihb hp.1 hq.1).andThen fun v n r h he => ?_
    cases h with
    | loop h => exact (ih hp.2 hq.2.1).loop h he
    | @spin _ amount _ hbody ht => exact .inr ⟨amount, v, rfl, ht, hbody ▸ hq.2.2⟩

/-- The output of a piece of code only grows. -/
def Meaning.Grows (f : Meaning) : Prop :=
  ∀ printed : List UInt8, f.Keeps fun v => printed <+: v.printed

theorem Block.grows (checked : Bool) (b : Block) : (b.runs checked).Grows :=
  fun _ => b.keeps fun _ _ _ h hv => hv.trans (View.printed_act h)

theorem Meaning.Grows.andThen {f g : Meaning} (hf : f.Grows) (hg : g.Grows) :
    (f.AndThen g).Grows :=
  fun printed => (hf printed).andThen (hg printed)

theorem Meaning.grows_single (checked : Bool) (i : Instruction) : (Single checked i).Grows := by
  intro printed v n r h hv
  cases h with
  | done h => exact hv.trans (View.printed_act h)
  | stuck _ => exact hv

end TapeLang
