import TapeLang.Proofs.Meaning

/-!
# One meaning follows another

`Follows E cheap f g`: if `f` comes to a result that is settled, or is one of `E`, then `g` comes to
the same result, or else to one of `E` before it has written anything else; if `cheap`, in no more
instructions. The results of `E` are those that `g` may come to instead, and always early ones.

The order is reflexive and transitive, and replacing a part of a block by one that follows it gives
a block that follows the whole (`Follows.andThen`, `Follows.turns`).
-/

set_option autoImplicit false

namespace TapeLang

/-- What `f` comes to, `g` comes to as well, up to results of `E`. -/
def Follows (E : Result → Prop) (cheap : Prop) (f g : Meaning) : Prop :=
  ∀ ⦃v n r⦄, f v n r → r.IsSettled ∨ E r →
    ∃ m x, g v m x ∧ (cheap → m ≤ n) ∧ (x = r ∨ E x ∧ x.view.printed <+: r.view.printed)

namespace Follows

variable {E : Result → Prop} {cheap : Prop} {f f' g g' h : Meaning}

theorem refl (f : Meaning) : Follows E cheap f f :=
  fun _ n r hr _ => ⟨n, r, hr, fun _ => Nat.le_refl n, .inl rfl⟩

theorem of_imp (h : ∀ v n r, f v n r → g v n r) : Follows E cheap f g :=
  fun _ n r hr _ => ⟨n, r, h _ _ _ hr, fun _ => Nat.le_refl n, .inl rfl⟩

theorem trans (hfg : Follows E cheap f g) (hgh : Follows E cheap g h) : Follows E cheap f h := by
  intro v n r hr hs
  obtain ⟨m, x, hx, hm, hxr⟩ := hfg hr hs
  have hs' : x.IsSettled ∨ E x := by
    rcases hxr with rfl | ⟨hxE, -⟩
    · exact hs
    · exact .inr hxE
  obtain ⟨k, y, hy, hk, hyx⟩ := hgh hx hs'
  refine ⟨k, y, hy, fun hc => Nat.le_trans (hk hc) (hm hc), ?_⟩
  rcases hyx with rfl | ⟨hyE, hy'⟩
  · exact hxr
  · rcases hxr with rfl | ⟨-, hx'⟩
    · exact .inr ⟨hyE, hy'⟩
    · exact .inr ⟨hyE, hy'.trans hx'⟩

/-! ## Parts of a block -/

section
variable (hE : ∀ r, E r → r.IsEarly)
include hE

theorem andThen (hf : Follows E cheap f f') (hg : Follows E cheap g g') (grows : g.Grows) :
    Follows E cheap (f.AndThen g) (f'.AndThen g') := by
  intro v n r hr hs
  cases hr with
  | @both _ w m n _ h₁ h₂ =>
    obtain ⟨m', x, hx, hm, hxw⟩ := hf h₁ (.inl trivial)
    rcases hxw with rfl | ⟨hxE, hpre⟩
    · obtain ⟨n', y, hy, hn, hyr⟩ := hg h₂ hs
      exact ⟨m' + n', y, .both hx hy, fun hc => Nat.add_le_add (hm hc) (hn hc), hyr⟩
    · have hw := grows _ h₂ List.prefix_rfl
      exact ⟨m', x, .early hx (hE x hxE), fun hc => Nat.le_add_right_of_le (hm hc),
        .inr ⟨hxE, hpre.trans hw⟩⟩
  | early h₁ he =>
    obtain ⟨m', x, hx, hm, hxr⟩ := hf h₁ hs
    refine ⟨m', x, .early hx ?_, hm, hxr⟩
    rcases hxr with rfl | ⟨hxE, -⟩
    · exact he
    · exact hE x hxE

/-- By induction on the rounds of the first loop: each is followed by a round of the second, unless
that one ends early. -/
theorem loop (hf : Follows E cheap f f') (grows : f.Grows) : Follows E cheap f.Loop f'.Loop := by
  intro v n r hr
  induction hr with
  | exit hz => exact fun _ => ⟨1, _, .exit hz, fun _ => Nat.le_refl 1, .inl rfl⟩
  | @again v w m n r hz hb hl ih =>
    intro hs
    obtain ⟨m', x, hx, hm, hxw⟩ := hf hb (.inl trivial)
    rcases hxw with rfl | ⟨hxE, hpre⟩
    · obtain ⟨n', y, hy, hn, hyr⟩ := ih hs
      refine ⟨m' + n' + 1, y, .again hz hx hy, fun hc => ?_, hyr⟩
      have := hm hc
      have := hn hc
      omega
    · have hw := (grows w.printed).loop hl List.prefix_rfl
      refine ⟨m' + 1, x, .early hz hx (hE x hxE), fun hc => ?_, .inr ⟨hxE, hpre.trans hw⟩⟩
      have := hm hc
      omega
  | early hz hb he =>
    intro hs
    obtain ⟨m', x, hx, hm, hxr⟩ := hf hb hs
    refine ⟨m' + 1, x, .early hz hx ?_, fun hc => Nat.succ_le_succ (hm hc), hxr⟩
    rcases hxr with rfl | ⟨hxE, -⟩
    · exact he
    · exact hE x hxE

/-- Loops that never end have to be the same on both sides, if their results count. -/
theorem turns {checked : Bool} {body body' : Block} (hf : Follows E cheap f f') (grows : f.Grows)
    (hspin : ∀ amount v, E (.spins amount v) → body ≠ .step .nil ⟨.modify, amount⟩) :
    Follows E cheap (body.Turns checked f) (body'.Turns checked f') := by
  intro v n r hr hs
  cases hr with
  | loop hr =>
    obtain ⟨m, x, hx, hm, hxr⟩ := loop hE hf grows hr hs
    exact ⟨m, x, .loop hx, hm, hxr⟩
  | spin _ hb _ => exact absurd hb (hspin _ _ (hs.resolve_left id))

end

end Follows

end TapeLang
