import Mathlib.Data.List.Chain
import TapeLang.Proofs.Brackets
import TapeLang.Proofs.Compiling
import TapeLang.Proofs.NormalForm

/-!
# Well-formed programs

`WellFormed level p` says of a flat list of instructions what the compiler makes: its jumps are
nested and lead to each other, the arguments fit their kinds, nothing is left to fold, and at a
level that fuses, no loop is left that one instruction replaces.

* `wellFormed_of_compile`: what a text compiles to is well formed.
* `WellFormed.exists_sound`: a well-formed program is the code of a sound block.
-/

set_option autoImplicit false

namespace TapeLang

/-- The two jumps of a loop are its brackets. -/
def loopBrackets : Brackets Instruction where
  opens i := i.kind == .beginLoop
  closes i := i.kind == .endLoop
  closes_of_opens i h := by simp_all

theorem isLoop_eq (i : Instruction) :
    i.kind.isLoop = (loopBrackets.opens i || loopBrackets.closes i) := by
  cases hkind : i.kind <;> simp [loopBrackets, Kind.isLoop, hkind]

/-- The argument fits the kind; those of jumps are told by their distance. -/
def Instruction.ArgFits (i : Instruction) : Prop :=
  match i.kind with
  | .modify | .shift | .add | .sub => i.arg ≠ 0
  | .print => 1 ≤ i.arg
  | .scan => i.arg = 1
  | .clear => i.arg = 0
  | .beginLoop | .endLoop => True

/-- The kinds that stand for whole loops. -/
def Kind.isFused : Kind → Bool
  | .clear | .add | .sub => true
  | _ => false

/-- The bodies of the loops that one instruction replaces. -/
inductive IsIdiom : List Instruction → Prop
  | change (amount : Int) : IsIdiom [⟨.modify, amount⟩]
  | goFirst {sign : Int} (distance : Int) : sign = 1 ∨ sign = -1 →
      IsIdiom [⟨.shift, distance⟩, ⟨.modify, sign⟩, ⟨.shift, -distance⟩, ⟨.modify, -1⟩]
  | countFirst {sign : Int} (distance : Int) : sign = 1 ∨ sign = -1 →
      IsIdiom [⟨.modify, -1⟩, ⟨.shift, distance⟩, ⟨.modify, sign⟩, ⟨.shift, -distance⟩]

/-- What the compiler makes of a text at a level. -/
structure WellFormed (level : Int) (p : Program) : Prop where
  nested : loopBrackets.Nested p
  jumps : ∀ j k : Nat, loopBrackets.Pairs p j k →
    p[j]? = some ⟨.beginLoop, k - j⟩ ∧ p[k]? = some ⟨.endLoop, k - j⟩ ∧ (2 : Int) ≤ k - j
  args : ∀ i ∈ p, i.ArgFits
  folded : p.IsChain fun x y => x.kind = y.kind → x.kind.isFoldable = false
  idioms : 1 ≤ level → ∀ j k, loopBrackets.Pairs p j k → ¬ IsIdiom (Brackets.between p j k)
  unfused : level < 1 → ∀ i ∈ p, i.kind.isFused = false

/-- A jump is one of the two of a loop. -/
theorem WellFormed.exists_pairs {level : Int} {p : Program} (h : WellFormed level p) {n : Nat}
    {i : Instruction} (hi : p[n]? = some i) (hloop : i.kind.isLoop) :
    ∃ j k, loopBrackets.Pairs p j k ∧ (n = j ∨ n = k) := by
  rw [isLoop_eq, Bool.or_eq_true] at hloop
  exact h.nested.exists_pair hi hloop

/-! ## Loops that one instruction replaces -/

theorem isIdiom_of_fuse? {body : List Instruction} {i : Instruction} (h : fuse? body = some i) :
    IsIdiom body := by
  obtain ⟨amount, rfl, -⟩ | ⟨sign, distance, hi, rfl | rfl⟩ := fuse?_eq_some h
  · exact .change amount
  · exact .goFirst distance hi.sign_eq
  · exact .countFirst distance hi.sign_eq

theorem fuse?_eq_none_iff {body : List Instruction} : fuse? body = none ↔ ¬ IsIdiom body := by
  constructor
  · intro h hidiom
    cases hidiom with
    | change amount => simp [fuse?] at h
    | goFirst distance hs => rcases hs with rfl | rfl <;> simp [fuse?, transfer?] at h
    | countFirst distance hs => rcases hs with rfl | rfl <;> simp [fuse?, transfer?] at h
  · intro h
    cases hi : fuse? body with
    | none => rfl
    | some i => exact absurd (isIdiom_of_fuse? hi) h

/-! ## Sound blocks -/

/-- What a level makes of an instruction that is no jump. -/
structure Instruction.Sound (level : Int) (i : Instruction) : Prop where
  isLoop : i.kind.isLoop = false
  argFits : i.ArgFits
  unfused : level < 1 → i.kind.isFused = false

namespace Block

/-- The block's code is well formed. -/
def Sound (level : Int) : Block → Prop
  | nil => True
  | step b i => b.Sound level ∧ i.Sound level ∧ (i.kind.isFoldable → b.lastKind? ≠ some i.kind)
  | loop b body =>
    b.Sound level ∧ body.Sound level ∧ body ≠ nil ∧ (1 ≤ level → ¬ IsIdiom body.code)

variable {level : Int} {b : Block}

theorem sound_of_folded (hb : b.Folded) (hi : b.Every (·.Sound level))
    (hloop : b.EveryLoop fun body => body ≠ nil ∧ (1 ≤ level → ¬ IsIdiom body.code)) :
    b.Sound level := by
  induction b with
  | nil => trivial
  | step b i ih => exact ⟨ih hb.1 hi.1 hloop, hi.2, hb.2.2⟩
  | loop b body ihb ih => exact ⟨ihb hb.1 hi.1 hloop.1, ih hb.2 hi.2 hloop.2.1, hloop.2.2⟩

theorem Sound.every (h : b.Sound level) : b.Every (·.Sound level) := by
  induction b with
  | nil => trivial
  | step b i ih => exact ⟨ih h.1, h.2.1⟩
  | loop b body ihb ih => exact ⟨ihb h.1, ih h.2.1⟩

theorem every_code {p : Instruction → Prop} (hb : b.Every p)
    (hjump : ∀ i : Instruction, i.kind.isLoop → p i) : ∀ i ∈ b.code, p i := by
  induction b with
  | nil => simp [code]
  | step b i ih =>
    intro j hj
    rw [code, List.mem_append, List.mem_singleton] at hj
    rcases hj with hj | rfl
    · exact ih hb.1 j hj
    · exact hb.2
  | loop b body ihb ih =>
    intro j hj
    simp only [code, wrapLoop, List.mem_append, List.mem_cons, List.not_mem_nil, or_false] at hj
    rcases hj with hj | (rfl | hj) | rfl
    · exact ihb hb.1 j hj
    · exact hjump _ rfl
    · exact ih hb.2 j hj
    · exact hjump _ rfl

end Block

/-! ## What the compiler makes -/

namespace Instruction.Sound

variable {level : Int} {i : Instruction}

theorem isIdle_eq (h : i.Sound level) : i.isIdle = false := by
  obtain ⟨kind, arg⟩ := i
  have hfits := h.argFits
  cases kind <;> simp_all [ArgFits, isIdle, Kind.isFoldable]
  omega

theorem merge {kind : Kind} {a c : Int} (hk : kind.isFoldable)
    (ha : Instruction.Sound level ⟨kind, a⟩) (hc : Instruction.Sound level ⟨kind, c⟩)
    (h : Instruction.isIdle ⟨kind, a + c⟩ = false) : Instruction.Sound level ⟨kind, a + c⟩ := by
  refine ⟨ha.isLoop, ?_, ha.unfused⟩
  have hfits := ha.argFits
  have hfits' := hc.argFits
  cases kind with
  | modify => simpa [isIdle, Kind.isFoldable, ArgFits] using h
  | shift => simpa [isIdle, Kind.isFoldable, ArgFits] using h
  | print => simp only [ArgFits] at hfits hfits' ⊢; omega
  | _ => cases hk

theorem of_command {c : Char} (h : Command.ofChar? c = some (.plain i)) : i.Sound level := by
  unfold Command.ofChar? at h
  split at h <;> cases h <;> exact ⟨rfl, by simp [ArgFits], fun _ => rfl⟩

theorem of_fuse? {body : Block} (hl : 1 ≤ level) (hbody : body.Every (·.Sound level))
    (h : fuse? body.fuse.code = some i) : i.Sound level := by
  rcases Block.fuse?_fuse_eq_some h with ⟨_, -, rfl⟩ | ⟨sign, distance, hi, hmoves⟩
  · exact ⟨rfl, rfl, by omega⟩
  · have hne := Block.distance_ne_zero hmoves (hbody.mono fun _ => isIdle_eq)
    rcases hi with ⟨-, rfl⟩ | ⟨-, rfl⟩ <;> exact ⟨rfl, hne, by omega⟩

end Instruction.Sound

namespace Block

variable {level : Int} {b : Block}

theorem sound_push {i : Instruction} (hb : b.Every (·.Sound level)) (hi : i.Sound level) :
    (b.push i).Every (·.Sound level) := by
  rcases b.push_cases i with ⟨before, kind, a, c, rfl, rfl, hk, hpush⟩ | ⟨-, hpush⟩
  · rw [hpush, stepUnlessIdle]
    split
    · exact hb.1
    · rename_i hidle
      exact ⟨hb.1, .merge hk hb.2 hi (by simpa using hidle)⟩
  · rw [hpush, stepUnlessIdle, hi.isIdle_eq]
    exact ⟨hb, hi⟩

theorem sound_fold (h : b.Every (·.Sound level)) : b.fold.Every (·.Sound level) := by
  induction b with
  | nil => trivial
  | step b i ih => exact sound_push (ih h.1) h.2
  | loop b body ihb ih => exact ⟨ihb h.1, ih h.2⟩

theorem sound_fuse (hl : 1 ≤ level) (h : b.Every (·.Sound level)) :
    b.fuse.Every (·.Sound level) := by
  induction b with
  | nil => trivial
  | step b i ih => exact ⟨ih h.1, h.2⟩
  | loop b body ihb ih =>
    unfold fuse
    split
    · rename_i i hi
      exact ⟨ihb h.1, .of_fuse? hl h.2 hi⟩
    · exact ⟨ihb h.1, ih h.2⟩

theorem everyLoop_fuse (h : b.EveryLoop (· ≠ nil)) :
    b.fuse.EveryLoop fun body => body ≠ nil ∧ ¬ IsIdiom body.code := by
  induction b with
  | nil => trivial
  | step b i ih => exact ih h
  | loop b body ihb ih =>
    unfold fuse
    split
    · exact ihb h.1
    · rename_i hnone
      exact ⟨ihb h.1, ih h.2.1, mt fuse_eq_nil_iff.1 h.2.2, fuse?_eq_none_iff.1 hnone⟩

theorem EveryLoop.mono {p q : Block → Prop} (h : ∀ body, p body → q body) (hb : b.EveryLoop p) :
    b.EveryLoop q := by
  induction b with
  | nil => trivial
  | step b i ih => exact ih hb
  | loop b body ihb ih => exact ⟨ihb hb.1, ih hb.2.1, h _ hb.2.2⟩

/-- The block of a text that compiles is sound when it is lowered. -/
theorem sound_lowered (level : Int) (hb : b.Every (·.Sound level)) (hbusy : b.Busy) :
    (b.lowered level).Sound level := by
  have hloops : b.fold.EveryLoop (· ≠ nil) := everyLoop_fold.2 hbusy
  have hfolded := b.folded_lowered level
  unfold lowered at hfolded ⊢
  split
  · rename_i hl
    rw [if_pos hl] at hfolded
    exact sound_of_folded hfolded (sound_fuse hl (sound_fold hb))
      ((everyLoop_fuse hloops).mono fun _ h => ⟨h.1, fun _ => h.2⟩)
  · rename_i hl
    rw [if_neg hl] at hfolded
    exact sound_of_folded hfolded (sound_fold hb)
      (hloops.mono fun _ h => ⟨h, fun h => absurd h hl⟩)

/-! ## The code of sound blocks -/

theorem nested_code (h : b.Every (·.kind.isLoop = false)) : loopBrackets.Nested b.code := by
  induction b with
  | nil => exact .nil
  | step b i ih =>
    obtain ⟨hb, hi⟩ := h
    rw [isLoop_eq, Bool.or_eq_false_iff] at hi
    exact (ih hb).snoc hi.1 hi.2
  | loop b body ihb ih =>
    have hwrap := (ihb h.1).wrap (ih h.2) (a := ⟨.beginLoop, body.code.length + 1⟩)
      (b := ⟨.endLoop, body.code.length + 1⟩) rfl rfl
    simpa [code, wrapLoop] using hwrap

/-- The brackets of a block's code are the ends of its loops. -/
theorem exists_body_of_pairs {q : Block → Prop} (h : b.Every (·.kind.isLoop = false))
    (hq : b.EveryLoop q) {j k : Nat} (hp : loopBrackets.Pairs b.code j k) :
    ∃ before body behind, b.code = before ++ (wrapLoop body.code ++ behind) ∧
      before.length = j ∧ k = j + 1 + body.code.length ∧ q body := by
  induction b generalizing j k with
  | nil =>
    have hlen := hp.lt_length
    simp [code] at hlen
  | step b i ih =>
    obtain ⟨hb, hi⟩ := h
    have hlt : k < b.code.length := by
      obtain ⟨_, x, -, hk, -, hx, -⟩ := id hp
      have hlen := hp.lt_length
      rw [code, List.length_append, List.length_singleton] at hlen
      rcases Nat.lt_or_ge k b.code.length with hlt | hge
      · exact hlt
      · obtain rfl : k = b.code.length := by omega
        simp only [code, List.getElem?_concat_length, Option.some.injEq] at hk
        subst hk
        simp [isLoop_eq, hx] at hi
    obtain ⟨before, body, behind, hcode, hrest⟩ := ih hb hq (hp.of_append hlt)
    exact ⟨before, body, behind ++ [i], by simp [code, hcode], hrest⟩
  | loop b body ihb ih =>
    obtain ⟨hqb, hqbody, hqloop⟩ := hq
    have hcode : (loop b body).code = b.code ++ ⟨.beginLoop, body.code.length + 1⟩ ::
        (body.code ++ [⟨.endLoop, body.code.length + 1⟩]) := by simp [code, wrapLoop]
    rw [hcode] at hp
    rcases hp.wrap_cases rfl (nested_code h.2) rfl with hp | ⟨rfl, rfl⟩ | ⟨j, k, hin, rfl, rfl⟩
    · obtain ⟨before, inner, behind, hb, hrest⟩ := ihb h.1 hqb hp
      exact ⟨before, inner, behind ++ wrapLoop body.code, by simp [code, hb], hrest⟩
    · exact ⟨b.code, body, [], by simp [code], rfl, rfl, hqloop⟩
    · obtain ⟨before, inner, behind, hb, rfl, rfl, hinner⟩ := ih h.2 hqbody hin
      refine ⟨b.code ++ ⟨.beginLoop, body.code.length + 1⟩ :: before, inner,
        behind ++ [⟨.endLoop, body.code.length + 1⟩], ?_, ?_, ?_, hinner⟩
      · rw [hcode]
        nth_rewrite 2 [hb]
        simp
      · simp; omega
      · omega

theorem lastKind?_of_getLast? {x : Instruction} (hx : x ∈ b.code.getLast?)
    (hk : x.kind.isFoldable) : b.lastKind? = some x.kind := by
  cases b with
  | nil => simp [code] at hx
  | step b i =>
    obtain rfl : i = x := by simpa [code] using hx
    rfl
  | loop b body =>
    obtain rfl : (⟨.endLoop, body.code.length + 1⟩ : Instruction) = x := by
      simpa [code, wrapLoop, List.getLast?_append, List.getLast?_cons] using hx
    cases hk

/-- **The code of a folded block is folded.** -/
theorem Folded.isFolded (h : b.Folded) : IsFolded b.code := by
  refine ⟨every_code h.every fun i => Instruction.isIdle_of_isLoop, ?_⟩
  induction b with
  | nil => exact .nil
  | step b i ih =>
    obtain ⟨hb, -, hlast⟩ := h
    refine List.isChain_append.2 ⟨ih hb, .singleton _, fun x hx y hy hxy => ?_⟩
    obtain rfl : i = y := by simpa using hy
    by_contra hk
    rw [Bool.not_eq_false] at hk
    exact hlast (hxy ▸ hk) (hxy ▸ lastKind?_of_getLast? hx hk)
  | loop b body ihb ih =>
    obtain ⟨hb, hbody⟩ := h
    have hinner : (body.code ++ [(⟨.endLoop, body.code.length + 1⟩ : Instruction)]).IsChain
        Instruction.Apart := by
      refine List.isChain_append.2 ⟨ih hbody, .singleton _, fun x _ y hy hxy => ?_⟩
      obtain rfl : (⟨.endLoop, body.code.length + 1⟩ : Instruction) = y := by simpa using hy
      rw [hxy]
      rfl
    have hloop : (wrapLoop body.code).IsChain Instruction.Apart := hinner.cons fun _ _ _ => rfl
    refine List.isChain_append.2 ⟨ihb hb, hloop, fun x _ y hy hxy => ?_⟩
    obtain rfl : (⟨.beginLoop, body.code.length + 1⟩ : Instruction) = y := by
      simpa [wrapLoop] using hy
    rw [hxy]
    rfl

theorem Sound.folded (h : b.Sound level) : b.Folded := by
  induction b with
  | nil => trivial
  | step b i ih => exact ⟨ih h.1, h.2.1.isIdle_eq, h.2.2⟩
  | loop b body ihb ih => exact ⟨ihb h.1, ih h.2.1⟩

theorem Sound.everyLoop (h : b.Sound level) :
    b.EveryLoop fun body => body ≠ nil ∧ (1 ≤ level → ¬ IsIdiom body.code) := by
  induction b with
  | nil => trivial
  | step b i ih => exact ih h.1
  | loop b body ihb ih => exact ⟨ihb h.1, ih h.2.1, h.2.2⟩

/-- **The code of a sound block is well formed.** -/
theorem Sound.wellFormed (h : b.Sound level) : WellFormed level b.code := by
  have hloop : b.Every (·.kind.isLoop = false) := h.every.mono fun _ hi => hi.isLoop
  refine ⟨nested_code hloop, fun j k hp => ?_, ?_, h.folded.isFolded.apart, fun hl j k hp => ?_,
    fun hl => ?_⟩
  · obtain ⟨before, body, behind, hcode, rfl, rfl, hne, -⟩ :=
      exists_body_of_pairs hloop h.everyLoop hp
    have hpos : 0 < body.code.length := List.length_pos_iff.2 (mt code_eq_nil_iff.1 hne)
    have hdist : ((before.length + 1 + body.code.length : Nat) : Int) - before.length
        = body.code.length + 1 := by omega
    rw [hcode, hdist]
    refine ⟨by simp [wrapLoop], ?_, by omega⟩
    rw [List.getElem?_append_right (by omega)]
    simp [wrapLoop, Nat.add_assoc, Nat.add_comm 1]
  · refine every_code (h.every.mono fun _ hi => hi.argFits) fun i hi => ?_
    obtain ⟨kind, arg⟩ := i
    cases kind <;> simp_all [Kind.isLoop, Instruction.ArgFits]
  · obtain ⟨before, body, behind, hcode, rfl, rfl, -, hidiom⟩ :=
      exists_body_of_pairs hloop h.everyLoop hp
    have hsplit : b.code = before ++ ⟨.beginLoop, body.code.length + 1⟩ ::
        (body.code ++ ⟨.endLoop, body.code.length + 1⟩ :: behind) := by
      simpa [wrapLoop] using hcode
    rw [hsplit, Brackets.between_eq]
    exact hidiom hl
  · refine every_code (h.every.mono fun _ hi => hi.unfused hl) fun i hi => ?_
    cases hk : i.kind <;> simp_all [Kind.isLoop, Kind.isFused]

end Block

/-- What a text reads as is lowered to a sound block. -/
theorem Block.sound_of_parse? {b : Block} {text : List Char} (level : Int)
    (hb : parse? text = some b) (hbusy : b.Busy) : (b.lowered level).Sound level := by
  refine sound_lowered level ?_ hbusy
  rw [every_iff, commands_of_parse? hb]
  intro i hi
  obtain ⟨c, -, hc⟩ := List.mem_filterMap.1 hi
  exact .of_command hc

/-- **What a text compiles to is well formed.** -/
theorem wellFormed_of_compile {level : Int} {text : List Char} {c : Compilation}
    (h : compile level text = .ok c) : WellFormed level c.program := by
  obtain ⟨b, hb, hbusy, hcode⟩ := compile_eq_ok h
  rw [hcode]
  exact (Block.sound_of_parse? level hb hbusy).wellFormed

/-! ## Well-formed code is that of a block -/

namespace WellFormed

variable {level : Int}

theorem of_nested (xs : List Instruction) {ys : List Instruction} (zs : List Instruction)
    (h : WellFormed level (xs ++ (ys ++ zs))) (hn : loopBrackets.Nested ys) :
    WellFormed level ys := by
  have hlift {j k : Nat} (hp : loopBrackets.Pairs ys j k) :
      loopBrackets.Pairs (xs ++ (ys ++ zs)) (xs.length + j) (xs.length + k) :=
    (hp.append zs).prepend xs
  have hget {j : Nat} (hj : j < ys.length) : (xs ++ (ys ++ zs))[xs.length + j]? = ys[j]? := by
    rw [List.getElem?_append_right (by omega), Nat.add_sub_cancel_left,
      List.getElem?_append_left hj]
  refine ⟨hn, fun j k hp => ?_, fun i hi => h.args i (by simp [hi]),
    h.folded.right_of_append.left_of_append, fun hl j k hp => ?_,
    fun hl i hi => h.unfused hl i (by simp [hi])⟩
  · have hlt := hp.lt_length
    have hjk := hp.lt
    have hjumps := h.jumps _ _ (hlift hp)
    have hdist : ((xs.length + k : Nat) : Int) - (xs.length + j : Nat) = k - j := by omega
    rwa [hget (by omega), hget hlt, hdist] at hjumps
  · have hlt := hp.lt_length
    have hbetween : Brackets.between (xs ++ (ys ++ zs)) (xs.length + j) (xs.length + k)
        = Brackets.between ys j k := by
      rw [Brackets.between_prepend, Brackets.between_append (by omega)]
    rw [← hbetween]
    exact h.idioms hl _ _ (hlift hp)

/-- **A well-formed program is the code of a sound block.** -/
theorem exists_sound {p : Program} (h : WellFormed level p) :
    ∃ b : Block, b.Sound level ∧ b.code = p := by
  have hn := h.nested
  induction hn with
  | nil => exact ⟨.nil, trivial, rfl⟩
  | @snoc xs i hx ho hc ih =>
    have hleft : WellFormed level xs := of_nested [] _ h hx
    obtain ⟨b, hb, rfl⟩ := ih hleft
    have hi : i.Sound level :=
      ⟨by rw [isLoop_eq, ho, hc]; rfl, h.args i (by simp),
        fun hl => h.unfused hl i (by simp)⟩
    refine ⟨b.step i, ⟨hb, hi, fun hk hlast => ?_⟩, rfl⟩
    -- the last instruction of `b` would merge with `i`
    cases b with
    | nil => cases hlast
    | loop _ _ => cases hlast
    | step b j =>
      have hkind : j.kind = i.kind := Option.some_inj.1 hlast
      have hchain := (List.isChain_append.1 h.folded).2.2 j (by simp [Block.code]) i rfl hkind
      rw [hkind, hk] at hchain
      cases hchain
  | @wrap xs ys x y hx hy ho hc ih₁ ih₂ =>
    have hleft : WellFormed level xs := of_nested [] _ h hx
    have hinner : WellFormed level ys :=
      of_nested (xs ++ [x]) [y] (by simpa using h) hy
    obtain ⟨b, hb, rfl⟩ := ih₁ hleft
    obtain ⟨body, hbody, rfl⟩ := ih₂ hinner
    have hp : loopBrackets.Pairs (b.code ++ x :: (body.code ++ [y])) b.code.length
        (b.code.length + 1 + body.code.length) := Brackets.Nested.pairs ho hy hc
    obtain ⟨hbegin, hend, hdist⟩ := h.jumps _ _ hp
    have hjump : ((b.code.length + 1 + body.code.length : Nat) : Int) - b.code.length
        = body.code.length + 1 := by omega
    rw [hjump] at hbegin hend hdist
    obtain rfl : x = ⟨.beginLoop, body.code.length + 1⟩ := by simpa using hbegin
    obtain rfl : y = ⟨.endLoop, body.code.length + 1⟩ := by
      rw [List.getElem?_append_right (by omega)] at hend
      simpa [Nat.add_assoc, Nat.add_comm 1] using hend
    refine ⟨b.loop body, ⟨hb, hbody, ?_, fun hl hidiom => ?_⟩, by simp [Block.code, wrapLoop]⟩
    · rintro rfl
      simp [Block.code] at hdist
    · refine h.idioms hl _ _ hp ?_
      rwa [Brackets.between_eq]

end WellFormed

end TapeLang
