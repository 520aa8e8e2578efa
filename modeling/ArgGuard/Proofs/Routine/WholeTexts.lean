/-
  ArgGuard.Proofs.Routine.WholeTexts — whole numbers given as text.

  A text of digits is converted to the number nearest to the whole number it denotes when
  that number is written in the same digits. No bound is tested, so what happens past 2^53
  is up to the writing of numbers: `n` is converted exactly when it is the shortest decimal
  of the number nearest to it and has at most 21 digits (`names_whole`). All other texts stay
  texts, and then no validator with a parameter of integers lets them pass
  (`Validator.whole_text_outcome`).

  So there are whole numbers past 2^53 that are converted, some of them to another one
  (`Validator.whole_texts_converted`).
-/

import ArgGuard.Proofs.Capability.Numeric
import ArgGuard.Proofs.Number.Whole
import ArgGuard.Proofs.Routine.Passing

namespace ArgGuard

open Call Text

variable {σ : Type} {env : Surroundings σ}

/-! ## The number nearest to a whole number -/

namespace Magnitude

variable {n d : Nat} {m : Magnitude}

theorem exponent_of_round (h : round n d = some m) : (n / d).log2 - 52 ≤ m.exponent := by
  unfold round at h
  simp only at h
  generalize (n / d).log2 - 52 = e at h ⊢
  -- a carry of the mantissa adds to the exponent
  have hcarry : e ≤ (if roundDivEven n (d <<< e) = 0x20000000000000 then (0x10000000000000, e + 1)
      else (roundDivEven n (d <<< e), e)).2 := by
    split
    · exact Nat.le_succ _
    · exact Nat.le_refl _
  generalize (if roundDivEven n (d <<< e) = 0x20000000000000 then (0x10000000000000, e + 1)
      else (roundDivEven n (d <<< e), e)) = carried at h hcarry
  obtain ⟨mantissa, exponent⟩ := carried
  simp only at h
  split at h
  · cases h
    exact hcarry
  · cases h

/-- `n` is the shortest decimal of the magnitude nearest to it, and has at most 21 digits. -/
structure PrintsAs (m : Magnitude) (n : Nat) : Prop where
  nearest : round (n * one) 1 = some m
  shortest : m.shortest.IsNat n
  below : n < 10 ^ 21

theorem mul_one_eq (n : Nat) : n * one = n <<< 1074 := by
  have hshift : ∀ e, n <<< e = n * (1 <<< e) := fun e => by rw [Nat.shiftLeft_eq, Nat.shiftLeft_eq, Nat.one_mul]
  exact (hshift 1074).symm

theorem log2_whole {k : Nat} (hn : 2 ^ k ≤ n) : k + 1074 ≤ (n * one / 1).log2 := by
  have hshift : ∀ e, k + e ≤ (n <<< e).log2 := by
    intro e
    have hlarge : 2 ^ (k + e) ≤ n <<< e := by
      rw [Nat.pow_add, Nat.shiftLeft_eq]
      exact Nat.mul_le_mul_right _ hn
    exact (Nat.le_log2 (Nat.ne_of_gt (Nat.lt_of_lt_of_le (Nat.two_pow_pos _) hlarge))).mpr hlarge
  rw [Nat.div_one, mul_one_eq]
  exact hshift 1074

theorem mantissa_whole (hn : n ≠ 0) (h : round (n * one) 1 = some m) : m.mantissa ≠ 0 := by
  have hlog := log2_whole (k := 0) (Nat.pos_of_ne_zero hn)
  have hexponent := exponent_of_round h
  have hcanonical := m.canonical
  omega

/-- The number nearest to a large whole number is whole. -/
theorem units_whole (hn : 2 ^ 53 ≤ n) (h : round (n * one) 1 = some m) : m.units % one = 0 := by
  have hlog := log2_whole hn
  have hexponent := exponent_of_round h
  obtain ⟨e, he⟩ : ∃ e, m.exponent = e + 1074 := ⟨m.exponent - 1074, by omega⟩
  rw [units, he, Nat.shiftLeft_add, ← mul_one_eq, Nat.mul_mod_left]

end Magnitude

namespace Number

theorem ofDecimal_whole {n : Nat} (hn : n ≠ 0) (negative : Bool) :
    ofDecimal negative ⟨n, 0⟩ = ofUnits negative (n * Magnitude.one) 1 := by
  have hpow : n * Nat.pow 10 (0 : Int).toNat = n := Nat.mul_one n
  simp only [ofDecimal]
  rw [if_neg hn, if_neg (by omega), if_neg (by omega), if_pos (Int.le_refl 0), hpow, ofRatio]

theorem ofUnits_of_none (negative : Bool) {n d : Nat} (h : Magnitude.round n d = none) :
    ofUnits negative n d = .infinite negative := by
  unfold ofUnits
  rw [h]

end Number

/-! ## Texts of digits -/

namespace Capability.Numeric

/-- Blanks around it aside, the text is an optional sign, minus or not, and digits. -/
inductive WholeText (s : String) : Bool → List Char → Prop
  | bare {ds : List Char} (digits : Digits ds) (text : (trim s).toList = ds) : WholeText s false ds
  | plus {ds : List Char} (digits : Digits ds) (text : (trim s).toList = '+' :: ds) : WholeText s false ds
  | minus {ds : List Char} (digits : Digits ds) (text : (trim s).toList = '-' :: ds) : WholeText s true ds

namespace WholeText

variable {s : String} {negative : Bool} {ds : List Char}

theorem digits (h : WholeText s negative ds) : Digits ds := by cases h <;> assumption

theorem plain (h : WholeText s negative ds) : Plain (trim s).toList := by
  cases h with
  | bare hds ht => exact ht ▸ .unsigned (.whole hds)
  | plus hds ht => exact ht ▸ .plus (.whole hds)
  | minus hds ht => exact ht ▸ .minus (.whole hds)

theorem sign (h : WholeText s negative ds) : Numeral.sign (trim s).toList = (negative, ds) := by
  cases h with
  | bare hds ht => rw [ht, (Unsigned.whole hds).sign]
  | plus hds ht =>
    rw [ht]
    rfl
  | minus hds ht =>
    rw [ht]
    rfl

theorem withoutPlus (h : WholeText s negative ds) :
    Numeric.withoutPlus (trim s).toList = if negative then '-' :: ds else ds := by
  cases h with
  | bare hds ht => rw [ht, withoutPlus_unsigned (.whole hds)]; rfl
  | plus hds ht =>
    rw [ht]
    rfl
  | minus hds ht =>
    rw [ht]
    rfl

/-- The text denotes the number nearest to the whole number. -/
theorem ofText (h : WholeText s negative ds) (hn : digitsValue ds ≠ 0) :
    Number.ofText (trim s) = .ofUnits negative (digitsValue ds * Magnitude.one) 1 := by
  have hnonempty : (trim s).toList ≠ [] := by
    cases h with
    | bare hds ht => exact ht ▸ hds.1
    | plus hds ht => exact ht ▸ List.cons_ne_nil _ _
    | minus hds ht => exact ht ▸ List.cons_ne_nil _ _
  rw [Number.ofText_numeric h.plain.isNumeric hnonempty, h.sign, Number.unsigned?_digits h.digits.2 h.digits.1]
  exact Number.ofDecimal_whole hn negative

end WholeText

theorem toList_text {negative : Bool} {m : Magnitude} (h : m.mantissa ≠ 0) : (Number.text (.finite negative m)).toList =
    if negative then '-' :: (Number.magnitudeText m).toList else (Number.magnitudeText m).toList := by
  have hzero : m.isZero = false := by simpa [Magnitude.isZero] using h
  cases negative <;> simp [Number.text, hzero]

section names

variable {s : String} {negative : Bool} {ds : List Char} (h : WholeText s negative ds) (hn : digitsValue ds ≠ 0)
include h hn

/-- A number that such a text names is the one nearest to the whole number. -/
theorem nearest_of_names {x : Number} (hx : Names s x) :
    ∃ m, Magnitude.round (digitsValue ds * Magnitude.one) 1 = some m ∧ x = .finite negative m := by
  have hdenoted := hx.denoted
  rw [h.ofText hn] at hdenoted
  cases hround : Magnitude.round (digitsValue ds * Magnitude.one) 1 with
  | some m => exact ⟨m, rfl, hdenoted.trans (Number.ofUnits_of_round negative hround)⟩
  | none =>
    have hfinite := hx.isFinite
    rw [hdenoted.trans (Number.ofUnits_of_none negative hround)] at hfinite
    exact absurd hfinite Bool.false_ne_true

/-- It is named if it is written in the digits of the text. -/
theorem names_nearest {m : Magnitude} (hround : Magnitude.round (digitsValue ds * Magnitude.one) 1 = some m) :
    Names s (.finite negative m) ↔ (Number.magnitudeText m).toList = ds := by
  have hm := Magnitude.mantissa_whole hn hround
  have hdenoted : Number.finite negative m = .ofText (trim s) := by
    rw [h.ofText hn, Number.ofUnits_of_round negative hround]
  have hwritten : (Number.text (.finite negative m)).toList = Numeric.withoutPlus (trim s).toList ↔
      (Number.magnitudeText m).toList = ds := by
    rw [toList_text hm, h.withoutPlus]
    cases negative with
    | true => rw [if_pos rfl, if_pos rfl, List.cons_inj_right]
    | false => rw [if_neg Bool.false_ne_true, if_neg Bool.false_ne_true]
  exact ⟨fun hx => hwritten.mp hx.written, fun hds => ⟨h.plain, hdenoted, hwritten.mpr hds⟩⟩

/-- A text of digits names the number nearest to the whole number it denotes, if that prints as
these digits. -/
theorem names_whole {x : Number} :
    Names s x ↔ ds = Nat.toDigits 10 (digitsValue ds) ∧ ∃ m, x = .finite negative m ∧ m.PrintsAs (digitsValue ds) := by
  constructor
  · intro hx
    obtain ⟨m, hround, rfl⟩ := nearest_of_names h hn hx
    have hm := Magnitude.mantissa_whole hn hround
    have htext := (names_nearest h hn hround).mp hx
    have hnat := Number.magnitudeText_digits hm h.digits.2 htext
    obtain ⟨hshortest, hbelow⟩ := (Number.magnitudeText_eq_natText hm).mp hnat
    refine ⟨?_, m, rfl, hround, hshortest, hbelow⟩
    rw [hnat, natText, String.toList_ofList] at htext
    exact htext.symm
  · rintro ⟨hds, m, rfl, hm⟩
    have hnat := (Number.magnitudeText_eq_natText (Magnitude.mantissa_whole hn hm.nearest)).mpr ⟨hm.shortest, hm.below⟩
    rw [names_nearest h hn hm.nearest, hnat, natText, String.toList_ofList]
    exact hds.symm

end names

end Capability.Numeric

/-! ## Parameters of integers -/

open Capability Capability.Numeric

/-- Integers, also as text. -/
def Capability.integers (id inner : Nat) : Capability σ := Numeric.wrap id (Scalar.int.capability inner)

theorem Capability.coerced_integers (id inner : Nat) (v : Value) :
    (integers id inner : Capability σ).coerced v = pure (Numeric.convert v) := rfl

/-- Exactly the whole numbers pass, on either path. -/
theorem Strategy.passes_integers {path : Strategy} {id inner : Nat} {v : Value} {s : σ} :
    path.Passes (integers id inner) v s ↔ Scalar.int.accepts v = true := by
  cases path with
  | inline =>
    rw [passes_form (f := .isInteger) rfl]
    cases v <;> simp [Fragment.holds, Scalar.accepts, Scalar.ofNumber]
  | generic =>
    rw [passes_check (.inl rfl)]
    show (start (pure (if Scalar.int.accepts v then Verdict.passed else _) : Call σ Verdict) s).1 = _ ↔ _
    cases Scalar.int.accepts v <;> simp

namespace Validator

/-- What becomes of a text of digits past 2^53 where integers are expected. If it is the number
nearest to it that prints as these digits, it is converted to that and passes; else it stays
the text that it is, and no validator accepts it. -/
theorem whole_text_outcome {s : String} {negative : Bool} {ds : List Char} (h : WholeText s negative ds)
    (hlarge : 2 ^ 53 < digitsValue ds) (id inner : Nat) :
    (∀ m : Magnitude, ds = Nat.toDigits 10 (digitsValue ds) → m.PrintsAs (digitsValue ds) →
      (integers id inner : Capability σ).coerced (.text s) = pure (.number (.finite negative m)) ∧
      ∀ (path : Strategy) (t : σ), path.Passes (integers id inner) (.number (.finite negative m)) t) ∧
    ((ds = Nat.toDigits 10 (digitsValue ds) → ∀ m : Magnitude, ¬ m.PrintsAs (digitsValue ds)) →
      (integers id inner : Capability σ).coerced (.text s) = pure (.text s) ∧
      ∀ {env : Surroundings σ} {set : ParameterSet σ} {given : Value} {o : Options σ} {descriptor : String}
        {validator : Validator σ} {p : ParameterSpec σ} {args : Value}, Options.resolve env given = .ok o →
        Returns (compile env set o descriptor) validator → p ∈ set.specs → p.type = integers id inner →
        p.supplied? o args = some (.text s) → ∀ out, ¬ Returns (validator.validate args) out) := by
  have hn : digitsValue ds ≠ 0 := by omega
  constructor
  · intro m hds hm
    refine ⟨?_, fun path t => ?_⟩
    · rw [coerced_integers, convert_of_names ((names_whole h hn).mpr ⟨hds, m, rfl, hm⟩)]
    · rw [Strategy.passes_integers]
      exact beq_iff_eq.mpr (Magnitude.units_whole (Nat.le_of_lt hlarge) hm.nearest)
  · intro hnot
    have hsame : Numeric.convert (.text s) = .text s := by
      refine convert_eq_self fun s' x hs hx => ?_
      cases hs
      obtain ⟨hds, m, _, hm⟩ := (names_whole h hn).mp hx
      exact hnot hds m hm
    refine ⟨by rw [coerced_integers, hsame], ?_⟩
    intro env set given o descriptor validator p args ho hv hp htype hsupplied out hout
    obtain ⟨w, t, t₁, hcoerced, hpasses⟩ :=
      supplied_passes (Plan.keepsOrder_make ho set) hv hout hp hsupplied
    rw [htype, coerced_integers, hsame] at hcoerced
    cases hcoerced
    rw [htype, Strategy.passes_integers] at hpasses
    cases hpasses

end Validator

/-! ## A count

  2^53 + 1 is halfway between two numbers and prints as neither, 2^53 + 2 is a number. -/

def counted (type : Capability Nat) : ParameterSpec Nat := ⟨"count", 0, type, .bool true, .none⟩

def ParameterSet.counting (type : Capability Nat) : ParameterSet Nat := ⟨[counted type]⟩

theorem Capability.Numeric.wholeText_odd : WholeText "9007199254740993" false "9007199254740993".toList :=
  .bare ⟨by decide, List.all_eq_true.mp (by decide)⟩ (by decide)

theorem Capability.Numeric.wholeText_even : WholeText " +9007199254740994 " false "9007199254740994".toList :=
  .plus ⟨by decide, List.all_eq_true.mp (by decide)⟩ (by decide)

theorem Validator.whole_text_outcome_counted :
    (∃ validator : Validator Nat, Returns (compile .fixed (.counting (integers 1 2)) .lenient "") validator ∧
      ∀ out, ¬ Returns (validator.validate (.record [("count", .text "9007199254740993")])) out) ∧
    ∃ m : Magnitude, m.PrintsAs 9007199254740994 ∧
      (integers 1 2 : Capability Nat).coerced (.text " +9007199254740994 ") = pure (.number (.finite false m)) := by
  have hodd := whole_text_outcome (σ := Nat) wholeText_odd (by decide) 1 2
  have heven := whole_text_outcome (σ := Nat) wholeText_even (by decide) 1 2
  constructor
  · have ho : Options.resolve Surroundings.fixed (.record [("strict", .bool false)]) = .ok .lenient := rfl
    have hv : Returns (compile .fixed (.counting (integers 1 2)) .lenient "") _ := ⟨0, rfl⟩
    have hnone : exactly? "9007199254740993" = none := by decide +kernel
    refine ⟨_, hv, (hodd.2 fun hds m hm => ?_).2 ho hv List.mem_cons_self rfl rfl⟩
    have hnames := (names_whole wholeText_odd (by decide)).mpr ⟨hds, m, rfl, hm⟩
    cases hnone.symm.trans (exactly?_eq_some.mpr hnames)
  · have hsome : exactly? " +9007199254740994 " = some (.ofNat 9007199254740994) := by decide +kernel
    obtain ⟨hds, m, _, hm⟩ := (names_whole wholeText_even (by decide)).mp (exactly?_eq_some.mp hsome)
    exact ⟨m, hm, (heven.1 m hds hm).1⟩

/-- Whole numbers past 2^53 are converted, be it to themselves or to another number that prints
as they do: the second is 2^64, which ends in 551616. -/
theorem Validator.whole_texts_converted :
    (integers 1 2 : Capability Nat).coerced (.text " +9007199254740994 ") = pure (.number (.ofNat 9007199254740994)) ∧
    (integers 1 2 : Capability Nat).coerced (.text "18446744073709552000") =
      pure (.number (.ofNat 18446744073709551616)) ∧
    ¬ ∀ (s : String) (negative : Bool) (ds : List Char), WholeText s negative ds → 2 ^ 53 < digitsValue ds →
      (integers 1 2 : Capability Nat).coerced (.text s) = pure (.text s) := by
  have heven : exactly? " +9007199254740994 " = some (.ofNat 9007199254740994) := by decide +kernel
  have hlarge : exactly? "18446744073709552000" = some (.ofNat 18446744073709551616) := by decide +kernel
  have hconverted {s : String} {x : Number} (h : exactly? s = some x) :
      (integers 1 2 : Capability Nat).coerced (.text s) = pure (.number x) := by
    rw [coerced_integers, convert_of_names (exactly?_eq_some.mp h)]
  refine ⟨hconverted heven, hconverted hlarge, fun hall => ?_⟩
  have hkept := hall _ _ _ wholeText_even (by decide)
  rw [hconverted heven] at hkept
  have hvalue : Value.number (.ofNat 9007199254740994) = .text " +9007199254740994 " := returns_pure ⟨0, hkept ▸ rfl⟩
  cases hvalue

end ArgGuard
