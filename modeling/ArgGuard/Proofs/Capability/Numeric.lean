/-
  ArgGuard.Proofs.Capability.Numeric — which texts are converted to numbers.

  A numeral is an optional sign, digits, and optionally a point and digits (`Plain`). A text
  names a number when it is a numeral, blanks around it aside, and the number it denotes is
  written as that numeral again, a leading plus aside (`Names`): each such text is converted
  and nothing else is (`exactly?_eq_some`). Every finite number written without an exponent
  is named by its own text, a zero of either sign by `0`, so texts and numbers determine each
  other (`exactCoercion_wrap`).
-/

import ArgGuard.Proofs.Capability.Stock
import ArgGuard.Proofs.Number.Text

namespace ArgGuard

open Text Call

variable {σ : Type}

namespace Capability.Numeric

/-! ## Numerals -/

def Digits (ds : List Char) : Prop := ds ≠ [] ∧ ∀ c ∈ ds, isDigit c = true

inductive Unsigned : List Char → Prop
  | whole {ds : List Char} : Digits ds → Unsigned ds
  | point {ds f : List Char} : Digits ds → Digits f → Unsigned (ds ++ '.' :: f)

/-- An optional sign, digits, and optionally a point and digits. -/
inductive Plain : List Char → Prop
  | unsigned {cs : List Char} : Unsigned cs → Plain cs
  | plus {cs : List Char} : Unsigned cs → Plain ('+' :: cs)
  | minus {cs : List Char} : Unsigned cs → Plain ('-' :: cs)

theorem Digits.head {ds : List Char} (h : Digits ds) (r : List Char) :
    ∃ c cs, ds ++ r = c :: cs ∧ isDigit c = true := by
  obtain ⟨c, cs, rfl⟩ := List.exists_cons_of_ne_nil h.1
  exact ⟨c, cs ++ r, rfl, h.2 c List.mem_cons_self⟩

theorem Unsigned.head {cs : List Char} (h : Unsigned cs) : ∃ c r, cs = c :: r ∧ isDigit c = true := by
  cases h with
  | whole hds => simpa using hds.head []
  | point hds _ => exact hds.head _

theorem Unsigned.sign {cs : List Char} (h : Unsigned cs) : Numeral.sign cs = (false, cs) := by
  obtain ⟨c, r, rfl, hc⟩ := h.head
  exact Number.sign_of_isDigit hc

theorem Unsigned.isNumeric {cs : List Char} (h : Unsigned cs) : ∀ c ∈ cs, isNumeric c = true := by
  cases h with
  | whole hds => exact fun c hc => Number.isNumeric_of_isDigit (hds.2 c hc)
  | point hds hf =>
    intro c hc
    rcases List.mem_append.mp hc with hc | hc
    · exact Number.isNumeric_of_isDigit (hds.2 c hc)
    rcases List.mem_cons.mp hc with rfl | hc
    · rfl
    · exact Number.isNumeric_of_isDigit (hf.2 c hc)

theorem Plain.isNumeric {cs : List Char} (h : Plain cs) : ∀ c ∈ cs, isNumeric c = true := by
  cases h with
  | unsigned h => exact h.isNumeric
  | plus h => exact List.forall_mem_cons.mpr ⟨rfl, h.isNumeric⟩
  | minus h => exact List.forall_mem_cons.mpr ⟨rfl, h.isNumeric⟩

theorem sign_cases (cs : List Char) :
    cs = '-' :: (Numeral.sign cs).2 ∨ cs = '+' :: (Numeral.sign cs).2 ∨ cs = (Numeral.sign cs).2 := by
  unfold Numeral.sign
  split
  · exact .inl rfl
  · exact .inr (.inl rfl)
  · exact .inr (.inr rfl)

theorem plain_of_sign {cs : List Char} (h : Unsigned (Numeral.sign cs).2) : Plain cs := by
  rcases sign_cases cs with hcs | hcs | hcs
  · rw [hcs]
    exact .minus h
  · rw [hcs]
    exact .plus h
  · rw [hcs]
    exact .unsigned h

theorem Plain.sign {cs : List Char} (h : Plain cs) : Unsigned (Numeral.sign cs).2 := by
  cases h with
  | unsigned h => rwa [h.sign]
  | plus h => exact h
  | minus h => exact h

/-- The scanner behind the sign accepts exactly the unsigned numerals. -/
theorem unsigned_iff {r : List Char} :
    (!(r.takeWhile isDigit).isEmpty &&
      match r.dropWhile isDigit with
      | [] => true
      | '.' :: f => !f.isEmpty && f.all isDigit
      | _ => false) = true ↔ Unsigned r := by
  constructor
  · intro h
    rw [Bool.and_eq_true] at h
    obtain ⟨hne, htail⟩ := h
    have hwhole : Digits (r.takeWhile isDigit) :=
      ⟨by simpa using hne, fun c hc => List.all_eq_true.mp List.all_takeWhile c hc⟩
    have hr := List.takeWhile_append_dropWhile (p := isDigit) (l := r)
    split at htail
    · rename_i hdrop
      rw [hdrop, List.append_nil] at hr
      rw [← hr]
      exact .whole hwhole
    · rename_i f hdrop
      simp only [Bool.and_eq_true, Bool.not_eq_true', List.isEmpty_eq_false_iff, List.all_eq_true] at htail
      rw [← hr, hdrop]
      exact .point hwhole htail
    · cases htail
  · intro h
    cases h with
    | whole hds =>
      obtain ⟨htake, hdrop⟩ := span_digits (r := []) hds.2 (by simp)
      rw [List.append_nil] at htake hdrop
      simp [htake, hdrop, hds.1]
    | @point ds f hds hf =>
      obtain ⟨htake, hdrop⟩ := span_digits (r := '.' :: f) hds.2 (by rintro c hc; cases hc; rfl)
      rw [htake, hdrop]
      simp only [Bool.and_eq_true, Bool.not_eq_true', List.isEmpty_eq_false_iff, List.all_eq_true]
      exact ⟨hds.1, hf⟩

theorem isNumeral_iff {cs : List Char} : isNumeral cs = true ↔ Plain cs :=
  ⟨fun h => plain_of_sign (unsigned_iff.mp h), fun h => unsigned_iff.mpr h.sign⟩

/-! ## The number that a text names -/

/-- Blanks around it aside, the text is a numeral, and the number is written as that numeral
again, a leading plus aside. -/
structure Names (s : String) (x : Number) : Prop where
  plain : Plain (trim s).toList
  denoted : x = Number.ofText (trim s)
  written : x.text.toList = withoutPlus (trim s).toList

theorem exactly?_eq_some {s : String} {x : Number} : exactly? s = some x ↔ Names s x := by
  simp only [exactly?]
  constructor
  · intro h
    split at h
    · rename_i hplain
      split at h
      · rename_i hwritten
        have hx := Option.some.inj h
        rw [hx] at hwritten
        exact ⟨isNumeral_iff.mp hplain, hx.symm, hwritten⟩
      · cases h
    · cases h
  · rintro ⟨hplain, hx, hwritten⟩
    rw [if_pos (isNumeral_iff.mpr hplain), ← hx, if_pos hwritten]

theorem convert_of_names {s : String} {x : Number} (h : Names s x) : convert (.text s) = .number x := by
  simp only [convert, exactly?_eq_some.mpr h]

theorem names_of_convert {s : String} {x : Number} (h : convert (.text s) = .number x) : Names s x := by
  rw [convert] at h
  split at h
  · rename_i y hy
    cases h
    exact exactly?_eq_some.mp hy
  · cases h

theorem convert_eq_self {v : Value} (h : ∀ s x, v = .text s → ¬ Names s x) : convert v = v := by
  cases v with
  | text s =>
    cases hs : exactly? s with
    | none => simp only [convert, hs]
    | some x => exact absurd (exactly?_eq_some.mp hs) (h s x rfl)
  | _ => rfl

theorem mem_of_mem_withoutPlus {c : Char} {cs : List Char} (h : c ∈ withoutPlus cs) : c ∈ cs := by
  unfold withoutPlus at h
  split at h
  · exact List.mem_cons_of_mem _ h
  · exact h

/-- The named number is finite: the others are written in letters. -/
theorem Names.isFinite {s : String} {x : Number} (h : Names s x) : x.isFinite = true := by
  have hnum : ∀ c ∈ x.text.toList, isNumeric c = true := fun c hc =>
    h.plain.isNumeric c (mem_of_mem_withoutPlus (h.written ▸ hc))
  cases x with
  | nan => cases hnum 'N' (by decide)
  | infinite negative =>
    cases hnum 'I' (by cases negative <;> decide)
  | finite negative m => rfl

/-- A negative zero is written `0`, which denotes the other one. -/
theorem Names.isNegativeZero {s : String} {x : Number} (h : Names s x) : x.isNegativeZero = false := by
  cases hneg : x.isNegativeZero with
  | false => rfl
  | true =>
    have htext : x.text.toList = ['0'] := by
      cases x with
      | finite negative m =>
        cases negative with
        | true => simp [Number.text, show m.isZero = true from hneg]
        | false => cases hneg
      | _ => cases hneg
    have hzero : (trim s).toList = ['0'] ∨ (trim s).toList = ['+', '0'] := by
      have hwritten := h.written
      rw [htext] at hwritten
      unfold withoutPlus at hwritten
      split at hwritten
      · rename_i heq
        rw [heq, ← hwritten]
        exact .inr rfl
      · exact .inl hwritten.symm
    have hof : x = .zero := by
      rw [h.denoted]
      rcases hzero with hzero | hzero
      · rw [show trim s = "0" from String.toList_injective (by rw [hzero]; rfl)]
        decide +kernel
      · rw [show trim s = "+0" from String.toList_injective (by rw [hzero]; rfl)]
        decide +kernel
    rw [hof] at hneg
    cases hneg

/-! ## The text of a number names it -/

theorem digits_zeros {ds : List Char} (h : ∀ c ∈ ds, isDigit c = true) (n : Nat) :
    ∀ c ∈ DecimalLayout.zeros n ++ ds, isDigit c = true := by
  intro c hc
  rcases List.mem_append.mp hc with hc | hc
  · rw [(List.mem_replicate.mp hc).2]
    rfl
  · exact h c hc

/-- A decimal laid out without an exponent is a numeral. -/
theorem unsigned_write {ds : List Char} (h : Digits ds) {point : Int}
    (he : 'e' ∉ (DecimalLayout.standard.write ds point).toList) :
    Unsigned (DecimalLayout.standard.write ds point).toList := by
  obtain ⟨hne, hds⟩ := h
  rw [DecimalLayout.toList_write] at he ⊢
  split at he
  · rename_i hpos
    rw [if_pos hpos]
    split
    · refine .whole ⟨by simp [hne], fun c hc => ?_⟩
      rcases List.mem_append.mp hc with hc | hc
      · exact hds c hc
      · exact digits_zeros (fun _ h => absurd h List.not_mem_nil) _ c (by simpa using hc)
    split
    · refine .point ⟨?_, fun c hc => hds c (List.mem_of_mem_take hc)⟩
        ⟨?_, fun c hc => hds c (List.mem_of_mem_drop hc)⟩
      · simp only [ne_eq, List.take_eq_nil_iff, hne, or_false]
        omega
      · simp only [ne_eq, List.drop_eq_nil_iff]
        omega
    · have hzero : Digits ['0'] := ⟨by simp, by simp [isDigit]⟩
      exact .point hzero ⟨by simp [hne], digits_zeros hds _⟩
  · exact absurd (List.mem_append_right _ List.mem_cons_self) he

theorem unsigned_magnitudeText {m : Magnitude} (hm : m.mantissa ≠ 0) (he : 'e' ∉ (Number.magnitudeText m).toList) :
    Unsigned (Number.magnitudeText m).toList := by
  obtain ⟨k, hk, hk', hbeside, _⟩ := Magnitude.shortest_spec hm
  exact unsigned_write ⟨significant_ne_nil (hbeside.inRange hk hk').digits, fun _ => isDigit_of_mem_significant⟩ he

theorem withoutPlus_unsigned {cs : List Char} (h : Unsigned cs) : withoutPlus cs = cs := by
  obtain ⟨c, r, rfl, hc⟩ := h.head
  unfold withoutPlus
  split
  · rename_i heq
    cases heq
    cases hc
  · rfl

/-- A finite number that is written without an exponent is written as a numeral. -/
theorem plain_text {x : Number} (h : x.isFinite = true) (he : 'e' ∉ x.text.toList) :
    Plain x.text.toList ∧ withoutPlus x.text.toList = x.text.toList := by
  cases x with
  | nan => cases h
  | infinite negative => cases h
  | finite negative m =>
    cases hzero : m.isZero with
    | true =>
      have htext : (Number.text (.finite negative m)).toList = ['0'] := by simp [Number.text, hzero]
      rw [htext]
      exact ⟨.unsigned (.whole ⟨by simp, by simp [isDigit]⟩), rfl⟩
    | false =>
      have hm := Number.mantissa_of_isZero hzero
      cases negative with
      | true =>
        have htext : (Number.text (.finite true m)).toList = '-' :: (Number.magnitudeText m).toList := by
          simp [Number.text, hzero]
        rw [htext] at he ⊢
        exact ⟨.minus (unsigned_magnitudeText hm fun hc => he (List.mem_cons_of_mem _ hc)), rfl⟩
      | false =>
        have htext : Number.text (.finite false m) = Number.magnitudeText m := by simp [Number.text, hzero]
        rw [htext] at he ⊢
        have hunsigned := unsigned_magnitudeText hm he
        exact ⟨.unsigned hunsigned, withoutPlus_unsigned hunsigned⟩

theorem trim_text {x : Number} (h : x.isFinite = true) : trim x.text = x.text :=
  Number.trim_eq fun c hc => Number.isBlank_of_isNumeric ((Number.isNumeric_text h).2 c hc)

theorem names_text {x : Number} (h : x.isFinite = true) (hz : x.isNegativeZero = false) (he : 'e' ∉ x.text.toList) :
    Names x.text x := by
  obtain ⟨hplain, hwithout⟩ := plain_text h he
  refine ⟨?_, ?_, ?_⟩
  · rwa [trim_text h]
  · rw [trim_text h, Number.ofText_text hz]
  · rw [trim_text h, hwithout]

/-- The text of a finite number is converted to the number; a zero loses its sign. -/
theorem convert_text {x : Number} (h : x.isFinite = true) (he : 'e' ∉ x.text.toList) :
    convert (.text x.text) = .number (if x.isZero then .zero else x) := by
  cases hzero : x.isZero with
  | true =>
    have htext : x.text = Number.zero.text := (Number.text_of_isZero hzero).trans (Number.text_of_isZero rfl).symm
    rw [htext]
    exact convert_of_names (names_text rfl rfl (htext ▸ he))
  | false =>
    have hneg : x.isNegativeZero = false :=
      Bool.eq_false_iff.mpr fun hneg => Bool.eq_false_iff.mp hzero (Number.isZero_of_isNegativeZero hneg)
    exact convert_of_names (names_text h hneg he)

/-! ## The coercion -/

/-- What a coercion of numbers given as text promises. -/
structure ExactCoercion (c : Value → Call σ Value) : Prop where
  /-- What names no number is left as it is. -/
  other : ∀ v, (∀ s x, v = .text s → ¬ Names s x) → c v = pure v
  named : ∀ s x, Names s x → c (.text s) = pure (.number x) ∧ x.isFinite = true ∧ x.isNegativeZero = false
  again : ∀ v, (c v >>= c) = c v
  /-- Texts of one number are the same numeral, a leading plus aside. -/
  same : ∀ s s' x, Returns (c (.text s)) (.number x) → Returns (c (.text s')) (.number x) →
    withoutPlus (trim s).toList = withoutPlus (trim s').toList
  /-- The text of a number is converted to the number, unless it has an exponent. -/
  back : ∀ x : Number, x.isFinite = true → 'e' ∉ x.text.toList →
    c (.text x.text) = pure (.number (if x.isZero then .zero else x))

theorem exactCoercion_convert : ExactCoercion fun v => (pure (convert v) : Call σ Value) where
  other v h := by rw [convert_eq_self h]
  named s x h := ⟨by rw [convert_of_names h], h.isFinite, h.isNegativeZero⟩
  again v := by rw [pure_bind, convert_convert]
  same s s' x h h' := by
    have hx := names_of_convert (returns_pure h).symm
    have hx' := names_of_convert (returns_pure h').symm
    rw [← hx.written, hx'.written]
  back x h he := by rw [convert_text h he]

/-- Wrapping again changes nothing about the coercion. -/
theorem coerce?_foldr {inner : Capability σ} (h : inner.coerce? = none) (id : Nat) (ids : List Nat) :
    ((id :: ids).foldr wrap inner).coerce? = some fun v => pure (convert v) := by
  induction ids generalizing id with
  | nil =>
    simp only [List.foldr_cons, List.foldr_nil, wrap, coerced, h]
  | cons next ids ih =>
    have hnext := ih next
    simp only [List.foldr_cons] at hnext
    simp only [List.foldr_cons]
    show some (fun v => coerced (wrap next (ids.foldr wrap inner)) (convert v)) = _
    simp only [coerced, hnext, convert_convert]

/-- Wrapped any number of times, a capability without a coercion gets one and the same exact
coercion of numbers given as text. -/
theorem exactCoercion_wrap {inner : Capability σ} (h : inner.coerce? = none) :
    ∃ c : Value → Call σ Value, ExactCoercion c ∧
      ∀ id ids, ((id :: ids).foldr wrap inner).coerce? = some c :=
  ⟨_, exactCoercion_convert, fun id ids => coerce?_foldr h id ids⟩

theorem exactCoercion_wrap_int : ∃ c : Value → Call Unit Value, ExactCoercion c ∧
    ∀ id ids, ((id :: ids).foldr wrap (Scalar.int.capability 0)).coerce? = some c :=
  exactCoercion_wrap rfl

end Capability.Numeric

end ArgGuard
