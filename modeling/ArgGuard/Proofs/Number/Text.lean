/-
  ArgGuard.Proofs.Number.Text — the text of a number reads back.

  However a decimal is laid out, its text is read as a decimal of the same value
  (`unsigned?_write`), and reading rounds that value. So the text of a number denotes the
  number (`ofText_text`), and no two numbers but the zeros share a text (`text_inj`).
-/

import ArgGuard.Proofs.Number.Shortest
import ArgGuard.Proofs.Text.Digits

namespace ArgGuard

open Text

/-! ## Reading numerals -/

namespace Numeral

/-- An exponent as it is written behind a decimal. -/
def mark (e : Int) : List Char := 'e' :: ((if 0 ≤ e then "+" else "").toList ++ (intText e).toList)

theorem exponent?_digits (s : List Char) {n : Nat} (c : Char) (hc : c = 'e' ∨ c = 'E') {b : Bool}
    (hs : sign s = (b, Nat.toDigits 10 n)) :
    exponent? (c :: s) = some (if b then -(n : Int) else n, []) := by
  obtain ⟨htake, hdrop⟩ := span_digits (r := []) (fun c hc => isDigit_of_mem_toDigits (n := n) hc) (by simp)
  rw [List.append_nil] at htake hdrop
  simp only [exponent?, if_pos hc, hs, htake, hdrop, List.isEmpty_iff, Nat.toDigits_ne_nil, if_false,
    digitsValue_toDigits]

theorem exponent?_mark (e : Int) : exponent? (mark e) = some (e, []) := by
  unfold mark intText natText
  rcases Int.lt_or_le e 0 with h | h
  · rw [if_neg (by omega), if_pos h, exponent?_digits (n := e.natAbs) (b := true) _ _ (.inl rfl) (by simp [sign])]
    simp only [if_true, Option.some.injEq, Prod.mk.injEq, and_true]
    omega
  · rw [if_pos h, if_neg (by omega), exponent?_digits (n := e.natAbs) (b := false) _ _ (.inl rfl) (by simp [sign])]
    simp only [Bool.false_eq_true, if_false, Option.some.injEq, Prod.mk.injEq, and_true]
    omega

theorem exponent?_nil : exponent? [] = some (0, []) := rfl

theorem mark_head (e : Int) : ∀ c ∈ (mark e).head?, isDigit c = false ∧ c ≠ '.' := by
  rintro c hc
  cases hc
  decide

variable {w q r : List Char} {e : Int}

/-- Digits alone, or with an exponent behind them. -/
theorem unsigned?_whole (hw : ∀ c ∈ w, isDigit c = true) (hne : w ≠ [])
    (hr : ∀ c ∈ r.head?, isDigit c = false ∧ c ≠ '.') (he : exponent? r = some (e, [])) :
    unsigned? (w ++ r) = some ⟨digitsValue w, e⟩ := by
  obtain ⟨htake, hdrop⟩ := span_digits hw fun c hc => (hr c hc).1
  simp only [unsigned?, htake, hdrop]
  cases r with
  | nil => simp [hne, he]
  | cons c r =>
    have hc : c ≠ '.' := (hr c rfl).2
    simp [hc, hne, he]

/-- Digits around a point. -/
theorem unsigned?_point (hw : ∀ c ∈ w, isDigit c = true) (hne : w ≠ [])
    (hf : ∀ c ∈ q, isDigit c = true) (hr : ∀ c ∈ r.head?, isDigit c = false ∧ c ≠ '.')
    (he : exponent? r = some (e, [])) :
    unsigned? (w ++ '.' :: (q ++ r)) = some ⟨digitsValue (w ++ q), e - q.length⟩ := by
  obtain ⟨htake, hdrop⟩ := span_digits (r := '.' :: (q ++ r)) hw (by rintro c hc; cases hc; rfl)
  obtain ⟨htake', hdrop'⟩ := span_digits hf fun c hc => (hr c hc).1
  unfold unsigned?
  rw [htake, hdrop]
  simp only [htake', hdrop', he]
  simp [hne]

end Numeral

/-! ## Laying decimals out -/

namespace DecimalLayout

open Numeral

/-- The characters that a decimal is laid out in. -/
theorem toList_write (ds : List Char) (point : Int) :
    (standard.write ds point).toList =
      if -6 < point ∧ point ≤ 21 then
        if (ds.length : Int) ≤ point then ds ++ zeros (point - ds.length).toNat
        else if 0 < point then ds.take point.toNat ++ '.' :: ds.drop point.toNat
        else '0' :: '.' :: (zeros (-point).toNat ++ ds)
      else (match ds with
        | [d] => [d]
        | d :: r => d :: '.' :: r
        | [] => []) ++ mark (point - 1) := by
  unfold write standard
  simp only
  split
  · split
    · simp
    · split <;> simp
  · simp only [String.toList_append, String.toList_ofList, mark, List.append_assoc]
    rfl

theorem isDigit_zeros {n : Nat} : ∀ c ∈ zeros n, isDigit c = true := by
  intro c hc
  rw [(List.mem_replicate.mp hc).2]
  rfl

section layouts

variable {ds : List Char} (hds : ∀ c ∈ ds, isDigit c = true) (hne : ds ≠ []) {point : Int}
include hds hne

/-- Zeros stand behind the digits. -/
theorem unsigned?_padded :
    unsigned? (ds ++ zeros (point - ds.length).toNat) = some ⟨digitsValue ds * 10 ^ (point - ds.length).toNat, 0⟩ := by
  have hread := unsigned?_whole (r := []) (w := ds ++ zeros (point - ds.length).toNat)
    (fun c hc => (List.mem_append.mp hc).elim (hds c) (isDigit_zeros c)) (by simp [hne]) (by simp) exponent?_nil
  rw [List.append_nil] at hread
  rw [hread, zeros, digitsValue_append_zeros]

/-- The point stands between the digits. -/
theorem unsigned?_between (hpos : 0 < point) (hpoint : point < ds.length) :
    unsigned? (ds.take point.toNat ++ '.' :: ds.drop point.toNat) = some ⟨digitsValue ds, point - ds.length⟩ := by
  have hread := unsigned?_point (r := []) (w := ds.take point.toNat) (q := ds.drop point.toNat)
    (fun c hc => hds c (List.mem_of_mem_take hc)) (by simp [hne]; omega)
    (fun c hc => hds c (List.mem_of_mem_drop hc)) (by simp) exponent?_nil
  rw [List.append_nil] at hread
  rw [hread, List.take_append_drop, List.length_drop]
  simp only [Option.some.injEq, Decimal.mk.injEq, true_and]
  omega

omit hne in
/-- Zeros stand between the point and the digits. -/
theorem unsigned?_leading (hpoint : point ≤ 0) :
    unsigned? ('0' :: '.' :: (zeros (-point).toNat ++ ds)) = some ⟨digitsValue ds, point - ds.length⟩ := by
  have hread := unsigned?_point (r := []) (w := ['0']) (q := zeros (-point).toNat ++ ds)
    (by simp [isDigit]) (by simp) (fun c hc => (List.mem_append.mp hc).elim (isDigit_zeros c) (hds c))
    (by simp) exponent?_nil
  rw [List.append_nil] at hread
  have hvalue : digitsValue (['0'] ++ (zeros (-point).toNat ++ ds)) = digitsValue ds := by
    rw [← List.append_assoc]
    exact digitsValue_zeros_append ((-point).toNat + 1) ds
  rw [hvalue, List.length_append, zeros, List.length_replicate] at hread
  refine hread.trans ?_
  simp only [Option.some.injEq, Decimal.mk.injEq, true_and]
  omega

end layouts

/-- An exponent stands behind the digits. -/
theorem unsigned?_mark (ds : List Char) (point : Int) : (∀ c ∈ ds, isDigit c = true) → ds ≠ [] →
    unsigned? ((match ds with
      | [d] => [d]
      | d :: r => d :: '.' :: r
      | [] => []) ++ mark (point - 1)) = some ⟨digitsValue ds, point - ds.length⟩ := by
  intro hds hne
  cases ds with
  | nil => exact absurd rfl hne
  | cons d ds =>
    cases ds with
    | nil =>
      rw [unsigned?_whole hds hne (mark_head _) (exponent?_mark _)]
      simp only [List.length_singleton, Option.some.injEq, Decimal.mk.injEq, true_and]
      omega
    | cons d' r =>
      have hread := unsigned?_point (w := [d]) (q := d' :: r) (r := mark (point - 1))
        (fun c hc => hds c (List.mem_singleton.mp hc ▸ List.mem_cons_self)) (by simp)
        (fun c hc => hds c (List.mem_cons_of_mem _ hc)) (mark_head _) (exponent?_mark _)
      simp only [List.cons_append, List.nil_append] at hread ⊢
      rw [hread]
      simp only [List.length_cons, Option.some.injEq, Decimal.mk.injEq, true_and]
      omega

/-- Reading a decimal that is laid out gives its value, with zeros behind it at most. -/
theorem unsigned?_write {ds : List Char} (hds : ∀ c ∈ ds, isDigit c = true) (hne : ds ≠ []) (point : Int) :
    ∃ j : Nat, unsigned? (standard.write ds point).toList = some ⟨digitsValue ds * 10 ^ j, point - ds.length - j⟩ ∧
      (j = 0 ∨ point - ds.length - j = 0) := by
  have unpadded : ∀ {t : List Char}, unsigned? t = some ⟨digitsValue ds, point - ds.length⟩ →
      ∃ j : Nat, unsigned? t = some ⟨digitsValue ds * 10 ^ j, point - ds.length - j⟩ ∧
        (j = 0 ∨ point - ds.length - j = 0) := by
    intro t ht
    refine ⟨0, ?_, .inl rfl⟩
    rw [ht, Nat.pow_zero, Nat.mul_one, Int.natCast_zero, Int.sub_zero]
  rw [toList_write]
  split
  · split
    · rename_i hpoint
      have hzero : point - ds.length - ((point - ds.length).toNat : Int) = 0 := by omega
      exact ⟨(point - ds.length).toNat, by rw [unsigned?_padded hds hne, hzero], .inr hzero⟩
    · rename_i hpoint
      split
      · rename_i hpos
        exact unpadded (unsigned?_between hds hne hpos (by omega))
      · rename_i hpos
        exact unpadded (unsigned?_leading hds (by omega))
  · exact unpadded (unsigned?_mark ds point hds hne)

end DecimalLayout

/-! ## Magnitudes -/

namespace Number

theorem ofUnits_finite {n d : Nat} {m : Magnitude} (h : ofUnits false n d = .finite false m) (negative : Bool) :
    ofUnits negative n d = .finite negative m := by
  unfold ofUnits at h ⊢
  split at h
  · cases h
    rfl
  · cases h

/-- What reads back as a magnitude reads back with a sign as well. -/
theorem ofDecimal_finite {m : Magnitude} {d : Decimal} (hd : d.InRange) (h : m.readsBack d = true) (negative : Bool) :
    ofDecimal negative d = .finite negative m := by
  have hread : ofDecimal false d = .finite false m := beq_iff_eq.mp h
  rw [ofDecimal_eq false hd] at hread
  rw [ofDecimal_eq negative hd, ofUnits_finite hread]

theorem ofDecimal_congr {d d' : Decimal} (hd : d.InRange) (hd' : d'.InRange) (h : d.fine = d'.fine) (negative : Bool) :
    ofDecimal negative d = ofDecimal negative d' := by
  rw [ofDecimal_eq negative hd, ofDecimal_eq negative hd', h]

variable {m : Magnitude} {k : Nat} {d : Decimal}

/-- The digits of a decimal laid out, the zeros at their end aside. -/
def decimalText (d : Decimal) : String :=
  DecimalLayout.standard.write (significant (Nat.toDigits 10 d.digits))
    (d.exponent + (Nat.toDigits 10 d.digits).length)

/-- Zeros may be counted in the digits or in the exponent. -/
theorem fine_eq {v z j : Nat} {e : Int} (h : d.digits = v * 10 ^ z)
    (he : j + (e + fineness).toNat = z + (d.exponent + fineness).toNat) : Decimal.fine ⟨v * 10 ^ j, e⟩ = d.fine := by
  simp only [Decimal.fine]
  rw [h, Nat.mul_assoc, ← Nat.pow_add, he, Nat.pow_add, Nat.mul_assoc]

/-- A decimal that reads back is laid out as a text that does. -/
theorem unsigned?_decimalText (hk : 0 < k) (hk' : k ≤ 17) (hd : m.Beside k d) (hread : m.readsBack d = true) :
    ∃ d', Numeral.unsigned? (decimalText d).toList = some d' ∧
      ∀ negative, ofDecimal negative d' = .finite negative m := by
  have hrange := hd.inRange hk hk'
  have hf := fineness_eq
  have hplace := m.places_le
  have hdigits : (Nat.toDigits 10 d.digits).length ≤ k + 1 := by
    rw [Nat.length_toDigits_le_iff (by decide) (by omega)]
    exact Nat.lt_of_le_of_lt hd.high (Nat.pow_lt_pow_right (by decide) (by omega))
  obtain ⟨z, hz⟩ := significant_append (Nat.toDigits 10 d.digits)
  have hmem : ∀ c ∈ significant (Nat.toDigits 10 d.digits), isDigit c = true := fun _ => isDigit_of_mem_significant
  have hne := significant_ne_nil hrange.digits
  have hvalue := digitsValue_significant hz
  have hlength : (significant (Nat.toDigits 10 d.digits)).length + z = (Nat.toDigits 10 d.digits).length := by
    rw [← List.length_replicate (n := z) (a := '0'), ← List.length_append, hz]
  unfold decimalText
  generalize significant (Nat.toDigits 10 d.digits) = ds at *
  have hpos : 0 < ds.length := List.length_pos_iff.mpr hne
  have hcount : digitsValue ds ≠ 0 := by
    intro hzero
    exact hrange.digits (by rw [hvalue, hzero, Nat.zero_mul])
  obtain ⟨j, hd', hj⟩ := DecimalLayout.unsigned?_write hmem hne (d.exponent + (Nat.toDigits 10 d.digits).length)
  have hexp := hd.exponent
  rw [Magnitude.pointPosition_eq] at hexp
  have hlow := hrange.low
  have hrange' : Decimal.InRange ⟨digitsValue ds * 10 ^ j,
      d.exponent + (Nat.toDigits 10 d.digits).length - ds.length - j⟩ :=
    ⟨Nat.mul_ne_zero hcount (Nat.ne_of_gt (Nat.pow_pos (by decide))), by simp only; omega, by simp only; omega⟩
  have hfine := fine_eq (v := digitsValue ds) (d := d) hvalue
    (show j + (d.exponent + (Nat.toDigits 10 d.digits).length - ds.length - j + fineness).toNat
      = z + (d.exponent + fineness).toNat by omega)
  refine ⟨_, hd', fun negative => ?_⟩
  rw [ofDecimal_congr hrange' hrange hfine, ofDecimal_finite hrange hread]

/-- The text of a magnitude is read as a decimal that denotes it. -/
theorem unsigned?_magnitudeText (h : m.mantissa ≠ 0) :
    ∃ d, Numeral.unsigned? (magnitudeText m).toList = some d ∧ ∀ negative, ofDecimal negative d = .finite negative m := by
  obtain ⟨k, hk, hk', hbeside, hread⟩ := Magnitude.shortest_spec h
  exact unsigned?_decimalText hk hk' hbeside hread

/-! ## Whole texts -/

theorem isNumeric_of_isDigit {c : Char} (h : isDigit c = true) : isNumeric c = true := by
  simp [isNumeric, h]

theorem isNumeric_intText (n : Int) : ∀ c ∈ (intText n).toList, isNumeric c = true := by
  have hnat : ∀ c ∈ Nat.toDigits 10 n.natAbs, isNumeric c = true := fun c hc =>
    isNumeric_of_isDigit (isDigit_of_mem_toDigits hc)
  intro c hc
  unfold intText natText at hc
  split at hc
  · simp only [String.toList_append, String.toList_ofList, List.mem_append] at hc
    rcases hc with hc | hc
    · cases List.mem_singleton.mp hc
      rfl
    · exact hnat c hc
  · exact hnat c (by simpa using hc)

theorem isNumeric_mark (e : Int) : ∀ c ∈ Numeral.mark e, isNumeric c = true := by
  intro c hc
  unfold Numeral.mark at hc
  rcases List.mem_cons.mp hc with rfl | hc
  · rfl
  rcases List.mem_append.mp hc with hc | hc
  · split at hc
    · cases List.mem_singleton.mp hc
      rfl
    · cases hc
  · exact isNumeric_intText e c hc

/-- A decimal is laid out in the characters of numbers. -/
theorem isNumeric_write {ds : List Char} (hds : ∀ c ∈ ds, isDigit c = true) (point : Int) :
    ∀ c ∈ (DecimalLayout.standard.write ds point).toList, isNumeric c = true := by
  have hnum : ∀ c ∈ ds, isNumeric c = true := fun c hc => isNumeric_of_isDigit (hds c hc)
  have hzero : ∀ n, ∀ c ∈ DecimalLayout.zeros n, isNumeric c = true := by
    intro n c hc
    rw [(List.mem_replicate.mp hc).2]
    rfl
  intro c hc
  rw [DecimalLayout.toList_write] at hc
  split at hc
  · split at hc
    · exact (List.mem_append.mp hc).elim (hnum c) (hzero _ c)
    · split at hc
      · rcases List.mem_append.mp hc with hc | hc
        · exact hnum c (List.mem_of_mem_take hc)
        · rcases List.mem_cons.mp hc with rfl | hc
          · rfl
          · exact hnum c (List.mem_of_mem_drop hc)
      · rcases List.mem_cons.mp hc with rfl | hc
        · rfl
        rcases List.mem_cons.mp hc with rfl | hc
        · rfl
        exact (List.mem_append.mp hc).elim (hzero _ c) (hnum c)
  · rcases List.mem_append.mp hc with hc | hc
    · match ds with
      | [d] => exact hnum c hc
      | d :: d' :: r =>
        rcases List.mem_cons.mp hc with rfl | hc
        · exact hnum c List.mem_cons_self
        rcases List.mem_cons.mp hc with rfl | hc
        · rfl
        · exact hnum c (List.mem_cons_of_mem _ hc)
    · exact isNumeric_mark _ c hc

/-- A decimal begins with a digit. -/
theorem head_write {ds : List Char} (hds : ∀ c ∈ ds, isDigit c = true) (hne : ds ≠ []) (point : Int) :
    ∃ c cs, (DecimalLayout.standard.write ds point).toList = c :: cs ∧ isDigit c = true := by
  obtain ⟨d, r, rfl⟩ := List.exists_cons_of_ne_nil hne
  have hd := hds d List.mem_cons_self
  rw [DecimalLayout.toList_write]
  split
  · split
    · exact ⟨d, _, rfl, hd⟩
    · split
      · obtain ⟨n, hn⟩ : ∃ n, point.toNat = n + 1 := ⟨point.toNat - 1, by omega⟩
        rw [hn]
        exact ⟨d, _, rfl, hd⟩
      · exact ⟨'0', _, rfl, rfl⟩
  · cases r <;> exact ⟨d, _, rfl, hd⟩

theorem isNumeric_magnitudeText (h : m.mantissa ≠ 0) :
    (∃ c cs, (magnitudeText m).toList = c :: cs ∧ isDigit c = true) ∧
      ∀ c ∈ (magnitudeText m).toList, isNumeric c = true := by
  obtain ⟨k, hk, hk', hbeside, _⟩ := Magnitude.shortest_spec h
  exact ⟨head_write (fun _ => isDigit_of_mem_significant) (significant_ne_nil (hbeside.inRange hk hk').digits) _,
    isNumeric_write (fun _ => isDigit_of_mem_significant) _⟩

theorem eq_zero_of_isZero {m : Magnitude} (h : m.isZero = true) : m = .zero := by
  obtain ⟨mantissa, exponent, hm⟩ := m
  have hmantissa : mantissa = 0 := by simpa [Magnitude.isZero] using h
  have hexponent : exponent = 0 := by omega
  subst hmantissa hexponent
  rfl

theorem mantissa_of_isZero {m : Magnitude} (h : m.isZero = false) : m.mantissa ≠ 0 := by
  simpa [Magnitude.isZero] using h

theorem text_of_isZero {x : Number} (h : x.isZero = true) : x.text = "0" := by
  cases x with
  | finite negative m => simp [text, show m.isZero = true from h]
  | _ => cases h

theorem isZero_of_isNegativeZero {x : Number} (h : x.isNegativeZero = true) : x.isZero = true := by
  cases x with
  | finite negative m =>
    cases negative with
    | true => exact h
    | false => cases h
  | _ => cases h

/-- A finite number is written in the characters of numbers. -/
theorem isNumeric_text {x : Number} (h : x.isFinite = true) :
    x.text.toList ≠ [] ∧ ∀ c ∈ x.text.toList, isNumeric c = true := by
  cases x with
  | nan => cases h
  | infinite negative => cases h
  | finite negative m =>
    cases hzero : m.isZero with
    | true => simp [text, hzero, isNumeric, isDigit]
    | false =>
      obtain ⟨⟨c, cs, hcs, _⟩, hnum⟩ := isNumeric_magnitudeText (mantissa_of_isZero hzero)
      cases negative with
      | true =>
        have htext : (text (.finite true m)).toList = '-' :: (magnitudeText m).toList := by simp [text, hzero]
        rw [htext]
        exact ⟨List.cons_ne_nil _ _, fun c hc => (List.mem_cons.mp hc).elim (by rintro rfl; rfl) (hnum c)⟩
      | false =>
        have htext : text (.finite false m) = magnitudeText m := by simp [text, hzero]
        rw [htext]
        exact ⟨by simp [hcs], hnum⟩

theorem isBlank_of_isNumeric {c : Char} (h : isNumeric c = true) : isBlank c = false := by
  have hcode : 43 ≤ c.toNat ∧ c.toNat ≤ 101 := by
    simp only [isNumeric, Bool.or_eq_true, beq_iff_eq, isDigit, Bool.and_eq_true, decide_eq_true_eq] at h
    rcases h with (((⟨hlow, hhigh⟩ | rfl) | rfl) | rfl) | rfl
    · have hlow : '0'.toNat ≤ c.toNat := hlow
      have hhigh : c.toNat ≤ '9'.toNat := hhigh
      simp only [Char.reduceToNat] at hlow hhigh
      omega
    all_goals decide
  simp only [isBlank, blankCodes, List.contains_eq_mem, List.mem_cons, List.not_mem_nil, or_false,
    decide_eq_false_iff_not]
  omega

theorem trim_eq {s : String} (h : ∀ c ∈ s.toList, isBlank c = false) : trim s = s := by
  have hleft : ∀ cs : List Char, (∀ c ∈ cs, isBlank c = false) → trimLeft cs = cs := by
    intro cs hcs
    cases cs with
    | nil => rfl
    | cons c cs => exact List.dropWhile_cons_of_neg (by simp [hcs c List.mem_cons_self])
  apply String.toList_injective
  rw [trim, hleft _ h, hleft _ fun c hc => h c (List.mem_reverse.mp hc), List.reverse_reverse, String.toList_ofList]

/-- A text in the characters of numbers is a sign and a numeral, or denotes nothing. -/
theorem ofText_numeric {s : String} (h : ∀ c ∈ s.toList, isNumeric c = true) (hne : s.toList ≠ []) :
    ofText s = ((Numeral.unsigned? (Numeral.sign s.toList).2).map (ofDecimal (Numeral.sign s.toList).1)).getD .nan := by
  have hrest : ∀ c ∈ (Numeral.sign s.toList).2, isNumeric c = true := by
    unfold Numeral.sign
    split
    · rename_i heq
      exact fun c hc => h c (by rw [heq]; exact List.mem_cons_of_mem _ hc)
    · rename_i heq
      exact fun c hc => h c (by rw [heq]; exact List.mem_cons_of_mem _ hc)
    · exact h
  have hinfinity : (Numeral.sign s.toList).2 ≠ "Infinity".toList := by
    intro heq
    have := hrest 'I' (by rw [heq]; decide)
    cases this
  have hradix : ∀ c, isNumeric c = false → ∀ r, s.toList ≠ '0' :: c :: r := by
    intro c hc r heq
    rw [h c (by rw [heq]; simp)] at hc
    cases hc
  simp only [ofText, trim_eq fun c hc => isBlank_of_isNumeric (h c hc)]
  split
  · exact absurd ‹_› hne
  · exact absurd ‹_› (hradix 'x' rfl _)
  · exact absurd ‹_› (hradix 'X' rfl _)
  · exact absurd ‹_› (hradix 'o' rfl _)
  · exact absurd ‹_› (hradix 'O' rfl _)
  · exact absurd ‹_› (hradix 'b' rfl _)
  · exact absurd ‹_› (hradix 'B' rfl _)
  · rw [if_neg hinfinity]

theorem sign_of_isDigit {c : Char} {cs : List Char} (h : isDigit c = true) :
    Numeral.sign (c :: cs) = (false, c :: cs) := by
  unfold Numeral.sign
  split
  · rename_i heq
    cases heq
    cases h
  · rename_i heq
    cases heq
    cases h
  · rfl

/-- The text of a number denotes the number; the sign of a zero alone is lost. -/
theorem ofText_text {x : Number} (h : x.isNegativeZero = false) : ofText x.text = x := by
  cases x with
  | nan => decide +kernel
  | infinite negative => cases negative <;> decide +kernel
  | finite negative m =>
    cases hzero : m.isZero with
    | true =>
      cases negative with
      | true => simp [isNegativeZero, hzero] at h
      | false =>
        rw [eq_zero_of_isZero hzero]
        decide +kernel
    | false =>
      have hm := mantissa_of_isZero hzero
      obtain ⟨d, hread, hd⟩ := unsigned?_magnitudeText hm
      obtain ⟨⟨c, cs, hcs, hc⟩, hnum⟩ := isNumeric_magnitudeText hm
      cases negative with
      | true =>
        have htext : (text (.finite true m)).toList = '-' :: (magnitudeText m).toList := by simp [text, hzero]
        rw [ofText_numeric (isNumeric_text rfl).2 (isNumeric_text rfl).1, htext]
        simp [Numeral.sign, hread, hd]
      | false =>
        have htext : text (.finite false m) = magnitudeText m := by simp [text, hzero]
        rw [htext, ofText_numeric hnum (by simp [hcs]), hcs, sign_of_isDigit hc, ← hcs, hread]
        simp [hd]

/-- Numbers of one text are the same, or both are zero. -/
theorem text_inj {x y : Number} (hx : x.isNegativeZero = false) (hy : y.isNegativeZero = false) (h : x.text = y.text) :
    x = y := by
  rw [← ofText_text hx, h, ofText_text hy]

end Number

end ArgGuard
