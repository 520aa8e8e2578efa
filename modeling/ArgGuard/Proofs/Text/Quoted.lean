/-
  ArgGuard.Proofs.Text.Quoted — quoted text can be read back.

  The written form of a character tells the character and where it ends (`readChar_escapeChar`),
  and no character is written with a bare quote first. So a quoted text ends at its closing
  quote, whatever follows, and tells the text (`quote_append_inj`). Between the quotes stand
  no bare quote and no raw control (`inner_escape`), and what stands there reads as the text
  (`unescape_escape`).
-/

import ArgGuard.Text.Quoted

namespace ArgGuard.Text.Quoted

/-- Reads one written character off; none where a quote closes the text. -/
def readChar : List Char → Option (Char × List Char)
  | '\\' :: '"' :: r => some ('"', r)
  | '\\' :: '\\' :: r => some ('\\', r)
  | '\\' :: 'b' :: r => some ('\x08', r)
  | '\\' :: 't' :: r => some ('\t', r)
  | '\\' :: 'n' :: r => some ('\n', r)
  | '\\' :: 'f' :: r => some ('\x0c', r)
  | '\\' :: 'r' :: r => some ('\r', r)
  | '\\' :: 'u' :: a :: b :: c :: d :: r => do
    some (Char.ofNat (4096 * (← hexDigit? a) + 256 * (← hexDigit? b) + 16 * (← hexDigit? c) + (← hexDigit? d)), r)
  | c :: r => if c = '"' ∨ c = '\\' then none else some (c, r)
  | [] => none

theorem hexDigit?_digitChar {n : Nat} (h : n < 16) : hexDigit? (Nat.digitChar n) = some n := by
  decide +revert

/-- The four digits of a control are two zeros and two that tell it. -/
theorem hexDigit?_hex4 {n : Nat} (h : n < 0x20) : ∃ a b c d x y, hex4 n = [a, b, c, d] ∧ hexDigit? a = some 0 ∧
    hexDigit? b = some 0 ∧ hexDigit? c = some x ∧ hexDigit? d = some y ∧ 16 * x + y = n := by
  have h₀ : n / 4096 % 16 = 0 := by omega
  have h₁ : n / 256 % 16 = 0 := by omega
  have hzero := hexDigit?_digitChar (show 0 < 16 by decide)
  exact ⟨_, _, _, _, n / 16 % 16, n % 16, rfl, h₀ ▸ hzero, h₁ ▸ hzero, hexDigit?_digitChar (by omega),
    hexDigit?_digitChar (by omega), by omega⟩

/-- A control is told by its four digits. -/
theorem readChar_hex4 {n : Nat} (h : n < 0x20) (r : List Char) :
    readChar ('\\' :: 'u' :: (hex4 n ++ r)) = some (Char.ofNat n, r) := by
  obtain ⟨a, b, c, d, x, y, hhex, ha, hb, hc, hd, hn⟩ := hexDigit?_hex4 h
  simp [readChar, hhex, ha, hb, hc, hd, hn]

/-- What is no escape is read as it stands. -/
theorem readChar_plain {c : Char} (hq : c ≠ '"') (hb : c ≠ '\\') (r : List Char) :
    readChar (c :: r) = some (c, r) := by
  unfold readChar
  split <;> simp_all

/-- The characters that are written as another behind a backslash. -/
def shorts : List (Char × Char) :=
  [('"', '"'), ('\\', '\\'), ('\x08', 'b'), ('\t', 't'), ('\n', 'n'), ('\x0c', 'f'), ('\r', 'r')]

/-- The ways in which a character is written. -/
inductive Written (c : Char) : Prop
  | short {d : Char} (hd : (c, d) ∈ shorts) (h : escapeChar c = ['\\', d])
  | digits (hc : c.toNat < 0x20) (h : escapeChar c = '\\' :: 'u' :: hex4 c.toNat)
  | plain (hq : c ≠ '"') (hb : c ≠ '\\') (hc : ¬ c.toNat < 0x20) (h : escapeChar c = [c])

theorem written (c : Char) : Written c := by
  by_cases hshort : ∃ d, (c, d) ∈ shorts
  · obtain ⟨d, hd⟩ := hshort
    have hall : ∀ e ∈ shorts, escapeChar e.1 = ['\\', e.2] := by decide
    exact .short hd (hall _ hd)
  · simp only [shorts, List.mem_cons, Prod.mk.injEq, List.not_mem_nil, or_false, exists_or, exists_and_left, exists_eq,
      and_true, not_or] at hshort
    obtain ⟨hq, hb, h₁, h₂, h₃, h₄, h₅⟩ := hshort
    by_cases hc : c.toNat < 0x20
    · exact .digits hc (by simp only [escapeChar, hq, hb, h₁, h₂, h₃, h₄, h₅, hc, if_false, if_true])
    · exact .plain hq hb hc (by simp only [escapeChar, hq, hb, h₁, h₂, h₃, h₄, h₅, hc, if_false])

theorem readChar_escapeChar (c : Char) (r : List Char) : readChar (escapeChar c ++ r) = some (c, r) := by
  cases written c with
  | short hd h =>
    have hall : ∀ e ∈ shorts, readChar ('\\' :: e.2 :: r) = some (e.1, r) := by simp [shorts, readChar]
    rw [h]
    exact hall _ hd
  | digits hc h =>
    rw [h, List.cons_append, List.cons_append, readChar_hex4 hc, Char.ofNat_toNat]
  | plain hq hb _ h =>
    rw [h]
    exact readChar_plain hq hb r

theorem readChar_quote (r : List Char) : readChar ('"' :: r) = none := by simp [readChar]

/-- Behind an escaped text and a quote, both the text and the rest are known. -/
theorem escape_append_inj {as bs r r' : List Char} (h : escape as ++ '"' :: r = escape bs ++ '"' :: r') :
    as = bs ∧ r = r' := by
  induction as generalizing bs with
  | nil =>
    cases bs with
    | nil => simpa [escape] using h
    | cons b bs =>
      have := congrArg readChar h
      simp only [escape, List.flatMap_nil, List.flatMap_cons, List.nil_append, List.append_assoc,
        readChar_escapeChar, readChar_quote] at this
      cases this
  | cons a as ih =>
    have hread := congrArg readChar h
    cases bs with
    | nil =>
      simp only [escape, List.flatMap_nil, List.flatMap_cons, List.nil_append, List.append_assoc,
        readChar_escapeChar, readChar_quote] at hread
      cases hread
    | cons b bs =>
      simp only [escape, List.flatMap_cons, List.append_assoc, readChar_escapeChar, Option.some.injEq,
        Prod.mk.injEq] at hread
      obtain ⟨rfl, hrest⟩ := hread
      obtain ⟨rfl, rfl⟩ := ih hrest
      exact ⟨rfl, rfl⟩

theorem toList_quote (s : String) : (quote s).toList = '"' :: (escape s.toList ++ ['"']) := by simp [quote]

theorem quote_append_inj {s t : String} {r r' : List Char} (h : (quote s).toList ++ r = (quote t).toList ++ r') :
    s = t ∧ r = r' := by
  simp only [toList_quote, List.cons_append, List.append_assoc, List.cons.injEq, true_and] at h
  obtain ⟨hl, hr⟩ := escape_append_inj h
  exact ⟨String.toList_injective hl, hr⟩

/-! ## Between the quotes -/

/-- What may stand between two quotes: a backslash takes the character behind it along, no
other quote stands there, and no control. -/
inductive Inner : List Char → Prop
  | nil : Inner []
  | plain {c : Char} {cs : List Char} : c ≠ '"' → c ≠ '\\' → 0x20 ≤ c.toNat → Inner cs → Inner (c :: cs)
  | escaped {c : Char} {cs : List Char} : 0x20 ≤ c.toNat → Inner cs → Inner ('\\' :: c :: cs)

theorem Inner.no_control {cs : List Char} (h : Inner cs) : ∀ c ∈ cs, 0x20 ≤ c.toNat := by
  induction h with
  | nil => simp
  | plain _ _ hc _ ih => exact List.forall_mem_cons.mpr ⟨hc, ih⟩
  | escaped hc _ ih => exact List.forall_mem_cons.mpr ⟨by decide, List.forall_mem_cons.mpr ⟨hc, ih⟩⟩

theorem digitChar_plain {n : Nat} (h : n < 16) :
    n.digitChar ≠ '"' ∧ n.digitChar ≠ '\\' ∧ 0x20 ≤ n.digitChar.toNat := by
  decide +revert

theorem Inner.digits {cs : List Char} (n : Nat) (h : Inner cs) : Inner (hex4 n ++ cs) := by
  have hdigit : ∀ k, k % 16 < 16 := fun k => Nat.mod_lt _ (by decide)
  have hcons : ∀ k {cs : List Char}, Inner cs → Inner (Nat.digitChar (k % 16) :: cs) := fun k _ h =>
    have hk := digitChar_plain (hdigit k)
    .plain hk.1 hk.2.1 hk.2.2 h
  exact hcons _ (hcons _ (hcons _ (hcons _ h)))

theorem Inner.escapeChar (c : Char) {cs : List Char} (h : Inner cs) : Inner (escapeChar c ++ cs) := by
  cases written c with
  | short hd hc =>
    have hall : ∀ e ∈ shorts, 0x20 ≤ e.2.toNat := by decide
    rw [hc]
    exact .escaped (hall _ hd) h
  | digits _ hc =>
    rw [hc]
    exact .escaped (by decide) (h.digits _)
  | plain hq hb hlarge hc =>
    rw [hc]
    exact .plain hq hb (by omega) h

theorem inner_escape (cs : List Char) : Inner (escape cs) := by
  induction cs with
  | nil => exact .nil
  | cons c cs ih => exact ih.escapeChar c

/-- Each written form reads as its character. -/
theorem unescape_escapeChar (c : Char) (r : List Char) :
    unescape (escapeChar c ++ r) = (unescape r).map (c :: ·) := by
  cases written c with
  | short hd h =>
    have hall : ∀ e ∈ shorts, unescape ('\\' :: e.2 :: r) = (unescape r).map (e.1 :: ·) := by simp [shorts, unescape]
    rw [h]
    exact hall _ hd
  | digits hc h =>
    obtain ⟨a, b, c', d, x, y, hhex, ha, hb, hc', hd, hn⟩ := hexDigit?_hex4 hc
    rw [h]
    simp [unescape, hhex, ha, hb, hc', hd, hn, hc, Char.ofNat_toNat]
  | plain hq hb hc h =>
    rw [h]
    simp [unescape, hq, hb, hc]

/-- What stands between the quotes reads as the text. -/
theorem unescape_escape (cs : List Char) : unescape (escape cs) = some cs := by
  induction cs with
  | nil => rfl
  | cons c cs ih => rw [escape, List.flatMap_cons, unescape_escapeChar, ← escape, ih, Option.map_some]

end ArgGuard.Text.Quoted
