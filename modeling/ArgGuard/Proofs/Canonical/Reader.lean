/-
  ArgGuard.Proofs.Canonical.Reader — JSON, and what a canonical text says in it.

  `read` reads a whole text by the grammar of JSON: blanks around tokens, every escape,
  numbers in either notation, and of equal keys the last content in the first place. Written
  trees are read back (`value?_render`), whatever follows them, as long as it cannot belong
  to a number.
-/

import ArgGuard.Proofs.Canonical
import ArgGuard.Proofs.Text.Index
import ArgGuard.Proofs.Text.Units

namespace ArgGuard.Canonical

open Text

/-! ## The grammar -/

namespace Reader

def isSpace (c : Char) : Bool := c == ' ' || c == '\t' || c == '\n' || c == '\r'

def skip (cs : List Char) : List Char := cs.dropWhile isSpace

/-- The unit that four hexadecimal digits of either case denote. -/
def unit? (a b c d : Char) : Option Nat := do
  some (4096 * (← Numeral.radixDigit? 16 a) + 256 * (← Numeral.radixDigit? 16 b) + 16 * (← Numeral.radixDigit? 16 c)
    + (← Numeral.radixDigit? 16 d))

/-- The unit that a short escape stands for. -/
def escaped? : Char → Option Nat
  | '"' => some 0x22
  | '\\' => some 0x5c
  | '/' => some 0x2f
  | 'b' => some 0x08
  | 'f' => some 0x0c
  | 'n' => some 0x0a
  | 'r' => some 0x0d
  | 't' => some 0x09
  | _ => none

/-- Reads the units of a text up to the quote that closes it. -/
def textUnits? : List Char → Option (List Nat × List Char)
  | '"' :: r => some ([], r)
  | '\\' :: 'u' :: a :: b :: c :: d :: r => do
    let u ← unit? a b c d
    (textUnits? r).map fun p => (u :: p.1, p.2)
  | '\\' :: c :: r => do
    let u ← escaped? c
    (textUnits? r).map fun p => (u :: p.1, p.2)
  | c :: r =>
    if c.toNat < 0x20 then none else (textUnits? r).map fun p => (charUnits c ++ p.1, p.2)
  | [] => none

/-- The characters that units stand for; half of a pair alone stands for none. -/
def ofUnits? : List Nat → Option (List Char)
  | [] => some []
  | u :: us =>
    if u < 0xD800 ∨ 0xE000 ≤ u then (ofUnits? us).map (Char.ofNat u :: ·)
    else
      match us with
      | v :: us =>
        if u < 0xDC00 ∧ 0xDC00 ≤ v ∧ v < 0xE000 then
          (ofUnits? us).map (Char.ofNat (0x10000 + 0x400 * (u - 0xD800) + (v - 0xDC00)) :: ·)
        else none
      | [] => none

/-- Reads a text behind its opening quote. -/
def text? (cs : List Char) : Option (String × List Char) := do
  let (us, r) ← textUnits? cs
  some (String.ofList (← ofUnits? us), r)

/-- A character of a number, in either notation. -/
def isNumeral (c : Char) : Bool := isNumeric c || c == 'E'

/-- What stands behind a fraction, if there is one; a point alone is none. -/
def fraction? : List Char → Option (List Char)
  | '.' :: r => if (r.takeWhile isDigit).isEmpty then none else some (r.dropWhile isDigit)
  | r => some r

/-- Digits as an index has them, and perhaps a fraction and an exponent. -/
def isUnsigned (cs : List Char) : Bool :=
  isIndexText (String.ofList (cs.takeWhile isDigit)) &&
    match (fraction? (cs.dropWhile isDigit)).bind Numeral.exponent? with
    | some (_, []) => true
    | _ => false

/-- Whether a token is a number of JSON. -/
def isNumber : List Char → Bool
  | '-' :: r => isUnsigned r
  | r => isUnsigned r

def number? (cs : List Char) : Option (Value × List Char) :=
  let token := cs.takeWhile isNumeral
  if isNumber token then some (.number (Number.ofText (String.ofList token)), cs.dropWhile isNumeral) else none

mutual

/-- Reads a value, blanks before it aside. At each level a character is read, so that as many
levels as there are characters do. -/
def value? : Nat → List Char → Option (Value × List Char)
  | 0, _ => none
  | n + 1, cs =>
    match skip cs with
    | 'n' :: 'u' :: 'l' :: 'l' :: r => some (.null, r)
    | 't' :: 'r' :: 'u' :: 'e' :: r => some (.bool true, r)
    | 'f' :: 'a' :: 'l' :: 's' :: 'e' :: r => some (.bool false, r)
    | '"' :: r => do
      let (s, r) ← text? r
      some (.text s, r)
    | '[' :: r =>
      match skip r with
      | ']' :: r => some (.list [], r)
      | r => do
        let (v, r) ← value? n r
        let (vs, r) ← items? n r
        some (.ofItems (v :: vs), r)
    | '\x7b' :: r =>
      match skip r with
      | '\x7d' :: r => some (.record [], r)
      | r => do
        let (m, r) ← member? n r
        let (ms, r) ← members? n r
        some (.record (Entries.ofList (m :: ms)), r)
    | r => number? r

/-- Reads further items up to the bracket that closes the list. -/
def items? : Nat → List Char → Option (List Value × List Char)
  | 0, _ => none
  | n + 1, cs =>
    match skip cs with
    | ']' :: r => some ([], r)
    | ',' :: r => do
      let (v, r) ← value? n r
      let (vs, r) ← items? n r
      some (v :: vs, r)
    | _ => none

/-- Reads a key and its content. -/
def member? : Nat → List Char → Option ((String × Value) × List Char)
  | 0, _ => none
  | n + 1, cs =>
    match skip cs with
    | '"' :: r => do
      let (k, r) ← text? r
      match skip r with
      | ':' :: r => do
        let (v, r) ← value? n r
        some ((k, v), r)
      | _ => none
    | _ => none

/-- Reads further members up to the brace that closes the object. -/
def members? : Nat → List Char → Option (Entries Value × List Char)
  | 0, _ => none
  | n + 1, cs =>
    match skip cs with
    | '\x7d' :: r => some ([], r)
    | ',' :: r => do
      let (m, r) ← member? n r
      let (ms, r) ← members? n r
      some (m :: ms, r)
    | _ => none

end

/-- The value that a whole text says in JSON, if it is JSON. -/
def read (s : String) : Option Value :=
  match value? (s.toList.length + 1) s.toList with
  | some (v, r) => if (skip r).isEmpty then some v else none
  | none => none

example : (read " [1, \"\\u00e9\\/\", \x7b\"a\": null\x7d]\n").isSome = true ∧ (read "[1,]").isNone = true ∧
    (read "01").isNone = true ∧ (read "\"\\ud800\"").isNone = true := by decide +kernel

/-! ## Texts -/

theorem radixDigit?_digitChar {n : Nat} (h : n < 16) : Numeral.radixDigit? 16 (Nat.digitChar n) = some n := by
  decide +revert

/-- A control is one unit, written in four digits. -/
theorem unit?_hex4 {n : Nat} (h : n < 0x20) :
    unit? (Nat.digitChar (n / 4096 % 16)) (Nat.digitChar (n / 256 % 16)) (Nat.digitChar (n / 16 % 16))
      (Nat.digitChar (n % 16)) = some n := by
  have h₀ : n / 4096 % 16 = 0 := by omega
  have h₁ : n / 256 % 16 = 0 := by omega
  have h₂ : n / 16 % 16 < 16 := by omega
  have h₃ : n % 16 < 16 := by omega
  have hn : 16 * (n / 16 % 16) + n % 16 = n := by omega
  simp [unit?, h₀, h₁, radixDigit?_digitChar h₂, radixDigit?_digitChar h₃,
    radixDigit?_digitChar (show 0 < 16 by decide), hn]

theorem charUnits_ascii {c : Char} (h : c.toNat < 0x20) : charUnits c = [c.toNat] := if_pos (by omega)

/-- What is no escape is read as it stands. -/
theorem textUnits?_plain {c : Char} (hq : c ≠ '"') (hb : c ≠ '\\') (hc : ¬ c.toNat < 0x20) (r : List Char) :
    textUnits? (c :: r) = (textUnits? r).map fun p => (charUnits c ++ p.1, p.2) := by
  rw [textUnits?.eq_def]
  split
  · simp_all
  · simp_all
  · simp_all
  · rename_i heq
    cases heq
    rw [if_neg hc]
  · rename_i heq
    cases heq

theorem textUnits?_short {d : Char} {u : Nat} (hd : d ≠ 'u') (hu : escaped? d = some u) (r : List Char) :
    textUnits? ('\\' :: d :: r) = (textUnits? r).map fun p => (u :: p.1, p.2) := by
  rw [textUnits?.eq_def]
  simp [hd, hu]

/-- A character that is written is read as its units. -/
theorem textUnits?_escapeChar (c : Char) (r : List Char) :
    textUnits? (Quoted.escapeChar c ++ r) = (textUnits? r).map fun p => (charUnits c ++ p.1, p.2) := by
  cases Quoted.written c with
  | short hd h =>
    have hall : ∀ e ∈ Quoted.shorts, e.2 ≠ 'u' ∧ charUnits e.1 = [e.1.toNat] ∧ escaped? e.2 = some e.1.toNat := by decide
    obtain ⟨hu, hunits, hescaped⟩ := hall _ hd
    rw [h, hunits]
    exact textUnits?_short hu hescaped r
  | digits hc h =>
    rw [h, charUnits_ascii hc, Quoted.hex4]
    simp only [List.cons_append, List.nil_append, textUnits?, unit?_hex4 hc]
    rfl
  | plain hq hb hc h =>
    rw [h]
    exact textUnits?_plain hq hb hc r

theorem textUnits?_escape (cs r : List Char) :
    textUnits? (Quoted.escape cs ++ '"' :: r) = some (cs.flatMap charUnits, r) := by
  induction cs with
  | nil => rfl
  | cons c cs ih =>
    have hsplit : Quoted.escape (c :: cs) ++ '"' :: r = Quoted.escapeChar c ++ (Quoted.escape cs ++ '"' :: r) := by
      simp [Quoted.escape]
    rw [hsplit, textUnits?_escapeChar, ih]
    rfl

theorem ofUnits?_charUnits (c : Char) (us : List Nat) :
    ofUnits? (charUnits c ++ us) = (ofUnits? us).map (c :: ·) := by
  rcases charUnits_cases c with ⟨hc, hcode⟩ | ⟨high, low, hc, hhigh, hlow, hcode⟩
  · rw [hc, List.singleton_append, ofUnits?.eq_def]
    simp only
    rw [if_pos hcode, Char.ofNat_toNat]
  · rw [hc, List.cons_append, List.singleton_append, ofUnits?.eq_def]
    simp only
    have hn : 0x10000 + 0x400 * (0xD800 + high - 0xD800) + (0xDC00 + low - 0xDC00) = c.toNat := by omega
    rw [if_neg (by omega), if_pos (by omega), hn, Char.ofNat_toNat]

theorem ofUnits?_units (cs : List Char) : ofUnits? (cs.flatMap charUnits) = some cs := by
  induction cs with
  | nil => rfl
  | cons c cs ih => rw [List.flatMap_cons, ofUnits?_charUnits, ih, Option.map_some]

theorem text?_quote (s : String) (r : List Char) :
    ∃ cs, (Quoted.quote s).toList ++ r = '"' :: cs ∧ text? cs = some (s, r) := by
  refine ⟨Quoted.escape s.toList ++ '"' :: r, by simp [Quoted.toList_quote], ?_⟩
  simp [text?, textUnits?_escape, ofUnits?_units]

/-! ## Numbers -/

theorem isUnsigned_whole {w r : List Char} {e : Int} (hw : ∀ c ∈ w, isDigit c = true)
    (hindex : isIndexText (String.ofList w) = true) (hr : ∀ c ∈ r.head?, isDigit c = false ∧ c ≠ '.')
    (he : Numeral.exponent? r = some (e, [])) : isUnsigned (w ++ r) = true := by
  obtain ⟨htake, hdrop⟩ := span_digits hw fun c hc => (hr c hc).1
  have hfraction : fraction? r = some r := by
    unfold fraction?
    split
    · exact absurd rfl (hr '.' rfl).2
    · rfl
  simp [isUnsigned, htake, hdrop, hindex, hfraction, he]

theorem isUnsigned_point {w q r : List Char} {e : Int} (hw : ∀ c ∈ w, isDigit c = true)
    (hindex : isIndexText (String.ofList w) = true) (hq : ∀ c ∈ q, isDigit c = true) (hne : q ≠ [])
    (hr : ∀ c ∈ r.head?, isDigit c = false) (he : Numeral.exponent? r = some (e, [])) :
    isUnsigned (w ++ '.' :: (q ++ r)) = true := by
  obtain ⟨htake, hdrop⟩ := span_digits (r := '.' :: (q ++ r)) hw (by rintro c hc; cases hc; rfl)
  obtain ⟨htake', hdrop'⟩ := span_digits hq hr
  simp [isUnsigned, htake, hdrop, hindex, fraction?, htake', hdrop', hne, he]

/-- A decimal without a zero in front is laid out as JSON has it. -/
theorem isUnsigned_write {d : Char} {ds : List Char} (hds : ∀ c ∈ d :: ds, isDigit c = true)
    (hd : d ≠ '0') (point : Int) :
    isUnsigned (DecimalLayout.standard.write (d :: ds) point).toList = true := by
  have hmark := fun e c hc => (Numeral.mark_head e c hc).1
  rw [DecimalLayout.toList_write]
  split
  · split
    · -- zeros stand behind the digits
      have hall : ∀ c ∈ d :: (ds ++ DecimalLayout.zeros (point - (d :: ds).length).toNat), isDigit c = true := by
        intro c hc
        exact (List.mem_append.mp (List.cons_append ▸ hc)).elim (hds c) (DecimalLayout.isDigit_zeros c)
      have hread := isUnsigned_whole (r := []) hall (isIndexText_ofList hall hd) (by simp) Numeral.exponent?_nil
      rwa [List.append_nil] at hread
    · split
      · -- the point stands between the digits
        obtain ⟨n, hn⟩ : ∃ n, point.toNat = n + 1 := ⟨point.toNat - 1, by omega⟩
        have hall : ∀ c ∈ d :: ds.take n, isDigit c = true := fun c hc =>
          hds c ((List.mem_cons.mp hc).elim (fun h => h ▸ List.mem_cons_self) fun h =>
            List.mem_cons_of_mem _ (List.mem_of_mem_take h))
        have hread := isUnsigned_point (r := []) (q := ds.drop n) hall (isIndexText_ofList hall hd)
          (fun c hc => hds c (List.mem_cons_of_mem _ (List.mem_of_mem_drop hc))) (by simp; simp at *; omega) (by simp)
          Numeral.exponent?_nil
        rw [List.append_nil] at hread
        rwa [hn]
      · -- zeros stand between the point and the digits
        have hread := isUnsigned_point (r := []) (w := ['0']) (q := DecimalLayout.zeros (-point).toNat ++ d :: ds)
          (by simp [isDigit]) (by decide)
          (fun c hc => (List.mem_append.mp hc).elim (DecimalLayout.isDigit_zeros c) (hds c))
          (by simp) (by simp) Numeral.exponent?_nil
        rwa [List.append_nil] at hread
  · -- an exponent stands behind the digits
    have hsingle : ∀ c ∈ [d], isDigit c = true := fun c hc => hds c (List.mem_singleton.mp hc ▸ List.mem_cons_self)
    cases ds with
    | nil =>
      exact isUnsigned_whole (r := Numeral.mark (point - 1)) hsingle (isIndexText_ofList hsingle hd) (Numeral.mark_head _)
        (Numeral.exponent?_mark _)
    | cons d' r =>
      have hrest : ∀ c ∈ d' :: r, isDigit c = true := fun c hc => hds c (List.mem_cons_of_mem _ hc)
      have hread := isUnsigned_point (r := Numeral.mark (point - 1)) hsingle (isIndexText_ofList hsingle hd) hrest
        (List.cons_ne_nil _ _) (hmark _) (Numeral.exponent?_mark _)
      simpa only [List.cons_append, List.nil_append] using hread

/-- A magnitude other than zero is written as JSON has it, and begins with a digit. -/
theorem isUnsigned_magnitudeText {m : Magnitude} (h : m.mantissa ≠ 0) :
    isUnsigned (Number.magnitudeText m).toList = true := by
  obtain ⟨k, hk, hk', hbeside, _⟩ := Magnitude.shortest_spec h
  obtain ⟨d, ds, hds, hd⟩ := exists_significant (hbeside.inRange hk hk').digits
  have hdigits : ∀ c ∈ d :: ds, isDigit c = true := fun c hc => isDigit_of_mem_significant (hds ▸ hc)
  show isUnsigned (Number.decimalText m.shortest).toList = true
  rw [Number.decimalText, hds]
  exact isUnsigned_write hdigits hd _

/-- A finite number is written as JSON has it. -/
theorem isNumber_text {x : Number} (h : x.isFinite = true) : isNumber x.text.toList = true := by
  cases x with
  | nan => cases h
  | infinite negative => cases h
  | finite negative m =>
    cases hzero : m.isZero with
    | true =>
      have htext : (Number.text (.finite negative m)).toList = ['0'] := by simp [Number.text, hzero]
      rw [htext]
      decide
    | false =>
      have hm := Number.mantissa_of_isZero hzero
      have hunsigned := isUnsigned_magnitudeText hm
      cases negative with
      | true =>
        have htext : (Number.text (.finite true m)).toList = '-' :: (Number.magnitudeText m).toList := by
          simp [Number.text, hzero]
        rw [htext]
        exact hunsigned
      | false =>
        have htext : Number.text (.finite false m) = Number.magnitudeText m := by simp [Number.text, hzero]
        obtain ⟨⟨c, cs, hcs, hc⟩, _⟩ := Number.isNumeric_magnitudeText hm
        rw [htext, isNumber]
        · exact hunsigned
        · -- no minus sign is a digit
          intro r heq
          cases hcs.symm.trans heq
          cases hc

/-- A rest that cannot go on with a number. -/
def Ends (r : List Char) : Prop := ∀ c ∈ r.head?, isNumeral c = false

theorem number?_text {x : Number} (hx : x.isFinite = true) {r : List Char} (hr : Ends r) :
    number? (x.text.toList ++ r) = some (.number (Number.ofText x.text), r) := by
  have hall : ∀ c ∈ x.text.toList, isNumeral c = true :=
    fun c hc => by simp [isNumeral, (Number.isNumeric_text hx).2 c hc]
  obtain ⟨htake, hdrop⟩ := span_append hall hr
  simp only [number?, htake, hdrop, isNumber_text hx, if_true, String.ofList_toList]

end Reader

/-! ## Trees -/

open Json Reader

mutual

/-- The value that a tree is written for. -/
def Json.value : Json → Value
  | .null => .null
  | .bool b => .bool b
  | .number token => .number (Number.ofText (String.ofList token))
  | .text s => .text s
  | .list js => .ofItems (itemValues js)
  | .object ms => .record (Entries.ofList (memberValues ms))

def itemValues : List Json → List Value
  | [] => []
  | j :: js => j.value :: itemValues js

def memberValues : List (String × Json) → Entries Value
  | [] => []
  | (k, j) :: ms => (k, j.value) :: memberValues ms

end

mutual

/-- Trees whose numbers are texts of finite numbers. -/
def Legible : Json → Prop
  | .number token => ∃ x : Number, x.isFinite = true ∧ token = x.text.toList
  | .list items => ItemsLegible items
  | .object members => MembersLegible members
  | _ => True

def ItemsLegible : List Json → Prop
  | [] => True
  | j :: js => Legible j ∧ ItemsLegible js

def MembersLegible : List (String × Json) → Prop
  | [] => True
  | (_, j) :: ms => Legible j ∧ MembersLegible ms

end

mutual

theorem proper_of_legible : ∀ j, Legible j → j.Proper
  | .null, _ => trivial
  | .bool _, _ => trivial
  | .number token, ⟨x, hx, h⟩ => by
    rw [h]
    exact Number.isNumeric_text hx
  | .text _, _ => trivial
  | .list items, h => itemsProper_of_legible items h
  | .object members, h => membersProper_of_legible members h

theorem itemsProper_of_legible : ∀ js, ItemsLegible js → AllProper js
  | [], _ => trivial
  | j :: js, ⟨h, hs⟩ => ⟨proper_of_legible j h, itemsProper_of_legible js hs⟩

theorem membersProper_of_legible : ∀ ms, MembersLegible ms → MembersProper ms
  | [], _ => trivial
  | (_, j) :: ms, ⟨h, hs⟩ => ⟨proper_of_legible j h, membersProper_of_legible ms hs⟩

end

/-! ## Reading trees -/

namespace Reader

theorem skip_cons {c : Char} (h : isSpace c = false) (r : List Char) : skip (c :: r) = c :: r :=
  List.dropWhile_cons_of_neg (by simp [h])

theorem kindOf_of_isSpace {c : Char} (h : isSpace c = true) : kindOf c = 7 := by
  simp only [isSpace, Bool.or_eq_true, beq_iff_eq] at h
  rcases h with ((rfl | rfl) | rfl) | rfl <;> rfl

theorem isSpace_of_kindOf {c : Char} (h : kindOf c ≠ 7) : isSpace c = false :=
  Bool.eq_false_iff.mpr fun hspace => h (kindOf_of_isSpace hspace)

/-- No tree begins with a blank. -/
theorem skip_render {j : Json} (hj : j.Proper) (r : List Char) : skip (j.render ++ r) = j.render ++ r := by
  obtain ⟨c, cs, hc, hk⟩ := kind_render hj
  rw [hc, List.cons_append]
  refine skip_cons (isSpace_of_kindOf fun hblank => ?_) _
  rw [hblank] at hk
  cases j <;> cases hk

theorem ends_items (js : List Json) (r : List Char) : Ends (renderItems js ++ ']' :: r) := by
  cases js <;> exact fun c hc => by cases hc; rfl

theorem ends_members (ms : List (String × Json)) (r : List Char) : Ends (renderMembers ms ++ '\x7d' :: r) := by
  rcases ms with _ | ⟨⟨k, j⟩, ms⟩ <;> exact fun c hc => by cases hc; rfl

/-- What begins like a number is read as one. -/
theorem value?_number {c : Char} (hc : isNumeric c = true) (cs : List Char) (n : Nat) :
    value? (n + 1) (c :: cs) = number? (c :: cs) := by
  have hspace : isSpace c = false := isSpace_of_kindOf (by rw [kindOf_of_isNumeric hc]; decide)
  rw [value?.eq_def]
  simp only [skip_cons hspace]
  split
  all_goals first
    | rfl
    | (rename_i heq; cases heq; cases hc)

theorem value?_text (s : String) (r : List Char) (n : Nat) :
    value? (n + 1) ((Quoted.quote s).toList ++ r) = some (.text s, r) := by
  obtain ⟨cs, hcs, htext⟩ := text?_quote s r
  rw [hcs, value?.eq_def]
  simp only [skip_cons (show isSpace '"' = false from rfl), htext]
  rfl

/-- A list that does not close at once has an item. -/
theorem value?_list {cs : List Char} (hskip : skip cs = cs) (hne : ∀ r, cs ≠ ']' :: r) (n : Nat) :
    value? (n + 1) ('[' :: cs) = (do
      let (v, r) ← value? n cs
      let (vs, r) ← items? n r
      some (.ofItems (v :: vs), r)) := by
  rw [value?.eq_def]
  simp only [skip_cons (show isSpace '[' = false from rfl), hskip]

/-- An object that does not close at once has a member. -/
theorem value?_object {cs : List Char} (hskip : skip cs = cs) (hne : ∀ r, cs ≠ '\x7d' :: r) (n : Nat) :
    value? (n + 1) ('\x7b' :: cs) = (do
      let (m, r) ← member? n cs
      let (ms, r) ← members? n r
      some (.record (Entries.ofList (m :: ms)), r)) := by
  rw [value?.eq_def]
  simp only [skip_cons (show isSpace '\x7b' = false from rfl), hskip]

theorem member?_quote (k : String) (cs : List Char) (n : Nat) :
    member? (n + 1) ((Quoted.quote k).toList ++ ':' :: cs) = (value? n cs).map fun p => ((k, p.1), p.2) := by
  obtain ⟨ds, hds, htext⟩ := text?_quote k (':' :: cs)
  rw [hds, member?.eq_def]
  have hcolon : skip (':' :: cs) = ':' :: cs := skip_cons rfl _
  simp only [skip_cons (show isSpace '"' = false from rfl), htext]
  cases h : value? n cs <;> simp [hcolon, h]

theorem skip_quote (s : String) (r : List Char) :
    skip ((Quoted.quote s).toList ++ r) = (Quoted.quote s).toList ++ r ∧
    ∀ r', (Quoted.quote s).toList ++ r ≠ '\x7d' :: r' := by
  rw [Quoted.toList_quote, List.cons_append]
  refine ⟨skip_cons rfl _, fun r' h => ?_⟩
  cases (List.cons.inj h).1

theorem items?_nil (r : List Char) (n : Nat) : items? (n + 1) (']' :: r) = some ([], r) := by
  rw [items?.eq_def]
  simp only [skip_cons (show isSpace ']' = false from rfl)]

theorem items?_cons (cs : List Char) (n : Nat) : items? (n + 1) (',' :: cs) = (do
      let (v, r) ← value? n cs
      let (vs, r) ← items? n r
      some (v :: vs, r)) := by
  rw [items?.eq_def]
  simp only [skip_cons (show isSpace ',' = false from rfl)]

theorem members?_nil (r : List Char) (n : Nat) : members? (n + 1) ('\x7d' :: r) = some ([], r) := by
  rw [members?.eq_def]
  simp only [skip_cons (show isSpace '\x7d' = false from rfl)]

theorem members?_cons (cs : List Char) (n : Nat) : members? (n + 1) (',' :: cs) = (do
      let (m, r) ← member? n cs
      let (ms, r) ← members? n r
      some (m :: ms, r)) := by
  rw [members?.eq_def]
  simp only [skip_cons (show isSpace ',' = false from rfl)]

mutual

/-- A tree that is written is read back, and so is what follows it. -/
theorem value?_render : ∀ (j : Json) (r : List Char) (n : Nat), Legible j → Ends r → j.render.length ≤ n →
    value? (n + 1) (j.render ++ r) = some (j.value, r)
  | .null, _, _, _, _, _ => rfl
  | .bool b, _, _, _, _, _ => by cases b <;> rfl
  | .number token, r, n, ⟨x, hx, htoken⟩, hr, _ => by
    obtain ⟨hne, hall⟩ := Number.isNumeric_text hx
    obtain ⟨c, cs, hcs⟩ := List.exists_cons_of_ne_nil hne
    have hnumber := number?_text hx hr
    rw [render, htoken, Json.value, String.ofList_toList]
    rw [hcs] at hnumber ⊢
    rw [List.cons_append, value?_number (hall c (hcs ▸ List.mem_cons_self))]
    exact hnumber
  | .text s, r, n, _, _, _ => value?_text s r n
  | .list [], r, n, _, _, _ => rfl
  | .list (j :: js), r, n, ⟨hj, hjs⟩, _, hn => by
    have hproper := proper_of_legible j hj
    obtain ⟨m, rfl⟩ : ∃ m, n = m + 1 := ⟨n - 1, by simp [render] at hn; omega⟩
    have hsizes : j.render.length ≤ m ∧ (renderItems js).length ≤ m := by
      simp only [render, List.length_cons, List.length_append, List.length_nil] at hn
      omega
    have hsplit : (Json.list (j :: js)).render ++ r = '[' :: (j.render ++ (renderItems js ++ ']' :: r)) := by
      simp [render]
    rw [hsplit, value?_list (skip_render hproper _) (render_ne_bracket hproper rfl _),
      value?_render j _ m hj (ends_items js r) hsizes.1]
    simp only [Option.bind_eq_bind, Option.bind_some, items?_render js r m hjs hsizes.2]
    rfl
  | .object [], r, n, _, _, _ => rfl
  | .object ((k, j) :: ms), r, n, ⟨hj, hms⟩, _, hn => by
    obtain ⟨m, rfl⟩ : ∃ m, n = m + 2 := ⟨n - 2, by simp [render] at hn; omega⟩
    have hsizes : j.render.length ≤ m ∧ (renderMembers ms).length ≤ m + 1 := by
      simp only [render, List.length_cons, List.length_append, List.length_nil] at hn
      omega
    have hsplit : (Json.object ((k, j) :: ms)).render ++ r =
        '\x7b' :: ((Quoted.quote k).toList ++ (':' :: (j.render ++ (renderMembers ms ++ '\x7d' :: r)))) := by
      simp [render]
    obtain ⟨hskip, hne⟩ := skip_quote k (':' :: (j.render ++ (renderMembers ms ++ '\x7d' :: r)))
    rw [hsplit, value?_object hskip hne, member?_quote, value?_render j _ m hj (ends_members ms r) hsizes.1]
    simp only [Option.bind_eq_bind, Option.map_some, Option.bind_some, members?_render ms r (m + 1) hms hsizes.2]
    rfl

theorem items?_render : ∀ (js : List Json) (r : List Char) (n : Nat), ItemsLegible js → (renderItems js).length ≤ n →
    items? (n + 1) (renderItems js ++ ']' :: r) = some (itemValues js, r)
  | [], r, n, _, _ => items?_nil r n
  | j :: js, r, n, ⟨hj, hjs⟩, hn => by
    simp only [renderItems, List.length_cons, List.length_append] at hn
    obtain ⟨m, rfl⟩ : ∃ m, n = m + 1 := ⟨n - 1, by omega⟩
    have hsplit : renderItems (j :: js) ++ ']' :: r = ',' :: (j.render ++ (renderItems js ++ ']' :: r)) := by
      simp [renderItems]
    rw [hsplit, items?_cons, value?_render j _ m hj (ends_items js r) (by omega)]
    simp only [Option.bind_eq_bind, Option.bind_some, items?_render js r m hjs (by omega)]
    rfl

theorem members?_render : ∀ (ms : List (String × Json)) (r : List Char) (n : Nat), MembersLegible ms →
    (renderMembers ms).length ≤ n → members? (n + 1) (renderMembers ms ++ '\x7d' :: r) = some (memberValues ms, r)
  | [], r, n, _, _ => members?_nil r n
  | (k, j) :: ms, r, n, ⟨hj, hms⟩, hn => by
    simp only [renderMembers, List.length_cons, List.length_append] at hn
    obtain ⟨m, rfl⟩ : ∃ m, n = m + 2 := ⟨n - 2, by omega⟩
    have hsplit : renderMembers ((k, j) :: ms) ++ '\x7d' :: r =
        ',' :: ((Quoted.quote k).toList ++ (':' :: (j.render ++ (renderMembers ms ++ '\x7d' :: r)))) := by
      simp [renderMembers]
    rw [hsplit, members?_cons, member?_quote, value?_render j _ m hj (ends_members ms r) (by omega)]
    simp only [Option.bind_eq_bind, Option.map_some, Option.bind_some, members?_render ms r (m + 1) hms (by omega)]
    rfl

end

/-- A whole text that a tree was written to says the value of the tree. -/
theorem read_render {j : Json} (hj : Legible j) : read (String.ofList j.render) = some j.value := by
  have hends : Ends [] := by simp [Ends]
  have hvalue := value?_render j [] j.render.length hj hends (Nat.le_refl _)
  rw [List.append_nil] at hvalue
  rw [read, String.toList_ofList, hvalue]
  rfl

end Reader

end ArgGuard.Canonical
