/-
  ArgGuard.Proofs.Spelling — what holds of asking a value for its text.

  A value is asked through functions of its own, wherever they sit in it. What holds of those
  and of a value without a text, and is kept where one step follows another, holds of the whole
  (`Value.asks_spell`).
-/

import ArgGuard.Proofs.Call
import ArgGuard.Value.Text

namespace ArgGuard

open Call

variable {σ : Type}

namespace Value

/-- A property of calls that every step towards a text has. -/
structure Asks (P : ∀ α : Type, Call σ α → Prop) (run : Nat → Call σ Value) (mute : Call σ String) : Prop where
  pure : ∀ {α : Type} (a : α), P α (Pure.pure a)
  bind : ∀ {α β : Type} {c : Call σ α} {f : α → Call σ β}, P α c → (∀ a, P β (f a)) → P β (c >>= f)
  run : ∀ f, P Value (run f)
  mute : P String mute

/-- The property holds of the texts of members. -/
def OfTexts (P : ∀ α : Type, Call σ α → Prop) (texts : List (String × Call σ String)) : Prop := ∀ e ∈ texts, P String e.2

variable {P : ∀ α : Type, Call σ α → Prop} {run : Nat → Call σ Value} {mute : Call σ String}

theorem OfTexts.append {texts texts' : List (String × Call σ String)} (h : OfTexts P texts) (h' : OfTexts P texts') :
    OfTexts P (texts ++ texts') := fun e he => (List.mem_append.mp he).elim (h e) (h' e)

theorem OfTexts.lookup {texts : List (String × Call σ String)} (h : OfTexts P texts) {k : String} {other : Call σ String}
    (hother : P String other) : P String ((texts.lookup k).getD other) := by
  induction texts with
  | nil => exact hother
  | cons e texts ih =>
    rw [List.lookup_cons]
    split
    · exact h e List.mem_cons_self
    · exact ih fun e he => h e (List.mem_cons_of_mem _ he)

namespace Asks

theorem known (ha : Asks P run mute) (text? : Option String) : P String ((text?.map Pure.pure).getD mute) := by
  cases text? with
  | none => exact ha.mute
  | some s => exact ha.pure s

theorem mapM (ha : Asks P run mute) {α β : Type} {f : α → Call σ β} (hf : ∀ a, P β (f a)) (as : List α) :
    P (List β) (as.mapM f) := by
  induction as with
  | nil => exact ha.pure []
  | cons a as ih =>
    rw [List.mapM_cons]
    exact ha.bind (hf a) fun _ => ha.bind ih fun _ => ha.pure _

theorem spellReturned (ha : Asks P run mute) (f : Nat) {next : Call σ String} (hnext : P String next) :
    P String (spellReturned run mute f next) := by
  refine ha.bind (ha.run f) fun r => ?_
  split
  · exact hnext
  · exact ha.known _

theorem spellLast (ha : Asks P run mute) (valueOf? : Option Value) (plain? : Option String) :
    P String (spellLast run mute valueOf? plain?) := by
  unfold Value.spellLast
  split
  · exact ha.spellReturned _ ha.mute
  · exact ha.mute
  · exact ha.known _

theorem spellFirst (ha : Asks P run mute) (toString? : Option Value) {text? : Option (Call σ String)}
    {last : Call σ String} (htext : ∀ t, text? = some t → P String t) (hlast : P String last) :
    P String (spellFirst run mute toString? text? last) := by
  unfold Value.spellFirst
  split
  · exact ha.spellReturned _ hlast
  · exact hlast
  · cases text? with
    | none => exact hlast
    | some t => exact htext t rfl

section members

variable (ha : Asks P run mute) (v : Value) {texts : List (String × Call σ String)} (h : OfTexts P texts)

include ha h

theorem spellMember (k other : String) : P String (spellMember v texts k other) := by
  unfold Value.spellMember
  split
  · exact ha.pure _
  · exact h.lookup (ha.pure _)

theorem spellError (name : String) : P String (spellError v texts name) :=
  ha.bind (ha.spellMember v h _ _) fun _ => ha.bind (ha.spellMember v h _ _) fun _ => ha.pure _

theorem spellIndexed : P String (spellIndexed v texts) := by
  refine ha.bind (ha.mapM (fun i => ?_) _) fun _ => ha.pure _
  dsimp only
  split
  · exact ha.pure _
  · exact h.lookup (ha.pure _)

theorem spellNamed (cls : String) {last : Call σ String} (hlast : P String last) :
    P String (spellNamed run mute v cls texts last) := by
  unfold Value.spellNamed
  split
  · exact ha.pure _
  · exact ha.spellError v h _
  · split
    · exact ha.spellReturned _ hlast
    · exact ha.pure _
    · exact ha.spellIndexed v h
  · exact ha.mute
  · exact ha.mute
  · exact ha.pure _

theorem spellClass (kind : Kind) {last : Call σ String} (hlast : P String last) {t : Call σ String}
    (ht : spellClass run mute v kind texts last = some t) : P String t := by
  have hnamed : ∀ l : List String, (l.head?.map fun cls => Value.spellNamed run mute v cls texts last) = some t →
      P String t := by
    intro l hl
    cases l with
    | nil => cases hl
    | cons cls l =>
      cases hl
      exact ha.spellNamed v h cls hlast
  cases kind with
  | plain =>
    cases ht
    exact ha.pure _
  | bare => cases ht
  | date ms =>
    cases ht
    exact ha.pure _
  | error name =>
    cases ht
    exact ha.spellError v h name
  | heir l => exact hnamed l ht
  | «instance» l => exact hnamed l ht

end members

end Asks

mutual

/-- What holds of every step towards a text holds of asking for the text. -/
theorem asks_spell (ha : Asks P run mute) : ∀ v : Value, P String (v.spell run mute)
  | .list items => ha.bind (asks_spellItems ha items) fun _ => ha.pure _
  | .function f own => by
    refine ha.spellFirst _ ?_ (ha.spellLast _ _)
    rintro t ⟨⟩
    exact ha.pure _
  | .object id kind own hidden inherited =>
    have htexts := ((asks_spellMembers ha own).append (asks_spellMembers ha hidden)).append
      (asks_spellMembers ha inherited)
    ha.spellFirst _ (fun _ ht => ha.spellClass _ htexts kind (ha.spellLast _ _) ht) (ha.spellLast _ _)
  | .undefined => ha.known (atomText? .undefined)
  | .null => ha.known (atomText? .null)
  | .bool b => ha.known (atomText? (.bool b))
  | .number x => ha.known (atomText? (.number x))
  | .text s => ha.known (atomText? (.text s))
  | .bigint n => ha.known (atomText? (.bigint n))
  | .symbol s => ha.known (atomText? (.symbol s))

theorem asks_spellItems (ha : Asks P run mute) :
    ∀ items : List (Option Value), P (List String) (spellItems run mute items)
  | [] => ha.pure _
  | none :: items => ha.bind (asks_spellItems ha items) fun _ => ha.pure _
  | some v :: items => by
    refine ha.bind ?_ fun _ => ha.bind (asks_spellItems ha items) fun _ => ha.pure _
    split
    · exact ha.pure _
    · exact asks_spell ha v

theorem asks_spellMembers (ha : Asks P run mute) : ∀ members : List (String × Value),
    OfTexts P (spellMembers run mute members)
  | [], _, he => absurd he List.not_mem_nil
  | (k, v) :: members, e, he => by
    rcases List.mem_cons.mp he with rfl | he
    · exact asks_spell ha v
    · exact asks_spellMembers ha members e he

end

end Value

end ArgGuard
