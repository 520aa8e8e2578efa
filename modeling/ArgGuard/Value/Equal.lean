/-
  ArgGuard.Value.Equal — equality of values by content.

  Lists are equal item by item (a hole reads as undefined), dates by their instant, errors
  by their text, other objects of one class by their enumerated entries. A NaN is itself.
-/

import ArgGuard.Value.Text

namespace ArgGuard.Value

/-- Whether the own class of two values is the same. -/
def sameClass (v w : Value) : Bool := v.lineage.head? == w.lineage.head?

/-- Objects that are compared by one atom instead of their entries. -/
def byAtom? : Kind → Kind → Option Bool
  | .date a, .date b => some (a == b)
  | .date _, _ => some false
  | _, .date _ => some false
  | _, _ => none

def bothNaN : Value → Value → Bool
  | .number x, .number y => x.isNaN && y.isNaN
  | _, _ => false

mutual

/-- Equality by content. -/
def deepEqual : Value → Value → Bool
  | .list as, w =>
    match w with
    | .list bs => as.length == bs.length && itemsEqual as bs
    | _ => false
  | .object i kind own hidden inherited, w =>
    let v := Value.object i kind own hidden inherited
    identical v w ||
      match w with
      | .object j kind' own' hidden' inherited' =>
        let w := Value.object j kind' own' hidden' inherited'
        sameClass v w &&
          match byAtom? kind kind' with
          | some b => b
          | none =>
            match kind, kind' with
            | .error _, .error _ => v.text? == w.text?
            | _, _ => own.length == own'.length && entriesEqual own own'
      | _ => false
  | v, w => identical v w || bothNaN v w

def itemsEqual : List (Option Value) → List (Option Value) → Bool
  | some a :: as, b :: bs => deepEqual a (b.getD .undefined) && itemsEqual as bs
  | none :: as, b :: bs => (b.getD .undefined).isUndefined && itemsEqual as bs
  | [], [] => true
  | _, _ => false

/-- Whether every entry has an equal one under its key. -/
def entriesEqual : List (String × Value) → List (String × Value) → Bool
  | [], _ => true
  | (k, a) :: es, fs =>
    (match Entries.find? k fs with
      | some b => deepEqual a b
      | none => false) && entriesEqual es fs

end

end ArgGuard.Value
