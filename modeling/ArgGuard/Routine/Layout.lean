/-
  ArgGuard.Routine.Layout — lines of generated text.

  Text is laid out line by line; a line may open a block, close one, or close one and open
  the next. Each open block indents by two blanks.
-/

import ArgGuard.Capability.Fragment

namespace ArgGuard

inductive Mark where
  | line (t : List Piece)
  | opening (t : List Piece)
  | closing (t : List Piece)
  | reopening (t : List Piece)
  deriving Repr

/-- A line of text with its depth. -/
structure Line where
  depth : Int
  pieces : List Piece
  deriving Repr

namespace Line

def indent (n : Nat) : String := String.ofList (List.replicate (2 * n) ' ')

def text (l : Line) : String :=
  indent l.depth.toNat ++ String.join (l.pieces.map (·.text))

end Line

namespace Mark

def code (s : String) : Mark := .line [.code s]

def openCode (s : String) : Mark := .opening [.code s]

/-- Closes a block by its brace. -/
def close : Mark := .closing [.code "\x7d"]

/-- The line that a mark writes at a depth, and the depth after it. -/
def place (depth : Int) : Mark → Line × Int
  | .line t => (⟨depth, t⟩, depth)
  | .opening t => (⟨depth, t⟩, depth + 1)
  | .closing t => (⟨depth - 1, t⟩, depth - 1)
  | .reopening t => (⟨depth - 1, t⟩, depth)

/-- The lines of marks from a depth on. -/
def layout : Int → List Mark → List Line
  | _, [] => []
  | depth, m :: ms => (m.place depth).1 :: layout (m.place depth).2 ms

/-- The depth after all marks. -/
def depthAfter : Int → List Mark → Int
  | depth, [] => depth
  | depth, m :: ms => depthAfter (m.place depth).2 ms

theorem layout_append (depth : Int) (ms ns : List Mark) :
    layout depth (ms ++ ns) = layout depth ms ++ layout (depthAfter depth ms) ns := by
  induction ms generalizing depth with
  | nil => rfl
  | cons m ms ih => simp [layout, depthAfter, ih]

end Mark

end ArgGuard
