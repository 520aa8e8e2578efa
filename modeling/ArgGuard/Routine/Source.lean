/-
  ArgGuard.Routine.Source — the text of a specialized routine.

  Every line of a program is written by one statement (`Stmt.marks`); names of parameters
  appear as quoted literals only. A program's text can be compiled when every inline
  condition in it can (`Program.wellFormed`).
-/

import ArgGuard.Routine.Layout
import ArgGuard.Routine.Program

namespace ArgGuard

namespace Var

def text : Var → String
  | .step i => "v" ++ Text.natText i
  | .extra => "e"

/-- The name of the capability bound for a variable. -/
def capabilityText : Var → String
  | .step i => "k" ++ Text.natText i
  | .extra => "x"

end Var

def Blame.text (x : Var) : Blame → String
  | .step i => "r.mismatch(" ++ Text.natText i ++ ", " ++ x.text ++ ")"
  | .key => "r.extraMismatch(key, " ++ x.text ++ ")"
  | .position => "r.extraMismatch(\"[\" + i + \"]\", " ++ x.text ++ ")"

def Action.mark : Action → Mark
  | .coerce x => .code (x.text ++ " = " ++ x.capabilityText ++ ".coerce(" ++ x.text ++ ");")
  | .demand x f blame =>
    .line (.code "if (!(" :: (f.source x.text ++ [.code (")) " ++ blame.text x ++ ";")]))
  | .takeDefault i => .code ("v" ++ Text.natText i ++ " = d" ++ Text.natText i ++ ";")
  | .makeDefault i => .code ("v" ++ Text.natText i ++ " = d" ++ Text.natText i ++ "();")
  | .demandGiven i =>
    .code ("if (v" ++ Text.natText i ++ " === undefined) r.missing(" ++ Text.natText i ++ ");")

namespace Stmt

def caseMark (name : String) : Mark := .line [.code "case ", .literal name, .code ":"]

def putPieces (i : Nat) (name : String) : List Piece :=
  [.code "out[", .literal name, .code ("] = v" ++ Text.natText i ++ ";")]

def eachKey : Mark := .openCode "for (const key of Object.keys(args)) \x7b"

def switchKey : Mark := .openCode "switch (key) \x7b"

def marks : Stmt → List Mark
  | .act a => [a.mark]
  | .demandShape .named =>
    [.code "if (typeof args !== \"object\" || args === null || Array.isArray(args)) return r.shape(args);"]
  | .demandShape .positional => [.code "if (!Array.isArray(args)) return r.shape(args);"]
  | .refuseUnknown names =>
    [eachKey, switchKey] ++ names.map caseMark
      ++ (if names.isEmpty then [] else [.code "  break;"])
      ++ [.code "default:", .code "  r.unknown(key);", .close, .close]
  | .refuseExtra n =>
    [.code ("if (args.length > " ++ Text.natText n ++ ") r.extra(" ++ Text.natText n ++ ");")]
  | .fetchIndex i n =>
    [.code ("let v" ++ Text.natText i ++ " = args[" ++ Text.natText n ++ "];")]
  | .fetchKey i k =>
    [.line [.code ("let v" ++ Text.natText i ++ " = Object.hasOwn(args, "), .literal k,
      .code ") ? args[", .literal k, .code "] : undefined;"]]
  | .whenAbsent i absent given =>
    .openCode ("if (v" ++ Text.natText i ++ " === undefined) \x7b") :: (absent.map Action.mark
      ++ .reopening [.code "\x7d else \x7b"] :: (given.map Action.mark ++ [.close]))
  | .whenGiven i given =>
    .openCode ("if (v" ++ Text.natText i ++ " !== undefined) \x7b")
      :: (given.map Action.mark ++ [.close])
  | .newRecord => [.code "const out = \x7b\x7d;"]
  | .newList n =>
    [.code ("const out = ["
      ++ String.intercalate ", " ((List.range n).map fun i => "v" ++ Text.natText i) ++ "];")]
  | .put i name => [.line (putPieces i name)]
  | .putGiven i name =>
    [.line (.code ("if (v" ++ Text.natText i ++ " !== undefined) ") :: putPieces i name)]
  | .newRest => [.code "const rest = \x7b\x7d;"]
  | .keepEntries names checks target =>
    [eachKey, switchKey] ++ names.map caseMark
      ++ (if names.isEmpty then [] else [.code "  continue;"])
      ++ [.close, .code "let e = args[key];"] ++ checks.map Action.mark
      ++ [.code ("r.defineExtra(" ++ (if target = .out then "out" else "rest") ++ ", key, e);"),
        .close]
  | .keepItems n checks =>
    [.openCode ("for (let i = " ++ Text.natText n ++ "; i < args.length; i++) \x7b"),
      .code "let e = args[i];"] ++ checks.map Action.mark ++ [.code "out.push(e);", .close]
  | .pushRest => [.code "out.push(rest);"]

end Stmt

namespace Binding

def mark : Binding → Mark
  | .capability i => .code ("const k" ++ Text.natText i ++ " = scope.k[" ++ Text.natText i ++ "];")
  | .default i => .code ("const d" ++ Text.natText i ++ " = scope.d[" ++ Text.natText i ++ "];")
  | .extraCapability => .code "const x = scope.x;"

end Binding

namespace Program

def marks (g : Program) : List Mark :=
  [.code "\"use strict\";", .code "const r = scope.r;"] ++ g.bindings.map Binding.mark
    ++ .opening [.code "return function ", .routine g.name, .code "(args) \x7b"]
      :: (g.body.flatMap Stmt.marks ++ [.code "return out;", .closing [.code "\x7d;"]])

def lines (g : Program) : List Line := Mark.layout 0 g.marks

/-- The text of a program. -/
def source (g : Program) : String := String.intercalate "\n" (g.lines.map Line.text)

end Program

/-- Whether the text of a line can be compiled. -/
def Action.wellFormed : Action → Bool
  | .demand _ f _ => f.wellFormed
  | _ => true

def Stmt.wellFormed : Stmt → Bool
  | .act a => a.wellFormed
  | .whenAbsent _ absent given => absent.all (·.wellFormed) && given.all (·.wellFormed)
  | .whenGiven _ given => given.all (·.wellFormed)
  | .keepEntries _ checks _ => checks.all (·.wellFormed)
  | .keepItems _ checks => checks.all (·.wellFormed)
  | _ => true

def Program.wellFormed (g : Program) : Bool := g.body.all (·.wellFormed)

end ArgGuard
