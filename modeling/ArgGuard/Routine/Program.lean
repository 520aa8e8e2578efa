/-
  ArgGuard.Routine.Program — the specialized routine of a plan.

  A plan whose capabilities all have an inline form becomes a straight program over one
  variable per parameter (`program`). The program has two readings: its text
  (`Program.source`) and what it does to arguments (`Plan.run`). Capabilities and defaults
  are bound to the program by step, so a program names them by index only.
-/

import ArgGuard.Plan

namespace ArgGuard

/-- A variable: the value of a step, or the extra argument at hand. -/
inductive Var where
  | step (i : Nat)
  | extra
  deriving DecidableEq, Repr

/-- How the rejection of a value is reported. -/
inductive Blame where
  | step (i : Nat)
  | key
  | position
  deriving DecidableEq, Repr

/-- A line that works on one variable. -/
inductive Action where
  | coerce (x : Var)
  | demand (x : Var) (condition : Fragment) (blame : Blame)
  | takeDefault (i : Nat)
  | makeDefault (i : Nat)
  | demandGiven (i : Nat)

/-- Where kept entries go. -/
inductive Target where
  | out
  | rest
  deriving DecidableEq, Repr

inductive Stmt where
  | act (a : Action)
  | demandShape (mode : SourceMode)
  | refuseUnknown (names : List String)
  | refuseExtra (count : Nat)
  | fetchIndex (i : Nat) (index : Nat)
  | fetchKey (i : Nat) (key : String)
  | whenAbsent (i : Nat) (absent given : List Action)
  | whenGiven (i : Nat) (given : List Action)
  | newRecord
  | newList (count : Nat)
  | put (i : Nat) (name : String)
  | putGiven (i : Nat) (name : String)
  | newRest
  | keepEntries (names : List String) (checks : List Action) (target : Target)
  | keepItems (first : Nat) (checks : List Action)
  | pushRest

/-- What a program binds before it runs. -/
inductive Binding where
  | capability (i : Nat)
  | default (i : Nat)
  | extraCapability
  deriving DecidableEq, Repr

structure Program where
  name : String
  bindings : List Binding
  body : List Stmt

/-! ## The program of a plan -/

namespace Plan

variable {σ : Type}

def inlineOf (c : Capability σ) : Except DefinitionFault Fragment :=
  match c.inline? with
  | some f => .ok f
  | none => .error (.noInlineForm c.name)

/-- Coercion, where there is one, and the inline condition. -/
def checks (c : Capability σ) (f : Fragment) (x : Var) (blame : Blame) : List Action :=
  (if c.coerce?.isSome then [.coerce x] else []) ++ [.demand x f blame]

def fetchStmt (i : Nat) : Fetch → Stmt
  | .index n => .fetchIndex i n
  | .key k => .fetchKey i k

def stepStmts (i : Nat) (s : Step σ) : Except DefinitionFault (List Stmt) := do
  let f ← inlineOf s.type
  let cs := checks s.type f (.step i) (.step i)
  .ok (fetchStmt i s.fetch ::
    match s.default with
    | .value _ => [.whenAbsent i [.takeDefault i] cs]
    | .factory .. => [.whenAbsent i (.makeDefault i :: cs) cs]
    | .none =>
      if s.isRequired then .act (.demandGiven i) :: cs.map .act else [.whenGiven i cs])

def stepsStmts : Nat → List (Step σ) → Except DefinitionFault (List Stmt)
  | _, [] => .ok []
  | i, s :: ss => do
    let here ← stepStmts i s
    let rest ← stepsStmts (i + 1) ss
    .ok (here ++ rest)

/-- Whether the value of a step that passed cannot be undefined. -/
def alwaysGiven (s : Step σ) : Bool :=
  s.type.coerce?.isNone && (s.isRequired || match s.default with | .value _ => true | _ => false)

def putStmts : Nat → List (Step σ) → List Stmt
  | _, [] => []
  | i, s :: ss =>
    (if alwaysGiven s then .put i s.name else .putGiven i s.name) :: putStmts (i + 1) ss

/-- The checks of an extra argument. -/
def extraChecks (p : Plan σ) (blame : Blame) : Except DefinitionFault (List Action) :=
  match p.extras.type? with
  | some t => do .ok (checks t (← inlineOf t) .extra blame)
  | none => .ok []

def shapeStmts (p : Plan σ) : List Stmt :=
  .demandShape p.sourceMode ::
    if p.extras.isReject then
      match p.sourceMode with
      | .named => [.refuseUnknown p.declared]
      | .positional => [.refuseExtra p.steps.length]
    else []

def outStmts (p : Plan σ) : List Stmt :=
  match p.outputMode with
  | .mapped => .newRecord :: putStmts 0 p.steps
  | .orderedList => [.newList p.steps.length]

def extraStmts (p : Plan σ) : Except DefinitionFault (List Stmt) :=
  if p.extras.isKeep then
    match p.sourceMode, p.outputMode with
    | .named, .mapped => do .ok [.keepEntries p.declared (← p.extraChecks .key) .out]
    | .named, .orderedList => do
      .ok [.newRest, .keepEntries p.declared (← p.extraChecks .key) .rest, .pushRest]
    | .positional, _ => do .ok [.keepItems p.steps.length (← p.extraChecks .position)]
  else .ok []

def stepBindings : Nat → List (Step σ) → List Binding
  | _, [] => []
  | i, s :: ss =>
    (if s.type.coerce?.isSome then [.capability i] else [])
      ++ (if s.default.isGiven then [.default i] else []) ++ stepBindings (i + 1) ss

def bindings (p : Plan σ) : List Binding :=
  stepBindings 0 p.steps ++
    match p.extras.type? with
    | some t => if t.coerce?.isSome then [.extraCapability] else []
    | none => []

/-- The specialized routine of a plan; it takes an inline form of every capability. -/
def program (p : Plan σ) : Except DefinitionFault Program := do
  let steps ← stepsStmts 0 p.steps
  let extras ← p.extraStmts
  .ok ⟨p.name, p.bindings, p.shapeStmts ++ steps ++ p.outStmts ++ extras⟩

end Plan

end ArgGuard
