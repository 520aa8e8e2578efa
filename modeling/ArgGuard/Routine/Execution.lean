/-
  ArgGuard.Routine.Execution — what a specialized routine does.

  A program runs on a frame: the variables of the steps, the extra argument at hand and the
  result under construction. Statements run in order and the first complaint stops them.
-/

import ArgGuard.Routine.Complaint
import ArgGuard.Routine.Program

namespace ArgGuard

/-- The result under construction. -/
inductive Output where
  | record (es : Entries Value)
  | list (vs : List Value)
  deriving Repr

def Output.value : Output → Value
  | .record es => .record es
  | .list vs => .ofItems vs

/-- The variables of a running program. -/
structure Frame where
  step : Nat → Value
  extra : Value
  /-- What the extra argument at hand is called. -/
  label : String
  out : Output
  rest : Entries Value

namespace Frame

def empty : Frame := ⟨fun _ => .undefined, .undefined, "", .record [], []⟩

def read (f : Frame) : Var → Value
  | .step i => f.step i
  | .extra => f.extra

def write (f : Frame) (x : Var) (v : Value) : Frame :=
  match x with
  | .step i => { f with step := fun j => if j = i then v else f.step j }
  | .extra => { f with extra := v }

end Frame

namespace Plan

variable {σ : Type}

/-- The capability bound for a variable. -/
def bound (p : Plan σ) : Var → Option (Capability σ)
  | .step i => (p.steps[i]?).map (·.type)
  | .extra => p.extras.type?

/-- The default bound for a step. -/
def boundDefault (p : Plan σ) (i : Nat) : Default σ :=
  match p.steps[i]? with
  | some s => s.default
  | none => .none

def complain {α : Type} (p : Plan σ) (f : Frame) (v : Value) : Blame → Call σ α
  | .step i => p.complainMismatch i v
  | .key => p.complainExtraMismatch f.label v
  | .position => p.complainExtraMismatch f.label v

def runAction (p : Plan σ) (f : Frame) : Action → Call σ Frame
  | .coerce x =>
    match p.bound x with
    | some c => do return f.write x (← c.coerced (f.read x))
    | none => Call.fail .misuse
  | .demand x condition blame => do
    if ← Call.ofExcept (condition.holds (f.read x)) then return f
    else p.complain f (f.read x) blame
  | .takeDefault i =>
    match p.boundDefault i with
    | .value v => pure (f.write (.step i) v)
    | _ => Call.fail .misuse
  | .makeDefault i =>
    match p.boundDefault i with
    | .factory _ make => do return f.write (.step i) (← make)
    | _ => Call.fail .misuse
  | .demandGiven i => if (f.step i).isUndefined then p.complainMissing i else pure f

def runActions (p : Plan σ) : Frame → List Action → Call σ Frame
  | f, [] => pure f
  | f, a :: as => do runActions p (← p.runAction f a) as

/-- Writes a kept entry. -/
def defineExtra (f : Frame) (target : Target) (k : String) (v : Value) : Call σ Frame :=
  match target, f.out with
  | .rest, _ => pure { f with rest := Entries.put k v f.rest }
  | .out, .record es => pure { f with out := .record (Entries.put k v es) }
  | .out, .list _ => Call.fail .misuse

/-- Appends to an output that is a list. -/
def push (f : Frame) (v : Value) : Call σ Frame :=
  match f.out with
  | .list vs => pure { f with out := .list (vs ++ [v]) }
  | .record _ => Call.fail .misuse

def keepEntries (p : Plan σ) (names : List String) (checks : List Action) (target : Target) :
    Frame → Entries Value → Call σ Frame
  | f, [] => pure f
  | f, (k, v) :: es =>
    if names.contains k then keepEntries p names checks target f es
    else do
      let f ← p.runActions { f with extra := v, label := k } checks
      let f ← defineExtra f target k f.extra
      keepEntries p names checks target f es

def keepItems (p : Plan σ) (checks : List Action) :
    Frame → Nat → List (Option Value) → Call σ Frame
  | f, _, [] => pure f
  | f, i, o :: r => do
    let f ← p.runActions
      { f with extra := o.getD .undefined, label := "[" ++ Text.natText i ++ "]" } checks
    let f ← push f f.extra
    keepItems p checks f (i + 1) r

/-- The item at an index; of what is no list, the entry whose key is the index. -/
def indexed (args : Value) (i : Nat) : Value :=
  match args with
  | .list items => (items.getD i none).getD .undefined
  | args => args.get (Text.natText i)

def putStep (f : Frame) (i : Nat) (name : String) : Frame :=
  match f.out with
  | .record es => { f with out := .record (Entries.put name (f.step i) es) }
  | .list _ => f

def runStmt (p : Plan σ) (args : Value) (f : Frame) : Stmt → Call σ Frame
  | .act a => p.runAction f a
  | .demandShape .named => if args.isObject then pure f else p.complainShape args
  | .demandShape .positional => if args.isList then pure f else p.complainShape args
  | .refuseUnknown names =>
    match List.find? (fun e => !names.contains e.1) args.entries with
    | some e => p.complainUnknown e.1
    | none => pure f
  | .refuseExtra n =>
    match args with
    | .list items => if n < items.length then p.complainExtra n else pure f
    | _ => pure f
  | .fetchIndex i n => pure (f.write (.step i) (indexed args n))
  | .fetchKey i k => pure (f.write (.step i) ((args.own? k).getD .undefined))
  | .whenAbsent i absent given =>
    if (f.step i).isUndefined then p.runActions f absent else p.runActions f given
  | .whenGiven i given => if (f.step i).isUndefined then pure f else p.runActions f given
  | .newRecord => pure { f with out := .record [] }
  | .newList n => pure { f with out := .list ((List.range n).map f.step) }
  | .put i name => pure (putStep f i name)
  | .putGiven i name => pure (if (f.step i).isUndefined then f else putStep f i name)
  | .newRest => pure { f with rest := [] }
  | .keepEntries names checks target => p.keepEntries names checks target f args.entries
  | .keepItems n checks =>
    match args with
    | .list items => p.keepItems checks f n (items.drop n)
    | _ => pure f
  | .pushRest => push f (.record f.rest)

def runStmts (p : Plan σ) (args : Value) : Frame → List Stmt → Call σ Frame
  | f, [] => pure f
  | f, s :: ss => do runStmts p args (← p.runStmt args f s) ss

/-- Runs a program, bound to the plan, on arguments. -/
def run (p : Plan σ) (g : Program) (args : Value) : Call σ Value := do
  let f ← p.runStmts args .empty g.body
  return f.out.value

end Plan

end ArgGuard
