/-
  ArgGuard.Cache.Basic — a store that makes each thing once.

  A request is answered from the entries, or by compiling what it asks for and keeping it.
  Compilations are scripts and may request again from the same store: one that is asked for
  while it is being compiled is refused. A request may also be made for later: then one task
  per key compiles when its turn in the queue comes, and all who asked meanwhile join it.

  The queue holds what is left to do, one job at a time: compiling a task, taking it out of
  flight, resuming who waits for it, telling a listener the outcome. A task that is done
  queues its removal before those who wait, so removal never meets a later task of its key.
-/

import ArgGuard.Call

namespace ArgGuard

/-- What is done with the outcome of a request that was made for later. -/
abbrev Listener (σ ν : Type) := Except Thrown ν → σ → σ

/-- What a compilation does: it works on the state, asks the store and gets the answer, asks
for later, and comes to an end. -/
inductive Script (σ ρ ν : Type) where
  | finish (c : Call σ ν)
  | act (f : σ → σ) (next : σ → Script σ ρ ν)
  | ask (r : Call σ ρ) (next : Except Thrown ν → Script σ ρ ν)
  | askLater (r : Call σ ρ) (listener : Listener σ ν) (next : Script σ ρ ν)

/-- How a store treats its requests. -/
structure Compiler (σ κ ρ ν : Type) where
  key : ρ → κ
  script : ρ → Script σ ρ ν
  onHit : ρ → Call σ Unit
  onJoin : ρ → Call σ Unit
  /-- The refusal of a request for what is being compiled. -/
  recursion : ρ → Thrown
  /-- How many compilations may be nested. -/
  depth : Nat

/-- A request that waits for a task. -/
structure Waiter (σ ρ ν : Type) where
  request : ρ
  task : Nat
  listener : Listener σ ν

structure Task (σ ρ ν : Type) where
  request : ρ
  outcome? : Option (Except Thrown ν)
  waiting : List (Waiter σ ρ ν)

inductive Job (σ ρ ν : Type) where
  | compile (task : Nat)
  | settle (task : Nat)
  | resume (waiter : Waiter σ ρ ν) (outcome : Except Thrown ν)
  | notify (listener : Listener σ ν) (outcome : Except Thrown ν)

structure Cache (σ κ ρ ν : Type) where
  entries : List (κ × ν)
  compiling : List κ
  inFlight : List (κ × Nat)
  tasks : List (Task σ ρ ν)
  queue : List (Job σ ρ ν)

namespace Cache

variable {σ κ ρ ν : Type} [DecidableEq κ]

def empty : Cache σ κ ρ ν := ⟨[], [], [], [], []⟩

/-- Writes an entry, in its old place if there is one, else at the end. -/
def put {α : Type} (k : κ) (a : α) : List (κ × α) → List (κ × α)
  | [] => [(k, a)]
  | (k', b) :: es => if k' = k then (k, a) :: es else (k', b) :: put k a es

def get? (m : Cache σ κ ρ ν) (k : κ) : Option ν := m.entries.lookup k

def has (m : Cache σ κ ρ ν) (k : κ) : Bool := (m.get? k).isSome

def enqueue (m : Cache σ κ ρ ν) (js : List (Job σ ρ ν)) : Cache σ κ ρ ν :=
  { m with queue := m.queue ++ js }

/-- A computation on a store and the state around it. -/
abbrev Run (σ κ ρ ν α : Type) := Call (Cache σ κ ρ ν × σ) α

/-- A computation on the state alone. -/
def onState {α : Type} (c : Call σ α) : Run σ κ ρ ν α := fun (m, s) =>
  let (r, s) := c s
  (r, (m, s))

/-! ## Requests for later -/

/-- Waits for a task; one that is done already resumes who waits at once. -/
def await (m : Cache σ κ ρ ν) (w : Waiter σ ρ ν) : Cache σ κ ρ ν :=
  match m.tasks[w.task]? with
  | none => m
  | some t =>
    match t.outcome? with
    | some o => m.enqueue [.resume w o]
    | none => { m with tasks := m.tasks.set w.task { t with waiting := t.waiting ++ [w] } }

/-- Begins a task for a key. -/
def launch (m : Cache σ κ ρ ν) (key : κ) (r : ρ) (l : Listener σ ν) : Cache σ κ ρ ν :=
  let task := m.tasks.length
  { m with
    inFlight := put key task m.inFlight
    tasks := m.tasks ++ [⟨r, none, [⟨r, task, l⟩]⟩]
    queue := m.queue ++ [.compile task] }

/-- Makes a request for later; its outcome goes to the listener. -/
def requestLater (k : Compiler σ κ ρ ν) (prepare : Call σ ρ) (l : Listener σ ν) :
    Run σ κ ρ ν Unit := fun (m, s) =>
  match prepare s with
  | (.error t, s) => (.ok (), (m.enqueue [.notify l (.error t)], s))
  | (.ok r, s) =>
    match m.get? (k.key r) with
    | some v => (.ok (), (m.enqueue [.notify l (.ok v)], s))
    | none =>
      match m.inFlight.lookup (k.key r) with
      | none => (.ok (), (m.launch (k.key r) r l, s))
      | some task =>
        match k.onJoin r s with
        | (.error t, s) => (.ok (), (m.enqueue [.notify l (.error t)], s))
        | (.ok _, s) => (.ok (), (m.await ⟨r, task, l⟩, s))

/-! ## Compiling -/

/-- Runs a script; what it asks for is answered by `request`. -/
def runScript (k : Compiler σ κ ρ ν) (request : ρ → Run σ κ ρ ν ν) :
    Script σ ρ ν → Run σ κ ρ ν ν
  | .finish c => onState c
  | .act f next => fun (m, s) => runScript k request (next (f s)) (m, f s)
  | .ask prepare next => fun (m, s) =>
    match prepare s with
    | (.error t, s) => runScript k request (next (.error t)) (m, s)
    | (.ok r, s) =>
      let (o, w) := request r (m, s)
      runScript k request (next o) w
  | .askLater prepare l next => fun w =>
    let (_, w) := requestLater k prepare l w
    runScript k request next w

/-- Compilations nested deeper than the depth that is allowed. -/
def tooDeep : Thrown := .foreign .range none

/-- Puts a key among those that are being compiled. -/
def mark (m : Cache σ κ ρ ν) (key : κ) : Cache σ κ ρ ν :=
  { m with compiling := key :: m.compiling }

def unmark (m : Cache σ κ ρ ν) (key : κ) : Cache σ κ ρ ν :=
  { m with compiling := m.compiling.erase key }

/-- Keeps what was compiled; a failure leaves the entries as they are. -/
def keep (m : Cache σ κ ρ ν) (key : κ) : Except Thrown ν → Cache σ κ ρ ν
  | .ok v => { m with entries := put key v m.entries }
  | .error _ => m

/-- Answers a request that is ready, from the entries or by compiling. -/
def entry (k : Compiler σ κ ρ ν) : Nat → ρ → Run σ κ ρ ν ν
  | depth, r => fun (m, s) =>
    match m.get? (k.key r) with
    | some v =>
      match k.onHit r s with
      | (.ok _, s) => (.ok v, (m, s))
      | (.error t, s) => (.error t, (m, s))
    | none =>
      if k.key r ∈ m.compiling then (.error (k.recursion r), (m, s))
      else
        match depth with
        | 0 => (.error tooDeep, (m, s))
        | depth + 1 =>
          let (o, (m, s)) := runScript k (entry k depth) (k.script r) (m.mark (k.key r), s)
          (o, ((m.unmark (k.key r)).keep (k.key r) o, s))

/-- Makes a request and gets the answer. -/
def request (k : Compiler σ κ ρ ν) (prepare : Call σ ρ) : Run σ κ ρ ν ν := do
  entry k k.depth (← onState prepare)

/-! ## The queue -/

/-- Notes the outcome of a task and queues what follows from it. -/
def finished (m : Cache σ κ ρ ν) (task : Nat) (o : Except Thrown ν) : Cache σ κ ρ ν :=
  match m.tasks[task]? with
  | none => m
  | some t =>
    { m with
      tasks := m.tasks.set task { t with outcome? := some o, waiting := [] }
      queue := m.queue ++ .settle task :: t.waiting.map fun w => .resume w o }

def settled (k : Compiler σ κ ρ ν) (m : Cache σ κ ρ ν) (task : Nat) : Cache σ κ ρ ν :=
  match m.tasks[task]? with
  | none => m
  | some t => { m with inFlight := m.inFlight.filter fun e => e.1 ≠ k.key t.request }

/-- Does a job. -/
def work (k : Compiler σ κ ρ ν) (w : Cache σ κ ρ ν × σ) : Job σ ρ ν → Cache σ κ ρ ν × σ
  | .compile task =>
    match w.1.tasks[task]? with
    | none => w
    | some t =>
      let (o, (m, s)) := entry k k.depth t.request w
      (m.finished task o, s)
  | .settle task => (settled k w.1 task, w.2)
  | .resume waiter o => (w.1.enqueue [.notify waiter.listener o], w.2)
  | .notify l o => (w.1, l o w.2)

/-- Does the first job of the queue, if there is one. -/
def step (k : Compiler σ κ ρ ν) (w : Cache σ κ ρ ν × σ) : Cache σ κ ρ ν × σ :=
  match w.1.queue with
  | [] => w
  | j :: js => work k ({ w.1 with queue := js }, w.2) j

/-- Does jobs until none is left, at most `fuel` of them. -/
def drain (k : Compiler σ κ ρ ν) : Nat → Cache σ κ ρ ν × σ → Cache σ κ ρ ν × σ
  | 0, w => w
  | fuel + 1, w => if w.1.queue.isEmpty then w else drain k fuel (step k w)

end Cache

end ArgGuard
