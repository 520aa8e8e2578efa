/-
  ArgGuard.Proofs.Cache.Machine — a store move by move.

  `entry` answers a request in one evaluation, nested compilations included. Here the same
  is a machine whose stack of suspended compilations is in the open (`Move`), so that one can
  speak of what holds while something is being compiled, and of what a move makes known
  (`Event`). A run may begin a request, a request for later or a job of the queue whenever the
  machine is at rest, in any order, and anything may happen to the state outside between.

  The machine is no second store: each evaluation is the sequence of its moves
  (`steps_entry`), so whatever requests and jobs come to, a run comes to (`run_of_reached`).
-/

import ArgGuard.Proofs.Cache.Store

namespace ArgGuard.Cache

open Call

variable {σ κ ρ ν : Type} [DecidableEq κ]

/-! ## States and events -/

/-- A compilation that waits for the answer to what it asked. -/
structure Suspended (σ ρ ν : Type) where
  request : ρ
  next : Except Thrown ν → Script σ ρ ν

/-- What the machine is at. All but rest is on behalf of a task, or of a caller. -/
inductive Control (σ ρ ν : Type) where
  | rest
  | asked (task? : Option Nat) (r : ρ)
  | running (task? : Option Nat) (r : ρ) (script : Script σ ρ ν)
  | answered (task? : Option Nat) (r : ρ) (o : Except Thrown ν)

structure State (σ κ ρ ν : Type) where
  cache : Cache σ κ ρ ν
  outside : σ
  suspended : List (Suspended σ ρ ν)
  control : Control σ ρ ν

/-- What a move makes known. -/
inductive Event (σ ρ ν : Type) where
  | began (r : ρ)
  | ended (r : ρ) (o : Except Thrown ν)
  | refused (r : ρ)
  /-- The answer to a request, for the compilation, the caller or the task that asked. -/
  | given (r : ρ) (o : Except Thrown ν)
  | returned (r : ρ) (o : Except Thrown ν)
  | done (task : Nat) (r : ρ) (o : Except Thrown ν)
  /-- A request for later that finds an entry, comes to nothing, or waits for a task. -/
  | found (r : ρ) (v : ν) (l : Listener σ ν)
  | failed (t : Thrown) (l : Listener σ ν)
  | joined (w : Waiter σ ρ ν)
  | settled (task : Nat)
  | resumed (w : Waiter σ ρ ν) (o : Except Thrown ν)
  | told (l : Listener σ ν) (o : Except Thrown ν)

namespace Control

def task? : Control σ ρ ν → Option Nat
  | .rest => none
  | .asked n _ => n
  | .running n _ _ => n
  | .answered n _ _ => n

/-- The request that is dealt with. -/
def request? : Control σ ρ ν → Option ρ
  | .rest => none
  | .asked _ r => some r
  | .running _ r _ => some r
  | .answered _ r _ => some r

/-- The request that is being compiled, unless its compilation waits for another. -/
def compiled? : Control σ ρ ν → Option ρ
  | .running _ r _ => some r
  | _ => none

end Control

namespace State

def atRest (w : Cache σ κ ρ ν × σ) : State σ κ ρ ν := ⟨w.1, w.2, [], .rest⟩

/-- What is being compiled, the innermost compilation first. -/
def compileStack (c : State σ κ ρ ν) : List ρ := c.control.compiled?.toList ++ c.suspended.map (·.request)

/-- What is being dealt with, the innermost request first. -/
def requests (c : State σ κ ρ ν) : List ρ := c.control.request?.toList ++ c.suspended.map (·.request)

end State

namespace Event

/-- A request that was answered with a thing, and the thing. -/
@[simp] def served? : Event σ ρ ν → Option (ρ × ν)
  | .given r (.ok v) => some (r, v)
  | .returned r (.ok v) => some (r, v)
  | .done _ r (.ok v) => some (r, v)
  | .found r v _ => some (r, v)
  | .resumed w (.ok v) => some (w.request, v)
  | _ => none

/-- A request whose compilation came to a thing. -/
@[simp] def made? : Event σ ρ ν → Option ρ
  | .ended r (.ok _) => some r
  | _ => none

@[simp] def returned? : Event σ ρ ν → Option (ρ × Except Thrown ν)
  | .returned r o => some (r, o)
  | _ => none

/-- Who joined a task. -/
@[simp] def joined? (task : Nat) : Event σ ρ ν → Option (Waiter σ ρ ν)
  | .joined w => if w.task = task then some w else none
  | _ => none

@[simp] def resumed? (task : Nat) : Event σ ρ ν → Option (Waiter σ ρ ν)
  | .resumed w _ => if w.task = task then some w else none
  | _ => none

/-- A listener that is due an outcome from now on. -/
@[simp] def due? : Event σ ρ ν → Option (Listener σ ν × Except Thrown ν)
  | .found _ v l => some (l, .ok v)
  | .failed t l => some (l, .error t)
  | .resumed w o => some (w.listener, o)
  | _ => none

@[simp] def told? : Event σ ρ ν → Option (Listener σ ν × Except Thrown ν)
  | .told l o => some (l, o)
  | _ => none

/-- Whether an event is no matter of who waits. -/
@[simp] def aside : Event σ ρ ν → Bool
  | .found .. => false
  | .failed .. => false
  | .joined _ => false
  | .resumed .. => false
  | .told .. => false
  | _ => true

end Event

/-! ## Moves -/

/-- A request for later, with what it makes known. -/
inductive Later (k : Compiler σ κ ρ ν) (prepare : Call σ ρ) (l : Listener σ ν) :
    Cache σ κ ρ ν → σ → List (Event σ ρ ν) → Cache σ κ ρ ν → σ → Prop where
  | unready {m : Cache σ κ ρ ν} {s s' : σ} {t : Thrown} (hr : start prepare s = (.error t, s')) :
      Later k prepare l m s [.failed t l] (m.enqueue [.notify l (.error t)]) s'
  | found {m : Cache σ κ ρ ν} {s s' : σ} {r : ρ} {v : ν} (hr : start prepare s = (.ok r, s'))
      (hv : m.get? (k.key r) = some v) : Later k prepare l m s [.found r v l] (m.enqueue [.notify l (.ok v)]) s'
  | launch {m : Cache σ κ ρ ν} {s s' : σ} {r : ρ} (hr : start prepare s = (.ok r, s')) (hv : m.get? (k.key r) = none)
      (hf : m.inFlight.lookup (k.key r) = none) :
      Later k prepare l m s [.joined ⟨r, m.tasks.length, l⟩] (m.launch (k.key r) r l) s'
  | join {m : Cache σ κ ρ ν} {s s' s'' : σ} {r : ρ} {n : Nat} (hr : start prepare s = (.ok r, s'))
      (hv : m.get? (k.key r) = none) (hf : m.inFlight.lookup (k.key r) = some n)
      (hj : start (k.onJoin r) s' = (.ok (), s'')) : Later k prepare l m s [.joined ⟨r, n, l⟩] (m.await ⟨r, n, l⟩) s''
  | unjoined {m : Cache σ κ ρ ν} {s s' s'' : σ} {r : ρ} {n : Nat} {t : Thrown} (hr : start prepare s = (.ok r, s'))
      (hv : m.get? (k.key r) = none) (hf : m.inFlight.lookup (k.key r) = some n)
      (hj : start (k.onJoin r) s' = (.error t, s'')) :
      Later k prepare l m s [.failed t l] (m.enqueue [.notify l (.error t)]) s''

inductive Move (k : Compiler σ κ ρ ν) : State σ κ ρ ν → List (Event σ ρ ν) → State σ κ ρ ν → Prop where
  /-- Something happens outside. -/
  | outside (m : Cache σ κ ρ ν) (s s' : σ) : Move k ⟨m, s, [], .rest⟩ [] ⟨m, s', [], .rest⟩
  | request {m : Cache σ κ ρ ν} {s s' : σ} {prepare : Call σ ρ} {r : ρ} (hr : start prepare s = (.ok r, s')) :
      Move k ⟨m, s, [], .rest⟩ [] ⟨m, s', [], .asked none r⟩
  | later {m m' : Cache σ κ ρ ν} {s s' : σ} {prepare : Call σ ρ} {l : Listener σ ν} {es : List (Event σ ρ ν)}
      (h : Later k prepare l m s es m' s') : Move k ⟨m, s, [], .rest⟩ es ⟨m', s', [], .rest⟩
  /-- The jobs of the queue. -/
  | turn {m : Cache σ κ ρ ν} {s : σ} {n : Nat} {js : List (Job σ ρ ν)} {t : Task σ ρ ν}
      (hq : m.queue = .compile n :: js) (ht : m.tasks[n]? = some t) :
      Move k ⟨m, s, [], .rest⟩ [] ⟨{ m with queue := js }, s, [], .asked (some n) t.request⟩
  | settle {m : Cache σ κ ρ ν} {s : σ} {n : Nat} {js : List (Job σ ρ ν)} (hq : m.queue = .settle n :: js) :
      Move k ⟨m, s, [], .rest⟩ [.settled n] ⟨settled k { m with queue := js } n, s, [], .rest⟩
  | resume {m : Cache σ κ ρ ν} {s : σ} {w : Waiter σ ρ ν} {o : Except Thrown ν} {js : List (Job σ ρ ν)}
      (hq : m.queue = .resume w o :: js) :
      Move k ⟨m, s, [], .rest⟩ [.resumed w o] ⟨{ m with queue := js ++ [.notify w.listener o] }, s, [], .rest⟩
  | notify {m : Cache σ κ ρ ν} {s : σ} {l : Listener σ ν} {o : Except Thrown ν} {js : List (Job σ ρ ν)}
      (hq : m.queue = .notify l o :: js) :
      Move k ⟨m, s, [], .rest⟩ [.told l o] ⟨{ m with queue := js }, l o s, [], .rest⟩
  /-- What becomes of a request. -/
  | hit {m : Cache σ κ ρ ν} {s s' : σ} {fs : List (Suspended σ ρ ν)} {n? : Option Nat} {r : ρ} {v : ν}
      (hv : m.get? (k.key r) = some v) (hh : start (k.onHit r) s = (.ok (), s')) :
      Move k ⟨m, s, fs, .asked n? r⟩ [] ⟨m, s', fs, .answered n? r (.ok v)⟩
  | unhit {m : Cache σ κ ρ ν} {s s' : σ} {fs : List (Suspended σ ρ ν)} {n? : Option Nat} {r : ρ} {v : ν} {t : Thrown}
      (hv : m.get? (k.key r) = some v) (hh : start (k.onHit r) s = (.error t, s')) :
      Move k ⟨m, s, fs, .asked n? r⟩ [] ⟨m, s', fs, .answered n? r (.error t)⟩
  | refuse {m : Cache σ κ ρ ν} {s : σ} {fs : List (Suspended σ ρ ν)} {n? : Option Nat} {r : ρ}
      (hv : m.get? (k.key r) = none) (hk : k.key r ∈ m.compiling) :
      Move k ⟨m, s, fs, .asked n? r⟩ [.refused r] ⟨m, s, fs, .answered n? r (.error (k.recursion r))⟩
  | exceed {m : Cache σ κ ρ ν} {s : σ} {fs : List (Suspended σ ρ ν)} {n? : Option Nat} {r : ρ}
      (hv : m.get? (k.key r) = none) (hk : k.key r ∉ m.compiling) (hd : k.depth ≤ fs.length) :
      Move k ⟨m, s, fs, .asked n? r⟩ [] ⟨m, s, fs, .answered n? r (.error tooDeep)⟩
  | begin {m : Cache σ κ ρ ν} {s : σ} {fs : List (Suspended σ ρ ν)} {n? : Option Nat} {r : ρ}
      (hv : m.get? (k.key r) = none) (hk : k.key r ∉ m.compiling) (hd : fs.length < k.depth) :
      Move k ⟨m, s, fs, .asked n? r⟩ [.began r] ⟨m.mark (k.key r), s, fs, .running n? r (k.script r)⟩
  /-- A compilation. -/
  | act {m : Cache σ κ ρ ν} {s : σ} {fs : List (Suspended σ ρ ν)} {n? : Option Nat} {r : ρ} {f : σ → σ}
      {next : σ → Script σ ρ ν} :
      Move k ⟨m, s, fs, .running n? r (.act f next)⟩ [] ⟨m, f s, fs, .running n? r (next (f s))⟩
  | ask {m : Cache σ κ ρ ν} {s s' : σ} {fs : List (Suspended σ ρ ν)} {n? : Option Nat} {r r' : ρ} {prepare : Call σ ρ}
      {next : Except Thrown ν → Script σ ρ ν} (hr : start prepare s = (.ok r', s')) :
      Move k ⟨m, s, fs, .running n? r (.ask prepare next)⟩ [] ⟨m, s', ⟨r, next⟩ :: fs, .asked n? r'⟩
  | unasked {m : Cache σ κ ρ ν} {s s' : σ} {fs : List (Suspended σ ρ ν)} {n? : Option Nat} {r : ρ} {prepare : Call σ ρ}
      {next : Except Thrown ν → Script σ ρ ν} {t : Thrown} (hr : start prepare s = (.error t, s')) :
      Move k ⟨m, s, fs, .running n? r (.ask prepare next)⟩ [] ⟨m, s', fs, .running n? r (next (.error t))⟩
  | askLater {m m' : Cache σ κ ρ ν} {s s' : σ} {fs : List (Suspended σ ρ ν)} {n? : Option Nat} {r : ρ}
      {prepare : Call σ ρ} {l : Listener σ ν} {next : Script σ ρ ν} {es : List (Event σ ρ ν)}
      (h : Later k prepare l m s es m' s') :
      Move k ⟨m, s, fs, .running n? r (.askLater prepare l next)⟩ es ⟨m', s', fs, .running n? r next⟩
  | finish {m : Cache σ κ ρ ν} {s s' : σ} {fs : List (Suspended σ ρ ν)} {n? : Option Nat} {r : ρ} {c : Call σ ν}
      {o : Except Thrown ν} (hc : start c s = (o, s')) :
      Move k ⟨m, s, fs, .running n? r (.finish c)⟩ [.ended r o]
        ⟨(m.unmark (k.key r)).keep (k.key r) o, s', fs, .answered n? r o⟩
  /-- Where an answer goes. -/
  | give {m : Cache σ κ ρ ν} {s : σ} {f : Suspended σ ρ ν} {fs : List (Suspended σ ρ ν)} {n? : Option Nat} {r : ρ}
      {o : Except Thrown ν} :
      Move k ⟨m, s, f :: fs, .answered n? r o⟩ [.given r o] ⟨m, s, fs, .running n? f.request (f.next o)⟩
  | handOut {m : Cache σ κ ρ ν} {s : σ} {r : ρ} {o : Except Thrown ν} :
      Move k ⟨m, s, [], .answered none r o⟩ [.returned r o] ⟨m, s, [], .rest⟩
  | done {m : Cache σ κ ρ ν} {s : σ} {n : Nat} {r : ρ} {o : Except Thrown ν} :
      Move k ⟨m, s, [], .answered (some n) r o⟩ [.done n r o] ⟨m.finished n o, s, [], .rest⟩

/-- Moves one after another, with all that they make known. -/
inductive Steps (k : Compiler σ κ ρ ν) : State σ κ ρ ν → List (Event σ ρ ν) → State σ κ ρ ν → Prop where
  | refl (c : State σ κ ρ ν) : Steps k c [] c
  | snoc {c c' c'' : State σ κ ρ ν} {es es' : List (Event σ ρ ν)} (h : Steps k c es c') (hm : Move k c' es' c'') :
      Steps k c (es ++ es') c''

/-- What a store comes to from nothing. -/
def History (k : Compiler σ κ ρ ν) (c : State σ κ ρ ν) (log : List (Event σ ρ ν)) : Prop :=
  ∃ s, Steps k (.atRest (.empty, s)) log c

variable {k : Compiler σ κ ρ ν} {c c' c'' : State σ κ ρ ν} {es es' : List (Event σ ρ ν)}

theorem Steps.trans (h : Steps k c es c') (h' : Steps k c' es' c'') : Steps k c (es ++ es') c'' := by
  induction h' with
  | refl => rwa [List.append_nil]
  | snoc _ hm ih =>
    rw [← List.append_assoc]
    exact ih.snoc hm

theorem Move.steps (h : Move k c es c') : Steps k c es c' := (Steps.refl c).snoc h

theorem History.steps {log : List (Event σ ρ ν)} (h : History k c log) (h' : Steps k c es c') :
    History k c' (log ++ es) := by
  obtain ⟨s, hs⟩ := h
  exact ⟨s, hs.trans h'⟩

/-! ## Each evaluation is a sequence of moves -/

/-- Moves that hand nothing out to a caller. -/
def Inner (k : Compiler σ κ ρ ν) (c c' : State σ κ ρ ν) : Prop :=
  ∃ es, es.filterMap Event.returned? = [] ∧ Steps k c es c'

theorem Inner.trans (h : Inner k c c') (h' : Inner k c' c'') : Inner k c c'' := by
  obtain ⟨es, hes, h⟩ := h
  obtain ⟨es', hes', h'⟩ := h'
  exact ⟨es ++ es', by rw [List.filterMap_append, hes, hes', List.append_nil], h.trans h'⟩

theorem Move.inner (h : Move k c es c') (hes : es.filterMap Event.returned? = [] := by rfl) : Inner k c c' :=
  ⟨es, hes, h.steps⟩

/-- A request for later is one of those that the machine makes. -/
theorem later_requestLater (k : Compiler σ κ ρ ν) (prepare : Call σ ρ) (l : Listener σ ν) (m : Cache σ κ ρ ν) (s : σ) :
    ∃ es m' s', es.filterMap Event.returned? = [] ∧ Later k prepare l m s es m' s' ∧
      start (requestLater k prepare l) (m, s) = (.ok (), (m', s')) := by
  unfold requestLater
  rcases hr : prepare s with ⟨t | r, s'⟩
  · exact ⟨_, _, _, rfl, .unready hr, by simp only [start, hr]⟩
  rcases hv : m.get? (k.key r) with _ | v
  · rcases hf : m.inFlight.lookup (k.key r) with _ | n
    · exact ⟨_, _, _, rfl, .launch hr hv hf, by simp only [start, hr, hv, hf]⟩
    · rcases hj : k.onJoin r s' with ⟨t | u, s''⟩
      · exact ⟨_, _, _, rfl, .unjoined hr hv hf hj, by simp only [start, hr, hv, hf, hj]⟩
      · exact ⟨_, _, _, rfl, .join hr hv hf hj, by simp only [start, hr, hv, hf, hj]⟩
  · exact ⟨_, _, _, rfl, .found hr hv, by simp only [start, hr, hv]⟩

section evaluation

variable {m m' : Cache σ κ ρ ν} {s s' : σ} {n? : Option Nat} {r : ρ} {o : Except Thrown ν}

/-- A script runs to its end by moves if requests are answered by moves. -/
theorem inner_runScript {depth : Nat} {fs : List (Suspended σ ρ ν)}
    (hentry : ∀ {r m s f o m' s'}, start (entry k depth r) (m, s) = (o, (m', s')) →
      Inner k ⟨m, s, f :: fs, .asked n? r⟩ ⟨m', s', f :: fs, .answered n? r o⟩) {script : Script σ ρ ν}
    (h : runScript k (entry k depth) script (m, s) = (o, (m', s'))) :
    Inner k ⟨m, s, fs, .running n? r script⟩
      ⟨(m'.unmark (k.key r)).keep (k.key r) o, s', fs, .answered n? r o⟩ := by
  induction script generalizing m s with
  | finish c =>
    have hrun : runScript k (entry k depth) (.finish c) (m, s) = ((start c s).1, (m, (start c s).2)) := rfl
    rcases hc : start c s with ⟨o₁, s₁⟩
    rw [hrun, hc] at h
    cases h
    exact (Move.finish hc).inner
  | act f next ih =>
    have hfirst : Inner k ⟨m, s, fs, .running n? r (.act f next)⟩ ⟨m, f s, fs, .running n? r (next (f s))⟩ :=
      Move.act.inner
    exact hfirst.trans (ih (f s) h)
  | ask prepare next ih =>
    simp only [runScript] at h
    rcases hr : prepare s with ⟨t | r', s₁⟩ <;> simp only [hr] at h
    · have hfirst : Inner k ⟨m, s, fs, .running n? r (.ask prepare next)⟩ ⟨m, s₁, fs, .running n? r (next (.error t))⟩ :=
        (Move.unasked hr).inner
      exact hfirst.trans (ih _ h)
    · rcases he : entry k depth r' (m, s₁) with ⟨o₁, m₁, s₂⟩
      simp only [he] at h
      have hfirst : Inner k ⟨m, s, fs, .running n? r (.ask prepare next)⟩ ⟨m, s₁, ⟨r, next⟩ :: fs, .asked n? r'⟩ :=
        (Move.ask hr).inner
      have hlast : Inner k ⟨m₁, s₂, ⟨r, next⟩ :: fs, .answered n? r' o₁⟩ ⟨m₁, s₂, fs, .running n? r (next o₁)⟩ :=
        (Move.give (f := ⟨r, next⟩)).inner
      exact hfirst.trans ((hentry he).trans (hlast.trans (ih _ h)))
  | askLater prepare l next ih =>
    simp only [runScript] at h
    obtain ⟨es, m₁, s₁, hes, hlater, heq⟩ := later_requestLater k prepare l m s
    rw [show requestLater k prepare l (m, s) = _ from heq] at h
    have hfirst : Inner k ⟨m, s, fs, .running n? r (.askLater prepare l next)⟩ ⟨m₁, s₁, fs, .running n? r next⟩ :=
      (Move.askLater hlater).inner hes
    exact hfirst.trans (ih h)

/-- A request is answered by moves, at every depth that is left. -/
theorem inner_entry {depth : Nat} {fs : List (Suspended σ ρ ν)} (hd : fs.length + depth = k.depth)
    (h : start (entry k depth r) (m, s) = (o, (m', s'))) :
    Inner k ⟨m, s, fs, .asked n? r⟩ ⟨m', s', fs, .answered n? r o⟩ := by
  induction depth generalizing r m s o m' s' fs with
  | zero =>
    unfold start entry at h
    rcases hv : m.get? (k.key r) with _ | v <;> simp only [hv] at h
    · split at h
      · rename_i hk
        cases h
        exact (Move.refuse hv hk).inner
      · rename_i hk
        cases h
        exact (Move.exceed hv hk (by omega)).inner
    · rcases hh : k.onHit r s with ⟨t | u, s₁⟩ <;> rw [hh] at h <;> cases h
      · exact (Move.unhit hv hh).inner
      · exact (Move.hit hv hh).inner
  | succ depth ih =>
    unfold start entry at h
    rcases hv : m.get? (k.key r) with _ | v <;> simp only [hv] at h
    · split at h
      · rename_i hk
        cases h
        exact (Move.refuse hv hk).inner
      · rename_i hk
        rcases hs : runScript k (entry k depth) (k.script r) (m.mark (k.key r), s) with ⟨o₁, m₁, s₁⟩
        rw [hs] at h
        cases h
        have hfirst : Inner k ⟨m, s, fs, .asked n? r⟩ ⟨m.mark (k.key r), s, fs, .running n? r (k.script r)⟩ :=
          (Move.begin hv hk (by omega)).inner
        exact hfirst.trans (inner_runScript (fun he => ih (by simp; omega) he) hs)
    · rcases hh : k.onHit r s with ⟨t | u, s₁⟩ <;> rw [hh] at h <;> cases h
      · exact (Move.unhit hv hh).inner
      · exact (Move.hit hv hh).inner

end evaluation

end ArgGuard.Cache
