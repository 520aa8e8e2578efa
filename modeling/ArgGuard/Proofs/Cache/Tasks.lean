/-
  ArgGuard.Proofs.Cache.Tasks — the requests that were made for later.

  What holds of tasks and queue at every moment, for a store, the task whose turn it is and
  what was made known so far:
  - a task without outcome has one turn, now or in the queue, and no other has (`Turns`);
  - in flight are the tasks without outcome and those whose removal is in the queue, no two
    of one key (`Flights`), so removing one never removes another (`mem_inFlight_settled`);
  - who joined a task was resumed, is in the queue to be resumed, or waits, in this order and
    none lost, and is resumed with the outcome of the task; the same of listeners (`Waiters`).
  Each operation on tasks and queue keeps all three.
-/

import ArgGuard.Proofs.Cache.Machine

namespace ArgGuard

variable {σ κ ρ ν : Type}

namespace Job

@[simp] def compile? : Job σ ρ ν → Option Nat
  | .compile n => some n
  | _ => none

@[simp] def settle? : Job σ ρ ν → Option Nat
  | .settle n => some n
  | _ => none

/-- Who is to be resumed for a task. -/
@[simp] def resume? (n : Nat) : Job σ ρ ν → Option (Waiter σ ρ ν)
  | .resume w _ => if w.task = n then some w else none
  | _ => none

@[simp] def notify? : Job σ ρ ν → Option (Listener σ ν × Except Thrown ν)
  | .notify l o => some (l, o)
  | _ => none

end Job

namespace Cache

/-! ## What holds of tasks -/

/-- The tasks whose turn it is or is to come. -/
def pending (m : Cache σ κ ρ ν) (turn? : Option Nat) : List Nat := turn?.toList ++ m.queue.filterMap Job.compile?

/-- The tasks that are to be taken out of flight. -/
def settling (m : Cache σ κ ρ ν) : List Nat := m.queue.filterMap Job.settle?

/-- What a task was begun for and what it came to. -/
def fate (m : Cache σ κ ρ ν) (n : Nat) : Option (ρ × Option (Except Thrown ν)) :=
  m.tasks[n]?.map fun t => (t.request, t.outcome?)

def waitingFor (m : Cache σ κ ρ ν) (n : Nat) : List (Waiter σ ρ ν) := (m.tasks[n]?.map (·.waiting)).getD []

/-- The task of a waiter has come to an outcome. -/
def Done (k : Compiler σ κ ρ ν) (m : Cache σ κ ρ ν) (w : Waiter σ ρ ν) (o : Except Thrown ν) : Prop :=
  ∃ r, m.fate w.task = some (r, some o) ∧ k.key w.request = k.key r

structure Turns (m : Cache σ κ ρ ν) (turn? : Option Nat) : Prop where
  nodup : (m.pending turn?).Nodup
  mem_iff : ∀ n, n ∈ m.pending turn? ↔ ∃ r, m.fate n = some (r, none)

structure Flights (k : Compiler σ κ ρ ν) (m : Cache σ κ ρ ν) : Prop where
  settling_nodup : m.settling.Nodup
  settling_done : ∀ n ∈ m.settling, ∃ r o, m.fate n = some (r, some o)
  nodup : (m.inFlight.map (·.1)).Nodup
  mem_iff : ∀ key n, (key, n) ∈ m.inFlight ↔ ∃ r o?, m.fate n = some (r, o?) ∧ k.key r = key ∧
    (o? = none ∨ n ∈ m.settling)

structure Waiters (k : Compiler σ κ ρ ν) (m : Cache σ κ ρ ν) (log : List (Event σ ρ ν)) : Prop where
  waiting : ∀ n, ∀ w ∈ m.waitingFor n, w.task = n ∧ ∃ r, m.fate n = some (r, none) ∧ k.key w.request = k.key r
  resumes : ∀ w o, .resume w o ∈ m.queue → Done k m w o
  resumed : ∀ w o, .resumed w o ∈ log → Done k m w o
  joined : ∀ n, log.filterMap (Event.joined? n) =
    log.filterMap (Event.resumed? n) ++ m.queue.filterMap (Job.resume? n) ++ m.waitingFor n
  told : log.filterMap Event.due? = log.filterMap Event.told? ++ m.queue.filterMap Job.notify?

structure Tasks (k : Compiler σ κ ρ ν) (m : Cache σ κ ρ ν) (turn? : Option Nat) (log : List (Event σ ρ ν)) : Prop where
  turns : Turns m turn?
  flights : Flights k m
  waiters : Waiters k m log

variable {k : Compiler σ κ ρ ν} {m m' : Cache σ κ ρ ν} {turn? turn?' : Option Nat} {log es : List (Event σ ρ ν)} {r : ρ}
  {l : Listener σ ν} {n : Nat} {o : Except Thrown ν} {w : Waiter σ ρ ν} {js : List (Job σ ρ ν)}

theorem tasks_empty : Tasks k .empty none [] where
  turns := ⟨.nil, fun n => by simp [pending, empty, fate]⟩
  flights := ⟨.nil, fun _ h => (nomatch h), .nil, fun key n => by simp [empty, fate]⟩
  waiters := ⟨fun n w h => by simp [empty, waitingFor] at h, fun _ _ h => (nomatch h), fun _ _ h => (nomatch h),
    fun n => by simp [waitingFor, empty], rfl⟩

theorem Turns.of_eq (h : Turns m turn?) (hp : m'.pending turn?' = m.pending turn?) (hf : ∀ n, m'.fate n = m.fate n) :
    Turns m' turn?' :=
  ⟨hp ▸ h.nodup, fun n => by rw [hp, hf, h.mem_iff]⟩

theorem Flights.of_eq (h : Flights k m) (hs : m'.settling = m.settling) (hi : m'.inFlight = m.inFlight)
    (hf : ∀ n, m'.fate n = m.fate n) : Flights k m' :=
  ⟨hs ▸ h.settling_nodup, fun n hn => hf n ▸ h.settling_done n (hs ▸ hn), hi ▸ h.nodup,
    fun key n => by rw [hi, hs, hf, h.mem_iff]⟩

theorem Done.of_eq (h : Done k m w o) (hf : m'.fate w.task = m.fate w.task) : Done k m' w o := by
  obtain ⟨r, hr, hk⟩ := h
  exact ⟨r, hf.trans hr, hk⟩

/-- What is no matter of who waits may be made known. -/
theorem Waiters.aside (h : Waiters k m log) (hes : ∀ e ∈ es, e.aside = true) : Waiters k m (log ++ es) := by
  have hnone : ∀ {α : Type} (f : Event σ ρ ν → Option α), (∀ e, e.aside = true → f e = none) → es.filterMap f = [] :=
    fun f hf => List.filterMap_eq_nil_iff.mpr fun e he => hf e (hes e he)
  refine { h with resumed := fun w o hw => ?_, joined := fun n => ?_, told := ?_ }
  · rcases List.mem_append.mp hw with hw | hw
    · exact h.resumed w o hw
    · exact absurd (hes _ hw) (by simp)
  · rw [List.filterMap_append, List.filterMap_append, hnone (Event.joined? n), hnone (Event.resumed? n), List.append_nil,
      List.append_nil, h.joined n]
    all_goals (intro e he; cases e <;> first | rfl | cases he)
  · rw [List.filterMap_append, List.filterMap_append, hnone Event.due?, hnone Event.told?,
      List.append_nil, List.append_nil, h.told]
    all_goals (intro e he; cases e <;> first | rfl | cases he)

/-- Entries and marks are no matter of tasks. -/
theorem Tasks.of_eq (h : Tasks k m turn? log) (hi : m'.inFlight = m.inFlight) (ht : m'.tasks = m.tasks)
    (hq : m'.queue = m.queue) (hes : ∀ e ∈ es, e.aside = true) : Tasks k m' turn? (log ++ es) := by
  obtain ⟨entries, compiling, inFlight, tasks, queue⟩ := m
  obtain ⟨entries', compiling', inFlight', tasks', queue'⟩ := m'
  simp only at hi ht hq
  subst hi ht hq
  obtain ⟨hturns, hflights, hwaiters⟩ := h
  have hwaiters' := hwaiters.aside hes
  exact ⟨⟨hturns.nodup, hturns.mem_iff⟩,
    ⟨hflights.settling_nodup, hflights.settling_done, hflights.nodup, hflights.mem_iff⟩,
    ⟨hwaiters'.waiting, hwaiters'.resumes, hwaiters'.resumed, hwaiters'.joined, hwaiters'.told⟩⟩

/-! ## Listeners -/

/-- A listener is due an outcome and is put into the queue for it. -/
theorem Tasks.enqueue_notify (h : Tasks k m turn? log) {e : Event σ ρ ν}
    (he : (∃ t, e = .failed t l ∧ o = .error t) ∨ ∃ r v, e = .found r v l ∧ o = .ok v) :
    Tasks k (m.enqueue [.notify l o]) turn? (log ++ [e]) := by
  refine ⟨h.turns.of_eq (by simp [pending, enqueue, List.filterMap_cons]) fun _ => rfl,
    h.flights.of_eq (by simp [settling, enqueue, List.filterMap_cons]) rfl fun _ => rfl,
    ⟨h.waiters.waiting, ?_, ?_, ?_, ?_⟩⟩
  · intro w o' hw
    exact h.waiters.resumes w o' (by simpa [enqueue] using hw)
  · intro w o' hw
    exact h.waiters.resumed w o' (by rcases he with ⟨_, rfl, _⟩ | ⟨_, _, rfl, _⟩ <;> simpa using hw)
  · intro n
    have hjoined := h.waiters.joined n
    rcases he with ⟨_, rfl, _⟩ | ⟨_, _, rfl, _⟩ <;> simpa [enqueue, waitingFor, List.filterMap_cons] using hjoined
  · rcases he with ⟨_, rfl, rfl⟩ | ⟨_, _, rfl, rfl⟩ <;> simp [enqueue, List.filterMap_cons, h.waiters.told]

/-- The job of telling a listener is done. -/
theorem Tasks.notify (h : Tasks k m turn? log) (hq : m.queue = .notify l o :: js) :
    Tasks k { m with queue := js } turn? (log ++ [.told l o]) := by
  refine ⟨h.turns.of_eq (by simp [pending, hq, List.filterMap_cons]) fun _ => rfl,
    h.flights.of_eq (by simp [settling, hq, List.filterMap_cons]) rfl fun _ => rfl, ⟨h.waiters.waiting, ?_, ?_, ?_, ?_⟩⟩
  · intro w o' hw
    exact h.waiters.resumes w o' (hq ▸ List.mem_cons_of_mem _ hw)
  · intro w o' hw
    exact h.waiters.resumed w o' (by simpa using hw)
  · intro n
    have hjoined := h.waiters.joined n
    simpa [hq, waitingFor, List.filterMap_cons] using hjoined
  · simp [h.waiters.told, hq, List.filterMap_cons]

/-! ## Waiters -/

/-- The job of resuming a waiter is done, and its listener is due the outcome. -/
theorem Tasks.resume (h : Tasks k m turn? log) (hq : m.queue = .resume w o :: js) :
    Tasks k { m with queue := js ++ [.notify w.listener o] } turn? (log ++ [.resumed w o]) := by
  have hdone : Done k m w o := h.waiters.resumes w o (hq ▸ List.mem_cons_self)
  refine ⟨h.turns.of_eq (by simp [pending, hq, List.filterMap_cons]) fun _ => rfl,
    h.flights.of_eq (by simp [settling, hq, List.filterMap_cons]) rfl fun _ => rfl, ⟨h.waiters.waiting, ?_, ?_, ?_, ?_⟩⟩
  · intro w' o' hw
    have hmem : .resume w' o' ∈ js := by simpa using hw
    exact h.waiters.resumes w' o' (hq ▸ List.mem_cons_of_mem _ hmem)
  · intro w' o' hw
    rcases List.mem_append.mp hw with hw | hw
    · exact h.waiters.resumed w' o' hw
    · cases List.mem_singleton.mp hw
      exact hdone
  · intro n
    have hjoined := h.waiters.joined n
    by_cases hn : w.task = n <;> simpa [hq, hn, waitingFor, List.filterMap_cons] using hjoined
  · simp [h.waiters.told, hq, List.filterMap_cons]

/-- Whoever joins a task that is done is put into the queue with its outcome. -/
theorem Tasks.enqueue_resume (h : Tasks k m turn? log) (hw : Done k m w o) :
    Tasks k (m.enqueue [.resume w o]) turn? (log ++ [.joined w]) := by
  have hnone : m.waitingFor w.task = [] := by
    refine List.eq_nil_iff_forall_not_mem.mpr fun w' hw' => ?_
    obtain ⟨_, r, hr, _⟩ := h.waiters.waiting _ w' hw'
    obtain ⟨r', hr', _⟩ := hw
    rw [hr] at hr'
    cases hr'
  refine ⟨h.turns.of_eq (by simp [pending, enqueue, List.filterMap_cons]) fun _ => rfl,
    h.flights.of_eq (by simp [settling, enqueue, List.filterMap_cons]) rfl fun _ => rfl,
    ⟨h.waiters.waiting, ?_, ?_, ?_, ?_⟩⟩
  · intro w' o' hw'
    rcases List.mem_append.mp hw' with hw' | hw'
    · exact h.waiters.resumes w' o' hw'
    · cases List.mem_singleton.mp hw'
      exact hw
  · intro w' o' hw'
    exact h.waiters.resumed w' o' (by simpa using hw')
  · intro i
    have hwait : (m.enqueue [.resume w o]).waitingFor i = m.waitingFor i := rfl
    rw [hwait]
    by_cases hi : w.task = i
    · subst hi
      simp [enqueue, List.filterMap_cons, h.waiters.joined, hnone]
    · simp [enqueue, List.filterMap_cons, h.waiters.joined i, hi]
  · simp [enqueue, List.filterMap_cons, h.waiters.told]

theorem getElem?_of_set (m' : Cache σ κ ρ ν) {t t' : Task σ ρ ν} (hm : m'.tasks = m.tasks.set n t')
    (ht : m.tasks[n]? = some t) (i : Nat) :
    m'.tasks[i]? = if n = i then some t' else m.tasks[i]? := by
  rw [hm, List.getElem?_set]
  split
  · rename_i hi
    subst hi
    rw [if_pos (List.getElem?_eq_some_iff.mp ht).1]
  · rfl

theorem fate_wait {t : Task σ ρ ν} (ht : m.tasks[n]? = some t) (i : Nat) :
    ({ m with tasks := m.tasks.set n { t with waiting := t.waiting ++ [w] } } : Cache σ κ ρ ν).fate i = m.fate i := by
  have htasks := getElem?_of_set { m with tasks := m.tasks.set n { t with waiting := t.waiting ++ [w] } } rfl ht
  by_cases hi : n = i
  · subst hi
    simp only [fate, htasks, ht, if_true, Option.map_some]
  · simp only [fate, htasks, hi, if_false]

theorem fate_await (m : Cache σ κ ρ ν) (w : Waiter σ ρ ν) (i : Nat) : (m.await w).fate i = m.fate i := by
  unfold await
  split
  · rfl
  · rename_i t ht
    split
    · rfl
    · exact fate_wait ht i

/-- Whoever joins a task without outcome waits for it. -/
theorem Tasks.wait (h : Tasks k m turn? log) {t : Task σ ρ ν} (ht : m.tasks[w.task]? = some t) (ho : t.outcome? = none)
    (hk : k.key w.request = k.key t.request) :
    Tasks k { m with tasks := m.tasks.set w.task { t with waiting := t.waiting ++ [w] } } turn? (log ++ [.joined w]) := by
  have htasks := getElem?_of_set { m with tasks := m.tasks.set w.task { t with waiting := t.waiting ++ [w] } } rfl ht
  have hfate := fate_wait (w := w) ht
  have hwaiting : ∀ i,
      ({ m with tasks := m.tasks.set w.task { t with waiting := t.waiting ++ [w] } } : Cache σ κ ρ ν).waitingFor i =
        m.waitingFor i ++ if w.task = i then [w] else [] := by
    intro i
    by_cases hi : w.task = i
    · subst hi
      simp only [waitingFor, htasks, ht, if_true, Option.map_some, Option.getD_some]
    · simp only [waitingFor, htasks, hi, if_false, List.append_nil]
  refine ⟨h.turns.of_eq rfl hfate, h.flights.of_eq rfl rfl hfate, ⟨?_, ?_, ?_, ?_, ?_⟩⟩
  · intro i w' hw'
    rw [hwaiting] at hw'
    rw [hfate]
    rcases List.mem_append.mp hw' with hw' | hw'
    · exact h.waiters.waiting i w' hw'
    · split at hw'
      · rename_i hi
        rw [List.mem_singleton.mp hw']
        subst hi
        exact ⟨rfl, t.request, by simp [fate, ht, ho], hk⟩
      · cases hw'
  · intro w' o' hw'
    exact (h.waiters.resumes w' o' hw').of_eq (hfate _)
  · intro w' o' hw'
    exact (h.waiters.resumed w' o' (by simpa using hw')).of_eq (hfate _)
  · intro i
    rw [hwaiting]
    by_cases hi : w.task = i <;> simp [List.filterMap_cons, h.waiters.joined i, hi]
  · simp [List.filterMap_cons, h.waiters.told]

/-! ## The turn of a task -/

/-- The turn of a task comes. -/
theorem Tasks.turn (h : Tasks k m none log) (hq : m.queue = .compile n :: js) :
    Tasks k { m with queue := js } (some n) log := by
  refine ⟨h.turns.of_eq (by simp [pending, hq]) fun _ => rfl,
    h.flights.of_eq (by simp [settling, hq, List.filterMap_cons]) rfl fun _ => rfl,
    ⟨h.waiters.waiting, ?_, h.waiters.resumed, ?_, ?_⟩⟩
  · intro w' o' hw
    exact h.waiters.resumes w' o' (hq ▸ List.mem_cons_of_mem _ hw)
  · intro i
    simpa [hq, waitingFor, List.filterMap_cons] using h.waiters.joined i
  · simp [h.waiters.told, hq, List.filterMap_cons]

theorem getElem?_finished (m : Cache σ κ ρ ν) (n : Nat) (o : Except Thrown ν) (i : Nat) :
    (m.finished n o).tasks[i]? =
      if n = i then m.tasks[n]?.map fun t => { t with outcome? := some o, waiting := [] } else m.tasks[i]? := by
  unfold finished
  split
  · rename_i ht
    split
    · rename_i hi
      subst hi
      rw [ht, Option.map_none]
    · rfl
  · rename_i t ht
    have hset : (m.finished n o).tasks = m.tasks.set n { t with outcome? := some o, waiting := [] } := by
      simp only [finished, ht]
    have htasks := getElem?_of_set _ hset ht i
    simp only [finished, ht] at htasks
    rw [htasks, ht, Option.map_some]

theorem fate_finished (m : Cache σ κ ρ ν) (n : Nat) (o : Except Thrown ν) (i : Nat) :
    (m.finished n o).fate i = if n = i then (m.fate n).map fun x => (x.1, some o) else m.fate i := by
  simp only [fate, getElem?_finished]
  split
  · rw [Option.map_map, Option.map_map]
    rfl
  · rfl

theorem filterMap_resume {ws : List (Waiter σ ρ ν)} {i : Nat} (h : ∀ w ∈ ws, w.task = n) :
    (ws.map fun w => Job.resume w o).filterMap (Job.resume? i) = if n = i then ws else [] := by
  induction ws with
  | nil => simp
  | cons w ws ih =>
    have htask := h w List.mem_cons_self
    have hrest := ih fun w hw => h w (List.mem_cons_of_mem _ hw)
    by_cases hi : n = i
    · simpa [htask, hi] using hrest
    · simpa [htask, hi] using hrest

theorem inFlight_finished (m : Cache σ κ ρ ν) (n : Nat) (o : Except Thrown ν) :
    (m.finished n o).inFlight = m.inFlight := by
  unfold finished
  split <;> rfl

theorem waitingFor_finished (m : Cache σ κ ρ ν) (n : Nat) (o : Except Thrown ν) (i : Nat) :
    (m.finished n o).waitingFor i = if n = i then [] else m.waitingFor i := by
  simp only [waitingFor, getElem?_finished]
  split
  · cases m.tasks[n]? <;> rfl
  · rfl

section finished

variable {x : ρ × Option (Except Thrown ν)}

theorem queue_finished (hx : m.fate n = some x) (o : Except Thrown ν) :
    (m.finished n o).queue = m.queue ++ .settle n :: (m.waitingFor n).map fun w => .resume w o := by
  obtain ⟨t, ht, _⟩ := Option.map_eq_some_iff.mp hx
  simp only [finished, waitingFor, ht, Option.map_some, Option.getD_some]

theorem pending_finished (hx : m.fate n = some x) (o : Except Thrown ν) :
    m.pending (some n) = n :: (m.finished n o).pending none := by
  simp [pending, queue_finished hx, List.filterMap_cons]

theorem settling_finished (hx : m.fate n = some x) (o : Except Thrown ν) :
    (m.finished n o).settling = m.settling ++ [n] := by
  simp [settling, queue_finished hx]

theorem Turns.finished (h : Turns m (some n)) (hr : m.fate n = some (r, none)) (o : Except Thrown ν) :
    Turns (m.finished n o) none := by
  have hnodup := h.nodup
  rw [pending_finished hr o, List.nodup_cons] at hnodup
  refine ⟨hnodup.2, fun i => ?_⟩
  have hiff := h.mem_iff i
  rw [pending_finished hr o, List.mem_cons] at hiff
  rw [fate_finished, hr]
  by_cases hi : n = i
  · subst hi
    simp [hnodup.1]
  · rw [if_neg hi, ← hiff]
    simp [Ne.symm hi]

/-- It stays in flight, now for its removal. -/
theorem Flights.finished (h : Flights k m) (hr : m.fate n = some (r, none)) (o : Except Thrown ν) :
    Flights k (m.finished n o) := by
  have hunsettled : n ∉ m.settling := by
    intro hn
    obtain ⟨_, _, hdone⟩ := h.settling_done n hn
    rw [hr] at hdone
    cases hdone
  refine ⟨?_, ?_, inFlight_finished m n o ▸ h.nodup, ?_⟩
  · rw [settling_finished hr, List.nodup_append]
    refine ⟨h.settling_nodup, by simp, ?_⟩
    rintro i hi j hj rfl
    exact hunsettled (List.mem_singleton.mp hj ▸ hi)
  · intro i hi
    rw [fate_finished, hr]
    by_cases hn : n = i
    · exact ⟨r, o, if_pos hn⟩
    · rw [if_neg hn]
      rw [settling_finished hr, List.mem_append, List.mem_singleton] at hi
      exact h.settling_done i (hi.resolve_right (Ne.symm hn))
  · intro key i
    rw [inFlight_finished, h.mem_iff, settling_finished hr, fate_finished]
    by_cases hi : n = i
    · subst hi
      simp only [hr, if_true, Option.map_some]
      constructor
      · rintro ⟨r', o?, heq, hk, _⟩
        cases heq
        exact ⟨r, some o, rfl, hk, .inr (by simp)⟩
      · rintro ⟨r', o?, heq, hk, _⟩
        cases heq
        exact ⟨r, none, rfl, hk, .inl rfl⟩
    · simp [hi, Ne.symm hi]

/-- What is done stays done. -/
theorem Done.finished {o' : Except Thrown ν} (h : Done k m w o') (hr : m.fate n = some (r, none)) (o : Except Thrown ν) :
    Done k (m.finished n o) w o' := by
  obtain ⟨r', hr', hk⟩ := h
  refine ⟨r', ?_, hk⟩
  rw [fate_finished, if_neg, hr']
  rintro rfl
  rw [hr] at hr'
  cases hr'

/-- Who waited for it is to be resumed with its outcome. -/
theorem Waiters.finished (h : Waiters k m log) (hr : m.fate n = some (r, none)) (o : Except Thrown ν) :
    Waiters k (m.finished n o) log := by
  refine ⟨?_, ?_, fun w o' hw => (h.resumed w o' hw).finished hr o, ?_, ?_⟩
  · intro i w hw
    rw [waitingFor_finished] at hw
    split at hw
    · cases hw
    · rename_i hi
      obtain ⟨htask, r', hr', hk⟩ := h.waiting i w hw
      exact ⟨htask, r', by rw [fate_finished, if_neg hi, hr'], hk⟩
  · intro w o' hw
    rw [queue_finished hr, List.mem_append] at hw
    rcases hw with hw | hw
    · exact (h.resumes w o' hw).finished hr o
    · obtain ⟨w', hmem, rfl, rfl⟩ : ∃ w', w' ∈ m.waitingFor n ∧ w' = w ∧ o = o' := by simpa using hw
      obtain ⟨htask, r', hr', hk⟩ := h.waiting n w' hmem
      rw [hr] at hr'
      cases hr'
      exact ⟨r, by rw [fate_finished, if_pos htask.symm, hr]; rfl, hk⟩
  · intro i
    have hresume := filterMap_resume (n := n) (i := i) (o := o) fun w hw => (h.waiting n w hw).1
    rw [waitingFor_finished, queue_finished hr, h.joined i, List.filterMap_append, List.filterMap_cons, hresume]
    by_cases hi : n = i
    · subst hi
      simp
    · simp [hi]
  · have hnotify : (m.waitingFor n).filterMap (Job.notify? ∘ fun w => Job.resume w o) = [] :=
      List.filterMap_eq_nil_iff.mpr fun _ _ => rfl
    rw [queue_finished hr, h.told, List.filterMap_append, List.filterMap_cons, List.filterMap_map, hnotify]
    simp

/-- A task comes to its outcome, and who waits is put into the queue with it. -/
theorem Tasks.finished (h : Tasks k m (some n) log) (o : Except Thrown ν) : Tasks k (m.finished n o) none log := by
  obtain ⟨r, hr⟩ := (h.turns.mem_iff n).mp List.mem_cons_self
  exact ⟨h.turns.finished hr o, h.flights.finished hr o, h.waiters.finished hr o⟩

end finished

/-! ## Tasks in flight -/

section flights

variable [DecidableEq κ]

theorem getElem?_launch (m : Cache σ κ ρ ν) (key : κ) (r : ρ) (l : Listener σ ν) (i : Nat) :
    (m.launch key r l).tasks[i]? =
      if i = m.tasks.length then some ⟨r, none, [⟨r, m.tasks.length, l⟩]⟩ else m.tasks[i]? := by
  simp only [launch]
  split
  · rename_i hi
    subst hi
    simp
  · rename_i hi
    rcases Nat.lt_or_gt_of_ne hi with hi | hi
    · exact List.getElem?_append_left hi
    · rw [List.getElem?_eq_none (by simp; omega), List.getElem?_eq_none (by omega)]

theorem fate_launch (m : Cache σ κ ρ ν) (key : κ) (r : ρ) (l : Listener σ ν) (i : Nat) :
    (m.launch key r l).fate i = if i = m.tasks.length then some (r, none) else m.fate i := by
  simp only [fate, getElem?_launch]
  split <;> rfl

/-- A task that was there is what it was. -/
theorem fate_launch_of_some {x : ρ × Option (Except Thrown ν)} {i : Nat} (hx : m.fate i = some x) (key : κ) (r : ρ)
    (l : Listener σ ν) : (m.launch key r l).fate i = some x := by
  rw [fate_launch, if_neg, hx]
  rintro rfl
  simp [fate] at hx

theorem waitingFor_launch (m : Cache σ κ ρ ν) (key : κ) (r : ρ) (l : Listener σ ν) (i : Nat) :
    (m.launch key r l).waitingFor i = if i = m.tasks.length then [⟨r, m.tasks.length, l⟩] else m.waitingFor i := by
  simp only [waitingFor, getElem?_launch]
  split <;> rfl

theorem pending_launch (m : Cache σ κ ρ ν) (turn? : Option Nat) (key : κ) (r : ρ) (l : Listener σ ν) :
    (m.launch key r l).pending turn? = m.pending turn? ++ [m.tasks.length] := by
  simp [launch, pending]

theorem settling_launch (m : Cache σ κ ρ ν) (key : κ) (r : ρ) (l : Listener σ ν) :
    (m.launch key r l).settling = m.settling := by
  simp [launch, settling, List.filterMap_cons]

theorem Turns.launch (h : Turns m turn?) (key : κ) (r : ρ) (l : Listener σ ν) : Turns (m.launch key r l) turn? := by
  constructor
  · rw [pending_launch, List.nodup_append]
    refine ⟨h.nodup, by simp, ?_⟩
    rintro i hi j hj rfl
    obtain ⟨r', hr'⟩ := (h.mem_iff i).mp hi
    rw [List.mem_singleton.mp hj] at hr'
    simp [fate] at hr'
  · intro i
    rw [pending_launch, List.mem_append, List.mem_singleton, h.mem_iff, fate_launch]
    by_cases hi : i = m.tasks.length
    · simp [hi]
    · simp [hi]

theorem Flights.launch (h : Flights k m) (hf : m.inFlight.lookup (k.key r) = none) (l : Listener σ ν) :
    Flights k (m.launch (k.key r) r l) := by
  have hflight : (m.launch (k.key r) r l).inFlight = m.inFlight ++ [(k.key r, m.tasks.length)] :=
    put_of_lookup_eq_none hf _
  refine ⟨settling_launch m (k.key r) r l ▸ h.settling_nodup, ?_, ?_, ?_⟩
  · intro i hi
    rw [settling_launch] at hi
    obtain ⟨r', o, hr'⟩ := h.settling_done i hi
    exact ⟨r', o, fate_launch_of_some hr' _ _ _⟩
  · rw [hflight, List.map_append, List.nodup_append]
    refine ⟨h.nodup, by simp, ?_⟩
    rintro key hk key' hk' rfl
    obtain ⟨e, he, rfl⟩ := List.mem_map.mp hk
    rw [List.map_singleton, List.mem_singleton] at hk'
    have hne := List.lookup_eq_none_iff.mp hf e he
    simp [hk'] at hne
  · intro key i
    rw [hflight, List.mem_append, List.mem_singleton, h.mem_iff, settling_launch, fate_launch]
    by_cases hi : i = m.tasks.length
    · subst hi
      have hnew : m.fate m.tasks.length = none := by simp [fate]
      simp only [hnew, if_true, Prod.mk.injEq, and_true]
      constructor
      · rintro (⟨_, _, h, _⟩ | rfl)
        · cases h
        · exact ⟨r, none, rfl, rfl, .inl rfl⟩
      · rintro ⟨r', o?, h, rfl, _⟩
        cases h
        exact .inr rfl
    · simp [hi]

theorem Done.launch (h : Done k m w o) (key : κ) (r : ρ) (l : Listener σ ν) : Done k (m.launch key r l) w o := by
  obtain ⟨r', hr', hk⟩ := h
  exact ⟨r', fate_launch_of_some hr' _ _ _, hk⟩

theorem Waiters.launch (h : Waiters k m log) (key : κ) (r : ρ) (l : Listener σ ν) :
    Waiters k (m.launch key r l) (log ++ [.joined ⟨r, m.tasks.length, l⟩]) := by
  refine ⟨?_, ?_, ?_, ?_, ?_⟩
  · intro i w hw
    rw [waitingFor_launch] at hw
    split at hw
    · rename_i hi
      rw [List.mem_singleton.mp hw, fate_launch, if_pos hi]
      exact ⟨hi.symm, r, rfl, rfl⟩
    · obtain ⟨htask, r', hr', hk⟩ := h.waiting i w hw
      exact ⟨htask, r', fate_launch_of_some hr' _ _ _, hk⟩
  · intro w o hw
    exact (h.resumes w o (by simpa [Cache.launch] using hw)).launch _ _ _
  · intro w o hw
    exact (h.resumed w o (by simpa using hw)).launch _ _ _
  · intro i
    have hnone : m.waitingFor m.tasks.length = [] := by simp [waitingFor]
    rw [waitingFor_launch]
    by_cases hi : i = m.tasks.length
    · subst hi
      simp [Cache.launch, List.filterMap_cons, h.joined, hnone]
    · simp [Cache.launch, List.filterMap_cons, h.joined i, hi, Ne.symm hi]
  · simp [Cache.launch, List.filterMap_cons, h.told]

/-- A new task waits for its turn and has one waiter. -/
theorem Tasks.launch (h : Tasks k m turn? log) (hf : m.inFlight.lookup (k.key r) = none) :
    Tasks k (m.launch (k.key r) r l) turn? (log ++ [.joined ⟨r, m.tasks.length, l⟩]) :=
  ⟨h.turns.launch _ r l, h.flights.launch hf l, h.waiters.launch _ r l⟩

/-- A request joins the task of its key that is in flight. -/
theorem Tasks.await (h : Tasks k m turn? log) (hf : m.inFlight.lookup (k.key r) = some n) :
    Tasks k (m.await ⟨r, n, l⟩) turn? (log ++ [.joined ⟨r, n, l⟩]) := by
  obtain ⟨r', o?, hr', hk, _⟩ := (h.flights.mem_iff _ n).mp (mem_of_lookup hf)
  obtain ⟨t, ht, hpair⟩ := Option.map_eq_some_iff.mp hr'
  cases hpair
  unfold Cache.await
  simp only [ht]
  split
  · rename_i o ho
    exact h.enqueue_resume ⟨t.request, by simp [fate, ht, ho], hk.symm⟩
  · rename_i ho
    exact h.wait (w := ⟨r, n, l⟩) ht ho hk.symm

theorem fate_settled (m : Cache σ κ ρ ν) (n i : Nat) : (settled k m n).fate i = m.fate i := by
  unfold Cache.settled
  split <;> rfl

/-- The removal of a task takes that task out of flight and no other. -/
theorem mem_inFlight_settled (h : Tasks k m turn? log) (hq : m.queue = .settle n :: js) (key : κ) (i : Nat) :
    (key, i) ∈ (settled k { m with queue := js } n).inFlight ↔ (key, i) ∈ m.inFlight ∧ i ≠ n := by
  have hmem : n ∈ m.settling := by simp [settling, hq]
  obtain ⟨r, o, hr⟩ := h.flights.settling_done n hmem
  obtain ⟨t, ht, hpair⟩ := Option.map_eq_some_iff.mp hr
  obtain ⟨hrequest, _⟩ := Prod.mk.inj hpair
  have hown : (k.key r, n) ∈ m.inFlight := (h.flights.mem_iff _ n).mpr ⟨r, some o, hr, rfl, .inr hmem⟩
  simp only [Cache.settled, ht, hrequest, List.mem_filter, decide_eq_true_eq]
  constructor
  · rintro ⟨hi, hk⟩
    refine ⟨hi, ?_⟩
    rintro rfl
    obtain ⟨r', o?, hr', hk', _⟩ := (h.flights.mem_iff key i).mp hi
    rw [hr] at hr'
    cases hr'
    exact hk hk'.symm
  · rintro ⟨hi, hn⟩
    refine ⟨hi, ?_⟩
    rintro rfl
    have hfound := lookup_of_mem h.flights.nodup hi
    rw [lookup_of_mem h.flights.nodup hown] at hfound
    exact hn (Option.some.inj hfound).symm

/-- The job of removing a task is done. -/
theorem Tasks.settle (h : Tasks k m turn? log) (hq : m.queue = .settle n :: js) :
    Tasks k (settled k { m with queue := js } n) turn? (log ++ [.settled n]) := by
  have hmem : n ∈ m.settling := by simp [settling, hq]
  obtain ⟨r, o, hr⟩ := h.flights.settling_done n hmem
  obtain ⟨t, ht, _⟩ := Option.map_eq_some_iff.mp hr
  have hm : settled k { m with queue := js } n =
      { m with queue := js, inFlight := m.inFlight.filter fun e => e.1 ≠ k.key t.request } := by
    simp only [Cache.settled, ht]
  have hflight := mem_inFlight_settled h hq
  have hsettling : m.settling = n :: js.filterMap Job.settle? := by simp [settling, hq]
  have hnodup := h.flights.settling_nodup
  rw [hsettling, List.nodup_cons] at hnodup
  rw [hm] at hflight ⊢
  refine ⟨h.turns.of_eq (by simp [pending, hq, List.filterMap_cons]) fun _ => rfl, ⟨hnodup.2, ?_, ?_, ?_⟩,
    .aside ⟨h.waiters.waiting, ?_, h.waiters.resumed, ?_, ?_⟩ (by simp)⟩
  · intro i hi
    exact h.flights.settling_done i (hsettling ▸ List.mem_cons_of_mem _ hi)
  · exact h.flights.nodup.sublist (List.filter_sublist.map _)
  · intro key i
    rw [hflight, h.flights.mem_iff]
    show _ ↔ ∃ r o?, m.fate i = some (r, o?) ∧ k.key r = key ∧ (o? = none ∨ i ∈ js.filterMap Job.settle?)
    rw [hsettling]
    constructor
    · rintro ⟨⟨r', o?, hr', hk, ho⟩, hi⟩
      exact ⟨r', o?, hr', hk, ho.imp_right fun ho => (List.mem_cons.mp ho).resolve_left hi⟩
    · rintro ⟨r', o?, hr', hk, ho⟩
      refine ⟨⟨r', o?, hr', hk, ho.imp_right (List.mem_cons_of_mem _)⟩, ?_⟩
      rintro rfl
      rw [hr] at hr'
      cases hr'
      exact ho.elim (Option.some_ne_none _) hnodup.1
  · intro w' o' hw
    exact h.waiters.resumes w' o' (hq ▸ List.mem_cons_of_mem _ hw)
  · intro i
    simpa [hq, waitingFor, List.filterMap_cons] using h.waiters.joined i
  · simp [h.waiters.told, hq, List.filterMap_cons]

end flights

end Cache

end ArgGuard
