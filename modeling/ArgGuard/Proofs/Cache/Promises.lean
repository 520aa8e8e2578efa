/-
  ArgGuard.Proofs.Cache.Promises — what a store promises at every moment of every history.

  What a move does to entries and marks is one of three things (`Move.cases`): nothing, to
  begin a compilation, or to end one. So the marks are always the keys of the compilations
  under way, none of them has an entry, and an entry that is there stays (`Compiles`,
  `get?_move`). A task that came to a thing came to the entry of its key, and so did every
  answer (`served_move`). With what holds of tasks (`Tasks`) these are kept by every move
  (`inv_move`), hence hold all through a history (`inv_of_history`); the promises are read
  off them (`histories_keep_promises`).
-/

import ArgGuard.Proofs.Cache.Tasks

namespace ArgGuard.Cache

open Call

variable {σ κ ρ ν : Type} [DecidableEq κ] {k : Compiler σ κ ρ ν} {c c' : State σ κ ρ ν} {log es : List (Event σ ρ ν)}
  {m m' : Cache σ κ ρ ν} {s s' : σ} {prepare : Call σ ρ} {l : Listener σ ν}

/-! ## Entries and marks -/

/-- What a move does to entries and marks. -/
inductive Effect (k : Compiler σ κ ρ ν) (c c' : State σ κ ρ ν) (es : List (Event σ ρ ν)) : Prop where
  | nothing (hentries : c'.cache.entries = c.cache.entries) (hcompiling : c'.cache.compiling = c.cache.compiling)
      (hstack : c'.compileStack = c.compileStack) (hes : ∀ e ∈ es, ∀ r o, e ≠ .ended r o)
      (hanswer : ∀ n? r v, c'.control = .answered n? r (.ok v) → c.cache.get? (k.key r) = some v)
  | begins (r : ρ) (hcache : c'.cache = c.cache.mark (k.key r)) (hstack : c'.compileStack = r :: c.compileStack)
      (hes : es = [.began r]) (hnew : c.cache.get? (k.key r) = none) (hfree : k.key r ∉ c.cache.compiling)
      (hcontrol : ∀ n? r o, c'.control ≠ .answered n? r o)
  | ends (r : ρ) (o : Except Thrown ν) (hcache : c'.cache = (c.cache.unmark (k.key r)).keep (k.key r) o)
      (hstack : c.compileStack = r :: c'.compileStack) (hes : es = [.ended r o])
      (hcontrol : ∀ n? r' o', c'.control = .answered n? r' o' → r' = r ∧ o' = o)

theorem later_effect (h : Later k prepare l m s es m' s') :
    m'.entries = m.entries ∧ m'.compiling = m.compiling ∧ ∀ e ∈ es, ∀ r o, e ≠ .ended r o := by
  cases h with
  | unready | found | launch | unjoined => exact ⟨rfl, rfl, by simp⟩
  | join => exact ⟨(await_same _ _).1, (await_same _ _).2, by simp⟩

theorem Move.cases (h : Move k c es c') : Effect k c c' es := by
  cases h with
  | later h =>
    obtain ⟨hentries, hcompiling, hes⟩ := later_effect h
    exact .nothing hentries hcompiling rfl hes fun _ _ _ h => (nomatch h)
  | askLater h =>
    obtain ⟨hentries, hcompiling, hes⟩ := later_effect h
    exact .nothing hentries hcompiling rfl hes fun _ _ _ h => (nomatch h)
  | settle => exact .nothing (settled_same _ _ _).1 (settled_same _ _ _).2 rfl (by simp) fun _ _ _ h => (nomatch h)
  | done => exact .nothing (finished_same _ _ _).1 (finished_same _ _ _).2 rfl (by simp) fun _ _ _ h => (nomatch h)
  | hit hv hh =>
    refine .nothing rfl rfl rfl (by simp) fun n? r v h => ?_
    cases h
    exact hv
  | begin hv hk hd => exact .begins _ rfl rfl rfl hv hk fun _ _ _ h => (nomatch h)
  | finish hc =>
    refine .ends _ _ rfl rfl rfl fun n? r o h => ?_
    cases h
    exact ⟨rfl, rfl⟩
  | _ => exact .nothing rfl rfl rfl (by simp) fun _ _ _ h => (nomatch h)

/-- What holds of entries and marks. -/
structure Compiles (k : Compiler σ κ ρ ν) (c : State σ κ ρ ν) (log : List (Event σ ρ ν)) : Prop where
  stack : c.cache.compiling = c.compileStack.map k.key
  nodup : c.cache.compiling.Nodup
  fresh : ∀ key ∈ c.cache.compiling, c.cache.get? key = none
  made : ∀ r v, .ended r (.ok v) ∈ log → c.cache.get? (k.key r) = some v
  once : ((log.filterMap Event.made?).map k.key).Nodup
  answer : ∀ n? r v, c.control = .answered n? r (.ok v) → c.cache.get? (k.key r) = some v

theorem get?_of_entries (h : m'.entries = m.entries) (key : κ) : m'.get? key = m.get? key := by
  rw [get?, h, get?]

/-- An entry that is there stays: what is being compiled has none. -/
theorem get?_move (hi : Compiles k c log) (h : Move k c es c') {key : κ} {v : ν} (hv : c.cache.get? key = some v) :
    c'.cache.get? key = some v := by
  cases h.cases with
  | nothing hentries => rw [get?_of_entries hentries, hv]
  | begins r hcache => rw [hcache, get?_mark, hv]
  | ends r o hcache hstack =>
    have hmem : k.key r ∈ c.cache.compiling := by
      rw [hi.stack, hstack]
      exact List.mem_cons_self
    rw [hcache, get?_keep, get?_unmark, if_neg, hv]
    rintro rfl
    rw [hi.fresh _ hmem] at hv
    cases hv

theorem made?_eq_some {e : Event σ ρ ν} {r : ρ} (h : e.made? = some r) : ∃ v, e = .ended r (.ok v) := by
  unfold Event.made? at h
  split at h
  · rename_i v
    cases h
    exact ⟨v, rfl⟩
  · cases h

theorem filterMap_made?_eq_nil (hes : ∀ e ∈ es, ∀ r o, e ≠ .ended r o) : es.filterMap Event.made? = [] := by
  refine List.filterMap_eq_nil_iff.mpr fun e he => Option.eq_none_iff_forall_ne_some.mpr fun r hr => ?_
  obtain ⟨v, rfl⟩ := made?_eq_some hr
  exact hes _ he r _ rfl

/-- What was compiled to a thing before has an entry. -/
theorem Compiles.not_made (hi : Compiles k c log) {key : κ} (h : c.cache.get? key = none) :
    key ∉ (log.filterMap Event.made?).map k.key := by
  intro hk
  obtain ⟨r, hr, rfl⟩ := List.mem_map.mp hk
  obtain ⟨e, he, hmade⟩ := List.mem_filterMap.mp hr
  obtain ⟨v, rfl⟩ := made?_eq_some hmade
  rw [hi.made r v he] at h
  cases h

theorem compiles_move (hi : Compiles k c log) (h : Move k c es c') : Compiles k c' (log ++ es) := by
  have hkeep : ∀ {key : κ} {v : ν}, c.cache.get? key = some v → c'.cache.get? key = some v := get?_move hi h
  cases h.cases with
  | nothing hentries hcompiling hstack hes hanswer =>
    have hget := get?_of_entries hentries
    refine ⟨by rw [hcompiling, hstack, hi.stack], hcompiling ▸ hi.nodup, fun key hk => ?_, fun r v hmem => ?_, ?_,
      fun n? r v hc => ?_⟩
    · rw [hget]
      exact hi.fresh key (hcompiling ▸ hk)
    · rcases List.mem_append.mp hmem with hmem | hmem
      · exact hkeep (hi.made r v hmem)
      · exact absurd rfl (hes _ hmem r _)
    · rw [List.filterMap_append, filterMap_made?_eq_nil hes, List.append_nil]
      exact hi.once
    · rw [hget]
      exact hanswer n? r v hc
  | begins r hcache hstack hes hnew hfree hcontrol =>
    have hcompiling : c'.cache.compiling = k.key r :: c.cache.compiling := by rw [hcache]; rfl
    have hget : ∀ key, c'.cache.get? key = c.cache.get? key := fun key => by rw [hcache, get?_mark]
    refine ⟨by rw [hcompiling, hstack, hi.stack, List.map_cons], ?_, fun key hk => ?_, fun r' v hmem => ?_, ?_,
      fun n? r' v hc => absurd hc (hcontrol n? r' _)⟩
    · rw [hcompiling, List.nodup_cons]
      exact ⟨hfree, hi.nodup⟩
    · rw [hget]
      rw [hcompiling] at hk
      rcases List.mem_cons.mp hk with rfl | hk
      · exact hnew
      · exact hi.fresh key hk
    · rw [hget]
      exact hi.made r' v (by simpa [hes] using hmem)
    · simpa [hes, List.filterMap_cons] using hi.once
  | ends r o hcache hstack hes hcontrol =>
    have hmarks : c.cache.compiling = k.key r :: c'.compileStack.map k.key := by rw [hi.stack, hstack, List.map_cons]
    have hcompiling : c'.cache.compiling = c'.compileStack.map k.key := by
      rw [hcache, compiling_keep]
      show c.cache.compiling.erase (k.key r) = _
      rw [hmarks, List.erase_cons_head]
    have hnodup := hi.nodup
    rw [hmarks, List.nodup_cons] at hnodup
    have hnew : c.cache.get? (k.key r) = none := hi.fresh _ (hmarks ▸ List.mem_cons_self)
    have hown : ∀ v, o = .ok v → c'.cache.get? (k.key r) = some v := by
      rintro v rfl
      rw [hcache, get?_keep, if_pos rfl]
      rfl
    refine ⟨hcompiling, hcompiling ▸ hnodup.2, fun key hk => ?_, fun r' v hmem => ?_, ?_, fun n? r' v hc => ?_⟩
    · rw [hcompiling] at hk
      rw [hcache, get?_keep, get?_unmark, if_neg, hi.fresh key (hmarks ▸ List.mem_cons_of_mem _ hk)]
      rintro rfl
      exact hnodup.1 hk
    · rcases List.mem_append.mp hmem with hmem | hmem
      · exact hkeep (hi.made r' v hmem)
      · rw [hes, List.mem_singleton] at hmem
        cases hmem
        exact hown v rfl
    · rw [hes, List.filterMap_append, List.map_append]
      cases o with
      | error t => simpa [List.filterMap_cons] using hi.once
      | ok v =>
        rw [List.nodup_append]
        refine ⟨hi.once, by simp, ?_⟩
        rintro key hk key' hk' rfl
        rw [List.mem_singleton.mp (show key ∈ [k.key r] from hk')] at hk
        exact hi.not_made hnew hk
    · obtain ⟨rfl, ho⟩ := hcontrol n? r' _ hc
      exact hown v ho.symm

/-! ## Tasks -/

theorem tasks_later {turn? : Option Nat} (hi : Tasks k m turn? log) (h : Later k prepare l m s es m' s') :
    Tasks k m' turn? (log ++ es) := by
  cases h with
  | unready => exact hi.enqueue_notify (.inl ⟨_, rfl, rfl⟩)
  | found => exact hi.enqueue_notify (.inr ⟨_, _, rfl, rfl⟩)
  | launch hr hv hf => exact hi.launch hf
  | join hr hv hf => exact hi.await hf
  | unjoined => exact hi.enqueue_notify (.inl ⟨_, rfl, rfl⟩)

theorem tasks_move (hi : Tasks k c.cache c.control.task? log) (h : Move k c es c') :
    Tasks k c'.cache c'.control.task? (log ++ es) := by
  cases h with
  | later h => exact tasks_later hi h
  | askLater h => exact tasks_later hi h
  | turn hq ht => exact (hi.turn hq).of_eq rfl rfl rfl (by simp)
  | settle hq => exact hi.settle hq
  | resume hq => exact hi.resume hq
  | notify hq => exact hi.notify hq
  | finish hc => exact hi.of_eq (inFlight_keep ..) (tasks_keep ..) (queue_keep ..) (by simp)
  | done => exact (hi.finished _).of_eq rfl rfl rfl (by simp)
  | _ => exact hi.of_eq rfl rfl rfl (by simp)

/-- What tasks were begun for stays, and only the end of a turn gives a task an outcome. -/
theorem fate_later (h : Later k prepare l m s es m' s') (n : Nat) :
    m'.fate n = m.fate n ∨ m.fate n = none ∧ ∃ r, m'.fate n = some (r, none) := by
  cases h with
  | launch =>
    rw [fate_launch]
    split
    · rename_i hn
      exact .inr ⟨by simp [fate, hn], _, rfl⟩
    · exact .inl rfl
  | join => exact .inl (fate_await _ _ n)
  | _ => exact .inl rfl

theorem fate_move (h : Move k c es c') (n : Nat) :
    c'.cache.fate n = c.cache.fate n ∨ (c.cache.fate n = none ∧ ∃ r, c'.cache.fate n = some (r, none)) ∨
    ∃ r o, c.control = .answered (some n) r o ∧ c.suspended = [] ∧
      c'.cache.fate n = (c.cache.fate n).map fun x => (x.1, some o) := by
  cases h with
  | later h => exact (fate_later h n).imp_right .inl
  | askLater h => exact (fate_later h n).imp_right .inl
  | settle => exact .inl (fate_settled ..)
  | finish =>
    refine .inl ?_
    simp only [fate, tasks_keep]
    rfl
  | @done m s i r o =>
    by_cases hi : i = n
    · subst hi
      exact .inr (.inr ⟨r, o, rfl, rfl, by rw [fate_finished, if_pos rfl]⟩)
    · exact .inl (by rw [fate_finished, if_neg hi])
  | _ => exact .inl rfl

/-! ## All of it -/

/-- What holds at every moment of a history. -/
structure Inv (k : Compiler σ κ ρ ν) (c : State σ κ ρ ν) (log : List (Event σ ρ ν)) : Prop where
  compiles : Compiles k c log
  tasks : Tasks k c.cache c.control.task? log
  /-- The outermost request of a turn is the one that its task was begun for. -/
  turn : ∀ n, c.control.task? = some n → ∃ r o?, c.cache.fate n = some (r, o?) ∧ c.requests.getLast? = some r
  outcomes : ∀ n r v, c.cache.fate n = some (r, some (.ok v)) → c.cache.get? (k.key r) = some v
  served : ∀ e ∈ log, ∀ r v, e.served? = some (r, v) → c.cache.get? (k.key r) = some v

theorem inv_empty (s : σ) : Inv k (.atRest (.empty, s)) [] where
  compiles := ⟨rfl, .nil, fun _ h => (nomatch h), fun _ _ h => (nomatch h), .nil, fun _ _ _ h => (nomatch h)⟩
  tasks := tasks_empty
  turn n h := nomatch h
  outcomes n r v h := by simp [State.atRest, empty, fate] at h
  served e h := nomatch h

theorem turn_move (hi : Inv k c log) (h : Move k c es c') (n : Nat) (hn : c'.control.task? = some n) :
    ∃ r o?, c'.cache.fate n = some (r, o?) ∧ c'.requests.getLast? = some r := by
  have hrequests : (∃ t, c'.cache.tasks[n]? = some t ∧ c'.requests = [t.request]) ∨
      c.control.task? = some n ∧ c'.requests.getLast? = c.requests.getLast? := by
    cases h with
    | turn hq ht =>
      cases hn
      exact .inl ⟨_, ht, rfl⟩
    | outside | later | settle | resume | notify | handOut | done | request => cases hn
    | hit | unhit | refuse | exceed | begin | act | unasked | askLater | finish => exact .inr ⟨hn, rfl⟩
    | ask => exact .inr ⟨hn, List.getLast?_cons_cons⟩
    | give => exact .inr ⟨hn, List.getLast?_cons_cons.symm⟩
  rcases hrequests with ⟨t, ht, hr⟩ | ⟨hc, hr⟩
  · exact ⟨t.request, t.outcome?, by simp [fate, ht], by rw [hr]; rfl⟩
  · obtain ⟨r, o?, hfate, hlast⟩ := hi.turn n hc
    refine ⟨r, ?_⟩
    rw [hr]
    rcases fate_move h n with hf | ⟨hf, _⟩ | ⟨_, o, _, _, hf⟩
    · exact ⟨o?, hf.trans hfate, hlast⟩
    · rw [hfate] at hf
      cases hf
    · exact ⟨some o, by rw [hf, hfate]; rfl, hlast⟩

theorem outcomes_move (hi : Inv k c log) (h : Move k c es c') (n : Nat) (r : ρ) (v : ν)
    (hn : c'.cache.fate n = some (r, some (.ok v))) : c'.cache.get? (k.key r) = some v := by
  refine get?_move hi.compiles h ?_
  rcases fate_move h n with hf | ⟨_, r', hf⟩ | ⟨r', o, hcontrol, hsuspended, hf⟩
  · exact hi.outcomes n r v (hf ▸ hn)
  · rw [hf] at hn
    cases hn
  · -- the turn of the task ends with the answer to the request that it was begun for
    obtain ⟨r'', o?, hfate, hlast⟩ := hi.turn n (by rw [hcontrol]; rfl)
    have hrequests : c.requests = [r'] := by rw [State.requests, hcontrol, hsuspended]; rfl
    rw [hrequests] at hlast
    cases hlast
    rw [hf, hfate] at hn
    cases hn
    exact hi.compiles.answer _ _ _ hcontrol

theorem served_later (h : Later k prepare l m s es m' s') : ∀ e ∈ es, ∀ r v, e.served? = some (r, v) →
    m.get? (k.key r) = some v := by
  intro e he r v hserved
  cases h with
  | found hr hv =>
    cases List.mem_singleton.mp he
    cases hserved
    exact hv
  | _ =>
    cases List.mem_singleton.mp he
    cases hserved

/-- Whatever is served is the entry of its key. -/
theorem served_move (hi : Inv k c log) (h : Move k c es c') : ∀ e ∈ es, ∀ r v, e.served? = some (r, v) →
    c.cache.get? (k.key r) = some v := by
  intro e he r v hserved
  cases h with
  | later h => exact served_later h e he r v hserved
  | askLater h => exact served_later h e he r v hserved
  | @resume m s w o js hq =>
    cases List.mem_singleton.mp he
    cases o with
    | error t => cases hserved
    | ok v' =>
      cases hserved
      obtain ⟨r', hfate, hk⟩ := hi.tasks.waiters.resumes w (.ok v) (hq ▸ List.mem_cons_self)
      rw [hk]
      exact hi.outcomes _ _ _ hfate
  | give | handOut | done =>
    cases List.mem_singleton.mp he
    rename_i o
    cases o with
    | error t => cases hserved
    | ok v' =>
      cases hserved
      exact hi.compiles.answer _ _ _ rfl
  | settle | notify | refuse | begin | finish =>
    cases List.mem_singleton.mp he
    cases hserved
  | _ => cases he

theorem inv_move (hi : Inv k c log) (h : Move k c es c') : Inv k c' (log ++ es) where
  compiles := compiles_move hi.compiles h
  tasks := tasks_move hi.tasks h
  turn := turn_move hi h
  outcomes := outcomes_move hi h
  served e he r v hserved := by
    refine get?_move hi.compiles h ?_
    rcases List.mem_append.mp he with he | he
    · exact hi.served e he r v hserved
    · exact served_move hi h e he r v hserved

theorem inv_of_history (h : History k c log) : Inv k c log := by
  obtain ⟨s, h⟩ := h
  induction h with
  | refl => exact inv_empty s
  | snoc _ hm ih => exact inv_move ih hm

/-! ## What a store comes to -/

/-- What requests, requests for later and jobs of the queue make of a store, in any order and
with anything going on outside in between, and what callers were answered. -/
inductive Reached (k : Compiler σ κ ρ ν) : Cache σ κ ρ ν × σ → List (ρ × Except Thrown ν) → Prop where
  | start (s : σ) : Reached k (.empty, s) []
  | outside {m : Cache σ κ ρ ν} {s : σ} {answers : List (ρ × Except Thrown ν)} (h : Reached k (m, s) answers) (s' : σ) :
      Reached k (m, s') answers
  | request {m : Cache σ κ ρ ν} {s s' : σ} {w : Cache σ κ ρ ν × σ} {answers : List (ρ × Except Thrown ν)}
      {prepare : Call σ ρ} {r : ρ} {o : Except Thrown ν} (h : Reached k (m, s) answers)
      (hr : Call.start prepare s = (.ok r, s')) (ho : Call.start (Cache.request k prepare) (m, s) = (o, w)) :
      Reached k w (answers ++ [(r, o)])
  | later {w w' : Cache σ κ ρ ν × σ} {answers : List (ρ × Except Thrown ν)} {prepare : Call σ ρ} {l : Listener σ ν}
      (h : Reached k w answers) (hl : Call.start (requestLater k prepare l) w = (.ok (), w')) : Reached k w' answers
  | step {w : Cache σ κ ρ ν × σ} {answers : List (ρ × Except Thrown ν)} (h : Reached k w answers) :
      Reached k (step k w) answers

/-- Doing the jobs of a queue is doing one after the other. -/
theorem Reached.drain {w : Cache σ κ ρ ν × σ} {answers : List (ρ × Except Thrown ν)} (h : Reached k w answers)
    (fuel : Nat) : Reached k (drain k fuel w) answers := by
  induction fuel generalizing w with
  | zero => exact h
  | succ fuel ih =>
    rw [Cache.drain]
    split
    · exact h
    · exact ih h.step

theorem History.inner {c c' : State σ κ ρ ν} (h : History k c log) (hc : Inner k c c') :
    ∃ log', History k c' log' ∧ log'.filterMap Event.returned? = log.filterMap Event.returned? := by
  obtain ⟨es, hes, hsteps⟩ := hc
  exact ⟨log ++ es, h.steps hsteps, by rw [List.filterMap_append, hes, List.append_nil]⟩

/-- The first job of the queue is done by moves. -/
theorem inner_step (hi : Inv k (.atRest (m, s)) log) :
    Inner k (.atRest (m, s)) (.atRest (step k (m, s))) := by
  unfold step
  simp only
  split
  · exact ⟨[], rfl, .refl _⟩
  rename_i j js hq
  cases j with
  | compile n =>
    have hmem : n ∈ m.pending none := by simp [pending, hq]
    obtain ⟨r, hr⟩ : ∃ r, m.fate n = some (r, none) := (hi.tasks.turns.mem_iff n).mp hmem
    obtain ⟨t, ht, _⟩ := Option.map_eq_some_iff.mp hr
    rcases he : entry k k.depth t.request ({ m with queue := js }, s) with ⟨o, m', s'⟩
    have hwork : work k ({ m with queue := js }, s) (.compile n) = (m'.finished n o, s') := by
      simp only [work, ht, he]
    rw [hwork]
    have hturn : Inner k (.atRest (m, s)) ⟨{ m with queue := js }, s, [], .asked (some n) t.request⟩ :=
      (Move.turn hq ht).inner
    have hdone : Inner k ⟨m', s', [], .answered (some n) t.request o⟩ (.atRest (m'.finished n o, s')) := Move.done.inner
    exact hturn.trans ((inner_entry (by simp) he).trans hdone)
  | settle n => exact (Move.settle hq).inner
  | resume w o => exact (Move.resume hq).inner
  | notify l o => exact (Move.notify hq).inner

/-- Whatever requests and jobs come to, a history comes to, with the same answers. -/
theorem history_of_reached {w : Cache σ κ ρ ν × σ} {answers : List (ρ × Except Thrown ν)} (h : Reached k w answers) :
    ∃ log, History k (.atRest w) log ∧ log.filterMap Event.returned? = answers := by
  induction h with
  | start s => exact ⟨[], ⟨s, .refl _⟩, rfl⟩
  | @outside m s answers _ s' ih =>
    obtain ⟨log, hlog, hanswers⟩ := ih
    exact ⟨log ++ [], hlog.steps (Move.outside m s s').steps, by rw [List.append_nil, hanswers]⟩
  | @request m s s' w answers prepare r o _ hr ho ih =>
    obtain ⟨log, hlog, hanswers⟩ := ih
    obtain ⟨m', s''⟩ := w
    rw [start_request, hr] at ho
    have hasked : Inner k (.atRest (m, s)) ⟨m, s', [], .asked none r⟩ := (Move.request hr).inner
    obtain ⟨log', hlog', hsame⟩ := hlog.inner (hasked.trans (inner_entry (by simp) ho))
    refine ⟨log' ++ [.returned r o], hlog'.steps Move.handOut.steps, ?_⟩
    rw [List.filterMap_append, hsame, hanswers]
    rfl
  | @later w w' answers prepare l _ hl ih =>
    obtain ⟨log, hlog, hanswers⟩ := ih
    obtain ⟨es, m', s', hes, hlater, heq⟩ := later_requestLater k prepare l w.1 w.2
    rw [heq] at hl
    cases hl
    obtain ⟨log', hlog', hsame⟩ := hlog.inner ((Move.later hlater).inner hes)
    exact ⟨log', hlog', hsame.trans hanswers⟩
  | @step w answers _ ih =>
    obtain ⟨log, hlog, hanswers⟩ := ih
    obtain ⟨log', hlog', hsame⟩ := hlog.inner (inner_step (inv_of_history hlog))
    exact ⟨log', hlog', hsame.trans hanswers⟩

/-! ## The promises -/

/-- What a store promises at a moment of a history. -/
structure Promises (k : Compiler σ κ ρ ν) (c : State σ κ ρ ν) (log : List (Event σ ρ ν)) : Prop where
  /-- An entry is never removed or replaced. -/
  kept : ∀ key v, c.cache.get? key = some v → ∀ es c', Steps k c es c' → c'.cache.get? key = some v
  /-- Under one key compiling comes to a thing at most once. -/
  once : ((log.filterMap Event.made?).map k.key).Nodup
  /-- All who are answered with a thing for one key, at once or later, get the same. -/
  same : ∀ e ∈ log, ∀ e' ∈ log, ∀ r v r' v', e.served? = some (r, v) → e'.served? = some (r', v') →
    k.key r = k.key r' → v = v'
  /-- No two tasks of one key lack an outcome or their removal. -/
  single : ∀ n n' r r' o? o?', c.cache.fate n = some (r, o?) → c.cache.fate n' = some (r', o?') →
    (o? = none ∨ n ∈ c.cache.settling) → (o?' = none ∨ n' ∈ c.cache.settling) → k.key r = k.key r' → n = n'
  /-- Who joined a task was resumed, is in the queue to be resumed or waits: none is lost. -/
  joined : ∀ n, log.filterMap (Event.joined? n) =
    log.filterMap (Event.resumed? n) ++ c.cache.queue.filterMap (Job.resume? n) ++ c.cache.waitingFor n
  /-- A waiter is resumed with the outcome of the task that it joined, good or bad. -/
  resumed : ∀ w o, .resumed w o ∈ log ∨ .resume w o ∈ c.cache.queue → Done k c.cache w o
  /-- What is waited for has its turn now or in the queue. -/
  waits : ∀ n, ∀ w ∈ c.cache.waitingFor n, n ∈ c.cache.pending c.control.task?
  told : log.filterMap Event.due? = log.filterMap Event.told? ++ c.cache.queue.filterMap Job.notify?
  /-- When nothing is left to do, all who joined were resumed and all who were due were told. -/
  idle : c.control = .rest → c.cache.queue = [] →
    (∀ n, log.filterMap (Event.joined? n) = log.filterMap (Event.resumed? n)) ∧
      log.filterMap Event.due? = log.filterMap Event.told?
  /-- Removing a task leaves every other in flight. -/
  removal : ∀ n js, c.cache.queue = .settle n :: js → ∀ key i,
    (key, i) ∈ (settled k { c.cache with queue := js } n).inFlight ↔ (key, i) ∈ c.cache.inFlight ∧ i ≠ n
  /-- The marks are the keys of what is being compiled. -/
  marks : c.cache.compiling = c.compileStack.map k.key
  /-- A compilation that fails leaves the entries as they are and takes its mark away. -/
  failed : ∀ r t c', Move k c [.ended r (.error t)] c' →
    c'.cache.entries = c.cache.entries ∧ k.key r ∉ c'.compileStack.map k.key
  /-- A request is refused exactly if it has no entry and is being compiled, and is compiled
  exactly if it has neither and compilations may be nested deeper. -/
  asked : ∀ n? r, c.control = .asked n? r → (∃ es c', Move k c es c') ∧ ∀ es c', Move k c es c' →
    (es = [.refused r] ↔ c.cache.get? (k.key r) = none ∧ k.key r ∈ c.compileStack.map k.key) ∧
    (es = [.began r] ↔ c.cache.get? (k.key r) = none ∧ k.key r ∉ c.compileStack.map k.key ∧
      c.compileStack.length < k.depth)
  /-- A refusal leaves the store alone, marks included. -/
  refused : ∀ r c', Move k c [.refused r] c' → c'.cache = c.cache ∧
    ∃ n?, c'.control = .answered n? r (.error (k.recursion r))

theorem get?_steps (hi : Inv k c log) (h : Steps k c es c') {key : κ} {v : ν} (hv : c.cache.get? key = some v) :
    Inv k c' (log ++ es) ∧ c'.cache.get? key = some v := by
  induction h with
  | refl => exact ⟨by rwa [List.append_nil], hv⟩
  | snoc _ hm ih =>
    obtain ⟨hi', hv'⟩ := ih
    exact ⟨by simpa using inv_move hi' hm, get?_move hi'.compiles hm hv'⟩

theorem single_of_flights (h : Flights k m) {n n' : Nat} {r r' : ρ} {o? o?' : Option (Except Thrown ν)}
    (hn : m.fate n = some (r, o?)) (hn' : m.fate n' = some (r', o?')) (ho : o? = none ∨ n ∈ m.settling)
    (ho' : o?' = none ∨ n' ∈ m.settling) (hk : k.key r = k.key r') : n = n' := by
  have hmem := (h.mem_iff (k.key r) n).mpr ⟨r, o?, hn, rfl, ho⟩
  have hmem' := (h.mem_iff (k.key r) n').mpr ⟨r', o?', hn', hk.symm, ho'⟩
  have hfound := lookup_of_mem h.nodup hmem
  rw [lookup_of_mem h.nodup hmem'] at hfound
  exact (Option.some.inj hfound).symm

omit [DecidableEq κ] in
/-- When nothing is left to do, no one waits. -/
theorem waitingFor_idle (h : Tasks k m none log) (hq : m.queue = []) (n : Nat) : m.waitingFor n = [] := by
  refine List.eq_nil_iff_forall_not_mem.mpr fun w hw => ?_
  obtain ⟨_, r, hr, _⟩ := h.waiters.waiting n w hw
  have hmem := (h.turns.mem_iff n).mpr ⟨r, hr⟩
  simp [pending, hq] at hmem

theorem failed_move (hi : Compiles k c log) {r : ρ} {t : Thrown} (h : Move k c [.ended r (.error t)] c') :
    c'.cache.entries = c.cache.entries ∧ k.key r ∉ c'.compileStack.map k.key := by
  cases h.cases with
  | nothing _ _ _ hes => exact absurd rfl (hes _ List.mem_cons_self r _)
  | begins _ _ _ hes => cases hes
  | ends r' o hcache hstack hes =>
    cases hes
    refine ⟨by rw [hcache]; rfl, ?_⟩
    have hnodup := hi.nodup
    rw [hi.stack, hstack, List.map_cons, List.nodup_cons] at hnodup
    exact hnodup.1

theorem asked_move (hi : Compiles k c log) {n? : Option Nat} {r : ρ} (hc : c.control = .asked n? r) :
    (∃ es c', Move k c es c') ∧ ∀ es c', Move k c es c' →
      (es = [.refused r] ↔ c.cache.get? (k.key r) = none ∧ k.key r ∈ c.compileStack.map k.key) ∧
      (es = [.began r] ↔ c.cache.get? (k.key r) = none ∧ k.key r ∉ c.compileStack.map k.key ∧
        c.compileStack.length < k.depth) := by
  rw [← hi.stack]
  obtain ⟨m, s, fs, control⟩ := c
  simp only at hc
  subst hc
  have hlength : (State.compileStack ⟨m, s, fs, .asked n? r⟩).length = fs.length := by
    simp [State.compileStack, Control.compiled?]
  rw [hlength]
  constructor
  · cases hv : m.get? (k.key r) with
    | some v =>
      rcases hh : start (k.onHit r) s with ⟨t | u, s'⟩
      · exact ⟨_, _, .unhit hv hh⟩
      · exact ⟨_, _, .hit hv hh⟩
    | none =>
      by_cases hk : k.key r ∈ m.compiling
      · exact ⟨_, _, .refuse hv hk⟩
      · by_cases hd : fs.length < k.depth
        · exact ⟨_, _, .begin hv hk hd⟩
        · exact ⟨_, _, .exceed hv hk (Nat.le_of_not_lt hd)⟩
  · intro es c' h
    cases h with
    | hit hv | unhit hv => simp [hv]
    | refuse hv hk => simp [hv, hk]
    | exceed hv hk hd => simp [hv, hk, hd]
    | begin hv hk hd => simp [hv, hk, hd]

theorem refused_move {r : ρ} (h : Move k c [.refused r] c') :
    c'.cache = c.cache ∧ ∃ n?, c'.control = .answered n? r (.error (k.recursion r)) := by
  cases h with
  | later h => cases h
  | askLater h => cases h
  | refuse hv hk => exact ⟨rfl, _, rfl⟩

/-- Each moment of each history keeps the promises, and what requests and jobs come to, in
any order, is a moment of a history with the same answers. -/
theorem histories_keep_promises (k : Compiler σ κ ρ ν) :
    (∀ c log, History k c log → Promises k c log) ∧
    ∀ w answers, Reached k w answers → ∃ log, History k (.atRest w) log ∧ log.filterMap Event.returned? = answers := by
  refine ⟨fun c log h => ?_, fun w answers h => history_of_reached h⟩
  have hi := inv_of_history h
  have htasks := hi.tasks
  refine {
    kept := fun key v hv es c' hs => (get?_steps hi hs hv).2
    once := hi.compiles.once
    same := fun e he e' he' r v r' v' hv hv' hk => ?_
    single := fun n n' r r' o? o?' => single_of_flights htasks.flights
    joined := htasks.waiters.joined
    resumed := fun w o hw => hw.elim (htasks.waiters.resumed w o) (htasks.waiters.resumes w o)
    waits := fun n w hw => ?_
    told := htasks.waiters.told
    idle := fun hc hq => ?_
    removal := fun n js hq => mem_inFlight_settled htasks hq
    marks := hi.compiles.stack
    failed := fun r t c' => failed_move hi.compiles
    asked := fun n? r => asked_move hi.compiles
    refused := fun r c' => refused_move }
  · have hentry := hi.served e he r v hv
    rw [hk, hi.served e' he' r' v' hv'] at hentry
    exact (Option.some.inj hentry).symm
  · obtain ⟨_, r, hr, _⟩ := htasks.waiters.waiting n w hw
    exact (htasks.turns.mem_iff n).mpr ⟨r, hr⟩
  · rw [hc] at htasks
    refine ⟨fun n => ?_, ?_⟩
    · rw [htasks.waiters.joined n, hq, waitingFor_idle htasks hq, List.filterMap_nil, List.append_nil, List.append_nil]
    · rw [htasks.waiters.told, hq, List.filterMap_nil, List.append_nil]

/-! ## A compilation that asks for itself -/

/-- What is compiled for a number asks for the same number, and is that number whatever the answer. -/
def selfAsking : Compiler Nat Nat Nat Nat where
  key r := r
  script r := .ask (pure r) fun _ => .finish (pure r)
  onHit _ := pure ()
  onJoin _ := pure ()
  recursion _ := .foreign .error none
  depth := 3

/-- Counts what it is told of. -/
def counting : Listener Nat Nat := fun _ n => n + 1

def seven : Call Nat Nat := pure 7

/-- Two have asked for seven later, the second joining the first, and the task is done. -/
def sevenDone : Cache Nat Nat Nat Nat × Nat :=
  step selfAsking (start (requestLater selfAsking seven counting)
    (start (requestLater selfAsking seven counting) (.empty, 0)).2).2

/-- A caller has come while the task was in flight, and all jobs are done. -/
def sevenTold : Cache Nat Nat Nat Nat × Nat := drain selfAsking 5 (start (request selfAsking seven) sevenDone).2

theorem reached_sevenTold : Reached selfAsking sevenTold [(7, .ok 7)] := by
  have hfirst : Reached selfAsking (start (requestLater selfAsking seven counting) (.empty, 0)).2 [] :=
    Reached.later (.start 0) (show start (requestLater selfAsking seven counting) _ = _ from rfl)
  have hjoined : Reached selfAsking _ [] :=
    hfirst.later (show start (requestLater selfAsking seven counting) _ = _ from rfl)
  have hdone : Reached selfAsking sevenDone [] := hjoined.step
  have hentry : sevenDone.1.get? 7 = some 7 := by decide +kernel
  have hanswer : start (request selfAsking seven) sevenDone = (.ok 7, sevenDone) := entry_hit hentry rfl
  have hcaller : Reached selfAsking sevenDone [(7, .ok 7)] :=
    hdone.request (m := sevenDone.1) (s := sevenDone.2) (show start seven _ = (.ok 7, _) from rfl) hanswer
  rw [sevenTold, hanswer]
  exact hcaller.drain 5

theorem histories_keep_promises_selfAsking :
    Reached selfAsking sevenTold [(7, .ok 7)] ∧ sevenTold.2 = 2 ∧ sevenTold.1.get? 7 = some 7 ∧
      ∃ log, History selfAsking (.atRest sevenTold) log ∧ log.filterMap Event.returned? = [(7, .ok 7)] ∧
        Promises selfAsking (.atRest sevenTold) log := by
  obtain ⟨log, hlog, hanswers⟩ := (histories_keep_promises selfAsking).2 _ _ reached_sevenTold
  exact ⟨reached_sevenTold, by decide +kernel, by decide +kernel, log, hlog, hanswers,
    (histories_keep_promises selfAsking).1 _ _ hlog⟩

end ArgGuard.Cache
