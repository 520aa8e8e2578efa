/-
  ArgGuard.Proofs.Cache.Store — what the small operations of a store do to it.

  Entries are read back as they were written (`lookup_put`), and keeping the outcome of a
  compilation writes at most one, under the key of what was compiled (`get?_keep`). A
  compilation that asks for nothing is run as it stands between the marks (`entry_plain`).
-/

import ArgGuard.Cache.Basic
import ArgGuard.Proofs.Call

namespace ArgGuard.Cache

open Call

variable {σ κ ρ ν : Type} [DecidableEq κ]

theorem lookup_pair {α : Type} (k k' : κ) (a : α) (es : List (κ × α)) :
    ((k, a) :: es).lookup k' = if k = k' then some a else es.lookup k' := by
  by_cases h : k = k'
  · simp [h]
  · have : (k' == k) = false := by simpa using Ne.symm h
    simp [List.lookup_cons, this, h]

theorem lookup_put {α : Type} (k k' : κ) (a : α) (es : List (κ × α)) :
    (put k a es).lookup k' = if k = k' then some a else es.lookup k' := by
  induction es with
  | nil => rw [put, lookup_pair]
  | cons e es ih =>
    obtain ⟨j, b⟩ := e
    by_cases hj : j = k
    · subst hj
      rw [put, if_pos rfl, lookup_pair, lookup_pair]
      by_cases hk : j = k' <;> simp [hk]
    · rw [put, if_neg hj, lookup_pair, lookup_pair, ih]
      by_cases hk : j = k'
      · subst hk
        simp [Ne.symm hj]
      · simp [hk]

theorem put_of_lookup_eq_none {α : Type} {k : κ} {es : List (κ × α)} (h : es.lookup k = none) (a : α) :
    put k a es = es ++ [(k, a)] := by
  induction es with
  | nil => rfl
  | cons e es ih =>
    obtain ⟨j, b⟩ := e
    rw [lookup_pair] at h
    split at h
    · cases h
    · rename_i hj
      rw [put, if_neg hj, ih h, List.cons_append]

theorem mem_of_lookup {α : Type} {k : κ} {a : α} {es : List (κ × α)} (h : es.lookup k = some a) : (k, a) ∈ es := by
  obtain ⟨l, l', rfl, _⟩ := List.lookup_eq_some_iff.mp h
  simp

/-- Under distinct keys the entry of a key is the one that is found. -/
theorem lookup_of_mem {α : Type} {k : κ} {a : α} {es : List (κ × α)} (hn : (es.map (·.1)).Nodup) (h : (k, a) ∈ es) :
    es.lookup k = some a := by
  induction es with
  | nil => cases h
  | cons e es ih =>
    obtain ⟨j, b⟩ := e
    simp only [List.map_cons, List.nodup_cons] at hn
    rw [lookup_pair]
    rcases List.mem_cons.mp h with he | h
    · cases he
      exact if_pos rfl
    · have hj : j ≠ k := by
        rintro rfl
        exact hn.1 (List.mem_map.mpr ⟨_, h, rfl⟩)
      rw [if_neg hj]
      exact ih hn.2 h

variable (m : Cache σ κ ρ ν) (key key' : κ)

@[simp] theorem get?_empty : (empty : Cache σ κ ρ ν).get? key = none := rfl

@[simp] theorem get?_enqueue (js : List (Job σ ρ ν)) : (m.enqueue js).get? key = m.get? key := rfl

@[simp] theorem get?_mark : (m.mark key').get? key = m.get? key := rfl

@[simp] theorem get?_unmark : (m.unmark key').get? key = m.get? key := rfl

theorem get?_keep (o : Except Thrown ν) :
    (m.keep key' o).get? key = if key' = key then o.toOption.or (m.get? key) else m.get? key := by
  cases o with
  | error t => simp [keep, Except.toOption]
  | ok v =>
    by_cases h : key' = key
    · simp [keep, get?, lookup_put, Except.toOption, h]
    · simp [keep, get?, lookup_put, h]

/-! ## What is left alone -/

section frame

variable (n : Nat) (o : Except Thrown ν)

@[simp] theorem compiling_keep : (m.keep key o).compiling = m.compiling := by cases o <;> rfl

@[simp] theorem inFlight_keep : (m.keep key o).inFlight = m.inFlight := by cases o <;> rfl

@[simp] theorem tasks_keep : (m.keep key o).tasks = m.tasks := by cases o <;> rfl

@[simp] theorem queue_keep : (m.keep key o).queue = m.queue := by cases o <;> rfl

omit [DecidableEq κ] in
theorem await_same (w : Waiter σ ρ ν) : (m.await w).entries = m.entries ∧ (m.await w).compiling = m.compiling := by
  unfold await
  split
  · exact ⟨rfl, rfl⟩
  · split <;> exact ⟨rfl, rfl⟩

omit [DecidableEq κ] in
theorem finished_same : (m.finished n o).entries = m.entries ∧ (m.finished n o).compiling = m.compiling := by
  unfold finished
  split <;> exact ⟨rfl, rfl⟩

theorem settled_same (k : Compiler σ κ ρ ν) :
    (settled k m n).entries = m.entries ∧ (settled k m n).compiling = m.compiling := by
  unfold settled
  split <;> exact ⟨rfl, rfl⟩

end frame

/-! ## Requests -/

variable {m key key'} {k : Compiler σ κ ρ ν} {m' : Cache σ κ ρ ν} {s s' : σ} {r : ρ}

theorem start_request {prepare : Call σ ρ} :
    start (request k prepare) (m, s) =
      match start prepare s with
      | (.ok r, s') => start (entry k k.depth r) (m, s')
      | (.error t, s') => (.error t, (m, s')) := by
  have hprepare : start (onState prepare : Run σ κ ρ ν ρ) (m, s) = ((start prepare s).1, (m, (start prepare s).2)) := rfl
  rw [request, start_bind, hprepare]
  rcases start prepare s with ⟨_ | r, s'⟩ <;> rfl

theorem entry_hit {v : ν} {depth : Nat} (hv : m.get? (k.key r) = some v) (hs : start (k.onHit r) s = (.ok (), s')) :
    start (entry k depth r) (m, s) = (.ok v, (m, s')) := by
  have hhit : k.onHit r s = (.ok (), s') := hs
  simp only [start, entry, hv, hhit]

theorem entry_compile {c : Call σ ν} {depth : Nat} {o : Except Thrown ν} (hc : k.script r = .finish c)
    (hv : m.get? (k.key r) = none) (hkey : k.key r ∉ m.compiling) (hs : start c s = (o, s')) :
    start (entry k (depth + 1) r) (m, s) = (o, (((m.mark (k.key r)).unmark (k.key r)).keep (k.key r) o, s')) := by
  have hcompile : c s = (o, s') := hs
  simp only [start, entry, hv, hkey, if_false, hc, runScript, onState, hcompile]

/-- What becomes of a request whose compilation asks for nothing: it is answered from the
entries, refused, or compiled. -/
theorem entry_plain {c : Call σ ν} (hc : k.script r = .finish c) {depth : Nat} {o : Except Thrown ν}
    (h : start (entry k depth r) (m, s) = (o, (m', s'))) :
    (∃ v, m.get? (k.key r) = some v ∧ (∀ v', o = .ok v' → v' = v) ∧ m' = m ∧ s' = (start (k.onHit r) s).2) ∨
    ((∃ t, o = .error t) ∧ m' = m ∧ s' = s) ∨
    (start c s = (o, s') ∧ m' = ((m.mark (k.key r)).unmark (k.key r)).keep (k.key r) o) := by
  unfold start entry at h
  cases hv : m.get? (k.key r) with
  | some v =>
    left
    refine ⟨v, rfl, ?_⟩
    simp only [hv] at h
    rcases hhit : k.onHit r s with ⟨t | u, s₁⟩ <;> rw [hhit] at h <;> cases h
    · exact ⟨fun _ h => (nomatch h), rfl, (congrArg Prod.snd hhit).symm⟩
    · exact ⟨fun _ h => (Except.ok.inj h).symm, rfl, (congrArg Prod.snd hhit).symm⟩
  | none =>
    right
    simp only [hv] at h
    split at h
    · cases h
      exact .inl ⟨⟨_, rfl⟩, rfl, rfl⟩
    cases depth with
    | zero =>
      cases h
      exact .inl ⟨⟨_, rfl⟩, rfl, rfl⟩
    | succ depth =>
      right
      simp only [hc, runScript, onState] at h
      rcases hs : c s with ⟨o', s₁⟩
      rw [hs] at h
      cases h
      exact ⟨hs, rfl⟩

end ArgGuard.Cache
