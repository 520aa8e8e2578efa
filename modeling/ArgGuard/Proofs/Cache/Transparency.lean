/-
  ArgGuard.Proofs.Cache.Transparency — an answer from a cache is what compiling anew comes to.

  A process describes requests and asks its caches for validators, and in between runs code
  from outside (`Serves`). Such code leaves given numbers alone (`Surroundings.Keeps`), so
  every request was described at a table that the latest one grew from, and every entry of a
  cache was compiled from a request of the log under the digest that is its key (`Serving`,
  kept by each step: `serving_of_serves`). Where digests tell the canonical texts of the log
  apart, a request that is answered by an entry is the same as the one it was compiled from,
  and so is what compiling comes to (`start_compile_silent`).
-/

import ArgGuard.Cache.Validators
import ArgGuard.Proofs.Cache.Store
import ArgGuard.Proofs.Descriptor
import ArgGuard.Proofs.Plan
import ArgGuard.Proofs.Surroundings

namespace ArgGuard

open Call Surroundings

variable {σ : Type} {env : Surroundings σ} {inv : Inventory σ}

/-! ## Requests -/

/-- A request that was read from outside was described at a table between two states. -/
theorem Validator.described_of_prepare (hk : env.Keeps) {params : Parameters σ} {options : Value} {r : Request σ}
    {s s' : σ} (h : start (prepare env params options) s = (.ok r, s')) (hs : r.set.StaticsPrimitive) :
    ∃ t, (Descriptor.describe t r.set r.options).1 = .ok r.descriptor ∧
      (Descriptor.describe t r.set r.options).2 = env.identities s' ∧ env.Advances s s' ∧
      ∀ line, Moves env.Advances (log r.options.debug? line) := by
  obtain ⟨set, s₁, hset, h⟩ := start_bind_eq_ok h
  obtain ⟨o, s₂, ho, h⟩ := start_bind_eq_ok h
  obtain ⟨hoptions, rfl⟩ := Options.start_read_eq_ok ho
  obtain ⟨d, s₃, hd, h⟩ := start_bind_eq_ok h
  cases h
  obtain ⟨told, s₂, hasked, hresult, hstored⟩ := Descriptor.start_ofRequest_eq_ok hk hd
  obtain rfl := Descriptor.told_of_primitive hs (returns_of_start hasked)
  have hread : env.Advances s s₁ := by
    have := ParameterSet.advances_read hk params s
    rwa [hset] at this
  have hnumbered : env.Advances s₁ s₂ := by
    have := Descriptor.advances_askDefaults hk set.specs s₁
    rwa [hasked] at this
  have hgrows := (Descriptor.view_numbers (env.identities s₂) (hs.covers []) o).grows
  rw [← Descriptor.describe_snd, hstored] at hgrows
  exact ⟨env.identities s₂, hresult, hstored, hread.trans (hnumbered.trans hgrows), Options.advances_log hk hoptions⟩

/-! ## Histories -/

/-- A request of a process, with the answer if a cache was asked. -/
structure Validator.Asked (σ : Type) where
  request : Validator.Request σ
  answer? : Option (Except Thrown (Validator σ))

/-- Tickets compiled as they are: compiling asks for nothing. -/
def Ticket.direct (env : Surroundings σ) (depth : Nat) : Compiler σ Ticket.Key (Ticket σ) (Validator σ) :=
  compiler (fun t => .finish (t.compile env)) depth

/-- What a process has come to, its caches and its state, and the requests it described or
made of a cache, the latest first. In between anything may run that leaves the numbers of
entities alone. -/
inductive Serves (env : Surroundings σ) (inv : Inventory σ) (depth : Nat) :
    Cache σ Ticket.Key (Ticket σ) (Validator σ) → σ → List (Validator.Asked σ) → Prop where
  | start {s : σ} (hs : env.identities s = .initial) : Serves env inv depth .empty s []
  | elsewhere {m : Cache σ Ticket.Key (Ticket σ) (Validator σ)} {s s' : σ} {log : List (Validator.Asked σ)}
      (h : Serves env inv depth m s log) (hs : env.Advances s s') : Serves env inv depth m s' log
  | describe {m : Cache σ Ticket.Key (Ticket σ) (Validator σ)} {s s' : σ} {log : List (Validator.Asked σ)}
      {params : Parameters σ} {options : Value} {r : Validator.Request σ} (h : Serves env inv depth m s log)
      (hr : Call.start (Validator.prepare env params options) s = (.ok r, s'))
      (hregular : Validator.Regular env inv r.set r.options) : Serves env inv depth m s' (⟨r, none⟩ :: log)
  | request {m m' : Cache σ Ticket.Key (Ticket σ) (Validator σ)} {s s' s'' : σ} {log : List (Validator.Asked σ)}
      {cache : Nat} {params : Parameters σ} {options : Value} {r : Validator.Request σ}
      {answer : Except Thrown (Validator σ)} (h : Serves env inv depth m s log)
      (hr : Call.start (Validator.prepare env params options) s = (.ok r, s'))
      (hregular : Validator.Regular env inv r.set r.options)
      (ha : Call.start (Cache.request (Ticket.direct env depth) (Ticket.prepare env cache params options)) (m, s) =
        (answer, (m', s''))) : Serves env inv depth m' s'' (⟨r, some answer⟩ :: log)

/-- A validator that compiling a request of the log came to, one of a given digest. -/
def Compiled (env : Surroundings σ) (log : List (Validator.Asked σ)) (digest : String) (v : Validator σ) : Prop :=
  ∃ x ∈ log, x.request.descriptor.digest = digest ∧
    Returns (Validator.compile env x.request.set x.request.options digest) v

theorem Compiled.cons {log : List (Validator.Asked σ)} {digest : String} {v : Validator σ} (h : Compiled env log digest v)
    (x : Validator.Asked σ) : Compiled env (x :: log) digest v := by
  obtain ⟨y, hy, hv⟩ := h
  exact ⟨y, List.mem_cons_of_mem _ hy, hv⟩

/-- A regular request that was described when the table was one that a later state's grew from. -/
def DescribedBefore (env : Surroundings σ) (inv : Inventory σ) (s : σ) (r : Validator.Request σ) : Prop :=
  Validator.Regular env inv r.set r.options ∧ ∃ t, (Descriptor.describe t r.set r.options).1 = .ok r.descriptor ∧
    Identities.Grows (Descriptor.describe t r.set r.options).2 (env.identities s)

theorem DescribedBefore.advances {s s' : σ} {r : Validator.Request σ} (h : DescribedBefore env inv s r)
    (hs : env.Advances s s') : DescribedBefore env inv s' r := by
  obtain ⟨hr, t, hd, ht⟩ := h
  exact ⟨hr, t, hd, ht.trans hs⟩

/-- What holds all through a history. -/
structure Serving (env : Surroundings σ) (inv : Inventory σ) (m : Cache σ Ticket.Key (Ticket σ) (Validator σ)) (s : σ)
    (log : List (Validator.Asked σ)) : Prop where
  grown : Identities.Grows .initial (env.identities s)
  described : ∀ x ∈ log, DescribedBefore env inv s x.request
  entries : ∀ key v, m.get? key = some v → Compiled env log key.2 v
  answers : ∀ x ∈ log, ∀ v, x.answer? = some (.ok v) → Compiled env log x.request.descriptor.digest v

namespace Serving

variable {m m' : Cache σ Ticket.Key (Ticket σ) (Validator σ)} {s s' : σ} {log : List (Validator.Asked σ)}

theorem elsewhere (h : Serving env inv m s log) (hs : env.Advances s s') : Serving env inv m s' log where
  grown := h.grown.trans hs
  described x hx := (h.described x hx).advances hs
  entries := h.entries
  answers := h.answers

/-- One more request, which may have been answered, and what the cache is then. -/
theorem cons (h : Serving env inv m s log) {x : Validator.Asked σ} (hx : DescribedBefore env inv s x.request)
    (hentries : ∀ key v, m'.get? key = some v → Compiled env (x :: log) key.2 v)
    (hanswer : ∀ v, x.answer? = some (.ok v) → Compiled env (x :: log) x.request.descriptor.digest v) :
    Serving env inv m' s (x :: log) where
  grown := h.grown
  described y hy := by
    rcases List.mem_cons.mp hy with rfl | hy
    · exact hx
    · exact h.described y hy
  entries := hentries
  answers y hy v hv := by
    rcases List.mem_cons.mp hy with rfl | hy
    · exact hanswer v hv
    · exact (h.answers y hy v hv).cons x

end Serving

theorem serving_of_serves (hk : env.Keeps) {depth : Nat} {m : Cache σ Ticket.Key (Ticket σ) (Validator σ)} {s : σ}
    {log : List (Validator.Asked σ)} (h : Serves env inv depth m s log) : Serving env inv m s log := by
  induction h with
  | start hs =>
    exact ⟨hs ▸ .refl _, fun _ h => (nomatch h), fun _ _ h => (nomatch h), fun _ h => (nomatch h)⟩
  | elsewhere _ hs ih => exact ih.elsewhere hs
  | describe _ hr hregular ih =>
    obtain ⟨t, hd, ht, hs, _⟩ := Validator.described_of_prepare hk hr hregular.statics
    exact (ih.elsewhere hs).cons ⟨hregular, t, hd, ht ▸ .refl _⟩ (fun key v hv => (ih.entries key v hv).cons _)
      fun _ h => (nomatch h)
  | @request m m' s s' s'' log cache params options r answer _ hr hregular ha ih =>
    obtain ⟨t, hd, ht, hs, hlog⟩ := Validator.described_of_prepare hk hr hregular.statics
    have hold : ∀ key v, m.get? key = some v → Compiled env (⟨r, some answer⟩ :: log) key.2 v := fun key v hv =>
      (ih.entries key v hv).cons _
    have hticket : Call.start (Ticket.prepare env cache params options) s = (.ok ⟨cache, r⟩, s') := start_bind_ok hr
    rw [Cache.start_request, hticket] at ha
    rcases Cache.entry_plain (c := Ticket.compile env ⟨cache, r⟩) rfl ha with
      ⟨v, hv, hanswer, rfl, rfl⟩ | ⟨⟨t, rfl⟩, rfl, rfl⟩ | ⟨hcompile, rfl⟩
    · have hstep : env.Advances s' (Call.start (Ticket.log ⟨cache, r⟩ "hit") s').2 := hlog _ s'
      refine ((ih.elsewhere hs).elsewhere hstep).cons ⟨hregular, t, hd, ht ▸ hstep⟩ hold ?_
      intro v' hv'
      rw [hanswer v' (Option.some.inj hv')]
      exact hold _ v hv
    · exact (ih.elsewhere hs).cons ⟨hregular, _, hd, ht ▸ .refl _⟩ hold fun _ h => (nomatch h)
    · have hstep : env.Advances s' s'' := by
        have hadvances : Moves env.Advances (Ticket.compile env ⟨cache, r⟩) := Validator.advances_compile hlog
        have := hadvances s'
        rwa [hcompile] at this
      have hnew : ∀ v, answer = .ok v → Compiled env (⟨r, some answer⟩ :: log) r.descriptor.digest v := by
        rintro v rfl
        exact ⟨_, List.mem_cons_self, rfl, returns_of_start hcompile⟩
      refine ((ih.elsewhere hs).elsewhere hstep).cons ⟨hregular, t, hd, ht ▸ hstep⟩ ?_ fun v hv =>
        hnew v (Option.some.inj hv)
      intro key v hv
      rw [Cache.get?_keep] at hv
      split at hv
      · rename_i hkey
        subst hkey
        cases answer with
        | error t => exact hold _ v hv
        | ok v' => exact hnew v (congrArg Except.ok (Option.some.inj hv))
      · exact hold key v hv

/-! ## Answers -/

/-- Whether two requests of a history are the same, logging aside. -/
def Validator.Asked.Same (x y : Validator.Asked σ) : Prop :=
  Validator.Same x.request.set x.request.options y.request.set y.request.options

/-- An answer that compiling the request anew confirms: without a sink compiling comes to it
from every state and leaves the state alone, and with the sink of the request it comes to
nothing else. -/
structure Validator.Request.Confirms (env : Surroundings σ) (r : Validator.Request σ) (v : Validator σ) : Prop where
  silent : ∀ s, start (Validator.compile env r.set { r.options with debug? := none } r.descriptor.digest) s = (.ok v, s)
  anew : ∀ fresh, Returns (Validator.compile env r.set r.options r.descriptor.digest) fresh → fresh = v

/-- A validator that compiling came to confirms itself for every request of its digest that
is the same. -/
theorem Validator.confirms_of_same {r r' : Validator.Request σ} {v : Validator σ} (h : Regular env inv r.set r.options)
    (h' : Regular env inv r'.set r'.options) (hs : Same r.set r.options r'.set r'.options)
    (hv : Returns (compile env r'.set r'.options r.descriptor.digest) v) : r.Confirms env v := by
  obtain ⟨hset, hoptions⟩ := eq_of_same h h' hs
  have hsilent : ∀ s, start (compile env r.set { r.options with debug? := none } r.descriptor.digest) s = (.ok v, s) := by
    intro s
    rw [hset, hoptions]
    exact start_compile_silent hv s
  refine ⟨hsilent, fun fresh hfresh => ?_⟩
  have ⟨s, _⟩ := hfresh
  have hboth := (hsilent s).symm.trans (start_compile_silent hfresh s)
  exact (Except.ok.inj (congrArg Prod.fst hboth)).symm

/-- In every history of a process whose regular requests have digests that tell their
canonical texts apart: regular requests can be described, their canonical texts are equal
exactly if they are the same, and each answer of a cache is the validator that compiling the
request anew comes to. -/
theorem Serves.transparent (hk : env.Keeps) {depth : Nat} {m : Cache σ Ticket.Key (Ticket σ) (Validator σ)} {s : σ}
    {log : List (Validator.Asked σ)} (h : Serves env inv depth m s log) (hexact : (env.identities s).next ≤ 2 ^ 53)
    (hdigest : ∀ x ∈ log, ∀ y ∈ log, x.request.descriptor.digest = y.request.descriptor.digest →
      x.request.descriptor.canonical = y.request.descriptor.canonical) :
    (∀ set o, Validator.Regular env inv set o → set.size ≤ 2 ^ 53 →
      (Descriptor.describe (env.identities s) set o).2.next ≤ 2 ^ 53 →
      ∃ d, (Descriptor.describe (env.identities s) set o).1 = .ok d) ∧
    (∀ x ∈ log, ∀ y ∈ log, x.request.descriptor.canonical = y.request.descriptor.canonical ↔ x.Same y) ∧
    ∀ x ∈ log, ∀ v, x.answer? = some (.ok v) → x.request.Confirms env v := by
  have hserving := serving_of_serves hk h
  have hsound := Identities.sound_grows hserving.grown Identities.sound_initial
  have hiff : ∀ x ∈ log, ∀ y ∈ log,
      x.request.descriptor.canonical = y.request.descriptor.canonical ↔ x.Same y := by
    intro x hx y hy
    obtain ⟨hr, t, hd, ht⟩ := hserving.described x hx
    obtain ⟨hr', t', hd', ht'⟩ := hserving.described y hy
    exact Validator.canonical_eq_iff hr hr' hd hd' ht ht' hsound hexact
  refine ⟨fun set o hr hsize hnext => ?_, hiff, fun x hx v hv => ?_⟩
  · refine Descriptor.describe_ok (hr.statics.covers []) hr.flags (fun p hp => ?_) hsound hnext
    obtain ⟨i, hi⟩ := List.mem_iff_getElem?.mp hp
    have hlt : i < set.size := (List.getElem?_eq_some_iff.mp hi).1
    rw [((ParameterSet.declared_sound hr.declared).2 i p hi).1]
    omega
  · obtain ⟨y, hy, hdy, hcompiled⟩ := hserving.answers x hx v hv
    have hsame := (hiff x hx y hy).mp (hdigest x hx y hy hdy.symm)
    exact Validator.confirms_of_same (hserving.described x hx).1 (hserving.described y hy).1 hsame hcompiled

/-! ## A process that asks twice

  For a seat that is "1" unless another is given; the second answer is the entry that the
  first one left. -/

def seatDefinitions : Value :=
  .ofItems [.record [("name", .text "seat"), ("default", .text "1"),
    ("type", (Capability.Scalar.nonEmptyStr.capability 1 : Capability Identities).toValue)]]

def seatSet : ParameterSet Identities where
  specs := [⟨"seat", 0, Capability.Scalar.nonEmptyStr.capability 1, .bool false, .value (.text "1")⟩]

def seatOptions : Options Identities := ⟨.named, .mapped, true, .off, "validator", true, none⟩

def seatInventory : Inventory Identities := ⟨fun _ => Capability.Scalar.nonEmptyStr.capability 1, fun _ => ""⟩

theorem regular_seat : Validator.Regular .numbering seatInventory seatSet seatOptions where
  declared := ⟨seatDefinitions, .initial, .initial, rfl⟩
  flags p hp := ⟨false, by rw [List.mem_singleton.mp hp]⟩
  statics p hp v hv := by
    rw [List.mem_singleton.mp hp] at hv
    cases hv
    rfl
  types p hp := by
    rw [List.mem_singleton.mp hp]
    rfl
  symbols p hp s hs := by
    rw [List.mem_singleton.mp hp] at hs
    cases hs
  slurpy _ h := nomatch h

/-- The table after the seat was described. -/
def seatTable : Identities := ⟨[(.object 1, 1)], 2⟩

theorem describe_seat : ∃ d, Descriptor.describe seatTable seatSet seatOptions = (.ok d, seatTable) := by
  have hp : ∀ p ∈ seatSet.specs, p.position < 2 ^ 53 := by
    intro p hp
    rw [List.mem_singleton.mp hp]
    decide
  have hsound : seatTable.Sound := Identities.sound_number Identities.sound_initial (.object 1)
  obtain ⟨d, hd⟩ := Descriptor.describe_ok (o := seatOptions) (regular_seat.statics.covers []) regular_seat.flags hp
    hsound (by decide)
  exact ⟨d, Prod.ext hd rfl⟩

/-- Whether the seat is known already makes no difference to its descriptor. -/
theorem prepare_seat {t : Identities} {d : Descriptor} (ht : t = .initial ∨ t = seatTable)
    (h : Descriptor.describe seatTable seatSet seatOptions = (.ok d, seatTable)) :
    start (Validator.prepare .numbering (.value seatDefinitions) .undefined) t =
      (.ok ⟨seatSet, seatOptions, d⟩, seatTable) := by
  have hread : start (ParameterSet.read .numbering (.value seatDefinitions)) t = (.ok seatSet, t) := rfl
  have hresolve : start (Options.read .numbering .undefined) t = (.ok seatOptions, t) := rfl
  have hasked : start (Descriptor.askDefaults .numbering seatSet.specs) t = (.ok [], seatTable) := by
    rcases ht with rfl | rfl <;> rfl
  have hdescribe :
      start (Surroundings.numbering.onIdentities fun t => Descriptor.describe t seatSet seatOptions) seatTable =
        (.ok d, seatTable) := by
    show (((Descriptor.describe seatTable seatSet seatOptions).1,
      (Descriptor.describe seatTable seatSet seatOptions).2) : _ × _) = _
    rw [h]
  exact (start_bind_ok hread).trans ((start_bind_ok hresolve).trans
    (start_bind_ok ((start_bind_ok hasked).trans hdescribe)))

theorem Serves.transparent_seat :
    ∃ (d : Descriptor) (v : Validator Identities)
      (m : Cache Identities Ticket.Key (Ticket Identities) (Validator Identities)),
      let x : Validator.Asked Identities := ⟨⟨seatSet, seatOptions, d⟩, some (.ok v)⟩
      Surroundings.numbering.Keeps ∧ Serves .numbering seatInventory 8 m seatTable [x, x] ∧ seatTable.next ≤ 2 ^ 53 ∧
      (∀ y ∈ [x, x], ∀ z ∈ [x, x], y.request.descriptor.digest = z.request.descriptor.digest →
        y.request.descriptor.canonical = z.request.descriptor.canonical) ∧ x.request.Confirms .numbering v := by
  obtain ⟨d, hd⟩ := describe_seat
  obtain ⟨v, hv⟩ : ∃ v, ∀ t, Call.start (Validator.compile .numbering seatSet seatOptions d.digest) t = (.ok v, t) :=
    ⟨_, fun _ => rfl⟩
  have hread : ∀ t, t = .initial ∨ t = seatTable →
      Call.start (Validator.prepare .numbering (.value seatDefinitions) .undefined) t =
        (.ok ⟨seatSet, seatOptions, d⟩, seatTable) :=
    fun t ht => prepare_seat ht hd
  have hticket : ∀ t, t = .initial ∨ t = seatTable →
      Call.start (Ticket.prepare .numbering 0 (.value seatDefinitions) .undefined) t =
        (.ok ⟨0, seatSet, seatOptions, d⟩, seatTable) :=
    fun t ht => start_bind_ok (hread t ht)
  let x : Validator.Asked Identities := ⟨⟨seatSet, seatOptions, d⟩, some (.ok v)⟩
  let m : Cache Identities Ticket.Key (Ticket Identities) (Validator Identities) := ⟨[((0, d.digest), v)], [], [], [], []⟩
  have hfirst : Call.start (Cache.request (Ticket.direct .numbering 8)
      (Ticket.prepare .numbering 0 (.value seatDefinitions) .undefined)) (.empty, .initial) =
        (.ok v, (m, seatTable)) := by
    rw [Cache.start_request, hticket _ (.inl rfl)]
    have hm : ((Cache.empty.mark (0, d.digest)).unmark (0, d.digest)).keep (0, d.digest) (.ok v) = m := by
      simp [Cache.mark, Cache.unmark, Cache.keep, Cache.put, Cache.empty, m]
    rw [← hm]
    show Call.start (Cache.entry (Ticket.direct .numbering 8) 8 ⟨0, seatSet, seatOptions, d⟩) (.empty, seatTable) = _
    exact Cache.entry_compile rfl rfl List.not_mem_nil (hv seatTable)
  have hsecond : Call.start (Cache.request (Ticket.direct .numbering 8)
      (Ticket.prepare .numbering 0 (.value seatDefinitions) .undefined)) (m, seatTable) = (.ok v, (m, seatTable)) := by
    rw [Cache.start_request, hticket _ (.inr rfl)]
    have hhit : m.get? (0, d.digest) = some v := by simp [m, Cache.get?]
    show Call.start (Cache.entry (Ticket.direct .numbering 8) 8 ⟨0, seatSet, seatOptions, d⟩) (m, seatTable) = _
    exact Cache.entry_hit hhit rfl
  have hserves : Serves .numbering seatInventory 8 m seatTable [x, x] :=
    .request (.request (.start rfl) (hread _ (.inl rfl)) regular_seat hfirst) (hread _ (.inr rfl)) regular_seat hsecond
  have hx : ∀ y ∈ [x, x], y = x := by simp
  have hdigest : ∀ y ∈ [x, x], ∀ z ∈ [x, x], y.request.descriptor.digest = z.request.descriptor.digest →
      y.request.descriptor.canonical = z.request.descriptor.canonical := by
    intro y hy z hz _
    rw [hx y hy, hx z hz]
  exact ⟨d, v, m, keeps_numbering, hserves, by decide, hdigest,
    (Serves.transparent keeps_numbering hserves (by decide) hdigest).2.2 x List.mem_cons_self v rfl⟩

end ArgGuard
