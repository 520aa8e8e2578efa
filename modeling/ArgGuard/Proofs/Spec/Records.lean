/-
  ArgGuard.Proofs.Spec.Records — a record of definitions reads as the list of them.

  Reading a definition asks for five of its members and nothing else
  (`ofDefinition_congr`), so it does not matter whether the key was put among copies of the
  entries or written into the definition itself. Enumeration moves index keys only, and of
  these a record may have none (`read_record`).
-/

import ArgGuard.Proofs.Entries
import ArgGuard.Proofs.Spec.Declared
import ArgGuard.Proofs.Text.Index

namespace ArgGuard

open Call

variable {σ : Type} {env : Surroundings σ}

/-! ## Enumeration -/

namespace Entries

variable {α : Type}

/-- Enumeration keeps the entries of one key in their order, so it changes no lookup. -/
theorem find?_ordered (k : String) (es : Entries α) : find? k (ordered es) = find? k es := by
  let isKey : String × α → Bool := fun e => e.1 == k
  have hkey : ∀ a : α, isKey (k, a) = true := fun _ => beq_self_eq_true k
  rw [← find?_filter hkey, filter_ordered, ordered_of_pairwise, find?_filter hkey]
  refine List.pairwise_of_forall_mem_list fun a ha b hb => ?_
  have hself : ∀ a ∈ (es.filter isKey).map (·.1), a = k := by
    intro a ha
    obtain ⟨e, he, rfl⟩ := List.mem_map.mp ha
    exact eq_of_beq (List.mem_filter.mp he).2
  rw [hself a ha, hself b hb]
  simpa using Text.precedes_total k k

/-- Entries none of which is under an index stand in the order of enumeration. -/
theorem ordered_of_no_index {es : Entries α} (h : ∀ e ∈ es, Text.isIndexText e.1 = false) : ordered es = es := by
  refine ordered_of_pairwise (List.pairwise_of_forall_mem_list fun a ha b hb => ?_)
  obtain ⟨e, he, rfl⟩ := List.mem_map.mp hb
  simp [Text.precedes, Text.arrayIndex?, h e he]

theorem keys_ordered (es : Entries α) : (ordered es).map (·.1) = (es.map (·.1)).mergeSort Text.precedes := by
  rw [ordered_eq_mergeSort]
  exact List.map_mergeSort fun _ _ _ _ => rfl

end Entries

/-! ## Definitions -/

/-- An object that has nothing but own entries that are enumerated. -/
def Value.IsOwn : Value → Prop
  | .object _ _ _ hidden inherited => hidden = [] ∧ inherited = []
  | _ => False

namespace ParameterSpec

/-- The members of a definition that are asked for beside its name. -/
def asked : List String := ["type", "required", "optional", "default"]

/-- Definitions that agree on what is asked for are read alike. -/
theorem ofDefinition_congr {d d' : Value} (habsent : d.isAbsent = d'.isAbsent) (hname : d.get "name" = d'.get "name")
    (h : ∀ k ∈ asked, d.get k = d'.get k) (i : Nat) : ofDefinition env d i = ofDefinition env d' i := by
  have htype := h "type" (by decide)
  have hrequired := h "required" (by decide)
  have hoptional := h "optional" (by decide)
  have hdefault := h "default" (by decide)
  unfold ofDefinition
  rw [habsent, hname, htype, hrequired, hoptional, hdefault]

/-- A parameter has the name that its definition gives. -/
theorem ofDefinition_name {d : Value} {i : Nat} {s s' : σ} {p : ParameterSpec σ}
    (h : start (ofDefinition env d i) s = (.ok p, s')) : d.get "name" = .text p.name := by
  unfold ofDefinition at h
  split at h
  · cases h
  split at h
  case h_2 => cases h
  rename_i n hn
  simp only at h
  split at h
  · cases h
  split at h
  · cases h
  split at h
  · cases h
  split at h
  · cases h
  split at h
  · cases h
  rw [hn]
  split at h
  · cases h
    rfl
  · obtain ⟨default, t, _, h⟩ := start_bind_eq_ok h
    cases h
    rfl

end ParameterSpec

namespace Value

theorem isAbsent_define {d : Value} (h : d.IsOwn) (n : String) (v : Value) : (d.define n v).isAbsent = false := by
  cases d <;> first | rfl | cases h

theorem get_define {d : Value} (h : d.IsOwn) (n k : String) (v : Value) :
    (d.define n v).get k = if n = k then v else d.get k := by
  cases d with
  | object id kind own hidden inherited =>
    obtain ⟨rfl, rfl⟩ := h
    have hnone : Entries.find? k (Entries.erase n ([] : Entries Value)) = none := rfl
    by_cases hk : n = k <;> simp [define, get, member?, own?, Entries.find?_put, hk, hnone]
  | _ => cases h

end Value

namespace ParameterSet

open ParameterSpec (asked)

theorem get_named_name (key : String) (d : Value) : (named key d).get "name" = .text key := by
  simp [named, Value.record, Value.get, Value.member?, Value.own?, Entries.find?_put]

/-- What is asked for is looked up among the entries. -/
theorem get_asked {id : Nat} {kind : Kind} {own : Entries Value} {k : String} (hk : k ∈ asked) :
    (Value.object id kind own [] []).get k = (Entries.find? k own).getD .undefined := by
  simp only [asked, List.mem_cons, List.not_mem_nil, or_false] at hk
  rcases hk with rfl | rfl | rfl | rfl <;> cases kind <;> simp [Value.get, Value.member?, Value.own?]

theorem ne_name_of_asked {k : String} (hk : k ∈ asked) : "name" ≠ k := by
  rintro rfl
  simp [asked] at hk

/-- What is asked for is copied, whatever order the copy is in. -/
theorem get_named {d : Value} (h : d.IsOwn) (key : String) {k : String} (hk : k ∈ asked) :
    (named key d).get k = d.get k := by
  cases d with
  | object id kind own hidden inherited =>
    obtain ⟨rfl, rfl⟩ := h
    rw [get_asked hk, named, Value.record, get_asked hk, Entries.find?_put, if_neg (ne_name_of_asked hk), Value.entries,
      Entries.find?_ordered]
  | _ => cases h

/-- The copy under a key reads as the definition into which the key was written. -/
theorem ofDefinition_named {d : Value} (h : d.IsOwn) (key : String) (i : Nat) :
    ParameterSpec.ofDefinition env (named key d) i = ParameterSpec.ofDefinition env (d.define "name" (.text key)) i := by
  have habsent : (named key d).isAbsent = (d.define "name" (.text key)).isAbsent := (Value.isAbsent_define h _ _).symm
  refine ParameterSpec.ofDefinition_congr habsent ?_ (fun k hk => ?_) i
  · rw [get_named_name, Value.get_define h, if_pos rfl]
  · rw [get_named h key hk, Value.get_define h, if_neg (ne_name_of_asked hk)]

/-- Definitions that agree on what is asked for have copies that read alike. -/
theorem ofDefinition_named_congr {d d' : Value} (h : d.IsOwn) (h' : d'.IsOwn) (hasked : ∀ k ∈ asked, d.get k = d'.get k)
    (key : String) (i : Nat) :
    ParameterSpec.ofDefinition env (named key d) i = ParameterSpec.ofDefinition env (named key d') i := by
  have habsent : (named key d).isAbsent = (named key d').isAbsent := rfl
  refine ParameterSpec.ofDefinition_congr habsent ?_ (fun k hk => ?_) i
  · rw [get_named_name, get_named_name]
  · rw [get_named h key hk, get_named h' key hk, hasked k hk]

/-! ## Lists and records -/

/-- Lists whose definitions read alike in their places read alike. -/
theorem readList_congr {ds ds' : List Value} (h : List.Forall₂ (fun d d' => ∀ i,
      ParameterSpec.ofDefinition env d i = ParameterSpec.ofDefinition env d' i) ds ds') (i : Nat) :
    readList env i (ds.map some) = readList env i (ds'.map some) := by
  induction h generalizing i with
  | nil => rfl
  | cons hd _ ih => rw [List.map_cons, List.map_cons, readList, readList, hd, ih]

/-- What was read from a list has its names, in order. -/
theorem readList_names {ds : List Value} {i : Nat} {s s' : σ} {slots : List (Option (ParameterSpec σ))}
    (h : start (readList env i (ds.map some)) s = (.ok slots, s')) :
    slots.map (·.map fun p => Value.text p.name) = ds.map fun d => some (d.get "name") := by
  induction ds generalizing i s s' slots with
  | nil =>
    cases h
    rfl
  | cons d ds ih =>
    obtain ⟨p, s₁, hp, h⟩ := start_bind_eq_ok h
    obtain ⟨rest, s₂, hrest, h⟩ := start_bind_eq_ok h
    cases h
    rw [List.map_cons, List.map_cons, ih hrest, ParameterSpec.ofDefinition_name hp]
    rfl

variable {es : Entries Value}

/-- A record without index keys is read as the list of its copies. -/
theorem read_record_copies (hkeys : (es.map (·.1)).Nodup)
    (hindex : ∀ k ∈ es.map (·.1), Text.isIndexText k = false) (id : Nat)
    (kind : Kind) (hidden inherited : Entries Value) :
    read env (.value (.object id kind (Entries.ofList es) hidden inherited)) =
      (do collect (← readList env 0 ((es.map fun e => named e.1 e.2).map some))) := by
  have hno : ∀ e ∈ es, Text.isIndexText e.1 = false := fun e he => hindex e.1 (List.mem_map_of_mem he)
  have hentries : (Value.object id kind (Entries.ofList es) hidden inherited).entries = es := by
    rw [Value.entries, Entries.ofList_of_nodup hkeys, Entries.ordered_of_no_index hno]
  have hnone : List.find? (fun e : String × Value => Text.isIndexText e.1) es = none := by
    simpa using hno
  simp only [read, hentries, hnone, List.map_map, Value.isObject, if_true]
  rfl

/-- The first index key that is enumerated stops the reading, whatever the definitions are. -/
theorem read_index_key (hkeys : (es.map (·.1)).Nodup) {k : String}
    (hk : List.find? Text.isIndexText ((es.map (·.1)).mergeSort Text.precedes) = some k) (id : Nat) (kind : Kind)
    (hidden inherited : Entries Value) :
    read env (.value (.object id kind (Entries.ofList es) hidden inherited)) =
      Call.fail (.definition (.indexName k)) := by
  have hentries : (Value.object id kind (Entries.ofList es) hidden inherited).entries = Entries.ordered es := by
    rw [Value.entries, Entries.ofList_of_nodup hkeys]
  rw [← Entries.keys_ordered, List.find?_map, Option.map_eq_some_iff] at hk
  obtain ⟨e, he, rfl⟩ := hk
  have hfirst : List.find? (fun e : String × Value => Text.isIndexText e.1) (Entries.ordered es) = some e := he
  simp only [read, hentries, hfirst, Value.isObject, if_true]

/-- If a record has an index key, there is a first one that is enumerated. -/
theorem exists_index_key {ks : List String} {k : String} (hk : k ∈ ks) (hindex : Text.isIndexText k = true) :
    ∃ k' ∈ ks, Text.isIndexText k' = true ∧ List.find? Text.isIndexText (ks.mergeSort Text.precedes) = some k' := by
  obtain ⟨k', hk'⟩ := Option.isSome_iff_exists.mp
    (List.find?_isSome.mpr ⟨k, List.mem_mergeSort.mpr hk, hindex⟩ :
      (List.find? Text.isIndexText (ks.mergeSort Text.precedes)).isSome = true)
  exact ⟨k', List.mem_mergeSort.mp (List.mem_of_find?_eq_some hk'), List.find?_some hk', hk'⟩

/-- The parameters of a record have its keys as names, in the order in which these were written. -/
theorem names_of_record (hkeys : (es.map (·.1)).Nodup)
    (hindex : ∀ k ∈ es.map (·.1), Text.isIndexText k = false) {id : Nat}
    {kind : Kind} {hidden inherited : Entries Value} {s s' : σ} {set : ParameterSet σ}
    (h : start (read env (.value (.object id kind (Entries.ofList es) hidden inherited))) s = (.ok set, s')) :
    set.names = es.map (·.1) := by
  rw [read_record_copies hkeys hindex] at h
  obtain ⟨slots, t, hslots, h⟩ := start_bind_eq_ok h
  obtain ⟨rfl, -⟩ := collect_eq h
  have hnames := readList_names hslots
  have hleft : (set.specs.map some).map (·.map fun p => Value.text p.name) =
      set.names.map fun n => some (Value.text n) := by
    simp [names]
  have hright : (es.map fun e => named e.1 e.2).map (fun d => some (d.get "name")) =
      (es.map (·.1)).map fun n => some (Value.text n) := by
    simp [get_named_name]
  rw [hleft, hright] at hnames
  exact List.map_injective_iff.mpr (fun _ _ h => by cases h; rfl) hnames

/-- Of a definition in a record only the members that reading asks for count. -/
theorem read_record_asked (hkeys : (es.map (·.1)).Nodup) (hown : ∀ e ∈ es, e.2.IsOwn) {es' : Entries Value}
    (h : List.Forall₂ (fun e e' : String × Value => e.1 = e'.1 ∧ e'.2.IsOwn ∧ ∀ k ∈ asked, e.2.get k = e'.2.get k) es es')
    (id : Nat) (kind : Kind) (hidden inherited : Entries Value) :
    read env (.value (.object id kind (Entries.ofList es') hidden inherited)) =
      read env (.value (.object id kind (Entries.ofList es) hidden inherited)) := by
  have hsame : es'.map (·.1) = es.map (·.1) := by
    have hall : List.Forall₂ (· = ·) (es.map (·.1)) (es'.map (·.1)) :=
      List.forall₂_map_left_iff.mpr (List.forall₂_map_right_iff.mpr (h.imp fun _ _ he => he.1))
    rw [List.forall₂_eq_eq_eq] at hall
    exact hall.symm
  by_cases hindex : ∃ k ∈ es.map (·.1), Text.isIndexText k = true
  · obtain ⟨k, hk, hindex⟩ := hindex
    obtain ⟨k', -, -, hfirst⟩ := exists_index_key hk hindex
    rw [read_index_key hkeys hfirst, read_index_key (hsame ▸ hkeys) (hsame ▸ hfirst)]
  · push Not at hindex
    have hindex : ∀ k ∈ es.map (·.1), Text.isIndexText k = false := by simpa using hindex
    rw [read_record_copies hkeys hindex, read_record_copies (hsame ▸ hkeys) (hsame ▸ hindex)]
    refine congrArg (· >>= collect) (readList_congr ?_ 0)
    rw [List.forall₂_map_left_iff, List.forall₂_map_right_iff]
    refine (((List.forall₂_and_left es es').mpr ⟨hown, h⟩).imp ?_).flip
    rintro ⟨k, d⟩ ⟨_, d'⟩ ⟨hd, rfl, hd', hasked⟩ i
    exact ofDefinition_named_congr hd' hd (fun k hk => (hasked k hk).symm) _ i

/-- A record is read as the list of its definitions under their keys, in the order in which
these were written, unless one of them is an index; a name that a definition has itself counts
for nothing. -/
theorem read_record (env : Surroundings σ) (hkeys : (es.map (·.1)).Nodup) (hown : ∀ e ∈ es, e.2.IsOwn)
    (id : Nat) (kind : Kind) (hidden inherited : Entries Value) :
    let record := fun es => Value.object id kind (Entries.ofList es) hidden inherited
    ((∃ n, Text.natText n ∈ es.map (·.1)) → ∃ n, Text.natText n ∈ es.map (·.1) ∧
      read env (.value (record es)) = Call.fail (.definition (.indexName (Text.natText n)))) ∧
    ((∀ n, Text.natText n ∉ es.map (·.1)) →
      read env (.value (record es)) = read env (.value (.ofItems (es.map fun e => e.2.define "name" (.text e.1)))) ∧
      ∀ s set s', start (read env (.value (record es))) s = (.ok set, s') →
        set.names = es.map (·.1) ∧ ∀ i p, set.at? i = some p → p.position = i) ∧
    ∀ es', List.Forall₂ (fun e e' : String × Value => e.1 = e'.1 ∧ e'.2.IsOwn ∧
      ∀ k ∈ asked, e.2.get k = e'.2.get k) es es' →
      read env (.value (record es')) = read env (.value (record es)) := by
  refine ⟨fun ⟨n, hn⟩ => ?_, fun hno => ?_, fun es' h => ?_⟩
  · obtain ⟨k, hk, hindex, hfirst⟩ := exists_index_key hn (Text.isIndexText_natText n)
    obtain ⟨m, rfl⟩ := Text.exists_natText hindex
    exact ⟨m, hk, read_index_key hkeys hfirst id kind hidden inherited⟩
  · have hindex : ∀ k ∈ es.map (·.1), Text.isIndexText k = false := by
      intro k hk
      by_contra hk'
      obtain ⟨n, rfl⟩ := Text.exists_natText (by simpa using hk')
      exact hno n hk
    refine ⟨?_, fun s set s' hs => ⟨names_of_record hkeys hindex hs, fun i p hi => ?_⟩⟩
    · rw [read_record_copies hkeys hindex, Value.ofItems, read]
      refine congrArg (· >>= collect) (readList_congr ?_ 0)
      rw [List.forall₂_map_left_iff, List.forall₂_map_right_iff, List.forall₂_same]
      exact fun e he i => ofDefinition_named (hown e he) e.1 i
    · exact ((declared_sound ⟨_, s, s', hs⟩).2 i p hi).1
  · exact read_record_asked hkeys hown h id kind hidden inherited

/-- The record form of the bookings' definitions; the names within are of no account. -/
theorem read_record_booking : ∃ es,
    read .alternating (.value (.record es)) = read .alternating (.value bookingDefinitions) ∧
    es.map (·.1) = ["seat", "aisle"] ∧ ∀ e ∈ es, e.2.get "name" = .text "row" := by
  let es : Entries Value := [
    ("seat", .record [("name", .text "row"),
      ("type", (Capability.Scalar.nonEmptyStr.capability 1 : Capability Nat).toValue)]),
    ("aisle", .record [("name", .text "row"), ("type", (Capability.Scalar.bool.capability 2 : Capability Nat).toValue),
      ("default", .function 1 [])])]
  have hown : ∀ e ∈ es, e.2.IsOwn := by
    intro e he
    rcases List.mem_pair.mp he with rfl | rfl <;> exact ⟨rfl, rfl⟩
  have hname : ∀ e ∈ es, e.2.get "name" = .text "row" := by
    intro e he
    rcases List.mem_pair.mp he with rfl | rfl <;> rfl
  have hno : ∀ n, Text.natText n ∉ es.map (·.1) := by
    intro n hn
    have hindex := Text.isIndexText_natText n
    rcases List.mem_pair.mp hn with h | h <;> rw [h] at hindex <;> cases hindex
  obtain ⟨-, hlist, -⟩ := read_record .alternating (show (es.map (·.1)).Nodup by decide) hown 0 .plain [] []
  exact ⟨es, (hlist hno).1, rfl, hname⟩

end ParameterSet

end ArgGuard
