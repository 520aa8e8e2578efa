/-
  ArgGuard.Proofs.Entries — laws of entries and of their enumeration.

  Writing entries one after the other keeps each key in its first place (`putAll`,
  `ofList`); under distinct keys everything is kept as it is, and values that are written under
  the names of what they belong to are found there (`find?_named`). Enumeration is a stable sort
  that moves the array indices to the front (`ordered_eq_mergeSort`), so leaving entries out
  before or after it is the same (`filter_ordered`), and what was enumerated once stays as
  it is (`ordered_of_pairwise`).
-/

import ArgGuard.Value.Entries
import Mathlib.Data.List.Sort

namespace ArgGuard

variable {α : Type}

/-! ## Writing -/

namespace Entries

/-- Entries written in turn. -/
def putAll (es out : Entries α) : Entries α := es.foldl (fun acc e => put e.1 e.2 acc) out

theorem find?_eq_none {es : Entries α} {k : String} (h : k ∉ es.map (·.1)) : find? k es = none := by
  induction es with
  | nil => rfl
  | cons e es ih =>
    rw [List.map_cons, List.mem_cons, not_or] at h
    rw [find?, if_neg (Ne.symm h.1)]
    exact ih h.2

theorem find?_append (k : String) (es es' : Entries α) : find? k (es ++ es') = (find? k es).or (find? k es') := by
  induction es with
  | nil => rfl
  | cons e es ih =>
    rw [List.cons_append, find?, find?]
    split
    · rfl
    · exact ih

theorem find?_filter {p : String × α → Bool} {k : String} (hk : ∀ a, p (k, a) = true) (es : Entries α) :
    find? k (es.filter p) = find? k es := by
  induction es with
  | nil => rfl
  | cons e es ih =>
    obtain ⟨j, a⟩ := e
    by_cases hj : j = k
    · subst hj
      rw [List.filter_cons_of_pos (hk a), find?, find?, if_pos rfl, if_pos rfl]
    · cases hp : p (j, a) with
      | true => rw [List.filter_cons_of_pos hp, find?, find?, if_neg hj, if_neg hj, ih]
      | false => rw [List.filter_cons_of_neg (by simp [hp]), find?, if_neg hj, ih]

theorem find?_zip {ks : List String} (hn : ks.Nodup) (vs : List α) {i : Nat} {k : String}
    (hk : ks[i]? = some k) : find? k (ks.zip vs) = vs[i]? := by
  induction ks generalizing vs i with
  | nil => simp at hk
  | cons j ks ih =>
    obtain ⟨hj, hn⟩ := List.nodup_cons.mp hn
    cases vs with
    | nil => rfl
    | cons v vs =>
      cases i with
      | zero =>
        cases hk
        simp [find?]
      | succ i =>
        have hne : j ≠ k := fun hjk => hj (hjk ▸ List.mem_of_getElem? hk)
        rw [List.zip_cons_cons, find?, if_neg hne]
        exact ih hn vs (by simpa using hk)

/-- Entries under distinct keys are all kept, in order. -/
theorem putAll_of_nodup {es out : Entries α} (h : ((out ++ es).map (·.1)).Nodup) :
    putAll es out = out ++ es := by
  induction es generalizing out with
  | nil => exact (List.append_nil out).symm
  | cons e es ih =>
    have hsplit : out ++ e :: es = (out ++ [e]) ++ es := by rw [List.append_assoc]; rfl
    have hnew : e.1 ∉ out.map (·.1) := by
      rw [List.map_append, List.nodup_append] at h
      exact fun hm => h.2.2 _ hm _ List.mem_cons_self rfl
    rw [hsplit] at h ⊢
    rw [← ih h, ← put_of_find?_eq_none (find?_eq_none hnew)]
    rfl

/-- Writing leaves the other keys alone. -/
theorem find?_putAll {es out : Entries α} {k : String} (h : k ∉ es.map (·.1)) :
    find? k (putAll es out) = find? k out := by
  induction es generalizing out with
  | nil => rfl
  | cons e es ih =>
    rw [List.map_cons, List.mem_cons, not_or] at h
    have hrest : find? k (putAll es (put e.1 e.2 out)) = find? k (put e.1 e.2 out) := ih h.2
    rw [find?_put, if_neg (Ne.symm h.1)] at hrest
    exact hrest

/-! ### Values under names -/

section named

variable {κ : Type} {name : κ → String} {leaves : κ → α → Bool} {ks : List κ} {as : List α}

/-- Values under the names of what they belong to, but for those that are left out. -/
def named (name : κ → String) (leaves : κ → α → Bool) (ks : List κ) (as : List α) : Entries α :=
  (ks.zip as).filterMap fun e => if leaves e.1 e.2 then none else some (name e.1, e.2)

theorem named_cons (k : κ) (a : α) : named name leaves (k :: ks) (a :: as) =
    if leaves k a then named name leaves ks as else (name k, a) :: named name leaves ks as := by
  unfold named
  rw [List.zip_cons_cons, List.filterMap_cons]
  cases leaves k a <;> rfl

theorem named_sublist : ((named name leaves ks as).map (·.1)).Sublist (ks.map name) := by
  induction ks generalizing as with
  | nil => exact List.nil_sublist _
  | cons k ks ih =>
    cases as with
    | nil => exact List.nil_sublist _
    | cons a as =>
      rw [named_cons]
      split
      · exact ih.cons _
      · exact ih.cons_cons _

/-- Under distinct names a value stands under its own, unless it is left out. -/
theorem find?_named (hn : (ks.map name).Nodup) {k : κ} {a : α} (h : (k, a) ∈ ks.zip as) :
    find? (name k) (named name leaves ks as) = if leaves k a then none else some a := by
  induction ks generalizing as with
  | nil => cases h
  | cons j ks ih =>
    cases as with
    | nil => cases h
    | cons b as =>
      obtain ⟨hj, hn⟩ := List.nodup_cons.mp hn
      rw [named_cons]
      rcases List.mem_cons.mp h with he | h
      · obtain ⟨rfl, rfl⟩ := Prod.mk.inj he
        split
        · exact find?_eq_none fun hm => hj (named_sublist.subset hm)
        · rw [find?, if_pos rfl]
      · have hne : name j ≠ name k := fun he => hj (he ▸ List.mem_map_of_mem (List.of_mem_zip h).1)
        split
        · exact ih hn h
        · rw [find?, if_neg hne]
          exact ih hn h

end named

/-! ### What was written -/

theorem mem_put {k : String} {a : α} {es : Entries α} {e : String × α} (h : e ∈ put k a es) : e = (k, a) ∨ e ∈ es := by
  induction es with
  | nil => exact .inl (List.mem_singleton.mp h)
  | cons e' es ih =>
    rw [put] at h
    split at h
    · exact (List.mem_cons.mp h).imp_right (List.mem_cons_of_mem _)
    · rcases List.mem_cons.mp h with rfl | h
      · exact .inr List.mem_cons_self
      · exact (ih h).imp_right (List.mem_cons_of_mem _)

theorem mem_putAll {es out : Entries α} {e : String × α} (h : e ∈ putAll es out) : e ∈ es ∨ e ∈ out := by
  induction es generalizing out with
  | nil => exact .inr h
  | cons e' es ih =>
    have hrest : e ∈ putAll es (put e'.1 e'.2 out) := h
    rcases ih hrest with h | h
    · exact .inl (List.mem_cons_of_mem _ h)
    · rcases mem_put h with rfl | h
      · exact .inl List.mem_cons_self
      · exact .inr h

/-- A key that is written again keeps its place, and a new one goes to the end. -/
theorem keys_put (k : String) (a : α) (es : Entries α) : (put k a es).map (·.1) = es.map (·.1) ∨
    k ∉ es.map (·.1) ∧ (put k a es).map (·.1) = es.map (·.1) ++ [k] := by
  induction es with
  | nil => exact .inr ⟨List.not_mem_nil, rfl⟩
  | cons e es ih =>
    rw [put]
    split
    · rename_i hk
      exact .inl (by rw [List.map_cons, List.map_cons, hk])
    · rename_i hk
      rcases ih with ih | ⟨hnew, ih⟩
      · exact .inl (by rw [List.map_cons, List.map_cons, ih])
      · refine .inr ⟨?_, by rw [List.map_cons, List.map_cons, ih, List.cons_append]⟩
        rw [List.map_cons, List.mem_cons, not_or]
        exact ⟨Ne.symm hk, hnew⟩

/-- Distinct keys stay distinct, and new ones stand behind them in the order of writing. -/
theorem keys_putAll (es out : Entries α) (h : (out.map (·.1)).Nodup) : ((putAll es out).map (·.1)).Nodup ∧
    ∃ new, (putAll es out).map (·.1) = out.map (·.1) ++ new ∧ new.Sublist (es.map (·.1)) := by
  induction es generalizing out with
  | nil => exact ⟨h, [], (List.append_nil _).symm, .slnil⟩
  | cons e es ih =>
    rcases keys_put e.1 e.2 out with hk | ⟨hnew, hk⟩
    · obtain ⟨hnodup, new, hkeys, hsub⟩ := ih (put e.1 e.2 out) (hk ▸ h)
      exact ⟨hnodup, new, hkeys.trans (by rw [hk]), hsub.cons _⟩
    · have hput : ((put e.1 e.2 out).map (·.1)).Nodup := by
        rw [hk, List.nodup_append]
        refine ⟨h, List.nodup_singleton _, ?_⟩
        rintro k hm k' hk' rfl
        exact hnew (List.mem_singleton.mp hk' ▸ hm)
      obtain ⟨hnodup, new, hkeys, hsub⟩ := ih (put e.1 e.2 out) hput
      refine ⟨hnodup, e.1 :: new, hkeys.trans ?_, hsub.cons_cons _⟩
      rw [hk, List.append_assoc]
      rfl

/-- Entries under keys that are not there leave what is there in its place. -/
theorem putAll_append {es before out : Entries α} (h : ∀ k ∈ es.map (·.1), k ∉ before.map (·.1)) :
    putAll es (before ++ out) = before ++ putAll es out := by
  have hput : ∀ (k : String) (a : α) (before out : Entries α), k ∉ before.map (·.1) →
      put k a (before ++ out) = before ++ put k a out := by
    intro k a before out hk
    induction before with
    | nil => rfl
    | cons e before ih =>
      rw [List.map_cons, List.mem_cons, not_or] at hk
      rw [List.cons_append, put, if_neg (Ne.symm hk.1), ih hk.2, List.cons_append]
  induction es generalizing out with
  | nil => rfl
  | cons e es ih =>
    show putAll es (put e.1 e.2 (before ++ out)) = before ++ putAll es (put e.1 e.2 out)
    rw [hput _ _ _ _ (h e.1 List.mem_cons_self), ih fun k hk => h k (List.mem_cons_of_mem _ hk)]

theorem ofList_of_nodup {es : Entries α} (h : (es.map (·.1)).Nodup) : ofList es = es := by
  have hempty : putAll es [] = [] ++ es := putAll_of_nodup h
  exact hempty

theorem mem_ofList {es : Entries α} {e : String × α} (h : e ∈ ofList es) : e ∈ es :=
  (mem_putAll h).resolve_right List.not_mem_nil

theorem keys_ofList (es : Entries α) : ((ofList es).map (·.1)).Nodup ∧
    ((ofList es).map (·.1)).Sublist (es.map (·.1)) := by
  obtain ⟨hnodup, new, hkeys, hsub⟩ := keys_putAll es [] List.nodup_nil
  exact ⟨hnodup, hkeys ▸ hsub⟩

theorem ofList_append {before es : Entries α} (hbefore : (before.map (·.1)).Nodup)
    (h : ∀ k ∈ es.map (·.1), k ∉ before.map (·.1)) : ofList (before ++ es) = before ++ ofList es := by
  have hall : ofList (before ++ es) = putAll es (ofList before) := List.foldl_append
  rw [hall, ofList_of_nodup hbefore, ← List.append_nil before, putAll_append (by simpa using h), List.append_nil]
  rfl

end Entries

/-! ## Sorting and leaving out -/

/-- Elements that satisfy a test and come before the others. -/
theorem filter_append_filter_not {p : α → Bool} {l : List α} (h : l.Pairwise fun a b => p b = true → p a = true) :
    l.filter p ++ l.filter (fun a => !p a) = l := by
  induction l with
  | nil => rfl
  | cons a l ih =>
    obtain ⟨ha, hl⟩ := List.pairwise_cons.mp h
    cases hp : p a with
    | true => simpa [hp] using ih hl
    | false =>
      have hnone : ∀ b ∈ l, p b = false := fun b hb => by
        by_contra hpb
        rw [ha b hb (by simpa using hpb)] at hp
        cases hp
      have hleft : (a :: l).filter p = [] := by
        rw [List.filter_eq_nil_iff]
        simpa [hp] using hnone
      have hright : (a :: l).filter (fun a => !p a) = a :: l := by
        rw [List.filter_eq_self]
        simpa [hp] using hnone
      rw [hleft, hright, List.nil_append]

section sorting

variable {le : α → α → Bool} (trans : ∀ a b c, le a b = true → le b c = true → le a c = true)
  (total : ∀ a b, (le a b || le b a) = true)
include trans total

/-- What an element is not below comes before the rest. -/
theorem split_mergeSort (a : α) (l : List α) :
    (l.mergeSort le).filter (fun b => !le a b) ++ (l.mergeSort le).filter (le a) = l.mergeSort le := by
  have hsorted := List.pairwise_mergeSort trans total l
  have hsplit := filter_append_filter_not (p := fun b => !le a b) (hsorted.imp fun {b c} hbc hac => by
    by_contra hab
    simp [trans a b c (by simpa using hab) hbc] at hac)
  simpa only [Bool.not_not] using hsplit

/-- The first element goes behind what it is not below, and before the rest. -/
theorem mergeSort_cons_eq (a : α) (l : List α) : (a :: l).mergeSort le
    = (l.mergeSort le).filter (fun b => !le a b) ++ a :: (l.mergeSort le).filter (le a) := by
  obtain ⟨before, after, hall, hrest, hbefore⟩ := List.mergeSort_cons trans total a l
  have hafter : ∀ b ∈ after, le a b = true := by
    have hsorted := List.pairwise_mergeSort trans total (a :: l)
    rw [hall] at hsorted
    exact (List.pairwise_cons.mp (List.pairwise_append.mp hsorted).2.1).1
  have hleft : (l.mergeSort le).filter (fun b => !le a b) = before := by
    rw [hrest, List.filter_append, List.filter_eq_self.mpr hbefore,
      List.filter_eq_nil_iff.mpr fun b hb => by simp [hafter b hb], List.append_nil]
  have hright : (l.mergeSort le).filter (le a) = after := by
    rw [hrest, List.filter_append, List.filter_eq_self.mpr hafter,
      List.filter_eq_nil_iff.mpr fun b hb => by simpa using hbefore b hb, List.nil_append]
  rw [hall, hleft, hright]

/-- A stable sort of some of the elements is what is left of the sort of all. -/
theorem filter_mergeSort (p : α → Bool) (l : List α) : (l.mergeSort le).filter p = (l.filter p).mergeSort le := by
  induction l with
  | nil => simp
  | cons a l ih =>
    have hcomm : ∀ q : α → Bool, ((l.mergeSort le).filter q).filter p = ((l.filter p).mergeSort le).filter q := by
      intro q
      rw [List.filter_comm, ih]
    rw [mergeSort_cons_eq trans total, List.filter_append, hcomm]
    cases hp : p a with
    | false =>
      rw [List.filter_cons_of_neg (by simp [hp]), List.filter_cons_of_neg (by simp [hp]), hcomm,
        split_mergeSort trans total]
    | true => rw [List.filter_cons_of_pos hp, List.filter_cons_of_pos hp, hcomm, mergeSort_cons_eq trans total]

end sorting

/-! ## Enumeration -/

/-- Whether one key may be enumerated before another, whatever their places. -/
def Text.precedes (k k' : String) : Bool :=
  match arrayIndex? k, arrayIndex? k' with
  | some i, some j => i ≤ j
  | none, some _ => false
  | _, none => true

theorem Text.precedes_trans (k k' k'' : String) (h : precedes k k' = true) (h' : precedes k' k'' = true) :
    precedes k k'' = true := by
  unfold precedes at *
  cases hk : arrayIndex? k <;> cases hk' : arrayIndex? k' <;> cases hk'' : arrayIndex? k'' <;> simp_all
  omega

theorem Text.precedes_total (k k' : String) : (precedes k k' || precedes k' k) = true := by
  unfold precedes
  cases arrayIndex? k <;> cases arrayIndex? k' <;> simp
  omega

namespace Entries

/-- The entries under array indices, sorted by these. -/
theorem mergeSort_indexed (es : Entries α) :
    ((es.filterMap fun e => (Text.arrayIndex? e.1).map fun i => (i, e)).mergeSort fun a b => a.1 ≤ b.1).map (·.2)
      = (es.filter fun e => (Text.arrayIndex? e.1).isSome).mergeSort fun a b => Text.precedes a.1 b.1 := by
  have hindexed : (es.filterMap fun e => (Text.arrayIndex? e.1).map fun i => (i, e)).map (·.2)
      = es.filter fun e => (Text.arrayIndex? e.1).isSome := by
    rw [List.map_filterMap, ← List.filterMap_eq_filter]
    congr 1
    funext e
    cases h : Text.arrayIndex? e.1 <;> simp [h, Option.guard]
  rw [← hindexed]
  refine List.map_mergeSort fun a ha b hb => ?_
  obtain ⟨_, _, ha⟩ := List.mem_filterMap.mp ha
  obtain ⟨i, hi, rfl⟩ := Option.map_eq_some_iff.mp ha
  obtain ⟨_, _, hb⟩ := List.mem_filterMap.mp hb
  obtain ⟨j, hj, rfl⟩ := Option.map_eq_some_iff.mp hb
  simp [Text.precedes, hi, hj]

/-- The other entries, which no order moves. -/
theorem mergeSort_unindexed (es : Entries α) :
    ((es.filter fun e => (Text.arrayIndex? e.1).isNone).mergeSort fun a b => Text.precedes a.1 b.1)
      = es.filter fun e => (Text.arrayIndex? e.1).isNone := by
  refine List.mergeSort_of_pairwise (List.pairwise_of_forall_mem_list fun a ha b hb => ?_)
  have hb : Text.arrayIndex? b.1 = none := by simpa using (List.mem_filter.mp hb).2
  simp [Text.precedes, hb]

/-- Entries are enumerated by a stable sort. -/
theorem ordered_eq_mergeSort (es : Entries α) : ordered es = es.mergeSort fun a b => Text.precedes a.1 b.1 := by
  have trans : ∀ a b c : String × α, _ := fun a b c => Text.precedes_trans a.1 b.1 c.1
  have total : ∀ a b : String × α, _ := fun a b => Text.precedes_total a.1 b.1
  have hsorted := List.pairwise_mergeSort trans total es
  -- in the sorted list the array indices are in front, so it is the two parts, each sorted
  have hsplit := filter_append_filter_not (p := fun e : String × α => (Text.arrayIndex? e.1).isSome)
    (hsorted.imp fun {a b} hab hb => by
      unfold Text.precedes at hab
      cases ha : Text.arrayIndex? a.1 <;> cases hb' : Text.arrayIndex? b.1 <;> simp_all)
  simp only [Option.not_isSome] at hsplit
  rw [← hsplit, filter_mergeSort trans total, filter_mergeSort trans total, mergeSort_unindexed, ← mergeSort_indexed]
  rfl

theorem mem_ordered {es : Entries α} {e : String × α} : e ∈ ordered es ↔ e ∈ es := by
  rw [ordered_eq_mergeSort, List.mem_mergeSort]

/-- Leaving entries out before or after enumeration is the same. -/
theorem filter_ordered (p : String × α → Bool) (es : Entries α) : (ordered es).filter p = ordered (es.filter p) := by
  rw [ordered_eq_mergeSort, ordered_eq_mergeSort]
  refine filter_mergeSort ?_ ?_ p es
  · exact fun a b c => Text.precedes_trans a.1 b.1 c.1
  · exact fun a b => Text.precedes_total a.1 b.1

theorem pairwise_ordered (es : Entries α) : ((ordered es).map (·.1)).Pairwise fun k k' => Text.precedes k k' = true := by
  rw [ordered_eq_mergeSort, List.pairwise_map]
  refine List.pairwise_mergeSort ?_ ?_ es
  · exact fun a b c => Text.precedes_trans a.1 b.1 c.1
  · exact fun a b => Text.precedes_total a.1 b.1

/-- Entries that stand in the order of enumeration are enumerated as they stand. -/
theorem ordered_of_pairwise {es : Entries α} (h : (es.map (·.1)).Pairwise fun k k' => Text.precedes k k' = true) :
    ordered es = es := by
  rw [ordered_eq_mergeSort]
  exact List.mergeSort_of_pairwise (List.pairwise_map.mp h)

end Entries

end ArgGuard
