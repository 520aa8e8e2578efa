/-
  ArgGuard.Proofs.Canonical.Encoding — canonical texts as an encoding of data.

  Two values have one canonical text exactly if they are alike: equal up to the order of
  keys at every depth and up to the sign of zero (`Alike`). Both directions go through the
  trees of Proofs.Canonical: sorting is a function of the members as a set, since the order
  of keys is linear and no key occurs twice (`tree_eq_of_alike`), and a tree tells its value
  but for the two things that it forgets (`alike_of_tree_eq`). What a canonical text says in
  JSON is the value of its tree, and that has the tree again (`tree_value`).
-/

import ArgGuard.Proofs.Canonical.Reader
import ArgGuard.Proofs.Entries
import Mathlib.Data.List.Nodup

namespace ArgGuard.Canonical

open Text Json

/-! ## Data -/

/-- Null, booleans, numbers of any kind, texts, lists without holes and objects without
undefined members, nested to any depth; what an object is beside its own entries is left open. -/
inductive Data : Value → Prop
  | null : Data .null
  | bool (b : Bool) : Data (.bool b)
  | number (x : Number) : Data (.number x)
  | text (s : String) : Data (.text s)
  | list {vs : List Value} (items : ∀ v ∈ vs, Data v) : Data (.ofItems vs)
  | object {id : Nat} {kind : Kind} {own hidden inherited : Entries Value} (keys : (own.map (·.1)).Nodup)
      (members : ∀ m ∈ own, Data m.2) : Data (.object id kind own hidden inherited)

/-- A number occurs in a value, at some depth. -/
inductive Occurs (x : Number) : Value → Prop
  | here : Occurs x (.number x)
  | item {vs : List Value} {v : Value} : v ∈ vs → Occurs x v → Occurs x (.ofItems vs)
  | member {id : Nat} {kind : Kind} {own hidden inherited : Entries Value} {m : String × Value} :
      m ∈ own → Occurs x m.2 → Occurs x (.object id kind own hidden inherited)

def Finite (v : Value) : Prop := ∀ x, Occurs x v → x.isFinite = true

/-- Equal up to the order of keys at every depth and up to the sign of zero. -/
inductive Alike : Value → Value → Prop
  | null : Alike .null .null
  | bool (b : Bool) : Alike (.bool b) (.bool b)
  | number {x y : Number} : x = y ∨ x.isZero = true ∧ y.isZero = true → Alike (.number x) (.number y)
  | text (s : String) : Alike (.text s) (.text s)
  | list {vs ws : List Value} : vs.length = ws.length → (∀ (i : Nat) v w, vs[i]? = some v → ws[i]? = some w → Alike v w) →
      Alike (.ofItems vs) (.ofItems ws)
  | object {id id' : Nat} {kind kind' : Kind} {own own' hidden hidden' inherited inherited' : Entries Value} :
      (∀ k, k ∈ own.map (·.1) ↔ k ∈ own'.map (·.1)) → (∀ k v w, (k, v) ∈ own → (k, w) ∈ own' → Alike v w) →
      Alike (.object id kind own hidden inherited) (.object id' kind' own' hidden' inherited')

/-! ### Parts -/

theorem Finite.item {vs : List Value} (h : Finite (.ofItems vs)) {v : Value} (hv : v ∈ vs) : Finite v :=
  fun x hx => h x (.item hv hx)

theorem Finite.member {id : Nat} {kind : Kind} {own hidden inherited : Entries Value}
    (h : Finite (.object id kind own hidden inherited)) {m : String × Value} (hm : m ∈ own) : Finite m.2 :=
  fun x hx => h x (.member hm hx)

theorem Data.item {vs : List Value} (h : Data (.ofItems vs)) : ∀ v ∈ vs, Data v := by
  generalize hl : Value.ofItems vs = l at h
  cases h with
  | list items =>
    rw [Value.ofItems, Value.ofItems, Value.list.injEq] at hl
    rwa [List.map_injective_iff.mpr (fun _ _ => Option.some.inj) hl]
  | _ => cases hl

theorem Data.object_iff {id : Nat} {kind : Kind} {own hidden inherited : Entries Value} :
    Data (.object id kind own hidden inherited) ↔ (own.map (·.1)).Nodup ∧ ∀ m ∈ own, Data m.2 := by
  constructor
  · intro h
    cases h with
    | object keys members => exact ⟨keys, members⟩
  · exact fun ⟨hkeys, hmembers⟩ => .object hkeys hmembers

theorem finite_ofItems_iff {vs : List Value} : Finite (.ofItems vs) ↔ ∀ v ∈ vs, Finite v := by
  refine ⟨fun h v hv => h.item hv, fun h x hx => ?_⟩
  generalize hl : Value.ofItems vs = l at hx
  cases hx with
  | item hv hx =>
    rw [Value.ofItems, Value.ofItems, Value.list.injEq] at hl
    rw [List.map_injective_iff.mpr (fun _ _ => Option.some.inj) hl] at h
    exact h _ hv x hx
  | _ => cases hl

theorem finite_object_iff {id : Nat} {kind : Kind} {own hidden inherited : Entries Value} :
    Finite (.object id kind own hidden inherited) ↔ ∀ m ∈ own, Finite m.2 := by
  refine ⟨fun h m hm => h.member hm, fun h x hx => ?_⟩
  cases hx with
  | member hm hx => exact h _ hm x hx

theorem plainItems_iff {P : Number → Prop} {vs : List Value} : PlainItems P (vs.map some) ↔ ∀ v ∈ vs, Plain P v := by
  induction vs with
  | nil => simp [PlainItems]
  | cons v vs ih => simp [PlainItems, ih]

theorem plainMembers_iff {P : Number → Prop} {own : Entries Value} : PlainMembers P own ↔ ∀ m ∈ own, Plain P m.2 := by
  induction own with
  | nil => simp [PlainMembers]
  | cons m own ih => simp [PlainMembers, ih]

theorem plain_of_data {P : Number → Prop} {v : Value} (hv : Data v) (h : ∀ x, Occurs x v → P x) : Plain P v := by
  induction hv with
  | null => trivial
  | bool => trivial
  | number x => exact h x .here
  | text => trivial
  | list _ ih => exact plainItems_iff.mpr fun v hv => ih v hv fun x hx => h x (.item hv hx)
  | object _ _ ih => exact plainMembers_iff.mpr fun m hm => ih m hm fun x hx => h x (.member hm hx)

/-- A member in the tree of an object. -/
def treeMember (m : String × Value) : String × Json := (m.1, tree m.2)

theorem treeMembers_map (own : Entries Value) : treeMembers own = own.map treeMember := by
  induction own with
  | nil => rfl
  | cons m own ih => rw [treeMembers, ih, List.map_cons, treeMember]

theorem tree_object (id : Nat) (kind : Kind) (own hidden inherited : Entries Value) :
    tree (.object id kind own hidden inherited) = .object ((own.map treeMember).mergeSort memberLe) := by
  rw [tree, treeMembers_map]

theorem keys_treeMember (own : Entries Value) : (own.map treeMember).map (·.1) = own.map (·.1) := by
  rw [List.map_map]
  rfl

/-! ## Numbers -/

theorem isZero_of_text {x : Number} (h : x.text = "0") : x.isZero = true := by
  cases hx : x.isNegativeZero with
  | true => exact Number.isZero_of_isNegativeZero hx
  | false =>
    rw [← Number.ofText_text hx, h]
    decide +kernel

/-- Numbers of one text are the same, but for the sign of zero. -/
theorem eq_or_zero_of_text {x y : Number} (h : x.text = y.text) : x = y ∨ x.isZero = true ∧ y.isZero = true := by
  by_cases hx : x.isZero = true
  · exact .inr ⟨hx, isZero_of_text (h ▸ Number.text_of_isZero hx)⟩
  · have hy : y.isZero ≠ true := fun hy => hx (isZero_of_text (h ▸ Number.text_of_isZero hy))
    refine .inl (Number.text_inj ?_ ?_ h)
    · exact Bool.eq_false_iff.mpr fun hneg => hx (Number.isZero_of_isNegativeZero hneg)
    · exact Bool.eq_false_iff.mpr fun hneg => hy (Number.isZero_of_isNegativeZero hneg)

/-- What a finite number is written as says a finite number of the same text. -/
theorem ofText_text_finite {x : Number} (hx : x.isFinite = true) :
    (Number.ofText x.text).isFinite = true ∧ (Number.ofText x.text).text = x.text := by
  cases hzero : x.isNegativeZero with
  | true =>
    rw [Number.text_of_isZero (Number.isZero_of_isNegativeZero hzero)]
    decide +kernel
  | false => rw [Number.ofText_text hzero]; exact ⟨hx, rfl⟩

/-! ## Sorted members -/

theorem memberLe_trans (a b c : String × Json) (h : memberLe a b = true) (h' : memberLe b c = true) :
    memberLe a c = true :=
  keyLe_trans h h'

theorem memberLe_total (a b : String × Json) : (memberLe a b || memberLe b a) = true := keyLe_total a.1 b.1

/-- Members of one key each have one order. -/
theorem mergeSort_eq_of_perm {ms ns : List (String × Json)} (hkeys : (ms.map (·.1)).Nodup) (h : ms.Perm ns) :
    ms.mergeSort memberLe = ns.mergeSort memberLe := by
  have hperm : (ms.mergeSort memberLe).Perm (ns.mergeSort memberLe) :=
    (List.mergeSort_perm ms memberLe).trans (h.trans (List.mergeSort_perm ns memberLe).symm)
  refine hperm.eq_of_pairwise (fun a b ha hb hab hba => ?_) (List.pairwise_mergeSort memberLe_trans memberLe_total ms)
    (List.pairwise_mergeSort memberLe_trans memberLe_total ns)
  exact List.inj_on_of_nodup_map hkeys (List.mem_mergeSort.mp ha) (h.mem_iff.mpr (List.mem_mergeSort.mp hb))
    (keyLe_antisymm hab hba)

theorem perm_of_mergeSort_eq {ms ns : List (String × Json)}
    (h : ms.mergeSort memberLe = ns.mergeSort memberLe) : ms.Perm ns :=
  (List.mergeSort_perm ms memberLe).symm.trans (h ▸ List.mergeSort_perm ns memberLe)

/-! ## Trees of values that are alike -/

/-- Values that are alike have one tree. -/
theorem tree_eq_of_alike {a b : Value} (h : Alike a b) (ha : Data a) (hb : Data b) : tree a = tree b := by
  induction h with
  | null => rfl
  | bool => rfl
  | number hxy =>
    rcases hxy with rfl | ⟨hx, hy⟩
    · rfl
    · rw [tree, tree, Number.text_of_isZero hx, Number.text_of_isZero hy]
  | text => rfl
  | @list vs ws hlength _ ih =>
    have heach : vs.map tree = ws.map tree := by
      refine List.ext_getElem (by simpa using hlength) fun i hi hi' => ?_
      rw [List.length_map] at hi hi'
      rw [List.getElem_map, List.getElem_map]
      exact ih i _ _ (List.getElem?_eq_getElem hi) (List.getElem?_eq_getElem hi') (ha.item _ (List.getElem_mem hi))
        (hb.item _ (List.getElem_mem hi'))
    rw [tree_ofItems, tree_ofItems, heach]
  | @object _ _ _ _ own own' _ _ _ _ hkeys _ ih =>
    obtain ⟨hnodup, hmembers⟩ := Data.object_iff.mp ha
    obtain ⟨hnodup', hmembers'⟩ := Data.object_iff.mp hb
    -- both sides have the same members, whatever order these are in
    have hmem : ∀ m, m ∈ own.map treeMember ↔ m ∈ own'.map treeMember := by
      intro m
      constructor <;> intro hm <;> obtain ⟨⟨k, v⟩, hv, rfl⟩ := List.mem_map.mp hm
      · obtain ⟨⟨_, w⟩, hw, rfl⟩ := List.mem_map.mp ((hkeys k).mp (List.mem_map_of_mem hv))
        rw [treeMember, ih _ v w hv hw (hmembers _ hv) (hmembers' _ hw)]
        exact List.mem_map_of_mem hw
      · obtain ⟨⟨_, w⟩, hw, rfl⟩ := List.mem_map.mp ((hkeys k).mpr (List.mem_map_of_mem hv))
        rw [treeMember, ← ih _ w v hw hv (hmembers _ hw) (hmembers' _ hv)]
        exact List.mem_map_of_mem hw
    have hleft : ((own.map treeMember).map (·.1)).Nodup := (keys_treeMember own).symm ▸ hnodup
    have hright : ((own'.map treeMember).map (·.1)).Nodup := (keys_treeMember own').symm ▸ hnodup'
    rw [tree_object, tree_object,
      mergeSort_eq_of_perm hleft ((List.perm_ext_iff_of_nodup (.of_map _ hleft) (.of_map _ hright)).mpr hmem)]

/-- Values of one tree are alike. -/
theorem alike_of_tree_eq {a b : Value} (ha : Data a) (hb : Data b) (h : tree a = tree b) : Alike a b := by
  induction ha generalizing b with
  | null => cases hb <;> first | exact .null | simp [tree, Value.ofItems] at h
  | bool c =>
    cases hb <;> simp [tree, Value.ofItems] at h
    exact h ▸ .bool c
  | number x =>
    cases hb <;> simp only [tree, Value.ofItems, Json.number.injEq, reduceCtorEq] at h
    exact .number (eq_or_zero_of_text (String.toList_injective h))
  | text s =>
    cases hb <;> simp [tree, Value.ofItems] at h
    exact h ▸ .text s
  | @list vs items ih =>
    cases hb with
    | @list ws items' =>
      rw [tree_ofItems, tree_ofItems, Json.list.injEq] at h
      refine .list (by simpa using congrArg List.length h) fun i v w hv hw => ?_
      have heach := congrArg (·[i]?) h
      simp only [List.getElem?_map, hv, hw, Option.map_some, Option.some.injEq] at heach
      exact ih v (List.mem_of_getElem? hv) (items' w (List.mem_of_getElem? hw)) heach
    | _ => simp [tree, Value.ofItems] at h
  | @object _ _ own _ _ keys members ih =>
    cases hb with
    | @object _ _ own' _ _ keys' members' =>
      rw [tree_object, tree_object, Json.object.injEq] at h
      have hperm := perm_of_mergeSort_eq h
      have hkeys : (own.map (·.1)).Perm (own'.map (·.1)) := by
        rw [← keys_treeMember own, ← keys_treeMember own']
        exact hperm.map _
      refine .object (fun k => hkeys.mem_iff) fun k v w hv hw => ?_
      -- the content under a key is one, so it is the same in both trees
      have hv' : (k, tree v) ∈ own'.map treeMember := hperm.mem_iff.mp (List.mem_map_of_mem hv)
      have hw' : (k, tree w) ∈ own'.map treeMember := List.mem_map_of_mem hw
      have hsame := List.inj_on_of_nodup_map ((keys_treeMember own').symm ▸ keys') hv' hw' rfl
      exact ih _ hv (members' _ hw) (Prod.mk.inj hsame).2
    | _ => simp [tree, Value.ofItems] at h

/-! ## What a canonical text says -/

/-- Trees of finite data: numbers are texts of finite numbers, keys are distinct and sorted. -/
inductive Settled : Json → Prop
  | null : Settled .null
  | bool (b : Bool) : Settled (.bool b)
  | number {x : Number} : x.isFinite = true → Settled (.number x.text.toList)
  | text (s : String) : Settled (.text s)
  | list {js : List Json} : (∀ j ∈ js, Settled j) → Settled (.list js)
  | object {ms : List (String × Json)} : (ms.map (·.1)).Nodup → ms.Pairwise (fun m n => memberLe m n = true) →
      (∀ m ∈ ms, Settled m.2) → Settled (.object ms)

theorem settled_tree {v : Value} (hv : Data v) (hfinite : Finite v) : Settled (tree v) := by
  induction hv with
  | null => exact .null
  | bool b => exact .bool b
  | number x => exact .number (hfinite x .here)
  | text s => exact .text s
  | list _ ih =>
    rw [tree_ofItems]
    refine .list fun j hj => ?_
    obtain ⟨v, hv, rfl⟩ := List.mem_map.mp hj
    exact ih v hv (hfinite.item hv)
  | @object _ _ own _ _ keys _ ih =>
    rw [tree_object]
    refine .object ?_ (List.pairwise_mergeSort memberLe_trans memberLe_total _) fun m hm => ?_
    · rw [((List.mergeSort_perm _ memberLe).map _).nodup_iff, keys_treeMember]
      exact keys
    · obtain ⟨n, hn, rfl⟩ := List.mem_map.mp (List.mem_mergeSort.mp hm)
      exact ih n hn (hfinite.member hn)

theorem itemsLegible_iff {js : List Json} : ItemsLegible js ↔ ∀ j ∈ js, Legible j := by
  induction js with
  | nil => simp [ItemsLegible]
  | cons j js ih => simp [ItemsLegible, ih]

theorem membersLegible_iff {ms : List (String × Json)} : MembersLegible ms ↔ ∀ m ∈ ms, Legible m.2 := by
  induction ms with
  | nil => simp [MembersLegible]
  | cons m ms ih => simp [MembersLegible, ih]

theorem legible_of_settled {j : Json} (h : Settled j) : Legible j := by
  induction h with
  | null => trivial
  | bool => trivial
  | number hx => exact ⟨_, hx, rfl⟩
  | text => trivial
  | list _ ih => exact itemsLegible_iff.mpr ih
  | object _ _ _ ih => exact membersLegible_iff.mpr ih

theorem itemValues_map (js : List Json) : itemValues js = js.map Json.value := by
  induction js with
  | nil => rfl
  | cons j js ih => rw [itemValues, ih, List.map_cons]

theorem memberValues_map (ms : List (String × Json)) : memberValues ms = ms.map fun m => (m.1, m.2.value) := by
  induction ms with
  | nil => rfl
  | cons m ms ih => rw [memberValues, ih, List.map_cons]

/-- Under distinct keys an object says its members one by one. -/
theorem value_object {ms : List (String × Json)} (hkeys : (ms.map (·.1)).Nodup) :
    (Json.object ms).value = .record (ms.map fun m => (m.1, m.2.value)) := by
  have hsame : ((ms.map fun m => (m.1, m.2.value)).map (·.1)).Nodup := by
    rw [List.map_map]
    exact hkeys
  rw [Json.value, memberValues_map, Entries.ofList_of_nodup hsame]

/-- What a settled tree says is finite data, and has the tree again. -/
theorem tree_value {j : Json} (h : Settled j) : Data j.value ∧ Finite j.value ∧ tree j.value = j := by
  induction h with
  | null => exact ⟨.null, by rintro x ⟨⟩, rfl⟩
  | bool b => exact ⟨.bool b, by rintro x ⟨⟩, rfl⟩
  | number hx =>
    obtain ⟨hfinite, htext⟩ := ofText_text_finite hx
    rw [Json.value, String.ofList_toList]
    refine ⟨.number _, ?_, by rw [tree, htext]⟩
    rintro _ ⟨⟩
    exact hfinite
  | text s => exact ⟨.text s, by rintro x ⟨⟩, rfl⟩
  | @list js _ ih =>
    rw [Json.value, itemValues_map]
    refine ⟨.list fun v hv => ?_, finite_ofItems_iff.mpr fun v hv => ?_, ?_⟩
    · obtain ⟨j, hj, rfl⟩ := List.mem_map.mp hv
      exact (ih j hj).1
    · obtain ⟨j, hj, rfl⟩ := List.mem_map.mp hv
      exact (ih j hj).2.1
    · have heach : (js.map Json.value).map tree = js := by
        rw [List.map_map]
        exact (List.map_congr_left fun j hj => (ih j hj).2.2).trans (List.map_id js)
      rw [tree_ofItems, heach]
  | @object ms hkeys hsorted _ ih =>
    have heach : (ms.map fun m => (m.1, m.2.value)).map treeMember = ms := by
      rw [List.map_map]
      refine (List.map_congr_left fun m hm => ?_).trans (List.map_id ms)
      show (m.1, tree m.2.value) = m
      rw [(ih m hm).2.2]
    rw [value_object hkeys]
    refine ⟨.object ?_ fun m hm => ?_, finite_object_iff.mpr fun m hm => ?_, ?_⟩
    · rw [List.map_map]
      exact hkeys
    · obtain ⟨n, hn, rfl⟩ := List.mem_map.mp hm
      exact (ih n hn).1
    · obtain ⟨n, hn, rfl⟩ := List.mem_map.mp hm
      exact (ih n hn).2.1
    · rw [Value.record, tree_object, heach, List.mergeSort_of_pairwise hsorted]

/-! ## The encoding -/

/-- Where a value has no text there is a number that is not finite, and the error names one. -/
theorem text_error {v : Value} (hv : Data v) {t : Thrown} (h : text v = .error t) : ∃ x, Occurs x v ∧ x.isFinite = false ∧
    t = .foreign .type (some ("cannot canonicalize non-finite number " ++ x.text)) := by
  induction hv with
  | null => cases h
  | bool => cases h
  | number x =>
    rw [text, number] at h
    split at h
    · cases h
    · rename_i hx
      cases h
      exact ⟨x, .here, by simpa using hx, rfl⟩
  | text => cases h
  | list _ ih =>
    obtain ⟨v, hv, hv'⟩ := text_ofItems_error h
    obtain ⟨x, hx, hrest⟩ := ih v hv hv'
    exact ⟨x, .item hv hx, hrest⟩
  | object _ _ ih =>
    obtain ⟨m, hm, hm'⟩ := text_record_error h
    obtain ⟨x, hx, hrest⟩ := ih m hm hm'
    exact ⟨x, .member hm hx, hrest⟩

/-- Finite data has the text of its tree. -/
theorem text_eq {v : Value} (hv : Data v) (hfinite : Finite v) : text v = .ok (String.ofList (tree v).render) := by
  obtain ⟨t, ht⟩ := text_ok v (plain_of_data hv hfinite)
  rw [ht, (tree_of_text v (plain_of_data hv hfinite) ht).1]

/-- A list has a text only if its items have. -/
theorem ok_of_itemTexts {vs : List Value} {ts : List String} (h : itemTexts (vs.map some) = .ok ts) :
    ∀ v ∈ vs, ∃ t, text v = .ok t := by
  induction vs generalizing ts with
  | nil => simp
  | cons v vs ih =>
    simp only [List.map_cons, itemTexts, bind, Except.bind] at h
    split at h
    · cases h
    rename_i t ht
    split at h
    · cases h
    rename_i us hus
    intro w hw
    rcases List.mem_cons.mp hw with rfl | hw
    · exact ⟨t, ht⟩
    · exact ih hus w hw

theorem ok_of_ofItems {vs : List Value} {t : String} (h : text (.ofItems vs) = .ok t) :
    ∀ v ∈ vs, ∃ t, text v = .ok t := by
  simp only [Value.ofItems, text, bind, Except.bind] at h
  split at h
  · cases h
  · rename_i hts
    exact ok_of_itemTexts hts

theorem mem_members_of_mem {es : Entries Value} {m : String × Value} (h : m ∈ es) :
    (m.1, if m.2.isUndefined then .ok "null" else text m.2) ∈ members es := by
  induction es with
  | nil => cases h
  | cons n es ih =>
    rcases List.mem_cons.mp h with rfl | h
    · exact List.mem_cons_self
    · exact List.mem_cons_of_mem _ (ih h)

theorem Data.isUndefined {v : Value} (h : Data v) : v.isUndefined = false := by
  cases h <;> rfl

/-- Data has a text only if it is finite. -/
theorem finite_of_text {v : Value} (hv : Data v) {t : String} (h : text v = .ok t) : Finite v := by
  induction hv generalizing t with
  | null => rintro x ⟨⟩
  | bool => rintro x ⟨⟩
  | number x =>
    rw [text, number] at h
    split at h
    · rename_i hx
      rintro _ ⟨⟩
      exact hx
    · cases h
  | text => rintro x ⟨⟩
  | list _ ih =>
    refine finite_ofItems_iff.mpr fun v hv => ?_
    obtain ⟨t, ht⟩ := ok_of_ofItems h v hv
    exact ih v hv ht
  | object _ members ih =>
    refine finite_object_iff.mpr fun m hm => ?_
    obtain ⟨t, ht⟩ := ok_of_settle h _ (mem_members_of_mem hm)
    simp only [(members m hm).isUndefined, Bool.false_eq_true, if_false] at ht
    exact ih m hm ht

/-- The canonical text of data is an encoding. It is missing exactly where a number is not
finite. Finite data has one text exactly if it is alike, and what its text says in JSON is
finite data that is alike and has that text. -/
theorem canonical_text {a : Value} (ha : Data a) :
    ((∃ t, text a = .error t) ↔ ∃ x, Occurs x a ∧ x.isFinite = false) ∧
    (∀ t, text a = .error t → ∃ x, Occurs x a ∧ x.isFinite = false ∧
      t = .foreign .type (some ("cannot canonicalize non-finite number " ++ x.text))) ∧
    (Finite a → (∀ b, Data b → Finite b → (text a = text b ↔ Alike a b)) ∧
      ∃ t c, text a = .ok t ∧ Reader.read t = some c ∧ Data c ∧ Finite c ∧ Alike a c ∧ text c = .ok t) := by
  refine ⟨⟨fun ⟨t, ht⟩ => ?_, fun ⟨x, hx, hinf⟩ => ?_⟩, fun t ht => text_error ha ht,
    fun hfinite => ⟨fun b hb hfinite' => ?_, ?_⟩⟩
  · obtain ⟨x, hx, hinf, _⟩ := text_error ha ht
    exact ⟨x, hx, hinf⟩
  · cases ht : text a with
    | error t => exact ⟨t, rfl⟩
    | ok t =>
      rw [finite_of_text ha ht x hx] at hinf
      cases hinf
  · constructor
    · intro h
      have hb' := h.symm.trans (text_eq ha hfinite)
      exact alike_of_tree_eq ha hb
        (tree_eq_of_text (plain_of_data ha hfinite) (plain_of_data hb hfinite') (text_eq ha hfinite) hb')
    · intro h
      rw [text_eq ha hfinite, text_eq hb hfinite', tree_eq_of_alike h ha hb]
  · obtain ⟨hdata, hfinite', htree⟩ := tree_value (settled_tree ha hfinite)
    refine ⟨_, _, text_eq ha hfinite, Reader.read_render (legible_of_settled (settled_tree ha hfinite)), hdata, hfinite',
      alike_of_tree_eq ha hdata htree.symm, ?_⟩
    rw [text_eq hdata hfinite', htree]

/-- Neither the order of two keys nor the sign of a zero below one of them shows. -/
theorem canonical_text_zeros : text (.record [("rows", .ofItems [.number (.finite true .zero)]), ("aisle", .null)]) =
    text (.record [("aisle", .null), ("rows", .ofItems [.number .zero])]) := by
  have hrow : ∀ x : Number, x.isFinite = true → Data (.ofItems [.number x]) ∧ Finite (.ofItems [.number x]) := by
    intro x hx
    refine ⟨.list fun v hv => ?_, finite_ofItems_iff.mpr fun v hv => ?_⟩ <;> cases List.mem_singleton.mp hv
    · exact .number x
    · rintro _ ⟨⟩
      exact hx
  have hnull : Finite .null := by rintro x ⟨⟩
  obtain ⟨hdata, hfinite⟩ := hrow (.finite true .zero) rfl
  obtain ⟨hdata', hfinite'⟩ := hrow .zero rfl
  have hzeros : Alike (.ofItems [.number (.finite true .zero)]) (.ofItems [.number .zero]) := by
    refine .list rfl fun i v w hv hw => ?_
    cases i with
    | zero =>
      cases hv
      cases hw
      exact .number (.inr ⟨rfl, rfl⟩)
    | succ i => simp at hv
  have hleft : Data (.record [("rows", .ofItems [.number (.finite true .zero)]), ("aisle", .null)]) :=
    .object (by decide) (by simp [hdata, Data.null])
  have hright : Data (.record [("aisle", .null), ("rows", .ofItems [.number .zero])]) :=
    .object (by decide) (by simp [hdata', Data.null])
  refine (((canonical_text hleft).2.2 (finite_object_iff.mpr (by simp [hfinite, hnull]))).1 _ hright
    (finite_object_iff.mpr (by simp [hfinite', hnull]))).mpr (.object (by simp [or_comm]) fun k v w hv hw => ?_)
  simp only [List.mem_cons, Prod.mk.injEq, List.not_mem_nil, or_false] at hv hw
  rcases hv with ⟨rfl, rfl⟩ | ⟨rfl, rfl⟩ <;> rcases hw with ⟨hk, rfl⟩ | ⟨hk, rfl⟩
  · exact absurd hk (by decide)
  · exact hzeros
  · exact .null
  · exact absurd hk (by decide)

end ArgGuard.Canonical
