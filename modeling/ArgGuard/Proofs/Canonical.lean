/-
  ArgGuard.Proofs.Canonical — the canonical text tells the value.

  A value that JSON knows is a tree whose objects have their keys sorted (`tree`), and its
  canonical text is the tree written down (`tree_of_text`). Written trees can be told apart: a
  tree is known from its text even with more text behind it, as long as that begins with a
  comma or a closing bracket (`render_append_inj`). So two values of one canonical text have
  one tree (`tree_eq_of_text`).
-/

import ArgGuard.Canonical
import ArgGuard.Proofs.Number.Text
import ArgGuard.Proofs.Text.Quoted

namespace ArgGuard.Canonical

open Text

/-- What a canonical text is written from; a number is its text. -/
inductive Json where
  | null
  | bool (b : Bool)
  | number (token : List Char)
  | text (s : String)
  | list (items : List Json)
  | object (members : List (String × Json))

namespace Json

mutual

def render : Json → List Char
  | .null => "null".toList
  | .bool b => if b then "true".toList else "false".toList
  | .number token => token
  | .text s => (Quoted.quote s).toList
  | .list [] => ['[', ']']
  | .list (j :: js) => '[' :: (render j ++ renderItems js ++ [']'])
  | .object [] => ['\x7b', '\x7d']
  | .object ((k, j) :: ms) => '\x7b' :: ((Quoted.quote k).toList ++ ':' :: render j ++ renderMembers ms ++ ['\x7d'])

/-- Further items, a comma before each. -/
def renderItems : List Json → List Char
  | [] => []
  | j :: js => ',' :: (render j ++ renderItems js)

/-- Further members, a comma before each. -/
def renderMembers : List (String × Json) → List Char
  | [] => []
  | (k, j) :: ms => ',' :: ((Quoted.quote k).toList ++ ':' :: render j ++ renderMembers ms)

end

mutual

/-- Numbers are written with the characters of numbers. -/
def Proper : Json → Prop
  | .number token => token ≠ [] ∧ ∀ c ∈ token, isNumeric c = true
  | .list items => AllProper items
  | .object members => MembersProper members
  | _ => True

def AllProper : List Json → Prop
  | [] => True
  | j :: js => Proper j ∧ AllProper js

def MembersProper : List (String × Json) → Prop
  | [] => True
  | (_, j) :: ms => Proper j ∧ MembersProper ms

end

/-! ## What a text begins with -/

/-- A rest that cannot be part of a number. -/
def Closes (r : List Char) : Prop := ∀ c ∈ r.head?, isNumeric c = false

/-- Trees by what they begin with. -/
def kind : Json → Nat
  | .null => 0
  | .bool _ => 1
  | .number _ => 3
  | .text _ => 4
  | .list _ => 5
  | .object _ => 6

/-- The kind of tree that a character begins. -/
def kindOf (c : Char) : Nat :=
  if c = 'n' then 0 else if c = 'f' then 1 else if c = 't' then 1 else if c = '"' then 4 else if c = '[' then 5
  else if c = '\x7b' then 6 else if isNumeric c then 3 else 7

theorem kindOf_of_isNumeric {c : Char} (h : isNumeric c = true) : kindOf c = 3 := by
  have hne : ∀ d, isNumeric d = false → c ≠ d := by
    rintro d hd rfl
    rw [h] at hd
    cases hd
  unfold kindOf
  rw [if_neg (hne _ rfl), if_neg (hne _ rfl), if_neg (hne _ rfl), if_neg (hne _ rfl), if_neg (hne _ rfl),
    if_neg (hne _ rfl), if_pos h]

theorem kind_render {a : Json} (ha : a.Proper) : ∃ c cs, a.render = c :: cs ∧ kindOf c = a.kind := by
  cases a with
  | null => exact ⟨_, _, rfl, rfl⟩
  | bool b => cases b <;> exact ⟨_, _, rfl, rfl⟩
  | number token =>
    obtain ⟨hne, hall⟩ := ha
    cases token with
    | nil => exact absurd rfl hne
    | cons c cs => exact ⟨c, cs, rfl, kindOf_of_isNumeric (hall c List.mem_cons_self)⟩
  | text s => exact ⟨_, _, Quoted.toList_quote s, rfl⟩
  | list items => cases items <;> exact ⟨_, _, rfl, rfl⟩
  | object members => rcases members with _ | ⟨⟨k, j⟩, ms⟩ <;> exact ⟨_, _, rfl, rfl⟩

theorem kind_eq {a b : Json} (ha : a.Proper) (hb : b.Proper) {r r' : List Char} (h : a.render ++ r = b.render ++ r') :
    a.kind = b.kind := by
  obtain ⟨c, cs, hc, hca⟩ := kind_render ha
  obtain ⟨d, ds, hd, hdb⟩ := kind_render hb
  rw [hc, hd, List.cons_append, List.cons_append] at h
  rw [← hca, ← hdb, (List.cons.inj h).1]

/-- A list that is not empty goes on with an item, not with the bracket that closes it. -/
theorem render_ne_bracket {a : Json} (ha : a.Proper) {d : Char} (hd : kindOf d = 7) (r r' : List Char) :
    a.render ++ r ≠ d :: r' := by
  intro h
  obtain ⟨c, cs, hc, hk⟩ := kind_render ha
  rw [hc, List.cons_append] at h
  rw [(List.cons.inj h).1, hd] at hk
  cases a <;> cases hk

theorem takeWhile_token {token r : List Char} (h : ∀ c ∈ token, isNumeric c = true) (hr : Closes r) :
    (token ++ r).takeWhile isNumeric = token := (span_append h hr).1

/-- A number is known from its text where no part of a number follows. -/
theorem token_append_inj {s t r r' : List Char} (hs : ∀ c ∈ s, isNumeric c = true) (ht : ∀ c ∈ t, isNumeric c = true)
    (hr : Closes r) (hr' : Closes r') (h : s ++ r = t ++ r') : s = t ∧ r = r' := by
  have hst : s = t := by rw [← takeWhile_token hs hr, h, takeWhile_token ht hr']
  subst hst
  exact ⟨rfl, List.append_cancel_left h⟩

/-! ## Trees are known from their texts -/

theorem closes_items (js : List Json) (r : List Char) : Closes (renderItems js ++ ']' :: r) := by
  cases js <;> exact fun c hc => by cases hc; rfl

theorem closes_members (ms : List (String × Json)) (r : List Char) : Closes (renderMembers ms ++ '\x7d' :: r) := by
  rcases ms with _ | ⟨⟨k, j⟩, ms⟩ <;> exact fun c hc => by cases hc; rfl

mutual

theorem render_append_inj : ∀ (a b : Json), a.Proper → b.Proper → ∀ r r' : List Char, Closes r → Closes r' →
    a.render ++ r = b.render ++ r' → a = b ∧ r = r'
  | .null, b, ha, hb, r, r', _, _, h => by
    cases b <;> try cases kind_eq ha hb h
    exact ⟨rfl, List.append_cancel_left h⟩
  | .bool b, c, ha, hc, r, r', _, _, h => by
    cases c <;> try cases kind_eq ha hc h
    rename_i c
    cases b <;> cases c
    · exact ⟨rfl, List.append_cancel_left h⟩
    · simp [render] at h
    · simp [render] at h
    · exact ⟨rfl, List.append_cancel_left h⟩
  | .number s, b, ha, hb, r, r', hr, hr', h => by
    cases b <;> try cases kind_eq ha hb h
    rename_i t
    obtain ⟨rfl, hrest⟩ := token_append_inj ha.2 hb.2 hr hr' h
    exact ⟨rfl, hrest⟩
  | .text s, b, ha, hb, r, r', _, _, h => by
    cases b <;> try cases kind_eq ha hb h
    rename_i t
    obtain ⟨rfl, hrest⟩ := Quoted.quote_append_inj h
    exact ⟨rfl, hrest⟩
  | .list [], b, ha, hb, r, r', _, _, h => by
    cases b <;> try cases kind_eq ha hb h
    rename_i js
    cases js with
    | nil => exact ⟨rfl, List.append_cancel_left h⟩
    | cons j js =>
      simp only [render, List.cons_append, List.append_assoc, List.nil_append, List.cons.injEq, true_and] at h
      exact absurd h.symm (render_ne_bracket hb.1 rfl _ _)
  | .list (i :: is), b, ha, hb, r, r', _, _, h => by
    cases b <;> try cases kind_eq ha hb h
    rename_i js
    cases js with
    | nil =>
      simp only [render, List.cons_append, List.append_assoc, List.nil_append, List.cons.injEq, true_and] at h
      exact absurd h (render_ne_bracket ha.1 rfl _ _)
    | cons j js =>
      simp only [render, List.cons_append, List.append_assoc, List.nil_append, List.cons.injEq, true_and] at h
      obtain ⟨rfl, hitems⟩ := render_append_inj i j ha.1 hb.1 _ _ (closes_items is r) (closes_items js r') h
      obtain ⟨rfl, hrest⟩ := renderItems_append_inj is js ha.2 hb.2 r r' hitems
      exact ⟨rfl, hrest⟩
  | .object [], b, ha, hb, r, r', _, _, h => by
    cases b <;> try cases kind_eq ha hb h
    rename_i ns
    rcases ns with _ | ⟨⟨k, j⟩, ns⟩
    · exact ⟨rfl, List.append_cancel_left h⟩
    · simp [render, Quoted.toList_quote] at h
  | .object ((k, i) :: ms), b, ha, hb, r, r', _, _, h => by
    cases b <;> try cases kind_eq ha hb h
    rename_i ns
    rcases ns with _ | ⟨⟨l, j⟩, ns⟩
    · simp [render, Quoted.toList_quote] at h
    · simp only [render, List.cons_append, List.append_assoc, List.nil_append, List.cons.injEq, true_and] at h
      obtain ⟨rfl, hv⟩ := Quoted.quote_append_inj h
      obtain ⟨rfl, hms⟩ := render_append_inj i j ha.1 hb.1 _ _ (closes_members ms r) (closes_members ns r')
        (List.cons.inj hv).2
      obtain ⟨rfl, hrest⟩ := renderMembers_append_inj ms ns ha.2 hb.2 r r' hms
      exact ⟨rfl, hrest⟩

theorem renderItems_append_inj : ∀ is js : List Json, AllProper is → AllProper js → ∀ r r' : List Char,
    renderItems is ++ ']' :: r = renderItems js ++ ']' :: r' → is = js ∧ r = r'
  | [], [], _, _, r, r', h => ⟨rfl, (List.cons.inj h).2⟩
  | [], j :: js, _, _, r, r', h => by cases (List.cons.inj h).1
  | i :: is, [], _, _, r, r', h => by cases (List.cons.inj h).1
  | i :: is, j :: js, ha, hb, r, r', h => by
    simp only [renderItems, List.cons_append, List.append_assoc, List.cons.injEq, true_and] at h
    obtain ⟨rfl, hitems⟩ := render_append_inj i j ha.1 hb.1 _ _ (closes_items is r) (closes_items js r') h
    obtain ⟨rfl, hrest⟩ := renderItems_append_inj is js ha.2 hb.2 r r' hitems
    exact ⟨rfl, hrest⟩

theorem renderMembers_append_inj : ∀ ms ns : List (String × Json), MembersProper ms → MembersProper ns →
    ∀ r r' : List Char, renderMembers ms ++ '\x7d' :: r = renderMembers ns ++ '\x7d' :: r' → ms = ns ∧ r = r'
  | [], [], _, _, r, r', h => ⟨rfl, (List.cons.inj h).2⟩
  | [], (k, j) :: ns, _, _, r, r', h => by cases (List.cons.inj h).1
  | (k, i) :: ms, [], _, _, r, r', h => by cases (List.cons.inj h).1
  | (k, i) :: ms, (l, j) :: ns, ha, hb, r, r', h => by
    simp only [renderMembers, List.cons_append, List.append_assoc, List.cons.injEq, true_and] at h
    obtain ⟨rfl, hv⟩ := Quoted.quote_append_inj h
    obtain ⟨rfl, hms⟩ := render_append_inj i j ha.1 hb.1 _ _ (closes_members ms r) (closes_members ns r')
      (List.cons.inj hv).2
    obtain ⟨rfl, hrest⟩ := renderMembers_append_inj ms ns ha.2 hb.2 r r' hms
    exact ⟨rfl, hrest⟩

end

end Json

/-! ## The tree of a value -/

open Json

def memberLe (a b : String × Json) : Bool := keyLe a.1 b.1

mutual

def tree : Value → Json
  | .bool b => .bool b
  | .number x => .number x.text.toList
  | .text s => .text s
  | .list items => .list (treeItems items)
  | .object _ _ own _ _ => .object ((treeMembers own).mergeSort memberLe)
  | _ => .null

def treeItems : List (Option Value) → List Json
  | [] => []
  | none :: r => treeItems r
  | some v :: r => tree v :: treeItems r

def treeMembers : List (String × Value) → List (String × Json)
  | [] => []
  | (k, v) :: r => (k, tree v) :: treeMembers r

end

theorem treeItems_map (vs : List Value) : treeItems (vs.map some) = vs.map tree := by
  induction vs with
  | nil => rfl
  | cons v vs ih => rw [List.map_cons, treeItems, ih, List.map_cons]

theorem tree_ofItems (vs : List Value) : tree (.ofItems vs) = .list (vs.map tree) := by
  rw [Value.ofItems, tree, treeItems_map]

mutual

/-- Null, booleans, numbers of a property, texts, lists without holes and objects, all the way
down. -/
def Plain (P : Number → Prop) : Value → Prop
  | .null => True
  | .bool _ => True
  | .number x => P x
  | .text _ => True
  | .list items => PlainItems P items
  | .object _ _ own _ _ => PlainMembers P own
  | _ => False

def PlainItems (P : Number → Prop) : List (Option Value) → Prop
  | [] => True
  | none :: _ => False
  | some v :: r => Plain P v ∧ PlainItems P r

def PlainMembers (P : Number → Prop) : List (String × Value) → Prop
  | [] => True
  | (_, v) :: r => Plain P v ∧ PlainMembers P r

end

/-- Items with a comma between them, as the items of a tree are written. -/
theorem intercalate_render (j : Json) (js : List Json) :
    [','].intercalate ((j :: js).map render) = j.render ++ renderItems js := by
  induction js generalizing j with
  | nil => simp [renderItems]
  | cons i is ih =>
    have := ih i
    simp only [List.map_cons] at this ⊢
    simp [this, renderItems]

/-- How a member is written. -/
def renderMember (m : String × Json) : List Char := (Quoted.quote m.1).toList ++ ':' :: m.2.render

theorem intercalate_renderMember (k : String) (j : Json) (ms : List (String × Json)) :
    [','].intercalate (((k, j) :: ms).map renderMember)
      = (Quoted.quote k).toList ++ ':' :: j.render ++ renderMembers ms := by
  induction ms generalizing k j with
  | nil => simp [renderMembers, renderMember]
  | cons m ms ih =>
    obtain ⟨l, i⟩ := m
    have := ih l i
    simp only [List.map_cons] at this ⊢
    rw [List.intercalate_cons_cons, this]
    simp [renderMembers, renderMember]

/-- The members of a tree as they are handed on to be written. -/
def written (m : String × Json) : String × Except Thrown String := (m.1, .ok (String.ofList m.2.render))

theorem memberTexts_eq (ms : List (String × Json)) :
    memberTexts (ms.map written) = .ok (ms.map fun m => String.ofList (renderMember m)) := by
  induction ms with
  | nil => rfl
  | cons m ms ih =>
    have hm : Quoted.quote m.1 ++ ":" ++ String.ofList m.2.render = String.ofList (renderMember m) := by
      apply String.toList_injective
      simp [renderMember]
    simp only [List.map_cons, memberTexts, written, ih, bind, Except.bind, hm]

theorem settle_eq (ms : List (String × Json)) :
    settle (ms.map written) = .ok (String.ofList (Json.object (ms.mergeSort memberLe)).render) := by
  have hsort : (ms.map written).mergeSort (fun a b => keyLe a.1 b.1) = (ms.mergeSort memberLe).map written :=
    (List.map_mergeSort (f := written) fun _ _ _ _ => rfl).symm
  simp only [settle, hsort, memberTexts_eq, bind, Except.bind, Except.ok.injEq]
  apply String.toList_injective
  rcases ms.mergeSort memberLe with _ | ⟨⟨k, j⟩, ms⟩
  · simp [render]
  · have := intercalate_renderMember k j ms
    simp only [List.map_cons] at this
    simp [Function.comp_def, this, render]

/-- Members are written only if the content of each has a text. -/
theorem ok_of_memberTexts {es : List (String × Except Thrown String)} {ts : List String} (h : memberTexts es = .ok ts) :
    ∀ e ∈ es, ∃ t, e.2 = .ok t := by
  induction es generalizing ts with
  | nil => simp
  | cons e es ih =>
    obtain ⟨k, t⟩ := e
    cases t with
    | error _ => cases h
    | ok t =>
      simp only [memberTexts, bind, Except.bind] at h
      split at h
      · cases h
      · rename_i hes
        intro e he
        rcases List.mem_cons.mp he with rfl | he
        · exact ⟨t, rfl⟩
        · exact ih hes e he

theorem ok_of_settle {es : List (String × Except Thrown String)} {t : String} (h : settle es = .ok t) :
    ∀ e ∈ es, ∃ t, e.2 = .ok t := by
  simp only [settle, bind, Except.bind] at h
  split at h
  · cases h
  · rename_i hts
    exact fun e he => ok_of_memberTexts hts e (List.mem_mergeSort.mpr he)

theorem membersProper_iff {ms : List (String × Json)} : MembersProper ms ↔ ∀ m ∈ ms, m.2.Proper := by
  induction ms with
  | nil => simp [MembersProper]
  | cons m ms ih => simp [MembersProper, ih]

variable {P : Number → Prop}

mutual

/-- The canonical text of a value is its tree, written down. -/
theorem tree_of_text : ∀ v {t}, Plain P v → text v = .ok t → t = String.ofList (tree v).render ∧ (tree v).Proper
  | .null, t, _, h => by
    cases h
    exact ⟨rfl, trivial⟩
  | .bool b, t, _, h => by
    cases h
    exact ⟨by cases b <;> rfl, trivial⟩
  | .number x, t, _, h => by
    simp only [text, number] at h
    split at h
    · rename_i hx
      cases h
      exact ⟨by simp [tree, render], Number.isNumeric_text hx⟩
    · cases h
  | .text s, t, _, h => by
    cases h
    exact ⟨by simp [tree, render], trivial⟩
  | .list items, t, hv, h => by
    simp only [text, bind, Except.bind] at h
    split at h
    · cases h
    rename_i ts hts
    cases h
    obtain ⟨rfl, hproper⟩ := trees_of_itemTexts items hv hts
    refine ⟨?_, hproper⟩
    rw [tree]
    apply String.toList_injective
    rcases treeItems items with _ | ⟨j, js⟩
    · simp [render]
    · have := intercalate_render j js
      simp only [List.map_cons] at this
      simp [Function.comp_def, this, render]
  | .object _ _ own _ _, t, hv, h => by
    rw [text] at h
    obtain ⟨hmembers, hproper⟩ := trees_of_members own hv (ok_of_settle h)
    rw [hmembers, settle_eq] at h
    cases h
    exact ⟨rfl, membersProper_iff.mpr fun m hm => membersProper_iff.mp hproper m (List.mem_mergeSort.mp hm)⟩

theorem trees_of_itemTexts : ∀ items {ts}, PlainItems P items → itemTexts items = .ok ts →
    ts = (treeItems items).map (fun j => String.ofList j.render) ∧ AllProper (treeItems items)
  | [], ts, _, h => by
    cases h
    exact ⟨rfl, trivial⟩
  | none :: _, _, hv, _ => hv.elim
  | some v :: r, ts, hv, h => by
    simp only [itemTexts, bind, Except.bind] at h
    split at h
    · cases h
    rename_i t ht
    split at h
    · cases h
    rename_i us hus
    cases h
    obtain ⟨rfl, hproper⟩ := tree_of_text v hv.1 ht
    obtain ⟨rfl, hall⟩ := trees_of_itemTexts r hv.2 hus
    exact ⟨rfl, hproper, hall⟩

theorem trees_of_members : ∀ own, PlainMembers P own → (∀ e ∈ members own, ∃ t, e.2 = .ok t) →
    members own = (treeMembers own).map written ∧ MembersProper (treeMembers own)
  | [], _, _ => ⟨rfl, trivial⟩
  | (k, v) :: r, hv, h => by
    have hdefined : v.isUndefined = false := by
      cases v <;> first | rfl | cases hv.1
    simp only [members, hdefined, Bool.false_eq_true, if_false] at h ⊢
    obtain ⟨t, ht⟩ := h _ List.mem_cons_self
    obtain ⟨rfl, hproper⟩ := tree_of_text v hv.1 ht
    obtain ⟨hmembers, hall⟩ := trees_of_members r hv.2 fun e he => h e (List.mem_cons_of_mem _ he)
    refine ⟨?_, hproper, hall⟩
    rw [show text v = _ from ht, hmembers]
    rfl

end

/-- Where members cannot be written, the content of one of them has no text. -/
theorem memberTexts_error {l : List (String × Except Thrown String)} {t : Thrown} (h : memberTexts l = .error t) :
    ∃ e ∈ l, e.2 = .error t := by
  induction l with
  | nil => cases h
  | cons e l ih =>
    obtain ⟨k, r⟩ := e
    cases r with
    | error u =>
      cases h
      exact ⟨_, List.mem_cons_self, rfl⟩
    | ok c =>
      simp only [memberTexts, bind, Except.bind] at h
      split at h
      · rename_i hl
        cases h
        obtain ⟨e, he, ht⟩ := ih hl
        exact ⟨e, List.mem_cons_of_mem _ he, ht⟩
      · cases h

theorem settle_error {es : List (String × Except Thrown String)} {t : Thrown} (h : settle es = .error t) :
    ∃ e ∈ es, e.2 = .error t := by
  simp only [settle, bind, Except.bind] at h
  split at h
  · rename_i hes
    cases h
    obtain ⟨e, he, ht⟩ := memberTexts_error hes
    exact ⟨e, List.mem_mergeSort.mp he, ht⟩
  · cases h

theorem settle_ok {es : List (String × Except Thrown String)} (h : ∀ e ∈ es, ∃ t, e.2 = .ok t) :
    ∃ t, settle es = .ok t := by
  cases hs : settle es with
  | ok t => exact ⟨t, rfl⟩
  | error t =>
    obtain ⟨e, he, ht⟩ := settle_error hs
    obtain ⟨c, hc⟩ := h e he
    rw [hc] at ht
    cases ht

theorem itemTexts_error {items : List (Option Value)} {t : Thrown} (h : itemTexts items = .error t) :
    ∃ v, some v ∈ items ∧ text v = .error t := by
  induction items with
  | nil => cases h
  | cons o items ih =>
    cases o with
    | none =>
      simp only [itemTexts, bind, Except.bind] at h
      split at h
      · rename_i hitems
        cases h
        obtain ⟨v, hv, ht⟩ := ih hitems
        exact ⟨v, List.mem_cons_of_mem _ hv, ht⟩
      · cases h
    | some w =>
      simp only [itemTexts, bind, Except.bind] at h
      split at h
      · rename_i hw
        cases h
        exact ⟨w, List.mem_cons_self, hw⟩
      split at h
      · rename_i hitems
        cases h
        obtain ⟨v, hv, ht⟩ := ih hitems
        exact ⟨v, List.mem_cons_of_mem _ hv, ht⟩
      · cases h

theorem mem_members {es : List (String × Value)} {e : String × Except Thrown String} (h : e ∈ members es) :
    ∃ m ∈ es, e = (m.1, if m.2.isUndefined then .ok "null" else text m.2) := by
  induction es with
  | nil => exact absurd h List.not_mem_nil
  | cons m es ih =>
    rcases List.mem_cons.mp h with rfl | h
    · exact ⟨m, List.mem_cons_self, rfl⟩
    · obtain ⟨n, hn, he⟩ := ih h
      exact ⟨n, List.mem_cons_of_mem _ hn, he⟩

/-- A list without a text has an item without one. -/
theorem text_ofItems_error {vs : List Value} {t : Thrown} (h : text (.ofItems vs) = .error t) :
    ∃ v ∈ vs, text v = .error t := by
  simp only [Value.ofItems, text, bind, Except.bind] at h
  split at h
  · rename_i hitems
    cases h
    obtain ⟨v, hv, ht⟩ := itemTexts_error hitems
    obtain ⟨w, hw, hwv⟩ := List.mem_map.mp hv
    exact ⟨w, hw, Option.some.inj hwv ▸ ht⟩
  · cases h

/-- An object without a text has a member without one. -/
theorem text_record_error {es : Entries Value} {t : Thrown} (h : text (.record es) = .error t) :
    ∃ m ∈ es, text m.2 = .error t := by
  obtain ⟨e, he, ht⟩ := settle_error h
  obtain ⟨m, hm, rfl⟩ := mem_members he
  simp only at ht
  split at ht
  · cases ht
  · exact ⟨m, hm, ht⟩

mutual

/-- Values whose numbers are finite have a canonical text. -/
theorem text_ok : ∀ v, Plain (fun x => x.isFinite = true) v → ∃ t, text v = .ok t
  | .null, _ => ⟨_, rfl⟩
  | .bool _, _ => ⟨_, rfl⟩
  | .number x, h => ⟨x.text, if_pos h⟩
  | .text _, _ => ⟨_, rfl⟩
  | .list items, h => by
    obtain ⟨ts, hts⟩ := itemTexts_ok items h
    simp only [text, hts, bind, Except.bind]
    exact ⟨_, rfl⟩
  | .object _ _ own _ _, h => settle_ok (members_ok own h)

theorem itemTexts_ok : ∀ items, PlainItems (fun x => x.isFinite = true) items → ∃ ts, itemTexts items = .ok ts
  | [], _ => ⟨[], rfl⟩
  | none :: _, h => h.elim
  | some v :: r, h => by
    obtain ⟨t, ht⟩ := text_ok v h.1
    obtain ⟨ts, hts⟩ := itemTexts_ok r h.2
    simp only [itemTexts, ht, hts, bind, Except.bind]
    exact ⟨_, rfl⟩

theorem members_ok : ∀ own, PlainMembers (fun x => x.isFinite = true) own → ∀ e ∈ members own, ∃ t, e.2 = .ok t
  | [], _, _, he => absurd he List.not_mem_nil
  | (k, v) :: r, h, e, he => by
    rcases List.mem_cons.mp he with rfl | he
    · cases v.isUndefined with
      | true => exact ⟨"null", rfl⟩
      | false => exact text_ok v h.1
    · exact members_ok r h.2 e he

end

/-- Values of one canonical text have one tree. -/
theorem tree_eq_of_text {v w : Value} {t : String} (hv : Plain P v) (hw : Plain P w) (h : text v = .ok t)
    (h' : text w = .ok t) : tree v = tree w := by
  obtain ⟨heq, hproper⟩ := tree_of_text v hv h
  obtain ⟨heq', hproper'⟩ := tree_of_text w hw h'
  have hchars : (tree v).render ++ [] = (tree w).render ++ [] := by
    simpa using congrArg String.toList (heq.symm.trans heq')
  have hcloses : Closes [] := by simp [Closes]
  exact (render_append_inj _ _ hproper hproper' _ _ hcloses hcloses hchars).1

/-! ## Fields -/

/-- The content under a key of an object. -/
def Json.field? (k : String) : Json → Option Json
  | .object ms => ms.lookup k
  | _ => none

/-- Sorting does not change what a key finds. -/
theorem lookup_perm {l l' : List (String × Json)} (h : l.Perm l') (hn : (l.map (·.1)).Nodup) (k : String) :
    l.lookup k = l'.lookup k := by
  induction h with
  | nil => rfl
  | cons m _ ih => rw [List.lookup_cons, List.lookup_cons, ih (List.nodup_cons.mp hn).2]
  | swap m n l =>
    obtain ⟨i, a⟩ := m
    obtain ⟨j, b⟩ := n
    have hne : i ≠ j := by
      rintro rfl
      exact (List.nodup_cons.mp hn).1 List.mem_cons_self
    simp only [List.lookup_cons]
    by_cases hi : k = i
    · have hj : (k == j) = false := by simpa [hi] using hne
      simp only [hj]
    · have hi : (k == i) = false := by simpa using hi
      simp only [hi]
  | trans h _ ih ih' => exact (ih hn).trans (ih' ((h.map _).nodup_iff.mp hn))

theorem map_treeMembers (es : Entries Value) : (treeMembers es).map (·.1) = es.map (·.1) := by
  induction es with
  | nil => rfl
  | cons e es ih => simp [treeMembers, ih]

theorem field?_record {es : Entries Value} (hn : (es.map (·.1)).Nodup) (k : String) :
    (tree (.record es)).field? k = (treeMembers es).lookup k := by
  rw [← map_treeMembers] at hn
  exact (lookup_perm (List.mergeSort_perm _ memberLe).symm hn k).symm

end ArgGuard.Canonical
