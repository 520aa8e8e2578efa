/-
  ArgGuard.Proofs.Routine.Alike — programs that differ in strings only.

  A vocabulary is what the text of a routine takes in from outside: a name for its
  identifier and strings to quote. Two pieces are alike over two vocabularies when they are
  the same code, free of controls, when they quote a string of the one and a string of the
  other, or when they are the two identifiers (`Piece.Alike`). Lines, conditions and
  statements are alike piece by piece. Plans whose steps are alike have programs that are
  alike (`Plan.Alike.program`), and those have alike lines (`Program.Alike.lines`).
-/

import ArgGuard.Proofs.Plan
import ArgGuard.Proofs.Routine.Assembly
import ArgGuard.Proofs.Text.Digits
import ArgGuard.Proofs.Text.Quoted
import Mathlib.Data.List.Forall2

namespace ArgGuard

open List (Forall₂ rel_append)
open Text

theorem exists_of_forall₂ {α β : Type} {r : α → β → Prop} {xs : List α} {ys : List β} (h : Forall₂ r xs ys) :
    ∀ x ∈ xs, ∃ y, r x y := by
  induction h with
  | nil => simp
  | cons h _ ih => exact List.forall_mem_cons.mpr ⟨⟨_, h⟩, ih⟩

/-! ## Texts without controls -/

namespace Text

/-- No control stands in a text; above all it is one line. -/
def Printable (s : String) : Prop := ∀ c ∈ s.toList, 0x20 ≤ c.toNat

instance (s : String) : Decidable (Printable s) := List.decidableBAll (fun (c : Char) => 0x20 ≤ c.toNat) s.toList

@[simp] theorem printable_append {s t : String} : Printable (s ++ t) ↔ Printable s ∧ Printable t := by
  simp [Printable, or_imp, forall_and]

theorem le_of_isDigit {c : Char} (h : isDigit c = true) : 0x20 ≤ c.toNat := by
  simp only [isDigit, Bool.and_eq_true, decide_eq_true_eq] at h
  exact Nat.le_trans (by decide) h.1

@[simp] theorem printable_natText (n : Nat) : Printable (natText n) := fun c hc =>
  le_of_isDigit (isDigit_of_mem_toDigits (n := n) (by simpa [natText] using hc))

theorem printable_join {ss : List String} (h : ∀ s ∈ ss, Printable s) : Printable (String.join ss) := by
  intro c hc
  rw [String.toList_join] at hc
  obtain ⟨s, hs, hc⟩ := List.mem_flatMap.mp hc
  exact h s hs c hc

theorem printable_intercalate {sep : String} {ss : List String} (hsep : Printable sep) (h : ∀ s ∈ ss, Printable s) :
    Printable (String.intercalate sep ss) := by
  induction ss with
  | nil => simp [Printable]
  | cons s ss ih =>
    have hs := h s List.mem_cons_self
    have hrest := ih fun t ht => h t (List.mem_cons_of_mem _ ht)
    cases ss with
    | nil => rwa [String.intercalate_singleton]
    | cons t ts =>
      rw [String.intercalate_cons_cons, printable_append, printable_append]
      exact ⟨⟨hs, hsep⟩, hrest⟩

theorem printable_quote (s : String) : Printable (Quoted.quote s) := by
  intro c hc
  rw [Quoted.toList_quote] at hc
  rcases List.mem_cons.mp hc with rfl | hc
  · decide
  rcases List.mem_append.mp hc with hc | hc
  · exact (Quoted.inner_escape s.toList).no_control c hc
  · rw [List.mem_singleton.mp hc]
    decide

end Text

namespace Piece

/-- A routine is named by its prefix and characters of an identifier, whatever the name. -/
theorem routineName_eq (name : String) :
    ∃ w, routineName name = "validate_" ++ w ∧ ∀ c ∈ w.toList, isIdentifierChar c = true := by
  refine ⟨_, rfl, fun c hc => ?_⟩
  rw [String.toList_ofList] at hc
  obtain ⟨d, -, hd⟩ := List.mem_flatMap.mp hc
  split at hd
  · rwa [List.mem_singleton.mp hd]
  · rw [List.eq_of_mem_replicate hd]
    rfl

theorem le_of_isIdentifierChar {c : Char} (h : isIdentifierChar c = true) : 0x20 ≤ c.toNat := by
  simp only [isIdentifierChar, Bool.or_eq_true, Bool.and_eq_true, decide_eq_true_eq, beq_iff_eq] at h
  rcases h with (((h | h) | h) | rfl) | rfl
  · exact Nat.le_trans (by decide) h.1
  · exact Nat.le_trans (by decide) h.1
  · exact le_of_isDigit h
  · decide
  · decide

theorem printable_routineName (name : String) : Printable (routineName name) := by
  obtain ⟨w, hw, hchars⟩ := routineName_eq name
  rw [hw, printable_append]
  exact ⟨by decide, fun c hc => le_of_isIdentifierChar (hchars c hc)⟩

end Piece

/-! ## Pieces and lines -/

/-- The strings from outside that a text may hold: the name its identifier is made of, and
what it may quote. -/
structure Vocabulary where
  name : String
  quoted : String → Prop

section Alike

variable {a b : Vocabulary}

/-- Pieces of two texts that differ in strings only. -/
inductive Piece.Alike (a b : Vocabulary) : Piece → Piece → Prop
  | code {s : String} : Printable s → Alike a b (.code s) (.code s)
  | literal {s t : String} : a.quoted s → b.quoted t → Alike a b (.literal s) (.literal t)
  | routine : Alike a b (.routine a.name) (.routine b.name)

theorem Piece.Alike.printable {p q : Piece} (h : p.Alike a b q) : Printable p.text := by
  cases h with
  | code h => exact h
  | literal => exact printable_quote _
  | routine => exact printable_routineName _

structure Line.Alike (a b : Vocabulary) (l m : Line) : Prop where
  depth : l.depth = m.depth
  pieces : Forall₂ (Piece.Alike a b) l.pieces m.pieces

theorem Line.Alike.printable {l m : Line} (h : l.Alike a b m) : Printable l.text := by
  have hindent : Printable (indent l.depth.toNat) := by
    intro c hc
    rw [indent, String.toList_ofList] at hc
    rw [List.eq_of_mem_replicate hc]
    decide
  refine printable_append.mpr ⟨hindent, printable_join (List.forall_mem_map.mpr fun p hp => ?_)⟩
  obtain ⟨q, hq⟩ := exists_of_forall₂ h.pieces p hp
  exact hq.printable

inductive Mark.Alike (a b : Vocabulary) : Mark → Mark → Prop
  | line {t u : List Piece} : Forall₂ (Piece.Alike a b) t u → Alike a b (.line t) (.line u)
  | opening {t u : List Piece} : Forall₂ (Piece.Alike a b) t u → Alike a b (.opening t) (.opening u)
  | closing {t u : List Piece} : Forall₂ (Piece.Alike a b) t u → Alike a b (.closing t) (.closing u)
  | reopening {t u : List Piece} : Forall₂ (Piece.Alike a b) t u → Alike a b (.reopening t) (.reopening u)

namespace Mark

theorem alike_code {s : String} (h : Printable s) : (code s).Alike a b (code s) := .line (.cons (.code h) .nil)

theorem alike_openCode {s : String} (h : Printable s) : (openCode s).Alike a b (openCode s) :=
  .opening (.cons (.code h) .nil)

theorem alike_close : close.Alike a b close := .closing (.cons (.code (by decide)) .nil)

theorem Alike.place {m n : Mark} (h : m.Alike a b n) (depth : Int) :
    (m.place depth).1.Alike a b (n.place depth).1 ∧ (m.place depth).2 = (n.place depth).2 := by
  cases h with
  | line h => exact ⟨⟨rfl, h⟩, rfl⟩
  | opening h => exact ⟨⟨rfl, h⟩, rfl⟩
  | closing h => exact ⟨⟨rfl, h⟩, rfl⟩
  | reopening h => exact ⟨⟨rfl, h⟩, rfl⟩

/-- Alike marks are laid out as alike lines. -/
theorem alike_layout {ms ns : List Mark} (h : Forall₂ (Mark.Alike a b) ms ns) (depth : Int) :
    Forall₂ (Line.Alike a b) (layout depth ms) (layout depth ns) := by
  induction h generalizing depth with
  | nil => exact .nil
  | cons h _ ih =>
    obtain ⟨hline, hdepth⟩ := h.place depth
    refine .cons hline ?_
    rw [hdepth]
    exact ih _

end Mark

/-! ## Conditions -/

/-- Conditions that are alike whatever the variable is called. -/
def Fragment.Alike (a b : Vocabulary) (f g : Fragment) : Prop :=
  ∀ ref, Printable ref → Forall₂ (Piece.Alike a b) (f.source ref) (g.source ref)

namespace Fragment.Alike

variable {f f' g g' : Fragment}

/-- A condition whose text is code without controls. -/
theorem of_code {written : String → String} (h : ∀ ref, f.source ref = [.code (written ref)])
    (hw : ∀ ref, Printable ref → Printable (written ref)) : f.Alike a b f := by
  intro ref href
  rw [h ref]
  exact .cons (.code (hw ref href)) .nil

theorem equals {p q : Piece} (h : p.Alike a b q) (m n : Meaning) : (Fragment.equals p m).Alike a b (.equals q n) :=
  fun _ href => .cons (.code (printable_append.mpr ⟨href, by decide⟩)) (.cons h .nil)

theorem group (h : f.Alike a b g) : f.group.Alike a b g.group := fun ref href =>
  .cons (.code (by decide)) (rel_append (h ref href) (.cons (.code (by decide)) .nil))

theorem both (h : f.Alike a b g) (h' : f'.Alike a b g') : (f.both f').Alike a b (g.both g') := fun ref href =>
  rel_append (h ref href) (.cons (.code (by decide)) (h' ref href))

theorem either (h : f.Alike a b g) (h' : f'.Alike a b g') : (f.either f').Alike a b (g.either g') := fun ref href =>
  rel_append (h ref href) (.cons (.code (by decide)) (h' ref href))

/-- The variable of an item is named after that of the list. -/
theorem every (h : f.Alike a b g) : f.every.Alike a b g.every := by
  intro ref href
  have hitem : Printable (ref ++ "_i") := printable_append.mpr ⟨href, by decide⟩
  refine .cons (.code ?_) (rel_append (h _ hitem) (.cons (.code (by decide)) .nil))
  simp only [printable_append, href, true_and]
  decide

end Fragment.Alike

/-! ## Statements -/

@[simp] theorem Var.printable_text (x : Var) : Printable x.text := by
  cases x with
  | step i => exact printable_append.mpr ⟨by decide, printable_natText i⟩
  | extra => decide

@[simp] theorem Var.printable_capabilityText (x : Var) : Printable x.capabilityText := by
  cases x with
  | step i => exact printable_append.mpr ⟨by decide, printable_natText i⟩
  | extra => decide

@[simp] theorem Blame.printable_text (x : Var) (blame : Blame) : Printable (blame.text x) := by
  cases blame with
  | step i =>
    show Printable ("r.mismatch(" ++ natText i ++ ", " ++ x.text ++ ")")
    simp
    decide
  | key =>
    show Printable ("r.extraMismatch(key, " ++ x.text ++ ")")
    simp
    decide
  | position =>
    show Printable ("r.extraMismatch(\"[\" + i + \"]\", " ++ x.text ++ ")")
    simp
    decide

inductive Action.Alike (a b : Vocabulary) : Action → Action → Prop
  | coerce (x : Var) : Alike a b (.coerce x) (.coerce x)
  | demand (x : Var) {f g : Fragment} (blame : Blame) : f.Alike a b g → Alike a b (.demand x f blame) (.demand x g blame)
  | takeDefault (i : Nat) : Alike a b (.takeDefault i) (.takeDefault i)
  | makeDefault (i : Nat) : Alike a b (.makeDefault i) (.makeDefault i)
  | demandGiven (i : Nat) : Alike a b (.demandGiven i) (.demandGiven i)

theorem Action.Alike.mark {x y : Action} (h : x.Alike a b y) : x.mark.Alike a b y.mark := by
  cases h with
  | coerce x => exact Mark.alike_code (by simp; decide)
  | demand x blame h =>
    refine .line (.cons (.code (by decide)) (rel_append (h _ x.printable_text) (.cons (.code ?_) .nil)))
    simp
    decide
  | takeDefault i => exact Mark.alike_code (by simp; decide)
  | makeDefault i => exact Mark.alike_code (by simp; decide)
  | demandGiven i => exact Mark.alike_code (by simp; decide)

/-- Lists of strings to quote. -/
def Vocabulary.Lists (a b : Vocabulary) : List String → List String → Prop := Forall₂ fun s t => a.quoted s ∧ b.quoted t

inductive Stmt.Alike (a b : Vocabulary) : Stmt → Stmt → Prop
  | act {x y : Action} : x.Alike a b y → Alike a b (.act x) (.act y)
  | demandShape (mode : SourceMode) : Alike a b (.demandShape mode) (.demandShape mode)
  | refuseUnknown {ks ls : List String} : a.Lists b ks ls → Alike a b (.refuseUnknown ks) (.refuseUnknown ls)
  | refuseExtra (n : Nat) : Alike a b (.refuseExtra n) (.refuseExtra n)
  | fetchIndex (i n : Nat) : Alike a b (.fetchIndex i n) (.fetchIndex i n)
  | fetchKey (i : Nat) {k l : String} : a.quoted k → b.quoted l → Alike a b (.fetchKey i k) (.fetchKey i l)
  | whenAbsent (i : Nat) {xs xs' ys ys' : List Action} : Forall₂ (Action.Alike a b) xs xs' →
      Forall₂ (Action.Alike a b) ys ys' → Alike a b (.whenAbsent i xs ys) (.whenAbsent i xs' ys')
  | whenGiven (i : Nat) {ys ys' : List Action} : Forall₂ (Action.Alike a b) ys ys' →
      Alike a b (.whenGiven i ys) (.whenGiven i ys')
  | newRecord : Alike a b .newRecord .newRecord
  | newList (n : Nat) : Alike a b (.newList n) (.newList n)
  | put (i : Nat) {k l : String} : a.quoted k → b.quoted l → Alike a b (.put i k) (.put i l)
  | putGiven (i : Nat) {k l : String} : a.quoted k → b.quoted l → Alike a b (.putGiven i k) (.putGiven i l)
  | newRest : Alike a b .newRest .newRest
  | keepEntries {ks ls : List String} {xs ys : List Action} (target : Target) : a.Lists b ks ls →
      Forall₂ (Action.Alike a b) xs ys → Alike a b (.keepEntries ks xs target) (.keepEntries ls ys target)
  | keepItems (n : Nat) {xs ys : List Action} : Forall₂ (Action.Alike a b) xs ys →
      Alike a b (.keepItems n xs) (.keepItems n ys)
  | pushRest : Alike a b .pushRest .pushRest

theorem alike_actions {xs ys : List Action} (h : Forall₂ (Action.Alike a b) xs ys) :
    Forall₂ (Mark.Alike a b) (xs.map Action.mark) (ys.map Action.mark) := List.rel_map (fun _ _ h => h.mark) h

namespace Stmt

/-- A switch over the declared names up to its last case, with what their cases do. -/
theorem alike_switch {ks ls : List String} (h : a.Lists b ks ls) {s : String} (hs : Printable s) :
    Forall₂ (Mark.Alike a b)
      ([eachKey, switchKey] ++ ks.map caseMark ++ if ks.isEmpty then [] else [.code s])
      ([eachKey, switchKey] ++ ls.map caseMark ++ if ls.isEmpty then [] else [.code s]) := by
  have hhead : Forall₂ (Mark.Alike a b) [eachKey, switchKey] [eachKey, switchKey] :=
    .cons (Mark.alike_openCode (by decide)) (.cons (Mark.alike_openCode (by decide)) .nil)
  have hcases : Forall₂ (Mark.Alike a b) (ks.map caseMark) (ls.map caseMark) := by
    refine List.rel_map (fun k l hkl => ?_) h
    exact .line (.cons (.code (by decide)) (.cons (.literal hkl.1 hkl.2) (.cons (.code (by decide)) .nil)))
  refine rel_append (rel_append hhead hcases) ?_
  -- the last line is there for both lists or for neither
  cases h with
  | nil => exact .nil
  | cons => exact .cons (Mark.alike_code hs) .nil

theorem alike_putPieces (i : Nat) {k l : String} (hk : a.quoted k) (hl : b.quoted l) :
    Forall₂ (Piece.Alike a b) (putPieces i k) (putPieces i l) :=
  .cons (.code (by decide)) (.cons (.literal hk hl) (.cons (.code (by simp; decide)) .nil))

/-- Alike statements write alike marks. -/
theorem Alike.marks {s t : Stmt} (h : s.Alike a b t) : Forall₂ (Mark.Alike a b) s.marks t.marks := by
  have code : ∀ {s : String}, Printable s → Forall₂ (Mark.Alike a b) [.code s] [.code s] := fun h =>
    .cons (Mark.alike_code h) .nil
  cases h with
  | act h => exact .cons h.mark .nil
  | demandShape mode => cases mode <;> exact code (by decide)
  | refuseUnknown h =>
    refine rel_append (alike_switch h (by decide)) ?_
    exact .cons (Mark.alike_code (by decide)) (.cons (Mark.alike_code (by decide))
      (.cons Mark.alike_close (.cons Mark.alike_close .nil)))
  | refuseExtra n => exact code (by simp; decide)
  | fetchIndex i n => exact code (by simp; decide)
  | fetchKey i hk hl =>
    have hfirst : Printable ("let v" ++ natText i ++ " = Object.hasOwn(args, ") := by simp; decide
    exact .cons (.line (.cons (.code hfirst) (.cons (.literal hk hl) (.cons (.code (by decide))
      (.cons (.literal hk hl) (.cons (.code (by decide)) .nil)))))) .nil
  | whenAbsent i h h' =>
    refine .cons (Mark.alike_openCode (by simp; decide)) (rel_append (alike_actions h) ?_)
    exact .cons (.reopening (.cons (.code (by decide)) .nil))
      (rel_append (alike_actions h') (.cons Mark.alike_close .nil))
  | whenGiven i h =>
    exact .cons (Mark.alike_openCode (by simp; decide)) (rel_append (alike_actions h) (.cons Mark.alike_close .nil))
  | newRecord => exact code (by decide)
  | newList n =>
    refine code ?_
    have hvars : ∀ s ∈ (List.range n).map fun i => "v" ++ natText i, Printable s :=
      List.forall_mem_map.mpr fun i _ => printable_append.mpr ⟨by decide, printable_natText i⟩
    have hlist : Printable (String.intercalate ", " _) := printable_intercalate (by decide) hvars
    simp only [printable_append, hlist, and_true]
    decide
  | put i hk hl => exact .cons (.line (alike_putPieces i hk hl)) .nil
  | putGiven i hk hl => exact .cons (.line (.cons (.code (by simp; decide)) (alike_putPieces i hk hl))) .nil
  | newRest => exact code (by decide)
  | keepEntries target h hchecks =>
    have htarget : Printable ("r.defineExtra(" ++ (if target = .out then "out" else "rest") ++ ", key, e);") := by
      cases target <;> decide
    refine rel_append (rel_append (rel_append (alike_switch h (by decide)) ?_) (alike_actions hchecks)) ?_
    · exact .cons Mark.alike_close (code (by decide))
    · exact .cons (Mark.alike_code htarget) (.cons Mark.alike_close .nil)
  | keepItems n h =>
    have hhead : Printable ("for (let i = " ++ natText n ++ "; i < args.length; i++) \x7b") := by simp; decide
    refine rel_append (rel_append ?_ (alike_actions h)) ?_
    · exact .cons (Mark.alike_openCode hhead) (code (by decide))
    · exact .cons (Mark.alike_code (by decide)) (.cons Mark.alike_close .nil)
  | pushRest => exact code (by decide)

theorem alike_marks {ss ts : List Stmt} (h : Forall₂ (Stmt.Alike a b) ss ts) :
    Forall₂ (Mark.Alike a b) (ss.flatMap marks) (ts.flatMap marks) := List.rel_flatMap h fun _ _ h => h.marks

end Stmt

/-! ## Programs -/

/-- Programs that bind the same and do alike. -/
structure Program.Alike (a b : Vocabulary) (g h : Program) : Prop where
  name : g.name = a.name
  name' : h.name = b.name
  bindings : g.bindings = h.bindings
  body : Forall₂ (Stmt.Alike a b) g.body h.body

theorem Binding.printable (x : Binding) : ∃ s, x.mark = .code s ∧ Printable s := by
  cases x with
  | capability i => exact ⟨_, rfl, by simp; decide⟩
  | default i => exact ⟨_, rfl, by simp; decide⟩
  | extraCapability => exact ⟨_, rfl, by decide⟩

/-- The texts of alike programs have alike lines. -/
theorem Program.Alike.lines {g h : Program} (hgh : g.Alike a b h) : Forall₂ (Line.Alike a b) g.lines h.lines := by
  refine Mark.alike_layout ?_ 0
  have hbindings : ∀ bs : List Binding, Forall₂ (Mark.Alike a b) (bs.map Binding.mark) (bs.map Binding.mark) := by
    intro bs
    rw [List.forall₂_same, List.forall_mem_map]
    intro x _
    obtain ⟨s, hs, hprint⟩ := x.printable
    rw [hs]
    exact Mark.alike_code hprint
  have hhead : Forall₂ (Piece.Alike a b) [.code "return function ", .routine g.name, .code "(args) \x7b"]
      [.code "return function ", .routine h.name, .code "(args) \x7b"] := by
    rw [hgh.name, hgh.name']
    exact .cons (.code (by decide)) (.cons .routine (.cons (.code (by decide)) .nil))
  rw [Program.marks, Program.marks, hgh.bindings]
  refine rel_append (rel_append ?_ (hbindings _)) (.cons (.opening hhead) (rel_append (Stmt.alike_marks hgh.body) ?_))
  · exact .cons (Mark.alike_code (by decide)) (.cons (Mark.alike_code (by decide)) .nil)
  · exact .cons (Mark.alike_code (by decide)) (.cons (.closing (.cons (.code (by decide)) .nil)) .nil)

/-! ## Plans -/

variable {σ : Type} {p q : Plan σ}

structure Capability.Alike (a b : Vocabulary) (c d : Capability σ) : Prop where
  coerces : c.coerce?.isSome = d.coerce?.isSome
  form : Option.Rel (Fragment.Alike a b) c.inline? d.inline?

theorem isSome_of_rel {α β : Type} {r : α → β → Prop} {x : Option α} {y : Option β} (h : Option.Rel r x y) :
    x.isSome = y.isSome := by
  cases h <;> rfl

theorem exists_of_rel {α β : Type} {r : α → β → Prop} {x : Option α} {y : Option β} (h : Option.Rel r x y) {u : α}
    (hu : x = some u) : ∃ v, y = some v ∧ r u v := by
  subst hu
  cases h with
  | some huv => exact ⟨_, rfl, huv⟩

/-- Checks run the coercion under the same circumstances. -/
theorem Capability.Alike.checks {c d : Capability σ} (h : c.Alike a b d) {f g : Fragment} (hfg : f.Alike a b g) (x : Var)
    (blame : Blame) : Forall₂ (Action.Alike a b) (Plan.checks c f x blame) (Plan.checks d g x blame) := by
  unfold Plan.checks
  rw [h.coerces]
  refine rel_append ?_ (.cons (.demand x blame hfg) .nil)
  split
  · exact .cons (.coerce x) .nil
  · exact .nil

inductive Default.Alike : Default σ → Default σ → Prop
  | none : Alike .none .none
  | value (v w : Value) : Alike (.value v) (.value w)
  | factory (i j : Nat) (m n : Call σ Value) : Alike (.factory i m) (.factory j n)

theorem Default.Alike.isGiven {x y : Default σ} (h : x.Alike y) : x.isGiven = y.isGiven := by cases h <;> rfl

inductive Fetch.Alike (a b : Vocabulary) : Fetch → Fetch → Prop
  | key {k l : String} : a.quoted k → b.quoted l → Alike a b (.key k) (.key l)
  | index (n : Nat) : Alike a b (.index n) (.index n)

structure Step.Alike (a b : Vocabulary) (s t : Step σ) : Prop where
  name : a.quoted s.name ∧ b.quoted t.name
  fetch : s.fetch.Alike a b t.fetch
  required : s.required = t.required
  default : s.default.Alike t.default
  type : s.type.Alike a b t.type

namespace Plan

theorem alike_settleStmts {s t : Step σ} (h : s.Alike a b t) {f g : Fragment} (hfg : f.Alike a b g) (i : Nat) :
    Forall₂ (Stmt.Alike a b) (settleStmts i s f) (settleStmts i t g) := by
  have hchecks := h.type.checks hfg (.step i) (.step i)
  have hdefault := h.default
  unfold settleStmts Step.isRequired
  rw [h.required]
  generalize s.default = x at *
  generalize t.default = y at *
  cases hdefault with
  | none =>
    dsimp only
    split
    · exact .cons (.act (.demandGiven i)) (List.rel_map (fun _ _ h => .act h) hchecks)
    · exact .cons (.whenGiven i hchecks) .nil
  | value => exact .cons (.whenAbsent i (.cons (.takeDefault i) .nil) hchecks) .nil
  | factory => exact .cons (.whenAbsent i (.cons (.makeDefault i) hchecks) hchecks) .nil

theorem alike_fetchStmt {x y : Fetch} (h : x.Alike a b y) (i : Nat) : (fetchStmt i x).Alike a b (fetchStmt i y) := by
  cases h with
  | key hk hl => exact .fetchKey i hk hl
  | index n => exact .fetchIndex i n

theorem stepStmts_of_inline {i : Nat} {s : Step σ} {f : Fragment} (h : s.type.inline? = some f) :
    stepStmts i s = .ok (fetchStmt i s.fetch :: settleStmts i s f) := by
  unfold stepStmts
  rw [inlineOf_ok.mpr h]
  rfl

theorem alike_stepStmts {s t : Step σ} (h : s.Alike a b t) {i : Nat} {out : List Stmt} (hout : stepStmts i s = .ok out) :
    ∃ out', stepStmts i t = .ok out' ∧ Forall₂ (Stmt.Alike a b) out out' := by
  obtain ⟨f, hf, rfl⟩ := stepStmts_ok hout
  obtain ⟨g, hg, hfg⟩ := exists_of_rel h.type.form hf
  exact ⟨_, stepStmts_of_inline hg, .cons (alike_fetchStmt h.fetch i) (alike_settleStmts h hfg i)⟩

/-- What is written for alike steps is alike, step by step. -/
theorem alike_stepsStmts {ss ts : List (Step σ)} (h : Forall₂ (Step.Alike a b) ss ts) {i : Nat} {out : List Stmt}
    (hout : stepsStmts i ss = .ok out) : ∃ out', stepsStmts i ts = .ok out' ∧ Forall₂ (Stmt.Alike a b) out out' := by
  induction h generalizing i out with
  | nil =>
    cases hout
    exact ⟨[], rfl, .nil⟩
  | cons h _ ih =>
    obtain ⟨here, rest, hhere, hrest, rfl⟩ := stepsStmts_cons_ok hout
    obtain ⟨here', hhere', halike⟩ := alike_stepStmts h hhere
    obtain ⟨rest', hrest', halikes⟩ := ih hrest
    refine ⟨here' ++ rest', ?_, rel_append halike halikes⟩
    simp only [stepsStmts, hhere', hrest', bind, Except.bind]

theorem alwaysGiven_alike {s t : Step σ} (h : s.Alike a b t) : alwaysGiven s = alwaysGiven t := by
  have hcoerces : s.type.coerce?.isNone = t.type.coerce?.isNone := by
    rw [← Option.not_isSome, ← Option.not_isSome, h.type.coerces]
  have hdefault := h.default
  unfold alwaysGiven Step.isRequired
  rw [hcoerces, h.required]
  generalize s.default = x at *
  generalize t.default = y at *
  cases hdefault <;> rfl

theorem alike_putStmts {ss ts : List (Step σ)} (h : Forall₂ (Step.Alike a b) ss ts) (i : Nat) :
    Forall₂ (Stmt.Alike a b) (putStmts i ss) (putStmts i ts) := by
  induction h generalizing i with
  | nil => exact .nil
  | cons h _ ih =>
    refine .cons ?_ (ih (i + 1))
    rw [alwaysGiven_alike h]
    split
    · exact .put i h.name.1 h.name.2
    · exact .putGiven i h.name.1 h.name.2

theorem alike_stepBindings {ss ts : List (Step σ)} (h : Forall₂ (Step.Alike a b) ss ts) (i : Nat) :
    stepBindings i ss = stepBindings i ts := by
  induction h generalizing i with
  | nil => rfl
  | cons h _ ih => rw [stepBindings, stepBindings, h.type.coerces, h.default.isGiven, ih]

end Plan

/-- Plans that differ in strings only. -/
structure Plan.Alike (a b : Vocabulary) (p q : Plan σ) : Prop where
  name : p.name = a.name
  name' : q.name = b.name
  sourceMode : p.sourceMode = q.sourceMode
  outputMode : p.outputMode = q.outputMode
  steps : Forall₂ (Step.Alike a b) p.steps q.steps
  rejects : p.extras.isReject = q.extras.isReject
  keeps : p.extras.isKeep = q.extras.isKeep
  extra : Option.Rel (Capability.Alike a b) p.extras.type? q.extras.type?

namespace Plan.Alike

theorem declared (h : p.Alike a b q) : a.Lists b p.declared q.declared := List.rel_map (fun _ _ h => h.name) h.steps

theorem shapeStmts (h : p.Alike a b q) : Forall₂ (Stmt.Alike a b) p.shapeStmts q.shapeStmts := by
  unfold Plan.shapeStmts
  rw [h.sourceMode, h.rejects, h.steps.length_eq]
  refine .cons (.demandShape _) ?_
  split
  · split
    · exact .cons (.refuseUnknown h.declared) .nil
    · exact .cons (.refuseExtra _) .nil
  · exact .nil

theorem outStmts (h : p.Alike a b q) : Forall₂ (Stmt.Alike a b) p.outStmts q.outStmts := by
  unfold Plan.outStmts
  rw [h.outputMode, h.steps.length_eq]
  split
  · exact .cons .newRecord (alike_putStmts h.steps 0)
  · exact .cons (.newList _) .nil

theorem extraChecks (h : p.Alike a b q) {blame : Blame} {xs : List Action} (hxs : p.extraChecks blame = .ok xs) :
    ∃ ys, q.extraChecks blame = .ok ys ∧ Forall₂ (Action.Alike a b) xs ys := by
  unfold Plan.extraChecks
  rcases extraChecks_ok hxs with ⟨ht, rfl⟩ | ⟨t, f, ht, hf, rfl⟩
  · have hu : q.extras.type? = none := by rw [← Option.not_isSome_iff_eq_none, ← isSome_of_rel h.extra, ht]; simp
    exact ⟨[], by rw [hu], .nil⟩
  · obtain ⟨u, hu, htype⟩ := exists_of_rel h.extra ht
    obtain ⟨g, hg, hfg⟩ := exists_of_rel htype.form hf
    exact ⟨_, by simp only [hu, inlineOf_ok.mpr hg, bind, Except.bind], htype.checks hfg _ _⟩

theorem extraStmts (h : p.Alike a b q) {out : List Stmt} (hout : p.extraStmts = .ok out) :
    ∃ out', q.extraStmts = .ok out' ∧ Forall₂ (Stmt.Alike a b) out out' := by
  unfold Plan.extraStmts
  rw [← h.sourceMode, ← h.outputMode, ← h.keeps, ← h.steps.length_eq]
  rcases extraStmts_ok hout with ⟨hk, rfl⟩ | ⟨hk, ⟨hm, xs, hxs, rfl⟩ | ⟨hm, xs, hxs, ⟨ho, rfl⟩ | ⟨ho, rfl⟩⟩⟩
  · exact ⟨[], by rw [hk]; rfl, .nil⟩
  all_goals
    obtain ⟨ys, hys, halike⟩ := h.extraChecks hxs
  · exact ⟨_, by simp only [hk, hm, hys, bind, Except.bind, if_true], .cons (.keepItems _ halike) .nil⟩
  · exact ⟨_, by simp only [hk, hm, ho, hys, bind, Except.bind, if_true],
      .cons (.keepEntries .out h.declared halike) .nil⟩
  · exact ⟨_, by simp only [hk, hm, ho, hys, bind, Except.bind, if_true],
      .cons .newRest (.cons (.keepEntries .rest h.declared halike) (.cons .pushRest .nil))⟩

theorem bindings (h : p.Alike a b q) : p.bindings = q.bindings := by
  have hextra := h.extra
  unfold Plan.bindings
  rw [alike_stepBindings h.steps]
  generalize p.extras.type? = t at *
  generalize q.extras.type? = u at *
  cases hextra with
  | none => rfl
  | some htype => simp only [htype.coerces]

/-- A plan that is like one with a program has a program like it. -/
theorem program (h : p.Alike a b q) {g : Program} (hg : p.program = .ok g) :
    ∃ g', q.program = .ok g' ∧ g.Alike a b g' := by
  obtain ⟨steps, extras, hsteps, hextras, rfl⟩ := program_ok hg
  obtain ⟨steps', hsteps', hlikeSteps⟩ := alike_stepsStmts h.steps hsteps
  obtain ⟨extras', hextras', hlikeExtras⟩ := h.extraStmts hextras
  refine ⟨⟨q.name, q.bindings, q.shapeStmts ++ steps' ++ q.outStmts ++ extras'⟩, ?_, h.name, h.name', h.bindings, ?_⟩
  · simp only [Plan.program, hsteps', hextras', bind, Except.bind]
  · exact rel_append (rel_append (rel_append h.shapeStmts hlikeSteps) h.outStmts) hlikeExtras

/-- Plans that are alike take the same path, be code generation allowed for both or for neither. -/
theorem strategy {set set' : ParameterSet σ} {o o' : Options σ} (h : (make set o).Alike a b (make set' o'))
    (hcodegen : o.codegen = o'.codegen) : (make set o).strategy = (make set' o').strategy := by
  have hsteps : (make set o).steps.all (·.inline) = (make set' o').steps.all (·.inline) := by
    have hall := h.steps
    generalize (make set o).steps = ss at *
    generalize (make set' o').steps = ts at *
    induction hall with
    | nil => rfl
    | cons hstep _ ih => rw [List.all_cons, List.all_cons, ih, Step.inline, isSome_of_rel hstep.type.form, ← Step.inline]
  have hextras : (extrasOf o).inline = (extrasOf o').inline := by
    have hextra : Option.Rel (Capability.Alike a b) (extrasOf o).type? (extrasOf o').type? := h.extra
    unfold Extras.inline
    generalize (extrasOf o).type? = t at *
    generalize (extrasOf o').type? = u at *
    cases hextra with
    | none => rfl
    | some htype => exact isSome_of_rel htype.form
  have hsome : (fallbackOf (make set o).steps (extrasOf o) o.codegen).isSome =
      (fallbackOf (make set' o').steps (extrasOf o') o'.codegen).isSome := by
    rw [isSome_fallbackOf, isSome_fallbackOf, hsteps, hextras, hcodegen]
  show (if (fallbackOf (make set o).steps (extrasOf o) o.codegen).isSome then Strategy.generic else .inline) =
    if (fallbackOf (make set' o').steps (extrasOf o') o'.codegen).isSome then .generic else .inline
  rw [hsome]

end Plan.Alike

end Alike

end ArgGuard
