/-
  ArgGuard.Proofs.Routine.Blocks — every block of a routine's text is closed.

  Marks are balanced when they are lines and whole blocks in sequence, a block being its
  arms between the line that opens it and the line that closes it (`Mark.Balanced`). Every
  statement writes balanced marks (`Stmt.balanced_marks`), and so does every program. Marks
  that are balanced never go below the depth they start at and end there (`depth_balanced`).
-/

import ArgGuard.Routine.Source

namespace ArgGuard

namespace Mark

/-- Lines and whole blocks in sequence. An arm after the first one has a line of its own, which
closes the arm before it. -/
inductive Balanced : List Mark → Prop
  | nil : Balanced []
  | line (t : List Piece) {ms : List Mark} : Balanced ms → Balanced (.line t :: ms)
  | block (t u : List Piece) {body ms : List Mark} {arms : List (List Piece × List Mark)} : Balanced body →
      (∀ a ∈ arms, Balanced a.2) → Balanced ms →
      Balanced (.opening t :: (body ++ arms.flatMap (fun a => .reopening a.1 :: a.2) ++ .closing u :: ms))

theorem depthAfter_append (depth : Int) (ms ns : List Mark) :
    depthAfter depth (ms ++ ns) = depthAfter (depthAfter depth ms) ns := by
  induction ms generalizing depth with
  | nil => rfl
  | cons m ms ih => simp [depthAfter, ih]

theorem Balanced.append {ms ns : List Mark} (h : Balanced ms) (hn : Balanced ns) : Balanced (ms ++ ns) := by
  induction h with
  | nil => exact hn
  | line t _ ih => exact .line t ih
  | block t u hbody harms _ _ _ ih =>
    have := Balanced.block t u hbody harms ih
    simpa only [List.cons_append, List.append_assoc] using this

theorem Balanced.of_lines {ms : List Mark} (h : ∀ m ∈ ms, ∃ t, m = .line t) : Balanced ms := by
  induction ms with
  | nil => exact .nil
  | cons m ms ih =>
    obtain ⟨t, rfl⟩ := h m List.mem_cons_self
    exact .line t (ih fun m hm => h m (List.mem_cons_of_mem _ hm))

theorem Balanced.flatMap {α : Type} {f : α → List Mark} {l : List α} (h : ∀ a ∈ l, Balanced (f a)) :
    Balanced (l.flatMap f) := by
  induction l with
  | nil => exact .nil
  | cons a l ih =>
    rw [List.flatMap_cons]
    exact (h a List.mem_cons_self).append (ih fun b hb => h b (List.mem_cons_of_mem _ hb))

/-- A block with one arm and nothing behind it. -/
theorem Balanced.single (t u : List Piece) {body : List Mark} (h : Balanced body) :
    Balanced (.opening t :: (body ++ [.closing u])) := by
  have := @Balanced.block t u body [] [] h (by simp) .nil
  simpa using this

/-! ## Depth -/

/-- Lines within a depth, which is left as it was. -/
def Keeps (depth : Int) (ms : List Mark) : Prop := depthAfter depth ms = depth ∧ ∀ l ∈ layout depth ms, depth ≤ l.depth

/-- Arms behind the first keep the depth within a block; their own lines stand outside it. -/
theorem keeps_arms {depth : Int} {arms : List (List Piece × List Mark)} (h : ∀ a ∈ arms, Keeps (depth + 1) a.2) :
    depthAfter (depth + 1) (arms.flatMap fun a => .reopening a.1 :: a.2) = depth + 1 ∧
      ∀ l ∈ layout (depth + 1) (arms.flatMap fun a => .reopening a.1 :: a.2), depth ≤ l.depth := by
  induction arms with
  | nil => exact ⟨rfl, by simp [layout]⟩
  | cons a arms ih =>
    obtain ⟨hdepth, hlines⟩ := ih fun b hb => h b (List.mem_cons_of_mem _ hb)
    obtain ⟨hafter, habove⟩ := h a List.mem_cons_self
    rw [List.flatMap_cons, List.cons_append]
    refine ⟨?_, fun l hl => ?_⟩
    · show depthAfter (depth + 1) (a.2 ++ _) = _
      rw [depthAfter_append, hafter, hdepth]
    · rcases List.mem_cons.mp hl with rfl | hl
      · show depth ≤ depth + 1 - 1
        omega
      · rw [show (place (depth + 1) (.reopening a.1)).2 = depth + 1 from rfl, layout_append, hafter] at hl
        rcases List.mem_append.mp hl with hl | hl
        · have := habove l hl
          omega
        · exact hlines l hl

/-- Balanced marks stay at their depth or above it, and come back to it. -/
theorem depth_balanced {ms : List Mark} (h : Balanced ms) (depth : Int) : Keeps depth ms := by
  induction h generalizing depth with
  | nil => exact ⟨rfl, by simp [layout]⟩
  | line t _ ih =>
    obtain ⟨hafter, habove⟩ := ih depth
    refine ⟨hafter, fun l hl => ?_⟩
    rcases List.mem_cons.mp hl with rfl | hl
    · exact Int.le_refl _
    · exact habove l hl
  | @block t u body ms arms _ _ _ ihbody iharms ih =>
    obtain ⟨hbody, hbodyLines⟩ := ihbody (depth + 1)
    obtain ⟨harms, harmsLines⟩ := keeps_arms fun a ha => iharms a ha (depth + 1)
    obtain ⟨hafter, habove⟩ := ih depth
    have hclose : place (depth + 1) (.closing u) = (⟨depth, u⟩, depth) := by simp [place]
    refine ⟨?_, fun l hl => ?_⟩
    · show depthAfter (depth + 1) (body ++ _ ++ .closing u :: ms) = depth
      rw [depthAfter_append, depthAfter_append, hbody, harms, depthAfter, hclose]
      exact hafter
    · rcases List.mem_cons.mp hl with rfl | hl
      · exact Int.le_refl _
      rw [show (place depth (.opening t)).2 = depth + 1 from rfl, layout_append, layout_append, depthAfter_append, hbody,
        harms] at hl
      rcases List.mem_append.mp hl with hl | hl
      · rcases List.mem_append.mp hl with hl | hl
        · have := hbodyLines l hl
          omega
        · exact harmsLines l hl
      · rw [layout, hclose] at hl
        rcases List.mem_cons.mp hl with rfl | hl
        · exact Int.le_refl _
        · exact habove l hl

end Mark

/-! ## Programs -/

open Mark (Balanced)

theorem Action.balanced_marks (as : List Action) : Balanced (as.map Action.mark) := by
  refine .of_lines fun m hm => ?_
  obtain ⟨a, _, rfl⟩ := List.mem_map.mp hm
  cases a <;> exact ⟨_, rfl⟩

theorem Stmt.balanced_cases (names : List String) (s : String) :
    Balanced (names.map Stmt.caseMark ++ if names.isEmpty then [] else [.code s]) := by
  refine .of_lines fun m hm => ?_
  rcases List.mem_append.mp hm with hm | hm
  · obtain ⟨n, _, rfl⟩ := List.mem_map.mp hm
    exact ⟨_, rfl⟩
  · split at hm
    · cases hm
    · cases List.mem_singleton.mp hm
      exact ⟨_, rfl⟩

/-- A statement opens no block that it does not close. -/
theorem Stmt.balanced_marks (s : Stmt) : Balanced s.marks := by
  cases s with
  | act a => exact Action.balanced_marks [a]
  | demandShape mode => cases mode <;> exact .line _ .nil
  | refuseUnknown names =>
    have hswitch : Balanced (.openCode "switch (key) \x7b" :: ((names.map caseMark ++
        (if names.isEmpty then [] else [.code "  break;"]) ++
        [.code "default:", .code "  r.unknown(key);"]) ++ [.close])) :=
      .single _ _ ((balanced_cases names _).append (.line _ (.line _ .nil)))
    have := Balanced.single [.code "for (const key of Object.keys(args)) \x7b"] [.code "\x7d"] hswitch
    simpa [marks, eachKey, switchKey, Mark.openCode, Mark.close] using this
  | refuseExtra n => exact .line _ .nil
  | fetchIndex i n => exact .line _ .nil
  | fetchKey i k => exact .line _ .nil
  | whenAbsent i absent given =>
    have hgiven : ∀ a ∈ [([Piece.code "\x7d else \x7b"], given.map Action.mark)], Balanced a.2 := by
      simpa using Action.balanced_marks given
    have := Balanced.block [.code ("if (v" ++ Text.natText i ++ " === undefined) \x7b")] [.code "\x7d"]
      (Action.balanced_marks absent) hgiven .nil
    simpa [marks, Mark.openCode, Mark.close] using this
  | whenGiven i given => exact .single _ _ (Action.balanced_marks given)
  | newRecord => exact .line _ .nil
  | newList count => exact .line _ .nil
  | put i name => exact .line _ .nil
  | putGiven i name => exact .line _ .nil
  | newRest => exact .line _ .nil
  | keepEntries names checks target =>
    have hswitch : Balanced (.openCode "switch (key) \x7b" :: ((names.map caseMark ++
        (if names.isEmpty then [] else [.code "  continue;"])) ++ [.close])) :=
      .single _ _ (balanced_cases names _)
    have hrest : Balanced (.code "let e = args[key];" :: (checks.map Action.mark ++
        [.code ("r.defineExtra(" ++ (if target = .out then "out" else "rest") ++ ", key, e);")])) :=
      .line _ ((Action.balanced_marks checks).append (.line _ .nil))
    have := Balanced.single [.code "for (const key of Object.keys(args)) \x7b"] [.code "\x7d"] (hswitch.append hrest)
    simpa [marks, eachKey, switchKey, Mark.openCode, Mark.close] using this
  | keepItems first checks =>
    have := Balanced.single [.code ("for (let i = " ++ Text.natText first ++ "; i < args.length; i++) \x7b")]
      [.code "\x7d"] (Balanced.line [.code "let e = args[i];"]
        ((Action.balanced_marks checks).append (.line [.code "out.push(e);"] .nil)))
    simpa [marks, Mark.openCode, Mark.close, Mark.code] using this
  | pushRest => exact .line _ .nil

/-- The text of a program is lines and one block, which is closed. -/
theorem Program.balanced_marks (g : Program) : Balanced g.marks := by
  have hbindings : Balanced (g.bindings.map Binding.mark) := by
    refine .of_lines fun m hm => ?_
    obtain ⟨b, _, rfl⟩ := List.mem_map.mp hm
    cases b <;> exact ⟨_, rfl⟩
  have hbody : Balanced (g.body.flatMap Stmt.marks ++ [.code "return out;"]) :=
    (Balanced.flatMap fun s _ => s.balanced_marks).append (.line _ .nil)
  have hroutine := Balanced.single [.code "return function ", .routine g.name, .code "(args) \x7b"] [.code "\x7d;"] hbody
  have := (Balanced.line [.code "\"use strict\";"] (.line [.code "const r = scope.r;"] hbindings)).append hroutine
  simpa [marks, Mark.code] using this

/-- No line of a program is indented to a negative depth, and the last one is at none. -/
theorem Program.depth_marks (g : Program) : Mark.depthAfter 0 g.marks = 0 ∧ ∀ l ∈ g.lines, 0 ≤ l.depth :=
  Mark.depth_balanced g.balanced_marks 0

end ArgGuard
