/-
# One pass lays out what counting accepts

At any moment of the pass the heads that wait for arguments are nested: behind each of them stand the
arguments that it already has, completely laid out, and behind these the next head that waits. So the
term that has just ended is the next argument of the innermost one, and to write its end back never
touches a cell of a term that is complete.

The stack tells how many terms are still missing, namely what counting from the left says. So the pass
stops with the same fault as counting does, or else in cells that are laid out as one term.
-/
import SaturationCore.Flatterm.OnePass
import SaturationCore.Proofs.Spelling

namespace SaturationCore

variable {cells term : List Cell} {pending : List Pending} {n p q stop : Nat} {hs : List Head}
  {h : Head}

/-- The heads determine the cells that they are laid out as. -/
theorem Layout.eq_of_heads {cells' : List Cell} {q' : Nat} (l : Layout p n cells q)
    (l' : Layout p n cells' q') (heads : cells.map (·.head) = cells'.map (·.head)) :
    cells = cells' := by
  induction l generalizing cells' q' with
  | none =>
      cases l'
      rfl
  | @term p n q r h args rest lArgs lRest ihArgs ihRest =>
      cases l' with
      | @term _ _ q₂ _ h₂ args₂ rest₂ lArgs₂ lRest₂ =>
          rw [List.map_cons, List.map_cons, List.map_append, List.map_append,
            List.cons.injEq] at heads
          obtain ⟨same, heads⟩ := heads
          obtain rfl : h = h₂ := same
          obtain ⟨headsArgs, headsRest⟩ := lArgs.spells.cancel lArgs₂.spells heads
          obtain rfl : args = args₂ := ihArgs lArgs₂ headsArgs
          obtain rfl : q = q₂ := lArgs.stop_eq.trans lArgs₂.stop_eq.symm
          obtain rfl : rest = rest₂ := ihRest lRest₂ headsRest
          rfl

/-- What comes off a stack of trees is what they spell. -/
theorem Term.takeHeads_eq (stack : List Term) : takeHeads stack = stack.flatMap spelling := by
  induction stack using takeHeads.induct with
  | case1 stack none =>
      cases stack with
      | nil => rw [takeHeads, none, List.flatMap_nil]
      | cons t stack => cases none
  | case2 stack h rest taken ih =>
      cases stack with
      | nil => cases taken
      | cons t stack =>
          rw [takeHeads, taken]
          dsimp only
          cases taken
          rw [ih, List.flatMap_append, List.flatMap_cons, spelling_eq t, List.cons_append]

theorem Term.takeHeads_single (t : Term) : takeHeads [t] = t.spelling := by
  rw [takeHeads_eq, List.flatMap_singleton]

namespace Pass

/-- `Nested cells pending n` says that the cells are those of heads one inside the other, which wait
for arguments as the stack tells, and that `n` terms are missing behind the next one. Behind each head
stand the arguments that it has; where it ends is not known. -/
inductive Nested : List Cell → List Pending → Nat → Prop where
  | nil : Nested [] [] 0
  | head {outer args : List Cell} {pending : List Pending} {n had missing unset q : Nat} {h : Head} :
      Nested outer pending n → Layout (outer.length + 1) had args q →
      had + (missing + 1) = h.arity →
      Nested (outer ++ ⟨h, unset⟩ :: args) (⟨outer.length, missing + 1⟩ :: pending) (n + missing)

/-- A pass that has made the cells of some heads and misses so many terms. -/
inductive Reached : Pass → Nat → Prop where
  | inside {cells : Array Cell} {pending : List Pending} {n : Nat} :
      Nested cells.toList pending n → Reached ⟨cells, pending, false⟩ (n + 1)
  | complete {cells : Array Cell} : Layout 0 1 cells.toList cells.size →
      Reached ⟨cells, [], true⟩ 0

/-- The heads that have been read. -/
def heads (s : Pass) : List Head :=
  s.cells.toList.map (·.head)

/-- Writing an end back changes the cell of the head and none before or behind it. -/
theorem toList_endAt {cells : Array Cell} {front back : List Cell} {cell : Cell}
    (split : cells.toList = front ++ cell :: back) (stop : Nat) :
    (endAt stop cells front.length).toList = front ++ ⟨cell.head, stop⟩ :: back := by
  rw [endAt, Array.toList_modify, split]
  exact List.modifyTailIdx_add _ 0 front (cell :: back)

theorem size_endAt (stop : Nat) (cells : Array Cell) (i : Nat) :
    (endAt stop cells i).size = cells.size :=
  Array.size_modify

/-- When a term ends, it counts as an argument of the head around it, or all is complete. -/
theorem close_nested {all : Array Cell} (nested : Nested cells pending n)
    (split : all.toList = cells ++ term) (ended : Layout cells.length 1 term all.size) :
    ∃ s, close all.size all pending = .ok s ∧ s.Reached n ∧
      s.heads = all.toList.map (·.head) := by
  induction nested generalizing term all with
  | nil =>
      rw [List.nil_append] at split
      exact ⟨⟨all, [], true⟩, rfl, .complete (split ▸ ended), rfl⟩
  | @head outer args pending n had missing unset q h nested lArgs arity ih =>
      have stop := lArgs.stop_eq
      have here : (outer ++ ⟨h, unset⟩ :: args).length = q := by
        rw [stop, List.length_append, List.length_cons]
        omega
      rw [here] at ended
      have row := lArgs.append ended
      have split' : all.toList = outer ++ ⟨h, unset⟩ :: (args ++ term) := by
        rw [split, List.append_assoc, List.cons_append]
      cases missing with
      | zero =>
          -- The head had missed just this argument, so its own term ends here as well.
          have written := toList_endAt split' all.size
          have whole : Layout outer.length 1 (⟨h, all.size⟩ :: (args ++ term)) all.size := by
            have key := Layout.term (arity ▸ row) (.none all.size)
            rwa [List.append_nil] at key
          obtain ⟨s, made, reached, same⟩ := ih written (by rwa [size_endAt])
          rw [size_endAt] at made
          have inside : outer.length < all.size := by
            rw [← Array.length_toList, split', List.length_append, List.length_cons]
            omega
          refine ⟨s, ?_, reached, ?_⟩
          · rw [close, if_pos inside, made]
          · rw [same, written, split', List.map_append, List.map_append]
            rfl
      | succ missing =>
          refine ⟨_, rfl, .inside ?_, rfl⟩
          rw [split']
          exact .head nested row (by omega)

theorem push_eq {s : Pass} (inside : s.complete = false) (h : Head) :
    s.push h = if 0 < h.arity then
      .ok { s with cells := s.cells.push ⟨h, 0⟩, pending := ⟨s.cells.size, h.arity⟩ :: s.pending }
    else
      let stop := (s.cells.size + 1) % (1 <<< 32)
      close stop (endAt stop (s.cells.push ⟨h, 0⟩) s.cells.size) s.pending := by
  rw [push, inside]
  rfl

/-- Reading a head goes on just as counting does. -/
theorem push_reached {s : Pass} (reached : s.Reached (n + 1)) (h : Head)
    (short : s.cells.size + 1 < 1 <<< 32) :
    ∃ s', s.push h = .ok s' ∧ s'.Reached (n + h.arity) ∧ s'.heads = s.heads ++ [h] := by
  cases reached with
  | @inside cells pending _ nested =>
      have pushed (after : Nat) : (cells.push ⟨h, after⟩).toList = cells.toList ++ [⟨h, after⟩] :=
        Array.toList_push
      rw [push_eq rfl]
      by_cases waits : 0 < h.arity
      · obtain ⟨missing, arity⟩ := Nat.exists_eq_succ_of_ne_zero (Nat.ne_of_gt waits)
        have deeper : Nested (cells.toList ++ [⟨h, 0⟩])
            (⟨cells.toList.length, missing + 1⟩ :: pending) (n + missing) :=
          .head nested (.none _) (by omega)
        rw [if_pos waits, arity]
        refine ⟨_, rfl, .inside ?_, ?_⟩
        · rwa [pushed]
        · rw [heads, pushed, List.map_append]
          rfl
      · have leaf : h.arity = 0 := Nat.eq_zero_of_not_pos waits
        have written := toList_endAt (pushed 0) (cells.size + 1)
        rw [Array.length_toList] at written
        have size : (endAt (cells.size + 1) (cells.push ⟨h, 0⟩) cells.size).size =
            cells.size + 1 := by
          rw [size_endAt, Array.size_push]
        have term : Layout cells.toList.length 1 [⟨h, cells.size + 1⟩] (cells.size + 1) :=
          @Layout.term _ _ _ _ _ [] [] (leaf ▸ .none _) (.none _)
        obtain ⟨s', made, reached, same⟩ := close_nested nested written (by rwa [size])
        rw [size] at made
        simp only [if_neg waits, Nat.mod_eq_of_lt short]
        refine ⟨s', made, by rwa [leaf], ?_⟩
        rw [same, written, List.map_append]
        rfl

/-- Reading on ends as counting on does. -/
theorem foldlM_push {s : Pass} (reached : s.Reached n) (short : s.cells.size + hs.length < 1 <<< 32) :
    (∃ s' m, hs.foldlM push s = .ok s' ∧ s'.Reached m ∧ s'.heads = s.heads ++ hs ∧
      Flatterm.scan n hs = Flatterm.scan m []) ∨
    ∃ fault, hs.foldlM push s = .error fault ∧ Flatterm.scan n hs = .error fault := by
  induction hs generalizing s n with
  | nil => exact .inl ⟨s, n, rfl, reached, (List.append_nil _).symm, rfl⟩
  | cons h hs ih =>
      rw [List.length_cons] at short
      cases n with
      | zero =>
          cases reached
          exact .inr ⟨.sequenceContinues, rfl, rfl⟩
      | succ n =>
          obtain ⟨s', made, reached', same⟩ := push_reached reached h (by omega)
          have grown : s'.cells.size = s.cells.size + 1 := by
            simpa [heads] using congrArg List.length same
          have onward : (h :: hs).foldlM push s = hs.foldlM push s' := by
            rw [List.foldlM_cons, made]
            rfl
          rw [onward, Flatterm.scan]
          obtain ⟨last, m, run, reachedLast, sameLast, counted⟩ | refused :=
            ih reached' (by omega)
          · refine .inl ⟨last, m, run, reachedLast, ?_, counted⟩
            rw [sameLast, same, List.append_assoc]
            rfl
          · exact .inr refused

theorem reached_start : start.Reached 1 :=
  .inside .nil

end Pass

namespace Flatterm

/-- One pass refuses a sequence as counting does, and lays out the others. -/
theorem layOutInOnePass_spec (short : hs.length < 1 <<< 32) :
    (∃ cells, layOutInOnePass hs = .ok cells ∧ scan 1 hs = .ok () ∧
      Layout 0 1 cells.toList cells.size ∧ cells.toList.map (·.head) = hs) ∨
    ∃ fault, layOutInOnePass hs = .error fault ∧ scan 1 hs = .error fault := by
  obtain ⟨s, m, run, reached, same, counted⟩ | ⟨fault, run, counted⟩ :=
    Pass.foldlM_push Pass.reached_start (by simpa [Pass.start] using short)
  · rw [layOutInOnePass, run]
    cases reached with
    | complete layout => exact .inl ⟨_, rfl, counted, layout, same⟩
    | inside => exact .inr ⟨.sequenceStops, rfl, counted⟩
  · refine .inr ⟨fault, ?_, counted⟩
    rw [layOutInOnePass, run]
    rfl

end Flatterm

end SaturationCore
