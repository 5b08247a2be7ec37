/-
# Flatterms

A flatterm stores a term as its heads in prefix order. Every cell also records
the position one past the subterm that starts there, so skipping a subterm takes
one step.

`Layout` says what such a sequence of cells is, and every flatterm carries a
proof that its cells are laid out as exactly one term. The two ways in which a
sequence of heads can fail to be one term are told apart by counting from the
left how many subterms are still missing; the ends of the subterms are found from
the right, where all arguments of a head are already laid out.
-/
import SaturationCore.Fault

namespace SaturationCore

/-- A head together with the position one past the subterm that it starts. -/
structure Cell where
  head : Head
  after : Nat
deriving DecidableEq, Repr

/-- `Layout start count cells stop` says that `cells` are `count` complete terms
one behind the other, at the positions from `start` up to `stop`. -/
inductive Layout : Nat → Nat → List Cell → Nat → Prop where
  | none (p : Nat) : Layout p 0 [] p
  | term {p n q r : Nat} {h : Head} {args rest : List Cell} :
      Layout (p + 1) h.arity args q → Layout q n rest r →
      Layout p (n + 1) (⟨h, q⟩ :: (args ++ rest)) r

namespace Layout

/-- The positions are consecutive. -/
theorem stop_eq {p n q : Nat} {cells : List Cell} (l : Layout p n cells q) :
    q = p + cells.length := by
  induction l with
  | none => simp
  | term _ _ ihArgs ihRest => simp only [List.length_cons, List.length_append]; omega

/-- There are at least as many cells as terms. -/
theorem count_le_length {p n q : Nat} {cells : List Cell} (l : Layout p n cells q) :
    n ≤ cells.length := by
  induction l with
  | none => simp
  | term _ _ _ ihRest => simp only [List.length_cons, List.length_append]; omega

/-- Terms laid out behind others are laid out together with them. -/
theorem append {p n q m r : Nat} {cells more : List Cell}
    (l : Layout p n cells q) (l' : Layout q m more r) : Layout p (n + m) (cells ++ more) r := by
  induction l with
  | none => simpa using l'
  | @term p n q r h args rest lArgs lRest _ ih =>
    have key := Layout.term lArgs (ih l')
    have cells : ⟨h, q⟩ :: (args ++ rest) ++ more = ⟨h, q⟩ :: (args ++ (rest ++ more)) := by simp
    rw [cells, Nat.add_right_comm]
    exact key

/-- The cell at any place starts a complete term that ends inside the layout. -/
theorem at_index {p n q : Nat} {cells : List Cell} (l : Layout p n cells q) {i : Nat}
    (hi : i < cells.length) :
    ∃ args more, cells.drop i = cells[i] :: (args ++ more) ∧
      Layout (p + i + 1) cells[i].head.arity args cells[i].after ∧ cells[i].after ≤ q := by
  induction l generalizing i with
  | none => simp at hi
  | @term p n q r h args rest lArgs lRest ihArgs ihRest =>
    have stopArgs := lArgs.stop_eq
    have stopRest := lRest.stop_eq
    match i with
    | 0 => exact ⟨args, rest, by simp, by simpa using lArgs, by simp; omega⟩
    | i + 1 =>
      simp only [List.length_cons, List.length_append] at hi
      by_cases inside : i < args.length
      · obtain ⟨inner, more, hdrop, hlay, hle⟩ := ihArgs inside
        refine ⟨inner, more ++ rest, ?_, ?_, ?_⟩
        · simp [List.drop_append_of_le_length (Nat.le_of_lt inside), hdrop,
            List.getElem_append_left inside]
        · simpa [List.getElem_append_left inside, Nat.add_assoc, Nat.add_comm 1 i] using hlay
        · simp only [List.getElem_cons_succ, List.getElem_append_left inside]; omega
      · have behind : i - args.length < rest.length := by omega
        obtain ⟨inner, more, hdrop, hlay, hle⟩ := ihRest behind
        have within : i < (args ++ rest).length := by simp; omega
        have hget : (args ++ rest)[i] = rest[i - args.length] :=
          List.getElem_append_right (by omega)
        have hpos : q + (i - args.length) + 1 = p + (i + 1) + 1 := by omega
        refine ⟨inner, more, ?_, ?_, ?_⟩
        · simp [List.drop_append, List.drop_eq_nil_of_le (Nat.le_of_not_lt inside), hdrop, hget]
        · simpa [hget, ← hpos] using hlay
        · simpa [hget] using hle

end Layout

/-- A term stored as cells in prefix order. -/
structure Flatterm where
  cells : Array Cell
  layout : Layout 0 1 cells.toList cells.size

namespace Flatterm

@[ext]
theorem ext {a b : Flatterm} (h : a.cells = b.cells) : a = b := by
  cases a; cases b; cases h; rfl

instance : DecidableEq Flatterm := fun a b =>
  decidable_of_iff (a.cells = b.cells) ⟨ext, fun h => h ▸ rfl⟩

/-- How many cells there are. -/
abbrev size (t : Flatterm) : Nat :=
  t.cells.size

/-- There is at least the cell of the root. -/
theorem size_pos (t : Flatterm) : 0 < t.size :=
  t.layout.count_le_length

/-- The position one past the subterm that starts at `p`; beyond the cells,
where nothing starts, the next position. -/
def after (t : Flatterm) (p : Nat) : Nat :=
  (t.cells[p]?.map (·.after)).getD (p + 1)

/-- The head at a position, if there is a cell. -/
def head? (t : Flatterm) (p : Nat) : Option Head :=
  t.cells[p]?.map (·.head)

/-- The heads in prefix order. -/
def spelling (t : Flatterm) : List Head :=
  t.cells.toList.map (·.head)

/-- The cell at a position starts a complete term that ends inside. -/
theorem layout_at (t : Flatterm) {p : Nat} (hp : p < t.size) :
    ∃ args more, t.cells.toList.drop p = t.cells[p] :: (args ++ more) ∧
      Layout (p + 1) t.cells[p].head.arity args t.cells[p].after ∧ t.cells[p].after ≤ t.size := by
  have key := t.layout.at_index hp
  simp only [Array.getElem_toList, Nat.zero_add] at key
  exact key

theorem after_eq (t : Flatterm) {p : Nat} (hp : p < t.size) : t.after p = t.cells[p].after := by
  simp only [after, Array.getElem?_eq_getElem hp, Option.map_some, Option.getD_some]

/-- A subterm has at least one cell. -/
theorem lt_after (t : Flatterm) (p : Nat) : p < t.after p := by
  by_cases hp : p < t.size
  · obtain ⟨args, _, _, hlay, _⟩ := t.layout_at hp
    have := hlay.stop_eq
    rw [t.after_eq hp]
    omega
  · have : t.cells[p]? = none := Array.getElem?_eq_none (Nat.le_of_not_lt hp)
    simp [after, this]

/-- A subterm ends inside its flatterm. -/
theorem after_le_size (t : Flatterm) {p : Nat} (hp : p < t.size) : t.after p ≤ t.size := by
  obtain ⟨_, _, _, _, hle⟩ := t.layout_at hp
  rwa [t.after_eq hp]

/-- Count through a sequence of heads from the left while `missing` terms are
still to come, and say whether the last of them ends together with it. -/
def scan : (missing : Nat) → List Head → Checked Unit
  | 0, [] => .ok ()
  | _ + 1, [] => .error .sequenceStops
  | 0, _ :: _ => .error .sequenceContinues
  | missing + 1, h :: rest => scan (missing + h.arity) rest

/-- Where a term starting at `p` stops, given the ends of the terms behind its
head: behind the head itself, or with its last argument. -/
def stopOf (p arity : Nat) (ends : List Nat) : Option Nat :=
  if arity = 0 then some (p + 1) else ends[arity - 1]?

/-- The cells of a sequence of heads from position `p` on, with the ends of the
terms that the sequence consists of. There are none if arguments are missing. -/
def layOut : (p : Nat) → List Head → Option (List Cell × List Nat)
  | _, [] => some ([], [])
  | p, h :: rest => do
    let (cells, ends) ← layOut (p + 1) rest
    let stop ← stopOf p h.arity ends
    return (⟨h, stop⟩ :: cells, stop :: ends.drop h.arity)

/-- Consecutive terms from `p` on, given by their ends. -/
private inductive Ending : Nat → List Cell → List Nat → Prop where
  | none (p : Nat) : Ending p [] []
  | term {p q : Nat} {cells rest : List Cell} {ends : List Nat} :
      Layout p 1 cells q → Ending q rest ends → Ending p (cells ++ rest) (q :: ends)

private theorem Ending.take {p k stop : Nat} {cells : List Cell} {ends : List Nat}
    (e : Ending p cells ends) (h : ends[k]? = some stop) :
    ∃ args rest, cells = args ++ rest ∧ Layout p (k + 1) args stop ∧
      Ending stop rest (ends.drop (k + 1)) := by
  induction k generalizing p cells ends with
  | zero =>
    cases e with
    | none => simp at h
    | term l e =>
      simp only [List.getElem?_cons_zero, Option.some.injEq] at h
      subst h
      exact ⟨_, _, rfl, l, by simpa using e⟩
  | succ k ih =>
    cases e with
    | none => simp at h
    | term l e =>
      obtain ⟨args, rest, rfl, lay, tail⟩ := ih e (by simpa using h)
      refine ⟨_, rest, (List.append_assoc ..).symm, ?_, by simpa using tail⟩
      rw [Nat.add_comm (k + 1) 1]
      exact l.append lay

private theorem ending_of_layOut {p : Nat} {hs : List Head} {cells : List Cell}
    {ends : List Nat} (h : layOut p hs = some (cells, ends)) : Ending p cells ends := by
  induction hs generalizing p cells ends with
  | nil =>
    simp only [layOut, Option.some.injEq, Prod.mk.injEq] at h
    obtain ⟨rfl, rfl⟩ := h
    exact .none p
  | cons head hs ih =>
    simp only [layOut, Option.bind_eq_bind, Option.bind_eq_some_iff, Prod.exists,
      Option.pure_def, Option.some.injEq, Prod.mk.injEq] at h
    obtain ⟨inner, innerEnds, hinner, stop, hstop, rfl, rfl⟩ := h
    have e := ih hinner
    by_cases leaf : head.arity = 0
    · simp only [stopOf, leaf, if_true, Option.some.injEq] at hstop
      subst hstop
      have root : Layout p 1 ([⟨head, p + 1⟩] ++ []) (p + 1) :=
        @Layout.term _ _ _ _ _ [] [] (leaf ▸ .none (p + 1)) (.none (p + 1))
      simpa [leaf] using Ending.term root e
    · simp only [stopOf, leaf, if_false] at hstop
      obtain ⟨args, rest, rfl, lay, tail⟩ := e.take hstop
      have arity : head.arity - 1 + 1 = head.arity := by omega
      rw [arity] at lay tail
      have root : Layout p 1 (⟨head, stop⟩ :: (args ++ [])) stop := .term lay (.none stop)
      simpa using Ending.term root tail

/-- When all cells together are one term, they are laid out as a flatterm is. -/
theorem layout_of_layOut {hs : List Head} {cells : List Cell} {stop : Nat}
    (h : layOut 0 hs = some (cells, [stop])) :
    Layout 0 1 cells.toArray.toList cells.toArray.size := by
  have e := ending_of_layOut h
  cases e with
  | term l tail =>
    cases tail with
    | none =>
      have := l.stop_eq
      simpa [this] using l

/-- The flatterm of a sequence of heads that spells exactly one term. -/
def ofSpelling (hs : List Head) : Checked Flatterm := do
  scan 1 hs
  match h : layOut 0 hs with
  | some (cells, [_]) => return ⟨cells.toArray, layout_of_layOut h⟩
  | _ => .error .sequenceStops

private theorem heads_of_layOut {p : Nat} {hs : List Head} {cells : List Cell} {ends : List Nat}
    (h : layOut p hs = some (cells, ends)) : cells.map (·.head) = hs := by
  induction hs generalizing p cells ends with
  | nil =>
    simp only [layOut, Option.some.injEq, Prod.mk.injEq] at h
    obtain ⟨rfl, -⟩ := h
    rfl
  | cons head hs ih =>
    simp only [layOut, Option.bind_eq_bind, Option.bind_eq_some_iff, Prod.exists,
      Option.pure_def, Option.some.injEq, Prod.mk.injEq] at h
    obtain ⟨inner, innerEnds, hinner, stop, -, rfl, -⟩ := h
    simp [ih hinner]

/-- A flatterm is spelled by the heads that it was made from. -/
theorem spelling_ofSpelling {hs : List Head} {t : Flatterm} (h : ofSpelling hs = .ok t) :
    t.spelling = hs := by
  simp only [ofSpelling, bind, Except.bind] at h
  split at h
  · cases h
  · split at h
    · rename_i cells stop laid
      cases h
      simpa [spelling] using heads_of_layOut laid
    · cases h

/-- The flatterm that consists of a variable. -/
def ofVariable (v : Variable) : Flatterm where
  cells := #[⟨.var v, 1⟩]
  layout := @Layout.term _ _ _ _ _ [] [] (.none 1) (.none 1)

end Flatterm

end SaturationCore
