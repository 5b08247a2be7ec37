/-
# Subterms

A subterm is a position in a flatterm. It shares the cells of the whole, so
taking an argument costs nothing; two subterms count as equal when they spell
the same heads, wherever they stand.

The sizes of the arguments add up to one less than the size of the whole. Every
recursion over subterms ends because of that.
-/
import SaturationCore.Flatterm.Basic
import SaturationCore.Term.Basic

namespace SaturationCore

/-- The subterm that starts at a position of a flatterm. -/
structure Subterm where
  whole : Flatterm
  pos : Nat
  pos_lt : pos < whole.size

namespace Subterm

/-- A whole flatterm as a subterm. -/
def ofFlatterm (t : Flatterm) : Subterm :=
  ⟨t, 0, t.size_pos⟩

/-- The subterm at a position, which has to lie inside. -/
def at? (t : Flatterm) (pos : Nat) : Option Subterm :=
  if h : pos < t.size then some ⟨t, pos, h⟩ else none

/-- The subterm that consists of a variable. -/
def ofVariable (v : Variable) : Subterm :=
  ofFlatterm (.ofVariable v)

/-- The subterm that a sequence of heads spells. -/
def ofSpelling (hs : List Head) : Checked Subterm :=
  return ofFlatterm (← Flatterm.ofSpelling hs)

/-- A tree term laid out in cells. -/
def ofTerm (t : Term) : Checked Subterm :=
  ofSpelling t.spelling

/-- The position one past the subterm. -/
def stop (s : Subterm) : Nat :=
  s.whole.after s.pos

/-- How many cells the subterm has. -/
def size (s : Subterm) : Nat :=
  s.stop - s.pos

/-- The cell of the root. -/
def root (s : Subterm) : Cell :=
  have := s.pos_lt
  s.whole.cells[s.pos]

/-- What stands at the root of the subterm. -/
def head (s : Subterm) : Head :=
  s.root.head

/-- The variable that the subterm consists of. -/
def asVariable (s : Subterm) : Option Variable :=
  s.head.asVariable

/-- The cells of the subterm. -/
def cells (s : Subterm) : List Cell :=
  (s.whole.cells.extract s.pos s.stop).toList

/-- The heads of the subterm in prefix order. -/
def spelling (s : Subterm) : List Head :=
  s.cells.map (·.head)

instance : BEq Subterm where
  beq a b := a.spelling == b.spelling

/-- The given number of subterms one behind the other, from a position on. -/
def consecutive (t : Flatterm) : (pos count : Nat) → List Subterm
  | _, 0 => []
  | pos, count + 1 =>
    if h : pos < t.size then ⟨t, pos, h⟩ :: consecutive t (t.after pos) count else []

/-- The immediate arguments. The first starts directly behind the head. -/
def args (s : Subterm) : List Subterm :=
  consecutive s.whole (s.pos + 1) s.head.arity

/-- The argument of a given number, counted from zero. -/
def arg (s : Subterm) (n : Nat) : Checked Subterm :=
  match s.args[n]? with
  | some a => .ok a
  | none => .error (.argumentOutOfRange n s.head.arity)

/-- Whether the variable stands at a leaf of the subterm, bound or not. -/
def mentions (s : Subterm) (v : Variable) : Bool :=
  s.spelling.any (· == .var v)

theorem mentions_iff_mem {s : Subterm} {v : Variable} :
    s.mentions v = true ↔ .var v ∈ s.spelling := by
  simp [mentions]

/-- Whether neither quantifier nor abstraction occurs in the subterm. -/
def isQuantifierFree (s : Subterm) : Bool :=
  !s.spelling.any (·.isBinder)

/-- The variables at the leaves, bound or not, each once and in order of first
occurrence. -/
def leafVariables (s : Subterm) : List Variable :=
  (s.spelling.filterMap (·.asVariable)).eraseDups

/-- A tree with a given root and arguments. A constant has no place for arguments,
a binder or quantifier has a place for one. -/
def assemble (h : Head) (args : List Term) : Checked Term :=
  match h with
  | .var v => .ok (.var v)
  | .binder v =>
    match args with
    | [body] => .ok (.abstraction v body)
    | _ => .error .malformedTerm
  | .symbol s =>
    match s.kind, args with
    | .constant, _ => .ok (.app .constant s [])
    | .quantifier, [body] => .ok (.app .quantifier s [body])
    | .quantifier, _ => .error .malformedTerm
    | role, args => .ok (.app role s args)

/-- The trees that a sequence of heads spells one behind the other, built from
the right. -/
def assembleAll : List Head → Checked (List Term)
  | [] => .ok []
  | h :: rest => do
    let built ← assembleAll rest
    let args := built.take h.arity
    require (args.length == h.arity) .malformedTerm
    return (← assemble h args) :: built.drop h.arity

/-- The subterm as a tree. -/
def toTerm (s : Subterm) : Checked Term := do
  match ← assembleAll s.spelling with
  | [t] => return t
  | _ => .error .malformedTerm

theorem stop_le_size (s : Subterm) : s.stop ≤ s.whole.size :=
  s.whole.after_le_size s.pos_lt

theorem pos_lt_stop (s : Subterm) : s.pos < s.stop :=
  s.whole.lt_after s.pos

theorem size_pos (s : Subterm) : 0 < s.size := by
  have := s.pos_lt_stop
  simp only [size]
  omega

/-- How many cells several subterms cover. -/
def sizeAll : List Subterm → Nat
  | [] => 0
  | s :: rest => s.size + sizeAll rest

/-- Consecutive terms cover their layout: there are as many as laid out, and
their sizes add up to its length. -/
theorem consecutive_of_layout {t : Flatterm} {p n q : Nat} {cells : List Cell}
    (l : Layout p n cells q) (more : List Cell) (h : t.cells.toList.drop p = cells ++ more) :
    (consecutive t p n).length = n ∧ sizeAll (consecutive t p n) = q - p := by
  induction n generalizing p cells with
  | zero => cases l; simp [consecutive, sizeAll]
  | succ n ih =>
    cases l with
    | @term _ _ stop _ head args rest lArgs lRest =>
      have stopArgs := lArgs.stop_eq
      have stopRest := lRest.stop_eq
      have hp : p < t.size := by
        have len := congrArg List.length h
        simp only [List.length_drop, Array.length_toList, List.length_append,
          List.length_cons] at len
        show p < t.cells.size
        omega
      have hp' : p < t.cells.toList.length := hp
      have hget : t.cells[p] = ⟨head, stop⟩ := by
        have := List.drop_eq_getElem_cons hp'
        rw [h] at this
        simp only [List.cons_append, List.cons.injEq, Array.getElem_toList] at this
        exact this.1.symm
      have hafter : t.after p = stop := by rw [t.after_eq hp, hget]
      have hdrop : t.cells.toList.drop stop = rest ++ more := by
        have split : stop = p + (args.length + 1) := by omega
        rw [split, ← List.drop_drop, h]
        simp
      obtain ⟨hlen, hsum⟩ := ih lRest hdrop
      have hsize : size ⟨t, p, hp⟩ = stop - p := by simp only [size, Subterm.stop, hafter]
      simp only [consecutive, hp, dif_pos, List.length_cons, sizeAll, hafter, hlen, hsum, hsize,
        true_and]
      omega

theorem length_spelling (s : Subterm) : s.spelling.length = s.size := by
  have := s.stop_le_size
  have : s.stop ≤ s.whole.cells.size := this
  simp [spelling, cells, size]
  omega

/-- There are as many arguments as the head takes, and together they have one
cell less than the whole. -/
theorem args_of_head (s : Subterm) :
    s.args.length = s.head.arity ∧ sizeAll s.args + 1 = s.size := by
  obtain ⟨cells, more, hdrop, hlay, -⟩ := s.whole.layout_at s.pos_lt
  have hstop : s.stop = s.root.after := s.whole.after_eq s.pos_lt
  have hnext : s.whole.cells.toList.drop (s.pos + 1) = cells ++ more := by
    have : s.whole.cells.toList.drop (s.pos + 1) = (s.whole.cells.toList.drop s.pos).drop 1 := by
      simp
    rw [this, hdrop]
    rfl
  obtain ⟨hlen, hsum⟩ := consecutive_of_layout hlay more hnext
  have total : sizeAll s.args = s.root.after - (s.pos + 1) := hsum
  have := s.pos_lt_stop
  refine ⟨hlen, ?_⟩
  simp only [size]
  omega

theorem length_args (s : Subterm) : s.args.length = s.head.arity :=
  s.args_of_head.1

theorem sizeAll_args (s : Subterm) : sizeAll s.args + 1 = s.size :=
  s.args_of_head.2

end Subterm

end SaturationCore
