/-
# Complete spellings

A sequence of heads spells a number of terms when reading it from the left meets
every subterm that a head announces and ends with the last of them. Spellings are
a prefix code: of two sequences that spell equally many terms, neither goes on
where the other stops. Everything that is later said about instances of terms is
said about their spellings, and comparing instances comes down to this code.

The cells of a flatterm are laid out as such a spelling. So a subterm is spelled
by its head followed by its arguments, and a complete spelling can always be laid
out again.
-/
import Mathlib.Data.List.Basic
import SaturationCore.Flatterm.Subterm

namespace SaturationCore

/-- `Spells n hs` says that the heads `hs` spell `n` terms one behind the other. -/
inductive Spells : Nat → List Head → Prop where
  | nil : Spells 0 []
  | cons {n : Nat} {h : Head} {rest : List Head} :
      Spells (n + h.arity) rest → Spells (n + 1) (h :: rest)

namespace Spells

variable {n m : Nat} {a b r s l : List Head} {h : Head}

theorem eq_nil (spells : Spells 0 l) : l = [] := by
  cases spells
  rfl

theorem ne_nil (spells : Spells (n + 1) l) : l ≠ [] := by
  cases spells
  exact List.cons_ne_nil _ _

theorem nil_iff (spells : Spells n l) : l = [] ↔ n = 0 := by
  cases spells with
  | nil => exact iff_of_true rfl rfl
  | cons => exact iff_of_false (List.cons_ne_nil _ _) (Nat.succ_ne_zero _)

theorem cons_iff : Spells (n + 1) (h :: l) ↔ Spells (n + h.arity) l := by
  constructor
  · intro spells
    cases spells with
    | cons rest => exact rest
  · exact Spells.cons

theorem append (first : Spells n a) (second : Spells m b) : Spells (n + m) (a ++ b) := by
  induction first with
  | nil => simpa using second
  | @cons n h rest _ ih =>
      rw [Nat.add_right_comm, List.cons_append]
      apply Spells.cons
      rwa [Nat.add_right_comm]

/-- A sequence that starts with a spelling goes on as if it began behind it. -/
theorem append_iff (first : Spells n a) : Spells (n + m) (a ++ b) ↔ Spells m b := by
  constructor
  · intro spells
    induction first with
    | nil => simpa using spells
    | @cons n h rest _ ih =>
        rw [Nat.add_right_comm, List.cons_append, cons_iff] at spells
        apply ih
        rwa [Nat.add_right_comm]
  · exact first.append

/-- Spellings are a prefix code. -/
theorem cancel (first : Spells n a) (second : Spells n b) (h : a ++ r = b ++ s) :
    a = b ∧ r = s := by
  induction first generalizing b with
  | nil =>
      rw [second.eq_nil] at h ⊢
      exact ⟨rfl, h⟩
  | cons _ ih =>
      cases second with
      | cons second =>
          rw [List.cons_append, List.cons_append, List.cons.injEq] at h
          obtain ⟨rfl, h⟩ := h
          obtain ⟨rfl, rfl⟩ := ih second h
          exact ⟨rfl, rfl⟩

theorem eq_of_isPrefix (first : Spells n a) (second : Spells n b) (h : a <+: b) : a = b := by
  obtain ⟨rest, h⟩ := h
  exact (first.cancel second (h.trans (List.append_nil b).symm)).1

theorem count_le_length (spells : Spells n l) : n ≤ l.length := by
  induction spells with
  | nil => exact Nat.le_refl 0
  | cons _ ih =>
      rw [List.length_cons]
      omega

theorem flatMap {α : Type} {f : α → List Head} {xs : List α} (each : ∀ x ∈ xs, Spells 1 (f x)) :
    Spells xs.length (xs.flatMap f) := by
  induction xs with
  | nil => exact .nil
  | cons x xs ih =>
      rw [List.flatMap_cons, List.length_cons, Nat.add_comm]
      exact (each x List.mem_cons_self).append (ih fun y hy => each y (List.mem_cons_of_mem x hy))

end Spells

theorem Layout.spells {p n q : Nat} {cells : List Cell} (l : Layout p n cells q) :
    Spells n (cells.map (·.head)) := by
  induction l with
  | none => exact .nil
  | @term p n q r h args rest _ _ ihArgs ihRest =>
      rw [List.map_cons, List.map_append]
      apply Spells.cons
      rw [Nat.add_comm]
      exact ihArgs.append ihRest

namespace Flatterm

/-- The heads of the cells from one position up to another. -/
def between (t : Flatterm) (p q : Nat) : List Head :=
  (t.cells.extract p q).toList.map (·.head)

/-- The cells from `p` up to `q` are those of `n` consecutive terms. -/
def Stretch (t : Flatterm) (p n q : Nat) : Prop :=
  ∃ cells more, t.cells.toList.drop p = cells ++ more ∧ Layout p n cells q

namespace Stretch

variable {t : Flatterm} {p n q : Nat}

theorem le (stretch : t.Stretch p n q) : p ≤ q := by
  obtain ⟨cells, _, _, layout⟩ := stretch
  rw [layout.stop_eq]
  exact Nat.le_add_right p _

theorem spells (stretch : t.Stretch p n q) : Spells n (t.between p q) := by
  obtain ⟨cells, more, hdrop, layout⟩ := stretch
  have cut : (t.cells.extract p q).toList = cells := by
    rw [Array.toList_extract, List.extract_eq_take_drop, hdrop]
    apply List.take_left'
    have := layout.stop_eq
    omega
  rw [between, cut]
  exact layout.spells

theorem eq_of_zero (stretch : t.Stretch p 0 q) : p = q := by
  obtain ⟨_, _, _, layout⟩ := stretch
  cases layout
  rfl

theorem zero (t : Flatterm) (p : Nat) : t.Stretch p 0 p :=
  ⟨[], t.cells.toList.drop p, rfl, .none p⟩

theorem append {m r : Nat} (front : t.Stretch p n q) (back : t.Stretch q m r) :
    t.Stretch p (n + m) r := by
  obtain ⟨cells, more, hdrop, layout⟩ := front
  obtain ⟨cells', more', hdrop', layout'⟩ := back
  refine ⟨cells ++ cells', more', ?_, layout.append layout'⟩
  have behind : t.cells.toList.drop q = more := by
    rw [layout.stop_eq, ← List.drop_drop, hdrop, List.drop_left]
  rw [hdrop, ← behind, hdrop', List.append_assoc]

/-- Of several consecutive terms, the first has its arguments directly behind its
head, and the others follow where it ends. -/
theorem first (stretch : t.Stretch p (n + 1) q) :
    ∃ hp : p < t.size, t.Stretch (p + 1) t.cells[p].head.arity (t.after p) ∧
      t.Stretch (t.after p) n q := by
  obtain ⟨cells, more, hdrop, layout⟩ := stretch
  cases layout with
  | @term _ _ stop _ head args rest lArgs lRest =>
      have hp : p < t.cells.toList.length := by
        by_contra beyond
        rw [List.drop_eq_nil_of_le (Nat.le_of_not_lt beyond)] at hdrop
        exact List.cons_ne_nil _ _ hdrop.symm
      have hstop := lArgs.stop_eq
      rw [List.drop_eq_getElem_cons hp, List.cons_append, List.cons.injEq] at hdrop
      obtain ⟨hget, hdrop⟩ := hdrop
      rw [Array.getElem_toList] at hget
      have hp' : p < t.size := hp
      have hafter : t.after p = stop := by rw [t.after_eq hp', hget]
      refine ⟨hp', ⟨args, rest ++ more, ?_, ?_⟩, ⟨rest, more, ?_, ?_⟩⟩
      · rw [hdrop, List.append_assoc]
      · rwa [hafter, hget]
      · rw [hafter, hstop, ← List.drop_drop, hdrop, List.append_assoc]
        exact List.drop_left
      · rwa [hafter]

end Stretch

theorem between_self (t : Flatterm) (p : Nat) : t.between p p = [] := by
  simp [between]

theorem between_append (t : Flatterm) {p q r : Nat} (hpq : p ≤ q) (hqr : q ≤ r) :
    t.between p q ++ t.between q r = t.between p r := by
  simp only [between, Array.toList_extract, List.extract_eq_take_drop, ← List.map_append]
  have whole : r - p = (q - p) + (r - q) := by omega
  have behind : q = p + (q - p) := by omega
  rw [whole, List.take_add, List.drop_drop, ← behind]

theorem between_succ (t : Flatterm) {p : Nat} (hp : p < t.size) :
    t.between p (p + 1) = [t.cells[p].head] := by
  have hp' : p < t.cells.toList.length := hp
  rw [between, Array.toList_extract, List.extract_eq_take_drop, List.drop_eq_getElem_cons hp',
    Nat.add_sub_cancel_left]
  simp

theorem stretch_whole (t : Flatterm) : t.Stretch 0 1 t.size :=
  ⟨t.cells.toList, [], by simp, t.layout⟩

theorem spelling_eq_between (t : Flatterm) : t.spelling = t.between 0 t.size := by
  simp [spelling, between]

theorem spells (t : Flatterm) : Spells 1 t.spelling := by
  rw [spelling_eq_between]
  exact t.stretch_whole.spells

theorem scan_of_spells {n : Nat} {hs : List Head} (spells : Spells n hs) : scan n hs = .ok () := by
  induction spells with
  | nil => rfl
  | cons _ ih => exact ih

/-- Heads that spell some terms are laid out with the end of each. -/
theorem layOut_of_spells {n : Nat} {hs : List Head} (spells : Spells n hs) (p : Nat) :
    ∃ cells ends, layOut p hs = some (cells, ends) ∧ ends.length = n := by
  induction spells generalizing p with
  | nil => exact ⟨[], [], rfl, rfl⟩
  | @cons n h rest _ ih =>
      obtain ⟨cells, ends, hlay, hlen⟩ := ih (p + 1)
      have stops : ∃ stop, stopOf p h.arity ends = some stop := by
        by_cases leaf : h.arity = 0
        · exact ⟨p + 1, by rw [stopOf, if_pos leaf]⟩
        · have within : h.arity - 1 < ends.length := by omega
          exact ⟨ends[h.arity - 1], by rw [stopOf, if_neg leaf, List.getElem?_eq_getElem within]⟩
      obtain ⟨stop, hstop⟩ := stops
      refine ⟨⟨h, stop⟩ :: cells, stop :: ends.drop h.arity, ?_, ?_⟩
      · simp [layOut, hlay, hstop]
      · rw [List.length_cons, List.length_drop]
        omega

/-- Every complete spelling has a flatterm. -/
theorem ofSpelling_of_spells {hs : List Head} (spells : Spells 1 hs) :
    ∃ t, ofSpelling hs = .ok t ∧ t.spelling = hs := by
  obtain ⟨cells, ends, hlay, hlen⟩ := layOut_of_spells spells 0
  obtain ⟨stop, rfl⟩ := List.length_eq_one_iff.1 hlen
  have made : ∃ t, ofSpelling hs = .ok t := by
    simp only [ofSpelling, scan_of_spells spells, bind, Except.bind]
    split
    · exact ⟨_, rfl⟩
    · rename_i other
      exact absurd hlay (other cells stop)
  obtain ⟨t, ht⟩ := made
  exact ⟨t, ht, spelling_ofSpelling ht⟩

end Flatterm

/-- A tree that takes its arguments from the front of a row is spelled with what is left of the row
as its head and then the row. -/
theorem Term.flatMap_spelling_take {h : Head} {t : Term} {ts : List Term} (root : t.head = h)
    (args : t.args = ts.take h.arity) :
    (t :: ts.drop h.arity).flatMap Term.spelling = h :: ts.flatMap Term.spelling := by
  rw [List.flatMap_cons, Term.spelling_eq, root, args, List.cons_append, ← List.flatMap_append,
    List.take_append_drop]

namespace Subterm

theorem stretch (s : Subterm) : s.whole.Stretch s.pos 1 s.stop := by
  have hp := s.pos_lt
  obtain ⟨args, more, hdrop, layout, -⟩ := s.whole.layout_at hp
  rw [← s.whole.after_eq hp] at layout
  refine ⟨⟨s.head, s.stop⟩ :: args, more, ?_, ?_⟩
  · rw [hdrop, stop, s.whole.after_eq hp]
    rfl
  · have key := Layout.term layout (.none s.stop)
    rwa [List.append_nil] at key

theorem spelling_eq_between (s : Subterm) : s.spelling = s.whole.between s.pos s.stop :=
  rfl

theorem spells (s : Subterm) : Spells 1 s.spelling :=
  s.stretch.spells

theorem spelling_ofFlatterm (t : Flatterm) : (ofFlatterm t).spelling = t.spelling := by
  have hstop : (ofFlatterm t).stop = t.size := by
    obtain ⟨_, _, rest⟩ := t.stretch_whole.first
    exact rest.eq_of_zero
  rw [spelling_eq_between, hstop]
  exact t.spelling_eq_between.symm

theorem spelling_ofVariable (v : Variable) : (ofVariable v).spelling = [.var v] := by
  rw [ofVariable, spelling_ofFlatterm]
  rfl

/-- Every complete spelling is that of some subterm. -/
theorem ofSpelling_of_spells {hs : List Head} (spells : Spells 1 hs) :
    ∃ s, ofSpelling hs = .ok s ∧ s.spelling = hs := by
  obtain ⟨t, ht, hspell⟩ := Flatterm.ofSpelling_of_spells spells
  refine ⟨ofFlatterm t, ?_, ?_⟩
  · rw [ofSpelling, ht]
    rfl
  · rw [spelling_ofFlatterm, hspell]

theorem consecutive_spelling {t : Flatterm} {p n q : Nat} (stretch : t.Stretch p n q) :
    (consecutive t p n).flatMap spelling = t.between p q := by
  induction n generalizing p with
  | zero =>
      rw [stretch.eq_of_zero, t.between_self]
      rfl
  | succ n ih =>
      obtain ⟨hp, _, rest⟩ := stretch.first
      rw [consecutive, dif_pos hp, List.flatMap_cons, ih rest, spelling_eq_between]
      exact t.between_append (Nat.le_of_lt (t.lt_after p)) rest.le

/-- A subterm is spelled by its head and then by its arguments from left to right. -/
theorem spelling_eq (s : Subterm) : s.spelling = s.head :: s.args.flatMap spelling := by
  obtain ⟨hp, args, rest⟩ := s.stretch.first
  have behind : s.args.flatMap spelling = s.whole.between (s.pos + 1) s.stop :=
    consecutive_spelling args
  rw [behind, spelling_eq_between,
    ← s.whole.between_append (Nat.le_succ s.pos) s.pos_lt_stop, s.whole.between_succ s.pos_lt]
  rfl

theorem spells_args (s : Subterm) : Spells s.head.arity (s.args.flatMap spelling) := by
  rw [← s.length_args]
  exact Spells.flatMap fun a _ => a.spells

theorem head_mem_spelling (s : Subterm) : s.head ∈ s.spelling := by
  rw [spelling_eq]
  exact List.mem_cons_self

theorem spelling_subset_of_mem_args {s a : Subterm} (ha : a ∈ s.args) :
    a.spelling ⊆ s.spelling := by
  intro h hh
  rw [s.spelling_eq]
  exact List.mem_cons_of_mem _ (List.mem_flatMap_of_mem ha hh)

theorem asVariable_eq_some {s : Subterm} {v : Variable} :
    s.asVariable = some v ↔ s.head = .var v :=
  Head.asVariable_eq_some

theorem isQuantifierFree_iff {s : Subterm} :
    s.isQuantifierFree = true ↔ ∀ h ∈ s.spelling, h.isBinder = false := by
  simp [isQuantifierFree]

/-- A term without binders starts with a variable or a symbol. -/
theorem head_cases {s : Subterm} (plain : s.isQuantifierFree = true) :
    (∃ v, s.head = .var v) ∨ ∃ f, s.head = .symbol f := by
  have root := isQuantifierFree_iff.1 plain s.head s.head_mem_spelling
  cases head : s.head with
  | var v => exact .inl ⟨v, rfl⟩
  | symbol f => exact .inr ⟨f, rfl⟩
  | binder v =>
      rw [head] at root
      cases root

theorem spelling_of_head_eq_var {s : Subterm} {v : Variable} (h : s.head = .var v) :
    s.spelling = [.var v] := by
  have none := s.spells_args
  rw [h] at none
  rw [spelling_eq, h, none.eq_nil]

/-- A head with as many arguments as it takes is that of a tree, if quantifiers take one. -/
theorem exists_assemble {h : Head} {args : List Term} (enough : args.length = h.arity)
    (quantifiers : ∀ s, h = .symbol s → s.kind = .quantifier → s.arity = 1) :
    ∃ t, assemble h args = .ok t := by
  cases h with
  | var v => exact ⟨_, rfl⟩
  | binder v =>
      obtain ⟨body, rfl⟩ := List.length_eq_one_iff.1 enough
      exact ⟨_, rfl⟩
  | symbol s =>
      obtain ⟨id, kind, arity⟩ := s
      cases kind with
      | quantifier =>
          obtain ⟨body, rfl⟩ := List.length_eq_one_iff.1 (enough.trans (quantifiers _ rfl rfl))
          exact ⟨_, rfl⟩
      | _ => exact ⟨_, rfl⟩

/-- A spelling is that of as many trees as terms. -/
theorem assembleAll_of_spells {n : Nat} {hs : List Head} (spells : Spells n hs)
    (quantifiers : ∀ s, .symbol s ∈ hs → s.kind = .quantifier → s.arity = 1) :
    ∃ ts, assembleAll hs = .ok ts ∧ ts.length = n := by
  induction spells with
  | nil => exact ⟨[], rfl, rfl⟩
  | @cons n h rest _ ih =>
      obtain ⟨built, hbuilt, hlen⟩ := ih fun s hs => quantifiers s (List.mem_cons_of_mem h hs)
      have enough : (built.take h.arity).length = h.arity := by
        rw [List.length_take]
        omega
      obtain ⟨t, ht⟩ := exists_assemble enough fun s hs => quantifiers s (hs ▸ List.mem_cons_self)
      refine ⟨t :: built.drop h.arity, ?_, ?_⟩
      · simp [assembleAll, hbuilt, enough, ht, require, bind, Except.bind, pure, Except.pure]
      · rw [List.length_cons, List.length_drop]
        omega

/-- A subterm without binders can be rebuilt as a tree. -/
theorem toTerm_of_plain (s : Subterm) (plain : ∀ h ∈ s.spelling, h.isBinder = false) :
    ∃ t, s.toTerm = .ok t := by
  have quantifiers (f : Symbol) (hf : .symbol f ∈ s.spelling) (kind : f.kind = .quantifier) :
      f.arity = 1 := by
    simpa [Head.isBinder, kind] using plain _ hf
  obtain ⟨ts, hts, hlen⟩ := assembleAll_of_spells s.spells quantifiers
  obtain ⟨t, rfl⟩ := List.length_eq_one_iff.1 hlen
  exact ⟨t, by simp [toTerm, hts, bind, Except.bind, pure, Except.pure]⟩

/-- A tree has the head and the arguments it is made of, if constants take none. -/
theorem root_of_assemble {h : Head} {args : List Term} {t : Term} (enough : args.length = h.arity)
    (constants : ∀ s, h = .symbol s → s.kind = .constant → s.arity = 0)
    (made : assemble h args = .ok t) : t.head = h ∧ t.args = args := by
  cases h with
  | var v =>
      cases made
      exact ⟨rfl, (List.length_eq_zero_iff.1 enough).symm⟩
  | binder v =>
      obtain ⟨body, rfl⟩ := List.length_eq_one_iff.1 enough
      cases made
      exact ⟨rfl, rfl⟩
  | symbol s =>
      obtain ⟨id, kind, arity⟩ := s
      cases kind with
      | constant =>
          cases made
          have none : arity = 0 := constants _ rfl rfl
          exact ⟨rfl, (List.length_eq_zero_iff.1 (enough.trans none)).symm⟩
      | quantifier =>
          simp only [assemble] at made
          split at made
          · contradiction
          · cases made
            exact ⟨rfl, rfl⟩
          · cases made
          · contradiction
      | _ =>
          cases made
          exact ⟨rfl, rfl⟩

/-- Trees are spelled by the heads they are built from. -/
theorem flatMap_spelling_of_assembleAll {hs : List Head} {ts : List Term}
    (constants : ∀ s, .symbol s ∈ hs → s.kind = .constant → s.arity = 0)
    (built : assembleAll hs = .ok ts) : ts.flatMap Term.spelling = hs := by
  induction hs generalizing ts with
  | nil =>
      cases built
      rfl
  | cons h rest ih =>
      simp only [assembleAll, bind_eq_ok_iff, require_eq_ok_iff, beq_iff_eq] at built
      obtain ⟨trees, inner, -, enough, t, made, ⟨⟩⟩ := built
      have rest_eq := ih (fun s hs => constants s (List.mem_cons_of_mem h hs)) inner
      obtain ⟨root, args⟩ := root_of_assemble enough
        (fun s hs => constants s (hs ▸ List.mem_cons_self)) made
      rw [Term.flatMap_spelling_take root args, rest_eq]

end Subterm

end SaturationCore
