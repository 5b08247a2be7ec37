/-
# Comparing inside a context

A comparison does not go through two terms argument by argument, and yet what it answers
for them it answers for them in any place. A context spells a sequence of heads in front of
its open argument and one behind, whatever is put in there. What these add to the weights
and to the occurrences of variables is the same on both sides and cancels. The first
difference lies behind the front; and since of two terms neither goes on where the other
stops, it lies before the back.
-/
import SaturationCore.Proofs.Order.KnuthBendix

namespace SaturationCore

namespace Term

/-- A term with one argument left open, at any depth. -/
inductive Context where
  | hole
  | app (role : SymbolKind) (s : Symbol) (before : List Term) (inner : Context)
      (after : List Term)
  | abstraction (v : Variable) (body : Context)

namespace Context

/-- The term with something put in place of the open argument. -/
def plug : Context → Term → Term
  | hole, t => t
  | app role s before inner after, t => .app role s (before ++ inner.plug t :: after)
  | abstraction v body, t => .abstraction v (body.plug t)

/-- The heads in front of the open argument. -/
def front : Context → List Head
  | hole => []
  | app _ s before inner _ => .symbol s :: (before.flatMap spelling ++ inner.front)
  | abstraction v body => .binder v :: body.front

/-- The heads behind the open argument. -/
def back : Context → List Head
  | hole => []
  | app _ _ _ inner after => inner.back ++ after.flatMap spelling
  | abstraction _ body => body.back

theorem spelling_plug (C : Context) (t : Term) :
    (C.plug t).spelling = C.front ++ (t.spelling ++ C.back) := by
  induction C with
  | hole => rw [plug, front, back, List.append_nil, List.nil_append]
  | app role s before inner after ih =>
      rw [plug, spelling_eq, head, args, List.flatMap_append, List.flatMap_cons, ih, front, back]
      simp only [List.cons_append, List.append_assoc]
  | abstraction v body ih =>
      rw [plug, spelling_eq, head, args, List.flatMap_singleton, ih, front, back, List.cons_append]

end Context

end Term

namespace KnuthBendix

variable {k : KnuthBendix} {n : Nat} {as bs : List Head}

/-- The first difference of two sequences of equally many terms lies inside both. -/
theorem lexicographic_append_right (spellsA : Spells n as) (spellsB : Spells n bs)
    (back : List Head) : k.lexicographic (as ++ back) (bs ++ back) = k.lexicographic as bs := by
  induction spellsA generalizing bs with
  | nil =>
      rw [spellsB.eq_nil, k.lexicographic_eq_equivalent_iff.2 rfl]
      exact (k.lexicographic_eq_equivalent_iff.2 rfl).symm
  | @cons n g as _ ih =>
      -- As many terms are still to come on either side, so both go on or neither does.
      cases spellsB with
      | @cons _ h bs restB =>
          rw [List.cons_append, List.cons_append, lexicographic_cons, lexicographic_cons]
          by_cases same : g = h
          · subst same
            rw [if_pos rfl, if_pos rfl, ih restB]
          · rw [if_neg same, if_neg same]

theorem someMore_surround (front as bs back : List Head) :
    someMore (front ++ (as ++ back)) (front ++ (bs ++ back)) = someMore as bs := by
  rw [Bool.eq_iff_iff, someMore_iff, someMore_iff]
  simp only [List.count_append, Nat.add_lt_add_iff_left, Nat.add_lt_add_iff_right]

theorem total_surround (k : KnuthBendix) (front as bs back : List Head) :
    k.total (front ++ (as ++ back)) - k.total (front ++ (bs ++ back)) =
      k.total as - k.total bs := by
  simp only [total_append]
  omega

/-- Of the two sequences, settling a comparison reads their first difference only. -/
theorem settle_congr (weights : WeightComparison) {cs ds : List Head}
    (same : k.lexicographic as bs = k.lexicographic cs ds) :
    k.settle weights as bs = k.settle weights cs ds := by
  cases weights <;> simp only [settle, same]

/-- Heads around two terms make no difference to their comparison. -/
theorem outcome_surround (spellsA : Spells n as) (spellsB : Spells n bs) (front back : List Head) :
    k.outcome (front ++ (as ++ back)) (front ++ (bs ++ back)) = k.outcome as bs := by
  have first : k.lexicographic (front ++ (as ++ back)) (front ++ (bs ++ back)) =
      k.lexicographic as bs := by
    rw [lexicographic_append, lexicographic_append_right spellsA spellsB]
  rw [outcome, outcome, total_surround, someMore_surround, someMore_surround, settle_congr _ first]

/-- Two terms compare inside a context as they compare by themselves, whatever the outcome is,
unless a weight leaves its range. -/
theorem compare_plug {alphabet : Set Symbol} {a b : Term} (C : Term.Context)
    (overA : a.Over alphabet) (overB : b.Over alphabet) (inside : k.compare a b ≠ .error .overflow)
    (fits : k.compare (C.plug a) (C.plug b) ≠ .error .overflow) :
    ∃ o, k.compare a b = .ok o ∧ k.compare (C.plug a) (C.plug b) = .ok o := by
  refine ⟨k.outcome a.spelling b.spelling, (k.yields_compare a b).eq_ok inside, ?_⟩
  rw [(k.yields_compare _ _).eq_ok fits, C.spelling_plug, C.spelling_plug,
    outcome_surround overA.spells overB.spells]

/-- Below a quantifier that binds one of the variables compared, and beside a formula in which they
occur more often than in the terms compared. -/
theorem compare_plug_quantified :
    let f (t : Term) : Term := .app .function ⟨8, .function, 1⟩ [t]
    let x : Term := .var ⟨0, 0⟩
    let y : Term := .var ⟨0, 1⟩
    let p (s t : Term) : Term := .app .predicate ⟨9, .predicate, 2⟩ [s, t]
    let C : Term.Context := .app .quantifier Quantifier.universal.symbol []
      (.abstraction ⟨0, 0⟩ (.app .connective Connective.and.symbol [p (f x) (f y)]
        (.app .predicate ⟨9, .predicate, 2⟩ [x] .hole []) [])) []
    (f x).Over Set.univ ∧ x.Over Set.univ ∧ y.Over Set.univ ∧
      standard.compare (f x) x = .ok .greater ∧
      standard.compare (C.plug (f x)) (C.plug x) = .ok .greater ∧
      standard.compare (f x) y = .ok .incomparable ∧
      standard.compare (C.plug (f x)) (C.plug y) = .ok .incomparable := by
  intro f x y p C
  have overX : x.Over Set.univ := .var _
  have overY : y.Over Set.univ := .var _
  have overFx : (f x).Over Set.univ := .app trivial rfl (List.forall_mem_singleton.2 overX)
  have above : standard.compare (f x) x = .ok .greater := by decide +kernel
  have apart : standard.compare (f x) y = .ok .incomparable := by decide +kernel
  have fits : standard.compare (C.plug (f x)) (C.plug x) ≠ .error .overflow := by decide +kernel
  have fits' : standard.compare (C.plug (f x)) (C.plug y) ≠ .error .overflow := by decide +kernel
  obtain ⟨o, first, second⟩ := compare_plug C overFx overX (above ▸ nofun) fits
  obtain ⟨o', first', second'⟩ := compare_plug C overFx overY (apart ▸ nofun) fits'
  cases above.symm.trans first
  cases apart.symm.trans first'
  exact ⟨overFx, overX, overY, above, second, apart, second'⟩

end KnuthBendix

end SaturationCore
