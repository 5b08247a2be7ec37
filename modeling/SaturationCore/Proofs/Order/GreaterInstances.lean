/-
# Room for greater instances

Whether some instance of one term may exceed that of another is answered without instances:
not if the second term has a variable that the first lacks, and otherwise as far as comparing
the two terms leaves it open.

Under weights that make instances of greater terms greater, the comparison rules out nothing
that can happen. If the first term were smaller than the second or equal to it, all its
instances would be. The test on variables is stricter: an instance of the first term may bring
in the very variable that it lacks. Unless it does, an instance that is greater has no fewer
variables, and the test is passed.

For trees the variables are those that occur free, for subterms those at the leaves. The
answers for a term in either form differ when that makes a difference to the test and the
comparison leaves room.
-/
import SaturationCore.Proofs.FreeVariables
import SaturationCore.Proofs.Order.Stability

namespace SaturationCore

namespace KnuthBendix

variable {k : KnuthBendix} {alphabet : Set Symbol} {θ : Substitution} {σ : TreeMatcher}
  {as bs : List Head} {a b : Term} {s t : Subterm} {o : TermOrdering}

/-! ## What the answers depend on -/

theorem exists_answer {x : Checked TermOrdering} (answered : x = .ok o) (us vs : List Variable) :
    ∃ answer, (if us.all vs.contains then return leavesGreater (← x) else return false) =
        (.ok answer : Checked Bool) ∧
      (answer = true ↔ us ⊆ vs ∧ leavesGreater o = true) := by
  have within : us.all vs.contains = true ↔ us ⊆ vs := by
    simp only [List.all_eq_true, List.contains_iff_mem]
    rfl
  subst answered
  by_cases inside : us ⊆ vs
  · refine ⟨leavesGreater o, by rw [if_pos (within.2 inside)]; rfl, ?_⟩
    exact (and_iff_right inside).symm
  · refine ⟨false, by rw [if_neg (mt within.1 inside)]; rfl, ?_⟩
    exact iff_of_false Bool.false_ne_true fun both => inside both.1

/-- For trees it depends on the variables that occur free. -/
theorem exists_canBeGreater (answered : k.compare a b = .ok o) :
    ∃ answer, k.canBeGreater a b = .ok answer ∧
      (answer = true ↔ (∀ v, b.OccursFree v → a.OccursFree v) ∧ leavesGreater o = true) := by
  obtain ⟨answer, given, depends⟩ := exists_answer answered b.freeVariables a.freeVariables
  refine ⟨answer, given, depends.trans (and_congr_left' ?_)⟩
  exact forall_congr' fun v => imp_congr Term.mem_freeVariables_iff Term.mem_freeVariables_iff

/-- For subterms it depends on all variables at the leaves. -/
theorem exists_canBeGreaterFlat (answered : k.compareFlat s t = .ok o) :
    ∃ answer, k.canBeGreaterFlat s t = .ok answer ∧
      (answer = true ↔ (∀ v, t.mentions v = true → s.mentions v = true) ∧
        leavesGreater o = true) := by
  obtain ⟨answer, given, depends⟩ := exists_answer answered t.leafVariables s.leafVariables
  refine ⟨answer, given, depends.trans (and_congr_left' ?_)⟩
  exact forall_congr' fun v => imp_congr Subterm.mem_leafVariables_iff Subterm.mem_leafVariables_iff

/-- Both forms of two terms have answers, from one comparison. -/
theorem exists_answers (overA : a.Over alphabet) (overB : b.Over alphabet)
    (fits : k.compare a b ≠ .error .overflow) :
    ∃ s t tree flat, Subterm.ofTerm a = .ok s ∧ Subterm.ofTerm b = .ok t ∧
      k.compare a b = .ok (k.outcome a.spelling b.spelling) ∧
      k.canBeGreater a b = .ok tree ∧ k.canBeGreaterFlat s t = .ok flat ∧
      (tree = true ↔ (∀ v, b.OccursFree v → a.OccursFree v) ∧
        leavesGreater (k.outcome a.spelling b.spelling) = true) ∧
      (flat = true ↔ (∀ v, b.mentions v = true → a.mentions v = true) ∧
        leavesGreater (k.outcome a.spelling b.spelling) = true) := by
  obtain ⟨s, madeA, spelledA⟩ := Subterm.ofSpelling_of_spells overA.spells
  obtain ⟨t, madeB, spelledB⟩ := Subterm.ofSpelling_of_spells overB.spells
  have answered := (k.yields_compare a b).eq_ok fits
  have answeredFlat : k.compareFlat s t = .ok (k.outcome a.spelling b.spelling) := by
    rw [compareFlat, spelledA, spelledB]
    exact answered
  obtain ⟨tree, treeGiven, treeDepends⟩ := exists_canBeGreater answered
  obtain ⟨flat, flatGiven, flatDepends⟩ := exists_canBeGreaterFlat answeredFlat
  simp only [Subterm.mentions, spelledA, spelledB] at flatDepends
  exact ⟨s, t, tree, flat, madeA, madeB, answered, treeGiven, flatGiven, treeDepends, flatDepends⟩

/-! ## Instances -/

theorem leavesGreater_iff : leavesGreater o = true ↔ o ≠ .smaller ∧ o ≠ .equivalent := by
  cases o <;> decide

/-- A comparison leaves room if some instances are greater. -/
theorem Admissible.leavesGreater_of_instantiate (admissible : k.Admissible alphabet)
    (known : ∀ v, symbolsOf (θ v).spelling ⊆ alphabet)
    (greater : k.outcome (θ.instantiate as) (θ.instantiate bs) = .greater) :
    leavesGreater (k.outcome as bs) = true := by
  have strict := k.outcome_strict
  refine leavesGreater_iff.2 ⟨fun smaller => ?_, fun equivalent => ?_⟩
  · have back := admissible.outcome_instantiate known (strict.smaller_iff.1 smaller)
    rw [← strict.smaller_iff, greater] at back
    cases back
  · rw [(strict.equivalent_iff as bs).1 equivalent] at greater
    exact strict.not_greater_self _ greater

/-- Where no instance has a variable of the second term that the first lacks, the first has all
variables of the second if its instance does. -/
theorem mentions_of_covers (reads : σ.Reads θ)
    (binds : ∀ v, σ.isBound v = true → a.mentions v = true)
    (absent : ∀ u r v, σ.get? u = some r → r.mentions v = true → b.mentions v = true →
      a.mentions v = true)
    (covers : Covers (θ.instantiate a.spelling) (θ.instantiate b.spelling)) {v : Variable}
    (inside : b.mentions v = true) : a.mentions v = true := by
  by_contra lacks
  have unbound : σ.get? v = none := by
    rw [← Option.not_isSome_iff_eq_none]
    exact mt (binds v) lacks
  -- The variable stays where it is in the second term, so the instance of the first has it too.
  have stays : .var v ∈ θ.instantiate b.spelling := by
    refine Substitution.var_mem_instantiate_iff.2 ⟨v, Term.mentions_iff_mem.1 inside, ?_⟩
    rw [reads.spelling_of_unbound unbound]
    exact List.mem_singleton_self _
  obtain here | ⟨u, r, bound, there⟩ := reads.var_mem_instantiate (covers.mem stays)
  · exact lacks (Term.mentions_iff_mem.2 here)
  · exact lacks (absent u r v bound there inside)

/-- If an instance of one term exceeds that of another, the answers for the two terms depend on
their variables only. So the answers are yes, for trees and for subterms, unless the instances
bring in a variable of the second term that the first lacks. -/
theorem canBeGreater_of_instance (admissible : k.Admissible alphabet)
    (regular : ∀ f ∈ alphabet, f.Regular) (overA : a.Over alphabet) (overB : b.Over alphabet)
    (plainA : a.isQuantifierFree = true) (plainB : b.isQuantifierFree = true)
    (instances : σ.Over alphabet) (binds : ∀ v, σ.isBound v = true → a.mentions v = true)
    (fits : k.compare a b ≠ .error .overflow) :
    ∃ a' b' s t, σ.apply a = .ok a' ∧ σ.apply b = .ok b' ∧
      Subterm.ofTerm a = .ok s ∧ Subterm.ofTerm b = .ok t ∧
      (k.compare a' b' = .ok .greater →
        ∃ answer, k.canBeGreater a b = .ok answer ∧ k.canBeGreaterFlat s t = .ok answer ∧
          (answer = true ↔ ∀ v, b.mentions v = true → a.mentions v = true) ∧
          ((∀ u r v, σ.get? u = some r → r.mentions v = true → b.mentions v = true →
            a.mentions v = true) → answer = true)) := by
  obtain ⟨θ, reads⟩ := instances.exists_reads
  obtain ⟨a', madeA, spelledA⟩ := reads.apply_eq instances regular overA
  obtain ⟨b', madeB, spelledB⟩ := reads.apply_eq instances regular overB
  obtain ⟨s, t, tree, flat, laidA, laidB, -, treeGiven, flatGiven, treeDepends, flatDepends⟩ :=
    exists_answers overA overB fits
  refine ⟨a', b', s, t, madeA, madeB, laidA, laidB, fun greater => ?_⟩
  have ideal := ((k.yields_compare a' b').eq_of_eq_ok greater).symm
  rw [spelledA, spelledB] at ideal
  have room := admissible.leavesGreater_of_instantiate (reads.symbolsOf_subset instances) ideal
  simp only [Term.occursFree_iff_mentions plainA, Term.occursFree_iff_mentions plainB, room,
    and_true] at treeDepends flatDepends
  have same : flat = tree := Bool.eq_iff_iff.2 (flatDepends.trans treeDepends.symm)
  refine ⟨tree, treeGiven, same ▸ flatGiven, treeDepends, fun absent => treeDepends.2 fun v => ?_⟩
  exact mentions_of_covers reads binds absent (k.outcome_eq_greater_iff.1 ideal).1

/-- The first term is lighter than the second, but has a variable more. If that is bound to a term
over the other variable, the instance is the heavier one. -/
theorem canBeGreater_of_instance_heavier :
    let σ := ((Signature.initial.internFunction "f" 1).2.internFunction "g" 2).2
    let x : Term := .var ⟨0, 0⟩
    let y : Term := .var ⟨0, 1⟩
    let f (t : Term) : Term := .app .function ⟨8, .function, 1⟩ [t]
    let g (s t : Term) : Term := .app .function ⟨9, .function, 2⟩ [s, t]
    let τ : TreeMatcher := Ledger.empty.push ⟨0, 1⟩ (f (f x))
    ((g x y).WellFormed σ ∧ (f (f (f x))).WellFormed σ ∧ τ.Over σ.Declares) ∧
      standard.compare (g x y) (f (f (f x))) = .ok .incomparable ∧
      τ.apply (g x y) = .ok (g x (f (f x))) ∧ τ.apply (f (f (f x))) = .ok (f (f (f x))) ∧
      standard.compare (g x (f (f x))) (f (f (f x))) = .ok .greater ∧
      standard.canBeGreater (g x y) (f (f (f x))) = .ok true ∧
      ∃ s t, Subterm.ofTerm (g x y) = .ok s ∧ Subterm.ofTerm (f (f (f x))) = .ok t ∧
        standard.canBeGreaterFlat s t = .ok true := by
  intro σ x y f g τ
  have grown : σ.Grown := .function "g" 2 (.function "f" 1 .initial)
  have wfA : (g x y).WellFormed σ := by decide +kernel
  have wfB : (f (f (f x))).WellFormed σ := by decide +kernel
  have wfInstance : (f (f x)).WellFormed σ := by decide +kernel
  have bindings {motive : Variable → Term → Prop} (here : motive ⟨0, 1⟩ (f (f x))) :
      ∀ u r, τ.get? u = some r → motive u r := by
    intro u r bound
    rw [Ledger.get?_push] at bound
    split at bound
    · next same =>
        cases same
        cases bound
        exact here
    · cases bound
  have instances : τ.Over σ.Declares := bindings wfInstance.over
  have binds : ∀ v, τ.isBound v = true → (g x y).mentions v = true := by
    intro v bound
    obtain ⟨r, found⟩ := Option.isSome_iff_exists.1 bound
    exact bindings (motive := fun u _ => (g x y).mentions u = true) (by decide) v r found
  have answered : standard.compare (g x y) (f (f (f x))) = .ok .incomparable := by decide +kernel
  have appliedA : τ.apply (g x y) = .ok (g x (f (f x))) := by decide +kernel
  have appliedB : τ.apply (f (f (f x))) = .ok (f (f (f x))) := by decide +kernel
  have greater : standard.compare (g x (f (f x))) (f (f (f x))) = .ok .greater := by
    decide +kernel
  obtain ⟨a', b', s, t, madeA, madeB, laidA, laidB, room⟩ := canBeGreater_of_instance
    (standard_admissible _) grown.regular wfA.over wfB.over rfl rfl instances binds
    (answered ▸ nofun)
  cases appliedA.symm.trans madeA
  cases appliedB.symm.trans madeB
  obtain ⟨answer, tree, flat, depends, -⟩ := room greater
  have spelled : (f (f (f x))).spelling = [.symbol ⟨8, .function, 1⟩, .symbol ⟨8, .function, 1⟩,
    .symbol ⟨8, .function, 1⟩, .var ⟨0, 0⟩] := rfl
  have yes : answer = true := depends.2 fun v inside => by
    have only : v = ⟨0, 0⟩ := by simpa [Term.mentions_iff_mem, spelled] using inside
    subst only
    decide
  subst yes
  exact ⟨⟨wfA, wfB, instances⟩, answered, appliedA, appliedB, greater, tree, s, t, laidA, laidB,
    flat⟩

/-- An answer may be no although some instance is greater. A term is ruled out against a variable
that it lacks, and exceeds the variable when that is put into it. And where a weight is configured
in the upper half of machine words, it stands for a negative one: then a term of one occurrence of
a variable is smaller than one of two, until the variable is bound to a term that weighs less than
nothing. -/
theorem canBeGreater_misses_instances :
    let σ := (((Signature.initial.internFunction "f" 1).2.internFunction "g" 2).2.internConstant
      "c").2
    let x : Term := .var ⟨0, 0⟩
    let y : Term := .var ⟨0, 1⟩
    let c : Term := .app .constant ⟨10, .constant, 0⟩ []
    let f (t : Term) : Term := .app .function ⟨8, .function, 1⟩ [t]
    let g (s t : Term) : Term := .app .function ⟨9, .function, 2⟩ [s, t]
    let flat (k : KnuthBendix) (a b : Term) : Checked Bool := do
      k.canBeGreaterFlat (← Subterm.ofTerm a) (← Subterm.ofTerm b)
    let τ : TreeMatcher := ⟨[(⟨0, 0⟩, y)]⟩
    let ρ : TreeMatcher := ⟨[(⟨0, 0⟩, f c)]⟩
    let k : KnuthBendix := ⟨[(8, 18446744073709551606)], [], 1⟩
    (standard.leastWeight = 1 ∧ (∀ s, standard.symbolWeight s = 1) ∧
      (f x).WellFormed σ ∧ y.WellFormed σ ∧ (f x).isQuantifierFree = true ∧
      y.isQuantifierFree = true ∧ (f x).mentions ⟨0, 0⟩ = true ∧
      τ.apply (f x) = .ok (f y) ∧ τ.apply y = .ok y ∧ standard.compare (f y) y = .ok .greater ∧
      standard.compare (f x) y = .ok .incomparable ∧
      standard.canBeGreater (f x) y = .ok false ∧ flat standard (f x) y = .ok false) ∧
    (1 ≤ k.variableWeight ∧
      (∀ d ∈ σ.declarations, 1 ≤ (k.weights.lookup d.symbol.id).getD 1 ∧
        (d.symbol.arity = 0 → k.variableWeight ≤ (k.weights.lookup d.symbol.id).getD 1)) ∧
      x.WellFormed σ ∧ (g x x).WellFormed σ ∧ (f c).WellFormed σ ∧
      ρ.apply x = .ok (f c) ∧ ρ.apply (g x x) = .ok (g (f c) (f c)) ∧
      k.compare (f c) (g (f c) (f c)) = .ok .greater ∧ k.compare x (g x x) = .ok .smaller ∧
      k.canBeGreater x (g x x) = .ok false ∧ flat k x (g x x) = .ok false) := by
  refine ⟨⟨standard_leastWeight, standard_symbolWeight, ?_⟩, ?_⟩ <;> decide +kernel

/-! ## Trees and subterms -/

/-- The answers for two terms as trees and as subterms agree just when either the comparison leaves
no room or the variables occurring free pass the test as the variables at the leaves do. So they
agree for terms whose variables at the leaves all occur free. -/
theorem canBeGreater_agrees (overA : a.Over alphabet) (overB : b.Over alphabet)
    (fits : k.compare a b ≠ .error .overflow) :
    ∃ s t o tree flat, Subterm.ofTerm a = .ok s ∧ Subterm.ofTerm b = .ok t ∧
      k.compare a b = .ok o ∧ k.canBeGreater a b = .ok tree ∧ k.canBeGreaterFlat s t = .ok flat ∧
      (tree = flat ↔ (leavesGreater o = true →
        ((∀ v, b.OccursFree v → a.OccursFree v) ↔
          ∀ v, b.mentions v = true → a.mentions v = true))) ∧
      ((∀ v, a.mentions v = true → a.OccursFree v) →
        (∀ v, b.mentions v = true → b.OccursFree v) → tree = flat) := by
  obtain ⟨s, t, tree, flat, laidA, laidB, answered, treeGiven, flatGiven, treeDepends,
    flatDepends⟩ := exists_answers overA overB fits
  have agree : tree = flat ↔ (leavesGreater (k.outcome a.spelling b.spelling) = true →
      ((∀ v, b.OccursFree v → a.OccursFree v) ↔
        ∀ v, b.mentions v = true → a.mentions v = true)) := by
    rw [Bool.eq_iff_iff, treeDepends, flatDepends, and_congr_left_iff]
  refine ⟨s, t, _, tree, flat, laidA, laidB, answered, treeGiven, flatGiven, agree, ?_⟩
  intro freeA freeB
  have free {r : Term} (all : ∀ v, r.mentions v = true → r.OccursFree v) (v : Variable) :
      r.OccursFree v ↔ r.mentions v = true := ⟨Term.OccursFree.mentions, all v⟩
  refine agree.2 fun _ => ?_
  simp only [free freeA, free freeB]

/-- Two quantified formulas in one and the same variable. -/
theorem canBeGreater_agrees_quantified :
    let f (t : Term) : Term := .app .function ⟨8, .function, 1⟩ [t]
    let all (t : Term) : Term := .quantified .universal ⟨0, 0⟩ (.app .predicate ⟨9, .predicate, 1⟩ [t])
    let x : Term := .var ⟨0, 0⟩
    (all (f x)).Over Set.univ ∧ (all x).Over Set.univ ∧
      standard.compare (all (f x)) (all x) = .ok .greater ∧
      standard.canBeGreater (all (f x)) (all x) = .ok true ∧
      ∃ s t, Subterm.ofTerm (all (f x)) = .ok s ∧ Subterm.ofTerm (all x) = .ok t ∧
        standard.canBeGreaterFlat s t = .ok true := by
  intro f all x
  have over_all {t : Term} (known : t.Over Set.univ) : (all t).Over Set.univ :=
    .app trivial rfl (List.forall_mem_singleton.2
      (.abstraction (.app trivial rfl (List.forall_mem_singleton.2 known))))
  have overB : (all x).Over Set.univ := over_all (.var _)
  have overA : (all (f x)).Over Set.univ :=
    over_all (.app trivial rfl (List.forall_mem_singleton.2 (.var _)))
  have answered : standard.compare (all (f x)) (all x) = .ok .greater := by decide +kernel
  have fits : standard.compare (all (f x)) (all x) ≠ .error .overflow := answered ▸ nofun
  have yes : standard.canBeGreater (all (f x)) (all x) = .ok true := by decide +kernel
  obtain ⟨s, t, o, tree, flat, laidA, laidB, -, treeGiven, flatGiven, agree, -⟩ :=
    canBeGreater_agrees overA overB fits
  cases yes.symm.trans treeGiven
  have same : true = flat := agree.2 fun _ => by
    -- No variable occurs free in either, and the same one stands at a leaf in both.
    simp [all, f, x, Term.quantified, Term.occursFree_app_iff, Term.occursFree_abstraction_iff,
      Term.occursFree_var_iff, Term.mentions_iff_mem, Term.spelling_eq, Term.head, Term.args]
  subst same
  exact ⟨overA, overB, answered, yes, s, t, laidA, laidB, flatGiven⟩

/-- The answers differ for formulas that quantify different variables, although they are equal up to
the names of these, and for a formula over an instance of its body. -/
theorem canBeGreater_disagrees :
    let σ := (Signature.initial.internPredicate "p" 1).2
    let x : Term := .var ⟨0, 0⟩
    let y : Term := .var ⟨0, 1⟩
    let p (t : Term) : Term := .app .predicate ⟨8, .predicate, 1⟩ [t]
    let flat (a b : Term) : Checked Bool := do
      standard.canBeGreaterFlat (← Subterm.ofTerm a) (← Subterm.ofTerm b)
    let allX : Term := .quantified .universal ⟨0, 0⟩ (p x)
    let allY : Term := .quantified .universal ⟨0, 1⟩ (p y)
    (allX.WellFormed σ ∧ allY.WellFormed σ ∧ (p x).WellFormed σ) ∧
      (standard.compare allY allX = .ok .incomparable ∧
        standard.canBeGreater allY allX = .ok true ∧ flat allY allX = .ok false) ∧
      (standard.compare allX (p x) = .ok .greater ∧
        standard.canBeGreater allX (p x) = .ok false ∧ flat allX (p x) = .ok true) := by
  decide +kernel

end KnuthBendix

end SaturationCore
