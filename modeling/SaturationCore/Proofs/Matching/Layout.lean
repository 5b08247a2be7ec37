/-
# Matching in cells goes as matching trees

A subterm and a tree with one spelling are the same term, stored in two ways. Ledgers of
subterms and of trees correspond when they bind the same variables, in the same order, to
terms that are the same in this sense. Both ways to match go through corresponding pairs in
step: heads, look-ups and the tests on instances and targets come out alike, so the answers
are the same and the ledgers still correspond.

A subterm need not be over the symbols of a signature, but there always is a tree for it. So
what is known about matching trees carries over to all subterms.
-/
import SaturationCore.Proofs.Ledger.Replacement
import SaturationCore.Proofs.Matching.Step

namespace SaturationCore

/-! ## Terms -/

namespace Subterm

variable {s s' : Subterm} {t t' : Term}

/-- The subterm is the tree, laid out in cells. -/
def LaysOut (s : Subterm) (t : Term) : Prop :=
  s.spelling = t.spelling ∧ t.Consistent

theorem exists_ofTerm_eq (consistent : t.Consistent) : ∃ s, ofTerm t = .ok s ∧ s.LaysOut t := by
  obtain ⟨s, made, spelled⟩ := ofSpelling_of_spells consistent.spells
  exact ⟨s, made, spelled, consistent⟩

theorem laysOut_of_toTerm (made : s.toTerm = .ok t) (consistent : t.Consistent) : s.LaysOut t :=
  ⟨spelling_of_toTerm made consistent, consistent⟩

theorem LaysOut.spelling_eq_iff (laid : s.LaysOut t) (laid' : s'.LaysOut t') :
    s.spelling = s'.spelling ↔ t = t' := by
  rw [laid.1, laid'.1]
  exact laid.2.spelling_eq_iff laid'.2

theorem LaysOut.beq_eq (laid : s.LaysOut t) (laid' : s'.LaysOut t') :
    (s == s') = decide (t = t') := by
  have same : (s.spelling == s'.spelling) = true ↔ t = t' := by
    rw [beq_iff_eq, laid.spelling_eq_iff laid']
  rw [Bool.eq_iff_iff, decide_eq_true_eq]
  exact same

theorem LaysOut.isQuantifierFree_eq (laid : s.LaysOut t) :
    s.isQuantifierFree = t.isQuantifierFree := by
  rw [isQuantifierFree, Term.isQuantifierFree, laid.1]

theorem LaysOut.root (laid : s.LaysOut t) :
    s.head = t.head ∧ s.args.flatMap spelling = t.args.flatMap Term.spelling := by
  have spelled := laid.1
  rwa [spelling_eq, Term.spelling_eq, List.cons.injEq] at spelled

/-- Equally many terms that are spelled the same are the same place by place. -/
theorem forall₂_laysOut {ss : List Subterm} {ts : List Term} (len : ss.length = ts.length)
    (consistent : ∀ t ∈ ts, t.Consistent)
    (spelled : ss.flatMap spelling = ts.flatMap Term.spelling) : List.Forall₂ LaysOut ss ts := by
  induction ss generalizing ts with
  | nil =>
      cases List.length_eq_zero_iff.1 len.symm
      exact .nil
  | cons s ss ih =>
      cases ts with
      | nil => cases len
      | cons t ts =>
          rw [List.forall_mem_cons] at consistent
          rw [List.flatMap_cons, List.flatMap_cons] at spelled
          obtain ⟨first, others⟩ := s.spells.cancel consistent.1.spells spelled
          exact .cons ⟨first, consistent.1⟩ (ih (Nat.succ.inj len) consistent.2 others)

theorem LaysOut.args (laid : s.LaysOut t) : List.Forall₂ LaysOut s.args t.args := by
  obtain ⟨root, inner⟩ := laid.root
  refine forall₂_laysOut ?_ (fun a ha => laid.2.of_mem_args ha) inner
  rw [s.length_args, laid.2.length_args, root]

end Subterm

/-! ## Ledgers -/

namespace Matcher

variable {σ : Matcher} {τ : TreeMatcher} {v : Variable} {s : Subterm} {t : Term}

/-- The ledgers bind the same variables, in the same order, to the same terms. -/
def LaysOut (σ : Matcher) (τ : TreeMatcher) : Prop :=
  List.Forall₂ (fun b c => b.1 = c.1 ∧ b.2.LaysOut c.2) σ.bindings τ.bindings

theorem LaysOut.get?_cases (laid : σ.LaysOut τ) (v : Variable) :
    (σ.get? v = none ∧ τ.get? v = none) ∨
      ∃ s t, σ.get? v = some s ∧ τ.get? v = some t ∧ s.LaysOut t := by
  rw [Ledger.get?, Ledger.get?]
  rw [LaysOut] at laid
  generalize σ.bindings = bindings, τ.bindings = trees at laid
  induction laid with
  | nil => exact .inl ⟨rfl, rfl⟩
  | @cons b c bindings trees here _ ih =>
      obtain ⟨u, s⟩ := b
      obtain ⟨w, t⟩ := c
      obtain ⟨vars, same⟩ : u = w ∧ s.LaysOut t := here
      rw [List.lookup_cons, List.lookup_cons, vars]
      cases v == w with
      | true => exact .inr ⟨s, t, rfl, rfl, same⟩
      | false => exact ih

theorem LaysOut.exists_get? (laid : σ.LaysOut τ) (bound : τ.get? v = some t) :
    ∃ s, σ.get? v = some s ∧ s.LaysOut t := by
  rcases laid.get?_cases v with ⟨-, free⟩ | ⟨s, u, found, bound', same⟩
  · cases free.symm.trans bound
  · cases bound'.symm.trans bound
    exact ⟨s, found, same⟩

theorem LaysOut.get?_eq_none (laid : σ.LaysOut τ) (unbound : τ.get? v = none) :
    σ.get? v = none := by
  rcases laid.get?_cases v with ⟨free, -⟩ | ⟨_, _, -, bound, -⟩
  · exact free
  · cases unbound.symm.trans bound

theorem LaysOut.push (laid : σ.LaysOut τ) (v : Variable) (here : s.LaysOut t) :
    LaysOut (σ.push v s) (τ.push v t) :=
  .cons ⟨rfl, here⟩ laid

/-- The ledgers bind the same variables to the same terms, in whatever order. -/
def SameBindings (σ : Matcher) (τ : TreeMatcher) : Prop :=
  ∀ v, Option.Rel Subterm.LaysOut (σ.get? v) (τ.get? v)

/-- Ledgers with the same bindings read corresponding terms alike. -/
theorem SameBindings.instanceSpelling_eq (same : σ.SameBindings τ) (here : s.LaysOut t) :
    σ.instanceSpelling s = (τ.replace t).spelling := by
  rw [instanceSpelling, here.1]
  clear here
  induction t using Term.induction with
  | var v =>
      rw [TreeMatcher.replace_var, TreeMatcher.deref_var]
      have expands : (Term.var v).spelling.flatMap σ.expand = σ.expand (.var v) :=
        List.append_nil _
      rw [expands, expand, Head.asVariable, Option.bind_some]
      have instances := same v
      generalize σ.get? v = found, τ.get? v = found' at instances
      cases instances with
      | none => rfl
      | some laid => exact laid.1
  | app role f args ih =>
      rw [TreeMatcher.replace_app, Term.spelling_eq, Term.spelling_eq (.app _ _ _),
        List.flatMap_cons, List.flatMap_assoc, Term.args, Term.args, List.flatMap_map,
        List.flatMap_congr ih]
      rfl
  | abstraction v body ih =>
      rw [TreeMatcher.replace_abstraction, Term.spelling_eq, Term.spelling_eq (.abstraction _ _),
        List.flatMap_cons, Term.args, Term.args, List.flatMap_singleton, List.flatMap_singleton, ih]
      rfl

/-- Both sides of the pairs are the same terms. -/
def SamePairs : List (Subterm × Subterm) → List (Term × Term) → Prop :=
  List.Forall₂ fun a b => a.1.LaysOut b.1 ∧ a.2.LaysOut b.2

theorem SamePairs.exists_cons {p t : Term} {pairs : List (Subterm × Subterm)}
    {rest : List (Term × Term)} (rows : SamePairs pairs ((p, t) :: rest)) :
    ∃ q s others, pairs = (q, s) :: others ∧ q.LaysOut p ∧ s.LaysOut t ∧
      SamePairs others rest := by
  obtain ⟨⟨q, s⟩, others, ⟨left, right⟩, same, rfl⟩ := List.forall₂_cons_right_iff.1 rows
  exact ⟨q, s, others, rfl, left, right, same⟩

theorem SamePairs.zip {ps ts : List Subterm} {ps' ts' : List Term}
    (left : List.Forall₂ Subterm.LaysOut ps ps') (right : List.Forall₂ Subterm.LaysOut ts ts') :
    SamePairs (ps.zip ts) (ps'.zip ts') := by
  induction left generalizing ts ts' with
  | nil => exact .nil
  | cons p _ ih =>
      cases right with
      | nil => exact .nil
      | cons t right => exact .cons ⟨p, t⟩ (ih right)

/-- The answers are the same, and the ledgers correspond. -/
def SameAnswers (answer : Bool × Matcher) (answer' : Bool × TreeMatcher) : Prop :=
  answer.1 = answer'.1 ∧ answer.2.LaysOut answer'.2

theorem matchPairs_same {pairs : List (Subterm × Subterm)} {pairs' : List (Term × Term)}
    (rows : SamePairs pairs pairs') (laid : σ.LaysOut τ) :
    SameAnswers
      (Subterm.matchPairs (fun _ s t => s == t) (fun _ t => t.isQuantifierFree) pairs σ)
      (TreeMatcher.matchPairs pairs' τ) := by
  -- On corresponding pairs both recursions take the same case, and what is left corresponds again.
  fun_induction TreeMatcher.matchPairs pairs' τ generalizing pairs σ with
  | case1 τ =>
      cases rows
      rw [Subterm.matchPairs]
      exact ⟨rfl, laid⟩
  | case2 p rest τ v root t bound ih =>
      obtain ⟨q, s, others, rfl, left, right, same⟩ := rows.exists_cons
      obtain ⟨i, found, agree⟩ := laid.exists_get? bound
      rw [← left.root.1] at root
      simp only [Subterm.matchPairs, root, found, agree.beq_eq right, decide_true, if_true]
      exact ih same laid
  | case3 p t rest τ v root u bound differ =>
      obtain ⟨q, s, others, rfl, left, right, same⟩ := rows.exists_cons
      obtain ⟨i, found, agree⟩ := laid.exists_get? bound
      rw [← left.root.1] at root
      simp only [Subterm.matchPairs, root, found, agree.beq_eq right, differ, decide_false]
      exact ⟨rfl, laid⟩
  | case4 p t rest τ v root unbound plain ih =>
      obtain ⟨q, s, others, rfl, left, right, same⟩ := rows.exists_cons
      rw [← left.root.1] at root
      rw [← right.isQuantifierFree_eq] at plain
      simp only [Subterm.matchPairs, root, laid.get?_eq_none unbound, plain, if_true]
      exact ih same (laid.push v right)
  | case5 p t rest τ v root unbound refuse =>
      obtain ⟨q, s, others, rfl, left, right, same⟩ := rows.exists_cons
      rw [← left.root.1] at root
      rw [← right.isQuantifierFree_eq] at refuse
      simp only [Subterm.matchPairs, root, laid.get?_eq_none unbound, refuse]
      exact ⟨rfl, laid⟩
  | case6 p t rest τ rigid parts =>
      obtain ⟨q, s, others, rfl, left, right, same⟩ := rows.exists_cons
      rw [← left.root.1, ← right.root.1] at parts
      rw [Subterm.matchPairs]
      split
      · next v root => exact (rigid v (left.root.1.symm.trans root)).elim
      · rw [if_pos parts]
        exact ⟨rfl, laid⟩
  | case7 p t rest τ rigid together ih =>
      obtain ⟨q, s, others, rfl, left, right, same⟩ := rows.exists_cons
      rw [← left.root.1, ← right.root.1] at together
      rw [Subterm.matchPairs]
      split
      · next v root => exact (rigid v (left.root.1.symm.trans root)).elim
      · rw [if_neg together]
        have args : SamePairs (q.args.zip s.args) (p.args.zip t.args) := .zip left.args right.args
        exact ih (List.rel_append (List.forall₂_reverse_iff.2 args) same) laid

theorem LaysOut.settle (laid : σ.LaysOut τ) {answer : Bool × Matcher}
    {answer' : Bool × TreeMatcher} (same : SameAnswers answer answer') :
    SameAnswers (σ.settle answer) (τ.settle answer') := by
  obtain ⟨matched, ω⟩ := answer
  obtain ⟨matched', ω'⟩ := answer'
  obtain ⟨equal, ledgers⟩ := same
  cases (equal : matched = matched')
  cases matched with
  | true => exact ⟨rfl, ledgers⟩
  | false =>
      have sizes : σ.size = τ.size := List.Forall₂.length_eq laid
      have sizes' : ω.size = ω'.size := List.Forall₂.length_eq ledgers
      refine ⟨rfl, ?_⟩
      show List.Forall₂ _ (ω.bindings.drop _) (ω'.bindings.drop _)
      rw [sizes, sizes']
      exact List.forall₂_drop _ ledgers

/-- Matching subterms and matching trees give the same answer and bind the same variables to the
same terms, in the same order. -/
theorem LaysOut.attemptMatch {p' t' : Term} {p t : Subterm} (laid : σ.LaysOut τ)
    (left : p.LaysOut p') (right : t.LaysOut t') :
    SameAnswers (σ.attemptMatch p t) (τ.attemptMatch p' t') :=
  laid.settle (matchPairs_same (.cons ⟨left, right⟩ .nil) laid)

end Matcher

end SaturationCore
