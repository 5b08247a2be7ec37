/-
# Matching trees decides the existence of instances

A step of matching trees changes the pairs and the ledger, but not the question that they
pose: which ledgers keep the bindings made so far and make every pattern that is left its
target. Where no step is possible, no ledger does, or a quantifier is left. So an attempt
to match succeeds exactly when there are instances and no quantifiers, and what it binds is
forced.

All this is said of pairs of rows of trees, so that several attempts in a row count as one.
-/
import SaturationCore.Proofs.Ledger.Replacement
import SaturationCore.Proofs.Matching.Step

namespace SaturationCore

namespace TreeMatcher

variable {σ τ υ ω : TreeMatcher} {pairs pairs' : List (Term × Term)} {p t : Term} {v : Variable}

/-- The ledger makes the left side of every pair its right side. -/
def Makes (ω : TreeMatcher) (pairs : List (Term × Term)) : Prop :=
  ∀ p ∈ pairs, ω.replace p.1 = p.2

/-- Both sides of every pair are without quantifiers. -/
def PlainSides (pairs : List (Term × Term)) : Prop :=
  ∀ p ∈ pairs, p.1.isQuantifierFree = true ∧ p.2.isQuantifierFree = true

/-- Both sides of every pair are consistent. -/
def ConsistentSides (pairs : List (Term × Term)) : Prop :=
  ∀ p ∈ pairs, p.1.Consistent ∧ p.2.Consistent

/-- The variable occurs on the left side of a pair. -/
def MentionedLeft (v : Variable) (pairs : List (Term × Term)) : Prop :=
  ∃ p ∈ pairs, p.1.mentions v = true

/-! ## Rows of arguments -/

theorem makes_zip {as bs : List Term} (len : as.length = bs.length) :
    ω.Makes (as.zip bs) ↔ as.map ω.replace = bs := by
  induction as generalizing bs with
  | nil =>
      cases bs with
      | nil => simp [Makes]
      | cons b bs => cases len
  | cons a as ih =>
      cases bs with
      | nil => cases len
      | cons b bs =>
          rw [List.map_cons, List.cons.injEq, ← ih (Nat.succ.inj len), List.zip_cons_cons, Makes,
            List.forall_mem_cons]
          rfl

theorem plainSides_zip {as bs : List Term} (len : as.length = bs.length) :
    PlainSides (as.zip bs) ↔
      (∀ a ∈ as, a.isQuantifierFree = true) ∧ ∀ b ∈ bs, b.isQuantifierFree = true := by
  have left : (∀ a ∈ (as.zip bs).map Prod.fst, a.isQuantifierFree = true) ↔ _ := List.forall_mem_map
  have right : (∀ b ∈ (as.zip bs).map Prod.snd, b.isQuantifierFree = true) ↔ _ :=
    List.forall_mem_map
  rw [List.map_fst_zip (Nat.le_of_eq len)] at left
  rw [List.map_snd_zip (Nat.le_of_eq len.symm)] at right
  rw [PlainSides, forall₂_and, left, right]

theorem mentionedLeft_zip {as bs : List Term} (len : as.length = bs.length) :
    MentionedLeft v (as.zip bs) ↔ ∃ a ∈ as, a.mentions v = true := by
  rw [← List.map_fst_zip (Nat.le_of_eq len)]
  simp only [MentionedLeft, List.mem_map, exists_exists_and_eq_and]
  rw [List.map_fst_zip (Nat.le_of_eq len)]

/-! ## What a step leaves as it is -/

/-- Two states of the work on pairs pose the same question. -/
structure SameQuestion (s s' : List (Term × Term) × TreeMatcher) : Prop where
  makes_iff : ∀ ω : TreeMatcher, ω.Keeps s'.2 ∧ ω.Makes s'.1 ↔ ω.Keeps s.2 ∧ ω.Makes s.1
  bound_iff : ∀ v, s'.2.isBound v = true ∨ MentionedLeft v s'.1 ↔
    s.2.isBound v = true ∨ MentionedLeft v s.1
  consistent : ConsistentSides s.1 → ConsistentSides s'.1
  plain : PlainSides s.1 → PlainSides s'.1
  plain_back : Plain s.2 → Plain s'.2 ∧ (PlainSides s'.1 → PlainSides s.1)

theorem SameQuestion.refl (s : List (Term × Term) × TreeMatcher) : SameQuestion s s :=
  ⟨fun _ => Iff.rfl, fun _ => Iff.rfl, id, id, fun plain => ⟨plain, id⟩⟩

theorem SameQuestion.trans {s s' s'' : List (Term × Term) × TreeMatcher}
    (first : SameQuestion s s') (second : SameQuestion s' s'') : SameQuestion s s'' where
  makes_iff ω := (second.makes_iff ω).trans (first.makes_iff ω)
  bound_iff v := (second.bound_iff v).trans (first.bound_iff v)
  consistent := second.consistent ∘ first.consistent
  plain := second.plain ∘ first.plain
  plain_back plain := by
    obtain ⟨plain', back⟩ := first.plain_back plain
    obtain ⟨plain'', back'⟩ := second.plain_back plain'
    exact ⟨plain'', back ∘ back'⟩

theorem makes_cons : ω.Makes ((p, t) :: pairs) ↔ ω.replace p = t ∧ ω.Makes pairs :=
  List.forall_mem_cons

theorem makes_append : ω.Makes (pairs ++ pairs') ↔ ω.Makes pairs ∧ ω.Makes pairs' :=
  List.forall_mem_append

theorem mentionedLeft_cons :
    MentionedLeft v ((p, t) :: pairs) ↔ p.mentions v = true ∨ MentionedLeft v pairs :=
  List.exists_mem_cons_iff ..

theorem mentionedLeft_append :
    MentionedLeft v (pairs ++ pairs') ↔ MentionedLeft v pairs ∨ MentionedLeft v pairs' := by
  simp only [MentionedLeft, List.mem_append, or_and_right, exists_or]

/-- An instance that agrees with the target settles a pair. -/
theorem SameQuestion.agree (bound : σ.get? v = some t) :
    SameQuestion ((.var v, t) :: pairs, σ) (pairs, σ) where
  makes_iff ω := by
    rw [makes_cons, replace_var]
    exact ⟨fun ⟨keeps, makes⟩ => ⟨keeps, keeps v t bound, makes⟩,
      fun ⟨keeps, _, makes⟩ => ⟨keeps, makes⟩⟩
  bound_iff u := by
    have already : u = v → σ.isBound u = true := by
      rintro rfl
      rw [Ledger.isBound, bound, Option.isSome_some]
    rw [mentionedLeft_cons, Term.mentions_var, ← or_assoc, or_iff_left_of_imp already]
  consistent consistent := (List.forall_mem_cons.1 consistent).2
  plain plain := (List.forall_mem_cons.1 plain).2
  plain_back plain := ⟨plain, fun rest => List.forall_mem_cons.2 ⟨⟨rfl, plain v t bound⟩, rest⟩⟩

/-- Binding a variable to its target settles a pair. -/
theorem SameQuestion.bind (unbound : σ.get? v = none) (free : t.isQuantifierFree = true) :
    SameQuestion ((.var v, t) :: pairs, σ) (pairs, σ.push v t) where
  makes_iff ω := by
    rw [makes_cons, replace_var, keeps_push unbound, and_assoc]
  bound_iff u := by
    rw [mentionedLeft_cons, Term.mentions_var, Ledger.isBound_push, or_left_comm, or_assoc]
  consistent consistent := (List.forall_mem_cons.1 consistent).2
  plain plain := (List.forall_mem_cons.1 plain).2
  plain_back plain := ⟨plain.push free, fun rest => List.forall_mem_cons.2 ⟨⟨rfl, free⟩, rest⟩⟩

/-- Pairs of arguments in the place of a pair of trees ask the same. -/
theorem SameQuestion.descend {f : Symbol} {role role' : SymbolKind} {args args' : List Term}
    (consistent : ConsistentSides ((.app role f args, .app role' f args') :: pairs))
    (free : f.kind ≠ .quantifier) :
    SameQuestion ((.app role f args, .app role' f args') :: pairs, σ)
      ((args.zip args').reverse ++ pairs, σ) := by
  obtain ⟨⟨left, right⟩, rest⟩ := List.forall_mem_cons.1 consistent
  obtain ⟨rfl, len, inner⟩ := left.app
  obtain ⟨rfl, len', inner'⟩ := right.app
  have same : args.length = args'.length := len.trans len'.symm
  have mem {p : Term × Term} : p ∈ (args.zip args').reverse ↔ p ∈ args.zip args' :=
    List.mem_reverse
  have plain : PlainSides (args.zip args').reverse ↔
      (Term.app f.kind f args).isQuantifierFree = true ∧
        (Term.app f.kind f args').isQuantifierFree = true := by
    have root : (Head.symbol f).isBinder = false := by simpa [Head.isBinder] using free
    rw [Term.isQuantifierFree_iff, Term.isQuantifierFree_iff]
    simp only [PlainSides, mem, Term.head, Term.args, root, true_and]
    exact plainSides_zip same
  constructor
  · intro ω
    have row : ω.Makes (args.zip args').reverse ↔
        ω.replace (.app f.kind f args) = .app f.kind f args' := by
      rw [replace_app]
      simp only [Makes, mem, Term.app.injEq, true_and]
      exact makes_zip same
    rw [makes_cons, makes_append, row]
  · intro v
    have row : MentionedLeft v (args.zip args').reverse ↔
        (Term.app f.kind f args).mentions v = true := by
      rw [Term.mentions_eq_true_iff]
      simp only [MentionedLeft, mem, Term.head, Term.args, reduceCtorEq, false_or]
      exact mentionedLeft_zip same
    rw [mentionedLeft_cons, mentionedLeft_append, row]
  · intro _
    refine List.forall_mem_append.2 ⟨fun p hp => ?_, rest⟩
    have sides := List.of_mem_zip (mem.1 hp)
    exact ⟨inner p.1 sides.1, inner' p.2 sides.2⟩
  · intro all
    obtain ⟨here, others⟩ := List.forall_mem_cons.1 all
    exact List.forall_mem_append.2 ⟨plain.2 here, others⟩
  · intro ledger
    refine ⟨ledger, fun all => ?_⟩
    obtain ⟨here, others⟩ := List.forall_mem_append.1 all
    exact List.forall_mem_cons.2 ⟨plain.1 here, others⟩

theorem SameQuestion.of_step {s s' : List (Term × Term) × TreeMatcher}
    (consistent : ConsistentSides s.1) (step : matching.Step s s') : SameQuestion s s' := by
  cases step with
  | @agree σ p t s rest v root bound same =>
      cases Term.eq_var_of_head root
      cases (same : s = t)
      exact .agree bound
  | @bind σ p t rest v root unbound free =>
      cases Term.eq_var_of_head root
      exact .bind unbound free
  | @descend σ p t rest f root free root' =>
      obtain ⟨role, args, rfl⟩ := Term.exists_app_of_head root
      obtain ⟨role', args', rfl⟩ := Term.exists_app_of_head root'
      exact .descend consistent free

theorem SameQuestion.of_run {s s' : List (Term × Term) × TreeMatcher}
    (consistent : ConsistentSides s.1) (run : matching.Run s s') : SameQuestion s s' := by
  induction run with
  | refl => exact .refl _
  | tail _ step ih => exact ih.trans (.of_step (ih.consistent consistent) step)

/-- Where work gets stuck, no ledger gives instances, or a quantifier is left. -/
theorem not_makes_of_stuck (stuck : matching.Stuck (p, t) σ) (keeps : ω.Keeps σ)
    (plain : p.isQuantifierFree = true ∧ t.isQuantifierFree = true) : ω.replace p ≠ t := by
  intro made
  cases stuck with
  | @disagree _ _ _ s v root bound differ =>
      cases Term.eq_var_of_head root
      rw [replace_var, keeps v s bound] at made
      exact differ made
  | refuse _ _ refuse => exact refuse plain.2
  | clash rigid parts =>
      rcases parts with binder | differ
      · have free := (Term.isQuantifierFree_iff.1 plain.1).1
        have binder : p.head.isBinder = true := binder
        rw [free] at binder
        cases binder
      · apply differ
        show p.head = t.head
        rw [← made, head_replace rigid]

/-! ## What an attempt answers -/

/-- The ledger was extended by what makes the left side of every pair its right side, and by
nothing else. -/
structure Matched (σ τ : TreeMatcher) (pairs : List (Term × Term)) : Prop where
  extended : τ.Extends σ
  get?_eq : ∀ v t, σ.get? v = some t → τ.get? v = some t
  bound_iff : ∀ v, τ.isBound v = true ↔ σ.isBound v = true ∨ MentionedLeft v pairs
  keeps_iff : ∀ ω : TreeMatcher, ω.Keeps τ ↔ ω.Keeps σ ∧ ω.Makes pairs
  plain : σ.Plain → τ.Plain ∧ PlainSides pairs

theorem Matched.of_run (consistent : ConsistentSides pairs)
    (run : matching.Run (pairs, σ) ([], τ)) : Matched σ τ pairs := by
  have same := SameQuestion.of_run consistent run
  refine ⟨run.extended, fun _ _ => run.get?_eq, fun v => ?_, fun ω => ?_, fun plain => ?_⟩
  · rw [← same.bound_iff v]
    simp [MentionedLeft]
  · rw [← same.makes_iff ω]
    simp [Makes]
  · obtain ⟨plain', back⟩ := same.plain_back plain
    exact ⟨plain', back fun p hp => absurd hp List.not_mem_nil⟩

theorem Matched.trans (first : Matched σ τ pairs) (second : Matched τ υ pairs') :
    Matched σ υ (pairs ++ pairs') where
  extended := second.extended.trans first.extended
  get?_eq v t bound := second.get?_eq v t (first.get?_eq v t bound)
  bound_iff v := by
    rw [second.bound_iff, first.bound_iff, mentionedLeft_append, or_assoc]
  keeps_iff ω := by
    rw [second.keeps_iff, first.keeps_iff, makes_append, and_assoc]
  plain plain := by
    obtain ⟨plain', sides⟩ := first.plain plain
    obtain ⟨plain'', sides'⟩ := second.plain plain'
    exact ⟨plain'', List.forall_mem_append.2 ⟨sides, sides'⟩⟩

/-- The answer tells whether the pairs can be made: either the ledger was extended by what makes
them, or it is as it was and no ledger that keeps it makes them without quantifiers. -/
inductive Decided (σ : TreeMatcher) (pairs : List (Term × Term)) : Bool × TreeMatcher → Prop where
  | matched {τ : TreeMatcher} : Matched σ τ pairs → Decided σ pairs (true, τ)
  | refused :
      (∀ ω : TreeMatcher, ω.Keeps σ → PlainSides pairs → ¬ ω.Makes pairs) →
      Decided σ pairs (false, σ)

theorem decided_attemptMatch (left : p.Consistent) (right : t.Consistent) (σ : TreeMatcher) :
    Decided σ [(p, t)] (σ.attemptMatch p t) := by
  have consistent : ConsistentSides [(p, t)] := List.forall_mem_singleton.2 ⟨left, right⟩
  rw [attemptMatch]
  rcases (matchPairs_settles [(p, t)] σ).settle with
    ⟨τ, matched, run⟩ | ⟨failed, q, rest, τ, run, stuck⟩
  · rw [matched]
    exact .matched (.of_run consistent run)
  · rw [failed]
    refine .refused fun ω keeps plain makes => ?_
    have same := SameQuestion.of_run consistent run
    obtain ⟨keeps', makes'⟩ := (same.makes_iff ω).2 ⟨keeps, makes⟩
    exact not_makes_of_stuck stuck keeps' (same.plain plain q List.mem_cons_self)
      (makes' q List.mem_cons_self)

/-- What is refused is refused with further pairs. -/
theorem Decided.refused_append
    (none : ∀ ω : TreeMatcher, ω.Keeps σ → PlainSides pairs → ¬ ω.Makes pairs)
    (pairs' : List (Term × Term)) : Decided σ (pairs ++ pairs') (false, σ) :=
  .refused fun ω keeps plain makes =>
    none ω keeps (List.forall_mem_append.1 plain).1 (makes_append.1 makes).1

/-- Two attempts in a row decide about all their pairs, if a failure of the second one undoes the
first. -/
theorem Decided.append {answer : Bool × TreeMatcher} (first : Matched σ τ pairs)
    (second : Decided τ pairs' answer) : Decided σ (pairs ++ pairs') (σ.settle answer) := by
  cases second with
  | matched second => exact .matched (first.trans second)
  | refused none =>
      rw [Ledger.settle, first.extended.truncate_eq]
      refine .refused fun ω keeps plain makes => ?_
      obtain ⟨makes, makes'⟩ := makes_append.1 makes
      exact none ω ((first.keeps_iff ω).2 ⟨keeps, makes⟩) (List.forall_mem_append.1 plain).2 makes'

end TreeMatcher

end SaturationCore
