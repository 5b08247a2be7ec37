/-
# Steps of matching

The three ways to match work off a stack of pairs, each of a pattern and a target. A step
takes the pair on top and drops it, binds a variable to the target or puts the pairs of
arguments in its place. The ways differ in what is matched, in how an instance that is
found in the ledger has to agree with a target, and in which targets a variable takes.

Steps only ever add bindings of unbound variables. An attempt to match goes from step to step until
none is possible, succeeds when no pair is left, and otherwise leaves the ledger as it
was.
-/
import SaturationCore.Matching
import SaturationCore.Proofs.Ledger.Acyclic

namespace SaturationCore

variable {ι : Type}

namespace Ledger

variable {σ τ : Ledger ι} {wanted : Variable → Prop}

theorem isBound_eq_false_iff {v : Variable} : σ.isBound v = false ↔ σ.get? v = none := by
  rw [isBound, Option.isSome_eq_false_iff, Option.isNone_iff_eq_none]

/-- One ledger is the other with exactly one binding more for each of the wanted variables that
was not bound. -/
def Adds (τ σ : Ledger ι) (wanted : Variable → Prop) : Prop :=
  ∃ fresh : List (Variable × ι), τ.bindings = fresh ++ σ.bindings ∧ (fresh.map Prod.fst).Nodup ∧
    ∀ v, v ∈ fresh.map Prod.fst ↔ σ.isBound v = false ∧ wanted v

theorem Adds.congr {wanted' : Variable → Prop} (adds : τ.Adds σ wanted)
    (same : ∀ v, σ.isBound v = false → (wanted v ↔ wanted' v)) : τ.Adds σ wanted' := by
  obtain ⟨fresh, bindings, nodup, mem_iff⟩ := adds
  exact ⟨fresh, bindings, nodup, fun v => (mem_iff v).trans (and_congr_right (same v))⟩

theorem adds_refl (σ : Ledger ι) : σ.Adds σ (σ.isBound · = true) := by
  refine ⟨[], rfl, List.nodup_nil, fun v => iff_of_false List.not_mem_nil ?_⟩
  rintro ⟨unbound, bound⟩
  exact Bool.false_ne_true (unbound.symm.trans bound)

theorem Adds.push {v : Variable} (value : ι) (adds : τ.Adds σ (τ.isBound · = true))
    (before : σ.isBound v = false) (unbound : τ.isBound v = false) :
    (τ.push v value).Adds σ ((τ.push v value).isBound · = true) := by
  obtain ⟨fresh, bindings, nodup, mem_iff⟩ := adds
  refine ⟨(v, value) :: fresh, congrArg ((v, value) :: ·) bindings,
    List.nodup_cons.2 ⟨fun old => ?_, nodup⟩, fun u => ?_⟩
  · exact Bool.false_ne_true (unbound.symm.trans ((mem_iff v).1 old).2)
  · simp only [List.map_cons, List.mem_cons, mem_iff, isBound_push]
    constructor
    · rintro (rfl | ⟨free, bound⟩)
      · exact ⟨before, .inl rfl⟩
      · exact ⟨free, .inr bound⟩
    · rintro ⟨free, rfl | bound⟩
      · exact .inl rfl
      · exact .inr ⟨free, bound⟩

theorem Adds.get?_eq (adds : τ.Adds σ wanted) {v : Variable} {t : ι} (bound : σ.get? v = some t) :
    τ.get? v = some t := by
  obtain ⟨fresh, bindings, -, mem_iff⟩ := adds
  have old : fresh.lookup v = none := by
    rw [List.lookup_eq_none_iff]
    intro b hb
    rw [bne_iff_ne]
    rintro rfl
    have unbound := isBound_eq_false_iff.1 ((mem_iff b.1).1 (List.mem_map_of_mem hb)).1
    cases unbound.symm.trans bound
  rw [get?, bindings, List.lookup_append, old, Option.none_or]
  exact bound

end Ledger

/-- A way to match: what is seen of patterns and targets, how an instance has to agree
with a target, and which targets a variable takes. -/
structure Matching (ι : Type) where
  head : ι → Head
  args : ι → List ι
  agrees : Ledger ι → ι → ι → Prop
  takes : Variable → ι → Prop

namespace Matching

/-- One step of the work on a stack of pairs under a ledger. -/
inductive Step (m : Matching ι) : List (ι × ι) × Ledger ι → List (ι × ι) × Ledger ι → Prop where
  /-- The pattern is a bound variable, and its instance agrees with the target. -/
  | agree {σ : Ledger ι} {p t s : ι} {rest : List (ι × ι)} {v : Variable} :
      m.head p = .var v → σ.get? v = some s → m.agrees σ s t → Step m ((p, t) :: rest, σ) (rest, σ)
  /-- The pattern is an unbound variable, which becomes the target. -/
  | bind {σ : Ledger ι} {p t : ι} {rest : List (ι × ι)} {v : Variable} :
      m.head p = .var v → σ.get? v = none → m.takes v t →
      Step m ((p, t) :: rest, σ) (rest, σ.push v t)
  /-- Both sides have one symbol at the root, and their arguments are to be matched, the
  last ones first. -/
  | descend {σ : Ledger ι} {p t : ι} {rest : List (ι × ι)} {f : Symbol} :
      m.head p = .symbol f → f.kind ≠ .quantifier → m.head t = .symbol f →
      Step m ((p, t) :: rest, σ) (((m.args p).zip (m.args t)).reverse ++ rest, σ)

/-- Several steps. -/
abbrev Run (m : Matching ι) :
    List (ι × ι) × Ledger ι → List (ι × ι) × Ledger ι → Prop :=
  Relation.ReflTransGen m.Step

/-- The pair on top allows no step. -/
inductive Stuck (m : Matching ι) : ι × ι → Ledger ι → Prop where
  /-- The pattern is a bound variable whose instance does not agree with the target. -/
  | disagree {σ : Ledger ι} {p t s : ι} {v : Variable} :
      m.head p = .var v → σ.get? v = some s → ¬ m.agrees σ s t → Stuck m (p, t) σ
  /-- The pattern is an unbound variable that does not take the target. -/
  | refuse {σ : Ledger ι} {p t : ι} {v : Variable} :
      m.head p = .var v → σ.get? v = none → ¬ m.takes v t → Stuck m (p, t) σ
  /-- The pattern is no variable, and its root is a binder or not that of the target. -/
  | clash {σ : Ledger ι} {p t : ι} :
      (∀ v, m.head p ≠ .var v) → (m.head p).isBinder = true ∨ m.head p ≠ m.head t →
      Stuck m (p, t) σ

/-- The work comes to an end, and the answer says whether all pairs were worked off. -/
inductive Settles (m : Matching ι) (pairs : List (ι × ι)) (σ : Ledger ι) :
    Bool × Ledger ι → Prop where
  | matched {τ : Ledger ι} : m.Run (pairs, σ) ([], τ) → Settles m pairs σ (true, τ)
  | stuck {p : ι × ι} {rest : List (ι × ι)} {τ : Ledger ι} :
      m.Run (pairs, σ) (p :: rest, τ) → m.Stuck p τ → Settles m pairs σ (false, τ)

variable {m : Matching ι} {pairs pairs' : List (ι × ι)} {σ σ' : Ledger ι}

theorem Settles.step {answer : Bool × Ledger ι} (first : m.Step (pairs, σ) (pairs', σ'))
    (later : m.Settles pairs' σ' answer) : m.Settles pairs σ answer := by
  cases later with
  | matched run => exact .matched (.head first run)
  | stuck run stuck => exact .stuck (.head first run) stuck

/-- Two roots that do not part can be left behind. -/
theorem Step.of_roots {p t : ι} {rest : List (ι × ι)} (rigid : ∀ v, m.head p ≠ .var v)
    (plain : (m.head p).isBinder = false) (same : m.head p = m.head t) :
    m.Step ((p, t) :: rest, σ) (((m.args p).zip (m.args t)).reverse ++ rest, σ) := by
  cases root : m.head p with
  | var v => exact absurd root (rigid v)
  | binder v =>
      rw [root] at plain
      cases plain
  | symbol f =>
      rw [root] at plain
      exact .descend root (by simpa [Head.isBinder] using plain) (same ▸ root)

/-! ## What steps do to the ledger -/

theorem Step.extended {s s' : List (ι × ι) × Ledger ι} (step : m.Step s s') : s'.2.Extends s.2 := by
  cases step with
  | agree => exact .refl _
  | bind => exact Ledger.extends_push _ _ _
  | descend => exact .refl _

theorem Run.extended {s s' : List (ι × ι) × Ledger ι} (run : m.Run s s') : s'.2.Extends s.2 := by
  induction run with
  | refl => exact .refl _
  | tail _ step ih => exact step.extended.trans ih

/-- Steps leave the instances of bound variables alone. -/
theorem Step.get?_eq {s s' : List (ι × ι) × Ledger ι} (step : m.Step s s') {v : Variable} {t : ι}
    (bound : s.2.get? v = some t) : s'.2.get? v = some t := by
  cases step with
  | agree => exact bound
  | bind _ unbound =>
      rw [Ledger.get?_push, if_neg]
      · exact bound
      · rintro rfl
        rw [unbound] at bound
        cases bound
  | descend => exact bound

theorem Run.get?_eq {s s' : List (ι × ι) × Ledger ι} (run : m.Run s s') {v : Variable} {t : ι}
    (bound : s.2.get? v = some t) : s'.2.get? v = some t := by
  induction run with
  | refl => exact bound
  | tail _ step ih => exact step.get?_eq ih

/-- No variable is bound twice. -/
theorem Run.adds {s s' : List (ι × ι) × Ledger ι} (run : m.Run s s') :
    s'.2.Adds s.2 (s'.2.isBound · = true) := by
  induction run with
  | refl => exact Ledger.adds_refl _
  | @tail u u' run step ih =>
      cases step with
      | agree => exact ih
      | @bind τ p t rest v _ unbound =>
          have before : s.2.get? v = none := by
            cases bound : s.2.get? v with
            | none => rfl
            | some t => exact absurd (unbound.symm.trans (Run.get?_eq run bound)) nofun
          exact ih.push t (Ledger.isBound_eq_false_iff.2 before)
            (Ledger.isBound_eq_false_iff.2 unbound)
      | descend => exact ih

/-- Settling undoes what a failed attempt bound. -/
theorem Settles.settle {answer : Bool × Ledger ι} (settles : m.Settles pairs σ answer) :
    (∃ τ, σ.settle answer = (true, τ) ∧ m.Run (pairs, σ) ([], τ)) ∨
      (σ.settle answer = (false, σ) ∧
        ∃ p rest τ, m.Run (pairs, σ) (p :: rest, τ) ∧ m.Stuck p τ) := by
  cases settles with
  | @matched τ run => exact .inl ⟨τ, rfl, run⟩
  | @stuck p rest τ run stuck =>
      have extended : τ.Extends σ := run.extended
      refine .inr ⟨?_, p, rest, τ, run, stuck⟩
      rw [Ledger.settle, extended.truncate_eq]

theorem Settles.adds {answer : Bool × Ledger ι} (settles : m.Settles pairs σ answer)
    (matched : (σ.settle answer).1 = true) :
    (σ.settle answer).2.Adds σ ((σ.settle answer).2.isBound · = true) := by
  rcases settles.settle with ⟨τ, settled, run⟩ | ⟨settled, -⟩
  · rw [settled]
    exact run.adds
  · rw [settled] at matched
    cases matched

theorem Settles.restored {answer : Bool × Ledger ι} (settles : m.Settles pairs σ answer)
    (failed : (σ.settle answer).1 = false) : (σ.settle answer).2 = σ := by
  rcases settles.settle with ⟨τ, settled, -⟩ | ⟨settled, -⟩
  · rw [settled] at failed
    cases failed
  · rw [settled]

end Matching

/-! ## Matching subterms -/

namespace Subterm

/-- The way to match subterms with the given tests. -/
def matching (agrees : Ledger Subterm → Subterm → Subterm → Bool)
    (takes : Variable → Subterm → Bool) : Matching Subterm :=
  ⟨head, args, fun σ s t => agrees σ s t = true, fun v t => takes v t = true⟩

theorem matchPairs_settles (agrees : Ledger Subterm → Subterm → Subterm → Bool)
    (takes : Variable → Subterm → Bool) (pairs : List (Subterm × Subterm)) (σ : Ledger Subterm) :
    (matching agrees takes).Settles pairs σ (matchPairs agrees takes pairs σ) := by
  fun_induction matchPairs agrees takes pairs σ with
  | case1 σ => exact .matched .refl
  | case2 p t rest σ v root s bound agree ih => exact ih.step (.agree root bound agree)
  | case3 p t rest σ v root s bound differ => exact .stuck .refl (.disagree root bound differ)
  | case4 p t rest σ v root unbound take ih => exact ih.step (.bind root unbound take)
  | case5 p t rest σ v root unbound refuse => exact .stuck .refl (.refuse root unbound refuse)
  | case6 p t rest σ rigid parts =>
      rw [Bool.or_eq_true, bne_iff_ne] at parts
      exact .stuck .refl (.clash rigid parts)
  | case7 p t rest σ rigid together ih =>
      rw [Bool.or_eq_true, not_or, Bool.not_eq_true, bne_iff_ne, not_not] at together
      exact ih.step (.of_roots rigid together.1 together.2)

end Subterm

/-! ## Matching trees -/

namespace TreeMatcher

/-- The way to match trees. -/
def matching : Matching Term :=
  ⟨Term.head, Term.args, fun _ s t => s = t, fun _ t => t.isQuantifierFree = true⟩

theorem matchPairs_settles (pairs : List (Term × Term)) (σ : TreeMatcher) :
    matching.Settles pairs σ (matchPairs pairs σ) := by
  fun_induction matchPairs pairs σ with
  | case1 σ => exact .matched .refl
  | case2 p rest σ v root t bound ih => exact ih.step (.agree root bound rfl)
  | case3 p t rest σ v root s bound differ => exact .stuck .refl (.disagree root bound differ)
  | case4 p t rest σ v root unbound plain ih => exact ih.step (.bind root unbound plain)
  | case5 p t rest σ v root unbound refuse => exact .stuck .refl (.refuse root unbound refuse)
  | case6 p t rest σ rigid parts =>
      rw [Bool.or_eq_true, bne_iff_ne] at parts
      exact .stuck .refl (.clash rigid parts)
  | case7 p t rest σ rigid together ih =>
      rw [Bool.or_eq_true, not_or, Bool.not_eq_true, bne_iff_ne, not_not] at together
      exact ih.step (.of_roots rigid together.1 together.2)

end TreeMatcher

end SaturationCore
