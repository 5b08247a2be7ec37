/-
# The search for a way to map all literals

The search goes through levels, but what it looks for can be said without them: a row of
ways, one for each literal, to different places and each of which succeeds with what the
ones before it bound. The search finds such a row if there is one, and otherwise ends with
the ledger that it started with.

This is shown for one level at a time. A level that has ways left either leads to such a
row, or the search comes back to the levels behind it with the ledger as it was when the
level was reached. The induction is on the literals behind the level, whose levels come in
front of it, and then on the ways that are left.
-/
import SaturationCore.Proofs.Matching.Step
import SaturationCore.Subsumption.Test

namespace SaturationCore

namespace Ledger

variable {ι : Type} {σ τ : Ledger ι} {answer : Bool × Ledger ι}

/-- What is left of a try to extend the ledger: an extension if it succeeded, and otherwise
the ledger itself. -/
inductive Settled (σ : Ledger ι) : Bool × Ledger ι → Prop where
  | success {τ : Ledger ι} : τ.Extends σ → Settled σ (true, τ)
  | failure : Settled σ (false, σ)

/-- A try that goes on from an extension can be undone as a whole. -/
theorem Settled.settle (extended : τ.Extends σ) (settled : τ.Settled answer) :
    σ.Settled (σ.settle answer) := by
  cases settled with
  | success later => exact .success (later.trans extended)
  | failure =>
      rw [Ledger.settle, extended.truncate_eq]
      exact .failure

end Ledger

theorem TreeMatcher.settled_attemptMatch (σ : TreeMatcher) (pattern target : Term) :
    σ.Settled (σ.attemptMatch pattern target) := by
  rw [attemptMatch]
  rcases (matchPairs_settles [(pattern, target)] σ).settle with ⟨τ, matched, run⟩ | ⟨failed, -⟩
  · rw [matched]
    exact .success run.extended
  · rw [failed]
    exact .failure

namespace Subsumption

variable {d : Clause} {l : Literal} {ls : List Literal} {used : List Nat} {w : Way} {ws : List Way}
  {σ τ ω : TreeMatcher}

theorem settled_matchStraight (σ : TreeMatcher) (pattern target : Literal) :
    σ.Settled (matchStraight σ pattern target) := by
  rw [matchStraight]
  split
  · exact σ.settled_attemptMatch _ _
  · exact .failure

theorem settled_matchSwapped (σ : TreeMatcher) (pattern target : Literal) :
    σ.Settled (matchSwapped σ pattern target) := by
  rw [matchSwapped]
  split
  · split
    · next left right _ left' right' _ _ _ =>
        have first := σ.settled_attemptMatch left right'
        generalize σ.attemptMatch left right' = answer at first ⊢
        cases first with
        | success extended => exact (TreeMatcher.settled_attemptMatch _ right left').settle extended
        | failure => exact .failure
    · exact .failure
  · exact .failure

theorem settled_matchAlong (σ : TreeMatcher) (pattern : Literal) (way : Way) :
    σ.Settled (matchAlong σ pattern way) := by
  rw [matchAlong]
  split
  · exact settled_matchSwapped σ pattern way.target
  · exact settled_matchStraight σ pattern way.target

/-- The literals are mapped in a row of ways to different places, none of them used, and what
is bound on the way leads from `σ` to `τ`. -/
inductive Maps (d : Clause) :
    List Literal → List Nat → TreeMatcher → List Way → TreeMatcher → Prop where
  | nil {used : List Nat} {σ : TreeMatcher} : Maps d [] used σ [] σ
  | cons {l : Literal} {ls : List Literal} {used : List Nat} {w : Way} {ws : List Way}
      {σ τ ω : TreeMatcher} :
      w ∈ ways d → w.place ∉ used → matchAlong σ l w = (true, τ) →
      Maps d ls (w.place :: used) τ ws ω → Maps d (l :: ls) used σ (w :: ws) ω

/-- The ways lead to all literals of the clause, each at its place. -/
theorem mem_ways_iff : w ∈ ways d ↔ d.literals[w.place]? = some w.target := by
  obtain ⟨place, target, swapped⟩ := w
  rw [ways, List.mem_flatMap, ← List.mk_mem_zipIdx_iff_getElem?]
  constructor
  · rintro ⟨⟨target', place'⟩, inside, way⟩
    rcases List.mem_pair.1 way with way | way <;> cases way <;> exact inside
  · intro inside
    refine ⟨(target, place), inside, List.mem_pair.2 ?_⟩
    cases swapped with
    | false => exact .inl rfl
    | true => exact .inr rfl

theorem Maps.length_eq (maps : Maps d ls used σ ws ω) : ws.length = ls.length := by
  induction maps with
  | nil => rfl
  | cons _ _ _ _ ih => rw [List.length_cons, List.length_cons, ih]

theorem Maps.mem_ways (maps : Maps d ls used σ ws ω) : ∀ w ∈ ws, w ∈ ways d := by
  induction maps with
  | nil => exact fun _ none => absurd none List.not_mem_nil
  | cons among _ _ _ ih => exact List.forall_mem_cons.2 ⟨among, ih⟩

/-- No two literals are mapped to one place, and none to a used one. -/
theorem Maps.nodup_places (maps : Maps d ls used σ ws ω) :
    (ws.map (·.place)).Nodup ∧ ∀ w ∈ ws, w.place ∉ used := by
  induction maps with
  | nil => exact ⟨List.nodup_nil, fun _ none => absurd none List.not_mem_nil⟩
  | cons _ fresh _ _ ih =>
      obtain ⟨distinct, others⟩ := ih
      refine ⟨List.nodup_cons.2 ⟨fun again => ?_, distinct⟩, List.forall_mem_cons.2 ⟨fresh, ?_⟩⟩
      · obtain ⟨w, hw, same⟩ := List.mem_map.1 again
        exact others w hw (same ▸ List.mem_cons_self)
      · exact fun w hw there => others w hw (List.mem_cons_of_mem _ there)

/-- A clause can only be mapped into one with as many literals. -/
theorem Maps.length_le (maps : Maps d ls used σ ws ω) : ls.length ≤ d.size := by
  have inside : ws.map (·.place) ⊆ List.range d.size := by
    intro place hp
    obtain ⟨w, hw, rfl⟩ := List.mem_map.1 hp
    exact List.mem_range.2 (List.getElem?_eq_some_iff.1 (mem_ways_iff.1 (maps.mem_ways w hw))).1
  have few := (maps.nodup_places.1.subperm inside).length_le
  rwa [List.length_map, List.length_range, maps.length_eq] at few

theorem Maps.first (maps : Maps d (l :: ls) used σ ws ω) :
    ∃ w ws', ws = w :: ws' ∧ w ∈ ways d := by
  cases maps with
  | cons among => exact ⟨_, _, rfl, among⟩

theorem Maps.tail (maps : Maps d (l :: ls) used σ (w :: ws) ω)
    (matched : matchAlong σ l w = (true, τ)) : Maps d ls (w.place :: used) τ ws ω := by
  cases maps with
  | cons _ _ again rest =>
      cases again.symm.trans matched
      exact rest

/-- The places that the literals of some levels are mapped to. -/
def taken (levels : List Level) : List Nat :=
  levels.filterMap (·.chosen)

theorem any_chosen_iff {levels : List Level} {place : Nat} :
    levels.any (·.chosen == some place) = true ↔ place ∈ taken levels := by
  simp [taken, List.mem_filterMap]

/-- What a search comes to: a row of ways that starts with one of some ways, or what another search
comes to because there is none. -/
inductive Searched (d : Clause) (l : Literal) (ls : List Literal) (used : List Nat)
    (untried : List Way) (σ : TreeMatcher) (otherwise : Bool × TreeMatcher) : Bool × TreeMatcher → Prop where
  | found {w : Way} {ws : List Way} {ω : TreeMatcher} :
      w ∈ untried → Maps d (l :: ls) used σ (w :: ws) ω →
      Searched d l ls used untried σ otherwise (true, ω)
  | exhausted :
      (∀ w ∈ untried, ∀ ws ω, ¬ Maps d (l :: ls) used σ (w :: ws) ω) →
      Searched d l ls used untried σ otherwise otherwise

/-- A way that no row starts with can be left out. -/
theorem Searched.skip {untried : List Way} {otherwise answer : Bool × TreeMatcher}
    (none : ∀ ws ω, ¬ Maps d (l :: ls) used σ (w :: ws) ω)
    (later : Searched d l ls used untried σ otherwise answer) :
    Searched d l ls used (w :: untried) σ otherwise answer := by
  cases later with
  | found among maps => exact .found (List.mem_cons_of_mem w among) maps
  | exhausted others => exact .exhausted (List.forall_mem_cons.2 ⟨none, others⟩)

theorem not_maps_of_used (again : w.place ∈ used) (ws : List Way) (ω : TreeMatcher) :
    ¬ Maps d (l :: ls) used σ (w :: ws) ω
  | .cons _ fresh _ _ => fresh again

theorem not_maps_of_failure (failed : matchAlong σ l w = (false, σ)) (ws : List Way)
    (ω : TreeMatcher) : ¬ Maps d (l :: ls) used σ (w :: ws) ω
  | .cons _ _ matched _ => nomatch failed.symm.trans matched

/-- Searching from a level on finds a row that starts with a way left there, or comes to
searching from the levels behind it on. -/
theorem searched_level (d : Clause) (l : Literal) (ls : List Literal) (untried : List Way)
    (chosen : Option Nat) (outer : List Level) (σ τ : TreeMatcher) (known : untried ⊆ ways d)
    (extended : τ.Extends σ) :
    Searched d l ls (taken outer) untried σ (search d outer σ)
      (search d (⟨l, ls, untried, σ.savepoint, chosen⟩ :: outer) τ) := by
  have undone : τ.truncate σ.savepoint.bindings = σ := extended.truncate_eq
  match untried with
  | [] =>
      rw [search, undone]
      exact .exhausted fun _ none => absurd none List.not_mem_nil
  | w :: untried =>
      obtain ⟨here, others⟩ := List.cons_subset.1 known
      have later (τ : TreeMatcher) (extended : τ.Extends σ) (chosen : Option Nat) :=
        searched_level d l ls untried chosen outer σ τ others extended
      rw [search, undone]
      split
      · next again =>
          exact (later σ (.refl σ) none).skip (not_maps_of_used (any_chosen_iff.1 again))
      · next fresh =>
          rw [any_chosen_iff] at fresh
          have settled := settled_matchAlong σ l w
          generalize answered : matchAlong σ l w = answer at settled ⊢
          cases settled with
          | failure => exact (later σ (.refl σ) none).skip (not_maps_of_failure answered)
          | @success τ extended =>
              cases ls with
              | nil => exact .found List.mem_cons_self (.cons here fresh answered .nil)
              | cons next rest =>
                  have front := searched_level d next rest (ways d) none
                    (⟨l, next :: rest, untried, σ.savepoint, some w.place⟩ :: outer) τ τ
                    (List.Subset.refl _) (.refl τ)
                  change Searched d l (next :: rest) _ _ σ _ (search d (⟨next, rest, ways d,
                    τ.savepoint, none⟩ :: _) τ)
                  generalize search d (_ :: _ :: outer) τ = answer at front ⊢
                  cases front with
                  | found _ maps => exact .found List.mem_cons_self (.cons here fresh answered maps)
                  | exhausted none =>
                      refine (later τ extended (some w.place)).skip fun ws ω maps => ?_
                      have inner := maps.tail answered
                      obtain ⟨w', ws', rfl, among⟩ := inner.first
                      exact none w' among ws' ω inner
termination_by (ls.length, untried.length)

end Subsumption

open Subsumption

variable {d : Clause} {σ : TreeMatcher}

/-- The subsumption test ends with the ledger that a row of ways for all literals leads to, or
with the ledger that it started with if there is no such row. -/
theorem Clause.attemptSubsumption_cases (c d : Clause) (σ : TreeMatcher) :
    (∃ ws ω, Maps d c.literals [] σ ws ω ∧ c.attemptSubsumption d σ = (true, ω)) ∨
      (c.attemptSubsumption d σ = (false, σ) ∧ ∀ ws ω, ¬ Maps d c.literals [] σ ws ω) := by
  rw [Clause.attemptSubsumption]
  split
  · next few => exact .inr ⟨rfl, fun ws ω maps => Nat.not_lt.2 maps.length_le few⟩
  · split
    · next empty =>
        rw [empty]
        exact .inl ⟨[], σ, .nil, rfl⟩
    · next first behind all =>
        rw [all]
        have searched := searched_level d first behind (ways d) none [] σ σ (List.Subset.refl _)
          (.refl σ)
        change Searched d first behind [] _ σ _ (search d [.start d first behind σ] σ) at searched
        rw [search] at searched
        generalize search d [.start d first behind σ] σ = answer at searched
        cases searched with
        | found _ maps => exact .inl ⟨_, _, maps, rfl⟩
        | exhausted none =>
            refine .inr ⟨rfl, fun ws ω maps => ?_⟩
            obtain ⟨w, ws', rfl, among⟩ := maps.first
            exact none w among ws' ω maps

theorem Clause.exists_maps_of_attemptSubsumption {c : Clause}
    (subsumes : (c.attemptSubsumption d σ).1 = true) : ∃ ws ω, Maps d c.literals [] σ ws ω := by
  rcases c.attemptSubsumption_cases d σ with ⟨ws, ω, maps, -⟩ | ⟨answered, -⟩
  · exact ⟨ws, ω, maps⟩
  · rw [answered] at subsumes
    cases subsumes

/-- A test that fails leaves the ledger as it was. -/
theorem Clause.attemptSubsumption_eq_of_failure {c : Clause}
    (fails : (c.attemptSubsumption d σ).1 = false) : c.attemptSubsumption d σ = (false, σ) := by
  rcases c.attemptSubsumption_cases d σ with ⟨_, _, _, answered⟩ | ⟨answered, -⟩
  · rw [answered] at fails
    cases fails
  · exact answered

end SaturationCore
