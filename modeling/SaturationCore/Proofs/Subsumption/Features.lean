/-
# Features never hide a subsumption

The feature vector of a clause counts places that its literals add to. An instance of a
literal adds to all places that the literal adds to, because replacing variables takes no
symbol away, and swapping the sides of an equation only rearranges the places. Literals that
are mapped to different places therefore add nowhere more than the literals there, and a
clause has a vector that is nowhere greater than that of a clause it subsumes. This holds of
every table, whichever symbols it has places for.
-/
import SaturationCore.Proofs.FeatureVector.Places
import SaturationCore.Proofs.Subsumption.Decision

namespace SaturationCore

open Subsumption

theorem subperm_flatMap {α β : Type} {as bs : List α} (sub : as.Subperm bs) (f : α → List β) :
    (as.flatMap f).Subperm (bs.flatMap f) := by
  obtain ⟨cs, perm, sub⟩ := sub
  exact (perm.symm.flatMap_right f).subperm.trans (sub.flatMap f).subperm

theorem flatMap_sublist_flatMap {α β : Type} {as : List α} {f g : α → List β}
    (each : ∀ a ∈ as, (f a).Sublist (g a)) : (as.flatMap f).Sublist (as.flatMap g) := by
  induction as with
  | nil => exact .refl []
  | cons a as ih =>
      obtain ⟨first, others⟩ := List.forall_mem_cons.1 each
      rw [List.flatMap_cons, List.flatMap_cons]
      exact first.append (ih others)

namespace FeatureTable

variable {sig : Signature} {t : FeatureTable} {l m : Literal} {c d : Clause} {ω : TreeMatcher}

/-! ## Symbols of instances -/

/-- The functions and constants of a term are that of its root and those of its arguments. -/
theorem functionSymbols_spelling (a : Term) :
    functionSymbols a.spelling =
      functionSymbols [a.head] ++ a.args.flatMap fun b => functionSymbols b.spelling := by
  rw [a.spelling_eq, ← List.singleton_append, functionSymbols, List.filterMap_append,
    List.filterMap_flatMap]
  rfl

/-- Replacing variables takes no symbol away. -/
theorem functionSymbols_sublist_replace (ω : TreeMatcher) (a : Term) :
    (functionSymbols a.spelling).Sublist (functionSymbols (ω.replace a).spelling) := by
  induction a using Term.induction with
  | var v => exact List.nil_sublist _
  | app role s args ih =>
      rw [TreeMatcher.replace_app, functionSymbols_spelling,
        functionSymbols_spelling (.app role s _), Term.args, Term.args, List.flatMap_map]
      exact .append (.refl _) (flatMap_sublist_flatMap ih)
  | abstraction v body ih =>
      rw [TreeMatcher.replace_abstraction, functionSymbols_spelling,
        functionSymbols_spelling (.abstraction v _), Term.args, Term.args, List.flatMap_singleton,
        List.flatMap_singleton]
      exact .append (.refl _) ih

theorem functionsOf_sublist_under (wf : l.WellFormed sig) (ω : TreeMatcher) :
    (functionsOf l).Sublist (functionsOf (l.under ω)) := by
  rw [functionsOf, functionsOf, wf.args_under, List.flatMap_map]
  exact flatMap_sublist_flatMap fun a _ => functionSymbols_sublist_replace ω a

theorem placesOf_sublist_under (wf : l.WellFormed sig) (ω : TreeMatcher) :
    (t.placesOf l).Sublist (t.placesOf (l.under ω)) := by
  rw [placesOf, placesOf, wf.predicate?_under]
  exact .cons_cons _ (.cons_cons _ (.append (.refl _)
    ((functionsOf_sublist_under wf ω).filterMap _)))

theorem placesOf_perm_of_alike (alike : l.Alike m) : (t.placesOf l).Perm (t.placesOf m) := by
  obtain ⟨atom, polarity⟩ := l
  obtain ⟨atom', polarity'⟩ := m
  obtain ⟨rfl, rfl | ⟨x, y, rfl, rfl⟩⟩ := alike
  · exact .refl _
  · have swapped : (functionsOf ⟨.equality x y, polarity⟩).Perm
        (functionsOf ⟨.equality y x, polarity⟩) := by
      simp only [functionsOf, Literal.args, Term.equality, Term.args, List.flatMap_cons,
        List.flatMap_nil, List.append_nil]
      exact List.perm_append_comm
    exact .cons _ (.cons _ (.append_left _ (swapped.filterMap _)))

theorem placesOf_subperm_of_alike (wf : l.WellFormed sig) (alike : (l.under ω).Alike m) :
    (t.placesOf l).Subperm (t.placesOf m) :=
  (placesOf_sublist_under wf ω).subperm.trans (placesOf_perm_of_alike alike).subperm

/-- Literals that are mapped to different places add nowhere more than the clause does. -/
theorem flatMap_placesOf_subperm (t : FeatureTable) (grown : sig.Grown) (wfC : c.WellFormed sig)
    (wfD : d.WellFormed sig) {σ : TreeMatcher} {ws : List Way}
    (maps : Maps d c.literals [] σ ws ω) :
    (c.literals.flatMap t.placesOf).Subperm (d.literals.flatMap t.placesOf) := by
  have row (ls : List Literal) (ws : List Way) (wf : ∀ l ∈ ls, l.WellFormed sig)
      (alike : List.Forall₂ (fun l w => (l.under ω).Alike w.target) ls ws) :
      (ls.flatMap t.placesOf).Subperm (ws.flatMap fun w => t.placesOf w.target) := by
    induction alike with
    | nil => exact .refl []
    | cons here _ ih =>
        obtain ⟨wf, others⟩ := List.forall_mem_cons.1 wf
        rw [List.flatMap_cons, List.flatMap_cons]
        exact (placesOf_subperm_of_alike wf here).append (ih others)
  have targets : (ws.map fun w => (w.target, w.place)).Subperm d.literals.zipIdx := by
    apply List.Nodup.subperm
    · apply List.Nodup.of_map Prod.snd
      rw [List.map_map]
      exact maps.nodup_places.1
    · intro entry h
      obtain ⟨w, hw, rfl⟩ := List.mem_map.1 h
      exact List.mk_mem_zipIdx_iff_getElem?.2 (mem_ways_iff.1 (maps.mem_ways w hw))
  have placed := subperm_flatMap targets fun entry => t.placesOf entry.1
  rw [List.flatMap_map, ← List.flatMap_map (f := Prod.fst), List.zipIdx_map_fst] at placed
  exact (row _ _ wfC (maps.mapped grown wfD wfC).alike).trans placed

/-! ## Vectors -/

theorem extract_le_of_maps (t : FeatureTable) (grown : sig.Grown) (wfC : c.WellFormed sig)
    (wfD : d.WellFormed sig) {σ : TreeMatcher} {ws : List Way}
    (maps : Maps d c.literals [] σ ws ω) :
    List.Forall₂ (· ≤ ·) (t.extract c) (t.extract d) := by
  rw [extract_eq, extract_eq, List.forall₂_map_left_iff, List.forall₂_map_right_iff,
    List.forall₂_same]
  exact fun place _ => (flatMap_placesOf_subperm t grown wfC wfD maps).count_le place

/-- If a clause subsumes another under some ledger, its feature vector is nowhere greater. -/
theorem extract_le_of_subsumes (t : FeatureTable) (grown : sig.Grown) (wfC : c.WellFormed sig)
    (wfD : d.WellFormed sig) {σ : TreeMatcher} (subsumes : (c.attemptSubsumption d σ).1 = true) :
    List.Forall₂ (· ≤ ·) (t.extract c) (t.extract d) := by
  obtain ⟨ws, ω, maps⟩ := Clause.exists_maps_of_attemptSubsumption subsumes
  exact extract_le_of_maps t grown wfC wfD maps

/-- `p(X0) | X0 = f(X1)` subsumes `p(a) | p(f(a)) | f(a) = a`. The table names `p` twice, `f` once
and `a` not at all. -/
theorem extract_le_of_subsumes_swapped :
    let sig := (((Signature.initial.internFunction "f" 1).2.internConstant "a").2.internPredicate
      "p" 1).2
    let f (t : Term) : Term := .app .function ⟨8, .function, 1⟩ [t]
    let a : Term := .app .constant ⟨9, .constant, 0⟩ []
    let p (t : Term) : Literal := ⟨.app .predicate ⟨10, .predicate, 1⟩ [t], true⟩
    let x (i : Nat) : Term := .var ⟨0, i⟩
    let c : Clause := ⟨[p (x 0), ⟨.equality (x 0) (f (x 1)), true⟩]⟩
    let d : Clause := ⟨[p a, p (f a), ⟨.equality (f a) a, true⟩]⟩
    let t := ofSymbols [⟨10, .predicate, 1⟩, ⟨10, .predicate, 1⟩] [⟨8, .function, 1⟩]
    (sig.Grown ∧ c.WellFormed sig ∧ d.WellFormed sig ∧ (c.attemptSubsumption d .empty).1 = true) ∧
      t.extract c = [2, 2, 0, 1, 0, 1] ∧ t.extract d = [3, 3, 0, 2, 0, 2] ∧
      List.Forall₂ (· ≤ ·) (t.extract c) (t.extract d) := by
  intro sig f a p x c d t
  have grown : sig.Grown := .predicate "p" 1 (.constant "a" (.function "f" 1 .initial))
  have wfC : c.WellFormed sig := by decide +kernel
  have wfD : d.WellFormed sig := by decide +kernel
  have subsumes : (c.attemptSubsumption d .empty).1 = true := by decide +kernel
  exact ⟨⟨grown, wfC, wfD, subsumes⟩, by decide, by decide,
    extract_le_of_subsumes t grown wfC wfD subsumes⟩

end FeatureTable

end SaturationCore
