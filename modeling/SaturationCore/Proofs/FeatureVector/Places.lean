/-
# Every place of a feature vector counts one thing

A table hands out its places one after the other, two to a predicate and one to a function or
constant, and a symbol that is named again gets none. Whatever names it is given, and in which
order, each place up to the dimension belongs to exactly one feature of clauses. So the entry there
is how often the clause has that feature, no matter in which order its literals stand, and the
vector of two clauses put together is the sum of their vectors.

The vector is also counted up in words. As long as the counts fit, this makes the same vector.
-/
import Mathlib.Data.List.Basic
import Mathlib.Data.List.Count
import SaturationCore.FeatureVector.Extractor

namespace SaturationCore

/-! ## Features -/

/-- Something that a place counts. -/
inductive Feature where
  | literals
  | asserted
  | denied
  | assertedBy (predicate : Symbol)
  | deniedBy (predicate : Symbol)
  | occurrences (function : Symbol)
deriving DecidableEq

namespace Feature

/-- How often a clause has the feature: literals, of either sign, with a predicate, or heads in
the arguments of literals. -/
def count (c : Clause) : Feature → Nat
  | literals => c.literals.length
  | asserted => c.literals.countP (·.polarity)
  | denied => c.literals.countP (!·.polarity)
  | assertedBy p => c.literals.countP fun l => l.polarity && l.predicate? == some p
  | deniedBy p => c.literals.countP fun l => !l.polarity && l.predicate? == some p
  | occurrences f => (c.literals.flatMap fun l => l.args.flatMap Term.spelling).count (.symbol f)

/-- Occurrences are counted of functions and constants only. -/
def Counted : Feature → Prop
  | occurrences f => f.kind = .function ∨ f.kind = .constant
  | _ => True

instance : DecidablePred Counted
  | occurrences f => inferInstanceAs (Decidable (f.kind = .function ∨ f.kind = .constant))
  | literals | asserted | denied | assertedBy _ | deniedBy _ => isTrue trivial

/-- The features of a literal, each as often as it has it. -/
def ofLiteral (l : Literal) : List Feature :=
  .literals :: (if l.polarity then .asserted else .denied) ::
    ((l.predicate?.map fun p => if l.polarity then .assertedBy p else .deniedBy p).toList ++
      (FeatureTable.functionsOf l).map .occurrences)

end Feature

namespace FeatureTable

variable {t t' : FeatureTable} {ps fs : List Symbol} {p f : Symbol} {a b : Feature} {i : Nat}
  {c d : Clause} {l : Literal}

/-- The place that belongs to a feature. -/
def place? (t : FeatureTable) : Feature → Option Nat
  | .literals => some 0
  | .asserted => some 1
  | .denied => some 2
  | .assertedBy p => t.predicates.lookup p
  | .deniedBy p => (t.predicates.lookup p).map (· + 1)
  | .occurrences f => t.functions.lookup f

/-- A literal adds to the places of its features. -/
theorem placesOf_eq (t : FeatureTable) (l : Literal) :
    t.placesOf l = (Feature.ofLiteral l).filterMap t.place? := by
  have functions : ((functionsOf l).map .occurrences).filterMap t.place? =
      (functionsOf l).filterMap fun f => t.functions.lookup f := by
    rw [List.filterMap_map]
    rfl
  rw [placesOf, Feature.ofLiteral]
  cases l.polarity <;> rcases l.predicate? with _ | p
  · simp [place?, functions]
  · cases tabled : t.predicates.lookup p <;> simp [place?, functions, tabled]
  · simp [place?, functions]
  · cases tabled : t.predicates.lookup p <;> simp [place?, functions, tabled]

/-! ## The places of a table -/

/-- The table has places for the given predicates and functions. Each place belongs to a feature,
and to only one. -/
structure Tables (t : FeatureTable) (ps fs : List Symbol) : Prop where
  owned : ∀ i, i < t.dimension ↔ ∃ a, t.place? a = some i
  apart : ∀ a b i, t.place? a = some i → t.place? b = some i → a = b
  predicates_iff : ∀ p, (t.predicates.lookup p).isSome = true ↔ p ∈ ps
  functions_iff : ∀ f, (t.functions.lookup f).isSome = true ↔ f ∈ fs

/-- Features that follow each other get the places behind those that are taken. -/
theorem Tables.extend {ps' fs' : List Symbol} (tables : t.Tables ps fs) (fresh : List Feature)
    (unplaced : ∀ a ∈ fresh, t.place? a = none) (nodup : fresh.Nodup)
    (dimension : t'.dimension = t.dimension + fresh.length)
    (placed : ∀ a, t'.place? a =
      if a ∈ fresh then some (t.dimension + fresh.idxOf a) else t.place? a)
    (predicates_iff : ∀ p, (t'.predicates.lookup p).isSome = true ↔ p ∈ ps')
    (functions_iff : ∀ f, (t'.functions.lookup f).isSome = true ↔ f ∈ fs') :
    t'.Tables ps' fs' where
  predicates_iff := predicates_iff
  functions_iff := functions_iff
  owned i := by
    rw [dimension]
    constructor
    · intro inside
      by_cases old : i < t.dimension
      · obtain ⟨a, ha⟩ := (tables.owned i).1 old
        refine ⟨a, ?_⟩
        rw [placed, if_neg fun new => ?_, ha]
        cases (unplaced a new).symm.trans ha
      · have new : i - t.dimension < fresh.length := by omega
        refine ⟨fresh[i - t.dimension], ?_⟩
        rw [placed, if_pos (List.getElem_mem new), nodup.idxOf_getElem, Option.some.injEq]
        omega
    · rintro ⟨a, ha⟩
      rw [placed] at ha
      split at ha
      · next new =>
          have := List.idxOf_lt_length_iff.2 new
          cases ha
          omega
      · have := (tables.owned i).2 ⟨a, ha⟩
        omega
  apart a b i ha hb := by
    rw [placed] at ha hb
    split at ha
    · next newA =>
        split at hb
        · next newB =>
            cases ha
            have same : fresh.idxOf a = fresh.idxOf b := by
              have := Option.some.inj hb
              omega
            exact (List.idxOf_inj newA).1 same
        · have := (tables.owned i).2 ⟨b, hb⟩
          cases ha
          omega
    · split at hb
      · have := (tables.owned i).2 ⟨a, ha⟩
        cases hb
        omega
      · exact tables.apart a b i ha hb

theorem tables_empty : empty.Tables [] [] where
  predicates_iff p := by simp [empty]
  functions_iff f := by simp [empty]
  owned i := by
    constructor
    · intro inside
      match i, inside with
      | 0, _ => exact ⟨.literals, rfl⟩
      | 1, _ => exact ⟨.asserted, rfl⟩
      | 2, _ => exact ⟨.denied, rfl⟩
    · rintro ⟨a, ha⟩
      cases a <;> cases ha <;> decide
  apart a b i ha hb := by
    cases a <;> cases ha <;> cases b <;> cases hb <;> rfl

theorem lookup_cons_eq (places : List (Symbol × Nat)) (s u : Symbol) (place : Nat) :
    ((s, place) :: places).lookup u = if u = s then some place else places.lookup u := by
  by_cases same : u = s
  · simp [same]
  · simp [List.lookup_cons, beq_eq_false_iff_ne.2 same, same]

theorem lookup_cons_isSome {places : List (Symbol × Nat)} {s u : Symbol} {place : Nat} :
    (((s, place) :: places).lookup u).isSome = true ↔ u = s ∨ (places.lookup u).isSome = true := by
  rw [lookup_cons_eq]
  split <;> simp [*]

/-- A predicate that is named once more changes nothing, and another gets two places. -/
theorem Tables.addPredicate (tables : t.Tables ps fs) (p : Symbol) :
    (t.addPredicate p).Tables (ps ++ [p]) fs := by
  have named (q : Symbol) : q ∈ ps ++ [p] ↔ q = p ∨ (t.predicates.lookup q).isSome = true := by
    rw [List.mem_append, List.mem_singleton, tables.predicates_iff, or_comm]
  rw [FeatureTable.addPredicate]
  split
  · next old =>
      refine { tables with predicates_iff := fun q => ?_ }
      rw [named, or_iff_right_of_imp]
      rintro rfl
      exact old
  · next new =>
      have unplaced := Option.not_isSome_iff_eq_none.1 new
      apply tables.extend [.assertedBy p, .deniedBy p]
      · simp [place?, unplaced]
      · simp
      · rfl
      · intro a
        cases a with
        | assertedBy q => by_cases same : q = p <;> simp [place?, lookup_cons_eq, same]
        | deniedBy q => by_cases same : q = p <;> simp [place?, lookup_cons_eq, same]
        | _ => simp [place?]
      · exact fun q => lookup_cons_isSome.trans (named q).symm
      · exact tables.functions_iff

/-- A function that is named once more changes nothing, and another gets a place. -/
theorem Tables.addFunction (tables : t.Tables ps fs) (f : Symbol) :
    (t.addFunction f).Tables ps (fs ++ [f]) := by
  have named (g : Symbol) : g ∈ fs ++ [f] ↔ g = f ∨ (t.functions.lookup g).isSome = true := by
    rw [List.mem_append, List.mem_singleton, tables.functions_iff, or_comm]
  rw [FeatureTable.addFunction]
  split
  · next old =>
      refine { tables with functions_iff := fun g => ?_ }
      rw [named, or_iff_right_of_imp]
      rintro rfl
      exact old
  · next new =>
      have unplaced := Option.not_isSome_iff_eq_none.1 new
      apply tables.extend [.occurrences f]
      · simp [place?, unplaced]
      · simp
      · rfl
      · intro a
        cases a with
        | occurrences g => by_cases same : g = f <;> simp [place?, lookup_cons_eq, same]
        | _ => simp [place?]
      · exact tables.predicates_iff
      · exact fun g => lookup_cons_isSome.trans (named g).symm

theorem Tables.foldl_addPredicate (tables : t.Tables ps fs) (more : List Symbol) :
    (more.foldl FeatureTable.addPredicate t).Tables (ps ++ more) fs := by
  induction more generalizing t ps with
  | nil => rwa [List.append_nil]
  | cons p more ih =>
      have rest := ih (tables.addPredicate p)
      rwa [List.append_assoc, List.singleton_append] at rest

theorem Tables.foldl_addFunction (tables : t.Tables ps fs) (more : List Symbol) :
    (more.foldl FeatureTable.addFunction t).Tables ps (fs ++ more) := by
  induction more generalizing t fs with
  | nil => rwa [List.append_nil]
  | cons f more ih =>
      have rest := ih (tables.addFunction f)
      rwa [List.append_assoc, List.singleton_append] at rest

theorem Tables.addLiteral (tables : t.Tables ps fs) (l : Literal) :
    (t.addLiteral l).Tables (ps ++ l.predicate?.toList) (fs ++ functionsOf l) := by
  rw [FeatureTable.addLiteral]
  cases l.predicate? with
  | none =>
      rw [Option.toList_none, List.append_nil]
      exact tables.foldl_addFunction _
  | some p => exact (tables.addPredicate p).foldl_addFunction _

theorem Tables.foldl_addLiteral (tables : t.Tables ps fs) (ls : List Literal) :
    (ls.foldl FeatureTable.addLiteral t).Tables (ps ++ ls.flatMap (·.predicate?.toList))
      (fs ++ ls.flatMap functionsOf) := by
  induction ls generalizing t ps fs with
  | nil => rwa [List.flatMap_nil, List.flatMap_nil, List.append_nil, List.append_nil]
  | cons l ls ih =>
      have rest := ih (tables.addLiteral l)
      rwa [List.append_assoc, List.append_assoc] at rest

/-- What a table is made of. -/
inductive Source where
  | symbols (predicates functions : List Symbol)
  | clauses (cs : List Clause)

namespace Source

/-- The table that is made of it. -/
def table : Source → FeatureTable
  | symbols predicates functions => ofSymbols predicates functions
  | clauses cs => ofClauses cs

/-- The predicates that are named, or stand in the literals. -/
def predicates : Source → List Symbol
  | symbols predicates _ => predicates
  | clauses cs => (cs.flatMap (·.literals)).flatMap (·.predicate?.toList)

/-- The functions that are named, or occur in the arguments of literals. -/
def functions : Source → List Symbol
  | symbols _ functions => functions
  | clauses cs => (cs.flatMap (·.literals)).flatMap functionsOf

theorem tables (source : Source) : source.table.Tables source.predicates source.functions := by
  cases source with
  | symbols predicates functions =>
      exact (tables_empty.foldl_addPredicate predicates).foldl_addFunction functions
  | clauses cs =>
      have tables := tables_empty.foldl_addLiteral (cs.flatMap (·.literals))
      rwa [List.foldl_flatMap] at tables

end Source

/-! ## The entries of a vector -/

theorem getElem?_foldl_modify (places counts : List Nat) (i : Nat) :
    (places.foldl (fun counts place => counts.modify place (· + 1)) counts)[i]? =
      counts[i]?.map (· + places.count i) := by
  induction places generalizing counts with
  | nil => simp
  | cons place places ih =>
      rw [List.foldl_cons, ih, List.getElem?_modify]
      cases counts[i]? with
      | none => rfl
      | some count =>
          by_cases here : place = i
          · simp [here, Nat.add_assoc, Nat.add_comm 1]
          · simp [here]

theorem extract_eq (t : FeatureTable) (c : Clause) :
    t.extract c = (List.range t.dimension).map fun place =>
      (c.literals.flatMap t.placesOf).count place := by
  apply List.ext_getElem?
  intro i
  rw [extract, getElem?_foldl_modify, List.getElem?_replicate, List.getElem?_map]
  by_cases inside : i < t.dimension
  · simp [inside]
  · simp [inside]

theorem length_extract (t : FeatureTable) (c : Clause) : (t.extract c).length = t.dimension := by
  rw [extract_eq, List.length_map, List.length_range]

/-- At the place of a feature, a vector counts the literals' features that are the same. -/
theorem Tables.getElem?_extract (tables : t.Tables ps fs) (c : Clause)
    (here : t.place? a = some i) :
    (t.extract c)[i]? = some ((c.literals.flatMap Feature.ofLiteral).count a) := by
  have inside : i < t.dimension := (tables.owned i).2 ⟨a, here⟩
  have same (b : Feature) : (t.place? b == some i) = (b == a) := by
    rw [Bool.eq_iff_iff, beq_iff_eq, beq_iff_eq]
    exact ⟨fun there => tables.apart b a i there here, fun same => same ▸ here⟩
  have counted : (c.literals.flatMap t.placesOf).count i =
      (c.literals.flatMap Feature.ofLiteral).count a := by
    have placed : t.placesOf = fun l => (Feature.ofLiteral l).filterMap t.place? :=
      funext t.placesOf_eq
    rw [placed, ← List.filterMap_flatMap, List.count_filterMap]
    simp only [same]
    rfl
  rw [extract_eq, List.getElem?_map, List.getElem?_range inside, Option.map_some, counted]

/-- A function or constant is counted wherever it is spelled in the arguments. -/
theorem count_functionsOf (counted : Feature.Counted (.occurrences f)) (l : Literal) :
    (functionsOf l).count f = (l.args.flatMap Term.spelling).count (.symbol f) := by
  have symbols : functionsOf l = functionSymbols (l.args.flatMap Term.spelling) := by
    rw [functionsOf, functionSymbols, List.filterMap_flatMap]
    rfl
  rw [symbols, functionSymbols, List.count_filterMap, List.count]
  apply List.countP_congr
  intro h _
  cases h with
  | var v => simp
  | binder v => simp
  | symbol s =>
      by_cases same : s = f
      · subst same
        have kind : s.kind = .function ∨ s.kind = .constant := counted
        simp [kind]
      · simp [same]

end FeatureTable

namespace Feature

variable {a : Feature} {l : Literal}

theorem count_append (a : Feature) (ls ms : List Literal) :
    a.count ⟨ls ++ ms⟩ = a.count ⟨ls⟩ + a.count ⟨ms⟩ := by
  cases a with
  | literals => exact List.length_append
  | asserted | denied | assertedBy | deniedBy => exact List.countP_append
  | occurrences f => rw [count, List.flatMap_append, List.count_append]; rfl

/-- A literal has a feature as often as the clause of that literal has it. -/
theorem count_ofLiteral (counted : a.Counted) (l : Literal) :
    (ofLiteral l).count a = a.count ⟨[l]⟩ := by
  have elsewhere (other : ∀ f, a ≠ .occurrences f) :
      ((FeatureTable.functionsOf l).map .occurrences).count a = 0 := by
    rw [List.count_eq_zero, List.mem_map]
    rintro ⟨f, -, same⟩
    exact other f same.symm
  cases a with
  | occurrences f =>
      have injective : Function.Injective Feature.occurrences := fun f g same => by cases same; rfl
      have named : (l.predicate?.map fun p =>
          if l.polarity then Feature.assertedBy p else .deniedBy p).toList.count (.occurrences f) =
            0 := by
        cases l.polarity <;> cases l.predicate? <;> simp
      rw [ofLiteral, List.count_cons, List.count_cons, List.count_append, named,
        List.count_map_of_injective _ _ injective, FeatureTable.count_functionsOf counted]
      cases l.polarity <;> simp [count]
  | literals | asserted | denied =>
      rw [ofLiteral, List.count_cons, List.count_cons, List.count_append, elsewhere nofun]
      cases h : l.polarity <;> cases l.predicate? <;> simp [count, h]
  | assertedBy p | deniedBy p =>
      rw [ofLiteral, List.count_cons, List.count_cons, List.count_append, elsewhere nofun]
      cases h : l.polarity <;> cases h' : l.predicate? <;> simp [count, h, h', List.count_singleton]

/-- Literals have no occurrences but of functions and constants. -/
theorem counted_of_mem_ofLiteral (inside : a ∈ ofLiteral l) : a.Counted := by
  cases a with
  | occurrences f =>
      have occurs : f ∈ FeatureTable.functionsOf l := by
        cases h : l.polarity <;> cases h' : l.predicate? <;> simpa [ofLiteral, h, h'] using inside
      obtain ⟨b, -, occurs⟩ := List.mem_flatMap.1 occurs
      obtain ⟨head, -, found⟩ := List.mem_filterMap.1 occurs
      cases head with
      | symbol s =>
          obtain ⟨kind, same⟩ := Option.ite_none_right_eq_some.1 found
          cases same
          exact kind
      | var v => cases found
      | binder v => cases found
  | _ => trivial

/-- A clause has a feature as often as its literals have it. -/
theorem count_flatMap_ofLiteral (counted : a.Counted) (c : Clause) :
    (c.literals.flatMap ofLiteral).count a = a.count c := by
  obtain ⟨ls⟩ := c
  induction ls with
  | nil => cases a <;> rfl
  | cons l ls ih =>
      have split := a.count_append [l] ls
      rw [List.singleton_append] at split
      rw [List.flatMap_cons, List.count_append, count_ofLiteral counted, split]
      exact congrArg _ ih

end Feature

namespace FeatureTable

variable {t : FeatureTable} {ps fs : List Symbol} {c d : Clause} {l : Literal}

theorem extract_perm (t : FeatureTable) (perm : c.literals.Perm d.literals) :
    t.extract c = t.extract d := by
  rw [extract_eq, extract_eq]
  apply List.map_congr_left
  intro i _
  exact (perm.flatMap_right t.placesOf).count_eq i

theorem extract_append (t : FeatureTable) (ls ms : List Literal) :
    t.extract ⟨ls ++ ms⟩ = List.zipWith (· + ·) (t.extract ⟨ls⟩) (t.extract ⟨ms⟩) := by
  rw [extract_eq, extract_eq, extract_eq, List.zipWith_map, List.zipWith_self]
  apply List.map_congr_left
  intro i _
  rw [List.flatMap_append, List.count_append]

/-! ## Counting in words -/

/-- Raising counts one after the other is never refused if they all end up below the limit. -/
theorem foldlM_raise {places counts : List Nat} (inside : ∀ i ∈ places, i < counts.length)
    (fits : ∀ n ∈ places.foldl (fun counts place => counts.modify place (· + 1)) counts,
      n < countLimit) :
    places.foldlM raise counts =
      .ok (places.foldl (fun counts place => counts.modify place (· + 1)) counts) := by
  induction places generalizing counts with
  | nil => rfl
  | cons p places ih =>
      obtain ⟨here, others⟩ := List.forall_mem_cons.1 inside
      have found := List.getElem?_eq_getElem here
      have raised : raise counts p = .ok (counts.modify p (· + 1)) := by
        have final := getElem?_foldl_modify (p :: places) counts p
        rw [found, Option.map_some, List.count_cons_self] at final
        have below := fits _ (List.mem_of_getElem? final)
        rw [raise, found, List.modify_eq_set_getElem?, found]
        exact if_pos (by omega)
      rw [List.foldlM_cons, raised]
      refine ih (fun i hi => ?_) fits
      rw [List.length_modify]
      exact others i hi

theorem exists_predicate? (atom : l.atom.isAtom = true) : ∃ p, l.predicate? = some p := by
  unfold Term.isAtom at atom
  split at atom
  · next p args made => exact ⟨p, by rw [Literal.predicate?, made]⟩
  · cases atom

theorem raiseAny_eq (counts : List Nat) (place : Option Nat) :
    raiseAny counts place = place.toList.foldlM raise counts := by
  cases place with
  | none => rfl
  | some place => exact (bind_pure (raise counts place)).symm

/-- A literal raises the counts at all its places but the one for literals of either sign. -/
theorem countLiteral_eq (t : FeatureTable) (counts : List Nat) {p : Symbol}
    (atom : l.predicate? = some p) :
    t.countLiteral counts l = (t.placesOf l).tail.foldlM raise counts := by
  have predicate : l.predicate = pure p := by
    rw [Literal.predicate, atom]
    rfl
  have functions (counts : List Nat) :
      (functionsOf l).foldlM (fun counts f => raiseAny counts (t.functions.lookup f)) counts =
        ((functionsOf l).filterMap fun f => t.functions.lookup f).foldlM raise counts := by
    rw [List.foldlM_filterMap]
    refine congrArg (fun step => List.foldlM step counts (functionsOf l)) ?_
    funext counts f
    cases t.functions.lookup f <;> rfl
  rw [countLiteral, predicate, placesOf, List.tail_cons, List.foldlM_cons, atom]
  refine bind_congr fun counts => ?_
  rw [pure_bind, List.foldlM_append, Option.bind_some, ← raiseAny_eq]
  exact bind_congr functions

theorem foldlM_countLiteral (t : FeatureTable) (counts : List Nat) {ls : List Literal}
    (atoms : ∀ l ∈ ls, l.atom.isAtom = true) :
    ls.foldlM t.countLiteral counts = (ls.flatMap fun l => (t.placesOf l).tail).foldlM raise counts := by
  induction ls generalizing counts with
  | nil => rfl
  | cons l ls ih =>
      obtain ⟨here, others⟩ := List.forall_mem_cons.1 atoms
      obtain ⟨p, atom⟩ := exists_predicate? here
      rw [List.foldlM_cons, List.flatMap_cons, List.foldlM_append, t.countLiteral_eq counts atom]
      exact bind_congr fun counts => ih counts others

/-- The first places of all literals come to the number of literals. -/
theorem count_flatMap_placesOf (t : FeatureTable) (ls : List Literal) (i : Nat) :
    (ls.flatMap t.placesOf).count i =
      (if i = 0 then ls.length else 0) + (ls.flatMap fun l => (t.placesOf l).tail).count i := by
  induction ls with
  | nil => simp
  | cons l ls ih =>
      have first : t.placesOf l = 0 :: (t.placesOf l).tail := rfl
      rw [List.flatMap_cons, List.flatMap_cons, List.count_append, List.count_append, ih, first,
        List.count_cons, List.tail_cons, List.length_cons]
      by_cases here : i = 0
      · simp only [here, beq_self_eq_true, if_true]
        omega
      · rw [if_neg here, if_neg here, if_neg (by simpa using Ne.symm here)]
        omega

/-- As long as the counts fit, counting in words makes the vector. -/
theorem Tables.extractWords_eq (tables : t.Tables ps fs)
    (atoms : ∀ l ∈ c.literals, l.atom.isAtom = true) (fits : ∀ n ∈ t.extract c, n < countLimit) :
    t.extractWords c = .ok (t.extract c) := by
  let tails := c.literals.flatMap fun l => (t.placesOf l).tail
  let start := (List.replicate t.dimension 0).set 0 c.size
  have counted : tails.foldl (fun counts place => counts.modify place (· + 1)) start =
      t.extract c := by
    rw [extract_eq]
    apply List.ext_getElem?
    intro i
    rw [getElem?_foldl_modify, List.getElem?_map, List.getElem?_set, List.getElem?_replicate]
    by_cases inside : i < t.dimension
    · rw [List.getElem?_range inside, Option.map_some, count_flatMap_placesOf]
      by_cases here : i = 0
      · subst here
        simp [inside, Clause.size, tails]
      · simp [inside, here, Ne.symm here, tails]
    · have outside : ¬ 0 = i ∨ ¬ 0 < t.dimension := by omega
      rcases outside with other | none <;> simp [*]
  have inside : ∀ i ∈ tails, i < start.length := by
    intro i hi
    obtain ⟨l, -, hi⟩ := List.mem_flatMap.1 hi
    have place : i ∈ t.placesOf l := List.mem_of_mem_tail hi
    rw [placesOf_eq, List.mem_filterMap] at place
    obtain ⟨a, -, here⟩ := place
    rw [List.length_set, List.length_replicate]
    exact (tables.owned i).2 ⟨a, here⟩
  have size : c.size % countLimit = c.size := by
    have first := tables.getElem?_extract c (a := .literals) rfl
    rw [Feature.count_flatMap_ofLiteral (a := .literals) trivial] at first
    exact Nat.mod_eq_of_lt (fits _ (List.mem_of_getElem? first))
  rw [extractWords, size, t.foldlM_countLiteral _ atoms, foldlM_raise inside, counted]
  rwa [counted]

/-! ## Tables and their vectors -/

/-- The vectors of a table count, at each place, what belongs to the place. -/
structure CountsFeatures (t : FeatureTable) : Prop where
  length : ∀ c, (t.extract c).length = t.dimension
  entry : ∀ c a i, t.place? a = some i → a.Counted → (t.extract c)[i]? = some (a.count c)
  /-- Nothing is counted for a symbol that was named as a function and is none. -/
  idle : ∀ c a i, t.place? a = some i → ¬ a.Counted → (t.extract c)[i]? = some 0
  perm : ∀ c d, c.literals.Perm d.literals → t.extract c = t.extract d
  append : ∀ ls ms, t.extract ⟨ls ++ ms⟩ = List.zipWith (· + ·) (t.extract ⟨ls⟩) (t.extract ⟨ms⟩)
  /-- Counting in words makes the same vector. -/
  words : ∀ c, (∀ l ∈ c.literals, l.atom.isAtom = true) →
    (∀ n ∈ t.extract c, n < countLimit) → t.extractWords c = .ok (t.extract c)

theorem Tables.countsFeatures (tables : t.Tables ps fs) : t.CountsFeatures where
  length := t.length_extract
  entry c a i here counted := by
    rw [tables.getElem?_extract c here, Feature.count_flatMap_ofLiteral counted]
  idle c a i here uncounted := by
    rw [tables.getElem?_extract c here, Option.some.injEq, List.count_eq_zero]
    intro inside
    obtain ⟨l, -, inside⟩ := List.mem_flatMap.1 inside
    exact uncounted (Feature.counted_of_mem_ofLiteral inside)
  perm _ _ := t.extract_perm
  append := t.extract_append
  words _ := tables.extractWords_eq

/-- Whether a table is made from lists of symbols, with repetitions and overlaps, or from clauses:
it has places for just the symbols that are named, each place belongs to one feature, and the
vectors count that feature there. -/
theorem places_count_features (source : Source) :
    source.table.Tables source.predicates source.functions ∧ source.table.CountsFeatures :=
  ⟨source.tables, source.tables.countsFeatures⟩

/-- `p` and `f` are named as predicates and as functions, and `f` and `a` again. The clause is
`p(f(a)) | ~p(X0) | f(X0) = a`. -/
theorem places_count_features_overlapping :
    let f : Symbol := ⟨8, .function, 1⟩
    let a : Symbol := ⟨9, .constant, 0⟩
    let p : Symbol := ⟨10, .predicate, 1⟩
    let fa : Term := .app .function f [.app .constant a []]
    let c : Clause := ⟨[⟨.app .predicate p [fa], true⟩, ⟨.app .predicate p [.var ⟨0, 0⟩], false⟩,
      ⟨.equality (.app .function f [.var ⟨0, 0⟩]) (.app .constant a []), true⟩]⟩
    let t := ofSymbols [p, f, p] [f, a, p, a, f]
    t.place? (.deniedBy p) = some 4 ∧ t.place? (.occurrences a) = some 8 ∧
      t.extract c = [3, 2, 1, 1, 1, 0, 0, 2, 2, 0] ∧
      t.extractWords c = .ok (t.extract c) ∧ (t.extract c)[8]? = some 2 := by
  intro f a p fa c t
  obtain ⟨-, counts⟩ := places_count_features (.symbols [p, f, p] [f, a, p, a, f])
  refine ⟨by decide, by decide, by decide, counts.words c (by decide) (by decide), ?_⟩
  exact counts.entry c (.occurrences a) 8 (by decide) (by decide)

end FeatureTable

end SaturationCore
