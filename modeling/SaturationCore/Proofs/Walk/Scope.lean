/-
# Free variables respect scopes

A walk with two stacks collects what the recursion over the term collects. What it has still to
come is read off both stacks together: the terms to be entered are read under the scopes that are
open, and every mark closes the innermost one.

A place of the spelling is free for the variable that stands there if it lies in no abstraction of
it. The recursion lists the variables of these places from left to right, so keeping each variable
once keeps it where it stands free first.
-/
import Mathlib.Data.Finset.Basic
import SaturationCore.Proofs.FreeVariables
import SaturationCore.Walk.Scope

namespace SaturationCore

/-! ## Keeping each variable once -/

/-- The list has every variable that stands somewhere, once, and in the order in which they stand
first. -/
structure ListsByFirst (stands : Nat → Variable → Prop) (vs : List Variable) : Prop where
  nodup : vs.Nodup
  mem_iff : ∀ v, v ∈ vs ↔ ∃ i, stands i v
  ordered : vs.Pairwise fun u v => ∃ i, stands i u ∧ ∀ j, stands j v → i < j

/-- Keeping each variable of a row once drops the duplicates of the row. -/
theorem Variable.foldl_keepOnce (row : List Variable) :
    row.foldl (fun kept v => v.keepOnce kept) [] = row.eraseDups := by
  induction row using List.reverseRecOn with
  | nil => rfl
  | append_singleton row v ih =>
      rw [List.foldl_append, ih, List.foldl_cons, List.foldl_nil, keepOnce, List.eraseDups_append,
        List.cons_removeAll, List.nil_removeAll]
      by_cases old : v ∈ row
      · rw [if_pos (by simpa using old), if_neg (by simpa using old)]
        exact (List.append_nil _).symm
      · rw [if_neg (by simpa using old), if_pos (by simpa using old)]
        rfl

/-- A variable that stands behind all others is kept where it belongs. -/
theorem ListsByFirst.keepOnce {stands : Nat → Variable → Prop} {vs : List Variable}
    (lists : ListsByFirst stands vs) {i : Nat} (last : ∀ j u, stands j u → j < i) (v : Variable) :
    ListsByFirst (fun j u => stands j u ∨ j = i ∧ u = v) (v.keepOnce vs) := by
  have earlier {u w : Variable} (before : ∃ k, stands k u ∧ ∀ j, stands j w → k < j) :
      ∃ k, (stands k u ∨ k = i ∧ u = v) ∧ ∀ j, stands j w ∨ j = i ∧ w = v → k < j := by
    obtain ⟨k, here, least⟩ := before
    refine ⟨k, .inl here, ?_⟩
    rintro j (there | ⟨rfl, -⟩)
    · exact least j there
    · exact last k u here
  by_cases old : v ∈ vs
  · rw [Variable.keepOnce, if_pos (List.contains_iff_mem.2 old)]
    refine ⟨lists.nodup, fun u => ?_, lists.ordered.imp earlier⟩
    rw [lists.mem_iff]
    constructor
    · exact fun ⟨j, there⟩ => ⟨j, .inl there⟩
    · rintro ⟨j, there | ⟨-, rfl⟩⟩
      · exact ⟨j, there⟩
      · exact (lists.mem_iff u).1 old
  · rw [Variable.keepOnce, if_neg (mt List.contains_iff_mem.1 old)]
    refine ⟨?_, fun u => ?_, ?_⟩
    · rw [← List.concat_eq_append]
      exact lists.nodup.concat old
    · rw [List.mem_append, List.mem_singleton, lists.mem_iff]
      constructor
      · rintro (⟨j, there⟩ | rfl)
        · exact ⟨j, .inl there⟩
        · exact ⟨i, .inr ⟨rfl, rfl⟩⟩
      · rintro ⟨j, there | ⟨-, rfl⟩⟩
        · exact .inl ⟨j, there⟩
        · exact .inr rfl
    · refine List.pairwise_append.2 ⟨lists.ordered.imp earlier, List.pairwise_singleton _ _, ?_⟩
      rintro u hu w hw
      cases List.mem_singleton.1 hw
      obtain ⟨k, here⟩ := (lists.mem_iff u).1 hu
      refine ⟨k, .inl here, ?_⟩
      rintro j (there | ⟨rfl, -⟩)
      · exact absurd ((lists.mem_iff v).2 ⟨j, there⟩) old
      · exact last k u here

/-- Dropping the duplicates from ascending places lists the variables by where they stand first. -/
theorem listsByFirst_eraseDups {places : List (Variable × Nat)}
    (ascending : places.Pairwise fun p q => p.2 < q.2) :
    ListsByFirst (fun i v => (v, i) ∈ places) (places.map (·.1)).eraseDups := by
  rw [← Variable.foldl_keepOnce]
  induction places using List.reverseRecOn with
  | nil => exact ⟨List.nodup_nil, by simp, List.Pairwise.nil⟩
  | append_singleton places p ih =>
      obtain ⟨front, -, later⟩ := List.pairwise_append.1 ascending
      have kept := (ih front).keepOnce
        (fun j u there => later (u, j) there p (List.mem_singleton_self p)) p.1
      have places_iff : (fun i v => (v, i) ∈ places ++ [p]) =
          fun i v => (v, i) ∈ places ∨ i = p.2 ∧ v = p.1 := by
        funext i v
        rw [List.mem_append, List.mem_singleton, Prod.ext_iff, and_comm]
      rw [places_iff, List.map_append, List.foldl_append]
      exact kept

/-! ## Places in a term -/

namespace Term

variable {t : Term} {u v : Variable} {bound : List Variable}

mutual

/-- The free variables of the term, defined by recursion. -/
def free : Term → Finset Variable
  | .var v => {v}
  | .app _ _ args => freeAll args
  | .abstraction v body => (free body).erase v

/-- The variables that are free in one of the terms. -/
def freeAll : List Term → Finset Variable
  | [] => ∅
  | t :: ts => free t ∪ freeAll ts

end

theorem mem_freeAll_iff {ts : List Term} : v ∈ freeAll ts ↔ ∃ t ∈ ts, v ∈ t.free := by
  induction ts with
  | nil => simp [freeAll]
  | cons t ts ih => simp [freeAll, ih]

theorem mem_free_iff : v ∈ t.free ↔ t.OccursFree v := by
  induction t using Term.induction with
  | var u => rw [free, Finset.mem_singleton, occursFree_var_iff]
  | app role s args ih =>
      rw [free, mem_freeAll_iff, occursFree_app_iff]
      exact exists_congr fun a => and_congr_right fun ha => ih a ha
  | abstraction u body ih => rw [free, Finset.mem_erase, ih, occursFree_abstraction_iff]

/-- The variable stands at a place of the spelling that lies in no abstraction of it. -/
inductive FreeAt (v : Variable) : Term → Nat → Prop where
  | var : FreeAt v (.var v) 0
  | arg {role : SymbolKind} {s : Symbol} {front back : List Term} {a : Term} {i : Nat} :
      FreeAt v a i →
      FreeAt v (.app role s (front ++ a :: back)) ((front.flatMap spelling).length + i + 1)
  | body {u : Variable} {body : Term} {i : Nat} :
      v ≠ u → FreeAt v body i → FreeAt v (.abstraction u body) (i + 1)

theorem FreeAt.getElem?_spelling {i : Nat} (free : t.FreeAt v i) :
    t.spelling[i]? = some (.var v) := by
  induction free with
  | var => rfl
  | @arg role s front back a i inside ih =>
      have before : i < a.spelling.length := (List.getElem?_eq_some_iff.1 ih).1
      rw [spelling_eq, List.getElem?_cons_succ, Term.args, List.flatMap_append, List.flatMap_cons,
        List.getElem?_append_right (Nat.le_add_right _ _), Nat.add_sub_cancel_left,
        List.getElem?_append_left before, ih]
  | @body u body i _ _ ih =>
      rw [spelling_eq, List.getElem?_cons_succ, Term.args, List.flatMap_singleton, ih]

mutual

/-- The variables at the free places of a term, from `start` on, with their places. -/
def places (bound : List Variable) : Term → (start : Nat) → List (Variable × Nat)
  | .var v, start => if bound.contains v then [] else [(v, start)]
  | .app _ _ args, start => placesAll bound args (start + 1)
  | .abstraction v body, start => places (v :: bound) body (start + 1)

/-- The free places of several terms that are spelled one behind the other. -/
def placesAll (bound : List Variable) : List Term → (start : Nat) → List (Variable × Nat)
  | [], _ => []
  | t :: ts, start => places bound t start ++ placesAll bound ts (start + t.spelling.length)

end

/-- The recursion collects the variables at free places from left to right. -/
theorem freeOnto_eq_places (t : Term) (bound : List Variable) (start : Nat) (rest : List Variable) :
    t.freeOnto bound rest = (t.places bound start).map (·.1) ++ rest := by
  induction t using Term.induction generalizing bound start rest with
  | var v =>
      rw [freeOnto, places]
      split <;> rfl
  | app role s args ih =>
      rw [freeOnto, places]
      generalize start + 1 = start
      induction args generalizing start with
      | nil => rfl
      | cons a args step =>
          rw [List.forall_mem_cons] at ih
          rw [freeAllOnto, placesAll, List.map_append, List.append_assoc, ← ih.1,
            ← step ih.2]
  | abstraction v body ih => rw [freeOnto, places, ih]

theorem mem_placesAll_iff {ts : List Term} {start j : Nat}
    (each : ∀ t ∈ ts, ∀ start, (v, j) ∈ t.places bound start ↔
      v ∉ bound ∧ ∃ k, t.FreeAt v k ∧ j = start + k) :
    (v, j) ∈ placesAll bound ts start ↔ v ∉ bound ∧ ∃ front t back k,
      ts = front ++ t :: back ∧ t.FreeAt v k ∧ j = start + (front.flatMap spelling).length + k := by
  induction ts generalizing start with
  | nil => simp [placesAll]
  | cons t ts ih =>
      rw [List.forall_mem_cons] at each
      rw [placesAll, List.mem_append, each.1, ih each.2, ← and_or_left]
      refine and_congr_right fun _ => ?_
      constructor
      · rintro (⟨k, free, rfl⟩ | ⟨front, u, back, k, rfl, free, rfl⟩)
        · exact ⟨[], t, ts, k, rfl, free, rfl⟩
        · refine ⟨t :: front, u, back, k, rfl, free, ?_⟩
          rw [List.flatMap_cons, List.length_append, ← Nat.add_assoc]
      · rintro ⟨_ | ⟨t', front⟩, u, back, k, split, free, rfl⟩
        · cases split
          exact .inl ⟨k, free, rfl⟩
        · cases split
          refine .inr ⟨front, u, back, k, rfl, free, ?_⟩
          rw [List.flatMap_cons, List.length_append, ← Nat.add_assoc]

/-- The recursion comes by just the free places. -/
theorem mem_places_iff {start j : Nat} :
    (v, j) ∈ t.places bound start ↔ v ∉ bound ∧ ∃ k, t.FreeAt v k ∧ j = start + k := by
  induction t using Term.induction generalizing bound start with
  | var u =>
      rw [places]
      by_cases inside : u ∈ bound
      · rw [if_pos (List.contains_iff_mem.2 inside)]
        refine iff_of_false List.not_mem_nil ?_
        rintro ⟨outside, _, ⟨⟩, -⟩
        exact outside inside
      · rw [if_neg (mt List.contains_iff_mem.1 inside), List.mem_singleton, Prod.mk.injEq]
        constructor
        · rintro ⟨rfl, rfl⟩
          exact ⟨inside, 0, .var, rfl⟩
        · rintro ⟨-, _, ⟨⟩, rfl⟩
          exact ⟨rfl, rfl⟩
  | app role s args ih =>
      rw [places, mem_placesAll_iff fun t ht start => ih t ht]
      refine and_congr_right fun _ => ?_
      constructor
      · rintro ⟨front, a, back, k, rfl, free, rfl⟩
        exact ⟨_, .arg free, by omega⟩
      · rintro ⟨_, ⟨⟩ | @⟨_, _, front, back, a, k, free⟩, rfl⟩
        exact ⟨front, a, back, k, rfl, free, by omega⟩
  | abstraction u body ih =>
      rw [places, ih, List.mem_cons, not_or]
      constructor
      · rintro ⟨⟨apart, outside⟩, k, free, rfl⟩
        exact ⟨outside, k + 1, .body apart free, by omega⟩
      · rintro ⟨outside, _, ⟨⟩ | _ | ⟨apart, free⟩, rfl⟩
        exact ⟨⟨apart, outside⟩, _, free, by omega⟩

theorem freeAt_iff_mem_places {i : Nat} : t.FreeAt v i ↔ (v, i) ∈ t.places [] 0 := by
  simp [mem_places_iff]

instance (t : Term) (v : Variable) (i : Nat) : Decidable (t.FreeAt v i) :=
  decidable_of_iff _ freeAt_iff_mem_places.symm

theorem FreeAt.lt {i : Nat} (free : t.FreeAt v i) : i < t.spelling.length :=
  (List.getElem?_eq_some_iff.1 free.getElem?_spelling).1

theorem places_ascending (t : Term) (bound : List Variable) (start : Nat) :
    (t.places bound start).Pairwise fun p q => p.2 < q.2 := by
  induction t using Term.induction generalizing bound start with
  | var u =>
      rw [places]
      split
      · exact .nil
      · exact List.pairwise_singleton _ _
  | app role s args ih =>
      rw [places]
      generalize start + 1 = start
      induction args generalizing start with
      | nil => exact .nil
      | cons a args step =>
          rw [List.forall_mem_cons] at ih
          refine List.pairwise_append.2 ⟨ih.1 bound start, step ih.2 _, ?_⟩
          -- The places of an argument lie before those of the arguments behind it.
          rintro ⟨u, i⟩ first ⟨w, j⟩ later
          obtain ⟨-, k, free, rfl⟩ := mem_places_iff.1 first
          obtain ⟨-, front, b, back, l, -, -, rfl⟩ :=
            (mem_placesAll_iff fun _ _ _ => mem_places_iff).1 later
          have := free.lt
          show start + k < _
          omega
  | abstraction u body ih => exact ih (u :: bound) (start + 1)

/-- The free variables are listed by where they stand free first. -/
theorem listsByFirst_freeVariables (t : Term) :
    ListsByFirst (fun i v => t.FreeAt v i) t.freeVariables := by
  have lists := listsByFirst_eraseDups (t.places_ascending [] 0)
  rw [freeVariables, t.freeOnto_eq_places [] 0, List.append_nil]
  simpa only [freeAt_iff_mem_places] using lists

end Term

/-! ## The walk -/

namespace ScopeWalk

/-- What is free in the terms still to be entered, under the scopes that are open then. -/
def ahead : (bound : List Variable) → List Visit → List Variable
  | _, [] => []
  | bound, .unbind :: rest => ahead bound.tail rest
  | bound, .enter t :: rest => t.freeOnto bound (ahead bound rest)

theorem ahead_map_enter (bound : List Variable) (ts : List Term) (rest : List Visit) :
    ahead bound (ts.map .enter ++ rest) = Term.freeAllOnto bound ts (ahead bound rest) := by
  induction ts with
  | nil => rfl
  | cons t ts ih => rw [List.map_cons, List.cons_append, ahead, ih, Term.freeAllOnto]

/-- What was collected together with what is free ahead. -/
def outcome (w : ScopeWalk) : List Variable :=
  (ahead w.bound w.stack).foldl (fun kept v => v.keepOnce kept) w.free

/-- A step collects what it takes from the stacks. -/
theorem outcome_of_step {w w' : ScopeWalk} (made : w.step = some w') : w'.outcome = w.outcome := by
  obtain ⟨stack, bound, free⟩ := w
  match stack with
  | [] => cases made
  | .unbind :: rest =>
      cases made
      rfl
  | .enter (.var v) :: rest =>
      cases made
      simp only [outcome, ahead, Term.freeOnto]
      split <;> rfl
  | .enter (.abstraction v body) :: rest =>
      cases made
      rfl
  | .enter (.app role s args) :: rest =>
      cases made
      simp only [outcome, ahead_map_enter, ahead, Term.freeOnto]

theorem stack_eq_nil {w : ScopeWalk} (stopped : w.step = none) : w.stack = [] := by
  rw [step] at stopped
  split at stopped
  · next empty => exact empty
  all_goals cases stopped

theorem run_eq_outcome (w : ScopeWalk) : w.run = w.outcome := by
  fun_induction run w with
  | case1 w stopped => rw [outcome, stack_eq_nil stopped, ahead, List.foldl_nil]
  | case2 w w' made ih => rw [ih, outcome_of_step made]

end ScopeWalk

theorem Term.collectFree_eq (t : Term) : t.collectFree = t.freeVariables := by
  rw [collectFree, ScopeWalk.run_eq_outcome]
  exact Variable.foldl_keepOnce _

theorem Clause.collectFree_eq (c : Clause) : c.collectFree = c.freeVariables := by
  simp only [collectFree, Term.collectFree_eq, Variable.foldl_keepOnce, freeVariables]

/-- Dropping the duplicates from a row lists the variables by where they stand first in it. -/
theorem listsByFirst_row (row : List Variable) :
    ListsByFirst (fun i v => row[i]? = some v) row.eraseDups := by
  have ascending : row.zipIdx.Pairwise fun p q => p.2 < q.2 := by
    rw [← List.pairwise_map (f := Prod.snd) (R := (· < ·)), List.zipIdx_map_snd]
    exact List.pairwise_lt_range'
  have lists := listsByFirst_eraseDups ascending
  rw [List.zipIdx_map_fst] at lists
  simpa only [List.mk_mem_zipIdx_iff_getElem?] using lists

/-- The walk through a term collects what the recursion defines to be free, in the order of the
places in prefix order that are free. The walk through a clause lists what it collects in the
literals one after the other, without duplicates. -/
theorem collectFree_respects_scopes :
    (∀ t : Term, t.collectFree = t.freeVariables ∧ (∀ v, v ∈ t.collectFree ↔ v ∈ t.free) ∧
      (∀ v i, t.FreeAt v i → t.spelling[i]? = some (.var v)) ∧
      ListsByFirst (fun i v => t.FreeAt v i) t.collectFree) ∧
    ∀ c : Clause, c.collectFree = c.freeVariables ∧
      ListsByFirst (fun i v => (c.literals.flatMap (·.atom.collectFree))[i]? = some v)
        c.collectFree := by
  refine ⟨fun t => ⟨t.collectFree_eq, fun v => ?_, fun v i free => free.getElem?_spelling, ?_⟩,
    fun c => ⟨c.collectFree_eq, ?_⟩⟩
  · rw [t.collectFree_eq, Term.mem_freeVariables_iff, Term.mem_free_iff]
  · rw [t.collectFree_eq]
    exact t.listsByFirst_freeVariables
  · rw [Clause.collectFree, Variable.foldl_keepOnce]
    exact listsByFirst_row _

/-- A scope of `X0` inside another one is closed first. `X1` is free in there, and `X2` behind it;
`X0` is bound behind it and free behind both scopes. -/
theorem collectFree_respects_scopes_nested :
    ∃ t : Term, t = .app .connective Connective.and.symbol
        [.abstraction ⟨0, 0⟩ (.app .function ⟨20, .function, 3⟩
          [.abstraction ⟨0, 0⟩ (.var ⟨0, 1⟩), .var ⟨0, 0⟩, .var ⟨0, 2⟩]), .var ⟨0, 0⟩] ∧
      t.collectFree = [⟨0, 1⟩, ⟨0, 2⟩, ⟨0, 0⟩] ∧
      ListsByFirst (fun i v => t.FreeAt v i) t.collectFree ∧
      t.FreeAt ⟨0, 1⟩ 4 ∧ t.spelling[4]? = some (.var ⟨0, 1⟩) := by
  obtain ⟨collected, -, spelled, lists⟩ := collectFree_respects_scopes.1 (.app .connective
    Connective.and.symbol [.abstraction ⟨0, 0⟩ (.app .function ⟨20, .function, 3⟩
      [.abstraction ⟨0, 0⟩ (.var ⟨0, 1⟩), .var ⟨0, 0⟩, .var ⟨0, 2⟩]), .var ⟨0, 0⟩])
  refine ⟨_, rfl, collected.trans (by decide), lists, ?_, spelled _ _ ?_⟩
  all_goals decide

end SaturationCore
