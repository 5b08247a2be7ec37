/-
# What reading head by head supplies

Reading an instance head by head supplies the heads of the instance in order and then comes to an
end, for subterms and for trees. At each moment the stack determines what is still to come: the
pieces that belong to an instance as they stand, and the others as the ledger reads them. Putting
an instance in front in place of its variable does not change what is to come, and reading a head
takes the first of what is to come away.
-/
import SaturationCore.Ledger.Splice
import SaturationCore.Proofs.Ledger.Replacement

namespace SaturationCore

/-- Taking one head after another gives these heads and then comes to an end. -/
inductive Supplies {S : Type} (next : S → Option (Head × S)) : S → List Head → Prop where
  | done {s : S} : next s = none → Supplies next s []
  | more {s s' : S} {h : Head} {hs : List Head} :
      next s = some (h, s') → Supplies next s' hs → Supplies next s (h :: hs)

section Supplies

variable {S : Type} {next : S → Option (Head × S)} {s : S} {hs hs' : List Head}

theorem Supplies.unique (first : Supplies next s hs) (second : Supplies next s hs') : hs = hs' := by
  induction first generalizing hs' with
  | done stops =>
      cases second with
      | done => rfl
      | more reads => cases stops.symm.trans reads
  | more reads _ ih =>
      cases second with
      | done stops => cases stops.symm.trans reads
      | more reads' rest =>
          cases reads.symm.trans reads'
          rw [ih rest]

/-- Heads are supplied if they agree with the state and each head taken is the first of them. -/
theorem Supplies.of_agrees {motive : S → List Head → Prop}
    (step : ∀ s hs, motive s hs → next s = none ∧ hs = [] ∨
      ∃ h s' hs', next s = some (h, s') ∧ hs = h :: hs' ∧ motive s' hs') (here : motive s hs) :
    Supplies next s hs := by
  induction hs generalizing s with
  | nil =>
      obtain ⟨stops, -⟩ | ⟨_, _, _, -, ⟨⟩, -⟩ := step s [] here
      exact .done stops
  | cons g hs ih =>
      obtain ⟨-, ⟨⟩⟩ | ⟨h, s', rest, reads, ⟨⟩, later⟩ := step s (g :: hs) here
      exact .more reads (ih later)

/-- If each head taken is the first of what lies ahead, what lies ahead is supplied. -/
theorem Supplies.of_step {ahead : S → List Head}
    (step : ∀ s, next s = none ∧ ahead s = [] ∨
      ∃ h s', next s = some (h, s') ∧ ahead s = h :: ahead s') (s : S) :
    Supplies next s (ahead s) := by
  refine of_agrees (motive := fun s hs => ahead s = hs) ?_ rfl
  rintro s _ rfl
  exact (step s).imp_right fun ⟨h, s', reads, here⟩ => ⟨h, s', _, reads, here, rfl⟩

end Supplies

namespace Matcher

variable (σ : Matcher)

/-- The heads that are still to be read. -/
def ahead (stack : List (Excerpt (List Cell))) : List Head :=
  stack.flatMap fun e =>
    if e.inInstance then e.part.map (·.head) else (e.part.map (·.head)).flatMap σ.expand

theorem ahead_cons (cells : List Cell) (inInstance : Bool) (outer : List (Excerpt (List Cell))) :
    σ.ahead (⟨cells, inInstance⟩ :: outer) =
      (if inInstance then cells.map (·.head) else (cells.map (·.head)).flatMap σ.expand) ++
        σ.ahead outer := rfl

theorem nextHead_cases (stack : List (Excerpt (List Cell))) :
    σ.nextHead stack = none ∧ σ.ahead stack = [] ∨
      ∃ h rest, σ.nextHead stack = some (h, rest) ∧ σ.ahead stack = h :: σ.ahead rest := by
  fun_induction nextHead σ stack with
  | case1 => exact .inl ⟨rfl, rfl⟩
  | case2 inInstance outer ih =>
      cases inInstance with
      | true => exact ih
      | false => exact ih
  | case3 c cells outer => exact .inr ⟨_, _, rfl, rfl⟩
  | case4 c cells outer t bound ih =>
      have spliced : σ.ahead (⟨c :: cells, false⟩ :: outer) =
          σ.ahead (⟨t.cells, true⟩ :: ⟨cells, false⟩ :: outer) := by
        have here : σ.expand c.head = t.spelling := by
          rw [expand, bound]
        rw [ahead_cons, ahead_cons, ahead_cons, List.map_cons, List.flatMap_cons, here]
        exact List.append_assoc _ _ _
      rw [spliced]
      exact ih
  | case5 c cells outer unbound =>
      have here : σ.expand c.head = [c.head] := by
        rw [expand, unbound]
      refine .inr ⟨_, _, rfl, ?_⟩
      rw [ahead_cons, ahead_cons, List.map_cons, List.flatMap_cons, here]
      rfl

/-- Reading a subterm head by head supplies its instance. -/
theorem supplies_instanceSpelling (s : Subterm) :
    Supplies σ.nextHead (start s) (σ.instanceSpelling s) := by
  have supplied := Supplies.of_step σ.nextHead_cases (start s)
  rwa [start, ahead_cons, ahead, List.flatMap_nil, List.append_nil] at supplied

end Matcher

namespace TreeMatcher

variable (σ : TreeMatcher)

/-- How a piece reads. -/
def reading (e : Excerpt Term) : List Head :=
  if e.inInstance then e.part.spelling else (σ.replace e.part).spelling

/-- The heads that are still to be read. -/
def ahead (stack : List (Excerpt Term)) : List Head :=
  stack.flatMap σ.reading

theorem ahead_cons (e : Excerpt Term) (later : List (Excerpt Term)) :
    σ.ahead (e :: later) = σ.reading e ++ σ.ahead later := rfl

theorem ahead_append (front later : List (Excerpt Term)) :
    σ.ahead (front ++ later) = σ.ahead front ++ σ.ahead later :=
  List.flatMap_append

/-- A tree that is no bound variable reads as its head followed by what its arguments read as. -/
theorem reading_eq_cons (t : Term) (unbound : t.asVariable.bind σ.get? = none) :
    σ.reading ⟨t, false⟩ = t.head :: σ.ahead (t.args.map (⟨·, false⟩)) := by
  show (σ.replace t).spelling = _
  cases t with
  | var v =>
      have free : σ.get? v = none := unbound
      rw [replace_var, deref_var, free]
      rfl
  | app role s args =>
      rw [replace_app, Term.spelling_eq, Term.args, ahead, List.flatMap_map, List.flatMap_map]
      rfl
  | abstraction v body =>
      rw [replace_abstraction, Term.spelling_eq, Term.args, Term.args, List.flatMap_singleton,
        ahead, List.map_singleton, List.flatMap_singleton]
      rfl

theorem nextHead_cases (stack : List (Excerpt Term)) :
    σ.nextHead stack = none ∧ σ.ahead stack = [] ∨
      ∃ h rest, σ.nextHead stack = some (h, rest) ∧ σ.ahead stack = h :: σ.ahead rest := by
  fun_induction nextHead σ stack with
  | case1 => exact .inl ⟨rfl, rfl⟩
  | case2 t later =>
      refine .inr ⟨_, _, rfl, ?_⟩
      have here : σ.reading ⟨t, true⟩ = t.head :: σ.ahead (t.args.map (⟨·, true⟩)) := by
        rw [ahead, List.flatMap_map]
        exact t.spelling_eq
      rw [ahead_cons, here, ahead_append]
      rfl
  | case3 t later u bound ih =>
      have spliced : σ.ahead (⟨t, false⟩ :: later) = σ.ahead (⟨u, true⟩ :: later) := by
        obtain ⟨v, root, found⟩ := Option.bind_eq_some_iff.1 bound
        have leaf := Term.eq_var_of_head (Head.asVariable_eq_some.1 root)
        rw [ahead_cons, ahead_cons, leaf, reading, replace_var, deref_of_bound found]
        rfl
      rw [spliced]
      exact ih
  | case4 t later unbound =>
      refine .inr ⟨_, _, rfl, ?_⟩
      rw [ahead_cons, σ.reading_eq_cons t unbound, ahead_append]
      rfl

end TreeMatcher

end SaturationCore
