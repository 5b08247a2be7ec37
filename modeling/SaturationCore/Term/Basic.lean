/-
# Terms and formulas

Terms and formulas share one tree: a variable, a symbol applied to arguments, or
the abstraction of a variable from a body. A quantified formula is a quantifier
applied to an abstraction.

An application also records the role it plays, one of the symbol categories. In
a well-formed term the role is the category of the symbol and there are as many
arguments as its arity; trees read from outside need not be well-formed, and
every function here says what it makes of them.

The spelling of a term is the sequence of its heads in prefix order.
-/
import SaturationCore.Fault

namespace SaturationCore

/-- A term or formula. -/
inductive Term where
  | var (v : Variable)
  | app (role : SymbolKind) (s : Symbol) (args : List Term)
  | abstraction (v : Variable) (body : Term)

namespace Term

/-- Induction over terms: what holds of variables, passes from all arguments to
an application and from a body to its abstraction holds of every term. -/
@[elab_as_elim]
theorem induction {motive : Term → Prop}
    (var : ∀ v, motive (.var v))
    (app : ∀ role s args, (∀ a ∈ args, motive a) → motive (.app role s args))
    (abstraction : ∀ v body, motive body → motive (.abstraction v body)) :
    ∀ t, motive t := by
  intro t
  refine Term.rec (motive_1 := motive) (motive_2 := fun args => ∀ a ∈ args, motive a)
    var app abstraction ?_ ?_ t
  · intro a h
    cases h
  · intro a args ha hargs b hb
    cases hb with
    | head => exact ha
    | tail _ hb => exact hargs b hb

mutual

/-- Whether two terms are the same tree. -/
def same : Term → Term → Bool
  | .var u, .var v => u == v
  | .app r s args, .app r' s' args' => r == r' && s == s' && sameAll args args'
  | .abstraction u body, .abstraction v body' => u == v && same body body'
  | _, _ => false

/-- Whether two sequences of terms agree place by place. -/
def sameAll : List Term → List Term → Bool
  | [], [] => true
  | a :: as, b :: bs => same a b && sameAll as bs
  | _, _ => false

end

private theorem sameAll_iff {as : List Term}
    (ih : ∀ a ∈ as, ∀ b, same a b = true ↔ a = b) (bs : List Term) :
    sameAll as bs = true ↔ as = bs := by
  induction as generalizing bs with
  | nil => cases bs <;> simp [sameAll]
  | cons a as step =>
    cases bs with
    | nil => simp [sameAll]
    | cons b bs =>
      have tail := step (fun c hc => ih c (List.mem_cons_of_mem _ hc)) bs
      simp [sameAll, ih a List.mem_cons_self b, tail]

theorem same_iff (a b : Term) : same a b = true ↔ a = b := by
  induction a using Term.induction generalizing b with
  | var u => cases b <;> simp [same]
  | app r s args ih => cases b <;> simp [same, sameAll_iff ih, and_assoc]
  | abstraction u body ih => cases b <;> simp [same, ih]

instance : DecidableEq Term := fun a b =>
  decidable_of_iff (same a b = true) (same_iff a b)

/-- What stands at the root of the term. -/
def head : Term → Head
  | .var v => .var v
  | .app _ s _ => .symbol s
  | .abstraction v _ => .binder v

/-- The immediate arguments. The argument of an abstraction is its body. -/
def args : Term → List Term
  | .var _ => []
  | .app _ _ args => args
  | .abstraction _ body => [body]

/-- The variable that the term consists of. -/
def asVariable (t : Term) : Option Variable :=
  t.head.asVariable

/-- Atoms are applications in the role of a predicate. -/
def isAtom : Term → Bool
  | .app .predicate _ _ => true
  | _ => false

mutual

/-- The heads of the term in prefix order, in front of `rest`. -/
def spellOnto : Term → List Head → List Head
  | .var v, rest => .var v :: rest
  | .app _ s args, rest => .symbol s :: spellAllOnto args rest
  | .abstraction v body, rest => .binder v :: spellOnto body rest

/-- The heads of a sequence of terms in prefix order, in front of `rest`. -/
def spellAllOnto : List Term → List Head → List Head
  | [], rest => rest
  | t :: ts, rest => spellOnto t (spellAllOnto ts rest)

end

/-- The heads of the term in prefix order. -/
def spelling (t : Term) : List Head :=
  t.spellOnto []

mutual

/-- How many heads the term has. -/
def size : Term → Nat
  | .var _ => 1
  | .app _ _ args => sizeAll args + 1
  | .abstraction _ body => size body + 1

/-- How many heads a sequence of terms has. -/
def sizeAll : List Term → Nat
  | [] => 0
  | t :: ts => size t + sizeAll ts

end

/-- The arguments of a term have fewer heads than the term. -/
theorem sizeAll_args_lt (t : Term) : sizeAll t.args < t.size := by
  cases t with
  | var v => simp [args, size, sizeAll]
  | app r s args => simp [Term.args, size]
  | abstraction v body => simp [args, size, sizeAll]

theorem spellOnto_append (t : Term) (front back : List Head) :
    t.spellOnto (front ++ back) = t.spellOnto front ++ back := by
  induction t using Term.induction generalizing front with
  | var v => rfl
  | app role s args ih =>
    have all (args : List Term)
        (ih : ∀ a ∈ args, ∀ front, a.spellOnto (front ++ back) = a.spellOnto front ++ back) :
        spellAllOnto args (front ++ back) = spellAllOnto args front ++ back := by
      induction args with
      | nil => rfl
      | cons a args step =>
        simp only [spellAllOnto, step fun b hb => ih b (List.mem_cons_of_mem _ hb),
          ih a List.mem_cons_self]
    simp only [spellOnto, all args ih, List.cons_append]
  | abstraction v body ih => simp only [spellOnto, ih, List.cons_append]

theorem spellOnto_eq (t : Term) (rest : List Head) : t.spellOnto rest = t.spelling ++ rest := by
  simpa [spelling] using t.spellOnto_append [] rest

theorem spellAllOnto_eq (ts : List Term) (rest : List Head) :
    spellAllOnto ts rest = ts.flatMap spelling ++ rest := by
  induction ts with
  | nil => rfl
  | cons t ts ih => simp [spellAllOnto, spellOnto_eq, ih]

/-- A term is spelled by its head and then by its arguments from left to right. -/
theorem spelling_eq (t : Term) : t.spelling = t.head :: t.args.flatMap spelling := by
  cases t with
  | var v => rfl
  | app role s args =>
    simp only [spelling, spellOnto, spellAllOnto_eq, head, Term.args, List.append_nil]
  | abstraction v body =>
    simp only [spelling, spellOnto, head, args, List.flatMap_cons, List.flatMap_nil,
      List.append_nil]

theorem length_flatMap_spelling {ts : List Term} (each : ∀ t ∈ ts, t.spelling.length = t.size) :
    (ts.flatMap spelling).length = sizeAll ts := by
  induction ts with
  | nil => rfl
  | cons t ts ih =>
    obtain ⟨first, others⟩ := List.forall_mem_cons.1 each
    rw [List.flatMap_cons, List.length_append, sizeAll, first, ih others]

theorem length_spelling (t : Term) : t.spelling.length = t.size := by
  induction t using Term.induction with
  | var v => rfl
  | app role s args ih =>
    rw [spelling_eq, List.length_cons, size]
    exact congrArg (· + 1) (length_flatMap_spelling ih)
  | abstraction v body ih =>
    rw [spelling_eq, List.length_cons, size, ← ih]
    simp [args]

/-- Whether the variable stands at a leaf of the term, bound or not. -/
def mentions (t : Term) (v : Variable) : Bool :=
  t.spelling.any (· == .var v)

theorem mentions_iff_mem {t : Term} {v : Variable} :
    t.mentions v = true ↔ .var v ∈ t.spelling := by
  simp [mentions]

theorem mentions_eq_true_iff {t : Term} {v : Variable} :
    t.mentions v = true ↔ t.head = .var v ∨ ∃ a ∈ t.args, a.mentions v = true := by
  simp [mentions, t.spelling_eq]

theorem mentions_var {u v : Variable} : (var v).mentions u = true ↔ u = v := by
  have spelled : (var v).spelling = [.var v] := rfl
  simp only [mentions, spelled, List.any_cons, List.any_nil, Bool.or_false, beq_iff_eq,
    Head.var.injEq]
  exact eq_comm

/-- Whether neither quantifier nor abstraction occurs in the term. -/
def isQuantifierFree (t : Term) : Bool :=
  !t.spelling.any (·.isBinder)

theorem isQuantifierFree_iff {t : Term} :
    t.isQuantifierFree = true ↔
      t.head.isBinder = false ∧ ∀ a ∈ t.args, a.isQuantifierFree = true := by
  simp [isQuantifierFree, t.spelling_eq]

mutual

/-- The variables at the leaves that neither `bound` nor a binder on the way
binds, from left to right and in front of `rest`. -/
def freeOnto (bound : List Variable) : Term → List Variable → List Variable
  | .var v, rest => if bound.contains v then rest else v :: rest
  | .app _ _ args, rest => freeAllOnto bound args rest
  | .abstraction v body, rest => freeOnto (v :: bound) body rest

/-- The free variables at the leaves of a sequence of terms, in front of `rest`. -/
def freeAllOnto (bound : List Variable) : List Term → List Variable → List Variable
  | [], rest => rest
  | t :: ts, rest => freeOnto bound t (freeAllOnto bound ts rest)

end

/-- The variables with an occurrence that no enclosing abstraction binds, each
once and in order of first such occurrence. -/
def freeVariables (t : Term) : List Variable :=
  (t.freeOnto [] []).eraseDups

/-- A function applied to as many arguments as its arity. Without arguments it
is a constant. -/
def function (s : Symbol) (args : List Term) : Checked Term := do
  require (s.arity == args.length) .brokenRule
  return if args.isEmpty then .app .constant s [] else .app .function s args

/-- A predicate applied to as many arguments as its arity. -/
def atom (s : Symbol) (args : List Term) : Checked Term := do
  require (s.arity == args.length) .brokenRule
  return .app .predicate s args

/-- The equation of two terms. -/
def equality (left right : Term) : Term :=
  .app .predicate Symbol.equality [left, right]

/-- A connective applied to as many formulas as it joins. -/
def connective (c : Connective) (args : List Term) : Checked Term := do
  require (c.symbol.arity == args.length) .brokenRule
  return .app .connective c.symbol args

/-- The formula that quantifies a variable over a body. -/
def quantified (q : Quantifier) (v : Variable) (body : Term) : Term :=
  .app .quantifier q.symbol [.abstraction v body]

end Term

end SaturationCore
