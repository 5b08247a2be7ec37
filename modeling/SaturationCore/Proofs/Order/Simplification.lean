/-
# When terms exceed their subterms

A term exceeds an argument if its symbol and the other arguments weigh more than nothing
together. The other arguments may be leaves, and none weighs less than the lightest leaf. So
terms exceed all their proper subterms just when every symbol that takes arguments, with
leaves for all of them but one, weighs more than nothing. A function of one argument that
weighs nothing fails it: over a variable it weighs what the variable weighs, and the first
difference of a symbol and a variable decides nothing.

Reading settings checks that the weight of variables is not zero. What symbols weigh is not
checked, so an accepted text of settings need not describe such an ordering.
-/
import Mathlib.Data.Set.Finite.Lemmas
import SaturationCore.Proofs.Order.Stability
import SaturationCore.Proofs.Order.Termination
import SaturationCore.Settings

namespace SaturationCore

deriving instance DecidableEq for KnuthBendix

/-- The term is an argument of the other, or an argument of an argument, and so on. -/
inductive Term.ProperSubterm (t : Term) : Term → Prop where
  | arg {s : Term} : t ∈ s.args → ProperSubterm t s
  | inner {a s : Term} : ProperSubterm t a → a ∈ s.args → ProperSubterm t s

/-- A variable, or a symbol out of some that takes no arguments. -/
def Head.IsLeaf (alphabet : Set Symbol) (h : Head) : Prop :=
  h.arity = 0 ∧ ∀ s, h = .symbol s → s ∈ alphabet

theorem Head.isLeaf_var {alphabet : Set Symbol} (v : Variable) : (Head.var v).IsLeaf alphabet := by
  refine ⟨rfl, ?_⟩
  rintro s ⟨⟩

namespace KnuthBendix

variable {k : KnuthBendix} {σ : Signature} {alphabet : Set Symbol} {s t : Term} {hs : List Head}

/-- Every symbol that takes arguments, with leaves for all of them but one, weighs more than
nothing. -/
def Lifts (k : KnuthBendix) (alphabet : Set Symbol) : Prop :=
  ∀ f ∈ alphabet, f.kind ≠ .quantifier → 0 < f.arity → ∀ leaf : Head, leaf.IsLeaf alphabet →
    0 < k.symbolWeight f + (f.arity - 1 : Nat) * k.headWeight leaf

/-! ## Where symbols lift their arguments -/

theorem exists_lightest (k : KnuthBendix) (finite : alphabet.Finite) :
    ∃ leaf : Head, leaf.IsLeaf alphabet ∧
      ∀ other : Head, other.IsLeaf alphabet → k.headWeight leaf ≤ k.headWeight other := by
  -- All variables weigh the same, so one stands for all.
  let leaves : Set Head := insert (.var ⟨0, 0⟩) (Head.symbol '' {s | s ∈ alphabet ∧ s.arity = 0})
  have few : leaves.Finite := ((finite.subset fun _ hs => hs.1).image _).insert _
  obtain ⟨leaf, inside, lightest⟩ :=
    Set.exists_min_image leaves k.headWeight few ⟨_, Set.mem_insert _ _⟩
  refine ⟨leaf, ?_, fun other isLeaf => ?_⟩
  · obtain rfl | ⟨s, ⟨known, takes⟩, rfl⟩ := inside
    · exact Head.isLeaf_var _
    · exact ⟨takes, fun t same => Head.symbol.inj same ▸ known⟩
  · obtain ⟨takes, known⟩ := isLeaf
    cases other with
    | var v => exact lightest (.var ⟨0, 0⟩) (Set.mem_insert _ _)
    | symbol s => exact lightest _ (.inr ⟨s, ⟨known s rfl, takes⟩, rfl⟩)
    | binder v => cases takes

/-- Several terms weigh at least that many times as much as the lightest leaf. -/
theorem Lifts.mul_headWeight_le_total (lifts : k.Lifts alphabet) {leaf : Head}
    (isLeaf : leaf.IsLeaf alphabet)
    (lightest : ∀ other : Head, other.IsLeaf alphabet → k.headWeight leaf ≤ k.headWeight other)
    {ts : List Term} (known : ∀ t ∈ ts, t.Over alphabet)
    (plain : ∀ t ∈ ts, t.isQuantifierFree = true) :
    ts.length * k.headWeight leaf ≤ k.total (ts.flatMap Term.spelling) := by
  refine mul_le_total (Spells.flatMap fun t ht => (known t ht).spells) fun h hh => ?_
  obtain ⟨t, ht, here⟩ := List.mem_flatMap.1 hh
  obtain ⟨v, rfl⟩ | ⟨f, rfl⟩ := Term.head_cases (plain t ht) here
  · simpa [Head.arity] using lightest (.var v) (Head.isLeaf_var v)
  · have inside : f ∈ alphabet := (known t ht).symbolsOf_subset here
    cases takes : f.arity with
    | zero =>
        have lighter := lightest (.symbol f) ⟨takes, fun g same => Head.symbol.inj same ▸ inside⟩
        simpa [Head.arity, takes] using lighter
    | succ n =>
        have unquantified : f.kind ≠ .quantifier := by
          simpa [Head.isBinder] using Term.not_isBinder_of_mem (plain t ht) here
        have lift := lifts f inside unquantified (takes ▸ n.succ_pos) leaf isLeaf
        rw [takes, Nat.add_sub_cancel] at lift
        rw [Head.arity, takes, Int.natCast_succ, Int.add_mul, headWeight]
        omega

/-- A term exceeds its arguments. -/
theorem Lifts.outcome_arg (lifts : k.Lifts alphabet) (finite : alphabet.Finite)
    (known : s.Over alphabet) (plain : s.isQuantifierFree = true) (argument : t ∈ s.args) :
    k.outcome s.spelling t.spelling = .greater := by
  obtain ⟨root, inner⟩ := Term.isQuantifierFree_iff.1 plain
  cases known with
  | var v => cases argument
  | abstraction => cases root
  | @app role f args inside len builtArgs =>
      obtain ⟨front, back, rfl⟩ := List.append_of_mem argument
      have unquantified : f.kind ≠ .quantifier := by simpa [Term.head, Head.isBinder] using root
      obtain ⟨leaf, isLeaf, lightest⟩ := k.exists_lightest finite
      have others (ts : List Term) (sub : ts ⊆ front ++ t :: back) :
          ts.length * k.headWeight leaf ≤ k.total (ts.flatMap Term.spelling) :=
        lifts.mul_headWeight_le_total isLeaf lightest (fun a ha => builtArgs a (sub ha))
          fun a ha => inner a (sub ha)
      have before := others front (List.subset_append_left _ _)
      have behind := others back fun a ha => List.mem_append_right _ (List.mem_cons_of_mem _ ha)
      rw [List.length_append, List.length_cons] at len
      have lift := lifts f inside unquantified (by omega) leaf isLeaf
      have count : f.arity - 1 = front.length + back.length := by omega
      rw [count, Int.natCast_add, Int.add_mul] at lift
      have spelled : (Term.app role f (front ++ t :: back)).spelling =
          .symbol f :: (front.flatMap Term.spelling ++
            (t.spelling ++ back.flatMap Term.spelling)) := by
        rw [Term.spelling_eq, Term.head, Term.args, List.flatMap_append, List.flatMap_cons]
      rw [outcome_eq_greater_iff, spelled]
      constructor
      · intro v
        rw [List.count_cons, List.count_append, List.count_append]
        omega
      · left
        rw [total, total_append, total_append, headWeight]
        omega

theorem Lifts.outcome_properSubterm (lifts : k.Lifts alphabet) (finite : alphabet.Finite)
    (known : s.Over alphabet) (plain : s.isQuantifierFree = true) (subterm : t.ProperSubterm s) :
    k.outcome s.spelling t.spelling = .greater := by
  induction subterm with
  | arg argument => exact lifts.outcome_arg finite known plain argument
  | @inner a s _ argument ih =>
      have above := lifts.outcome_arg finite known plain argument
      have plainA := (Term.isQuantifierFree_iff.1 plain).2 a argument
      exact k.outcome_strict.trans _ _ _ above (ih (known.of_mem_args argument) plainA)

/-- Symbols lift their arguments if leaves weigh more than nothing, no symbol weighs less than
nothing, and none that takes one argument weighs nothing. -/
theorem lifts_of_leaves (leaves : ∀ leaf : Head, leaf.IsLeaf alphabet → 0 < k.headWeight leaf)
    (nonneg : ∀ f ∈ alphabet, 0 ≤ k.symbolWeight f)
    (unary : ∀ f ∈ alphabet, f.arity = 1 → 0 < k.symbolWeight f) : k.Lifts alphabet := by
  intro f inside _ takes leaf isLeaf
  have weight := nonneg f inside
  have light := leaves leaf isLeaf
  obtain one | more := Nat.eq_or_lt_of_le (show 1 ≤ f.arity from takes)
  · have positive := unary f inside one.symm
    rw [← one]
    simpa using positive
  · have others : 0 < ((f.arity - 1 : Nat) : Int) * k.headWeight leaf :=
      Int.mul_pos (by omega) light
    omega

/-! ## Where one does not -/

theorem total_flatMap_replicate (k : KnuthBendix) (n : Nat) (t : Term) :
    k.total ((List.replicate n t).flatMap Term.spelling) = n * k.total t.spelling := by
  induction n with
  | zero => simp [total]
  | succ n ih =>
      rw [List.replicate_succ, List.flatMap_cons, total_append, ih, Int.natCast_succ, Int.add_mul]
      omega

/-- A leaf is the whole of a term. -/
theorem exists_leaf (regular : ∀ s, σ.Declares s → s.Regular) {leaf : Head}
    (isLeaf : leaf.IsLeaf σ.Declares) :
    ∃ u : Term, u.WellFormed σ ∧ u.isQuantifierFree = true ∧
      k.total u.spelling = k.headWeight leaf := by
  obtain ⟨takes, known⟩ := isLeaf
  cases leaf with
  | var v => exact ⟨.var v, .var v, rfl, Int.add_zero _⟩
  | binder v => cases takes
  | symbol c =>
      refine ⟨.app c.kind c [], .app ⟨rfl, known c rfl⟩ takes.symm (List.forall_mem_nil _), ?_,
        Int.add_zero _⟩
      rw [Term.isQuantifierFree_iff]
      refine ⟨Bool.eq_false_of_not_eq_true fun binder => ?_, List.forall_mem_nil _⟩
      have quantifier : c.kind = .quantifier := by simpa [Term.head, Head.isBinder] using binder
      have one := (regular c (known c rfl)).2 quantifier
      rw [Head.arity, one] at takes
      cases takes

/-- A symbol that does not lift its arguments stands over a variable that it does not exceed. -/
theorem exists_not_greater_of_not_lifts (regular : ∀ s, σ.Declares s → s.Regular)
    (flat : ¬ k.Lifts σ.Declares) :
    ∃ s t : Term, s.WellFormed σ ∧ s.isQuantifierFree = true ∧ t.ProperSubterm s ∧
      k.compare s t ≠ .ok .greater := by
  simp only [Lifts, not_forall, Int.not_lt] at flat
  obtain ⟨f, inside, unquantified, takes, leaf, isLeaf, light⟩ := flat
  obtain ⟨u, wf, plain, weighs⟩ := exists_leaf (k := k) regular isLeaf
  let x : Term := .var ⟨0, 0⟩
  let args : List Term := x :: List.replicate (f.arity - 1) u
  have each {motive : Term → Prop} (var : motive x) (others : motive u) : ∀ a ∈ args, motive a :=
    List.forall_mem_cons.2 ⟨var, fun a ha => (List.eq_of_mem_replicate ha).symm ▸ others⟩
  have len : args.length = f.arity := by
    rw [List.length_cons, List.length_replicate]
    omega
  refine ⟨.app f.kind f args, x, .app ⟨rfl, inside⟩ len (each (.var _) wf),
    Term.isQuantifierFree_iff.2 ⟨by simpa [Term.head, Head.isBinder] using unquantified,
      each rfl plain⟩, .arg List.mem_cons_self, fun greater => ?_⟩
  have ideal := ((k.yields_compare _ _).eq_of_eq_ok greater).symm
  rw [outcome_eq_greater_iff, Term.spelling_eq, Term.args, List.flatMap_cons, Term.head, total,
    total_append, total_flatMap_replicate, weighs, headWeight] at ideal
  obtain ⟨-, heavier | ⟨-, first⟩⟩ := ideal
  · omega
  · cases first

end KnuthBendix

/-! ## Settings -/

theorem word?_lt {j : Json} {n : Nat} (shown : word? j = some n) : n < 1 <<< 64 := by
  cases j with
  | integer i =>
      simp only [word?, Json.natBelow?] at shown
      split at shown
      · cases shown
        omega
      · cases shown
  | _ => cases shown

/-- The weight of variables is written as a machine word. -/
theorem OrderSettings.variableWeight_lt {j : Json} {s : OrderSettings}
    (shown : ofJson? j = some s) : s.variableWeight < 1 <<< 64 := by
  simp only [ofJson?, Option.bind_eq_bind, Option.bind_eq_some_iff] at shown
  obtain ⟨members, -, shown⟩ := shown
  split at shown
  · next weights ranks variableWeight =>
      simp only [Option.bind_eq_some_iff] at shown
      obtain ⟨_, -, _, -, n, weight, ⟨⟩⟩ := shown
      cases variableWeight with
      | none =>
          cases weight
          exact (by decide : 1 < 1 <<< 64)
      | some j => exact word?_lt weight
  · cases shown

theorem Settings.variableWeight_lt {j : Json} {s : Settings} (shown : ofJson? j = some s) :
    s.order.variableWeight < 1 <<< 64 := by
  simp only [ofJson?, Option.bind_eq_bind, Option.bind_eq_some_iff] at shown
  obtain ⟨members, -, shown⟩ := shown
  split at shown
  · next index order =>
      simp only [Option.bind_eq_some_iff] at shown
      obtain ⟨_, -, o, settings, ⟨⟩⟩ := shown
      cases order with
      | none =>
          cases settings
          exact (by decide : 1 < 1 <<< 64)
      | some j => exact OrderSettings.variableWeight_lt settings
  · cases shown

/-- A way to read orderings from texts that weighs variables: with a machine word, which is not
zero. -/
def WeighsVariables (read : String → Signature → Except SettingsError KnuthBendix) : Prop :=
  ∀ text σ k, read text σ = .ok k → k.variableWeight ≠ 0 ∧ k.variableWeight < 1 <<< 64

theorem Settings.weighsVariables_readOrdering : WeighsVariables readOrdering := by
  intro text σ k accepted
  obtain ⟨s, read, ordering⟩ := bind_eq_ok_iff.1 accepted
  obtain ⟨s', parsed, checked⟩ := bind_eq_ok_iff.1 read
  obtain ⟨_, -, checked⟩ := bind_eq_ok_iff.1 checked
  obtain ⟨_, -, ⟨⟩⟩ := bind_eq_ok_iff.1 checked
  obtain ⟨_, valid, resolved⟩ := bind_eq_ok_iff.1 ordering
  obtain ⟨_, -, resolved⟩ := bind_eq_ok_iff.1 resolved
  obtain ⟨_, -, ⟨⟩⟩ := bind_eq_ok_iff.1 resolved
  constructor
  · intro zero
    rw [OrderSettings.validate, if_pos zero] at valid
    cases valid
  · rw [parse] at parsed
    split at parsed
    · next s shown =>
        cases parsed
        obtain ⟨j, -, shown⟩ := Option.bind_eq_some_iff.1 shown
        exact variableWeight_lt shown
    · cases parsed

/-- A machine word that is not zero is read as a weight that is not zero. -/
theorem Weight.ofConfigured_ne_zero {n : Nat} (some : n ≠ 0) (word : n < 1 <<< 64) :
    ofConfigured n ≠ 0 := by
  have wraps {m : Nat} (below : n < m) : (n : Int).bmod m ≠ 0 := by
    rw [Int.bmod_def, Int.emod_eq_of_lt (by omega) (by omega)]
    split <;> omega
  exact wraps word

namespace KnuthBendix

variable {k : KnuthBendix} {σ : Signature} {text : String}

/-- What becomes of the weights of an ordering does not depend on how texts are read, as long as
variables are weighed. -/
theorem exceeds_subterms_of_weighsVariables
    {read : String → Signature → Except SettingsError KnuthBendix} (weighs : WeighsVariables read)
    (grown : σ.Grown) (accepted : read text σ = .ok k) :
    k.leastWeight ≠ 0 ∧
    (k.Lifts σ.Declares → ∀ s t : Term, s.Over σ.Declares → s.isQuantifierFree = true →
      t.ProperSubterm s → k.compare s t ≠ .error .overflow → k.compare s t = .ok .greater) ∧
    (¬ k.Lifts σ.Declares → ∃ s t : Term, s.WellFormed σ ∧ s.isQuantifierFree = true ∧
      t.ProperSubterm s ∧ k.compare s t ≠ .ok .greater) := by
  obtain ⟨some, word⟩ := weighs text σ k accepted
  refine ⟨Weight.ofConfigured_ne_zero some word, fun lifts s t known plain subterm fits => ?_,
    exists_not_greater_of_not_lifts grown.regular⟩
  rw [(k.yields_compare s t).eq_ok fits,
    lifts.outcome_properSubterm σ.finite_declares known plain subterm]

/-- Of the weights of an ordering that a text of settings describes, reading the text makes sure
only that the one of variables is not zero. The terms over a signature exceed all their proper
subterms, unless a weight leaves its range, if every symbol that takes arguments weighs more
than nothing together with leaves for all of them but one. If a symbol does not, some term does
not exceed one of its subterms. -/
theorem readOrdering_exceeds_subterms (grown : σ.Grown)
    (accepted : Settings.readOrdering text σ = .ok k) :
    k.leastWeight ≠ 0 ∧
    (k.Lifts σ.Declares → ∀ s t : Term, s.Over σ.Declares → s.isQuantifierFree = true →
      t.ProperSubterm s → k.compare s t ≠ .error .overflow → k.compare s t = .ok .greater) ∧
    (¬ k.Lifts σ.Declares → ∃ s t : Term, s.WellFormed σ ∧ s.isQuantifierFree = true ∧
      t.ProperSubterm s ∧ k.compare s t ≠ .ok .greater) :=
  exceeds_subterms_of_weighsVariables Settings.weighsVariables_readOrdering grown accepted

/-- A symbol of two arguments may weigh nothing where leaves weigh something. One of one
argument may not. -/
theorem readOrdering_exceeds_subterms_binary :
    let functions := ((Signature.initial.internFunction "f" 1).2.internFunction "g" 2).2
    let σ := (functions.internConstant "a").2
    let text := "\x7b\"kbo\":\x7b\"symbol_weights\":\x7b\"g\":0,\"a\":2\x7d\x7d\x7d"
    let k : KnuthBendix := ⟨[(9, 0), (10, 2)], [], 1⟩
    let x : Term := .var ⟨0, 0⟩
    let f (t : Term) : Term := .app .function ⟨8, .function, 1⟩ [t]
    let g (s t : Term) : Term := .app .function ⟨9, .function, 2⟩ [s, t]
    let a : Term := .app .constant ⟨10, .constant, 0⟩ []
    let weightless := "\x7b\"kbo\":\x7b\"symbol_weights\":\x7b\"f\":0\x7d\x7d\x7d"
    let flat : KnuthBendix := ⟨[(8, 0)], [], 1⟩
    (σ.Grown ∧ Settings.readOrdering text σ = .ok k ∧ k.Lifts σ.Declares ∧
      (g (f x) a).Over σ.Declares ∧ x.ProperSubterm (g (f x) a) ∧
      k.compare (g (f x) a) x = .ok .greater) ∧
    (Settings.readOrdering weightless σ = .ok flat ∧ ¬ flat.Lifts σ.Declares ∧
      ∃ s t : Term, s.WellFormed σ ∧ s.isQuantifierFree = true ∧ t.ProperSubterm s ∧
        flat.compare s t ≠ .ok .greater) := by
  intro functions σ text k x f g a weightless flat
  have grown : σ.Grown := .constant "a" (.function "g" 2 (.function "f" 1 .initial))
  have accepted : Settings.readOrdering text σ = .ok k := by decide +kernel
  have entries : ∀ d ∈ σ.declarations, 0 ≤ k.symbolWeight d.symbol ∧
      (d.symbol.arity = 0 ∨ d.symbol.arity = 1 → 0 < k.symbolWeight d.symbol) := by decide +kernel
  have weights {s : Symbol} (known : σ.Declares s) : 0 ≤ k.symbolWeight s ∧
      (s.arity = 0 ∨ s.arity = 1 → 0 < k.symbolWeight s) := by
    obtain ⟨d, entry, rfl⟩ := Signature.declares_iff.1 known
    exact entries d (Array.mem_of_getElem? entry)
  have lifts : k.Lifts σ.Declares := by
    refine lifts_of_leaves ?_ (fun s known => (weights known).1)
      fun s known one => (weights known).2 (.inr one)
    rintro leaf ⟨takes, known⟩
    cases leaf with
    | var v => exact (by decide : 0 < Weight.ofConfigured 1)
    | symbol s => exact (weights (known s rfl)).2 (.inl takes)
    | binder v => cases takes
  have wf : (g (f x) a).WellFormed σ := by decide +kernel
  have known : (g (f x) a).Over σ.Declares := wf.over
  have inner : x.ProperSubterm (f x) := .arg List.mem_cons_self
  have subterm : x.ProperSubterm (g (f x) a) := inner.inner List.mem_cons_self
  have fits : k.compare (g (f x) a) x ≠ .error .overflow := by decide +kernel
  have taken : Settings.readOrdering weightless σ = .ok flat := by decide +kernel
  have level : ¬ flat.Lifts σ.Declares := by
    intro lifts
    have lift := lifts ⟨8, .function, 1⟩ rfl nofun Nat.one_pos (.var ⟨0, 0⟩) (Head.isLeaf_var _)
    exact absurd lift (by decide)
  exact ⟨⟨grown, accepted, lifts, known, subterm,
      (readOrdering_exceeds_subterms grown accepted).2.1 lifts _ _ known (by decide +kernel)
        subterm fits⟩,
    taken, level, (readOrdering_exceeds_subterms grown taken).2.2 level⟩

/-- A text is accepted in which `f`, of one argument, weighs nothing. Then `f(X0)` does not exceed
`X0`: the two weigh the same, and a symbol and a variable decide nothing. -/
theorem readOrdering_weightless_function :
    let σ := (Signature.initial.internFunction "f" 1).2
    let text := "\x7b\"kbo\":\x7b\"symbol_weights\":\x7b\"f\":0\x7d\x7d\x7d"
    let k : KnuthBendix := ⟨[(8, 0)], [], 1⟩
    let x : Term := .var ⟨0, 0⟩
    let fx : Term := .app .function ⟨8, .function, 1⟩ [x]
    σ.Grown ∧ Settings.readOrdering text σ = .ok k ∧ fx.WellFormed σ ∧
      fx.isQuantifierFree = true ∧ x.ProperSubterm fx ∧ k.compare fx x = .ok .incomparable := by
  refine ⟨.function "f" 1 .initial, ?_, ?_, ?_, .arg List.mem_cons_self, ?_⟩ <;> decide +kernel

end KnuthBendix

end SaturationCore
