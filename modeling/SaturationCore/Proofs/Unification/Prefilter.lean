/-
# What the look before unification decides

The look before unification walks along two subterms and skips what stands against a variable. As
long as both sides are at corresponding terms, a skip on one side goes as far as the variable on
the other, and afterwards the sides correspond again. So the walk decides whether the spellings are
compatible: whether they agree wherever neither of them has a variable.

Spellings with a common instance are compatible, so no pair is rejected that unifies. Compatible
spellings have a common instance if no variable occurs twice: each variable can then become what
stands against it without changing anything else. Compatibility does not depend on which variables
occur. So what is decided is whether two terms unify after every occurrence of a variable has been
replaced by a variable of its own.
-/
import Mathlib.Data.Fintype.EquivFin
import SaturationCore.Proofs.Unification.MostGeneral

namespace SaturationCore

theorem Spells.exists_split {k m n : Nat} {l : List Head} (spells : Spells k l) (sum : k = m + n) :
    ∃ front rest, l = front ++ rest ∧ Spells m front ∧ Spells n rest := by
  induction spells generalizing m with
  | nil =>
      obtain ⟨rfl, rfl⟩ : m = 0 ∧ n = 0 := by omega
      exact ⟨[], [], rfl, .nil, .nil⟩
  | @cons k h rest behind ih =>
      cases m with
      | zero =>
          rw [Nat.zero_add] at sum
          exact ⟨[], h :: rest, rfl, .nil, sum ▸ behind.cons⟩
      | succ m =>
          obtain ⟨front, others, rfl, first, second⟩ := ih (m := m + h.arity) (by omega)
          exact ⟨h :: front, others, rfl, first.cons, second⟩

theorem spells_var (v : Variable) : Spells 1 [.var v] :=
  .cons .nil

/-! ## Compatible spellings -/

/-- The sequences agree term by term, where a variable agrees with any term. -/
inductive Compatible : List Head → List Head → Prop where
  | nil : Compatible [] []
  | rigid {h : Head} {as bs : List Head} :
      h.isVariable = false → Compatible as bs → Compatible (h :: as) (h :: bs)
  | left (v : Variable) {front as bs : List Head} :
      Spells 1 front → Compatible as bs → Compatible (.var v :: as) (front ++ bs)
  | right (v : Variable) {front as bs : List Head} :
      Spells 1 front → Compatible as bs → Compatible (front ++ as) (.var v :: bs)

namespace Compatible

variable {as bs front : List Head} {x y : Head} {v : Variable}

theorem symm (compatible : Compatible as bs) : Compatible bs as := by
  induction compatible with
  | nil => exact .nil
  | rigid rigid _ ih => exact .rigid rigid ih
  | left v spells _ ih => exact .right v spells ih
  | right v spells _ ih => exact .left v spells ih

/-- A variable takes away exactly the term that stands against it. -/
theorem var_left_iff (spells : Spells 1 front) :
    Compatible (.var v :: as) (front ++ bs) ↔ Compatible as bs := by
  refine ⟨fun compatible => ?_, .left v spells⟩
  generalize left : .var v :: as = ls, right : front ++ bs = rs at compatible
  cases compatible with
  | nil => cases left
  | rigid rigid _ =>
      cases left
      cases rigid
  | left u spells' rest =>
      cases left
      obtain ⟨-, rfl⟩ := spells.cancel spells' right
      exact rest
  | right u spells' rest =>
      -- Both sides start with a variable, and either takes away the other.
      obtain ⟨-, rfl⟩ := (spells_var v).cancel spells' left
      obtain ⟨-, rfl⟩ := spells.cancel (spells_var u) right
      exact rest

theorem var_right_iff (spells : Spells 1 front) :
    Compatible (front ++ as) (.var v :: bs) ↔ Compatible as bs := by
  constructor
  · intro compatible
    exact ((var_left_iff spells).1 compatible.symm).symm
  · exact .right v spells

theorem rigid_iff (rigid : x.isVariable = false) (rigid' : y.isVariable = false) :
    Compatible (x :: as) (y :: bs) ↔ x = y ∧ Compatible as bs := by
  constructor
  · intro compatible
    generalize left : x :: as = ls, right : y :: bs = rs at compatible
    cases compatible with
    | nil => cases left
    | rigid _ rest =>
        cases left
        cases right
        exact ⟨rfl, rest⟩
    | left =>
        cases left
        cases rigid
    | right =>
        cases right
        cases rigid'
  · rintro ⟨rfl, rest⟩
    exact .rigid rigid rest

end Compatible

/-! ## The walk -/

namespace Flatterm

variable {t : Flatterm} {n p q : Nat}

theorem head?_eq (t : Flatterm) {p : Nat} (hp : p < t.size) : t.head? p = some t.cells[p].head := by
  rw [head?, Array.getElem?_eq_getElem hp, Option.map_some]

theorem Stretch.exists_succ (stretch : t.Stretch p n q) (more : p < q) : ∃ m, n = m + 1 := by
  cases n with
  | zero => exact absurd stretch.eq_of_zero (Nat.ne_of_lt more)
  | succ m => exact ⟨m, rfl⟩

theorem Stretch.lt (stretch : t.Stretch p (n + 1) q) : p < q := by
  obtain ⟨_, _, rest⟩ := stretch.first
  exact Nat.lt_of_lt_of_le (t.lt_after p) rest.le

/-- The first of several terms is spelled first, and the others start where it ends. -/
theorem Stretch.skip (stretch : t.Stretch p (n + 1) q) :
    t.Stretch (t.after p) n q ∧ Spells 1 (t.between p (t.after p)) ∧
      t.between p q = t.between p (t.after p) ++ t.between (t.after p) q := by
  obtain ⟨hp, _, rest⟩ := stretch.first
  have split := t.between_append (Nat.le_of_lt (t.lt_after p)) rest.le
  exact ⟨rest, (Subterm.stretch ⟨t, p, hp⟩).spells, split.symm⟩

/-- Behind the head of the first of several terms stand its arguments and then the others. -/
theorem Stretch.enter (stretch : t.Stretch p (n + 1) q) {h : Head} (root : t.head? p = some h) :
    t.Stretch (p + 1) (n + h.arity) q ∧ t.between p q = h :: t.between (p + 1) q := by
  obtain ⟨hp, args, rest⟩ := stretch.first
  rw [t.head?_eq hp, Option.some.injEq] at root
  have inner := args.append rest
  rw [root, Nat.add_comm h.arity] at inner
  refine ⟨inner, ?_⟩
  rw [← t.between_append (Nat.le_succ p) inner.le, t.between_succ hp, root]
  rfl

end Flatterm

namespace Subterm

/-- From where equally many terms are left on both sides, the walk decides whether what is left is
compatible. -/
theorem headsAgree_iff {a b : Flatterm} {n i stopA j stopB : Nat} (left : a.Stretch i n stopA)
    (right : b.Stretch j n stopB) : headsAgree a b i stopA j stopB = true ↔
      Compatible (a.between i stopA) (b.between j stopB) := by
  fun_induction headsAgree a b i stopA j stopB generalizing n with
  | case1 i j more _ u v rootB rootA ih =>
      obtain ⟨n, rfl⟩ := left.exists_succ more
      obtain ⟨laterA, splitA⟩ := left.enter rootA
      obtain ⟨laterB, splitB⟩ := right.enter rootB
      rw [ih laterA laterB, splitA, splitB]
      exact (Compatible.var_left_iff (spells_var v)).symm
  | case2 i j more _ u y _ rootB rootA ih =>
      obtain ⟨n, rfl⟩ := left.exists_succ more
      obtain ⟨laterA, splitA⟩ := left.enter rootA
      obtain ⟨laterB, spells, splitB⟩ := right.skip
      rw [ih laterA laterB, splitA, splitB]
      exact (Compatible.var_left_iff spells).symm
  | case3 i j more _ x v _ rootB rootA _ ih =>
      obtain ⟨n, rfl⟩ := left.exists_succ more
      obtain ⟨laterA, spells, splitA⟩ := left.skip
      obtain ⟨laterB, splitB⟩ := right.enter rootB
      rw [ih laterA laterB, splitA, splitB]
      exact (Compatible.var_right_iff spells).symm
  | case4 i j more _ x y _ notX notY rootB rootA ih =>
      obtain ⟨n, rfl⟩ := left.exists_succ more
      obtain ⟨laterA, splitA⟩ := left.enter rootA
      obtain ⟨laterB, splitB⟩ := right.enter rootB
      have rigid := Unifier.isVariable_eq_false_iff.2 notX
      have rigid' := Unifier.isVariable_eq_false_iff.2 notY
      rw [splitA, splitB, Compatible.rigid_iff rigid rigid', Bool.and_eq_true, beq_iff_eq]
      apply and_congr_right
      rintro rfl
      exact ih laterA laterB
  | case5 i j more _ _ _ _ neither =>
      obtain ⟨n, rfl⟩ := left.exists_succ more
      obtain ⟨hi, -⟩ := left.first
      obtain ⟨hj, -⟩ := right.first
      exact (neither _ _ (a.head?_eq hi) (b.head?_eq hj)).elim
  | case6 i j more done =>
      obtain ⟨n, rfl⟩ := left.exists_succ more
      exact absurd right.lt done
  | case7 i j done =>
      cases n with
      | succ n => exact absurd left.lt done
      | zero =>
          rw [left.eq_of_zero, right.eq_of_zero, a.between_self, b.between_self]
          simpa using Compatible.nil

theorem possiblyUnify_iff (a b : Subterm) :
    a.possiblyUnify b = true ↔ Compatible a.spelling b.spelling :=
  headsAgree_iff a.stretch b.stretch

end Subterm

/-! ## Common instances -/

/-- What stands against a variable in a common instance is one term, and the rest agrees again. -/
theorem Substitution.exists_behind_var {θ : Substitution} {n : Nat} {u : Variable}
    {as bs : List Head} (spells : Spells (n + 1) bs)
    (same : θ.instantiate (.var u :: as) = θ.instantiate bs) :
    ∃ front rest, bs = front ++ rest ∧ Spells 1 front ∧ Spells n rest ∧
      θ.instantiate as = θ.instantiate rest := by
  obtain ⟨front, rest, rfl, first, others⟩ := spells.exists_split (Nat.add_comm n 1)
  rw [instantiate_append] at same
  obtain ⟨-, behind⟩ := (θ u).spells.cancel (spells_instantiate first) same
  exact ⟨front, rest, rfl, first, others, behind⟩

/-- Spellings with a common instance are compatible. -/
theorem Compatible.of_instantiate_eq {θ : Substitution} {n : Nat} {as bs : List Head}
    (spells : Spells n as) (spells' : Spells n bs)
    (same : θ.instantiate as = θ.instantiate bs) : Compatible as bs := by
  -- Against a variable a whole term is taken away, so the induction is on the length.
  induction size : as.length using Nat.strong_induction_on generalizing n as bs with
  | _ size ih =>
      subst size
      cases spells with
      | nil =>
          rw [spells'.eq_nil]
          exact .nil
      | @cons n x as rest =>
          cases spells' with
          | @cons _ y bs rest' =>
              cases left : x.isVariable with
              | true =>
                  obtain ⟨u, rfl⟩ := Head.exists_var_of_isVariable left
                  obtain ⟨front, bs', split, first, others, behind⟩ :=
                    Substitution.exists_behind_var (.cons rest') same
                  rw [split]
                  exact .left u first (ih _ (Nat.lt_succ_self _) rest others behind rfl)
              | false =>
                  cases right : y.isVariable with
                  | true =>
                      obtain ⟨v, rfl⟩ := Head.exists_var_of_isVariable right
                      obtain ⟨front, as', split, first, others, behind⟩ :=
                        Substitution.exists_behind_var (.cons rest) same.symm
                      have shorter : as'.length < (x :: as).length := by
                        have some := first.count_le_length
                        rw [split, List.length_append]
                        omega
                      rw [split]
                      exact .right v first (ih _ shorter others rest' behind.symm rfl)
                  | false =>
                      rw [Substitution.instantiate_cons, Substitution.instantiate_cons,
                        θ.onHead_of_not_isVariable left, θ.onHead_of_not_isVariable right] at same
                      obtain ⟨rfl, behind⟩ := List.cons.inj same
                      exact .rigid left (ih _ (Nat.lt_succ_self _) rest rest' behind rfl)

/-! ## Variables of their own -/

/-- No variable stands at two leaves. -/
def Linear (hs : List Head) : Prop :=
  (Unifier.leaves hs).Nodup

instance (hs : List Head) : Decidable (Linear hs) :=
  inferInstanceAs (Decidable (Unifier.leaves hs).Nodup)

namespace Linear

variable {hs hs' as bs : List Head} {v : Variable}

theorem sublist (linear : Linear hs) (sub : hs'.Sublist hs) : Linear hs' :=
  List.Nodup.sublist (sub.filterMap _) linear

theorem comm : Linear (as ++ bs) ↔ Linear (bs ++ as) := by
  rw [Linear, Linear, Unifier.leaves, Unifier.leaves, List.filterMap_append, List.filterMap_append]
  exact List.nodup_append_comm

theorem cons_iff : Linear (.var v :: hs) ↔ .var v ∉ hs ∧ Linear hs := by
  rw [← Unifier.mem_leaves]
  exact List.nodup_cons

end Linear

theorem Substitution.instantiate_update {θ : Substitution} {v : Variable} {hs : List Head}
    (absent : .var v ∉ hs) (t : Flatterm) :
    Substitution.instantiate (Function.update θ v t) hs = θ.instantiate hs := by
  apply List.flatMap_congr
  intro h here
  cases h with
  | var u =>
      have other : u ≠ v := by
        rintro rfl
        exact absent here
      show (Function.update θ v t u).spelling = (θ u).spelling
      rw [Function.update_of_ne other]
  | symbol f => rfl
  | binder u => rfl

/-- A variable that occurs nowhere else becomes what stands against it. -/
theorem Substitution.exists_instantiate_var {θ : Substitution} {v : Variable}
    {front as bs : List Head} (spells : Spells 1 front) (absent : .var v ∉ as ++ (front ++ bs))
    (same : θ.instantiate as = θ.instantiate bs) :
    ∃ θ' : Substitution, θ'.instantiate (.var v :: as) = θ'.instantiate (front ++ bs) := by
  obtain ⟨t, -, spelled⟩ := Flatterm.ofSpelling_of_spells (spells_instantiate (θ := θ) spells)
  rw [List.mem_append, not_or] at absent
  use Function.update θ v t
  rw [instantiate_cons, instantiate_update absent.1, instantiate_update absent.2, onHead,
    Function.update_self, spelled, same, instantiate_append]

/-- Compatible spellings in which no variable occurs twice have a common instance. -/
theorem Compatible.exists_instantiate_eq {as bs : List Head} (compatible : Compatible as bs)
    (linear : Linear (as ++ bs)) :
    ∃ θ : Substitution, θ.instantiate as = θ.instantiate bs := by
  induction compatible with
  | nil => exact ⟨Flatterm.ofVariable, rfl⟩
  | @rigid h as bs rigid _ ih =>
      have inner : (as ++ bs).Sublist (h :: as ++ h :: bs) :=
        (List.sublist_cons_self h as).append (List.sublist_cons_self h bs)
      obtain ⟨θ, same⟩ := ih (linear.sublist inner)
      exact ⟨θ, congrArg (θ.onHead h ++ ·) same⟩
  | @left v front as bs spells _ ih =>
      obtain ⟨absent, others⟩ := Linear.cons_iff.1 linear
      have inner : (as ++ bs).Sublist (as ++ (front ++ bs)) :=
        (List.Sublist.refl as).append (List.sublist_append_right front bs)
      obtain ⟨θ, same⟩ := ih (others.sublist inner)
      exact Substitution.exists_instantiate_var spells absent same
  | @right v front as bs spells _ ih =>
      obtain ⟨absent, others⟩ := Linear.cons_iff.1 (Linear.comm.1 linear)
      have inner : (bs ++ as).Sublist (bs ++ (front ++ as)) :=
        (List.Sublist.refl bs).append (List.sublist_append_right front as)
      obtain ⟨θ, same⟩ := ih (Linear.comm.1 (others.sublist inner))
      obtain ⟨θ', same'⟩ := Substitution.exists_instantiate_var spells absent same.symm
      exact ⟨θ', same'.symm⟩

/-! ## Copies -/

/-- What a head is, apart from which variable it is. -/
def Head.form : Head → Option Head
  | .var _ => none
  | h => some h

/-- The sequences agree up to which variables stand at their leaves. -/
def SameForm (as bs : List Head) : Prop :=
  as.map Head.form = bs.map Head.form

instance (as bs : List Head) : Decidable (SameForm as bs) :=
  inferInstanceAs (Decidable (as.map Head.form = bs.map Head.form))

namespace SameForm

variable {as bs as' bs' : List Head} {h : Head} {v : Variable}

theorem symm (same : SameForm as bs) : SameForm bs as :=
  Eq.symm same

theorem exists_var_cons (same : SameForm (.var v :: as) bs) :
    ∃ u rest, bs = .var u :: rest ∧ SameForm as rest := by
  obtain ⟨k, rest, rfl, form, behind⟩ := List.map_eq_cons_iff.1 same.symm
  cases k with
  | var u => exact ⟨u, rest, rfl, behind.symm⟩
  | symbol f => cases form
  | binder u => cases form

theorem exists_rigid_cons (rigid : h.isVariable = false) (same : SameForm (h :: as) bs) :
    ∃ rest, bs = h :: rest ∧ SameForm as rest := by
  obtain ⟨k, rest, rfl, form, behind⟩ := List.map_eq_cons_iff.1 same.symm
  refine ⟨rest, ?_, behind.symm⟩
  cases h with
  | var v => cases rigid
  | symbol f => cases k <;> cases form; rfl
  | binder v => cases k <;> cases form; rfl

theorem exists_append (same : SameForm (as ++ bs) as') :
    ∃ front rest, as' = front ++ rest ∧ SameForm as front ∧ SameForm bs rest := by
  rw [SameForm, List.map_append] at same
  obtain ⟨front, rest, rfl, first, second⟩ := List.map_eq_append_iff.1 same.symm
  exact ⟨front, rest, rfl, first.symm, second.symm⟩

theorem spells {n : Nat} (same : SameForm as bs) (spells : Spells n as) : Spells n bs := by
  induction spells generalizing bs with
  | nil =>
      rw [List.map_eq_nil_iff.1 same.symm]
      exact .nil
  | @cons n h as _ ih =>
      cases leaf : h.isVariable with
      | true =>
          obtain ⟨v, rfl⟩ := Head.exists_var_of_isVariable leaf
          obtain ⟨u, rest, rfl, behind⟩ := same.exists_var_cons
          exact Spells.cons_iff.2 (ih behind)
      | false =>
          obtain ⟨rest, rfl, behind⟩ := same.exists_rigid_cons leaf
          exact (ih behind).cons

/-- Compatibility does not depend on which variables there are. -/
theorem compatible (left : SameForm as as') (right : SameForm bs bs')
    (compatible : Compatible as bs) : Compatible as' bs' := by
  induction compatible generalizing as' bs' with
  | nil =>
      rw [List.map_eq_nil_iff.1 left.symm, List.map_eq_nil_iff.1 right.symm]
      exact .nil
  | rigid rigid _ ih =>
      obtain ⟨as', rfl, behind⟩ := left.exists_rigid_cons rigid
      obtain ⟨bs', rfl, behind'⟩ := right.exists_rigid_cons rigid
      exact .rigid rigid (ih behind behind')
  | left v spells _ ih =>
      obtain ⟨u, as', rfl, behind⟩ := left.exists_var_cons
      obtain ⟨front, bs', rfl, first, behind'⟩ := right.exists_append
      exact .left u (first.spells spells) (ih behind behind')
  | right v spells _ ih =>
      obtain ⟨front, as', rfl, first, behind⟩ := left.exists_append
      obtain ⟨u, bs', rfl, behind'⟩ := right.exists_var_cons
      exact .right u (first.spells spells) (ih behind behind')

end SameForm

/-- The heads with the variables replaced one after another by those of a bank. -/
def renumber (bank : Nat) : (next : Nat) → List Head → List Head
  | _, [] => []
  | next, .var _ :: hs => .var ⟨bank, next⟩ :: renumber bank (next + 1) hs
  | next, h :: hs => h :: renumber bank next hs

theorem sameForm_renumber (bank next : Nat) (hs : List Head) :
    SameForm hs (renumber bank next hs) := by
  induction hs generalizing next with
  | nil => rfl
  | cons h hs ih =>
      cases h with
      | var v => exact congrArg (none :: ·) (ih (next + 1))
      | symbol f => exact congrArg (some (.symbol f) :: ·) (ih next)
      | binder v => exact congrArg (some (.binder v) :: ·) (ih next)

theorem mem_renumber {bank next : Nat} {hs : List Head} {v : Variable}
    (inside : .var v ∈ renumber bank next hs) : v.bank = bank ∧ next ≤ v.index := by
  induction hs generalizing next with
  | nil => cases inside
  | cons h hs ih =>
      cases h with
      | var u =>
          obtain here | later := List.mem_cons.1 inside
          · cases here
            exact ⟨rfl, Nat.le_refl next⟩
          · obtain ⟨same, above⟩ := ih later
            exact ⟨same, Nat.le_of_succ_le above⟩
      | symbol f => exact ih ((List.mem_cons.1 inside).resolve_left Head.noConfusion)
      | binder u => exact ih ((List.mem_cons.1 inside).resolve_left Head.noConfusion)

theorem linear_renumber (bank next : Nat) (hs : List Head) : Linear (renumber bank next hs) := by
  induction hs generalizing next with
  | nil => exact List.nodup_nil
  | cons h hs ih =>
      cases h with
      | var v =>
          refine Linear.cons_iff.2 ⟨fun again => ?_, ih (next + 1)⟩
          exact Nat.not_succ_le_self next (mem_renumber again).2
      | symbol f => exact ih next
      | binder v => exact ih next

namespace Subterm

/-- The second two subterms are copies of the first two, with every occurrence of a variable
replaced by a variable of its own. -/
structure Separated (a b a' b' : Subterm) : Prop where
  left : SameForm a.spelling a'.spelling
  right : SameForm b.spelling b'.spelling
  linear : Linear (a'.spelling ++ b'.spelling)

variable {a b a' b' : Subterm}

/-- There are such copies without any of the given variables. -/
theorem exists_separated (a b : Subterm) (avoided : List Variable) :
    ∃ a' b', Separated a b a' b' ∧ ∀ v ∈ avoided, .var v ∉ a'.spelling ++ b'.spelling := by
  obtain ⟨bank, unused⟩ := Infinite.exists_notMem_finset (avoided.map (·.bank)).toFinset
  obtain ⟨front, rest, split, left, right⟩ :=
    (sameForm_renumber bank 0 (a.spelling ++ b.spelling)).exists_append
  obtain ⟨a', -, spelled⟩ := ofSpelling_of_spells (left.spells a.spells)
  obtain ⟨b', -, spelled'⟩ := ofSpelling_of_spells (right.spells b.spells)
  rw [← spelled] at left
  rw [← spelled'] at right
  refine ⟨a', b', ⟨left, right, ?_⟩, ?_⟩
  · rw [spelled, spelled', ← split]
    exact linear_renumber bank 0 _
  · intro v avoid inside
    rw [spelled, spelled', ← split] at inside
    apply unused
    rw [List.mem_toFinset, ← (mem_renumber inside).1]
    exact List.mem_map_of_mem avoid

theorem isQuantifierFree_eq_of_sameForm (same : SameForm a.spelling a'.spelling) :
    a.isQuantifierFree = a'.isQuantifierFree := by
  have any_form (hs : List Head) :
      hs.any (·.isBinder) = (hs.map Head.form).any fun f => f.any Head.isBinder := by
    rw [List.any_map]
    congr
    funext h
    cases h <;> rfl
  rw [isQuantifierFree, isQuantifierFree, any_form, any_form, same]

/-- Separated copies unify just when the look before unification lets the subterms through. -/
theorem Separated.possiblyUnify_iff (copies : Separated a b a' b')
    (plain : a.isQuantifierFree = true) (plain' : b.isQuantifierFree = true) :
    a.possiblyUnify b = true ↔ (Unifier.unify .empty a' b').isSome = true := by
  rw [isQuantifierFree_eq_of_sameForm copies.left] at plain
  rw [isQuantifierFree_eq_of_sameForm copies.right] at plain'
  rw [Subterm.possiblyUnify_iff, Unifier.unify_isSome_iff Unifier.acyclic_empty
    Unifier.quantifierFree_empty plain plain']
  constructor
  · intro compatible
    have compatible' := copies.left.compatible copies.right compatible
    obtain ⟨θ, unified⟩ := compatible'.exists_instantiate_eq copies.linear
    exact ⟨θ, nofun, unified⟩
  · rintro ⟨θ, -, unified⟩
    have compatible' := Compatible.of_instantiate_eq a'.spells b'.spells unified
    exact copies.left.symm.compatible copies.right.symm compatible'

/-- The look before unification decides whether two subterms without binders, which may share
variables, unify up to repeated variables: whether copies of them unify in which every occurrence
of a variable is replaced by a variable of its own. Such copies exist apart from any variables. So
whatever unifies, from any acyclic ledger of instances without binders, passes the look. -/
theorem possiblyUnify_up_to_repeated (plain : a.isQuantifierFree = true)
    (plain' : b.isQuantifierFree = true) :
    (∀ avoided : List Variable,
      ∃ a' b', Separated a b a' b' ∧ ∀ v ∈ avoided, .var v ∉ a'.spelling ++ b'.spelling) ∧
    (∀ a' b', Separated a b a' b' →
      (a.possiblyUnify b = true ↔ (Unifier.unify .empty a' b').isSome = true)) ∧
    ∀ σ : Unifier, σ.Acyclic → σ.QuantifierFree → (σ.unify a b).isSome = true →
      a.possiblyUnify b = true := by
  refine ⟨exists_separated a b, fun a' b' copies => copies.possiblyUnify_iff plain plain', ?_⟩
  intro σ acyclic hσ success
  obtain ⟨θ, -, unified⟩ := (Unifier.unify_isSome_iff acyclic hσ plain plain').1 success
  exact (possiblyUnify_iff a b).2 (.of_instantiate_eq a.spells b.spells unified)

/-- `f(X0, X0)` and `f(g(X0), c)` do not unify, but pass the look because `f(X1, X2)` and
`f(g(X3), c)` do. While `X0` is `g(X2)`, `f(X0, X1)` and `f(g(X1), c)` unify, so they pass too. -/
theorem possiblyUnify_up_to_repeated_shared :
    let f : Head := .symbol ⟨20, .function, 2⟩
    let g : Head := .symbol ⟨21, .function, 1⟩
    let c : Head := .symbol ⟨22, .constant, 0⟩
    let x (i : Nat) : Head := .var ⟨0, i⟩
    (∃ a b a' b' : Subterm, ofSpelling [f, x 0, x 0] = .ok a ∧ ofSpelling [f, g, x 0, c] = .ok b ∧
      ofSpelling [f, x 1, x 2] = .ok a' ∧ ofSpelling [f, g, x 3, c] = .ok b' ∧
      (Unifier.unify .empty a b).isSome = false ∧ Separated a b a' b' ∧
      (Unifier.unify .empty a' b').isSome = true ∧ a.possiblyUnify b = true) ∧
    ∃ a b i : Subterm, ofSpelling [f, x 0, x 1] = .ok a ∧ ofSpelling [f, g, x 1, c] = .ok b ∧
      ofSpelling [g, x 2] = .ok i ∧ (Unifier.unify (Ledger.empty.push ⟨0, 0⟩ i) a b).isSome = true ∧
      a.possiblyUnify b = true := by
  intro f g c x
  have through {a b a' b' : Subterm} (plain : a.isQuantifierFree = true)
      (plain' : b.isQuantifierFree = true) (copies : Separated a b a' b')
      (unified : (Unifier.unify .empty a' b').isSome = true) :
      Separated a b a' b' ∧ (Unifier.unify .empty a' b').isSome = true ∧ a.possiblyUnify b = true :=
    ⟨copies, unified, ((possiblyUnify_up_to_repeated plain plain').2.1 a' b' copies).2 unified⟩
  have through' {a b i : Subterm} (plain : a.isQuantifierFree = true)
      (plain' : b.isQuantifierFree = true) (bare : i.isQuantifierFree = true)
      (acyclic : Unifier.Acyclic (Ledger.empty.push ⟨0, 0⟩ i))
      (unified : (Unifier.unify (Ledger.empty.push ⟨0, 0⟩ i) a b).isSome = true) :
      (Unifier.unify (Ledger.empty.push ⟨0, 0⟩ i) a b).isSome = true ∧ a.possiblyUnify b = true :=
    ⟨unified, (possiblyUnify_up_to_repeated plain plain').2.2 _ acyclic
      (Unifier.quantifierFree_empty.push bare) unified⟩
  refine ⟨⟨_, _, _, _, rfl, rfl, rfl, rfl, ?_, through ?_ ?_ ⟨?_, ?_, ?_⟩ ?_⟩,
    _, _, _, rfl, rfl, rfl, through' ?_ ?_ ?_ (Unifier.acyclic_empty.push rfl ?_) ?_⟩
  all_goals decide +kernel

end Subterm

end SaturationCore
