/-
# Turns of the work on a stack of pairs

Unification takes one pair at a time off a stack, follows the bindings of both
sides, and then drops the pair, binds a variable or puts the pairs of arguments in
its place. `Turn` is one such move, without any bound on how many there may be.

A turn keeps the ledger free of cycles and only ever adds to it. It neither gains
nor loses solutions, where a solution of a state solves the ledger and unifies
every pair still on the stack. Where no turn is possible although pairs are left,
the pair on top has no unifier at all.
-/
import SaturationCore.Proofs.Ledger.Reading
import SaturationCore.Unification

namespace SaturationCore

namespace Unifier

/-- Nothing that shows when the subterm is read is a quantifier or an abstraction. -/
def ReadsPlain (σ : Unifier) (s : Subterm) : Prop :=
  ∀ h ∈ σ.instanceSpelling s, h.isBinder = false

instance (σ : Unifier) (s : Subterm) : Decidable (σ.ReadsPlain s) :=
  inferInstanceAs (Decidable (∀ h ∈ σ.instanceSpelling s, h.isBinder = false))

/-- One turn of the work on a stack of pairs under a ledger. -/
inductive Turn :
    List (Subterm × Subterm) × Unifier → List (Subterm × Subterm) × Unifier → Prop where
  /-- Both sides lead to one unbound variable. -/
  | same {σ : Unifier} {a b : Subterm} {rest : List (Subterm × Subterm)} {v : Variable} :
      (σ.deref a).head = .var v → (σ.deref b).head = .var v → Turn ((a, b) :: rest, σ) (rest, σ)
  /-- The left side leads to a variable, which becomes the right side. -/
  | bindLeft {σ τ : Unifier} {a b : Subterm} {rest : List (Subterm × Subterm)} {v : Variable} :
      (σ.deref a).head = .var v → (σ.deref b).head ≠ .var v →
      σ.occurs v (σ.deref b) = false → σ.bind v (σ.deref b) = .ok τ →
      Turn ((a, b) :: rest, σ) (rest, τ)
  /-- Only the right side leads to a variable, which becomes the left side. -/
  | bindRight {σ τ : Unifier} {a b : Subterm} {rest : List (Subterm × Subterm)} {v : Variable} :
      (σ.deref a).head.isVariable = false → (σ.deref b).head = .var v →
      σ.occurs v (σ.deref a) = false → σ.bind v (σ.deref a) = .ok τ →
      Turn ((a, b) :: rest, σ) (rest, τ)
  /-- Both sides have one symbol at the root, and their arguments are to be unified,
  the last ones first. -/
  | decompose {σ : Unifier} {a b : Subterm} {rest : List (Subterm × Subterm)} :
      (σ.deref a).head.isVariable = false → (σ.deref a).head.isBinder = false →
      (σ.deref a).head = (σ.deref b).head →
      Turn ((a, b) :: rest, σ) (((σ.deref a).args.zip (σ.deref b).args).reverse ++ rest, σ)

/-- The work on pairs comes to an end: some turns lead to a state in which no
further turn is possible, and the answer says whether all pairs were worked off. -/
def Settles (pairs : List (Subterm × Subterm)) (σ : Unifier) (answer : Bool) (τ : Unifier) : Prop :=
  ∃ left, Relation.ReflTransGen Turn (pairs, σ) (left, τ) ∧ (∀ next, ¬ Turn (left, τ) next) ∧
    (answer = true ↔ left = [])

theorem Settles.of_nil {pairs : List (Subterm × Subterm)} {σ τ : Unifier}
    (run : Relation.ReflTransGen Turn (pairs, σ) ([], τ)) : Settles pairs σ true τ := by
  refine ⟨[], run, ?_, iff_of_true rfl rfl⟩
  intro next turn
  cases turn

theorem Settles.of_stuck {pairs rest : List (Subterm × Subterm)} {p : Subterm × Subterm}
    {σ τ : Unifier} (run : Relation.ReflTransGen Turn (pairs, σ) (p :: rest, τ))
    (stuck : ∀ next, ¬ Turn (p :: rest, τ) next) : Settles pairs σ false τ :=
  ⟨p :: rest, run, stuck, iff_of_false Bool.false_ne_true (List.cons_ne_nil p rest)⟩

/-- Every head on the stack and in the instances of the ledger has a property. -/
def Within (good : Head → Prop) (pairs : List (Subterm × Subterm)) (σ : Unifier) : Prop :=
  (∀ p ∈ pairs, (∀ h ∈ p.1.spelling, good h) ∧ ∀ h ∈ p.2.spelling, good h) ∧
    ∀ v t, σ.get? v = some t → ∀ h ∈ t.spelling, good h

/-- The ledger has no cycle, and no binder shows on the stack. -/
structure Sound (pairs : List (Subterm × Subterm)) (σ : Unifier) : Prop where
  acyclic : σ.Acyclic
  plain : ∀ p ∈ pairs, σ.ReadsPlain p.1 ∧ σ.ReadsPlain p.2

end Unifier

namespace Substitution

variable {θ : Substitution} {σ : Unifier} {a b : Subterm}

/-- The substitution solves the ledger and unifies all pairs. -/
def SolvesAll (θ : Substitution) (pairs : List (Subterm × Subterm)) (σ : Unifier) : Prop :=
  θ.Solves σ ∧ ∀ p ∈ pairs, θ.Unifies p.1 p.2

theorem solvesAll_cons {p : Subterm × Subterm} {rest : List (Subterm × Subterm)} :
    θ.SolvesAll (p :: rest) σ ↔ θ.Unifies p.1 p.2 ∧ θ.SolvesAll rest σ := by
  rw [SolvesAll, SolvesAll, List.forall_mem_cons, and_left_comm]

theorem Solves.unifies_deref (hθ : θ.Solves σ) :
    θ.Unifies (σ.deref a) (σ.deref b) ↔ θ.Unifies a b := by
  rw [Unifies, Unifies, Unifier.instantiate_deref hθ, Unifier.instantiate_deref hθ]

theorem solves_push {v : Variable} {t : Subterm} (unbound : σ.get? v = none) :
    θ.Solves (σ.push v t) ↔ θ.Solves σ ∧ (θ v).spelling = θ.instantiate t.spelling := by
  constructor
  · intro hθ
    refine ⟨fun u s bound => hθ u s ?_, hθ v t ?_⟩
    · have other : u ≠ v := by
        rintro rfl
        rw [unbound] at bound
        cases bound
      rw [Ledger.get?_push, if_neg other, bound]
    · rw [Ledger.get?_push, if_pos rfl]
  · rintro ⟨hθ, new⟩ u s bound
    rw [Ledger.get?_push] at bound
    split at bound
    · cases bound
      subst u
      exact new
    · exact hθ u s bound

/-- Under one symbol, unifying two subterms is unifying their arguments. -/
theorem unifies_iff_args (same : a.head = b.head) :
    θ.Unifies a b ↔ ∀ p ∈ a.args.zip b.args, θ.Unifies p.1 p.2 := by
  have len : a.args.length = b.args.length := by rw [a.length_args, b.length_args, same]
  rw [← instantiate_flatMap_eq_iff len, Unifies, a.spelling_eq, b.spelling_eq, ← same,
    instantiate_cons, instantiate_cons, List.append_cancel_left_eq]

/-- Under different symbols, two subterms have no unifier. -/
theorem not_unifies_of_head_ne (ha : a.head.isVariable = false) (hb : b.head.isVariable = false)
    (differ : a.head ≠ b.head) : ¬ θ.Unifies a b := by
  intro unified
  rw [Unifies, a.spelling_eq, b.spelling_eq, instantiate_cons, instantiate_cons,
    θ.onHead_of_not_isVariable ha, θ.onHead_of_not_isVariable hb] at unified
  exact differ (List.cons.inj unified).1

/-- A variable does not unify with anything larger that it shows in. -/
theorem not_unifies_of_occurs (hσ : σ.Acyclic) (hθ : θ.Solves σ) {v : Variable}
    (ha : a.head = .var v) (free : σ.Free b.head) (other : b.head ≠ .var v)
    (shows : .var v ∈ σ.read b.spelling) : ¬ θ.Unifies a b := by
  intro unified
  rw [Unifies, Subterm.spelling_of_head_eq_var ha, instantiate_var,
    ← hσ.instantiate_read hθ b.spelling] at unified
  rw [b.spelling_eq, Unifier.read_cons, Unifier.read_of_free free] at shows unified
  have below : .var v ∈ σ.read (b.args.flatMap Subterm.spelling) := by
    rcases List.mem_append.1 shows with root | below
    · exact absurd (List.mem_singleton.1 root).symm other
    · exact below
  have smaller := length_le_of_mem (θ := θ) below
  have positive : 0 < (θ.instantiate [b.head]).length := by
    cases hb : b.head with
    | var u => exact (θ u).spells.count_le_length.trans_eq (by rw [instantiate_var])
    | symbol s => exact Nat.one_pos
    | binder u => exact Nat.one_pos
  have lengths := congrArg List.length unified
  rw [instantiate_append, List.length_append] at lengths
  omega

end Substitution

namespace Unifier

variable {σ τ : Unifier} {θ : Substitution} {a b : Subterm}
  {pairs left : List (Subterm × Subterm)}

theorem isVariable_eq_false_iff {h : Head} : h.isVariable = false ↔ ∀ v, h = .var v → False := by
  cases h <;> simp [Head.isVariable]

theorem readsPlain_deref (hσ : σ.Acyclic) (h : σ.ReadsPlain a) : σ.ReadsPlain (σ.deref a) := by
  intro k hk
  rw [instanceSpelling_eq_read, hσ.read_deref] at hk
  exact h k hk

theorem ReadsPlain.head (h : σ.ReadsPlain a) (free : σ.Free a.head) : a.head.isBinder = false := by
  apply h
  rw [instanceSpelling_eq_read, a.spelling_eq, read_cons, read_of_free free]
  exact List.mem_cons_self

theorem ReadsPlain.arg (h : σ.ReadsPlain a) (hb : b ∈ a.args) : σ.ReadsPlain b :=
  fun k hk => h k (read_subset (Subterm.spelling_subset_of_mem_args hb) hk)

theorem Within.deref {good : Head → Prop}
    (ledger : ∀ v t, σ.get? v = some t → ∀ h ∈ t.spelling, good h)
    (ha : ∀ h ∈ a.spelling, good h) : ∀ h ∈ (σ.deref a).spelling, good h := by
  rcases σ.deref_eq_or_bound a with same | ⟨v, bound⟩
  · rwa [same]
  · exact ledger v _ bound

theorem Within.push {good : Head → Prop}
    (ledger : ∀ v t, σ.get? v = some t → ∀ h ∈ t.spelling, good h)
    {v : Variable} (ha : ∀ h ∈ a.spelling, good h) :
    ∀ u t, (σ.push v a).get? u = some t → ∀ h ∈ t.spelling, good h :=
  Ledger.forall_get?_push ledger ha

namespace Turn

/-- A turn brings up no head that was not there. -/
theorem within {good : Head → Prop} (turn : Turn (pairs, σ) (left, τ))
    (h : Within good pairs σ) : Within good left τ := by
  obtain ⟨stack, ledger⟩ := h
  cases turn with
  | same => exact ⟨fun p hp => stack p (List.mem_cons_of_mem _ hp), ledger⟩
  | bindLeft _ _ _ bound =>
      obtain ⟨-, rfl⟩ := Ledger.bind_iff_push.1 bound
      exact ⟨fun p hp => stack p (List.mem_cons_of_mem _ hp),
        Within.push ledger (Within.deref ledger (stack _ List.mem_cons_self).2)⟩
  | bindRight _ _ _ bound =>
      obtain ⟨-, rfl⟩ := Ledger.bind_iff_push.1 bound
      exact ⟨fun p hp => stack p (List.mem_cons_of_mem _ hp),
        Within.push ledger (Within.deref ledger (stack _ List.mem_cons_self).1)⟩
  | decompose =>
      refine ⟨fun p hp => ?_, ledger⟩
      rcases List.mem_append.1 hp with inner | rest
      · obtain ⟨fst, snd⟩ := List.of_mem_zip (List.mem_reverse.1 inner)
        obtain ⟨goodA, goodB⟩ := stack _ List.mem_cons_self
        exact ⟨fun h hh => Within.deref ledger goodA h (Subterm.spelling_subset_of_mem_args fst hh),
          fun h hh => Within.deref ledger goodB h (Subterm.spelling_subset_of_mem_args snd hh)⟩
      · exact stack p (List.mem_cons_of_mem _ rest)

theorem extended (turn : Turn (pairs, σ) (left, τ)) : τ.Extends σ := by
  cases turn with
  | same => exact Ledger.Extends.refl σ
  | bindLeft _ _ _ bound =>
      obtain ⟨-, rfl⟩ := Ledger.bind_iff_push.1 bound
      exact σ.extends_push _ _
  | bindRight _ _ _ bound =>
      obtain ⟨-, rfl⟩ := Ledger.bind_iff_push.1 bound
      exact σ.extends_push _ _
  | decompose => exact Ledger.Extends.refl σ

end Turn

/-- A binding that passes the occurs check keeps the ledger free of cycles, and no
binder shows under it that did not show before. -/
theorem acyclic_and_readsPlain_of_bind {v : Variable} {t : Subterm} (hσ : σ.Acyclic)
    (plain : σ.ReadsPlain t) (apart : σ.occurs v t = false) (bound : σ.bind v t = .ok τ) :
    τ.Acyclic ∧ ∀ s, σ.ReadsPlain s → τ.ReadsPlain s := by
  obtain ⟨unbound, rfl⟩ := Ledger.bind_iff_push.1 bound
  have absent : .var v ∉ σ.read t.spelling := by
    intro shows
    rw [(hσ.occurs_iff v t).2 shows] at apart
    cases apart
  refine ⟨hσ.push unbound absent, fun s hs k hk => ?_⟩
  rcases hσ.mem_read_push unbound absent hk with before | new
  · exact hs k before
  · exact plain k new

/-- What one turn preserves: the ledger stays free of cycles, and what read without
binders still does. -/
theorem Turn.acyclic_and_readsPlain (turn : Turn (pairs, σ) (left, τ)) (sound : Sound pairs σ) :
    τ.Acyclic ∧ ∀ s, σ.ReadsPlain s → τ.ReadsPlain s := by
  cases turn with
  | same => exact ⟨sound.acyclic, fun _ hs => hs⟩
  | bindLeft _ _ apart bound =>
      have plain := readsPlain_deref sound.acyclic (sound.plain _ List.mem_cons_self).2
      exact acyclic_and_readsPlain_of_bind sound.acyclic plain apart bound
  | bindRight _ _ apart bound =>
      have plain := readsPlain_deref sound.acyclic (sound.plain _ List.mem_cons_self).1
      exact acyclic_and_readsPlain_of_bind sound.acyclic plain apart bound
  | decompose => exact ⟨sound.acyclic, fun _ hs => hs⟩

theorem Turn.sound (turn : Turn (pairs, σ) (left, τ)) (sound : Sound pairs σ) : Sound left τ := by
  obtain ⟨acyclic, carried⟩ := turn.acyclic_and_readsPlain sound
  refine ⟨acyclic, fun p hp => ?_⟩
  cases turn with
  | same => exact sound.plain p (List.mem_cons_of_mem _ hp)
  | bindLeft =>
      obtain ⟨fst, snd⟩ := sound.plain p (List.mem_cons_of_mem _ hp)
      exact ⟨carried _ fst, carried _ snd⟩
  | bindRight =>
      obtain ⟨fst, snd⟩ := sound.plain p (List.mem_cons_of_mem _ hp)
      exact ⟨carried _ fst, carried _ snd⟩
  | decompose =>
      rcases List.mem_append.1 hp with inner | rest
      · obtain ⟨fst, snd⟩ := List.of_mem_zip (List.mem_reverse.1 inner)
        obtain ⟨plainA, plainB⟩ := sound.plain _ List.mem_cons_self
        exact ⟨(readsPlain_deref acyclic plainA).arg fst, (readsPlain_deref acyclic plainB).arg snd⟩
      · exact sound.plain p (List.mem_cons_of_mem _ rest)

/-- One turn neither gains nor loses solutions. -/
theorem Turn.solvesAll_iff (turn : Turn (pairs, σ) (left, τ)) :
    θ.SolvesAll left τ ↔ θ.SolvesAll pairs σ := by
  cases turn with
  | @same _ a b rest v ha hb =>
      rw [Substitution.solvesAll_cons]
      refine ⟨fun h => ⟨?_, h⟩, fun h => h.2⟩
      rw [← h.1.unifies_deref, Substitution.Unifies, Subterm.spelling_of_head_eq_var ha,
        Subterm.spelling_of_head_eq_var hb]
  | @bindLeft _ _ a b rest v ha _ _ bound =>
      obtain ⟨unbound, rfl⟩ := Ledger.bind_iff_push.1 bound
      have unified (hθ : θ.Solves σ) :
          θ.Unifies a b ↔ (θ v).spelling = θ.instantiate (σ.deref b).spelling := by
        rw [← hθ.unifies_deref, Substitution.Unifies, Subterm.spelling_of_head_eq_var ha,
          θ.instantiate_var]
      rw [Substitution.solvesAll_cons, Substitution.SolvesAll, Substitution.SolvesAll,
        Substitution.solves_push unbound]
      constructor
      · rintro ⟨⟨hθ, new⟩, rest⟩
        exact ⟨(unified hθ).2 new, hθ, rest⟩
      · rintro ⟨top, hθ, rest⟩
        exact ⟨⟨hθ, (unified hθ).1 top⟩, rest⟩
  | @bindRight _ _ a b rest v _ hb _ bound =>
      obtain ⟨unbound, rfl⟩ := Ledger.bind_iff_push.1 bound
      have unified (hθ : θ.Solves σ) :
          θ.Unifies a b ↔ (θ v).spelling = θ.instantiate (σ.deref a).spelling := by
        rw [← hθ.unifies_deref, Substitution.Unifies, Subterm.spelling_of_head_eq_var hb,
          θ.instantiate_var]
        exact eq_comm
      rw [Substitution.solvesAll_cons, Substitution.SolvesAll, Substitution.SolvesAll,
        Substitution.solves_push unbound]
      constructor
      · rintro ⟨⟨hθ, new⟩, rest⟩
        exact ⟨(unified hθ).2 new, hθ, rest⟩
      · rintro ⟨top, hθ, rest⟩
        exact ⟨⟨hθ, (unified hθ).1 top⟩, rest⟩
  | @decompose _ a b rest _ _ heads =>
      rw [Substitution.solvesAll_cons, Substitution.SolvesAll, Substitution.SolvesAll,
        List.forall_mem_append]
      simp only [List.mem_reverse]
      constructor
      · rintro ⟨hθ, inner, rest⟩
        exact ⟨hθ.unifies_deref.1 ((Substitution.unifies_iff_args heads).2 inner), hθ, rest⟩
      · rintro ⟨top, hθ, rest⟩
        exact ⟨hθ, (Substitution.unifies_iff_args heads).1 (hθ.unifies_deref.2 top), rest⟩

/-- Where pairs are left and no turn is possible, the pair on top has no unifier. -/
theorem not_unifies_of_stuck {rest : List (Subterm × Subterm)} (sound : Sound ((a, b) :: rest) σ)
    (stuck : ∀ next, ¬ Turn ((a, b) :: rest, σ) next) (hθ : θ.Solves σ) : ¬ θ.Unifies a b := by
  rw [← hθ.unifies_deref]
  have freeA := sound.acyclic.free_deref a
  have freeB := sound.acyclic.free_deref b
  cases ha : (σ.deref a).head.isVariable with
  | true =>
      obtain ⟨v, ha⟩ := Head.exists_var_of_isVariable ha
      have unbound : σ.get? v = none := free_var_iff.1 (ha ▸ freeA)
      have other : (σ.deref b).head ≠ .var v := fun hb => stuck _ (.same ha hb)
      cases occ : σ.occurs v (σ.deref b) with
      | false =>
          have bound : σ.bind v (σ.deref b) = .ok _ := Ledger.bind_iff_push.2 ⟨unbound, rfl⟩
          exact absurd (.bindLeft ha other occ bound) (stuck _)
      | true =>
          exact Substitution.not_unifies_of_occurs sound.acyclic hθ ha freeB other
            ((sound.acyclic.occurs_iff v _).1 occ)
  | false =>
      cases hb : (σ.deref b).head.isVariable with
      | true =>
          obtain ⟨v, hb⟩ := Head.exists_var_of_isVariable hb
          have unbound : σ.get? v = none := free_var_iff.1 (hb ▸ freeB)
          have other : (σ.deref a).head ≠ .var v := by
            intro h
            simp [h, Head.isVariable] at ha
          cases occ : σ.occurs v (σ.deref a) with
          | false =>
              have bound : σ.bind v (σ.deref a) = .ok _ := Ledger.bind_iff_push.2 ⟨unbound, rfl⟩
              exact absurd (.bindRight ha hb occ bound) (stuck _)
          | true =>
              intro unified
              exact Substitution.not_unifies_of_occurs sound.acyclic hθ hb freeA other
                ((sound.acyclic.occurs_iff v _).1 occ) unified.symm
      | false =>
          have plain := readsPlain_deref sound.acyclic (sound.plain _ List.mem_cons_self).1
          apply Substitution.not_unifies_of_head_ne ha hb
          intro heads
          exact stuck _ (.decompose ha (plain.head freeA) heads)

/-- What a whole run of turns preserves. -/
theorem turns_preserve {good : Head → Prop}
    (run : Relation.ReflTransGen Turn (pairs, σ) (left, τ)) (sound : Sound pairs σ)
    (within : Within good pairs σ) :
    Sound left τ ∧ Within good left τ ∧ τ.Extends σ ∧ (∀ s, σ.ReadsPlain s → τ.ReadsPlain s) ∧
      ∀ θ : Substitution, θ.SolvesAll left τ ↔ θ.SolvesAll pairs σ := by
  generalize hs : (left, τ) = s at run
  induction run generalizing left τ with
  | refl =>
      cases hs
      exact ⟨sound, within, Ledger.Extends.refl σ, fun _ hs => hs, fun _ => Iff.rfl⟩
  | @tail mid _ _ step ih =>
      obtain ⟨midPairs, midσ⟩ := mid
      subst hs
      obtain ⟨soundMid, withinMid, extMid, plainMid, solMid⟩ := ih rfl
      exact ⟨step.sound soundMid, step.within withinMid, step.extended.trans extMid,
        fun s hs => (step.acyclic_and_readsPlain soundMid).2 s (plainMid s hs),
        fun θ => step.solvesAll_iff.trans (solMid θ)⟩

end Unifier

end SaturationCore
