/-
# Budgets that are never used up

Unification is given a number of steps between two bindings and a number of
bindings in all. Neither is ever used up. Every turn that binds nothing lays open
less of the readings of the pairs, whose size `reach` bounds; every binding takes
one variable away that occurs in the pairs or the instances, and turns bring up no
new ones. So the work settles, and with the answer that the turns lead to.

A comparison of two subterms gets as many steps as they can read as heads, so it tells whether
they read the same.
-/
import Mathlib.Algebra.Group.Nat.Defs
import SaturationCore.Proofs.Unification.Turn

namespace SaturationCore

namespace Unifier

variable {σ τ : Unifier} {a b : Subterm} {pairs rest : List (Subterm × Subterm)}

/-! ## Steps between two bindings -/

/-- The number of heads that the pairs read as. -/
def readingSize (σ : Unifier) : List (Subterm × Subterm) → Nat
  | [] => 0
  | p :: rest => (σ.read p.1.spelling).length + (σ.read p.2.spelling).length + readingSize σ rest

theorem readingSize_cons (p : Subterm × Subterm) :
    σ.readingSize (p :: rest) =
      (σ.read p.1.spelling).length + (σ.read p.2.spelling).length + σ.readingSize rest := rfl

theorem readingSize_reverse_append :
    σ.readingSize (pairs.reverse ++ rest) = σ.readingSize pairs + σ.readingSize rest := by
  induction pairs generalizing rest with
  | nil => exact (Nat.zero_add _).symm
  | cons p pairs ih =>
      rw [List.reverse_cons, List.append_assoc, ih, List.singleton_append, readingSize_cons,
        readingSize_cons]
      omega

theorem readingSize_zip_le (as bs : List Subterm) :
    σ.readingSize (as.zip bs) ≤
      (σ.read (as.flatMap Subterm.spelling)).length +
        (σ.read (bs.flatMap Subterm.spelling)).length := by
  induction as generalizing bs with
  | nil => exact Nat.zero_le _
  | cons a as ih =>
      cases bs with
      | nil => exact Nat.zero_le _
      | cons b bs =>
          have tail := ih bs
          simp only [List.zip_cons_cons, readingSize_cons, List.flatMap_cons, read_append,
            List.length_append]
          omega

/-- Arguments read as fewer heads than the terms that they are taken from. -/
theorem readingSize_args_lt (σ : Unifier) (rest : List (Subterm × Subterm))
    (ha : σ.Free a.head) (hb : σ.Free b.head) :
    σ.readingSize ((a.args.zip b.args).reverse ++ rest) <
      (σ.read a.spelling).length + (σ.read b.spelling).length + σ.readingSize rest := by
  have inner := readingSize_zip_le (σ := σ) a.args b.args
  have lengths (s : Subterm) (free : σ.Free s.head) :
      (σ.read s.spelling).length = (σ.read (s.args.flatMap Subterm.spelling)).length + 1 := by
    rw [s.spelling_eq, read_cons, read_of_free free]
    exact List.length_cons
  rw [readingSize_reverse_append, lengths a ha, lengths b hb]
  omega

/-- The largest number of cells that an instance has. -/
def widest (σ : Unifier) : Nat :=
  (σ.bindings.map (·.2.size)).foldl max 1

theorem le_foldl_max (xs : List Nat) (start : Nat) :
    start ≤ xs.foldl max start ∧ ∀ x ∈ xs, x ≤ xs.foldl max start := by
  induction xs generalizing start with
  | nil => exact ⟨Nat.le_refl start, fun x hx => by cases hx⟩
  | cons y ys ih =>
      obtain ⟨above, each⟩ := ih (max start y)
      refine ⟨Nat.le_trans (Nat.le_max_left _ _) above, fun x hx => ?_⟩
      rcases List.mem_cons.1 hx with rfl | hx
      · exact Nat.le_trans (Nat.le_max_right _ _) above
      · exact each x hx

theorem size_le_widest {v : Variable} {t : Subterm} (bound : σ.get? v = some t) :
    t.size ≤ σ.widest :=
  (le_foldl_max _ 1).2 _ (List.mem_map_of_mem (Ledger.mem_of_get? bound))

theorem length_flatMap_le {f : Head → List Head} {n : Nat} {hs : List Head}
    (each : ∀ h, (f h).length ≤ n) : (hs.flatMap f).length ≤ hs.length * n := by
  induction hs with
  | nil => exact Nat.zero_le _
  | cons h hs ih =>
      have first := each h
      rw [List.flatMap_cons, List.length_append, List.length_cons, Nat.succ_mul]
      omega

theorem length_expandWithin_le (σ : Unifier) (depth : Nat) (h : Head) :
    (σ.expandWithin depth h).length ≤ σ.widest ^ depth := by
  have positive : 1 ≤ σ.widest := (le_foldl_max _ 1).1
  induction depth generalizing h with
  | zero => exact Nat.le_refl 1
  | succ depth ih =>
      rcases σ.free_or_bound h with free | ⟨v, t, rfl, bound⟩
      · rw [expandWithin_of_free free]
        exact Nat.one_le_pow _ _ positive
      · rw [expandWithin_of_bound bound, Nat.pow_succ']
        calc
          (t.spelling.flatMap (σ.expandWithin depth)).length ≤
              t.spelling.length * σ.widest ^ depth := length_flatMap_le ih
          _ ≤ σ.widest * σ.widest ^ depth := by
            apply Nat.mul_le_mul_right
            rw [t.length_spelling]
            exact size_le_widest bound

theorem reach_eq (σ : Unifier) (cells : Nat) : σ.reach cells = cells * σ.widest ^ σ.size := by
  have power (n : Nat) : Nat.repeat (· * σ.widest) n cells = cells * σ.widest ^ n := by
    induction n with
    | zero => exact (Nat.mul_one cells).symm
    | succ n ih => rw [Nat.repeat, ih, Nat.pow_succ, Nat.mul_assoc]
  exact power σ.size

/-- Within as many steps as `reach` allows, the pairs can be read to their ends. -/
theorem readingSize_le_reach (σ : Unifier) (pairs : List (Subterm × Subterm)) :
    σ.readingSize pairs ≤ σ.reach (cellCount pairs) := by
  have each (s : Subterm) : (σ.read s.spelling).length ≤ s.size * σ.widest ^ σ.size := by
    rw [← s.length_spelling]
    exact length_flatMap_le (σ.length_expandWithin_le σ.size)
  induction pairs with
  | nil => exact Nat.zero_le _
  | cons p pairs ih =>
      have fst := each p.1
      have snd := each p.2
      have cells : cellCount (p :: pairs) = p.1.size + p.2.size + cellCount pairs := rfl
      rw [reach_eq] at ih
      rw [readingSize_cons, reach_eq, cells, Nat.add_mul, Nat.add_mul]
      omega

/-- A pair that asks for a binding. -/
inductive Asks (σ : Unifier) (a b : Subterm) (v : Variable) : Subterm → Prop where
  | left : (σ.deref a).head = .var v → (σ.deref b).head ≠ .var v → Asks σ a b v (σ.deref b)
  | right : (σ.deref a).head.isVariable = false → (σ.deref b).head = .var v →
      Asks σ a b v (σ.deref a)

namespace Asks

variable {v : Variable} {t : Subterm}

theorem unbound (asks : Asks σ a b v t) (hσ : σ.Acyclic) : σ.get? v = none := by
  cases asks with
  | left ha => exact free_var_iff.1 (ha ▸ hσ.free_deref a)
  | right _ hb => exact free_var_iff.1 (hb ▸ hσ.free_deref b)

/-- The variable to be bound comes from the stack or from an instance. -/
theorem variable_good {good : Head → Prop} (asks : Asks σ a b v t)
    (within : Within good ((a, b) :: rest) σ) : good (.var v) := by
  obtain ⟨goodA, goodB⟩ := within.1 _ List.mem_cons_self
  cases asks with
  | left ha => exact ha ▸ Within.deref within.2 goodA _ (σ.deref a).head_mem_spelling
  | right _ hb => exact hb ▸ Within.deref within.2 goodB _ (σ.deref b).head_mem_spelling

theorem turn (asks : Asks σ a b v t) (rest : List (Subterm × Subterm)) (hσ : σ.Acyclic)
    (apart : σ.occurs v t = false) :
    Turn ((a, b) :: rest, σ) (rest, σ.push v t) := by
  have made : σ.bind v t = .ok (σ.push v t) := Ledger.bind_iff_push.2 ⟨asks.unbound hσ, rfl⟩
  cases asks with
  | left ha hb => exact .bindLeft ha hb apart made
  | right ha hb => exact .bindRight ha hb apart made

theorem stuck (asks : Asks σ a b v t) (shows : σ.occurs v t = true)
    (next : List (Subterm × Subterm) × Unifier) : ¬ Turn ((a, b) :: rest, σ) next := by
  intro turn
  cases asks with
  | left ha hb =>
      cases turn with
      | same ha' hb' => exact hb (hb'.trans (ha'.symm.trans ha))
      | bindLeft ha' _ apart =>
          obtain rfl := Head.var.inj (ha.symm.trans ha')
          exact Bool.noConfusion (shows.symm.trans apart)
      | bindRight rigid => simp [ha, Head.isVariable] at rigid
      | decompose rigid => simp [ha, Head.isVariable] at rigid
  | right ha hb =>
      cases turn with
      | same ha' => simp [ha', Head.isVariable] at ha
      | bindLeft ha' => simp [ha', Head.isVariable] at ha
      | bindRight _ hb' apart =>
          obtain rfl := Head.var.inj (hb.symm.trans hb')
          exact Bool.noConfusion (shows.symm.trans apart)
      | decompose _ _ heads => simp [heads, hb, Head.isVariable] at ha

end Asks

/-- What turns that bind nothing come to. -/
inductive Comes (σ : Unifier) (pairs : List (Subterm × Subterm)) : Frontier → Prop where
  | solved : Relation.ReflTransGen Turn (pairs, σ) ([], σ) → Comes σ pairs .solved
  | clash {p : Subterm × Subterm} {rest : List (Subterm × Subterm)} :
      Relation.ReflTransGen Turn (pairs, σ) (p :: rest, σ) →
      (∀ next, ¬ Turn (p :: rest, σ) next) → Comes σ pairs .clash
  | binding {a b : Subterm} {rest : List (Subterm × Subterm)} {v : Variable} {t : Subterm} :
      Relation.ReflTransGen Turn (pairs, σ) ((a, b) :: rest, σ) → Asks σ a b v t →
      Comes σ pairs (.binding v t rest)

theorem Comes.of_turn {later : List (Subterm × Subterm)} {f : Frontier}
    (turn : Turn (pairs, σ) (later, σ)) (comes : Comes σ later f) : Comes σ pairs f := by
  cases comes with
  | solved run => exact .solved (.head turn run)
  | clash run stuck => exact .clash (.head turn run) stuck
  | binding run asks => exact .binding (.head turn run) asks

theorem not_turn_of_clash (ha : (σ.deref a).head.isVariable = false)
    (hb : (σ.deref b).head.isVariable = false)
    (clashes : ¬ ((σ.deref a).head.isBinder = false ∧ (σ.deref a).head = (σ.deref b).head))
    (next : List (Subterm × Subterm) × Unifier) : ¬ Turn ((a, b) :: rest, σ) next := by
  intro turn
  rw [isVariable_eq_false_iff] at ha hb
  cases turn with
  | same left => exact ha _ left
  | bindLeft left => exact ha _ left
  | bindRight _ right => exact hb _ right
  | decompose _ plain heads => exact clashes ⟨plain, heads⟩

/-- Given enough steps, the frontier is what the turns come to. -/
theorem comes_frontier (hσ : σ.Acyclic) {steps : Nat} (enough : σ.readingSize pairs ≤ steps) :
    Comes σ pairs (frontier σ steps pairs) := by
  induction steps generalizing pairs with
  | zero =>
      cases pairs with
      | nil => exact .solved .refl
      | cons p rest =>
          have positive := (hσ.spells_read p.1.spells).count_le_length
          rw [readingSize_cons] at enough
          omega
  | succ steps ih =>
      cases pairs with
      | nil => exact .solved .refl
      | cons p rest =>
          obtain ⟨a, b⟩ := p
          rw [readingSize_cons, ← hσ.read_deref a, ← hσ.read_deref b] at enough
          have positiveA := (hσ.spells_read (σ.deref a).spells).count_le_length
          have positiveB := (hσ.spells_read (σ.deref b).spells).count_le_length
          rw [frontier]
          split
          · rename_i u v ha hb
            by_cases same : u = v
            · subst same
              rw [if_pos rfl]
              exact .of_turn (.same ha hb) (ih (by omega))
            · rw [if_neg same]
              refine .binding .refl (.left ha ?_)
              rw [hb]
              exact fun other => same (Head.var.inj other).symm
          · rename_i u ha other
            exact .binding .refl (.left ha (other u))
          · rename_i v hb other
            refine .binding .refl (.right ?_ hb)
            exact isVariable_eq_false_iff.2 other
          · rename_i notA notB _
            have rigidA := isVariable_eq_false_iff.2 notA
            have rigidB := isVariable_eq_false_iff.2 notB
            split
            · rename_i clashes
              refine .clash .refl (not_turn_of_clash rigidA rigidB fun ⟨plain, heads⟩ => ?_)
              rw [← heads, plain] at clashes
              simp at clashes
            · rename_i agrees
              simp only [Bool.or_eq_true, not_or, bne_iff_ne, ne_eq, not_not,
                Bool.not_eq_true] at agrees
              obtain ⟨⟨plain, -⟩, heads⟩ := agrees
              have fewer := readingSize_args_lt σ rest (free_of_not_isVariable rigidA)
                (free_of_not_isVariable rigidB)
              exact .of_turn (.decompose rigidA plain heads) (ih (by omega))

/-! ## Bindings in all -/

/-- The variables of a finite set that are not bound yet. -/
def unboundIn (V : Finset Variable) (σ : Unifier) : Finset Variable :=
  V.filter fun v => σ.get? v = none

theorem card_unboundIn_push_lt {V : Finset Variable} {v : Variable} {t : Subterm} (hv : v ∈ V)
    (unbound : σ.get? v = none) : (unboundIn V (σ.push v t)).card < (unboundIn V σ).card := by
  apply Finset.card_lt_card
  rw [Finset.ssubset_iff_of_subset]
  · refine ⟨v, Finset.mem_filter.2 ⟨hv, unbound⟩, fun again => ?_⟩
    have now := (Finset.mem_filter.1 again).2
    rw [Ledger.get?_push, if_pos rfl] at now
    cases now
  · intro u hu
    obtain ⟨mem, now⟩ := Finset.mem_filter.1 hu
    refine Finset.mem_filter.2 ⟨mem, ?_⟩
    rw [Ledger.get?_push] at now
    split at now
    · cases now
    · exact now

/-- Given enough bindings, the work on the pairs settles as it does without bounds. -/
theorem solve_settles (V : Finset Variable) {bindings : Nat} (sound : Sound pairs σ)
    (within : Within (fun h => ∀ v, h = .var v → v ∈ V) pairs σ)
    (enough : (unboundIn V σ).card ≤ bindings) :
    Settles pairs σ (solve bindings pairs σ).1 (solve bindings pairs σ).2 := by
  induction bindings generalizing σ pairs with
  | zero =>
      have comes := comes_frontier sound.acyclic (σ.readingSize_le_reach pairs)
      rw [solve]
      generalize frontier σ (σ.reach (cellCount pairs)) pairs = f at comes
      cases comes with
      | solved run => exact .of_nil run
      | clash run stuck => exact .of_stuck run stuck
      | @binding a b rest v t run asks =>
          obtain ⟨soundNow, withinNow, -, -, -⟩ := turns_preserve run sound within
          have unbound := asks.unbound soundNow.acyclic
          have hv := asks.variable_good withinNow v rfl
          have member : v ∈ unboundIn V σ := Finset.mem_filter.2 ⟨hv, unbound⟩
          rw [Finset.card_eq_zero.1 (Nat.le_zero.1 enough)] at member
          exact absurd member (Finset.notMem_empty v)
  | succ bindings ih =>
      have comes := comes_frontier sound.acyclic (σ.readingSize_le_reach pairs)
      rw [solve]
      generalize frontier σ (σ.reach (cellCount pairs)) pairs = f at comes
      cases comes with
      | solved run => exact .of_nil run
      | clash run stuck => exact .of_stuck run stuck
      | @binding a b rest v t run asks =>
          obtain ⟨soundNow, withinNow, -, -, -⟩ := turns_preserve run sound within
          cases occ : σ.occurs v t with
          | true =>
              simp only [occ, if_true]
              exact .of_stuck run (asks.stuck occ)
          | false =>
              have turn := asks.turn rest soundNow.acyclic occ
              have fewer := card_unboundIn_push_lt (t := t) (asks.variable_good withinNow v rfl)
                (asks.unbound soundNow.acyclic)
              obtain ⟨left, later, stuck, answer⟩ :=
                ih (turn.sound soundNow) (turn.within withinNow) (by omega)
              simp only [occ, Bool.false_eq_true, if_false]
              exact ⟨left, (run.tail turn).trans later, stuck, answer⟩

/-- The variables at the leaves of a spelling. -/
def leaves (hs : List Head) : List Variable :=
  hs.filterMap (·.asVariable)

theorem mem_leaves {hs : List Head} {v : Variable} : v ∈ leaves hs ↔ .var v ∈ hs :=
  Head.mem_filterMap_asVariable

theorem length_leaves (hs : List Head) : (leaves hs).length = hs.countP (·.isVariable) := by
  rw [leaves, List.length_filterMap_eq_countP]
  apply List.countP_congr
  intro h _
  cases h <;> simp [Head.asVariable, Head.isVariable]

theorem attempt_settles (sound : Sound [(a, b)] σ) :
    ∃ τ, Settles [(a, b)] σ (σ.attempt a b).1 τ ∧
      (σ.attempt a b).2 = if (σ.attempt a b).1 then τ else τ.truncate σ.size := by
  let all := leaves (a.spelling ++ b.spelling ++ σ.bindings.flatMap (·.2.spelling))
  have few : all.length = bindingBound σ a b := length_leaves _
  have within : Within (fun h => ∀ v, h = .var v → v ∈ all.toFinset) [(a, b)] σ := by
    refine ⟨fun p hp => ?_, ?_⟩
    · cases List.mem_singleton.1 hp
      refine ⟨?_, ?_⟩
      · rintro _ hh v rfl
        exact List.mem_toFinset.2
          (mem_leaves.2 (List.mem_append_left _ (List.mem_append_left _ hh)))
      · rintro _ hh v rfl
        exact List.mem_toFinset.2
          (mem_leaves.2 (List.mem_append_left _ (List.mem_append_right _ hh)))
    · rintro u t bound _ hh v rfl
      exact List.mem_toFinset.2 (mem_leaves.2 (List.mem_append_right _
        (List.mem_flatMap.2 ⟨(u, t), Ledger.mem_of_get? bound, hh⟩)))
  have enough : (unboundIn all.toFinset σ).card ≤ bindingBound σ a b :=
    calc
      (unboundIn all.toFinset σ).card ≤ all.toFinset.card := Finset.card_filter_le _ _
      _ ≤ all.length := List.toFinset_card_le all
      _ = bindingBound σ a b := few
  have settles := solve_settles all.toFinset sound within enough
  rw [attempt]
  generalize solve (bindingBound σ a b) [(a, b)] σ = result at settles
  obtain ⟨answer, τ⟩ := result
  refine ⟨τ, ?_⟩
  cases answer with
  | true => exact ⟨settles, rfl⟩
  | false => exact ⟨settles, rfl⟩

/-! ## Steps of a comparison -/

/-- A head unfolds to the first head that it reads as, followed by what reads as the others. -/
theorem Acyclic.exists_unfold (hσ : σ.Acyclic) (h : Head) (hs : List Head) :
    ∃ k ks, σ.unfold h = k :: ks ∧ σ.read (h :: hs) = k :: σ.read (ks ++ hs) := by
  have lift {k : Head} {ks : List Head} (reads : σ.read [h] = k :: σ.read ks) :
      σ.read (h :: hs) = k :: σ.read (ks ++ hs) := by
    rw [read_cons, reads, read_append, List.cons_append]
  cases h with
  | var v =>
      have root := Subterm.spelling_eq (σ.deref (Subterm.ofVariable v))
      refine ⟨_, _, root, lift ?_⟩
      rw [← Subterm.spelling_ofVariable v, ← hσ.read_deref, root, read_cons,
        read_of_free (hσ.free_deref _)]
      rfl
  | symbol s => exact ⟨_, [], rfl, lift (read_of_free rfl)⟩
  | binder v => exact ⟨_, [], rfl, lift (read_of_free rfl)⟩

/-- With a step for every head that the left side reads as, comparing tells whether both sides
read the same. -/
theorem Acyclic.equalHeads_iff (hσ : σ.Acyclic) {steps : Nat} {as bs : List Head}
    (enough : (σ.read as).length ≤ steps) :
    σ.equalHeads steps as bs = true ↔ σ.read as = σ.read bs := by
  fun_induction equalHeads σ steps as bs with
  | case1 => simp
  | case2 steps as x bs ih =>
      obtain ⟨k, ks, -, reads⟩ := hσ.exists_unfold x []
      rw [read_cons, reads, List.length_append, List.length_cons] at enough
      rw [ih (by omega), read_cons, σ.read_cons x bs, List.append_cancel_left_eq]
  | case3 steps x as y bs _ k ks l ls unfoldY unfoldX ih =>
      obtain ⟨_, _, unfolded, readsX⟩ := hσ.exists_unfold x as
      cases unfoldX.symm.trans unfolded
      obtain ⟨_, _, unfolded, readsY⟩ := hσ.exists_unfold y bs
      cases unfoldY.symm.trans unfolded
      rw [readsX, List.length_cons] at enough
      rw [Bool.and_eq_true, beq_iff_eq, ih (by omega), readsX, readsY, List.cons.injEq]
  | case4 steps x as y bs _ none =>
      obtain ⟨k, ks, unfoldX, -⟩ := hσ.exists_unfold x as
      obtain ⟨l, ls, unfoldY, -⟩ := hσ.exists_unfold y bs
      exact (none k ks l ls unfoldX unfoldY).elim
  | case5 steps as bs notBoth notMore =>
      refine iff_of_false Bool.false_ne_true fun same => ?_
      cases as with
      | nil =>
          cases bs with
          | nil => exact notBoth rfl rfl
          | cons y bs =>
              obtain ⟨l, ls, -, reads⟩ := hσ.exists_unfold y bs
              cases same.trans reads
      | cons x as =>
          obtain ⟨k, ks, -, reads⟩ := hσ.exists_unfold x as
          rw [reads] at enough same
          cases bs with
          | nil => cases same
          | cons y bs =>
              cases steps with
              | zero => cases enough
              | succ steps => exact notMore steps x as y bs rfl rfl rfl

/-- Comparing tells whether two subterms read the same. -/
theorem Acyclic.equal_iff (hσ : σ.Acyclic) (a b : Subterm) :
    σ.equal a b = true ↔ σ.read a.spelling = σ.read b.spelling := by
  have enough := σ.readingSize_le_reach [(a, b)]
  refine hσ.equalHeads_iff (Nat.le_trans ?_ enough)
  rw [readingSize_cons, Nat.add_assoc]
  exact Nat.le_add_right _ _

end Unifier

end SaturationCore
