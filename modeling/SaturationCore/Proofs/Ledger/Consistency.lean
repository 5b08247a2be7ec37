/-
# Reading a ledger in different ways

The bindings of a variable can be followed, subterms can be compared as they read, searched for a
variable, spelled or made trees. Each way works off a list of subterms on its own, as lazily as it
can. In a ledger without cycles they all come to an end, since every turn of a list reads one head
of what is still to be read, and following bindings goes down in rank.

All answers are told by one tree: it is spelled as the subterm reads, it has the variables that
show, and two subterms compare as equal just when their trees are the same. Shortcuts for sides
that are known to be one subterm make no difference. Only unbound variables are left in the tree,
so reading it again gives the same one.
-/
import SaturationCore.Ledger.Worklist
import SaturationCore.Proofs.Flatterm
import SaturationCore.Proofs.Unification.Budget

namespace SaturationCore

/-! ## Work that comes to an end -/

/-- Whichever turns are made from a state, they come to an end, and with this answer. -/
inductive EndsWith {S R : Type} (turn : S → S ⊕ R → Prop) (answer : R) : S → Prop where
  | intro {s : S} (possible : ∃ next, turn s next)
      (onward : ∀ s', turn s (.inl s') → EndsWith turn answer s')
      (ended : ∀ r, turn s (.inr r) → r = answer) : EndsWith turn answer s

/-- Turns that leave less to do each time, and keep what is to be answered, end with that. -/
theorem EndsWith.of_measure {S R : Type} {turn : S → S ⊕ R → Prop} (answer : S → R)
    (size : S → Nat) (possible : ∀ s, ∃ next, turn s next)
    (onward : ∀ s s', turn s (.inl s') → size s' < size s ∧ answer s' = answer s)
    (ended : ∀ s r, turn s (.inr r) → r = answer s) (s : S) : EndsWith turn (answer s) s := by
  induction less : size s using Nat.strong_induction_on generalizing s with
  | _ n ih =>
      refine ⟨possible s, fun s' made => ?_, ended s⟩
      obtain ⟨smaller, same⟩ := onward s s' made
      rw [← same]
      exact ih (size s') (less ▸ smaller) s' rfl

/-! ## Regular subterms -/

/-- A symbol takes as many arguments as its category asks for. -/
def Head.Regular : Head → Prop
  | .symbol f => f.Regular
  | _ => True

instance : DecidablePred Head.Regular
  | .symbol f => inferInstanceAs (Decidable f.Regular)
  | .var _ => isTrue trivial
  | .binder _ => isTrue trivial

/-- No constant in the subterm takes arguments, and quantifiers take one. -/
def Subterm.Regular (s : Subterm) : Prop :=
  ∀ h ∈ s.spelling, h.Regular

instance (s : Subterm) : Decidable s.Regular :=
  inferInstanceAs (Decidable (∀ h ∈ s.spelling, h.Regular))

namespace Unifier

variable {σ : Unifier} {a b s t : Subterm} {v : Variable}

/-! ## Following bindings -/

theorem derefTurn_eq_inl_iff : σ.derefTurn s = .inl t ↔ σ.Follows s t := by
  rw [derefTurn, Follows]
  cases s.asVariable.bind σ.get? with
  | some u => rw [Sum.inl.injEq, Option.some.injEq]
  | none => exact iff_of_false Sum.inr_ne_inl (Option.some_ne_none t).symm

theorem derefTurn_eq_inr_iff : σ.derefTurn s = .inr t ↔ σ.Free s.head ∧ t = s := by
  rw [derefTurn, Free, ← Subterm.asVariable]
  cases s.asVariable.bind σ.get? with
  | some u => exact iff_of_false Sum.inl_ne_inr fun free => Option.some_ne_none u free.1
  | none => rw [Sum.inr.injEq, eq_self, true_and, eq_comm]

theorem not_follows_of_free (free : σ.Free s.head) : ¬ σ.Follows s t := by
  intro follows
  cases follows.symm.trans free

namespace Acyclic

theorem deref_of_follows (hσ : σ.Acyclic) (follows : σ.Follows s t) : σ.deref t = σ.deref s := by
  have unique : Relator.RightUnique σ.Follows := fun _ _ _ first second =>
    Option.some.inj (first.symm.trans second)
  have through : Relation.ReflTransGen σ.Follows s (σ.deref t) := .head follows (σ.deref_reaches t)
  rcases Relation.ReflTransGen.total_of_right_unique unique through (σ.deref_reaches s) with on | on
  · rcases on.cases_head with same | ⟨_, step, _⟩
    · exact same
    · exact absurd step (not_follows_of_free (hσ.free_deref t))
  · rcases on.cases_head with same | ⟨_, step, _⟩
    · exact same.symm
    · exact absurd step (not_follows_of_free (hσ.free_deref s))

theorem derefTurn_ends (hσ : σ.Acyclic) (s : Subterm) :
    EndsWith (σ.derefTurn · = ·) (σ.deref s) s := by
  let height (s : Subterm) : Nat := (s.asVariable.map σ.rank).getD 0
  apply EndsWith.of_measure σ.deref height
  · exact fun s => ⟨_, rfl⟩
  · intro s t made
    have follows := derefTurn_eq_inl_iff.1 made
    refine ⟨?_, hσ.deref_of_follows follows⟩
    obtain ⟨v, isVar, bound⟩ := Option.bind_eq_some_iff.1 follows
    have top : height s = σ.rank v := by simp only [height, isVar, Option.map_some, Option.getD_some]
    rw [top]
    cases inner : t.asVariable with
    | none =>
        have bottom : height t = 0 := by simp only [height, inner, Option.map_none, Option.getD_none]
        rw [bottom]
        exact rank_pos bound
    | some w =>
        have lower : height t = σ.rank w := by
          simp only [height, inner, Option.map_some, Option.getD_some]
        rw [lower]
        exact hσ.rank_lt ⟨t, bound, Subterm.asVariable_eq_some.1 inner ▸ t.head_mem_spelling⟩
  · intro s r made
    obtain ⟨free, rfl⟩ := derefTurn_eq_inr_iff.1 made
    exact (deref_of_free free).symm

end Acyclic

/-! ## Working off a list -/

/-- The number of heads that subterms still to be read will show. -/
def unread (σ : Unifier) (pending : List Subterm) : Nat :=
  (pending.map fun s => (σ.instanceSpelling s).length).sum

theorem unread_append (front back : List Subterm) :
    σ.unread (front ++ back) = σ.unread front + σ.unread back := by
  rw [unread, List.map_append, List.sum_append, unread, unread]

theorem unread_reverse (pending : List Subterm) : σ.unread pending.reverse = σ.unread pending := by
  rw [unread, List.map_reverse, List.sum_reverse, unread]

namespace Acyclic

/-- Reading the head of a subterm leaves the arguments of what it leads to. -/
theorem unread_cons (hσ : σ.Acyclic) (s : Subterm) (rest : List Subterm) :
    σ.unread (s :: rest) = σ.unread ((σ.deref s).args ++ rest) + 1 := by
  have here : (σ.instanceSpelling s).length = σ.unread (σ.deref s).args + 1 := by
    rw [hσ.instanceSpelling_eq, List.length_cons, List.length_flatMap, unread]
  rw [unread_append, unread, List.map_cons, List.sum_cons, here, ← unread]
  omega

theorem spellTurn_ends (hσ : σ.Acyclic) (state : List Subterm × List Head) :
    EndsWith (σ.spellTurn · = ·) (state.2 ++ state.1.flatMap σ.instanceSpelling) state := by
  let answer (state : List Subterm × List Head) : List Head :=
    state.2 ++ state.1.flatMap σ.instanceSpelling
  apply EndsWith.of_measure answer fun state => σ.unread state.1
  · exact fun state => ⟨_, rfl⟩
  · rintro ⟨_ | ⟨s, rest⟩, heads⟩ left made
    · cases made
    · cases made
      refine ⟨?_, ?_⟩
      · show _ < σ.unread (s :: rest)
        rw [hσ.unread_cons]
        exact Nat.lt_succ_self _
      · show heads ++ _ ++ _ = heads ++ _
        rw [List.flatMap_cons, List.flatMap_append, hσ.instanceSpelling_eq s, List.append_assoc,
          List.singleton_append, List.cons_append]
  · rintro ⟨_ | ⟨s, rest⟩, heads⟩ made ended
    · cases ended
      exact (List.append_nil heads).symm
    · cases ended

/-- A variable shows at the root that the bindings lead to, or in an argument. -/
theorem occurs_eq (hσ : σ.Acyclic) (v : Variable) (s : Subterm) :
    σ.occurs v s = ((σ.deref s).head == .var v || (σ.deref s).args.any (σ.occurs v)) := by
  rw [Bool.eq_iff_iff, hσ.occurs_iff, ← instanceSpelling_eq_read, hσ.instanceSpelling_eq,
    List.mem_cons, List.mem_flatMap, eq_comm, Bool.or_eq_true, beq_iff_eq, List.any_eq_true]
  simp only [hσ.occurs_iff, instanceSpelling_eq_read]

/-- Any subterm but the variable itself is replaced by the arguments of what it leads to. Another
variable has none. -/
theorem occursTurn_cons (v : Variable) (s : Subterm) (rest : List Subterm) :
    σ.occursTurn v (s :: rest) = if (σ.deref s).head = .var v then .inr true
      else .inl ((σ.deref s).args.reverse ++ rest) := by
  rw [occursTurn]
  split
  · next u root =>
      have leaf : (σ.deref s).args = [] := by
        rw [← List.length_eq_zero_iff, Subterm.length_args, root]
        rfl
      simp only [root, leaf, Head.var.injEq, List.reverse_nil, List.nil_append]
  · next rigid => exact (if_neg (rigid v)).symm

theorem occursTurn_ends (hσ : σ.Acyclic) (v : Variable) (pending : List Subterm) :
    EndsWith (σ.occursTurn v · = ·) (pending.any (σ.occurs v)) pending := by
  apply EndsWith.of_measure (fun pending => pending.any (σ.occurs v)) σ.unread
  · exact fun pending => ⟨_, rfl⟩
  · rintro (_ | ⟨s, rest⟩) left made
    · cases made
    · rw [occursTurn_cons] at made
      split at made
      · cases made
      · next other =>
          cases made
          refine ⟨?_, ?_⟩
          · rw [hσ.unread_cons, unread_append, unread_append, unread_reverse]
            exact Nat.lt_succ_self _
          · rw [List.any_append, List.any_reverse, List.any_cons, hσ.occurs_eq v s,
              beq_eq_false_iff_ne.2 other, Bool.false_or]
  · rintro (_ | ⟨s, rest⟩) answer made
    · cases made
      rfl
    · rw [occursTurn_cons] at made
      split at made
      · next here =>
          cases made
          rw [List.any_cons, hσ.occurs_eq, here, beq_self_eq_true, Bool.true_or, Bool.true_or]
      · cases made

/-- Two subterms read the same when their roots do and the arguments in each place. -/
theorem equal_eq (hσ : σ.Acyclic) (same : (σ.deref a).head = (σ.deref b).head) :
    σ.equal a b = ((σ.deref a).args.zip (σ.deref b).args).all fun p => σ.equal p.1 p.2 := by
  obtain ⟨ρ, solves, reads⟩ := hσ.exists_reading
  have unifies (s t : Subterm) : σ.equal s t = true ↔ ρ.Unifies s t := by
    rw [hσ.equal_iff, Substitution.Unifies, reads, reads]
  rw [Bool.eq_iff_iff, List.all_eq_true, unifies, ← solves.unifies_deref,
    Substitution.unifies_iff_args same]
  simp only [unifies]

theorem not_equal_of_head_ne (hσ : σ.Acyclic) (differ : (σ.deref a).head ≠ (σ.deref b).head) :
    σ.equal a b = false := by
  rw [Bool.eq_false_iff, ne_eq, hσ.equal_iff]
  intro same
  rw [← instanceSpelling_eq_read, ← instanceSpelling_eq_read, hσ.instanceSpelling_eq,
    hσ.instanceSpelling_eq] at same
  exact differ (List.cons.inj same).1

theorem compareTurn_ends (hσ : σ.Acyclic) (pairs : List (Subterm × Subterm)) :
    EndsWith σ.CompareTurn (pairs.all fun p => σ.equal p.1 p.2) pairs := by
  apply EndsWith.of_measure (fun pairs => pairs.all fun p => σ.equal p.1 p.2) σ.readingSize
  · rintro (_ | ⟨⟨a, b⟩, rest⟩)
    · exact ⟨_, .finished⟩
    · by_cases same : (σ.deref a).head = (σ.deref b).head
      · exact ⟨_, .arguments same⟩
      · exact ⟨_, .clash same⟩
  · intro pairs left turn
    cases turn with
    | @shared a b rest same =>
        have equal : σ.equal a b = true := by rw [hσ.equal_iff, ← hσ.read_deref, same, hσ.read_deref]
        have shows : 0 < (σ.read a.spelling).length := by
          rw [← instanceSpelling_eq_read, hσ.instanceSpelling_eq]
          exact Nat.zero_lt_succ _
        refine ⟨?_, ?_⟩
        · show _ < (σ.read a.spelling).length + _ + _
          omega
        · rw [List.all_cons, equal, Bool.true_and]
    | @arguments a b rest same =>
        have fewer := σ.readingSize_args_lt rest (hσ.free_deref a) (hσ.free_deref b)
        rw [hσ.read_deref, hσ.read_deref] at fewer
        refine ⟨fewer, ?_⟩
        rw [List.all_append, List.all_reverse, List.all_cons, hσ.equal_eq same]
  · intro pairs answer turn
    cases turn with
    | finished => rfl
    | @clash a b rest differ => rw [List.all_cons, hσ.not_equal_of_head_ne differ, Bool.false_and]

end Acyclic

/-! ## One tree for all readings -/

/-- Every way of reading the subterm comes to an end, and tells the same about the tree. -/
structure ReadsAs (σ : Unifier) (s : Subterm) (t : Term) : Prop where
  deref_ends : EndsWith (σ.derefTurn · = ·) (σ.deref s) s
  spell_ends : EndsWith (σ.spellTurn · = ·) (σ.instanceSpelling s) ([s], [])
  occurs_ends : ∀ v, EndsWith (σ.occursTurn v · = ·) (σ.occurs v s) [s]
  /-- The instance is spelled as the tree, and can be laid out. -/
  spelled : σ.instanceSpelling s = t.spelling
  laid_out : ∃ flat, Flatterm.ofSpelling (σ.instanceSpelling s) = .ok flat
  applied : σ.apply s = .ok t
  occurs_iff : ∀ v, σ.occurs v s = true ↔ t.mentions v = true
  unbound : ∀ v, t.mentions v = true → σ.get? v = none
  /-- The tree can be laid out and read again, and reads as itself. -/
  applied_again : ∃ s', Subterm.ofTerm t = .ok s' ∧ σ.apply s' = .ok t

theorem apply_congr (same : σ.instanceSpelling a = σ.instanceSpelling b) :
    σ.apply a = σ.apply b := by
  rw [apply, same, ← apply]

/-- A subterm with a regular instance reads as a tree. -/
theorem Acyclic.exists_readsAs (hσ : σ.Acyclic)
    (regular : ∀ f ∈ symbolsOf (σ.instanceSpelling s), f.Regular) : ∃ t, σ.ReadsAs s t := by
  obtain ⟨flat, laid, spelled⟩ := Flatterm.ofSpelling_of_spells (hσ.spells_read s.spells)
  rw [← instanceSpelling_eq_read] at laid spelled
  have whole := (Subterm.spelling_ofFlatterm flat).trans spelled
  rw [← whole] at regular
  obtain ⟨t, built, tree⟩ := Subterm.toTerm_of_regular regular
  rw [whole] at tree
  have applied : σ.apply s = .ok t := by
    rw [apply, Subterm.ofSpelling, laid]
    exact built
  have mentions (v : Variable) : t.mentions v = true ↔ .var v ∈ σ.read s.spelling := by
    rw [Term.mentions_iff_mem, tree, instanceSpelling_eq_read]
  refine ⟨t, hσ.derefTurn_ends s, ?_, fun v => ?_, tree.symm, ⟨flat, laid⟩, applied, fun v => ?_,
    fun v shows => ?_, ?_⟩
  · have ends := hσ.spellTurn_ends ([s], [])
    rwa [List.nil_append, List.flatMap_singleton] at ends
  · have ends := hσ.occursTurn_ends v [s]
    rwa [List.any_cons, List.any_nil, Bool.or_false] at ends
  · rw [mentions, hσ.occurs_iff]
  · exact free_var_iff.1 (hσ.free_of_mem_read ((mentions v).1 shows))
  · refine ⟨.ofFlatterm flat, ?_, ?_⟩
    · rw [Subterm.ofTerm, tree, Subterm.ofSpelling, laid]
      rfl
    · rw [← applied]
      apply apply_congr
      rw [instanceSpelling_eq_read, whole, instanceSpelling_eq_read, hσ.read_read]

/-- Reading subterms over regular symbols through such instances comes to an end in every way,
and all ways agree on the trees. Whether shortcuts are taken or not, the subterms compare as equal
just when the trees are the same. -/
theorem readings_agree (hσ : σ.Acyclic) (instances : ∀ v t, σ.get? v = some t → t.Regular)
    (ha : a.Regular) (hb : b.Regular) :
    ∃ s t : Term, σ.ReadsAs a s ∧ σ.ReadsAs b t ∧
      EndsWith σ.CompareTurn (σ.equal a b) [(a, b)] ∧ (σ.equal a b = true ↔ s = t) := by
  have regular {c : Subterm} (hc : c.Regular) :
      ∀ f ∈ symbolsOf (σ.instanceSpelling c), f.Regular :=
    fun f hf => hσ.forall_mem_read instances hc (.symbol f) hf
  obtain ⟨s, readsA⟩ := hσ.exists_readsAs (regular ha)
  obtain ⟨t, readsB⟩ := hσ.exists_readsAs (regular hb)
  refine ⟨s, t, readsA, readsB, ?_, ?_⟩
  · have ends := hσ.compareTurn_ends [(a, b)]
    rwa [List.all_cons, List.all_nil, Bool.and_true] at ends
  · rw [hσ.equal_iff, ← instanceSpelling_eq_read, ← instanceSpelling_eq_read]
    constructor
    · intro same
      exact Except.ok.inj (readsA.applied.symm.trans ((apply_congr same).trans readsB.applied))
    · rintro rfl
      exact readsA.spelled.trans readsB.spelled.symm

/-- `X0` is `f(X1)` and `X1` is `X2`. Then `g(X0, X1)` and `g(f(X2), X2)` read the same. -/
theorem readings_agree_chain :
    ∃ (a b t : Subterm) (σ : Unifier),
      Subterm.ofSpelling [.symbol ⟨20, .function, 2⟩, .var ⟨0, 0⟩, .var ⟨0, 1⟩] = .ok a ∧
      Subterm.ofSpelling [.symbol ⟨20, .function, 2⟩, .symbol ⟨21, .function, 1⟩, .var ⟨0, 2⟩,
        .var ⟨0, 2⟩] = .ok b ∧
      Subterm.ofSpelling [.symbol ⟨21, .function, 1⟩, .var ⟨0, 1⟩] = .ok t ∧
      σ = (Ledger.empty.push ⟨0, 0⟩ t).push ⟨0, 1⟩ (.ofVariable ⟨0, 2⟩) ∧
      (σ.Acyclic ∧ (∀ v t, σ.get? v = some t → t.Regular) ∧ a.Regular ∧ b.Regular) ∧
      ∃ s : Term, σ.ReadsAs a s ∧ σ.ReadsAs b s ∧ EndsWith σ.CompareTurn true [(a, b)] := by
  have acyclic (t : Subterm) (ht : .var ⟨0, 0⟩ ∉ Unifier.read .empty t.spelling)
      (hu : .var ⟨0, 1⟩ ∉ Unifier.read (Ledger.empty.push ⟨0, 0⟩ t)
        (Subterm.ofVariable ⟨0, 2⟩).spelling) :
      Unifier.Acyclic ((Ledger.empty.push ⟨0, 0⟩ t).push ⟨0, 1⟩ (.ofVariable ⟨0, 2⟩)) :=
    (acyclic_empty.push rfl ht).push rfl hu
  have instances (t : Subterm) (ht : t.Regular) :
      ∀ v s, ((Ledger.empty.push ⟨0, 0⟩ t).push ⟨0, 1⟩ (.ofVariable ⟨0, 2⟩)).get? v = some s →
        s.Regular :=
    Ledger.forall_get?_push (Ledger.forall_get?_push nofun ht) (by decide +kernel)
  have agree {a b : Subterm} {σ : Unifier} (hσ : σ.Acyclic)
      (regular : ∀ v t, σ.get? v = some t → t.Regular) (ha : a.Regular) (hb : b.Regular)
      (equal : σ.equal a b = true) :
      ∃ s : Term, σ.ReadsAs a s ∧ σ.ReadsAs b s ∧ EndsWith σ.CompareTurn true [(a, b)] := by
    obtain ⟨s, t, readsA, readsB, ends, same⟩ := readings_agree hσ regular ha hb
    obtain rfl := same.1 equal
    rw [equal] at ends
    exact ⟨s, readsA, readsB, ends⟩
  refine ⟨_, _, _, _, rfl, rfl, rfl, rfl, ⟨acyclic _ ?_ ?_, instances _ ?_, ?_, ?_⟩,
    agree (acyclic _ ?_ ?_) (instances _ ?_) ?_ ?_ ?_⟩
  all_goals decide +kernel

end Unifier

end SaturationCore
