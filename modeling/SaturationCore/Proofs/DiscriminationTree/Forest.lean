/-
# Forests and the leaves in them

Between changes a discrimination tree has a fixed shape. Siblings stand in strict
order of their heads; a node holds either leaves or children, according to whether
the heads down to it spell a whole term; and nothing is kept on which nothing hangs.
A forest is a row of siblings of that shape with a number of terms still to be
spelled.

Changing the leaves at the end of one spelling keeps a forest and leaves what every
other spelling leads to alone. Both are shown by going along the spelling: on each
level only the sibling with the next head is replaced, put in or given up.
-/
import SaturationCore.DiscriminationTree.Node
import SaturationCore.Proofs.Association
import SaturationCore.Proofs.Spelling

namespace SaturationCore

namespace Variable

variable {u v : Variable}

theorem order_lt_iff : u.order v = .lt ↔ u.bank < v.bank ∨ u.bank = v.bank ∧ u.index < v.index := by
  simp only [order, Ordering.then_eq_lt, Nat.compare_eq_lt, Nat.compare_eq_eq]

theorem order_gt_iff : u.order v = .gt ↔ v.order u = .lt := by
  rw [order_lt_iff, order, Ordering.then_eq_gt, Nat.compare_eq_gt, Nat.compare_eq_eq,
    Nat.compare_eq_gt, @eq_comm _ u.bank]

theorem order_eq_iff : u.order v = .eq ↔ u = v := by
  cases u
  cases v
  simp [order, Ordering.then_eq_eq]

end Variable

theorem SymbolKind.rank_injective {j k : SymbolKind} (h : j.rank = k.rank) : j = k := by
  cases j <;> cases k <;> first | rfl | cases h

namespace Head

variable {h k l : Head}

theorem order_symbol_lt_iff {s t : Symbol} :
    (symbol s).order (symbol t) = .lt ↔
      (s.kind.rank < t.kind.rank ∨ s.kind.rank = t.kind.rank ∧ s.id < t.id) ∨
        (s.kind.rank = t.kind.rank ∧ s.id = t.id) ∧ s.arity < t.arity := by
  simp only [order, Ordering.then_eq_lt, Ordering.then_eq_eq, Nat.compare_eq_lt, Nat.compare_eq_eq]

theorem order_eq_iff : h.order k = .eq ↔ h = k := by
  cases h with
  | var u => cases k <;> simp [order, Variable.order_eq_iff]
  | binder u => cases k <;> simp [order, Variable.order_eq_iff]
  | symbol s =>
      cases k with
      | symbol t =>
          obtain ⟨id, kind, arity⟩ := s
          obtain ⟨id', kind', arity'⟩ := t
          simp only [order, Ordering.then_eq_eq, Nat.compare_eq_eq, symbol.injEq, Symbol.mk.injEq]
          constructor
          · rintro ⟨⟨rank, rfl⟩, rfl⟩
            exact ⟨rfl, SymbolKind.rank_injective rank, rfl⟩
          · rintro ⟨rfl, rfl, rfl⟩
            exact ⟨⟨rfl, rfl⟩, rfl⟩
      | var v => simp [order]
      | binder v => simp [order]

theorem order_gt_iff : h.order k = .gt ↔ k.order h = .lt := by
  cases h with
  | var u => cases k <;> simp [order, Variable.order_gt_iff]
  | binder u => cases k <;> simp [order, Variable.order_gt_iff]
  | symbol s =>
      cases k with
      | symbol t =>
          rw [order_symbol_lt_iff]
          simp only [order, Ordering.then_eq_gt, Ordering.then_eq_eq, Nat.compare_eq_gt,
            Nat.compare_eq_eq]
          omega
      | var v => simp [order]
      | binder v => simp [order]

/-- Variables come before all other heads. -/
theorem not_isVariable_of_order_lt (rigid : h.isVariable = false) (later : h.order k = .lt) :
    k.isVariable = false := by
  cases k with
  | symbol s => rfl
  | binder v => rfl
  | var v =>
      cases h with
      | var u => cases rigid
      | symbol s => cases later
      | binder u => cases later

theorem order_lt_trans (first : h.order k = .lt) (second : k.order l = .lt) : h.order l = .lt := by
  cases h with
  | var u =>
      cases l with
      | var w =>
          cases k with
          | var v =>
              rw [order, Variable.order_lt_iff] at *
              omega
          | symbol s => cases second
          | binder v => cases second
      | symbol s => rfl
      | binder w => rfl
  | symbol s =>
      cases l with
      | symbol t =>
          cases k with
          | symbol u =>
              rw [order_symbol_lt_iff] at *
              omega
          | var v => cases first
          | binder v => cases second
      | var w =>
          cases k with
          | var v => cases first
          | symbol t => cases second
          | binder v => cases second
      | binder w => rfl
  | binder u =>
      cases k with
      | binder v =>
          cases l with
          | binder w =>
              rw [order, Variable.order_lt_iff] at *
              omega
          | var w => cases second
          | symbol s => cases second
      | var v => cases first
      | symbol s => cases first

end Head

namespace Node

variable {α : Type}

/-- Siblings stand in the order of their heads. -/
def Arranged (siblings : List (Node α)) : Prop :=
  siblings.Pairwise fun m n => m.head.order n.head = .lt

/-- Every sibling demands what its parent's summary leaves to be tested. -/
def Tested (parent : Summary) (siblings : List (Node α)) : Prop :=
  ∀ n ∈ siblings, n.test = .between parent n.summary

/-- A node that spells on where a number of terms are missing. -/
inductive Grown : Nat → Node α → Prop where
  | leaf {h : Head} {test : ClusterTest} {leaves : List (Cluster × List α)} :
      h.isBinder = false → h.arity = 0 → leaves ≠ [] → Association.Tidy leaves →
      Grown 1 (mk h (summarise leaves []) test leaves [])
  | inner {m : Nat} {h : Head} {summary : Summary} {test : ClusterTest} {children : List (Node α)} :
      h.isBinder = false → children ≠ [] → summary = summarise [] children → Arranged children →
      Tested summary children → (∀ n ∈ children, Grown (m + h.arity) n) →
      Grown (m + 1) (mk h summary test [] children)

/-- Siblings that spell on where a number of terms are missing. -/
structure Forest (m : Nat) (siblings : List (Node α)) : Prop where
  arranged : Arranged siblings
  grown : ∀ n ∈ siblings, Grown m n

/-- The sibling with a given head, or a node on which nothing hangs. -/
def child (h : Head) (siblings : List (Node α)) : Node α :=
  (find? h siblings).getD (fresh h)

/-- The leaves at the end of a spelling. -/
def leavesAt : List Head → List (Node α) → List (Cluster × List α)
  | [], _ => []
  | h :: rest, siblings =>
    if rest.isEmpty then (child h siblings).leaves else leavesAt rest (child h siblings).children

section Siblings

variable {siblings : List (Node α)} {n : Node α} {h k : Head} {s : Summary}

@[simp]
theorem head_retest : (retest s n).head = n.head := by
  cases n
  rfl

@[simp]
theorem leaves_retest : (retest s n).leaves = n.leaves := by
  cases n
  rfl

@[simp]
theorem children_retest : (retest s n).children = n.children := by
  cases n
  rfl

@[simp]
theorem summary_retest : (retest s n).summary = n.summary := by
  cases n
  rfl

theorem mem_of_find? (found : find? h siblings = some n) : n ∈ siblings ∧ n.head = h :=
  ⟨List.mem_of_find?_eq_some found,
    eq_of_beq (List.find?_some (p := fun m : Node α => m.head == h) found)⟩

theorem find?_cons : find? k (n :: siblings) = if n.head = k then some n else find? k siblings := by
  rw [find?, List.find?_cons]
  by_cases same : n.head = k
  · rw [if_pos same, beq_iff_eq.2 same]
  · rw [if_neg same, beq_eq_false_iff_ne.2 same]
    rfl

theorem find?_filter :
    find? k (siblings.filter (·.head != h)) = if k = h then none else find? k siblings := by
  induction siblings with
  | nil => simp [find?]
  | cons n rest ih =>
      by_cases gone : n.head = h
      · rw [List.filter_cons_of_neg (by simpa using gone), ih, find?_cons]
        by_cases same : k = h
        · rw [if_pos same, if_pos same]
        · rw [if_neg same, if_neg same, if_neg fun here => same (here.symm.trans gone)]
      · rw [List.filter_cons_of_pos (by simpa using gone), find?_cons, find?_cons, ih]
        by_cases same : k = h
        · subst same
          rw [if_neg gone, if_pos rfl, if_pos rfl]
        · rw [if_neg same, if_neg same]

theorem find?_place :
    find? k (place n siblings) = if k = n.head then some n else find? k siblings := by
  induction siblings with
  | nil =>
      rw [place, find?_cons]
      exact if_congr eq_comm rfl rfl
  | cons m rest ih =>
      rw [place]
      cases order : m.head.order n.head with
      | lt =>
          have apart : m.head ≠ n.head := by
            intro same
            rw [Head.order_eq_iff.2 same] at order
            cases order
          rw [find?_cons, find?_cons, ih]
          by_cases here : m.head = k
          · rw [if_pos here, if_neg fun same => apart (here.trans same), if_pos here]
          · rw [if_neg here, if_neg here]
      | eq =>
          rw [find?_cons, find?_cons, Head.order_eq_iff.1 order]
          by_cases same : k = n.head
          · rw [if_pos same.symm, if_pos same]
          · rw [if_neg (Ne.symm same), if_neg same, if_neg (Ne.symm same)]
      | gt =>
          rw [find?_cons]
          exact if_congr eq_comm rfl rfl

theorem find?_map_retest :
    find? k (siblings.map (retest s)) = (find? k siblings).map (retest s) := by
  induction siblings with
  | nil => rfl
  | cons n rest ih =>
      rw [List.map_cons, find?_cons, find?_cons, ih, head_retest]
      split <;> rfl

theorem mem_place {m : Node α} (h : m ∈ place n siblings) : m = n ∨ m ∈ siblings := by
  induction siblings with
  | nil => exact .inl (List.mem_singleton.1 h)
  | cons first rest ih =>
      rw [place] at h
      split at h
      · rcases List.mem_cons.1 h with rfl | h
        · exact .inr List.mem_cons_self
        · exact (ih h).imp_right (List.mem_cons_of_mem first)
      · exact (List.mem_cons.1 h).imp_right (List.mem_cons_of_mem first)
      · exact List.mem_cons.1 h

namespace Arranged

theorem filter (arranged : Arranged siblings) (p : Node α → Bool) : Arranged (siblings.filter p) :=
  List.Pairwise.sublist List.filter_sublist arranged

theorem map_retest (arranged : Arranged siblings) : Arranged (siblings.map (retest s)) := by
  apply List.pairwise_map.2
  exact List.Pairwise.imp (fun {m n} order => by rwa [head_retest, head_retest]) arranged

theorem place (arranged : Arranged siblings) : Arranged (place n siblings) := by
  induction siblings with
  | nil => exact List.pairwise_singleton _ n
  | cons m rest ih =>
      obtain ⟨first, arranged⟩ := List.pairwise_cons.1 arranged
      rw [Node.place]
      cases order : m.head.order n.head with
      | lt =>
          refine List.pairwise_cons.2 ⟨fun k hk => ?_, ih arranged⟩
          rcases mem_place hk with rfl | hk
          · exact order
          · exact first k hk
      | eq =>
          rw [Head.order_eq_iff] at order
          exact List.pairwise_cons.2 ⟨order ▸ first, arranged⟩
      | gt =>
          rw [Head.order_gt_iff] at order
          refine List.pairwise_cons.2 ⟨fun k hk => ?_, List.pairwise_cons.2 ⟨first, arranged⟩⟩
          rcases List.mem_cons.1 hk with rfl | hk
          · exact order
          · exact Head.order_lt_trans order (first k hk)

end Arranged

end Siblings

section Leaves

variable {siblings children : List (Node α)} {n : Node α} {h k : Head} {hs rest : List Head}
  {m : Nat} {s : Summary}

theorem child_cons (n : Node α) :
    child k (n :: siblings) = if n.head = k then n else child k siblings := by
  rw [child, find?_cons, child]
  split <;> rfl

theorem leavesAt_cons (h : Head) (rest : List Head) (siblings : List (Node α)) :
    leavesAt (h :: rest) siblings =
      if rest.isEmpty then (child h siblings).leaves
      else leavesAt rest (child h siblings).children :=
  rfl

@[simp]
theorem leavesAt_nil (hs : List Head) : leavesAt hs ([] : List (Node α)) = [] := by
  induction hs with
  | nil => rfl
  | cons h rest ih =>
      rw [leavesAt_cons]
      split
      · rfl
      · exact ih

theorem leaves_child_map_retest :
    (child h (siblings.map (retest s))).leaves = (child h siblings).leaves := by
  rw [child, find?_map_retest, child]
  cases find? h siblings with
  | none => rfl
  | some n => exact leaves_retest

theorem children_child_map_retest :
    (child h (siblings.map (retest s))).children = (child h siblings).children := by
  rw [child, find?_map_retest, child]
  cases find? h siblings with
  | none => rfl
  | some n => exact children_retest

theorem leavesAt_map_retest : leavesAt hs (siblings.map (retest s)) = leavesAt hs siblings := by
  cases hs with
  | nil => rfl
  | cons h rest =>
      rw [leavesAt_cons, leavesAt_cons, leaves_child_map_retest, children_child_map_retest]

theorem leaves_rebuild (h : Head) (leaves : List (Cluster × List α)) (children : List (Node α)) :
    (rebuild h leaves children).leaves = leaves := rfl

theorem children_rebuild (h : Head) (leaves : List (Cluster × List α)) (children : List (Node α)) :
    (rebuild h leaves children).children =
      children.map (retest (summarise leaves children)) := rfl

/-- Put a node in its place, or give up its place if nothing hangs on it. -/
def settle (n : Node α) (siblings : List (Node α)) : List (Node α) :=
  if n.isDead then siblings.filter (·.head != n.head) else place n siblings

theorem isDead_iff : n.isDead = true ↔ n.children = [] ∧ n.leaves = [] := by
  rw [isDead, Bool.and_eq_true, List.isEmpty_iff, List.isEmpty_iff]

theorem child_settle_of_ne (other : k ≠ n.head) :
    child k (settle n siblings) = child k siblings := by
  rw [child, settle]
  split
  · rw [find?_filter, if_neg other, child]
  · rw [find?_place, if_neg other, child]

theorem child_settle_self (n : Node α) (siblings : List (Node α)) :
    (child n.head (settle n siblings)).leaves = n.leaves ∧
      (child n.head (settle n siblings)).children = n.children := by
  rw [child, settle]
  split
  · rename_i dead
    obtain ⟨noChildren, noLeaves⟩ := isDead_iff.1 dead
    rw [find?_filter, if_pos rfl, noChildren, noLeaves]
    exact ⟨rfl, rfl⟩
  · rw [find?_place, if_pos rfl]
    exact ⟨rfl, rfl⟩

/-- The sibling that a change puts in the place of the one with the first head. -/
def altered (change : List (Cluster × List α) → List (Cluster × List α)) (h : Head)
    (rest : List Head) (siblings : List (Node α)) : Node α :=
  if rest.isEmpty then rebuild h (change (child h siblings).leaves) (child h siblings).children
  else rebuild h (child h siblings).leaves (alterPath change rest (child h siblings).children)

variable {change : List (Cluster × List α) → List (Cluster × List α)}

theorem head_altered : (altered change h rest siblings).head = h := by
  rw [altered]
  split <;> rfl

theorem alterPath_cons :
    alterPath change (h :: rest) siblings = settle (altered change h rest siblings) siblings := by
  rw [settle, head_altered]
  rfl

/-- Changing the leaves at the end of one spelling changes no other leaves. -/
theorem leavesAt_alterPath (nonempty : hs ≠ []) (other : List Head) (siblings : List (Node α)) :
    leavesAt other (alterPath change hs siblings) =
      if other = hs then change (leavesAt hs siblings) else leavesAt other siblings := by
  induction hs generalizing other siblings with
  | nil => exact absurd rfl nonempty
  | cons h rest ih =>
      cases other with
      | nil => rfl
      | cons k tail =>
          rw [alterPath_cons, leavesAt_cons, leavesAt_cons, leavesAt_cons]
          by_cases same : k = h
          · subst same
            have now := child_settle_self (altered change k rest siblings) siblings
            rw [head_altered] at now
            rw [now.1, now.2, altered]
            cases rest with
            | nil =>
                cases tail with
                | nil => simp [leaves_rebuild]
                | cons l tail => simp [children_rebuild, leavesAt_map_retest]
            | cons l rest =>
                cases tail with
                | nil => simp [leaves_rebuild]
                | cons l' tail =>
                    simp only [List.isEmpty_cons, Bool.false_eq_true, if_false, children_rebuild,
                      leavesAt_map_retest, List.cons.injEq, true_and]
                    rw [ih (List.cons_ne_nil l rest)]
                    simp only [List.cons.injEq]
          · rw [child_settle_of_ne (by rwa [head_altered]),
              if_neg fun all => same (List.cons.inj all).1]

end Leaves

/-! ## The shape of a forest -/

section Shape

variable {siblings children : List (Node α)} {n : Node α} {h : Head} {hs rest : List Head}
  {m : Nat} {s : Summary}

theorem summarise_map_retest :
    summarise [] (siblings.map (Node.retest s)) = summarise [] siblings := by
  have same : Summary.merge ((siblings.map (Node.retest s)).map summary) =
      Summary.merge (siblings.map summary) := by
    rw [List.map_map]
    exact congrArg Summary.merge (List.map_congr_left fun n _ => summary_retest)
  rw [summarise, summarise, same, List.isEmpty_map]

theorem tested_map_retest : Tested s (siblings.map (Node.retest s)) := by
  intro n hn
  obtain ⟨k, -, rfl⟩ := List.mem_map.1 hn
  cases k
  rfl

theorem Grown.pos (grown : Grown m n) : 0 < m := by
  cases grown with
  | leaf => exact Nat.one_pos
  | inner => exact Nat.succ_pos _

theorem Grown.not_isBinder (grown : Grown m n) : n.head.isBinder = false := by
  cases grown with
  | leaf plain => exact plain
  | inner plain => exact plain

theorem Grown.retest (grown : Grown m n) : Grown m (Node.retest s n) := by
  cases grown with
  | leaf plain constant filled kept => exact .leaf plain constant filled kept
  | inner plain filled sums arranged tested grown =>
      exact .inner plain filled sums arranged tested grown

/-- A node that completes the last term holds leaves only. -/
theorem Grown.terminal (grown : Grown (m + 1) n) (last : m + n.head.arity = 0) :
    n.children = [] ∧ Association.Tidy n.leaves := by
  cases grown with
  | leaf _ _ _ kept => exact ⟨rfl, kept⟩
  | inner _ filled _ _ _ grown =>
      obtain ⟨c, hc⟩ := List.exists_mem_of_ne_nil _ filled
      exact absurd last (Nat.ne_of_gt (grown c hc).pos)

/-- A node with terms still missing behind it holds children only. -/
theorem Grown.inside (grown : Grown (m + 1) n) (more : m + n.head.arity ≠ 0) :
    n.leaves = [] ∧ Forest (m + n.head.arity) n.children := by
  cases grown with
  | leaf _ constant => exact absurd (by rw [head, constant]) more
  | inner _ _ _ arranged _ grown => exact ⟨rfl, arranged, grown⟩

namespace Forest

theorem nil (m : Nat) : Forest m ([] : List (Node α)) :=
  ⟨List.Pairwise.nil, fun _ h => absurd h List.not_mem_nil⟩

theorem map_retest (forest : Forest m siblings) : Forest m (siblings.map (retest s)) := by
  refine ⟨forest.arranged.map_retest, fun n hn => ?_⟩
  obtain ⟨k, hk, rfl⟩ := List.mem_map.1 hn
  exact (forest.grown k hk).retest

end Forest

/-- A node that is rebuilt over a forest has the shape. -/
theorem Grown.rebuild (plain : h.isBinder = false) (filled : children ≠ [])
    (forest : Forest (m + h.arity) children) : Grown (m + 1) (Node.rebuild h [] children) := by
  have below := forest.map_retest (s := summarise [] children)
  exact .inner plain (by simpa using filled) summarise_map_retest.symm below.arranged
    tested_map_retest below.grown

namespace Forest

theorem settle (forest : Forest m siblings) (grown : n.isDead = false → Grown m n) :
    Forest m (settle n siblings) := by
  rw [Node.settle]
  split
  · exact ⟨forest.arranged.filter _, fun k hk => forest.grown k (List.mem_filter.1 hk).1⟩
  · rename_i alive
    refine ⟨forest.arranged.place, fun k hk => ?_⟩
    rcases mem_place hk with rfl | hk
    · exact grown (Bool.eq_false_iff.2 alive)
    · exact forest.grown k hk

theorem child_cases (forest : Forest m siblings) (h : Head) :
    child h siblings = fresh h ∨ Grown m (child h siblings) ∧ (child h siblings).head = h := by
  rw [child]
  cases found : find? h siblings with
  | none => exact .inl rfl
  | some n => exact .inr ⟨forest.grown n (mem_of_find? found).1, (mem_of_find? found).2⟩

theorem child_terminal (forest : Forest (m + 1) siblings) (last : m + h.arity = 0) :
    (child h siblings).children = [] ∧ Association.Tidy (child h siblings).leaves := by
  rcases forest.child_cases h with absent | ⟨grown, same⟩
  · rw [absent]
    exact ⟨rfl, Association.Tidy.nil⟩
  · exact grown.terminal (by rwa [same])

theorem child_inside (forest : Forest (m + 1) siblings) (more : m + h.arity ≠ 0) :
    (child h siblings).leaves = [] ∧ Forest (m + h.arity) (child h siblings).children := by
  rcases forest.child_cases h with absent | ⟨grown, same⟩
  · rw [absent]
    exact ⟨rfl, nil _⟩
  · have inside := grown.inside (by rwa [same])
    rwa [same] at inside

/-- Changing the leaves at the end of a spelling keeps the shape. -/
theorem alterPath {change : List (Cluster × List α) → List (Cluster × List α)}
    (keeps : ∀ leaves, Association.Tidy leaves → Association.Tidy (change leaves))
    (spells : Spells m hs) (plain : ∀ h ∈ hs, h.isBinder = false) (forest : Forest m siblings) :
    Forest m (Node.alterPath change hs siblings) := by
  induction spells generalizing siblings with
  | nil => exact forest
  | @cons m h rest spells ih =>
      obtain ⟨here, later⟩ := List.forall_mem_cons.1 plain
      rw [alterPath_cons]
      refine forest.settle fun alive => ?_
      have alive : ¬(_ ∧ _) := mt isDead_iff.2 (Bool.eq_false_iff.1 alive)
      by_cases last : m + h.arity = 0
      · obtain rfl := spells.nil_iff.2 last
        obtain ⟨noChildren, kept⟩ := forest.child_terminal last
        obtain ⟨rfl, constant⟩ := Nat.add_eq_zero_iff.1 last
        rw [altered, List.isEmpty_nil, if_pos rfl, noChildren] at alive ⊢
        exact .leaf here constant (fun none => alive ⟨rfl, none⟩) (keeps _ kept)
      · have going : rest ≠ [] := mt spells.nil_iff.1 last
        obtain ⟨noLeaves, below⟩ := forest.child_inside last
        rw [altered, if_neg (by simpa using going), noLeaves] at alive ⊢
        refine .rebuild here (fun none => alive ⟨?_, rfl⟩) (ih later below)
        rw [children_rebuild, none, List.map_nil]

theorem tidy_leavesAt (spells : Spells m hs) (forest : Forest m siblings) :
    Association.Tidy (leavesAt hs siblings) := by
  induction spells generalizing siblings with
  | nil => exact .nil
  | @cons m h rest spells ih =>
      rw [leavesAt_cons]
      by_cases last : m + h.arity = 0
      · rw [last] at spells
        rw [spells.eq_nil]
        exact (forest.child_terminal last).2
      · have going : rest ≠ [] := mt spells.nil_iff.1 last
        rw [if_neg (by simpa using going)]
        exact ih (forest.child_inside last).2

/-- Leaves are kept under heads other than binders only. -/
theorem plain_of_leavesAt (spells : Spells m hs) (forest : Forest m siblings)
    (held : leavesAt hs siblings ≠ []) : ∀ h ∈ hs, h.isBinder = false := by
  induction spells generalizing siblings with
  | nil => exact fun _ h => absurd h List.not_mem_nil
  | @cons m h rest spells ih =>
      rw [leavesAt_cons] at held
      rcases forest.child_cases h with absent | ⟨grown, same⟩
      · rw [absent] at held
        exact absurd (by split <;> [rfl; exact leavesAt_nil rest]) held
      · refine List.forall_mem_cons.2 ⟨same ▸ grown.not_isBinder, ?_⟩
        by_cases last : m + h.arity = 0
        · rw [spells.nil_iff.2 last]
          exact fun _ h => absurd h List.not_mem_nil
        · have going : rest ≠ [] := mt spells.nil_iff.1 last
          rw [if_neg (by simpa using going)] at held
          exact ih (forest.child_inside last).2 held

end Forest

end Shape

/-! ## Looking up leaves -/

section Locate

variable {siblings : List (Node α)} {hs : List Head}

theorem locate?_cons (h : Head) (rest : List Head) (siblings : List (Node α))
    (leafOrSymbol : ∀ v, h ≠ .binder v) :
    locate? (h :: rest) siblings =
      match find? h siblings with
      | none => .ok none
      | some n => if rest.isEmpty then .ok (some n) else locate? rest n.children := by
  cases h with
  | var v => rfl
  | symbol s => rfl
  | binder v => exact absurd rfl (leafOrSymbol v)

/-- What is located holds the leaves at the end of the spelling. -/
theorem leaves_of_locate? {found : Option (Node α)} (located : locate? hs siblings = .ok found) :
    (found.map leaves).getD [] = leavesAt hs siblings := by
  induction hs generalizing siblings with
  | nil =>
      cases located
      rfl
  | cons h rest ih =>
      rw [leavesAt_cons, child]
      have reached : (match find? h siblings with
          | none => .ok none
          | some n => if rest.isEmpty then .ok (some n) else locate? rest n.children) =
          Except.ok (ε := Fault) found := by
        cases h with
        | var v => exact located
        | symbol s => exact located
        | binder v =>
            rw [locate?] at located
            cases empty : siblings.isEmpty with
            | true => rwa [empty] at located
            | false =>
                rw [empty] at located
                cases located
      cases here : find? h siblings with
      | none =>
          rw [here] at reached
          cases reached
          split
          · rfl
          · exact (leavesAt_nil rest).symm
      | some n =>
          rw [here] at reached
          rw [Option.getD_some]
          cases last : rest.isEmpty with
          | true =>
              rw [last] at reached
              cases reached
              rfl
          | false =>
              rw [last] at reached
              exact ih reached

theorem exists_locate? (plain : ∀ h ∈ hs, h.isBinder = false) (siblings : List (Node α)) :
    ∃ found, locate? hs siblings = .ok found := by
  induction hs generalizing siblings with
  | nil => exact ⟨none, rfl⟩
  | cons h rest ih =>
      obtain ⟨here, later⟩ := List.forall_mem_cons.1 plain
      rw [locate?_cons h rest siblings fun v same => by simp [same, Head.isBinder] at here]
      cases find? h siblings with
      | none => exact ⟨none, rfl⟩
      | some n =>
          cases rest.isEmpty with
          | true => exact ⟨some n, rfl⟩
          | false => exact ih later n.children

end Locate

end Node

end SaturationCore
