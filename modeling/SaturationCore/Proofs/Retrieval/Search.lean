/-
# What a search still has to find

At every moment a search owes certain answers: the objects of the node reached last
that were not given out yet, then those below the siblings left on each level of the
descent, and then those of the bare variables, always as far as their terms match the
query. One call gives out the first of them and owes the others. Nothing is owed below a
node that is left out, whichever of the three reasons there is for it.

With every answer the ledger has just those solutions of the first ledger that make the
query read as the term found. Without one it is the first ledger again.
-/
import Mathlib.Data.List.Forall2
import SaturationCore.Proofs.DiscriminationTree.Census
import SaturationCore.Proofs.Retrieval.Passage

namespace SaturationCore

/-- Some solution of the ledger makes the query read as the heads do. -/
def Matches (σ : Unifier) (query : Subterm) (hs : List Head) : Prop :=
  ∃ θ : Substitution, θ.Solves σ ∧ θ.instantiate hs = θ.instantiate query.spelling

/-- The ledger with a match: it has those solutions that make the query read as the
heads do. -/
structure Found (σ : Unifier) (query : Subterm) (hs : List Head) (τ : Unifier) : Prop where
  extended : τ.Extends σ
  acyclic : τ.Acyclic
  quantifierFree : τ.QuantifierFree
  solves_iff : ∀ θ : Substitution,
    θ.Solves τ ↔ θ.Solves σ ∧ θ.instantiate hs = θ.instantiate query.spelling

variable {α : Type} {σ τ υ : Unifier} {query : Subterm} {path hs : List Head} {c : Cluster}

theorem Found.matches (found : Found σ query hs τ) : Matches σ query hs := by
  obtain ⟨ρ, hρ, -⟩ := found.acyclic.exists_reading
  exact ⟨ρ, (found.solves_iff ρ).1 hρ⟩

/-- When the heads of the path are a whole term, the walk is at its end, and the ledger
is the one with the match. -/
theorem Tracks.found {frames : List Frame} {descent : Descent}
    (tracks : Tracks σ query path 0 frames descent τ) :
    (descent.isCompare && !Frames.hasNext frames) = true ∧ Found σ query path τ := by
  obtain ⟨extended, acyclic, quantifierFree, sound, -, opens, stands⟩ := tracks
  cases descent with
  | collect v heads lacking =>
      obtain ⟨_, behind, -, count, -, -, some, -⟩ := stands
      omega
  | compare =>
      obtain ⟨agrees, spells⟩ := stands
      constructor
      · rw [Frames.hasNext_eq_false sound spells.eq_nil]
        rfl
      · refine ⟨extended, acyclic, quantifierFree, fun θ => ?_⟩
        rw [agrees.solves_iff]
        refine and_congr_right fun _ => ⟨fun begins => ?_, fun same => same ▸ List.prefix_refl _⟩
        exact (Substitution.spells_instantiate opens.spells).eq_of_isPrefix
          (Substitution.spells_instantiate query.spells) begins

namespace Listing

variable {l l' : Listing α}

open Classical in
/-- The listed objects whose terms match the query, when the heads of a path come before
what is listed. -/
noncomputable def matching (σ : Unifier) (query : Subterm) (path : List Head) (l : Listing α) :
    Listing α :=
  (l.map fun e => (path ++ e.1, e.2)).filter fun e => Matches σ query e.1

theorem matching_append :
    matching σ query path (l ++ l') = matching σ query path l ++ matching σ query path l' := by
  rw [matching, List.map_append, List.filter_append]
  rfl

theorem matching_map_cons (h : Head) :
    matching σ query path (l.map fun e => (h :: e.1, e.2)) = matching σ query (path ++ [h]) l := by
  rw [matching, matching, List.map_map]
  congr 1
  apply List.map_congr_left
  intro e _
  rw [Function.comp_apply, List.append_assoc]
  rfl

theorem matching_of_matches (matched : Matches σ query (path ++ hs)) (objects : List α) :
    matching σ query path (objects.map (hs, ·)) = objects.map (path ++ hs, ·) := by
  classical
  rw [matching, List.map_map, List.filter_eq_self.2]
  · rfl
  · intro e he
    obtain ⟨_, _, rfl⟩ := List.mem_map.1 he
    exact decide_eq_true matched

theorem matching_eq_nil (none : ∀ e ∈ l, ¬ Matches σ query (path ++ e.1)) :
    matching σ query path l = [] := by
  classical
  rw [matching, List.filter_eq_nil_iff]
  intro listed h
  obtain ⟨e, he, rfl⟩ := List.mem_map.1 h
  rw [decide_eq_true_eq]
  exact none e he

end Listing

/-- Behind heads that are blocked nothing matches. -/
theorem Blocked.not_matches (blocked : Blocked σ query path) (more : List Head) :
    ¬ Matches σ query (path ++ more) := by
  rintro ⟨θ, hθ, same⟩
  refine blocked θ hθ ?_
  rw [← same, Substitution.instantiate_append]
  exact List.prefix_append _ _

theorem matching_held_eq_nil {n : Node α} (blocked : Blocked σ query (path ++ [n.head])) :
    (Node.held c n).matching σ query path = [] := by
  apply Listing.matching_eq_nil
  intro e he
  obtain ⟨rest, spelled⟩ := Node.exists_cons_of_mem_held he
  rw [spelled, ← List.singleton_append, ← List.append_assoc]
  exact blocked.not_matches rest

/-! ## The levels of the descent -/

/-- The siblings left on a level: they go on where the path has led to, and they are
arranged unless the query goes on with a variable. -/
structure Branches (missing : Nat) (frames : List Frame) (τ : Unifier) (siblings : List (Node α)) :
    Prop where
  grown : ∀ n ∈ siblings, Node.Grown missing n
  tested : ∀ n ∈ siblings, ∃ parent, n.test = .between parent n.summary
  arranged : (∃ q, Frames.peek τ frames = some q ∧ q.head.isVariable = false) →
    Node.Arranged siblings

theorem Branches.tail {missing : Nat} {frames : List Frame} {n : Node α} {later : List (Node α)}
    (branches : Branches missing frames τ (n :: later)) : Branches missing frames τ later where
  grown k hk := branches.grown k (List.mem_cons_of_mem n hk)
  tested k hk := branches.tested k (List.mem_cons_of_mem n hk)
  arranged rigid := (List.pairwise_cons.1 (branches.arranged rigid)).2

/-- The levels of a descent, the ledger of the innermost and all that is owed on them. -/
inductive Owes (σ : Unifier) (query : Subterm) (c : Cluster) :
    List (ChoicePoint α) → Unifier → Listing α → Prop where
  | nil : Owes σ query c [] σ []
  | level {path : List Head} {missing : Nat} {siblings : List (Node α)} {frames : List Frame}
      {descent : Descent} {τ υ : Unifier} {outer : List (ChoicePoint α)} {owed : Listing α} :
      Tracks σ query path missing frames descent τ → Branches missing frames τ siblings →
      τ.Extends υ → Owes σ query c outer υ owed →
      Owes σ query c (⟨siblings, frames, τ.savepoint, descent⟩ :: outer) τ
        ((Node.heldAll c siblings).matching σ query path ++ owed)

theorem Owes.extended {stack : List (ChoicePoint α)} {owed : Listing α}
    (owes : Owes σ query c stack τ owed) : τ.Extends σ := by
  cases owes with
  | nil => exact Ledger.Extends.refl σ
  | level tracks => exact tracks.extended

/-- A search of the tree comes to the first objects owed, all those of one node, or to
the end when nothing is owed. -/
def Finds (σ : Unifier) (query : Subterm) (c : Cluster) (owed : Listing α)
    (result : Checked (List α × List (ChoicePoint α) × Unifier)) : Prop :=
  (owed = [] ∧ ∃ τ, result = .ok ([], [], τ) ∧ τ.Extends σ) ∨
    ∃ hs object pending stack τ υ later, result = .ok (object :: pending, stack, τ) ∧
      owed = (object :: pending).map (hs, ·) ++ later ∧ Found σ query hs τ ∧
      Owes σ query c stack υ later ∧ τ.Extends υ

section Levels

variable {n : Node α} {later children : List (Node α)}

theorem owed_of_skip (nothing : (Node.held c n).matching σ query path = []) :
    (Node.heldAll c (n :: later)).matching σ query path =
      (Node.heldAll c later).matching σ query path := by
  rw [Node.heldAll, Listing.matching_append, nothing, List.nil_append]

theorem owed_of_exhausted (arranged : Node.Arranged (n :: later))
    (blocked : ∀ k, k = n.head ∨ n.head.order k = .lt → Blocked σ query (path ++ [k])) :
    (Node.heldAll c (n :: later)).matching σ query path = [] := by
  obtain ⟨first, -⟩ := List.pairwise_cons.1 arranged
  apply Listing.matching_eq_nil
  intro e he
  obtain ⟨k, hk, he⟩ := Node.mem_heldAll_iff.1 he
  obtain ⟨rest, spelled⟩ := Node.exists_cons_of_mem_held he
  rw [spelled, ← List.singleton_append, ← List.append_assoc]
  refine (blocked k.head ?_).not_matches rest
  rcases List.mem_cons.1 hk with rfl | hk
  · exact .inl rfl
  · exact .inr (first k hk)

theorem owed_of_children {h : Head} {summary : Summary} {test : ClusterTest}
    {leaves : List (Cluster × List α)} (filled : children ≠ []) :
    (Node.heldAll c (.mk h summary test leaves children :: later)).matching σ query path =
      (Node.heldAll c children).matching σ query (path ++ [h]) ++
        (Node.heldAll c later).matching σ query path := by
  rw [Node.heldAll, Listing.matching_append, Node.held_inner _ _ _ _ filled,
    Listing.matching_map_cons]

theorem owed_of_leaf {h : Head} {summary : Summary} {test : ClusterTest}
    {leaves : List (Cluster × List α)} (matched : Matches σ query (path ++ [h])) :
    (Node.heldAll c (.mk h summary test leaves [] :: later)).matching σ query path =
      ((leaves.lookup c).getD []).map (path ++ [h], ·) ++
        (Node.heldAll c later).matching σ query path := by
  rw [Node.heldAll, Listing.matching_append, Node.held_leaf, Listing.matching_of_matches matched]

end Levels

theorem advance_finds (c : Cluster) (stack : List (ChoicePoint α)) (τ : Unifier) {owed : Listing α}
    (owes : Owes σ query c stack υ owed) (grew : τ.Extends υ) :
    Finds σ query c owed (Retrieval.advance c stack τ) := by
  induction stack, τ using Retrieval.advance.induct generalizing υ owed with
  | case1 τ =>
      cases owes with
      | nil => exact .inl ⟨rfl, τ, by rw [Retrieval.advance]; rfl, grew⟩
  | case2 τ frames savepoint descent outer ih =>
      cases owes with
      | level _ _ below owes =>
          rw [Retrieval.advance]
          exact ih owes (grew.trans below)
  | case3 τ h summary test leaves children later frames savepoint descent outer ihUntested ihOuter
      ihLater ihChildren =>
      cases owes with
      | @level path missing _ _ _ _ _ _ owedOuter tracks branches below owes =>
          have back : τ.backtrackTo υ.savepoint = .ok υ := grew.backtrackTo_eq
          have grown := branches.grown _ List.mem_cons_self
          have others : Owes σ query c (⟨later, frames, υ.savepoint, descent⟩ :: outer) υ
              ((Node.heldAll c later).matching σ query path ++ owedOuter) :=
            .level tracks branches.tail below owes
          rw [Retrieval.advance, back]
          cases passes : test.passes c with
          | false =>
              obtain ⟨parent, tested⟩ := branches.tested _ List.mem_cons_self
              rw [owed_of_skip (by rw [grown.held_eq_nil tested passes]; rfl)]
              exact ihUntested υ others (Ledger.Extends.refl υ)
          | true =>
              obtain ⟨wanted, rfl⟩ : ∃ wanted, missing = wanted + 1 :=
                ⟨missing - 1, by have := grown.pos; omega⟩
              have plainHead : h.isBinder = false := grown.not_isBinder
              obtain ⟨passage, passed, fits⟩ := Passage.through_fits tracks plainHead
              simp only [Bool.not_true, Bool.false_eq_true, if_false, bind, Except.bind]
              rw [passed]
              dsimp only
              cases passage with
              | skip =>
                  have nothing := matching_held_eq_nil (c := c)
                    (n := .mk h summary test leaves children) fits
                  rw [owed_of_skip nothing]
                  exact ihLater υ others (Ledger.Extends.refl υ)
              | exhausted =>
                  rw [owed_of_exhausted (branches.arranged fits.1) fits.2, List.nil_append]
                  exact ihOuter υ owes below
              | descend inner innerDescent reached =>
                  obtain ⟨reachedExtends, tracksInner⟩ := fits
                  generalize same : Node.mk h summary test leaves children = n at grown
                  cases grown with
                  | leaf _ constant _ _ =>
                      cases same
                      rw [constant] at tracksInner
                      obtain ⟨ended, found⟩ := tracksInner.found
                      rw [owed_of_leaf found.matches, List.append_assoc]
                      simp only [List.isEmpty_nil, if_true, ended, require]
                      cases stored : (leaves.lookup c).getD [] with
                      | nil => exact ihLater reached others reachedExtends
                      | cons object pending =>
                          exact .inr ⟨path ++ [h], object, pending, _, reached, υ, _, rfl, rfl,
                            found, others, reachedExtends⟩
                  | inner _ filled _ arranged tested grown =>
                      cases same
                      rw [owed_of_children filled, List.append_assoc]
                      dsimp only
                      rw [if_neg (by simpa using filled)]
                      exact ihChildren inner innerDescent reached
                        (.level tracksInner ⟨grown, fun k hk => ⟨_, tested k hk⟩, fun _ => arranged⟩
                          reachedExtends others) (Ledger.Extends.refl reached)

/-! ## The bare variables -/

/-- The search was started under a ledger with a query, and it holds the index open. -/
structure Asked (σ : Unifier) (query : Subterm) (r : Retrieval α) : Prop where
  acyclic : σ.Acyclic
  quantifierFree : σ.QuantifierFree
  plain : query.isQuantifierFree = true
  isOpen : r.isOpen = true
  start_eq : r.start = σ.savepoint
  query_eq : r.query = some (σ.deref query)

theorem Asked.backtrackTo_eq {r : Retrieval α} (asked : Asked σ query r) (grew : τ.Extends σ) :
    τ.backtrackTo r.start = .ok σ := by
  rw [asked.start_eq, grew.backtrackTo_eq]

/-- A bare variable is tried under the ledger as it was in the beginning. -/
theorem unifyVariable_found {r : Retrieval α} (asked : Asked σ query r) (v : Variable) :
    (∃ τ, r.query.bind (σ.unifyVariable v) = some τ ∧ Found σ query [.var v] τ) ∨
      (r.query.bind (σ.unifyVariable v) = none ∧ ¬ Matches σ query [.var v]) := by
  have bare : (σ.deref query).isQuantifierFree = true :=
    plain_deref asked.quantifierFree (Subterm.isQuantifierFree_iff.1 asked.plain)
  have sameRead (θ : Substitution) (hθ : θ.Solves σ) :
      θ.instantiate (σ.deref query).spelling = θ.instantiate query.spelling :=
    Unifier.instantiate_deref hθ query
  rw [asked.query_eq, Option.bind_some]
  rcases Unifier.unifyVariable_cases asked.acyclic asked.quantifierFree bare v with
    ⟨τ, unified, extended, acyclic, quantifierFree, solutions⟩ | ⟨failed, none⟩
  · refine .inl ⟨τ, unified, extended, acyclic, quantifierFree, fun θ => ?_⟩
    rw [solutions]
    exact and_congr_right fun hθ => by rw [sameRead θ hθ]
  · refine .inr ⟨failed, fun ⟨θ, hθ, same⟩ => none θ hθ ?_⟩
    rw [same, sameRead θ hθ]

/-- Trying the bare variables comes to the first object owed, or undoes everything. -/
theorem sweep_finds {r : Retrieval α} (asked : Asked σ query r) (bare : List (Variable × List α))
    (τ : Unifier) (grew : τ.Extends σ) :
    ((bareListing bare).matching σ query [] = [] ∧
        r.sweep bare τ = .ok (none, { r with phase := .done }, σ)) ∨
      ∃ v object pending rest τ',
        r.sweep bare τ = .ok (some object, { r with phase := .sweeping rest pending }, τ') ∧
        (bareListing bare).matching σ query [] =
          (object :: pending).map ([.var v], ·) ++ (bareListing rest).matching σ query [] ∧
        Found σ query [.var v] τ' := by
  induction bare generalizing τ with
  | nil =>
      refine .inl ⟨rfl, ?_⟩
      rw [Retrieval.sweep, asked.backtrackTo_eq grew]
      rfl
  | cons first rest ih =>
      obtain ⟨v, objects⟩ := first
      rw [Retrieval.sweep, asked.backtrackTo_eq grew, bareListing_cons, Listing.matching_append]
      simp only [bind, Except.bind]
      rcases unifyVariable_found asked v with ⟨τ', unified, found⟩ | ⟨failed, none⟩
      · have here : Matches σ query ([] ++ [.var v]) := found.matches
        rw [unified, Listing.matching_of_matches here]
        cases objects with
        | nil => exact ih τ' found.extended
        | cons object pending => exact .inr ⟨v, object, pending, rest, τ', rfl, rfl, found⟩
      · rw [failed, Listing.matching_eq_nil, List.nil_append]
        · exact ih σ (Ledger.Extends.refl σ)
        · intro e he
          obtain ⟨_, _, rfl⟩ := List.mem_map.1 he
          exact none

/-! ## Whole searches -/

/-- What a search owes at a moment between two calls, with the ledger as it stands. -/
inductive Awaits (σ : Unifier) (query : Subterm) : Retrieval α → Unifier → Listing α → Prop where
  | tree {r : Retrieval α} {stack : List (ChoicePoint α)} {pending : List α} {τ υ : Unifier}
      {hs : List Head} {owed : Listing α} :
      Asked σ query r → r.phase = .tree stack pending → Owes σ query r.cluster stack υ owed →
      τ.Extends υ → (pending ≠ [] → Found σ query hs τ) →
      Awaits σ query r τ
        (pending.map (hs, ·) ++ (owed ++ (bareListing r.bareVariables).matching σ query []))
  | sweeping {r : Retrieval α} {rest : List (Variable × List α)} {pending : List α} {τ : Unifier}
      {hs : List Head} :
      Asked σ query r → r.phase = .sweeping rest pending → τ.Extends σ →
      (pending ≠ [] → Found σ query hs τ) →
      Awaits σ query r τ (pending.map (hs, ·) ++ (bareListing rest).matching σ query [])
  | done {r : Retrieval α} : Asked σ query r → r.phase = .done → Awaits σ query r σ []

namespace Awaits

variable {r : Retrieval α} {owed : Listing α}

theorem asked (awaits : Awaits σ query r τ owed) : Asked σ query r := by
  cases awaits with
  | tree asked => exact asked
  | sweeping asked => exact asked
  | done asked => exact asked

theorem extended (awaits : Awaits σ query r τ owed) : τ.Extends σ := by
  cases awaits with
  | tree _ _ owes grew => exact grew.trans owes.extended
  | sweeping _ _ grew => exact grew
  | done => exact Ledger.Extends.refl σ

theorem phase_ne_idle (awaits : Awaits σ query r τ owed) : r.phase ≠ .idle := by
  cases awaits with
  | tree _ phase => rw [phase]; exact fun h => nomatch h
  | sweeping _ phase => rw [phase]; exact fun h => nomatch h
  | done _ phase => rw [phase]; exact fun h => nomatch h

end Awaits

/-- What one call comes to: the first answer owed, under the ledger with its match, or
none and the ledger of the beginning. -/
def Gives (σ : Unifier) (query : Subterm) (owed : Listing α)
    (result : Checked (Option α × Retrieval α × Unifier)) : Prop :=
  (owed = [] ∧ ∃ r, result = .ok (none, r, σ) ∧ r.phase = .done ∧ Awaits σ query r σ []) ∨
    ∃ hs object later r τ, owed = (hs, object) :: later ∧ result = .ok (some object, r, τ) ∧
      Found σ query hs τ ∧ Awaits σ query r τ later

theorem sweep_gives {r : Retrieval α} (asked : Asked σ query r) (bare : List (Variable × List α))
    (τ : Unifier) (grew : τ.Extends σ) :
    Gives σ query ((bareListing bare).matching σ query []) (r.sweep bare τ) := by
  have still (phase : Phase α) : Asked σ query { r with phase } :=
    ⟨asked.acyclic, asked.quantifierFree, asked.plain, asked.isOpen, asked.start_eq, asked.query_eq⟩
  rcases sweep_finds asked bare τ grew with ⟨nothing, swept⟩ |
    ⟨v, object, pending, rest, τ', swept, owed, found⟩
  · exact .inl ⟨nothing, _, swept, rfl, .done (still _) rfl⟩
  · exact .inr ⟨_, object, _, _, τ', owed, swept, found,
      .sweeping (still _) rfl found.extended fun _ => found⟩

/-- A call gives out the first answer owed. -/
theorem Awaits.next {r : Retrieval α} {owed : Listing α} (awaits : Awaits σ query r τ owed) :
    Gives σ query owed (r.next τ) := by
  have still (phase : Phase α) : Asked σ query { r with phase } := by
    obtain ⟨acyclic, quantifierFree, plain, isOpen, start, query⟩ := awaits.asked
    exact ⟨acyclic, quantifierFree, plain, isOpen, start, query⟩
  cases awaits with
  | done asked phase =>
      rw [Retrieval.next, phase]
      exact .inl ⟨rfl, r, rfl, phase, .done asked phase⟩
  | @sweeping rest pending _ hs asked phase grew found =>
      rw [Retrieval.next, phase]
      cases pending with
      | nil => exact sweep_gives asked rest τ grew
      | cons object pending =>
          have here := found (List.cons_ne_nil object pending)
          exact .inr ⟨hs, object, _, _, τ, rfl, rfl, here,
            .sweeping (still _) rfl grew fun _ => here⟩
  | @tree stack pending _ υ hs owed asked phase owes grew found =>
      rw [Retrieval.next, phase]
      cases pending with
      | cons object pending =>
          have here := found (List.cons_ne_nil object pending)
          exact .inr ⟨hs, object, _, _, τ, rfl, rfl, here,
            .tree (still _) rfl owes grew fun _ => here⟩
      | nil =>
          simp only [bind, Except.bind]
          rcases advance_finds r.cluster stack τ owes grew with ⟨rfl, τ', advanced, grew'⟩ |
            ⟨hs, object, pending, stack', τ', υ', later, advanced, rfl, found, owes', grew'⟩
          · rw [advanced]
            dsimp only
            rw [asked.backtrackTo_eq grew']
            exact sweep_gives asked r.bareVariables σ (Ledger.Extends.refl σ)
          · rw [advanced]
            refine .inr ⟨hs, object, _, _, τ', ?_, rfl, found,
              .tree (still _) rfl owes' grew' fun _ => found⟩
            rw [List.map_nil, List.nil_append, List.map_cons, List.append_assoc, List.cons_append]

/-- Several calls give out the first answers owed, each under the ledger with its match;
when there are fewer, the ledger is that of the beginning. -/
theorem Awaits.drain {r : Retrieval α} {owed : Listing α} (awaits : Awaits σ query r τ owed)
    (limit : Nat) :
    ∃ found r' τ', r.drain τ limit = .ok (found, r', τ') ∧
      List.Forall₂ (fun e f => f.1 = e.2 ∧ Found σ query e.1 f.2) (owed.take limit) found ∧
      Awaits σ query r' τ' (owed.drop limit) ∧
      (owed.length < limit → r'.phase = .done ∧ τ' = σ) := by
  induction limit generalizing r τ owed with
  | zero => exact ⟨[], r, τ, rfl, .nil, awaits, fun h => absurd h (Nat.not_lt_zero _)⟩
  | succ limit ih =>
      rw [Retrieval.drain]
      simp only [bind, Except.bind]
      rcases awaits.next with ⟨rfl, r', given, phase, awaits'⟩ |
        ⟨hs, object, later, r', τ', rfl, given, found, awaits'⟩
      · rw [given]
        exact ⟨[], r', σ, rfl, .nil, awaits', fun _ => ⟨phase, rfl⟩⟩
      · obtain ⟨others, last, τ'', drained, each, awaits'', ended⟩ := ih awaits'
        rw [given]
        dsimp only
        rw [drained]
        refine ⟨(object, τ') :: others, last, τ'', rfl, .cons ⟨rfl, found⟩ each, awaits'',
          fun few => ?_⟩
        exact ended (Nat.lt_of_succ_lt_succ few)

/-- Giving up the search at any moment leads back to the ledger of the beginning. -/
theorem Awaits.finish {r : Retrieval α} {owed : Listing α} (awaits : Awaits σ query r τ owed)
    (ix : Index α) : r.finish ix τ = .ok (.idle, r.release ix, σ) := by
  have back := awaits.asked.backtrackTo_eq awaits.extended
  rw [Retrieval.finish]
  cases phase : r.phase with
  | idle => exact absurd phase awaits.phase_ne_idle
  | tree => rw [back]; rfl
  | sweeping => rw [back]; rfl
  | done => rw [back]; rfl

end SaturationCore
