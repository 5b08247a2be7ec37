/-
# Passing the nodes of a tree

On its way down, a search keeps a ledger for the heads it has passed. Its solutions are
those solutions of the first ledger under which the query begins as these heads do, and
what then follows in the query is what is left of the walk. While a path is collected
for a variable of the query, the ledger stands for the heads before the path, and the
variable for what the path is going to be.

Passing one more node keeps this, and a node is left out only if no solution lets the
query begin with the heads down to it. Where the later siblings are left out too, the
same holds of every head behind it in the order of siblings.
-/
import SaturationCore.DiscriminationTree.Retrieval
import SaturationCore.Proofs.DiscriminationTree.Forest
import SaturationCore.Proofs.Retrieval.Frames
import SaturationCore.Proofs.Unification.MostGeneral

namespace SaturationCore

/-- Heads that are one term together with so many more terms behind them. -/
def Opens (path : List Head) (missing : Nat) : Prop :=
  ∀ hs, Spells missing hs → Spells 1 (path ++ hs)

namespace Opens

variable {path : List Head} {missing : Nat}

theorem nil : Opens [] 1 :=
  fun _ spells => spells

theorem step (opens : Opens path (missing + 1)) (h : Head) :
    Opens (path ++ [h]) (missing + h.arity) := by
  intro hs spells
  rw [List.append_assoc]
  exact opens _ spells.cons

theorem spells (opens : Opens path 0) : Spells 1 path := by
  have whole := opens [] .nil
  rwa [List.append_nil] at whole

end Opens

/-- No solution of the ledger lets the query begin with the heads. -/
def Blocked (σ : Unifier) (query : Subterm) (path : List Head) : Prop :=
  ∀ θ : Substitution, θ.Solves σ → ¬ θ.instantiate path <+: θ.instantiate query.spelling

/-- The ledger `τ` has just the solutions of `σ` that let the query begin with the heads
of a path, and they let it go on with the rest. -/
structure Agrees (σ : Unifier) (query : Subterm) (path rest : List Head) (τ : Unifier) : Prop where
  solves_iff : ∀ θ : Substitution,
    θ.Solves τ ↔ θ.Solves σ ∧ θ.instantiate path <+: θ.instantiate query.spelling
  split : ∀ θ : Substitution, θ.Solves τ →
    θ.instantiate query.spelling = θ.instantiate path ++ θ.instantiate rest

namespace Agrees

variable {σ τ τ' : Unifier} {query : Subterm} {path rest other s piece : List Head} {h : Head}
  {θ : Substitution}

theorem start (σ : Unifier) (query : Subterm) : Agrees σ query [] query.spelling σ where
  solves_iff _ := ⟨fun hθ => ⟨hθ, List.nil_prefix⟩, fun h => h.1⟩
  split _ _ := rfl

theorem congr (agrees : Agrees σ query path rest τ)
    (same : ∀ θ : Substitution, θ.Solves τ → θ.instantiate other = θ.instantiate rest) :
    Agrees σ query path other τ where
  solves_iff := agrees.solves_iff
  split θ hθ := by rw [agrees.split θ hθ, same θ hθ]

/-- Longer heads begin the query when the heads so far do and the rest goes on with the
others. -/
theorem isPrefix_iff (agrees : Agrees σ query path rest τ) :
    θ.Solves σ ∧ θ.instantiate (path ++ piece) <+: θ.instantiate query.spelling ↔
      θ.Solves τ ∧ θ.instantiate piece <+: θ.instantiate rest := by
  rw [Substitution.instantiate_append]
  constructor
  · rintro ⟨hθ, begins⟩
    have now : θ.Solves τ :=
      (agrees.solves_iff θ).2 ⟨hθ, (List.prefix_append _ _).trans begins⟩
    rw [agrees.split θ now, List.prefix_append_right_inj] at begins
    exact ⟨now, begins⟩
  · rintro ⟨now, begins⟩
    refine ⟨((agrees.solves_iff θ).1 now).1, ?_⟩
    rwa [agrees.split θ now, List.prefix_append_right_inj]

theorem isPrefix_append_iff (hp : Spells 1 piece) (hs : Spells 1 s) :
    θ.instantiate piece <+: θ.instantiate (s ++ rest) ↔
      θ.instantiate piece = θ.instantiate s := by
  rw [Substitution.instantiate_append]
  constructor
  · rintro ⟨more, same⟩
    exact ((Substitution.spells_instantiate hp).cancel (Substitution.spells_instantiate hs) same).1
  · intro same
    rw [same]
    exact List.prefix_append _ _

/-- Unifying a whole term with the one that comes next leads behind both. -/
theorem step (agrees : Agrees σ query path (s ++ rest) τ) (hp : Spells 1 piece) (hs : Spells 1 s)
    (solutions : ∀ θ : Substitution,
      θ.Solves τ' ↔ θ.Solves τ ∧ θ.instantiate piece = θ.instantiate s) :
    Agrees σ query (path ++ piece) rest τ' where
  solves_iff θ := by rw [solutions, agrees.isPrefix_iff, isPrefix_append_iff hp hs]
  split θ hθ := by
    obtain ⟨before, same⟩ := (solutions θ).1 hθ
    rw [agrees.split θ before, Substitution.instantiate_append, Substitution.instantiate_append,
      same, List.append_assoc]

theorem blocked (agrees : Agrees σ query path (s ++ rest) τ) (hp : Spells 1 piece) (hs : Spells 1 s)
    (none : ∀ θ : Substitution, θ.Solves τ → θ.instantiate piece ≠ θ.instantiate s) :
    Blocked σ query (path ++ piece) := by
  intro θ hθ begins
  obtain ⟨now, same⟩ := agrees.isPrefix_iff.1 ⟨hθ, begins⟩
  exact none θ now ((isPrefix_append_iff hp hs).1 same)

/-- An equal symbol leads into the arguments. -/
theorem enter (agrees : Agrees σ query path (h :: rest) τ) (rigid : h.isVariable = false) :
    Agrees σ query (path ++ [h]) rest τ where
  solves_iff θ := by
    rw [agrees.isPrefix_iff, Substitution.instantiate_cons, Substitution.instantiate_cons,
      θ.onHead_of_not_isVariable rigid]
    exact ⟨fun hθ => ⟨hθ, List.prefix_append _ _⟩, fun both => both.1⟩
  split θ hθ := by
    rw [agrees.split θ hθ, Substitution.instantiate_append, List.append_assoc]
    exact congrArg _ (θ.instantiate_append [h] rest)

/-- Another symbol leads nowhere. -/
theorem blocked_of_ne {k : Head} (agrees : Agrees σ query path (h :: rest) τ)
    (rigid : h.isVariable = false) (rigid' : k.isVariable = false) (differ : k ≠ h) :
    Blocked σ query (path ++ [k]) := by
  intro θ hθ begins
  obtain ⟨-, more, same⟩ := agrees.isPrefix_iff.1 ⟨hθ, begins⟩
  rw [Substitution.instantiate_cons, Substitution.instantiate_cons,
    θ.onHead_of_not_isVariable rigid, θ.onHead_of_not_isVariable rigid'] at same
  exact differ (List.cons.inj same).1

/-- Nor do the symbols behind it lead anywhere. -/
theorem blocked_of_order_lt {k : Head} (agrees : Agrees σ query path (h :: rest) τ)
    (rigid : h.isVariable = false) (later : h.order k = .lt) : Blocked σ query (path ++ [k]) := by
  refine agrees.blocked_of_ne rigid (Head.not_isVariable_of_order_lt rigid later) ?_
  rintro rfl
  rw [Head.order_eq_iff.2 rfl] at later
  cases later

end Agrees

/-- Where the descent stands: what the ledger stands for, and how many terms are missing
on either side. -/
def Descent.Stands (σ : Unifier) (query : Subterm) (path : List Head) (missing : Nat)
    (left : List Head) (τ : Unifier) : Descent → Prop
  | compare => Agrees σ query path left τ ∧ Spells missing left
  | collect v heads lacking =>
    ∃ before behind, path = before ++ heads.reverse ∧ missing = lacking + behind ∧
      Agrees σ query before (.var v :: left) τ ∧ Spells behind left ∧ 0 < lacking ∧
      Opens heads.reverse lacking ∧ ∀ h ∈ heads, h.isBinder = false

/-- The state of a search that has passed the heads of a path. -/
structure Tracks (σ : Unifier) (query : Subterm) (path : List Head) (missing : Nat)
    (frames : List Frame) (descent : Descent) (τ : Unifier) : Prop where
  extended : τ.Extends σ
  acyclic : τ.Acyclic
  quantifierFree : τ.QuantifierFree
  sound : Frames.Sound frames
  plain : ∀ h ∈ Frames.remaining frames, h.isBinder = false
  opens : Opens path missing
  stands : descent.Stands σ query path missing (Frames.remaining frames) τ

/-- What passing a node with head `h` may come to. Later siblings are only given up
where the query goes on with something else than a variable. -/
def Passage.Fits (σ : Unifier) (query : Subterm) (path : List Head) (missing : Nat)
    (frames : List Frame) (h : Head) (τ : Unifier) : Passage → Prop
  | descend inner descent τ' =>
    τ'.Extends τ ∧ Tracks σ query (path ++ [h]) (missing + h.arity) inner descent τ'
  | skip => Blocked σ query (path ++ [h])
  | exhausted =>
    (∃ q, Frames.peek τ frames = some q ∧ q.head.isVariable = false) ∧
      ∀ k, k = h ∨ h.order k = .lt → Blocked σ query (path ++ [k])

/-- The subterm `s` of the query comes next, and `rest` behind it. -/
structure Meets (σ : Unifier) (query : Subterm) (path : List Head) (missing : Nat)
    (frames : List Frame) (τ : Unifier) (s : Subterm) (rest : List Head)
    (reached skipped : List Frame) : Prop where
  visits : Frames.Visits τ frames s rest reached skipped
  agrees : Agrees σ query path ((τ.deref s).spelling ++ rest) τ
  bare : (τ.deref s).isQuantifierFree = true
  plain : ∀ k ∈ rest, k.isBinder = false
  spells : Spells missing rest

section Meeting

variable {σ τ : Unifier} {query s : Subterm} {path rest : List Head} {missing : Nat}
  {frames reached skipped : List Frame}

/-- The subterm that comes next, read through the ledger, has no binder. -/
theorem plain_deref (quantifierFree : τ.QuantifierFree)
    (plain : ∀ k ∈ s.spelling, k.isBinder = false) : (τ.deref s).isQuantifierFree = true := by
  rw [Subterm.isQuantifierFree_iff]
  refine Unifier.Within.deref (fun v t bound => ?_) plain
  exact Subterm.isQuantifierFree_iff.1 (quantifierFree v t bound)

theorem Tracks.exists_meets (tracks : Tracks σ query path (missing + 1) frames .compare τ) :
    ∃ s rest reached skipped, Meets σ query path missing frames τ s rest reached skipped := by
  obtain ⟨-, -, quantifierFree, sound, plain, -, agrees, spells⟩ := tracks
  obtain ⟨s, rest, reached, skipped, visits⟩ := Frames.exists_visits (σ := τ) sound spells.ne_nil
  rw [visits.remaining_eq] at agrees spells plain
  obtain ⟨plainHere, plainRest⟩ := List.forall_mem_append.1 plain
  refine ⟨s, rest, reached, skipped, visits, agrees.congr fun θ hθ => ?_,
    plain_deref quantifierFree plainHere, plainRest, ?_⟩
  · rw [Substitution.instantiate_append, Substitution.instantiate_append,
      Unifier.instantiate_deref hθ s]
  · rw [Nat.add_comm] at spells
    exact (s.spells.append_iff).1 spells

namespace Meets

variable (meets : Meets σ query path missing frames τ s rest reached skipped)
include meets

theorem plain_skipped : ∀ k ∈ Frames.remaining skipped, k.isBinder = false := by
  rw [meets.visits.remaining_skipped]
  exact meets.plain

theorem spells_skipped : Spells missing (Frames.remaining skipped) := by
  rw [meets.visits.remaining_skipped]
  exact meets.spells

theorem plain_reached : ∀ k ∈ Frames.remaining reached, k.isBinder = false := by
  have both : ∀ k ∈ (τ.deref s).spelling ++ rest, k.isBinder = false :=
    List.forall_mem_append.2 ⟨Subterm.isQuantifierFree_iff.1 meets.bare, meets.plain⟩
  rw [← meets.visits.remaining_reached] at both
  exact (List.forall_mem_cons.1 both).2

theorem spells_reached : Spells (missing + (τ.deref s).head.arity) (Frames.remaining reached) := by
  have both : Spells (1 + missing) ((τ.deref s).spelling ++ rest) :=
    (τ.deref s).spells.append meets.spells
  rw [← meets.visits.remaining_reached, Nat.add_comm] at both
  exact Spells.cons_iff.1 both

theorem agrees_reached : Agrees σ query path ((τ.deref s).head :: Frames.remaining reached) τ := by
  rw [meets.visits.remaining_reached]
  exact meets.agrees

theorem stepOver_eq : Passage.stepOver τ frames = .ok skipped := by
  obtain ⟨_, _, next⟩ := meets.visits.next_eq
  obtain ⟨_, skip⟩ := meets.visits.skip_eq
  simp only [Passage.stepOver, next, skip, bind, Except.bind]
  rfl

end Meets

end Meeting

namespace Passage

variable {σ τ : Unifier} {query s : Subterm} {path rest : List Head} {missing lacking : Nat}
  {frames reached skipped : List Frame} {descent : Descent} {h : Head} {v : Variable}
  {heads : List Head} {f g : Symbol}

/-- Collecting one more head either leaves terms of the path missing, or the variable
becomes the term that the path spells. -/
theorem collecting_fits
    (tracks : Tracks σ query path (missing + 1) frames (.collect v heads lacking) τ)
    (plainHead : h.isBinder = false) (walk : List Frame) :
    ∃ passage, collecting τ frames v heads lacking h = .ok passage ∧
      passage.Fits σ query path missing walk h τ := by
  obtain ⟨extended, acyclic, quantifierFree, sound, plain, opens, before, behind, same, count,
    agrees, spells, some, pathOpens, plainHeads⟩ := tracks
  obtain ⟨wanted, rfl⟩ : ∃ wanted, lacking = wanted + 1 := ⟨lacking - 1, by omega⟩
  obtain rfl : missing = wanted + behind := by omega
  have grown : path ++ [h] = before ++ (h :: heads).reverse := by
    rw [same, List.reverse_cons, List.append_assoc]
  have plainHeads' : ∀ k ∈ h :: heads, k.isBinder = false :=
    List.forall_mem_cons.2 ⟨plainHead, plainHeads⟩
  have pathOpens' : Opens (h :: heads).reverse (wanted + h.arity) := by
    rw [List.reverse_cons]
    exact pathOpens.step h
  by_cases more : 0 < wanted + h.arity
  · refine ⟨.descend frames (.collect v (h :: heads) (wanted + h.arity)) τ, ?_,
      Ledger.Extends.refl τ, extended, acyclic, quantifierFree, sound, plain, opens.step h, before,
      behind, grown, Nat.add_right_comm _ _ _, agrees, spells, more, pathOpens', plainHeads'⟩
    simp only [collecting, Nat.add_sub_cancel, if_pos more]
    rfl
  · have finished : wanted + h.arity = 0 := Nat.eq_zero_of_not_pos more
    rw [finished] at pathOpens'
    obtain ⟨t, made, spelled⟩ := Subterm.ofSpelling_of_spells pathOpens'.spells
    have bare : t.isQuantifierFree = true := by
      rw [Subterm.isQuantifierFree_iff, spelled]
      exact fun k hk => plainHeads' k (List.mem_reverse.1 hk)
    have piece : Spells 1 (h :: heads).reverse := pathOpens'.spells
    have leaf : Spells 1 [Head.var v] := .cons .nil
    rcases Unifier.unifyVariable_cases acyclic quantifierFree bare v with
      ⟨τ', unified, extended', acyclic', quantifierFree', solutions⟩ | ⟨failed, none⟩
    · refine ⟨.descend frames .compare τ', ?_, extended', extended'.trans extended, acyclic',
        quantifierFree', sound, plain, opens.step h, ?_, ?_⟩
      · simp only [collecting, Nat.add_sub_cancel, if_neg more, made, bind, Except.bind, unified]
        rfl
      · rw [grown]
        refine Agrees.step (s := [.var v]) agrees piece leaf fun θ => ?_
        rw [solutions, spelled, eq_comm]
      · rw [Nat.add_right_comm, finished, Nat.zero_add]
        exact spells
    · refine ⟨.skip, ?_, ?_⟩
      · simp only [collecting, Nat.add_sub_cancel, if_neg more, made, bind, Except.bind, failed]
        rfl
      · show Blocked σ query (path ++ [h])
        rw [grown]
        refine Agrees.blocked (s := [.var v]) agrees piece leaf fun θ hθ other => none θ hθ ?_
        rw [spelled, other]

section Comparing

variable (tracks : Tracks σ query path (missing + 1) frames .compare τ)
  (meets : Meets σ query path missing frames τ s rest reached skipped)
include tracks meets

/-- An indexed variable takes the subterm that comes next. -/
theorem comparing_var_fits (v : Variable) :
    ∃ passage, comparing τ frames (.var v) = .ok passage ∧
      passage.Fits σ query path missing frames (.var v) τ := by
  have piece : Spells 1 [Head.var v] := .cons .nil
  rcases Unifier.unifyVariable_cases tracks.acyclic tracks.quantifierFree meets.bare v with
    ⟨τ', unified, extended, acyclic, quantifierFree, solutions⟩ | ⟨failed, none⟩
  · refine ⟨.descend skipped .compare τ', ?_, extended, extended.trans tracks.extended, acyclic,
      quantifierFree, meets.visits.sound_skipped, meets.plain_skipped, tracks.opens.step _, ?_,
      meets.spells_skipped⟩
    · simp only [comparing, meets.visits.peek_eq, meets.stepOver_eq, bind, Except.bind, unified]
      rfl
    · rw [meets.visits.remaining_skipped]
      exact meets.agrees.step piece (τ.deref s).spells solutions
  · refine ⟨.skip, ?_, meets.agrees.blocked piece (τ.deref s).spells none⟩
    simp only [comparing, meets.visits.peek_eq, meets.stepOver_eq, bind, Except.bind, failed]
    rfl

/-- A symbol met by a variable of the query begins a path for it. -/
theorem comparing_open_fits (root : (τ.deref s).head = .var v)
    (plainHead : (Head.symbol f).isBinder = false) :
    ∃ passage, comparing τ frames (.symbol f) = .ok passage ∧
      passage.Fits σ query path missing frames (.symbol f) τ := by
  have begins : Tracks σ query path (missing + 1) skipped (.collect v [] 1) τ := by
    refine ⟨tracks.extended, tracks.acyclic, tracks.quantifierFree, meets.visits.sound_skipped,
      meets.plain_skipped, tracks.opens, path, missing, (List.append_nil path).symm,
      Nat.add_comm _ _, ?_, meets.spells_skipped, Nat.one_pos, Opens.nil, ?_⟩
    · have agrees := meets.agrees
      rw [Subterm.spelling_of_head_eq_var root, ← meets.visits.remaining_skipped] at agrees
      exact agrees
    · exact fun k hk => absurd hk List.not_mem_nil
  obtain ⟨passage, passed, fits⟩ := collecting_fits begins plainHead frames
  refine ⟨passage, ?_, fits⟩
  simp only [comparing, meets.visits.peek_eq, root, meets.stepOver_eq, bind, Except.bind]
  exact passed

/-- The symbol that comes next leads into its arguments. -/
theorem comparing_same_fits (root : (τ.deref s).head = .symbol f) :
    ∃ passage, comparing τ frames (.symbol f) = .ok passage ∧
      passage.Fits σ query path missing frames (.symbol f) τ := by
  obtain ⟨visited, changes, next⟩ := meets.visits.next_eq
  have agrees := meets.agrees_reached
  have spells := meets.spells_reached
  rw [root] at agrees spells
  refine ⟨.descend reached .compare τ, ?_, Ledger.Extends.refl τ, tracks.extended, tracks.acyclic,
    tracks.quantifierFree, meets.visits.sound_reached, meets.plain_reached, tracks.opens.step _,
    agrees.enter rfl, spells⟩
  simp only [comparing, meets.visits.peek_eq, root, next, if_pos]
  rfl

omit tracks in
/-- Another symbol leads nowhere, and nor do the siblings behind it when it comes behind
the symbol of the query. -/
theorem comparing_other_fits (root : (τ.deref s).head = .symbol g) (differ : f ≠ g) :
    ∃ passage, comparing τ frames (.symbol f) = .ok passage ∧
      passage.Fits σ query path missing frames (.symbol f) τ := by
  have agrees := meets.agrees_reached
  rw [root] at agrees
  have differ : Head.symbol f ≠ Head.symbol g := fun same => differ (Head.symbol.inj same)
  by_cases behind : (Head.symbol f).order (.symbol g) = .gt
  · refine ⟨.exhausted, ?_, ⟨_, meets.visits.peek_eq, by rw [root]; rfl⟩, fun k hk => ?_⟩
    · simp only [comparing, meets.visits.peek_eq, root, if_neg differ, if_pos behind]
      rfl
    · rw [Head.order_gt_iff] at behind
      have later : (Head.symbol g).order k = .lt := by
        rcases hk with rfl | hk
        · exact behind
        · exact Head.order_lt_trans behind hk
      exact agrees.blocked_of_order_lt rfl later
  · refine ⟨.skip, ?_, agrees.blocked_of_ne rfl rfl differ⟩
    simp only [comparing, meets.visits.peek_eq, root, if_neg differ, if_neg behind]
    rfl

end Comparing

theorem comparing_fits (tracks : Tracks σ query path (missing + 1) frames .compare τ)
    (plainHead : h.isBinder = false) :
    ∃ passage, comparing τ frames h = .ok passage ∧
      passage.Fits σ query path missing frames h τ := by
  obtain ⟨s, rest, reached, skipped, meets⟩ := tracks.exists_meets
  cases h with
  | binder v => cases plainHead
  | var v => exact comparing_var_fits tracks meets v
  | symbol f =>
      rcases Subterm.head_cases meets.bare with ⟨v, root⟩ | ⟨g, root⟩
      · exact comparing_open_fits tracks meets root plainHead
      · by_cases same : f = g
        · subst same
          exact comparing_same_fits tracks meets root
        · exact comparing_other_fits meets root same

/-- Passing a node comes to what it may come to. -/
theorem through_fits (tracks : Tracks σ query path (missing + 1) frames descent τ)
    (plainHead : h.isBinder = false) :
    ∃ passage, through τ frames descent h = .ok passage ∧
      passage.Fits σ query path missing frames h τ := by
  cases descent with
  | compare => exact comparing_fits tracks plainHead
  | collect v heads lacking => exact collecting_fits tracks plainHead frames

end Passage

end SaturationCore
