/-
# Reading ledgers without cycles

In a ledger without cycles, reading is one function with one equation: a bound
variable reads as its instance does, and any other head as itself. Dereferencing,
the occurs check and the spelled instance are all that function, and the reading
of every variable together is a substitution that solves the ledger. It is the
most general one, since every solution sees a spelling as it sees its reading.
-/
import SaturationCore.Proofs.Ledger.Acyclic

namespace SaturationCore

namespace Unifier

variable {σ : Unifier} {θ : Substitution}

/-- What a spelling reads as. -/
def read (σ : Unifier) (hs : List Head) : List Head :=
  hs.flatMap (σ.expandWithin σ.size)

theorem instanceSpelling_eq_read (σ : Unifier) (s : Subterm) :
    σ.instanceSpelling s = σ.read s.spelling := rfl

@[simp]
theorem read_append (σ : Unifier) (as bs : List Head) :
    σ.read (as ++ bs) = σ.read as ++ σ.read bs :=
  List.flatMap_append

theorem read_cons (σ : Unifier) (h : Head) (hs : List Head) :
    σ.read (h :: hs) = σ.read [h] ++ σ.read hs :=
  σ.read_append [h] hs

theorem read_eq_flatMap (σ : Unifier) (hs : List Head) :
    σ.read hs = hs.flatMap fun h => σ.read [h] := by
  induction hs with
  | nil => rfl
  | cons h hs ih => rw [read_cons, ih, List.flatMap_cons]

theorem mem_read_iff {k : Head} {hs : List Head} :
    k ∈ σ.read hs ↔ ∃ h ∈ hs, k ∈ σ.read [h] := by
  rw [read_eq_flatMap, List.mem_flatMap]

theorem read_subset {as bs : List Head} (h : as ⊆ bs) : σ.read as ⊆ σ.read bs := by
  intro k hk
  obtain ⟨x, hx, hk⟩ := mem_read_iff.1 hk
  exact mem_read_iff.2 ⟨x, h hx, hk⟩

theorem read_subset_of_mem {h : Head} {hs : List Head} (hh : h ∈ hs) : σ.read [h] ⊆ σ.read hs :=
  fun _ hk => mem_read_iff.2 ⟨h, hh, hk⟩

/-- A head is free when it is no variable or one without an instance. -/
def Free (σ : Unifier) (h : Head) : Prop :=
  h.asVariable.bind σ.get? = none

theorem free_var_iff {v : Variable} : σ.Free (.var v) ↔ σ.get? v = none :=
  Iff.rfl

theorem free_of_not_isVariable {h : Head} (rigid : h.isVariable = false) : σ.Free h := by
  cases h with
  | var v => cases rigid
  | symbol s => rfl
  | binder v => rfl

theorem free_or_bound (σ : Unifier) (h : Head) :
    σ.Free h ∨ ∃ v t, h = .var v ∧ σ.get? v = some t := by
  cases h with
  | var v =>
      cases bound : σ.get? v with
      | none => exact .inl bound
      | some t => exact .inr ⟨v, t, rfl, bound⟩
  | symbol s => exact .inl rfl
  | binder v => exact .inl rfl

theorem expandWithin_of_free {h : Head} (free : σ.Free h) (depth : Nat) :
    σ.expandWithin depth h = [h] := by
  cases depth with
  | zero => rfl
  | succ depth => rw [expandWithin, free]

theorem expandWithin_of_bound {v : Variable} {t : Subterm} (bound : σ.get? v = some t)
    (depth : Nat) :
    σ.expandWithin (depth + 1) (.var v) = t.spelling.flatMap (σ.expandWithin depth) := by
  rw [expandWithin, Head.asVariable, Option.bind_some, bound]

theorem read_of_free {h : Head} (free : σ.Free h) : σ.read [h] = [h] := by
  rw [read, List.flatMap_singleton, expandWithin_of_free free]

namespace Acyclic

/-- Going deeper than the rank of a variable shows nothing more. -/
theorem expandWithin_eq_read (hσ : σ.Acyclic) (v : Variable) {depth : Nat}
    (deep : σ.rank v ≤ depth) : σ.expandWithin depth (.var v) = σ.read [.var v] := by
  induction v using hσ.induction generalizing depth with
  | step v ih =>
      rcases σ.free_or_bound (.var v) with free | ⟨_, t, ⟨⟩, bound⟩
      · rw [expandWithin_of_free free, read_of_free free]
      · have positive := rank_pos bound
        have within := σ.rank_le_size v
        obtain ⟨d, rfl⟩ : ∃ d, depth = d + 1 := ⟨depth - 1, by omega⟩
        obtain ⟨e, he⟩ : ∃ e, σ.size = e + 1 := ⟨σ.size - 1, by omega⟩
        rw [read, List.flatMap_singleton, he, expandWithin_of_bound bound,
          expandWithin_of_bound bound]
        apply List.flatMap_congr
        intro h hh
        rcases σ.free_or_bound h with free | ⟨w, _, rfl, _⟩
        · rw [expandWithin_of_free free, expandWithin_of_free free]
        · have lower := hσ.rank_lt ⟨t, bound, hh⟩
          rw [ih w ⟨t, bound, hh⟩ (by omega), ih w ⟨t, bound, hh⟩ (by omega)]

theorem read_of_bound (hσ : σ.Acyclic) {v : Variable} {t : Subterm} (bound : σ.get? v = some t) :
    σ.read [.var v] = σ.read t.spelling := by
  rw [← hσ.expandWithin_eq_read v (Nat.le_succ_of_le (σ.rank_le_size v)),
    expandWithin_of_bound bound, read]

/-- A head that shows in a reading is free, and it stands in the spelling or in an instance. -/
theorem mem_read_cases (hσ : σ.Acyclic) {hs : List Head} {k : Head} (hk : k ∈ σ.read hs) :
    σ.Free k ∧ (k ∈ hs ∨ ∃ v t, σ.get? v = some t ∧ k ∈ t.spelling) := by
  have lift : ∀ hs, (∀ w, .var w ∈ hs → k ∈ σ.read [.var w] →
      σ.Free k ∧ (k = .var w ∨ ∃ v t, σ.get? v = some t ∧ k ∈ t.spelling)) →
      k ∈ σ.read hs → σ.Free k ∧ (k ∈ hs ∨ ∃ v t, σ.get? v = some t ∧ k ∈ t.spelling) := by
    intro hs each hk
    obtain ⟨h, hh, hk⟩ := mem_read_iff.1 hk
    rcases σ.free_or_bound h with free | ⟨w, _, rfl, _⟩
    · rw [read_of_free free, List.mem_singleton] at hk
      rw [hk]
      exact ⟨free, .inl hh⟩
    · obtain ⟨free, source⟩ := each w hh hk
      refine ⟨free, source.imp_left fun same => ?_⟩
      rwa [same]
  have onVariable : ∀ v, k ∈ σ.read [.var v] →
      σ.Free k ∧ (k = .var v ∨ ∃ v t, σ.get? v = some t ∧ k ∈ t.spelling) := by
    intro v
    induction v using hσ.induction with
    | step v ih =>
        intro hk
        rcases σ.free_or_bound (.var v) with free | ⟨_, t, ⟨⟩, bound⟩
        · rw [read_of_free free, List.mem_singleton] at hk
          rw [hk]
          exact ⟨free, .inl rfl⟩
        · rw [hσ.read_of_bound bound] at hk
          obtain ⟨free, source⟩ := lift t.spelling (fun w hw => ih w ⟨t, bound, hw⟩) hk
          exact ⟨free, .inr (source.elim (fun inside => ⟨v, t, bound, inside⟩) id)⟩
  exact lift hs (fun w _ => onVariable w) hk

/-- No variable that shows in a reading is bound. -/
theorem free_of_mem_read (hσ : σ.Acyclic) {hs : List Head} {k : Head} (hk : k ∈ σ.read hs) :
    σ.Free k :=
  (hσ.mem_read_cases hk).1

/-- What holds of a spelling and of all instances holds of the reading. -/
theorem forall_mem_read (hσ : σ.Acyclic) {good : Head → Prop}
    (instances : ∀ v t, σ.get? v = some t → ∀ h ∈ t.spelling, good h) {hs : List Head}
    (here : ∀ h ∈ hs, good h) : ∀ k ∈ σ.read hs, good k := by
  intro k hk
  rcases (hσ.mem_read_cases hk).2 with outside | ⟨v, t, bound, inside⟩
  · exact here k outside
  · exact instances v t bound k inside

/-- Reading again changes nothing. -/
theorem read_read (hσ : σ.Acyclic) (hs : List Head) : σ.read (σ.read hs) = σ.read hs := by
  rw [read_eq_flatMap]
  calc (σ.read hs).flatMap (fun h => σ.read [h])
      = (σ.read hs).flatMap (fun h => [h]) :=
        List.flatMap_congr fun h hh => read_of_free (hσ.free_of_mem_read hh)
    _ = σ.read hs := List.flatMap_singleton' _

/-- A solution sees a spelling as it sees its reading. -/
theorem instantiate_read (hσ : σ.Acyclic) (hθ : θ.Solves σ) (hs : List Head) :
    θ.instantiate (σ.read hs) = θ.instantiate hs := by
  have lift : ∀ hs, (∀ h ∈ hs, θ.instantiate (σ.read [h]) = θ.onHead h) →
      θ.instantiate (σ.read hs) = θ.instantiate hs := by
    intro hs each
    rw [read_eq_flatMap, Substitution.instantiate, List.flatMap_assoc]
    exact List.flatMap_congr each
  have onVariable : ∀ v, θ.instantiate (σ.read [.var v]) = θ.onHead (.var v) := by
    intro v
    induction v using hσ.induction with
    | step v ih =>
        rcases σ.free_or_bound (.var v) with free | ⟨_, t, ⟨⟩, bound⟩
        · rw [read_of_free free, θ.instantiate_var]
          rfl
        · rw [hσ.read_of_bound bound, lift t.spelling, ← hθ v t bound]
          · rfl
          · intro h hh
            rcases σ.free_or_bound h with free | ⟨w, _, rfl, _⟩
            · rw [read_of_free free]
              exact List.append_nil _
            · exact ih w ⟨t, bound, hh⟩
  apply lift
  intro h _
  rcases σ.free_or_bound h with free | ⟨w, _, rfl, _⟩
  · rw [read_of_free free]
    exact List.append_nil _
  · exact onVariable w

theorem spells_read_var (hσ : σ.Acyclic) (v : Variable) : Spells 1 (σ.read [.var v]) := by
  induction v using hσ.induction with
  | step v ih =>
      have lift : ∀ {n hs}, Spells n hs → (∀ w, .var w ∈ hs → Spells 1 (σ.read [.var w])) →
          Spells n (σ.read hs) := by
        intro n hs spells
        induction spells with
        | nil => exact fun _ => .nil
        | @cons n h rest _ step =>
            intro each
            have tail := step fun w hw => each w (List.mem_cons_of_mem h hw)
            cases h with
            | var w =>
                rw [read_cons, Nat.add_comm]
                exact (each w List.mem_cons_self).append tail
            | symbol s =>
                rw [read_cons, read_of_free (free_of_not_isVariable rfl)]
                exact tail.cons
            | binder w =>
                rw [read_cons, read_of_free (free_of_not_isVariable rfl)]
                exact tail.cons
      rcases σ.free_or_bound (.var v) with free | ⟨_, t, ⟨⟩, bound⟩
      · rw [read_of_free free]
        exact .cons .nil
      · rw [hσ.read_of_bound bound]
        exact lift t.spells fun w hw => ih w ⟨t, bound, hw⟩

/-- The readings of all variables together are a substitution. -/
theorem exists_reading (hσ : σ.Acyclic) :
    ∃ ρ : Substitution, ρ.Solves σ ∧ ∀ hs, ρ.instantiate hs = σ.read hs := by
  choose ρ _ hρ using fun v => Flatterm.ofSpelling_of_spells (hσ.spells_read_var v)
  have onHead : ∀ h, Substitution.onHead ρ h = σ.read [h] := by
    intro h
    cases h with
    | var v => exact hρ v
    | symbol s => exact (read_of_free (free_of_not_isVariable rfl)).symm
    | binder v => exact (read_of_free (free_of_not_isVariable rfl)).symm
  have onSpelling : ∀ hs, Substitution.instantiate ρ hs = σ.read hs := by
    intro hs
    rw [read_eq_flatMap]
    exact List.flatMap_congr fun h _ => onHead h
  refine ⟨ρ, ?_, onSpelling⟩
  intro v t bound
  rw [hρ, onSpelling, hσ.read_of_bound bound]

theorem spells_read (hσ : σ.Acyclic) {n : Nat} {hs : List Head} (spells : Spells n hs) :
    Spells n (σ.read hs) := by
  obtain ⟨ρ, -, hρ⟩ := hσ.exists_reading
  rw [← hρ]
  exact Substitution.spells_instantiate spells

end Acyclic

/-! ## Dereferencing -/

/-- `s` is a variable whose instance is `t`. -/
def Follows (σ : Unifier) (s t : Subterm) : Prop :=
  s.asVariable.bind σ.get? = some t

theorem Follows.spelling_eq {s t : Subterm} (h : σ.Follows s t) :
    ∃ v, s.spelling = [.var v] ∧ σ.get? v = some t := by
  obtain ⟨v, isVar, bound⟩ := Option.bind_eq_some_iff.1 h
  exact ⟨v, Subterm.spelling_of_head_eq_var (Subterm.asVariable_eq_some.1 isVar), bound⟩

theorem derefWithin_reaches (σ : Unifier) (steps : Nat) (s : Subterm) :
    Relation.ReflTransGen σ.Follows s (σ.derefWithin steps s) := by
  induction steps generalizing s with
  | zero => exact .refl
  | succ steps ih =>
      rw [derefWithin]
      split
      · rename_i t h
        exact .head h (ih t)
      · exact .refl

theorem deref_reaches (σ : Unifier) (s : Subterm) : Relation.ReflTransGen σ.Follows s (σ.deref s) :=
  σ.derefWithin_reaches σ.size s

theorem deref_of_free {s : Subterm} (free : σ.Free s.head) : σ.deref s = s := by
  rw [deref]
  cases σ.size with
  | zero => rfl
  | succ steps =>
      have stays : s.asVariable.bind σ.get? = none := free
      rw [derefWithin, stays]

theorem deref_eq_or_bound (σ : Unifier) (s : Subterm) :
    σ.deref s = s ∨ ∃ v, σ.get? v = some (σ.deref s) := by
  rcases Relation.ReflTransGen.cases_tail (σ.deref_reaches s) with same | ⟨t, _, last⟩
  · exact .inl same
  · obtain ⟨v, -, bound⟩ := last.spelling_eq
    exact .inr ⟨v, bound⟩

theorem instantiate_deref (hθ : θ.Solves σ) (s : Subterm) :
    θ.instantiate (σ.deref s).spelling = θ.instantiate s.spelling := by
  have path := σ.deref_reaches s
  generalize σ.deref s = reached at path
  induction path with
  | refl => rfl
  | tail _ step ih =>
      obtain ⟨v, spelled, bound⟩ := step.spelling_eq
      rw [← ih, spelled, θ.instantiate_var, hθ v _ bound]

namespace Acyclic

theorem read_deref (hσ : σ.Acyclic) (s : Subterm) :
    σ.read (σ.deref s).spelling = σ.read s.spelling := by
  have path := σ.deref_reaches s
  generalize σ.deref s = reached at path
  induction path with
  | refl => rfl
  | tail _ step ih =>
      obtain ⟨v, spelled, bound⟩ := step.spelling_eq
      rw [← ih, spelled, hσ.read_of_bound bound]

/-- Dereferencing comes to an end: what it answers is no bound variable. -/
theorem free_deref (hσ : σ.Acyclic) (s : Subterm) : σ.Free (σ.deref s).head := by
  have enough : ∀ steps s, (∀ v, s.head = .var v → σ.rank v ≤ steps) →
      σ.Free (σ.derefWithin steps s).head := by
    intro steps
    induction steps with
    | zero =>
        intro s low
        rcases σ.free_or_bound s.head with free | ⟨v, t, head, bound⟩
        · exact free
        · exact absurd (low v head) (Nat.not_le.2 (rank_pos bound))
    | succ steps ih =>
        intro s low
        rw [derefWithin]
        split
        · rename_i t follows
          apply ih
          intro w hw
          obtain ⟨v, spelled, bound⟩ := Follows.spelling_eq follows
          have head : s.head = .var v := by
            have root := s.head_mem_spelling
            rwa [spelled, List.mem_singleton] at root
          have lower := hσ.rank_lt ⟨t, bound, hw ▸ t.head_mem_spelling⟩
          have := low v head
          omega
        · rename_i stays
          exact stays
  exact enough σ.size s fun v _ => σ.rank_le_size v

/-- An instance is the head that the bindings lead to, followed by the instances of the
arguments. -/
theorem instanceSpelling_eq (hσ : σ.Acyclic) (s : Subterm) :
    σ.instanceSpelling s = (σ.deref s).head :: (σ.deref s).args.flatMap σ.instanceSpelling := by
  rw [instanceSpelling_eq_read, ← hσ.read_deref, Subterm.spelling_eq, read_cons,
    read_of_free (hσ.free_deref s), List.singleton_append, read, List.flatMap_assoc]
  rfl

end Acyclic

/-! ## The occurs check -/

namespace Acyclic

theorem occursWithin_iff (hσ : σ.Acyclic) (v w : Variable) {depth : Nat}
    (deep : σ.rank w ≤ depth) :
    σ.occursWithin v depth (.var w) = true ↔ .var v ∈ σ.read [.var w] := by
  induction w using hσ.induction generalizing depth with
  | step w ih =>
      rcases σ.free_or_bound (.var w) with free | ⟨_, t, ⟨⟩, bound⟩
      · have unbound : σ.get? w = none := free
        rw [read_of_free free, List.mem_singleton, Head.var.injEq]
        cases depth with
        | zero =>
            simp only [occursWithin, Bool.and_eq_true, beq_iff_eq, Head.var.injEq,
              Bool.not_eq_true']
            constructor
            · exact fun h => h.1.symm
            · rintro rfl
              exact ⟨rfl, by rw [Ledger.isBound, unbound]; rfl⟩
        | succ depth =>
            simp only [occursWithin, unbound, beq_iff_eq]
            exact eq_comm
      · have positive := rank_pos bound
        obtain ⟨d, rfl⟩ : ∃ d, depth = d + 1 := ⟨depth - 1, by omega⟩
        rw [occursWithin, bound, hσ.read_of_bound bound, mem_read_iff, List.any_eq_true]
        have each : ∀ h ∈ t.spelling, (σ.occursWithin v d h = true ↔ .var v ∈ σ.read [h]) := by
          intro h hh
          cases h with
          | var u =>
              have lower := hσ.rank_lt ⟨t, bound, hh⟩
              exact ih u ⟨t, bound, hh⟩ (by omega)
          | symbol s => cases d <;> simp [occursWithin, read_of_free (σ := σ) (h := .symbol s) rfl]
          | binder u => cases d <;> simp [occursWithin, read_of_free (σ := σ) (h := .binder u) rfl]
        constructor
        · rintro ⟨h, hh, shows⟩
          exact ⟨h, hh, (each h hh).1 shows⟩
        · rintro ⟨h, hh, shows⟩
          exact ⟨h, hh, (each h hh).2 shows⟩

/-- The occurs check looks for a variable in what a subterm reads as. -/
theorem occurs_iff (hσ : σ.Acyclic) (v : Variable) (s : Subterm) :
    σ.occurs v s = true ↔ .var v ∈ σ.read s.spelling := by
  rw [occurs, List.any_eq_true, mem_read_iff]
  have each : ∀ h, (σ.occursWithin v σ.size h = true ↔ .var v ∈ σ.read [h]) := by
    intro h
    cases h with
    | var u => exact hσ.occursWithin_iff v u (σ.rank_le_size u)
    | symbol s => cases σ.size <;> simp [occursWithin, read_of_free (σ := σ) (h := .symbol s) rfl]
    | binder u => cases σ.size <;> simp [occursWithin, read_of_free (σ := σ) (h := .binder u) rfl]
  simp only [each]

/-- A binding that passes the occurs check closes no cycle. -/
theorem push (hσ : σ.Acyclic) {v : Variable} {t : Subterm} (unbound : σ.get? v = none)
    (apart : .var v ∉ σ.read t.spelling) : Unifier.Acyclic (σ.push v t) := by
  classical
  -- Variables that lead to `v` are lifted above all that `t` leads to.
  let lift := fun u => if .var v ∈ σ.read [.var u] then σ.size + 1 else 0
  apply acyclic_of_rank fun u => σ.rank u + lift u
  rintro u w ⟨s, bound, hw⟩
  rw [Ledger.get?_push] at bound
  by_cases same : u = v
  · rw [if_pos same, Option.some.injEq] at bound
    subst same bound
    have above : lift u = σ.size + 1 := if_pos (by
      rw [read_of_free (free_var_iff.2 unbound)]
      exact List.mem_singleton_self _)
    have below : lift w = 0 := if_neg fun shows =>
      apart (read_subset_of_mem hw shows)
    have := σ.rank_le_size w
    omega
  · rw [if_neg same] at bound
    have lower := hσ.rank_lt ⟨s, bound, hw⟩
    have mono : lift w ≤ lift u := by
      by_cases shows : .var v ∈ σ.read [.var w]
      · have also : .var v ∈ σ.read [.var u] := by
          rw [hσ.read_of_bound bound]
          exact read_subset_of_mem hw shows
        simp only [lift, if_pos shows, if_pos also, Nat.le_refl]
      · simp only [lift, if_neg shows, Nat.zero_le]
    omega

/-- What shows under one more binding showed before, or shows in the new instance. -/
theorem mem_read_push (hσ : σ.Acyclic) {v : Variable} {t : Subterm} (unbound : σ.get? v = none)
    (apart : .var v ∉ σ.read t.spelling) {hs : List Head} {k : Head}
    (hk : k ∈ Unifier.read (σ.push v t) hs) : k ∈ σ.read hs ∨ k ∈ σ.read t.spelling := by
  have grown : Unifier.Acyclic (σ.push v t) := hσ.push unbound apart
  have lift : ∀ hs, (∀ w, .var w ∈ hs → k ∈ Unifier.read (σ.push v t) [.var w] →
      k ∈ σ.read [.var w] ∨ k ∈ σ.read t.spelling) →
      k ∈ Unifier.read (σ.push v t) hs → k ∈ σ.read hs ∨ k ∈ σ.read t.spelling := by
    intro hs each hk
    obtain ⟨h, hh, hk⟩ := mem_read_iff.1 hk
    cases h with
    | var w => exact (each w hh hk).imp_left fun before => read_subset_of_mem hh before
    | symbol s =>
        rw [read_of_free (free_of_not_isVariable rfl)] at hk
        exact .inl (read_subset_of_mem hh (by rwa [read_of_free (free_of_not_isVariable rfl)]))
    | binder w =>
        rw [read_of_free (free_of_not_isVariable rfl)] at hk
        exact .inl (read_subset_of_mem hh (by rwa [read_of_free (free_of_not_isVariable rfl)]))
  have onVariable : ∀ w, k ∈ Unifier.read (σ.push v t) [.var w] →
      k ∈ σ.read [.var w] ∨ k ∈ σ.read t.spelling := by
    intro w
    induction w using grown.induction with
    | step w ih =>
        intro hk
        rcases Unifier.free_or_bound (σ.push v t) (.var w) with free | ⟨_, s, ⟨⟩, bound⟩
        · have before : σ.get? w = none := by
            have now : (σ.push v t).get? w = none := free
            rw [Ledger.get?_push] at now
            split at now
            · cases now
            · exact now
          rw [read_of_free free] at hk
          exact .inl (by rwa [read_of_free (free_var_iff.2 before)])
        · rw [grown.read_of_bound bound] at hk
          have inside := lift s.spelling (fun u hu => ih u ⟨s, bound, hu⟩) hk
          rw [Ledger.get?_push] at bound
          split at bound
          · cases bound
            exact .inr (inside.elim id id)
          · rwa [hσ.read_of_bound bound]
  exact lift hs (fun w _ => onVariable w) hk

end Acyclic

end Unifier

end SaturationCore
