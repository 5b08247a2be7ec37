/-
# Descent ends, and ground terms are comparable

When every head weighs something, a term has no more heads than it weighs. Going down, terms
do not get heavier and take no variables in, so all terms below a given one are spelled with
finitely many heads and within a bounded length. There are finitely many such spellings, and
in a strict comparison a descent never comes back to one.

The spellings of two different ground terms differ at a first place, since neither goes on
where the other stops, and there two different symbols of the signature stand. Of these one
has the greater precedence, so if the weights do not decide, the first difference does.
-/
import Mathlib.Data.Set.Finite.List
import Mathlib.Order.Monotone.Basic
import SaturationCore.Proofs.WellFormed
import SaturationCore.Proofs.Order.KnuthBendix

namespace SaturationCore

/-! ## Finitely many spellings -/

/-- A signature declares finitely many symbols. -/
theorem Signature.finite_declares (σ : Signature) : {s | σ.Declares s}.Finite := by
  refine (σ.declarations.toList.map (·.symbol)).finite_toSet.subset fun s declared => ?_
  obtain ⟨d, entry, rfl⟩ := declares_iff.1 declared
  exact List.mem_map_of_mem (Array.mem_toList_iff.2 (Array.mem_of_getElem? entry))

/-- There are finitely many lists of bounded length over a finite set. -/
theorem finite_lists {α : Type} {heads : Set α} (finite : heads.Finite) (n : Nat) :
    {hs : List α | hs.length ≤ n ∧ ∀ h ∈ hs, h ∈ heads}.Finite := by
  have := finite.to_subtype
  refine ((List.finite_length_le heads n).image (List.map Subtype.val)).subset ?_
  rintro hs ⟨short, inside⟩
  exact ⟨hs.attachWith (· ∈ heads) inside, List.length_attachWith.trans_le short,
    List.attachWith_map_subtype_val inside⟩

/-- A sequence in a finite set does not go down for ever. -/
theorem Comparison.Strict.exists_not_greater {α : Type} {cmp : Comparison α} (strict : cmp.Strict)
    {s : Set α} (finite : s.Finite) {as : ℕ → α} (inside : ∀ i, as i ∈ s) :
    ∃ i, cmp (as i) (as (i + 1)) ≠ .greater := by
  by_contra! descends
  have transitive : IsTrans α fun a b => cmp a b = .greater := ⟨strict.trans⟩
  have later {i j : ℕ} (before : i < j) : cmp (as i) (as j) = .greater :=
    Nat.rel_of_forall_rel_succ_of_lt (fun a b => cmp a b = .greater) descends before
  have injective : Function.Injective as := by
    intro i j same
    by_contra apart
    obtain before | before := Nat.lt_or_gt_of_ne apart
    · exact strict.not_greater_self (as i) ((congrArg (cmp (as i)) same).trans (later before))
    · exact strict.not_greater_self (as j) ((congrArg (cmp (as j)) same.symm).trans (later before))
  exact Set.infinite_of_injective_forall_mem injective inside finite

namespace Term

variable {t : Term} {h : Head}

/-- No variable occurs in the term. -/
def Ground (t : Term) : Prop :=
  ∀ v, t.mentions v = false

theorem not_isBinder_of_mem (plain : t.isQuantifierFree = true) (hh : h ∈ t.spelling) :
    h.isBinder = false := by
  simp only [isQuantifierFree, Bool.not_eq_true', List.any_eq_false, Bool.not_eq_true] at plain
  exact plain h hh

/-- A term without quantifiers is spelled with variables and symbols. -/
theorem head_cases (plain : t.isQuantifierFree = true) (hh : h ∈ t.spelling) :
    (∃ v, h = .var v) ∨ ∃ s, h = .symbol s := by
  cases h with
  | var v => exact .inl ⟨v, rfl⟩
  | symbol s => exact .inr ⟨s, rfl⟩
  | binder v => cases not_isBinder_of_mem plain hh

theorem Ground.exists_symbol (ground : t.Ground) (plain : t.isQuantifierFree = true)
    (hh : h ∈ t.spelling) : ∃ s, h = .symbol s := by
  refine (head_cases plain hh).resolve_left ?_
  rintro ⟨v, rfl⟩
  have absent := ground v
  rw [mentions_iff_mem.2 hh] at absent
  cases absent

end Term

namespace KnuthBendix

variable {k : KnuthBendix} {σ : Signature} {alphabet : Set Symbol} {as bs hs : List Head} {n : Nat}

/-! ## Descent -/

/-- Variables and declared symbols weigh more than nothing. -/
structure Positive (k : KnuthBendix) (alphabet : Set Symbol) : Prop where
  leastWeight_pos : 0 < k.leastWeight
  symbolWeight_pos : ∀ s ∈ alphabet, s.isDeclared = true → 0 < k.symbolWeight s

theorem Positive.headWeight_pos (positive : k.Positive alphabet) {h : Head}
    (known : ∀ s, h = .symbol s → s ∈ alphabet) : 0 < k.headWeight h := by
  cases h with
  | var v => exact positive.leastWeight_pos
  | binder v => exact Int.one_pos
  | symbol s =>
      cases declared : s.isDeclared with
      | true => exact positive.symbolWeight_pos s (known s rfl) declared
      | false => simp [headWeight, symbolWeight, declared]

/-- Where every head weighs something, there are no more heads than they weigh. -/
theorem length_le_total (each : ∀ h ∈ hs, 0 < k.headWeight h) : (hs.length : Int) ≤ k.total hs := by
  induction hs with
  | nil => exact Int.le_refl 0
  | cons h hs ih =>
      rw [List.forall_mem_cons] at each
      have rest := ih each.2
      have first := each.1
      rw [List.length_cons, total]
      omega

theorem Positive.length_le_total (positive : k.Positive alphabet) {t : Term}
    (known : t.Over alphabet) : (t.spelling.length : Int) ≤ k.total t.spelling := by
  refine KnuthBendix.length_le_total fun h hh => positive.headWeight_pos ?_
  rintro s rfl
  exact known.symbolsOf_subset hh

/-- The heads that a term below `as` may be spelled with. -/
def headsBelow (alphabet : Set Symbol) (as : List Head) : Set Head :=
  {h | h ∈ as} ∪ Head.symbol '' alphabet

/-- A term below another is no longer than that is heavy, and spelled with symbols and the heads of
the other. -/
theorem Positive.below (positive : k.Positive alphabet) {t : Term} (known : t.Over alphabet)
    (plain : t.isQuantifierFree = true) (below : k.outcome as t.spelling = .greater) :
    t.spelling.length ≤ (k.total as).toNat ∧ ∀ h ∈ t.spelling, h ∈ headsBelow alphabet as := by
  rw [outcome_eq_greater_iff] at below
  obtain ⟨covers, weighs⟩ := below
  constructor
  · have long := positive.length_le_total known
    omega
  · intro h hh
    obtain ⟨v, rfl⟩ | ⟨s, rfl⟩ := Term.head_cases plain hh
    · exact .inl (covers.mem hh)
    · exact .inr (Set.mem_image_of_mem _ (known.symbolsOf_subset hh))

/-- Where variables and symbols weigh something, no sequence of terms goes down for ever. -/
theorem Positive.exists_not_greater (positive : k.Positive σ.Declares) {t : ℕ → Term}
    (known : ∀ i, (t i).Over σ.Declares) (plain : ∀ i, (t i).isQuantifierFree = true) :
    ∃ i, k.compare (t i) (t (i + 1)) ≠ .ok .greater := by
  by_contra! descends
  have step (i : ℕ) : k.outcome (t i).spelling (t (i + 1)).spelling = .greater :=
    ((k.yields_compare _ _).eq_of_eq_ok (descends i)).symm
  have below (i : ℕ) : k.outcome (t 0).spelling (t (i + 1)).spelling = .greater := by
    induction i with
    | zero => exact step 0
    | succ i ih => exact k.outcome_strict.trans _ _ _ ih (step (i + 1))
  have heads : (headsBelow σ.Declares (t 0).spelling).Finite :=
    (t 0).spelling.finite_toSet.union (σ.finite_declares.image _)
  obtain ⟨i, stops⟩ := k.outcome_strict.exists_not_greater
    (finite_lists heads (k.total (t 0).spelling).toNat)
    fun i => positive.below (known (i + 1)) (plain (i + 1)) (below i)
  exact stops (step (i + 1))

/-! ## Ground terms -/

/-- Of two symbols with different identifiers one has the greater precedence. -/
theorem precedence_decides (k : KnuthBendix) {s t : Symbol} (apart : s.id ≠ t.id) :
    k.precedence s t = .gt ∨ k.precedence t s = .gt := by
  rw [precedence_eq_gt_iff, precedence_eq_gt_iff]
  omega

/-- The first difference of complete spellings with symbols only decides. -/
theorem lexicographic_decides (k : KnuthBendix) (spellsA : Spells n as) (spellsB : Spells n bs)
    (declaredA : ∀ h ∈ as, ∃ s, h = .symbol s ∧ σ.Declares s)
    (declaredB : ∀ h ∈ bs, ∃ s, h = .symbol s ∧ σ.Declares s) (apart : as ≠ bs) :
    k.lexicographic as bs = .greater ∨ k.lexicographic bs as = .greater := by
  induction spellsA generalizing bs with
  | nil => exact absurd spellsB.eq_nil.symm apart
  | @cons n g as _ ih =>
      cases spellsB with
      | @cons _ h bs spellsB =>
          rw [List.forall_mem_cons] at declaredA declaredB
          rw [lexicographic_cons, lexicographic_cons]
          by_cases same : g = h
          · subst same
            rw [if_pos rfl, if_pos rfl]
            exact ih spellsB declaredA.2 declaredB.2 fun rest => apart (congrArg (g :: ·) rest)
          · rw [if_neg same, if_neg (Ne.symm same)]
            obtain ⟨s, rfl, hs⟩ := declaredA.1
            obtain ⟨t, rfl, ht⟩ := declaredB.1
            have ids : s.id ≠ t.id := fun equal =>
              same (congrArg Head.symbol (hs.eq_of_id_eq ht equal))
            simp only [compareHeads_eq_greater_iff]
            refine (k.precedence_decides ids).imp ?_ ?_
            · exact fun first => ⟨s, t, rfl, rfl, first⟩
            · exact fun second => ⟨t, s, rfl, rfl, second⟩

/-- Symbols cover no variables, and so all that has none. -/
theorem covers_of_symbols (symbols : ∀ h ∈ bs, ∃ s, h = .symbol s) : Covers as bs := by
  intro v
  have absent : .var v ∉ bs := fun hv => by simpa using symbols _ hv
  rw [List.count_eq_zero_of_not_mem absent]
  exact Nat.zero_le _

/-- Of two different complete spellings with symbols only one is the greater. -/
theorem outcome_decides (k : KnuthBendix) (spellsA : Spells n as) (spellsB : Spells n bs)
    (declaredA : ∀ h ∈ as, ∃ s, h = .symbol s ∧ σ.Declares s)
    (declaredB : ∀ h ∈ bs, ∃ s, h = .symbol s ∧ σ.Declares s) (apart : as ≠ bs) :
    k.outcome as bs = .greater ∨ k.outcome bs as = .greater := by
  have symbols {hs : List Head} (declared : ∀ h ∈ hs, ∃ s, h = .symbol s ∧ σ.Declares s) :
      ∀ h ∈ hs, ∃ s, h = .symbol s := fun h hh => (declared h hh).imp fun _ => And.left
  rw [outcome_eq_greater_iff, outcome_eq_greater_iff]
  simp only [covers_of_symbols (symbols declaredA), covers_of_symbols (symbols declaredB), true_and]
  obtain lighter | level | heavier := lt_trichotomy (k.total as) (k.total bs)
  · exact .inr (.inl lighter)
  · exact (k.lexicographic_decides spellsA spellsB declaredA declaredB apart).imp
      (fun first => .inr ⟨level.symm, first⟩) (fun second => .inr ⟨level, second⟩)
  · exact .inl (.inl heavier)

/-- Two different ground terms are comparable unless a weight leaves its range. -/
theorem compare_decides {a b : Term} (wfA : a.WellFormed σ) (wfB : b.WellFormed σ)
    (plainA : a.isQuantifierFree = true) (plainB : b.isQuantifierFree = true) (groundA : a.Ground)
    (groundB : b.Ground) (apart : a ≠ b) (fits : k.compare a b ≠ .error .overflow) :
    k.compare a b = .ok .greater ∨ k.compare a b = .ok .smaller := by
  have declared {t : Term} (wf : t.WellFormed σ) (plain : t.isQuantifierFree = true)
      (ground : t.Ground) : ∀ h ∈ t.spelling, ∃ s, h = .symbol s ∧ σ.Declares s := by
    intro h hh
    obtain ⟨s, rfl⟩ := ground.exists_symbol plain hh
    exact ⟨s, rfl, (wf.fits_of_mem hh).choose_spec.2⟩
  rw [(k.yields_compare a b).eq_ok fits, Except.ok.injEq, Except.ok.injEq,
    k.outcome_strict.smaller_iff]
  exact k.outcome_decides wfA.spells wfB.spells (declared wfA plainA groundA)
    (declared wfB plainB groundB) (mt (wfA.spelling_eq_iff wfB).1 apart)

/-- Where variables and all symbols of a signature weigh something, no sequence of terms goes
down for ever, and of two different ground terms one is the greater unless a weight leaves its
range. -/
theorem compare_terminates_and_decides (positive : k.Positive σ.Declares) :
    (∀ t : ℕ → Term, (∀ i, (t i).Over σ.Declares ∧ (t i).isQuantifierFree = true) →
      ∃ i, k.compare (t i) (t (i + 1)) ≠ .ok .greater) ∧
    ∀ a b : Term, a.WellFormed σ → b.WellFormed σ → a.isQuantifierFree = true →
      b.isQuantifierFree = true → a.Ground → b.Ground → a ≠ b →
      k.compare a b ≠ .error .overflow →
      k.compare a b = .ok .greater ∨ k.compare a b = .ok .smaller := by
  constructor
  · intro t terms
    exact positive.exists_not_greater (fun i => (terms i).1) fun i => (terms i).2
  · intro a b wfA wfB plainA plainB groundA groundB apart fits
    exact compare_decides wfA wfB plainA plainB groundA groundB apart fits

/-- The descent from `f(X0)` through `g(X0)` ends at `X0`. Of `g(g(a))` and `f(a)`, which weigh the
same, the first has the later declared symbol at its root. -/
theorem compare_terminates_and_decides_at_level :
    let functions := ((Signature.initial.internFunction "f" 1).2.internFunction "g" 1).2
    let σ := (functions.internConstant "a").2
    let k : KnuthBendix := ⟨[(8, 2)], [(10, 1)], 1⟩
    let f (t : Term) : Term := .app .function ⟨8, .function, 1⟩ [t]
    let g (t : Term) : Term := .app .function ⟨9, .function, 1⟩ [t]
    let a : Term := .app .constant ⟨10, .constant, 0⟩ []
    let x : Term := .var ⟨0, 0⟩
    let t (i : ℕ) : Term := if i = 0 then f x else if i = 1 then g x else x
    (k.Positive σ.Declares ∧ ∀ i, (t i).Over σ.Declares ∧ (t i).isQuantifierFree = true) ∧
      (k.compare (t 0) (t 1) = .ok .greater ∧ k.compare (t 1) (t 2) = .ok .greater) ∧
      (∃ i, k.compare (t i) (t (i + 1)) ≠ .ok .greater) ∧
      ((g (g a)).WellFormed σ ∧ (f a).WellFormed σ) ∧
      k.compare (g (g a)) (f a) = .ok .greater := by
  intro functions σ k f g a x t
  have positive : k.Positive σ.Declares := by
    refine ⟨by decide, fun s known _ => ?_⟩
    have entries : ∀ d ∈ σ.declarations, 0 < k.symbolWeight d.symbol := by decide +kernel
    obtain ⟨d, entry, rfl⟩ := Signature.declares_iff.1 known
    exact entries d (Array.mem_of_getElem? entry)
  have terms (i : ℕ) : (t i).Over σ.Declares ∧ (t i).isQuantifierFree = true := by
    have fx : (f x).WellFormed σ := by decide +kernel
    have gx : (g x).WellFormed σ := by decide +kernel
    simp only [t]
    split_ifs
    · exact ⟨fx.over, by decide +kernel⟩
    · exact ⟨gx.over, by decide +kernel⟩
    · exact ⟨.var _, by decide +kernel⟩
  have first : k.compare (t 0) (t 1) = .ok .greater := by decide +kernel
  have second : k.compare (t 1) (t 2) = .ok .greater := by decide +kernel
  have wfG : (g (g a)).WellFormed σ := by decide +kernel
  have wfF : (f a).WellFormed σ := by decide +kernel
  have ground {t : Term} (symbols : ∀ h ∈ t.spelling, h.isVariable = false) : t.Ground := by
    intro v
    rw [Bool.eq_false_iff]
    intro inside
    cases symbols _ (Term.mentions_iff_mem.1 inside)
  have groundG : (g (g a)).Ground := ground (by decide +kernel)
  have groundF : (f a).Ground := ground (by decide +kernel)
  have fits : k.compare (g (g a)) (f a) ≠ .error .overflow := by decide +kernel
  have smaller : k.compare (g (g a)) (f a) ≠ .ok .smaller := by decide +kernel
  obtain ⟨descent, decides⟩ := compare_terminates_and_decides positive
  exact ⟨⟨positive, terms⟩, ⟨first, second⟩, descent t terms, ⟨wfG, wfF⟩,
    (decides _ _ wfG wfF (by decide +kernel) (by decide +kernel) groundG groundF (by decide +kernel)
      fits).resolve_right smaller⟩

end KnuthBendix

end SaturationCore
