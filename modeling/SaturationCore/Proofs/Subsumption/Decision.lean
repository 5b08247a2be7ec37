/-
# The subsumption test decides subsumption

A clause subsumes another under a ledger when its literals, with their bound variables
replaced by their instances, are different literals of the other up to swapping the sides
of equations. The ways that the search tries are exactly those: a way that succeeds makes
two literals alike, and of literals that can be made alike some way succeeds. Since what a
way binds is forced, binding it never spoils a solution, so trying the ways literal by
literal finds a solution if there is any.
-/
import SaturationCore.Proofs.Matching.Tree
import SaturationCore.Proofs.Order.Literal
import SaturationCore.Proofs.Subsumption.Search

namespace SaturationCore

open TreeMatcher

namespace Literal

variable {sig : Signature} {l m : Literal} {ω : TreeMatcher}

/-- The literal with its bound variables replaced by their instances. -/
def under (l : Literal) (ω : TreeMatcher) : Literal :=
  { l with atom := ω.replace l.atom }

/-- The instance of one literal is the other, up to swapping the sides of an equation, and
neither has quantifiers. -/
structure Fits (ω : TreeMatcher) (l m : Literal) : Prop where
  alike : (l.under ω).Alike m
  plain : l.atom.isQuantifierFree = true
  plain' : m.atom.isQuantifierFree = true

theorem WellFormed.predicate?_under (wf : l.WellFormed sig) (ω : TreeMatcher) :
    (l.under ω).predicate? = l.predicate? := by
  obtain ⟨f, args, atom⟩ := wf.exists_atom
  rw [predicate?, predicate?, under, atom, replace_app]

theorem WellFormed.args_under (wf : l.WellFormed sig) (ω : TreeMatcher) :
    (l.under ω).args = l.args.map ω.replace := by
  obtain ⟨f, args, atom⟩ := wf.exists_atom
  rw [Literal.args, Literal.args, under, atom, replace_app, Term.args, Term.args]

/-- A well-formed equation has two sides. -/
theorem WellFormed.sides (wf : l.WellFormed sig) (grown : sig.Grown)
    (equation : l.isEquality = true) :
    ∃ s t, l.atom = .equality s t ∧ s.Consistent ∧ t.Consistent := by
  cases wf.shape grown with
  | equation _ wfS wfT => exact ⟨_, _, rfl, wfS.consistent, wfT.consistent⟩
  | other polarity other =>
      rw [isEquality, predicate?, Option.any_some, other] at equation
      cases equation

end Literal

theorem Term.isQuantifierFree_equality {s t : Term} :
    (Term.equality s t).isQuantifierFree = true ↔
      s.isQuantifierFree = true ∧ t.isQuantifierFree = true := by
  rw [isQuantifierFree_iff]
  simp [equality, head, args, Head.isBinder, Symbol.equality]

theorem Term.mentions_equality {s t : Term} {v : Variable} :
    (Term.equality s t).mentions v = true ↔ s.mentions v = true ∨ t.mentions v = true := by
  rw [mentions_eq_true_iff]
  simp [equality, head, args]

namespace Subsumption

variable {sig : Signature} {d : Clause} {l m : Literal} {ls : List Literal} {used : List Nat}
  {w : Way} {ws : List Way} {σ τ ω : TreeMatcher}

/-! ## Ways -/

namespace Way

/-- What the way asks of a literal besides matching: the polarity of its target, and to swap the
sides, to be an equation as well as the target. -/
def Suits (w : Way) (l : Literal) : Prop :=
  l.polarity = w.target.polarity ∧
    (w.swapped = true → l.isEquality = true ∧ l.predicate? = w.target.predicate?)

/-- The trees that are matched in the way. -/
def pairs (w : Way) (l : Literal) : List (Term × Term) :=
  if w.swapped then l.args.zip w.target.args.reverse else [(l.atom, w.target.atom)]

/-- To swap the sides, both literals have to be equations. -/
theorem Suits.equations (suits : w.Suits l) (swapped : w.swapped = true) (grown : sig.Grown)
    (wf : l.WellFormed sig) (wf' : w.target.WellFormed sig) :
    ∃ s t s' t', l.atom = .equality s t ∧ w.target.atom = .equality s' t' ∧
      (s.Consistent ∧ t.Consistent) ∧ (s'.Consistent ∧ t'.Consistent) ∧
      w.pairs l = [(s, t'), (t, s')] := by
  obtain ⟨equation, same⟩ := suits.2 swapped
  have equation' : w.target.isEquality = true := by
    rwa [Literal.isEquality, ← same]
  obtain ⟨s, t, atom, sides⟩ := wf.sides grown equation
  obtain ⟨s', t', atom', sides'⟩ := wf'.sides grown equation'
  refine ⟨s, t, s', t', atom, atom', sides, sides', ?_⟩
  rw [pairs, if_pos swapped, Literal.args, Literal.args, atom, atom']
  rfl

theorem pairs_of_straight (straight : w.swapped = false) :
    w.pairs l = [(l.atom, w.target.atom)] := by
  rw [pairs, straight]
  rfl

/-- What a suitable way makes is alike. -/
theorem Suits.alike (suits : w.Suits l) (grown : sig.Grown) (wf : l.WellFormed sig)
    (wf' : w.target.WellFormed sig) (makes : ω.Makes (w.pairs l)) : (l.under ω).Alike w.target := by
  refine ⟨suits.1, ?_⟩
  cases swapped : w.swapped with
  | false =>
      rw [pairs_of_straight swapped] at makes
      exact .inl (makes_cons.1 makes).1
  | true =>
      obtain ⟨s, t, s', t', atom, atom', -, -, sides⟩ := suits.equations swapped grown wf wf'
      rw [sides] at makes
      obtain ⟨first, makes⟩ := makes_cons.1 makes
      have second := (makes_cons.1 makes).1
      refine .inr ⟨t', s', ?_, atom'⟩
      rw [Literal.under, atom, Term.equality, replace_app, List.map_cons, List.map_cons,
        List.map_nil, first, second, Term.equality]

/-- Literals that can be made alike are so in some suitable way. -/
theorem exists_suits (wf : l.WellFormed sig) (alike : (l.under ω).Alike m) (place : Nat) :
    ∃ w : Way, w.place = place ∧ w.target = m ∧ w.Suits l ∧ ω.Makes (w.pairs l) := by
  obtain ⟨polarity, same | ⟨s, t, atom, atom'⟩⟩ := alike
  · exact ⟨⟨place, m, false⟩, rfl, rfl, ⟨polarity, nofun⟩, makes_cons.2 ⟨same, nofun⟩⟩
  · have predicate : l.predicate? = some Symbol.equality := by
      rw [← wf.predicate?_under ω, Literal.predicate?, atom]
      rfl
    have predicate' : m.predicate? = some Symbol.equality := by
      rw [Literal.predicate?, atom']
      rfl
    have args : l.args.map ω.replace = [s, t] := by
      rw [← wf.args_under ω, Literal.args, atom]
      rfl
    have args' : m.args.reverse = [s, t] := by
      rw [Literal.args, atom']
      rfl
    refine ⟨⟨place, m, true⟩, rfl, rfl, ⟨polarity, fun _ => ⟨?_, ?_⟩⟩, ?_⟩
    · rw [Literal.isEquality, predicate]
      rfl
    · rw [predicate, predicate']
    · have len : l.args.length = 2 := by
        rw [← List.length_map, args]
        rfl
      rw [pairs, if_pos rfl, args', makes_zip len]
      exact args

theorem Suits.plainSides_iff (suits : w.Suits l) (grown : sig.Grown) (wf : l.WellFormed sig)
    (wf' : w.target.WellFormed sig) :
    PlainSides (w.pairs l) ↔
      l.atom.isQuantifierFree = true ∧ w.target.atom.isQuantifierFree = true := by
  cases swapped : w.swapped with
  | false =>
      rw [pairs_of_straight swapped]
      exact List.forall_mem_singleton
  | true =>
      obtain ⟨s, t, s', t', atom, atom', -, -, sides⟩ := suits.equations swapped grown wf wf'
      rw [sides, atom, atom', Term.isQuantifierFree_equality, Term.isQuantifierFree_equality]
      simp only [PlainSides, List.forall_mem_cons]
      tauto

theorem Suits.mentionedLeft_iff (suits : w.Suits l) (grown : sig.Grown) (wf : l.WellFormed sig)
    (wf' : w.target.WellFormed sig) (v : Variable) :
    MentionedLeft v (w.pairs l) ↔ l.atom.mentions v = true := by
  cases swapped : w.swapped with
  | false =>
      rw [pairs_of_straight swapped, mentionedLeft_cons]
      simp [MentionedLeft]
  | true =>
      obtain ⟨s, t, s', t', atom, atom', -, -, sides⟩ := suits.equations swapped grown wf wf'
      rw [sides, atom, Term.mentions_equality, mentionedLeft_cons, mentionedLeft_cons]
      simp [MentionedLeft]

end Way

theorem matchAlong_of_not_suits (unsuited : ¬ w.Suits l) : matchAlong σ l w = (false, σ) := by
  rw [matchAlong, matchSwapped, matchStraight]
  split
  · next swapped =>
      exact if_neg fun suits => unsuited ⟨suits.1, fun _ => suits.2⟩
  · next straight =>
      exact if_neg fun suits => unsuited ⟨suits, fun swapped => absurd swapped straight⟩

theorem decided_matchAlong (suits : w.Suits l) (grown : sig.Grown) (wf : l.WellFormed sig)
    (wf' : w.target.WellFormed sig) (σ : TreeMatcher) :
    Decided σ (w.pairs l) (matchAlong σ l w) := by
  cases swapped : w.swapped with
  | false =>
      rw [matchAlong, swapped, if_neg Bool.false_ne_true, matchStraight, if_pos suits.1,
        Way.pairs_of_straight swapped]
      exact decided_attemptMatch wf.atom.consistent wf'.atom.consistent σ
  | true =>
      obtain ⟨s, t, s', t', atom, atom', sides, sides', pairs⟩ :=
        suits.equations swapped grown wf wf'
      have first := decided_attemptMatch sides.1 sides'.2 σ
      have second (τ : TreeMatcher) := decided_attemptMatch sides.2 sides'.1 τ
      rw [matchAlong, swapped, if_pos rfl, matchSwapped, if_pos ⟨suits.1, suits.2 swapped⟩, pairs]
      simp only [Literal.args, atom, atom', Term.equality, Term.args]
      generalize σ.attemptMatch s t' = answer at first ⊢
      cases first with
      | matched first => exact (second _).append first
      | refused none =>
          exact Decided.refused_append none [(t, s')]

theorem matched_of_matchAlong (grown : sig.Grown) (wf : l.WellFormed sig)
    (wf' : w.target.WellFormed sig) (answered : matchAlong σ l w = (true, τ)) :
    w.Suits l ∧ Matched σ τ (w.pairs l) := by
  by_cases suits : w.Suits l
  · have decided := decided_matchAlong suits grown wf wf' σ
    rw [answered] at decided
    cases decided with
    | matched matched => exact ⟨suits, matched⟩
  · cases (matchAlong_of_not_suits suits).symm.trans answered

theorem exists_matchAlong (grown : sig.Grown) (wf : l.WellFormed sig)
    (wf' : w.target.WellFormed sig) (suits : w.Suits l) (keeps : ω.Keeps σ)
    (plain : PlainSides (w.pairs l)) (makes : ω.Makes (w.pairs l)) :
    ∃ τ, matchAlong σ l w = (true, τ) ∧ ω.Keeps τ := by
  have decided := decided_matchAlong suits grown wf wf' σ
  generalize matchAlong σ l w = answer at decided ⊢
  cases decided with
  | @matched τ matched => exact ⟨τ, rfl, (matched.keeps_iff ω).2 ⟨keeps, makes⟩⟩
  | refused none => exact absurd makes (none ω keeps plain)

/-! ## Rows of ways -/

/-- What a row of ways brings about: it binds the variables of the literals and makes each literal
the target of its way. -/
structure Mapped (ls : List Literal) (ws : List Way) (σ ω : TreeMatcher) : Prop where
  extended : ω.Extends σ
  get?_eq : ∀ v t, σ.get? v = some t → ω.get? v = some t
  bound_iff : ∀ v, ω.isBound v = true ↔
    σ.isBound v = true ∨ ∃ l ∈ ls, l.atom.mentions v = true
  alike : List.Forall₂ (fun l w => (l.under ω).Alike w.target) ls ws
  plain : σ.Plain → List.Forall₂ (fun l w =>
    l.atom.isQuantifierFree = true ∧ w.target.atom.isQuantifierFree = true) ls ws

theorem Maps.mapped (grown : sig.Grown) (wfD : ∀ m ∈ d.literals, m.WellFormed sig)
    (maps : Maps d ls used σ ws ω) (wf : ∀ l ∈ ls, l.WellFormed sig) : Mapped ls ws σ ω := by
  induction maps with
  | nil => exact ⟨.refl _, fun _ _ => id, by simp, .nil, fun _ => .nil⟩
  | @cons l ls used w ws σ τ ω among fresh answered rest ih =>
      obtain ⟨wfL, wf⟩ := List.forall_mem_cons.1 wf
      have wf' : w.target.WellFormed sig := wfD _ (List.mem_of_getElem? (mem_ways_iff.1 among))
      obtain ⟨suits, first⟩ := matched_of_matchAlong grown wfL wf' answered
      have later := ih wf
      refine ⟨later.extended.trans first.extended,
        fun v t bound => later.get?_eq v t (first.get?_eq v t bound), fun v => ?_, ?_,
        fun plain => ?_⟩
      · rw [later.bound_iff, first.bound_iff, suits.mentionedLeft_iff grown wfL wf', or_assoc,
          List.exists_mem_cons_iff]
      · have makes := ((first.keeps_iff ω).1 (keeps_of_get? later.get?_eq)).2
        exact .cons (suits.alike grown wfL wf' makes) later.alike
      · obtain ⟨plain, sides⟩ := first.plain plain
        exact .cons ((suits.plainSides_iff grown wfL wf').1 sides) (later.plain plain)

/-- If a ledger makes literals fit different places, there is a row of ways. -/
theorem exists_maps (grown : sig.Grown) (wfD : ∀ m ∈ d.literals, m.WellFormed sig)
    {places : List Nat}
    (fits : List.Forall₂ (fun l j => ∃ m, d.literals[j]? = some m ∧ l.Fits ω m) ls places)
    (wf : ∀ l ∈ ls, l.WellFormed sig) (distinct : places.Nodup) (unused : ∀ j ∈ places, j ∉ used)
    (keeps : ω.Keeps σ) : ∃ ws τ, Maps d ls used σ ws τ := by
  induction fits generalizing used σ with
  | nil => exact ⟨[], σ, .nil⟩
  | @cons l j ls places here _ ih =>
      obtain ⟨m, there, fits⟩ := here
      obtain ⟨wfL, wfLs⟩ := List.forall_mem_cons.1 wf
      obtain ⟨new, others⟩ := List.nodup_cons.1 distinct
      obtain ⟨fresh, free⟩ := List.forall_mem_cons.1 unused
      obtain ⟨w, rfl, rfl, suits, makes⟩ := Way.exists_suits wfL fits.alike j
      have wf' : w.target.WellFormed sig := wfD _ (List.mem_of_getElem? there)
      have sides := (suits.plainSides_iff grown wfL wf').2 ⟨fits.plain, fits.plain'⟩
      obtain ⟨τ, answered, keeps'⟩ := exists_matchAlong grown wfL wf' suits keeps sides makes
      have free' : ∀ k ∈ places, k ∉ w.place :: used := by
        intro k hk
        rw [List.mem_cons, not_or]
        exact ⟨fun same => new (same ▸ hk), free k hk⟩
      obtain ⟨ws, υ, rest⟩ := ih wfLs others free' keeps'
      exact ⟨w :: ws, υ, .cons (mem_ways_iff.2 there) fresh answered rest⟩

end Subsumption

open Subsumption

namespace Clause

variable {sig : Signature} {c d : Clause} {σ τ ω : TreeMatcher}

/-- The literals are over well-formed atoms. -/
def WellFormed (sig : Signature) (c : Clause) : Prop :=
  ∀ l ∈ c.literals, l.WellFormed sig

instance (sig : Signature) (c : Clause) : Decidable (c.WellFormed sig) :=
  inferInstanceAs (Decidable (∀ l ∈ c.literals, l.WellFormed sig))

/-- The variable occurs at a leaf of a literal. -/
def Mentions (c : Clause) (v : Variable) : Prop :=
  ∃ l ∈ c.literals, l.atom.mentions v = true

/-- The ledger extends another by instances of variables of `c`, and these send different literals
of `c` to different literals of `d`. -/
structure Subsumes (c d : Clause) (σ τ : TreeMatcher) : Prop where
  kept : ∀ v t, σ.get? v = some t → τ.get? v = some t
  bound : ∀ v, τ.isBound v = true → σ.isBound v = true ∨ c.Mentions v
  mapped : ∃ f : Fin c.literals.length → Fin d.literals.length, Function.Injective f ∧
    ∀ i : Fin c.literals.length, Literal.Fits τ c.literals[i] d.literals[f i]

/-- A row of ways extends the ledger by instances that make the clause subsume the other. -/
theorem subsumes_of_maps (grown : sig.Grown) (wfC : c.WellFormed sig) (wfD : d.WellFormed sig)
    (plain : σ.Plain) {ws : List Way} (maps : Maps d c.literals [] σ ws τ) :
    c.Subsumes d σ τ ∧ τ.Extends σ ∧
      ∀ v, τ.isBound v = true ↔ σ.isBound v = true ∨ c.Mentions v := by
  have mapped := maps.mapped grown wfD wfC
  have each (i : Fin c.literals.length) : ∃ j : Fin d.literals.length,
      (ws.map (·.place))[i.val]? = some j.val ∧ Literal.Fits τ c.literals[i] d.literals[j] := by
    have hi : i.val < ws.length := by
      rw [maps.length_eq]
      exact i.isLt
    obtain ⟨hj, there⟩ :=
      List.getElem?_eq_some_iff.1 (mem_ways_iff.1 (maps.mem_ways _ (List.getElem_mem hi)))
    have alike := mapped.alike.get i.isLt hi
    have sides := (mapped.plain plain).get i.isLt hi
    refine ⟨⟨ws[i.val].place, hj⟩, ?_, ?_⟩
    · rw [List.getElem?_map, List.getElem?_eq_getElem hi, Option.map_some]
    · rw [Fin.getElem_fin, Fin.getElem_fin, there]
      exact ⟨alike, sides.1, sides.2⟩
  choose f placed fits using each
  have injective : Function.Injective f := by
    intro i j same
    have inside : i.val < (ws.map (·.place)).length := by
      rw [List.length_map, maps.length_eq]
      exact i.isLt
    apply Fin.ext
    rw [← List.getElem?_inj inside maps.nodup_places.1, placed i, placed j, same]
  exact ⟨⟨mapped.get?_eq, fun v => (mapped.bound_iff v).1, f, injective, fits⟩, mapped.extended,
    mapped.bound_iff⟩

theorem Subsumes.exists_maps (grown : sig.Grown) (wfC : c.WellFormed sig) (wfD : d.WellFormed sig)
    (subsumes : c.Subsumes d σ τ) : ∃ ws ω, Maps d c.literals [] σ ws ω := by
  obtain ⟨kept, -, f, injective, fits⟩ := subsumes
  let places := List.ofFn fun i => (f i).val
  have assigned : List.Forall₂ (fun l j => ∃ m, d.literals[j]? = some m ∧ l.Fits τ m)
      c.literals places := by
    rw [List.forall₂_iff_get]
    refine ⟨(List.length_ofFn).symm, fun i hi hi' => ⟨d.literals[f ⟨i, hi⟩], ?_, fits ⟨i, hi⟩⟩⟩
    rw [List.get_ofFn]
    exact List.getElem?_eq_getElem (f ⟨i, hi⟩).isLt
  have distinct : places.Nodup := List.nodup_ofFn.2 (Fin.val_injective.comp injective)
  exact Subsumption.exists_maps grown wfD assigned wfC distinct (fun _ _ => List.not_mem_nil)
    (keeps_of_get? kept)

/-- The subsumption test succeeds exactly when the ledger can be extended, by instances of variables
of the first clause, so that different literals of it become different literals of the second one
and none of them has quantifiers. It then ends with such an extension, which binds all variables of
the first clause, and otherwise with the ledger as it was. -/
theorem attemptSubsumption_decides (grown : sig.Grown) (wfC : c.WellFormed sig)
    (wfD : d.WellFormed sig) (plain : σ.Plain) :
    ((c.attemptSubsumption d σ).1 = true ↔ ∃ τ, c.Subsumes d σ τ) ∧
      ((c.attemptSubsumption d σ).1 = true →
        c.Subsumes d σ (c.attemptSubsumption d σ).2 ∧ (c.attemptSubsumption d σ).2.Extends σ ∧
          ∀ v, (c.attemptSubsumption d σ).2.isBound v = true ↔ σ.isBound v = true ∨ c.Mentions v) ∧
      ((c.attemptSubsumption d σ).1 = false → (c.attemptSubsumption d σ).2 = σ) := by
  rcases c.attemptSubsumption_cases d σ with ⟨ws, τ, maps, answered⟩ | ⟨answered, none⟩
  · have sound := subsumes_of_maps grown wfC wfD plain maps
    rw [answered]
    exact ⟨iff_of_true rfl ⟨τ, sound.1⟩, fun _ => sound, nofun⟩
  · rw [answered]
    refine ⟨iff_of_false nofun ?_, nofun, fun _ => rfl⟩
    rintro ⟨τ, subsumes⟩
    obtain ⟨ws, ω, maps⟩ := subsumes.exists_maps grown wfC wfD
    exact none ws ω maps

/-- Of `p(X0) | X0 = X1`, the first literal has to become the second one of
`p(a) | p(f(a)) | f(f(a)) = f(a)`, and the equation is swapped. The ledger already binds another
variable, to an instance that mentions it. -/
theorem attemptSubsumption_decides_swapped :
    let sig := (((Signature.initial.internFunction "f" 1).2.internConstant "a").2.internPredicate
      "p" 1).2
    let f (t : Term) : Term := .app .function ⟨8, .function, 1⟩ [t]
    let a : Term := .app .constant ⟨9, .constant, 0⟩ []
    let p (t : Term) : Literal := ⟨.app .predicate ⟨10, .predicate, 1⟩ [t], true⟩
    let x (i : Nat) : Term := .var ⟨0, i⟩
    let c : Clause := ⟨[p (x 0), ⟨.equality (x 0) (x 1), true⟩]⟩
    let d : Clause := ⟨[p a, p (f a), ⟨.equality (f (f a)) (f a), true⟩]⟩
    let σ : TreeMatcher := Ledger.empty.push ⟨0, 2⟩ (f (x 2))
    (sig.Grown ∧ c.WellFormed sig ∧ d.WellFormed sig ∧ σ.Plain) ∧
      (c.attemptSubsumption d σ).1 = true ∧ c.Subsumes d σ (c.attemptSubsumption d σ).2 := by
  intro sig f a p x c d σ
  have grown : sig.Grown := .predicate "p" 1 (.constant "a" (.function "f" 1 .initial))
  have wfC : c.WellFormed sig := by decide +kernel
  have wfD : d.WellFormed sig := by decide +kernel
  have plain : σ.Plain := Plain.push nofun (by decide +kernel)
  have succeeds : (c.attemptSubsumption d σ).1 = true := by decide +kernel
  exact ⟨⟨grown, wfC, wfD, plain⟩, succeeds,
    ((attemptSubsumption_decides grown wfC wfD plain).2.1 succeeds).1⟩

end Clause

end SaturationCore
