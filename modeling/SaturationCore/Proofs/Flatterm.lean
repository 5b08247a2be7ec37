/-
# Flatterms are the prefix form of terms

A sequence of heads can be laid out as a flatterm just when it is the spelling of one tree with
as many arguments under each head as it takes. If it is not, either some shorter sequence at its
front is one already, or there is none at its front at all, and the fault says which. A single pass
with a stack of the heads that wait for arguments makes the same cells and ends in the same faults.
The heads of a tree are drawn from a stack of the trees that are still to come.

In a flatterm every cell starts a subterm, which ends where the cell says. The arguments follow
the head, each where the one before ends, up to the end of the subterm. A regular tree comes back
from its cells as it was, from every cell the tree that is spelled there, and subterms count as
equal just when these trees are.
-/
import SaturationCore.Proofs.Flatterm.OnePass
import SaturationCore.Proofs.WellFormed

namespace SaturationCore

/-! ## Trees for spellings -/

namespace Term

/-- Any head stands at the root of a tree with given arguments, if they are as many as it takes. -/
theorem exists_of_root {h : Head} {as : List Term} (enough : as.length = h.arity)
    (inner : ∀ a ∈ as, a.Consistent) : ∃ t : Term, t.Consistent ∧ t.head = h ∧ t.args = as := by
  cases h with
  | var v => exact ⟨.var v, Built.var v, rfl, (List.length_eq_zero_iff.1 enough).symm⟩
  | symbol s => exact ⟨.app s.kind s as, Built.app rfl enough inner, rfl, rfl⟩
  | binder v =>
      obtain ⟨body, rfl⟩ := List.length_eq_one_iff.1 enough
      exact ⟨.abstraction v body, Built.abstraction (inner body List.mem_cons_self), rfl, rfl⟩

end Term

theorem Spells.exists_trees {n : Nat} {hs : List Head} (spells : Spells n hs) :
    ∃ ts : List Term, ts.length = n ∧ (∀ t ∈ ts, t.Consistent) ∧
      ts.flatMap Term.spelling = hs := by
  induction spells with
  | nil => exact ⟨[], rfl, List.forall_mem_nil _, rfl⟩
  | @cons n h rest _ ih =>
      obtain ⟨ts, len, consistent, rfl⟩ := ih
      -- The first trees behind the head are its arguments.
      have enough : (ts.take h.arity).length = h.arity := by
        rw [List.length_take]
        omega
      obtain ⟨t, whole, root, args⟩ :=
        Term.exists_of_root enough fun a ha => consistent a (List.mem_of_mem_take ha)
      refine ⟨t :: ts.drop h.arity, ?_, List.forall_mem_cons.2
        ⟨whole, fun a ha => consistent a (List.mem_of_mem_drop ha)⟩, ?_⟩
      · rw [List.length_cons, List.length_drop]
        omega
      · exact Term.flatMap_spelling_take root args

/-! ## Rebuilding trees -/

namespace Subterm

/-- A head is put in front of the trees behind it, which take as many as it has arguments. -/
theorem assembleAll_cons {h : Head} {rest : List Head} (args : List Term) {ts : List Term}
    {t : Term} (enough : args.length = h.arity) (made : assemble h args = .ok t)
    (built : assembleAll rest = .ok (args ++ ts)) : assembleAll (h :: rest) = .ok (t :: ts) := by
  simp [assembleAll, built, ← enough, made, require, bind, Except.bind, pure, Except.pure]

/-- A regular symbol is put back in its role. -/
theorem assemble_symbol {s : Symbol} (regular : s.Regular) {args : List Term}
    (enough : args.length = s.arity) : assemble (.symbol s) args = .ok (.app s.kind s args) := by
  obtain ⟨id, kind, arity⟩ := s
  cases kind with
  | constant =>
      rw [List.length_eq_zero_iff.1 (enough.trans (regular.1 rfl))]
      rfl
  | quantifier =>
      obtain ⟨body, rfl⟩ := List.length_eq_one_iff.1 (enough.trans (regular.2 rfl))
      rfl
  | _ => rfl

/-- What spells a regular tree, in front of what spells others, is rebuilt as it was. -/
theorem assembleAll_spelling {t : Term} (regular : t.Regular) {rest : List Head} {ts : List Term}
    (built : assembleAll rest = .ok ts) :
    assembleAll (t.spelling ++ rest) = .ok (t :: ts) := by
  induction regular generalizing rest ts with
  | var v => exact assembleAll_cons [] rfl rfl built
  | @app role s args fit len _ ih =>
      have row (as : List Term) (each : ∀ a ∈ as, a ∈ args) :
          assembleAll (as.flatMap Term.spelling ++ rest) = .ok (as ++ ts) := by
        induction as with
        | nil => exact built
        | cons a as step =>
            rw [List.forall_mem_cons] at each
            rw [List.flatMap_cons, List.append_assoc]
            exact ih a each.1 (step each.2)
      rw [Term.spelling_eq, fit.1]
      exact assembleAll_cons args len (assemble_symbol fit.2 len) (row args fun _ ha => ha)
  | @abstraction v body _ ih =>
      rw [Term.spelling_eq, Term.args, List.flatMap_singleton]
      exact assembleAll_cons [body] rfl rfl (ih built)

/-- A subterm that is spelled as a regular tree is rebuilt as that tree. -/
theorem toTerm_of_spelling_eq {s : Subterm} {t : Term} (regular : t.Regular)
    (spelled : s.spelling = t.spelling) : s.toTerm = .ok t := by
  have built : assembleAll (t.spelling ++ []) = .ok [t] := assembleAll_spelling regular rfl
  rw [List.append_nil] at built
  rw [toTerm, spelled, built]
  rfl

/-- Consistent trees are spelled by the heads that they are built from. -/
theorem flatMap_spelling_of_consistent {hs : List Head} {ts : List Term}
    (consistent : ∀ t ∈ ts, t.Consistent) (built : assembleAll hs = .ok ts) :
    ts.flatMap Term.spelling = hs := by
  induction hs generalizing ts with
  | nil =>
      cases built
      rfl
  | cons h rest ih =>
      simp only [assembleAll, bind_eq_ok_iff, require_eq_ok_iff, beq_iff_eq] at built
      obtain ⟨trees, inner, -, enough, t, made, ⟨⟩⟩ := built
      rw [List.forall_mem_cons] at consistent
      obtain ⟨here, behind⟩ := consistent
      -- The arguments of a constant are dropped, but a consistent tree tells that it has none.
      have constants (f : Symbol) (root : h = .symbol f) (kind : f.kind = .constant) :
          f.arity = 0 := by
        subst root
        obtain ⟨id, _, arity⟩ := f
        cases kind
        cases made
        exact here.app.2.1.symm
      obtain ⟨root, args⟩ := root_of_assemble enough constants made
      have each : ∀ u ∈ trees, u.Consistent := by
        intro u hu
        rw [← List.take_append_drop h.arity trees, List.mem_append, ← args] at hu
        exact hu.elim here.of_mem_args (behind u)
      rw [Term.flatMap_spelling_take root args, ih each inner]

/-- A subterm is spelled as the consistent tree that is rebuilt from it. -/
theorem spelling_of_toTerm {s : Subterm} {t : Term} (made : s.toTerm = .ok t)
    (consistent : t.Consistent) : s.spelling = t.spelling := by
  simp only [toTerm, bind_eq_ok_iff] at made
  obtain ⟨ts, built, single⟩ := made
  split at single
  · cases single
    have spelled := flatMap_spelling_of_consistent (List.forall_mem_singleton.2 consistent) built
    rw [List.flatMap_singleton] at spelled
    exact spelled.symm
  · cases single

end Subterm

/-! ## Sequences that are one term -/

/-- The heads are the prefix form of exactly one tree with as many arguments under each head as it
takes. -/
def IsTerm (hs : List Head) : Prop :=
  ∃! t : Term, t.Consistent ∧ t.spelling = hs

theorem isTerm_iff {hs : List Head} : IsTerm hs ↔ Spells 1 hs := by
  constructor
  · rintro ⟨t, ⟨consistent, rfl⟩, -⟩
    exact consistent.spells
  · intro spells
    obtain ⟨ts, len, consistent, spelled⟩ := spells.exists_trees
    obtain ⟨t, rfl⟩ := List.length_eq_one_iff.1 len
    rw [List.flatMap_singleton] at spelled
    have here := consistent t List.mem_cons_self
    refine ⟨t, ⟨here, spelled⟩, ?_⟩
    rintro u ⟨consistent', spelled'⟩
    exact (consistent'.spelling_eq_iff here).1 (spelled'.trans spelled.symm)

namespace Flatterm

variable {n : Nat} {hs front : List Head} {h : Head}

/-- At the front of a sequence that starts with a head, one more term is spelled than behind it. -/
theorem exists_front_cons {p : List Head → Prop} :
    (∃ front, front <+: h :: hs ∧ p front ∧ Spells (n + 1) front) ↔
      ∃ front, front <+: hs ∧ p (h :: front) ∧ Spells (n + h.arity) front := by
  constructor
  · rintro ⟨front, before, holds, spells⟩
    cases front with
    | nil => exact absurd rfl spells.ne_nil
    | cons k front =>
        rw [List.cons_prefix_cons] at before
        obtain ⟨rfl, before⟩ := before
        exact ⟨front, before, holds, Spells.cons_iff.1 spells⟩
  · rintro ⟨front, before, holds, spells⟩
    exact ⟨h :: front, List.cons_prefix_cons.2 ⟨rfl, before⟩, holds, .cons spells⟩

/-- Counting through a sequence refuses it when its terms are complete before its end, or not
complete at its end. -/
theorem scan_eq_iff (n : Nat) (hs : List Head) :
    (scan n hs = .ok () ↔ Spells n hs) ∧
      (scan n hs = .error .sequenceContinues ↔ ∃ front, front <+: hs ∧ front ≠ hs ∧ Spells n front) ∧
      (scan n hs = .error .sequenceStops ↔ ¬∃ front, front <+: hs ∧ Spells n front) := by
  induction n, hs using scan.induct with
  | case1 =>
      refine ⟨iff_of_true rfl .nil, iff_of_false nofun ?_, iff_of_false nofun ?_⟩
      · rintro ⟨front, before, proper, -⟩
        exact proper (List.prefix_nil.1 before)
      · exact not_not.2 ⟨[], List.nil_prefix, .nil⟩
  | case2 n =>
      refine ⟨iff_of_false nofun nofun, iff_of_false nofun ?_, iff_of_true rfl ?_⟩
      · rintro ⟨front, before, proper, -⟩
        exact proper (List.prefix_nil.1 before)
      · rintro ⟨front, before, spells⟩
        exact spells.ne_nil (List.prefix_nil.1 before)
  | case3 h rest =>
      refine ⟨iff_of_false nofun nofun, iff_of_true rfl ?_, iff_of_false nofun ?_⟩
      · exact ⟨[], List.nil_prefix, nofun, .nil⟩
      · exact not_not.2 ⟨[], List.nil_prefix, .nil⟩
  | case4 missing h rest ih =>
      have some : (∃ front, front <+: h :: rest ∧ Spells (missing + 1) front) ↔
          ∃ front, front <+: rest ∧ Spells (missing + h.arity) front := by
        simpa using exists_front_cons (p := fun _ => True)
      rw [scan, ih.1, ih.2.1, ih.2.2, Spells.cons_iff, exists_front_cons, some]
      simp only [ne_eq, List.cons.injEq, true_and, and_self]

theorem scan_eq_error {fault : Fault} (refused : scan n hs = .error fault) :
    fault = .sequenceContinues ∨ fault = .sequenceStops := by
  induction n, hs using scan.induct with
  | case1 => cases refused
  | case2 => exact .inr (Except.error.inj refused).symm
  | case3 => exact .inl (Except.error.inj refused).symm
  | case4 missing h rest ih => exact ih refused

theorem ofSpelling_eq_error_iff {fault : Fault} :
    ofSpelling hs = .error fault ↔ scan 1 hs = .error fault := by
  cases counted : scan 1 hs with
  | error other =>
      have refused : ofSpelling hs = .error other := by
        rw [ofSpelling, counted]
        rfl
      rw [refused, Except.error.injEq, Except.error.injEq]
  | ok =>
      obtain ⟨t, made, -⟩ := ofSpelling_of_spells ((scan_eq_iff 1 hs).1.1 counted)
      rw [made]
      simp

/-- A single pass makes the cells of the flatterm, and refuses what cannot be laid out. -/
theorem layOutInOnePass_eq (short : hs.length < 1 <<< 32) :
    layOutInOnePass hs = (ofSpelling hs).map (·.cells) := by
  obtain ⟨cells, laid, counted, layout, same⟩ | ⟨fault, refused, counted⟩ :=
    layOutInOnePass_spec short
  · obtain ⟨t, made, spelled⟩ := ofSpelling_of_spells ((scan_eq_iff 1 hs).1.1 counted)
    -- Both are laid out as one term with the same heads.
    have sameList : cells.toList = t.cells.toList :=
      layout.eq_of_heads t.layout (same.trans spelled.symm)
    rw [laid, made, Except.map, Array.toList_inj.1 sameList]
  · rw [refused, ofSpelling_eq_error_iff.2 counted, Except.map]

/-- The sequence is refused with the given wording. -/
def Refuses (hs : List Head) (wording : String) : Prop :=
  ∃ fault, ofSpelling hs = .error fault ∧ fault.message = some wording

theorem refuses_iff {fault : Fault} {wording : String}
    (counts : fault = .sequenceContinues ∨ fault = .sequenceStops)
    (worded : fault.message = some wording) : Refuses hs wording ↔ scan 1 hs = .error fault := by
  constructor
  · rintro ⟨other, refused, worded'⟩
    rw [ofSpelling_eq_error_iff] at refused
    have counts' := scan_eq_error refused
    -- The two faults that counting ends in differ in their wording.
    have same : other = fault := by
      rw [← worded] at worded'
      rcases counts with rfl | rfl <;> rcases counts' with rfl | rfl <;>
        first | rfl | exact absurd worded' (by decide)
    rw [refused, same]
  · intro refused
    exact ⟨fault, ofSpelling_eq_error_iff.2 refused, worded⟩

theorem exists_ofSpelling_iff : (∃ t, ofSpelling hs = .ok t) ↔ IsTerm hs := by
  rw [isTerm_iff]
  constructor
  · rintro ⟨t, made⟩
    rw [← spelling_ofSpelling made]
    exact t.spells
  · intro spells
    obtain ⟨t, made, -⟩ := ofSpelling_of_spells spells
    exact ⟨t, made⟩

/-! ## Positions -/

variable {t : Flatterm} {p q : Nat}

/-- The subterms stand one behind the other, from one position up to another. -/
def Abut (t : Flatterm) : Nat → List Subterm → Nat → Prop
  | p, [], q => p = q
  | p, s :: rest, q => s.whole = t ∧ s.pos = p ∧ Abut t s.stop rest q

theorem Stretch.abut (stretch : t.Stretch p n q) : Abut t p (Subterm.consecutive t p n) q := by
  induction n generalizing p with
  | zero => exact stretch.eq_of_zero
  | succ n ih =>
      obtain ⟨hp, -, rest⟩ := stretch.first
      rw [Subterm.consecutive, dif_pos hp]
      exact ⟨rfl, rfl, ih rest⟩

theorem drop_spelling (t : Flatterm) (p : Nat) : t.spelling.drop p = t.between p t.size := by
  rw [between, Array.toList_extract, List.extract_eq_take_drop, List.take_of_length_le (by simp),
    List.map_drop]
  rfl

end Flatterm

namespace Subterm

variable {s s' : Subterm}

/-- Among the sequences that start with the root of a subterm, its spelling is the only term. -/
theorem isTerm_prefix_iff (s : Subterm) (front : List Head) :
    front <+: s.whole.spelling.drop s.pos ∧ IsTerm front ↔ front = s.spelling := by
  have split : s.spelling ++ s.whole.between s.stop s.whole.size =
      s.whole.spelling.drop s.pos := by
    rw [spelling_eq_between, s.whole.drop_spelling,
      s.whole.between_append (Nat.le_of_lt s.pos_lt_stop) s.stop_le_size]
  rw [isTerm_iff, ← split]
  constructor
  · rintro ⟨⟨rest, before⟩, spells⟩
    exact (spells.cancel s.spells before).1
  · rintro rfl
    exact ⟨List.prefix_append _ _, s.spells⟩

theorem toTerm_eq_of_spelling_eq (same : s.spelling = s'.spelling) : s.toTerm = s'.toTerm := by
  rw [toTerm, same, ← toTerm]

/-- Subterms over regular symbols count as equal when the trees rebuilt from them are equal. -/
theorem beq_iff_toTerm_eq (regular : ∀ f ∈ symbolsOf s.spelling, f.Regular)
    (regular' : ∀ f ∈ symbolsOf s'.spelling, f.Regular) :
    (s == s') = true ↔ s.toTerm = s'.toTerm := by
  show (s.spelling == s'.spelling) = true ↔ _
  rw [beq_iff_eq]
  constructor
  · exact toTerm_eq_of_spelling_eq
  · intro same
    obtain ⟨t, made, spelled⟩ := toTerm_of_regular regular
    obtain ⟨t', made', spelled'⟩ := toTerm_of_regular regular'
    obtain rfl : t = t' := Except.ok.inj ((made.symm.trans same).trans made')
    exact spelled.symm.trans spelled'

/-- The heads of a subterm stand in the flatterm that it belongs to. -/
theorem spelling_subset (s : Subterm) : s.spelling ⊆ s.whole.spelling := by
  intro h hh
  have before := ((s.isTerm_prefix_iff s.spelling).2 rfl).1
  exact List.mem_of_mem_drop (before.subset hh)

end Subterm

namespace Flatterm

/-! ## The prefix form -/

/-- The flatterm of a regular tree. -/
def OfRegular (t : Flatterm) : Prop :=
  ∃ u : Term, u.Regular ∧ Subterm.ofTerm u = .ok (.ofFlatterm t)

theorem exists_ofTerm (u : Term) (spells : Spells 1 u.spelling) :
    ∃ t, Subterm.ofTerm u = .ok (.ofFlatterm t) ∧ t.spelling = u.spelling := by
  obtain ⟨t, made, spelled⟩ := ofSpelling_of_spells spells
  refine ⟨t, ?_, spelled⟩
  rw [Subterm.ofTerm, Subterm.ofSpelling, made]
  rfl

theorem OfRegular.symbols {t : Flatterm} (ofRegular : t.OfRegular) :
    ∀ f ∈ symbolsOf t.spelling, f.Regular := by
  obtain ⟨u, regular, made⟩ := ofRegular
  obtain ⟨t', made', spelled⟩ := exists_ofTerm u regular.spells
  obtain rfl : t = t' := congrArg Subterm.whole (Except.ok.inj (made.symm.trans made'))
  intro f hf
  rw [spelled] at hf
  obtain ⟨_, fit⟩ := regular.fits_of_mem hf
  exact fit.2

theorem OfRegular.symbols_subterm {s : Subterm} (ofRegular : s.whole.OfRegular) :
    ∀ f ∈ symbolsOf s.spelling, f.Regular :=
  fun f hf => ofRegular.symbols f (s.spelling_subset hf)

/-- What the cells of a flatterm tell of the sequence of heads in them. -/
structure PrefixForm (t : Flatterm) (hs : List Head) : Prop where
  /-- The cells carry the sequence. -/
  spelling_eq : t.spelling = hs
  /-- One term starts at each position, and its length leads to the end of the subterm. -/
  after_eq : ∀ p < t.size, ∃ front,
    (∀ other, other <+: hs.drop p ∧ IsTerm other ↔ other = front) ∧ t.after p = p + front.length
  /-- The arguments stand between the head and the end of the subterm. -/
  args : ∀ p (hp : p < t.size), (Subterm.mk t p hp).args.length = t.cells[p].head.arity ∧
    t.Abut (p + 1) (Subterm.mk t p hp).args (t.after p)

theorem prefixForm (t : Flatterm) : t.PrefixForm t.spelling where
  spelling_eq := rfl
  after_eq p hp := by
    refine ⟨Subterm.spelling ⟨t, p, hp⟩, Subterm.isTerm_prefix_iff ⟨t, p, hp⟩, ?_⟩
    rw [Subterm.length_spelling]
    have later := t.lt_after p
    show t.after p = p + (t.after p - p)
    omega
  args p hp := by
    obtain ⟨_, args, _⟩ := (Subterm.stretch ⟨t, p, hp⟩).first
    exact ⟨Subterm.length_args _, args.abut⟩

/-- Flatterms are the prefix form of terms. A single pass over a sequence of heads lays out its
flatterm, and the heads that come off a stack with a tree on it are the sequence that the tree spells.
A sequence is laid out just when it is one term; otherwise it is refused, with one wording if it goes
on behind a term at its front and with another if there is none. The cells tell where every term in
the sequence ends and where its arguments stand. A regular tree is rebuilt from its cells, and from
each cell the tree spelled there; subterms count as equal just when the rebuilt trees are. -/
theorem exact_prefix_form :
    (∀ hs : List Head, hs.length < 1 <<< 32 →
      layOutInOnePass hs = (ofSpelling hs).map (·.cells)) ∧
    (∀ u : Term, Term.takeHeads [u] = u.spelling) ∧
    (∀ hs : List Head,
      ((∃ t, ofSpelling hs = .ok t) ↔ IsTerm hs) ∧
      (Refuses hs "prefix sequence continues past a complete term" ↔
        ∃ front, front <+: hs ∧ front ≠ hs ∧ IsTerm front) ∧
      (Refuses hs "prefix sequence ends inside a term" ↔ ¬∃ front, front <+: hs ∧ IsTerm front) ∧
      ∀ t, ofSpelling hs = .ok t → t.PrefixForm hs) ∧
    (∀ u : Term, u.Regular → ∃ t : Flatterm, Subterm.ofTerm u = .ok (.ofFlatterm t) ∧
      (Subterm.ofFlatterm t).toTerm = .ok u ∧
      ∀ p (hp : p < t.size), ∃ v, Subterm.toTerm ⟨t, p, hp⟩ = .ok v ∧
        v.spelling = t.between p (t.after p)) ∧
    ∀ a b : Subterm, a.whole.OfRegular → b.whole.OfRegular →
      ((a == b) = true ↔ a.toTerm = b.toTerm) := by
  refine ⟨fun hs short => layOutInOnePass_eq short, Term.takeHeads_single,
    fun hs => ⟨exists_ofSpelling_iff, ?_, ?_, ?_⟩, fun u regular => ?_, fun a b left right => ?_⟩
  · simp only [isTerm_iff]
    rw [refuses_iff (.inl rfl) rfl, (scan_eq_iff 1 hs).2.1]
  · simp only [isTerm_iff]
    rw [refuses_iff (.inr rfl) rfl, (scan_eq_iff 1 hs).2.2]
  · intro t made
    rw [← spelling_ofSpelling made]
    exact t.prefixForm
  · obtain ⟨t, made, spelled⟩ := exists_ofTerm u regular.spells
    refine ⟨t, made, ?_, fun p hp => ?_⟩
    · exact Subterm.toTerm_of_spelling_eq regular ((Subterm.spelling_ofFlatterm t).trans spelled)
    · have ofRegular : t.OfRegular := ⟨u, regular, made⟩
      exact Subterm.toTerm_of_regular (s := ⟨t, p, hp⟩) ofRegular.symbols_subterm
  · exact Subterm.beq_iff_toTerm_eq left.symbols_subterm right.symbols_subterm

/-- A function of two arguments, the second of which is compound. -/
theorem exact_prefix_form_nested :
    ∃ t t' : Flatterm,
      [Head.symbol ⟨20, .function, 2⟩, .var ⟨0, 0⟩, .symbol ⟨21, .function, 1⟩,
        .symbol ⟨22, .constant, 0⟩].length < 1 <<< 32 ∧
      layOutInOnePass [.symbol ⟨20, .function, 2⟩, .var ⟨0, 0⟩, .symbol ⟨21, .function, 1⟩,
        .symbol ⟨22, .constant, 0⟩] = .ok t.cells ∧
      ofSpelling [.symbol ⟨20, .function, 2⟩, .var ⟨0, 0⟩, .symbol ⟨21, .function, 1⟩,
        .symbol ⟨22, .constant, 0⟩] = .ok t ∧
      t.PrefixForm [.symbol ⟨20, .function, 2⟩, .var ⟨0, 0⟩, .symbol ⟨21, .function, 1⟩,
        .symbol ⟨22, .constant, 0⟩] ∧
      Subterm.ofTerm (.app .function ⟨20, .function, 2⟩ [.var ⟨0, 0⟩,
        .app .function ⟨21, .function, 1⟩ [.app .constant ⟨22, .constant, 0⟩ []]]) =
          .ok (.ofFlatterm t') ∧
      (Subterm.ofFlatterm t').toTerm = .ok (.app .function ⟨20, .function, 2⟩ [.var ⟨0, 0⟩,
        .app .function ⟨21, .function, 1⟩ [.app .constant ⟨22, .constant, 0⟩ []]]) := by
  have short : [Head.symbol ⟨20, .function, 2⟩, .var ⟨0, 0⟩, .symbol ⟨21, .function, 1⟩,
      .symbol ⟨22, .constant, 0⟩].length < 1 <<< 32 := by
    decide
  obtain ⟨t, made⟩ : ∃ t, ofSpelling [.symbol ⟨20, .function, 2⟩, .var ⟨0, 0⟩,
      .symbol ⟨21, .function, 1⟩, .symbol ⟨22, .constant, 0⟩] = .ok t := ⟨_, rfl⟩
  have laid := exact_prefix_form.1 _ short
  rw [made] at laid
  obtain ⟨t', laidTree, rebuilt, -⟩ := exact_prefix_form.2.2.2.1 (.app .function ⟨20, .function, 2⟩
    [.var ⟨0, 0⟩, .app .function ⟨21, .function, 1⟩ [.app .constant ⟨22, .constant, 0⟩ []]])
    (by decide)
  exact ⟨t, t', short, laid, made, (exact_prefix_form.2.2.1 _).2.2.2 t made, laidTree, rebuilt⟩

end Flatterm

end SaturationCore
