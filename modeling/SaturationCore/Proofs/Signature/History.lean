/-
# Histories of a signature

Symbols are requested one after the other, under names that other symbols may have too. Whatever
was requested in between, the same request is answered with the same symbol, and another request
with another one: a request and its answer determine each other. No request takes a symbol away
or gives it another identifier, so that equality and the logical symbols stay what they are.

A signature that is kept in three tables answers every history of requests as the list of its
declarations does, and is the same signature in three tables after it. So each table says what
the others say, as long as the identifiers suffice.
-/
import Mathlib.Data.List.Basic
import SaturationCore.Proofs.Signature
import SaturationCore.Signature.Tables

namespace SaturationCore

/-- A request for a symbol. -/
inductive SymbolRequest where
  | constant (name : String)
  | function (name : String) (arity : Nat)
  | predicate (name : String) (arity : Nat)
deriving DecidableEq, Repr

/-- What the requested symbol is declared under. A function without arguments is a constant. -/
def SymbolRequest.key : SymbolRequest → SymbolKey
  | constant name => ⟨name, .constant, 0⟩
  | function name arity => ⟨name, if arity = 0 then .constant else .function, arity⟩
  | predicate name arity => ⟨name, .predicate, arity⟩

namespace SymbolTables

/-- The symbol that answers a request, and the tables after it. -/
def perform (t : SymbolTables) : SymbolRequest → Checked (Symbol × SymbolTables)
  | .constant name => t.internConstant name
  | .function name arity => t.internFunction name arity
  | .predicate name arity => t.internPredicate name arity

/-- The answers to several requests, and the tables after them. -/
def run (t : SymbolTables) : List SymbolRequest → Checked (List Symbol × SymbolTables)
  | [] => .ok ([], t)
  | r :: rest => do
    let made ← t.perform r
    let later ← made.2.run rest
    return (made.1 :: later.1, later.2)

/-- The answers to requests that are made from the start, and the tables after them. -/
def history (requests : List SymbolRequest) : Checked (List Symbol × SymbolTables) := do
  (← initial).run requests

end SymbolTables

namespace Signature

variable {σ : Signature} {key other : SymbolKey} {s : Symbol} {r : SymbolRequest}

/-- The symbol declared under a key. -/
def get? (σ : Signature) (key : SymbolKey) : Option Symbol :=
  σ.find? key.name key.kind key.arity

/-- The symbol of a key, declared now unless it was before. -/
def declare (σ : Signature) (key : SymbolKey) : Symbol × Signature :=
  σ.intern key.name key.kind key.arity

/-- The symbol that answers a request, and the signature after it. -/
def perform (σ : Signature) : SymbolRequest → Symbol × Signature
  | .constant name => σ.internConstant name
  | .function name arity => σ.internFunction name arity
  | .predicate name arity => σ.internPredicate name arity

/-- The answers to several requests, and the signature after them. -/
def run (σ : Signature) : List SymbolRequest → List Symbol × Signature
  | [] => ([], σ)
  | r :: rest =>
    let made := σ.perform r
    let later := made.2.run rest
    (made.1 :: later.1, later.2)

/-! ## What stands under a key -/

theorem declare_of_known (known : σ.get? key = some s) : σ.declare key = (s, σ) := by
  rw [get?] at known
  rw [declare, intern, known]

theorem declare_of_new (new : σ.get? key = none) :
    σ.declare key = (⟨σ.size, key.kind, key.arity⟩, { σ with
      declarations := σ.declarations.push ⟨key.name, ⟨σ.size, key.kind, key.arity⟩⟩ }) := by
  rw [get?] at new
  rw [declare, intern, new]
  rfl

/-- Declaring under one key changes nothing under another. -/
theorem get?_declare (σ : Signature) (key other : SymbolKey) :
    (σ.declare key).2.get? other =
      if other = key then some (σ.declare key).1 else σ.get? other := by
  cases found : σ.get? key with
  | some s =>
      rw [declare_of_known found]
      split
      · next same => rw [same, found]
      · rfl
  | none =>
      have asked_iff : (key.name == other.name && key.kind == other.kind &&
          key.arity == other.arity) = true ↔ other = key := by
        rw [Bool.and_eq_true, Bool.and_eq_true, beq_iff_eq, beq_iff_eq, beq_iff_eq, and_assoc,
          ← SymbolKey.ext_iff, eq_comm]
      rw [declare_of_new found, get?, find?, Array.find?_push, Option.map_or]
      simp only [asked_iff]
      split
      · next same =>
          rw [same]
          rw [get?, find?] at found
          rw [found]
          rfl
      · rw [Option.map_none, Option.or_none]
        rfl

/-- What stands under a key does not change. -/
theorem get?_declare_of_known (known : σ.get? other = some s) (key : SymbolKey) :
    (σ.declare key).2.get? other = some s := by
  rw [get?_declare]
  split
  · next same => rw [declare_of_known (same ▸ known)]
  · exact known

/-- A symbol stands with the name of its key at the place that its identifier names. -/
theorem Ordered.entry_of_get? (ordered : σ.Ordered) (found : σ.get? key = some s) :
    σ.declarations[s.id]? = some ⟨key.name, s⟩ ∧ s.kind = key.kind ∧ s.arity = key.arity := by
  obtain ⟨d, first, rfl⟩ := Option.map_eq_some_iff.1 found
  have asked := Array.find?_some first
  simp only [Bool.and_eq_true, beq_iff_eq] at asked
  obtain ⟨⟨name, kind⟩, arity⟩ := asked
  obtain ⟨i, inside, at_i⟩ := Array.getElem_of_mem (Array.mem_of_find?_eq_some first)
  have entry : σ.declarations[i]? = some d := by rw [Array.getElem?_eq_getElem inside, at_i]
  refine ⟨?_, kind, arity⟩
  rw [ordered i d entry, entry, ← name]

theorem Ordered.declares_of_get? (ordered : σ.Ordered) (found : σ.get? key = some s) :
    σ.Declares s :=
  declares_iff.2 ⟨_, (ordered.entry_of_get? found).1, rfl⟩

theorem Ordered.id_lt_size (ordered : σ.Ordered) (found : σ.get? key = some s) : s.id < σ.size :=
  (Array.getElem?_eq_some_iff.1 (ordered.entry_of_get? found).1).1

/-- Two keys under which one symbol stands are one key. -/
theorem Ordered.key_eq (ordered : σ.Ordered) (found : σ.get? key = some s)
    (found' : σ.get? other = some s) : key = other := by
  obtain ⟨entry, kind, arity⟩ := ordered.entry_of_get? found
  obtain ⟨entry', kind', arity'⟩ := ordered.entry_of_get? found'
  have name : key.name = other.name :=
    congrArg Declaration.name (Option.some.inj (entry.symm.trans entry'))
  exact SymbolKey.ext name (kind.symm.trans kind') (arity.symm.trans arity')

theorem size_declare_of_new (new : σ.get? key = none) : (σ.declare key).2.size = σ.size + 1 := by
  rw [declare_of_new new]
  exact Array.size_push _

theorem size_le_declare (σ : Signature) (key : SymbolKey) : σ.size ≤ (σ.declare key).2.size := by
  cases found : σ.get? key with
  | some s => rw [declare_of_known found]
  | none =>
      rw [size_declare_of_new found]
      exact Nat.le_succ _

/-! ## Requests to a grown signature -/

theorem Grown.get?_equality (grown : σ.Grown) : σ.get? .equality = some Symbol.equality :=
  grown.keeps (motive := fun σ => σ.get? .equality = some Symbol.equality) (by decide +kernel)
    (fun _ name kind arity _ known => get?_declare_of_known known ⟨name, kind, arity⟩)
    (fun _ _ known => known)

/-- A request is answered by what it declares. -/
theorem Grown.perform_eq (grown : σ.Grown) (r : SymbolRequest) : σ.perform r = σ.declare r.key := by
  cases r with
  | constant name => rfl
  | function name arity =>
      rw [perform, internFunction, SymbolRequest.key]
      split
      · next none => rw [none]; rfl
      · rfl
  | predicate name arity =>
      rw [perform, internPredicate]
      split
      · next asked =>
          obtain ⟨rfl, rfl⟩ := asked
          exact (declare_of_known grown.get?_equality).symm
      · rfl

theorem Grown.perform (grown : σ.Grown) (r : SymbolRequest) : (σ.perform r).2.Grown := by
  cases r with
  | constant name => exact grown.constant name
  | function name arity => exact grown.function name arity
  | predicate name arity => exact grown.predicate name arity

theorem Grown.run (grown : σ.Grown) (requests : List SymbolRequest) :
    (σ.run requests).2.Grown := by
  induction requests generalizing σ with
  | nil => exact grown
  | cons r rest ih => exact ih (grown.perform r)

theorem Grown.size_le_run (grown : σ.Grown) (requests : List SymbolRequest) :
    σ.size ≤ (σ.run requests).2.size := by
  induction requests generalizing σ with
  | nil => exact Nat.le_refl _
  | cons r rest ih =>
      have first := σ.size_le_declare r.key
      rw [← grown.perform_eq] at first
      exact first.trans (ih (grown.perform r))

/-! ## The three tables -/

/-- The declarations, and what they say of keys and names. -/
def tables (σ : Signature) : SymbolTables where
  entries := σ.declarations
  ids key := (σ.get? key).map (·.id)
  names name := if (σ.lookup name).isEmpty then none else some (σ.lookup name)

theorem lookup_tables (σ : Signature) (name : String) : σ.tables.lookup name = σ.lookup name := by
  have listed : σ.tables.names name =
      if (σ.lookup name).isEmpty then none else some (σ.lookup name) := rfl
  rw [SymbolTables.lookup, listed]
  split
  · next nothing => exact (List.isEmpty_iff.1 nothing).symm
  · rfl

/-- A new symbol comes last among those of its name. -/
theorem lookup_declare_of_new (new : σ.get? key = none) (name : String) :
    (σ.declare key).2.lookup name =
      if name = key.name then σ.lookup name ++ [σ.size] else σ.lookup name := by
  rw [declare_of_new new, lookup, lookup, Array.toList_push, List.filter_append, List.map_append]
  split
  · next same => simp [same]
  · next other => simp [Ne.symm other]

/-- A new symbol changes each table by itself as it changes what the declarations say. -/
theorem tables_declare_of_new (new : σ.get? key = none) :
    (σ.declare key).2.tables = σ.tables.put key (σ.declare key).1 := by
  rw [tables, SymbolTables.put, SymbolTables.mk.injEq]
  refine ⟨?_, funext fun other => ?_, funext fun name => ?_⟩
  · rw [declare_of_new new]
    rfl
  · rw [get?_declare]
    split
    · rfl
    · rfl
  · rw [lookup_declare_of_new new, lookup_tables]
    split
    · next same =>
        rw [same, declare_of_new new]
        simp
    · rfl

/-- As long as the identifiers suffice, the tables answer what the declarations say. -/
theorem Ordered.intern_tables (ordered : σ.Ordered)
    (room : (σ.declare key).2.size ≤ SymbolTables.idLimit) :
    σ.tables.intern key = .ok (Prod.map id tables (σ.declare key)) := by
  cases found : σ.get? key with
  | some s =>
      have asked : σ.tables.ids key = some s.id := congrArg (Option.map _) found
      have declared : σ.tables.symbol s.id = .ok s := ordered.declares_of_get? found
      rw [SymbolTables.intern, asked, declare_of_known found]
      show (do return (← σ.tables.symbol s.id, σ.tables)) = _
      rw [declared]
      rfl
  | none =>
      have asked : σ.tables.ids key = none := congrArg (Option.map _) found
      have fits : σ.tables.size % SymbolTables.idLimit = σ.size := by
        rw [size_declare_of_new found] at room
        exact Nat.mod_eq_of_lt room
      rw [SymbolTables.intern, asked, fits, Prod.map, tables_declare_of_new found,
        declare_of_new found]
      rfl

/-- A symbol that was not declared before may be reserved. -/
theorem Ordered.reserve_tables (ordered : σ.Ordered) (new : σ.get? key = none)
    (room : (σ.declare key).2.size ≤ SymbolTables.idLimit) :
    σ.tables.reserve key = .ok (σ.declare key).2.tables := by
  have last : ((σ.declare key).1.id + 1 == (σ.declare key).2.size) = true := by
    rw [beq_iff_eq, size_declare_of_new new, declare_of_new new]
  rw [SymbolTables.reserve, ordered.intern_tables room]
  show (do
    require ((σ.declare key).1.id + 1 == (σ.declare key).2.size) .brokenRule
    return (σ.declare key).2.tables) = _
  rw [last]
  rfl

/-- Keys of which none was declared before are reserved one after the other. -/
theorem Ordered.foldlM_reserve_tables {keys : List SymbolKey} (ordered : σ.Ordered)
    (nodup : keys.Nodup) (new : ∀ key ∈ keys, σ.get? key = none)
    (room : σ.size + keys.length ≤ SymbolTables.idLimit) :
    keys.foldlM SymbolTables.reserve σ.tables =
      .ok (keys.foldl (fun σ key => (σ.declare key).2) σ).tables := by
  induction keys generalizing σ with
  | nil => rfl
  | cons key rest ih =>
      obtain ⟨absent, nodup⟩ := List.nodup_cons.1 nodup
      obtain ⟨first, later⟩ := List.forall_mem_cons.1 new
      have more := size_declare_of_new first
      rw [List.length_cons] at room
      rw [List.foldlM_cons, ordered.reserve_tables first (by omega)]
      refine ih ordered.intern nodup (fun other among => ?_) (by omega)
      have apart : other ≠ key := fun same => absent (same ▸ among)
      rw [get?_declare, if_neg apart]
      exact later other among

/-- The keys reserved at the start differ, so that each of them gets the next place. -/
theorem initial_tables : SymbolTables.initial = .ok initial.tables := by
  have nothing : Ordered ⟨#[], 0⟩ := fun i d entry => nomatch entry
  exact nothing.foldlM_reserve_tables (by decide +kernel) (fun _ _ => rfl) (by decide)

theorem Grown.perform_tables (grown : σ.Grown)
    (room : (σ.perform r).2.size ≤ SymbolTables.idLimit) :
    σ.tables.perform r = .ok (Prod.map id tables (σ.perform r)) := by
  rw [grown.perform_eq] at room ⊢
  rw [← grown.ordered.intern_tables room]
  -- What is left is that the tables, too, are asked for the key of the request.
  cases r with
  | constant name => rfl
  | function name arity =>
      rw [SymbolTables.perform, SymbolTables.internFunction, SymbolRequest.key]
      split
      · next none => rw [none]; rfl
      · rfl
  | predicate name arity =>
      rw [SymbolTables.perform, SymbolTables.internPredicate]
      split
      · next asked =>
          obtain ⟨rfl, rfl⟩ := asked
          have known : σ.tables.ids (SymbolRequest.predicate "=" 2).key =
              some Symbol.equality.id := congrArg (Option.map _) grown.get?_equality
          rw [SymbolTables.intern, known]
          rfl
      · rfl

/-- Kept in three tables, a signature answers every history of requests as its declarations do. -/
theorem Grown.run_tables (grown : σ.Grown) {requests : List SymbolRequest}
    (room : (σ.run requests).2.size ≤ SymbolTables.idLimit) :
    σ.tables.run requests = .ok (Prod.map id tables (σ.run requests)) := by
  induction requests generalizing σ with
  | nil => rfl
  | cons r rest ih =>
      -- The table never shrinks, so that its last size bounds those on the way there.
      have later := grown.perform r
      have first : (σ.perform r).2.size ≤ SymbolTables.idLimit :=
        (later.size_le_run rest).trans room
      rw [SymbolTables.run, grown.perform_tables first]
      show (do
        let answered ← (σ.perform r).2.tables.run rest
        return ((σ.perform r).1 :: answered.1, answered.2)) = _
      rw [ih later room]
      rfl

/-! ## Answers -/

/-- Every key that a symbol was given out under leads to that symbol, and every place of the table
belongs to one of them. -/
structure Grants (σ : Signature) (given : List (SymbolKey × Symbol)) : Prop where
  found : ∀ p ∈ given, σ.get? p.1 = some p.2
  owned : ∀ id < σ.size, ∃ p ∈ given, p.2.id = id

variable {given : List (SymbolKey × Symbol)}

theorem Grants.declare (grants : σ.Grants given) (key : SymbolKey) :
    (σ.declare key).2.Grants (given ++ [(key, (σ.declare key).1)]) where
  found := by
    refine List.forall_mem_append.2 ⟨fun p among => ?_, List.forall_mem_singleton.2 ?_⟩
    · exact get?_declare_of_known (grants.found p among) key
    · rw [get?_declare, if_pos rfl]
  owned := by
    have keep {id : Nat} (inside : id < σ.size) :
        ∃ p ∈ given ++ [(key, (σ.declare key).1)], p.2.id = id := by
      obtain ⟨p, among, place⟩ := grants.owned id inside
      exact ⟨p, List.mem_append_left _ among, place⟩
    intro id inside
    cases found : σ.get? key with
    | some s =>
        rw [declare_of_known found] at inside
        exact keep inside
    | none =>
        rw [size_declare_of_new found] at inside
        obtain old | last := Nat.lt_succ_iff_lt_or_eq.1 inside
        · exact keep old
        · refine ⟨_, List.mem_append_right _ List.mem_cons_self, ?_⟩
          rw [declare_of_new found, last]

/-- Two symbols that were given out are one just when their keys are. -/
theorem Grants.symbol_eq_iff (grants : σ.Grants given) (ordered : σ.Ordered)
    {p q : SymbolKey × Symbol} (hp : p ∈ given) (hq : q ∈ given) : p.2 = q.2 ↔ p.1 = q.1 := by
  have first := grants.found p hp
  have second := grants.found q hq
  constructor
  · intro same
    exact ordered.key_eq (same ▸ first) second
  · intro same
    rw [same] at first
    exact Option.some.inj (first.symm.trans second)

/-- Nothing stands under a key but what was given out under it. -/
theorem Grants.get?_eq_some_iff (grants : σ.Grants given) (ordered : σ.Ordered) :
    σ.get? key = some s ↔ (key, s) ∈ given := by
  refine ⟨fun found => ?_, grants.found (key, s)⟩
  obtain ⟨⟨other, u⟩, among, place⟩ := grants.owned s.id (ordered.id_lt_size found)
  have known : σ.get? other = some u := grants.found (other, u) among
  obtain rfl : u = s :=
    (ordered.declares_of_get? known).eq_of_id_eq (ordered.declares_of_get? found) place
  rwa [ordered.key_eq found known]

theorem length_answers (σ : Signature) (requests : List SymbolRequest) :
    (σ.run requests).1.length = requests.length := by
  induction requests generalizing σ with
  | nil => rfl
  | cons r rest ih => exact congrArg Nat.succ (ih _)

theorem Grants.run (grants : σ.Grants given) (grown : σ.Grown) (requests : List SymbolRequest) :
    (σ.run requests).2.Grants
      (given ++ (requests.map (·.key)).zip (σ.run requests).1) := by
  induction requests generalizing σ given with
  | nil => rwa [List.map_nil, List.zip_nil_left, List.append_nil]
  | cons r rest ih =>
      have first := grants.declare r.key
      rw [← grown.perform_eq] at first
      have later := ih first (grown.perform r)
      rwa [List.append_assoc] at later

theorem resolve_eq_ok_iff {id : Nat} {name : String} :
    σ.resolve id = .ok name ↔ ∃ d, σ.declarations[id]? = some d ∧ d.name = name := by
  simp only [resolve, declaration, bind, Except.bind, pure, Except.pure]
  cases σ.declarations[id]? with
  | none => simp
  | some d => simp

/-- Under a name stand the places of the entries with that name. -/
theorem Ordered.mem_lookup_iff (ordered : σ.Ordered) {name : String} {id : Nat} :
    id ∈ σ.lookup name ↔ σ.resolve id = .ok name := by
  rw [resolve_eq_ok_iff, lookup, List.mem_map]
  constructor
  · rintro ⟨d, among, rfl⟩
    obtain ⟨listed, named⟩ := List.mem_filter.1 among
    obtain ⟨i, entry⟩ := List.mem_iff_getElem?.1 listed
    rw [Array.getElem?_toList] at entry
    exact ⟨d, by rw [ordered i d entry, entry], beq_iff_eq.1 named⟩
  · rintro ⟨d, entry, named⟩
    refine ⟨d, List.mem_filter.2 ⟨?_, beq_iff_eq.2 named⟩, ordered id d entry⟩
    exact Array.mem_toList_iff.2 (Array.mem_of_getElem? entry)

theorem Ordered.lookup_ascending (ordered : σ.Ordered) (name : String) :
    (σ.lookup name).Pairwise (· < ·) := by
  have place (i : Nat) (inside : i < σ.declarations.toList.length) :
      σ.declarations.toList[i].symbol.id = i := by
    refine ordered i _ ?_
    rw [← Array.getElem?_toList, List.getElem?_eq_getElem inside]
  rw [lookup, List.pairwise_map]
  refine List.Pairwise.filter _ (List.pairwise_iff_getElem.2 fun i j hi hj before => ?_)
  rwa [place i hi, place j hj]

end Signature

/-! ## The main result -/

namespace SymbolTables

/-- The keys of equality and the logical symbols, with the symbols that these are outside of any
signature. -/
def reserved : List (SymbolKey × Symbol) :=
  (.equality, .equality) ::
    (Connective.all.map (fun c => (c.key, c.symbol)) ++
      Quantifier.all.map (fun q => (q.key, q.symbol)))

/-- Each reserved symbol carries the number of its place among the reserved keys. -/
theorem ids_reserved : reserved.map (·.2.id) = List.range reservedKeys.length :=
  rfl

theorem mem_reserved_connective (c : Connective) : (c.key, c.symbol) ∈ reserved := by
  cases c <;> decide

theorem mem_reserved_quantifier (q : Quantifier) : (q.key, q.symbol) ∈ reserved := by
  cases q <;> decide

theorem grants_reserved : Signature.initial.Grants reserved where
  found := by decide +kernel
  owned := by
    intro id inside
    have early : id < reservedKeys.length := inside
    rw [← List.mem_range, ← ids_reserved] at early
    exact List.mem_map.1 early

/-- The reserved symbols and the answers to requests, each with the key that it stands under. -/
def given (requests : List SymbolRequest) (answers : List Symbol) : List (SymbolKey × Symbol) :=
  reserved ++ (requests.map (·.key)).zip answers

/-- What is promised of the tables after some requests were answered. -/
structure Faithful (t : SymbolTables) (requests : List SymbolRequest) (answers : List Symbol) :
    Prop where
  /-- Each request has its answer. -/
  length_eq : answers.length = requests.length
  /-- Two symbols are one just when they stand under one name, category and arity. -/
  symbol_eq_iff : ∀ p ∈ given requests answers, ∀ q ∈ given requests answers,
    p.2 = q.2 ↔ p.1 = q.1
  /-- A symbol is of the category and arity asked for, and its identifier leads to it and to the
  name asked for. -/
  stands : ∀ p ∈ given requests answers, p.2.kind = p.1.kind ∧ p.2.arity = p.1.arity ∧
    t.symbol p.2.id = .ok p.2 ∧ t.resolve p.2.id = .ok p.1.name
  /-- The identifiers are the places of the table. -/
  lt_size_iff : ∀ id, id < t.size ↔ ∃ p ∈ given requests answers, p.2.id = id
  /-- The keys that have an identifier are those of the reserved symbols and of the requests. -/
  ids_eq_some_iff : ∀ key id, t.ids key = some id ↔
    ∃ s, (key, s) ∈ given requests answers ∧ s.id = id
  /-- A name has the identifiers that lead to it. -/
  mem_lookup_iff : ∀ name id, id ∈ t.lookup name ↔ t.resolve id = .ok name
  /-- The identifiers of a name are listed once each, in ascending order. -/
  lookup_ascending : ∀ name, (t.lookup name).Pairwise (· < ·)
  /-- Equality stays what it is. -/
  equality_eq : t.equality = .ok .equality
  /-- Connectives stay what they are. -/
  connective : ∀ c : Connective,
    t.symbol c.symbol.id = .ok c.symbol ∧ t.resolve c.symbol.id = .ok c.name
  /-- Quantifiers stay what they are. -/
  quantifier : ∀ q : Quantifier,
    t.symbol q.symbol.id = .ok q.symbol ∧ t.resolve q.symbol.id = .ok q.name

variable {σ : Signature} {requests : List SymbolRequest} {answers : List Symbol}

theorem faithful_of_grants (grants : σ.Grants (given requests answers)) (ordered : σ.Ordered)
    (answered : answers.length = requests.length) : σ.tables.Faithful requests answers := by
  have stands : ∀ p ∈ given requests answers, p.2.kind = p.1.kind ∧ p.2.arity = p.1.arity ∧
      σ.tables.symbol p.2.id = .ok p.2 ∧ σ.tables.resolve p.2.id = .ok p.1.name := by
    intro p among
    have found := grants.found p among
    obtain ⟨entry, kind, arity⟩ := ordered.entry_of_get? found
    exact ⟨kind, arity, ordered.declares_of_get? found,
      Signature.resolve_eq_ok_iff.2 ⟨_, entry, rfl⟩⟩
  have lt_size_iff (id : Nat) : id < σ.size ↔ ∃ p ∈ given requests answers, p.2.id = id := by
    refine ⟨grants.owned id, ?_⟩
    rintro ⟨p, among, rfl⟩
    exact ordered.id_lt_size (grants.found p among)
  have ids_eq_some_iff (key : SymbolKey) (id : Nat) : σ.tables.ids key = some id ↔
      ∃ s, (key, s) ∈ given requests answers ∧ s.id = id := by
    have listed : σ.tables.ids key = (σ.get? key).map (·.id) := rfl
    simp only [listed, Option.map_eq_some_iff, grants.get?_eq_some_iff ordered]
  have connective (c : Connective) := stands _ (List.mem_append_left _ (mem_reserved_connective c))
  have quantifier (q : Quantifier) := stands _ (List.mem_append_left _ (mem_reserved_quantifier q))
  exact
    { length_eq := answered
      symbol_eq_iff := fun p hp q hq => grants.symbol_eq_iff ordered hp hq
      stands := stands
      lt_size_iff := lt_size_iff
      ids_eq_some_iff := ids_eq_some_iff
      mem_lookup_iff := fun name id => by rw [σ.lookup_tables]; exact ordered.mem_lookup_iff
      lookup_ascending := fun name => by rw [σ.lookup_tables]; exact ordered.lookup_ascending name
      equality_eq := (stands _ List.mem_cons_self).2.2.1
      connective := fun c => (connective c).2.2
      quantifier := fun q => (quantifier q).2.2 }

/-- As long as the identifiers suffice, a signature that is kept in three tables does in every
history of requests what the list of its declarations does, and the tables are faithful to what
was asked for: names, categories and arities on the one side and symbols on the other determine
each other, and the identifiers are the places from the first to the last. -/
theorem interning_is_bijection (requests : List SymbolRequest)
    (few : (Signature.initial.run requests).2.size ≤ idLimit) :
    history requests = .ok (Prod.map id Signature.tables (Signature.initial.run requests)) ∧
      ∀ answers t, history requests = .ok (answers, t) → t.Faithful requests answers := by
  have ran : history requests =
      .ok (Prod.map id Signature.tables (Signature.initial.run requests)) := by
    rw [history, Signature.initial_tables]
    exact Signature.Grown.initial.run_tables few
  refine ⟨ran, fun answers t made => ?_⟩
  cases made.symm.trans ran
  exact faithful_of_grants (grants_reserved.run .initial requests)
    (Signature.Grown.initial.run requests).ordered (Signature.length_answers _ requests)

/-- `f` names a function, a predicate and a constant, and reserved names are used for a function
and for predicates. -/
theorem interning_is_bijection_overloaded :
    let requests : List SymbolRequest := [.function "f" 1, .predicate "f" 1, .constant "f",
      .function "~" 1, .predicate "=" 2, .function "f" 0, .predicate "=" 3, .function "f" 1]
    let answers : List Symbol := [⟨8, .function, 1⟩, ⟨9, .predicate, 1⟩, ⟨10, .constant, 0⟩,
      ⟨11, .function, 1⟩, .equality, ⟨10, .constant, 0⟩, ⟨12, .predicate, 3⟩, ⟨8, .function, 1⟩]
    (Signature.initial.run requests).2.size ≤ idLimit ∧
      ∃ t, history requests = .ok (answers, t) ∧ t.size = 13 ∧ t.lookup "f" = [8, 9, 10] ∧
        t.lookup "=" = [0, 12] ∧ t.Faithful requests answers := by
  intro requests answers
  have few : (Signature.initial.run requests).2.size ≤ idLimit := by decide +kernel
  have ran : history requests = .ok (answers, (Signature.initial.run requests).2.tables) :=
    (interning_is_bijection requests few).1
  exact ⟨few, _, ran, rfl, rfl, rfl, (interning_is_bijection requests few).2 _ _ ran⟩

end SymbolTables

end SaturationCore
