/-
# Linked nodes keep the map of an index

A store of nodes shows an index of vectors when its nodes make up a tree that stands for the trie of
the index. Every step in the use of the store is answered as by the index, and leads to a store that
shows the index after it. So a history of a store that was empty is answered as by the map with slots
from vectors to payloads, and no step is refused but for the length of a vector.

The nodes are then in order. Those that the head leads to, on whatever way, are the ones that are not
free, so none is lost and no link leads to a node that was given up. Along a chain the values ascend,
and every node leads to a leaf.
-/
import SaturationCore.Proofs.FeatureVector.History
import SaturationCore.Proofs.FeatureVector.Paths

namespace SaturationCore

variable {α : Type} {N n : Nat}

theorem Linked.handle_plug {p : Place α N n} {t : Linked α n} (some : t.handle.isSome = true) :
    (p.plug t).handle.isSome = true := by
  induction p with
  | root => exact some
  | under id value greater outer ih => exact ih rfl
  | behind id value below outer ih => exact ih rfl

namespace TrieStore

variable {a a' : TrieStore α} {ix : FeatureIndex α} {v : List Nat}

/-! ## Steps -/

/-- Make a step in a store. -/
def perform (a : TrieStore α) : SlotStep α → Checked (SlotReply α × TrieStore α)
  | .insert v filling => do
    let (leaf, held, a) ← a.insert v
    match filling with
    | none => return (.held held, a)
    | some payload => return (.held held, ← a.put leaf (.leaf (some payload)))
  | .find v => do return (.held (← a.find v), a)
  | .replace v payload => do
    let (found, a) ← a.replace v payload
    return (.replaced found, a)
  | .remove v => do
    let (held, a) ← a.remove v
    return (.held held, a)

/-- What a step answers, and the store after it. One that is refused leaves the store as it is. -/
def step (a : TrieStore α) (s : SlotStep α) : SlotReply α × TrieStore α :=
  match a.perform s with
  | .ok made => made
  | .error fault => (.refused fault, a)

/-- Make several steps, one after the other. -/
def run : List (SlotStep α) → TrieStore α → List (SlotReply α) × TrieStore α
  | [], a => ([], a)
  | s :: rest, a =>
    let later := run rest (a.step s).2
    ((a.step s).1 :: later.1, later.2)

/-! ## Showing an index -/

/-- The nodes make up a tree that stands for the trie of the index. -/
structure Shows (a : TrieStore α) (ix : FeatureIndex α) : Prop where
  length_eq : a.length = ix.length
  tree : ∃ t : Linked α (ix.length.getD 0), a.At .root t ∧ t.root? = ix.root

theorem shows_empty : (empty : TrieStore α).Shows .empty :=
  ⟨rfl, .nil, ⟨rfl, trivial, .refl _⟩, rfl⟩

theorem find?_root? (t : Linked α n) : t.root?.bind (Trie.find? v) = t.trie.find? v := by
  cases some : t.handle with
  | none =>
      obtain rfl := Linked.eq_nil_of_handle some
      exact (Linked.find?_nil v).symm
  | some first =>
      rw [Linked.root?, some]
      rfl

theorem root?_of_find? {t : Linked α n} {payload : Option α} (held : t.trie.find? v = some payload) :
    t.root? = some t.trie := by
  cases some : t.handle with
  | none =>
      obtain rfl := Linked.eq_nil_of_handle some
      rw [Linked.find?_nil] at held
      cases held
  | some first =>
      rw [Linked.root?, some]
      rfl

/-- The trie with a slot filled, whether there was any trie or not. -/
theorem fill_root? (t : Linked α n) (payload : Option α) :
    (match t.root? with
      | some trie => trie.fill payload v
      | none => .path payload v) = t.trie.fill payload v := by
  cases some : t.handle with
  | none =>
      obtain rfl := Linked.eq_nil_of_handle some
      exact (Trie.fill_nil payload v).symm
  | some first =>
      rw [Linked.root?, some]
      rfl

/-- The tree of an index has the depth of its vectors, if that is fixed. -/
theorem Shows.exists_tree {m : Nat} (shows_ : a.Shows ix) (sound : ix.Sound)
    (depth : ∀ n, ix.length = some n → n = m) :
    ∃ t : Linked α m, a.At .root t ∧ t.root? = ix.root ∧ t.Sound := by
  have tree := shows_.tree
  cases held : ix.root with
  | none =>
      obtain ⟨t, at', root⟩ := tree
      have none : t.handle = none := Option.map_eq_none_iff.1 (root.trans held)
      obtain rfl := Linked.eq_nil_of_handle none
      exact ⟨.nil, ⟨at'.leads, trivial, at'.accounted⟩, rfl, .inl rfl⟩
  | some trie =>
      obtain ⟨n, length, shaped⟩ := sound trie held
      obtain rfl := depth n length
      rw [length, Option.getD_some] at tree
      obtain ⟨t, at', root⟩ := tree
      obtain ⟨-, -, rfl⟩ := Option.map_eq_some_iff.1 (root.trans held)
      exact ⟨t, at', root.trans held, .inr shaped⟩

theorem length_of_takes (takes : ix.Takes v) : ∀ n, ix.length = some n → n = v.length := by
  intro n length
  rw [FeatureIndex.Takes, length] at takes
  exact takes

/-- A store that shows the index with a slot filled anew. -/
theorem At.shows_opened {t : Linked α v.length} {q : Place α v.length 0} {id : Nat}
    {payload : Option α} (at' : a.At q (.leaf id payload)) (opens : PathOpens v .root t q id)
    (length : a.length = some v.length) :
    a.Shows ⟨some v.length, some (t.trie.fill payload v)⟩ := by
  obtain ⟨t', plugged, filled⟩ := opens payload
  have some : t'.handle.isSome = true := by
    rw [← show q.plug (.leaf id payload) = t' from plugged]
    exact Linked.handle_plug rfl
  obtain ⟨first, handle⟩ := Option.isSome_iff_exists.1 some
  refine ⟨length, t', at'.congr plugged.symm, ?_⟩
  rw [Linked.root?, handle, filled]
  rfl

/-- What the index does with a vector depends on whether it has a slot. -/
theorem insert_of_root? {t : Linked α v.length} (root : t.root? = ix.root)
    (slot : ix.slot? v = t.trie.find? v) (takes : ix.Takes v) :
    ix.insert v = .ok ((ix.slot? v).elim (none, ⟨some v.length, some (t.trie.fill none v)⟩)
      fun payload => (payload, { ix with length := some v.length })) := by
  have fits : require (v.length == ix.length.getD v.length) .wrongDimension = .ok () := by
    rw [show ix.length.getD v.length = v.length from takes, beq_self_eq_true]
    rfl
  have again : FeatureIndex.slot? { ix with length := some v.length } v = ix.slot? v := by
    rw [slot, FeatureIndex.slot?, if_pos rfl, ← root, find?_root?]
  rw [FeatureIndex.insert, fits, ← fill_root?, root]
  simp only [bind, Except.bind, again]
  cases ix.slot? v <;> rfl

/-- What is answered once the leaf of a vector is reached. -/
theorem insert_of_enter {id : Nat} {payload : Option α} {q : Place α v.length 0}
    (takes : a.length.getD v.length = v.length)
    (reached : enter { a with length := some v.length } v .head = .ok (id, a'))
    (there : a'.At q (.leaf id payload)) : a.insert v = .ok (id, payload, a') := by
  rw [TrieStore.insert, takes, beq_self_eq_true]
  show (enter { a with length := some v.length } v .head >>= _) = _
  rw [reached]
  show (a'.node id >>= _) = _
  rw [node_eq there.written]
  rfl

/-- Inserting a vector answers as the index does. Whatever is written to the leaf that is answered
then, the store shows the index with that in the slot. -/
theorem Shows.exists_insert (shows_ : a.Shows ix) (sound : ix.Sound) (takes : ix.Takes v) :
    ∃ id a' ix', ∃ t : Linked α v.length, ∃ q : Place α v.length 0,
      a.insert v = .ok (id, (ix.slot? v).join, a') ∧ ix.insert v = .ok ((ix.slot? v).join, ix') ∧
        a'.Shows ix' ∧ a'.At q (.leaf id (ix.slot? v).join) ∧ a'.length = some v.length ∧
        PathOpens v .root t q id ∧ ∀ payload, ix'.length = some v.length ∧
          ix'.root.map (Trie.fill payload v) = some (t.trie.fill payload v) := by
  obtain ⟨t, at', root, soundTree⟩ := shows_.exists_tree sound (length_of_takes takes)
  have start : TrieStore.At { a with length := some v.length } .root t :=
    ⟨at'.leads, at'.written, at'.accounted⟩
  have slot : ix.slot? v = t.trie.find? v := by
    rw [sound.slot?_eq, ← root, find?_root?]
  have answered := insert_of_root? root slot takes
  have fits : a.length.getD v.length = v.length := shows_.length_eq ▸ takes
  rcases start.locateBehind_cases soundTree with
    ⟨id, payload, q, located, plugged, held, opens, -⟩ | ⟨-, absent⟩
  · rw [slot, held] at answered ⊢
    have there := start.congr plugged
    refine ⟨id, _, _, t, q, insert_of_enter fits (enter_of_locateBehind located) there, answered,
      ⟨rfl, t, start, root⟩, there, rfl, opens, fun payload' => ⟨rfl, ?_⟩⟩
    show ix.root.map _ = _
    rw [← root, root?_of_find? held]
    rfl
  · rw [slot, absent] at answered ⊢
    obtain ⟨id, a', q, reached, length, there, opens⟩ := start.exists_enter soundTree absent
    refine ⟨id, a', _, t, q, insert_of_enter fits reached there, answered,
      there.shows_opened opens length, there, length, opens, fun payload => ⟨rfl, ?_⟩⟩
    rw [Option.map_some, Trie.fill_fill]

/-- The leaf of a vector is where its slot is, with the way there. -/
theorem Shows.locate_cases (shows_ : a.Shows ix) (sound : ix.Sound) (v : List Nat) :
    (∃ id payload, ∃ t : Linked α v.length, ∃ q : Place α v.length 0,
      a.locate v = .ok (some (id, (q.link, id) :: q.trail)) ∧ ix.slot? v = some payload ∧
        a.At q (.leaf id payload) ∧ a.length = some v.length ∧ ix.length = some v.length ∧
        ix.root = some t.trie ∧ PathOpens v .root t q id ∧ PathCloses v .root t q) ∨
    a.locate v = .ok none ∧ ix.slot? v = none := by
  by_cases length : ix.length = some v.length
  · obtain ⟨t, at', root, soundTree⟩ :=
      shows_.exists_tree sound fun _ same => Option.some.inj (same.symm.trans length)
    have same := shows_.length_eq.trans length
    rw [locate, if_pos same, sound.slot?_eq, ← root, find?_root?]
    rcases at'.locateBehind_cases soundTree with
      ⟨id, payload, q, located, plugged, held, opens, closes⟩ | refused
    · exact .inl ⟨id, payload, t, q, located, held, at'.congr plugged, same, length,
        root?_of_find? held, opens, closes⟩
    · exact .inr refused
  · rw [locate, if_neg fun same => length (shows_.length_eq.symm.trans same), FeatureIndex.slot?,
      if_neg length]
    exact .inr ⟨rfl, rfl⟩

/-! ## A step of the store and of the index -/

theorem Shows.exists_insert_filling (shows_ : a.Shows ix) (sound : ix.Sound) (takes : ix.Takes v)
    (filling : Option α) : ∃ a', a.perform (.insert v filling) =
        .ok ((ix.step (.insert v filling)).1, a') ∧ a'.Shows (ix.step (.insert v filling)).2 := by
  obtain ⟨id, a', ix', t, q, inserted, answered, showsAfter, there, length, opens, filled⟩ :=
    shows_.exists_insert sound takes
  obtain ⟨_, answered', -, -, slots⟩ := sound.insert takes
  obtain rfl := (Prod.mk.inj (Except.ok.inj (answered.symm.trans answered'))).2
  rw [perform, inserted, FeatureIndex.step, answered]
  cases filling with
  | none => exact ⟨a', rfl, showsAfter⟩
  | some payload =>
      obtain ⟨a'', put, length', there'⟩ := there.exists_put (some payload)
      have written : ix'.fill v payload = ⟨some v.length, some (t.trie.fill (some payload) v)⟩ := by
        rw [FeatureIndex.fill, slots, if_pos rfl, ← (filled (some payload)).2,
          ← (filled (some payload)).1]
        rfl
      refine ⟨a'', ?_, ?_⟩
      · show (a'.put id (.leaf (some payload)) >>= _) = _
        rw [put]
        rfl
      · show a''.Shows (ix'.fill v payload)
        rw [written]
        exact there'.shows_opened opens (length'.trans length)

theorem Shows.find_eq (shows_ : a.Shows ix) (sound : ix.Sound) (v : List Nat) :
    a.find v = .ok (ix.find? v) := by
  rw [find, FeatureIndex.find?]
  rcases shows_.locate_cases sound v with
    ⟨id, payload, t, q, located, held, there, -⟩ | ⟨absent, none⟩
  · rw [located, held]
    show (a.node id >>= _) = _
    rw [node_eq there.written]
    rfl
  · rw [absent, none]
    rfl

theorem Shows.exists_replace (shows_ : a.Shows ix) (sound : ix.Sound) (v : List Nat) (payload : α) :
    ∃ a', a.replace v payload = .ok ((ix.replace v payload).1, a') ∧
      a'.Shows (ix.replace v payload).2 := by
  rw [replace, FeatureIndex.replace, FeatureIndex.find?]
  rcases shows_.locate_cases sound v with
    ⟨id, held, t, q, located, slot, there, length, length', root, opens, -⟩ | ⟨absent, none⟩
  · rw [located, slot]
    show ∃ a', (a.node id >>= _) = _ ∧ _
    rw [node_eq there.written]
    cases held with
    | none => exact ⟨a, rfl, shows_⟩
    | some old =>
        obtain ⟨a', put, length'', there'⟩ := there.exists_put (some payload)
        have filled : ix.fill v payload =
            ⟨some v.length, some (t.trie.fill (some payload) v)⟩ := by
          rw [FeatureIndex.fill, slot, root, length']
          rfl
        refine ⟨a', ?_, ?_⟩
        · show (a.put id (.leaf (some payload)) >>= _) = _
          rw [put]
          rfl
        · show a'.Shows (ix.fill v payload)
          rw [filled]
          exact there'.shows_opened opens (length''.trans length)
  · rw [absent, none]
    exact ⟨a, rfl, shows_⟩

theorem Shows.exists_remove (shows_ : a.Shows ix) (sound : ix.Sound) (v : List Nat) :
    ∃ a', a.remove v = .ok ((ix.remove v).1, a') ∧ a'.Shows (ix.remove v).2 := by
  rw [remove, FeatureIndex.remove]
  rcases shows_.locate_cases sound v with
    ⟨id, payload, t, q, located, slot, there, length, length', root, opens, closes⟩ | ⟨absent, none⟩
  · obtain ⟨a₁, emptied, length₁, at₁⟩ := there.exists_put none
    obtain ⟨a₂, detached, length₂, at₂⟩ :=
      at₁.exists_detach (s := .nil) (.refl _) fun _ => trivial
    obtain ⟨a₃, pruned, length₃, at₃⟩ := at₂.exists_prune
    obtain ⟨t', lifted, removed⟩ := closes
    rw [located, slot]
    obtain ⟨_, _⟩ := ix
    obtain rfl := length'
    obtain rfl := root
    refine ⟨a₃, ?_, length₃.trans (length₂.trans (length₁.trans length)), t', ?_, removed⟩
    · show (a.node id >>= _) = _
      rw [node_eq there.written]
      show (a.put id (.leaf none) >>= _) = _
      rw [emptied]
      show (a₁.detach q.link id none >>= _) = _
      rw [show a₁.detach q.link id none = .ok a₂ from detached]
      show (a₂.prune q.trail >>= _) = _
      rw [pruned]
      rfl
    · rw [lifted] at at₃
      exact at₃
  · rw [absent, none]
    exact ⟨a, rfl, shows_⟩

/-- Every step is answered as by the index, and the store shows the index after it. -/
theorem Shows.step (shows_ : a.Shows ix) (sound : ix.Sound) (s : SlotStep α) :
    (a.step s).1 = (ix.step s).1 ∧ (a.step s).2.Shows (ix.step s).2 := by
  have made (h : ∃ a', a.perform s = .ok ((ix.step s).1, a') ∧ a'.Shows (ix.step s).2) :
      (a.step s).1 = (ix.step s).1 ∧ (a.step s).2.Shows (ix.step s).2 := by
    obtain ⟨a', performed, shows'⟩ := h
    rw [TrieStore.step, performed]
    exact ⟨rfl, shows'⟩
  cases s with
  | insert v filling =>
      by_cases takes : ix.Takes v
      · exact made (shows_.exists_insert_filling sound takes filling)
      · -- Nothing is done before the length is compared.
        have other : (v.length == ix.length.getD v.length) = false :=
          beq_eq_false_iff_ne.2 fun same => takes same.symm
        rw [TrieStore.step, perform, insert, shows_.length_eq, FeatureIndex.step,
          FeatureIndex.insert, other]
        exact ⟨rfl, shows_⟩
  | find v =>
      refine made ⟨a, ?_, shows_⟩
      rw [perform, shows_.find_eq sound]
      rfl
  | replace v payload =>
      obtain ⟨a', replaced, shows'⟩ := shows_.exists_replace sound v payload
      refine made ⟨a', ?_, shows'⟩
      rw [perform, replaced]
      rfl
  | remove v =>
      obtain ⟨a', removed, shows'⟩ := shows_.exists_remove sound v
      refine made ⟨a', ?_, shows'⟩
      rw [perform, removed]
      rfl

theorem Shows.run {m : SlotMap α} (shows_ : a.Shows ix) (keeps : ix.Keeps m)
    (steps : List (SlotStep α)) :
    (a.run steps).1 = (ix.run steps).1 ∧ (a.run steps).2.Shows (ix.run steps).2 := by
  induction steps generalizing a ix m with
  | nil => exact ⟨rfl, shows_⟩
  | cons s rest ih =>
      obtain ⟨answered, shows'⟩ := shows_.step keeps.sound s
      obtain ⟨answeredLater, showsLater⟩ := ih shows' (keeps.step s).2
      exact ⟨congr (congrArg List.cons answered) answeredLater, showsLater⟩

/-! ## Nodes in order -/

/-- The nodes that the head leads to, on whatever way. -/
inductive Reachable (a : TrieStore α) : Nat → Prop where
  | head {id : Nat} : a.head = some id → a.Reachable id
  | ofBelow {id value below : Nat} {greater : Option Nat} : a.Reachable id →
      a.nodes[id]? = some (.inner value (some below) greater) → a.Reachable below
  | ofGreater {id value greater : Nat} {below : Option Nat} : a.Reachable id →
      a.nodes[id]? = some (.inner value below (some greater)) → a.Reachable greater

/-- Going below from a node leads to a leaf. -/
inductive EndsInLeaf (a : TrieStore α) : Nat → Prop where
  | leaf {id : Nat} {payload : Option α} : a.nodes[id]? = some (.leaf payload) → a.EndsInLeaf id
  | ofBelow {id value below : Nat} {greater : Option Nat} :
      a.nodes[id]? = some (.inner value (some below) greater) → a.EndsInLeaf below →
      a.EndsInLeaf id

/-- The next node of a chain has a greater value. -/
def AscendsFrom (a : TrieStore α) (id : Nat) : Prop :=
  ∀ value below greater, a.nodes[id]? = some (.inner value below (some greater)) →
    ∃ value' below' greater', a.nodes[greater]? = some (.inner value' below' greater') ∧
      value < value'

/-- Every node is either reachable or free, and those that are reachable are in order. -/
structure InOrder (a : TrieStore α) : Prop where
  reachable_iff : ∀ id, a.Reachable id ↔ id < a.nodes.size ∧ id ∉ a.free
  nodup_free : a.free.Nodup
  ascending : ∀ id, a.Reachable id → a.AscendsFrom id
  endsInLeaf : ∀ id, a.Reachable id → a.EndsInLeaf id

theorem mem_ids_of_handle {t : Linked α n} {id : Nat} (first : t.handle = some id) : id ∈ t.ids := by
  cases t with
  | nil => cases first
  | leaf => exact Option.some.inj first ▸ List.mem_cons_self
  | inner => exact Option.some.inj first ▸ List.mem_cons_self

/-- The links out of nodes of a tree lead to nodes of it. -/
theorem mem_ids_of_link {t : Linked α n} {id value next : Nat} {below greater : Option Nat}
    (written : t.Written a.nodes) (inside : id ∈ t.ids)
    (here : a.nodes[id]? = some (.inner value below greater))
    (linked : below = some next ∨ greater = some next) : next ∈ t.ids := by
  induction t with
  | nil => cases inside
  | leaf id' payload =>
      obtain rfl := List.mem_singleton.1 inside
      cases written.symm.trans here
  | inner id' value' below' greater' ih ih' =>
      obtain ⟨there, writtenBelow, writtenGreater⟩ := written
      rw [Linked.ids, List.mem_cons, List.mem_append] at inside ⊢
      rcases inside with rfl | inside | inside
      · cases there.symm.trans here
        exact .inr (linked.imp mem_ids_of_handle mem_ids_of_handle)
      · exact .inr (.inl (ih writtenBelow inside))
      · exact .inr (.inr (ih' writtenGreater inside))

/-- Behind a node that is reachable, all nodes of the tree are. -/
theorem reachable_of_mem_ids {t : Linked α n} (written : t.Written a.nodes)
    (first : ∀ id, t.handle = some id → a.Reachable id) : ∀ id ∈ t.ids, a.Reachable id := by
  induction t with
  | nil => exact nofun
  | leaf id payload => exact List.forall_mem_singleton.2 (first id rfl)
  | inner id value below greater ih ih' =>
      obtain ⟨here, writtenBelow, writtenGreater⟩ := written
      have start := first id rfl
      refine List.forall_mem_cons.2 ⟨start, List.forall_mem_append.2
        ⟨ih writtenBelow fun next handle => ?_, ih' writtenGreater fun next handle => ?_⟩⟩
      · exact start.ofBelow (handle ▸ here)
      · exact start.ofGreater (handle ▸ here)

theorem At.reachable_iff {t : Linked α n} (at' : a.At .root t) (id : Nat) :
    a.Reachable id ↔ id ∈ t.ids := by
  constructor
  · intro reachable
    induction reachable with
    | head first => exact mem_ids_of_handle (at'.leads.symm.trans first)
    | ofBelow _ here ih => exact mem_ids_of_link at'.written ih here (.inl rfl)
    | ofGreater _ here ih => exact mem_ids_of_link at'.written ih here (.inr rfl)
  · exact reachable_of_mem_ids at'.written (fun id first => .head (at'.leads.trans first)) id

/-- The nodes of a tree that stands for a trie are in order. -/
theorem inOrder_of_written {t : Linked α n} (written : t.Written a.nodes) (sound : t.Sound) :
    ∀ id ∈ t.ids, a.AscendsFrom id ∧ a.EndsInLeaf id := by
  induction t with
  | nil => exact nofun
  | leaf id payload =>
      refine List.forall_mem_singleton.2 ⟨fun _ _ _ here => ?_, .leaf written⟩
      cases written.symm.trans here
  | inner id value below greater ih ih' =>
      obtain ⟨here, writtenBelow, writtenGreater⟩ := written
      obtain ⟨shaped, soundGreater, least⟩ := sound.parts
      have orderBelow := ih writtenBelow (.inr shaped)
      refine List.forall_mem_cons.2 ⟨⟨fun _ _ _ here' => ?_, ?_⟩,
        List.forall_mem_append.2 ⟨orderBelow, ih' writtenGreater soundGreater⟩⟩
      · obtain ⟨rfl, -, next⟩ := TrieNode.inner.inj (Option.some.inj (here'.symm.trans here))
        cases greater with
        | nil => cases next
        | inner id' value' below' greater' =>
            cases next
            exact ⟨value', _, _, writtenGreater.1, least _ List.mem_cons_self⟩
      · cases first : below.handle with
        | none =>
            obtain rfl := Linked.eq_nil_of_handle first
            exact absurd shaped Linked.not_shaped_nil
        | some next =>
            exact .ofBelow (first ▸ here) (orderBelow next (mem_ids_of_handle first)).2

theorem At.inOrder {t : Linked α n} (at' : a.At .root t) (sound : t.Sound) : a.InOrder where
  reachable_iff id := by
    have apart := List.nodup_append.1 at'.accounted.nodup
    rw [at'.reachable_iff]
    constructor
    · intro inside
      exact ⟨at'.accounted.lt_size (List.mem_append_left _ inside),
        fun free => apart.2.2 id inside id free rfl⟩
    · rintro ⟨small, used⟩
      have here := at'.accounted.mem_iff.2 (List.mem_range.2 small)
      exact (List.mem_append.1 here).resolve_right used
  nodup_free := (List.nodup_append.1 at'.accounted.nodup).2.1
  ascending id reachable :=
    (inOrder_of_written at'.written sound id ((at'.reachable_iff id).1 reachable)).1
  endsInLeaf id reachable :=
    (inOrder_of_written at'.written sound id ((at'.reachable_iff id).1 reachable)).2

/-- The store is read as a map with slots, and its nodes are in order. -/
structure Refines (a : TrieStore α) (m : SlotMap α) : Prop where
  length_eq : a.length = m.length
  find_eq : ∀ v, a.find v = .ok (m.slot v).join
  isEmpty_iff : a.isEmpty = true ↔ ∀ v, m.slot v = none
  slot_length : ∀ v, (m.slot v).isSome = true → m.length = some v.length
  inOrder : a.InOrder

theorem Shows.refines {m : SlotMap α} (shows_ : a.Shows ix) (keeps : ix.Keeps m) : a.Refines m where
  length_eq := shows_.length_eq.trans keeps.length_eq
  find_eq v := by rw [shows_.find_eq keeps.sound, keeps.find?_eq]
  isEmpty_iff := by
    obtain ⟨t, at', root⟩ := shows_.tree
    rw [← keeps.isEmpty_iff, isEmpty, FeatureIndex.isEmpty, at'.leads, ← root, Linked.root?,
      Option.isNone_map]
  slot_length _ := keeps.slot_length
  inOrder := by
    obtain ⟨t, at', -, sound⟩ := shows_.exists_tree (m := ix.length.getD 0) keeps.sound fun n length => by
      rw [length]
      rfl
    exact at'.inOrder sound

/-- Every history of a store that was empty is answered as by the map with slots, and the store
refines the map after it. Its nodes then stand for the trie of the index with the same history. The
length is that of the vector inserted first, whatever happened later. -/
theorem history_refines (steps : List (SlotStep α)) :
    (empty.run steps).1 = (SlotMap.empty.run steps).1 ∧
      (empty.run steps).2.Refines (SlotMap.empty.run steps).2 ∧
      (empty.run steps).2.Shows (FeatureIndex.empty.run steps).2 ∧
      (empty.run steps).2.length = (steps.findSome? SlotStep.inserted?).map (·.length) := by
  obtain ⟨answered, shows_⟩ := shows_empty.run .empty steps
  obtain ⟨answered', keeps⟩ := FeatureIndex.Keeps.empty.run steps
  obtain ⟨-, -, length⟩ := FeatureIndex.run_refines steps
  exact ⟨answered.trans answered', shows_.refines keeps, shows_, shows_.length_eq.trans length⟩

end TrieStore

end SaturationCore
