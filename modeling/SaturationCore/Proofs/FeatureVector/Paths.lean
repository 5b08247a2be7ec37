/-
# Ways through linked nodes

A chain is searched by passing the nodes of lesser values. What is passed belongs to the place that is
reached; what is found there is the rest of the chain, and with something else in its place the chain
is spliced. In terms of tries, a branch is put in its place or is taken out.

So the way of a vector ends at the leaf of the vector, wherever it goes on below at every position.
What is written there changes the trie as filling the slot does. Nodes that are missing are made on
the way, and then it is as if they had been there. When the leaf is dropped, the nodes on the way back
that lead nowhere are dropped as well, and the trie is the one without the vector.
-/
import SaturationCore.Proofs.FeatureVector.Linked
import SaturationCore.Proofs.FeatureVector.Trie

namespace SaturationCore

variable {α : Type} {N n : Nat}

namespace Trie

variable {k : Nat} {v : List Nat} {below below' : Trie α} {edges : List (Nat × Trie α)}
  {payload payload' : Option α}

/-- A vector has a path of its own where nothing was before. -/
theorem fill_nil (payload : Option α) (v : List Nat) :
    fill payload v (.branches []) = path payload v := by
  cases v <;> rfl

/-- Filling a slot goes on below, or where nothing was before. -/
theorem fill_cons : fill payload (k :: v) (.branches edges) =
    .branches (place k (fill payload v ((follow? k edges).getD (.branches []))) edges) := by
  rw [fill]
  cases follow? k edges with
  | some below => rfl
  | none => rw [Option.getD_none, fill_nil]

theorem place_place : place k below (place k below' edges) = place k below edges := by
  induction edges with
  | nil => simp [place]
  | cons edge edges ih =>
      obtain ⟨m, t⟩ := edge
      rw [place, place]
      by_cases lower : m < k
      · rw [if_pos lower, if_pos lower, place, if_pos lower, ih]
      · by_cases same : m = k
        · simp [place, same]
        · simp [place, lower, same]

/-- Of a slot that is filled twice, the second payload stays. -/
theorem fill_fill (t : Trie α) :
    fill payload v (fill payload' v t) = fill payload v t := by
  induction v generalizing t with
  | nil => rfl
  | cons k v ih =>
      cases t with
      | slot => rfl
      | branches edges =>
          rw [fill_cons, fill_cons, fill_cons, follow?_place, if_pos rfl, Option.getD_some, ih,
            place_place]

end Trie

namespace Linked

/-- What is proved of a chain by going through it. -/
@[elab_as_elim]
theorem chain_induction {motive : Linked α (n + 1) → Prop} (nil : motive nil)
    (inner : ∀ id value below greater, motive greater → motive (inner id value below greater)) :
    ∀ t : Linked α (n + 1), motive t
  | .nil => nil
  | .inner id value below greater =>
      inner id value below greater (chain_induction nil inner greater)

/-! ## Reading a tree as a trie -/

/-- The trie whose first node is that of the tree. -/
def lead (t : Linked α n) (edges : List (Nat × Trie α)) : Trie α :=
  match t with
  | leaf _ payload => .slot payload
  | _ => .branches edges

/-- The values of a chain and what is below them. -/
def edges : {n : Nat} → Linked α n → List (Nat × Trie α)
  | _, nil => []
  | _, leaf _ _ => []
  | _, inner _ value below greater => (value, below.lead below.edges) :: greater.edges

/-- The trie that a tree stands for. -/
def trie (t : Linked α n) : Trie α :=
  t.lead t.edges

/-- The trie that a tree stands for, if it has any vector. -/
def root? (t : Linked α n) : Option (Trie α) :=
  t.handle.map fun _ => t.trie

theorem trie_chain (t : Linked α (n + 1)) : t.trie = .branches t.edges := by
  cases t <;> rfl

theorem find?_nil (v : List Nat) : (nil : Linked α n).trie.find? v = none := by
  cases v <;> rfl

theorem not_shaped_nil : ¬(nil : Linked α n).trie.Shaped n := by
  intro shaped
  have empty : Trie.Shaped n (.branches ([] : List (Nat × Trie α))) := shaped
  cases empty with
  | branches some => exact some rfl

theorem eq_nil_of_handle {t : Linked α n} (none : t.handle = none) : t = nil := by
  cases t with
  | nil => rfl
  | leaf => cases none
  | inner => cases none

theorem root?_chain (t : Linked α (n + 1)) :
    t.root? = if t.edges.isEmpty then none else some (.branches t.edges) := by
  cases t <;> rfl

/-- Either there are no nodes, or they make up a trie of the fixed shape. -/
def Sound (t : Linked α n) : Prop :=
  t = nil ∨ t.trie.Shaped n

theorem Sound.ascending {t : Linked α (n + 1)} (sound : t.Sound) : Trie.Ascending t.edges := by
  rcases sound with rfl | shaped
  · exact .nil
  · rw [trie_chain] at shaped
    cases shaped with
    | branches _ ascending _ => exact ascending

theorem Sound.below {t : Linked α (n + 1)} {below : Linked α n} {k : Nat} (sound : t.Sound)
    (found : Trie.follow? k t.edges = some below.trie) : below.Sound := by
  rcases sound with rfl | shaped
  · cases found
  · rw [trie_chain] at shaped
    cases shaped with
    | branches _ _ inner => exact .inr (inner _ (Trie.mem_of_follow? found))

/-- The parts of a chain that stands for a trie. -/
theorem Sound.parts {id value : Nat} {below : Linked α n} {greater : Linked α (n + 1)}
    (sound : (inner id value below greater).Sound) :
    below.trie.Shaped n ∧ greater.Sound ∧ ∀ edge ∈ greater.edges, value < edge.1 := by
  rcases sound with none | shaped
  · cases none
  · rw [trie_chain] at shaped
    cases shaped with
    | branches _ ascending inner =>
        obtain ⟨least, others⟩ := List.pairwise_cons.1 ascending
        rw [edges, List.forall_mem_cons] at inner
        refine ⟨inner.1, ?_, least⟩
        cases greater with
        | nil => exact .inl rfl
        | inner => exact .inr (.branches (List.cons_ne_nil _ _) others inner.2)

/-! ## Searching a chain -/

/-- What is left of a chain when the lesser values are passed. -/
def rest (k : Nat) : {n : Nat} → Linked α n → Linked α n
  | _, nil => nil
  | _, leaf id payload => leaf id payload
  | _, inner id value below greater =>
      if value < k then greater.rest k else inner id value below greater

/-- What is left of a chain when the value is passed as well. -/
def behind (k : Nat) : {n : Nat} → Linked α n → Linked α n
  | _, nil => nil
  | _, leaf id payload => leaf id payload
  | _, inner id value below greater =>
      if value < k then greater.behind k
      else if value = k then greater else inner id value below greater

/-- The chain with something else instead of what is left when the lesser values are passed. -/
def splice (k : Nat) : {n : Nat} → Linked α n → Linked α n → Linked α n
  | _, nil, s => s
  | _, leaf _ _, s => s
  | _, inner id value below greater, s =>
      if value < k then inner id value below (greater.splice k s) else s

/-- How many nodes a chain has. -/
def siblings : {n : Nat} → Linked α n → Nat
  | _, nil => 0
  | _, leaf _ _ => 0
  | _, inner _ _ _ greater => greater.siblings + 1

/-- What is found of a value when the lesser ones are passed. -/
def sought (k : Nat) : Linked α n → Sought
  | nil => .missing none
  | leaf _ _ => .missing none
  | inner id value _ _ => if value = k then .found id else .missing (some id)

variable {k : Nat}

theorem splice_rest (t : Linked α (n + 1)) : t.splice k (t.rest k) = t := by
  induction t using chain_induction with
  | nil => rfl
  | inner id value below greater ih =>
      rw [rest, splice]
      split
      · rw [ih]
      · rfl

theorem siblings_le (t : Linked α n) : t.siblings ≤ t.ids.length := by
  induction t with
  | nil => exact Nat.le_refl _
  | leaf => exact Nat.zero_le _
  | inner id value below greater _ ih =>
      rw [siblings, ids, List.length_cons, List.length_append]
      omega

/-- The value stands first in what is left of the chain, or it is not in the chain. -/
theorem rest_cases (t : Linked α (n + 1)) :
    (∃ id below, t.rest k = inner id k below (t.behind k) ∧
      Trie.follow? k t.edges = some below.trie) ∨
    t.rest k = t.behind k ∧ (t.rest k).sought k = .missing (t.rest k).handle ∧
      (Trie.Ascending t.edges → Trie.follow? k t.edges = none) := by
  induction t using chain_induction with
  | nil => exact .inr ⟨rfl, rfl, fun _ => rfl⟩
  | inner id value below greater ih =>
      rw [rest, behind, edges, Trie.follow?_cons]
      by_cases lower : value < k
      · rw [if_pos lower, if_pos lower, if_neg (Nat.ne_of_gt lower)]
        refine ih.imp_right fun ⟨same, sought, absent⟩ => ⟨same, sought, fun ascending => ?_⟩
        exact absent (List.pairwise_cons.1 ascending).2
      · rw [if_neg lower, if_neg lower]
        by_cases same : value = k
        · subst same
          rw [if_pos rfl, if_pos rfl]
          exact .inl ⟨id, below, rfl, rfl⟩
        · rw [if_neg same, if_neg (Ne.symm same), sought, if_neg same]
          refine .inr ⟨rfl, rfl, fun ascending => ?_⟩
          cases found : Trie.follow? k greater.edges with
          | none => rfl
          | some t =>
              have later := (List.pairwise_cons.1 ascending).1 _ (Trie.mem_of_follow? found)
              dsimp only at later
              omega

/-- A branch is put in its place. -/
theorem edges_splice_inner (t : Linked α (n + 1)) (id : Nat) (below : Linked α n) :
    (t.splice k (inner id k below (t.behind k))).edges = Trie.place k below.trie t.edges := by
  induction t using chain_induction with
  | nil => rfl
  | inner id' value below' greater ih =>
      rw [splice, behind]
      show _ = Trie.place k below.trie ((value, below'.trie) :: greater.edges)
      rw [Trie.place]
      by_cases lower : value < k
      · rw [if_pos lower, if_pos lower, if_pos lower, edges, ih]
        rfl
      · rw [if_neg lower, if_neg lower, if_neg lower]
        by_cases same : value = k
        · rw [if_pos same, if_pos same]
          rfl
        · rw [if_neg same, if_neg same]
          rfl

/-- A branch is taken out. -/
theorem edges_splice_behind (t : Linked α (n + 1)) (ascending : Trie.Ascending t.edges) :
    (t.splice k (t.behind k)).edges = t.edges.filter (·.1 != k) := by
  induction t using chain_induction with
  | nil => rfl
  | inner id value below greater ih =>
      obtain ⟨least, others⟩ := List.pairwise_cons.1 ascending
      rw [splice, behind, edges, List.filter_cons]
      by_cases lower : value < k
      · rw [if_pos lower, if_pos lower, if_pos (bne_iff_ne.2 (Nat.ne_of_lt lower)), edges, ih others]
      · rw [if_neg lower, if_neg lower]
        have above : ∀ edge ∈ greater.edges, (edge.1 != k) = true := fun edge inside => by
          have later := least edge inside
          dsimp only at later
          exact bne_iff_ne.2 (by omega)
        by_cases same : value = k
        · rw [if_pos same, if_neg (by simp [same]), List.filter_eq_self.2 above]
        · rw [if_neg same, if_pos (bne_iff_ne.2 same), List.filter_eq_self.2 above]
          rfl

end Linked

namespace Place

/-- The place in a chain where the lesser values are passed. -/
def past (k : Nat) : {n : Nat} → Place α N n → Linked α n → Place α N n
  | _, p, .nil => p
  | _, p, .leaf _ _ => p
  | _, p, .inner id value below greater =>
      if value < k then (Place.behind id value below p).past k greater else p

/-- The nodes above the place, the last one first, each with the link that leads to it. -/
def trail : {n : Nat} → Place α N n → List (TrieLink × Nat)
  | _, root => []
  | _, under id _ _ outer => (outer.link, id) :: outer.trail
  | _, behind _ _ _ outer => outer.trail

/-- The tree in which a tree hangs at the place. Without nodes there, nodes that lead nowhere else are
missing as well. -/
def lift : {n : Nat} → Place α N n → Linked α n → Linked α N
  | _, root, t => t
  | _, behind id value below outer, t => outer.lift (.inner id value below t)
  | _, under id value greater outer, t =>
      if t.handle.isSome then outer.plug (.inner id value t greater) else outer.lift greater

variable {p : Place α N (n + 1)} {k : Nat}

theorem plug_past (p : Place α N (n + 1)) (t s : Linked α (n + 1)) :
    (p.past k t).plug s = p.plug (t.splice k s) := by
  induction t using Linked.chain_induction generalizing p with
  | nil => rfl
  | inner id value below greater ih =>
      rw [past, Linked.splice]
      split
      · exact ih _
      · rfl

theorem lift_past (p : Place α N (n + 1)) (t s : Linked α (n + 1)) :
    (p.past k t).lift s = p.lift (t.splice k s) := by
  induction t using Linked.chain_induction generalizing p with
  | nil => rfl
  | inner id value below greater ih =>
      rw [past, Linked.splice]
      split
      · exact ih _
      · rfl

theorem trail_past (p : Place α N (n + 1)) (t : Linked α (n + 1)) : (p.past k t).trail = p.trail := by
  induction t using Linked.chain_induction generalizing p with
  | nil => rfl
  | inner id value below greater ih =>
      rw [past]
      split
      · exact ih _
      · rfl

/-- Where there are nodes, none is missing. -/
theorem lift_of_isSome {p : Place α N n} {t : Linked α n} (some : t.handle.isSome = true) :
    p.lift t = p.plug t := by
  induction p with
  | root => rfl
  | under id value greater outer => exact if_pos some
  | behind id value below outer ih => exact ih rfl

end Place

/-! ## The way of a vector -/

section Ways

variable {k : Nat} {w : List Nat} {q : Place α N 0} {id : Nat}

/-- Whatever is written to the leaf at one place, in the trie at another one it fills the slot of the
vector. -/
def PathOpens (v : List Nat) (p : Place α N v.length) (t : Linked α v.length) (q : Place α N 0)
    (id : Nat) : Prop :=
  ∀ payload, ∃ t' : Linked α v.length,
    q.plug (.leaf id payload) = p.plug t' ∧ t'.trie = t.trie.fill payload v

/-- Dropping the leaf at one place removes the vector from the trie at another one. -/
def PathCloses (v : List Nat) (p : Place α N v.length) (t : Linked α v.length) (q : Place α N 0) : Prop :=
  ∃ t' : Linked α v.length, q.lift .nil = p.lift t' ∧ t'.root? = t.trie.remove v

theorem PathOpens.cons {p : Place α N (w.length + 1)} {t : Linked α (w.length + 1)} {id' : Nat}
    {below : Linked α w.length}
    (opens : PathOpens w (.under id' k (t.behind k) (p.past k t)) below q id)
    (same : below.trie = (Trie.follow? k t.edges).getD (.branches [])) : PathOpens (k :: w) p t q id := by
  intro payload
  obtain ⟨below', plugged, filled⟩ := opens payload
  refine ⟨t.splice k (.inner id' k below' (t.behind k)), plugged.trans (Place.plug_past p t _), ?_⟩
  rw [Linked.trie_chain, Linked.trie_chain, Trie.fill_cons, Linked.edges_splice_inner, filled, same]

theorem PathCloses.cons {p : Place α N (w.length + 1)} {t : Linked α (w.length + 1)} {id' : Nat}
    {below : Linked α w.length} (ascending : Trie.Ascending t.edges)
    (closes : PathCloses w (.under id' k (t.behind k) (p.past k t)) below q)
    (found : Trie.follow? k t.edges = some below.trie) : PathCloses (k :: w) p t q := by
  obtain ⟨below', lifted, removed⟩ := closes
  rw [PathCloses, Linked.trie_chain, Trie.remove_branches found, ← removed]
  cases some : below'.handle with
  | none =>
      refine ⟨t.splice k (t.behind k), ?_, ?_⟩
      · rw [lifted, Place.lift, some, ← Place.lift_past]
        rfl
      · rw [Linked.root?_chain, Linked.edges_splice_behind t ascending, Linked.root?, some]
        rfl
  | some first =>
      have behind : (t.splice k (.inner id' k below' (t.behind k))).handle.isSome = true := by
        cases t with
        | nil => rfl
        | inner =>
            rw [Linked.splice]
            split <;> rfl
      refine ⟨t.splice k (.inner id' k below' (t.behind k)), ?_, ?_⟩
      · rw [lifted, Place.lift, some, Place.lift_of_isSome behind, ← Place.plug_past]
        rfl
      · rw [Linked.root?_chain, Linked.edges_splice_inner, Linked.root?, some]
        rfl

end Ways

namespace TrieStore

variable {a : TrieStore α}

theorem At.past {k : Nat} {p : Place α N (n + 1)} {t : Linked α (n + 1)} (at' : a.At p t) :
    a.At (p.past k t) (t.rest k) :=
  at'.congr (by rw [Place.plug_past, Linked.splice_rest])

/-- Searching a chain ends where the lesser values are passed. -/
theorem At.seek_eq {k steps : Nat} {p : Place α N (n + 1)} {t : Linked α (n + 1)} (at' : a.At p t)
    (enough : t.siblings < steps) :
    a.seek k steps p.link = .ok ((p.past k t).link, (t.rest k).sought k) := by
  induction t using Linked.chain_induction generalizing p steps with
  | nil =>
      obtain ⟨steps, rfl⟩ := Nat.exists_eq_succ_of_ne_zero (Nat.ne_of_gt enough)
      rw [seek, at'.leads.follow_eq]
      rfl
  | inner id value below greater ih =>
      obtain ⟨steps, rfl⟩ := Nat.exists_eq_succ_of_ne_zero (Nat.ne_of_gt (Nat.zero_lt_of_lt enough))
      have valued : a.value id = .ok value := by
        rw [TrieStore.value, node_eq at'.written.1]
        rfl
      have here : a.seek k (steps + 1) p.link =
          if value < k then a.seek k steps (.greater id)
          else if value = k then .ok (p.link, .found id) else .ok (p.link, .missing (some id)) := by
        rw [seek, at'.leads.follow_eq]
        show (a.value id >>= fun here => _) = _
        rw [valued]
        rfl
      rw [here, Place.past, Linked.rest]
      split
      · exact ih (p := .behind id value below p) (at'.congr rfl) (Nat.lt_of_succ_lt_succ enough)
      · rw [Linked.sought]
        split <;> rfl

theorem At.seekChain_eq {k : Nat} {p : Place α N (n + 1)} {t : Linked α (n + 1)} (at' : a.At p t) :
    a.seekChain k p.link = .ok ((p.past k t).link, (t.rest k).sought k) := by
  refine at'.seek_eq (Nat.lt_succ_of_le (Nat.le_trans t.siblings_le ?_))
  have whole := at'.accounted.length_eq
  rw [List.length_range, List.length_append, List.length_append] at whole
  omega

variable {v : List Nat}

/-- The way of a vector leads to its leaf, or the vector is not in the trie. -/
theorem At.locateBehind_cases {p : Place α N v.length} {t : Linked α v.length} (at' : a.At p t)
    (sound : t.Sound) :
    (∃ id payload, ∃ q : Place α N 0,
      a.locateBehind v p.link p.trail = .ok (some (id, (q.link, id) :: q.trail)) ∧
        q.plug (.leaf id payload) = p.plug t ∧ t.trie.find? v = some payload ∧
        PathOpens v p t q id ∧ PathCloses v p t q) ∨
    a.locateBehind v p.link p.trail = .ok none ∧ t.trie.find? v = none := by
  induction v with
  | nil =>
      rw [locateBehind, at'.leads.follow_eq]
      cases t with
      | nil => exact .inr ⟨rfl, rfl⟩
      | leaf id payload =>
          exact .inl ⟨id, payload, p, rfl, rfl, rfl, fun payload' => ⟨.leaf id payload', rfl, rfl⟩,
            ⟨.nil, rfl, rfl⟩⟩
  | cons k w ih =>
      rw [locateBehind, At.seekChain_eq at', Linked.trie_chain, Trie.find?_branches]
      rcases t.rest_cases (k := k) with ⟨id, below, here, found⟩ | ⟨-, sought, absent⟩
      · have inside : a.At (.under id k (t.behind k) (p.past k t)) below :=
          at'.past.congr (congrArg (p.past k t).plug here.symm)
        have way := ih inside (sound.below found)
        rw [Place.trail, Place.trail_past] at way
        have onward : (t.rest k).sought k = .found id := by
          rw [here]
          exact if_pos rfl
        rw [onward, found]
        rcases way with ⟨leaf, payload, q, located, plugged, held, opens, closes⟩ | refused
        · refine .inl ⟨leaf, payload, q, located, ?_, held, opens.cons ?_,
            closes.cons sound.ascending found⟩
          · rw [plugged, Place.plug, ← here, Place.plug_past, Linked.splice_rest]
          · rw [found]
            rfl
        · exact .inr refused
      · rw [sought, absent sound.ascending]
        exact .inr ⟨rfl, rfl⟩

/-- A leaf that is found is also the one that is entered. -/
theorem enter_of_locateBehind {id : Nat} {link : TrieLink} {links links' : List (TrieLink × Nat)}
    (located : a.locateBehind v link links = .ok (some (id, links'))) :
    a.enter v link = .ok (id, a) := by
  induction v generalizing link links with
  | nil =>
      simp only [locateBehind, bind_eq_ok_iff] at located
      obtain ⟨handle, followed, located⟩ := located
      cases handle with
      | none => cases located
      | some leaf =>
          cases located
          rw [enter, followed]
          rfl
  | cons k w ih =>
      simp only [locateBehind, bind_eq_ok_iff] at located
      obtain ⟨⟨next, sought⟩, found, located⟩ := located
      cases sought with
      | missing => cases located
      | found node =>
          rw [enter, found]
          exact ih located

/-- The way of a vector that is not in the trie is made, down to a new leaf with an empty slot. -/
theorem At.exists_enter {p : Place α N v.length} {t : Linked α v.length} (at' : a.At p t)
    (sound : t.Sound) (absent : t.trie.find? v = none) :
    ∃ id a', ∃ q : Place α N 0, a.enter v p.link = .ok (id, a') ∧ a'.length = a.length ∧
      a'.At q (.leaf id none) ∧ PathOpens v p t q id := by
  induction v generalizing a with
  | nil =>
      cases t with
      | leaf => cases absent
      | nil =>
          obtain ⟨id, a', attached, length, at''⟩ := at'.exists_attach (.leaf none)
            (s := fun id => .leaf id none) (fun _ => rfl) (fun _ => .refl _) (fun _ _ here _ => here)
          refine ⟨id, a', p, ?_, length, at'', fun payload => ⟨.leaf id payload, rfl, rfl⟩⟩
          rw [enter, at'.leads.follow_eq]
          exact attached
  | cons k w ih =>
      rw [enter, At.seekChain_eq at']
      rw [Linked.trie_chain, Trie.find?_branches] at absent
      rcases t.rest_cases (k := k) with ⟨id, below, here, found⟩ | ⟨same, sought, missing⟩
      · have inside : a.At (.under id k (t.behind k) (p.past k t)) below :=
          at'.past.congr (congrArg (p.past k t).plug here.symm)
        have onward : (t.rest k).sought k = .found id := by
          rw [here]
          exact if_pos rfl
        rw [found] at absent
        obtain ⟨leaf, a', q, entered, length, at'', opens⟩ := ih inside (sound.below found) absent
        rw [onward]
        refine ⟨leaf, a', q, entered, length, at'', opens.cons ?_⟩
        rw [found]
        rfl
      · obtain ⟨id, a₁, attached, length, made⟩ :=
          at'.past.exists_attach (.inner k none (t.rest k).handle)
            (s := fun id => .inner id k .nil (t.rest k)) (fun _ => rfl) (fun _ => .refl _)
            (fun _ _ here written => ⟨here, trivial, written⟩)
        have inside : a₁.At (.under id k (t.behind k) (p.past k t)) .nil :=
          made.congr (same ▸ rfl)
        obtain ⟨leaf, a', q, entered, length', at'', opens⟩ :=
          ih inside (.inl rfl) (Linked.find?_nil w)
        rw [sought]
        refine ⟨leaf, a', q, ?_, length'.trans length, at'', opens.cons ?_⟩
        · show (a.attach (p.past k t).link (.inner k none (t.rest k).handle) >>= _) = _
          rw [attached]
          exact entered
        · rw [missing sound.ascending]
          rfl

/-- Going up from a place, the nodes that lead nowhere are dropped. -/
theorem At.exists_prune {p : Place α N n} {t : Linked α n} (at' : a.At p t) :
    ∃ a', a.prune p.trail = .ok a' ∧ a'.length = a.length ∧ a'.At .root (p.lift t) := by
  induction p generalizing a with
  | root => exact ⟨a, rfl, rfl, at'⟩
  | behind id value below outer ih => exact ih (at'.congr rfl)
  | under id value greater outer ih =>
      rw [Place.trail, prune, node_eq at'.leads.1]
      cases some : t.handle with
      | some first =>
          refine ⟨a, rfl, rfl, ?_⟩
          rw [Place.lift, some]
          exact at'.congr rfl
      | none =>
          obtain rfl := Linked.eq_nil_of_handle some
          have outside : a.At outer (.inner id value .nil greater) := at'.congr rfl
          obtain ⟨a₁, detached, length, at₁⟩ :=
            outside.exists_detach (s := greater) (.refl _) fun written => written.2.2
          obtain ⟨a', pruned, length', at₂⟩ := ih at₁
          refine ⟨a', ?_, length'.trans length, at₂⟩
          show (a.detach outer.link id greater.handle >>= fun a => a.prune outer.trail) = _
          rw [detached]
          exact pruned

end TrieStore

end SaturationCore
