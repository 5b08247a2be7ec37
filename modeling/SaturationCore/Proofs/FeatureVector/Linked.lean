/-
# Linked nodes as trees

The nodes that a link leads to are those of a tree: the first node of a chain with the tree below it
and the rest of the chain. The depth of the tree stands in its type, so that leaves are where vectors
end and nowhere else.

Where something is changed, the tree hangs at a place in a greater one. A place knows the link that
leads there and the nodes around it. As no two nodes have one id, to redirect the link changes what
hangs at the place and nothing else. With the ids that are free to be used again, those of the tree
are all there are.
-/
import Mathlib.Data.List.Basic
import SaturationCore.FeatureVector.Nodes

namespace SaturationCore

/-- The nodes behind a link, `n` positions before the end of the vectors. -/
inductive Linked (α : Type) : Nat → Type where
  | nil {n : Nat} : Linked α n
  | leaf (id : Nat) (payload : Option α) : Linked α 0
  | inner {n : Nat} (id value : Nat) (below : Linked α n) (greater : Linked α (n + 1)) :
      Linked α (n + 1)

/-- A place in a tree of depth `N` where a tree of depth `n` hangs, with all nodes around it. -/
inductive Place (α : Type) (N : Nat) : Nat → Type where
  | root : Place α N N
  | under {n : Nat} (id value : Nat) (greater : Linked α (n + 1)) (outer : Place α N (n + 1)) :
      Place α N n
  | behind {n : Nat} (id value : Nat) (below : Linked α n) (outer : Place α N (n + 1)) :
      Place α N (n + 1)

variable {α : Type} {N n : Nat}

namespace Linked

/-- The id of the first node. -/
def handle : Linked α n → Option Nat
  | nil => none
  | leaf id _ => some id
  | inner id _ _ _ => some id

/-- The ids of all nodes. -/
def ids : {n : Nat} → Linked α n → List Nat
  | _, nil => []
  | _, leaf id _ => [id]
  | _, inner id _ below greater => id :: (below.ids ++ greater.ids)

/-- The nodes are written in an array, where their ids say. -/
def Written (nodes : Array (TrieNode α)) : {n : Nat} → Linked α n → Prop
  | _, nil => True
  | _, leaf id payload => nodes[id]? = some (.leaf payload)
  | _, inner id value below greater => nodes[id]? = some (.inner value below.handle greater.handle) ∧
      below.Written nodes ∧ greater.Written nodes

end Linked

namespace Place

/-- The link that leads to the place. -/
def link : Place α N n → TrieLink
  | root => .head
  | under id _ _ _ => .below id
  | behind id _ _ _ => .greater id

/-- The tree in which a tree hangs at the place. -/
def plug : {n : Nat} → Place α N n → Linked α n → Linked α N
  | _, root, t => t
  | _, under id value greater outer, t => outer.plug (.inner id value t greater)
  | _, behind id value below outer, t => outer.plug (.inner id value below t)

/-- The ids of all nodes around the place. -/
def ids : {n : Nat} → Place α N n → List Nat
  | _, root => []
  | _, under id _ greater outer => id :: (greater.ids ++ outer.ids)
  | _, behind id _ below outer => id :: (below.ids ++ outer.ids)

end Place

namespace TrieStore

/-- The nodes around the place are there, and the link to it leads to the given node. -/
def Leads (a : TrieStore α) : {n : Nat} → Place α N n → Option Nat → Prop
  | _, .root, handle => a.head = handle
  | _, .under id value greater outer, handle =>
      a.nodes[id]? = some (.inner value handle greater.handle) ∧ greater.Written a.nodes ∧
        a.Leads outer (some id)
  | _, .behind id value below outer, handle =>
      a.nodes[id]? = some (.inner value below.handle handle) ∧ below.Written a.nodes ∧
        a.Leads outer (some id)

/-- Every place of the array is used by one of the given nodes or is free. -/
def Accounted (a : TrieStore α) (used : List Nat) : Prop :=
  (used ++ a.free).Perm (List.range a.nodes.size)

/-- The store consists of the nodes of a tree that hangs at a place and of those around it. -/
structure At (a : TrieStore α) (p : Place α N n) (t : Linked α n) : Prop where
  leads : a.Leads p t.handle
  written : t.Written a.nodes
  accounted : a.Accounted (p.ids ++ t.ids)

end TrieStore

/-! ## What a change leaves alone -/

theorem Linked.Written.of_agree {nodes nodes' : Array (TrieNode α)} {t : Linked α n}
    (written : t.Written nodes) (agree : ∀ id ∈ t.ids, nodes'[id]? = nodes[id]?) :
    t.Written nodes' := by
  induction t with
  | nil => trivial
  | leaf id payload => exact (agree id List.mem_cons_self).trans written
  | inner id value below greater ih ih' =>
      obtain ⟨here, writtenBelow, writtenGreater⟩ := written
      simp only [ids, List.forall_mem_cons, List.forall_mem_append] at agree
      exact ⟨agree.1.trans here, ih writtenBelow agree.2.1, ih' writtenGreater agree.2.2⟩

namespace TrieStore

variable {a a' : TrieStore α} {p : Place α N n} {t s : Linked α n} {handle : Option Nat}

theorem Leads.of_agree (leads : a.Leads p handle) (head : a'.head = a.head)
    (agree : ∀ id ∈ p.ids, a'.nodes[id]? = a.nodes[id]?) : a'.Leads p handle := by
  induction p generalizing handle with
  | root => exact head.trans leads
  | under id value greater outer ih =>
      obtain ⟨here, written, outside⟩ := leads
      simp only [Place.ids, List.forall_mem_cons, List.forall_mem_append] at agree
      exact ⟨agree.1.trans here, written.of_agree agree.2.1, ih outside agree.2.2⟩
  | behind id value below outer ih =>
      obtain ⟨here, written, outside⟩ := leads
      simp only [Place.ids, List.forall_mem_cons, List.forall_mem_append] at agree
      exact ⟨agree.1.trans here, written.of_agree agree.2.1, ih outside agree.2.2⟩

theorem Accounted.nodup {used : List Nat} (accounted : a.Accounted used) :
    (used ++ a.free).Nodup :=
  accounted.nodup_iff.2 List.nodup_range

theorem Accounted.lt_size {used : List Nat} (accounted : a.Accounted used) {id : Nat}
    (inside : id ∈ used ++ a.free) : id < a.nodes.size :=
  List.mem_range.1 (accounted.mem_iff.1 inside)

theorem Accounted.of_perm {used used' : List Nat} (accounted : a.Accounted used)
    (same : used.Perm used') : a.Accounted used' :=
  (same.symm.append_right _).trans accounted

/-! ## Moving the place -/

theorem ids_plug (p : Place α N n) (t : Linked α n) : (p.plug t).ids.Perm (p.ids ++ t.ids) := by
  induction p with
  | root => exact .refl _
  | under id value greater outer ih =>
      refine (ih _).trans (List.perm_middle.trans (.cons id ?_))
      have turned := (@List.perm_append_comm _ (t.ids ++ greater.ids) outer.ids).symm
      rw [List.append_assoc] at turned
      exact turned.trans List.perm_append_comm
  | behind id value below outer ih =>
      refine (ih _).trans (List.perm_middle.trans (.cons id ?_))
      have turned := (@List.perm_append_comm _ outer.ids below.ids).append_right t.ids
      rwa [List.append_assoc] at turned

theorem leads_plug (a : TrieStore α) (p : Place α N n) (t : Linked α n) :
    a.head = (p.plug t).handle ∧ (p.plug t).Written a.nodes ↔
      a.Leads p t.handle ∧ t.Written a.nodes := by
  induction p with
  | root => exact .rfl
  | under id value greater outer ih =>
      refine (ih _).trans ?_
      constructor
      · rintro ⟨outside, here, inside, beside⟩
        exact ⟨⟨here, beside, outside⟩, inside⟩
      · rintro ⟨⟨here, beside, outside⟩, inside⟩
        exact ⟨outside, here, inside, beside⟩
  | behind id value below outer ih =>
      refine (ih _).trans ?_
      constructor
      · rintro ⟨outside, here, beside, inside⟩
        exact ⟨⟨here, beside, outside⟩, inside⟩
      · rintro ⟨⟨here, beside, outside⟩, inside⟩
        exact ⟨outside, here, beside, inside⟩

/-- What hangs at a place in a tree can be taken for a part of the tree. -/
theorem at_plug : a.At .root (p.plug t) ↔ a.At p t := by
  have same := leads_plug a p t
  have used : (Place.ids (.root : Place α N N) ++ (p.plug t).ids).Perm (p.ids ++ t.ids) :=
    ids_plug p t
  constructor
  · rintro ⟨leads, written, accounted⟩
    have ⟨leads', written'⟩ := same.1 ⟨leads, written⟩
    exact ⟨leads', written', accounted.of_perm used⟩
  · rintro ⟨leads, written, accounted⟩
    have ⟨leads', written'⟩ := same.2 ⟨leads, written⟩
    exact ⟨leads', written', accounted.of_perm used.symm⟩

theorem At.congr {m : Nat} {p' : Place α N m} {t' : Linked α m} (at' : a.At p t)
    (same : p'.plug t' = p.plug t) : a.At p' t' :=
  at_plug.1 (same ▸ at_plug.2 at')

/-! ## Single steps -/

theorem node_eq {id : Nat} {node : TrieNode α} (here : a.nodes[id]? = some node) :
    a.node id = .ok node := by
  rw [TrieStore.node, here]

theorem Leads.follow_eq (leads : a.Leads p handle) : a.follow p.link = .ok handle := by
  cases p with
  | root => exact congrArg Except.ok leads
  | under => rw [Place.link, follow, node_eq leads.1]; rfl
  | behind => rw [Place.link, follow, node_eq leads.1]; rfl

theorem lt_size_of_getElem? {id : Nat} {node : TrieNode α} (here : a.nodes[id]? = some node) :
    id < a.nodes.size :=
  (Array.getElem?_eq_some_iff.1 here).1

/-- The stores differ in one node only. -/
structure Changed (a a' : TrieStore α) (id : Nat) (node : TrieNode α) : Prop where
  head_eq : a'.head = a.head
  free_eq : a'.free = a.free
  size_eq : a'.nodes.size = a.nodes.size
  length_eq : a'.length = a.length
  here : a'.nodes[id]? = some node
  elsewhere : ∀ other, other ≠ id → a'.nodes[other]? = a.nodes[other]?

theorem exists_put {id : Nat} (inside : id < a.nodes.size) (node : TrieNode α) :
    ∃ a', a.put id node = .ok a' ∧ a.Changed a' id node := by
  refine ⟨_, if_pos inside, rfl, rfl, Array.size_setIfInBounds, rfl, ?_, fun other apart => ?_⟩
  · exact Array.getElem?_setIfInBounds_self_of_lt inside
  · exact Array.getElem?_setIfInBounds_ne apart.symm

theorem Changed.accounted {id : Nat} {node : TrieNode α} {used : List Nat}
    (changed : a.Changed a' id node) (accounted : a.Accounted used) : a'.Accounted used := by
  rw [Accounted, changed.free_eq, changed.size_eq]
  exact accounted

/-- What is written beside a node, and the place of the node, are still there. -/
theorem Changed.keeps {m k id : Nat} {node : TrieNode α} {beside : Linked α m} {outer : Place α N k}
    (changed : a.Changed a' id node) (apart : id ∉ beside.ids ++ outer.ids)
    (written : beside.Written a.nodes) (leads : a.Leads outer handle) :
    beside.Written a'.nodes ∧ a'.Leads outer handle := by
  have agree (other : Nat) (inside : other ∈ beside.ids ++ outer.ids) :
      a'.nodes[other]? = a.nodes[other]? :=
    changed.elsewhere other fun same => apart (same ▸ inside)
  exact ⟨written.of_agree fun other inside => agree other (List.mem_append_left _ inside),
    leads.of_agree changed.head_eq fun other inside => agree other (List.mem_append_right _ inside)⟩

/-- The link to a place leads to another node, and only the nodes around the place have changed. -/
structure Redirected (a a' : TrieStore α) (p : Place α N n) (target : Option Nat) : Prop where
  leads : a'.Leads p target
  free_eq : a'.free = a.free
  size_eq : a'.nodes.size = a.nodes.size
  length_eq : a'.length = a.length
  elsewhere : ∀ id, id ∉ p.ids → a'.nodes[id]? = a.nodes[id]?

/-- Changing the node that the link to a place comes from redirects the link. -/
theorem Changed.redirected {id : Nat} {node : TrieNode α} {target : Option Nat}
    (changed : a.Changed a' id node) (inside : id ∈ p.ids) (leads : a'.Leads p target) :
    a.Redirected a' p target :=
  ⟨leads, changed.free_eq, changed.size_eq, changed.length_eq,
    fun other outside => changed.elsewhere other fun same => outside (same ▸ inside)⟩

theorem Leads.exists_redirect (leads : a.Leads p handle) (apart : p.ids.Nodup)
    (target : Option Nat) : ∃ a', a.redirect p.link target = .ok a' ∧ a.Redirected a' p target := by
  cases p with
  | root => exact ⟨{ a with head := target }, rfl, rfl, rfl, rfl, rfl, fun _ _ => rfl⟩
  | under id value greater outer =>
      obtain ⟨here, beside, outside⟩ := leads
      obtain ⟨a', made, changed⟩ :=
        exists_put (lt_size_of_getElem? here) (.inner value target greater.handle)
      have kept := changed.keeps (List.nodup_cons.1 apart).1 beside outside
      refine ⟨a', ?_, changed.redirected List.mem_cons_self ⟨changed.here, kept⟩⟩
      rw [Place.link, redirect, node_eq here]
      exact made
  | behind id value below outer =>
      obtain ⟨here, beside, outside⟩ := leads
      obtain ⟨a', made, changed⟩ :=
        exists_put (lt_size_of_getElem? here) (.inner value below.handle target)
      have kept := changed.keeps (List.nodup_cons.1 apart).1 beside outside
      refine ⟨a', ?_, changed.redirected List.mem_cons_self ⟨changed.here, kept⟩⟩
      rw [Place.link, redirect, node_eq here]
      exact made

theorem Redirected.written {target : Option Nat} (redirected : a.Redirected a' p target)
    (written : s.Written a.nodes) (apart : (p.ids ++ s.ids).Nodup) : s.Written a'.nodes :=
  written.of_agree fun id inside => redirected.elsewhere id fun outside =>
    (List.nodup_append.1 apart).2.2 id outside id inside rfl

/-! ## Adding and dropping a node -/

/-- A node is written where no node in use is. -/
theorem exists_alloc {used : List Nat} (accounted : a.Accounted used) (node : TrieNode α) :
    ∃ id a', a.alloc node = .ok (id, a') ∧ a'.Accounted (id :: used) ∧
      a'.nodes[id]? = some node ∧ a'.head = a.head ∧ a'.length = a.length ∧
      ∀ other ∈ used, a'.nodes[other]? = a.nodes[other]? := by
  cases free : a.free with
  | cons id rest =>
      have here : id ∈ used ++ a.free := by
        rw [free]
        exact List.mem_append_right _ List.mem_cons_self
      obtain ⟨a', made, changed⟩ :=
        exists_put (a := { a with free := rest }) (accounted.lt_size here) node
      have accounted' : a'.Accounted (id :: used) := by
        rw [Accounted, changed.free_eq, changed.size_eq, List.cons_append]
        rw [Accounted, free] at accounted
        exact List.perm_middle.symm.trans accounted
      refine ⟨id, a', ?_, accounted', changed.here, changed.head_eq, changed.length_eq, ?_⟩
      · rw [alloc, free]
        dsimp only
        rw [made]
        rfl
      · intro other inside
        refine changed.elsewhere other fun same => ?_
        exact (List.nodup_cons.1 accounted'.nodup).1 (same ▸ List.mem_append_left _ inside)
  | nil =>
      rw [Accounted, free, List.append_nil] at accounted
      refine ⟨a.nodes.size, { a with nodes := a.nodes.push node }, by rw [alloc, free], ?_, ?_, rfl,
        rfl, ?_⟩
      · rw [Accounted, free, List.append_nil, Array.size_push, List.range_succ]
        exact (List.perm_append_singleton ..).symm.trans (accounted.append_right _)
      · exact Array.getElem?_push_size
      · intro other inside
        have old : other < a.nodes.size := List.mem_range.1 (accounted.mem_iff.1 inside)
        exact (Array.getElem?_push_lt old).trans (Array.getElem?_eq_getElem old).symm

/-- A new node hangs at a place in front of what hung there. -/
theorem At.exists_attach (at' : a.At p t) (node : TrieNode α) {s : Nat → Linked α n}
    (handle : ∀ id, (s id).handle = some id) (ids : ∀ id, (s id).ids.Perm (id :: t.ids))
    (written : ∀ (id : Nat) (nodes : Array (TrieNode α)), nodes[id]? = some node → t.Written nodes →
      (s id).Written nodes) :
    ∃ id a', a.attach p.link node = .ok (id, a') ∧ a'.length = a.length ∧ a'.At p (s id) := by
  obtain ⟨id, a₁, allocated, accounted, here, head, length, same⟩ := exists_alloc at'.accounted node
  have leads : a₁.Leads p t.handle := at'.leads.of_agree head fun other inside =>
    same other (List.mem_append_left _ inside)
  have writtenThere : t.Written a₁.nodes := at'.written.of_agree fun other inside =>
    same other (List.mem_append_right _ inside)
  have used : (id :: (p.ids ++ t.ids)).Perm (p.ids ++ (s id).ids) :=
    List.perm_middle.symm.trans ((ids id).symm.append_left _)
  have accounted' := accounted.of_perm used
  have apart := (List.nodup_append.1 accounted'.nodup).1
  obtain ⟨a₂, made, redirected⟩ := leads.exists_redirect (List.nodup_append.1 apart).1 (some id)
  refine ⟨id, a₂, ?_, redirected.length_eq.trans length, ?_, ?_, ?_⟩
  · rw [attach, allocated]
    show (a₁.redirect p.link (some id) >>= fun a => pure (id, a)) = _
    rw [made]
    rfl
  · rw [handle]
    exact redirected.leads
  · exact redirected.written (written id _ here writtenThere) apart
  · rw [Accounted, redirected.free_eq, redirected.size_eq]
    exact accounted'

/-- The node that hangs at a place is given up for what it leads to. -/
theorem At.exists_detach {id : Nat} (at' : a.At p t) (ids : t.ids.Perm (id :: s.ids))
    (written : t.Written a.nodes → s.Written a.nodes) :
    ∃ a', a.detach p.link id s.handle = .ok a' ∧ a'.length = a.length ∧ a'.At p s := by
  have used : (p.ids ++ t.ids).Perm (id :: (p.ids ++ s.ids)) :=
    (ids.append_left _).trans List.perm_middle
  have accounted := at'.accounted.of_perm used
  obtain ⟨fresh, rest⟩ := List.nodup_cons.1 (List.nodup_append.1 accounted.nodup).1
  obtain ⟨a₁, made, redirected⟩ :=
    at'.leads.exists_redirect (List.nodup_append.1 rest).1 s.handle
  have inside : id < a₁.nodes.size :=
    redirected.size_eq ▸ accounted.lt_size List.mem_cons_self
  obtain ⟨a₂, released, changed⟩ := exists_put inside (.leaf none)
  obtain ⟨writtenThere, leads⟩ := changed.keeps (fun h => fresh (List.perm_append_comm.mem_iff.1 h))
    (redirected.written (written at'.written) rest) redirected.leads
  refine ⟨{ a₂ with free := id :: a₂.free }, ?_, changed.length_eq.trans redirected.length_eq,
    leads.of_agree rfl fun _ _ => rfl, writtenThere, ?_⟩
  · rw [detach, made]
    show (a₁.put id (.leaf none) >>= fun a => pure { a with free := id :: a.free }) = _
    rw [released]
    rfl
  · show (p.ids ++ s.ids ++ id :: a₂.free).Perm (List.range a₂.nodes.size)
    rw [changed.free_eq, changed.size_eq, redirected.free_eq, redirected.size_eq]
    exact List.perm_middle.trans accounted

/-- The slot of the leaf at a place is filled anew. -/
theorem At.exists_put {q : Place α N 0} {id : Nat} {payload : Option α}
    (at' : a.At q (.leaf id payload)) (payload' : Option α) :
    ∃ a', a.put id (.leaf payload') = .ok a' ∧ a'.length = a.length ∧
      a'.At q (.leaf id payload') := by
  have apart := List.nodup_append.1 (List.nodup_append.1 at'.accounted.nodup).1
  obtain ⟨a', made, changed⟩ :=
    TrieStore.exists_put (lt_size_of_getElem? at'.written) (.leaf payload')
  refine ⟨a', made, changed.length_eq, ?_, changed.here, changed.accounted at'.accounted⟩
  refine at'.leads.of_agree changed.head_eq fun other inside => changed.elsewhere other ?_
  exact fun same => apart.2.2 other inside id List.mem_cons_self same

end TrieStore

end SaturationCore
