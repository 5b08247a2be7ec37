/-
# Everything in an index

The trees of all buckets and then the bare variables list every object of a cluster
together with the heads of its term. Under one spelling that is what the contents have,
and so, apart from the order, it is what the record of the index has.
-/
import SaturationCore.Proofs.DiscriminationTree.Inventory
import SaturationCore.Proofs.DiscriminationTree.Refinement

namespace SaturationCore

variable {α : Type} {c : Cluster} {v : Variable} {s : Symbol} {hs rest : List Head}

/-- The objects of bare variables, each with its variable. -/
def bareListing (bare : List (Variable × List α)) : Listing α :=
  bare.flatMap fun (v, objects) => objects.map ([.var v], ·)

theorem bareListing_cons (v : Variable) (objects : List α) (rest : List (Variable × List α)) :
    bareListing ((v, objects) :: rest) = objects.map ([.var v], ·) ++ bareListing rest := rfl

theorem exists_var_of_mem_bareListing {bare : List (Variable × List α)} {e : List Head × α}
    (he : e ∈ bareListing bare) : ∃ v, e.1 = [.var v] ∧ v ∈ bare.map (·.1) := by
  obtain ⟨⟨v, objects⟩, hv, he⟩ := List.mem_flatMap.1 he
  obtain ⟨_, _, rfl⟩ := List.mem_map.1 he
  exact ⟨v, rfl, List.mem_map.2 ⟨_, hv, rfl⟩⟩

theorem under_bareListing {bare : List (Variable × List α)} (distinct : (bare.map (·.1)).Nodup) :
    Listing.under [.var v] (bareListing bare) = (bare.lookup v).getD [] := by
  induction bare with
  | nil => rfl
  | cons first rest ih =>
      obtain ⟨u, objects⟩ := first
      obtain ⟨fresh, distinct⟩ := List.nodup_cons.1 distinct
      rw [bareListing_cons, Listing.under_append, List.lookup_cons]
      cases here : v == u with
      | true =>
          obtain rfl := eq_of_beq here
          rw [Listing.under_of_single, Listing.under_eq_nil, List.append_nil]
          · rfl
          · intro e he same
            obtain ⟨w, spelled, hw⟩ := exists_var_of_mem_bareListing he
            rw [spelled] at same
            cases same
            exact fresh hw
      | false =>
          rw [Listing.under_eq_nil, List.nil_append]
          · exact ih distinct
          · intro e he same
            obtain ⟨_, _, rfl⟩ := List.mem_map.1 he
            cases same
            rw [beq_self_eq_true] at here
            cases here

/-- Where lists are joined of which only one has anything, the result is that one. -/
theorem flatMap_range_of_single {β : Type} {f : Nat → List β} {n place : Nat} (inside : place < n)
    (others : ∀ k, k ≠ place → f k = []) : (List.range n).flatMap f = f place := by
  induction n with
  | zero => exact absurd inside (Nat.not_lt_zero place)
  | succ n ih =>
      rw [List.range_succ, List.flatMap_append, List.flatMap_singleton]
      by_cases last : place = n
      · subst last
        rw [List.flatMap_eq_nil_iff.2, List.nil_append]
        intro k hk
        exact others k (Nat.ne_of_lt (List.mem_range.1 hk))
      · rw [others n (Ne.symm last), List.append_nil]
        exact ih (Nat.lt_of_le_of_ne (Nat.le_of_lt_succ inside) last)

namespace Index

variable {ix : Index α}

/-- The objects of a cluster in the trees of all buckets. -/
def treeListing (ix : Index α) (c : Cluster) : Listing α :=
  (List.range ix.buckets.size).flatMap fun place => Node.heldAll c (ix.bucket place).roots

/-- The objects of a cluster in the whole index. -/
def listing (ix : Index α) (c : Cluster) : Listing α :=
  ix.treeListing c ++ bareListing ((ix.bareVariables.lookup c).getD [])

theorem Shaped.spelling_of_mem_heldAll (shaped : ix.Shaped) {place : Nat} {e : List Head × α}
    (he : e ∈ Node.heldAll c (ix.bucket place).roots) :
    ∃ s rest, e.1 = .symbol s :: rest ∧ s.id % ix.buckets.size = place := by
  obtain ⟨n, hn, he⟩ := Node.mem_heldAll_iff.1 he
  obtain ⟨rest, spelled⟩ := Node.exists_cons_of_mem_held he
  have rooted := shaped.rooted place n hn
  cases root : n.head with
  | symbol s =>
      rw [root] at rooted spelled
      exact ⟨s, rest, spelled, Except.ok.inj rooted⟩
  | var v =>
      rw [root] at rooted
      cases rooted
  | binder v =>
      rw [root] at rooted
      cases rooted

theorem Shaped.under_treeListing_symbol (shaped : ix.Shaped) :
    Listing.under (.symbol s :: rest) (ix.treeListing c) = ix.contents ⟨.symbol s :: rest, c⟩ := by
  rw [treeListing, Listing.under_flatMap,
    flatMap_range_of_single (Nat.mod_lt s.id shaped.bucketed),
    (shaped.bucket _).forest.under_heldAll]
  · rfl
  · intro place other
    apply Listing.under_eq_nil
    intro e he same
    obtain ⟨s', rest', spelled, here⟩ := shaped.spelling_of_mem_heldAll he
    rw [spelled] at same
    cases same
    exact other here.symm

theorem Shaped.under_treeListing_of_ne (shaped : ix.Shaped)
    (rootless : ∀ s rest, hs ≠ .symbol s :: rest) : Listing.under hs (ix.treeListing c) = [] := by
  apply Listing.under_eq_nil
  rintro e he rfl
  obtain ⟨place, -, he⟩ := List.mem_flatMap.1 he
  obtain ⟨s, rest, spelled, -⟩ := shaped.spelling_of_mem_heldAll he
  exact rootless s rest spelled

theorem under_bareListing_of_ne {bare : List (Variable × List α)} (compound : ∀ v, hs ≠ [.var v]) :
    Listing.under hs (bareListing bare) = [] := by
  apply Listing.under_eq_nil
  rintro e he rfl
  obtain ⟨v, spelled, -⟩ := exists_var_of_mem_bareListing he
  exact compound v spelled

/-- The listing has under a spelling what is stored there. -/
theorem Shaped.under_listing (shaped : ix.Shaped) (hs : List Head) :
    Listing.under hs (ix.listing c) = ix.contents ⟨hs, c⟩ := by
  rw [listing, Listing.under_append]
  by_cases bare : ∃ v, hs = [.var v]
  · obtain ⟨v, rfl⟩ := bare
    rw [shaped.under_treeListing_of_ne, under_bareListing (shaped.distinct_bare c), List.nil_append]
    · rfl
    · rintro s rest ⟨⟩
  · rw [under_bareListing_of_ne fun v same => bare ⟨v, same⟩, List.append_nil]
    by_cases rooted : ∃ s rest, hs = .symbol s :: rest
    · obtain ⟨s, rest, rfl⟩ := rooted
      exact shaped.under_treeListing_symbol
    · rw [shaped.under_treeListing_of_ne fun s rest same => rooted ⟨s, rest, same⟩]
      unfold contents
      split
      · rename_i v same
        exact absurd ⟨v, same⟩ bare
      · rename_i s rest same
        exact absurd ⟨s, rest, same⟩ rooted
      · rfl

/-! ## Against the record -/

variable {es : List (Entry α)}

theorem Holds.quantifierFree (holds : ix.Holds es) {e : Entry α} (he : e ∈ es) :
    e.term.isQuantifierFree = true := by
  have stored : ix.contents ⟨e.term.spelling, e.cluster⟩ ≠ [] := by
    rw [holds.contents]
    refine List.ne_nil_of_mem (a := e.object) (List.mem_map.2 ⟨e, List.mem_filter.2 ⟨he, ?_⟩, rfl⟩)
    exact decide_eq_true rfl
  cases head : e.term.head with
  | var v =>
      rw [Subterm.isQuantifierFree, Subterm.spelling_of_head_eq_var head]
      rfl
  | symbol s => exact plain_of_contents holds.shaped head stored
  | binder v =>
      rw [e.term.spelling_eq, head] at stored
      exact absurd rfl stored

/-- The listing is the record of the cluster up to its order. -/
theorem Holds.listing_perm (holds : ix.Holds es) (c : Cluster) :
    (ix.listing c).Perm
      ((es.filter fun e => e.cluster = c).map fun e => (e.term.spelling, e.object)) := by
  apply Listing.perm_of_under
  intro hs
  rw [holds.shaped.under_listing, holds.contents, Entry.contents, Listing.under, List.filter_map,
    List.map_map, List.filter_filter]
  apply congrArg (List.map _)
  apply List.filter_congr
  intro e _
  rw [Entry.key, Function.comp_apply, ← Bool.decide_and, decide_eq_decide, Key.mk.injEq]

end Index

end SaturationCore
