/-
# Selecting vectors within a bound

The entries of a trie are its filled vectors with their payloads. They ascend in
lexicographic order, so no vector comes twice, and they are just what is found in the trie.
A walk that enters only the branches within a bound, and stops where branches ascend above
it, meets the payloads of those entries that are within the bound at every place.
-/
import Mathlib.Data.List.Forall2
import Mathlib.Data.List.Lex
import SaturationCore.FeatureVector.Cursor
import SaturationCore.Proofs.FeatureVector.Trie

namespace SaturationCore

/-- The stored vector stands in the wanted relation to the query at every place. -/
def Bound.Within (b : Bound) (query stored : List Nat) : Prop :=
  List.Forall₂ (fun n m => b.admits n m = true) query stored

instance (b : Bound) (query stored : List Nat) : Decidable (b.Within query stored) :=
  inferInstanceAs (Decidable (List.Forall₂ _ _ _))

theorem Bound.within_cons {b : Bound} {n m : Nat} {query stored : List Nat} :
    b.Within (n :: query) (m :: stored) ↔ b.admits n m = true ∧ b.Within query stored :=
  List.forall₂_cons

namespace Trie

variable {α : Type} {b : Bound} {n m : Nat} {v query : List Nat} {t below : Trie α}
  {edges : List (Nat × Trie α)} {a : α}

/-! ## Entries -/

theorem mem_entriesAll {entry : List Nat × α} :
    entry ∈ entriesAll edges ↔
      ∃ edge ∈ edges, ∃ e ∈ entries edge.2, entry = (edge.1 :: e.1, e.2) := by
  induction edges with
  | nil => simp [entriesAll]
  | cons edge edges ih =>
      obtain ⟨k, t⟩ := edge
      simp [entriesAll, ih, eq_comm]

/-- The entries are the filled vectors that are found. -/
theorem Shaped.mem_entries_iff (shaped : t.Shaped n) :
    (v, a) ∈ entries t ↔ find? v t = some (some a) := by
  induction v generalizing t n with
  | nil =>
      cases shaped with
      | slot payload => cases payload <;> simp [entries, find?, eq_comm]
      | branches =>
          refine iff_of_false (fun h => ?_) nofun
          obtain ⟨_, _, _, _, ⟨⟩⟩ := mem_entriesAll.1 h
  | cons k v ih =>
      cases shaped with
      | slot payload => cases payload <;> simp [entries, find?]
      | @branches n edges _ ascending inner =>
          rw [find?_branches, Option.bind_eq_some_iff, entries, mem_entriesAll]
          constructor
          · rintro ⟨edge, h, e, inside, ⟨⟩⟩
            exact ⟨edge.2, ascending.follow?_iff.2 h, (ih (inner edge h)).1 inside⟩
          · rintro ⟨below, found, inside⟩
            have h := ascending.follow?_iff.1 found
            exact ⟨(k, below), h, (v, a), (ih (inner _ h)).2 inside, rfl⟩

/-- The entries ascend in lexicographic order. -/
theorem Shaped.pairwise_entries (shaped : t.Shaped n) :
    (entries t).Pairwise fun e e' => e.1 < e'.1 := by
  induction shaped with
  | slot payload =>
      cases payload with
      | none => exact .nil
      | some a => exact List.pairwise_singleton _ _
  | @branches n edges _ ascending _ ih =>
      rw [entries]
      clear * - ascending ih
      induction edges with
      | nil => exact .nil
      | cons edge edges step =>
          obtain ⟨k, t⟩ := edge
          obtain ⟨least, others⟩ := List.pairwise_cons.1 ascending
          obtain ⟨here, later⟩ := List.forall_mem_cons.1 ih
          rw [entriesAll]
          refine List.pairwise_append.2 ⟨?_, step others later, ?_⟩
          · exact here.map _ fun e e' lower => List.cons_lt_cons_iff.2 (.inr ⟨rfl, lower⟩)
          · intro e he e' he'
            obtain ⟨_, _, rfl⟩ := List.mem_map.1 he
            obtain ⟨edge, h, _, _, rfl⟩ := mem_entriesAll.1 he'
            exact List.cons_lt_cons_iff.2 (.inl (least edge h))

/-- No vector comes twice. -/
theorem Shaped.nodup_entries (shaped : t.Shaped n) : ((entries t).map (·.1)).Nodup := by
  apply List.Pairwise.imp _ (List.pairwise_map.2 shaped.pairwise_entries)
  rintro v _ lower rfl
  exact List.lt_irrefl v lower

end Trie

/-! ## Walking within a bound -/

namespace Bound

variable {α : Type} {b : Bound} {n : Nat} {query : List Nat} {edges : List (Nat × Trie α)}

/-- The payloads of those entries that are within the bound. -/
def payloads (b : Bound) (query : List Nat) (es : List (List Nat × α)) : List α :=
  (es.filter fun e => b.Within query e.1).map (·.2)

theorem payloads_append (es es' : List (List Nat × α)) :
    b.payloads query (es ++ es') = b.payloads query es ++ b.payloads query es' := by
  rw [payloads, List.filter_append, List.map_append]
  rfl

/-- Behind a number that the bound admits, the entries within the bound are those behind the
branch; behind any other number there are none. -/
theorem payloads_map (k : Nat) (es : List (List Nat × α)) :
    b.payloads (n :: query) (es.map fun e => (k :: e.1, e.2)) =
      if b.admits n k = true then b.payloads query es else [] := by
  rw [payloads, List.filter_map]
  split
  · next admitted =>
      rw [List.map_map, payloads]
      congr 1
      apply List.filter_congr
      intro e _
      simp [within_cons, admitted]
  · next refused =>
      rw [List.map_eq_nil_iff, List.map_eq_nil_iff, List.filter_eq_nil_iff]
      intro e _
      simp [within_cons, refused]

theorem payloads_cons {k : Nat} {below : Trie α} :
    b.payloads (n :: query) (Trie.entriesAll ((k, below) :: edges)) =
      (if b.admits n k = true then b.payloads query below.entries else []) ++
        b.payloads (n :: query) (Trie.entriesAll edges) := by
  rw [Trie.entriesAll, payloads_append, payloads_map]

/-- Behind edges whose numbers the bound refuses, no entry is within it. -/
theorem payloads_eq_nil (refused : ∀ edge ∈ edges, ¬ b.admits n edge.1 = true) :
    b.payloads (n :: query) (Trie.entriesAll edges) = [] := by
  rw [payloads, List.map_eq_nil_iff, List.filter_eq_nil_iff]
  intro entry h
  obtain ⟨edge, hedge, e, _, rfl⟩ := Trie.mem_entriesAll.1 h
  simp [within_cons, refused edge hedge]

/-- Numbers above one that a walk below the query refuses are refused as well. -/
theorem not_atMost_admits_of_lt {m k : Nat} (refused : ¬ atMost.admits n m = true) (above : m < k) :
    ¬ atMost.admits n k = true := by
  simp only [admits, decide_eq_true_eq] at refused ⊢
  omega

end Bound

namespace Fork

variable {α : Type} {b : Bound} {n : Nat} {query : List Nat} {edges : List (Nat × Trie α)}
  {t : Trie α} {f : Fork α} {forks : List (Fork α)}

/-- What is left of a row of which a branch was entered: it ascends, it leads to vectors of the
length of the query, and a walk above the query may enter all of it. -/
structure Sound (b : Bound) (f : Fork α) : Prop where
  ascending : Trie.Ascending f.later
  shaped : ∀ edge ∈ f.later, edge.2.Shaped f.others.length
  entered : b = .atLeast → ∀ edge ∈ f.later, f.number ≤ edge.1

/-- The payloads that are left behind a level. -/
def owed (b : Bound) (f : Fork α) : List α :=
  b.payloads (f.number :: f.others) (Trie.entriesAll f.later)

/-- The payloads that are left behind all levels. -/
def owedAll (b : Bound) (forks : List (Fork α)) : List α :=
  forks.flatMap (owed b)

theorem owedAll_cons : owedAll b (f :: forks) = f.owed b ++ owedAll b forks :=
  List.flatMap_cons

/-- Entering a row skips nothing that is within the bound. -/
theorem first?_cases (ascending : Trie.Ascending edges)
    (shaped : ∀ edge ∈ edges, edge.2.Shaped query.length) :
    (b.first? n edges = none ∧ b.payloads (n :: query) (Trie.entriesAll edges) = []) ∨
      ∃ below later, b.first? n edges = some (below, later) ∧ below.Shaped query.length ∧
        Sound b ⟨later, n, query⟩ ∧
        b.payloads (n :: query) (Trie.entriesAll edges) =
          b.payloads query below.entries ++ owed b ⟨later, n, query⟩ := by
  induction edges with
  | nil => exact .inl ⟨rfl, rfl⟩
  | cons edge edges ih =>
      obtain ⟨k, below⟩ := edge
      obtain ⟨least, others⟩ := List.pairwise_cons.1 ascending
      obtain ⟨here, later⟩ := List.forall_mem_cons.1 shaped
      rw [Bound.first?, Bound.payloads_cons]
      by_cases admitted : b.admits n k = true
      · rw [if_pos admitted, if_pos admitted]
        refine .inr ⟨below, edges, rfl, here, ⟨others, later, ?_⟩, rfl⟩
        rintro rfl edge h
        have above : k < edge.1 := least edge h
        have large : n ≤ k := of_decide_eq_true admitted
        exact Nat.le_trans large (Nat.le_of_lt above)
      · rw [if_neg admitted, if_neg admitted, List.nil_append]
        cases b with
        | atLeast => exact ih others later
        | atMost =>
            exact .inl ⟨rfl, Bound.payloads_eq_nil fun edge h =>
              Bound.not_atMost_admits_of_lt admitted (least edge h)⟩

/-- Taking the next branch of a row skips nothing that is within the bound. -/
theorem Sound.next?_cases (sound : f.Sound b) :
    (b.next? f.number f.later = none ∧ f.owed b = []) ∨
      ∃ below later, b.next? f.number f.later = some (below, later) ∧
        below.Shaped f.others.length ∧ Sound b { f with later } ∧
        f.owed b = b.payloads f.others below.entries ++ owed b { f with later } := by
  obtain ⟨later, n, query⟩ := f
  obtain ⟨ascending, shaped, entered⟩ := sound
  cases later with
  | nil => exact .inl ⟨rfl, rfl⟩
  | cons edge edges =>
      obtain ⟨k, below⟩ := edge
      obtain ⟨least, others⟩ := List.pairwise_cons.1 ascending
      obtain ⟨here, later⟩ := List.forall_mem_cons.1 shaped
      have sound' : Sound b ⟨edges, n, query⟩ :=
        ⟨others, later, fun up => (List.forall_mem_cons.1 (entered up)).2⟩
      rw [owed, Bound.payloads_cons, Bound.next?]
      by_cases admitted : b.admits n k = true
      · rw [if_pos (.inr admitted), if_pos admitted]
        exact .inr ⟨below, edges, rfl, here, sound', rfl⟩
      · cases b with
        | atLeast => exact absurd (decide_eq_true (entered rfl _ List.mem_cons_self)) admitted
        | atMost =>
            rw [if_neg (by simpa using admitted), if_neg admitted, List.nil_append]
            exact .inl ⟨rfl, Bound.payloads_eq_nil fun edge h =>
              Bound.not_atMost_admits_of_lt admitted (least edge h)⟩

/-- A walk has some payloads to come: that of the slot it rests at, and those left behind the
levels on the way there. Without a slot, the walk is over. -/
structure Rests (b : Bound) (payloads : List α) (place : Option α × List (Fork α)) : Prop where
  sound : ∀ f ∈ place.2, f.Sound b
  payloads_eq : payloads = place.1.toList ++ owedAll b place.2
  finished : place.1 = none → place.2 = []

theorem descend_owes (shaped : t.Shaped query.length) (sound : ∀ f ∈ forks, f.Sound b) :
    (∀ f ∈ (descend b t query forks).2, f.Sound b) ∧
      b.payloads query t.entries ++ owedAll b forks =
        (descend b t query forks).1.toList ++ owedAll b (descend b t query forks).2 := by
  induction query generalizing t forks with
  | nil =>
      cases shaped with
      | slot payload =>
          refine ⟨sound, ?_⟩
          cases payload <;> simp [descend, Trie.entries, Bound.payloads, Bound.Within]
  | cons n query ih =>
      cases shaped with
      | @branches _ edges _ ascending inner =>
          rw [descend, Trie.entries]
          rcases first?_cases (b := b) (n := n) ascending inner with
            ⟨stuck, nothing⟩ | ⟨below, later, entered, shaped, fork, split⟩
          · rw [stuck, nothing]
            exact ⟨sound, rfl⟩
          · rw [entered, split, List.append_assoc, ← owedAll_cons]
            exact ih shaped (List.forall_mem_cons.2 ⟨fork, sound⟩)

theorem backtrack_cases (sound : ∀ f ∈ forks, f.Sound b) :
    (backtrack b forks = none ∧ owedAll b forks = []) ∨
      ∃ t query left, backtrack b forks = some (t, query, left) ∧ t.Shaped query.length ∧
        (∀ f ∈ left, f.Sound b) ∧
        owedAll b forks = b.payloads query t.entries ++ owedAll b left := by
  induction forks with
  | nil => exact .inl ⟨rfl, rfl⟩
  | cons f outer ih =>
      obtain ⟨here, others⟩ := List.forall_mem_cons.1 sound
      rw [backtrack, owedAll_cons]
      rcases here.next?_cases with ⟨none, nothing⟩ | ⟨below, later, next, shaped, fork, split⟩
      · rw [none, nothing]
        exact ih others
      · rw [next, split, List.append_assoc, ← owedAll_cons]
        exact .inr ⟨_, _, _, rfl, shaped, List.forall_mem_cons.2 ⟨fork, others⟩, rfl⟩

/-- From a dead end or an empty slot on, the walk finds what is left behind the levels. -/
theorem reach_rests (shaped : t.Shaped query.length) (sound : ∀ f ∈ forks, f.Sound b) :
    Rests b (b.payloads query t.entries ++ owedAll b forks) (reach b t query forks) := by
  induction t, query, forks using reach.induct b with
  | case1 t query forks payload reached descended =>
      obtain ⟨sound, owes⟩ := descend_owes shaped sound
      rw [reach_of_some descended]
      rw [descended] at sound owes
      exact ⟨sound, owes, fun none => absurd none (Option.some_ne_none payload)⟩
  | case2 t query forks reached descended stuck =>
      obtain ⟨sound, owes⟩ := descend_owes shaped sound
      rw [descended] at sound owes
      rcases backtrack_cases sound with ⟨-, nothing⟩ | ⟨_, _, _, moved, -⟩
      · rw [reach_of_none descended, resume, stuck, owes]
        exact ⟨List.forall_mem_nil _, nothing, fun _ => rfl⟩
      · cases stuck.symm.trans moved
  | case3 t query forks reached descended t' query' left moved less ih =>
      obtain ⟨sound, owes⟩ := descend_owes shaped sound
      rw [descended] at sound owes
      rcases backtrack_cases sound with ⟨stuck, -⟩ | ⟨_, _, _, moved', shaped', sound', split⟩
      · cases stuck.symm.trans moved
      · cases moved.symm.trans moved'
        rw [reach_of_none descended, resume, moved, owes]
        exact split ▸ ih shaped' sound'

/-- Going on from a slot, the walk finds what is left behind the levels. -/
theorem resume_rests (sound : ∀ f ∈ forks, f.Sound b) :
    Rests b (owedAll b forks) (resume b forks) := by
  rw [resume]
  rcases backtrack_cases sound with ⟨stuck, nothing⟩ | ⟨t, query, left, moved, shaped, sound', split⟩
  · rw [stuck, nothing]
    exact ⟨List.forall_mem_nil _, rfl, fun _ => rfl⟩
  · rw [moved, split]
    exact reach_rests shaped sound'

end Fork

namespace Cursor

variable {α : Type} {c : Cursor α} {payloads : List α}

/-- The cursor has just these payloads to come, in this order. -/
def Owes (c : Cursor α) (payloads : List α) : Prop :=
  Fork.Rests c.bound payloads (c.upcoming, c.forks)

/-- The cursor after a number of steps. -/
def after (c : Cursor α) : (steps : Nat) → Cursor α
  | 0 => c
  | steps + 1 => (c.after steps).next.2

theorem owes_idle : (idle : Cursor α).Owes [] :=
  ⟨nofun, rfl, fun _ => rfl⟩

namespace Owes

theorem hasNext_eq (owes : c.Owes payloads) : c.hasNext = !payloads.isEmpty := by
  obtain ⟨b, upcoming, forks⟩ := c
  obtain ⟨-, rfl, finished⟩ := owes
  cases upcoming with
  | none =>
      rw [finished rfl]
      rfl
  | some payload => rfl

/-- A step gives out the first payload to come, and the others remain. -/
theorem next (owes : c.Owes payloads) :
    c.next.1 = payloads.head? ∧ c.next.2.Owes payloads.tail := by
  obtain ⟨b, upcoming, forks⟩ := c
  obtain ⟨sound, rfl, finished⟩ := owes
  cases upcoming with
  | none =>
      cases finished rfl
      exact ⟨rfl, nofun, rfl, fun _ => rfl⟩
  | some payload => exact ⟨rfl, Fork.resume_rests sound⟩

theorem toList_eq (owes : c.Owes payloads) : c.toList = payloads := by
  induction payloads generalizing c with
  | nil => rw [toList, dif_neg (by rw [owes.hasNext_eq]; exact Bool.false_ne_true)]
  | cons payload payloads ih =>
      obtain ⟨given, owes'⟩ := owes.next
      have more : c.hasNext = true := owes.hasNext_eq
      rw [toList, dif_pos more, given, ih owes']
      rfl

theorem after (owes : c.Owes payloads) (steps : Nat) :
    (c.after steps).Owes (payloads.drop steps) := by
  induction steps with
  | zero => exact owes
  | succ steps ih =>
      rw [← List.tail_drop]
      exact ih.next.2

end Owes

end Cursor

namespace FeatureIndex

variable {α : Type} {ix : FeatureIndex α} {v query : List Nat} {a : α}

/-- The filled vectors of the index, with their payloads. -/
def entries (ix : FeatureIndex α) : List (List Nat × α) :=
  (ix.root.map Trie.entries).getD []

/-- The entries are the filled vectors that are found. -/
theorem Sound.mem_entries_iff (sound : ix.Sound) : (v, a) ∈ ix.entries ↔ ix.find? v = some a := by
  rw [find?, sound.slot?_eq, entries, Option.join_eq_some_iff]
  cases root : ix.root with
  | none => exact iff_of_false List.not_mem_nil nofun
  | some t =>
      obtain ⟨n, -, shaped⟩ := sound t root
      exact shaped.mem_entries_iff

/-- No vector comes twice. -/
theorem Sound.nodup_entries (sound : ix.Sound) : (ix.entries.map (·.1)).Nodup := by
  rw [entries]
  cases root : ix.root with
  | none => exact List.nodup_nil
  | some t =>
      obtain ⟨n, -, shaped⟩ := sound t root
      exact shaped.nodup_entries

/-- A cursor that is put to an index owes the payloads of the entries within its bound. -/
theorem Sound.start_owes (sound : ix.Sound) (takes : ix.Takes query) (b : Bound) :
    ∃ c, Cursor.start ix b query = .ok c ∧ c.Owes (b.payloads query ix.entries) := by
  rw [Cursor.start, entries]
  cases root : ix.root with
  | none =>
      refine ⟨.idle, ?_, Cursor.owes_idle⟩
      cases length : ix.length with
      | none => rfl
      | some n =>
          rw [Takes, length, Option.getD_some] at takes
          rw [takes]
          exact bind_eq_ok_iff.2 ⟨(), require_eq_ok_iff.2 (beq_self_eq_true _), rfl⟩
  | some t =>
      obtain ⟨n, length, shaped⟩ := sound t root
      rw [Takes, length, Option.getD_some] at takes
      subst takes
      refine ⟨⟨b, (Fork.reach b t query []).1, (Fork.reach b t query []).2⟩, ?_, ?_⟩
      · rw [length]
        exact bind_eq_ok_iff.2 ⟨(), require_eq_ok_iff.2 (beq_self_eq_true _), rfl⟩
      · have rests : Fork.Rests b (_ ++ Fork.owedAll b []) (Fork.reach b t query []) :=
          Fork.reach_rests shaped (List.forall_mem_nil _)
        rwa [Fork.owedAll, List.flatMap_nil, List.append_nil] at rests

/-- Selecting answers the payloads of the entries within the bound. -/
theorem Sound.select_eq (sound : ix.Sound) (takes : ix.Takes query) (b : Bound) :
    ix.select b query = .ok ((ix.entries.filter fun e => b.Within query e.1).map (·.2)) := by
  obtain ⟨c, started, owes⟩ := sound.start_owes takes b
  rw [select, started]
  exact congrArg Except.ok owes.toList_eq

end FeatureIndex

end SaturationCore
