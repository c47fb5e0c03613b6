import Mathlib.Data.List.ReduceOption
import Arcana.Foundations.Counter
import Arcana.Foundations.Partition
import Arcana.Foundations.Sorted
import Arcana.Foundations.Transition

/-!
# Sorted vectors and ticketed collections

`sorted_vector` finds the place of an element and the element of a key with `std::partition_point`.
`ticketed_collection` keeps its items in a `sorted_vector`, ordered by the ids that it counts up,
and a ticket finds its item by binary search when it is destroyed. That the ids are increasing and
below the next one is carried by the collection itself (`TicketedCollection`); with it an insertion
appends (`insert_eq`) and a removal takes out the one item with the id (`remove_eq`).

The second part is what a caller sees: tickets are objects that are moved and destroyed, and every
operation is a critical section of the caller's mutex. In every run the collection holds the items
whose ticket is alive, in the order of insertion (`holds_alive`).

A ticket is a `gsl::final_action`, which is not part of the repository. What is assumed of it is
what is documented: it runs its action when it is destroyed, unless it was moved from, and what it
was moved to runs the action then. So a ticket object here holds the id of its item, a move leaves
it empty, and an object that is empty does nothing when it is destroyed.

* `SortedVector.partitionPoint`, `find` and `insert` are the functions of `sorted_vector`;
  `find_append` says what a search finds in a sorted vector.
* `TicketedCollection` carries the order of its ids. `TicketedCollection.insert` and `remove` are
  the functions of the source, and `insert_eq` and `remove_eq` say what they do to the items.
* `TicketState.step` are the operations of a caller, `TicketState.Coherent` is what holds between
  them, and `TicketState.Coherent.destroy` says that a ticket removes its own item.
* `TicketState.holds_alive` is the result about runs.
-/

namespace Arcana.Containers

open Foundations

/-! ## `sorted_vector` -/

namespace SortedVector

variable {α κ : Type*}

/-- `sorted_vector::partition_point`. -/
def partitionPoint (comp : α → κ → Bool) (data : List α) (val : κ) : ℕ :=
  Foundations.partitionPoint (fun existing => comp existing val) data

/-- `sorted_vector::find`: an index, or `none` for `end()`. -/
def find (comp equal : α → κ → Bool) (data : List α) (key : κ) : Option ℕ :=
  let part := partitionPoint comp data key
  match data[part]? with
  | none => none
  | some x => if equal x key then some part else none

/-- `sorted_vector::insert`. -/
def insert (comp : α → α → Bool) (data : List α) (val : α) : List α :=
  data.insertIdx (partitionPoint comp data val) val

/-- An element that all others are before goes to the end. -/
theorem insert_of_forall {comp : α → α → Bool} {data : List α} {val : α}
    (h : ∀ x ∈ data, comp x val = true) : insert comp data val = data ++ [val] := by
  have hpart : partitionPoint comp data val = data.length := by
    have hnone : ∀ x ∈ ([] : List α), comp x val = false := nofun
    have hsplit := partitionPoint_append h hnone
    rwa [List.append_nil] at hsplit
  rw [insert, hpart, List.insertIdx_length_self]

/-- The element that separates those before the key from those that are not is found. -/
theorem find_append {comp equal : α → κ → Bool} {l₁ l₂ : List α} {x : α} {key : κ}
    (h₁ : ∀ y ∈ l₁, comp y key = true) (hx : comp x key = false)
    (h₂ : ∀ y ∈ l₂, comp y key = false) (heq : equal x key = true) :
    find comp equal (l₁ ++ x :: l₂) key = some l₁.length := by
  have hpart : partitionPoint comp (l₁ ++ x :: l₂) key = l₁.length :=
    partitionPoint_append h₁ (List.forall_mem_cons.2 ⟨hx, h₂⟩)
  rw [find, hpart, getElem?_append_cons]
  exact if_pos heq

end SortedVector

/-! ## `ticketed_collection` -/

variable {T : Type*}

/-- `ticketed_collection`, with the order of the ids it gave out. -/
structure TicketedCollection (T : Type*) where
  seed : Int64 := 0
  items : List (Int64 × T) := []
  ordered : (items.map Prod.fst).Pairwise (· < ·) := by simp
  below : ∀ x ∈ items, x.1 < seed := by simp

namespace TicketedCollection

/-- `compare` on two items. -/
def compare (left right : Int64 × T) : Bool := left.1 < right.1

/-- `compare` on an item and an id. -/
def compareId (left : Int64 × T) (right : Int64) : Bool := left.1 < right

/-- The items with one more, whose id is the seed. -/
def insertItem (c : TicketedCollection T) (element : T) : List (Int64 × T) :=
  SortedVector.insert compare c.items (c.seed, element)

theorem insertItem_eq (c : TicketedCollection T) (element : T) :
    c.insertItem element = c.items ++ [(c.seed, element)] :=
  SortedVector.insert_of_forall fun x hx => decide_eq_true (c.below x hx)

/-- `insert`, with the id of the ticket it returns. There is none when the seed overflows. -/
def insert (c : TicketedCollection T) (element : T) : Option (TicketedCollection T × Int64) :=
  match h : increment c.seed with
  | none => none
  | some seed => some
    ({ seed
       items := c.insertItem element
       ordered := by
        rw [insertItem_eq, List.map_append, List.pairwise_append]
        refine ⟨c.ordered, List.pairwise_singleton _ _, fun a ha b hb => ?_⟩
        obtain ⟨x, hx, rfl⟩ := List.mem_map.1 ha
        obtain rfl := List.mem_singleton.1 hb
        exact c.below x hx
       below := by
        intro x hx
        rw [insertItem_eq] at hx
        rcases List.mem_append.1 hx with hx | hx
        · exact lt_increment_of_le h (.inl (c.below x hx))
        · obtain rfl := List.mem_singleton.1 hx
          exact lt_increment h }, c.seed)

/-- `ticket_functor`: removes the item with the id, or there is no result when the assertion that it
is there fails. -/
def remove (c : TicketedCollection T) (id : Int64) : Option (TicketedCollection T) :=
  (SortedVector.find compareId (fun left right => left.1 == right) c.items id).map fun found =>
    { seed := c.seed
      items := c.items.eraseIdx found
      ordered := c.ordered.sublist ((List.eraseIdx_sublist _ _).map _)
      below := fun x hx => c.below x ((List.eraseIdx_sublist _ _).subset hx) }

/-- What an iteration yields. -/
def elements (c : TicketedCollection T) : List T := c.items.map Prod.snd

variable {c c' : TicketedCollection T} {id : Int64} {x : T}

/-- **An insertion appends**, since its id is the largest one. -/
theorem insert_eq (h : c.insert x = some (c', id)) :
    id = c.seed ∧ c'.items = c.items ++ [(c.seed, x)] ∧ increment c.seed = some c'.seed := by
  rw [insert] at h
  split at h
  · cases h
  · rename_i seed hseed
    cases h
    exact ⟨rfl, c.insertItem_eq x, hseed⟩

theorem insert_ne_none (h : c.seed.toInt < 2 ^ 63 - 1) (x : T) : c.insert x ≠ none := by
  have hne := increment_ne_none h
  rw [insert]
  split
  · rename_i hnone
    exact absurd hnone hne
  · exact Option.some_ne_none _

/-- **A removal takes out the item with the id**, and leaves the others where they are. -/
theorem remove_eq {l₁ l₂ : List (Int64 × T)} (h : c.items = l₁ ++ (id, x) :: l₂) :
    ∃ c', c.remove id = some c' ∧ c'.items = l₁ ++ l₂ ∧ c'.seed = c.seed := by
  have ordered := c.ordered
  rw [h, List.map_append, List.map_cons, List.pairwise_append, List.pairwise_cons] at ordered
  obtain ⟨-, ⟨after, -⟩, before⟩ := ordered
  have hfind : SortedVector.find compareId (fun left right => left.1 == right) c.items id =
      some l₁.length := by
    rw [h]
    refine SortedVector.find_append (fun y hy => ?_) ?_ (fun y hy => ?_) (beq_self_eq_true _)
    · exact decide_eq_true (before _ (List.mem_map_of_mem hy) _ (.head _))
    · exact decide_eq_false Int64.lt_irrefl
    · have hlt := after _ (List.mem_map_of_mem hy)
      exact decide_eq_false fun hlt' => Int64.lt_irrefl (Int64.lt_trans hlt hlt')
  refine ⟨_, Option.map_eq_some_iff.2 ⟨_, hfind, rfl⟩, ?_, rfl⟩
  rw [← eraseIdx_append_cons l₁ l₂ (id, x), ← h]

/-- No other item has the id. -/
theorem filter_ne {l₁ l₂ : List (Int64 × T)} (h : c.items = l₁ ++ (id, x) :: l₂) :
    c.items.filter (fun y => y.1 ≠ id) = l₁ ++ l₂ := by
  have ordered := c.ordered
  rw [h, List.map_append, List.map_cons, List.pairwise_append, List.pairwise_cons] at ordered
  obtain ⟨-, ⟨after, -⟩, before⟩ := ordered
  have h₁ : ∀ y ∈ l₁, y.1 ≠ id := fun y hy e =>
    Int64.lt_irrefl (e ▸ before _ (List.mem_map_of_mem hy) _ (.head _))
  have h₂ : ∀ y ∈ l₂, y.1 ≠ id := fun y hy e =>
    Int64.lt_irrefl (e ▸ after _ (List.mem_map_of_mem hy))
  rw [h, List.filter_append, List.filter_cons_of_neg (by simp),
    List.filter_eq_self.2 fun y hy => decide_eq_true (h₁ y hy),
    List.filter_eq_self.2 fun y hy => decide_eq_true (h₂ y hy)]

end TicketedCollection

/-! ## Tickets -/

/-- A collection in use. A ticket object holds the id it will remove, or nothing once it was moved
from or destroyed. The items that were inserted, in order, are a history. -/
structure TicketState (T : Type*) where
  collection : TicketedCollection T := {}
  tickets : List (Option Int64) := []
  inserted : List (Int64 × T) := []

/-- What a caller does. Ticket objects are named by the order in which they were made. -/
inductive TicketAction (T : Type*)
  | insert (element : T)
  | move (ticket : ℕ)
  | destroy (ticket : ℕ)

namespace TicketState

/-- One operation. -/
def step (s : TicketState T) : TicketAction T → Option (TicketState T)
  | .insert element => (s.collection.insert element).map fun result =>
    { collection := result.1
      tickets := s.tickets ++ [some result.2]
      inserted := s.inserted ++ [(result.2, element)] }
  | .move i =>
    s.tickets[i]?.map fun ticket => { s with tickets := s.tickets.set i none ++ [ticket] }
  | .destroy i =>
    match s.tickets[i]? with
    | none => none
    | some none => some s
    | some (some id) => (s.collection.remove id).map fun collection =>
      { s with collection, tickets := s.tickets.set i none }

/-- The items whose ticket is alive, in the order of insertion. -/
def alive (s : TicketState T) : List (Int64 × T) :=
  s.inserted.filter fun x => some x.1 ∈ s.tickets

/-- What holds between the operations: the ids inserted are increasing, no two tickets hold the same
id, and the items are those whose ticket is alive. -/
structure Coherent (s : TicketState T) : Prop where
  count : s.collection.seed.toInt = s.inserted.length
  ordered : (s.inserted.map Prod.fst).Pairwise (· < ·)
  below : ∀ x ∈ s.inserted, x.1 < s.collection.seed
  armed : s.tickets.reduceOption.Nodup
  known : ∀ id, some id ∈ s.tickets → ∃ x, (id, x) ∈ s.inserted
  items : s.collection.items = s.alive

variable {s s' : TicketState T}

theorem mem_alive {x : Int64 × T} : x ∈ s.alive ↔ x ∈ s.inserted ∧ some x.1 ∈ s.tickets := by
  simp [alive]

/-- The item of a ticket that is alive. -/
theorem Coherent.exists_mem (h : s.Coherent) {id : Int64} (hid : some id ∈ s.tickets) :
    ∃ x l₁ l₂, (id, x) ∈ s.inserted ∧ s.collection.items = l₁ ++ (id, x) :: l₂ := by
  obtain ⟨x, hx⟩ := h.known id hid
  have hmem : (id, x) ∈ s.collection.items := by
    rw [h.items]
    exact mem_alive.2 ⟨hx, hid⟩
  obtain ⟨l₁, l₂, hl⟩ := List.append_of_mem hmem
  exact ⟨x, l₁, l₂, hx, hl⟩

/-- No ticket holds the next id. -/
theorem Coherent.fresh (h : s.Coherent) : some s.collection.seed ∉ s.tickets := by
  intro hmem
  obtain ⟨y, hy⟩ := h.known _ hmem
  have hlt := h.below _ hy
  exact Int64.lt_irrefl hlt

theorem Coherent.insert (h : s.Coherent) {x : T} (hstep : s.step (.insert x) = some s') :
    s'.Coherent := by
  obtain ⟨⟨c, id⟩, hc, rfl⟩ := Option.map_eq_some_iff.1 hstep
  obtain ⟨rfl, hitems, hseed⟩ := TicketedCollection.insert_eq hc
  have keeps {y : Int64 × T} (hy : y ∈ s.inserted) :
      some y.1 ∈ s.tickets ++ [some s.collection.seed] ↔ some y.1 ∈ s.tickets := by
    have hlt := h.below y hy
    have hne : y.1 ≠ s.collection.seed := by
      intro e
      rw [e] at hlt
      exact Int64.lt_irrefl hlt
    simp [hne]
  constructor
  · rw [toInt_increment hseed, h.count]
    simp
  · rw [List.map_append, List.pairwise_append]
    refine ⟨h.ordered, List.pairwise_singleton _ _, fun a ha b hb => ?_⟩
    obtain ⟨y, hy, rfl⟩ := List.mem_map.1 ha
    obtain rfl := List.mem_singleton.1 hb
    exact h.below y hy
  · intro y hy
    rcases List.mem_append.1 hy with hy | hy
    · exact lt_increment_of_le hseed (.inl (h.below y hy))
    · obtain rfl := List.mem_singleton.1 hy
      exact lt_increment hseed
  · rw [List.reduceOption_append, List.reduceOption_singleton]
    refine List.nodup_append.2 ⟨h.armed, by simp, fun a ha b hb e => ?_⟩
    obtain rfl : b = s.collection.seed := by simpa using hb
    exact h.fresh (List.reduceOption_mem_iff.1 (e ▸ ha))
  · intro id hid
    rcases List.mem_append.1 hid with hid | hid
    · obtain ⟨y, hy⟩ := h.known id hid
      exact ⟨y, List.mem_append_left _ hy⟩
    · cases List.mem_singleton.1 hid
      exact ⟨x, by simp⟩
  · have hold : s.inserted.filter (fun y => some y.1 ∈ s.tickets ++ [some s.collection.seed]) =
        s.alive := List.filter_congr fun y hy => by simp only [keeps hy]
    rw [hitems, alive, List.filter_append, hold, h.items]
    simp

/-- Moving a ticket leaves the ids that are held. -/
theorem Coherent.of_perm (h : s.Coherent) {tickets : List (Option Int64)}
    (armed : tickets.reduceOption.Perm s.tickets.reduceOption) :
    ({ s with tickets } : TicketState T).Coherent := by
  have keeps (id : Int64) : some id ∈ tickets ↔ some id ∈ s.tickets := by
    rw [← List.reduceOption_mem_iff, ← List.reduceOption_mem_iff]
    exact armed.mem_iff
  refine ⟨h.count, h.ordered, h.below, armed.nodup_iff.2 h.armed, fun id hid => ?_, ?_⟩
  · exact h.known id ((keeps id).1 hid)
  · rw [h.items]
    exact List.filter_congr fun y _ => by simp only [keeps]

theorem Coherent.move (h : s.Coherent) {i : ℕ} (hstep : s.step (.move i) = some s') :
    s'.Coherent := by
  obtain ⟨ticket, hticket, rfl⟩ := Option.map_eq_some_iff.1 hstep
  obtain ⟨l₁, l₂, hl, rfl⟩ := exists_append_of_getElem? hticket
  refine h.of_perm ?_
  rw [hl, set_append_cons]
  cases ticket with
  | none => simp [List.reduceOption_append]
  | some id =>
    simp only [List.reduceOption_append, List.reduceOption_cons_of_none,
      List.reduceOption_cons_of_some, List.reduceOption_nil]
    exact (List.perm_append_singleton _ _).trans List.perm_middle.symm

/-- **Destroying a ticket removes its own item.** -/
theorem Coherent.destroy (h : s.Coherent) {i : ℕ} {id : Int64}
    (hi : s.tickets[i]? = some (some id)) :
    ∃ x l₁ l₂ s', (id, x) ∈ s.inserted ∧ s.collection.items = l₁ ++ (id, x) :: l₂ ∧
      s.step (.destroy i) = some s' ∧ s'.collection.items = l₁ ++ l₂ ∧ s'.Coherent := by
  obtain ⟨x, l₁, l₂, hx, hitems⟩ := h.exists_mem (List.mem_of_getElem? hi)
  obtain ⟨c, hremove, hc, hseed⟩ := TicketedCollection.remove_eq hitems
  obtain ⟨t₁, t₂, ht, rfl⟩ := exists_append_of_getElem? hi
  have armed := h.armed
  rw [ht] at armed
  rw [List.reduceOption_append, List.reduceOption_cons_of_some, List.nodup_middle,
    List.nodup_cons, ← List.reduceOption_append] at armed
  -- the ticket was the only one with its id
  have keeps (a : Int64) : some a ∈ s.tickets.set t₁.length none ↔ some a ∈ s.tickets ∧ a ≠ id := by
    have hnot : some id ∉ t₁ ++ t₂ := fun hmem => armed.1 (List.reduceOption_mem_iff.2 hmem)
    rw [ht, set_append_cons]
    simp only [List.mem_append, List.mem_cons, reduceCtorEq, false_or, Option.some.injEq] at hnot ⊢
    constructor
    · intro ha
      refine ⟨ha.imp_right .inr, ?_⟩
      rintro rfl
      exact hnot ha
    · rintro ⟨ha | rfl | ha, hne⟩
      · exact .inl ha
      · exact absurd rfl hne
      · exact .inr ha
  refine ⟨x, l₁, l₂, { s with collection := c, tickets := s.tickets.set t₁.length none },
    hx, hitems, ?_, hc, ?_⟩
  · simp only [step, hi, hremove, Option.map_some]
  · refine ⟨hseed ▸ h.count, h.ordered, hseed ▸ h.below, ?_, fun a ha => ?_, ?_⟩
    · rw [ht, set_append_cons, List.reduceOption_append, List.reduceOption_cons_of_none,
        ← List.reduceOption_append]
      exact armed.2
    · exact h.known a ((keeps a).1 ha).1
    · have hfilter := TicketedCollection.filter_ne hitems
      rw [h.items] at hfilter
      rw [hc, ← hfilter, alive, alive, List.filter_filter]
      exact List.filter_congr fun y _ => by simp [keeps, and_comm]

theorem Coherent.step (h : s.Coherent) {a : TicketAction T} (hstep : s.step a = some s') :
    s'.Coherent := by
  cases a with
  | insert x => exact h.insert hstep
  | move i => exact h.move hstep
  | destroy i =>
    cases hi : s.tickets[i]? with
    | none => simp [TicketState.step, hi] at hstep
    | some ticket =>
      cases ticket with
      | none =>
        simp only [TicketState.step, hi, Option.some.injEq] at hstep
        exact hstep ▸ h
      | some id =>
        obtain ⟨x, l₁, l₂, s'', -, -, hstep', -, hs''⟩ := h.destroy hi
        rw [hstep'] at hstep
        exact Option.some.inj hstep ▸ hs''

theorem Coherent.empty : ({} : TicketState T).Coherent where
  count := rfl
  ordered := .nil
  below := nofun
  armed := .nil
  known := nofun
  items := rfl

/-- **The collection holds exactly the items whose ticket is alive, in the order of insertion.** In
every state of a run of insertions, moves and destructions of tickets: the items are those inserted
whose ticket is alive, and their ids are increasing, so that each is there once; destroying a ticket
that is alive finds its item, and removes it and no other; and an insertion is defined while fewer
than `2 ^ 63` were made. -/
theorem holds_alive (h : Reach step anyStep ({} : TicketState T) s) :
    s.collection.items = (s.inserted.filter fun x => some x.1 ∈ s.tickets) ∧
    (s.collection.items.map Prod.fst).Pairwise (· < ·) ∧
    (∀ i id, s.tickets[i]? = some (some id) → ∃ x l₁ l₂ s', (id, x) ∈ s.inserted ∧
      s.collection.items = l₁ ++ (id, x) :: l₂ ∧ s.step (.destroy i) = some s' ∧
      s'.collection.items = l₁ ++ l₂) ∧
    ∀ x, s.inserted.length + 1 < 2 ^ 63 → s.step (.insert x) ≠ none := by
  have hcoherent : s.Coherent := h.invariant .empty fun _ _ _ ha _ hstep => ha.step hstep
  refine ⟨hcoherent.items, s.collection.ordered, fun i id hi => ?_, fun x hx => ?_⟩
  · obtain ⟨x, l₁, l₂, s', hmem, hitems, hstep, hitems', -⟩ := hcoherent.destroy hi
    exact ⟨x, l₁, l₂, s', hmem, hitems, hstep, hitems'⟩
  · have hseed := hcoherent.count
    have hinsert := TicketedCollection.insert_ne_none (c := s.collection) (by omega) x
    simpa [step] using hinsert

/-- Three items, of which the second one goes while its ticket has moved. -/
theorem holds_alive_moved : ∃ s, Reach step anyStep ({} : TicketState ℕ) s ∧
    s.collection.elements = [10, 30] ∧
      s.collection.items = s.inserted.filter fun x => some x.1 ∈ s.tickets := by
  have hrun : (run step ({} : TicketState ℕ) [.insert 10, .insert 20, .move 1, .insert 30,
      .destroy 2]).map (fun s => s.collection.elements) = some [10, 30] := by decide
  obtain ⟨s, hreach, helements⟩ := exists_reach_of_run hrun
  exact ⟨s, hreach, helements, (holds_alive hreach).1⟩

end TicketState

end Arcana.Containers
