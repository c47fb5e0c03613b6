import Mathlib.Data.List.ReduceOption
import Mathlib.Logic.Function.Basic
import Arcana.Foundations.Partition
import Arcana.Foundations.SortedMap
import Arcana.Foundations.Transition

/-!
# `weak_table`

A value of a `weak_table` belongs to a ticket. The ticket owns a cell of the heap that holds the
address of the map, and the address of the cell is the key of the value, so that a ticket that is
destroyed finds its entry and a table that is cleared tells the tickets by resetting their cells.
Either side can go first, and a cell that was freed can be handed out again by the next allocation.

The heap is explicit: an allocation takes any cell that is free. Reading or writing a cell that is
not allocated, or a map that is destroyed, has no result. Each value carries the number of its
insertion, so that the values are told apart. A ticket is destroyed at the end of the scope that
holds it, once; one that was moved from is an empty shell, as its move constructor leaves it.

* `WeakState`: the heap, the tables and the tickets, with the histories of insertions and clears.
* `WeakState.step`: the operations.
* `WeakState.Linked`: the entries of a table are those of the tickets that point back to it.
* `WeakState.Empties`: what clearing or destroying a table does.
* `WeakState.Linked.step`: every operation keeps tables and tickets linked.
* `WeakState.keys_are_live_cells`: the keys of a map are the cells of its live tickets, and what
  each operation does.
-/

namespace Arcana.Containers

open Foundations

variable {V : Type*}

/-- `weak_table::apply_to_all`: the values that the callable is called with, in this order. -/
def applyToAll (map : SortedMap ℕ V) : List V := map.entries.map Prod.snd

/-- A ticket that is not an empty shell: `m_collection`, with the number of the insertion. -/
structure WeakTicket where
  cell : ℕ
  number : ℕ
  deriving DecidableEq

/-- What is seen of the destructor of a ticket. -/
inductive WeakEvent
  /-- The map of a table was accessed. -/
  | erased (number table : ℕ)
  | freed (number cell : ℕ)
  deriving DecidableEq

/-- Tables and tickets. A cell that is allocated holds the address of a map or a null pointer, and a
table that is alive has its map. A ticket object is nothing once it was moved from or destroyed. The
values that were inserted in a table, in order, the numbers of those whose table was cleared or
destroyed since, and the log are histories. -/
structure WeakState (V : Type*) where
  cells : ℕ → Option (Option ℕ) := fun _ => none
  tables : ℕ → Option (SortedMap ℕ (ℕ × V)) := fun _ => none
  tickets : List (Option WeakTicket) := []
  inserted : List (ℕ × V) := []
  cleared : List ℕ := []
  log : List WeakEvent := []

/-- What a caller does. Tables are named by the address of their map, ticket objects by the order in
which they were made, and an insertion comes with the cell that is allocated. -/
inductive WeakAction (V : Type*)
  | construct (table : ℕ)
  | insert (table : ℕ) (value : V) (cell : ℕ)
  | move (ticket : ℕ)
  | destroyTicket (ticket : ℕ)
  | clear (table : ℕ)
  | destroyTable (table : ℕ)

namespace WeakState

/-- The loop of `clear`. -/
def reset (cells : ℕ → Option (Option ℕ)) : List ℕ → Option (ℕ → Option (Option ℕ))
  | [] => some cells
  | ptr :: ptrs =>
    match cells ptr with
    | none => none
    | some _ => reset (Function.update cells ptr (some none)) ptrs

/-- The numbers of the values that were inserted in a table. -/
def numbers (inserted : List (ℕ × V)) (table : ℕ) : List ℕ :=
  (List.range inserted.length).filter fun n => inserted[n]?.map Prod.fst = some table

/-- `clear`. -/
def clear (s : WeakState V) (table : ℕ) : Option (WeakState V) :=
  match s.tables table with
  | none => none
  | some map => (reset s.cells map.keys).map fun cells =>
    { s with
      cells
      tables := Function.update s.tables table (some {})
      cleared := s.cleared ++ numbers s.inserted table }

/-- The part of `~ticket` that takes the entry out of the map that the cell holds. -/
def unlink (s : WeakState V) (ticket : WeakTicket) : Option ℕ → Option (WeakState V)
  | none => some s
  | some ptr => (s.tables ptr).map fun map =>
    { s with
      tables := Function.update s.tables ptr (some (map.erase ticket.cell))
      log := s.log ++ [.erased ticket.number ptr] }

/-- `delete m_collection`. -/
def free (s : WeakState V) (ticket : WeakTicket) : WeakState V :=
  { s with
    cells := Function.update s.cells ticket.cell none
    log := s.log ++ [.freed ticket.number ticket.cell] }

/-- One operation. -/
def step (s : WeakState V) : WeakAction V → Option (WeakState V)
  | .construct table =>
    match s.tables table with
    | some _ => none
    | none => some { s with tables := Function.update s.tables table (some {}) }
  | .insert table value cell =>
    match s.cells cell, s.tables table with
    | none, some map => some
      { s with
        cells := Function.update s.cells cell (some (some table))
        tables := Function.update s.tables table (some (map.assign cell (s.inserted.length, value)))
        tickets := s.tickets ++ [some { cell, number := s.inserted.length }]
        inserted := s.inserted ++ [(table, value)] }
    | _, _ => none
  | .move i =>
    s.tickets[i]?.map fun ticket => { s with tickets := s.tickets.set i none ++ [ticket] }
  | .destroyTicket i =>
    match s.tickets[i]? with
    | none => none
    | some none => some s
    | some (some ticket) =>
      match s.cells ticket.cell with
      | none => none
      | some ptr => (s.unlink ticket ptr).map fun s =>
        { s.free ticket with tickets := s.tickets.set i none }
  | .clear table => s.clear table
  | .destroyTable table => (s.clear table).map fun s =>
    { s with tables := Function.update s.tables table none }

/-- The tickets that are alive. -/
def held (s : WeakState V) : List WeakTicket := s.tickets.reduceOption

/-- The numbers of the insertions whose cell was freed. -/
def freed (s : WeakState V) : List ℕ :=
  s.log.filterMap fun event => match event with
    | .freed number _ => some number
    | .erased _ _ => none

/-- The cell of a ticket and the entry of its value agree: the table was cleared since, and the cell
holds a null pointer, or it holds the address of the map, where the value is. -/
def Agrees (s : WeakState V) (ticket : WeakTicket) (table : ℕ) (value : V) : Prop :=
  ticket.number ∈ s.cleared ∧ s.cells ticket.cell = some none ∨
  ticket.number ∉ s.cleared ∧ s.cells ticket.cell = some (some table) ∧
    ∃ map, s.tables table = some map ∧ (ticket.cell, (ticket.number, value)) ∈ map.entries

/-- What holds between the operations. -/
structure Linked (s : WeakState V) : Prop where
  cells : (s.held.map WeakTicket.cell).Nodup
  numbers : (s.held.map WeakTicket.number).Nodup
  allocated : ∀ c, s.cells c ≠ none → ∃ ticket ∈ s.held, ticket.cell = c
  known : ∀ ticket ∈ s.held, ∃ table value, s.inserted[ticket.number]? = some (table, value) ∧
    s.Agrees ticket table value
  entries : ∀ table map, s.tables table = some map → ∀ x ∈ map.entries,
    { cell := x.1, number := x.2.1 } ∈ s.held ∧ x.2.1 ∉ s.cleared ∧
      s.inserted[x.2.1]? = some (table, x.2.2)
  cleared : ∀ n ∈ s.cleared, n < s.inserted.length
  freedOnce : s.freed.Nodup
  freed : ∀ n, n ∈ s.freed ↔ n < s.inserted.length ∧ ∀ ticket ∈ s.held, ticket.number ≠ n

/-- The table was emptied: the cells that pointed to it hold a null pointer, and everything that was
inserted in it is cleared, and nothing else. -/
structure Empties (s s' : WeakState V) (table : ℕ) : Prop where
  cells : ∀ c, s'.cells c = if s.cells c = some (some table) then some none else s.cells c
  tables : ∀ table' ≠ table, s'.tables table' = s.tables table'
  cleared : ∀ n, n ∈ s'.cleared ↔
    n ∈ s.cleared ∨ ∃ value, s.inserted[n]? = some (table, value)
  tickets : s'.tickets = s.tickets
  inserted : s'.inserted = s.inserted
  log : s'.log = s.log

variable {s s' : WeakState V} {ticket : WeakTicket} {table : ℕ} {value : V}

/-! ## Cells and tickets -/

/-- When the cells of the keys are allocated, `clear` resets them. -/
theorem reset_eq {cells : ℕ → Option (Option ℕ)} {ptrs : List ℕ}
    (h : ∀ ptr ∈ ptrs, cells ptr ≠ none) :
    reset cells ptrs = some fun c => if c ∈ ptrs then some none else cells c := by
  induction ptrs generalizing cells with
  | nil => simp [reset]
  | cons ptr ptrs ih =>
    obtain ⟨hptr, hptrs⟩ := List.forall_mem_cons.1 h
    obtain ⟨pointer, hpointer⟩ := Option.ne_none_iff_exists'.1 hptr
    have hnext : ∀ p ∈ ptrs, Function.update cells ptr (some none) p ≠ none := fun p hp => by
      by_cases hpp : p = ptr
      · simp [hpp]
      · simpa [Function.update_of_ne hpp] using hptrs p hp
    simp only [reset, hpointer]
    rw [ih hnext]
    congr 1
    funext c
    by_cases hc : c = ptr
    · simp [hc]
    · simp [hc]

theorem mem_numbers {inserted : List (ℕ × V)} {n : ℕ} :
    n ∈ numbers inserted table ↔ ∃ value, inserted[n]? = some (table, value) := by
  rw [numbers, List.mem_filter, List.mem_range, decide_eq_true_eq, Option.map_eq_some_iff]
  constructor
  · rintro ⟨-, ⟨t, value⟩, hn, rfl⟩
    exact ⟨value, hn⟩
  · rintro ⟨value, hn⟩
    exact ⟨(List.getElem?_eq_some_iff.1 hn).1, (table, value), hn, rfl⟩

theorem Agrees.cell_ne_none (h : s.Agrees ticket table value) : s.cells ticket.cell ≠ none := by
  rcases h with ⟨-, h⟩ | ⟨-, h, -⟩
  · simp [h]
  · simp [h]

theorem mem_held : ticket ∈ s.held ↔ some ticket ∈ s.tickets := List.reduceOption_mem_iff

namespace Linked

/-- A ticket that is alive has its cell. -/
theorem cell_ne_none (h : s.Linked) (hticket : ticket ∈ s.held) : s.cells ticket.cell ≠ none := by
  obtain ⟨table, value, -, hagrees⟩ := h.known ticket hticket
  exact hagrees.cell_ne_none

theorem number_lt (h : s.Linked) (hticket : ticket ∈ s.held) :
    ticket.number < s.inserted.length := by
  obtain ⟨table, value, hnumber, -⟩ := h.known ticket hticket
  exact (List.getElem?_eq_some_iff.1 hnumber).1

/-- The entry with the cell of a ticket is the one of the ticket. -/
theorem eq_of_entry (h : s.Linked) (hticket : ticket ∈ s.held) {map : SortedMap ℕ (ℕ × V)}
    (hmap : s.tables table = some map) {x : ℕ × ℕ × V} (hx : x ∈ map.entries)
    (hcell : x.1 = ticket.cell) : x.2.1 = ticket.number := by
  have hinj := List.inj_on_of_nodup_map h.cells (h.entries table map hmap x hx).1 hticket hcell
  exact congrArg WeakTicket.number hinj

/-- The cell of an entry points back to the table. -/
theorem entry_cell (h : s.Linked) {map : SortedMap ℕ (ℕ × V)} (hmap : s.tables table = some map)
    {x : ℕ × ℕ × V} (hx : x ∈ map.entries) : s.cells x.1 = some (some table) := by
  obtain ⟨hheld, hcleared, hinserted⟩ := h.entries table map hmap x hx
  obtain ⟨table', value, hnumber, hagrees⟩ := h.known _ hheld
  cases hinserted.symm.trans hnumber
  rcases hagrees with ⟨hn, -⟩ | ⟨-, hcell, -⟩
  · exact absurd hn hcleared
  · exact hcell

/-- A cell is a key of the table that it points to. -/
theorem mem_keys_iff (h : s.Linked) {map : SortedMap ℕ (ℕ × V)} (hmap : s.tables table = some map)
    {c : ℕ} : c ∈ map.keys ↔ s.cells c = some (some table) := by
  constructor
  · intro hc
    obtain ⟨x, hx⟩ := SortedMap.mem_keys.1 hc
    exact h.entry_cell hmap hx
  · intro hcell
    obtain ⟨ticket, hticket, rfl⟩ := h.allocated c (by simp [hcell])
    obtain ⟨table', value, -, hagrees⟩ := h.known ticket hticket
    rcases hagrees with ⟨-, hnull⟩ | ⟨-, hptr, map', hmap', hentry⟩
    · cases hcell.symm.trans hnull
    · cases hcell.symm.trans hptr
      cases hmap.symm.trans hmap'
      exact SortedMap.mem_keys.2 ⟨_, hentry⟩

/-! ## The operations -/

theorem initial : ({} : WeakState V).Linked where
  cells := .nil
  numbers := .nil
  allocated := fun _ h => absurd rfl h
  known := nofun
  entries := nofun
  cleared := nofun
  freedOnce := .nil
  freed := by simp [WeakState.freed]

/-- A table without entries can come and go. -/
theorem renew (h : s.Linked) (hold : ∀ map, s.tables table = some map → map.entries = [])
    {new : Option (SortedMap ℕ (ℕ × V))} (hnew : ∀ map, new = some map → map.entries = []) :
    ({ s with tables := Function.update s.tables table new } : WeakState V).Linked := by
  refine { h with known := fun ticket hticket => ?_, entries := fun table' map hmap x hx => ?_ }
  · obtain ⟨table', value, hnumber, hagrees⟩ := h.known ticket hticket
    refine ⟨table', value, hnumber, hagrees.imp_right ?_⟩
    rintro ⟨hcleared, hcell, map, hmap, hentry⟩
    have hne : table' ≠ table := by
      rintro rfl
      simp [hold map hmap] at hentry
    exact ⟨hcleared, hcell, map, (Function.update_of_ne hne _ _).trans hmap, hentry⟩
  · by_cases hne : table' = table
    · subst hne
      simp only [Function.update_self] at hmap
      simp [hnew map hmap] at hx
    · simp only [Function.update_of_ne hne] at hmap
      exact h.entries table' map hmap x hx

/-- The cell that is allocated is no ticket's, and the number of the value is new. -/
theorem insert (h : s.Linked) {cell : ℕ} (hstep : s.step (.insert table value cell) = some s') :
    s'.Linked := by
  simp only [WeakState.step] at hstep
  split at hstep
  · rename_i map hcell hmap
    obtain rfl := Option.some.inj hstep
    have hother {t : WeakTicket} (ht : t ∈ s.held) : t.cell ≠ cell ∧ t.number ≠ s.inserted.length :=
      ⟨fun e => h.cell_ne_none ht (e ▸ hcell), (h.number_lt ht).ne⟩
    have hheld : List.reduceOption (s.tickets ++ [some ⟨cell, s.inserted.length⟩]) =
        s.held ++ [⟨cell, s.inserted.length⟩] := by
      rw [List.reduceOption_append, List.reduceOption_singleton, WeakState.held, Option.toList_some]
    have hnew : s.inserted.length ∉ s.cleared := fun hn => Nat.lt_irrefl _ (h.cleared _ hn)
    constructor
    · rw [WeakState.held, hheld, List.map_append]
      refine List.nodup_append.2 ⟨h.cells, List.nodup_singleton _, ?_⟩
      rintro a ha b hb rfl
      obtain ⟨t, ht, rfl⟩ := List.mem_map.1 ha
      exact (hother ht).1 (List.mem_singleton.1 hb)
    · rw [WeakState.held, hheld, List.map_append]
      refine List.nodup_append.2 ⟨h.numbers, List.nodup_singleton _, ?_⟩
      rintro a ha b hb rfl
      obtain ⟨t, ht, rfl⟩ := List.mem_map.1 ha
      exact (hother ht).2 (List.mem_singleton.1 hb)
    · intro c hc
      rw [WeakState.held, hheld]
      by_cases hcc : c = cell
      · exact ⟨⟨cell, s.inserted.length⟩, by simp, hcc.symm⟩
      · simp only [Function.update_of_ne hcc] at hc
        obtain ⟨t, ht, htc⟩ := h.allocated c hc
        exact ⟨t, List.mem_append_left _ ht, htc⟩
    · intro t ht
      rw [WeakState.held, hheld] at ht
      rcases List.mem_append.1 ht with ht | ht
      · obtain ⟨table', value', hnumber, hagrees⟩ := h.known t ht
        have htc := (hother ht).1
        refine ⟨table', value', ?_, ?_⟩
        · simp only [List.getElem?_append_left (h.number_lt ht)]
          exact hnumber
        · simp only [Agrees, Function.update_of_ne htc]
          refine hagrees.imp_right ?_
          rintro ⟨hcleared, hc, map', hmap', hentry⟩
          refine ⟨hcleared, hc, ?_⟩
          by_cases htable : table' = table
          · subst htable
            cases hmap.symm.trans hmap'
            exact ⟨_, Function.update_self .., SortedMap.mem_assign.2 (.inr ⟨hentry, htc⟩)⟩
          · exact ⟨map', (Function.update_of_ne htable _ _).trans hmap', hentry⟩
      · obtain rfl := List.mem_singleton.1 ht
        refine ⟨table, value, by simp, .inr ⟨hnew, Function.update_self .., _,
          Function.update_self .., SortedMap.mem_assign.2 (.inl rfl)⟩⟩
    · intro table' map' hmap' x hx
      rw [WeakState.held, hheld]
      -- what was there before stays
      have hold {map' : SortedMap ℕ (ℕ × V)} (hmap' : s.tables table' = some map')
          (hx : x ∈ map'.entries) :
          { cell := x.1, number := x.2.1 } ∈ s.held ++ [⟨cell, s.inserted.length⟩] ∧
          x.2.1 ∉ s.cleared ∧ (s.inserted ++ [(table, value)])[x.2.1]? = some (table', x.2.2) := by
        obtain ⟨hmem, hcleared, hinserted⟩ := h.entries table' map' hmap' x hx
        refine ⟨List.mem_append_left _ hmem, hcleared, ?_⟩
        rw [List.getElem?_append_left (h.number_lt hmem)]
        exact hinserted
      by_cases htable : table' = table
      · subst htable
        simp only [Function.update_self, Option.some.injEq] at hmap'
        subst hmap'
        rcases SortedMap.mem_assign.1 hx with rfl | ⟨hx, -⟩
        · exact ⟨by simp, hnew, by simp⟩
        · exact hold hmap hx
      · simp only [Function.update_of_ne htable] at hmap'
        exact hold hmap' hx
    · intro n hn
      rw [List.length_append]
      exact Nat.lt_add_right _ (h.cleared n hn)
    · exact h.freedOnce
    · intro n
      rw [WeakState.held, hheld, List.length_append, List.length_singleton]
      refine (h.freed n).trans ⟨fun ⟨hlt, hn⟩ => ⟨by omega, ?_⟩, fun ⟨hlt, hn⟩ => ⟨?_, ?_⟩⟩
      · simpa [or_imp, forall_and] using ⟨hn, by omega⟩
      · have hne := hn ⟨cell, s.inserted.length⟩ (by simp)
        simp only at hne
        omega
      · exact fun t ht => hn t (List.mem_append_left _ ht)
  · cases hstep

/-- Moving a ticket leaves what is held. -/
theorem of_perm (h : s.Linked) {tickets : List (Option WeakTicket)}
    (hperm : tickets.reduceOption.Perm s.held) : ({ s with tickets } : WeakState V).Linked := by
  have hmem (t : WeakTicket) : t ∈ tickets.reduceOption ↔ t ∈ s.held := hperm.mem_iff
  refine ⟨?_, ?_, fun c hc => ?_, fun t ht => ?_, fun table map hmap x hx => ?_, h.cleared,
    h.freedOnce, fun n => ?_⟩
  · exact (hperm.map _).nodup_iff.2 h.cells
  · exact (hperm.map _).nodup_iff.2 h.numbers
  · obtain ⟨t, ht, htc⟩ := h.allocated c hc
    exact ⟨t, (hmem t).2 ht, htc⟩
  · exact h.known t ((hmem t).1 ht)
  · obtain ⟨hheld, hrest⟩ := h.entries table map hmap x hx
    exact ⟨(hmem _).2 hheld, hrest⟩
  · refine (h.freed n).trans (and_congr_right' (forall_congr' fun t => ?_))
    exact imp_congr_left (hmem t).symm

theorem move (h : s.Linked) {i : ℕ} (hstep : s.step (.move i) = some s') : s'.Linked := by
  obtain ⟨ticket, hticket, rfl⟩ := Option.map_eq_some_iff.1 hstep
  obtain ⟨l₁, l₂, hl, rfl⟩ := exists_append_of_getElem? hticket
  refine h.of_perm ?_
  rw [WeakState.held, hl, set_append_cons]
  cases ticket with
  | none => simp [List.reduceOption_append]
  | some ticket =>
    simp only [List.reduceOption_append, List.reduceOption_cons_of_none,
      List.reduceOption_cons_of_some, List.reduceOption_nil]
    exact (List.perm_append_singleton _ _).trans List.perm_middle.symm

/-- **`clear` finds the cells of its entries**, and every ticket of the table knows. -/
theorem clear (h : s.Linked) {map : SortedMap ℕ (ℕ × V)} (hmap : s.tables table = some map) :
    ∃ s', s.clear table = some s' ∧ s'.Linked ∧ s'.tables table = some {} ∧
      s.Empties s' table := by
  have hkeys : ∀ c ∈ map.keys, s.cells c ≠ none := fun c hc => by
    obtain ⟨v, hv⟩ := SortedMap.mem_keys.1 hc
    simp [h.entry_cell hmap hv]
  have hclear := reset_eq hkeys
  have hs : s.clear table = some
      { s with
        cells := fun c => if c ∈ map.keys then some none else s.cells c
        tables := Function.update s.tables table (some {})
        cleared := s.cleared ++ WeakState.numbers s.inserted table } := by
    simp only [WeakState.clear, hmap, hclear, Option.map_some]
  have hempties : s.Empties
      { s with
        cells := fun c => if c ∈ map.keys then some none else s.cells c
        tables := Function.update s.tables table (some {})
        cleared := s.cleared ++ WeakState.numbers s.inserted table } table :=
    { cells := fun c => if_congr (h.mem_keys_iff hmap) rfl rfl
      tables := fun table' hne => Function.update_of_ne hne _ _
      cleared := fun n => by rw [List.mem_append, mem_numbers]
      tickets := rfl
      inserted := rfl
      log := rfl }
  refine ⟨_, hs, ?_, Function.update_self .., hempties⟩
  -- a ticket of another table keeps its cell
  have hother {t : WeakTicket} (ht : t ∈ s.held) {table' : ℕ} {v : V} (hne : table' ≠ table)
      (hnumber : s.inserted[t.number]? = some (table', v)) : t.cell ∉ map.keys := by
    intro hc
    obtain ⟨x, hx⟩ := SortedMap.mem_keys.1 hc
    have hinserted := (h.entries table map hmap _ hx).2.2
    rw [h.eq_of_entry ht hmap hx rfl, hnumber] at hinserted
    cases hinserted
    exact hne rfl
  have hkept {n table' : ℕ} {v : V} (hne : table' ≠ table)
      (hnumber : s.inserted[n]? = some (table', v)) :
      n ∈ s.cleared ++ WeakState.numbers s.inserted table ↔ n ∈ s.cleared := by
    rw [List.mem_append, mem_numbers]
    refine or_iff_left ?_
    rintro ⟨v', hv'⟩
    cases hv'.symm.trans hnumber
    exact hne rfl
  refine ⟨h.cells, h.numbers, fun c hc => ?_, fun t ht => ?_, fun table' map' hmap' x hx => ?_,
    fun n hn => ?_, h.freedOnce, h.freed⟩
  · refine h.allocated c ?_
    by_cases hmem : c ∈ map.keys
    · exact hkeys c hmem
    · simpa [hmem] using hc
  · obtain ⟨table', v, hnumber, hagrees⟩ := h.known t ht
    refine ⟨table', v, hnumber, ?_⟩
    by_cases hne : table' = table
    · subst hne
      refine .inl ⟨List.mem_append_right _ (mem_numbers.2 ⟨v, hnumber⟩), ?_⟩
      rcases hagrees with ⟨-, hcell⟩ | ⟨-, -, map', hmap', hentry⟩
      · simp [hcell]
      · cases hmap.symm.trans hmap'
        exact if_pos (SortedMap.mem_keys.2 ⟨_, hentry⟩)
    · rw [Agrees]
      simp only [hkept hne hnumber, if_neg (hother ht hne hnumber), Function.update_of_ne hne]
      exact hagrees
  · by_cases hne : table' = table
    · subst hne
      simp only [Function.update_self, Option.some.injEq] at hmap'
      subst hmap'
      cases hx
    · simp only [Function.update_of_ne hne] at hmap'
      obtain ⟨hheld, hcleared, hinserted⟩ := h.entries table' map' hmap' x hx
      exact ⟨hheld, fun hn => hcleared ((hkept hne hinserted).1 hn), hinserted⟩
  · rcases List.mem_append.1 hn with hn | hn
    · exact h.cleared n hn
    · obtain ⟨v, hv⟩ := mem_numbers.1 hn
      exact (List.getElem?_eq_some_iff.1 hv).1

/-- What a ticket holds goes with it: its cell, and its entry in the map that the cell holds. -/
theorem release (h : s.Linked) {i : ℕ} (hi : s.tickets[i]? = some (some ticket))
    {tables : ℕ → Option (SortedMap ℕ (ℕ × V))} {log : List WeakEvent}
    (htables : ∀ table, Option.Rel
      (fun map map' => ∀ x, x ∈ map'.entries ↔ x ∈ map.entries ∧ x.1 ≠ ticket.cell)
      (s.tables table) (tables table))
    (hlog : s'.freed = s.freed ++ [ticket.number])
    (hs' : s' = { s with
      cells := Function.update s.cells ticket.cell none
      tables
      tickets := s.tickets.set i none
      log }) : s'.Linked := by
  obtain ⟨l₁, l₂, hl, rfl⟩ := exists_append_of_getElem? hi
  have hbefore : s.held.Perm (ticket :: s'.held) := by
    rw [hs', WeakState.held, WeakState.held, hl, set_append_cons]
    simp only [List.reduceOption_append, List.reduceOption_cons_of_none,
      List.reduceOption_cons_of_some]
    exact List.perm_middle
  have hcells := (hbefore.map WeakTicket.cell).nodup_iff.1 h.cells
  have hnumbers := (hbefore.map WeakTicket.number).nodup_iff.1 h.numbers
  rw [List.map_cons, List.nodup_cons] at hcells hnumbers
  have hmem (t : WeakTicket) : t ∈ s.held ↔ t = ticket ∨ t ∈ s'.held := by
    rw [hbefore.mem_iff, List.mem_cons]
  have hother {t : WeakTicket} (ht : t ∈ s'.held) :
      t.cell ≠ ticket.cell ∧ t.number ≠ ticket.number :=
    ⟨fun e => hcells.1 (e ▸ List.mem_map_of_mem ht),
      fun e => hnumbers.1 (e ▸ List.mem_map_of_mem ht)⟩
  have hinserted : s'.inserted = s.inserted := hs' ▸ rfl
  have hcleared : s'.cleared = s.cleared := hs' ▸ rfl
  have hcell (c : ℕ) : s'.cells c = Function.update s.cells ticket.cell none c := hs' ▸ rfl
  have htable (table : ℕ) : s'.tables table = tables table := hs' ▸ rfl
  refine ⟨hcells.2, hnumbers.2, fun c hc => ?_, fun t ht => ?_, fun table map' hmap' x hx => ?_,
    by rw [hcleared, hinserted]; exact h.cleared, ?_, fun n => ?_⟩
  · rw [hcell] at hc
    by_cases hne : c = ticket.cell
    · simp [hne] at hc
    · rw [Function.update_of_ne hne] at hc
      obtain ⟨t, ht, rfl⟩ := h.allocated c hc
      rcases (hmem t).1 ht with rfl | ht
      · exact absurd rfl hne
      · exact ⟨t, ht, rfl⟩
  · obtain ⟨table, value, hnumber, hagrees⟩ := h.known t ((hmem t).2 (.inr ht))
    have hne := (hother ht).1
    refine ⟨table, value, hinserted ▸ hnumber, ?_⟩
    rw [Agrees, hcell, htable, hcleared, Function.update_of_ne hne]
    refine hagrees.imp_right ?_
    rintro ⟨hcleared, hc, map, hmap, hentry⟩
    have hrel := htables table
    rw [hmap] at hrel
    cases htab : tables table with
    | none =>
      rw [htab] at hrel
      cases hrel
    | some map' =>
      rw [htab] at hrel
      cases hrel with
      | some hx => exact ⟨hcleared, hc, map', rfl, (hx _).2 ⟨hentry, hne⟩⟩
  · rw [htable] at hmap'
    have hrel := htables table
    rw [hmap'] at hrel
    cases htab : s.tables table with
    | none =>
      rw [htab] at hrel
      cases hrel
    | some map =>
      rw [htab] at hrel
      cases hrel with
      | some hxs =>
        obtain ⟨hx, hne⟩ := (hxs x).1 hx
        obtain ⟨hheld, hn, hv⟩ := h.entries table map htab x hx
        rw [hcleared, hinserted]
        refine ⟨((hmem _).1 hheld).resolve_left ?_, hn, hv⟩
        rintro rfl
        exact hne rfl
  · rw [hlog]
    refine List.nodup_append.2 ⟨h.freedOnce, List.nodup_singleton _, ?_⟩
    rintro a ha b hb rfl
    obtain rfl := List.mem_singleton.1 hb
    exact ((h.freed _).1 ha).2 ticket ((hmem _).2 (.inl rfl)) rfl
  · rw [hlog, List.mem_append, List.mem_singleton, h.freed, hinserted]
    constructor
    · rintro (⟨hlt, hn⟩ | rfl)
      · exact ⟨hlt, fun t ht => hn t ((hmem t).2 (.inr ht))⟩
      · exact ⟨h.number_lt ((hmem _).2 (.inl rfl)), fun t ht => (hother ht).2⟩
    · rintro ⟨hlt, hn⟩
      by_cases heq : n = ticket.number
      · exact .inr heq
      · refine .inl ⟨hlt, fun t ht => ?_⟩
        rcases (hmem t).1 ht with rfl | ht
        · exact Ne.symm heq
        · exact hn t ht

/-- **Destroying a ticket finds its cell**, and accesses the map of its table only when the table
was not cleared or destroyed since the insertion. -/
theorem destroyTicket (h : s.Linked) {i : ℕ} (hi : s.tickets[i]? = some (some ticket)) :
    ∃ table value s', s.inserted[ticket.number]? = some (table, value) ∧
      s.step (.destroyTicket i) = some s' ∧ s'.Linked ∧
      s'.log = s.log ++ (if ticket.number ∈ s.cleared then [] else [.erased ticket.number table]) ++
        [.freed ticket.number ticket.cell] := by
  have hheld : ticket ∈ s.held := mem_held.2 (List.mem_of_getElem? hi)
  obtain ⟨table, value, hnumber, hagrees⟩ := h.known ticket hheld
  rcases hagrees with ⟨hcleared, hcell⟩ | ⟨hcleared, hcell, map, hmap, hentry⟩
  · refine ⟨table, value, { s.free ticket with tickets := s.tickets.set i none }, hnumber, ?_, ?_,
      ?_⟩
    · simp only [WeakState.step, hi, hcell, unlink, Option.map_some]
    · refine h.release hi (fun table' => ?_) (by simp [WeakState.freed, free]) rfl
      change Option.Rel _ (s.tables table') (s.tables table')
      cases hmap : s.tables table' with
      | none => exact .none
      | some map =>
        refine .some fun x => (and_iff_left_of_imp fun hx hne => ?_).symm
        -- an entry with the cell of the ticket would say that the table was not cleared
        have hn := (h.entries table' map hmap x hx).2.1
        rw [h.eq_of_entry hheld hmap hx hne] at hn
        exact hn hcleared
    · simp [free, hcleared]
  · refine ⟨table, value, { s with
        cells := Function.update s.cells ticket.cell none
        tables := Function.update s.tables table (some (map.erase ticket.cell))
        tickets := s.tickets.set i none
        log := s.log ++ [.erased ticket.number table] ++ [.freed ticket.number ticket.cell] },
      hnumber, ?_, ?_, ?_⟩
    · simp only [WeakState.step, hi, hcell, unlink, hmap, Option.map_some, free]
    · refine h.release hi (fun table' => ?_) (by simp [WeakState.freed]) rfl
      by_cases hne : table' = table
      · subst hne
        rw [hmap, Function.update_self]
        exact .some fun x => SortedMap.mem_erase
      · rw [Function.update_of_ne hne]
        cases hmap' : s.tables table' with
        | none => exact .none
        | some map' =>
          refine .some fun x => (and_iff_left_of_imp fun hx hc => ?_).symm
          have hinserted := (h.entries table' map' hmap' x hx).2.2
          rw [h.eq_of_entry hheld hmap' hx hc, hnumber] at hinserted
          cases hinserted
          exact hne rfl
    · simp [hcleared]

/-- What a ticket that is destroyed leaves. -/
theorem destroyTicket_eq (h : s.Linked) {i : ℕ} (hi : s.tickets[i]? = some (some ticket)) :
    ∃ table value s', s.inserted[ticket.number]? = some (table, value) ∧
      s.step (.destroyTicket i) = some s' ∧ s'.tickets = s.tickets.set i none ∧
      s'.inserted = s.inserted ∧ s'.cleared = s.cleared ∧
      s'.log = s.log ++ (if ticket.number ∈ s.cleared then [] else [.erased ticket.number table]) ++
        [.freed ticket.number ticket.cell] := by
  obtain ⟨table, value, s', hnumber, hstep, -, hlog⟩ := h.destroyTicket hi
  refine ⟨table, value, s', hnumber, hstep, ?_, ?_, ?_, hlog⟩
  all_goals
    simp only [WeakState.step, hi] at hstep
    split at hstep
    · cases hstep
    · rename_i ptr _
      cases ptr with
      | none =>
        cases hstep
        rfl
      | some table =>
        obtain ⟨s₁, hs₁, rfl⟩ := Option.map_eq_some_iff.1 hstep
        obtain ⟨map, -, rfl⟩ := Option.map_eq_some_iff.1 hs₁
        rfl

theorem step (h : s.Linked) {a : WeakAction V} (hstep : s.step a = some s') : s'.Linked := by
  cases a with
  | construct table =>
    simp only [WeakState.step] at hstep
    split at hstep
    · cases hstep
    · rename_i hnone
      obtain rfl := Option.some.inj hstep
      exact h.renew (by simp [hnone]) (by simp)
  | insert table value cell => exact h.insert hstep
  | move i => exact h.move hstep
  | destroyTicket i =>
    cases hi : s.tickets[i]? with
    | none => simp [WeakState.step, hi] at hstep
    | some ticket =>
      cases ticket with
      | none =>
        simp only [WeakState.step, hi, Option.some.injEq] at hstep
        exact hstep ▸ h
      | some ticket =>
        obtain ⟨-, -, s'', -, hstep', hs'', -⟩ := h.destroyTicket hi
        rw [hstep'] at hstep
        exact Option.some.inj hstep ▸ hs''
  | clear table =>
    cases hmap : s.tables table with
    | none => simp [WeakState.step, WeakState.clear, hmap] at hstep
    | some map =>
      obtain ⟨s'', hs, hlinked, -⟩ := h.clear hmap
      obtain rfl := Option.some.inj (hs.symm.trans hstep)
      exact hlinked
  | destroyTable table =>
    obtain ⟨s₁, hs₁, rfl⟩ := Option.map_eq_some_iff.1 hstep
    cases hmap : s.tables table with
    | none => simp [WeakState.clear, hmap] at hs₁
    | some map =>
      obtain ⟨s'', hs, hlinked, hempty, -⟩ := h.clear hmap
      obtain rfl := Option.some.inj (hs.symm.trans hs₁)
      refine hlinked.renew (fun map hmap => ?_) (by simp)
      cases hempty.symm.trans hmap
      rfl

end Linked

/-! ## Runs -/

/-- **A weak table and its tickets stay consistent**, over any number of tables, and with addresses
that are used again. In every state of a run:

* the keys of a map are the cells of the tickets alive that point back to it, and `apply_to_all`
  visits the values that were inserted in the table, whose ticket is alive and since which the table
  was not cleared, each once, and no others;
* the cell of an insertion is freed when its ticket is destroyed, once, and the cells allocated are
  those of the tickets alive;
* an insertion makes a ticket that holds its cell, and a ticket can be moved;
* a ticket that is destroyed frees its cell, and accesses the map only when the table was neither
  cleared nor destroyed since the insertion;
* a table that is alive can be cleared and destroyed, which empties it. -/
theorem keys_are_live_cells (h : Reach step anyStep ({} : WeakState V) s) :
    (∀ table map, s.tables table = some map →
      (∀ c, c ∈ map.keys ↔ (∃ ticket ∈ s.held, ticket.cell = c) ∧ s.cells c = some (some table)) ∧
      ((applyToAll map).map Prod.fst).Nodup ∧
      ∀ n value, (n, value) ∈ applyToAll map ↔ s.inserted[n]? = some (table, value) ∧
        (∃ ticket ∈ s.held, ticket.number = n) ∧ n ∉ s.cleared) ∧
    (s.freed.Nodup ∧
      ∀ n, n ∈ s.freed ↔ n < s.inserted.length ∧ ∀ ticket ∈ s.held, ticket.number ≠ n) ∧
    (∀ c, s.cells c ≠ none ↔ ∃ ticket ∈ s.held, ticket.cell = c) ∧
    (∀ table value cell, s.cells cell = none → s.tables table ≠ none → ∃ s',
      s.step (.insert table value cell) = some s' ∧ s'.inserted = s.inserted ++ [(table, value)] ∧
      s'.tickets = s.tickets ++ [some ⟨cell, s.inserted.length⟩] ∧
      s'.cells cell = some (some table) ∧ s'.cleared = s.cleared ∧ s'.log = s.log) ∧
    (∀ i ticket, s.tickets[i]? = some ticket →
      s.step (.move i) = some { s with tickets := s.tickets.set i none ++ [ticket] }) ∧
    (∀ i ticket, s.tickets[i]? = some (some ticket) → ∃ table value s',
      s.inserted[ticket.number]? = some (table, value) ∧ s.step (.destroyTicket i) = some s' ∧
      s'.tickets = s.tickets.set i none ∧ s'.inserted = s.inserted ∧ s'.cleared = s.cleared ∧
      s'.log = s.log ++ (if ticket.number ∈ s.cleared then [] else [.erased ticket.number table]) ++
        [.freed ticket.number ticket.cell]) ∧
    ∀ table, s.tables table ≠ none →
      (∃ s', s.step (.clear table) = some s' ∧ s'.tables table = some {} ∧ s.Empties s' table) ∧
      ∃ s', s.step (.destroyTable table) = some s' ∧ s'.tables table = none ∧
        s.Empties s' table := by
  have hs : s.Linked := h.invariant .initial fun _ _ _ ha _ hstep => ha.step hstep
  refine ⟨fun table map hmap => ⟨fun c => ?_, ?_, fun n value => ⟨fun hn => ?_, ?_⟩⟩,
    ⟨hs.freedOnce, hs.freed⟩, fun c => ⟨hs.allocated c, ?_⟩,
    fun table value cell hcell htable => ?_, fun i ticket hi => ?_,
    fun i ticket hi => hs.destroyTicket_eq hi, fun table htable => ?_⟩
  · rw [hs.mem_keys_iff hmap]
    exact ⟨fun hc => ⟨hs.allocated c (by simp [hc]), hc⟩, And.right⟩
  · rw [applyToAll, List.map_map]
    have hentries := List.Nodup.of_map Prod.fst map.nodup_keys
    refine hentries.map_on fun x hx y hy hxy => ?_
    have hinj := List.inj_on_of_nodup_map hs.numbers (hs.entries table map hmap x hx).1
      (hs.entries table map hmap y hy).1 hxy
    exact List.inj_on_of_nodup_map map.nodup_keys hx hy (congrArg WeakTicket.cell hinj)
  · obtain ⟨⟨c, x⟩, hx, rfl⟩ := List.mem_map.1 hn
    obtain ⟨hheld, hcleared, hinserted⟩ := hs.entries table map hmap _ hx
    exact ⟨hinserted, ⟨_, hheld, rfl⟩, hcleared⟩
  · rintro ⟨hinserted, ⟨ticket, hticket, rfl⟩, hcleared⟩
    obtain ⟨table', value', hnumber, hagrees⟩ := hs.known ticket hticket
    cases hinserted.symm.trans hnumber
    rcases hagrees with ⟨hn, -⟩ | ⟨-, -, map', hmap', hentry⟩
    · exact absurd hn hcleared
    · cases hmap.symm.trans hmap'
      exact List.mem_map_of_mem (f := Prod.snd) hentry
  · rintro ⟨ticket, hticket, rfl⟩
    exact hs.cell_ne_none hticket
  · obtain ⟨map, hmap⟩ := Option.ne_none_iff_exists'.1 htable
    have hstep : s.step (.insert table value cell) = some
        { s with
          cells := Function.update s.cells cell (some (some table))
          tables := Function.update s.tables table
            (some (map.assign cell (s.inserted.length, value)))
          tickets := s.tickets ++ [some { cell, number := s.inserted.length }]
          inserted := s.inserted ++ [(table, value)] } := by
      simp only [step, hcell, hmap]
    exact ⟨_, hstep, rfl, rfl, Function.update_self .., rfl, rfl⟩
  · simp only [step, hi, Option.map_some]
  · obtain ⟨map, hmap⟩ := Option.ne_none_iff_exists'.1 htable
    obtain ⟨s', hclear, -, hempty, hempties⟩ := hs.clear hmap
    refine ⟨⟨s', hclear, hempty, hempties⟩, { s' with
      tables := Function.update s'.tables table none }, ?_, Function.update_self .., ?_⟩
    · simp only [step, hclear, Option.map_some]
    · exact { hempties with
        tables := fun table' hne =>
          (Function.update_of_ne hne _ _).trans (hempties.tables table' hne) }

/-- Two values, of which one is cleared before its ticket goes, and a cell that is used again. -/
theorem keys_are_live_cells_reused : ∃ s map, Reach step anyStep ({} : WeakState ℕ) s ∧
    s.tables 7 = some map ∧ map.entries = [(3, (2, 30)), (5, (3, 40))] ∧
    ∀ c, c ∈ map.keys ↔ (∃ ticket ∈ s.held, ticket.cell = c) ∧ s.cells c = some (some 7) := by
  have hrun : (run step ({} : WeakState ℕ) [.construct 7, .insert 7 10 5, .insert 7 20 4, .clear 7,
      .destroyTicket 0, .insert 7 30 3, .insert 7 40 5, .move 1, .destroyTicket 4]).bind
      (fun s => (s.tables 7).map SortedMap.entries) = some [(3, (2, 30)), (5, (3, 40))] := by
    decide
  obtain ⟨s, hs, hentries⟩ := Option.bind_eq_some_iff.1 hrun
  obtain ⟨map, hmap, hentries⟩ := Option.map_eq_some_iff.1 hentries
  have hreach := reach_of_run hs
  exact ⟨s, map, hreach, hmap, hentries, ((keys_are_live_cells hreach).1 7 map hmap).1⟩

end WeakState

end Arcana.Containers
