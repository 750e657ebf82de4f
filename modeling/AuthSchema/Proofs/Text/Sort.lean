import AuthSchema.Proofs.Text.Order
import Mathlib.Data.List.Sort

/-!
Sorting by start is the insertion sort by the order of starts.

So it keeps all items and puts them in order, and it leaves items alone that are in order already.
-/

namespace AuthSchema.Range

variable {α : Type} {range : α → Range}

/-- Items that each start before all later ones. -/
def Increasing (range : α → Range) (items : List α) : Prop :=
  items.Pairwise fun first second => (range first).start < (range second).start

/-- Inserting before what does not start earlier is inserting by the order of starts. -/
theorem insertByStart_eq_orderedInsert (item : α) (items : List α) :
    insertByStart range item items =
      items.orderedInsert (fun first second => (range first).start ≤ (range second).start) item := by
  -- Both ways stop at the first head that does not start earlier.
  induction items with
  | nil => rfl
  | cons head rest ih => rw [insertByStart, List.orderedInsert_cons, ih]

/-- Sorting by start is the insertion sort by the order of starts. -/
theorem sortByStart_eq_insertionSort (items : List α) :
    sortByStart range items =
      items.insertionSort fun first second => (range first).start ≤ (range second).start := by
  -- Both ways insert the items from the last one on.
  induction items with
  | nil => rfl
  | cons item rest ih =>
    rw [sortByStart, ih, insertByStart_eq_orderedInsert, List.insertionSort_cons]

/-- Sorting keeps all items. -/
theorem sortByStart_perm (items : List α) : (sortByStart range items).Perm items := by
  rw [sortByStart_eq_insertionSort]
  exact List.perm_insertionSort _ items

/-- Sorted items start one after another. -/
theorem pairwise_sortByStart (items : List α) :
    (sortByStart range items).Pairwise
      fun first second => (range first).start ≤ (range second).start := by
  -- Starts are ordered as positions are, so that any two of them compare.
  have total : Std.Total fun first second : α => (range first).start ≤ (range second).start :=
    ⟨fun first second => le_total (range first).start (range second).start⟩
  have trans : IsTrans α fun first second => (range first).start ≤ (range second).start :=
    ⟨fun _ _ _ => le_trans⟩
  rw [sortByStart_eq_insertionSort]
  exact List.pairwise_insertionSort _ items

/-- Of items that all start at different positions, one position tells at most one. -/
theorem Increasing.eq_of_start_eq {items : List α} (increasing : Increasing range items)
    {first second : α} (firstListed : first ∈ items) (secondListed : second ∈ items)
    (same : (range first).start = (range second).start) : first = second := by
  -- Whichever of the two comes first in the list starts before the other.
  have forward : items.Pairwise fun first second =>
      (range first).start = (range second).start → first = second := by
    refine List.Pairwise.imp ?_ increasing
    intro first second earlier same
    exact absurd same earlier.ne
  have backward : items.Pairwise fun first second =>
      (range second).start = (range first).start → second = first := by
    refine List.Pairwise.imp ?_ increasing
    intro first second earlier same
    exact absurd same earlier.ne'
  exact forward.forall_of_forall_of_flip (fun _ _ _ => rfl) backward firstListed secondListed same

/-- Sorting items that all start at different positions gives the one order of their starts. -/
theorem sortByStart_eq {items inOrder : List α} (same : items.Perm inOrder)
    (increasing : Increasing range inOrder) :
    sortByStart range items = inOrder := by
  -- Both lists are sorted and hold the same items, and no two items are tied.
  have sorted : (sortByStart range items).Perm inOrder := (sortByStart_perm items).trans same
  refine List.Perm.eq_of_pairwise ?_ (pairwise_sortByStart items)
    (List.Pairwise.imp (fun earlier => earlier.le) increasing) sorted
  intro first second firstListed secondListed noLater noEarlier
  exact increasing.eq_of_start_eq (sorted.mem_iff.mp firstListed) secondListed
    (le_antisymm noLater noEarlier)

/-- Sorting items that all start at different positions puts each before all later ones. -/
theorem increasing_sortByStart {items : List α}
    (distinct : (items.map fun item => (range item).start).Nodup) :
    Increasing range (sortByStart range items) := by
  have apart : ((sortByStart range items).map fun item => (range item).start).Nodup :=
    ((sortByStart_perm items).map _).nodup_iff.mpr distinct
  -- No item starts after a later one, and no two start together.
  refine ((pairwise_sortByStart items).and (List.pairwise_map.mp apart)).imp ?_
  intro first second ordered
  exact lt_of_le_of_ne ordered.1 ordered.2

/-- Sorting items by their ranges sorts the ranges. -/
theorem map_sortByStart (items : List α) :
    (sortByStart range items).map range = sortByStart id (items.map range) := by
  rw [sortByStart_eq_insertionSort, sortByStart_eq_insertionSort]
  -- A range starts no later than another one exactly when its item does.
  exact List.map_insertionSort _ _ range items fun _ _ _ _ => Iff.rfl

end AuthSchema.Range
