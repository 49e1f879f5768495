import ListCalc.Value.Heap

/-!
# Value — structural equality

Two values are the same if they are of one kind and cannot be told apart by looking inside: lists
must have the same length and the same elements all the way down.  Lists may contain themselves, so
the comparison remembers the pairs of lists it is inside of (`opened`); meeting such a pair again
means that both sides go on the same way from there.

The comparison ends because every step into a pair of lists opens one more of the finitely many
pairs of the heap (`unopened_cons_lt`).
-/

namespace ListCalc

namespace Heap

/-- The lists of the heap. -/
def refs (h : Heap) : List ListRef := (List.range h.size).map ListRef.mk

theorem mem_refs {h : Heap} {r : ListRef} : r ∈ h.refs ↔ h.Has r := by
  cases r; simp [refs, Has]

/-- The members of `all` that are not yet opened. -/
def unopened {α : Type} [DecidableEq α] (all opened : List α) : List α :=
  all.filter (· ∉ opened)

/-- Opening a further member leaves fewer. -/
theorem unopened_cons_lt {α : Type} [DecidableEq α] {all opened : List α} {a : α}
    (ha : a ∈ all) (hn : a ∉ opened) :
    (unopened all (a :: opened)).length < (unopened all opened).length := by
  have hsplit : unopened all (a :: opened) = (unopened all opened).filter (· ≠ a) := by
    simp [unopened, List.filter_filter]
  rw [hsplit, List.length_filter_lt_length_iff_exists]
  exact ⟨a, by simp [unopened, ha, hn], by simp⟩

/-- The pairs of lists of the heap. -/
def refPairs (h : Heap) : List (ListRef × ListRef) :=
  h.refs.flatMap fun a => h.refs.map fun b => (a, b)

theorem mem_refPairs {h : Heap} {a b : ListRef} : (a, b) ∈ h.refPairs ↔ h.Has a ∧ h.Has b := by
  simp [refPairs, mem_refs]

end Heap

namespace Value

/-- Structural equality inside of the pairs of lists `opened`. -/
def sameWithin (h : Heap) (opened : List (ListRef × ListRef)) (v w : Value) : Bool :=
  match v, w with
  | decimal a,  decimal b  => a.same b
  | integer a,  integer b  => a == b
  | boolean a,  boolean b  => a == b
  | text a,     text b     => a == b
  | symbol a,   symbol b   => a == b
  | callable a, callable b => a.same b
  | list a,     list b     =>
    if a = b then true
    else if (a, b) ∈ opened then true
    else if (h.get a).size ≠ (h.get b).size then false
    else if h.Has a ∧ h.Has b then
      ((h.get a).toList.zip (h.get b).toList).all fun p =>
        sameWithin h ((a, b) :: opened) p.1 p.2
    else true
  | _, _ => false
termination_by (Heap.unopened h.refPairs opened).length
decreasing_by exact Heap.unopened_cons_lt (Heap.mem_refPairs.2 ‹_›) ‹_›

/-- Structural equality. -/
def same (h : Heap) (v w : Value) : Bool := sameWithin h [] v w

end Value

end ListCalc
