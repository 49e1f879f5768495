import ListCalc.Value.Basic

/-!
# Value — the heap of lists

Lists are shared and grow in place: whoever holds a `ListRef` sees what is appended through any
other holder.  The heap keeps the contents of all lists, in the order in which they were created.
It has two changing operations: `alloc` adds a list and leaves all others as they are
(`get_alloc_old`), `append` adds one element at the end of one list (`get_append_self`,
`get_append_other`).

A reference outside the heap holds nothing.
-/

namespace ListCalc

/-- The contents of all lists. -/
structure Heap where
  cells : Array (Array Value)
deriving DecidableEq, Inhabited

namespace Heap

/-- The heap without lists. -/
def empty : Heap := ⟨#[]⟩

/-- The number of lists. -/
def size (h : Heap) : Nat := h.cells.size

/-- The elements of a list. -/
def get (h : Heap) (r : ListRef) : Array Value :=
  h.cells[r.index]?.getD #[]

/-- Adds a list with the given elements. -/
def alloc (h : Heap) (items : Array Value) : ListRef × Heap :=
  (⟨h.cells.size⟩, ⟨h.cells.push items⟩)

/-- Appends an element to a list. -/
def append (h : Heap) (r : ListRef) (v : Value) : Heap :=
  ⟨h.cells.modify r.index (·.push v)⟩

/-- The list is one of the heap's. -/
def Has (h : Heap) (r : ListRef) : Prop := r.index < h.size

instance (h : Heap) (r : ListRef) : Decidable (h.Has r) :=
  inferInstanceAs (Decidable (r.index < h.size))

/-- Adds a list and gives the value that stands for it. -/
def newList (h : Heap) (items : Array Value) : Value × Heap :=
  let (r, h) := h.alloc items
  (.list r, h)

/-- Adds a list for each of the given contents. -/
def newLists (h : Heap) (contents : List (Array Value)) : Array Value × Heap :=
  contents.foldl (fun (vs, h) items => let (v, h) := h.newList items; (vs.push v, h)) (#[], h)

/-! ### What the operations do to the contents -/

@[simp] theorem size_alloc (h : Heap) (items : Array Value) :
    (h.alloc items).2.size = h.size + 1 := by
  simp [alloc, size]

@[simp] theorem size_append (h : Heap) (r : ListRef) (v : Value) :
    (h.append r v).size = h.size := by
  simp [append, size]

/-- A list that is not there holds nothing. -/
theorem get_of_not_has {h : Heap} {r : ListRef} (hr : ¬ h.Has r) : h.get r = #[] := by
  simp only [Has, size, Nat.not_lt] at hr
  simp [get, hr]

/-- A list that holds something is one of the heap's. -/
theorem has_of_mem {h : Heap} {r : ListRef} {v : Value} (hv : v ∈ h.get r) : h.Has r := by
  refine Decidable.byContradiction fun hr => ?_
  rw [get_of_not_has hr] at hv
  exact Array.not_mem_empty v hv

/-- A new list holds what it was made of. -/
theorem get_alloc_new (h : Heap) (items : Array Value) :
    (h.alloc items).2.get (h.alloc items).1 = items := by
  simp [get, alloc]

/-- A new list leaves the old ones as they are. -/
theorem get_alloc_old {h : Heap} {r : ListRef} (items : Array Value) (hr : h.Has r) :
    (h.alloc items).2.get r = h.get r := by
  have hne : r.index ≠ h.cells.size := Nat.ne_of_lt hr
  simp [get, alloc, Array.getElem?_push, hne]

/-- What is appended comes last. -/
theorem get_append_self {h : Heap} {r : ListRef} (v : Value) (hr : h.Has r) :
    (h.append r v).get r = (h.get r).push v := by
  have hr : r.index < h.cells.size := hr
  simp [get, append, hr, Array.getElem_modify]

/-- Appending to one list leaves the others as they are. -/
theorem get_append_other {h : Heap} {r q : ListRef} (v : Value) (hq : q ≠ r) :
    (h.append r v).get q = h.get q := by
  have hi : r.index ≠ q.index := fun e => hq (by cases q; cases r; simp_all)
  simp [get, append, Array.getElem?_modify, hi]

end Heap

/-- The value of a literal; `null` is a new empty list each time. -/
def Literal.toValue (h : Heap) : Literal → Value × Heap
  | integer n => (.integer n, h)
  | decimal d => (.decimal d, h)
  | text s    => (.text s, h)
  | boolean b => (.boolean b, h)
  | null      => h.newList #[]

end ListCalc
