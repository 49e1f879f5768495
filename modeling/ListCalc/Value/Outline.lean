import ListCalc.Value.Same

/-!
# Value — the written form of a value

A value is written from its `Outline`: the value unfolded through the heap, cut with `cycle` at
every list that it is already inside of.  A list that merely occurs several times is unfolded at
each occurrence.  The unfolding ends because each list on the way down is opened once.
-/

namespace ListCalc

/-- A finite unfolding of a value; `scalar` holds what is no list. -/
inductive Outline where
  | scalar (v : Value)
  | list (items : List Outline)
  | cycle
deriving Inhabited

namespace Value

/-- The unfolding of a value inside of the lists `opened`. -/
def outlineWithin (h : Heap) (opened : List ListRef) (v : Value) : Outline :=
  match v with
  | list r =>
    if r ∈ opened then .cycle
    else if h.Has r then
      .list ((h.get r).toList.map fun item => outlineWithin h (r :: opened) item)
    else .list []
  | v => .scalar v
termination_by (Heap.unopened h.refs opened).length
decreasing_by exact Heap.unopened_cons_lt (Heap.mem_refs.2 ‹_›) ‹_›

/-- The unfolding of a value. -/
def outline (h : Heap) (v : Value) : Outline := outlineWithin h [] v

/-- The text of a value that is no list. -/
def scalarText : Value → String
  | decimal d  => d.text
  | integer n  => integerText n
  | boolean b  => boolText b
  | text s     => s
  | list _     => ""
  | symbol s   => s
  | callable c => c.text

end Value

/-- Lists are written between brackets, a list inside of itself as `[...]`. -/
def Outline.text : Outline → String
  | scalar v   => v.scalarText
  | list items => "[" ++ ", ".intercalate (items.map fun item => item.text) ++ "]"
  | cycle      => "[...]"

/-- The text that a value is shown as. -/
def Value.shown (h : Heap) (v : Value) : String := (v.outline h).text

end ListCalc
