import ListCalc.Operator.Extension
import Mathlib.Data.List.FinRange
import Mathlib.Data.List.Induction
import Mathlib.Data.List.Perm.Basic
import Mathlib.Data.Nat.Factorial.Basic

/-!
# Proofs — the orderings of a list

`orderings` chooses a first element in turn, and then the orderings of the others behind it.  For
sorted elements these are all the permutations, each once, in lexicographic order
(`length_orderings`, `mem_orderings_iff`, `orderings_sorted`).

The search makes the same choices on marks and a stack that it changes in place.  What carries the
loop and the recursion is `permute_eq`: from a search with as many items free as places are left, it
adds a list for each ordering of the free positions behind those that are chosen, and has taken back
every choice that it made.

`permute_enumerates` puts the two together, and says what `permutations` returns.
-/

namespace ListCalc

/-! ### Choosing a first element -/

section Orderings

variable {α : Type} [DecidableEq α]

/-- The orderings of `k` elements. -/
def orderings : Nat → List α → List (List α)
  | 0,     _  => [[]]
  | k + 1, as => as.flatMap fun a => (orderings k (as.erase a)).map (a :: ·)

/-- There are as many orderings as the factorial says. -/
theorem length_orderings {k : Nat} {as : List α} (h : as.length = k) :
    (orderings k as).length = k.factorial := by
  induction k generalizing as with
  | zero => rfl
  | succ k ih =>
    have hfirst : ∀ a ∈ as, ((orderings k (as.erase a)).map (a :: ·)).length = k.factorial := by
      intro a ha
      rw [List.length_map, ih (by rw [List.length_erase_of_mem ha, h, Nat.add_sub_cancel])]
    rw [orderings, List.length_flatMap, List.map_congr_left hfirst, List.map_const',
      List.sum_replicate_nat, h, Nat.factorial_succ]

/-- The orderings are the permutations. -/
theorem mem_orderings_iff {k : Nat} {as order : List α} (h : as.length = k) :
    order ∈ orderings k as ↔ order.Perm as := by
  induction k generalizing as order with
  | zero => rw [List.length_eq_zero_iff.mp h, List.perm_nil, orderings, List.mem_singleton]
  | succ k ih =>
    have hlength : ∀ a ∈ as, (as.erase a).length = k := by
      intro a ha
      rw [List.length_erase_of_mem ha, h, Nat.add_sub_cancel]
    rw [orderings, List.mem_flatMap]
    constructor
    · rintro ⟨a, ha, horder⟩
      obtain ⟨rest, hrest, rfl⟩ := List.mem_map.mp horder
      exact List.cons_perm_iff_perm_erase.mpr ⟨ha, (ih (hlength a ha)).mp hrest⟩
    · intro hperm
      cases order with
      | nil => rw [List.nil_perm.mp hperm] at h; cases h
      | cons a rest =>
        obtain ⟨ha, hrest⟩ := List.cons_perm_iff_perm_erase.mp hperm
        exact ⟨a, ha, List.mem_map_of_mem ((ih (hlength a ha)).mpr hrest)⟩

/-- The orderings of sorted elements come in lexicographic order. -/
theorem orderings_sorted [LT α] {k : Nat} {as : List α} (h : as.Pairwise (· < ·)) :
    (orderings k as).Pairwise (· < ·) := by
  induction k generalizing as with
  | zero => exact List.pairwise_singleton _ _
  | succ k ih =>
    rw [orderings, List.pairwise_flatMap]
    constructor
    · intro a _
      rw [List.pairwise_map]
      refine (ih (h.sublist List.erase_sublist)).imp fun hlt => ?_
      exact List.cons_lt_cons_iff.mpr (.inr ⟨rfl, hlt⟩)
    · refine h.imp fun hlt x hx y hy => ?_
      obtain ⟨p, -, rfl⟩ := List.mem_map.mp hx
      obtain ⟨q, -, rfl⟩ := List.mem_map.mp hy
      exact List.cons_lt_cons_iff.mpr (.inl hlt)

end Orderings

/-! ### Lists that are added -/

/-- The lists that are added come behind those of the heap, in order. -/
theorem Heap.newLists_eq (h : Heap) (contents : List (Array Value)) :
    h.newLists contents =
      (((List.range contents.length).map fun k => Value.list ⟨h.size + k⟩).toArray,
        ⟨h.cells ++ contents.toArray⟩) := by
  induction contents using List.reverseRecOn with
  | nil => simp [newLists]
  | append_singleton contents items ih =>
    rw [newLists] at ih ⊢
    rw [List.foldl_append, ih]
    simp [newList, alloc, size, List.range_succ]

namespace Search

variable {n : Nat}

/-- The search with a list for each of the contents behind those that were found. -/
def adding (s : Search n) (contents : List (Array Value)) : Search n :=
  { s with out := s.out ++ (s.heap.newLists contents).1, heap := (s.heap.newLists contents).2 }

theorem adding_nil (s : Search n) : s.adding [] = s := by
  simp [adding, Heap.newLists]

/-- Lists are added one after the other. -/
theorem adding_append (s : Search n) (contents more : List (Array Value)) :
    s.adding (contents ++ more) = (s.adding contents).adding more := by
  have hrefs : List.range (contents.length + more.length) =
      List.range contents.length ++ (List.range more.length).map (contents.length + ·) :=
    List.range_add
  simp only [adding, Heap.newLists_eq, List.length_append, hrefs, List.map_append, List.map_map]
  simp [Heap.size, Function.comp_def, Nat.add_assoc, ← List.append_toArray]

/-- Recording adds the current choice. -/
theorem record_eq_adding (s : Search n) : s.record = s.adding [s.current] := by
  simp [record, adding, Heap.newLists]

/-- What is found between a choice and its end is all that is left of the choice. -/
theorem release_adding_choose {s : Search n} {i : Fin n} (hi : s.used.get i = false) (item : Value)
    (contents : List (Array Value)) :
    ((s.choose i item).adding contents).release i = s.adding contents := by
  have hused : (s.used.set i true).set i false = s.used := by
    rw [Vector.set_set]
    conv_lhs => rw [← hi]
    exact Vector.set_getElem_self i.isLt
  simp only [choose, adding, release, hused, Array.pop_push]

/-- The positions of the items that are not in use. -/
def free (s : Search n) : List (Fin n) := (List.finRange n).filter fun i => !s.used.get i

/-- A place is free if it is not marked. -/
theorem mem_free {s : Search n} {i : Fin n} : i ∈ s.free ↔ s.used.get i = false := by
  simp [free]

/-- A choice marks one place more. -/
theorem used_choose (s : Search n) (i j : Fin n) (item : Value) :
    (s.choose i item).used.get j = (decide (j = i) || s.used.get j) := by
  show (s.used.set i true)[(j : Nat)] = (decide (j = i) || s.used[(j : Nat)])
  rw [Vector.getElem_set]
  by_cases hji : j = i
  · simp [hji]
  · have hij : (i : Nat) ≠ j := fun h => hji (Fin.ext h.symm)
    simp [hji, hij]

/-- A choice takes one place from those that are free. -/
theorem free_choose (s : Search n) (i : Fin n) (item : Value) :
    (s.choose i item).free = s.free.erase i := by
  have hnodup : s.free.Nodup := (List.nodup_finRange n).filter _
  rw [hnodup.erase_eq_filter, free, free, List.filter_filter]
  refine List.filter_congr fun j _ => ?_
  rw [used_choose]
  simp [bne, beq_eq_decide]

end Search

/-! ### The search -/

section Permute

variable {items : List Value}

/-- The items at the given positions. -/
def itemsAt (items : List Value) (order : List (Fin items.length)) : List Value :=
  order.map items.get

/-- The contents of the lists that are still to be found: the chosen items, and then the free ones
in every order. -/
def Search.remaining (left : Nat) (s : Search items.length) : List (Array Value) :=
  (orderings left s.free).map fun order => s.current ++ (itemsAt items order).toArray

/-- What remains begins with each of the free places in turn. -/
theorem Search.remaining_succ (left : Nat) (s : Search items.length) :
    s.remaining (left + 1) = s.free.flatMap fun i => (s.choose i (items.get i)).remaining left := by
  rw [Search.remaining, orderings, List.map_flatMap]
  refine List.flatMap_congr fun i _ => ?_
  rw [Search.remaining, Search.free_choose, List.map_map]
  refine List.map_congr_left fun order _ => ?_
  simp [Search.choose, itemsAt]

/-- One choice after the other adds what there is to find after each of them, and is taken back. -/
theorem foldl_choices {left : Nat}
    (hpermute : ∀ s : Search items.length, s.free.length = left →
      permute items left s = s.adding (s.remaining left))
    {s : Search items.length} (hs : s.free.length = left + 1) (is : List (Fin items.length)) :
    is.foldl (fun s i => if s.used.get i then s
        else (permute items left (s.choose i (items.get i))).release i) s =
      s.adding ((is.filter fun i => !s.used.get i).flatMap fun i =>
        (s.choose i (items.get i)).remaining left) := by
  induction is generalizing s with
  | nil => exact s.adding_nil.symm
  | cons i is ih =>
    rw [List.foldl_cons]
    cases hi : s.used.get i with
    | true =>
      rw [if_pos rfl, ih hs, List.filter_cons_of_neg (by simp [hi])]
    | false =>
      have hfree : (s.choose i (items.get i)).free.length = left := by
        rw [Search.free_choose, List.length_erase_of_mem (Search.mem_free.mpr hi), hs,
          Nat.add_sub_cancel]
      -- the marks and the choices are as they were, so the loop goes on as from `s`
      have hrest := ih (s := s.adding ((s.choose i (items.get i)).remaining left)) hs
      rw [if_neg Bool.false_ne_true, hpermute _ hfree, Search.release_adding_choose hi, hrest,
        List.filter_cons_of_pos (by simp [hi]), List.flatMap_cons, Search.adding_append]
      rfl

/-- The search adds a list for each way to fill the places that are left, and nothing else of it has
changed. -/
theorem permute_eq {left : Nat} {s : Search items.length} (hs : s.free.length = left) :
    permute items left s = s.adding (s.remaining left) := by
  induction left generalizing s with
  | zero =>
    rw [permute, Search.record_eq_adding]
    simp [Search.remaining, orderings, itemsAt]
  | succ left ih =>
    rw [permute, foldl_choices (fun s hs => ih hs) hs, Search.remaining_succ]
    rfl

/-- At the start all places are free. -/
theorem Search.free_start (out : Array Value) (h : Heap) :
    Search.free ⟨.replicate items.length false, #[], out, h⟩ = List.finRange items.length := by
  simp [Search.free, Vector.get]

/-- The items in every order, in the order of their positions. -/
def allOrderings (items : List Value) : List (Array Value) :=
  (orderings items.length (List.finRange items.length)).map fun order =>
    (itemsAt items order).toArray

/-- From nothing used and nothing chosen, the search adds the items in every order. -/
theorem permute_start (items : List Value) (out : Array Value) (h : Heap) :
    permute items items.length ⟨.replicate items.length false, #[], out, h⟩ =
      Search.adding ⟨.replicate items.length false, #[], out, h⟩ (allOrderings items) := by
  have hfree := @Search.free_start items out h
  rw [permute_eq (by rw [hfree, List.length_finRange]), Search.remaining, hfree, allOrderings]
  simp

/-- Few elements have all their orderings listed. -/
theorem permutations_of_le {h : Heap} {v : Value} (hlength : (elements h v).length ≤ maxPermuted) :
    permutations h v = .ok (listOfLists h (allOrderings (elements h v))) := by
  simp only [permutations, if_pos hlength, Search.start, permute_start, Search.adding, listOfLists,
    Array.empty_append]

/-- Too many elements are refused, with their number. -/
theorem permutations_of_gt {h : Heap} {v : Value} (hlength : maxPermuted < (elements h v).length) :
    permutations h v = .error (.extension ("Cannot permute " ++ (elements h v).length.repr ++
      " elements, at most 8 are allowed.")) := by
  have htext : " elements, at most " ++ maxPermuted.repr ++ " are allowed." =
      " elements, at most 8 are allowed." := by decide
  simp only [permutations, if_neg (Nat.not_le.mpr hlength), ← htext, String.append_assoc]

theorem permutations_eq_ok {h : Heap} {v : Value} {out : Value × Heap}
    (hout : permutations h v = .ok out) : out = listOfLists h (allOrderings (elements h v)) := by
  rcases Nat.lt_or_ge maxPermuted (elements h v).length with hlength | hlength
  · rw [permutations_of_gt hlength] at hout
    cases hout
  · rw [permutations_of_le hlength] at hout
    exact (Except.ok.inj hout).symm

/-- The elements of an ordering are those of the operand. -/
theorem mem_of_mem_allOrderings {items : List Value} {order : Array Value} {v : Value}
    (horder : order ∈ allOrderings items) (hv : v ∈ order) : v ∈ items := by
  obtain ⟨positions, -, rfl⟩ := List.mem_map.mp horder
  obtain ⟨i, -, rfl⟩ := List.mem_map.mp (List.mem_toArray.mp hv)
  exact List.getElem_mem _

/-! ### All orderings, once, in order -/

/-- All orders of the positions below `n`, each once, in lexicographic order. -/
structure AllOrders (n : Nat) (orders : List (List (Fin n))) : Prop where
  count : orders.length = n.factorial
  sorted : orders.Pairwise (· < ·)
  mem_iff : ∀ order, order ∈ orders ↔ order.Perm (List.finRange n)

/-- The orderings are all there are, each once, in order. -/
theorem allOrders_orderings (n : Nat) : AllOrders n (orderings n (List.finRange n)) where
  count := length_orderings List.length_finRange
  sorted := orderings_sorted (List.pairwise_lt_finRange n)
  mem_iff _ := mem_orderings_iff List.length_finRange

/-- The references are to different lists of `h'` that were not in `h`, with the given contents; the
lists of `h` hold what they held. -/
structure NewLists (h h' : Heap) (refs : List ListRef) (contents : List (List Value)) : Prop where
  distinct : refs.Nodup
  fresh : ∀ r ∈ refs, ¬ h.Has r ∧ h'.Has r
  contents : refs.map (fun r => (h'.get r).toList) = contents
  old : ∀ q, h.Has q → h'.Has q ∧ h'.get q = h.get q

/-- The references of the lists that are added to a heap. -/
def addedRefs (h : Heap) (count : Nat) : List ListRef :=
  (List.range count).map fun k => ⟨h.size + k⟩

/-- New lists get the next places of the heap. -/
theorem newLists_fst (h : Heap) (contents : List (Array Value)) :
    (h.newLists contents).1 = ((addedRefs h contents.length).map Value.list).toArray := by
  rw [Heap.newLists_eq, addedRefs, List.map_map]
  rfl

theorem newLists_snd (h : Heap) (contents : List (Array Value)) :
    NewLists h (h.newLists contents).2 (addedRefs h contents.length)
      (contents.map Array.toList) := by
  rw [Heap.newLists_eq]
  refine ⟨?_, fun r hr => ?_, ?_, fun q hq => ?_⟩
  · refine List.Nodup.map (fun k l hkl => ?_) List.nodup_range
    simpa using hkl
  · obtain ⟨k, hk, rfl⟩ := List.mem_map.mp hr
    have hk := List.mem_range.mp hk
    simp only [Heap.Has, Heap.size, Array.size_append, List.size_toArray]
    omega
  · refine List.ext_getElem (by simp [addedRefs]) fun k hk hk' => ?_
    have hk : k < contents.length := by simpa [addedRefs] using hk
    simp [addedRefs, Heap.get, Heap.size, hk]
  · have hq : q.index < h.cells.size := hq
    constructor
    · simp only [Heap.Has, Heap.size, Array.size_append]
      omega
    · simp [Heap.get, Array.getElem?_append, hq]

/-- A list that is added after new lists leaves them as they are. -/
theorem NewLists.newList {h h' : Heap} {refs : List ListRef} {contents : List (List Value)}
    (hnew : NewLists h h' refs contents) (items : Array Value) :
    NewLists h (h'.newList items).2 refs contents := by
  have hkept : ∀ q, h'.Has q →
      (h'.newList items).2.Has q ∧ (h'.newList items).2.get q = h'.get q := by
    intro q hq
    refine ⟨?_, Heap.get_alloc_old items hq⟩
    show q.index < (h'.alloc items).2.size
    rw [Heap.size_alloc]
    exact Nat.lt_succ_of_lt hq
  refine ⟨hnew.distinct, fun r hr => ?_, ?_, fun q hq => ?_⟩
  · obtain ⟨hold, hhas⟩ := hnew.fresh r hr
    exact ⟨hold, (hkept r hhas).1⟩
  · rw [← hnew.contents]
    exact List.map_congr_left fun r hr => by rw [(hkept r (hnew.fresh r hr).2).2]
  · obtain ⟨hhas, hget⟩ := hnew.old q hq
    exact ⟨(hkept q hhas).1, (hkept q hhas).2.trans hget⟩

/-- A list of new lists is new itself. -/
theorem listOfLists_new (h : Heap) (contents : List (Array Value)) :
    ∃ r h' refs, listOfLists h contents = (.list r, h') ∧ ¬ h.Has r ∧ r ∉ refs ∧
      h'.get r = (refs.map Value.list).toArray ∧
      NewLists h h' refs (contents.map Array.toList) := by
  have hnew := newLists_snd h contents
  have hsize : h.size ≤ (h.newLists contents).2.size := by
    rw [Heap.newLists_eq]
    simp [Heap.size]
  refine ⟨⟨(h.newLists contents).2.size⟩, _, _, rfl, ?_, fun hr => ?_, ?_, hnew.newList _⟩
  · exact Nat.not_lt.mpr hsize
  · exact Nat.lt_irrefl _ (hnew.fresh _ hr).2
  · rw [← newLists_fst]
    exact Heap.get_alloc_new _ _

end Permute

/-- **The search lists every ordering once.**  For items of any number there are all orders of their
positions, each once and in lexicographic order, such that

* the search, from nothing used and nothing chosen, puts a new list for each of them behind what was
  found before, with the items at its positions, and leaves the marks and the choices as they were;
* `permutations` of a value with at most eight elements returns a new list of these lists, and fails
  if there are more. -/
theorem permute_enumerates (items : List Value) : ∃ orders, AllOrders items.length orders ∧
    (∀ (out : Array Value) (h : Heap),
      let found := permute items items.length ⟨.replicate items.length false, #[], out, h⟩
      found.used = .replicate items.length false ∧ found.current = #[] ∧
        ∃ refs, found.out = out ++ (refs.map Value.list).toArray ∧
          NewLists h found.heap refs (orders.map (itemsAt items))) ∧
    ∀ (h : Heap) (v : Value), elements h v = items →
      if items.length ≤ 8 then
        ∃ r h' refs, permutations h v = .ok (.list r, h') ∧ ¬ h.Has r ∧ r ∉ refs ∧
          h'.get r = (refs.map Value.list).toArray ∧
          NewLists h h' refs (orders.map (itemsAt items))
      else permutations h v = .error (.extension ("Cannot permute " ++ items.length.repr ++
        " elements, at most 8 are allowed.")) := by
  have hcontents : (orderings items.length (List.finRange items.length)).map (itemsAt items) =
      (allOrderings items).map Array.toList := by
    rw [allOrderings, List.map_map]
    rfl
  refine ⟨_, allOrders_orderings items.length, fun out h => ?_, ?_⟩
  · rw [permute_start, hcontents]
    exact ⟨rfl, rfl, _, congrArg (out ++ ·) (newLists_fst h _), newLists_snd h _⟩
  · rintro h v rfl
    rw [hcontents]
    split
    · rename_i hlength
      rw [permutations_of_le hlength]
      obtain ⟨r, h', refs, heq, hfresh, hr, hget, hnew⟩ :=
        listOfLists_new h (allOrderings (elements h v))
      exact ⟨r, h', refs, congrArg Except.ok heq, hfresh, hr, hget, hnew⟩
    · rename_i hlength
      exact permutations_of_gt (Nat.not_le.mp hlength)

end ListCalc
