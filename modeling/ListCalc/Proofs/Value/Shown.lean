import ListCalc.Proofs.Value.Bisimilar
import ListCalc.Value.Outline

/-!
# Proofs — writing ends, and cuts exactly at cycles

The text of a value is said by the paths of its unfolding (`Renders`): what is no list has its own
text, a list that the path has led through already is `[...]`, and any other list is the texts of
its elements between brackets.  Nothing of this mentions what is open while a value is written.

* `run_writeText`: a writer that has one stack for all lists, and no bound on its steps, comes to
  the text and leaves the stack as it found it.
* `renders_textAlong` and `Renders.eq_textAlong`: the text is the one that the paths give.
* `plainText_eq_some_iff`: writing without any cut ends exactly if no cycle is reached, and then has
  the same text.
-/

namespace ListCalc

namespace Value

variable {h : Heap} {v x : Value} {r : ListRef} {opened : List ListRef} {path : List Nat}

/-- The text of a list with elements of the given texts. -/
def bracketed (texts : List String) : String := "[" ++ ", ".intercalate texts ++ "]"

/-! ### One value inside of others -/

/-- A list inside of itself is cut. -/
theorem text_outlineWithin_opened (hr : r ∈ opened) :
    (outlineWithin h opened (.list r)).text = "[...]" := by
  rw [outlineWithin, if_pos hr, Outline.text]

/-- That the list is one of the heap's makes no difference. -/
theorem text_outlineWithin_list (hr : r ∉ opened) : (outlineWithin h opened (.list r)).text =
    bracketed ((h.get r).toList.map fun x => (outlineWithin h (r :: opened) x).text) := by
  rw [outlineWithin, if_neg hr, bracketed]
  by_cases hhas : h.Has r
  · rw [if_pos hhas, Outline.text, List.map_map]
    rfl
  · rw [if_neg hhas, Outline.text, Heap.get_of_not_has hhas]
    rfl

theorem text_outlineWithin_scalar (hv : ∀ r, v ≠ .list r) :
    (outlineWithin h opened v).text = v.scalarText := by
  cases v with
  | list r => exact absurd rfl (hv r)
  | _ => rw [outlineWithin, Outline.text]; simp

/-- Each list on the way down is opened once, so a fact about the values inside of `opened` may be
taken for granted inside of one list more. -/
@[elab_as_elim]
theorem opening_induction (h : Heap) {motive : List ListRef → Value → Prop}
    (cut : ∀ opened r, r ∈ opened → motive opened (.list r))
    (full : ∀ opened r, r ∉ opened → (∀ x ∈ h.get r, motive (r :: opened) x) →
      motive opened (.list r))
    (scalar : ∀ opened v, (∀ r, v ≠ .list r) → motive opened v) (opened : List ListRef)
    (v : Value) : motive opened v := by
  induction opened, v using outlineWithin.induct h with
  | case1 opened r hr => exact cut opened r hr
  | case2 opened r hr hhas ih => exact full opened r hr fun x _ => ih x
  | case3 opened r hr hhas => exact full opened r hr fun x hx => absurd (Heap.has_of_mem hx) hhas
  | case4 opened v hv => exact scalar opened v hv

/-! ### The writer with one stack -/

/-- Writes a value.  All of the writing shares the stack of the lists that are open: a list is put
on it before its elements and taken off after them.  Nothing bounds the steps, so a writing that
does not end has no result. -/
def writeText (h : Heap) (v : Value) : StateT (List ListRef) Option String := do
  match v with
  | .list r =>
    if r ∈ (← get) then return "[...]"
    modify (r :: ·)
    let texts ← (h.get r).toList.mapM fun x => x |>.writeText h
    modify List.tail
    return bracketed texts
  | v => return v.scalarText
partial_fixpoint

/-- Steps that each leave the state as they find it. -/
theorem run_mapM_of_restores {σ α β : Type} {f : α → StateT σ Option β} {g : α → β} {s : σ}
    {xs : List α} (hf : ∀ x ∈ xs, (f x).run s = some (g x, s)) :
    (xs.mapM f).run s = some (xs.map g, s) := by
  induction xs with
  | nil => rfl
  | cons x xs ih =>
    obtain ⟨hx, hxs⟩ := List.forall_mem_cons.mp hf
    simp [List.mapM_cons, hx, ih hxs]

/-- Writing ends, and the stack is after it as it was before. -/
theorem run_writeText (h : Heap) (opened : List ListRef) (v : Value) :
    (writeText h v).run opened = some ((outlineWithin h opened v).text, opened) := by
  induction opened, v using opening_induction h with
  | cut opened r hr =>
    rw [text_outlineWithin_opened hr, writeText]
    simp [hr]
  | full opened r hr ih =>
    have hitems := run_mapM_of_restores fun x hx => ih x (Array.mem_toList_iff.mp hx)
    rw [text_outlineWithin_list hr, writeText]
    simp [hr, hitems]
  | scalar opened v hv =>
    rw [text_outlineWithin_scalar hv]
    cases v with
    | list r => exact absurd rfl (hv r)
    | _ => rw [writeText] <;> simp

/-! ### Paths -/

theorem follow?_append (h : Heap) (path more : List Nat) (v : Value) :
    v.follow? h (path ++ more) = (v.follow? h path).bind (follow? h more) := by
  induction path generalizing v with
  | nil => rfl
  | cons i path ih =>
    rw [List.cons_append, follow?, follow?, Option.bind_assoc]
    exact Option.bind_congr fun x _ => ih x

/-- An element of a list that a path leads to. -/
theorem follow?_concat (hr : v.follow? h path = some (.list r)) (i : Nat) :
    v.follow? h (path ++ [i]) = (h.get r)[i]? := by
  rw [follow?_append, hr]
  exact Option.bind_fun_some _

/-- The path leads through the list before it ends. -/
def Above (h : Heap) (v : Value) (path : List Nat) (r : ListRef) : Prop :=
  ∃ k < path.length, v.follow? h (path.take k) = some (.list r)

/-- A path leads from the list back to it. -/
def ContainsItself (h : Heap) (r : ListRef) : Prop :=
  ∃ path ≠ [], (Value.list r).follow? h path = some (.list r)

/-- A list that a path leads to twice contains itself. -/
theorem containsItself_of_above (hr : v.follow? h path = some (.list r))
    (habove : Above h v path r) : ContainsItself h r := by
  obtain ⟨k, hk, hway⟩ := habove
  refine ⟨path.drop k, by simpa using hk, ?_⟩
  have happ := follow?_append h (path.take k) (path.drop k) v
  rw [List.take_append_drop, hr, hway] at happ
  exact happ.symm

/-- The texts at the ends of the paths: that of a value that is no list, `[...]` for a list that the
path leads through before, and any other list in full. -/
structure Renders (h : Heap) (v : Value) (textAt : List Nat → String) : Prop where
  scalar : ∀ path x, v.follow? h path = some x → (∀ r, x ≠ .list r) → textAt path = x.scalarText
  cut : ∀ path r, v.follow? h path = some (.list r) → Above h v path r → textAt path = "[...]"
  full : ∀ path r, v.follow? h path = some (.list r) → ¬ Above h v path r →
    textAt path = bracketed ((List.range (h.get r).size).map fun i => textAt (path ++ [i]))

/-! ### The text that the paths give -/

/-- The list that a value is. -/
def list? : Value → Option ListRef
  | list r => some r
  | _      => none

theorem list?_eq_some : v.list? = some r ↔ v = .list r := by
  cases v <;> simp [list?]

/-- The lists that a path leads through before it ends, the last one first. -/
def listsAlong (h : Heap) (v : Value) (path : List Nat) : List ListRef :=
  ((List.range path.length).filterMap fun k => (v.follow? h (path.take k)).bind list?).reverse

theorem mem_listsAlong : r ∈ listsAlong h v path ↔ Above h v path r := by
  simp [listsAlong, Above, Option.bind_eq_some_iff, list?_eq_some]

/-- One step further there is one list more. -/
theorem listsAlong_concat (hr : v.follow? h path = some (.list r)) (i : Nat) :
    listsAlong h v (path ++ [i]) = r :: listsAlong h v path := by
  rw [listsAlong, List.length_append, List.length_singleton, List.range_succ,
    List.filterMap_append, List.reverse_append]
  have hlast : ([path.length].filterMap fun k =>
      (v.follow? h ((path ++ [i]).take k)).bind list?) = [r] := by
    simp [hr, list?]
  have hbefore : ((List.range path.length).filterMap fun k =>
      (v.follow? h ((path ++ [i]).take k)).bind list?) =
      (List.range path.length).filterMap fun k => (v.follow? h (path.take k)).bind list? := by
    refine List.filterMap_congr fun k hk => ?_
    rw [List.take_append_of_le_length (List.mem_range.mp hk).le]
  rw [hlast, hbefore]
  rfl

/-- The text of the value at the end of a path, inside of the lists along it. -/
def textAlong (h : Heap) (v : Value) (path : List Nat) : String :=
  ((v.follow? h path).map fun x => (outlineWithin h (listsAlong h v path) x).text).getD ""

/-- What a path leads to is written inside of the lists along the path. -/
theorem textAlong_of_follow? (hx : v.follow? h path = some x) :
    textAlong h v path = (outlineWithin h (listsAlong h v path) x).text := by
  rw [textAlong, hx]
  rfl

theorem map_range_size {α β : Type} {xs : Array α} {f : Nat → β} {g : α → β}
    (hfg : ∀ i x, xs[i]? = some x → f i = g x) :
    (List.range xs.size).map f = xs.toList.map g := by
  refine List.ext_getElem (by simp) fun i hi _ => ?_
  have hi : i < xs.size := by simpa using hi
  simpa using hfg i xs[i] (Array.getElem?_eq_getElem hi)

/-- The texts along the paths keep to the rules. -/
theorem renders_textAlong (h : Heap) (v : Value) : Renders h v (textAlong h v) where
  scalar path x hx hscalar := by
    rw [textAlong_of_follow? hx, text_outlineWithin_scalar hscalar]
  cut path r hr habove := by
    rw [textAlong_of_follow? hr, text_outlineWithin_opened (mem_listsAlong.mpr habove)]
  full path r hr habove := by
    rw [textAlong_of_follow? hr, text_outlineWithin_list (mt mem_listsAlong.mp habove)]
    refine congrArg bracketed (map_range_size fun i x hx => ?_).symm
    rw [textAlong_of_follow? ((follow?_concat hr i).trans hx), listsAlong_concat hr]

/-- No other texts follow the rules. -/
theorem Renders.eq_textAlong {textAt : List Nat → String} (ht : Renders h v textAt)
    (hx : v.follow? h path = some x) : textAt path = textAlong h v path := by
  rw [textAlong_of_follow? hx]
  -- the induction is on what is not yet opened, with what the path has opened for `opened`
  generalize hopened : listsAlong h v path = opened
  induction opened, x using opening_induction h generalizing path with
  | cut opened r hr =>
    rw [← hopened, mem_listsAlong] at hr
    rw [ht.cut path r hx hr, text_outlineWithin_opened (hopened ▸ mem_listsAlong.mpr hr)]
  | full opened r hr ih =>
    rw [text_outlineWithin_list hr]
    rw [← hopened, mem_listsAlong] at hr
    rw [ht.full path r hx hr]
    refine congrArg bracketed (map_range_size fun i y hy => ?_)
    refine ih y (Array.mem_of_getElem? hy) ((follow?_concat hx i).trans hy) ?_
    rw [listsAlong_concat hx, hopened]
  | scalar opened x hscalar =>
    rw [ht.scalar path x hx hscalar, text_outlineWithin_scalar hscalar]

/-! ### Writing without a cut -/

/-- The plain recursion, which has no result for a value with a cycle in it. -/
def plainText (h : Heap) : Value → Option String
  | .list r => do
    let texts ← (h.get r).toList.mapM fun x => x |>.plainText h
    return bracketed texts
  | v => some v.scalarText
partial_fixpoint

theorem mapM_eq_some_iff {α β : Type} {f : α → Option β} {xs : List α} {ys : List β} :
    xs.mapM f = some ys ↔ List.Forall₂ (fun x y => f x = some y) xs ys := by
  induction xs generalizing ys with
  | nil => cases ys <;> simp
  | cons x xs ih =>
    cases ys with
    | nil => simp [List.mapM_cons, Option.bind_eq_some_iff]
    | cons y ys => simp [List.mapM_cons, Option.bind_eq_some_iff, ih]

/-- No path from the value leads to a list that contains itself. -/
def Acyclic (h : Heap) (v : Value) : Prop :=
  ∀ path r, v.follow? h path = some (.list r) → ¬ ContainsItself h r

theorem follow?_element {i : Nat} (hx : (h.get r)[i]? = some x) (path : List Nat) :
    (Value.list r).follow? h (i :: path) = x.follow? h path := by
  show ((h.get r)[i]?).bind _ = _
  rw [hx]
  rfl

/-- The elements of a list without cycles have none. -/
theorem Acyclic.element (hv : Acyclic h (.list r)) {i : Nat} (hx : (h.get r)[i]? = some x) :
    Acyclic h x := fun path q hq => hv (i :: path) q ((follow?_element hx path).trans hq)

/-- A path from a list leads to the list, or on from an element. -/
theorem follow?_list_cases (hx : (Value.list r).follow? h path = some x) :
    path = [] ∧ x = .list r ∨
      ∃ i rest y, path = i :: rest ∧ (h.get r)[i]? = some y ∧ y.follow? h rest = some x := by
  cases path with
  | nil => exact .inl ⟨rfl, (Option.some.inj hx).symm⟩
  | cons i rest =>
    obtain ⟨y, hy, hrest⟩ := Option.bind_eq_some_iff.mp hx
    exact .inr ⟨i, rest, y, rfl, hy, hrest⟩

theorem acyclic_list (hitems : ∀ x ∈ h.get r, Acyclic h x) : Acyclic h (.list r) := by
  intro path q hq
  rcases follow?_list_cases hq with ⟨-, hqr⟩ | ⟨i, rest, y, rfl, hy, hrest⟩
  · obtain rfl := Value.list.inj hqr
    rintro ⟨way, hne, hway⟩
    rcases follow?_list_cases hway with ⟨hnil, -⟩ | ⟨i, rest, y, -, hy, hrest⟩
    · exact hne hnil
    · -- the way back leads through an element, and the list is met from there already
      exact hitems y (Array.mem_of_getElem? hy) rest q hrest ⟨way, hne, hway⟩
  · exact hitems y (Array.mem_of_getElem? hy) rest q hrest

theorem acyclic_scalar (hv : ∀ r, v ≠ .list r) : Acyclic h v := by
  intro path r hr
  cases path with
  | nil => exact absurd (Option.some.inj hr) (hv r)
  | cons i path =>
    obtain ⟨x, hx, -⟩ := Option.bind_eq_some_iff.mp hr
    cases v with
    | list q => exact absurd rfl (hv q)
    | _ => simp [inside] at hx

/-- Without cycles nothing is cut. -/
theorem plainText_of_acyclic (hv : Acyclic h v)
    (hopened : ∀ r ∈ opened, ∀ path, v.follow? h path ≠ some (.list r)) :
    plainText h v = some (outlineWithin h opened v).text := by
  induction opened, v using opening_induction h with
  | cut opened r hr => exact absurd rfl (hopened r hr [])
  | full opened r hr ih =>
    have hitems : (h.get r).toList.mapM (plainText h) =
        some ((h.get r).toList.map fun x => (outlineWithin h (r :: opened) x).text) := by
      refine mapM_eq_some_iff.mpr (List.forall₂_map_right_iff.mpr (List.forall₂_same.mpr ?_))
      intro x hx
      have hx := Array.mem_toList_iff.mp hx
      obtain ⟨i, hi⟩ := Array.getElem?_of_mem hx
      refine ih x hx (hv.element hi) (List.forall_mem_cons.mpr ⟨?_, ?_⟩)
      · intro path hback
        exact hv [] r rfl ⟨i :: path, List.cons_ne_nil _ _, (follow?_element hi path).trans hback⟩
      · intro q hq path hpath
        exact hopened q hq (i :: path) ((follow?_element hi path).trans hpath)
    rw [text_outlineWithin_list hr, plainText, hitems]
    rfl
  | scalar opened v hscalar =>
    rw [text_outlineWithin_scalar hscalar]
    cases v with
    | list r => exact absurd rfl (hscalar r)
    | _ => rw [plainText]; simp

theorem acyclic_of_plainText {t : String} (ht : plainText h v = some t) : Acyclic h v := by
  refine plainText.partial_correctness h (fun v _ => Acyclic h v) ?_ v t ht
  intro write ih v t ht
  cases v with
  | list r =>
    obtain ⟨texts, htexts, -⟩ := Option.bind_eq_some_iff.mp ht
    refine acyclic_list fun x hx => ?_
    obtain ⟨i, hi, rfl⟩ := Array.mem_iff_getElem.mp hx
    have hforall := mapM_eq_some_iff.mp htexts
    exact ih _ _ (hforall.get hi (hforall.length_eq ▸ hi))
  | _ => exact acyclic_scalar nofun

/-- Plain writing ends exactly if there are no cycles, and gives the same text. -/
theorem plainText_eq_some_iff {t : String} :
    plainText h v = some t ↔ Acyclic h v ∧ t = v.shown h := by
  have hplain (hv : Acyclic h v) : plainText h v = some (v.shown h) :=
    plainText_of_acyclic hv (by simp)
  constructor
  · intro ht
    have hv := acyclic_of_plainText ht
    exact ⟨hv, Option.some.inj (ht.symm.trans (hplain hv))⟩
  · rintro ⟨hv, rfl⟩
    exact hplain hv

/-- **Writing ends on every heap, and cuts exactly at cycles.**  The writer comes to the text, with
nothing left open.  The text is the one that the paths give, and no other: a list is cut if it is
above itself, so a list that does not contain itself is written in full wherever it is met.  Without
any cut writing ends exactly if no cycle is reached, with the same text. -/
theorem shown_cuts_at_cycles (h : Heap) (v : Value) :
    (writeText h v).run [] = some (v.shown h, []) ∧
    (∃ textAt, Renders h v textAt ∧ textAt [] = v.shown h) ∧
    (∀ textAt, Renders h v textAt → textAt [] = v.shown h ∧
      ∀ path r, v.follow? h path = some (.list r) → ¬ ContainsItself h r →
        textAt path =
          bracketed ((List.range (h.get r).size).map fun i => textAt (path ++ [i]))) ∧
    ∀ text, plainText h v = some text ↔ Acyclic h v ∧ text = v.shown h := by
  have hroot : textAlong h v [] = v.shown h := textAlong_of_follow? rfl
  refine ⟨run_writeText h [] v, ⟨_, renders_textAlong h v, hroot⟩, ?_, ?_⟩
  · intro textAt ht
    refine ⟨(ht.eq_textAlong rfl).trans hroot, fun path r hr hself => ?_⟩
    exact ht.full path r hr (mt (containsItself_of_above hr) hself)
  · exact fun text => plainText_eq_some_iff

end Value

end ListCalc
