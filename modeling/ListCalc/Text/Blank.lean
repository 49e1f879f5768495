/-!
# Text — blanks

`isBlank` is Unicode's `White_Space` property: the 25 characters that separate tokens and that a
line typed at the prompt is trimmed of.  What trimming leaves is the one part of the text that has
nothing but blanks before and after it and neither begins nor ends with one (`trimBlanks_eq_iff`).
-/

namespace ListCalc

/-- The code points with property `White_Space`, as closed ranges in increasing order. -/
def blankRanges : List (Nat × Nat) :=
  [(0x0009, 0x000D), (0x0020, 0x0020), (0x0085, 0x0085), (0x00A0, 0x00A0), (0x1680, 0x1680),
   (0x2000, 0x200A), (0x2028, 0x2029), (0x202F, 0x202F), (0x205F, 0x205F), (0x3000, 0x3000)]

/-- Whether the character is a blank. -/
def isBlank (c : Char) : Bool :=
  blankRanges.any fun r => r.1 ≤ c.toNat && c.toNat ≤ r.2

/-- The text without the blanks at its two ends. -/
def trimBlanks (cs : List Char) : List Char :=
  ((cs.dropWhile isBlank).reverse.dropWhile isBlank).reverse

theorem isBlank_newline : isBlank '\n' = true := by decide

/-! ### What trimming takes away -/

/-- Blanks at the beginning are dropped up to the first other character. -/
theorem dropWhile_isBlank {before rest : List Char} (hbefore : ∀ c ∈ before, isBlank c = true)
    (hrest : ∀ c ∈ rest.head?, isBlank c = false) : (before ++ rest).dropWhile isBlank = rest := by
  rw [List.dropWhile_append_of_pos hbefore]
  cases rest with
  | nil => rfl
  | cons c cs => rw [List.dropWhile_cons_of_neg (Bool.eq_false_iff.mp (hrest c rfl))]

/-- Where dropping stops, there is no blank. -/
theorem head?_dropWhile_isBlank (cs : List Char) :
    ∀ c ∈ (cs.dropWhile isBlank).head?, isBlank c = false := by
  intro c hc
  have hstop := List.head?_dropWhile_not isBlank cs
  rw [Option.mem_def.mp hc] at hstop
  simpa using hstop

theorem isBlank_of_mem_takeWhile {cs : List Char} : ∀ c ∈ cs.takeWhile isBlank, isBlank c = true :=
  List.all_eq_true.mp List.all_takeWhile

/-- The text is cut before and behind what is left of it, and only blanks are cut off. -/
theorem trimBlanks_split (cs : List Char) : ∃ before after, cs = before ++ trimBlanks cs ++ after ∧
    (∀ c ∈ before, isBlank c = true) ∧ ∀ c ∈ after, isBlank c = true := by
  refine ⟨cs.takeWhile isBlank, ((cs.dropWhile isBlank).reverse.takeWhile isBlank).reverse, ?_,
    isBlank_of_mem_takeWhile, fun c hc => isBlank_of_mem_takeWhile c (List.mem_reverse.mp hc)⟩
  rw [trimBlanks, List.append_assoc, ← List.reverse_append, List.takeWhile_append_dropWhile,
    List.reverse_reverse, List.takeWhile_append_dropWhile]

/-- What is left does not end with a blank. -/
theorem trimBlanks_getLast? (cs : List Char) :
    ∀ c ∈ (trimBlanks cs).getLast?, isBlank c = false := by
  rw [trimBlanks, List.getLast?_reverse]
  exact head?_dropWhile_isBlank _

/-- What is left does not begin with a blank. -/
theorem trimBlanks_head? (cs : List Char) : ∀ c ∈ (trimBlanks cs).head?, isBlank c = false := by
  intro c hc
  have hprefix : trimBlanks cs <+: cs.dropWhile isBlank := by
    rw [← List.reverse_suffix, trimBlanks, List.reverse_reverse]
    exact List.dropWhile_suffix _
  obtain ⟨after, hafter⟩ := hprefix
  refine head?_dropWhile_isBlank cs c ?_
  rw [← hafter, List.head?_append, Option.mem_def.mp hc]
  rfl

/-- **Trimming.**  What is left of a text is the one part of it with only blanks on either side
that has no blank at its own ends. -/
theorem trimBlanks_eq_iff {cs ds : List Char} : trimBlanks cs = ds ↔
    (∃ before after, cs = before ++ ds ++ after ∧ (∀ c ∈ before, isBlank c = true) ∧
      ∀ c ∈ after, isBlank c = true) ∧
    (∀ c ∈ ds.head?, isBlank c = false) ∧ ∀ c ∈ ds.getLast?, isBlank c = false := by
  constructor
  · rintro rfl
    exact ⟨trimBlanks_split cs, trimBlanks_head? cs, trimBlanks_getLast? cs⟩
  · rintro ⟨⟨before, after, rfl, hbefore, hafter⟩, hhead, hlast⟩
    have hblanks : ∀ c ∈ after.reverse, isBlank c = true :=
      fun c hc => hafter c (List.mem_reverse.mp hc)
    have hlast : ∀ c ∈ ds.reverse.head?, isBlank c = false := by rwa [List.head?_reverse]
    rw [trimBlanks, List.append_assoc]
    cases ds with
    | nil =>
      have hall : (before ++ ([] ++ after)).dropWhile isBlank = [] := by
        rw [List.nil_append, ← List.append_nil (before ++ after)]
        refine dropWhile_isBlank (fun c hc => ?_) nofun
        exact (List.mem_append.mp hc).elim (hbefore c) (hafter c)
      rw [hall]
      rfl
    | cons c cs =>
      have hhead : ∀ d ∈ (c :: cs ++ after).head?, isBlank d = false := hhead
      rw [dropWhile_isBlank hbefore hhead, List.reverse_append, dropWhile_isBlank hblanks hlast,
        List.reverse_reverse]

end ListCalc
