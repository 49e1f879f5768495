import ListCalc.Token.Scan

/-!
# Proofs — the bytes of a text

Offsets and lengths count UTF-8 bytes.  `bytesOf s` are the bytes of a text, `slice s a b` those
from offset `a` up to offset `b`.  A text that is put together from three has the middle one as a
slice (`slice_middle`), and a newline is the one character that has the byte ten in its encoding
(`count_newline_bytesOf`).
-/

namespace ListCalc

open Place (byteSize)

/-- The UTF-8 bytes of a text. -/
def bytesOf (s : String) : List UInt8 := s.toByteArray.data.toList

/-- The bytes of a text from one offset up to another. -/
def slice (s : String) (a b : Nat) : List UInt8 := ((bytesOf s).take b).drop a

theorem bytesOf_ofList (cs : List Char) :
    bytesOf (String.ofList cs) = cs.flatMap String.utf8EncodeChar := by
  rw [bytesOf, String.toByteArray_ofList, List.utf8Encode, List.toList_data_toByteArray]

/-- The bytes of a text in two parts are those of the parts. -/
theorem bytesOf_append (cs ds : List Char) :
    bytesOf (String.ofList (cs ++ ds)) =
      bytesOf (String.ofList cs) ++ bytesOf (String.ofList ds) := by
  simp only [bytesOf_ofList, List.flatMap_append]

@[simp] theorem length_bytesOf (s : String) : (bytesOf s).length = s.utf8ByteSize := by
  rw [bytesOf, Array.length_toList]
  rfl

theorem byteSize_append (cs ds : List Char) :
    byteSize (cs ++ ds) = byteSize cs + byteSize ds := by
  simp [byteSize, String.ofList_append]

theorem byteSize_pos {cs : List Char} (h : cs ≠ []) : 0 < byteSize cs := by
  obtain ⟨c, ds, rfl⟩ := List.exists_cons_of_ne_nil h
  have hc : 0 < byteSize [c] := by
    rw [byteSize, ← length_bytesOf, bytesOf_ofList]
    simpa using c.utf8Size_pos
  rw [show c :: ds = [c] ++ ds from rfl, byteSize_append]
  exact Nat.lt_add_right _ hc

/-- The middle one of three texts is a slice of all three together. -/
theorem slice_middle (xs ys zs : List Char) :
    slice (String.ofList (xs ++ ys ++ zs)) (byteSize xs) (byteSize xs + byteSize ys) =
      bytesOf (String.ofList ys) := by
  have hxy : (bytesOf (String.ofList (xs ++ ys))).length = byteSize xs + byteSize ys := by
    rw [length_bytesOf, ← byteSize_append]
    rfl
  rw [slice, bytesOf_append, ← hxy, List.take_left, bytesOf_append]
  exact List.drop_left' (length_bytesOf _)

theorem ten_ne_ofNat {n : Nat} (h : n < 256) (hn : n ≠ 10) : (10 : UInt8) ≠ UInt8.ofNat n := by
  intro heq
  have := congrArg UInt8.toNat heq
  rw [UInt8.toNat_ofNat', Nat.mod_eq_of_lt (by omega)] at this
  exact hn this.symm

/-- The byte ten stands in the encoding of no character but the newline. -/
theorem ten_not_mem_encoded {c : Char} (hc : c ≠ '\n') : 10 ∉ String.utf8EncodeChar c := by
  have hv : c.val.toNat ≠ 10 := fun h => hc (Char.ext (UInt32.toNat_inj.mp h))
  unfold String.utf8EncodeChar
  dsimp only
  split
  · simpa only [List.mem_singleton] using ten_ne_ofNat (by omega) hv
  -- all bytes of a longer encoding are at least 128
  split
  · simp only [List.mem_cons, List.not_mem_nil, or_false, not_or]
    exact ⟨ten_ne_ofNat (by omega) (by omega), ten_ne_ofNat (by omega) (by omega)⟩
  split
  · simp only [List.mem_cons, List.not_mem_nil, or_false, not_or]
    exact ⟨ten_ne_ofNat (by omega) (by omega), ten_ne_ofNat (by omega) (by omega),
      ten_ne_ofNat (by omega) (by omega)⟩
  · simp only [List.mem_cons, List.not_mem_nil, or_false, not_or]
    exact ⟨ten_ne_ofNat (by omega) (by omega), ten_ne_ofNat (by omega) (by omega),
      ten_ne_ofNat (by omega) (by omega), ten_ne_ofNat (by omega) (by omega)⟩

/-- Only the newline has its byte in its encoding. -/
theorem count_newline_encoded (c : Char) :
    (String.utf8EncodeChar c).count 10 = [c].count '\n' := by
  by_cases hc : c = '\n'
  · subst hc
    rfl
  · rw [List.count_eq_zero_of_not_mem (ten_not_mem_encoded hc),
      List.count_eq_zero_of_not_mem (by simpa using Ne.symm hc)]

/-- Newlines may be counted in the bytes. -/
theorem count_newline_bytesOf (cs : List Char) :
    (bytesOf (String.ofList cs)).count 10 = cs.count '\n' := by
  rw [bytesOf_ofList]
  induction cs with
  | nil => rfl
  | cons c cs ih =>
    rw [List.flatMap_cons, List.count_append, count_newline_encoded, ih, ← List.count_append]
    rfl

end ListCalc
