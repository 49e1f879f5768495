import ListCalc.Proofs.Eval.Effects
import ListCalc.Proofs.Eval.Growth

/-!
# Proofs — the lines that an evaluation reads

`byteLines` cuts bytes into lines, each with the newline that ends it.  `linesRead` lists the lines
that the evaluation of a tree takes from the input, in order and up to its end or its failure: one
for each `@ "in"` that is reached while there are any left.  `evaluate_takes` is the main fact: with
these lines gone, the lines of the input are those that are left.

`Takes m w lines` says this of one computation; `Takes.bind` puts two together.
-/

namespace ListCalc

variable {α β : Type}

/-! ### Lines of bytes -/

/-- The lines of the bytes, each with its newline; the last one may have none. -/
def byteLines : List UInt8 → List (List UInt8)
  | []      => []
  | b :: bs =>
    if b = 10 then [b] :: byteLines bs
    else
      match byteLines bs with
      | []            => [[b]]
      | line :: lines => (b :: line) :: lines

/-- A line is what stands up to the first newline, with it. -/
theorem byteLines_newline {body : List UInt8} (h : 10 ∉ body) (bytes : List UInt8) :
    byteLines (body ++ 10 :: bytes) = (body ++ [10]) :: byteLines bytes := by
  induction body with
  | nil => rfl
  | cons b body ih =>
    obtain ⟨hb, hbody⟩ : 10 ≠ b ∧ 10 ∉ body := by simpa using h
    rw [List.cons_append, byteLines, if_neg (Ne.symm hb), ih hbody]
    rfl

/-- What stands behind the last newline is a line unless it is empty. -/
theorem byteLines_last {body : List UInt8} (h : 10 ∉ body) (hne : body ≠ []) :
    byteLines body = [body] := by
  induction body with
  | nil => exact absurd rfl hne
  | cons b body ih =>
    obtain ⟨hb, hbody⟩ : 10 ≠ b ∧ 10 ∉ body := by simpa using h
    rw [byteLines, if_neg (Ne.symm hb)]
    cases body with
    | nil => rfl
    | cons c cs => rw [ih hbody (List.cons_ne_nil _ _)]

/-- There are no more lines than bytes. -/
theorem length_byteLines_le (bytes : List UInt8) : (byteLines bytes).length ≤ bytes.length := by
  induction bytes with
  | nil => exact Nat.le_refl _
  | cons b bs ih =>
    rw [byteLines]
    split
    · simpa using ih
    · split
      · simp
      · rename_i line lines heq
        rw [heq] at ih
        simp only [List.length_cons] at ih ⊢
        omega

namespace Input

/-- The line that is taken next; there is none at the end of the input. -/
def taken (i : Input) : List (List UInt8) := if i.rest = [] then [] else [i.lineBytes]

/-- The next line goes up to the first newline. -/
theorem lineBytes_of_newline {i : Input} {body bytes : List UInt8} (hbody : 10 ∉ body)
    (h : i.rest = body ++ 10 :: bytes) : i.lineBytes = body ++ [10] := by
  have htake : (body ++ 10 :: bytes).takeWhile (· ≠ 10) = body := by
    rw [List.takeWhile_append_of_pos (by simpa using fun b hb => ne_of_mem_of_not_mem hb hbody)]
    simp
  simp only [lineBytes, h, htake]
  rw [List.take_length_add_append]
  rfl

/-- Without a newline the next line is all that is left. -/
theorem lineBytes_of_last {i : Input} (h : 10 ∉ i.rest) : i.lineBytes = i.rest := by
  have hall : ∀ b ∈ i.rest, decide (b ≠ 10) = true := by
    simpa using fun b hb => ne_of_mem_of_not_mem hb h
  have htake := @List.takeWhile_append_of_pos _ _ i.rest [] hall
  rw [List.append_nil, List.takeWhile_nil, List.append_nil] at htake
  simp only [lineBytes, htake]
  exact List.take_of_length_le (Nat.le_succ _)

/-- Taking a line takes the first one. -/
theorem byteLines_rest (i : Input) : byteLines i.rest = i.taken ++ byteLines i.skipLine.rest := by
  by_cases hnewline : 10 ∈ i.rest
  · obtain ⟨body, bytes, hrest, hbody⟩ := List.eq_append_cons_of_mem hnewline
    have hne : i.rest ≠ [] := List.ne_nil_of_mem hnewline
    rw [taken, if_neg hne, lineBytes_of_newline hbody hrest,
      LinesTaken.skipLine_of_newline hbody hrest, hrest, byteLines_newline hbody]
    rfl
  · rw [LinesTaken.skipLine_of_last hnewline, taken]
    split
    · rename_i hrest
      rw [hrest]
      rfl
    · rename_i hrest
      rw [byteLines_last hnewline hrest, lineBytes_of_last hnewline]
      rfl

end Input

/-! ### The lines that a tree reads -/

/-- The lines that an operator with its operands evaluated reads. -/
def exchangeLines : BinaryOp → Value → World → List (List UInt8)
  | .exchange, .text "in", w => w.input.taken
  | _,         _,          _ => []

/-- The lines that the evaluation of a tree takes from the input, in order. -/
def linesRead : Expr → World → List (List UInt8)
  | .literal _ _, _ => []
  | .group _ e _, w => linesRead e w
  | .name _,      _ => []
  | .unary _ e,   w => linesRead e w
  | .binary left t right, w =>
    match BinaryOp.ofKind? t.kind with
    | some .assign =>
      match left with
      | .name _ => linesRead right w
      | _       => []
    | some (.logic op true) =>
      linesRead left w ++ onSuccess (evaluate left) w fun l w =>
        match op.proceeds w.heap l with
        | .ok true => linesRead right w
        | _        => []
    | some op =>
      linesRead left w ++ onSuccess (evaluate left) w fun _ w =>
        linesRead right w ++ onSuccess (evaluate right) w fun r w => exchangeLines op r w
    | none => linesRead left w ++ onSuccess (evaluate left) w fun _ w => linesRead right w
  | .call callee _ argument, w =>
    linesRead callee w ++ onSuccess (evaluate callee) w fun c w =>
      match c.unaryAction? with
      | some _ => linesRead argument w
      | none   => []

/-! ### Computations -/

/-- The computation takes exactly the given lines from the input. -/
def Takes (m : Eval α) (w : World) (lines : List (List UInt8)) : Prop :=
  byteLines w.input.rest = lines ++ byteLines (after m w).input.rest

/-- The computation takes nothing from the input, whatever it does. -/
def KeepsInput (m : Eval α) : Prop := ∀ w, (after m w).input = w.input

/-- What does not talk takes no line. -/
theorem Touches.keepsInput {m : Eval α} (h : Touches (fun _ => True) false m) : KeepsInput m :=
  fun w => ((h w).silent rfl).1

/-- What keeps the input takes no lines. -/
theorem KeepsInput.takes {m : Eval α} (h : KeepsInput m) (w : World) : Takes m w [] := by
  rw [Takes, h w, List.nil_append]

theorem keepsInput_printLine (t : Token) (v : Value) : KeepsInput (printLine t v) := by
  intro w
  cases hout : w.out.write (w.shown v ++ "\n") with
  | error fault => simp [after, printLine, stream_apply, hout]
  | ok out => cases hflush : out.flush <;> simp [after, printLine, stream_apply, hout, hflush]

theorem keepsInput_reportLine (t : Token) (v : Value) : KeepsInput (reportLine t v) := by
  intro w
  cases herr : w.err.write (w.shown v ++ "\n") <;> simp [after, reportLine, stream_apply, herr]

section

variable {m : Eval α} {k : α → Eval β} {w : World} {lines : List (List UInt8)}

theorem Takes.of_eq {m' : Eval α} (hm : Takes m' w lines) (heq : m w = m' w) : Takes m w lines := by
  rw [Takes, after, heq]
  exact hm

/-- The lines of two steps are those of the first, and on its success those of the second. -/
theorem Takes.bind {next : α → World → List (List UInt8)} (hm : Takes m w lines)
    (hk : ∀ a w', m w = .ok a w' → Takes (k a) w' (next a w')) :
    Takes (m >>= k) w (lines ++ onSuccess m w next) := by
  rw [Takes] at hm ⊢
  cases hw : m w with
  | ok a w' =>
    rw [after_of_ok hw, hk a w' hw] at hm
    rw [after_bind_of_ok hw, onSuccess, hw, hm, List.append_assoc]
  | error e w' =>
    rw [after_of_error hw] at hm
    rw [after_bind_of_error hw, onSuccess, hw, List.append_nil, hm]

/-- What comes after and takes no line adds none. -/
theorem Takes.andThen (hm : Takes m w lines) (hk : ∀ a, KeepsInput (k a)) :
    Takes (m >>= k) w lines := by
  refine after_bind
    (P := fun w' : World => byteLines w.input.rest = lines ++ byteLines w'.input.rest) hm ?_
  intro a w' _ hw'
  rw [hk a w', hw']

end

/-- A line is taken even if it is no text. -/
theorem takes_takeLine (t : Token) (w : World) : Takes (takeLine t) w w.input.taken := by
  have hafter : (after (takeLine t) w).input = w.input.skipLine := by
    cases hline : w.input.line <;> simp [after, takeLine, stream_apply, hline]
  rw [Takes, hafter]
  exact w.input.byteLines_rest

/-- Of the exchanges, only `in` takes a line. -/
theorem keepsInput_exchange (t : Token) (left : Value) {right : Value} (h : right ≠ .text "in") :
    KeepsInput (exchange t left right) := by
  have hpure : KeepsInput (pure left : Eval Value) := fun _ => rfl
  have hand {m : Eval Unit} (hm : KeepsInput m) : KeepsInput (do m; return left) := by
    intro w
    refine after_bind (P := fun w' : World => w'.input = w.input) (hm w) fun _ w' _ hw' => ?_
    exact hw'
  unfold exchange
  split
  · exact absurd rfl h
  · exact hand (keepsInput_printLine t left)
  · exact hand (keepsInput_reportLine t left)
  · exact fun _ => rfl
  · exact hpure

/-- Of the operators by token, only the exchange takes lines. -/
theorem operateBinary_takes (t : Token) {op : BinaryOp} (left right : Value) (w : World) :
    Takes (operateBinary t op left right) w (exchangeLines op right w) := by
  by_cases hop : op = .exchange
  · subst hop
    by_cases hright : right = .text "in"
    · subst hright
      exact (takes_takeLine t w).andThen fun _ _ => rfl
    · have hnone : exchangeLines .exchange right w = [] := by
        unfold exchangeLines
        split
        · exact absurd rfl hright
        · rfl
      rw [hnone]
      exact (keepsInput_exchange t left hright).takes w
  · have hnone : exchangeLines op right w = [] := by
      unfold exchangeLines
      split
      · exact absurd rfl hop
      · rfl
    have hsilent : Touches (fun _ => True) false (operateBinary t op left right) :=
      touches_operateBinary t op left right fun h => absurd h hop
    rw [hnone]
    exact hsilent.keepsInput.takes w

/-! ### Trees -/

section
variable {left right : Expr} {t : Token}

theorem linesRead_binary (left : Expr) (t : Token) (right : Expr) (w : World) :
    linesRead (.binary left t right) w =
      match BinaryOp.ofKind? t.kind with
      | some .assign =>
        match left with
        | .name _ => linesRead right w
        | _       => []
      | some (.logic op true) =>
        linesRead left w ++ onSuccess (evaluate left) w fun l w =>
          match op.proceeds w.heap l with
          | .ok true => linesRead right w
          | _        => []
      | some op =>
        linesRead left w ++ onSuccess (evaluate left) w fun _ w =>
          linesRead right w ++ onSuccess (evaluate right) w fun r w => exchangeLines op r w
      | none => linesRead left w ++ onSuccess (evaluate left) w fun _ w => linesRead right w := by
  rfl

/-- An invalid assignment takes no lines. -/
theorem linesRead_invalidTarget (h : BinaryOp.ofKind? t.kind = some .assign)
    (hleft : ∀ target, left ≠ .name target) (w : World) :
    linesRead (.binary left t right) w = [] := by
  rw [linesRead_binary, h]
  cases left with
  | name target => exact absurd rfl (hleft target)
  | _ => rfl

/-- Both sides take their lines before the operator does. -/
theorem linesRead_strict {op : BinaryOp} (h : BinaryOp.ofKind? t.kind = some op)
    (hop : op.isStrict = true) (w : World) : linesRead (.binary left t right) w =
      linesRead left w ++ onSuccess (evaluate left) w fun _ w =>
        linesRead right w ++ onSuccess (evaluate right) w fun r w => exchangeLines op r w := by
  rw [linesRead_binary, h]
  split <;> simp_all [BinaryOp.isStrict]

end

/-- **The lines that are read are gone**, and no others, while a tree is evaluated. -/
theorem evaluate_takes (e : Expr) (w : World) : Takes (evaluate e) w (linesRead e w) := by
  have hfail (t : Token) (fault : RuntimeFault) : KeepsInput (failAt t fault : Eval Value) :=
    fun _ => rfl
  have hinspect (t : Token) (op : Heap → Except OperatorFault Value) : KeepsInput (inspect t op) :=
    (touches_inspect t op).keepsInput
  have hoperate (t : Token) (op : Operation Value) : KeepsInput (operate t op) :=
    (touches_operate t op).keepsInput
  induction e using evaluation_induction generalizing w with
  | literal t value =>
    exact (touches_literalValue value).keepsInput.takes w
  | name t => rfl
  | group opener e closer ih => exact ih w
  | unary t e ih =>
    rw [evaluate, linesRead]
    refine (ih w).andThen fun v => ?_
    cases UnaryOp.ofKind? t.kind with
    | some op => exact hinspect t _
    | none => exact (touches_applyUnary t v).keepsInput
  | assign target t right hop ih =>
    rw [evaluate_assign hop, linesRead_binary, hop]
    exact (ih w).andThen fun v _ => rfl
  | invalidTarget left t right hop hleft =>
    rw [evaluate_invalidTarget hop hleft, linesRead_invalidTarget hop hleft]
    exact (hfail t _).takes w
  | shortCircuit left t right op hop ihl ihr =>
    rw [evaluate_shortCircuit hop, linesRead_binary, hop]
    refine (ihl w).bind fun l w₁ _ => ?_
    cases hp : op.proceeds w₁.heap l with
    | error fault => exact ((hfail t _).takes w₁).of_eq (inspect_bind_of_error hp _)
    | ok proceeds =>
      refine Takes.of_eq ?_ (inspect_bind_of_ok hp _)
      cases proceeds with
      | true => exact (ihr w₁).andThen fun r => hinspect t _
      | false => rfl
  | strict left t right op hop hs ihl ihr =>
    rw [evaluate_strict hop hs, linesRead_strict hop hs]
    refine (ihl w).bind fun l w₁ _ => (ihr w₁).bind fun r w₂ _ => ?_
    exact operateBinary_takes t l r w₂
  | extension left t right hop ihl ihr =>
    rw [evaluate_extension hop, linesRead_binary, hop]
    refine (ihl w).bind fun l w₁ _ => (ihr w₁).andThen fun r => ?_
    exact (touches_applyBinary t l r).keepsInput
  | call callee t argument ihc iha =>
    rw [evaluate_call, linesRead]
    refine (ihc w).bind fun c w₁ _ => ?_
    cases c.unaryAction? with
    | some action => exact (iha w₁).andThen fun v => hoperate t _
    | none => exact (hfail t _).takes w₁

/-! ### Trees one after the other -/

/-- The lines that the evaluation of trees one after the other takes. -/
def batchLines : List Expr → World → List (List UInt8)
  | [],      _ => []
  | e :: es, w =>
    linesRead e w ++ onSuccess (evaluate e) w fun v w =>
      onSuccess (printLine e.token v) w fun _ w => batchLines es w

/-- Trees one after the other take the lines that each of them does. -/
theorem interpret_takes (es : List Expr) (w : World) :
    Takes (interpret es) w (batchLines es w) := by
  induction es generalizing w with
  | nil => rfl
  | cons e es ih =>
    rw [interpret, batchLines]
    refine (evaluate_takes e w).bind fun v w₁ _ => ?_
    exact ((keepsInput_printLine e.token v).takes w₁).bind fun _ w₂ _ => ih w₂

end ListCalc
