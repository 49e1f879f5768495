import ListCalc.Proofs.Eval.Closed
import ListCalc.Proofs.Eval.Effects
import ListCalc.Proofs.Eval.ShortCircuit
import ListCalc.Proofs.Expr.Parse
import ListCalc.Proofs.Session.Lists
import ListCalc.Proofs.Value.Shown

/-!
# Proofs — chains of joins

`e₁ ; e₂ ; … ; eₙ` is read as a tree grouped to the left (`Expr.chain`, `parse_chain`).  Each
operand is evaluated where the chain before it has ended; `Visited` records these visits, for
operands that succeed and append nothing to the list of the chain.

* A join after a list leaves it in its place with one value more (`evaluate_join_list`), so a chain
  that begins with a list extends that list (`evaluate_chain_list`).
* A join after another value makes the list that the rest of the chain extends
  (`evaluate_join_scalar`).

`chain_builds_one_list` puts the two together.  Which lists there are afterwards is said by
`Passed own u u' visits`: of the lists that came between `u` and `u'`, some are `own`, and all
others were made by the operands.
-/

namespace ListCalc

/-! ### Chains as trees -/

/-- An operand of a chain with the operator before it. -/
structure Link where
  op : Token
  operand : Expr

/-- The tokens that a link adds to a chain. -/
def Link.tokens (l : Link) : List Token := l.op :: l.operand.tokens

/-- The operands one after the other, grouped to the left. -/
def Expr.chain (first : Expr) (links : List Link) : Expr :=
  links.foldl (fun left l => .binary left l.op l.operand) first

/-- A chain is written as its first operand and its links. -/
theorem tokens_chain (first : Expr) (links : List Link) :
    (first.chain links).tokens = first.tokens ++ links.flatMap Link.tokens := by
  induction links generalizing first with
  | nil => simp [Expr.chain]
  | cons l links ih =>
    show ((Expr.binary first l.op l.operand).chain links).tokens = _
    rw [ih, Expr.tokens, List.flatMap_cons, Link.tokens, List.append_assoc]

/-- The operands of a chain as they stand in a source before `stop`: each is an operand that is not
nested too deeply, and could not have been read further than to the next `;`. -/
structure ReadsAsChain (arities : Arities) (stop : Token) (first : Expr) (links : List Link) :
    Prop where
  ops : ∀ l ∈ links, l.op.kind = .semicolon
  operands : ∀ e ∈ first :: links.map Link.operand,
    Phrase arities (.operand true) e ∧ e.nesting ≤ maxNesting
  longest : (first.chain links).Longest arities stop

section
variable {arities : Arities}

/-- A join is no assignment. -/
theorem assignsName_semicolon {op : Token} (hop : op.kind = .semicolon) (left : Expr) :
    left.assignsName op = false := by
  cases left with
  | name t =>
    rw [Expr.assignsName, hop]
    rfl
  | _ => rfl

/-- A chain of operands is read as one. -/
theorem phrase_chain {first : Expr} {links : List Link} (hops : ∀ l ∈ links, l.op.kind = .semicolon)
    (hfirst : Phrase arities (.series true) first)
    (hlinks : ∀ l ∈ links, Phrase arities (.operand true) l.operand) :
    Phrase arities (.series true) (first.chain links) := by
  induction links generalizing first with
  | nil => exact hfirst
  | cons l links ih =>
    have hop := hops l (.head _)
    have hinfix : InfixToken arities l.op := .inl (by rw [hop]; rfl)
    refine ih (fun m hm => hops m (.tail _ hm)) ?_ fun m hm => hlinks m (.tail _ hm)
    exact .joined hfirst hinfix (assignsName_semicolon hop first) (hlinks l (.head _))

/-- A chain is no deeper than the deepest of its operands. -/
theorem nesting_chain {first : Expr} {links : List Link} {n : Nat}
    (hops : ∀ l ∈ links, l.op.kind = .semicolon) (hfirst : first.nesting ≤ n)
    (hlinks : ∀ l ∈ links, l.operand.nesting ≤ n) : (first.chain links).nesting ≤ n := by
  induction links generalizing first with
  | nil => exact hfirst
  | cons l links ih =>
    refine ih (fun m hm => hops m (.tail _ hm)) ?_ fun m hm => hlinks m (.tail _ hm)
    rw [Expr.nesting_joined (assignsName_semicolon (hops l (.head _)) first)]
    exact max_le hfirst (hlinks l (.head _))

/-- Operands with `;` between them are read as one tree, grouped to the left. -/
theorem parse_chain {stop : Token} {first : Expr} {links : List Link}
    (hstop : stop.kind = .endOfInput) (h : ReadsAsChain arities stop first links) :
    Expr.parse arities (first.tokens ++ links.flatMap Link.tokens ++ [stop]) =
      .ok [first.chain links] := by
  obtain ⟨hfirst, hlinks⟩ := List.forall_mem_cons.mp h.operands
  rw [List.forall_mem_map] at hlinks
  have hphrase : Phrase arities (.series true) (first.chain links) :=
    phrase_chain h.ops (.operand hfirst.1) fun l hl => (hlinks l hl).1
  rw [← tokens_chain, parse_eq_ok_iff hphrase.kind_ne_endOfInput hstop]
  refine ⟨⟨?_, ?_, ⟨h.longest, not_infixToken_of_end hstop, trivial⟩⟩, by simp⟩
  · simpa using .series hphrase
  · simpa using nesting_chain h.ops hfirst.2 fun l hl => (hlinks l hl).2

end

/-! ### Visits -/

/-- An operand of a chain as it is evaluated: its value, and the worlds before and after. -/
structure Visit extends Link where
  value : Value
  start : World
  stop : World

/-- The operands after `first` are evaluated with success, each where the chain before it has ended,
and none of them appends to the list that this chain gives. -/
inductive Visited (w : World) : Expr → List Visit → Prop where
  | none {first : Expr} : Visited w first []
  | more {first : Expr} {v : Visit} {visits : List Visit} : v.op.kind = .semicolon →
      v.start = after (evaluate first) w → evaluate v.operand v.start = .ok v.value v.stop →
      (∀ r u, evaluate first w = .ok (.list r) u → ¬ AppendsTo v.operand v.start r) →
      Visited w (.binary first v.op v.operand) visits → Visited w first (v :: visits)

/-- The list comes between the two worlds. -/
def Creates (u u' : World) (r : ListRef) : Prop := u'.heap.Has r ∧ ¬ u.heap.Has r

/-- A list that two steps create is created by one of them. -/
theorem creates_trans {u u₁ u₂ : World} {joins more : List (Value × Value)}
    (h : Grew u.heap u₁.heap joins) (h' : Grew u₁.heap u₂.heap more) (r : ListRef) :
    Creates u u₂ r ↔ Creates u u₁ r ∨ Creates u₁ u₂ r := by
  have h := @h.has r
  have h' := @h'.has r
  unfold Creates
  tauto

/-- What happens between two worlds while the operands are visited: lists only grow, names are set
only by the operands, and the lists that come are those of the operands and the `own` ones. -/
structure Passed (own : ListRef → Prop) (u u' : World) (visits : List Visit) : Prop where
  grew : ∃ joins, Grew u.heap u'.heap joins
  bound : ∀ name, (∀ v ∈ visits, name ∉ v.operand.targets) →
    u'.env.get? name = u.env.get? name
  creates : ∀ r, Creates u u' r ↔ own r ∨ ∃ v ∈ visits, Creates v.start v.stop r

theorem Passed.refl (u : World) : Passed (fun _ => False) u u [] :=
  ⟨⟨[], .refl u.heap⟩, fun _ _ => rfl, fun r => by simp [Creates]⟩

/-- Visits after visits: only those of the first are the own ones. -/
theorem Passed.trans {own : ListRef → Prop} {u u₁ u₂ : World} {visits more : List Visit}
    (h : Passed own u u₁ visits) (h' : Passed (fun _ => False) u₁ u₂ more) :
    Passed own u u₂ (visits ++ more) := by
  obtain ⟨joins, hg⟩ := h.grew
  obtain ⟨joins', hg'⟩ := h'.grew
  refine ⟨⟨_, hg.trans hg'⟩, fun name hname => ?_, fun r => ?_⟩
  · rw [h'.bound name fun v hv => hname v (List.mem_append_right _ hv),
      h.bound name fun v hv => hname v (List.mem_append_left _ hv)]
  · rw [creates_trans hg hg', h.creates, h'.creates]
    simp only [List.mem_append, or_and_right, exists_or, false_or, or_assoc]

/-! ### One join -/

section
variable {w u u' : World} {left e : Expr} {op : Token} {l x : Value} {q : ListRef}

/-- A join of two operands that return is a join of their values. -/
theorem evaluate_join (hop : op.kind = .semicolon) (hl : evaluate left w = .ok l u)
    (he : evaluate e u = .ok x u') :
    evaluate (.binary left op e) w =
      .ok (cons u'.heap l x).1 { u' with heap := (cons u'.heap l x).2 } := by
  have hcons : BinaryOp.ofKind? op.kind = some .cons := by rw [hop]; rfl
  rw [evaluate_strict hcons rfl, bind_apply, hl]
  dsimp only
  rw [bind_apply, he]
  dsimp only
  rw [operateBinary, operate_apply, modifyGet_apply]

/-- A list that an operand appends nothing to is the same afterwards. -/
theorem get_of_not_appendsTo (hq : u.heap.Has q) (h : ¬ AppendsTo e u q) :
    ((after (evaluate e) u).heap.get q).toList = (u.heap.get q).toList := by
  have hget := (evaluate_grows e u).get hq
  have hlength := congrArg List.length hget
  rw [AppendsTo, Nat.not_lt] at h
  rw [List.length_append, Array.length_toList, Array.length_toList] at hlength
  have hnil : appended q (joins e u) = [] := List.length_eq_zero_iff.mp (by omega)
  rw [hget, hnil, List.append_nil]

end

/-- A join of an operand passes by it alone, and makes the list that is its own. -/
theorem passed_join {v : Visit} {l : Value} {own : ListRef → Prop}
    (he : evaluate v.operand v.start = .ok v.value v.stop)
    (hown : ∀ r, Creates v.stop { v.stop with heap := (cons v.stop.heap l v.value).2 } r ↔ own r) :
    Passed own v.start { v.stop with heap := (cons v.stop.heap l v.value).2 } [v] := by
  have hafter := after_of_ok he
  have hg : Grew v.start.heap v.stop.heap (joins v.operand v.start) :=
    hafter ▸ evaluate_grows v.operand v.start
  have hcons := Grew.cons v.stop.heap l v.value
  refine ⟨⟨_, hg.trans hcons⟩, fun name hname => ?_, fun r => ?_⟩
  · show v.stop.env.get? name = _
    rw [← hafter]
    exact get?_after_evaluate (hname v (.head _)) v.start
  · rw [@creates_trans _ v.stop _ _ _ hg hcons, hown]
    simp [or_comm]

section
variable {w u : World} {left : Expr} {v : Visit} {l : Value} {q : ListRef}

/-- What a chain does to its list `q` between two worlds. -/
structure Extended (q : ListRef) (u u' : World) (visits : List Visit) : Prop
    extends Passed (fun _ => False) u u' visits where
  contents : (u'.heap.get q).toList = (u.heap.get q).toList ++ visits.map Visit.value
  present : ∀ v ∈ visits, v.start.heap.Has q

theorem Extended.refl (q : ListRef) (u : World) : Extended q u u [] :=
  ⟨.refl u, (List.append_nil _).symm, by simp⟩

/-- What is appended in two steps is appended one after the other. -/
theorem Extended.trans {u₁ u₂ : World} {visits more : List Visit} (h : Extended q u u₁ visits)
    (h' : Extended q u₁ u₂ more) : Extended q u u₂ (visits ++ more) := by
  refine ⟨h.toPassed.trans h'.toPassed, ?_, fun v hv => ?_⟩
  · rw [h'.contents, h.contents, List.append_assoc, List.map_append]
  · rcases List.mem_append.mp hv with hv | hv
    · exact h.present v hv
    · exact h'.present v hv

/-- A join after a list gives that list, with one value more. -/
theorem evaluate_join_list (hop : v.op.kind = .semicolon)
    (hl : evaluate left w = .ok (.list q) v.start)
    (he : evaluate v.operand v.start = .ok v.value v.stop) (hq : v.start.heap.Has q)
    (happends : ¬ AppendsTo v.operand v.start q) :
    ∃ u, evaluate (.binary left v.op v.operand) w = .ok (.list q) u ∧
      Extended q v.start u [v] := by
  refine ⟨_, evaluate_join hop hl he, passed_join he fun r => ?_, ?_, by simpa using hq⟩
  · simp [Creates, cons, Heap.Has]
  · have hkept := get_of_not_appendsTo hq happends
    have hq' : (after (evaluate v.operand) v.start).heap.Has q :=
      (evaluate_grows v.operand v.start).has hq
    rw [after_of_ok he] at hkept hq'
    show ((v.stop.heap.append q v.value).get q).toList = _
    rw [Heap.get_append_self _ hq', Array.toList_push, hkept]
    rfl

/-- A join after a value that is no list makes the list of the two. -/
theorem evaluate_join_scalar (hop : v.op.kind = .semicolon) (hl : evaluate left w = .ok l v.start)
    (he : evaluate v.operand v.start = .ok v.value v.stop) (hscalar : ∀ r, l ≠ .list r) :
    ∃ q u, evaluate (.binary left v.op v.operand) w = .ok (.list q) u ∧
      Passed (· = q) v.start u [v] ∧ (u.heap.get q).toList = [l, v.value] ∧
      ¬ v.stop.heap.Has q := by
  have hjoin := evaluate_join hop hl he
  have hpassed := @passed_join v l (· = ⟨v.stop.heap.size⟩) he
  rw [cons_of_not_list hscalar] at hjoin hpassed
  refine ⟨_, _, hjoin, hpassed fun r => ?_, congrArg Array.toList (Heap.get_alloc_new _ _), ?_⟩
  · obtain ⟨i⟩ := r
    show (i < (v.stop.heap.alloc _).2.size ∧ ¬ i < v.stop.heap.size) ↔ _
    rw [Heap.size_alloc, ListRef.mk.injEq]
    omega
  · exact Nat.lt_irrefl _

/-- A chain that begins with a list extends that list. -/
theorem evaluate_chain_list {first : Expr} {visits : List Visit} (hw : w.Closed)
    (hvisited : Visited w first visits) (hfirst : evaluate first w = .ok (.list q) u) :
    ∃ u', evaluate (first.chain (visits.map Visit.toLink)) w = .ok (.list q) u' ∧
      Extended q u u' visits := by
  induction hvisited generalizing u with
  | none => exact ⟨u, hfirst, .refl q u⟩
  | @more first v visits hop hstart he happends _ ih =>
    rw [after_of_ok hfirst] at hstart
    subst hstart
    -- `first` is here the whole chain so far, and the world has stayed closed
    have hq : v.start.heap.Has q := (evaluate_keeps first hw).value hfirst q rfl
    obtain ⟨u₁, hjoin, hextended⟩ :=
      evaluate_join_list hop hfirst he hq (happends q v.start hfirst)
    obtain ⟨u', hchain, hextended'⟩ := ih hjoin
    exact ⟨u', hchain, hextended.trans hextended'⟩

/-- A chain that begins with another value makes one list and extends it. -/
theorem evaluate_chain_scalar {first : Expr} {visits : List Visit} (hw : w.Closed)
    (hvisited : Visited w first visits) (hsome : visits ≠ []) (hfirst : evaluate first w = .ok l u)
    (hscalar : ∀ r, l ≠ .list r) :
    ∃ q u', evaluate (first.chain (visits.map Visit.toLink)) w = .ok (.list q) u' ∧
      Passed (· = q) u u' visits ∧ (u'.heap.get q).toList = l :: visits.map Visit.value ∧
      ∀ v ∈ visits, ¬ Creates v.start v.stop q := by
  cases hvisited with
  | none => exact absurd rfl hsome
  | @more _ v visits hop hstart he _ hrest =>
    rw [after_of_ok hfirst] at hstart
    subst hstart
    obtain ⟨q, u₁, hjoin, hpassed, hpair, hfresh⟩ := evaluate_join_scalar hop hfirst he hscalar
    -- from here on the chain begins with the list that the first join has made
    obtain ⟨u', hchain, hextended⟩ := evaluate_chain_list hw hrest hjoin
    refine ⟨q, u', hchain, hpassed.trans hextended.toPassed, ?_, ?_⟩
    · rw [hextended.contents, hpair]
      rfl
    · rw [List.forall_mem_cons]
      exact ⟨fun h => hfresh h.1, fun v' hv' h => h.2 (hextended.present v' hv')⟩

end

/-! ### What holders see -/

/-- What a path leads to, it leads to while lists grow. -/
theorem Value.follow?_grew {h h' : Heap} {joins : List (Value × Value)} (hg : Grew h h' joins)
    {path : List Nat} {x y : Value} (hx : x.follow? h path = some y) :
    x.follow? h' path = some y := by
  induction path generalizing x with
  | nil => exact hx
  | cons i path ih =>
    rw [Value.follow?] at hx ⊢
    obtain ⟨z, hz, hrest⟩ := Option.bind_eq_some_iff.mp hx
    have hz' : (x.inside h')[i]? = some z := by
      cases x with
      | list r =>
        have hr : h.Has r := Heap.has_of_mem (Array.mem_of_getElem? hz)
        rw [Value.inside, ← Array.getElem?_toList] at hz ⊢
        obtain ⟨hi, -⟩ := List.getElem?_eq_some_iff.mp hz
        rw [hg.get hr, List.getElem?_append_left hi, hz]
      | _ => cases hz
    rw [hz']
    exact ih hrest

/-- What those who hold the list `q` see of a chain that ends in `u'`: paths lead to where they led,
behind the list stand its contents, and a name is bound as before unless an operand sets it. -/
structure SeenByHolders (q : ListRef) (u u' : World) (visits : List Visit) : Prop where
  kept : ∀ (x y : Value) path, x.follow? u.heap path = some y → x.follow? u'.heap path = some y
  seen : ∀ (x : Value) path, x.follow? u'.heap path = some (.list q) →
    ∀ i, x.follow? u'.heap (path ++ [i]) = (u'.heap.get q).toList[i]?
  bound : ∀ name, (∀ v ∈ visits, name ∉ v.operand.targets) →
    u'.env.get? name = u.env.get? name

/-- Whoever holds the list sees what was appended to it. -/
theorem Passed.seenByHolders {own : ListRef → Prop} {u u' : World} {visits : List Visit}
    (h : Passed own u u' visits) (q : ListRef) : SeenByHolders q u u' visits := by
  obtain ⟨joins, hg⟩ := h.grew
  refine ⟨fun x y path hx => Value.follow?_grew hg hx, fun x path hx i => ?_, h.bound⟩
  rw [Value.follow?_concat hx, Array.getElem?_toList]

/-! ### The main fact -/

/-- **A chain of joins builds one shared list.**  In a closed world, as every world is that a
session reaches, let `first` have the value `v₁`, and let the operands after it, at least one, be
evaluated with success without appending to the list of the chain.  If `v₁` is a list, the chain
gives that very list with the values of the operands appended in order, and makes no list of its
own.  Otherwise it gives a list of `v₁` and these values, which is the only one that it makes.  The
values are elements as they are, lists among them too.  All who hold the list see it so.  And the
operands with `;` between them are read as this chain. -/
theorem chain_builds_one_list {first : Expr} {visits : List Visit} {w w₁ : World} {v₁ : Value}
    (hw : w.Closed) (hfirst : evaluate first w = .ok v₁ w₁) (hvisited : Visited w first visits)
    (hsome : visits ≠ []) :
    (∃ q w', evaluate (first.chain (visits.map Visit.toLink)) w = .ok (.list q) w' ∧
      (∀ r, v₁ = .list r → q = r ∧
        (w'.heap.get q).toList = (w₁.heap.get q).toList ++ visits.map Visit.value ∧
        ∀ p, Creates w₁ w' p ↔ ∃ v ∈ visits, Creates v.start v.stop p) ∧
      ((∀ r, v₁ ≠ .list r) →
        (w'.heap.get q).toList = v₁ :: visits.map Visit.value ∧
        (∀ p, Creates w₁ w' p ↔ p = q ∨ ∃ v ∈ visits, Creates v.start v.stop p) ∧
        ∀ v ∈ visits, ¬ Creates v.start v.stop q) ∧
      SeenByHolders q w₁ w' visits) ∧
    ∀ arities stop, stop.kind = .endOfInput →
      ReadsAsChain arities stop first (visits.map Visit.toLink) →
      Expr.parse arities
          (first.tokens ++ (visits.map Visit.toLink).flatMap Link.tokens ++ [stop]) =
        .ok [first.chain (visits.map Visit.toLink)] := by
  refine ⟨?_, fun arities stop hstop => parse_chain hstop⟩
  by_cases hlist : ∃ r, v₁ = .list r
  · obtain ⟨r, rfl⟩ := hlist
    obtain ⟨w', hchain, hextended⟩ := evaluate_chain_list hw hvisited hfirst
    refine ⟨r, w', hchain, ?_, fun hscalar => absurd rfl (hscalar r),
      hextended.toPassed.seenByHolders r⟩
    rintro _ ⟨⟩
    refine ⟨rfl, hextended.contents, fun p => ?_⟩
    rw [hextended.creates, false_or]
  · rw [not_exists] at hlist
    obtain ⟨q, w', hchain, hpassed, hcontents, hown⟩ :=
      evaluate_chain_scalar hw hvisited hsome hfirst hlist
    exact ⟨q, w', hchain, fun r hr => absurd hr (hlist r),
      fun _ => ⟨hcontents, hpassed.creates, hown⟩, hpassed.seenByHolders q⟩

/-- The tree of `(1;2)`, which makes a list. -/
def oneTwo : Expr :=
  .group ⟨.leftParen, "(", 2, 1⟩
    (.binary (.literal ⟨.number, "1", 3, 1⟩ (.integer 1)) ⟨.semicolon, ";", 4, 1⟩
      (.literal ⟨.number, "2", 5, 1⟩ (.integer 2)))
    ⟨.rightParen, ")", 6, 1⟩

/-- The chain `x;(1;2);x` where `x` is a list: the list then holds its one, the new list, and
itself. -/
theorem chain_builds_one_list_nested :
    let x (offset : Nat) : Expr := .name ⟨.identifier, "x", offset, 1⟩
    let links : List Link :=
      [⟨⟨.semicolon, ";", 1, 1⟩, oneTwo⟩, ⟨⟨.semicolon, ";", 7, 1⟩, x 8⟩]
    (∃ w', evaluate ((x 0).chain links) oneListWorld = .ok (.list ⟨0⟩) w' ∧
      (w'.heap.get ⟨0⟩).toList = [.integer 1, .list ⟨1⟩, .list ⟨0⟩] ∧
      ∀ p, Creates oneListWorld w' p ↔
        Creates oneListWorld (after (evaluate oneTwo) oneListWorld) p) ∧
    Expr.parse (fun _ => none)
        ((x 0).tokens ++ links.flatMap Link.tokens ++ [⟨.endOfInput, "", 9, 1⟩]) =
      .ok [(x 0).chain links] := by
  intro x links
  let start := after (evaluate (.binary (x 0) ⟨.semicolon, ";", 1, 1⟩ oneTwo)) oneListWorld
  have hvisited : Visited oneListWorld (x 0)
      [⟨⟨⟨.semicolon, ";", 1, 1⟩, oneTwo⟩, .list ⟨1⟩, oneListWorld,
          after (evaluate oneTwo) oneListWorld⟩,
        ⟨⟨⟨.semicolon, ";", 7, 1⟩, x 8⟩, .list ⟨0⟩, start, start⟩] := by
    refine .more rfl rfl rfl ?_ (.more rfl rfl rfl ?_ .none)
    · rintro r u ⟨⟩
      unfold AppendsTo
      decide
    · rintro r u ⟨⟩
      unfold AppendsTo
      decide
  have hreads : ReadsAsChain (fun _ => none) ⟨.endOfInput, "", 9, 1⟩ (x 0) links := by
    have hx (offset : Nat) : Phrase (fun _ => none) (.operand true) (x offset) :=
      .application (.primary (.name rfl))
    have hpair : Phrase (fun _ => none) (.operand true) oneTwo :=
      .application (.primary (.group rfl (.series (.joined
        (.operand (.application (.primary (.literal rfl)))) (.inl rfl) rfl
        (.application (.primary (.literal rfl))))) rfl))
    refine ⟨by simp [links], ?_, by simp [links, x, oneTwo, Expr.chain, Expr.Longest]⟩
    simp only [links, List.map_cons, List.map_nil, List.forall_mem_cons]
    exact ⟨⟨hx 0, by decide⟩, ⟨hpair, by decide⟩, ⟨hx 8, by decide⟩, nofun⟩
  have hfirst : evaluate (x 0) oneListWorld = .ok (.list ⟨0⟩) oneListWorld := rfl
  obtain ⟨⟨q, w', hchain, hlist, -, -⟩, hparse⟩ :=
    chain_builds_one_list oneListWorld_reachable.closed hfirst hvisited (List.cons_ne_nil _ _)
  obtain ⟨rfl, hcontents, hcreates⟩ := hlist ⟨0⟩ rfl
  refine ⟨⟨w', hchain, hcontents, fun p => ?_⟩, hparse _ _ rfl hreads⟩
  have hnone : ¬ Creates start start p := fun h => h.2 h.1
  rw [hcreates]
  simp [hnone]

end ListCalc
