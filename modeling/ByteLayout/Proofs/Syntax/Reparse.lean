import Mathlib
import ByteLayout.Proofs.Syntax.Returns
import ByteLayout.Proofs.Syntax.Relex

set_option autoImplicit false

/-!
# Reading a printed expression back

The expression parser is the precedence ladder the printer writes for. An expression that the
printer can write (`Expr.Printable`) is written as its tokens, lexed back as those tokens
(`tokenize_spelled`), and parsed back as itself, up to spans, stopping at the token after it
(`expression_reparses`).

The parser has one function for each place of the ladder: the ternary, eleven binary levels,
prefix operators, casts and primaries (`Parse.atLevel`). The printer writes an operand with
parentheses exactly where its `Expr.prec` is below what its place requires, so the parser of
that place reads it: an expression whose own level is higher passes down the ladder to the
function that reads its outermost construct, and a parenthesised one passes down to the
primaries, which read the parentheses and start over at the top. A chain of operators of one
level is read by one call for the first operand and a loop that folds the others to the left
(`Expr.chain`). The token after an expression must not continue it where it stands
(`Token.Kind.Ends`): the printer only ever follows an expression by a closing bracket, a
comma, a `?` or `:` of a ternary, an operator of a looser level, or the final `;`.

The proof is one induction on the number of tokens: every part an expression is read from has
fewer tokens than the expression, and for one expression the places are taken in the order
the parser passes through them.

## Main definitions

* `Token.Kind.Ends` — a token that ends an expression where a level is required.
* `Parse.atLevel`, `Parse.levelFuel` — the parser of each place of the ladder, and the fuel it
  needs for a number of tokens.
* `Expr.ReadsAt` — the parser of a place reads the expression's tokens back as it.
* `Expr.chain` — an expression as a chain of operators of one level.

## Main results

* `Expr.readsAt` — every printable expression is read back at every place of the ladder.
* `expression_reparses` — the text of a printable expression, with `;` after it, is lexed and
  parsed back as the expression, and the parser stops at the `;`.
-/

namespace ByteLayout

/-! ### Where an expression ends -/

/-- A token that may follow an expression standing where the ladder requires level `r`: it
continues no name, member path or call, it is no `?` after a whole ternary, and no operator
that the parser of that place would read as its own. -/
def Token.Kind.Ends (r : Nat) (k : Token.Kind) : Prop :=
  k ≠ .symbol "." ∧ k ≠ .symbol "[" ∧ k ≠ .symbol "(" ∧ k ≠ .symbol "::" ∧
    (r = 0 → k ≠ .symbol "?") ∧ ∀ op : BinOp, r ≤ op.level + 1 → k ≠ .symbol op.symbol

@[simp] lemma BinOp.ofSymbol?_symbol (op : BinOp) : BinOp.ofSymbol? op.symbol = some op := by
  cases op <;> rfl

namespace Token.Kind

lemma Ends.mono {r r' : Nat} {k : Token.Kind} (h : k.Ends r) (hr : r ≤ r') : k.Ends r' :=
  ⟨h.1, h.2.1, h.2.2.1, h.2.2.2.1, fun h0 => h.2.2.2.2.1 (by omega),
    fun op hop => h.2.2.2.2.2 op (by omega)⟩

/-- A symbol ends a place when it is none of the four that continue a primary, no `?` where
a ternary may stand, and an operator only of a level looser than the place's. -/
lemma ends_symbol {r : Nat} {s : String} (hs : s ∉ [".", "[", "(", "::"])
    (hq : r = 0 → s ≠ "?") (hop : ∀ op, BinOp.ofSymbol? s = some op → op.level + 1 < r) :
    (Token.Kind.symbol s).Ends r := by
  simp only [List.mem_cons, List.not_mem_nil, or_false, not_or] at hs
  refine ⟨?_, ?_, ?_, ?_, fun h0 h => hq h0 (Token.Kind.symbol.inj h), fun op hr h => ?_⟩
  · exact fun h => hs.1 (Token.Kind.symbol.inj h)
  · exact fun h => hs.2.1 (Token.Kind.symbol.inj h)
  · exact fun h => hs.2.2.1 (Token.Kind.symbol.inj h)
  · exact fun h => hs.2.2.2 (Token.Kind.symbol.inj h)
  · have := hop op (by rw [Token.Kind.symbol.inj h, BinOp.ofSymbol?_symbol])
    omega

/-- A closing bracket, a comma, a colon or a semicolon ends every place. -/
lemma ends_closing {r : Nat} {s : String} (hs : s ∈ [")", "]", ",", ":", ";"]) :
    (Token.Kind.symbol s).Ends r := by
  simp only [List.mem_cons, List.not_mem_nil, or_false] at hs
  have hnone : BinOp.ofSymbol? s = none := by rcases hs with rfl | rfl | rfl | rfl | rfl <;> rfl
  refine ends_symbol ?_ ?_ fun op h => by simp [hnone] at h
  · rcases hs with rfl | rfl | rfl | rfl | rfl <;> simp
  · rintro - rfl
    simp at hs

/-- The `?` of a ternary ends every place but the whole ternary. -/
lemma ends_question {r : Nat} (hr : 0 < r) : (Token.Kind.symbol "?").Ends r :=
  ends_symbol (by simp) (by omega) fun op h => by
    simp [show BinOp.ofSymbol? "?" = none from rfl] at h

/-- An operator ends the places tighter than its own level. -/
lemma ends_op {r : Nat} (op : BinOp) (hr : op.level + 1 < r) :
    (Token.Kind.symbol op.symbol).Ends r :=
  ends_symbol (by cases op <;> simp [BinOp.symbol]) (by omega) fun op' h => by
    rw [BinOp.ofSymbol?_symbol, Option.some.injEq] at h
    rw [← h]
    exact hr

end Token.Kind

/-! ### Printed expressions -/

/-- The tokens a primary starts with: a literal, a name, `$`, `parent`, `this`, `addressof`
and `sizeof`. -/
def Token.Kind.OpensPrimary : Token.Kind → Prop
  | .int _ | .float _ | .str _ | .char _ | .bool _ | .ident _ => True
  | .keyword w => w = "parent" ∨ w = "this" ∨ w = "addressof" ∨ w = "sizeof"
  | .symbol s => s = "$"
  | _ => False

namespace Expr

lemma tokens_unary (op : UnaryOp) (x : Expr) (sp : Span) :
    (unary op x sp).tokens = .symbol op.symbol :: x.tokensAt 12 := rfl

lemma tokens_binary (op : BinOp) (l r : Expr) (sp : Span) :
    (binary op l r sp).tokens =
      l.tokensAt (op.level + 1) ++ .symbol op.symbol :: r.tokensAt (op.level + 2) := rfl

lemma tokens_ternary (c t f : Expr) (sp : Span) :
    (ternary c t f sp).tokens = c.tokensAt 1 ++ .symbol "?" :: t.tokens ++ .symbol ":" :: f.tokens :=
  rfl

lemma tokensAt_of_le {r : Nat} {e : Expr} (h : r ≤ e.prec) : e.tokensAt r = e.tokens := by
  simp [tokensAt, Token.parensIf, not_lt.mpr h]

lemma tokensAt_of_lt {r : Nat} {e : Expr} (h : e.prec < r) :
    e.tokensAt r = .symbol "(" :: e.tokens ++ [.symbol ")"] := by
  simp [tokensAt, Token.parensIf, h]

/-- The places on either side of a level other than the expression's own print it alike. -/
lemma tokensAt_succ {r : Nat} {e : Expr} (h : e.prec ≠ r) : e.tokensAt r = e.tokensAt (r + 1) := by
  rcases Nat.lt_or_gt_of_ne h with h | h
  · rw [tokensAt_of_lt h, tokensAt_of_lt (by omega)]
  · rw [tokensAt_of_le (by omega), tokensAt_of_le (by omega)]

lemma length_tokens_le_tokensAt (r : Nat) (e : Expr) : e.tokens.length ≤ (e.tokensAt r).length := by
  by_cases h : e.prec < r
  · simp only [tokensAt_of_lt h, List.length_cons, List.length_append]
    omega
  · rw [tokensAt_of_le (by omega)]

lemma AllPrintable.of_mem {as : List Expr} (h : Expr.AllPrintable as) {a : Expr} (ha : a ∈ as) :
    a.Printable := by
  induction as with
  | nil => simp at ha
  | cons b bs ih =>
    rcases List.mem_cons.mp ha with rfl | ha
    · exact h.1
    · exact ih h.2 ha

lemma length_tokens_le_argTokens {as : List Expr} {a : Expr} (ha : a ∈ as) (comma : Bool) :
    a.tokens.length ≤ (Expr.argTokens comma as).length := by
  induction as generalizing comma with
  | nil => simp at ha
  | cons b bs ih =>
    simp only [Expr.argTokens, List.length_append]
    rcases List.mem_cons.mp ha with rfl | ha
    · omega
    · have := ih ha true
      omega

end Expr

namespace PathSeg

lemma AllPrintable.of_index {segs : List PathSeg} (h : PathSeg.AllPrintable segs) {i : Expr}
    (hi : .index i ∈ segs) : i.Printable := by
  induction segs with
  | nil => simp at hi
  | cons seg rest ih =>
    have hrest : PathSeg.AllPrintable rest := by
      cases seg <;> simp only [PathSeg.AllPrintable] at h <;> simp [h]
    rcases List.mem_cons.mp hi with rfl | hi'
    · exact h.1
    · exact ih hrest hi'

lemma length_tokens_lt_pathTokens {segs : List PathSeg} {i : Expr} (hi : .index i ∈ segs)
    (dot : Bool) : i.tokens.length < (PathSeg.pathTokens dot segs).length := by
  induction segs generalizing dot with
  | nil => simp at hi
  | cons seg rest ih =>
    rcases List.mem_cons.mp hi with rfl | hi'
    · simp [PathSeg.pathTokens]
    · have := ih hi' true
      cases seg <;> simp [PathSeg.pathTokens] <;> omega

end PathSeg

namespace Expr

/-- Induction over printable expressions, from those with fewer tokens. -/
theorem printable_induction {motive : (e : Expr) → e.Printable → Prop}
    (h : ∀ e he, (∀ x hx, x.tokens.length < e.tokens.length → motive x hx) → motive e he)
    (e : Expr) (he : e.Printable) : motive e he := by
  induction hn : e.tokens.length using Nat.strong_induction_on generalizing e with
  | _ n ih => exact h e he fun x hx hlt => ih _ (hn ▸ hlt) x hx rfl

/-- The first token of a printed expression, by the expression's level: a primary's opens a
primary, a cast's is a byte order or a builtin type name, a prefix operation's is its
operator, and none is a closing parenthesis. -/
theorem tokens_head (e : Expr) (he : e.Printable) :
    ∃ k ks, e.tokens = k :: ks ∧ k ≠ .symbol ")" ∧ (e.prec = 14 → k.OpensPrimary) ∧
      (e.prec = 13 → k = .keyword "le" ∨ k = .keyword "be" ∨ ∃ b, k = .builtin b) ∧
      (e.prec = 12 → ∃ op : UnaryOp, k = .symbol op.symbol) := by
  induction e, he using printable_induction with
  | h e he ih =>
  -- the left operand of an operator or a ternary starts the expression, or its parenthesis
  have hleft : ∀ (x : Expr) r rest, x.Printable → x.tokens.length < e.tokens.length →
      ∃ k ks, x.tokensAt r ++ rest = k :: ks ∧ k ≠ .symbol ")" := by
    intro x r rest hx hlt
    by_cases hr : x.prec < r
    · exact ⟨_, _, by rw [tokensAt_of_lt hr]; rfl, by simp⟩
    · obtain ⟨k, ks, hks, hk, -⟩ := ih x hx hlt
      exact ⟨k, ks ++ rest, by rw [tokensAt_of_le (by omega), hks]; rfl, hk⟩
  cases e with
  | lit v sp => cases v <;> simp [Expr.tokens, Literal.token, Expr.prec, Token.Kind.OpensPrimary]
  | path segs sp =>
    obtain ⟨⟨s₀, rest, rfl, hstep, -⟩, -⟩ := he.1
    cases s₀ <;> simp_all [Expr.tokens, PathSeg.pathTokens, PathSeg.isStep, Expr.prec,
      Token.Kind.OpensPrimary]
  | cursor sp => simp [Expr.tokens, Expr.prec, Token.Kind.OpensPrimary]
  | unary op x sp =>
    exact ⟨_, _, rfl, by cases op <;> simp [UnaryOp.symbol], by simp [Expr.prec],
      by simp [Expr.prec], fun _ => ⟨op, rfl⟩⟩
  | binary op l r sp =>
    have hlen := length_tokens_le_tokensAt (op.level + 1) l
    obtain ⟨k, ks, hks, hk⟩ := hleft l (op.level + 1) _ he.1 (by simp [tokens_binary]; omega)
    have := op.level_lt
    refine ⟨k, ks, by rw [tokens_binary, hks], hk, ?_, ?_, ?_⟩ <;> simp [Expr.prec] <;> omega
  | ternary c t f sp =>
    have hlen := length_tokens_le_tokensAt 1 c
    obtain ⟨k, ks, hks, hk⟩ := hleft c 1 (.symbol "?" :: t.tokens ++ .symbol ":" :: f.tokens)
      he.1 (by simp [tokens_ternary]; omega)
    exact ⟨k, ks, by rw [tokens_ternary, ← hks]; simp, hk, by simp [Expr.prec]⟩
  | cast ty en x sp =>
    rcases en with _ | _ | _ <;> simp [Expr.tokens, Endian.tokens, Expr.prec]
  | scope ty m sp => exact he.elim
  | call n ns args sp => simp [Expr.tokens, Expr.prec, Token.Kind.OpensPrimary]
  | addressOf segs sp => simp [Expr.tokens, Expr.prec, Token.Kind.OpensPrimary]
  | sizeOfPath segs sp => simp [Expr.tokens, Expr.prec, Token.Kind.OpensPrimary]
  | sizeOfType ty sp => simp [Expr.tokens, Expr.prec, Token.Kind.OpensPrimary]

end Expr

/-! ### The parser, function by function -/

namespace Token.Kind

/-- The prefix operator a token is, if it is one. -/
def unaryOp? : Token.Kind → Option UnaryOp
  | .symbol s => UnaryOp.ofSymbol? s
  | _ => none

/-- Whether a token starts a cast: a byte order or a builtin type name. -/
def startsCast (k : Token.Kind) : Bool :=
  (TokenClass.kw "le").test k || (TokenClass.kw "be").test k || TokenClass.builtin.test k

lemma OpensPrimary.unaryOp?_eq_none {k : Token.Kind} (h : k.OpensPrimary) : k.unaryOp? = none := by
  cases k <;> simp only [OpensPrimary] at h <;> try rfl
  subst h
  rfl

lemma OpensPrimary.startsCast_eq_false {k : Token.Kind} (h : k.OpensPrimary) :
    k.startsCast = false := by
  cases k <;> simp only [OpensPrimary] at h <;> try rfl
  rcases h with rfl | rfl | rfl | rfl <;> rfl

end Token.Kind

/-- The token of a step of a path: a name, `parent` or `this`; an index has none. -/
def PathSeg.stepToken? : PathSeg → Option Token.Kind
  | .name n => some (.ident n)
  | .parent => some (.keyword "parent")
  | .current => some (.keyword "this")
  | .index _ => none

@[simp] lemma TokenClass.test_sym {x : String} {k : Token.Kind} :
    (TokenClass.sym x).test k = true ↔ k = .symbol x := by
  cases k <;> simp only [TokenClass.test, beq_iff_eq, Token.Kind.symbol.injEq, reduceCtorEq,
    Bool.false_eq_true]
  exact eq_comm

@[simp] lemma TokenClass.test_ident {k : Token.Kind} :
    TokenClass.ident.test k = true ↔ ∃ n, k = .ident n := by
  cases k <;> simp [TokenClass.test]

@[simp] lemma TokenClass.test_builtin {k : Token.Kind} :
    TokenClass.builtin.test k = true ↔ ∃ b, k = .builtin b := by
  cases k <;> simp [TokenClass.test]

@[simp] lemma TokenClass.test_kw {w : String} {k : Token.Kind} :
    (TokenClass.kw w).test k = true ↔ k = .keyword w := by
  cases k <;> simp only [TokenClass.test, beq_iff_eq, Token.Kind.keyword.injEq, reduceCtorEq,
    Bool.false_eq_true]
  exact eq_comm

namespace Parse

/-- Each level of the operator table lists operators of that level under their own
spellings. -/
lemma mem_binaryLevels {level : Nat} {p : String × BinOp} (h : p ∈ binaryLevels.getD level []) :
    p.2.level = level ∧ p.1 = p.2.symbol := by
  have table : ∀ l < binaryLevels.length, ∀ q ∈ binaryLevels.getD l [],
      q.2.level = l ∧ q.1 = q.2.symbol := by decide
  by_cases hl : level < binaryLevels.length
  · exact table level hl p h
  · simp [List.getD_eq_getElem?_getD, List.getElem?_eq_none (not_lt.mp hl)] at h

lemma lookup_binaryLevels_symbol (op : BinOp) :
    (binaryLevels.getD op.level []).lookup op.symbol = some op := by
  cases op <;> rfl

/-- The operator of a level at the position: none where the token is no operator of that
level. -/
lemma returns_levelOp? {level : Nat} {s : ParserState} (P : Option BinOp → ParserState → Prop) :
    Returns (levelOp? level) s P ↔
      P (match s.ahead 0 with
        | .symbol x => (binaryLevels.getD level []).lookup x
        | _ => none) s := by
  simp only [levelOp?, returns_bind, returns_kindAt]
  split <;> simp_all

lemma levelOp_of_ends {level : Nat} {k : Token.Kind} (h : k.Ends (level + 1)) :
    (match k with
      | .symbol x => (binaryLevels.getD level []).lookup x
      | _ => none) = none := by
  cases k with
  | symbol x =>
    simp only [List.lookup_eq_none_iff, bne_iff_ne, ne_eq]
    intro q hq hx
    obtain ⟨hlevel, hsym⟩ := mem_binaryLevels hq
    exact h.2.2.2.2.2 q.2 (by omega) (by rw [hx, hsym])
  | _ => rfl

lemma binary_succ_last (fuel : Nat) : binary (fuel + 1) 11 = unary fuel := by
  simp [binary, binaryLevels]

variable {s : ParserState} {P : Expr → ParserState → Prop}

lemma returns_binary_descend {fuel level : Nat} (hl : level < 11)
    (h : Returns (binary fuel (level + 1)) s fun l s' => Returns (binaryRest fuel level l) s' P) :
    Returns (binary (fuel + 1) level) s P := by
  simpa [binary, binaryLevels, hl] using h

lemma returns_binaryRest_stop {fuel level : Nat} {lhs : Expr} (h : (s.ahead 0).Ends (level + 1))
    (hp : P lhs s) : Returns (binaryRest (fuel + 1) level lhs) s P := by
  simp only [binaryRest, returns_bind, returns_levelOp?, levelOp_of_ends h]
  simpa using hp

lemma returns_binaryRest_op {fuel level : Nat} {op : BinOp} {lhs : Expr}
    (h : s.ahead 0 = .symbol op.symbol) (hl : op.level = level)
    (hr : Returns (binary fuel (level + 1)) (s.skip 1) fun r s' =>
      ∀ sp, Returns (binaryRest fuel level (.binary op lhs r sp)) s' P) :
    Returns (binaryRest (fuel + 1) level lhs) s P := by
  subst hl
  simp only [binaryRest, returns_bind, returns_levelOp?, h, lookup_binaryLevels_symbol,
    returns_advance]
  exact hr.mono fun r s' h' => h' _

lemma returns_unary_op {fuel : Nat} {op : UnaryOp} (h : s.ahead 0 = .symbol op.symbol)
    (hx : Returns (unary fuel) (s.skip 1) fun e s' => ∀ sp, P (.unary op e sp) s') :
    Returns (unary (fuel + 1)) s P := by
  have hop : UnaryOp.ofSymbol? op.symbol = some op := by cases op <;> rfl
  simp only [unary, returns_bind, returns_spanAt, returns_kindAt, h, hop, returns_advance]
  exact hx.mono fun e s' h' => by simpa using h' _

lemma returns_unary_cast {fuel : Nat} (h : (s.ahead 0).unaryOp? = none)
    (hx : Returns (cast fuel) s P) : Returns (unary (fuel + 1)) s P := by
  simp only [unary, returns_bind, returns_spanAt, returns_kindAt]
  cases hk : s.ahead 0 <;> simp_all [Token.Kind.unaryOp?]

lemma returns_cast_primary {fuel : Nat} (h : (s.ahead 0).startsCast = false)
    (hx : Returns (primary fuel) s P) : Returns (cast (fuel + 1)) s P := by
  simp only [Token.Kind.startsCast] at h
  simp only [cast, returns_bind, returns_kindAt, h, Bool.not_false, ↓reduceIte]
  exact hx

/-- A ternary: its condition at the loosest binary level, then, after a `?`, its branches. -/
lemma returns_ternary {fuel : Nat}
    (h : Returns (binary fuel 0) s fun c s₁ =>
      if s₁.ahead 0 = .symbol "?" then
        Returns (ternary fuel) (s₁.skip 1) fun t s₂ => s₂.ahead 0 = .symbol ":" ∧
          Returns (ternary fuel) (s₂.skip 1) fun f s₃ => ∀ sp, P (.ternary c t f sp) s₃
      else P c s₁) :
    Returns (ternary (fuel + 1)) s P := by
  simp only [ternary, returns_bind, returns_accept, List.zipIdx_cons, List.zipIdx_nil,
    List.all_cons, List.all_nil, Bool.and_true, Nat.zero_add, List.length_cons, List.length_nil]
  refine h.mono fun c s₁ h₁ => ?_
  by_cases hq : s₁.ahead 0 = .symbol "?"
  · simp only [hq, ↓reduceIte] at h₁
    simp only [hq, TokenClass.test, BEq.rfl, ↓reduceIte, Bool.not_true, Bool.false_eq_true,
      returns_bind, returns_accept, List.zipIdx_cons, List.zipIdx_nil, List.all_cons,
      List.all_nil, Bool.and_true, Nat.zero_add, List.length_cons, List.length_nil]
    refine h₁.mono fun t s₂ h₂ => ?_
    obtain ⟨hc, h₂⟩ := h₂
    simp only [hc, BEq.rfl, ↓reduceIte]
    exact h₂.mono fun f s₃ h₃ => by simpa using h₃ _
  · have hq' : (TokenClass.sym "?").test (s₁.ahead 0) = false :=
      Bool.eq_false_iff.mpr fun h => hq (TokenClass.test_sym.mp h)
    simp only [hq, ↓reduceIte] at h₁
    simpa [hq'] using h₁

@[simp] lemma literalOf?_token (v : Literal) : literalOf? v.token = some v := by
  cases v <;> rfl

/-- A literal is read as itself. -/
lemma returns_primary_lit {fuel : Nat} {l : Literal} (h : literalOf? (s.ahead 0) = some l)
    (hp : ∀ sp, P (.lit l sp) (s.skip 1)) : Returns (primary (fuel + 1)) s P := by
  simp only [primary, returns_bind, returns_spanAt, returns_kindAt, h, returns_advance,
    returns_pure]
  exact hp _

/-- An expression between parentheses is read as the expression. -/
lemma returns_primary_paren {fuel : Nat} (h : s.ahead 0 = .symbol "(")
    (hx : Returns (expr fuel) (s.skip 1) fun e s' => s'.ahead 0 = .symbol ")" ∧ P e (s'.skip 1)) :
    Returns (primary (fuel + 1)) s P := by
  simp only [primary, returns_bind, returns_spanAt, returns_kindAt, h, literalOf?,
    returns_accept, List.zipIdx_cons, List.zipIdx_nil, List.all_cons, List.all_nil,
    Bool.and_true, Nat.zero_add, TokenClass.test, BEq.rfl, ↓reduceIte, List.length_cons,
    List.length_nil]
  refine hx.mono fun e s' hp => ?_
  obtain ⟨hc, hp⟩ := hp
  simpa [hc, TokenClass.test] using hp

/-- The cursor `$`. -/
lemma returns_primary_cursor {fuel : Nat} (h : s.ahead 0 = .symbol "$")
    (hp : ∀ sp, P (.cursor sp) (s.skip 1)) : Returns (primary (fuel + 1)) s P := by
  have hn : ∀ n, s.ahead 0 ≠ .ident n := by simp [h]
  simp [primary, h, literalOf?, TokenClass.test, returns_peekCall_of_not_ident hn, hp]

/-- A call: a name and an opening parenthesis, then the arguments. -/
lemma returns_primary_call {fuel : Nat} {n : String} (h₀ : s.ahead 0 = .ident n)
    (h₁ : s.ahead 1 = .symbol "(") (hc : Returns (callWith (arguments fuel [])) s P) :
    Returns (primary (fuel + 1)) s P := by
  have h₁' : (TokenClass.sym "::").test (s.ahead 1) = false := by simp [h₁, TokenClass.test]
  simp only [primary, returns_bind, returns_spanAt, returns_kindAt, h₀, literalOf?,
    returns_accept, List.zipIdx_cons, List.zipIdx_nil, List.all_cons, List.all_nil,
    Bool.and_true, Nat.zero_add, TokenClass.test, Bool.false_eq_true, ↓reduceIte]
  rw [returns_peekCall h₀ h₁']
  simpa [h₁, TokenClass.test] using hc

/-- The call after its name: the name, then the arguments unless the parenthesis closes at
once. -/
lemma returns_callWith {args : Parse (List Expr)} {n : String} (h₀ : s.ahead 0 = .ident n)
    (h₁ : s.ahead 1 = .symbol "(")
    (ha : if s.ahead 2 = .symbol ")" then ∀ sp, P (.call n ("::".intercalate s.ns) [] sp) (s.skip 3)
      else Returns args (s.skip 2) fun as s' => ∀ sp, P (.call n ("::".intercalate s'.ns) as sp) s') :
    Returns (callWith args) s P := by
  have h₁' : (TokenClass.sym "::").test (s.ahead 1) = false := by simp [h₁, TokenClass.test]
  have hopen : (TokenClass.sym "(").test (s.ahead 1) = true := by simp [h₁]
  simp only [callWith, returns_bind, returns_spanAt]
  refine returns_namespacePath h₀ h₁' _ ?_
  simp only [returns_accept, List.zipIdx_cons, List.zipIdx_nil, List.all_cons, List.all_nil,
    Bool.and_true, Nat.zero_add, ParserState.ahead_skip, hopen, ↓reduceIte, List.length_cons,
    List.length_nil, Bool.false_eq_true, returns_bind, ParserState.skip_skip]
  simp only [TokenClass.test_sym, Nat.add_zero, Nat.reduceAdd, returns_pure, returns_get,
    returns_spanAt]
  by_cases hc : s.ahead 2 = .symbol ")"
  · rw [if_pos hc] at ha ⊢
    exact ha _
  · rw [if_neg hc] at ha ⊢
    exact ha.mono fun _ _ h => h _

/-- A member path: a name that no call or scope resolution follows, `parent` or `this`. -/
lemma returns_primary_path {fuel : Nat}
    (hk : (∃ n, s.ahead 0 = .ident n ∧ s.ahead 1 ≠ .symbol "(" ∧ s.ahead 1 ≠ .symbol "::") ∨
      s.ahead 0 = .keyword "parent" ∨ s.ahead 0 = .keyword "this")
    (hp : Returns (path fuel []) s fun segs s' => ∀ sp, P (.path segs sp) s') :
    Returns (primary (fuel + 1)) s P := by
  rcases hk with ⟨n, h₀, h₁, h₂⟩ | h₀ | h₀
  · have h₂' : (TokenClass.sym "::").test (s.ahead 1) = false :=
      Bool.eq_false_iff.mpr fun h => h₂ (TokenClass.test_sym.mp h)
    have h₁' : (TokenClass.sym "(").test (s.ahead 1) = false :=
      Bool.eq_false_iff.mpr fun h => h₁ (TokenClass.test_sym.mp h)
    simp only [primary, returns_bind, returns_spanAt, returns_kindAt, h₀, literalOf?]
    rw [returns_accept]
    simp only [List.zipIdx_cons, List.zipIdx_nil, List.all_cons, List.all_nil, Bool.and_true,
      Nat.zero_add, h₀, TokenClass.test, Bool.false_eq_true, ↓reduceIte, returns_bind]
    rw [returns_peekCall h₀ h₂']
    simp only [h₁', h₂', h₀, Bool.false_eq_true, ↓reduceIte, returns_bind, returns_peekAt,
      Bool.and_false]
    simp only [Bool.true_or, ↓reduceIte, returns_bind, returns_spanAt, returns_pure]
    exact hp.mono fun _ _ h => h _
  all_goals
    have hn : ∀ n, s.ahead 0 ≠ .ident n := by simp [h₀]
    simp [primary, h₀, literalOf?, returns_peekCall_of_not_ident hn, TokenClass.test]
    exact hp.mono fun _ _ h => h _

/-- `addressof` of a member path. -/
lemma returns_primary_addressOf {fuel : Nat} (h₀ : s.ahead 0 = .keyword "addressof")
    (h₁ : s.ahead 1 = .symbol "(")
    (hp : Returns (path fuel []) (s.skip 2) fun segs s' =>
      s'.ahead 0 = .symbol ")" ∧ ∀ sp, P (.addressOf segs sp) (s'.skip 1)) :
    Returns (primary (fuel + 1)) s P := by
  have hn : ∀ n, s.ahead 0 ≠ .ident n := by simp [h₀]
  simp only [primary, returns_bind, returns_spanAt, returns_kindAt, h₀, h₁, literalOf?,
    returns_accept, List.zipIdx_cons, List.zipIdx_nil, List.all_cons, List.all_nil,
    Bool.and_true, Nat.zero_add, returns_peekCall_of_not_ident hn, returns_peekAt,
    TokenClass.test, String.reduceBEq, Bool.false_eq_true, ↓reduceIte, Bool.or_false,
    Bool.and_false, returns_pure, closeOperand, List.length_cons, List.length_nil, Nat.reduceAdd]
  refine hp.mono fun segs s' ⟨hc, h⟩ => ?_
  simp only [hc, String.reduceBEq, ↓reduceIte]
  exact h _

/-- `sizeof` of a member path. -/
lemma returns_primary_sizeOfPath {fuel : Nat} (h₀ : s.ahead 0 = .keyword "sizeof")
    (h₁ : s.ahead 1 = .symbol "(") (h₂ : ∀ b, s.ahead 2 ≠ .builtin b)
    (hp : Returns (path fuel []) (s.skip 2) fun segs s' =>
      s'.ahead 0 = .symbol ")" ∧ ∀ sp, P (.sizeOfPath segs sp) (s'.skip 1)) :
    Returns (primary (fuel + 1)) s P := by
  have hn : ∀ n, s.ahead 0 ≠ .ident n := by simp [h₀]
  simp only [primary, returns_bind, returns_spanAt, returns_kindAt, h₀, h₁, literalOf?,
    returns_accept, List.zipIdx_cons, List.zipIdx_nil, List.all_cons, List.all_nil,
    Bool.and_true, Nat.zero_add, returns_peekCall_of_not_ident hn, returns_peekAt,
    Bool.and_eq_true, Bool.or_eq_true, TokenClass.test_sym, TokenClass.test_kw,
    TokenClass.test_ident, TokenClass.test_builtin, Token.Kind.symbol.injEq,
    Token.Kind.keyword.injEq, reduceCtorEq, String.reduceEq, exists_const, and_false, or_false,
    ↓reduceIte, returns_pure, closeOperand, List.length_cons, List.length_nil, Nat.reduceAdd,
    ParserState.ahead_skip, h₂, and_true]
  refine hp.mono fun segs s' h => ?_
  obtain ⟨hc, h⟩ := h
  simp only [hc, ↓reduceIte]
  exact h _

/-- `sizeof` of a builtin type. -/
lemma returns_primary_sizeOfType {fuel : Nat} {b : Builtin} (h₀ : s.ahead 0 = .keyword "sizeof")
    (h₁ : s.ahead 1 = .symbol "(") (h₂ : s.ahead 2 = .builtin b) (h₃ : s.ahead 3 = .symbol ")")
    (hp : ∀ sp, P (.sizeOfType b sp) (s.skip 4)) :
    Returns (primary (fuel + 1)) s P := by
  have hn : ∀ n, s.ahead 0 ≠ .ident n := by simp [h₀]
  simp only [primary, returns_bind, returns_spanAt, returns_kindAt, h₀, h₁, literalOf?,
    returns_accept, List.zipIdx_cons, List.zipIdx_nil, List.all_cons, List.all_nil,
    Bool.and_true, Nat.zero_add, returns_peekCall_of_not_ident hn, returns_peekAt,
    Bool.and_eq_true, Bool.or_eq_true, TokenClass.test_sym, TokenClass.test_kw,
    TokenClass.test_ident, TokenClass.test_builtin, Token.Kind.symbol.injEq,
    Token.Kind.keyword.injEq, Token.Kind.builtin.injEq, reduceCtorEq, String.reduceEq,
    exists_const, exists_eq', and_false, or_false, ↓reduceIte, returns_pure, closeOperand,
    List.length_cons, List.length_nil, Nat.reduceAdd, ParserState.ahead_skip, h₂, h₃, and_true,
    builtinBefore, ParserState.skip_skip, returns_kindBefore_skip 1 3 (by omega), Nat.add_zero]
  exact hp _

/-- A builtin type after a byte order, if there is one, is used as itself. -/
lemma returns_typeUse_builtin {en : Option Endian} {b : Builtin} {Q : TypeDecl → ParserState → Prop}
    (h : s.Ahead (Endian.tokens en ++ [.builtin b]))
    (hq : ∀ sp, Q (TypeDecl.ofBuiltin b en sp) (s.skip ((Endian.tokens en).length + 1))) :
    Returns (typeUse true) s Q := by
  have h₀ := h 0 (by rcases en with _ | _ | _ <;> simp [Endian.tokens])
  rcases en with _ | e
  · simp only [Endian.tokens, List.nil_append, List.getElem_cons_zero] at h₀
    simp only [typeUse, returns_bind, returns_spanAt, returns_accept, List.zipIdx_cons,
      List.zipIdx_nil, List.all_cons, List.all_nil, Bool.and_true, Nat.zero_add, h₀,
      TokenClass.test_kw, TokenClass.test_ident, TokenClass.test_builtin, reduceCtorEq,
      exists_false, Bool.false_eq_true, ↓reduceIte, returns_pure, returns_peekAt,
      Token.Kind.builtin.injEq, exists_eq', builtinBefore, List.length_cons, List.length_nil,
      returns_kindBefore_skip 1 1 le_rfl, Nat.sub_self, Bool.not_true, Bool.false_and]
    exact hq _
  · have h₁ := h 1 (by cases e <;> simp [Endian.tokens])
    cases e <;> simp only [Endian.tokens, List.cons_append, List.nil_append,
      List.getElem_cons_zero, List.getElem_cons_succ] at h₀ h₁ <;>
    simp only [typeUse, returns_bind, returns_spanAt, returns_accept, List.zipIdx_cons,
      List.zipIdx_nil, List.all_cons, List.all_nil, Bool.and_true, Nat.zero_add, h₀,
      TokenClass.test_kw, TokenClass.test_ident, TokenClass.test_builtin, reduceCtorEq,
      exists_false, Bool.false_eq_true, ↓reduceIte, returns_pure, returns_peekAt,
      Token.Kind.builtin.injEq, exists_eq', builtinBefore, List.length_cons, List.length_nil,
      returns_kindBefore_skip 1 2 (by omega), Bool.not_true, Bool.false_and,
      ParserState.ahead_skip, ParserState.skip_skip, h₁, Token.Kind.keyword.injEq,
      String.reduceEq] <;>
    exact hq _

/-- A cast: a byte order if there is one, a builtin type name, then a primary that opens
with a parenthesis. -/
lemma returns_cast_builtin {fuel : Nat} {en : Option Endian} {b : Builtin}
    (h : s.Ahead (Endian.tokens en ++ [.builtin b] ++ [.symbol "("]))
    (hx : Returns (primary fuel) (s.skip ((Endian.tokens en).length + 1)) fun e s' =>
      ∀ sp, P (.cast b en e sp) s') :
    Returns (cast (fuel + 1)) s P := by
  have hstart : (s.ahead 0).startsCast = true := by
    have h₀ := h 0 (by simp)
    rcases en with _ | _ | _ <;> simp_all [Endian.tokens, Token.Kind.startsCast, TokenClass.test]
  have hparen : s.ahead ((Endian.tokens en).length + 1) = .symbol "(" := by
    simpa using h.ahead_append 0 (by simp)
  simp only [Token.Kind.startsCast] at hstart
  simp only [cast, returns_bind, returns_kindAt, hstart, Bool.not_true, Bool.false_eq_true,
    ↓reduceIte, returns_spanAt]
  refine returns_typeUse_builtin h.left fun sp => ?_
  have hempty : "".isEmpty = true := rfl
  simp only [TypeDecl.ofBuiltin, TypeDecl.asBuiltin?, hempty, ↓reduceIte, returns_bind,
    returns_peekAt, ParserState.ahead_skip, Nat.add_zero, hparen, TokenClass.test_sym,
    returns_pure]
  exact hx.mono fun _ _ h => h _

lemma returns_expr {fuel : Nat} (h : Returns (ternary fuel) s P) :
    Returns (expr (fuel + 1)) s P := by
  simpa [expr] using h

/-- How a path goes on after a segment: another step after a point, else the path ends. -/
def pathNext (fuel : Nat) (acc : List PathSeg) (s : ParserState)
    (Q : List PathSeg → ParserState → Prop) : Prop :=
  if s.ahead 0 = .symbol "." then Returns (path fuel acc) (s.skip 1) Q else Q acc s

lemma pathNext.mono {fuel : Nat} {acc : List PathSeg} {Q Q' : List PathSeg → ParserState → Prop}
    (h : pathNext fuel acc s Q) (hQ : ∀ a s', Q a s' → Q' a s') : pathNext fuel acc s Q' := by
  unfold pathNext at h ⊢
  by_cases h0 : s.ahead 0 = .symbol "."
  · simp only [h0, ↓reduceIte] at h ⊢
    exact h.mono hQ
  · simp only [h0, ↓reduceIte] at h ⊢
    exact hQ _ _ h

/-- One step of a path: a name, `parent` or, first only, `this`; then an index if a bracket
follows; then the rest of the path. -/
lemma returns_path_step {fuel : Nat} {acc : List PathSeg} {seg : PathSeg}
    {Q : List PathSeg → ParserState → Prop}
    (h₀ : seg.stepToken? = some (s.ahead 0)) (hcur : seg = .current → acc = [])
    (hrest : if s.ahead 1 = .symbol "[" then
        Returns (expr fuel) (s.skip 2) fun i s' => s'.ahead 0 = .symbol "]" ∧
          pathNext fuel (acc ++ [seg, .index i]) (s'.skip 1) Q
      else pathNext fuel (acc ++ [seg]) (s.skip 1) Q) :
    Returns (path (fuel + 1) acc) s Q := by
  cases seg
  case index i => simp [PathSeg.stepToken?] at h₀
  all_goals
    simp only [PathSeg.stepToken?, Option.some.injEq] at h₀
    simp only [path, returns_bind, returns_accept, List.zipIdx_cons, List.zipIdx_nil,
      List.all_cons, List.all_nil, Bool.and_true, Nat.zero_add, ← h₀, TokenClass.test_ident,
      TokenClass.test_kw, Token.Kind.ident.injEq, Token.Kind.keyword.injEq, reduceCtorEq,
      String.reduceEq, exists_eq', exists_false, Bool.false_eq_true, ↓reduceIte,
      List.length_cons, List.length_nil, identBefore, returns_kindBefore_skip 1 1 le_rfl,
      Nat.sub_self, returns_pure, hcur, List.isEmpty_nil]
    simp only [pathNext] at hrest
    simpa [TokenClass.test_sym, List.append_assoc, hcur] using hrest

/-- One argument of a call: an expression, then the closing parenthesis, or a comma and more
arguments. -/
lemma returns_arguments_step {fuel : Nat} {acc : List Expr} {Q : List Expr → ParserState → Prop}
    (h : Returns (expr fuel) s fun a s' =>
      (s'.ahead 0 = .symbol ")" ∧ Q (acc ++ [a]) (s'.skip 1)) ∨
      (s'.ahead 0 = .symbol "," ∧ s'.ahead 1 ≠ .symbol ")" ∧
        Returns (arguments fuel (acc ++ [a])) (s'.skip 1) Q)) :
    Returns (arguments (fuel + 1) acc) s Q := by
  simp only [arguments, returns_bind]
  refine h.mono fun a s' h' => ?_
  rcases h' with ⟨hc, hq⟩ | ⟨hc, hn, hr⟩
  · simpa [hc] using hq
  · simpa [hc, hn] using hr

end Parse

/-! ### Reading an expression at a level of the ladder -/

namespace Parse

/-- The parser for a place that requires level `r` of the ladder: the ternary at 0, the
binary levels from 1 to 11, prefix operators at 12, casts at 13 and primaries at 14. -/
def atLevel (fuel r : Nat) : Parse Expr :=
  if r = 0 then ternary fuel else if r ≤ 12 then binary fuel (r - 1)
  else if r = 13 then cast fuel else primary fuel

/-- Fuel enough to read `n` tokens at level `r`: sixteen for each token, and one for each
level the parser passes through on its way down to a primary. -/
def levelFuel (r n : Nat) : Nat := 16 * n + if r ≤ 12 then 15 - r else 14 - r

lemma atLevel_zero (fuel : Nat) : atLevel fuel 0 = ternary fuel := rfl

lemma atLevel_succ {fuel r : Nat} (h : r < 12) : atLevel fuel (r + 1) = binary fuel r := by
  simp [atLevel, show r + 1 ≤ 12 by omega]

lemma levelFuel_succ {r : Nat} (n : Nat) (h : r < 12) : levelFuel r n = levelFuel (r + 1) n + 1 := by
  simp only [levelFuel, show r ≤ 12 by omega, show r + 1 ≤ 12 by omega, ↓reduceIte]
  omega

lemma levelFuel_twelve (n : Nat) : levelFuel 12 n = levelFuel 13 n + 2 := by
  simp [levelFuel]

lemma levelFuel_thirteen (n : Nat) : levelFuel 13 n = levelFuel 14 n + 1 := by
  simp [levelFuel]

lemma levelFuel_fourteen (n : Nat) : levelFuel 14 n = 16 * n := by
  simp [levelFuel]

lemma atLevel_twelve (fuel : Nat) : atLevel fuel 12 = binary fuel 11 := rfl

lemma atLevel_cast (fuel : Nat) : atLevel fuel 13 = cast fuel := rfl

lemma atLevel_primary (fuel : Nat) : atLevel fuel 14 = primary fuel := rfl

end Parse

namespace Expr

open Parse

/-- The parser at level `r` reads the tokens of the expression at that level back as the
expression, with its spans aside: from every state with those tokens ahead and, after them, a
token that ends an expression at that level, given enough fuel. -/
def ReadsAt (r : Nat) (e : Expr) : Prop :=
  ∀ (s : ParserState) (fuel : Nat), s.ns = [] → s.Ahead (e.tokensAt r) →
    (s.ahead (e.tokensAt r).length).Ends r → levelFuel r (e.tokensAt r).length ≤ fuel →
    Returns (atLevel fuel r) s fun e' s' =>
      e'.unspan = e.unspan ∧ s' = s.skip (e.tokensAt r).length

/-- At a level the expression is not at, the parser passes the expression on to the next
level: a ternary's condition without its `?`, a binary level's first operand without an
operator of the level, a prefix level's token that is no prefix operator, a cast level's
token that starts no cast. -/
theorem ReadsAt.of_succ {r : Nat} {e : Expr} (h : e.ReadsAt (r + 1)) (hr : e.prec ≠ r)
    (h14 : r < 14)
    (hhead : r = 12 ∨ r = 13 → ∃ k ks, e.tokensAt r = k :: ks ∧
      (r = 12 → k.unaryOp? = none) ∧ (r = 13 → k.startsCast = false)) :
    e.ReadsAt r := by
  intro s fuel hns ha hend hfuel
  rw [tokensAt_succ hr] at ha hend hfuel hhead ⊢
  have hend' := hend.mono (Nat.le_succ r)
  rcases Nat.lt_or_ge r 12 with hlt | hge
  · rw [levelFuel_succ _ hlt] at hfuel
    obtain ⟨f, rfl⟩ : ∃ f, fuel = f + 1 := ⟨fuel - 1, by omega⟩
    rcases Nat.eq_zero_or_pos r with rfl | hpos
    -- the ternary level: a condition that no `?` follows is the whole expression
    · rw [atLevel_zero]
      refine returns_ternary ?_
      rw [← atLevel_succ hlt]
      refine (h s f hns ha hend' (by omega)).mono fun e' s' ⟨he', hs'⟩ => ?_
      have hq : s'.ahead 0 ≠ .symbol "?" := by
        rw [hs', ParserState.ahead_skip, Nat.add_zero]
        exact hend.2.2.2.2.1 rfl
      simp only [hq, ↓reduceIte]
      exact ⟨he', hs'⟩
    -- a binary level: a first operand that no operator of the level follows
    · obtain ⟨r, rfl⟩ : ∃ q, r = q + 1 := ⟨r - 1, by omega⟩
      rw [atLevel_succ (by omega)]
      refine returns_binary_descend (by omega) ?_
      rw [← atLevel_succ hlt]
      have hf : 1 ≤ f := by simp only [levelFuel] at hfuel; split at hfuel <;> omega
      obtain ⟨g, rfl⟩ : ∃ g, f = g + 1 := ⟨f - 1, by omega⟩
      refine (h s (g + 1) hns ha hend' (by omega)).mono fun e' s' ⟨he', hs'⟩ => ?_
      refine returns_binaryRest_stop ?_ ⟨he', hs'⟩
      rw [hs', ParserState.ahead_skip, Nat.add_zero]
      exact hend
  · obtain ⟨k, ks, hks, hk12, hk13⟩ := hhead (by omega)
    have h0 : s.ahead 0 = k := by
      rw [hks] at ha
      exact ha.head
    rcases Nat.lt_or_ge r 13 with hlt' | hge'
    -- the prefix level: a token that is no prefix operator goes on to the casts
    · obtain rfl : r = 12 := by omega
      simp only [Nat.reduceAdd] at h ha hend' hfuel ⊢
      rw [levelFuel_twelve] at hfuel
      obtain ⟨g, rfl⟩ : ∃ g, fuel = g + 1 + 1 := ⟨fuel - 2, by omega⟩
      rw [atLevel_twelve, binary_succ_last]
      refine returns_unary_cast (by rw [h0]; exact hk12 rfl) ?_
      exact h s g hns ha hend' (by omega)
    -- the cast level: a token that starts no cast goes on to the primaries
    · obtain rfl : r = 13 := by omega
      simp only [Nat.reduceAdd] at h ha hend' hfuel ⊢
      rw [levelFuel_thirteen] at hfuel
      obtain ⟨g, rfl⟩ : ∃ g, fuel = g + 1 := ⟨fuel - 1, by omega⟩
      rw [atLevel_cast]
      refine returns_cast_primary (by rw [h0]; exact hk13 rfl) ?_
      exact h s g hns ha hend' (by omega)

/-- A primary reads an expression between parentheses as the expression, whatever follows the
closing one. -/
theorem ReadsAt.paren {e : Expr} (h : e.ReadsAt 0) (s : ParserState) (fuel : Nat)
    (hns : s.ns = []) (ha : s.Ahead (.symbol "(" :: e.tokens ++ [.symbol ")"]))
    (hfuel : 16 * (e.tokens.length + 2) ≤ fuel) :
    Returns (primary fuel) s fun e' s' =>
      e'.unspan = e.unspan ∧ s' = s.skip (e.tokens.length + 2) := by
  obtain ⟨f, rfl⟩ : ∃ f, fuel = f + 1 + 1 := ⟨fuel - 2, by omega⟩
  have h0 : e.tokensAt 0 = e.tokens := tokensAt_of_le (Nat.zero_le _)
  have hin : (s.skip 1).Ahead (e.tokens ++ [.symbol ")"]) := ha.tail
  have hclose : (s.skip 1).ahead e.tokens.length = .symbol ")" := by
    simpa using hin.ahead_append 0 (by simp)
  refine returns_primary_paren ha.head (returns_expr ?_)
  rw [← atLevel_zero]
  refine (h (s.skip 1) f hns (h0 ▸ hin.left) ?_ ?_).mono fun e' s' ⟨he', hs'⟩ => ⟨?_, he', ?_⟩
  · rw [h0, hclose]
    exact Token.Kind.ends_closing (by simp)
  · rw [h0]
    simp only [levelFuel, Nat.zero_le, ↓reduceIte]
    omega
  · rw [hs', h0, ParserState.ahead_skip, Nat.add_zero]
    exact hclose
  · rw [hs', h0, ParserState.skip_skip, ParserState.skip_skip]
    congr 1
    omega

/-- An expression below the primaries, in parentheses where a primary is required, is read
back by the primaries. -/
theorem ReadsAt.fourteen_of_zero {e : Expr} (h : e.ReadsAt 0) (hp : e.prec < 14) :
    e.ReadsAt 14 := by
  intro s fuel hns ha _ hfuel
  rw [tokensAt_of_lt hp] at ha hfuel ⊢
  rw [levelFuel_fourteen] at hfuel
  refine (h.paren s fuel hns ha (by simpa using hfuel)).mono fun e' s' ⟨he', hs'⟩ => ⟨he', ?_⟩
  rw [hs']
  simp

/-! #### The primaries -/

lemma tokensAt_fourteen {e : Expr} (h : e.prec = 14) : e.tokensAt 14 = e.tokens :=
  tokensAt_of_le h.ge

theorem readsAt_lit (v : Literal) (sp : Span) : (lit v sp).ReadsAt 14 := by
  intro s fuel _ ha _ hfuel
  rw [tokensAt_fourteen rfl] at ha hfuel ⊢
  rw [levelFuel_fourteen] at hfuel
  obtain ⟨f, rfl⟩ : ∃ f, fuel = f + 1 := ⟨fuel - 1, by simp [Expr.tokens] at hfuel; omega⟩
  rw [atLevel_primary]
  refine returns_primary_lit (by rw [ha.head]; exact literalOf?_token v) fun _ => ⟨?_, rfl⟩
  simp [Expr.unspan]

theorem readsAt_cursor (sp : Span) : (cursor sp).ReadsAt 14 := by
  intro s fuel _ ha _ hfuel
  rw [tokensAt_fourteen rfl] at ha hfuel ⊢
  rw [levelFuel_fourteen] at hfuel
  obtain ⟨f, rfl⟩ : ∃ f, fuel = f + 1 := ⟨fuel - 1, by simp [Expr.tokens] at hfuel; omega⟩
  rw [atLevel_primary]
  refine returns_primary_cursor ha.head fun _ => ⟨?_, rfl⟩
  simp [Expr.unspan]

theorem readsAt_sizeOfType (b : Builtin) (sp : Span) : (sizeOfType b sp).ReadsAt 14 := by
  intro s fuel _ ha _ hfuel
  rw [tokensAt_fourteen rfl] at ha hfuel ⊢
  rw [levelFuel_fourteen] at hfuel
  obtain ⟨f, rfl⟩ : ∃ f, fuel = f + 1 := ⟨fuel - 1, by simp [Expr.tokens] at hfuel; omega⟩
  simp only [Expr.tokens] at ha
  rw [atLevel_primary]
  refine returns_primary_sizeOfType (ha 0 (by simp)) (ha 1 (by simp)) (ha 2 (by simp))
    (ha 3 (by simp)) fun _ => ⟨?_, rfl⟩
  simp [Expr.unspan]

end Expr

/-! #### Member paths -/

namespace PathSeg

open Parse

lemma stepToken?_of_isStep {seg : PathSeg} (h : seg.isStep) : ∃ k, seg.stepToken? = some k := by
  cases seg <;> simp_all [stepToken?, isStep]

lemma pathTokens_step {seg : PathSeg} {k : Token.Kind} (h : seg.stepToken? = some k) (dot : Bool)
    (rest : List PathSeg) :
    pathTokens dot (seg :: rest) = (if dot then [.symbol "."] else []) ++ k :: pathTokens true rest := by
  cases seg <;> simp_all [stepToken?, pathTokens]

lemma pathTokens_index (i : Expr) (dot : Bool) (rest : List PathSeg) :
    pathTokens dot (.index i :: rest) = .symbol "[" :: i.tokens ++ .symbol "]" :: pathTokens true rest := by
  simp [pathTokens]

/-- After a segment, the rest of a path starts with a point or a bracket, if it has tokens. -/
lemma pathTokens_true_cases (rest : List PathSeg) :
    pathTokens true rest = [] ∨
      ∃ ks, pathTokens true rest = .symbol "." :: ks ∨ pathTokens true rest = .symbol "[" :: ks := by
  rcases rest with _ | ⟨t, rest⟩
  · simp [pathTokens]
  · cases t <;> simp [pathTokens]

/-- Before a step, the point is the only difference a point makes. -/
lemma pathTokens_true {seg : PathSeg} (h : seg.isStep) (rest : List PathSeg) :
    pathTokens true (seg :: rest) = .symbol "." :: pathTokens false (seg :: rest) := by
  obtain ⟨k, hk⟩ := stepToken?_of_isStep h
  simp [pathTokens_step hk]

/-- Segments the path parser reads from a step on, after the segments `acc` it has read: a
step first, `this` only as the first segment of the whole path, and no index right after an
index. -/
def ReadableAfter (acc segs : List PathSeg) : Prop :=
  (∃ s₀ rest, segs = s₀ :: rest ∧ s₀.isStep ∧ (s₀.isCurrent → acc = []) ∧
    ∀ t ∈ rest, t.isCurrent = false) ∧ segs.IsChain fun a b => a.isStep ∨ b.isStep

lemma WellShaped.readableAfter {segs : List PathSeg} (h : WellShaped segs) : ReadableAfter [] segs := by
  obtain ⟨⟨s₀, rest, rfl, hstep, hcur⟩, hchain⟩ := h
  exact ⟨⟨s₀, rest, rfl, hstep, fun _ => rfl, hcur⟩, hchain⟩

/-- After a step, and after the index that may follow it, the rest of a readable path is
readable again, after what has been read. -/
lemma ReadableAfter.rest {acc acc' : List PathSeg} {s₀ t : PathSeg} {rest : List PathSeg}
    (h : ReadableAfter acc (s₀ :: t :: rest)) (ht : t.isStep) : ReadableAfter acc' (t :: rest) := by
  obtain ⟨⟨_, _, he, -, -, hcur⟩, hchain⟩ := h
  obtain ⟨rfl, rfl⟩ := List.cons.inj he
  refine ⟨⟨t, rest, rfl, ht, fun h => ?_, fun u hu => hcur u (by simp [hu])⟩, hchain.tail⟩
  simp [hcur t (by simp)] at h

/-- After a step and its index, the rest of a readable path starts with a step. -/
lemma ReadableAfter.rest_index {acc acc' : List PathSeg} {s₀ t : PathSeg} {i : Expr}
    {rest : List PathSeg} (h : ReadableAfter acc (s₀ :: .index i :: t :: rest)) :
    t.isStep ∧ ReadableAfter acc' (t :: rest) := by
  obtain ⟨⟨_, _, he, -, -, hcur⟩, hchain⟩ := h
  obtain ⟨rfl, rfl⟩ := List.cons.inj he
  have ht : t.isStep := by
    have := (List.isChain_cons_cons.mp hchain.tail).1
    simpa [isStep] using this
  refine ⟨ht, ⟨t, rest, rfl, ht, fun h => ?_, fun u hu => hcur u (by simp [hu])⟩,
    hchain.tail.tail⟩
  simp [hcur t (by simp)] at h

/-- How a path goes on after a step and its index: a readable rest after a point, or the end of
the path, where neither a point nor a bracket follows. -/
theorem readsPath_next {n fuel : Nat}
    (ih : ∀ m < n, ∀ (segs : List PathSeg), (∀ i, .index i ∈ segs → i.ReadsAt 0) →
      ∀ (acc : List PathSeg) (s : ParserState) (fuel : Nat), ReadableAfter acc segs → s.ns = [] →
      s.Ahead (pathTokens false segs) → s.ahead (pathTokens false segs).length ≠ .symbol "." →
      s.ahead (pathTokens false segs).length ≠ .symbol "[" →
      16 * (pathTokens false segs).length ≤ fuel + 1 → segs.length = m →
      Returns (path fuel acc) s fun segs' s' =>
        segs'.map unspan = acc.map unspan ++ segs.map unspan ∧
          s' = s.skip (pathTokens false segs).length)
    (acc rest : List PathSeg) (s : ParserState) (hn : rest.length < n)
    (hr : rest = [] ∨ ReadableAfter acc rest) (hix : ∀ i, .index i ∈ rest → i.ReadsAt 0)
    (hns : s.ns = []) (ha : s.Ahead (pathTokens true rest))
    (hdot : s.ahead (pathTokens true rest).length ≠ .symbol ".")
    (hbr : s.ahead (pathTokens true rest).length ≠ .symbol "[")
    (hfuel : 16 * (pathTokens true rest).length ≤ fuel) :
    pathNext fuel acc s fun segs' s' =>
      segs'.map unspan = acc.map unspan ++ rest.map unspan ∧
        s' = s.skip (pathTokens true rest).length := by
  rcases hr with rfl | hr
  · simp only [pathTokens, List.length_nil] at hdot
    simp [pathNext, hdot, pathTokens]
  · obtain ⟨t, rest', rfl, ht, -⟩ := hr.1
    rw [pathTokens_true ht] at ha hdot hbr hfuel ⊢
    simp only [List.length_cons] at hdot hbr hfuel ⊢
    simp only [pathNext, ha.head, ↓reduceIte]
    refine (ih _ hn _ hix acc (s.skip 1) fuel hr hns ha.tail ?_ ?_ (by omega) rfl).mono
      fun segs' s' ⟨hsegs, hs'⟩ => ⟨hsegs, ?_⟩
    · simpa [Nat.add_comm] using hdot
    · simpa [Nat.add_comm] using hbr
    · rw [hs', ParserState.skip_skip, Nat.add_comm]

/-- The path parser reads the tokens of a readable path back as its segments, after those it
has read, when every index is read back as itself and neither a point nor a bracket follows. -/
theorem readsPath (segs : List PathSeg) (hix : ∀ i, .index i ∈ segs → i.ReadsAt 0)
    (acc : List PathSeg) (s : ParserState) (fuel : Nat) (hr : ReadableAfter acc segs)
    (hns : s.ns = []) (ha : s.Ahead (pathTokens false segs))
    (hdot : s.ahead (pathTokens false segs).length ≠ .symbol ".")
    (hbr : s.ahead (pathTokens false segs).length ≠ .symbol "[")
    (hfuel : 16 * (pathTokens false segs).length ≤ fuel + 1) :
    Returns (path fuel acc) s fun segs' s' =>
      segs'.map unspan = acc.map unspan ++ segs.map unspan ∧
        s' = s.skip (pathTokens false segs).length := by
  induction hn : segs.length using Nat.strong_induction_on generalizing segs acc s fuel with
  | _ n ih =>
  obtain ⟨s₀, rest, rfl, hstep, hcur, -⟩ := hr.1
  obtain ⟨k, hk⟩ := stepToken?_of_isStep hstep
  rw [pathTokens_step hk] at ha hdot hbr hfuel ⊢
  simp only [Bool.false_eq_true, ↓reduceIte, List.nil_append, List.length_cons] at *
  obtain ⟨f, rfl⟩ : ∃ f, fuel = f + 1 := ⟨fuel - 1, by omega⟩
  refine returns_path_step (by rw [ha.head]; exact hk) (fun h => hcur (by simp [h, isCurrent])) ?_
  have hix' : ∀ i, .index i ∈ rest → i.ReadsAt 0 := fun i hi => hix i (by simp [hi])
  -- the segments after the step: none, an index and more, or another step
  rcases rest with _ | ⟨t, rest⟩
  · simp only [pathTokens, List.length_nil, Nat.zero_add] at hbr hdot ha
    rw [if_neg hbr]
    refine (readsPath_next ih (acc ++ [s₀]) [] (s.skip 1) (by simp at hn ⊢; omega) (Or.inl rfl)
      (by simp) hns (by simp [pathTokens, ParserState.Ahead.nil]) (by simpa [pathTokens] using hdot)
      (by simpa [pathTokens] using hbr) (by simp [pathTokens])).mono
      fun segs' s' ⟨hsegs, hs'⟩ => ⟨by simpa using hsegs, by simpa [pathTokens] using hs'⟩
  by_cases ht : t.isStep
  · have h1 : s.ahead 1 = .symbol "." := by
      have hrest := ha.tail
      rw [pathTokens_true ht] at hrest
      simpa using hrest.head
    rw [if_neg (by rw [h1]; simp)]
    refine (readsPath_next ih (acc ++ [s₀]) (t :: rest) (s.skip 1) (by simp at hn ⊢; omega)
      (Or.inr (hr.rest ht)) hix' hns ha.tail (by simpa [Nat.add_comm] using hdot)
      (by simpa [Nat.add_comm] using hbr) (by omega)).mono
      fun segs' s' ⟨hsegs, hs'⟩ => ⟨by simpa using hsegs, ?_⟩
    rw [hs', ParserState.skip_skip, Nat.add_comm]
  · obtain ⟨i, rfl⟩ : ∃ i, t = .index i := by cases t <;> simp_all [isStep]
    rw [pathTokens_index] at ha hdot hbr hfuel
    simp only [List.length_cons, List.length_append] at hdot hbr hfuel
    have h1 : s.ahead 1 = .symbol "[" := by simpa using ha.tail.head
    rw [if_pos h1]
    obtain ⟨g, rfl⟩ : ∃ g, f = g + 1 := ⟨f - 1, by omega⟩
    refine returns_expr ?_
    rw [← atLevel_zero]
    have hin : (s.skip 2).Ahead (i.tokens ++ .symbol "]" :: pathTokens true rest) := by
      simpa using ha.tail.tail
    have hclose : (s.skip 2).ahead i.tokens.length = .symbol "]" := by
      simpa using hin.right.head
    have h0 : i.tokensAt 0 = i.tokens := Expr.tokensAt_of_le (Nat.zero_le _)
    refine (hix i (by simp) (s.skip 2) g hns (h0 ▸ hin.left)
      (by rw [h0, hclose]; exact Token.Kind.ends_closing (by simp))
      (by rw [h0]; simp only [levelFuel, Nat.zero_le, ↓reduceIte]; omega)).mono
      fun i' s' ⟨hi', hs'⟩ => ⟨by rw [hs', h0]; simpa using hclose, ?_⟩
    rw [h0] at hs'
    have hafter : (s'.skip 1).Ahead (pathTokens true rest) := by
      rw [hs']
      simpa using hin.right.tail
    refine (readsPath_next ih (acc ++ [s₀, .index i']) rest (s'.skip 1) (by simp at hn ⊢; omega)
      ?_ (fun j hj => hix j (by simp [hj])) (by rw [hs']; simpa using hns) hafter ?_ ?_
      (by omega)).mono
      fun segs' s'' ⟨hsegs, hs''⟩ => ⟨?_, ?_⟩
    · rcases rest with _ | ⟨t, rest⟩
      · exact Or.inl rfl
      · exact Or.inr hr.rest_index.2
    · rw [hs', ParserState.skip_skip, ParserState.skip_skip, ParserState.ahead_skip]
      convert hdot using 2
      omega
    · rw [hs', ParserState.skip_skip, ParserState.skip_skip, ParserState.ahead_skip]
      convert hbr using 2
      omega
    · simpa [unspan, hi'] using hsegs
    · rw [hs'', hs', ParserState.skip_skip, ParserState.skip_skip, ParserState.skip_skip]
      congr 1
      simp only [pathTokens_index, List.length_cons, List.length_append]
      omega

/-- A well-shaped path opens as the primaries expect a path to: with a name that neither a
call's parenthesis nor a scope resolution follows, with `parent` or with `this`. -/
lemma WellShaped.opens {segs : List PathSeg} (hw : WellShaped segs) {s : ParserState} {r : Nat}
    (ha : s.Ahead (pathTokens false segs)) (hend : (s.ahead (pathTokens false segs).length).Ends r) :
    (∃ n, s.ahead 0 = .ident n ∧ s.ahead 1 ≠ .symbol "(" ∧ s.ahead 1 ≠ .symbol "::") ∨
      s.ahead 0 = .keyword "parent" ∨ s.ahead 0 = .keyword "this" := by
  obtain ⟨s₀, rest, rfl, hstep, -⟩ := hw.1
  obtain ⟨k, hk⟩ := stepToken?_of_isStep hstep
  rw [pathTokens_step hk] at ha hend
  simp only [Bool.false_eq_true, ↓reduceIte, List.nil_append, List.length_cons] at ha hend
  have h1 : s.ahead 1 ≠ .symbol "(" ∧ s.ahead 1 ≠ .symbol "::" := by
    rcases pathTokens_true_cases rest with h | ⟨ks, h | h⟩
    · rw [h, List.length_nil, Nat.zero_add] at hend
      exact ⟨hend.2.2.1, hend.2.2.2.1⟩
    all_goals
      rw [h] at ha
      simp [show s.ahead 1 = _ from ha.tail.head]
  rw [ha.head]
  cases s₀ <;> simp only [stepToken?, Option.some.injEq, reduceCtorEq] at hk <;> subst hk <;>
    simp [h1]

/-- `sizeof` of a path reads a path: its first token is no builtin type name. -/
lemma WellShaped.head_not_builtin {segs : List PathSeg} (hw : WellShaped segs) {s : ParserState}
    (ha : s.Ahead (pathTokens false segs)) (b : Builtin) : s.ahead 0 ≠ .builtin b := by
  obtain ⟨s₀, rest, rfl, hstep, -⟩ := hw.1
  obtain ⟨k, hk⟩ := stepToken?_of_isStep hstep
  rw [pathTokens_step hk] at ha
  simp only [Bool.false_eq_true, ↓reduceIte, List.nil_append] at ha
  rw [ha.head]
  cases s₀ <;> simp only [stepToken?, Option.some.injEq, reduceCtorEq] at hk <;> subst hk <;>
    simp

end PathSeg

namespace Expr

open Parse PathSeg

theorem readsAt_path {segs : List PathSeg} (sp : Span) (hw : WellShaped segs)
    (hix : ∀ i, .index i ∈ segs → i.ReadsAt 0) : (path segs sp).ReadsAt 14 := by
  intro s fuel hns ha hend hfuel
  rw [tokensAt_fourteen rfl] at ha hend hfuel ⊢
  rw [levelFuel_fourteen] at hfuel
  change s.Ahead (pathTokens false segs) at ha
  change (s.ahead (pathTokens false segs).length).Ends 14 at hend
  change 16 * (pathTokens false segs).length ≤ fuel at hfuel
  have hopen := hw.opens ha hend
  obtain ⟨f, rfl⟩ : ∃ f, fuel = f + 1 := ⟨fuel - 1, by
    obtain ⟨s₀, rest, rfl, hstep, -⟩ := hw.1
    obtain ⟨k, hk⟩ := stepToken?_of_isStep hstep
    simp [pathTokens_step hk] at hfuel
    omega⟩
  rw [atLevel_primary]
  refine returns_primary_path hopen ((readsPath segs hix [] s f hw.readableAfter hns ha hend.1
    hend.2.1 (by omega)).mono fun segs' s' ⟨hsegs, hs'⟩ _ => ⟨?_, hs'⟩)
  simpa [Expr.unspan] using hsegs

/-- The operand of `addressof` or `sizeof`: a path between parentheses, read from the
parenthesis on. -/
lemma readsPath_operand {segs : List PathSeg} (hw : WellShaped segs)
    (hix : ∀ i, .index i ∈ segs → i.ReadsAt 0) {s : ParserState} {f : Nat} (hns : s.ns = [])
    (ha : s.Ahead (pathTokens false segs ++ [.symbol ")"]))
    (hfuel : 16 * (pathTokens false segs).length ≤ f + 1) :
    Returns (Parse.path f []) s fun segs' s' => s'.ahead 0 = .symbol ")" ∧
      segs'.map PathSeg.unspan = segs.map PathSeg.unspan ∧
      s' = s.skip (pathTokens false segs).length := by
  have hclose : s.ahead (pathTokens false segs).length = .symbol ")" := by
    simpa using ha.right.head
  refine (readsPath segs hix [] s f hw.readableAfter hns ha.left (by simp [hclose])
    (by simp [hclose]) hfuel).mono fun segs' s' ⟨hsegs, hs'⟩ => ⟨?_, by simpa using hsegs, hs'⟩
  rw [hs', ParserState.ahead_skip, Nat.add_zero, hclose]

theorem readsAt_addressOf {segs : List PathSeg} (sp : Span) (hw : WellShaped segs)
    (hix : ∀ i, .index i ∈ segs → i.ReadsAt 0) : (addressOf segs sp).ReadsAt 14 := by
  intro s fuel hns ha _ hfuel
  rw [tokensAt_fourteen rfl] at ha hfuel ⊢
  rw [levelFuel_fourteen] at hfuel
  simp only [Expr.tokens, List.length_cons, List.length_append, List.length_nil] at ha hfuel ⊢
  obtain ⟨f, rfl⟩ : ∃ f, fuel = f + 1 := ⟨fuel - 1, by omega⟩
  rw [atLevel_primary]
  refine returns_primary_addressOf ha.head ha.tail.head ?_
  refine (readsPath_operand (s := s.skip 2) (f := f) hw hix (by simpa using hns)
    (by simpa using ha.tail.tail) (by omega)).mono
    fun segs' s' ⟨hc, hsegs, hs'⟩ => ⟨hc, fun _ => ⟨by simp [Expr.unspan, hsegs], ?_⟩⟩
  rw [hs']
  simp only [ParserState.skip_skip]
  congr 1
  omega

theorem readsAt_sizeOfPath {segs : List PathSeg} (sp : Span) (hw : WellShaped segs)
    (hix : ∀ i, .index i ∈ segs → i.ReadsAt 0) : (sizeOfPath segs sp).ReadsAt 14 := by
  intro s fuel hns ha _ hfuel
  rw [tokensAt_fourteen rfl] at ha hfuel ⊢
  rw [levelFuel_fourteen] at hfuel
  simp only [Expr.tokens, List.length_cons, List.length_append, List.length_nil] at ha hfuel ⊢
  obtain ⟨f, rfl⟩ : ∃ f, fuel = f + 1 := ⟨fuel - 1, by omega⟩
  rw [atLevel_primary]
  have hpath : (s.skip 2).Ahead (pathTokens false segs ++ [.symbol ")"]) := by
    simpa using ha.tail.tail
  refine returns_primary_sizeOfPath ha.head ha.tail.head
    (fun b => by simpa using hw.head_not_builtin hpath.left b) ?_
  refine (readsPath_operand (s := s.skip 2) (f := f) hw hix (by simpa using hns) hpath
    (by omega)).mono
    fun segs' s' ⟨hc, hsegs, hs'⟩ => ⟨hc, fun _ => ⟨by simp [Expr.unspan, hsegs], ?_⟩⟩
  rw [hs']
  simp only [ParserState.skip_skip]
  congr 1
  omega

/-! #### Calls -/

lemma argTokens_false_cons (a : Expr) (as : List Expr) :
    argTokens false (a :: as) = a.tokens ++ argTokens true as := by
  simp [argTokens]

lemma argTokens_true_cons (a : Expr) (as : List Expr) :
    argTokens true (a :: as) = .symbol "," :: argTokens false (a :: as) := by
  simp [argTokens]

/-- The argument parser reads the tokens of printable arguments back as the arguments, after
those it has read, up to and with the closing parenthesis. -/
theorem readsArguments (args : List Expr) (hargs : ∀ a ∈ args, a.Printable ∧ a.ReadsAt 0)
    (hne : args ≠ []) (acc : List Expr) (s : ParserState) (fuel : Nat) (hns : s.ns = [])
    (ha : s.Ahead (argTokens false args ++ [.symbol ")"]))
    (hfuel : 16 * (argTokens false args).length + 17 ≤ fuel) :
    Returns (Parse.arguments fuel acc) s fun as s' =>
      as.map unspan = acc.map unspan ++ args.map unspan ∧
        s' = s.skip ((argTokens false args).length + 1) := by
  induction args generalizing acc s fuel with
  | nil => exact absurd rfl hne
  | cons a rest ih =>
  rw [argTokens_false_cons] at ha hfuel ⊢
  simp only [List.length_append] at hfuel ⊢
  obtain ⟨f, rfl⟩ : ∃ f, fuel = f + 1 + 1 := ⟨fuel - 2, by omega⟩
  have h0 : a.tokensAt 0 = a.tokens := tokensAt_of_le (Nat.zero_le _)
  have hin : s.Ahead (a.tokens ++ (argTokens true rest ++ [.symbol ")"])) := by simpa using ha
  have hnext : s.ahead a.tokens.length = .symbol ")" ∨ s.ahead a.tokens.length = .symbol "," := by
    rcases rest with _ | ⟨b, rest⟩
    · left
      simpa [argTokens] using hin.right.head
    · right
      simpa [argTokens_true_cons] using hin.right.head
  refine returns_arguments_step (returns_expr ?_)
  rw [← atLevel_zero]
  refine ((hargs a (by simp)).2 s f hns (h0 ▸ hin.left) ?_ ?_).mono fun a' s' ⟨ha', hs'⟩ => ?_
  · rw [h0]
    rcases hnext with h | h <;> rw [h] <;> exact Token.Kind.ends_closing (by simp)
  · rw [h0]
    simp only [levelFuel, Nat.zero_le, ↓reduceIte]
    omega
  rw [h0] at hs'
  -- the argument ends at the closing parenthesis, or a comma and another argument follow
  rcases rest with _ | ⟨b, rest⟩
  · left
    have hr : (s.skip a.tokens.length).Ahead [.symbol ")"] := by simpa [argTokens] using hin.right
    refine ⟨by rw [hs']; exact hr.head, by simp [ha'], ?_⟩
    rw [hs', ParserState.skip_skip]
    simp [argTokens]
  · right
    obtain ⟨k, ks, hks, hk, -⟩ := tokens_head b (hargs b (by simp)).1
    have hr : (s.skip a.tokens.length).Ahead
        (.symbol "," :: (argTokens false (b :: rest) ++ [.symbol ")"])) := by
      have := hin.right
      rwa [argTokens_true_cons, List.cons_append] at this
    have hrest : (s'.skip 1).Ahead (argTokens false (b :: rest) ++ [.symbol ")"]) := by
      rw [hs']
      exact hr.tail
    have hfirst : s'.ahead 1 = k := by
      have := hrest
      rw [argTokens_false_cons, hks, List.cons_append, List.cons_append] at this
      simpa using this.head
    refine ⟨by rw [hs']; exact hr.head, by rw [hfirst]; exact hk, ?_⟩
    refine (ih (fun x hx => hargs x (by simp [hx])) (by simp) (acc ++ [a']) (s'.skip 1) (f + 1)
      (by rw [hs']; simpa using hns) hrest ?_).mono fun as s'' ⟨has, hs''⟩ => ⟨?_, ?_⟩
    · simp only [argTokens_true_cons, List.length_cons] at hfuel
      omega
    · simp [has, ha']
    · rw [hs'', hs', ParserState.skip_skip, ParserState.skip_skip, argTokens_true_cons]
      congr 1
      simp only [List.length_cons]
      omega

theorem readsAt_call {n : String} {args : List Expr} (sp : Span)
    (hargs : ∀ a ∈ args, a.Printable ∧ a.ReadsAt 0) : (call n "" args sp).ReadsAt 14 := by
  intro s fuel hns ha _ hfuel
  rw [tokensAt_fourteen rfl] at ha hfuel ⊢
  rw [levelFuel_fourteen] at hfuel
  simp only [Expr.tokens, List.length_cons, List.length_append, List.length_nil] at ha hfuel ⊢
  obtain ⟨f, rfl⟩ : ∃ f, fuel = f + 1 := ⟨fuel - 1, by omega⟩
  rw [atLevel_primary]
  refine returns_primary_call ha.head ha.tail.head (returns_callWith ha.head ha.tail.head ?_)
  have hin : (s.skip 2).Ahead (argTokens false args ++ [.symbol ")"]) := by
    simpa using ha.tail.tail
  -- no arguments: the parenthesis closes at once
  rcases args with _ | ⟨a, rest⟩
  · have h2 : s.ahead 2 = .symbol ")" := by simpa [argTokens] using hin.head
    rw [if_pos h2]
    exact fun _ => ⟨by simp [Expr.unspan, hns], by simp [argTokens]⟩
  · obtain ⟨k, ks, hks, hk, -⟩ := tokens_head a (hargs a (by simp)).1
    have h2 : s.ahead 2 = k := by
      have := hin
      rw [argTokens_false_cons, hks, List.cons_append, List.cons_append] at this
      simpa using this.head
    rw [if_neg (by rw [h2]; exact hk)]
    refine (readsArguments (a :: rest) hargs (by simp) [] (s.skip 2) f (by simpa using hns) hin
      (by omega)).mono fun as s' ⟨has, hs'⟩ _ => ⟨?_, ?_⟩
    · simp [Expr.unspan, has, hs', hns]
    · rw [hs', ParserState.skip_skip]
      congr 1
      omega

/-! #### Casts, prefix operations and ternaries -/

theorem readsAt_cast {ty : Builtin} {en : Option Endian} {x : Expr} (sp : Span)
    (hx : x.ReadsAt 0) : (cast ty en x sp).ReadsAt 13 := by
  intro s fuel hns ha _ hfuel
  rw [tokensAt_of_le (le_refl 13)] at ha hfuel ⊢
  simp only [Expr.tokens] at ha hfuel ⊢
  simp only [levelFuel, List.length_append, List.length_cons, List.length_nil] at hfuel
  obtain ⟨f, rfl⟩ : ∃ f, fuel = f + 1 := ⟨fuel - 1, by omega⟩
  rw [atLevel_cast]
  have hhead : s.Ahead ((Endian.tokens en ++ [.builtin ty] ++ [.symbol "("]) ++
      (x.tokens ++ [.symbol ")"])) := by simpa using ha
  have hparen : s.Ahead ((Endian.tokens en ++ [.builtin ty]) ++
      (.symbol "(" :: x.tokens ++ [.symbol ")"])) := by simpa using ha
  refine returns_cast_builtin hhead.left ?_
  refine ((hx.paren _ f (by simpa using hns) (by simpa using hparen.right) (by omega)).mono
    fun e' s' ⟨he', hs'⟩ _ => ⟨by simp [Expr.unspan, he'], ?_⟩)
  rw [hs', ParserState.skip_skip]
  simp only [List.length_append, List.length_cons, List.length_nil]
  congr 1
  omega

theorem readsAt_unary {op : UnaryOp} {x : Expr} (sp : Span) (hx : x.ReadsAt 12) :
    (unary op x sp).ReadsAt 12 := by
  intro s fuel hns ha hend hfuel
  rw [tokensAt_of_le (le_refl 12), tokens_unary] at ha hend hfuel ⊢
  simp only [List.length_cons] at hend hfuel ⊢
  simp only [levelFuel, le_refl, ↓reduceIte] at hfuel
  obtain ⟨g, rfl⟩ : ∃ g, fuel = g + 1 + 1 := ⟨fuel - 2, by omega⟩
  rw [atLevel_twelve, binary_succ_last]
  refine returns_unary_op ha.head ?_
  rw [← binary_succ_last, ← atLevel_twelve]
  refine (hx (s.skip 1) (g + 1) (by simpa using hns) ha.tail (by simpa [Nat.add_comm] using hend)
    ?_).mono fun e' s' ⟨he', hs'⟩ _ => ⟨by simp [Expr.unspan, he'], ?_⟩
  · simp only [levelFuel, le_refl, ↓reduceIte]
    omega
  · rw [hs', ParserState.skip_skip, Nat.add_comm]

theorem readsAt_ternary {c t f : Expr} (sp : Span) (hc : c.ReadsAt 1) (ht : t.ReadsAt 0)
    (hf : f.ReadsAt 0) : (ternary c t f sp).ReadsAt 0 := by
  intro s fuel hns ha hend hfuel
  rw [tokensAt_of_le (Nat.zero_le _), tokens_ternary] at ha hend hfuel ⊢
  simp only [List.length_append, List.length_cons] at hend hfuel ⊢
  simp only [levelFuel, Nat.zero_le, ↓reduceIte] at hfuel
  have ht0 : t.tokensAt 0 = t.tokens := tokensAt_of_le (Nat.zero_le _)
  have hf0 : f.tokensAt 0 = f.tokens := tokensAt_of_le (Nat.zero_le _)
  obtain ⟨g, rfl⟩ : ∃ g, fuel = g + 1 := ⟨fuel - 1, by omega⟩
  -- the `?`, the true branch, the `:` and the false branch, each where it lies
  set A := (c.tokensAt 1).length
  set B := t.tokens.length
  have hq : s.ahead A = .symbol "?" := by simpa using ha.left.right.head
  have hta : ((s.skip A).skip 1).Ahead t.tokens := ha.left.right.tail
  have hcolon : s.ahead (A + 1 + B) = .symbol ":" := by
    have := ha.right.head
    simp only [List.length_append, List.length_cons, ParserState.ahead_skip] at this
    convert this using 2
    omega
  have hfa : (s.skip (A + 1 + B + 1)).Ahead f.tokens := by
    have := ha.right.tail
    simp only [List.length_append, List.length_cons, ParserState.skip_skip] at this
    convert this using 2
    omega
  rw [atLevel_zero]
  refine returns_ternary ?_
  rw [← atLevel_succ (by omega)]
  refine (hc s g hns ha.left.left (by rw [hq]; exact Token.Kind.ends_question (by omega))
    ?_).mono fun c' s₁ ⟨hc', hs₁⟩ => ?_
  · simp only [levelFuel, show 0 + 1 ≤ 12 by omega, ↓reduceIte]
    omega
  rw [hs₁, ParserState.ahead_skip, Nat.add_zero, hq, if_pos rfl, ← atLevel_zero]
  refine (ht _ g (by simpa using hns) (ht0 ▸ hta) ?_ ?_).mono fun t' s₂ ⟨ht', hs₂⟩ => ?_
  · rw [ht0, ParserState.skip_skip, ParserState.ahead_skip, hcolon]
    exact Token.Kind.ends_closing (by simp)
  · rw [ht0]
    simp only [levelFuel, Nat.zero_le, ↓reduceIte]
    omega
  rw [ht0, ParserState.skip_skip, ParserState.skip_skip] at hs₂
  refine ⟨by rw [hs₂, ParserState.ahead_skip, Nat.add_zero]; convert hcolon using 2; omega, ?_⟩
  refine (hf _ g (by simpa [hs₂] using hns) (by rw [hf0, hs₂, ParserState.skip_skip]; convert hfa using 2; omega)
    ?_ ?_).mono fun f' s₃ ⟨hf', hs₃⟩ _ => ⟨by simp [Expr.unspan, hc', ht', hf'], ?_⟩
  · rw [hf0, hs₂]
    simp only [ParserState.skip_skip, ParserState.ahead_skip]
    convert hend using 2
    omega
  · rw [hf0]
    simp only [levelFuel, Nat.zero_le, ↓reduceIte]
    omega
  · rw [hs₃, hs₂, hf0]
    simp only [ParserState.skip_skip]
    congr 1
    omega

/-! #### Chains of operators of one level -/

/-- The tokens of operators of level `L` with their right operands, one after another. -/
def opTokens (L : Nat) (ps : List (BinOp × Expr)) : List Token.Kind :=
  ps.flatMap fun p => .symbol p.1.symbol :: p.2.tokensAt (L + 2)

/-- Operators with their right operands folded to the left onto a first operand, spans
erased. -/
def foldOps (a : Expr) (ps : List (BinOp × Expr)) : Expr :=
  ps.foldl (fun acc p => .binary p.1 acc p.2.unspan default) a

@[simp] lemma opTokens_nil (L : Nat) : opTokens L [] = [] := rfl

lemma opTokens_cons (L : Nat) (p : BinOp × Expr) (ps : List (BinOp × Expr)) :
    opTokens L (p :: ps) = .symbol p.1.symbol :: p.2.tokensAt (L + 2) ++ opTokens L ps := by
  simp [opTokens]

/-- The token after an operand of a chain ends the operand: the next operator of the level, or
the token that ends the chain. -/
lemma ends_before_opTokens {L : Nat} {ps : List (BinOp × Expr)} (hps : ∀ p ∈ ps, p.1.level = L)
    {s : ParserState} (ha : s.Ahead (opTokens L ps))
    (hend : (s.ahead (opTokens L ps).length).Ends (L + 1)) : (s.ahead 0).Ends (L + 2) := by
  rcases ps with _ | ⟨p, ps⟩
  · simpa using hend.mono (Nat.le_succ _)
  · rw [opTokens_cons] at ha
    rw [ha.head]
    exact Token.Kind.ends_op p.1 (by rw [hps p (by simp)]; omega)

/-- The loop of a binary level reads operators of the level with their operands and folds them
onto what it has read, up to a token that is no operator of the level. -/
theorem readsRest {L : Nat} (hL : L < 11) (ps : List (BinOp × Expr))
    (hps : ∀ p ∈ ps, p.1.level = L ∧ p.2.ReadsAt (L + 2)) (lhs : Expr) (s : ParserState)
    (fuel : Nat) (hns : s.ns = []) (ha : s.Ahead (opTokens L ps))
    (hend : (s.ahead (opTokens L ps).length).Ends (L + 1))
    (hfuel : 16 * (opTokens L ps).length + 14 - L ≤ fuel) :
    Returns (binaryRest fuel L lhs) s fun e' s' =>
      e'.unspan = foldOps lhs.unspan ps ∧ s' = s.skip (opTokens L ps).length := by
  induction ps generalizing lhs s fuel with
  | nil =>
    obtain ⟨f, rfl⟩ : ∃ f, fuel = f + 1 := ⟨fuel - 1, by simp at hfuel; omega⟩
    exact returns_binaryRest_stop (by simpa using hend) ⟨by simp [foldOps], by simp⟩
  | cons p ps ih =>
    obtain ⟨op, x⟩ := p
    obtain ⟨hlev, hx⟩ := hps (op, x) (by simp)
    have hps' : ∀ q ∈ ps, q.1.level = L ∧ q.2.ReadsAt (L + 2) := fun q hq => hps q (by simp [hq])
    rw [opTokens_cons] at ha hend hfuel ⊢
    simp only [List.length_cons, List.length_append] at hend hfuel ⊢
    obtain ⟨g, rfl⟩ : ∃ g, fuel = g + 1 := ⟨fuel - 1, by omega⟩
    have hin : (s.skip 1).Ahead (x.tokensAt (L + 2) ++ opTokens L ps) := ha.tail
    refine returns_binaryRest_op ha.head hlev ?_
    rw [← atLevel_succ (by omega)]
    refine (hx (s.skip 1) g (by simpa using hns) hin.left ?_ ?_).mono fun r s' ⟨hr, hs'⟩ sp => ?_
    · simpa using ends_before_opTokens (fun q hq => (hps' q hq).1) hin.right
        (by simpa [Nat.add_assoc, Nat.add_comm, Nat.add_left_comm] using hend)
    · simp only [levelFuel, show L + 2 ≤ 12 by omega, ↓reduceIte]
      omega
    refine (ih hps' _ s' g (by simpa [hs'] using hns) (by rw [hs']; simpa using hin.right) ?_
      (by omega)).mono fun e' s'' ⟨he', hs''⟩ => ⟨?_, ?_⟩
    · rw [hs']
      simpa [Nat.add_assoc, Nat.add_comm, Nat.add_left_comm] using hend
    · simp [he', foldOps, Expr.unspan, hr]
    · rw [hs'', hs', ParserState.skip_skip, ParserState.skip_skip]
      congr 1
      dsimp only
      omega

/-! #### A chain, read from its first operand -/

/-- An expression as a chain of operators of level `L` folded to the left: its first operand,
which is no operation of that level, and the operators of the level with their right
operands, from the left. -/
def chain (L : Nat) : Expr → Expr × List (BinOp × Expr)
  | .binary op l r sp =>
    if op.level = L then ((l.chain L).1, (l.chain L).2 ++ [(op, r)]) else (.binary op l r sp, [])
  | e => (e, [])

lemma chain_binary_self (op : BinOp) (l r : Expr) (sp : Span) :
    (binary op l r sp).chain op.level = ((l.chain op.level).1, (l.chain op.level).2 ++ [(op, r)]) := by
  simp [chain]

lemma opTokens_append (L : Nat) (ps qs : List (BinOp × Expr)) :
    opTokens L (ps ++ qs) = opTokens L ps ++ opTokens L qs := by
  simp [opTokens]

/-- Only an operation of level `L` has its place at `L + 1`. -/
lemma prec_ne_of_not_binary {L : Nat} (hL : L < 11) {e : Expr}
    (h : ∀ op l r sp, e ≠ binary op l r sp) : e.prec ≠ L + 1 := by
  cases e
  case binary op l r sp => exact absurd rfl (h op l r sp)
  all_goals simp only [Expr.prec]; omega

/-- The chain is printed as its first operand at the place of a right operand, then the
operators with their operands. -/
lemma chain_tokens {L : Nat} (hL : L < 11) (e : Expr) :
    (e.chain L).1.tokensAt (L + 2) ++ opTokens L (e.chain L).2 = e.tokensAt (L + 1) := by
  fun_induction chain L e with
  | case1 op l r sp hop ih =>
    have hprec : (binary op l r sp).prec = L + 1 := by simp [Expr.prec, hop]
    rw [tokensAt_of_le hprec.ge, tokens_binary, hop, ← ih]
    simp [opTokens_append, opTokens_cons]
  | case2 op l r sp hop =>
    rw [opTokens_nil, List.append_nil, tokensAt_succ (r := L + 1) (by simp [Expr.prec, hop])]
  | case3 e h =>
    rw [opTokens_nil, List.append_nil, tokensAt_succ (r := L + 1) (prec_ne_of_not_binary hL h)]

lemma foldOps_snoc (a : Expr) (ps : List (BinOp × Expr)) (op : BinOp) (r : Expr) :
    foldOps a (ps ++ [(op, r)]) = .binary op (foldOps a ps) r.unspan default := by
  simp [foldOps]

/-- Folding the operators of the chain onto its first operand gives the expression back. -/
lemma foldOps_chain (L : Nat) (e : Expr) : foldOps (e.chain L).1.unspan (e.chain L).2 = e.unspan := by
  fun_induction chain L e with
  | case1 op l r sp hop ih =>
    rw [foldOps_snoc, ih]
    rfl
  | case2 => rfl
  | case3 => rfl

/-- The parts of the chain of a printable expression are printable and no longer than it:
its first operand, and each right operand, which is shorter. -/
lemma Printable.chain {L : Nat} {e : Expr} (he : e.Printable) :
    (e.chain L).1.Printable ∧ (e.chain L).1.tokens.length ≤ e.tokens.length ∧
      ∀ p ∈ (e.chain L).2, p.1.level = L ∧ p.2.Printable ∧ p.2.tokens.length < e.tokens.length := by
  fun_induction Expr.chain L e with
  | case1 op l r sp hop ih =>
    obtain ⟨ha, hlen, hps⟩ := ih he.1
    have hl := length_tokens_le_tokensAt (op.level + 1) l
    have hr := length_tokens_le_tokensAt (op.level + 2) r
    have hsize : l.tokens.length < (binary op l r sp).tokens.length ∧
        r.tokens.length < (binary op l r sp).tokens.length := by
      simp only [tokens_binary, List.length_append, List.length_cons]
      omega
    refine ⟨ha, by dsimp only; omega, fun p hp => ?_⟩
    rcases List.mem_append.mp hp with hp | hp
    · obtain ⟨hlev, hpr, hplen⟩ := hps p hp
      exact ⟨hlev, hpr, by omega⟩
    · obtain rfl := List.mem_singleton.mp hp
      exact ⟨hop, he.2, hsize.2⟩
  | case2 => exact ⟨he, le_rfl, by simp⟩
  | case3 => exact ⟨he, le_rfl, by simp⟩

/-- A chain of operators of level `L` is read where level `L + 1` is required: the first
operand at the place of a right operand, then the operators of the level with their
operands, folded to the left. -/
theorem readsAt_chain {L : Nat} (hL : L < 11) {e a : Expr} {ps : List (BinOp × Expr)}
    (htok : a.tokensAt (L + 2) ++ opTokens L ps = e.tokensAt (L + 1))
    (hfold : foldOps a.unspan ps = e.unspan) (hne : a.tokens ≠ []) (ha : a.ReadsAt (L + 2))
    (hps : ∀ p ∈ ps, p.1.level = L ∧ p.2.ReadsAt (L + 2)) : e.ReadsAt (L + 1) := by
  intro s fuel hns hs hend hfuel
  rw [← htok] at hs hend hfuel ⊢
  rw [← hfold]
  simp only [List.length_append] at hend hfuel ⊢
  have hlen : 1 ≤ (a.tokensAt (L + 2)).length :=
    (List.length_pos_of_ne_nil hne).trans_le (length_tokens_le_tokensAt _ a)
  simp only [levelFuel, show L + 1 ≤ 12 by omega, ↓reduceIte] at hfuel
  obtain ⟨f, rfl⟩ : ∃ f, fuel = f + 1 := ⟨fuel - 1, by omega⟩
  rw [atLevel_succ (by omega)]
  refine returns_binary_descend hL ?_
  rw [← atLevel_succ (by omega)]
  have hrest : ((s.skip (a.tokensAt (L + 2)).length).ahead (opTokens L ps).length).Ends (L + 1) := by
    simpa using hend
  refine (ha s f hns hs.left ?_ ?_).mono fun a' s' ⟨ha', hs'⟩ => ?_
  · simpa using ends_before_opTokens (fun p hp => (hps p hp).1) hs.right hrest
  · simp only [levelFuel, show L + 2 ≤ 12 by omega, ↓reduceIte]
    omega
  -- the operators of the level with their operands, after the first operand
  subst hs'
  refine (readsRest hL ps hps a' _ f (by simpa using hns) hs.right hrest (by omega)).mono
    fun e' s'' ⟨he', hs''⟩ => ⟨by rw [he', ha'], by rw [hs'', ParserState.skip_skip]⟩

/-! #### Down the ladder -/

/-- The first token of an expression at a place of another level is no prefix operator where
prefix operations are read, and starts no cast where casts are read. -/
lemma tokensAt_head {e : Expr} (he : e.Printable) {r : Nat} (hr : e.prec ≠ r) :
    ∃ k ks, e.tokensAt r = k :: ks ∧ (r = 12 → k.unaryOp? = none) ∧
      (r = 13 → k.startsCast = false) := by
  rcases Nat.lt_or_gt_of_ne hr with hlt | hgt
  -- in parentheses
  · exact ⟨.symbol "(", _, by rw [tokensAt_of_lt hlt]; rfl, fun _ => rfl, fun _ => rfl⟩
  -- as itself, at a level tighter than the place
  · have hle := prec_le e
    obtain ⟨k, ks, hks, -, h14, h13, -⟩ := tokens_head e he
    refine ⟨k, ks, by rw [tokensAt_of_le hgt.le, hks], fun h12 => ?_, fun h13' => ?_⟩
    · rcases (show e.prec = 13 ∨ e.prec = 14 by omega) with hp | hp
      · rcases h13 hp with rfl | rfl | ⟨b, rfl⟩ <;> rfl
      · exact (h14 hp).unaryOp?_eq_none
    · exact (h14 (by omega)).startsCast_eq_false

/-- Down the ladder from a place to a looser one, past no place of the expression's own
level. -/
theorem ReadsAt.down {e : Expr} (he : e.Printable) {r₀ r₁ : Nat} (h : e.ReadsAt r₁)
    (hle : r₀ ≤ r₁) (h14 : r₁ ≤ 14) (hprec : e.prec < r₀ ∨ r₁ ≤ e.prec) : e.ReadsAt r₀ := by
  obtain ⟨d, rfl⟩ := Nat.exists_eq_add_of_le hle
  induction d generalizing r₀ with
  | zero => simpa using h
  | succ d ih =>
    have hup : e.ReadsAt (r₀ + 1) :=
      ih (by rw [Nat.add_right_comm, Nat.add_assoc]; exact h) (by omega) (by omega) (by omega)
    exact hup.of_succ (by omega) (by omega) fun _ => tokensAt_head he (by omega)

/-! #### Every place of the ladder -/

/-- An expression is read at its own place when every part it is made of, which has fewer
tokens, is read at every place: each construct by the function of the ladder that reads it. -/
theorem readsAt_prec (e : Expr) (he : e.Printable)
    (ih : ∀ x : Expr, x.Printable → x.tokens.length < e.tokens.length → ∀ r ≤ 14, x.ReadsAt r) :
    e.ReadsAt e.prec := by
  -- the indices of a path, each read where an expression may stand
  have hindex : ∀ segs, PathSeg.AllPrintable segs → (∀ i, .index i ∈ segs →
      i.tokens.length < e.tokens.length) → ∀ i, .index i ∈ segs → i.ReadsAt 0 :=
    fun segs hp hlt i hi => ih i (hp.of_index hi) (hlt i hi) 0 (by omega)
  cases e with
  | lit v sp => exact readsAt_lit v sp
  | path segs sp =>
    exact readsAt_path sp he.1 <| hindex segs he.2 fun i hi =>
      PathSeg.length_tokens_lt_pathTokens hi false
  | cursor sp => exact readsAt_cursor sp
  | unary op x sp =>
    have hlen := length_tokens_le_tokensAt 12 x
    exact readsAt_unary sp (ih x he (by simp [tokens_unary]; omega) 12 (by omega))
  | binary op l r sp =>
    -- the chain of operators of the expression's own level, from its first operand on
    have hL := op.level_lt
    obtain ⟨ha, hlen, hps⟩ := he.1.chain (L := op.level)
    have hl := length_tokens_le_tokensAt (op.level + 1) l
    have hr := length_tokens_le_tokensAt (op.level + 2) r
    have hsize : l.tokens.length < (binary op l r sp).tokens.length ∧
        r.tokens.length < (binary op l r sp).tokens.length := by
      simp only [tokens_binary, List.length_append, List.length_cons]
      omega
    obtain ⟨k, ks, hks, -⟩ := tokens_head _ ha
    refine readsAt_chain hL (chain_tokens hL _) (foldOps_chain _ _) ?_ ?_ fun p hp => ?_
    · rw [chain_binary_self, hks]
      exact List.cons_ne_nil k ks
    · rw [chain_binary_self]
      exact ih _ ha (by omega) (op.level + 2) (by omega)
    · rw [chain_binary_self] at hp
      rcases List.mem_append.mp hp with hp | hp
      · obtain ⟨hlev, hpr, hplen⟩ := hps p hp
        exact ⟨hlev, ih _ hpr (by omega) (op.level + 2) (by omega)⟩
      · obtain rfl := List.mem_singleton.mp hp
        exact ⟨rfl, ih r he.2 hsize.2 (op.level + 2) (by omega)⟩
  | ternary c t f sp =>
    have hc := length_tokens_le_tokensAt 1 c
    have hsize : c.tokens.length < (ternary c t f sp).tokens.length ∧
        t.tokens.length < (ternary c t f sp).tokens.length ∧
        f.tokens.length < (ternary c t f sp).tokens.length := by
      simp only [tokens_ternary, List.length_append, List.length_cons]
      omega
    exact readsAt_ternary sp (ih c he.1 hsize.1 1 (by omega)) (ih t he.2.1 hsize.2.1 0 (by omega))
      (ih f he.2.2 hsize.2.2 0 (by omega))
  | cast ty en x sp =>
    exact readsAt_cast sp (ih x he (by simp [Expr.tokens]; omega) 0 (by omega))
  | scope ty m sp => exact he.elim
  | call n ns args sp =>
    obtain ⟨-, rfl, hargs⟩ := he
    refine readsAt_call sp fun a ha => ⟨hargs.of_mem ha, ih a (hargs.of_mem ha) ?_ 0 (by omega)⟩
    have := length_tokens_le_argTokens ha false
    simp only [Expr.tokens, List.length_cons, List.length_append]
    omega
  | addressOf segs sp =>
    refine readsAt_addressOf sp he.1 <| hindex segs he.2 fun i hi => ?_
    have := PathSeg.length_tokens_lt_pathTokens hi false
    simp only [Expr.tokens, List.length_cons, List.length_append]
    omega
  | sizeOfPath segs sp =>
    refine readsAt_sizeOfPath sp he.1 <| hindex segs he.2 fun i hi => ?_
    have := PathSeg.length_tokens_lt_pathTokens hi false
    simp only [Expr.tokens, List.length_cons, List.length_append]
    omega
  | sizeOfType ty sp => exact readsAt_sizeOfType ty sp

/-- Every printable expression is read back at every place of the ladder: at its own place
and the looser ones by the function of its own level, and at the tighter ones in
parentheses, by the primaries. -/
theorem readsAt (e : Expr) (he : e.Printable) : ∀ r ≤ 14, e.ReadsAt r := by
  induction e, he using printable_induction with
  | h e he ih =>
  intro r hr
  have hown := readsAt_prec e he ih
  have hprec := prec_le e
  by_cases hle : r ≤ e.prec
  · exact hown.down he hle hprec (Or.inr le_rfl)
  · have h14 := (hown.down he (Nat.zero_le _) hprec (Or.inr le_rfl)).fourteen_of_zero (by omega)
    exact h14.down he (by omega) le_rfl (Or.inl (by omega))

end Expr

/-! ### The text of an expression -/

namespace Token.Kind

lemma spellable_symbol {s : String} (h : s ∈ Token.symbols) : (symbol s).Spellable := h

lemma spellable_keyword {w : String} (h : w ∈ Token.keywords) : (keyword w).Spellable := h

lemma spellable_binOp (op : BinOp) : (symbol op.symbol).Spellable :=
  spellable_symbol (by cases op <;> decide)

lemma spellable_unaryOp (op : UnaryOp) : (symbol op.symbol).Spellable :=
  spellable_symbol (by cases op <;> decide)

end Token.Kind

namespace Expr

/-- Parentheses are spelled. -/
lemma spellable_tokensAt {e : Expr} {r : Nat} (h : ∀ k ∈ e.tokens, k.Spellable) :
    ∀ k ∈ e.tokensAt r, k.Spellable := by
  intro k hk
  by_cases hp : e.prec < r
  · rw [tokensAt_of_lt hp] at hk
    simp only [List.cons_append, List.mem_cons, List.mem_append, List.not_mem_nil, or_false] at hk
    rcases hk with rfl | hk | rfl
    · exact Token.Kind.spellable_symbol (by decide)
    · exact h k hk
    · exact Token.Kind.spellable_symbol (by decide)
  · rw [tokensAt_of_le (by omega)] at hk
    exact h k hk

end Expr

namespace PathSeg

/-- The names of a printable path are identifiers, and its points, brackets, `parent` and
`this` are spelled. -/
lemma spellable_pathTokens (segs : List PathSeg) (hp : AllPrintable segs)
    (hix : ∀ i, .index i ∈ segs → ∀ k ∈ i.tokens, k.Spellable) (dot : Bool) :
    ∀ k ∈ pathTokens dot segs, k.Spellable := by
  induction segs generalizing dot with
  | nil => simp [pathTokens]
  | cons seg rest ih =>
  intro k hk
  have hdot : ∀ k ∈ (if dot then [Token.Kind.symbol "."] else []), k.Spellable := by
    cases dot
    · simp
    · simpa using Token.Kind.spellable_symbol (s := ".") (by decide)
  cases seg with
  | name n =>
    simp only [pathTokens, List.mem_append, List.mem_cons] at hk
    rcases hk with hk | rfl | hk
    · exact hdot k hk
    · exact hp.1
    · exact ih hp.2 (fun i hi => hix i (by simp [hi])) true k hk
  | parent =>
    simp only [pathTokens, List.mem_append, List.mem_cons] at hk
    rcases hk with hk | rfl | hk
    · exact hdot k hk
    · exact Token.Kind.spellable_keyword (by decide)
    · exact ih hp (fun i hi => hix i (by simp [hi])) true k hk
  | current =>
    simp only [pathTokens, List.mem_append, List.mem_cons] at hk
    rcases hk with hk | rfl | hk
    · exact hdot k hk
    · exact Token.Kind.spellable_keyword (by decide)
    · exact ih hp (fun i hi => hix i (by simp [hi])) true k hk
  | index i =>
    simp only [pathTokens, List.cons_append, List.mem_cons, List.mem_append] at hk
    rcases hk with rfl | hk | rfl | hk
    · exact Token.Kind.spellable_symbol (by decide)
    · exact hix i (by simp) k hk
    · exact Token.Kind.spellable_symbol (by decide)
    · exact ih hp.2 (fun j hj => hix j (by simp [hj])) true k hk

end PathSeg

namespace Expr

/-- The commas between arguments are spelled. -/
lemma spellable_argTokens (args : List Expr) (h : ∀ a ∈ args, ∀ k ∈ a.tokens, k.Spellable)
    (comma : Bool) : ∀ k ∈ argTokens comma args, k.Spellable := by
  induction args generalizing comma with
  | nil => simp [argTokens]
  | cons a rest ih =>
    intro k hk
    simp only [argTokens, List.mem_append] at hk
    rcases hk with (hk | hk) | hk
    · cases comma <;> simp at hk
      subst hk
      exact Token.Kind.spellable_symbol (by decide)
    · exact h a (by simp) k hk
    · exact ih (fun b hb => h b (by simp [hb])) true k hk

/-- Every token of a printable expression is one the lexer reads back from its spelling. -/
theorem spellable_tokens (e : Expr) (he : e.Printable) : ∀ k ∈ e.tokens, k.Spellable := by
  induction e, he using printable_induction with
  | h e he ih =>
  intro k hk
  cases e with
  | lit v sp =>
    simp only [Expr.tokens, List.mem_singleton] at hk
    subst hk
    cases v <;> exact he
  | path segs sp =>
    exact PathSeg.spellable_pathTokens segs he.2
      (fun i hi => ih i (he.2.of_index hi) (PathSeg.length_tokens_lt_pathTokens hi false)) false k hk
  | cursor sp =>
    simp only [Expr.tokens, List.mem_singleton] at hk
    subst hk
    exact Token.Kind.spellable_symbol (by decide)
  | unary op x sp =>
    rw [tokens_unary, List.mem_cons] at hk
    rcases hk with rfl | hk
    · exact Token.Kind.spellable_unaryOp op
    · have := length_tokens_le_tokensAt 12 x
      exact spellable_tokensAt (ih x he (by simp [tokens_unary]; omega)) k hk
  | binary op l r sp =>
    have hl := length_tokens_le_tokensAt (op.level + 1) l
    have hr := length_tokens_le_tokensAt (op.level + 2) r
    rw [tokens_binary, List.mem_append, List.mem_cons] at hk
    rcases hk with hk | rfl | hk
    · exact spellable_tokensAt (ih l he.1 (by simp [tokens_binary]; omega)) k hk
    · exact Token.Kind.spellable_binOp op
    · exact spellable_tokensAt (ih r he.2 (by simp [tokens_binary]; omega)) k hk
  | ternary c t f sp =>
    have hc := length_tokens_le_tokensAt 1 c
    have hlen : (ternary c t f sp).tokens.length =
        (c.tokensAt 1).length + t.tokens.length + f.tokens.length + 2 := by
      simp only [tokens_ternary, List.length_append, List.length_cons]
      omega
    rw [tokens_ternary] at hk
    simp only [List.mem_append, List.mem_cons, or_assoc] at hk
    rcases hk with hk | rfl | hk | rfl | hk
    · exact spellable_tokensAt (ih c he.1 (by omega)) k hk
    · exact Token.Kind.spellable_symbol (by decide)
    · exact ih t he.2.1 (by omega) k hk
    · exact Token.Kind.spellable_symbol (by decide)
    · exact ih f he.2.2 (by omega) k hk
  | cast ty en x sp =>
    simp only [Expr.tokens, List.mem_append, List.mem_cons, List.not_mem_nil, or_false, or_assoc] at hk
    rcases hk with hk | rfl | rfl | hk | rfl
    · rcases en with _ | _ | _ <;> simp only [Endian.tokens, List.mem_singleton,
        List.not_mem_nil] at hk <;> subst hk <;> exact Token.Kind.spellable_keyword (by decide)
    · trivial
    · exact Token.Kind.spellable_symbol (by decide)
    · exact ih x he (by simp [Expr.tokens]; omega) k hk
    · exact Token.Kind.spellable_symbol (by decide)
  | scope ty m sp => exact he.elim
  | call n ns args sp =>
    obtain ⟨hn, -, hargs⟩ := he
    simp only [Expr.tokens, List.mem_cons, List.mem_append, List.not_mem_nil, or_false, or_assoc] at hk
    rcases hk with rfl | rfl | hk | rfl
    · exact hn
    · exact Token.Kind.spellable_symbol (by decide)
    · refine spellable_argTokens args (fun a ha => ih a (hargs.of_mem ha) ?_) false k hk
      have := length_tokens_le_argTokens ha false
      simp only [Expr.tokens, List.length_cons, List.length_append]
      omega
    · exact Token.Kind.spellable_symbol (by decide)
  | addressOf segs sp | sizeOfPath segs sp =>
    simp only [Expr.tokens, List.mem_cons, List.mem_append, List.not_mem_nil, or_false, or_assoc] at hk
    rcases hk with rfl | rfl | hk | rfl
    · exact Token.Kind.spellable_keyword (by decide)
    · exact Token.Kind.spellable_symbol (by decide)
    · refine PathSeg.spellable_pathTokens segs he.2 (fun i hi => ih i (he.2.of_index hi) ?_) false k hk
      have := PathSeg.length_tokens_lt_pathTokens hi false
      simp only [Expr.tokens, List.length_cons, List.length_append]
      omega
    · exact Token.Kind.spellable_symbol (by decide)
  | sizeOfType ty sp =>
    simp only [Expr.tokens, List.mem_cons, List.not_mem_nil, or_false] at hk
    rcases hk with rfl | rfl | rfl | rfl
    · exact Token.Kind.spellable_keyword (by decide)
    · exact Token.Kind.spellable_symbol (by decide)
    · trivial
    · exact Token.Kind.spellable_symbol (by decide)

end Expr

/-- The text of a printable expression, with `;` after it, is lexed as the expression's tokens,
then `;`; from there, the expression parser reads the expression back, up to spans, and
stops at the `;`. The parser needs fuel for sixteen steps a token, and reads a call with no
namespace at the top level. -/
theorem expression_reparses (e : Expr) (he : e.Printable) :
    ∃ toks, tokenize (e.render ++ ";") = .ok toks ∧
      toks.toList.map Token.kind = e.tokens ++ [.symbol ";", .eof] ∧
      ∀ (s : ParserState) (fuel : Nat), s.tokens = toks → s.pos = 0 → s.ns = [] →
        16 * (e.tokens.length + 1) ≤ fuel →
        (s.skip e.tokens.length).ahead 0 = .symbol ";" ∧
        ∃ e', (Parse.expr fuel).run s = .ok (e', s.skip e.tokens.length) ∧
          e'.unspan = e.unspan := by
  obtain ⟨toks, htok, hkinds⟩ := tokenize_spelled e.tokens (e.spellable_tokens he)
  refine ⟨toks, htok, hkinds, fun s fuel hts hpos hns hfuel => ?_⟩
  subst hts
  have hahead : s.Ahead (e.tokens ++ [.symbol ";", .eof]) := ParserState.Ahead.of_kinds hkinds hpos
  have hsemi : s.ahead e.tokens.length = .symbol ";" := by
    simpa using hahead.ahead_append 0 (by simp)
  have h0 : e.tokensAt 0 = e.tokens := Expr.tokensAt_of_le (Nat.zero_le _)
  obtain ⟨f, rfl⟩ : ∃ f, fuel = f + 1 := ⟨fuel - 1, by omega⟩
  have hread := e.readsAt he 0 (by omega) s f hns (h0 ▸ hahead.left)
    (by rw [h0, hsemi]; exact Token.Kind.ends_closing (by simp))
    (by rw [h0]; simp only [Parse.levelFuel, Nat.zero_le, ↓reduceIte]; omega)
  rw [Parse.atLevel_zero, h0] at hread
  obtain ⟨e', s', hrun, he', hs'⟩ := Parse.returns_expr hread
  exact ⟨by simpa using hsemi, e', by rw [hrun, hs'], he'⟩

/-- `a - ( b - 1 ) * 2 ? f ( c [ 0 ] , 'q' , be u16 ( n ) ) : - $`: a chain of two levels with
parentheses where the tighter one's operand is looser, a call whose arguments hold an indexed
path, a character and a cast, and a prefix operation. -/
def mixedExpr : Expr :=
  .ternary
    (.binary .sub (.path [.name "a"] default)
      (.binary .mul (.binary .sub (.path [.name "b"] default) (.lit (.int 1) default) default)
        (.lit (.int 2) default) default) default)
    (.call "f" "" [.path [.name "c", .index (.lit (.int 0) default)] default,
      .lit (.char 'q') default, .cast (.unsigned .w16) (some .big) (.path [.name "n"] default) default]
      default)
    (.unary .neg (.cursor default) default) default

lemma mixedExpr_printable : mixedExpr.Printable := by
  simp [mixedExpr, Expr.Printable, Expr.AllPrintable, PathSeg.AllPrintable, PathSeg.WellShaped,
    PathSeg.isStep, PathSeg.isCurrent]
  decide

theorem mixedExpr_reparses : mixedExpr.Printable ∧
    ∃ toks, tokenize (mixedExpr.render ++ ";") = .ok toks ∧
      toks.toList.map Token.kind = mixedExpr.tokens ++ [.symbol ";", .eof] ∧
      ∀ (s : ParserState) (fuel : Nat), s.tokens = toks → s.pos = 0 → s.ns = [] →
        16 * (mixedExpr.tokens.length + 1) ≤ fuel →
        (s.skip mixedExpr.tokens.length).ahead 0 = .symbol ";" ∧
        ∃ e', (Parse.expr fuel).run s = .ok (e', s.skip mixedExpr.tokens.length) ∧
          e'.unspan = mixedExpr.unspan :=
  ⟨mixedExpr_printable, expression_reparses mixedExpr mixedExpr_printable⟩

example : mixedExpr.render = "a - ( b - 1 ) * 2 ? f ( c [ 0 ] , 'q' , be u16 ( n ) ) : - $ " := by
  decide

end ByteLayout
