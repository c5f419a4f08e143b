import LoxKit.Proofs.Grammar.Reading

/-!
# Reading expressions is deriving them

In front of a token that can not go on with it, each reader of expressions takes the tokens of a
derivation and gives its tree and its issues. The other way around, where a reader finds no syntax
error, what it took has a derivation with the tree and the issues that it gave.

The loop that groups operators to the left reads a derivation from its innermost left operand
outward. Completeness is therefore said of an operand with what is read behind it: `Continues`.

Headlines:
* `Expression.reads`: a derived expression is read.
* `yields_expression`: an expression that is read is derived.
-/

namespace LoxKit.Grammar

open LoxKit.Parser

/-! ## Ranks and tokens -/

/-- The place of a rank, loosest first. -/
def Rank.index : Rank → Nat
  | assignment => 0
  | disjunction => 1
  | conjunction => 2
  | equality => 3
  | comparison => 4
  | term => 5
  | factor => 6
  | unary => 7
  | call => 8
  | primary => 9

/-- Whether the expressions of a rank are operands with operators between them. -/
def Rank.grouped : Rank → Bool
  | disjunction | conjunction | equality | comparison | term | factor => true
  | _ => false

/-- The node that a token between two operands of a rank makes. -/
def Rank.join? : Rank → Token → Option (RawExpr → RawExpr → RawExpr)
  | disjunction => joinLogical? .or
  | conjunction => joinLogical? .and
  | equality => joinBinary? equalityOp?
  | comparison => joinBinary? comparisonOp?
  | term => joinBinary? termOp?
  | factor => joinBinary? factorOp?
  | _ => fun _ => none

/-- The rank at which a token goes on with an expression that stands before it. -/
def extender : Kind → Option Rank
  | .symbol .equal => some .assignment
  | .keyword .or => some .disjunction
  | .keyword .and => some .conjunction
  | .symbol .bangEqual | .symbol .equalEqual => some .equality
  | .symbol .greater | .symbol .greaterEqual | .symbol .less | .symbol .lessEqual =>
    some .comparison
  | .symbol .minus | .symbol .plus => some .term
  | .symbol .slash | .symbol .star => some .factor
  | .symbol .dot | .symbol .leftParen => some .call
  | _ => none

/-- No expression of the rank, or of a tighter one, goes on with the next token. -/
def Stops (r : Rank) (rest : List Token) : Prop :=
  ∀ t, rest.head? = some t → ∀ r', extender t.kind = some r' → r'.index < r.index

theorem Rank.index_le_tighter (r : Rank) : r.index ≤ r.tighter.index := by
  cases r <;> decide

theorem Stops.tighter {r : Rank} {rest : List Token} (h : Stops r rest) : Stops r.tighter rest :=
  fun t ht r' hr => Nat.lt_of_lt_of_le (h t ht r' hr) r.index_le_tighter

theorem stops_cons {r : Rank} {t : Token} {ts : List Token}
    (h : ∀ r', extender t.kind = some r' → r'.index < r.index) : Stops r (t :: ts) := by
  intro u hu
  rw [List.head?_cons, Option.some.injEq] at hu
  exact hu ▸ h

/-- A token that never goes on with an expression stops all of them. -/
theorem stops_of_extender {t : Token} (h : extender t.kind = none) (r : Rank) (ts : List Token) :
    Stops r (t :: ts) :=
  stops_cons fun r' hr => by rw [h] at hr; exact absurd hr (by simp)

theorem Stops.avoids {r : Rank} {rest : List Token} (h : Stops r rest) {kind : Kind} {r' : Rank}
    (hk : extender kind = some r') (hr : r.index ≤ r'.index) : HeadAvoids (· = kind) rest := by
  intro t ht htk
  have := h t ht r' (by rw [htk]; exact hk)
  omega

theorem Rank.join?_binary {op : BinaryOp} {t : Token} (ht : t.kind = .symbol op.symbol) :
    (Rank.ofBinary op).join? t = some (.binary op t.pos) := by
  cases op <;> simp [ofBinary, join?, joinBinary?, ht, BinaryOp.symbol, equalityOp?, comparisonOp?,
    termOp?, factorOp?]

theorem Rank.join?_logical {op : LogicalOp} {t : Token} (ht : t.kind = .keyword op.keyword) :
    (Rank.ofLogical op).join? t = some (.logical op t.pos) := by
  cases op <;> simp [ofLogical, join?, joinLogical?, ht]

/-- A token that makes a node between operands is an operator of their rank. -/
theorem Rank.join?_some {r : Rank} {t : Token} {join : RawExpr → RawExpr → RawExpr}
    (h : r.join? t = some join) :
    (∃ op, r = .ofBinary op ∧ t.kind = .symbol op.symbol ∧ join = .binary op t.pos) ∨
      ∃ op, r = .ofLogical op ∧ t.kind = .keyword op.keyword ∧ join = .logical op t.pos := by
  have logical : ∀ op, joinLogical? op t = some join →
      t.kind = .keyword op.keyword ∧ join = .logical op t.pos := by
    intro op h
    unfold joinLogical? at h
    split at h
    · rename_i hk
      exact ⟨hk, (Option.some.inj h).symm⟩
    · exact absurd h (by simp)
  have binary : ∀ op?, joinBinary? op? t = some join →
      ∃ s op, t.kind = .symbol s ∧ op? s = some op ∧ join = .binary op t.pos := by
    intro op? h
    unfold joinBinary? at h
    split at h
    · rename_i s hk
      obtain ⟨op, hop, rfl⟩ := Option.map_eq_some_iff.mp h
      exact ⟨s, op, hk, hop, rfl⟩
    · exact absurd h (by simp)
  cases r with
  | assignment | unary | call | primary => exact absurd h (by simp [join?])
  | disjunction => exact Or.inr ⟨.or, rfl, logical .or h⟩
  | conjunction => exact Or.inr ⟨.and, rfl, logical .and h⟩
  | equality =>
    obtain ⟨s, op, hk, hop, rfl⟩ := binary _ h
    refine Or.inl ⟨op, ?_, ?_, rfl⟩ <;> cases s <;> simp [equalityOp?] at hop <;> subst hop <;>
      first | rfl | exact hk
  | comparison =>
    obtain ⟨s, op, hk, hop, rfl⟩ := binary _ h
    refine Or.inl ⟨op, ?_, ?_, rfl⟩ <;> cases s <;> simp [comparisonOp?] at hop <;> subst hop <;>
      first | rfl | exact hk
  | term =>
    obtain ⟨s, op, hk, hop, rfl⟩ := binary _ h
    refine Or.inl ⟨op, ?_, ?_, rfl⟩ <;> cases s <;> simp [termOp?] at hop <;> subst hop <;>
      first | rfl | exact hk
  | factor =>
    obtain ⟨s, op, hk, hop, rfl⟩ := binary _ h
    refine Or.inl ⟨op, ?_, ?_, rfl⟩ <;> cases s <;> simp [factorOp?] at hop <;> subst hop <;>
      first | rfl | exact hk

theorem extender_binary (op : BinaryOp) : extender (.symbol op.symbol) = some (.ofBinary op) := by
  cases op <;> rfl

theorem extender_logical (op : LogicalOp) :
    extender (.keyword op.keyword) = some (.ofLogical op) := by
  cases op <;> rfl

theorem Rank.grouped_ofBinary (op : BinaryOp) : (Rank.ofBinary op).grouped = true := by
  cases op <;> rfl

theorem Rank.grouped_ofLogical (op : LogicalOp) : (Rank.ofLogical op).grouped = true := by
  cases op <;> rfl

theorem Rank.index_lt_tighter {r : Rank} (h : r ≠ .primary) : r.index < r.tighter.index := by
  cases r <;> first | decide | exact absurd rfl h

/-- A token that makes a node between the operands of a rank goes on with their expression. -/
theorem Rank.extender_of_join? {r : Rank} {t : Token} {join : RawExpr → RawExpr → RawExpr}
    (h : r.join? t = some join) : extender t.kind = some r := by
  rcases Rank.join?_some h with ⟨op, rfl, hk, -⟩ | ⟨op, rfl, hk, -⟩
  · rw [hk]
    exact extender_binary op
  · rw [hk]
    exact extender_logical op

/-- Nothing is joined where an expression of the rank stops. -/
theorem Stops.join? {r : Rank} {rest : List Token} (h : Stops r rest) {t : Token}
    (ht : rest.head? = some t) : r.join? t = none := by
  cases hj : r.join? t with
  | none => rfl
  | some join => exact absurd (h t ht r (Rank.extender_of_join? hj)) (Nat.lt_irrefl _)

/-! ## The readers by rank -/

/-- Behind an operand: an operator and the next operand, or nothing. -/
def joinStep (operand : Parser RawExpr) (r : Rank) (lhs : RawExpr) : Parser (Option RawExpr) :=
  take? r.join? >>= fun
    | none => pure none
    | some join => operand >>= fun rhs => pure (some (join lhs rhs))

/-- Operands of a rank with its operators between them. -/
def operands (operand : Parser RawExpr) (r : Rank) : Parser RawExpr :=
  operand >>= chain (joinStep operand r)

/-- Behind a callee or an object: arguments or a field, or nothing. -/
def callStep (inner : Parser RawExpr) (object : RawExpr) : Parser (Option RawExpr) :=
  accept (.symbol .leftParen) >>= fun
    | some _ => arguments inner >>= fun p => pure (some (.call object p.1 p.2))
    | none => accept (.symbol .dot) >>= fun
      | some _ => expect .identifier .propertyName >>= fun field =>
        pure (some (.get object (nameOf field)))
      | none => pure none

/-- The reader of the expressions of a rank, over the reader of expressions one level deeper. -/
def readerOf (inner : Parser RawExpr) : Rank → Parser RawExpr
  | .primary => primary inner
  | .call => postfixed inner
  | .unary => unary inner
  | .factor => operands (unary inner) .factor
  | .term => operands (operands (unary inner) .factor) .term
  | .comparison => operands (operands (operands (unary inner) .factor) .term) .comparison
  | .equality =>
    operands (operands (operands (operands (unary inner) .factor) .term) .comparison) .equality
  | .conjunction =>
    operands (operands (operands (operands (operands (unary inner) .factor) .term) .comparison)
      .equality) .conjunction
  | .disjunction => disjunction inner
  | .assignment => assignment inner

theorem readerOf_grouped (inner : Parser RawExpr) {r : Rank} (h : r.grouped = true) :
    readerOf inner r = operands (readerOf inner r.tighter) r := by
  cases r <;> first | rfl | exact absurd h (by decide)

theorem readerOf_call (inner : Parser RawExpr) :
    readerOf inner .call = readerOf inner .primary >>= chain (callStep inner) := rfl

/-- A step of the loop at a rank that groups to the left. -/
def stepOf (inner : Parser RawExpr) (r : Rank) : RawExpr → Parser (Option RawExpr) :=
  if r = .call then callStep inner else joinStep (readerOf inner r.tighter) r

/-- Whether the expressions of a rank are read by a loop. -/
def Rank.looped (r : Rank) : Prop :=
  r.grouped = true ∨ r = .call

instance (r : Rank) : Decidable r.looped :=
  inferInstanceAs (Decidable (_ ∨ _))

theorem readerOf_looped (inner : Parser RawExpr) {r : Rank} (h : r.looped) :
    readerOf inner r = readerOf inner r.tighter >>= chain (stepOf inner r) := by
  rcases h with h | rfl
  · have hne : r ≠ .call := fun hr => by rw [hr] at h; exact absurd h (by decide)
    rw [readerOf_grouped inner h, stepOf, if_neg hne]
    rfl
  · exact readerOf_call inner

/-- The loop ends where the expressions of its rank stop. -/
theorem reads_step_stop (inner : Parser RawExpr) {r : Rank} (h : r.looped) {rest : List Token}
    (hstop : Stops r rest) (e : RawExpr) : Reads (stepOf inner r e) [] rest none [] := by
  rcases h with h | rfl
  · have hne : r ≠ .call := fun hr => by rw [hr] at h; exact absurd h (by decide)
    rw [stepOf, if_neg hne]
    exact (reads_take?_miss fun t ht => hstop.join? ht).finish rfl
  · refine reads_accept_none (hstop.avoids rfl (Nat.le_refl _)) ?_
    exact reads_accept_none (hstop.avoids rfl (Nat.le_refl _)) (reads_pure none rest)

/-! ## Derived expressions are read -/

/-- The reader of expressions with no more levels of nesting than `levels` has tokens. -/
def nested (levels : List Token) : Parser RawExpr := fun s =>
  expressionWithin levels s

theorem nested_cons (t : Token) (levels : List Token) :
    nested (t :: levels) = readerOf (nested levels) .assignment := rfl

/-- What may be read behind an expression of a rank: nothing, where it stops, or what the loop of
its rank goes on with. -/
inductive Continues (inner : Parser RawExpr) (r : Rank) (e : RawExpr) :
    List Token → List Token → RawExpr → List Issue → Prop
  | stop {rest : List Token} (h : Stops r rest) : Continues inner r e [] rest e []
  | loop {us rest : List Token} {b : RawExpr} {js : List Issue} (hr : r.looped)
      (hstop : Stops r.tighter (us ++ rest)) (h : ReadsOn (stepOf inner r) e us rest b js) :
      Continues inner r e us rest b js

/-- The reader of a rank takes the tokens, and goes on as it may. -/
def ReadsAt (r : Rank) (ts : List Token) (e : RawExpr) (is : List Issue) : Prop :=
  ∀ levels us rest b js, (ts ++ us ++ rest).length ≤ levels.length →
    Continues (nested levels) r e us rest b js →
    Reads (readerOf (nested levels) r) (ts ++ us) rest b (is ++ js)

theorem ReadsAt.stop {r : Rank} {ts : List Token} {e : RawExpr} {is : List Issue}
    (h : ReadsAt r ts e is) {levels rest : List Token}
    (hlen : (ts ++ rest).length ≤ levels.length) (hstop : Stops r rest) :
    Reads (readerOf (nested levels) r) ts rest e is := by
  have := h levels [] rest e [] (by rwa [List.append_nil]) (.stop hstop)
  rwa [List.append_nil, List.append_nil] at this

/-- A rank without a loop is read where it stops. -/
theorem readsAt_of_stop {r : Rank} (hr : ¬ r.looped) {ts : List Token} {e : RawExpr}
    {is : List Issue} (h : ∀ levels rest, (ts ++ rest).length ≤ levels.length → Stops r rest →
      Reads (readerOf (nested levels) r) ts rest e is) : ReadsAt r ts e is := by
  intro levels us rest b js hlen hcont
  cases hcont with
  | stop hstop =>
    rw [List.append_nil] at hlen ⊢
    rw [List.append_nil]
    exact h levels rest hlen hstop
  | loop hl _ _ => exact absurd hl hr

/-- A rank with a loop is read where the loop goes on, as it does where it ends. -/
theorem readsAt_of_loop {r : Rank} (hr : r.looped) {ts : List Token} {e : RawExpr}
    {is : List Issue} (h : ∀ levels us rest b js, (ts ++ us ++ rest).length ≤ levels.length →
      Stops r.tighter (us ++ rest) → ReadsOn (stepOf (nested levels) r) e us rest b js →
      Reads (readerOf (nested levels) r) (ts ++ us) rest b (is ++ js)) :
    ReadsAt r ts e is := by
  intro levels us rest b js hlen hcont
  cases hcont with
  | stop hstop =>
    exact h levels [] rest e [] hlen hstop.tighter (ReadsOn.nil (reads_step_stop _ hr hstop e))
  | loop _ hstop hon => exact h levels us rest b js hlen hstop hon

/-- One more level of nesting around an assignment. -/
theorem ReadsAt.within {ts : List Token} {e : RawExpr} {is : List Issue}
    (h : ReadsAt .assignment ts e is) {levels rest : List Token}
    (hlen : (ts ++ rest).length < levels.length) (hstop : Stops .assignment rest) :
    Reads (nested levels) ts rest e is := by
  cases levels with
  | nil => exact absurd hlen (Nat.not_lt_zero _)
  | cons t levels =>
    rw [nested_cons]
    exact h.stop (Nat.le_of_lt_succ hlen) hstop

/-! ### Signs -/

/-- The operator that a token stands for before one operand. -/
def sign? (t : Token) : Option (UnaryOp × Pos) :=
  match t.kind with
  | .symbol s => (unaryOp? s).map fun op => (op, t.pos)
  | _ => none

theorem sign?_eq {op : UnaryOp} {t : Token} (ht : t.kind = .symbol op.symbol) :
    sign? t = some (op, t.pos) := by
  cases op <;> simp [sign?, ht, UnaryOp.symbol, unaryOp?]

theorem sign?_some {t : Token} {p : UnaryOp × Pos} (h : sign? t = some p) :
    t.kind = .symbol p.1.symbol ∧ p.2 = t.pos := by
  unfold sign? at h
  split at h
  · rename_i s hk
    obtain ⟨op', hop, heq⟩ := Option.map_eq_some_iff.mp h
    cases heq
    refine ⟨?_, rfl⟩
    rw [hk]
    cases s <;> simp [unaryOp?] at hop <;> subst hop <;> rfl
  · exact absurd h (by simp)

/-- The signs before an operand. -/
def signs : Parser (List (UnaryOp × Pos)) :=
  many fun _ => take? sign?

theorem unary_eq (inner : Parser RawExpr) :
    unary inner = signs >>= fun ops => postfixed inner >>= fun operand =>
      pure (ops.foldr (fun p arg => .unary p.1 p.2 arg) operand) := rfl

/-- Without a sign in front, there is only the operand. -/
theorem unary_none (inner : Parser RawExpr) {s : Stream}
    (h : ∀ t, s.tokens.head? = some t → sign? t = none) : unary inner s = postfixed inner s := by
  have hsigns : signs s = ⟨[], s, some []⟩ := by
    obtain ⟨tokens, ending⟩ := s
    cases tokens with
    | nil => rfl
    | cons t ts => simp [signs, many, collect, Parser.bind, take?, h t rfl, Parser.pure]
  rw [unary_eq]
  show Parser.bind signs _ s = _
  unfold Parser.bind
  simp only [hsigns, List.nil_append, List.foldr_nil]
  exact congrFun (Parser.bind_pure (postfixed inner)) s

/-- A sign in front applies to what is read behind it. -/
theorem unary_sign (inner : Parser RawExpr) {t : Token} {p : UnaryOp × Pos}
    (h : sign? t = some p) (ts : List Token) (ending : Token) :
    unary inner ⟨t :: ts, ending⟩ =
      ⟨(unary inner ⟨ts, ending⟩).issues, (unary inner ⟨ts, ending⟩).rest,
        (unary inner ⟨ts, ending⟩).value.map (.unary p.1 p.2)⟩ := by
  have hcount : ∀ (rounds : List Token) (n m : Nat),
      collect (fun _ => take? sign?) rounds n = collect (fun _ => take? sign?) rounds m := by
    intro rounds
    induction rounds with
    | nil => exact fun _ _ => rfl
    | cons _ rounds ih =>
      intro n m
      simp only [collect]
      rw [ih (n + 1) (m + 1)]
  have hsigns : signs ⟨t :: ts, ending⟩ =
      ⟨(signs ⟨ts, ending⟩).issues, (signs ⟨ts, ending⟩).rest,
        (signs ⟨ts, ending⟩).value.map (p :: ·)⟩ := by
    unfold signs many
    rw [hcount _ 0 1]
    simp only [collect, Parser.bind, take?, h, Stream.drop, List.tail_cons, List.nil_append]
    rw [hcount _ 0 (1 + 1)]
    cases (collect (fun _ => take? sign?) ts (1 + 1) ⟨ts, ending⟩).value with
    | none => rfl
    | some ops => simp [Parser.pure]
  rw [unary_eq]
  show Parser.bind signs _ _ = _
  simp only [bind, Parser.bind, hsigns]
  cases hv : (signs ⟨ts, ending⟩).value with
  | none => simp
  | some ops =>
    simp only [Option.map_some]
    cases (postfixed inner (signs ⟨ts, ending⟩).rest).value with
    | none => rfl
    | some operand => simp [pure, Parser.pure]

/-! ### Counted items -/

/-- A list that has grown too long is an issue at the first token of its next item. -/
theorem reads_counted {α : Type} {what : String} {count : Nat} {p : Parser α}
    {ts rest : List Token} {a : α} {is : List Issue} (hts : ts ≠ []) (h : Reads p ts rest a is) :
    Reads (checkCount what count >>= fun _ => p) ts rest a (excess what count ts ++ is) := by
  obtain ⟨t, us, rfl⟩ := List.exists_cons_of_ne_nil hts
  have hcheck : Reads (checkCount what count) [] (t :: us ++ rest) () (excess what count (t :: us))
      := by
    intro ending
    unfold checkCount excess
    by_cases hc : maxArguments ≤ count
    · rw [if_pos hc, if_pos hc]
      rfl
    · rw [if_neg hc, if_neg hc]
      rfl
  exact hcheck.bind h

theorem yields_counted {α : Type} {what : String} {count : Nat} {p : Parser α} {s : Stream}
    {Q : List Token → α → List Issue → Stream → Prop}
    (h : Yields p s fun ts a is rest => ts ≠ [] ∧ Q ts a (excess what count ts ++ is) rest) :
    Yields (checkCount what count >>= fun _ => p) s Q := by
  refine Yields.bind (P := fun ts _ is rest => ts = [] ∧ rest = s ∧
    is = excess what count s.tokens ∨ ts = [] ∧ rest = s ∧ s.tokens = []) ?_ ?_
  · unfold checkCount
    by_cases hc : maxArguments ≤ count
    · rw [if_pos hc]
      refine Or.inr ⟨[], (), [.atToken s.next (.tooMany what)], s, rfl, rfl, ?_⟩
      cases hs : s.tokens with
      | nil => exact Or.inr ⟨rfl, rfl, rfl⟩
      | cons t ts => exact Or.inl ⟨rfl, rfl, by simp [excess, hc, Stream.next, hs]⟩
    · rw [if_neg hc]
      exact yields_pure (Or.inl ⟨rfl, rfl, by simp [excess, hc]⟩)
  · rintro ts ⟨⟩ is rest - (⟨rfl, rfl, rfl⟩ | ⟨rfl, rfl, hs⟩)
    · refine h.mono fun ts a is rest' hts ⟨hne, hQ⟩ => ?_
      obtain ⟨t, us, rfl⟩ := List.exists_cons_of_ne_nil hne
      have hhead : excess what count rest.tokens = excess what count (t :: us) := by
        rw [hts]
        rfl
      rw [hhead]
      exact hQ
    · refine h.mono fun ts a is rest' hts ⟨hne, _⟩ => ?_
      rw [hs] at hts
      exact absurd (List.append_eq_nil_iff.mp hts.symm).1 hne

/-! ### Primary expressions -/

/-- A token that is no literal leads on to the other primary expressions. -/
theorem reads_primary_literal_miss {inner : Parser RawExpr} {ts rest : List Token} {e : RawExpr}
    {is : List Issue} {t : Token} (ht : literalOf? t = none)
    (h : Reads (accept (.keyword .super) >>= fun
      | some keyword => symbol .dot .superDot >>= fun _ =>
        expect .identifier .superclassMethodName >>= fun method =>
          pure (.super (referenceAt keyword) (nameOf method))
      | none => accept (.keyword .this) >>= fun
        | some keyword => pure (.this (referenceAt keyword))
        | none => accept .identifier >>= fun
          | some name => pure (.var (referenceAt name))
          | none => accept (.symbol .leftParen) >>= fun
            | some _ => inner >>= fun e => symbol .rightParen .groupEnd >>= fun _ =>
              pure (.grouping e)
            | none => refuse .expression) (t :: ts) rest e is) :
    Reads (primary inner) (t :: ts) rest e is := by
  have hmiss : Reads (take? fun t => (literalOf? t).map fun value => Expr.literal (ρ := Unit) value t)
      [] (t :: ts ++ rest) none [] := by
    refine reads_take?_miss fun u hu => ?_
    cases hu
    rw [ht]
    rfl
  exact hmiss.bind h

theorem reads_literal {inner : Parser RawExpr} {t : Token} {value : Literal}
    (ht : literalOf? t = some value) (rest : List Token) :
    Reads (primary inner) [t] rest (.literal value t) [] := by
  have hit : Reads (take? fun t => (literalOf? t).map fun value => Expr.literal (ρ := Unit) value t)
      [t] rest (some (.literal value t)) [] := reads_take?_hit (by rw [ht]; rfl) rest
  exact hit.finish rfl

/-- The next token is of another kind than the one that is accepted. -/
theorem reads_accept_other {α : Type} {kind : Kind} {f : Option Token → Parser α} {t : Token}
    {us rest : List Token} {b : α} {js : List Issue} (h : t.kind ≠ kind)
    (hf : Reads (f none) (t :: us) rest b js) : Reads (accept kind >>= f) (t :: us) rest b js :=
  reads_accept_none (headAvoids_cons h) hf

theorem reads_super {inner : Parser RawExpr} {t dot method : Token}
    (ht : t.kind = .keyword .super) (hd : dot.kind = .symbol .dot) (hm : method.kind = .identifier)
    (rest : List Token) :
    Reads (primary inner) [t, dot, method] rest (.super (referenceAt t) (nameOf method)) [] := by
  refine reads_primary_literal_miss (by simp [literalOf?, Token.literal?, ht]) ?_
  refine reads_accept ht ?_
  refine reads_expect hd ?_
  exact reads_expect hm (reads_pure _ rest)

theorem reads_this {inner : Parser RawExpr} {t : Token} (ht : t.kind = .keyword .this)
    (rest : List Token) : Reads (primary inner) [t] rest (.this (referenceAt t)) [] := by
  refine reads_primary_literal_miss (by simp [literalOf?, Token.literal?, ht]) ?_
  refine reads_accept_other (by simp [ht]) ?_
  exact reads_accept ht (reads_pure _ rest)

theorem reads_var {inner : Parser RawExpr} {t : Token} (ht : t.kind = .identifier)
    (rest : List Token) : Reads (primary inner) [t] rest (.var (referenceAt t)) [] := by
  refine reads_primary_literal_miss (by simp [literalOf?, Token.literal?, ht]) ?_
  refine reads_accept_other (by simp [ht]) ?_
  refine reads_accept_other (by simp [ht]) ?_
  exact reads_accept ht (reads_pure _ rest)

theorem reads_grouping {inner : Parser RawExpr} {l r : Token} {ts rest : List Token} {e : RawExpr}
    {is : List Issue} (hl : l.kind = .symbol .leftParen)
    (h : Reads inner ts (r :: rest) e is) (hr : r.kind = .symbol .rightParen) :
    Reads (primary inner) (l :: ts ++ [r]) rest (.grouping e) is := by
  refine reads_primary_literal_miss (by simp [literalOf?, Token.literal?, hl]) ?_
  refine reads_accept_other (by simp [hl]) ?_
  refine reads_accept_other (by simp [hl]) ?_
  refine reads_accept_other (by simp [hl]) ?_
  refine reads_accept hl ?_
  exact Reads.close h (reads_expect hr (reads_pure _ rest))

/-! ### Calls and fields -/

theorem reads_noArguments {inner : Parser RawExpr} {r : Token} (hr : r.kind = .symbol .rightParen)
    (rest : List Token) : Reads (arguments inner) [r] rest ([], r.pos) [] := by
  have hend : Reads (symbol .rightParen .argumentsEnd >>= fun paren =>
      pure (([] : List RawExpr), paren.pos)) [r] rest ([], r.pos) [] :=
    reads_expect hr (reads_pure _ rest)
  refine reads_look fun ending => ?_
  have hnext : Stream.nextIs ⟨[r] ++ rest, ending⟩ (.symbol .rightParen) = true := by
    simp [Stream.nextIs, hr]
  simp only [hnext, if_true]
  exact hend ending

theorem reads_arguments {inner : Parser RawExpr} {t r : Token} {ts rest : List Token}
    {args : List RawExpr} {is : List Issue} (ht : t.kind ≠ .symbol .rightParen)
    (h : ReadsItems (fun count => checkCount "arguments" count >>= fun _ => inner) (r :: rest) 0
      (t :: ts) args is) (hr : r.kind = .symbol .rightParen) :
    Reads (arguments inner) (t :: ts ++ [r]) rest (args, r.pos) is := by
  have hlist := h.commaSeparated (headAvoids_cons (by simp [hr]))
  have hall : Reads (commaSeparated (fun count => checkCount "arguments" count >>= fun _ => inner)
      >>= fun args => symbol .rightParen .argumentsEnd >>= fun paren => pure (args, paren.pos))
      (t :: ts ++ [r]) rest (args, r.pos) is :=
    hlist.close (reads_expect hr (reads_pure _ rest))
  refine reads_look fun ending => ?_
  have hnext : Stream.nextIs ⟨t :: ts ++ [r] ++ rest, ending⟩ (.symbol .rightParen) = false := by
    simp [Stream.nextIs, ht]
  simp only [hnext, Bool.false_eq_true, if_false]
  exact hall ending

theorem reads_callStep_get {inner : Parser RawExpr} {dot field : Token}
    (hd : dot.kind = .symbol .dot) (hf : field.kind = .identifier) (object : RawExpr)
    (rest : List Token) :
    Reads (callStep inner object) [dot, field] rest (some (.get object (nameOf field))) [] := by
  refine reads_accept_other (by simp [hd]) ?_
  refine reads_accept hd ?_
  exact reads_expect hf (reads_pure _ rest)

theorem reads_callStep_call {inner : Parser RawExpr} {l : Token} {ts rest : List Token}
    {args : List RawExpr} {paren : Pos} {is : List Issue} (hl : l.kind = .symbol .leftParen)
    (h : Reads (arguments inner) ts rest (args, paren) is) (callee : RawExpr) :
    Reads (callStep inner callee) (l :: ts) rest (some (.call callee args paren)) is := by
  refine reads_accept hl ?_
  exact h.finish rfl

/-! ### Completeness -/

/-- No sign stands in front of an expression that binds tighter than signs do. -/
theorem Expression.sign?_head {sort : ExpressionSort} {ts : List Token} {tree : sort.Tree}
    {is : List Issue} (h : Expression sort ts tree is) :
    sort = .ranked .call ∨ sort = .ranked .primary → ∃ t us, ts = t :: us ∧ sign? t = none := by
  induction h with
  | @tighter r _ _ _ _ ih =>
    rintro (hr | hr) <;> cases hr <;> exact ih (Or.inr rfl)
  | literal ht =>
    refine fun _ => ⟨_, [], rfl, ?_⟩
    cases hs : sign? _ with
    | none => rfl
    | some p =>
      obtain ⟨hk, -⟩ := sign?_some hs
      rw [literalOf?, hk, Token.literal?, hk] at ht
      exact absurd ht (by simp)
  | this ht => exact fun _ => ⟨_, [], rfl, by simp [sign?, ht]⟩
  | var ht => exact fun _ => ⟨_, [], rfl, by simp [sign?, ht]⟩
  | super ht _ _ => exact fun _ => ⟨_, _, rfl, by simp [sign?, ht]⟩
  | grouping hl _ _ _ => exact fun _ => ⟨_, _, rfl, by simp [sign?, hl, unaryOp?]⟩
  | get _ _ _ ih =>
    obtain ⟨t, us, rfl, ht⟩ := ih (Or.inl rfl)
    exact fun _ => ⟨t, _, rfl, ht⟩
  | callNone _ _ _ ih =>
    obtain ⟨t, us, rfl, ht⟩ := ih (Or.inl rfl)
    exact fun _ => ⟨t, _, rfl, ht⟩
  | call _ _ _ _ ih _ =>
    obtain ⟨t, us, rfl, ht⟩ := ih (Or.inl rfl)
    exact fun _ => ⟨t, _, rfl, ht⟩
  | unary => rintro (h | h) <;> cases h
  | @binary op => rintro (h | h) <;> cases op <;> cases h
  | @logical op => rintro (h | h) <;> cases op <;> cases h
  | assignVar => rintro (h | h) <;> cases h
  | assignField => rintro (h | h) <;> cases h
  | assignOther => rintro (h | h) <;> cases h
  | last => rintro (h | h) <;> cases h
  | more => rintro (h | h) <;> cases h

/-- What a derivation makes its readers do. Arguments are read in front of their closing
parenthesis. -/
def Readable : (sort : ExpressionSort) → List Token → sort.Tree → List Issue → Prop
  | .ranked r, ts, e, is => ReadsAt r ts e is
  | .arguments count, ts, args, is => ∀ levels r rest, (ts ++ r :: rest).length < levels.length →
    r.kind = .symbol .rightParen →
    ReadsItems (fun count => checkCount "arguments" count >>= fun _ => nested levels)
      (r :: rest) count ts args is

/-- An operand of a loop with what the loop goes on with. -/
theorem readsAt_tighter {r : Rank} (hr : r.looped) {ts : List Token} {e : RawExpr}
    {is : List Issue} (h : ReadsAt r.tighter ts e is) : ReadsAt r ts e is := by
  refine readsAt_of_loop hr fun levels us rest b js hlen hstop hon => ?_
  rw [readerOf_looped _ hr]
  refine Reads.chain (h.stop ?_ hstop) hon
  rwa [← List.append_assoc]

/-- One more step of a loop. -/
theorem readsAt_step {r : Rank} (hr : r.looped) {t : Token} {ts us : List Token} {e b : RawExpr}
    {is js : List Issue} (h : ReadsAt r ts e is) (ht : extender t.kind = some r)
    (hstep : ∀ levels rest, (ts ++ (t :: us) ++ rest).length ≤ levels.length →
      Stops r.tighter rest →
      Reads (stepOf (nested levels) r e) (t :: us) rest (some b) js) :
    ReadsAt r (ts ++ t :: us) b (is ++ js) := by
  refine readsAt_of_loop hr fun levels vs rest c ks hlen hstop hon => ?_
  have hne : r ≠ .primary := fun h => by
    rcases hr with hg | hc
    · rw [h] at hg
      exact absurd hg (by decide)
    · exact absurd (h ▸ hc) (by decide)
  have hfirst : Stops r.tighter (t :: us ++ vs ++ rest) := by
    refine stops_cons fun r' hr' => ?_
    rw [ht, Option.some.injEq] at hr'
    exact hr' ▸ Rank.index_lt_tighter hne
  have hon' : ReadsOn (stepOf (nested levels) r) e (t :: us ++ vs) rest c (js ++ ks) := by
    refine ReadsOn.cons (hstep levels (vs ++ rest) ?_ hstop) hon
    simpa only [List.append_assoc] using hlen
  have := h levels (t :: us ++ vs) rest c (js ++ ks) (by simpa only [List.append_assoc] using hlen)
    (.loop hr hfirst hon')
  simpa only [List.append_assoc] using this

/-- An operator between two operands. -/
theorem readsAt_join {r : Rank} (hr : r.grouped = true) {t : Token} {ts us : List Token}
    {lhs rhs : RawExpr} {is js : List Issue} {join : RawExpr → RawExpr → RawExpr}
    (hl : ReadsAt r ts lhs is) (hj : r.join? t = some join) (hright : ReadsAt r.tighter us rhs js) :
    ReadsAt r (ts ++ t :: us) (join lhs rhs) (is ++ js) := by
  refine readsAt_step (Or.inl hr) hl (Rank.extender_of_join? hj) fun levels rest hlen hstop => ?_
  have hne : r ≠ .call := fun h => by rw [h] at hr; exact absurd hr (by decide)
  rw [stepOf, if_neg hne]
  refine (reads_take?_hit hj (us ++ rest)).bind ?_
  refine (hright.stop ?_ hstop).finish rfl
  simp only [List.length_append, List.length_cons] at hlen ⊢
  omega

/-- A target with a value behind an equals sign. -/
theorem readsAt_assignment {t : Token} {ts us : List Token} {target value e : RawExpr}
    {is js ks : List Issue} (hl : ReadsAt .disjunction ts target is) (ht : t.kind = .symbol .equal)
    (hright : ReadsAt .assignment us value js)
    (hend : ∀ rest, Reads (match assignTo? target value with
      | some e => pure e
      | none => report (.atToken t .invalidTarget) >>= fun _ => pure target) [] rest e ks) :
    ReadsAt .assignment (ts ++ t :: us) e (is ++ js ++ ks) := by
  refine readsAt_of_stop (by decide) fun levels rest hlen hstop => ?_
  have hstop' : Stops .disjunction (t :: us ++ rest) :=
    stops_cons fun r' hr' => by rw [ht] at hr'; cases hr'; decide
  have hlen' : (us ++ rest).length < levels.length := by
    simp only [List.length_append, List.length_cons] at hlen ⊢
    omega
  have hlen'' : (ts ++ (t :: us ++ rest)).length ≤ levels.length := by
    rwa [← List.append_assoc]
  have hvalue : Reads (nested levels >>= fun value => match assignTo? target value with
      | some e => pure e
      | none => report (.atToken t .invalidTarget) >>= fun _ => pure target) us rest e (js ++ ks) :=
    Reads.stay (hright.within hlen' hstop) (hend rest)
  rw [List.append_assoc is js ks]
  exact (hl.stop hlen'' hstop').bind (reads_accept ht hvalue)

/-- A derived expression is read. -/
theorem Expression.readable {sort : ExpressionSort} {ts : List Token} {tree : sort.Tree}
    {is : List Issue} (h : Expression sort ts tree is) : Readable sort ts tree is := by
  induction h with
  | @tighter r ts e is inner ih =>
    cases r with
    | primary => exact ih
    | assignment =>
      refine readsAt_of_stop (by decide) fun levels rest hlen hstop => ?_
      have htarget : Reads (disjunction (nested levels)) ts rest e is :=
        ReadsAt.stop ih hlen hstop.tighter
      have hend : ∀ f : Option Token → Parser RawExpr, f none = pure e →
          Reads (accept (.symbol .equal) >>= f) [] rest e [] := by
        intro f hf
        refine reads_accept_none (hstop.avoids rfl (Nat.le_refl _)) ?_
        rw [hf]
        exact reads_pure e rest
      rw [← List.append_nil is]
      exact Reads.stay htarget (hend _ rfl)
    | unary =>
      refine readsAt_of_stop (by decide) fun levels rest hlen hstop => ?_
      obtain ⟨t, us, rfl, ht⟩ := inner.sign?_head (Or.inl rfl)
      intro ending
      refine (unary_none _ fun u hu => ?_).trans (ReadsAt.stop ih hlen hstop.tighter ending)
      cases hu
      exact ht
    | call => exact readsAt_tighter (Or.inr rfl) ih
    | disjunction | conjunction | equality | comparison | term | factor =>
      exact readsAt_tighter (Or.inl rfl) ih
  | literal ht =>
    refine readsAt_of_stop (r := .primary) (by decide) fun _ rest _ _ => ?_
    exact reads_literal ht rest
  | this ht =>
    refine readsAt_of_stop (r := .primary) (by decide) fun _ rest _ _ => ?_
    exact reads_this ht rest
  | var ht =>
    refine readsAt_of_stop (r := .primary) (by decide) fun _ rest _ _ => ?_
    exact reads_var ht rest
  | super ht hd hm =>
    refine readsAt_of_stop (r := .primary) (by decide) fun _ rest _ _ => ?_
    exact reads_super ht hd hm rest
  | @grouping l r ts e is hl _ hr ih =>
    refine readsAt_of_stop (by decide) fun levels rest hlen _ => ?_
    refine reads_grouping hl (ReadsAt.within ih ?_ (stops_of_extender (by rw [hr]; rfl) _ _)) hr
    simp only [List.length_append, List.length_cons, List.length_nil] at hlen ⊢
    omega
  | @get ts object is dot field _ hd hf ih =>
    have := readsAt_step (Or.inr rfl) ih (by rw [hd]; rfl)
      fun levels rest _ _ => reads_callStep_get hd hf object rest
    rwa [List.append_nil] at this
  | @callNone ts callee is l r _ hl hr ih =>
    have := readsAt_step (Or.inr rfl) ih (by rw [hl]; rfl)
      fun levels rest _ _ => reads_callStep_call hl (reads_noArguments hr rest) callee
    rwa [List.append_nil] at this
  | @call ts us callee args is js l r _ hl inner hr ih ihargs =>
    have heq : ts ++ l :: us ++ [r] = ts ++ l :: (us ++ [r]) := by simp
    rw [heq]
    refine readsAt_step (Or.inr rfl) ih (by rw [hl]; rfl) fun levels rest hlen _ => ?_
    obtain ⟨t, vs, rfl, ht⟩ := inner.starts
    refine reads_callStep_call hl (reads_arguments ?_ (ihargs levels r rest ?_ hr) hr) callee
    · intro hk
      rw [hk] at ht
      exact absurd ht (by decide)
    · simp only [List.length_append, List.length_cons, List.length_nil] at hlen ⊢
      omega
  | @unary op t ts arg is ht _ ih =>
    refine readsAt_of_stop (by decide) fun levels rest hlen hstop => ?_
    have hlen' : (ts ++ rest).length ≤ levels.length := by
      simp only [List.length_append, List.length_cons] at hlen ⊢
      omega
    intro ending
    have hsign := unary_sign (nested levels) (sign?_eq ht) (ts ++ rest) ending
    have harg : Grammar.unary (nested levels) ⟨ts ++ rest, ending⟩ = _ :=
      ReadsAt.stop ih hlen' hstop ending
    rw [harg] at hsign
    exact hsign
  | @binary op _ _ _ _ _ _ _ _ ht _ ihl ihr =>
    exact readsAt_join (Rank.grouped_ofBinary op) ihl (Rank.join?_binary ht) ihr
  | @logical op _ _ _ _ _ _ _ _ ht _ ihl ihr =>
    exact readsAt_join (Rank.grouped_ofLogical op) ihl (Rank.join?_logical ht) ihr
  | assignVar _ ht _ ihl ihr =>
    have := readsAt_assignment ihl ht ihr fun rest => reads_pure _ rest
    rwa [List.append_nil] at this
  | assignField _ ht _ ihl ihr =>
    have := readsAt_assignment ihl ht ihr fun rest => reads_pure _ rest
    rwa [List.append_nil] at this
  | @assignOther ts us t target value is js _ hv hg ht _ ihl ihr =>
    have hnone : assignTo? target value = none := assignTo?_eq_none_iff.mpr ⟨hv, hg⟩
    refine readsAt_assignment ihl ht ihr fun rest => ?_
    rw [hnone]
    intro ending
    rfl
  | @last count ts e is item ih =>
    intro levels r rest hlen hr
    obtain ⟨t, us, rfl, -⟩ := item.starts
    refine .last (reads_counted (by simp) ?_)
    exact ReadsAt.within ih hlen (stops_of_extender (by rw [hr]; rfl) _ _)
  | @more count ts us comma e es is js item hc _ ih ihrest =>
    intro levels r rest hlen hr
    obtain ⟨t, vs, rfl, -⟩ := item.starts
    refine .more (reads_counted (by simp) ?_) hc (ihrest levels r rest ?_ hr)
    · refine ReadsAt.within ih ?_ (stops_of_extender (by rw [hc]; rfl) _ _)
      simpa only [List.append_assoc] using hlen
    · simp only [List.length_append, List.length_cons] at hlen ⊢
      omega

/-- A derived expression is read where nothing goes on with it. -/
theorem Expression.reads {ts rest : List Token} {e : RawExpr} {is : List Issue}
    (h : Expression (.ranked .assignment) ts e is) (hstop : Stops .assignment rest) :
    Reads expression ts rest e is := by
  intro ending
  have hat : ReadsAt .assignment ts e is := h.readable
  have hread : Reads (nested (Stream.all ⟨ts ++ rest, ending⟩)) ts rest e is :=
    hat.within (Nat.lt_succ_self _) hstop
  exact hread ending

/-! ## Expressions that are read are derived -/

/-- On streams of less than `n` tokens, what a reader takes without a syntax error is an expression
of the rank. -/
def Derives (p : Parser RawExpr) (n : Nat) (r : Rank) : Prop :=
  ∀ s, s.tokens.length < n → Yields p s fun ts e is _ => Expression (.ranked r) ts e is

theorem yields_primary {inner : Parser RawExpr} {n : Nat} (h : Derives inner n .assignment)
    {s : Stream} (hs : s.tokens.length ≤ n) :
    Yields (primary inner) s fun ts e is _ => Expression (.ranked .primary) ts e is := by
  refine Yields.bind (P := fun ts o is rest => is = [] ∧ rest.ending = s.ending ∧
      ((∃ t value, literalOf? t = some value ∧ ts = [t] ∧ o = some (.literal value t)) ∨
        ts = [] ∧ o = none ∧ rest = s))
    (yields_take? (fun t ts e hs ht => ?_) fun _ => ⟨rfl, rfl, Or.inr ⟨rfl, rfl, rfl⟩⟩) ?_
  · obtain ⟨value, hv, rfl⟩ := Option.map_eq_some_iff.mp ht
    exact ⟨rfl, rfl, Or.inl ⟨t, value, hv, rfl, rfl⟩⟩
  · rintro ts o is rest hts ⟨rfl, -, ⟨t, value, hv, rfl, rfl⟩ | ⟨rfl, rfl, rfl⟩⟩
    · exact yields_pure (.literal hv)
    · refine yields_accept (fun t ts _ ht => ?_) fun _ => ?_
      · exact yields_expect fun dot ts hts hd => yields_expect fun method ts hts hm =>
          yields_pure (.super ht hd hm)
      · refine yields_accept (fun t ts _ ht => yields_pure (.this ht)) fun _ => ?_
        refine yields_accept (fun t ts _ ht => yields_pure (.var ht)) fun _ => ?_
        refine yields_accept (fun l ts hts hl => ?_) fun _ => Or.inl (faulty_refuse _ _)
        have hlen : ts.length < n := by
          rw [hts, List.length_cons] at hs
          exact hs
        refine Yields.bind (h ⟨ts, rest.ending⟩ hlen) fun us e is rest' _ he => ?_
        refine yields_expect fun r _ _ hr => yields_pure ?_
        rw [List.nil_append, List.append_nil]
        exact .grouping hl he hr

theorem yields_arguments {inner : Parser RawExpr} {n : Nat} (h : Derives inner n .assignment)
    {s : Stream} (hs : s.tokens.length < n) :
    Yields (arguments inner) s fun ts p is _ => ∃ us r, ts = us ++ [r] ∧
      r.kind = .symbol .rightParen ∧ p.2 = r.pos ∧
      (us = [] ∧ p.1 = [] ∧ is = [] ∨ Expression (.arguments 0) us p.1 is) := by
  refine yields_look ?_
  have hend : ∀ args us js (rest : Stream),
      us = [] ∧ args = [] ∧ js = [] ∨ Expression (.arguments 0) us args js →
      Yields (symbol .rightParen .argumentsEnd >>= fun paren => pure (args, paren.pos)) rest
        fun vs p ks _ => ∃ ws r, us ++ vs = ws ++ [r] ∧ r.kind = .symbol .rightParen ∧
          p.2 = r.pos ∧ (ws = [] ∧ p.1 = [] ∧ js ++ ks = [] ∨
            Expression (.arguments 0) ws p.1 (js ++ ks)) := by
    intro args us js rest hargs
    refine yields_expect fun r _ _ hr => yields_pure ⟨us, r, rfl, hr, rfl, ?_⟩
    rwa [List.append_nil]
  split
  · exact hend [] [] [] s (Or.inl ⟨rfl, rfl, rfl⟩)
  · refine Yields.bind (yields_items (n := s.tokens.length)
      (I := fun count ts e is => Expression (.arguments count) ts [e] is ∧
        ∃ js, is = excess "arguments" count ts ++ js ∧ Expression (.ranked .assignment) ts e js)
      (L := fun count ts args is => Expression (.arguments count) ts args is)
      (fun count s' hs' => ?_) (fun _ _ _ _ h => h.1) ?_ (Nat.le_refl _))
      fun us args js rest _ hargs => hend args us js rest (Or.inr hargs)
    · refine yields_counted ((h s' (Nat.lt_of_le_of_lt hs' hs)).mono fun ts e is _ _ he => ?_)
      obtain ⟨t, us, rfl, -⟩ := he.starts
      exact ⟨by simp, .last he, is, rfl, he⟩
    · rintro count ts e is comma us es js ⟨-, ks, rfl, he⟩ hc hrest
      exact .more he hc hrest

theorem yields_callStep {inner : Parser RawExpr} {n : Nat} (h : Derives inner n .assignment)
    {ts : List Token} {e : RawExpr} {is : List Issue} {s : Stream} (hs : s.tokens.length ≤ n)
    (he : Expression (.ranked .call) ts e is) :
    Yields (callStep inner e) s fun us o js _ => (o = none → us = [] ∧ js = []) ∧
      ∀ b, o = some b → Expression (.ranked .call) (ts ++ us) b (is ++ js) := by
  refine yields_accept (fun l us hus hl => ?_) fun _ => ?_
  · have hlen : us.length < n := by
      rw [hus, List.length_cons] at hs
      exact hs
    refine Yields.bind (yields_arguments h hlen) ?_
    rintro vs ⟨args, paren⟩ js rest - ⟨ws, r, rfl, hr, rfl, ⟨rfl, rfl, rfl⟩ | hargs⟩
    · refine yields_pure ⟨fun h => absurd h (by simp), fun b hb => ?_⟩
      cases hb
      simpa using Expression.callNone he hl hr
    · refine yields_pure ⟨fun h => absurd h (by simp), fun b hb => ?_⟩
      cases hb
      simpa using Expression.call he hl hargs hr
  · refine yields_accept (fun dot us hus hd => ?_) fun _ => ?_
    · refine yields_expect fun field _ _ hf => yields_pure ⟨fun h => absurd h (by simp), ?_⟩
      intro b hb
      cases hb
      simpa using Expression.get he hd hf
    · exact yields_pure ⟨fun _ => ⟨rfl, rfl⟩, fun b hb => absurd hb (by simp)⟩

theorem yields_joinStep {operand : Parser RawExpr} {n : Nat} {r : Rank}
    (h : Derives operand (n + 1) r.tighter) {ts : List Token} {e : RawExpr} {is : List Issue} {s : Stream}
    (hs : s.tokens.length ≤ n) (he : Expression (.ranked r) ts e is) :
    Yields (joinStep operand r e) s fun us o js _ => (o = none → us = [] ∧ js = []) ∧
      ∀ b, o = some b → Expression (.ranked r) (ts ++ us) b (is ++ js) := by
  refine Yields.bind (P := fun us o js rest => js = [] ∧ rest.tokens.length ≤ n ∧
      ((∃ t join, r.join? t = some join ∧ us = [t] ∧ o = some join) ∨ us = [] ∧ o = none))
    (yields_take? (fun t us join hus hj => ?_) fun _ => ⟨rfl, hs, Or.inr ⟨rfl, rfl⟩⟩) ?_
  · rw [hus, List.length_cons] at hs
    exact ⟨rfl, Nat.le_of_succ_le hs, Or.inl ⟨t, join, hj, rfl, rfl⟩⟩
  · rintro us o js rest - ⟨rfl, hlen, ⟨t, join, hj, rfl, rfl⟩ | ⟨rfl, rfl⟩⟩
    · refine Yields.bind (h rest (Nat.lt_succ_of_le hlen)) fun vs rhs ks _ _ hrhs => ?_
      refine yields_pure ⟨fun h => absurd h (by simp), fun b hb => ?_⟩
      cases hb
      rw [List.append_nil, List.append_nil, List.nil_append, List.singleton_append]
      rcases Rank.join?_some hj with ⟨op, rfl, ht, rfl⟩ | ⟨op, rfl, ht, rfl⟩
      · exact .binary he ht hrhs
      · exact .logical he ht hrhs
    · exact yields_pure ⟨fun _ => ⟨rfl, rfl⟩, fun b hb => absurd hb (by simp)⟩

/-- A loop reads what its operands and its steps derive. -/
theorem derives_looped {inner : Parser RawExpr} {n : Nat} (h : Derives inner n .assignment)
    {r : Rank} (hr : r.looped) (hop : Derives (readerOf inner r.tighter) (n + 1) r.tighter) :
    Derives (readerOf inner r) (n + 1) r := by
  intro s hs
  rw [readerOf_looped inner hr]
  refine Yields.bind (hop s hs) fun ts e is rest hts he => ?_
  have hlen : rest.tokens.length ≤ n := by
    rw [hts, List.length_append] at hs
    omega
  refine yields_iterate (n := n) (I := fun ts e is => Expression (.ranked r) ts e is) ?_
    rest.tokens ts e is rest hlen (.tighter he)
  intro ts e is s hs he
  rcases hr with hg | rfl
  · have hne : r ≠ .call := fun hc => by rw [hc] at hg; exact absurd hg (by decide)
    rw [stepOf, if_neg hne]
    exact yields_joinStep hop hs he
  · exact yields_callStep h hs he

theorem derives_unary {inner : Parser RawExpr} {n : Nat} (h : Derives (postfixed inner) n .call) :
    Derives (unary inner) n .unary := by
  rintro ⟨tokens, ending⟩ hs
  induction tokens with
  | nil =>
    have hp := (h ⟨[], ending⟩ hs).mono fun _ _ _ _ _ he => Expression.tighter (r := .unary) he
    exact hp.congr (unary_none inner fun t ht => absurd ht (by simp))
  | cons t ts ih =>
    cases hsign : sign? t with
    | none =>
      have hp := (h ⟨t :: ts, ending⟩ hs).mono fun _ _ _ _ _ he =>
        Expression.tighter (r := .unary) he
      exact hp.congr (unary_none inner fun u hu => by cases hu; exact hsign)
    | some p =>
      obtain ⟨hk, hpos⟩ := sign?_some hsign
      unfold Yields
      rw [unary_sign inner hsign]
      rcases ih (Nat.le_of_succ_le hs) with hf | ⟨us, e, is, rest, heq, hus, he⟩
      · exact Or.inl hf
      · refine Or.inr ⟨t :: us, .unary p.1 p.2 e, is, rest, by rw [heq]; rfl, ?_, ?_⟩
        · rw [List.cons_append]
          exact congrArg _ hus
        · rw [hpos]
          exact .unary hk he

theorem derives_disjunction {inner : Parser RawExpr} {n : Nat} (h : Derives inner n .assignment) :
    Derives (disjunction inner) (n + 1) .disjunction := by
  have hprimary : Derives (readerOf inner .primary) (n + 1) .primary := fun s hs =>
    yields_primary h (Nat.le_of_lt_succ hs)
  have hcall := derives_looped h (Or.inr rfl) hprimary
  have hunary : Derives (readerOf inner .unary) (n + 1) .unary := derives_unary hcall
  have hfactor := derives_looped h (r := .factor) (Or.inl rfl) hunary
  have hterm := derives_looped h (r := .term) (Or.inl rfl) hfactor
  have hcomparison := derives_looped h (r := .comparison) (Or.inl rfl) hterm
  have hequality := derives_looped h (r := .equality) (Or.inl rfl) hcomparison
  have hconjunction := derives_looped h (r := .conjunction) (Or.inl rfl) hequality
  exact derives_looped h (r := .disjunction) (Or.inl rfl) hconjunction

theorem derives_assignment {inner : Parser RawExpr} {n : Nat} (h : Derives inner n .assignment) :
    Derives (assignment inner) (n + 1) .assignment := by
  intro s hs
  refine Yields.bind (derives_disjunction h s hs) fun ts target is rest hts ht => ?_
  refine yields_accept (fun t us hus hk => ?_) fun _ => yields_pure ?_
  · have hlen : us.length < n := by
      rw [hts, List.length_append, hus, List.length_cons] at hs
      omega
    refine Yields.bind (h ⟨us, rest.ending⟩ hlen) fun vs value js _ _ hv => ?_
    cases hassign : assignTo? target value with
    | some e =>
      refine yields_pure ?_
      rw [List.append_nil, List.append_nil]
      unfold assignTo? at hassign
      split at hassign
      · cases hassign
        exact .assignVar ht hk hv
      · cases hassign
        exact .assignField ht hk hv
      · exact absurd hassign (by simp)
    | none =>
      obtain ⟨hvar, hget⟩ := assignTo?_eq_none_iff.mp hassign
      have he := Expression.assignOther ht hvar hget hk hv
      rw [List.append_assoc] at he
      refine Or.inr ⟨[], target, [.atToken t .invalidTarget], _, rfl, rfl, ?_⟩
      simpa using he
  · rw [List.append_nil, List.append_nil]
    exact .tighter ht

theorem derives_nested : ∀ levels : List Token, Derives (nested levels) levels.length .assignment
  | [] => fun _ h => absurd h (Nat.not_lt_zero _)
  | _ :: levels => derives_assignment (derives_nested levels)

/-- An expression that is read is derived. -/
theorem yields_expression (s : Stream) :
    Yields expression s fun ts e is _ => Expression (.ranked .assignment) ts e is :=
  (derives_nested s.all s (Nat.lt_succ_self _)).congr rfl

end LoxKit.Grammar
