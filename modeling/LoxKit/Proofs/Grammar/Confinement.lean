import LoxKit.Proofs.Grammar.Recovery
import LoxKit.Proofs.Grammar.Statements

/-!
# Reading in front of a semicolon

No expression has a semicolon in it, so the reader of expressions never takes one. In front of
tokens with a semicolon behind them it stops at the semicolon or before it, and what it answers does
not depend on what stands behind the semicolon. If it gives up, it has found one syntax error, the
last thing it says.

Headlines:
* `EndsBefore`, `Confined`: a reader that ends before the semicolon.
* `Confined.bind`, `confined_take?`, `confined_chain`, `confined_many`: the rules for readers.
* `confined_expression`: the reader of expressions.
* `EndsBy`, `endsBy_declarationOver`: the readers of the statements that end with a semicolon.
-/

namespace LoxKit.Grammar

open LoxKit.Parser

variable {α β : Type}

/-! ## Answers -/

/-- In front of `rest` the reader takes `ts`, finds `is`, and gives a value or gives up. -/
def Settles (p : Parser α) (ts rest : List Token) (value : Option α) (is : List Issue) : Prop :=
  ∀ ending, p ⟨ts ++ rest, ending⟩ = ⟨is, ⟨rest, ending⟩, value⟩

/-- How a reader ends: with a value, and nothing but issues that a text of the grammar may have too,
or without a value, and one syntax error behind such issues. -/
inductive Settled : List Issue → Option α → Prop
  | gives {is : List Issue} {a : α} (h : Tolerated is) : Settled is (some a)
  | givesUp {is : List Issue} {e : Issue} (h : Tolerated is) (he : e.IsSyntaxError) :
      Settled (is ++ [e]) none

theorem Settled.behind {is js : List Issue} {value : Option α} (h : Tolerated is)
    (hjs : Settled js value) : Settled (is ++ js) value := by
  cases hjs with
  | gives htol => exact .gives (h.append htol)
  | givesUp htol he =>
    rw [← List.append_assoc]
    exact .givesUp (h.append htol) he

theorem Settled.tolerated {is : List Issue} {a : α} (h : Settled is (some a)) : Tolerated is := by
  cases h with
  | gives htol => exact htol

theorem Settled.givenUp {is : List Issue} (h : Settled is (none : Option α)) :
    ∃ js e, is = js ++ [e] ∧ Tolerated js ∧ e.IsSyntaxError := by
  cases h with
  | givesUp htol he => exact ⟨_, _, rfl, htol, he⟩

theorem isSyntaxError_atToken (t : Token) (what : Expectation) :
    (Issue.atToken t (.expected what)).IsSyntaxError :=
  ⟨what, complaint_atToken t _⟩

theorem settled_refused (t : Token) (what : Expectation) :
    Settled [.atToken t (.expected what)] (none : Option α) :=
  .givesUp tolerated_nil (isSyntaxError_atToken t what)

/-- A reader that gives up does so whatever should have been read behind it. -/
theorem Settles.bind_none {p : Parser α} {f : α → Parser β} {ts rest : List Token}
    {is : List Issue} (h : Settles p ts rest none is) : Settles (p >>= f) ts rest none is := by
  intro ending
  show Parser.bind p f _ = _
  unfold Parser.bind
  rw [h ending]

theorem Settles.bind {p : Parser α} {f : α → Parser β} {ts us rest : List Token} {a : α}
    {value : Option β} {is js : List Issue} (hp : Reads p ts (us ++ rest) a is)
    (hf : Settles (f a) us rest value js) : Settles (p >>= f) (ts ++ us) rest value (is ++ js) := by
  intro ending
  show Parser.bind p f _ = _
  unfold Parser.bind
  rw [List.append_assoc, hp ending]
  simp only [hf ending]

/-- A reader behind another that takes nothing. -/
theorem Settles.behind {p : Parser α} {f : α → Parser β} {us rest : List Token} {a : α}
    {value : Option β} {js : List Issue} (hp : Reads p [] (us ++ rest) a [])
    (hf : Settles (f a) us rest value js) : Settles (p >>= f) us rest value js := by
  have h := Settles.bind (f := f) hp hf
  exact h

/-- A reader behind another that takes a token. -/
theorem Settles.token {p : Parser α} {f : α → Parser β} {t : Token} {us rest : List Token} {a : α}
    {value : Option β} {js : List Issue} (hp : Reads p [t] (us ++ rest) a [])
    (hf : Settles (f a) us rest value js) : Settles (p >>= f) (t :: us) rest value js := by
  have h := Settles.bind (f := f) hp hf
  exact h

/-- A reader that takes nothing behind another. -/
theorem Settles.stay {p : Parser α} {f : α → Parser β} {ts rest : List Token} {a : α}
    {value : Option β} {is js : List Issue} (hp : Reads p ts rest a is)
    (hf : Settles (f a) [] rest value js) : Settles (p >>= f) ts rest value (is ++ js) := by
  have h := Settles.bind (f := f) hp hf
  rwa [List.append_nil] at h

theorem settles_refuse (what : Expectation) (t : Token) (rest : List Token) :
    Settles (refuse what : Parser α) [] (t :: rest) none [.atToken t (.expected what)] :=
  fun _ => rfl

theorem settles_expect_other {kind : Kind} {what : Expectation} {t : Token} (h : t.kind ≠ kind)
    (rest : List Token) :
    Settles (expect kind what) [] (t :: rest) none [.atToken t (.expected what)] := by
  intro ending
  simp only [expect, List.nil_append, if_neg h]
  rfl

theorem reads_expected {kind : Kind} {t : Token} (h : t.kind = kind) (what : Expectation)
    (rest : List Token) : Reads (expect kind what) [t] rest t [] := by
  intro ending
  simp only [expect, List.singleton_append, if_pos h, Stream.drop, List.tail_cons]

theorem settles_expect {kind : Kind} {what : Expectation} {t : Token} (h : t.kind = kind)
    {f : Token → Parser β} {us rest : List Token} {value : Option β} {js : List Issue}
    (hf : Settles (f t) us rest value js) :
    Settles (expect kind what >>= f) (t :: us) rest value js :=
  Settles.token (reads_expected h what _) hf

theorem settles_accept {kind : Kind} {t : Token} (h : t.kind = kind) {f : Option Token → Parser β}
    {us rest : List Token} {value : Option β} {js : List Issue}
    (hf : Settles (f (some t)) us rest value js) :
    Settles (accept kind >>= f) (t :: us) rest value js :=
  Settles.token (p := accept kind) (reads_take?_hit (if_pos h) _) hf

theorem settles_accept_none {kind : Kind} {f : Option Token → Parser β} {us rest : List Token}
    {value : Option β} {js : List Issue} (h : HeadAvoids (· = kind) (us ++ rest))
    (hf : Settles (f none) us rest value js) : Settles (accept kind >>= f) us rest value js :=
  Settles.behind (p := accept kind) (reads_take?_miss fun t ht => if_neg (h t ht)) hf

/-! ## Before a semicolon -/

/-- Tokens without a semicolon. -/
def Unbroken (ts : List Token) : Prop :=
  ∀ t ∈ ts, t.kind ≠ .symbol .semicolon

theorem Unbroken.of_append {taken left : List Token} (h : Unbroken (taken ++ left)) :
    Unbroken left :=
  fun t ht => h t (List.mem_append_right taken ht)

theorem Unbroken.of_cons {t : Token} {ts : List Token} (h : Unbroken (t :: ts)) : Unbroken ts :=
  fun u hu => h u (List.mem_cons_of_mem t hu)

/-- In front of `ts` and a semicolon the reader ends before the semicolon, and answers alike
whatever stands behind. If it gives a value that `costs` a token, it has taken one. -/
inductive EndsBefore (semi : Token) (costs : α → Prop) (p : Parser α) (ts : List Token) : Prop
  | mk (taken left : List Token) {value : Option α} {is : List Issue}
      (htokens : ts = taken ++ left) (hsettled : Settled is value)
      (hcosts : ∀ a ∈ value, costs a → taken ≠ [])
      (h : ∀ rest, Settles p taken (left ++ semi :: rest) value is)

/-- A reader that ends before the semicolon behind any tokens, fewer than `n`, that have none. -/
def Confined (semi : Token) (n : Nat) (costs : α → Prop) (p : Parser α) : Prop :=
  ∀ ts, ts.length < n → Unbroken ts → EndsBefore semi costs p ts

/-- The values of this kind cost nothing. -/
def Free : α → Prop :=
  fun _ => False

/-- A step that leads further costs a token. -/
def Further (o : Option α) : Prop :=
  o.isSome = true

theorem not_further_none : ¬Further (none : Option α) :=
  Bool.false_ne_true

variable {semi : Token} {n : Nat} {costs : α → Prop} {costs' : β → Prop}

/-- What is read behind tokens that were taken before. -/
theorem EndsBefore.behind {p : Parser α} {f : α → Parser β} {taken left : List Token} {a : α}
    {is : List Issue} (his : Tolerated is)
    (hp : ∀ rest, Reads p taken (left ++ semi :: rest) a is)
    (hf : EndsBefore semi costs' (f a) left) :
    EndsBefore semi costs' (p >>= f) (taken ++ left) := by
  obtain ⟨taken', left', rfl, hsettled, hcosts, h⟩ := hf
  refine .mk (taken ++ taken') left' (List.append_assoc ..).symm (hsettled.behind his) ?_
    fun rest => ?_
  · intro b hb hcost hnil
    exact hcosts b hb hcost (List.append_eq_nil_iff.mp hnil).2
  · refine Settles.bind ?_ (h rest)
    rw [← List.append_assoc]
    exact hp rest

theorem Confined.bind {p : Parser α} {f : α → Parser β} (hp : Confined semi n costs p)
    (hf : ∀ a, Confined semi n costs' (f a)) : Confined semi n costs' (p >>= f) := by
  intro ts hlen hts
  obtain ⟨taken, left, rfl, hsettled, -, h⟩ := hp ts hlen hts
  cases hsettled with
  | @gives is a his =>
    refine .behind his h (hf a left ?_ hts.of_append)
    rw [List.length_append] at hlen
    omega
  | givesUp his he =>
    exact .mk taken left rfl (.givesUp his he) (fun _ hb => nomatch hb) fun rest =>
      (h rest).bind_none

theorem confined_pure {a : α} (h : ¬costs a) : Confined semi n costs (pure a) := by
  intro ts _ _
  refine .mk [] ts rfl (.gives tolerated_nil) (fun b hb hcost => ?_) fun rest ending => rfl
  cases hb
  exact absurd hcost h

theorem Confined.map {p : Parser α} (hp : Confined semi n costs p) (f : α → β) :
    Confined semi n Free (f <$> p) :=
  hp.bind (f := fun a => pure (f a)) fun _ => confined_pure id

theorem Confined.mono {m : Nat} {p : Parser α} (hp : Confined semi n costs p) (h : m ≤ n) :
    Confined semi m costs p :=
  fun ts hlen => hp ts (Nat.lt_of_lt_of_le hlen h)

theorem confined_zero {p : Parser α} : Confined semi 0 costs p :=
  fun _ hlen => absurd hlen (Nat.not_lt_zero _)

/-! ### Single tokens -/

theorem confined_refuse (what : Expectation) : Confined semi n costs (refuse what : Parser α) := by
  intro ts _ _
  refine .mk [] ts rfl (settled_refused (ts.headD semi) what) (fun _ hb => nomatch hb)
    fun rest => ?_
  cases ts with
  | nil => exact settles_refuse what semi rest
  | cons t ts => exact settles_refuse what t (ts ++ semi :: rest)

/-- A token may be taken or not. If one is, there is one less to read. -/
theorem confined_take? {test : Token → Option α} {f : Option α → Parser β} {m : Nat}
    (hsemi : test semi = none) (hit : ∀ a, Confined semi n Free (f (some a)))
    (miss : Confined semi m costs' (f none)) (hm : m ≤ n + 1) :
    Confined semi m costs' (take? test >>= f) := by
  intro ts hlen hts
  have hmiss : (∀ t, (ts ++ [semi]).head? = some t → test t = none) →
      EndsBefore semi costs' (take? test >>= f) ts := fun h => by
    have hnone : ∀ rest, Reads (take? test) [] (ts ++ semi :: rest) none [] := fun rest => by
      refine reads_take?_miss fun t ht => h t ?_
      cases ts <;> exact ht
    exact EndsBefore.behind tolerated_nil hnone (miss ts hlen hts)
  cases ts with
  | nil =>
    refine hmiss fun t ht => ?_
    cases ht
    exact hsemi
  | cons t ts =>
    cases htest : test t with
    | none =>
      refine hmiss fun u hu => ?_
      cases hu
      exact htest
    | some a =>
      rw [List.length_cons] at hlen
      obtain ⟨taken, left, rfl, hsettled, -, h⟩ := hit a ts (by omega) hts.of_cons
      exact .mk (t :: taken) left rfl hsettled (fun _ _ _ => List.cons_ne_nil t taken) fun rest =>
        Settles.token (reads_take?_hit htest _) (h rest)

section Kinds

variable (hsemi : semi.kind = .symbol .semicolon)

include hsemi

theorem confined_accept {kind : Kind} (hkind : kind ≠ .symbol .semicolon)
    {f : Option Token → Parser β} {m : Nat} (hit : ∀ t, Confined semi n Free (f (some t)))
    (miss : Confined semi m costs' (f none)) (hm : m ≤ n + 1) :
    Confined semi m costs' (accept kind >>= f) :=
  confined_take? (if_neg (hsemi ▸ hkind.symm)) hit miss hm

theorem confined_expect {kind : Kind} (hkind : kind ≠ .symbol .semicolon) (what : Expectation) :
    Confined semi n Free (expect kind what) := by
  intro ts _ _
  have hother : ∀ (t : Token) (us : List Token → List Token), t.kind ≠ kind →
      (∀ rest, ts ++ semi :: rest = t :: us rest) →
        EndsBefore semi Free (expect kind what) ts := fun t us ht hts =>
    .mk [] ts rfl (settled_refused t what) (fun _ _ => False.elim) fun rest => by
      rw [hts rest]
      exact settles_expect_other ht (us rest)
  cases ts with
  | nil => exact hother semi id (hsemi ▸ hkind.symm) fun _ => rfl
  | cons t ts =>
    by_cases ht : t.kind = kind
    · exact .mk [t] ts rfl (.gives (a := t) tolerated_nil) (fun _ _ => False.elim)
        fun rest => reads_expected ht what _
    · exact hother t (fun rest => ts ++ semi :: rest) ht fun _ => rfl

end Kinds

/-- A reader that chooses by the kind of the next token. -/
theorem confined_nextIs {kind : Kind} {p q : Parser α} (hp : Confined semi n costs p)
    (hq : Confined semi n costs q) :
    Confined semi n costs (look >>= fun s => if s.nextIs kind then p else q) := by
  intro ts hlen hts
  have hnext : ∀ rest ending, Stream.nextIs ⟨ts ++ semi :: rest, ending⟩ kind =
      Stream.nextIs ⟨ts ++ [semi], semi⟩ kind := fun rest ending => by
    cases ts <;> rfl
  have hends : EndsBefore semi costs
      (if Stream.nextIs ⟨ts ++ [semi], semi⟩ kind then p else q) ts := by
    split
    · exact hp ts hlen hts
    · exact hq ts hlen hts
  obtain ⟨taken, left, rfl, hsettled, hcosts, h⟩ := hends
  refine .mk taken left rfl hsettled hcosts fun rest ending => ?_
  rw [← h rest ending, ← hnext rest ending, List.append_assoc]
  show Parser.bind look _ _ = _
  simp only [Parser.bind, look, List.nil_append]

theorem confined_checkCount {what : String} (h : what = "arguments" ∨ what = "parameters")
    (count : Nat) : Confined semi n Free (checkCount what count) := by
  unfold checkCount
  split
  · intro ts _ _
    have htol : Tolerated [.atToken (ts.headD semi) (.tooMany what)] := by
      intro i hi
      rw [List.mem_singleton.mp hi, complaint_atToken]
      rcases h with rfl | rfl
      · exact Or.inr (Or.inl rfl)
      · exact Or.inr (Or.inr rfl)
    refine .mk [] ts rfl (.gives (a := ()) htol) (fun _ _ => False.elim) fun rest ending => ?_
    cases ts <;> rfl
  · exact confined_pure id

/-! ### Loops -/

/-- A loop that ends before the semicolon if it may take a step for each token that there is. -/
inductive EndsWithin (semi : Token) (p : List Token → Parser α) (ts : List Token) : Prop
  | mk (taken left : List Token) {value : Option α} {is : List Issue}
      (htokens : ts = taken ++ left) (hsettled : Settled is value)
      (h : ∀ rest rounds : List Token, (ts ++ semi :: rest).length ≤ rounds.length →
        Settles (p rounds) taken (left ++ semi :: rest) value is)

/-- One round of a loop, and the rounds behind it. -/
theorem endsWithin_round {step : Parser (Option β)} {p : List Token → Parser α} (stop : α)
    (go : β → List Token → Parser α) {ts : List Token}
    (hp : ∀ t rounds, p (t :: rounds) = step >>= fun o => o.elim (pure stop) (go · rounds))
    (hts : Unbroken ts) (hstep : EndsBefore semi Further step ts)
    (hgo : ∀ b us, us.length < ts.length → Unbroken us → EndsWithin semi (go b) us) :
    EndsWithin semi p ts := by
  have hcons : ∀ {rest rounds : List Token}, (ts ++ semi :: rest).length ≤ rounds.length →
      ∃ t rounds', rounds = t :: rounds' := fun {rest rounds} hlen => by
    cases rounds with
    | nil => simp at hlen
    | cons t rounds => exact ⟨t, rounds, rfl⟩
  obtain ⟨taken, left, rfl, hsettled, hcosts, h⟩ := hstep
  cases hsettled with
  | givesUp his he =>
    refine .mk taken left rfl (.givesUp his he) fun rest rounds hlen => ?_
    obtain ⟨t, rounds, rfl⟩ := hcons hlen
    rw [hp]
    exact (h rest).bind_none
  | @gives is o his =>
    cases o with
    | none =>
      refine .mk taken left rfl (.gives (a := stop) his) fun rest rounds hlen => ?_
      obtain ⟨t, rounds, rfl⟩ := hcons hlen
      rw [hp]
      exact Reads.finish (a := none) (h rest) rfl
    | some b =>
      have hpos : 0 < taken.length := List.length_pos_iff.mpr (hcosts (some b) rfl rfl)
      obtain ⟨taken', left', rfl, hsettled', h'⟩ := hgo b left
        (by rw [List.length_append]; omega) hts.of_append
      refine .mk (taken ++ taken') left' (List.append_assoc ..).symm (hsettled'.behind his)
        fun rest rounds hlen => ?_
      obtain ⟨t, rounds, rfl⟩ := hcons hlen
      rw [hp]
      refine Settles.bind (a := some b) ?_ (h' rest rounds ?_)
      · rw [← List.append_assoc]
        exact h rest
      · simp only [List.length_append, List.length_cons] at hlen ⊢
        omega

theorem EndsWithin.map {p : List Token → Parser α} {ts : List Token} (h : EndsWithin semi p ts)
    (f : α → β) : EndsWithin semi (fun rounds => f <$> p rounds) ts := by
  obtain ⟨taken, left, rfl, hsettled, h⟩ := h
  cases hsettled with
  | @gives is a his =>
    exact .mk taken left rfl (.gives his) fun rest rounds hlen =>
      Reads.map (f := f) (a := a) (h rest rounds hlen)
  | givesUp his he =>
    exact .mk taken left rfl (.givesUp his he) fun rest rounds hlen =>
      (h rest rounds hlen).bind_none

/-- A loop that may take a step for each token of its stream. -/
theorem EndsWithin.endsBefore {p : List Token → Parser α} {ts : List Token}
    (h : EndsWithin semi p ts) : EndsBefore semi Free (fun s => p s.tokens s) ts := by
  obtain ⟨taken, left, rfl, hsettled, h⟩ := h
  refine .mk taken left rfl hsettled (fun _ _ => False.elim) fun rest => ?_
  have hsettles := h rest (taken ++ left ++ semi :: rest) (Nat.le_refl _)
  rwa [List.append_assoc] at hsettles

theorem confined_chain {step : α → Parser (Option α)}
    (hstep : ∀ a, Confined semi n Further (step a)) (a : α) :
    Confined semi n Free (chain step a) := by
  have hwithin : ∀ (k : Nat) (ts : List Token) (a : α), ts.length = k → k < n → Unbroken ts →
      EndsWithin semi (fun rounds => iterate step rounds a) ts := by
    intro k
    induction k using Nat.strongRecOn with
    | ind k ih =>
      intro ts a hk hlen hts
      refine endsWithin_round a (fun b rounds => iterate step rounds b) (fun t rounds => ?_) hts
        (hstep a ts (hk ▸ hlen) hts)
        fun b us hus hfree => ih us.length (hk ▸ hus) us b rfl (by omega) hfree
      show Parser.bind _ _ = Parser.bind _ _
      congr 1
      funext o
      cases o <;> rfl
  exact fun ts hlen hts => (hwithin _ ts a rfl hlen hts).endsBefore

theorem confined_many {item : Nat → Parser (Option α)}
    (hitem : ∀ count, Confined semi n Further (item count)) :
    Confined semi n Free (many item) := by
  have hwithin : ∀ (k : Nat) (ts : List Token) (count : Nat), ts.length = k → k < n →
      Unbroken ts → EndsWithin semi (fun rounds => collect item rounds count) ts := by
    intro k
    induction k using Nat.strongRecOn with
    | ind k ih =>
      intro ts count hk hlen hts
      refine endsWithin_round [] (fun b rounds => (b :: ·) <$> collect item rounds (count + 1))
        (fun t rounds => ?_) hts (hitem count ts (hk ▸ hlen) hts) fun b us hus hfree =>
          (ih us.length (hk ▸ hus) us (count + 1) rfl (by omega) hfree).map (b :: ·)
      show Parser.bind _ _ = Parser.bind _ _
      congr 1
      funext o
      cases o <;> rfl
  exact fun ts hlen hts => (hwithin _ ts 0 rfl hlen hts).endsBefore

/-! ## Expressions -/

section Expressions

variable (hsemi : semi.kind = .symbol .semicolon)

include hsemi

theorem confined_commaSeparated {item : Nat → Parser α}
    (hitem : ∀ count, Confined semi n Free (item count)) :
    Confined semi n Free (commaSeparated item) := by
  refine (hitem 0).bind fun first => ?_
  refine (confined_many fun count => ?_).bind fun rest => confined_pure id
  refine confined_accept hsemi (by decide) (fun _ => ?_) (confined_pure not_further_none) n.le_succ
  exact (hitem (count + 1)).bind fun a => confined_pure id

omit hsemi in
theorem confined_leftGrouped {operand : Parser RawExpr}
    {join? : Token → Option (RawExpr → RawExpr → RawExpr)} (hjoin : join? semi = none)
    (h : Confined semi n Free operand) : Confined semi n Free (leftGrouped operand join?) := by
  refine h.bind fun first => confined_chain (fun lhs => ?_) first
  refine confined_take? hjoin (fun join => ?_) (confined_pure not_further_none) n.le_succ
  exact h.bind fun rhs => confined_pure id

variable {inner : Parser RawExpr} (h : Confined semi n Free inner)

include h

theorem confined_primary : Confined semi (n + 1) Free (primary inner) := by
  refine confined_take? ?_ (fun literal => confined_pure id) ?_ (Nat.le_refl _)
  · simp [literalOf?, Token.literal?, hsemi]
  refine confined_accept hsemi (by decide) (fun keyword => ?_) ?_ (Nat.le_refl _)
  · refine (confined_expect hsemi (by decide) .superDot).bind fun _ => ?_
    exact (confined_expect hsemi (by decide) _).bind fun _ => confined_pure id
  refine confined_accept hsemi (by decide) (fun keyword => confined_pure id) ?_ (Nat.le_refl _)
  refine confined_accept hsemi (by decide) (fun name => confined_pure id) ?_ (Nat.le_refl _)
  refine confined_accept hsemi (by decide) (fun _ => ?_) (confined_refuse _) (Nat.le_refl _)
  refine h.bind fun e => ?_
  exact (confined_expect hsemi (by decide) .groupEnd).bind fun _ => confined_pure id

theorem confined_arguments : Confined semi n Free (arguments inner) := by
  have hend : ∀ args : List RawExpr, Confined semi n Free
      (symbol .rightParen .argumentsEnd >>= fun paren => pure (args, paren.pos)) := fun args =>
    (confined_expect hsemi (by decide) .argumentsEnd).bind fun _ => confined_pure id
  refine confined_nextIs (hend []) ?_
  refine (confined_commaSeparated hsemi fun count => ?_).bind hend
  exact (confined_checkCount (Or.inl rfl) count).bind fun _ => h

theorem confined_postfixed : Confined semi (n + 1) Free (postfixed inner) := by
  refine (confined_primary hsemi h).bind fun first => confined_chain (fun object => ?_) first
  refine confined_accept hsemi (by decide) (fun _ => ?_) ?_ (Nat.le_refl _)
  · exact (confined_arguments hsemi h).bind fun _ => confined_pure id
  refine confined_accept hsemi (by decide) (fun _ => ?_) (confined_pure not_further_none)
    (Nat.le_refl _)
  exact (confined_expect (n := n) hsemi (by decide) .propertyName).bind fun _ => confined_pure id

theorem confined_unary : Confined semi (n + 1) Free (unary inner) := by
  refine (confined_many fun _ => ?_).bind fun ops =>
    (confined_postfixed hsemi h).bind fun operand => confined_pure id
  rw [← bind_pure (take? _)]
  refine confined_take? (n := n) ?_ (fun _ => confined_pure id) (confined_pure not_further_none)
    (Nat.le_refl _)
  simp [hsemi, unaryOp?]

theorem confined_disjunction : Confined semi (n + 1) Free (disjunction inner) := by
  have hbinary : ∀ op? : Symbol → Option BinaryOp, op? .semicolon = none →
      joinBinary? op? semi = none := fun op? hop => by
    simp [joinBinary?, hsemi, hop]
  have hlogical : ∀ op, joinLogical? op semi = none := fun op => by
    simp [joinLogical?, hsemi]
  refine confined_leftGrouped (hlogical .or) (confined_leftGrouped (hlogical .and) ?_)
  refine confined_leftGrouped (hbinary _ rfl) (confined_leftGrouped (hbinary _ rfl) ?_)
  refine confined_leftGrouped (hbinary _ rfl) (confined_leftGrouped (hbinary _ rfl) ?_)
  exact confined_unary hsemi h

theorem confined_assignment : Confined semi (n + 1) Free (assignment inner) := by
  refine (confined_disjunction hsemi h).bind fun target => ?_
  refine confined_accept hsemi (by decide) (fun equals => ?_) (confined_pure id) (Nat.le_refl _)
  refine h.bind fun value => ?_
  split
  · exact confined_pure id
  · intro ts _ _
    exact .mk [] ts rfl (.gives (tolerated_target equals)) (fun _ _ => False.elim) fun _ _ => rfl

omit h in
theorem confined_expression : ∀ n, Confined semi n Free expression
  | 0 => confined_zero
  | n + 1 => by
    rw [expression_eq]
    exact confined_assignment hsemi (confined_expression n)

end Expressions

/-! ## Statements up to a semicolon -/

/-- In front of `ts` and a semicolon the reader takes all of it and gives a value, or gives up in
front of the semicolon or before, whatever stands behind. -/
inductive EndsBy (semi : Token) (p : Parser α) (ts : List Token) : Prop
  | gives {a : α} {is : List Issue} (his : Tolerated is)
      (h : ∀ rest, Reads p (ts ++ [semi]) rest a is)
  | givesUp (taken left : List Token) {is : List Issue} (htokens : ts = taken ++ left)
      (hsettled : Settled is (none : Option α))
      (h : ∀ rest, Settles p taken (left ++ semi :: rest) none is)

/-- A reader that takes the semicolon behind any tokens that have none, unless it gives up. -/
def Closed (semi : Token) (p : Parser α) : Prop :=
  ∀ ts, Unbroken ts → EndsBy semi p ts

theorem EndsBy.accept {kind : Kind} {f : Option Token → Parser α} {t : Token} {ts : List Token}
    (ht : t.kind = kind) (h : EndsBy semi (f (some t)) ts) :
    EndsBy semi (Parser.accept kind >>= f) (t :: ts) := by
  cases h with
  | gives his h => exact .gives his fun rest => reads_accept ht (h rest)
  | givesUp taken left htokens hsettled h =>
    exact .givesUp (t :: taken) left (congrArg (t :: ·) htokens) hsettled fun rest =>
      settles_accept ht (h rest)

theorem EndsBy.accept_none {kind : Kind} {f : Option Token → Parser α} {ts : List Token}
    (hhead : HeadAvoids (· = kind) (ts ++ [semi])) (h : EndsBy semi (f none) ts) :
    EndsBy semi (Parser.accept kind >>= f) ts := by
  have hrest : ∀ rest, HeadAvoids (· = kind) (ts ++ semi :: rest) := fun rest t ht => by
    refine hhead t ?_
    cases ts <;> exact ht
  cases h with
  | gives his h =>
    refine .gives his fun rest => reads_accept_none ?_ (h rest)
    rw [List.append_assoc]
    exact hrest rest
  | givesUp taken left htokens hsettled h =>
    subst htokens
    refine .givesUp taken left rfl hsettled fun rest => settles_accept_none ?_ (h rest)
    rw [← List.append_assoc]
    exact hrest rest

theorem Closed.map {p : Parser α} (h : Closed semi p) (f : α → β) : Closed semi (f <$> p) := by
  intro ts hts
  cases h ts hts with
  | gives his h => exact .gives his fun rest => (h rest).map
  | givesUp taken left htokens hsettled h =>
    obtain ⟨js, e, rfl, hjs, he⟩ := hsettled.givenUp
    exact .givesUp taken left htokens (.givesUp hjs he) fun rest => (h rest).bind_none

/-- A reader that ends before the semicolon, with one behind it that takes the semicolon. -/
theorem Confined.closed {p : Parser α} {f : α → Parser β} (hp : ∀ n, Confined semi n Free p)
    (hf : ∀ a, Closed semi (f a)) : Closed semi (p >>= f) := by
  intro ts hts
  obtain ⟨taken, left, rfl, hsettled, -, h⟩ := hp _ ts (Nat.lt_succ_self _) hts
  cases hsettled with
  | givesUp his he =>
    exact .givesUp taken left rfl (.givesUp his he) fun rest => (h rest).bind_none
  | gives his =>
    cases hf _ left hts.of_append with
    | @gives b _ hjs h' =>
      refine .gives (a := b) (his.append hjs) fun rest => ?_
      rw [List.append_assoc]
      refine Reads.bind ?_ (h' rest)
      rw [List.append_assoc]
      exact h rest
    | givesUp taken' left' htokens hsettled h' =>
      subst htokens
      refine .givesUp (taken ++ taken') left' (List.append_assoc ..).symm (hsettled.behind his)
        fun rest => Settles.bind ?_ (h' rest)
      rw [← List.append_assoc]
      exact h rest

section Statements

variable (hsemi : semi.kind = .symbol .semicolon)

include hsemi

/-- The semicolon itself, which is asked for in vain if another token stands before it. -/
theorem closed_semicolon (what : Expectation) (a : α) :
    Closed semi (symbol .semicolon what >>= fun _ => pure a) := by
  intro ts hts
  cases ts with
  | nil => exact .gives tolerated_nil fun rest => reads_expect hsemi (reads_pure a rest)
  | cons t ts =>
    exact .givesUp [] (t :: ts) rfl (settled_refused t what) fun rest =>
      (settles_expect_other (hts t List.mem_cons_self) _).bind_none

theorem closed_expressionStatement : Closed semi expressionStatement :=
  Confined.closed (confined_expression hsemi) fun _ => closed_semicolon hsemi _ _

theorem closed_printStatement : Closed semi printStatement :=
  Confined.closed (confined_expression hsemi) fun _ => closed_semicolon hsemi _ _

theorem closed_returnStatement (keyword : Pos) : Closed semi (returnStatement keyword) := by
  have hvalue : ∀ n, Confined semi n Free (optionalExpression .semicolon) := fun n =>
    confined_nextIs (confined_pure id)
      ((confined_expression hsemi n).bind fun e => confined_pure id)
  exact Confined.closed hvalue fun _ => closed_semicolon hsemi _ _

theorem closed_variableDeclaration : Closed semi variableDeclaration := by
  have hend : ∀ (name : Token) (initializer : Option RawExpr), Closed semi
      (symbol .semicolon .variableEnd >>= fun _ => pure (Stmt.var (nameOf name) initializer)) :=
    fun name initializer => closed_semicolon hsemi _ _
  refine Confined.closed (fun n => confined_expect hsemi (by decide) .variableName) fun name => ?_
  intro ts hts
  have hbare := hend name none ts hts
  cases ts with
  | nil => exact hbare.accept_none (headAvoids_cons (by rw [hsemi]; decide))
  | cons t us =>
    by_cases ht : t.kind = .symbol .equal
    · refine EndsBy.accept ht (Confined.closed (fun n => ?_) (hend name) us hts.of_cons)
      exact (confined_expression hsemi n).map some
    · exact hbare.accept_none (headAvoids_cons ht)

/-- The kinds of tokens with which a statement begins that may have others inside of it, and that of
the token that goes on with one. -/
def nestingKinds : List Kind :=
  [.keyword .class, .keyword .fun, .keyword .for, .keyword .if, .keyword .while, .keyword .else,
    .symbol .leftBrace]

/-- A declaration that does not begin as one that may have others inside of it. -/
theorem endsBy_declarationOver {ts : List Token} (hts : Unbroken ts)
    (hhead : HeadAvoids (· ∈ nestingKinds) (ts ++ [semi])) :
    EndsBy semi (declarationOver statement declaration) ts := by
  have hnot : ∀ kind ∈ nestingKinds, HeadAvoids (· = kind) (ts ++ [semi]) :=
    fun kind hkind t ht hk => hhead t ht (hk ▸ hkind)
  refine EndsBy.accept_none (hnot _ (by decide)) (EndsBy.accept_none (hnot _ (by decide)) ?_)
  rw [statement_eq]
  by_cases hvar : ∃ t us, ts = t :: us ∧ t.kind = .keyword .var
  · obtain ⟨t, us, rfl, ht⟩ := hvar
    exact .accept ht (closed_variableDeclaration hsemi us hts.of_cons)
  by_cases hprint : ∃ t us, ts = t :: us ∧ t.kind = .keyword .print
  · obtain ⟨t, us, rfl, ht⟩ := hprint
    have hother : ∀ {kind : Kind}, kind ≠ .keyword .print →
        HeadAvoids (· = kind) (t :: us ++ [semi]) := fun hkind =>
      headAvoids_cons (ht ▸ hkind.symm)
    refine .accept_none (hother (by decide)) (.accept_none (hnot _ (by decide)) ?_)
    exact .accept_none (hnot _ (by decide))
      (.accept ht (closed_printStatement hsemi us hts.of_cons))
  by_cases hreturn : ∃ t us, ts = t :: us ∧ t.kind = .keyword .return
  · obtain ⟨t, us, rfl, ht⟩ := hreturn
    have hother : ∀ {kind : Kind}, kind ≠ .keyword .return →
        HeadAvoids (· = kind) (t :: us ++ [semi]) := fun hkind =>
      headAvoids_cons (ht ▸ hkind.symm)
    refine .accept_none (hother (by decide)) (.accept_none (hnot _ (by decide)) ?_)
    refine .accept_none (hnot _ (by decide)) (.accept_none (hother (by decide)) ?_)
    exact .accept ht (closed_returnStatement hsemi t.pos us hts.of_cons)
  have hother : ∀ {kind : Kind}, kind ≠ .symbol .semicolon →
      (¬∃ t us, ts = t :: us ∧ t.kind = kind) → HeadAvoids (· = kind) (ts ++ [semi]) := by
    intro kind hkind hts
    cases ts with
    | nil => exact headAvoids_cons (hsemi ▸ hkind.symm)
    | cons t us => exact headAvoids_cons fun ht => hts ⟨t, us, rfl, ht⟩
  refine .accept_none (hother (by decide) hvar) (.accept_none (hnot _ (by decide)) ?_)
  refine .accept_none (hnot _ (by decide)) (.accept_none (hother (by decide) hprint) ?_)
  refine .accept_none (hother (by decide) hreturn) (.accept_none (hnot _ (by decide)) ?_)
  exact .accept_none (hnot _ (by decide)) (closed_expressionStatement hsemi ts hts)

end Statements

end LoxKit.Grammar
