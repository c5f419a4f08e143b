import LoxKit.Proofs.Grammar.Reading

/-!
# Issues are paid for with tokens

A reader finds no more issues than the tokens it takes can pay for. What it may find is its `Price`:
most readers keep a token more than they find issues, so that what follows them may fail at once
without running into debt; only the readers of one more item of a list run into debt, and the comma
before the item pays it.

The same statement compares two readers of which the second leaves notes behind the syntax errors of
the first. Without notes it says that both answer alike, so that it does not matter how many levels
of nesting a reader was given if there were enough.

Headlines:
* `Price.Before`: what one reader behind another costs.
* `Pays.bind`, `Pays.token`, `pays_take?`, `pays_many`, `pays_chain`: the rules for readers.
* `pays_assignment`, `pays_expression`: the readers of expressions.
-/

namespace LoxKit

/-! ## Notes -/

/-- An issue with the notes that are left behind it, which only a syntax error has. -/
def Issue.noted (notes : List Issue) (i : Issue) : List Issue :=
  match i.complaint with
  | .expected _ => i :: notes
  | _ => [i]

/-- Issues with notes behind each syntax error. -/
def noted (notes is : List Issue) : List Issue :=
  is.flatMap (Issue.noted notes)

section Notes

variable {notes : List Issue}

@[simp]
theorem noted_nil : noted notes [] = [] := rfl

@[simp]
theorem noted_append (is js : List Issue) : noted notes (is ++ js) = noted notes is ++ noted notes js :=
  List.flatMap_append

theorem noted_syntaxError {e : Issue} (h : e.IsSyntaxError) : noted notes [e] = e :: notes := by
  obtain ⟨what, hw⟩ := h
  simp [noted, Issue.noted, hw]

theorem noted_atToken (t : Token) {c : Complaint} (h : ∀ what, c ≠ .expected what) :
    noted notes [.atToken t c] = [.atToken t c] := by
  have hc : (Issue.atToken t c).complaint = c := by
    unfold Issue.atToken
    split <;> rfl
  unfold noted Issue.noted
  rw [List.flatMap_singleton, hc]
  split
  · exact absurd rfl (h _)
  · rfl

/-- Without notes the issues stay as they are. -/
theorem noted_none (is : List Issue) : noted [] is = is := by
  have hnoted : Issue.noted [] = fun i => [i] := by
    funext i
    unfold Issue.noted
    split <;> rfl
  rw [noted, hnoted, List.flatMap_singleton']

end Notes

/-! ## Prices -/

/-- What a reader may find for the tokens that it takes. -/
inductive Price where
  /-- Fewer issues than tokens. -/
  | solid
  /-- Nothing for nothing, and fewer issues than tokens otherwise. -/
  | tidy
  /-- No more issues than tokens. The reader never gives up. -/
  | free
  /-- No more issues than tokens, of which there is one at least. The reader never gives up. -/
  | fair
  /-- No more issues than tokens, up to a debt. -/
  | weak (debt : Nat)

namespace Price

/-- Whether a reader that gives a value may have taken so many tokens and found so many issues. -/
def Allows : Price → (tokens issues : Nat) → Prop
  | solid, tokens, issues => issues < tokens
  | tidy, tokens, issues => issues ≤ tokens - 1
  | free, tokens, issues => issues ≤ tokens
  | fair, tokens, issues => 0 < tokens ∧ issues ≤ tokens
  | weak debt, tokens, issues => issues ≤ tokens + debt

/-- Whether a reader that gives up may have done so. Its last issue says why. -/
def Forgives : Price → (tokens issues : Nat) → Prop
  | solid, tokens, issues | tidy, tokens, issues => issues ≤ max 1 tokens
  | free, _, _ | fair, _, _ => False
  | weak debt, tokens, issues => issues ≤ tokens + debt + 1

/-- A reader of the first price with one of the second behind it has the third. -/
structure Before (first second both : Price) : Prop where
  forgives {t i : Nat} (h : first.Forgives t i) : both.Forgives t i
  allows_allows {t i t' i' : Nat} (h : first.Allows t i) (h' : second.Allows t' i') :
    both.Allows (t + t') (i + i')
  allows_forgives {t i t' i' : Nat} (h : first.Allows t i) (h' : second.Forgives t' i') :
    both.Forgives (t + t') (i + i')

theorem Before.solid_tidy : Before solid tidy solid := by
  constructor <;> simp only [Allows, Forgives] <;> intros <;> omega

theorem Before.tidy_solid : Before tidy solid solid := by
  constructor <;> simp only [Allows, Forgives] <;> intros <;> omega

theorem Before.tidy_tidy : Before tidy tidy tidy := by
  constructor <;> simp only [Allows, Forgives] <;> intros <;> omega

theorem Before.solid_solid : Before solid solid solid := by
  constructor <;> simp only [Allows, Forgives] <;> intros <;> omega

theorem Before.solid_weak : Before solid (weak 0) solid := by
  constructor <;> simp only [Allows, Forgives] <;> intros <;> omega

theorem Before.weak_solid {debt : Nat} : Before (weak debt) solid (weak debt) := by
  constructor <;> simp only [Allows, Forgives] <;> intros <;> omega

theorem Before.weak_weak {debt debt' : Nat} : Before (weak debt) (weak debt') (weak (debt + debt')) := by
  constructor <;> simp only [Allows, Forgives] <;> intros <;> omega

theorem Before.free_free : Before free free free :=
  ⟨id, fun h h' => Nat.add_le_add h h', fun _ h => h⟩

/-- A token pays a debt. -/
theorem Before.solid_debt {debt : Nat} : Before solid (weak (debt + 1)) (weak debt) := by
  constructor <;> simp only [Allows, Forgives] <;> intros <;> omega

/-- One price is within another. -/
structure Within (price price' : Price) : Prop where
  allows {t i : Nat} (h : price.Allows t i) : price'.Allows t i
  forgives {t i : Nat} (h : price.Forgives t i) : price'.Forgives t i

theorem Before.within {first second both both' : Price} (h : Before first second both)
    (hboth : both.Within both') : Before first second both' where
  forgives h' := hboth.forgives (h.forgives h')
  allows_allows h' h'' := hboth.allows (h.allows_allows h' h'')
  allows_forgives h' h'' := hboth.forgives (h.allows_forgives h' h'')

theorem Within.solid_tidy : Within solid tidy := by
  constructor <;> simp only [Allows, Forgives] <;> intros <;> omega

theorem Within.fair_free : Within fair free :=
  ⟨fun h => h.2, False.elim⟩

theorem Within.free_weak {debt : Nat} : Within free (weak debt) :=
  ⟨fun h => Nat.le_add_right_of_le h, False.elim⟩

/-- A price that any number of readers one behind the other may have. -/
structure Repeats (price : Price) : Prop where
  nothing : price.Allows 0 0
  again : price.Before price price

theorem Repeats.tidy : Repeats .tidy :=
  ⟨Nat.le_refl 0, .tidy_tidy⟩

theorem Repeats.free : Repeats .free :=
  ⟨Nat.le_refl 0, .free_free⟩

theorem Repeats.weak : Repeats (.weak 0) :=
  ⟨Nat.le_refl 0, .weak_weak⟩

end Price

/-! ## Answers -/

namespace Parser

variable {α β : Type}

/-- The answers of two readers on a stream. The first takes tokens from the front of it at a price,
and gives up with a syntax error only; the second answers the same with notes behind the syntax
errors, except behind the one with which it gives up. -/
inductive Answers (notes : List Issue) (price : Price) (s : Stream) : Reply α → Reply α → Prop
  | gives (taken : List Token) {rest : List Token} (is : List Issue) {a : α}
      (h : s.tokens = taken ++ rest) (hprice : price.Allows taken.length is.length) :
      Answers notes price s ⟨is, ⟨rest, s.ending⟩, some a⟩
        ⟨noted notes is, ⟨rest, s.ending⟩, some a⟩
  | givesUp (taken : List Token) {rest : List Token} (is : List Issue) {e : Issue}
      (h : s.tokens = taken ++ rest) (he : e.IsSyntaxError) (hprice : price.Forgives taken.length (is.length + 1)) :
      Answers notes price s ⟨is ++ [e], ⟨rest, s.ending⟩, none⟩
        ⟨noted notes is ++ [e], ⟨rest, s.ending⟩, none⟩

/-- So two readers answer on all streams with fewer than `n` tokens. -/
def Pays (notes : List Issue) (price : Price) (n : Nat) (p q : Parser α) : Prop :=
  ∀ s : Stream, s.tokens.length < n → Answers notes price s (p s) (q s)

variable {notes : List Issue} {price first second : Price} {n : Nat}

theorem Answers.within {price' : Price} {s : Stream} {r r' : Reply α}
    (h : Answers notes price s r r') (hprice : price.Within price') : Answers notes price' s r r' := by
  cases h with
  | gives taken is htokens hp => exact .gives taken is htokens (hprice.allows hp)
  | givesUp taken is htokens he hp => exact .givesUp taken is htokens he (hprice.forgives hp)

/-- Without notes the answers are the same. -/
theorem Answers.eq {s : Stream} {r r' : Reply α} (h : Answers [] price s r r') : r = r' := by
  cases h with
  | gives => rw [noted_none]
  | givesUp => rw [noted_none]

/-- A reader that is not forgiven gives a value. -/
theorem Answers.exists_eq {s : Stream} {r r' : Reply α} (h : Answers notes price s r r')
    (hprice : ∀ t i, ¬price.Forgives t i) : ∃ taken rest is a, s.tokens = taken ++ rest ∧
      price.Allows taken.length is.length ∧ r = ⟨is, ⟨rest, s.ending⟩, some a⟩ ∧
      r' = ⟨noted notes r.issues, r.rest, r.value⟩ := by
  cases h with
  | @gives taken rest is a htokens hallowed =>
    exact ⟨taken, rest, is, a, htokens, hallowed, rfl, rfl⟩
  | givesUp _ _ _ _ hforgiven => exact absurd hforgiven (hprice _ _)

/-- Answers behind tokens that were taken before. -/
theorem Answers.behind {s : Stream} (taken : List Token) {rest : List Token} (is : List Issue)
    {r r' : Reply α} (hprice : first.Before second price) (htokens : s.tokens = taken ++ rest)
    (hallowed : first.Allows taken.length is.length)
    (h : Answers notes second ⟨rest, s.ending⟩ r r') :
    Answers notes price s ⟨is ++ r.issues, r.rest, r.value⟩
      ⟨noted notes is ++ r'.issues, r'.rest, r'.value⟩ := by
  have hsplit : ∀ {taken' rest' : List Token}, rest = taken' ++ rest' →
      s.tokens = (taken ++ taken') ++ rest' := fun h => by
    rw [htokens, h, List.append_assoc]
  cases h with
  | gives taken' is' htokens' hallowed' =>
    have hlen := hprice.allows_allows hallowed hallowed'
    rw [← List.length_append, ← List.length_append] at hlen
    rw [← noted_append]
    exact .gives _ _ (hsplit htokens') hlen
  | @givesUp taken' rest' is' e htokens' he hallowed' =>
    have hlen := hprice.allows_forgives hallowed hallowed'
    rw [← List.length_append, ← Nat.add_assoc, ← List.length_append] at hlen
    dsimp only
    rw [← List.append_assoc, ← List.append_assoc, ← noted_append]
    exact .givesUp _ _ (hsplit htokens') he hlen

theorem Answers.bind {p q : Parser α} {f g : α → Parser β} {s : Stream}
    (hprice : first.Before second price) (hp : Answers notes first s (p s) (q s))
    (hf : ∀ a taken rest issues, s.tokens = taken ++ rest → first.Allows taken.length issues →
      Answers notes second ⟨rest, s.ending⟩ (f a ⟨rest, s.ending⟩) (g a ⟨rest, s.ending⟩)) :
    Answers notes price s ((p >>= f) s) ((q >>= g) s) := by
  show Answers notes price s (Parser.bind p f s) (Parser.bind q g s)
  unfold Parser.bind
  generalize p s = r at hp
  generalize q s = r' at hp
  cases hp with
  | givesUp taken is htokens he hallowed =>
    exact .givesUp taken is htokens he (hprice.forgives hallowed)
  | @gives taken rest is a htokens hallowed =>
    exact .behind taken is hprice htokens hallowed (hf a taken rest is.length htokens hallowed)

theorem Pays.within {price' : Price} {p q : Parser α} (h : Pays notes price n p q)
    (hprice : price.Within price') : Pays notes price' n p q :=
  fun s hs => (h s hs).within hprice

theorem Pays.mono {m : Nat} {p q : Parser α} (h : Pays notes price n p q) (hm : m ≤ n) :
    Pays notes price m p q :=
  fun s hs => h s (Nat.lt_of_lt_of_le hs hm)

theorem Pays.bind {p q : Parser α} {f g : α → Parser β} (hp : Pays notes first n p q)
    (hprice : first.Before second price) (hf : ∀ a, Pays notes second n (f a) (g a)) :
    Pays notes price n (p >>= f) (q >>= g) := by
  intro s hs
  refine (hp s hs).bind hprice fun a taken rest _ htokens _ => hf a _ ?_
  rw [htokens, List.length_append] at hs
  dsimp only
  omega

/-- Behind a token there is one token less to read. -/
theorem Pays.token {p q : Parser α} {f g : α → Parser β} (hprice : Price.solid.Before second price)
    (hp : Pays notes .solid (n + 1) p q) (hf : ∀ a, Pays notes second n (f a) (g a)) :
    Pays notes price (n + 1) (p >>= f) (q >>= g) := by
  intro s hs
  refine (hp s hs).bind hprice fun a taken rest issues htokens hallowed => hf a _ ?_
  have htaken : issues < taken.length := hallowed
  rw [htokens, List.length_append] at hs
  dsimp only
  omega

theorem pays_pure (a : α) (h : price.Allows 0 0) : Pays notes price n (pure a) (pure a) :=
  fun _ _ => .gives [] [] rfl h

theorem Answers.map {p q : Parser α} {s : Stream} (h : Answers notes price s (p s) (q s))
    (f : α → β) : Answers notes price s ((f <$> p) s) ((f <$> q) s) := by
  show Answers notes price s (Parser.bind p (fun a => Parser.pure (f a)) s)
    (Parser.bind q (fun a => Parser.pure (f a)) s)
  unfold Parser.bind Parser.pure
  generalize p s = r at h
  generalize q s = r' at h
  cases h with
  | gives taken is htokens hallowed =>
    simpa only [List.append_nil] using Answers.gives taken is htokens hallowed
  | givesUp taken is htokens he hallowed => exact .givesUp taken is htokens he hallowed

theorem Pays.map {p q : Parser α} (h : Pays notes price n p q) (f : α → β) :
    Pays notes price n (f <$> p) (f <$> q) :=
  fun s hs => (h s hs).map f

/-- A reader that takes nothing. -/
theorem pays_nothing (a : α) : Pays notes .tidy n (pure a) (pure a) :=
  pays_pure a (Nat.le_refl 0)

theorem pays_zero {p q : Parser α} : Pays notes price 0 p q :=
  fun _ hs => absurd hs (Nat.not_lt_zero _)

/-! ### Single tokens -/

theorem answers_refuse (what : Expectation) (s : Stream) (h : price.Forgives 0 1) :
    Answers notes price s (refuse what s : Reply α) (refuse what s) := by
  refine Answers.givesUp [] [] rfl ⟨what, ?_⟩ h
  unfold Issue.atToken
  split <;> rfl

theorem pays_refuse (what : Expectation) :
    Pays notes .solid n (refuse what : Parser α) (refuse what) :=
  fun s _ => answers_refuse what s (Nat.le_refl 1)

theorem pays_expect (kind : Kind) (what : Expectation) :
    Pays notes .solid n (expect kind what) (expect kind what) := by
  intro s _
  unfold expect
  rcases hs : s.tokens with _ | ⟨t, ts⟩
  · exact answers_refuse what s (Nat.le_refl 1)
  · dsimp only
    split
    · have hdrop : s.drop = ⟨ts, s.ending⟩ := by rw [Stream.drop, hs, List.tail_cons]
      rw [hdrop]
      exact .gives [t] [] hs Nat.zero_lt_one
    · exact answers_refuse what s (Nat.le_refl 1)

theorem pays_symbol (sym : Symbol) (what : Expectation) :
    Pays notes .solid n (symbol sym what) (symbol sym what) :=
  pays_expect (.symbol sym) what

/-- A token may be taken or not; behind one there is one less to read. -/
theorem pays_take? {test : Token → Option α} {f g : Option α → Parser β}
    (hprice : Price.solid.Before second price)
    (hit : ∀ a, Pays notes second n (f (some a)) (g (some a)))
    (miss : Pays notes price (n + 1) (f none) (g none)) :
    Pays notes price (n + 1) (take? test >>= f) (take? test >>= g) := by
  intro s hs
  show Answers notes price s (Parser.bind _ f s) (Parser.bind _ g s)
  have hnone : take? test s = ⟨[], s, some none⟩ →
      Answers notes price s (Parser.bind (take? test) f s) (Parser.bind (take? test) g s) := by
    intro h
    simpa only [Parser.bind, h, List.nil_append] using miss s hs
  rcases htokens : s.tokens with _ | ⟨t, ts⟩
  · exact hnone (by simp only [take?, htokens])
  · cases htest : test t with
    | none => exact hnone (by simp only [take?, htokens, htest])
    | some a =>
      have htake : take? test s = ⟨[], ⟨ts, s.ending⟩, some (some a)⟩ := by
        simp only [take?, htokens, htest, Stream.drop, List.tail_cons]
      have hrest := hit a ⟨ts, s.ending⟩ (by
        rw [htokens, List.length_cons] at hs
        exact Nat.lt_of_succ_lt_succ hs)
      simp only [Parser.bind, htake]
      exact .behind [t] [] hprice htokens Nat.zero_lt_one hrest

theorem pays_accept {kind : Kind} {f g : Option Token → Parser β}
    (hprice : Price.solid.Before second price)
    (hit : ∀ t, Pays notes second n (f (some t)) (g (some t)))
    (miss : Pays notes price (n + 1) (f none) (g none)) :
    Pays notes price (n + 1) (accept kind >>= f) (accept kind >>= g) :=
  pays_take? hprice hit miss

/-- A token that may be taken or not, where it does not matter that there is one less to read. -/
theorem pays_accept_here {kind : Kind} {f g : Option Token → Parser β}
    (hprice : Price.solid.Before second price)
    (hit : ∀ t, Pays notes second n (f (some t)) (g (some t)))
    (miss : Pays notes price n (f none) (g none)) :
    Pays notes price n (accept kind >>= f) (accept kind >>= g) := by
  cases n with
  | zero => exact pays_zero
  | succ n => exact pays_accept hprice (fun t => (hit t).mono n.le_succ) miss

theorem pays_look {f g : Stream → Parser β}
    (h : ∀ s, s.tokens.length < n → Answers notes price s (f s s) (g s s)) :
    Pays notes price n (look >>= f) (look >>= g) := by
  intro s hs
  show Answers notes price s (Parser.bind look f s) (Parser.bind look g s)
  simpa only [Parser.bind, look, List.nil_append] using h s hs

/-- An issue that is no syntax error is a debt. -/
theorem pays_report (t : Token) {c : Complaint} (h : ∀ what, c ≠ .expected what) :
    Pays notes (.weak 1) n (report (.atToken t c)) (report (.atToken t c)) := by
  intro s _
  have hanswer : Answers notes (.weak 1) s ⟨[.atToken t c], s, some ()⟩
      ⟨noted notes [.atToken t c], s, some ()⟩ := .gives [] [.atToken t c] rfl (Nat.le_refl 1)
  rwa [noted_atToken t h] at hanswer

/-! ### Loops -/

theorem pays_iterate {step step' : α → Parser (Option α)} (hprice : price.Repeats)
    (hstep : ∀ a, Pays notes price n (step a) (step' a)) : ∀ (rounds : List Token) (a : α),
    Pays notes price n (iterate step rounds a) (iterate step' rounds a)
  | [], a => pays_pure a hprice.nothing
  | _ :: rounds, a => by
    refine (hstep a).bind hprice.again fun o => ?_
    cases o with
    | none => exact pays_pure a hprice.nothing
    | some b => exact pays_iterate hprice hstep rounds b

theorem pays_chain {step step' : α → Parser (Option α)} (hprice : price.Repeats)
    (hstep : ∀ a, Pays notes price n (step a) (step' a)) (a : α) :
    Pays notes price n (chain step a) (chain step' a) :=
  fun s hs => pays_iterate hprice hstep s.tokens a s hs

theorem pays_collect {item item' : Nat → Parser (Option α)} (hprice : price.Repeats)
    (hitem : ∀ count, Pays notes price n (item count) (item' count)) :
    ∀ (rounds : List Token) (count : Nat),
      Pays notes price n (collect item rounds count) (collect item' rounds count)
  | [], _ => pays_pure [] hprice.nothing
  | _ :: rounds, count => by
    refine (hitem count).bind hprice.again fun o => ?_
    cases o with
    | none => exact pays_pure [] hprice.nothing
    | some a => exact (pays_collect hprice hitem rounds (count + 1)).map (a :: ·)

theorem pays_many {item item' : Nat → Parser (Option α)} (hprice : price.Repeats)
    (hitem : ∀ count, Pays notes price n (item count) (item' count)) :
    Pays notes price n (many item) (many item') :=
  fun s hs => pays_collect hprice hitem s.tokens 0 s hs

/-- Items up to a stop, which have to pay only for what they read in front of one. -/
theorem pays_eachUntil {stop : Stream → Bool} {item item' : Parser α} (hprice : price.Repeats)
    (hitem : ∀ s, s.tokens.length < n → stop s = false → Answers notes price s (item s) (item' s)) :
    Pays notes price n (many (eachUntil stop item)) (many (eachUntil stop item')) := by
  refine pays_many hprice fun _ => pays_look fun s hs => ?_
  by_cases hstop : stop s = true
  · simp only [hstop, if_true]
    exact pays_pure none hprice.nothing s hs
  · rw [Bool.not_eq_true] at hstop
    simp only [hstop, Bool.false_eq_true, if_false]
    exact (hitem s hs hstop).map some

/-- Lists with commas. What the reader of an item finds that it does not pay for, the comma pays. -/
theorem pays_commaSeparated {item item' : Nat → Parser α}
    (hfirst : Pays notes .solid n (item 0) (item' 0))
    (hitem : ∀ count, Pays notes (.weak 1) n (item (count + 1)) (item' (count + 1))) :
    Pays notes .solid n (commaSeparated item) (commaSeparated item') := by
  refine hfirst.bind .solid_weak fun first => ?_
  refine (pays_many .weak fun count => pays_accept_here .solid_debt (fun _ => ?_) ?_).map
    (first :: ·)
  · exact (hitem count).map some
  · exact pays_pure none Price.Repeats.weak.nothing

end Parser

/-! ## Expressions -/

namespace Grammar

open LoxKit.Parser

variable {notes : List Issue} {n : Nat}

theorem pays_checkCount (what : String) (count : Nat) :
    Pays notes (.weak 1) n (checkCount what count) (checkCount what count) := by
  unfold checkCount
  split
  · exact pays_look fun s hs => pays_report s.next (fun _ h => by cases h) s hs
  · exact pays_pure () (Nat.zero_le 1)

theorem pays_leftGrouped {operand operand' : Parser RawExpr}
    {join? : Token → Option (RawExpr → RawExpr → RawExpr)}
    (h : Pays notes .solid (n + 1) operand operand') :
    Pays notes .solid (n + 1) (leftGrouped operand join?) (leftGrouped operand' join?) := by
  refine h.bind .solid_tidy fun first => pays_chain .tidy (fun lhs => ?_) first
  refine pays_take? (.within .solid_solid .solid_tidy) (fun join => ?_) (pays_nothing none)
  exact (h.mono n.le_succ).bind .solid_tidy fun rhs => pays_nothing _

section Expressions

variable {inner inner' : Parser RawExpr} (h : Pays notes .solid n inner inner')

include h

theorem pays_primary : Pays notes .solid (n + 1) (primary inner) (primary inner') := by
  refine pays_take? .solid_tidy (fun literal => pays_nothing literal) ?_
  refine pays_accept .solid_solid (fun keyword => ?_) ?_
  · refine (pays_symbol .dot .superDot).bind .solid_solid fun _ => ?_
    exact (pays_expect .identifier .superclassMethodName).bind .solid_tidy fun _ => pays_nothing _
  refine pays_accept .solid_tidy (fun keyword => pays_nothing _) ?_
  refine pays_accept .solid_tidy (fun name => pays_nothing _) ?_
  refine pays_accept .solid_solid (fun _ => ?_) (pays_refuse .expression)
  refine h.bind .solid_solid fun e => ?_
  exact (pays_symbol .rightParen .groupEnd).bind .solid_tidy fun _ => pays_nothing _

theorem pays_arguments : Pays notes .solid n (arguments inner) (arguments inner') := by
  have hend : ∀ args : List RawExpr, Pays notes .solid n
      (symbol .rightParen .argumentsEnd >>= fun paren => pure (args, paren.pos))
      (symbol .rightParen .argumentsEnd >>= fun paren => pure (args, paren.pos)) := fun args =>
    (pays_symbol .rightParen .argumentsEnd).bind .solid_tidy fun _ => pays_nothing _
  refine pays_look fun s hs => ?_
  dsimp only
  split
  · exact hend [] s hs
  · refine (pays_commaSeparated ?_ fun count => ?_).bind .solid_solid hend s hs
    · exact h
    · exact (pays_checkCount "arguments" (count + 1)).bind .weak_solid fun _ => h

theorem pays_postfixed : Pays notes .solid (n + 1) (postfixed inner) (postfixed inner') := by
  refine (pays_primary h).bind .solid_tidy fun first => pays_chain .tidy (fun object => ?_) first
  refine pays_accept (.within .solid_solid .solid_tidy) (fun _ => ?_) ?_
  · exact (pays_arguments h).bind .solid_tidy fun _ => pays_nothing _
  refine pays_accept (.within .solid_solid .solid_tidy) (fun _ => ?_) (pays_nothing none)
  exact (pays_expect .identifier .propertyName).bind .solid_tidy fun _ => pays_nothing _

theorem pays_unary : Pays notes .solid (n + 1) (unary inner) (unary inner') := by
  have hops : ∀ test : Token → Option (UnaryOp × Pos),
      Pays notes .tidy (n + 1) (take? test) (take? test) := fun test => by
    rw [← bind_pure (take? test)]
    exact pays_take? (.within .solid_tidy .solid_tidy) (fun _ => pays_nothing _) (pays_nothing none)
  refine (pays_many .tidy fun _ => hops _).bind .tidy_solid fun ops => ?_
  exact (pays_postfixed h).bind .solid_tidy fun operand => pays_nothing _

theorem pays_disjunction : Pays notes .solid (n + 1) (disjunction inner) (disjunction inner') :=
  pays_leftGrouped (pays_leftGrouped (pays_leftGrouped (pays_leftGrouped (pays_leftGrouped
    (pays_leftGrouped (pays_unary h))))))

theorem pays_assignment : Pays notes .solid (n + 1) (assignment inner) (assignment inner') := by
  refine (pays_disjunction h).bind .solid_tidy fun target => ?_
  refine pays_accept (.within .solid_weak .solid_tidy) (fun equals => ?_) (pays_nothing target)
  refine h.bind .solid_debt fun value => ?_
  split
  · exact pays_pure _ (Nat.zero_le 1)
  · exact (pays_report equals fun _ h => by cases h).bind .weak_weak fun _ =>
      pays_pure target Price.Repeats.weak.nothing

end Expressions

/-- Two readers that have enough levels answer alike. -/
theorem pays_expressionWithin : ∀ {n : Nat} {levels levels' : List Token}, n ≤ levels.length →
    n ≤ levels'.length → Pays notes .solid n (expressionWithin levels) (expressionWithin levels')
  | 0, _, _, _, _ => pays_zero
  | _ + 1, [], _, h, _ => absurd h (Nat.not_succ_le_zero _)
  | _ + 1, _ :: _, [], _, h => absurd h (Nat.not_succ_le_zero _)
  | _ + 1, _ :: _, _ :: _, h, h' =>
    pays_assignment (pays_expressionWithin (Nat.le_of_succ_le_succ h) (Nat.le_of_succ_le_succ h'))

theorem pays_expression : Pays notes .solid n expression expression :=
  fun s _ => pays_expressionWithin (Nat.le_refl s.all.length) (Nat.le_refl _) s (Nat.lt_succ_self _)

/-- The reader of expressions is the rule of assignment over itself. -/
theorem expression_eq : expression = assignment expression := by
  funext s
  have hinner : Pays [] .solid s.tokens.length (expressionWithin s.tokens) expression :=
    fun s' hs' => pays_expressionWithin (Nat.succ_le_of_lt hs') (Nat.le_refl _) s' (Nat.lt_succ_self _)
  exact (pays_assignment hinner s (Nat.lt_succ_self _)).eq

end Grammar

end LoxKit
