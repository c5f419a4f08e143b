import LoxKit.Proofs.Grammar.Derivation

/-!
# What readers do

Two statements about a reader. `Reads p ts rest a is`: in front of `rest`, the reader takes exactly
`ts`, gives `a` and finds `is`. `Yields p s Q`: on the stream `s` the reader finds a syntax error,
or else it gives a value, and `Q` holds of the tokens taken, the value, the issues and the stream
left. The first is how a derivation makes a reader succeed, the second how a reader that succeeds
makes a derivation; both pass through `bind`, the loops and the lists with commas.

Headlines:
* `Reads.bind`, `Yields.bind`: a reader behind another.
* `ReadsOn.cons`, `yields_iterate`: the loop that goes on from a value.
* `ReadsItems.commaSeparated`, `yields_items`: lists with commas.
* `ReadsEach.many`, `yields_each`: lists up to a stop.
-/

namespace LoxKit

/-- An issue that says what the grammar asks for. -/
def Issue.IsSyntaxError (i : Issue) : Prop :=
  ∃ what, i.complaint = .expected what

/-- Whether there is a syntax error among issues. -/
def Faulty (is : List Issue) : Prop :=
  ∃ i ∈ is, i.IsSyntaxError

theorem Faulty.append_left {is : List Issue} (h : Faulty is) (js : List Issue) :
    Faulty (is ++ js) := by
  obtain ⟨i, hi, hs⟩ := h
  exact ⟨i, List.mem_append_left js hi, hs⟩

theorem Faulty.append_right {js : List Issue} (h : Faulty js) (is : List Issue) :
    Faulty (is ++ js) := by
  obtain ⟨i, hi, hs⟩ := h
  exact ⟨i, List.mem_append_right is hi, hs⟩

namespace Parser

variable {α β : Type}

/-- In front of `rest` the reader takes `ts`, gives `a` and finds `is`. -/
def Reads (p : Parser α) (ts rest : List Token) (a : α) (is : List Issue) : Prop :=
  ∀ ending, p ⟨ts ++ rest, ending⟩ = ⟨is, ⟨rest, ending⟩, some a⟩

/-- On the stream the reader finds a syntax error, or else gives a value such that `Q` holds of the
tokens taken, the value, the issues and the stream left. -/
def Yields (p : Parser α) (s : Stream) (Q : List Token → α → List Issue → Stream → Prop) : Prop :=
  Faulty (p s).issues ∨
    ∃ ts a is rest, p s = ⟨is, rest, some a⟩ ∧ s.tokens = ts ++ rest.tokens ∧ Q ts a is rest

/-! ## One reader behind another -/

theorem reads_pure (a : α) (rest : List Token) : Reads (pure a) [] rest a [] :=
  fun _ => rfl

theorem Reads.bind {p : Parser α} {f : α → Parser β} {ts us rest : List Token} {a : α} {b : β}
    {is js : List Issue} (hp : Reads p ts (us ++ rest) a is) (hf : Reads (f a) us rest b js) :
    Reads (p >>= f) (ts ++ us) rest b (is ++ js) := by
  intro ending
  show Parser.bind p f _ = _
  unfold Parser.bind
  rw [List.append_assoc, hp ending]
  simp only [hf ending]

/-- A last reader that finds no issue. -/
theorem Reads.close {p : Parser α} {f : α → Parser β} {ts us rest : List Token} {a : α} {b : β}
    {is : List Issue} (hp : Reads p ts (us ++ rest) a is) (hf : Reads (f a) us rest b []) :
    Reads (p >>= f) (ts ++ us) rest b is := by
  have h := hp.bind hf
  rwa [List.append_nil] at h

/-- A last reader that takes no token. -/
theorem Reads.stay {p : Parser α} {f : α → Parser β} {ts rest : List Token} {a : α} {b : β}
    {is js : List Issue} (hp : Reads p ts rest a is) (hf : Reads (f a) [] rest b js) :
    Reads (p >>= f) ts rest b (is ++ js) := by
  have h := Reads.bind (f := f) hp hf
  rwa [List.append_nil] at h

/-- A last reader that only makes the value. -/
theorem Reads.finish {p : Parser α} {f : α → Parser β} {ts rest : List Token} {a : α} {b : β}
    {is : List Issue} (hp : Reads p ts rest a is) (hf : f a = pure b) :
    Reads (p >>= f) ts rest b is := by
  have h := Reads.stay (f := f) hp (by rw [hf]; exact reads_pure b rest)
  rwa [List.append_nil] at h

theorem Reads.map {p : Parser α} {f : α → β} {ts rest : List Token} {a : α} {is : List Issue}
    (hp : Reads p ts rest a is) : Reads (f <$> p) ts rest (f a) is :=
  Reads.finish (f := fun a => pure (f a)) hp rfl

theorem yields_pure {a : α} {s : Stream} {Q : List Token → α → List Issue → Stream → Prop}
    (h : Q [] a [] s) : Yields (pure a) s Q :=
  Or.inr ⟨[], a, [], s, rfl, rfl, h⟩

theorem Yields.bind {p : Parser α} {f : α → Parser β} {s : Stream}
    {P : List Token → α → List Issue → Stream → Prop}
    {Q : List Token → β → List Issue → Stream → Prop} (hp : Yields p s P)
    (hf : ∀ ts a is rest, s.tokens = ts ++ rest.tokens → P ts a is rest →
      Yields (f a) rest fun us b js rest' => Q (ts ++ us) b (is ++ js) rest') :
    Yields (p >>= f) s Q := by
  show Yields (Parser.bind p f) s Q
  unfold Yields Parser.bind
  rcases hp with hfault | ⟨ts, a, is, rest, heq, hts, hP⟩
  · left
    cases hv : (p s).value with
    | none => simpa only [hv] using hfault
    | some a => simpa only [hv] using hfault.append_left _
  · simp only [heq]
    rcases hf ts a is rest hts hP with hfault | ⟨us, b, js, rest', heq', hus, hQ⟩
    · exact Or.inl (hfault.append_right is)
    · refine Or.inr ⟨ts ++ us, b, is ++ js, rest', by rw [heq'], ?_, hQ⟩
      rw [hts, hus, List.append_assoc]

theorem Yields.mono {p : Parser α} {s : Stream} {P Q : List Token → α → List Issue → Stream → Prop}
    (hp : Yields p s P)
    (h : ∀ ts a is rest, s.tokens = ts ++ rest.tokens → P ts a is rest → Q ts a is rest) :
    Yields p s Q := by
  rcases hp with hfault | ⟨ts, a, is, rest, heq, hts, hP⟩
  · exact Or.inl hfault
  · exact Or.inr ⟨ts, a, is, rest, heq, hts, h ts a is rest hts hP⟩

/-- Only the answer on the stream matters. -/
theorem Yields.congr {p q : Parser α} {s : Stream}
    {Q : List Token → α → List Issue → Stream → Prop} (hp : Yields p s Q) (h : q s = p s) :
    Yields q s Q := by
  unfold Yields
  rw [h]
  exact hp

theorem Yields.map {p : Parser α} {f : α → β} {s : Stream}
    {Q : List Token → β → List Issue → Stream → Prop}
    (hp : Yields p s fun ts a is rest => Q ts (f a) is rest) : Yields (f <$> p) s Q := by
  refine Yields.bind (f := fun a => pure (f a)) hp fun ts a is rest _ hQ => ?_
  refine yields_pure ?_
  rw [List.append_nil, List.append_nil]
  exact hQ

/-! ## Single tokens -/

/-- The kind of the first token is none of those of which `P` holds. -/
def HeadAvoids (P : Kind → Prop) (ts : List Token) : Prop :=
  ∀ t, ts.head? = some t → ¬ P t.kind

theorem headAvoids_cons {P : Kind → Prop} {t : Token} {ts : List Token} (h : ¬ P t.kind) :
    HeadAvoids P (t :: ts) := by
  intro u hu
  rw [List.head?_cons, Option.some.injEq] at hu
  exact hu ▸ h

theorem reads_take?_hit {test : Token → Option α} {t : Token} {a : α} (h : test t = some a)
    (rest : List Token) : Reads (take? test) [t] rest (some a) [] := by
  intro ending
  simp only [take?, List.singleton_append, h, Stream.drop, List.tail_cons]

theorem reads_take?_miss {test : Token → Option α} {rest : List Token}
    (h : ∀ t, rest.head? = some t → test t = none) : Reads (take? test) [] rest none [] := by
  intro ending
  cases rest with
  | nil => rfl
  | cons t ts => simp only [take?, List.nil_append, h t rfl]

theorem yields_take? {test : Token → Option α} {s : Stream}
    {Q : List Token → Option α → List Issue → Stream → Prop}
    (hit : ∀ t ts a, s.tokens = t :: ts → test t = some a → Q [t] (some a) [] ⟨ts, s.ending⟩)
    (miss : (∀ t, s.tokens.head? = some t → test t = none) → Q [] none [] s) :
    Yields (take? test) s Q := by
  right
  rcases hs : s.tokens with _ | ⟨t, ts⟩
  · exact ⟨[], none, [], s, by simp only [take?, hs], by rw [hs]; rfl,
      miss fun t ht => by rw [hs] at ht; simp at ht⟩
  · cases ht : test t with
    | none =>
      refine ⟨[], none, [], s, by simp only [take?, hs, ht], by rw [hs]; rfl, miss fun u hu => ?_⟩
      rw [hs, List.head?_cons, Option.some.injEq] at hu
      rw [← hu, ht]
    | some a =>
      refine ⟨[t], some a, [], s.drop, by simp only [take?, hs, ht], ?_, ?_⟩
      · simp only [Stream.drop, hs, List.tail_cons, List.singleton_append]
      · have := hit t ts a hs ht
        simpa only [Stream.drop, hs, List.tail_cons] using this

/-- The next token is of the kind that is accepted. -/
theorem reads_accept {kind : Kind} {t : Token} (h : t.kind = kind) {f : Option Token → Parser β}
    {us rest : List Token} {b : β} {js : List Issue} (hf : Reads (f (some t)) us rest b js) :
    Reads (accept kind >>= f) (t :: us) rest b js := by
  have hp : Reads (accept kind) [t] (us ++ rest) (some t) [] :=
    reads_take?_hit (by rw [if_pos h]) _
  exact hp.bind hf

/-- The next token is not of the kind that is accepted. -/
theorem reads_accept_none {kind : Kind} {f : Option Token → Parser β} {us rest : List Token} {b : β}
    {js : List Issue} (h : HeadAvoids (· = kind) (us ++ rest)) (hf : Reads (f none) us rest b js) :
    Reads (accept kind >>= f) us rest b js := by
  have hp : Reads (accept kind) [] (us ++ rest) none [] :=
    reads_take?_miss fun t ht => if_neg (h t ht)
  exact hp.bind hf

theorem yields_accept {kind : Kind} {f : Option Token → Parser β} {s : Stream}
    {Q : List Token → β → List Issue → Stream → Prop}
    (hit : ∀ t ts, s.tokens = t :: ts → t.kind = kind →
      Yields (f (some t)) ⟨ts, s.ending⟩ fun us b js rest => Q (t :: us) b js rest)
    (miss : HeadAvoids (· = kind) s.tokens → Yields (f none) s Q) :
    Yields (accept kind >>= f) s Q := by
  refine Yields.bind (P := fun ts a is rest => is = [] ∧
      ((∃ t, ts = [t] ∧ a = some t ∧ t.kind = kind ∧ rest.ending = s.ending) ∨
        (ts = [] ∧ a = none ∧ rest = s ∧ HeadAvoids (· = kind) s.tokens)))
    (yields_take? (fun t ts a hs ht => ?_) fun hn => ?_) ?_
  · by_cases hk : t.kind = kind
    · rw [if_pos hk, Option.some.injEq] at ht
      exact ⟨rfl, Or.inl ⟨t, rfl, by rw [ht], hk, rfl⟩⟩
    · rw [if_neg hk] at ht
      exact absurd ht (by simp)
  · refine ⟨rfl, Or.inr ⟨rfl, rfl, rfl, fun t ht hk => ?_⟩⟩
    have := hn t ht
    rw [if_pos hk] at this
    exact absurd this (by simp)
  · rintro ts a is ⟨toks, ending⟩ hts
      ⟨rfl, ⟨t, rfl, rfl, hk, hend⟩ | ⟨rfl, rfl, rfl, hn⟩⟩
    · cases hend
      exact hit t toks hts hk
    · exact miss hn

theorem reads_expect {kind : Kind} {what : Expectation} {t : Token} (h : t.kind = kind)
    {f : Token → Parser β} {us rest : List Token} {b : β} {js : List Issue}
    (hf : Reads (f t) us rest b js) : Reads (expect kind what >>= f) (t :: us) rest b js := by
  have hp : Reads (expect kind what) [t] (us ++ rest) t [] := by
    intro ending
    simp only [expect, List.singleton_append, if_pos h, Stream.drop, List.tail_cons]
  exact hp.bind hf

theorem faulty_refuse (what : Expectation) (s : Stream) :
    Faulty (refuse what s : Reply α).issues := by
  refine ⟨_, List.mem_singleton_self _, what, ?_⟩
  unfold Issue.atToken
  split <;> rfl

theorem yields_expect {kind : Kind} {what : Expectation} {f : Token → Parser β} {s : Stream}
    {Q : List Token → β → List Issue → Stream → Prop}
    (hit : ∀ t ts, s.tokens = t :: ts → t.kind = kind →
      Yields (f t) ⟨ts, s.ending⟩ fun us b js rest => Q (t :: us) b js rest) :
    Yields (expect kind what >>= f) s Q := by
  refine Yields.bind (P := fun ts t is rest =>
      is = [] ∧ ts = [t] ∧ t.kind = kind ∧ rest.ending = s.ending) ?_ ?_
  · unfold Yields expect
    rcases hs : s.tokens with _ | ⟨t, ts⟩
    · exact Or.inl (faulty_refuse what s)
    · by_cases hk : t.kind = kind
      · simp only [if_pos hk]
        refine Or.inr ⟨[t], t, [], s.drop, rfl, ?_, rfl, rfl, hk, rfl⟩
        simp only [Stream.drop, hs, List.tail_cons, List.singleton_append]
      · simp only [if_neg hk]
        exact Or.inl (faulty_refuse what s)
  · rintro ts t is ⟨toks, ending⟩ hts ⟨rfl, rfl, hk, hend⟩
    cases hend
    exact hit t toks hts hk

theorem reads_look {f : Stream → Parser β} {us rest : List Token} {b : β} {js : List Issue}
    (hf : ∀ ending, f ⟨us ++ rest, ending⟩ ⟨us ++ rest, ending⟩ = ⟨js, ⟨rest, ending⟩, some b⟩) :
    Reads (look >>= f) us rest b js := by
  intro ending
  show Parser.bind look f _ = _
  simp only [Parser.bind, look, List.nil_append, hf ending]

theorem yields_look {f : Stream → Parser β} {s : Stream}
    {Q : List Token → β → List Issue → Stream → Prop} (hf : Yields (f s) s Q) :
    Yields (look >>= f) s Q :=
  Yields.bind (p := look) (P := fun ts a is rest => ts = [] ∧ a = s ∧ is = [] ∧ rest = s)
    (Or.inr ⟨[], s, [], s, rfl, rfl, rfl, rfl, rfl, rfl⟩)
    fun _ _ _ _ _ ⟨h1, h2, h3, h4⟩ => by subst h1 h2 h3 h4; exact hf

/-! ## Loops -/

/-- From `a` on, the loop takes `ts` in front of `rest`, ends at `b` and finds `is`. -/
def ReadsOn (step : α → Parser (Option α)) (a : α) (ts rest : List Token) (b : α)
    (is : List Issue) : Prop :=
  ∀ rounds ending, (ts ++ rest).length ≤ rounds.length →
    iterate step rounds a ⟨ts ++ rest, ending⟩ = ⟨is, ⟨rest, ending⟩, some b⟩

theorem ReadsOn.nil {step : α → Parser (Option α)} {a : α} {rest : List Token}
    (h : Reads (step a) [] rest none []) : ReadsOn step a [] rest a [] := by
  intro rounds ending _
  cases rounds with
  | nil => rfl
  | cons _ rounds =>
    have hs := h ending
    simp only [iterate, Parser.bind, hs]
    rfl

theorem ReadsOn.cons {step : α → Parser (Option α)} {a b c : α} {t : Token}
    {ts us rest : List Token} {is js : List Issue}
    (h : Reads (step a) (t :: ts) (us ++ rest) (some b) is) (hrest : ReadsOn step b us rest c js) :
    ReadsOn step a (t :: ts ++ us) rest c (is ++ js) := by
  intro rounds ending hlen
  cases rounds with
  | nil => simp at hlen
  | cons _ rounds =>
    have hs := h ending
    rw [List.append_assoc]
    simp only [List.length_append, List.length_cons] at hlen
    simp only [iterate, Parser.bind, hs, hrest rounds ending (by simp only [List.length_append]; omega)]

/-- A reader with a loop behind it. -/
theorem Reads.chain {p : Parser α} {step : α → Parser (Option α)} {ts us rest : List Token}
    {a b : α} {is js : List Issue} (hp : Reads p ts (us ++ rest) a is)
    (hstep : ReadsOn step a us rest b js) :
    Reads (p >>= Parser.chain step) (ts ++ us) rest b (is ++ js) :=
  hp.bind fun ending => hstep _ ending (Nat.le_refl _)

/-- What one step of a loop makes of a value for which tokens and issues are `Good`, any number of
steps make of it. -/
theorem yields_iterate {step : α → Parser (Option α)} {I : List Token → α → List Issue → Prop}
    {n : Nat}
    (hstep : ∀ ts a is s, s.tokens.length ≤ n → I ts a is →
      Yields (step a) s fun us o js _ =>
        (o = none → us = [] ∧ js = []) ∧ ∀ b, o = some b → I (ts ++ us) b (is ++ js)) :
    ∀ (rounds ts : List Token) (a : α) (is : List Issue) (s : Stream), s.tokens.length ≤ n →
      I ts a is → Yields (iterate step rounds a) s fun us b js _ => I (ts ++ us) b (is ++ js)
  | [], ts, a, is, s, _, hg => yields_pure (by rwa [List.append_nil, List.append_nil])
  | _ :: rounds, ts, a, is, s, hn, hg => by
    refine Yields.bind (hstep ts a is s hn hg) fun us o js rest hus ⟨hnone, hsome⟩ => ?_
    cases o with
    | none =>
      obtain ⟨rfl, rfl⟩ := hnone rfl
      exact yields_pure (by simpa using hg)
    | some b =>
      have hlen : rest.tokens.length ≤ n := by
        rw [hus, List.length_append] at hn
        omega
      refine (yields_iterate hstep rounds _ b _ rest hlen (hsome b rfl)).mono ?_
      intro vs c ks _ _ h
      simpa only [List.append_assoc] using h

/-! ## Lists with commas -/

/-- The items of a list with commas, the first of which is number `count`. -/
inductive ReadsItems (item : Nat → Parser α) (rest : List Token) :
    (count : Nat) → List Token → List α → List Issue → Prop
  | last {count : Nat} {ts : List Token} {a : α} {is : List Issue}
      (h : Reads (item count) ts rest a is) : ReadsItems item rest count ts [a] is
  | more {count : Nat} {ts us : List Token} {comma : Token} {a : α} {as : List α}
      {is js : List Issue} (h : Reads (item count) ts (comma :: us ++ rest) a is)
      (hc : comma.kind = .symbol .comma) (hrest : ReadsItems item rest (count + 1) us as js) :
      ReadsItems item rest count (ts ++ comma :: us) (a :: as) (is ++ js)

/-- What is read behind an item: a comma and the next item, or nothing. -/
def commaStep (item : Nat → Parser α) (count : Nat) : Parser (Option α) :=
  accept (.symbol .comma) >>= fun
    | none => pure none
    | some _ => item (count + 1) >>= fun a => pure (some a)

theorem commaSeparated_eq (item : Nat → Parser α) :
    commaSeparated item =
      item 0 >>= fun first => many (commaStep item) >>= fun rest => pure (first :: rest) := rfl

/-- The items are the first one and those that the loop collects behind it. -/
theorem ReadsItems.collect {item : Nat → Parser α} {rest : List Token}
    (hrest : HeadAvoids (· = .symbol .comma) rest) {count : Nat} {ts : List Token} {as : List α}
    {is : List Issue} (h : ReadsItems item rest count ts as is) :
    ∃ us vs a bs js ks, ts = us ++ vs ∧ as = a :: bs ∧ is = js ++ ks ∧
      Reads (item count) us (vs ++ rest) a js ∧
      ∀ rounds ending, (vs ++ rest).length ≤ rounds.length →
        Parser.collect (commaStep item) rounds count ⟨vs ++ rest, ending⟩ =
          ⟨ks, ⟨rest, ending⟩, some bs⟩ := by
  induction h with
  | @last count ts a is h =>
    refine ⟨ts, [], a, [], is, [], by simp, rfl, by simp, h, fun rounds ending _ => ?_⟩
    cases rounds with
    | nil => rfl
    | cons _ rounds =>
      have hnone : Reads (commaStep item count) [] rest none [] :=
        reads_accept_none hrest (reads_pure none rest)
      have hs := hnone ending
      simp only [List.nil_append] at hs ⊢
      simp only [Parser.collect, Parser.bind, hs]
      rfl
  | @more count ts us comma a as is js h hc _ ih =>
    obtain ⟨vs, ws, b, bs, ks, ls, rfl, rfl, rfl, hb, hcollect⟩ := ih
    refine ⟨ts, comma :: (vs ++ ws), a, b :: bs, is, ks ++ ls, rfl, rfl, rfl, h, ?_⟩
    intro rounds ending hlen
    cases rounds with
    | nil => simp at hlen
    | cons _ rounds =>
      have hsome : Reads (commaStep item count) (comma :: vs) (ws ++ rest) (some b) ks :=
        reads_accept hc (hb.finish rfl)
      have hs := hsome ending
      have hlen' : (ws ++ rest).length ≤ rounds.length := by
        simp only [List.length_append, List.length_cons] at hlen ⊢
        omega
      simp only [List.cons_append, List.append_assoc] at hs ⊢
      simp only [Parser.collect, Parser.bind, hs, hcollect rounds ending hlen']
      simp [Parser.pure]

theorem ReadsItems.commaSeparated {item : Nat → Parser α} {rest : List Token}
    (hrest : HeadAvoids (· = .symbol .comma) rest) {ts : List Token} {as : List α}
    {is : List Issue} (h : ReadsItems item rest 0 ts as is) :
    Reads (Parser.commaSeparated item) ts rest as is := by
  obtain ⟨us, vs, a, bs, js, ks, rfl, rfl, rfl, ha, hcollect⟩ := h.collect hrest
  rw [commaSeparated_eq]
  refine ha.bind ?_
  have hmany : Reads (many (commaStep item)) vs rest bs ks :=
    fun ending => hcollect _ ending (Nat.le_refl _)
  exact hmany.finish rfl

/-- If each item is as `I` says, the list is as `L` says, where `L` follows from the first item and
the list behind it. -/
theorem yields_items {item : Nat → Parser α} {n : Nat}
    {I : Nat → List Token → α → List Issue → Prop}
    {L : Nat → List Token → List α → List Issue → Prop}
    (hitem : ∀ count s, s.tokens.length ≤ n →
      Yields (item count) s fun ts a is _ => I count ts a is)
    (hlast : ∀ count ts a is, I count ts a is → L count ts [a] is)
    (hmore : ∀ count ts a is comma us as js, I count ts a is → comma.kind = .symbol .comma →
      L (count + 1) us as js → L count (ts ++ comma :: us) (a :: as) (is ++ js))
    {s : Stream} (hs : s.tokens.length ≤ n) :
    Yields (Parser.commaSeparated item) s fun ts as is _ => L 0 ts as is := by
  have hcollect : ∀ (rounds : List Token) (count : Nat) (s : Stream), s.tokens.length ≤ n →
      Yields (Parser.collect (commaStep item) rounds count) s fun us as js _ =>
        ∀ ts a is, I count ts a is → L count (ts ++ us) (a :: as) (is ++ js) := by
    intro rounds
    induction rounds with
    | nil =>
      intro count s _
      refine yields_pure fun ts a is h => ?_
      rw [List.append_nil, List.append_nil]
      exact hlast count ts a is h
    | cons _ rounds ih =>
      intro count s hs
      refine Yields.bind (P := fun us o js _ => (o = none → us = [] ∧ js = []) ∧
        ∀ b, o = some b → ∃ comma vs, comma.kind = .symbol .comma ∧ us = comma :: vs ∧
          I (count + 1) vs b js) (yields_accept (fun comma ts hts hc => ?_) fun _ => ?_) ?_
      · refine Yields.bind (hitem (count + 1) ⟨ts, s.ending⟩ ?_) fun vs b js rest _ hb => ?_
        · simp only [hts, List.length_cons] at hs
          exact Nat.le_of_succ_le hs
        · refine yields_pure ⟨fun h => absurd h (by simp), fun c hcb => ?_⟩
          cases hcb
          exact ⟨comma, vs, hc, by simp, by simpa using hb⟩
      · exact yields_pure ⟨fun _ => ⟨rfl, rfl⟩, fun b hb => absurd hb (by simp)⟩
      · intro us o js rest hus ⟨hnone, hsome⟩
        cases o with
        | none =>
          obtain ⟨rfl, rfl⟩ := hnone rfl
          refine yields_pure fun ts a is h => ?_
          simpa using hlast count ts a is h
        | some b =>
          obtain ⟨comma, vs, hc, rfl, hb⟩ := hsome b rfl
          have hlen : rest.tokens.length ≤ n := by
            rw [hus] at hs
            simp only [List.length_append] at hs
            omega
          refine Yields.bind (ih (count + 1) rest hlen) fun ws as ks _ _ hL => ?_
          refine yields_pure fun ts a is h => ?_
          have := hmore count ts a is comma _ _ _ h hc (hL vs b js hb)
          simpa using this
  rw [commaSeparated_eq]
  refine Yields.bind (hitem 0 s hs) fun ts a is rest hts ha => ?_
  have hlen : rest.tokens.length ≤ n := by
    rw [hts, List.length_append] at hs
    omega
  refine Yields.bind (p := many (commaStep item)) (hcollect _ 0 rest hlen) fun us as js _ _ hL => ?_
  refine yields_pure ?_
  simpa using hL ts a is ha

/-! ## Lists up to a stop -/

/-- Items one behind the other, none of which starts with a token of the kind that stops the list. -/
inductive ReadsEach (item : Parser α) (stop : Kind → Prop) (rest : List Token) :
    List Token → List α → List Issue → Prop
  | nil : ReadsEach item stop rest [] [] []
  | cons {t : Token} {ts us : List Token} {a : α} {as : List α} {is js : List Issue}
      (h : Reads item (t :: ts) (us ++ rest) a is) (ht : ¬ stop t.kind)
      (hrest : ReadsEach item stop rest us as js) :
      ReadsEach item stop rest (t :: ts ++ us) (a :: as) (is ++ js)

/-- One item, unless the list stops. -/
def eachUntil (stop : Stream → Bool) (item : Parser α) (_ : Nat) : Parser (Option α) :=
  look >>= fun s => if stop s then pure none else item >>= fun a => pure (some a)

theorem manyUntil_eq (kind : Kind) (item : Parser α) :
    manyUntil kind item = many (eachUntil (fun s => s.nextIs kind || s.atEnd) item) := rfl

theorem ReadsEach.many {item : Parser α} {stop : Kind → Prop} {rest : List Token}
    {halt : Stream → Bool} (hhalt : ∀ ending, halt ⟨rest, ending⟩ = true)
    (hgo : ∀ t ts ending, ¬ stop t.kind → halt ⟨t :: ts, ending⟩ = false) {ts : List Token}
    {as : List α} {is : List Issue} (h : ReadsEach item stop rest ts as is) :
    Reads (Parser.many (eachUntil halt item)) ts rest as is := by
  have hcollect : ∀ count rounds ending, (ts ++ rest).length ≤ rounds.length →
      Parser.collect (eachUntil halt item) rounds count ⟨ts ++ rest, ending⟩ =
        ⟨is, ⟨rest, ending⟩, some as⟩ := by
    induction h with
    | nil =>
      intro count rounds ending _
      cases rounds with
      | nil => rfl
      | cons _ rounds =>
        have hs : Reads (eachUntil halt item count) [] rest none [] :=
          reads_look fun ending => by rw [List.nil_append, if_pos (hhalt ending)]; rfl
        have hs := hs ending
        rw [List.nil_append] at hs
        simp only [List.nil_append, Parser.collect, Parser.bind, hs]
        rfl
    | @cons t ts us a as is js h ht _ ih =>
      intro count rounds ending hlen
      cases rounds with
      | nil => simp at hlen
      | cons _ rounds =>
        have hs : Reads (eachUntil halt item count) (t :: ts) (us ++ rest) (some a) is := by
          have hi : Reads (item >>= fun a => pure (some a)) (t :: ts) (us ++ rest) (some a) is :=
            h.finish rfl
          refine reads_look fun ending => ?_
          rw [if_neg (by rw [List.cons_append, hgo t _ ending ht]; exact Bool.false_ne_true)]
          exact hi ending
        have hlen' : (us ++ rest).length ≤ rounds.length := by
          simp only [List.length_append, List.length_cons] at hlen ⊢
          omega
        rw [List.append_assoc]
        simp only [Parser.collect, Parser.bind, hs ending, ih (count + 1) rounds ending hlen']
        simp [Parser.pure]
  exact fun ending => hcollect 0 _ ending (Nat.le_refl _)

theorem ReadsEach.manyUntil {item : Parser α} {kind : Kind} {r : Token} {rest : List Token}
    (hr : r.kind = kind) {ts : List Token} {as : List α} {is : List Issue}
    (h : ReadsEach item (· = kind) (r :: rest) ts as is) :
    Reads (Parser.manyUntil kind item) ts (r :: rest) as is := by
  rw [manyUntil_eq]
  refine ReadsEach.many (fun ending => ?_) (fun t ts ending ht => ?_) h
  · simp [Stream.nextIs, hr]
  · simp [Stream.nextIs, Stream.atEnd, ht]

/-- If each item is as `I` says and has a token, the list is as `L` says, and it ends where it has
to stop. -/
theorem yields_each {item : Parser α} {halt : Stream → Bool} {n : Nat}
    {I : List Token → α → List Issue → Prop} {L : List Token → List α → List Issue → Prop}
    (hend : ∀ ending, halt ⟨[], ending⟩ = true)
    (hitem : ∀ s, s.tokens.length ≤ n → Yields item s fun ts a is _ => I ts a is)
    (htoken : ∀ ts a is, I ts a is → ts ≠ []) (hnil : L [] [] [])
    (hcons : ∀ ts a is us as js, I ts a is → L us as js → L (ts ++ us) (a :: as) (is ++ js))
    {s : Stream} (hs : s.tokens.length ≤ n) :
    Yields (Parser.many (eachUntil halt item)) s fun ts as is rest =>
      L ts as is ∧ halt rest = true := by
  have hcollect : ∀ (rounds : List Token) (count : Nat) (s : Stream), s.tokens.length ≤ n →
      s.tokens.length ≤ rounds.length → Yields (Parser.collect (eachUntil halt item) rounds count) s
        fun ts as is rest => L ts as is ∧ halt rest = true := by
    intro rounds
    induction rounds with
    | nil =>
      intro count s _ hlen
      obtain ⟨tokens, ending⟩ := s
      obtain rfl := List.length_eq_zero_iff.mp (Nat.le_zero.mp hlen)
      exact yields_pure ⟨hnil, hend ending⟩
    | cons _ rounds ih =>
      intro count s hs hlen
      refine Yields.bind (P := fun us o js rest =>
        (o = none → us = [] ∧ js = [] ∧ halt rest = true) ∧ ∀ b, o = some b → I us b js) ?_ ?_
      · refine yields_look ?_
        by_cases hh : halt s = true
        · rw [if_pos hh]
          exact yields_pure ⟨fun _ => ⟨rfl, rfl, hh⟩, fun b hb => absurd hb (by simp)⟩
        · rw [if_neg hh]
          refine Yields.bind (hitem s hs) fun ts a is rest _ ha => ?_
          refine yields_pure ⟨fun h => absurd h (by simp), fun b hb => ?_⟩
          cases hb
          simpa using ha
      · intro us o js rest hus ⟨hnone, hsome⟩
        cases o with
        | none =>
          obtain ⟨rfl, rfl, hh⟩ := hnone rfl
          exact yields_pure ⟨hnil, hh⟩
        | some b =>
          have hI := hsome b rfl
          have hpos := List.length_pos_iff.mpr (htoken us b js hI)
          simp only [hus, List.length_append, List.length_cons] at hs hlen
          refine Yields.bind (ih (count + 1) rest (by omega) (by omega))
            fun ts as ks rest' _ ⟨hL, hh⟩ => ?_
          refine yields_pure ⟨?_, hh⟩
          have := hcons us b js ts as ks hI hL
          simpa using this
  exact hcollect s.tokens 0 s hs (Nat.le_refl _)

end Parser

end LoxKit
