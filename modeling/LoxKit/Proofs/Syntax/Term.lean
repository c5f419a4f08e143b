import LoxKit.Syntax.Render
import LoxKit.Proofs.Token.Lexicon

/-!
# Terms

What a tree is written as, taken apart: words, and lists of what stands between parentheses. As long
as no word has a space or a parenthesis in it, and none is empty, the text tells the words and the
lists: a word goes on up to the next such character, and a list up to the parenthesis that closes it.

Headlines:
* `Term.Legible`: the terms whose words can be told apart.
* `Term.Recognized`: the terms that a text can begin with in one way only.
* **`Term.Legible.text_injective`**: terms that are written alike are the same.
-/

namespace LoxKit

/-- A writing taken apart. -/
inductive Term where
  | word (w : String)
  | list (items : List Term)

namespace Term

/-- How a term is written. -/
def text : Term → String
  | word w => w
  | list items => parenthesized (items.map text)

/-- A character that ends a word. -/
def Ends (c : Char) : Prop :=
  c = ' ' ∨ c = '(' ∨ c = ')'

instance (c : Char) : Decidable (Ends c) :=
  inferInstanceAs (Decidable (_ ∨ _))

/-- A word that can be told from what stands around it. -/
def LegibleWord (w : String) : Prop :=
  w.toList ≠ [] ∧ ∀ c ∈ w.toList, ¬ Ends c

instance (w : String) : Decidable (LegibleWord w) :=
  inferInstanceAs (Decidable (_ ∧ _))

/-- The terms whose words can be told apart. -/
inductive Legible : Term → Prop
  | word {w : String} (h : LegibleWord w) : Legible (.word w)
  | list {items : List Term} (h : ∀ t ∈ items, Legible t) : Legible (.list items)

/-- A text that begins with a space or a closing parenthesis, if it is not over. -/
def Closed (rest : List Char) : Prop :=
  ∀ c, rest.head? = some c → c = ' ' ∨ c = ')'

theorem closed_cons {c : Char} (rest : List Char) (h : c = ' ' ∨ c = ')') : Closed (c :: rest) :=
  fun _ hc => Option.some.inj hc ▸ h

/-- The items of a list behind its first one, each with the space before it. -/
def tail : List Term → List Char
  | [] => []
  | t :: items => ' ' :: (t.text.toList ++ tail items)

/-- The items of a list, with the parenthesis that closes it. -/
def inside : List Term → List Char
  | [] => [')']
  | t :: items => t.text.toList ++ (tail items ++ [')'])

theorem closed_tail (items : List Term) (rest : List Char) : Closed (tail items ++ ')' :: rest) := by
  cases items with
  | nil => exact closed_cons _ (Or.inr rfl)
  | cons t items => exact closed_cons _ (Or.inl rfl)

theorem toList_list (items : List Term) : (list items).text.toList = '(' :: inside items := by
  have hitems : ∀ (items : List Term) (t : Term),
      [' '].intercalate (((t :: items).map text).map String.toList) =
        t.text.toList ++ tail items := by
    intro items
    induction items with
    | nil => simp [tail]
    | cons u items ih =>
      intro t
      rw [List.map_cons, List.map_cons, List.map_cons, List.map_cons, List.intercalate_cons_cons,
        ← List.map_cons, ← List.map_cons, ih u, tail, List.append_assoc]
      rfl
  rw [text, parenthesized, String.toList_append, String.toList_append, String.toList_intercalate]
  cases items with
  | nil => rfl
  | cons t items =>
    rw [inside, ← List.append_assoc, ← hitems]
    rfl

/-! ## Texts of terms -/

/-- A term is the only one that a text can begin with if it begins with this one. -/
def Recognized (t : Term) : Prop :=
  ∀ ⦃u : Term⦄, u.Legible → ∀ ⦃xs ys : List Char⦄, Closed xs → Closed ys →
    t.text.toList ++ xs = u.text.toList ++ ys → t = u ∧ xs = ys

theorem LegibleWord.append_ne {w : String} (h : LegibleWord w) {c : Char} (hc : Ends c)
    (xs ys : List Char) : w.toList ++ xs ≠ c :: ys := by
  obtain ⟨d, rest, hw⟩ := List.exists_cons_of_ne_nil h.1
  rw [hw, List.cons_append]
  intro heq
  exact h.2 d (hw ▸ List.mem_cons_self) ((List.cons.inj heq).1 ▸ hc)

/-- A word goes on up to the first character that ends one. -/
theorem LegibleWord.recognized {w : String} (h : LegibleWord w) : (word w).Recognized := by
  intro u hu xs ys hxs hys heq
  rw [text] at heq
  cases hu with
  | @word v hv =>
    rw [text] at heq
    have hstops : ∀ {rest : List Char}, Closed rest → ∀ c, rest.head? = some c →
        decide (¬ Ends c) = false := fun hrest c hc =>
      decide_eq_false (not_not.mpr ((hrest c hc).imp_right Or.inr))
    have hgoes : ∀ {w : String}, LegibleWord w → ∀ c ∈ w.toList, decide (¬ Ends c) = true :=
      fun hw c hc => decide_eq_true (hw.2 c hc)
    obtain ⟨htake, hdrop⟩ := Piece.span_exact (hgoes h) (hstops hxs)
    obtain ⟨htake', hdrop'⟩ := Piece.span_exact (hgoes hv) (hstops hys)
    rw [heq] at htake hdrop
    have hwords : w = v := String.toList_inj.mp (htake.symm.trans htake')
    exact ⟨congrArg word hwords, hdrop.symm.trans hdrop'⟩
  | list =>
    rw [toList_list] at heq
    exact absurd heq (h.append_ne (Or.inr (Or.inl rfl)) _ _)

/-- Items of a list go on up to the parenthesis that closes it. -/
theorem tail_append {items others : List Term} (hitems : ∀ t ∈ items, t.Recognized)
    (hothers : ∀ u ∈ others, u.Legible) {xs ys : List Char}
    (h : tail items ++ ')' :: xs = tail others ++ ')' :: ys) : items = others ∧ xs = ys := by
  induction items generalizing others with
  | nil =>
    cases others with
    | nil => exact ⟨rfl, (List.cons.inj h).2⟩
    | cons u others => exact absurd (List.cons.inj h).1 (by decide)
  | cons t items ih =>
    cases others with
    | nil => exact absurd (List.cons.inj h).1 (by decide)
    | cons u others =>
      rw [List.forall_mem_cons] at hitems hothers
      rw [tail, tail, List.cons_append, List.cons_append, List.append_assoc, List.append_assoc] at h
      have hrest := (List.cons.inj h).2
      obtain ⟨rfl, htail⟩ := hitems.1 hothers.1 (closed_tail _ _) (closed_tail _ _) hrest
      obtain ⟨rfl, hend⟩ := ih hitems.2 hothers.2 htail
      exact ⟨rfl, hend⟩

/-- No term begins with the parenthesis that closes a list. -/
theorem Legible.append_ne {t : Term} (ht : t.Legible) (xs ys : List Char) :
    t.text.toList ++ xs ≠ ')' :: ys := by
  cases ht with
  | word h =>
    rw [text]
    exact h.append_ne (Or.inr (Or.inr rfl)) xs ys
  | list =>
    rw [toList_list]
    exact fun heq => absurd (List.cons.inj heq).1 (by decide)

theorem inside_append {items others : List Term} (hitems : ∀ t ∈ items, t.Legible ∧ t.Recognized)
    (hothers : ∀ u ∈ others, u.Legible) {xs ys : List Char}
    (h : inside items ++ xs = inside others ++ ys) : items = others ∧ xs = ys := by
  cases items with
  | nil =>
    cases others with
    | nil => exact ⟨rfl, (List.cons.inj h).2⟩
    | cons u others =>
      rw [inside, inside, List.append_assoc] at h
      exact absurd h.symm ((hothers u List.mem_cons_self).append_ne _ _)
  | cons t items =>
    rw [List.forall_mem_cons] at hitems
    cases others with
    | nil =>
      rw [inside, inside, List.append_assoc] at h
      exact absurd h (hitems.1.1.append_ne _ _)
    | cons u others =>
      rw [List.forall_mem_cons] at hothers
      rw [inside, inside, List.append_assoc, List.append_assoc, List.append_assoc,
        List.append_assoc] at h
      obtain ⟨rfl, htail⟩ := hitems.1.2 hothers.1 (closed_tail _ _) (closed_tail _ _) h
      obtain ⟨rfl, hrest⟩ := tail_append (fun v hv => (hitems.2 v hv).2) hothers.2 htail
      exact ⟨rfl, hrest⟩

/-- Where a term can be told from what stands around it, no other one stands. -/
theorem Legible.recognized {t : Term} (ht : t.Legible) : t.Recognized := by
  induction ht with
  | word h => exact h.recognized
  | @list items hitems ih =>
    intro u hu xs ys _ _ heq
    rw [toList_list] at heq
    cases hu with
    | word hv =>
      rw [text] at heq
      exact absurd heq.symm (hv.append_ne (Or.inr (Or.inl rfl)) _ _)
    | list hothers =>
      rw [toList_list] at heq
      obtain ⟨rfl, hrest⟩ := inside_append (fun v hv => ⟨hitems v hv, ih v hv⟩) hothers
        (List.cons.inj heq).2
      exact ⟨rfl, hrest⟩

/-- **Terms that are written alike are the same.** -/
theorem Legible.text_injective {t u : Term} (ht : t.Legible) (hu : u.Legible)
    (h : t.text = u.text) : t = u := by
  have hnil : Closed [] := fun _ hc => absurd hc (by simp)
  exact (ht.recognized hu hnil hnil (by rw [h])).1

end Term

end LoxKit
