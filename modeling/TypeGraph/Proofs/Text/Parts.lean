/-
# Texts made of parts

A text is put together from parts: words of one kind of character, and lists of texts with a
separator between them and a closing mark behind.  It can be taken apart in one way only as long
as what follows a part cannot be mistaken for more of it.  `word_append_inj` says so of words and
`intercalate_append_inj` of lists, whose elements have the property in turn.
-/

namespace TypeGraph.Text

/-! ## Words -/

/-- The text does not begin with a character of the kind. -/
def Stops (kind : Char → Bool) (rest : List Char) : Prop := ∀ c ∈ rest.head?, kind c = false

variable {kind : Char → Bool} {v w r s : List Char}

theorem takeWhile_word (hw : ∀ c ∈ w, kind c = true) (hr : Stops kind r) :
    (w ++ r).takeWhile kind = w := by
  have hnil : r.takeWhile kind = [] := by
    cases r with
    | nil => rfl
    | cons c r => exact List.takeWhile_cons_of_neg (by rw [hr c rfl]; decide)
  rw [List.takeWhile_append_of_pos hw, hnil, List.append_nil]

theorem word_append_inj (hv : ∀ c ∈ v, kind c = true) (hw : ∀ c ∈ w, kind c = true)
    (hr : Stops kind r) (hs : Stops kind s) (h : v ++ r = w ++ s) : v = w ∧ r = s := by
  have hvw : v = w := by rw [← takeWhile_word hv hr, h, takeWhile_word hw hs]
  subst hvw
  exact ⟨rfl, List.append_cancel_left h⟩

/-! ## Lists with separators -/

section Separated

variable {α : Type} (text : α → List Char) (separator close : List Char)

/-- What stands behind the first element of a list, the closing mark included. -/
def separatedTail : List α → List Char
  | [] => close
  | a :: l => separator ++ (text a ++ separatedTail l)

theorem intercalate_append_close : ∀ (a : α) (l : List α),
    separator.intercalate ((a :: l).map text) ++ close
      = text a ++ separatedTail text separator close l
  | a, [] => by simp [separatedTail]
  | a, b :: l => by
      have ih := intercalate_append_close b l
      rw [List.map_cons] at ih
      simp only [List.map_cons, List.intercalate_cons_cons, List.append_assoc, ih, separatedTail]

variable {text separator close} {after : List Char → Prop}

/-- The tail of a list is told apart from what follows it: by induction on the lists, an element
being told apart from the separator or closing mark behind it. -/
theorem separatedTail_append_inj (hsep : ∀ r, after (separator ++ r))
    (hclose : ∀ r, after (close ++ r)) (hne : ∀ r s, separator ++ r ≠ close ++ s) :
    ∀ (l m : List α) {r s : List Char},
      (∀ a ∈ l, ∀ b ∈ m, ∀ r s, after r → after s → text a ++ r = text b ++ s → a = b ∧ r = s) →
      separatedTail text separator close l ++ r = separatedTail text separator close m ++ s →
      l = m ∧ r = s
  | [], [], _, _, _, h => ⟨rfl, List.append_cancel_left h⟩
  | [], b :: m, r, s, _, h => by
      simp only [separatedTail, List.append_assoc] at h
      exact absurd h.symm (hne _ _)
  | a :: l, [], r, s, _, h => by
      simp only [separatedTail, List.append_assoc] at h
      exact absurd h (hne _ _)
  | a :: l, b :: m, r, s, hread, h => by
      have hafter : ∀ (l : List α) (r : List Char),
          after (separatedTail text separator close l ++ r) := by
        intro l r
        cases l with
        | nil => exact hclose r
        | cons a l => rw [separatedTail, List.append_assoc]; exact hsep _
      simp only [separatedTail, List.append_assoc] at h
      obtain ⟨rfl, htail⟩ := hread a List.mem_cons_self b List.mem_cons_self _ _ (hafter l r)
        (hafter m s) (List.append_cancel_left h)
      obtain ⟨rfl, hrs⟩ := separatedTail_append_inj hsep hclose hne l m
        (fun a ha b hb => hread a (List.mem_cons_of_mem _ ha) b (List.mem_cons_of_mem _ hb)) htail
      exact ⟨rfl, hrs⟩

variable (text after) in
theorem intercalate_append_inj (hsep : ∀ r, after (separator ++ r))
    (hclose : ∀ r, after (close ++ r)) (hne : ∀ r s, separator ++ r ≠ close ++ s)
    {a b : α} {l m : List α}
    (hread : ∀ c ∈ a :: l, ∀ d ∈ b :: m, ∀ r s, after r → after s →
      text c ++ r = text d ++ s → c = d ∧ r = s)
    (h : separator.intercalate ((a :: l).map text) ++ close ++ r
      = separator.intercalate ((b :: m).map text) ++ close ++ s) :
    a :: l = b :: m ∧ r = s := by
  -- with a separator put in front, the whole list is a tail
  refine separatedTail_append_inj hsep hclose hne (a :: l) (b :: m) hread ?_
  rw [intercalate_append_close, intercalate_append_close] at h
  simp only [separatedTail, List.append_assoc] at h ⊢
  rw [h]

end Separated

end TypeGraph.Text
