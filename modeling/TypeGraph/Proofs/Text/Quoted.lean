/-
# Quoted text reads back

Between quotes every character has a form of its own, and no form begins another or a closing
quote: `readChar` takes one character off the front again.  So a text in quotes shows where it
ends and which text it is (`quoted_append_inj`), and so does a name that stands without quotes
where none are needed, as long as no letter or digit follows (`label_append_inj`).
-/
import TypeGraph.Text.Quoted
import TypeGraph.Proofs.Text.Parts

namespace TypeGraph.Text

/-! ## Code points in hexadecimal -/

def hexDigit (c : Char) : Nat := if c.isDigit then c.toNat - 48 else c.toNat - 87

def hexValue (digits : List Char) : Nat := digits.foldl (fun n c => 16 * n + hexDigit c) 0

theorem hexDigit_digitChar : ∀ n < 16, hexDigit n.digitChar = n ∧ n.digitChar ≠ '\x7d' := by
  decide

/-- Digits read back, and none of them is a closing brace: by the recursion of the digits. -/
theorem hexValue_toDigits (n : Nat) :
    hexValue (Nat.toDigits 16 n) = n ∧ ∀ c ∈ Nat.toDigits 16 n, c ≠ '\x7d' := by
  induction n using Nat.strongRecOn with
  | ind n ih =>
      rw [Nat.toDigits_eq_if (by decide)]
      split
      · next hlt =>
          obtain ⟨hvalue, hbrace⟩ := hexDigit_digitChar n hlt
          refine ⟨by simp [hexValue, hvalue], ?_⟩
          rintro c hc
          rw [List.mem_singleton.mp hc]
          exact hbrace
      · next hge =>
          obtain ⟨hvalue, hbrace⟩ := hexDigit_digitChar (n % 16) (Nat.mod_lt _ (by decide))
          obtain ⟨ihvalue, ihbrace⟩ := ih (n / 16) (by omega)
          constructor
          · unfold hexValue at ihvalue ⊢
            rw [List.foldl_append, ihvalue, List.foldl_cons, List.foldl_nil, hvalue]
            omega
          · intro c hc
            rcases List.mem_append.mp hc with hc | hc
            · exact ihbrace c hc
            · rw [List.mem_singleton.mp hc]
              exact hbrace

/-! ## One character -/

/-- The character whose code point stands up to the closing brace, and what follows the brace. -/
def readCode (cs : List Char) : Char × List Char :=
  let digits := cs.takeWhile (· != '\x7d')
  (Char.ofNat (hexValue digits), cs.drop (digits.length + 1))

/-- The character at the front of quoted text, and what follows it; none at a closing quote. -/
def readChar : List Char → Option (Char × List Char)
  | [] => none
  | '"' :: _ => none
  | '\\' :: 'u' :: _ :: rest => some (readCode rest)
  | '\\' :: '0' :: rest => some ('\x00', rest)
  | '\\' :: 't' :: rest => some ('\t', rest)
  | '\\' :: 'n' :: rest => some ('\n', rest)
  | '\\' :: 'r' :: rest => some ('\r', rest)
  | '\\' :: c :: rest => some (c, rest)
  | c :: rest => some (c, rest)

theorem readCode_toDigits (c : Char) (rest : List Char) :
    readCode (Nat.toDigits 16 c.toNat ++ '\x7d' :: rest) = (c, rest) := by
  obtain ⟨hvalue, hbrace⟩ := hexValue_toDigits c.toNat
  have hword : (Nat.toDigits 16 c.toNat ++ '\x7d' :: rest).takeWhile (· != '\x7d')
      = Nat.toDigits 16 c.toNat := by
    refine takeWhile_word (fun d hd => bne_iff_ne.mpr (hbrace d hd)) ?_
    rintro d hd
    cases hd
    rfl
  simp only [readCode, hword, hvalue, Char.ofNat_toNat, Prod.mk.injEq, true_and]
  rw [List.drop_append, List.drop_eq_nil_of_le (by omega), Nat.add_sub_cancel_left]
  rfl

theorem readChar_quotedChar (c : Char) (rest : List Char) :
    readChar (quotedChar c ++ rest) = some (c, rest) := by
  by_cases hown : c ∈ ['\x00', '\t', '\n', '\r', '"', '\\']
  · simp only [List.mem_cons, List.not_mem_nil, or_false] at hown
    rcases hown with rfl | rfl | rfl | rfl | rfl | rfl <;> rfl
  · simp only [List.mem_cons, List.not_mem_nil, or_false, not_or] at hown
    obtain ⟨h0, ht, hn, hr, hq, hb⟩ := hown
    simp only [quotedChar, h0, ht, hn, hr, hq, hb, if_false]
    split
    · simp only [codeEscape, List.cons_append, List.append_assoc, List.nil_append, readChar,
        readCode_toDigits]
    · show readChar (c :: rest) = some (c, rest)
      unfold readChar
      split <;> simp_all

/-! ## Quoted text and labels -/

theorem flatMap_quotedChar_inj : ∀ (a b : List Char) {r s : List Char},
    a.flatMap quotedChar ++ '"' :: r = b.flatMap quotedChar ++ '"' :: s → a = b ∧ r = s
  | [], [], _, _, h => ⟨rfl, (List.cons.inj h).2⟩
  | [], c :: b, r, s, h => by
      have hread := congrArg readChar h
      rw [List.flatMap_cons, List.append_assoc, readChar_quotedChar] at hread
      cases hread
  | c :: a, [], r, s, h => by
      have hread := congrArg readChar h
      rw [List.flatMap_cons, List.append_assoc, readChar_quotedChar] at hread
      cases hread
  | c :: a, d :: b, r, s, h => by
      have hread := congrArg readChar h
      rw [List.flatMap_cons, List.flatMap_cons, List.append_assoc, List.append_assoc,
        readChar_quotedChar, readChar_quotedChar] at hread
      obtain ⟨rfl, hrest⟩ := Prod.mk.inj (Option.some.inj hread)
      obtain ⟨rfl, hrs⟩ := flatMap_quotedChar_inj a b hrest
      exact ⟨rfl, hrs⟩

theorem toList_quoted (name : String) :
    (quoted name).toList = '"' :: (name.toList.flatMap quotedChar ++ ['"']) :=
  String.toList_ofList

theorem quoted_append_inj {a b : String} {r s : List Char}
    (h : (quoted a).toList ++ r = (quoted b).toList ++ s) : a = b ∧ r = s := by
  rw [toList_quoted, toList_quoted] at h
  simp only [List.cons_append, List.append_assoc, List.nil_append] at h
  obtain ⟨hab, hrs⟩ := flatMap_quotedChar_inj a.toList b.toList (List.cons.inj h).2
  exact ⟨String.toList_inj.mp hab, hrs⟩

def isNameChar (c : Char) : Bool := c.isAlphanum || c == '_'

theorem isIdentifierChars_word : ∀ {cs : List Char}, isIdentifierChars cs = true →
    cs ≠ [] ∧ ∀ c ∈ cs, isNameChar c = true
  | [], h => by cases h
  | c :: cs, h => by
      simp only [isIdentifierChars, Bool.and_eq_true, List.all_eq_true] at h
      obtain ⟨hc, hcs⟩ := h
      refine ⟨List.cons_ne_nil _ _, fun d hd => ?_⟩
      rcases List.mem_cons.mp hd with rfl | hd
      · simp only [isNameChar, Char.isAlphanum, Bool.or_eq_true] at hc ⊢
        exact hc.imp_left Or.inl
      · exact hcs d hd

theorem identifier_ne_quoted {a b : String} (ha : isIdentifier a = true) (r s : List Char) :
    a.toList ++ r ≠ (quoted b).toList ++ s := by
  obtain ⟨hne, hword⟩ := isIdentifierChars_word ha
  intro h
  rw [toList_quoted] at h
  cases hcs : a.toList with
  | nil => exact hne hcs
  | cons c cs =>
      rw [hcs] at h hword
      have hc : c = '"' := (List.cons.inj h).1
      have hname := hword c List.mem_cons_self
      rw [hc] at hname
      revert hname
      decide

/-- A label is told apart from what follows it, unless that could be more of a plain name. -/
theorem label_append_inj {a b : String} {r s : List Char} (hr : Stops isNameChar r)
    (hs : Stops isNameChar s) (h : (label a).toList ++ r = (label b).toList ++ s) :
    a = b ∧ r = s := by
  unfold label at h
  split at h
  · next ha =>
      split at h
      · next hb =>
          obtain ⟨hab, hrs⟩ := word_append_inj (isIdentifierChars_word ha).2
            (isIdentifierChars_word hb).2 hr hs h
          exact ⟨String.toList_inj.mp hab, hrs⟩
      · exact absurd h (identifier_ne_quoted ha r s)
  · split at h
    · next hb => exact absurd h.symm (identifier_ne_quoted hb s r)
    · exact quoted_append_inj h

end TypeGraph.Text
