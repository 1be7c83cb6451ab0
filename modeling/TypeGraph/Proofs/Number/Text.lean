/-
# Number texts read back

The text of a number in keys is its shortest decimal, written out with the point in its place.
`Binary64.read` undoes it: the digits without the point are a whole number, the digits behind the
point count its places, and the shortest decimal reads back as the double it came from.  So
different numbers have different texts (`text_inj`).

For texts in which numbers stand next to other signs it also matters what a number text looks
like.  `NumberWord` says it: characters of one kind, at most one point, and no point at the end.
-/
import TypeGraph.Number.Layout

namespace TypeGraph

/-! ## Decimals with a point -/

/-- Digits that write a decimal, with a point between two of them or without one. -/
inductive Positional : Decimal → List Char → Prop where
  | whole {n : Nat} {ds : List Char} (hne : ds ≠ []) (hds : ∀ c ∈ ds, c.isDigit = true)
      (hn : Nat.ofDigitChars 10 ds 0 = n) : Positional ⟨n, 0⟩ ds
  | fraction {n places : Nat} {ds es : List Char} (hne : ds ≠ []) (hne' : es ≠ [])
      (hds : ∀ c ∈ ds, c.isDigit = true) (hes : ∀ c ∈ es, c.isDigit = true)
      (hn : Nat.ofDigitChars 10 (ds ++ es) 0 = n) (hplaces : es.length = places) :
      Positional ⟨n, -(places : Int)⟩ (ds ++ '.' :: es)

section Digits

variable {n : Nat} {c : Char}

theorem isDigit_toDigits (h : c ∈ Nat.toDigits 10 n) : c.isDigit = true :=
  Nat.isDigit_of_mem_toDigits (by decide) (by decide) h

theorem isDigit_zeros (h : c ∈ List.replicate n '0') : c.isDigit = true := by
  rw [List.eq_of_mem_replicate h]
  decide

theorem positional_zeros (n e : Nat) :
    Positional ⟨n * power 10 e, 0⟩ (Nat.toDigits 10 n ++ List.replicate e '0') := by
  refine .whole (by simp [Nat.toDigits_ne_nil]) ?_ ?_
  · exact fun c hc => (List.mem_append.mp hc).elim isDigit_toDigits isDigit_zeros
  · rw [Nat.ofDigitChars_append, Nat.ofDigitChars_ten_toDigits, Nat.ofDigitChars_replicate_zero]
    exact Nat.mul_comm _ _

theorem positional_inner {n places : Nat} (hpos : 0 < places)
    (hlt : places < (Nat.toDigits 10 n).length) :
    Positional ⟨n, -(places : Int)⟩
      ((Nat.toDigits 10 n).take ((Nat.toDigits 10 n).length - places) ++
        '.' :: (Nat.toDigits 10 n).drop ((Nat.toDigits 10 n).length - places)) := by
  have hlength : ((Nat.toDigits 10 n).drop ((Nat.toDigits 10 n).length - places)).length
      = places := by
    rw [List.length_drop]
    omega
  refine .fraction ?_ ?_ (fun c hc => isDigit_toDigits (List.mem_of_mem_take hc))
    (fun c hc => isDigit_toDigits (List.mem_of_mem_drop hc)) ?_ hlength
  · rw [Ne, List.take_eq_nil_iff]
    exact not_or.mpr ⟨by omega, Nat.toDigits_ne_nil⟩
  · exact List.ne_nil_of_length_pos (by omega)
  · rw [List.take_append_drop, Nat.ofDigitChars_ten_toDigits]

theorem positional_front {n places : Nat} (hle : (Nat.toDigits 10 n).length ≤ places) :
    Positional ⟨n, -(places : Int)⟩
      (['0'] ++ '.' ::
        (List.replicate (places - (Nat.toDigits 10 n).length) '0' ++ Nat.toDigits 10 n)) := by
  refine .fraction (List.cons_ne_nil _ _) (by simp [Nat.toDigits_ne_nil]) (List.all_eq_true.mp rfl)
    ?_ ?_ ?_
  · exact fun c hc => (List.mem_append.mp hc).elim isDigit_zeros isDigit_toDigits
  · rw [Nat.ofDigitChars_append, Nat.ofDigitChars_append, Nat.ofDigitChars_replicate_zero]
    exact Nat.ofDigitChars_ten_toDigits
  · rw [List.length_append, List.length_replicate]
    omega

end Digits

/-- A decimal that is written out is the same number, one case for each place of the point. -/
theorem positionalText_spec (d : Decimal) :
    ∃ d', Positional d' (plainNumbers.positionalText (Nat.toDigits 10 d.digits) d.exponent) ∧
      Magnitude.ofDecimal d' = Magnitude.ofDecimal d := by
  obtain ⟨n, e⟩ := d
  cases e with
  | ofNat e =>
      refine ⟨⟨n * power 10 e, 0⟩, ?_, ?_⟩
      · show Positional _ (Nat.toDigits 10 n ++ List.replicate e '0' ++ [])
        rw [List.append_nil]
        exact positional_zeros n e
      · show Magnitude.ofRatio (n * power 10 e * power 10 0) 1 = Magnitude.ofRatio (n * power 10 e) 1
        rw [power_zero, Nat.mul_one]
  | negSucc e =>
      refine ⟨⟨n, -((e + 1 : Nat) : Int)⟩, ?_, rfl⟩
      simp only [NumberLayout.positionalText]
      split
      · next hlt => exact positional_inner (Nat.succ_pos e) hlt
      · next hge => exact positional_front (Nat.le_of_not_lt hge)

/-! ## Reading a decimal -/

def readDecimal (cs : List Char) : Decimal :=
  let places := (cs.dropWhile (· != '.')).length - 1
  ⟨Nat.ofDigitChars 10 (cs.filter (· != '.')) 0, -(places : Int)⟩

theorem ne_point_of_isDigit {c : Char} (h : c.isDigit = true) : (c != '.') = true := by
  rw [bne_iff_ne]
  rintro rfl
  exact absurd h (by decide)

theorem Positional.readDecimal_eq {d : Decimal} {cs : List Char} (h : Positional d cs) :
    readDecimal cs = d := by
  have hfilter : ∀ {ds : List Char}, (∀ c ∈ ds, c.isDigit = true) → ds.filter (· != '.') = ds :=
    fun h => List.filter_eq_self.mpr fun c hc => ne_point_of_isDigit (h c hc)
  cases h with
  | whole hne hds hn =>
      have hdrop : cs.dropWhile (· != '.') = [] := by
        have happend : (cs ++ []).dropWhile (· != '.') = [] :=
          List.dropWhile_append_of_pos fun c hc => ne_point_of_isDigit (hds c hc)
        rwa [List.append_nil] at happend
      rw [readDecimal, hfilter hds, hn, hdrop]
      rfl
  | fraction hne hne' hds hes hn hplaces =>
      rw [readDecimal, List.filter_append, hfilter hds, List.filter_cons_of_neg (by decide),
        hfilter hes, hn, List.dropWhile_append_of_pos fun c hc => ne_point_of_isDigit (hds c hc),
        List.dropWhile_cons_of_neg (by decide), ← hplaces]
      rfl

/-! ## What a number text looks like -/

def isNumberChar (c : Char) : Bool := c.isDigit || ['-', '.', 'i', 'n', 'f'].contains c

/-- A word that can stand for a number. -/
structure NumberWord (cs : List Char) : Prop where
  chars : ∀ c ∈ cs, isNumberChar c = true
  points : cs.count '.' ≤ 1
  last : cs.getLast? ≠ some '.'

theorem count_point_eq_zero {ds : List Char} (h : ∀ c ∈ ds, c.isDigit = true) :
    ds.count '.' = 0 :=
  List.count_eq_zero.mpr fun hmem => absurd (h _ hmem) (by decide)

theorem getLast?_ne_point {ds : List Char} (h : ∀ c ∈ ds, c.isDigit = true) :
    ds.getLast? ≠ some '.' :=
  fun hlast => absurd (h _ (List.mem_of_getLast? hlast)) (by decide)

theorem Positional.head {d : Decimal} {cs : List Char} (h : Positional d cs) :
    ∃ c rest, cs = c :: rest ∧ c.isDigit = true := by
  cases h with
  | whole hne hds hn =>
      obtain ⟨c, rest, rfl⟩ := List.exists_cons_of_ne_nil hne
      exact ⟨c, rest, rfl, hds c List.mem_cons_self⟩
  | fraction hne hne' hds hes hn hplaces =>
      obtain ⟨c, rest, rfl⟩ := List.exists_cons_of_ne_nil hne
      exact ⟨c, _, rfl, hds c List.mem_cons_self⟩

theorem Positional.numberWord {d : Decimal} {cs : List Char} (h : Positional d cs) :
    NumberWord cs := by
  have hnumber : ∀ {ds : List Char}, (∀ c ∈ ds, c.isDigit = true) →
      ∀ c ∈ ds, isNumberChar c = true := fun h c hc => by rw [isNumberChar, h c hc, Bool.true_or]
  cases h with
  | whole hne hds hn =>
      have hcount := count_point_eq_zero hds
      exact ⟨hnumber hds, by omega, getLast?_ne_point hds⟩
  | fraction hne hne' hds hes hn hplaces =>
      refine ⟨?_, ?_, ?_⟩
      · intro c hc
        rcases List.mem_append.mp hc with hc | hc
        · exact hnumber hds c hc
        · rcases List.mem_cons.mp hc with rfl | hc
          · decide
          · exact hnumber hes c hc
      · have hwhole := count_point_eq_zero hds
        have hfraction := count_point_eq_zero hes
        rw [List.count_append, List.count_cons_self]
        omega
      · have hlast := getLast?_ne_point hes
        rw [List.getLast?_eq_some_getLast hne'] at hlast
        rwa [List.getLast?_append, List.getLast?_cons, List.getLast?_eq_some_getLast hne']

/-! ## Magnitudes and doubles -/

namespace Magnitude

theorem ofDecimal_zero : ofDecimal ⟨0, 0⟩ = zero := by
  show ofRatio (0 * power 10 0) 1 = zero
  rw [Nat.zero_mul]
  simp only [ofRatio, Nat.zero_mul, Nat.zero_div]
  rfl

theorem magnitudeText_finite {m : Magnitude} (h : m.isFinite = true) :
    ∃ d, Positional d (plainNumbers.magnitudeText m) ∧ ofDecimal d = m := by
  have hsource : ofDecimal (if m.rank = 0 then ⟨0, 0⟩ else m.shortest plainNumbers.tie) = m := by
    split
    · next hzero => exact ofDecimal_zero.trans (Magnitude.ext hzero.symm)
    · exact ofDecimal_shortest _ m
  obtain ⟨d, hd, heq⟩ :=
    positionalText_spec (if m.rank = 0 then ⟨0, 0⟩ else m.shortest plainNumbers.tie)
  refine ⟨d, ?_, heq.trans hsource⟩
  rw [NumberLayout.magnitudeText, if_pos h]
  exact hd

theorem magnitudeText_infinite {m : Magnitude} (h : ¬ m.isFinite = true) :
    plainNumbers.magnitudeText m = ['i', 'n', 'f'] ∧ m = infinity := by
  refine ⟨by rw [NumberLayout.magnitudeText, if_neg h], ?_⟩
  have hge : ¬ m.rank < infinityRank := by rwa [isFinite, decide_eq_true_eq] at h
  exact Magnitude.ext (Nat.le_antisymm m.rank_le (Nat.le_of_not_lt hge))

theorem magnitudeText_numberWord (m : Magnitude) : NumberWord (plainNumbers.magnitudeText m) := by
  by_cases h : m.isFinite = true
  · obtain ⟨d, hd, -⟩ := magnitudeText_finite h
    exact hd.numberWord
  · rw [(magnitudeText_infinite h).1]
    exact ⟨List.all_eq_true.mp rfl, by decide, by decide⟩

theorem magnitudeText_head (m : Magnitude) :
    (∃ c cs, plainNumbers.magnitudeText m = c :: cs ∧ c.isDigit = true) ∨
      plainNumbers.magnitudeText m = ['i', 'n', 'f'] := by
  by_cases h : m.isFinite = true
  · obtain ⟨d, hd, -⟩ := magnitudeText_finite h
    exact Or.inl hd.head
  · exact Or.inr (magnitudeText_infinite h).1

/-- The magnitude that a text without a sign writes. -/
def read (cs : List Char) : Magnitude :=
  if cs = ['i', 'n', 'f'] then infinity else ofDecimal (readDecimal cs)

theorem read_magnitudeText (m : Magnitude) : read (plainNumbers.magnitudeText m) = m := by
  by_cases h : m.isFinite = true
  · obtain ⟨d, hd, heq⟩ := magnitudeText_finite h
    have hne : plainNumbers.magnitudeText m ≠ ['i', 'n', 'f'] := by
      intro hinf
      obtain ⟨c, rest, hcs, hdigit⟩ := hd.head
      rw [hinf] at hcs
      cases hcs
      exact absurd hdigit (by decide)
    rw [read, if_neg hne, hd.readDecimal_eq, heq]
  · obtain ⟨htext, heq⟩ := magnitudeText_infinite h
    rw [htext, heq]
    rfl

end Magnitude

namespace Binary64

/-- The double that a text writes. -/
def read : List Char → Binary64
  | '-' :: cs => .signed true (Magnitude.read cs)
  | cs => .signed false (Magnitude.read cs)

theorem magnitudeText_ne_minus (m : Magnitude) (cs : List Char) :
    plainNumbers.magnitudeText m ≠ '-' :: cs := by
  intro h
  rcases m.magnitudeText_head with ⟨c, rest, hcs, hdigit⟩ | hinf
  · rw [h] at hcs
    cases hcs
    exact absurd hdigit (by decide)
  · rw [h] at hinf
    cases hinf

theorem read_text {x : Binary64} (h : x ≠ .nan) : read x.text.toList = x := by
  match x, h with
  | .signed true m, _ =>
      show read (String.ofList ('-' :: plainNumbers.magnitudeText m)).toList = _
      rw [String.toList_ofList, read, Magnitude.read_magnitudeText]
  | .signed false m, _ =>
      show read (String.ofList (plainNumbers.magnitudeText m)).toList = _
      rw [String.toList_ofList, read, Magnitude.read_magnitudeText]
      exact magnitudeText_ne_minus m

theorem text_inj {x y : Binary64} (hx : x ≠ .nan) (hy : y ≠ .nan)
    (h : x.text.toList = y.text.toList) : x = y := by
  rw [← read_text hx, h, read_text hy]

theorem text_numberWord {x : Binary64} (h : x ≠ .nan) : NumberWord x.text.toList := by
  match x, h with
  | .signed true m, _ =>
      show NumberWord (String.ofList ('-' :: plainNumbers.magnitudeText m)).toList
      rw [String.toList_ofList]
      obtain ⟨hchars, hpoints, hlast⟩ := m.magnitudeText_numberWord
      refine ⟨?_, ?_, ?_⟩
      · intro c hc
        rcases List.mem_cons.mp hc with rfl | hc
        · decide
        · exact hchars c hc
      · rwa [List.count_cons_of_ne (by decide)]
      · rw [List.getLast?_cons]
        cases hlast' : (plainNumbers.magnitudeText m).getLast? with
        | none => decide
        | some c => rwa [hlast'] at hlast
  | .signed false m, _ =>
      show NumberWord (String.ofList (plainNumbers.magnitudeText m)).toList
      rw [String.toList_ofList]
      exact m.magnitudeText_numberWord

theorem text_head {x : Binary64} (h : x ≠ .nan) :
    (∃ c cs, x.text.toList = c :: cs ∧ (c.isDigit = true ∨ c = '-')) ∨
      x.text.toList = ['i', 'n', 'f'] := by
  match x, h with
  | .signed true m, _ =>
      exact Or.inl ⟨'-', plainNumbers.magnitudeText m, String.toList_ofList, Or.inr rfl⟩
  | .signed false m, _ =>
      show (∃ c cs, (String.ofList (plainNumbers.magnitudeText m)).toList = c :: cs ∧ _) ∨
        (String.ofList (plainNumbers.magnitudeText m)).toList = _
      rw [String.toList_ofList]
      rcases m.magnitudeText_head with ⟨c, rest, hcs, hdigit⟩ | hinf
      · exact Or.inl ⟨c, rest, hcs, Or.inl hdigit⟩
      · exact Or.inr hinf

end Binary64
end TypeGraph
