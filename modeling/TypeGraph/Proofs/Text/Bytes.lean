/-
# Strings in the order of their bytes

Strings are compared character by character, by code points.  Their UTF-8 bytes, compared byte by
byte, come in the same order (`bytes_lt_of_lt`).  The encoding of a character is a marked leading
byte and then digits in base 64: a wider encoding has a greater leading byte, and among encodings
of one width the first digit that differs decides.
-/

namespace TypeGraph.Text

def bytes (s : String) : List UInt8 := s.toByteArray.data.toList

theorem bytes_eq (s : String) : bytes s = s.toList.flatMap String.utf8EncodeChar := by
  have hs : s.toByteArray = s.toList.utf8Encode := by
    rw [← String.toByteArray_ofList, String.ofList_toList]
  rw [bytes, hs, List.utf8Encode, List.data_toByteArray]

/-! ## A leading byte and digits -/

/-- What is left of a number without its last `k` digits in base 64. -/
def leading : Nat → Nat → Nat
  | 0, n => n
  | k + 1, n => leading k (n / 64)

/-- A number as a leading byte, marked, and `k` digits in base 64. -/
def spelled (marker : Nat) : Nat → Nat → List UInt8
  | 0, n => [.ofNat (n + marker)]
  | k + 1, n => spelled marker k (n / 64) ++ [.ofNat (n % 64 + 128)]

theorem spelled_cons (marker : Nat) : ∀ k n : Nat,
    ∃ digits, spelled marker k n = .ofNat (leading k n + marker) :: digits
  | 0, _ => ⟨[], rfl⟩
  | k + 1, n => by
      obtain ⟨digits, h⟩ := spelled_cons marker k (n / 64)
      exact ⟨digits ++ [.ofNat (n % 64 + 128)], by rw [spelled, h, List.cons_append, leading]⟩

theorem byte_cons_lt {m n : Nat} (h : m < n) (hn : n < 256) (r s : List UInt8) :
    UInt8.ofNat m :: r < UInt8.ofNat n :: s :=
  List.cons_lt_cons_iff.mpr (Or.inl ((UInt8.ofNat_lt_iff_lt (Nat.lt_trans h hn) hn).mpr h))

/-- Numbers spelled with equally many digits come in ascending order, whatever follows them: by
induction on the digits, the last of which decides where all before it agree. -/
theorem spelled_append_lt {marker : Nat} : ∀ {k m n : Nat}, m < n → leading k n + marker < 256 →
    ∀ r s, spelled marker k m ++ r < spelled marker k n ++ s
  | 0, m, n, h, hn, r, s => byte_cons_lt (Nat.add_lt_add_right h marker) hn r s
  | k + 1, m, n, h, hn, r, s => by
      rw [spelled, spelled, List.append_assoc, List.append_assoc]
      rcases Nat.lt_or_ge (m / 64) (n / 64) with hfront | hfront
      · exact spelled_append_lt hfront hn _ _
      · have hsame : m / 64 = n / 64 := by omega
        rw [hsame]
        exact List.append_left_lt (byte_cons_lt (by omega) (by omega) r s)

/-! ## Characters -/

/-- How many digits follow the leading byte of a code point. -/
def digitCount (n : Nat) : Nat :=
  if n ≤ 127 then 0 else if n ≤ 2047 then 1 else if n ≤ 65535 then 2 else 3

/-- The mark of a leading byte that so many digits follow. -/
def mark (k : Nat) : Nat :=
  if k = 0 then 0 else if k = 1 then 192 else if k = 2 then 224 else if k = 3 then 240 else 256

def leadingByte (n : Nat) : Nat := leading (digitCount n) n + mark (digitCount n)

theorem digitCount_mono {m n : Nat} (h : m ≤ n) : digitCount m ≤ digitCount n := by
  grind [digitCount]

theorem mark_mono {j k : Nat} (h : j ≤ k) : mark j ≤ mark k := by
  grind [mark]

theorem mark_le (k : Nat) : mark k ≤ 256 := by
  grind [mark]

theorem code_lt (c : Char) : c.val.toNat < 1114112 := by
  rcases c.valid with h | h
  · exact Nat.lt_trans h (by decide)
  · exact h.2

/-- The leading byte of a code point stays below the mark for one more digit. -/
theorem leadingByte_lt {n : Nat} (hmax : n < 1114112) : leadingByte n < mark (digitCount n + 1) := by
  unfold leadingByte digitCount
  split
  · show n + 0 < 192
    omega
  · split
    · show n / 64 + 192 < 224
      omega
    · split
      · show n / 64 / 64 + 224 < 240
        omega
      · show n / 64 / 64 / 64 + 240 < 256
        omega

theorem utf8EncodeChar_eq (c : Char) : String.utf8EncodeChar c
    = spelled (mark (digitCount c.val.toNat)) (digitCount c.val.toNat) c.val.toNat := by
  have hmax := code_lt c
  simp only [String.utf8EncodeChar, digitCount]
  generalize c.val.toNat = n at *
  split
  · rfl
  · split
    · have hfirst : n / 64 % 32 = n / 64 := by omega
      rw [hfirst]
      rfl
    · split
      · have hfirst : n / 4096 % 16 = n / 64 / 64 := by omega
        rw [hfirst]
        rfl
      · have hfirst : n / 262144 % 8 = n / 64 / 64 / 64 := by omega
        have hsecond : n / 4096 % 64 = n / 64 / 64 % 64 := by omega
        rw [hfirst, hsecond]
        rfl

theorem utf8EncodeChar_cons (c : Char) :
    ∃ digits, String.utf8EncodeChar c = .ofNat (leadingByte c.val.toNat) :: digits := by
  rw [utf8EncodeChar_eq]
  exact spelled_cons _ _ _

theorem utf8EncodeChar_append_lt {c d : Char} (h : c < d) (r s : List UInt8) :
    String.utf8EncodeChar c ++ r < String.utf8EncodeChar d ++ s := by
  have hlt : c.val.toNat < d.val.toNat := h
  have hbyte : leadingByte d.val.toNat < 256 :=
    Nat.lt_of_lt_of_le (leadingByte_lt (code_lt d)) (mark_le _)
  rcases Nat.lt_or_eq_of_le (digitCount_mono (Nat.le_of_lt hlt)) with hcount | hcount
  -- of different widths, where the leading bytes differ
  · obtain ⟨digits, hc⟩ := utf8EncodeChar_cons c
    obtain ⟨digits', hd⟩ := utf8EncodeChar_cons d
    have hleading : leadingByte c.val.toNat < leadingByte d.val.toNat :=
      calc leadingByte c.val.toNat
        _ < mark (digitCount c.val.toNat + 1) := leadingByte_lt (code_lt c)
        _ ≤ mark (digitCount d.val.toNat) := mark_mono hcount
        _ ≤ leadingByte d.val.toNat := Nat.le_add_left _ _
    rw [hc, hd]
    exact byte_cons_lt hleading hbyte _ _
  · rw [utf8EncodeChar_eq, utf8EncodeChar_eq, hcount]
    exact spelled_append_lt hlt hbyte r s

/-! ## Strings -/

theorem flatMap_utf8EncodeChar_lt : ∀ {l m : List Char}, l < m →
    l.flatMap String.utf8EncodeChar < m.flatMap String.utf8EncodeChar
  | [], [], h => absurd h (List.not_lt_nil [])
  | [], c :: m, _ => by
      obtain ⟨digits, hc⟩ := utf8EncodeChar_cons c
      rw [List.flatMap_nil, List.flatMap_cons, hc]
      exact List.nil_lt_cons _ _
  | _ :: _, [], h => absurd h (List.not_lt_nil _)
  | c :: l, d :: m, h => by
      rw [List.flatMap_cons, List.flatMap_cons]
      rcases List.cons_lt_cons_iff.mp h with hcd | ⟨rfl, hlm⟩
      · exact utf8EncodeChar_append_lt hcd _ _
      · exact List.append_left_lt (flatMap_utf8EncodeChar_lt hlm)

theorem bytes_lt_of_lt {s t : String} (h : s < t) : bytes s < bytes t := by
  rw [bytes_eq, bytes_eq]
  exact flatMap_utf8EncodeChar_lt (String.lt_iff.mp h)

end TypeGraph.Text
