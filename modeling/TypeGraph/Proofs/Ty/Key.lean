/-
# Keys tell types apart

Keys are pasted together from labels, numbers and the keys of parts, with separators and brackets
that may occur inside a quoted text as well.  Still a key can be taken apart in one way only, at
every depth: its first characters show the family of its type, and each part shows where it ends
as long as only a separator, a bracket or nothing follows (`EndsKey`).

One lemma per kind of part says so: numbers, strings, fields and members.  `WellFormed.toldApart`
is the induction over types that puts them together.
-/
import TypeGraph.Proofs.Number.Text
import TypeGraph.Proofs.Text.Quoted
import TypeGraph.Proofs.Ty.WellFormed

namespace TypeGraph

/-- What may stand behind a key: nothing, or a separator or bracket of the type around it.  A
space before an opening brace is not among them, for it goes on with a struct. -/
inductive EndsKey : List Char → Prop where
  | nil : EndsKey []
  | comma (r : List Char) : EndsKey (',' :: r)
  | close (r : List Char) : EndsKey (')' :: r)
  | space {c : Char} (hc : c ≠ '\x7b') (r : List Char) : EndsKey (' ' :: c :: r)

theorem EndsKey.stops {kind : Char → Bool} (hcomma : kind ',' = false) (hclose : kind ')' = false)
    (hspace : kind ' ' = false) {r : List Char} (hr : EndsKey r) : Text.Stops kind r := by
  intro c hc
  cases hr with
  | nil => cases hc
  | comma r => cases hc; exact hcomma
  | close r => cases hc; exact hclose
  | space _ r => cases hc; exact hspace

/-! ## Numbers -/

theorem EndsKey.stops_number {r : List Char} (hr : EndsKey r) : Text.Stops isNumberChar r :=
  hr.stops (by decide) (by decide) (by decide)

/-- Two points behind a number word show where it ends: a point of the word's own is neither its
last character nor one of two. -/
theorem NumberWord.eq_nil_of_points {v t r s : List Char} (h : NumberWord (v ++ t))
    (heq : '.' :: '.' :: r = t ++ '.' :: '.' :: s) : t = [] := by
  match t, heq with
  | [], _ => rfl
  | [_], heq =>
      obtain ⟨rfl, -⟩ := List.cons.inj heq
      exact absurd List.getLast?_concat h.last
  | _ :: _ :: t, heq =>
      obtain ⟨rfl, htail⟩ := List.cons.inj heq
      obtain ⟨rfl, -⟩ := List.cons.inj htail
      have hpoints := h.points
      simp only [List.count_append, List.count_cons_self] at hpoints
      omega

theorem NumberWord.append_points_inj {v w r s : List Char} (hv : NumberWord v)
    (hw : NumberWord w) (h : v ++ '.' :: '.' :: r = w ++ '.' :: '.' :: s) : v = w ∧ r = s := by
  have hvw : v = w := by
    rcases List.append_eq_append_iff.mp h with ⟨t, rfl, ht⟩ | ⟨t, rfl, ht⟩
    · rw [hw.eq_nil_of_points ht, List.append_nil]
    · rw [hv.eq_nil_of_points ht, List.append_nil]
  subst hvw
  exact ⟨rfl, (List.cons.inj (List.cons.inj (List.append_cancel_left h)).2).2⟩

namespace NumberType

def rangeText (min max : Binary64) : List Char := min.text.toList ++ '.' :: '.' :: max.text.toList

theorem rangeText_chars {min max : Binary64} (hmin : min ≠ .nan) (hmax : max ≠ .nan) :
    ∀ c ∈ rangeText min max, isNumberChar c = true := by
  intro c hc
  rcases List.mem_append.mp hc with hc | hc
  · exact (Binary64.text_numberWord hmin).chars c hc
  · rcases List.mem_cons.mp hc with rfl | hc
    · decide
    · rcases List.mem_cons.mp hc with rfl | hc
      · decide
      · exact (Binary64.text_numberWord hmax).chars c hc

theorem rangeText_append_inj {min max min' max' : Binary64} (hmin : min ≠ .nan) (hmax : max ≠ .nan)
    (hmin' : min' ≠ .nan) (hmax' : max' ≠ .nan) {r s : List Char}
    (hr : Text.Stops isNumberChar r) (hs : Text.Stops isNumberChar s)
    (h : rangeText min max ++ r = rangeText min' max' ++ s) :
    (min = min' ∧ max = max') ∧ r = s := by
  obtain ⟨hrange, hrs⟩ := Text.word_append_inj (rangeText_chars hmin hmax)
    (rangeText_chars hmin' hmax') hr hs h
  obtain ⟨hlo, hhi⟩ := (Binary64.text_numberWord hmin).append_points_inj
    (Binary64.text_numberWord hmin') hrange
  exact ⟨⟨Binary64.text_inj hmin hmin' hlo, Binary64.text_inj hmax hmax' hhi⟩, hrs⟩

theorem toList_key_interval (min max : Binary64) :
    (interval min max).key.toList = rangeText min max := by
  simp [key, rangeText]

theorem toList_key_intInterval (min max : Binary64) :
    (intInterval min max).key.toList = "int(".toList ++ (rangeText min max ++ [')']) := by
  simp [key, rangeText]

/-- The kind of a number type, seen at the front of its key. -/
def seenKind : List Char → Kind
  | 'n' :: _ => .number
  | 'i' :: 'n' :: 't' :: _ => .intInterval
  | cs => if (cs.takeWhile isNumberChar).count '.' ≤ 1 then .literal else .interval

theorem seenKind_text {x : Binary64} (hx : x ≠ .nan) (r : List Char) :
    seenKind (x.text.toList ++ r) =
      if ((x.text.toList ++ r).takeWhile isNumberChar).count '.' ≤ 1 then .literal
      else .interval := by
  rcases Binary64.text_head hx with ⟨c, cs, hcs, hc⟩ | hinf
  · rw [hcs, List.cons_append]
    unfold seenKind
    split
    · next heq =>
        obtain ⟨rfl, -⟩ := List.cons.inj heq
        exact absurd hc (by decide)
    · next heq =>
        obtain ⟨rfl, -⟩ := List.cons.inj heq
        exact absurd hc (by decide)
    · rfl
  · rw [hinf]
    rfl

theorem seenKind_key {n : NumberType} (hn : n.Valid) {r : List Char} (hr : EndsKey r) :
    seenKind (n.key.toList ++ r) = n.kind := by
  cases n with
  | all => rfl
  | literal v =>
      have hword := Binary64.text_numberWord hn.ne_nan
      show seenKind (v.text.toList ++ r) = _
      rw [seenKind_text hn.ne_nan, Text.takeWhile_word hword.chars hr.stops_number,
        if_pos hword.points]
      rfl
  | interval min max =>
      obtain ⟨hmin, hmax, -⟩ := hn
      have htwo : ¬ (rangeText min max).count '.' ≤ 1 := by
        rw [rangeText, List.count_append, List.count_cons_self, List.count_cons_self]
        omega
      have hseen := seenKind_text hmin.ne_nan ('.' :: '.' :: max.text.toList ++ r)
      rw [← List.append_assoc] at hseen
      rw [toList_key_interval]
      refine hseen.trans ?_
      rw [← rangeText, Text.takeWhile_word (rangeText_chars hmin.ne_nan hmax.ne_nan)
        hr.stops_number, if_neg htwo]
      rfl
  | intInterval min max =>
      rw [toList_key_intInterval]
      rfl

theorem key_append_inj {n m : NumberType} (hn : n.Valid) (hm : m.Valid) {r s : List Char}
    (hr : EndsKey r) (hs : EndsKey s) (h : n.key.toList ++ r = m.key.toList ++ s) :
    n = m ∧ r = s := by
  have hkind : n.kind = m.kind := by rw [← seenKind_key hn hr, h, seenKind_key hm hs]
  cases n with
  | all =>
      cases m with
      | all => exact ⟨rfl, List.append_cancel_left h⟩
      | _ => cases hkind
  | literal v =>
      cases m with
      | literal w =>
          obtain ⟨hvw, hrs⟩ := Text.word_append_inj (Binary64.text_numberWord hn.ne_nan).chars
            (Binary64.text_numberWord hm.ne_nan).chars hr.stops_number hs.stops_number h
          rw [Binary64.text_inj hn.ne_nan hm.ne_nan hvw]
          exact ⟨rfl, hrs⟩
      | _ => cases hkind
  | interval min max =>
      cases m with
      | interval min' max' =>
          rw [toList_key_interval, toList_key_interval] at h
          obtain ⟨⟨rfl, rfl⟩, hrs⟩ := rangeText_append_inj hn.1.ne_nan hn.2.1.ne_nan hm.1.ne_nan
            hm.2.1.ne_nan hr.stops_number hs.stops_number h
          exact ⟨rfl, hrs⟩
      | _ => cases hkind
  | intInterval min max =>
      cases m with
      | intInterval min' max' =>
          rw [toList_key_intInterval, toList_key_intInterval] at h
          simp only [List.append_assoc, List.append_cancel_left_eq] at h
          have hclose : ∀ r : List Char, Text.Stops isNumberChar ([')'] ++ r) := by
            rintro r c ⟨⟩
            decide
          obtain ⟨⟨rfl, rfl⟩, hrs⟩ := rangeText_append_inj hn.1.1.ne_nan hn.1.2.1.ne_nan
            hm.1.1.ne_nan hm.1.2.1.ne_nan (hclose r) (hclose s) h
          exact ⟨rfl, List.append_cancel_left hrs⟩
      | _ => cases hkind

end NumberType

/-! ## Strings -/

theorem StringType.key_append_inj {a b : StringType} {r s : List Char}
    (h : a.key.toList ++ r = b.key.toList ++ s) : a = b ∧ r = s := by
  cases a with
  | all =>
      cases b with
      | all => exact ⟨rfl, List.append_cancel_left h⟩
      | literal v =>
          rw [StringType.key, StringType.key, Text.toList_quoted] at h
          exact absurd (List.cons.inj h).1 (by decide)
  | literal u =>
      cases b with
      | all =>
          rw [StringType.key, StringType.key, Text.toList_quoted] at h
          exact absurd (List.cons.inj h).1 (by decide)
      | literal v =>
          obtain ⟨rfl, hrs⟩ := Text.quoted_append_inj h
          exact ⟨rfl, hrs⟩

/-! ## The family of a key -/

namespace Ty

/-- The family of a type, seen at the front of its key. -/
def seenFamily : List Char → Option Family
  | [] => none
  | '"' :: _ => some .string
  | '(' :: _ => some .union
  | 'a' :: _ => some .any
  | 'n' :: 'e' :: _ => some .never
  | 's' :: 't' :: 'r' :: 'i' :: _ => some .string
  | 's' :: 't' :: 'r' :: 'u' :: _ => some .struct
  | c :: _ => if isNumberChar c then some .number else none

theorem seenFamily_text {x : Binary64} (hx : x ≠ .nan) (r : List Char) :
    seenFamily (x.text.toList ++ r) = some .number := by
  rcases Binary64.text_head hx with ⟨c, cs, hcs, hc⟩ | hinf
  · have hchar := (Binary64.text_numberWord hx).chars c (by rw [hcs]; exact List.mem_cons_self)
    rw [hcs, List.cons_append]
    unfold seenFamily
    split
    case h_8 heq => cases heq; rw [if_pos hchar]
    case h_1 heq => cases heq
    all_goals
      next heq =>
        obtain ⟨rfl, -⟩ := List.cons.inj heq
        exact absurd hc (by decide)
  · rw [hinf]
    rfl

theorem seenFamily_number {n : NumberType} (hn : n.Valid) (r : List Char) :
    seenFamily (n.key.toList ++ r) = some .number := by
  cases n with
  | all => rfl
  | literal v => exact seenFamily_text hn.ne_nan r
  | interval min max =>
      rw [NumberType.toList_key_interval, NumberType.rangeText, List.append_assoc]
      exact seenFamily_text hn.1.ne_nan _
  | intInterval min max =>
      rw [NumberType.toList_key_intInterval]
      rfl

theorem seenFamily_key {t : Ty} (ht : t.WellFormed) (r : List Char) :
    seenFamily (t.key.toList ++ r) = some t.family := by
  cases ht with
  | never => rfl
  | any => rfl
  | number h => exact seenFamily_number h r
  | string s =>
      cases s with
      | all => rfl
      | literal v =>
          show seenFamily ((Text.quoted v).toList ++ r) = _
          rw [Text.toList_quoted]
          rfl
  | struct name h =>
      show seenFamily ((Struct.keyText name _).toList ++ r) = _
      simp only [Struct.keyText, String.toList_append]
      rfl
  | union h hflat hascending =>
      show seenFamily ((Union.keyText _).toList ++ r) = _
      simp only [Union.keyText, String.toList_append]
      rfl

end Ty

/-! ## Structs -/

/-- The keys of two types are told apart from what may follow them: where they agree up to there,
the types are one type. -/
def Ty.ToldApart (a b : Ty) : Prop :=
  ∀ r s, EndsKey r → EndsKey s → a.key.toList ++ r = b.key.toList ++ s → a = b ∧ r = s

theorem Field.keyText_append_inj {f g : Field Ty} (hvalue : f.value.ToldApart g.value)
    {r s : List Char} (hr : EndsKey r) (hs : EndsKey s)
    (h : f.keyText.toList ++ r = g.keyText.toList ++ s) : f = g ∧ r = s := by
  have htext : ∀ f : Field Ty, f.keyText.toList
      = (Text.label f.name).toList ++ (':' :: ' ' :: f.value.key.toList) := by
    intro f
    simp [Field.keyText]
  have hcolon : ∀ r : List Char, Text.Stops Text.isNameChar (':' :: r) := by
    rintro r c ⟨⟩
    decide
  rw [htext, htext, List.append_assoc, List.append_assoc] at h
  obtain ⟨hname, hrest⟩ := Text.label_append_inj (hcolon _) (hcolon _) h
  obtain ⟨hval, hrs⟩ := hvalue r s hr hs (List.cons.inj (List.cons.inj hrest).2).2
  obtain ⟨name, value⟩ := f
  obtain ⟨name', value'⟩ := g
  cases hname
  cases hval
  exact ⟨rfl, hrs⟩

namespace Struct

/-- What follows the name in the key of a struct. -/
def fieldsText : List (Field Ty) → List Char
  | [] => []
  | f :: fields => " \x7b ".toList ++
      (", ".toList.intercalate ((f :: fields).map fun f => f.keyText.toList) ++ " \x7d".toList)

theorem toList_keyText (name : String) (fields : List (Field Ty)) :
    (keyText name fields).toList
      = "struct ".toList ++ ((Text.label name).toList ++ fieldsText fields) := by
  cases fields with
  | nil => simp [keyText, fieldsText]
  | cons f fields => simp [keyText, fieldsText, String.toList_intercalate, Function.comp_def]

/-- Without fields nothing that could go on with a name follows, and with fields a space does. -/
theorem fieldsText_stops (fields : List (Field Ty)) {r : List Char} (hr : EndsKey r) :
    Text.Stops Text.isNameChar (fieldsText fields ++ r) := by
  cases fields with
  | nil => exact hr.stops (by decide) (by decide) (by decide)
  | cons f fields =>
      rintro c ⟨⟩
      decide

theorem fieldsText_ne_of_endsKey (f : Field Ty) (fields : List (Field Ty)) {r s : List Char}
    (hr : EndsKey r) : r ≠ fieldsText (f :: fields) ++ s := by
  rintro rfl
  cases hr with
  | space hc _ => exact hc rfl

theorem fieldsText_append_inj {fields fields' : List (Field Ty)}
    (hread : ∀ f ∈ fields, ∀ g ∈ fields', f.value.ToldApart g.value) {r s : List Char}
    (hr : EndsKey r) (hs : EndsKey s) (h : fieldsText fields ++ r = fieldsText fields' ++ s) :
    fields = fields' ∧ r = s := by
  match fields, fields', hread, h with
  | [], [], _, h => exact ⟨rfl, h⟩
  | [], g :: fields', _, h => exact absurd h (fieldsText_ne_of_endsKey g fields' hr)
  | f :: fields, [], _, h => exact absurd h.symm (fieldsText_ne_of_endsKey f fields hs)
  | f :: fields, g :: fields', hread, h =>
      simp only [fieldsText, List.append_assoc, List.append_cancel_left_eq] at h
      rw [← List.append_assoc, ← List.append_assoc] at h
      exact Text.intercalate_append_inj (fun f : Field Ty => f.keyText.toList) EndsKey
        (fun r => .comma _) (fun r => .space (by decide) r)
        (fun r s heq => absurd (List.cons.inj heq).1 (by decide))
        (fun f hf g hg r s hr hs => Field.keyText_append_inj (hread f hf g hg) hr hs) h

end Struct

/-! ## Unions -/

namespace Union

theorem toList_keyText (members : List Ty) :
    (keyText (members.map Ty.key)).toList
      = '(' :: (" | ".toList.intercalate (members.map fun t => t.key.toList) ++ ")".toList) := by
  simp [keyText, String.toList_intercalate, Function.comp_def]

theorem close_ne_members {t : Ty} (ht : t.WellFormed) (members : List Ty) (r s : List Char) :
    ")".toList ++ r ≠
      " | ".toList.intercalate ((t :: members).map fun t => t.key.toList) ++ ")".toList ++ s := by
  intro h
  rw [Text.intercalate_append_close, List.append_assoc] at h
  have hseen := congrArg Ty.seenFamily h
  rw [Ty.seenFamily_key ht] at hseen
  cases hseen

theorem members_append_inj {members members' : List Ty} (hwf : ∀ t ∈ members, t.WellFormed)
    (hwf' : ∀ t ∈ members', t.WellFormed)
    (hread : ∀ a ∈ members, ∀ b ∈ members', a.ToldApart b) {r s : List Char}
    (h : (keyText (members.map Ty.key)).toList ++ r = (keyText (members'.map Ty.key)).toList ++ s) :
    members = members' ∧ r = s := by
  rw [toList_keyText, toList_keyText] at h
  have h := (List.cons.inj h).2
  match members, members', hwf, hwf', hread, h with
  | [], [], _, _, _, h => exact ⟨rfl, List.append_cancel_left h⟩
  | [], b :: members', _, hwf', _, h =>
      exact absurd h (close_ne_members (hwf' b List.mem_cons_self) members' r s)
  | a :: members, [], hwf, _, _, h =>
      exact absurd h.symm (close_ne_members (hwf a List.mem_cons_self) members s r)
  | a :: members, b :: members', _, _, hread, h =>
      exact Text.intercalate_append_inj (fun t : Ty => t.key.toList) EndsKey
        (fun r => .space (by decide) _) (fun r => .close r)
        (fun r s heq => absurd (List.cons.inj heq).1 (by decide)) hread h

end Union

/-! ## Types -/

namespace Ty

/-- Only types of one family need to be compared: the first characters show the family. -/
theorem toldApart_of_family {a b : Ty} (ha : a.WellFormed) (hb : b.WellFormed)
    (h : a.family = b.family → a.ToldApart b) : a.ToldApart b := by
  intro r s hr hs heq
  have hseen := seenFamily_key ha r
  rw [heq, seenFamily_key hb] at hseen
  exact h (Option.some.inj hseen).symm r s hr hs heq

/-- The keys of well-formed types are told apart from what may follow them: by induction on one
type, the other being of the same family. -/
theorem WellFormed.toldApart {a b : Ty} (ha : a.WellFormed) (hb : b.WellFormed) :
    a.ToldApart b := by
  refine toldApart_of_family ha hb fun hfamily => ?_
  induction ha generalizing b with
  | never =>
      cases hb with
      | never => exact fun r s _ _ h => ⟨rfl, List.append_cancel_left h⟩
      | _ => cases hfamily
  | any =>
      cases hb with
      | any => exact fun r s _ _ h => ⟨rfl, List.append_cancel_left h⟩
      | _ => cases hfamily
  | number hn =>
      cases hb with
      | number hm =>
          intro r s hr hs h
          obtain ⟨rfl, hrs⟩ := NumberType.key_append_inj hn hm hr hs h
          exact ⟨rfl, hrs⟩
      | _ => cases hfamily
  | string u =>
      cases hb with
      | string v =>
          intro r s _ _ h
          obtain ⟨rfl, hrs⟩ := StringType.key_append_inj h
          exact ⟨rfl, hrs⟩
      | _ => cases hfamily
  | struct name hfields ih =>
      cases hb with
      | struct name' hfields' =>
          intro r s hr hs h
          simp only [key, Struct.of, Struct.toList_keyText, List.append_assoc,
            List.append_cancel_left_eq] at h
          obtain ⟨hname, hrest⟩ := Text.label_append_inj (Struct.fieldsText_stops _ hr)
            (Struct.fieldsText_stops _ hs) h
          obtain ⟨rfl, hrs⟩ := Struct.fieldsText_append_inj (fun f hf g hg =>
            toldApart_of_family (hfields f hf) (hfields' g hg) (ih f hf (hfields' g hg)))
            hr hs hrest
          exact ⟨by rw [hname], hrs⟩
      | _ => cases hfamily
  | union hmembers _ _ ih =>
      cases hb with
      | union hmembers' _ _ =>
          intro r s _ _ h
          obtain ⟨rfl, hrs⟩ := Union.members_append_inj hmembers hmembers' (fun a ha b hb =>
            toldApart_of_family (hmembers a ha) (hmembers' b hb) (ih a ha (hmembers' b hb))) h
          exact ⟨rfl, hrs⟩
      | _ => cases hfamily

theorem WellFormed.key_inj {a b : Ty} (ha : a.WellFormed) (hb : b.WellFormed)
    (h : a.key = b.key) : a = b :=
  (ha.toldApart hb [] [] .nil .nil (by rw [h])).1

end Ty
end TypeGraph
