import ClassLang.Assembly.Name

/-! Text between quotes. What would end the text early is written with a backslash before it, so
that a reader that knows what may follow a backslash gets the text back and stops at the closing
quote, whatever comes after. String literals are such text, and so are names that are no
identifiers. -/
namespace ClassLang.Assembly

structure Quoting where
  quote : Char
  /-- What a character stands for after a backslash, if it may follow one. -/
  meaning : Char → Option Char
  quote_ne : quote ≠ '\\'

namespace Quoting

/-- Reads as far as the closing quote. The flag tells that the character before is a backslash that
nothing was made of yet. -/
def read (q : Quoting) : Bool → List Char → Option (List Char × List Char)
  | _, [] => none
  | true, c :: rest =>
    (q.meaning c).bind fun d => (q.read false rest).map fun r => (d :: r.1, r.2)
  | false, c :: rest =>
    if c = q.quote then some ([], rest)
    else if c = '\\' then q.read true rest
    else (q.read false rest).map fun r => (c :: r.1, r.2)

/-- Whether every quote and every backslash of a text belongs to an escape. -/
def isEscaped (q : Quoting) : Bool → List Char → Bool
  | pending, [] => !pending
  | true, c :: rest => (q.meaning c).isSome && q.isEscaped false rest
  | false, c :: rest => c != q.quote && q.isEscaped (c == '\\') rest

def Fits (q : Quoting) (write : Char → List Char) : Prop :=
  ∀ c, (write c = [c] ∧ c ≠ q.quote ∧ c ≠ '\\') ∨ ∃ d, write c = ['\\', d] ∧ q.meaning d = some c

variable {q : Quoting} {write : Char → List Char}

theorem Fits.read_char (h : q.Fits write) (c : Char) (rest : List Char) :
    q.read false (write c ++ rest) = (q.read false rest).map fun r => (c :: r.1, r.2) := by
  rcases h c with ⟨hw, hquote, hslash⟩ | ⟨d, hw, hd⟩
  · rw [hw, List.singleton_append, read, if_neg hquote, if_neg hslash]
  · rw [hw, List.cons_append, List.singleton_append, read, if_neg (Ne.symm q.quote_ne), if_pos rfl,
      read, hd, Option.bind_some]

/-- The reader undoes the writer and leaves what follows the closing quote. -/
theorem Fits.read_text (h : q.Fits write) (text rest : List Char) :
    q.read false (text.flatMap write ++ q.quote :: rest) = some (text, rest) := by
  induction text with
  | nil => rw [List.flatMap_nil, List.nil_append, read, if_pos rfl]
  | cons c text ih => rw [List.flatMap_cons, List.append_assoc, h.read_char, ih, Option.map_some]

theorem Fits.isEscaped_text (h : q.Fits write) (text : List Char) :
    q.isEscaped false (text.flatMap write) = true := by
  induction text with
  | nil => rfl
  | cons c text ih =>
    rw [List.flatMap_cons]
    rcases h c with ⟨hw, hquote, hslash⟩ | ⟨d, hw, hd⟩
    · simp [hw, isEscaped, hquote, beq_eq_false_iff_ne.mpr hslash, ih]
    · simp [hw, isEscaped, Ne.symm q.quote_ne, hd, ih]

theorem Fits.length_le (h : q.Fits write) (text : List Char) :
    text.length ≤ (text.flatMap write).length := by
  induction text with
  | nil => exact Nat.le_refl _
  | cons c text ih =>
    have hc : 1 ≤ (write c).length := by
      rcases h c with ⟨hw, -⟩ | ⟨d, hw, -⟩ <;> simp [hw]
    rw [List.flatMap_cons, List.length_append, List.length_cons, Nat.add_comm]
    exact Nat.add_le_add hc ih

end Quoting

def literalQuoting : Quoting where
  quote := '"'
  meaning
    | '"' => some '"'
    | '\\' => some '\\'
    | 'n' => some '\n'
    | 'r' => some '\r'
    | 't' => some '\t'
    | _ => none
  quote_ne := by decide

theorem literalQuoting_fits : literalQuoting.Fits escapedLiteralChar := by
  intro c
  unfold escapedLiteralChar
  split
  · next h => rcases h with rfl | rfl <;> exact Or.inr ⟨_, rfl, rfl⟩
  · next h =>
    rw [not_or] at h
    split
    · next hn => exact Or.inr ⟨'n', rfl, hn ▸ rfl⟩
    · split
      · next hr => exact Or.inr ⟨'r', rfl, hr ▸ rfl⟩
      · split
        · next ht => exact Or.inr ⟨'t', rfl, ht ▸ rfl⟩
        · exact Or.inl ⟨rfl, h⟩

def readLiteral : List Char → Option (List Char × List Char)
  | '"' :: rest => literalQuoting.read false rest
  | _ => none

theorem toList_stringToken (value : String) :
    (stringToken value).toList = '"' :: value.toList.flatMap escapedLiteralChar ++ ['"'] :=
  String.toList_ofList

theorem readLiteral_stringToken (value : String) (rest : List Char) :
    readLiteral ((stringToken value).toList ++ rest) = some (value.toList, rest) := by
  rw [toList_stringToken, List.append_assoc, List.cons_append]
  exact literalQuoting_fits.read_text value.toList rest

/-- No literal is the beginning of another one, so none can be taken to end elsewhere. -/
theorem stringToken_append_inj {a b : String} {as bs : List Char}
    (h : (stringToken a).toList ++ as = (stringToken b).toList ++ bs) : a = b ∧ as = bs := by
  have hread := readLiteral_stringToken a as
  rw [h, readLiteral_stringToken, Option.some.injEq, Prod.mk.injEq] at hread
  exact ⟨String.toList_inj.mp hread.1.symm, hread.2.symm⟩

theorem escapedLiteralChar_visible (c : Char) :
    ∀ d ∈ escapedLiteralChar c, d ≠ '\n' ∧ d ≠ '\r' ∧ d ≠ '\t' := by
  unfold escapedLiteralChar
  split
  · next h => rcases h with rfl | rfl <;> simp
  · split
    · simp
    · next hn =>
      split
      · simp
      · next hr =>
        split
        · simp
        · next ht => exact List.forall_mem_singleton.mpr ⟨hn, hr, ht⟩

/-- Literals can be read again. A literal stands between double quotes, and in between there is no
line break, no tab and no quote that is not escaped. A reader gets the text back and stops behind
the closing quote, whatever follows. So literals tell texts apart, and none ends early or runs on
into what follows. -/
theorem string_literals_round_trip (value : String) :
    (∃ inside, (stringToken value).toList = '"' :: inside ++ ['"'] ∧
      (∀ c ∈ inside, c ≠ '\n' ∧ c ≠ '\r' ∧ c ≠ '\t') ∧
      literalQuoting.isEscaped false inside = true) ∧
    (∀ rest, readLiteral ((stringToken value).toList ++ rest) = some (value.toList, rest)) ∧
    (∀ other, stringToken value = stringToken other → value = other) ∧
    ∀ other as bs, (stringToken value).toList ++ as = (stringToken other).toList ++ bs →
      value = other ∧ as = bs := by
  refine ⟨⟨_, toList_stringToken value, ?_, literalQuoting_fits.isEscaped_text value.toList⟩,
    readLiteral_stringToken value, fun other h => ?_, fun other as bs h => stringToken_append_inj h⟩
  · intro c hc
    obtain ⟨d, -, hd⟩ := List.mem_flatMap.mp hc
    exact escapedLiteralChar_visible d c hd
  · exact (stringToken_append_inj (congrArg (fun token => String.toList token ++ []) h)).1

/-- Text that looks like escapes and ends in a backslash, before an instruction that holds a quote.
-/
theorem string_literals_round_trip_slashes :
    (stringToken "\\n\"\t\\").toList = "\"\\\\n\\\"\\t\\\\\"".toList ∧
    readLiteral ((stringToken "\\n\"\t\\").toList ++ "\nldstr \"\"".toList) =
      some ("\\n\"\t\\".toList, "\nldstr \"\"".toList) ∧
    stringToken "\\n\"\t\\" ≠ stringToken "\n\"\t\\" := by
  obtain ⟨-, hread, hinj, -⟩ := string_literals_round_trip "\\n\"\t\\"
  exact ⟨by decide, hread _, fun h => absurd (hinj _ h) (by decide)⟩

end ClassLang.Assembly
