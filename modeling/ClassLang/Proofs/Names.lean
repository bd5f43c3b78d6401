import ClassLang.Assembly.Instr
import ClassLang.Proofs.Tokens

/-! Names are written so that they can be read again: a scanner that meets the token of a name gets
the name back, whatever follows that is no part of a name. So tokens of names, of class paths and of
types tell these apart. -/
namespace ClassLang.Assembly

def nameQuoting : Quoting where
  quote := '\''
  meaning c := if c = '\\' ∨ c = '\'' then some c else none
  quote_ne := by decide

def escapedNameChar (c : Char) : List Char :=
  if c = '\\' ∨ c = '\'' then ['\\', c] else [c]

/-- Backslashes are escaped first, so the ones that escape a quote are not escaped again. -/
theorem escape_escape (cs : List Char) :
    escape '\'' (escape '\\' cs) = cs.flatMap escapedNameChar := by
  induction cs with
  | nil => rfl
  | cons c cs ih =>
    have hcons : escape '\'' (escape '\\' (c :: cs)) =
        escape '\'' (escape '\\' [c]) ++ escape '\'' (escape '\\' cs) := by
      simp [escape]
    rw [hcons, ih, List.flatMap_cons]
    congr 1
    by_cases hslash : c = '\\'
    · subst hslash
      decide
    · by_cases hquote : c = '\''
      · subst hquote
        decide
      · simp [escape, escapedNameChar, hslash, hquote]

theorem nameQuoting_fits : nameQuoting.Fits escapedNameChar := by
  intro c
  unfold escapedNameChar
  split
  · next h => exact Or.inr ⟨c, rfl, if_pos h⟩
  · next h => exact Or.inl ⟨rfl, (not_or.mp h).2, (not_or.mp h).1⟩

/-- Reads one name: what is in quotes, or the longest word, which must be an identifier and no word
of the assembler. -/
def readName : List Char → Option (List Char × List Char)
  | '\'' :: rest => nameQuoting.read false rest
  | cs =>
    let word := cs.takeWhile isNameChar
    if isIdentifier word && !reserved.contains (String.ofList word) then
      some (word, cs.dropWhile isNameChar)
    else none

theorem isNameChar_of_isNameStart {c : Char} (h : isNameStart c = true) : isNameChar c = true := by
  unfold isNameStart at h
  unfold isNameChar Char.isAlphanum
  rw [Bool.or_eq_true] at h
  rcases h with h | h <;> simp [h]

theorem word_append {name rest : List Char} (hn : ∀ c ∈ name, isNameChar c = true)
    (hr : ∀ c ∈ rest.head?, isNameChar c = false) :
    (name ++ rest).takeWhile isNameChar = name ∧ (name ++ rest).dropWhile isNameChar = rest := by
  rw [List.takeWhile_append_of_pos hn, List.dropWhile_append_of_pos hn]
  cases rest with
  | nil => simp
  | cons c rest => simp [hr c rfl]

theorem isNameChar_of_isIdentifier {name : List Char} (h : isIdentifier name = true) :
    ∀ c ∈ name, isNameChar c = true := by
  cases name with
  | nil => cases h
  | cons c cs =>
    rw [isIdentifier, Bool.and_eq_true, List.all_eq_true] at h
    exact List.forall_mem_cons.mpr ⟨isNameChar_of_isNameStart h.1, h.2⟩

theorem toList_nameToken_of_quoted {name : String}
    (h : ¬ (isIdentifier name.toList && !reserved.contains name) = true) :
    (nameToken name).toList = '\'' :: name.toList.flatMap escapedNameChar ++ ['\''] := by
  rw [nameToken, if_neg h, String.toList_ofList, escape_escape]

/-- A scanner reads back the name that was written. -/
theorem readName_nameToken (name : String) {rest : List Char}
    (hr : ∀ c ∈ rest.head?, isNameChar c = false) :
    readName ((nameToken name).toList ++ rest) = some (name.toList, rest) := by
  by_cases h : (isIdentifier name.toList && !reserved.contains name) = true
  · have hchars := isNameChar_of_isIdentifier (Bool.and_eq_true_iff.mp h).1
    rw [nameToken, if_pos h, readName, (word_append hchars hr).1, (word_append hchars hr).2,
      String.ofList_toList, if_pos h]
    intro rest' heq
    -- An identifier does not start with a quote.
    cases hn : name.toList with
    | nil => simp [hn, isIdentifier] at h
    | cons c cs =>
      rw [hn, List.cons_append] at heq
      have hquote := hchars c (by rw [hn]; exact List.mem_cons_self)
      rw [(List.cons.inj heq).1] at hquote
      exact absurd hquote (by decide)
  · rw [toList_nameToken_of_quoted h, List.append_assoc, List.cons_append]
    exact nameQuoting_fits.read_text name.toList rest

theorem nameToken_append_inj {a b : String} {as bs : List Char}
    (ha : ∀ c ∈ as.head?, isNameChar c = false) (hb : ∀ c ∈ bs.head?, isNameChar c = false)
    (h : (nameToken a).toList ++ as = (nameToken b).toList ++ bs) : a = b ∧ as = bs := by
  have hread := readName_nameToken a ha
  rw [h, readName_nameToken b hb, Option.some.injEq, Prod.mk.injEq] at hread
  exact ⟨String.toList_inj.mp hread.1.symm, hread.2.symm⟩

theorem nameToken_injective {a b : String} (h : nameToken a = nameToken b) : a = b := by
  have hnone : ∀ c ∈ ([] : List Char).head?, isNameChar c = false := by simp
  exact (nameToken_append_inj hnone hnone (by rw [h])).1

theorem nameToken_ne_nil (name : String) : (nameToken name).toList ≠ [] := by
  unfold nameToken
  split
  · next h =>
    intro hnil
    rw [hnil] at h
    cases h
  · simp

def laterSegments (path : List String) : List Char :=
  path.flatMap fun name => '/' :: (nameToken name).toList

theorem toList_classToken_cons (name : String) (path : List String) :
    (classToken (name :: path)).toList = (nameToken name).toList ++ laterSegments path := by
  rw [classToken, String.toList_ofList]
  induction path generalizing name with
  | nil => simp [Text.join, laterSegments]
  | cons next path ih =>
    rw [List.map_cons, Text.join_cons_of_ne_nil _ _ (by simp), ih]
    rfl

theorem laterSegments_head (path : List String) :
    ∀ c ∈ (laterSegments path).head?, isNameChar c = false := by
  cases path with
  | nil => simp [laterSegments]
  | cons name path =>
    rintro c ⟨⟩
    decide

theorem laterSegments_injective : ∀ {a b : List String}, laterSegments a = laterSegments b → a = b
  | [], [], _ => rfl
  | [], _ :: _, h => by cases h
  | _ :: _, [], h => by cases h
  | x :: xs, y :: ys, h => by
    obtain ⟨rfl, hrest⟩ := nameToken_append_inj (laterSegments_head xs) (laterSegments_head ys)
      (List.cons.inj h).2
    rw [laterSegments_injective hrest]

theorem classToken_injective {a b : List String} (h : classToken a = classToken b) : a = b := by
  have hcons : ∀ (name : String) (path : List String),
      (classToken (name :: path)).toList ≠ (classToken []).toList := by
    intro name path heq
    rw [toList_classToken_cons] at heq
    exact nameToken_ne_nil name (List.append_eq_nil_iff.mp heq).1
  cases a with
  | nil =>
    cases b with
    | nil => rfl
    | cons y ys => exact absurd (congrArg String.toList h.symm) (hcons y ys)
  | cons x xs =>
    cases b with
    | nil => exact absurd (congrArg String.toList h) (hcons x xs)
    | cons y ys =>
      have hlist := congrArg String.toList h
      rw [toList_classToken_cons, toList_classToken_cons] at hlist
      obtain ⟨rfl, hrest⟩ :=
        nameToken_append_inj (laterSegments_head xs) (laterSegments_head ys) hlist
      rw [laterSegments_injective hrest]

/-- What stands in quotes is longer than the name. -/
theorem nameToken_eq_self_iff (name : String) :
    nameToken name = name ↔ isIdentifier name.toList = true ∧ name ∉ reserved := by
  have hplain : (isIdentifier name.toList && !reserved.contains name) = true ↔
      isIdentifier name.toList = true ∧ name ∉ reserved := by simp
  rw [← hplain]
  constructor
  · intro heq
    refine Decidable.byContradiction fun h => ?_
    have hlength := congrArg List.length (toList_nameToken_of_quoted h)
    have hle := nameQuoting_fits.length_le name.toList
    rw [heq, List.length_append, List.length_cons, List.length_singleton] at hlength
    omega
  · exact fun h => if_pos h

/-- Names are written without ambiguity. A name stands as it is exactly if it is an identifier and
no word of the assembler, and otherwise it stands between quotes, with every quote and backslash in
it escaped. A scanner reads the name back and stops behind its token, whatever follows that cannot
be part of a name. So the tokens of two class paths differ unless the paths are the same. -/
theorem names_written_unambiguously :
    (∀ name, (nameToken name = name ↔ isIdentifier name.toList = true ∧ name ∉ reserved) ∧
      (nameToken name ≠ name → ∃ inside, (nameToken name).toList = '\'' :: inside ++ ['\''] ∧
        nameQuoting.isEscaped false inside = true)) ∧
    (∀ name rest, (∀ c ∈ rest.head?, isNameChar c = false) →
      readName ((nameToken name).toList ++ rest) = some (name.toList, rest)) ∧
    ∀ path path', classToken path = classToken path' → path = path' := by
  refine ⟨fun name => ⟨nameToken_eq_self_iff name, fun hne => ?_⟩,
    fun name rest hr => readName_nameToken name hr, fun path path' h => classToken_injective h⟩
  exact ⟨_, toList_nameToken_of_quoted fun h => hne (if_pos h),
    nameQuoting_fits.isEscaped_text name.toList⟩

/-- A path of one class whose name holds the separator, a quote and a backslash, and one of two
classes that is written with the same letters. -/
theorem names_written_unambiguously_slashes :
    nameToken "add" = "'add'" ∧ nameToken "a'/\\" = "'a\\'/\\\\'" ∧
    readName ((nameToken "a'/\\").toList ++ "::f".toList) =
      some ("a'/\\".toList, "::f".toList) ∧
    classToken ["a'/\\"] ≠ classToken ["a'", "\\"] := by
  obtain ⟨-, hread, hinj⟩ := names_written_unambiguously
  have hstop : ∀ c ∈ "::f".toList.head?, isNameChar c = false := by
    intro c hc
    obtain rfl : c = ':' := Option.some.inj (hc.symm.trans (by decide))
    decide
  exact ⟨by decide, by decide, hread _ _ hstop, fun h => absurd (hinj _ _ h) (by decide)⟩

theorem AsmType.text_cls_ne {path : List String} {b : AsmType} (hb : ∀ q, b ≠ .cls q) :
    (AsmType.cls path).text ≠ b.text := by
  intro h
  have hhead := congrArg (fun s => s.toList.head?) h
  cases b with
  | cls q => exact hb q rfl
  | _ => simp [AsmType.text] at hhead

theorem AsmType.text_injective {a b : AsmType} (h : a.text = b.text) : a = b := by
  cases a with
  | cls p =>
    cases b with
    | cls q =>
      have hlist := congrArg String.toList h
      simp only [AsmType.text, String.toList_append, List.append_cancel_left_eq] at hlist
      rw [classToken_injective (String.toList_inj.mp hlist)]
    | _ => exact absurd h (text_cls_ne (by simp))
  | _ =>
    cases b with
    | cls q => exact absurd h.symm (text_cls_ne (by simp))
    | _ => first | rfl | exact absurd h (by decide)

end ClassLang.Assembly
