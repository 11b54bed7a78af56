import ByteLexer.Proofs.Regex.Trim
import ByteLexer.Proofs.SExpression.Lexemes
import ByteLexer.Proofs.Session.LongestMatch
import ByteLexer.SExpression.Tokens

/-! # The table of S-expressions

    The patterns of the table accept the lexemes of the language, and the first pattern that
    recognizes a lexeme gives it its kind.

    - **Languages.** What each expression of the table accepts.
    - **The table.** It is valid, its patterns are built without dead ends, and together they
      accept the lexemes.
    - **Kinds.** A reserved word is a name as well, but its own pattern comes first.
-/

namespace ByteLexer.SExpression

open Automaton Regex

variable {p : Pattern} {kind : String} {b c : UInt8} {u w : List UInt8} {i : Nat}

/-! ## Languages -/

theorem accepts_between_iff (h : b ≤ c) :
    (between b c).Accepts w ↔ ∃ d, (b ≤ d ∧ d ≤ c) ∧ w = [d] := by
  simp only [between, accepts_oneOf_iff, ByteRange.ofBounds, if_pos h, ByteRange.mem_bytes]

theorem accepts_digit_iff : digit.Accepts w ↔ ∃ c, IsDigit c ∧ w = [c] :=
  accepts_between_iff (by decide)

theorem accepts_letter_iff : letter.Accepts w ↔ ∃ c, IsLetter c ∧ w = [c] := by
  show (union (between 0x61 0x7a) (between 0x41 0x5a)).Accepts w ↔ _
  rw [accepts_union_iff, accepts_between_iff (by decide), accepts_between_iff (by decide),
    ← exists_or]
  simp only [IsLetter, or_and_right]

theorem accepts_letter_or_digit_iff :
    (letter ||| digit).Accepts w ↔ ∃ c, (IsLetter c ∨ IsDigit c) ∧ w = [c] := by
  show (union letter digit).Accepts w ↔ _
  rw [accepts_union_iff, accepts_letter_iff, accepts_digit_iff, ← exists_or]
  simp only [or_and_right]

theorem accepts_identifier_iff : identifier.Accepts w ↔ IsName w := by
  show (concat letter (star (letter ||| digit))).Accepts w ↔ _
  rw [accepts_concat_iff]
  constructor
  · intro hex
    obtain ⟨u, v, hu, hv, rfl⟩ := hex
    obtain ⟨c, hc, rfl⟩ := accepts_letter_iff.mp hu
    exact ⟨hc, (accepts_star_iff_forall fun _ => accepts_letter_or_digit_iff).mp hv⟩
  · intro hw
    rcases w with _ | ⟨c, more⟩
    · exact hw.elim
    · exact ⟨[c], more, accepts_letter_iff.mpr ⟨c, hw.1, rfl⟩,
        (accepts_star_iff_forall fun _ => accepts_letter_or_digit_iff).mpr hw.2, rfl⟩

theorem accepts_number_iff : number.Accepts w ↔ w ≠ [] ∧ ∀ c ∈ w, IsDigit c := by
  show (concat digit (star digit)).Accepts w ↔ _
  rw [accepts_concat_iff]
  constructor
  · intro hex
    obtain ⟨u, v, hu, hv, rfl⟩ := hex
    obtain ⟨c, hc, rfl⟩ := accepts_digit_iff.mp hu
    exact ⟨List.cons_ne_nil _ _, List.forall_mem_cons.mpr
      ⟨hc, (accepts_star_iff_forall fun _ => accepts_digit_iff).mp hv⟩⟩
  · intro hand
    obtain ⟨hne, hw⟩ := hand
    obtain ⟨c, more, rfl⟩ := List.exists_cons_of_ne_nil hne
    obtain ⟨hc, hmore⟩ := List.forall_mem_cons.mp hw
    exact ⟨[c], more, accepts_digit_iff.mpr ⟨c, hc, rfl⟩,
      (accepts_star_iff_forall fun _ => accepts_digit_iff).mpr hmore, rfl⟩

theorem accepts_symbolName_iff :
    symbolName.Accepts w ↔ ∃ name, IsName name ∧ w = 0x3a :: name := by
  show (concat (byte 0x3a) identifier).Accepts w ↔ _
  simp only [accepts_concat_iff, accepts_byte_iff, accepts_identifier_iff, exists_eq_left,
    exists_and_left, List.singleton_append]

theorem accepts_allBut_iff : (allBut c).Accepts w ↔ ∃ d, d ≠ c ∧ w = [d] := by
  simp only [allBut, accepts_oneOf_iff, List.mem_filter, mem_allBytes, bne_iff_ne, true_and]

/-- A byte, then others than a second byte, and then this one. -/
theorem accepts_enclosed_iff :
    (byte b + star (allBut c) + byte c).Accepts w ↔ Enclosed b c w := by
  show (concat (concat (byte b) (star (allBut c))) (byte c)).Accepts w ↔ _
  simp only [accepts_concat_iff, accepts_byte_iff,
    accepts_star_iff_forall fun _ => accepts_allBut_iff]
  constructor
  · intro hex
    obtain ⟨_, _, ⟨_, body, rfl, hbody, rfl⟩, rfl, rfl⟩ := hex
    exact ⟨body, fun hc => hbody c hc rfl, rfl⟩
  · intro hw
    obtain ⟨body, hbody, rfl⟩ := hw
    refine ⟨b :: body, [c], ⟨[b], body, rfl, fun d hd hdc => ?_, rfl⟩, rfl, rfl⟩
    rw [hdc] at hd
    exact hbody hd

theorem accepts_skipped_iff :
    skipped.Accepts w ↔ (∃ c ∈ blanks, w = [c]) ∨ Enclosed 0x23 0x0a w := by
  show (union (oneOf (ascii " \n\t")) comment).Accepts w ↔ _
  rw [accepts_union_iff, accepts_oneOf_iff, comment, accepts_enclosed_iff]
  rfl

/-! ## The table -/

theorem ascii_eq_bytesOf (text : String) : ascii text = bytesOf text := rfl

/-- The keywords with their upper-case forms are the reserved words with their kinds. -/
theorem map_keywords : keywords.map (fun k => (k.toUpper, k)) = reserved := by
  decide +kernel

theorem punctuation_eq_signs : punctuation = signs := rfl

/-- The pattern of a word. -/
def wordPattern (entry : String × String) : Pattern :=
  ⟨entry.1, word (bytesOf entry.2)⟩

/-- The table in terms of the words of the language. -/
theorem patterns_eq : patterns =
    [⟨"SKIP", skipped⟩, ⟨"STRING", string⟩, ⟨"SYM", symbolName⟩, ⟨"NUM", number⟩]
      ++ reserved.map wordPattern ++ [⟨"ID", identifier⟩] ++ signs.map wordPattern := by
  rw [← map_keywords, List.map_map, ← punctuation_eq_signs]
  rfl

theorem mem_patterns : p ∈ patterns ↔
    p = ⟨"SKIP", skipped⟩ ∨ p = ⟨"STRING", string⟩ ∨ p = ⟨"SYM", symbolName⟩ ∨
    p = ⟨"NUM", number⟩ ∨ (∃ entry ∈ reserved, p = wordPattern entry) ∨
    p = ⟨"ID", identifier⟩ ∨ ∃ entry ∈ signs, p = wordPattern entry := by
  simp only [patterns_eq, List.mem_append, List.mem_map, List.mem_cons, List.not_mem_nil, or_false,
    or_assoc, eq_comm]

theorem validTable_patterns : ValidTable patterns where
  nonempty := List.cons_ne_nil _ _
  valid := by
    have hall : ∀ kind ∈ patterns.map Pattern.kind, isValidKind kind = true := by decide +kernel
    exact fun p hp => hall p.kind (List.mem_map_of_mem hp)
  distinct := by decide +kernel

theorem trim_letter : letter.Trim :=
  trim_union (trim_between _ _) (trim_between _ _)

theorem trim_identifier : identifier.Trim :=
  trim_concat trim_letter (trim_star (trim_union trim_letter (trim_between _ _)))

theorem trim_byte (c : UInt8) : (byte c).Trim :=
  trim_oneOf (List.cons_ne_nil c [])

theorem trim_enclosed (b c : UInt8) : (byte b + star (allBut c) + byte c).Trim :=
  trim_concat (trim_concat (trim_byte b) (trim_star (trim_allBut c))) (trim_byte c)

theorem trim_of_mem_patterns (hp : p ∈ patterns) : p.automaton.Trim := by
  rcases mem_patterns.mp hp with rfl | rfl | rfl | rfl | ⟨_, _, rfl⟩ | rfl | ⟨_, _, rfl⟩
  · have hblanks : (oneOf (ascii " \n\t")).Trim := trim_oneOf (by decide)
    exact trim_union hblanks (trim_enclosed 0x23 0x0a)
  · exact trim_enclosed 0x22 0x22
  · exact trim_concat (trim_byte 0x3a) trim_identifier
  · exact trim_concat (trim_between _ _) (trim_star (trim_between _ _))
  · exact trim_word _
  · exact trim_identifier
  · exact trim_word _

/-- What a pattern accepts is a lexeme of its kind, unless it is a reserved word taken for an
    identifier. -/
theorem lexeme_of_accepts (hp : p ∈ patterns) (hw : p.automaton.Accepts w) :
    Lexeme p.kind w ∨ p.kind = "ID" ∧ w ∈ reservedWords := by
  rcases mem_patterns.mp hp with rfl | rfl | rfl | rfl | ⟨_, hk, rfl⟩ | rfl | ⟨_, ht, rfl⟩
  · rcases accepts_skipped_iff.mp hw with ⟨c, hc, rfl⟩ | hcomment
    · exact .inl (.blank hc)
    · exact .inl (.comment hcomment)
  · exact .inl (.string (accepts_enclosed_iff.mp hw))
  · obtain ⟨name, hname, rfl⟩ := accepts_symbolName_iff.mp hw
    exact .inl (.symbol hname)
  · obtain ⟨hne, hdigits⟩ := accepts_number_iff.mp hw
    exact .inl (.number hne hdigits)
  · obtain rfl := accepts_word_iff.mp hw
    exact .inl (.keyword hk)
  · by_cases hk : w ∈ reservedWords
    · exact .inr ⟨rfl, hk⟩
    · exact .inl (.identifier (accepts_identifier_iff.mp hw) hk)
  · obtain rfl := accepts_word_iff.mp hw
    exact .inl (.punctuation ht)

/-- A reserved word is a lexeme as well. -/
theorem exists_lexeme_of_accepts (hp : p ∈ patterns) (hw : p.automaton.Accepts w) :
    ∃ kind, Lexeme kind w := by
  rcases lexeme_of_accepts hp hw with hlexeme | ⟨_, hk⟩
  · exact ⟨p.kind, hlexeme⟩
  · obtain ⟨entry, hmem, rfl⟩ := List.mem_map.mp hk
    exact ⟨entry.1, .keyword hmem⟩

/-- Every lexeme is accepted by the pattern for its kind. -/
theorem exists_accepts_of_lexeme (h : Lexeme kind w) :
    ∃ p ∈ patterns, p.kind = kind ∧ p.automaton.Accepts w := by
  cases h with
  | blank hc =>
    exact ⟨⟨"SKIP", skipped⟩, mem_patterns.mpr (.inl rfl), rfl,
      accepts_skipped_iff.mpr (.inl ⟨_, hc, rfl⟩)⟩
  | comment hw =>
    exact ⟨⟨"SKIP", skipped⟩, mem_patterns.mpr (.inl rfl), rfl,
      accepts_skipped_iff.mpr (.inr hw)⟩
  | string hw =>
    exact ⟨⟨"STRING", string⟩, mem_patterns.mpr (.inr (.inl rfl)), rfl,
      accepts_enclosed_iff.mpr hw⟩
  | symbol hname =>
    exact ⟨⟨"SYM", symbolName⟩, mem_patterns.mpr (.inr (.inr (.inl rfl))), rfl,
      accepts_symbolName_iff.mpr ⟨_, hname, rfl⟩⟩
  | number hne hw =>
    exact ⟨⟨"NUM", number⟩, mem_patterns.mpr (.inr (.inr (.inr (.inl rfl)))), rfl,
      accepts_number_iff.mpr ⟨hne, hw⟩⟩
  | @keyword kind text hk =>
    exact ⟨wordPattern (kind, text),
      mem_patterns.mpr (.inr (.inr (.inr (.inr (.inl ⟨_, hk, rfl⟩))))), rfl,
      accepts_word_iff.mpr rfl⟩
  | identifier hname _ =>
    exact ⟨⟨"ID", identifier⟩, mem_patterns.mpr (.inr (.inr (.inr (.inr (.inr (.inl rfl)))))), rfl,
      accepts_identifier_iff.mpr hname⟩
  | @punctuation kind text ht =>
    exact ⟨wordPattern (kind, text),
      mem_patterns.mpr (.inr (.inr (.inr (.inr (.inr (.inr ⟨_, ht, rfl⟩)))))), rfl,
      accepts_word_iff.mpr rfl⟩

/-- A token is due exactly where there is a lexeme. -/
theorem tokenDue_patterns_iff : TokenDue patterns w ↔ ∃ kind, Lexeme kind w := by
  simp only [TokenDue, recognizes_iff_accepts]
  constructor
  · intro hand
    obtain ⟨_, p, hp, hw⟩ := hand
    exact exists_lexeme_of_accepts hp hw
  · intro hex
    obtain ⟨kind, hlexeme⟩ := hex
    obtain ⟨p, hp, _, hw⟩ := exists_accepts_of_lexeme hlexeme
    exact ⟨hlexeme.ne_nil, p, hp, hw⟩

/-- The patterns can follow what lexemes begin with. -/
theorem viable_patterns_iff :
    (∃ p ∈ patterns, p.automaton.Viable u) ↔ ∃ kind v, Lexeme kind (u ++ v) := by
  constructor
  · intro hex
    obtain ⟨p, hp, hu⟩ := hex
    obtain ⟨v, hv⟩ := (trim_of_mem_patterns hp).exists_accepts hu
    obtain ⟨kind, hlexeme⟩ := exists_lexeme_of_accepts hp hv
    exact ⟨kind, v, hlexeme⟩
  · intro hex
    obtain ⟨kind, v, hlexeme⟩ := hex
    obtain ⟨p, hp, _, hv⟩ := exists_accepts_of_lexeme hlexeme
    exact ⟨p, hp, hv.viable.of_append⟩

/-! ## Kinds -/

/-- The reserved words are declared before the identifiers. -/
theorem exists_patterns_eq_append : ∃ first rest, patterns = first ++ rest ∧
    (∀ entry ∈ reserved, wordPattern entry ∈ first) ∧ "ID" ∉ first.map Pattern.kind :=
  ⟨_, _, patterns_eq.trans (List.append_assoc _ _ _),
    fun _ hk => List.mem_append_right _ (List.mem_map_of_mem hk), by decide +kernel⟩

/-- The first pattern that recognizes a word is the one for its kind as a lexeme. -/
theorem lexeme_of_firstMatch (hi : FirstMatch patterns w i) (hp : patterns[i]? = some p) :
    Lexeme p.kind w := by
  obtain ⟨p', hp', hw⟩ := hi.1
  obtain rfl := Option.some.inj (hp'.symm.trans hp)
  rcases lexeme_of_accepts (List.mem_of_getElem? hp) (recognizes_iff_accepts.mp hw) with
    hlexeme | ⟨hkind, hk⟩
  · exact hlexeme
  · -- the pattern of the reserved word would have matched before
    obtain ⟨entry, hmem, rfl⟩ := List.mem_map.mp hk
    have hmatch : (wordPattern entry).automaton.recognizes (bytesOf entry.2) = true :=
      recognizes_iff_accepts.mpr (accepts_word_iff.mpr rfl)
    obtain ⟨first, rest, hsplit, hreserved, hno⟩ := exists_patterns_eq_append
    rw [hsplit] at hi hp
    have hfirst := hi.mem_left hp ⟨_, hreserved entry hmem, hmatch⟩
    rw [← hkind] at hno
    exact absurd (List.mem_map_of_mem hfirst) hno

end ByteLexer.SExpression
