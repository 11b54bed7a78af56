import Mathlib.Data.List.Basic
import Mathlib.Data.List.Infix

/-! # The lexemes of S-expressions

    What the tokens of the language are, said in terms of bytes and on its own: without any
    expression or automaton, and without the tables that the lexer is made from.

    - **Bytes and names.** Classes of ASCII bytes, and the words made of them.
    - **`Lexeme`.** The words of each kind, the reserved words and the signs among them. The word
      determines the kind.
    - **Growth.** Blanks, comments and strings are complete as soon as they are lexemes. All
      other lexemes grow byte by byte, and each of their beginnings is a lexeme too.
-/

namespace ByteLexer.SExpression

variable {kind kind' : String} {u v w name : List UInt8} {b c : UInt8}

/-! ## Bytes and names -/

def IsDigit (c : UInt8) : Prop :=
  0x30 ≤ c ∧ c ≤ 0x39

def IsLetter (c : UInt8) : Prop :=
  (0x61 ≤ c ∧ c ≤ 0x7a) ∨ (0x41 ≤ c ∧ c ≤ 0x5a)

/-- A letter and then letters and digits. -/
def IsName : List UInt8 → Prop
  | [] => False
  | c :: more => IsLetter c ∧ ∀ d ∈ more, IsLetter d ∨ IsDigit d

instance : DecidablePred IsDigit := fun c =>
  inferInstanceAs (Decidable (0x30 ≤ c ∧ c ≤ 0x39))

instance : DecidablePred IsLetter := fun c =>
  inferInstanceAs (Decidable ((0x61 ≤ c ∧ c ≤ 0x7a) ∨ (0x41 ≤ c ∧ c ≤ 0x5a)))

-- the bytes of the word are looked at, not all that there are
instance : DecidablePred IsName
  | [] => .isFalse id
  | _ :: more =>
    have := List.decidableBAll (fun d => IsLetter d ∨ IsDigit d) more
    instDecidableAnd

/-- A word that begins with a byte and ends with the first occurrence of another one after it. -/
def Enclosed (b c : UInt8) (w : List UInt8) : Prop :=
  ∃ body, c ∉ body ∧ w = b :: (body ++ [c])

/-- Every beginning of a name is a name. -/
theorem IsName.of_part (hw : IsName w) (hu : u <+: w) (hne : u ≠ []) : IsName u := by
  obtain ⟨c, more, rfl⟩ := List.exists_cons_of_ne_nil hne
  obtain ⟨rest, rfl⟩ := hu
  exact ⟨hw.1, fun d hd => hw.2 d (List.mem_append_left rest hd)⟩

theorem IsName.letter_or_digit (hw : IsName w) : ∀ c ∈ w, IsLetter c ∨ IsDigit c := by
  rcases w with _ | ⟨b, more⟩
  · exact hw.elim
  · intro c hc
    rcases List.mem_cons.mp hc with rfl | hc
    · exact .inl hw.1
    · exact hw.2 c hc

theorem not_isLetter_of_isDigit (h : IsDigit c) : ¬IsLetter c := by
  simp only [IsDigit, IsLetter, UInt8.le_iff_toNat_le, UInt8.reduceToNat] at h ⊢
  omega

/-- Of two enclosed words, the one cannot go on where the other one ends. -/
theorem Enclosed.eq_of_part (hv : Enclosed b c v) (hw : Enclosed b c w) (h : v <+: w) :
    v = w := by
  obtain ⟨x, _, rfl⟩ := hv
  obtain ⟨y, hy, rfl⟩ := hw
  obtain ⟨rest, h⟩ := h
  rw [List.cons_append, List.append_assoc, List.cons.injEq, List.singleton_append] at h
  -- what stands in front of the first occurrence is the same
  obtain ⟨rfl, _, _⟩ := (List.append_cons_inj_of_notMem hy List.not_mem_nil).mp h.2.symm
  rfl

/-! ## Lexemes -/

/-- Space, end of line and tab. -/
def blanks : List UInt8 :=
  [0x20, 0x0a, 0x09]

/-- The bytes that begin and end comments and strings. -/
def delimiters : List (UInt8 × UInt8) :=
  [(0x23, 0x0a), (0x22, 0x22)]

/-- The bytes of an ASCII text. -/
def bytesOf (text : String) : List UInt8 :=
  text.toList.map Char.toUInt8

/-- The words that are no identifiers, and their kinds. -/
def reserved : List (String × String) :=
  [("IF", "if"), ("WHILE", "while"), ("UNTIL", "until"), ("LOOP", "loop"), ("WHEN", "when"),
    ("DO", "do"), ("VAL", "val"), ("LET", "let"), ("TEMPLATE", "template"), ("TYPE", "type"),
    ("TRUE", "true"), ("FALSE", "false")]

/-- The signs and their kinds. -/
def signs : List (String × String) :=
  [("OPAREN", "("), ("CPAREN", ")"), ("OBRACK", "["), ("CBRACK", "]"), ("OBRACE", "\x7b"),
    ("CBRACE", "\x7d"), ("ASSIGN", "="), ("EQUALS", "=="), ("PLUS", "+"), ("MINUS", "-"),
    ("STAR", "*"), ("FSLASH", "/"), ("BSLASH", "\\"), ("SEMI", ";"), ("COLONS", "::"),
    ("COLON", ":"), ("DOT", "."), ("COMMA", ","), ("AT", "@"), ("ARROW", "->")]

/-- The bytes of the reserved words. -/
def reservedWords : List (List UInt8) :=
  reserved.map fun p => bytesOf p.2

/-- The words of each kind. -/
inductive Lexeme : String → List UInt8 → Prop
  | blank {c : UInt8} : c ∈ blanks → Lexeme "SKIP" [c]
  /-- From `#` to the end of the line. -/
  | comment {w : List UInt8} : Enclosed 0x23 0x0a w → Lexeme "SKIP" w
  /-- From a double quote to the next one. -/
  | string {w : List UInt8} : Enclosed 0x22 0x22 w → Lexeme "STRING" w
  /-- A colon and a name. -/
  | symbol {name : List UInt8} : IsName name → Lexeme "SYM" (0x3a :: name)
  | number {w : List UInt8} : w ≠ [] → (∀ c ∈ w, IsDigit c) → Lexeme "NUM" w
  | keyword {kind word : String} : (kind, word) ∈ reserved → Lexeme kind (bytesOf word)
  /-- A name that is not reserved. -/
  | identifier {name : List UInt8} : IsName name → name ∉ reservedWords → Lexeme "ID" name
  | punctuation {kind text : String} : (kind, text) ∈ signs → Lexeme kind (bytesOf text)

theorem isName_of_mem_reserved : ∀ p ∈ reserved, IsName (bytesOf p.2) := by
  decide

/-- Every name is a lexeme, of one kind or another. -/
theorem IsName.exists_lexeme (hw : IsName w) : ∃ kind, Lexeme kind w := by
  by_cases hk : w ∈ reservedWords
  · obtain ⟨p, hmem, rfl⟩ := List.mem_map.mp hk
    exact ⟨p.1, .keyword hmem⟩
  · exact ⟨_, .identifier hw hk⟩

/-! ## The kind of a word -/

/-- The kind that a word has in a list of kinds and words. -/
def kindIn (entries : List (String × String)) (w : List UInt8) : Option String :=
  (entries.find? fun p => bytesOf p.2 = w).map Prod.fst

/-- The kind that a word has if it is a lexeme. -/
def kindFor : List UInt8 → String
  | [] => ""
  | c :: more =>
    if IsLetter c then (kindIn reserved (c :: more)).getD "ID"
    else if IsDigit c then "NUM"
    else if c = 0x22 then "STRING"
    else if c = 0x23 then "SKIP"
    else if c ∈ blanks then "SKIP"
    else if IsName more then "SYM"
    else (kindIn signs (c :: more)).getD ""

theorem kindFor_keyword : ∀ p ∈ reserved, kindFor (bytesOf p.2) = p.1 := by
  decide +kernel

theorem kindFor_punctuation : ∀ p ∈ signs, kindFor (bytesOf p.2) = p.1 := by
  decide +kernel

/-- A lexeme has the kind that its first byte and its text tell. -/
theorem Lexeme.kind_eq (h : Lexeme kind w) : kind = kindFor w := by
  cases h with
  | @blank c hc =>
    obtain rfl | rfl | rfl : c = 0x20 ∨ c = 0x0a ∨ c = 0x09 := by simpa [blanks] using hc
    · rfl
    · rfl
    · rfl
  | comment hw =>
    obtain ⟨body, _, rfl⟩ := hw
    rfl
  | string hw =>
    obtain ⟨body, _, rfl⟩ := hw
    rfl
  | @symbol name hname =>
    show "SYM" = if IsName name then "SYM" else _
    rw [if_pos hname]
  | number hne hw =>
    obtain ⟨c, more, rfl⟩ := List.exists_cons_of_ne_nil hne
    have hc := hw c List.mem_cons_self
    rw [kindFor, if_neg (not_isLetter_of_isDigit hc), if_pos hc]
  | keyword hk => exact (kindFor_keyword _ hk).symm
  | identifier hname hk =>
    obtain _ | ⟨c, more⟩ := w
    · exact hname.elim
    · have hnone : kindIn reserved (c :: more) = none := by
        simpa [kindIn, reservedWords] using hk
      rw [kindFor, if_pos hname.1, hnone]
      rfl
  | punctuation hp => exact (kindFor_punctuation _ hp).symm

/-! ## Growth -/

/-- The bytes that begin blanks, comments and strings. -/
def opening : List UInt8 :=
  blanks ++ delimiters.map Prod.fst

/-- A lexeme that has grown byte by byte: each beginning of it is a lexeme too, and none of its
    bytes begins a blank, a comment or a string. -/
structure Gradual (w : List UInt8) : Prop where
  nonempty : w ≠ []
  parts : ∀ u, u <+: w → u ≠ [] → ∃ kind, Lexeme kind u
  plain : ∀ c ∈ w, c ∉ opening

theorem not_mem_opening (h : IsLetter c ∨ IsDigit c) : c ∉ opening := by
  intro hc
  obtain rfl | rfl | rfl | rfl | rfl : c = 0x20 ∨ c = 0x0a ∨ c = 0x09 ∨ c = 0x23 ∨ c = 0x22 := by
    simpa [opening, blanks, delimiters] using hc
  all_goals revert h; decide

theorem IsName.gradual (hw : IsName w) : Gradual w where
  nonempty hnil := by
    rw [hnil] at hw
    exact hw.elim
  parts u hu hne := (hw.of_part hu hne).exists_lexeme
  plain c hc := not_mem_opening (hw.letter_or_digit c hc)

theorem gradual_number (hne : w ≠ []) (hw : ∀ c ∈ w, IsDigit c) : Gradual w where
  nonempty := hne
  parts _ hu hne := ⟨_, .number hne fun c hc => hw c (hu.subset hc)⟩
  plain c hc := not_mem_opening (.inr (hw c hc))

/-- A colon alone is a lexeme. -/
theorem gradual_symbol (hname : IsName name) : Gradual (0x3a :: name) where
  nonempty := List.cons_ne_nil _ _
  parts u hu hne := by
    obtain ⟨c, more, rfl⟩ := List.exists_cons_of_ne_nil hne
    obtain ⟨rfl, hmore⟩ := List.cons_prefix_cons.mp hu
    by_cases hnil : more = []
    · have hcolon : ("COLON", ":") ∈ signs := by decide
      rw [hnil]
      exact ⟨_, .punctuation hcolon⟩
    · exact ⟨_, .symbol (hname.of_part hmore hnil)⟩
  plain c hc := by
    rcases List.mem_cons.mp hc with rfl | hc
    · decide
    · exact not_mem_opening (hname.letter_or_digit c hc)

/-- What a longer sign begins with is another one. -/
theorem gradual_punctuation {text : String} (h : (kind, text) ∈ signs) :
    Gradual (bytesOf text) := by
  have hparts : ∀ p ∈ signs, ∀ n < (bytesOf p.2).length,
      ∃ p' ∈ signs, bytesOf p'.2 = (bytesOf p.2).take (n + 1) := by decide
  have hplain : ∀ p ∈ signs, bytesOf p.2 ≠ [] ∧
      (bytesOf p.2).all (fun c => c ∉ opening) = true := by decide
  refine ⟨(hplain _ h).1, fun u hu hne => ?_,
    fun c hc => of_decide_eq_true (List.all_eq_true.mp (hplain _ h).2 c hc)⟩
  have hlength : u.length ≤ (bytesOf text).length := hu.length_le
  have hpos := List.length_pos_iff.mpr hne
  obtain ⟨p, hp, htake⟩ := hparts (kind, text) h (u.length - 1)
    (show u.length - 1 < (bytesOf text).length by omega)
  rw [Nat.sub_add_cancel hpos, ← List.prefix_iff_eq_take.mp hu] at htake
  exact ⟨p.1, htake ▸ .punctuation hp⟩

/-- A lexeme is a blank, a comment or a string, or it has grown byte by byte. -/
theorem Lexeme.shape (h : Lexeme kind w) :
    (∃ c ∈ blanks, w = [c]) ∨ (∃ d ∈ delimiters, Enclosed d.1 d.2 w) ∨ Gradual w := by
  cases h with
  | blank hc => exact .inl ⟨_, hc, rfl⟩
  | comment hw => exact .inr (.inl ⟨(0x23, 0x0a), by decide, hw⟩)
  | string hw => exact .inr (.inl ⟨(0x22, 0x22), by decide, hw⟩)
  | symbol hname => exact .inr (.inr (gradual_symbol hname))
  | number hne hw => exact .inr (.inr (gradual_number hne hw))
  | keyword hk => exact .inr (.inr (isName_of_mem_reserved _ hk).gradual)
  | identifier hname _ => exact .inr (.inr hname.gradual)
  | punctuation hp => exact .inr (.inr (gradual_punctuation hp))

/-- Of the lexemes that are not skipped, only strings may hold blanks. -/
theorem Lexeme.eq_string_of_blank (h : Lexeme kind w) (hkind : kind ≠ "SKIP") (hc : c ∈ blanks)
    (hmem : c ∈ w) : kind = "STRING" := by
  have hplain : ¬Gradual w := fun hw => hw.plain c hmem (List.mem_append_left _ hc)
  cases h with
  | blank _ => exact absurd rfl hkind
  | comment _ => exact absurd rfl hkind
  | string _ => rfl
  | symbol hname => exact absurd (gradual_symbol hname) hplain
  | number hne hw => exact absurd (gradual_number hne hw) hplain
  | keyword hk => exact absurd (isName_of_mem_reserved _ hk).gradual hplain
  | identifier hname _ => exact absurd hname.gradual hplain
  | punctuation hp => exact absurd (gradual_punctuation hp) hplain

theorem Lexeme.ne_nil (h : Lexeme kind w) : w ≠ [] := by
  rcases h.shape with ⟨c, _, rfl⟩ | ⟨d, _, body, _, rfl⟩ | hw
  · exact List.cons_ne_nil _ _
  · exact List.cons_ne_nil _ _
  · exact hw.nonempty

/-- What begins like a comment or a string ends like one. -/
theorem Lexeme.enclosed {d : UInt8 × UInt8} (hd : d ∈ delimiters) (h : Lexeme kind (d.1 :: w)) :
    Enclosed d.1 d.2 (d.1 :: w) := by
  rcases h.shape with ⟨c, hc, heq⟩ | ⟨d', hd', hw⟩ | hw
  · have hno : ∀ d ∈ delimiters, d.1 ∉ blanks := by simp [delimiters, blanks]
    rw [← (List.cons.inj heq).1] at hc
    exact absurd hc (hno d hd)
  · have hsame : ∀ d ∈ delimiters, ∀ d' ∈ delimiters, d.1 = d'.1 → d = d' := by
      simp [delimiters]
    obtain ⟨_, _, heq⟩ := id hw
    obtain rfl := hsame d hd d' hd' (List.cons.inj heq).1
    exact hw
  · exact absurd (List.mem_append_right _ (List.mem_map_of_mem hd))
      (hw.plain d.1 List.mem_cons_self)

/-- What begins like a comment or a string, and never ends like one, does not begin with a
    lexeme. -/
theorem not_lexeme_of_unclosed {d : UInt8 × UInt8} {body : List UInt8} (hd : d ∈ delimiters)
    (hbody : d.2 ∉ body) (hu : u <+: d.1 :: body) : ¬Lexeme kind u := by
  intro h
  obtain ⟨b, more, rfl⟩ := List.exists_cons_of_ne_nil h.ne_nil
  obtain ⟨rfl, hmore⟩ := List.cons_prefix_cons.mp hu
  obtain ⟨inner, _, heq⟩ := h.enclosed hd
  rw [(List.cons.inj heq).2] at hmore
  exact hbody (hmore.subset (List.mem_append_right inner List.mem_cons_self))

/-- Where a lexeme begins with another one, it has grown byte by byte. -/
theorem Lexeme.eq_or_gradual (hv : Lexeme kind v) (hw : Lexeme kind' w) (h : v <+: w) :
    v = w ∨ Gradual w := by
  obtain ⟨b, more, rfl⟩ := List.exists_cons_of_ne_nil hv.ne_nil
  rcases hw.shape with ⟨c, _, rfl⟩ | ⟨d, hd, hw⟩ | hw
  · exact .inl (h.eq_of_length_le (Nat.le_add_left 1 _))
  · obtain ⟨body, _, heq⟩ := id hw
    rw [heq] at h
    obtain ⟨rfl, _⟩ := List.cons_prefix_cons.mp h
    rw [← heq] at h
    exact .inl ((hv.enclosed hd).eq_of_part hw h)
  · exact .inr hw

/-- What lies between a lexeme and a longer one is a lexeme. -/
theorem Lexeme.between (hv : Lexeme kind v) (hvu : v <+: u) (huw : u <+: w)
    (hw : Lexeme kind' w) : ∃ kind, Lexeme kind u := by
  rcases hv.eq_or_gradual hw (hvu.trans huw) with rfl | hw
  · obtain rfl : v = u := hvu.eq_of_length_le huw.length_le
    exact ⟨kind, hv⟩
  · exact hw.parts u huw fun hnil => hv.ne_nil (List.prefix_nil.mp (hnil ▸ hvu))

/-- A lexeme that begins with a shorter one holds no blank. -/
theorem Lexeme.not_mem_of_blank (hv : Lexeme kind v) (hw : Lexeme kind' w) (h : v <+: w)
    (hne : v ≠ w) (hc : c ∈ blanks) : c ∉ w := by
  rcases hv.eq_or_gradual hw h with heq | hw
  · exact absurd heq hne
  · exact fun hmem => hw.plain c hmem (List.mem_append_left _ hc)

end ByteLexer.SExpression
