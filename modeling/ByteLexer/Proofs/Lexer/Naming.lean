import Std.Data.String.ToNat
import ByteLexer.Proofs.Automaton.Arrows
import ByteLexer.Proofs.Lexer.Numbering
import ByteLexer.Proofs.Lexer.Validation
import ByteLexer.Proofs.Text.Separators

/-! # The names of the states

    A state is named by its kind and its number, or by `q` and its number. A kind may hold any
    character but a dot, so it can look like a name, and it can hold what a drawing uses to quote
    names. No two states of a lexer share a name nevertheless, and a drawing of them can be read.

    - **Numbers** are written in digits, and can be read off behind the last bracket.
    - **Names** of the states that a lexer knows.
    - **Drawings.** All this for every table that compiles, and for the names as they are drawn.
-/

namespace ByteLexer

open Automaton

/-! ## Numbers -/

theorem isDigit_of_mem_repr {n : Nat} {c : Char} (h : c ∈ n.repr.toList) : c.isDigit = true := by
  rw [Nat.toList_repr] at h
  exact Nat.isDigit_of_mem_toDigits (by decide) (by decide) h

/-- Numbers are written without brackets. -/
theorem bracket_not_mem_repr (n : Nat) : '(' ∉ n.repr.toList ∧ ')' ∉ n.repr.toList :=
  ⟨fun h => absurd (isDigit_of_mem_repr h) (by decide),
    fun h => absurd (isDigit_of_mem_repr h) (by decide)⟩

/-! ## Names -/

namespace Lexer

variable {l : Lexer} {kind kind' : String} {i m n : Nat} {q r : LexerState}

theorem stateName_intermediate (l : Lexer) (n : Nat) :
    l.stateName (.intermediate n) = "q" ++ n.repr := rfl

theorem stateName_final (l : Lexer) (i n : Nat) : l.stateName (.final i n) =
    (l.kind? i).getD ("#" ++ i.repr) ++ ("(" ++ n.repr ++ ")") := rfl

theorem stateName_of_kind? (h : l.kind? i = some kind) (n : Nat) :
    l.stateName (.final i n) = kind ++ "(" ++ n.repr ++ ")" := by
  rw [stateName_final, h, Option.getD_some, String.append_assoc, String.append_assoc,
    String.append_assoc]

/-- The kind and the number can be read off the name, whatever the kind looks like. -/
theorem eq_of_numbered_eq (h : kind ++ "(" ++ m.repr ++ ")" = kind' ++ "(" ++ n.repr ++ ")") :
    kind = kind' ∧ m = n := by
  rw [String.append_left_inj, String.append_assoc, String.append_assoc, ← String.toList_inj,
    String.toList_append, String.toList_append, String.toList_append, String.toList_append] at h
  -- the kinds may hold brackets, the numbers do not: the last opening bracket decides
  obtain ⟨hkind, hnumber⟩ :=
    eq_of_append_cons_eq_last (bracket_not_mem_repr m).1 (bracket_not_mem_repr n).1 h
  exact ⟨String.toList_inj.mp hkind, Nat.repr_inj.mp (String.toList_inj.mp hnumber)⟩

/-- No name of a state in which no token ends has a bracket in it. -/
theorem numbered_ne (kind : String) (m n : Nat) : kind ++ "(" ++ m.repr ++ ")" ≠ "q" ++ n.repr := by
  intro h
  have hmem : ')' ∈ ("q" ++ n.repr).toList := by
    rw [← h, String.toList_append]
    exact List.mem_append_right _ (by decide)
  rw [String.toList_append, List.mem_append] at hmem
  exact hmem.elim (by decide) (bracket_not_mem_repr n).2

/-- There is no state without a name, whether it is known or not. -/
theorem stateName_ne_empty (l : Lexer) (q : LexerState) : l.stateName q ≠ "" := by
  intro h
  cases q with
  | intermediate n =>
    rw [stateName_intermediate, String.append_eq_empty_iff] at h
    exact absurd h.1 (by decide)
  | final i n =>
    rw [stateName_final, String.append_eq_empty_iff, String.append_eq_empty_iff] at h
    exact absurd h.2.2 (by decide)

/-- The kind of a known state stands in the table. -/
theorem exists_kind?_of_mem {patterns : List Pattern} (h : ValidTable patterns)
    (hq : LexerState.final i n ∈ (ofPatterns patterns).automaton) :
    ∃ kind, (ofPatterns patterns).kind? i = some kind := by
  obtain ⟨w, hfirst⟩ := exists_firstMatch_of_mem h hq rfl
  obtain ⟨p, hp, _⟩ := hfirst.1
  exact ⟨p.kind, kind?_of_getElem? hp⟩

/-- Two known states with the same name are the same. -/
theorem eq_of_stateName_eq {patterns : List Pattern} (h : ValidTable patterns)
    (hq : q ∈ (ofPatterns patterns).automaton) (hr : r ∈ (ofPatterns patterns).automaton)
    (hname : (ofPatterns patterns).stateName q = (ofPatterns patterns).stateName r) : q = r := by
  cases q with
  | intermediate m =>
    rw [stateName_intermediate] at hname
    cases r with
    | intermediate n =>
      rw [stateName_intermediate, String.append_right_inj, Nat.repr_inj] at hname
      rw [hname]
    | final j n =>
      obtain ⟨kind, hkind⟩ := exists_kind?_of_mem h hr
      rw [stateName_of_kind? hkind] at hname
      exact absurd hname.symm (numbered_ne kind n m)
  | final i m =>
    obtain ⟨kind, hkind⟩ := exists_kind?_of_mem h hq
    rw [stateName_of_kind? hkind] at hname
    cases r with
    | intermediate n =>
      rw [stateName_intermediate] at hname
      exact absurd hname (numbered_ne kind m n)
    | final j n =>
      obtain ⟨kind', hkind'⟩ := exists_kind?_of_mem h hr
      rw [stateName_of_kind? hkind'] at hname
      obtain ⟨rfl, rfl⟩ := eq_of_numbered_eq hname
      -- a kind has one index only
      rw [← h.kindIndex?_eq_some_iff] at hkind hkind'
      rw [hkind, Option.some.injEq] at hkind'
      rw [hkind']

/-! ## Drawings -/

open Text.Quoted

/-- The names of the states of a lexer keep them apart, as they are and as they are drawn.

    - `injective`, `nonempty`: different states have different names, and none is empty.
    - `ids`, `entry`: the quoted names of different states are different, and none is that of the
      anonymous node that points at the initial state.
    - `known`, `drawing`: the drawing is about known states, and reading it from left to right gives
      their names and the labels of the arrows, one after the other.
    - `size`, `recognizes`: the automaton whose states are the names has as many states and
      recognizes the same words. -/
structure NamesApart (l : Lexer) : Prop where
  injective : ∀ q ∈ l.automaton, ∀ r ∈ l.automaton, l.stateName q = l.stateName r → q = r
  nonempty : ∀ q, l.stateName q ≠ ""
  ids : ∀ q ∈ l.automaton, ∀ r ∈ l.automaton,
    quote (l.stateName q) = quote (l.stateName r) → q = r
  entry : ∀ q, quote (l.stateName q) ≠ "\x22\x22"
  known : ∀ line ∈ l.automaton.drawingLines, ∀ q ∈ line.names, q ∈ l.automaton
  drawing : quotations l.drawing =
    some (l.automaton.drawingLines.flatMap (DrawingLine.quoted l.stateName))
  size : (l.automaton.image l.stateName).size = l.automaton.size
  recognizes : ∀ w, (l.automaton.image l.stateName).recognizes w = l.automaton.recognizes w

/-- The states of every lexer have names that keep them apart, whatever the kinds look like. The
    quoted form of a text is the text between double quotes, with a backslash before each backslash
    and then one before each double quote. Any text is read back from it by removing the quotes at
    its ends and the backslashes from left to right, and wherever the quoted form stands, it is read
    as a whole. -/
theorem names_apart :
    (∀ patterns l, compile patterns = .ok l → NamesApart l) ∧
    (∀ s, quote s = quoteByReplacing s) ∧
    (∀ s, unquote (quote s) = some s) ∧
    ∀ s t, quotations (quote s ++ t) = (s :: ·) <$> quotations t := by
  refine ⟨fun patterns l hl => ?_, quote_eq_replacing, unquote_quote, quotations_quote_append⟩
  obtain ⟨htable, rfl⟩ := compile_eq_ok_iff.mp hl
  have hwell : (ofPatterns patterns).automaton.WellFormed := by
    rw [automaton_ofPatterns]
    exact wellFormed_ofParts _ _ _ _
  have hinjective : ∀ q ∈ (ofPatterns patterns).automaton,
      ∀ r ∈ (ofPatterns patterns).automaton,
      (ofPatterns patterns).stateName q = (ofPatterns patterns).stateName r → q = r :=
    fun q hq r hr => eq_of_stateName_eq htable hq hr
  obtain ⟨hrecognizes, hsize⟩ := hwell.image_injective hinjective
  constructor
  case injective => exact hinjective
  case nonempty => exact stateName_ne_empty _
  case ids => exact fun q hq r hr hids => hinjective q hq r hr (quote_injective hids)
  case entry =>
    -- the entry node is named by the empty text
    intro q hentry
    have hempty : "\x22\x22" = quote "" := by decide
    rw [hempty] at hentry
    exact stateName_ne_empty _ q (quote_injective hentry)
  case known => exact fun line => hwell.mem_of_mem_names
  case drawing => exact quotations_drawing _ _
  case size => exact hsize
  case recognizes => exact hrecognizes

/-- Kinds that look like names of states, and one made of what is used to quote names. -/
theorem names_apart_lookalikes :
    let patterns : List Pattern :=
      ["q0", "A", "A(0)", "#1", "\x22\\"].zipIdx.map fun (kind, i) =>
        ⟨kind, Regex.byte (UInt8.ofNat (97 + i))⟩
    ∃ l, compile patterns = .ok l ∧ l.stateName (.final 1 0) = "A(0)" ∧
      l.stateName (.final 2 0) = "A(0)(0)" ∧
      (l.automaton.image l.stateName).size = l.automaton.size := by
  intro patterns
  have htable : ValidTable patterns := ⟨by decide, by decide, by decide⟩
  have hcompile : compile patterns = .ok (ofPatterns patterns) :=
    compile_eq_ok_iff.mpr ⟨htable, rfl⟩
  exact ⟨_, hcompile, by decide, by decide, (names_apart.1 patterns _ hcompile).size⟩

end Lexer

end ByteLexer
