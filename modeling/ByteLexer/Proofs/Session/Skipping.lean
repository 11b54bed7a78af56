import ByteLexer.Proofs.Regex.Trim
import ByteLexer.Proofs.Session.Lookahead
import ByteLexer.Proofs.Session.Tiling

/-! # What is skipped before the next token

    A call of `next` reads one lexeme after the other, for as long as they are tokens to skip. What
    it answers is what it has read last, so all that it does is known from the sessions in which it
    reads.

    - **`Skips`** leads from a session to each of those in which a call of `next` reads.
    - **Skipping** moves a session over the tokens that are skipped, and does nothing else.
    - **The next token** is what is read where skipping ends.
    - **A blank and another byte**, where the table knows only the blank: skipping ends at a failure.
-/

namespace ByteLexer.Session

variable {l : Lexer} {m : Metrics} {s e : Session} {t : Token} {tokens : List Token} {f : Failure}

/-! ## Skipping -/

/-- To read some tokens, all of which are to be skipped, leads from one session to another. -/
inductive Skips : Session → List Token → Session → Prop
  | nil (s : Session) : Skips s [] s
  | cons {s mid e : Session} {t : Token} {tokens : List Token} : s.read = (.ok (some t), mid) →
      s.lexer.isSkip t.index = true → Skips mid tokens e → Skips s (t :: tokens) e

namespace Skips

theorem covers (h : Skips s tokens e) : Covers s tokens e := by
  induction h with
  | nil s => exact covers_nil rfl rfl
  | cons hread _ _ ih => exact ih.of_read hread

/-- No token that is skipped is recorded as the last one. -/
theorem current_eq (h : Skips s tokens e) : e.current = s.current := by
  induction h with
  | nil s => rfl
  | cons hread _ _ ih =>
    obtain ⟨_, _, _, _, _, rfl⟩ := token_of_read hread
    exact ih

theorem input_eq (h : Skips s tokens e) : e.input = s.input := by
  induction h with
  | nil s => rfl
  | @cons s mid e t tokens hread _ _ ih =>
    have hinput := s.input_read
    rw [hread] at hinput
    exact ih.trans hinput

theorem isSkip (h : Skips s tokens e) : ∀ t ∈ tokens, s.lexer.isSkip t.index = true := by
  induction h with
  | nil s =>
    intro t ht
    cases ht
  | cons hread hskip _ ih =>
    intro u hu
    rcases List.mem_cons.mp hu with rfl | hu
    · exact hskip
    · obtain ⟨_, _, _, _, _, rfl⟩ := token_of_read hread
      exact ih u hu

theorem consistent (h : Skips s tokens e) (hs : Consistent l m s) : Consistent l m e := by
  induction h with
  | nil s => exact hs
  | cons hread _ _ ih =>
    have hmid := hs.read
    rw [hread] at hmid
    exact ih hmid

theorem atRest (h : Skips s tokens e) (hs : AtRest s) : AtRest e := by
  induction h with
  | nil s => exact hs
  | cons hread _ _ ih =>
    have hmid := hs.of_kept hs.kept_read
    rw [hread] at hmid
    exact ih hmid

/-- Where skipping ends at a failure to read, this is what `next` answers. -/
theorem next_of_read_error (h : Skips s tokens e) (hread : e.read.1 = .error f) :
    s.next = ⟨.error f, tokens, e.read.2⟩ := by
  induction h with
  | nil s => exact Session.next_of_read_error (Prod.ext hread rfl)
  | cons hfirst hskip _ ih =>
    rw [next_of_read_skipped hfirst hskip, ih hread]

end Skips

/-! ## The next token -/

/-- A call of `next` skips some tokens and answers what it reads after them: a token that is not to
    be skipped, the end of the input, or a failure. By induction on the tokens that are skipped. -/
theorem next_cases (s : Session) : ∃ tokens e, Skips s tokens e ∧
    ((∃ t, e.read.1 = .ok (some t) ∧ e.lexer.isSkip t.index = false ∧
        s.next = ⟨.ok (some t), tokens ++ [t], { e.read.2 with current := some t }⟩) ∨
      (e.rest = [] ∧ s.next = ⟨.ok none, tokens, e⟩) ∨
      ∃ f, e.read.1 = .error f ∧ s.next = ⟨.error f, tokens, e.read.2⟩) := by
  fun_induction next s with
  | case1 s t mid hread hskip hlt r ih =>
    obtain ⟨tokens, e, hskips, hcases⟩ := ih
    refine ⟨t :: tokens, e, .cons hread hskip hskips, ?_⟩
    rcases hcases with ⟨u, hu, hkeep, hnext⟩ | ⟨hnil, hnext⟩ | ⟨f, hf, hnext⟩
    · exact .inl ⟨u, hu, hkeep, by rw [show r = _ from hnext]; rfl⟩
    · exact .inr (.inl ⟨hnil, by rw [show r = _ from hnext]⟩)
    · exact .inr (.inr ⟨f, hf, by rw [show r = _ from hnext]⟩)
  | case2 s t mid hread hskip =>
    exact ⟨[], s, .nil s, .inl ⟨t, by rw [hread], Bool.eq_false_iff.mpr hskip, by rw [hread]; rfl⟩⟩
  | case3 s answer mid hne hread =>
    rcases answer with f | _ | t
    · exact ⟨[], s, .nil s, .inr (.inr ⟨f, by rw [hread], by rw [hread]⟩)⟩
    · obtain ⟨hnil, rfl⟩ := rest_eq_nil_of_read hread
      exact ⟨[], mid, .nil mid, .inr (.inl ⟨hnil, rfl⟩)⟩
    · exact absurd rfl (hne t)

/-- So a failure of `next` arises where skipping ends, and where the call leaves the session. -/
theorem exists_skips_of_next_error (hf : s.next.answer = .error f) :
    ∃ tokens e, Skips s tokens e ∧ e.offset = s.next.session.offset ∧ e.read.1 = .error f := by
  obtain ⟨tokens, e, hskips, hcases⟩ := s.next_cases
  refine ⟨tokens, e, hskips, ?_⟩
  rcases hcases with ⟨_, _, _, hnext⟩ | ⟨_, hnext⟩ | ⟨g, hread, hnext⟩
  · rw [hnext] at hf
    cases hf
  · rw [hnext] at hf
    cases hf
  · obtain ⟨_, _, hsame⟩ := readFails_of_read (Prod.ext hread rfl)
    rw [hnext] at hf ⊢
    rw [Except.error.inj hf] at hread
    exact ⟨(congrArg Session.offset hsame).symm, hread⟩

/-- And a token that `next` answers is read there. -/
theorem exists_skips_of_next_token (ht : s.next.answer = .ok (some t)) :
    ∃ tokens e, Skips s tokens e ∧ e.read.1 = .ok (some t) := by
  obtain ⟨tokens, e, hskips, hcases⟩ := s.next_cases
  refine ⟨tokens, e, hskips, ?_⟩
  rcases hcases with ⟨u, hread, _, hnext⟩ | ⟨_, hnext⟩ | ⟨_, _, hnext⟩
  · rw [hnext] at ht
    rw [hread, Except.ok.inj ht]
  · rw [hnext] at ht
    cases ht
  · rw [hnext] at ht
    cases ht

/-! ## A blank and another byte -/

/-- A table with one pattern: a blank, which is to be skipped. -/
def blankOnly : List Pattern :=
  [⟨skipKind, Regex.oneOf [32]⟩]

theorem validTable_blankOnly : ValidTable blankOnly :=
  ⟨List.cons_ne_nil _ _, by decide, by decide⟩

theorem viable_blankOnly_iff {w : List UInt8} :
    (∃ p ∈ blankOnly, p.automaton.Viable w) ↔ w = [] ∨ w = [32] := by
  simp [blankOnly, Regex.viable_oneOf_iff]

theorem tokenDue_blankOnly_iff {w : List UInt8} : TokenDue blankOnly w ↔ w = [32] := by
  simp only [TokenDue, blankOnly, List.mem_singleton, exists_eq_left,
    Automaton.recognizes_iff_accepts, Regex.accepts_oneOf_iff, and_iff_right_iff_imp]
  intro hw hnil
  rw [hw] at hnil
  cases hnil

/-- With this table, a blank that comes first is skipped. -/
theorem exists_skips_blank {w : List UInt8} (hs : Consistent (Lexer.ofPatterns blankOnly) {} s)
    (hrest : s.rest = 32 :: w) :
    ∃ t mid, Skips s [t] mid ∧ mid.rest = w ∧ mid.offset = s.offset + 1 := by
  have htable := validTable_blankOnly
  have hu : LongestViable blankOnly s.rest [32] := by
    rw [hrest]
    refine .of_stuck ⟨w, rfl⟩ (viable_blankOnly_iff.mpr (.inr rfl)) fun b _ hviable => ?_
    simp [viable_blankOnly_iff] at hviable
  obtain ⟨i, hfirst, hread⟩ := hs.read_of_tokenDue htable hu (tokenDue_blankOnly_iff.mpr rfl)
  obtain ⟨span, hspan⟩ := hs.measure?_eq_some_of_tabStop (by decide) [32]
  rw [hspan] at hread
  have hkind : (s.token i [32] span).kind = skipKind := by
    obtain ⟨p, hp, _⟩ := hfirst.1
    show (s.lexer.kind? i).getD "" = skipKind
    rw [hs.lexer, Lexer.kind?_of_getElem? hp, List.mem_singleton.mp (List.mem_of_getElem? hp)]
    rfl
  have hskip := (isSkip_of_read htable hs hread).mpr hkind
  refine ⟨_, _, .cons hread hskip (.nil _), ?_, rfl⟩
  show s.rest.drop 1 = w
  rw [hrest]
  rfl

/-- Any other byte cannot be read. -/
theorem read_error_of_ne_blank {c : UInt8} {w : List UInt8}
    (hs : Consistent (Lexer.ofPatterns blankOnly) {} s) (hrest : s.rest = c :: w) (hc : c ≠ 32) :
    ∃ span, s.read.1 = .error (.located ⟨.lexical [] (some c), span⟩) := by
  have hu : LongestViable blankOnly s.rest [] := by
    rw [hrest]
    refine .of_stuck List.nil_prefix (viable_blankOnly_iff.mpr (.inl rfl)) fun b hb hviable => ?_
    -- no word of the table begins with the byte
    obtain rfl : b = c := by simpa using hb
    simp [viable_blankOnly_iff, hc] at hviable
  have hne : s.rest ≠ [] := by
    rw [hrest]
    exact List.cons_ne_nil c w
  have hno : ¬TokenDue blankOnly [] := fun hdue => hdue.1 rfl
  have hread := hs.read_of_not_tokenDue validTable_blankOnly hu hne hno
  have hbyte : s.byteAfter [] = some c := by
    unfold byteAfter
    rw [hrest]
    rfl
  obtain ⟨span, hspan⟩ := hs.measure?_eq_some_of_tabStop (by decide) [c]
  refine ⟨span, ?_⟩
  rw [hread, hbyte]
  show Except.error (s.failure (.lexical [] (some c)) [c]) = _
  unfold failure
  rw [hspan]

/-- So iteration skips a blank and fails at any other byte after it. -/
theorem iterate_blankOnly {c : UInt8} (hc : c ≠ 32) :
    let s := ofInput (Lexer.ofPatterns blankOnly) {} [32, c]
    ∃ span, s.iterate.answer = some (.error (.located ⟨.lexical [] (some c), span⟩)) ∧
      s.iterate.session.offset = 1 := by
  intro s
  have hs : Consistent (Lexer.ofPatterns blankOnly) {} s := consistent_ofInput _ _ _
  obtain ⟨t, mid, hskips, hrest, hoffset⟩ := exists_skips_blank hs rfl
  obtain ⟨span, hread⟩ := read_error_of_ne_blank (hskips.consistent hs) hrest hc
  obtain ⟨_, _, hsame⟩ := readFails_of_read (Prod.ext hread rfl)
  have hnext := hskips.next_of_read_error hread
  have hiterate := iterate_of_error rfl (congrArg Reply.answer hnext)
  refine ⟨span, congrArg Reply.answer hiterate, ?_⟩
  -- a failure to read leaves the session behind the blank
  rw [hiterate, hnext]
  exact (congrArg Session.offset hsame).trans hoffset

end ByteLexer.Session
