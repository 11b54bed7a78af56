import ByteLexer.Proofs.Session.Reading

/-! # Offsets and positions

    A session counts twice: its offset counts bytes, and its position lines and columns,
    in which tabs, ends of lines and bytes without width do not count alike. The two go
    together, whatever has been called before.

    - **Places in an input.** Where a token is, and where a lexical error is.
    - **`Placed`** sessions have the position to which the input leads up to the offset.
    - **Calls.** Every call keeps a session placed, and what it answers is in its place.
-/

namespace ByteLexer

variable {l : Lexer} {m : Metrics} {input : List UInt8}

/-! ## Places in an input -/

/-- A token is in its place if its lexeme is what the input holds at its offset, and its span is
    that of the lexeme, from the end of the input before it on. -/
structure Token.LiesIn (t : Token) (m : Metrics) (input : List UInt8) : Prop where
  within : t.offset + t.lexeme.length ≤ input.length
  lexeme_eq : t.lexeme = (input.drop t.offset).take t.lexeme.length
  span_eq : t.span = Span.ofText m (m.spanOf (input.take t.offset)).stop (latin1 t.lexeme)

/-- A lexical error is in its place if its lexeme is what the input holds at an offset, with the
    byte that was found after it, and its span is that of the lexeme and of this byte. -/
structure LexicalAt (m : Metrics) (input : List UInt8) (offset : Nat) (lexeme : List UInt8)
    (found : Option UInt8) (span : Span) : Prop where
  within : offset + lexeme.length ≤ input.length
  lexeme_eq : lexeme = (input.drop offset).take lexeme.length
  found_eq : found = input[offset + lexeme.length]?
  span_eq : span = Span.ofText m (m.spanOf (input.take offset)).stop
    (latin1 (lexeme ++ found.toList))

/-- A failure is in its place at an offset if a lexical error is, and if there is a reason where
    the place cannot be told. -/
structure Failure.LiesAt (f : Failure) (m : Metrics) (input : List UInt8) (offset : Nat) :
    Prop where
  lexical : ∀ lexeme found span, f = .located ⟨.lexical lexeme found, span⟩ →
    LexicalAt m input offset lexeme found span
  unmeasurable : f = .unmeasurable → m.tabStop = 0

/-- An unexpected token is neither a lexical error nor without a place. -/
theorem Failure.liesAt_unexpected (expected : String) (found : Option (String × List UInt8))
    (span : Span) (offset : Nat) :
    (Failure.located ⟨.unexpected expected found, span⟩).LiesAt m input offset := by
  refine ⟨fun lexeme found' span' heq => ?_, fun heq => ?_⟩
  · cases heq
  · cases heq

namespace Session

variable {s s' : Session} {t : Token} {f : Failure} {u v : List UInt8}

/-- What the rest of a session begins with is a part of its input. -/
theorem Consistent.part (h : Consistent l m s) (hrest : u ++ v = s.rest) :
    s.offset + u.length ≤ s.input.length ∧ u = (s.input.drop s.offset).take u.length ∧
      v.head? = s.input[s.offset + u.length]? := by
  rw [h.rest] at hrest
  refine ⟨?_, ?_, ?_⟩
  · have hlength := congrArg List.length hrest
    have hle := h.offset_le
    rw [List.length_append, List.length_drop] at hlength
    omega
  · rw [← hrest, List.take_left]
  · have hdrop : s.input.drop (s.offset + u.length) = v := by
      rw [← List.drop_drop, ← hrest, List.drop_left]
    rw [← hdrop, List.head?_drop]

/-! ## Placed sessions -/

/-- A session is placed if it is consistent, its position is the end of what has been read, and
    the token that was returned last is in its place. -/
structure Placed (l : Lexer) (m : Metrics) (s : Session) : Prop extends Consistent l m s where
  position : s.position = (m.spanOf (s.input.take s.offset)).stop
  current : ∀ t, s.current = some t → t.LiesIn m s.input

theorem placed_ofInput (l : Lexer) (m : Metrics) (input : List UInt8) :
    Placed l m (ofInput l m input) where
  toConsistent := consistent_ofInput l m input
  position := rfl
  current t ht := by cases ht

namespace Placed

theorem restarted (h : Placed l m s) : Placed l m s.restarted :=
  ⟨h.toConsistent.restarted, h.position, h.current⟩

/-- A placed session may have returned any token that is in its place. -/
theorem setCurrent (h : Placed l m s) (ht : t.LiesIn m s.input) :
    Placed l m { s with current := some t } where
  toConsistent := h.toConsistent.setCurrent _
  position := h.position
  current u hu := by
    obtain rfl := Option.some.inj hu
    exact ht

/-- A token that has been read is in its place, and so is the session after it. -/
theorem read_token (h : Placed l m s) (hread : s.read = (.ok (some t), s')) :
    Placed l m s' ∧ t.LiesIn m s.input := by
  obtain ⟨ht, _, hspan, v, hrest, rfl⟩ := token_of_read hread
  have hoffset : t.offset = s.offset := by
    rw [ht]
    rfl
  obtain ⟨hwithin, hlexeme, _⟩ := h.part hrest
  have hofText := eq_ofText_of_measure? hspan
  rw [h.metrics, h.position] at hofText
  refine ⟨⟨h.toConsistent.restarted.pass hrest, ?_, h.current⟩, ⟨?_, ?_, ?_⟩⟩
  · -- the input up to the end of the token is what has been read and the lexeme
    show t.span.stop = (m.spanOf (s.input.take (s.offset + t.lexeme.length))).stop
    rw [List.take_add, ← hlexeme, Metrics.stop_spanOf_append, ← hofText]
  · rw [hoffset]
    exact hwithin
  · rw [hoffset]
    exact hlexeme
  · rw [hoffset]
    exact hofText

/-- A failure to read a token is in its place, and so is the session after it. -/
theorem read_error (h : Placed l m s) (hread : s.read = (.error f, s')) :
    Placed l m s' ∧ s'.offset = s.offset ∧ f.LiesAt m s.input s.offset := by
  obtain ⟨_, hfails, rfl⟩ := readFails_of_read hread
  refine ⟨h.restarted, rfl, fun lexeme found span heq => ?_, fun heq => ?_⟩
  · rw [heq] at hfails
    cases hfails with
    | lexical hrest hspan =>
      obtain ⟨hwithin, hlexeme, hfound⟩ := h.part hrest
      have hofText := eq_ofText_of_measure? hspan
      rw [h.metrics, h.position] at hofText
      exact ⟨hwithin, hlexeme, hfound, hofText⟩
  · rw [heq] at hread
    rw [← h.metrics]
    exact tabStop_eq_zero_of_read hread

end Placed

/-! ## Answers -/

/-- The token or the failure that an outcome holds. -/
def Outcome.result : Outcome → Option (Except Failure Token)
  | .ok (some t) => some (.ok t)
  | .ok none => none
  | .error f => some (.error f)

theorem Outcome.eq_error_of_result {x : Outcome} (hx : x.result = some (.error f)) :
    x = .error f := by
  rcases x with g | _ | t
  · rw [Except.error.inj (Option.some.inj hx)]
  · cases hx
  · cases hx

theorem Outcome.eq_ok_of_result {x : Outcome} (hx : x.result = some (.ok t)) :
    x = .ok (some t) := by
  rcases x with f | _ | u
  · cases hx
  · cases hx
  · rw [Except.ok.inj (Option.some.inj hx)]

/-- The token or the failure that is answered, if there is one. -/
def Answer.result : Answer → Option (Except Failure Token)
  | .outcome x => x.result
  | .token x => some x
  | .item x => x
  | .done => none

/-- A call is in its place if it leaves a placed session on the same input, and if the token or the
    failure that it answers is in its place. -/
structure InPlace (l : Lexer) (m : Metrics) (input : List UInt8)
    (x : Option (Except Failure Token)) (s : Session) : Prop where
  session : Placed l m s
  input_eq : s.input = input
  token : ∀ t, x = some (.ok t) → t.LiesIn m input
  failure : ∀ f, x = some (.error f) → f.LiesAt m input s.offset

/-- Instead of an answer in its place, an unexpected token may be answered. -/
theorem InPlace.unexpected {x : Option (Except Failure Token)} (h : InPlace l m input x s)
    (expected : String) (found : Option (String × List UInt8)) (span : Span) :
    InPlace l m input (some (.error (.located ⟨.unexpected expected found, span⟩))) s where
  session := h.session
  input_eq := h.input_eq
  token t ht := by cases ht
  failure f hf := by
    obtain rfl := Except.error.inj (Option.some.inj hf)
    exact Failure.liesAt_unexpected expected found span s.offset

namespace Placed

theorem inPlace_none (h : Placed l m s) : InPlace l m s.input none s where
  session := h
  input_eq := rfl
  token t ht := by cases ht
  failure f hf := by cases hf

/-- A token in its place may be answered, and recorded as the last one. -/
theorem inPlace_token (h : Placed l m s) (ht : t.LiesIn m s.input) :
    InPlace l m s.input (some (.ok t)) { s with current := some t } where
  session := h.setCurrent ht
  input_eq := rfl
  token u hu := by
    obtain rfl := Except.ok.inj (Option.some.inj hu)
    exact ht
  failure f hf := by cases hf

theorem inPlace_failure (h : Placed l m s) (hf : f.LiesAt m s.input s.offset) :
    InPlace l m s.input (some (.error f)) s where
  session := h
  input_eq := rfl
  token t ht := by cases ht
  failure g hg := by
    obtain rfl := Except.error.inj (Option.some.inj hg)
    exact hf

theorem nextRaw (h : Placed l m s) :
    InPlace l m s.input s.nextRaw.answer.result s.nextRaw.session := by
  have hinput := s.input_read
  rcases hread : s.read with ⟨f | _ | t, s'⟩
  · rw [hread] at hinput
    obtain ⟨hs, hoffset, hf⟩ := h.read_error hread
    rw [nextRaw_of_read_error hread, ← hinput]
    apply hs.inPlace_failure
    rw [hinput, hoffset]
    exact hf
  · obtain ⟨hnil, _⟩ := rest_eq_nil_of_read hread
    rw [nextRaw_of_rest_eq_nil hnil]
    exact h.inPlace_none
  · rw [hread] at hinput
    obtain ⟨hs, ht⟩ := h.read_token hread
    rw [nextRaw_of_read_token hread, ← hinput]
    apply hs.inPlace_token
    rw [hinput]
    exact ht

/-- The induction is on the tokens that are skipped. -/
theorem next (h : Placed l m s) :
    InPlace l m s.input s.next.answer.result s.next.session := by
  fun_induction Session.next s with
  | case1 s t mid hread hskip hlt r ih =>
    have hinput := s.input_read
    rw [hread] at hinput
    obtain ⟨hmid, _⟩ := h.read_token hread
    rw [← hinput]
    exact ih hmid
  | case2 s t mid hread hskip =>
    have hraw := h.nextRaw
    rw [nextRaw_of_read_token hread] at hraw
    exact hraw
  | case3 s answer mid hne hread =>
    have hraw := h.nextRaw
    rcases answer with f | _ | t
    · rw [nextRaw_of_read_error hread] at hraw
      exact hraw
    · obtain ⟨hnil, rfl⟩ := rest_eq_nil_of_read hread
      rw [nextRaw_of_rest_eq_nil hnil] at hraw
      exact hraw
    · exact absurd rfl (hne t)

/-- After `peek` the place is the old one, with the token that was returned last. -/
theorem peek (h : Placed l m s) : Placed l m s.peek.session := by
  have hinput := s.input_next
  refine ⟨h.toConsistent.peek, ?_, ?_⟩
  · show s.position = (m.spanOf (s.next.session.input.take s.offset)).stop
    rw [hinput]
    exact h.position
  · show ∀ t, s.current = some t → t.LiesIn m s.next.session.input
    rw [hinput]
    exact h.current

theorem consume (h : Placed l m s) (kind : String) :
    InPlace l m s.input (some (s.consume kind).answer) (s.consume kind).session := by
  have hnext := h.next
  unfold Session.consume
  dsimp only
  rcases hanswer : s.next.answer with f | _ | t
  · rw [hanswer] at hnext
    exact hnext
  · exact hnext.unexpected _ _ _
  · rw [hanswer] at hnext
    by_cases hkind : t.kind = kind
    · simp only [if_pos hkind]
      exact hnext
    · simp only [if_neg hkind]
      exact hnext.unexpected _ _ _

theorem iterate (h : Placed l m s) :
    InPlace l m s.input s.iterate.answer s.iterate.session := by
  have hnext := h.next
  unfold Session.iterate
  by_cases hfailed : s.failed = true
  · rw [if_pos hfailed]
    exact h.inPlace_none
  · rw [if_neg hfailed]
    dsimp only
    rcases hanswer : s.next.answer with f | _ | t
    · rw [hanswer] at hnext
      -- that iteration has failed does not belong to the place
      exact ⟨⟨⟨hnext.session.lexer, hnext.session.metrics, hnext.session.automaton,
        hnext.session.offset_le, hnext.session.rest⟩, hnext.session.position,
        hnext.session.current⟩, hnext.input_eq, hnext.token, hnext.failure⟩
    · rw [hanswer] at hnext
      exact hnext
    · rw [hanswer] at hnext
      exact hnext

theorem rebind (h : Placed l m s) (input : List UInt8) : Placed l m (s.rebind input) where
  toConsistent := h.toConsistent.rebind input
  position := rfl
  current t ht := by cases ht

/-- Every call keeps a session placed. -/
theorem call (h : Placed l m s) (c : Call) : Placed l m (s.call c).session := by
  cases c with
  | next => exact h.next.session
  | nextRaw => exact h.nextRaw.session
  | peek => exact h.peek
  | consume kind => exact (h.consume kind).session
  | iterate => exact h.iterate.session
  | rebind input => exact h.rebind input

/-- So does every history of calls. -/
theorem after (h : Placed l m s) (history : List Call) : Placed l m (s.after history) :=
  after_of_call (fun c _ hs => hs.call c) h history

end Placed

/-! ## Offsets and positions -/

/-- The offset at which a call stops to read: where it leaves the session, unless it is `peek`,
    which goes back from there. -/
def stopOffset (s : Session) : Call → Nat
  | .peek => s.next.session.offset
  | c => (s.call c).session.offset

/-- What a call answers in a placed session is in its place. -/
theorem Placed.answer_call (h : Placed l m s) (c : Call) :
    (∀ t, (s.call c).answer.result = some (.ok t) → t.LiesIn m s.input) ∧
    ∀ f, (s.call c).answer.result = some (.error f) → f.LiesAt m s.input (s.stopOffset c) := by
  unfold stopOffset
  cases c with
  | next => exact ⟨h.next.token, h.next.failure⟩
  | nextRaw => exact ⟨h.nextRaw.token, h.nextRaw.failure⟩
  | peek => exact ⟨h.next.token, h.next.failure⟩
  | consume kind => exact ⟨(h.consume kind).token, (h.consume kind).failure⟩
  | iterate => exact ⟨h.iterate.token, h.iterate.failure⟩
  | rebind input =>
    -- nothing is answered
    refine ⟨fun t ht => ?_, fun f hf => ?_⟩
    · cases ht
    · cases hf

/-- In any session that a history of calls leads to, the offset is within the input, and the
    position is the end of the span of the input before it. A token that a call answers or has
    recorded is what the input holds at its offset, with the span of its bytes from the end of the
    input before it on. A lexical error that a call answers begins where the call stops to read,
    and its span is that of its lexeme and of the byte that was found. Only with a tab stop of
    zero a place cannot be told. -/
theorem call_in_place (l : Lexer) (m : Metrics) (input : List UInt8) (history : List Call)
    (c : Call) :
    let s := (ofInput l m input).after history
    let answer := (s.call c).answer.result
    s.offset ≤ s.input.length ∧
    s.position = (m.spanOf (s.input.take s.offset)).stop ∧
    (∀ t, s.current = some t → t.LiesIn m s.input) ∧
    (∀ t, answer = some (.ok t) → t.LiesIn m s.input) ∧
    ∀ f, answer = some (.error f) → f.LiesAt m s.input (s.stopOffset c) := by
  intro s answer
  have hs : Placed l m s := (placed_ofInput l m input).after history
  exact ⟨hs.offset_le, hs.position, hs.current, hs.answer_call c⟩

end Session

end ByteLexer
