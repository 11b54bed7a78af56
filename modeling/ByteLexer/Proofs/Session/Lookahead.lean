import ByteLexer.Proofs.Session.Place

/-! # Looking ahead

    To look ahead is to read the next token and to go back. Going back restores the place and
    the token that was returned last, so nothing else may change while a token is read. The run
    of the automaton does change, but no call leaves it in the middle of a word.

    - **`Kept`** says what no reading of tokens changes.
    - **`AtRest`** sessions have their run in the initial state. Every call leaves a session at
      rest.
    - **Calls.** What `peek` and `consume` reply, in terms of what `next` replies.
-/

namespace ByteLexer.Session

variable {l : Lexer} {m : Metrics} {s s' u : Session} {t : Token} {f : Failure} {kind : String}

/-! ## What reading keeps -/

/-- Two sessions differ at most in their places and in the tokens that they returned last. -/
structure Kept (s s' : Session) : Prop where
  lexer : s'.lexer = s.lexer
  metrics : s'.metrics = s.metrics
  input : s'.input = s.input
  failed : s'.failed = s.failed
  run : s'.run = s.run

namespace Kept

theorem refl (s : Session) : Kept s s :=
  ⟨rfl, rfl, rfl, rfl, rfl⟩

theorem trans (h : Kept s s') (h' : Kept s' u) : Kept s u where
  lexer := h'.lexer.trans h.lexer
  metrics := h'.metrics.trans h.metrics
  input := h'.input.trans h.input
  failed := h'.failed.trans h.failed
  run := h'.run.trans h.run

theorem setCurrent (h : Kept s s') (current : Option Token) : Kept s { s' with current } :=
  ⟨h.lexer, h.metrics, h.input, h.failed, h.run⟩

/-- Whoever puts the place and the last token back is where they were before. -/
theorem restore (h : Kept s s') : { s' with
    rest := s.rest, offset := s.offset, position := s.position, current := s.current } = s := by
  obtain ⟨hlexer, hmetrics, hinput, hfailed, hrun⟩ := h
  cases s
  cases s'
  simp only at hlexer hmetrics hinput hfailed hrun
  simp only [hlexer, hmetrics, hinput, hfailed, hrun]

end Kept

/-! ## Sessions at rest -/

/-- The run of a session is in the initial state, and has read nothing. -/
def AtRest (s : Session) : Prop :=
  s.run.restart = s.run

theorem atRest_ofInput (l : Lexer) (m : Metrics) (input : List UInt8) :
    AtRest (ofInput l m input) :=
  rfl

namespace AtRest

theorem of_kept (h : AtRest s) (hkept : Kept s s') : AtRest s' := by
  unfold AtRest
  rw [hkept.run]
  exact h

/-- To begin the run again changes nothing. -/
theorem restarted (h : AtRest s) : s.restarted = s := by
  unfold Session.restarted
  rw [h]

/-- What was read is forgotten by the run, whether it is a token or not. -/
theorem kept_read (h : AtRest s) : Kept s s.read.2 := by
  rcases s.read_cases with ⟨_, hread⟩ | ⟨i, u, v, span, _, _, _, hread⟩ | ⟨f, _, _, hread⟩
  · rw [hread]
    exact .refl s
  · rw [hread, h.restarted]
    exact ⟨rfl, rfl, rfl, rfl, rfl⟩
  · rw [hread, h.restarted]
    exact .refl s

theorem kept_nextRaw (h : AtRest s) : Kept s s.nextRaw.session := by
  obtain ⟨current, hsession⟩ := s.exists_session_nextRaw
  rw [hsession]
  exact h.kept_read.setCurrent current

/-- The induction is on the tokens that are skipped: each of them leaves the session at rest. -/
theorem kept_next (h : AtRest s) : Kept s s.next.session := by
  fun_induction next s with
  | case1 s t mid hread hskip hlt r ih =>
    have hmid := h.kept_read
    rw [hread] at hmid
    exact hmid.trans (ih (h.of_kept hmid))
  | case2 s t mid hread hskip =>
    have hmid := h.kept_read
    rw [hread] at hmid
    exact hmid.setCurrent _
  | case3 s answer mid hne hread =>
    have hmid := h.kept_read
    rw [hread] at hmid
    exact hmid

/-- To look ahead is to know what `next` would reply, and not to move. -/
theorem peek_eq (h : AtRest s) : s.peek = { s.next with session := s } := by
  unfold peek
  dsimp only
  rw [h.kept_next.restore]

theorem iterate (h : AtRest s) : AtRest s.iterate.session := by
  have hnext := h.of_kept h.kept_next
  unfold Session.iterate
  by_cases hfailed : s.failed = true
  · rw [if_pos hfailed]
    exact h
  · rw [if_neg hfailed]
    dsimp only
    split
    · exact hnext
    · exact hnext
    · exact hnext

/-- Every call leaves a session at rest. -/
theorem call (h : AtRest s) (c : Call) : AtRest (s.call c).session := by
  cases c with
  | next => exact h.of_kept h.kept_next
  | nextRaw => exact h.of_kept h.kept_nextRaw
  | peek =>
    show AtRest s.peek.session
    rw [h.peek_eq]
    exact h
  | consume kind => exact h.of_kept h.kept_next
  | iterate => exact h.iterate
  | rebind input => rfl

end AtRest

/-- So does every history of calls. -/
theorem atRest_after (l : Lexer) (m : Metrics) (input : List UInt8) (history : List Call) :
    AtRest ((ofInput l m input).after history) :=
  after_of_call (fun c _ hs => hs.call c) (atRest_ofInput l m input) history

/-! ## The end of the input -/

/-- Where there is no next token, nothing is left. -/
theorem rest_eq_nil_of_next (h : s.next.answer = .ok none) : s.next.session.rest = [] := by
  fun_induction next s with
  | case1 s t mid hread hskip hlt r ih => exact ih h
  | case2 s t mid hread hskip => cases h
  | case3 s answer mid hne hread =>
    obtain rfl : answer = .ok none := h
    obtain ⟨hnil, rfl⟩ := rest_eq_nil_of_read hread
    exact hnil

/-- Where nothing is left, the position is the end of the whole input. -/
theorem Placed.position_of_rest_eq_nil (h : Placed l m s) (hnil : s.rest = []) :
    s.position = (m.spanOf s.input).stop := by
  have hle : s.input.length ≤ s.offset := by
    rw [← List.drop_eq_nil_iff, ← h.rest]
    exact hnil
  rw [h.position, List.take_of_length_le hle]

/-! ## Asking for a kind -/

/-- A failure is answered as it is. -/
theorem consume_of_error (h : s.next.answer = .error f) : (s.consume kind).answer = .error f := by
  simp only [consume, h]

/-- A token of the kind is answered. -/
theorem consume_of_kind (h : s.next.answer = .ok (some t)) (hkind : t.kind = kind) :
    (s.consume kind).answer = .ok t := by
  simp only [consume, h, if_pos hkind]

/-- A token of another kind is an error at the token. -/
theorem consume_of_kind_ne (h : s.next.answer = .ok (some t)) (hkind : t.kind ≠ kind) :
    (s.consume kind).answer =
      .error (.located ⟨.unexpected kind (some (t.kind, t.lexeme)), t.span⟩) := by
  simp only [consume, h, if_neg hkind]

/-- The end of the input is an error at the end. -/
theorem consume_of_none (h : s.next.answer = .ok none) : (s.consume kind).answer =
    .error (.located ⟨.unexpected kind none, Span.emptyAt s.next.session.position⟩) := by
  simp only [consume, h]

/-- So a token is answered exactly if it is the next one and of the kind. -/
theorem consume_eq_ok_iff :
    (s.consume kind).answer = .ok t ↔ s.next.answer = .ok (some t) ∧ t.kind = kind := by
  refine ⟨fun hconsume => ?_, fun hand => consume_of_kind hand.1 hand.2⟩
  rcases hnext : s.next.answer with f | _ | u
  · rw [consume_of_error hnext] at hconsume
    cases hconsume
  · rw [consume_of_none hnext] at hconsume
    cases hconsume
  · by_cases hkind : u.kind = kind
    · rw [consume_of_kind hnext hkind] at hconsume
      obtain rfl := Except.ok.inj hconsume
      exact ⟨rfl, hkind⟩
    · rw [consume_of_kind_ne hnext hkind] at hconsume
      cases hconsume

/-- A failure that is not about the kind is one of the next token. -/
theorem next_of_consume_error
    (hkind : ∀ expected found span, f ≠ .located ⟨.unexpected expected found, span⟩)
    (hf : (s.consume kind).answer = .error f) : s.next.answer = .error f := by
  rcases hnext : s.next.answer with g | _ | t
  · rw [consume_of_error hnext] at hf
    rw [Except.error.inj hf]
  · rw [consume_of_none hnext] at hf
    exact absurd (Except.error.inj hf).symm (hkind _ _ _)
  · by_cases ht : t.kind = kind
    · rw [consume_of_kind hnext ht] at hf
      cases hf
    · rw [consume_of_kind_ne hnext ht] at hf
      exact absurd (Except.error.inj hf).symm (hkind _ _ _)

/-! ## Iteration -/

/-- After a failure, iteration answers nothing any more. -/
theorem iterate_of_failed (hfailed : s.failed = true) : s.iterate = ⟨none, [], s⟩ :=
  if_pos hfailed

theorem iterate_of_token (hfailed : s.failed = false) (h : s.next.answer = .ok (some t)) :
    s.iterate = ⟨some (.ok t), s.next.reported, s.next.session⟩ := by
  unfold iterate
  rw [if_neg (Bool.eq_false_iff.mp hfailed)]
  simp only [h]

theorem iterate_of_none (hfailed : s.failed = false) (h : s.next.answer = .ok none) :
    s.iterate = ⟨none, s.next.reported, s.next.session⟩ := by
  unfold iterate
  rw [if_neg (Bool.eq_false_iff.mp hfailed)]
  simp only [h]

/-- A failure is answered, and remembered. -/
theorem iterate_of_error (hfailed : s.failed = false) (h : s.next.answer = .error f) :
    s.iterate =
      ⟨some (.error f), s.next.reported, { s.next.session with failed := true }⟩ := by
  unfold iterate
  rw [if_neg (Bool.eq_false_iff.mp hfailed)]
  simp only [h]

/-- So what iteration answers is the next token or its failure, and it is the first failure. -/
theorem result_next_of_iterate {x : Except Failure Token} (hx : s.iterate.answer = some x) :
    s.failed = false ∧ s.next.answer.result = some x := by
  rcases hfailed : s.failed with _ | _
  · refine ⟨rfl, ?_⟩
    rcases hnext : s.next.answer with f | _ | t
    · rw [iterate_of_error hfailed hnext] at hx
      exact hx
    · rw [iterate_of_none hfailed hnext] at hx
      cases hx
    · rw [iterate_of_token hfailed hnext] at hx
      exact hx
  · rw [iterate_of_failed hfailed] at hx
    cases hx

/-! ## Foretelling -/

/-- In any session that a history of calls leads to, `peek` replies what `next` would reply, but
    leaves the session as it is. To ask for a kind, by either name, leaves the session as `next`
    does. It answers the next token exactly if that is of the kind; a failure of `next` is answered
    as it is. A token of another kind is an error at the span of the token, and the end of the input
    one at its position, which is then the end of the span of the whole input. -/
theorem peek_foretells_next (l : Lexer) (m : Metrics) (input : List UInt8)
    (history : List Call) :
    let s := (ofInput l m input).after history
    s.peek = { s.next with session := s } ∧
    ∀ kind, let r := s.consume kind
      s.expect kind = r ∧
      r.session = s.next.session ∧ r.reported = s.next.reported ∧
      (∀ t, r.answer = .ok t ↔ s.next.answer = .ok (some t) ∧ t.kind = kind) ∧
      (∀ f, s.next.answer = .error f → r.answer = .error f) ∧
      (∀ t, s.next.answer = .ok (some t) → t.kind ≠ kind →
        r.answer = .error (.located ⟨.unexpected kind (some (t.kind, t.lexeme)), t.span⟩)) ∧
      (s.next.answer = .ok none → r.session.position = (m.spanOf s.input).stop ∧
        r.answer = .error (.located ⟨.unexpected kind none, Span.emptyAt r.session.position⟩)) := by
  intro s
  have hrest : AtRest s := atRest_after l m input history
  have hplaced : Placed l m s := (placed_ofInput l m input).after history
  refine ⟨hrest.peek_eq, fun kind => ⟨rfl, rfl, rfl, fun t => consume_eq_ok_iff,
    fun f => consume_of_error, fun t => consume_of_kind_ne, fun hnone => ⟨?_, ?_⟩⟩⟩
  · -- the call has read whatever was to be skipped before the end
    have hend := hplaced.next.session.position_of_rest_eq_nil (rest_eq_nil_of_next hnone)
    rw [input_next] at hend
    exact hend
  · exact consume_of_none hnone

end ByteLexer.Session
