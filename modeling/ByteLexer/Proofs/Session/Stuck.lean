import ByteLexer.Proofs.Session.Skipping

/-! # Failures that stay

    A session does not move when it fails to read. So whoever asks it again gets the same failure,
    by whatever call, until it is given another input. With another input it starts as if it had
    never been used.

    - **`Stuck`** sessions answer a failure to read and stay as they are.
    - **Calls.** What each call answers in a stuck session, and that it leaves it stuck.
    - **Getting stuck.** A call that fails to read leaves the session stuck behind what it skipped.
    - **Another input.** To be given one is to be opened on it.
-/

namespace ByteLexer.Session

variable {l : Lexer} {m : Metrics} {s : Session} {f : Failure}

/-! ## Stuck sessions -/

/-- A session is stuck with a failure if reading answers this failure and changes nothing. -/
def Stuck (s : Session) (f : Failure) : Prop :=
  s.read = (.error f, s)

/-- At rest, a failure to read changes nothing. -/
theorem AtRest.stuck (h : AtRest s) (hread : s.read.1 = .error f) : Stuck s f := by
  have hpair : s.read = (.error f, s.read.2) := Prod.ext hread rfl
  obtain ⟨_, _, hsame⟩ := readFails_of_read hpair
  rw [hsame, h.restarted] at hpair
  exact hpair

namespace Stuck

/-- A failure to read begins the run again, so a stuck session is at rest. -/
theorem atRest (h : Stuck s f) : AtRest s := by
  obtain ⟨_, _, hsame⟩ := readFails_of_read h
  exact (congrArg Session.run hsame).symm

/-- Whether iteration has met a failure does not matter to reading. -/
theorem setFailed (h : Stuck s f) (failed : Bool) : Stuck { s with failed } f := by
  have hrest : AtRest { s with failed } := h.atRest
  have hsame : SamePlace s { s with failed } := ⟨rfl, rfl, rfl, rfl, rfl, rfl, rfl⟩
  apply hrest.stuck
  rw [hsame.read.1, h]

/-! ## Calls -/

theorem next (h : Stuck s f) : s.next = ⟨.error f, [], s⟩ :=
  next_of_read_error h

theorem nextRaw (h : Stuck s f) : s.nextRaw = ⟨.error f, [], s⟩ :=
  nextRaw_of_read_error h

theorem peek (h : Stuck s f) : s.peek = ⟨.error f, [], s⟩ := by
  rw [h.atRest.peek_eq, h.next]

theorem consume (h : Stuck s f) (kind : String) : s.consume kind = ⟨.error f, [], s⟩ := by
  unfold Session.consume
  rw [h.next]

/-- Iteration answers the failure once. -/
theorem iterate (h : Stuck s f) : s.iterate =
    ⟨if s.failed = true then none else some (.error f), [], { s with failed := true }⟩ := by
  unfold Session.iterate
  by_cases hfailed : s.failed = true
  · have hsame : { s with failed := true } = s := by rw [← hfailed]
    rw [if_pos hfailed, if_pos hfailed, hsame]
  · rw [if_neg hfailed, if_neg hfailed, h.next]

/-- Unless another input is given, a call leaves the session as it is, but for whether iteration has
    met the failure. -/
theorem call (h : Stuck s f) {c : Call} (hc : c.isRebind = false) :
    ∃ failed, (s.call c).session = { s with failed } := by
  cases c with
  | next => exact ⟨s.failed, congrArg Reply.session h.next⟩
  | nextRaw => exact ⟨s.failed, congrArg Reply.session h.nextRaw⟩
  | peek => exact ⟨s.failed, congrArg Reply.session h.peek⟩
  | consume kind => exact ⟨s.failed, congrArg Reply.session (h.consume kind)⟩
  | iterate => exact ⟨true, congrArg Reply.session h.iterate⟩
  | rebind input => cases hc

/-- So does a history of calls, since a session that is left like this is stuck again. -/
theorem after (h : Stuck s f) {later : List Call} (hlater : ∀ c ∈ later, c.isRebind = false) :
    ∃ failed, s.after later = { s with failed } := by
  induction later generalizing s with
  | nil => exact ⟨s.failed, rfl⟩
  | cons c later ih =>
    obtain ⟨failed, hsession⟩ := h.call (hlater c List.mem_cons_self)
    have hstuck : Stuck (s.call c).session f := by
      rw [hsession]
      exact h.setFailed failed
    obtain ⟨failed', hafter⟩ := ih hstuck fun d hd => hlater d (List.mem_cons_of_mem c hd)
    refine ⟨failed', ?_⟩
    show (s.call c).session.after later = { s with failed := failed' }
    rw [hafter, hsession]

end Stuck

/-! ## Getting stuck -/

/-- A call has stopped at a failure if it leaves the session stuck with it, behind the tokens that
    it reports, all of which it has skipped. -/
structure StoppedAt (s : Session) (f : Failure) (reported : List Token) (e : Session) : Prop where
  stuck : Stuck e f
  skipped : ∀ t ∈ reported, s.lexer.isSkip t.index = true
  covers : Covers s reported e
  current : e.current = s.current

namespace AtRest

theorem stoppedAt_nextRaw (h : AtRest s) (hf : s.nextRaw.answer = .error f) :
    StoppedAt s f s.nextRaw.reported s.nextRaw.session := by
  rw [answer_nextRaw] at hf
  have hstuck := h.stuck hf
  rw [hstuck.nextRaw]
  refine ⟨hstuck, fun t ht => ?_, covers_nil rfl rfl, rfl⟩
  cases ht

theorem stoppedAt_next (h : AtRest s) (hf : s.next.answer = .error f) :
    StoppedAt s f s.next.reported s.next.session := by
  obtain ⟨tokens, e, hskips, _, hread⟩ := exists_skips_of_next_error hf
  have hstuck := (hskips.atRest h).stuck hread
  rw [hskips.next_of_read_error hread, hstuck]
  exact ⟨hstuck, hskips.isSkip, hskips.covers, hskips.current_eq⟩

/-- Iteration also remembers that it has met the failure. -/
theorem stoppedAt_iterate (h : AtRest s) (hf : s.iterate.answer = some (.error f)) :
    StoppedAt s f s.iterate.reported s.iterate.session := by
  obtain ⟨hfailed, hresult⟩ := result_next_of_iterate hf
  have hnext := Outcome.eq_error_of_result hresult
  have hstop := h.stoppedAt_next hnext
  rw [iterate_of_error hfailed hnext]
  exact ⟨hstop.stuck.setFailed true, hstop.skipped,
    ⟨hstop.covers.tiles, hstop.covers.parts, hstop.covers.offset⟩, hstop.current⟩

/-- Whatever call fails because it could not read a token has stopped at this failure. -/
theorem stoppedAt_call (h : AtRest s) {c : Call} (hc : c.advances = true)
    (hkind : ∀ expected found span, f ≠ .located ⟨.unexpected expected found, span⟩)
    (hf : (s.call c).answer.result = some (.error f)) :
    StoppedAt s f (s.call c).reported (s.call c).session := by
  cases c with
  | next => exact h.stoppedAt_next (Outcome.eq_error_of_result hf)
  | nextRaw => exact h.stoppedAt_nextRaw (Outcome.eq_error_of_result hf)
  | consume kind => exact h.stoppedAt_next (next_of_consume_error hkind (Option.some.inj hf))
  | iterate => exact h.stoppedAt_iterate hf
  | peek => cases hc
  | rebind input => cases hc

end AtRest

/-! ## Another input -/

/-- A session that has been given another input is one that is opened on it. -/
theorem Consistent.rebind_eq (h : Consistent l m s) (other : List UInt8) :
    s.rebind other = ofInput l m other := by
  have hrun : s.run.restart = Run.ofAutomaton l.automaton := by
    unfold Run.restart Run.ofAutomaton
    rw [h.automaton]
  unfold Session.rebind ofInput
  rw [h.lexer, h.metrics, hrun]

/-! ## Failures stay -/

/-- In any session that a history of calls leads to, let a call that moves on fail with a lexical
    error. Then it has passed the tokens that it reports, all of which it has skipped, and nothing
    else: the session stands at the start of the lexeme that failed, and the token that was
    returned last is the one before the call. Whatever is called after this, unless another input
    is given, the session stays at this place with this token, and every call fails with the same
    error again, but that iteration answers it once. Any other input makes the session the one that
    is opened on this input. -/
theorem lexical_error_stays (l : Lexer) (m : Metrics) (input : List UInt8) (history : List Call) :
    let s := (ofInput l m input).after history
    (∀ (c : Call) (lexeme : List UInt8) (found : Option UInt8) (span : Span),
      let e : Failure := .located ⟨.lexical lexeme found, span⟩
      let t := (s.call c).session
      let skipped := (s.call c).reported
      c.advances = true → (s.call c).answer.result = some (.error e) →
      (∀ k ∈ skipped, l.isSkip k.index = true) ∧ (c = .nextRaw → skipped = []) ∧
      Covers s skipped t ∧ LexicalAt m s.input t.offset lexeme found span ∧
      t.current = s.current ∧
      ∀ later : List Call, (∀ d ∈ later, d.isRebind = false) →
        let u := t.after later
        u.offset = t.offset ∧ u.position = t.position ∧ u.rest = t.rest ∧
        u.current = t.current ∧
        u.next.answer = .error e ∧ u.nextRaw.answer = .error e ∧ u.peek.answer = .error e ∧
        (∀ kind, (u.consume kind).answer = .error e ∧ (u.expect kind).answer = .error e) ∧
        u.iterate.answer = if u.failed = true then none else some (.error e)) ∧
    ∀ other, s.rebind other = ofInput l m other := by
  intro s
  have hplaced : Placed l m s := (placed_ofInput l m input).after history
  have hrest : AtRest s := atRest_after l m input history
  refine ⟨fun c lexeme found span => ?_, hplaced.rebind_eq⟩
  intro e t skipped hc hf
  have hkind : ∀ expected found' span', Failure.located ⟨.lexical lexeme found, span⟩ ≠
      .located ⟨.unexpected expected found', span'⟩ := by
    intro _ _ _ heq
    cases heq
  have hstop : StoppedAt s e skipped t := hrest.stoppedAt_call hc hkind hf
  have hskipped := hstop.skipped
  rw [hplaced.lexer] at hskipped
  have hraw : c = .nextRaw → skipped = [] := by
    intro hcall
    unfold skipped
    rw [hcall]
    show s.nextRaw.reported = []
    unfold nextRaw
    split
    · rfl
    · rfl
  have hlies : LexicalAt m s.input t.offset lexeme found span := by
    have hat := ((hplaced.answer_call c).2 e hf).lexical lexeme found span rfl
    -- a call that moves on stops to read where it leaves the session
    have hstopOffset : s.stopOffset c = t.offset := by
      cases c with
      | peek => cases hc
      | next | nextRaw | consume | iterate | rebind => rfl
    rw [hstopOffset] at hat
    exact hat
  refine ⟨hskipped, hraw, hstop.covers, hlies, hstop.current, fun later hlater => ?_⟩
  intro u
  -- the place and the last token are those of the session that got stuck
  obtain ⟨failed, hu⟩ : ∃ failed, u = { t with failed } := hstop.stuck.after hlater
  have hstuck : Stuck u e := by
    rw [hu]
    exact hstop.stuck.setFailed failed
  refine ⟨by rw [hu], by rw [hu], by rw [hu], by rw [hu], by rw [hstuck.next], by rw [hstuck.nextRaw],
    by rw [hstuck.peek], fun kind => ?_, by rw [hstuck.iterate]⟩
  unfold expect
  rw [hstuck.consume]
  exact ⟨rfl, rfl⟩

/-- Iteration skips a blank and fails at the byte after it. Whoever looks ahead after this and asks
    for a kind gets the same error, and iteration is over. -/
theorem lexical_error_stays_blank :
    let s := ofInput (Lexer.ofPatterns blankOnly) {} [32, 98]
    let t := (s.call .iterate).session
    let u := t.after [.peek, .consume skipKind]
    ∃ span, Call.iterate.advances = true ∧
      (s.call .iterate).answer.result =
        some (.error (.located ⟨.lexical [] (some 98), span⟩)) ∧
      (∀ d ∈ [Call.peek, .consume skipKind], d.isRebind = false) ∧
      t.offset = 1 ∧ u.offset = 1 ∧
      u.nextRaw.answer = .error (.located ⟨.lexical [] (some 98), span⟩) ∧
      u.rebind [32] = ofInput (Lexer.ofPatterns blankOnly) {} [32] := by
  intro s t u
  obtain ⟨span, hf, hat⟩ : ∃ span,
      (s.call .iterate).answer.result = some (.error (.located ⟨.lexical [] (some 98), span⟩)) ∧
        t.offset = 1 := iterate_blankOnly (c := 98) (by decide)
  have hlater : ∀ d ∈ [Call.peek, .consume skipKind], d.isRebind = false := by decide
  obtain ⟨hall, _⟩ := lexical_error_stays (Lexer.ofPatterns blankOnly) {} [32, 98] []
  obtain ⟨_, _, _, _, _, hstays⟩ := hall .iterate [] (some 98) span rfl hf
  obtain ⟨hoffset, _, _, _, _, hraw, _⟩ := hstays _ hlater
  obtain ⟨_, hother⟩ := lexical_error_stays (Lexer.ofPatterns blankOnly) {} [32, 98]
    [.iterate, .peek, .consume skipKind]
  exact ⟨span, rfl, hf, hlater, hat, hoffset.trans hat, hraw, hother [32]⟩

end ByteLexer.Session
