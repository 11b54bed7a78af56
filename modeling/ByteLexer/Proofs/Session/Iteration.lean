import ByteLexer.Proofs.Session.Skipping

/-! # Iteration ends

    Iteration answers tokens up to the end of the input or the first failure, and nothing any
    more after that, whatever is called in between. It remembers a failure, though other calls
    would meet it again; and it need not remember the end, which no call leads back from.

    - **`Finished`** sessions have nothing more to iterate over. Calls keep them so.
    - **Steps.** What a call of iteration answers is a token, or else the session is finished.
    - **Histories.** So no failure is followed by another one, and what is left runs out.
-/

namespace ByteLexer.Session

variable {s : Session} {later : List Call} {x : Option (Except Failure Token)}

/-! ## Finished sessions -/

/-- A session is finished if iteration has met a failure, or if nothing is left. -/
def Finished (s : Session) : Prop :=
  s.failed = true ∨ s.rest = []

namespace Finished

/-- Iteration answers nothing any more, and it changes nothing. -/
theorem iterate (h : Finished s) : s.iterate = ⟨none, [], s⟩ := by
  rcases h with hfailed | hnil
  · exact iterate_of_failed hfailed
  · rcases hfailed : s.failed with _ | _
    · -- at the end of the input there is no next token
      have hnext : s.next = ⟨.ok none, [], s⟩ := next_of_rest_eq_nil hnil
      rw [iterate_of_none hfailed (congrArg Reply.answer hnext), hnext]
    · exact iterate_of_failed hfailed

theorem next (h : Finished s) (hrest : AtRest s) : Finished s.next.session := by
  rcases h with hfailed | hnil
  · left
    rw [hrest.kept_next.failed]
    exact hfailed
  · rw [next_of_rest_eq_nil hnil]
    exact .inr hnil

theorem nextRaw (h : Finished s) (hrest : AtRest s) : Finished s.nextRaw.session := by
  rcases h with hfailed | hnil
  · left
    rw [hrest.kept_nextRaw.failed]
    exact hfailed
  · rw [nextRaw_of_rest_eq_nil hnil]
    exact .inr hnil

/-- Only another input makes a finished session go on. -/
theorem call (h : Finished s) (hrest : AtRest s) {c : Call} (hc : c.isRebind = false) :
    Finished (s.call c).session := by
  cases c with
  | next => exact h.next hrest
  | nextRaw => exact h.nextRaw hrest
  | peek =>
    show Finished s.peek.session
    rw [hrest.peek_eq]
    exact h
  | consume kind => exact h.next hrest
  | iterate =>
    show Finished s.iterate.session
    rw [h.iterate]
    exact h
  | rebind input => cases hc

/-- So no history of calls makes it go on, unless another input is given. -/
theorem after (h : Finished s) (hrest : AtRest s) (hlater : ∀ c ∈ later, c.isRebind = false) :
    Finished (s.after later) := by
  induction later generalizing s with
  | nil => exact h
  | cons c later ih =>
    apply ih (h.call hrest (hlater c List.mem_cons_self)) (hrest.call c)
    intro d hd
    exact hlater d (List.mem_cons_of_mem c hd)

end Finished

/-! ## Steps -/

/-- A call of iteration that answers no token finishes the session. -/
theorem finished_of_iterate (hx : ∀ t, s.iterate.answer ≠ some (.ok t)) :
    Finished s.iterate.session := by
  rcases hfailed : s.failed with _ | _
  · rcases hnext : s.next.answer with f | _ | t
    · rw [iterate_of_error hfailed hnext]
      exact .inl rfl
    · rw [iterate_of_none hfailed hnext]
      exact .inr (rest_eq_nil_of_next hnext)
    · rw [iterate_of_token hfailed hnext] at hx
      exact absurd rfl (hx t)
  · rw [iterate_of_failed hfailed]
    exact .inl hfailed

/-- Only iteration answers an item. -/
theorem eq_iterate_of_item? {c : Call} (hx : (s.call c).answer.item? = some x) :
    c = .iterate ∧ s.iterate.answer = x := by
  cases c with
  | iterate => exact ⟨rfl, Option.some.inj hx⟩
  | next | nextRaw | peek | consume | rebind => cases hx

/-! ## Histories -/

/-- What iteration answers in a history of calls, in the order of the calls. -/
def items (s : Session) (later : List Call) : List (Option (Except Failure Token)) :=
  (s.answers later).filterMap Answer.item?

/-- An answer of the first call, if it is one of iteration, and those of the later ones. -/
theorem items_cons (s : Session) (c : Call) (later : List Call) :
    s.items (c :: later) = (s.call c).answer.item?.toList ++ (s.call c).session.items later := by
  unfold items
  rw [answers, List.filterMap_cons]
  rcases (s.call c).answer.item? with _ | x
  · rfl
  · rfl

/-- A finished session answers nothing to iteration in any history. -/
theorem Finished.items (h : Finished s) (hrest : AtRest s)
    (hlater : ∀ c ∈ later, c.isRebind = false) : ∀ x ∈ s.items later, x = none := by
  induction later generalizing s with
  | nil =>
    intro x hx
    cases hx
  | cons c later ih =>
    intro x hx
    rw [items_cons, List.mem_append, Option.mem_toList] at hx
    rcases hx with hfirst | hx
    · obtain ⟨_, rfl⟩ := eq_iterate_of_item? hfirst
      rw [h.iterate]
    · exact ih (h.call hrest (hlater c List.mem_cons_self)) (hrest.call c)
        (fun d hd => hlater d (List.mem_cons_of_mem c hd)) x hx

/-- After an answer that is no token, iteration answers nothing. By induction on the history: once
    there is such an answer the session is finished. -/
theorem AtRest.pairwise_items (h : AtRest s) (hlater : ∀ c ∈ later, c.isRebind = false) :
    (s.items later).Pairwise fun x y => (∀ t, x ≠ some (.ok t)) → y = none := by
  induction later generalizing s with
  | nil => exact .nil
  | cons c later ih =>
    have hothers : ∀ d ∈ later, d.isRebind = false := fun d hd =>
      hlater d (List.mem_cons_of_mem c hd)
    have hrest : AtRest (s.call c).session := h.call c
    rw [items_cons]
    rcases hfirst : (s.call c).answer.item? with _ | x
    · -- this call is not one of iteration
      exact ih hrest hothers
    · obtain ⟨rfl, rfl⟩ := eq_iterate_of_item? hfirst
      refine List.pairwise_cons.mpr ⟨fun y hy hx => ?_, ih hrest hothers⟩
      exact (finished_of_iterate hx).items hrest hothers y hy

/-- Whether an answer of iteration is a failure. -/
def isFailure : Option (Except Failure Token) → Bool
  | some (.error _) => true
  | _ => false

/-- So there is one failure at most. -/
theorem countP_isFailure_le_one {xs : List (Option (Except Failure Token))}
    (h : xs.Pairwise fun x y => (∀ t, x ≠ some (.ok t)) → y = none) :
    xs.countP isFailure ≤ 1 := by
  induction xs with
  | nil => exact Nat.zero_le 1
  | cons x xs ih =>
    obtain ⟨hx, hxs⟩ := List.pairwise_cons.mp h
    rcases x with _ | f | t
    · exact ih hxs
    · have hnone : xs.countP isFailure = 0 := by
        rw [List.countP_eq_zero]
        intro y hy hfailure
        -- nothing comes after the failure
        rw [hx y hy (fun t heq => by cases heq)] at hfailure
        cases hfailure
      have hone : (some (.error f) :: xs).countP isFailure = 1 := by
        rw [List.countP_cons_of_pos rfl, hnone]
      exact Nat.le_of_eq hone
    · exact ih hxs

/-- Iteration alone finishes a session in as many calls as bytes are left. By induction on this
    number, since each token takes a byte at least. -/
theorem AtRest.finished_after_iterate (h : AtRest s) {n : Nat} (hn : s.rest.length ≤ n) :
    Finished (s.after (List.replicate n .iterate)) := by
  induction n generalizing s with
  | zero => exact .inr (List.length_eq_zero_iff.mp (Nat.le_zero.mp hn))
  | succ n ih =>
    show Finished (s.iterate.session.after (List.replicate n .iterate))
    by_cases htoken : ∃ t, s.iterate.answer = some (.ok t)
    · obtain ⟨t, ht⟩ := htoken
      have hlt : s.iterate.session.rest.length < s.rest.length :=
        rest_length_lt_of_iterate (Reply.ext ht rfl rfl)
      apply ih h.iterate
      omega
    · -- what is finished by this call remains so
      have hfinished := finished_of_iterate fun t ht => htoken ⟨t, ht⟩
      apply hfinished.after h.iterate
      intro c hc
      rw [List.eq_of_mem_replicate hc]
      rfl

/-! ## The end of iteration -/

/-- In any session that a history of calls leads to, let other calls come in between those of
    iteration, in any order, but no other input. Then iteration answers one failure at most, and
    after a failure, or after it has answered nothing, it answers nothing any more. Iteration alone
    answers nothing any more after as many calls as bytes are left. -/
theorem iteration_fused (l : Lexer) (m : Metrics) (input : List UInt8)
    (history later : List Call) (hlater : ∀ c ∈ later, c.isRebind = false) :
    let s := (ofInput l m input).after history
    (s.items later).countP isFailure ≤ 1 ∧
    ((s.items later).Pairwise fun x y => (∀ t, x ≠ some (.ok t)) → y = none) ∧
    ∀ n, s.rest.length ≤ n → (s.after (List.replicate n .iterate)).iterate.answer = none := by
  intro s
  have hrest : AtRest s := atRest_after l m input history
  have hpairwise := hrest.pairwise_items hlater
  refine ⟨countP_isFailure_le_one hpairwise, hpairwise, fun n hn => ?_⟩
  rw [(hrest.finished_after_iterate hn).iterate]

/-- Iteration skips a blank and answers the failure after it once, though a call of `nextRaw` meets
    it again. -/
theorem iteration_fused_blank :
    let s := ofInput (Lexer.ofPatterns blankOnly) {} [32, 98]
    let later := [Call.iterate, .nextRaw, .iterate]
    (∀ c ∈ later, c.isRebind = false) ∧
      (∃ f, s.items later = [some (.error f), none]) ∧ (s.items later).countP isFailure ≤ 1 ∧
      (s.after (List.replicate 2 .iterate)).iterate.answer = none := by
  intro s later
  have hlater : ∀ c ∈ later, c.isRebind = false := by decide
  obtain ⟨hcount, hpairwise, hend⟩ :=
    iteration_fused (Lexer.ofPatterns blankOnly) {} [32, 98] [] later hlater
  obtain ⟨span, hfirst, _⟩ : ∃ span,
      s.iterate.answer = some (.error (.located ⟨.lexical [] (some 98), span⟩)) ∧ _ :=
    iterate_blankOnly (by decide)
  have hitems : s.items later =
      [s.iterate.answer, s.iterate.session.nextRaw.session.iterate.answer] := rfl
  have hsecond : s.iterate.session.nextRaw.session.iterate.answer = none := by
    -- this call of iteration comes after a failure
    have hpairs : (s.items later).Pairwise _ := hpairwise
    rw [hitems, hfirst] at hpairs
    exact (List.pairwise_cons.mp hpairs).1 _ List.mem_cons_self fun t heq => by cases heq
  rw [hfirst, hsecond] at hitems
  exact ⟨hlater, ⟨_, hitems⟩, hcount, hend 2 (Nat.le_refl 2)⟩

end ByteLexer.Session
