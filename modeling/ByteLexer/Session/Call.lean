import ByteLexer.Session.Basic

/-! # Histories of calls

    What can be done with a session is one of a few calls. A history is a list of
    them; `after` is the session that a history leads to, and a session is reachable
    if some history leads to it from the start of an input, with a compiled lexer.
-/

namespace ByteLexer.Session

/-- A call of a session. -/
inductive Call where
  | next
  | nextRaw
  | peek
  | consume (kind : String)
  | iterate
  | rebind (input : List UInt8)
deriving DecidableEq, Repr

/-- Whether a call starts on another input. -/
def Call.isRebind : Call → Bool
  | .rebind _ => true
  | _ => false

/-- Whether a call moves on past what it reads. -/
def Call.advances : Call → Bool
  | .peek | .rebind _ => false
  | _ => true

/-- What a call answers. -/
inductive Answer where
  | outcome (x : Outcome)
  | token (x : Except Failure Token)
  | item (x : Option (Except Failure Token))
  | done

/-- The same reply with another answer. -/
def Reply.map {α β : Type} (f : α → β) (r : Reply α) : Reply β :=
  { r with answer := f r.answer }

/-- Makes a call. -/
def call (s : Session) : Call → Reply Answer
  | .next => s.next.map .outcome
  | .nextRaw => s.nextRaw.map .outcome
  | .peek => s.peek.map .outcome
  | .consume kind => (s.consume kind).map .token
  | .iterate => s.iterate.map .item
  | .rebind input => ⟨.done, [], s.rebind input⟩

/-- What is answered, if it is a call of iteration that answers. -/
def Answer.item? : Answer → Option (Option (Except Failure Token))
  | .item x => some x
  | _ => none

/-- What the calls of a history answer, in the order of the calls. -/
def answers (s : Session) : List Call → List Answer
  | [] => []
  | c :: later => (s.call c).answer :: (s.call c).session.answers later

/-- The session after a history of calls. -/
def after (s : Session) (history : List Call) : Session :=
  history.foldl (fun s c => (s.call c).session) s

/-- A session that a history leads to, from the start of an input. -/
def Reachable (s : Session) : Prop :=
  ∃ (patterns : List Pattern) (l : Lexer) (m : Metrics) (input : List UInt8)
    (history : List Call), Lexer.compile patterns = .ok l ∧ s = (ofInput l m input).after history

end ByteLexer.Session
