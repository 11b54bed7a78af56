import Mathlib.Data.List.Basic
import ByteLexer.Text.Quoted

/-! # Reading quoted texts

    What `encode` wrote is read back by `decode`, whatever the text. No double quote in it stands
    without a backslash of its own, so a reader that goes from left to right finds where it ends.

    - **Writing** from left to right is the same as two replacements, if backslashes come first.
    - **Reading** back what was written.
    - **Quotations.** The quoted texts in a longer text, such as the description of a graph.
-/

namespace ByteLexer.Text.Quoted

variable {s t : String}

/-! ## Writing -/

theorem encode_cons (c : Char) (cs : List Char) : encode (c :: cs) =
    (if c = '\\' ∨ c = '\x22' then ['\\', c] else [c]) ++ encode cs := by
  rw [encode]
  split <;> rfl

/-- Writes a backslash before each occurrence of one character. -/
def protect (c : Char) (cs : List Char) : List Char :=
  cs.flatMap fun d => if d = c then ['\\', d] else [d]

/-- First all backslashes are protected and then all double quotes. In the other order, the
    backslashes before the double quotes would be doubled too. -/
theorem encode_eq_protect (cs : List Char) : encode cs = protect '\x22' (protect '\\' cs) := by
  induction cs with
  | nil => rfl
  | cons c cs ih =>
    have hprotect : protect '\x22' (protect '\\' (c :: cs)) =
        protect '\x22' (if c = '\\' then ['\\', c] else [c]) ++ encode cs := by
      rw [ih]
      unfold protect
      rw [List.flatMap_cons, List.flatMap_append]
    rw [hprotect, encode_cons]
    refine congrArg (· ++ encode cs) ?_
    by_cases hb : c = '\\'
    · subst hb
      rfl
    · by_cases hq : c = '\x22'
      · subst hq
        rfl
      · simp [protect, hb, hq]

/-! ## Reading -/

theorem decode_cons_of_ne {c : Char} (hb : c ≠ '\\') (hq : c ≠ '\x22') (cs : List Char) :
    decode (c :: cs) = (c :: ·) <$> decode cs := by
  rw [decode, if_neg (not_or.mpr ⟨hb, hq⟩)]
  exact fun _ _ h _ => hb h

/-- Every text is read back. -/
theorem decode_encode (cs : List Char) : decode (encode cs) = some cs := by
  induction cs with
  | nil => rfl
  | cons c cs ih =>
    rw [encode]
    split
    · rw [decode, ih]
      rfl
    · rename_i hplain
      rw [not_or] at hplain
      rw [decode_cons_of_ne hplain.1 hplain.2, ih]
      rfl

/-- Removes the double quotes at both ends, and reads what stands between them. -/
def unquote (s : String) : Option String :=
  match s.toList with
  | '\x22' :: cs => if cs.getLast? = some '\x22' then String.ofList <$> decode cs.dropLast else none
  | _ => none

theorem toList_quote (s : String) : (quote s).toList = '\x22' :: (encode s.toList ++ ['\x22']) := by
  rw [quote, String.toList_ofList, List.cons_append]

/-- A text between double quotes, made by two replacements: first of its backslashes, then of its
    double quotes. -/
def quoteByReplacing (s : String) : String :=
  "\x22" ++ String.ofList (protect '\x22' (protect '\\' s.toList)) ++ "\x22"

theorem quote_eq_replacing (s : String) : quote s = quoteByReplacing s := by
  have hmark : "\x22".toList = ['\x22'] := by decide
  rw [← String.toList_inj, toList_quote, encode_eq_protect, quoteByReplacing, String.toList_append,
    String.toList_append, hmark, String.toList_ofList]
  rfl

theorem unquote_quote (s : String) : unquote (quote s) = some s := by
  unfold unquote
  rw [toList_quote]
  show (if _ then String.ofList <$> decode _ else none) = some s
  rw [if_pos List.getLast?_concat, List.dropLast_concat, decode_encode]
  exact congrArg some String.ofList_toList

theorem quote_injective (h : quote s = quote t) : s = t := by
  have hread := unquote_quote s
  rw [h, unquote_quote] at hread
  exact (Option.some.inj hread).symm

/-! ## Quotations -/

/-- Reads from left to right, from outside the quoted texts or from behind a part of one. The next
    double quote without a backslash of its own begins a quoted text or ends it. -/
def quotationsFrom : Option (List Char) → List Char → Option (List String)
  | none, [] => some []
  | none, c :: cs => if c = '\x22' then quotationsFrom (some []) cs else quotationsFrom none cs
  | some _, [] => none
  | some u, '\\' :: c :: cs => quotationsFrom (some (u ++ [c])) cs
  | some u, c :: cs =>
    if c = '\x22' then (String.ofList u :: ·) <$> quotationsFrom none cs
    else if c = '\\' then none
    else quotationsFrom (some (u ++ [c])) cs

/-- The quoted texts in a text, if the last of them ends in it. -/
def quotations (s : String) : Option (List String) :=
  quotationsFrom none s.toList

/-- What stands outside the quoted texts does not matter. -/
theorem quotations_append_of_not_mem (h : '\x22' ∉ s.toList) (t : String) :
    quotations (s ++ t) = quotations t := by
  unfold quotations
  rw [String.toList_append]
  generalize s.toList = cs at h
  induction cs with
  | nil => rfl
  | cons c cs ih =>
    rw [List.mem_cons, not_or] at h
    rw [List.cons_append, quotationsFrom, if_neg (Ne.symm h.1), ih h.2]

/-- By induction on what is left of the quoted text. -/
theorem quotationsFrom_encode (u cs rest : List Char) :
    quotationsFrom (some u) (encode cs ++ '\x22' :: rest) =
      (String.ofList (u ++ cs) :: ·) <$> quotationsFrom none rest := by
  induction cs generalizing u with
  | nil =>
    rw [encode, List.nil_append, List.append_nil, quotationsFrom, if_pos rfl]
    exact fun _ _ h _ => nomatch h
  | cons c cs ih =>
    have hassoc : u ++ c :: cs = (u ++ [c]) ++ cs := by
      rw [List.append_assoc, List.singleton_append]
    rw [hassoc, encode_cons]
    split
    · exact ih (u ++ [c])
    · rename_i hplain
      rw [not_or] at hplain
      rw [List.singleton_append, List.cons_append, quotationsFrom, if_neg hplain.2,
        if_neg hplain.1, ih]
      exact fun _ _ h _ => hplain.1 h

/-- A quoted text is read as a whole, whatever is in it and whatever follows. -/
theorem quotations_quote_append (s t : String) :
    quotations (quote s ++ t) = (s :: ·) <$> quotations t := by
  unfold quotations
  rw [String.toList_append, toList_quote, List.cons_append, List.append_assoc,
    List.singleton_append, quotationsFrom, if_pos rfl, quotationsFrom_encode, List.nil_append,
    String.ofList_toList]

end ByteLexer.Text.Quoted
