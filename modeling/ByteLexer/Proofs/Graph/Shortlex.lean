import ByteLexer.Graph.Traversal
import ByteLexer.Proofs.OrdSet
import Mathlib.Data.List.Shortlex

/-! # The words of a breadth-first traversal

    If every vertex lists its edges in increasing order of their labels, a breadth-first
    traversal finds each vertex along the first of the words that lead there, where shorter
    words come first, and words of one length in the order of their letters.

    - **Order.** `Foremost` is the first of the words with a property.
    - **Words.** `Leads` says which words lead from a vertex to another one.
    - **The frontier.** What the vertices seen and those in the queue have in common, from one
      visit to the next.
    - **Visits.** Each vertex is visited once, with its foremost word.
-/

namespace ByteLexer.Graph

open Std (TransOrd LawfulEqOrd)
open List (Shortlex)

/-! ## Order -/

section Order

variable {β : Type} [LT β] {b : β} {u v w x y : List β} {P P' : List β → Prop}

/-- What stands behind two words does not change their order, if it is not longer behind the
    first one. -/
theorem shortlex_append (h : Shortlex (· < ·) u v) (hlength : x.length ≤ y.length) :
    Shortlex (· < ·) (u ++ x) (v ++ y) := by
  rcases List.shortlex_def.mp h with hlt | ⟨heq, hlex⟩
  · apply Shortlex.of_length_lt
    rw [List.length_append, List.length_append]
    omega
  · rcases Nat.lt_or_eq_of_le hlength with hlt | heq'
    · apply Shortlex.of_length_lt
      rw [List.length_append, List.length_append]
      omega
    · -- the first letter in which the words differ decides
      apply Shortlex.of_lex
      · rw [List.length_append, List.length_append, heq, heq']
      · clear h
        induction hlex with
        | nil => simp at heq
        | cons _ ih => exact .cons (ih (Nat.succ.inj heq))
        | rel hlt => exact .rel hlt

theorem shortlex_concat (u : List β) (b : β) : Shortlex (· < ·) u (u ++ [b]) := by
  apply Shortlex.of_length_lt
  rw [List.length_append]
  exact Nat.lt_succ_self _

theorem shortlex_trans [IsTrans β (· < ·)] (huv : Shortlex (· < ·) u v)
    (hvw : Shortlex (· < ·) v w) : Shortlex (· < ·) u w := by
  rw [List.shortlex_def] at huv hvw ⊢
  rcases huv with huv | ⟨huv, hlex⟩
  · exact .inl (by omega)
  · rcases hvw with hvw | ⟨hvw, hlex'⟩
    · exact .inl (by omega)
    · exact .inr ⟨huv.trans hvw, List.lex_trans (fun h h' => IsTrans.trans _ _ _ h h') hlex hlex'⟩

/-- The first of the words with a property: it has the property, and all others that have it are
    longer, or as long and later in the order of their letters. -/
structure Foremost (P : List β → Prop) (w : List β) : Prop where
  holds : P w
  first : ∀ u, P u → w = u ∨ Shortlex (· < ·) w u

/-- There is at most one. -/
theorem Foremost.unique [Std.Asymm (α := β) (· < ·)] (hu : Foremost P u) (hv : Foremost P v) :
    u = v := by
  rcases hu.first v hv.holds with heq | hlt
  · exact heq
  · rcases hv.first u hu.holds with heq | hgt
    · exact heq.symm
    · exact absurd hgt (Std.Asymm.asymm _ _ hlt)

theorem Foremost.length_le (hw : Foremost P w) (hu : P u) : w.length ≤ u.length := by
  rcases hw.first u hu with rfl | hlt
  · exact Nat.le_refl _
  · rcases List.shortlex_def.mp hlt with hlt | ⟨heq, _⟩
    · exact Nat.le_of_lt hlt
    · exact Nat.le_of_eq heq

/-- Among the shortest words with the property it is the least one. -/
theorem Foremost.le_of_length_eq [Std.Asymm (α := β) (· < ·)] (hw : Foremost P w) (hu : P u)
    (hlength : u.length = w.length) : w ≤ u := by
  rcases hw.first u hu with rfl | hlt
  · exact Std.Irrefl.irrefl w
  · rcases List.shortlex_def.mp hlt with hlt | ⟨_, hlex⟩
    · omega
    · exact List.lt_asymm hlex

theorem Foremost.congr (h : ∀ u, P u ↔ P' u) (hw : Foremost P w) : Foremost P' w :=
  ⟨(h w).mp hw.holds, fun u hu => hw.first u ((h u).mpr hu)⟩

end Order

variable {α β : Type} [Ord α] [TransOrd α] {next : α → List (β × α)} {s u v : α} {w : List β}

/-! ## Words -/

/-- `Leads next v w u`: edges whose labels are `w`, in order, lead from `v` to `u`. -/
inductive Leads (next : α → List (β × α)) : α → List β → α → Prop
  | nil (v : α) : Leads next v [] v
  | cons {v u : α} {e : β × α} {w : List β} : e ∈ next v → Leads next e.2 w u →
      Leads next v (e.1 :: w) u

omit [Ord α] [TransOrd α] in
/-- One more edge is one more letter. -/
theorem Leads.concat {e : β × α} (h : Leads next v w u) (he : e ∈ next u) :
    Leads next v (w ++ [e.1]) e.2 := by
  induction h with
  | nil v => exact .cons he (.nil _)
  | cons hd _ ih => exact .cons hd (ih he)

omit [Ord α] [TransOrd α] in
/-- Where a word leads out of some vertices, there is a first edge that does. -/
theorem Leads.cross {P : α → Prop} (h : Leads next v w u) (hv : P v) (hu : ¬P u) :
    ∃ x e w₁ w₂, w = w₁ ++ e.1 :: w₂ ∧ Leads next v w₁ x ∧ P x ∧ e ∈ next x ∧ ¬P e.2 ∧
      Leads next e.2 w₂ u := by
  induction h with
  | nil v => exact absurd hv hu
  | @cons v u e w he hrest ih =>
    -- either the way out comes later, or it is this edge
    by_cases hP : P e.2
    · obtain ⟨x, d, w₁, w₂, hw, hx, hPx, hd, hPd, hrest⟩ := ih hP hu
      exact ⟨x, d, e.1 :: w₁, w₂, by rw [hw]; rfl, .cons he hx, hPx, hd, hPd, hrest⟩
    · exact ⟨v, e, [], w, rfl, .nil v, hv, he, hP, hrest⟩

omit [Ord α] [TransOrd α] in
theorem Leads.eq_of_nil (h : Leads next v [] u) : v = u := by
  cases h
  rfl

omit [Ord α] [TransOrd α] in
theorem Leads.reachable {starts : List α} (h : Leads next v w u) (hv : Reachable next starts v) :
    Reachable next starts u := by
  induction h with
  | nil v => exact hv
  | cons he _ ih => exact ih (.step hv he)

omit [Ord α] [TransOrd α] in
/-- The vertices that can be reached are those that words lead to. -/
theorem reachable_iff_exists_leads : Reachable next [s] v ↔ ∃ w, Leads next s w v := by
  constructor
  · intro h
    induction h with
    | start hv =>
      rw [List.mem_singleton.mp hv]
      exact ⟨[], .nil s⟩
    | step _ he ih =>
      obtain ⟨w, hw⟩ := ih
      exact ⟨w ++ [_], hw.concat he⟩
  · intro hex
    obtain ⟨w, hw⟩ := hex
    exact hw.reachable (.start (List.mem_singleton.mpr rfl))

/-! ## The frontier -/

omit [Ord α] [TransOrd α] in
/-- What is true of the queue after a visit: what is true of the rest, and of the vertices that
    are found, each with the word of the first vertex and one more letter. -/
theorem forall_mem_queue {rest : List (α × List β)} {found : List (β × α)} {trail : List β}
    {P : α × List β → Prop} (hrest : ∀ p ∈ rest, P p)
    (hfound : ∀ e ∈ found, P (e.2, e.1 :: trail)) :
    ∀ p ∈ rest ++ found.map fun e => (e.2, e.1 :: trail), P p := by
  intro p hp
  rcases List.mem_append.mp hp with hp | hp
  · exact hrest p hp
  · obtain ⟨e, he, rfl⟩ := List.mem_map.mp hp
    exact hfound e he

section Frontier

variable [LawfulEqOrd α] [LT β] {seen : OrdSet α} {queue rest : List (α × List β)}
  {trail : List β} {e : β × α}

/-- What a traversal from `s` keeps: its start has been seen, the vertices in the queue have
    been seen, and no edge of any other vertex leads to one that has not. The vertices in the
    queue are there with their foremost words, in the order of these, and whatever comes
    directly before the end of one of the words is earlier than them all. -/
structure Frontier (next : α → List (β × α)) (s : α) (seen : OrdSet α)
    (queue : List (α × List β)) : Prop where
  start : s ∈ seen
  queued : ∀ p ∈ queue, p.1 ∈ seen
  closed : ∀ v ∈ seen, (∃ p ∈ queue, p.1 = v) ∨ ∀ e ∈ next v, e.2 ∈ seen
  foremost : ∀ p ∈ queue, Foremost (Leads next s · p.1) p.2.reverse
  sorted : queue.Pairwise fun p q => Shortlex (· < ·) p.2.reverse q.2.reverse
  parents : ∀ p ∈ queue, ∀ b t, p.2 = b :: t →
    ∀ q ∈ queue, Shortlex (· < ·) t.reverse q.2.reverse

theorem frontier_start (next : α → List (β × α)) (s : α) :
    Frontier next s (OrdSet.ofMembers [s]) [(s, [])] where
  start := OrdSet.mem_ofMembers.mpr List.mem_cons_self
  queued p hp := by
    rw [List.mem_singleton.mp hp]
    exact OrdSet.mem_ofMembers.mpr List.mem_cons_self
  closed v hv := by
    have heq : v = s := List.mem_singleton.mp (OrdSet.mem_ofMembers.mp hv)
    exact .inl ⟨_, List.mem_cons_self, heq.symm⟩
  foremost p hp := by
    rw [List.mem_singleton.mp hp]
    exact ⟨.nil s, fun u _ => (List.shortlex_nil_or_eq_nil u).symm.imp_left Eq.symm⟩
  sorted := List.pairwise_singleton _ _
  parents p hp b t ht := by
    rw [List.mem_singleton.mp hp] at ht
    cases ht

namespace Frontier

omit [LawfulEqOrd α] in
/-- A word that leads to a vertex not seen yet passes through the queue. -/
theorem cross (h : Frontier next s seen queue) (hv : v ∉ seen) (hw : Leads next s w v) :
    ∃ p ∈ queue, ∃ e w₁ w₂, w = w₁ ++ e.1 :: w₂ ∧ Leads next s w₁ p.1 ∧ e ∈ next p.1 ∧
      e.2 ∉ seen ∧ Leads next e.2 w₂ v := by
  obtain ⟨x, e, w₁, w₂, hw, hx, hseen, he, hnew, hrest⟩ := hw.cross h.start hv
  rcases h.closed x hseen with ⟨p, hp, rfl⟩ | hall
  · exact ⟨p, hp, e, w₁, w₂, hw, hx, he, hnew, hrest⟩
  · exact absurd (hall e he) hnew

omit [LawfulEqOrd α] in
/-- The first vertex of a queue has the first word. -/
theorem head_first (h : Frontier next s seen ((v, trail) :: rest)) {p : α × List β}
    (hp : p ∈ (v, trail) :: rest) :
    p = (v, trail) ∨ Shortlex (· < ·) trail.reverse p.2.reverse := by
  rcases List.mem_cons.mp hp with heq | hrest
  · exact .inl heq
  · exact .inr ((List.pairwise_cons.mp h.sorted).1 p hrest)

/-- A vertex that is found from the first one of a queue is found along its foremost word. -/
theorem foremost_fresh [IsTrans β (· < ·)] (h : Frontier next s seen ((v, trail) :: rest))
    (hsorted : (next v).Pairwise fun d e => d.1 < e.1) (he : e ∈ fresh seen (next v)) :
    Foremost (Leads next s · e.2) (trail.reverse ++ [e.1]) := by
  have hnew : e.2 ∉ seen := key_not_mem_of_mem_firsts he
  have hhead := h.foremost (v, trail) List.mem_cons_self
  refine ⟨hhead.holds.concat (mem_of_mem_firsts he), fun w hw => ?_⟩
  obtain ⟨p, hp, d, w₁, w₂, rfl, hw₁, hd, hdnew, hw₂⟩ := h.cross hnew hw
  -- the part of the word up to the queue is not earlier than the word of the first vertex
  by_cases hlt : Shortlex (· < ·) trail.reverse w₁
  · right
    apply shortlex_append hlt
    simp
  · have hsame : p = (v, trail) ∧ trail.reverse = w₁ := by
      rcases h.head_first hp with rfl | hfirst
      · rcases (h.foremost _ hp).first w₁ hw₁ with heq | hlt'
        · exact ⟨rfl, heq⟩
        · exact absurd hlt' hlt
      · rcases (h.foremost p hp).first w₁ hw₁ with heq | hlt'
        · rw [heq] at hfirst
          exact absurd hfirst hlt
        · exact absurd (shortlex_trans hfirst hlt') hlt
    obtain ⟨rfl, rfl⟩ := hsame
    rcases w₂ with _ | ⟨c, w₂⟩
    · -- both words end in an edge of the first vertex, and the earlier edge was taken
      rcases firsts_earliest hsorted he hd hw₂.eq_of_nil with rfl | hlabel
      · exact .inl rfl
      · right
        apply Shortlex.append_left
        exact (List.shortlex_singleton_iff _ _).mpr hlabel
    · right
      apply Shortlex.of_length_lt
      simp

/-- The edges of the first vertex lead to what had been seen, or has just been found. -/
theorem closed_step (h : Frontier next s seen ((v, trail) :: rest)) :
    ∀ u ∈ seen.insertMany ((fresh seen (next v)).map Prod.snd),
      (∃ p ∈ rest ++ (fresh seen (next v)).map fun e => (e.2, e.1 :: trail), p.1 = u) ∨
      ∀ e ∈ next u, e.2 ∈ seen.insertMany ((fresh seen (next v)).map Prod.snd) := by
  intro u hu
  rcases mem_insertMany.mp hu with hu | hu
  · rcases h.closed u hu with ⟨p, hp, rfl⟩ | hall
    · rcases List.mem_cons.mp hp with rfl | hp
      · refine .inr fun e he => mem_insertMany.mpr ?_
        by_cases hseen : e.2 ∈ seen
        · exact .inl hseen
        · have hkey : ∃ d ∈ fresh seen (next v), d.2 = e.2 := key_mem_firsts he hseen
          obtain ⟨d, hd, hde⟩ := hkey
          exact .inr (List.mem_map.mpr ⟨d, hd, hde⟩)
      · exact .inl ⟨p, List.mem_append_left _ hp, rfl⟩
    · exact .inr fun e he => mem_insertMany.mpr (.inl (hall e he))
  · obtain ⟨e, he, rfl⟩ := List.mem_map.mp hu
    exact .inl ⟨_, List.mem_append_right _ (List.mem_map.mpr ⟨e, he, rfl⟩), rfl⟩

omit [LawfulEqOrd α] in
/-- The word of the first vertex is earlier than all that are in the queue after its visit. -/
theorem first_step (h : Frontier next s seen ((v, trail) :: rest)) :
    ∀ q ∈ rest ++ (fresh seen (next v)).map fun e => (e.2, e.1 :: trail),
      Shortlex (· < ·) trail.reverse q.2.reverse := by
  refine forall_mem_queue (List.pairwise_cons.mp h.sorted).1 fun e _ => ?_
  rw [List.reverse_cons]
  exact shortlex_concat _ _

omit [LawfulEqOrd α] in
/-- Words of the rest come before those that are found: without its last letter, the former is
    earlier than that of the first vertex. -/
theorem sorted_step (h : Frontier next s seen ((v, trail) :: rest))
    (hsorted : (next v).Pairwise fun d e => d.1 < e.1) :
    (rest ++ (fresh seen (next v)).map fun e => (e.2, e.1 :: trail)).Pairwise
      fun p q => Shortlex (· < ·) p.2.reverse q.2.reverse := by
  rw [List.pairwise_append]
  refine ⟨(List.pairwise_cons.mp h.sorted).2, ?_, fun p hp q hq => ?_⟩
  · rw [List.pairwise_map]
    refine (hsorted.sublist (firsts_sublist _ _ _)).imp fun hlabel => ?_
    rw [List.reverse_cons, List.reverse_cons]
    apply Shortlex.append_left
    exact (List.shortlex_singleton_iff _ _).mpr hlabel
  · obtain ⟨e, _, rfl⟩ := List.mem_map.mp hq
    rw [List.reverse_cons]
    -- only the word of the start has no last letter
    rcases htrail : p.2 with _ | ⟨b, t⟩
    · apply Shortlex.of_length_lt
      simp
    · rw [List.reverse_cons]
      exact shortlex_append (h.parents p (List.mem_cons_of_mem _ hp) b t htrail (v, trail)
        List.mem_cons_self) (Nat.le_refl _)

/-- Visiting the first vertex of the queue keeps the frontier. -/
theorem step [IsTrans β (· < ·)] (h : Frontier next s seen ((v, trail) :: rest))
    (hsorted : (next v).Pairwise fun d e => d.1 < e.1) :
    Frontier next s (seen.insertMany ((fresh seen (next v)).map Prod.snd))
      (rest ++ (fresh seen (next v)).map fun e => (e.2, e.1 :: trail)) where
  start := mem_insertMany.mpr (.inl h.start)
  queued := by
    refine forall_mem_queue (fun p hp => ?_) fun e he => ?_
    · exact mem_insertMany.mpr (.inl (h.queued p (List.mem_cons_of_mem _ hp)))
    · exact mem_insertMany.mpr (.inr (List.mem_map_of_mem he))
  closed := h.closed_step
  foremost := by
    refine forall_mem_queue (fun p hp => h.foremost p (List.mem_cons_of_mem _ hp)) fun e he => ?_
    rw [List.reverse_cons]
    exact h.foremost_fresh hsorted he
  sorted := h.sorted_step hsorted
  parents := by
    refine forall_mem_queue (fun p hp b t ht q hq => ?_) fun e _ b t ht q hq => ?_
    · have hparent := h.parents p (List.mem_cons_of_mem _ hp) b t ht (v, trail) List.mem_cons_self
      exact shortlex_trans hparent (h.first_step q hq)
    · obtain ⟨_, rfl⟩ := List.cons.inj ht
      exact h.first_step q hq

end Frontier

end Frontier

/-! ## Visits -/

section Visits

variable [LawfulEqOrd α] {within : α → Prop} {finite : ∃ l : List α, ∀ v, within v → v ∈ l}
  {closed : ∀ v, within v → ∀ e ∈ next v, within e.2} {seen : OrdSet α}
  {queue : List (α × List β)} {hq : ∀ p ∈ queue, within p.1}

/-- With its edges in order, every vertex is visited along its foremost word, by induction on the
    visits. -/
theorem foremost_of_mem_explore [LT β] [IsTrans β (· < ·)]
    (hsorted : ∀ v, (next v).Pairwise fun d e => d.1 < e.1) (h : Frontier next s seen queue) :
    ∀ x ∈ explore next finite closed seen queue hq,
      Foremost (Leads next s · x.vertex) x.trail.reverse := by
  fun_induction explore next finite closed seen queue hq with
  | case1 => simp
  | case2 seen v trail rest _ edges found hfound hrest _ ih =>
    intro x hx
    rcases List.mem_cons.mp hx with rfl | hx
    · exact h.foremost (v, trail) List.mem_cons_self
    · exact ih (h.step (hsorted v)) x hx

/-- What is visited stands in the queue, or had not been seen. -/
theorem queued_or_not_mem_of_mem_explore : ∀ x ∈ explore next finite closed seen queue hq,
    x.vertex ∈ queue.map Prod.fst ∨ x.vertex ∉ seen := by
  fun_induction explore next finite closed seen queue hq with
  | case1 => simp
  | case2 seen v trail rest _ edges found hfound hrest _ ih =>
    intro x hx
    rcases List.mem_cons.mp hx with rfl | hx
    · exact .inl List.mem_cons_self
    · rcases ih x hx with hqueue | hnew
      · rw [List.map_append, List.mem_append] at hqueue
        rcases hqueue with hqueue | hqueue
        · exact .inl (List.mem_cons_of_mem _ hqueue)
        · obtain ⟨p, hp, hpx⟩ := List.mem_map.mp hqueue
          obtain ⟨e, he, rfl⟩ := List.mem_map.mp hp
          have hnew : e.2 ∉ seen := key_not_mem_of_mem_firsts he
          rw [← hpx]
          exact .inr hnew
      · exact .inr fun hseen => hnew (mem_insertMany.mpr (.inl hseen))

/-- No vertex is visited twice. -/
theorem nodup_vertex_explore (hnodup : (queue.map Prod.fst).Nodup)
    (hseen : ∀ p ∈ queue, p.1 ∈ seen) :
    ((explore next finite closed seen queue hq).map Visit.vertex).Nodup := by
  fun_induction explore next finite closed seen queue hq with
  | case1 => exact List.nodup_nil
  | case2 seen v trail rest _ edges found hfound hrest _ ih =>
    rw [List.map_cons, List.nodup_cons] at hnodup
    obtain ⟨hv, hnodup⟩ := hnodup
    have hvseen : v ∈ seen := hseen (v, trail) List.mem_cons_self
    have hnew : ∀ u ∈ found.map Prod.snd, u ∉ seen := by
      intro u hu
      obtain ⟨e, he, rfl⟩ := List.mem_map.mp hu
      exact key_not_mem_of_mem_firsts he
    have hqueue : (rest ++ found.map fun e => (e.2, e.1 :: trail)).map Prod.fst =
        rest.map Prod.fst ++ found.map Prod.snd := by
      rw [List.map_append, List.map_map]
      rfl
    rw [List.map_cons, List.nodup_cons]
    refine ⟨fun hmem => ?_, ih ?_ (forall_mem_queue (fun p hp => ?_) fun e he => ?_)⟩
    · -- the head would have to be queued again, or not to have been seen
      obtain ⟨x, hx, hxv⟩ := List.mem_map.mp hmem
      rcases queued_or_not_mem_of_mem_explore x hx with hin | hnot
      · rw [hqueue, hxv, List.mem_append] at hin
        rcases hin with hin | hin
        · exact hv hin
        · exact hnew v hin hvseen
      · rw [hxv] at hnot
        exact hnot (mem_insertMany.mpr (.inl hvseen))
    · rw [hqueue, List.nodup_append]
      refine ⟨hnodup, nodup_map_firsts _ _ _, fun u hu u' hu' heq => ?_⟩
      obtain ⟨p, hp, rfl⟩ := List.mem_map.mp hu
      rw [← heq] at hu'
      exact hnew p.1 hu' (hseen p (List.mem_cons_of_mem _ hp))
    · exact mem_insertMany.mpr (.inl (hseen p (List.mem_cons_of_mem _ hp)))
    · exact mem_insertMany.mpr (.inr (List.mem_map_of_mem he))

omit [LawfulEqOrd α] in
theorem firsts_singleton (s : α) : firsts id ∅ [s] = [s] := by
  simp [firsts]

/-- A traversal from one vertex visits every vertex along its foremost word. -/
theorem foremost_of_mem_traverse [LT β] [IsTrans β (· < ·)]
    (hsorted : ∀ v, (next v).Pairwise fun d e => d.1 < e.1) {h : Bounded next [s]} :
    ∀ x ∈ traverse next [s] h, Foremost (Leads next s · x.vertex) x.trail.reverse := by
  refine foremost_of_mem_explore hsorted ?_
  rw [firsts_singleton]
  exact frontier_start next s

/-- Even where the edges are in no order, a traversal visits every vertex along one of the shortest
    words that lead to it. -/
theorem shortest_of_mem_traverse {h : Bounded next [s]} : ∀ x ∈ traverse next [s] h,
    Leads next s x.trail.reverse x.vertex ∧
      ∀ w, Leads next s w x.vertex → x.trail.reverse.length ≤ w.length := by
  -- if every label counts as less than every other one, then any list of edges is in order
  let _ : LT β := ⟨fun _ _ => True⟩
  have htrans : IsTrans β (· < ·) := ⟨fun _ _ _ _ _ => trivial⟩
  have hsorted : ∀ v, (next v).Pairwise fun d e => d.1 < e.1 :=
    fun v => List.pairwise_of_forall fun _ _ => trivial
  intro x hx
  have hforemost := foremost_of_mem_traverse hsorted x hx
  exact ⟨hforemost.holds, fun w hw => hforemost.length_le hw⟩

theorem nodup_vertex_traverse {h : Bounded next [s]} :
    ((traverse next [s] h).map Visit.vertex).Nodup := by
  refine nodup_vertex_explore ?_ ?_
  · rw [firsts_singleton]
    exact List.pairwise_singleton _ _
  · rw [firsts_singleton]
    intro p hp
    rw [List.mem_singleton.mp hp]
    exact OrdSet.mem_ofMembers.mpr List.mem_cons_self

end Visits

end ByteLexer.Graph
