import ByteLexer.OrdSet

/-! # Breadth-first traversal

    A graph is given by the function that lists the labelled edges of a vertex.
    `traverse` visits every vertex that can be reached from some starts, each
    once: the starts first, then the vertices one edge away, and so on. Among
    the vertices found from one vertex the order of the edges decides.

    - **Visits.** A `Visit` keeps the vertex, the labels of a shortest way to it
      and the edges that leave it.
    - **Termination.** A traversal ends because the vertices it can meet lie in
      one finite list; `Bounded` says so. The list itself is never computed.
-/

namespace ByteLexer.Graph

open Std (TransOrd LawfulEqOrd)

variable {α β : Type} [Ord α] [TransOrd α]

/-- A visited vertex, the labels on the way to it from the last one back to the first, and
    its edges. -/
structure Visit (α β : Type) where
  vertex : α
  trail : List β
  edges : List (β × α)

/-- The vertices that can be met lie in one finite list. -/
def Bounded (next : α → List (β × α)) (starts : List α) : Prop :=
  ∃ within : List α, (∀ v ∈ starts, v ∈ within) ∧ ∀ v ∈ within, ∀ e ∈ next v, e.2 ∈ within

/-! ## The vertices not seen yet -/

/-- How many entries of a list have not been seen. -/
def unseen (within : List α) (seen : OrdSet α) : Nat :=
  within.countP (fun v => decide (v ∉ seen))

theorem mem_insertMany [LawfulEqOrd α] {seen : OrdSet α} {vs : List α} {v : α} :
    v ∈ seen.insertMany vs ↔ v ∈ seen ∨ v ∈ vs := by
  classical
  rw [Std.ExtTreeSet.mem_insertMany_list, List.contains_iff_mem]

/-- Where more has been seen, no more is unseen. -/
theorem unseen_le (within : List α) {seen seen' : OrdSet α} (h : ∀ v ∈ seen, v ∈ seen') :
    unseen within seen' ≤ unseen within seen :=
  List.countP_mono_left fun v _ hv => decide_eq_true fun hs => of_decide_eq_true hv (h v hs)

/-- Less is, if one of the vertices in question has been seen since. -/
theorem unseen_lt {within : List α} {seen seen' : OrdSet α} {v : α} (h : ∀ v ∈ seen, v ∈ seen')
    (hw : v ∈ within) (hs : v ∉ seen) (hs' : v ∈ seen') :
    unseen within seen' < unseen within seen := by
  obtain ⟨before, after, rfl⟩ := List.append_of_mem hw
  have hb := unseen_le before h
  have ha := unseen_le after h
  simp only [unseen, List.countP_append, List.countP_cons, hs, hs', not_true_eq_false,
    not_false_eq_true, decide_false, decide_true, Bool.false_eq_true, if_false, if_true]
    at hb ha ⊢
  omega

theorem unseen_insertMany_le [LawfulEqOrd α] (within : List α) (seen : OrdSet α) (vs : List α) :
    unseen within (seen.insertMany vs) ≤ unseen within seen :=
  unseen_le within fun _ hv => mem_insertMany.mpr (Or.inl hv)

theorem unseen_insertMany_lt [LawfulEqOrd α] {within : List α} {seen : OrdSet α} {vs : List α}
    {v : α} (hv : v ∈ vs) (hw : v ∈ within) (hs : v ∉ seen) :
    unseen within (seen.insertMany vs) < unseen within seen :=
  unseen_lt (fun _ hu => mem_insertMany.mpr (Or.inl hu)) hw hs (mem_insertMany.mpr (Or.inr hv))

/-! ## Traversal -/

/-- The edges that lead to vertices not seen yet, one for each. -/
def fresh (seen : OrdSet α) (edges : List (β × α)) : List (β × α) :=
  firsts Prod.snd seen edges

/-- Visits the vertices of a queue, and those found on the way. -/
def explore [LawfulEqOrd α] (next : α → List (β × α)) {within : α → Prop}
    (finite : ∃ l : List α, ∀ v, within v → v ∈ l)
    (closed : ∀ v, within v → ∀ e ∈ next v, within e.2) (seen : OrdSet α)
    (queue : List (α × List β)) (hq : ∀ p ∈ queue, within p.1) : List (Visit α β) :=
  match queue with
  | [] => []
  | (v, trail) :: rest =>
    let edges := next v
    let found := fresh seen edges
    have hfound : ∀ e ∈ found, within e.2 := fun e he =>
      closed v (hq _ List.mem_cons_self) e (mem_of_mem_firsts he)
    have hrest : ∀ p ∈ rest ++ found.map fun e => (e.2, e.1 :: trail), within p.1 := by
      intro p hp
      rcases List.mem_append.mp hp with hp | hp
      · exact hq p (List.mem_cons_of_mem _ hp)
      · obtain ⟨e, he, rfl⟩ := List.mem_map.mp hp
        exact hfound e he
    ⟨v, trail, edges⟩ ::
      explore next finite closed (seen.insertMany (found.map Prod.snd))
        (rest ++ found.map fun e => (e.2, e.1 :: trail)) hrest
termination_by (unseen finite.choose seen, queue.length)
decreasing_by
  rcases h : fresh seen (next v) with _ | ⟨e, es⟩
  -- nothing new was found, so the queue gets shorter
  · simp only [List.map_nil, List.append_nil]
    rcases Nat.lt_or_eq_of_le (unseen_insertMany_le finite.choose seen ([] : List α))
      with hlt | heq
    · exact Prod.Lex.left _ _ hlt
    · rw [heq]
      exact Prod.Lex.right _ (Nat.lt_succ_self _)
  -- a vertex was found that had not been seen
  · have he : e ∈ fresh seen (next v) := h ▸ List.mem_cons_self
    exact Prod.Lex.left _ _ (unseen_insertMany_lt (List.mem_map_of_mem List.mem_cons_self)
      (finite.choose_spec _ (hfound e he)) (key_not_mem_of_mem_firsts he))

/-- The vertices that can be reached from the starts, breadth first. -/
def traverse [LawfulEqOrd α] (next : α → List (β × α)) (starts : List α)
    (h : Bounded next starts) : List (Visit α β) :=
  have finite : ∃ l : List α, ∀ v, v ∈ h.choose → v ∈ l := ⟨h.choose, fun _ => id⟩
  explore next finite h.choose_spec.2 (OrdSet.ofMembers starts)
    ((firsts id ∅ starts).map fun v => (v, []))
    (by
      intro p hp
      obtain ⟨v, hv, rfl⟩ := List.mem_map.mp hp
      exact h.choose_spec.1 v (mem_of_mem_firsts hv))

/-! ## What is visited -/

/-- `Reachable next starts v`: some edges lead from a start to `v`. -/
inductive Reachable (next : α → List (β × α)) (starts : List α) : α → Prop
  | start {v : α} : v ∈ starts → Reachable next starts v
  | step {v : α} {e : β × α} : Reachable next starts v → e ∈ next v → Reachable next starts e.2

theorem forall_mem_explore [LawfulEqOrd α] {next : α → List (β × α)} {P : α → Prop}
    (hn : ∀ v, P v → ∀ e ∈ next v, P e.2) {within : α → Prop}
    (finite : ∃ l : List α, ∀ v, within v → v ∈ l)
    (closed : ∀ v, within v → ∀ e ∈ next v, within e.2) (seen : OrdSet α)
    (queue : List (α × List β)) (hq : ∀ p ∈ queue, within p.1) (h : ∀ p ∈ queue, P p.1) :
    ∀ x ∈ explore next finite closed seen queue hq, P x.vertex := by
  fun_induction explore next finite closed seen queue hq with
  | case1 => simp
  | case2 seen v trail rest _ edges found hfound hrest _ ih =>
    have hv : P v := h (v, trail) List.mem_cons_self
    intro x hx
    rcases List.mem_cons.mp hx with rfl | hx
    · exact hv
    · refine ih (fun p hp => ?_) x hx
      rcases List.mem_append.mp hp with hp | hp
      · exact h p (List.mem_cons_of_mem _ hp)
      · obtain ⟨e, he, rfl⟩ := List.mem_map.mp hp
        exact hn v hv e (mem_of_mem_firsts he)

/-- What holds of the starts, and along every edge, holds of every visited vertex. -/
theorem forall_mem_traverse [LawfulEqOrd α] {next : α → List (β × α)} {starts : List α}
    {h : Bounded next starts} {P : α → Prop} (hs : ∀ v ∈ starts, P v)
    (hn : ∀ v, P v → ∀ e ∈ next v, P e.2) : ∀ x ∈ traverse next starts h, P x.vertex := by
  refine forall_mem_explore hn _ _ _ _ _ fun p hp => ?_
  obtain ⟨v, hv, rfl⟩ := List.mem_map.mp hp
  exact hs v (mem_of_mem_firsts hv)

section Complete

variable [LawfulEqOrd α] {next : α → List (β × α)} {within : α → Prop}
  {finite : ∃ l : List α, ∀ v, within v → v ∈ l}
  {closed : ∀ v, within v → ∀ e ∈ next v, within e.2} {seen : OrdSet α}
  {queue : List (α × List β)} {hq : ∀ p ∈ queue, within p.1}

/-- A visit keeps the edges of its vertex. -/
theorem edges_of_mem_explore :
    ∀ x ∈ explore next finite closed seen queue hq, x.edges = next x.vertex := by
  fun_induction explore next finite closed seen queue hq with
  | case1 => simp
  | case2 seen v trail rest _ edges found hfound hrest _ ih =>
    intro x hx
    rcases List.mem_cons.mp hx with rfl | hx
    · rfl
    · exact ih x hx

/-- Whatever is in the queue is visited. -/
theorem exists_mem_explore_of_mem_queue :
    ∀ p ∈ queue, ∃ x ∈ explore next finite closed seen queue hq, x.vertex = p.1 := by
  fun_induction explore next finite closed seen queue hq with
  | case1 => simp
  | case2 seen v trail rest _ edges found hfound hrest _ ih =>
    intro p hp
    rcases List.mem_cons.mp hp with rfl | hp
    · exact ⟨_, List.mem_cons_self, rfl⟩
    · obtain ⟨x, hx, h⟩ := ih p (List.mem_append_left _ hp)
      exact ⟨x, List.mem_cons_of_mem _ hx, h⟩

/-- Whatever an edge of a visited vertex leads to had been seen before, or is visited. -/
theorem seen_or_exists_mem_explore : ∀ x ∈ explore next finite closed seen queue hq,
    ∀ e ∈ next x.vertex,
      e.2 ∈ seen ∨ ∃ y ∈ explore next finite closed seen queue hq, y.vertex = e.2 := by
  fun_induction explore next finite closed seen queue hq with
  | case1 => simp
  | case2 seen v trail rest _ edges found hfound hrest _ ih =>
    -- what the head leads to for the first time is put into the queue
    have hnew : ∀ d ∈ found, ∃ y ∈ explore next finite closed
        (seen.insertMany (found.map Prod.snd))
        (rest ++ found.map fun e => (e.2, e.1 :: trail)) hrest, y.vertex = d.2 := fun d hd =>
      exists_mem_explore_of_mem_queue (d.2, d.1 :: trail)
        (List.mem_append_right _ (List.mem_map.mpr ⟨d, hd, rfl⟩))
    intro x hx e he
    rcases List.mem_cons.mp hx with rfl | hx
    · by_cases hs : e.2 ∈ seen
      · exact Or.inl hs
      · obtain ⟨d, hd, hk⟩ : ∃ d ∈ firsts Prod.snd seen (next v), d.2 = e.2 :=
          key_mem_firsts he hs
        obtain ⟨y, hy, h⟩ := hnew d hd
        exact Or.inr ⟨y, List.mem_cons_of_mem _ hy, h.trans hk⟩
    · rcases ih x hx e he with hs | ⟨y, hy, h⟩
      · rcases mem_insertMany.mp hs with hs | hs
        · exact Or.inl hs
        · obtain ⟨d, hd, hk⟩ := List.mem_map.mp hs
          obtain ⟨y, hy, h⟩ := hnew d hd
          exact Or.inr ⟨y, List.mem_cons_of_mem _ hy, h.trans hk⟩
      · exact Or.inr ⟨y, List.mem_cons_of_mem _ hy, h⟩

end Complete

/-- A traversal visits what can be reached, and nothing else. -/
theorem exists_mem_traverse_iff [LawfulEqOrd α] {next : α → List (β × α)} {starts : List α}
    {h : Bounded next starts} {v : α} :
    (∃ x ∈ traverse next starts h, x.vertex = v) ↔ Reachable next starts v := by
  constructor
  · intro hex
    obtain ⟨x, hx, hv⟩ := hex
    rw [← hv]
    exact forall_mem_traverse (fun _ => .start) (fun _ hv _ he => .step hv he) x hx
  · have hstart : ∀ v ∈ starts, ∃ x ∈ traverse next starts h, x.vertex = v := by
      intro v hv
      obtain ⟨u, hu, huv⟩ : ∃ u ∈ firsts id ∅ starts, id u = id v := key_mem_firsts hv (by simp)
      obtain ⟨x, hx, h⟩ := exists_mem_explore_of_mem_queue (v, ([] : List β))
        (List.mem_map.mpr ⟨u, hu, by rw [show u = v from huv]⟩)
      exact ⟨x, hx, h⟩
    intro hv
    induction hv with
    | start hv => exact hstart _ hv
    | step _ he ih =>
      obtain ⟨x, hx, rfl⟩ := ih
      rcases seen_or_exists_mem_explore x hx _ he with hs | hy
      · exact hstart _ (OrdSet.mem_ofMembers.mp hs)
      · exact hy

end ByteLexer.Graph
