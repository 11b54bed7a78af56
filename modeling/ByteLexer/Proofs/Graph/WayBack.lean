import ByteLexer.Proofs.Graph.Shortlex

/-! # Searching for a vertex and walking back

    Whoever looks for one vertex need not carry the whole way to every vertex that is met. A search
    may note of each vertex where it was found from, stop as soon as the goal is in front of the
    queue, and walk back from there along the notes.

    - **Searching.** The steps of such a search, and those of the walk back.
    - **Noting.** The edges of one vertex are noted one after the other, which finds what a
      traversal finds.
    - **Agreement.** On every graph the search ends, and so does the walk back: the notes lead from
      the goal to the start, which has none. The labels on the way are the trail of the goal.
    - **One answer.** Nothing is left open, so this is the only answer.
-/

namespace ByteLexer.Graph

open Std (TransOrd LawfulEqOrd)

variable {α β : Type} [Ord α] [TransOrd α] {next : α → List (β × α)} {s goal u v : α}
  {w : List β}

/-! ## Searching -/

/-- The notes of a search: the vertex that a vertex was found from, and the label of the edge. -/
abbrev Notes (α β : Type) [Ord α] := OrdMap α (α × β)

/-- Looks along an edge of `v`. A vertex that is neither the start nor noted is noted, and put at
    the end of the queue. -/
def look (s v : α) (x : Notes α β × List α) (e : β × α) : Notes α β × List α :=
  if compare e.2 s = .eq ∨ e.2 ∈ x.1 then x else (x.1.insert e.2 (v, e.1), x.2 ++ [e.2])

/-- `Search next s goal notes queue found`: with these notes and this queue, a search from `s` ends.
    It ends with notes if it meets the goal, and with nothing if the queue runs empty. -/
inductive Search (next : α → List (β × α)) (s goal : α) :
    Notes α β → List α → Option (Notes α β) → Prop
  | missed {notes : Notes α β} : Search next s goal notes [] none
  | met {notes : Notes α β} {rest : List α} : Search next s goal notes (goal :: rest) (some notes)
  | visit {notes : Notes α β} {v : α} {rest : List α} {found : Option (Notes α β)} : v ≠ goal →
      Search next s goal ((next v).foldl (look s v) (notes, rest)).1
        ((next v).foldl (look s v) (notes, rest)).2 found →
      Search next s goal notes (v :: rest) found

/-- `WayBack notes v w u`: the notes lead from `v` back to `u`, along the labels `w`. -/
inductive WayBack (notes : Notes α β) : α → List β → α → Prop
  | nil (v : α) : WayBack notes v [] v
  | cons {v p u : α} {b : β} {w : List β} : notes[v]? = some (p, b) → WayBack notes p w u →
      WayBack notes v (b :: w) u

/-- The answer of a search for a way from `s` to a goal: none if the goal is not met, or else what
    the notes say, followed back as far as there are notes and read in the other direction. -/
inductive Answers (next : α → List (β × α)) (s goal : α) : Option (List β) → Prop
  | missed : Search next s goal ∅ [s] none → Answers next s goal none
  | met {notes : Notes α β} {w : List β} {u : α} : Search next s goal ∅ [s] (some notes) →
      WayBack notes goal w u → u ∉ notes → Answers next s goal (some w.reverse)

/-! ## Noting -/

section Noting

variable {seen : OrdSet α} {notes notes' : Notes α β} {queue : List α} {edges : List (β × α)}

/-- The notes after some vertices have been seen: of all of them, the start apart. -/
structure Noted (s : α) (seen : OrdSet α) (notes : Notes α β) : Prop where
  start : s ∉ notes
  seen : ∀ u, u ∈ seen ↔ u = s ∨ u ∈ notes

variable [LawfulEqOrd α]

/-- Along an edge to a vertex that has been seen nothing is noted. -/
theorem Noted.look_of_mem (h : Noted s seen notes) {e : β × α} (he : e.2 ∈ seen) :
    look s v (notes, queue) e = (notes, queue) := by
  have hold : compare e.2 s = .eq ∨ e.2 ∈ notes :=
    ((h.seen e.2).mp he).imp_left Std.LawfulEqCmp.compare_eq_iff_eq.mpr
  exact if_pos hold

theorem Noted.look_of_not_mem (h : Noted s seen notes) {e : β × α} (he : e.2 ∉ seen) :
    look s v (notes, queue) e = (notes.insert e.2 (v, e.1), queue ++ [e.2]) := by
  have hnew : ¬(compare e.2 s = .eq ∨ e.2 ∈ notes) := by
    rw [Std.LawfulEqCmp.compare_eq_iff_eq, ← h.seen]
    exact he
  exact if_neg hnew

/-- What is noted has been seen from then on. -/
theorem Noted.insert (h : Noted s seen notes) (hu : u ∉ seen) (origin : α × β) :
    Noted s (seen.insert u) (notes.insert u origin) where
  start := by
    have hne : u ≠ s := fun heq => hu ((h.seen u).mpr (.inl heq))
    rw [Std.ExtTreeMap.mem_insert, Std.LawfulEqCmp.compare_eq_iff_eq]
    exact fun hor => hor.elim hne h.start
  seen x := by
    rw [Std.ExtTreeSet.mem_insert, Std.ExtTreeMap.mem_insert, h.seen]
    exact or_left_comm

/-- To look along several edges is to note those that are fresh: the vertices that they lead to are
    put at the end of the queue, and earlier notes stay. -/
theorem Noted.foldl_look (h : Noted s seen notes) (v : α) (queue : List α)
    (edges : List (β × α)) :
    ∃ notes' : Notes α β,
      edges.foldl (look s v) (notes, queue) =
        (notes', queue ++ (fresh seen edges).map Prod.snd) ∧
      Noted s (seen.insertMany ((fresh seen edges).map Prod.snd)) notes' ∧
      (∀ u ∈ notes, notes'[u]? = notes[u]?) ∧
      ∀ e ∈ fresh seen edges, notes'[e.2]? = some (v, e.1) := by
  induction edges generalizing seen notes queue with
  | nil =>
    refine ⟨notes, ?_, ⟨h.start, fun u => ?_⟩, fun u _ => rfl, fun e he => ?_⟩
    · simp [fresh, firsts]
    · simpa [fresh, firsts, mem_insertMany] using h.seen u
    · simp [fresh, firsts] at he
  | cons e edges ih =>
    rw [List.foldl_cons]
    by_cases he : e.2 ∈ seen
    · have hfresh : fresh seen (e :: edges) = fresh seen edges := if_pos he
      rw [h.look_of_mem he, hfresh]
      exact ih h queue
    · have hfresh : fresh seen (e :: edges) = e :: fresh (seen.insert e.2) edges := if_neg he
      obtain ⟨notes', hfold, hnoted, hkeep, hnew⟩ :=
        ih (h.insert he (v, e.1)) (queue ++ [e.2])
      have hself : notes'[e.2]? = some (v, e.1) := by
        rw [hkeep e.2 Std.ExtTreeMap.mem_insert_self, Std.ExtTreeMap.getElem?_insert_self]
      rw [h.look_of_not_mem he, hfresh, hfold]
      refine ⟨notes', ?_, ⟨hnoted.start, fun u => ?_⟩, fun u hu => ?_, fun d hd => ?_⟩
      · simp
      · rw [← hnoted.seen]
        simp only [mem_insertMany, Std.ExtTreeSet.mem_insert, List.map_cons, List.mem_cons,
          Std.LawfulEqCmp.compare_eq_iff_eq]
        grind
      · -- a vertex that had a note is not the one that gets one now
        have hne : e.2 ≠ u := fun heq => he ((h.seen e.2).mpr (.inr (heq ▸ hu)))
        rw [hkeep u (Std.ExtTreeMap.mem_insert.mpr (.inr hu)), Std.ExtTreeMap.getElem?_insert]
        simp [hne]
      · rcases List.mem_cons.mp hd with rfl | hd
        · exact hself
        · exact hnew d hd

end Noting

/-! ## Agreement -/

section Agreement

variable {notes notes' : Notes α β}

/-- Notes that are kept lead back as before. -/
theorem WayBack.mono (h : WayBack notes v w u) (hkeep : ∀ x ∈ notes, notes'[x]? = notes[x]?) :
    WayBack notes' v w u := by
  induction h with
  | nil v => exact .nil v
  | cons hv _ ih =>
    refine .cons ?_ ih
    rw [hkeep _ (OrdMap.mem_iff_exists.mpr ⟨_, hv⟩)]
    exact hv

variable [LawfulEqOrd α] {within : α → Prop} {finite : ∃ l : List α, ∀ v, within v → v ∈ l}
  {closed : ∀ v, within v → ∀ e ∈ next v, within e.2} {seen : OrdSet α}
  {queue : List (α × List β)} {hq : ∀ p ∈ queue, within p.1}

/-- From the queue of a traversal whose vertices have been noted, a search ends like the traversal:
    with nothing if the goal is not visited, or else with notes along which the trail of the goal
    leads back to the start. -/
theorem Noted.exists_search (goal : α) (h : Noted s seen notes)
    (hback : ∀ p ∈ queue, WayBack notes p.1 p.2 s) :
    (Search next s goal notes (queue.map Prod.fst) none ∧
      ∀ x ∈ explore next finite closed seen queue hq, x.vertex ≠ goal) ∨
    ∃ notes', Search next s goal notes (queue.map Prod.fst) (some notes') ∧ s ∉ notes' ∧
      ∃ x ∈ explore next finite closed seen queue hq, x.vertex = goal ∧
        WayBack notes' goal x.trail s := by
  fun_induction explore next finite closed seen queue hq generalizing notes with
  | case1 => exact .inl ⟨.missed, by simp⟩
  | case2 seen v trail rest _ edges found hfound hrest _ =>
    rename_i ih
    rw [List.map_cons]
    by_cases hv : v = goal
    · subst hv
      exact .inr ⟨notes, .met, h.start, _, List.mem_cons_self, rfl, hback _ List.mem_cons_self⟩
    · obtain ⟨notes', hfold, hnoted, hkeep, hnew⟩ :=
        h.foldl_look v (rest.map Prod.fst) (next v)
      have hqueue : (rest ++ found.map fun e => (e.2, e.1 :: trail)).map Prod.fst =
          rest.map Prod.fst ++ found.map Prod.snd := by
        rw [List.map_append, List.map_map]
        rfl
      -- a way back from a vertex that is found goes on with that of the first one
      have hback' : ∀ p ∈ rest ++ found.map fun e => (e.2, e.1 :: trail),
          WayBack notes' p.1 p.2 s := by
        refine forall_mem_queue (fun p hp => ?_) fun e he => ?_
        · exact (hback p (List.mem_cons_of_mem _ hp)).mono hkeep
        · exact .cons (hnew e he) ((hback _ List.mem_cons_self).mono hkeep)
      have hvisit : ∀ found, Search next s goal notes'
          ((rest ++ (fresh seen (next v)).map fun e => (e.2, e.1 :: trail)).map Prod.fst) found →
          Search next s goal notes (v :: rest.map Prod.fst) found := by
        intro found hsearch
        refine .visit hv ?_
        rw [hfold]
        exact hqueue ▸ hsearch
      rcases ih hnoted hback' with ⟨hsearch, hnone⟩ | ⟨notes'', hsearch, hs, x, hx, hgoal, hway⟩
      · exact .inl ⟨hvisit _ hsearch, List.forall_mem_cons.mpr ⟨hv, hnone⟩⟩
      · exact .inr ⟨notes'', hvisit _ hsearch, hs, x, List.mem_cons_of_mem _ hx, hgoal, hway⟩

end Agreement

/-! ## One answer -/

/-- A search ends in one way only. -/
theorem Search.unique {notes : Notes α β} {queue : List α} {found found' : Option (Notes α β)}
    (h : Search next s goal notes queue found) (h' : Search next s goal notes queue found') :
    found = found' := by
  induction h with
  | missed =>
    cases h'
    rfl
  | met =>
    cases h' with
    | met => rfl
    | visit hne _ => exact absurd rfl hne
  | visit hne _ ih =>
    cases h' with
    | met => exact absurd rfl hne
    | visit _ h' => exact ih h'

/-- The walk back ends where there are no more notes, in one way only. -/
theorem WayBack.unique {notes : Notes α β} {w' : List β} {u' : α} (h : WayBack notes v w u)
    (hu : u ∉ notes) (h' : WayBack notes v w' u') (hu' : u' ∉ notes) : w = w' := by
  induction h generalizing w' with
  | nil v =>
    cases h' with
    | nil => rfl
    | cons hv _ => exact absurd (OrdMap.mem_iff_exists.mpr ⟨_, hv⟩) hu
  | cons hv _ ih =>
    cases h' with
    | nil => exact absurd (OrdMap.mem_iff_exists.mpr ⟨_, hv⟩) hu'
    | cons hv' h' =>
      rw [hv] at hv'
      obtain ⟨rfl, rfl⟩ := Prod.mk.inj (Option.some.inj hv')
      rw [ih hu h']

/-- A search and the walk back have at most one answer. -/
theorem Answers.unique {answer answer' : Option (List β)} (h : Answers next s goal answer)
    (h' : Answers next s goal answer') : answer = answer' := by
  cases h with
  | missed hsearch =>
    cases h' with
    | missed => rfl
    | met hsearch' => cases hsearch.unique hsearch'
  | met hsearch hway hu =>
    cases h' with
    | missed hsearch' => cases hsearch.unique hsearch'
    | met hsearch' hway' hu' =>
      obtain rfl := Option.some.inj (hsearch.unique hsearch')
      rw [hway.unique hu hway' hu']

/-- On every graph in which a traversal ends, so do the search and the walk back. The answer is the
    trail of the goal, if the traversal visits it. -/
theorem exists_answers [LawfulEqOrd α] (goal : α) (h : Bounded next [s]) :
    (Answers next s goal none ∧ ∀ x ∈ traverse next [s] h, x.vertex ≠ goal) ∨
    ∃ x ∈ traverse next [s] h, x.vertex = goal ∧ Answers next s goal (some x.trail.reverse) := by
  have hnoted : Noted s (OrdSet.ofMembers [s]) (∅ : Notes α β) :=
    ⟨Std.ExtTreeMap.not_mem_empty, fun u => by simp [OrdSet.mem_ofMembers]⟩
  have hback : ∀ p ∈ (firsts id ∅ [s]).map (fun v => (v, ([] : List β))),
      WayBack (∅ : Notes α β) p.1 p.2 s := by
    rw [firsts_singleton]
    intro p hp
    rw [List.mem_singleton.mp hp]
    exact .nil s
  have hsearch : (Search next s goal ∅ (((firsts id ∅ [s]).map fun v => (v, [])).map Prod.fst) none ∧
      ∀ x ∈ traverse next [s] h, x.vertex ≠ goal) ∨
      ∃ notes, Search next s goal ∅ (((firsts id ∅ [s]).map fun v => (v, [])).map Prod.fst)
        (some notes) ∧ s ∉ notes ∧
        ∃ x ∈ traverse next [s] h, x.vertex = goal ∧ WayBack notes goal x.trail s :=
    hnoted.exists_search goal hback
  rw [firsts_singleton] at hsearch
  rcases hsearch with ⟨hsearch, hnone⟩ | ⟨notes, hsearch, hs, x, hx, hgoal, hway⟩
  · exact .inl ⟨.missed hsearch, hnone⟩
  · exact .inr ⟨x, hx, hgoal, .met hsearch hway hs⟩

end ByteLexer.Graph
