import PointsTo.Proofs.Knowledge

/-!
# What the actions of a run do

`Solver.Ends` reads an action as a relation between the state it starts in and how it ends. The rules
of the analysis are built from actions that let the state evolve (`Solver.Acts`): whatever they add
belongs to a closed family `F`, and they fail only at a fault of a member of `F`. Acting is closed
under sequence (`Acts.bind`) and under loops over lists (`Acts.forM`), so one lemma for each primitive
action, below, is all that the rules need.
-/

namespace PointsTo.Solver

/-- From `s` the action answers and `ok` holds of the answer and the new state, or it fails and
`failed` holds of the error and the state left behind. -/
def Ends {α : Type} (x : SolveM α) (s : State) (ok : α → State → Prop)
    (failed : AnalysisError → State → Prop) : Prop :=
  match x s with
  | .ok a t => ok a t
  | .error e t => failed e t

section Ends

variable {α β : Type} {x : SolveM α} {f : α → SolveM β} {s t : State} {a : α}
  {ok : α → State → Prop} {failed failed' : AnalysisError → State → Prop}

theorem Ends.mono {ok' : α → State → Prop} (h : Ends x s ok failed)
    (hok : ∀ a t, ok a t → ok' a t) (hfailed : ∀ e t, failed e t → failed' e t) :
    Ends x s ok' failed' := by
  unfold Ends at h ⊢
  split at h
  · exact hok _ _ h
  · exact hfailed _ _ h

theorem Ends.and {ok' : α → State → Prop} (h : Ends x s ok failed) (h' : Ends x s ok' failed') :
    Ends x s (fun a t => ok a t ∧ ok' a t) fun e t => failed e t ∧ failed' e t := by
  unfold Ends at h h' ⊢
  split at h
  · rename_i hx
    rw [hx] at h'
    exact ⟨h, h'⟩
  · rename_i hx
    rw [hx] at h'
    exact ⟨h, h'⟩

theorem Ends.bind {ok' : β → State → Prop} (hx : Ends x s ok failed')
    (hf : ∀ a t, ok a t → Ends (f a) t ok' failed) (hfailed : ∀ e t, failed' e t → failed e t) :
    Ends (x >>= f) s ok' failed := by
  unfold Ends at hx ⊢
  show match EStateM.bind x f s with
    | .ok a t => ok' a t
    | .error e t => failed e t
  unfold EStateM.bind
  split at hx
  · rename_i hxs
    rw [hxs]
    exact hf _ _ hx
  · rename_i hxs
    rw [hxs]
    exact hfailed _ _ hx

/-- An action whose answer is known hands it on. -/
theorem Ends.bind_of_eq {ok' : β → State → Prop} (hx : x s = .ok a t)
    (hf : Ends (f a) t ok' failed) : Ends (x >>= f) s ok' failed := by
  have h : Ends x s (fun b u => b = a ∧ u = t) failed := by
    unfold Ends
    rw [hx]
    exact ⟨rfl, rfl⟩
  refine h.bind ?_ fun _ _ h => h
  rintro b u ⟨rfl, rfl⟩
  exact hf

theorem Ends.of_eq (hx : x s = .ok a t) (h : ok a t) : Ends x s ok failed := by
  unfold Ends
  rwa [hx]

/-- A loop over a list keeps what each round keeps. -/
theorem Ends.forM {xs : List α} {g : α → SolveM Unit} {I : State → Prop} (hs : I s)
    (h : ∀ x ∈ xs, ∀ t, I t → Ends (g x) t (fun _ u => I u) failed) :
    Ends (xs.forM g) s (fun _ u => I u) failed := by
  induction xs generalizing s with
  | nil => exact hs
  | cons x xs ih =>
    refine Ends.bind (h x List.mem_cons_self s hs) ?_ fun _ _ h => h
    rintro - t ht
    exact ih ht fun y hy => h y (List.mem_cons_of_mem x hy)

instance [∀ a t, Decidable (ok a t)] [∀ e t, Decidable (failed e t)] :
    Decidable (Ends x s ok failed) :=
  match h : x s with
  | .ok a t => decidable_of_iff (ok a t) (by rw [Ends, h])
  | .error e t => decidable_of_iff (failed e t) (by rw [Ends, h])

/-- An action that never fails answers. -/
theorem Ends.exists_ok (h : Ends x s ok fun _ _ => False) : ∃ a t, x s = .ok a t ∧ ok a t := by
  unfold Ends at h
  split at h
  · exact ⟨_, _, by assumption, h⟩
  · exact h.elim

/-- An action that never answers fails. -/
theorem Ends.exists_error (h : Ends x s (fun _ _ => False) failed) :
    ∃ e t, x s = .error e t ∧ failed e t := by
  unfold Ends at h
  split at h
  · exact h.elim
  · exact ⟨_, _, by assumption, h⟩

theorem exists_eq_ok (h : Ends x s (fun _ _ => True) fun _ _ => False) : ∃ a t, x s = .ok a t := by
  obtain ⟨a, t, hx, -⟩ := h.exists_ok
  exact ⟨a, t, hx⟩

theorem Ends.ok_of_eq (h : Ends x s ok failed) (hx : x s = .ok a t) : ok a t := by
  unfold Ends at h
  rwa [hx] at h

theorem Ends.failed_of_eq {e : AnalysisError} (h : Ends x s ok failed) (hx : x s = .error e t) :
    failed e t := by
  unfold Ends at h
  rwa [hx] at h

end Ends

/-! ## Looking things up -/

section

variable {s : State}

theorem get_eq : (get : SolveM State) s = .ok s s := rfl

theorem modify_eq {f : State → State} : (modify f : SolveM Unit) s = .ok () (f s) := rfl

theorem known_eq {α : Type} {o : Option α} {a : α} (h : o = some a) : known o s = .ok a s := by
  rw [h]
  rfl

theorem contextOf_eq {i : ContextId} {c : Context} (h : s.arena.contexts.get? i = some c) :
    contextOf i s = .ok c s := known_eq h

theorem objectOf_eq {i : CSObjId} {o : CSObj} (h : s.arena.objects.get? i = some o) :
    objectOf i s = .ok o s := known_eq h

theorem methodOf_eq {i : CSMethodId} {m : CSMethod} (h : s.arena.methods.get? i = some m) :
    methodOf i s = .ok m s := known_eq h

theorem siteOf_eq {i : CSSiteId} {x : CSSite} (h : s.arena.sites.get? i = some x) :
    siteOf i s = .ok x s := known_eq h

end

/-! ## Acting -/

/-- The state an action leaves behind is sound, and the error is that of a fault in `F`. -/
def Fails (setup : Setup) (F : Fact → Prop) (e : AnalysisError) (t : State) : Prop :=
  t.Sound setup F ∧ ∃ f, F f ∧ Fault setup f e

/-- From `s` the action lets the state evolve, with `misses` calls that have no target; `post` holds
of its answer and the new state, and it fails only at a fault of a member of `F`. -/
def Acts {α : Type} (setup : Setup) (F : Fact → Prop) (misses : Nat) (x : SolveM α) (s : State)
    (post : α → State → Prop) : Prop :=
  Ends x s (fun a t => Evolves setup F misses s t ∧ post a t) (Fails setup F)

section

variable {α β : Type} {setup : Setup} {F : Fact → Prop} {entries : List MethodId} {s t : State}
  {x : SolveM α} {f : α → SolveM β} {m n : Nat} {P : α → State → Prop} {Q : β → State → Prop}

theorem Acts.mono {P' : α → State → Prop} (h : Acts setup F n x s P)
    (hP : ∀ a t, Evolves setup F n s t → P a t → P' a t) : Acts setup F n x s P' :=
  Ends.mono h (fun a t h => ⟨h.1, hP a t h.1 h.2⟩) fun _ _ h => h

theorem Acts.pure {a : α} (hs : s.Sound setup F) (h : P a s) : Acts setup F 0 (pure a) s P :=
  show _ ∧ _ from ⟨.refl hs, h⟩

theorem Acts.throw {e : AnalysisError} {g : Fact} (hs : s.Sound setup F) (hg : F g)
    (he : Fault setup g e) : Acts setup F n (throw e) s P :=
  show Fails setup F e s from ⟨hs, g, hg, he⟩

theorem Acts.bind_add (hx : Acts setup F m x s P)
    (hf : ∀ a t, Evolves setup F m s t → P a t → Acts setup F n (f a) t Q) :
    Acts setup F (m + n) (x >>= f) s Q := by
  refine Ends.bind hx (fun a t h => ?_) fun _ _ h => h
  exact Ends.mono (hf a t h.1 h.2) (fun b u h' => ⟨h.1.trans h'.1, h'.2⟩) fun _ _ h' => h'

theorem Acts.bind (hx : Acts setup F 0 x s P)
    (hf : ∀ a t, Evolves setup F 0 s t → P a t → Acts setup F n (f a) t Q) :
    Acts setup F n (x >>= f) s Q :=
  Nat.zero_add n ▸ Acts.bind_add hx hf

/-- An action that answers without changing the state hands its answer on. -/
theorem Acts.bind_of_eq {a : α} (hx : x s = .ok a s) (hf : Acts setup F n (f a) s Q) :
    Acts setup F n (x >>= f) s Q := Ends.bind_of_eq hx hf

/-- A loop over a list achieves what each round achieves, if later rounds do not undo it. -/
theorem Acts.forM {xs : List α} {g : α → SolveM Unit} {k : α → Nat} {L : α → State → Prop}
    (hs : s.Sound setup F) (hL : ∀ {x t u n}, Evolves setup F n t u → L x t → L x u)
    (h : ∀ x ∈ xs, ∀ t m, Evolves setup F m s t → Acts setup F (k x) (g x) t fun _ u => L x u) :
    Acts setup F (xs.map k).sum (xs.forM g) s fun _ u => ∀ x ∈ xs, L x u := by
  induction xs generalizing s with
  | nil => exact Acts.pure hs fun x hx => absurd hx List.not_mem_nil
  | cons x xs ih =>
    rw [List.map_cons, List.sum_cons]
    refine Acts.bind_add (h x List.mem_cons_self s 0 (.refl hs)) fun _ t ht hx => ?_
    refine Acts.mono (ih ht.sound fun y hy u m hu => ?_) fun _ u hu hxs y hy => ?_
    · exact h y (List.mem_cons_of_mem x hy) u _ (ht.trans hu)
    · rcases List.mem_cons.1 hy with rfl | hy
      · exact hL hu hx
      · exact hxs y hy

/-- A loop whose rounds have no misses has none. -/
theorem Acts.forM_zero {xs : List α} {g : α → SolveM Unit} {L : α → State → Prop}
    (hs : s.Sound setup F) (hL : ∀ {x t u n}, Evolves setup F n t u → L x t → L x u)
    (h : ∀ x ∈ xs, ∀ t m, Evolves setup F m s t → Acts setup F 0 (g x) t fun _ u => L x u) :
    Acts setup F 0 (xs.forM g) s fun _ u => ∀ x ∈ xs, L x u := by
  have hsum : (xs.map fun _ => 0).sum = 0 := by
    rw [List.map_const', List.sum_replicate_nat, Nat.mul_zero]
  rw [← hsum]
  exact Acts.forM hs hL h

end

/-! ## Interning -/

section

variable {setup : Setup} {F : Fact → Prop} {s : State}

/-- Interning lets the state evolve. -/
theorem evolves_of_interns (hs : s.Sound setup F) {b : Arena} {f : Fact}
    (hb : s.arena.Interns b f) (hF : F f)
    (hheap : ∀ o, f = .object o → ∃ a, setup.heap.object? o.object = some a) :
    Evolves setup F 0 s { s with arena := b } := by
  have hw := hs.wellFormed
  have hpts : ∀ i, b.pointsTo i = s.pointsTo i := hb.pointsTo
  have hgrows : s.Grows { s with arena := b } := { State.Grows.refl s with arena := hb.grows }
  have hwait : ∀ g, s.Waiting g → { s with arena := b }.Waiting g := fun g hg =>
    State.waiting_of_subset hgrows.arena (List.Subset.refl _) (List.Subset.refl _) hg
  have hfound {g : Fact} (hg : { s with arena := b }.Found g) (hne : ¬b.Holds g) : s.Found g :=
    (State.found_of_interns hw hb hg).resolve_right fun h => hne h.2
  have hcall {kind x m} : { s with arena := b }.Found (.call kind x m) → s.Found (.call kind x m) :=
    fun h => hfound h fun h => h
  have hwell : { s with arena := b }.WellFormed := {
    arena := hb.wellFormed hw.arena
    pointsTo := fun i j hj => hb.grows.object_lt (hw.pointsTo i j (hpts i ▸ hj))
    flow := fun i j hj => ⟨hb.grows.pointer_lt (hw.flow i j hj).1, hb.grows.pointer_lt (hw.flow i j hj).2⟩
    worklist := fun a ha => ⟨hb.grows.pointer_lt (hw.worklist a ha).1,
      fun j hj => hb.grows.object_lt ((hw.worklist a ha).2 j hj)⟩
    pending := fun i hi => hb.grows.method_lt (hw.pending i hi)
    entries := fun i hi => hb.grows.method_lt (hw.entries i hi)
    reachable := fun i hi => hb.grows.method_lt (hw.reachable i hi)
    edges := fun e he => ⟨hb.grows.site_lt (hw.edges e he).1, hb.grows.method_lt (hw.edges e he).2⟩
    nodup_flow := hw.nodup_flow
    nodup_reachable := hw.nodup_reachable
    nodup_edges := hw.nodup_edges }
  refine ⟨hgrows, ⟨hwell, ?_, ?_, ?_, ?_⟩, rfl, rfl, hpts, hwait, fun _ _ _ h => Or.inl (hcall h), rfl⟩
  · intro o ho
    rcases State.found_of_interns hw hb ho with ho | ⟨ho, -⟩
    · exact hs.heap o ho
    · exact hheap o ho.symm
  · exact fun kind x m h => hs.calls kind x m (hcall h)
  · rintro g (hg | hg)
    · rcases State.found_of_interns hw hb hg with hg | ⟨rfl, -⟩
      · exact hs.knows g (Or.inl hg)
      · exact hF
    · exact hs.knows g (Or.inr (State.waiting_of_interns hw hb hg))
  · intro l l' o hl ho
    have hknown := hs.flows l l' o (hfound hl fun h => h) (hfound ho fun h => h)
    exact hknown.imp hgrows.found (hwait _)

theorem acts_intern (hs : s.Sound setup F) {op : Arena → Nat × Arena} {f : Fact}
    (hb : s.arena.Interns (op s.arena).2 f) (hF : F f)
    (hheap : ∀ o, f = .object o → ∃ a, setup.heap.object? o.object = some a) :
    Acts setup F 0 (intern op) s fun i t => i = (op s.arena).1 ∧ t.arena = (op s.arena).2 :=
  show _ ∧ _ from ⟨evolves_of_interns hs hb hF hheap, rfl, rfl⟩

theorem acts_contextId (hs : s.Sound setup F) {c : Context} (hF : F (.context c)) :
    Acts setup F 0 (contextId c) s fun i t => t.arena.contexts.get? i = some c := by
  refine Acts.mono (acts_intern hs (s.arena.interns_internContext c) hF ?_) ?_
  · exact fun o ho => nomatch ho
  · rintro i t - ⟨rfl, ht⟩
    rw [ht]
    exact s.arena.get?_internContext c

theorem acts_objectId (hs : s.Sound setup F) {o : CSObj} {c : Context}
    (hc : s.arena.contexts.get? o.heapContext = some c) (hF : F (.object ⟨c, o.object⟩))
    (ho : ∃ a, setup.heap.object? o.object = some a) :
    Acts setup F 0 (objectId o) s fun i t => t.arena.object? i = some ⟨c, o.object⟩ := by
  refine Acts.mono (acts_intern hs (Arena.interns_internObject hc) hF ?_) ?_
  · rintro o' ⟨⟩
    exact ho
  · rintro i t - ⟨rfl, ht⟩
    rw [ht]
    exact Arena.object?_internObject hc

theorem acts_methodId (hs : s.Sound setup F) {m : CSMethod} {c : Context}
    (hc : s.arena.contexts.get? m.context = some c) (hF : F (.method ⟨c, m.method⟩)) :
    Acts setup F 0 (methodId m) s fun i t => t.arena.method? i = some ⟨c, m.method⟩ := by
  refine Acts.mono (acts_intern hs (Arena.interns_internMethod hc) hF ?_) ?_
  · exact fun o ho => nomatch ho
  · rintro i t - ⟨rfl, ht⟩
    rw [ht]
    exact Arena.method?_internMethod hc

theorem acts_siteId (hs : s.Sound setup F) {x : CSSite} {c : Context}
    (hc : s.arena.contexts.get? x.context = some c) (hF : F (.site ⟨c, x.site⟩)) :
    Acts setup F 0 (siteId x) s fun i t => t.arena.site? i = some ⟨c, x.site⟩ := by
  refine Acts.mono (acts_intern hs (Arena.interns_internSite hc) hF ?_) ?_
  · exact fun o ho => nomatch ho
  · rintro i t - ⟨rfl, ht⟩
    rw [ht]
    exact Arena.site?_internSite hc

theorem acts_pointerId (hs : s.Sound setup F) {p : Pointer} {l : Location}
    (hl : s.arena.locate? p = some l) (hF : F (.location l)) :
    Acts setup F 0 (pointerId p) s fun i t => t.arena.location? i = some l := by
  refine Acts.mono (acts_intern hs (Arena.interns_internPointer hl) hF ?_) ?_
  · exact fun o ho => nomatch ho
  · rintro i t - ⟨rfl, ht⟩
    rw [ht]
    exact Arena.location?_internPointer hl

end

/-! ## Arrivals, flow edges and misses -/

section

variable {setup : Setup} {F : Fact → Prop} {entries : List MethodId} {s : State} {i j : PointerId}
  {l l' : Location}

/-- Objects that arrive at a pointer wait. -/
theorem waiting_arrive {objects : PointsToSet} (hl : s.arena.location? i = some l) {k : CSObjId}
    {o : HeapObject} (hk : k ∈ objects) (ho : s.arena.object? k = some o) :
    (s.arrive i objects).Waiting (.pointsTo l o) := by
  refine ⟨⟨i, objects⟩, ?_, hl, k, hk, ho⟩
  show _ ∈ (s.worklist.push _).toList
  rw [Worklist.toList_push]
  exact List.mem_append_right _ (List.mem_singleton.2 rfl)

/-- Arrivals let the state evolve. -/
theorem evolves_arrive (hs : s.Sound setup F) {objects : PointsToSet}
    (hl : s.arena.location? i = some l)
    (ho : ∀ k ∈ objects, ∃ o, s.arena.object? k = some o ∧ F (.pointsTo l o)) :
    Evolves setup F 0 s (s.arrive i objects) := by
  have hw := hs.wellFormed
  have hgrows : s.Grows (s.arrive i objects) := { State.Grows.refl s with }
  have hmem : (s.arrive i objects).worklist.toList = s.worklist.toList ++ [⟨i, objects⟩] :=
    Worklist.toList_push
  have hwait : ∀ f, s.Waiting f → (s.arrive i objects).Waiting f := by
    intro f hf
    refine State.waiting_of_subset hgrows.arena (List.Subset.refl _) ?_ hf
    rw [hmem]
    exact List.subset_append_left _ _
  have hwell : (s.arrive i objects).WellFormed := by
    refine { hw with worklist := ?_ }
    intro a ha
    rw [hmem, List.mem_append, List.mem_singleton] at ha
    rcases ha with ha | rfl
    · exact hw.worklist a ha
    · refine ⟨Arena.lt_of_location? hl, ?_⟩
      intro k hk
      obtain ⟨o, hko, -⟩ := ho k hk
      exact Arena.lt_of_object? hko
  have hknows : ∀ f, (s.arrive i objects).Knows f → F f := by
    rintro f (hf | hf)
    · exact hs.knows f (Or.inl (State.found_of_eq rfl rfl rfl hf))
    · cases f with
      | reachable m => exact hs.knows _ (Or.inr hf)
      | pointsTo m o =>
        obtain ⟨a, ha, hm, k, hk, hko⟩ := hf
        rw [hmem, List.mem_append, List.mem_singleton] at ha
        rcases ha with ha | rfl
        · exact hs.knows _ (Or.inr ⟨a, ha, hm, k, hk, hko⟩)
        · obtain ⟨o', hko', hF⟩ := ho k hk
          have hm' : m = l := Option.some.inj (hm.symm.trans hl)
          have ho' : o = o' := Option.some.inj (hko.symm.trans hko')
          rw [hm', ho']
          exact hF
      | _ => exact hf.elim
  have hflows : ∀ m m' o, (s.arrive i objects).Found (.flow m m') →
      (s.arrive i objects).Found (.pointsTo m o) → (s.arrive i objects).Knows (.pointsTo m' o) := by
    intro m m' o hm hp
    exact (hs.flows m m' o hm hp).imp hgrows.found (hwait _)
  exact ⟨hgrows, ⟨hwell, hs.heap, hs.calls, hknows, hflows⟩, rfl, rfl, fun _ => rfl, hwait,
    fun _ _ _ h => Or.inl h, rfl⟩

/-- A flow edge lets the state evolve once the target is known to point to what the source does. -/
theorem evolves_addEdge (hs : s.Sound setup F) (hl : s.arena.location? i = some l)
    (hl' : s.arena.location? j = some l') (hF : F (.flow l l'))
    (hknown : ∀ o, s.Found (.pointsTo l o) → s.Knows (.pointsTo l' o)) :
    Evolves setup F 0 s { s with flow := s.flow.addEdge i j } := by
  have hw := hs.wellFormed
  have hgrows : s.Grows { s with flow := s.flow.addEdge i j } :=
    { State.Grows.refl s with flow := s.flow.successors_prefix_addEdge i j }
  have hrange : ∀ p q, q ∈ (s.flow.addEdge i j).successors p →
      p < s.arena.pointers.size ∧ q < s.arena.pointers.size := by
    intro p q hq
    rcases FlowGraph.of_mem_successors_addEdge hq with hq | ⟨rfl, rfl⟩
    · exact hw.flow p q hq
    · exact ⟨Arena.lt_of_location? hl, Arena.lt_of_location? hl'⟩
  have hnodup := FlowGraph.nodup_successors_addEdge hw.nodup_flow i j
  have hflow : ∀ m m', { s with flow := s.flow.addEdge i j }.Found (.flow m m') →
      s.Found (.flow m m') ∨ m = l ∧ m' = l' := by
    rintro m m' ⟨p, q, hq, hm, hm'⟩
    rcases FlowGraph.of_mem_successors_addEdge hq with hq | ⟨rfl, rfl⟩
    · exact Or.inl ⟨p, q, hq, hm, hm'⟩
    · exact Or.inr ⟨Option.some.inj (hm.symm.trans hl), Option.some.inj (hm'.symm.trans hl')⟩
  have hknows : ∀ f, { s with flow := s.flow.addEdge i j }.Knows f → F f := by
    rintro f (hf | hf)
    · cases f with
      | flow m m' =>
        rcases hflow m m' hf with hf | ⟨rfl, rfl⟩
        · exact hs.knows _ (Or.inl hf)
        · exact hF
      | _ => exact hs.knows _ (Or.inl hf)
    · exact hs.knows f (Or.inr (State.waiting_of_eq rfl rfl rfl hf))
  have hwait : ∀ f, s.Waiting f → { s with flow := s.flow.addEdge i j }.Waiting f := fun f hf =>
    State.waiting_of_subset hgrows.arena (List.Subset.refl _) (List.Subset.refl _) hf
  refine ⟨hgrows, ⟨{ hw with flow := hrange, nodup_flow := hnodup }, hs.heap, hs.calls, hknows, ?_⟩,
    rfl, rfl, fun _ => rfl, hwait, fun _ _ _ h => Or.inl h, rfl⟩
  intro m m' o hm hp
  rcases hflow m m' hm with hm | ⟨rfl, rfl⟩
  · exact (hs.flows m m' o hm hp).imp hgrows.found (hwait _)
  · exact (hknown o hp).imp hgrows.found (hwait _)

/-- Over a new edge, what the source points to arrives before the edge counts. -/
theorem addFlow_eq (h : j ∉ s.flow.successors i) (hp : (s.pointsTo i).isEmpty = false) :
    s.addFlow i j = { s.arrive j (s.pointsTo i) with flow := s.flow.addEdge i j } := by
  have hedge : s.flow.hasEdge i j = false := by
    rw [Bool.eq_false_iff]
    exact fun he => h (FlowGraph.hasEdge_iff.1 he)
  simp only [State.addFlow, hedge, hp]
  rfl

theorem acts_addFlow (hF : Closed setup entries F) (hs : s.Sound setup F)
    (hl : s.arena.location? i = some l) (hl' : s.arena.location? j = some l')
    (hfl : F (.flow l l')) :
    Acts setup F 0 (addFlow i j) s fun _ t => t.Knows (.flow l l') := by
  show Evolves setup F 0 s (s.addFlow i j) ∧ (s.addFlow i j).Knows (.flow l l')
  have hknown : ∀ k ∈ s.pointsTo i, ∃ o, s.arena.object? k = some o ∧ F (.pointsTo l' o) := by
    intro k hk
    obtain ⟨o, ho⟩ := hs.wellFormed.arena.object k (hs.wellFormed.pointsTo i k hk)
    exact ⟨o, ho, hF.flow hfl (hs.knows _ (Or.inl ⟨i, k, hk, hl, ho⟩))⟩
  have hsource : ∀ o, s.Found (.pointsTo l o) → ∃ k ∈ s.pointsTo i, s.arena.object? k = some o :=
    fun o ho => State.exists_mem_pointsTo_of_found hl ho
  -- the edge is there, or it is added after what the source points to has been sent along
  by_cases h : j ∈ s.flow.successors i
  · have heq : s.addFlow i j = s := if_pos (FlowGraph.hasEdge_iff.2 h)
    rw [heq]
    exact ⟨.refl hs, Or.inl ⟨i, j, h, hl, hl'⟩⟩
  · have hnew : j ∈ (s.flow.addEdge i j).successors i := FlowGraph.mem_successors_addEdge
    by_cases hp : (s.pointsTo i).isEmpty = true
    · have heq : s.addFlow i j = { s with flow := s.flow.addEdge i j } := by
        rw [State.addFlow, if_neg fun he => h (FlowGraph.hasEdge_iff.1 he)]
        exact if_pos hp
      rw [heq]
      refine ⟨evolves_addEdge hs hl hl' hfl ?_, Or.inl ⟨i, j, hnew, hl, hl'⟩⟩
      intro o ho
      obtain ⟨k, hk, -⟩ := hsource o ho
      exact absurd hk (IdSet.isEmpty_iff.1 hp k)
    · rw [addFlow_eq h (Bool.eq_false_iff.2 hp)]
      have ha := evolves_arrive hs hl' hknown
      refine ⟨ha.trans (evolves_addEdge ha.sound hl hl' hfl ?_), Or.inl ⟨i, j, hnew, hl, hl'⟩⟩
      intro o ho
      obtain ⟨k, hk, hko⟩ := hsource o ho
      exact Or.inr (waiting_arrive hl' hk hko)

theorem acts_connect (hF : Closed setup entries F) (hs : s.Sound setup F) {p q : Pointer}
    (hp : s.arena.locate? p = some l) (hq : s.arena.locate? q = some l') (hfl : F (.flow l l')) :
    Acts setup F 0 (connect p q) s fun _ t => t.Knows (.flow l l') := by
  refine Acts.bind (acts_pointerId hs hp (hF.rule .source hfl)) ?_
  intro i t ht hi
  have hq := ht.grows.arena.locate? hq
  refine Acts.bind (acts_pointerId ht.sound hq (hF.rule .target hfl)) ?_
  intro j u hu hj
  exact acts_addFlow hF hu.sound (hu.grows.arena.location? hi) hj hfl

theorem acts_arrive (hs : s.Sound setup F) {k : CSObjId} {o : HeapObject}
    (hl : s.arena.location? i = some l) (ho : s.arena.object? k = some o) (hF : F (.pointsTo l o)) :
    Acts setup F 0 (arrive i (.singleton k)) s fun _ t => t.Knows (.pointsTo l o) := by
  show _ ∧ _
  refine ⟨evolves_arrive hs hl ?_, Or.inr (waiting_arrive hl (IdSet.mem_singleton.2 rfl) ho)⟩
  intro k' hk'
  rw [IdSet.mem_singleton.1 hk']
  exact ⟨o, ho, hF⟩

theorem evolves_countMiss (hs : s.Sound setup F) : Evolves setup F 1 s s.countMiss := by
  have hw := hs.wellFormed
  have hgrows : s.Grows s.countMiss :=
    { State.Grows.refl s with dispatchMisses := Nat.le_succ _ }
  have hwait : ∀ f, s.Waiting f → s.countMiss.Waiting f := fun f hf =>
    State.waiting_of_subset hgrows.arena (List.Subset.refl _) (List.Subset.refl _) hf
  have hknows : ∀ f, s.countMiss.Knows f → F f := by
    rintro f (hf | hf)
    · exact hs.knows f (Or.inl (State.found_of_eq rfl rfl rfl hf))
    · exact hs.knows f (Or.inr (State.waiting_of_eq rfl rfl rfl hf))
  refine ⟨hgrows, ⟨{ hw with }, hs.heap, hs.calls, hknows, ?_⟩, rfl, rfl, fun _ => rfl, hwait,
    fun _ _ _ h => Or.inl h, rfl⟩
  intro m m' o hm hp
  exact (hs.flows m m' o hm hp).imp hgrows.found (hwait _)

end

/-! ## New call edges -/

section

variable {setup : Setup} {F : Fact → Prop} {s : State} {i : CSSiteId} {j : CSMethodId}
  {kind : EdgeKind} {x : SiteInstance} {m : MethodInstance}

theorem addCall_eq (hnew : s.callGraph.hasEdge i j = false) :
    s.addCall kind i j = { s with
      callGraph := s.callGraph.withEdge ⟨kind, i, j⟩
      pending := s.pending.push j } := by
  rw [State.addCall, CallGraph.addEdge_eq, if_neg (Bool.eq_false_iff.1 hnew)]

theorem grows_addCall (hnew : s.callGraph.hasEdge i j = false) : s.Grows (s.addCall kind i j) := by
  rw [addCall_eq hnew]
  exact { State.Grows.refl s with edges := List.prefix_append _ _ }

theorem waits_addCall (hnew : s.callGraph.hasEdge i j = false) {f : Fact} (hf : s.Waiting f) :
    (s.addCall kind i j).Waiting f := by
  refine State.waiting_of_subset (grows_addCall hnew).arena ?_ (List.Subset.refl _) hf
  show s.pending.toList ⊆ (s.pending.push j).toList
  rw [Deque.toList_push]
  exact List.subset_append_left _ _

theorem mem_edges_addCall (hnew : s.callGraph.hasEdge i j = false) :
    ⟨kind, i, j⟩ ∈ (s.addCall kind i j).callGraph.edges := by
  rw [addCall_eq hnew]
  exact List.mem_append_right _ (List.mem_singleton.2 rfl)

/-- The callee of a new edge waits. -/
theorem waiting_callee (hnew : s.callGraph.hasEdge i j = false) (hm : s.arena.method? j = some m) :
    (s.addCall kind i j).Waiting (.reachable m) := by
  refine ⟨j, ?_, (grows_addCall hnew).arena.method? hm⟩
  show j ∈ (s.pending.push j).toList
  rw [Deque.toList_push]
  exact List.mem_append_right _ (List.mem_singleton.2 rfl)

/-- Only the new edge is found besides what was found before. -/
theorem found_addCall (hnew : s.callGraph.hasEdge i j = false) (hx : s.arena.site? i = some x)
    (hm : s.arena.method? j = some m) {f : Fact} (hf : (s.addCall kind i j).Found f) :
    s.Found f ∨ f = .call kind x m := by
  rw [addCall_eq hnew] at hf
  cases f with
  | call k y n =>
    obtain ⟨e, he, rfl, hy, hn⟩ := hf
    rcases List.mem_append.1 he with he | he
    · exact Or.inl ⟨e, he, rfl, hy, hn⟩
    · obtain rfl := List.mem_singleton.1 he
      have hyx : y = x := Option.some.inj (hy.symm.trans hx)
      have hnm : n = m := Option.some.inj (hn.symm.trans hm)
      exact Or.inr (by rw [hyx, hnm])
  | _ => exact Or.inl hf

/-- Only the callee waits besides what waited before. -/
theorem waiting_addCall (hnew : s.callGraph.hasEdge i j = false) (hm : s.arena.method? j = some m)
    {f : Fact} (hf : (s.addCall kind i j).Waiting f) : s.Waiting f ∨ f = .reachable m := by
  rw [addCall_eq hnew] at hf
  cases f with
  | reachable n =>
    obtain ⟨k, hk, hn⟩ := hf
    have hk : k ∈ (s.pending.push j).toList := hk
    rw [Deque.toList_push, List.mem_append, List.mem_singleton] at hk
    rcases hk with hk | rfl
    · exact Or.inl ⟨k, hk, hn⟩
    · have hnm : n = m := Option.some.inj (hn.symm.trans hm)
      exact Or.inr (by rw [hnm])
  | pointsTo l o => exact Or.inl hf
  | _ => exact hf.elim

theorem wellFormed_addCall (hw : s.WellFormed) (hnew : s.callGraph.hasEdge i j = false)
    (hx : s.arena.site? i = some x) (hm : s.arena.method? j = some m) :
    (s.addCall kind i j).WellFormed := by
  have hsites : ∀ e ∈ s.callGraph.edges, (e.site, e.callee) ≠ (i, j) := by
    intro e he heq
    have hedge : s.callGraph.hasEdge i j = true := by
      rw [CallGraph.hasEdge_iff]
      exact ⟨e, he, by simpa using heq⟩
    rw [hedge] at hnew
    cases hnew
  rw [addCall_eq hnew]
  refine { hw with pending := ?_, edges := ?_, nodup_edges := ?_ }
  · intro k hk
    have hk : k ∈ (s.pending.push j).toList := hk
    rw [Deque.toList_push, List.mem_append, List.mem_singleton] at hk
    rcases hk with hk | rfl
    · exact hw.pending k hk
    · exact Arena.lt_of_method? hm
  · intro e he
    rcases List.mem_append.1 he with he | he
    · exact hw.edges e he
    · obtain rfl := List.mem_singleton.1 he
      exact ⟨Arena.lt_of_site? hx, Arena.lt_of_method? hm⟩
  · rw [CallGraph.edges_withEdge, List.map_append, List.nodup_append]
    refine ⟨hw.nodup_edges, List.pairwise_singleton _ _, ?_⟩
    intro a ha b hb hab
    obtain ⟨e, he, rfl⟩ := List.mem_map.1 ha
    rw [List.mem_singleton.1 hb] at hab
    exact hsites e he hab

theorem sound_addCall (hs : s.Sound setup F) (hnew : s.callGraph.hasEdge i j = false)
    (hx : s.arena.site? i = some x) (hm : s.arena.method? j = some m) {d : Call}
    (hd : setup.program.stmt? x.site = some (.call d)) (hcall : F (.call (.ofMode d.mode) x m))
    (hreach : F (.reachable m)) : (s.addCall (.ofMode d.mode) i j).Sound setup F := by
  have hgrows : s.Grows (s.addCall (.ofMode d.mode) i j) := grows_addCall hnew
  have hfound {f : Fact} (hf : (s.addCall (.ofMode d.mode) i j).Found f) :=
    found_addCall hnew hx hm hf
  refine ⟨wellFormed_addCall hs.wellFormed hnew hx hm, ?_, ?_, ?_, ?_⟩
  · intro o ho
    exact hs.heap o ((hfound ho).resolve_right (by simp))
  · intro k y n hc
    rcases hfound hc with hc | hc
    · exact hs.calls k y n hc
    · cases hc
      exact ⟨d, hd, rfl⟩
  · rintro f (hf | hf)
    · rcases hfound hf with hf | rfl
      · exact hs.knows f (Or.inl hf)
      · exact hcall
    · rcases waiting_addCall hnew hm hf with hf | rfl
      · exact hs.knows f (Or.inr hf)
      · exact hreach
  · intro l l' o hl ho
    have hl := (hfound hl).resolve_right (by simp)
    have ho := (hfound ho).resolve_right (by simp)
    exact (hs.flows l l' o hl ho).imp hgrows.found (waits_addCall hnew)

/-- A new call edge counts once it is covered. -/
theorem evolves_addCall {t : State} (hnew : s.callGraph.hasEdge i j = false)
    (hx : s.arena.site? i = some x) (hm : s.arena.method? j = some m)
    (ht : Evolves setup F 0 (s.addCall kind i j) t)
    (hall : t.Covers setup (.call kind x m)) : Evolves setup F 0 s t where
  grows := (grows_addCall hnew).trans ht.grows
  sound := ht.sound
  entries := by rw [ht.entries, addCall_eq hnew, CallGraph.entries_withEdge]
  reachable := by rw [ht.reachable, addCall_eq hnew, CallGraph.reachable_withEdge]
  pointsTo := ht.pointsTo
  waiting f hf := ht.waiting f (waits_addCall hnew hf)
  calls k y n hc := by
    rcases ht.calls k y n hc with hc | hc
    · rcases found_addCall hnew hx hm hc with hc | hc
      · exact Or.inl hc
      · cases hc
        exact Or.inr hall
    · exact Or.inr hc
  misses_eq := ht.misses_eq

end

end PointsTo.Solver
