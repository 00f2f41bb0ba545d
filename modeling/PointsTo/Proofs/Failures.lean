import PointsTo.Proofs.Sessions

/-!
# What an error leaves undone

A method is listed as reachable before its body is wired, and it is never wired again. So if a statement
fails, the ones after it are left out for good, and a run that is continued ends well without them
(`incomplete_after_error`). No other reachable method suffers: the error was that of one of the method's
own statements (`Blocked`), nothing known is lost (`Leaves`), and in the end every method is wired that
no error has blocked (`wired_or_blocked`).
-/

namespace PointsTo.Solver

variable {setup : Setup} {s t u : State}

/-- The error is met when the method is wired: at one of its statements, or at the callee of one. -/
inductive Blocked (setup : Setup) (m : MethodInstance) (e : AnalysisError) : Prop where
  | stmt (h : Fault setup (.reachable m) e)
  | call {kind : EdgeKind} {x : SiteInstance} {callee : MethodInstance}
      (h : Entails setup (.reachable m) (.call kind x callee))
      (he : Fault setup (.call kind x callee) e)

/-! ## Actions that never fail -/

section

variable {α β : Type} {x : SolveM α} {f : α → SolveM β}

/-- The action answers, whatever state it is started in. -/
def Total (x : SolveM α) : Prop := ∀ s, ∃ a t, x s = .ok a t

theorem Total.pure (a : α) : Total (pure a : SolveM α) := fun s => ⟨a, s, rfl⟩

theorem Total.bind (hx : Total x) (hf : ∀ a, Total (f a)) : Total (x >>= f) := by
  intro s
  obtain ⟨a, t, ha⟩ := hx s
  obtain ⟨b, u, hb⟩ := hf a t
  exact ⟨b, u, (bind_of_ok ha).trans hb⟩

theorem Total.forM {xs : List α} {g : α → SolveM Unit} (h : ∀ x, Total (g x)) :
    Total (xs.forM g) := by
  induction xs with
  | nil => exact Total.pure ()
  | cons x xs ih => exact (h x).bind fun _ => ih

theorem total_intern (op : Arena → Nat × Arena) : Total (intern op) := fun _ => ⟨_, _, rfl⟩

theorem total_addFlow (i j : PointerId) : Total (addFlow i j) := fun _ => ⟨(), _, rfl⟩

theorem total_connect (p q : Pointer) : Total (connect p q) :=
  (total_intern _).bind fun _ => (total_intern _).bind fun _ => total_addFlow _ _

theorem Total.ends (h : Total x) (s : State) (failed : AnalysisError → State → Prop) :
    Ends x s (fun _ _ => True) failed := by
  obtain ⟨a, t, ha⟩ := h s
  exact Ends.of_eq ha trivial

end

/-! ## Why a method cannot be wired -/

section

variable {i : CSSiteId} {j : CSMethodId} {x : SiteInstance} {m : MethodInstance}

/-- Installing a call edge fails only if the number of arguments is wrong. -/
theorem ends_connectCall_fault (hx : s.arena.site? i = some x) (hm : s.arena.method? j = some m)
    {d : Call} (hd : setup.program.stmt? x.site = some (.call d)) {method : MethodDecl}
    (hmethod : setup.program.method? m.method = some method) (kind : EdgeKind) :
    Ends (connectCall setup kind i j d) s (fun _ _ => True)
      fun e _ => Fault setup (.call kind x m) e := by
  obtain ⟨k, hk, -⟩ := Arena.site?_eq_some_iff.1 hx
  obtain ⟨l, hl, -⟩ := Arena.method?_eq_some_iff.1 hm
  unfold connectCall
  refine Ends.bind_of_eq get_eq ?_
  split
  · trivial
  refine Ends.bind_of_eq (siteOf_eq hk) ?_
  refine Ends.bind_of_eq (methodOf_eq hl) ?_
  refine Ends.bind_of_eq (known_eq hmethod) ?_
  split
  · rename_i hlen
    exact Fault.arity hd hmethod hlen
  refine Ends.bind_of_eq modify_eq (Total.ends ?_ _ _)
  refine (Total.forM fun _ => total_connect _ _).bind fun _ => ?_
  split
  · exact Total.pure ()
  · exact (total_intern _).bind fun _ => Total.forM fun _ =>
      (total_intern _).bind fun _ => total_addFlow _ _

variable {c : ContextId} {n : Nat}

theorem exists_contextId (s : State) (d : Context) : ∃ k t, contextId d s = .ok k t ∧
    s.arena.Grows t.arena ∧ t.arena.contexts.get? k = some d :=
  ⟨_, _, rfl, (s.arena.interns_internContext d).grows, s.arena.get?_internContext d⟩

theorem exists_methodId {k : ContextId} {d : Context} (hk : s.arena.contexts.get? k = some d)
    (callee : MethodId) : ∃ j t, methodId ⟨k, callee⟩ s = .ok j t ∧ s.arena.Grows t.arena ∧
      t.arena.method? j = some ⟨d, callee⟩ :=
  ⟨_, _, rfl, (Arena.interns_internMethod (m := ⟨k, callee⟩) hk).grows, Arena.method?_internMethod hk⟩

theorem exists_siteId {k : ContextId} {d : Context} (hk : s.arena.contexts.get? k = some d)
    (site : Site) : ∃ i t, siteId ⟨k, site⟩ s = .ok i t ∧ s.arena.Grows t.arena ∧
      t.arena.site? i = some ⟨d, site⟩ :=
  ⟨_, _, rfl, (Arena.interns_internSite (x := ⟨k, site⟩) hk).grows, Arena.site?_internSite hk⟩

theorem ends_callStatic_blocked (hset : setup.WellFormed)
    (hc : s.arena.contexts.get? c = some m.context) {d : Call}
    (hd : setup.program.stmt? ⟨m.method, n⟩ = some (.call d)) (hstatic : d.isStatic = true) :
    Ends (callStatic setup c ⟨m.method, n⟩ d) s (fun _ _ => True) fun e _ => Blocked setup m e := by
  unfold callStatic
  cases hr : setup.program.resolveStatic d with
  | error e => exact .stmt (.misstep hd (.dangling hstatic hr))
  | ok callee =>
    obtain ⟨method, hmethod⟩ := Program.method_of_resolveStatic hset.valid hr
    refine Ends.bind_of_eq (contextOf_eq hc) ?_
    obtain ⟨k, t, ht, hst, hk⟩ := exists_contextId s
      (setup.selector.calleeContext m.context ⟨m.method, n⟩ none callee)
    refine Ends.bind_of_eq ht ?_
    obtain ⟨j, u, hu, htu, hj⟩ := exists_methodId hk callee
    refine Ends.bind_of_eq hu ?_
    obtain ⟨i, v, hv, huv, hi⟩ := exists_siteId ((hst.trans htu).contexts _ _ hc) ⟨m.method, n⟩
    refine Ends.bind_of_eq hv ?_
    have hconnect := ends_connectCall_fault hi (huv.method? hj) hd hmethod .static
    refine hconnect.mono (fun _ _ _ => trivial) fun e _ he => ?_
    exact .call (.effect hd (.call hstatic hr)) he

theorem ends_wire_blocked (hset : setup.WellFormed)
    (hc : s.arena.contexts.get? c = some m.context) {stmt : Stmt}
    (hstmt : setup.program.stmt? ⟨m.method, n⟩ = some stmt) :
    Ends (wire setup c ⟨m.method, n⟩ stmt) s (fun _ _ => True) fun e _ => Blocked setup m e := by
  cases stmt with
  | new lhs ty =>
    have hrest (o : CSObjId) : Total (do
        let target ← pointerId (.var c lhs)
        arrive target (.singleton o)) := (total_intern _).bind fun _ _ => ⟨(), _, rfl⟩
    show Ends (allocate setup c ⟨m.method, n⟩ >>= _) s _ _
    unfold allocate
    cases ha : setup.heap.objectAt? ⟨m.method, n⟩ with
    | none => exact .stmt (.misstep hstmt (.unallocated ha))
    | some a =>
      have hobject : Total (do
          let heapContext ← contextId (setup.selector.heapContext m.context a)
          objectId ⟨heapContext, a.id⟩) := (total_intern _).bind fun _ => total_intern _
      obtain ⟨o, t, ho⟩ := hobject s
      have hallocated : (do
          let method ← contextOf c
          let heapContext ← contextId (setup.selector.heapContext method a)
          objectId ⟨heapContext, a.id⟩ : SolveM CSObjId) s = .ok o t :=
        (bind_of_ok (contextOf_eq hc)).trans ho
      exact Ends.bind_of_eq hallocated ((hrest o).ends t _)
  | copy | loadStatic | storeStatic => exact (total_connect _ _).ends s _
  | call d =>
    show Ends (if d.isStatic then callStatic setup c ⟨m.method, n⟩ d else pure ()) s _ _
    split
    · rename_i hstatic
      exact ends_callStatic_blocked hset hc hstmt hstatic
    · trivial
  | loadField | storeField | loadArray | storeArray => trivial

/-- The body of a method cannot be wired only if the method is blocked. -/
theorem ends_wireBody_blocked (hset : setup.WellFormed) (hj : s.arena.method? j = some m) :
    Ends (wireBody setup j) s (fun _ _ => True) fun e _ => Blocked setup m e := by
  obtain ⟨c, hj', hc⟩ := Arena.method?_eq_some_iff.1 hj
  refine Ends.bind_of_eq (methodOf_eq hj') ?_
  cases hd : setup.program.method? m.method with
  | none => exact .stmt (.unknownMethod hd)
  | some d =>
    refine Ends.bind_of_eq (known_eq rfl) ?_
    -- all that the later statements need of the earlier ones is that the context keeps its id
    refine (Ends.forM (I := fun t => t.arena.contexts.get? c = some m.context) hc ?_).mono
      (fun _ _ _ => trivial) fun _ _ h => h
    rintro ⟨stmt, n⟩ hy t ht
    have hstmt : setup.program.stmt? ⟨m.method, n⟩ = some stmt := by
      rw [Program.stmt?, hd]
      exact List.mem_zipIdx_iff_getElem?.1 hy
    refine ((ends_wire_blocked hset ht hstmt).and
      ((respects_wire frame_adds c ⟨m.method, n⟩ stmt).ends t)).mono ?_ fun _ _ h => h.1
    rintro - u ⟨-, hgrows, -⟩
    exact hgrows.arena.contexts _ _ ht

end

/-! ## What a rule leaves behind -/

/-- Nothing that waited is lost, and no method has become reachable. -/
structure Keeps (s t : State) : Prop where
  grows : s.Grows t
  pending : s.pending.toList ⊆ t.pending.toList
  worklist : s.worklist.toList ⊆ t.worklist.toList
  reachable : t.callGraph.reachable = s.callGraph.reachable

theorem Keeps.refl (s : State) : Keeps s s :=
  ⟨.refl s, List.Subset.refl _, List.Subset.refl _, rfl⟩

theorem Keeps.trans (h : Keeps s t) (h' : Keeps t u) : Keeps s u :=
  ⟨h.grows.trans h'.grows, List.Subset.trans h.pending h'.pending,
    List.Subset.trans h.worklist h'.worklist, h'.reachable.trans h.reachable⟩

theorem Keeps.knows (h : Keeps s t) {f : Fact} (hf : s.Knows f) : t.Knows f :=
  hf.imp h.grows.found (State.waiting_of_subset h.grows.arena h.pending h.worklist)

/-- The rules keep all this, also when they fail. -/
theorem frame_keeps : Frame fun _ => Keeps where
  refl := Keeps.refl
  trans := Keeps.trans
  mono _ h := h
  arena s _ hb _ := { Keeps.refl s with grows := { State.Grows.refl s with arena := hb } }
  arrive s i objects := by
    refine { Keeps.refl s with grows := { State.Grows.refl s with }, worklist := ?_ }
    show s.worklist.toList ⊆ (s.worklist.push ⟨i, objects⟩).toList
    rw [Worklist.toList_push]
    exact List.subset_append_left _ _
  flow s i j := { Keeps.refl s with
    grows := { State.Grows.refl s with flow := s.flow.successors_prefix_addEdge i j } }
  call s kind i j := by
    refine { Keeps.refl s with grows := (adds_addCall kind i j).1, pending := ?_, reachable := ?_ }
    · show s.pending.toList ⊆ (s.pending.push j).toList
      rw [Deque.toList_push]
      exact List.subset_append_left _ _
    · show (s.callGraph.addEdge ⟨kind, i, j⟩).reachable = s.callGraph.reachable
      rw [CallGraph.addEdge_eq]
      split <;> rfl
  miss s := { Keeps.refl s with
    grows := { State.Grows.refl s with dispatchMisses := Nat.le_succ _ } }

/-! ## What an action leaves behind -/

/-- Nothing known is lost, and a method that has become reachable is covered, unless it is excused. -/
structure Leaves (setup : Setup) (excused : MethodInstance → Prop) (s t : State) : Prop where
  grows : s.Grows t
  sound : t.Sound setup fun _ => True
  knows : ∀ f, s.Knows f → t.Knows f
  wired : ∀ m, t.Found (.reachable m) →
    s.Found (.reachable m) ∨ t.Covers setup (.reachable m) ∨ excused m

section

variable {excused : MethodInstance → Prop}

theorem Leaves.refl (hs : s.Sound setup fun _ => True) : Leaves setup excused s s :=
  ⟨.refl s, hs, fun _ h => h, fun _ h => Or.inl h⟩

theorem Leaves.trans (h : Leaves setup (fun _ => False) s t) (h' : Leaves setup excused t u) :
    Leaves setup excused s u := by
  refine ⟨h.grows.trans h'.grows, h'.sound, fun f hf => h'.knows f (h.knows f hf), ?_⟩
  intro m hm
  rcases h'.wired m hm with hm | hm
  · rcases h.wired m hm with hm | hm | hm
    · exact Or.inl hm
    · exact Or.inr (Or.inl (hm.mono h'.knows))
    · exact hm.elim
  · exact Or.inr hm

theorem Leaves.of_evolves {n : Nat} (h : Evolves setup (fun _ => True) n s t)
    (hs : s.Sound setup fun _ => True) : Leaves setup excused s t :=
  ⟨h.grows, h.sound, fun _ => h.knows, fun _ hm => Or.inl (h.found_reachable hs hm)⟩

end

/-- An action that fails leaves a state behind in which only the methods that the error blocks are not
wired. -/
def Survives {α : Type} (setup : Setup) (x : SolveM α) (s : State) : Prop :=
  Ends x s (fun _ t => Leaves setup (fun _ => False) s t)
    fun e t => Leaves setup (fun m => Blocked setup m e) s t

theorem closed_true (entries : List MethodId) : Closed setup entries fun _ => True :=
  ⟨trivial, fun _ _ => trivial, fun _ _ => trivial, fun _ _ => trivial⟩

section

variable {j : CSMethodId} {m : MethodInstance}

theorem addReachable_of_mem (hj : j ∈ s.callGraph.reachable) :
    addReachable setup j s = .ok () s := by
  have hyes : s.callGraph.reaches j = true := CallGraph.reaches_iff.2 hj
  show (if s.callGraph.reaches j then pure () else _ : SolveM Unit) s = _
  rw [hyes]
  rfl

theorem addReachable_of_not_mem (hnew : j ∉ s.callGraph.reachable) :
    addReachable setup j s = wireBody setup j (reach s j) := by
  rw [← addReachable_eq hnew]
  have hno : s.callGraph.reaches j = false :=
    Bool.eq_false_iff.2 fun hyes => hnew (CallGraph.reaches_iff.1 hyes)
  show (if s.callGraph.reaches j then pure () else _ : SolveM Unit) s = _
  rw [hno]
  rfl

/-- Whether its body can be wired or not, the method is reachable afterwards. -/
theorem ends_addReachable_leaves (hset : setup.WellFormed) (hs : s.Sound setup fun _ => True)
    (hj : s.arena.method? j = some m) :
    Ends (addReachable setup j) s
      (fun _ t => Leaves setup (fun _ => False) s t ∧ t.Found (.reachable m))
      fun e t => Leaves setup (fun n => Blocked setup n e) s t ∧ t.Found (.reachable m) := by
  by_cases hin : j ∈ s.callGraph.reachable
  · exact Ends.of_eq (addReachable_of_mem hin) ⟨.refl hs, j, hin, hj⟩
  have hends := ends_addReachable hset (closed_true []) hs hj trivial
  unfold Ends
  cases hx : addReachable setup j s with
  | ok a t =>
    obtain ⟨hext, hm, -⟩ := hends.ok_of_eq hx
    refine ⟨⟨hext.grows, hext.sound, fun _ => hext.knows, ?_⟩, hm⟩
    intro n hn
    exact (hext.found _ hn).imp id Or.inl
  | error e t =>
    have hsound := (hends.failed_of_eq hx).1
    rw [addReachable_of_not_mem hin] at hx
    have hblocked := (ends_wireBody_blocked hset (s := reach s j) hj).failed_of_eq hx
    have hkeeps := ((respects_wireBody frame_keeps j).ends (reach s j)).failed_of_eq hx
    have hreach := sound_reach hs hin hj trivial
    refine ⟨⟨grows_reach.trans hkeeps.grows, hsound, ?_, ?_⟩, ?_⟩
    · intro f hf
      exact hkeeps.knows (hf.imp grows_reach.found (State.waiting_of_eq rfl rfl rfl))
    · intro n hn
      have hn := hkeeps.grows.found_reachable hreach.wellFormed hkeeps.reachable hn
      rcases found_reach hj hn with hn | hn
      · exact Or.inl hn
      · cases hn
        exact Or.inr (Or.inr hblocked)
    · exact hkeeps.grows.found ⟨j, List.mem_append_right _ (List.mem_singleton.2 rfl), hj⟩

end

/-- However the objects of a settled arrival are met, nothing is lost and no method becomes reachable. -/
theorem leaves_settled (hs : s.Sound setup fun _ => True) {a : Arrival} {w w' : Worklist}
    (hpop : s.worklist.pop = some (a, w)) {x : PointsToSet} (h : Settles s a w x w') {l : Location}
    (hl : s.arena.location? a.pointer = some l) {stats : SolverStats}
    (hgrows : s.Grows (settled s a.pointer x w' stats)) (ht : t.Sound setup fun _ => True)
    (hkeeps : Keeps (settled s a.pointer x w' stats) t) (excused : MethodInstance → Prop) :
    Leaves setup excused s t := by
  have hw : (settled s a.pointer x w' stats).WellFormed :=
    wellFormed_settled hs.wellFormed hpop h hl
  refine ⟨hgrows.trans hkeeps.grows, ht, ?_, ?_⟩
  · rintro f (hf | hf)
    · exact hkeeps.knows (Or.inl (found_settled_of_found h hl hf))
    · exact hkeeps.knows (knows_settled hpop h hl hf)
  · intro m hm
    have hm := hkeeps.grows.found_reachable hw hkeeps.reachable hm
    exact Or.inl ((found_settled h hl hm).resolve_right nofun)

theorem ends_handle_leaves (hset : setup.WellFormed) (hs : s.Sound setup fun _ => True) {a : Arrival}
    {w : Worklist} (hpop : s.worklist.pop = some (a, w)) :
    Ends (handle setup a)
      { s with worklist := w, stats := { s.stats with arrivals := s.stats.arrivals + 1 } }
      (fun _ t => ∀ excused, Leaves setup excused s t)
      fun _ t => ∀ excused, Leaves setup excused s t := by
  have hw := hs.wellFormed
  have ha : a ∈ s.worklist.toList := (Worklist.perm_of_pop hpop).mem_iff.2 List.mem_cons_self
  obtain ⟨l, hl⟩ := hw.arena.location a.pointer (hw.worklist a ha).1
  obtain ⟨x, w', stats, hsettle, h, -, hmiss, harr, hprop⟩ := settle_eq s a w
    { s.stats with arrivals := s.stats.arrivals + 1 }
  set fresh := a.objects.diff (s.pointsTo a.pointer)
  have hsettled : (settled s a.pointer x w' stats).Sound setup fun _ => True :=
    sound_settled (closed_true []) hs hpop h hl
  have hgrows : s.Grows (settled s a.pointer x w' stats) := by
    have hcount : s.Grows
        { s with worklist := w, stats := { s.stats with arrivals := s.stats.arrivals + 1 } } :=
      { State.Grows.refl s with arrivals := Nat.le_succ _ }
    exact hcount.trans (grows_settled h hl hmiss harr hprop)
  have hxs : ∀ k ∈ fresh.toList, ∃ o, s.arena.object? k = some o ∧ True := by
    intro k hk
    obtain ⟨o, ho⟩ := hw.arena.object k ((hw.worklist a ha).2 k (IdSet.mem_diff.1 hk).1)
    exact ⟨o, ho, trivial⟩
  have hsound := Ends.mono (acts_meetAll hset (closed_true []) hsettled hl fresh.toList hxs)
    (fun _ _ h => h.1.sound) fun _ _ h => h.1
  have hkeeps := (respects_meetAll frame_keeps hset a.pointer fresh.toList).ends
    (settled s a.pointer x w' stats)
  refine Ends.bind_of_eq hsettle ((hsound.and hkeeps).mono ?_ ?_)
  · rintro - t ⟨ht, hkeeps⟩
    exact leaves_settled hs hpop h hl hgrows ht hkeeps
  · rintro - t ⟨ht, hkeeps⟩
    exact leaves_settled hs hpop h hl hgrows ht hkeeps

/-! ## Going on after an error -/

section

variable {α β : Type} {x : SolveM α} {f : α → SolveM β}

theorem Survives.throw (hs : s.Sound setup fun _ => True) (e : AnalysisError) :
    Survives setup (throw e : SolveM α) s := Leaves.refl hs

theorem Survives.pure (hs : s.Sound setup fun _ => True) (a : α) :
    Survives setup (pure a : SolveM α) s := Leaves.refl hs

theorem Survives.bind (hx : Survives setup x s)
    (hf : ∀ a t, x s = .ok a t → Leaves setup (fun _ => False) s t → Survives setup (f a) t) :
    Survives setup (x >>= f) s := by
  unfold Survives Ends at hx ⊢
  cases h : x s with
  | error e t =>
    rw [h] at hx
    rw [bind_of_error h]
    exact hx
  | ok a t =>
    rw [h] at hx
    rw [bind_of_ok h]
    exact (hf a t h hx).mono (fun _ _ => hx.trans) fun _ _ => hx.trans

end

theorem survives_advance (hset : setup.WellFormed) (hs : s.Sound setup fun _ => True) :
    Survives setup (advance setup) s := by
  have hw := hs.wellFormed
  unfold advance
  refine Ends.bind_of_eq get_eq ?_
  cases hpop : s.pending.popFront with
  | some next =>
    obtain ⟨j, pending⟩ := next
    have hlist := Deque.toList_of_popFront hpop
    have hsub : ∀ i ∈ pending.toList, i ∈ s.pending.toList := by
      intro i hi
      rw [hlist]
      exact List.mem_cons_of_mem j hi
    obtain ⟨m, hj⟩ := hw.arena.method j (hw.pending j (by
      rw [hlist]
      exact List.mem_cons_self))
    refine Ends.bind_of_eq modify_eq ?_
    have hleaves {excused : MethodInstance → Prop} (t : State)
        (h : Leaves setup excused { s with pending } t) (hm : t.Found (.reachable m)) :
        Leaves setup excused s t := by
      have hsame : s.Grows { s with pending } := { State.Grows.refl s with }
      refine ⟨hsame.trans h.grows, h.sound, ?_, fun n hn => h.wired n hn⟩
      rintro f (hf | hf)
      · exact Or.inl (h.grows.found (hsame.found hf))
      · rcases waiting_takePending hpop hj hf with hf | rfl
        · exact h.knows f (Or.inr hf)
        · exact Or.inl hm
    refine Ends.bind (ends_addReachable_leaves hset (sound_takePending hs hsub) hj) ?_ ?_
    · rintro - t ⟨h, hm⟩
      exact Ends.of_eq rfl (hleaves t h hm)
    · rintro e t ⟨h, hm⟩
      exact hleaves t h hm
  | none =>
    refine Ends.bind_of_eq get_eq ?_
    cases hpop' : s.worklist.pop with
    | some next =>
      refine Ends.bind_of_eq modify_eq ?_
      refine Ends.bind (ends_handle_leaves hset hs hpop') ?_ fun _ _ h => h _
      rintro - t h
      exact Ends.of_eq rfl (h _)
    | none => exact Ends.of_eq rfl (.refl hs)

theorem survives_run (hset : setup.WellFormed) (n : Nat) (hs : s.Sound setup fun _ => True) :
    Survives setup (run setup n) s := by
  induction n generalizing s with
  | zero => exact .throw hs _
  | succ n ih =>
    refine (survives_advance hset hs).bind fun done t _ ht => ?_
    cases done with
    | wired | handled => exact ih ht.sound
    | idle => exact .pure ht.sound _

theorem survives_step (hset : setup.WellFormed) (n : Nat) (hs : s.Sound setup fun _ => True) :
    Survives setup (step setup n) s := by
  induction n generalizing s with
  | zero => exact .throw hs _
  | succ n ih =>
    refine (survives_advance hset hs).bind fun done t _ ht => ?_
    cases done with
    | wired => exact ih ht.sound
    | handled | idle => exact .pure ht.sound _

section

variable {k : ContextId} {c : Context}

theorem survives_seedEntry (hset : setup.WellFormed) (hs : s.Sound setup fun _ => True)
    (hk : s.arena.contexts.get? k = some c) (n : MethodId) :
    Survives setup (seedEntry setup k n) s := by
  obtain ⟨j, t, ht, -, hj⟩ := exists_methodId hk n
  have hmethod := acts_methodId (m := ⟨k, n⟩) hs hk (F := fun _ => True) trivial
  have hev := (hmethod.ok_of_eq ht).1
  have hentered := sound_enter hev.sound hj trivial
  refine Ends.bind_of_eq ht (Ends.bind_of_eq modify_eq ?_)
  have hfirst : Leaves setup (fun _ => False) s (enter t j) := by
    have henter : Leaves setup (fun _ => False) t (enter t j) := by
      refine ⟨grows_enter, hentered, fun f hf => ?_, fun m hm => ?_⟩
      · exact hf.imp grows_enter.found (State.waiting_of_eq rfl rfl rfl)
      · exact Or.inl ((found_enter hj hm).resolve_right nofun)
    exact (Leaves.of_evolves hev hs).trans henter
  refine (ends_addReachable_leaves hset hentered hj).mono ?_ ?_
  · rintro - u ⟨hu, -⟩
    exact hfirst.trans hu
  · rintro e u ⟨hu, -⟩
    exact hfirst.trans hu

theorem survives_seedEntries (hset : setup.WellFormed) (hs : s.Sound setup fun _ => True)
    (hk : s.arena.contexts.get? k = some c) (ns : List MethodId) :
    Survives setup (ns.forM (seedEntry setup k)) s := by
  induction ns generalizing s with
  | nil => exact .pure hs ()
  | cons n ns ih =>
    refine (survives_seedEntry hset hs hk n).bind fun _ t _ ht => ?_
    exact ih ht.sound (ht.grows.arena.contexts _ _ hk)

end

theorem survives_seed (hset : setup.WellFormed) (hs : s.Sound setup fun _ => True)
    (entries : List MethodId) : Survives setup (seed setup entries) s := by
  unfold seed
  split
  · exact .throw hs _
  obtain ⟨k, t, ht, -, hk⟩ := exists_contextId s setup.selector.entryContext
  have hcontext := acts_contextId (c := setup.selector.entryContext) hs (F := fun _ => True) trivial
  have hev := (hcontext.ok_of_eq ht).1
  have hfirst : Leaves setup (fun _ => False) s t := .of_evolves hev hs
  refine Ends.bind_of_eq ht ?_
  exact (survives_seedEntries hset hev.sound hk entries).mono (fun _ _ => hfirst.trans)
    fun _ _ => hfirst.trans

theorem survives_perform (hset : setup.WellFormed) (hs : s.Sound setup fun _ => True) (r : Request) :
    Survives setup (r.perform setup) s := by
  cases r with
  | seed batch => exact survives_seed hset hs batch
  | step n => exact (survives_step hset n hs).bind fun _ _ _ ht => .pure ht.sound ()
  | run n => exact survives_run hset n hs

/-- Every reachable method is covered, unless one of the errors reported blocks it. -/
structure Session.Accounts (setup : Setup) (session : Session) : Prop where
  sound : session.state.Sound setup fun _ => True
  wired : ∀ m, session.state.Found (.reachable m) →
    session.state.Covers setup (.reachable m) ∨ ∃ e ∈ session.errors, Blocked setup m e

theorem Session.Accounts.ask (hset : setup.WellFormed) {session : Session}
    (h : session.Accounts setup) (r : Request) : (session.ask setup r).Accounts setup := by
  have hends := survives_perform hset h.sound r
  -- what was covered or excused before the request stays so
  have hold {excused : MethodInstance → Prop} {t : State}
      (ht : Leaves setup excused session.state t) {m : MethodInstance} (hm : t.Found (.reachable m)) :
      t.Covers setup (.reachable m) ∨ (∃ e ∈ session.errors, Blocked setup m e) ∨ excused m := by
    rcases ht.wired m hm with hm | hm | hm
    · rcases h.wired m hm with hm | hm
      · exact Or.inl (hm.mono ht.knows)
      · exact Or.inr (Or.inl hm)
    · exact Or.inl hm
    · exact Or.inr (Or.inr hm)
  unfold Session.ask
  cases hr : r.perform setup session.state with
  | ok a t =>
    have ht := hends.ok_of_eq hr
    refine ⟨ht.sound, fun m hm => ?_⟩
    exact (hold ht hm).imp id fun h => h.resolve_right id
  | error e t =>
    have ht := hends.failed_of_eq hr
    refine ⟨ht.sound, fun m hm => ?_⟩
    rcases hold ht hm with hm | ⟨e', he', hm⟩ | hm
    · exact Or.inl hm
    · exact Or.inr ⟨e', List.mem_append_left _ he', hm⟩
    · exact Or.inr ⟨e, List.mem_append_right _ (List.mem_singleton.2 rfl), hm⟩

theorem accounts_serve (hset : setup.WellFormed) (order : WorklistOrder) (rs : List Request) :
    (serve setup order rs).Accounts setup := by
  induction rs using List.reverseRecOn with
  | nil =>
    refine ⟨sound_initial (closed_true []), fun m hm => ?_⟩
    exact nomatch found_initial hm
  | append_singleton rs r ih =>
    rw [serve_concat]
    exact ih.ask hset r

/-- However often a session has met errors, if a run ends well in the end, every reachable method either
has been wired whole, or one of the errors reported was that of one of its own statements. What flows
anywhere has arrived in any case. -/
theorem wired_or_blocked {p : Program} (hp : p.validate = .ok ()) (selector : Selector)
    (order : WorklistOrder) (rs : List Request) (n : Nat) (t : State)
    (hdone : run (p.setup selector) n (serve (p.setup selector) order rs).state = .ok () t) :
    (∀ m, t.Found (.reachable m) →
      ((∀ f, Entails (p.setup selector) (.reachable m) f → t.Found f) ∧
        ∀ e, ¬Fault (p.setup selector) (.reachable m) e) ∨
      ∃ e ∈ (serve (p.setup selector) order rs).errors, Blocked (p.setup selector) m e) ∧
    ∀ l l' o, t.Found (.flow l l') → t.Found (.pointsTo l o) → t.Found (.pointsTo l' o) := by
  have hset : (p.setup selector).WellFormed := Program.wellFormed_setup hp
  have hbefore := accounts_serve hset order rs
  have hnone := ((ends_run hset (closed_true []) n hbefore.sound).ok_of_eq hdone).2
  have hfound : ∀ f, t.Knows f → t.Found f := fun f hf => hf.resolve_right (hnone f)
  -- the last run is one more request, and it has reported nothing
  have hlast := hbefore.ask hset (.run n)
  have hperform : (Request.run n).perform (p.setup selector)
      (serve (p.setup selector) order rs).state = .ok () t := hdone
  rw [Session.ask, hperform] at hlast
  constructor
  · intro m hm
    refine (hlast.wired m hm).imp ?_ id
    rintro ⟨hcovered, hfault⟩
    exact ⟨fun f hf => hfound f (hcovered f hf), hfault⟩
  · intro l l' o hl ho
    exact hfound _ (hlast.sound.flows l l' o hl ho)

/-! ## A method that stays unwired -/

namespace Sample

/-- `A.helper(); a = new A;`, where `A` has no such method -/
def dangling : Program where
  classes := #[⟨0, "A", none, [], false, false, .ofList [("void main()", 0)]⟩]
  fields := #[]
  methods := #[{
    id := 0
    owner := 0
    subsignature := "void main()"
    isStatic := true
    isAbstract := false
    this := none
    params := []
    returns := []
    body := [
      .call { mode := .static, target := ⟨0, "void helper()"⟩, receiver := none, args := [], result := none },
      .new 0 (.ofClass 0)] }]
  vars := #[⟨0, "a", 0⟩]
  entry := some 0
  rootClass := none

theorem validate_dangling : dangling.validate = .ok () := by rfl

end Sample

/-- Of the two cases the first is excluded, as the call has no target: the error that was reported is
that of the method. -/
theorem wired_or_blocked_dangling : Sample.dangling.validate = .ok () ∧
    ∃ t, run (Sample.dangling.setup .insensitive) 9
      (serve (Sample.dangling.setup .insensitive) .fifo [.seed [0]]).state = .ok () t ∧
    ∃ e ∈ (serve (Sample.dangling.setup .insensitive) .fifo [.seed [0]]).errors,
      Blocked (Sample.dangling.setup .insensitive) ⟨∅, 0⟩ e := by
  obtain ⟨⟨⟩, t, ht, hm⟩ := Ends.exists_ok (by decide +kernel :
    Ends (run (Sample.dangling.setup .insensitive) 9)
      (serve (Sample.dangling.setup .insensitive) .fifo [.seed [0]]).state
      (fun _ t => ∃ i ∈ t.callGraph.reachable, t.arena.method? i = some ⟨∅, 0⟩) fun _ _ => False)
  refine ⟨Sample.validate_dangling, t, ht, ?_⟩
  have hall := (wired_or_blocked Sample.validate_dangling .insensitive .fifo [.seed [0]] 9 t ht).1
  rcases hall ⟨∅, 0⟩ hm with ⟨-, hfault⟩ | hblocked
  · exact absurd (.misstep (i := 0) rfl (.dangling rfl rfl)) (hfault _)
  · exact hblocked

/-- A run may end well after an error though a reachable method is not wired: its allocation, which
follows the statement that failed, has no effect. -/
theorem incomplete_after_error : Sample.dangling.validate = .ok () ∧
    (serve (Sample.dangling.setup .insensitive) .fifo [.seed [0]]).errors ≠ [] ∧
    ∃ t, run (Sample.dangling.setup .insensitive) 9
      (serve (Sample.dangling.setup .insensitive) .fifo [.seed [0]]).state = .ok () t ∧
    t.Found (.reachable ⟨∅, 0⟩) ∧
    Entails (Sample.dangling.setup .insensitive) (.reachable ⟨∅, 0⟩) (.pointsTo (.var ∅ 0) ⟨∅, 0⟩) ∧
    ¬t.Found (.pointsTo (.var ∅ 0) ⟨∅, 0⟩) := by
  obtain ⟨⟨⟩, t, ht, hm, hsize⟩ := Ends.exists_ok (by decide +kernel :
    Ends (run (Sample.dangling.setup .insensitive) 9)
      (serve (Sample.dangling.setup .insensitive) .fifo [.seed [0]]).state
      (fun _ t => (∃ i ∈ t.callGraph.reachable, t.arena.method? i = some ⟨∅, 0⟩) ∧
        t.arena.pointers.size = 0) fun _ _ => False)
  refine ⟨Sample.validate_dangling, by decide +kernel, t, ht, hm, ?_, ?_⟩
  · exact .effect (i := 1) rfl (.new (a := ⟨0, ⟨0, 1⟩, .ofClass 0, 0⟩) rfl)
  · rintro ⟨i, j, hj, -⟩
    have hlt : i < t.arena.pointers.size := Arena.lt_of_mem_pointsTo hj
    rw [hsize] at hlt
    exact Nat.not_lt_zero i hlt

end PointsTo.Solver
