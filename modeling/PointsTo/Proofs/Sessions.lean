import PointsTo.Collection.Distinct
import PointsTo.Proofs.OrderIndependence
import PointsTo.Proofs.Workload

/-!
# Sessions

A solver can be asked to do a little at a time: entries may be added when others have been followed
half the way, or when nothing was left to do, or when calls have reached them already. A session without
an error keeps its state `Resumable`, that is, ready to be continued as if all its entries had been there
from the start. Hence what it finds in the end is what one run on all entries finds
(`serve_equiv_solve`).
-/

namespace PointsTo

/-- The instances that entries are made reachable as. -/
def Setup.instances (setup : Setup) (entries : List MethodId) : List MethodInstance :=
  entries.map (MethodInstance.mk setup.selector.entryContext)

/-- The entries of a state, in the order in which they were added. -/
def State.entryInstances (s : State) : List MethodInstance :=
  s.callGraph.entries.filterMap s.arena.method?

namespace Solver

/-- What a solver can be asked to do. -/
inductive Request where
  | seed (batch : List MethodId)
  | step (fuel : Nat)
  | run (fuel : Nat)

/-- Do what is asked for. -/
def Request.perform (setup : Setup) : Request → SolveM Unit
  | .seed batch => Solver.seed setup batch
  | .step n => do
    let _ ← Solver.step setup n
    pure ()
  | .run n => Solver.run setup n

/-- The entries that a request adds. -/
def Request.batch : Request → List MethodId
  | .seed batch => batch
  | .step _ | .run _ => []

/-- A solver in use: its state, and the errors that it has reported. -/
structure Session where
  state : State
  errors : List AnalysisError

/-- After an error the session goes on with the state left behind. -/
def Session.ask (setup : Setup) (session : Session) (r : Request) : Session :=
  match r.perform setup session.state with
  | .ok _ t => { session with state := t }
  | .error e t => ⟨t, session.errors ++ [e]⟩

/-- A new solver is asked for one thing after the other. -/
def serve (setup : Setup) (order : WorklistOrder) (rs : List Request) : Session :=
  rs.foldl (Session.ask setup) ⟨.initial order, []⟩

/-- All entries that were asked for, in their order. -/
def requested (rs : List Request) : List MethodId := rs.flatMap (·.batch)

variable {setup : Setup} {entries : List MethodId} {F : Fact → Prop} {s t : State}
  {order : WorklistOrder}

theorem Ends.answered {α : Type} {x : SolveM α} {ok : α → State → Prop}
    {failed : AnalysisError → State → Prop} (h : Ends x s ok failed) :
    Ends x s ok fun _ _ => True := h.mono (fun _ _ h => h) fun _ _ _ => trivial

/-! ## Entries stay in their order -/

section

variable {j : CSMethodId} {m : MethodInstance}

/-- That no entry is added is kept by runs. -/
theorem runFrame_entries : RunFrame fun s t => t.callGraph.entries = s.callGraph.entries where
  refl _ := rfl
  trans h h' := h'.trans h
  mono _ h := h
  arena _ _ _ _ := rfl
  arrive _ _ _ := rfl
  flow _ _ _ := rfl
  call s kind i j := by
    show (s.callGraph.addEdge ⟨kind, i, j⟩).entries = s.callGraph.entries
    rw [CallGraph.addEdge_eq]
    split <;> rfl
  miss _ := rfl
  reach s j := by
    show (s.callGraph.addReachable j).entries = s.callGraph.entries
    rw [CallGraph.addReachable_eq]
    split <;> rfl
  spread s i fresh := by
    obtain ⟨w, hw, -⟩ := spread_eq s i fresh
    rw [hw]
  pending _ _ := rfl
  worklist _ _ := rfl

theorem entryInstances_eq (hs : s.WellFormed) (ha : s.arena.Grows t.arena)
    (he : t.callGraph.entries = s.callGraph.entries) : t.entryInstances = s.entryInstances := by
  rw [State.entryInstances, State.entryInstances, he]
  refine List.filterMap_congr fun i hi => ?_
  obtain ⟨m, hm⟩ := hs.arena.method i (hs.entries i hi)
  rw [hm, ha.method? hm]

/-- Entering a method adds what it stands for. -/
theorem entryInstances_enter (hj : s.arena.method? j = some m) :
    (enter s j).entryInstances = insertNew s.entryInstances m := by
  have hmem : m ∈ s.entryInstances ↔ j ∈ s.callGraph.entries := by
    rw [State.entryInstances, List.mem_filterMap]
    constructor
    · rintro ⟨i, hi, him⟩
      rwa [Arena.eq_of_method? him hj] at hi
    · exact fun hjs => ⟨j, hjs, hj⟩
  show (s.callGraph.addEntry j).entries.filterMap s.arena.method? = _
  by_cases h : j ∈ s.callGraph.entries
  · rw [CallGraph.addEntry, if_pos h, insertNew, if_pos (hmem.2 h)]
    rfl
  · rw [CallGraph.addEntry, if_neg h, insertNew, if_neg fun hm => h (hmem.1 hm),
      List.filterMap_append, List.filterMap_cons_some hj]
    rfl

theorem ends_seedEntry_entries (hset : setup.WellFormed) (hF : Closed setup entries F)
    (hs : s.Sound setup F) {k : ContextId} {c : Context} (hk : s.arena.contexts.get? k = some c)
    {n : MethodId} (hm : F (.entry ⟨c, n⟩)) :
    Ends (seedEntry setup k n) s
      (fun _ t => t.entryInstances = insertNew s.entryInstances ⟨c, n⟩) fun _ _ => True := by
  have hr := hF.rule .entry hm
  refine Ends.bind (acts_methodId hs hk (hF.rule .occurs hr)) ?_ fun _ _ _ => trivial
  rintro j t ⟨ht, hj⟩
  refine Ends.bind_of_eq modify_eq ?_
  have hentered := sound_enter ht.sound hj hm
  have hkeeps : Respects (fun _ s t => t.callGraph.entries = s.callGraph.entries) _
      (addReachable setup j) := respects_addReachable runFrame_entries.toFrame runFrame_entries.reach j
  refine Ends.mono ((ends_addReachable hset hF hentered hj hr).answered.and
    (hkeeps.ends (enter t j)).answered) ?_ fun _ _ _ => trivial
  rintro - u ⟨⟨hext, -, -⟩, hentries⟩
  rw [entryInstances_eq hentered.wellFormed hext.grows.arena hentries, entryInstances_enter hj,
    entryInstances_eq hs.wellFormed ht.grows.arena ht.entries]

theorem ends_seedEntries_entries (hset : setup.WellFormed) (hF : Closed setup entries F)
    (hs : s.Sound setup F) {k : ContextId} {c : Context} (hk : s.arena.contexts.get? k = some c)
    (ns : List MethodId) (hns : ∀ n ∈ ns, F (.entry ⟨c, n⟩)) :
    Ends (ns.forM (seedEntry setup k)) s
      (fun _ t => t.entryInstances =
        (ns.map (MethodInstance.mk c)).foldl insertNew s.entryInstances)
      fun _ _ => True := by
  induction ns generalizing s with
  | nil => exact Ends.of_eq rfl rfl
  | cons n ns ih =>
    have hn := hns n List.mem_cons_self
    refine Ends.bind ((ends_seedEntry hset hF hs hk hn).answered.and
      (ends_seedEntry_entries hset hF hs hk hn)) ?_ fun _ _ _ => trivial
    rintro - t ⟨⟨ht, -⟩, hlist⟩
    have hk' := ht.grows.arena.contexts _ _ hk
    refine Ends.mono (ih ht.sound hk' fun n' hn' => hns n' (List.mem_cons_of_mem n hn')) ?_
      fun _ _ h => h
    rintro - u hu
    rw [hu, hlist, List.map_cons, List.foldl_cons]

theorem ends_seed_entries (hset : setup.WellFormed) (hF : Closed setup entries F)
    (hs : s.Sound setup F) (hne : entries ≠ []) :
    Ends (seed setup entries) s
      (fun _ t => t.entryInstances = (setup.instances entries).foldl insertNew s.entryInstances)
      fun _ _ => True := by
  obtain ⟨n, hn⟩ := List.exists_mem_of_ne_nil entries hne
  have hc := hF.rule .methodContext (hF.rule .occurs (hF.rule .entry (hF.entry n hn)))
  unfold seed
  rw [if_neg (by simpa using hne)]
  refine Ends.bind (acts_contextId hs hc) ?_ fun _ _ _ => trivial
  rintro k t ⟨ht, hk⟩
  refine Ends.mono (ends_seedEntries_entries hset hF ht.sound hk entries hF.entry) ?_ fun _ _ h => h
  rintro - u hu
  rw [hu, entryInstances_eq hs.wellFormed ht.grows.arena ht.entries]
  rfl

end

/-! ## What a session keeps -/

theorem serve_concat (rs : List Request) (r : Request) :
    serve setup order (rs ++ [r]) = (serve setup order rs).ask setup r := by
  rw [serve, List.foldl_append]
  rfl

theorem requested_concat (rs : List Request) (r : Request) :
    requested (rs ++ [r]) = requested rs ++ r.batch := by
  rw [requested, List.flatMap_append, List.flatMap_singleton]
  rfl

/-- A request that is answered without an error leaves the session without one only if it had none. -/
theorem ask_of_errors {session : Session} {r : Request} (h : (session.ask setup r).errors = []) :
    session.errors = [] ∧ r.perform setup session.state = .ok () (session.ask setup r).state := by
  unfold Session.ask at h ⊢
  cases hr : r.perform setup session.state with
  | ok a t =>
    rw [hr] at h
    exact ⟨h, rfl⟩
  | error e t =>
    rw [hr] at h
    exact absurd h (List.append_ne_nil_of_right_ne_nil _ (List.cons_ne_nil e []))

/-- The state can be continued as if the entries had been there from the start. -/
structure Resumable (setup : Setup) (entries : List MethodId) (s : State) : Prop where
  sound : ∀ F, Closed setup entries F → s.Sound setup F
  wired : s.Wired setup
  counted : s.Counted setup
  empty : s.Found (.context ∅)
  entered : ∀ n ∈ entries, s.Found (.entry ⟨setup.selector.entryContext, n⟩)
  listed : s.entryInstances = (setup.instances entries).foldl insertNew []

theorem resumable_initial : Resumable setup [] (.initial order) where
  sound _ hF := sound_initial hF
  wired := wired_initial
  counted := counted_initial
  empty := ⟨0, rfl⟩
  entered _ hn := absurd hn List.not_mem_nil
  listed := rfl

/-- A request advances the state, and its entries are added to those that are there. -/
theorem ends_perform (hset : setup.WellFormed) (r : Request) (hF : Closed setup r.batch F)
    (hs : s.Sound setup F) :
    Ends (r.perform setup) s
      (fun _ t => Advances setup F s t ∧
        (∀ n ∈ r.batch, t.Found (.entry ⟨setup.selector.entryContext, n⟩)) ∧
        t.entryInstances = (setup.instances r.batch).foldl insertNew s.entryInstances)
      fun _ _ => True := by
  -- steps and runs add no entry, and the others stay as they are
  have hkeeps {t : State} (hadv : Advances setup F s t)
      (he : t.callGraph.entries = s.callGraph.entries) :
      Advances setup F s t ∧
        (∀ n ∈ ([] : List MethodId), t.Found (.entry ⟨setup.selector.entryContext, n⟩)) ∧
        t.entryInstances = (setup.instances []).foldl insertNew s.entryInstances :=
    ⟨hadv, fun _ hn => absurd hn List.not_mem_nil,
      entryInstances_eq hs.wellFormed hadv.grows.arena he⟩
  cases r with
  | seed batch =>
    by_cases hne : batch = []
    · subst hne
      trivial
    · refine Ends.mono ((ends_seed hset hF hs hne).answered.and (ends_seed_entries hset hF hs hne))
        ?_ fun _ _ _ => trivial
      rintro - t ⟨⟨hadv, hentries⟩, hlist⟩
      exact ⟨hadv, hentries, hlist⟩
  | step n =>
    refine Ends.bind ((ends_step hset hF n hs).answered.and
      ((respects_step runFrame_entries hset n).ends s).answered) ?_ fun _ _ _ => trivial
    rintro _ t ⟨⟨hadv, -⟩, he⟩
    exact Ends.of_eq rfl (hkeeps hadv he)
  | run n =>
    refine Ends.mono ((ends_run hset hF n hs).answered.and
      ((respects_run runFrame_entries hset n).ends s).answered) ?_ fun _ _ _ => trivial
    rintro - t ⟨⟨hadv, -⟩, he⟩
    exact hkeeps hadv he

theorem Resumable.perform (hset : setup.WellFormed) (h : Resumable setup entries s) {r : Request}
    (hr : r.perform setup s = .ok () t) : Resumable setup (entries ++ r.batch) t := by
  have hends : ∀ F, Closed setup (entries ++ r.batch) F → Advances setup F s t ∧
      (∀ n ∈ r.batch, t.Found (.entry ⟨setup.selector.entryContext, n⟩)) ∧
      t.entryInstances = (setup.instances r.batch).foldl insertNew s.entryInstances := by
    intro F hF
    have hs := h.sound F (hF.of_subset (List.subset_append_left _ _))
    have hbatch : Closed setup r.batch F := hF.of_subset (List.subset_append_right _ _)
    exact (ends_perform hset r hbatch hs).ok_of_eq hr
  obtain ⟨hadv, hnew, hlist⟩ := hends _ closed_derivable
  refine ⟨fun F hF => (hends F hF).1.sound, hadv.wired h.wired, hadv.counted h.counted,
    hadv.grows.found h.empty, ?_, ?_⟩
  · intro n hn
    rcases List.mem_append.1 hn with hn | hn
    · exact hadv.grows.found (h.entered n hn)
    · exact hnew n hn
  · rw [hlist, h.listed, Setup.instances, Setup.instances, Setup.instances, List.map_append,
      List.foldl_append]

/-- A session without an error can be continued, and no batch in it was empty. -/
theorem resumable_serve (hset : setup.WellFormed) (rs : List Request)
    (h : (serve setup order rs).errors = []) :
    Resumable setup (requested rs) (serve setup order rs).state ∧ Request.seed [] ∉ rs := by
  induction rs using List.reverseRecOn with
  | nil => exact ⟨resumable_initial, List.not_mem_nil⟩
  | append_singleton rs r ih =>
    rw [serve_concat] at h ⊢
    obtain ⟨hold, hr⟩ := ask_of_errors h
    obtain ⟨hres, hmem⟩ := ih hold
    rw [requested_concat]
    refine ⟨hres.perform hset hr, ?_⟩
    intro hin
    rcases List.mem_append.1 hin with hin | hin
    · exact hmem hin
    · obtain rfl := List.mem_singleton.1 hin
      cases hr

/-- What a state finds that can be continued and in which nothing waits misses nothing, and all of it is
derivable. -/
theorem Resumable.found_iff (h : Resumable setup entries s) (hnone : ∀ f, ¬s.Waiting f) :
    Complete setup entries s.Found ∧ ∀ f, s.Found f ↔ Derivable setup entries f := by
  have hsound := h.sound _ closed_derivable
  have hcomplete : Complete setup entries s.Found :=
    complete_of_idle hsound h.wired hnone h.empty h.entered
  refine ⟨hcomplete, fun f => ⟨fun hf => hsound.knows f (Or.inl hf), ?_⟩⟩
  exact hcomplete.closed.of_derivable

/-- A run from the start is a session of two requests. -/
theorem resumable_solve (hset : setup.WellFormed) {n : Nat}
    (h : solve setup n entries (.initial order) = .ok () s) : Resumable setup entries s := by
  cases hseed : seed setup entries (.initial order) with
  | error e t =>
    have herror : solve setup n entries (.initial order) = .error e t := bind_of_error hseed
    rw [herror] at h
    cases h
  | ok a t =>
    have hrun : solve setup n entries (.initial order) = run setup n t := bind_of_ok hseed
    have hfirst : Resumable setup ([] ++ entries) t :=
      resumable_initial.perform hset (r := .seed entries) hseed
    have hboth : Resumable setup (([] ++ entries) ++ []) s :=
      hfirst.perform hset (r := .run n) (hrun.symm.trans h)
    rwa [List.append_nil, List.nil_append] at hboth

/-- However seeding and stepping are interleaved in a session without an error, if a last step finds
nothing left to do, then a new solver given all the entries at once ends well too, in either order of
its worklist, and both have found the same and list the same entries in the same order. -/
theorem serve_equiv_solve {p : Program} (hp : p.validate = .ok ()) (selector : Selector)
    (order order' : WorklistOrder) (rs : List Request) (hseed : ∃ batch, Request.seed batch ∈ rs)
    (hok : (serve (p.setup selector) order rs).errors = []) (n : Nat) (t : State)
    (hdone : step (p.setup selector) n (serve (p.setup selector) order rs).state = .ok false t) :
    (∃ n' u, solve (p.setup selector) n' (requested rs) (.initial order') = .ok () u) ∧
    ∀ n' u, solve (p.setup selector) n' (requested rs) (.initial order') = .ok () u →
      t.WellFormed ∧ u.WellFormed ∧ (∀ f, t.Found f ↔ u.Found f) ∧
        t.entryInstances = u.entryInstances := by
  have hset : (p.setup selector).WellFormed := Program.wellFormed_setup hp
  obtain ⟨hbefore, hnonempty⟩ := resumable_serve hset rs hok
  -- the last step is one more request
  have hperform : (Request.step n).perform (p.setup selector)
      (serve (p.setup selector) order rs).state = .ok () t := bind_of_ok hdone
  have ht : Resumable (p.setup selector) (requested rs) t := by
    have hlast := hbefore.perform hset hperform
    rwa [Request.batch, List.append_nil] at hlast
  have hsound := hbefore.sound _ closed_derivable
  have hnone : ∀ f, ¬t.Waiting f := ((ends_step hset closed_derivable n hsound).ok_of_eq hdone).2 rfl
  obtain ⟨hcomplete, hfound⟩ := ht.found_iff hnone
  have hne : requested rs ≠ [] := by
    obtain ⟨batch, hbatch⟩ := hseed
    intro hnil
    have hempty : batch = [] := List.flatMap_eq_nil_iff.1 hnil _ hbatch
    rw [hempty] at hbatch
    exact hnonempty hbatch
  refine ⟨exists_solve hset hcomplete (finite_found ht.counted) hne order', ?_⟩
  intro n' u hu
  have hres := resumable_solve hset hu
  refine ⟨(ht.sound _ closed_derivable).wellFormed, (hres.sound _ closed_derivable).wellFormed,
    ?_, ht.listed.trans hres.listed.symm⟩
  intro f
  rw [hfound, found_iff_derivable hset hu]

/-- In the small program the callee is made an entry after one arrival has been handled. -/
def Sample.interleaved : List Request :=
  [.seed [0], .step 9, .seed [1, 0]] ++ List.replicate 9 (.step 9)

/-- An entry that is seeded between steps is found like one that was there from the start. -/
theorem serve_equiv_solve_sample :
    (∃ batch, Request.seed batch ∈ Sample.interleaved) ∧
    (serve (Sample.program.setup .insensitive) .fifo Sample.interleaved).errors = [] ∧
    ∃ t, step (Sample.program.setup .insensitive) 9
      (serve (Sample.program.setup .insensitive) .fifo Sample.interleaved).state = .ok false t ∧
    ∃ n u, solve (Sample.program.setup .insensitive) n (requested Sample.interleaved)
      (.initial .lifo) = .ok () u ∧
      (∀ f, t.Found f ↔ u.Found f) ∧ t.entryInstances = u.entryInstances := by
  have hseed : ∃ batch, Request.seed batch ∈ Sample.interleaved := ⟨[0], List.mem_cons_self⟩
  have hok : (serve (Sample.program.setup .insensitive) .fifo Sample.interleaved).errors = [] := by
    decide +kernel
  obtain ⟨_, t, ht, rfl⟩ := Ends.exists_ok (by decide +kernel :
    Ends (step (Sample.program.setup .insensitive) 9)
      (serve (Sample.program.setup .insensitive) .fifo Sample.interleaved).state
      (fun handled _ => handled = false) fun _ _ => False)
  obtain ⟨⟨n, u, hu⟩, hall⟩ := serve_equiv_solve Sample.validate_program .insensitive .fifo .lifo
    Sample.interleaved hseed hok 9 t ht
  obtain ⟨-, -, hfound, hentries⟩ := hall n u hu
  exact ⟨hseed, hok, t, ht, n, u, hu, hfound, hentries⟩

end Solver

end PointsTo
