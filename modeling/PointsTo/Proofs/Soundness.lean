import PointsTo.Proofs.Execution
import PointsTo.Proofs.LeastSolution
import PointsTo.Proofs.Projection

/-!
# Executions stay within the solution

Frames and objects of an execution have no contexts. A `Labelling` gives them the contexts that the
selector would have chosen, and a machine is `Labelled` by facts if under its labelling every frame is
reachable, every call has its edge, and whatever a cell holds is pointed to by the location of the cell.
A new frame and a new object extend the labelling; every other step copies one cell to another, along a
flow edge. So every step keeps the machine labelled (`Labelled.step`), and what a solution says without
contexts covers every machine that an execution reaches.
-/

namespace PointsTo

/-- Contexts for the frames of a machine, and abstract objects for its objects. -/
structure Labelling where
  context : FrameId → Context
  object : Ref → HeapObject

namespace Labelling

/-- The location of a cell. -/
def location (w : Labelling) : Cell → Location
  | .var i v => .var (w.context i) v
  | .field r f => .instanceField (w.object r) f
  | .static f => .staticField f
  | .slot r _ => .arraySlots (w.object r)

/-- The labelling with a context for a new frame. -/
def addFrame (w : Labelling) (i : FrameId) (c : Context) : Labelling :=
  { w with context := Function.update w.context i c }

/-- The labelling with an abstract object for a new object. -/
def addObject (w : Labelling) (r : Ref) (o : HeapObject) : Labelling :=
  { w with object := Function.update w.object r o }

variable {w : Labelling} {m : Machine}

theorem context_addFrame (i : FrameId) (c : Context) (k : FrameId) :
    (w.addFrame i c).context k = if k = i then c else w.context k :=
  Function.update_apply w.context i c k

theorem object_addObject (r : Ref) (o : HeapObject) (k : Ref) :
    (w.addObject r o).object k = if k = r then o else w.object k :=
  Function.update_apply w.object r o k

/-- A new frame leaves the locations of the cells as they are. -/
theorem location_addFrame {cell : Cell} (h : m.Has cell) (c : Context) :
    (w.addFrame m.frames.length c).location cell = w.location cell := by
  cases cell with
  | var i v =>
    have hne : i ≠ m.frames.length := Nat.ne_of_lt h
    rw [location, context_addFrame, if_neg hne]
    rfl
  | _ => rfl

/-- A new object leaves the locations of the cells as they are. -/
theorem location_addObject {cell : Cell} (h : m.Has cell) (o : HeapObject) :
    (w.addObject m.objects.length o).location cell = w.location cell := by
  cases cell with
  | field r f =>
    have hne : r ≠ m.objects.length := Nat.ne_of_lt h
    rw [location, object_addObject, if_neg hne]
    rfl
  | slot r n =>
    have hne : r ≠ m.objects.length := Nat.ne_of_lt h
    rw [location, object_addObject, if_neg hne]
    rfl
  | _ => rfl

end Labelling

/-- The facts cover a machine under a labelling. -/
structure Labelled (setup : Setup) (F : Fact → Prop) (w : Labelling) (m : Machine) : Prop where
  tidy : m.Tidy
  frames : ∀ i frame, m.frames[i]? = some frame → F (.reachable ⟨w.context i, frame.method⟩)
  calls : ∀ i frame j site, m.frames[i]? = some frame → frame.caller = some (j, site) →
    ∃ kind, F (.call kind ⟨w.context j, site⟩ ⟨w.context i, frame.method⟩)
  objects : ∀ r x, m.objects[r]? = some x →
    ∃ a, setup.heap.objectAt? x.site = some a ∧ a.ty = x.ty ∧ (w.object r).object = a.id
  memory : ∀ cell r, m.memory cell = some r → F (.pointsTo (w.location cell) (w.object r))

namespace Labelled

variable {setup : Setup} {entries : List MethodId} {F : Fact → Prop} {w : Labelling} {m : Machine}

/-! ## What a labelled machine provides -/

/-- What a statement does at once has been done. -/
theorem effect (h : Labelled setup F w m) (hF : Closed setup entries F) {i : FrameId} {site : Site}
    {stmt : Stmt} {f : Fact} (hx : m.Executes setup.program.toProgram i site stmt)
    (he : Effect setup ⟨w.context i, site.method⟩ site stmt f) : F f := by
  obtain ⟨⟨frame, hi, hm⟩, hs⟩ := hx
  have hreach := h.frames i frame hi
  rw [hm] at hreach
  exact hF.rule (.effect hs he) hreach

/-- What an access does at an object has been done. -/
theorem access (h : Labelled setup F w m) (hF : Closed setup entries F) {i : FrameId} {site : Site}
    {stmt : Stmt} {base : VarId} {r : Ref} {f : Fact}
    (hx : m.Executes setup.program.toProgram i site stmt) (hb : m.memory (.var i base) = some r)
    (ha : Access (w.context i) base (w.object r) stmt f) : F f :=
  hF.rule (.access hx.2 ha) (h.memory _ _ hb)

/-! ## Operations -/

theorem assign (h : Labelled setup F w m) {cell : Cell} {v : Option Ref}
    (ht : (m.assign cell v).Tidy)
    (hv : ∀ r, v = some r → F (.pointsTo (w.location cell) (w.object r))) :
    Labelled setup F w (m.assign cell v) := by
  refine ⟨ht, h.frames, h.calls, h.objects, ?_⟩
  intro d r hd
  rw [Machine.memory_assign] at hd
  by_cases hdc : d = cell
  · rw [if_pos hdc] at hd
    rw [hdc]
    exact hv r hd
  · rw [if_neg hdc] at hd
    exact h.memory d r hd

/-- Copying along a flow edge. -/
theorem move (h : Labelled setup F w m) (hF : Closed setup entries F) {source target : Cell}
    (ht : m.Has target) (hf : F (.flow (w.location source) (w.location target))) :
    Labelled setup F w (m.move source target) := by
  refine h.assign (h.tidy.move source ht) ?_
  intro r hr
  exact hF.flow hf (h.memory source r hr)

theorem allocate (h : Labelled setup F w m) {site : Site} {ty : TypeRef} {a : AbstractObject}
    (ha : setup.heap.objectAt? site = some a) (hty : a.ty = ty) (c : Context) :
    Labelled setup F (w.addObject m.objects.length ⟨c, a.id⟩) (m.allocate site ty) := by
  refine ⟨h.tidy.allocate site ty, h.frames, h.calls, ?_, ?_⟩
  · intro r x hr
    rw [Labelling.object_addObject]
    rcases getElem?_concat_cases hr with ⟨hlt, hr⟩ | ⟨rfl, rfl⟩
    · rw [if_neg (Nat.ne_of_lt hlt)]
      exact h.objects r x hr
    · rw [if_pos rfl]
      exact ⟨a, ha, hty, rfl⟩
  · intro cell r hr
    have hne : r ≠ m.objects.length := Nat.ne_of_lt (h.tidy.refs cell r hr)
    rw [Labelling.location_addObject (h.tidy.cells cell r hr), Labelling.object_addObject, if_neg hne]
    exact h.memory cell r hr

theorem push (h : Labelled setup F w m) (hF : Closed setup entries F) {i : FrameId} {site : Site}
    {kind : EdgeKind} {callee : MethodInstance} (hi : i < m.frames.length)
    (hcall : F (.call kind ⟨w.context i, site⟩ callee)) :
    Labelled setup F (w.addFrame m.frames.length callee.context)
      (m.push ⟨callee.method, some (i, site)⟩) := by
  have htidy : (m.push ⟨callee.method, some (i, site)⟩).Tidy := by
    refine h.tidy.push ?_
    rintro j x ⟨⟩
    exact hi
  refine ⟨htidy, ?_, ?_, h.objects, ?_⟩
  · intro k frame hk
    rw [Labelling.context_addFrame]
    rcases getElem?_concat_cases hk with ⟨hlt, hk⟩ | ⟨rfl, rfl⟩
    · rw [if_neg (Nat.ne_of_lt hlt)]
      exact h.frames k frame hk
    · rw [if_pos rfl]
      exact hF.rule .callee hcall
  · intro k frame j x hk hcaller
    rw [Labelling.context_addFrame, Labelling.context_addFrame]
    rcases getElem?_concat_cases hk with ⟨hlt, hk⟩ | ⟨rfl, rfl⟩
    · have hj : j < m.frames.length := h.tidy.callers k frame hk j x hcaller
      rw [if_neg (Nat.ne_of_lt hlt), if_neg (Nat.ne_of_lt hj)]
      exact h.calls k frame j x hk hcaller
    · cases hcaller
      rw [if_pos rfl, if_neg (Nat.ne_of_lt hi)]
      exact ⟨kind, hcall⟩
  · intro cell r hr
    rw [Labelling.location_addFrame (h.tidy.cells cell r hr)]
    exact h.memory cell r hr

/-- Variables of frame `k` take what variables of another frame hold. -/
theorem pass (h : Labelled setup F w m) {i k : FrameId} {pairs : List (VarId × VarId)} (hik : i ≠ k)
    (hk : k < m.frames.length)
    (hv : ∀ arg param, (arg, param) ∈ pairs → ∀ r, m.memory (.var i arg) = some r →
      F (.pointsTo (.var (w.context k) param) (w.object r))) :
    Labelled setup F w (m.pass i k pairs) := by
  induction pairs generalizing m with
  | nil => exact h
  | cons pair pairs ih =>
    obtain ⟨arg, param⟩ := pair
    have hmove : Labelled setup F w (m.move (.var i arg) (.var k param)) :=
      h.assign (h.tidy.move _ hk) (hv arg param List.mem_cons_self)
    refine ih hmove hk ?_
    intro arg' param' hmem r hr
    -- what has been passed on lies in the other frame
    have hne : Cell.var i arg' ≠ Cell.var k param := fun he => hik (Cell.var.inj he).1
    rw [Machine.memory_move, if_neg hne] at hr
    exact hv arg' param' (List.mem_cons_of_mem _ hmem) r hr

theorem enter (h : Labelled setup F w m) (hF : Closed setup entries F) {i : FrameId} {site : Site}
    {kind : EdgeKind} {callee : MethodInstance} {pairs : List (VarId × VarId)}
    (hi : i < m.frames.length) (hcall : F (.call kind ⟨w.context i, site⟩ callee))
    (hv : ∀ arg param, (arg, param) ∈ pairs → ∀ r, m.memory (.var i arg) = some r →
      F (.pointsTo (.var callee.context param) (w.object r))) :
    ∃ w', Labelled setup F w' (m.enter i site callee.method pairs) := by
  refine ⟨_, (h.push hF hi hcall).pass (Nat.ne_of_lt hi) ?_ ?_⟩
  · rw [Machine.length_frames_push]
    exact Nat.lt_succ_self _
  · intro arg param hmem r hr
    rw [Labelling.context_addFrame, if_pos rfl]
    exact hv arg param hmem r hr

/-! ## Executions -/

/-- A machine that starts in entry methods is labelled. -/
theorem start (hF : Closed setup entries F) {methods : List MethodId}
    (hm : ∀ method ∈ methods, method ∈ entries) :
    Labelled setup F ⟨fun _ => setup.selector.entryContext, fun _ => ⟨∅, 0⟩⟩ (.start methods) := by
  -- the only frames are those of the entries, and they have no callers
  have hframe : ∀ (i : FrameId) (frame : Frame), (Machine.start methods).frames[i]? = some frame →
      frame.method ∈ methods ∧ frame.caller = none := by
    intro i frame hi
    simp only [Machine.start, List.getElem?_map, Option.map_eq_some_iff] at hi
    obtain ⟨method, hi, rfl⟩ := hi
    exact ⟨List.mem_of_getElem? hi, rfl⟩
  refine ⟨.start methods, ?_, ?_, ?_, ?_⟩
  · intro i frame hi
    exact hF.rule .entry (hF.entry _ (hm _ (hframe i frame hi).1))
  · intro i frame j site hi hcaller
    rw [(hframe i frame hi).2] at hcaller
    cases hcaller
  · intro r x hr
    cases hr
  · intro cell r hr
    cases hr

/-- A call on a receiver has its edge and hands the receiver over. -/
theorem callOn (h : Labelled setup F w m) (hset : setup.WellFormed) (hF : Closed setup entries F)
    {i : FrameId} {site : Site} {d : Call} {receiver : VarId} {r : Ref} {object : Allocation}
    {callee : MethodId} {method : MethodDecl}
    (hx : m.Executes setup.program.toProgram i site (.call d)) (hd : d.isStatic = false)
    (hv : d.receiver = some receiver) (hr : m.memory (.var i receiver) = some r)
    (ho : m.objects[r]? = some object) (hc : setup.program.resolve? object.ty d = some callee)
    (hm : setup.program.method? callee = some method) :
    ∃ c, F (.call (.ofMode d.mode) ⟨w.context i, site⟩ ⟨c, callee⟩) ∧
      ∀ this, method.this = some this → F (.pointsTo (.var c this) (w.object r)) := by
  obtain ⟨a, ha, hty, hobj⟩ := h.objects r object ho
  have hp := h.memory _ _ hr
  have hdescribed : setup.heap.object? (w.object r).object = some a := by
    rw [hset.heap] at ha
    rw [hset.heap, hobj]
    exact (Heap.object?_of_objectAt? hset.valid ha).2
  have hruns : setup.Runs (w.context i) site d receiver (w.object r)
      (setup.instanceCallee (w.context i) site (w.object r) a callee) :=
    ⟨hx.2, hd, hv, a, callee, hdescribed, hty ▸ hc, rfl⟩
  refine ⟨_, hF.rule (.invocation (.call hruns)) hp, ?_⟩
  intro this ht
  exact hF.rule (.invocation (.receiver hruns hm ht)) hp

/-- Every step keeps the machine labelled. -/
theorem step (h : Labelled setup F w m) (hset : setup.WellFormed) (hF : Closed setup entries F)
    {m' : Machine} (hstep : Machine.Step setup.program.toProgram m m') :
    ∃ w', Labelled setup F w' m' := by
  have htidy := h.tidy.step hstep
  cases hstep with
  | @new i site lhs ty hx =>
    obtain ⟨a, ha, hty⟩ := Heap.objectAt?_ofProgram hset.valid hx.2
    rw [← hset.heap] at ha
    have hp := h.effect hF hx (.new ha)
    have hnew := h.allocate ha hty (setup.selector.heapContext (w.context i) a)
    refine ⟨_, hnew.assign htidy ?_⟩
    rintro r ⟨⟩
    rw [Labelling.object_addObject, if_pos rfl]
    exact hp
  | copy hx => exact ⟨w, h.move hF hx.lt (h.effect hF hx .copy)⟩
  | loadStatic hx => exact ⟨w, h.move hF hx.lt (h.effect hF hx .loadStatic)⟩
  | storeStatic hx => exact ⟨w, h.move hF trivial (h.effect hF hx .storeStatic)⟩
  | loadField hx hb => exact ⟨w, h.move hF hx.lt (h.access hF hx hb .loadField)⟩
  | storeField hx hb =>
    have hr := h.tidy.refs _ _ hb
    exact ⟨w, h.move hF hr (h.access hF hx hb .storeField)⟩
  | loadArray n hx hb => exact ⟨w, h.move hF hx.lt (h.access hF hx hb .loadArray)⟩
  | storeArray n hx hb =>
    have hr := h.tidy.refs _ _ hb
    exact ⟨w, h.move hF hr (h.access hF hx hb .storeArray)⟩
  | callStatic hx hd hc hm =>
    have hcall := h.effect hF hx (.call hd hc)
    refine h.enter hF hx.lt hcall ?_
    intro arg param hmem r hr
    exact hF.flow (hF.rule (.argument hx.2 hm hmem) hcall) (h.memory _ _ hr)
  | @callOn i site d receiver r object callee method hx hd hv hr ho hc hm =>
    obtain ⟨c, hcall, hthis⟩ := h.callOn hset hF hx hd hv hr ho hc hm
    refine h.enter hF hx.lt hcall ?_
    intro arg param hmem r' hr'
    -- the receiver is not passed along a flow edge: only `r` itself arrives
    rcases List.mem_append.1 hmem with hmem | hmem
    · obtain ⟨this, ht, he⟩ := List.mem_map.1 hmem
      cases he
      rw [hr] at hr'
      cases hr'
      exact hthis _ (Option.mem_toList.1 ht)
    · exact hF.flow (hF.rule (.argument hx.2 hm hmem) hcall) (h.memory _ _ hr')
  | result hi hj hs hd hm hret =>
    obtain ⟨kind, hcall⟩ := h.calls _ _ _ _ hi hj
    have hlt := h.tidy.callers _ _ hi _ _ hj
    exact ⟨w, h.move hF hlt (hF.rule (.returned hs hm hd hret) hcall)⟩

/-- Every machine that an execution reaches is labelled. -/
theorem reaches (hset : setup.WellFormed) (hF : Closed setup entries F) {methods : List MethodId}
    (hm : ∀ method ∈ methods, method ∈ entries)
    (hreach : Machine.Reaches setup.program.toProgram methods m) : ∃ w, Labelled setup F w m := by
  induction hreach with
  | refl => exact ⟨_, start hF hm⟩
  | tail _ hstep ih =>
    obtain ⟨w, hw⟩ := ih
    exact hw.step hset hF hstep

end Labelled

namespace Solution

/-- The abstract object of an object: that of its allocation. -/
def objectOf? (s : Solution) (m : Machine) (r : Ref) : Option ObjId :=
  (m.objects[r]?).bind fun x => (s.heap.objectAt? x.site).map (·.id)

/-- The solution says of a machine which methods run, which calls have been taken, and which objects
the memory holds. -/
structure Covers (s : Solution) (m : Machine) : Prop where
  frames : ∀ frame ∈ m.frames, frame.method ∈ s.reachableMethods
  calls : ∀ frame ∈ m.frames, ∀ j site, frame.caller = some (j, site) →
    frame.method ∈ s.callees site
  var : ∀ i v r, m.memory (.var i v) = some r →
    ∃ o, s.objectOf? m r = some o ∧ o ∈ s.varPointsTo v
  field : ∀ b f r, m.memory (.field b f) = some r →
    ∃ base o, s.objectOf? m b = some base ∧ s.objectOf? m r = some o ∧ o ∈ s.fieldPointsTo base f
  static : ∀ f r, m.memory (.static f) = some r →
    ∃ o, s.objectOf? m r = some o ∧ o ∈ s.staticPointsTo f
  slot : ∀ b i r, m.memory (.slot b i) = some r →
    ∃ array o, s.objectOf? m b = some array ∧ s.objectOf? m r = some o ∧ o ∈ s.arrayPointsTo array

variable {s : Solution} {setup : Setup} {w : Labelling} {m : Machine}

theorem objectOf?_of_labelled (hheap : s.heap = setup.heap)
    (h : Labelled setup s.state.Found w m) {r : Ref} (hr : r < m.objects.length) :
    s.objectOf? m r = some (w.object r).object := by
  have hget : m.objects[r]? = some m.objects[r] := List.getElem?_eq_getElem hr
  obtain ⟨a, ha, -, hobj⟩ := h.objects r _ hget
  rw [objectOf?, hget, Option.bind_some, hheap, ha, hobj]
  rfl

/-- What a cell holds is among what the place of its location points to. -/
theorem mem_pointsTo_of_labelled (hheap : s.heap = setup.heap) (hw : s.state.WellFormed)
    (h : Labelled setup s.state.Found w m) {cell : Cell} {r : Ref} (hr : m.memory cell = some r) :
    ∃ o, s.objectOf? m r = some o ∧ o ∈ s.pointsTo (w.location cell).place := by
  have hobj := objectOf?_of_labelled hheap h (h.tidy.refs cell r hr)
  exact ⟨_, hobj, (mem_pointsTo_iff hw).2 ⟨_, _, rfl, h.memory cell r hr⟩⟩

/-- A solution covers every machine that its facts label. -/
theorem covers_of_labelled (hheap : s.heap = setup.heap) (hw : s.state.WellFormed)
    (h : Labelled setup s.state.Found w m) : s.Covers m where
  frames frame hmem := by
    obtain ⟨i, hi⟩ := List.getElem?_of_mem hmem
    exact (mem_reachableMethods_iff hw).2 ⟨_, h.frames i frame hi⟩
  calls frame hmem j site hcaller := by
    obtain ⟨i, hi⟩ := List.getElem?_of_mem hmem
    obtain ⟨kind, hcall⟩ := h.calls i frame j site hi hcaller
    exact (mem_callees_iff hw).2 ⟨kind, _, _, hcall⟩
  var _ _ _ hr := mem_pointsTo_of_labelled hheap hw h hr
  static _ _ hr := mem_pointsTo_of_labelled hheap hw h hr
  field b f r hr := by
    obtain ⟨o, ho, hmem⟩ := mem_pointsTo_of_labelled hheap hw h hr
    exact ⟨_, o, objectOf?_of_labelled hheap h (h.tidy.cells _ _ hr), ho, hmem⟩
  slot b i r hr := by
    obtain ⟨o, ho, hmem⟩ := mem_pointsTo_of_labelled hheap hw h hr
    exact ⟨_, o, objectOf?_of_labelled hheap h (h.tidy.cells _ _ hr), ho, hmem⟩

end Solution

/-- Whatever an execution of an analysed program does is in the solution, for every configuration and
every selector, from whichever entry methods the execution starts and however long it runs. -/
theorem analyze_sound {c : Config} {custom : Option Selector} {p : Program} {s : Solution}
    {entries methods : List MethodId} {m : Machine} (h : analyze c custom p.indexed = .ok s)
    (hentries : entryMethods c p.indexed = .ok entries)
    (hm : ∀ method ∈ methods, method ∈ entries) (hreach : Machine.Reaches p methods m) :
    s.Covers m := by
  obtain ⟨hp, hheap, entries', hentries', hsolve⟩ := solve_of_analyze h
  rw [hentries] at hentries'
  cases hentries'
  have hset : (p.setup (custom.getD c.selector)).WellFormed := Program.wellFormed_setup hp
  obtain ⟨hsound, -, hcomplete⟩ := Solver.outcome_of_solve hset hsolve
  obtain ⟨w, hw⟩ := Labelled.reaches hset hcomplete.closed hm hreach
  exact Solution.covers_of_labelled hheap hsound.wellFormed hw

/-- The small program is analysed, and an execution that ends with the new object in `c` stays within
its solution. -/
theorem analyze_sound_sample : ∃ s m, analyze .standard none Sample.program.indexed = .ok s ∧
    Machine.Reaches Sample.program [0] m ∧ m.memory (.var 0 2) = some 0 ∧ s.Covers m := by
  have hok : (analyze .standard none Sample.program.indexed).isOk := by decide +kernel
  obtain ⟨s, hs⟩ : ∃ s, analyze .standard none Sample.program.indexed = .ok s := by
    cases h : analyze .standard none Sample.program.indexed with
    | ok s => exact ⟨s, rfl⟩
    | error e =>
      rw [h] at hok
      cases hok
  have hnew : Machine.Reaches Sample.program [0] _ :=
    .single (.new (i := 0) ⟨⟨_, rfl, rfl⟩, (rfl : Sample.program.stmt? ⟨0, 0⟩ = _)⟩)
  have hcall := hnew.tail (.callOn (i := 0)
    ⟨⟨_, rfl, rfl⟩, (rfl : Sample.program.stmt? ⟨0, 1⟩ = _)⟩ rfl rfl rfl rfl rfl rfl)
  have hresult := hcall.tail (.result (i := 1) rfl rfl rfl rfl rfl List.mem_cons_self)
  have hstore := hresult.tail (.storeField (i := 0)
    ⟨⟨_, rfl, rfl⟩, (rfl : Sample.program.stmt? ⟨0, 2⟩ = _)⟩ rfl)
  have hload := hstore.tail (.loadField (i := 0)
    ⟨⟨_, rfl, rfl⟩, (rfl : Sample.program.stmt? ⟨0, 3⟩ = _)⟩ rfl)
  exact ⟨s, _, hs, hload, rfl,
    analyze_sound hs (rfl : _ = Except.ok [0]) (fun _ hmethod => hmethod) hload⟩

end PointsTo
