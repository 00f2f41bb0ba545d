import Mathlib.Data.List.ProdSigma
import Mathlib.Tactic.Ring
import PointsTo.Proofs.ContextSuffix
import PointsTo.Proofs.Validity

/-!
# What an analysis can be about

With finitely many contexts there are finitely many facts. A fact is `InScope` for a list of contexts if
it mentions contexts of the list only, and objects, methods, variables and fields that the program has.
As long as a selector `KeepsTo` the list, the facts in scope are closed under the rules
(`closed_inScope`), and those that measure progress are listed by `Program.marks`.

The shipped policies make contexts of the statements and the objects of the program, and they cut them;
so they keep to `Program.contextsUpTo` of the larger of their two depths (`keepsTo_contextsUpTo`).
-/

namespace PointsTo

/-! ## Contexts of bounded length -/

section

variable {α : Type} {xs ys : List α} {n : Nat}

/-- The lists of at most `n` members of a list. -/
def listsUpTo (xs : List α) : Nat → List (List α)
  | 0 => [[]]
  | n + 1 => [] :: xs.flatMap fun x => (listsUpTo xs n).map (x :: ·)

theorem mem_listsUpTo_iff : ys ∈ listsUpTo xs n ↔ ys.length ≤ n ∧ ys ⊆ xs := by
  induction n generalizing ys with
  | zero =>
    rw [listsUpTo, List.mem_singleton, Nat.le_zero, List.length_eq_zero_iff]
    exact ⟨fun h => ⟨h, h ▸ List.nil_subset xs⟩, fun h => h.1⟩
  | succ n ih =>
    cases ys with
    | nil => simp [listsUpTo]
    | cons y ys =>
      simp only [listsUpTo, List.mem_cons, List.mem_flatMap, List.mem_map, ih, List.cons.injEq,
        List.length_cons, Nat.add_le_add_iff_right, List.cons_subset]
      constructor
      · rintro (h | ⟨x, hx, zs, ⟨hlen, hsub⟩, rfl, rfl⟩)
        · cases h
        · exact ⟨hlen, hx, hsub⟩
      · rintro ⟨hlen, hy, hsub⟩
        exact Or.inr ⟨y, hy, ys, ⟨hlen, hsub⟩, rfl, rfl⟩

theorem length_listsUpTo_le (xs : List α) (n : Nat) :
    (listsUpTo xs n).length ≤ (xs.length + 1) ^ n := by
  induction n with
  | zero => exact Nat.le_refl 1
  | succ n ih =>
    have hpos : 1 ≤ (xs.length + 1) ^ n := Nat.one_le_pow _ _ (Nat.succ_pos _)
    have hlen : (listsUpTo xs (n + 1)).length = xs.length * (listsUpTo xs n).length + 1 := by
      simp only [listsUpTo, List.length_cons, List.length_flatMap, List.length_map,
        List.map_const', List.sum_replicate_nat]
    calc (listsUpTo xs (n + 1)).length = xs.length * (listsUpTo xs n).length + 1 := hlen
      _ ≤ xs.length * (xs.length + 1) ^ n + (xs.length + 1) ^ n :=
        Nat.add_le_add (Nat.mul_le_mul_left _ ih) hpos
      _ = (xs.length + 1) ^ (n + 1) := by ring

end

namespace Program

variable (p : Program)

/-- What the policies make contexts of. -/
def contextElements : List ContextElement :=
  (p.sitesWhere fun _ => true).map .callSite ++
    (Heap.ofProgram p).objects.toList.flatMap fun a => [.object a.id, .type a.container]

/-- The contexts of at most `n` elements. -/
def contextsUpTo (n : Nat) : List Context := (listsUpTo p.contextElements n).map .mk

/-! ## What there is under the contexts of a list -/

def heapObjects (cs : List Context) : List HeapObject :=
  (cs ×ˢ List.range (Heap.ofProgram p).objects.size).map fun (c, o) => ⟨c, o⟩

def methodInstances (cs : List Context) : List MethodInstance :=
  (cs ×ˢ List.range p.methods.size).map fun (c, m) => ⟨c, m⟩

def locations (cs : List Context) : List Location :=
  (cs ×ˢ List.range p.vars.size).map (fun (c, v) => .var c v) ++
    (p.heapObjects cs ×ˢ List.range p.fields.size).map (fun (o, f) => .instanceField o f) ++
    (List.range p.fields.size).map .staticField ++ (p.heapObjects cs).map .arraySlots

/-- The facts of the scope by which progress is measured. -/
def marks (cs : List Context) : List Fact :=
  (p.methodInstances cs).map .reachable ++
    (p.locations cs ×ˢ p.heapObjects cs).map fun (l, o) => .pointsTo l o

/-- The fact mentions contexts of the list only, and what the program has. -/
def InScope (cs : List Context) : Fact → Prop
  | .context c => c ∈ cs
  | .object o => o ∈ p.heapObjects cs
  | .method m | .entry m | .reachable m => m ∈ p.methodInstances cs
  | .site x => x.context ∈ cs
  | .location l => l ∈ p.locations cs
  | .pointsTo l o => l ∈ p.locations cs ∧ o ∈ p.heapObjects cs
  | .flow l l' => l ∈ p.locations cs ∧ l' ∈ p.locations cs
  | .call _ x m => x.context ∈ cs ∧ m ∈ p.methodInstances cs

variable {p} {cs : List Context}

theorem mem_heapObjects_iff {o : HeapObject} :
    o ∈ p.heapObjects cs ↔ o.heapContext ∈ cs ∧ o.object < (Heap.ofProgram p).objects.size := by
  obtain ⟨c, i⟩ := o
  simp [heapObjects]

theorem mem_methodInstances_iff {m : MethodInstance} :
    m ∈ p.methodInstances cs ↔ m.context ∈ cs ∧ m.method < p.methods.size := by
  obtain ⟨c, i⟩ := m
  simp [methodInstances]

@[simp] theorem var_mem_locations {c : Context} {v : VarId} :
    Location.var c v ∈ p.locations cs ↔ c ∈ cs ∧ v < p.vars.size := by
  simp [locations]

@[simp] theorem instanceField_mem_locations {o : HeapObject} {f : FieldId} :
    Location.instanceField o f ∈ p.locations cs ↔ o ∈ p.heapObjects cs ∧ f < p.fields.size := by
  simp [locations]

@[simp] theorem staticField_mem_locations {f : FieldId} :
    Location.staticField f ∈ p.locations cs ↔ f < p.fields.size := by
  simp [locations]

@[simp] theorem arraySlots_mem_locations {o : HeapObject} :
    Location.arraySlots o ∈ p.locations cs ↔ o ∈ p.heapObjects cs := by
  simp [locations]

end Program

/-! ## Closure -/

/-- With contexts of the list a selector makes contexts of the list, for whatever the program has. -/
structure Setup.KeepsTo (setup : Setup) (cs : List Context) : Prop where
  empty : ∅ ∈ cs
  entry : setup.selector.entryContext ∈ cs
  callee : ∀ {c site stmt receiver m}, c ∈ cs → setup.program.stmt? site = some stmt →
    (∀ r, receiver = some r → r.heapContext ∈ cs ∧ ∃ i, setup.heap.object? i = some r.object) →
    setup.selector.calleeContext c site receiver m ∈ cs
  heapContext : ∀ {c i a}, c ∈ cs → setup.heap.object? i = some a →
    setup.selector.heapContext c a ∈ cs

section

variable {setup : Setup} {cs : List Context} {entries : List MethodId}

open Program

theorem Program.method_lt {p : Program} {m : MethodId} {d : MethodDecl} (h : p.method? m = some d) :
    m < p.methods.size := by
  obtain ⟨hlt, -⟩ := Array.getElem?_eq_some_iff.1 h
  exact hlt

theorem Heap.object_lt {h : Heap} {i : ObjId} {a : AbstractObject} (ha : h.object? i = some a) :
    i < h.objects.size := by
  obtain ⟨hlt, -⟩ := Array.getElem?_eq_some_iff.1 ha
  exact hlt

/-- A call of a method in scope reaches a method in scope. -/
theorem inScope_callee (hset : setup.WellFormed) (hk : setup.KeepsTo cs) {c : Context} {site : Site}
    {d : Call} {v : VarId} {o : HeapObject} {callee : MethodInstance} (hc : c ∈ cs)
    (ho : o.heapContext ∈ cs) (hr : setup.Runs c site d v o callee) :
    callee ∈ setup.program.methodInstances cs := by
  obtain ⟨hs, -, -, a, m, ha, hm, rfl⟩ := hr
  obtain ⟨method, hmethod⟩ := method_of_resolve? hset.valid hm
  refine mem_methodInstances_iff.2 ⟨hk.callee hc hs ?_, method_lt hmethod⟩
  rintro r ⟨⟩
  exact ⟨ho, o.object, ha⟩

/-- What a statement of a method in scope does is in scope. -/
theorem inScope_effect (hset : setup.WellFormed) (hk : setup.KeepsTo cs) {m : MethodInstance}
    {site : Site} {stmt : Stmt} {f : Fact} (hs : setup.program.stmt? site = some stmt)
    (hm : m.context ∈ cs) (h : Effect setup m site stmt f) : setup.program.InScope cs f := by
  have hvar : ∀ {v}, v ∈ stmt.vars → v < setup.program.vars.size := var_lt_of_validate hset.valid hs
  obtain ⟨d, -, hcheck⟩ := checkStmt_of_validate hset.valid hs
  cases h with
  | new ha =>
    rw [hset.heap] at ha
    obtain ⟨-, ha⟩ := Heap.object?_of_objectAt? hset.valid ha
    refine ⟨var_mem_locations.2 ⟨hm, hvar (by simp [Stmt.vars])⟩, mem_heapObjects_iff.2 ⟨?_, ?_⟩⟩
    · exact hk.heapContext hm (hset.heap ▸ ha)
    · exact Heap.object_lt ha
  | copy =>
    exact ⟨var_mem_locations.2 ⟨hm, hvar (by simp [Stmt.vars])⟩,
      var_mem_locations.2 ⟨hm, hvar (by simp [Stmt.vars])⟩⟩
  | loadStatic =>
    simp only [checkStmt, require_eq_ok_iff, decide_eq_true_eq] at hcheck
    exact ⟨staticField_mem_locations.2 hcheck, var_mem_locations.2 ⟨hm, hvar (by simp [Stmt.vars])⟩⟩
  | storeStatic =>
    simp only [checkStmt, require_eq_ok_iff, decide_eq_true_eq] at hcheck
    exact ⟨var_mem_locations.2 ⟨hm, hvar (by simp [Stmt.vars])⟩, staticField_mem_locations.2 hcheck⟩
  | call hd hc =>
    obtain ⟨method, hmethod⟩ := method_of_resolveStatic hset.valid hc
    refine ⟨hm, mem_methodInstances_iff.2 ⟨hk.callee hm hs ?_, method_lt hmethod⟩⟩
    exact fun r hr => absurd hr.symm (Option.some_ne_none r)

/-- What an access to an object in scope does is in scope. -/
theorem inScope_access (hset : setup.WellFormed) {c : Context} {v : VarId} {o : HeapObject}
    {site : Site} {stmt : Stmt} {f : Fact} (hs : setup.program.stmt? site = some stmt) (hc : c ∈ cs)
    (ho : o ∈ setup.program.heapObjects cs) (h : Access c v o stmt f) :
    setup.program.InScope cs f := by
  have hvar : ∀ {v}, v ∈ stmt.vars → v < setup.program.vars.size := var_lt_of_validate hset.valid hs
  obtain ⟨d, -, hcheck⟩ := checkStmt_of_validate hset.valid hs
  cases h with
  | storeField =>
    simp only [checkStmt, require_eq_ok_iff, decide_eq_true_eq] at hcheck
    exact ⟨var_mem_locations.2 ⟨hc, hvar (by simp [Stmt.vars])⟩,
      instanceField_mem_locations.2 ⟨ho, hcheck⟩⟩
  | loadField =>
    simp only [checkStmt, require_eq_ok_iff, decide_eq_true_eq] at hcheck
    exact ⟨instanceField_mem_locations.2 ⟨ho, hcheck⟩,
      var_mem_locations.2 ⟨hc, hvar (by simp [Stmt.vars])⟩⟩
  | storeArray =>
    exact ⟨var_mem_locations.2 ⟨hc, hvar (by simp [Stmt.vars])⟩, arraySlots_mem_locations.2 ho⟩
  | loadArray =>
    exact ⟨arraySlots_mem_locations.2 ho, var_mem_locations.2 ⟨hc, hvar (by simp [Stmt.vars])⟩⟩

/-- The facts in scope are closed under the rules. -/
theorem closed_inScope (hset : setup.WellFormed) (hk : setup.KeepsTo cs)
    (hentries : ∀ m ∈ entries, m < setup.program.methods.size) :
    Closed setup entries (setup.program.InScope cs) where
  empty := hk.empty
  entry m hm := mem_methodInstances_iff.2 ⟨hk.entry, hentries m hm⟩
  flow hf ho := ⟨hf.2, ho.2⟩
  rule := by
    intro g f hr hg
    cases hr with
    | objectContext => exact (mem_heapObjects_iff.1 hg).1
    | methodContext => exact (mem_methodInstances_iff.1 hg).1
    | holder => exact hg.1
    | held => exact hg.2
    | source => exact hg.1
    | target => exact hg.2
    | occurs => exact hg
    | entry => exact hg
    | effect hs h => exact inScope_effect hset hk hs (mem_methodInstances_iff.1 hg).1 h
    | access hs h => exact inScope_access hset hs (var_mem_locations.1 hg.1).1 hg.2 h
    | invocation h =>
      have hc := (var_mem_locations.1 hg.1).1
      have ho := (mem_heapObjects_iff.1 hg.2).1
      cases h with
      | call hr => exact ⟨hc, inScope_callee hset hk hc ho hr⟩
      | receiver hr hm ht =>
        have hcallee := mem_methodInstances_iff.1 (inScope_callee hset hk hc ho hr)
        refine ⟨var_mem_locations.2 ⟨hcallee.1, mentioned_lt_of_validate hset.valid hm ?_⟩, hg.2⟩
        simp [mentionedVars, ht]
    | caller => exact hg.1
    | callee => exact hg.2
    | @argument kind x callee d method arg param hs hm ha =>
      obtain ⟨harg, hparam⟩ := List.of_mem_zip ha
      have harg : arg < setup.program.vars.size :=
        var_lt_of_validate hset.valid hs (by simp [Stmt.vars, Call.vars, harg])
      have hparam : param < setup.program.vars.size :=
        mentioned_lt_of_validate hset.valid hm (by simp [mentionedVars, hparam])
      exact ⟨var_mem_locations.2 ⟨hg.1, harg⟩,
        var_mem_locations.2 ⟨(mem_methodInstances_iff.1 hg.2).1, hparam⟩⟩
    | @result kind x callee d result hs hr =>
      have hresult : result < setup.program.vars.size :=
        var_lt_of_validate hset.valid hs (by simp [Stmt.vars, Call.vars, hr])
      exact var_mem_locations.2 ⟨hg.1, hresult⟩
    | @returned kind x callee d method result ret hs hm hr hv =>
      have hresult : result < setup.program.vars.size :=
        var_lt_of_validate hset.valid hs (by simp [Stmt.vars, Call.vars, hr])
      have hret : ret < setup.program.vars.size :=
        mentioned_lt_of_validate hset.valid hm (by simp [mentionedVars, hv])
      exact ⟨var_mem_locations.2 ⟨(mem_methodInstances_iff.1 hg.2).1, hret⟩,
        var_mem_locations.2 ⟨hg.1, hresult⟩⟩

end

/-! ## The shipped policies -/

namespace Program

variable {p : Program} {n : Nat}

theorem mem_contextsUpTo_iff {c : Context} :
    c ∈ p.contextsUpTo n ↔ c.elements.length ≤ n ∧ c.elements ⊆ p.contextElements := by
  obtain ⟨es⟩ := c
  simp [contextsUpTo, mem_listsUpTo_iff]

theorem callSite_mem_contextElements (hp : p.validate = .ok ()) {site : Site} {stmt : Stmt}
    (hs : p.stmt? site = some stmt) : .callSite site ∈ p.contextElements := by
  refine List.mem_append_left _ (List.mem_map.2 ⟨site, ?_, rfl⟩)
  exact (mem_sitesWhere_iff hp).2 ⟨stmt, hs, rfl⟩

theorem object_mem_contextElements {i : ObjId} {a : AbstractObject}
    (ha : (Heap.ofProgram p).object? i = some a) :
    .object a.id ∈ p.contextElements ∧ .type a.container ∈ p.contextElements := by
  have hmem : a ∈ (Heap.ofProgram p).objects.toList := by
    rw [Heap.object?, ← Array.getElem?_toList] at ha
    exact List.mem_of_getElem? ha
  constructor
  · exact List.mem_append_right _ (List.mem_flatMap.2 ⟨a, hmem, by simp⟩)
  · exact List.mem_append_right _ (List.mem_flatMap.2 ⟨a, hmem, by simp⟩)

theorem truncate_mem_contextsUpTo {c : Context} (hc : c ∈ p.contextsUpTo n) {k : Nat} (hk : k ≤ n) :
    c.truncate k ∈ p.contextsUpTo n := by
  refine mem_contextsUpTo_iff.2 ⟨(Context.length_lastOf_le k _).trans hk, ?_⟩
  exact List.Subset.trans (Context.lastOf_subset k _) (mem_contextsUpTo_iff.1 hc).2

theorem append_mem_contextsUpTo {c : Context} (hc : c ∈ p.contextsUpTo n) {e : ContextElement}
    (he : e ∈ p.contextElements) {k : Nat} (hk : k ≤ n) : c.append e k ∈ p.contextsUpTo n := by
  refine mem_contextsUpTo_iff.2 ⟨(Context.length_lastOf_le k _).trans hk, ?_⟩
  refine List.Subset.trans (Context.lastOf_subset k _) (List.append_subset.2 ⟨?_, ?_⟩)
  · exact (mem_contextsUpTo_iff.1 hc).2
  · exact List.cons_subset.2 ⟨he, List.nil_subset _⟩

theorem empty_mem_contextsUpTo : ∅ ∈ p.contextsUpTo n :=
  mem_contextsUpTo_iff.2 ⟨Nat.zero_le n, List.nil_subset _⟩

/-- A selector that puts elements of the program behind heap contexts keeps to the contexts of bounded
length. -/
theorem keepsTo_receiverBased (name : String)
    {element : AbstractObject → ContextElement} {k heapK : Nat}
    (helement : ∀ i a, (Heap.ofProgram p).object? i = some a → element a ∈ p.contextElements) :
    (p.setup (.receiverBased name element k heapK)).KeepsTo (p.contextsUpTo (max k heapK)) where
  empty := empty_mem_contextsUpTo
  entry := empty_mem_contextsUpTo
  callee {c site stmt receiver m} hc hs hr := by
    -- only a call on a receiver adds an element
    cases receiver with
    | none => exact truncate_mem_contextsUpTo hc (Nat.le_max_left _ _)
    | some r =>
      obtain ⟨hheap, i, hi⟩ := hr r rfl
      exact append_mem_contextsUpTo hheap (helement i _ hi) (Nat.le_max_left _ _)
  heapContext hc _ := truncate_mem_contextsUpTo hc (Nat.le_max_right _ _)

/-- Every shipped policy keeps to the contexts of bounded length. -/
theorem keepsTo_contextsUpTo (hp : p.validate = .ok ()) (policy : ContextPolicy) (k heapK : Nat) :
    (p.setup (policy.selector k heapK)).KeepsTo (p.contextsUpTo (max k heapK)) := by
  cases policy with
  | insensitive =>
    exact ⟨empty_mem_contextsUpTo, empty_mem_contextsUpTo, fun _ _ _ => empty_mem_contextsUpTo,
      fun _ _ => empty_mem_contextsUpTo⟩
  | callSite =>
    refine ⟨empty_mem_contextsUpTo, empty_mem_contextsUpTo, ?_, ?_⟩
    · intro c site stmt receiver m hc hs _
      exact append_mem_contextsUpTo hc (callSite_mem_contextElements hp hs) (Nat.le_max_left _ _)
    · intro c i a hc _
      exact truncate_mem_contextsUpTo hc (Nat.le_max_right _ _)
  | object => exact keepsTo_receiverBased _ fun i a ha => (object_mem_contextElements ha).1
  | type => exact keepsTo_receiverBased _ fun i a ha => (object_mem_contextElements ha).2

end Program

end PointsTo
