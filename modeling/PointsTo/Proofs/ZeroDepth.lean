import PointsTo.Proofs.Agreement
import PointsTo.Proofs.ContextSuffix

/-!
# Depth zero means no contexts

A policy that keeps no element of a context makes the empty context of everything: of callees at once,
and of objects because it only cuts the context of the allocating method, however deep heap contexts may
be. So the contexts of a run are those it started with, the empty one, and a run of such a policy is
literally the run without contexts: each action gives the same answer or error and leaves the same state
behind (`Solver.Lockstep`), one arrival and one interned id after the other.

`Selector.StaysEmpty` says what this takes of a selector. Two selectors with this property agree as long
as no context is known but the empty one, and so they stay in lockstep.
-/

namespace PointsTo

/-- Of empty contexts the selector makes empty contexts only. -/
structure Selector.StaysEmpty (σ : Selector) : Prop where
  entry : σ.entryContext = ∅
  static : ∀ site m, σ.calleeContext ∅ site none m = ∅
  receiver : ∀ site a m, σ.calleeContext ∅ site (some ⟨∅, a⟩) m = ∅
  heap : ∀ a, σ.heapContext ∅ a = ∅

theorem staysEmpty_receiverBased (name : String) (element : AbstractObject → ContextElement)
    (heapK : Nat) : (Selector.receiverBased name element 0 heapK).StaysEmpty where
  entry := rfl
  static _ _ := Context.truncate_zero _
  receiver _ _ _ := Context.append_zero _ _
  heap _ := Context.truncate_empty heapK

theorem staysEmpty_selector (policy : ContextPolicy) (heapK : Nat) :
    (policy.selector 0 heapK).StaysEmpty := by
  cases policy with
  | insensitive => exact ⟨rfl, fun _ _ => rfl, fun _ _ _ => rfl, fun _ => rfl⟩
  | callSite =>
    exact ⟨rfl, fun _ _ => Context.append_zero _ _, fun _ _ _ => Context.append_zero _ _,
      fun _ => Context.truncate_empty heapK⟩
  | object =>
    show (Selector.objectSensitive 0 heapK).StaysEmpty
    exact staysEmpty_receiverBased _ _ heapK
  | type =>
    show (Selector.typeSensitive 0 heapK).StaysEmpty
    exact staysEmpty_receiverBased _ _ heapK

/-- No context is known but the empty one. -/
def State.Contextless (s : State) : Prop := s.arena.contexts = Arena.initial.contexts

namespace Solver

/-- From a state that knows the empty context only, both actions end in the same way, with the same
answer or error and in the same state, which knows no other context either. -/
def Lockstep {α : Type} (x y : SolveM α) : Prop :=
  ∀ s : State, s.Contextless → x s = y s ∧ (after x s).Contextless

section

variable {program : IndexedProgram} {heap : Heap} {σ τ : Selector} (hσ : σ.StaysEmpty)
  (hτ : τ.StaysEmpty)

include hσ hτ

/-- Whatever is asked of the selectors is asked about the empty context, which has its id from the
start. -/
theorem agree_of_staysEmpty : Selector.Agree (fun C _ => C = Arena.initial.contexts) σ τ := by
  have hknown : Arena.initial.contexts.find? ∅ = some Arena.emptyContext := rfl
  have hkept : ∀ {C : Interner Context} {c : Context}, C = Arena.initial.contexts → c = ∅ →
      (C.intern c).2 = Arena.initial.contexts := by
    rintro C c rfl rfl
    rw [Interner.intern_of_find? hknown]
  have hempty : ∀ {C : Interner Context} {i : ContextId} {c : Context}, C = Arena.initial.contexts →
      C.get? i = some c → c = ∅ := by
    rintro C i c rfl hi
    exact context_of_initial hi
  refine ⟨?_, ?_, ?_, ?_⟩
  · intro C O hC
    exact ⟨hσ.entry.trans hτ.entry.symm, hkept hC hσ.entry⟩
  · intro C O i caller site callee hC hi
    obtain rfl := hempty hC hi
    exact ⟨(hσ.static site callee).trans (hτ.static site callee).symm, hkept hC (hσ.static site callee)⟩
  · intro C O i caller j o heap site object callee hC hi _ hheap
    obtain rfl := hempty hC hi
    obtain rfl := hempty hC hheap
    have hσ' := hσ.receiver site object callee
    exact ⟨hσ'.trans (hτ.receiver site object callee).symm, hkept hC hσ'⟩
  · intro C O i method object hC hi
    obtain rfl := hempty hC hi
    exact ⟨(hσ.heap object).trans (hτ.heap object).symm, hkept hC (hσ.heap object)⟩

theorem lockstep_step (n : Nat) :
    Lockstep (step ⟨program, σ, heap⟩ n) (step ⟨program, τ, heap⟩ n) :=
  fun _ hs => inStep_step (agree_of_staysEmpty hσ hτ) n hs

theorem lockstep_run (n : Nat) :
    Lockstep (run ⟨program, σ, heap⟩ n) (run ⟨program, τ, heap⟩ n) :=
  fun _ hs => inStep_run (agree_of_staysEmpty hσ hτ) n hs

theorem lockstep_seed (entries : List MethodId) :
    Lockstep (seed ⟨program, σ, heap⟩ entries) (seed ⟨program, τ, heap⟩ entries) :=
  fun _ hs => inStep_seed (agree_of_staysEmpty hσ hτ) entries hs

theorem lockstep_solve (n : Nat) (entries : List MethodId) :
    Lockstep (solve ⟨program, σ, heap⟩ n entries) (solve ⟨program, τ, heap⟩ n entries) :=
  fun _ hs => inStep_solve (agree_of_staysEmpty hσ hτ) n entries hs

/-- Whatever is asked for, also after errors, the two sessions are the same. -/
theorem serve_eq_of_staysEmpty (order : WorklistOrder) (rs : List Request) :
    serve ⟨program, σ, heap⟩ order rs = serve ⟨program, τ, heap⟩ order rs ∧
      (serve ⟨program, σ, heap⟩ order rs).state.Contextless :=
  serve_eq_of_agree (agree_of_staysEmpty hσ hτ) order rs rfl

end

/-- At depth zero every policy is the one without contexts, however deep heap contexts may be. After
any requests, single steps among them, the two solvers are in the same state and have reported the same
errors; from there on seeding, a step and a run each end in the same way, with the same answer or error
and in the same state, and so does a whole run from the start. The empty context is the only one ever
interned. -/
theorem zero_depth_lockstep (p : Program) (policy : ContextPolicy) (heapK : Nat)
    (order : WorklistOrder) (rs : List Request) :
    let session := serve (p.setup .insensitive) order rs
    serve (p.setup (policy.selector 0 heapK)) order rs = session ∧
    (∀ n, step (p.setup (policy.selector 0 heapK)) n session.state =
      step (p.setup .insensitive) n session.state) ∧
    (∀ n, run (p.setup (policy.selector 0 heapK)) n session.state =
      run (p.setup .insensitive) n session.state) ∧
    (∀ entries, seed (p.setup (policy.selector 0 heapK)) entries session.state =
      seed (p.setup .insensitive) entries session.state) ∧
    (∀ n entries, solve (p.setup (policy.selector 0 heapK)) n entries (.initial order) =
      solve (p.setup .insensitive) n entries (.initial order)) ∧
    session.state.arena.contexts.toList = [∅] := by
  intro session
  have hσ : (policy.selector 0 heapK).StaysEmpty := staysEmpty_selector policy heapK
  have hτ : Selector.insensitive.StaysEmpty := staysEmpty_selector .insensitive heapK
  obtain ⟨hsame, hcontexts⟩ : serve (p.setup (policy.selector 0 heapK)) order rs = session ∧
      (serve (p.setup (policy.selector 0 heapK)) order rs).state.Contextless :=
    serve_eq_of_staysEmpty hσ hτ order rs
  rw [hsame] at hcontexts
  refine ⟨hsame, ?_, ?_, ?_, ?_, ?_⟩
  · intro n
    exact (lockstep_step hσ hτ n _ hcontexts).1
  · intro n
    exact (lockstep_run hσ hτ n _ hcontexts).1
  · intro entries
    exact (lockstep_seed hσ hτ entries _ hcontexts).1
  · intro n entries
    exact (lockstep_solve hσ hτ n entries (.initial order) rfl).1
  · rw [State.Contextless] at hcontexts
    rw [hcontexts]
    rfl

end Solver

end PointsTo
