import PointsTo.Proofs.Consistency
import PointsTo.Proofs.CycleSearch
import PointsTo.Proofs.IndexFilling

/-!
# Loading whatever comes

Data from outside may hold any ids. The machine that loads it (`Program.checkStrictly`) looks up some of them
without asking whether they are there: the class of a method, what a report names, the variables that a method
mentions, and all that its search for a cycle and its index take. It relies on its own checks to have refused
the program before that. They always have, so on any data whatsoever it comes to an end, asks no table in vain
and answers as `check` does; and a program that it lets pass is consistent (`load_safe`).

Each check is in step with its counterpart under what the checks before it say. So the order of the checks
matters: the look-ups of a step are there by the conditions that stand above them.
-/

namespace PointsTo.Program

/-! ## The machine -/

/-- The signature of a method. -/
def signatureStrictly (p : Program) (m : MethodId) : Except Halt String := do
  let d ← lookUp p.methods m
  let c ← lookUp p.classes d.owner
  pure s!"<{c.name}: {d.subsignature}>"

/-- The classes and fields that a statement names, and the receiver of a call. -/
def checkStmtStrictly (p : Program) (m : MethodDecl) : Stmt → Except Halt Unit
  | .call c => do
    demand (c.target.owner < p.classes.size) (pure (.danglingClass c.target.owner))
    demand (c.isStatic || c.receiver.isSome) do
      let signature ← p.signatureStrictly m.id
      pure (.malformed (.missingReceiver c.mode c.target.subsignature signature))
  | stmt => answer (p.checkStmt m stmt)

/-- The variables that a method mentions. -/
def checkMentionedStrictly (p : Program) (m : MethodDecl) : Except Halt Unit := do
  (mentionedVars m).forM fun v => demand (v < p.vars.size) (pure (.danglingVar v))
  (mentionedVars m).forM fun v => do
    let d ← lookUp p.vars v
    demand (d.method = m.id) do
      let signature ← p.signatureStrictly m.id
      pure (.malformed (.foreignVar signature d.name d.method))

/-- The method at position `i`. -/
def checkMethodStrictly (p : Program) (m : MethodDecl) (i : Nat) : Except Halt Unit := do
  demand (m.id = i) (pure (.malformed (.misplacedMethod m.subsignature m.id i)))
  demand (m.owner < p.classes.size) (pure (.danglingClass m.owner))
  let owner ← lookUp p.classes m.owner
  demand (owner.methods.get? m.subsignature = some m.id)
    (pure (.malformed (.unlistedMethod m.id m.subsignature m.owner)))
  demand (m.isStatic || m.this.isSome) do
    let signature ← p.signatureStrictly m.id
    pure (.missingThis signature)
  m.body.forM (p.checkStmtStrictly m)
  p.checkMentionedStrictly m

/-- Check every cross reference, with `n` turns for each search for a cycle. -/
def validateStrictly (p : Program) (n : Nat) : Except Halt Unit := do
  answer (p.classes.toList.zipIdx.forM fun (c, i) => p.checkClass c i)
  p.searchInTurns n
  answer (p.fields.toList.zipIdx.forM fun (f, i) => p.checkField f i)
  answer (p.vars.toList.zipIdx.forM fun (v, i) => p.checkVar v i)
  p.methods.toList.zipIdx.forM fun (m, i) => p.checkMethodStrictly m i
  answer p.checkRoots

/-- Check the program and index it. -/
def checkStrictly (p : Program) (n : Nat) : Except Halt IndexedProgram := do
  p.validateStrictly n
  let index ← p.fillIndex
  pure ⟨p, index⟩

/-! ## In step with the checks -/

variable {p : Program} {m : MethodDecl} {i : Nat}

theorem signatureStrictly_eq (hm : p.method? m.id = some m) (howner : m.owner < p.classes.size) :
    p.signatureStrictly m.id = .ok (p.signatureOf m) := by
  obtain ⟨c, hc⟩ := exists_class howner
  rw [signatureStrictly, lookUp_eq hm]
  show (lookUp p.classes m.owner >>= fun c => _) = _
  rw [lookUp_eq hc, signatureOf, className_eq hc]
  rfl

theorem checkStmtStrictly_eq (hm : p.method? m.id = some m) (howner : m.owner < p.classes.size)
    (stmt : Stmt) : p.checkStmtStrictly m stmt = answer (p.checkStmt m stmt) := by
  cases stmt with
  | call c =>
    apply andThen_eq_answer (demand_eq rfl)
    intro _
    apply demand_eq
    rw [signatureStrictly_eq hm howner]
    rfl
  | _ => rfl

theorem checkMentionedStrictly_eq (hm : p.method? m.id = some m) (howner : m.owner < p.classes.size) :
    p.checkMentionedStrictly m = answer (p.checkMentioned m) := by
  apply andThen_eq_answer
  · apply forM_eq_answer
    intro v _
    exact demand_eq rfl
  · intro hvars
    apply forM_eq_answer
    intro v hv
    -- the variable is there as the first loop has passed
    have hlt : v < p.vars.size := by
      have hcheck := forM_eq_ok_iff.1 hvars v hv
      simpa [require_eq_ok_iff] using hcheck
    have hd : p.var? v = some p.vars[v] := Array.getElem?_eq_getElem hlt
    rw [lookUp_eq hd, hd]
    apply demand_eq
    rw [signatureStrictly_eq hm howner]
    rfl

/-- The method is checked as it stands in the table, and its owner is looked up once it is known to be
there. -/
theorem checkMethodStrictly_eq (hm : p.method? i = some m) :
    p.checkMethodStrictly m i = answer (p.checkMethod m i) := by
  apply andThen_eq_answer (demand_eq rfl)
  intro hid
  obtain rfl : m.id = i := by simpa [require_eq_ok_iff] using hid
  apply andThen_eq_answer (demand_eq rfl)
  intro howner
  have hlt : m.owner < p.classes.size := by simpa [require_eq_ok_iff] using howner
  -- from here on the method is known to stand at its id and its owner to be there, as reports need it
  obtain ⟨c, hc⟩ := exists_class hlt
  have hdeclared : p.declared? m.owner m.subsignature = c.methods.get? m.subsignature := by
    rw [declared?, hc]
    rfl
  rw [lookUp_eq hc, hdeclared]
  apply andThen_eq_answer (demand_eq rfl)
  intro _
  apply andThen_eq_answer
  · apply demand_eq
    rw [signatureStrictly_eq hm hlt]
    rfl
  intro _
  apply andThen_eq_answer
  · apply forM_eq_answer
    intro stmt _
    exact checkStmtStrictly_eq hm hlt stmt
  · intro _
    exact checkMentionedStrictly_eq hm hlt

theorem supertypes_lt_of_checkClass
    (h : p.classes.toList.zipIdx.forM (fun (c, i) => p.checkClass c i) = .ok ()) :
    ∀ c ∈ p.classes.toList, ∀ sup ∈ c.supertypes, sup < p.classes.size := by
  intro c hc sup hsup
  obtain ⟨i, hi⟩ := List.getElem?_of_mem hc
  have hcheck := forM_eq_ok_iff.1 h (c, i) (List.mem_zipIdx_iff_getElem?.2 hi)
  simp only [checkClass, andThen_eq_ok_iff, forM_eq_ok_iff, require_eq_ok_iff] at hcheck
  simpa using hcheck.2.2.1 sup hsup

/-- The machine checks as `validate` does, given turns enough. -/
theorem exists_validateStrictly_eq (p : Program) :
    ∃ k, ∀ n ≥ k, p.validateStrictly n = answer p.validate := by
  have hmethods : p.methods.toList.zipIdx.forM (fun (m, i) => p.checkMethodStrictly m i) =
      answer (p.methods.toList.zipIdx.forM fun (m, i) => p.checkMethod m i) := by
    apply forM_eq_answer
    rintro ⟨m, i⟩ hm
    apply checkMethodStrictly_eq
    simpa [method?] using List.mem_zipIdx_iff_getElem?.1 hm
  have hrest : ∀ {n : Nat}, (p.classes.toList.zipIdx.forM (fun (c, i) => p.checkClass c i) = .ok () →
      p.searchInTurns n = refuse p.checkAcyclic) → p.validateStrictly n = answer p.validate := by
    intro n hsearch
    apply andThen_eq_answer rfl
    intro hclasses
    apply andThen_eq_answer (hsearch hclasses)
    intro _
    apply andThen_eq_answer rfl
    intro _
    apply andThen_eq_answer rfl
    intro _
    exact andThen_eq_answer hmethods fun _ => rfl
  by_cases hclasses : p.classes.toList.zipIdx.forM (fun (c, i) => p.checkClass c i) = .ok ()
  · obtain ⟨k, hk⟩ := exists_searchInTurns_eq (supertypes_lt_of_classes (supertypes_lt_of_checkClass hclasses))
    exact ⟨k, fun n hn => hrest fun _ => hk n hn⟩
  · exact ⟨0, fun n _ => hrest fun h => absurd h hclasses⟩

/-- What a checked program mentions, the machine that indexes it finds. -/
theorem fillIndex_eq_of_validate (hp : p.validate = .ok ()) : p.fillIndex = .ok p.makeIndex := by
  apply fillIndex_eq
  · obtain ⟨hclasses, -⟩ := andThen_eq_ok_iff.1 hp
    exact supertypes_lt_of_checkClass hclasses
  · rintro m hm ⟨site, stmt⟩ hx v hv
    exact var_lt_of_validate hp ((mem_sites_iff_stmt? hp).1 ⟨m, hm, hx⟩) hv

/-- Only the search for a cycle takes turns. -/
theorem checkStrictly_orUnfinished (p : Program) {n m : Nat} (h : n ≤ m) :
    OrUnfinished (p.checkStrictly n) (p.checkStrictly m) := by
  apply OrUnfinished.bind
  · apply OrUnfinished.bind (Or.inr rfl)
    intro _
    apply OrUnfinished.bind (p.searchInTurns_orUnfinished h)
    intro _
    exact Or.inr rfl
  · intro _
    exact Or.inr rfl

/-- Loading is safe, for any data. The machine comes to an end and answers as `check` does, and however few
turns it is given, it asks no table for a position that is not there. If it does not refuse the program, it
gives back the program with its index, and all that the analyses rely on holds. -/
theorem load_safe (p : Program) :
    (∃ k, ∀ n ≥ k, p.checkStrictly n = answer p.check) ∧ (∀ n, p.checkStrictly n ≠ .error .outside) ∧
    ∀ q, p.check = .ok q → q = p.indexed ∧ p.Consistent := by
  have hanswer : ∃ k, ∀ n ≥ k, p.checkStrictly n = answer p.check := by
    obtain ⟨k, hk⟩ := exists_validateStrictly_eq p
    refine ⟨k, fun n hn => ?_⟩
    apply andThen_eq_answer (hk n hn)
    intro hp
    rw [fillIndex_eq_of_validate hp]
    rfl
  refine ⟨hanswer, ?_, ?_⟩
  · intro n hn
    obtain ⟨k, hk⟩ := hanswer
    rcases p.checkStrictly_orUnfinished (Nat.le_max_left n k) with hstop | hsame
    · rw [hstop] at hn
      cases hn
    · rw [hsame, hk _ (Nat.le_max_right n k)] at hn
      exact answer_ne_outside hn
  · intro q hq
    obtain ⟨⟨⟩, hp, hindexed⟩ := bind_eq_ok_iff.1 hq
    cases hindexed
    exact ⟨rfl, consistent_of_validate hp⟩

end PointsTo.Program

namespace PointsTo

namespace Sample

/-- A method without `this` of a class that is not there, with a call of a variable that is not there. -/
def wild : Program := { program with
  methods := #[{ identity with
    id := 0, owner := 7, this := none, params := [], returns := [40],
    body := [.call
      { mode := .virtual, target := ⟨9, "void run()"⟩, receiver := none, args := [41], result := none }] }]
  classes := #[ClassDecl.plain 0 "A"], vars := #[] }

end Sample

namespace Program

/-- The wild program is refused for the owner of its method before that is looked up, and the small program
is let pass. -/
theorem load_safe_wild :
    (∃ n, Sample.wild.checkStrictly n = .error (.refused (.danglingClass 7))) ∧
    (∀ n, Sample.wild.checkStrictly n ≠ .error .outside) ∧
    (∃ n, Sample.program.checkStrictly n = .ok Sample.program.indexed) ∧ Sample.program.Consistent := by
  have hwild : Sample.wild.check = .error (.danglingClass 7) := by rfl
  have hprogram : Sample.program.check = .ok Sample.program.indexed := by rfl
  obtain ⟨⟨k, hk⟩, hinside, -⟩ := load_safe Sample.wild
  obtain ⟨⟨j, hj⟩, -, hpass⟩ := load_safe Sample.program
  refine ⟨⟨k, ?_⟩, hinside, ⟨j, ?_⟩, (hpass _ hprogram).2⟩
  · rw [hk k (Nat.le_refl k), hwild]
    rfl
  · rw [hj j (Nat.le_refl j), hprogram]
    rfl

end Program

end PointsTo
