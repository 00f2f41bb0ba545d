import PointsTo.Proofs.HierarchyBound
import PointsTo.Proofs.HierarchyOrder

/-!
# What a dispatching call may reach

The relation between classes stands in the classes themselves, which name what is directly above them.
The index turns it around and splits it over three tables. Whether a class below the one named at a call
is found through them is therefore a question for every kind of class: subclasses of classes, classes that
implement an interface, interfaces that extend one. Each direct supertype stands in exactly one table, so
the targets of a call are what the classes below the named one run (`targets_of_subtypes`).
-/

namespace PointsTo

namespace Program

variable {p : Program} {d : Call}

theorem targets_of_dispatches {p : IndexedProgram} (hd : d.Dispatches) : p.targets d =
    .ok (.ofList ((p.subtypes d.target.owner).filterMap (p.dispatch · d.target.subsignature))) := by
  unfold IndexedProgram.targets
  rcases hd with hmode | hmode | hmode <;> rw [hmode] <;> rfl

/-- The targets of a call that dispatches are listed in increasing order, and they are the methods that
the classes below the one named at the call run. These classes are found by a search downward which
meets each of them once, and no other class. All the walks behind this end. -/
theorem targets_of_subtypes (hp : p.validate = .ok ()) (hd : d.Dispatches)
    (howner : d.target.owner < p.classes.size) :
    p.WalksEnd ∧ (p.indexed.subtypes d.target.owner).Nodup ∧
    (∀ c, c ∈ p.indexed.subtypes d.target.owner ↔ p.isSubtype c d.target.owner = true) ∧
    ∃ ts, p.indexed.targets d = .ok ts ∧ ts.toList.Pairwise (· < ·) ∧
      ∀ m, m ∈ ts.toList ↔ ∃ c, p.isSubtype c d.target.owner = true ∧
        p.dispatch c d.target.subsignature = some m := by
  have hbelow : ∀ c, c ∈ p.indexed.subtypes d.target.owner ↔ p.isSubtype c d.target.owner = true :=
    fun c => mem_subtypes_iff hp howner
  refine ⟨walksEnd_of_validate hp, nodup_collectSubtypes List.nodup_nil, hbelow, ?_⟩
  refine ⟨_, targets_of_dispatches hd, IdSet.sorted _, fun m => ?_⟩
  rw [IdSet.mem_toList, IdSet.mem_ofList, List.mem_filterMap]
  simp only [hbelow]
  exact Iff.rfl

end Program

namespace Sample

/-- `this.run()`, called through `I`. -/
def callRun : Call where
  mode := .interface
  target := ⟨0, "void run()"⟩
  receiver := some 1
  args := []
  result := none

/-- `interface I { void run(); }`, `interface J extends I`, `class A implements I { void run() { … } }`,
`class B extends A implements J { void run() {} }` and `class C extends A implements I`. -/
def diamond : Program where
  classes := #[
    { ClassDecl.plain 0 "I" with isInterface := true, methods := .ofList [("void run()", 0)] },
    { ClassDecl.plain 1 "J" with isInterface := true, interfaces := [0] },
    { ClassDecl.plain 2 "A" with interfaces := [0], methods := .ofList [("void run()", 1)] },
    { ClassDecl.plain 3 "B" with superclass := some 2, interfaces := [1],
                                 methods := .ofList [("void run()", 2)] },
    { ClassDecl.plain 4 "C" with superclass := some 2, interfaces := [0] }]
  fields := #[]
  methods := #[
    { identity with id := 0, owner := 0, subsignature := "void run()", isAbstract := true, this := some 0,
                    params := [], returns := [] },
    { identity with id := 1, owner := 2, subsignature := "void run()", this := some 1, params := [],
                    returns := [], body := [.call callRun] },
    { identity with id := 2, owner := 3, subsignature := "void run()", this := some 2, params := [],
                    returns := [] }]
  vars := #[⟨0, "this", 0⟩, ⟨1, "this", 1⟩, ⟨2, "this", 2⟩]
  entry := some 1
  rootClass := none

theorem validate_diamond : diamond.validate = .ok () := by rfl

end Sample

/-- Two interfaces and three classes are below `I`, and between them they run two methods. -/
theorem targets_of_subtypes_diamond :
    Sample.diamond.validate = .ok () ∧ Sample.callRun.Dispatches ∧ 0 < Sample.diamond.classes.size ∧
    Sample.diamond.indexed.subtypes 0 = [0, 2, 4, 1, 3] ∧
    (∀ c, c ∈ Sample.diamond.indexed.subtypes 0 ↔ Sample.diamond.isSubtype c 0 = true) ∧
    ∃ ts, Sample.diamond.indexed.targets Sample.callRun = .ok ts ∧ ts.toList = [1, 2] ∧
      ∀ m, m ∈ ts.toList ↔ ∃ c, Sample.diamond.isSubtype c 0 = true ∧
        Sample.diamond.dispatch c "void run()" = some m := by
  have hd : Sample.callRun.Dispatches := Or.inr (Or.inl rfl)
  have hlt : 0 < Sample.diamond.classes.size := by decide
  obtain ⟨ts, hts, htwo⟩ := exists_ok_of_any (by decide +kernel :
    (Sample.diamond.indexed.targets Sample.callRun).toOption.any (·.toList = [1, 2]) = true)
  obtain ⟨-, -, hbelow, ts', hts', -, hmem⟩ :=
    Program.targets_of_subtypes Sample.validate_diamond hd hlt
  rw [hts] at hts'
  cases hts'
  exact ⟨Sample.validate_diamond, hd, hlt, by decide +kernel, hbelow, ts, hts,
    of_decide_eq_true htwo, hmem⟩

end PointsTo
