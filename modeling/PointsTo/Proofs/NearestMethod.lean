import PointsTo.Proofs.CycleSearch
import PointsTo.Proofs.HierarchyOrder

/-!
# Dispatch finds the nearest method

The walk for a method looks at a class, and at its superclass if the class declares nothing or only an
abstract method (`Program.Walk`). A declaration of the second kind neither ends the walk nor hides what is
above it, so what is found is the concrete method of the nearest class that has one
(`Program.Nearest`). The walk ends in a checked program as superclasses there have no cycle.
-/

namespace PointsTo

namespace Program

/-- The superclass of `c` is `sup`. -/
def Inherits (p : Program) (c sup : ClassId) : Prop := p.superclass? c = some sup

/-- The class `c` itself declares `m` under a subsignature, and `m` is not abstract. -/
def Defines (p : Program) (subsignature : String) (c : ClassId) (m : MethodId) : Prop :=
  p.declared? c subsignature = some m ∧ ∃ decl, p.method? m = some decl ∧ decl.isAbstract = false

/-- The walk upward for a method, from the class that is to be looked at next. It has no bound. -/
inductive Walk (p : Program) (subsignature : String) : Option ClassId → Option MethodId → Prop where
  | found {c : ClassId} {m : MethodId} (defines : p.Defines subsignature c m) :
      Walk p subsignature (some c) (some m)
  | up {c : ClassId} {result : Option MethodId} (without : ∀ m, ¬ p.Defines subsignature c m)
      (rest : Walk p subsignature (p.superclass? c) result) : Walk p subsignature (some c) result
  | top : Walk p subsignature none none

/-- Of the class `c` and those above it, `d` is the first one that defines a method, and this is `m`. -/
structure Nearest (p : Program) (subsignature : String) (c d : ClassId) (m : MethodId) : Prop where
  above : Relation.ReflTransGen p.Inherits c d
  defines : p.Defines subsignature d m
  first : ∀ e, Relation.ReflTransGen p.Inherits c e → Relation.TransGen p.Inherits e d →
    ∀ m', ¬ p.Defines subsignature e m'

variable {p : Program} {s : String} {c d sup : ClassId} {m : MethodId}

/-! ## One class -/

theorem concrete?_eq_some_iff : p.concrete? c s = some m ↔ p.Defines s c m := by
  simp only [concrete?, Option.filter_eq_some_iff, Defines, Option.any_eq_true, Bool.not_eq_true']

theorem concrete?_eq_none_iff : p.concrete? c s = none ↔ ∀ m, ¬ p.Defines s c m := by
  simp only [Option.eq_none_iff_forall_ne_some, ne_eq, concrete?_eq_some_iff]

theorem dispatch_of_defines (hp : p.validate = .ok ()) (h : p.Defines s c m) :
    p.dispatch c s = some m := by
  rw [dispatch_eq hp, concrete?_eq_some_iff.2 h, Option.some_or]

theorem dispatch_of_inherits (hp : p.validate = .ok ()) (h : ∀ m, ¬ p.Defines s c m) :
    p.dispatch c s = (p.superclass? c).bind (p.dispatch · s) := by
  rw [dispatch_eq hp, concrete?_eq_none_iff.2 h, Option.none_or]

/-! ## The walk -/

theorem walk_dispatch (hp : p.validate = .ok ()) (c : ClassId) : p.Walk s (some c) (p.dispatch c s) := by
  induction c using (wellFounded_supertypes hp).induction with
  | _ c ih =>
    by_cases hc : ∃ m, p.Defines s c m
    · obtain ⟨m, hm⟩ := hc
      rw [dispatch_of_defines hp hm]
      exact .found hm
    · rw [not_exists] at hc
      refine .up hc ?_
      rw [dispatch_of_inherits hp hc]
      cases hsup : p.superclass? c with
      | none => exact .top
      | some sup => exact ih sup (mem_supertypes_of_superclass? hsup)

theorem Walk.eq_dispatch (hp : p.validate = .ok ()) {start : Option ClassId} {result : Option MethodId}
    (h : p.Walk s start result) : result = start.bind (p.dispatch · s) := by
  induction h with
  | found defines => exact (dispatch_of_defines hp defines).symm
  | up without _ ih => rw [ih, Option.bind_some, dispatch_of_inherits hp without]
  | top => rfl

/-- The walk comes to an end, and to no other than `dispatch` does. -/
theorem walk_iff (hp : p.validate = .ok ()) {result : Option MethodId} :
    p.Walk s (some c) result ↔ p.dispatch c s = result := by
  constructor
  · intro h
    exact (h.eq_dispatch hp).symm
  · rintro rfl
    exact walk_dispatch hp c

/-! ## The classes above -/

theorem lt_of_inherits (hp : p.validate = .ok ()) (hc : c < p.classes.size)
    (h : Relation.ReflTransGen p.Inherits c d) : d < p.classes.size := by
  induction h with
  | refl => exact hc
  | tail _ hsup _ => exact lt_of_mem_supertypes hp (mem_supertypes_of_superclass? hsup)

theorem not_inherits_self (hp : p.validate = .ok ()) (c : ClassId) :
    ¬ Relation.TransGen p.Inherits c c := by
  have hle : p.Inherits ≤ fun c sup => sup ∈ p.supertypes c := fun _ _ => mem_supertypes_of_superclass?
  exact fun h => not_above_self hp c (Relation.TransGen.mono hle c c h)

theorem exists_nearest (hp : p.validate = .ok ()) (h : p.dispatch c s = some m) :
    ∃ d, p.Nearest s c d m := by
  induction c using (wellFounded_supertypes hp).induction with
  | _ c ih =>
    by_cases hc : ∃ m, p.Defines s c m
    · obtain ⟨n, hn⟩ := hc
      obtain rfl : n = m := Option.some.inj ((dispatch_of_defines hp hn).symm.trans h)
      -- nothing on the chain stands before its first class, as no class is above itself
      refine ⟨c, .refl, hn, fun e hce hec => ?_⟩
      exact absurd (Relation.TransGen.trans_right hce hec) (not_inherits_self hp c)
    · rw [not_exists] at hc
      rw [dispatch_of_inherits hp hc] at h
      obtain ⟨sup, hsup, h⟩ := Option.bind_eq_some_iff.1 h
      obtain ⟨d, hd⟩ := ih sup (mem_supertypes_of_superclass? hsup) h
      refine ⟨d, .head hsup hd.above, hd.defines, fun e hce hed => ?_⟩
      rcases hce.cases_head with rfl | ⟨sup', hsup', hce⟩
      · exact hc
      · obtain rfl : sup' = sup := Option.some.inj (hsup'.symm.trans hsup)
        exact hd.first e hce hed

theorem Nearest.dispatch_eq (hp : p.validate = .ok ()) (h : p.Nearest s c d m) :
    p.dispatch c s = some m := by
  obtain ⟨habove, hdefines, hfirst⟩ := h
  induction habove using Relation.ReflTransGen.head_induction_on with
  | refl => exact dispatch_of_defines hp hdefines
  | @head c sup hsup hrest ih =>
    have hwithout := hfirst c .refl (.head' hsup hrest)
    rw [dispatch_of_inherits hp hwithout, show p.superclass? c = some sup from hsup]
    exact ih fun e he => hfirst e (.head hsup he)

theorem dispatch_ne_none (hp : p.validate = .ok ()) (habove : Relation.ReflTransGen p.Inherits c d)
    (hdefines : p.Defines s d m) : p.dispatch c s ≠ none := by
  induction habove using Relation.ReflTransGen.head_induction_on with
  | refl =>
    rw [dispatch_of_defines hp hdefines]
    exact Option.some_ne_none m
  | @head c sup hsup _ ih =>
    by_cases hc : ∃ m, p.Defines s c m
    · obtain ⟨n, hn⟩ := hc
      rw [dispatch_of_defines hp hn]
      exact Option.some_ne_none n
    · rw [not_exists] at hc
      rwa [dispatch_of_inherits hp hc, show p.superclass? c = some sup from hsup]

/-- In a checked program the walk for a method ends with what `dispatch` returns, and on its way meets only
classes and methods that are there. What it finds is the method that the nearest class defines, of the class
it starts at and those above; it finds none if none of them defines any. A class that defines none has the
method of its superclass. -/
theorem dispatch_nearest (hp : p.validate = .ok ()) (hc : c < p.classes.size) (s : String) :
    (∀ result, p.Walk s (some c) result ↔ p.dispatch c s = result) ∧
    (∀ d, Relation.ReflTransGen p.Inherits c d → d < p.classes.size ∧
      ∀ m, p.declared? d s = some m → ∃ decl, p.method? m = some decl) ∧
    (∀ m, p.dispatch c s = some m ↔ ∃ d, p.Nearest s c d m) ∧
    (p.dispatch c s = none ↔ ∀ d m, Relation.ReflTransGen p.Inherits c d → ¬ p.Defines s d m) ∧
    ∀ sup, p.Inherits c sup → (∀ m, ¬ p.Defines s c m) → p.dispatch c s = p.dispatch sup s := by
  refine ⟨fun _ => walk_iff hp, fun d hd => ⟨lt_of_inherits hp hc hd, fun m => method_of_declared? hp⟩,
    fun m => ⟨exists_nearest hp, fun ⟨d, hd⟩ => hd.dispatch_eq hp⟩, ⟨?_, fun h => ?_⟩, ?_⟩
  · intro h d m hd hm
    exact dispatch_ne_none hp hd hm h
  · rw [Option.eq_none_iff_forall_ne_some]
    intro m hm
    obtain ⟨d, hd⟩ := exists_nearest hp hm
    exact h d m hd.above hd.defines
  · intro sup hsup hwithout
    rw [dispatch_of_inherits hp hwithout, show p.superclass? c = some sup from hsup, Option.bind_some]

end Program

namespace Sample

/-- `class Base { void foo() {} }`, `abstract class Mid extends Base { abstract void foo(), bar(); }` and
`class Leaf extends Mid`. -/
def redeclared : Program where
  classes := #[
    { ClassDecl.plain 0 "Base" with methods := .ofList [("void foo()", 0)] },
    { ClassDecl.plain 1 "Mid" with superclass := some 0, isAbstract := true,
                                   methods := .ofList [("void foo()", 1), ("void bar()", 2)] },
    { ClassDecl.plain 2 "Leaf" with superclass := some 1 }]
  fields := #[]
  methods := #[
    { identity with id := 0, owner := 0, subsignature := "void foo()", this := some 0, params := [],
                    returns := [] },
    { identity with id := 1, owner := 1, subsignature := "void foo()", isAbstract := true, this := some 1,
                    params := [], returns := [] },
    { identity with id := 2, owner := 1, subsignature := "void bar()", isAbstract := true, this := some 2,
                    params := [], returns := [] }]
  vars := #[⟨0, "this", 0⟩, ⟨1, "this", 1⟩, ⟨2, "this", 2⟩]
  entry := none
  rootClass := none

theorem validate_redeclared : redeclared.validate = .ok () := by rfl

end Sample

/-- The abstract method in the middle does not hide the one above it, and is not found itself. -/
theorem dispatch_nearest_redeclared :
    Sample.redeclared.validate = .ok () ∧ 2 < Sample.redeclared.classes.size ∧
    Sample.redeclared.dispatch 2 "void foo()" = some 0 ∧
    (∃ d, Sample.redeclared.Nearest "void foo()" 2 d 0) ∧
    Sample.redeclared.declared? 1 "void bar()" = some 2 ∧
    (∀ d m, Relation.ReflTransGen Sample.redeclared.Inherits 2 d →
      ¬ Sample.redeclared.Defines "void bar()" d m) ∧
    Sample.redeclared.dispatch 2 "void foo()" = Sample.redeclared.dispatch 1 "void foo()" := by
  have hlt : 2 < Sample.redeclared.classes.size := by decide
  have hfoo : Sample.redeclared.dispatch 2 "void foo()" = some 0 := by decide +kernel
  have hbar : Sample.redeclared.dispatch 2 "void bar()" = none := by decide +kernel
  obtain ⟨-, -, hnearest, -, hinherited⟩ :=
    Program.dispatch_nearest Sample.validate_redeclared hlt "void foo()"
  obtain ⟨-, -, -, hnone, -⟩ := Program.dispatch_nearest Sample.validate_redeclared hlt "void bar()"
  refine ⟨Sample.validate_redeclared, hlt, hfoo, (hnearest 0).1 hfoo, by decide +kernel, hnone.1 hbar,
    hinherited 1 rfl ?_⟩
  exact Program.concrete?_eq_none_iff.1 (by decide +kernel)

end PointsTo
