import PointsTo.Proofs.CycleSearch
import PointsTo.Proofs.HierarchyTargets

/-!
# Subtyping orders the classes

`isSubtype` looks for a class by recursion, within as many steps as there are classes. A machine keeps the
classes that it has still to look at on a stack, and nothing else: it does not know which classes it has met,
so that a supertype to which several paths lead is looked at once for each of them, and on a cycle it might
never end (`Program.climbInTurns`). In a checked program every class is off the stack again after some number
of turns, together with all that was put there in its place. This is an induction on the hierarchy, with
anything below the class on the stack (`looksFor_of_validate`).

What both find is a path through direct supertypes. Paths can be empty and joined; and no class has a path to
another and back, as the hierarchy has no cycle (`isSubtype_partialOrder`).
-/

namespace PointsTo

namespace Program

/-- Is one of the classes on the stack the class `sup` or below it? The machine has `n` turns to find out. -/
def climbInTurns (p : Program) (sup : ClassId) : (n : Nat) → (stack : List ClassId) → Except Halt Bool
  | _, [] => pure false
  | 0, _ :: _ => throw .unfinished
  | n + 1, c :: rest =>
    if c = sup then pure true
    else do
      let decl ← lookUp p.classes c
      -- the supertype that was put on the stack last is looked at first
      p.climbInTurns sup n (decl.supertypes.reverse ++ rest)

variable {p : Program} {a b c sup : ClassId} {found : Bool} {classes : List ClassId}

/-- Some number of turns leads from a stack with the given classes on top to the answer `true`, or else to
the rest of the stack. -/
def LooksFor (p : Program) (sup : ClassId) (classes : List ClassId) (found : Bool) : Prop :=
  ∃ k, ∀ n rest, p.climbInTurns sup (n + k) (classes ++ rest) =
    if found then .ok true else p.climbInTurns sup n rest

theorem looksFor_nil : p.LooksFor sup [] false := ⟨0, fun _ _ => rfl⟩

theorem looksFor_self : p.LooksFor sup [sup] true := by
  refine ⟨1, fun n rest => ?_⟩
  show p.climbInTurns sup (n + 1) (sup :: rest) = .ok true
  rw [climbInTurns, if_pos rfl]
  rfl

/-- A class that is not the one looked for gives its place to its direct supertypes. -/
theorem looksFor_step {decl : ClassDecl} (hc : p.class? c = some decl) (hne : c ≠ sup)
    (h : p.LooksFor sup decl.supertypes.reverse found) : p.LooksFor sup [c] found := by
  obtain ⟨k, hk⟩ := h
  refine ⟨k + 1, fun n rest => ?_⟩
  show p.climbInTurns sup (n + k + 1) (c :: rest) = _
  rw [climbInTurns, if_neg hne, lookUp_eq hc]
  exact hk n rest

/-- Classes on the stack are looked at one after the other, until one of them is found to be below. -/
theorem looksFor_any {below : ClassId → Bool} (h : ∀ c ∈ classes, p.LooksFor sup [c] (below c)) :
    p.LooksFor sup classes (classes.any below) := by
  induction classes with
  | nil => exact looksFor_nil
  | cons c classes ih =>
    obtain ⟨k, hk⟩ := h c List.mem_cons_self
    obtain ⟨j, hj⟩ := ih fun d hd => h d (List.mem_cons_of_mem c hd)
    refine ⟨j + k, fun n rest => ?_⟩
    have hfirst : p.climbInTurns sup (n + (j + k)) (c :: classes ++ rest) =
        if below c then .ok true else p.climbInTurns sup (n + j) (classes ++ rest) := by
      rw [← Nat.add_assoc]
      exact hk (n + j) (classes ++ rest)
    rw [hfirst, List.any_cons]
    cases hbelow : below c with
    | true => rfl
    | false =>
      rw [Bool.false_or]
      exact hj n rest

/-- The induction is on the hierarchy: it is because supertypes have no cycle that the machine is done with
a class. -/
theorem looksFor_of_validate (hp : p.validate = .ok ()) (sup : ClassId) (hc : c < p.classes.size) :
    p.LooksFor sup [c] (p.isSubtype c sup) := by
  induction c using (wellFounded_supertypes hp).induction with
  | _ c ih =>
    obtain ⟨decl, hdecl⟩ := exists_class hc
    have hsupertypes : p.supertypes c = decl.supertypes := by simp [supertypes, hdecl]
    rw [isSubtype_eq hp]
    by_cases hself : c = sup
    · rw [hself, beq_self_eq_true, Bool.true_or]
      exact looksFor_self
    · have hne : (c == sup) = false := beq_eq_false_iff_ne.2 hself
      rw [hne, Bool.false_or, hsupertypes, ← List.any_reverse]
      apply looksFor_step hdecl hself
      apply looksFor_any
      intro d hd
      have hd : d ∈ p.supertypes c := by rwa [hsupertypes, ← List.mem_reverse]
      exact ih d hd (lt_of_mem_supertypes hp hd)

theorem exists_climbInTurns_eq (hp : p.validate = .ok ()) (sup : ClassId) (hc : c < p.classes.size) :
    ∃ k, ∀ n ≥ k, p.climbInTurns sup n [c] = .ok (p.isSubtype c sup) := by
  obtain ⟨k, hk⟩ := looksFor_of_validate hp sup hc
  refine ⟨k, fun n hn => ?_⟩
  obtain ⟨j, rfl⟩ := Nat.exists_eq_add_of_le' hn
  have hend : p.climbInTurns sup j [] = .ok false := by cases j <;> rfl
  have h := hk j []
  rw [hend] at h
  cases hfound : p.isSubtype c sup <;> simpa [hfound] using h

theorem eq_of_paths (hp : p.validate = .ok ())
    (hab : Relation.ReflTransGen (fun c sup => sup ∈ p.supertypes c) a b)
    (hba : Relation.ReflTransGen (fun c sup => sup ∈ p.supertypes c) b a) : a = b := by
  rcases Relation.reflTransGen_iff_eq_or_transGen.1 hab with heq | hcycle
  · exact heq.symm
  · exact absurd (hcycle.trans_left hba) (not_above_self hp a)

/-- In a checked program the machine that looks for `b` above `a` comes to an end, asks for no class in vain,
and answers whether `a` is below `b`: whether zero or more steps to a direct superclass or interface lead
from `a` to `b`. Being below is reflexive, transitive and antisymmetric. -/
theorem isSubtype_partialOrder (hp : p.validate = .ok ()) (ha : a < p.classes.size) (b c : ClassId) :
    (∃ k, ∀ n ≥ k, p.climbInTurns b n [a] = .ok (p.isSubtype a b)) ∧
    (p.isSubtype a b = true ↔ Relation.ReflTransGen (fun c sup => sup ∈ p.supertypes c) a b) ∧
    p.isSubtype a a = true ∧
    (p.isSubtype a b = true → p.isSubtype b c = true → p.isSubtype a c = true) ∧
    (p.isSubtype a b = true → p.isSubtype b a = true → a = b) := by
  refine ⟨exists_climbInTurns_eq hp b ha, isSubtype_iff_path hp, climbs_self _ a, ?_, ?_⟩
  · intro hab hbc
    rw [isSubtype_iff_path hp] at hab hbc ⊢
    exact hab.trans hbc
  · intro hab hba
    rw [isSubtype_iff_path hp] at hab hba
    exact eq_of_paths hp hab hba

end Program

/-- `B` is below `I` by way of `A` and by way of `J`. The machine that looks for `C` above `B` meets `I` on both
ways before it gives up. -/
theorem isSubtype_partialOrder_diamond :
    Sample.diamond.validate = .ok () ∧ 3 < Sample.diamond.classes.size ∧
    (∃ n, Sample.diamond.climbInTurns 4 n [3] = .ok false) ∧
    Relation.ReflTransGen (fun c sup => sup ∈ Sample.diamond.supertypes c) 3 0 ∧
    Sample.diamond.isSubtype 3 2 = true ∧ Sample.diamond.isSubtype 2 0 = true ∧
    Sample.diamond.isSubtype 3 0 = true ∧ Sample.diamond.isSubtype 0 3 = false := by
  have hlt : 3 < Sample.diamond.classes.size := by decide
  have hA : Sample.diamond.isSubtype 3 2 = true := by decide +kernel
  have hI : Sample.diamond.isSubtype 2 0 = true := by decide +kernel
  obtain ⟨⟨k, hk⟩, -⟩ := Program.isSubtype_partialOrder Sample.validate_diamond hlt 4 0
  obtain ⟨-, -, -, htrans, -⟩ := Program.isSubtype_partialOrder Sample.validate_diamond hlt 2 0
  obtain ⟨-, hpath, -, -, hantisymm⟩ := Program.isSubtype_partialOrder Sample.validate_diamond hlt 0 0
  have hB : Sample.diamond.isSubtype 3 0 = true := htrans hA hI
  refine ⟨Sample.validate_diamond, hlt, ⟨k, ?_⟩, hpath.1 hB, hA, hI, hB, ?_⟩
  · rw [hk k (Nat.le_refl k)]
    decide +kernel
  · exact Bool.eq_false_iff.2 fun hback => absurd (hantisymm hB hback) (by decide)

end PointsTo
