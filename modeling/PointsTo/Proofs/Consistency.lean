import Mathlib.Data.Set.Function
import PointsTo.Proofs.Linking

/-!
# What checks promise

The analyses rely on more than that no reference of a program leads nowhere. `Program.Consistent` lists what
they rely on: ids are positions, classes and methods agree on who declares what, methods use their own
variables only, and whatever runs on an object has a variable for it. A program that passes its checks is
consistent (`consistent_of_validate`). Each promise takes several checks, some of classes and some of methods.
-/

namespace PointsTo.Program

/-- The table of the class that is named lists the method under the subsignature. -/
def Lists (p : Program) (x : MethodRef × MethodId) : Prop :=
  ∃ c, p.class? x.1.owner = some c ∧ (x.1.subsignature, x.2) ∈ c.methods.entries

/-- What the analyses rely on. -/
structure Consistent (p : Program) : Prop where
  /-- Whatever id the program mentions, it has what the id stands for. -/
  linked : p.Linked
  classId : ∀ {c d}, p.class? c = some d → d.id = c
  fieldId : ∀ {f d}, p.field? f = some d → d.id = f
  methodId : ∀ {m d}, p.method? m = some d → d.id = m
  varId : ∀ {v d}, p.var? v = some d → d.id = v
  /-- Classes list exactly the methods that name them as their owner. -/
  lists_iff : ∀ {ref m}, p.Lists (ref, m) ↔
    ∃ d, p.method? m = some d ∧ d.owner = ref.owner ∧ d.subsignature = ref.subsignature
  /-- A class lists no two methods under one subsignature. -/
  lists_injOn : Set.InjOn Prod.fst {x | p.Lists x}
  /-- Each method is listed once. -/
  lists_bijOn : Set.BijOn Prod.snd {x | p.Lists x} {m | m < p.methods.size}
  /-- A variable that a method mentions is its own, and the only one of its name there. -/
  ownVar : ∀ {m d v}, p.method? m = some d → v ∈ mentionedVars d → ∃ x, p.var? v = some x ∧
    x.method = m ∧ ∀ {w y}, p.var? w = some y → y.method = m → y.name = x.name → w = v
  this : ∀ {m d}, p.method? m = some d → d.isStatic = false → ∃ v, d.this = some v
  receiver : ∀ {site c}, p.stmt? site = some (.call c) → c.isStatic = false → ∃ v, c.receiver = some v

variable {p : Program} {ref : MethodRef} {m : MethodId}

theorem lists_iff_declared? :
    p.Lists (ref, m) ↔ p.declared? ref.owner ref.subsignature = some m := by
  simp only [Lists, declared?, Option.bind_eq_some_iff, NameMap.get?_eq_some_iff]

theorem lists_injOn (p : Program) : Set.InjOn Prod.fst {x | p.Lists x} := by
  rintro ⟨ref, m⟩ hx ⟨ref', m'⟩ hy rfl
  have hm := lists_iff_declared?.1 hx
  rw [lists_iff_declared?.1 hy, Option.some.injEq] at hm
  rw [hm]

section

variable (hp : p.validate = .ok ())

include hp

theorem field_id_of_validate {f : FieldId} {d : FieldDecl} (hf : p.field? f = some d) : d.id = f := by
  have hcheck := checkField_of_validate hp hf
  simp only [checkField, andThen_eq_ok_iff, require_eq_ok_iff] at hcheck
  simpa using hcheck.1

theorem var_id_of_validate {v : VarId} {d : VarDecl} (hv : p.var? v = some d) : d.id = v := by
  have hcheck := checkVar_of_validate hp hv
  simp only [checkVar, andThen_eq_ok_iff, require_eq_ok_iff, Bool.and_eq_true, decide_eq_true_eq] at hcheck
  exact hcheck.1.1

/-- What a class lists names the class as its owner. -/
theorem method_of_lists (h : p.Lists (ref, m)) :
    ∃ d, p.method? m = some d ∧ d.owner = ref.owner ∧ d.subsignature = ref.subsignature := by
  obtain ⟨c, hc, hlisted⟩ := h
  have hcheck := checkClass_of_validate hp hc
  simp only [checkClass, andThen_eq_ok_iff, forM_eq_ok_iff] at hcheck
  have hentry := hcheck.2.2.2 (ref.subsignature, m) hlisted
  obtain ⟨d, hd⟩ := method_of_declared? hp (lists_iff_declared?.1 ⟨c, hc, hlisted⟩)
  simp only [checkListed, hd, require_eq_ok_iff, Bool.and_eq_true, decide_eq_true_eq] at hentry
  rw [class_id_of_validate hp hc] at hentry
  exact ⟨d, hd, hentry.1, hentry.2⟩

theorem lists_iff_of_validate : p.Lists (ref, m) ↔
    ∃ d, p.method? m = some d ∧ d.owner = ref.owner ∧ d.subsignature = ref.subsignature := by
  constructor
  · exact method_of_lists hp
  · rintro ⟨d, hd, howner, hsub⟩
    rw [lists_iff_declared?, ← howner, ← hsub]
    exact declared?_of_method hp hd

theorem lists_bijOn_of_validate : Set.BijOn Prod.snd {x | p.Lists x} {m | m < p.methods.size} := by
  refine ⟨?_, ?_, ?_⟩
  · rintro ⟨ref, m⟩ h
    obtain ⟨d, hd, -⟩ := method_of_lists hp h
    exact method_lt hd
  · rintro ⟨⟨c, s⟩, m⟩ hx ⟨⟨c', s'⟩, m'⟩ hy rfl
    obtain ⟨d, hd, rfl, rfl⟩ := method_of_lists hp hx
    obtain ⟨d', hd', rfl, rfl⟩ := method_of_lists hp hy
    cases hd.symm.trans hd'
    rfl
  · intro m hm
    have hd : p.method? m = some p.methods[m] := Array.getElem?_eq_getElem hm
    exact ⟨(⟨p.methods[m].owner, p.methods[m].subsignature⟩, m),
      (lists_iff_of_validate hp).2 ⟨_, hd, rfl, rfl⟩, rfl⟩

theorem consistent_of_validate : p.Consistent where
  linked := linked_of_validate hp
  classId := class_id_of_validate hp
  fieldId := field_id_of_validate hp
  methodId := method_id_of_validate hp
  varId := var_id_of_validate hp
  lists_iff := lists_iff_of_validate hp
  lists_injOn := lists_injOn p
  lists_bijOn := lists_bijOn_of_validate hp
  ownVar {m d v} hd hv := by
    obtain ⟨x, hx, hown⟩ := var_of_mentioned hp hd hv
    refine ⟨x, hx, hown, ?_⟩
    intro w y hy hm hname
    exact var_eq_of_name hp hy hx (hm.trans hown.symm) hname
  this {m d} hd hstatic := by
    have hcheck := checkMethod_of_validate hp hd
    simp only [checkMethod, andThen_eq_ok_iff, require_eq_ok_iff, hstatic, Bool.false_or] at hcheck
    exact Option.isSome_iff_exists.1 hcheck.2.2.2.1
  receiver {site c} hs hstatic := by
    obtain ⟨d, -, hcheck⟩ := checkStmt_of_validate hp hs
    simp only [checkStmt, andThen_eq_ok_iff, require_eq_ok_iff, hstatic, Bool.false_or] at hcheck
    exact Option.isSome_iff_exists.1 hcheck.2

end

end PointsTo.Program
