import Mathlib.Data.List.Forall2
import PointsTo.Proofs.ContextSuffix
import PointsTo.Proofs.Naming

/-!
# Facts about corresponding objects

Objects are numbered through a whole program, so in two programs the numbers of what one statement
allocates may differ. `Fact.Related ρ` compares facts as far as `ρ` relates their objects, also inside
contexts. If `ρ` relates the objects that are allocated at the same site (`Heap.Matches`), a fact of one
program corresponds to at most one of the other (`Location.Related.left_unique`). The shipped policies make
corresponding contexts of corresponding ones (`selector_related`).
-/

namespace PointsTo

/-- What one heap has under one number and the other under the other is allocated at the same site, and
it is the same but for the number. -/
def Heap.Matches (h h' : Heap) (i j : ObjId) : Prop :=
  ∃ a a', h.object? i = some a ∧ h'.object? j = some a' ∧ a'.site = a.site ∧ a'.ty = a.ty ∧
    a'.container = a.container

theorem Heap.Matches.symm {h h' : Heap} {i j : ObjId} (hij : h.Matches h' i j) : h'.Matches h j i := by
  obtain ⟨a, a', ha, ha', hsite, hty, hcontainer⟩ := hij
  exact ⟨a', a, ha', ha, hsite.symm, hty.symm, hcontainer.symm⟩

/-- An allocation site has one object. -/
theorem Heap.leftUnique_matches {p : Program} (hp : p.validate = .ok ()) {h' : Heap} :
    Relator.LeftUnique ((Heap.ofProgram p).Matches h') := by
  rintro i₁ j i₂ ⟨a, a', ha, ha', hsite, -⟩ ⟨b, b', hb, hb', hsite', -⟩
  rw [ha'] at hb'
  cases hb'
  exact Heap.object_eq_of_site hp ha hb (hsite.symm.trans hsite')

section

variable (ρ : ObjId → ObjId → Prop)

/-- The elements are the same, objects up to `ρ`. -/
inductive ContextElement.Related : ContextElement → ContextElement → Prop where
  | callSite {site : Site} : Related (.callSite site) (.callSite site)
  | object {i j : ObjId} (h : ρ i j) : Related (.object i) (.object j)
  | type {c : ClassId} : Related (.type c) (.type c)

def Context.Related (c c' : Context) : Prop :=
  List.Forall₂ (ContextElement.Related ρ) c.elements c'.elements

structure HeapObject.Related (o o' : HeapObject) : Prop where
  heapContext : o.heapContext.Related ρ o'.heapContext
  object : ρ o.object o'.object

structure MethodInstance.Related (m m' : MethodInstance) : Prop where
  context : m.context.Related ρ m'.context
  method : m'.method = m.method

structure SiteInstance.Related (x x' : SiteInstance) : Prop where
  context : x.context.Related ρ x'.context
  site : x'.site = x.site

inductive Location.Related : Location → Location → Prop where
  | var {c c' : Context} {v : VarId} (h : c.Related ρ c') : Related (.var c v) (.var c' v)
  | instanceField {o o' : HeapObject} {f : FieldId} (h : o.Related ρ o') :
      Related (.instanceField o f) (.instanceField o' f)
  | staticField {f : FieldId} : Related (.staticField f) (.staticField f)
  | arraySlots {o o' : HeapObject} (h : o.Related ρ o') : Related (.arraySlots o) (.arraySlots o')

/-- The facts say the same, of objects that are the same up to `ρ`. -/
inductive Fact.Related : Fact → Fact → Prop where
  | context {c c' : Context} (h : c.Related ρ c') : Related (.context c) (.context c')
  | object {o o' : HeapObject} (h : o.Related ρ o') : Related (.object o) (.object o')
  | method {m m' : MethodInstance} (h : m.Related ρ m') : Related (.method m) (.method m')
  | site {x x' : SiteInstance} (h : x.Related ρ x') : Related (.site x) (.site x')
  | location {l l' : Location} (h : l.Related ρ l') : Related (.location l) (.location l')
  | entry {m m' : MethodInstance} (h : m.Related ρ m') : Related (.entry m) (.entry m')
  | reachable {m m' : MethodInstance} (h : m.Related ρ m') : Related (.reachable m) (.reachable m')
  | pointsTo {l l' : Location} {o o' : HeapObject} (hl : l.Related ρ l') (ho : o.Related ρ o') :
      Related (.pointsTo l o) (.pointsTo l' o')
  | flow {l l' r r' : Location} (hl : l.Related ρ l') (hr : r.Related ρ r') :
      Related (.flow l r) (.flow l' r')
  | call {kind : EdgeKind} {x x' : SiteInstance} {m m' : MethodInstance} (hx : x.Related ρ x')
      (hm : m.Related ρ m') : Related (.call kind x m) (.call kind x' m')

/-- The facts that are related to one of `G`. -/
def Mirrors (G : Fact → Prop) (f' : Fact) : Prop := ∃ f, G f ∧ f.Related ρ f'

end

section

variable {ρ σ : ObjId → ObjId → Prop}

/-! ### Both ways -/

theorem Context.Related.symm {c c' : Context} (hρ : ∀ {i j}, ρ i j → σ j i) (h : c.Related ρ c') :
    c'.Related σ c := by
  refine List.Forall₂.flip (h.imp ?_)
  rintro e e' (_ | h | _)
  · exact .callSite
  · exact .object (hρ h)
  · exact .type

theorem HeapObject.Related.symm {o o' : HeapObject} (hρ : ∀ {i j}, ρ i j → σ j i)
    (h : o.Related ρ o') : o'.Related σ o :=
  ⟨h.heapContext.symm hρ, hρ h.object⟩

theorem MethodInstance.Related.symm {m m' : MethodInstance} (hρ : ∀ {i j}, ρ i j → σ j i)
    (h : m.Related ρ m') : m'.Related σ m :=
  ⟨h.context.symm hρ, h.method.symm⟩

theorem SiteInstance.Related.symm {x x' : SiteInstance} (hρ : ∀ {i j}, ρ i j → σ j i)
    (h : x.Related ρ x') : x'.Related σ x :=
  ⟨h.context.symm hρ, h.site.symm⟩

theorem Location.Related.symm {l l' : Location} (hρ : ∀ {i j}, ρ i j → σ j i)
    (h : l.Related ρ l') : l'.Related σ l := by
  cases h with
  | var h => exact .var (h.symm hρ)
  | instanceField h => exact .instanceField (h.symm hρ)
  | staticField => exact .staticField
  | arraySlots h => exact .arraySlots (h.symm hρ)

theorem Fact.Related.symm {f f' : Fact} (hρ : ∀ {i j}, ρ i j → σ j i) (h : f.Related ρ f') :
    f'.Related σ f := by
  cases h with
  | context h => exact .context (h.symm hρ)
  | object h => exact .object (h.symm hρ)
  | method h => exact .method (h.symm hρ)
  | site h => exact .site (h.symm hρ)
  | location h => exact .location (h.symm hρ)
  | entry h => exact .entry (h.symm hρ)
  | reachable h => exact .reachable (h.symm hρ)
  | pointsTo hl ho => exact .pointsTo (hl.symm hρ) (ho.symm hρ)
  | flow hl hr => exact .flow (hl.symm hρ) (hr.symm hρ)
  | call hx hm => exact .call (hx.symm hρ) (hm.symm hρ)

/-! ### One way back -/

section

variable (hρ : Relator.LeftUnique ρ)

include hρ

theorem Context.Related.left_unique {c₁ c₂ c' : Context} (h₁ : c₁.Related ρ c')
    (h₂ : c₂.Related ρ c') : c₁ = c₂ := by
  have helements : Relator.LeftUnique (ContextElement.Related ρ) := by
    rintro e₁ e' e₂ (_ | h | _) h'
    · cases h'
      rfl
    · cases h' with
      | object h' => rw [hρ h h']
    · cases h'
      rfl
  cases c₁
  cases c₂
  exact congrArg Context.mk (List.left_unique_forall₂' helements h₁ h₂)

theorem HeapObject.Related.left_unique {o₁ o₂ o' : HeapObject} (h₁ : o₁.Related ρ o')
    (h₂ : o₂.Related ρ o') : o₁ = o₂ := by
  cases o₁
  cases o₂
  exact congrArg₂ HeapObject.mk (h₁.heapContext.left_unique hρ h₂.heapContext) (hρ h₁.object h₂.object)

theorem Location.Related.left_unique {l₁ l₂ l' : Location} (h₁ : l₁.Related ρ l')
    (h₂ : l₂.Related ρ l') : l₁ = l₂ := by
  cases h₁ with
  | var h =>
    cases h₂ with
    | var h' => rw [h.left_unique hρ h']
  | instanceField h =>
    cases h₂ with
    | instanceField h' => rw [h.left_unique hρ h']
  | staticField =>
    cases h₂
    rfl
  | arraySlots h =>
    cases h₂ with
    | arraySlots h' => rw [h.left_unique hρ h']

end

/-! ### What the shipped policies make of contexts -/

namespace Context.Related

variable {c c' : Context} {e e' : ContextElement}

theorem empty : (∅ : Context).Related ρ ∅ := .nil

theorem lastOf {xs ys : List ContextElement} (n : Nat) (h : List.Forall₂ (ContextElement.Related ρ) xs ys) :
    List.Forall₂ (ContextElement.Related ρ) (Context.lastOf n xs) (Context.lastOf n ys) := by
  rw [Context.lastOf, Context.lastOf, h.length_eq]
  exact List.forall₂_drop _ h

theorem truncate (n : Nat) (h : c.Related ρ c') : (c.truncate n).Related ρ (c'.truncate n) :=
  lastOf n h

theorem append (n : Nat) (h : c.Related ρ c') (he : e.Related ρ e') :
    (c.append e n).Related ρ (c'.append e' n) :=
  lastOf n (List.rel_append h (.cons he .nil))

end Context.Related

/-- A shipped policy makes related contexts of related ones. -/
theorem selector_related (policy : ContextPolicy) (k heapK : Nat) {c c' : Context}
    (hc : c.Related ρ c') :
    (∀ site m, ((policy.selector k heapK).calleeContext c site none m).Related ρ
      ((policy.selector k heapK).calleeContext c' site none m)) ∧
    (∀ a a', ((policy.selector k heapK).heapContext c a).Related ρ
      ((policy.selector k heapK).heapContext c' a')) ∧
    ∀ site h h' a a' m, h.Related ρ h' → ρ a.id a'.id → a'.container = a.container →
      ((policy.selector k heapK).calleeContext c site (some ⟨h, a⟩) m).Related ρ
        ((policy.selector k heapK).calleeContext c' site (some ⟨h', a'⟩) m) := by
  cases policy with
  | insensitive => exact ⟨fun _ _ => .empty, fun _ _ => .empty, fun _ _ _ _ _ _ _ _ _ => .empty⟩
  | callSite =>
    exact ⟨fun _ _ => hc.append k .callSite, fun _ _ => hc.truncate heapK,
      fun _ _ _ _ _ _ _ _ _ => hc.append k .callSite⟩
  | object =>
    exact ⟨fun _ _ => hc.truncate k, fun _ _ => hc.truncate heapK,
      fun _ _ _ _ _ _ hh hid _ => hh.append k (.object hid)⟩
  | type =>
    refine ⟨fun _ _ => hc.truncate k, fun _ _ => hc.truncate heapK, ?_⟩
    intro site h h' a a' m hh _ hcontainer
    refine hh.append k ?_
    show ContextElement.Related ρ (.type a.container) (.type a'.container)
    rw [hcontainer]
    exact .type

end

end PointsTo
