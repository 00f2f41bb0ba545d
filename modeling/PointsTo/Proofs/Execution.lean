import Mathlib.Logic.Function.Basic
import Mathlib.Logic.Relation
import PointsTo.Program.Dispatch

/-!
# Executions of a program

Programs are analysed without being run. Here is what running one means. A machine has frames, objects
and a memory, whose cells hold a reference or null. Since the order of statements says nothing, a frame
may execute any statement of its method at any time and any number of times, and it may hand a result
to its caller at any time. Frames are therefore never removed, and the frames of a machine tell which
calls have been taken.

Nothing is cleared when a frame or an object is created. That it starts with null all the same follows
from `Machine.Tidy`, which every execution keeps: no cell is written before its frame or object exists.
-/

namespace PointsTo

/-- What stands in a list with one more element is that element or stood there before. -/
theorem getElem?_concat_cases {α : Type} {xs : List α} {x y : α} {i : Nat}
    (h : (xs ++ [x])[i]? = some y) :
    (i < xs.length ∧ xs[i]? = some y) ∨ (i = xs.length ∧ y = x) := by
  by_cases hlt : i < xs.length
  · rw [List.getElem?_append_left hlt] at h
    exact Or.inl ⟨hlt, h⟩
  · have hi : i < xs.length + 1 := by simpa using (List.getElem?_eq_some_iff.1 h).1
    obtain rfl : i = xs.length := by omega
    rw [List.getElem?_concat_length, Option.some.injEq] at h
    exact Or.inr ⟨rfl, h.symm⟩

/-- Position of a frame among the frames, in the order of the calls. -/
abbrev FrameId := Nat

/-- Position of an object among the objects, in the order of their creation. -/
abbrev Ref := Nat

/-- A method that runs, with the frame and the site that called it. -/
structure Frame where
  method : MethodId
  caller : Option (FrameId × Site)

/-- An object, which remembers where it was allocated. -/
structure Allocation where
  site : Site
  ty : TypeRef

/-- What holds a reference or null. -/
inductive Cell where
  /-- A local variable of a frame. -/
  | var (frame : FrameId) (v : VarId)
  | field (base : Ref) (f : FieldId)
  | static (f : FieldId)
  | slot (array : Ref) (i : Nat)
deriving DecidableEq

structure Machine where
  frames : List Frame
  objects : List Allocation
  memory : Cell → Option Ref

namespace Machine

/-- Frames of the given methods, and everything null. -/
def start (methods : List MethodId) : Machine :=
  ⟨methods.map (⟨·, none⟩), [], fun _ => none⟩

/-- Write a cell. -/
def assign (m : Machine) (c : Cell) (r : Option Ref) : Machine :=
  { m with memory := Function.update m.memory c r }

/-- Copy what a cell holds to another one. -/
def move (m : Machine) (source target : Cell) : Machine := m.assign target (m.memory source)

/-- Create an object. -/
def allocate (m : Machine) (site : Site) (ty : TypeRef) : Machine :=
  { m with objects := m.objects ++ [⟨site, ty⟩] }

/-- Push a frame. -/
def push (m : Machine) (frame : Frame) : Machine := { m with frames := m.frames ++ [frame] }

/-- Copy variables of frame `i` to variables of frame `k`, one pair after the other. -/
def pass (m : Machine) (i k : FrameId) (pairs : List (VarId × VarId)) : Machine :=
  pairs.foldl (fun m (arg, param) => m.move (.var i arg) (.var k param)) m

/-- Call a method from frame `i`; the pairs say which variables of the caller its variables start
with. -/
def enter (m : Machine) (i : FrameId) (site : Site) (callee : MethodId)
    (pairs : List (VarId × VarId)) : Machine :=
  (m.push ⟨callee, some (i, site)⟩).pass i m.frames.length pairs

/-- The statement at a site is one of the method that frame `i` runs. -/
def Executes (p : Program) (m : Machine) (i : FrameId) (site : Site) (stmt : Stmt) : Prop :=
  (∃ frame, m.frames[i]? = some frame ∧ frame.method = site.method) ∧ p.stmt? site = some stmt

/-- One step of a machine. -/
inductive Step (p : Program) : Machine → Machine → Prop where
  | new {m : Machine} {i : FrameId} {site : Site} {lhs : VarId} {ty : TypeRef}
      (h : m.Executes p i site (.new lhs ty)) :
      Step p m ((m.allocate site ty).assign (.var i lhs) (some m.objects.length))
  | copy {m : Machine} {i : FrameId} {site : Site} {lhs rhs : VarId}
      (h : m.Executes p i site (.copy lhs rhs)) : Step p m (m.move (.var i rhs) (.var i lhs))
  | loadStatic {m : Machine} {i : FrameId} {site : Site} {lhs : VarId} {f : FieldId}
      (h : m.Executes p i site (.loadStatic lhs f)) : Step p m (m.move (.static f) (.var i lhs))
  | storeStatic {m : Machine} {i : FrameId} {site : Site} {f : FieldId} {rhs : VarId}
      (h : m.Executes p i site (.storeStatic f rhs)) : Step p m (m.move (.var i rhs) (.static f))
  | loadField {m : Machine} {i : FrameId} {site : Site} {lhs base : VarId} {f : FieldId} {r : Ref}
      (h : m.Executes p i site (.loadField lhs base f)) (hb : m.memory (.var i base) = some r) :
      Step p m (m.move (.field r f) (.var i lhs))
  | storeField {m : Machine} {i : FrameId} {site : Site} {base rhs : VarId} {f : FieldId} {r : Ref}
      (h : m.Executes p i site (.storeField base f rhs)) (hb : m.memory (.var i base) = some r) :
      Step p m (m.move (.var i rhs) (.field r f))
  | loadArray {m : Machine} {i : FrameId} {site : Site} {lhs base : VarId} {r : Ref} (n : Nat)
      (h : m.Executes p i site (.loadArray lhs base)) (hb : m.memory (.var i base) = some r) :
      Step p m (m.move (.slot r n) (.var i lhs))
  | storeArray {m : Machine} {i : FrameId} {site : Site} {base rhs : VarId} {r : Ref} (n : Nat)
      (h : m.Executes p i site (.storeArray base rhs)) (hb : m.memory (.var i base) = some r) :
      Step p m (m.move (.var i rhs) (.slot r n))
  | callStatic {m : Machine} {i : FrameId} {site : Site} {d : Call} {callee : MethodId}
      {method : MethodDecl} (h : m.Executes p i site (.call d)) (hd : d.isStatic = true)
      (hc : p.resolveStatic d = .ok callee) (hm : p.method? callee = some method) :
      Step p m (m.enter i site callee (d.args.zip method.params))
  | callOn {m : Machine} {i : FrameId} {site : Site} {d : Call} {receiver : VarId} {r : Ref}
      {object : Allocation} {callee : MethodId} {method : MethodDecl}
      (h : m.Executes p i site (.call d)) (hd : d.isStatic = false)
      (hv : d.receiver = some receiver) (hr : m.memory (.var i receiver) = some r)
      (ho : m.objects[r]? = some object) (hc : p.resolve? object.ty d = some callee)
      (hm : p.method? callee = some method) :
      Step p m (m.enter i site callee
        (method.this.toList.map (receiver, ·) ++ d.args.zip method.params))
  /-- A frame hands the value of a return variable to its caller. -/
  | result {m : Machine} {i j : FrameId} {frame : Frame} {site : Site} {d : Call}
      {method : MethodDecl} {ret result : VarId} (hi : m.frames[i]? = some frame)
      (hj : frame.caller = some (j, site)) (hs : p.stmt? site = some (.call d))
      (hd : d.result = some result) (hm : p.method? frame.method = some method)
      (hret : ret ∈ method.returns) : Step p m (m.move (.var i ret) (.var j result))

/-- What steps make of frames of the given methods. -/
def Reaches (p : Program) (methods : List MethodId) : Machine → Prop :=
  Relation.ReflTransGen (Step p) (start methods)

/-- The cell belongs to a frame or an object of the machine, or to no object at all. -/
def Has (m : Machine) : Cell → Prop
  | .var i _ => i < m.frames.length
  | .field r _ => r < m.objects.length
  | .static _ => True
  | .slot r _ => r < m.objects.length

variable {m : Machine}

theorem memory_assign (c : Cell) (v : Option Ref) (d : Cell) :
    (m.assign c v).memory d = if d = c then v else m.memory d :=
  Function.update_apply m.memory c v d

theorem memory_move (source target d : Cell) :
    (m.move source target).memory d = if d = target then m.memory source else m.memory d :=
  memory_assign target (m.memory source) d

theorem length_objects_allocate (site : Site) (ty : TypeRef) :
    (m.allocate site ty).objects.length = m.objects.length + 1 :=
  List.length_append

theorem length_frames_push (frame : Frame) :
    (m.push frame).frames.length = m.frames.length + 1 :=
  List.length_append

theorem Executes.lt {p : Program} {i : FrameId} {site : Site} {stmt : Stmt}
    (h : m.Executes p i site stmt) : i < m.frames.length := by
  obtain ⟨⟨frame, hi, -⟩, -⟩ := h
  exact (List.getElem?_eq_some_iff.1 hi).1

theorem Has.allocate {cell : Cell} (h : m.Has cell) (site : Site) (ty : TypeRef) :
    (m.allocate site ty).Has cell := by
  cases cell with
  | var i v => exact h
  | static f => trivial
  | field r f =>
    rw [Has, length_objects_allocate]
    exact Nat.lt_succ_of_lt h
  | slot r n =>
    rw [Has, length_objects_allocate]
    exact Nat.lt_succ_of_lt h

theorem Has.push {cell : Cell} (h : m.Has cell) (frame : Frame) : (m.push frame).Has cell := by
  cases cell with
  | var i v =>
    rw [Has, length_frames_push]
    exact Nat.lt_succ_of_lt h
  | static f => trivial
  | field r f => exact h
  | slot r n => exact h

/-! ## Nothing dangles -/

/-- Only cells of the machine's frames and objects have been written, with references to its objects,
and callers are among its frames. -/
structure Tidy (m : Machine) : Prop where
  cells : ∀ cell r, m.memory cell = some r → m.Has cell
  refs : ∀ cell r, m.memory cell = some r → r < m.objects.length
  callers : ∀ (i : FrameId) (frame : Frame), m.frames[i]? = some frame →
    ∀ j site, frame.caller = some (j, site) → j < m.frames.length

namespace Tidy

theorem start (methods : List MethodId) : (start methods).Tidy := by
  refine ⟨nofun, nofun, ?_⟩
  intro i frame hi j site hj
  simp only [Machine.start, List.getElem?_map, Option.map_eq_some_iff] at hi
  obtain ⟨method, -, rfl⟩ := hi
  cases hj

theorem assign (h : m.Tidy) {cell : Cell} {v : Option Ref} (hc : m.Has cell)
    (hv : ∀ r, v = some r → r < m.objects.length) : (m.assign cell v).Tidy := by
  refine ⟨?_, ?_, h.callers⟩
  · intro d r hd
    rw [memory_assign] at hd
    by_cases hdc : d = cell
    · rw [hdc]
      exact hc
    · rw [if_neg hdc] at hd
      exact h.cells d r hd
  · intro d r hd
    rw [memory_assign] at hd
    by_cases hdc : d = cell
    · rw [if_pos hdc] at hd
      exact hv r hd
    · rw [if_neg hdc] at hd
      exact h.refs d r hd

theorem move (h : m.Tidy) (source : Cell) {target : Cell} (ht : m.Has target) :
    (m.move source target).Tidy :=
  h.assign ht (h.refs source)

theorem allocate (h : m.Tidy) (site : Site) (ty : TypeRef) : (m.allocate site ty).Tidy := by
  refine ⟨fun cell r hr => (h.cells cell r hr).allocate site ty, ?_, h.callers⟩
  intro cell r hr
  rw [length_objects_allocate]
  exact Nat.lt_succ_of_lt (h.refs cell r hr)

theorem push (h : m.Tidy) {frame : Frame}
    (hcaller : ∀ j site, frame.caller = some (j, site) → j < m.frames.length) :
    (m.push frame).Tidy := by
  refine ⟨fun cell r hr => (h.cells cell r hr).push frame, h.refs, ?_⟩
  intro k other hk j site hj
  rw [length_frames_push]
  rcases getElem?_concat_cases hk with ⟨-, hk⟩ | ⟨-, rfl⟩
  · exact Nat.lt_succ_of_lt (h.callers k other hk j site hj)
  · exact Nat.lt_succ_of_lt (hcaller j site hj)

theorem pass (h : m.Tidy) (i : FrameId) {k : FrameId} (hk : k < m.frames.length)
    (pairs : List (VarId × VarId)) : (m.pass i k pairs).Tidy := by
  induction pairs generalizing m with
  | nil => exact h
  | cons pair pairs ih =>
    have hmove : (m.move (.var i pair.1) (.var k pair.2)).Tidy := h.move _ hk
    exact ih hmove hk

theorem enter (h : m.Tidy) {i : FrameId} (hi : i < m.frames.length) (site : Site) (callee : MethodId)
    (pairs : List (VarId × VarId)) : (m.enter i site callee pairs).Tidy := by
  have hpush : (m.push ⟨callee, some (i, site)⟩).Tidy := by
    refine h.push ?_
    rintro j x ⟨⟩
    exact hi
  refine hpush.pass i ?_ pairs
  rw [length_frames_push]
  exact Nat.lt_succ_self _

theorem step {p : Program} {m' : Machine} (h : m.Tidy) (hstep : Step p m m') : m'.Tidy := by
  cases hstep with
  | @new i site lhs ty hx =>
    refine (h.allocate site ty).assign hx.lt ?_
    rintro r ⟨⟩
    rw [length_objects_allocate]
    exact Nat.lt_succ_self _
  | copy hx => exact h.move _ hx.lt
  | loadStatic hx => exact h.move _ hx.lt
  | storeStatic hx => exact h.move _ trivial
  | loadField hx hb => exact h.move _ hx.lt
  | storeField hx hb => exact h.move _ (h.refs _ _ hb)
  | loadArray n hx hb => exact h.move _ hx.lt
  | storeArray n hx hb => exact h.move _ (h.refs _ _ hb)
  | callStatic hx => exact h.enter hx.lt _ _ _
  | callOn hx => exact h.enter hx.lt _ _ _
  | result hi hj => exact h.move _ (h.callers _ _ hi _ _ hj)

/-- Nothing dangles in an execution. In particular new frames and new objects start with null. -/
theorem of_reaches {p : Program} {methods : List MethodId} (h : Reaches p methods m) : m.Tidy := by
  induction h with
  | refl => exact start methods
  | tail _ hstep ih => exact ih.step hstep

end Tidy

end Machine

end PointsTo
