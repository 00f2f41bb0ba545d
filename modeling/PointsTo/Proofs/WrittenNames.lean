import Mathlib.Order.Bounds.Basic
import PointsTo.Program.Lookup
import PointsTo.Proofs.IndexContents

/-!
# Written names of methods

A method is written with its class, in one of two ways (`MethodName.text`). What is read as a name is written
as the text that was read (`text_of_parse?`), so different texts never stand for one name. The other way round
it takes that no separator stands in front of the one that counts: no `: ` in the name of the class before a
subsignature (`parse?_signature`), no dot in a simple name (`parse?_dotted`). Main statement: the look-up of a
signature turns around the printing of it, and a simple name stands for the first method of that name
(`methodNamed?_inverts`).
-/

namespace PointsTo

namespace MethodName

/-- The name as it is written. -/
def text : MethodName → String
  | signature className subsignature => s!"<{className}: {subsignature}>"
  | dotted className name => s!"{className}.{name}"

/-- Does a text stand between angle brackets? -/
def IsBracketed (text : String) : Prop := ∃ inner, text.toList = '<' :: (inner ++ ['>'])

theorem bracketed?_eq_some_iff {cs inner : List Char} :
    bracketed? cs = some inner ↔ cs = '<' :: (inner ++ ['>']) := by
  constructor
  · intro h
    unfold bracketed? at h
    split at h
    · split at h
      · rename_i rest hlast
        cases h
        rw [List.dropLast_append_getLast? _ hlast]
      · cases h
    · cases h
  · rintro rfl
    simp [bracketed?]

/-- Only a written name is read as one. -/
theorem text_of_parse? {text : String} {n : MethodName} (h : parse? text = some n) : n.text = text := by
  apply String.toList_inj.1
  unfold parse? at h
  split at h
  · rename_i inner hinner
    obtain ⟨⟨c, s⟩, hcut, rfl⟩ := Option.map_eq_some_iff.1 h
    rw [bracketed?_eq_some_iff.1 hinner, Text.append_of_cutFirst hcut]
    simp [MethodName.text, toString]
  · obtain ⟨⟨c, s⟩, hcut, rfl⟩ := Option.map_eq_some_iff.1 h
    rw [Text.append_of_cutLast hcut]
    simp [MethodName.text, toString]

theorem signature_of_isBracketed {text : String} {n : MethodName} (htext : IsBracketed text)
    (h : parse? text = some n) : ∃ className subsignature, n = signature className subsignature := by
  obtain ⟨inner, hinner⟩ := htext
  rw [parse?, bracketed?_eq_some_iff.2 hinner] at h
  obtain ⟨⟨c, s⟩, -, rfl⟩ := Option.map_eq_some_iff.1 h
  exact ⟨_, _, rfl⟩

theorem parse?_signature {className subsignature : String} (h : Lacks className ':' ' ') :
    parse? (signature className subsignature).text = some (signature className subsignature) := by
  have htext : (signature className subsignature).text.toList =
      '<' :: ((className.toList ++ [':', ' '] ++ subsignature.toList) ++ ['>']) := by
    simp [text, toString]
  obtain ⟨⟨c, s⟩, hcut⟩ := Text.exists_cutFirst [':', ' '] className.toList subsignature.toList
  obtain ⟨rfl, rfl⟩ : className.toList = c ∧ subsignature.toList = s := by
    have happend := Text.append_of_cutFirst hcut
    simp only [List.append_assoc, List.cons_append, List.nil_append] at happend
    exact append_pair_inj (by decide) h (Text.not_infix_of_cutFirst (by decide) hcut) happend
  rw [parse?, bracketed?_eq_some_iff.2 htext]
  simp only [hcut, Option.map_some, String.ofList_toList]

theorem parse?_dotted {className name : String} (hname : '.' ∉ name.toList)
    (h : ¬IsBracketed (dotted className name).text) :
    parse? (dotted className name).text = some (dotted className name) := by
  have hnone : bracketed? (dotted className name).text.toList = none := by
    rw [Option.eq_none_iff_forall_ne_some]
    exact fun inner hinner => h ⟨inner, bracketed?_eq_some_iff.1 hinner⟩
  have htext : (dotted className name).text.toList = className.toList ++ '.' :: name.toList := by
    simp [text, toString]
  rw [parse?, hnone]
  simp only [htext, Text.cutLast_append hname, Option.map_some, String.ofList_toList]

end MethodName

namespace Program

/-- The methods of a simple name that the class of a name declares. -/
def methodsNamed (p : Program) (className name : String) : Set MethodId :=
  {m | ∃ d c, p.method? m = some d ∧ p.class? d.owner = some c ∧ c.name = className ∧ d.name = name}

variable {p : Program} (hp : p.validate = .ok ()) {m : MethodId}

include hp

/-! ## Look-ups -/

/-- A signature stands for the method that the class of the name declares under the subsignature. -/
theorem methodNamed?_of_signature {text className subsignature : String}
    (hparse : MethodName.parse? text = some (.signature className subsignature)) :
    p.indexed.methodNamed? text = some m ↔ ∃ d c, p.method? m = some d ∧ p.class? d.owner = some c ∧
      c.name = className ∧ d.subsignature = subsignature := by
  have hlists : ∀ {c}, p.indexed.declared? c subsignature = some m ↔
      ∃ d, p.method? m = some d ∧ d.owner = c ∧ d.subsignature = subsignature := by
    intro c
    have hiff : p.Lists (⟨c, subsignature⟩, m) ↔ p.declared? c subsignature = some m := lists_iff_declared?
    exact hiff.symm.trans (lists_iff_of_validate hp)
  simp only [IndexedProgram.methodNamed?, hparse, Option.bind_eq_bind, Option.bind_some,
    Option.bind_eq_some_iff, classNamed?_iff hp, hlists]
  constructor
  · rintro ⟨c, ⟨decl, hc, rfl⟩, d, hd, rfl, hsub⟩
    exact ⟨d, decl, hd, hc, rfl, hsub⟩
  · rintro ⟨d, c, hd, hc, rfl, hsub⟩
    exact ⟨d.owner, ⟨c, hc, rfl⟩, d, hd, rfl, hsub⟩

/-- The first method that passes a test is the least one, as methods stand at the positions of their ids. -/
theorem find?_eq_iff_isLeast {test : MethodDecl → Bool} :
    (∃ d, p.methods.toList.find? test = some d ∧ d.id = m) ↔
      IsLeast {m | ∃ d, p.method? m = some d ∧ test d = true} m := by
  have hget : ∀ {i d}, p.method? i = some d ↔
      ∃ h : i < p.methods.toList.length, p.methods.toList[i] = d := by
    intro i d
    rw [method?, ← Array.getElem?_toList, List.getElem?_eq_some_iff]
  simp only [List.find?_eq_some_iff_getElem]
  constructor
  · rintro ⟨d, ⟨htest, i, hi, hd, hbefore⟩, rfl⟩
    have hmethod : p.method? i = some d := hget.2 ⟨hi, hd⟩
    rw [method_id_of_validate hp hmethod]
    refine ⟨⟨d, hmethod, htest⟩, ?_⟩
    rintro j ⟨e, he, hpasses⟩
    obtain ⟨hj, rfl⟩ := hget.1 he
    by_contra hlt
    have hfails := hbefore j (Nat.lt_of_not_le hlt)
    rw [hpasses] at hfails
    cases hfails
  · rintro ⟨⟨d, hd, htest⟩, hleast⟩
    obtain ⟨hi, hi'⟩ := hget.1 hd
    refine ⟨d, ⟨htest, m, hi, hi', ?_⟩, method_id_of_validate hp hd⟩
    intro j hj
    rw [Bool.not_eq_true', ← Bool.not_eq_true]
    intro hpasses
    exact absurd (hleast ⟨_, hget.2 ⟨_, rfl⟩, hpasses⟩) (Nat.not_le_of_lt hj)

/-- A simple name behind a class stands for the first method of that name in the class. -/
theorem methodNamed?_of_dotted {text className name : String}
    (hparse : MethodName.parse? text = some (.dotted className name)) :
    p.indexed.methodNamed? text = some m ↔ IsLeast (p.methodsNamed className name) m := by
  have hset : ∀ {c decl}, p.class? c = some decl → decl.name = className →
      {m | ∃ d, p.method? m = some d ∧ decide (d.owner = c ∧ d.name = name) = true} =
        p.methodsNamed className name := by
    rintro c decl hc rfl
    ext m
    simp only [methodsNamed, Set.mem_ofPred_eq, decide_eq_true_eq]
    constructor
    · rintro ⟨d, hd, rfl, hname⟩
      exact ⟨d, decl, hd, hc, rfl, hname⟩
    · rintro ⟨d, decl', hd, hc', hname, hsimple⟩
      exact ⟨d, hd, class_eq_of_name hp hc' hc hname, hsimple⟩
  have hlookup : p.indexed.methodNamed? text = some m ↔
      ∃ c, (∃ decl, p.class? c = some decl ∧ decl.name = className) ∧
        ∃ d, p.methods.toList.find? (fun d => decide (d.owner = c ∧ d.name = name)) = some d ∧ d.id = m := by
    simp only [IndexedProgram.methodNamed?, hparse, Option.bind_eq_bind, Option.bind_some,
      Option.bind_eq_some_iff, classNamed?_iff hp, Bool.decide_and]
    simp [indexed]
  simp only [hlookup, find?_eq_iff_isLeast hp]
  constructor
  · rintro ⟨c, ⟨decl, hc, hname⟩, hleast⟩
    rwa [hset hc hname] at hleast
  · intro hleast
    obtain ⟨d, decl, -, hc, hname, -⟩ := hleast.1
    refine ⟨d.owner, ⟨decl, hc, hname⟩, ?_⟩
    rwa [hset hc hname]

/-! ## Printing and looking up -/

theorem signature_of_methodNamed? {text : String} (htext : MethodName.IsBracketed text)
    (hm : p.indexed.methodNamed? text = some m) : p.signature m = text := by
  cases hparse : MethodName.parse? text with
  | none => simp [IndexedProgram.methodNamed?, hparse] at hm
  | some n =>
    obtain ⟨className, subsignature, rfl⟩ := MethodName.signature_of_isBracketed htext hparse
    obtain ⟨d, c, hd, hc, rfl, rfl⟩ := (methodNamed?_of_signature hp hparse).1 hm
    rw [signature_eq hd, signatureOf, className_eq hc]
    exact MethodName.text_of_parse? hparse

theorem methodNamed?_signature {d : MethodDecl} (hd : p.method? m = some d)
    (hlacks : Lacks (p.className d.owner) ':' ' ') :
    p.indexed.methodNamed? (p.signature m) = some m := by
  obtain ⟨c, hc⟩ := owner_of_method hp hd
  have hparse := @MethodName.parse?_signature _ d.subsignature hlacks
  rw [signature_eq hd]
  exact (methodNamed?_of_signature hp hparse).2 ⟨d, c, hd, hc, (className_eq hc).symm, rfl⟩

/-- Looking up turns around printing, in a checked program with a new index: what a text between angle brackets
stands for has that text as its signature; the signature of a method stands for the method, unless `: ` in the
name of its class ends that name too early; and a simple name behind the name of a class stands for the first
of the methods that both name, and for none if there is none. -/
theorem methodNamed?_inverts :
    (∀ text m, MethodName.IsBracketed text → p.indexed.methodNamed? text = some m →
      p.signature m = text) ∧
    (∀ m d, p.method? m = some d → Lacks (p.className d.owner) ':' ' ' →
      p.indexed.methodNamed? (p.signature m) = some m) ∧
    ∀ className name, '.' ∉ name.toList → ¬MethodName.IsBracketed s!"{className}.{name}" →
      (∀ m, p.indexed.methodNamed? s!"{className}.{name}" = some m ↔
        IsLeast (p.methodsNamed className name) m) ∧
      (p.indexed.methodNamed? s!"{className}.{name}" = none ↔ p.methodsNamed className name = ∅) := by
  refine ⟨fun _ _ => signature_of_methodNamed? hp, fun _ _ => methodNamed?_signature hp, ?_⟩
  intro className name hname hplain
  have hiff : ∀ m, p.indexed.methodNamed? s!"{className}.{name}" = some m ↔
      IsLeast (p.methodsNamed className name) m := fun m =>
    methodNamed?_of_dotted hp (MethodName.parse?_dotted hname hplain)
  refine ⟨hiff, ?_⟩
  rw [Option.eq_none_iff_forall_ne_some, Set.eq_empty_iff_forall_notMem]
  constructor
  · intro hnone m hm
    -- if there are any, one of them is the first
    classical
    have hex : ∃ m, m ∈ p.methodsNamed className name := ⟨m, hm⟩
    exact hnone _ ((hiff _).2 ⟨Nat.find_spec hex, fun _ hj => Nat.find_min' hex hj⟩)
  · intro hnone m hm
    exact hnone m ((hiff m).1 hm).1

end Program

namespace Sample

/-- `class pkg.A { static void run(a: B) {} static void run() {} }` -/
def overloaded : Program := { Program.empty with
  classes := #[{ ClassDecl.plain 0 "pkg.A" with
    methods := .ofList [("void run(a: B)", 0), ("void run()", 1)] }]
  methods := #[
    { main with subsignature := "void run(a: B)", body := [] },
    { main with id := 1, subsignature := "void run()", body := [] }] }

end Sample

/-- The subsignature holds a `: ` and the name of the class a dot; of two methods `run` the first counts. -/
theorem Program.methodNamed?_inverts_overloaded :
    Sample.overloaded.validate = .ok () ∧
    Sample.overloaded.indexed.methodNamed? "<pkg.A: void run(a: B)>" = some 0 ∧
    Sample.overloaded.signature 0 = "<pkg.A: void run(a: B)>" ∧
    Sample.overloaded.indexed.methodNamed? "pkg.A.run" = some 0 ∧
    Sample.overloaded.indexed.methodNamed? "pkg.B.run" = none := by
  have hvalid : Sample.overloaded.validate = .ok () := by rfl
  obtain ⟨hback, hforth, hdotted⟩ := methodNamed?_inverts hvalid
  have hsignature : Sample.overloaded.signature 0 = "<pkg.A: void run(a: B)>" := by rfl
  have hfound := hforth 0 _ rfl (by decide)
  rw [hsignature] at hfound
  have hbracketed : MethodName.IsBracketed "<pkg.A: void run(a: B)>" := ⟨"pkg.A: void run(a: B)".toList, rfl⟩
  have hplain : ∀ {text : String}, text.toList.head? = some 'p' → ¬MethodName.IsBracketed text := by
    rintro text hhead ⟨inner, htext⟩
    rw [htext] at hhead
    cases hhead
  refine ⟨hvalid, hfound, hback _ 0 hbracketed hfound, ?_, ?_⟩
  · exact ((hdotted "pkg.A" "run" (by decide) (hplain rfl)).1 0).2
      ⟨⟨_, _, rfl, rfl, rfl, by decide⟩, fun _ _ => Nat.zero_le _⟩
  · refine (hdotted "pkg.B" "run" (by decide) (hplain rfl)).2.2 ?_
    rw [Set.eq_empty_iff_forall_notMem]
    rintro m ⟨d, c, -, hc, hname, -⟩
    have hmem : c ∈ Sample.overloaded.classes.toList :=
      List.mem_of_getElem? (by simpa [class?] using hc)
    obtain rfl := List.mem_singleton.1 hmem
    exact absurd hname (by decide)

end PointsTo
