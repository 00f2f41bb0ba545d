import PointsTo.Program.Format
import PointsTo.Proofs.JsonRecords
import PointsTo.Proofs.JsonText
import PointsTo.Proofs.Subtypes
import PointsTo.Proofs.Tables

/-!
# Written programs load again

The text of a checked program loads as the same program with a new index (`load_toText`). It does so in
whatever order the methods of a class are listed, as a table does not depend on the order of its
entries. Each kind of entity has one lemma that says what its record carries (`carries_…`); the ids are
those of a checked program, so they fit 32 bits if the tables do (`fits_of_validate`).
-/

namespace PointsTo

open Json

/-! ## Writers that list methods in any order -/

/-- The class as a record, with a given list of its methods. -/
def ClassDecl.toJsonListing (listing : List (String × MethodId)) (c : ClassDecl) : Json := .record
  [("id", .ofNat c.id), ("name", .ofString c.name), ("superclass", .ofOption .ofNat c.superclass),
   ("interfaces", .ofList .ofNat c.interfaces), ("is_interface", .bool c.isInterface),
   ("is_abstract", .bool c.isAbstract),
   ("declared_methods", .record (listing.map fun (k, m) => (k, .ofNat m)))]

/-- The program as a record, with a list of methods for each class. -/
def Program.toJsonListing (listing : ClassDecl → List (String × MethodId)) (p : Program) : Json := .record
  [("classes", .ofList (fun c => c.toJsonListing (listing c)) p.classes.toList),
   ("fields", .ofList FieldDecl.toJson p.fields.toList),
   ("methods", .ofList MethodDecl.toJson p.methods.toList),
   ("vars", .ofList VarDecl.toJson p.vars.toList),
   ("entry", .ofOption .ofNat p.entry), ("root_class", .ofOption .ofNat p.rootClass)]

/-- The text of the program, with a list of methods for each class. -/
def Program.toTextListing (listing : ClassDecl → List (String × MethodId)) (p : Program) : String :=
  (p.toJsonListing listing).pretty

/-- Programs are written with their methods listed by name. -/
theorem Program.toTextListing_entries (p : Program) : p.toTextListing (·.methods.entries) = p.toText := rfl

/-! ## Types and statements -/

/-- The number of array dimensions. -/
def TypeRef.dimensions : TypeRef → Nat
  | ofClass _ => 0
  | arrayOf elem => elem.dimensions + 1

theorem carries_typeRef {ty : TypeRef} (h : ty.baseClass < Nat.pow 2 32) :
    Carries TypeRef.ofJson? ty.toJson ty := by
  induction ty with
  | ofClass c =>
    have hid : Carries id? (ofNat c) c := carries_id h
    refine ⟨isPlain_record.2 (by simpa using hid.plain), ?_⟩
    show (id? (ofNat c)).map _ = _
    rw [hid.reads]
    rfl
  | arrayOf elem ih =>
    have helem := ih h
    refine ⟨isPlain_record.2 (by simpa using helem.plain), ?_⟩
    show (TypeRef.ofJson? elem.toJson).map _ = _
    rw [helem.reads]
    rfl

theorem depth_typeRef (ty : TypeRef) : ty.toJson.depth ≤ ty.dimensions + 1 := by
  induction ty with
  | ofClass c => exact Nat.le_refl 1
  | arrayOf elem ih =>
    refine depth_record_le.2 fun m hm => ?_
    obtain rfl := List.mem_singleton.1 hm
    exact ih

theorem carries_callMode (m : CallMode) : Carries CallMode.ofJson? (.ofString m.name) m := by
  cases m <;> exact ⟨rfl, rfl⟩

theorem carries_methodRef {r : MethodRef} (h : r.owner < Nat.pow 2 32) :
    Carries MethodRef.ofJson? r.toJson r := by
  have howner := carries_id h
  have hname := carries_text r.subsignature
  refine ⟨isPlain_record.2 (by simp [howner.plain, hname.plain]), ?_⟩
  have hslots : r.toJson.slots? ["class", "subsignature"] =
      some [.found (ofNat r.owner), .found (ofString r.subsignature)] :=
    slots?_record rfl (by decide)
  rw [MethodRef.ofJson?, hslots]
  simp [howner.reads, hname.reads]

theorem carries_call {c : Call} (h : ∀ i ∈ c.target.owner :: c.vars, i < Nat.pow 2 32) :
    Carries Call.ofJson? (.record c.members) c := by
  rw [List.forall_mem_cons] at h
  obtain ⟨howner, hvars⟩ := h
  have hmode := carries_callMode c.mode
  have htarget := carries_methodRef howner
  have hreceiver : Carries _ _ c.receiver :=
    carries_optionalId fun n hn => hvars n (by simp [Call.vars, Option.mem_def.1 hn])
  have hargs : Carries _ _ c.args := carries_ids fun n hn => hvars n (by simp [Call.vars, hn])
  have hresult : Carries _ _ c.result :=
    carries_optionalId fun n hn => hvars n (by simp [Call.vars, Option.mem_def.1 hn])
  refine ⟨isPlain_record.2 ?_, ?_⟩
  · simp [Call.members, hmode.plain, htarget.plain, hreceiver.plain, hargs.plain, hresult.plain]
  · have hslots : (record c.members).slots? Call.fieldNames = _ := slots?_record rfl (by decide)
    rw [Call.ofJson?, hslots]
    simp [Call.members, hmode.reads, htarget.reads, hreceiver.reads, hargs.reads, hresult.reads]

theorem carries_ids₂ {name name' : String} (f : Nat → Nat → Stmt) {a b : Nat} (hne : name ≠ name')
    (ha : a < Nat.pow 2 32) (hb : b < Nat.pow 2 32) :
    Carries (Stmt.ofIds₂? [name, name'] f) (.record [(name, .ofNat a), (name', .ofNat b)]) (f a b) := by
  have ha := carries_id ha
  have hb := carries_id hb
  refine ⟨isPlain_record.2 (by simp [ha.plain, hb.plain]), ?_⟩
  have hslots : (record [(name, ofNat a), (name', ofNat b)]).slots? [name, name'] = _ :=
    slots?_record rfl (by simp [hne])
  rw [Stmt.ofIds₂?, hslots]
  simp [ha.reads, hb.reads]

theorem carries_ids₃ {name name' name'' : String} (f : Nat → Nat → Nat → Stmt) {a b c : Nat}
    (hnames : [name, name', name''].Nodup) (ha : a < Nat.pow 2 32) (hb : b < Nat.pow 2 32)
    (hc : c < Nat.pow 2 32) : Carries (Stmt.ofIds₃? [name, name', name''] f)
      (.record [(name, .ofNat a), (name', .ofNat b), (name'', .ofNat c)]) (f a b c) := by
  have ha := carries_id ha
  have hb := carries_id hb
  have hc := carries_id hc
  refine ⟨isPlain_record.2 (by simp [ha.plain, hb.plain, hc.plain]), ?_⟩
  have hslots : (record [(name, ofNat a), (name', ofNat b), (name'', ofNat c)]).slots?
      [name, name', name''] = _ := slots?_record rfl hnames
  rw [Stmt.ofIds₃?, hslots]
  simp [ha.reads, hb.reads, hc.reads]

/-- The classes and fields that a statement names. -/
def Stmt.references : Stmt → List Nat
  | new _ ty => [ty.baseClass]
  | loadStatic _ f | storeStatic f _ | loadField _ _ f | storeField _ f _ => [f]
  | call c => [c.target.owner]
  | copy .. | loadArray .. | storeArray .. => []

/-- The fields of a statement besides its kind carry it. -/
theorem carries_fields {s : Stmt} (h : ∀ i ∈ s.vars ++ s.references, i < Nat.pow 2 32) :
    Carries (Stmt.ofFields? s.kind) (.record s.members) s := by
  cases s with
  | new lhs ty =>
    have hlhs := carries_id (h lhs (by simp [Stmt.vars]))
    have hty := carries_typeRef (h ty.baseClass (by simp [Stmt.references]))
    refine ⟨isPlain_record.2 (by simp [Stmt.members, hlhs.plain, hty.plain]), ?_⟩
    have hslots : (record (Stmt.new lhs ty).members).slots? ["lhs", "ty"] = _ :=
      slots?_record rfl (by decide)
    simp only [Stmt.kind, Stmt.ofFields?]
    rw [hslots]
    simp [Stmt.members, hlhs.reads, hty.reads]
  | copy lhs rhs =>
    exact carries_ids₂ .copy (by decide) (h _ (by simp [Stmt.vars])) (h _ (by simp [Stmt.vars]))
  | loadStatic lhs field =>
    exact carries_ids₂ .loadStatic (by decide) (h _ (by simp [Stmt.vars]))
      (h _ (by simp [Stmt.references]))
  | storeStatic field rhs =>
    exact carries_ids₂ .storeStatic (by decide) (h _ (by simp [Stmt.references]))
      (h _ (by simp [Stmt.vars]))
  | loadField lhs base field =>
    exact carries_ids₃ .loadField (by decide) (h _ (by simp [Stmt.vars])) (h _ (by simp [Stmt.vars]))
      (h _ (by simp [Stmt.references]))
  | storeField base field rhs =>
    exact carries_ids₃ .storeField (by decide) (h _ (by simp [Stmt.vars]))
      (h _ (by simp [Stmt.references])) (h _ (by simp [Stmt.vars]))
  | loadArray lhs base =>
    exact carries_ids₂ .loadArray (by decide) (h _ (by simp [Stmt.vars])) (h _ (by simp [Stmt.vars]))
  | storeArray base rhs =>
    exact carries_ids₂ .storeArray (by decide) (h _ (by simp [Stmt.vars])) (h _ (by simp [Stmt.vars]))
  | call c =>
    have hcall := carries_call (c := c) fun i hi => h i (by
      rcases List.mem_cons.1 hi with rfl | hi
      · simp [Stmt.references]
      · simp [Stmt.vars, hi])
    refine ⟨hcall.plain, ?_⟩
    show (Call.ofJson? (record c.members)).map Stmt.call = _
    rw [hcall.reads]
    rfl

/-- The types that a statement allocates have fewer than 100 dimensions. -/
def Stmt.Shallow (s : Stmt) : Prop := ∀ lhs ty, s = .new lhs ty → ty.dimensions < 100

/-- Such a statement is not nested deeper than a reader follows. -/
theorem depth_stmt {s : Stmt} (h : s.Shallow) : s.toJson.depth ≤ Stmt.maxDepth := by
  have hlist : ∀ xs : List Nat, (Json.ofList ofNat xs).depth ≤ 1 := fun xs =>
    depth_ofList_le.2 fun _ _ => Nat.le_refl 0
  have hoption : ∀ o : Option Nat, (ofOption ofNat o).depth = 0 := by
    intro o
    cases o <;> rfl
  have htarget : ∀ r : MethodRef, r.toJson.depth ≤ 1 := fun r => depth_record_le.2 (by
    intro m hm
    simp only [List.mem_cons, List.not_mem_nil, or_false] at hm
    rcases hm with rfl | rfl <;> exact Nat.le_refl 0)
  have hmembers : ∀ m ∈ s.members, m.2.depth ≤ 101 := by
    intro m hm
    cases s with
    | new lhs ty =>
      have hty := depth_typeRef ty
      have hdim := h lhs ty rfl
      simp only [Stmt.members, List.mem_cons, List.not_mem_nil, or_false] at hm
      rcases hm with rfl | rfl
      · exact Nat.zero_le _
      · exact Nat.le_trans hty (by omega)
    | call c =>
      simp only [Stmt.members, Call.members, List.mem_cons, List.not_mem_nil, or_false] at hm
      rcases hm with rfl | rfl | rfl | rfl | rfl
      · exact Nat.zero_le _
      · exact Nat.le_trans (htarget _) (by omega)
      · exact (hoption _).le.trans (Nat.zero_le _)
      · exact Nat.le_trans (hlist _) (by omega)
      · exact (hoption _).le.trans (Nat.zero_le _)
    | loadField | storeField =>
      simp only [Stmt.members, List.mem_cons, List.not_mem_nil, or_false] at hm
      rcases hm with rfl | rfl | rfl <;> exact Nat.zero_le _
    | _ =>
      simp only [Stmt.members, List.mem_cons, List.not_mem_nil, or_false] at hm
      rcases hm with rfl | rfl <;> exact Nat.zero_le _
  refine (depth_record_le (n := 101)).2 ?_ |>.trans (by decide)
  rw [List.forall_mem_cons]
  exact ⟨Nat.zero_le _, hmembers⟩

theorem carries_stmt {s : Stmt} (h : ∀ i ∈ s.vars ++ s.references, i < Nat.pow 2 32)
    (hs : s.Shallow) : Carries Stmt.ofJson? s.toJson s := by
  have hfields := carries_fields h
  have hplain : s.toJson.isPlain = true := by
    rw [Stmt.toJson, isPlain_record, List.forall_mem_cons]
    exact ⟨rfl, isPlain_record.1 hfields.plain⟩
  refine ⟨hplain, ?_⟩
  -- the kind is the one member of that name, so taking it out leaves the fields
  have hop : ∀ m ∈ s.members, m.1 ≠ "op" := by
    cases s <;> simp [Stmt.members, Call.members]
  have hkind : s.members.filter (·.1 = "op") = [] := by
    rw [List.filter_eq_nil_iff]
    simpa using hop
  have hrest : s.members.filter (·.1 ≠ "op") = s.members := by
    rw [List.filter_eq_self]
    simpa using hop
  have hguard : ¬(!s.toJson.isPlain || decide (s.toJson.depth > Stmt.maxDepth)) = true := by
    have hdepth := depth_stmt hs
    simp [hplain, hdepth]
  unfold Stmt.ofJson?
  rw [if_neg hguard]
  show Option.bind (record (("op", ofString s.kind) :: s.members)).members? _ = some s
  rw [members?_record, Option.bind_some]
  simp only [List.filter_cons, decide_true, if_true, hkind, ne_eq, not_true_eq_false, decide_false,
    Bool.false_eq_true, if_false, hrest, ofString]
  exact hfields.reads

/-! ## Entities -/

/-- The ids in a class. -/
def ClassDecl.ids (c : ClassDecl) : List Nat := c.id :: c.supertypes ++ c.methods.entries.map (·.2)

/-- The ids in a method. -/
def MethodDecl.ids (m : MethodDecl) : List Nat :=
  m.id :: m.owner :: Program.mentionedVars m ++ m.body.flatMap Stmt.references

/-- A table of methods reads back from its entries in any order. -/
theorem carries_methods {t : NameMap MethodId} {listing : List (String × MethodId)}
    (hlisting : listing.Perm t.entries) (h : ∀ i ∈ t.entries.map (·.2), i < Nat.pow 2 32) :
    Carries ClassDecl.methodsOfJson? (.record (listing.map fun (k, m) => (k, .ofNat m))) t := by
  have hid : ∀ e ∈ listing, Carries id? (ofNat e.2) e.2 := fun e he =>
    carries_id (h e.2 (List.mem_map.2 ⟨e, hlisting.mem_iff.1 he, rfl⟩))
  constructor
  · rw [isPlain_record, List.forall_mem_map]
    exact fun e he => (hid e he).plain
  · have hentries : (listing.map fun (k, m) => (k, ofNat m)).mapM
        (fun m => (id? m.2).map (m.1, ·)) = some (listing.map id) := by
      refine mapM_map_eq_some fun e he => ?_
      show (id? (ofNat e.2)).map (e.1, ·) = _
      rw [(hid e he).reads]
      rfl
    -- each name of a table occurs once, so the order of the list does not matter
    have htable : NameMap.ofList listing = t := by
      have hnodup : (listing.map (·.1)).Nodup := (hlisting.map _).nodup_iff.2 t.nodup_keys
      refine NameMap.ext_get? fun k => Option.ext fun m => ?_
      rw [NameMap.get?_ofList_iff hnodup, NameMap.get?_eq_some_iff, hlisting.mem_iff]
    show Option.bind (record _).members? _ = some t
    rw [members?_record, Option.bind_some]
    show Option.bind (List.mapM (fun m : String × Json => (id? m.2).map (m.1, ·)) _) _ = _
    rw [hentries, List.map_id]
    exact congrArg some htable

theorem carries_class {c : ClassDecl} {listing : List (String × MethodId)}
    (hlisting : listing.Perm c.methods.entries) (h : ∀ i ∈ c.ids, i < Nat.pow 2 32) :
    Carries ClassDecl.ofJson? (c.toJsonListing listing) c := by
  have hid := carries_id (h c.id (by simp [ClassDecl.ids]))
  have hname := carries_text c.name
  have hsuper : Carries _ _ c.superclass := carries_optionalId fun n hn =>
    h n (by simp [ClassDecl.ids, ClassDecl.supertypes, Option.mem_def.1 hn])
  have hinterfaces : Carries _ _ c.interfaces := carries_ids fun n hn =>
    h n (by simp [ClassDecl.ids, ClassDecl.supertypes, hn])
  have hmethods := carries_methods hlisting fun i hi => h i (by simp [ClassDecl.ids, hi])
  refine ⟨isPlain_record.2 ?_, ?_⟩
  · simp [hid.plain, hname.plain, hsuper.plain, hinterfaces.plain, hmethods.plain,
      (carries_bool _).plain]
  · have hslots : (c.toJsonListing listing).slots? ["id", "name", "superclass", "interfaces",
        "is_interface", "is_abstract", "declared_methods"] = _ := slots?_record rfl (by decide)
    rw [ClassDecl.ofJson?, hslots]
    simp [hid.reads, hname.reads, hsuper.reads, hinterfaces.reads, hmethods.reads,
      (carries_bool _).reads]

theorem carries_field {f : FieldDecl} (hid : f.id < Nat.pow 2 32) (howner : f.owner < Nat.pow 2 32) :
    Carries FieldDecl.ofJson? f.toJson f := by
  have hid := carries_id hid
  have hname := carries_text f.name
  have howner := carries_id howner
  refine ⟨isPlain_record.2 ?_, ?_⟩
  · simp [hid.plain, hname.plain, howner.plain, (carries_bool _).plain]
  · have hslots : f.toJson.slots? ["id", "name", "declaring_class", "is_static"] = _ :=
      slots?_record rfl (by decide)
    rw [FieldDecl.ofJson?, hslots]
    simp [hid.reads, hname.reads, howner.reads, (carries_bool _).reads]

theorem carries_method {m : MethodDecl} (h : ∀ i ∈ m.ids, i < Nat.pow 2 32)
    (hbody : ∀ s ∈ m.body, s.Shallow) : Carries MethodDecl.ofJson? m.toJson m := by
  have hmentioned : ∀ n ∈ Program.mentionedVars m, n < Nat.pow 2 32 := fun n hn =>
    h n (by simp [MethodDecl.ids, hn])
  have hid := carries_id (h m.id (by simp [MethodDecl.ids]))
  have howner := carries_id (h m.owner (by simp [MethodDecl.ids]))
  have hname := carries_text m.subsignature
  have hthis : Carries _ _ m.this := carries_optionalId fun n hn =>
    hmentioned n (by simp [Program.mentionedVars, Option.mem_def.1 hn])
  have hparams : Carries _ _ m.params := carries_ids fun n hn =>
    hmentioned n (by simp [Program.mentionedVars, hn])
  have hreturns : Carries _ _ m.returns := carries_ids fun n hn =>
    hmentioned n (by simp [Program.mentionedVars, hn])
  have hstmts : Carries _ _ m.body := carries_list fun s hs => by
    refine carries_stmt (fun i hi => h i ?_) (hbody s hs)
    rcases List.mem_append.1 hi with hi | hi
    · have hmem : i ∈ m.body.flatMap Stmt.vars := List.mem_flatMap.2 ⟨s, hs, hi⟩
      simp [MethodDecl.ids, Program.mentionedVars, hmem]
    · have hmem : i ∈ m.body.flatMap Stmt.references := List.mem_flatMap.2 ⟨s, hs, hi⟩
      simp [MethodDecl.ids, hmem]
  refine ⟨isPlain_record.2 ?_, ?_⟩
  · simp [hid.plain, howner.plain, hname.plain, hthis.plain, hparams.plain, hreturns.plain,
      hstmts.plain, (carries_bool _).plain]
  · have hslots : m.toJson.slots? ["id", "declaring_class", "subsignature", "is_static", "is_abstract",
        "this", "params", "return_vars", "stmts"] = _ := slots?_record rfl (by decide)
    rw [MethodDecl.ofJson?, hslots]
    simp [hid.reads, howner.reads, hname.reads, hthis.reads, hparams.reads, hreturns.reads,
      hstmts.reads, (carries_bool _).reads]

theorem carries_var {v : VarDecl} (hid : v.id < Nat.pow 2 32) (hmethod : v.method < Nat.pow 2 32) :
    Carries VarDecl.ofJson? v.toJson v := by
  have hid := carries_id hid
  have hname := carries_text v.name
  have hmethod := carries_id hmethod
  refine ⟨isPlain_record.2 (by simp [hid.plain, hname.plain, hmethod.plain]), ?_⟩
  have hslots : v.toJson.slots? ["id", "name", "method"] = _ := slots?_record rfl (by decide)
  rw [VarDecl.ofJson?, hslots]
  simp [hid.reads, hname.reads, hmethod.reads]

/-! ## Programs -/

namespace Program

variable {p : Program}

/-- Every id in the program is an integer of 32 bits. -/
structure Fits (p : Program) : Prop where
  classes : ∀ c ∈ p.classes.toList, ∀ i ∈ c.ids, i < Nat.pow 2 32
  fields : ∀ f ∈ p.fields.toList, f.id < Nat.pow 2 32 ∧ f.owner < Nat.pow 2 32
  methods : ∀ m ∈ p.methods.toList, ∀ i ∈ m.ids, i < Nat.pow 2 32
  vars : ∀ v ∈ p.vars.toList, v.id < Nat.pow 2 32 ∧ v.method < Nat.pow 2 32
  entry : ∀ m ∈ p.entry, m < Nat.pow 2 32
  rootClass : ∀ c ∈ p.rootClass, c < Nat.pow 2 32

/-- No type that the program allocates has 100 dimensions or more. -/
def Shallow (p : Program) : Prop := ∀ m ∈ p.methods.toList, ∀ s ∈ m.body, s.Shallow

/-- The record of a program carries it, in whatever order methods are listed. -/
theorem carries_program {listing : ClassDecl → List (String × MethodId)} (h : p.Fits)
    (hp : p.Shallow) (hlisting : ∀ c ∈ p.classes.toList, (listing c).Perm c.methods.entries) :
    Carries ofJson? (p.toJsonListing listing) p := by
  have hclasses : Carries (list? ClassDecl.ofJson?) _ p.classes.toList :=
    carries_list fun c hc => carries_class (hlisting c hc) (h.classes c hc)
  have hfields : Carries _ _ p.fields.toList :=
    carries_list fun f hf => carries_field (h.fields f hf).1 (h.fields f hf).2
  have hmethods : Carries _ _ p.methods.toList :=
    carries_list fun m hm => carries_method (h.methods m hm) (hp m hm)
  have hvars : Carries _ _ p.vars.toList :=
    carries_list fun v hv => carries_var (h.vars v hv).1 (h.vars v hv).2
  have hentry := carries_optionalId h.entry
  have hroot := carries_optionalId h.rootClass
  refine ⟨isPlain_record.2 ?_, ?_⟩
  · simp [hclasses.plain, hfields.plain, hmethods.plain, hvars.plain, hentry.plain, hroot.plain]
  · have hslots : (p.toJsonListing listing).slots? ["classes", "fields", "methods", "vars", "entry",
        "root_class"] = _ := slots?_record rfl (by decide)
    rw [ofJson?, hslots]
    simp [hclasses.reads, hfields.reads, hmethods.reads, hvars.reads, hentry.reads, hroot.reads]

/-! The ids of a checked program are below the sizes of its tables. -/

section

variable (hp : p.validate = .ok ())

include hp

theorem ids_lt_of_class {n : Nat} (hclasses : p.classes.size ≤ n) (hmethods : p.methods.size ≤ n)
    {c : ClassDecl} (hc : c ∈ p.classes.toList) : ∀ i ∈ c.ids, i < n := by
  have hc : p.class? c.id = some c := (mem_classes_iff hp).1 hc
  have hcheck := checkClass_of_validate hp hc
  simp only [checkClass, andThen_eq_ok_iff, forM_eq_ok_iff, require_eq_ok_iff,
    decide_eq_true_eq] at hcheck
  obtain ⟨-, -, hsupertypes, -⟩ := hcheck
  have hid : c.id < p.classes.size := (Array.getElem?_eq_some_iff.1 hc).1
  have hdeclared : ∀ e ∈ c.methods.entries, e.2 < p.methods.size := by
    intro e he
    have hlisted : p.declared? c.id e.1 = some e.2 := by
      rw [declared?, hc]
      exact NameMap.get?_eq_some_iff.2 he
    obtain ⟨d, hd⟩ := method_of_declared? hp hlisted
    exact (Array.getElem?_eq_some_iff.1 hd).1
  intro i hi
  simp only [ClassDecl.ids, List.cons_append, List.mem_cons, List.mem_append, List.mem_map] at hi
  rcases hi with rfl | hi | ⟨e, he, rfl⟩
  · exact Nat.lt_of_lt_of_le hid hclasses
  · exact Nat.lt_of_lt_of_le (hsupertypes i hi) hclasses
  · exact Nat.lt_of_lt_of_le (hdeclared e he) hmethods

theorem ids_lt_of_stmt {n : Nat} (hclasses : p.classes.size ≤ n) (hfields : p.fields.size ≤ n)
    {m : MethodDecl} (hm : p.method? m.id = some m) {s : Stmt} (hs : s ∈ m.body) :
    ∀ i ∈ s.references, i < n := by
  have hcheck := checkMethod_of_validate hp hm
  simp only [checkMethod, andThen_eq_ok_iff, forM_eq_ok_iff] at hcheck
  have hstmt := hcheck.2.2.2.2.1 s hs
  intro i hi
  cases s with
  | new lhs ty =>
    obtain rfl := List.mem_singleton.1 hi
    simp only [checkStmt, require_eq_ok_iff, decide_eq_true_eq] at hstmt
    exact Nat.lt_of_lt_of_le hstmt hclasses
  | loadStatic | storeStatic | loadField | storeField =>
    obtain rfl := List.mem_singleton.1 hi
    simp only [checkStmt, require_eq_ok_iff, decide_eq_true_eq] at hstmt
    exact Nat.lt_of_lt_of_le hstmt hfields
  | call c =>
    obtain rfl := List.mem_singleton.1 hi
    simp only [checkStmt, andThen_eq_ok_iff, require_eq_ok_iff, decide_eq_true_eq] at hstmt
    exact Nat.lt_of_lt_of_le hstmt.1 hclasses
  | copy | loadArray | storeArray => cases hi

theorem ids_lt_of_method {n : Nat} (hclasses : p.classes.size ≤ n) (hfields : p.fields.size ≤ n)
    (hmethods : p.methods.size ≤ n) (hvars : p.vars.size ≤ n) {m : MethodDecl}
    (hm : m ∈ p.methods.toList) : ∀ i ∈ m.ids, i < n := by
  obtain ⟨j, hj⟩ := List.getElem?_of_mem hm
  have hm : p.method? j = some m := by simpa [method?] using hj
  obtain rfl := method_id_of_validate hp hm
  have hcheck := checkMethod_of_validate hp hm
  simp only [checkMethod, andThen_eq_ok_iff, require_eq_ok_iff, decide_eq_true_eq] at hcheck
  have hid : m.id < p.methods.size := (Array.getElem?_eq_some_iff.1 hm).1
  have howner : m.owner < p.classes.size := hcheck.2.1
  intro i hi
  simp only [MethodDecl.ids, List.cons_append, List.mem_cons, List.mem_append,
    List.mem_flatMap] at hi
  rcases hi with rfl | rfl | hi | ⟨s, hs, hi⟩
  · exact Nat.lt_of_lt_of_le hid hmethods
  · exact Nat.lt_of_lt_of_le howner hclasses
  · exact Nat.lt_of_lt_of_le (mentioned_lt_of_validate hp hm hi) hvars
  · exact ids_lt_of_stmt hp hclasses hfields hm hs i hi

/-- The ids of a checked program fit 32 bits if its tables do. -/
theorem fits_of_validate (hclasses : p.classes.size ≤ Nat.pow 2 32)
    (hfields : p.fields.size ≤ Nat.pow 2 32) (hmethods : p.methods.size ≤ Nat.pow 2 32)
    (hvars : p.vars.size ≤ Nat.pow 2 32) : p.Fits := by
  obtain ⟨-, -, hcheckFields, hcheckVars, -, hroots⟩ := validate_eq_ok_iff.1 hp
  simp only [checkRoots, andThen_eq_ok_iff, forM_eq_ok_iff, require_eq_ok_iff,
    decide_eq_true_eq, Option.mem_toList] at hroots
  refine ⟨fun c hc => ids_lt_of_class hp hclasses hmethods hc, ?_,
    fun m hm => ids_lt_of_method hp hclasses hfields hmethods hvars hm, ?_, ?_, ?_⟩
  · intro f hf
    obtain ⟨i, hi⟩ := List.getElem?_of_mem hf
    have hcheck := hcheckFields (f, i) (List.mem_zipIdx_iff_getElem?.2 hi)
    simp only [checkField, andThen_eq_ok_iff, require_eq_ok_iff, decide_eq_true_eq] at hcheck
    obtain ⟨hlt, -⟩ := List.getElem?_eq_some_iff.1 hi
    rw [Array.length_toList, ← hcheck.1] at hlt
    exact ⟨Nat.lt_of_lt_of_le hlt hfields, Nat.lt_of_lt_of_le hcheck.2 hclasses⟩
  · intro v hv
    obtain ⟨i, hi⟩ := List.getElem?_of_mem hv
    have hcheck := hcheckVars (v, i) (List.mem_zipIdx_iff_getElem?.2 hi)
    simp only [checkVar, andThen_eq_ok_iff, require_eq_ok_iff, Bool.and_eq_true,
      decide_eq_true_eq] at hcheck
    obtain ⟨hlt, -⟩ := List.getElem?_eq_some_iff.1 hi
    rw [Array.length_toList, ← hcheck.1.1] at hlt
    exact ⟨Nat.lt_of_lt_of_le hlt hvars, Nat.lt_of_lt_of_le hcheck.1.2 hmethods⟩
  · exact fun m hm => Nat.lt_of_lt_of_le (hroots.2 m hm) hmethods
  · exact fun c hc => Nat.lt_of_lt_of_le (hroots.1 c hc) hclasses

end

end Program

/-- The text of a checked program loads as the program itself with an index made for it. It does so
whatever the names of its entities are, and in whatever order the methods of its classes are listed, if
the ids are integers of 32 bits and no allocated type has 100 dimensions. -/
theorem load_toText {p : Program} (hp : p.validate = .ok ())
    (hsize : ∀ n ∈ [p.classes.size, p.fields.size, p.methods.size, p.vars.size], n ≤ Nat.pow 2 32)
    (hshallow : p.Shallow) :
    IndexedProgram.load p.toText = .ok p.indexed ∧
    ∀ listing : ClassDecl → List (String × MethodId),
      (∀ c ∈ p.classes.toList, (listing c).Perm c.methods.entries) →
      IndexedProgram.load (p.toTextListing listing) = .ok p.indexed := by
  have hfits : p.Fits := Program.fits_of_validate hp (hsize _ (by simp)) (hsize _ (by simp))
    (hsize _ (by simp)) (hsize _ (by simp))
  have hload : ∀ listing : ClassDecl → List (String × MethodId),
      (∀ c ∈ p.classes.toList, (listing c).Perm c.methods.entries) →
      IndexedProgram.load (p.toTextListing listing) = .ok p.indexed := by
    intro listing hlisting
    have hcarries := Program.carries_program hfits hshallow hlisting
    have htext : Program.ofText? (p.toTextListing listing) = some p := by
      rw [Program.ofText?, Program.toTextListing, parse?_pretty hcarries.plain, Option.bind_some]
      exact hcarries.reads
    rw [IndexedProgram.load, htext]
    exact mapError_eq_ok_iff.2 (bind_eq_ok_iff.2 ⟨(), hp, rfl⟩)
  refine ⟨?_, hload⟩
  rw [← Program.toTextListing_entries]
  exact hload _ fun c _ => List.Perm.refl _

namespace Sample

/-- The small program with a name that must be escaped, and an array of arrays instead of the object. -/
def escaped : Program := { program with
  classes := #[{ classA with name := "\"A\\\n\x01λ" }]
  methods := #[{ main with body := [.new 0 (.arrayOf (.arrayOf (.ofClass 0)))] }, identity] }

end Sample

/-- The text of a program loads whose class has a name with a quote, a backslash, control characters and
a letter beyond ASCII, also with its methods listed the other way round. -/
theorem load_toText_escaped : Sample.escaped.validate = .ok () ∧ Sample.escaped.Shallow ∧
    IndexedProgram.load Sample.escaped.toText = .ok Sample.escaped.indexed ∧
    IndexedProgram.load (Sample.escaped.toTextListing fun c => c.methods.entries.reverse) =
      .ok Sample.escaped.indexed := by
  have hp : Sample.escaped.validate = .ok () := by rfl
  have hshallow : Sample.escaped.Shallow := by
    intro m hm s hs lhs ty hty
    have hbodies : ∀ m ∈ Sample.escaped.methods.toList, ∀ s ∈ m.body,
        s = .new 0 (.arrayOf (.arrayOf (.ofClass 0))) := by decide
    have hnew := hbodies m hm s hs
    rw [hty] at hnew
    cases hnew
    decide
  obtain ⟨htext, hlisting⟩ := load_toText hp (by decide) hshallow
  exact ⟨hp, hshallow, htext, hlisting _ fun c _ => List.reverse_perm _⟩

end PointsTo
