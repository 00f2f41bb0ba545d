import PointsTo.Config.Format
import PointsTo.Config.Settings
import PointsTo.Proofs.JsonRecords
import PointsTo.Proofs.YamlDocuments

/-!
# Settings are read back from their document

A configuration written as a settings document is read back as itself if it is valid, and refused with the
fault that `Config.validate` finds if it is not (`Config.ofSettings_toSettings`). The entries may be any texts
of one line, also such that look like numbers, truth values or nothing, or like a key, an item or a comment:
what is written without quotes is read as the text that it is (`Yaml.parse?_write`), and entries are read as
texts whatever they look like (`Yaml.list?_ofText`).
-/

namespace PointsTo

namespace Yaml

/-! ## Values on lines -/

/-- May the text be a key that is written as it is? -/
def isKeyText (word : String) : Bool :=
  styleOf word = .plain && word.toList.all isWordChar && word.toList.head?.any Char.isAlphanum
    && word.toList.length ≤ 256

theorem IsKey.ofText {word : String} (h : isKeyText word = true) : IsKey (ofText word) word := by
  simp only [isKeyText, Bool.and_eq_true, decide_eq_true_eq, List.all_eq_true] at h
  obtain ⟨⟨⟨hstyle, hchars⟩, hstart⟩, hlength⟩ := h
  obtain ⟨c, hc, halnum⟩ := (Option.any_eq_true _ _).1 hstart
  exact ⟨by rw [Yaml.ofText, hstyle], ⟨hchars, c, hc, halnum⟩, hlength⟩

theorem Tidy.ofMembers {members : List (String × Yaml)} (hne : members ≠ [])
    (hkeys : ∀ key ∈ members.map (·.1), isKeyText key = true) (hvalues : ∀ m ∈ members, Tidy m.2) :
    Tidy (ofMembers members) := by
  refine .map (mt List.map_eq_nil_iff.1 hne) ?_ ?_
  · exact List.forall_mem_map.2 fun m hm => ⟨m.1, .ofText (hkeys _ (List.mem_map_of_mem hm))⟩
  · exact List.forall_mem_map.2 hvalues

theorem IsLine.ofText {text : String} (h : OnLine text.toList) : IsLine (ofText text) :=
  ⟨_, _, rfl, .ofText h⟩

theorem IsLine.bare {word : String} (h : IsWord word.toList) : IsLine (bare word) :=
  ⟨_, _, rfl, .ofWord h⟩

theorem isDigit_of_mem_repr {n : Nat} {c : Char} (h : c ∈ n.repr.toList) : c.isDigit = true := by
  rw [Nat.toList_repr] at h
  exact Nat.isDigit_of_mem_toDigits (by decide) (by decide) h

theorem IsLine.ofNat (n : Nat) : IsLine (ofNat n) := by
  have hne : n.repr.toList ≠ [] := Nat.toList_repr ▸ Nat.toDigits_ne_nil
  obtain ⟨c, cs, hcs⟩ := List.exists_cons_of_ne_nil hne
  refine .bare ⟨fun c hc => ?_, c, by rw [hcs]; rfl, ?_⟩
  · simp [isWordChar, Char.isAlphanum, isDigit_of_mem_repr hc]
  · simp [Char.isAlphanum, isDigit_of_mem_repr (hcs ▸ List.mem_cons_self)]

/-! ## Reading values -/

theorem members?_ofMembers (d : Document) (members : List (String × Yaml)) :
    d.members? (ofMembers members) = some members := by
  have h : d.members? (ofMembers members) = some (members.map id) :=
    Json.mapM_map_eq_some fun _ _ => rfl
  rwa [List.map_id] at h

theorem magnitude?_toDigits (n : Nat) : magnitude? (Nat.toDigits 10 n) = some n := by
  by_cases hzero : (Nat.toDigits 10 n).head? = some '0'
  · obtain rfl := Json.eq_zero_of_head?_toDigits hzero
    rfl
  · have hdigits : digitsFrom? 10 0 (Nat.toDigits 10 n) = some n := by
      simpa using @digitsFrom?_toDigits 10 (by decide) id (by decide) n
    obtain ⟨c, cs, hcs⟩ := List.exists_cons_of_ne_nil (Nat.toDigits_ne_nil : Nat.toDigits 10 n ≠ [])
    rw [hcs] at hzero hdigits ⊢
    have hc : c ≠ '0' := fun h => hzero (congrArg some h)
    have hprefix : prefixed? (c :: cs) = none := by simp [prefixed?, hc]
    have hleading : hasLeadingZero (c :: cs) = false := by simp [hasLeadingZero, hc]
    rw [magnitude?, hprefix, hleading, digits?, List.isEmpty_cons]
    exact hdigits

theorem nat?_ofNat {d : Document} {n bound : Nat} (h : n < bound) : d.nat? bound (ofNat n) = some n := by
  have hnatural : natural? n.repr.toList = some n := by
    unfold natural?
    split
    · -- a sign is no digit
      rename_i heq
      have hsign := isDigit_of_mem_repr (heq ▸ List.mem_cons_self)
      cases hsign
    · rw [Nat.toList_repr]
      exact magnitude?_toDigits n
  have hread : d.nat? bound (ofNat n) = (natural? n.repr.toList).filter (· < bound) := rfl
  rw [hread, hnatural, Option.filter_some, if_pos (decide_eq_true h)]

theorem choice?_ofText {α : Type} (d : Document) (choices : List (String × α)) (text : String) :
    d.choice? choices (ofText text) = choices.lookup text := rfl

theorem list?_ofText (d : Document) (texts : List String) :
    d.list? d.text? (ofList ofText texts) = some texts := by
  have h : (texts.map ofText).mapM d.text? = some (texts.map id) :=
    Json.mapM_map_eq_some fun _ _ => rfl
  rw [List.map_id] at h
  exact h

end Yaml

/-! ## Settings -/

namespace Config

variable {c : Config}

theorem tidy_toYaml (hentries : ∀ e ∈ c.extraEntries, Yaml.OnLine e.toList) : c.toYaml.Tidy := by
  have hkeys : ∀ key ∈ fieldNames, Yaml.isKeyText key = true := by decide
  have hpolicy : Yaml.OnLine c.policy.name.toList := by cases c.policy <;> decide
  have horder : Yaml.OnLine c.worklistOrder.name.toList := by cases c.worklistOrder <;> decide
  refine .ofMembers (List.cons_ne_nil _ _) hkeys ?_
  simp only [List.forall_mem_cons]
  exact ⟨.line (.ofText hpolicy), .line (.ofNat _), .line (.ofNat _), .line (.ofText horder),
    .list (List.forall_mem_map.2 fun e he => .ofText (hentries e he)), nofun⟩

/-- The settings are read back from their map. -/
theorem ofYaml?_toYaml {d : Yaml.Document} (hdepth : c.contextDepth < Nat.pow 2 64)
    (hheap : c.heapContextDepth < Nat.pow 2 64) : ofYaml? d c.toYaml = some c := by
  have hpolicy : d.choice? (ContextPolicy.all.map fun p => (p.name, p)) (.ofText c.policy.name) =
      some c.policy := by
    rw [Yaml.choice?_ofText]
    cases c.policy <;> rfl
  have horder : d.choice? (WorklistOrder.all.map fun o => (o.name, o)) (.ofText c.worklistOrder.name) =
      some c.worklistOrder := by
    rw [Yaml.choice?_ofText]
    cases c.worklistOrder <;> rfl
  have hdepth : d.nat? (Nat.pow 2 64) (.ofNat c.contextDepth) = some c.contextDepth :=
    Yaml.nat?_ofNat hdepth
  have hheap : d.nat? (Nat.pow 2 64) (.ofNat c.heapContextDepth) = some c.heapContextDepth :=
    Yaml.nat?_ofNat hheap
  rw [toYaml, ofYaml?, Yaml.members?_ofMembers]
  simp [Yaml.get?, Yaml.only?, hpolicy, hdepth, hheap, horder, Yaml.list?_ofText]

/-- A settings document that holds `y` under its last key. -/
def documentOf (y : Yaml) : Yaml :=
  .ofMembers [("version", .ofNat 1), ("preset", .bare "null"), ("pta", y)]

theorem tidy_documentOf {y : Yaml} (h : y.Tidy) : (documentOf y).Tidy := by
  have hkeys : ∀ key ∈ Settings.keys, Yaml.isKeyText key = true := by decide
  have hnull : Yaml.IsWord "null".toList := ⟨List.all_eq_true.1 rfl, 'n', rfl, rfl⟩
  refine .ofMembers (List.cons_ne_nil _ _) hkeys ?_
  simp only [List.forall_mem_cons]
  exact ⟨.line (.ofNat 1), .line (.bare hnull), h, nofun⟩

/-- The document says that it is of the first version, names no preset, and holds the settings. -/
theorem ofDocument?_documentOf (hdepth : c.contextDepth < Nat.pow 2 64) (hheap : c.heapContextDepth < Nat.pow 2 64) :
    Settings.ofDocument? ⟨documentOf c.toYaml, []⟩ = some ⟨some 1, none, some c⟩ := by
  generalize hdocument : Yaml.Document.mk (documentOf c.toYaml) [] = d
  have hroot : d.root = documentOf c.toYaml := by rw [← hdocument]
  have hversion : d.optional? (d.nat? (Nat.pow 2 32)) (.ofNat 1) = some (some 1) := by
    have hsome : d.optional? (d.nat? (Nat.pow 2 32)) (.ofNat 1) =
        (d.nat? (Nat.pow 2 32) (.ofNat 1)).map some := rfl
    rw [hsome, Yaml.nat?_ofNat (by decide), Option.map_some]
  have hpreset : d.optional? d.text? (.bare "null") = some none := rfl
  have hconfig : d.optional? (ofYaml? d) c.toYaml = some (some c) := by
    have hsome : d.optional? (ofYaml? d) c.toYaml = (ofYaml? d c.toYaml).map some := rfl
    rw [hsome, ofYaml?_toYaml hdepth hheap, Option.map_some]
  rw [Settings.ofDocument?, hroot, documentOf, Yaml.members?_ofMembers]
  simp [Yaml.get?, Yaml.only?, Settings.keys, hversion, hpreset, hconfig]

/-- Settings with entries of one line each are read back from their document, or refused with the fault that
`validate` finds in them. -/
theorem ofSettings_toSettings (hdepth : c.contextDepth < Nat.pow 2 64) (hheap : c.heapContextDepth < Nat.pow 2 64)
    (hentries : ∀ e ∈ c.extraEntries, Yaml.OnLine e.toList) :
    ofSettings c.toSettings = c.validate.map fun _ => c := by
  have hparse : Yaml.parse? c.toSettings = some ⟨documentOf c.toYaml, []⟩ :=
    Yaml.parse?_write (tidy_documentOf (tidy_toYaml hentries))
  have hresolve : Settings.resolve ⟨some 1, none, some c⟩ = c.validate >>= fun _ => pure c := rfl
  rw [ofSettings, hparse, Option.bind_some, ofDocument?_documentOf hdepth hheap]
  simp only [hresolve]
  cases c.validate <;> rfl

/-- Valid settings with entries that look like something else, settings with a blank entry, and settings that
are out of range. -/
theorem ofSettings_toSettings_samples :
    ofSettings (toSettings ⟨.callSite, 2, 1, .lifo, ["<A: void <clinit>()>", "it's \x22it\x22", "a: b",
        "a #b", "- a", "[a", "*a", " a ", "0x1F", "-1.5e3", "True", "null", "~"]⟩) =
      .ok ⟨.callSite, 2, 1, .lifo, ["<A: void <clinit>()>", "it's \x22it\x22", "a: b",
        "a #b", "- a", "[a", "*a", " a ", "0x1F", "-1.5e3", "True", "null", "~"]⟩ ∧
    ofSettings (toSettings ⟨.object, 1, 0, .fifo, ["~", " "]⟩) =
      .error (.validation "extra_entries must not contain empty method names") ∧
    ofSettings (toSettings ⟨.object, 1, 2, .fifo, ["1"]⟩) =
      .error (.range "heap_context_depth" "2" "0" "1"
        "Heap contexts are suffixes of method contexts and cannot be longer") :=
  ⟨(ofSettings_toSettings (by decide) (by decide) (by decide)).trans rfl,
    (ofSettings_toSettings (by decide) (by decide) (by decide)).trans rfl,
    (ofSettings_toSettings (by decide) (by decide) (by decide)).trans rfl⟩

end Config

end PointsTo
