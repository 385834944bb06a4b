import Mustache.Cache
import Mustache.Proofs.Json.Fields

/-!
# Mustache.Proofs.Cache.Entry

The files of templates are read as they were written.

Each part of an entry is decoded from its own encoding (`Op.ofJson?_toJson`,
`Template.ofJson?_toJson`, `Fingerprint.ofJson?_toJson`). So the text of a template is decoded to
the template (`Template.ofText?_text`) and an entry to what was written
(`CacheEntry.ofBytes?_toBytes`), each up to the depth that the reader accepts: what nests deeper is
cut off, and instructions are read in full or not at all (`Template.ofJson?_within`).
-/

namespace Mustache

open Json

/-! ## Fingerprints -/

namespace SourceVersion

theorem isWordy_toJson (v : SourceVersion) : v.toJson.isWordy = true := by
  cases v <;>
    simp [toJson, isWordy_object, isWordyMembers, isWordy_string, isWordy_toNat]

theorem ofJson?_toJson (v : SourceVersion) : ofJson? v.toJson = some v := by
  rw [ofJson?, whole?_of_isReadable (isReadable_of_isWordy v.isWordy_toJson), Option.bind_some]
  cases v with
  | text hash length =>
    simp [toJson, variant?, fields?, valuesOf_cons, valuesOf_nil, word?_ofNat_toNat]
  | file path modified size =>
    simp [toJson, variant?, fields?, valuesOf_cons, valuesOf_nil, word?_ofNat_toNat]

end SourceVersion

namespace CompilerOptions

theorem ofJson?_toJson (o : CompilerOptions) : ofJson? o.toJson = some o := by
  simp [toJson, ofJson?, fields?, valuesOf_cons, valuesOf_nil, flag?, bool?]

theorem isWordy_toJson (o : CompilerOptions) : o.toJson.isWordy = true := rfl

end CompilerOptions

namespace Fingerprint

theorem ofJson?_toJson (f : Fingerprint) : ofJson? f.toJson = some f := by
  simp [toJson, ofJson?, fields?, valuesOf_cons, valuesOf_nil, SourceVersion.ofJson?_toJson,
    Delimiters.ofJson?_toJson, CompilerOptions.ofJson?_toJson]

theorem isWordy_toJson (f : Fingerprint) : f.toJson.isWordy = true := by
  simp [toJson, isWordy_object, isWordyMembers, SourceVersion.isWordy_toJson,
    Delimiters.isWordy_toJson,
    CompilerOptions.isWordy_toJson]

end Fingerprint

/-! ## Instructions -/

theorem mapM_string? (strings : List String) :
    (strings.map Json.string).mapM string? = some strings := by
  induction strings with
  | nil => rfl
  | cons s strings ih => simp [List.mapM_cons, ih, string?]

theorem isWordyItems_strings (strings : List String) :
    isWordyItems (strings.map Json.string) = true := by
  induction strings with
  | nil => rfl
  | cons s strings ih => simp [isWordyItems, ih, isWordy_string]

namespace KeyPath

theorem ofJson?_toJson (p : KeyPath) : ofJson? p.toJson = some p := by
  simp [toJson, ofJson?, fields?, valuesOf_cons, valuesOf_nil, mapM_string?, - List.mapM_map]

theorem isWordy_toJson (p : KeyPath) : p.toJson.isWordy = true := by
  simp [toJson, isWordy_object, isWordyMembers, isWordy_string, isWordy_array, isWordyItems_strings]

end KeyPath

namespace Op

mutual

theorem ofJson?_toJson : ∀ (op : Op), ofJson? op.toJson = some op
  | .text s => by
    simp [toJson, ofJson?, variant?, ofKind?, fields?, valuesOf_cons, valuesOf_nil]
  | .interpolation path escaped => by
    simp [toJson, ofJson?, variant?, ofKind?, fields?, valuesOf_cons, valuesOf_nil,
      KeyPath.ofJson?_toJson]
  | .block path body raw delimiters => by
    simp [toJson, ofJson?, variant?, ofKind?, fields?, valuesOf_cons, valuesOf_nil, bodyOf?,
      KeyPath.ofJson?_toJson, Delimiters.ofJson?_toJson, ofJsons?_toJsons body]
  | .inverted path body => by
    simp [toJson, ofJson?, variant?, ofKind?, fields?, valuesOf_cons, valuesOf_nil, bodyOf?,
      KeyPath.ofJson?_toJson, ofJsons?_toJsons body]
  | .partialRef name indent => by
    simp [toJson, ofJson?, variant?, ofKind?, fields?, valuesOf_cons, valuesOf_nil]
  | .inlined name indent body => by
    simp [toJson, ofJson?, variant?, ofKind?, fields?, valuesOf_cons, valuesOf_nil, bodyOf?,
      ofJsons?_toJsons body]

theorem ofJsons?_toJsons : ∀ (ops : List Op), ofJsons? (toJsons ops) = some ops
  | [] => rfl
  | op :: ops => by simp [toJsons, ofJsons?, ofJson?_toJson op, ofJsons?_toJsons ops]

end

mutual

theorem isWordy_toJson : ∀ (op : Op), op.toJson.isWordy = true
  | .text _ => rfl
  | .interpolation path _ => by
    simp [toJson, isWordy_object, isWordyMembers, isWordy_string, isWordy_bool, path.isWordy_toJson]
  | .block path body _ delimiters => by
    simp [toJson, isWordy_object, isWordyMembers, isWordy_string, isWordy_array,
      path.isWordy_toJson, delimiters.isWordy_toJson, isWordyItems_toJsons body]
  | .inverted path body => by
    simp [toJson, isWordy_object, isWordyMembers, isWordy_string, isWordy_array,
      path.isWordy_toJson, isWordyItems_toJsons body]
  | .partialRef _ _ => rfl
  | .inlined _ _ body => by
    simp [toJson, isWordy_object, isWordyMembers, isWordy_string, isWordy_array,
      isWordyItems_toJsons body]

theorem isWordyItems_toJsons : ∀ (ops : List Op), isWordyItems (toJsons ops) = true
  | [] => rfl
  | op :: ops => by simp [toJsons, isWordyItems, isWordy_toJson op, isWordyItems_toJsons ops]

end

end Op

/-! ## Templates and entries -/

namespace Dependency

theorem version?_toJson (v : SourceVersion) : version? v.toJson = some (some v) := by
  have h : version? v.toJson = (SourceVersion.ofJson? v.toJson).map some := by
    cases v <;> rfl
  rw [h, v.ofJson?_toJson]
  rfl

theorem ofJson?_toJson (d : Dependency) : ofJson? d.toJson = some d := by
  obtain ⟨name, source⟩ := d
  cases source with
  | none => simp [toJson, ofJson?, fields?, valuesOf_cons, valuesOf_nil, version?]
  | some v => simp [toJson, ofJson?, fields?, valuesOf_cons, valuesOf_nil, version?_toJson]

theorem isWordy_toJson (d : Dependency) : d.toJson.isWordy = true := by
  obtain ⟨name, source⟩ := d
  cases source with
  | none => rfl
  | some v => simp [toJson, isWordy_object, isWordyMembers, isWordy_string, v.isWordy_toJson]

end Dependency

theorem mapM_dependencies (ds : List Dependency) :
    (ds.map Dependency.toJson).mapM Dependency.ofJson? = some ds := by
  induction ds with
  | nil => rfl
  | cons d ds ih => simp [List.mapM_cons, ih, d.ofJson?_toJson]

theorem isWordyItems_dependencies (ds : List Dependency) :
    isWordyItems (ds.map Dependency.toJson) = true := by
  induction ds with
  | nil => rfl
  | cons d ds ih => simp [isWordyItems, ih, d.isWordy_toJson]

namespace Template

theorem ops?_toJsons (ops : List Op) : ops? (.array (Op.toJsons ops)) = some ops := by
  have hreadable : (Json.array (Op.toJsons ops)).isReadable = true :=
    isReadable_of_isWordy (Op.isWordyItems_toJsons ops)
  rw [ops?, whole?_of_isReadable hreadable]
  exact Op.ofJsons?_toJsons ops

theorem ofJson?_toJson (t : Template) : ofJson? t.toJson = some t := by
  obtain ⟨options, ops, dependencies⟩ := t
  cases dependencies with
  | nil =>
    simp [toJson, ofJson?, fields?, valuesOf_cons, valuesOf_nil, dependencies?,
      options.ofJson?_toJson, ops?_toJsons]
  | cons d ds =>
    have := mapM_dependencies (d :: ds)
    simp [toJson, ofJson?, fields?, valuesOf_cons, valuesOf_nil, dependencies?,
      options.ofJson?_toJson, ops?_toJsons, this, - List.map_cons]

theorem isWordy_toJson (t : Template) : t.toJson.isWordy = true := by
  have hoptions := t.options.isWordy_toJson
  have hops := Op.isWordyItems_toJsons t.ops
  have hdependencies := isWordyItems_dependencies t.dependencies
  rw [toJson, isWordy_object]
  split <;> simp [isWordyMembers, isWordy_array, hoptions, hops, hdependencies]

end Template

theorem fromUTF8?_toUTF8 (s : String) : String.fromUTF8? s.toUTF8 = some s := by
  rw [String.fromUTF8?, dif_pos (show s.toUTF8.IsValidUTF8 from s.isValidUTF8)]
  rfl

namespace CacheEntry

theorem ofJson?_toJson (e : CacheEntry) : ofJson? e.toJson = some e := by
  have h : e.version.toNat < UInt32.size := e.version.toNat_lt_size
  have hnat : (Json.integer e.version.toNat).nat? = some e.version.toNat :=
    nat?_ofNat (Nat.lt_trans h (by decide))
  simp only [toJson, ofJson?, fields?, valuesOf_cons, valuesOf_nil, List.mapM_cons, List.mapM_nil,
    String.reduceEq, if_true, if_false, hnat, e.fingerprint.ofJson?_toJson,
    e.template.ofJson?_toJson, Option.pure_def, Option.bind_eq_bind, Option.bind_some, if_pos h,
    UInt32.ofNat_toNat]

theorem isWordy_toJson (e : CacheEntry) : e.toJson.isWordy = true := by
  have h : e.version.toNat < UInt64.size := Nat.lt_trans e.version.toNat_lt_size (by decide)
  have hversion : (Json.integer e.version.toNat).isWordy = true := isWordy_ofNat h
  simp only [toJson, isWordy_object, isWordyMembers, hversion, e.fingerprint.isWordy_toJson,
    e.template.isWordy_toJson, Bool.and_self]

end CacheEntry

/-! ## How deep a template nests -/

theorem SourceVersion.depth_toJson (v : SourceVersion) : v.toJson.depth = 1 := by
  cases v <;> rfl

theorem Fingerprint.depth_toJson (f : Fingerprint) : f.toJson.depth = 2 := by
  obtain ⟨source, delimiters, options⟩ := f
  cases source <;> rfl

theorem Dependency.depth_toJson_le (d : Dependency) : d.toJson.depth ≤ 2 := by
  obtain ⟨name, source⟩ := d
  cases source with
  | none => simp [toJson, depth, depthMembers]
  | some v => simp [toJson, depth, depthMembers, v.depth_toJson]

theorem depthItems_dependencies_le (ds : List Dependency) :
    depthItems (ds.map Dependency.toJson) ≤ 2 := by
  induction ds with
  | nil => exact Nat.zero_le 2
  | cons d ds ih =>
    rw [List.map_cons, depthItems]
    exact Nat.max_le.2 ⟨d.depth_toJson_le, ih⟩

namespace Template

theorem two_le_depth_toJson (t : Template) : 2 ≤ t.toJson.depth := by
  have hoptions : t.options.toJson.depth = 1 := rfl
  simp only [toJson, List.cons_append, depth, depthMembers, hoptions]
  omega

/-- Nothing in a template nests as deeply as its instructions can. -/
theorem depth_toJson_le (t : Template) :
    t.toJson.depth ≤ max 4 (1 + (Json.array (Op.toJsons t.ops)).depth) := by
  have hoptions : t.options.toJson.depth = 1 := rfl
  have hdependencies := depthItems_dependencies_le t.dependencies
  simp only [toJson, List.cons_append, List.nil_append, depth, depthMembers, hoptions]
  split
  · simp only [depthMembers]
    omega
  · simp only [depthMembers, depth]
    omega

theorem fields?_toJson (t : Template) : ∃ options dependencies,
    t.toJson.fields? ["options", "ops", "dependencies"] =
      some [options, some (.array (Op.toJsons t.ops)), dependencies] := by
  obtain ⟨options, ops, dependencies⟩ := t
  cases dependencies <;> exact ⟨_, _, rfl⟩

theorem ofJson?_of_ops? {j ops : Json} {options dependencies : Option Json}
    (hfields : j.fields? ["options", "ops", "dependencies"] =
      some [options, some ops, dependencies]) (hops : ops? ops = none) : ofJson? j = none := by
  rw [ofJson?, hfields]
  cases options with
  | none => rfl
  | some options => simp [hops]

/-- As far as there is room for it, a template is decoded to what it was. -/
theorem ofJson?_within (t : Template) {room : Nat} (h : 4 ≤ room) :
    ofJson? (t.toJson.within room) = if t.toJson.depth ≤ room then some t else none := by
  split
  · rename_i hdepth
    rw [within_of_depth_le hdepth, t.ofJson?_toJson]
  · rename_i hdepth
    have hle := t.depth_toJson_le
    obtain ⟨room, rfl⟩ : ∃ inner, room = inner + 1 := ⟨room - 1, by omega⟩
    obtain ⟨options, dependencies, hfields⟩ := t.fields?_toJson
    have hcut : ops? ((Json.array (Op.toJsons t.ops)).within room) = none := by
      rw [ops?, whole?_within _ (by omega)]
    have hwithin := fields?_within t.toJson room ["options", "ops", "dependencies"]
    rw [hfields] at hwithin
    exact ofJson?_of_ops? hwithin hcut

end Template

theorem CacheEntry.depth_toJson (e : CacheEntry) :
    e.toJson.depth = 1 + e.template.toJson.depth := by
  have htemplate := e.template.two_le_depth_toJson
  simp only [CacheEntry.toJson, depth, depthMembers, Fingerprint.depth_toJson]
  omega

def Template.ofText? (s : String) : Option Template := (Json.skim s.toList).bind ofJson?

/-- The text of a template, on one line or on many, is decoded to the template, unless it nests
too deeply for the reader. -/
theorem Template.ofText?_text (t : Template) :
    ofText? t.text = if t.toJson.depth ≤ maxDepth then some t else none := by
  have hskim : Json.skim t.text.toList = some (t.toJson.within maxDepth) := by
    rw [text, String.toList_ofList]
    split
    · exact skim_of_lexemes (lexemes_pretty t.isWordy_toJson 0)
    · exact skim_of_lexemes (lexemes_compact t.isWordy_toJson)
  rw [ofText?, hskim, Option.bind_some, t.ofJson?_within (by decide)]

/-- An entry is read as it was written, unless it nests too deeply for the reader. -/
theorem CacheEntry.ofBytes?_toBytes (e : CacheEntry) :
    ofBytes? e.toBytes = if e.template.toJson.depth < maxDepth then some e else none := by
  have hskim := skim_of_lexemes (lexemes_compact e.isWordy_toJson)
  simp only [ofBytes?, toBytes, fromUTF8?_toUTF8, String.toList_ofList, hskim]
  by_cases hdepth : e.template.toJson.depth < maxDepth
  · have hentry : e.toJson.depth ≤ maxDepth := by
      rw [e.depth_toJson]
      omega
    rw [if_pos hdepth, within_of_depth_le hentry, e.ofJson?_toJson]
  · have hmax : maxDepth = 126 + 1 := rfl
    have hcut : Template.ofJson? (e.template.toJson.within 126) = none := by
      rw [Template.ofJson?_within _ (by decide), if_neg (by omega)]
    have hfields : e.toJson.fields? ["schema_version", "fingerprint", "template"] =
        some [some (.integer e.version.toNat), some e.fingerprint.toJson,
          some e.template.toJson] := rfl
    rw [if_neg hdepth, ofJson?, hmax, fields?_within, hfields]
    simp [hcut]

/-- The text of a template that nests fewer than 128 levels is decoded to the template. So is an
entry around it that nests fewer than 128 levels itself. -/
theorem Template.reads_back (t : Template) (h : t.toJson.depth < 128) :
    ofText? t.text = some t ∧
      ∀ e : CacheEntry, e.template = t → e.toJson.depth < 128 →
        CacheEntry.ofBytes? e.toBytes = some e := by
  have hmax : maxDepth = 127 := rfl
  constructor
  · rw [ofText?_text, if_pos (by omega)]
  · rintro e rfl he
    rw [e.depth_toJson] at he
    rw [e.ofBytes?_toBytes, if_pos (by omega)]

/-- On many lines, with characters that are escaped, words of 64 bits and no source. -/
theorem Template.reads_back_escapes :
    let t : Template := ⟨{ beautify := true },
      [.inlined "p" " " [.text "\u0001\"\\\u2028\n"], .interpolation ⟨".", []⟩ true],
      [⟨"p", some (.text 18446744073709551615 7)⟩, ⟨"q", none⟩]⟩
    t.toJson.depth < 128 ∧ ofText? t.text = some t ∧
      ∀ e : CacheEntry, e.template = t → e.toJson.depth < 128 →
        CacheEntry.ofBytes? e.toBytes = some e := by
  intro t
  have h : t.toJson.depth < 128 := by decide +kernel
  exact ⟨h, t.reads_back h⟩

def Op.nest : Nat → List Op
  | 0 => []
  | n + 1 => [.block ⟨"a", ["a"]⟩ (nest n) "" .standard]

/-- The text of a template that nests 127 levels is decoded, but not the entry around it. -/
theorem CacheEntry.ofBytes?_deep :
    let t : Template := ⟨{}, Op.nest 62, []⟩
    t.toJson.depth < 128 ∧ Template.ofText? t.text = some t ∧
      ofBytes? (toBytes ⟨currentVersion, ⟨.ofText "", .standard, {}⟩, t⟩) = none := by
  intro t
  have h : t.toJson.depth = maxDepth := by decide +kernel
  refine ⟨Nat.lt_succ_of_le (Nat.le_of_eq h), ?_, ?_⟩
  · rw [Template.ofText?_text, if_pos (Nat.le_of_eq h)]
  · rw [ofBytes?_toBytes, if_neg (Nat.not_lt.2 (Nat.le_of_eq h.symm))]

end Mustache
