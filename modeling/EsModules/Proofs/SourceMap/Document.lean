import EsModules.Proofs.Config.Json
import EsModules.Proofs.SourceMap.Tokens
import EsModules.SourceMap
import Mathlib.Data.List.TakeDrop

/-!
# Source maps read back

The JSON of a source map is read by the rules of its format alone: an object of version 3 whose
strings are unescaped and whose mappings are read as tokens.  Sources and names are found in the
tables of the object.

The object is one of a few members (`SourceMap.json_eq`), each of which is read as the value that it
stands for (`SourceMap.reads_members`).  Reading it gives the tables and the tokens of the map
(`SourceMap.read?_json`), and a token leads back to its mapping (`SourceMap.resolve?_token`).  So a
map whose lines do not go back is read as it was written (`SourceMap.ofJson?_json`).
-/

namespace EsModules

open Text

namespace SourceMap

/-- The source that a token leads to, and the mapping that it stands for. -/
def Document.resolve? (d : Document) (t : Token) : Option (String × Mapping) := do
  let (source, origin) ← t.origin
  let source ← d.sources[source]?
  let name ← match t.name with
    | some name => (d.names[name]?).map some
    | none => some none
  return (source, ⟨t.generated, origin, name⟩)

/-! ### Names -/

/-- A name that is in the table or still to be taken in is in the table at the end. -/
theorem mem_foldl_names
    {found table : List String}
    {name : String}
    (h : name ∈ table ∨ name ∈ found) :
    name ∈ found.foldl (fun ns n => if ns.contains n then ns else ns ++ [n]) table := by
  induction found generalizing table with
  | nil => simpa using h
  | cons n found ih =>
      rw [List.foldl_cons]
      refine ih ?_
      rcases h with htable | hfound
      · left
        split
        · exact htable
        · exact List.mem_append_left [n] htable
      · rcases List.mem_cons.mp hfound with rfl | hlater
        · left
          split
          · rename_i hknown
            exact List.contains_iff_mem.mp hknown
          · simp
        · exact .inr hlater

theorem mem_names
    {mappings : List Mapping}
    {m : Mapping}
    {name : String}
    (hm : m ∈ mappings)
    (hname : m.name = some name) :
    name ∈ names mappings :=
  mem_foldl_names (.inr (List.mem_filterMap.mpr ⟨m, hm, hname⟩))

theorem getElem?_findIdx
    {table : List String}
    {name : String}
    (h : name ∈ table) :
    table[table.findIdx (· == name)]? = some name := by
  have hlt : table.findIdx (· == name) < table.length :=
    List.findIdx_lt_length_of_exists ⟨name, h, by simp⟩
  rw [List.getElem?_eq_getElem hlt]
  have := List.findIdx_getElem (w := hlt)
  simpa using this

/-! ### The text of a source map -/

section Text

open Config Config.Json

theorem toList_jsonStrings (texts : List String) :
    (jsonStrings texts).toList =
      '[' :: ([','].intercalate (texts.map fun text => (jsonString text).toList) ++ [']']) := by
  simp [jsonStrings, String.toList_intercalate, Function.comp_def]

/-- The members of the object: their keys, their texts and the values that these stand for. -/
def members (map : SourceMap) : List (String × List Char × Value) :=
  ("version", ['3'], .unsigned 3) ::
    (map.file.toList.map fun file => ("file", (jsonString file).toList, .string file)) ++
    [("names", (jsonStrings (names map.mappings)).toList, .list ((names map.mappings).map .string)),
      ("sources", (jsonStrings [map.source]).toList, .list ([map.source].map .string)),
      ("sourcesContent", (jsonStrings [map.content]).toList, .list ([map.content].map .string)),
      ("mappings", (jsonString (encodeMappings map.mappings)).toList,
        .string (encodeMappings map.mappings))]

/-- The JSON of a source map is an object of its members. -/
theorem json_eq (map : SourceMap) :
    map.json = String.ofList ('\x7b' :: ([','].intercalate (map.members.map fun x =>
      (jsonString x.1).toList ++ ':' :: x.2.1) ++ ['\x7d'])) := by
  have hversion : "\x7b\"version\":3,".toList =
      '\x7b' :: ((jsonString "version").toList ++ [':', '3', ',']) := by decide
  have hfile : "\"file\":".toList = (jsonString "file").toList ++ [':'] := by decide
  have hnames : "\"names\":".toList = (jsonString "names").toList ++ [':'] := by decide
  have hsources : ",\"sources\":".toList = ',' :: ((jsonString "sources").toList ++ [':']) := by
    decide
  have hcontents : ",\"sourcesContent\":".toList =
      ',' :: ((jsonString "sourcesContent").toList ++ [':']) := by decide
  have hmappings : ",\"mappings\":".toList = ',' :: ((jsonString "mappings").toList ++ [':']) := by
    decide
  have hcomma : ",".toList = [','] := by decide
  have hend : "\x7d".toList = ['\x7d'] := by decide
  apply String.toList_inj.mp
  unfold json members
  simp only [List.map_append, List.map_cons, List.map_map, List.map_nil, Function.comp_def]
  -- the keys are closed terms, which would be evaluated again and again
  generalize jsonString "version" = version at hversion ⊢
  generalize jsonString "file" = file at hfile ⊢
  generalize jsonString "names" = names at hnames ⊢
  generalize jsonString "sources" = sources at hsources ⊢
  generalize jsonString "sourcesContent" = contents at hcontents ⊢
  generalize jsonString "mappings" = mappings at hmappings ⊢
  simp only [String.toList_append, String.toList_ofList, hversion, hnames, hsources, hcontents,
    hmappings, hend]
  cases map.file with
  | none => simp [List.intercalate_cons_cons]
  | some output =>
      simp only [String.toList_append, hfile, hcomma]
      simp [List.intercalate_cons_cons]

theorem run_exponent_of_mark
    {mark : Char}
    (h : IsMark mark)
    (rest : List Char) :
    exponent.run (mark :: rest) = some (none, mark :: rest) := by
  rcases h with rfl | rfl | rfl <;> simp [exponent, Reader.run_peek?]

theorem reads_version (depth : Nat) : Reads (value (depth + 1)) ['3'] (.unsigned 3) := by
  intro mark rest hmark
  have hmarks : mark.isDigit = false ∧ mark ≠ '.' := by
    rcases hmark with rfl | rfl | rfl <;> decide
  have hspace := run_skipSpace (c := '3') (by decide)
  have hsign : (Reader.accept "-").run ('3' :: mark :: rest) =
      some (false, '3' :: mark :: rest) :=
    Reader.run_accept_of_not (by simp)
  have hdigits : digits.run ('3' :: mark :: rest) = some (['3'], mark :: rest) := by
    simp [digits, Reader.takeWhile, List.span_eq_takeWhile_dropWhile, hmarks.1]
  have hfraction : fraction.run (mark :: rest) = some (none, mark :: rest) := by
    have hpoint : (Reader.accept ".").run (mark :: rest) = some (false, mark :: rest) :=
      Reader.run_accept_of_not (by simpa using hmarks.2.symm)
    simp [fraction, hpoint]
  have hnumber : integerValue false ['3'] = .unsigned 3 := by
    have hthree : (String.ofList ['3']).toNat? = some 3 := by
      simp [String.toNat?, String.Slice.toNat?, String.Slice.isNat]
    simp [integerValue, hthree, unsignedLimit]
  simp [value, number, hspace, Reader.run_peek?, hsign, hdigits, hfraction,
    run_exponent_of_mark hmark, hnumber]

theorem reads_jsonString (text : String) :
    Reads (value depthLimit) (jsonString text).toList (.string text) :=
  reads_string 126 text

theorem reads_jsonStrings (texts : List String) :
    Reads (value depthLimit) (jsonStrings texts).toList (.list (texts.map .string)) := by
  rw [toList_jsonStrings]
  refine @reads_list 126 _ _ ?_ ?_
  · rw [List.forall₂_map_left_iff, List.forall₂_map_right_iff, List.forall₂_same]
    exact fun text _ => reads_string 125 text
  · intro text htext
    obtain ⟨source, -, rfl⟩ := List.mem_map.mp htext
    exact head?_jsonString source

theorem reads_members (map : SourceMap) :
    ∀ x ∈ map.members, Reads (value depthLimit) x.2.1 x.2.2 := by
  have hfile : ∀ file ∈ map.file.toList,
      Reads (value depthLimit) (jsonString file).toList (.string file) :=
    fun file _ => reads_jsonString file
  simp only [members, List.forall_mem_append, List.forall_mem_cons, List.forall_mem_map,
    List.not_mem_nil, false_imp_iff, implies_true, and_true]
  exact ⟨⟨reads_version 126, hfile⟩, reads_jsonStrings _, reads_jsonStrings _, reads_jsonStrings _,
    reads_jsonString _⟩

/-- The dictionary that the object stands for. -/
def fields (map : SourceMap) : Fields :=
  Fields.ofList (map.members.map fun x => (x.1, x.2.2))

theorem parse?_json (map : SourceMap) : Json.parse? map.json = some map.fields := by
  rw [json_eq]
  refine parse?_object ?_ ?_
  · rw [List.forall₂_map_left_iff, List.forall₂_map_right_iff, List.forall₂_same]
    exact fun x hx => reads_pair (reads_members map x hx) x.1
  · intro text htext
    obtain ⟨x, -, rfl⟩ := List.mem_map.mp htext
    rw [List.head?_append, head?_jsonString, Option.some_or]

/-- Each member is found under its key. -/
theorem get?_fields (map : SourceMap) :
    map.fields.get? "version" = some (.unsigned 3) ∧
      map.fields.get? "file" = map.file.map .string ∧
      map.fields.get? "names" = some (.list ((names map.mappings).map .string)) ∧
      map.fields.get? "sources" = some (.list ([map.source].map .string)) ∧
      map.fields.get? "sourcesContent" = some (.list ([map.content].map .string)) ∧
      map.fields.get? "mappings" = some (.string (encodeMappings map.mappings)) := by
  have hempty : Fields.get? [] "file" = none := rfl
  unfold fields members
  cases map.file with
  | none => simp [Fields.ofList, Fields.get?_set, hempty]
  | some file => simp [Fields.ofList, Fields.get?_set]

end Text

/-- The document of a source map. -/
def document (map : SourceMap) : Document :=
  ⟨map.file, names map.mappings, [map.source], [some map.content],
    map.mappings.map (token (names map.mappings))⟩

theorem list?_text? (texts : List String) :
    Document.list? Document.text? (.list (texts.map .string)) = some texts := by
  rw [Document.list?]
  induction texts with
  | nil => rfl
  | cons text texts ih => simp [Document.text?, ih]

/-- Reading the JSON of a source map gives its document, if the lines of its mappings do not go
back. -/
theorem read?_json
    (map : SourceMap)
    (hlines : map.mappings.Pairwise fun a b => a.generated.line ≤ b.generated.line) :
    Document.read? map.json = some map.document := by
  have htokens : readMappings (encodeMappings map.mappings).toList =
      some (map.mappings.map (token (names map.mappings))) := by
    rw [encodeMappings, String.toList_ofList]
    exact readFrom_segments _ ⟨⟨0, 0⟩, ⟨0, 0⟩, 0, true⟩ _ (fun _ _ => Nat.zero_le _) hlines
  have hfile : Document.member? (map.file.map .string) = some map.file := by
    cases map.file with
    | none => rfl
    | some file => rfl
  have hcontent : Document.list? Document.content? (.list ([map.content].map .string)) =
      some [some map.content] := by
    simp [Document.list?, Document.content?]
  obtain ⟨atVersion, atFile, atNames, atSources, atContents, atMappings⟩ := get?_fields map
  simp only [Document.read?, parse?_json, atVersion, atFile, atNames, atSources, atContents,
    atMappings, Option.bind_eq_bind, Option.bind_some, Option.pure_def, hfile, list?_text?,
    hcontent, Document.text?, htokens, document]

/-- A token of the document leads back to the mapping that it was made of. -/
theorem resolve?_token
    {map : SourceMap}
    {m : Mapping}
    (hm : m ∈ map.mappings) :
    map.document.resolve? (token (names map.mappings) m) = some (map.source, m) := by
  obtain ⟨generated, origin, name⟩ := m
  cases name with
  | none => rfl
  | some name =>
      have hname := getElem?_findIdx (mem_names hm rfl)
      simp [Document.resolve?, document, token, hname]

theorem mapping?_token
    {map : SourceMap}
    {m : Mapping}
    (hm : m ∈ map.mappings) :
    map.document.mapping? (token (names map.mappings) m) = some m := by
  obtain ⟨generated, origin, name⟩ := m
  cases name with
  | none => rfl
  | some name =>
      have hname := getElem?_findIdx (mem_names hm rfl)
      simp [Document.mapping?, document, token, hname]

/-- A source map is read as it was written, if the lines of its mappings do not go back. -/
theorem ofJson?_json
    (map : SourceMap)
    (hlines : map.mappings.Pairwise fun a b => a.generated.line ≤ b.generated.line) :
    ofJson? map.json = some map := by
  have hmappings : map.document.tokens.filterMap map.document.mapping? = map.mappings := by
    have htokens : ∀ m ∈ map.mappings,
        (map.document.mapping? ∘ token (names map.mappings)) m = some m :=
      fun m hm => mapping?_token hm
    calc map.document.tokens.filterMap map.document.mapping?
      _ = map.mappings.filterMap (map.document.mapping? ∘ token (names map.mappings)) :=
        List.filterMap_map
      _ = map.mappings := by rw [List.filterMap_congr htokens, List.filterMap_some]
  rw [ofJson?, read?_json map hlines]
  simp only [Option.bind_eq_bind, Option.bind_some, hmappings]
  rfl

end SourceMap
end EsModules
