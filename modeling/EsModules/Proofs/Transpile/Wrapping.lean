import EsModules.Proofs.Syntax.StringLiteral
import EsModules.Proofs.Transpile.Assembly

/-!
# A module inside a `define` call

The `amd-cjs` target puts the code of the `cjs` target into a `define` call (`amdCjs_wraps_cjs`).
Both record the same edits, up to the hashbang line: it has to stay the first line, so it is taken
out of the code and put before the call.  The line feed that ends it is taken out with it, if the
line ends in one.

Nothing fails for one of the targets only, and a wrapped module without a hashbang stands one line
lower, with all its mappings.
-/

namespace EsModules

open Syntax Text

/-! ### One line lower -/

/-- The same column in the next line. -/
def Place.lower (p : Place) : Place :=
  ⟨p.line + 1, p.column⟩

/-- The mapping of a text that stands one line lower. -/
def Mapping.lower (m : Mapping) : Mapping :=
  { m with generated := m.generated.lower }

theorem Place.lower_step (p : Place) (c : Char) : p.lower.step c = (p.step c).lower := by
  by_cases hfeed : c = '\n' <;> simp [step, lower, hfeed]

theorem Place.lower_advance (p : Place) (text : List Char) :
    p.lower.advance text = (p.advance text).lower := by
  induction text generalizing p with
  | nil => rfl
  | cons c text ih => rw [advance_cons, advance_cons, lower_step, ih]

namespace Mapping

theorem ofKept_lower (fresh : Bool) (generated origin : Place) (text : List Char) :
    ofKept fresh generated.lower origin text = (ofKept fresh generated origin text).map lower := by
  induction text generalizing fresh generated origin with
  | nil => rfl
  | cons c text ih =>
      simp only [ofKept, Place.lower_step, ih]
      split
      · rfl
      · split <;> rfl

theorem ofPiece_lower (generated origin : Place) (piece : Piece) :
    ofPiece generated.lower origin piece = (ofPiece generated origin piece).map lower := by
  cases piece with
  | kept text => exact ofKept_lower true generated origin text
  | replaced source text named =>
      simp only [ofPiece]
      split <;> rfl
  | inserted text => rfl

/-- Pieces that are put one line lower keep their mappings. -/
theorem ofPieces_lower (generated origin : Place) (pieces : List Piece) :
    ofPieces generated.lower origin pieces = (ofPieces generated origin pieces).map lower := by
  induction pieces generalizing generated origin with
  | nil => rfl
  | cons piece pieces ih =>
      rw [ofPieces, ofPieces, ofPiece_lower, Place.lower_advance, ih, List.map_append]

end Mapping

/-! ### Removal of the front of a text -/

namespace Edit

variable {edits : List Edit} {e : Edit} {p : Nat}

/-- Where a removal stands among the edits does not matter. -/
theorem spliced_concat
    (hspan : e.span.start < e.span.stop)
    (htext : e.text = "")
    (edits : List Edit)
    (p : Nat)
    (text : List Char) :
    spliced (edits ++ [e]) p text = spliced (e :: edits) p text := by
  have hnot : ∀ p, insertsAt p e = false := by
    intro p
    rw [Bool.eq_false_iff, Ne, insertsAt_iff]
    omega
  have hinsertion : ∀ p, insertion (edits ++ [e]) p = insertion (e :: edits) p := by
    intro p
    simp [insertion, hnot]
  have hplace : ∀ p c, inPlace (edits ++ [e]) p c = inPlace (e :: edits) p c := by
    intro p c
    have hany : (edits ++ [e]).any (covers p) = (e :: edits).any (covers p) := by
      simp [Bool.or_comm]
    have hfilter : ((edits ++ [e]).filter (replacesFrom p)).flatMap (·.text.toList) =
        ((e :: edits).filter (replacesFrom p)).flatMap (·.text.toList) := by
      cases hfrom : replacesFrom p e <;> simp [hfrom, htext]
    rw [inPlace, inPlace, hany, hfilter]
  induction text generalizing p with
  | nil => exact hinsertion p
  | cons c text ih => rw [spliced, spliced, hinsertion, hplace, ih]

/-- The front of a text is removed, and the other edits are made behind it. -/
theorem spliced_removed
    {front : List Char}
    (hfront : front ≠ [])
    (h : Behind (byteLength front) edits)
    (rest : List Char) :
    spliced (edits ++ [.remove ⟨0, byteLength front⟩]) 0 (front ++ rest) =
      spliced edits (byteLength front) rest := by
  have hpos : 0 < byteLength front :=
    Nat.pos_of_ne_zero fun hzero => hfront (byteLength_eq_zero.mp hzero)
  rw [spliced_concat hpos rfl]
  have hcons := spliced_cons (e := .remove ⟨0, byteLength front⟩) (p := 0) [] front rest rfl
    (Nat.zero_add _).symm h
  simpa [remove] using hcons

end Edit

/-! ### The hashbang line -/

namespace Syntax

/-- The characters `line` are a hashbang line, and `behind` is what stands behind them. -/
structure HashbangLine (line behind : List Char) : Prop where
  marked : ['#', '!'] <+: line
  line : ∀ c ∈ line, isLineTerminator c = false
  behind : ∀ c ∈ behind.head?, isLineTerminator c = true

/-- The line feed at the front of a text. -/
def leadingFeed : List Char → List Char
  | '\n' :: _ => ['\n']
  | _ => []

theorem leadingFeed_of_ne
    {c : Char}
    (h : c ≠ '\n')
    (cs : List Char) :
    leadingFeed (c :: cs) = [] := by
  rw [leadingFeed]
  simpa using h

/-- The line feed is the front of the text. -/
theorem exists_leadingFeed (cs : List Char) : ∃ rest, cs = leadingFeed cs ++ rest := by
  unfold leadingFeed
  split
  · exact ⟨_, rfl⟩
  · exact ⟨_, rfl⟩

theorem lineEnd_eq (offset : Nat) (rest : List Char) :
    ∃ line behind, rest = line ++ behind ∧ (lineEnd offset rest).offset = offset + byteLength line ∧
      (∀ c ∈ line, isLineTerminator c = false) ∧ ∀ c ∈ behind.head?, isLineTerminator c = true := by
  fun_induction lineEnd offset rest with
  | case1 offset => exact ⟨[], [], rfl, rfl, by simp, by simp⟩
  | case2 offset c rest hend => exact ⟨[], c :: rest, rfl, rfl, by simp, by simpa using hend⟩
  | case3 offset c rest hend ih =>
      obtain ⟨line, behind, rfl, hoffset, hline, hbehind⟩ := ih
      refine ⟨c :: line, behind, rfl, ?_, ?_, hbehind⟩
      · rw [hoffset, byteLength_cons, Nat.add_assoc]
      · simpa [hend] using hline

/-- A hashbang is read exactly where a text begins with its mark. -/
theorem hashbang?_cases (cs : List Char) :
    (¬['#', '!'] <+: cs ∧ (Program.hashbang? cs).1 = none) ∨
      ∃ line behind, cs = line ++ behind ∧ HashbangLine line behind ∧
        (Program.hashbang? cs).1 = some ⟨0, byteLength line⟩ := by
  unfold Program.hashbang?
  split
  · rename_i rest
    obtain ⟨line, behind, rfl, hoffset, hline, hbehind⟩ := lineEnd_eq 2 rest
    refine .inr ⟨'#' :: '!' :: line, behind, rfl, ⟨⟨line, rfl⟩, ?_, hbehind⟩, ?_⟩
    · simpa using ⟨by decide, by decide, hline⟩
    · have hlen : byteLength ('#' :: '!' :: line) = 2 + byteLength line := by
        rw [byteLength_cons, byteLength_cons, ← Nat.add_assoc]
        rfl
      simp only [hoffset, hlen]
  · rename_i hnot
    refine .inl ⟨?_, rfl⟩
    rintro ⟨rest, rfl⟩
    exact hnot rest rfl

/-- The hashbang line ends before everything else, and so does the line feed behind it. -/
theorem Program.LaidOut.line_le
    {program : Program}
    {line behind : List Char}
    {first middle last : Nat}
    {text : List Char}
    (h : program.LaidOut text first middle last)
    (hbang : program.hashbang = some ⟨0, byteLength line⟩)
    (htext : text = line ++ behind) :
    byteLength (line ++ leadingFeed behind) ≤ first := by
  have hline : byteLength line ≤ first := (h.hashbang _ hbang).2.1
  cases behind with
  | nil => simpa [leadingFeed] using hline
  | cons c behind =>
      by_cases hfeed : c = '\n'
      · subst hfeed
        rw [leadingFeed, byteLength_append]
        exact h.newline _ hbang line '\n' behind rfl htext rfl
      · rw [leadingFeed_of_ne hfeed, List.append_nil]
        exact hline

end Syntax

namespace Transpile

open Edit

/-! ### Two targets with the same statements -/

section

variable {target target' : Target}

theorem itemEdits_congr
    (himport : target.importStatement = target'.importStatement)
    (hstar : target.starExport = target'.starExport)
    (view : ModuleView)
    (loaded : List String)
    (item : Item) :
    itemEdits target view loaded item = itemEdits target' view loaded item := by
  have hload : ∀ source, load target view loaded source = load target' view loaded source := by
    intro source
    simp only [load, himport]
  unfold itemEdits
  simp only [hload, hstar]

/-- Targets that load modules and publish exports alike edit all statements alike. -/
theorem declarationEdits_congr
    (himport : target.importStatement = target'.importStatement)
    (hstar : target.starExport = target'.starExport)
    (view : ModuleView)
    (loaded : List String)
    (items : List Item) :
    declarationEdits target view loaded items = declarationEdits target' view loaded items := by
  induction items generalizing loaded with
  | nil => rfl
  | cons item items ih =>
      simp only [declarationEdits, itemEdits_congr himport hstar, ih]

end

namespace Assembly

variable {text : String} {options : TranspileOptions} {target target' : Target}

/-- The edits of a module apart from its hashbang. -/
def body (a : Assembly target text options) : List Edit :=
  a.declarations ++ a.references ++ [prologueEdit a.program text a.prologue]

/-- What is read of a module does not depend on the target. -/
theorem agree (a : Assembly target text options) (b : Assembly target' text options) :
    b.program = a.program ∧ b.view = a.view := by
  have hname := Except.ok.inj (b.hname.symm.trans a.hname)
  have hprogram := Except.ok.inj (b.hparse.symm.trans a.hparse)
  have hcatalog : b.catalog = a.catalog :=
    Except.ok.inj ((hprogram ▸ b.hcatalog).symm.trans a.hcatalog)
  have hkeys : b.keys = a.keys := Except.ok.inj ((hcatalog ▸ b.hkeys).symm.trans a.hkeys)
  exact ⟨hprogram, by rw [view, view, hname, hcatalog, hkeys]⟩

/-- Targets with the same statements and the same prologue record the same edits. -/
theorem body_congr
    (a : Assembly target text options)
    (b : Assembly target' text options)
    (himport : target.importStatement = target'.importStatement)
    (hstar : target.starExport = target'.starExport)
    (hprologue : target.prologue = target'.prologue) :
    b.body = a.body := by
  obtain ⟨hprogram, hview⟩ := a.agree b
  have hdeclarations : b.declarations = a.declarations := by
    have hb : declarationEdits target' b.view [] b.program.items = .ok b.declarations :=
      b.hdeclarations
    rw [hview, hprogram, ← declarationEdits_congr himport hstar] at hb
    exact Except.ok.inj (hb.symm.trans a.hdeclarations)
  have hsame : b.prologue = a.prologue := by
    have hb : target'.prologue b.view = .ok b.prologue := b.hprologue
    rw [hview, ← hprologue] at hb
    exact Except.ok.inj (hb.symm.trans a.hprologue)
  rw [body, body, references, references, hdeclarations, hprogram, hview, hsame]

/-- The edits stand behind the hashbang, provided that there is a prologue. -/
theorem behind_body
    (a : Assembly target text options)
    (hprologue : a.prologue ≠ "")
    {first middle last : Nat}
    (hlaid : a.program.LaidOut text.toList first middle last) :
    Behind first a.body := by
  have hfirst : first ≤ middle := hlaid.first_le
  refine List.forall_mem_append.mpr ⟨List.forall_mem_append.mpr ⟨?_, ?_⟩, ?_⟩
  · intro e he
    obtain ⟨hle, item, hitem, hstart, -⟩ := a.fits.inside e he
    have := (hlaid.items.placed hitem).1.lo_le
    omega
  · intro e he
    have hspan : e.span ∈ spansOf a.program.code :=
      (sublist_spans_renamings a.program a.view a.program.occurrences).subset
        (List.mem_map_of_mem he)
    obtain ⟨hstart, hlt, -⟩ := hlaid.items.spread.inside e.span hspan
    omega
  · rw [List.forall_mem_singleton]
    exact first_le_prologueEdit hlaid hprologue

end Assembly

/-! ### The call -/

/-- The explicit name of the module as an argument of the call. -/
def nameArgument (options : TranspileOptions) : String :=
  match options.moduleName with
  | some name => options.format.quote name ++ ", "
  | none => ""

/-- The call up to the code inside. -/
def callFront (options : TranspileOptions) : String :=
  "define(" ++ nameArgument options ++ "function (require, exports, module) \x7b\n"

/-- The call with code inside. -/
def called (options : TranspileOptions) (code : String) : String :=
  callFront options ++ code ++ "\x7d);\n"

/-- A string literal has no line feed. -/
theorem lineFeed_notMem_quote (style : QuoteStyle) (text : String) :
    '\n' ∉ (Text.quote style text).toList := by
  intro hmem
  cases isLineTerminator_of_mem_quote hmem

/-- The call takes one line up to the code inside. -/
theorem behind_callFront (options : TranspileOptions) :
    Place.behind (callFront options).toList = ⟨1, 0⟩ := by
  have hname : '\n' ∉ (nameArgument options).toList := by
    unfold nameArgument
    split
    · rename_i name _
      have := lineFeed_notMem_quote options.format.quoteStyle name
      simpa [FormatOptions.quote] using this
    · simp
  have hline : LineStart (callFront options).toList := by
    refine .inr ?_
    rw [callFront, String.toList_append, List.getLast?_append]
    rfl
  have hcount : (callFront options).toList.count '\n' = 1 := by
    simp only [callFront, String.toList_append, List.count_append,
      List.count_eq_zero_of_not_mem hname]
    rfl
  rw [Place.behind_of_lineStart hline, hcount]

theorem callFront_ne_empty (options : TranspileOptions) : callFront options ≠ "" := by
  simp [callFront, String.append_eq_empty_iff]

theorem wrap_amdCjs (view : ModuleView) :
    Target.amdCjs.wrap view = .ok ⟨callFront view.options, "\x7d);\n"⟩ := by
  have hname : moduleNameArgument view = nameArgument view.options := by
    unfold moduleNameArgument nameArgument
    split
    · simp only [*, toString, ModuleView.quote, ModuleView.format]
    · simp only [*]
  simp only [Target.amdCjs, callFront, hname, toString]

theorem cjsPrologue_ne_empty
    {view : ModuleView}
    {prologue : String}
    (h : Target.cjsPrologue view = .ok prologue) :
    prologue ≠ "" := by
  obtain ⟨getters, -, h⟩ := bind_eq_ok.mp h
  cases h
  simp [toString, String.append_eq_empty_iff]

theorem hoistHashbang_empty (program : Program) (text : String) :
    hoistHashbang program text "" = ("", []) := by
  unfold hoistHashbang
  split <;> rfl

theorem hoistHashbang_none
    {program : Program}
    (h : program.hashbang = none)
    (text header : String) :
    hoistHashbang program text header = (header, []) := by
  rw [hoistHashbang, h]

/-- The hashbang line is put before the header and removed from the text, with its line feed. -/
theorem hoistHashbang_some
    {program : Program}
    {text header : String}
    {line behind : List Char}
    (h : program.hashbang = some ⟨0, byteLength line⟩)
    (htext : text.toList = line ++ behind)
    (hheader : header ≠ "") :
    hoistHashbang program text header =
      (trimEnd (String.ofList line) ++ "\n" ++ header,
        [.remove ⟨0, byteLength (line ++ leadingFeed behind)⟩]) := by
  have hslice : slice text ⟨0, byteLength line⟩ = String.ofList line := by
    rw [slice, slice?, if_pos (Nat.zero_le _), htext, dropBytes]
    simp only [Nat.sub_zero, Option.bind_eq_bind, Option.bind_some, takeBytes_append]
    rfl
  have hstop : (if (slice text ⟨byteLength line, byteLength line + 1⟩ == "\n") = true
      then byteLength line + 1 else byteLength line) = byteLength (line ++ leadingFeed behind) := by
    rw [slice_one htext]
    cases behind with
    | nil => simp [leadingFeed]
    | cons c behind =>
        by_cases hfeed : c = '\n'
        · subst hfeed
          rw [leadingFeed, byteLength_append]
          rfl
        · rw [leadingFeed_of_ne hfeed]
          simp [hfeed]
  rw [hoistHashbang, h]
  simp only [if_neg (show ¬(header == "") = true by simpa using hheader), hslice, hstop]

/-- What the outcomes for `cjs` and for `amd-cjs` have to do with each other. -/
inductive Wraps (text : String) (options : TranspileOptions) :
    Except TranspileError Rendered → Except TranspileError Rendered → Prop where
  | failed (e : TranspileError) : Wraps text options (.error e) (.error e)
  /-- Without a hashbang, the code is put into the call. -/
  | plain
      {r r' : Rendered}
      (htext : ¬['#', '!'] <+: text.toList)
      (hcode : r'.code = called options r.code)
      (hmappings : r'.map.mappings = r.map.mappings.map Mapping.lower) :
      Wraps text options (.ok r) (.ok r')
  /-- A hashbang stays on top, and the code behind it is put into the call, without the line feed
  that ends the hashbang in the text. -/
  | hashbang
      {r r' : Rendered}
      {line behind : List Char}
      (code : String)
      (htext : text.toList = line ++ behind)
      (hline : HashbangLine line behind)
      (hcode : r.code = String.ofList (line ++ leadingFeed behind) ++ code)
      (hcode' : r'.code = trimEnd (String.ofList line) ++ "\n" ++ called options code) :
      Wraps text options (.ok r) (.ok r')

section

variable {text : String} {options : TranspileOptions} {r r' : Rendered}
variable {a : Assembly Target.cjs text options} {b : Assembly Target.amdCjs text options}

theorem Assembly.Gives.cjs (h : a.Gives r) :
    r.code.toList = spliced a.body 0 text.toList ++ (tail text "").toList ∧
      r.map.mappings =
        Mapping.ofPieces ⟨0, 0⟩ ⟨0, 0⟩ (Piece.cut 0 text.toList (Edit.sort a.body)) := by
  have hwrapper : a.wrapper = ⟨"", ""⟩ := Except.ok.inj a.hwrapper.symm
  have hheader : a.header = "" := by
    rw [Assembly.header, hwrapper, hoistHashbang_empty]
  have hfooter : a.footer = tail text "" := by
    rw [Assembly.footer, hwrapper]
    exact String.append_empty
  have hedits : a.edits = a.body := by
    change a.body ++ (hoistHashbang a.program text a.wrapper.header).2 = _
    rw [hwrapper, hoistHashbang_empty, List.append_nil]
  refine ⟨?_, ?_⟩
  · rw [h.code, hheader, hfooter, hedits]
    rfl
  · rw [h.mappings, hheader, hedits]
    rfl

theorem Assembly.Gives.amdCjs (h : b.Gives r) :
    r.code.toList =
        (hoistHashbang b.program text (callFront options)).1.toList ++
          spliced (b.body ++ (hoistHashbang b.program text (callFront options)).2) 0 text.toList ++
          (tail text "").toList ++ "\x7d);\n".toList ∧
      r.map.mappings =
        Mapping.ofPieces
          (.behind (hoistHashbang b.program text (callFront options)).1.toList) ⟨0, 0⟩
          (Piece.cut 0 text.toList
            (Edit.sort (b.body ++ (hoistHashbang b.program text (callFront options)).2))) := by
  have hwrapper : b.wrapper = ⟨callFront options, "\x7d);\n"⟩ :=
    Except.ok.inj (b.hwrapper.symm.trans (wrap_amdCjs b.view))
  have hheader : b.header = (hoistHashbang b.program text (callFront options)).1 := by
    rw [Assembly.header, hwrapper]
  have hfooter : b.footer = tail text "" ++ "\x7d);\n" := by
    rw [Assembly.footer, hwrapper]
    rfl
  have hedits : b.edits = b.body ++ (hoistHashbang b.program text (callFront options)).2 := by
    change b.body ++ (hoistHashbang b.program text b.wrapper.header).2 = _
    rw [hwrapper]
  refine ⟨?_, ?_⟩
  · rw [h.code, hheader, hfooter, hedits, String.toList_append, ← List.append_assoc]
  · rw [h.mappings, hheader, hedits]

/-- Two outputs of a module without a hashbang. -/
theorem wraps_plain
    (ha : a.Gives r)
    (hb : b.Gives r')
    (htext : ¬['#', '!'] <+: text.toList)
    (hbang : b.program.hashbang = none) :
    Wraps text options (.ok r) (.ok r') := by
  have hbody : b.body = a.body := a.body_congr b rfl rfl rfl
  obtain ⟨hcode, hmappings⟩ := ha.cjs
  obtain ⟨hcode', hmappings'⟩ := hb.amdCjs
  rw [hoistHashbang_none hbang, List.append_nil, hbody] at hcode' hmappings'
  refine .plain htext ?_ ?_
  · rw [← String.toList_inj, hcode', called]
    simp [hcode]
  · rw [hmappings', hmappings, behind_callFront]
    exact Mapping.ofPieces_lower ⟨0, 0⟩ ⟨0, 0⟩ _

/-- Two outputs of a module with a hashbang. -/
theorem wraps_hashbang
    {line behind : List Char}
    (ha : a.Gives r)
    (hb : b.Gives r')
    (htext : text.toList = line ++ behind)
    (hline : HashbangLine line behind)
    (hbang : b.program.hashbang = some ⟨0, byteLength line⟩) :
    Wraps text options (.ok r) (.ok r') := by
  have hbody : b.body = a.body := a.body_congr b rfl rfl rfl
  obtain ⟨rest, hrest⟩ := exists_leadingFeed behind
  have hwhole : text.toList = (line ++ leadingFeed behind) ++ rest := by
    rw [htext, List.append_assoc, ← hrest]
  have hfilled : line ++ leadingFeed behind ≠ [] := by
    obtain ⟨more, rfl⟩ := hline.marked
    simp
  have hbehind : Behind (byteLength (line ++ leadingFeed behind)) b.body := by
    obtain ⟨first, middle, last, hlaid⟩ := Program.laidOut_of_parse b.hparse
    have hle := hlaid.line_le hbang htext
    have hall := b.behind_body (cjsPrologue_ne_empty b.hprologue) hlaid
    exact fun e he => ⟨Nat.le_trans hle (hall e he).1, (hall e he).2⟩
  obtain ⟨hcode, -⟩ := ha.cjs
  obtain ⟨hcode', -⟩ := hb.amdCjs
  rw [hoistHashbang_some hbang htext (callFront_ne_empty options), hwhole,
    spliced_removed hfilled hbehind] at hcode'
  rw [hwhole, ← hbody, spliced_kept _ _ (by rwa [Nat.zero_add]), Nat.zero_add] at hcode
  refine .hashbang (String.ofList
    (spliced b.body (byteLength (line ++ leadingFeed behind)) rest) ++ tail text "")
    htext hline ?_ ?_
  · rw [← String.toList_inj, hcode]
    simp
  · rw [← String.toList_inj, hcode', called]
    simp

end

/-- The outcome for `amd-cjs` is that for `cjs` inside a `define` call: both fail in the same way,
or both succeed and one code is the other one in the call. -/
theorem amdCjs_wraps_cjs (text : String) (options : TranspileOptions) :
    Wraps text options (transpile "cjs" text options) (transpile "amd-cjs" text options) := by
  have hcjs : targetNamed "cjs" = .ok Target.cjs := rfl
  have hamd : targetNamed "amd-cjs" = .ok Target.amdCjs := rfl
  change Wraps text options (transpileFor Target.cjs text options)
    (transpileFor Target.amdCjs text options)
  rcases transpilable_or_obstacle text options with h | ⟨e, h⟩
  · obtain ⟨r, hr⟩ := transpileFor_eq_ok (total_targetNamed hcjs) h
    obtain ⟨r', hr'⟩ := transpileFor_eq_ok (total_targetNamed hamd) h
    obtain ⟨a, ha⟩ := exists_assembly hr
    obtain ⟨b, hb⟩ := exists_assembly hr'
    obtain ⟨-, -, -, -, -, -, hbang⟩ := Program.spaced_of_parse b.hparse
    rw [hr, hr']
    rcases hashbang?_cases text.toList with ⟨hnot, hnone⟩ | ⟨line, behind, htext, hline, hsome⟩
    · exact wraps_plain ha hb hnot (hbang.trans hnone)
    · exact wraps_hashbang ha hb htext hline (hbang.trans hsome)
  · rw [transpileFor_eq_error Target.cjs h, transpileFor_eq_error Target.amdCjs h]
    exact .failed e

/-- The options of a module that is registered as `n`. -/
def registered : TranspileOptions :=
  ⟨some "n", none, none, {}⟩

/-- In a text that is a hashbang line only, the prologue begins a line of its own. -/
theorem body_hashbang_only
    {target : Target}
    {options : TranspileOptions}
    (a : Assembly target "#!x" options)
    (hprologue : a.prologue ≠ "") :
    a.body = [.insert 3 ("\n" ++ a.prologue)] ∧ a.program.hashbang = some ⟨0, 3⟩ := by
  have hread : ((Program.parse "#!x").toOption.map fun p =>
      (p.hashbang, p.directives, p.items.length)) = some (some ⟨0, 3⟩, [], 0) := by
    decide +kernel
  obtain ⟨program, hparse, hfacts⟩ := ok_of_toOption_map hread
  obtain rfl : program = a.program := Except.ok.inj (hparse.symm.trans a.hparse)
  simp only [Prod.mk.injEq, List.length_eq_zero_iff] at hfacts
  obtain ⟨hbang, hdirectives, hitems⟩ := hfacts
  have hdeclarations : a.declarations = [] := by
    have h := a.hdeclarations
    rw [hitems] at h
    exact (Except.ok.inj h).symm
  have hreferences : a.references = [] := by
    rw [Assembly.references, Program.occurrences, Program.code, hitems]
    rfl
  refine ⟨?_, hbang⟩
  rw [Assembly.body, hdeclarations, hreferences, prologueEdit, hdirectives, hitems,
    if_neg (by simpa using hprologue)]
  rfl

/-- Where a text ends with its hashbang line, the code for `cjs` has a line feed behind that line
which is not one of the text, and it stays in the call. -/
theorem amdCjs_hashbang_only :
    ∃ r r' code,
      transpile "cjs" "#!x" registered = .ok r ∧ transpile "amd-cjs" "#!x" registered = .ok r' ∧
      r.code = "#!x\n" ++ code ∧
      r'.code = "#!x\n" ++ called registered ("\n" ++ code) ∧
      r'.code ≠ "#!x\n" ++ called registered code := by
  have hcjs : ((transpileFor Target.cjs "#!x" registered).toOption.map fun _ => ()) = some () := by
    simp only [transpileFor_eq]
    decide +kernel
  have hamd : ((transpileFor Target.amdCjs "#!x" registered).toOption.map fun _ => ()) =
      some () := by
    simp only [transpileFor_eq]
    decide +kernel
  obtain ⟨r, hr, -⟩ := ok_of_toOption_map hcjs
  obtain ⟨r', hr', -⟩ := ok_of_toOption_map hamd
  obtain ⟨a, ha⟩ := exists_assembly hr
  obtain ⟨b, hb⟩ := exists_assembly hr'
  rw [← transpile_of_targetNamed (show targetNamed "cjs" = .ok Target.cjs from rfl)] at hr
  rw [← transpile_of_targetNamed (show targetNamed "amd-cjs" = .ok Target.amdCjs from rfl)] at hr'
  obtain ⟨hbody, hbang⟩ := body_hashbang_only b (cjsPrologue_ne_empty b.hprologue)
  have hbehind : Behind (byteLength ['#', '!', 'x']) b.body := by
    simp only [hbody, Behind, Edit.insert, List.forall_mem_singleton]
    decide
  have hend : spliced b.body 3 [] = '\n' :: b.prologue.toList := by
    simp [hbody, spliced, insertion, insertsAt, Edit.insert]
  have hkept : spliced b.body 0 "#!x".toList = ['#', '!', 'x'] ++ '\n' :: b.prologue.toList := by
    rw [← hend]
    exact spliced_kept ['#', '!', 'x'] [] hbehind
  have hremoved : spliced (b.body ++ [.remove ⟨0, 3⟩]) 0 "#!x".toList =
      '\n' :: b.prologue.toList := by
    rw [← hend]
    exact spliced_removed (List.cons_ne_nil '#' ['!', 'x']) hbehind []
  have hhoist : hoistHashbang b.program "#!x" (callFront registered) =
      (trimEnd (String.ofList ['#', '!', 'x']) ++ "\n" ++ callFront registered,
        [.remove ⟨0, 3⟩]) :=
    hoistHashbang_some hbang (List.append_nil _).symm (callFront_ne_empty registered)
  have htrim : trimEnd (String.ofList ['#', '!', 'x']) = "#!x" := by
    decide
  obtain ⟨hcode, -⟩ := ha.cjs
  obtain ⟨hcode', -⟩ := hb.amdCjs
  rw [← a.body_congr b rfl rfl rfl, hkept] at hcode
  rw [hhoist, hremoved, htrim] at hcode'
  have hamdCode : r'.code =
      "#!x\n" ++ called registered ("\n" ++ (b.prologue ++ tail "#!x" "")) := by
    rw [← String.toList_inj, hcode', called]
    simp
  refine ⟨r, r', b.prologue ++ tail "#!x" "", hr, hr', ?_, hamdCode, ?_⟩
  · rw [← String.toList_inj, hcode]
    simp
  · intro hsame
    have hlength := congrArg String.length (hamdCode.symm.trans hsame)
    simp [called, String.length_append] at hlength

end Transpile
end EsModules
