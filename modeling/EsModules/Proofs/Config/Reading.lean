import EsModules.Config.Layers
import EsModules.Proofs.Config.Dictionary
import EsModules.Proofs.Path

/-!
# What is read is in order

Whatever a file or a variable holds, the layer that is read from it has its keys in order, and so
have the dictionaries in it (`layer_readLayer`, `layer_settings`).  A reader is followed step by
step through what each of its results satisfies (`Gives`).
-/

namespace EsModules

namespace Text

section Only

variable {α β : Type} {P : α → Prop}

/-- If something is found, it satisfies `P`. -/
def Only (found : Option α) (P : α → Prop) : Prop :=
  ∀ a, found = some a → P a

theorem only_some {a : α} (h : P a) : Only (some a) P := by
  rintro _ ⟨⟩
  exact h

theorem only_none : Only none P :=
  nofun

/-- What is found first does not matter. -/
theorem Only.after
    {found : Option β}
    {next : β → Option α}
    (h : ∀ b, Only (next b) P) :
    Only (found >>= next) P := by
  intro a ha
  obtain ⟨b, _, hb⟩ := Option.bind_eq_some_iff.mp ha
  exact h b a hb

theorem Only.ite
    {p : Prop}
    [Decidable p]
    {found other : Option α}
    (h : Only found P)
    (hother : Only other P) :
    Only (if p then found else other) P := by
  split
  · exact h
  · exact hother

theorem Only.orElse
    {found : Option α}
    {other : Unit → Option α}
    (h : Only found P)
    (hother : Only (other ()) P) :
    Only (found.orElse other) P := by
  cases found with
  | none => exact hother
  | some a => exact h

theorem Only.getD {found : Option α} {a : α} (h : Only found P) (ha : P a) : P (found.getD a) := by
  cases found with
  | none => exact ha
  | some b => exact h b rfl

end Only

namespace Reader

variable {σ α β : Type} {P : α → Prop}

/-- Every result of the reader satisfies `P`. -/
def Gives (reader : Reader α) (P : α → Prop) : Prop :=
  ∀ here a rest, reader.run here = some (a, rest) → P a

theorem gives_any (reader : Reader α) : reader.Gives fun _ => True :=
  fun _ _ _ _ => trivial

theorem gives_pure {a : α} (h : P a) : Gives (pure a) P := by
  rintro here _ rest ⟨⟩
  exact h

theorem gives_failure : Gives failure P :=
  nofun

theorem Gives.bind
    {reader : Reader β}
    {next : β → Reader α}
    {Q : β → Prop}
    (h : reader.Gives Q)
    (hnext : ∀ b, Q b → (next b).Gives P) :
    Gives (reader >>= next) P := by
  intro here a rest hrun
  rw [StateT.run_bind, Option.bind_eq_bind, Option.bind_eq_some_iff] at hrun
  obtain ⟨⟨b, middle⟩, hreader, hrest⟩ := hrun
  exact hnext b (h here b middle hreader) middle a rest hrest

/-- What the first reader gives does not matter. -/
theorem Gives.after
    {reader : Reader β}
    {next : β → Reader α}
    (hnext : ∀ b, (next b).Gives P) :
    Gives (reader >>= next) P :=
  (gives_any reader).bind fun b _ => hnext b

theorem Gives.ite
    {p : Prop}
    [Decidable p]
    {reader other : Reader α}
    (h : reader.Gives P)
    (hother : other.Gives P) :
    Gives (if p then reader else other) P := by
  split
  · exact h
  · exact hother

theorem Gives.iterate
    {step : σ → Reader (σ ⊕ α)}
    {Q : σ → Prop}
    (h : ∀ state, Q state → (step state).Gives (Sum.elim Q P))
    (bound : Nat)
    {state : σ}
    (hstate : Q state) :
    (Reader.iterate step bound state).Gives P := by
  induction bound generalizing state with
  | zero => exact gives_failure
  | succ bound ih =>
      refine (h state hstate).bind ?_
      rintro (next | result) hresult
      · exact ih hresult
      · exact gives_pure hresult

theorem Gives.loop
    {step : σ → Reader (σ ⊕ α)}
    {start : σ}
    (Q : σ → Prop)
    (hstart : Q start)
    (h : ∀ state, Q state → (step state).Gives (Sum.elim Q P)) :
    (Reader.loop start step).Gives P :=
  .after fun _ => .iterate h _ hstart

theorem Gives.all? {reader : Reader α} (h : reader.Gives P) (text : String) :
    Only (reader.all? text) P := by
  unfold Reader.all?
  split
  · rename_i hrun
    exact only_some (h _ _ _ hrun)
  · exact only_none

end Reader
end Text

namespace Config

open Text

/-! ### JSON -/

namespace Json

theorem gives_itemsRest
    {α : Type}
    {item : Reader α}
    {P : α → Prop}
    (h : item.Gives P)
    (close : Char) :
    (itemsRest item close).Gives fun items => ∀ a ∈ items, P a := by
  rw [itemsRest_eq]
  refine .after fun _ => .after fun _ => ?_
  split
  · exact .after fun _ => Reader.gives_pure nofun
  · refine .loop (fun items => ∀ a ∈ items, P a) nofun ?_
    intro items hitems
    refine h.bind fun a ha => .after fun _ => .after fun _ => ?_
    have hall : ∀ b ∈ a :: items, P b := List.forall_mem_cons.mpr ⟨ha, hitems⟩
    split
    · exact Reader.gives_pure hall
    · exact .after fun _ => Reader.gives_pure fun b hb => hall b (List.mem_reverse.mp hb)

theorem gives_object {reader : Reader Value} (h : reader.Gives Value.Sorted) :
    (object reader).Gives Fields.Layer := by
  have hpair : (pair reader).Gives fun entry => entry.2.Sorted :=
    .after fun _ => .after fun _ => .after fun _ => .after fun _ => .after fun _ =>
      h.bind fun _ hvalue => Reader.gives_pure hvalue
  exact .after fun _ => (gives_itemsRest hpair _).bind fun _ hentries =>
    Reader.gives_pure (Fields.layer_ofList hentries)

theorem sorted_integerValue (negative : Bool) (whole : List Char) :
    (integerValue negative whole).Sorted := by
  unfold integerValue
  extract_lets n
  split
  · split <;> exact nofun
  · split <;> exact nofun

theorem gives_number : number.Gives Value.Sorted := by
  refine .after fun negative => .after fun whole => ?_
  have hrest : ∀ _ : Unit, Reader.Gives (do
      let fraction ← fraction
      let exponent ← exponent
      if fraction.isNone && exponent.isNone then return integerValue negative whole
      return .float (plainDecimal negative whole (fraction.getD []) (exponent.getD 0)))
      Value.Sorted :=
    fun _ => .after fun _ => .after fun _ =>
      .ite (Reader.gives_pure (sorted_integerValue negative whole)) (Reader.gives_pure nofun)
  exact .ite (.after hrest) (hrest ())

theorem gives_value (depth : Nat) : (value depth).Gives Value.Sorted := by
  induction depth with
  | zero => exact Reader.gives_failure
  | succ depth ih =>
      have hword : ∀ (word : String) (v : Value), v.Sorted →
          Reader.Gives (do if ← Reader.accept word then return v else failure) Value.Sorted :=
        fun _ _ h => .after fun _ => .ite (Reader.gives_pure h) Reader.gives_failure
      refine .after fun _ => .after fun front => ?_
      split
      · exact .after fun _ => .after fun _ => Reader.gives_pure nofun
      · exact .after fun _ => .after fun _ => Reader.gives_pure nofun
      · exact (gives_object ih).bind fun _ hfields =>
          Reader.gives_pure (Value.sorted_dict hfields.sorted)
      · exact hword _ _ nofun
      · exact hword _ _ nofun
      · exact hword _ _ nofun
      · exact gives_number

theorem layer_parse? (text : String) : Only (parse? text) Fields.Layer := by
  have hdocument : document.Gives Fields.Layer :=
    .after fun _ => (gives_object (gives_value depthLimit)).bind fun _ hfields =>
      .after fun _ => Reader.gives_pure hfields
  exact hdocument.all? text

end Json

/-! ### TOML -/

namespace Toml

theorem sorted_dataOfFields (entries : Entries) : (Node.dataOfFields entries).Sorted := by
  induction entries with
  | nil =>
      rw [Node.dataOfFields]
      exact List.Pairwise.nil
  | cons entry entries ih =>
      rw [Node.dataOfFields]
      exact ih.set _ _

theorem sorted_data_table (kind : TableKind) (entries : Entries) :
    (Node.table kind entries).data.Sorted := by
  rw [Node.data]
  exact Value.sorted_dict (sorted_dataOfFields entries)

theorem sorted_data_tables (elements : List Node) : (Node.tables elements).data.Sorted := by
  rw [Node.data]
  exact nofun

/-- The data of every entry is in order. -/
def Entries.Sorted (entries : Entries) : Prop :=
  ∀ entry ∈ entries, entry.2.data.Sorted

namespace Entries

variable {entries after : Entries} {key : String} {node : Node}

theorem Sorted.put (h : entries.Sorted) (hnode : node.data.Sorted) :
    (entries.put key node).Sorted := by
  intro entry hentry
  rcases List.mem_cons.mp hentry with rfl | hentry
  · exact hnode
  · exact h entry (List.mem_of_mem_filter hentry)

theorem Sorted.add
    (h : entries.Sorted)
    (hnode : node.data.Sorted)
    (hadd : Entries.add key node entries = some after) :
    after.Sorted := by
  unfold Entries.add at hadd
  split at hadd
  · cases hadd
  · exact Option.some_inj.mp hadd ▸ h.put hnode

/-- A change inside a table or a list of tables leaves a table or a list of tables. -/
theorem Sorted.descend
    {way : Way}
    {change : Entries → Option Entries}
    (h : entries.Sorted)
    (hdescend : entries.descend way key change = some after) :
    after.Sorted := by
  unfold Entries.descend at hdescend
  split at hdescend
  · obtain ⟨fields, _, ⟨⟩⟩ := Option.bind_eq_some_iff.mp hdescend
    exact h.put (sorted_data_table _ _)
  · split at hdescend
    · obtain ⟨fields, _, ⟨⟩⟩ := Option.bind_eq_some_iff.mp hdescend
      exact h.put (sorted_data_table _ _)
    · cases hdescend
  · split at hdescend
    · obtain ⟨fields, _, ⟨⟩⟩ := Option.bind_eq_some_iff.mp hdescend
      exact h.put (sorted_data_tables _)
    · cases hdescend
  · cases hdescend

theorem Sorted.at
    {change : Entries → Option Entries}
    (hchange : ∀ entries after, Sorted entries → change entries = some after → Sorted after)
    {path : List String}
    (h : entries.Sorted)
    (hat : Entries.at change path entries = some after) :
    after.Sorted := by
  cases path with
  | nil => exact hchange entries after h hat
  | cons key rest => exact h.descend hat

theorem Sorted.assign
    {value : Value}
    {path : List String}
    (h : entries.Sorted)
    (hvalue : value.Sorted)
    (hassign : Entries.assign value path entries = some after) :
    after.Sorted := by
  have hdata : (Node.value value).data.Sorted := by
    rw [Node.data]
    exact hvalue
  unfold Entries.assign at hassign
  split at hassign
  · cases hassign
  · exact h.add hdata hassign
  · exact h.descend hassign
  · exact h.descend hassign

theorem Sorted.begin (h : entries.Sorted) (hbegin : entries.begin key = some after) :
    after.Sorted := by
  unfold Entries.begin at hbegin
  split at hbegin
  · exact Option.some_inj.mp hbegin ▸ h.put (sorted_data_table _ _)
  · exact Option.some_inj.mp hbegin ▸ h.put (sorted_data_table _ _)
  · cases hbegin

theorem Sorted.beginElement
    (h : entries.Sorted)
    (hbegin : entries.beginElement key = some after) :
    after.Sorted := by
  unfold Entries.beginElement at hbegin
  split at hbegin
  · exact Option.some_inj.mp hbegin ▸ h.put (sorted_data_tables _)
  · exact Option.some_inj.mp hbegin ▸ h.put (sorted_data_tables _)
  · cases hbegin

theorem Sorted.layer (h : entries.Sorted) : (Node.dataOfFields entries).Layer where
  sorted := sorted_dataOfFields entries
  values key value hvalue := by
    induction entries with
    | nil =>
        rw [Node.dataOfFields] at hvalue
        cases hvalue
    | cons entry entries ih =>
        rw [Node.dataOfFields, Fields.get?_set] at hvalue
        split at hvalue
        · exact Option.some_inj.mp hvalue ▸ h entry List.mem_cons_self
        · exact ih (fun other hother => h other (List.mem_cons_of_mem _ hother)) hvalue

end Entries

theorem sorted_integer? (text : List Char) : Only (integer? text) Value.Sorted := by
  have hbounded : ∀ n, Only (bounded? n) Value.Sorted :=
    fun _ => .ite (only_some nofun) only_none
  unfold integer?
  split
  · exact .after fun _ => hbounded _
  · exact .after fun _ => hbounded _
  · exact .after fun _ => hbounded _
  · exact .after fun _ => hbounded _

theorem sorted_float? (text : List Char) : Only (float? text) Value.Sorted := by
  unfold float?
  split
  refine .ite (only_some nofun) (.ite (only_some nofun) ?_)
  split
  split
  refine .after fun whole => ?_
  extract_lets rest
  have hrest : ∀ fraction, Only (rest fraction) Value.Sorted := by
    intro fraction
    unfold rest
    split
    · exact only_some nofun
    · exact .after fun _ => only_some nofun
  split
  · exact .ite only_none (hrest [])
  · exact .after hrest

theorem sorted_dateTime? (text : List Char) : Only (dateTime? text) Value.Sorted := by
  unfold dateTime?
  extract_lets rest
  have hrest : ∀ behind, Only (rest behind) Value.Sorted :=
    fun _ => .ite (only_some (Value.sorted_dict (List.pairwise_singleton _ _))) only_none
  split
  · exact hrest []
  · exact .ite (.after fun _ => .after hrest) only_none
  · exact .after hrest

theorem sorted_scalarValue? (text : List Char) : Only (scalarValue? text) Value.Sorted :=
  .ite (only_some nofun) <| .ite (only_some nofun) <|
    (sorted_integer? text).orElse ((sorted_float? text).orElse (sorted_dateTime? text))

theorem gives_value (depth : Nat) : (value depth).Gives Value.Sorted := by
  cases depth with
  | zero => exact Reader.gives_failure
  | succ depth =>
      refine .after fun front => ?_
      split
      · exact .after fun _ => Reader.gives_pure nofun
      · exact .after fun _ => Reader.gives_pure nofun
      · -- A list holds whatever its items are.
        refine .after fun _ => .loop (fun _ => True) trivial fun items _ => ?_
        refine .after fun _ => .after fun _ => .ite (Reader.gives_pure nofun) ?_
        refine .after fun _ => .after fun _ => .after fun _ => .ite (Reader.gives_pure trivial) ?_
        exact .after fun _ => Reader.gives_pure nofun
      · refine .after fun _ => .after fun _ => .after fun _ => .ite (Reader.gives_pure ?_) ?_
        · exact Value.sorted_dict List.Pairwise.nil
        · exact .after fun _ => Reader.gives_pure (sorted_data_table _ _)
      · refine .after fun here => .after fun _ => ?_
        split
        · rename_i v hv
          exact Reader.gives_pure (sorted_scalarValue? _ v hv)
        · exact Reader.gives_failure

/-! One line of a document keeps its entries in order, and so do all. -/

theorem gives_update
    {p : Progress}
    {table : List String}
    {change : Option Entries}
    (h : Only change Entries.Sorted) :
    (p.update table change).Gives fun p => p.entries.Sorted := by
  unfold Progress.update
  split
  · exact Reader.gives_pure (h _ rfl)
  · exact Reader.gives_failure

theorem gives_header {p : Progress} (h : p.entries.Sorted) :
    (header p).Gives fun p => p.entries.Sorted := by
  refine .after fun isElement => ?_
  extract_lets rest
  have hrest : ∀ done, (rest done).Gives fun p => p.entries.Sorted := by
    refine fun _ => .after fun path => .after fun _ => ?_
    extract_lets key begin rest
    have hrest : ∀ done, (rest done).Gives fun p => p.entries.Sorted := by
      refine fun _ => gives_update fun after hafter => ?_
      refine h.at (fun entries after hentries hbegin => ?_) hafter
      unfold begin at hbegin
      split at hbegin
      · exact hentries.beginElement hbegin
      · exact hentries.begin hbegin
    exact .ite (.after hrest) (hrest ())
  exact .ite (.after hrest) (hrest ())

theorem gives_line {p : Progress} (h : p.entries.Sorted) :
    (line p).Gives fun p => p.entries.Sorted := by
  refine .after fun front => ?_
  split
  · exact Reader.gives_pure h
  · refine .after fun _ => .ite (Reader.gives_pure h) (.ite (gives_header h) ?_)
    refine .after fun path => .after fun _ => .after fun _ => .after fun here => ?_
    refine (gives_value here.length).bind fun v hv => gives_update ?_
    intro after hafter
    exact h.at (fun _ _ hentries hassign => hentries.assign hv hassign) hafter

theorem layer_parse? (text : String) : Only (parse? text) Fields.Layer := by
  have hdocument : document.Gives Fields.Layer := by
    refine .after fun _ => ?_
    refine Reader.Gives.bind (.loop (fun p => p.entries.Sorted) nofun ?_)
      fun p (hp : p.entries.Sorted) => Reader.gives_pure hp.layer
    intro p hp
    refine .after fun _ => (gives_line hp).bind fun p hp => .after fun _ => .after fun _ => ?_
    exact .after fun _ => .ite (Reader.gives_pure hp) (.after fun _ => Reader.gives_pure hp)
  exact hdocument.all? text

end Toml

/-! ### Variables -/

namespace Environment

theorem sorted_float? (text : List Char) : Only (float? text) Value.Sorted := by
  unfold float?
  split
  split
  split
  extract_lets fraction finish rest
  have hfinish : ∀ exponent, Only (finish exponent) Value.Sorted := fun _ => only_some nofun
  have hrest : ∀ done, Only (rest done) Value.Sorted := by
    intro done
    unfold rest
    split
    · exact hfinish 0
    · exact .ite (.after hfinish) only_none
    · exact .ite (.after hfinish) only_none
    · exact .ite (.after hfinish) only_none
  exact .ite only_none (hrest ())

theorem sorted_integer? (text : List Char) : Only (integer? text) Value.Sorted := by
  unfold integer?
  split
  · exact .ite only_none (.ite only_none (only_some nofun))
  · exact .ite only_none (.ite only_none (only_some nofun))

theorem sorted_bareValue (text : List Char) : (bareValue text).Sorted :=
  Only.getD (.orElse (.ite (sorted_float? _) only_none) (sorted_integer? _)) nofun

theorem gives_value (depth : Nat) : (value depth).Gives Value.Sorted := by
  cases depth with
  | zero => exact Reader.gives_failure
  | succ depth =>
      have hrest : ∀ v, v.Sorted → Reader.Gives (do
          let v ← pure v
          Reader.skipWhile isSpace
          return v) Value.Sorted :=
        fun v hv => (Reader.gives_pure hv).bind fun _ hv => .after fun _ => Reader.gives_pure hv
      refine .after fun _ => .after fun _ => .ite (hrest _ nofun) (.after fun _ => ?_)
      refine .ite (hrest _ nofun) (.after fun front => ?_)
      split
      · exact .after fun _ => hrest _ (Value.sorted_dict (Fields.Sorted.foldl_set .nil _))
      · exact .after fun _ => hrest _ nofun
      · exact .after fun _ => hrest _ nofun
      · exact .after fun _ => hrest _ nofun
      · exact .after fun _ => hrest _ (sorted_bareValue _)

theorem sorted_parseValue (text : String) : (parseValue text).Sorted :=
  ((gives_value _).all? text).getD nofun

theorem sorted_nest (path : List String) {v : Value} (h : v.Sorted) : (nest path v).Sorted := by
  cases path with
  | nil => exact h
  | cons key rest => exact Value.sorted_dict (List.pairwise_singleton _ _)

theorem fieldPath_ne_nil (name : String) : fieldPath name ≠ [] := by
  unfold fieldPath
  rw [Path.splitAt_eq_splitOn]
  exact fun h => List.splitOn_ne_nil _ _ (List.map_eq_nil_iff.mp h)

theorem layer_variableSettings (name text : String) : (variableSettings name text).Layer := by
  unfold variableSettings
  split
  · exact Fields.layer_nil
  · rename_i field _
    extract_lets path
    obtain ⟨key, rest, hpath⟩ := List.exists_cons_of_ne_nil (fieldPath_ne_nil field)
    have hsorted : ∀ entry ∈ [(key, nest rest (parseValue text))], entry.2.Sorted :=
      List.forall_mem_singleton.mpr (sorted_nest rest (sorted_parseValue text))
    split
    · exact Fields.layer_nil
    · unfold path
      rw [hpath]
      exact Fields.layer_ofList hsorted

theorem layer_settings (environment : List (String × String)) : (settings environment).Layer := by
  suffices h : ∀ fields : Fields, fields.Layer → Fields.Layer (environment.foldl
      (fun fields entry => Fields.over (variableSettings entry.1 entry.2) fields) fields) from
    h [] Fields.layer_nil
  induction environment with
  | nil => exact fun _ h => h
  | cons entry environment ih =>
      exact fun fields h => ih _ ((layer_variableSettings entry.1 entry.2).over h)

end Environment
end Config

theorem ProjectConfig.layer_readLayer
    {disk : Disk}
    {path : String}
    {fields : Config.Fields}
    (h : readLayer disk path = .ok fields) :
    fields.Layer := by
  unfold readLayer at h
  split at h
  · cases h
  · rename_i kind _
    split at h
    · rename_i found hfound
      obtain ⟨text, _, hparse⟩ := Option.bind_eq_some_iff.mp hfound
      rw [← Except.ok.inj h]
      cases kind with
      | toml => exact Config.Toml.layer_parse? text found hparse
      | json => exact Config.Json.layer_parse? text found hparse
    · cases h

end EsModules
