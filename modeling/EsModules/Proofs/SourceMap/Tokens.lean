import EsModules.SourceMap.Tokens
import Mathlib.Tactic.Common

/-!
# Mappings that are read back

Reading what was written for mappings gives a token for each, in order, if their lines do not go
back (`readFrom_segments`).
-/

namespace EsModules
namespace SourceMap

/-! ### Numbers -/

theorem base64Value?_base64Digit : ∀ n < 64, base64Value? (base64Digit n) = some n := by
  decide

theorem unsignedNumbers?_vlqDigits
    {limit n : Nat}
    (h : n ≤ limit)
    (rest : List Char) :
    unsignedNumbers? (vlqDigits limit n ++ rest) = (unsignedNumbers? rest).map (n :: ·) := by
  induction limit generalizing n with
  | zero =>
      obtain rfl : n = 0 := Nat.le_zero.mp h
      have hdigit := base64Value?_base64Digit 0 (by decide)
      rw [vlqDigits, Nat.zero_mod, List.singleton_append, unsignedNumbers?, hdigit]
      cases unsignedNumbers? rest with
      | none => rfl
      | some numbers => rfl
  | succ limit ih =>
      rw [vlqDigits]
      split
      · rename_i hlast
        have hdigit := base64Value?_base64Digit n (by omega)
        rw [List.singleton_append, unsignedNumbers?, hdigit]
        cases unsignedNumbers? rest with
        | none => rfl
        | some numbers => simp [hlast]
      · have hdigit := base64Value?_base64Digit (n % 32 + 32) (by omega)
        have hmore : ¬n % 32 + 32 < 32 := by omega
        rw [List.cons_append, unsignedNumbers?, hdigit, ih (by omega)]
        cases unsignedNumbers? rest with
        | none => rfl
        | some numbers => simp [hmore, Nat.mod_add_div]

/-- The sign is read from the lowest bit. -/
theorem signedNumber_of_folded (n : Int) :
    signedNumber (if n < 0 then 2 * n.natAbs + 1 else 2 * n.natAbs) = n := by
  by_cases hsign : n < 0
  · have hodd : ¬(2 * n.natAbs + 1) % 2 = 0 := by omega
    have hhalf : (2 * n.natAbs + 1) / 2 = n.natAbs := by omega
    rw [if_pos hsign, signedNumber, if_neg hodd, hhalf, Int.ofNat_eq_natCast]
    omega
  · have heven : 2 * n.natAbs % 2 = 0 := by omega
    have hhalf : 2 * n.natAbs / 2 = n.natAbs := by omega
    rw [if_neg hsign, signedNumber, if_pos heven, hhalf, Int.ofNat_eq_natCast]
    omega

/-- A number is read back, in front of further numbers. -/
theorem numbers?_vlq (n : Int) (rest : List Char) :
    numbers? (vlq n ++ rest) = (numbers? rest).map (n :: ·) := by
  rw [numbers?, vlq, unsignedNumbers?_vlqDigits (Nat.le_refl _), numbers?, Option.map_map,
    Option.map_map]
  congr 1
  funext numbers
  simp only [Function.comp_apply, List.map_cons, signedNumber_of_folded]

/-- A digit is neither a comma nor a semicolon. -/
theorem base64Digit_ne : ∀ n < 64, base64Digit n ≠ ',' ∧ base64Digit n ≠ ';' := by
  decide

theorem mem_vlqDigits
    {limit n : Nat}
    {c : Char}
    (h : c ∈ vlqDigits limit n) :
    c ≠ ',' ∧ c ≠ ';' := by
  induction limit generalizing n with
  | zero =>
      rw [List.mem_singleton.mp h]
      exact base64Digit_ne _ (by omega)
  | succ limit ih =>
      rw [vlqDigits] at h
      split at h
      · rw [List.mem_singleton.mp h]
        exact base64Digit_ne _ (by omega)
      · rcases List.mem_cons.mp h with rfl | h
        · exact base64Digit_ne _ (by omega)
        · exact ih h

/-! ### Segments -/

theorem moved?_of_sub (before after : Nat) :
    moved? before (Int.ofNat after - Int.ofNat before) = some after := by
  have hsum : Int.ofNat before + (Int.ofNat after - Int.ofNat before) = Int.ofNat after := by
    omega
  rw [moved?, hsum]
  rfl

/-! ### Lines and segments one after the other -/

theorem splitOn_append
    {sep : Char}
    {front : List Char}
    (h : sep ∉ front)
    (back : List Char) :
    (front ++ back).splitOn sep = (back.splitOn sep).modifyHead (front ++ ·) := by
  induction front with
  | nil =>
      obtain ⟨line, lines, hlines⟩ := List.exists_cons_of_ne_nil (List.splitOn_ne_nil sep back)
      simp [hlines]
  | cons c front ih =>
      simp only [List.mem_cons, not_or] at h
      obtain ⟨line, lines, hlines⟩ := List.exists_cons_of_ne_nil (List.splitOn_ne_nil sep back)
      rw [List.cons_append, List.splitOn_cons_eq_if_modifyHead, if_neg (by simpa using Ne.symm h.1),
        ih h.2, hlines]
      rfl

theorem segmentsOf_comma (line : List Char) : segmentsOf (',' :: line) = segmentsOf line := by
  rw [segmentsOf, List.splitOn_cons_eq_if_modifyHead, if_pos (by simp),
    List.filter_cons_of_neg (by simp), segmentsOf]

theorem segmentsOf_append
    {segment line : List Char}
    (hcomma : ',' ∉ segment)
    (hsome : segment ≠ [])
    (hline : line = [] ∨ ∃ rest, line = ',' :: rest) :
    segmentsOf (segment ++ line) = segment :: segmentsOf line := by
  obtain ⟨more, hmore⟩ : ∃ more, line.splitOn ',' = [] :: more := by
    rcases hline with rfl | ⟨rest, rfl⟩
    · exact ⟨[], by simp⟩
    · refine ⟨rest.splitOn ',', ?_⟩
      rw [List.splitOn_cons_eq_if_modifyHead, if_pos (by simp)]
  rw [segmentsOf, segmentsOf, splitOn_append hcomma, hmore]
  simp [hsome]

section Reading

variable (r : Reached)

theorem readFrom_nil : readFrom r [] = some [] := by
  simp [readFrom, readLines, segmentsOf, readSegments]

/-- A semicolon ends a line. -/
theorem readFrom_semicolon (text : List Char) :
    readFrom r (';' :: text) = readFrom r.nextLine text := by
  rw [readFrom, List.splitOn_cons_eq_if_modifyHead, if_pos (by simp), readLines]
  simp [segmentsOf, readSegments, readFrom]

theorem readFrom_comma (text : List Char) : readFrom r (',' :: text) = readFrom r text := by
  obtain ⟨line, lines, hlines⟩ := List.exists_cons_of_ne_nil (List.splitOn_ne_nil ';' text)
  rw [readFrom, List.splitOn_cons_eq_if_modifyHead, if_neg (by decide), readFrom, hlines,
    List.modifyHead_cons, readLines, segmentsOf_comma, readLines]

theorem readFrom_separator (absent : Bool) (text : List Char) :
    readFrom r ((if absent then [] else [',']) ++ text) = readFrom r text := by
  cases absent with
  | true => rfl
  | false => exact readFrom_comma r text

/-- A segment up to a separator or the end gives a token. -/
theorem readFrom_segment
    {r r' : Reached}
    {segment text : List Char}
    {numbers : List Int}
    {token : Token}
    (hsegment : ∀ c ∈ segment, c ≠ ',' ∧ c ≠ ';')
    (hsome : segment ≠ [])
    (hnumbers : numbers? segment = some numbers)
    (htoken : r.token? numbers = some (token, r'))
    (htext : text = [] ∨ ∃ rest, text = ',' :: rest ∨ text = ';' :: rest) :
    readFrom r (segment ++ text) = (readFrom r' text).map (token :: ·) := by
  have hcomma : ',' ∉ segment := fun hmem => (hsegment _ hmem).1 rfl
  have hsemicolon : ';' ∉ segment := fun hmem => (hsegment _ hmem).2 rfl
  obtain ⟨line, lines, hlines, hline⟩ : ∃ line lines, text.splitOn ';' = line :: lines ∧
      (line = [] ∨ ∃ rest, line = ',' :: rest) := by
    rcases htext with rfl | ⟨rest, rfl | rfl⟩
    · exact ⟨[], [], by simp, .inl rfl⟩
    · obtain ⟨line, lines, hlines⟩ := List.exists_cons_of_ne_nil (List.splitOn_ne_nil ';' rest)
      refine ⟨',' :: line, lines, ?_, .inr ⟨line, rfl⟩⟩
      rw [List.splitOn_cons_eq_if_modifyHead, if_neg (by decide), hlines, List.modifyHead_cons]
    · refine ⟨[], rest.splitOn ';', ?_, .inl rfl⟩
      rw [List.splitOn_cons_eq_if_modifyHead, if_pos (by simp)]
  rw [readFrom, splitOn_append hsemicolon, readFrom, hlines, List.modifyHead_cons, readLines,
    segmentsOf_append hcomma hsome hline, readSegments, readLines]
  simp only [hnumbers, htoken, Option.bind_eq_bind, Option.bind_some, Option.bind_assoc]
  cases readSegments r' (segmentsOf line) with
  | none => rfl
  | some result =>
      cases hmore : readLines result.2.nextLine lines with
      | none => simp [hmore]
      | some tokens => simp [hmore]

/-- Semicolons lead to a later line. -/
theorem readFrom_replicate (count : Nat) (text : List Char) :
    readFrom r (List.replicate count ';' ++ text) =
      readFrom { r with generated :=
        ⟨r.generated.line + count, if count == 0 then r.generated.column else 0⟩ } text := by
  induction count generalizing r with
  | zero => rfl
  | succ count ih =>
      rw [List.replicate_succ, List.cons_append, readFrom_semicolon, ih]
      simp [Reached.nextLine, Nat.add_assoc, Nat.add_comm 1]

end Reading

/-! ### Reading what was written -/

theorem vlq_ne_nil (n : Int) : vlq n ≠ [] := by
  unfold vlq
  generalize (if n < 0 then 2 * n.natAbs + 1 else 2 * n.natAbs) = m
  cases m with
  | zero => simp [vlqDigits]
  | succ m =>
      simp only [vlqDigits]
      split <;> simp

theorem numbers?_flatMap_vlq (numbers : List Int) :
    numbers? (numbers.flatMap vlq) = some numbers := by
  induction numbers with
  | nil => rfl
  | cons n numbers ih => rw [List.flatMap_cons, numbers?_vlq, ih, Option.map_some]

/-- Numbers that make up a token are read as that token. -/
theorem readFrom_numbers
    {r r' : Reached}
    {numbers : List Int}
    {token : Token}
    {text : List Char}
    (htoken : r.token? numbers = some (token, r'))
    (htext : text = [] ∨ ∃ rest, text = ',' :: rest ∨ text = ';' :: rest) :
    readFrom r (numbers.flatMap vlq ++ text) = (readFrom r' text).map (token :: ·) := by
  refine readFrom_segment ?_ ?_ (numbers?_flatMap_vlq numbers) htoken htext
  · intro c hc
    obtain ⟨n, -, hc⟩ := List.mem_flatMap.mp hc
    exact mem_vlqDigits hc
  · cases numbers with
    | nil => simp [Reached.token?] at htoken
    | cons n numbers => simp [vlq_ne_nil]

/-- The segment of a mapping is read as its token. -/
theorem readFrom_mapping
    {before origin generated origin' : Place}
    (hline : before.line = generated.line)
    (name : Nat)
    (index : Option Nat)
    {text : List Char}
    (htext : text = [] ∨ ∃ rest, text = ',' :: rest ∨ text = ';' :: rest) :
    readFrom ⟨before, 0, origin, name⟩
        (delta before.column generated.column ++ vlq 0 ++ delta origin.line origin'.line
          ++ delta origin.column origin'.column ++ (index.map (delta name)).getD [] ++ text) =
      (readFrom ⟨generated, 0, origin', index.getD name⟩ text).map
        (⟨generated, some (0, origin'), index⟩ :: ·) := by
  obtain ⟨line, column⟩ := generated
  obtain rfl : before.line = line := hline
  have hsource : moved? 0 0 = some 0 := rfl
  cases index with
  | none =>
      have hread := @readFrom_numbers ⟨before, 0, origin, name⟩ _
        [Int.ofNat column - Int.ofNat before.column, 0,
          Int.ofNat origin'.line - Int.ofNat origin.line,
          Int.ofNat origin'.column - Int.ofNat origin.column]
        _ text (by simp only [Reached.token?, moved?_of_sub, hsource]; rfl) htext
      simpa [delta] using hread
  | some index =>
      have hread := @readFrom_numbers ⟨before, 0, origin, name⟩ _
        [Int.ofNat column - Int.ofNat before.column, 0,
          Int.ofNat origin'.line - Int.ofNat origin.line,
          Int.ofNat origin'.column - Int.ofNat origin.column, Int.ofNat index - Int.ofNat name]
        _ text (by simp only [Reached.token?, moved?_of_sub, hsource]; rfl) htext
      simpa [delta] using hread

/-- The token of a mapping; the map has one source. -/
def token (table : List String) (m : Mapping) : Token :=
  ⟨m.generated, some (0, m.origin), m.name.map fun n => table.findIdx (· == n)⟩

/-- On a line that has a mapping, the text for the next ones begins with a separator. -/
theorem segments_separated
    (table : List String)
    (generated origin : Place)
    (name : Nat)
    (mappings : List Mapping) :
    segments table ⟨generated, origin, name, false⟩ mappings = [] ∨
      ∃ rest, segments table ⟨generated, origin, name, false⟩ mappings = ',' :: rest ∨
        segments table ⟨generated, origin, name, false⟩ mappings = ';' :: rest := by
  cases mappings with
  | nil => exact .inl rfl
  | cons m mappings =>
      right
      rw [segments]
      generalize m.generated.line - generated.line = skipped
      cases skipped with
      | zero => exact ⟨_, .inl (by simp; rfl)⟩
      | succ skipped => exact ⟨_, .inr (by simp [List.replicate_succ]; rfl)⟩

/-- What is written for mappings is read as their tokens, if their lines do not go back. -/
theorem readFrom_segments
    (table : List String)
    (base : Base)
    (mappings : List Mapping)
    (hbase : ∀ m ∈ mappings, base.generated.line ≤ m.generated.line)
    (hlines : mappings.Pairwise fun a b => a.generated.line ≤ b.generated.line) :
    readFrom ⟨base.generated, 0, base.origin, base.name⟩ (segments table base mappings) =
      some (mappings.map (token table)) := by
  induction mappings generalizing base with
  | nil => exact readFrom_nil _
  | cons m mappings ih =>
      obtain ⟨hlater, hlines⟩ := List.pairwise_cons.mp hlines
      have hline := hbase m List.mem_cons_self
      let index := m.name.map fun n => table.findIdx (· == n)
      let skipped := m.generated.line - base.generated.line
      let column := if skipped == 0 then base.generated.column else 0
      let more := segments table ⟨m.generated, m.origin, index.getD base.name, false⟩ mappings
      have hskipped : base.generated.line + skipped = m.generated.line := by omega
      have hmapping := @readFrom_mapping ⟨m.generated.line, column⟩ base.origin m.generated m.origin
        rfl base.name index more (segments_separated _ _ _ _ _)
      have hsegments : segments table base (m :: mappings) =
          List.replicate skipped ';' ++ ((if base.fresh || skipped != 0 then [] else [',']) ++
            (delta column m.generated.column ++ vlq 0 ++ delta base.origin.line m.origin.line
              ++ delta base.origin.column m.origin.column
              ++ (index.map (delta base.name)).getD [] ++ more)) := by
        simp only [segments, List.append_assoc]
        rfl
      rw [hsegments, readFrom_replicate, readFrom_separator]
      simp only [hskipped]
      rw [hmapping, ih ⟨m.generated, m.origin, index.getD base.name, false⟩ hlater hlines]
      rfl

end SourceMap
end EsModules
