import Fdfs2qq.Common.IniProofs

/-! The values a file gives to a name, and what the reader does about lines it cannot
read. -/
namespace Fdfs2qq.Common

variable {α : Type*} {handler : IniHandler α}

def valuesOf (pairs : List IniPair) (key : Bytes) : List Bytes :=
  (pairs.filter fun (sectionName, name, _) => makeKey sectionName name = key).map fun (_, _, value) => value

/-- Several values are joined by newlines, and empty ones at the front are lost. -/
def joined (values : List Bytes) : Bytes := implode newline (values.dropWhile (· = []))

theorem implode_concat {delim : UInt8} {pieces : List Bytes} (filled : pieces ≠ []) (last : Bytes) :
    implode delim (pieces ++ [last]) = implode delim pieces ++ delim :: last := by
  induction pieces with
  | nil => contradiction
  | cons piece rest ih =>
    cases rest with
    | nil => rfl
    | cons next rest =>
      rw [List.cons_append, List.cons_append, implode_cons, implode_cons, ← List.cons_append,
        ih (by simp), List.append_assoc, List.cons_append]

theorem joined_concat (values : List Bytes) (value : Bytes) :
    joined (values ++ [value]) =
      (if 0 < (joined values).length then joined values ++ [newline] else joined values) ++ value := by
  rw [joined, joined, List.dropWhile_append]
  split
  next vacant =>
    rw [List.isEmpty_iff.mp vacant]
    by_cases empty : value = []
    · simp [empty, implode]
    · simp [empty, implode]
  next nonempty =>
    rw [List.isEmpty_iff] at nonempty
    have long : 0 < (implode newline (values.dropWhile (· = []))).length := by
      obtain ⟨first, rest, split⟩ := List.exists_cons_of_ne_nil nonempty
      have filled : first ≠ [] := by
        have head := List.head_dropWhile_not (fun value : Bytes => decide (value = [])) (l := values) nonempty
        simp only [split, List.head_cons] at head
        simpa using head
      rw [split]
      cases rest with
      | nil => exact List.length_pos_iff.mpr filled
      | cons next rest =>
        rw [implode_cons, List.length_append, List.length_cons]
        omega
    rw [if_pos long, implode_concat nonempty, List.append_assoc, List.singleton_append]

theorem valueHandler_total : valueHandler.Total := fun _ _ _ _ => rfl

theorem valueHandler_all (pairs : List IniPair) (key : Bytes) :
    valueHandler.all (fun _ => none) pairs key =
      if valuesOf pairs key = [] then none else some (joined (valuesOf pairs key)) := by
  induction pairs using List.reverseRecOn with
  | nil => rfl
  | append_singleton pairs pair ih =>
    obtain ⟨sectionName, name, value⟩ := pair
    have grown : valueHandler.all (fun _ => none) (pairs ++ [(sectionName, name, value)]) =
        (valueHandler (valueHandler.all (fun _ => none) pairs) sectionName name value).2 := by
      simp [IniHandler.all]
    rw [grown]
    by_cases here : makeKey sectionName name = key
    · have values : valuesOf (pairs ++ [(sectionName, name, value)]) key = valuesOf pairs key ++ [value] := by
        simp [valuesOf, here]
      have before : (valueHandler.all (fun _ => none) pairs key).getD [] = joined (valuesOf pairs key) := by
        rw [ih]
        split
        next empty => rw [empty]; rfl
        next => rfl
      rw [values, if_neg (by simp), joined_concat]
      simp only [valueHandler, here, Function.update_self, before]
    · have values : valuesOf (pairs ++ [(sectionName, name, value)]) key = valuesOf pairs key := by
        simp [valuesOf, here]
      rw [values, ← ih]
      simp only [valueHandler]
      exact Function.update_of_ne (Ne.symm here) ..

def filePairs (text : Bytes) : List IniPair := (iniParse record (some text) []).2

/-- What the reader answers for a file of any bytes. -/
theorem get_ofFile (text sectionName name default : Bytes) :
    (INIReader.ofFile (some text)).get sectionName name default =
      if valuesOf (filePairs text) (makeKey sectionName name) = [] then default
      else joined (valuesOf (filePairs text) (makeKey sectionName name)) := by
  have follows := iniParseStream_eq valueHandler_total (fgetsLines iniMaxLine text.length text) (fun _ => none)
  have values : (INIReader.ofFile (some text)).values = valueHandler.all (fun _ => none) (filePairs text) :=
    follows.user
  rw [INIReader.get, values, valueHandler_all]
  split <;> rfl

theorem filePairs_document {bom : Bool} {lines : List IniLine} (wellFormed : IniLine.WellFormed [] lines)
    (marked : IniLine.Marked bom lines) :
    filePairs (IniLine.document bom lines) = IniLine.pairs [] [] lines := by
  rw [filePairs, IniLine.parse_document wellFormed marked]

/-- A file that is laid out well is read without an error, and each name has the
values written for it, one to a line. -/
theorem get_document {bom : Bool} {lines : List IniLine} (wellFormed : IniLine.WellFormed [] lines)
    (marked : IniLine.Marked bom lines) :
    (INIReader.ofFile (some (IniLine.document bom lines))).error = 0 ∧
      ∀ sectionName name default,
        (INIReader.ofFile (some (IniLine.document bom lines))).get sectionName name default =
          if valuesOf (IniLine.pairs [] [] lines) (makeKey sectionName name) = [] then default
          else joined (valuesOf (IniLine.pairs [] [] lines) (makeKey sectionName name)) := by
  have whole := iniParse_document valueHandler_total wellFormed marked (fun _ => none)
  constructor
  · simp only [INIReader.ofFile, whole]
  · intro sectionName name default
    rw [get_ofFile, filePairs_document wellFormed marked]

/-- A value of two lines in a section. -/
def sampleLines : List IniLine :=
  [.comment [] hash (ascii " ports"), .header [] (ascii "Main") (ascii " ;"),
    .pair [] (ascii "Port") (ascii " ") 61 [32] (ascii "80;x") (ascii " ; first"), .more [9] (ascii "81") [],
    .blank [], .pair [] (ascii "host") [] 58 [] (ascii "a") []]

theorem sampleLines_wellFormed : IniLine.WellFormed [] sampleLines := by
  refine ⟨?_, by decide +kernel, by decide +kernel, ?_, by decide +kernel, by decide +kernel, ?_, by decide +kernel, by decide +kernel, ?_, by decide +kernel, by decide +kernel,
    ?_, by decide +kernel, by decide +kernel, ?_, by decide +kernel, by decide +kernel, trivial⟩
  · exact ⟨by decide +kernel, .inr rfl⟩
  · exact ⟨by decide +kernel, .inl rfl, by decide +kernel⟩
  · exact ⟨by decide +kernel, .inl rfl, by decide +kernel, by decide +kernel, .inl rfl, by decide +kernel, by decide +kernel,
      .inr ⟨by decide +kernel, [32], ascii " first", rfl, by decide +kernel, by decide +kernel⟩⟩
  · exact ⟨by decide +kernel, by decide +kernel, by decide +kernel, by decide +kernel⟩
  · exact (by decide +kernel : Blank [])
  · exact ⟨by decide +kernel, .inr rfl, by decide +kernel, by decide +kernel, .inr rfl, by decide +kernel, by decide +kernel, .inl (by decide +kernel)⟩

theorem get_document_sample : (INIReader.ofFile (some (IniLine.document true sampleLines))).get
    (ascii "main") (ascii "PORT") [] = ascii "80;x\n81" := by
  have read := (get_document sampleLines_wellFormed (show IniLine.Marked true sampleLines from ⟨_, rfl, by decide +kernel⟩)).2
    (ascii "main") (ascii "PORT") []
  rw [read]
  decide +kernel

/-- The lines, with a blank one for each that cannot be read. -/
def mend (lineno : Nat) (prevName : Bytes) : List Bytes → List Bytes
  | [] => []
  | line :: rest =>
    let kind := iniLineKind lineno prevName line
    (if kind = .bad then [newline] else line) :: mend (lineno + 1) (kind.prevName prevName) rest

theorem iniLineKind_newline (lineno : Nat) (prevName : Bytes) : iniLineKind lineno prevName [newline] = .nothing := by
  have cut : cStr [newline] = [newline] := by decide
  have unmarked : ¬ (lineno = 1 ∧ utf8Bom <+: [newline]) := fun marked => absurd marked.2 (by decide)
  simp only [iniLineKind, cut, unmarked, if_false]
  exact IniLine.kind_blank (show Blank [] from fun _ mem => absurd mem List.not_mem_nil)

namespace IniParser

theorem call_eq (total : handler.Total) (p : IniParser α) (name value : Bytes) :
    p.call handler name value = { p with user := (handler p.user p.sectionName name value).2 } := by
  simp only [call, total p.user p.sectionName name value, if_true]

/-- What a line does to all but the state of the handler. -/
theorem perform_fields (total : handler.Total) (p : IniParser α) (kind : IniKind) :
    (p.perform handler kind).lineno = p.lineno ∧
      (p.perform handler kind).prevName = kind.prevName p.prevName ∧
      (p.perform handler kind).error = if kind = .bad ∧ p.error = 0 then toInt p.lineno else p.error := by
  cases kind <;> simp [perform, call_eq total, fail, IniKind.prevName]

/-- The error that is noted has no effect on what is read. -/
theorem perform_error (total : handler.Total) (p : IniParser α) (kind : IniKind) :
    { p with error := 0 }.perform handler (if kind = IniKind.bad then .nothing else kind) =
      { p.perform handler kind with error := 0 } := by
  cases kind <;> simp [perform, call_eq total, fail]

/-- A line that cannot be read is passed over like a blank one. -/
theorem line_mend (total : handler.Total) (p : IniParser α) (line : Bytes) :
    { p with error := 0 }.line handler
        (if iniLineKind (p.lineno + 1) p.prevName line = IniKind.bad then [newline] else line) =
      { p.line handler line with error := 0 } := by
  rw [line_eq, line_eq, ← perform_error total]
  congr 1
  split
  next bad => exact iniLineKind_newline ..
  next => rfl

theorem lines_mend (total : handler.Total) (p : IniParser α) (lines : List Bytes) :
    (mend (p.lineno + 1) p.prevName lines).foldl (line handler) { p with error := 0 } =
      { lines.foldl (line handler) p with error := 0 } := by
  induction lines generalizing p with
  | nil => rfl
  | cons first rest ih =>
    obtain ⟨lineno, prevName, -⟩ := perform_fields total { p with lineno := p.lineno + 1 }
      (iniLineKind (p.lineno + 1) p.prevName first)
    rw [← line_eq] at lineno prevName
    simp only at lineno prevName
    simp only [mend, List.foldl_cons]
    rw [line_mend total p first, ← prevName, ← lineno]
    exact ih (p.line handler first)

/-- The error is the number of the first line that cannot be read. -/
theorem lines_error (total : handler.Total) (p : IniParser α) (lines : List Bytes)
    (few : p.lineno + lines.length < 2 ^ 31) : (p.error ≠ 0 → (lines.foldl (line handler) p).error = p.error) ∧
      (p.error = 0 → (lines.foldl (line handler) p).error = 0 ∧ mend (p.lineno + 1) p.prevName lines = lines ∨
        ∃ n : Nat, (lines.foldl (line handler) p).error = p.lineno + 1 + n ∧
          (mend (p.lineno + 1) p.prevName lines).take n = lines.take n ∧
          (mend (p.lineno + 1) p.prevName lines)[n]? ≠ lines[n]?) := by
  induction lines generalizing p with
  | nil => exact ⟨fun _ => rfl, fun good => .inl ⟨good, rfl⟩⟩
  | cons first rest ih =>
    obtain ⟨lineno, prevName, error⟩ := perform_fields total { p with lineno := p.lineno + 1 }
      (iniLineKind (p.lineno + 1) p.prevName first)
    rw [← line_eq] at lineno prevName error
    simp only at lineno prevName error
    rw [List.length_cons] at few
    -- the number of this line is positive as an `int`
    have number : toInt (p.lineno + 1 : Nat) = p.lineno + 1 := toInt_of_lt (by omega) (by omega)
    obtain ⟨kept, first'⟩ := ih (p.line handler first) (by omega)
    rw [lineno, prevName] at first'
    constructor
    · intro noted
      rw [if_neg (fun both => noted both.2)] at error
      exact (kept (error ▸ noted)).trans error
    · intro good
      rw [List.foldl_cons]
      by_cases bad : iniLineKind (p.lineno + 1) p.prevName first = .bad
      · rw [if_pos ⟨bad, good⟩, number] at error
        refine .inr ⟨0, (kept (by omega)).trans (by simpa using error), rfl, ?_⟩
        have other : first ≠ [newline] := by
          rintro rfl
          rw [iniLineKind_newline] at bad
          cases bad
        simp only [mend, bad, if_true, List.getElem?_cons_zero, ne_eq, Option.some.injEq]
        exact other.symm
      · rw [if_neg (fun both => bad both.1)] at error
        have same : mend (p.lineno + 1) p.prevName (first :: rest) = first :: mend (p.lineno + 1 + 1)
            ((iniLineKind (p.lineno + 1) p.prevName first).prevName p.prevName) rest := by
          simp only [mend, bad, if_false]
        rw [same]
        obtain ⟨good', whole⟩ | ⟨n, later, before, here⟩ := first' (error.trans good)
        · exact .inl ⟨good', by rw [whole]⟩
        · refine .inr ⟨n + 1, later.trans (by push_cast; omega), ?_, ?_⟩
          · rw [List.take_succ_cons, List.take_succ_cons, before]
          · rw [List.getElem?_cons_succ, List.getElem?_cons_succ]
            exact here

end IniParser

/-- Whatever the lines of a file are, what is read is what would be read with a blank
line for each that cannot be read, and the error is the number of the first of them. -/
theorem error_is_first_bad_line (total : handler.Total) (lines : List Bytes) (user : α)
    (few : lines.length < 2 ^ 31) :
    iniParseStream handler (mend 1 [] lines) user = { iniParseStream handler lines user with error := 0 } ∧
      ((iniParseStream handler lines user).error = 0 ∧ mend 1 [] lines = lines ∨
        ∃ n : Nat, (iniParseStream handler lines user).error = n + 1 ∧
          (mend 1 [] lines).take n = lines.take n ∧ (mend 1 [] lines)[n]? ≠ lines[n]?) := by
  refine ⟨IniParser.lines_mend total { user := user } lines, ?_⟩
  have first := (IniParser.lines_error total { user := user } lines (by simpa using few)).2 rfl
  simpa only [iniParseStream, Nat.zero_add, Int.natCast_zero, Int.zero_add, Int.add_comm] using first

/-- The second of three lines has no sign. -/
theorem error_is_first_bad_line_sample :
    (iniParseStream record [ascii "a=1", ascii "b", ascii "c=2"] []).error = 2 ∧
      { iniParseStream record [ascii "a=1", ascii "b", ascii "c=2"] [] with error := 0 } =
        iniParseStream record [ascii "a=1", [newline], ascii "c=2"] [] :=
  ⟨by decide +kernel, (error_is_first_bad_line (fun _ _ _ _ => rfl) [ascii "a=1", ascii "b", ascii "c=2"] []
    (by decide)).1.symm⟩

end Fdfs2qq.Common
