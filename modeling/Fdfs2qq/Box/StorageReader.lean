import Mathlib.Data.List.Perm.Subperm
import Fdfs2qq.Common.IniValues
import Fdfs2qq.Jobschedule.VolumnNames

/-! From the text of `storage.conf` to the table of volumes. -/
namespace Fdfs2qq.Box
open Common Jobschedule

/-- `getReader()`: nothing where the file cannot be read. -/
def getReader (file : Option Bytes) : Option INIReader :=
  let reader := INIReader.ofFile file
  if reader.error < 0 then none else some reader

def INIReader.conf (reader : INIReader) : Conf := fun name => reader.get [] name []

/-- `GetVolumnsDict()` of this file, for at most `fuel` volumes. -/
def fileVolumns (file : Option Bytes) (fuel : Nat) : Option Dict :=
  (getReader file).bind fun reader => getVolumnsDict (INIReader.conf reader) fuel

theorem getReader_some {text : Bytes} (good : 0 ≤ (INIReader.ofFile (some text)).error) :
    getReader (some text) = some (INIReader.ofFile (some text)) := by
  simp only [getReader, Int.not_lt.mpr good, if_false]

def pathKey (n : Nat) : Bytes := makeKey [] (ascii "store_path" ++ decimal n)

theorem tolower_digit (digit : isDigit c) : tolower c = c := by
  have all : ∀ n < 256, isDigit (UInt8.ofNat n) → tolower (UInt8.ofNat n) = UInt8.ofNat n := by decide +kernel
  have here := all c.toNat c.toNat_lt
  rw [UInt8.ofNat_toNat] at here
  exact here digit

theorem pathKey_eq (n : Nat) : pathKey n = ascii "=store_path" ++ decimal n := by
  have front : (ascii "=" ++ ascii "store_path").map tolower = ascii "=store_path" := by decide
  have digits : (decimal n).map tolower = decimal n := by
    conv_rhs => rw [← List.map_id (decimal n)]
    exact List.map_congr_left fun c mem => tolower_digit (isDigit_of_mem_decimal mem)
  rw [pathKey, makeKey, List.nil_append, ← List.append_assoc, List.map_append, front, digits]

theorem pathKey_injective : Function.Injective pathKey := by
  intro n m same
  rw [pathKey_eq, pathKey_eq, List.append_cancel_left_eq] at same
  have numbers := congrArg digitsValue same
  rw [digitsValue_decimal, digitsValue_decimal] at numbers
  exact Int.ofNat.inj numbers

theorem length_fgetsLines (size fuel : Nat) (stream : Bytes) : (fgetsLines size fuel stream).length ≤ fuel := by
  induction fuel generalizing stream with
  | zero => exact Nat.le_of_eq rfl
  | succ fuel ih =>
    cases stream with
    | nil => exact Nat.zero_le _
    | cons c stream => exact Nat.succ_le_succ (ih _)

/-- The number of a line of a short file is not negative as an `int`. -/
theorem error_nonneg {text : Bytes} (short : text.length < 2 ^ 31) :
    0 ≤ (INIReader.ofFile (some text)).error := by
  have lines := length_fgetsLines iniMaxLine text.length text
  have error : (INIReader.ofFile (some text)).error =
      (iniParseStream valueHandler (fgetsLines iniMaxLine text.length text) fun _ => none).error := rfl
  have first := (IniParser.lines_error valueHandler_total { user := fun _ => none }
    (fgetsLines iniMaxLine text.length text) (by simpa using Nat.lt_of_le_of_lt lines short)).2 rfl
  rw [error, iniParseStream]
  obtain ⟨good, -⟩ | ⟨n, bad, -⟩ := first
  · exact Int.le_of_eq good.symm
  · rw [bad]
    omega

theorem length_record (r : IniParser (List IniPair)) (lines : List Bytes) :
    (lines.foldl (IniParser.line record) r).user.length ≤ r.user.length + lines.length := by
  induction lines generalizing r with
  | nil => exact Nat.le_refl _
  | cons first rest ih =>
    have one : (r.line record first).user.length ≤ r.user.length + 1 := by
      rw [IniParser.line_eq]
      cases iniLineKind (r.lineno + 1) r.prevName first <;>
        simp [IniParser.perform, IniParser.call, record, IniParser.fail]
    have later := ih (r.line record first)
    rw [List.foldl_cons, List.length_cons]
    omega

theorem length_filePairs (text : Bytes) : (filePairs text).length ≤ text.length := by
  have pairs := length_record { user := [] } (fgetsLines iniMaxLine text.length text)
  have lines := length_fgetsLines iniMaxLine text.length text
  rw [List.length_nil, Nat.zero_add] at pairs
  exact pairs.trans lines

/-- A file has no more volumes than bytes. -/
theorem exists_missing (text : Bytes) :
    ∃ k ≤ text.length, storePath (INIReader.conf (INIReader.ofFile (some text))) k = [] := by
  by_contra all
  push Not at all
  have inside : (List.range (text.length + 1)).map pathKey ⊆
      (filePairs text).map fun pair => makeKey pair.1 pair.2.1 := by
    intro key mem
    obtain ⟨n, below, rfl⟩ := List.mem_map.mp mem
    have filled := all n (Nat.lt_succ_iff.mp (List.mem_range.mp below))
    rw [storePath, INIReader.conf, get_ofFile] at filled
    by_contra absent
    refine filled (if_pos ?_)
    rw [valuesOf, List.map_eq_nil_iff, List.filter_eq_nil_iff]
    intro pair mem' same
    exact absent (List.mem_map.mpr ⟨pair, mem', of_decide_eq_true same⟩)
  have distinct : ((List.range (text.length + 1)).map pathKey).Nodup :=
    List.nodup_range.map pathKey_injective
  have few := (List.Nodup.subperm distinct inside).length_le
  have pairs := length_filePairs text
  rw [List.length_map, List.length_range, List.length_map] at few
  omega

theorem length_insert_le (dict : Dict) (key value : Bytes) :
    (dict.insert key value).length ≤ dict.length + 1 := by
  rw [Dict.insert]
  split
  next => exact Nat.le_succ _
  next => rw [List.length_append, List.length_singleton]

theorem volumnsDictFrom_stops {conf : Conf} {k : Nat} (missing : storePath conf k = []) (fuel : Nat) :
    ∀ (n : Nat) (dict : Dict), n ≤ k → k < n + fuel →
      ∃ dict', volumnsDictFrom conf fuel n dict = some dict' ∧ dict'.length ≤ dict.length + (k - n) := by
  induction fuel with
  | zero =>
    intro n dict le more
    omega
  | succ fuel ih =>
    intro n dict le more
    rw [volumnsDictFrom]
    split
    next => exact ⟨dict, rfl, Nat.le_add_right ..⟩
    next filled =>
      have less : n < k := lt_of_le_of_ne le fun last => filled (last ▸ missing)
      obtain ⟨dict', stops, length⟩ := ih (n + 1) _ less (by omega)
      have one := length_insert_le dict (volumnsidText n) (conf (ascii "store_path" ++ decimal n) ++ ascii "/data")
      exact ⟨dict', stops, by omega⟩

/-- Whatever bytes the file has, the loop over its volumes ends, and finds no more of
them than the file has bytes. -/
theorem fileVolumns_stops (text : Bytes) (short : text.length < 2 ^ 31) :
    ∃ dict, fileVolumns (some text) (text.length + 1) = some dict ∧ dict.length ≤ text.length := by
  obtain ⟨k, few, missing⟩ := exists_missing text
  obtain ⟨dict, stops, length⟩ := volumnsDictFrom_stops missing (text.length + 1) 0 [] (Nat.zero_le k) (by omega)
  refine ⟨dict, ?_, by simpa using length.trans (by simpa using few)⟩
  rw [fileVolumns, getReader_some (error_nonneg short)]
  exact stops

/-- A name without a sign is an error that is passed over. -/
theorem fileVolumns_stops_sample : ∃ dict, fileVolumns (some (ascii "group_name\nstore_path0=/d\n")) 27 = some dict ∧
    dict.length ≤ 26 := fileVolumns_stops (ascii "group_name\nstore_path0=/d\n") (by decide)

/-- The volumes of a file that is laid out well are the paths written in it, in the
order of their numbers, whatever else the file holds. -/
theorem fileVolumns_document {bom : Bool} {lines : List IniLine} {k fuel : Nat} (path : Nat → Bytes)
    (wellFormed : IniLine.WellFormed [] lines) (marked : IniLine.Marked bom lines)
    (written : ∀ n < k, path n ≠ [] ∧ valuesOf (IniLine.pairs [] [] lines) (pathKey n) = [path n])
    (last : valuesOf (IniLine.pairs [] [] lines) (pathKey k) = []) (fits : k < 2 ^ 31) (enough : k < fuel) :
    fileVolumns (some (IniLine.document bom lines)) fuel =
      some ((List.range k).map fun n => (volumnsidText n, path n ++ ascii "/data")) := by
  have paths : ∀ n < k, storePath (INIReader.conf (INIReader.ofFile (some (IniLine.document bom lines)))) n = path n := by
    intro n below
    obtain ⟨filled, one⟩ := written n below
    rw [storePath, INIReader.conf, get_ofFile, filePairs_document wellFormed marked]
    rw [pathKey] at one
    rw [one, if_neg (List.cons_ne_nil _ _), joined, List.dropWhile_cons_of_neg (by simpa using filled), implode]
  have configured : Configured (INIReader.conf (INIReader.ofFile (some (IniLine.document bom lines)))) k := by
    refine ⟨fun n below => (paths n below).symm ▸ (written n below).1, ?_⟩
    rw [storePath, INIReader.conf, get_ofFile, filePairs_document wellFormed marked]
    rw [pathKey] at last
    rw [last, if_pos rfl]
  have good : (INIReader.ofFile (some (IniLine.document bom lines))).error = 0 := by
    simp only [INIReader.ofFile, iniParse_document valueHandler_total wellFormed marked]
  rw [fileVolumns, getReader_some (Int.le_of_eq good.symm)]
  refine (getVolumnsDict_eq configured fits enough).trans (congrArg some (List.map_congr_left fun n mem => ?_))
  rw [volumnEntry, paths n (List.mem_range.mp mem)]

def sampleConf : List IniLine :=
  [.comment [] hash (ascii " paths"), .pair [] (ascii "store_path0") (ascii " ") 61 [32] (ascii "/d0") (ascii " ; old"),
    .pair [] (ascii "Store_Path1") [] 58 [] (ascii "/d1") []]

theorem sampleConf_wellFormed : IniLine.WellFormed [] sampleConf := by
  refine ⟨⟨by decide +kernel, .inr rfl⟩, by decide +kernel, by decide +kernel, ?_, by decide +kernel, by decide +kernel, ?_, by decide +kernel, by decide +kernel, trivial⟩
  · exact ⟨by decide +kernel, .inl rfl, by decide +kernel, by decide +kernel, .inl rfl, by decide +kernel, by decide +kernel,
      .inr ⟨by decide +kernel, [32], ascii " old", rfl, by decide +kernel, by decide +kernel⟩⟩
  · exact ⟨by decide +kernel, .inr rfl, by decide +kernel, by decide +kernel, .inr rfl, by decide +kernel, by decide +kernel, .inl (by decide +kernel)⟩

theorem fileVolumns_document_sample : fileVolumns (some (IniLine.document false sampleConf)) 3 =
    some [(ascii "M00", ascii "/d0/data"), (ascii "M01", ascii "/d1/data")] := by
  have unmarked : IniLine.Marked false sampleConf := by
    rw [IniLine.Marked, if_neg (by decide +kernel)]
    decide +kernel
  refine (fileVolumns_document (k := 2) (fun n => ascii "/d" ++ decimal n) sampleConf_wellFormed unmarked
    (fun n below => ?_) (by decide +kernel) (by decide +kernel) (by decide +kernel)).trans (by decide +kernel)
  obtain rfl | rfl : n = 0 ∨ n = 1 := by omega
  all_goals exact ⟨by decide +kernel, by decide +kernel⟩

end Fdfs2qq.Box
