import Mathlib.Data.List.DropRight
import Mathlib.Logic.Function.Basic
import Fdfs2qq.Text

/-! `ini.c` and `INIReader.cc`: a file of sections and `name = value` pairs, read
line by line, and the table of its values. -/
namespace Fdfs2qq.Common

def rstrip (s : Bytes) : Bytes := s.rdropWhile isSpace

def lskip (s : Bytes) : Bytes := s.dropWhile isSpace

/-- `INI_INLINE_COMMENT_PREFIXES` -/
def semicolon : UInt8 := 59

def hash : UInt8 := 35

def bracket : UInt8 := 91

/-- What `find_chars_or_comment(s, chars)` passes over, and the text from there on. -/
def findCharsOrComment (chars : Bytes) (wasSpace : Bool) : Bytes → Bytes × Bytes
  | [] => ([], [])
  | c :: s =>
    if c ∈ chars ∨ wasSpace ∧ c = semicolon then ([], c :: s)
    else
      let (before, rest) := findCharsOrComment chars (isSpace c) s
      (c :: before, rest)

def strncpy0 (src : Bytes) (size : Nat) : Bytes := src.take (size - 1)

def maxSection : Nat := 50

def maxName : Nat := 50

def iniMaxLine : Nat := 200

def utf8Bom : Bytes := [0xEF, 0xBB, 0xBF]

/-- `fgets` with room for this many bytes and a NUL: the line and what is left. -/
def fgets : Nat → Bytes → Bytes × Bytes
  | 0, stream => ([], stream)
  | _ + 1, [] => ([], [])
  | room + 1, c :: stream =>
    if c = newline then ([c], stream)
    else
      let (line, rest) := fgets room stream
      (c :: line, rest)

/-- The lines that at most `fuel` calls of `fgets(line, size, file)` read. -/
def fgetsLines (size : Nat) : Nat → Bytes → List Bytes
  | 0, _ | _, [] => []
  | fuel + 1, stream => (fgets (size - 1) stream).1 :: fgetsLines size fuel (fgets (size - 1) stream).2

/-- The variables of `ini_parse_stream`, and the `user` of the handler. `lineno` is the
number of lines read; it is stored in `error` as the `int` it is in the source. -/
structure IniParser (α : Type*) where
  sectionName : Bytes := []
  prevName : Bytes := []
  lineno : Nat := 0
  error : Int := 0
  user : α

/-- An `ini_handler`: section, name and value, and whether all went well. -/
abbrev IniHandler (α : Type*) := α → Bytes → Bytes → Bytes → Bool × α

variable {α : Type*}

namespace IniParser

def fail (p : IniParser α) : IniParser α :=
  { p with error := if p.error = 0 then toInt p.lineno else p.error }

/-- `if (!handler(user, section, name, value) && !error) error = lineno` -/
def call (handler : IniHandler α) (p : IniParser α) (name value : Bytes) : IniParser α :=
  let (success, user) := handler p.user p.sectionName name value
  if success then { p with user := user } else { p.fail with user := user }

/-- One line behind a byte order mark, if it has one. -/
def parse (handler : IniHandler α) (p : IniParser α) (bom : Bool) (line : Bytes) : IniParser α :=
  let stripped := rstrip line
  let start := lskip stripped
  if start.head? = some semicolon ∨ start.head? = some hash then p
  -- `start > line`
  else if p.prevName ≠ [] ∧ start ≠ [] ∧ (bom ∨ start ≠ stripped) then p.call handler p.prevName start
  else if start.head? = some bracket then
    match findCharsOrComment (ascii "]") false (start.drop 1) with
    | (name, 93 :: _) => { p with sectionName := strncpy0 name maxSection, prevName := [] }
    | _ => p.fail
  else if start ≠ [] then
    match findCharsOrComment (ascii "=:") false start with
    | (name, 61 :: rest) | (name, 58 :: rest) =>
      let name := rstrip name
      let value := rstrip (findCharsOrComment [] false (lskip rest)).1
      { p with prevName := strncpy0 name maxName }.call handler name value
    | _ => p.fail
  else p

def line (handler : IniHandler α) (p : IniParser α) (line : Bytes) : IniParser α :=
  let p := { p with lineno := p.lineno + 1 }
  let line := cStr line
  if p.lineno = 1 ∧ utf8Bom <+: line then p.parse handler true (line.drop 3) else p.parse handler false line

end IniParser

/-- `ini_parse_stream`, given what the calls of the reader return. -/
def iniParseStream (handler : IniHandler α) (lines : List Bytes) (user : α) : IniParser α :=
  lines.foldl (IniParser.line handler) { user := user }

/-- `ini_parse(filename, handler, user)`, nothing where the file cannot be opened. -/
def iniParse (handler : IniHandler α) (file : Option Bytes) (user : α) : Int × α :=
  match file with
  | none => (-1, user)
  | some text =>
    let p := iniParseStream handler (fgetsLines iniMaxLine text.length text) user
    (p.error, p.user)

def tolower (c : UInt8) : UInt8 := if 65 ≤ c ∧ c ≤ 90 then c + 32 else c

def makeKey (sectionName name : Bytes) : Bytes := (sectionName ++ ascii "=" ++ name).map tolower

/-- `_values`, looked up by key. -/
abbrev Values := Bytes → Option Bytes

def valueHandler : IniHandler Values := fun values sectionName name value =>
  let key := makeKey sectionName name
  let before := (values key).getD []
  let before := if 0 < before.length then before ++ [newline] else before
  (true, Function.update values key (some (before ++ value)))

structure INIReader where
  error : Int
  values : Values

namespace INIReader

/-- `INIReader(filename)` -/
def ofFile (file : Option Bytes) : INIReader :=
  let (error, values) := iniParse valueHandler file fun _ => none
  ⟨error, values⟩

def get (reader : INIReader) (sectionName name default : Bytes) : Bytes :=
  (reader.values (makeKey sectionName name)).getD default

end INIReader

end Fdfs2qq.Common
