import Fdfs2qq.Common.Ini

/-! What a file of lines means. Each line is of one kind, which the parser acts on;
a file that is laid out well is read back, and a line that is not is passed over. -/
namespace Fdfs2qq.Common

variable {α : Type*} {s t chars : Bytes} {c : UInt8}

def Blank (s : Bytes) : Prop := ∀ c ∈ s, isSpace c

instance : Decidable (Blank s) := inferInstanceAs (Decidable (∀ c ∈ s, isSpace c))

structure Trimmed (s : Bytes) : Prop where
  front : lskip s = s
  back : rstrip s = s

instance : Decidable (Trimmed s) :=
  decidable_of_iff (lskip s = s ∧ rstrip s = s) ⟨fun ⟨front, back⟩ => ⟨front, back⟩, fun ⟨front, back⟩ => ⟨front, back⟩⟩

theorem lskip_append (blank : Blank s) : lskip (s ++ t) = lskip t := List.dropWhile_append_of_pos blank

theorem rstrip_append (blank : Blank t) : rstrip (s ++ t) = rstrip s := by
  rw [rstrip, List.rdropWhile, List.reverse_append, List.dropWhile_append_of_pos]
  · rfl
  · exact fun c mem => blank c (List.mem_reverse.mp mem)

theorem rstrip_cons (solid : isSpace c = false) : rstrip (s ++ c :: t) = s ++ c :: rstrip t := by
  rw [rstrip, rstrip, List.rdropWhile, List.rdropWhile, List.reverse_append, List.reverse_cons,
    List.append_assoc, List.singleton_append, List.dropWhile_append]
  split
  next empty => simp [solid, List.isEmpty_iff.mp empty]
  next => simp

theorem rstrip_blank (blank : Blank s) : rstrip s = [] := by
  have whole := rstrip_append (s := []) blank
  rwa [List.nil_append] at whole

theorem Trimmed.head (trimmed : Trimmed (c :: s)) : isSpace c = false := by
  by_contra space
  have shorter := congrArg List.length trimmed.front
  rw [lskip, List.dropWhile_cons_of_pos (by simpa using space)] at shorter
  have less := (List.dropWhile_sublist (l := s) isSpace).length_le
  rw [List.length_cons] at shorter
  omega

theorem Trimmed.rstrip_append (trimmed : Trimmed t) (filled : t ≠ []) : rstrip (s ++ t) = s ++ t := by
  have last := List.rdropWhile_eq_self_iff.mp trimmed.back
  refine List.rdropWhile_eq_self_iff.mpr fun _ => ?_
  rw [List.getLast_append_of_ne_nil _ filled]
  exact last filled

theorem Trimmed.lskip_append (trimmed : Trimmed s) (filled : s ≠ []) : lskip (s ++ t) = s ++ t := by
  cases s with
  | nil => contradiction
  | cons c s => exact List.dropWhile_cons_of_neg (by simp [trimmed.head])

/-- None of the characters, and no semicolon behind a blank. -/
def Passes (chars : Bytes) : Bool → Bytes → Prop
  | _, [] => True
  | wasSpace, c :: s => ¬ (c ∈ chars ∨ wasSpace ∧ c = semicolon) ∧ Passes chars (isSpace c) s

instance Passes.decidable (chars : Bytes) : (wasSpace : Bool) → (s : Bytes) → Decidable (Passes chars wasSpace s)
  | _, [] => isTrue trivial
  | wasSpace, c :: s =>
    have := Passes.decidable chars (isSpace c) s
    inferInstanceAs (Decidable (¬ (c ∈ chars ∨ wasSpace ∧ c = semicolon) ∧ Passes chars (isSpace c) s))

def spaceAfter (wasSpace : Bool) (s : Bytes) : Bool := s.foldl (fun _ c => isSpace c) wasSpace

theorem findCharsOrComment_cons {wasSpace : Bool} (mem : c ∈ chars) :
    findCharsOrComment chars wasSpace (c :: s) = ([], c :: s) := if_pos (.inl mem)

theorem findCharsOrComment_append {wasSpace : Bool} (passes : Passes chars wasSpace s)
    (stops : findCharsOrComment chars (spaceAfter wasSpace s) t = ([], t)) :
    findCharsOrComment chars wasSpace (s ++ t) = (s, t) := by
  induction s generalizing wasSpace with
  | nil => exact stops
  | cons c s ih =>
    obtain ⟨passed, passes⟩ := passes
    rw [List.cons_append, findCharsOrComment, if_neg passed, ih passes stops]

theorem Passes.append {wasSpace : Bool} (passes : Passes chars wasSpace s) (blank : Blank t)
    (other : ∀ c ∈ t, c ∉ chars) : Passes chars wasSpace (s ++ t) := by
  induction s generalizing wasSpace with
  | nil =>
    rw [List.nil_append]
    clear passes
    induction t generalizing wasSpace with
    | nil => trivial
    | cons c t ih =>
      rw [Blank, List.forall_mem_cons] at blank
      rw [List.forall_mem_cons] at other
      refine ⟨?_, ih blank.2 other.2⟩
      rintro (mem | ⟨-, rfl⟩)
      · exact other.1 mem
      · exact absurd blank.1 (by decide)
  | cons c s ih => exact ⟨passes.1, ih passes.2⟩

theorem spaceAfter_append {wasSpace : Bool} (blank : Blank t) (filled : t ≠ []) :
    spaceAfter wasSpace (s ++ t) = true := by
  obtain ⟨t, c, rfl⟩ := List.eq_nil_or_concat t |>.resolve_left filled
  rw [spaceAfter, List.concat_eq_append, ← List.append_assoc, List.foldl_append]
  exact blank c (by simp)

inductive IniKind where
  | nothing
  | more (value : Bytes)
  | header (name : Bytes)
  | pair (name value : Bytes)
  | bad
deriving DecidableEq

/-- The kind of a line behind a byte order mark, if it has one. -/
def iniKind (prevName : Bytes) (bom : Bool) (line : Bytes) : IniKind :=
  let stripped := rstrip line
  let start := lskip stripped
  if start.head? = some semicolon ∨ start.head? = some hash then .nothing
  else if prevName ≠ [] ∧ start ≠ [] ∧ (bom ∨ start ≠ stripped) then .more start
  else if start.head? = some bracket then
    match findCharsOrComment (ascii "]") false (start.drop 1) with
    | (name, 93 :: _) => .header name
    | _ => .bad
  else if start ≠ [] then
    match findCharsOrComment (ascii "=:") false start with
    | (name, 61 :: rest) | (name, 58 :: rest) =>
      .pair (rstrip name) (rstrip (findCharsOrComment [] false (lskip rest)).1)
    | _ => .bad
  else .nothing

def IniKind.prevName (prevName : Bytes) : IniKind → Bytes
  | .header _ => []
  | .pair name _ => strncpy0 name maxName
  | _ => prevName

def IniParser.perform (handler : IniHandler α) (p : IniParser α) : IniKind → IniParser α
  | .nothing => p
  | .more value => p.call handler p.prevName value
  | .header name => { p with sectionName := strncpy0 name maxSection, prevName := [] }
  | .pair name value => { p with prevName := strncpy0 name maxName }.call handler name value
  | .bad => p.fail

theorem IniParser.parse_eq (handler : IniHandler α) (p : IniParser α) (bom : Bool) (line : Bytes) :
    p.parse handler bom line = p.perform handler (iniKind p.prevName bom line) := by
  simp only [parse, iniKind]
  split
  next => rfl
  next =>
    split
    next => rfl
    next =>
      split
      next => split <;> simp_all [perform]
      next =>
        split
        next => split <;> simp_all [perform]
        next => rfl

/-- The kind of a line as it was read. -/
def iniLineKind (lineno : Nat) (prevName line : Bytes) : IniKind :=
  let line := cStr line
  if lineno = 1 ∧ utf8Bom <+: line then iniKind prevName true (line.drop 3) else iniKind prevName false line

theorem IniParser.line_eq (handler : IniHandler α) (p : IniParser α) (line : Bytes) :
    p.line handler line =
      { p with lineno := p.lineno + 1 }.perform handler (iniLineKind (p.lineno + 1) p.prevName line) := by
  simp only [IniParser.line, iniLineKind]
  split
  all_goals exact parse_eq ..

def IniHandler.Total (handler : IniHandler α) : Prop :=
  ∀ user sectionName name value, (handler user sectionName name value).1 = true

abbrev IniPair := Bytes × Bytes × Bytes

def IniHandler.all (handler : IniHandler α) (user : α) (pairs : List IniPair) : α :=
  pairs.foldl (fun user (sectionName, name, value) => (handler user sectionName name value).2) user

def record : IniHandler (List IniPair) := fun pairs sectionName name value =>
  (true, pairs ++ [(sectionName, name, value)])

/-- A parser and another that only keeps the pairs. -/
structure IniParser.Follows (handler : IniHandler α) (user : α) (p : IniParser α)
    (r : IniParser (List IniPair)) : Prop where
  sectionName : p.sectionName = r.sectionName
  prevName : p.prevName = r.prevName
  lineno : p.lineno = r.lineno
  error : p.error = r.error
  user : p.user = handler.all user r.user

namespace IniParser.Follows

variable {handler : IniHandler α} {user : α} {p : IniParser α} {r : IniParser (List IniPair)}

theorem call (total : handler.Total) (follows : Follows handler user p r) (name value : Bytes) :
    Follows handler user (p.call handler name value) (r.call record name value) := by
  obtain ⟨sectionName, prevName, lineno, error, users⟩ := follows
  have succeeded := total p.user p.sectionName name value
  simp only [IniParser.call, succeeded, record, if_true]
  refine ⟨sectionName, prevName, lineno, error, ?_⟩
  rw [IniHandler.all, List.foldl_append, ← sectionName, users]
  rfl

theorem perform (total : handler.Total) (follows : Follows handler user p r) (kind : IniKind) :
    Follows handler user (p.perform handler kind) (r.perform record kind) := by
  have follows' := follows
  obtain ⟨sectionName, prevName, lineno, error, users⟩ := follows
  cases kind with
  | nothing => exact follows'
  | more value =>
    simp only [IniParser.perform, prevName]
    exact follows'.call total r.prevName value
  | header name => exact ⟨rfl, rfl, lineno, error, users⟩
  | pair name value =>
    exact call (p := { p with prevName := strncpy0 name maxName })
      (r := { r with prevName := strncpy0 name maxName }) total
      ⟨sectionName, rfl, lineno, error, users⟩ name value
  | bad => exact ⟨sectionName, prevName, lineno, by simp only [IniParser.perform, fail, error, lineno], users⟩

theorem line (total : handler.Total) (follows : Follows handler user p r) (line : Bytes) :
    Follows handler user (p.line handler line) (r.line record line) := by
  rw [line_eq, line_eq, follows.lineno, follows.prevName]
  exact perform (p := { p with lineno := r.lineno + 1, prevName := r.prevName })
    (r := { r with lineno := r.lineno + 1 }) total
    ⟨follows.sectionName, rfl, rfl, follows.error, follows.user⟩ _

theorem lines (total : handler.Total) (follows : Follows handler user p r) (lines : List Bytes) :
    Follows handler user (lines.foldl (IniParser.line handler) p) (lines.foldl (IniParser.line record) r) := by
  induction lines generalizing p r with
  | nil => exact follows
  | cons first rest ih => exact ih (follows.line total first)

end IniParser.Follows

theorem iniParseStream_eq {handler : IniHandler α} (total : handler.Total) (lines : List Bytes) (user : α) :
    IniParser.Follows handler user (iniParseStream handler lines user) (iniParseStream record lines []) :=
  IniParser.Follows.lines total ⟨rfl, rfl, rfl, rfl, rfl⟩ lines

inductive IniLine where
  | blank (white : Bytes)
  | comment (white : Bytes) (mark : UInt8) (text : Bytes)
  | header (white name rest : Bytes)
  | pair (white name before : Bytes) (sign : UInt8) (after value tail : Bytes)
  /-- A further line of a value. -/
  | more (white text tail : Bytes)

namespace IniLine

def render : IniLine → Bytes
  | blank white => white
  | comment white mark text => white ++ mark :: text
  | header white name rest => white ++ bracket :: name ++ 93 :: rest
  | pair white name before sign after value tail =>
    white ++ name ++ before ++ sign :: after ++ value ++ tail
  | more white text tail => white ++ text ++ tail

def kind : IniLine → IniKind
  | blank _ | comment .. => .nothing
  | header _ name _ => .header name
  | pair _ name _ _ _ value _ => .pair name value
  | more _ text _ => .more text

/-- Blanks behind a value, and maybe a comment. -/
def Tail (value tail : Bytes) : Prop :=
  Blank tail ∨ value ≠ [] ∧ ∃ blanks text, tail = blanks ++ semicolon :: text ∧ blanks ≠ [] ∧ Blank blanks

/-- The line is laid out well behind a line with this name. -/
def Fits (prevName : Bytes) : IniLine → Prop
  | blank white => Blank white
  | comment white mark _ => Blank white ∧ (mark = semicolon ∨ mark = hash)
  | header white name _ =>
    Blank white ∧ (prevName = [] ∨ white = []) ∧ Passes (ascii "]") false name
  | pair white name before sign after value tail =>
    Blank white ∧ (prevName = [] ∨ white = []) ∧
      (name ≠ [] ∧ Trimmed name ∧ Passes (ascii "=:") false name ∧
        ∀ mark ∈ [semicolon, hash, bracket], name.head? ≠ some mark) ∧
      Blank before ∧ (sign = 61 ∨ sign = 58) ∧ Blank after ∧
      (Trimmed value ∧ Passes [] false value) ∧ Tail value tail
  | more white text tail =>
    prevName ≠ [] ∧ (Blank white ∧ white ≠ []) ∧
      (text ≠ [] ∧ Trimmed text ∧ ∀ mark ∈ [semicolon, hash], text.head? ≠ some mark) ∧ Blank tail

variable {white name rest before after value tail text prevName : Bytes} {mark sign : UInt8} {bom : Bool}

theorem blank_newline : Blank [newline] := by
  intro c mem
  rw [List.mem_singleton.mp mem]
  decide

theorem kind_blank (blank : Blank white) : iniKind prevName bom (white ++ [newline]) = .nothing := by
  simp [iniKind, rstrip_append blank_newline, rstrip_blank blank, lskip]

theorem kind_comment (blank : Blank white) (marks : mark = semicolon ∨ mark = hash) :
    iniKind prevName bom (white ++ mark :: text ++ [newline]) = .nothing := by
  have solid : isSpace mark = false := by obtain rfl | rfl := marks <;> decide
  have start : lskip (rstrip (white ++ mark :: text ++ [newline])) = mark :: rstrip text := by
    rw [rstrip_append blank_newline, rstrip_cons solid, lskip_append blank, lskip,
      List.dropWhile_cons_of_neg (by simp [solid])]
  simp only [iniKind, start, List.head?_cons, Option.some.injEq, marks, if_true]

theorem kind_header (blank : Blank white) (flush : prevName = [] ∨ bom = false ∧ white = [])
    (passes : Passes (ascii "]") false name) :
    iniKind prevName bom (white ++ bracket :: name ++ 93 :: rest ++ [newline]) = .header name := by
  have stripped : rstrip (white ++ bracket :: name ++ 93 :: rest ++ [newline]) =
      white ++ bracket :: (name ++ 93 :: rstrip rest) := by
    rw [rstrip_append blank_newline, rstrip_cons (by decide), List.append_assoc, List.cons_append]
  have start : lskip (white ++ bracket :: (name ++ 93 :: rstrip rest)) =
      bracket :: (name ++ 93 :: rstrip rest) := by
    rw [lskip_append blank, lskip, List.dropWhile_cons_of_neg (by decide)]
  have found := findCharsOrComment_append (t := 93 :: rstrip rest) passes (findCharsOrComment_cons (by decide))
  have other : ¬ (bracket = semicolon ∨ bracket = hash) := by decide
  have flush' : ¬ (prevName ≠ [] ∧ bracket :: (name ++ 93 :: rstrip rest) ≠ [] ∧
      (bom = true ∨ bracket :: (name ++ 93 :: rstrip rest) ≠ white ++ bracket :: (name ++ 93 :: rstrip rest))) := by
    obtain rfl | ⟨rfl, rfl⟩ := flush <;> simp
  simp only [iniKind, stripped, start, List.head?_cons, Option.some.injEq, other, if_false, flush', if_true,
    List.drop_succ_cons, List.drop_zero, found]

theorem kind_more (named : prevName ≠ []) (blank : Blank white) (indented : white ≠ []) (filled : text ≠ [])
    (trimmed : Trimmed text) (plain : ∀ mark ∈ [semicolon, hash], text.head? ≠ some mark) (blank' : Blank tail) :
    iniKind prevName bom (white ++ text ++ tail ++ [newline]) = .more text := by
  have stripped : rstrip (white ++ text ++ tail ++ [newline]) = white ++ text := by
    rw [rstrip_append blank_newline, rstrip_append blank', trimmed.rstrip_append filled]
  have start : lskip (white ++ text) = text := by rw [lskip_append blank, trimmed.front]
  have moved : text ≠ white ++ text := by
    intro same
    have lengths := congrArg List.length same
    rw [List.length_append] at lengths
    exact indented (List.eq_nil_of_length_eq_zero (by omega))
  have uncommented : ¬ (text.head? = some semicolon ∨ text.head? = some hash) :=
    not_or.mpr ⟨plain _ (by simp), plain _ (by simp)⟩
  simp only [iniKind, stripped, start, uncommented, if_false]
  rw [if_pos ⟨named, filled, .inr moved⟩]

theorem value_of_tail (blank : Blank after) (trimmed : Trimmed value) (passes : Passes [] false value)
    (ends : Tail value tail) :
    rstrip (findCharsOrComment [] false (lskip (rstrip (after ++ (value ++ tail))))).1 = value := by
  have whole : findCharsOrComment [] false value = (value, []) := by
    simpa using findCharsOrComment_append (t := []) passes rfl
  by_cases empty : value = []
  · obtain blank' | ⟨filled, -⟩ := ends
    · rw [empty, List.nil_append, rstrip_append blank', rstrip_blank blank]
      rfl
    · exact absurd empty filled
  · obtain blank' | ⟨-, blanks, text, rfl, space, blank'⟩ := ends
    · rw [← List.append_assoc, rstrip_append blank', trimmed.rstrip_append empty, lskip_append blank,
        trimmed.front, whole, trimmed.back]
    · have stops : findCharsOrComment [] false (value ++ blanks ++ semicolon :: rstrip text) =
          (value ++ blanks, semicolon :: rstrip text) := by
        refine findCharsOrComment_append (passes.append blank' (by simp)) ?_
        rw [spaceAfter_append blank' space]
        rfl
      rw [← List.append_assoc, ← List.append_assoc, rstrip_cons (by decide), List.append_assoc,
        List.append_assoc, lskip_append blank, trimmed.lskip_append empty, ← List.append_assoc, stops,
        rstrip_append blank', trimmed.back]

theorem kind_pair (blank : Blank white) (flush : prevName = [] ∨ bom = false ∧ white = [])
    (filled : name ≠ []) (trimmed : Trimmed name) (passes : Passes (ascii "=:") false name)
    (plain : ∀ mark ∈ [semicolon, hash, bracket], name.head? ≠ some mark)
    (blank' : Blank before) (signs : sign = 61 ∨ sign = 58) (blank'' : Blank after)
    (trimmed' : Trimmed value) (passes' : Passes [] false value) (ends : Tail value tail) :
    iniKind prevName bom (white ++ name ++ before ++ sign :: after ++ value ++ tail ++ [newline]) =
      .pair name value := by
  have solid : isSpace sign = false := by obtain rfl | rfl := signs <;> decide
  have line : white ++ name ++ before ++ sign :: after ++ value ++ tail =
      white ++ name ++ before ++ sign :: (after ++ (value ++ tail)) := by simp
  have stripped : rstrip (white ++ name ++ before ++ sign :: after ++ value ++ tail ++ [newline]) =
      white ++ (name ++ (before ++ sign :: rstrip (after ++ (value ++ tail)))) := by
    rw [rstrip_append blank_newline, line, rstrip_cons solid]
    simp
  have start : lskip (white ++ (name ++ (before ++ sign :: rstrip (after ++ (value ++ tail))))) =
      name ++ (before ++ sign :: rstrip (after ++ (value ++ tail))) := by
    rw [lskip_append blank, trimmed.lskip_append filled]
  have found : findCharsOrComment (ascii "=:") false
      (name ++ (before ++ sign :: rstrip (after ++ (value ++ tail)))) =
        (name ++ before, sign :: rstrip (after ++ (value ++ tail))) := by
    rw [← List.append_assoc]
    refine findCharsOrComment_append (passes.append blank' fun c mem inside => ?_) ?_
    · have space := blank' c mem
      have signs : ∀ c ∈ ascii "=:", ¬ isSpace c := by decide +kernel
      exact signs c inside space
    · exact findCharsOrComment_cons (by obtain rfl | rfl := signs <;> decide +kernel)
  have head : (name ++ (before ++ sign :: rstrip (after ++ (value ++ tail)))).head? = name.head? := by
    cases name with
    | nil => contradiction
    | cons c name => rfl
  have uncommented : ¬ (name.head? = some semicolon ∨ name.head? = some hash) :=
    not_or.mpr ⟨plain _ (by simp), plain _ (by simp)⟩
  have unbracketed : name.head? ≠ some bracket := plain _ (by simp)
  have long : name ++ (before ++ sign :: rstrip (after ++ (value ++ tail))) ≠ [] := by simp [filled]
  have flush' : ¬ (prevName ≠ [] ∧ name ++ (before ++ sign :: rstrip (after ++ (value ++ tail))) ≠ [] ∧
      (bom = true ∨ name ++ (before ++ sign :: rstrip (after ++ (value ++ tail))) ≠
        white ++ (name ++ (before ++ sign :: rstrip (after ++ (value ++ tail)))))) := by
    obtain rfl | ⟨rfl, rfl⟩ := flush <;> simp
  have value' := value_of_tail blank'' trimmed' passes' ends
  simp only [iniKind, stripped, start, head, uncommented, if_false, found]
  rw [if_neg flush', if_neg unbracketed, if_pos long]
  obtain rfl | rfl := signs <;> simp only [rstrip_append blank', trimmed.back, value']

theorem kind_render {line : IniLine} (fits : line.Fits prevName) (first : bom = true → prevName = []) :
    iniKind prevName bom (line.render ++ [newline]) = line.kind := by
  have flush {white : Bytes} (here : prevName = [] ∨ white = []) : prevName = [] ∨ bom = false ∧ white = [] := by
    cases bom with
    | false => exact here.imp_right fun empty => ⟨rfl, empty⟩
    | true => exact .inl (first rfl)
  cases line with
  | blank white => exact kind_blank fits
  | comment white mark text => exact kind_comment fits.1 fits.2
  | header white name rest =>
    obtain ⟨blank, here, passes⟩ := fits
    exact kind_header blank (flush here) passes
  | pair white name before sign after value tail =>
    obtain ⟨blank, here, ⟨filled, trimmed, passes, plain⟩, blank', signs, blank'', ⟨trimmed', passes'⟩, ends⟩ := fits
    exact kind_pair blank (flush here) filled trimmed passes plain blank' signs blank'' trimmed' passes' ends
  | more white text tail =>
    obtain ⟨named, ⟨blank, indented⟩, ⟨nonempty, trimmed, plain⟩, blank'⟩ := fits
    exact kind_more named blank indented nonempty trimmed plain blank'

def nextName (prevName : Bytes) (line : IniLine) : Bytes := line.kind.prevName prevName

/-- Each line is laid out well behind those before it, and is read by one `fgets`. -/
def WellFormed (prevName : Bytes) : List IniLine → Prop
  | [] => True
  | line :: rest =>
    line.Fits prevName ∧ (newline ∉ line.render ∧ 0 ∉ line.render) ∧ line.render.length + 1 < iniMaxLine ∧
      WellFormed (line.nextName prevName) rest

def pairs (sectionName prevName : Bytes) : List IniLine → List IniPair
  | [] => []
  | .blank _ :: rest | .comment .. :: rest => pairs sectionName prevName rest
  | .header _ name _ :: rest => pairs (strncpy0 name maxSection) [] rest
  | .pair _ name _ _ _ value _ :: rest =>
    (sectionName, name, value) :: pairs sectionName (strncpy0 name maxName) rest
  | .more _ text _ :: rest => (sectionName, prevName, text) :: pairs sectionName prevName rest

/-- The file of these lines, behind a byte order mark if it has one. -/
def document (bom : Bool) (lines : List IniLine) : Bytes :=
  (if bom then utf8Bom else []) ++ lines.flatMap fun line => line.render ++ [newline]

/-- The mark is taken for one, and leaves room for the first line. -/
def Marked (bom : Bool) (lines : List IniLine) : Prop :=
  if bom then ∃ line ∈ lines.head?, line.render.length + 4 < iniMaxLine else ¬ utf8Bom <+: document false lines

end IniLine

theorem fgets_line {room : Nat} {line rest : Bytes} (free : newline ∉ line) (short : line.length < room) :
    fgets room (line ++ newline :: rest) = (line ++ [newline], rest) := by
  induction line generalizing room with
  | nil =>
    cases room with
    | zero => cases short
    | succ room => simp [fgets]
  | cons c line ih =>
    rw [List.mem_cons, not_or] at free
    cases room with
    | zero => cases short
    | succ room =>
      rw [List.cons_append, fgets, if_neg (Ne.symm free.1), ih free.2 (Nat.lt_of_succ_lt_succ short)]
      rfl

theorem fgetsLines_succ {size fuel : Nat} {stream : Bytes} (filled : stream ≠ []) :
    fgetsLines size (fuel + 1) stream =
      (fgets (size - 1) stream).1 :: fgetsLines size fuel (fgets (size - 1) stream).2 := by
  cases stream with
  | nil => contradiction
  | cons c stream => rfl

theorem fgetsLines_flatMap {lines : List Bytes} {fuel : Nat}
    (each : ∀ line ∈ lines, newline ∉ line ∧ line.length + 1 < iniMaxLine) (enough : lines.length ≤ fuel) :
    fgetsLines iniMaxLine fuel (lines.flatMap (· ++ [newline])) = lines.map (· ++ [newline]) := by
  induction lines generalizing fuel with
  | nil => cases fuel <;> rfl
  | cons line rest ih =>
    obtain ⟨⟨free, short⟩, each⟩ := List.forall_mem_cons.mp each
    cases fuel with
    | zero => cases enough
    | succ fuel =>
      have whole : (line :: rest).flatMap (· ++ [newline]) = line ++ newline :: rest.flatMap (· ++ [newline]) := by
        simp
      have read := @fgets_line (iniMaxLine - 1) line (rest.flatMap (· ++ [newline])) free (by omega)
      rw [whole, fgetsLines_succ (by simp), read, ih each (Nat.le_of_succ_le_succ enough)]
      rfl

namespace IniLine

variable {prevName : Bytes} {line : IniLine} {lines : List IniLine}

theorem WellFormed.each (wellFormed : WellFormed prevName lines) :
    ∀ line ∈ lines, newline ∉ line.render ∧ 0 ∉ line.render ∧ line.render.length + 1 < iniMaxLine := by
  induction lines generalizing prevName with
  | nil => simp
  | cons line rest ih =>
    obtain ⟨-, ⟨free, whole⟩, short, wellFormed⟩ := wellFormed
    exact List.forall_mem_cons.mpr ⟨⟨free, whole, short⟩, ih wellFormed⟩

theorem cStr_render (whole : 0 ∉ line.render) : cStr (line.render ++ [newline]) = line.render ++ [newline] := by
  refine cStr_of_notMem fun mem => ?_
  obtain mem | mem := List.mem_append.mp mem
  · exact whole mem
  · exact absurd (List.mem_singleton.mp mem) (by decide)

theorem lineKind_later {lineno : Nat} (fits : line.Fits prevName) (whole : 0 ∉ line.render)
    (later : lineno ≠ 1 ∨ ¬ utf8Bom <+: line.render ++ [newline]) :
    iniLineKind lineno prevName (line.render ++ [newline]) = line.kind := by
  have unmarked : ¬ (lineno = 1 ∧ utf8Bom <+: line.render ++ [newline]) := not_and_or.mpr later
  simp only [iniLineKind, cStr_render whole, unmarked, if_false]
  exact kind_render fits nofun

theorem lineKind_marked (fits : line.Fits []) (whole : 0 ∉ line.render) :
    iniLineKind 1 [] (utf8Bom ++ (line.render ++ [newline])) = line.kind := by
  have cut : cStr (utf8Bom ++ (line.render ++ [newline])) = utf8Bom ++ (line.render ++ [newline]) := by
    refine cStr_of_notMem fun mem => ?_
    obtain mem | mem := List.mem_append.mp mem
    · exact absurd mem (by decide)
    · exact zero_notMem_cStr _ (cStr_render whole ▸ mem)
  simp only [iniLineKind, cut, List.prefix_append, and_self, if_true]
  exact kind_render fits fun _ => rfl

theorem perform_kind (r : IniParser (List IniPair)) (line : IniLine) (rest : List IniLine) :
    (r.perform record line.kind).error = r.error ∧ (r.perform record line.kind).lineno = r.lineno ∧
      (r.perform record line.kind).prevName = line.nextName r.prevName ∧
      r.user ++ pairs r.sectionName r.prevName (line :: rest) =
        (r.perform record line.kind).user ++
          pairs (r.perform record line.kind).sectionName (r.perform record line.kind).prevName rest := by
  cases line <;>
    simp [IniParser.perform, IniParser.call, record, kind, pairs, nextName, IniKind.prevName]

theorem record_lines (wellFormed : WellFormed prevName lines) (r : IniParser (List IniPair))
    (named : r.prevName = prevName) (later : 0 < r.lineno) :
    let r' := (lines.map fun line => line.render ++ [newline]).foldl (IniParser.line record) r
    r'.error = r.error ∧ r'.user = r.user ++ pairs r.sectionName r.prevName lines := by
  induction lines generalizing prevName r with
  | nil => simp [pairs]
  | cons line rest ih =>
    obtain ⟨fits, ⟨-, whole⟩, -, wellFormed⟩ := wellFormed
    subst named
    have kind : iniLineKind (r.lineno + 1) r.prevName (line.render ++ [newline]) = line.kind :=
      lineKind_later fits whole (.inl (by omega))
    obtain ⟨error, lineno, next, user⟩ := perform_kind { r with lineno := r.lineno + 1 } line rest
    rw [List.map_cons, List.foldl_cons, IniParser.line_eq, kind]
    obtain ⟨error', user'⟩ := ih wellFormed _ next (by rw [lineno]; exact Nat.succ_pos _)
    exact ⟨error'.trans error, user'.trans user.symm⟩

theorem record_first {raw : Bytes} (first : iniLineKind 1 [] raw = line.kind)
    (wellFormed : WellFormed (line.nextName []) lines) :
    let r := iniParseStream record (raw :: lines.map fun line => line.render ++ [newline]) []
    r.error = 0 ∧ r.user = pairs [] [] (line :: lines) := by
  obtain ⟨error, lineno, next, user⟩ := perform_kind { lineno := 1, user := [] } line lines
  rw [iniParseStream, List.foldl_cons, IniParser.line_eq, first]
  obtain ⟨error', user'⟩ := record_lines wellFormed _ next (by rw [lineno]; exact Nat.one_pos)
  exact ⟨error'.trans error, user'.trans user.symm⟩

theorem length_le_flatMap (lines : List Bytes) : lines.length ≤ (lines.flatMap (· ++ [newline])).length := by
  induction lines with
  | nil => exact Nat.le_refl 0
  | cons line rest ih =>
    rw [List.flatMap_cons, List.length_append, List.length_append, List.length_cons, List.length_singleton]
    omega

theorem iniParse_flatMap {lines : List Bytes} {pairs : List IniPair}
    (each : ∀ line ∈ lines, newline ∉ line ∧ line.length + 1 < iniMaxLine)
    (parsed : let r := iniParseStream record (lines.map (· ++ [newline])) []
      r.error = 0 ∧ r.user = pairs) :
    iniParse record (some (lines.flatMap (· ++ [newline]))) [] = (0, pairs) := by
  obtain ⟨error, user⟩ := parsed
  simp only [iniParse, fgetsLines_flatMap each (length_le_flatMap lines), error, user]

theorem parse_document {bom : Bool} (wellFormed : WellFormed [] lines) (marked : Marked bom lines) :
    iniParse record (some (document bom lines)) [] = (0, pairs [] [] lines) := by
  have each := wellFormed.each
  cases lines with
  | nil =>
    cases bom with
    | true => simp [Marked] at marked
    | false => rfl
  | cons first rest =>
    obtain ⟨⟨free, whole, short⟩, each⟩ := List.forall_mem_cons.mp each
    obtain ⟨fits, -, -, wellFormed⟩ := wellFormed
    have each' : ∀ line ∈ rest.map render, newline ∉ line ∧ line.length + 1 < iniMaxLine :=
      List.forall_mem_map.mpr fun line mem => ⟨(each line mem).1, (each line mem).2.2⟩
    cases bom with
    | false =>
      have unmarked : ¬ utf8Bom <+: first.render ++ [newline] := by
        rintro start
        apply marked
        simp only [document, Bool.false_eq_true, if_false, List.nil_append, List.flatMap_cons]
        exact start.trans (List.prefix_append ..)
      have file : document false (first :: rest) =
          (first.render :: rest.map render).flatMap (· ++ [newline]) := by
        simp [document, List.flatMap_map]
      rw [file]
      refine iniParse_flatMap (List.forall_mem_cons.mpr ⟨⟨free, short⟩, each'⟩) ?_
      rw [List.map_cons, List.map_map]
      exact record_first (lineKind_later fits whole (.inr unmarked)) wellFormed
    | true =>
      obtain ⟨line, here, room⟩ := marked
      cases here
      have file : document true (first :: rest) =
          ((utf8Bom ++ first.render) :: rest.map render).flatMap (· ++ [newline]) := by
        simp [document, List.flatMap_map]
      have free' : newline ∉ utf8Bom ++ first.render := by
        rw [List.mem_append, not_or]
        exact ⟨by decide, free⟩
      have short' : (utf8Bom ++ first.render).length + 1 < iniMaxLine := by
        simp only [utf8Bom, List.length_append, List.length_cons, List.length_nil]
        omega
      rw [file]
      refine iniParse_flatMap (List.forall_mem_cons.mpr ⟨⟨free', short'⟩, each'⟩) ?_
      rw [List.map_cons, List.map_map, List.append_assoc]
      exact record_first (lineKind_marked fits whole) wellFormed

end IniLine

/-- A file whose lines are laid out well is read without an error, and the handler is
called with just the pairs that stand in it. -/
theorem iniParse_document {bom : Bool} {lines : List IniLine} {handler : IniHandler α} (total : handler.Total)
    (wellFormed : IniLine.WellFormed [] lines) (marked : IniLine.Marked bom lines) (user : α) :
    iniParse handler (some (IniLine.document bom lines)) user =
      (0, handler.all user (IniLine.pairs [] [] lines)) := by
  have parsed := IniLine.parse_document wellFormed marked
  have follows := iniParseStream_eq total
    (fgetsLines iniMaxLine (IniLine.document bom lines).length (IniLine.document bom lines)) user
  simp only [iniParse, Prod.mk.injEq] at parsed ⊢
  rw [follows.error, follows.user, parsed.1, parsed.2]
  exact ⟨rfl, rfl⟩

end Fdfs2qq.Common
