import Fdfs2qq.Text

/-! `Logger`. A message is handed to `vsnprintf` as the format, also where it was put
together from a format and arguments before. -/
namespace Fdfs2qq

/-- A text that can stand as the format of a `printf` without arguments: every `%`
begins a `%%`, so that no argument is asked for. -/
def isFormat : Bytes → Bool
  | 37 :: 37 :: rest => isFormat rest
  | 37 :: _ => false
  | _ :: rest => isFormat rest
  | [] => true

def lineMax : Nat := 2048

namespace Logger

/-- Whether `Logger::info(msg)` is defined. -/
def info (msg : Bytes) : Bool := isFormat (cStr msg)

/-- Whether `Logger::info(format, ...)` is defined where the format and the arguments
make this text: as many bytes are taken out of an array of `LINE_MAX` bytes as the
text has, and those before the NUL in it are printed. -/
def infoText (text : Bytes) : Bool := text.length ≤ lineMax && info (text.take (lineMax - 1))

end Logger

theorem Logger.infoText_of_short {text : Bytes} (short : text.length < lineMax) (free : 0 ∉ text) :
    Logger.infoText text = isFormat text := by
  rw [infoText, decide_eq_true short.le, Bool.true_and, List.take_of_length_le (Nat.le_sub_one_of_lt short), info,
    cStr_of_notMem free]

theorem isFormat_cons (other : c ≠ 37) (rest : Bytes) : isFormat (c :: rest) = isFormat rest :=
  isFormat.eq_3 c rest (fun _ same _ => other same) other

theorem isFormat_append {before : Bytes} (free : 37 ∉ before) (rest : Bytes) :
    isFormat (before ++ rest) = isFormat rest := by
  induction before with
  | nil => rfl
  | cons c before ih =>
    rw [List.mem_cons, not_or] at free
    rw [List.cons_append, isFormat_cons (Ne.symm free.1), ih free.2]

/-- A `%` never reaches over a byte that is none. -/
theorem isFormat_append_cons (s : Bytes) (other : c ≠ 37) (rest : Bytes) :
    isFormat (s ++ c :: rest) = (isFormat s && isFormat rest) := by
  fun_induction isFormat s with
  | case1 s ih => rw [List.cons_append, List.cons_append, isFormat, ih]
  | case2 s alone =>
    rw [Bool.false_and, List.cons_append, isFormat.eq_2]
    intro rest' same
    cases s with
    | nil => exact other (List.cons.inj same).1
    | cons d s =>
      obtain ⟨rfl, -⟩ := List.cons.inj same
      exact alone s rfl
  | case3 d s notPair notPercent ih => rw [List.cons_append, isFormat_cons notPercent, ih]
  | case4 => rw [List.nil_append, isFormat_cons other, Bool.true_and]

end Fdfs2qq
