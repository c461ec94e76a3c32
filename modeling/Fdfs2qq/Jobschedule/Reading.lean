import Fdfs2qq.Jobschedule.ConsumerCli
import Fdfs2qq.Box.Framing

/-! The read handler and the stream. It takes what one event brings, and the
stack behind it, for a whole file id. -/
namespace Fdfs2qq.Jobschedule
open Box

/-- What the handler passes on in these events, each with what the array holds
before it and the bytes that have arrived. -/
def handled (events : List (Bytes × Bytes)) : List (Except ReadFault Bytes) :=
  events.map fun (data, input) => bufferedOnRead data input

/-- The text goes on with blanks to its NUL. -/
def BlankTail (tail : Bytes) : Prop := 0 ∈ tail ∧ ∀ c ∈ cStr tail, isBlank c

theorem removeChunks_of_short {data input : Bytes} (filled : input ≠ [])
    (short : input.length ≤ bufferMaxLine) :
    removeChunks data input = input ++ data.drop input.length := by
  rw [removeChunks, if_neg filled]
  simp only [min_eq_left short, List.take_length, List.drop_length]
  rw [removeChunks, if_pos rfl]

theorem trimRight_append_iff {text tail : Bytes} (trimmed : trimRight text = text) :
    trimRight (text ++ tail) = text ↔ ∀ c ∈ tail, isBlank c := by
  constructor
  · intro same c mem
    have whole := List.rdropWhile_append_rtakeWhile (p := isBlank) (l := text ++ tail)
    rw [show (text ++ tail).rdropWhile isBlank = text from same, List.append_cancel_left_eq] at whole
    rw [← whole] at mem
    exact List.mem_rtakeWhile_imp mem
  · intro blank
    rw [trimRight, List.rdropWhile, List.reverse_append, List.dropWhile_append_of_pos (by simpa using blank)]
    exact trimmed

/-- One event hands on its input exactly if the stack behind it is blank and the input can
be logged. -/
theorem bufferedOnRead_iff {data input : Bytes} (filled : input ≠ []) (short : input.length ≤ bufferMaxLine)
    (free : 0 ∉ input) (trimmed : trimRight input = input) :
    bufferedOnRead data input = .ok input ↔ BlankTail (data.drop input.length) ∧ isFormat input := by
  rw [bufferedOnRead, removeChunks_of_short filled short, fieldText, BlankTail]
  by_cases ends : 0 ∈ input ++ data.drop input.length
  · have here : 0 ∈ data.drop input.length := (List.mem_append.mp ends).resolve_left free
    rw [if_pos ends, cStr_append_of_notMem free, ← trimRight_append_iff trimmed, and_iff_right here]
    simp only [Except.map, Except.mapError, bind, Except.bind, pure, Except.pure]
    constructor
    · intro passed
      split at passed
      next logged =>
        rw [Except.ok.injEq] at passed
        rw [passed, Logger.info, cStr_of_notMem free] at logged
        exact ⟨passed, logged⟩
      next => cases passed
    · rintro ⟨same, logged⟩
      rw [same, if_pos (by rwa [Logger.info, cStr_of_notMem free])]
  · rw [if_neg ends]
    refine iff_of_false (fun passed => ?_) fun tail => ends (List.mem_append_right _ tail.1.1)
    cases passed

end Fdfs2qq.Jobschedule
