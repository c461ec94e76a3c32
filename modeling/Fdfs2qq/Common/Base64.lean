import Fdfs2qq.Text

/-! `base64.c`: the codec with an alphabet, a padding character and a line separator of
the caller's choice. A `char` in a table's index is unsigned here. -/
namespace Fdfs2qq.Common

def base64Ignore : Int := -1

def base64PadMark : Int := -2

/-- `struct base64_context`; `line_separator` and the tables with all their entries. -/
structure Base64Context where
  lineSeparator : Bytes
  lineSepLen : Nat
  lineLength : Int
  valueToChar : Bytes
  charToValue : List Int
  padCh : UInt8
deriving DecidableEq

def base64Alphabet (chPlus chSplash : UInt8) : Bytes :=
  ascii "ABCDEFGHIJKLMNOPQRSTUVWXYZabcdefghijklmnopqrstuvwxyz0123456789" ++ [chPlus, chSplash]

/-- The loop that fills `charToValue`, for the values below `n`. -/
def base64Values (valueToChar : Bytes) : Nat → List Int
  | 0 => List.replicate 256 base64Ignore
  | n + 1 => (base64Values valueToChar n).set (valueToChar.getD n 0).toNat n

def base64InitEx (nLineLength : Int) (chPlus chSplash chPad : UInt8) : Base64Context :=
  let valueToChar := base64Alphabet chPlus chSplash
  { lineSeparator := newline :: List.replicate 15 0
    lineSepLen := 1
    lineLength := nLineLength
    valueToChar := valueToChar
    charToValue := (base64Values valueToChar 64).set chPad.toNat base64PadMark
    padCh := chPad }

namespace Base64Context

def setLineLength (context : Base64Context) (length : Int) : Base64Context :=
  { context with lineLength := length.tdiv 4 * 4 }

/-- `base64_set_line_separator(context, pLineSeparator)` for a string without NUL. The
length that `snprintf` returns is that of the whole string. -/
def setLineSeparator (context : Base64Context) (pLineSeparator : Bytes) : Base64Context :=
  let written := pLineSeparator.take 15 ++ [0]
  { context with
    lineSeparator := written ++ context.lineSeparator.drop written.length
    lineSepLen := pLineSeparator.length }

/-- The first `line_sep_len` bytes of the array, which has 16. -/
def separator (context : Base64Context) : Bytes := context.lineSeparator.take context.lineSepLen

def valueOf (context : Base64Context) (c : UInt8) : Int := context.charToValue.getD c.toNat 0

/-- `base64_get_encode_length(context, nSrcLen)`; each result is an `int`. -/
def getEncodeLength (context : Base64Context) (nSrcLen : Nat) : Int :=
  let outputLength := toInt ((toInt (nSrcLen + 2)).tdiv 3 * 4)
  if context.lineLength ≠ 0 then
    let lines := toInt ((toInt (outputLength + context.lineLength - 1)).tdiv context.lineLength - 1)
    if 0 < lines then toInt (outputLength + lines * context.lineSepLen) else outputLength
  else outputLength

def sixBitValues (a b c : UInt8) : List Nat :=
  let combined := a.toNat <<< 16 ||| b.toNat <<< 8 ||| c.toNat
  [combined >>> 18 &&& 0x3f, combined >>> 12 &&& 0x3f, combined >>> 6 &&& 0x3f, combined &&& 0x3f]

def quad (context : Base64Context) (a b c : UInt8) : Bytes :=
  (sixBitValues a b c).map fun value => context.valueToChar.getD value 0

/-- What comes before the next four characters, and `linePos` behind them. -/
def nextLine (context : Base64Context) (linePos : Int) : Bytes × Int :=
  if context.lineLength < linePos + 4 then (if context.lineLength ≠ 0 then context.separator else [], 4)
  else ([], linePos + 4)

/-- The loop over `pRaw`: `linePos` and what is before `pDest`. -/
def encodeGroups (context : Base64Context) : Bytes → Int → Bytes → Int × Bytes
  | a :: b :: c :: raw, linePos, dest =>
    let (separator, linePos) := context.nextLine linePos
    context.encodeGroups raw linePos (dest ++ separator ++ context.quad a b c)
  | _, linePos, dest => (linePos, dest)

/-- `base64_encode_ex(context, src, nSrcLen, dest, &dest_len, bPad)`: the text, where its
length is an `int`. -/
def encodeEx (context : Base64Context) (src : Bytes) (bPad : Bool) : Option Bytes :=
  if src = [] then some []
  else
    let whole := src.length / 3 * 3
    let leftover := src.drop whole
    let (linePos, dest) := context.encodeGroups (src.take whole) 0 []
    -- `szPad`
    let dest := if leftover = [] then dest
      else (context.encodeGroups (leftover ++ List.replicate (3 - leftover.length) 0) linePos dest).2
    if dest.length < 2 ^ 31 then
      if leftover = [] then some dest
      else
        let dest := dest.take (dest.length - (3 - leftover.length))
        some (dest ++ if bPad then List.replicate (3 - leftover.length) context.padCh else [])
    else none

end Base64Context

/-- The locals of `base64_decode`. -/
structure Decoding where
  cycle : Nat := 0
  combined : Nat := 0
  dummies : Nat := 0
  dest : Bytes := []
deriving DecidableEq

/-- The inner `switch`. -/
def Decoding.push (s : Decoding) (value : Nat) : Decoding :=
  match s.cycle with
  | 0 => { s with combined := value, cycle := 1 }
  | 1 => { s with combined := s.combined <<< 6 ||| value, cycle := 2 }
  | 2 => { s with combined := s.combined <<< 6 ||| value, cycle := 3 }
  | _ =>
    let combined := s.combined <<< 6 ||| value
    { s with
      combined := combined
      cycle := 0
      dest := s.dest ++ [.ofNat (combined >>> 16), .ofNat ((combined &&& 0x0000FF00) >>> 8),
        .ofNat (combined &&& 0x000000FF)] }

namespace Base64Context

/-- The outer `switch`. -/
def decodeChar (context : Base64Context) (s : Decoding) (c : UInt8) : Decoding :=
  let value := context.valueOf c
  if value = base64Ignore then s
  else if value = base64PadMark then { s with dummies := s.dummies + 1 }.push 0
  else s.push value.toNat

/-- `base64_decode(context, src, nSrcLen, dest, &dest_len)`. There is no answer where
`dest_len` is negative and the NUL is put before `dest`. -/
def decode (context : Base64Context) (src : Bytes) : Option Bytes :=
  let s := src.foldl context.decodeChar {}
  if s.cycle ≠ 0 then some []
  else if s.dummies ≤ s.dest.length then some (s.dest.take (s.dest.length - s.dummies))
  else none

/-- `base64_decode_auto(context, src, nSrcLen, dest, &dest_len)`, where `malloc` does not
fail. -/
def decodeAuto (context : Base64Context) (src : Bytes) : Option Bytes :=
  let nRemain := src.length % 4
  if nRemain = 0 then context.decode src
  else context.decode (src ++ List.replicate (4 - nRemain) context.padCh)

end Base64Context
end Fdfs2qq.Common
