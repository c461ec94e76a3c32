import Fdfs2qq.Text
import Fdfs2qq.Lib.BitGroups

/-! Base64 of `tools.cc`. `char` is signed, `int` and `unsigned int` have 32 bits
and `size_t` has 64. The accumulator `val` wraps; the counter of the decoder's
loop may not. -/
namespace Fdfs2qq

def base64Chars : Bytes := ascii "ABCDEFGHIJKLMNOPQRSTUVWXYZabcdefghijklmnopqrstuvwxyz0123456789+/"

def base64Char (index : UInt8) : UInt8 := base64Chars.getD index.toNat 0

def base64Pad : UInt8 := 61

def charArray4 (charArray3 : Bytes) : Bytes :=
  let entry (j : Nat) : UInt8 := charArray3.getD j 0
  [(entry 0 &&& 0xfc) >>> 2,
    ((entry 0 &&& 0x03) <<< 4) + ((entry 1 &&& 0xf0) >>> 4),
    ((entry 1 &&& 0x0f) <<< 2) + ((entry 2 &&& 0xc0) >>> 6),
    entry 2 &&& 0x3f]

/-- The loop of `_bast64_encode`. Of `char_array_3` there are the entries stored
so far, and their number is `i`. -/
def encodeLoop : Bytes → Bytes → Bytes → Bytes × Bytes
  | [], charArray3, ret => (charArray3, ret)
  | byte :: bytesToEncode, charArray3, ret =>
    let charArray3 := charArray3 ++ [byte]
    if charArray3.length = 3 then
      encodeLoop bytesToEncode [] (ret ++ (charArray4 charArray3).map base64Char)
    else encodeLoop bytesToEncode charArray3 ret

def _bast64Encode (s : Bytes) : Bytes :=
  -- `unsigned int in_len`
  let inLen := s.length % 2 ^ 32
  let (charArray3, ret) := encodeLoop (s.take inLen) [] []
  let i := charArray3.length
  if i = 0 then ret
  else
    let charArray3 := charArray3 ++ List.replicate (3 - i) 0
    ret ++ ((charArray4 charArray3).take (i + 1)).map base64Char ++ List.replicate (3 - i) base64Pad

/-- What `_bast64_decode` may do that is undefined: it reads outside of `T`, or
its `int i` runs over. -/
inductive DecodeFault where
  | index
  | overflow
deriving DecidableEq

def base64Table : List Int :=
  (List.range 64).foldl (fun T i => T.set (base64Chars.getD i 0).toNat i) (List.replicate 256 (-1))

def tableAt (c : UInt8) : Except DecodeFault Int :=
  let index := c.toInt8.toInt
  if 0 ≤ index ∧ index < 256 then .ok (base64Table.getD index.toNat (-1)) else .error .index

def charOf (val : BitVec 32) (valb : Int) : UInt8 :=
  .ofBitVec ((val.sshiftRight valb.toNat &&& 0xFF#32).setWidth 8)

/-- The loop of `_bast64_decode` over the characters at `p`. -/
def decodeLoop (i : Nat) (val : BitVec 32) (valb : Int) (out : Bytes) : Bytes → Except DecodeFault Bytes
  | [] => .ok out
  | c :: p => do
    let entry ← tableAt c
    if entry = -1 then return out
    let val := (val <<< 6) + BitVec.ofInt 32 entry
    let valb := valb + 6
    let (valb, out) := if 0 ≤ valb then (valb - 8, out ++ [charOf val valb]) else (valb, out)
    if i = 2 ^ 31 - 1 then throw .overflow
    decodeLoop (i + 1) val valb out p

/-- `_bast64_decode(in)`. The copy at `p` ends with the first NUL of `in`, and
`memory` is what `new` left behind it. -/
def _bast64Decode (in_ memory : Bytes) : Except DecodeFault Bytes :=
  decodeLoop 0 0 (-8) [] ((cStr in_ ++ 0 :: memory).take in_.length)

end Fdfs2qq
