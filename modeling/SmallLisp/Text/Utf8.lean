/-!
# Reading UTF-8

The characters of a byte sequence, or the place of the first byte that belongs to none.
-/
namespace SmallLisp.Utf8

/-- The characters from byte `i` on. The error is the number of the first byte of the first
sequence that encodes no character. -/
def decodeFrom (bytes : ByteArray) (i : Nat) : Except Nat (List Char) :=
  if i < bytes.size then
    match bytes.utf8DecodeChar? i with
    | none => .error i
    | some c =>
      have := c.utf8Size_pos
      (decodeFrom bytes (i + c.utf8Size)).map (c :: ·)
  else .ok []
termination_by bytes.size - i

def decode (bytes : ByteArray) : Except Nat (List Char) := decodeFrom bytes 0

end SmallLisp.Utf8
