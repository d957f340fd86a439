/-!
# The digest of a text

FNV-1a with 64 bits over the UTF-8 bytes. Different texts may share a digest.
-/

namespace YeetYoink.Text

def utf8 (s : String) : List UInt8 := s.toList.flatMap String.utf8EncodeChar

/-- The number of bytes of a text in UTF-8. -/
def byteSize : List Char → Nat
  | [] => 0
  | c :: cs => c.utf8Size + byteSize cs

def digestByte (h : UInt64) (b : UInt8) : UInt64 := (h ^^^ b.toUInt64) * 0x100000001b3

def digest (s : String) : UInt64 := (utf8 s).foldl digestByte 0xcbf29ce484222325

end YeetYoink.Text
