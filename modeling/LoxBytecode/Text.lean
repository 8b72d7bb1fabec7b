/-!
# Text of String Objects

The hash under which a text is interned, and the quoted form shown to a developer.
-/

namespace LoxBytecode

/-- One step of the 32-bit FNV-1a hash: the byte is folded in before the multiplication. -/
def fnvStep (hash : UInt32) (byte : UInt8) : UInt32 :=
  (hash ^^^ byte.toUInt32) * 16777619

/-- The 32-bit FNV-1a hash of some bytes. -/
def fnv1a (bytes : List UInt8) : UInt32 :=
  bytes.foldl fnvStep 2166136261

/-- The hash of a text is that of its UTF-8 bytes. -/
def textHash (text : String) : UInt32 :=
  fnv1a text.toUTF8.data.toList

/-- A text between double quotes, with nothing inside escaped. -/
def quoted (text : String) : String :=
  "\"" ++ text ++ "\""

end LoxBytecode
