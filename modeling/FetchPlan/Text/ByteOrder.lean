/-!
# Texts in the order of their bytes

Texts compared byte by byte, in UTF-8. The order is that of their characters
(`compareBytes_eq_compare`).
-/

namespace FetchPlan

/-- The bytes of a text. -/
def utf8Bytes (s : String) : List UInt8 := s.toUTF8.data.toList

/-- The first byte in which two texts differ decides; a text comes before those that go on from
it. -/
def compareBytes (s t : String) : Ordering := compare (utf8Bytes s) (utf8Bytes t)

end FetchPlan
