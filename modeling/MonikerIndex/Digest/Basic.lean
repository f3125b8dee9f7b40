import MonikerIndex.Digest.Base64
import MonikerIndex.Digest.Blake3

/-!
# Digests of texts

A digest stands for a text without giving it away: the first sixteen bytes of its hash, in base64.
-/

namespace MonikerIndex

/-- The digest of a text. -/
def digest (text : String) : String :=
  String.ofList (Base64.encode ((Blake3.hash text.toUTF8.toList).take 16))

end MonikerIndex
