import ShaderCompose.Digest.Blake3
import ShaderCompose.Text.Integer

/-!
Digests of source texts.
-/

namespace ShaderCompose

/-- Eight words that stand for a text. -/
structure Digest where
  words : List UInt32
  deriving DecidableEq, Repr, Inhabited

namespace Digest

/-- The digest of a class without a source. -/
def blank : Digest := ⟨List.replicate 8 0⟩

def ofBytes (bytes : List UInt8) : Digest := ⟨hashWords bytes⟩

def ofString (s : String) : Digest := ofBytes s.toUTF8.toList

def ofParts (parts : List String) : Digest := ofBytes (parts.flatMap fun s => s.toUTF8.toList)

/-- The digits of a word, low byte first. -/
def wordDigits (w : UInt32) : List Char :=
  ([0, 8, 16, 24] : List UInt32).flatMap fun shift => Text.hexDigits 2 ((w >>> shift).toNat % 256)

def hex (d : Digest) : String := String.ofList (d.words.flatMap wordDigits)

/-- The first `count` digits of a digest. -/
def short (d : Digest) (count : Nat) : String :=
  String.ofList ((d.words.flatMap wordDigits).take count)

end Digest

end ShaderCompose
